import FileServer.Command
import FileServer.FileSteps
import FileServer.LinkedFiles
import FileServer.Shared.Runs

/-!
# Workers that process commands (worker.c, user_db.c, fs.c)

Workers take commands and go on step by step: a sign-up enters the name and makes
the directory in two steps, file tasks make one library call at a time. `mkdir` is
called outside the critical section and its result ignored. What the calls act on is
a parameter: the files of `FileSystem`, or the tree of `LinkedFiles`.
-/

namespace FileServer

open LexicalPath Runs
set_option autoImplicit false

universe u
variable {ι : Type u} {ω : Type}

def opendir (cwd : List CString) (files : Files) (path : CString) : Bool :=
  files.barred (origin cwd path) (components path) = none ∧ files.node (locate cwd path) = .dir

/-- The loop of `fs_list`; the entry that no longer fits is cut and ends it. -/
def listEntries (buflen : Nat) (buf : CString) : List CString → CString
  | [] => buf
  | name :: names =>
    if name = cstr "." ∨ name = cstr ".." then listEntries buflen buf names
    else
      let line := name ++ cstr "\n"
      if line.length ≥ buflen - buf.length then buf ++ line.take (buflen - buf.length - 1)
      else listEntries buflen (buf ++ line) names

/-- `entries` is what `readdir` returns, in its order. -/
def listOpened (opens : Bool) (fault : Option Fault) (entries : List CString) : Option CString :=
  if fault.isNone ∧ opens then some (listEntries 4096 [] entries) else none

def fsList (cwd : List CString) (files : Files) (store : UserStore) (user : CString)
    (fault : Option Fault) (entries : List CString) : Option CString :=
  listOpened (opendir cwd files (buildUserPath store user [])) fault entries

/-- How library calls are answered, with a fault of the system or without. -/
structure Disk (ω : Type) where
  perform : Option Fault → ω → Request → CallAnswer × ω
  opendir : ω → CString → Bool

def filesDisk (cwd : List CString) : Disk Files := ⟨perform cwd, opendir cwd⟩

def treeDisk (cwd : List CString) : Disk Tree := ⟨Tree.perform cwd, Tree.opendir cwd⟩

/-- A command in the hands of a worker, with what its surroundings decide. -/
structure Taking where
  client : ClientInfo
  created : Timespec
  line : CString
  works : Bool
  now : Int
  faults : Nat → Option Fault

inductive WorkerStage where
  | idle
  | signingUp (task : Task) (works : Bool) (faults : Nat → Option Fault)
  | making (task : Task) (effects : List Effect) (faults : Nat → Option Fault)
  | filing (store : UserStore) (p : FileProcess)
  | listing (task : Task) (user : Option User) (works : Bool) (faults : Nat → Option Fault)

structure Workshop (ι : Type u) (ω : Type) where
  store : UserStore
  files : ω
  worker : ι → WorkerStage
  answers : List (Task × List Effect)

inductive WorkLabel (ι : Type u) where
  | take (w : ι) (taking : Taking)
  | move (w : ι) (entries : List CString)

section System
variable [DecidableEq ι] (disk : Disk ω)

def Workshop.goTo (s : Workshop ι ω) (w : ι) (stage : WorkerStage) : Workshop ι ω :=
  { s with worker := Function.update s.worker w stage }

def Workshop.answer (s : Workshop ι ω) (w : ι) (task : Task) (effects : List Effect) : Workshop ι ω :=
  { s.goTo w .idle with answers := (task, effects) :: s.answers }

def takeTask (s : Workshop ι ω) (w : ι) (taking : Taking) (task : Task) : Workshop ι ω :=
  let user := userStoreLockUser taking.works s.store task.username
  if hfile : task.type = .upload ∨ task.type = .download ∨ task.type = .delete then
    s.goTo w (.filing s.store (.start s.store ⟨⟨task, hfile⟩, taking.works, taking.now, taking.faults⟩))
  else
    match task.type with
    | .signup => s.goTo w (.signingUp task taking.works taking.faults)
    | .list => s.goTo w (.listing task user taking.works taking.faults)
    | _ => s.answer w task (processTask taking.works noResults s.store task user).2

def workStep (s : Workshop ι ω) : WorkLabel ι → Option (Workshop ι ω)
  | .take w taking =>
    match s.worker w, parseCommand taking.client taking.created taking.line with
    | .idle, .submit task => some (takeTask s w taking task)
    | _, _ => none
  | .move w entries =>
    match s.worker w with
    | .idle => none
    | .signingUp task works faults =>
      let (ok, store) := userStoreSignup works s.store task.username task.password (100 * 2 ^ 20)
        task.priority
      let effects := (processSignup works s.store task).2
      if ok then some ({ s with store }.goTo w (.making task effects faults))
      else some (s.answer w task effects)
    | .making task effects faults =>
      let made := disk.perform (faults 0) s.files ⟨userDirectory s.store task.username, .mkdir⟩
      some ({ s with files := made.2 }.answer w task effects)
    | .filing store p =>
      if (fileRequest store p.job p.stage).isNone then
        some (s.answer w p.job.task.toTask (p.responses store))
      else
        let (p, files) := fileCall disk.perform store p s.files
        some ({ s with files }.goTo w (.filing store p))
    | .listing task user works faults =>
      let opens := disk.opendir s.files (buildUserPath s.store task.username [])
      let results := { noResults with list := listOpened opens (faults 0) entries }
      some (s.answer w task (processTask works results s.store task user).2)

def workStart (store : UserStore) (files : ω) : Workshop ι ω := ⟨store, files, fun _ => .idle, []⟩

end System

/-- The states that workers reach whose steps are all allowed. -/
abbrev WorkReached [DecidableEq ι] (disk : Disk ω) (store : UserStore) (files : ω)
    (allowed : Workshop ι ω → WorkLabel ι → Prop) : Workshop ι ω → Prop :=
  Reached (workStep disk) allowed (workStart store files)

/-- A sign-up for `n` has been answered OK. -/
def SignedUp (s : Workshop ι ω) (n : CString) : Prop :=
  ∃ task effects message, (task, effects) ∈ s.answers ∧ task.type = .signup ∧ task.username = n ∧
    .sendResponse .ok message ∈ effects

section Commands

def sendLine (line : String) : Taking where
  client := ⟨1, 4⟩
  created := ⟨0, 0⟩
  line := cstr line
  works := true
  now := 0
  faults _ := none

/-- One worker processes a command for a number of steps. -/
def command (line : String) (steps : Nat) : List (WorkLabel (Fin 1)) :=
  let worker : Fin 1 := ⟨0, Nat.zero_lt_one⟩
  .take worker (sendLine line) :: List.replicate steps (.move worker [])

end Commands

end FileServer
