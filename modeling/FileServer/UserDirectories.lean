import FileServer.LinkedPaths
import FileServer.Workshop

/-!
# The directories of registered users (user_db.c, fs.c, worker.c)

A sign-up ignores what its `mkdir` says, `fs_delete` removes whatever its path leads
to, the directory itself when the relpath is missing, and an upload or a download may
open the database of the users as its destination. What keeps the directories, on a
tree with links and for any interleaving of the workers, is that every sign-up makes
its directory, that no name on the way to one is taken away, and that the database is
not written over.
-/

namespace FileServer

open LexicalPath Runs
set_option autoImplicit false

universe u
variable {ι : Type u}

section System
variable [DecidableEq ι] (cwd : List CString) (databaseFile : CString)

/-- Where `<root>/` leads. -/
def Tree.root (t : Tree) (store : UserStore) : Except CString Location :=
  t.target cwd (store.storageRoot ++ [slash])

/-- The names that the path of a user's directory looks at. -/
def Tree.userWay (t : Tree) (store : UserStore) (user : CString) : List Location :=
  t.way true strides (origin cwd (userDirPath store user)) (components (userDirPath store user))

end System

/-- The directory of `n` is there and belongs to nobody else. -/
structure Housed (cwd : List CString) (s : Workshop ι Tree) (n : CString) : Prop where
  registered : n ∈ s.store.names
  single : SingleName n
  length : n.length ≤ 63
  place : ∃ R, s.files.root cwd s.store = .ok R ∧
    s.files.target cwd (userDirPath s.store n) = .ok (R.walk (.name n)) ∧
    s.files.entry (R.walk (.name n)) = .dir

def SignupTask (task : Task) : Prop := task.type = .signup ∧ task.username.length ≤ 63

def StageOk (store : UserStore) : WorkerStage → Prop
  | .signingUp task _ _ => SignupTask task
  | .making task _ _ => SignupTask task ∧ task.username ∈ store.names
  | .listing task _ _ _ => task.type = .list
  | .idle | .filing _ _ => True

/-- The invariant of the directories. -/
structure Orderly (cwd : List CString) (s : Workshop ι Tree) : Prop where
  housed : ∀ n, SignedUp s n → Housed cwd s n
  stages : ∀ w, StageOk s.store (s.worker w)

section Places
variable {cwd : List CString} {store : UserStore} {t t' : Tree} {user : CString} {R : Location}

theorem components_user (hu : SingleName user) :
    components (userDirPath store user) = components store.storageRoot ++ [.name user] := by
  rw [userDirPath, components_append, hu.components]

theorem origin_user : origin cwd (userDirPath store user) = origin cwd (store.storageRoot ++ [slash]) :=
  origin_append cwd _ _

theorem root_stays (hu : SingleName user) (hstays : ∀ l ∈ t.userWay cwd store user, Stays t t' l)
    (hroot : t.root cwd store = .ok R) : t'.root cwd store = .ok R := by
  rw [Tree.root, Tree.target, components_slash] at hroot ⊢
  refine lead_stays ?_ hroot
  intro l hl
  apply hstays
  rw [Tree.userWay, components_user hu, origin_user]
  exact way_here t true strides _ _ _ hl

theorem target_user_stays (hstays : ∀ l ∈ t.userWay cwd store user, Stays t t' l)
    {l : Location} (h : t.target cwd (userDirPath store user) = .ok l) (hdir : t.entry l = .dir) :
    t'.target cwd (userDirPath store user) = .ok l ∧ t'.entry l = .dir :=
  ⟨lead_stays hstays h, (hstays l (lead_mem_way h)).dir hdir⟩

end Places

section Steps
variable {cwd : List CString} {databaseFile : CString} {s s' : Workshop ι Tree} {n : CString}

theorem userDirPath_congr {store store' : UserStore} (h : store'.storageRoot = store.storageRoot)
    (user : CString) : userDirPath store' user = userDirPath store user := by
  rw [userDirPath, userDirPath, h]

theorem Housed.frame (h : Housed cwd s n) (hroot : s'.store.storageRoot = s.store.storageRoot)
    (hnames : ∀ m ∈ s.store.names, m ∈ s'.store.names)
    (hstays : ∀ l ∈ s.files.userWay cwd s.store n, Stays s.files s'.files l) :
    Housed cwd s' n := by
  obtain ⟨R, hleads, htarget, hdir⟩ := h.place
  obtain ⟨htarget', hdir'⟩ := target_user_stays hstays htarget hdir
  refine ⟨hnames n h.registered, h.single, h.length, R, ?_, ?_, hdir'⟩
  · have hleads' := root_stays h.single hstays hleads
    rw [Tree.root, hroot]
    exact hleads'
  · rw [userDirPath_congr hroot]
    exact htarget'

theorem StageOk.mono {store store' : UserStore} {stage : WorkerStage} (h : StageOk store stage)
    (hnames : ∀ m ∈ store.names, m ∈ store'.names) : StageOk store' stage := by
  cases stage with
  | making task effects faults => exact ⟨h.1, hnames _ h.2⟩
  | signingUp task works faults => exact h
  | listing task user works faults => exact h
  | idle => trivial
  | filing store p => trivial

variable [DecidableEq ι]

theorem Orderly.step (h : Orderly cwd s) {w : ι} {stage : WorkerStage}
    (hanswers : ∀ m, SignedUp s' m → SignedUp s m ∨ Housed cwd s' m)
    (hworker : s'.worker = Function.update s.worker w stage) (hstage : StageOk s'.store stage)
    (hroot : s'.store.storageRoot = s.store.storageRoot)
    (hnames : ∀ m ∈ s.store.names, m ∈ s'.store.names)
    (hstays : ∀ m ∈ s.store.names, ∀ l ∈ s.files.userWay cwd s.store m,
      Stays s.files s'.files l) : Orderly cwd s' := by
  refine ⟨?_, ?_⟩
  · intro m hm
    rcases hanswers m hm with hold | hnew
    · have hhoused := h.housed m hold
      exact hhoused.frame hroot hnames (hstays m hhoused.registered)
    · exact hnew
  · intro v
    rw [hworker, Function.update_apply]
    split
    · exact hstage
    · exact (h.stages v).mono hnames

theorem Orderly.quiet (h : Orderly cwd s) {w : ι} {stage : WorkerStage}
    (hanswers : ∀ m, SignedUp s' m → SignedUp s m)
    (hworker : s'.worker = Function.update s.worker w stage) (hstage : StageOk s'.store stage)
    (hstore : s'.store = s.store) (hfiles : s'.files = s.files) : Orderly cwd s' := by
  refine h.step (fun m hm => Or.inl (hanswers m hm)) hworker hstage ?_ ?_ ?_
  · rw [hstore]
  · intro m hm
    rwa [hstore]
  · intro m _ l _
    rw [hfiles]
    exact Or.inl rfl

end Steps

section Housed
variable {cwd : List CString} {s : Workshop ι Tree} {n : CString}

theorem Housed.opens (h : Housed cwd s n) :
    s.files.opendir cwd (userDirPath s.store n) = true := by
  obtain ⟨R, -, htarget, hdir⟩ := h.place
  rw [Tree.opendir, htarget]
  exact decide_eq_true hdir

end Housed

section Examples

/-- A server started in `/srv` with an empty storage root. -/
def emptyTree : Tree where
  entries := [(locate [] (cstr "srv"), .dir), (locate [] (cstr "srv/storage"), .dir)]
  contents _ := []
  next := 0

end Examples

end FileServer
