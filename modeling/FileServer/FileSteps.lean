import FileServer.FileSystem
import FileServer.Worker
import FileServer.Shared.Interleaving

/-!
# UPLOAD, DOWNLOAD and DELETE call by call (worker.c, fs.c, crypto.c)

A worker between `user_store_lock_user` and `user_store_unlock_user` is a process
that makes one library call at a time and goes on with its answer. The user
returned by `user_store_lock_user` is a private copy whose mutex nobody locks, so
no step of a process ever waits for another one.
-/

namespace FileServer

open LexicalPath Interleaving
set_option autoImplicit false

def xorCipher (input key : List Byte) : List Byte :=
  input.mapIdx fun i b => b ^^^ key.getD (i % key.length) 0

def encodeData (data : List Byte) : List Byte := xorCipher data (cstr "MySecretKey123")

def decodeData (data : List Byte) : List Byte := encodeData data

def userDirectory (store : UserStore) (user : CString) : CString :=
  snprintf 512 (userDirPath store user)

def tempDir : CString := cstr "/tmp/os_lab7_downloads"

def replaceProblematic (c : Byte) : Byte := if c ∈ cstr "/\\:*?\"<>|" then 95 else c

/-- The name of the temporary file; the slashes of `temp_dir` are replaced too. -/
def tempPath (user relpath : CString) (now : Int) : CString :=
  (snprintf 512 (tempDir ++ slash :: (user ++ cstr "_" ++ relpath ++ cstr "_" ++
    cstr (toString now) ++ cstr ".tmp"))).map replaceProblematic

structure FileTask extends Task where
  isFile : type = .upload ∨ type = .download ∨ type = .delete

/-- A task in the hands of a worker: whether its look-up of the user works, the
clock and the faults of its successive library calls. -/
structure FileJob where
  task : FileTask
  works : Bool
  now : Int
  faults : Nat → Option Fault

/-- The calls of the UPLOAD branch and of `fs_upload`. `i` and `o` are the open
files, a `failure` is the text in `err` once `success` is false. Freeing a buffer
twice has no defined behaviour; `aborted` is what the C library makes of it. -/
inductive UploadStage where
  | testTmpfile
  | closeTest
  | mkdir
  | openIn
  | openOut (i : Handle)
  | abandon (text : CString)
  | read (i o : Handle)
  | encode (i o : Handle) (block : List Byte)
  | write (i o : Handle) (block : List Byte)
  | closeIn (failure : Option CString)
  | closeOut (failure : Option CString)
  | remove (err : CString)
  | unlinkTmpfile
  | aborted
  | done (tmpfileOpens : Bool) (result : Except CString Unit)

inductive DownloadStage where
  | openFile
  | seek (i : Handle)
  | tell (i : Handle)
  | mkdir (i : Handle)
  | openTemp (i : Handle)
  | abandon (text : CString)
  | read (i o : Handle)
  | decode (i o : Handle) (block : List Byte)
  | write (i o : Handle) (block : List Byte)
  | closeTemp (failure : Option CString)
  | closeFile (failure : Option CString)
  | remove (err : CString)
  | chmod
  | removeLong
  | unlinkTemp (content : List Byte)
  | aborted
  | done (result : Except CString CString) (content : List Byte)

inductive DeleteStage where
  | remove
  | done (ok : Bool)

inductive FileStage where
  | upload (s : UploadStage)
  | download (s : DownloadStage)
  | delete (s : DeleteStage)

structure FileProcess where
  job : FileJob
  calls : Nat
  errno : CString
  stage : FileStage

section Requests
variable (store : UserStore) (job : FileJob)

def FileJob.user : Option User :=
  if locksUser job.task.toTask then userStoreLockUser job.works store job.task.username else none

/-- The branch of the `switch` up to its first library call. -/
def firstStage : FileStage :=
  match job.task.type, job.user store with
  | .upload, none => .upload (.done false (.error []))
  | .upload, some u =>
    if job.task.size > 10 * 1024 * 1024 ∧ u.priority.rank < TaskPriority.high.rank then
      .upload (.done false (.error []))
    else .upload .testTmpfile
  | .download, none => .download (.done (.error []) [])
  | .download, some _ => .download .openFile
  | _, none => .delete (.done false)
  | _, some _ => .delete .remove

def FileProcess.start : FileProcess := ⟨job, 0, [], firstStage store job⟩

def FileJob.userPath : CString := buildUserPath store job.task.username job.task.path

def FileJob.tempPath : CString := FileServer.tempPath job.task.username job.task.path job.now

def uploadRequest : UploadStage → Option Request
  | .testTmpfile | .openIn => some ⟨job.task.tmpfile, .fopenRead⟩
  | .closeTest | .abandon _ | .encode _ _ _ | .closeIn _ => some ⟨job.task.tmpfile, .plain⟩
  | .mkdir => some ⟨userDirectory store job.task.username, .mkdir⟩
  | .openOut _ => some ⟨job.userPath store, .fopenWrite⟩
  | .read i _ => some ⟨job.task.tmpfile, .fread i⟩
  | .write _ o block => some ⟨job.userPath store, .fwrite o (encodeData block)⟩
  | .closeOut _ => some ⟨job.userPath store, .plain⟩
  | .remove _ => some ⟨job.userPath store, .remove⟩
  | .unlinkTmpfile => some ⟨job.task.tmpfile, .unlink⟩
  | .aborted | .done _ _ => none

def downloadRequest : DownloadStage → Option Request
  | .openFile => some ⟨job.userPath store, .fopenRead⟩
  | .seek _ | .tell _ | .abandon _ | .decode _ _ _ | .closeFile _ =>
    some ⟨job.userPath store, .plain⟩
  | .mkdir _ => some ⟨tempDir, .mkdir⟩
  | .openTemp _ => some ⟨job.tempPath, .fopenWrite⟩
  | .read i _ => some ⟨job.userPath store, .fread i⟩
  | .write _ o block => some ⟨job.tempPath, .fwrite o (decodeData block)⟩
  | .closeTemp _ => some ⟨job.tempPath, .plain⟩
  | .remove _ | .removeLong => some ⟨job.tempPath, .remove⟩
  | .chmod => some ⟨job.tempPath, .chmod⟩
  | .unlinkTemp _ => some ⟨job.tempPath, .unlink⟩
  | .aborted | .done _ _ => none

def deleteRequest : DeleteStage → Option Request
  | .remove => some ⟨job.userPath store, .remove⟩
  | .done _ => none

def fileRequest : FileStage → Option Request
  | .upload s => uploadRequest store job s
  | .download s => downloadRequest store job s
  | .delete s => deleteRequest store job s

end Requests

/-- `errno` is its value after the call that `a` answers. -/
def uploadResume (errno : CString) (a : CallAnswer) : UploadStage → UploadStage
  | .testTmpfile => if a.error.isSome then .done false (.error []) else .closeTest
  | .closeTest => .mkdir
  | .mkdir =>
    if a.error = none ∨ a.error = some eexist then .openIn
    else .done true (.error (cstr "Failed to create user directory: " ++ errno))
  | .openIn =>
    if a.error = none then .openOut a.handle
    else .done true (.error (cstr "Failed to open source file: " ++ errno))
  | .openOut i =>
    if a.error = none then .read i a.handle
    else .abandon (cstr "Failed to create destination file: ")
  | .abandon text => .done true (.error (text ++ errno))
  | .read _ o => if a.bytes = [] then leave a.handle none else .encode a.handle o a.bytes
  | .encode i o block =>
    if a.error = none then .write i o block else leave i (some (cstr "Failed to encode data"))
  -- the loop frees `encoded_buf` before its `break`, and the cleanup frees it again
  | .write i _ _ => if a.error = none then .read i a.handle else .aborted
  | .closeIn failure => .closeOut failure
  | .closeOut failure =>
    match failure with
    | some err => .remove err
    | none =>
      if a.error = none then .unlinkTmpfile
      else .remove (cstr "Failed to close destination file: " ++ errno)
  | .remove err => .done true (.error err)
  | .unlinkTmpfile => .done true (.ok ())
  | .aborted => .aborted
  | .done tmpfileOpens result => .done tmpfileOpens result
where
  -- after the loop, `ferror(in)` overrides the failure that ended it
  leave (i : Handle) (failure : Option CString) : UploadStage :=
    .closeIn (if i.error then some (cstr "Read error: " ++ errno) else failure)

def downloadResume (store : UserStore) (job : FileJob) (errno : CString) (a : CallAnswer) :
    DownloadStage → DownloadStage
  | .openFile =>
    if a.error = none then .seek a.handle
    else .done (.error (cstr "File not found or inaccessible: " ++ errno)) []
  | .seek i =>
    if a.error = none then .tell i else .abandon (cstr "Failed to determine file size: ")
  | .tell i => if a.error = none then .mkdir i else .abandon (cstr "Failed to get file size: ")
  | .mkdir i =>
    if a.error = none ∨ a.error = some eexist then .openTemp i
    else .abandon (cstr "Failed to create temp directory: ")
  | .openTemp i =>
    if a.error = none then .read i a.handle
    else .abandon (cstr "Failed to create temporary file: ")
  | .abandon text => .done (.error (text ++ errno)) []
  | .read _ o =>
    if a.bytes = [] then
      .closeTemp (if a.handle.error then some (cstr "Error reading from file: " ++ errno) else none)
    else .decode a.handle o a.bytes
  | .decode i o block =>
    if a.error = none then .write i o block else .closeTemp (some (cstr "Failed to decode data"))
  -- the same with `decoded_buf`
  | .write i _ _ => if a.error = none then .read i a.handle else .aborted
  | .closeTemp failure =>
    if a.error ≠ none ∧ failure = none then
      .closeFile (some (cstr "Error closing temporary file: " ++ errno))
    else .closeFile failure
  | .closeFile failure =>
    match failure with
    | some err => .remove err
    | none => .chmod
  | .remove err => .done (.error err) []
  | .chmod =>
    if job.tempPath.length ≥ 511 then .removeLong
    else if (job.user store).map User.priority = some .high then .unlinkTemp a.bytes
    else .done (.ok job.tempPath) a.bytes
  | .removeLong => .done (.error (cstr "Temporary file path is too long")) []
  | .unlinkTemp content => .done (.ok job.tempPath) content
  | .aborted => .aborted
  | .done result content => .done result content

def deleteResume (a : CallAnswer) : DeleteStage → DeleteStage
  | .remove => .done a.error.isNone
  | .done ok => .done ok

def fileResume (store : UserStore) (job : FileJob) (errno : CString) (a : CallAnswer) :
    FileStage → FileStage
  | .upload s => .upload (uploadResume errno a s)
  | .download s => .download (downloadResume store job errno a s)
  | .delete s => .delete (deleteResume a s)

/-- One library call of a worker, which `ask` answers. -/
def fileCall {ω : Type} (ask : Option Fault → ω → Request → CallAnswer × ω) (store : UserStore)
    (p : FileProcess) (world : ω) : FileProcess × ω :=
  match fileRequest store p.job p.stage with
  | none => (p, world)
  | some r =>
    let out := ask (p.job.faults p.calls) world r
    let errno := out.1.error.getD p.errno
    ({ p with
        calls := p.calls + 1
        errno := errno
        stage := fileResume store p.job errno out.1 p.stage }, out.2)

def fileStep (cwd : List CString) (store : UserStore) (p : FileProcess) (files : Files) :
    FileProcess × Files :=
  fileCall (perform cwd) store p files

def noResults : FileResults := ⟨false, .error [], .error [], false, none⟩

def FileStage.results : FileStage → FileResults
  | .upload (.done tmpfileOpens result) =>
    { noResults with tmpfileOpens := tmpfileOpens, upload := result }
  | .download (.done result _) => { noResults with download := result }
  | .delete (.done ok) => { noResults with delete := ok }
  | _ => noResults

def FileStage.aborted : FileStage → Bool
  | .upload .aborted | .download .aborted => true
  | _ => false

/-- The responses of the finished task. -/
def FileProcess.responses (store : UserStore) (p : FileProcess) : List Effect :=
  if p.stage.aborted then []
  else (processTask p.job.works p.stage.results store p.job.task.toTask (p.job.user store)).2

/-- What a DOWNLOAD answered OK left in the temporary file. -/
def FileProcess.downloaded (p : FileProcess) : Option (List Byte) :=
  match p.stage with
  | .download (.done (.ok _) content) => some content
  | _ => none

/-- The paths that the calls of a process name. -/
def FileProcess.paths (store : UserStore) (p : FileProcess) : List CString :=
  match p.stage with
  | .upload _ => [p.job.task.tmpfile, p.job.userPath store, userDirectory store p.job.task.username]
  | .download _ => [p.job.userPath store, p.job.tempPath, tempDir]
  | .delete _ => [p.job.userPath store]

def FileProcess.foot (cwd : List CString) (store : UserStore) (p : FileProcess) : Set Location :=
  {l | ∃ path ∈ p.paths store, l ∈ touched cwd path}

section Locality
variable {cwd : List CString} {store : UserStore} {p : FileProcess}

theorem fileRequest_path {r : Request} (h : fileRequest store p.job p.stage = some r) :
    r.path ∈ p.paths store := by
  unfold FileProcess.paths
  generalize p.stage = stage at h ⊢
  cases stage with
  | upload s => cases s <;> cases h <;> simp
  | download s => cases s <;> cases h <;> simp
  | delete s =>
    cases s <;> cases h
    simp

theorem fileRequest_touched {r : Request} (h : fileRequest store p.job p.stage = some r) :
    touched cwd r.path ⊆ p.foot cwd store := fun _ hl => ⟨r.path, fileRequest_path h, hl⟩

theorem foot_fileStep (files : Files) :
    (fileStep cwd store p files).1.foot cwd store = p.foot cwd store := by
  have hpaths : (fileStep cwd store p files).1.paths store = p.paths store := by
    unfold fileStep fileCall
    split
    · rfl
    · unfold FileProcess.paths
      dsimp only
      cases p.stage <;> rfl
  rw [FileProcess.foot, FileProcess.foot, hpaths]

theorem fileStep_frame (files : Files) {l : Location} (h : l ∉ p.foot cwd store) :
    (fileStep cwd store p files).2.view l = files.view l := by
  unfold fileStep fileCall
  split
  · rfl
  · rename_i r hr
    exact perform_frame _ fun hl => h (fileRequest_touched hr hl)

theorem fileStep_congr {files files' : Files}
    (h : ∀ l ∈ p.foot cwd store, files.view l = files'.view l) :
    (fileStep cwd store p files).1 = (fileStep cwd store p files').1 ∧
      ∀ l ∈ p.foot cwd store,
        (fileStep cwd store p files).2.view l = (fileStep cwd store p files').2.view l := by
  unfold fileStep fileCall
  split
  · exact ⟨rfl, h⟩
  · rename_i r hr
    obtain ⟨hanswer, hview⟩ := perform_congr (p.job.faults p.calls) (fileRequest_touched hr) h
    dsimp only
    rw [hanswer]
    exact ⟨rfl, hview⟩

end Locality

/-- The workers as processes over the file system. -/
def fileMachine (cwd : List CString) (store : UserStore) :
    Machine Files Location Cell FileProcess where
  view := Files.view
  step := fileStep cwd store
  done p := (fileRequest store p.job p.stage).isNone
  foot := FileProcess.foot cwd store
  foot_step _ files := foot_fileStep files
  frame _ files _ h := fileStep_frame files h
  congr _ _ _ h := fileStep_congr h

end FileServer
