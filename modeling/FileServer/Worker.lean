import FileServer.UserStore

/-!
# Processing one task (worker_thread_main in worker.c)

What a worker does between taking a task and freeing it: the store operations
and the responses it sends, in order. Results of the calls into `fs.c` are
inputs, so that the branches hold for every state of the file system.
-/

namespace FileServer

set_option autoImplicit false

/-- What the calls into `fs.c` and the test `fopen(tmpfile)` report; an error
is the text left in `err`, a download the path of the decoded copy. -/
structure FileResults where
  tmpfileOpens : Bool
  upload : Except CString Unit
  download : Except CString CString
  delete : Bool
  list : Option CString

inductive Effect where
  | sendResponse (status : ResponseStatus) (message : CString)
  | sendFileData (filePath filename : CString)
  deriving DecidableEq, Repr

/-- Division rounded to nearest, ties to even. -/
def roundDiv (a b : Nat) : Nat :=
  let q := a / b
  let r := a % b
  if 2 * r < b ∨ (2 * r = b ∧ q % 2 = 0) then q else q + 1

/-- The value of `(double)n`. -/
def toDouble (n : Nat) : Nat :=
  let unit := 2 ^ (n.log2 - 52)
  roundDiv n unit * unit

def decimal (n : Nat) : CString := cstr (toString n)

/-- `%.2f` of `(double)size / (1024 * 1024)`. -/
def megabytes (size : Nat) : CString :=
  let hundredths := roundDiv (100 * toDouble size) (1024 * 1024)
  decimal (hundredths / 100) ++ cstr "." ++
    decimal (hundredths % 100 / 10) ++ decimal (hundredths % 10)

def fileTooLarge (size : Nat) : CString :=
  snprintf 255 (cstr "File too large (" ++ megabytes size ++
    cstr " MB). Upgrade to high priority for larger uploads.")

/-- `err[0] ? err : text`. -/
def orText (err text : CString) : CString := if err = [] then text else err

def processSignup (works : Bool) (store : UserStore) (t : Task) : UserStore × List Effect :=
  let (ok, store) :=
    userStoreSignup works store t.username t.password (100 * 2 ^ 20) t.priority
  let err := snprintf 255 (cstr "Signup failed - user may already exist")
  if ok then (store, [.sendResponse .ok (cstr "signed_up")])
  else (store, [.sendResponse .err (orText err (cstr "signup_failed"))])

def processLogin (works : Bool) (store : UserStore) (t : Task) : Option User → List Effect
  | some _ =>
    if userStoreLogin works store t.username t.password then
      [.sendResponse .ok (cstr "logged_in")]
    else [.sendResponse .err (snprintf 255 (cstr "Invalid username or password"))]
  | none => [.sendResponse .err (snprintf 255 (cstr "User not found"))]

def uploadResult (files : FileResults) (t : Task) (user : Option User) : Except CString Unit :=
  if t.path = [] ∨ t.tmpfile = [] then
    .error (snprintf 255 (cstr "Invalid file path or temporary file"))
  else
    match user with
    | some u =>
      if t.size > 10 * 1024 * 1024 ∧ u.priority.rank < TaskPriority.high.rank then
        .error (fileTooLarge t.size)
      else if files.tmpfileOpens then
        match files.upload with
        | .ok () => .ok ()
        | .error text => .error (snprintf 255 text)
      else .error (snprintf 255 (cstr "Temporary file not found or inaccessible"))
    | none => .error (snprintf 255 (cstr "User not found or not logged in"))

def processUpload (files : FileResults) (t : Task) (user : Option User) : List Effect :=
  match uploadResult files t user with
  | .ok () => [.sendResponse .ok (cstr "uploaded")]
  | .error err => [.sendResponse .err (orText err (cstr "upload failed"))]

def processDownload (files : FileResults) (t : Task) (user : Option User) : List Effect :=
  if t.path = [] then [.sendResponse .err (snprintf 255 (cstr "Invalid file path"))]
  else
    match user with
    | some u =>
      match files.download with
      | .ok p =>
        if u.priority = .high then
          [.sendResponse .ok (cstr "downloaded"), .sendFileData p t.path]
        else [.sendResponse .ok p]
      | .error text =>
        [.sendResponse .err (orText (snprintf 255 text) (cstr "Download failed"))]
    | none => [.sendResponse .err (snprintf 255 (cstr "User not found or not logged in"))]

def processDelete (files : FileResults) : Option User → List Effect
  | some _ =>
    if files.delete then [.sendResponse .ok (cstr "deleted")]
    else [.sendResponse .err (snprintf 256 (cstr "remove failed"))]
  | none => [.sendResponse .err (snprintf 256 (cstr "User not found"))]

def processList (files : FileResults) : Option User → List Effect
  | some _ =>
    match files.list with
    | some listing => [.sendResponse .ok listing]
    | none => [.sendResponse .err (snprintf 256 (cstr "opendir failed"))]
  | none => [.sendResponse .err (snprintf 256 (cstr "User not found"))]

/-- Whether the branch of the task calls `user_store_lock_user`. -/
def locksUser (t : Task) : Bool :=
  match t.type with
  | .login | .delete | .list => true
  | .upload => !(t.path = [] ∨ t.tmpfile = [])
  | .download => !(t.path = [])
  | .signup | .unknown | .quit => false

/-- The `switch`, with `user` the result of `user_store_lock_user`. -/
def processTask (works : Bool) (files : FileResults) (store : UserStore) (t : Task)
    (user : Option User) : UserStore × List Effect :=
  match t.type with
  | .signup => processSignup works store t
  | .login => (store, processLogin works store t user)
  | .upload => (store, processUpload files t user)
  | .download => (store, processDownload files t user)
  | .delete => (store, processDelete files user)
  | .list => (store, processList files user)
  | .unknown | .quit => (store, [])

/-- The `Response` that `send_response` fills in. -/
def makeResponse (t : Task) (status : ResponseStatus) (message : CString) : Response where
  clientId := t.client.clientId
  status := status
  message := strncpyZ 512 message

def CommandType.isFileCommand : CommandType → Bool
  | .upload | .download | .delete | .list => true
  | .unknown | .signup | .login | .quit => false

theorem uploadResult_ok {files : FileResults} {t : Task} {user : Option User}
    (h : uploadResult files t user = .ok ()) :
    ¬ (t.path = [] ∨ t.tmpfile = []) ∧ user.isSome = true := by
  unfold uploadResult at h
  split at h
  · contradiction
  · rename_i hargs
    cases user with
    | none => contradiction
    | some u => exact ⟨hargs, rfl⟩

theorem processUpload_ok {files : FileResults} {t : Task} {user : Option User} {message : CString}
    (h : .sendResponse .ok message ∈ processUpload files t user) :
    ¬ (t.path = [] ∨ t.tmpfile = []) ∧ user.isSome = true := by
  unfold processUpload at h
  split at h
  · rename_i hok
    exact uploadResult_ok hok
  · simp at h

theorem processDownload_ok {files : FileResults} {t : Task} {user : Option User}
    {message : CString} (h : .sendResponse .ok message ∈ processDownload files t user) :
    t.path ≠ [] ∧ user.isSome = true := by
  unfold processDownload at h
  split at h
  · simp at h
  · rename_i hpath
    cases user with
    | none => simp at h
    | some u => exact ⟨hpath, rfl⟩

theorem user_of_ok {works : Bool} {files : FileResults} {store : UserStore} {t : Task}
    {user : Option User} {message : CString} (hfile : t.type.isFileCommand = true)
    (h : .sendResponse .ok message ∈ (processTask works files store t user).2) :
    locksUser t = true ∧ user.isSome = true := by
  unfold processTask at h
  unfold locksUser
  cases htype : t.type with
  | upload =>
    rw [htype] at h
    obtain ⟨hargs, huser⟩ := processUpload_ok h
    exact ⟨by simpa using hargs, huser⟩
  | download =>
    rw [htype] at h
    obtain ⟨hpath, huser⟩ := processDownload_ok h
    exact ⟨by simpa using hpath, huser⟩
  | delete =>
    rw [htype] at h
    cases user with
    | none => simp [processDelete] at h
    | some u => exact ⟨rfl, rfl⟩
  | list =>
    rw [htype] at h
    cases user with
    | none => simp [processList] at h
    | some u => exact ⟨rfl, rfl⟩
  | signup => simp [htype, CommandType.isFileCommand] at hfile
  | login => simp [htype, CommandType.isFileCommand] at hfile
  | unknown => simp [htype, CommandType.isFileCommand] at hfile
  | quit => simp [htype, CommandType.isFileCommand] at hfile

end FileServer
