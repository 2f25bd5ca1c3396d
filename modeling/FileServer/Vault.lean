import FileServer.Credentials
import FileServer.DownloadIsolation

/-!
# The server as a map from user and relpath to bytes (worker.c, fs.c, user_db.c)

Tasks that are processed one after another, with single path components as names and
no I/O error, act on the storage root as the operations of a map act on the map. The
file at `<root>/<user>/<relpath>` holds the coded bytes of its key, and a download
leaves the bytes themselves under the name in its reply. Between two tasks whatever
lies outside the storage root may change, so that clients can put their files there.
-/

namespace FileServer

open LexicalPath Interleaving
set_option autoImplicit false

/-- What the server is for: accounts, and the bytes that users have stored. -/
structure Vault where
  accounts : Credentials
  files : CString × CString → Option (List Byte)

/-- The source of an upload is given by its bytes, if it can be read. -/
inductive VaultOp where
  | signup (user password : CString)
  | login (user password : CString)
  | upload (user relpath : CString) (source : Option (List Byte))
  | download (user relpath : CString)
  | delete (user relpath : CString)

inductive VaultReply where
  | ok
  | err
  | content (bytes : List Byte)
  deriving DecidableEq, Repr

def Vault.bind (v : Vault) (key : CString × CString) (entry : Option (List Byte)) : Vault :=
  { v with files := Function.update v.files key entry }

def Vault.apply (v : Vault) : VaultOp → VaultReply × Vault
  | .signup user password =>
    if v.accounts user = none then
      (.ok, { v with
        accounts := Function.update v.accounts user (some ⟨password, 100 * 2 ^ 20⟩) })
    else (.err, v)
  | .login user password =>
    if (v.accounts user).map Credential.password = some password then (.ok, v) else (.err, v)
  | .upload user relpath source =>
    if v.accounts user ≠ none ∧ source ≠ none then (.ok, v.bind (user, relpath) source)
    else (.err, v)
  | .download user relpath =>
    match v.files (user, relpath) with
    | some bytes => (.content bytes, v)
    | none => (.err, v)
  | .delete user relpath =>
    if v.accounts user ≠ none ∧ v.files (user, relpath) ≠ none then
      (.ok, v.bind (user, relpath) none)
    else (.err, v)

def Vault.replies (v : Vault) : List VaultOp → List VaultReply
  | [] => []
  | op :: ops => (v.apply op).1 :: (v.apply op).2.replies ops

def Vault.after (v : Vault) : List VaultOp → Vault
  | [] => v
  | op :: ops => (v.apply op).2.after ops

def VaultOp.key : VaultOp → Option (CString × CString)
  | .upload user relpath _ => some (user, relpath)
  | .delete user relpath => some (user, relpath)
  | .signup _ _ | .login _ _ | .download _ _ => none

section Map
variable (v : Vault)

theorem Vault.replies_append (ops : List VaultOp) (op : VaultOp) :
    v.replies (ops ++ [op]) = v.replies ops ++ [((v.after ops).apply op).1] := by
  induction ops generalizing v with
  | nil => rfl
  | cons o ops ih => simp only [List.cons_append, Vault.replies, Vault.after, ih]

theorem Vault.after_append (ops : List VaultOp) (op : VaultOp) :
    v.after (ops ++ [op]) = ((v.after ops).apply op).2 := by
  induction ops generalizing v with
  | nil => rfl
  | cons o ops ih => simp only [List.cons_append, Vault.after, ih]

theorem Vault.apply_other {op : VaultOp} {key : CString × CString} (h : op.key ≠ some key) :
    (v.apply op).2.files key = v.files key := by
  have hbind : ∀ {user relpath entry}, some (user, relpath) ≠ some key →
      (v.bind (user, relpath) entry).files key = v.files key := by
    intro user relpath entry hne
    apply Function.update_of_ne
    rintro rfl
    exact hne rfl
  unfold Vault.apply
  split
  · split <;> rfl
  · split <;> rfl
  · split
    · exact hbind h
    · rfl
  · split <;> rfl
  · split
    · exact hbind h
    · rfl

end Map

structure Service where
  store : UserStore
  files : Files

section Serving
variable (cwd : List CString)

/-- `user_store_signup` makes the directory of a new user and ignores the result. -/
def signupFiles (s : Service) (task : Task) : Files :=
  if (userStoreSignup true s.store task.username task.password (100 * 2 ^ 20) task.priority).1 then
    withUserDirectory cwd s.store task.username s.files
  else s.files

def quietJob (task : Task) (now : Int)
    (hfile : task.type = .upload ∨ task.type = .download ∨ task.type = .delete) : FileJob :=
  ⟨⟨task, hfile⟩, true, now, fun _ => none⟩

/-- A worker processes a task at the second `now`, from `queue_pop` to `task_free`, and
no call reports a fault. -/
inductive Serves (s : Service) (task : Task) (now : Int) : List Effect → Service → Prop
  | signup : task.type = .signup →
      Serves s task now (processTask true noResults s.store task none).2
        ⟨(processTask true noResults s.store task none).1, signupFiles cwd s task⟩
  | login : task.type = .login →
      Serves s task now (processTask true noResults s.store task
        (userStoreLockUser true s.store task.username)).2 s
  | file {p : FileProcess} {files : Files}
      (hfile : task.type = .upload ∨ task.type = .download ∨ task.type = .delete) :
      (fileMachine cwd s.store).Exec (.start s.store (quietJob task now hfile)) s.files p files →
      (fileMachine cwd s.store).done p = true →
      Serves s task now (p.responses s.store) ⟨s.store, files⟩

/-- The same, with a bound on the number of library calls. -/
def serveTask (fuel : Nat) (s : Service) (task : Task) (now : Int) : Option (List Effect × Service) :=
  if hfile : task.type = .upload ∨ task.type = .download ∨ task.type = .delete then
    ((fileMachine cwd s.store).runToEnd fuel (.start s.store (quietJob task now hfile)) s.files).map
      fun r => (r.1.responses s.store, ⟨s.store, r.2⟩)
  else
    match task.type with
    | .signup =>
      let (store, effects) := processTask true noResults s.store task none
      some (effects, ⟨store, signupFiles cwd s task⟩)
    | .login =>
      let user := userStoreLockUser true s.store task.username
      some ((processTask true noResults s.store task user).2, s)
    | _ => none

/-- What can be read from the source of an upload. -/
def sourceBytes (files : Files) (tmpfile : CString) : Option (List Byte) :=
  if tmpfile = [] ∨ (fopenRead cwd files tmpfile).error.isSome then none
  else files.contentAt (locate cwd tmpfile)

/-- The names that the tasks may use, `databaseFiles` being those of the database in
the storage root. -/
structure Key (databaseFiles : List CString) (user relpath : CString) : Prop where
  single : SingleName user
  free : user ∉ databaseFiles
  relpath : SingleName relpath

def homeLocation (store : UserStore) (user : CString) : Location :=
  (rootLocation cwd store).descend [user]

def keyLocation (store : UserStore) (user relpath : CString) : Location :=
  (rootLocation cwd store).descend [user, relpath]

/-- The task is one of the five, its texts fit their fields, and names, sizes and paths
are as the map needs them. To read a directory is an I/O error. -/
structure Admissible (databaseFiles : List CString) (s : Service) (task : Task) (now : Int) :
    Prop where
  type : task.type = .signup ∨ task.type = .login ∨ task.type = .upload ∨ task.type = .download ∨
    task.type = .delete
  single : SingleName task.username
  free : task.username ∉ databaseFiles
  username : task.username.length ≤ 63
  password : task.password.length ≤ 63
  path : task.path.length ≤ 255
  relpath : task.type = .upload ∨ task.type = .download ∨ task.type = .delete →
    SingleName task.path ∧
      (userDirPath s.store task.username ++ slash :: task.path).length ≤ 511
  source : task.type = .upload → task.size ≤ 10 * 1024 * 1024 ∧
    (task.tmpfile ≠ [] → ¬ Inside (rootLocation cwd s.store) (locate cwd task.tmpfile) ∧
      s.files.node (locate cwd task.tmpfile) ≠ .dir)
  temp : task.type = .download → now.natAbs < 2 ^ 63 ∧
    ¬ Inside (rootLocation cwd s.store) (locate cwd (tempPath task.username task.path now)) ∧
    TempRoom cwd (tempPath task.username task.path now) s.files

/-- Others change what is outside the storage root, or the database in it. -/
structure Outside (databaseFiles : List CString) (store : UserStore) (files files' : Files) :
    Prop where
  sound : files'.Sound
  root : RootOpen cwd store files'
  same : ∀ l, StrictlyInside (rootLocation cwd store) l →
    (∀ d ∈ databaseFiles, l ≠ homeLocation cwd store d) → files'.view l = files.view l

structure Served where
  task : Task
  now : Int
  before : Service
  effects : List Effect
  after : Service

inductive Session (databaseFiles : List CString) (s₀ : Service) : List Served → Service → Prop
  | start : Session databaseFiles s₀ [] s₀
  | outside {visits : List Served} {s : Service} {files : Files} :
      Session databaseFiles s₀ visits s → Outside cwd databaseFiles s.store s.files files →
      Session databaseFiles s₀ visits ⟨s.store, files⟩
  | task {visits : List Served} {s s' : Service} {task : Task} {now : Int} {effects : List Effect} :
      Session databaseFiles s₀ visits s → Admissible cwd databaseFiles s task now →
      Serves cwd s task now effects s' →
      Session databaseFiles s₀ (visits ++ [⟨task, now, s, effects, s'⟩]) s'

def vaultOp (files : Files) (task : Task) : VaultOp :=
  match task.type with
  | .signup => .signup task.username task.password
  | .upload => .upload task.username task.path (sourceBytes cwd files task.tmpfile)
  | .download => .download task.username task.path
  | .delete => .delete task.username task.path
  | _ => .login task.username task.password

/-- The name of the temporary file, all of it one component, is too long for a directory.
The key is bound, or the download would not come to it. -/
def Misnamed (v : Vault) (task : Task) (now : Int) : Prop :=
  task.type = .download ∧ v.files (task.username, task.path) ≠ none ∧
    255 < (tempPath task.username task.path now).length

/-- The one response to a task; that to a download names the file with the content. -/
def Answers (files : Files) (task : Task) (effects : List Effect) : VaultReply → Prop
  | .ok => ∃ message, effects = [.sendResponse .ok message]
  | .err => ∃ message, effects = [.sendResponse .err message]
  | .content bytes => ∃ path, effects = [.sendResponse .ok path] ∧
      files.contentAt (locate cwd (makeResponse task .ok path).message) = some bytes

/-- The storage root has what the map says of a key. -/
def Holds (store : UserStore) (accounts : Credentials) (files : Files) (user relpath : CString) :
    Option (List Byte) → Prop
  | some bytes => accounts user ≠ none ∧ files.node (homeLocation cwd store user) = .dir ∧
      files.contentAt (keyLocation cwd store user relpath) = some (codeFile bytes)
  | none => files.node (keyLocation cwd store user relpath) = .absent

/-- The server stores what the map says. -/
structure Stored (databaseFiles : List CString) (s : Service) (v : Vault) : Prop where
  sound : s.files.Sound
  root : RootOpen cwd s.store s.files
  accounts : v.accounts = s.store.credentials
  homes : ∀ user, SingleName user → user ∉ databaseFiles → ∀ k,
    s.files.node (homeLocation cwd s.store user) ≠ .file k
  holds : ∀ user relpath, Key databaseFiles user relpath →
    Holds cwd s.store v.accounts s.files user relpath (v.files (user, relpath))

end Serving

theorem serves_of_serveTask {cwd : List CString} {fuel : Nat} {s s' : Service} {task : Task} {now : Int}
    {effects : List Effect} (h : serveTask cwd fuel s task now = some (effects, s')) :
    Serves cwd s task now effects s' := by
  unfold serveTask at h
  split at h
  · rename_i hfile
    obtain ⟨⟨p, files⟩, hrun, hr⟩ := Option.map_eq_some_iff.mp h
    obtain ⟨rfl, rfl⟩ := Prod.mk.inj hr
    obtain ⟨hexec, hdone⟩ := Machine.exec_of_runToEnd hrun
    exact .file hfile hexec hdone
  · split at h
    · rename_i htype
      obtain ⟨rfl, rfl⟩ := Prod.mk.inj (Option.some.inj h)
      exact .signup htype
    · rename_i htype
      obtain ⟨rfl, rfl⟩ := Prod.mk.inj (Option.some.inj h)
      exact .login htype
    · contradiction

section Places
variable {cwd : List CString} {store : UserStore} {user user' relpath relpath' : CString}

theorem homeLocation_ne_key :
    homeLocation cwd store user ≠ keyLocation cwd store user' relpath' := by
  intro h
  have hnames := congrArg (fun l => l.names.length) h
  simp [homeLocation, keyLocation, Place.descend] at hnames

theorem homeLocation_injective (h : homeLocation cwd store user = homeLocation cwd store user') :
    user = user' := by
  have hnames := congrArg Place.names h
  simpa [homeLocation, Place.descend] using hnames

theorem keyLocation_injective
    (h : keyLocation cwd store user relpath = keyLocation cwd store user' relpath') :
    (user, relpath) = (user', relpath') := by
  have hnames := congrArg Place.names h
  simpa [keyLocation, Place.descend] using hnames

theorem strictlyInside_descend (q : Location) {names : List CString} (h : names ≠ []) :
    StrictlyInside q (q.descend names) := by
  refine ⟨⟨rfl, rfl, List.prefix_append _ _⟩, ?_⟩
  intro heq
  have hlength := congrArg List.length heq
  have hpos := List.length_pos_of_ne_nil h
  simp only [Place.descend, List.length_append] at hlength
  omega

theorem inside_home : StrictlyInside (rootLocation cwd store) (homeLocation cwd store user) :=
  strictlyInside_descend _ (List.cons_ne_nil _ _)

theorem inside_key : StrictlyInside (rootLocation cwd store) (keyLocation cwd store user relpath) :=
  strictlyInside_descend _ (List.cons_ne_nil _ _)

theorem ne_of_outside {l q : Location} (hl : StrictlyInside (rootLocation cwd store) l)
    (hq : ¬ Inside (rootLocation cwd store) q) : l ≠ q := by
  rintro rfl
  exact hq hl.1

/-- The directory for temporary files is no file of a user: the storage root is not the
root of the tree when the temporary file lies outside of it. -/
theorem keyLocation_ne_tempDir {temp : CString} {now : Int}
    (h : ¬ Inside (rootLocation cwd store) (locate cwd (tempPath user temp now))) :
    keyLocation cwd store user' relpath' ≠ locate cwd tempDir := by
  intro heq
  have htemp : locate cwd tempDir = ⟨true, 0, [cstr "tmp", cstr "os_lab7_downloads"]⟩ := rfl
  rw [htemp] at heq
  apply h
  have hrooted := congrArg Place.rooted heq
  have hups := congrArg Place.ups heq
  have hnames := congrArg (fun l => l.names.length) heq
  simp only [keyLocation, Place.descend] at hrooted hups hnames
  have hnil : (rootLocation cwd store).names = [] := by
    apply List.length_eq_zero_iff.mp
    simp only [List.length_append, List.length_cons, List.length_nil] at hnames
    omega
  rw [locate_tempPath]
  exact ⟨hrooted, hups, hnil ▸ List.nil_prefix⟩

theorem barred_tempPath (files : Files) (user temp : CString) (now : Int)
    (hhere : files.node ⟨true, 0, cwd⟩ = .dir) :
    files.barred (origin cwd (tempPath user temp now)) (components (tempPath user temp now)) =
      if (tempPath user temp now).length ≤ 255 then none else some enametoolong := by
  have horigin : origin cwd (tempPath user temp now) = ⟨true, 0, cwd⟩ := by
    rw [origin, tempPath_head, if_neg (by decide)]
  rw [horigin, (tempPath_singleName user temp now).components, Files.barred, hhere]
  by_cases hname : (tempPath user temp now).length ≤ 255
  · simp [overlong, hname, Files.barred]
  · simp [overlong, hname, Nat.not_le.mp hname]

theorem tempPath_getLast (user temp : CString) (now : Int) :
    (tempPath user temp now).getLast? ≠ some slash := by
  intro hlast
  exact (tempPath_singleName user temp now).2.1 (List.mem_of_getLast? hlast)

theorem trimSlashes_tempPath (user temp : CString) (now : Int) :
    trimSlashes (tempPath user temp now) = tempPath user temp now :=
  trimSlashes_of_getLast (tempPath_getLast user temp now)

theorem TempRoom.opens {files : Files} {temp : CString} {now : Int}
    (h : TempRoom cwd (tempPath user temp now) files)
    (hname : (tempPath user temp now).length ≤ 255) :
    TempOpens cwd (tempPath user temp now) files := by
  refine ⟨h.directory, ?_⟩
  have hpasses := barred_tempPath (withTempDirectory cwd files) user temp now h.here
  rw [if_pos hname] at hpasses
  unfold fopenWrite
  rw [trimSlashes_tempPath, hpasses]
  simp only [if_neg (tempPath_getLast user temp now)]
  cases hnode : (withTempDirectory cwd files).node (locate cwd (tempPath user temp now)) with
  | absent => rfl
  | dir => exact absurd hnode h.free
  | file k => rfl

theorem TempRoom.misnamed {files : Files} {temp : CString} {now : Int}
    (h : TempRoom cwd (tempPath user temp now) files)
    (hname : 255 < (tempPath user temp now).length) :
    fopenWrite cwd (withTempDirectory cwd files) (tempPath user temp now) =
      (failed enametoolong, none) := by
  unfold fopenWrite
  rw [trimSlashes_tempPath, barred_tempPath _ _ _ _ h.here, if_neg (Nat.not_le.mpr hname)]

end Places

section Made
variable {cwd : List CString} {store : UserStore} {files : Files} {user relpath : CString}

theorem mkdir_file {path : CString} {fault : Option Fault} {l : Location} {k : Nat}
    (h : (perform cwd fault files ⟨path, .mkdir⟩).2.node l = .file k) : files.node l = .file k := by
  by_contra hne
  rcases perform_changes cwd fault files ⟨path, .mkdir⟩ with heq | ⟨c, hc, heq⟩
  · rw [heq] at h
    exact hne h
  · rw [heq, node_set] at h
    split at h
    · contradiction
    · split at h
      · cases hc
        contradiction
      · exact hne h

theorem locate_userDirectory (hsingle : SingleName user) (hlength : user.length ≤ 63) :
    locate cwd (userDirectory store user) = homeLocation cwd store user := by
  rw [userDirectory_of_fits hlength, locate_user hsingle]
  rfl

theorem withUserDirectory_view (hsingle : SingleName user) (hlength : user.length ≤ 63)
    {l : Location} (hl : l ≠ homeLocation cwd store user) :
    (withUserDirectory cwd store user files).view l = files.view l := by
  apply perform_view_of_ne
  rwa [locate_userDirectory hsingle hlength]

theorem withUserDirectory_home (hsingle : SingleName user) (hlength : user.length ≤ 63)
    (hroot : RootOpen cwd store files)
    (hnofile : ∀ k, files.node (homeLocation cwd store user) ≠ .file k) :
    (withUserDirectory cwd store user files).node (homeLocation cwd store user) = .dir := by
  have hhome : homeLocation cwd store user = locate cwd (userDirPath store user) :=
    (locate_user hsingle).symm
  rw [hhome] at hnofile ⊢
  rw [withUserDirectory, userDirectory_of_fits hlength]
  exact mkdir_dir hsingle (by omega) hroot hnofile

theorem rootOpen_of_dirs {files' : Files} (h : ∀ l, files.node l = .dir → files'.node l = .dir)
    (hroot : RootOpen cwd store files) : RootOpen cwd store files' :=
  barred_of_dirs (fun l _ => h l) hroot

theorem mkdir_user_error (hsingle : SingleName user) (hlength : user.length ≤ 63)
    (hroot : RootOpen cwd store files) :
    (mkdir cwd files (userDirectory store user)).1.error = none ∨
      (mkdir cwd files (userDirectory store user)).1.error = some eexist := by
  have hlast : trimSlashes (userDirPath store user) = userDirPath store user :=
    trimSlashes_of_getLast (hsingle.getLast _)
  rw [userDirectory_of_fits hlength]
  simp only [mkdir, hlast, barred_user hsingle (by omega : user.length ≤ 255) hroot]
  cases files.node (locate cwd (userDirPath store user)) with
  | absent => exact Or.inl rfl
  | dir => exact Or.inr rfl
  | file k => exact Or.inr rfl

theorem fopenWrite_key (hsingle : SingleName user) (hrelpath : SingleName relpath)
    (hlength : user.length ≤ 63) (hshort : relpath.length ≤ 255) (hroot : RootOpen cwd store files)
    (hhome : files.node (homeLocation cwd store user) = .dir)
    (hnode : files.node (keyLocation cwd store user relpath) ≠ .dir) :
    (fopenWrite cwd files (userDirPath store user ++ slash :: relpath)).1.error = none := by
  have hlast := hrelpath.getLast (userDirPath store user)
  have hkey : keyLocation cwd store user relpath =
      locate cwd (userDirPath store user ++ slash :: relpath) := (locate_key hsingle hrelpath).symm
  rw [hkey] at hnode
  unfold fopenWrite
  rw [trimSlashes_of_getLast hlast, barred_key hsingle hrelpath (by omega) hshort hroot hhome]
  simp only [if_neg hlast]
  cases hcase : files.node (locate cwd (userDirPath store user ++ slash :: relpath)) with
  | absent => rfl
  | dir => exact absurd hcase hnode
  | file k => rfl

end Made

section Relation
variable {cwd : List CString} {databaseFiles : List CString} {s s' : Service} {v : Vault}
  {user relpath : CString}

theorem homeLocation_congr (cwd : List CString) {store store' : UserStore}
    (h : store'.storageRoot = store.storageRoot) (user : CString) :
    homeLocation cwd store' user = homeLocation cwd store user := by
  rw [homeLocation, homeLocation, rootLocation, rootLocation, h]

theorem keyLocation_congr (cwd : List CString) {store store' : UserStore}
    (h : store'.storageRoot = store.storageRoot) (user relpath : CString) :
    keyLocation cwd store' user relpath = keyLocation cwd store user relpath := by
  rw [keyLocation, keyLocation, rootLocation, rootLocation, h]

theorem Stored.content (h : Stored cwd databaseFiles s v) (hkey : Key databaseFiles user relpath) :
    s.files.contentAt (keyLocation cwd s.store user relpath) =
      (v.files (user, relpath)).map codeFile := by
  have hholds := h.holds user relpath hkey
  cases hentry : v.files (user, relpath) with
  | some bytes =>
    rw [hentry] at hholds
    exact hholds.2.2
  | none =>
    rw [hentry] at hholds
    have habsent : s.files.node (keyLocation cwd s.store user relpath) = .absent := hholds
    rw [Files.contentAt, habsent]
    rfl

theorem Stored.key_not_dir (h : Stored cwd databaseFiles s v)
    (hkey : Key databaseFiles user relpath) :
    s.files.node (keyLocation cwd s.store user relpath) ≠ .dir := by
  have hcontent := h.content hkey
  have hholds := h.holds user relpath hkey
  cases hentry : v.files (user, relpath) with
  | some bytes =>
    rw [hentry] at hcontent
    obtain ⟨k, hk, -⟩ := contentAt_file hcontent
    simp [hk]
  | none =>
    rw [hentry] at hholds
    have habsent : s.files.node (keyLocation cwd s.store user relpath) = .absent := hholds
    simp [habsent]

theorem Holds.frame {entry : Option (List Byte)} {accounts : Credentials}
    (h : Holds cwd s.store v.accounts s.files user relpath entry)
    (hstore : s'.store.storageRoot = s.store.storageRoot)
    (haccounts : v.accounts user ≠ none → accounts user ≠ none)
    (hdirs : ∀ l, s.files.node l = .dir → s'.files.node l = .dir)
    (hview : s'.files.view (keyLocation cwd s.store user relpath) =
      s.files.view (keyLocation cwd s.store user relpath)) :
    Holds cwd s'.store accounts s'.files user relpath entry := by
  have hhome := homeLocation_congr cwd hstore user
  have hkey := keyLocation_congr cwd hstore user relpath
  cases entry with
  | some bytes =>
    obtain ⟨haccount, hdir, hcontent⟩ := h
    refine ⟨haccounts haccount, ?_, ?_⟩
    · rw [hhome]
      exact hdirs _ hdir
    · rw [hkey, contentAt_congr hview]
      exact hcontent
  | none =>
    change s'.files.node (keyLocation cwd s'.store user relpath) = .absent
    rw [hkey, node_congr hview]
    exact h

/-- What a task may do: directories stay, no file comes to be in the place of a
directory of a user, and every key but those that the map changes keeps its file. -/
theorem Stored.change {entries : CString × CString → Option (List Byte)}
    (h : Stored cwd databaseFiles s v) (hstore : s'.store.storageRoot = s.store.storageRoot)
    (hsound : s'.files.Sound) (hdirs : ∀ l, s.files.node l = .dir → s'.files.node l = .dir)
    (hhomes : ∀ user k, s'.files.node (homeLocation cwd s.store user) = .file k →
      s.files.node (homeLocation cwd s.store user) = .file k)
    (haccounts : ∀ user, v.accounts user ≠ none → s'.store.credentials user ≠ none)
    (hkeys : ∀ user relpath, Key databaseFiles user relpath →
      (entries (user, relpath) = v.files (user, relpath) ∧
        s'.files.view (keyLocation cwd s.store user relpath) =
          s.files.view (keyLocation cwd s.store user relpath)) ∨
      Holds cwd s'.store s'.store.credentials s'.files user relpath (entries (user, relpath))) :
    Stored cwd databaseFiles s' ⟨s'.store.credentials, entries⟩ := by
  refine ⟨hsound, ?_, rfl, ?_, ?_⟩
  · rw [RootOpen, hstore]
    exact rootOpen_of_dirs hdirs h.root
  · intro user hsingle hfree k hk
    rw [homeLocation_congr cwd hstore] at hk
    exact h.homes user hsingle hfree k (hhomes user k hk)
  · intro user relpath hkey
    rcases hkeys user relpath hkey with ⟨hentry, hview⟩ | hholds
    · dsimp only
      rw [hentry]
      exact (h.holds user relpath hkey).frame hstore (haccounts user) hdirs hview
    · exact hholds

theorem Stored.rebind {files : Files} {entry : Option (List Byte)}
    (h : Stored cwd databaseFiles s v) (hsound : files.Sound)
    (hdirs : ∀ l, s.files.node l = .dir → files.node l = .dir)
    (hhomes : ∀ user k, files.node (homeLocation cwd s.store user) = .file k →
      s.files.node (homeLocation cwd s.store user) = .file k)
    (hself : Holds cwd s.store v.accounts files user relpath entry)
    (hothers : ∀ user' relpath', (user', relpath') ≠ (user, relpath) →
      files.view (keyLocation cwd s.store user' relpath') =
        s.files.view (keyLocation cwd s.store user' relpath')) :
    Stored cwd databaseFiles ⟨s.store, files⟩ (v.bind (user, relpath) entry) := by
  have hvault : v.bind (user, relpath) entry =
      ⟨s.store.credentials, Function.update v.files (user, relpath) entry⟩ := by
    rw [← h.accounts]
    rfl
  rw [hvault]
  refine h.change rfl hsound hdirs hhomes ?_ ?_
  · intro user' hsome
    rwa [← h.accounts]
  · intro user' relpath' _
    rcases eq_or_ne (user', relpath') (user, relpath) with heq | hne
    · obtain ⟨rfl, rfl⟩ := Prod.mk.inj heq
      rw [Function.update_self, ← h.accounts]
      exact Or.inr hself
    · exact Or.inl ⟨Function.update_of_ne hne _ _, hothers _ _ hne⟩

theorem Stored.uploaded {files : Files} {source : Location} {bytes : List Byte}
    (h : Stored cwd databaseFiles s v) (hkey : Key databaseFiles user relpath)
    (hlength : user.length ≤ 63) (haccount : v.accounts user ≠ none)
    (houtside : ¬ Inside (rootLocation cwd s.store) source) (hnotdir : s.files.node source ≠ .dir)
    (hsound : files.Sound)
    (hcontent : files.contentAt (keyLocation cwd s.store user relpath) = some (codeFile bytes))
    (hframe : ∀ l, l ≠ keyLocation cwd s.store user relpath → l ≠ source →
      files.view l = (withUserDirectory cwd s.store user s.files).view l) :
    Stored cwd databaseFiles ⟨s.store, files⟩ (v.bind (user, relpath) (some bytes)) := by
  have hhome : ∀ user', files.view (homeLocation cwd s.store user') =
      (withUserDirectory cwd s.store user s.files).view (homeLocation cwd s.store user') :=
    fun user' => hframe _ homeLocation_ne_key (ne_of_outside inside_home houtside)
  apply h.rebind hsound
  · intro l hdir
    have hl : l ≠ keyLocation cwd s.store user relpath := by
      rintro rfl
      exact h.key_not_dir hkey hdir
    have hl' : l ≠ source := by
      rintro rfl
      exact hnotdir hdir
    rw [node_congr (hframe l hl hl')]
    exact perform_dir hdir nofun
  · intro user' k hk
    rw [node_congr (hhome user')] at hk
    exact mkdir_file hk
  · refine ⟨haccount, ?_, hcontent⟩
    rw [node_congr (hhome user)]
    exact withUserDirectory_home hkey.single hlength h.root (h.homes _ hkey.single hkey.free)
  · intro user' relpath' hne
    rw [hframe _ (fun heq => hne (keyLocation_injective heq)) (ne_of_outside inside_key houtside)]
    exact withUserDirectory_view hkey.single hlength homeLocation_ne_key.symm

theorem Stored.downloaded {files : Files} {relpath : CString} {now : Int}
    (h : Stored cwd databaseFiles s v)
    (houtside : ¬ Inside (rootLocation cwd s.store) (locate cwd (tempPath user relpath now)))
    (htemp : TempRoom cwd (tempPath user relpath now) s.files) (hsound : files.Sound)
    (hframe : ∀ l, l ≠ locate cwd (tempPath user relpath now) →
      files.view l = (withTempDirectory cwd s.files).view l) :
    Stored cwd databaseFiles ⟨s.store, files⟩ v := by
  have hvault : v = ⟨s.store.credentials, v.files⟩ := by
    rw [← h.accounts]
  rw [hvault]
  refine h.change rfl hsound ?_ ?_ ?_ ?_
  · intro l hdir
    have hmade : (withTempDirectory cwd s.files).node l = .dir := perform_dir hdir nofun
    have hl : l ≠ locate cwd (tempPath user relpath now) := by
      rintro rfl
      exact htemp.free hmade
    rw [node_congr (hframe l hl), hmade]
  · intro user' k hk
    rw [node_congr (hframe _ (ne_of_outside inside_home houtside))] at hk
    exact mkdir_file hk
  · intro user' hsome
    rwa [← h.accounts]
  · intro user' relpath' _
    refine Or.inl ⟨rfl, ?_⟩
    rw [hframe _ (ne_of_outside inside_key houtside)]
    exact perform_view_of_ne (keyLocation_ne_tempDir houtside)

theorem Stored.deleted {path : CString} {k : Nat} (h : Stored cwd databaseFiles s v)
    (hpath : locate cwd path = keyLocation cwd s.store user relpath)
    (hfile : s.files.node (keyLocation cwd s.store user relpath) = .file k)
    (hsound : (s.files.set (locate cwd path) (removed cwd s.files path)).Sound) :
    Stored cwd databaseFiles ⟨s.store, s.files.set (locate cwd path) (removed cwd s.files path)⟩
      (v.bind (user, relpath) none) := by
  have hsame : ∀ l, l ≠ keyLocation cwd s.store user relpath →
      (s.files.set (locate cwd path) (removed cwd s.files path)).view l = s.files.view l := by
    intro l hl
    rw [view_set, if_neg (hpath ▸ hl)]
  apply h.rebind hsound
  · intro l hdir
    have hl : l ≠ keyLocation cwd s.store user relpath := by
      rintro rfl
      simp [hfile] at hdir
    rw [node_congr (hsame l hl), hdir]
  · intro user' k hk
    rwa [node_congr (hsame _ homeLocation_ne_key)] at hk
  · rw [← hpath] at hfile
    have habsent := node_removed hfile
    nth_rewrite 2 [hpath] at habsent
    exact habsent
  · intro user' relpath' hne
    exact hsame _ fun heq => hne (keyLocation_injective heq)

theorem Stored.outside {files : Files} (h : Stored cwd databaseFiles s v)
    (hout : Outside cwd databaseFiles s.store s.files files) :
    Stored cwd databaseFiles ⟨s.store, files⟩ v := by
  have hhome : ∀ user, user ∉ databaseFiles → files.view (homeLocation cwd s.store user) =
      s.files.view (homeLocation cwd s.store user) := by
    intro user hfree
    refine hout.same _ inside_home ?_
    intro d hd heq
    exact hfree (homeLocation_injective heq ▸ hd)
  have hkey : ∀ user relpath, files.view (keyLocation cwd s.store user relpath) =
      s.files.view (keyLocation cwd s.store user relpath) := by
    intro user relpath
    refine hout.same _ inside_key ?_
    intro d _ heq
    exact homeLocation_ne_key heq.symm
  refine ⟨hout.sound, hout.root, h.accounts, ?_, ?_⟩
  · intro user hsingle hfree k hk
    rw [node_congr (hhome user hfree)] at hk
    exact h.homes user hsingle hfree k hk
  · intro user relpath hk
    have hholds := h.holds user relpath hk
    cases hentry : v.files (user, relpath) with
    | some bytes =>
      rw [hentry] at hholds
      obtain ⟨haccount, hdir, hcontent⟩ := hholds
      refine ⟨haccount, ?_, ?_⟩
      · rw [node_congr (hhome user hk.free)]
        exact hdir
      · rw [contentAt_congr (hkey user relpath)]
        exact hcontent
    | none =>
      rw [hentry] at hholds
      change files.node _ = .absent
      rw [node_congr (hkey user relpath)]
      exact hholds

theorem stored_fresh {store : UserStore} {files : Files} (hsound : files.Sound)
    (hroot : RootOpen cwd store files)
    (hempty : ∀ l, StrictlyInside (rootLocation cwd store) l →
      (∀ d ∈ databaseFiles, l ≠ homeLocation cwd store d) → files.node l = .absent) :
    Stored cwd databaseFiles ⟨store, files⟩ ⟨store.credentials, fun _ => none⟩ := by
  refine ⟨hsound, hroot, rfl, ?_, ?_⟩
  · intro user _ hfree k hk
    have habsent : files.node (homeLocation cwd store user) = .absent := by
      apply hempty _ inside_home
      intro d hd heq
      exact hfree (homeLocation_injective heq ▸ hd)
    rw [habsent] at hk
    contradiction
  · intro user relpath _
    apply hempty _ inside_key
    intro d _ heq
    exact homeLocation_ne_key heq.symm

end Relation

end FileServer
