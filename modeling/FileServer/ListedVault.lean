import Mathlib.Algebra.GroupWithZero.Nat
import FileServer.FileStore
import FileServer.Listing

/-!
# LIST shows the map (fs_list in fs.c, CMD_LIST in worker.c)

After any tasks the files in the directory of a user are the relpaths that the map
binds for that user. A LIST is answered OK whenever there is one, and its reply
names them all and nothing else as long as they fit.
-/

namespace FileServer

open LexicalPath Lines
set_option autoImplicit false

section Directory
variable {cwd : List CString} {files : Files} {store : UserStore} {user name : CString}

theorem listPath (hlength : user.length ≤ 63) :
    buildUserPath store user [] = userDirPath store user ++ [slash] := by
  have hroot := store.rootFits
  apply buildUserPath_of_fits
  simp only [userDirPath, List.length_append, List.length_cons, List.length_nil]
  omega

theorem origin_listPath :
    origin cwd (userDirPath store user ++ [slash]) = origin cwd (userDirPath store user) := by
  unfold userDirPath
  cases store.storageRoot <;> rfl

theorem components_listPath :
    components (userDirPath store user ++ [slash]) =
      components (userDirPath store user) ++ [.here] := components_append _ []

theorem locate_listPath (hsingle : SingleName user) (hlength : user.length ≤ 63) :
    locate cwd (buildUserPath store user []) = homeLocation cwd store user := by
  rw [listPath hlength, locate, origin_listPath, components_listPath, follow_append]
  exact locate_user hsingle

theorem opendir_iff (hsingle : SingleName user) (hlength : user.length ≤ 63)
    (hroot : RootOpen cwd store files) :
    opendir cwd files (buildUserPath store user []) = true ↔
      files.node (homeLocation cwd store user) = .dir := by
  rw [opendir, locate_listPath hsingle hlength, decide_eq_true_iff]
  constructor
  · exact And.right
  · intro hdir
    refine ⟨?_, hdir⟩
    have hend : files.barred (locate cwd (userDirPath store user)) [.here] = none := by
      rw [locate_user hsingle, Files.barred]
      change files.node (homeLocation cwd store user) = .dir at hdir
      unfold homeLocation at hdir
      rw [hdir]
      rfl
    rw [listPath hlength, origin_listPath, components_listPath, barred_append,
      barred_user hsingle (by omega) hroot, Option.none_or]
    exact hend

theorem descend_home : (homeLocation cwd store user).descend [name] =
    keyLocation cwd store user name := by
  simp [homeLocation, keyLocation, Place.descend]

end Directory

section Mapped
variable {cwd databaseFiles : List CString} {s : Service} {v : Vault} {user name : CString}

theorem Stored.there_iff (h : Stored cwd databaseFiles s v)
    (hkey : Key databaseFiles user name) :
    s.files.node ((homeLocation cwd s.store user).descend [name]) ≠ .absent ↔
      v.files (user, name) ≠ none := by
  rw [descend_home]
  have hholds := h.holds user name hkey
  cases hentry : v.files (user, name) with
  | none =>
    rw [hentry] at hholds
    exact iff_of_false (fun hthere => hthere hholds) (fun hbound => hbound rfl)
  | some bytes =>
    rw [hentry] at hholds
    obtain ⟨k, hk, -⟩ := contentAt_file hholds.2.2
    refine iff_of_true ?_ (by simp)
    rw [hk]
    simp

theorem Session.stored {s₀ : Service} {visits : List Served} (h₀ : Stored cwd databaseFiles s₀ v)
    (h : Session cwd databaseFiles s₀ visits s) :
    Stored cwd databaseFiles s (v.after (visits.map (Served.op cwd))) := by
  induction h with
  | start => exact h₀
  | outside _ hout ih => exact ih.outside hout
  | task _ ha hserves ih =>
    rw [List.map_append, List.map_singleton, Vault.after_append]
    exact hserves.stored ih ha

/-- The relpaths that the map binds for a user, each once. -/
structure Vault.Holding (v : Vault) (user : CString) (names : List CString) : Prop where
  once : names.Nodup
  mem_iff : ∀ name, name ∈ names ↔ SingleName name ∧ v.files (user, name) ≠ none

theorem Readdir.holding {task : Task} {entries names : List CString}
    (h : Stored cwd databaseFiles s v) (hsingle : SingleName task.username)
    (hfree : task.username ∉ databaseFiles) (hlength : task.username.length ≤ 63)
    (hread : Readdir s.files (userLocation cwd s.store task) entries)
    (hnames : v.Holding task.username names) : (fileNames entries).Perm names := by
  apply (List.perm_ext_iff_of_nodup (hread.once.filter _) hnames.once).mpr
  intro name
  refine (hread.mem_fileNames name).trans ?_
  rw [hnames.mem_iff, userLocation, locate_listPath hsingle hlength]
  apply and_congr_right
  intro hname
  exact h.there_iff ⟨hsingle, hfree, hname⟩

theorem listResponses_cases (files : Files) (store : UserStore) {task : Task}
    (htype : task.type = .list) (entries : List CString) :
    ∃ r, listResponses cwd files store task true none entries = [r] ∧
      (r.status = .ok ↔ (userStoreLockUser true store task.username).isSome = true ∧
        opendir cwd files (buildUserPath store task.username []) = true) := by
  simp only [listResponses, processTask, htype]
  cases userStoreLockUser true store task.username with
  | none => exact ⟨_, rfl, by simp [makeResponse]⟩
  | some user =>
    simp only [processList, fsList]
    cases opendir cwd files (buildUserPath store task.username []) with
    | true => exact ⟨_, rfl, by simp [makeResponse]⟩
    | false => exact ⟨_, rfl, by simp [makeResponse]⟩

end Mapped

theorem length_joined (names : List CString) :
    (joined newline names).length = (names.map fun name => name.length + 1).sum := by
  induction names with
  | nil => rfl
  | cons name names ih =>
    rw [joined_cons, List.length_append, List.length_cons, ih, List.map_cons, List.sum_cons]
    omega

/-- A LIST after any tasks gets one response. It is OK if the user has a file in the
map, and when it is OK the user has an account and the reply names exactly the user's
files in the map if and only if none of their names has a newline and together, each
with a newline, they have 512 bytes. -/
theorem list_shows_vault {cwd databaseFiles : List CString} {s₀ s : Service} {v : Vault}
    {visits : List Served} (h₀ : Stored cwd databaseFiles s₀ v)
    (h : Session cwd databaseFiles s₀ visits s) (task : Task) (htype : task.type = .list)
    (hsingle : SingleName task.username) (hfree : task.username ∉ databaseFiles)
    (hlength : task.username.length ≤ 63) (entries names : List CString)
    (hread : Readdir s.files (userLocation cwd s.store task) entries)
    (hnames : (v.after (visits.map (Served.op cwd))).Holding task.username names) :
    ∃ r, listResponses cwd s.files s.store task true none entries = [r] ∧
      (names ≠ [] → r.status = .ok) ∧
      (r.status = .ok →
        (v.after (visits.map (Served.op cwd))).accounts task.username ≠ none ∧
        ((∀ name, name ∈ listedNames (responseLine r) ↔ name ∈ names) ↔
          (∀ name ∈ names, newline ∉ name) ∧
            (names.map fun name => name.length + 1).sum ≤ 512)) := by
  have hstored := h.stored h₀
  have hperm := hread.holding hstored hsingle hfree hlength hnames
  obtain ⟨r, hr, hok⟩ := listResponses_cases s.files s.store htype entries
  have huser := lockUser_isSome_iff (s := s) hlength
  refine ⟨r, hr, ?_, ?_⟩
  · intro hsome
    obtain ⟨name, hname⟩ := List.exists_mem_of_ne_nil names hsome
    obtain ⟨hrelpath, hbound⟩ := (hnames.mem_iff name).mp hname
    have hholds := hstored.holds task.username name ⟨hsingle, hfree, hrelpath⟩
    obtain ⟨bytes, hbytes⟩ := Option.ne_none_iff_exists'.mp hbound
    rw [hbytes] at hholds
    obtain ⟨haccount, hhome, -⟩ := hholds
    rw [hstored.accounts] at haccount
    exact hok.mpr ⟨huser.mpr haccount, (opendir_iff hsingle hlength hstored.root).mpr hhome⟩
  · intro hstatus
    refine ⟨?_, ?_⟩
    · rw [hstored.accounts]
      exact huser.mp (hok.mp hstatus).1
    · have hmem : r ∈ listResponses cwd s.files s.store task true none entries := by
        rw [hr]
        exact List.mem_singleton_self r
      have hne : ∀ name ∈ fileNames entries, name ≠ [] :=
        fun name hname => ((hread.mem_fileNames name).mp hname).1.1
      have hcut := @read_cut_iff Byte newline _ _ _ (hread.once.filter _) 511 hne
      have hsum : (joined newline (fileNames entries)).length =
          (names.map fun name => name.length + 1).sum := by
        rw [length_joined]
        exact (hperm.map _).sum_eq
      simp only [listedNames_reply htype hmem hstatus, ← hperm.mem_iff]
      rw [← hsum]
      exact hcut

theorem noteVisit_op (cwd : List CString) (s : Service) (task : Task) :
    (noteVisit s task).op cwd = vaultOp cwd s.files task := by
  unfold noteVisit
  split <;> rfl

def noteUploaded : Service :=
  (noteVisit (noteVisit ⟨emptyStore, noteFiles⟩ (noteTask .signup)).after (noteTask .upload)).after

theorem uploaded_note_listed :
    ∃ visits, Session [cstr "srv"] [cstr "users.db"] ⟨emptyStore, noteFiles⟩ visits noteUploaded ∧
      ∃ r, listResponses [cstr "srv"] noteUploaded.files noteUploaded.store (noteTask .list) true
          none [cstr ".", cstr "..", cstr "n"] = [r] ∧
        ([cstr "n"] ≠ [] → r.status = .ok) ∧ (r.status = .ok →
          ((⟨emptyStore.credentials, fun _ => none⟩ : Vault).after
            (visits.map (Served.op [cstr "srv"]))).accounts (cstr "alice") ≠ none ∧
          ((∀ name, name ∈ listedNames (responseLine r) ↔ name ∈ [cstr "n"]) ↔
            (∀ name ∈ [cstr "n"], newline ∉ name) ∧
              ([cstr "n"].map fun name => name.length + 1).sum ≤ 512)) := by
  have h₀ : Session [cstr "srv"] [cstr "users.db"] ⟨emptyStore, noteFiles⟩ []
      ⟨emptyStore, noteFiles⟩ := .start
  have h₁ := noteVisit_session (noteTask .signup) h₀ (by decide +kernel)
    (by constructor <;> decide +kernel)
  have h₂ := noteVisit_session (noteTask .upload) h₁ (by decide +kernel)
    (by constructor <;> decide +kernel)
  refine ⟨_, h₂, ?_⟩
  have hread : Readdir noteUploaded.files
      (userLocation [cstr "srv"] noteUploaded.store (noteTask .list))
      [cstr ".", cstr "..", cstr "n"] :=
    readdir_of_entries (by decide +kernel) (by decide +kernel) (by decide +kernel)
  have hsource : sourceBytes [cstr "srv"]
      (noteVisit ⟨emptyStore, noteFiles⟩ (noteTask .signup)).after.files (cstr "note") =
        some (cstr "hi") := by
    decide +kernel
  unfold noteTask at hsource
  have hholding : ((⟨emptyStore.credentials, fun _ => none⟩ : Vault).after
      (([] ++ [noteVisit ⟨emptyStore, noteFiles⟩ (noteTask .signup)] ++
        [noteVisit (noteVisit ⟨emptyStore, noteFiles⟩ (noteTask .signup)).after
          (noteTask .upload)]).map (Served.op [cstr "srv"]))).Holding (cstr "alice") [cstr "n"] := by
    refine ⟨List.nodup_singleton _, ?_⟩
    intro name
    have hnew : emptyStore.credentials (cstr "alice") = none := rfl
    simp only [List.nil_append, List.cons_append, List.map_cons, List.map_nil, noteVisit_op, vaultOp,
      noteTask, hsource, Vault.after, Vault.apply, hnew, if_true, Function.update_self]
    rw [if_pos ⟨by simp, by simp⟩, List.mem_singleton]
    change name = cstr "n" ↔ SingleName name ∧
      Function.update (fun _ => none) (cstr "alice", cstr "n") (some (cstr "hi"))
        (cstr "alice", name) ≠ none
    constructor
    · rintro rfl
      exact ⟨by decide, by simp⟩
    · rintro ⟨-, hbound⟩
      by_contra hne
      exact hbound (Function.update_of_ne (by simpa using hne) _ _)
  exact list_shows_vault noteFiles_stored h₂ (noteTask .list) rfl (by decide +kernel)
    (by decide +kernel) (by decide +kernel) _ [cstr "n"] hread hholding

end FileServer
