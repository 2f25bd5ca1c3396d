import Mathlib.Data.List.Forall2
import FileServer.Vault

/-!
# What the file tasks do to the map (worker_thread_main in worker.c)

Each of the five tasks is processed to its end and acts as its operation acts on the
map; a task that is refused changes nothing. A session of tasks is then answered as
the map answers their operations.
-/

namespace FileServer

open LexicalPath Interleaving
set_option autoImplicit false

/-- A task is processed to its end, and acts as its operation acts on the map. -/
def Acts (cwd databaseFiles : List CString) (s : Service) (v : Vault) (task : Task) (now : Int) :
    Prop :=
  ∃ effects s', Serves cwd s task now effects s' ∧
    Answers cwd s'.files task effects (v.apply (vaultOp cwd s.files task)).1 ∧
    Stored cwd databaseFiles s' (v.apply (vaultOp cwd s.files task)).2

section Tasks
variable {cwd : List CString} {databaseFiles : List CString} {s s' s'' : Service} {v : Vault}
  {task : Task} {now : Int} {effects effects' : List Effect}
  {hfile : task.type = .upload ∨ task.type = .download ∨ task.type = .delete}

theorem Comes.serves {calls : Nat} {stage : FileStage} {files : Files}
    (h : Comes cwd s.store (quietJob task now hfile) s.files calls stage files)
    (hdone : fileRequest s.store (quietJob task now hfile) stage = none)
    (hreturns : stage.aborted = false) :
    Serves cwd s task now
      (processTask true stage.results s.store task ((quietJob task now hfile).user s.store)).2
      ⟨s.store, files⟩ := by
  obtain ⟨errno, hexec⟩ := h
  have hend : (fileMachine cwd s.store).done ⟨quietJob task now hfile, calls, errno, stage⟩ = true := by
    simp [fileMachine, hdone]
  have hserves := Serves.file hfile hexec hend
  rwa [FileProcess.responses, if_neg (by simp [hreturns])] at hserves

theorem Serves.unique (h : Serves cwd s task now effects s')
    (h' : Serves cwd s task now effects' s'') : effects = effects' ∧ s' = s'' := by
  cases h with
  | signup htype =>
    cases h' with
    | signup _ => exact ⟨rfl, rfl⟩
    | login hlogin => simp [htype] at hlogin
    | file hfile => simp [htype] at hfile
  | login htype =>
    cases h' with
    | signup hsignup => simp [htype] at hsignup
    | login _ => exact ⟨rfl, rfl⟩
    | file hfile => simp [htype] at hfile
  | file hfile hexec hdone =>
    cases h' with
    | signup htype => simp [htype] at hfile
    | login htype => simp [htype] at hfile
    | file _ hexec' hdone' =>
      obtain ⟨rfl, rfl⟩ := hexec.deterministic hdone hexec' hdone'
      exact ⟨rfl, rfl⟩

theorem quietJob_user (hlocks : locksUser task = true) :
    (quietJob task now hfile).user s.store = userStoreLockUser true s.store task.username := by
  unfold FileJob.user
  exact if_pos hlocks

theorem lockUser_isSome_iff (hlength : task.username.length ≤ 63) :
    (userStoreLockUser true s.store task.username).isSome = true ↔
      s.store.credentials task.username ≠ none := by
  have hrefines : (userStoreLockUser true s.store task.username).map
      (fun u => (u.name, u.quotaBytes)) =
        (s.store.credentials task.username).map fun c => (task.username, c.quotaBytes) :=
    lockUser_refines hlength
  have hsome := congrArg Option.isSome hrefines
  rw [Option.isSome_map, Option.isSome_map] at hsome
  rw [hsome, Option.isSome_iff_ne_none]

theorem Stored.user_iff (h : Stored cwd databaseFiles s v)
    (ha : Admissible cwd databaseFiles s task now) (hlocks : locksUser task = true) :
    ((quietJob task now hfile).user s.store).isSome = true ↔ v.accounts task.username ≠ none := by
  rw [quietJob_user hlocks, lockUser_isSome_iff ha.username, h.accounts]

theorem signup_acts (h : Stored cwd databaseFiles s v)
    (ha : Admissible cwd databaseFiles s task now) (htype : task.type = .signup) :
    Acts cwd databaseFiles s v task now := by
  refine ⟨_, _, .signup htype, ?_⟩
  have hop : vaultOp cwd s.files task = .signup task.username task.password := by
    simp [vaultOp, htype]
  have hprocess : processTask true noResults s.store task none = processSignup true s.store task := by
    simp [processTask, htype]
  obtain ⟨hiff, haccounts⟩ := signup_refines true s.store ha.username ha.password (100 * 2 ^ 20)
    task.priority
  rw [hop, hprocess, Vault.apply, h.accounts]
  rcases userStoreSignup_cases true s.store task.username task.password (100 * 2 ^ 20)
    task.priority with hsame | ⟨store', stored, heq, hroot, -, -⟩
  · rw [hsame] at hiff
    have hnot : s.store.credentials task.username ≠ none := by simpa using hiff
    rw [if_neg hnot]
    simp only [processSignup, signupFiles, hsame]
    exact ⟨⟨_, rfl⟩, h⟩
  · rw [heq] at hiff haccounts
    have hnew : s.store.credentials task.username = none := by simpa using hiff
    rw [if_pos hnew]
    simp only [processSignup, signupFiles, heq]
    refine ⟨⟨_, rfl⟩, ?_⟩
    simp only [if_true] at haccounts ⊢
    rw [← haccounts]
    refine h.change hroot (perform_sound none _ h.sound) ?_ ?_ ?_ ?_
    · intro l hdir
      exact perform_dir hdir nofun
    · intro user k hk
      exact mkdir_file hk
    · intro user haccount
      rw [haccounts, ← h.accounts, Function.update_apply]
      split
      · simp
      · exact haccount
    · intro user relpath _
      refine Or.inl ⟨rfl, ?_⟩
      exact withUserDirectory_view ha.single ha.username homeLocation_ne_key.symm

theorem login_acts (h : Stored cwd databaseFiles s v)
    (ha : Admissible cwd databaseFiles s task now) (htype : task.type = .login) :
    Acts cwd databaseFiles s v task now := by
  refine ⟨_, _, .login htype, ?_⟩
  have hop : vaultOp cwd s.files task = .login task.username task.password := by
    simp [vaultOp, htype]
  have hlogin : userStoreLogin true s.store task.username task.password =
      decide ((s.store.credentials task.username).map Credential.password = some task.password) :=
    login_refines (e := ⟨0, true, .login task.username task.password⟩) (fun _ => rfl) _ _
  have huser := lockUser_isSome_iff (s := s) ha.username
  rw [hop, Vault.apply, h.accounts]
  simp only [processTask, htype]
  cases hlocked : userStoreLockUser true s.store task.username with
  | none =>
    have hnone : s.store.credentials task.username = none := by
      simpa [hlocked] using huser
    simp only [hnone, processLogin]
    exact ⟨⟨_, rfl⟩, h⟩
  | some u =>
    simp only [processLogin, hlogin, decide_eq_true_eq]
    split
    · exact ⟨⟨_, rfl⟩, h⟩
    · exact ⟨⟨_, rfl⟩, h⟩

theorem locksUser_file (hpath : SingleName task.path) (hfile : task.type = .download ∨
    task.type = .delete ∨ (task.type = .upload ∧ task.tmpfile ≠ [])) : locksUser task = true := by
  unfold locksUser
  rcases hfile with htype | htype | ⟨htype, htmpfile⟩
  · simp [htype, hpath.1]
  · simp [htype]
  · simp [htype, hpath.1, htmpfile]

theorem quietJob_userPath (hfits : (userDirPath s.store task.username ++ slash :: task.path).length ≤
    511) : (quietJob task now hfile).userPath s.store =
      userDirPath s.store task.username ++ slash :: task.path := buildUserPath_of_fits hfits

theorem locate_userPath (hsingle : SingleName task.username) (hrelpath : SingleName task.path)
    (hfits : (userDirPath s.store task.username ++ slash :: task.path).length ≤ 511) :
    locate cwd ((quietJob task now hfile).userPath s.store) =
      keyLocation cwd s.store task.username task.path := by
  rw [quietJob_userPath hfits]
  exact locate_key hsingle hrelpath

theorem processUpload_refused {results : FileResults} (h : results.tmpfileOpens = false)
    (user : Option User) : ∃ message, processUpload results task user = [.sendResponse .err message] := by
  obtain ⟨err, herr⟩ : ∃ err, uploadResult results task user = .error err := by
    unfold uploadResult
    split
    · exact ⟨_, rfl⟩
    · split
      · split
        · exact ⟨_, rfl⟩
        · rw [if_neg (by simp [h])]
          exact ⟨_, rfl⟩
      · exact ⟨_, rfl⟩
  unfold processUpload
  rw [herr]
  exact ⟨_, rfl⟩

theorem upload_refused (h : Stored cwd databaseFiles s v)
    (ha : Admissible cwd databaseFiles s task now) (htype : task.type = .upload)
    (hrefused : ¬ (v.accounts task.username ≠ none ∧ sourceBytes cwd s.files task.tmpfile ≠ none)) :
    ∃ effects, Serves cwd s task now effects s ∧
      ∃ message, effects = [.sendResponse .err message] := by
  have hfile : task.type = .upload ∨ task.type = .download ∨ task.type = .delete := Or.inl htype
  obtain ⟨hrelpath, -⟩ := ha.relpath hfile
  obtain ⟨hsize, hsource⟩ := ha.source htype
  have hend : ∃ calls, Comes cwd s.store (quietJob task now hfile) s.files calls
      (.upload (.done false (.error []))) s.files := by
    have hstart : Comes cwd s.store (quietJob task now hfile) s.files 0
        (firstStage s.store (quietJob task now hfile)) s.files := comes_start _ _
    rw [firstStage_upload htype] at hstart
    split at hstart
    · rename_i haccepted
      have htmpfile : task.tmpfile ≠ [] := by
        intro hnil
        have hlocks : locksUser task = false := by simp [locksUser, htype, hnil]
        have huser : (quietJob task now hfile).user s.store = none := by
          unfold FileJob.user
          exact if_neg (by simp [quietJob, hlocks])
        simp [huser] at haccepted
      have hlocks := locksUser_file hrelpath (Or.inr (Or.inr ⟨htype, htmpfile⟩))
      have haccount := (h.user_iff ha hlocks).mp haccepted.1
      have herror : (fopenRead cwd s.files task.tmpfile).error.isSome = true := by
        by_contra hopens
        have hok : (fopenRead cwd s.files task.tmpfile).error = none := by simpa using hopens
        obtain ⟨-, inode, -, ⟨-, hdir⟩ | ⟨k, -, hk⟩⟩ := fopenRead_of_ok hok
        · exact (hsource htmpfile).2 hdir
        · apply hrefused
          refine ⟨haccount, ?_⟩
          have hbound := h.sound _ k hk
          simp [sourceBytes, htmpfile, hok, Files.contentAt, hk, hbound]
      refine ⟨1, hstart.call (a := fopenRead cwd s.files task.tmpfile) rfl rfl ?_⟩
      intro errno
      simp only [fileResume, uploadResume, if_pos herror]
    · exact ⟨0, hstart⟩
  obtain ⟨calls, hcomes⟩ := hend
  refine ⟨_, hcomes.serves rfl rfl, ?_⟩
  simp only [processTask, htype]
  exact processUpload_refused rfl _

theorem upload_opens (h : Stored cwd databaseFiles s v)
    (ha : Admissible cwd databaseFiles s task now) (htype : task.type = .upload)
    (haccount : v.accounts task.username ≠ none) (htmpfile : task.tmpfile ≠ [])
    (hread : (fopenRead cwd s.files task.tmpfile).error = none) :
    UploadOpens cwd s.store (quietJob task now (Or.inl htype)) s.files := by
  obtain ⟨hrelpath, hfits⟩ := ha.relpath (Or.inl htype)
  have hlocks := locksUser_file hrelpath (Or.inr (Or.inr ⟨htype, htmpfile⟩))
  refine ⟨?_, (ha.source htype).1, hread, mkdir_user_error ha.single ha.username h.root, ?_⟩
  · exact (h.user_iff ha hlocks).mpr haccount
  · rw [quietJob_userPath hfits]
    apply fopenWrite_key ha.single hrelpath ha.username ha.path
    · exact rootOpen_of_dirs (fun l hdir => perform_dir hdir nofun) h.root
    · exact withUserDirectory_home ha.single ha.username h.root (h.homes _ ha.single ha.free)
    · have hmade : (withUserDirectory cwd s.store task.username s.files).view
          (keyLocation cwd s.store task.username task.path) =
            s.files.view (keyLocation cwd s.store task.username task.path) :=
        withUserDirectory_view ha.single ha.username homeLocation_ne_key.symm
      have hnotdir := h.key_not_dir ⟨ha.single, ha.free, hrelpath⟩
      rw [← node_congr hmade] at hnotdir
      exact hnotdir

theorem upload_accepted (h : Stored cwd databaseFiles s v)
    (ha : Admissible cwd databaseFiles s task now) (htype : task.type = .upload)
    (haccount : v.accounts task.username ≠ none) {bytes : List Byte}
    (hbytes : sourceBytes cwd s.files task.tmpfile = some bytes) :
    ∃ effects s', Serves cwd s task now effects s' ∧
      (∃ message, effects = [.sendResponse .ok message]) ∧
      Stored cwd databaseFiles s' (v.bind (task.username, task.path) (some bytes)) := by
  obtain ⟨hrelpath, hfits⟩ := ha.relpath (Or.inl htype)
  have hsource : ¬ (task.tmpfile = [] ∨
      (fopenRead cwd s.files task.tmpfile).error.isSome = true) := by
    intro hno
    rw [sourceBytes, if_pos hno] at hbytes
    contradiction
  rw [sourceBytes, if_neg hsource] at hbytes
  obtain ⟨htmpfile, hopen⟩ := not_or.mp hsource
  obtain ⟨houtside, hnotdir⟩ := (ha.source htype).2 htmpfile
  have hopens := upload_opens h ha htype haccount htmpfile (by simpa using hopen)
  have hlocate : locate cwd ((quietJob task now (Or.inl htype)).userPath s.store) =
      keyLocation cwd s.store task.username task.path := locate_userPath ha.single hrelpath hfits
  have hne : locate cwd task.tmpfile ≠ keyLocation cwd s.store task.username task.path :=
    (ne_of_outside inside_key houtside).symm
  obtain ⟨calls, n, hcomes, hcontent, hframe⟩ := upload_run htype (fun _ => rfl) h.sound hopens
    hbytes (by rwa [hlocate])
  rw [hlocate] at hcontent hframe
  refine ⟨_, _, hcomes.serves rfl rfl, ?_, ?_⟩
  · obtain ⟨u, hu⟩ := Option.isSome_iff_exists.mp hopens.user
    have hsize : ¬ task.size > 10 * 1024 * 1024 := Nat.not_lt.mpr hopens.size
    simp [processTask, htype, processUpload, uploadResult, hu, hrelpath.1, htmpfile, hsize,
      FileStage.results]
  · exact h.uploaded ⟨ha.single, ha.free, hrelpath⟩ ha.username haccount houtside hnotdir
      (hcomes.sound h.sound) hcontent hframe

theorem upload_acts (h : Stored cwd databaseFiles s v)
    (ha : Admissible cwd databaseFiles s task now) (htype : task.type = .upload) :
    Acts cwd databaseFiles s v task now := by
  have hop : vaultOp cwd s.files task =
      .upload task.username task.path (sourceBytes cwd s.files task.tmpfile) := by
    simp [vaultOp, htype]
  rw [Acts, hop, Vault.apply]
  split
  · rename_i hok
    obtain ⟨bytes, hbytes⟩ := Option.ne_none_iff_exists'.mp hok.2
    rw [hbytes]
    exact upload_accepted h ha htype hok.1 hbytes
  · rename_i hrefused
    obtain ⟨effects, hserves, hreply⟩ := upload_refused h ha htype hrefused
    exact ⟨effects, s, hserves, hreply, h⟩

theorem processDownload_refused {results : FileResults} {text : CString}
    (h : results.download = .error text) (user : Option User) :
    ∃ message, processDownload results task user = [.sendResponse .err message] := by
  unfold processDownload
  rw [h]
  split
  · exact ⟨_, rfl⟩
  · cases user with
    | none => exact ⟨_, rfl⟩
    | some u => exact ⟨_, rfl⟩

theorem download_refused (ha : Admissible cwd databaseFiles s task now)
    (htype : task.type = .download)
    (habsent : s.files.node (keyLocation cwd s.store task.username task.path) = .absent) :
    ∃ effects, Serves cwd s task now effects s ∧
      ∃ message, effects = [.sendResponse .err message] := by
  have hfile : task.type = .upload ∨ task.type = .download ∨ task.type = .delete :=
    Or.inr (Or.inl htype)
  obtain ⟨hrelpath, hfits⟩ := ha.relpath hfile
  have hlocate : locate cwd ((quietJob task now hfile).userPath s.store) =
      keyLocation cwd s.store task.username task.path := locate_userPath ha.single hrelpath hfits
  have hend : ∃ calls text, Comes cwd s.store (quietJob task now hfile) s.files calls
      (.download (.done (.error text) [])) s.files := by
    have hstart : Comes cwd s.store (quietJob task now hfile) s.files 0 _ s.files :=
      download_start htype
    split at hstart
    · rw [← hlocate] at habsent
      obtain ⟨errno, hnext⟩ := hstart.step
        (a := fopenRead cwd s.files ((quietJob task now hfile).userPath s.store)) rfl rfl
      simp only [fileResume, downloadResume, if_neg (fopenRead_absent habsent)] at hnext
      exact ⟨1, _, hnext⟩
    · exact ⟨0, [], hstart⟩
  obtain ⟨calls, text, hcomes⟩ := hend
  refine ⟨_, hcomes.serves rfl rfl, ?_⟩
  simp only [processTask, htype]
  exact processDownload_refused rfl _

theorem download_finds {bytes : List Byte} (h : Stored cwd databaseFiles s v)
    (ha : Admissible cwd databaseFiles s task now) (htype : task.type = .download)
    (hbound : v.files (task.username, task.path) = some bytes) :
    ((quietJob task now (Or.inr (Or.inl htype))).user s.store).isSome = true ∧
      s.files.barred (origin cwd ((quietJob task now (Or.inr (Or.inl htype))).userPath s.store))
        (components ((quietJob task now (Or.inr (Or.inl htype))).userPath s.store)) = none ∧
      locate cwd ((quietJob task now (Or.inr (Or.inl htype))).userPath s.store) =
        keyLocation cwd s.store task.username task.path ∧
      s.files.contentAt (keyLocation cwd s.store task.username task.path) =
        some (codeFile bytes) := by
  obtain ⟨hrelpath, hfits⟩ := ha.relpath (Or.inr (Or.inl htype))
  have hholds := h.holds _ _ ⟨ha.single, ha.free, hrelpath⟩
  rw [hbound] at hholds
  obtain ⟨haccount, hhome, hcontent⟩ := hholds
  have hpasses := barred_key ha.single hrelpath (by have := ha.username; omega) ha.path h.root hhome
  refine ⟨?_, ?_, locate_userPath ha.single hrelpath hfits, hcontent⟩
  · exact (h.user_iff ha (locksUser_file hrelpath (Or.inl htype))).mpr haccount
  · rw [quietJob_userPath hfits]
    exact hpasses

theorem download_accepted {bytes : List Byte} (h : Stored cwd databaseFiles s v)
    (ha : Admissible cwd databaseFiles s task now) (htype : task.type = .download)
    (hbound : v.files (task.username, task.path) = some bytes)
    (hname : (tempPath task.username task.path now).length ≤ 255) :
    ∃ effects s', Serves cwd s task now effects s' ∧
      Answers cwd s'.files task effects (.content bytes) ∧ Stored cwd databaseFiles s' v := by
  have hfile : task.type = .upload ∨ task.type = .download ∨ task.type = .delete :=
    Or.inr (Or.inl htype)
  obtain ⟨huser, hpasses, hlocate, hcontent⟩ := download_finds h ha htype hbound
  obtain ⟨hnow, houtside, htemp⟩ := ha.temp htype
  have hrelpath := (ha.relpath (Or.inr (Or.inl htype))).1
  have hlength : (tempPath task.username task.path now).length < 511 :=
    tempPath_length ha.username ha.path hnow
  obtain ⟨calls, n, content, hcomes, hcopied, hframe⟩ := download_run htype (fun _ => rfl)
    h.sound huser hpasses (hlocate ▸ hcontent) (htemp.opens hname) hlength
    (hlocate ▸ ne_of_outside inside_key houtside)
  refine ⟨_, _, hcomes.serves rfl rfl, ?_, h.downloaded houtside htemp (hcomes.sound h.sound) hframe⟩
  obtain ⟨u, hu⟩ := Option.isSome_iff_exists.mp huser
  have hnothigh : u.priority ≠ .high := by
    intro hhigh
    apply (quietJob task now hfile).not_high s.store
    rw [hu, Option.map_some, hhigh]
  refine ⟨(quietJob task now hfile).tempPath, ?_, ?_⟩
  · simp [processTask, htype, processDownload, hu, hrelpath.1, hnothigh, FileStage.results]
  · have hmessage : (makeResponse task .ok (quietJob task now hfile).tempPath).message =
        (quietJob task now hfile).tempPath := List.take_of_length_le (Nat.le_of_lt hlength)
    rw [codeFile_codeFile] at hcopied
    rw [hmessage, hcopied]

/-- A download whose temporary file cannot be named is refused, and the map stays. -/
theorem download_misnamed (h : Stored cwd databaseFiles s v)
    (ha : Admissible cwd databaseFiles s task now) (hmisnamed : Misnamed v task now) :
    ∃ effects s', Serves cwd s task now effects s' ∧
      (∃ message, effects = [.sendResponse .err message]) ∧ Stored cwd databaseFiles s' v := by
  obtain ⟨htype, hsome, hname⟩ := hmisnamed
  obtain ⟨bytes, hbound⟩ := Option.ne_none_iff_exists'.mp hsome
  obtain ⟨huser, hpasses, hlocate, hcontent⟩ := download_finds h ha htype hbound
  obtain ⟨-, houtside, htemp⟩ := ha.temp htype
  obtain ⟨k, hk, -⟩ := contentAt_file hcontent
  have hmakes := download_makes (quietJob task now (Or.inr (Or.inl htype))) htype (fun _ => rfl)
    huser hpasses (hlocate ▸ hk) htemp.directory
  obtain ⟨text, hcomes⟩ := download_refused_temp (fun _ => rfl) hmakes (htemp.misnamed hname)
  refine ⟨_, _, hcomes.serves rfl rfl, ?_, ?_⟩
  · simp only [processTask, htype]
    exact processDownload_refused rfl _
  · exact h.downloaded houtside htemp (hcomes.sound h.sound) fun l _ => rfl

theorem download_acts (h : Stored cwd databaseFiles s v)
    (ha : Admissible cwd databaseFiles s task now) (htype : task.type = .download)
    (hnamed : ¬ Misnamed v task now) : Acts cwd databaseFiles s v task now := by
  have hop : vaultOp cwd s.files task = .download task.username task.path := by
    simp [vaultOp, htype]
  obtain ⟨hrelpath, -⟩ := ha.relpath (Or.inr (Or.inl htype))
  have hholds := h.holds _ _ ⟨ha.single, ha.free, hrelpath⟩
  rw [Acts, hop, Vault.apply]
  cases hentry : v.files (task.username, task.path) with
  | none =>
    rw [hentry] at hholds
    obtain ⟨effects, hserves, hreply⟩ := download_refused ha htype hholds
    exact ⟨effects, s, hserves, hreply, h⟩
  | some bytes =>
    apply download_accepted h ha htype hentry
    by_contra hlong
    exact hnamed ⟨htype, by simp [hentry], Nat.not_le.mp hlong⟩

theorem delete_refused (h : Stored cwd databaseFiles s v)
    (ha : Admissible cwd databaseFiles s task now) (htype : task.type = .delete)
    (hrefused : ¬ (v.accounts task.username ≠ none ∧
      v.files (task.username, task.path) ≠ none)) :
    ∃ effects, Serves cwd s task now effects s ∧
      ∃ message, effects = [.sendResponse .err message] := by
  have hfile : task.type = .upload ∨ task.type = .download ∨ task.type = .delete :=
    Or.inr (Or.inr htype)
  obtain ⟨hrelpath, hfits⟩ := ha.relpath hfile
  have hstart : Comes cwd s.store (quietJob task now hfile) s.files 0 _ s.files :=
    delete_start htype
  cases huser : (quietJob task now hfile).user s.store with
  | none =>
    rw [if_neg (by simp [huser])] at hstart
    refine ⟨_, hstart.serves rfl rfl, ?_⟩
    simp [processTask, htype, processDelete, huser]
  | some u =>
    have hlocate : locate cwd ((quietJob task now hfile).userPath s.store) =
        keyLocation cwd s.store task.username task.path := locate_userPath ha.single hrelpath hfits
    have haccount : v.accounts task.username ≠ none :=
      (h.user_iff ha (locksUser_file hrelpath (Or.inr (Or.inl htype)))).mp (by rw [huser]; rfl)
    have hunbound : v.files (task.username, task.path) = none := by
      by_contra hbound
      exact hrefused ⟨haccount, hbound⟩
    have habsent := h.holds _ _ ⟨ha.single, ha.free, hrelpath⟩
    rw [hunbound, Holds, ← hlocate] at habsent
    obtain ⟨errno, hremove⟩ := remove_absent habsent
    rw [if_pos (by simp [huser])] at hstart
    have hend : Comes cwd s.store (quietJob task now hfile) s.files 1 (.delete (.done false))
        s.files := hstart.call rfl hremove fun _ => rfl
    refine ⟨_, hend.serves rfl rfl, ?_⟩
    simp [processTask, htype, processDelete, huser, FileStage.results, noResults]

theorem delete_accepted (h : Stored cwd databaseFiles s v)
    (ha : Admissible cwd databaseFiles s task now) (htype : task.type = .delete)
    (haccount : v.accounts task.username ≠ none) {bytes : List Byte}
    (hbound : v.files (task.username, task.path) = some bytes) :
    ∃ effects s', Serves cwd s task now effects s' ∧
      (∃ message, effects = [.sendResponse .ok message]) ∧
      Stored cwd databaseFiles s' (v.bind (task.username, task.path) none) := by
  have hfile : task.type = .upload ∨ task.type = .download ∨ task.type = .delete :=
    Or.inr (Or.inr htype)
  obtain ⟨hrelpath, hfits⟩ := ha.relpath hfile
  have hpath : (quietJob task now hfile).userPath s.store =
      userDirPath s.store task.username ++ slash :: task.path := quietJob_userPath hfits
  have hlocate : locate cwd ((quietJob task now hfile).userPath s.store) =
      keyLocation cwd s.store task.username task.path := locate_userPath ha.single hrelpath hfits
  have hholds := h.holds _ _ ⟨ha.single, ha.free, hrelpath⟩
  rw [hbound] at hholds
  obtain ⟨-, hhome, hcontent⟩ := hholds
  obtain ⟨k, hk, -⟩ := contentAt_file hcontent
  have hpasses := barred_key ha.single hrelpath (by have := ha.username; omega) ha.path h.root hhome
  rw [← hpath] at hpasses
  have huser : ((quietJob task now hfile).user s.store).isSome = true :=
    (h.user_iff ha (locksUser_file hrelpath (Or.inr (Or.inl htype)))).mpr haccount
  obtain ⟨u, hu⟩ := Option.isSome_iff_exists.mp huser
  have hstart : Comes cwd s.store (quietJob task now hfile) s.files 0 _ s.files :=
    delete_start htype
  rw [if_pos huser] at hstart
  have hend : Comes cwd s.store (quietJob task now hfile) s.files 1 (.delete (.done true)) _ :=
    hstart.call rfl (remove_removes hpasses (hlocate ▸ hk)) fun _ => rfl
  refine ⟨_, _, hend.serves rfl rfl, ?_, h.deleted hlocate hk (hend.sound h.sound)⟩
  simp [processTask, htype, processDelete, hu, FileStage.results]

theorem delete_acts (h : Stored cwd databaseFiles s v)
    (ha : Admissible cwd databaseFiles s task now) (htype : task.type = .delete) :
    Acts cwd databaseFiles s v task now := by
  have hop : vaultOp cwd s.files task = .delete task.username task.path := by
    simp [vaultOp, htype]
  rw [Acts, hop, Vault.apply]
  split
  · rename_i hok
    obtain ⟨bytes, hbytes⟩ := Option.ne_none_iff_exists'.mp hok.2
    exact delete_accepted h ha htype hok.1 hbytes
  · rename_i hrefused
    obtain ⟨effects, hserves, hreply⟩ := delete_refused h ha htype hrefused
    exact ⟨effects, s, hserves, hreply, h⟩

theorem acts_of_admissible (h : Stored cwd databaseFiles s v)
    (ha : Admissible cwd databaseFiles s task now) (hnamed : ¬ Misnamed v task now) :
    Acts cwd databaseFiles s v task now := by
  rcases ha.type with htype | htype | htype | htype | htype
  · exact signup_acts h ha htype
  · exact login_acts h ha htype
  · exact upload_acts h ha htype
  · exact download_acts h ha htype hnamed
  · exact delete_acts h ha htype

theorem Admissible.served (h : Stored cwd databaseFiles s v)
    (ha : Admissible cwd databaseFiles s task now) : ∃ effects s', Serves cwd s task now effects s' := by
  by_cases hmisnamed : Misnamed v task now
  · obtain ⟨effects, s', hserves, -⟩ := download_misnamed h ha hmisnamed
    exact ⟨effects, s', hserves⟩
  · obtain ⟨effects, s', hserves, -⟩ := acts_of_admissible h ha hmisnamed
    exact ⟨effects, s', hserves⟩

theorem Serves.refines (h : Stored cwd databaseFiles s v)
    (ha : Admissible cwd databaseFiles s task now) (hserves : Serves cwd s task now effects s')
    (hnamed : ¬ Misnamed v task now) :
    Answers cwd s'.files task effects (v.apply (vaultOp cwd s.files task)).1 ∧
      Stored cwd databaseFiles s' (v.apply (vaultOp cwd s.files task)).2 := by
  obtain ⟨effects', s'', hserves', hrefines⟩ := acts_of_admissible h ha hnamed
  obtain ⟨rfl, rfl⟩ := hserves.unique hserves'
  exact hrefines

theorem Vault.apply_download {op : VaultOp} {user relpath : CString} (h : op = .download user relpath) :
    (v.apply op).2 = v := by
  rw [h, Vault.apply]
  split
  · rfl
  · rfl

theorem Serves.misnamed (h : Stored cwd databaseFiles s v)
    (ha : Admissible cwd databaseFiles s task now) (hserves : Serves cwd s task now effects s')
    (hmisnamed : Misnamed v task now) :
    (∃ message, effects = [.sendResponse .err message]) ∧
      Stored cwd databaseFiles s' (v.apply (vaultOp cwd s.files task)).2 := by
  obtain ⟨effects', s'', hserves', hreply, hstored⟩ := download_misnamed h ha hmisnamed
  obtain ⟨rfl, rfl⟩ := hserves.unique hserves'
  have hop : vaultOp cwd s.files task = .download task.username task.path := by
    simp [vaultOp, hmisnamed.1]
  rw [v.apply_download hop]
  exact ⟨hreply, hstored⟩

theorem Serves.stored (h : Stored cwd databaseFiles s v)
    (ha : Admissible cwd databaseFiles s task now) (hserves : Serves cwd s task now effects s') :
    Stored cwd databaseFiles s' (v.apply (vaultOp cwd s.files task)).2 := by
  by_cases hmisnamed : Misnamed v task now
  · exact (hserves.misnamed h ha hmisnamed).2
  · exact (hserves.refines h ha hmisnamed).2

theorem Serves.answers_iff (h : Stored cwd databaseFiles s v)
    (ha : Admissible cwd databaseFiles s task now) (hserves : Serves cwd s task now effects s') :
    Answers cwd s'.files task effects (v.apply (vaultOp cwd s.files task)).1 ↔
      ¬ Misnamed v task now := by
  constructor
  · rintro hanswers hmisnamed
    obtain ⟨⟨message, rfl⟩, -⟩ := hserves.misnamed h ha hmisnamed
    obtain ⟨htype, hsome, -⟩ := hmisnamed
    obtain ⟨bytes, hbound⟩ := Option.ne_none_iff_exists'.mp hsome
    have hop : vaultOp cwd s.files task = .download task.username task.path := by
      simp [vaultOp, htype]
    rw [hop, Vault.apply, hbound] at hanswers
    obtain ⟨path, heffects, -⟩ := hanswers
    simp at heffects
  · exact fun hnamed => (hserves.refines h ha hnamed).1

theorem Serves.storageRoot (hserves : Serves cwd s task now effects s') :
    s'.store.storageRoot = s.store.storageRoot := by
  cases hserves with
  | signup htype =>
    simp only [processTask, htype, processSignup]
    rcases userStoreSignup_cases true s.store task.username task.password (100 * 2 ^ 20)
      task.priority with hsame | ⟨store', stored, heq, hroot, -, -⟩
    · rw [hsame]
      rfl
    · rw [heq]
      exact hroot
  | login htype => rfl
  | file hfile hexec hdone => rfl

theorem Serves.other_key (h : Stored cwd databaseFiles s v)
    (ha : Admissible cwd databaseFiles s task now) (hserves : Serves cwd s task now effects s')
    {user relpath : CString} (hkey : Key databaseFiles user relpath)
    (hother : (vaultOp cwd s.files task).key ≠ some (user, relpath)) :
    s'.files.contentAt (keyLocation cwd s.store user relpath) =
      s.files.contentAt (keyLocation cwd s.store user relpath) := by
  have hstored := hserves.stored h ha
  have hafter := hstored.content hkey
  rw [keyLocation_congr cwd hserves.storageRoot, v.apply_other hother] at hafter
  rw [hafter, h.content hkey]

end Tasks

def Served.op (cwd : List CString) (visit : Served) : VaultOp := vaultOp cwd visit.before.files visit.task

/-- What was observed of a task is the reply of the map. -/
def Served.Shows (cwd : List CString) (visit : Served) (reply : VaultReply) : Prop :=
  Answers cwd visit.after.files visit.task visit.effects reply

/-- A task leaves the file of every key alone that its operation does not name. -/
def Served.SparesOthers (cwd databaseFiles : List CString) (visit : Served) : Prop :=
  ∀ user relpath, Key databaseFiles user relpath → (visit.op cwd).key ≠ some (user, relpath) →
    visit.after.files.contentAt (keyLocation cwd visit.before.store user relpath) =
      visit.before.files.contentAt (keyLocation cwd visit.before.store user relpath)

/-- No temporary file of a download gets a name that is too long. -/
def TempFilesNamed (cwd : List CString) : Vault → List Served → Prop
  | _, [] => True
  | v, visit :: visits =>
    ¬ Misnamed v visit.task visit.now ∧ TempFilesNamed cwd (v.apply (visit.op cwd)).2 visits

instance (v : Vault) (task : Task) (now : Int) : Decidable (Misnamed v task now) :=
  inferInstanceAs (Decidable (_ ∧ _ ∧ _))

instance decidableTempFilesNamed (cwd : List CString) : (v : Vault) → (visits : List Served) →
    Decidable (TempFilesNamed cwd v visits)
  | _, [] => .isTrue trivial
  | v, visit :: visits =>
    have : Decidable (TempFilesNamed cwd (v.apply (visit.op cwd)).2 visits) :=
      decidableTempFilesNamed cwd (v.apply (visit.op cwd)).2 visits
    inferInstanceAs (Decidable (_ ∧ _))

theorem tempFilesNamed_concat {cwd : List CString} {v : Vault} {visits : List Served}
    {visit : Served} : TempFilesNamed cwd v (visits ++ [visit]) ↔ TempFilesNamed cwd v visits ∧
      ¬ Misnamed (v.after (visits.map (Served.op cwd))) visit.task visit.now := by
  induction visits generalizing v with
  | nil => simp [TempFilesNamed, Vault.after]
  | cons first visits ih =>
    simp only [List.cons_append, TempFilesNamed, ih, List.map_cons, Vault.after, and_assoc]

theorem forall₂_concat {α β : Type} {R : α → β → Prop} {xs : List α} {ys : List β} {x : α} {y : β} :
    List.Forall₂ R (xs ++ [x]) (ys ++ [y]) ↔ List.Forall₂ R xs ys ∧ R x y := by
  rw [← List.forall₂_reverse_iff, List.reverse_append, List.reverse_append, List.reverse_singleton,
    List.reverse_singleton, List.singleton_append, List.singleton_append, List.forall₂_cons,
    List.forall₂_reverse_iff, and_comm]

/-- Tasks processed one after another are answered as the map answers their operations just
when no download of a bound key needs a name for its temporary file that is too long. The
storage root holds what the map then holds, no task touches a key that is not its own, and
the next task is again processed to its end. -/
theorem session_refines_vault {cwd databaseFiles : List CString} {s₀ s : Service} {v : Vault}
    {visits : List Served} (h₀ : Stored cwd databaseFiles s₀ v)
    (h : Session cwd databaseFiles s₀ visits s) :
    (List.Forall₂ (Served.Shows cwd) visits (v.replies (visits.map (Served.op cwd))) ↔
      TempFilesNamed cwd v visits) ∧
    Stored cwd databaseFiles s (v.after (visits.map (Served.op cwd))) ∧
    (∀ visit ∈ visits, visit.SparesOthers cwd databaseFiles) ∧
    ∀ task now, Admissible cwd databaseFiles s task now →
      ∃ effects s', Serves cwd s task now effects s' := by
  have hmain : (List.Forall₂ (Served.Shows cwd) visits (v.replies (visits.map (Served.op cwd))) ↔
        TempFilesNamed cwd v visits) ∧
      Stored cwd databaseFiles s (v.after (visits.map (Served.op cwd))) ∧
      ∀ visit ∈ visits, visit.SparesOthers cwd databaseFiles := by
    induction h with
    | start =>
      refine ⟨iff_of_true .nil trivial, h₀, ?_⟩
      intro visit hvisit
      simp at hvisit
    | outside _ hout ih => exact ⟨ih.1, ih.2.1.outside hout, ih.2.2⟩
    | @task visits s s' task now effects _ ha hserves ih =>
      obtain ⟨hreplies, hstored, hspared⟩ := ih
      have hshows : Served.Shows cwd ⟨task, now, s, effects, s'⟩
          ((v.after (visits.map (Served.op cwd))).apply (vaultOp cwd s.files task)).1 ↔
            ¬ Misnamed (v.after (visits.map (Served.op cwd))) task now :=
        hserves.answers_iff hstored ha
      rw [List.map_append, List.map_singleton, Vault.replies_append, Vault.after_append]
      refine ⟨?_, hserves.stored hstored ha, ?_⟩
      · rw [forall₂_concat, tempFilesNamed_concat]
        exact and_congr hreplies hshows
      · intro visit hvisit
        rcases List.mem_append.mp hvisit with hold | hlast
        · exact hspared visit hold
        · obtain rfl := List.mem_singleton.mp hlast
          intro user relpath hkey hother
          exact hserves.other_key hstored ha hkey hother
  refine ⟨hmain.1, hmain.2.1, hmain.2.2, ?_⟩
  intro task now ha
  exact ha.served hmain.2.1

def noteFiles : Files where
  entries := [(locate [] (cstr "srv"), ⟨.dir, []⟩), (locate [] (cstr "srv/storage"), ⟨.dir, []⟩),
    (locate [] (cstr "srv/note"), ⟨.file 0, [cstr "hi"]⟩), (locate [] (cstr "tmp"), ⟨.dir, []⟩)]

def noteTask (type : CommandType) : Task where
  type := type
  client := ⟨1, 4⟩
  username := cstr "alice"
  password := cstr "pw"
  path := cstr "n"
  tmpfile := cstr "note"
  size := 2
  priority := .normal
  enqueueTime := ⟨0, 0⟩

def noteVisit (s : Service) (task : Task) : Served :=
  match serveTask [cstr "srv"] 20 s task 5 with
  | some (effects, s') => ⟨task, 5, s, effects, s'⟩
  | none => ⟨task, 5, s, [], s⟩

theorem noteVisit_session {s₀ s : Service} {visits : List Served} (task : Task)
    (h : Session [cstr "srv"] [cstr "users.db"] s₀ visits s)
    (hserve : (serveTask [cstr "srv"] 20 s task 5).isSome = true)
    (ha : Admissible [cstr "srv"] [cstr "users.db"] s task 5) :
    Session [cstr "srv"] [cstr "users.db"] s₀ (visits ++ [noteVisit s task])
      (noteVisit s task).after := by
  obtain ⟨⟨effects, s'⟩, hrun⟩ := Option.isSome_iff_exists.mp hserve
  have hvisit : noteVisit s task = ⟨task, 5, s, effects, s'⟩ := by
    simp only [noteVisit, hrun]
  rw [hvisit]
  exact .task h ha (serves_of_serveTask hrun)

theorem noteFiles_stored :
    Stored [cstr "srv"] [cstr "users.db"] ⟨emptyStore, noteFiles⟩ ⟨emptyStore.credentials, fun _ => none⟩ := by
  apply stored_fresh
  · exact sound_of_entries (by decide +kernel)
  · unfold RootOpen
    decide +kernel
  · intro l hl _
    have hnames : l.names ≠ [] := by
      intro hnil
      have hprefix := hl.1.2.2
      rw [hnil] at hprefix
      exact absurd (List.prefix_nil.mp hprefix) (by decide +kernel)
    rw [node_eq_view hnames, view_eq_absent]
    intro c hc
    have hnone : ∀ e ∈ noteFiles.entries,
        ¬ StrictlyInside (rootLocation [cstr "srv"] emptyStore) e.1 := by decide +kernel
    exact hnone _ hc hl

theorem note_stored_fetched_deleted :
    ∃ visits s, Session [cstr "srv"] [cstr "users.db"] ⟨emptyStore, noteFiles⟩ visits s ∧
      visits.map (fun visit => visit.task.type) = [.signup, .upload, .download, .delete] ∧
      List.Forall₂ (Served.Shows [cstr "srv"]) visits [.ok, .ok, .content (cstr "hi"), .ok] := by
  have h₀ : Session [cstr "srv"] [cstr "users.db"] ⟨emptyStore, noteFiles⟩ []
      ⟨emptyStore, noteFiles⟩ := .start
  have h₁ := noteVisit_session (noteTask .signup) h₀ (by decide +kernel)
    (by constructor <;> decide +kernel)
  have h₂ := noteVisit_session (noteTask .upload) h₁ (by decide +kernel)
    (by constructor <;> decide +kernel)
  have h₃ := noteVisit_session (noteTask .download) h₂ (by decide +kernel)
    (by constructor <;> decide +kernel)
  have h₄ := noteVisit_session (noteTask .delete) h₃ (by decide +kernel)
    (by constructor <;> decide +kernel)
  obtain ⟨visits, s, h, htypes, hnamed, hcompute⟩ : ∃ visits s,
      Session [cstr "srv"] [cstr "users.db"] ⟨emptyStore, noteFiles⟩ visits s ∧
      visits.map (fun visit => visit.task.type) = [.signup, .upload, .download, .delete] ∧
      TempFilesNamed [cstr "srv"] ⟨emptyStore.credentials, fun _ => none⟩ visits ∧
      (⟨emptyStore.credentials, fun _ => none⟩ : Vault).replies
        (visits.map (Served.op [cstr "srv"])) = [.ok, .ok, .content (cstr "hi"), .ok] :=
    ⟨_, _, h₄, by decide +kernel, by decide +kernel, by decide +kernel⟩
  have hreplies := (session_refines_vault noteFiles_stored h).1.mpr hnamed
  rw [hcompute] at hreplies
  exact ⟨visits, s, h, htypes, hreplies⟩

def longNameTask (type : CommandType) : Task :=
  { noteTask type with path := List.replicate 230 120 }

theorem long_name_not_fetched :
    ∃ visits s, Session [cstr "srv"] [cstr "users.db"] ⟨emptyStore, noteFiles⟩ visits s ∧
      visits.map (fun visit => visit.task.type) = [.signup, .upload, .download] ∧
      (⟨emptyStore.credentials, fun _ => none⟩ : Vault).replies
        (visits.map (Served.op [cstr "srv"])) = [.ok, .ok, .content (cstr "hi")] ∧
      visits.getLast?.map Served.effects = some [.sendResponse .err
        (cstr "Failed to create temporary file: File name too long")] ∧
      ¬ List.Forall₂ (Served.Shows [cstr "srv"]) visits [.ok, .ok, .content (cstr "hi")] := by
  have h₀ : Session [cstr "srv"] [cstr "users.db"] ⟨emptyStore, noteFiles⟩ []
      ⟨emptyStore, noteFiles⟩ := .start
  have h₁ := noteVisit_session (longNameTask .signup) h₀ (by decide +kernel)
    (by constructor <;> decide +kernel)
  have h₂ := noteVisit_session (longNameTask .upload) h₁ (by decide +kernel)
    (by constructor <;> decide +kernel)
  have h₃ := noteVisit_session (longNameTask .download) h₂ (by decide +kernel)
    (by constructor <;> decide +kernel)
  refine ⟨_, _, h₃, by decide +kernel, by decide +kernel, by decide +kernel, ?_⟩
  intro hshows
  have hlast : Served.Shows [cstr "srv"] _ (.content (cstr "hi")) :=
    (@forall₂_concat _ _ _ _ [.ok, .ok] _ _ |>.mp hshows).2
  obtain ⟨path, heffects, -⟩ := hlast
  have hrefused : (noteVisit (noteVisit (noteVisit ⟨emptyStore, noteFiles⟩ (longNameTask .signup)).after
      (longNameTask .upload)).after (longNameTask .download)).effects = [.sendResponse .err
        (cstr "Failed to create temporary file: File name too long")] := by decide +kernel
  rw [heffects] at hrefused
  simp at hrefused

end FileServer
