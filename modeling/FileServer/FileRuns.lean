import FileServer.StorageTree

/-!
# Runs of UPLOAD, DOWNLOAD and DELETE

A file task that runs alone, call after call: what it has opened when its copy loop
starts, and what it leaves when no call fails.
-/

namespace FileServer

open LexicalPath Interleaving
set_option autoImplicit false

theorem exec_invariant {cwd : List CString} {store : UserStore} {p₀ p : FileProcess}
    {files mem : Files} {I : FileProcess → Files → Prop}
    (h : (fileMachine cwd store).Exec p₀ files p mem) (hstart : I p₀ files)
    (hcall : ∀ q n r errno, (fileMachine cwd store).Exec p₀ files q n → I q n →
      fileRequest store q.job q.stage = some r →
      I ⟨q.job, q.calls + 1, errno, fileResume store q.job errno
          (perform cwd (q.job.faults q.calls) n r).1 q.stage⟩
        (perform cwd (q.job.faults q.calls) n r).2) : I p mem := by
  induction h with
  | refl => exact hstart
  | @step q n hexec hdone ih =>
    obtain ⟨r, hr⟩ : ∃ r, fileRequest store q.job q.stage = some r := by
      rw [← Option.isSome_iff_exists, ← Option.isNone_eq_false_iff]
      exact hdone
    change I (fileStep cwd store q n).1 (fileStep cwd store q n).2
    rw [fileStep_eq hr]
    exact hcall q n r _ hexec ih hr

/-- `EEXIST` is what `mkdir` reports by itself and not a fault. -/
def GenuineFaults (faults : Nat → Option Fault) : Prop :=
  ∀ n f, faults n = some f → f.errno ≠ eexist

/-- A task that starts on `files₀` comes to a stage after some calls, whatever `errno`
holds then. -/
def Comes (cwd : List CString) (store : UserStore) (job : FileJob) (files₀ : Files)
    (calls : Nat) (stage : FileStage) (files : Files) : Prop :=
  ∃ errno, (fileMachine cwd store).Exec (.start store job) files₀ ⟨job, calls, errno, stage⟩ files

section Calls
variable {cwd : List CString} {store : UserStore} {job : FileJob} {files₀ files files' : Files}
  {calls : Nat} {stage stage' : FileStage} {r : Request} {a : CallAnswer}

theorem Comes.step (h : Comes cwd store job files₀ calls stage files)
    (hr : fileRequest store job stage = some r)
    (hp : perform cwd (job.faults calls) files r = (a, files')) :
    ∃ errno, Comes cwd store job files₀ (calls + 1) (fileResume store job errno a stage) files' := by
  obtain ⟨errno, hexec⟩ := h
  have hdone : (fileMachine cwd store).done ⟨job, calls, errno, stage⟩ = false := by
    simp [fileMachine, hr]
  have hnext := Machine.Exec.step hexec hdone
  change (fileMachine cwd store).Exec _ files₀ (fileStep cwd store _ _).1 (fileStep cwd store _ _).2
    at hnext
  rw [fileStep_eq hr] at hnext
  simp only [hp] at hnext
  exact ⟨a.error.getD errno, a.error.getD errno, hnext⟩

theorem Comes.call (h : Comes cwd store job files₀ calls stage files)
    (hr : fileRequest store job stage = some r)
    (hp : perform cwd (job.faults calls) files r = (a, files'))
    (hs : ∀ errno, fileResume store job errno a stage = stage') :
    Comes cwd store job files₀ (calls + 1) stage' files' := by
  obtain ⟨errno, hnext⟩ := h.step hr hp
  rwa [hs] at hnext

theorem Comes.sound (h : Comes cwd store job files₀ calls stage files) (hsound : files₀.Sound) :
    files.Sound := by
  obtain ⟨errno, hexec⟩ := h
  refine exec_invariant (I := fun _ mem => mem.Sound) hexec hsound ?_
  intro q n r errno _ hn _
  exact perform_sound _ _ hn

theorem comes_start (job : FileJob) (files : Files) :
    Comes cwd store job files 0 (firstStage store job) files :=
  ⟨[], .refl⟩

theorem perform_fst (fault : Option Fault) :
    (perform cwd fault files r).1 = (respond cwd fault files r).1 := by
  unfold perform
  split
  · rename_i h
    rw [h]
  · rename_i h
    rw [h]

theorem perform_fopenWrite (path : CString) :
    (perform cwd none files ⟨path, .fopenWrite⟩).1 = (fopenWrite cwd files path).1 := perform_fst none

theorem perform_mkdir (path : CString) :
    perform cwd none files ⟨path, .mkdir⟩ =
      ((mkdir cwd files path).1, (perform cwd none files ⟨path, .mkdir⟩).2) :=
  Prod.ext (perform_fst none) rfl

theorem Comes.plain {path : CString} (h : Comes cwd store job files₀ calls stage files)
    (hr : fileRequest store job stage = some ⟨path, .plain⟩) (hfault : job.faults calls = none)
    (hs : ∀ errno, fileResume store job errno succeeded stage = stage') :
    Comes cwd store job files₀ (calls + 1) stage' files := by
  refine h.call hr ?_ hs
  rw [hfault]
  rfl

end Calls

section Removal
variable {cwd : List CString} {n : Files} {path : CString} {k : Nat}

theorem unlink_removes (hpasses : n.barred (origin cwd path) (components path) = none)
    (hfile : n.node (locate cwd path) = .file k) :
    perform cwd none n ⟨path, .unlink⟩ = (succeeded, n.set (locate cwd path) (removed cwd n path)) := by
  simp only [perform, respond, unlink, hpasses, hfile]

theorem remove_removes (hpasses : n.barred (origin cwd path) (components path) = none)
    (hfile : n.node (locate cwd path) = .file k) :
    perform cwd none n ⟨path, .remove⟩ = (succeeded, n.set (locate cwd path) (removed cwd n path)) := by
  simp only [perform, respond, remove, hpasses, hfile]

theorem node_removed (hfile : n.node (locate cwd path) = .file k) :
    (n.set (locate cwd path) (removed cwd n path)).node (locate cwd path) = .absent := by
  rw [node_set, if_neg (names_ne_nil hfile), if_pos rfl]
  rfl

end Removal

section Upload
variable {cwd : List CString} {store : UserStore} {job : FileJob} {files : Files}

/-- The files once the directory of the user has been made, if it can be. -/
def withUserDirectory (cwd : List CString) (store : UserStore) (user : CString) (files : Files) :
    Files :=
  (perform cwd none files ⟨userDirectory store user, .mkdir⟩).2

/-- An UPLOAD is accepted and can open its source and its destination. -/
structure UploadOpens (cwd : List CString) (store : UserStore) (job : FileJob) (files : Files) :
    Prop where
  user : (job.user store).isSome = true
  size : job.task.size ≤ 10 * 1024 * 1024
  source : (fopenRead cwd files job.task.tmpfile).error = none
  directory : (mkdir cwd files (userDirectory store job.task.username)).1.error = none ∨
    (mkdir cwd files (userDirectory store job.task.username)).1.error = some eexist
  destination : (fopenWrite cwd (withUserDirectory cwd store job.task.username files)
    (job.userPath store)).1.error = none

theorem FileJob.not_high (store : UserStore) (job : FileJob) :
    (job.user store).map User.priority ≠ some .high := by
  intro h
  obtain ⟨u, hu, hpriority⟩ := Option.map_eq_some_iff.mp h
  unfold FileJob.user at hu
  split at hu
  · rw [lockUser_priority hu] at hpriority
    contradiction
  · contradiction

theorem firstStage_upload (htype : job.task.type = .upload) :
    firstStage store job =
      if (job.user store).isSome = true ∧ job.task.size ≤ 10 * 1024 * 1024 then
        .upload .testTmpfile
      else .upload (.done false (.error [])) := by
  unfold firstStage
  rw [htype]
  cases huser : job.user store with
  | none => simp
  | some u =>
    have hrank : u.priority.rank < TaskPriority.high.rank := by
      have hnot := job.not_high store
      rw [huser] at hnot
      cases hpriority : u.priority with
      | high => simp [hpriority] at hnot
      | normal => decide
      | low => decide
    by_cases hsize : job.task.size ≤ 10 * 1024 * 1024
    · simp [hsize]
    · simp [hsize, hrank, Nat.lt_of_not_le hsize]

theorem fopenRead_of_ok {path : CString} (h : (fopenRead cwd files path).error = none) :
    files.barred (origin cwd path) (components path) = none ∧
      ∃ inode, fopenRead cwd files path = opened inode ∧
        ((inode = none ∧ files.node (locate cwd path) = .dir) ∨
          ∃ k, inode = some k ∧ files.node (locate cwd path) = .file k) := by
  have hok : (perform cwd none files ⟨path, .fopenRead⟩).1.error = none := h
  obtain ⟨inode, heq, hnode⟩ := perform_fopenRead_ok hok
  refine ⟨?_, inode, (Prod.mk.inj heq).1, hnode⟩
  unfold fopenRead at h
  split at h
  · contradiction
  · assumption

theorem mkdir_keeps {path : CString} {fault : Option Fault} {l : Location}
    (h : files.node l ≠ .absent) :
    (perform cwd fault files ⟨path, .mkdir⟩).2.view l = files.view l := by
  rcases perform_changes cwd fault files ⟨path, .mkdir⟩ with heq | ⟨c, hc, heq⟩
  · rw [heq]
  · rw [heq, view_set, if_neg]
    rintro rfl
    cases hc with
    | mkdir habsent => exact h habsent

theorem fopenRead_of_node {path : CString} {inode : Option Nat}
    (hbarred : files.barred (origin cwd path) (components path) = none)
    (hnode : (inode = none ∧ files.node (locate cwd path) = .dir) ∨
      ∃ k, inode = some k ∧ files.node (locate cwd path) = .file k) :
    fopenRead cwd files path = opened inode := by
  unfold fopenRead
  rw [hbarred]
  rcases hnode with ⟨rfl, hdir⟩ | ⟨k, rfl, hfile⟩
  · simp only [hdir]
  · simp only [hfile]

theorem fopenRead_withUserDirectory {path : CString} {inode : Option Nat} (user : CString)
    (hbarred : files.barred (origin cwd path) (components path) = none)
    (hnode : (inode = none ∧ files.node (locate cwd path) = .dir) ∨
      ∃ k, inode = some k ∧ files.node (locate cwd path) = .file k) :
    fopenRead cwd (withUserDirectory cwd store user files) path = opened inode := by
  have hpresent : files.node (locate cwd path) ≠ .absent := by
    rcases hnode with ⟨-, hdir⟩ | ⟨k, -, hfile⟩
    · simp [hdir]
    · simp [hfile]
  have hsame : (withUserDirectory cwd store user files).node (locate cwd path) =
      files.node (locate cwd path) := node_congr (mkdir_keeps hpresent)
  apply fopenRead_of_node
  · exact barred_of_dirs (fun l _ hdir => perform_dir hdir nofun) hbarred
  · rwa [hsame]

theorem upload_to_read (htype : job.task.type = .upload)
    (hfaults : ∀ n, n < 5 → job.faults n = none) (h : UploadOpens cwd store job files) :
    ∃ inode m c,
      Comes cwd store job files 5
        (.upload (.read (openedOn inode) (openedOn (some m))))
        ((withUserDirectory cwd store job.task.username files).set
          (locate cwd (job.userPath store)) c) ∧
      fopenWrite cwd (withUserDirectory cwd store job.task.username files) (job.userPath store) =
        (opened (some m), some c) ∧
      ((inode = none ∧ files.node (locate cwd job.task.tmpfile) = .dir) ∨
        ∃ k, inode = some k ∧ files.node (locate cwd job.task.tmpfile) = .file k) := by
  obtain ⟨hbarred, inode, hopened, hnode⟩ := fopenRead_of_ok h.source
  obtain ⟨m, c, hwrite⟩ : ∃ m c,
      fopenWrite cwd (withUserDirectory cwd store job.task.username files) (job.userPath store) =
        (opened (some m), some c) := by
    have hok := h.destination
    rcases fopenWrite_cases cwd (withUserDirectory cwd store job.task.username files)
      (job.userPath store) with ⟨errno, heq⟩ | ⟨-, heq⟩ | ⟨k, -, heq⟩
    · rw [heq] at hok
      contradiction
    · exact ⟨_, _, heq⟩
    · exact ⟨_, _, heq⟩
  refine ⟨inode, m, c, ?_, hwrite, hnode⟩
  have hreopened : fopenRead cwd (withUserDirectory cwd store job.task.username files)
      job.task.tmpfile = opened inode :=
    fopenRead_withUserDirectory job.task.username hbarred hnode
  have h₀ : Comes cwd store job files 0 (.upload .testTmpfile) files := by
    have hstart : Comes cwd store job files 0 (firstStage store job) files := comes_start job files
    rwa [firstStage_upload htype, if_pos ⟨h.user, h.size⟩] at hstart
  have h₁ : Comes cwd store job files 1 (.upload .closeTest) files := by
    refine h₀.call (a := opened inode) rfl ?_ fun _ => rfl
    rw [hfaults 0 (by decide)]
    exact congrArg (·, files) hopened
  have h₂ : Comes cwd store job files 2 (.upload .mkdir) files :=
    h₁.plain rfl (hfaults 1 (by decide)) fun _ => rfl
  have h₃ : Comes cwd store job files 3 (.upload .openIn)
      (withUserDirectory cwd store job.task.username files) := by
    refine h₂.call (a := (mkdir cwd files (userDirectory store job.task.username)).1) rfl ?_ ?_
    · rw [hfaults 2 (by decide)]
      exact perform_mkdir _
    · intro errno
      simp only [fileResume, uploadResume, if_pos h.directory]
  have h₄ : Comes cwd store job files 4 (.upload (.openOut (openedOn inode)))
      (withUserDirectory cwd store job.task.username files) := by
    refine h₃.call (a := opened inode) rfl ?_ fun _ => rfl
    rw [hfaults 3 (by decide)]
    exact congrArg (·, withUserDirectory cwd store job.task.username files) hreopened
  refine h₄.call (a := opened (some m)) rfl ?_ fun _ => rfl
  rw [hfaults 4 (by decide)]
  simp only [perform, respond, hwrite]

end Upload

section Loops

/-- The stages of a loop that copies `from` to `to` block by block. -/
structure CopyLoop (store : UserStore) (job : FileJob) (source target : CString)
    (reading : Handle → Handle → FileStage) (coding writing : Handle → Handle → List Byte → FileStage)
    (finished : FileStage) : Prop where
  reads : ∀ i o, fileRequest store job (reading i o) = some ⟨source, .fread i⟩
  codes : ∀ i o block, fileRequest store job (coding i o block) = some ⟨source, .plain⟩
  writes : ∀ i o block,
    fileRequest store job (writing i o block) = some ⟨target, .fwrite o (encodeData block)⟩
  stops : ∀ errno i o i', i'.error = false →
    fileResume store job errno ⟨none, i', []⟩ (reading i o) = finished
  goesOn : ∀ errno i o i' block, block ≠ [] →
    fileResume store job errno ⟨none, i', block⟩ (reading i o) = coding i' o block
  coded : ∀ errno i o block,
    fileResume store job errno succeeded (coding i o block) = writing i o block
  written : ∀ errno i o block o',
    fileResume store job errno ⟨none, o', []⟩ (writing i o block) = reading i o'

theorem uploadLoop (store : UserStore) (job : FileJob) :
    CopyLoop store job job.task.tmpfile (job.userPath store) (fun i o => .upload (.read i o))
      (fun i o block => .upload (.encode i o block)) (fun i o block => .upload (.write i o block))
      (.upload (.closeIn none)) where
  reads _ _ := rfl
  codes _ _ _ := rfl
  writes _ _ _ := rfl
  stops errno i o i' h := by simp [fileResume, uploadResume, uploadResume.leave, h]
  goesOn errno i o i' block h := by simp [fileResume, uploadResume, h]
  coded _ _ _ _ := rfl
  written _ _ _ _ _ := rfl

theorem downloadLoop (store : UserStore) (job : FileJob) :
    CopyLoop store job (job.userPath store) job.tempPath (fun i o => .download (.read i o))
      (fun i o block => .download (.decode i o block))
      (fun i o block => .download (.write i o block)) (.download (.closeTemp none)) where
  reads _ _ := rfl
  codes _ _ _ := rfl
  writes _ _ _ := rfl
  stops errno i o i' h := by simp [fileResume, downloadResume, h]
  goesOn errno i o i' block h := by simp [fileResume, downloadResume, h]
  coded _ _ _ _ := rfl
  written _ _ _ _ _ := rfl

variable {cwd : List CString} {store : UserStore} {job : FileJob} {files₀ n : Files}
  {source target : CString} {reading : Handle → Handle → FileStage}
  {coding writing : Handle → Handle → List Byte → FileStage} {finished : FileStage}
  {src : List Byte}

/-- A copy loop that meets no fault comes to its end and leaves the coded source. -/
theorem CopyLoop.runs (loop : CopyLoop store job source target reading coding writing finished)
    (hfaults : ∀ k, job.faults k = none) (hab : locate cwd source ≠ locate cwd target)
    {calls m : Nat} {i o : Handle} (h : Comes cwd store job files₀ calls (reading i o) n)
    (hcopy : Copying n (locate cwd source) (locate cwd target) src m i o)
    (hi : i.offset = m) (herror : i.error = false) :
    ∃ calls' n', Comes cwd store job files₀ calls' finished n' ∧
      n'.contentAt (locate cwd target) = some (codeFile src) ∧
      ∀ l, l ≠ locate cwd target → n'.view l = n.view l := by
  induction hrest : src.length - m using Nat.strong_induction_on generalizing calls m i o n with
  | _ rest ih =>
    have hread : perform cwd (job.faults calls) n ⟨source, .fread i⟩ =
        (⟨none, { i with offset := m + (nextBlock src m).length }, nextBlock src m⟩, n) := by
      rw [hfaults]
      simp only [perform, respond, hcopy.fread hi]
    by_cases hend : nextBlock src m = []
    · have hm := (nextBlock_eq_nil hcopy.bound).mp hend
      subst hm
      rw [hend] at hread
      refine ⟨calls + 1, n, ?_, hcopy.complete, fun _ _ => rfl⟩
      exact h.call (loop.reads i o) hread fun errno => loop.stops errno i o _ herror
    · have h₁ := h.call (loop.reads i o) hread fun errno => loop.goesOn errno i o _ _ hend
      have h₂ := h₁.plain (loop.codes _ _ _) (hfaults _) fun errno => loop.coded errno _ _ _
      obtain ⟨c, hwrite, hnext⟩ := hcopy.fwrite rfl hend hab
      have hput : perform cwd (job.faults (calls + 1 + 1)) n
          ⟨target, .fwrite o (encodeData (nextBlock src m))⟩ =
          (⟨none, { o with offset := m + (nextBlock src m).length }, []⟩,
            n.set (locate cwd target) c) := by
        rw [hfaults]
        simp only [perform, respond, hwrite]
      have h₃ := h₂.call (loop.writes _ _ _) hput fun errno => loop.written errno _ _ _ _
      have hlt : src.length - (m + (nextBlock src m).length) < rest := by
        have hpos := List.length_pos_of_ne_nil hend
        have hbound := hnext.bound
        omega
      obtain ⟨calls', n', hcomes, hcontent, hframe⟩ :=
        ih _ hlt h₃ (hnext.advance rfl) rfl herror rfl
      refine ⟨calls', n', hcomes, hcontent, ?_⟩
      intro l hl
      rw [hframe l hl, view_set, if_neg hl]

end Loops

section Whole
variable {cwd : List CString} {store : UserStore} {job : FileJob} {files : Files} {src : List Byte}

theorem contentAt_file {l : Location} (h : files.contentAt l = some src) :
    ∃ k, files.node l = .file k ∧ (files.view l).inodes[k]? = some src := by
  unfold Files.contentAt at h
  split at h
  · rename_i k hnode
    exact ⟨k, hnode, h⟩
  · contradiction
  · contradiction

theorem fopenWrite_not_dir {path : CString} (h : (fopenWrite cwd files path).1.error = none) :
    files.node (locate cwd path) ≠ .dir := by
  rcases fopenWrite_cases cwd files path with ⟨errno, heq⟩ | ⟨hnode, -⟩ | ⟨k, hnode, -⟩
  · rw [heq] at h
    contradiction
  · simp [hnode]
  · simp [hnode]

theorem fopenRead_absent {path : CString} (h : files.node (locate cwd path) = .absent) :
    (fopenRead cwd files path).error ≠ none := by
  intro hok
  obtain ⟨-, inode, -, ⟨-, hdir⟩ | ⟨k, -, hk⟩⟩ := fopenRead_of_ok hok
  · simp [h] at hdir
  · simp [h] at hk

theorem remove_absent {path : CString} (h : files.node (locate cwd path) = .absent) :
    ∃ errno, perform cwd none files ⟨path, .remove⟩ = (failed errno, files) := by
  simp only [perform, respond, remove, h]
  cases files.barred (origin cwd path) (components path) with
  | none => exact ⟨_, rfl⟩
  | some errno => exact ⟨_, rfl⟩

theorem upload_run (htype : job.task.type = .upload) (hfaults : ∀ n, job.faults n = none)
    (hsound : files.Sound) (h : UploadOpens cwd store job files)
    (hsrc : files.contentAt (locate cwd job.task.tmpfile) = some src)
    (hne : locate cwd job.task.tmpfile ≠ locate cwd (job.userPath store)) :
    ∃ calls n, Comes cwd store job files calls (.upload (.done true (.ok ()))) n ∧
      n.contentAt (locate cwd (job.userPath store)) = some (codeFile src) ∧
      ∀ l, l ≠ locate cwd (job.userPath store) → l ≠ locate cwd job.task.tmpfile →
        n.view l = (withUserDirectory cwd store job.task.username files).view l := by
  obtain ⟨k, hk, hcontent⟩ := contentAt_file hsrc
  obtain ⟨inode, m, c, hread, hwrite, hnode⟩ := upload_to_read htype (fun n _ => hfaults n) h
  obtain rfl : inode = some k := by
    rcases hnode with ⟨-, hdir⟩ | ⟨k', rfl, hk'⟩
    · simp [hk] at hdir
    · rw [hk] at hk'
      rw [Node.file.inj hk']
  have hmade : (withUserDirectory cwd store job.task.username files).view
      (locate cwd job.task.tmpfile) = files.view (locate cwd job.task.tmpfile) :=
    mkdir_keeps (by simp [hk])
  have hdirs : ∀ l, files.node l = .dir →
      (withUserDirectory cwd store job.task.username files).node l = .dir :=
    fun l hdir => perform_dir hdir nofun
  obtain ⟨hcnode, hempty, hnames⟩ := fopenWrite_cell (perform_sound none _ hsound) hwrite
  have hnotdir := fopenWrite_not_dir h.destination
  generalize withUserDirectory cwd store job.task.username files = made at *
  obtain ⟨calls, n, hcomes, hcopied, hframe⟩ := (uploadLoop store job).runs hfaults hne hread
    (copying_start rfl (hmade ▸ hcontent) hne hcnode hempty hnames) rfl rfl
  have hsame : ∀ l, l ≠ locate cwd (job.userPath store) → n.view l = made.view l := by
    intro l hl
    rw [hframe l hl, view_set, if_neg hl]
  have hfile : n.node (locate cwd job.task.tmpfile) = .file k := by
    rw [node_congr (hsame _ hne), node_congr hmade, hk]
  have hpasses : n.barred (origin cwd job.task.tmpfile) (components job.task.tmpfile) = none := by
    apply barred_of_dirs _ (fopenRead_of_ok h.source).1
    intro l _ hdir
    have hl : l ≠ locate cwd (job.userPath store) := by
      rintro rfl
      exact hnotdir (hdirs _ hdir)
    rw [node_congr (hsame l hl), hdirs l hdir]
  have h₁ : Comes cwd store job files (calls + 1) (.upload (.closeOut none)) n :=
    hcomes.plain rfl (hfaults _) fun _ => rfl
  have h₂ : Comes cwd store job files (calls + 2) (.upload .unlinkTmpfile) n :=
    h₁.plain rfl (hfaults _) fun _ => rfl
  have hunlink : perform cwd (job.faults (calls + 2)) n ⟨job.task.tmpfile, .unlink⟩ =
      (succeeded, n.set (locate cwd job.task.tmpfile) (removed cwd n job.task.tmpfile)) := by
    rw [hfaults]
    exact unlink_removes hpasses hfile
  refine ⟨calls + 3, _, h₂.call rfl hunlink fun _ => rfl, ?_, ?_⟩
  · have hview : (n.set (locate cwd job.task.tmpfile) (removed cwd n job.task.tmpfile)).view
        (locate cwd (job.userPath store)) = n.view (locate cwd (job.userPath store)) := by
      rw [view_set, if_neg hne.symm]
    rw [contentAt_congr hview, hcopied]
  · intro l hl hl'
    rw [view_set, if_neg hl', hsame l hl]

/-- The files once the directory for temporary files has been made, if it can be. -/
def withTempDirectory (cwd : List CString) (files : Files) : Files :=
  (perform cwd none files ⟨tempDir, .mkdir⟩).2

/-- A download can create its temporary file. -/
structure TempOpens (cwd : List CString) (path : CString) (files : Files) : Prop where
  directory : (mkdir cwd files tempDir).1.error = none ∨
    (mkdir cwd files tempDir).1.error = some eexist
  file : (fopenWrite cwd (withTempDirectory cwd files) path).1.error = none

instance (cwd : List CString) (path : CString) (files : Files) :
    Decidable (TempOpens cwd path files) :=
  decidable_of_iff (((mkdir cwd files tempDir).1.error = none ∨
      (mkdir cwd files tempDir).1.error = some eexist) ∧
    (fopenWrite cwd (withTempDirectory cwd files) path).1.error = none)
    ⟨fun h => ⟨h.1, h.2⟩, fun h => ⟨h.1, h.2⟩⟩

/-- Nothing but the length of its name keeps a download from creating its temporary file,
which is an entry of the working directory. -/
structure TempRoom (cwd : List CString) (path : CString) (files : Files) : Prop where
  directory : (mkdir cwd files tempDir).1.error = none ∨
    (mkdir cwd files tempDir).1.error = some eexist
  here : (withTempDirectory cwd files).node ⟨true, 0, cwd⟩ = .dir
  free : (withTempDirectory cwd files).node (locate cwd path) ≠ .dir

instance (cwd : List CString) (path : CString) (files : Files) :
    Decidable (TempRoom cwd path files) :=
  decidable_of_iff (((mkdir cwd files tempDir).1.error = none ∨
      (mkdir cwd files tempDir).1.error = some eexist) ∧
    (withTempDirectory cwd files).node ⟨true, 0, cwd⟩ = .dir ∧
    (withTempDirectory cwd files).node (locate cwd path) ≠ .dir)
    ⟨fun h => ⟨h.1, h.2.1, h.2.2⟩, fun h => ⟨h.1, h.2, h.3⟩⟩

theorem download_start (htype : job.task.type = .download) :
    Comes cwd store job files 0
      (.download (if (job.user store).isSome then .openFile else .done (.error []) [])) files := by
  have hstart : Comes cwd store job files 0 (firstStage store job) files := comes_start job files
  unfold firstStage at hstart
  rw [htype] at hstart
  cases huser : job.user store with
  | none =>
    rw [huser] at hstart
    exact hstart
  | some u =>
    rw [huser] at hstart
    exact hstart

theorem delete_start (htype : job.task.type = .delete) :
    Comes cwd store job files 0
      (.delete (if (job.user store).isSome then .remove else .done false)) files := by
  have hstart : Comes cwd store job files 0 (firstStage store job) files := comes_start job files
  unfold firstStage at hstart
  rw [htype] at hstart
  cases huser : job.user store with
  | none =>
    rw [huser] at hstart
    exact hstart
  | some u =>
    rw [huser] at hstart
    exact hstart

theorem download_makes (job : FileJob) {k : Nat} (htype : job.task.type = .download)
    (hfaults : ∀ n, job.faults n = none) (huser : (job.user store).isSome = true)
    (hpasses : files.barred (origin cwd (job.userPath store)) (components (job.userPath store)) =
      none)
    (hnode : files.node (locate cwd (job.userPath store)) = .file k)
    (hdirectory : (mkdir cwd files tempDir).1.error = none ∨
      (mkdir cwd files tempDir).1.error = some eexist) :
    Comes cwd store job files 4 (.download (.openTemp (openedOn (some k))))
      (withTempDirectory cwd files) := by
  have h₀ : Comes cwd store job files 0 (.download .openFile) files := by
    have hstart : Comes cwd store job files 0 _ files := download_start htype
    rwa [if_pos huser] at hstart
  have h₁ : Comes cwd store job files 1 (.download (.seek (openedOn (some k)))) files := by
    refine h₀.call (a := opened (some k)) rfl ?_ fun _ => rfl
    rw [hfaults 0]
    exact congrArg (·, files) (fopenRead_of_node hpasses (Or.inr ⟨k, rfl, hnode⟩))
  have h₂ : Comes cwd store job files 2 (.download (.tell (openedOn (some k)))) files :=
    h₁.plain rfl (hfaults 1) fun _ => rfl
  have h₃ : Comes cwd store job files 3 (.download (.mkdir (openedOn (some k)))) files :=
    h₂.plain rfl (hfaults 2) fun _ => rfl
  refine h₃.call (a := (mkdir cwd files tempDir).1) rfl ?_ ?_
  · rw [hfaults 3]
    exact perform_mkdir tempDir
  · intro errno
    simp only [fileResume, downloadResume, if_pos hdirectory]

theorem download_refused_temp {e : CString} {m : Files} {i : Handle}
    (hfaults : ∀ n, job.faults n = none)
    (h : Comes cwd store job files 4 (.download (.openTemp i)) m)
    (hopen : fopenWrite cwd m job.tempPath = (failed e, none)) :
    ∃ text, Comes cwd store job files 6 (.download (.done (.error text) [])) m := by
  have h₅ : Comes cwd store job files 5
      (.download (.abandon (cstr "Failed to create temporary file: "))) m := by
    refine h.call (a := failed e) rfl ?_ fun _ => rfl
    rw [hfaults 4]
    simp only [perform, respond, hopen]
  obtain ⟨errno, h₆⟩ := h₅.step (a := succeeded) rfl (by rw [hfaults 5]; rfl)
  exact ⟨_, h₆⟩

theorem download_run (htype : job.task.type = .download) (hfaults : ∀ n, job.faults n = none)
    (hsound : files.Sound) (huser : (job.user store).isSome = true)
    (hpasses : files.barred (origin cwd (job.userPath store)) (components (job.userPath store)) =
      none)
    (hsrc : files.contentAt (locate cwd (job.userPath store)) = some src)
    (htemp : TempOpens cwd job.tempPath files) (hlength : job.tempPath.length < 511)
    (hne : locate cwd (job.userPath store) ≠ locate cwd job.tempPath) :
    ∃ calls n content,
      Comes cwd store job files calls (.download (.done (.ok job.tempPath) content)) n ∧
      n.contentAt (locate cwd job.tempPath) = some (codeFile src) ∧
      ∀ l, l ≠ locate cwd job.tempPath → n.view l = (withTempDirectory cwd files).view l := by
  obtain ⟨k, hk, hcontent⟩ := contentAt_file hsrc
  have h₄ : Comes cwd store job files 4 (.download (.openTemp (openedOn (some k))))
      (withTempDirectory cwd files) :=
    download_makes _ htype hfaults huser hpasses hk htemp.directory
  have hmade : (withTempDirectory cwd files).view (locate cwd (job.userPath store)) =
      files.view (locate cwd (job.userPath store)) := mkdir_keeps (by simp [hk])
  have hok : (perform cwd none (withTempDirectory cwd files) ⟨job.tempPath, .fopenWrite⟩).1.error =
      none := by
    rw [perform_fopenWrite]
    exact htemp.file
  have hmadesound : (withTempDirectory cwd files).Sound := perform_sound none _ hsound
  obtain ⟨m, c, hopen, hcnode, hempty, hnames⟩ := perform_fopenWrite_ok hmadesound hok
  have h₅ : Comes cwd store job files 5
      (.download (.read (openedOn (some k)) (openedOn (some m))))
      ((withTempDirectory cwd files).set (locate cwd job.tempPath) c) := by
    refine h₄.call (a := opened (some m)) rfl ?_ fun _ => rfl
    rw [hfaults 4]
    exact hopen
  obtain ⟨calls, n, hcomes, hcopied, hframe⟩ := (downloadLoop store job).runs hfaults hne h₅
    (copying_start rfl (hmade ▸ hcontent) hne hcnode hempty hnames) rfl rfl
  have hclosed : Comes cwd store job files (calls + 1) (.download (.closeFile none)) n :=
    hcomes.plain rfl (hfaults _) fun _ => rfl
  have hboth : Comes cwd store job files (calls + 2) (.download .chmod) n :=
    hclosed.plain rfl (hfaults _) fun _ => rfl
  have hchmod : perform cwd (job.faults (calls + 2)) n ⟨job.tempPath, .chmod⟩ =
      (chmod cwd n job.tempPath, n) := by
    rw [hfaults]
    rfl
  refine ⟨calls + 3, n, (chmod cwd n job.tempPath).bytes, ?_, hcopied, ?_⟩
  · apply hboth.call rfl hchmod
    intro errno
    simp only [fileResume, downloadResume, if_neg (Nat.not_le.mpr hlength),
      if_neg (job.not_high store)]
  · intro l hl
    rw [hframe l hl, view_set, if_neg hl]

end Whole

end FileServer
