import FileServer.FileRuns

/-!
# The directories that a file task makes and removes (worker.c, fs.c)

`remove` takes an empty directory away like a file, so a file task may take away a directory
at the one path that it removes, and it makes one directory at most: an upload that of its
user, a download that for temporary files. Every other directory stays one, and nothing else
becomes one.
-/

namespace FileServer

open LexicalPath
set_option autoImplicit false

section Places
variable (cwd : List CString) (store : UserStore) (job : FileJob)

def FileJob.clears : Location :=
  if job.task.type = .download then locate cwd job.tempPath else locate cwd (job.userPath store)

/-- Where the task calls `mkdir`, if it has a user. -/
def FileJob.makes : Option Location :=
  if (job.user store).isSome then
    match job.task.type with
    | .upload => some (locate cwd (userDirectory store job.task.username))
    | .download => some (locate cwd tempDir)
    | _ => none
  else none

/-- What the task leaves of the directories. -/
structure DirsKept (files mem : Files) : Prop where
  dirs : ∀ l, l ≠ job.clears cwd store → files.node l = .dir → mem.node l = .dir
  others : ∀ l, job.makes cwd store ≠ some l → files.node l ≠ .dir → mem.node l ≠ .dir

end Places

/-- The stage belongs to the branch of the type, and only a task with a user makes calls. -/
structure FileStage.Of (store : UserStore) (job : FileJob) (stage : FileStage) : Prop where
  branch :
    match stage with
    | .upload _ => job.task.type = .upload
    | .download _ => job.task.type = .download
    | .delete _ => job.task.type ≠ .upload ∧ job.task.type ≠ .download
  calls : fileRequest store job stage ≠ none → (job.user store).isSome = true

section Steps
variable {cwd : List CString} {store : UserStore} {job : FileJob} {files mem : Files} {p : FileProcess}
variable {r : Request} {fault : Option Fault} {l : Location} {stage : FileStage}

theorem firstStage_of : (firstStage store job).Of store job := by
  unfold firstStage
  cases huser : job.user store with
  | none =>
    rcases job.task.isFile with htype | htype | htype
    · rw [htype]
      exact ⟨htype, fun hcalls => absurd rfl hcalls⟩
    · rw [htype]
      exact ⟨htype, fun hcalls => absurd rfl hcalls⟩
    · rw [htype]
      exact ⟨by simp [htype], fun hcalls => absurd rfl hcalls⟩
  | some u =>
    have hsome : (job.user store).isSome = true := by rw [huser]; rfl
    rcases job.task.isFile with htype | htype | htype
    · rw [htype]
      dsimp only
      split
      · exact ⟨htype, fun _ => hsome⟩
      · exact ⟨htype, fun _ => hsome⟩
    · rw [htype]
      exact ⟨htype, fun _ => hsome⟩
    · rw [htype]
      exact ⟨by simp [htype], fun _ => hsome⟩

theorem FileStage.Of.user (h : stage.Of store job) (hr : fileRequest store job stage = some r) :
    (job.user store).isSome = true := by
  apply h.calls
  rw [hr]
  nofun

theorem fileResume_of {errno : CString} {a : CallAnswer} (h : stage.Of store job)
    (hr : fileRequest store job stage = some r) : (fileResume store job errno a stage).Of store job := by
  refine ⟨?_, fun _ => h.user hr⟩
  cases stage with
  | upload s => exact h.branch
  | download s => exact h.branch
  | delete s => exact h.branch

theorem fileRequest_paths (cwd : List CString) (h : stage.Of store job)
    (hr : fileRequest store job stage = some r) :
    (r.op = .remove → locate cwd r.path = job.clears cwd store) ∧
      (r.op = .mkdir → job.makes cwd store = some (locate cwd r.path)) := by
  unfold FileJob.clears FileJob.makes
  rw [if_pos (h.user hr)]
  have hbranch := h.branch
  cases stage with
  | upload s =>
    rw [show job.task.type = .upload from hbranch]
    cases s with
    | aborted => contradiction
    | done opens result => contradiction
    | _ =>
      obtain rfl := Option.some.inj hr
      simp
  | download s =>
    rw [show job.task.type = .download from hbranch]
    cases s with
    | aborted => contradiction
    | done result content => contradiction
    | _ =>
      obtain rfl := Option.some.inj hr
      simp
  | delete s =>
    rw [if_neg hbranch.2]
    cases s with
    | done ok => contradiction
    | remove =>
      obtain rfl := Option.some.inj hr
      simp

theorem perform_not_dir (h : files.node l ≠ .dir) (hmkdir : r.op = .mkdir → locate cwd r.path ≠ l) :
    (perform cwd fault files r).2.node l ≠ .dir := by
  have hnames : l.names ≠ [] := by
    intro hnil
    exact h (if_pos hnil)
  rcases perform_changes cwd fault files r with heq | ⟨c, hc, heq⟩
  · rwa [heq]
  · rw [heq, node_set, if_neg hnames]
    split
    · rename_i hl
      subst hl
      rw [node_eq_view hnames] at h
      cases hop : r.op with
      | mkdir => exact absurd rfl (hmkdir hop)
      | _ =>
        rw [hop] at hc
        cases hc
        all_goals simp_all
    · exact h

theorem DirsKept.perform (hkept : DirsKept cwd store job files mem) (hstage : stage.Of store job)
    (hr : fileRequest store job stage = some r) :
    DirsKept cwd store job files (perform cwd fault mem r).2 := by
  obtain ⟨hremove, hmkdir⟩ := fileRequest_paths cwd hstage hr
  refine ⟨?_, ?_⟩
  · intro l hl hdir
    apply perform_dir (hkept.dirs l hl hdir)
    intro hop heq
    exact hl (heq.symm.trans (hremove hop))
  · intro l hl hno
    apply perform_not_dir (hkept.others l hl hno)
    intro hop heq
    exact hl (heq ▸ hmkdir hop)

theorem exec_dirsKept (h : (fileMachine cwd store).Exec (.start store job) files p mem) :
    DirsKept cwd store job files mem := by
  have hmain : (p.job = job ∧ p.stage.Of store job) ∧ DirsKept cwd store job files mem := by
    refine exec_invariant (I := fun p mem => (p.job = job ∧ p.stage.Of store job) ∧
      DirsKept cwd store job files mem) h ?_ ?_
    · exact ⟨⟨rfl, firstStage_of⟩, fun l _ hdir => hdir, fun l _ hno => hno⟩
    · rintro q n r errno - ⟨⟨hjob, hstage⟩, hkept⟩ hr
      rw [hjob] at hr ⊢
      exact ⟨⟨rfl, fileResume_of hstage hr⟩, hkept.perform hstage hr⟩
  exact hmain.2

end Steps

end FileServer
