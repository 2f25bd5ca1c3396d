import FileServer.TaskDirectories

/-!
# What a file task changes and what it can notice (worker.c, fs.c)

A file task changes the file of its key, its source or its temporary file, and the directory
that it makes. Its answers depend on the directories that its paths pass and on the files that
they lead to, and not on the other files in these directories.
-/

namespace FileServer

open LexicalPath Interleaving
set_option autoImplicit false

section Paths
variable (cwd : List CString) (store : UserStore)

/-- The file of the task next to that of its key. -/
def FileJob.scratch (job : FileJob) : Option CString :=
  match job.task.type with
  | .upload => some job.task.tmpfile
  | .download => some job.tempPath
  | _ => none

def FileJob.writes (job : FileJob) : List CString :=
  (if job.task.type = .download then [] else [job.userPath store]) ++ job.scratch.toList

def FileProcess.removes (p : FileProcess) : CString :=
  match p.stage with
  | .download _ => p.job.tempPath
  | .upload _ | .delete _ => p.job.userPath store

/-- What the answers to the task depend on. -/
def FileProcess.sees (p : FileProcess) : Set Location :=
  {l | (∃ path ∈ p.paths store, l ∈ route (origin cwd path) (components path)) ∨
    isChild (locate cwd (p.removes store)) l}

end Paths

section Locality
variable {cwd : List CString} {store : UserStore} {files files' mem : Files} {p : FileProcess}
variable {r : Request} {fault : Option Fault} {job : FileJob}

theorem respond_congr_route (fault : Option Fault)
    (hroute : ∀ l ∈ route (origin cwd r.path) (components r.path), files.view l = files'.view l)
    (hentries : r.op = .remove → ∀ l, isChild (locate cwd r.path) l → files.view l = files'.view l) :
    respond cwd fault files r = respond cwd fault files' r := by
  have hview := hroute _ (follow_mem_route _ _)
  have hnode := node_congr hview
  have hbarred := barred_congr hroute
  have htrim := barred_congr fun l hl => hroute l (route_trimSlashes _ _ hl)
  have hcontent := contentAt_congr hview
  obtain ⟨path, op⟩ := r
  have hlocate : (origin cwd path).follow (components path) = locate cwd path := rfl
  dsimp only at hview hnode hbarred htrim hcontent
  rw [hlocate] at hview hnode hcontent
  cases op with
  | remove =>
    have hempty := isEmpty_congr (hentries rfl)
    cases fault <;> simp only [respond, remove, removed, hview, hnode, hbarred, hempty]
  | _ =>
    cases fault <;>
      simp only [respond, fread, fwrite, fopenRead, fopenWrite, mkdir, unlink, chmod, removed, hview,
        hnode, hbarred, htrim, hcontent]

theorem fileRequest_sees (cwd : List CString) (hr : fileRequest store p.job p.stage = some r) :
    (∀ l ∈ route (origin cwd r.path) (components r.path), l ∈ p.sees cwd store) ∧
      (r.op = .remove → ∀ l, isChild (locate cwd r.path) l → l ∈ p.sees cwd store) := by
  refine ⟨fun l hl => Or.inl ⟨r.path, fileRequest_path hr, hl⟩, ?_⟩
  intro hop l hl
  refine Or.inr ?_
  have hremoves : r.path = p.removes store := by
    unfold FileProcess.removes
    generalize p.stage = stage at hr
    cases stage with
    | upload s => cases s <;> cases hr <;> first | rfl | cases hop
    | download s => cases s <;> cases hr <;> first | rfl | cases hop
    | delete s =>
      cases s <;> cases hr
      rfl
  rwa [← hremoves]

theorem sees_fileStep (files : Files) :
    (fileStep cwd store p files).1.sees cwd store = p.sees cwd store := by
  unfold fileStep fileCall
  split
  · rfl
  · unfold FileProcess.sees FileProcess.paths FileProcess.removes
    dsimp only
    cases p.stage <;> rfl

theorem fileStep_sees_frame (files : Files) {l : Location} (h : l ∉ p.sees cwd store) :
    (fileStep cwd store p files).2.view l = files.view l := by
  unfold fileStep fileCall
  split
  · rfl
  · rename_i r hr
    apply perform_view_of_ne
    rintro rfl
    exact h ((fileRequest_sees cwd hr).1 _ (follow_mem_route _ _))

theorem fileStep_sees_congr (h : ∀ l ∈ p.sees cwd store, files.view l = files'.view l) :
    (fileStep cwd store p files).1 = (fileStep cwd store p files').1 ∧
      ∀ l ∈ p.sees cwd store,
        (fileStep cwd store p files).2.view l = (fileStep cwd store p files').2.view l := by
  unfold fileStep fileCall
  split
  · exact ⟨rfl, h⟩
  · rename_i r hr
    obtain ⟨hroute, hentries⟩ := fileRequest_sees cwd hr
    have hsame := respond_congr_route (p.job.faults p.calls) (fun l hl => h l (hroute l hl))
      fun hop l hl => h l (hentries hop l hl)
    unfold perform
    rw [hsame]
    split
    · exact ⟨rfl, h⟩
    · refine ⟨rfl, fun l hl => ?_⟩
      rw [view_set, view_set, h l hl]

/-- The workers, known to notice no more than they see. -/
def seeingMachine (cwd : List CString) (store : UserStore) :
    Machine Files Location Cell FileProcess :=
  (fileMachine cwd store).narrow (FileProcess.sees cwd store) (fun _ files => sees_fileStep files)
    (fun _ files _ h => fileStep_sees_frame files h) fun _ _ _ h => fileStep_sees_congr h

end Locality

section Changes
variable {cwd : List CString} {store : UserStore} {job : FileJob} {files mem : Files} {p : FileProcess}
variable {r : Request} {fault : Option Fault} {l : Location} {stage : FileStage}

theorem fileRequest_writes (h : stage.Of store job) (hr : fileRequest store job stage = some r) :
    r.path ∈ job.writes store ∨ r.op = .mkdir ∨ r.op = .fopenRead ∨ r.op = .plain ∨
      ∃ i, r.op = .fread i := by
  have hbranch := h.branch
  unfold FileJob.writes FileJob.scratch
  cases stage with
  | upload s =>
    rw [show job.task.type = .upload from hbranch]
    cases s <;> cases hr <;> simp
  | download s =>
    rw [show job.task.type = .download from hbranch]
    cases s <;> cases hr <;> simp
  | delete s =>
    rw [if_neg hbranch.2]
    cases s <;> cases hr
    simp

theorem perform_writes (h : stage.Of store job) (hr : fileRequest store job stage = some r)
    (hview : (perform cwd fault mem r).2.view l ≠ mem.view l) :
    (∃ path ∈ job.writes store, l = locate cwd path) ∨
      (job.makes cwd store = some l ∧ mem.node l ≠ .dir) := by
  have hl : l = locate cwd r.path := by
    by_contra hne
    exact hview (perform_view_of_ne hne)
  rcases fileRequest_writes h hr with hwrites | hop
  · exact Or.inl ⟨r.path, hwrites, hl⟩
  · rcases perform_changes cwd fault mem r with heq | ⟨c, hc, -⟩
    · rw [heq] at hview
      exact absurd rfl hview
    · rcases hop with hop | hop | hop | ⟨i, hop⟩
      · refine Or.inr ⟨hl ▸ (fileRequest_paths cwd h hr).2 hop, ?_⟩
        rw [hop] at hc
        cases hc with
        | mkdir habsent => simp [hl, habsent]
      · rw [hop] at hc
        cases hc
      · rw [hop] at hc
        cases hc
      · rw [hop] at hc
        cases hc

theorem DirsKept.same (h : DirsKept cwd store job files mem)
    (hclears : files.node (job.clears cwd store) ≠ .dir)
    (hmakes : ∀ l, job.makes cwd store = some l → files.node l = .dir) (l : Location) :
    mem.node l = .dir ↔ files.node l = .dir := by
  constructor
  · intro hdir
    by_contra hno
    apply h.others l ?_ hno hdir
    intro hmake
    exact hno (hmakes l hmake)
  · intro hdir
    apply h.dirs l ?_ hdir
    rintro rfl
    exact hclears hdir

end Changes

end FileServer
