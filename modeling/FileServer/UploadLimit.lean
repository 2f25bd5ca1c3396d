import FileServer.FsUpload
import FileServer.Workshop

/-!
# The length of stored files (worker.c, fs.c)

The worker compares the size that the command declares with 10 MiB and passes it on
to `fs_upload`, which ignores it and copies its source to the end. What is stored is
as long as the source, so the limit is kept as long as no upload reads from a longer
file.

Workers go on as before; between their steps other programs may change any file that
no upload has stored.
-/

namespace FileServer

open LexicalPath Interleaving Runs
set_option autoImplicit false

universe u
variable {ι : Type u}

def uploadLimit : Nat := 10 * 1024 * 1024

/-- The workers, and the users and destinations of all uploads that have opened
their destination. -/
structure Site (ι : Type u) where
  shop : Workshop ι Files
  stored : List (CString × Location)

inductive SiteLabel (ι : Type u) where
  | work (l : WorkLabel ι)
  | outside (files : Files)

section System
variable [DecidableEq ι] (cwd : List CString)

/-- What a step of the workers adds to the stored files. -/
def Workshop.opens (s : Workshop ι Files) : WorkLabel ι → List (CString × Location)
  | .take _ _ => []
  | .move w _ =>
    match s.worker w with
    | .filing store ⟨job, calls, _, .upload (.openOut _)⟩ =>
      if (perform cwd (job.faults calls) s.files ⟨job.userPath store, .fopenWrite⟩).1.error = none
      then [(job.task.username, locate cwd (job.userPath store))]
      else []
    | _ => []

def siteStep (s : Site ι) : SiteLabel ι → Option (Site ι)
  | .work l => (workStep (filesDisk cwd) s.shop l).map fun shop => ⟨shop, s.shop.opens cwd l ++ s.stored⟩
  | .outside files => some ⟨{ s.shop with files }, s.stored⟩

def siteStart (store : UserStore) (files : Files) : Site ι := ⟨workStart store files, []⟩

/-- Other programs leave the stored files alone. -/
def Undisturbed (s : Site ι) : SiteLabel ι → Prop
  | .work _ => True
  | .outside files => ∀ file ∈ s.stored, files.view file.2 = s.shop.files.view file.2

/-- Uploads read from files within the limit, and no download writes where an upload
has stored a file. -/
def SourcesWithin (s : Site ι) : SiteLabel ι → Prop
  | .work (.take _ _) => True
  | .work (.move w _) =>
    match s.shop.worker w with
    | .filing _ ⟨job, _, _, .upload (.read i _)⟩ =>
      ∀ k source, i.inode = some k →
        (s.shop.files.view (locate cwd job.task.tmpfile)).inodes[k]? = some source →
        source.length ≤ uploadLimit
    | .filing _ ⟨job, _, _, .download (.write _ _ _)⟩ =>
      ∀ file ∈ s.stored, locate cwd job.tempPath ≠ file.2
    | _ => True
  | .outside _ => True

end System

/-- No file stored for a user with a priority below HIGH is longer than the limit. -/
def WithinLimit (s : Site ι) : Prop :=
  ∀ user l, (user, l) ∈ s.stored → ∀ works u, userStoreLockUser works s.shop.store user = some u →
    u.priority.rank < TaskPriority.high.rank → ∀ content, s.shop.files.contentAt l = some content →
      content.length ≤ uploadLimit

/-- An upload has not gone past the limit in its source, nor in its destination past
what it has read. -/
def UploadStage.Within : UploadStage → Prop
  | .openOut i => i.offset ≤ uploadLimit
  | .read i o => o.offset ≤ i.offset ∧ i.offset ≤ uploadLimit
  | .encode i o block | .write i o block =>
    o.offset + block.length ≤ i.offset ∧ i.offset ≤ uploadLimit
  | _ => True

def WorkerStage.Within : WorkerStage → Prop
  | .filing _ ⟨_, _, _, .upload stage⟩ => stage.Within
  | _ => True

def ShortAt (files : Files) (l : Location) : Prop :=
  ∀ content, files.contentAt l = some content → content.length ≤ uploadLimit

structure SiteWithin (s : Site ι) : Prop where
  files : ∀ file ∈ s.stored, ShortAt s.shop.files file.2
  stages : ∀ w, (s.shop.worker w).Within

section Calls
variable {cwd : List CString} {files : Files} {path : CString} {fault : Option Fault} {l : Location}
  {r : Request}

theorem length_writeAt_le {old block : List Byte} {offset n : Nat} (hold : old.length ≤ n)
    (hblock : offset + block.length ≤ n) : (writeAt old offset block).length ≤ n := by
  simp only [writeAt, List.length_append, List.length_take, List.length_replicate, List.length_drop]
  omega

theorem fwrite_cell {o : Handle} {block : List Byte} {c : Cell}
    (h : (fwrite cwd files path fault o block).2 = some c) :
    ∃ k bytes, bytes.length ≤ block.length ∧ c = { files.view (locate cwd path) with
      inodes := (files.view (locate cwd path)).inodes.set k
        (writeAt ((files.view (locate cwd path)).inodes.getD k []) o.offset bytes) } := by
  unfold fwrite at h
  split at h
  · contradiction
  · rename_i k hk
    cases fault with
    | none => exact ⟨k, block, Nat.le_refl _, (Option.some.inj h).symm⟩
    | some f =>
      refine ⟨k, _, ?_, (Option.some.inj h).symm⟩
      rw [List.length_take]
      omega

theorem contentAt_set_self {c : Cell} {content : List Byte}
    (h : (files.set l c).contentAt l = some content) :
    l.names ≠ [] ∧ ∃ k, c.node = .file k ∧ c.inodes[k]? = some content := by
  obtain ⟨k, hnode, hcontent⟩ := contentAt_file h
  have hnames := names_ne_nil hnode
  rw [node_set, if_neg hnames, if_pos rfl] at hnode
  rw [view_set, if_pos rfl] at hcontent
  exact ⟨hnames, k, hnode, hcontent⟩

theorem ShortAt.congr {files' : Files} (h : ShortAt files l) (hview : files'.view l = files.view l) :
    ShortAt files' l := by
  intro content hcontent
  rw [contentAt_congr hview] at hcontent
  exact h content hcontent

theorem ShortAt.fwrite {o : Handle} {block : List Byte} (h : ShortAt files (locate cwd path))
    (hblock : o.offset + block.length ≤ uploadLimit) :
    ShortAt (perform cwd fault files ⟨path, .fwrite o block⟩).2 (locate cwd path) := by
  unfold perform
  split
  · exact h
  · rename_i a c hrespond
    have hcell : (FileServer.fwrite cwd files path fault o block).2 = some c := congrArg Prod.snd hrespond
    obtain ⟨k, bytes, hbytes, rfl⟩ := fwrite_cell hcell
    intro content hcontent
    obtain ⟨hnames, k', hnode, hinode⟩ := contentAt_set_self hcontent
    have hfile : files.node (locate cwd path) = .file k' := by
      rw [node_eq_view hnames]
      exact hnode
    have hold : ∀ old, (files.view (locate cwd path)).inodes[k']? = some old →
        old.length ≤ uploadLimit := by
      intro old heq
      apply h old
      rw [Files.contentAt, hfile]
      exact heq
    dsimp only at hinode
    rw [List.getElem?_set] at hinode
    split at hinode
    · rename_i hk
      subst hk
      split at hinode
      · rename_i hlt
        obtain rfl := Option.some.inj hinode
        refine length_writeAt_le ?_ (by omega)
        rw [List.getD_eq_getElem?_getD, List.getElem?_eq_getElem hlt]
        exact hold _ (List.getElem?_eq_getElem hlt)
      · contradiction
    · exact hold content hinode

theorem Changes.fopenWrite_short {c : Cell} (h : Changes files l .fopenWrite c) :
    ShortAt (files.set l c) l := by
  intro content hcontent
  obtain ⟨hnames, k, hnode, hinode⟩ := contentAt_set_self hcontent
  have hempty : content = [] := by
    cases h with
    | create habsent =>
      obtain rfl := Node.file.inj hnode
      simpa using hinode.symm
    | truncate hfile =>
      rw [node_eq_view hnames, hnode] at hfile
      obtain rfl := Node.file.inj hfile
      rw [List.getElem?_set_self'] at hinode
      cases hold : (files.view l).inodes[k]? with
      | none =>
        rw [hold] at hinode
        contradiction
      | some old =>
        rw [hold] at hinode
        exact (Option.some.inj hinode).symm
  rw [hempty]
  exact Nat.zero_le _

theorem fopenWrite_short (h : (perform cwd fault files ⟨path, .fopenWrite⟩).1.error = none) :
    ShortAt (perform cwd fault files ⟨path, .fopenWrite⟩).2 (locate cwd path) := by
  cases fault with
  | some f => contradiction
  | none =>
    rcases fopenWrite_cases cwd files path with ⟨errno, heq⟩ | ⟨hnode, heq⟩ | ⟨k, hnode, heq⟩
    · rw [perform_fopenWrite, heq] at h
      contradiction
    · simp only [perform, respond, heq]
      exact (Changes.create hnode).fopenWrite_short
    · simp only [perform, respond, heq]
      exact (Changes.truncate hnode).fopenWrite_short

theorem ShortAt.perform (h : ShortAt files l)
    (hwrite : locate cwd r.path = l → ∀ o block, r.op = .fwrite o block →
      o.offset + block.length ≤ uploadLimit) :
    ShortAt (perform cwd fault files r).2 l := by
  by_cases hl : l = locate cwd r.path
  · subst hl
    obtain ⟨path, op⟩ := r
    by_cases hop : ∃ o block, op = .fwrite o block
    · obtain ⟨o, block, rfl⟩ := hop
      exact h.fwrite (hwrite rfl o block rfl)
    rcases perform_changes cwd fault files ⟨path, op⟩ with heq | ⟨c, hc, heq⟩
    · rwa [heq]
    rw [heq]
    cases op with
    | fwrite o block => exact absurd ⟨o, block, rfl⟩ hop
    | fopenWrite => exact hc.fopenWrite_short
    | _ =>
      intro content hcontent
      obtain ⟨-, k, hnode, -⟩ := contentAt_set_self hcontent
      cases hc <;> contradiction
  · exact h.congr (perform_view_of_ne hl)

end Calls

section Stages
variable {cwd : List CString} {store : UserStore} {job : FileJob} {files : Files}
  {fault : Option Fault} {errno : CString} {r : Request}

theorem fopenRead_offset {path : CString}
    (h : (perform cwd fault files ⟨path, .fopenRead⟩).1.error = none) :
    (perform cwd fault files ⟨path, .fopenRead⟩).1.handle.offset = 0 := by
  obtain ⟨inode, heq, -⟩ := perform_fopenRead_ok h
  rw [heq]
  rfl

theorem fopenWrite_offset {path : CString}
    (h : (perform cwd fault files ⟨path, .fopenWrite⟩).1.error = none) :
    (perform cwd fault files ⟨path, .fopenWrite⟩).1.handle.offset = 0 := by
  rw [perform_fst] at h ⊢
  cases fault with
  | some f => contradiction
  | none =>
    rcases fopenWrite_cases cwd files path with ⟨errno, heq⟩ | ⟨-, heq⟩ | ⟨k, -, heq⟩
    · simp only [respond, heq] at h
      contradiction
    · simp only [respond, heq]
      rfl
    · simp only [respond, heq]
      rfl

theorem fread_within {path : CString} {i : Handle} {n : Nat}
    (hsource : ∀ k source, i.inode = some k →
      (files.view (locate cwd path)).inodes[k]? = some source → source.length ≤ n)
    (hbytes : (fread cwd files path fault i).bytes ≠ []) :
    (fread cwd files path fault i).handle.offset =
        i.offset + (fread cwd files path fault i).bytes.length ∧
      (fread cwd files path fault i).handle.offset ≤ n := by
  cases hk : i.inode with
  | none => simp [fread, hk] at hbytes
  | some k =>
    cases hsrc : (files.view (locate cwd path)).inodes[k]? with
    | none =>
      cases fault <;> simp [fread, hk, hsrc] at hbytes
    | some source =>
      have hlen := hsource k source hk hsrc
      have hpos := List.length_pos_iff.mpr hbytes
      obtain ⟨hoffset, hrest⟩ : (fread cwd files path fault i).handle.offset = _ ∧ _ :=
        fread_offset hk hsrc
      exact ⟨hoffset, by omega⟩

theorem fwrite_offset {path : CString} {o : Handle} {block : List Byte}
    (h : (perform cwd fault files ⟨path, .fwrite o block⟩).1.error = none) :
    (perform cwd fault files ⟨path, .fwrite o block⟩).1.handle.offset =
      o.offset + block.length := by
  rw [perform_fst] at h ⊢
  cases hk : o.inode with
  | none =>
    simp only [respond, fwrite, hk] at h
    contradiction
  | some k =>
    cases fault with
    | none => simp only [respond, fwrite, hk]
    | some f =>
      simp only [respond, fwrite, hk] at h
      contradiction

theorem leave_within (i : Handle) (failure : Option CString) :
    (uploadResume.leave errno i failure).Within := trivial

theorem uploadResume_within {stage : UploadStage} (hr : uploadRequest store job stage = some r)
    (hread : ∀ i o, stage = .read i o → ∀ k source, i.inode = some k →
      (files.view (locate cwd job.task.tmpfile)).inodes[k]? = some source →
      source.length ≤ uploadLimit)
    (h : stage.Within) : (uploadResume errno (perform cwd fault files r).1 stage).Within := by
  cases stage with
  | openIn =>
    obtain rfl := Option.some.inj hr
    rw [uploadResume]
    split
    · rename_i hok
      rw [UploadStage.Within, fopenRead_offset hok]
      exact Nat.zero_le _
    · trivial
  | openOut i =>
    obtain rfl := Option.some.inj hr
    rw [uploadResume]
    split
    · rename_i hok
      rw [UploadStage.Within, fopenWrite_offset hok]
      exact ⟨Nat.zero_le _, h⟩
    · trivial
  | read i o =>
    obtain rfl := Option.some.inj hr
    rw [perform_fread, uploadResume]
    split
    · exact leave_within _ _
    · rename_i hbytes
      obtain ⟨hoffset, hlimit⟩ := fread_within (hread i o rfl) hbytes
      refine ⟨?_, hlimit⟩
      rw [hoffset]
      exact Nat.add_le_add_right h.1 _
  | encode i o block =>
    rw [uploadResume]
    split
    · exact h
    · exact leave_within _ _
  | write i o block =>
    obtain rfl := Option.some.inj hr
    rw [uploadResume]
    split
    · rename_i hok
      refine ⟨?_, h.2⟩
      rw [fwrite_offset hok, length_encodeData]
      exact h.1
    · trivial
  | testTmpfile =>
    rw [uploadResume]
    split <;> trivial
  | mkdir =>
    rw [uploadResume]
    split <;> trivial
  | closeOut failure =>
    cases failure with
    | some err => trivial
    | none =>
      rw [uploadResume]
      split <;> trivial
  | done opens result => contradiction
  | _ => trivial

theorem firstStage_within (store : UserStore) (job : FileJob) :
    (WorkerStage.filing store (.start store job)).Within := by
  unfold FileProcess.start firstStage
  split
  · trivial
  · split <;> trivial
  all_goals trivial

end Stages

section Steps
variable {cwd : List CString} {s s' : Site ι}

theorem opens_eq_nil {w : ι} {entries : List CString}
    (h : ∀ store p, s.shop.worker w ≠ .filing store p) :
    s.shop.opens cwd (.move w entries) = [] := by
  unfold Workshop.opens
  dsimp only
  split
  · rename_i hworker
    exact absurd hworker (h _ _)
  · rfl

theorem mem_opens {w : ι} {store : UserStore} {p : FileProcess} {entries : List CString}
    (hworker : s.shop.worker w = .filing store p) {file : CString × Location}
    (h : file ∈ s.shop.opens cwd (.move w entries)) :
    (∃ i, p.stage = .upload (.openOut i)) ∧ file.2 = locate cwd (p.job.userPath store) ∧
      (perform cwd (p.job.faults p.calls) s.shop.files
        ⟨p.job.userPath store, .fopenWrite⟩).1.error = none := by
  obtain ⟨job, calls, errno, stage⟩ := p
  simp only [Workshop.opens, hworker] at h
  split at h
  · rename_i heq
    simp only [WorkerStage.filing.injEq, FileProcess.mk.injEq] at heq
    obtain ⟨rfl, rfl, rfl, -, rfl⟩ := heq
    split at h
    · rename_i hok
      obtain rfl := List.mem_singleton.mp h
      exact ⟨⟨_, rfl⟩, rfl, hok⟩
    · contradiction
  · contradiction

theorem fwrite_stored {w : ι} {store : UserStore} {p : FileProcess} {entries : List CString}
    {r : Request} (h : SiteWithin s) (hworker : s.shop.worker w = .filing store p)
    (hsources : SourcesWithin cwd s (.work (.move w entries)))
    (hr : fileRequest store p.job p.stage = some r) {file : CString × Location}
    (hmem : file ∈ s.stored) (hpath : locate cwd r.path = file.2) (o : Handle) (block : List Byte)
    (hop : r.op = .fwrite o block) : o.offset + block.length ≤ uploadLimit := by
  have hstage := h.stages w
  rw [hworker] at hstage
  obtain ⟨job, calls, errno, stage⟩ := p
  cases stage with
  | upload stage =>
    cases stage with
    | write i o' block' =>
      obtain rfl := Option.some.inj hr
      obtain ⟨rfl, rfl⟩ := Op.fwrite.inj hop
      rw [length_encodeData]
      exact hstage.1.trans hstage.2
    | aborted => contradiction
    | done opens result => contradiction
    | _ =>
      obtain rfl := Option.some.inj hr
      contradiction
  | download stage =>
    cases stage with
    | write i o' block' =>
      obtain rfl := Option.some.inj hr
      simp only [SourcesWithin, hworker] at hsources
      exact absurd hpath (hsources file hmem)
    | aborted => contradiction
    | done result content => contradiction
    | _ =>
      obtain rfl := Option.some.inj hr
      contradiction
  | delete stage =>
    cases stage with
    | remove =>
      obtain rfl := Option.some.inj hr
      contradiction
    | done ok => contradiction

variable [DecidableEq ι]

theorem SiteWithin.step (h : SiteWithin s) {w : ι} {stage : WorkerStage}
    (hworker : s'.shop.worker = Function.update s.shop.worker w stage) (hstage : stage.Within)
    (hfiles : ∀ file ∈ s'.stored, ShortAt s'.shop.files file.2) : SiteWithin s' := by
  refine ⟨hfiles, ?_⟩
  intro v
  rw [hworker, Function.update_apply]
  split
  · exact hstage
  · exact h.stages v

theorem takeTask_within (h : SiteWithin s) (w : ι) (taking : Taking) (task : Task) :
    SiteWithin ⟨takeTask s.shop w taking task, s.stored⟩ := by
  unfold takeTask
  dsimp only
  split
  · exact h.step rfl (firstStage_within _ _) h.files
  · split
    · exact h.step rfl trivial h.files
    · exact h.step rfl trivial h.files
    · exact h.step rfl trivial h.files

theorem filing_within (h : SiteWithin s) {w : ι} {store : UserStore} {p : FileProcess}
    {entries : List CString} {shop : Workshop ι Files} (hworker : s.shop.worker w = .filing store p)
    (hsources : SourcesWithin cwd s (.work (.move w entries)))
    (hstep : workStep (filesDisk cwd) s.shop (.move w entries) = some shop) :
    SiteWithin ⟨shop, s.shop.opens cwd (.move w entries) ++ s.stored⟩ := by
  simp only [workStep, hworker] at hstep
  split at hstep
  · rename_i hdone
    obtain rfl := Option.some.inj hstep
    refine h.step rfl trivial ?_
    intro file hmem
    rcases List.mem_append.mp hmem with hnew | hold
    · obtain ⟨⟨i, hstage⟩, -⟩ := mem_opens hworker hnew
      rw [hstage] at hdone
      contradiction
    · exact h.files file hold
  · rename_i hdone
    obtain ⟨r, hr⟩ := Option.ne_none_iff_exists'.mp (by simpa using hdone)
    obtain rfl := Option.some.inj hstep
    refine h.step rfl ?_ ?_
    · have hstage := h.stages w
      rw [hworker] at hstage
      change (WorkerStage.filing store (fileStep cwd store p s.shop.files).1).Within
      rw [fileStep_eq hr]
      simp only [SourcesWithin, hworker] at hsources
      obtain ⟨job, calls, errno, stage⟩ := p
      cases stage with
      | upload stage =>
        refine uploadResume_within hr ?_ hstage
        rintro i o rfl
        exact hsources
      | download stage => trivial
      | delete stage => trivial
    · intro file hmem
      change ShortAt (fileStep cwd store p s.shop.files).2 file.2
      rw [fileStep_eq hr]
      rcases List.mem_append.mp hmem with hnew | hold
      · obtain ⟨⟨i, hstage⟩, hlocation, hok⟩ := mem_opens hworker hnew
        rw [hstage] at hr
        obtain rfl := Option.some.inj hr
        rw [hlocation]
        exact fopenWrite_short hok
      · exact (h.files file hold).perform (fwrite_stored h hworker hsources hr hold)

theorem siteStep_within {l : SiteLabel ι} (h : SiteWithin s) (hundisturbed : Undisturbed s l)
    (hsources : SourcesWithin cwd s l) (hstep : siteStep cwd s l = some s') : SiteWithin s' := by
  cases l with
  | outside files =>
    obtain rfl := Option.some.inj hstep
    refine ⟨?_, h.stages⟩
    intro file hmem
    exact (h.files file hmem).congr (hundisturbed file hmem)
  | work l =>
    obtain ⟨shop, hshop, rfl⟩ := Option.map_eq_some_iff.mp hstep
    cases l with
    | take w taking =>
      simp only [workStep] at hshop
      split at hshop
      · rename_i task _ hparse
        obtain rfl := Option.some.inj hshop
        exact takeTask_within h w taking task
      · contradiction
    | move w entries =>
      cases hworker : s.shop.worker w with
      | idle => simp [workStep, hworker] at hshop
      | filing store p => exact filing_within h hworker hsources hshop
      | signingUp task works faults =>
        simp only [workStep, hworker] at hshop
        rw [opens_eq_nil (by simp [hworker])]
        split at hshop
        · obtain rfl := Option.some.inj hshop
          exact h.step rfl trivial h.files
        · obtain rfl := Option.some.inj hshop
          exact h.step rfl trivial h.files
      | making task effects faults =>
        simp only [workStep, hworker] at hshop
        obtain rfl := Option.some.inj hshop
        rw [opens_eq_nil (by simp [hworker])]
        refine h.step rfl trivial ?_
        intro file hmem
        refine (h.files file hmem).perform ?_
        intro _ o block hop
        contradiction
      | listing task user works faults =>
        simp only [workStep, hworker] at hshop
        obtain rfl := Option.some.inj hshop
        rw [opens_eq_nil (by simp [hworker])]
        exact h.step rfl trivial h.files

end Steps

/-- The stored files stay within the limit as long as the sources do. -/
theorem stored_within_limit [DecidableEq ι] (cwd : List CString) (store : UserStore) (files : Files)
    (s : Site ι) (h : Reached (siteStep cwd) (fun s l => Undisturbed s l ∧ SourcesWithin cwd s l)
      (siteStart store files) s) : WithinLimit s := by
  have hwithin : SiteWithin s := by
    apply h.invariant
    · exact ⟨fun file hmem => absurd hmem List.not_mem_nil, fun _ => trivial⟩
    · intro s s' l _ hs hl hstep
      exact siteStep_within hs hl.1 hl.2 hstep
  intro user l hmem _ _ _ _
  exact hwithin.files (user, l) hmem

section Examples

def sourcesCheck (cwd : List CString) (s : Site ι) : SiteLabel ι → Bool
  | .work (.take _ _) => true
  | .work (.move w _) =>
    match s.shop.worker w with
    | .filing _ ⟨job, _, _, .upload (.read i _)⟩ =>
      (i.inode.bind fun k => (s.shop.files.view (locate cwd job.task.tmpfile)).inodes[k]?).all
        fun source => source.length ≤ uploadLimit
    | .filing _ ⟨_, _, _, .download (.write _ _ _)⟩ => false
    | _ => true
  | .outside _ => false

theorem sourcesWithin_of_check {cwd : List CString} (s : Site ι) (l : SiteLabel ι)
    (h : sourcesCheck cwd s l = true) : Undisturbed s l ∧ SourcesWithin cwd s l := by
  cases l with
  | outside files => contradiction
  | work l =>
    refine ⟨trivial, ?_⟩
    cases l with
    | take w taking => trivial
    | move w entries =>
      unfold sourcesCheck at h
      unfold SourcesWithin
      dsimp only at h ⊢
      split
      · rename_i store job calls errno i o hworker
        rw [hworker] at h
        intro k source hk hsource
        simpa [hk, hsource] using h
      · rename_i hworker
        rw [hworker] at h
        contradiction
      · trivial

def UploadStage.opened : UploadStage → Bool
  | .read _ _ | .encode _ _ _ | .write _ _ _ | .closeIn _ | .closeOut _ | .remove _
  | .unlinkTmpfile | .done _ (.ok ()) => true
  | _ => false

theorem uploadResume_opened {stage : UploadStage} {errno : CString} {a : CallAnswer}
    (hbefore : stage.opened = false) (hafter : (uploadResume errno a stage).opened = true) :
    ∃ i, stage = .openOut i ∧ a.error = none := by
  cases stage with
  | openOut i =>
    rw [uploadResume] at hafter
    split at hafter
    · exact ⟨i, rfl, by assumption⟩
    · contradiction
  | testTmpfile =>
    rw [uploadResume] at hafter
    split at hafter <;> contradiction
  | mkdir =>
    rw [uploadResume] at hafter
    split at hafter <;> contradiction
  | openIn =>
    rw [uploadResume] at hafter
    split at hafter <;> contradiction
  | closeTest => contradiction
  | abandon text => contradiction
  | done opens result =>
    rw [uploadResume, hbefore] at hafter
    contradiction
  | _ => contradiction

/-- The destination that the process has opened is among the stored files. -/
def Recorded (cwd : List CString) (store : UserStore) (s : Site ι) (p : FileProcess) : Prop :=
  ∀ stage, p.stage = .upload stage → stage.opened = true →
    (p.job.task.username, locate cwd (p.job.userPath store)) ∈ s.stored

theorem recorded_fileStep {cwd : List CString} {store : UserStore} {s s' : Site ι} {w : ι}
    {p : FileProcess} {entries : List CString} (hworker : s.shop.worker w = .filing store p)
    (h : Recorded cwd store s p)
    (hstored : s'.stored = s.shop.opens cwd (.move w entries) ++ s.stored) :
    Recorded cwd store s' (fileStep cwd store p s.shop.files).1 := by
  obtain ⟨job, calls, errno, stage⟩ := p
  intro next hnext hopened
  rw [hstored]
  cases hr : fileRequest store job stage with
  | none =>
    have hsame : fileStep cwd store ⟨job, calls, errno, stage⟩ s.shop.files =
        (⟨job, calls, errno, stage⟩, s.shop.files) := by
      simp only [fileStep, fileCall, hr]
    rw [hsame] at hnext ⊢
    exact List.mem_append_right _ (h next hnext hopened)
  | some r =>
    rw [fileStep_eq hr] at hnext ⊢
    dsimp only at hnext ⊢
    cases stage with
    | download stage => contradiction
    | delete stage => contradiction
    | upload stage =>
      obtain rfl := FileStage.upload.inj hnext
      by_cases hbefore : stage.opened = true
      · exact List.mem_append_right _ (h stage rfl hbefore)
      · obtain ⟨i, rfl, hok⟩ := uploadResume_opened (eq_false_of_ne_true hbefore) hopened
        obtain rfl := Option.some.inj hr
        apply List.mem_append_left
        simp only [Workshop.opens, hworker, if_pos hok]
        exact List.mem_cons_self

theorem reached_of_exec [DecidableEq ι] {cwd : List CString} {store : UserStore} {init s : Site ι} {w : ι}
    {p q : FileProcess} {files : Files}
    (hs : Reached (siteStep cwd) Undisturbed init s) (hworker : s.shop.worker w = .filing store p)
    (hrecorded : Recorded cwd store s p)
    (h : (fileMachine cwd store).Exec p s.shop.files q files) :
    ∃ s', Reached (siteStep cwd) Undisturbed init s' ∧ s'.shop.store = s.shop.store ∧
      s'.shop.worker w = .filing store q ∧ s'.shop.files = files ∧ Recorded cwd store s' q := by
  induction h with
  | refl => exact ⟨s, hs, rfl, hworker, rfl, hrecorded⟩
  | @step q n _ hdone ih =>
    obtain ⟨t, ht, hstore, hq, rfl, hstored⟩ := ih
    have hrunning : ¬ (fileRequest store q.job q.stage).isNone = true := by
      intro hnone
      have hended : (fileMachine cwd store).done q = true := hnone
      rw [hdone] at hended
      contradiction
    have hmove : siteStep cwd t (.work (.move w [])) =
        some ⟨{ t.shop with files := (fileStep cwd store q t.shop.files).2 }.goTo w
          (.filing store (fileStep cwd store q t.shop.files).1),
          t.shop.opens cwd (.move w []) ++ t.stored⟩ := by
      simp only [siteStep, workStep, hq, if_neg hrunning, Option.map_some]
      rfl
    have hallowed : Undisturbed t (.work (.move w [])) := trivial
    refine ⟨_, .next ht hallowed hmove, hstore, Function.update_self _ _ _, rfl, ?_⟩
    exact recorded_fileStep hq hstored rfl

theorem short_upload_within : ∃ s : Site (Fin 1),
    Reached (siteStep [cstr "srv"]) (fun s l => Undisturbed s l ∧ SourcesWithin [cstr "srv"] s l)
      (siteStart emptyStore rootAndTmp) s ∧
    s.stored = [(cstr "alice", locate [] (cstr "srv/storage/alice/x"))] ∧
    s.shop.files.contentAt (locate [] (cstr "srv/storage/alice/x")) = some (codeFile (cstr "s")) ∧
    WithinLimit s := by
  have hview : (execChecked (siteStep [cstr "srv"]) (sourcesCheck [cstr "srv"])
      (siteStart emptyStore rootAndTmp) ((command "SIGNUP alice pw" 2 ++
        command "UPLOAD alice x 1 /tmp/s" 13).map .work)).map
          (fun s => (s.stored, s.shop.files.contentAt (locate [] (cstr "srv/storage/alice/x")))) =
      some ([(cstr "alice", locate [] (cstr "srv/storage/alice/x"))],
        some (codeFile (cstr "s"))) := by
    decide +kernel
  obtain ⟨s, hexec, hs⟩ := Option.map_eq_some_iff.mp hview
  obtain ⟨hstored, hcontent⟩ := Prod.mk.inj hs
  have hreach := Reached.of_execChecked sourcesWithin_of_check .start hexec
  exact ⟨s, hreach, hstored, hcontent, stored_within_limit _ _ _ s hreach⟩

def longSource : List Byte := List.replicate (uploadLimit + 1) 0

def rootAndLongTmp : Files :=
  rootAndTmp.set (locate [] (cstr "tmp/s")) ⟨.file 0, [longSource]⟩

/-- `UPLOAD alice x 1 /tmp/s` stores all of it. -/
theorem long_upload_stored :
    ¬ ∀ (workers : Nat) (cwd : List CString) (store : UserStore) (files : Files)
      (s : Site (Fin workers)),
      Reached (siteStep cwd) Undisturbed (siteStart store files) s → WithinLimit s := by
  intro h
  have hparse : parseCommand ⟨1, 4⟩ ⟨0, 0⟩ (cstr "UPLOAD alice x 1 /tmp/s") =
      .submit (aliceUpload "/tmp/s").task.toTask := by
    decide +kernel
  have hsource : rootAndLongTmp.contentAt (locate [cstr "srv"] (aliceUpload "/tmp/s").task.tmpfile) =
      some longSource := by
    have hplace : locate [cstr "srv"] (aliceUpload "/tmp/s").task.tmpfile =
        locate [] (cstr "tmp/s") := by decide +kernel
    have hnames : (locate [] (cstr "tmp/s")).names ≠ [] := by decide +kernel
    rw [hplace, Files.contentAt, rootAndLongTmp, node_set, if_neg hnames, if_pos rfl, view_set,
      if_pos rfl]
    rfl
  have hopens : UploadOpens [cstr "srv"] aliceAndBob (aliceUpload "/tmp/s") rootAndLongTmp :=
    ⟨by decide +kernel, by decide, by decide +kernel, by decide +kernel, by decide +kernel⟩
  have hsound : rootAndLongTmp.Sound := sound_of_entries (by decide +kernel)
  have hne : locate [cstr "srv"] (aliceUpload "/tmp/s").task.tmpfile ≠
      locate [cstr "srv"] ((aliceUpload "/tmp/s").userPath aliceAndBob) := by decide +kernel
  have htake : siteStep [cstr "srv"] (siteStart aliceAndBob rootAndLongTmp)
      (.work (.take (0 : Fin 1) (sendLine "UPLOAD alice x 1 /tmp/s"))) =
      some ⟨(workStart aliceAndBob rootAndLongTmp).goTo 0
        (.filing aliceAndBob (.start aliceAndBob (aliceUpload "/tmp/s"))), []⟩ := by
    have hline : parseCommand (sendLine "UPLOAD alice x 1 /tmp/s").client
        (sendLine "UPLOAD alice x 1 /tmp/s").created (sendLine "UPLOAD alice x 1 /tmp/s").line =
        .submit (aliceUpload "/tmp/s").task.toTask := hparse
    have hidle : (workStart aliceAndBob rootAndLongTmp : Workshop (Fin 1) Files).worker 0 = .idle := rfl
    simp only [siteStep, siteStart, workStep, hidle, hline, Option.map_some]
    rfl
  have hlock : ∃ u, userStoreLockUser true aliceAndBob (aliceUpload "/tmp/s").task.username =
      some u ∧ u.priority.rank < TaskPriority.high.rank := by
    have hsome : (userStoreLockUser true aliceAndBob
        (aliceUpload "/tmp/s").task.username).isSome = true := by decide +kernel
    obtain ⟨u, hu⟩ := Option.isSome_iff_exists.mp hsome
    refine ⟨u, hu, ?_⟩
    rw [lockUser_priority hu]
    decide
  have hfaults : ∀ n, (aliceUpload "/tmp/s").faults n = none := fun _ => rfl
  have htype : (aliceUpload "/tmp/s").task.type = .upload := rfl
  generalize aliceUpload "/tmp/s" = job at *
  obtain ⟨calls, n, ⟨errno, hexec⟩, hstored, -⟩ :=
    upload_run htype hfaults hsound hopens hsource hne
  have hrecorded : Recorded [cstr "srv"] aliceAndBob
      (⟨(workStart aliceAndBob rootAndLongTmp).goTo 0
        (.filing aliceAndBob (.start aliceAndBob job)), []⟩ : Site (Fin 1))
      (.start aliceAndBob job) := by
    intro stage hstage hopened
    have hfirst : (FileProcess.start aliceAndBob job).stage = .upload .testTmpfile := by
      rw [FileProcess.start, firstStage_upload htype, if_pos ⟨hopens.user, hopens.size⟩]
    rw [hfirst] at hstage
    obtain rfl := FileStage.upload.inj hstage
    contradiction
  have hallowed : Undisturbed (siteStart aliceAndBob rootAndLongTmp)
    (.work (.take (0 : Fin 1) (sendLine "UPLOAD alice x 1 /tmp/s"))) := trivial
  obtain ⟨s, hreach, hstore, -, hfiles, hdone⟩ := reached_of_exec (.next .start hallowed htake)
    (Function.update_self _ _ _) hrecorded hexec
  have hmem := hdone _ rfl rfl
  obtain ⟨u, hu, hrank⟩ := hlock
  have hlength := h 1 _ _ _ s hreach _ _ hmem true u (hstore ▸ hu) hrank _ (hfiles ▸ hstored)
  rw [length_codeFile, longSource, List.length_replicate] at hlength
  omega

end Examples

end FileServer
