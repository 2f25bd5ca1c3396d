import FileServer.LinkFree
import FileServer.Workshop

/-!
# Workers on a tree without links

A worker keeps handles on the files it has opened, and the tree may call these files by
other numbers than `FileSystem` does. Apart from that every step of every worker is the
same on both, so that all commands are answered alike.
-/

namespace FileServer

open LexicalPath Runs
set_option autoImplicit false

universe u
variable {ι : Type u}

def UploadStage.renamed (f g : Nat → Nat) : UploadStage → UploadStage
  | .openOut i => .openOut (i.renamed f)
  | .read i o => .read (i.renamed f) (o.renamed g)
  | .encode i o block => .encode (i.renamed f) (o.renamed g) block
  | .write i o block => .write (i.renamed f) (o.renamed g) block
  | stage => stage

def UploadStage.Made (files : Files) (a b : Location) : UploadStage → Prop
  | .openOut i => i.Made files a
  | .read i o | .encode i o _ | .write i o _ => i.Made files a ∧ o.Made files b
  | _ => True

def DownloadStage.renamed (f g : Nat → Nat) : DownloadStage → DownloadStage
  | .seek i => .seek (i.renamed f)
  | .tell i => .tell (i.renamed f)
  | .mkdir i => .mkdir (i.renamed f)
  | .openTemp i => .openTemp (i.renamed f)
  | .read i o => .read (i.renamed f) (o.renamed g)
  | .decode i o block => .decode (i.renamed f) (o.renamed g) block
  | .write i o block => .write (i.renamed f) (o.renamed g) block
  | stage => stage

def DownloadStage.Made (files : Files) (a b : Location) : DownloadStage → Prop
  | .seek i | .tell i | .mkdir i | .openTemp i => i.Made files a
  | .read i o | .decode i o _ | .write i o _ => i.Made files a ∧ o.Made files b
  | _ => True

section Tasks
variable (cwd : List CString) (store : UserStore) (job : FileJob)

/-- A stage with the numbers that the tree has for the files it has opened. -/
def FileStage.renamed (number : Location → Nat → Nat) : FileStage → FileStage
  | .upload s => .upload (s.renamed (number (locate cwd job.task.tmpfile))
      (number (locate cwd (job.userPath store))))
  | .download s => .download (s.renamed (number (locate cwd (job.userPath store)))
      (number (locate cwd job.tempPath)))
  | .delete s => .delete s

/-- The files that a stage has opened were made at the locations its paths lead to. -/
def FileStage.Made (files : Files) : FileStage → Prop
  | .upload s => s.Made files (locate cwd job.task.tmpfile) (locate cwd (job.userPath store))
  | .download s => s.Made files (locate cwd (job.userPath store)) (locate cwd job.tempPath)
  | .delete _ => True

def FileProcess.renamed (number : Location → Nat → Nat) (p : FileProcess) : FileProcess :=
  { p with stage := p.stage.renamed cwd store p.job number }

variable {cwd store job} {number number' : Location → Nat → Nat} {files files' : Files} {t : Tree}
  {stage : FileStage} {r : Request} {a : CallAnswer} {errno : CString}

theorem fileRequest_renamed (stage : FileStage) :
    fileRequest store job (stage.renamed cwd store job number) =
      (fileRequest store job stage).map (Request.renamed cwd number) := by
  cases stage with
  | upload s => cases s <;> rfl
  | download s => cases s <;> rfl
  | delete s => cases s <;> rfl

theorem fileRequest_made (hr : fileRequest store job stage = some r)
    (h : stage.Made cwd store job files) : r.op.Made files (locate cwd r.path) := by
  cases stage with
  | upload s =>
    cases s with
    | read i o =>
      obtain rfl := Option.some.inj hr
      exact h.1
    | write i o block =>
      obtain rfl := Option.some.inj hr
      exact h.2
    | aborted => contradiction
    | done opens result => contradiction
    | _ =>
      obtain rfl := Option.some.inj hr
      trivial
  | download s =>
    cases s with
    | read i o =>
      obtain rfl := Option.some.inj hr
      exact h.1
    | write i o block =>
      obtain rfl := Option.some.inj hr
      exact h.2
    | aborted => contradiction
    | done result content => contradiction
    | _ =>
      obtain rfl := Option.some.inj hr
      trivial
  | delete s =>
    cases s with
    | remove =>
      obtain rfl := Option.some.inj hr
      trivial
    | done ok => contradiction

theorem uploadResume_renamed {s : UploadStage} (hr : uploadRequest store job s = some r) :
    uploadResume errno (a.renamed (number (locate cwd r.path)))
        (s.renamed (number (locate cwd job.task.tmpfile)) (number (locate cwd (job.userPath store)))) =
      (uploadResume errno a s).renamed (number (locate cwd job.task.tmpfile))
        (number (locate cwd (job.userPath store))) := by
  cases s with
  | aborted => contradiction
  | done opens result => contradiction
  | closeTest => rfl
  | abandon text => rfl
  | closeIn failure => rfl
  | remove err => rfl
  | unlinkTmpfile => rfl
  | closeOut failure =>
    cases failure with
    | some err => rfl
    | none =>
      obtain rfl := Option.some.inj hr
      conv_rhs => rw [uploadResume, apply_ite (UploadStage.renamed _ _)]
      rfl
  | _ =>
    obtain rfl := Option.some.inj hr
    conv_rhs => rw [uploadResume, apply_ite (UploadStage.renamed _ _)]
    rfl

theorem downloadResume_renamed {s : DownloadStage} (hr : downloadRequest store job s = some r) :
    downloadResume store job errno (a.renamed (number (locate cwd r.path)))
        (s.renamed (number (locate cwd (job.userPath store))) (number (locate cwd job.tempPath))) =
      (downloadResume store job errno a s).renamed (number (locate cwd (job.userPath store)))
        (number (locate cwd job.tempPath)) := by
  cases s with
  | aborted => contradiction
  | done result content => contradiction
  | abandon text => rfl
  | remove err => rfl
  | removeLong => rfl
  | unlinkTemp content => rfl
  | closeFile failure => cases failure <;> rfl
  | chmod =>
    obtain rfl := Option.some.inj hr
    conv_rhs => rw [downloadResume, apply_ite (DownloadStage.renamed _ _),
      apply_ite (DownloadStage.renamed _ _)]
    rfl
  | _ =>
    obtain rfl := Option.some.inj hr
    conv_rhs => rw [downloadResume, apply_ite (DownloadStage.renamed _ _)]
    rfl

theorem fileResume_renamed (hr : fileRequest store job stage = some r) :
    fileResume store job errno (a.renamed (number (locate cwd r.path)))
        (stage.renamed cwd store job number) =
      (fileResume store job errno a stage).renamed cwd store job number := by
  cases stage with
  | upload s => exact congrArg FileStage.upload (uploadResume_renamed hr)
  | download s => exact congrArg FileStage.download (downloadResume_renamed hr)
  | delete s => cases s <;> rfl

theorem uploadResume_made {s : UploadStage} (hr : uploadRequest store job s = some r)
    (ha : a.handle.Made files (locate cwd r.path))
    (h : s.Made files (locate cwd job.task.tmpfile) (locate cwd (job.userPath store))) :
    (uploadResume errno a s).Made files (locate cwd job.task.tmpfile)
      (locate cwd (job.userPath store)) := by
  cases s with
  | openIn =>
    obtain rfl := Option.some.inj hr
    rw [uploadResume]
    split
    · exact ha
    · trivial
  | openOut i =>
    obtain rfl := Option.some.inj hr
    rw [uploadResume]
    split
    · exact ⟨h, ha⟩
    · trivial
  | read i o =>
    obtain rfl := Option.some.inj hr
    rw [uploadResume]
    split
    · trivial
    · exact ⟨ha, h.2⟩
  | encode i o block =>
    rw [uploadResume]
    split
    · exact h
    · trivial
  | write i o block =>
    obtain rfl := Option.some.inj hr
    rw [uploadResume]
    split
    · exact ⟨h.1, ha⟩
    · trivial
  | closeOut failure =>
    cases failure with
    | some err => trivial
    | none =>
      rw [uploadResume]
      split <;> trivial
  | testTmpfile =>
    rw [uploadResume]
    split <;> trivial
  | mkdir =>
    rw [uploadResume]
    split <;> trivial
  | aborted => contradiction
  | done opens result => contradiction
  | _ => trivial

theorem downloadResume_made {s : DownloadStage} (hr : downloadRequest store job s = some r)
    (ha : a.handle.Made files (locate cwd r.path))
    (h : s.Made files (locate cwd (job.userPath store)) (locate cwd job.tempPath)) :
    (downloadResume store job errno a s).Made files (locate cwd (job.userPath store))
      (locate cwd job.tempPath) := by
  cases s with
  | openFile =>
    obtain rfl := Option.some.inj hr
    rw [downloadResume]
    split
    · exact ha
    · trivial
  | openTemp i =>
    obtain rfl := Option.some.inj hr
    rw [downloadResume]
    split
    · exact ⟨h, ha⟩
    · trivial
  | read i o =>
    obtain rfl := Option.some.inj hr
    rw [downloadResume]
    split
    · trivial
    · exact ⟨ha, h.2⟩
  | write i o block =>
    obtain rfl := Option.some.inj hr
    rw [downloadResume]
    split
    · exact ⟨h.1, ha⟩
    · trivial
  | closeTemp failure =>
    rw [downloadResume]
    split <;> trivial
  | closeFile failure => cases failure <;> trivial
  | chmod =>
    rw [downloadResume]
    split
    · trivial
    split <;> trivial
  | abandon text => trivial
  | remove err => trivial
  | removeLong => trivial
  | unlinkTemp content => trivial
  | aborted => contradiction
  | done result content => contradiction
  | _ =>
    rw [downloadResume]
    split
    · exact h
    · trivial

theorem fileResume_made (hr : fileRequest store job stage = some r)
    (ha : a.handle.Made files (locate cwd r.path)) (h : stage.Made cwd store job files) :
    (fileResume store job errno a stage).Made cwd store job files := by
  cases stage with
  | upload s => exact uploadResume_made hr ha h
  | download s => exact downloadResume_made hr ha h
  | delete s => trivial

theorem Handle.Made.mono {q : Location} {h : Handle} (hmade : h.Made files q)
    (hgrows : ∀ q, (files.view q).inodes.length ≤ (files'.view q).inodes.length) :
    h.Made files' q := fun k hk => Nat.lt_of_lt_of_le (hmade k hk) (hgrows q)

theorem FileStage.Made.mono (h : stage.Made cwd store job files)
    (hgrows : ∀ q, (files.view q).inodes.length ≤ (files'.view q).inodes.length) :
    stage.Made cwd store job files' := by
  cases stage with
  | upload s =>
    cases s with
    | openOut i => exact Handle.Made.mono h hgrows
    | read i o => exact ⟨Handle.Made.mono h.1 hgrows, Handle.Made.mono h.2 hgrows⟩
    | encode i o block => exact ⟨Handle.Made.mono h.1 hgrows, Handle.Made.mono h.2 hgrows⟩
    | write i o block => exact ⟨Handle.Made.mono h.1 hgrows, Handle.Made.mono h.2 hgrows⟩
    | _ => trivial
  | download s =>
    cases s with
    | seek i => exact Handle.Made.mono h hgrows
    | tell i => exact Handle.Made.mono h hgrows
    | mkdir i => exact Handle.Made.mono h hgrows
    | openTemp i => exact Handle.Made.mono h hgrows
    | read i o => exact ⟨Handle.Made.mono h.1 hgrows, Handle.Made.mono h.2 hgrows⟩
    | decode i o block => exact ⟨Handle.Made.mono h.1 hgrows, Handle.Made.mono h.2 hgrows⟩
    | write i o block => exact ⟨Handle.Made.mono h.1 hgrows, Handle.Made.mono h.2 hgrows⟩
    | _ => trivial
  | delete s => trivial

theorem Handle.renamed_congr {q : Location} {h : Handle} (hmade : h.Made files q)
    (hsame : ∀ q k, k < (files.view q).inodes.length → number' q k = number q k) :
    h.renamed (number' q) = h.renamed (number q) := by
  unfold Handle.renamed
  cases hk : h.inode with
  | none => rfl
  | some k => rw [Option.map_some, Option.map_some, hsame q k (hmade k hk)]

/-- New files get new numbers, and the handles keep theirs. -/
theorem FileStage.renamed_congr (h : stage.Made cwd store job files)
    (hsame : ∀ q k, k < (files.view q).inodes.length → number' q k = number q k) :
    stage.renamed cwd store job number' = stage.renamed cwd store job number := by
  have hone : ∀ {q : Location} {i : Handle}, i.Made files q →
      i.renamed (number' q) = i.renamed (number q) := fun hi => Handle.renamed_congr hi hsame
  cases stage with
  | upload s =>
    cases s with
    | openOut i => simp only [FileStage.renamed, UploadStage.renamed, hone h]
    | read i o => simp only [FileStage.renamed, UploadStage.renamed, hone h.1, hone h.2]
    | encode i o block => simp only [FileStage.renamed, UploadStage.renamed, hone h.1, hone h.2]
    | write i o block => simp only [FileStage.renamed, UploadStage.renamed, hone h.1, hone h.2]
    | _ => rfl
  | download s =>
    cases s with
    | seek i => simp only [FileStage.renamed, DownloadStage.renamed, hone h]
    | tell i => simp only [FileStage.renamed, DownloadStage.renamed, hone h]
    | mkdir i => simp only [FileStage.renamed, DownloadStage.renamed, hone h]
    | openTemp i => simp only [FileStage.renamed, DownloadStage.renamed, hone h]
    | read i o => simp only [FileStage.renamed, DownloadStage.renamed, hone h.1, hone h.2]
    | decode i o block => simp only [FileStage.renamed, DownloadStage.renamed, hone h.1, hone h.2]
    | write i o block => simp only [FileStage.renamed, DownloadStage.renamed, hone h.1, hone h.2]
    | _ => rfl
  | delete s => rfl

theorem FileProcess.responses_renamed (p : FileProcess) :
    (p.renamed cwd store number).responses store = p.responses store := by
  have haborted : (p.renamed cwd store number).stage.aborted = p.stage.aborted := by
    unfold FileProcess.renamed
    cases p.stage with
    | upload s => cases s <;> rfl
    | download s => cases s <;> rfl
    | delete s => rfl
  have hresults : (p.renamed cwd store number).stage.results = p.stage.results := by
    unfold FileProcess.renamed
    cases p.stage with
    | upload s => cases s <;> rfl
    | download s => cases s <;> rfl
    | delete s => rfl
  rw [FileProcess.responses, FileProcess.responses, haborted, hresults]
  rfl

end Tasks

def WorkerStage.renamed (cwd : List CString) (number : Location → Nat → Nat) :
    WorkerStage → WorkerStage
  | .filing store p => .filing store (p.renamed cwd store number)
  | stage => stage

def WorkerStage.Made (cwd : List CString) (files : Files) : WorkerStage → Prop
  | .filing store p => p.stage.Made cwd store p.job files
  | _ => True

section Process
variable {cwd : List CString} {store : UserStore} {number : Location → Nat → Nat} {files : Files}
  {t : Tree}

theorem Mirrors.opendir {path : CString} (h : Mirrors number files t) :
    t.opendir cwd path = FileServer.opendir cwd files path := by
  rw [Tree.opendir, h.target, FileServer.opendir]
  cases hbarred : files.barred (origin cwd path) (components path) with
  | some errno => simp
  | none =>
    dsimp only
    rw [h.entry]
    cases files.node (locate cwd path) <;> simp [Node.entry]

theorem perform_grows (cwd : List CString) (fault : Option Fault) (files : Files) (r : Request)
    (q : Location) :
    (files.view q).inodes.length ≤ ((perform cwd fault files r).2.view q).inodes.length := by
  rcases perform_changes cwd fault files r with heq | ⟨c, hc, heq⟩
  · rw [heq]
  · rw [heq, view_set]
    split
    · rename_i hq
      rw [hq]
      exact hc.inodes_length
    · exact Nat.le_refl _

/-- What a call of a worker does on the tree is what it does on the files, renamed. -/
theorem fileCall_alike {p : FileProcess} (h : Mirrors number files t)
    (hmade : p.stage.Made cwd store p.job files) :
    ∃ number' : Location → Nat → Nat,
      (∀ q k, k < (files.view q).inodes.length → number' q k = number q k) ∧
      Mirrors number' (fileCall (perform cwd) store p files).2
        (fileCall (Tree.perform cwd) store (p.renamed cwd store number) t).2 ∧
      (fileCall (Tree.perform cwd) store (p.renamed cwd store number) t).1 =
        (fileCall (perform cwd) store p files).1.renamed cwd store number' ∧
      (WorkerStage.filing store (fileCall (perform cwd) store p files).1).Made cwd
        (fileCall (perform cwd) store p files).2 ∧
      ∀ q, (files.view q).inodes.length ≤
        ((fileCall (perform cwd) store p files).2.view q).inodes.length := by
  have hrequest : fileRequest store p.job (p.renamed cwd store number).stage =
      (fileRequest store p.job p.stage).map (Request.renamed cwd number) := fileRequest_renamed _
  have hjob : (p.renamed cwd store number).job = p.job := rfl
  have hcalls : (p.renamed cwd store number).calls = p.calls := rfl
  have herrno : (p.renamed cwd store number).errno = p.errno := rfl
  simp only [fileCall, hjob, hrequest, hcalls, herrno]
  cases hr : fileRequest store p.job p.stage with
  | none => exact ⟨number, fun _ _ _ => rfl, h, rfl, hmade, fun _ => Nat.le_refl _⟩
  | some r =>
    obtain ⟨number', hsame, hmirrors, hanswer, hhandle⟩ :=
      perform_alike h cwd (p.job.faults p.calls) r (fileRequest_made hr hmade)
    have hgrows := perform_grows cwd (p.job.faults p.calls) files r
    refine ⟨number', hsame, hmirrors, ?_, fileResume_made hr hhandle (hmade.mono hgrows), hgrows⟩
    dsimp only [Option.map_some]
    rw [hanswer]
    have hstage : (p.renamed cwd store number).stage = p.stage.renamed cwd store p.job number' :=
      (FileStage.renamed_congr hmade hsame).symm
    have hresume : ∀ errno a, fileResume store p.job errno (a.renamed (number' (locate cwd r.path)))
        (p.stage.renamed cwd store p.job number') =
          (fileResume store p.job errno a p.stage).renamed cwd store p.job number' :=
      fun _ _ => fileResume_renamed hr
    rw [hstage, hresume]
    rfl

end Process

/-- Workers at the same stages, with the same answers behind them. -/
structure Matched (cwd : List CString) (number : Location → Nat → Nat) (s : Workshop ι Files)
    (s' : Workshop ι Tree) : Prop where
  store : s'.store = s.store
  answers : s'.answers = s.answers
  files : Mirrors number s.files s'.files
  worker : ∀ w, s'.worker w = (s.worker w).renamed cwd number
  made : ∀ w, (s.worker w).Made cwd s.files

section Workers
variable [DecidableEq ι] {cwd : List CString} {number number' : Location → Nat → Nat}
  {s : Workshop ι Files} {s' : Workshop ι Tree} {store : UserStore} {files : Files} {t : Tree}

theorem firstStage_renamed (store : UserStore) (job : FileJob) :
    (firstStage store job).renamed cwd store job number = firstStage store job ∧
      (firstStage store job).Made cwd store job files := by
  unfold firstStage
  split
  · exact ⟨rfl, trivial⟩
  · split
    · exact ⟨rfl, trivial⟩
    · exact ⟨rfl, trivial⟩
  · exact ⟨rfl, trivial⟩
  · exact ⟨rfl, trivial⟩
  · exact ⟨rfl, trivial⟩
  · exact ⟨rfl, trivial⟩

/-- One worker goes on, and the files change, if at all, by its call. -/
theorem Matched.next (h : Matched cwd number s s') (w : ι) {stage : WorkerStage}
    {x : Workshop ι Files} {x' : Workshop ι Tree}
    (hsame : ∀ q k, k < (s.files.view q).inodes.length → number' q k = number q k)
    (hgrows : ∀ q, (s.files.view q).inodes.length ≤ (x.files.view q).inodes.length)
    (hstore : x'.store = x.store) (hanswers : x'.answers = x.answers)
    (hfiles : Mirrors number' x.files x'.files)
    (hworker : x.worker = Function.update s.worker w stage)
    (hworker' : x'.worker = Function.update s'.worker w (stage.renamed cwd number'))
    (hmade : stage.Made cwd x.files) : Matched cwd number' x x' := by
  refine ⟨hstore, hanswers, hfiles, ?_, ?_⟩
  · intro v
    rw [hworker, hworker', Function.update_apply, Function.update_apply]
    split
    · rfl
    · rw [h.worker v]
      have hold := h.made v
      cases hv : s.worker v with
      | filing store p =>
        rw [hv] at hold
        simp only [WorkerStage.renamed, FileProcess.renamed, FileStage.renamed_congr hold hsame]
      | _ => rfl
  · intro v
    rw [hworker, Function.update_apply]
    split
    · exact hmade
    · have hold := h.made v
      cases hv : s.worker v with
      | filing store p =>
        rw [hv] at hold
        exact FileStage.Made.mono hold hgrows
      | _ => trivial

/-- A step that leaves the files alone. -/
theorem Matched.quiet (h : Matched cwd number s s') (w : ι) {stage : WorkerStage}
    {x : Workshop ι Files} {x' : Workshop ι Tree} (hstore : x'.store = x.store)
    (hanswers : x'.answers = x.answers) (hfiles : x.files = s.files) (hfiles' : x'.files = s'.files)
    (hworker : x.worker = Function.update s.worker w stage)
    (hworker' : x'.worker = Function.update s'.worker w stage)
    (hplain : stage.renamed cwd number = stage) (hmade : stage.Made cwd s.files) :
    Matched cwd number x x' := by
  refine h.next w (fun _ _ _ => rfl) ?_ hstore hanswers ?_ hworker ?_ ?_
  · intro q
    rw [hfiles]
  · rw [hfiles, hfiles']
    exact h.files
  · rw [hplain]
    exact hworker'
  · rwa [hfiles]

theorem takeTask_alike (h : Matched cwd number s s') (w : ι) (taking : Taking) (task : Task) :
    Matched cwd number (takeTask s w taking task) (takeTask s' w taking task) := by
  unfold takeTask
  rw [h.store]
  dsimp only
  split
  · rename_i hfile
    have hfirst : ∀ job, (firstStage s.store job).renamed cwd s.store job number =
          firstStage s.store job ∧ (firstStage s.store job).Made cwd s.store job s.files :=
      firstStage_renamed s.store
    refine h.quiet w h.store h.answers rfl rfl rfl rfl ?_ (hfirst _).2
    simp only [WorkerStage.renamed, FileProcess.renamed, FileProcess.start, (hfirst _).1]
  · split
    · exact h.quiet w h.store h.answers rfl rfl rfl rfl rfl trivial
    · exact h.quiet w h.store h.answers rfl rfl rfl rfl rfl trivial
    · refine h.quiet w h.store ?_ rfl rfl rfl rfl rfl trivial
      simp only [Workshop.answer, h.answers]

theorem workStep_alike (l : WorkLabel ι) (h : ∃ number, Matched cwd number s s') :
    Option.Rel (fun x x' => ∃ number, Matched cwd number x x') (workStep (filesDisk cwd) s l)
      (workStep (treeDisk cwd) s' l) := by
  obtain ⟨number, h⟩ := h
  cases l with
  | take w taking =>
    simp only [workStep, h.worker w]
    cases hw : s.worker w with
    | idle =>
      simp only [WorkerStage.renamed]
      cases parseCommand taking.client taking.created taking.line with
      | submit task => exact .some ⟨number, takeTask_alike h w taking task⟩
      | _ => exact .none
    | _ => exact .none
  | move w entries =>
    have hmade := h.made w
    simp only [workStep, h.worker w]
    cases hw : s.worker w with
    | idle => exact .none
    | signingUp task works faults =>
      simp only [WorkerStage.renamed, h.store]
      split
      · exact .some ⟨number, h.quiet w rfl h.answers rfl rfl rfl rfl rfl trivial⟩
      · refine .some ⟨number, h.quiet w h.store ?_ rfl rfl rfl rfl rfl trivial⟩
        simp only [Workshop.answer, h.answers]
    | making task effects faults =>
      simp only [WorkerStage.renamed, h.store]
      obtain ⟨number', hsame, hmirrors, -, -⟩ := perform_alike h.files cwd (faults 0)
        ⟨userDirectory s.store task.username, .mkdir⟩ trivial
      refine .some ⟨number', h.next w hsame (perform_grows cwd (faults 0) s.files _) rfl ?_
        hmirrors rfl rfl trivial⟩
      simp only [Workshop.answer, h.answers]
    | filing store p =>
      rw [hw] at hmade
      have hrequest : fileRequest store p.job (p.renamed cwd store number).stage =
          (fileRequest store p.job p.stage).map (Request.renamed cwd number) := fileRequest_renamed _
      have hjob : (p.renamed cwd store number).job = p.job := rfl
      simp only [WorkerStage.renamed, hjob, hrequest, Option.isNone_map]
      split
      · refine .some ⟨number, h.quiet w h.store ?_ rfl rfl rfl rfl rfl trivial⟩
        simp only [Workshop.answer, h.answers, FileProcess.responses_renamed]
      · obtain ⟨number', hsame, hmirrors, hstage, hnext, hgrows⟩ := fileCall_alike h.files hmade
        refine .some ⟨number', h.next w hsame hgrows h.store h.answers hmirrors rfl ?_ ?_⟩
        · exact congrArg (fun q => Function.update s'.worker w (WorkerStage.filing store q)) hstage
        · exact hnext
    | listing task user works faults =>
      simp only [WorkerStage.renamed, treeDisk, filesDisk, h.store, h.files.opendir]
      refine .some ⟨number, h.quiet w h.store ?_ rfl rfl rfl rfl rfl trivial⟩
      simp only [Workshop.answer, h.answers]

/-- Workers on files and on a tree that mirrors them can take the same steps, and give the
same answers. -/
theorem exec_alike (h : ∃ number, Matched cwd number s s') (ls : List (WorkLabel ι)) :
    Option.Rel (fun x x' => ∃ number, Matched cwd number x x') (exec (workStep (filesDisk cwd)) s ls)
      (exec (workStep (treeDisk cwd)) s' ls) :=
  exec_rel workStep_alike h ls

end Workers

/-- No name is a link, and no two names stand for one file. -/
structure Tree.LinkFree (t : Tree) : Prop where
  noLink : ∀ q target, t.entry q ≠ .link target
  oneName : ∀ q q' k, t.entry q = .file k → t.entry q' = .file k → q = q'
  numbered : ∀ q k, t.entry q = .file k → k < t.next

def Tree.cell (t : Tree) (q : Location) : Cell :=
  match t.entry q with
  | .absent | .link _ => ⟨.absent, []⟩
  | .dir => ⟨.dir, []⟩
  | .file k => ⟨.file 0, [t.contents k]⟩

def Tree.toFiles (t : Tree) : Files := ⟨t.entries.map fun e => (e.1, t.cell e.1)⟩

def Tree.number (t : Tree) (q : Location) (_ : Nat) : Nat :=
  match t.entry q with
  | .absent | .dir | .link _ => 0
  | .file k => k

section LinkFree
variable {t : Tree}

theorem lookup_map_fst {α β γ : Type} [BEq α] [LawfulBEq α] (f : α → γ) (l : List (α × β)) (a : α) :
    (l.map fun e => (e.1, f e.1)).lookup a = (l.lookup a).map fun _ => f a := by
  induction l with
  | nil => rfl
  | cons e l ih =>
    rw [List.map_cons, List.lookup_cons, List.lookup_cons]
    cases hsame : a == e.1 with
    | true => rw [eq_of_beq hsame]; rfl
    | false => exact ih

theorem view_toFiles {q : Location} (hnames : q.names ≠ []) : t.toFiles.view q = t.cell q := by
  rw [Files.view, Tree.toFiles, lookup_map_fst]
  cases hlookup : t.entries.lookup q with
  | some e => rfl
  | none =>
    have habsent : t.entry q = .absent := by
      rw [Tree.entry, if_neg hnames, hlookup, Option.getD_none]
    rw [Tree.cell, habsent]
    rfl

theorem inodes_toFiles {q : Location} {k : Nat} (hk : k < (t.toFiles.view q).inodes.length) :
    k = 0 ∧ ∃ j, t.entry q = .file j ∧ (t.toFiles.view q).inodes = [t.contents j] := by
  have hnames : q.names ≠ [] := by
    intro hnil
    rw [Files.view, Tree.toFiles, lookup_map_fst] at hk
    have hdir : t.entry q = .dir := by rw [Tree.entry, if_pos hnil]
    cases hlookup : t.entries.lookup q with
    | none => simp [hlookup] at hk
    | some e => simp [hlookup, Tree.cell, hdir] at hk
  rw [view_toFiles hnames, Tree.cell] at hk ⊢
  cases hentry : t.entry q with
  | file j =>
    rw [hentry] at hk
    exact ⟨Nat.lt_one_iff.mp hk, j, rfl, rfl⟩
  | _ => simp [hentry] at hk

theorem Tree.LinkFree.mirrors (h : t.LinkFree) : Mirrors t.number t.toFiles t := by
  refine ⟨?_, ?_, ?_, ?_⟩
  · intro q
    by_cases hnames : q.names = []
    · rw [Tree.entry, if_pos hnames, Files.node, if_pos hnames]
      rfl
    · rw [Files.node, if_neg hnames, view_toFiles hnames, Tree.cell]
      cases hentry : t.entry q with
      | link target => exact absurd hentry (h.noLink q target)
      | file k => simp [Node.entry, Tree.number, hentry]
      | _ => rfl
  · intro q k bytes hk
    obtain ⟨rfl, j, hentry, hinodes⟩ := inodes_toFiles (List.getElem?_eq_some_iff.mp hk).1
    have hnumber : t.number q 0 = j := by rw [Tree.number, hentry]
    rw [hinodes] at hk
    rw [hnumber]
    exact ⟨h.numbered q j hentry, Option.some.inj hk⟩
  · intro q k q' k' hk hk' heq
    obtain ⟨rfl, j, hentry, -⟩ := inodes_toFiles hk
    obtain ⟨rfl, j', hentry', -⟩ := inodes_toFiles hk'
    rw [Tree.number, Tree.number, hentry, hentry'] at heq
    obtain rfl : j = j' := heq
    exact ⟨h.oneName q q' j hentry hentry', rfl⟩
  · intro q k hk
    have hnames := FileServer.names_ne_nil hk
    rw [node_eq_view hnames] at hk
    rw [view_toFiles hnames] at hk ⊢
    unfold Tree.cell at hk ⊢
    cases hentry : t.entry q with
    | file j =>
      rw [hentry] at hk
      obtain rfl := Node.file.inj hk
      exact Nat.one_pos
    | _ => simp [hentry] at hk

/-- Whatever commands come and in whatever order the workers go on, a tree without links
gives the answers of its files. -/
theorem link_free_answers [DecidableEq ι] (h : t.LinkFree) (cwd : List CString) (store : UserStore)
    (ls : List (WorkLabel ι)) :
    Option.Rel (fun s s' => s'.store = s.store ∧ s'.answers = s.answers ∧
        ∃ number, Mirrors number s.files s'.files)
      (exec (workStep (filesDisk cwd)) (workStart store t.toFiles) ls)
      (exec (workStep (treeDisk cwd)) (workStart store t) ls) := by
  have hstart : ∃ number, Matched cwd number (workStart store t.toFiles) (workStart (ι := ι) store t) :=
    ⟨t.number, rfl, rfl, h.mirrors, fun _ => rfl, fun _ => trivial⟩
  have hrel := exec_alike hstart ls
  generalize exec (workStep (filesDisk cwd)) (workStart store t.toFiles) ls = o at hrel ⊢
  generalize exec (workStep (treeDisk cwd)) (workStart store t) ls = o' at hrel ⊢
  cases hrel with
  | none => exact .none
  | some hnext =>
    obtain ⟨number, hstore, hanswers, hfiles, -⟩ := hnext
    exact .some ⟨hstore, hanswers, number, hfiles⟩

end LinkFree

end FileServer
