import FileServer.Decimal
import FileServer.FileSteps

/-!
# The texts of responses (worker.c, fs.c)

Every text that a worker sends is one line that fits the response, but for the listing of a
directory with files: the texts of the worker itself, the errors of `fs.c`, which end in
what `strerror` says, and the name of a decoded copy.
-/

namespace FileServer

set_option autoImplicit false

/-- What `fs.c` hands to a task: an error in one line, or the name of the decoded copy. -/
structure FsReturns (t : Task) (files : FileResults) : Prop where
  upload : ∀ text, files.upload = .error text → 10 ∉ text
  download : ∀ text, files.download = .error text → 10 ∉ text
  copy : ∀ path, files.download = .ok path → ∃ now, path = tempPath t.username t.path now

/-- A message that the response holds whole and the client reads as one line. -/
def OneLine (message : CString) : Prop := 10 ∉ message ∧ message.length ≤ 511

instance (message : CString) : Decidable (OneLine message) := instDecidableAnd

section Messages
variable {t : Task} {files : FileResults} {store : UserStore} {user : Option User}

theorem OneLine.of_snprintf {n : Nat} {text : CString} (hn : n ≤ 512) (h : 10 ∉ text) :
    OneLine (snprintf n text) := by
  refine ⟨fun hmem => h (List.mem_of_mem_take hmem), ?_⟩
  have hle := List.length_take_le (n - 1) text
  rw [snprintf]
  omega

theorem newline_notMem_decimal (n : Nat) : 10 ∉ decimal n := by
  intro hmem
  have hrange := (decimal_digits hmem).1
  contradiction

theorem fileTooLarge_oneLine (size : Nat) : OneLine (fileTooLarge size) := by
  refine .of_snprintf (by decide) ?_
  have hbefore : (10 : Byte) ∉ cstr "File too large (" := by decide
  have hpoint : (10 : Byte) ∉ cstr "." := by decide
  have hafter : (10 : Byte) ∉ cstr " MB). Upgrade to high priority for larger uploads." := by decide
  simp only [megabytes, List.mem_append, not_or]
  exact ⟨⟨hbefore, ⟨⟨newline_notMem_decimal _, hpoint⟩, newline_notMem_decimal _⟩,
    newline_notMem_decimal _⟩, hafter⟩

theorem tempPath_oneLine {user relpath : CString} (huser : 10 ∉ user) (hrelpath : 10 ∉ relpath)
    (now : Int) : OneLine (tempPath user relpath now) := by
  have htime : (10 : Byte) ∉ cstr (toString now) := by
    intro hmem
    have hrange := (timeText_byte hmem).1
    contradiction
  have hdir : (10 : Byte) ∉ tempDir := by decide
  have hend : (10 : Byte) ∉ cstr ".tmp" := by decide
  have hjoin : (10 : Byte) ∉ cstr "_" := by decide
  have htext : 10 ∉ tempDir ++ slash :: (user ++ cstr "_" ++ relpath ++ cstr "_" ++
      cstr (toString now) ++ cstr ".tmp") := by
    simp only [List.mem_append, List.mem_cons, not_or]
    exact ⟨hdir, by decide, ⟨⟨⟨⟨huser, hjoin⟩, hrelpath⟩, hjoin⟩, htime⟩, hend⟩
  have hcut := OneLine.of_snprintf (Nat.le_refl 512) htext
  refine ⟨?_, by rw [tempPath, List.length_map]; exact hcut.2⟩
  intro hmem
  obtain ⟨c, hc, hnewline⟩ := List.mem_map.mp hmem
  unfold replaceProblematic at hnewline
  split at hnewline
  · contradiction
  · exact hcut.1 (hnewline ▸ hc)

theorem orText_oneLine {err text : CString} (herr : OneLine err) (htext : OneLine text) :
    OneLine (orText err text) := by
  unfold orText
  split
  · exact htext
  · exact herr

theorem uploadResult_oneLine {err : CString} (hfiles : ∀ u, user = some u → FsReturns t files)
    (h : uploadResult files t user = .error err) : OneLine err := by
  unfold uploadResult at h
  split at h
  · obtain rfl := Except.error.inj h
    decide
  split at h
  · rename_i u
    split at h
    · obtain rfl := Except.error.inj h
      exact fileTooLarge_oneLine t.size
    split at h
    · split at h
      · contradiction
      · rename_i text htext
        obtain rfl := Except.error.inj h
        exact .of_snprintf (by decide) ((hfiles u rfl).upload text htext)
    · obtain rfl := Except.error.inj h
      decide
  · obtain rfl := Except.error.inj h
    decide

/-- The effects send no message of more than one line. -/
def SendsOneLine (effects : List Effect) : Prop :=
  ∀ status message, .sendResponse status message ∈ effects → OneLine message

theorem SendsOneLine.single {status : ResponseStatus} {message : CString} (h : OneLine message) :
    SendsOneLine [.sendResponse status message] := by
  intro status' message' hmem
  obtain ⟨-, rfl⟩ := Effect.sendResponse.inj (List.mem_singleton.mp hmem)
  exact h

theorem SendsOneLine.tail {effect : Effect} {rest : List Effect} (h : SendsOneLine (effect :: rest)) :
    SendsOneLine rest := fun status message hmem => h status message (List.mem_cons_of_mem _ hmem)

/-- Every message but a listing is one line. -/
theorem processTask_sendsOneLine (works : Bool) (huser : 10 ∉ t.username) (hpath : 10 ∉ t.path)
    (hfiles : ∀ u, user = some u → FsReturns t files ∧
      (t.type = .list → ∀ listing, files.list = some listing → listing = [])) :
    SendsOneLine (processTask works files store t user).2 := by
  unfold processTask
  cases htype : t.type with
  | signup =>
    dsimp only [processSignup]
    split
    · exact .single (by decide)
    · exact .single (by decide)
  | login =>
    cases user with
    | none => exact .single (by decide)
    | some u =>
      dsimp only [processLogin]
      split
      · exact .single (by decide)
      · exact .single (by decide)
  | upload =>
    dsimp only [processUpload]
    split
    · exact .single (by decide)
    · rename_i err herr
      exact .single
        (orText_oneLine (uploadResult_oneLine (fun u hu => (hfiles u hu).1) herr) (by decide))
  | download =>
    dsimp only [processDownload]
    split
    · exact .single (by decide)
    cases user with
    | none => exact .single (by decide)
    | some u =>
      have hreturns := (hfiles u rfl).1
      dsimp only
      split
      · rename_i path hcopy
        split
        · intro status message hmem
          rcases List.mem_cons.mp hmem with heq | hmem
          · obtain ⟨-, rfl⟩ := Effect.sendResponse.inj heq
            decide
          · exact absurd (List.mem_singleton.mp hmem) (by simp)
        · obtain ⟨now, rfl⟩ := hreturns.copy _ hcopy
          exact .single (tempPath_oneLine huser hpath now)
      · rename_i text htext
        have hline := OneLine.of_snprintf (by decide : 255 ≤ 512) (hreturns.download text htext)
        exact .single (orText_oneLine hline (by decide))
  | delete =>
    cases user with
    | none => exact .single (by decide)
    | some u =>
      dsimp only [processDelete]
      split
      · exact .single (by decide)
      · exact .single (by decide)
  | list =>
    cases user with
    | none => exact .single (by decide)
    | some u =>
      dsimp only [processList]
      split
      · rename_i listing hlisting
        rw [(hfiles u rfl).2 htype _ hlisting]
        exact .single (by decide)
      · exact .single (by decide)
  | unknown => exact fun status message hmem => absurd hmem List.not_mem_nil
  | quit => exact fun status message hmem => absurd hmem List.not_mem_nil

end Messages

/-! The results of the functions of `fs.c`, call by call. -/

def UploadStage.OneLine : UploadStage → Prop
  | .abandon text | .remove text => 10 ∉ text
  | .closeIn failure | .closeOut failure => ∀ text, failure = some text → 10 ∉ text
  | .done _ result => ∀ text, result = .error text → 10 ∉ text
  | _ => True

def DownloadStage.OneLine (job : FileJob) : DownloadStage → Prop
  | .abandon text | .remove text => 10 ∉ text
  | .closeTemp failure | .closeFile failure => ∀ text, failure = some text → 10 ∉ text
  | .done result _ =>
    (∀ text, result = .error text → 10 ∉ text) ∧ ∀ path, result = .ok path → path = job.tempPath
  | _ => True

def FileStage.OneLine (job : FileJob) : FileStage → Prop
  | .upload s => s.OneLine
  | .download s => s.OneLine job
  | .delete _ => True

section Stages
variable {store : UserStore} {job : FileJob} {errno : CString} {a : CallAnswer}

theorem notMem_append_errno {text : CString} (htext : 10 ∉ text) (herrno : 10 ∉ errno) :
    10 ∉ text ++ errno := by
  simp [htext, herrno]

theorem notMem_of_error {α : Type} {err text : CString} (herr : 10 ∉ err)
    (h : (.error err : Except CString α) = .error text) : 10 ∉ text :=
  Except.error.inj h ▸ herr

theorem notMem_of_some {err text : CString} (herr : 10 ∉ err) (h : some err = some text) :
    10 ∉ text :=
  Option.some.inj h ▸ herr

theorem leave_oneLine (herrno : 10 ∉ errno) {i : Handle} {failure : Option CString}
    (h : ∀ text, failure = some text → 10 ∉ text) : (uploadResume.leave errno i failure).OneLine := by
  intro text htext
  split at htext
  · exact notMem_of_some (notMem_append_errno (by decide) herrno) htext
  · exact h text htext

theorem uploadResume_oneLine (herrno : 10 ∉ errno) {s : UploadStage} (h : s.OneLine) :
    (uploadResume errno a s).OneLine := by
  have herror : ∀ text : CString, 10 ∉ text → 10 ∉ text ++ errno := fun _ htext =>
    notMem_append_errno htext herrno
  cases s with
  | testTmpfile =>
    dsimp only [uploadResume]
    split
    · exact fun text => notMem_of_error List.not_mem_nil
    · trivial
  | closeTest => trivial
  | mkdir =>
    dsimp only [uploadResume]
    split
    · trivial
    · exact fun text => notMem_of_error (herror _ (by decide))
  | openIn =>
    dsimp only [uploadResume]
    split
    · trivial
    · exact fun text => notMem_of_error (herror _ (by decide))
  | openOut i =>
    dsimp only [uploadResume]
    split
    · trivial
    · exact (by decide : 10 ∉ cstr "Failed to create destination file: ")
  | abandon text => exact fun _ => notMem_of_error (herror text h)
  | read i o =>
    dsimp only [uploadResume]
    split
    · exact leave_oneLine herrno (by simp)
    · trivial
  | encode i o block =>
    dsimp only [uploadResume]
    split
    · trivial
    · exact leave_oneLine herrno fun text => notMem_of_some (by decide)
  | write i o block =>
    dsimp only [uploadResume]
    split
    · trivial
    · trivial
  | closeIn failure => exact h
  | closeOut failure =>
    cases failure with
    | some err => exact h err rfl
    | none =>
      dsimp only [uploadResume]
      split
      · trivial
      · exact herror _ (by decide)
  | remove err => exact fun _ => notMem_of_error h
  | unlinkTmpfile =>
    intro text hdone
    contradiction
  | aborted => trivial
  | done tmpfileOpens result => exact h

theorem downloadResume_oneLine (herrno : 10 ∉ errno) {s : DownloadStage} (h : s.OneLine job) :
    (downloadResume store job errno a s).OneLine job := by
  have herror : ∀ text : CString, 10 ∉ text → 10 ∉ text ++ errno := fun _ htext =>
    notMem_append_errno htext herrno
  have hfailed : ∀ (err : CString) (content : List Byte), 10 ∉ err →
      (DownloadStage.done (.error err) content).OneLine job := fun err _ herr =>
    ⟨fun _ => notMem_of_error herr, fun _ hok => by contradiction⟩
  have hcopied : ∀ content : List Byte, (DownloadStage.done (.ok job.tempPath) content).OneLine job :=
    fun _ => ⟨fun _ herr => by contradiction, fun _ hok => (Except.ok.inj hok).symm⟩
  cases s with
  | openFile =>
    dsimp only [downloadResume]
    split
    · trivial
    · exact hfailed _ _ (herror _ (by decide))
  | seek i =>
    dsimp only [downloadResume]
    split
    · trivial
    · exact (by decide : 10 ∉ cstr "Failed to determine file size: ")
  | tell i =>
    dsimp only [downloadResume]
    split
    · trivial
    · exact (by decide : 10 ∉ cstr "Failed to get file size: ")
  | mkdir i =>
    dsimp only [downloadResume]
    split
    · trivial
    · exact (by decide : 10 ∉ cstr "Failed to create temp directory: ")
  | openTemp i =>
    dsimp only [downloadResume]
    split
    · trivial
    · exact (by decide : 10 ∉ cstr "Failed to create temporary file: ")
  | abandon text => exact hfailed _ _ (herror text h)
  | read i o =>
    dsimp only [downloadResume]
    split
    · intro text htext
      split at htext
      · exact notMem_of_some (herror _ (by decide)) htext
      · contradiction
    · trivial
  | decode i o block =>
    dsimp only [downloadResume]
    split
    · trivial
    · exact fun text => notMem_of_some (by decide)
  | write i o block =>
    dsimp only [downloadResume]
    split
    · trivial
    · trivial
  | closeTemp failure =>
    dsimp only [downloadResume]
    split
    · exact fun text => notMem_of_some (herror _ (by decide))
    · exact h
  | closeFile failure =>
    cases failure with
    | some err => exact h err rfl
    | none => trivial
  | remove err => exact hfailed err _ h
  | chmod =>
    dsimp only [downloadResume]
    split
    · trivial
    split
    · trivial
    · exact hcopied _
  | removeLong => exact hfailed _ _ (by decide)
  | unlinkTemp content => exact hcopied content
  | aborted => trivial
  | done result content => exact h

theorem firstStage_oneLine (store : UserStore) (job : FileJob) : (firstStage store job).OneLine job := by
  unfold firstStage
  split
  · exact fun _ => notMem_of_error List.not_mem_nil
  · split
    · exact fun _ => notMem_of_error List.not_mem_nil
    · trivial
  · exact ⟨fun _ => notMem_of_error List.not_mem_nil, fun _ hok => by contradiction⟩
  · trivial
  · trivial
  · trivial

/-- One call of a worker keeps the texts to one line, if what `strerror` says has none more. -/
theorem fileStep_oneLine {cwd : List CString} {p : FileProcess} {files : Files}
    (herrors : ∀ r text, fileRequest store p.job p.stage = some r →
      (perform cwd (p.job.faults p.calls) files r).1.error = some text → 10 ∉ text)
    (herrno : 10 ∉ p.errno) (h : p.stage.OneLine p.job) :
    10 ∉ (fileStep cwd store p files).1.errno ∧
      (fileStep cwd store p files).1.stage.OneLine (fileStep cwd store p files).1.job := by
  unfold fileStep fileCall
  split
  · exact ⟨herrno, h⟩
  · rename_i r hr
    have hnext : 10 ∉ (perform cwd (p.job.faults p.calls) files r).1.error.getD p.errno := by
      cases herror : (perform cwd (p.job.faults p.calls) files r).1.error with
      | none => exact herrno
      | some text => exact herrors r text hr herror
    refine ⟨hnext, ?_⟩
    dsimp only
    generalize p.stage = stage at h
    cases stage with
    | upload s => exact uploadResume_oneLine hnext h
    | download s => exact downloadResume_oneLine hnext h
    | delete s => trivial

/-- What a worker has of `fs.c` when it is done is what the response needs. -/
theorem results_fsReturns {stage : FileStage} (h : stage.OneLine job) :
    FsReturns job.task.toTask stage.results := by
  have hnone : FsReturns job.task.toTask noResults :=
    ⟨fun _ => notMem_of_error List.not_mem_nil, fun _ => notMem_of_error List.not_mem_nil,
      fun _ hok => by contradiction⟩
  unfold FileStage.results
  split
  · exact ⟨h, hnone.download, hnone.copy⟩
  · exact ⟨hnone.upload, h.1, fun path hok => ⟨job.now, h.2 path hok⟩⟩
  · exact ⟨hnone.upload, hnone.download, hnone.copy⟩
  · exact hnone

/-- Whatever other workers do to the files between the calls of a task, what `fs.c` returns
to it is what the response needs. -/
theorem fs_returns {cwd : List CString} (memories : List Files)
    (herrors : ∀ n files r text, (perform cwd (job.faults n) files r).1.error = some text → 10 ∉ text) :
    FsReturns job.task.toTask
      (memories.foldl (fun p files => (fileStep cwd store p files).1) (.start store job)).stage.results := by
  have hrun : ∀ p : FileProcess, p.job = job → 10 ∉ p.errno → p.stage.OneLine job →
      (memories.foldl (fun p files => (fileStep cwd store p files).1) p).stage.OneLine job := by
    induction memories with
    | nil => exact fun p _ _ h => h
    | cons files memories ih =>
      rintro p rfl herrno h
      have hnext : 10 ∉ (fileStep cwd store p files).1.errno ∧
          (fileStep cwd store p files).1.stage.OneLine (fileStep cwd store p files).1.job :=
        fileStep_oneLine (fun r text _ hr => herrors p.calls files r text hr) herrno h
      have hjob : (fileStep cwd store p files).1.job = p.job := by
        unfold fileStep fileCall
        split <;> rfl
      rw [hjob] at hnext
      exact ih _ hjob hnext.1 hnext.2
  exact results_fsReturns (hrun _ rfl List.not_mem_nil (firstStage_oneLine store job))

end Stages

end FileServer
