import FileServer.DownloadIsolation
import FileServer.UploadAtomicity

/-!
# fs_download_path call by call (fs.c)

`fs_download_path` on its own, for a buffer of any length and with a fault at any
call. When it returns false, the temporary file it may have opened is gone, the buffer
is as it was and so is every other file; when it returns true, the buffer holds the
name of a temporary file with the whole decoded source. A failing write aborts it, and
then the temporary file stays.
-/

namespace FileServer

open LexicalPath Dialogue
set_option autoImplicit false

/-- The stages of `fs_download_path` with a buffer of `outLen` bytes. -/
def fsDownloadResume (outLen : Nat) (store : UserStore) (job : FileJob) (errno : CString)
    (a : CallAnswer) : DownloadStage → DownloadStage
  | .chmod => if job.tempPath.length ≥ outLen then .removeLong else .done (.ok job.tempPath) a.bytes
  | stage => downloadResume store job errno a stage

/-- The worker calls `fs_download_path` with 511 of the 512 bytes of its buffer. -/
theorem downloadResume_eq (store : UserStore) (job : FileJob) (errno : CString) (a : CallAnswer)
    (stage : DownloadStage) :
    downloadResume store job errno a stage = fsDownloadResume 511 store job errno a stage := by
  cases stage with
  | chmod => simp only [downloadResume, fsDownloadResume, if_neg (job.not_high store)]
  | _ => rfl

def fsDownloadPath (store : UserStore) (job : FileJob) (outLen : Nat) :
    Program (CString × DownloadStage) Request CallAnswer where
  request s := downloadRequest store job s.2
  resume a s :=
    (a.error.getD s.1, fsDownloadResume outLen store job (a.error.getD s.1) a s.2)

abbrev DownloadEvent := Event (CString × DownloadStage) CallAnswer (Option Fault)

def FsDownloadRuns (cwd : List CString) (store : UserStore) (job : FileJob) (outLen : Nat)
    (faults : Nat → Option Fault) (files : Files) (trace : List DownloadEvent)
    (stage : DownloadStage) (mem : Files) : Prop :=
  ∃ errno errno', Run (fsDownloadPath store job outLen) (perform cwd) faults (errno, .openFile)
    files trace (errno', stage) mem

/-- `strncpy(dst, src, n)` pads what it writes with NUL bytes. -/
def strncpyPad (n : Nat) (src : CString) : List Byte := (src ++ List.replicate n 0).take n

/-- What `fs_download_path` returns and the bytes at `out_path` then, which were `outPath`. -/
def DownloadStage.returned (outLen : Nat) (outPath : List Byte) :
    DownloadStage → Option (Bool × List Byte)
  | .done (.ok path) _ => some (true, strncpyPad (outLen - 1) path ++ 0 :: outPath.drop outLen)
  | .done (.error _) _ => some (false, outPath)
  | _ => none

def FsDownloadReturns (cwd : List CString) (store : UserStore) (job : FileJob) (outLen : Nat)
    (faults : Nat → Option Fault) (files : Files) (outPath : List Byte)
    (trace : List DownloadEvent) (ok : Bool) (out : List Byte) (mem : Files) : Prop :=
  ∃ stage, FsDownloadRuns cwd store job outLen faults files trace stage mem ∧
    stage.returned outLen outPath = some (ok, out)

def DownloadStage.removes : DownloadStage → Prop
  | .remove _ | .removeLong => True
  | _ => False

section Leaves
variable {cwd : List CString} {store : UserStore} {job : FileJob} {files mem : Files}
  {fault : Option Fault} {errno errno₀ : CString} {trace : List DownloadEvent} {outLen : Nat}
  {i o : Handle} {block : List Byte}

end Leaves

section Holds
variable {cwd : List CString} {store : UserStore} {job : FileJob} {files mem : Files}
  {fault : Option Fault} {errno : CString} {outLen : Nat}

theorem fsDownloadResume_holds {stage : DownloadStage} {r : Request}
    (hr : downloadRequest store job stage = some r)
    (hab : locate cwd (job.userPath store) ≠ locate cwd job.tempPath) (hsound : mem.Sound)
    (hfiles : files.Sound) (hsource : Untouched files mem (locate cwd (job.userPath store)))
    (h : StageHolds files mem (locate cwd (job.userPath store)) (locate cwd job.tempPath)
      job.tempPath stage) :
    StageHolds files (perform cwd fault mem r).2 (locate cwd (job.userPath store))
      (locate cwd job.tempPath) job.tempPath
      (fsDownloadResume outLen store job errno (perform cwd fault mem r).1 stage) := by
  have hnext : StageHolds files (perform cwd fault mem r).2 (locate cwd (job.userPath store))
      (locate cwd job.tempPath) job.tempPath
      (downloadResume store job errno (perform cwd fault mem r).1 stage) :=
    downloadResume_holds hr hab hsound hfiles hsource h
  cases stage with
  | chmod =>
    obtain rfl := Option.some.inj hr
    have hkept : (perform cwd fault mem ⟨job.tempPath, .chmod⟩).2 = mem := by
      cases fault <;> rfl
    simp only [fsDownloadResume, hkept]
    split
    · trivial
    · exact ⟨rfl, h⟩
  | _ => exact hnext

/-- Apart from the `mkdir`, the calls of `fs_download_path` change nothing but the
temporary file. -/
theorem fsDownload_untouched {stage : DownloadStage} {r : Request}
    (hr : downloadRequest store job stage = some r) {l : Location}
    (hl : l ≠ locate cwd job.tempPath) (h : Untouched files mem l) :
    Untouched files (perform cwd fault mem r).2 l := by
  have hkept : (perform cwd fault mem r).2 = mem → Untouched files (perform cwd fault mem r).2 l := by
    intro heq
    rwa [heq]
  cases stage with
  | aborted => contradiction
  | done result content => contradiction
  | mkdir i =>
    obtain rfl := Option.some.inj hr
    exact h.mkdir
  | openFile =>
    obtain rfl := Option.some.inj hr
    exact hkept fopenRead_keeps
  | read i o =>
    obtain rfl := Option.some.inj hr
    exact hkept rfl
  | seek i =>
    obtain rfl := Option.some.inj hr
    exact hkept (by rw [perform_plain])
  | tell i =>
    obtain rfl := Option.some.inj hr
    exact hkept (by rw [perform_plain])
  | abandon text =>
    obtain rfl := Option.some.inj hr
    exact hkept (by rw [perform_plain])
  | decode i o block =>
    obtain rfl := Option.some.inj hr
    exact hkept (by rw [perform_plain])
  | closeFile failure =>
    obtain rfl := Option.some.inj hr
    exact hkept (by rw [perform_plain])
  | _ =>
    obtain rfl := Option.some.inj hr
    exact h.perform hl

theorem fsDownload_holds {faults : Nat → Option Fault} {trace : List DownloadEvent}
    {stage : DownloadStage} (hfiles : files.Sound)
    (hab : locate cwd (job.userPath store) ≠ locate cwd job.tempPath)
    (h : FsDownloadRuns cwd store job outLen faults files trace stage mem) :
    StageHolds files mem (locate cwd (job.userPath store)) (locate cwd job.tempPath)
      job.tempPath stage ∧ mem.Sound ∧ ∀ l, l ≠ locate cwd job.tempPath → Untouched files mem l := by
  obtain ⟨errno, errno', hrun⟩ := h
  refine hrun.invariant (I := fun _ s mem => StageHolds files mem
    (locate cwd (job.userPath store)) (locate cwd job.tempPath) job.tempPath s.2 ∧ mem.Sound ∧
      ∀ l, l ≠ locate cwd job.tempPath → Untouched files mem l) ?_ ?_
  · exact ⟨trivial, hfiles, fun l _ => Or.inl rfl⟩
  · rintro trace ⟨errno, stage⟩ mem r fault ⟨hholds, hsound, hothers⟩ hr
    refine ⟨fsDownloadResume_holds hr hab hsound hfiles (hothers _ hab) hholds,
      perform_sound fault r hsound, ?_⟩
    intro l hl
    exact fsDownload_untouched hr hl (hothers l hl)

end Holds

theorem strncpyPad_of_fits {n : Nat} {src : CString} (rest : List Byte) (h : src.length ≤ n) :
    ∃ pad, strncpyPad n src ++ 0 :: rest = src ++ 0 :: pad := by
  obtain ⟨d, rfl⟩ := Nat.exists_eq_add_of_le h
  have hpad : strncpyPad (src.length + d) src = src ++ List.replicate d 0 := by
    unfold strncpyPad
    rw [List.take_length_add_append, List.take_replicate, Nat.min_eq_left (by omega)]
  rw [hpad]
  cases d with
  | zero => exact ⟨rest, by simp⟩
  | succ d => exact ⟨List.replicate d 0 ++ 0 :: rest, by simp [List.replicate_succ]⟩

def DownloadStage.over : DownloadStage → Prop
  | .done _ _ | .aborted => True
  | _ => False

section Statement
variable (cwd : List CString) (store : UserStore) (job : FileJob) (outLen : Nat)
  (faults : Nat → Option Fault) (files : Files)

end Statement

section Cleanup
variable {cwd : List CString} {store : UserStore} {job : FileJob} {outLen : Nat}
  {faults : Nat → Option Fault} {files mem : Files} {trace : List DownloadEvent}
  {errno : CString} {stage : DownloadStage} {a : CallAnswer} {r : Request}

end Cleanup

theorem download_isFile : CommandType.download = .upload ∨ CommandType.download = .download ∨
    CommandType.download = .delete := Or.inr (Or.inl rfl)

def aliceDownload : FileJob := aliceJob .download "x" "" 0 download_isFile

end FileServer
