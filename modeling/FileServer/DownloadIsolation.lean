import FileServer.Decimal
import FileServer.CopyFaults
import FileServer.UserSerial

/-!
# Downloads at the same time (fs_download_path in fs.c)

The name of a temporary file is made of the user, the relpath and the second, with
`_` between them and in place of the characters it may not have. Two downloads
share it exactly if they fall into one second and their texts `user_relpath` agree
after the replacement. Downloads that share no name and do not download a
temporary file are answered with their own file, whatever their order.
-/

namespace FileServer

open LexicalPath Interleaving Runs
set_option autoImplicit false

universe u
variable {ι : Type u}

/-- The part of a temporary name that user and relpath make up. -/
def tempName (user relpath : CString) : CString :=
  (user ++ cstr "_" ++ relpath).map replaceProblematic

section Names
variable {user user' relpath relpath' : CString} {now now' : Int}

theorem replaceProblematic_timeText {c : Byte} (h : c ∈ timeText now) :
    replaceProblematic c = c := by
  have hbyte := timeText_byte h
  have hlist : cstr "/\\:*?\"<>|" = [47, 92, 58, 42, 63, 34, 60, 62, 124] := by decide
  rw [replaceProblematic, hlist, if_neg]
  intro hc
  simp only [List.mem_cons, List.not_mem_nil, or_false] at hc
  rcases hc with rfl | rfl | rfl | rfl | rfl | rfl | rfl | rfl | rfl <;> simp at hbyte

theorem map_replace_timeText (now : Int) :
    (timeText now).map replaceProblematic = timeText now := by
  conv_rhs => rw [← List.map_id (timeText now)]
  exact List.map_congr_left fun c hc => replaceProblematic_timeText hc

theorem replaceProblematic_ne_slash (c : Byte) : replaceProblematic c ≠ slash := by
  unfold replaceProblematic
  split
  · decide
  · rename_i hc
    rintro rfl
    exact hc (by decide)

theorem tempPath_eq (hu : user.length ≤ 63) (hr : relpath.length ≤ 255)
    (hnow : now.natAbs < 2 ^ 63) :
    tempPath user relpath now = cstr "_tmp_os_lab7_downloads_" ++
      (tempName user relpath ++ 95 :: (timeText now ++ cstr ".tmp")) := by
  have hdir : (tempDir ++ [slash]).map replaceProblematic = cstr "_tmp_os_lab7_downloads_" := by
    decide
  have hend : (cstr ".tmp").map replaceProblematic = cstr ".tmp" := by decide
  have hbar : (cstr "_").map replaceProblematic = [95] := by decide
  have htime := timeText_length_le hnow
  have hsplit : tempDir ++ slash :: (user ++ cstr "_" ++ relpath ++ cstr "_" ++ timeText now ++
      cstr ".tmp") = (tempDir ++ [slash]) ++ (user ++ cstr "_" ++ relpath) ++ cstr "_" ++
        timeText now ++ cstr ".tmp" := by
    simp
  have hconst : (tempDir ++ [slash]).length = 23 ∧ (cstr "_").length = 1 ∧
      (cstr ".tmp").length = 4 := by decide
  have hlen : ((tempDir ++ [slash]) ++ (user ++ cstr "_" ++ relpath) ++ cstr "_" ++ timeText now ++
      cstr ".tmp").length ≤ 511 := by
    simp only [List.length_append] at hconst ⊢
    omega
  have hpath : tempPath user relpath now = (snprintf 512 (tempDir ++ slash :: (user ++ cstr "_" ++
      relpath ++ cstr "_" ++ timeText now ++ cstr ".tmp"))).map replaceProblematic := rfl
  rw [hpath, hsplit, snprintf, List.take_of_length_le hlen]
  rw [List.map_append, List.map_append, List.map_append, List.map_append, hdir, hbar, hend,
    map_replace_timeText]
  simp [tempName]

theorem tempPath_length (hu : user.length ≤ 63) (hr : relpath.length ≤ 255)
    (hnow : now.natAbs < 2 ^ 63) : (tempPath user relpath now).length < 511 := by
  have hconst : (cstr "_tmp_os_lab7_downloads_").length = 23 ∧ (cstr "_").length = 1 ∧
      (cstr ".tmp").length = 4 := by decide
  have htime := timeText_length_le hnow
  rw [tempPath_eq hu hr hnow]
  simp only [tempName, List.length_append, List.length_cons, List.length_map]
  omega

theorem tempPath_head (user relpath : CString) (now : Int) :
    (tempPath user relpath now).head? = some 95 := rfl

theorem tempPath_singleName (user relpath : CString) (now : Int) :
    SingleName (tempPath user relpath now) := by
  have hhead := tempPath_head user relpath now
  refine ⟨?_, ?_, ?_, ?_⟩
  · intro hnil
    simp [hnil] at hhead
  · intro hslash
    obtain ⟨c, -, hc⟩ := List.mem_map.mp hslash
    exact replaceProblematic_ne_slash c hc
  · intro hdot
    rw [hdot] at hhead
    exact absurd hhead (by decide)
  · intro hdots
    rw [hdots] at hhead
    exact absurd hhead (by decide)

theorem afterLastBar (name : CString) (now : Int) :
    ((name ++ 95 :: timeText now).reverse.takeWhile (· ≠ 95)).reverse = timeText now := by
  have hnone : ∀ c ∈ (timeText now).reverse, decide (c ≠ 95) = true := by
    intro c hc
    have hbyte := timeText_byte (List.mem_reverse.mp hc)
    simp only [decide_eq_true_eq]
    rintro rfl
    simp at hbyte
  rw [List.reverse_append, List.reverse_cons, List.append_assoc, List.singleton_append,
    List.takeWhile_append_of_pos hnone, List.takeWhile_cons_of_neg (by simp), List.append_nil,
    List.reverse_reverse]

theorem tempPath_eq_iff (hu : user.length ≤ 63) (hr : relpath.length ≤ 255)
    (hnow : now.natAbs < 2 ^ 63) (hu' : user'.length ≤ 63) (hr' : relpath'.length ≤ 255)
    (hnow' : now'.natAbs < 2 ^ 63) :
    tempPath user relpath now = tempPath user' relpath' now' ↔
      now = now' ∧ tempName user relpath = tempName user' relpath' := by
  constructor
  · intro h
    rw [tempPath_eq hu hr hnow, tempPath_eq hu' hr' hnow'] at h
    have hrest := List.append_cancel_left h
    have hcut : tempName user relpath ++ 95 :: timeText now =
        tempName user' relpath' ++ 95 :: timeText now' := by
      have hend : (tempName user relpath ++ 95 :: timeText now) ++ cstr ".tmp" =
          (tempName user' relpath' ++ 95 :: timeText now') ++ cstr ".tmp" := by
        simpa using hrest
      exact List.append_cancel_right hend
    have htime : timeText now = timeText now' := by
      rw [← afterLastBar (tempName user relpath) now, hcut, afterLastBar]
    rw [htime] at hcut
    exact ⟨timeText_injective htime, List.append_cancel_right hcut⟩
  · rintro ⟨rfl, hname⟩
    rw [tempPath_eq hu hr hnow, tempPath_eq hu' hr' hnow, hname]

theorem locate_tempPath (cwd : List CString) (user relpath : CString) (now : Int) :
    locate cwd (tempPath user relpath now) = ⟨true, 0, cwd ++ [tempPath user relpath now]⟩ := by
  have horigin : origin cwd (tempPath user relpath now) = ⟨true, 0, cwd⟩ := by
    rw [origin, tempPath_head, if_neg (by decide)]
  rw [locate, horigin, (tempPath_singleName user relpath now).components]
  rfl

end Names

section Stages
variable {cwd : List CString} {store : UserStore} {files mem mem' : Files} {a b : Location}

/-- How far a download from `a` to `b` has come. -/
def StageHolds (files mem : Files) (a b : Location) (temp : CString) : DownloadStage → Prop
  | .seek i | .tell i | .mkdir i | .openTemp i => SourceOpen files a i
  | .read i o =>
    Flawed i ∨ ∃ src n, files.contentAt a = some src ∧ Copying mem a b src n i o ∧ i.offset = n
  | .decode i o block | .write i o block =>
    Flawed i ∨ ∃ src n, files.contentAt a = some src ∧ Copying mem a b src n i o ∧
      i.offset = n + block.length ∧ block = nextBlock src n ∧ block ≠ []
  | .closeTemp none | .closeFile none | .chmod => Decoded files mem a b
  | .unlinkTemp _ => False
  | .done (.ok path) _ => path = temp ∧ Decoded files mem a b
  | _ => True

theorem StageHolds.frame {temp : CString} {stage : DownloadStage}
    (h : StageHolds files mem a b temp stage)
    (ha : ∀ src, files.contentAt a = some src → mem'.view a = mem.view a)
    (hb : ∀ k, mem.node b = .file k → mem'.view b = mem.view b) :
    StageHolds files mem' a b temp stage := by
  have hcopy : ∀ {src n i o}, files.contentAt a = some src → Copying mem a b src n i o →
      Copying mem' a b src n i o := by
    intro src n i o hsrc hc
    obtain ⟨k, -, hnode, -⟩ := hc.copy
    exact hc.frame (ha src hsrc) (hb k hnode)
  cases stage with
  | read i o =>
    rcases h with hflawed | ⟨src, n, hsrc, hc, hoffset⟩
    · exact Or.inl hflawed
    · exact Or.inr ⟨src, n, hsrc, hcopy hsrc hc, hoffset⟩
  | decode i o block =>
    rcases h with hflawed | ⟨src, n, hsrc, hc, hrest⟩
    · exact Or.inl hflawed
    · exact Or.inr ⟨src, n, hsrc, hcopy hsrc hc, hrest⟩
  | write i o block =>
    rcases h with hflawed | ⟨src, n, hsrc, hc, hrest⟩
    · exact Or.inl hflawed
    · exact Or.inr ⟨src, n, hsrc, hcopy hsrc hc, hrest⟩
  | closeTemp failure =>
    cases failure with
    | none => exact Decoded.frame h hb
    | some err => trivial
  | closeFile failure =>
    cases failure with
    | none => exact Decoded.frame h hb
    | some err => trivial
  | chmod => exact Decoded.frame h hb
  | done result content =>
    cases result with
    | ok path => exact ⟨h.1, h.2.frame hb⟩
    | error err => trivial
  | seek i => exact h
  | tell i => exact h
  | mkdir i => exact h
  | openTemp i => exact h
  | unlinkTemp content => exact h
  | openFile => trivial
  | abandon text => trivial
  | remove err => trivial
  | removeLong => trivial
  | aborted => trivial

variable {job : FileJob} {fault : Option Fault} {errno : CString}

theorem openFile_holds (hfiles : files.Sound)
    (hsource : Untouched files mem (locate cwd (job.userPath store))) :
    StageHolds files (perform cwd fault mem ⟨job.userPath store, .fopenRead⟩).2
      (locate cwd (job.userPath store)) b job.tempPath
      (downloadResume store job errno
        (perform cwd fault mem ⟨job.userPath store, .fopenRead⟩).1 .openFile) := by
  simp only [downloadResume]
  split
  · rename_i hok
    exact sourceOpen_of_fopenRead hfiles hsource hok
  · trivial

theorem openTemp_holds {i : Handle} (hab : a ≠ locate cwd job.tempPath) (hsound : mem.Sound)
    (hsource : Untouched files mem a) (h : SourceOpen files a i) :
    StageHolds files (perform cwd fault mem ⟨job.tempPath, .fopenWrite⟩).2 a
      (locate cwd job.tempPath) job.tempPath
      (downloadResume store job errno
        (perform cwd fault mem ⟨job.tempPath, .fopenWrite⟩).1 (.openTemp i)) := by
  simp only [downloadResume]
  split
  · rename_i hok
    exact h.readsOn hab hsound hsource hok
  · trivial

theorem read_holds {i o : Handle}
    (h : StageHolds files mem (locate cwd (job.userPath store)) b job.tempPath (.read i o)) :
    StageHolds files mem (locate cwd (job.userPath store)) b job.tempPath
      (downloadResume store job errno (fread cwd mem (job.userPath store) fault i) (.read i o)) := by
  by_cases herror : (fread cwd mem (job.userPath store) fault i).handle.error = true
  · simp only [downloadResume, herror, if_true]
    split
    · trivial
    · exact Or.inl (Or.inl herror)
  · obtain ⟨hend, hnext⟩ := ReadsOn.fread h herror
    simp only [downloadResume, herror]
    split
    · rename_i hnil
      exact hend hnil
    · rename_i hne
      exact hnext hne

theorem write_holds {i o : Handle} {block : List Byte} (hab : a ≠ locate cwd job.tempPath)
    (h : StageHolds files mem a (locate cwd job.tempPath) job.tempPath (.write i o block)) :
    StageHolds files (perform cwd fault mem ⟨job.tempPath, .fwrite o (decodeData block)⟩).2 a
      (locate cwd job.tempPath) job.tempPath
      (downloadResume store job errno
        (perform cwd fault mem ⟨job.tempPath, .fwrite o (decodeData block)⟩).1
        (.write i o block)) := by
  simp only [downloadResume]
  split
  · rename_i hok
    exact HoldsBlock.fwrite h hab hok
  · trivial

theorem downloadResume_holds {stage : DownloadStage} {r : Request}
    (hr : downloadRequest store job stage = some r)
    (hab : locate cwd (job.userPath store) ≠ locate cwd job.tempPath) (hsound : mem.Sound)
    (hfiles : files.Sound) (hsource : Untouched files mem (locate cwd (job.userPath store)))
    (h : StageHolds files mem (locate cwd (job.userPath store)) (locate cwd job.tempPath)
      job.tempPath stage) :
    StageHolds files (perform cwd fault mem r).2 (locate cwd (job.userPath store))
      (locate cwd job.tempPath) job.tempPath
      (downloadResume store job errno (perform cwd fault mem r).1 stage) := by
  cases stage with
  | openFile =>
    obtain rfl := Option.some.inj hr
    exact openFile_holds hfiles hsource
  | openTemp i =>
    obtain rfl := Option.some.inj hr
    exact openTemp_holds hab hsound hsource h
  | read i o =>
    obtain rfl := Option.some.inj hr
    exact read_holds h
  | write i o block =>
    obtain rfl := Option.some.inj hr
    exact write_holds hab h
  | seek i =>
    simp only [downloadResume]
    split
    · exact h
    · trivial
  | tell i =>
    simp only [downloadResume]
    split
    · exact h
    · trivial
  | mkdir i =>
    simp only [downloadResume]
    split
    · exact h
    · trivial
  | decode i o block =>
    obtain rfl := Option.some.inj hr
    have hkept : (perform cwd fault mem ⟨job.userPath store, .plain⟩).2 = mem := by
      cases fault <;> rfl
    simp only [downloadResume, hkept]
    split
    · exact h
    · trivial
  | closeTemp failure =>
    obtain rfl := Option.some.inj hr
    have hkept : (perform cwd fault mem ⟨job.tempPath, .plain⟩).2 = mem := by
      cases fault <;> rfl
    simp only [downloadResume, hkept]
    split
    · trivial
    · cases failure with
      | none => exact h
      | some err => trivial
  | closeFile failure =>
    obtain rfl := Option.some.inj hr
    have hkept : (perform cwd fault mem ⟨job.userPath store, .plain⟩).2 = mem := by
      cases fault <;> rfl
    rw [hkept]
    cases failure with
    | none => exact h
    | some err => trivial
  | chmod =>
    obtain rfl := Option.some.inj hr
    have hkept : (perform cwd fault mem ⟨job.tempPath, .chmod⟩).2 = mem := by
      cases fault <;> rfl
    simp only [downloadResume, hkept]
    split
    · trivial
    · rw [if_neg (job.not_high store)]
      exact ⟨rfl, h⟩
  | unlinkTemp content => exact absurd h id
  | abandon text => trivial
  | remove err => trivial
  | removeLong => trivial
  | aborted => contradiction
  | done result content => contradiction

end Stages

/-- A download as the command parser and the clock allow it. -/
structure DownloadJob (job : FileJob) : Prop where
  type : job.task.type = .download
  user : job.task.username.length ≤ 63
  relpath : job.task.path.length ≤ 255
  clock : job.now.natAbs < 2 ^ 63

/-- Two downloads fall into one second and their texts `user_relpath` agree once the
characters that a name may not have are replaced. -/
def SameTempName (i j : FileJob) : Prop :=
  i.now = j.now ∧
    tempName i.task.username i.task.path = tempName j.task.username j.task.path

instance (i j : FileJob) : Decidable (SameTempName i j) := inferInstanceAs (Decidable (_ ∧ _))

section System
variable (cwd : List CString) (store : UserStore) (jobs : ι → FileJob)

def FileJob.source (job : FileJob) : Location := locate cwd (job.userPath store)

def FileJob.temp (job : FileJob) : Location := locate cwd job.tempPath

def Started (s : FileSystem ι) (i : ι) : Prop := s.status i ≠ .waiting

/-- A download starts only if its temporary name is not that of another one, and if
none of them downloads a temporary file. -/
def ApartDownloads (s : FileSystem ι) : Label ι → Prop
  | .start i =>
    (jobs i).temp cwd ≠ (jobs i).source cwd store ∧
      ∀ j, j ≠ i → Started s j → ¬ SameTempName (jobs i) (jobs j) ∧
        (jobs i).temp cwd ≠ (jobs j).source cwd store ∧
        (jobs j).temp cwd ≠ (jobs i).source cwd store
  | .move _ => True

end System

section Invariant
variable {cwd : List CString} {store : UserStore} {jobs : ι → FileJob} {files : Files}

theorem temp_ne_of_apart {i j : FileJob} (hi : DownloadJob i) (hj : DownloadJob j)
    (h : ¬ SameTempName i j) : i.temp cwd ≠ j.temp cwd := by
  intro heq
  rw [FileJob.temp, FileJob.temp, FileJob.tempPath, FileJob.tempPath, locate_tempPath,
    locate_tempPath, Place.mk.injEq] at heq
  have hpath := List.append_cancel_left heq.2.2
  exact h ((tempPath_eq_iff hi.user hi.relpath hi.clock hj.user hj.relpath hj.clock).mp
    (List.singleton_inj.mp hpath))

theorem downloadRequest_changes {job : FileJob} {stage : DownloadStage} {r : Request} {c : Cell}
    {mem : Files} (hr : downloadRequest store job stage = some r)
    (hc : Changes mem (locate cwd r.path) r.op c) :
    locate cwd r.path = job.temp cwd ∨
      (mem.node (locate cwd r.path) = .absent ∧ c.node = .dir) := by
  cases stage with
  | mkdir i =>
    obtain rfl := Option.some.inj hr
    cases hc with
    | mkdir habsent => exact Or.inr ⟨habsent, rfl⟩
  | openTemp i =>
    obtain rfl := Option.some.inj hr
    exact Or.inl rfl
  | write i o block =>
    obtain rfl := Option.some.inj hr
    exact Or.inl rfl
  | remove err =>
    obtain rfl := Option.some.inj hr
    exact Or.inl rfl
  | removeLong =>
    obtain rfl := Option.some.inj hr
    exact Or.inl rfl
  | unlinkTemp content =>
    obtain rfl := Option.some.inj hr
    exact Or.inl rfl
  | aborted => contradiction
  | done result content => contradiction
  | _ =>
    obtain rfl := Option.some.inj hr
    cases hc

/-- The invariant of downloads that keep apart. -/
structure Isolated (cwd : List CString) (store : UserStore) (jobs : ι → FileJob) (files : Files)
    (s : FileSystem ι) : Prop where
  sound : s.mem.Sound
  untouched : ∀ l, (∀ j, Started s j → l ≠ (jobs j).temp cwd) → Untouched files s.mem l
  temps : ∀ i j, Started s i → Started s j → i ≠ j → (jobs i).temp cwd ≠ (jobs j).temp cwd
  sources : ∀ i j, Started s i → Started s j →
    (jobs i).temp cwd ≠ (jobs j).source cwd store
  holds : ∀ i p, s.status i = .running p ∨ s.status i = .ended p → p.job = jobs i ∧
    ∃ stage, p.stage = .download stage ∧
      StageHolds files s.mem ((jobs i).source cwd store) ((jobs i).temp cwd) (jobs i).tempPath stage

variable {s : FileSystem ι}

theorem Isolated.sourceUntouched (h : Isolated cwd store jobs files s) {j : ι} (hj : Started s j) :
    Untouched files s.mem ((jobs j).source cwd store) :=
  h.untouched _ fun i hi => (h.sources i j hi hj).symm

theorem firstStage_download (files : Files) {job : FileJob} (h : job.task.type = .download) :
    ∃ stage, firstStage store job = .download stage ∧
      ∀ mem a b temp, StageHolds files mem a b temp stage := by
  unfold firstStage
  rw [h]
  cases job.user store with
  | none => exact ⟨_, rfl, fun _ _ _ _ => trivial⟩
  | some u => exact ⟨_, rfl, fun _ _ _ _ => trivial⟩

theorem Isolated.start [DecidableEq ι] (h : Isolated cwd store jobs files s) {i : ι}
    {changed : ι → Set Location} (hjobs : ∀ i, DownloadJob (jobs i))
    (hwaiting : s.status i = .waiting) (hapart : ApartDownloads cwd store jobs s (.start i)) :
    Isolated cwd store jobs files { s with
      status := Function.update s.status i (.running (startJob store jobs i))
      changed := changed } := by
  have hstarted : ∀ {j}, j ≠ i → Started { s with
      status := Function.update s.status i (.running (startJob store jobs i))
      changed := changed } j → Started s j := by
    intro j hne hj
    simpa [Started, hne] using hj
  obtain ⟨hself, hothers⟩ := hapart
  refine ⟨h.sound, ?_, ?_, ?_, ?_⟩
  · intro l hl
    apply h.untouched
    intro j hj
    apply hl
    rcases eq_or_ne j i with rfl | hne
    · exact absurd hwaiting hj
    · simpa [Started, hne] using hj
  · intro j k hj hk hne
    rcases eq_or_ne j i with rfl | hji
    · exact temp_ne_of_apart (hjobs j) (hjobs k) (hothers k hne.symm (hstarted hne.symm hk)).1
    · rcases eq_or_ne k i with rfl | hki
      · exact (temp_ne_of_apart (hjobs k) (hjobs j) (hothers j hji (hstarted hji hj)).1).symm
      · exact h.temps j k (hstarted hji hj) (hstarted hki hk) hne
  · intro j k hj hk
    rcases eq_or_ne j i with rfl | hji
    · rcases eq_or_ne k j with rfl | hkj
      · exact hself
      · exact (hothers k hkj (hstarted hkj hk)).2.1
    · rcases eq_or_ne k i with rfl | hki
      · exact (hothers j hji (hstarted hji hj)).2.2
      · exact h.sources j k (hstarted hji hj) (hstarted hki hk)
  · intro j p hp
    rcases eq_or_ne j i with rfl | hne
    · simp only [Function.update_self, Status.running.injEq, reduceCtorEq, or_false] at hp
      obtain rfl := hp
      obtain ⟨stage, hstage, hholds⟩ := firstStage_download files (hjobs j).type
      exact ⟨rfl, stage, hstage, hholds _ _ _ _⟩
    · simp only [Function.update_of_ne hne] at hp
      exact h.holds j p hp

theorem Isolated.finish [DecidableEq ι] (h : Isolated cwd store jobs files s) {i : ι}
    {p : FileProcess} (hp : s.status i = .running p) :
    Isolated cwd store jobs files { s with
      status := Function.update s.status i (.ended p)
      order := s.order ++ [i] } := by
  have hstarted : ∀ j, Started { s with
      status := Function.update s.status i (.ended p)
      order := s.order ++ [i] } j ↔ Started s j := by
    intro j
    rcases eq_or_ne j i with rfl | hne
    · simp [Started, hp]
    · simp [Started, hne]
  refine ⟨h.sound, ?_, ?_, ?_, ?_⟩
  · intro l hl
    exact h.untouched l fun j hj => hl j ((hstarted j).mpr hj)
  · intro j k hj hk
    exact h.temps j k ((hstarted j).mp hj) ((hstarted k).mp hk)
  · intro j k hj hk
    exact h.sources j k ((hstarted j).mp hj) ((hstarted k).mp hk)
  · intro j q hq
    rcases eq_or_ne j i with rfl | hne
    · simp only [Function.update_self, Status.ended.injEq, reduceCtorEq, false_or] at hq
      obtain rfl := hq
      exact h.holds j p (Or.inl hp)
    · simp only [Function.update_of_ne hne] at hq
      exact h.holds j q hq

theorem Isolated.call (h : Isolated cwd store jobs files s) {i : ι} {stage : DownloadStage}
    {r : Request} (fault : Option Fault) (hi : Started s i)
    (hr : downloadRequest store (jobs i) stage = some r) :
    (∀ l, (∀ j, Started s j → l ≠ (jobs j).temp cwd) →
      Untouched files (perform cwd fault s.mem r).2 l) ∧
    ∀ j, Started s j → j ≠ i → ∀ k, s.mem.node ((jobs j).temp cwd) = .file k →
      (perform cwd fault s.mem r).2.view ((jobs j).temp cwd) = s.mem.view ((jobs j).temp cwd) := by
  rcases perform_changes cwd fault s.mem r with heq | ⟨c, hc, heq⟩
  · rw [heq]
    exact ⟨h.untouched, fun _ _ _ _ _ => rfl⟩
  · rw [heq]
    have hwhere := downloadRequest_changes hr hc
    refine ⟨?_, ?_⟩
    · intro l hl
      by_cases hlocate : l = locate cwd r.path
      · subst hlocate
        obtain ⟨habsent, hdir⟩ := hwhere.resolve_left (hl i hi)
        right
        refine ⟨?_, ?_⟩
        · rcases h.untouched _ hl with hsame | ⟨hwas, -⟩
          · rw [← habsent, node_congr hsame]
          · exact hwas
        · rw [node_set, if_pos rfl, hdir]
          split <;> rfl
      · rcases h.untouched l hl with hsame | ⟨hwas, hnow⟩
        · left
          rw [view_set, if_neg hlocate, hsame]
        · right
          refine ⟨hwas, ?_⟩
          rw [node_set, if_neg hlocate, hnow]
          split <;> rfl
    · intro j hj hne k hk
      have hother : (jobs j).temp cwd ≠ locate cwd r.path := by
        intro hsame
        rcases hwhere with htemp | ⟨habsent, -⟩
        · exact h.temps j i hj hi hne (hsame.trans htemp)
        · rw [← hsame, hk] at habsent
          simp at habsent
      rw [view_set, if_neg hother]

theorem Isolated.work [DecidableEq ι] (h : Isolated cwd store jobs files s) (hfiles : files.Sound)
    {i : ι} {p : FileProcess} {changed : ι → Set Location} (hp : s.status i = .running p)
    (hd : (fileRequest store p.job p.stage).isNone = false) :
    Isolated cwd store jobs files { s with
      mem := (fileStep cwd store p s.mem).2
      status := Function.update s.status i (.running (fileStep cwd store p s.mem).1)
      changed := changed } := by
  have hstarted : ∀ j, Started { s with
      mem := (fileStep cwd store p s.mem).2
      status := Function.update s.status i (.running (fileStep cwd store p s.mem).1)
      changed := changed } j ↔ Started s j := by
    intro j
    rcases eq_or_ne j i with rfl | hne
    · simp [Started, hp]
    · simp [Started, hne]
  have hi : Started s i := by simp [Started, hp]
  obtain ⟨hjob, stage, hstage, hholds⟩ := h.holds i p (Or.inl hp)
  obtain ⟨r, hr⟩ : ∃ r, fileRequest store p.job p.stage = some r := by
    rw [Option.isNone_eq_false_iff, Option.isSome_iff_exists] at hd
    exact hd
  have hrequest : downloadRequest store (jobs i) stage = some r := by
    rw [hstage, hjob] at hr
    exact hr
  obtain ⟨huntouched, htemps⟩ := h.call (p.job.faults p.calls) hi hrequest
  rw [fileStep_eq hr] at hstarted ⊢
  refine ⟨perform_sound _ _ h.sound, ?_, ?_, ?_, ?_⟩
  · intro l hl
    exact huntouched l fun j hj => hl j ((hstarted j).mpr hj)
  · intro j k hj hk
    exact h.temps j k ((hstarted j).mp hj) ((hstarted k).mp hk)
  · intro j k hj hk
    exact h.sources j k ((hstarted j).mp hj) ((hstarted k).mp hk)
  · intro j q hq
    rcases eq_or_ne j i with rfl | hne
    · simp only [Function.update_self, Status.running.injEq, reduceCtorEq, or_false] at hq
      obtain rfl := hq
      refine ⟨hjob, _, by rw [hstage]; rfl, ?_⟩
      rw [hjob]
      exact downloadResume_holds hrequest (h.sources j j hi hi).symm h.sound hfiles
        (h.sourceUntouched hi) hholds
    · simp only [Function.update_of_ne hne] at hq
      have hj : Started s j := by
        rcases hq with hq | hq
        · simp [Started, hq]
        · simp [Started, hq]
      obtain ⟨hjob', stage', hstage', hholds'⟩ := h.holds j q hq
      refine ⟨hjob', stage', hstage', hholds'.frame ?_ (htemps j hj hne)⟩
      intro src hsrc
      have hafter := huntouched _ fun k hk => (h.sources k j hk hj).symm
      rw [hafter.source hsrc, (h.sourceUntouched hj).source hsrc]

theorem sysStep_isolated [DecidableEq ι] {s' : FileSystem ι} {l : Label ι}
    (hjobs : ∀ i, DownloadJob (jobs i)) (hfiles : files.Sound)
    (h : Isolated cwd store jobs files s) (hl : ApartDownloads cwd store jobs s l)
    (hstep : (fileMachine cwd store).sysStep (startJob store jobs) s l = some s') :
    Isolated cwd store jobs files s' := by
  cases l with
  | start i =>
    simp only [Machine.sysStep] at hstep
    split at hstep
    · rename_i hwaiting
      obtain rfl := Option.some.inj hstep
      exact h.start hjobs hwaiting hl
    · contradiction
  | move i =>
    simp only [Machine.sysStep] at hstep
    split at hstep
    · rename_i p hp
      split at hstep
      · obtain rfl := Option.some.inj hstep
        exact h.finish hp
      · rename_i hd
        obtain rfl := Option.some.inj hstep
        exact h.work hfiles hp (Bool.eq_false_iff.mpr hd)
    · contradiction

end Invariant

theorem downloadResponse_path {store : UserStore} {p : FileProcess} {message : CString}
    (htype : p.job.task.type = .download)
    (h : .sendResponse .ok message ∈ p.responses store) :
    p.stage.results.download = .ok message := by
  unfold FileProcess.responses processTask at h
  rw [htype] at h
  simp only [processDownload] at h
  split at h
  · simp at h
  split at h
  · simp at h
  split at h
  · rename_i u hu
    split at h
    · rename_i path hpath
      have hlow : u.priority ≠ .high := by
        intro hhigh
        exact p.job.not_high store (by rw [hu, Option.map_some, hhigh])
      rw [if_neg hlow] at h
      obtain rfl : message = path := by simpa using h
      exact hpath
    · simp at h
  · simp at h

theorem downloads_isolated [DecidableEq ι] (cwd : List CString) (store : UserStore)
    (jobs : ι → FileJob) (files : Files) (hjobs : ∀ i, DownloadJob (jobs i))
    (hfiles : files.Sound) (s : FileSystem ι)
    (h : FilesReached cwd store jobs files (ApartDownloads cwd store jobs) s) (i : ι)
    (p : FileProcess) (message : CString) (hp : s.status i = .ended p)
    (hok : .sendResponse .ok message ∈ p.responses store) :
    ∃ src, files.contentAt (locate cwd ((jobs i).userPath store)) = some src ∧
      s.mem.contentAt (locate cwd message) = some (codeFile src) := by
  have hisolated : Isolated cwd store jobs files s := by
    apply h.invariant
    · refine ⟨hfiles, fun l _ => Or.inl rfl, ?_, ?_, ?_⟩
      · intro i j hi
        exact absurd rfl hi
      · intro i j hi
        exact absurd rfl hi
      · intro i p hp
        simp [System.start] at hp
    · intro s s' l _ hs hl hstep
      exact sysStep_isolated hjobs hfiles hs hl hstep
  obtain ⟨hjob, stage, hstage, hholds⟩ := hisolated.holds i p (Or.inr hp)
  have hpath := downloadResponse_path (hjob ▸ (hjobs i).type) hok
  rw [hstage] at hpath
  cases stage with
  | done result content =>
    simp only [FileStage.results] at hpath
    subst hpath
    obtain ⟨rfl, hdecoded⟩ := hholds
    exact hdecoded
  | _ => simp [FileStage.results, noResults] at hpath

/-- A store in which `a` and `a_b` have signed up. -/
def twoOwners : UserStore :=
  let one := (userStoreSignup true emptyStore (cstr "a") (cstr "pw") (100 * 2 ^ 20) .normal).2
  (userStoreSignup true one (cstr "a_b") (cstr "pw") (100 * 2 ^ 20) .normal).2

def ownersFiles : Files where
  entries := [(locate [] (cstr "srv/storage/a"), ⟨.dir, []⟩),
    (locate [] (cstr "srv/storage/a_b"), ⟨.dir, []⟩)] ++
    (serverFiles [(cstr "srv/storage/a/b_c", cstr "X"), (cstr "srv/storage/a_b/c", cstr "Y")]).entries

def ownersDownload (user relpath : String) (now : Int) : FileJob where
  task := ⟨taskCreate .download ⟨1, 4⟩ (cstr user) [] (cstr relpath) [] 0 .normal ⟨0, 0⟩,
    Or.inr (Or.inl rfl)⟩
  works := true
  now := now
  faults _ := none

/-- Downloads of `b_c` for `a` in second 5 and of `c` for `a_b`. -/
def twoDownloads (now : Int) : Fin 2 → FileJob
  | 0 => ownersDownload "a" "b_c" 5
  | 1 => ownersDownload "a_b" "c" now

theorem twoDownloads_jobs {now : Int} (hnow : now.natAbs < 2 ^ 63) (i : Fin 2) :
    DownloadJob (twoDownloads now i) := by
  have hfirst : DownloadJob (ownersDownload "a" "b_c" 5) := ⟨rfl, by decide, by decide, by decide⟩
  match i with
  | 0 => exact hfirst
  | 1 => exact ⟨rfl, Nat.le_of_ble_eq_true rfl, Nat.le_of_ble_eq_true rfl, hnow⟩

/-- The second download starts when the first one has been answered. -/
def oneAfterTheOther : List (Label (Fin 2)) :=
  let alone (i : Fin 2) : List (Label (Fin 2)) := Label.start i :: List.replicate 13 (Label.move i)
  alone ⟨0, Nat.zero_lt_two⟩ ++ alone ⟨1, Nat.one_lt_two⟩

/-- The message of a task answered OK. -/
def okMessage (store : UserStore) : Status FileProcess → Option CString
  | .ended p =>
    match p.responses store with
    | [.sendResponse .ok message] => some message
    | _ => none
  | .waiting | .running _ => none

theorem ended_of_okMessage {store : UserStore} {status : Status FileProcess} {message : CString}
    (h : okMessage store status = some message) :
    ∃ p, status = .ended p ∧ .sendResponse .ok message ∈ p.responses store := by
  cases status with
  | ended p =>
    simp only [okMessage] at h
    split at h
    · rename_i m hresponses
      obtain rfl := Option.some.inj h
      exact ⟨p, rfl, by simp [hresponses]⟩
    · contradiction
  | waiting => contradiction
  | running p => contradiction

theorem ownersFiles_sound : ownersFiles.Sound := sound_of_entries (by decide +kernel)

theorem downloads_in_two_seconds :
    ∃ s, FilesReached serverCwd twoOwners (twoDownloads 6) ownersFiles
        (ApartDownloads serverCwd twoOwners (twoDownloads 6)) s ∧
      ∃ message src, okMessage twoOwners (s.status 0) = some message ∧
        ownersFiles.contentAt (locate serverCwd ((twoDownloads 6 0).userPath twoOwners)) = some src ∧
        s.mem.contentAt (locate serverCwd message) = some (codeFile src) := by
  have hjobs : ∀ i, DownloadJob (twoDownloads 6 i) := twoDownloads_jobs (by decide)
  have hview : (exec ((fileMachine serverCwd twoOwners).sysStep
      (startJob twoOwners (twoDownloads 6))) (System.start ownersFiles) oneAfterTheOther).bind
        (fun s => okMessage twoOwners (s.status 0)) =
      some (cstr "_tmp_os_lab7_downloads_a_b_c_5.tmp") := by
    decide +kernel
  obtain ⟨s, hexec, hok⟩ := Option.bind_eq_some_iff.mp hview
  have hapart : ∀ i j : Fin 2, (twoDownloads 6 i).temp serverCwd ≠
      (twoDownloads 6 j).source serverCwd twoOwners ∧
      (i ≠ j → ¬ SameTempName (twoDownloads 6 i) (twoDownloads 6 j)) := by
    decide +kernel
  have hreach : FilesReached serverCwd twoOwners (twoDownloads 6) ownersFiles
      (ApartDownloads serverCwd twoOwners (twoDownloads 6)) s := by
    refine .of_exec .start (guarded_of_forall ?_ _) hexec
    intro l _ s
    cases l with
    | start i =>
      refine ⟨(hapart i i).1, ?_⟩
      intro j hne _
      exact ⟨(hapart i j).2 hne.symm, (hapart i j).1, (hapart j i).1⟩
    | move i => trivial
  obtain ⟨p, hp, hsent⟩ := ended_of_okMessage hok
  obtain ⟨src, hsrc, hcontent⟩ := downloads_isolated serverCwd twoOwners (twoDownloads 6) ownersFiles
    hjobs ownersFiles_sound s hreach 0 p _ hp hsent
  exact ⟨s, hreach, _, src, hok, hsrc, hcontent⟩

theorem downloads_share_name :
    ¬ ∀ (n : Nat) (cwd : List CString) (store : UserStore) (jobs : Fin n → FileJob) (files : Files)
      (s : FileSystem (Fin n)), (∀ i, DownloadJob (jobs i)) →
      (∀ i, (jobs i).task.username ∈ store.names) → files.Sound →
      FilesReached cwd store jobs files (fun _ _ => True) s → ∀ i p message,
      s.status i = .ended p → .sendResponse .ok message ∈ p.responses store →
      ∃ src, files.contentAt (locate cwd ((jobs i).userPath store)) = some src ∧
        s.mem.contentAt (locate cwd message) = some (codeFile src) := by
  intro h
  have hjobs : ∀ i, DownloadJob (twoDownloads 5 i) := twoDownloads_jobs (by decide)
  have hview : (exec ((fileMachine serverCwd twoOwners).sysStep
      (startJob twoOwners (twoDownloads 5))) (System.start ownersFiles) oneAfterTheOther).map
        (fun s => (okMessage twoOwners (s.status 0),
          s.mem.contentAt (locate serverCwd (cstr "_tmp_os_lab7_downloads_a_b_c_5.tmp")))) =
      some (some (cstr "_tmp_os_lab7_downloads_a_b_c_5.tmp"), some (codeFile (cstr "Y"))) := by
    decide +kernel
  obtain ⟨s, hexec, hs⟩ := Option.map_eq_some_iff.mp hview
  obtain ⟨hok, hcontent⟩ := Prod.mk.inj hs
  obtain ⟨p, hp, hsent⟩ := ended_of_okMessage hok
  have hreach : FilesReached serverCwd twoOwners (twoDownloads 5) ownersFiles (fun _ _ => True) s :=
    .of_exec .start (guarded_of_forall (fun _ _ _ => trivial) _) hexec
  obtain ⟨src, hsrc, htemp⟩ := h 2 serverCwd twoOwners (twoDownloads 5) ownersFiles s hjobs
    (by decide +kernel) ownersFiles_sound hreach 0 p _ hp hsent
  have horiginal : ownersFiles.contentAt
      (locate serverCwd ((twoDownloads 5 0).userPath twoOwners)) = some (cstr "X") := by
    decide +kernel
  rw [horiginal] at hsrc
  obtain rfl := Option.some.inj hsrc
  rw [hcontent] at htemp
  exact absurd htemp (by decide +kernel)

end FileServer
