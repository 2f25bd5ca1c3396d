import FileServer.FileSteps

/-!
# Concurrent file tasks of a user

The user lock excludes nobody, so the calls of several workers mix freely. Tasks
that overlap without one changing what another one touches still behave as if
they had run one after the other, in the order in which they ended. Two uploads
to one path that overlap leave a file that is neither of their sources.
-/

namespace FileServer

open LexicalPath Interleaving Runs
set_option autoImplicit false

universe u
variable {ι : Type u}

abbrev FileSystem (ι : Type u) := System Files Location FileProcess ι

section Statement
variable (cwd : List CString) (store : UserStore) (jobs : ι → FileJob) (files : Files)

def startJob (i : ι) : FileProcess := .start store (jobs i)

/-- The states that workers reach whose steps are all allowed. -/
abbrev FilesReached [DecidableEq ι] (allowed : FileSystem ι → Label ι → Prop) :
    FileSystem ι → Prop :=
  Reached ((fileMachine cwd store).sysStep (startJob store jobs)) allowed (System.start files)

/-- The files, every response and every downloaded content are those of some
serial execution of the same tasks. -/
def SerialOutcome (s : FileSystem ι) : Prop :=
  ∃ results files', (fileMachine cwd store).Serial (startJob store jobs) files results files' ∧
    (results.map Prod.fst).Perm s.order ∧
    (∀ l, s.mem.contentAt l = files'.contentAt l) ∧
    ∀ i p, s.status i = .ended p → ∃ p', (i, p') ∈ results ∧
      p.responses store = p'.responses store ∧ p.downloaded = p'.downloaded

end Statement

/-- Tasks of which none changes what another one that runs at the same time
touches end like tasks that ran one after the other. -/
theorem undisturbed_tasks_serialise [DecidableEq ι] (cwd : List CString) (store : UserStore)
    (jobs : ι → FileJob) (files : Files) (s : FileSystem ι)
    (h : FilesReached cwd store jobs files
      ((fileMachine cwd store).Undisturbed (startJob store jobs)) s)
    (hidle : ∀ i p, s.status i ≠ .running p) : SerialOutcome cwd store jobs files s := by
  obtain ⟨results, files', ho⟩ := Machine.ordered_of_reached h
  refine ⟨results, files', ho.serial, ?_, ?_, ?_⟩
  · rw [ho.names]
  · intro l
    apply contentAt_congr
    apply ho.settled
    intro i p hp
    exact absurd hp (hidle i p)
  · intro i p hp
    exact ⟨p, (ho.ended i p).mp hp, rfl, rfl⟩

theorem changes_spare {cwd : List CString} {store : UserStore} {p q : FileProcess}
    {files : Files} {r : Request} (hr : fileRequest store p.job p.stage = some r)
    (hq : ∀ path ∈ q.paths store, locate cwd r.path ∉ touched cwd path) :
    ∀ l ∈ (fileMachine cwd store).changes p files, l ∉ (fileMachine cwd store).foot q := by
  rintro l hchange ⟨path, hpath, htouched⟩
  have hne : l ≠ locate cwd r.path := by
    rintro rfl
    exact hq path hpath htouched
  apply hchange
  change (fileStep cwd store p files).2.view l = files.view l
  unfold fileStep fileCall
  rw [hr]
  exact perform_view_of_ne hne

def aliceStore : UserStore :=
  (userStoreSignup true emptyStore (cstr "alice") (cstr "pw") (100 * 2 ^ 20) .normal).2

def aliceJob (type : CommandType) (relpath tmpfile : String) (size : Nat)
    (h : type = .upload ∨ type = .download ∨ type = .delete) : FileJob where
  task := ⟨taskCreate type ⟨1, 4⟩ (cstr "alice") [] (cstr relpath) (cstr tmpfile) size .normal
    ⟨0, 0⟩, h⟩
  works := true
  now := 0
  faults _ := none

theorem upload_isFile : CommandType.upload = .upload ∨ CommandType.upload = .download ∨
    CommandType.upload = .delete := Or.inl rfl

def aliceUpload (tmpfile : String) : FileJob := aliceJob .upload "x" tmpfile 1 upload_isFile

def serverCwd : List CString := [cstr "srv"]

/-- The directories of a server started in `/srv`, and some files. -/
def serverFiles (contents : List (CString × List Byte)) : Files where
  entries :=
    [(locate [] (cstr "srv"), ⟨.dir, []⟩), (locate [] (cstr "srv/storage"), ⟨.dir, []⟩),
      (locate [] (cstr "srv/storage/alice"), ⟨.dir, []⟩), (locate [] (cstr "tmp"), ⟨.dir, []⟩)] ++
    contents.map fun file => (locate [] file.1, ⟨.file 0, [file.2]⟩)

def notesPath : Location := locate [] (cstr "srv/storage/alice/notes")

def twoDeletes : Fin 2 → FileJob
  | 0 => aliceJob .delete "notes" "" 0 (by decide)
  | 1 => aliceJob .delete "draft" "" 0 (by decide)

def notesAndDraft : Files :=
  serverFiles [(cstr "srv/storage/alice/notes", cstr "n"), (cstr "srv/storage/alice/draft", cstr "d")]

def twoSources : Files := serverFiles [(cstr "tmp/a", cstr "ab"), (cstr "tmp/b", cstr "z")]

def twoUploads : Fin 2 → FileJob
  | 0 => aliceJob .upload "notes" "/tmp/a" 2 (by decide)
  | 1 => aliceJob .upload "notes" "/tmp/b" 1 (by decide)

/-- Both uploads open the destination before either writes to it. -/
def overlapping : List (Label (Fin 2)) :=
  [.start 0, .start 1] ++ List.replicate 5 (.move 0) ++ List.replicate 5 (.move 1) ++
    List.replicate 8 (.move 0) ++ List.replicate 8 (.move 1)

def isRunning : Status FileProcess → Bool
  | .running _ => true
  | .waiting | .ended _ => false

theorem idle_of_isRunning {n : Nat} {s : FileSystem (Fin n)}
    (h : ∀ i, isRunning (s.status i) = false) : ∀ i p, s.status i ≠ .running p := by
  intro i p hp
  have hi := h i
  rw [hp] at hi
  contradiction

def notesThenDraft : List (Label (Fin 2)) :=
  [.start 0, .start 1, .move 0, .move 1, .move 0, .move 1]

theorem guarded_notesThenDraft :
    Guarded ((fileMachine serverCwd aliceStore).sysStep (startJob aliceStore twoDeletes))
      ((fileMachine serverCwd aliceStore).Undisturbed (startJob aliceStore twoDeletes))
      (System.start notesAndDraft) notesThenDraft := by
  refine ⟨?_, ?_⟩
  · intro j q hj
    simp [System.start] at hj
  intro s₁ h₁
  obtain rfl := Option.some.inj h₁
  refine ⟨?_, ?_⟩
  · intro j q hj
    simp [System.start, Function.update_apply]
  intro s₂ h₂
  obtain rfl := Option.some.inj h₂
  refine ⟨?_, ?_⟩
  · intro p hp _ j q hne hq
    obtain rfl : j = 1 := by omega
    obtain rfl := Status.running.inj hp
    obtain rfl := Status.running.inj hq
    exact changes_spare (r := ⟨_, .remove⟩) rfl (by decide +kernel)
  intro s₃ h₃
  obtain rfl := Option.some.inj h₃
  refine ⟨?_, ?_⟩
  · intro p hp _ j q hne hq
    obtain rfl : j = 0 := by omega
    obtain rfl := Status.running.inj hp
    obtain rfl := Status.running.inj hq
    exact changes_spare (r := ⟨_, .remove⟩) rfl (by decide +kernel)
  intro s₄ h₄
  obtain rfl := Option.some.inj h₄
  refine ⟨?_, ?_⟩
  · intro p hp hd
    obtain rfl := Status.running.inj hp
    contradiction
  intro s₅ h₅
  obtain rfl := Option.some.inj h₅
  refine ⟨?_, fun _ _ => trivial⟩
  intro p hp hd
  obtain rfl := Status.running.inj hp
  contradiction

theorem overlapping_deletes_serialise :
    ∃ s, FilesReached serverCwd aliceStore twoDeletes notesAndDraft
        ((fileMachine serverCwd aliceStore).Undisturbed (startJob aliceStore twoDeletes)) s ∧
      (∀ i p, s.status i ≠ .running p) ∧ s.order = [0, 1] ∧
      SerialOutcome serverCwd aliceStore twoDeletes notesAndDraft s := by
  have hview : (exec ((fileMachine serverCwd aliceStore).sysStep (startJob aliceStore twoDeletes))
      (System.start notesAndDraft) notesThenDraft).map
        (fun s => (s.order, isRunning (s.status 0), isRunning (s.status 1))) =
      some ([0, 1], false, false) := by
    decide +kernel
  obtain ⟨s, hexec, hs⟩ := Option.map_eq_some_iff.mp hview
  obtain ⟨horder, hs⟩ := Prod.mk.inj hs
  have hidle := idle_of_isRunning (Fin.forall_fin_two.mpr (Prod.mk.inj hs))
  have hreach : FilesReached serverCwd aliceStore twoDeletes notesAndDraft
      ((fileMachine serverCwd aliceStore).Undisturbed (startJob aliceStore twoDeletes)) s :=
    .of_exec .start guarded_notesThenDraft hexec
  exact ⟨s, hreach, hidle, horder,
    undisturbed_tasks_serialise serverCwd aliceStore twoDeletes notesAndDraft s hreach hidle⟩

/-- Two uploads of `alice` to one path, of `ab` and of `z`, store the encoding of `zb`. -/
theorem overlapping_uploads_mix :
    ¬ ∀ (n : Nat) (cwd : List CString) (store : UserStore) (user : CString) (files : Files)
      (jobs : Fin n → FileJob) (s : FileSystem (Fin n)), user ∈ store.names →
      (∀ i, (jobs i).task.username = user) →
      FilesReached cwd store jobs files (fun _ _ => True) s →
      (∀ i p, s.status i ≠ .running p) → SerialOutcome cwd store jobs files s := by
  intro h
  have hview : (exec ((fileMachine serverCwd aliceStore).sysStep (startJob aliceStore twoUploads))
      (System.start twoSources) overlapping).map (fun s => (s.order, s.mem.contentAt notesPath,
        isRunning (s.status 0), isRunning (s.status 1))) =
      some ([0, 1], some (encodeData (cstr "zb")), false, false) := by
    decide +kernel
  obtain ⟨s, hexec, hs⟩ := Option.map_eq_some_iff.mp hview
  obtain ⟨horder, hs⟩ := Prod.mk.inj hs
  obtain ⟨hcontent, hs⟩ := Prod.mk.inj hs
  have hreach : FilesReached serverCwd aliceStore twoUploads twoSources (fun _ _ => True) s :=
    .of_exec .start (guarded_of_forall (fun _ _ _ => trivial) _) hexec
  have hidle := idle_of_isRunning (Fin.forall_fin_two.mpr (Prod.mk.inj hs))
  obtain ⟨results, files', hserial, hperm, hsame, _⟩ := h 2 serverCwd aliceStore (cstr "alice")
    twoSources twoUploads s (by decide) (by decide) hreach hidle
  rw [horder] at hperm
  obtain ⟨i, j, hnames⟩ := List.length_eq_two.mp hperm.length_eq
  rw [hnames] at hperm
  have hserially : ∀ i j : Fin 2, [i, j].Perm [0, 1] → ([i, j].foldlM (fun m k =>
      ((fileMachine serverCwd aliceStore).runToEnd 12 (startJob aliceStore twoUploads k) m).map
        Prod.snd) twoSources).any (fun m => m.contentAt notesPath ≠ some (encodeData (cstr "zb"))) := by
    decide +kernel
  obtain ⟨m, hm, hne⟩ := (Option.any_eq_true _ _).mp (hserially i j hperm)
  rw [← hnames] at hm
  obtain rfl := hserial.mem_unique hm
  rw [← hsame, hcontent] at hne
  simp at hne

end FileServer
