import FileServer.FsUpload

/-!
# Uploads that fail (fs_upload in fs.c)

A call of `fs_upload` that fails before it opens its destination leaves the file there
as it was, and so does one that finds no file there and whose writes all succeed. A file
that it did find is gone; and after a failing write a part of the new one stands.
-/

namespace FileServer

open LexicalPath Dialogue
set_option autoImplicit false

def UploadStage.fails : UploadStage → Prop
  | .aborted | .done _ (.error _) => True
  | _ => False

def FsUploadFails (cwd : List CString) (store : UserStore) (job : FileJob)
    (faults : Nat → Option Fault) (files : Files) (trace : List UploadEvent) (mem : Files) : Prop :=
  ∃ stage, FsUploadRuns cwd store job faults files trace stage mem ∧ stage.fails

/-- What an upload that found no file at its destination has read. -/
def UploadReads (files : Files) (a : Location) : UploadStage → Prop
  | .openOut i | .read i _ => ∀ k, i.inode = some k → files.node a = .file k
  | .encode i _ _ | .write i _ _ =>
    (∀ k, i.inode = some k → files.node a = .file k) ∧ ∃ src, files.contentAt a = some src ∧ src ≠ []
  | .aborted => ∃ src, files.contentAt a = some src ∧ src ≠ []
  | _ => True

section Reads
variable {cwd : List CString} {store : UserStore} {job : FileJob} {files mem : Files}
  {fault : Option Fault} {errno : CString} {i o : Handle}

theorem fread_reads (hsource : Untouched files mem (locate cwd job.task.tmpfile))
    (h : ∀ k, i.inode = some k → files.node (locate cwd job.task.tmpfile) = .file k)
    (hne : (fread cwd mem job.task.tmpfile fault i).bytes ≠ []) :
    ∃ src, files.contentAt (locate cwd job.task.tmpfile) = some src ∧ src ≠ [] := by
  cases hk : i.inode with
  | none => simp [fread, hk] at hne
  | some k =>
    have hfile := h k hk
    have hview : mem.view (locate cwd job.task.tmpfile) =
        files.view (locate cwd job.task.tmpfile) := by
      rcases hsource with hsame | ⟨habsent, -⟩
      · exact hsame
      · rw [hfile] at habsent
        contradiction
    have hsome : (files.view (locate cwd job.task.tmpfile)).inodes[k]?.getD [] ≠ [] := by
      intro hnil
      unfold fread at hne
      cases fault with
      | none => simp [hk, hview, hnil] at hne
      | some f => simp [hk, hview, hnil] at hne
    cases hsrc : (files.view (locate cwd job.task.tmpfile)).inodes[k]? with
    | none => simp [hsrc] at hsome
    | some src =>
      refine ⟨src, ?_, by simpa [hsrc] using hsome⟩
      rw [Files.contentAt, hfile]
      exact hsrc

theorem uploadResume_reads {stage : UploadStage} {r : Request}
    (hr : uploadRequest store job stage = some r)
    (hsource : Untouched files mem (locate cwd job.task.tmpfile))
    (h : UploadReads files (locate cwd job.task.tmpfile) stage) :
    UploadReads files (locate cwd job.task.tmpfile)
      (uploadResume errno (perform cwd fault mem r).1 stage) := by
  cases stage with
  | openIn =>
    obtain rfl := Option.some.inj hr
    simp only [uploadResume]
    split
    · rename_i hok
      obtain ⟨inode, heq, hnode⟩ := perform_fopenRead_ok hok
      rw [heq]
      intro k hk
      obtain rfl : inode = some k := hk
      rcases hnode with ⟨hnone, -⟩ | ⟨k', hk', hfile⟩
      · contradiction
      · obtain rfl := Option.some.inj hk'
        exact (hsource.file hfile).2
    · trivial
  | openOut i =>
    simp only [uploadResume]
    split
    · exact h
    · trivial
  | read i o =>
    obtain rfl := Option.some.inj hr
    simp only [uploadResume]
    split
    · trivial
    · rename_i hne
      refine ⟨?_, fread_reads hsource h hne⟩
      intro k hk
      exact h k (fread_inode.symm.trans hk)
  | encode i o block =>
    simp only [uploadResume]
    split
    · exact h
    · trivial
  | write i o block =>
    simp only [uploadResume]
    split
    · exact h.1
    · exact h.2
  | testTmpfile =>
    simp only [uploadResume]
    split <;> trivial
  | mkdir =>
    simp only [uploadResume]
    split <;> trivial
  | closeOut failure =>
    cases failure with
    | some err => trivial
    | none =>
      simp only [uploadResume]
      split <;> trivial
  | aborted => contradiction
  | done opens result => contradiction
  | _ => trivial

theorem fsUpload_reads {faults : Nat → Option Fault} {trace : List UploadEvent}
    {stage : UploadStage} (h : FsUploadRuns cwd store job faults files trace stage mem)
    (hab : locate cwd job.task.tmpfile ≠ locate cwd (job.userPath store)) :
    UploadReads files (locate cwd job.task.tmpfile) stage := by
  obtain ⟨errno, errno', hrun⟩ := h
  have hboth : UploadReads files (locate cwd job.task.tmpfile) stage ∧
      Untouched files mem (locate cwd job.task.tmpfile) := by
    refine hrun.invariant (I := fun _ s mem =>
      UploadReads files (locate cwd job.task.tmpfile) s.2 ∧
        Untouched files mem (locate cwd job.task.tmpfile)) ?_ ?_
    · exact ⟨trivial, Or.inl rfl⟩
    · rintro trace ⟨errno, stage⟩ mem r fault ⟨hreads, hsource⟩ hr
      exact ⟨uploadResume_reads (fsUpload_request hr).2 hsource hreads,
        fsUpload_untouched hr hab hsource⟩
  exact hboth.1

end Reads

/-- `fs_upload`, called with a value of `errno`, comes to a stage after some calls, all of
them good. -/
def FsUploadComes (good : UploadEvent → Prop) (errno₀ : CString) (cwd : List CString)
    (store : UserStore) (job : FileJob) (faults : Nat → Option Fault) (files : Files) (calls : Nat)
    (stage : UploadStage) (mem : Files) : Prop :=
  ∃ trace errno, Run (fsUpload store job) (perform cwd) faults (errno₀, .mkdir) files trace
    (errno, stage) mem ∧ trace.length = calls ∧ ∀ e ∈ trace, good e

section Comes
variable {good : UploadEvent → Prop} {cwd : List CString} {store : UserStore} {job : FileJob}
  {files mem mem' : Files} {faults : Nat → Option Fault} {calls : Nat} {stage stage' : UploadStage}
  {r : Request} {a : CallAnswer} {errno₀ : CString}

theorem fsUploadComes_start : FsUploadComes good errno₀ cwd store job faults files 0 .mkdir files :=
  ⟨[], errno₀, .nil, rfl, by simp⟩

theorem FsUploadComes.runs (h : FsUploadComes good errno₀ cwd store job faults files calls stage mem) :
    ∃ trace, FsUploadRuns cwd store job faults files trace stage mem ∧ ∀ e ∈ trace, good e := by
  obtain ⟨trace, errno, hrun, -, hall⟩ := h
  exact ⟨trace, ⟨errno₀, errno, hrun⟩, hall⟩

theorem FsUploadComes.step (h : FsUploadComes good errno₀ cwd store job faults files calls stage mem)
    (hr : ∀ errno, (fsUpload store job).request (errno, stage) = some r)
    (hp : perform cwd (faults calls) mem r = (a, mem'))
    (hgood : ∀ errno, good ⟨(errno, stage), faults calls, a⟩) :
    ∃ errno, FsUploadComes good errno₀ cwd store job faults files (calls + 1) (uploadResume errno a stage)
      mem' := by
  obtain ⟨trace, errno, hrun, hlength, hall⟩ := h
  have hnext := Run.call hrun (hr errno)
  rw [hlength, hp] at hnext
  refine ⟨a.error.getD errno, _, _, hnext, by simp [hlength], ?_⟩
  intro e he
  rcases List.mem_append.mp he with hold | hnew
  · exact hall e hold
  · obtain rfl := List.mem_singleton.mp hnew
    exact hgood errno

theorem FsUploadComes.call (h : FsUploadComes good errno₀ cwd store job faults files calls stage mem)
    (hr : ∀ errno, (fsUpload store job).request (errno, stage) = some r)
    (hp : perform cwd (faults calls) mem r = (a, mem'))
    (hgood : ∀ errno, good ⟨(errno, stage), faults calls, a⟩)
    (hs : ∀ errno, uploadResume errno a stage = stage') :
    FsUploadComes good errno₀ cwd store job faults files (calls + 1) stage' mem' := by
  obtain ⟨errno, hnext⟩ := h.step hr hp hgood
  rwa [hs] at hnext

theorem fsUpload_to_read (errno₀ : CString) (hgood : ∀ e : UploadEvent, e.fault = none → good e)
    (hfaults : ∀ n, n < 3 → faults n = none) (h : FsUploadOpens cwd store job files) :
    ∃ o mem, FsUploadComes good errno₀ cwd store job faults files 3 (.read (fopenRead cwd
      (withUserDirectory cwd store job.task.username files) job.task.tmpfile).handle o) mem := by
  have h₁ : FsUploadComes good errno₀ cwd store job faults files 1 .openIn
      (withUserDirectory cwd store job.task.username files) := by
    refine fsUploadComes_start.call (fun _ => rfl)
      (a := (mkdir cwd files (userDirectory store job.task.username)).1) ?_
      (fun _ => hgood _ (hfaults 0 (by decide))) ?_
    · rw [hfaults 0 (by decide)]
      exact perform_mkdir _
    · intro errno
      simp only [uploadResume, if_pos h.directory]
  have h₂ : FsUploadComes good errno₀ cwd store job faults files 2 (.openOut (fopenRead cwd
      (withUserDirectory cwd store job.task.username files) job.task.tmpfile).handle)
      (withUserDirectory cwd store job.task.username files) := by
    refine h₁.call (fun _ => rfl) (a := fopenRead cwd
      (withUserDirectory cwd store job.task.username files) job.task.tmpfile) ?_
      (fun _ => hgood _ (hfaults 1 (by decide))) ?_
    · rw [hfaults 1 (by decide)]
      rfl
    · intro errno
      simp only [uploadResume, if_pos h.source]
  have hopen : (perform cwd none (withUserDirectory cwd store job.task.username files)
      ⟨job.userPath store, .fopenWrite⟩).1.error = none := by
    rw [perform_fopenWrite]
    exact h.destination
  have hperform : perform cwd (faults 2) (withUserDirectory cwd store job.task.username files)
      ⟨job.userPath store, .fopenWrite⟩ =
      ((perform cwd none (withUserDirectory cwd store job.task.username files)
          ⟨job.userPath store, .fopenWrite⟩).1,
        (perform cwd none (withUserDirectory cwd store job.task.username files)
          ⟨job.userPath store, .fopenWrite⟩).2) := by
    rw [hfaults 2 (by decide)]
  obtain ⟨errno, h₃⟩ := h₂.step (fun _ => rfl) hperform fun _ => hgood _ (hfaults 2 (by decide))
  simp only [uploadResume, if_pos hopen] at h₃
  exact ⟨_, _, h₃⟩

end Comes

def RemoveWorks (e : UploadEvent) : Prop := ∀ err, e.stage.2 = .remove err → e.fault = none

def WriteWorks (e : UploadEvent) : Prop := e.stage.2.writes → e.fault = none

/-- Whenever `fs_upload`, after calls that are all allowed, is over without having returned
true, the file at its destination is what it was before, if there was one, and there is
none otherwise. -/
def UploadAtomic (allowed : UploadEvent → Prop) (cwd : List CString) (store : UserStore)
    (job : FileJob) (files : Files) : Prop :=
  ∀ faults, GenuineFaults faults → ∀ trace mem,
    FsUploadFails cwd store job faults files trace mem → (∀ e ∈ trace, allowed e) →
    mem.contentAt (locate cwd (job.userPath store)) =
      files.contentAt (locate cwd (job.userPath store))

def HasBlock (cwd : List CString) (job : FileJob) (files : Files) : Prop :=
  ∃ src, files.contentAt (locate cwd job.task.tmpfile) = some src ∧ src ≠ []

def faultAt (call : Nat) (errno : String) (n : Nat) : Option Fault :=
  if n = call then some ⟨cstr errno, 0⟩ else none

theorem faultAt_of_ne {call n : Nat} {errno : String} (h : n ≠ call) : faultAt call errno n = none :=
  if_neg h

theorem faultAt_genuine {call : Nat} {errno : String} (h : cstr errno ≠ eexist) :
    GenuineFaults (faultAt call errno) := by
  intro n f hf
  unfold faultAt at hf
  split at hf
  · obtain rfl := Option.some.inj hf
    exact h
  · contradiction

def firstReadFault : Nat → Option Fault := faultAt 3 "Input/output error"

def firstWriteFault : Nat → Option Fault := faultAt 5 "No space left on device"

theorem firstReadFault_genuine : GenuineFaults firstReadFault := faultAt_genuine (by decide)

theorem firstWriteFault_genuine : GenuineFaults firstWriteFault := faultAt_genuine (by decide)

section Fails
variable {cwd : List CString} {store : UserStore} {job : FileJob} {files mem : Files}
  {trace : List UploadEvent} {faults : Nat → Option Fault} {stage : UploadStage}

theorem sparesRemove_of_none {e : UploadEvent} (h : e.fault = none) : SparesRemove e :=
  ⟨fun _ f hf => by simp [h] at hf, fun _ _ => h⟩

theorem firstReadFault_fails (h : FsUploadOpens cwd store job files) :
    ∃ trace mem, FsUploadReturns cwd store job firstReadFault files trace false mem ∧
      (∀ e ∈ trace, RemoveWorks e ∧ WriteWorks e) ∧
      mem.node (locate cwd (job.userPath store)) = .absent := by
  have hnone : ∀ n, n ≠ 3 → firstReadFault n = none := fun n hn => faultAt_of_ne hn
  have hgood : ∀ e : UploadEvent, e.fault = none → SparesRemove e ∧ WriteWorks e :=
    fun e he => ⟨sparesRemove_of_none he, fun _ => he⟩
  obtain ⟨o, mem, h₃⟩ :=
    fsUpload_to_read [] hgood (fun n hn => hnone n (Nat.ne_of_lt hn)) h
  have hopen : DestinationOpen cwd (job.userPath store) mem := by
    obtain ⟨trace, hruns, hall⟩ := h₃.runs
    exact (fsUpload_leaves hruns fun e he => (hall e he).1).1.1.2
  generalize (fopenRead cwd (withUserDirectory cwd store job.task.username files)
    job.task.tmpfile).handle = i at h₃
  have hbytes : (fread cwd mem job.task.tmpfile (firstReadFault 3) i).bytes = [] ∧
      (fread cwd mem job.task.tmpfile (firstReadFault 3) i).handle.error = true := by
    refine ⟨?_, fread_error_of_fault⟩
    unfold fread
    split
    · rfl
    · simp [firstReadFault, faultAt]
  obtain ⟨errno, h₄⟩ := h₃.step (fun _ => rfl) perform_fread
    fun _ => ⟨⟨by simp, by simp⟩, fun hwrites => absurd hwrites id⟩
  simp only [uploadResume, if_pos hbytes.1, uploadResume.leave, if_pos hbytes.2] at h₄
  have h₅ := h₄.call (fun _ => rfl) perform_plain (fun _ => hgood _ (hnone 4 (by decide)))
    fun _ => rfl
  have h₆ := h₅.call (fun _ => rfl) perform_plain (fun _ => hgood _ (hnone 5 (by decide)))
    fun _ => rfl
  have hremove : perform cwd (firstReadFault 6) mem ⟨job.userPath store, .remove⟩ =
      perform cwd none mem ⟨job.userPath store, .remove⟩ := by
    rw [hnone 6 (by decide)]
  have h₇ := h₆.call (fun _ => rfl) hremove (fun _ => hgood _ (hnone 6 (by decide))) fun _ => rfl
  obtain ⟨trace, hruns, hall⟩ := h₇.runs
  exact ⟨trace, _, ⟨_, hruns, rfl⟩, fun e he => ⟨(hall e he).1.2, (hall e he).2⟩, hopen.remove⟩

theorem firstWriteFault_to_write (hsound : files.Sound) (h : FsUploadOpens cwd store job files)
    (hab : locate cwd job.task.tmpfile ≠ locate cwd (job.userPath store))
    (hblock : HasBlock cwd job files) (errno₀ : CString) :
    ∃ i o block mem, FsUploadComes SparesRemove errno₀ cwd store job firstWriteFault files 5
        (.write i o block) mem ∧
      (perform cwd (firstWriteFault 5) mem
        ⟨job.userPath store, .fwrite o (encodeData block)⟩).1.error ≠ none := by
  obtain ⟨src, hsrc, hsome⟩ := hblock
  obtain ⟨k, hk, -⟩ := contentAt_file hsrc
  have hnone : ∀ n, n ≠ 5 → firstWriteFault n = none := fun n hn => faultAt_of_ne hn
  have hgood : ∀ e : UploadEvent, e.fault = none → SparesRemove e := fun e => sparesRemove_of_none
  obtain ⟨o, mem, h₃⟩ :=
    fsUpload_to_read errno₀ hgood (fun n hn => hnone n (by omega)) h
  have hopened : fopenRead cwd (withUserDirectory cwd store job.task.username files)
      job.task.tmpfile = opened (some k) := by
    apply fopenRead_of_node (fopenRead_of_ok h.source).1
    refine Or.inr ⟨k, rfl, ?_⟩
    rw [withUserDirectory, node_congr (mkdir_keeps (by simp [hk])), hk]
  rw [hopened] at h₃
  have hread : ReadsOn files mem (locate cwd job.task.tmpfile) (locate cwd (job.userPath store))
      (openedOn (some k)) o := by
    obtain ⟨trace, hruns, -⟩ := h₃.runs
    exact (fsUpload_holds hsound hab hruns).1
  have hsteady : ¬ Flawed (openedOn (some k)) := by simp [Flawed, openedOn]
  obtain ⟨src', n, hsrc', hcopy, hn⟩ := hread.resolve_left hsteady
  obtain rfl : src = src' := Option.some.inj (hsrc.symm.trans hsrc')
  obtain rfl : 0 = n := hn
  have hne : nextBlock src 0 ≠ [] := by
    intro hnil
    exact hsome (List.length_eq_zero_iff.mp ((nextBlock_eq_nil (Nat.zero_le _)).mp hnil).symm)
  have hfread : perform cwd (firstWriteFault 3) mem ⟨job.task.tmpfile, .fread (openedOn (some k))⟩ =
      (⟨none, { openedOn (some k) with offset := 0 + (nextBlock src 0).length },
        nextBlock src 0⟩, mem) := by
    rw [hnone 3 (by decide)]
    simp only [perform, respond, hcopy.fread rfl]
  have h₄ := h₃.call (fun _ => rfl) hfread (fun _ => hgood _ (hnone 3 (by decide)))
    fun _ => if_neg hne
  have h₅ : FsUploadComes SparesRemove errno₀ cwd store job firstWriteFault files 5 (.write
      { openedOn (some k) with offset := 0 + (nextBlock src 0).length } o (nextBlock src 0)) mem := by
    refine h₄.call (a := succeeded) (fun _ => rfl) ?_ (fun _ => hgood _ (hnone 4 (by decide)))
      fun _ => rfl
    rw [hnone 4 (by decide)]
    rfl
  obtain ⟨m, hm, -⟩ := hcopy.copy
  refine ⟨_, _, _, _, h₅, ?_⟩
  rw [Ne, fwrite_error_iff hm]
  simp [firstWriteFault, faultAt]

theorem firstWriteFault_fails (hsound : files.Sound) (h : FsUploadOpens cwd store job files)
    (hab : locate cwd job.task.tmpfile ≠ locate cwd (job.userPath store))
    (hblock : HasBlock cwd job files) :
    ∃ trace mem, FsUploadRuns cwd store job firstWriteFault files trace .aborted mem ∧
      (∀ e ∈ trace, RemoveWorks e) ∧
      ∃ k, mem.node (locate cwd (job.userPath store)) = .file k := by
  obtain ⟨i, o, block, mem, h₅, hfailed⟩ := firstWriteFault_to_write hsound h hab hblock []
  have h₆ := h₅.call (fun _ => rfl) rfl (fun _ => ⟨by simp, by simp⟩) fun _ => if_neg hfailed
  obtain ⟨trace, hruns, hall⟩ := h₆.runs
  exact ⟨trace, _, hruns, fun e he => (hall e he).2, (fsUpload_leaves hruns hall).1.2.file⟩

theorem fsUpload_sound (hsound : files.Sound)
    (h : FsUploadRuns cwd store job faults files trace stage mem) : mem.Sound := by
  obtain ⟨errno, errno', hrun⟩ := h
  refine hrun.invariant (I := fun _ _ mem => mem.Sound) hsound ?_
  intro trace s mem r fault hmem _
  exact perform_sound fault r hmem

theorem contentAt_of_file (hsound : mem.Sound) {l : Location} {k : Nat}
    (hk : mem.node l = .file k) : mem.contentAt l ≠ none := by
  have hvalid := hsound l k hk
  rw [Files.contentAt, hk]
  simp [List.getElem?_eq_getElem hvalid]

theorem FsUploadReturns.fails
    (h : FsUploadReturns cwd store job faults files trace false mem) :
    FsUploadFails cwd store job faults files trace mem := by
  obtain ⟨stage, hruns, hstage⟩ := h
  refine ⟨stage, hruns, ?_⟩
  cases stage with
  | done opens result =>
    cases result with
    | ok _ => simp [UploadStage.returned] at hstage
    | error err => trivial
  | unlinkTmpfile => simp [UploadStage.returned] at hstage
  | _ => contradiction

theorem apart_of_fresh (hsound : files.Sound) (h : FsUploadOpens cwd store job files)
    (hfresh : files.contentAt (locate cwd (job.userPath store)) = none) :
    locate cwd job.task.tmpfile ≠ locate cwd (job.userPath store) := by
  intro hab
  obtain ⟨-, inode, -, ⟨-, hdir⟩ | ⟨k, -, hk⟩⟩ := fopenRead_of_ok h.source
  · rw [hab] at hdir
    exact fopenWrite_not_dir h.destination hdir
  · have hmade : (withUserDirectory cwd store job.task.username files).Sound :=
      perform_sound none _ hsound
    have hstored := contentAt_of_file hmade hk
    rw [withUserDirectory_contentAt, hab] at hstored
    exact hstored hfresh

theorem fails_cases (hgenuine : GenuineFaults faults)
    (h : FsUploadFails cwd store job faults files trace mem) (hremove : ∀ e ∈ trace, RemoveWorks e) :
    mem.contentAt (locate cwd (job.userPath store)) =
        files.contentAt (locate cwd (job.userPath store)) ∨
      (FsUploadOpens cwd store job files ∧
        mem.contentAt (locate cwd (job.userPath store)) = none) ∨
      (FsUploadRuns cwd store job faults files trace .aborted mem ∧
        FsUploadOpens cwd store job files ∧ ¬ ∀ e ∈ trace, WriteWorks e) := by
  obtain ⟨stage, hruns, hfails⟩ := h
  have hspares : ∀ e ∈ trace, SparesRemove e := by
    intro e he
    refine ⟨?_, hremove e he⟩
    obtain ⟨errno, errno', hrun⟩ := hruns
    obtain ⟨n, hn⟩ := hrun.mem_fault e he
    intro _ f hf
    exact hgenuine n f (hn ▸ hf)
  obtain ⟨hleaves, haborted⟩ := fsUpload_leaves hruns hspares
  cases stage with
  | aborted =>
    refine Or.inr (Or.inr ⟨hruns, hleaves.1, ?_⟩)
    intro hwrites
    obtain ⟨e, he, hwrite, hfault⟩ := haborted rfl
    exact hfault (hwrites e he hwrite)
  | done opens result =>
    cases result with
    | ok _ => exact absurd hleaves id
    | error err =>
      rcases hleaves with hsame | ⟨hopens, hgone⟩
      · exact Or.inl hsame
      · refine Or.inr (Or.inl ⟨hopens, ?_⟩)
        rw [Files.contentAt, hgone]
  | _ => exact absurd hfails id

end Fails

theorem fs_upload_atomic_iff (cwd : List CString) (store : UserStore) (job : FileJob)
    (files : Files) (hsound : files.Sound) :
    (UploadAtomic RemoveWorks cwd store job files ↔
      ¬ (FsUploadOpens cwd store job files ∧
        (files.contentAt (locate cwd (job.userPath store)) ≠ none ∨ HasBlock cwd job files))) ∧
    (UploadAtomic (fun e => RemoveWorks e ∧ WriteWorks e) cwd store job files ↔
      ¬ (FsUploadOpens cwd store job files ∧
        files.contentAt (locate cwd (job.userPath store)) ≠ none)) := by
  have hfaulty : FsUploadOpens cwd store job files →
      files.contentAt (locate cwd (job.userPath store)) ≠ none →
      ¬ UploadAtomic (fun e => RemoveWorks e ∧ WriteWorks e) cwd store job files := by
    intro hopens hstored hatomic
    obtain ⟨trace, mem, hreturns, hall, hgone⟩ := firstReadFault_fails hopens
    have hsame := hatomic _ firstReadFault_genuine trace mem hreturns.fails hall
    rw [Files.contentAt, hgone] at hsame
    exact hstored hsame.symm
  refine ⟨⟨?_, ?_⟩, ⟨?_, ?_⟩⟩
  · rintro hatomic ⟨hopens, hcases⟩
    have hfresh : files.contentAt (locate cwd (job.userPath store)) = none := by
      by_contra hstored
      refine hfaulty hopens hstored ?_
      intro faults hgenuine trace mem hfails hall
      exact hatomic faults hgenuine trace mem hfails fun e he => (hall e he).1
    have hblock := hcases.resolve_left fun hstored => hstored hfresh
    have hab : locate cwd job.task.tmpfile ≠ locate cwd (job.userPath store) := by
      intro hab
      obtain ⟨src, hsrc, -⟩ := hblock
      rw [hab, hfresh] at hsrc
      contradiction
    obtain ⟨trace, mem, hruns, hall, k, hk⟩ := firstWriteFault_fails hsound hopens hab hblock
    have hsame := hatomic _ firstWriteFault_genuine trace mem ⟨_, hruns, trivial⟩ hall
    exact contentAt_of_file (fsUpload_sound hsound hruns) hk (hsame.trans hfresh)
  · intro hnot faults hgenuine trace mem hfails hremove
    rcases fails_cases hgenuine hfails hremove with hsame | ⟨hopens, hgone⟩ | ⟨hruns, hopens, -⟩
    · exact hsame
    · have hfresh : files.contentAt (locate cwd (job.userPath store)) = none := by
        by_contra hstored
        exact hnot ⟨hopens, Or.inl hstored⟩
      rw [hgone, hfresh]
    · have hfresh : files.contentAt (locate cwd (job.userPath store)) = none := by
        by_contra hstored
        exact hnot ⟨hopens, Or.inl hstored⟩
      have hblock : HasBlock cwd job files :=
        fsUpload_reads hruns (apart_of_fresh hsound hopens hfresh)
      exact absurd ⟨hopens, Or.inr hblock⟩ hnot
  · exact fun hatomic h => hfaulty h.1 h.2 hatomic
  · intro hnot faults hgenuine trace mem hfails hall
    rcases fails_cases hgenuine hfails fun e he => (hall e he).1 with
      hsame | ⟨hopens, hgone⟩ | ⟨-, -, hwrites⟩
    · exact hsame
    · have hfresh : files.contentAt (locate cwd (job.userPath store)) = none := by
        by_contra hstored
        exact hnot ⟨hopens, hstored⟩
      rw [hgone, hfresh]
    · exact absurd (fun e he => (hall e he).2) hwrites

/-- A failing write leaves a part of a fresh `x` in `UPLOAD alice x 1 /tmp/s`, other faults
do not. -/
theorem fresh_upload_atomic :
    rootAndTmp.Sound ∧
    ¬ UploadAtomic RemoveWorks [cstr "srv"] aliceAndBob (aliceUpload "/tmp/s") rootAndTmp ∧
    UploadAtomic (fun e => RemoveWorks e ∧ WriteWorks e) [cstr "srv"] aliceAndBob
      (aliceUpload "/tmp/s") rootAndTmp := by
  obtain ⟨hall, hwrites⟩ := fs_upload_atomic_iff [cstr "srv"] aliceAndBob (aliceUpload "/tmp/s")
    rootAndTmp rootAndTmp_sound
  refine ⟨rootAndTmp_sound, ?_, hwrites.mpr ?_⟩
  · rw [hall]
    have hblock : HasBlock [cstr "srv"] (aliceUpload "/tmp/s") rootAndTmp :=
      ⟨cstr "s", by decide +kernel, by decide⟩
    exact fun hnot => hnot ⟨rootAndTmp_opens, Or.inr hblock⟩
  · rintro ⟨-, hstored⟩
    exact hstored (by decide +kernel)

def rootWithFile : Files where
  entries := rootAndTmp.entries ++ [(locate [] (cstr "srv/storage/alice"), ⟨.dir, []⟩),
    (locate [] (cstr "srv/storage/alice/x"), ⟨.file 0, [cstr "old"]⟩)]

/-- A read error in `UPLOAD alice x 1 /tmp/s` removes the `x` that was there. -/
theorem failed_upload_loses_file :
    ¬ ∀ (cwd : List CString) (store : UserStore) (job : FileJob) (files : Files), files.Sound →
      ∀ faults, GenuineFaults faults → ∀ trace mem,
        FsUploadReturns cwd store job faults files trace false mem →
        (∀ e ∈ trace, RemoveWorks e) →
        mem.contentAt (locate cwd (job.userPath store)) =
          files.contentAt (locate cwd (job.userPath store)) := by
  intro h
  have hopens : FsUploadOpens [cstr "srv"] aliceAndBob (aliceUpload "/tmp/s") rootWithFile :=
    ⟨by decide +kernel, by decide +kernel, by decide +kernel⟩
  have hsound : rootWithFile.Sound := sound_of_entries (by decide +kernel)
  have hstored : rootWithFile.contentAt
      (locate [cstr "srv"] ((aliceUpload "/tmp/s").userPath aliceAndBob)) = some (cstr "old") := by
    decide +kernel
  have hatomic := h [cstr "srv"] aliceAndBob (aliceUpload "/tmp/s") rootWithFile hsound
  generalize aliceUpload "/tmp/s" = job at hopens hstored hatomic
  obtain ⟨trace, mem, hreturns, hall, hgone⟩ := firstReadFault_fails hopens
  have hsame := hatomic _ firstReadFault_genuine trace mem hreturns fun e he => (hall e he).1
  rw [Files.contentAt, hgone, hstored] at hsame
  contradiction

end FileServer
