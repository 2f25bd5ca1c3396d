import FileServer.CopyFaults
import FileServer.UserSerial
import FileServer.Shared.Dialogue

/-!
# fs_upload call by call (fs.c)

`fs_upload` on its own, from its `mkdir` to its end, with a fault at any call. When it
has opened its destination and returns false, the destination is gone, and a file that
was there before is gone with it. When a write fails it does not return at all: its
buffer is freed twice, and the destination stays as it is then.
-/

namespace FileServer

open LexicalPath Dialogue
set_option autoImplicit false

/-- `fs_upload` between its library calls, with the value of `errno`. It has returned
true where the worker unlinks the temporary file. -/
def fsUpload (store : UserStore) (job : FileJob) :
    Program (CString × UploadStage) Request CallAnswer where
  request s :=
    match s.2 with
    | .unlinkTmpfile => none
    | stage => uploadRequest store job stage
  resume a s := (a.error.getD s.1, uploadResume (a.error.getD s.1) a s.2)

abbrev UploadEvent := Event (CString × UploadStage) CallAnswer (Option Fault)

/-- A call of `fs_upload` made with the given faults on `files`. -/
def FsUploadRuns (cwd : List CString) (store : UserStore) (job : FileJob)
    (faults : Nat → Option Fault) (files : Files) (trace : List UploadEvent) (stage : UploadStage)
    (mem : Files) : Prop :=
  ∃ errno errno', Run (fsUpload store job) (perform cwd) faults (errno, .mkdir) files trace
    (errno', stage) mem

def UploadStage.returned : UploadStage → Option Bool
  | .unlinkTmpfile | .done _ (.ok _) => some true
  | .done _ (.error _) => some false
  | _ => none

def UploadStage.writes : UploadStage → Prop
  | .write _ _ _ => True
  | _ => False

/-- The call returns `ok` and leaves `mem`. -/
def FsUploadReturns (cwd : List CString) (store : UserStore) (job : FileJob)
    (faults : Nat → Option Fault) (files : Files) (trace : List UploadEvent) (ok : Bool)
    (mem : Files) : Prop :=
  ∃ stage, FsUploadRuns cwd store job faults files trace stage mem ∧ stage.returned = some ok

/-- The directory of the user, the source and the destination can be opened. -/
structure FsUploadOpens (cwd : List CString) (store : UserStore) (job : FileJob) (files : Files) :
    Prop where
  directory : (mkdir cwd files (userDirectory store job.task.username)).1.error = none ∨
    (mkdir cwd files (userDirectory store job.task.username)).1.error = some eexist
  source : (fopenRead cwd (withUserDirectory cwd store job.task.username files)
    job.task.tmpfile).error = none
  destination : (fopenWrite cwd (withUserDirectory cwd store job.task.username files)
    (job.userPath store)).1.error = none

section Requests
variable {cwd : List CString} {store : UserStore} {job : FileJob} {files mem : Files}
  {stage : UploadStage} {r : Request} {fault : Option Fault} {errno : CString}

theorem fsUpload_request (h : (fsUpload store job).request (errno, stage) = some r) :
    stage ≠ .unlinkTmpfile ∧ uploadRequest store job stage = some r := by
  cases stage with
  | unlinkTmpfile => contradiction
  | _ => exact ⟨by simp, h⟩

/-- Apart from the `mkdir`, the calls of `fs_upload` change nothing but the destination. -/
theorem fsUpload_untouched (hr : (fsUpload store job).request (errno, stage) = some r)
    {l : Location} (hl : l ≠ locate cwd (job.userPath store)) (h : Untouched files mem l) :
    Untouched files (perform cwd fault mem r).2 l := by
  obtain ⟨hstage, hr⟩ := fsUpload_request hr
  have hkept : (perform cwd fault mem r).2 = mem → Untouched files (perform cwd fault mem r).2 l := by
    intro heq
    rwa [heq]
  cases stage with
  | unlinkTmpfile => exact absurd rfl hstage
  | aborted => contradiction
  | done opens result => contradiction
  | mkdir =>
    obtain rfl := Option.some.inj hr
    exact h.mkdir
  | openOut i =>
    obtain rfl := Option.some.inj hr
    exact h.perform hl
  | write i o block =>
    obtain rfl := Option.some.inj hr
    exact h.perform hl
  | closeOut failure =>
    obtain rfl := Option.some.inj hr
    exact h.perform hl
  | remove err =>
    obtain rfl := Option.some.inj hr
    exact h.perform hl
  | read i o =>
    obtain rfl := Option.some.inj hr
    exact hkept rfl
  | _ =>
    obtain rfl := Option.some.inj hr
    apply hkept
    cases fault <;> rfl

end Requests

/-- How far an upload from `a` to `b` has come; `files` is what it found. -/
def UploadHolds (files mem : Files) (a b : Location) : UploadStage → Prop
  | .openOut i => SourceOpen files a i
  | .read i o => ReadsOn files mem a b i o
  | .encode i o block | .write i o block => HoldsBlock files mem a b i o block
  | .closeIn none | .closeOut none | .unlinkTmpfile | .done _ (.ok _) => Decoded files mem a b
  | _ => True

section Holds
variable {cwd : List CString} {store : UserStore} {job : FileJob} {files mem : Files}
  {fault : Option Fault} {errno : CString}

theorem uploadRead_holds {i o : Handle} {b : Location}
    (h : ReadsOn files mem (locate cwd job.task.tmpfile) b i o) :
    UploadHolds files mem (locate cwd job.task.tmpfile) b
      (uploadResume errno (fread cwd mem job.task.tmpfile fault i) (.read i o)) := by
  by_cases herror : (fread cwd mem job.task.tmpfile fault i).handle.error = true
  · simp only [uploadResume, uploadResume.leave, herror, if_true]
    split
    · trivial
    · exact Or.inl (Or.inl herror)
  · obtain ⟨hend, hnext⟩ := h.fread herror
    simp only [uploadResume, uploadResume.leave, herror]
    split
    · rename_i hnil
      exact hend hnil
    · rename_i hne
      exact hnext hne

theorem leave_holds {a b : Location} (i : Handle) (err : CString) :
    UploadHolds files mem a b (uploadResume.leave errno i (some err)) := by
  unfold uploadResume.leave
  split <;> trivial

theorem uploadResume_holds {stage : UploadStage} {r : Request}
    (hr : uploadRequest store job stage = some r)
    (hab : locate cwd job.task.tmpfile ≠ locate cwd (job.userPath store)) (hsound : mem.Sound)
    (hfiles : files.Sound) (hsource : Untouched files mem (locate cwd job.task.tmpfile))
    (h : UploadHolds files mem (locate cwd job.task.tmpfile) (locate cwd (job.userPath store))
      stage) :
    UploadHolds files (perform cwd fault mem r).2 (locate cwd job.task.tmpfile)
      (locate cwd (job.userPath store)) (uploadResume errno (perform cwd fault mem r).1 stage) := by
  cases stage with
  | testTmpfile =>
    simp only [uploadResume]
    split <;> trivial
  | closeTest => trivial
  | mkdir =>
    simp only [uploadResume]
    split <;> trivial
  | openIn =>
    obtain rfl := Option.some.inj hr
    simp only [uploadResume]
    split
    · rename_i hok
      exact sourceOpen_of_fopenRead hfiles hsource hok
    · trivial
  | openOut i =>
    obtain rfl := Option.some.inj hr
    simp only [uploadResume]
    split
    · rename_i hok
      exact SourceOpen.readsOn h hab hsound hsource hok
    · trivial
  | abandon text => trivial
  | read i o =>
    obtain rfl := Option.some.inj hr
    exact uploadRead_holds h
  | encode i o block =>
    obtain rfl := Option.some.inj hr
    rw [perform_plain]
    simp only [uploadResume]
    split
    · exact h
    · exact leave_holds i _
  | write i o block =>
    obtain rfl := Option.some.inj hr
    simp only [uploadResume]
    split
    · rename_i hok
      exact HoldsBlock.fwrite h hab hok
    · trivial
  | closeIn failure =>
    obtain rfl := Option.some.inj hr
    rw [perform_plain]
    cases failure with
    | none => exact h
    | some err => trivial
  | closeOut failure =>
    obtain rfl := Option.some.inj hr
    rw [perform_plain]
    cases failure with
    | none =>
      simp only [uploadResume]
      split
      · exact h
      · trivial
    | some err => trivial
  | remove err => trivial
  | unlinkTmpfile =>
    obtain rfl := Option.some.inj hr
    exact Decoded.frame h fun _ _ => perform_view_of_ne (Ne.symm hab)
  | aborted => contradiction
  | done opens result => contradiction

theorem fsUpload_holds {faults : Nat → Option Fault} {trace : List UploadEvent}
    {stage : UploadStage} (hfiles : files.Sound)
    (hab : locate cwd job.task.tmpfile ≠ locate cwd (job.userPath store))
    (h : FsUploadRuns cwd store job faults files trace stage mem) :
    UploadHolds files mem (locate cwd job.task.tmpfile) (locate cwd (job.userPath store)) stage ∧
      mem.Sound ∧ ∀ l, l ≠ locate cwd (job.userPath store) → Untouched files mem l := by
  obtain ⟨errno, errno', hrun⟩ := h
  refine hrun.invariant (I := fun _ s mem => UploadHolds files mem (locate cwd job.task.tmpfile)
    (locate cwd (job.userPath store)) s.2 ∧ mem.Sound ∧
      ∀ l, l ≠ locate cwd (job.userPath store) → Untouched files mem l) ?_ ?_
  · exact ⟨trivial, hfiles, fun l _ => Or.inl rfl⟩
  · intro trace s mem r fault hinv hr
    obtain ⟨hholds, hsound, hothers⟩ := hinv
    have hrequest := (fsUpload_request hr).2
    refine ⟨uploadResume_holds hrequest hab hsound hfiles (hothers _ hab) hholds,
      perform_sound fault r hsound, ?_⟩
    intro l hl
    exact fsUpload_untouched hr hl (hothers l hl)

end Holds

/-- The file at a path is there and can be reached. -/
structure DestinationOpen (cwd : List CString) (path : CString) (mem : Files) : Prop where
  file : ∃ k, mem.node (locate cwd path) = .file k
  passes : mem.barred (origin cwd path) (components path) = none

section Destination
variable {cwd : List CString} {path : CString} {mem : Files} {fault : Option Fault} {r : Request}

theorem DestinationOpen.perform (h : DestinationOpen cwd path mem)
    (hop : r.op ≠ .remove ∧ r.op ≠ .unlink) : DestinationOpen cwd path (perform cwd fault mem r).2 := by
  obtain ⟨k, hk⟩ := h.file
  refine ⟨⟨k, perform_file hk ?_⟩, barred_of_dirs ?_ h.passes⟩
  · rintro (hr | hr)
    · exact absurd hr hop.1
    · exact absurd hr hop.2
  · intro l _ hdir
    exact perform_dir hdir fun hr => absurd hr hop.1

theorem destinationOpen_of_fopenWrite
    (hok : (perform cwd fault mem ⟨path, .fopenWrite⟩).1.error = none) :
    DestinationOpen cwd path (perform cwd fault mem ⟨path, .fopenWrite⟩).2 := by
  cases fault with
  | some f => contradiction
  | none =>
    have hpasses : mem.barred (origin cwd path) (components path) = none := by
      rw [perform_fopenWrite, fopenWrite] at hok
      split at hok
      · contradiction
      · rename_i hpasses
        split at hok
        · contradiction
        · rename_i hlast
          rwa [trimSlashes_of_getLast hlast] at hpasses
    refine ⟨?_, barred_of_dirs (fun l _ hdir => perform_dir hdir (by simp)) hpasses⟩
    rw [perform_fopenWrite] at hok
    rcases fopenWrite_cases cwd mem path with ⟨errno, heq⟩ | ⟨hnode, heq⟩ | ⟨k, hnode, heq⟩
    · rw [heq] at hok
      contradiction
    · have hnames : (locate cwd path).names ≠ [] := by
        intro hnil
        rw [Files.node, if_pos hnil] at hnode
        contradiction
      simp only [FileServer.perform, respond, heq, node_set, if_neg hnames, if_pos]
      exact ⟨_, rfl⟩
    · exact ⟨k, perform_file hnode (by simp)⟩

theorem DestinationOpen.remove (h : DestinationOpen cwd path mem) :
    (FileServer.perform cwd none mem ⟨path, .remove⟩).2.node (locate cwd path) = .absent := by
  obtain ⟨k, hk⟩ := h.file
  rw [remove_removes h.passes hk]
  exact node_removed hk

end Destination

/-- What is known of the destination at a stage of `fs_upload`. -/
def UploadLeaves (cwd : List CString) (store : UserStore) (job : FileJob) (files mem : Files) :
    UploadStage → Prop
  | .testTmpfile | .closeTest | .done _ (.ok _) => False
  | .mkdir => mem = files
  | .openIn =>
    mem = withUserDirectory cwd store job.task.username files ∧
      ((mkdir cwd files (userDirectory store job.task.username)).1.error = none ∨
        (mkdir cwd files (userDirectory store job.task.username)).1.error = some eexist)
  | .openOut _ =>
    mem = withUserDirectory cwd store job.task.username files ∧
      ((mkdir cwd files (userDirectory store job.task.username)).1.error = none ∨
        (mkdir cwd files (userDirectory store job.task.username)).1.error = some eexist) ∧
      (fopenRead cwd mem job.task.tmpfile).error = none
  | .abandon _ => mem = withUserDirectory cwd store job.task.username files
  | .read _ o | .encode _ o _ | .write _ o _ =>
    (FsUploadOpens cwd store job files ∧ DestinationOpen cwd (job.userPath store) mem) ∧
      ∃ m, o.inode = some m
  | .done _ (.error _) =>
    mem.contentAt (locate cwd (job.userPath store)) =
        files.contentAt (locate cwd (job.userPath store)) ∨
      (FsUploadOpens cwd store job files ∧ mem.node (locate cwd (job.userPath store)) = .absent)
  | .closeIn _ | .closeOut _ | .remove _ | .unlinkTmpfile | .aborted =>
    FsUploadOpens cwd store job files ∧ DestinationOpen cwd (job.userPath store) mem

/-- A fault of `mkdir` is not `EEXIST`, and `remove` works. -/
def SparesRemove (e : UploadEvent) : Prop :=
  (e.stage.2 = .mkdir → ∀ f, e.fault = some f → f.errno ≠ eexist) ∧
    ∀ err, e.stage.2 = .remove err → e.fault = none

section Leaves
variable {cwd : List CString} {store : UserStore} {job : FileJob} {files mem : Files}
  {fault : Option Fault} {errno : CString} {i o : Handle} {block : List Byte}

theorem withUserDirectory_contentAt (user : CString) (l : Location) :
    (withUserDirectory cwd store user files).contentAt l = files.contentAt l := by
  have hsame : Untouched files files l := Or.inl rfl
  exact hsame.mkdir.contentAt

theorem mkdir_leaves (hgenuine : ∀ f, fault = some f → f.errno ≠ eexist) :
    UploadLeaves cwd store job files
      (perform cwd fault files ⟨userDirectory store job.task.username, .mkdir⟩).2
      (uploadResume errno
        (perform cwd fault files ⟨userDirectory store job.task.username, .mkdir⟩).1 .mkdir) := by
  simp only [uploadResume]
  split
  · rename_i hok
    cases fault with
    | none =>
      rw [perform_fst] at hok
      exact ⟨rfl, hok⟩
    | some f =>
      rcases hok with hok | hok
      · contradiction
      · exact absurd (Option.some.inj hok) (hgenuine f rfl)
  · exact Or.inl (Untouched.mkdir (Or.inl rfl)).contentAt

theorem openIn_leaves (h : UploadLeaves cwd store job files mem .openIn) :
    UploadLeaves cwd store job files (perform cwd fault mem ⟨job.task.tmpfile, .fopenRead⟩).2
      (uploadResume errno (perform cwd fault mem ⟨job.task.tmpfile, .fopenRead⟩).1 .openIn) := by
  obtain ⟨rfl, hdirectory⟩ := h
  simp only [uploadResume]
  split
  · rename_i hok
    obtain ⟨inode, heq, -⟩ := perform_fopenRead_ok hok
    cases fault with
    | none =>
      rw [perform_fst] at hok
      rw [heq]
      exact ⟨rfl, hdirectory, hok⟩
    | some f => contradiction
  · rw [fopenRead_keeps]
    exact Or.inl (withUserDirectory_contentAt _ _)

theorem openOut_leaves (h : UploadLeaves cwd store job files mem (.openOut i)) :
    UploadLeaves cwd store job files (perform cwd fault mem ⟨job.userPath store, .fopenWrite⟩).2
      (uploadResume errno (perform cwd fault mem ⟨job.userPath store, .fopenWrite⟩).1
        (.openOut i)) := by
  obtain ⟨rfl, hdirectory, hsource⟩ := h
  simp only [uploadResume]
  split
  · rename_i hok
    have hopen := destinationOpen_of_fopenWrite hok
    cases fault with
    | some f => contradiction
    | none =>
      rw [perform_fopenWrite] at hok
      refine ⟨⟨⟨hdirectory, hsource, hok⟩, hopen⟩, ?_⟩
      rw [perform_fopenWrite]
      rcases fopenWrite_cases cwd (withUserDirectory cwd store job.task.username files)
        (job.userPath store) with ⟨errno, heq⟩ | ⟨-, heq⟩ | ⟨m, -, heq⟩
      · rw [heq] at hok
        contradiction
      · rw [heq]
        exact ⟨_, rfl⟩
      · rw [heq]
        exact ⟨m, rfl⟩
  · rename_i hfailed
    exact fopenWrite_keeps hfailed

theorem write_leaves (h : UploadLeaves cwd store job files mem (.write i o block)) :
    UploadLeaves cwd store job files
      (perform cwd fault mem ⟨job.userPath store, .fwrite o (encodeData block)⟩).2
      (uploadResume errno
        (perform cwd fault mem ⟨job.userPath store, .fwrite o (encodeData block)⟩).1
        (.write i o block)) := by
  obtain ⟨⟨hopens, hopen⟩, m, hm⟩ := h
  have hkept : DestinationOpen cwd (job.userPath store)
      (perform cwd fault mem ⟨job.userPath store, .fwrite o (encodeData block)⟩).2 :=
    hopen.perform (by simp)
  simp only [uploadResume]
  split
  · rename_i hok
    obtain rfl := (fwrite_error_iff hm).mp hok
    refine ⟨⟨hopens, hkept⟩, m, ?_⟩
    simp [perform_fst, respond, fwrite, hm]
  · exact ⟨hopens, hkept⟩

theorem uploadResume_leaves {stage : UploadStage} {r : Request}
    (hr : (fsUpload store job).request (errno, stage) = some r)
    (hgenuine : stage = .mkdir → ∀ f, fault = some f → f.errno ≠ eexist)
    (hremove : ∀ err, stage = .remove err → fault = none)
    (h : UploadLeaves cwd store job files mem stage) :
    UploadLeaves cwd store job files (perform cwd fault mem r).2
      (uploadResume errno (perform cwd fault mem r).1 stage) := by
  obtain ⟨hstage, hr⟩ := fsUpload_request hr
  cases stage with
  | testTmpfile => exact absurd h id
  | closeTest => exact absurd h id
  | unlinkTmpfile => exact absurd rfl hstage
  | aborted => contradiction
  | done opens result => contradiction
  | mkdir =>
    obtain rfl : mem = files := h
    obtain rfl := Option.some.inj hr
    exact mkdir_leaves (hgenuine rfl)
  | openIn =>
    obtain rfl := Option.some.inj hr
    exact openIn_leaves h
  | openOut i =>
    obtain rfl := Option.some.inj hr
    exact openOut_leaves h
  | abandon text =>
    obtain rfl : mem = withUserDirectory cwd store job.task.username files := h
    obtain rfl := Option.some.inj hr
    rw [perform_plain]
    exact Or.inl (withUserDirectory_contentAt _ _)
  | read i o =>
    obtain rfl := Option.some.inj hr
    simp only [uploadResume]
    split
    · exact h.1
    · exact h
  | encode i o block =>
    obtain rfl := Option.some.inj hr
    rw [perform_plain]
    simp only [uploadResume]
    split
    · exact h
    · exact h.1
  | write i o block =>
    obtain rfl := Option.some.inj hr
    exact write_leaves h
  | closeIn failure =>
    obtain rfl := Option.some.inj hr
    rw [perform_plain]
    exact h
  | closeOut failure =>
    obtain rfl := Option.some.inj hr
    rw [perform_plain]
    cases failure with
    | none =>
      simp only [uploadResume]
      split
      · exact h
      · exact h
    | some err => exact h
  | remove err =>
    obtain rfl := Option.some.inj hr
    obtain rfl := hremove err rfl
    exact Or.inr ⟨h.1, h.2.remove⟩

theorem write_of_aborted {stage : UploadStage} {a : CallAnswer} {r : Request}
    (hr : uploadRequest store job stage = some r) (h : uploadResume errno a stage = .aborted) :
    ∃ i o block, stage = .write i o block ∧ a.error ≠ none := by
  cases stage with
  | write i o block =>
    refine ⟨i, o, block, rfl, ?_⟩
    intro hok
    simp [uploadResume, hok] at h
  | aborted => contradiction
  | closeOut failure =>
    cases failure with
    | some err => simp [uploadResume] at h
    | none =>
      simp only [uploadResume] at h
      split at h <;> simp at h
  | closeTest => simp [uploadResume] at h
  | abandon text => simp [uploadResume] at h
  | closeIn failure => simp [uploadResume] at h
  | remove err => simp [uploadResume] at h
  | unlinkTmpfile => simp [uploadResume] at h
  | done opens result => contradiction
  | _ =>
    simp only [uploadResume, uploadResume.leave] at h
    split at h <;> simp at h

theorem fsUpload_leaves {faults : Nat → Option Fault} {trace : List UploadEvent}
    {stage : UploadStage} (h : FsUploadRuns cwd store job faults files trace stage mem)
    (hspares : ∀ e ∈ trace, SparesRemove e) :
    UploadLeaves cwd store job files mem stage ∧
      (stage = .aborted → ∃ e ∈ trace, e.stage.2.writes ∧ e.fault ≠ none) := by
  obtain ⟨errno, errno', hrun⟩ := h
  refine hrun.invariant (I := fun trace s mem => (∀ e ∈ trace, SparesRemove e) →
    UploadLeaves cwd store job files mem s.2 ∧
      (s.2 = .aborted → ∃ e ∈ trace, e.stage.2.writes ∧ e.fault ≠ none)) ?_ ?_ hspares
  · exact fun _ => ⟨rfl, by simp⟩
  · intro trace s mem r fault ih hr hspares
    obtain ⟨hgenuine, hremove⟩ := hspares _ (List.mem_append_right _ List.mem_cons_self)
    have hleaves := (ih fun e he => hspares e (List.mem_append_left _ he)).1
    refine ⟨uploadResume_leaves hr hgenuine hremove hleaves, ?_⟩
    intro haborted
    refine ⟨_, List.mem_append_right _ List.mem_cons_self, ?_⟩
    obtain ⟨errno, stage⟩ := s
    obtain ⟨-, hrequest⟩ := fsUpload_request hr
    obtain ⟨i, o, block, rfl, hfailed⟩ := write_of_aborted hrequest haborted
    obtain rfl := Option.some.inj hrequest
    obtain ⟨-, m, hm⟩ := hleaves
    exact ⟨trivial, fun hnone => hfailed ((fwrite_error_iff hm).mpr hnone)⟩

end Leaves

/-- The root of a server started in `/srv`, and a file in `/tmp`. -/
def rootAndTmp : Files where
  entries := [(locate [] (cstr "srv"), ⟨.dir, []⟩), (locate [] (cstr "srv/storage"), ⟨.dir, []⟩),
    (locate [] (cstr "tmp"), ⟨.dir, []⟩), (locate [] (cstr "tmp/s"), ⟨.file 0, [cstr "s"]⟩)]

theorem rootAndTmp_sound : rootAndTmp.Sound := sound_of_entries (by decide +kernel)

theorem rootAndTmp_opens :
    FsUploadOpens [cstr "srv"] aliceAndBob (aliceUpload "/tmp/s") rootAndTmp :=
  ⟨by decide +kernel, by decide +kernel, by decide +kernel⟩

end FileServer
