import FileServer.UploadAtomicity

/-!
# What a fault makes of an upload (fs_upload in fs.c)

Allocations, reads, writes and the closing of the destination may fail at any block,
and the loop ends however the faults fall. The flag `success`, together with the error
indicator of the source, is false afterwards exactly if one of them did, and then the
destination is removed; but a failing write aborts the call before it comes to that.
-/

namespace FileServer

open LexicalPath Dialogue
set_option autoImplicit false

/-- The calls whose failure `fs_upload` has to notice once both files are open. -/
def UploadStage.copies : UploadStage → Prop
  | .read _ _ | .encode _ _ _ | .write _ _ _ | .closeOut _ => True
  | _ => False

def FaultsInCopy (trace : List UploadEvent) : Prop :=
  ∀ e ∈ trace, e.fault ≠ none → e.stage.2.copies

/-- A stage of `fs_upload`, reading contents `k`, shows whether a call has failed. -/
def UploadAccounts (k : Nat) (trace : List UploadEvent) : UploadStage → Prop
  | .mkdir | .openIn | .unlinkTmpfile => NoFault trace
  | .openOut i => NoFault trace ∧ i = openedOn (some k)
  | .read i o | .encode i o _ | .write i o _ =>
    i.inode = some k ∧ (∃ m, o.inode = some m) ∧ (i.error = false ↔ NoFault trace)
  | .closeIn failure | .closeOut failure => failure = none ↔ NoFault trace
  | .remove _ | .aborted | .done _ (.error _) => ¬ NoFault trace
  | .testTmpfile | .closeTest | .abandon _ | .done _ (.ok _) => False

def UploadStage.over (stage : UploadStage) : Prop := stage.returned.isSome = true ∨ stage.fails

section Accounts
variable {cwd : List CString} {store : UserStore} {job : FileJob} {files mem : Files}
  {fault : Option Fault} {errno : CString} {k : Nat} {trace : List UploadEvent}
  {failure : Option CString}

theorem leave_accounts {i : Handle}
    (h : (i.error = false ∧ failure = none) ↔ NoFault trace) :
    UploadAccounts k trace (uploadResume.leave errno i failure) := by
  unfold uploadResume.leave
  cases herror : i.error with
  | false =>
    rw [if_neg (by simp)]
    simpa [herror, UploadAccounts] using h
  | true =>
    rw [if_pos rfl]
    simpa [herror, UploadAccounts] using h

theorem uploadRead_accounts {i o : Handle} (errno₀ : CString)
    (h : UploadAccounts k trace (.read i o)) :
    UploadAccounts k (trace ++ [⟨(errno₀, .read i o), fault,
        fread cwd mem job.task.tmpfile fault i⟩])
      (uploadResume errno (fread cwd mem job.task.tmpfile fault i) (.read i o)) := by
  obtain ⟨hinode, hout, herror⟩ := h
  have hnext : (fread cwd mem job.task.tmpfile fault i).handle.error = false ↔ NoFault
      (trace ++ [⟨(errno₀, .read i o), fault, fread cwd mem job.task.tmpfile fault i⟩]) := by
    rw [noFault_append, ← herror, ← Bool.not_eq_true, fread_error_iff hinode]
    simp
  simp only [uploadResume]
  split
  · exact leave_accounts (by simpa using hnext)
  · exact ⟨fread_inode.trans hinode, hout, hnext⟩

theorem openIn_accounts (errno₀ : CString) (hopens : FsUploadOpens cwd store job files)
    (hk : (withUserDirectory cwd store job.task.username files).node
      (locate cwd job.task.tmpfile) = .file k) (h : NoFault trace) :
    UploadAccounts k
      (trace ++ [⟨(errno₀, .openIn), none, (perform cwd none
        (withUserDirectory cwd store job.task.username files) ⟨job.task.tmpfile, .fopenRead⟩).1⟩])
      (uploadResume errno (perform cwd none
        (withUserDirectory cwd store job.task.username files) ⟨job.task.tmpfile, .fopenRead⟩).1
        .openIn) := by
  obtain ⟨hpasses, -⟩ := fopenRead_of_ok hopens.source
  have hopened := fopenRead_of_node hpasses (Or.inr ⟨k, rfl, hk⟩)
  simp only [uploadResume, perform_fst, respond, hopened]
  exact ⟨(noFault_append _ _).mpr ⟨h, rfl⟩, rfl⟩

theorem openOut_accounts (errno₀ : CString) (hopens : FsUploadOpens cwd store job files)
    (h : NoFault trace) :
    UploadAccounts k
      (trace ++ [⟨(errno₀, .openOut (openedOn (some k))), none, (perform cwd none
        (withUserDirectory cwd store job.task.username files)
        ⟨job.userPath store, .fopenWrite⟩).1⟩])
      (uploadResume errno (perform cwd none
        (withUserDirectory cwd store job.task.username files) ⟨job.userPath store, .fopenWrite⟩).1
        (.openOut (openedOn (some k)))) := by
  rcases fopenWrite_cases cwd (withUserDirectory cwd store job.task.username files)
    (job.userPath store) with ⟨errno, heq⟩ | ⟨-, heq⟩ | ⟨m, -, heq⟩
  · have hok := hopens.destination
    rw [heq] at hok
    contradiction
  · simp only [uploadResume, perform_fst, respond, heq]
    exact ⟨rfl, ⟨_, rfl⟩, iff_of_true rfl ((noFault_append _ _).mpr ⟨h, rfl⟩)⟩
  · simp only [uploadResume, perform_fst, respond, heq]
    exact ⟨rfl, ⟨_, rfl⟩, iff_of_true rfl ((noFault_append _ _).mpr ⟨h, rfl⟩)⟩

theorem uploadEncode_accounts {i o : Handle} {block : List Byte} (errno₀ : CString)
    (h : UploadAccounts k trace (.encode i o block)) :
    UploadAccounts k
      (trace ++ [⟨(errno₀, .encode i o block), fault,
        (perform cwd fault mem ⟨job.task.tmpfile, .plain⟩).1⟩])
      (uploadResume errno (perform cwd fault mem ⟨job.task.tmpfile, .plain⟩).1
        (.encode i o block)) := by
  obtain ⟨hinode, hout, herror⟩ := h
  simp only [uploadResume]
  split
  · rename_i hok
    refine ⟨hinode, hout, ?_⟩
    rw [noFault_append, herror]
    simp [perform_plain_error.mp hok]
  · rename_i hfailed
    rw [perform_plain_error] at hfailed
    apply leave_accounts
    rw [noFault_append]
    simp [hfailed]

theorem uploadWrite_accounts {i o : Handle} {block : List Byte} (errno₀ : CString)
    (h : UploadAccounts k trace (.write i o block)) :
    UploadAccounts k
      (trace ++ [⟨(errno₀, .write i o block), fault,
        (perform cwd fault mem ⟨job.userPath store, .fwrite o (encodeData block)⟩).1⟩])
      (uploadResume errno
        (perform cwd fault mem ⟨job.userPath store, .fwrite o (encodeData block)⟩).1
        (.write i o block)) := by
  obtain ⟨hinode, ⟨m, hm⟩, herror⟩ := h
  simp only [uploadResume]
  split
  · rename_i hok
    obtain rfl := (fwrite_error_iff hm).mp hok
    refine ⟨hinode, ⟨m, ?_⟩, ?_⟩
    · simp [perform_fst, respond, fwrite, hm]
    · rw [noFault_append, herror, and_iff_left rfl]
  · rename_i hfailed
    rw [fwrite_error_iff hm] at hfailed
    change ¬ NoFault _
    rw [noFault_append]
    exact fun hnone => hfailed hnone.2

theorem uploadClose_accounts (errno₀ : CString) (h : UploadAccounts k trace (.closeOut failure)) :
    UploadAccounts k
      (trace ++ [⟨(errno₀, .closeOut failure), fault,
        (perform cwd fault mem ⟨job.userPath store, .plain⟩).1⟩])
      (uploadResume errno (perform cwd fault mem ⟨job.userPath store, .plain⟩).1
        (.closeOut failure)) := by
  cases failure with
  | some err =>
    change ¬ NoFault _
    rw [noFault_append]
    intro hnone
    exact absurd (h.mpr hnone.1) (by simp)
  | none =>
    have hbefore : NoFault trace := h.mp rfl
    simp only [uploadResume]
    split
    · rename_i hok
      exact (noFault_append _ _).mpr ⟨hbefore, perform_plain_error.mp hok⟩
    · rename_i hfailed
      rw [perform_plain_error] at hfailed
      change ¬ NoFault _
      rw [noFault_append]
      exact fun hnone => hfailed hnone.2

theorem uploadResume_accounts {stage : UploadStage} {r : Request} {errno₀ : CString}
    (hr : (fsUpload store job).request (errno₀, stage) = some r)
    (hopens : FsUploadOpens cwd store job files)
    (hk : (withUserDirectory cwd store job.task.username files).node
      (locate cwd job.task.tmpfile) = .file k)
    (hleaves : UploadLeaves cwd store job files mem stage)
    (hcopies : fault ≠ none → stage.copies) (h : UploadAccounts k trace stage) :
    UploadAccounts k
      (trace ++ [⟨(errno₀, stage), fault, (perform cwd fault mem r).1⟩])
      (uploadResume errno (perform cwd fault mem r).1 stage) := by
  obtain ⟨hstage, hr⟩ := fsUpload_request hr
  have hopening : ¬ stage.copies → fault = none := by
    intro hnot
    by_contra hfault
    exact hnot (hcopies hfault)
  cases stage with
  | testTmpfile => exact absurd h id
  | closeTest => exact absurd h id
  | abandon text => exact absurd h id
  | unlinkTmpfile => exact absurd rfl hstage
  | aborted => contradiction
  | done opens result => contradiction
  | mkdir =>
    obtain rfl : mem = files := hleaves
    obtain rfl := Option.some.inj hr
    obtain rfl := hopening id
    simp only [uploadResume, perform_fst, respond, if_pos hopens.directory]
    exact (noFault_append _ _).mpr ⟨h, rfl⟩
  | openIn =>
    obtain ⟨rfl, -⟩ := hleaves
    obtain rfl := Option.some.inj hr
    obtain rfl := hopening id
    exact openIn_accounts errno₀ hopens hk h
  | openOut i =>
    obtain ⟨rfl, -⟩ := hleaves
    obtain ⟨hnone, rfl⟩ := h
    obtain rfl := Option.some.inj hr
    obtain rfl := hopening id
    exact openOut_accounts errno₀ hopens hnone
  | read i o =>
    obtain rfl := Option.some.inj hr
    exact uploadRead_accounts errno₀ h
  | encode i o block =>
    obtain rfl := Option.some.inj hr
    exact uploadEncode_accounts errno₀ h
  | write i o block =>
    obtain rfl := Option.some.inj hr
    exact uploadWrite_accounts errno₀ h
  | closeIn failure =>
    obtain rfl := Option.some.inj hr
    obtain rfl := hopening id
    change failure = none ↔ NoFault _
    rw [noFault_append, and_iff_left rfl]
    exact h
  | closeOut failure =>
    obtain rfl := Option.some.inj hr
    exact uploadClose_accounts errno₀ h
  | remove err =>
    change ¬ NoFault _
    rw [noFault_append]
    exact fun hnone => h hnone.1

theorem remove_of_error {stage : UploadStage} {a : CallAnswer} {opens : Bool} {err : CString}
    (hcopies : fault ≠ none → stage.copies) (h : UploadAccounts k trace stage)
    (hnext : UploadAccounts k (trace ++ [⟨(errno, stage), fault, a⟩]) (.done opens (.error err)))
    {errno' : CString} (hdone : uploadResume errno' a stage = .done opens (.error err))
    (hend : ∀ opens result, stage ≠ .done opens result) : ∃ err, stage = .remove err := by
  have hquiet : ¬ stage.copies → ¬ NoFault trace := by
    intro hstage hnone
    refine hnext ((noFault_append _ _).mpr ⟨hnone, ?_⟩)
    by_contra hfault
    exact hstage (hcopies hfault)
  cases stage with
  | remove err => exact ⟨err, rfl⟩
  | mkdir => exact absurd h (hquiet id)
  | openIn => exact absurd h (hquiet id)
  | openOut i => exact absurd h.1 (hquiet id)
  | unlinkTmpfile => exact absurd h (hquiet id)
  | testTmpfile => exact absurd h id
  | closeTest => exact absurd h id
  | abandon text => exact absurd h id
  | done opens result => exact absurd rfl (hend opens result)
  | aborted => simp [uploadResume] at hdone
  | closeIn failure => simp [uploadResume] at hdone
  | closeOut failure =>
    cases failure with
    | some err => simp [uploadResume] at hdone
    | none =>
      simp only [uploadResume] at hdone
      split at hdone <;> simp at hdone
  | _ =>
    simp only [uploadResume, uploadResume.leave] at hdone
    split at hdone <;> simp at hdone

/-- The account at every point of a run. -/
theorem fsUpload_accounts {faults : Nat → Option Fault} {stage : UploadStage}
    (hopens : FsUploadOpens cwd store job files)
    (hk : files.node (locate cwd job.task.tmpfile) = .file k)
    (h : FsUploadRuns cwd store job faults files trace stage mem) (hcopies : FaultsInCopy trace) :
    UploadLeaves cwd store job files mem stage ∧ UploadAccounts k trace stage ∧
      ∀ opens err, stage = .done opens (.error err) →
        mem.node (locate cwd (job.userPath store)) = .absent := by
  have hmade : (withUserDirectory cwd store job.task.username files).node
      (locate cwd job.task.tmpfile) = .file k := by
    rw [withUserDirectory, node_congr (mkdir_keeps (by simp [hk])), hk]
  obtain ⟨errno, errno', hrun⟩ := h
  refine hrun.invariant (I := fun trace s mem => FaultsInCopy trace →
    UploadLeaves cwd store job files mem s.2 ∧ UploadAccounts k trace s.2 ∧
      ∀ opens err, s.2 = .done opens (.error err) →
        mem.node (locate cwd (job.userPath store)) = .absent) ?_ ?_ hcopies
  · exact fun _ => ⟨rfl, by simp [UploadAccounts, NoFault], by simp⟩
  · rintro trace ⟨errno, stage⟩ mem r fault ih hr hcopies
    obtain ⟨hleaves, haccounts, -⟩ := ih fun e he => hcopies e (List.mem_append_left _ he)
    have hfault : fault ≠ none → stage.copies :=
      hcopies _ (List.mem_append_right _ List.mem_cons_self)
    have hremove : ∀ err, stage = .remove err → fault = none := by
      rintro err rfl
      by_contra hnone
      exact hfault hnone
    have hnext : ∀ errno', UploadAccounts k
        (trace ++ [⟨(errno, stage), fault, (perform cwd fault mem r).1⟩])
        (uploadResume errno' (perform cwd fault mem r).1 stage) :=
      fun _ => uploadResume_accounts hr hopens hmade hleaves hfault haccounts
    refine ⟨uploadResume_leaves hr ?_ hremove hleaves, hnext _, ?_⟩
    · rintro rfl f rfl
      exact absurd (hfault (by simp)) id
    · intro opens err hdone
      have herror := hnext ((perform cwd fault mem r).1.error.getD errno)
      rw [show uploadResume _ _ stage = .done opens (.error err) from hdone] at herror
      have hend : ∀ opens result, stage ≠ .done opens result := by
        rintro opens result rfl
        contradiction
      obtain ⟨err, rfl⟩ := remove_of_error hfault haccounts herror hdone hend
      obtain rfl := hremove err rfl
      obtain rfl := Option.some.inj hr
      exact hleaves.2.remove

end Accounts

def UploadStage.remaining (length : Nat) : UploadStage → Nat
  | .testTmpfile => 4 * length + 22
  | .closeTest => 4 * length + 21
  | .mkdir => 4 * length + 20
  | .openIn => 4 * length + 19
  | .openOut _ => 4 * length + 18
  | .read i _ => 4 * (length - i.offset) + 8
  | .encode i _ _ => 4 * (length - i.offset) + 10
  | .write i _ _ => 4 * (length - i.offset) + 9
  | .closeIn _ => 4
  | .closeOut _ => 3
  | .remove _ => 2
  | .abandon _ | .unlinkTmpfile => 1
  | .aborted | .done _ _ => 0

def UploadStage.readsFrom (k : Nat) : UploadStage → Prop
  | .openOut i => i = openedOn (some k)
  | .read i _ | .encode i _ _ | .write i _ _ => i.inode = some k
  | _ => True

section Ends
variable {cwd : List CString} {store : UserStore} {job : FileJob} {files mem : Files}
  {fault : Option Fault} {errno : CString} {k : Nat} {src : List Byte} {stage : UploadStage}
  {r : Request}

theorem uploadResume_readsFrom (hr : uploadRequest store job stage = some r)
    (hk : mem.node (locate cwd job.task.tmpfile) = .file k) (h : stage.readsFrom k) :
    (uploadResume errno (perform cwd fault mem r).1 stage).readsFrom k := by
  cases stage with
  | openIn =>
    obtain rfl := Option.some.inj hr
    simp only [uploadResume]
    split
    · rename_i hok
      obtain ⟨inode, heq, ⟨-, hdir⟩ | ⟨k', rfl, hk'⟩⟩ := perform_fopenRead_ok hok
      · rw [hk] at hdir
        contradiction
      · rw [hk] at hk'
        obtain rfl := Node.file.inj hk'
        rw [heq]
        rfl
    · trivial
  | openOut i =>
    obtain rfl : i = openedOn (some k) := h
    simp only [uploadResume]
    split
    · rfl
    · trivial
  | read i o =>
    obtain rfl := Option.some.inj hr
    simp only [uploadResume]
    split
    · trivial
    · exact fread_inode.trans h
  | encode i o block =>
    simp only [uploadResume]
    split
    · exact h
    · trivial
  | write i o block =>
    simp only [uploadResume]
    split
    · exact h
    · trivial
  | testTmpfile =>
    simp only [uploadResume]
    split <;> trivial
  | mkdir =>
    simp only [uploadResume]
    split <;> trivial
  | closeOut failure =>
    cases failure with
    | some err => trivial
    | none =>
      simp only [uploadResume]
      split <;> trivial
  | done opens result => contradiction
  | _ => trivial

theorem leave_remaining (i : Handle) (failure : Option CString) (length : Nat) :
    (uploadResume.leave errno i failure).remaining length = 4 := rfl

theorem uploadResume_remaining (hr : uploadRequest store job stage = some r)
    (hsrc : (mem.view (locate cwd job.task.tmpfile)).inodes[k]? = some src)
    (h : stage.readsFrom k) :
    (uploadResume errno (perform cwd fault mem r).1 stage).remaining src.length <
      stage.remaining src.length := by
  cases stage with
  | openOut i =>
    obtain rfl : i = openedOn (some k) := h
    simp only [uploadResume]
    split <;> simp only [UploadStage.remaining, openedOn] <;> omega
  | read i o =>
    obtain rfl := Option.some.inj hr
    have hread : (fread cwd mem job.task.tmpfile fault i).handle.offset =
        i.offset + (fread cwd mem job.task.tmpfile fault i).bytes.length ∧
        (fread cwd mem job.task.tmpfile fault i).bytes.length ≤ src.length - i.offset :=
      fread_offset h hsrc
    rw [perform_fread]
    simp only [uploadResume]
    split
    · rw [leave_remaining]
      simp only [UploadStage.remaining]
      omega
    · rename_i hne
      have hpos := List.length_pos_of_ne_nil hne
      simp only [UploadStage.remaining, hread.1]
      omega
  | encode i o block =>
    simp only [uploadResume]
    split
    · simp only [UploadStage.remaining]
      omega
    · rw [leave_remaining]
      simp only [UploadStage.remaining]
      omega
  | write i o block =>
    simp only [uploadResume]
    split
    · simp only [UploadStage.remaining]
      omega
    · simp only [UploadStage.remaining]
      omega
  | closeOut failure =>
    cases failure with
    | some err => simp [uploadResume, UploadStage.remaining]
    | none =>
      simp only [uploadResume]
      split <;> simp [UploadStage.remaining]
  | aborted => contradiction
  | done opens result => contradiction
  | _ =>
    simp only [uploadResume]
    first
      | simp only [UploadStage.remaining]; omega
      | split <;> simp only [UploadStage.remaining] <;> omega

/-- `fs_upload` returns or is aborted, whatever fails. -/
theorem fsUpload_ends
    (hab : locate cwd job.task.tmpfile ≠ locate cwd (job.userPath store))
    (hsrc : files.contentAt (locate cwd job.task.tmpfile) = some src)
    (faults : Nat → Option Fault) :
    ∃ trace stage mem, FsUploadRuns cwd store job faults files trace stage mem ∧ stage.over := by
  obtain ⟨k, hk, hcontent⟩ := contentAt_file hsrc
  have hinv : ∀ {trace s mem}, Run (fsUpload store job) (perform cwd) faults ([], .mkdir) files
      trace s mem → s.2.readsFrom k ∧ Untouched files mem (locate cwd job.task.tmpfile) := by
    intro trace s mem hrun
    refine hrun.invariant (I := fun _ s mem => s.2.readsFrom k ∧
      Untouched files mem (locate cwd job.task.tmpfile)) ⟨trivial, Or.inl rfl⟩ ?_
    rintro trace ⟨errno, stage⟩ mem r fault ⟨hreads, hsame⟩ hr
    refine ⟨uploadResume_readsFrom (fsUpload_request hr).2 ?_ hreads,
      fsUpload_untouched hr hab hsame⟩
    rw [node_congr (hsame.source hsrc), hk]
  have hless : ∀ trace s mem r, Run (fsUpload store job) (perform cwd) faults ([], .mkdir) files
      trace s mem → (fsUpload store job).request s = some r →
      (((fsUpload store job).resume (perform cwd (faults trace.length) mem r).1 s).2).remaining
        src.length < s.2.remaining src.length := by
    rintro trace ⟨errno, stage⟩ mem r hrun hr
    obtain ⟨hreads, hsame⟩ := hinv hrun
    apply uploadResume_remaining (fsUpload_request hr).2 _ hreads
    rw [hsame.source hsrc]
    exact hcontent
  obtain ⟨trace, ⟨errno, stage⟩, mem, hrun, hend⟩ :=
    Run.nil.ends (fun s : CString × UploadStage => s.2.remaining src.length) hless
  refine ⟨trace, stage, mem, ⟨_, _, hrun⟩, ?_⟩
  cases stage with
  | unlinkTmpfile => exact Or.inl rfl
  | aborted => exact Or.inr trivial
  | done opens result =>
    cases result with
    | ok _ => exact Or.inl rfl
    | error err => exact Or.inl rfl
  | _ => contradiction

end Ends

section Statement
variable (cwd : List CString) (store : UserStore) (job : FileJob) (files : Files)
  (faults : Nat → Option Fault)

/-- `fs_upload` returns; it returns true exactly if no call failed, and then the destination
is the whole coded source; and in no other way does it end with a destination. -/
def UploadCompletes (src : List Byte) : Prop :=
  (∃ trace ok mem, FsUploadReturns cwd store job faults files trace ok mem) ∧
  ∀ trace stage mem, FsUploadRuns cwd store job faults files trace stage mem → stage.over →
    (stage.returned = some true ↔ NoFault trace) ∧
    (stage.returned = some true →
      mem.contentAt (locate cwd (job.userPath store)) = some (codeFile src)) ∧
    (stage.returned ≠ some true → mem.node (locate cwd (job.userPath store)) = .absent)

/-- The plan has faults only for allocations, reads, writes and the closing of the
destination. -/
def OnlyCopyFails : Prop :=
  ∀ trace stage mem, FsUploadRuns cwd store job faults files trace stage mem → FaultsInCopy trace

def NoWriteFails : Prop :=
  ∀ trace i o block mem,
    FsUploadRuns cwd store job faults files trace (.write i o block) mem →
      faults trace.length = none

end Statement

section Complete
variable {cwd : List CString} {store : UserStore} {job : FileJob} {files mem : Files}
  {faults : Nat → Option Fault} {trace : List UploadEvent} {src : List Byte}

theorem sparesRemove_of_copies (h : FaultsInCopy trace) : ∀ e ∈ trace, SparesRemove e := by
  intro e he
  have hquiet : ¬ e.stage.2.copies → e.fault = none := by
    intro hnot
    by_contra hfault
    exact hnot (h e he hfault)
  constructor
  · intro hmkdir f hf
    rw [hquiet (by simp [hmkdir, UploadStage.copies])] at hf
    contradiction
  · intro err hremove
    exact hquiet (by simp [hremove, UploadStage.copies])

theorem not_aborted (hcopies : OnlyCopyFails cwd store job files faults)
    (hwrites : NoWriteFails cwd store job files faults) :
    ¬ FsUploadRuns cwd store job faults files trace .aborted mem := by
  rintro ⟨errno, errno', hrun⟩
  generalize hs : (errno', UploadStage.aborted) = s at hrun
  cases hrun with
  | nil => simp at hs
  | @call trace s mem r hbefore hr =>
    obtain ⟨errno₁, stage⟩ := s
    obtain ⟨-, hrequest⟩ := fsUpload_request hr
    obtain ⟨i, o, block, rfl, hfailed⟩ := write_of_aborted hrequest (Prod.mk.inj hs).2.symm
    have hruns : FsUploadRuns cwd store job faults files trace (.write i o block) mem :=
      ⟨errno, errno₁, hbefore⟩
    obtain ⟨-, m, hm⟩ := (fsUpload_leaves hruns (sparesRemove_of_copies (hcopies _ _ _ hruns))).1
    obtain rfl := Option.some.inj hrequest
    exact hfailed ((fwrite_error_iff hm).mpr (hwrites _ _ _ _ _ hruns))

theorem completes_of_noWriteFails (hsound : files.Sound)
    (hopens : FsUploadOpens cwd store job files)
    (hsrc : files.contentAt (locate cwd job.task.tmpfile) = some src)
    (hab : locate cwd job.task.tmpfile ≠ locate cwd (job.userPath store))
    (hcopies : OnlyCopyFails cwd store job files faults)
    (hwrites : NoWriteFails cwd store job files faults) :
    UploadCompletes cwd store job files faults src := by
  constructor
  · obtain ⟨trace, stage, mem, hruns, hover⟩ := fsUpload_ends hab hsrc faults
    cases stage with
    | unlinkTmpfile => exact ⟨trace, true, mem, _, hruns, rfl⟩
    | aborted => exact absurd hruns (not_aborted hcopies hwrites)
    | done opens result =>
      cases result with
      | ok _ => exact ⟨trace, true, mem, _, hruns, rfl⟩
      | error err => exact ⟨trace, false, mem, _, hruns, rfl⟩
    | _ => simp [UploadStage.over, UploadStage.returned, UploadStage.fails] at hover
  · intro trace stage mem hruns hover
    obtain ⟨k, hk, -⟩ := contentAt_file hsrc
    obtain ⟨hleaves, haccounts, hgone⟩ :=
      fsUpload_accounts hopens hk hruns (hcopies _ _ _ hruns)
    obtain ⟨hholds, -, -⟩ := fsUpload_holds hsound hab hruns
    cases stage with
    | unlinkTmpfile =>
      refine ⟨iff_of_true rfl haccounts, fun _ => ?_, fun hnot => absurd rfl hnot⟩
      obtain ⟨src', hsrc', hcontent⟩ := hholds
      rw [hcontent, Option.some.inj (hsrc.symm.trans hsrc')]
    | aborted => exact absurd hruns (not_aborted hcopies hwrites)
    | done opens result =>
      cases result with
      | ok _ => exact absurd hleaves id
      | error err =>
        refine ⟨iff_of_false (by simp [UploadStage.returned]) haccounts, ?_, fun _ => hgone _ _ rfl⟩
        simp [UploadStage.returned]
    | _ => simp [UploadStage.over, UploadStage.returned, UploadStage.fails] at hover

end Complete

theorem onlyCopyFails_none {cwd : List CString} {store : UserStore} {job : FileJob}
    {files : Files} : OnlyCopyFails cwd store job files fun _ => none := by
  rintro trace stage mem ⟨errno, errno', hrun⟩ e he hfault
  exact absurd (hrun.noFault e he) hfault

end FileServer
