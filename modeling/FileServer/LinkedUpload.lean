import FileServer.FileRuns
import FileServer.LinkedFiles
import FileServer.Shared.Dialogue

/-!
# An UPLOAD call by call on files with links (worker.c, fs.c)

The task of a worker that runs alone on a tree with links, with a fault at any call.
What it does is settled by the tree it finds and the tree when both its files are open:
which file it reads, which file it writes, and which names its `unlink` and its
`remove` are about.
-/

namespace FileServer

open LexicalPath Dialogue
set_option autoImplicit false

/-- A file task between its library calls, with the value of `errno`. -/
def fileProgram (store : UserStore) (job : FileJob) :
    Program (CString × FileStage) Request CallAnswer where
  request s := fileRequest store job s.2
  resume a s := (a.error.getD s.1, fileResume store job (a.error.getD s.1) a s.2)

abbrev FileEvent := Event (CString × FileStage) CallAnswer (Option Fault)

/-- A task made with the given faults on `t` comes to a stage and leaves `n`. -/
def TaskRuns (cwd : List CString) (store : UserStore) (job : FileJob)
    (faults : Nat → Option Fault) (t : Tree) (trace : List FileEvent) (stage : FileStage)
    (n : Tree) : Prop :=
  ∃ errno, Run (fileProgram store job) (Tree.perform cwd) faults ([], firstStage store job) t trace
    (errno, stage) n

section Trees
variable (cwd : List CString) (store : UserStore) (job : FileJob) (t : Tree)

/-- The tree once the directory of the user has been made. -/
def Tree.made : Tree := (t.mkdir cwd (userDirectory store job.task.username)).2

/-- The tree once the upload has opened its files. -/
def Tree.both : Tree := ((t.made cwd store job).fopenWrite cwd (job.userPath store)).2

/-- The file that the upload reads; a directory has none. -/
def Tree.source : Option Nat := (t.fopenRead cwd job.task.tmpfile).handle.inode

/-- The file that the upload writes. -/
def Tree.destination : Nat :=
  ((t.made cwd store job).fopenWrite cwd (job.userPath store)).1.handle.inode.getD 0

/-- The upload is accepted and its files can be opened. -/
structure LinkedOpens : Prop where
  user : (job.user store).isSome = true
  size : job.task.size ≤ 10 * 1024 * 1024
  source : (t.fopenRead cwd job.task.tmpfile).error = none
  directory : (t.mkdir cwd (userDirectory store job.task.username)).1.error = none ∨
    (t.mkdir cwd (userDirectory store job.task.username)).1.error = some eexist
  destination : ((t.made cwd store job).fopenWrite cwd (job.userPath store)).1.error = none

end Trees

section Opening
variable {cwd : List CString} {t t' : Tree} {path : CString}

theorem Tree.fopenRead_ok (h : (t.fopenRead cwd path).error = none) :
    ∃ l inode, t.target cwd path = .ok l ∧ t.fopenRead cwd path = opened inode ∧
      ((inode = none ∧ t.entry l = .dir) ∨ ∃ k, inode = some k ∧ t.entry l = .file k) := by
  unfold Tree.fopenRead at h ⊢
  split at h
  · contradiction
  · rename_i l hl
    split at h
    · contradiction
    · contradiction
    · rename_i hdir
      exact ⟨l, none, hl, rfl, Or.inl ⟨rfl, hdir⟩⟩
    · rename_i k hk
      exact ⟨l, some k, hl, rfl, Or.inr ⟨k, rfl, hk⟩⟩

theorem fopenRead_stays (hstays : ∀ q, Stays t t' q) (h : (t.fopenRead cwd path).error = none) :
    t'.fopenRead cwd path = t.fopenRead cwd path := by
  obtain ⟨l, inode, htarget, heq, hentry⟩ := Tree.fopenRead_ok h
  have htarget' : t'.target cwd path = .ok l := lead_stays (fun q _ => hstays q) htarget
  rw [heq, Tree.fopenRead, htarget']
  rcases hentry with ⟨rfl, hdir⟩ | ⟨k, rfl, hk⟩
  · simp only [(hstays l).dir hdir]
  · simp only [(hstays l).file hk]

theorem Tree.perform_fopenWrite_ok {fault : Option Fault}
    (h : (t.perform cwd fault ⟨path, .fopenWrite⟩).1.error = none) :
    fault = none ∧ ∃ m, t.fopenWrite cwd path = (opened (some m), (t.fopenWrite cwd path).2) ∧
      (t.fopenWrite cwd path).2.contents m = [] := by
  cases fault with
  | some f => contradiction
  | none =>
    refine ⟨rfl, ?_⟩
    change (t.fopenWrite cwd path).1.error = none at h
    rcases t.fopenWrite_cases cwd path with ⟨errno, heq⟩ | ⟨-, l, -, ⟨-, heq⟩ | ⟨k, -, heq⟩⟩
    · rw [heq] at h
      contradiction
    · rw [heq]
      exact ⟨t.next, rfl, Function.update_self _ _ _⟩
    · rw [heq]
      exact ⟨k, rfl, Function.update_self _ _ _⟩

theorem perform_stays {fault : Option Fault} {r : Request} (h : r.op ≠ .remove ∧ r.op ≠ .unlink)
    (q : Location) : Stays t (t.perform cwd fault r).2 q := by
  apply (Tree.perform_change cwd fault t r).stays
  rintro (hop | hop)
  · exact absurd hop h.1
  · exact absurd hop h.2

theorem both_stays {store : UserStore} {job : FileJob} (q : Location) :
    Stays t (t.both cwd store job) q := (mkdir_stays q).trans (fopenWrite_stays q)

end Opening

section Names
variable {cwd : List CString} {t t' : Tree} {path : CString}

theorem entry_congr (h : t'.entries = t.entries) (q : Location) : t'.entry q = t.entry q := by
  rw [Tree.entry, Tree.entry, h]

theorem lead_congr (h : t'.entries = t.entries) (last : Bool) (n : Nat) (q : Location)
    (cs : List (Component CString)) : t'.lead last n q cs = t.lead last n q cs := by
  have hstride : ∀ q cs, t'.stride last q cs = t.stride last q cs := by
    intro q cs
    induction cs generalizing q with
    | nil => rfl
    | cons c cs ih =>
      rw [Tree.stride, Tree.stride, entry_congr h, entry_congr h, ih]
  induction n generalizing q cs with
  | zero => rfl
  | succ n ih =>
    rw [Tree.lead, Tree.lead, hstride]
    split
    · rfl
    · rfl
    · exact ih _ _

theorem nameAt_congr (h : t'.entries = t.entries) : t'.nameAt cwd path = t.nameAt cwd path :=
  lead_congr h _ _ _ _

theorem target_congr (h : t'.entries = t.entries) : t'.target cwd path = t.target cwd path :=
  lead_congr h _ _ _ _

theorem set_entries_congr (h : t'.entries = t.entries) (q : Location) (e : TreeEntry) :
    (t'.set q e).entries = (t.set q e).entries := by
  simp only [Tree.set, h]

theorem unlink_entries_congr (h : t'.entries = t.entries) :
    (t'.unlink cwd path).2.entries = (t.unlink cwd path).2.entries := by
  unfold Tree.unlink
  rw [nameAt_congr h]
  split
  · exact h
  · rw [entry_congr h]
    split
    · exact h
    · exact h
    · split
      · exact h
      · exact set_entries_congr h _ _
    · split
      · exact h
      · exact set_entries_congr h _ _

theorem remove_entries_congr (h : t'.entries = t.entries) :
    (t'.remove cwd path).2.entries = (t.remove cwd path).2.entries := by
  have hempty : ∀ d, t'.isEmpty d = t.isEmpty d := by
    intro d
    simp only [Tree.isEmpty, h, entry_congr h]
  unfold Tree.remove
  rw [nameAt_congr h]
  split
  · exact h
  · rw [entry_congr h]
    split
    · exact h
    · split
      · exact h
      · exact set_entries_congr h _ _
    · split
      · exact h
      · exact set_entries_congr h _ _
    · rw [hempty]
      split
      · exact h
      split
      · exact h
      split
      · exact set_entries_congr h _ _
      · exact h

theorem Tree.unlink_contents : (t.unlink cwd path).2.contents = t.contents := by
  unfold Tree.unlink
  split
  · rfl
  · split
    · rfl
    · rfl
    · split <;> rfl
    · split <;> rfl

end Names

/-- File `m` holds the first `cnt` bytes of `src`, coded, and `o` is at its end. -/
structure CopiedSoFar (src : List Byte) (n : Tree) (m cnt : Nat) (o : Handle) : Prop where
  content : n.contents m = codeFile (src.take cnt)
  offset : o.offset = cnt
  aligned : blockSize ∣ cnt ∨ src.length ≤ cnt
  bound : cnt ≤ src.length

/-- Between the blocks: the names are those of `both`, and so is what the upload reads. -/
structure Midway (both n : Tree) (source : Option Nat) (m : Nat) (i o : Handle) : Prop where
  names : n.entries = both.entries
  reads : i.inode = source
  writes : o.inode = some m
  bytes : ∀ k, source = some k → n.contents k = both.contents k

/-- All of the source is in the destination, coded. -/
def CopiedWhole (both n : Tree) (source : Option Nat) (m : Nat) : Prop :=
  ∃ k, source = some k ∧ n.contents m = codeFile (both.contents k)

/-- The block that has been read, if no read has failed, is the next one. -/
def HoldsNext (src : List Byte) (n : Tree) (m : Nat) (i o : Handle) (block : List Byte) : Prop :=
  src ≠ [] ∧ (i.error = true ∨ ∃ cnt, CopiedSoFar src n m cnt o ∧ i.offset = cnt + block.length ∧
    block = nextBlock src cnt ∧ block ≠ [])

/-- What is known of an upload at a stage: `t` is what it found, `n` the tree then. -/
def UploadKnows (cwd : List CString) (store : UserStore) (job : FileJob) (t n : Tree) :
    UploadStage → Prop
  | .testTmpfile => n = t ∧ (job.user store).isSome = true ∧ job.task.size ≤ 10 * 1024 * 1024
  | .closeTest | .mkdir =>
    n = t ∧ ((job.user store).isSome = true ∧ job.task.size ≤ 10 * 1024 * 1024) ∧
      (t.fopenRead cwd job.task.tmpfile).error = none
  | .openIn =>
    n = t.made cwd store job ∧
      ((job.user store).isSome = true ∧ job.task.size ≤ 10 * 1024 * 1024) ∧
      (t.fopenRead cwd job.task.tmpfile).error = none ∧
      ((t.mkdir cwd (userDirectory store job.task.username)).1.error = none ∨
        (t.mkdir cwd (userDirectory store job.task.username)).1.error = some eexist)
  | .openOut i =>
    (n = t.made cwd store job ∧
      ((job.user store).isSome = true ∧ job.task.size ≤ 10 * 1024 * 1024) ∧
      (t.fopenRead cwd job.task.tmpfile).error = none ∧
      ((t.mkdir cwd (userDirectory store job.task.username)).1.error = none ∨
        (t.mkdir cwd (userDirectory store job.task.username)).1.error = some eexist)) ∧
      i = openedOn (t.source cwd job)
  | .read i o =>
    LinkedOpens cwd store job t ∧
      Midway (t.both cwd store job) n (t.source cwd job) (t.destination cwd store job) i o ∧
      (i.error = true ∨ ∀ k, t.source cwd job = some k →
        CopiedSoFar ((t.both cwd store job).contents k) n (t.destination cwd store job) i.offset o)
  | .encode i o block | .write i o block =>
    LinkedOpens cwd store job t ∧
      Midway (t.both cwd store job) n (t.source cwd job) (t.destination cwd store job) i o ∧
      ∃ k, t.source cwd job = some k ∧
        HoldsNext ((t.both cwd store job).contents k) n (t.destination cwd store job) i o block
  | .closeIn failure | .closeOut failure =>
    LinkedOpens cwd store job t ∧ n.entries = (t.both cwd store job).entries ∧
      (failure = none → CopiedWhole (t.both cwd store job) n (t.source cwd job)
        (t.destination cwd store job))
  | .unlinkTmpfile =>
    LinkedOpens cwd store job t ∧ n.entries = (t.both cwd store job).entries ∧
      CopiedWhole (t.both cwd store job) n (t.source cwd job) (t.destination cwd store job)
  | .remove _ | .aborted =>
    LinkedOpens cwd store job t ∧ n.entries = (t.both cwd store job).entries
  | .done _ (.ok _) =>
    LinkedOpens cwd store job t ∧
      (n.entries = (t.both cwd store job).entries ∨
        n.entries = ((t.both cwd store job).unlink cwd job.task.tmpfile).2.entries) ∧
      CopiedWhole (t.both cwd store job) n (t.source cwd job) (t.destination cwd store job)
  | .done _ (.error _) =>
    (∀ q, Stays t n q) ∨ (LinkedOpens cwd store job t ∧
      n.entries = ((t.both cwd store job).remove cwd (job.userPath store)).2.entries)
  | .abandon _ => ∀ q, Stays t n q

section Copy
variable {t n both : Tree} {fault : Option Fault} {source : Option Nat} {m k : Nat} {i o : Handle}
  {src block : List Byte} {cnt : Nat}

theorem Tree.fread_error_iff (hk : i.inode = some k) :
    (n.fread fault i).handle.error = true ↔ i.error = true ∨ fault ≠ none := by
  unfold Tree.fread
  rw [hk]
  cases fault with
  | none => simp
  | some f => simp

theorem Tree.fread_inode : (n.fread fault i).handle.inode = i.inode := by
  unfold Tree.fread
  split
  · rfl
  · cases fault <;> rfl

theorem Tree.fread_next (hk : i.inode = some k) :
    n.fread none i = ⟨none, { i with offset := i.offset + (nextBlock (n.contents k) i.offset).length },
      nextBlock (n.contents k) i.offset⟩ := by
  unfold Tree.fread
  rw [hk]
  rfl

theorem Tree.fread_bytes (hbytes : (n.fread fault i).bytes ≠ []) :
    ∃ k, i.inode = some k ∧ n.contents k ≠ [] := by
  unfold Tree.fread at hbytes
  split at hbytes
  · exact absurd rfl hbytes
  · rename_i k hk
    refine ⟨k, hk, ?_⟩
    intro hnil
    cases fault with
    | none => simp [hnil] at hbytes
    | some f => simp [hnil] at hbytes

theorem CopiedSoFar.fwrite (h : CopiedSoFar src n m cnt o) (ho : o.inode = some m)
    (hblock : block = nextBlock src cnt) (hne : block ≠ []) :
    n.fwrite none o (encodeData block) =
        (⟨none, { o with offset := cnt + block.length }, []⟩,
          n.put m (codeFile (src.take (cnt + block.length)))) ∧
      CopiedSoFar src (n.put m (codeFile (src.take (cnt + block.length)))) m (cnt + block.length)
        { o with offset := cnt + block.length } := by
  obtain ⟨hnew, haligned, hbound⟩ := writeAt_next h.aligned h.bound hblock hne
  refine ⟨?_, Function.update_self _ _ _, rfl, haligned, hbound⟩
  unfold Tree.fwrite
  rw [ho]
  simp only [h.content, h.offset, hnew, length_encodeData]

theorem Tree.fwrite_error_iff (ho : o.inode = some m) :
    (n.fwrite fault o block).1.error = none ↔ fault = none := by
  unfold Tree.fwrite
  rw [ho]
  cases fault with
  | none => simp
  | some f => simp [failed]

theorem Tree.fwrite_spares (ho : o.inode = some m) :
    (n.fwrite fault o block).2.entries = n.entries ∧
      ∀ k, k ≠ m → (n.fwrite fault o block).2.contents k = n.contents k := by
  unfold Tree.fwrite
  rw [ho]
  cases fault with
  | none => exact ⟨rfl, fun k hk => Function.update_of_ne hk _ _⟩
  | some f => exact ⟨rfl, fun k hk => Function.update_of_ne hk _ _⟩

end Copy

section Steps
variable {cwd : List CString} {store : UserStore} {job : FileJob} {t n : Tree}
  {fault : Option Fault} {errno : CString} {i o : Handle} {block : List Byte}

theorem tree_plain {path : CString} : (n.perform cwd fault ⟨path, .plain⟩).2 = n := by
  cases fault <;> rfl

theorem tree_fopenRead {path : CString} : (n.perform cwd fault ⟨path, .fopenRead⟩).2 = n := by
  cases fault <;> rfl

theorem LinkedOpens.opened (h : LinkedOpens cwd store job t) :
    (t.made cwd store job).fopenWrite cwd (job.userPath store) =
        (opened (some (t.destination cwd store job)), t.both cwd store job) ∧
      (t.both cwd store job).contents (t.destination cwd store job) = [] := by
  have hok : ((t.made cwd store job).perform cwd none ⟨job.userPath store, .fopenWrite⟩).1.error =
      none := h.destination
  obtain ⟨-, m, heq, hempty⟩ := Tree.perform_fopenWrite_ok hok
  have hm : t.destination cwd store job = m := by
    rw [Tree.destination, heq]
    rfl
  rw [hm]
  exact ⟨heq, hempty⟩

theorem stays_both_names (h : n.entries = (t.both cwd store job).entries) (q : Location) :
    Stays t n q := by
  have hboth : Stays t (t.both cwd store job) q := both_stays q
  rw [Stays, entry_congr h]
  exact hboth

theorem openOut_knows (h : UploadKnows cwd store job t n (.openOut i)) :
    UploadKnows cwd store job t (n.perform cwd fault ⟨job.userPath store, .fopenWrite⟩).2
      (uploadResume errno (n.perform cwd fault ⟨job.userPath store, .fopenWrite⟩).1 (.openOut i)) := by
  obtain ⟨⟨rfl, haccepted, hsource, hdirectory⟩, rfl⟩ := h
  simp only [uploadResume]
  split
  · rename_i hok
    obtain ⟨rfl, -⟩ := Tree.perform_fopenWrite_ok hok
    have hopens : LinkedOpens cwd store job t :=
      ⟨haccepted.1, haccepted.2, hsource, hdirectory, hok⟩
    obtain ⟨heq, hempty⟩ := hopens.opened
    change UploadKnows cwd store job t ((t.made cwd store job).fopenWrite cwd (job.userPath store)).2
      (.read _ ((t.made cwd store job).fopenWrite cwd (job.userPath store)).1.handle)
    rw [heq]
    refine ⟨hopens, ⟨rfl, rfl, rfl, fun _ _ => rfl⟩, Or.inr ?_⟩
    intro k _
    refine ⟨?_, rfl, Or.inl (Nat.dvd_zero _), Nat.zero_le _⟩
    exact hempty.trans (by rw [openedOn, List.take_zero, codeFile_nil])
  · intro q
    exact (mkdir_stays q).trans (perform_stays ⟨by simp, by simp⟩ q)

theorem read_knows (h : UploadKnows cwd store job t n (.read i o)) :
    UploadKnows cwd store job t n (uploadResume errno (n.fread fault i) (.read i o)) := by
  obtain ⟨hopens, hmid, hcopied⟩ := h
  have hmid' : Midway (t.both cwd store job) n (t.source cwd job) (t.destination cwd store job)
      (n.fread fault i).handle o :=
    ⟨hmid.names, Tree.fread_inode.trans hmid.reads, hmid.writes, hmid.bytes⟩
  -- without an error the read was of a file, and nothing went wrong before
  have hsound : (n.fread fault i).handle.error = false → ∃ k, t.source cwd job = some k ∧
      fault = none ∧ i.error = false ∧
      CopiedSoFar ((t.both cwd store job).contents k) n (t.destination cwd store job) i.offset o ∧
      n.contents k = (t.both cwd store job).contents k := by
    intro herror
    cases hk : i.inode with
    | none => simp [Tree.fread, hk] at herror
    | some k =>
      have hsource : t.source cwd job = some k := hmid.reads ▸ hk
      have hnot : ¬ (i.error = true ∨ fault ≠ none) := by
        rw [← Tree.fread_error_iff hk, herror]
        simp
      obtain ⟨hfine, hfault⟩ := not_or.mp hnot
      exact ⟨k, hsource, not_not.mp hfault, eq_false_of_ne_true hfine,
        hcopied.resolve_left hfine k hsource, hmid.bytes k hsource⟩
  simp only [uploadResume]
  split
  · rename_i hnil
    refine ⟨hopens, hmid.names, ?_⟩
    intro hfailure
    cases herror : (n.fread fault i).handle.error with
    | true => simp [herror] at hfailure
    | false =>
      obtain ⟨k, hsource, rfl, -, hcopy, hbytes⟩ := hsound herror
      have hk : i.inode = some k := hmid.reads.trans hsource
      rw [Tree.fread_next hk, hbytes] at hnil
      have hend := (nextBlock_eq_nil hcopy.bound).mp hnil
      refine ⟨k, hsource, ?_⟩
      rw [hcopy.content, hend, List.take_length]
  · rename_i hne
    obtain ⟨k, hk, hsome⟩ := Tree.fread_bytes hne
    have hsource : t.source cwd job = some k := hmid.reads ▸ hk
    refine ⟨hopens, hmid', k, hsource, hmid.bytes k hsource ▸ hsome, ?_⟩
    cases herror : (n.fread fault i).handle.error with
    | true => exact Or.inl rfl
    | false =>
      obtain ⟨k', hsource', rfl, -, hcopy, hbytes⟩ := hsound herror
      obtain rfl := Option.some.inj (hsource.symm.trans hsource')
      rw [Tree.fread_next hk, hbytes] at hne ⊢
      exact Or.inr ⟨i.offset, hcopy, rfl, rfl, hne⟩

theorem write_knows (h : UploadKnows cwd store job t n (.write i o block)) :
    UploadKnows cwd store job t (n.fwrite fault o (encodeData block)).2
      (uploadResume errno (n.fwrite fault o (encodeData block)).1 (.write i o block)) := by
  obtain ⟨hopens, hmid, k, hsource, hsome, hnext⟩ := h
  obtain ⟨-, hempty⟩ := hopens.opened
  have hapart : ∀ j, t.source cwd job = some j → j ≠ t.destination cwd store job := by
    rintro j hj rfl
    obtain rfl := Option.some.inj (hsource.symm.trans hj)
    exact hsome hempty
  obtain ⟨hnames, hcontents⟩ : (n.fwrite fault o (encodeData block)).2.entries = n.entries ∧
      ∀ j, j ≠ t.destination cwd store job →
        (n.fwrite fault o (encodeData block)).2.contents j = n.contents j :=
    Tree.fwrite_spares hmid.writes
  simp only [uploadResume]
  split
  · rename_i hok
    obtain rfl := (Tree.fwrite_error_iff hmid.writes).mp hok
    have hmid' : Midway (t.both cwd store job) (n.fwrite none o (encodeData block)).2
        (t.source cwd job) (t.destination cwd store job) i
        (n.fwrite none o (encodeData block)).1.handle := by
      refine ⟨hnames.trans hmid.names, hmid.reads, ?_, ?_⟩
      · simp [Tree.fwrite, hmid.writes]
      · intro j hj
        rw [hcontents j (hapart j hj)]
        exact hmid.bytes j hj
    refine ⟨hopens, hmid', ?_⟩
    rcases hnext with herror | ⟨cnt, hcopy, hoffset, hblock, hne⟩
    · exact Or.inl herror
    · right
      intro j hj
      obtain rfl := Option.some.inj (hsource.symm.trans hj)
      obtain ⟨heq, hgrown⟩ := hcopy.fwrite hmid.writes hblock hne
      rw [heq, hoffset]
      exact hgrown
  · exact ⟨hopens, hnames.trans hmid.names⟩

theorem remove_knows {err : CString} (h : UploadKnows cwd store job t n (.remove err)) :
    UploadKnows cwd store job t (n.perform cwd fault ⟨job.userPath store, .remove⟩).2
      (.done true (.error err)) := by
  obtain ⟨hopens, hnames⟩ := h
  cases fault with
  | none => exact Or.inr ⟨hopens, remove_entries_congr hnames⟩
  | some f => exact Or.inl fun q => stays_both_names hnames q

theorem unlink_knows (h : UploadKnows cwd store job t n .unlinkTmpfile) :
    UploadKnows cwd store job t (n.perform cwd fault ⟨job.task.tmpfile, .unlink⟩).2
      (.done true (.ok ())) := by
  obtain ⟨hopens, hnames, k, hsource, hcontent⟩ := h
  cases fault with
  | none =>
    refine ⟨hopens, Or.inr (unlink_entries_congr hnames), k, hsource, ?_⟩
    change (n.unlink cwd job.task.tmpfile).2.contents _ = _
    rw [Tree.unlink_contents, hcontent]
  | some f => exact ⟨hopens, Or.inl hnames, k, hsource, hcontent⟩

theorem testTmpfile_knows (h : UploadKnows cwd store job t n .testTmpfile) :
    UploadKnows cwd store job t (n.perform cwd fault ⟨job.task.tmpfile, .fopenRead⟩).2
      (uploadResume errno (n.perform cwd fault ⟨job.task.tmpfile, .fopenRead⟩).1 .testTmpfile) := by
  obtain ⟨rfl, haccepted⟩ := h
  rw [tree_fopenRead]
  simp only [uploadResume]
  split
  · exact Or.inl fun q => Or.inl rfl
  · rename_i hok
    have hnone : (n.perform cwd fault ⟨job.task.tmpfile, .fopenRead⟩).1.error = none := by
      simpa using hok
    cases fault with
    | some f => contradiction
    | none => exact ⟨rfl, haccepted, hnone⟩

theorem mkdir_knows (hgenuine : ∀ f, fault = some f → f.errno ≠ eexist)
    (h : UploadKnows cwd store job t n .mkdir) :
    UploadKnows cwd store job t
      (n.perform cwd fault ⟨userDirectory store job.task.username, .mkdir⟩).2
      (uploadResume errno (n.perform cwd fault ⟨userDirectory store job.task.username, .mkdir⟩).1
        .mkdir) := by
  obtain ⟨rfl, haccepted, hsource⟩ := h
  simp only [uploadResume]
  split
  · rename_i hok
    cases fault with
    | none => exact ⟨rfl, haccepted, hsource, hok⟩
    | some f =>
      rcases hok with hok | hok
      · contradiction
      · exact absurd (Option.some.inj hok) (hgenuine f rfl)
  · exact Or.inl fun q => perform_stays ⟨by simp, by simp⟩ q

theorem openIn_knows (h : UploadKnows cwd store job t n .openIn) :
    UploadKnows cwd store job t (n.perform cwd fault ⟨job.task.tmpfile, .fopenRead⟩).2
      (uploadResume errno (n.perform cwd fault ⟨job.task.tmpfile, .fopenRead⟩).1 .openIn) := by
  obtain ⟨rfl, haccepted, hsource, hdirectory⟩ := h
  rw [tree_fopenRead]
  simp only [uploadResume]
  split
  · rename_i hok
    cases fault with
    | some f => contradiction
    | none =>
      have hmade : ∀ q, Stays t (t.made cwd store job) q := fun q => mkdir_stays q
      have hagain := fopenRead_stays hmade hsource
      obtain ⟨l, inode, -, heq, -⟩ := Tree.fopenRead_ok hsource
      refine ⟨⟨rfl, haccepted, hsource, hdirectory⟩, ?_⟩
      change ((t.made cwd store job).fopenRead cwd job.task.tmpfile).handle = _
      rw [hagain, Tree.source, heq]
      rfl
  · exact Or.inl fun q => mkdir_stays q

theorem closeOut_knows {failure : Option CString}
    (h : UploadKnows cwd store job t n (.closeOut failure)) :
    UploadKnows cwd store job t n
      (uploadResume errno (n.perform cwd fault ⟨job.userPath store, .plain⟩).1
        (.closeOut failure)) := by
  obtain ⟨hopens, hnames, hwhole⟩ := h
  cases failure with
  | some err => exact ⟨hopens, hnames⟩
  | none =>
    simp only [uploadResume]
    split
    · exact ⟨hopens, hnames, hwhole rfl⟩
    · exact ⟨hopens, hnames⟩

theorem uploadResume_knows {stage : UploadStage} {r : Request}
    (hgenuine : ∀ f, fault = some f → f.errno ≠ eexist)
    (hr : uploadRequest store job stage = some r) (h : UploadKnows cwd store job t n stage) :
    UploadKnows cwd store job t (n.perform cwd fault r).2
      (uploadResume errno (n.perform cwd fault r).1 stage) := by
  cases stage with
  | testTmpfile =>
    obtain rfl := Option.some.inj hr
    exact testTmpfile_knows h
  | closeTest =>
    obtain rfl := Option.some.inj hr
    rw [tree_plain]
    exact h
  | mkdir =>
    obtain rfl := Option.some.inj hr
    exact mkdir_knows hgenuine h
  | openIn =>
    obtain rfl := Option.some.inj hr
    exact openIn_knows h
  | openOut i =>
    obtain rfl := Option.some.inj hr
    exact openOut_knows h
  | abandon text =>
    obtain rfl := Option.some.inj hr
    rw [tree_plain]
    exact Or.inl h
  | read i o =>
    obtain rfl := Option.some.inj hr
    exact read_knows h
  | encode i o block =>
    obtain rfl := Option.some.inj hr
    rw [tree_plain]
    simp only [uploadResume]
    split
    · exact h
    · obtain ⟨hopens, hmid, -⟩ := h
      refine ⟨hopens, hmid.names, ?_⟩
      intro hfailure
      split at hfailure <;> contradiction
  | write i o block =>
    obtain rfl := Option.some.inj hr
    exact write_knows h
  | closeIn failure =>
    obtain rfl := Option.some.inj hr
    rw [tree_plain]
    exact h
  | closeOut failure =>
    obtain rfl := Option.some.inj hr
    rw [tree_plain]
    exact closeOut_knows h
  | remove err =>
    obtain rfl := Option.some.inj hr
    exact remove_knows h
  | unlinkTmpfile =>
    obtain rfl := Option.some.inj hr
    exact unlink_knows h
  | aborted => contradiction
  | done opens result => contradiction

theorem taskRuns_knows {faults : Nat → Option Fault} {trace : List FileEvent} {stage : FileStage}
    (htype : job.task.type = .upload) (hgenuine : GenuineFaults faults)
    (h : TaskRuns cwd store job faults t trace stage n) :
    ∃ s, stage = .upload s ∧ UploadKnows cwd store job t n s := by
  obtain ⟨errno, hrun⟩ := h
  refine hrun.planned (I := fun s n => ∃ u, s.2 = .upload u ∧ UploadKnows cwd store job t n u) ?_ ?_
  · rw [firstStage_upload htype]
    split
    · rename_i haccepted
      exact ⟨_, rfl, rfl, haccepted⟩
    · exact ⟨_, rfl, Or.inl fun q => Or.inl rfl⟩
  · rintro k ⟨errno, stage⟩ n r ⟨u, rfl, hknows⟩ hr
    exact ⟨_, rfl, uploadResume_knows (hgenuine k) hr hknows⟩

end Steps

/-- A task made with the given faults comes to a stage after some calls. -/
def TreeComes (cwd : List CString) (store : UserStore) (job : FileJob) (faults : Nat → Option Fault)
    (t : Tree) (calls : Nat) (stage : FileStage) (n : Tree) : Prop :=
  ∃ trace errno, Run (fileProgram store job) (Tree.perform cwd) faults ([], firstStage store job) t
    trace (errno, stage) n ∧ trace.length = calls

section Comes
variable {cwd : List CString} {store : UserStore} {job : FileJob} {faults : Nat → Option Fault}
  {t n n' : Tree} {calls : Nat} {stage stage' : FileStage} {r : Request} {a : CallAnswer}

theorem TreeComes.runs (h : TreeComes cwd store job faults t calls stage n) :
    ∃ trace, TaskRuns cwd store job faults t trace stage n := by
  obtain ⟨trace, errno, hrun, -⟩ := h
  exact ⟨trace, errno, hrun⟩

theorem TreeComes.step (h : TreeComes cwd store job faults t calls stage n)
    (hr : fileRequest store job stage = some r) (hp : n.perform cwd (faults calls) r = (a, n')) :
    ∃ errno, TreeComes cwd store job faults t (calls + 1) (fileResume store job errno a stage) n' := by
  obtain ⟨trace, errno, hrun, rfl⟩ := h
  have hnext := Run.call hrun hr
  rw [hp] at hnext
  exact ⟨a.error.getD errno, _, _, hnext, by simp⟩

theorem TreeComes.call (h : TreeComes cwd store job faults t calls stage n)
    (hr : fileRequest store job stage = some r) (hp : n.perform cwd (faults calls) r = (a, n'))
    (hs : ∀ errno, fileResume store job errno a stage = stage') :
    TreeComes cwd store job faults t (calls + 1) stage' n' := by
  obtain ⟨errno, hnext⟩ := h.step hr hp
  rwa [hs] at hnext

theorem TreeComes.plain {path : CString} (h : TreeComes cwd store job faults t calls stage n)
    (hr : fileRequest store job stage = some ⟨path, .plain⟩) (hfault : faults calls = none)
    (hs : ∀ errno, fileResume store job errno succeeded stage = stage') :
    TreeComes cwd store job faults t (calls + 1) stage' n := by
  refine h.call hr ?_ hs
  rw [hfault]
  rfl

theorem linked_to_read (htype : job.task.type = .upload) (faults : Nat → Option Fault)
    (hfaults : ∀ k, k < 5 → faults k = none) (h : LinkedOpens cwd store job t) :
    TreeComes cwd store job faults t 5 (.upload (.read (openedOn (t.source cwd job))
      (openedOn (some (t.destination cwd store job))))) (t.both cwd store job) := by
  have h₀ : TreeComes cwd store job faults t 0 (.upload .testTmpfile) t := by
    refine ⟨[], [], ?_, rfl⟩
    rw [firstStage_upload htype, if_pos ⟨h.user, h.size⟩]
    exact .nil
  have h₁ : TreeComes cwd store job faults t 1 (.upload .closeTest) t := by
    refine h₀.call (a := t.fopenRead cwd job.task.tmpfile) rfl ?_ ?_
    · rw [hfaults 0 (by decide)]
      rfl
    · intro errno
      simp [fileResume, uploadResume, h.source]
  have h₂ : TreeComes cwd store job faults t 2 (.upload .mkdir) t :=
    h₁.plain rfl (hfaults 1 (by decide)) fun _ => rfl
  have h₃ : TreeComes cwd store job faults t 3 (.upload .openIn) (t.made cwd store job) := by
    refine h₂.call (a := (t.mkdir cwd (userDirectory store job.task.username)).1) rfl ?_ ?_
    · rw [hfaults 2 (by decide)]
      rfl
    · intro errno
      simp only [fileResume, uploadResume, if_pos h.directory]
  have hmade : ∀ q, Stays t (t.made cwd store job) q := fun q => mkdir_stays q
  have hagain := fopenRead_stays hmade h.source
  have hsource : t.fopenRead cwd job.task.tmpfile = opened (t.source cwd job) := by
    obtain ⟨l, inode, -, heq, -⟩ := Tree.fopenRead_ok h.source
    rw [Tree.source, heq]
    rfl
  have h₄ : TreeComes cwd store job faults t 4 (.upload (.openOut (openedOn (t.source cwd job))))
      (t.made cwd store job) := by
    refine h₃.call (a := opened (t.source cwd job)) rfl ?_ fun _ => rfl
    rw [hfaults 3 (by decide), ← hsource, ← hagain]
    rfl
  refine h₄.call (a := opened (some (t.destination cwd store job))) rfl ?_ fun _ => rfl
  rw [hfaults 4 (by decide)]
  exact h.opened.1

theorem linked_loop_ends (htype : job.task.type = .upload) (hfaults : ∀ k, faults k = none) {k : Nat}
    (hsource : t.source cwd job = some k) {i o : Handle} (herror : i.error = false)
    (h : TreeComes cwd store job faults t calls (.upload (.read i o)) n) :
    ∃ calls' n', TreeComes cwd store job faults t calls' (.upload (.closeIn none)) n' := by
  induction hrest : ((t.both cwd store job).contents k).length - i.offset
    using Nat.strong_induction_on generalizing calls i o n with
  | _ rest ih =>
    have hgenuine : GenuineFaults faults := by
      intro j f hf
      rw [hfaults] at hf
      contradiction
    obtain ⟨trace, hruns⟩ := h.runs
    obtain ⟨s, hs, hknows⟩ := taskRuns_knows htype hgenuine hruns
    obtain rfl := FileStage.upload.inj hs
    obtain ⟨-, hmid, hcopied⟩ := hknows
    have hcopy := hcopied.resolve_left (by simp [herror]) k hsource
    have hk : i.inode = some k := hmid.reads.trans hsource
    have hread : n.perform cwd (faults calls) ⟨job.task.tmpfile, .fread i⟩ = (n.fread none i, n) := by
      rw [hfaults]
      rfl
    rw [Tree.fread_next hk, hmid.bytes k hsource] at hread
    by_cases hend : nextBlock ((t.both cwd store job).contents k) i.offset = []
    · rw [hend] at hread
      refine ⟨calls + 1, n, h.call rfl hread ?_⟩
      intro errno
      simp [fileResume, uploadResume, uploadResume.leave, herror]
    · have h₁ : TreeComes cwd store job faults t (calls + 1) (.upload (.encode
          { i with offset := i.offset +
            (nextBlock ((t.both cwd store job).contents k) i.offset).length } o
          (nextBlock ((t.both cwd store job).contents k) i.offset))) n := by
        apply h.call rfl hread
        intro errno
        simp only [fileResume, uploadResume, if_neg hend]
      have h₂ : TreeComes cwd store job faults t (calls + 2) (.upload (.write
          { i with offset := i.offset +
            (nextBlock ((t.both cwd store job).contents k) i.offset).length } o
          (nextBlock ((t.both cwd store job).contents k) i.offset))) n := by
        apply h₁.plain rfl (hfaults _)
        intro errno
        simp [fileResume, uploadResume, succeeded]
      obtain ⟨after, hwrite⟩ : ∃ after, n.perform cwd (faults (calls + 2)) ⟨job.userPath store,
          .fwrite o (encodeData (nextBlock ((t.both cwd store job).contents k) i.offset))⟩ =
            (⟨none, { o with offset := i.offset +
              (nextBlock ((t.both cwd store job).contents k) i.offset).length }, []⟩, after) := by
        rw [hfaults]
        exact ⟨_, (hcopy.fwrite hmid.writes rfl hend).1⟩
      have h₃ : TreeComes cwd store job faults t (calls + 3) (.upload (.read
          { i with offset := i.offset +
            (nextBlock ((t.both cwd store job).contents k) i.offset).length }
          { o with offset := i.offset +
            (nextBlock ((t.both cwd store job).contents k) i.offset).length })) after := by
        apply h₂.call rfl hwrite
        intro errno
        simp [fileResume, uploadResume]
      have hpos := List.length_pos_of_ne_nil hend
      have hlt : i.offset ≠ ((t.both cwd store job).contents k).length := fun heq =>
        hend ((nextBlock_eq_nil hcopy.bound).mpr heq)
      have hbound := hcopy.bound
      refine ih _ ?_ ?_ h₃ rfl
      · dsimp only
        omega
      · exact herror

theorem linked_upload_ends (htype : job.task.type = .upload) (faults : Nat → Option Fault)
    (hfaults : ∀ k, faults k = none) (h : LinkedOpens cwd store job t) {k : Nat}
    (hsource : t.source cwd job = some k) :
    ∃ calls n, TreeComes cwd store job faults t calls (.upload .unlinkTmpfile) n ∧
      TreeComes cwd store job faults t (calls + 1) (.upload (.done true (.ok ())))
        (n.unlink cwd job.task.tmpfile).2 := by
  obtain ⟨calls, n, hloop⟩ := linked_loop_ends htype hfaults hsource rfl
    (linked_to_read htype faults (fun j _ => hfaults j) h)
  have h₁ : TreeComes cwd store job faults t (calls + 1) (.upload (.closeOut none)) n :=
    hloop.plain rfl (hfaults _) fun _ => rfl
  have h₂ : TreeComes cwd store job faults t (calls + 2) (.upload .unlinkTmpfile) n :=
    h₁.plain rfl (hfaults _) fun _ => rfl
  refine ⟨calls + 2, n, h₂, h₂.call (a := (n.unlink cwd job.task.tmpfile).1) rfl ?_ fun _ => rfl⟩
  rw [hfaults]
  rfl

end Comes

end FileServer
