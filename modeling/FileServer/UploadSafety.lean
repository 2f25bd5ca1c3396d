import FileServer.LinkedUpload
import FileServer.UserDirectories
import FileServer.UserSerial

/-!
# What an UPLOAD takes from other users (worker.c, fs.c)

The source of an upload is a path that the client chooses. It is opened, copied into
the directory of the user and unlinked, wherever it leads; and a failed copy removes
the destination, wherever the relpath leads. Both spare the other files of the
storage root exactly if the source is none of them under any of its names and neither
path ends with one of these names, or if one of the two files cannot be opened.
-/

namespace FileServer

open LexicalPath Dialogue Runs
set_option autoImplicit false

section Others
variable (cwd : List CString) (store : UserStore) (user : CString) (t : Tree)

/-- The name of a file or a link in the storage root, not in the directory of `user`. -/
structure OtherEntry (q : Location) : Prop where
  present : t.entry q ≠ .absent
  notDir : t.entry q ≠ .dir
  inRoot : ∃ R, t.root cwd store = .ok R ∧ StrictlyInside R q
  others : ∀ U, t.target cwd (userDirPath store user) = .ok U → ¬ StrictlyInside U q

def OtherFile (k : Nat) : Prop := ∃ q, OtherEntry cwd store user t q ∧ t.entry q = .file k

end Others

/-- The upload is about to write a block that it has read from file `k`. -/
def CopiesFrom (stage : FileStage) (k : Nat) : Prop :=
  ∃ i o block, stage = .upload (.write i o block) ∧ i.inode = some k

section Statement
variable (cwd : List CString) (store : UserStore) (job : FileJob) (t : Tree)

/-- At no point of the task, whatever faults it meets, has such a name been removed or
the content of such a file been passed on. -/
def SparesOthers : Prop :=
  ∀ faults, GenuineFaults faults → ∀ trace stage n,
    TaskRuns cwd store job faults t trace stage n →
      (∀ q, OtherEntry cwd store job.task.username t q → n.entry q = t.entry q) ∧
      ∀ k, OtherFile cwd store job.task.username t k → ¬ CopiesFrom stage k

/-- The source is such a file and not empty, or one of the two paths ends with such a
name. -/
def TouchesOther : Prop :=
  (∃ k, t.source cwd job = some k ∧ OtherFile cwd store job.task.username t k ∧
      t.contents k ≠ [] ∧ k ≠ t.destination cwd store job) ∨
    (∃ k q, t.source cwd job = some k ∧
      (t.both cwd store job).nameAt cwd job.task.tmpfile = .ok q ∧
      OtherEntry cwd store job.task.username t q) ∨
    ∃ q, (t.both cwd store job).nameAt cwd (job.userPath store) = .ok q ∧
      OtherEntry cwd store job.task.username t q

end Statement

theorem genuineFaults_none : GenuineFaults fun _ => none := by
  intro n f hf
  simp at hf

section Gone
variable {cwd : List CString} {t n : Tree} {path : CString} {q : Location}

theorem Tree.unlink_gone (hname : t.nameAt cwd path = .ok q) (hpresent : t.entry q ≠ .absent)
    (hdir : t.entry q ≠ .dir) (hlast : path.getLast? ≠ some slash) :
    t.unlink cwd path = (succeeded, t.set q .absent) := by
  unfold Tree.unlink
  rw [hname]
  dsimp only
  split
  · contradiction
  · contradiction
  · rw [if_neg hlast]
  · rw [if_neg hlast]

theorem Tree.remove_gone (hname : t.nameAt cwd path = .ok q) (hpresent : t.entry q ≠ .absent)
    (hdir : t.entry q ≠ .dir) (hlast : path.getLast? ≠ some slash) :
    t.remove cwd path = (succeeded, t.set q .absent) := by
  unfold Tree.remove
  rw [hname]
  dsimp only
  split
  · contradiction
  · rw [if_neg hlast]
  · rw [if_neg hlast]
  · contradiction

theorem entry_gone (hdir : t.entry q ≠ .dir) : (t.set q .absent).entry q = .absent := by
  have hnames : q.names ≠ [] := Tree.names_ne_nil rfl hdir
  rw [Tree.entry_set, if_neg hnames, if_pos rfl]

theorem no_slash_of_fopenRead {k : Nat} (h : (t.fopenRead cwd path).handle.inode = some k) :
    path.getLast? ≠ some slash := by
  intro hlast
  have hok : (t.fopenRead cwd path).error = none := by
    unfold Tree.fopenRead at h ⊢
    split at h
    · contradiction
    · split at h
      · contradiction
      · contradiction
      · rfl
      · rfl
  obtain ⟨l, inode, htarget, heq, hentry⟩ := Tree.fopenRead_ok hok
  rw [heq] at h
  obtain rfl : inode = some k := h
  obtain ⟨p, rfl⟩ := List.getLast?_eq_some_iff.mp hlast
  rw [Tree.target, components_slash] at htarget
  have hdir := (lead_here htarget).1
  rcases hentry with ⟨hnone, -⟩ | ⟨k', -, hfile⟩
  · contradiction
  · rw [hdir] at hfile
    contradiction

theorem no_slash_of_fopenWrite (h : (t.fopenWrite cwd path).1.error = none) :
    path.getLast? ≠ some slash := by
  rcases t.fopenWrite_cases cwd path with ⟨errno, heq⟩ | ⟨hlast, -⟩
  · rw [heq] at h
    contradiction
  · exact hlast

end Gone

section Opened
variable {cwd : List CString} {store : UserStore} {job : FileJob} {t : Tree}

theorem both_contents (h : LinkedOpens cwd store job t) :
    (t.both cwd store job).contents =
      Function.update t.contents (t.destination cwd store job) [] := by
  have hmade : (t.made cwd store job).contents = t.contents := by
    unfold Tree.made Tree.mkdir
    split
    · rfl
    · split <;> rfl
  obtain ⟨heq, -⟩ := h.opened
  rcases (t.made cwd store job).fopenWrite_cases cwd (job.userPath store) with
    ⟨errno, hfailed⟩ | ⟨-, l, -, ⟨-, hnew⟩ | ⟨k, -, hold⟩⟩
  · rw [hfailed] at heq
    cases heq
  · rw [hnew] at heq
    obtain ⟨hanswer, hboth⟩ := Prod.mk.inj heq
    have hm : (t.made cwd store job).next = t.destination cwd store job := by
      simpa [opened, openedOn] using hanswer
    rw [← hboth, ← hm, ← hmade]
    rfl
  · rw [hold] at heq
    obtain ⟨hanswer, hboth⟩ := Prod.mk.inj heq
    have hm : k = t.destination cwd store job := by
      simpa [opened, openedOn] using hanswer
    rw [← hboth, ← hm, ← hmade]
    rfl

theorem OtherEntry.both {user : CString} {q : Location} (h : OtherEntry cwd store user t q) :
    (t.both cwd store job).entry q = t.entry q := (both_stays q).present h.present

end Opened

section Spares
variable {cwd : List CString} {store : UserStore} {job : FileJob} {t n : Tree} {q : Location}

theorem entry_kept_of_unlinked (hkept : ∀ k q, t.source cwd job = some k →
      (t.both cwd store job).nameAt cwd job.task.tmpfile = .ok q →
      ¬ OtherEntry cwd store job.task.username t q) {k : Nat} (hk : t.source cwd job = some k)
    (hq : OtherEntry cwd store job.task.username t q)
    (hnames : n.entries = ((t.both cwd store job).unlink cwd job.task.tmpfile).2.entries) :
    n.entry q = t.entry q := by
  have hsame : (t.both cwd store job).entry q = t.entry q := hq.both
  rw [entry_congr hnames, ← hsame]
  apply Stays.present
  · exact unlink_stays fun hname => hkept k q hk hname hq
  · rw [hsame]
    exact hq.present

theorem entry_kept_of_removed (hkept : ∀ q,
      (t.both cwd store job).nameAt cwd (job.userPath store) = .ok q →
      ¬ OtherEntry cwd store job.task.username t q)
    (hq : OtherEntry cwd store job.task.username t q)
    (hnames : n.entries = ((t.both cwd store job).remove cwd (job.userPath store)).2.entries) :
    n.entry q = t.entry q := by
  have hsame : (t.both cwd store job).entry q = t.entry q := hq.both
  rw [entry_congr hnames, ← hsame]
  apply Stays.present
  · exact remove_stays fun hname => hkept q hname hq
  · rw [hsame]
    exact hq.present

/-- Until its last call an upload has removed nothing. -/
theorem uploadKnows_entry {stage : UploadStage} (h : UploadKnows cwd store job t n stage)
    (hspares : LinkedOpens cwd store job t → ¬ TouchesOther cwd store job t)
    (hq : OtherEntry cwd store job.task.username t q) : n.entry q = t.entry q := by
  have hstays : Stays t n q → n.entry q = t.entry q := fun hs => hs.present hq.present
  have hnames : n.entries = (t.both cwd store job).entries → n.entry q = t.entry q :=
    fun hn => hstays (stays_both_names hn q)
  cases stage with
  | testTmpfile =>
    rw [h.1]
  | closeTest =>
    rw [h.1]
  | mkdir =>
    rw [h.1]
  | openIn =>
    rw [h.1]
    exact (mkdir_stays q).present hq.present
  | openOut i =>
    rw [h.1.1]
    exact (mkdir_stays q).present hq.present
  | abandon text => exact hstays (h q)
  | read i o => exact hnames h.2.1.names
  | encode i o block => exact hnames h.2.1.names
  | write i o block => exact hnames h.2.1.names
  | closeIn failure => exact hnames h.2.1
  | closeOut failure => exact hnames h.2.1
  | unlinkTmpfile => exact hnames h.2.1
  | remove err => exact hnames h.2
  | aborted => exact hnames h.2
  | done opens result =>
    cases result with
    | ok u =>
      obtain ⟨hopens, hboth | hunlinked, k, hk, -⟩ := h
      · exact hnames hboth
      · refine entry_kept_of_unlinked ?_ hk hq hunlinked
        intro k' q' hk' hname hother
        exact hspares hopens (Or.inr (Or.inl ⟨k', q', hk', hname, hother⟩))
    | error err =>
      rcases h with hs | ⟨hopens, hremoved⟩
      · exact hstays (hs q)
      · refine entry_kept_of_removed ?_ hq hremoved
        intro q' hname hother
        exact hspares hopens (Or.inr (Or.inr ⟨q', hname, hother⟩))

theorem sparesOthers_of_untouched (htype : job.task.type = .upload)
    (hspares : ¬ (LinkedOpens cwd store job t ∧ TouchesOther cwd store job t)) :
    SparesOthers cwd store job t := by
  intro faults hgenuine trace stage n hruns
  obtain ⟨s, rfl, hknows⟩ := taskRuns_knows htype hgenuine hruns
  refine ⟨fun q hq => uploadKnows_entry hknows (fun ho ht => hspares ⟨ho, ht⟩) hq, ?_⟩
  rintro k hother ⟨i, o, block, hstage, hk⟩
  obtain rfl := FileStage.upload.inj hstage
  obtain ⟨hopens, hmid, k', hk', hsome, -⟩ := hknows
  obtain rfl : k' = k := Option.some.inj (hk'.symm.trans (hmid.reads.symm.trans hk))
  rw [both_contents hopens] at hsome
  have hne : k' ≠ t.destination cwd store job := by
    rintro heq
    rw [← heq, Function.update_self] at hsome
    contradiction
  rw [Function.update_of_ne hne] at hsome
  exact hspares ⟨hopens, Or.inl ⟨k', hk', hother, hsome, hne⟩⟩

end Spares

section Touches
variable {cwd : List CString} {store : UserStore} {job : FileJob} {t : Tree}

theorem source_copied (htype : job.task.type = .upload) (h : LinkedOpens cwd store job t) {k : Nat}
    (hk : t.source cwd job = some k) (hother : OtherFile cwd store job.task.username t k)
    (hsome : t.contents k ≠ []) (hne : k ≠ t.destination cwd store job) :
    ¬ SparesOthers cwd store job t := by
  intro hspares
  have hread := linked_to_read htype (fun _ => none) (fun _ _ => rfl) h
  rw [hk] at hread
  have hcontents : (t.both cwd store job).contents k = t.contents k := by
    rw [both_contents h, Function.update_of_ne hne]
  have hfread : (t.both cwd store job).perform cwd none ⟨job.task.tmpfile, .fread (openedOn (some k))⟩ =
      (⟨none, { openedOn (some k) with offset := 0 + (nextBlock (t.contents k) 0).length },
        nextBlock (t.contents k) 0⟩, t.both cwd store job) := by
    rw [← hcontents]
    exact congrArg (·, t.both cwd store job) (Tree.fread_next rfl)
  have hblock : nextBlock (t.contents k) 0 ≠ [] := by
    intro hnil
    exact hsome (List.length_eq_zero_iff.mp ((nextBlock_eq_nil (Nat.zero_le _)).mp hnil).symm)
  have h₆ : TreeComes cwd store job (fun _ => none) t 6 (.upload (.encode
      { openedOn (some k) with offset := 0 + (nextBlock (t.contents k) 0).length }
      (openedOn (some (t.destination cwd store job))) (nextBlock (t.contents k) 0)))
      (t.both cwd store job) := by
    apply hread.call rfl hfread
    intro errno
    simp only [fileResume, uploadResume, if_neg hblock]
  have h₇ : TreeComes cwd store job (fun _ => none) t 7 (.upload (.write
      { openedOn (some k) with offset := 0 + (nextBlock (t.contents k) 0).length }
      (openedOn (some (t.destination cwd store job))) (nextBlock (t.contents k) 0)))
      (t.both cwd store job) :=
    h₆.plain rfl rfl fun _ => rfl
  obtain ⟨trace, hruns⟩ := h₇.runs
  exact (hspares _ genuineFaults_none _ _ _ hruns).2 k hother ⟨_, _, _, rfl, rfl⟩

theorem source_unlinked (htype : job.task.type = .upload) (h : LinkedOpens cwd store job t)
    {k : Nat} {q : Location} (hk : t.source cwd job = some k)
    (hname : (t.both cwd store job).nameAt cwd job.task.tmpfile = .ok q)
    (hother : OtherEntry cwd store job.task.username t q) : ¬ SparesOthers cwd store job t := by
  intro hspares
  obtain ⟨calls, n, hbefore, hafter⟩ :=
    linked_upload_ends htype (fun _ => none) (fun _ => rfl) h hk
  obtain ⟨trace, hruns⟩ := hbefore.runs
  obtain ⟨s, hs, hknows⟩ := taskRuns_knows htype genuineFaults_none hruns
  obtain rfl := FileStage.upload.inj hs
  have hentry : n.entry q = t.entry q := by
    rw [entry_congr hknows.2.1, hother.both]
  have hgone : n.unlink cwd job.task.tmpfile = (succeeded, n.set q .absent) := by
    apply Tree.unlink_gone
    · rw [nameAt_congr hknows.2.1, hname]
    · rw [hentry]
      exact hother.present
    · rw [hentry]
      exact hother.notDir
    · exact no_slash_of_fopenRead hk
  obtain ⟨trace', hruns'⟩ := hafter.runs
  have hkept := (hspares _ genuineFaults_none _ _ _ hruns').1 q hother
  have hdir : n.entry q ≠ .dir := by
    rw [hentry]
    exact hother.notDir
  rw [hgone, entry_gone hdir] at hkept
  exact hother.present hkept.symm

def readFault (n : Nat) : Option Fault :=
  if n = 5 then some ⟨cstr "Input/output error", 0⟩ else none

theorem readFault_genuine : GenuineFaults readFault := by
  intro n f hf
  unfold readFault at hf
  split at hf
  · obtain rfl := Option.some.inj hf
    decide
  · contradiction

theorem destination_removed (htype : job.task.type = .upload) (h : LinkedOpens cwd store job t)
    {q : Location} (hname : (t.both cwd store job).nameAt cwd (job.userPath store) = .ok q)
    (hother : OtherEntry cwd store job.task.username t q) : ¬ SparesOthers cwd store job t := by
  intro hspares
  have hnone : ∀ n, n ≠ 5 → readFault n = none := fun n hn => if_neg hn
  have hread := linked_to_read htype _ (fun n hn => hnone n (Nat.ne_of_lt hn)) h
  have hfread : (t.both cwd store job).perform cwd (readFault 5)
      ⟨job.task.tmpfile, .fread (openedOn (t.source cwd job))⟩ =
      ((t.both cwd store job).fread (readFault 5) (openedOn (t.source cwd job)),
        t.both cwd store job) := rfl
  have hbytes : ((t.both cwd store job).fread (readFault 5) (openedOn (t.source cwd job))).bytes = [] ∧
      ((t.both cwd store job).fread (readFault 5) (openedOn (t.source cwd job))).handle.error =
        true := by
    cases hsource : t.source cwd job with
    | none => exact ⟨rfl, rfl⟩
    | some k => exact ⟨by simp [Tree.fread, openedOn, readFault], rfl⟩
  obtain ⟨errno, h₆⟩ := hread.step rfl hfread
  simp only [fileResume, uploadResume, if_pos hbytes.1, uploadResume.leave, if_pos hbytes.2] at h₆
  have h₇ : TreeComes cwd store job readFault t 7
      (.upload (.closeOut (some (cstr "Read error: " ++ errno)))) (t.both cwd store job) :=
    h₆.plain rfl (hnone 6 (by decide)) fun _ => rfl
  have h₈ : TreeComes cwd store job readFault t 8
      (.upload (.remove (cstr "Read error: " ++ errno))) (t.both cwd store job) :=
    h₇.plain rfl (hnone 7 (by decide)) fun _ => rfl
  have hdir : (t.both cwd store job).entry q ≠ .dir := by
    rw [hother.both]
    exact hother.notDir
  have hremove : (t.both cwd store job).perform cwd (readFault 8) ⟨job.userPath store, .remove⟩ =
      (succeeded, (t.both cwd store job).set q .absent) := by
    rw [hnone 8 (by decide)]
    refine Tree.remove_gone hname ?_ hdir (no_slash_of_fopenWrite h.destination)
    rw [hother.both]
    exact hother.present
  obtain ⟨errno', h₉⟩ := h₈.step rfl hremove
  obtain ⟨trace, hruns⟩ := h₉.runs
  have hkept := (hspares _ readFault_genuine _ _ _ hruns).1 q hother
  rw [entry_gone hdir] at hkept
  exact hother.present hkept.symm

end Touches

theorem upload_spares_iff (cwd : List CString) (store : UserStore) (job : FileJob) (t : Tree)
    (htype : job.task.type = .upload) :
    SparesOthers cwd store job t ↔
      ¬ (LinkedOpens cwd store job t ∧ TouchesOther cwd store job t) := by
  constructor
  · rintro hspares ⟨hopens, ⟨k, hk, hother, hsome, hne⟩ | ⟨k, q, hk, hname, hother⟩ |
      ⟨q, hname, hother⟩⟩
    · exact source_copied htype hopens hk hother hsome hne hspares
    · exact source_unlinked htype hopens hk hname hother hspares
    · exact destination_removed htype hopens hname hother hspares
  · exact sparesOthers_of_untouched htype

section Examples

theorem Tree.entry_mem {t : Tree} {q : Location} {k : Nat} (h : t.entry q = .file k) :
    (q, TreeEntry.file k) ∈ t.entries := by
  unfold Tree.entry at h
  split at h
  · contradiction
  · cases hlookup : t.entries.lookup q with
    | none =>
      rw [hlookup] at h
      contradiction
    | some e =>
      rw [hlookup] at h
      obtain rfl : e = .file k := h
      obtain ⟨before, after, hentries, -⟩ := List.lookup_eq_some_iff.mp hlookup
      rw [hentries]
      exact List.mem_append_right _ List.mem_cons_self

/-- A server in `/srv` and a file in `/tmp`; `/proc/self/cwd` is a link to `/srv`. -/
def treeAndTmp : Tree where
  entries := emptyTree.entries ++ [(locate [] (cstr "tmp"), .dir),
    (locate [] (cstr "tmp/s"), .file 0), (locate [] (cstr "proc"), .dir),
    (locate [] (cstr "proc/self"), .dir),
    (locate [] (cstr "proc/self/cwd"), .link (cstr "/srv"))]
  contents k := if k = 0 then cstr "s" else []
  next := 1

def treeWithSecret : Tree where
  entries := treeAndTmp.entries ++ [(locate [] (cstr "srv/storage/bob"), .dir),
    (locate [] (cstr "srv/storage/bob/secret"), .file 1)]
  contents k := if k = 0 then cstr "s" else if k = 1 then cstr "b" else []
  next := 2

theorem upload_from_tmp_spares :
    (aliceUpload "/tmp/s").task.type = .upload ∧
    LinkedOpens [cstr "srv"] aliceAndBob (aliceUpload "/tmp/s") treeWithSecret ∧
    SparesOthers [cstr "srv"] aliceAndBob (aliceUpload "/tmp/s") treeWithSecret := by
  refine ⟨rfl, ⟨by decide +kernel, by decide, by decide +kernel, by decide +kernel,
    by decide +kernel⟩, ?_⟩
  rw [upload_spares_iff _ _ _ _ rfl]
  have hroot : treeWithSecret.root [cstr "srv"] aliceAndBob =
      .ok (locate [] (cstr "srv/storage")) := by decide +kernel
  have hinside : ∀ {user : CString} {q : Location},
      OtherEntry [cstr "srv"] aliceAndBob user treeWithSecret q →
      StrictlyInside (locate [] (cstr "srv/storage")) q := by
    intro user q hother
    obtain ⟨R, hR, hq⟩ := hother.inRoot
    rw [hroot] at hR
    rwa [← Except.ok.inj hR] at hq
  have hsource : treeWithSecret.source [cstr "srv"] (aliceUpload "/tmp/s") = some 0 := by
    decide +kernel
  have htmp : (treeWithSecret.both [cstr "srv"] aliceAndBob (aliceUpload "/tmp/s")).nameAt
      [cstr "srv"] (aliceUpload "/tmp/s").task.tmpfile = .ok (locate [] (cstr "tmp/s")) := by
    decide +kernel
  have hx : (treeWithSecret.both [cstr "srv"] aliceAndBob (aliceUpload "/tmp/s")).nameAt
      [cstr "srv"] ((aliceUpload "/tmp/s").userPath aliceAndBob) =
        .ok (locate [] (cstr "srv/storage/alice/x")) := by
    decide +kernel
  rintro ⟨-, ⟨k, hk, ⟨q, hother, hq⟩, -⟩ | ⟨k, q, -, hname, hother⟩ | ⟨q, hname, hother⟩⟩
  · obtain rfl := Option.some.inj (hsource.symm.trans hk)
    have hapart : ∀ e ∈ treeWithSecret.entries, e.2 = .file 0 →
        ¬ StrictlyInside (locate [] (cstr "srv/storage")) e.1 := by decide +kernel
    exact hapart _ (Tree.entry_mem hq) rfl (hinside hother)
  · rw [htmp] at hname
    obtain rfl := Except.ok.inj hname
    exact absurd (hinside hother) (by decide +kernel)
  · rw [hx] at hname
    obtain rfl := Except.ok.inj hname
    exact hother.present (by decide +kernel)

def bobUploads : List (WorkLabel (Fin 1)) :=
  command "SIGNUP alice pw" 2 ++ command "SIGNUP bob pw" 2 ++ command "UPLOAD bob secret 1 /tmp/s" 13

def bobSecret : Location := locate [] (cstr "srv/storage/bob/secret")

/-- `UPLOAD alice x 1 /proc/self/cwd/storage/bob/secret` takes the file of `bob`. -/
theorem upload_takes_secret :
    ¬ ∀ (workers : Nat) (cwd : List CString) (store : UserStore) (t : Tree)
      (s : Workshop (Fin workers) Tree), WorkReached (treeDisk cwd) store t (fun _ _ => True) s →
      ∀ job : FileJob, job.task.type = .upload → job.task.username ∈ s.store.names →
        SparesOthers cwd s.store job s.files := by
  intro h
  have hview : ((exec (workStep (treeDisk [cstr "srv"])) (workStart emptyStore treeAndTmp)
      bobUploads).bind fun s => ((fileProgram s.store
        (aliceUpload "/proc/self/cwd/storage/bob/secret")).steps (Tree.perform [cstr "srv"])
          (fun _ => none) ([], firstStage s.store (aliceUpload "/proc/self/cwd/storage/bob/secret"))
          s.files 12).map fun r =>
            decide (cstr "alice" ∈ s.store.names ∧
              s.files.root [cstr "srv"] s.store = .ok (locate [] (cstr "srv/storage")) ∧
              s.files.target [cstr "srv"] (userDirPath s.store (cstr "alice")) =
                .ok (locate [] (cstr "srv/storage/alice")) ∧
              s.files.entry bobSecret = .file 1 ∧ r.2.2.entry bobSecret = .absent)) =
        some true := by
    decide +kernel
  obtain ⟨htype, huser⟩ :
      (aliceUpload "/proc/self/cwd/storage/bob/secret").task.type = .upload ∧
      (aliceUpload "/proc/self/cwd/storage/bob/secret").task.username = cstr "alice" :=
    ⟨rfl, by decide +kernel⟩
  generalize aliceUpload "/proc/self/cwd/storage/bob/secret" = job at hview htype huser
  obtain ⟨s, hexec, hs⟩ := Option.bind_eq_some_iff.mp hview
  obtain ⟨⟨trace, ⟨errno, stage⟩, n⟩, hsteps, hr⟩ := Option.map_eq_some_iff.mp hs
  obtain ⟨hname, hroot, hdir, hfile, hgone⟩ := of_decide_eq_true hr
  have hreach : WorkReached (treeDisk [cstr "srv"]) emptyStore treeAndTmp (fun _ _ => True) s :=
    .of_exec .start (guarded_of_forall (fun _ _ _ => trivial) _) hexec
  have hother : OtherEntry [cstr "srv"] s.store job.task.username s.files bobSecret := by
    refine ⟨by simp [hfile], by simp [hfile], ⟨_, hroot, by decide +kernel⟩, ?_⟩
    intro U hU
    rw [huser, hdir] at hU
    obtain rfl := Except.ok.inj hU
    decide +kernel
  have hspares := h 1 _ _ _ s hreach job htype (huser ▸ hname) _ genuineFaults_none _ _ _
    ⟨errno, Run.of_steps hsteps⟩
  have hkept := hspares.1 bobSecret hother
  rw [hfile, hgone] at hkept
  contradiction

end Examples

end FileServer
