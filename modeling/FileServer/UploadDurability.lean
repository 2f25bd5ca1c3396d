import FileServer.UploadSafety

/-!
# What an UPLOAD answered OK has stored (worker.c, fs.c)

The worker unlinks the source of an upload once `fs_upload` has returned true. If the
source is the file that the destination leads to, under this name or another one, the
upload empties it when it opens it for writing, finds nothing to copy and answers OK;
and the `unlink` may take the only name away. In every other case an upload answered
OK leaves the whole coded source at its destination.
-/

namespace FileServer

open LexicalPath Dialogue Runs
set_option autoImplicit false

/-- The worker answers OK "uploaded" to a task that has come to this stage. -/
def AnswersUploaded (store : UserStore) (job : FileJob) (stage : FileStage) : Prop :=
  .sendResponse .ok (cstr "uploaded") ∈ (FileProcess.mk job 0 [] stage).responses store

instance (store : UserStore) (job : FileJob) (stage : FileStage) :
    Decidable (AnswersUploaded store job stage) := inferInstanceAs (Decidable (_ ∈ _))

section Statement
variable (cwd : List CString) (store : UserStore) (job : FileJob) (t : Tree)

/-- Whenever the upload is answered OK, its destination decodes to what its source held. -/
def UploadDurable : Prop :=
  ∀ faults, GenuineFaults faults → ∀ trace stage n,
    TaskRuns cwd store job faults t trace stage n → AnswersUploaded store job stage →
    ∃ stored, n.contentAt cwd (job.userPath store) = some stored ∧
      t.contentAt cwd job.task.tmpfile = some (codeFile stored)

/-- The source is the file at the destination and not empty, or the path of the
destination goes through the name that the tmpfile ends with. -/
def SourceAtDestination : Prop :=
  ∃ k, t.source cwd job = some k ∧
    ((k = t.destination cwd store job ∧ t.contents k ≠ []) ∨
      ∃ q, (t.both cwd store job).nameAt cwd job.task.tmpfile = .ok q ∧
        q ∈ (t.both cwd store job).way true strides (origin cwd (job.userPath store))
          (components (job.userPath store)))

end Statement

section Answers
variable {store : UserStore} {job : FileJob} {stage : UploadStage}

theorem uploadResult_stored {files : FileResults} {t : Task} {user : Option User}
    (h : uploadResult files t user = .ok ()) : files.tmpfileOpens = true ∧ files.upload = .ok () := by
  unfold uploadResult at h
  split at h
  · contradiction
  · split at h
    · split at h
      · contradiction
      · split at h
        · rename_i hopens
          split at h
          · rename_i hupload
            exact ⟨hopens, hupload⟩
          · contradiction
        · contradiction
    · contradiction

theorem done_of_answersUploaded (htype : job.task.type = .upload)
    (h : AnswersUploaded store job (.upload stage)) : stage = .done true (.ok ()) := by
  unfold AnswersUploaded FileProcess.responses at h
  split at h
  · simp at h
  · simp only [processTask, htype, processUpload] at h
    split at h
    · rename_i hresult
      obtain ⟨hopens, hupload⟩ := uploadResult_stored hresult
      cases stage with
      | done opens result =>
        obtain rfl : opens = true := hopens
        obtain rfl : result = .ok () := hupload
        rfl
      | _ => contradiction
    · simp at h

theorem answersUploaded_of_done {cwd : List CString} {t : Tree} (htype : job.task.type = .upload)
    (h : LinkedOpens cwd store job t) :
    AnswersUploaded store job (.upload (.done true (.ok ()))) := by
  obtain ⟨u, hu⟩ := Option.isSome_iff_exists.mp h.user
  have hlocks : locksUser job.task.toTask = true := by
    by_contra hnot
    rw [FileJob.user, if_neg hnot] at hu
    contradiction
  have hargs : ¬ (job.task.path = [] ∨ job.task.tmpfile = []) := by
    simpa [locksUser, htype] using hlocks
  have hsize : ¬ (job.task.size > 10 * 1024 * 1024 ∧ u.priority.rank < TaskPriority.high.rank) :=
    fun hlarge => Nat.not_lt.mpr h.size hlarge.1
  have hresult : uploadResult (FileStage.upload (.done true (.ok ()))).results job.task.toTask
      (some u) = .ok () := by
    simp only [uploadResult, if_neg hargs, if_neg hsize, FileStage.results, if_true]
  have hgoes : (FileStage.upload (.done true (.ok ()))).aborted = false := rfl
  unfold AnswersUploaded FileProcess.responses processTask
  simp only [htype, hu, processUpload, hresult, hgoes, Bool.false_eq_true, if_false]
  exact List.mem_cons_self

end Answers

section Gone
variable {t : Tree} {last : Bool} {q l a : Location} {cs : List (Component CString)}

theorem entry_set_absent (ha : a.names ≠ []) (l : Location) :
    (t.set a .absent).entry l = if l = a then .absent else t.entry l := by
  rw [Tree.entry_set]
  split
  · rename_i hnil
    have hne : l ≠ a := by
      rintro rfl
      exact ha hnil
    rw [if_neg hne, Tree.entry, if_pos hnil]
  · rfl

theorem stride_from_gone (ha : a.names ≠ []) (cs : List (Component CString)) :
    (∃ errno, (t.set a .absent).stride last a cs = .barred errno) ∨
      (t.set a .absent).stride last a cs = .arrived a := by
  cases cs with
  | nil => exact Or.inr rfl
  | cons c cs =>
    left
    refine ⟨enoent, ?_⟩
    rw [Tree.stride, entry_set_absent ha, if_pos rfl]

theorem stride_gone (last : Bool) (ha : a.names ≠ []) (hmem : a ∈ t.looks q cs) :
    (∃ errno, (t.set a .absent).stride last q cs = .barred errno) ∨
      (t.set a .absent).stride last q cs = .arrived a := by
  induction cs generalizing q with
  | nil =>
    obtain rfl := List.mem_singleton.mp hmem
    exact Or.inr rfl
  | cons c cs ih =>
    by_cases hself : q = a
    · rw [hself]
      exact stride_from_gone ha (c :: cs)
    by_cases hbarred : ∃ errno, (t.set a .absent).stride last q (c :: cs) = .barred errno
    · exact Or.inl hbarred
    obtain ⟨hdir, hshort⟩ := stride_dir (not_exists.mp hbarred)
    by_cases hnext : q.walk c = a
    · have hnot : ∀ target, (t.set a .absent).entry (q.walk c) ≠ .link target := by
        intro target
        rw [hnext, entry_set_absent ha, if_pos rfl]
        simp
      rw [stride_cons hdir hshort hnot, hnext]
      exact stride_from_gone ha cs
    · have hsame : (t.set a .absent).entry (q.walk c) = t.entry (q.walk c) := by
        rw [entry_set_absent ha, if_neg hnext]
      have hnot : ∀ target, t.entry (q.walk c) ≠ .link target := by
        intro target hlink
        rw [Tree.looks, hlink] at hmem
        simp [Ne.symm hself, Ne.symm hnext] at hmem
      rw [looks_cons hnot] at hmem
      rw [stride_cons hdir hshort (hsame ▸ hnot)]
      exact ih ((List.mem_cons.mp hmem).resolve_left (Ne.symm hself))

theorem lead_gone (ha : a.names ≠ []) {n : Nat} (hmem : a ∈ t.way last n q cs)
    (hl : (t.set a .absent).lead last n q cs = .ok l) : l = a := by
  induction n generalizing q cs with
  | zero => contradiction
  | succ n ih =>
    rw [Tree.lead] at hl
    by_cases hlooks : a ∈ t.looks q cs
    · rcases stride_gone last ha hlooks with ⟨errno, hbarred⟩ | harrived
      · rw [hbarred] at hl
        contradiction
      · rw [harrived] at hl
        exact (Except.ok.inj hl).symm
    · have hrest := (List.mem_append.mp hmem).resolve_left hlooks
      cases hs : t.stride last q cs with
      | arrived m => simp [hs] at hrest
      | barred errno => simp [hs] at hrest
      | turned q' cs' =>
        rw [hs] at hrest
        have hsame : (t.set a .absent).stride last q cs = t.stride last q cs := by
          apply stride_stays
          · intro m hm
            left
            rw [entry_set_absent ha, if_neg]
            rintro rfl
            exact hlooks hm
          · simp [hs]
        rw [hsame, hs] at hl
        exact ih hrest hl

/-- Only a link at the end of the path makes a difference. -/
theorem stride_nolink
    (h : ∀ l, t.stride false q cs = .arrived l → ∀ target, t.entry l ≠ .link target)
    (hpasses : ∀ errno, t.stride false q cs ≠ .barred errno) :
    t.stride true q cs = t.stride false q cs := by
  induction cs generalizing q with
  | nil => rfl
  | cons c cs ih =>
    obtain ⟨hdir, hshort⟩ := stride_dir hpasses
    by_cases hlink : ∃ target, t.entry (q.walk c) = .link target
    · obtain ⟨target, hlink⟩ := hlink
      by_cases hend : cs = []
      · subst hend
        have harrived : t.stride false q [c] = .arrived (q.walk c) := by
          simp only [Tree.stride, hdir, hshort, hlink, and_self, if_true, Bool.false_eq_true,
            if_false]
        exact absurd hlink (h _ harrived target)
      · rw [stride_link hdir hshort hlink (by simp), stride_link hdir hshort hlink (by simp [hend])]
    · have hnot := not_exists.mp hlink
      rw [stride_cons hdir hshort hnot] at h hpasses
      rw [stride_cons hdir hshort hnot, stride_cons hdir hshort hnot]
      exact ih h hpasses

theorem lead_nolink {n : Nat} (hl : t.lead false n q cs = .ok l)
    (h : ∀ target, t.entry l ≠ .link target) : t.lead true n q cs = .ok l := by
  induction n generalizing q cs with
  | zero => contradiction
  | succ n ih =>
    rw [Tree.lead] at hl ⊢
    have hsame : t.stride true q cs = t.stride false q cs := by
      apply stride_nolink
      · intro m harrived
        rw [harrived] at hl
        rw [Except.ok.inj hl]
        exact h
      · intro errno hbarred
        rw [hbarred] at hl
        contradiction
    rw [hsame]
    cases hs : t.stride false q cs with
    | arrived m => rwa [hs] at hl
    | barred errno =>
      rw [hs] at hl
      contradiction
    | turned q' cs' =>
      rw [hs] at hl
      exact ih hl

variable {cwd : List CString} {path : CString}

theorem contentAt_none_congr {t' : Tree} (hnames : t'.entries = t.entries)
    (h : t.contentAt cwd path = none) : t'.contentAt cwd path = none := by
  unfold Tree.contentAt at h ⊢
  rw [target_congr hnames]
  cases htarget : t.target cwd path with
  | error errno => rfl
  | ok l =>
    simp only [htarget, entry_congr hnames] at h ⊢
    cases hentry : t.entry l with
    | file k => simp [hentry] at h
    | _ => rfl

theorem name_of_fopenRead {k : Nat} (hk : (t.fopenRead cwd path).handle.inode = some k)
    (hname : t.nameAt cwd path = .ok q) : t.entry q ≠ .absent ∧ t.entry q ≠ .dir := by
  have hlast := no_slash_of_fopenRead hk
  have hfile : (∀ target, t.entry q ≠ .link target) → ∃ k, t.entry q = .file k := by
    intro hnot
    have htarget : t.target cwd path = .ok q := by
      rw [Tree.nameAt, trimSlashes_of_getLast hlast] at hname
      exact lead_nolink hname hnot
    unfold Tree.fopenRead at hk
    rw [htarget] at hk
    cases hentry : t.entry q with
    | file k' => exact ⟨k', rfl⟩
    | _ => simp [hentry, failed, opened, openedOn] at hk
  constructor
  · intro habsent
    obtain ⟨k', hk'⟩ := hfile (by simp [habsent])
    simp [habsent] at hk'
  · intro hdir
    obtain ⟨k', hk'⟩ := hfile (by simp [hdir])
    simp [hdir] at hk'

theorem contentAt_gone (ha : a.names ≠ [])
    (hmem : a ∈ t.way true strides (origin cwd path) (components path)) :
    (t.set a .absent).contentAt cwd path = none := by
  unfold Tree.contentAt
  split
  · rfl
  · rename_i l hl
    obtain rfl := lead_gone ha hmem hl
    rw [entry_set_absent ha, if_pos rfl]

end Gone

section Ends
variable {cwd : List CString} {store : UserStore} {job : FileJob} {t n : Tree}

theorem contentAt_names {path : CString} {l : Location} {k : Nat}
    (htarget : n.target cwd path = .ok l) (hentry : n.entry l = .file k) :
    n.contentAt cwd path = some (n.contents k) := by
  rw [Tree.contentAt, htarget]
  simp only [hentry]

theorem both_target (h : LinkedOpens cwd store job t) :
    ∃ l, (t.both cwd store job).target cwd (job.userPath store) = .ok l ∧
      (t.both cwd store job).entry l = .file (t.destination cwd store job) := by
  obtain ⟨heq, -⟩ := h.opened
  have hstays : ∀ q, Stays (t.made cwd store job) (t.both cwd store job) q :=
    fun q => fopenWrite_stays q
  rcases (t.made cwd store job).fopenWrite_cases cwd (job.userPath store) with
    ⟨errno, hfailed⟩ | ⟨-, l, htarget, ⟨habsent, hnew⟩ | ⟨k, hfile, hold⟩⟩
  · rw [hfailed] at heq
    cases heq
  · refine ⟨l, lead_stays (fun q _ => hstays q) htarget, ?_⟩
    rw [hnew] at heq
    obtain ⟨hanswer, hboth⟩ := Prod.mk.inj heq
    have hm : (t.made cwd store job).next = t.destination cwd store job := by
      simpa [opened, openedOn] using hanswer
    have hnames : l.names ≠ [] := Tree.names_ne_nil habsent (by simp)
    rw [← hboth, Tree.entry_create, if_neg hnames, if_pos rfl, hm]
  · refine ⟨l, lead_stays (fun q _ => hstays q) htarget, ?_⟩
    rw [hold] at heq
    obtain ⟨hanswer, -⟩ := Prod.mk.inj heq
    have hm : k = t.destination cwd store job := by
      simpa [opened, openedOn] using hanswer
    rw [← hm]
    exact (hstays l).file hfile

theorem contentAt_ended (h : LinkedOpens cwd store job t)
    (hnames : n.entries = (t.both cwd store job).entries ∨
      n.entries = ((t.both cwd store job).unlink cwd job.task.tmpfile).2.entries)
    (hapart : ∀ q, (t.both cwd store job).nameAt cwd job.task.tmpfile = .ok q →
      q ∉ (t.both cwd store job).way true strides (origin cwd (job.userPath store))
        (components (job.userPath store))) :
    n.contentAt cwd (job.userPath store) = some (n.contents (t.destination cwd store job)) := by
  obtain ⟨l, htarget, hentry⟩ := both_target h
  have hstays : ∀ q ∈ (t.both cwd store job).way true strides (origin cwd (job.userPath store))
      (components (job.userPath store)), Stays (t.both cwd store job) n q := by
    intro q hq
    rcases hnames with hboth | hunlinked
    · exact Or.inl (entry_congr hboth q)
    · rw [Stays, entry_congr hunlinked]
      exact unlink_stays fun hname => hapart q hname hq
  exact contentAt_names (lead_stays hstays htarget) ((hstays l (lead_mem_way htarget)).file hentry)

theorem source_contentAt {k : Nat} (hk : t.source cwd job = some k)
    (h : LinkedOpens cwd store job t) : t.contentAt cwd job.task.tmpfile = some (t.contents k) := by
  obtain ⟨l, inode, htarget, heq, hentry⟩ := Tree.fopenRead_ok h.source
  rw [Tree.source, heq] at hk
  obtain rfl : inode = some k := hk
  rcases hentry with ⟨hnone, -⟩ | ⟨k', hk', hfile⟩
  · contradiction
  · obtain rfl := Option.some.inj hk'
    exact contentAt_names htarget hfile

end Ends

section Durable
variable {cwd : List CString} {store : UserStore} {job : FileJob} {t : Tree}

theorem durable_of_apart (htype : job.task.type = .upload)
    (hapart : ¬ (LinkedOpens cwd store job t ∧ SourceAtDestination cwd store job t)) :
    UploadDurable cwd store job t := by
  intro faults hgenuine trace stage n hruns hanswers
  obtain ⟨s, rfl, hknows⟩ := taskRuns_knows htype hgenuine hruns
  obtain rfl := done_of_answersUploaded htype hanswers
  obtain ⟨hopens, hnames, k, hk, hcopied⟩ := hknows
  have hstored : n.contentAt cwd (job.userPath store) =
      some (n.contents (t.destination cwd store job)) := by
    refine contentAt_ended hopens hnames ?_
    intro q hname hway
    exact hapart ⟨hopens, k, hk, Or.inr ⟨q, hname, hway⟩⟩
  have hsame : (t.both cwd store job).contents k = t.contents k := by
    rw [both_contents hopens]
    by_cases hne : k = t.destination cwd store job
    · have hempty : t.contents k = [] := by
        by_contra hsome
        exact hapart ⟨hopens, k, hk, Or.inl ⟨hne, hsome⟩⟩
      rw [hempty, hne, Function.update_self]
    · rw [Function.update_of_ne hne]
  refine ⟨_, hstored, ?_⟩
  rw [hcopied, codeFile_codeFile, hsame]
  exact source_contentAt hk hopens

theorem aliased_upload_loses (htype : job.task.type = .upload) (h : LinkedOpens cwd store job t)
    (hat : SourceAtDestination cwd store job t) : ¬ UploadDurable cwd store job t := by
  intro hdurable
  obtain ⟨k, hk, hcases⟩ := hat
  obtain ⟨calls, n, hbefore, hafter⟩ :=
    linked_upload_ends htype (fun _ => none) (fun _ => rfl) h hk
  obtain ⟨trace, hruns⟩ := hbefore.runs
  obtain ⟨s, hs, hknows⟩ := taskRuns_knows htype genuineFaults_none hruns
  obtain rfl := FileStage.upload.inj hs
  obtain ⟨-, hnames, k', hk', hcopied⟩ := hknows
  obtain rfl : k' = k := Option.some.inj (hk'.symm.trans hk)
  obtain ⟨trace', hruns'⟩ := hafter.runs
  obtain ⟨stored, hstored, hsource⟩ := hdurable _ genuineFaults_none _ _ _ hruns'
    (answersUploaded_of_done htype h)
  rw [source_contentAt hk h] at hsource
  by_cases hway : ∃ q, (t.both cwd store job).nameAt cwd job.task.tmpfile = .ok q ∧
      q ∈ (t.both cwd store job).way true strides (origin cwd (job.userPath store))
        (components (job.userPath store))
  · obtain ⟨q, hname, hmem⟩ := hway
    have hagain : ((t.both cwd store job).fopenRead cwd job.task.tmpfile).handle.inode = some k' := by
      rw [fopenRead_stays (fun q => both_stays q) h.source]
      exact hk
    obtain ⟨hpresent, hdir⟩ := name_of_fopenRead hagain hname
    have hgone : (t.both cwd store job).unlink cwd job.task.tmpfile =
        (succeeded, (t.both cwd store job).set q .absent) :=
      Tree.unlink_gone hname hpresent hdir (no_slash_of_fopenRead hk)
    have hentries : (n.unlink cwd job.task.tmpfile).2.entries =
        ((t.both cwd store job).set q .absent).entries := by
      rw [unlink_entries_congr hnames, hgone]
    have hnone : ((t.both cwd store job).set q .absent).contentAt cwd (job.userPath store) = none :=
      contentAt_gone (Tree.names_ne_nil rfl hdir) hmem
    rw [contentAt_none_congr hentries hnone] at hstored
    contradiction
  · have hkept := contentAt_ended (n := (n.unlink cwd job.task.tmpfile).2) h
      (Or.inr (unlink_entries_congr hnames)) fun q hname hmem => hway ⟨q, hname, hmem⟩
    obtain ⟨rfl, hsome⟩ := hcases.resolve_right hway
    rw [hkept, Tree.unlink_contents, hcopied, both_contents h, Function.update_self,
      codeFile_nil] at hstored
    obtain rfl := Option.some.inj hstored
    rw [codeFile_nil] at hsource
    exact hsome (Option.some.inj hsource)

end Durable

theorem upload_durable_iff (cwd : List CString) (store : UserStore) (job : FileJob) (t : Tree)
    (htype : job.task.type = .upload) :
    UploadDurable cwd store job t ↔
      ¬ (LinkedOpens cwd store job t ∧ SourceAtDestination cwd store job t) :=
  ⟨fun hdurable h => aliased_upload_loses htype h.1 h.2 hdurable, durable_of_apart htype⟩

section Examples

theorem upload_from_tmp_durable :
    (aliceUpload "/tmp/s").task.type = .upload ∧
    LinkedOpens [cstr "srv"] aliceAndBob (aliceUpload "/tmp/s") treeWithSecret ∧
    UploadDurable [cstr "srv"] aliceAndBob (aliceUpload "/tmp/s") treeWithSecret := by
  refine ⟨rfl, ⟨by decide +kernel, by decide, by decide +kernel, by decide +kernel,
    by decide +kernel⟩, (upload_durable_iff _ _ _ _ rfl).mpr ?_⟩
  have hsource : treeWithSecret.source [cstr "srv"] (aliceUpload "/tmp/s") = some 0 := by
    decide +kernel
  have hdestination : treeWithSecret.destination [cstr "srv"] aliceAndBob (aliceUpload "/tmp/s") =
      2 := by
    decide +kernel
  have hname : (treeWithSecret.both [cstr "srv"] aliceAndBob (aliceUpload "/tmp/s")).nameAt
      [cstr "srv"] (aliceUpload "/tmp/s").task.tmpfile = .ok (locate [] (cstr "tmp/s")) := by
    decide +kernel
  rintro ⟨-, k, hk, ⟨hdst, -⟩ | ⟨q, hq, hway⟩⟩
  · have hzero : k = 0 := (Option.some.inj (hsource.symm.trans hk)).symm
    have htwo : k = 2 := hdst.trans hdestination
    omega
  · rw [hname] at hq
    obtain rfl := Except.ok.inj hq
    exact absurd hway (by decide +kernel)

def aliceUploads : List (WorkLabel (Fin 1)) :=
  command "SIGNUP alice pw" 2 ++ command "UPLOAD alice x 1 /tmp/s" 13

/-- `UPLOAD alice x 1 /proc/self/cwd/storage/alice/x` answers OK and removes `x`. -/
theorem upload_of_destination_loses :
    ¬ ∀ (workers : Nat) (cwd : List CString) (store : UserStore) (t : Tree)
      (s : Workshop (Fin workers) Tree), WorkReached (treeDisk cwd) store t (fun _ _ => True) s →
      ∀ job : FileJob, job.task.type = .upload → job.task.username ∈ s.store.names →
        UploadDurable cwd s.store job s.files := by
  intro h
  have hview : ((exec (workStep (treeDisk [cstr "srv"])) (workStart emptyStore treeAndTmp)
      aliceUploads).bind fun s => ((fileProgram s.store
        (aliceUpload "/proc/self/cwd/storage/alice/x")).steps (Tree.perform [cstr "srv"])
          (fun _ => none) ([], firstStage s.store (aliceUpload "/proc/self/cwd/storage/alice/x"))
          s.files 9).map fun r =>
            decide (cstr "alice" ∈ s.store.names ∧
              AnswersUploaded s.store (aliceUpload "/proc/self/cwd/storage/alice/x") r.2.1.2 ∧
              r.2.2.contentAt [cstr "srv"]
                ((aliceUpload "/proc/self/cwd/storage/alice/x").userPath s.store) = none)) =
        some true := by
    decide +kernel
  obtain ⟨htype, huser⟩ :
      (aliceUpload "/proc/self/cwd/storage/alice/x").task.type = .upload ∧
      (aliceUpload "/proc/self/cwd/storage/alice/x").task.username = cstr "alice" :=
    ⟨rfl, by decide +kernel⟩
  generalize aliceUpload "/proc/self/cwd/storage/alice/x" = job at hview htype huser
  obtain ⟨s, hexec, hs⟩ := Option.bind_eq_some_iff.mp hview
  obtain ⟨⟨trace, ⟨errno, stage⟩, n⟩, hsteps, hr⟩ := Option.map_eq_some_iff.mp hs
  obtain ⟨hname, hanswers, hgone⟩ := of_decide_eq_true hr
  have hreach : WorkReached (treeDisk [cstr "srv"]) emptyStore treeAndTmp (fun _ _ => True) s :=
    .of_exec .start (guarded_of_forall (fun _ _ _ => trivial) _) hexec
  obtain ⟨stored, hstored, -⟩ := h 1 _ _ _ s hreach job htype (huser ▸ hname) _ genuineFaults_none
    _ _ _ ⟨errno, Run.of_steps hsteps⟩ hanswers
  rw [hgone] at hstored
  contradiction

end Examples

end FileServer
