import FileServer.SignupPriority

/-!
# What follows an OK to DOWNLOAD (worker.c, client_program.c)

After the OK line the bundled client waits for a `FILE_DATA` header and the bytes
of the file. The worker sends them to users of high priority only and to all
others the path of the decoded copy. No user that `user_store_lock_user` returns
has high priority, so the header is never sent.
-/

namespace FileServer

open Runs
set_option autoImplicit false

/-- What is written next on the descriptor; the newest line is the first. -/
def nextOn (fd : Nat) (newer : List Written) : Option Line :=
  (newer.reverse.find? fun w => w.fd = fd).map Written.line

/-- The line says OK to a DOWNLOAD. -/
def DownloadOk (line : Written) (job : Job) : Prop :=
  job.task.type = .download ∧ ∃ r, line.line = .reply r ∧ r.job = job ∧ r.response.status = .ok

/-- The worker neither knows a user of high priority nor is about to send a file. -/
def WorkerPhase.sendsNoFile : WorkerPhase → Prop
  | .locked _ user => ∀ u, user = some u → u.priority = .low
  | .sending _ effects | .pushing _ _ effects => ∀ path name, .sendFileData path name ∉ effects
  | .idle | .took _ | .exited => True

theorem processTask_sendsNoFile {works : Bool} {files : FileResults} {store : UserStore} {t : Task}
    {user : Option User} (huser : ∀ u, user = some u → u.priority = .low) (path name : CString) :
    .sendFileData path name ∉ (processTask works files store t user).2 := by
  unfold processTask
  cases t.type with
  | signup =>
    dsimp only [processSignup]
    split <;> simp
  | login =>
    cases user with
    | none => simp [processLogin]
    | some u =>
      dsimp only [processLogin]
      split <;> simp
  | upload =>
    dsimp only [processUpload]
    split <;> simp
  | download =>
    dsimp only [processDownload]
    split
    · simp
    · cases user with
      | none => simp
      | some u =>
        dsimp only
        split
        · rw [if_neg (by simp [huser u rfl])]
          simp
        · simp
  | delete =>
    cases user with
    | none => simp [processDelete]
    | some u =>
      dsimp only [processDelete]
      split <;> simp
  | list =>
    cases user with
    | none => simp [processList]
    | some u =>
      dsimp only [processList]
      split <;> simp
  | unknown => simp
  | quit => simp

section Steps
variable {s s' : Server}

theorem WorkerMove.sendsNoFile {action : Action} {w : Nat} {p q : WorkerPhase}
    (hmove : WorkerMove s action w p q) (h : p.sendsNoFile) : q.sendsNoFile := by
  cases hmove with
  | exit => trivial
  | take _ => trivial
  | finish => trivial
  | lock _ _ => exact fun u hu => lockUser_priority hu
  | processUnlocked _ => exact processTask_sendsNoFile (by simp)
  | processLocked => exact processTask_sendsNoFile h
  | respond => exact fun path name hmem => h path name (List.mem_cons_of_mem _ hmem)
  | skip => exact fun path name hmem => h path name (List.mem_cons_of_mem _ hmem)
  | push => exact h

structure NoFileData (s : Server) : Prop where
  workers : ∀ w, (s.workers w).sendsNoFile
  log : ∀ line ∈ s.written, ∀ name content, line.line ≠ .fileData name content

theorem Moves.noFileLine {action : Action} (hm : Moves s action s') (h : NoFileData s) :
    ∀ line ∈ s'.written, ∀ name content, line.line ≠ .fileData name content := by
  cases hm with
  | @sendFile w content job path name rest hphase =>
    have hnone := h.workers w
    rw [hphase] at hnone
    exact absurd List.mem_cons_self (hnone path name)
  | taskUnallocated _ => exact List.forall_mem_cons.mpr ⟨by simp, h.log⟩
  | timeOut _ => exact List.forall_mem_cons.mpr ⟨by simp, h.log⟩
  | deliver _ _ _ => exact List.forall_mem_cons.mpr ⟨by simp, h.log⟩
  | _ => exact h.log

theorem Moves.noFileData {action : Action} (hm : Moves s action s') (h : NoFileData s) :
    NoFileData s' := by
  refine ⟨?_, hm.noFileLine h⟩
  intro w
  rcases hm.worker w with hsame | hmove
  · rw [hsame]
    exact h.workers w
  · exact hmove.sendsNoFile (h.workers w)

end Steps

theorem noFileData_reached {store : UserStore} {s : Server}
    (h : ServerReached (fun _ _ => True) store s) : NoFileData s := by
  apply h.invariant
  · exact ⟨fun _ => trivial, by simp [serverInit]⟩
  · intro s s' l _ hs _ hstep
    exact (serverStep_moves hstep).noFileData hs

/-- No OK to a DOWNLOAD is ever followed by the file on its socket. -/
theorem download_never_sends_file (store : UserStore) (s : Server)
    (h : ServerReached (fun _ _ => True) store s) :
    ∀ newer line older job, s.written = newer ++ line :: older → DownloadOk line job →
      ¬ ∃ content, nextOn line.fd newer = some (.fileData job.task.path content) := by
  rintro newer line older job hlog _ ⟨content, hnext⟩
  obtain ⟨w, hw, hline⟩ := Option.map_eq_some_iff.mp hnext
  have hmem : w ∈ s.written := by
    rw [hlog]
    exact List.mem_append_left _ (List.mem_reverse.mp (List.mem_of_find?_eq_some hw))
  exact (noFileData_reached h).log w hmem _ _ hline

/-- `alice` signs up with high priority and downloads a file; then she asks for a
listing. -/
def downloadThenList : List Action :=
  answeredLine "SIGNUP alice pw HIGH" ++
  [.command 0 (cstr "DOWNLOAD alice notes") ⟨1, 0⟩ true, .findEntry 0, .takeTask 0, .lockUser 0 true,
    .process 0 true ⟨true, .ok (), .ok (cstr "_tmp_notes.tmp"), true, some []⟩, .respond 0 true,
    .push 0 true, .deliver 0, .finish 0] ++
  [.command 0 (cstr "LIST alice") ⟨2, 0⟩ true, .findEntry 0, .takeTask 0, .lockUser 0 true,
    .process 0 true ⟨true, .ok (), .ok [], true, some (cstr "notes\n")⟩, .respond 0 true,
    .push 0 true, .deliver 0, .finish 0]

/-- The descriptor of a line, and the kind and status of the reply it is. -/
def Written.answers (w : Written) : Nat × Option (CommandType × ResponseStatus) :=
  (w.fd, match w.line with
    | .reply r => some (r.job.task.type, r.response.status)
    | _ => none)

theorem reply_of_answers {w : Written} {fd : Nat} {type : CommandType} {status : ResponseStatus}
    (h : w.answers = (fd, some (type, status))) :
    w.fd = fd ∧ ∃ r, w.line = .reply r ∧ r.job.task.type = type ∧ r.response.status = status := by
  obtain ⟨hfd, hanswer⟩ := Prod.mk.inj h
  refine ⟨hfd, ?_⟩
  split at hanswer
  · rename_i r hr
    obtain ⟨htype, hstatus⟩ := Prod.mk.inj (Option.some.inj hanswer)
    exact ⟨r, hr, htype, hstatus⟩
  · contradiction

theorem exec_downloadThenList : ∃ s listed downloaded signedUp,
    ServerReached (fun _ _ => True) emptyStore s ∧ s.written = [listed, downloaded, signedUp] ∧
      listed.answers = (4, some (.list, .ok)) ∧ downloaded.answers = (4, some (.download, .ok)) := by
  have hview : (exec serverStep (serverInit emptyStore)
      (downloadThenList.map (Prod.mk taskComparators))).map (fun s => s.written.map Written.answers) =
      some [(4, some (.list, .ok)), (4, some (.download, .ok)), (4, some (.signup, .ok))] := by
    decide +kernel
  obtain ⟨s, hexec, hs⟩ := Option.map_eq_some_iff.mp hview
  obtain ⟨listed, rest, hwritten, hlisted, hrest⟩ := List.map_eq_cons_iff.mp hs
  obtain ⟨downloaded, rest, rfl, hdownloaded, hrest⟩ := List.map_eq_cons_iff.mp hrest
  obtain ⟨signedUp, rest, rfl, _, hrest⟩ := List.map_eq_cons_iff.mp hrest
  obtain rfl := List.map_eq_nil_iff.mp hrest
  exact ⟨s, listed, downloaded, signedUp,
    .of_exec .start (guarded_of_forall (fun _ _ _ => trivial) _) hexec, hwritten, hlisted, hdownloaded⟩

theorem high_priority_download_gets_no_file : ∃ s newer line older job,
    ServerReached (fun _ _ => True) emptyStore s ∧ s.written = newer ++ line :: older ∧
      DownloadOk line job ∧
      ¬ ∃ content, nextOn line.fd newer = some (.fileData job.task.path content) := by
  obtain ⟨s, listed, downloaded, signedUp, hreach, hwritten, _, hdownloaded⟩ := exec_downloadThenList
  obtain ⟨_, r, hr, htype, hok⟩ := reply_of_answers hdownloaded
  have hdownload : DownloadOk downloaded r.job := ⟨htype, r, hr, rfl, hok⟩
  exact ⟨s, [listed], downloaded, [signedUp], r.job, hreach, hwritten, hdownload,
    download_never_sends_file emptyStore s hreach _ _ _ _ hwritten hdownload⟩

theorem next_line_answers_list :
    ¬ ∀ store s, ServerReached (fun _ _ => True) store s → ∀ newer line older job,
      s.written = newer ++ line :: older → DownloadOk line job →
      ∀ next, nextOn line.fd newer = some next →
        ∃ content, next = .fileData job.task.path content := by
  intro h
  obtain ⟨s, listed, downloaded, signedUp, hreach, hwritten, hlisted, hdownloaded⟩ :=
    exec_downloadThenList
  obtain ⟨hfd, r, hr, htype, hok⟩ := reply_of_answers hdownloaded
  obtain ⟨hfd', r', hr', _⟩ := reply_of_answers hlisted
  have hnext : nextOn downloaded.fd [listed] = some (.reply r') := by
    simp [nextOn, hfd, hfd', hr']
  obtain ⟨content, hfile⟩ := h emptyStore s hreach [listed] downloaded [signedUp] r.job hwritten
    ⟨htype, r, hr, rfl, hok⟩ _ hnext
  contradiction

end FileServer
