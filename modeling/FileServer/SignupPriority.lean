import FileServer.Authentication

/-!
# The priority given at SIGNUP

The parser reads a priority off a SIGNUP line and the worker hands it to
`user_store_signup`, which drops it: neither backend has a field for it. The user
that `user_store_lock_user` returns later is zeroed, so its priority is always
`PRIORITY_LOW`.
-/

namespace FileServer

open Runs
set_option autoImplicit false

theorem processTask_names (works : Bool) (files : FileResults) (store : UserStore) (t : Task)
    (user : Option User) :
    store.names ⊆ (processTask works files store t user).1.names ∧
      (t.type = .signup → t.username.length ≤ 63 →
        SendsOk (processTask works files store t user).2 →
        t.username ∈ (processTask works files store t user).1.names) := by
  unfold processTask
  cases htype : t.type with
  | signup =>
    dsimp only [processSignup]
    rcases userStoreSignup_cases works store t.username t.password (100 * 2 ^ 20) t.priority with
      he | ⟨store', stored, he, _, hstored, hnames⟩
    · rw [he]
      refine ⟨List.Subset.refl _, ?_⟩
      rintro _ _ ⟨message, hmem⟩
      simp at hmem
    · rw [he]
      refine ⟨?_, ?_⟩
      · intro n hn
        exact (hnames n).mpr (Or.inl hn)
      · intro _ hfits _
        exact (hnames _).mpr (Or.inr (hstored hfits).symm)
  | _ => exact ⟨List.Subset.refl _, fun h => nomatch h⟩

/-- The worker is about to answer the task OK. -/
def WorkerPhase.announces : WorkerPhase → Job → Prop
  | .sending job effects, j => job = j ∧ SendsOk effects
  | .pushing _ r rest, j => r.job = j ∧ (r.response.status = .ok ∨ SendsOk rest)
  | .idle, _ | .took _, _ | .locked _ _, _ | .exited, _ => False

def WorkerPhase.pending : WorkerPhase → Job → Prop
  | .took job, j | .locked job _, j => job = j
  | .idle, _ | .sending _ _, _ | .pushing _ _ _, _ | .exited, _ => False

/-- The task waits in the queue or with a worker that has not processed it. -/
def Pending (s : Server) (job : Job) : Prop :=
  job ∈ s.taskQueue.contents ∨ ∃ w, (s.workers w).pending job

/-- A reply that says OK to the task has been written. -/
def AnsweredOk (s : Server) (job : Job) : Prop :=
  ∃ line ∈ s.written, ∃ r, line.line = .reply r ∧ r.job = job ∧ r.response.status = .ok

def Announced (s : Server) (job : Job) : Prop :=
  (∃ w, (s.workers w).announces job) ∨ (∃ r, Queued s r ∧ r.job = job ∧ r.response.status = .ok) ∨
    AnsweredOk s job

section Steps
variable {s s' : Server}

theorem WorkerMove.pending {action : Action} {w : Nat} {p q : WorkerPhase} {job : Job}
    (hmove : WorkerMove s action w p q) (h : q.pending job) :
    p.pending job ∨ job ∈ s.taskQueue.contents := by
  cases hmove with
  | take hmem =>
    obtain rfl : _ = job := h
    exact Or.inr hmem
  | lock _ _ => exact Or.inl h
  | _ => exact absurd h id

theorem Moves.pending {action : Action} (hm : Moves s action s') {job : Job}
    (h : Pending s' job) : Pending s job ∨ ∃ ci, Submits s action ci job.task := by
  rcases h with hqueue | ⟨w, hw⟩
  · rcases hm.taskQueue hqueue with hold | ⟨ci, hsubmit, _⟩
    · exact Or.inl (Or.inl hold)
    · exact Or.inr ⟨ci, hsubmit⟩
  · rcases hm.worker w with hsame | hmove
    · exact Or.inl (Or.inr ⟨w, hsame ▸ hw⟩)
    · rcases hmove.pending hw with hold | hqueue
      · exact Or.inl (Or.inr ⟨w, hold⟩)
      · exact Or.inl (Or.inl hqueue)

theorem Moves.names_subset {action : Action} (hm : Moves s action s') :
    s.store.names ⊆ s'.store.names := by
  cases hm with
  | @process w works files job user store effects _ hresult =>
    have hsub := (processTask_names works files s.store job.task user).1
    rw [hresult] at hsub
    exact hsub
  | _ => exact List.Subset.refl _

theorem announces_skip {job job' : Job} {v : Nat} {effect : Effect} {rest : List Effect}
    (hphase : s.workers v = .sending job' (effect :: rest))
    (h : (WorkerPhase.sending job' rest).announces job) : (s.workers v).announces job := by
  obtain ⟨rfl, message, hmem⟩ := h
  rw [hphase]
  exact ⟨rfl, message, List.mem_cons_of_mem effect hmem⟩

theorem announces_pushed {job : Job} {v : Nat} {a : Addr} {r : Reply} {rest : List Effect}
    (hphase : s.workers v = .pushing a r rest)
    (h : (WorkerPhase.sending r.job rest).announces job) : (s.workers v).announces job := by
  rw [hphase]
  exact ⟨h.1, Or.inr h.2⟩

theorem update_announces {job : Job} {v w : Nat} {q : WorkerPhase}
    (hworkers : s'.workers = Function.update s.workers v q)
    (hq : q.announces job → (s.workers v).announces job) (h : (s'.workers w).announces job) :
    (s.workers w).announces job := by
  rw [hworkers] at h
  rcases eq_or_ne w v with rfl | hne
  · rw [Function.update_self] at h
    exact hq h
  · rwa [Function.update_of_ne hne] at h

theorem Moves.announces {action : Action} (hm : Moves s action s') {job : Job} {w : Nat}
    (hsignup : job.task.type = .signup)
    (hshort : ∀ job, Pending s job → job.task.username.length ≤ 63)
    (h : (s'.workers w).announces job) :
    (s.workers w).announces job ∨ job.task.username ∈ s'.store.names := by
  cases hm with
  | @process v works files job' user store effects hphase hresult =>
    rcases eq_or_ne w v with rfl | hne
    · simp only [Server.setWorker, Function.update_self] at h
      obtain ⟨rfl, hok⟩ := h
      have hpending : Pending s job' := by
        refine Or.inr ⟨w, ?_⟩
        rcases hphase with ⟨hphase, _⟩ | hphase <;> rw [hphase] <;> rfl
      have hname := (processTask_names works files s.store job'.task user).2 hsignup
        (hshort job' hpending)
      rw [hresult] at hname
      exact Or.inr (hname hok)
    · simp only [Server.setWorker, Function.update_of_ne hne] at h
      exact Or.inl h
  | exitWorker _ => exact Or.inl (update_announces rfl (absurd · id) h)
  | takeTask _ _ => exact Or.inl (update_announces rfl (absurd · id) h)
  | lockUser _ _ => exact Or.inl (update_announces rfl (absurd · id) h)
  | finish _ => exact Or.inl (update_announces rfl (absurd · id) h)
  | @respond v job' status message rest a hphase _ =>
    refine Or.inl (update_announces rfl ?_ h)
    rintro ⟨rfl, hok | ⟨text, hmem⟩⟩
    · have hstatus : status = .ok := hok
      rw [hphase, hstatus]
      exact ⟨rfl, message, List.mem_cons_self⟩
    · rw [hphase]
      exact ⟨rfl, text, List.mem_cons_of_mem _ hmem⟩
  | respondDropped hphase => exact Or.inl (update_announces rfl (announces_skip hphase) h)
  | sendFile hphase => exact Or.inl (update_announces rfl (announces_skip hphase) h)
  | sendFileMissing hphase => exact Or.inl (update_announces rfl (announces_skip hphase) h)
  | push hphase _ _ => exact Or.inl (update_announces rfl (announces_pushed hphase) h)
  | pushFreed hphase _ => exact Or.inl (update_announces rfl (announces_pushed hphase) h)
  | _ => exact Or.inl h

/-- A sign-up is answered OK only once its name is in the store. -/
structure Enrolled (s : Server) : Prop where
  short : ∀ job, Pending s job → job.task.username.length ≤ 63
  named : ∀ job, Announced s job → job.task.type = .signup → job.task.username ∈ s.store.names

theorem Moves.enrolled {action : Action} (hm : Moves s action s') (h : Enrolled s) :
    Enrolled s' := by
  refine ⟨?_, ?_⟩
  · intro job hjob
    rcases hm.pending hjob with hold | ⟨ci, t, line, now, grows, _, _, hparse⟩
    · exact h.short job hold
    · exact parseCommand_username hparse
  · intro job hjob hsignup
    have hbefore : Announced s job → job.task.username ∈ s'.store.names :=
      fun hold => hm.names_subset (h.named job hold hsignup)
    rcases hjob with ⟨w, hw⟩ | ⟨r, hr, rfl, hok⟩ | ⟨line, hline, r, hreply, rfl, hok⟩
    · rcases hm.announces hsignup h.short hw with hold | hname
      · exact hbefore (Or.inl ⟨w, hold⟩)
      · exact hname
    · rcases hm.queued hr with hold | ⟨w, a, rest, hphase⟩
      · exact hbefore (Or.inr (Or.inl ⟨r, hold, rfl, hok⟩))
      · refine hbefore (Or.inl ⟨w, ?_⟩)
        rw [hphase]
        exact ⟨rfl, Or.inl hok⟩
    · rcases hm.written with heq | ⟨new, heq, hnew⟩
      · rw [heq] at hline
        exact hbefore (Or.inr (Or.inr ⟨line, hline, r, hreply, rfl, hok⟩))
      · rw [heq] at hline
        rcases List.mem_cons.mp hline with rfl | hline
        · exact hbefore (Or.inr (Or.inl ⟨r, hnew r hreply, rfl, hok⟩))
        · exact hbefore (Or.inr (Or.inr ⟨line, hline, r, hreply, rfl, hok⟩))

end Steps

theorem enrolled_reached {store : UserStore} {s : Server}
    (h : ServerReached (fun _ _ => True) store s) : Enrolled s := by
  apply h.invariant
  · refine ⟨?_, ?_⟩
    · rintro job (hmem | ⟨w, hw⟩)
      · contradiction
      · exact absurd hw id
    · rintro job (⟨w, hw⟩ | ⟨r, ⟨a, e, hmem, _⟩, _⟩ | ⟨line, hline, _⟩)
      · exact absurd hw id
      · contradiction
      · contradiction
  · intro s s' l _ hs _ hstep
    exact (serverStep_moves hstep).enrolled hs

/-- After an OK to a SIGNUP, looking the user up yields the priority of the line
exactly if that priority is LOW. -/
theorem signup_priority_kept_iff_low (store : UserStore) (s : Server)
    (h : ServerReached (fun _ _ => True) store s) (job : Job) (hsignup : job.task.type = .signup)
    (hok : AnsweredOk s job) :
    (∃ u, userStoreLockUser true s.store job.task.username = some u ∧
      u.priority = job.task.priority) ↔ job.task.priority = .low := by
  have hname := (enrolled_reached h).named job (Or.inr (Or.inr hok)) hsignup
  obtain ⟨u, hu⟩ := lockUser_of_mem_names hname
  constructor
  · rintro ⟨v, hv, hpriority⟩
    rw [← hpriority, lockUser_priority hv]
  · intro hlow
    exact ⟨u, hu, by rw [hlow, lockUser_priority hu]⟩

def Line.answered : Line → Option (Task × ResponseStatus)
  | .reply r => some (r.job.task, r.response.status)
  | _ => none

theorem answeredOk_of_answered {s : Server} {t : Task}
    (h : some (t, .ok) ∈ s.written.map fun line => line.line.answered) :
    ∃ job, job.task = t ∧ AnsweredOk s job := by
  obtain ⟨line, hline, hanswered⟩ := List.mem_map.mp h
  cases hcase : line.line with
  | reply r =>
    rw [hcase] at hanswered
    obtain ⟨htask, hstatus⟩ := Prod.mk.inj (Option.some.inj hanswered)
    exact ⟨r.job, htask, line, hline, r, hcase, rfl, hstatus⟩
  | _ =>
    rw [hcase] at hanswered
    contradiction

/-- One connection sends one line and is answered. -/
def answeredLine (line : String) : List Action :=
  [.accept 4 (some 0) true, .enqueue true, .takeClient 0, .command 0 (cstr line) ⟨0, 0⟩ true,
    .findEntry 0, .takeTask 0, .process 0 true ⟨true, .ok (), .ok [], true, some []⟩,
    .respond 0 true, .push 0 true, .deliver 0, .finish 0]

def signupTask (priority : TaskPriority) : Task where
  type := .signup
  client := ⟨1, 4⟩
  username := cstr "alice"
  password := cstr "pw"
  path := []
  tmpfile := []
  size := 0
  priority := priority
  enqueueTime := ⟨0, 0⟩

theorem low_priority_kept : ∃ s job, ServerReached (fun _ _ => True) emptyStore s ∧
    job.task.type = .signup ∧ AnsweredOk s job ∧ job.task.priority = .low ∧
    ∃ u, userStoreLockUser true s.store job.task.username = some u ∧
      u.priority = job.task.priority := by
  have hview : (exec serverStep (serverInit emptyStore)
      ((answeredLine "SIGNUP alice pw low").map (Prod.mk taskComparators))).map
        (fun s => s.written.map fun line => line.line.answered) =
      some [some (signupTask .low, .ok)] := by
    decide +kernel
  obtain ⟨s, hexec, hs⟩ := Option.map_eq_some_iff.mp hview
  have hreach : ServerReached (fun _ _ => True) emptyStore s :=
    .of_exec .start (guarded_of_forall (fun _ _ _ => trivial) _) hexec
  obtain ⟨job, htask, hok⟩ := answeredOk_of_answered (hs ▸ List.mem_singleton_self _)
  have hsignup : job.task.type = .signup := by rw [htask]; rfl
  have hlow : job.task.priority = .low := by rw [htask]; rfl
  exact ⟨s, job, hreach, hsignup, hok, hlow,
    (signup_priority_kept_iff_low emptyStore s hreach job hsignup hok).mpr hlow⟩

theorem high_priority_dropped :
    ¬ ∀ store s, ServerReached (fun _ _ => True) store s → ∀ job, job.task.type = .signup →
      AnsweredOk s job → ∀ u, userStoreLockUser true s.store job.task.username = some u →
        u.priority = job.task.priority := by
  intro h
  have hview : (exec serverStep (serverInit emptyStore)
      ((answeredLine "SIGNUP alice pw HIGH").map (Prod.mk taskComparators))).map
        (fun s => (s.written.map fun line => line.line.answered,
          userStoreLockUser true s.store (cstr "alice"))) =
      some ([some (signupTask .high, .ok)], some ⟨cstr "alice", .low, 100 * 2 ^ 20⟩) := by
    decide +kernel
  obtain ⟨s, hexec, hs⟩ := Option.map_eq_some_iff.mp hview
  obtain ⟨hwritten, hlocked⟩ := Prod.mk.inj hs
  have hreach : ServerReached (fun _ _ => True) emptyStore s :=
    .of_exec .start (guarded_of_forall (fun _ _ _ => trivial) _) hexec
  obtain ⟨job, htask, hok⟩ := answeredOk_of_answered (hwritten ▸ List.mem_singleton_self _)
  have hsame := h emptyStore s hreach job (by rw [htask]; rfl) hok ⟨cstr "alice", .low, 100 * 2 ^ 20⟩
    (by rw [htask]; exact hlocked)
  rw [htask] at hsame
  contradiction

end FileServer
