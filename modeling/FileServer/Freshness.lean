import FileServer.InFlight
import FileServer.Routing

/-!
# Which command a response answers

There is no request number: a client thread takes whatever lies in its entry's
queue for the answer to its last command. A response is owed from the submission
of its task until it is taken out of the entry's queue. If a connection is owed
nothing whenever it submits, every response it receives is to its last task.
-/

namespace FileServer

open Runs
set_option autoImplicit false

def Effect.isResponse : Effect → Bool
  | .sendResponse _ _ => true
  | .sendFileData _ _ => false

/-- The task for which a worker still has to push a response. -/
def WorkerPhase.owes : WorkerPhase → Option Job
  | .took job | .locked job _ => some job
  | .sending job effects => if effects.any Effect.isResponse then some job else none
  | .pushing _ r _ => some r.job
  | .idle | .exited => none

/-- The task is queued, with a worker, or answered in some entry's queue. -/
def Owed (s : Server) (job : Job) : Prop :=
  job ∈ s.taskQueue.contents ∨ (∃ w, (s.workers w).owes = some job) ∨
    ∃ r, Queued s r ∧ r.job = job

/-- The step submits a task only for a connection that is owed no response. -/
def Paid (s : Server) (l : Comparators Id × Action) : Prop :=
  ∀ ci task, Submits s l.2 ci task → ∀ job, Owed s job → job.task.client.clientId ≠ ci.clientId

section Steps
variable {s s' : Server}

theorem sending_owes {job j : Job} {effects : List Effect}
    (h : (WorkerPhase.sending job effects).owes = some j) : job = j := by
  change (if effects.any Effect.isResponse then some job else none) = some j at h
  split at h
  · exact Option.some.inj h
  · contradiction

/-- A worker owes only what it owed before or has just taken. -/
theorem WorkerMove.owes {action : Action} {w : Nat} {p q : WorkerPhase} {job : Job}
    (hmove : WorkerMove s action w p q) (h : q.owes = some job) :
    p.owes = some job ∨ job ∈ s.taskQueue.contents := by
  cases hmove with
  | take hmem =>
    cases h
    exact Or.inr hmem
  | exit => contradiction
  | finish => contradiction
  | lock _ _ => exact Or.inl h
  | processUnlocked _ => exact Or.inl (congrArg some (sending_owes h))
  | processLocked => exact Or.inl (congrArg some (sending_owes h))
  | respond => exact Or.inl h
  | push => exact Or.inl (congrArg some (sending_owes h))
  | @skip j effect rest =>
    left
    change (if (effect :: rest).any Effect.isResponse then some j else none) = some job
    change (if rest.any Effect.isResponse then some j else none) = some job at h
    split at h
    · rename_i hany
      rw [List.any_cons, hany, Bool.or_true]
      exact h
    · contradiction

/-- Where an owed task comes from. -/
theorem Moves.owed {action : Action} (hm : Moves s action s') {job : Job} (h : Owed s' job) :
    Owed s job ∨ ∃ ci, Submits s action ci job.task ∧ job.ticket = s.nextTicket := by
  rcases h with h | ⟨w, h⟩ | ⟨r, h, rfl⟩
  · rcases hm.taskQueue h with h | h
    · exact Or.inl (Or.inl h)
    · exact Or.inr h
  · rcases hm.worker w with hsame | hmove
    · exact Or.inl (Or.inr (Or.inl ⟨w, hsame ▸ h⟩))
    · rcases hmove.owes h with h | h
      · exact Or.inl (Or.inr (Or.inl ⟨w, h⟩))
      · exact Or.inl (Or.inl h)
  · rcases hm.queued h with h | ⟨w, a, rest, hphase⟩
    · exact Or.inl (Or.inr (Or.inr ⟨r, h, rfl⟩))
    · refine Or.inl (Or.inr (Or.inl ⟨w, ?_⟩))
      rw [hphase]
      rfl

theorem Submits.lastTicket {action : Action} {ci : ClientInfo} {task : Task}
    (hsub : Submits s action ci task) (hm : Moves s action s') :
    s'.lastTicket = Function.update s.lastTicket ci.clientId s.nextTicket := by
  obtain ⟨t, line, now, grows, rfl, hphase, hparse⟩ := hsub
  cases hm with
  | quit hphase' hparse' =>
    cases hphase.symm.trans hphase'
    cases hparse.symm.trans hparse'
  | unknown hphase' hparse' =>
    cases hphase.symm.trans hphase'
    cases hparse.symm.trans hparse'
  | submit hphase' hparse' _ =>
    cases hphase.symm.trans hphase'
    rfl

theorem Moves.lastTicket {action : Action} (hm : Moves s action s') :
    s'.lastTicket = s.lastTicket ∨ ∃ ci task, Submits s action ci task := by
  cases hm with
  | @submit t line now grows ci task q hphase hparse hadd =>
    exact Or.inr ⟨ci, task, t, line, now, grows, rfl, hphase, hparse⟩
  | _ => exact Or.inl rfl

def Fresh (s : Server) : Prop :=
  ∀ job, Owed s job → job.ticket = s.lastTicket job.task.client.clientId

theorem Moves.fresh {l : Comparators Id × Action} (hm : Moves s l.2 s') (hpaid : Paid s l)
    (h : Fresh s) : Fresh s' := by
  intro job hjob
  rcases hm.owed hjob with hold | ⟨ci, hsub, hticket⟩
  · rw [h job hold]
    rcases hm.lastTicket with hsame | ⟨ci, task, hsub⟩
    · rw [hsame]
    · rw [hsub.lastTicket hm, Function.update_of_ne (hpaid ci task hsub job hold)]
  · have hclient : job.task.client = ci := by
      obtain ⟨_, _, _, _, _, _, hparse⟩ := hsub
      exact (parseCommand_submit hparse).1
    rw [hsub.lastTicket hm, hclient, Function.update_self, hticket]

/-- Each response written is to the last task of its connection at that time. -/
def InOrder (s : Server) : Prop :=
  ∀ w ∈ s.written, ∀ r, w.line = .reply r → r.job.ticket = w.last

theorem InOrder.write (h : InOrder s) {fd c : Nat} {line : Line}
    (hline : ∀ r, line = .reply r → r.job.ticket = s.lastTicket c) :
    InOrder (s.write fd c line) := by
  intro w hw r hr
  rcases List.mem_cons.mp hw with rfl | hw
  · exact hline r hr
  · exact h w hw r hr

theorem Moves.inOrder {action : Action} (hm : Moves s action s') (hr : Registry s)
    (hmatching : AllMatching s) (hfresh : Fresh s) (h : InOrder s) : InOrder s' := by
  cases hm with
  | taskUnallocated _ => exact h.write (by simp)
  | timeOut _ => exact h.write (by simp)
  | sendFile _ => exact h.write (by simp)
  | @deliver t ci a e r q hphase hmem hperm =>
    refine InOrder.write (s := s.setEntry a _) h ?_
    intro r' heq
    cases heq
    have hin := hperm.mem_iff.mp List.mem_cons_self
    have hheld : (handles s).held (.inl t) = some (a, ci.clientId) := by
      change (s.clients t).awaits = _
      rw [hphase]
      rfl
    have hclient : r.job.task.client.clientId = ci.clientId := by
      rw [← r.addressed, hmatching a e hmem r hin, hr.held_id hheld hmem]
    rw [hfresh r.job (Or.inr (Or.inr ⟨r, ⟨a, e, hmem, hin⟩, rfl⟩)), hclient]
    rfl
  | _ => exact h

theorem not_owed_init (store : UserStore) (job : Job) : ¬ Owed (serverInit store) job := by
  rintro (h | ⟨w, h⟩ | ⟨r, ⟨a, e, h, _⟩, _⟩) <;> contradiction

end Steps

theorem replies_answer_last_task (store : UserStore) (s : Server)
    (h : ServerReached (fun s l => Calm s l ∧ Paid s l) store s) : InOrder s := by
  have hregistry : ∀ {s}, ServerReached (fun s l => Calm s l ∧ Paid s l) store s → Registry s :=
    registry_reached fun _ _ h => h.1
  have hall : AllMatching s ∧ Fresh s ∧ InOrder s := by
    apply h.invariant (I := fun s => AllMatching s ∧ Fresh s ∧ InOrder s)
    · refine ⟨?_, ?_, ?_⟩
      · intro a e he
        contradiction
      · intro job hjob
        exact absurd hjob (not_owed_init store job)
      · intro w hw
        contradiction
    · intro s s' l hreach hs hl hstep
      have hm := serverStep_moves hstep
      have hr := hregistry hreach
      obtain ⟨hmatching, hfresh, horder⟩ := hs
      exact ⟨hm.matching hr hmatching, hm.fresh hl.2 hfresh,
        hm.inOrder hr hmatching hfresh horder⟩
  exact hall.2.2

def Line.replyTicket : Line → Option Nat
  | .reply r => some r.job.ticket
  | _ => none

def Action.isCommand : Action → Bool
  | .command _ _ _ _ => true
  | _ => false

theorem Submits.isCommand {s : Server} {action : Action} {ci : ClientInfo} {task : Task}
    (h : Submits s action ci task) : action.isCommand = true := by
  obtain ⟨t, line, now, grows, rfl, _⟩ := h
  rfl

theorem exec_not_owed {ls : List (Comparators Id × Action)}
    (hls : ls.all (fun l => !l.2.isCommand) = true) {s s' : Server} (hs : ∀ job, ¬ Owed s job)
    (h : exec serverStep s ls = some s') : ∀ job, ¬ Owed s' job := by
  induction ls generalizing s with
  | nil =>
    cases h
    exact hs
  | cons l ls ih =>
    obtain ⟨t, ht, hrest⟩ := Option.bind_eq_some_iff.mp h
    obtain ⟨hl, hls⟩ : l.2.isCommand = false ∧ ls.all (fun l => !l.2.isCommand) = true := by
      simpa using hls
    refine ih hls ?_ hrest
    intro job hjob
    rcases (serverStep_moves ht).owed hjob with hold | ⟨ci, hsub, _⟩
    · exact hs job hold
    · rw [hsub.isCommand] at hl
      contradiction

theorem guarded_paid {ls : List (Comparators Id × Action)}
    (h : ls.all (fun l => !l.2.unlinks && !l.2.isCommand) = true) (s : Server) :
    Guarded serverStep (fun s l => Calm s l ∧ Paid s l) s ls := by
  apply guarded_of_forall
  intro l hl s
  obtain ⟨hunlinks, hcommand⟩ : l.2.unlinks = false ∧ l.2.isCommand = false := by
    simpa using List.all_eq_true.mp h l hl
  refine ⟨calm_of_not_unlinks hunlinks s, ?_⟩
  intro ci task hsub
  rw [hsub.isCommand] at hcommand
  contradiction

theorem answered_in_order : ∃ s, ServerReached (fun s l => Calm s l ∧ Paid s l) emptyStore s ∧
    (s.written.map fun w => (w.last, w.line.replyTicket)) = [(1, some 1)] ∧ InOrder s := by
  let before := askedAndFound.take 3
  let command : Comparators Id × Action :=
    (taskComparators, .command 0 (cstr "LIST alice") ⟨0, 0⟩ true)
  let after := askedAndFound.drop 4 ++ [.push 0 true, .deliver 0].map (Prod.mk taskComparators)
  have hview : ((exec serverStep (serverInit emptyStore) before).bind fun s₁ =>
      (serverStep s₁ command).bind fun s₂ => (exec serverStep s₂ after).map fun s =>
        s.written.map fun w => (w.last, w.line.replyTicket)) = some [(1, some 1)] := by
    decide +kernel
  obtain ⟨s₁, hbefore, hview⟩ := Option.bind_eq_some_iff.mp hview
  obtain ⟨s₂, hcommand, hview⟩ := Option.bind_eq_some_iff.mp hview
  obtain ⟨s, hafter, hs⟩ := Option.map_eq_some_iff.mp hview
  have hnone := exec_not_owed rfl (not_owed_init emptyStore) hbefore
  have hreach₁ : ServerReached (fun s l => Calm s l ∧ Paid s l) emptyStore s₁ :=
    .of_exec .start (guarded_paid rfl _) hbefore
  have hreach₂ : ServerReached (fun s l => Calm s l ∧ Paid s l) emptyStore s₂ :=
    .next hreach₁ ⟨calm_of_not_unlinks rfl s₁, fun _ _ _ job hjob => absurd hjob (hnone job)⟩ hcommand
  have hreach : ServerReached (fun s l => Calm s l ∧ Paid s l) emptyStore s :=
    .of_exec hreach₂ (guarded_paid rfl _) hafter
  exact ⟨s, hreach, hs, replies_answer_last_task emptyStore s hreach⟩

/-- The answer to the first command comes after its wait expired and is taken
for the answer to the second. -/
theorem late_response_answers_next_command :
    ¬ ∀ store s, ServerReached (fun _ _ => True) store s → InOrder s := by
  intro h
  have hview : (exec serverStep (serverInit emptyStore) (askedAndFound ++
      [.timeOut 0 true, .push 0 true, .command 0 (cstr "LIST bob") ⟨9, 0⟩ true, .findEntry 0,
        .deliver 0].map (Prod.mk taskComparators))).map (fun s =>
      s.written.head?.map fun w => (w.last, w.line.replyTicket)) = some (some (2, some 1)) := by
    decide +kernel
  obtain ⟨s, hexec, hs⟩ := Option.map_eq_some_iff.mp hview
  obtain ⟨w, hw, heq⟩ := Option.map_eq_some_iff.mp hs
  obtain ⟨hlast, hticket⟩ := Prod.mk.inj heq
  have hreach : ServerReached (fun _ _ => True) emptyStore s :=
    .of_exec .start (guarded_of_forall (fun _ _ _ => trivial) _) hexec
  cases hline : w.line with
  | reply r =>
    have horder := h emptyStore s hreach w (List.mem_of_mem_head? hw) r hline
    rw [hline] at hticket
    have hone : r.job.ticket = 1 := Option.some.inj hticket
    omega
  | _ =>
    rw [hline] at hticket
    contradiction

end FileServer
