import FileServer.ServerMoves

/-!
# Tasks and responses in flight

A task travels from the task queue through one worker into the queue of a
response entry. Seen from one place: how the phase of a worker can change in a
step, and where a queued task or response was before the step.
-/

namespace FileServer

set_option autoImplicit false

variable {s s' : Server}

inductive WorkerMove (s : Server) (action : Action) (w : Nat) : WorkerPhase → WorkerPhase → Prop
  | exit : WorkerMove s action w .idle .exited
  | take {job : Job} : job ∈ s.taskQueue.contents → WorkerMove s action w .idle (.took job)
  | lock {job : Job} {works : Bool} : action = .lockUser w works → locksUser job.task = true →
      WorkerMove s action w (.took job)
        (.locked job (userStoreLockUser works s.store job.task.username))
  | processUnlocked {job : Job} {works : Bool} {files : FileResults} : locksUser job.task = false →
      WorkerMove s action w (.took job)
        (.sending job (processTask works files s.store job.task none).2)
  | processLocked {job : Job} {user : Option User} {works : Bool} {files : FileResults} :
      WorkerMove s action w (.locked job user)
        (.sending job (processTask works files s.store job.task user).2)
  | respond {job : Job} {status : ResponseStatus} {message : CString} {rest : List Effect} {a : Addr} :
      WorkerMove s action w (.sending job (.sendResponse status message :: rest))
        (.pushing a ⟨job, makeResponse job.task status message, rfl⟩ rest)
  | skip {job : Job} {effect : Effect} {rest : List Effect} :
      WorkerMove s action w (.sending job (effect :: rest)) (.sending job rest)
  | push {a : Addr} {r : Reply} {rest : List Effect} :
      WorkerMove s action w (.pushing a r rest) (.sending r.job rest)
  | finish {job : Job} : WorkerMove s action w (.sending job []) .idle

theorem update_worker {action : Action} {w u : Nat} {p q : WorkerPhase} (hphase : s.workers w = p)
    (hworkers : s'.workers = Function.update s.workers w q) (hmove : WorkerMove s action w p q) :
    s'.workers u = s.workers u ∨ WorkerMove s action u (s.workers u) (s'.workers u) := by
  rw [hworkers]
  rcases eq_or_ne u w with rfl | hne
  · rw [Function.update_self, hphase]
    exact Or.inr hmove
  · rw [Function.update_of_ne hne]
    exact Or.inl rfl

theorem Moves.worker {action : Action} (hm : Moves s action s') (u : Nat) :
    s'.workers u = s.workers u ∨ WorkerMove s action u (s.workers u) (s'.workers u) := by
  cases hm with
  | exitWorker hphase => exact update_worker hphase rfl .exit
  | takeTask hphase hperm =>
    exact update_worker hphase rfl (.take (hperm.mem_iff.mp List.mem_cons_self))
  | lockUser hphase hlock => exact update_worker hphase rfl (.lock rfl hlock)
  | process hphase hresult =>
    have heffects := congrArg Prod.snd hresult
    dsimp only at heffects
    subst heffects
    rcases hphase with ⟨hphase, hlock, rfl⟩ | hphase
    · exact update_worker hphase rfl (.processUnlocked hlock)
    · exact update_worker hphase rfl .processLocked
  | respond hphase _ => exact update_worker hphase rfl .respond
  | respondDropped hphase => exact update_worker hphase rfl .skip
  | push hphase _ _ => exact update_worker hphase rfl .push
  | pushFreed hphase _ => exact update_worker hphase rfl .push
  | sendFile hphase => exact update_worker hphase rfl .skip
  | sendFileMissing hphase => exact update_worker hphase rfl .skip
  | finish hphase => exact update_worker hphase rfl .finish
  | _ => exact Or.inl rfl

/-- The response lies in the queue of some entry. -/
def Queued (s : Server) (r : Reply) : Prop := ∃ a e, s.mem a = some e ∧ r ∈ e.queue.contents

theorem Queued.of_setEntry {r : Reply} (h : Queued s' r) {a : Addr}
    {o : Option ResponseQueueEntry} {P : Prop} (hmem : s'.mem = Function.update s.mem a o)
    (ho : ∀ e, o = some e → r ∈ e.queue.contents → Queued s r ∨ P) : Queued s r ∨ P := by
  obtain ⟨b, e, hb, hr⟩ := h
  rw [hmem] at hb
  rcases eq_or_ne b a with rfl | hne
  · rw [Function.update_self] at hb
    exact ho e hb hr
  · rw [Function.update_of_ne hne] at hb
    exact Or.inl ⟨b, e, hb, hr⟩

theorem Moves.queued {action : Action} (hm : Moves s action s') {r : Reply} (h : Queued s' r) :
    Queued s r ∨ ∃ w a rest, s.workers w = .pushing a r rest := by
  cases hm with
  | acceptRegistered _ _ _ _ _ =>
    refine h.of_setEntry rfl ?_
    intro e he hr
    cases he
    contradiction
  | @deliver t ci a e x q _ hmem hperm =>
    refine h.of_setEntry rfl ?_
    intro e' he' hr
    cases he'
    exact Or.inl ⟨a, e, hmem, hperm.mem_iff.mp (List.mem_cons_of_mem x hr)⟩
  | @closeEntry t a _ =>
    refine h.of_setEntry rfl ?_
    intro e he hr
    obtain ⟨e₀, hmem, rfl⟩ := Option.map_eq_some_iff.mp he
    exact Or.inl ⟨a, e₀, hmem, hr⟩
  | free _ =>
    refine h.of_setEntry rfl ?_
    intro e he
    contradiction
  | @push w grows a x rest e q hphase hmem hadd =>
    refine h.of_setEntry rfl ?_
    intro e' he' hr
    cases he'
    rcases hadd with rfl | hperm
    · exact Or.inl ⟨a, e, hmem, hr⟩
    rcases List.mem_cons.mp (hperm.mem_iff.mp hr) with rfl | hr
    · exact Or.inr ⟨w, a, rest, hphase⟩
    · exact Or.inl ⟨a, e, hmem, hr⟩
  | _ => exact Or.inl h

/-- The step submits `task` on the connection `ci`. -/
def Submits (s : Server) (action : Action) (ci : ClientInfo) (task : Task) : Prop :=
  ∃ t line now grows, action = .command t line now grows ∧ s.clients t = .reading ci ∧
    parseCommand ci now line = .submit task

theorem Moves.taskQueue {action : Action} (hm : Moves s action s') {job : Job}
    (h : job ∈ s'.taskQueue.contents) : job ∈ s.taskQueue.contents ∨
      ∃ ci, Submits s action ci job.task ∧ job.ticket = s.nextTicket := by
  cases hm with
  | @submit t line now grows ci task q hphase hparse hadd =>
    rcases hadd with rfl | hperm
    · exact Or.inl h
    rcases List.mem_cons.mp (hperm.mem_iff.mp h) with rfl | h
    · exact Or.inr ⟨ci, ⟨t, line, now, grows, rfl, hphase, hparse⟩, rfl⟩
    · exact Or.inl h
  | @takeTask w j q _ hperm => exact Or.inl (hperm.mem_iff.mp (List.mem_cons_of_mem j h))
  | _ => exact Or.inl h

end FileServer
