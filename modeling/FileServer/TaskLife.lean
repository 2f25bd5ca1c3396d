import FileServer.Freshness
import FileServer.Responses
import FileServer.Shared.Tokens

/-!
# The life of a task

A task that the queue accepts is taken by one worker, processed by it once and
answered once; the answer may be lost, but no task and no answer is ever there
twice. The places where a task or its answer can lie are counted, and each step of
the server moves each task at most one step along its life.
-/

namespace FileServer

open Runs Tokens
set_option autoImplicit false

inductive Station where
  | queued
  | taken (w : Nat)
  | answering (w : Nat)
  | answered (entry : Addr)
  deriving DecidableEq, Repr

/-- Whether a worker holds task `n` and has not processed it. -/
def WorkerPhase.unprocessed (n : Nat) : WorkerPhase → Nat
  | .took job | .locked job _ => if job.ticket = n then 1 else 0
  | .idle | .sending _ _ | .pushing _ _ _ | .exited => 0

/-- How many answers to task `n` a worker has not stored yet. -/
def WorkerPhase.unstored (n : Nat) : WorkerPhase → Nat
  | .sending job effects => if job.ticket = n then effects.countP Effect.isResponse else 0
  | .pushing _ r effects => if r.job.ticket = n then effects.countP Effect.isResponse + 1 else 0
  | .idle | .took _ | .locked _ _ | .exited => 0

/-- What the queue, the workers and the response entries hold of task `n`. -/
def tally (s : Server) (n : Nat) : Station → Nat
  | .queued => s.taskQueue.contents.countP fun job => job.ticket = n
  | .taken w => (s.workers w).unprocessed n
  | .answering w => (s.workers w).unstored n
  | .answered a => match s.mem a with
    | some e => e.queue.contents.countP fun r => r.job.ticket = n
    | none => 0

inductive TaskEventKind where
  | accepted
  | processed
  | delivered
  deriving DecidableEq, Repr

structure TaskEvent where
  kind : TaskEventKind
  ticket : Nat
  deriving DecidableEq, Repr

/-- A push that the task queue takes, a task processed, a response written. -/
def lifeEvents (s : Server) (l : Comparators Id × Action) (s' : Server) : List TaskEvent :=
  match l.2 with
  | .command _ _ _ _ =>
    if s.taskQueue.size < s'.taskQueue.size then [⟨.accepted, s.nextTicket⟩] else []
  | .process w _ _ =>
    match s.workers w with
    | .took job | .locked job _ => [⟨.processed, job.ticket⟩]
    | _ => []
  | .deliver _ =>
    match s'.written with
    | ⟨_, _, _, .reply r⟩ :: _ => [⟨.delivered, r.job.ticket⟩]
    | _ => []
  | _ => []

inductive Life where
  | unsubmitted
  | placed (station : Station)
  | lost
  | delivered
  deriving DecidableEq, Repr

def Life.station : Life → Option Station
  | .placed p => some p
  | .unsubmitted | .lost | .delivered => none

/-- What can happen to task `n`, and which events show it. -/
inductive Life.Step (n : Nat) : Life → List TaskEvent → Life → Prop
  | stay {life : Life} : Step n life [] life
  | accept : Step n .unsubmitted [⟨.accepted, n⟩] (.placed .queued)
  | take {w : Nat} : Step n (.placed .queued) [] (.placed (.taken w))
  | process {w : Nat} : Step n (.placed (.taken w)) [⟨.processed, n⟩] (.placed (.answering w))
  | drop {w : Nat} : Step n (.placed (.answering w)) [] .lost
  | store {w : Nat} {a : Addr} : Step n (.placed (.answering w)) [] (.placed (.answered a))
  | free {a : Addr} : Step n (.placed (.answered a)) [] .lost
  | deliver {a : Addr} : Step n (.placed (.answered a)) [⟨.delivered, n⟩] .delivered

/-- The task is at `life` after it has shown these events. -/
inductive Lived (n : Nat) : List TaskEvent → Life → Prop
  | start : Lived n [] .unsubmitted
  | next {events more : List TaskEvent} {life life' : Life} : Lived n events life →
      life.Step n more life' → Lived n (events ++ more) life'

def history (log : List TaskEvent) (n : Nat) : List TaskEvent :=
  log.filter fun event => event.ticket = n

section Counts
variable {s s' : Server} {n : Nat}

theorem tally_frame (hqueue : s'.taskQueue.contents = s.taskQueue.contents)
    (hworkers : s'.workers = s.workers) (hmem : s'.mem = s.mem) : tally s' n = tally s n := by
  funext p
  unfold tally
  rw [hqueue, hworkers, hmem]

theorem tally_taskQueue (q : Queue Job) : tally { s with taskQueue := q } n =
    Function.update (tally s n) .queued (q.contents.countP fun job => job.ticket = n) := by
  funext p
  cases p with
  | queued => rw [Function.update_self, tally]
  | taken w => rw [Function.update_of_ne (by simp), tally, tally]
  | answering w => rw [Function.update_of_ne (by simp), tally, tally]
  | answered a => rw [Function.update_of_ne (by simp), tally, tally]

theorem tally_setWorker (w : Nat) (p : WorkerPhase) : tally (s.setWorker w p) n =
    Function.update (Function.update (tally s n) (.taken w) (p.unprocessed n)) (.answering w)
      (p.unstored n) := by
  funext q
  cases q with
  | queued => rw [Function.update_of_ne (by simp), Function.update_of_ne (by simp)]; rfl
  | answered a => rw [Function.update_of_ne (by simp), Function.update_of_ne (by simp)]; rfl
  | taken v =>
    rw [Function.update_of_ne (by simp)]
    rcases eq_or_ne v w with rfl | hne
    · simp [tally, Server.setWorker]
    · simp [tally, Server.setWorker, hne]
  | answering v =>
    rcases eq_or_ne v w with rfl | hne
    · simp [tally, Server.setWorker]
    · simp [tally, Server.setWorker, hne]

theorem tally_setEntry (a : Addr) (o : Option ResponseQueueEntry) : tally (s.setEntry a o) n =
    Function.update (tally s n) (.answered a)
      (o.elim 0 fun e => e.queue.contents.countP fun r => r.job.ticket = n) := by
  funext q
  cases q with
  | queued => rw [Function.update_of_ne (by simp)]; rfl
  | taken w => rw [Function.update_of_ne (by simp)]; rfl
  | answering w => rw [Function.update_of_ne (by simp)]; rfl
  | answered b =>
    rcases eq_or_ne b a with rfl | hne
    · cases o with
      | none => simp [tally, Server.setEntry]
      | some e => simp [tally, Server.setEntry]
    · simp [tally, Server.setEntry, hne]

theorem tally_setWorker_answering {w : Nat} {p : WorkerPhase}
    (hp : p.unprocessed n = (s.workers w).unprocessed n) : tally (s.setWorker w p) n =
      Function.update (tally s n) (.answering w) (p.unstored n) := by
  have htaken : p.unprocessed n = tally s n (.taken w) := hp
  rw [tally_setWorker, recount htaken]

theorem tally_setWorker_same {w : Nat} {p : WorkerPhase}
    (hp : p.unprocessed n = (s.workers w).unprocessed n)
    (ha : p.unstored n = (s.workers w).unstored n) : tally (s.setWorker w p) n = tally s n := by
  have hanswering : p.unstored n = tally s n (.answering w) := ha
  rw [tally_setWorker_answering hp, recount hanswering]

theorem tally_setEntry_same {a : Addr} {o : Option ResponseQueueEntry}
    (h : (o.elim 0 fun e => e.queue.contents.countP fun r => r.job.ticket = n) =
      tally s n (.answered a)) : tally (s.setEntry a o) n = tally s n := by
  rw [tally_setEntry, recount h]

end Counts

/-- The task goes on from `life`, shows these events and is counted as `t` says. -/
def Continues (n : Nat) (life : Life) (events : List TaskEvent) (t : Station → Nat) : Prop :=
  ∃ life', life.Step n events life' ∧ t = found life'.station

section Steps
variable {s s' : Server} {n : Nat} {life : Life}

theorem Life.eq_placed_of_station {life : Life} {p : Station} (h : life.station = some p) :
    life = .placed p := by
  cases life with
  | placed q => exact congrArg Life.placed (Option.some.inj h)
  | unsubmitted => contradiction
  | lost => contradiction
  | delivered => contradiction

theorem life_of_tally (ht : tally s n = found life.station) {p : Station} (hp : 0 < tally s n p) :
    life = .placed p := by
  rw [ht] at hp
  exact Life.eq_placed_of_station (eq_some_of_found_pos hp)

theorem continues_same (ht : tally s n = found life.station) (h : tally s' n = tally s n) :
    Continues n life [] (tally s' n) :=
  ⟨life, .stay, h.trans ht⟩

theorem accept_continues (q : Queue Job) (task : Task) (ht : tally s n = found life.station)
    (hfresh : s.nextTicket ≤ n → life = .unsubmitted) {events : List TaskEvent}
    (hadd : q = s.taskQueue ∧ events = [] ∨
      q.contents.Perm (⟨s.nextTicket, task⟩ :: s.taskQueue.contents) ∧
        events = [⟨.accepted, s.nextTicket⟩]) (s' : Server) (hqueue : s'.taskQueue = q)
    (hworkers : s'.workers = s.workers) (hmem : s'.mem = s.mem) :
    Continues n life (history events n) (tally s' n) := by
  have hsame : tally s' n = tally { s with taskQueue := q } n :=
    tally_frame (by rw [hqueue]) hworkers hmem
  rcases hadd with ⟨rfl, rfl⟩ | ⟨hperm, rfl⟩
  · exact continues_same ht hsame
  have hcount := hperm.countP_eq fun job => job.ticket = n
  rw [List.countP_cons] at hcount
  rcases eq_or_ne s.nextTicket n with rfl | hne
  · obtain rfl := hfresh (Nat.le_refl _)
    have hnone : tally s s.nextTicket .queued = 0 := by rw [ht]; rfl
    have hzero : s.taskQueue.contents.countP (fun job => job.ticket = s.nextTicket) = 0 := hnone
    refine ⟨.placed .queued, ?_, ?_⟩
    · simpa [history] using Life.Step.accept
    · rw [hsame, tally_taskQueue, hcount, hzero, ht]
      simp [Life.station, put]
  · have hskip : history [⟨.accepted, s.nextTicket⟩] n = [] := by simp [history, hne]
    rw [hskip]
    refine continues_same ht (hsame.trans ?_)
    rw [tally_taskQueue]
    apply recount
    rw [hcount]
    simp [tally, hne]

theorem take_continues {w : Nat} {job : Job} {q : Queue Job} (ht : tally s n = found life.station)
    (hidle : s.workers w = .idle) (hperm : (job :: q.contents).Perm s.taskQueue.contents) :
    Continues n life [] (tally ({ s with taskQueue := q }.setWorker w (.took job)) n) := by
  have hcount := hperm.countP_eq fun job => job.ticket = n
  rw [List.countP_cons] at hcount
  have hqueued : tally s n .queued = q.contents.countP (fun job => job.ticket = n) +
      if job.ticket = n then 1 else 0 := by
    simpa [tally] using hcount.symm
  have hanswering : tally s n (.answering w) = 0 := by
    simp [tally, hidle, WorkerPhase.unstored]
  rw [tally_setWorker, tally_taskQueue]
  rcases eq_or_ne job.ticket n with heq | hne
  · rw [if_pos heq] at hqueued
    obtain rfl := life_of_tally ht (p := .queued) (by omega)
    have hone : tally s n .queued = 1 := by rw [ht]; exact found_self _
    refine ⟨.placed (.taken w), .take, ?_⟩
    have hzero : q.contents.countP (fun job => job.ticket = n) = 0 := by omega
    have hunprocessed : (WorkerPhase.took job).unprocessed n = 1 := if_pos heq
    rw [hzero, hunprocessed, ht]
    simp only [Life.station, move]
    exact recount (found_ne (by simp)).symm
  · rw [if_neg hne, Nat.add_zero] at hqueued
    refine ⟨life, .stay, ?_⟩
    have hunprocessed : (WorkerPhase.took job).unprocessed n = tally s n (.taken w) := by
      simp [tally, hidle, WorkerPhase.unprocessed, hne]
    have hunstored : (WorkerPhase.took job).unstored n = tally s n (.answering w) := hanswering.symm
    rw [recount hqueued.symm, recount hunprocessed, recount hunstored, ht]

theorem process_continues {w : Nat} {job : Job} {effects : List Effect}
    (ht : tally s n = found life.station) (htaken : ∀ m, (s.workers w).unprocessed m =
      if job.ticket = m then 1 else 0) (hnone : ∀ m, (s.workers w).unstored m = 0)
    (hone : effects.countP Effect.isResponse = 1) :
    Continues n life (history [⟨.processed, job.ticket⟩] n)
      (tally (s.setWorker w (.sending job effects)) n) := by
  have hbefore : tally s n (.taken w) = if job.ticket = n then 1 else 0 := htaken n
  rcases eq_or_ne job.ticket n with rfl | hne
  · rw [if_pos rfl] at hbefore
    obtain rfl := life_of_tally ht (p := .taken w) (by omega)
    refine ⟨.placed (.answering w), ?_, ?_⟩
    · simpa [history] using Life.Step.process
    · have hunstored : (WorkerPhase.sending job effects).unstored job.ticket = 1 := by
        simp [WorkerPhase.unstored, hone]
      rw [tally_setWorker, hunstored, ht]
      exact move _ _
  · rw [if_neg hne] at hbefore
    have hskip : history [⟨.processed, job.ticket⟩] n = [] := by
      simp [history, hne]
    rw [hskip]
    refine continues_same ht (tally_setWorker_same ?_ ?_)
    · rw [htaken n, if_neg hne]
      rfl
    · rw [hnone n]
      exact if_neg hne

/-- One answer of a worker is gone. -/
theorem answer_dropped {w : Nat} {p : WorkerPhase} (ticket k : Nat)
    (ht : tally s n = found life.station)
    (hp : p.unprocessed n = (s.workers w).unprocessed n)
    (hbefore : (s.workers w).unstored n = if ticket = n then k + 1 else 0)
    (hafter : p.unstored n = if ticket = n then k else 0) :
    Continues n life [] (tally (s.setWorker w p) n) := by
  rcases eq_or_ne ticket n with heq | hne
  · rw [if_pos heq] at hbefore hafter
    have hpos : tally s n (.answering w) = k + 1 := hbefore
    obtain rfl := life_of_tally ht (p := .answering w) (by omega)
    have hone : tally s n (.answering w) = 1 := by rw [ht]; exact found_self _
    have hk : k = 0 := by omega
    refine ⟨.lost, .drop, ?_⟩
    rw [tally_setWorker_answering hp, hafter, hk, ht]
    exact take _
  · rw [if_neg hne] at hbefore hafter
    exact continues_same ht (tally_setWorker_same hp (hafter.trans hbefore.symm))

theorem store_continues {w : Nat} {a : Addr} {r : Reply} {rest : List Effect}
    {e : ResponseQueueEntry} {q : Queue Reply} (ht : tally s n = found life.station)
    (hpushing : s.workers w = .pushing a r rest) (hmem : s.mem a = some e)
    (hperm : q.contents.Perm (r :: e.queue.contents)) :
    Continues n life [] (tally ((s.setEntry a (some { e with queue := q })).setWorker w
      (.sending r.job rest)) n) := by
  have hcount := hperm.countP_eq fun r => r.job.ticket = n
  rw [List.countP_cons] at hcount
  have hentry : tally s n (.answered a) = e.queue.contents.countP fun r => r.job.ticket = n := by
    simp only [tally, hmem]
  have hanswering : tally s n (.answering w) =
      if r.job.ticket = n then rest.countP Effect.isResponse + 1 else 0 := by
    simp only [tally, hpushing, WorkerPhase.unstored]
  have htaken : (WorkerPhase.sending r.job rest).unprocessed n = (s.workers w).unprocessed n := by
    rw [hpushing]
    rfl
  rw [tally_setWorker_answering (s := s.setEntry a (some { e with queue := q })) htaken,
    tally_setEntry]
  simp only [Option.elim_some]
  rcases eq_or_ne r.job.ticket n with heq | hne
  · rw [if_pos heq] at hanswering
    obtain rfl := life_of_tally ht (p := .answering w) (by omega)
    have hone : tally s n (.answering w) = 1 := by rw [ht]; exact found_self _
    have hzero : tally s n (.answered a) = 0 := by rw [ht]; exact found_ne (by simp [Life.station])
    have hstored : q.contents.countP (fun r => r.job.ticket = n) = 1 := by
      rw [hcount, ← hentry, hzero]
      simp [heq]
    have hunstored : (WorkerPhase.sending r.job rest).unstored n = 0 := by
      have hrest : rest.countP Effect.isResponse = 0 := by omega
      simp only [WorkerPhase.unstored, hrest, ite_self]
    refine ⟨.placed (.answered a), .store, ?_⟩
    rw [hstored, hunstored, Function.update_comm (by simp), ht]
    exact move _ _
  · rw [if_neg hne] at hanswering
    have hstored : q.contents.countP (fun r => r.job.ticket = n) = tally s n (.answered a) := by
      rw [hcount, hentry]
      simp [hne]
    have hunstored : (WorkerPhase.sending r.job rest).unstored n = tally s n (.answering w) := by
      rw [hanswering]
      exact if_neg hne
    refine ⟨life, .stay, ?_⟩
    rw [recount hstored, recount hunstored, ht]

theorem deliver_continues {a : Addr} {r : Reply} {e : ResponseQueueEntry} {q : Queue Reply}
    (ht : tally s n = found life.station) (hmem : s.mem a = some e)
    (hperm : (r :: q.contents).Perm e.queue.contents) (s' : Server)
    (hsame : tally s' n = tally (s.setEntry a (some { e with queue := q })) n) :
    Continues n life (history [⟨.delivered, r.job.ticket⟩] n) (tally s' n) := by
  have hcount := hperm.countP_eq fun r => r.job.ticket = n
  rw [List.countP_cons] at hcount
  have hentry : tally s n (.answered a) = q.contents.countP (fun r => r.job.ticket = n) +
      if r.job.ticket = n then 1 else 0 := by
    simp only [tally, hmem, ← hcount, decide_eq_true_eq]
  rw [hsame, tally_setEntry]
  simp only [Option.elim_some]
  rcases eq_or_ne r.job.ticket n with rfl | hne
  · rw [if_pos rfl] at hentry
    obtain rfl := life_of_tally ht (p := .answered a) (by omega)
    have hone : tally s r.job.ticket (.answered a) = 1 := by rw [ht]; exact found_self _
    have hzero : q.contents.countP (fun x => x.job.ticket = r.job.ticket) = 0 := by omega
    refine ⟨.delivered, ?_, ?_⟩
    · simpa [history] using Life.Step.deliver
    · rw [hzero, ht]
      exact take _
  · rw [if_neg hne, Nat.add_zero] at hentry
    have hskip : history [⟨.delivered, r.job.ticket⟩] n = [] := by
      simp [history, hne]
    rw [hskip]
    refine ⟨life, .stay, ?_⟩
    rw [recount hentry.symm, ht]

theorem free_continues {a : Addr} (ht : tally s n = found life.station) :
    Continues n life [] (tally (s.setEntry a none) n) := by
  rw [tally_setEntry]
  simp only [Option.elim_none]
  rcases Nat.eq_zero_or_pos (tally s n (.answered a)) with hzero | hpos
  · refine ⟨life, .stay, ?_⟩
    rw [recount hzero.symm, ht]
  · obtain rfl := life_of_tally ht hpos
    refine ⟨.lost, .free, ?_⟩
    rw [ht]
    exact take _

end Steps

@[simp] theorem countP_sendResponse (status : ResponseStatus) (message : CString)
    (rest : List Effect) : (Effect.sendResponse status message :: rest).countP Effect.isResponse =
      rest.countP Effect.isResponse + 1 := List.countP_cons_of_pos rfl

@[simp] theorem countP_sendFileData (filePath filename : CString) (rest : List Effect) :
    (Effect.sendFileData filePath filename :: rest).countP Effect.isResponse =
      rest.countP Effect.isResponse := List.countP_cons_of_neg (by simp [Effect.isResponse])

theorem sentResponses_length (t : Task) (effects : List Effect) :
    (sentResponses t effects).length = effects.countP Effect.isResponse := by
  induction effects with
  | nil => rfl
  | cons effect rest ih =>
    cases effect with
    | sendResponse status message =>
      simpa [sentResponses] using ih
    | sendFileData filePath filename => simpa [sentResponses] using ih

theorem AnswersOnce.countP {t : Task} {effects : List Effect} {result : Option Bool}
    (h : AnswersOnce t effects result) : effects.countP Effect.isResponse = 1 := by
  obtain ⟨r, hr, -⟩ := h
  rw [← sentResponses_length t, hr]
  rfl

theorem processTask_responses (works : Bool) (files : FileResults) (store : UserStore) {t : Task}
    (user : Option User) (hknown : t.type ≠ .unknown ∧ t.type ≠ .quit) :
    (processTask works files store t user).2.countP Effect.isResponse = 1 := by
  unfold processTask
  cases htype : t.type with
  | signup => exact (processSignup_answers works files store user htype).countP
  | login => exact (processLogin_answers works files store user htype).countP
  | upload => exact (processUpload_answers works files store user htype).countP
  | download => exact (processDownload_answers works files store user htype).countP
  | delete => exact (processDelete_answers works files store user htype).countP
  | list => exact (processList_answers works files store user htype).countP
  | unknown => exact absurd htype hknown.1
  | quit => exact absurd htype hknown.2

/-- Every task on its way is one of the six commands. -/
def KnownTasks (s : Server) : Prop :=
  ∀ job, Owed s job → job.task.type ≠ .unknown ∧ job.task.type ≠ .quit

theorem knownTasks_init (store : UserStore) : KnownTasks (serverInit store) := by
  rintro job (h | ⟨w, h⟩ | ⟨r, ⟨a, e, h, -⟩, -⟩)
  · simp [serverInit] at h
  · simp [serverInit, WorkerPhase.owes] at h
  · simp [serverInit] at h

theorem Moves.knownTasks {s s' : Server} {action : Action} (hm : Moves s action s')
    (h : KnownTasks s) : KnownTasks s' := by
  intro job hjob
  rcases hm.owed hjob with hold | ⟨ci, ⟨t, line, now, grows, -, -, hparse⟩, -⟩
  · exact h job hold
  · exact (parseCommand_submit hparse).2

section Step
variable {cmp : Comparators Id} {action : Action} {s s' : Server} {n : Nat} {life : Life}

theorem submit_continues {q : Queue Job} {task : Task} (ht : tally s n = found life.station)
    (hfresh : s.nextTicket ≤ n → life = .unsubmitted) (hadd : Added ⟨s.nextTicket, task⟩ s.taskQueue q)
    (hqueue : s'.taskQueue = q) (hworkers : s'.workers = s.workers) (hmem : s'.mem = s.mem) :
    Continues n life (history (if s.taskQueue.size < q.size then [⟨.accepted, s.nextTicket⟩] else []) n)
      (tally s' n) := by
  refine accept_continues q task ht hfresh ?_ _ hqueue hworkers hmem
  rcases hadd with rfl | hperm
  · exact Or.inl ⟨rfl, if_neg (Nat.lt_irrefl _)⟩
  · refine Or.inr ⟨hperm, if_pos ?_⟩
    have hlength := hperm.length_eq
    simp only [length_contents, List.length_cons] at hlength
    exact Nat.lt_of_lt_of_eq (Nat.lt_succ_self _) hlength.symm

/-- A worker that has a task processes it. -/
theorem processed_continues {w : Nat} {works : Bool} {files : FileResults} {job : Job}
    {user : Option User} {store : UserStore} {effects : List Effect} (hknown : KnownTasks s)
    (ht : tally s n = found life.station)
    (hphase : s.workers w = .took job ∨ s.workers w = .locked job user)
    (hresult : processTask works files s.store job.task user = (store, effects)) :
    Continues n life (history (lifeEvents s (cmp, .process w works files)
        ({ s with store := store }.setWorker w (.sending job effects))) n)
      (tally ({ s with store := store }.setWorker w (.sending job effects)) n) := by
  have hfound : (s.workers w).owes = some job ∧
      lifeEvents s (cmp, .process w works files)
        ({ s with store := store }.setWorker w (.sending job effects)) = [⟨.processed, job.ticket⟩] ∧
      (∀ m, (s.workers w).unprocessed m = if job.ticket = m then 1 else 0) ∧
      ∀ m, (s.workers w).unstored m = 0 := by
    rcases hphase with htook | hlocked
    · simp only [lifeEvents, htook]
      exact ⟨rfl, trivial, fun _ => rfl, fun _ => rfl⟩
    · simp only [lifeEvents, hlocked]
      exact ⟨rfl, trivial, fun _ => rfl, fun _ => rfl⟩
  obtain ⟨howes, hevents, hunprocessed, hunstored⟩ := hfound
  have hone : effects.countP Effect.isResponse = 1 := by
    have hcount := processTask_responses works files s.store user
      (hknown job (Or.inr (Or.inl ⟨w, howes⟩)))
    rwa [hresult] at hcount
  have hstore : tally { s with store := store } n = found life.station := ht
  rw [hevents]
  exact process_continues (s := { s with store := store }) hstore hunprocessed hunstored hone

/-- A step of a worker that moves no task. -/
theorem worker_continues {w : Nat} {p q : WorkerPhase} (ht : tally s n = found life.station)
    (hphase : s.workers w = p) (hunprocessed : q.unprocessed n = p.unprocessed n)
    (hunstored : q.unstored n = p.unstored n) : Continues n life [] (tally (s.setWorker w q) n) := by
  apply continues_same ht
  apply tally_setWorker_same
  · rw [hphase, hunprocessed]
  · rw [hphase, hunstored]

/-- A response that no longer waits to be stored without having been stored. -/
theorem dropped_continues {w : Nat} {p q : WorkerPhase} (job : Job) (rest : List Effect)
    (ht : tally s n = found life.station) (hphase : s.workers w = p)
    (hunprocessed : q.unprocessed n = p.unprocessed n)
    (hbefore : p.unstored n = if job.ticket = n then rest.countP Effect.isResponse + 1 else 0)
    (hafter : q.unstored n = if job.ticket = n then rest.countP Effect.isResponse else 0) :
    Continues n life [] (tally (s.setWorker w q) n) := by
  apply answer_dropped job.ticket (rest.countP Effect.isResponse) ht
  · rw [hphase, hunprocessed]
  · rw [hphase, hbefore]
  · exact hafter

theorem pushed_continues {w : Nat} {a : Addr} {r : Reply} {rest : List Effect}
    {e : ResponseQueueEntry} {q : Queue Reply} (ht : tally s n = found life.station)
    (hpushing : s.workers w = .pushing a r rest) (hmem : s.mem a = some e)
    (hadd : Added r e.queue q) :
    Continues n life [] (tally ((s.setEntry a (some { e with queue := q })).setWorker w
      (.sending r.job rest)) n) := by
  rcases hadd with rfl | hperm
  · have hsame : tally (s.setEntry a (some { e with queue := e.queue })) n = tally s n := by
      apply tally_setEntry_same
      simp only [tally, hmem, Option.elim_some]
    exact dropped_continues (s := s.setEntry a (some e)) r.job rest (hsame.trans ht) hpushing rfl
      rfl rfl
  · exact store_continues ht hpushing hmem hperm

/-- A step moves each task at most one step along its life. -/
theorem Moves.continues (hm : Moves s action s') (hknown : KnownTasks s)
    (ht : tally s n = found life.station) (hfresh : s.nextTicket ≤ n → life = .unsubmitted) :
    Continues n life (history (lifeEvents s (cmp, action) s') n) (tally s' n) := by
  cases hm with
  | submit hreading hparse hadd => exact submit_continues ht hfresh hadd rfl rfl rfl
  | @quit t line now grows ci hreading hparse =>
    have hnone : lifeEvents s (cmp, .command t line now grows) (s.setClient t (.closing ci)) = [] :=
      if_neg (Nat.lt_irrefl _)
    rw [hnone]
    exact continues_same ht (tally_frame rfl rfl rfl)
  | @unknown t line now grows ci hreading hparse =>
    have hnone : lifeEvents s (cmp, .command t line now grows) s = [] := if_neg (Nat.lt_irrefl _)
    rw [hnone]
    exact continues_same ht rfl
  | takeTask hidle hperm => exact take_continues ht hidle hperm
  | process hphase hresult =>
    exact processed_continues hknown ht (hphase.imp_left And.left) hresult
  | respond hsending hfind =>
    exact worker_continues ht hsending rfl (by simp [WorkerPhase.unstored])
  | @respondDropped w allocates job status message rest hsending =>
    exact dropped_continues job rest ht hsending rfl (by simp [WorkerPhase.unstored]) rfl
  | push hpushing hmem hadd => exact pushed_continues ht hpushing hmem hadd
  | @pushFreed w grows a r rest hpushing hmem =>
    exact dropped_continues r.job rest ht hpushing rfl rfl rfl
  | @sendFile w content job filePath filename rest hsending =>
    exact worker_continues (s := s.write _ _ _) ht hsending rfl (by simp [WorkerPhase.unstored])
  | sendFileMissing hsending =>
    exact worker_continues ht hsending rfl (by simp [WorkerPhase.unstored])
  | finish hsending => exact worker_continues ht hsending rfl (by simp [WorkerPhase.unstored])
  | lockUser htook hlocks => exact worker_continues ht htook rfl rfl
  | exitWorker hidle => exact worker_continues ht hidle rfl rfl
  | deliver hwaiting hmem hperm =>
    exact deliver_continues ht hmem hperm _ (tally_frame rfl rfl rfl)
  | @acceptRegistered fd a grows map hmain hfd hmem hperm hclosed =>
    refine continues_same ht ((tally_frame rfl rfl rfl).trans
      (tally_setEntry_same (s := s) (a := a) (o := some ⟨s.nextClientId, queueInit⟩) ?_))
    simp only [tally, hmem, Option.elim_some]
    rfl
  | @closeEntry t a hunlinked =>
    refine continues_same ht ((tally_frame rfl rfl rfl).trans
      (tally_setEntry_same (s := s) (a := a) (o := (s.mem a).map ResponseQueueEntry.close) ?_))
    simp only [tally]
    cases s.mem a with
    | none => rfl
    | some e => rfl
  | free hclosed => exact free_continues ht
  | _ => exact continues_same ht (tally_frame rfl rfl rfl)

theorem Moves.nextTicket_le (hm : Moves s action s') : s.nextTicket ≤ s'.nextTicket := by
  cases hm with
  | submit _ _ _ => exact Nat.le_succ _
  | _ => exact Nat.le_refl _

/-- Only the next ticket is accepted, and it is used up. -/
theorem Moves.accepted (hm : Moves s action s')
    (h : ⟨.accepted, n⟩ ∈ lifeEvents s (cmp, action) s') : n < s'.nextTicket := by
  cases hm with
  | submit _ _ _ =>
    simp only [lifeEvents] at h
    split at h
    · have hn : n = s.nextTicket := congrArg TaskEvent.ticket (List.mem_singleton.mp h)
      rw [hn]
      exact Nat.lt_succ_self _
    · contradiction
  | process hphase _ =>
    simp only [lifeEvents] at h
    rcases hphase with ⟨htook, -, -⟩ | hlocked
    · simp [htook] at h
    · simp [hlocked] at h
  | quit _ _ => simp [lifeEvents, Server.setClient] at h
  | unknown _ _ => simp [lifeEvents] at h
  | deliver _ _ _ => simp [lifeEvents, Server.setClient, Server.write] at h
  | _ => contradiction

end Step

/-- What the log and the state say of task `n` when it is at `life`. -/
structure Living (log : List TaskEvent) (s : Server) (n : Nat) (life : Life) : Prop where
  lived : Lived n (history log n) life
  tally : tally s n = found life.station
  fresh : s.nextTicket ≤ n → life = .unsubmitted

theorem living_init (store : UserStore) (n : Nat) :
    Living [] (serverInit store) n .unsubmitted := by
  refine ⟨.start, ?_, fun _ => rfl⟩
  funext p
  cases p <;> rfl

theorem Life.Step.from_unsubmitted {n : Nat} {life : Life} {events : List TaskEvent}
    (h : Life.Step n .unsubmitted events life) : life = .unsubmitted ∨ events = [⟨.accepted, n⟩] := by
  cases h with
  | stay => exact Or.inl rfl
  | accept => exact Or.inr rfl

theorem history_append (log more : List TaskEvent) (n : Nat) :
    history (log ++ more) n = history log n ++ history more n := List.filter_append _ _

section Logged
variable {log : List TaskEvent} {s s' : Server} {n : Nat} {life : Life}

theorem Moves.living {cmp : Comparators Id} {action : Action} (hm : Moves s action s')
    (hknown : KnownTasks s) (h : Living log s n life) :
    ∃ life', Living (log ++ lifeEvents s (cmp, action) s') s' n life' := by
  obtain ⟨life', hstep, htally⟩ : Continues n life (history (lifeEvents s (cmp, action) s') n)
      (tally s' n) := hm.continues hknown h.tally h.fresh
  refine ⟨life', ?_, htally, ?_⟩
  · rw [history_append]
    exact h.lived.next hstep
  · intro hn
    obtain rfl := h.fresh (Nat.le_trans hm.nextTicket_le hn)
    rcases hstep.from_unsubmitted with hlife | hevents
    · exact hlife
    · have hmem : ⟨.accepted, n⟩ ∈ history (lifeEvents s (cmp, action) s') n := by
        rw [hevents]
        exact List.mem_cons_self
      have hlt := hm.accepted (List.mem_of_mem_filter hmem)
      exact absurd hn (Nat.not_le_of_lt hlt)

/-- Runs of the server with the events of its tasks. -/
abbrev TasksReached (store : UserStore) : Server × List TaskEvent → Prop :=
  Reached (logged serverStep lifeEvents) (fun _ _ => True) (serverInit store, [])

theorem TasksReached.server {store : UserStore} {r : Server × List TaskEvent}
    (h : TasksReached store r) : ServerReached (fun _ _ => True) store r.1 :=
  @Reached.unlogged _ _ _ (fun _ _ => True) _ _ _ _ h

theorem TasksReached.living {store : UserStore} {r : Server × List TaskEvent}
    (h : TasksReached store r) : KnownTasks r.1 ∧ ∀ n, ∃ life, Living r.2 r.1 n life := by
  apply h.invariant (I := fun r => KnownTasks r.1 ∧ ∀ n, ∃ life, Living r.2 r.1 n life)
  · exact ⟨knownTasks_init store, fun n => ⟨_, living_init store n⟩⟩
  · intro r r' l _ hr _ hstep
    obtain ⟨hserver, hlog⟩ := logged_step hstep
    have hm := serverStep_moves hserver
    refine ⟨hm.knownTasks hr.1, ?_⟩
    intro n
    obtain ⟨life, hlife⟩ := hr.2 n
    rw [hlog]
    exact hm.living hr.1 hlife

end Logged

/-- Seen from one task, every run of the server is a run through the life of a
task, and the task or its answer lies where that says and nowhere else. -/
theorem server_refines_task_life (store : UserStore) (s : Server) (log : List TaskEvent)
    (h : TasksReached store (s, log)) (n : Nat) :
    ∃ life, Lived n (history log n) life ∧ tally s n = found life.station := by
  obtain ⟨life, hlife⟩ := h.living.2 n
  exact ⟨life, hlife.lived, hlife.tally⟩

theorem answered_task_life : ∃ s log, TasksReached emptyStore (s, log) ∧
    log = [⟨.accepted, 1⟩, ⟨.processed, 1⟩, ⟨.delivered, 1⟩] ∧
      ∃ life, Lived 1 (history log 1) life ∧ tally s 1 = found life.station := by
  have hview : (exec (logged serverStep lifeEvents) (serverInit emptyStore, [])
      askedAndAnswered).map Prod.snd = some [⟨.accepted, 1⟩, ⟨.processed, 1⟩, ⟨.delivered, 1⟩] := by
    decide +kernel
  obtain ⟨⟨s, log⟩, hexec, hlog⟩ := Option.map_eq_some_iff.mp hview
  have hreach : TasksReached emptyStore (s, log) :=
    .of_exec .start (guarded_of_forall (fun _ _ _ => trivial) _) hexec
  exact ⟨s, log, hreach, hlog, server_refines_task_life emptyStore s log hreach 1⟩

/-- The events that lead to `life`. -/
def Life.shown (n : Nat) : Life → List TaskEvent
  | .unsubmitted => []
  | .placed .queued | .placed (.taken _) => [⟨.accepted, n⟩]
  | .placed (.answering _) | .placed (.answered _) | .lost => [⟨.accepted, n⟩, ⟨.processed, n⟩]
  | .delivered => [⟨.accepted, n⟩, ⟨.processed, n⟩, ⟨.delivered, n⟩]

theorem Lived.shown {n : Nat} {events : List TaskEvent} {life : Life} (h : Lived n events life) :
    events = life.shown n := by
  induction h with
  | start => rfl
  | next _ hstep ih =>
    rw [ih]
    cases hstep with
    | stay => exact List.append_nil _
    | accept => rfl
    | take => rfl
    | process => rfl
    | drop => rfl
    | store => rfl
    | free => rfl
    | deliver => rfl

/-- The tasks that have shown such an event, in order. -/
def tickets (kind : TaskEventKind) (log : List TaskEvent) : List Nat :=
  (log.filter fun event => event.kind = kind).map TaskEvent.ticket

theorem tickets_append (kind : TaskEventKind) (log more : List TaskEvent) :
    tickets kind (log ++ more) = tickets kind log ++ tickets kind more := by
  unfold tickets
  rw [List.filter_append, List.map_append]

theorem count_tickets (kind : TaskEventKind) (log : List TaskEvent) (n : Nat) :
    (tickets kind log).count n = (history log n).count ⟨kind, n⟩ := by
  induction log with
  | nil => rfl
  | cons event log ih =>
    obtain ⟨k, m⟩ := event
    by_cases hk : k = kind
    · by_cases hm : m = n
      · simpa [tickets, history, hk, hm] using ih
      · simpa [tickets, history, hk, hm] using ih
    · by_cases hm : m = n
      · simpa [tickets, history, hk, hm] using ih
      · simpa [tickets, history, hk, hm] using ih

def Server.replyTickets (s : Server) : List Nat := s.written.filterMap fun w => w.line.replyTicket

section Replies
variable {s s' : Server} {log : List TaskEvent} {store : UserStore}

theorem Moves.replyTickets {action : Action} (hm : Moves s action s') (cmp : Comparators Id) :
    s'.replyTickets =
      (tickets .delivered (lifeEvents s (cmp, action) s')).reverse ++ s.replyTickets := by
  cases hm with
  | submit _ _ _ =>
    simp only [lifeEvents]
    split
    · rfl
    · rfl
  | process hphase _ =>
    simp only [lifeEvents]
    rcases hphase with ⟨htook, -, -⟩ | hlocked
    · rw [htook]; rfl
    · rw [hlocked]; rfl
  | quit _ _ => simp [lifeEvents, Server.setClient, tickets, Server.replyTickets]
  | unknown _ _ => simp [lifeEvents, tickets]
  | _ => rfl

theorem TasksReached.replyTickets (h : TasksReached store (s, log)) :
    s.replyTickets = (tickets .delivered log).reverse := by
  refine h.invariant (I := fun r => r.1.replyTickets = (tickets .delivered r.2).reverse) rfl ?_
  intro r r' l _ hr _ hstep
  obtain ⟨hserver, hlog⟩ := logged_step hstep
  have hmore := (serverStep_moves hserver).replyTickets l.1
  rw [hmore, hr, hlog]
  rw [tickets_append, List.reverse_append]

theorem replyTickets_nodup (h : ServerReached (fun _ _ => True) store s) : s.replyTickets.Nodup := by
  obtain ⟨log, hlog⟩ := h.logged lifeEvents
  have hliving := (TasksReached.living hlog).2
  rw [TasksReached.replyTickets hlog, List.nodup_reverse, List.nodup_iff_count_le_one]
  intro n
  obtain ⟨life, hlife⟩ := hliving n
  rw [count_tickets, hlife.lived.shown]
  cases life with
  | placed p => cases p <;> simp [Life.shown]
  | unsubmitted => simp [Life.shown]
  | lost => simp [Life.shown]
  | delivered => simp [Life.shown]

end Replies

/-- No two lines written to sockets are responses to one task, and a task whose
response was written is in no queue and with no worker. -/
theorem replies_distinct (store : UserStore) (s : Server)
    (h : ServerReached (fun _ _ => True) store s) :
    s.replyTickets.Nodup ∧ ∀ n ∈ s.replyTickets, ∀ p, tally s n p = 0 := by
  refine ⟨replyTickets_nodup h, ?_⟩
  obtain ⟨log, hlog⟩ := h.logged lifeEvents
  have hreplies := TasksReached.replyTickets hlog
  have hliving := (TasksReached.living hlog).2
  intro n hn p
  rw [hreplies, List.mem_reverse, ← List.count_pos_iff, count_tickets] at hn
  obtain ⟨life, hlife⟩ := hliving n
  rw [hlife.lived.shown] at hn
  rw [hlife.tally]
  cases life with
  | placed q => cases q <;> simp [Life.shown] at hn
  | unsubmitted => rfl
  | lost => rfl
  | delivered => rfl

theorem one_reply_distinct : ∃ s, ServerReached (fun _ _ => True) emptyStore s ∧
    s.replyTickets = [1] ∧
      (s.replyTickets.Nodup ∧ ∀ n ∈ s.replyTickets, ∀ p, tally s n p = 0) := by
  have hview : (exec serverStep (serverInit emptyStore) askedAndAnswered).map
      Server.replyTickets = some [1] := by
    decide +kernel
  obtain ⟨s, hexec, hs⟩ := Option.map_eq_some_iff.mp hview
  have hreach : ServerReached (fun _ _ => True) emptyStore s :=
    .of_exec .start (guarded_of_forall (fun _ _ _ => trivial) _) hexec
  exact ⟨s, hreach, hs, replies_distinct emptyStore s hreach⟩

end FileServer
