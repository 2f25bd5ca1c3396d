import FileServer.Server
import FileServer.Shared.LockOrder
import FileServer.Shared.Runs

/-!
# The mutexes of the server (main.c, client.c, worker.c, queue.c, user_db.c)

Every thread again, lock by lock: a step takes one mutex, gives one back or does
what its thread does in between. What a critical section does to its queue happens
in the step that gives the mutex back. A thread asleep on a condition variable has
given back the mutex of the wait and locks it again when it wakes up, which it may
do at any time.

Entries stay where they are and are not reused; the cleanup of the main thread
starts after the last `pthread_join`.
-/

namespace FileServer

open LockOrder Runs
set_option autoImplicit false

inductive Mutex where
  | taskQueue
  | clientQueue
  | responseMap
  | userStore
  | entry (a : Addr)
  | entryQueue (a : Addr)
  deriving DecidableEq, Repr

inductive Turn where
  | locking
  | inside

/-- Where a thread stands in `queue_pop`. -/
inductive PopPoint where
  | locking
  | testing
  | sleeping

/-- The value of `rc` in the loop around `pthread_cond_timedwait`. -/
inductive WaitResult where
  | woken
  | timedOut
  | failed
  deriving DecidableEq

inductive MainPoint where
  | accepting
  | registering (ci : ClientInfo) (a : Addr) (turn : Turn)
  | enqueuing (ci : ClientInfo) (turn : Turn)
  | closingClients (turn : Turn)
  | closingTasks (turn : Turn)
  | closingMap (turn : Turn)
  | joining
  | cleaning (turn : Turn)
  | destroyingStore (turn : Turn)
  | finished

inductive ClientPoint where
  | taking (stage : PopPoint)
  | reading (ci : ClientInfo)
  | submitting (ci : ClientInfo) (task : Task) (turn : Turn)
  | searching (ci : ClientInfo) (turn : Turn)
  | lockingEntry (ci : ClientInfo) (a : Addr) (rc : WaitResult)
  | checking (ci : ClientInfo) (a : Addr) (rc : WaitResult)
  | awaiting (ci : ClientInfo) (a : Addr)
  | popping (ci : ClientInfo) (a : Addr) (stage : PopPoint)
  | leaving (ci : ClientInfo) (a : Addr)
  | deregistering (clientId : Nat) (turn : Turn)
  | lockingFound (a : Addr)
  | closingFound (a : Addr) (turn : Turn)
  | leavingFound (a : Addr)
  | destroyingFound (a : Addr)
  | exited

inductive WorkerPoint where
  | taking (stage : PopPoint)
  | took (task : Task)
  | lockingUser (task : Task) (turn : Turn)
  | inStore (task : Task) (user : Option User) (turn : Turn)
  | working (task : Task) (user : Option User)
  | answering (task : Task) (effects : List Effect)
  | searching (task : Task) (r : Response) (rest : List Effect) (turn : Turn)
  | lockingEntry (task : Task) (a : Addr) (r : Response) (rest : List Effect)
  | pushing (task : Task) (a : Addr) (r : Response) (rest : List Effect) (turn : Turn)
  | leaving (task : Task) (a : Addr) (rest : List Effect)
  | exited

inductive Point where
  | main (p : MainPoint)
  | client (p : ClientPoint)
  | worker (p : WorkerPoint)

def PopPoint.held (m : Mutex) : PopPoint → List Mutex
  | .testing => [m]
  | .locking | .sleeping => []

def PopPoint.wanted (m : Mutex) : PopPoint → Option Mutex
  | .locking => some m
  | .testing | .sleeping => none

def Turn.held (m : Mutex) : Turn → List Mutex
  | .inside => [m]
  | .locking => []

def Turn.wanted (m : Mutex) : Turn → Option Mutex
  | .locking => some m
  | .inside => none

def MainPoint.held : MainPoint → List Mutex
  | .registering _ _ turn | .closingMap turn | .cleaning turn => turn.held .responseMap
  | .enqueuing _ turn | .closingClients turn => turn.held .clientQueue
  | .closingTasks turn => turn.held .taskQueue
  | .destroyingStore turn => turn.held .userStore
  | .accepting | .joining | .finished => []

def MainPoint.wanted : MainPoint → Option Mutex
  | .registering _ _ turn | .closingMap turn | .cleaning turn => turn.wanted .responseMap
  | .enqueuing _ turn | .closingClients turn => turn.wanted .clientQueue
  | .closingTasks turn => turn.wanted .taskQueue
  | .destroyingStore turn => turn.wanted .userStore
  | .accepting | .joining | .finished => none

def ClientPoint.held : ClientPoint → List Mutex
  | .taking stage => stage.held .clientQueue
  | .submitting _ _ turn => turn.held .taskQueue
  | .searching _ turn | .deregistering _ turn => turn.held .responseMap
  | .checking _ a _ | .leaving _ a | .leavingFound a => [.entry a]
  | .popping _ a stage => stage.held (.entryQueue a) ++ [.entry a]
  | .closingFound a turn => turn.held (.entryQueue a) ++ [.entry a]
  | .reading _ | .lockingEntry _ _ _ | .awaiting _ _ | .lockingFound _ | .destroyingFound _
  | .exited => []

def ClientPoint.wanted : ClientPoint → Option Mutex
  | .taking stage => stage.wanted .clientQueue
  | .submitting _ _ turn => turn.wanted .taskQueue
  | .searching _ turn | .deregistering _ turn => turn.wanted .responseMap
  | .lockingEntry _ a _ | .lockingFound a => some (.entry a)
  | .popping _ a stage => stage.wanted (.entryQueue a)
  | .closingFound a turn => turn.wanted (.entryQueue a)
  | .reading _ | .checking _ _ _ | .awaiting _ _ | .leaving _ _ | .leavingFound _
  | .destroyingFound _ | .exited => none

def WorkerPoint.held : WorkerPoint → List Mutex
  | .taking stage => stage.held .taskQueue
  | .lockingUser _ turn | .inStore _ _ turn => turn.held .userStore
  | .searching _ _ _ turn => turn.held .responseMap
  | .pushing _ a _ _ turn => turn.held (.entryQueue a) ++ [.entry a]
  | .leaving _ a _ => [.entry a]
  | .took _ | .working _ _ | .answering _ _ | .lockingEntry _ _ _ _ | .exited => []

def WorkerPoint.wanted : WorkerPoint → Option Mutex
  | .taking stage => stage.wanted .taskQueue
  | .lockingUser _ turn | .inStore _ _ turn => turn.wanted .userStore
  | .searching _ _ _ turn => turn.wanted .responseMap
  | .lockingEntry _ a _ _ => some (.entry a)
  | .pushing _ a _ _ turn => turn.wanted (.entryQueue a)
  | .took _ | .working _ _ | .answering _ _ | .leaving _ _ _ | .exited => none

/-- What the threads hold and are about to lock. -/
def discipline : Discipline Point Mutex where
  held
    | .main p => p.held
    | .client p => p.held
    | .worker p => p.held
  wanted
    | .main p => p.wanted
    | .client p => p.wanted
    | .worker p => p.wanted

structure ResponseEntry where
  clientId : Nat
  queue : Queue Response

/-- What the mutexes protect. -/
structure Shared where
  taskQueue : Queue Task
  clientQueue : Queue ClientInfo
  responseMap : Queue Addr
  entries : Addr → Option ResponseEntry
  store : UserStore
  nextClientId : Nat

namespace Shared

def setEntry (d : Shared) (a : Addr) (e : ResponseEntry) : Shared :=
  { d with entries := Function.update d.entries a (some e) }

/-- The linear search in the response map. -/
def scan (d : Shared) (clientId : Nat) : Option (Fin d.responseMap.size) :=
  (List.finRange d.responseMap.size).find? fun i =>
    (d.entries (d.responseMap.items.get i).data).map ResponseEntry.clientId = some clientId

def findEntry (d : Shared) (clientId : Nat) : Option Addr :=
  (d.scan clientId).map fun i => (d.responseMap.items.get i).data

end Shared

/-- `queue_destroy` leaves `closed` as it is. -/
def queueDestroy {α : Type} (q : Queue α) : Queue α := { (queueInit : Queue α) with closed := q.closed }

def ResponseEntry.destroy (e : ResponseEntry) : ResponseEntry :=
  { e with queue := queueDestroy e.queue }

/-- What the surroundings decide in a step. -/
structure Choice where
  compareTasks : Task → Task → Int
  compareClients : ClientInfo → ClientInfo → Int
  compareEntries : Addr → Addr → Int
  compareResponses : Response → Response → Int
  grows : Bool
  allocates : Bool
  works : Bool
  files : FileResults
  interrupted : Bool
  fd : Nat
  entry : Option Addr
  streamEnds : Bool
  line : CString
  now : Timespec
  rc : WaitResult

/-- A step of one thread: the mutex it takes or gives back, the point it reaches
and what it leaves behind. -/
structure Move (P : Type) where
  op : LockOp Mutex
  point : P
  shared : Shared

section Threads
variable (c : Choice) (d : Shared)

def mainNext (joined : Bool) : MainPoint → Option (Move MainPoint)
  | .accepting =>
    if c.interrupted then some ⟨.none, .closingClients .locking, d⟩
    else
      let ci : ClientInfo := ⟨d.nextClientId, c.fd⟩
      let d := { d with nextClientId := d.nextClientId + 1 }
      match c.entry with
      | none => some ⟨.none, .enqueuing ci .locking, d⟩
      | some a =>
        if (d.entries a).isNone then
          some ⟨.none, .registering ci a .locking, d.setEntry a ⟨ci.clientId, queueInit⟩⟩
        else none
  | .registering ci a .locking => some ⟨.acquire .responseMap, .registering ci a .inside, d⟩
  | .registering ci a .inside =>
    let map := (Id.run (queuePush c.compareEntries c.grows d.responseMap a .normal)).2
    some ⟨.release .responseMap, .enqueuing ci .locking, { d with responseMap := map }⟩
  | .enqueuing ci .locking => some ⟨.acquire .clientQueue, .enqueuing ci .inside, d⟩
  | .enqueuing ci .inside =>
    let queue := (Id.run (queuePush c.compareClients c.grows d.clientQueue ci .normal)).2
    some ⟨.release .clientQueue, .accepting, { d with clientQueue := queue }⟩
  | .closingClients .locking => some ⟨.acquire .clientQueue, .closingClients .inside, d⟩
  | .closingClients .inside =>
    some ⟨.release .clientQueue, .closingTasks .locking,
      { d with clientQueue := queueClose d.clientQueue }⟩
  | .closingTasks .locking => some ⟨.acquire .taskQueue, .closingTasks .inside, d⟩
  | .closingTasks .inside =>
    some ⟨.release .taskQueue, .closingMap .locking, { d with taskQueue := queueClose d.taskQueue }⟩
  | .closingMap .locking => some ⟨.acquire .responseMap, .closingMap .inside, d⟩
  | .closingMap .inside =>
    some ⟨.release .responseMap, .joining, { d with responseMap := queueClose d.responseMap }⟩
  | .joining => if joined then some ⟨.none, .cleaning .locking, d⟩ else none
  | .cleaning .locking => some ⟨.acquire .responseMap, .cleaning .inside, d⟩
  | .cleaning .inside =>
    let destroyed := fun a =>
      if a ∈ d.responseMap.contents then (d.entries a).map ResponseEntry.destroy else d.entries a
    some ⟨.release .responseMap, .destroyingStore .locking, { d with entries := destroyed }⟩
  | .destroyingStore .locking =>
    match d.store.storage with
    | .persistent _ => some ⟨.none, .finished, d⟩
    | .memory _ => some ⟨.acquire .userStore, .destroyingStore .inside, d⟩
  | .destroyingStore .inside => some ⟨.release .userStore, .finished, d⟩
  | .finished => none

def clientNext : ClientPoint → Option (Move ClientPoint)
  | .taking .locking => some ⟨.acquire .clientQueue, .taking .testing, d⟩
  | .taking .testing =>
    match Id.run (queuePop c.compareClients d.clientQueue) with
    | (.blocked, _) => some ⟨.release .clientQueue, .taking .sleeping, d⟩
    | (.null, _) => some ⟨.release .clientQueue, .exited, d⟩
    | (.item ci, queue) =>
      some ⟨.release .clientQueue, .reading ci, { d with clientQueue := queue }⟩
  | .taking .sleeping => some ⟨.none, .taking .locking, d⟩
  | .reading ci =>
    if c.streamEnds then some ⟨.none, .deregistering ci.clientId .locking, d⟩
    else if c.allocates = false then some ⟨.none, .reading ci, d⟩
    else
      match parseCommand ci c.now c.line with
      | .quit => some ⟨.none, .deregistering ci.clientId .locking, d⟩
      | .unknown => some ⟨.none, .reading ci, d⟩
      | .submit task => some ⟨.none, .submitting ci task .locking, d⟩
  | .submitting ci task .locking => some ⟨.acquire .taskQueue, .submitting ci task .inside, d⟩
  | .submitting ci task .inside =>
    let queue := (Id.run (queuePush c.compareTasks c.grows d.taskQueue task task.priority)).2
    some ⟨.release .taskQueue, .searching ci .locking, { d with taskQueue := queue }⟩
  | .searching ci .locking => some ⟨.acquire .responseMap, .searching ci .inside, d⟩
  | .searching ci .inside =>
    match d.findEntry ci.clientId with
    | some a => some ⟨.release .responseMap, .lockingEntry ci a .woken, d⟩
    | none => some ⟨.release .responseMap, .deregistering ci.clientId .locking, d⟩
  | .lockingEntry ci a rc => some ⟨.acquire (.entry a), .checking ci a rc, d⟩
  | .checking ci a rc =>
    (d.entries a).bind fun e =>
      if e.queue.size = 0 ∧ rc = .woken then
        if c.rc = .failed then some ⟨.none, .checking ci a .failed, d⟩
        else some ⟨.release (.entry a), .awaiting ci a, d⟩
      else if 0 < e.queue.size then some ⟨.none, .popping ci a .locking, d⟩
      else some ⟨.none, .leaving ci a, d⟩
  | .awaiting ci a => some ⟨.none, .lockingEntry ci a c.rc, d⟩
  | .popping ci a .locking => some ⟨.acquire (.entryQueue a), .popping ci a .testing, d⟩
  | .popping ci a .testing =>
    (d.entries a).bind fun e =>
      match Id.run (queuePop c.compareResponses e.queue) with
      | (.blocked, _) => some ⟨.release (.entryQueue a), .popping ci a .sleeping, d⟩
      | (_, queue) => some ⟨.release (.entryQueue a), .leaving ci a, d.setEntry a { e with queue }⟩
  | .popping ci a .sleeping => some ⟨.none, .popping ci a .locking, d⟩
  | .leaving ci a => some ⟨.release (.entry a), .reading ci, d⟩
  | .deregistering clientId .locking =>
    some ⟨.acquire .responseMap, .deregistering clientId .inside, d⟩
  | .deregistering clientId .inside =>
    match d.scan clientId with
    | some i =>
      some ⟨.release .responseMap, .lockingFound (d.responseMap.items.get i).data,
        { d with responseMap := removeAt d.responseMap i }⟩
    | none => some ⟨.release .responseMap, .taking .locking, d⟩
  | .lockingFound a => some ⟨.acquire (.entry a), .closingFound a .locking, d⟩
  | .closingFound a .locking => some ⟨.acquire (.entryQueue a), .closingFound a .inside, d⟩
  | .closingFound a .inside =>
    (d.entries a).bind fun e =>
      some ⟨.release (.entryQueue a), .leavingFound a,
        d.setEntry a { e with queue := queueClose e.queue }⟩
  | .leavingFound a => some ⟨.release (.entry a), .destroyingFound a, d⟩
  | .destroyingFound a =>
    (d.entries a).bind fun e => some ⟨.none, .taking .locking, d.setEntry a e.destroy⟩
  | .exited => none

def workerNext : WorkerPoint → Option (Move WorkerPoint)
  | .taking .locking => some ⟨.acquire .taskQueue, .taking .testing, d⟩
  | .taking .testing =>
    match Id.run (queuePop c.compareTasks d.taskQueue) with
    | (.blocked, _) => some ⟨.release .taskQueue, .taking .sleeping, d⟩
    | (.null, _) => some ⟨.release .taskQueue, .exited, d⟩
    | (.item task, queue) => some ⟨.release .taskQueue, .took task, { d with taskQueue := queue }⟩
  | .taking .sleeping => some ⟨.none, .taking .locking, d⟩
  | .took task =>
    if locksUser task then some ⟨.none, .lockingUser task .locking, d⟩
    else if task.type = .signup then some ⟨.none, .inStore task none .locking, d⟩
    else some ⟨.none, .working task none, d⟩
  | .lockingUser task .locking => some ⟨.acquire .userStore, .lockingUser task .inside, d⟩
  | .lockingUser task .inside =>
    let user := userStoreLockUser c.works d.store task.username
    if task.type = .login ∧ user.isSome then
      some ⟨.release .userStore, .inStore task user .locking, d⟩
    else some ⟨.release .userStore, .working task user, d⟩
  | .inStore task user .locking => some ⟨.acquire .userStore, .inStore task user .inside, d⟩
  | .inStore task user .inside =>
    let (store, effects) := processTask c.works c.files d.store task user
    some ⟨.release .userStore, .answering task effects, { d with store }⟩
  | .working task user =>
    some ⟨.none, .answering task (processTask c.works c.files d.store task user).2, d⟩
  | .answering _ [] => some ⟨.none, .taking .locking, d⟩
  | .answering task (.sendResponse status message :: rest) =>
    if c.allocates then
      some ⟨.none, .searching task (makeResponse task status message) rest .locking, d⟩
    else some ⟨.none, .answering task rest, d⟩
  | .answering task (.sendFileData _ _ :: rest) => some ⟨.none, .answering task rest, d⟩
  | .searching task r rest .locking =>
    some ⟨.acquire .responseMap, .searching task r rest .inside, d⟩
  | .searching task r rest .inside =>
    match d.findEntry r.clientId with
    | some a => some ⟨.release .responseMap, .lockingEntry task a r rest, d⟩
    | none => some ⟨.release .responseMap, .answering task rest, d⟩
  | .lockingEntry task a r rest => some ⟨.acquire (.entry a), .pushing task a r rest .locking, d⟩
  | .pushing task a r rest .locking =>
    some ⟨.acquire (.entryQueue a), .pushing task a r rest .inside, d⟩
  | .pushing task a r rest .inside =>
    (d.entries a).bind fun e =>
      let queue := (Id.run (queuePush c.compareResponses c.grows e.queue r .normal)).2
      some ⟨.release (.entryQueue a), .leaving task a rest, d.setEntry a { e with queue }⟩
  | .leaving task a rest => some ⟨.release (.entry a), .answering task rest, d⟩
  | .exited => none

end Threads

inductive Thread (clients workers : Nat) where
  | main
  | client (t : Fin clients)
  | worker (w : Fin workers)
  deriving DecidableEq

/-- The threads at their points and the owners of the mutexes. -/
structure LockServer (clients workers : Nat) where
  shared : Shared
  owner : Mutex → Option (Thread clients workers)
  main : MainPoint
  clientAt : Fin clients → ClientPoint
  workerAt : Fin workers → WorkerPoint

section System
variable {clients workers : Nat}

def LockServer.point (s : LockServer clients workers) : Thread clients workers → Point
  | .main => .main s.main
  | .client t => .client (s.clientAt t)
  | .worker w => .worker (s.workerAt w)

def ClientPoint.isExited : ClientPoint → Bool
  | .exited => true
  | _ => false

def WorkerPoint.isExited : WorkerPoint → Bool
  | .exited => true
  | _ => false

/-- Every `pthread_join` returns. -/
def LockServer.joined (s : LockServer clients workers) : Bool :=
  (List.finRange clients).all (fun t => (s.clientAt t).isExited) &&
    (List.finRange workers).all fun w => (s.workerAt w).isExited

def lockInit (store : UserStore) : LockServer clients workers where
  shared := ⟨queueInit, queueInit, queueInit, fun _ => none, store, 1⟩
  owner := fun _ => none
  main := .accepting
  clientAt := fun _ => .taking .locking
  workerAt := fun _ => .taking .locking

/-- One step of a thread; `none` if it has to wait for a mutex or has ended. -/
def lockStep (s : LockServer clients workers) (l : Thread clients workers × Choice) :
    Option (LockServer clients workers) :=
  match l.1 with
  | .main =>
    (mainNext l.2 s.shared s.joined s.main).bind fun m =>
      (m.op.apply s.owner l.1).map fun owner =>
        { s with shared := m.shared, owner, main := m.point }
  | .client t =>
    (clientNext l.2 s.shared (s.clientAt t)).bind fun m =>
      (m.op.apply s.owner l.1).map fun owner =>
        { s with shared := m.shared, owner, clientAt := Function.update s.clientAt t m.point }
  | .worker w =>
    (workerNext l.2 s.shared (s.workerAt w)).bind fun m =>
      (m.op.apply s.owner l.1).map fun owner =>
        { s with shared := m.shared, owner, workerAt := Function.update s.workerAt w m.point }

end System

section Turns
variable {c : Choice} {d : Shared}

theorem mainNext_turns {joined : Bool} {p : MainPoint} {m : Move MainPoint}
    (h : mainNext c d joined p = some m) : m.op.Turns p.held m.point.held := by
  unfold mainNext at h
  dsimp only at h
  repeat' split at h
  all_goals
    first
    | contradiction
    | (obtain rfl := Option.some.inj h
       simp [LockOp.Turns, MainPoint.held, Turn.held])

theorem clientNext_turns {p : ClientPoint} {m : Move ClientPoint}
    (h : clientNext c d p = some m) : m.op.Turns p.held m.point.held := by
  unfold clientNext at h
  dsimp only at h
  repeat' split at h
  all_goals
    first
    | contradiction
    | (obtain rfl := Option.some.inj h
       simp [LockOp.Turns, ClientPoint.held, Turn.held, PopPoint.held])
    | (rw [Option.bind_eq_some_iff] at h
       obtain ⟨e, -, h⟩ := h
       repeat' split at h
       all_goals
         obtain rfl := Option.some.inj h
         simp [LockOp.Turns, ClientPoint.held, Turn.held, PopPoint.held])

theorem workerNext_turns {p : WorkerPoint} {m : Move WorkerPoint}
    (h : workerNext c d p = some m) : m.op.Turns p.held m.point.held := by
  unfold workerNext at h
  dsimp only at h
  repeat' split at h
  all_goals
    first
    | contradiction
    | (obtain rfl := Option.some.inj h
       simp [LockOp.Turns, WorkerPoint.held, Turn.held, PopPoint.held])
    | (rw [Option.bind_eq_some_iff] at h
       obtain ⟨e, -, h⟩ := h
       obtain rfl := Option.some.inj h
       simp [LockOp.Turns, WorkerPoint.held, Turn.held])

end Turns

section Order

def Mutex.rank : Mutex → Nat
  | .entry _ => 0
  | .taskQueue | .clientQueue | .responseMap | .userStore | .entryQueue _ => 1

theorem Turn.held_of_wanted {turn : Turn} {m n : Mutex} (h : turn.wanted m = some n) :
    turn.held m = [] ∧ n = m := by
  cases turn with
  | locking => exact ⟨rfl, (Option.some.inj h).symm⟩
  | inside => contradiction

theorem PopPoint.held_of_wanted {stage : PopPoint} {m n : Mutex} (h : stage.wanted m = some n) :
    stage.held m = [] ∧ n = m := by
  cases stage with
  | locking => exact ⟨rfl, (Option.some.inj h).symm⟩
  | testing => contradiction
  | sleeping => contradiction

theorem MainPoint.held_of_wanted {p : MainPoint} {m : Mutex} (h : p.wanted = some m) :
    p.held = [] := by
  cases p with
  | accepting => rfl
  | joining => rfl
  | finished => rfl
  | _ => exact (Turn.held_of_wanted h).1

theorem ClientPoint.held_below_wanted {p : ClientPoint} {m : Mutex} (h : p.wanted = some m) :
    ∀ n ∈ p.held, n.rank < m.rank := by
  cases p with
  | taking stage => simp [ClientPoint.held, (PopPoint.held_of_wanted h).1]
  | submitting ci task turn => simp [ClientPoint.held, (Turn.held_of_wanted h).1]
  | searching ci turn => simp [ClientPoint.held, (Turn.held_of_wanted h).1]
  | deregistering id turn => simp [ClientPoint.held, (Turn.held_of_wanted h).1]
  | popping ci a stage =>
    obtain ⟨hheld, rfl⟩ := PopPoint.held_of_wanted h
    simp [ClientPoint.held, hheld, Mutex.rank]
  | closingFound a turn =>
    obtain ⟨hheld, rfl⟩ := Turn.held_of_wanted h
    simp [ClientPoint.held, hheld, Mutex.rank]
  | lockingEntry ci a rc => simp [ClientPoint.held]
  | lockingFound a => simp [ClientPoint.held]
  | _ => contradiction

theorem WorkerPoint.held_below_wanted {p : WorkerPoint} {m : Mutex} (h : p.wanted = some m) :
    ∀ n ∈ p.held, n.rank < m.rank := by
  cases p with
  | taking stage => simp [WorkerPoint.held, (PopPoint.held_of_wanted h).1]
  | lockingUser task turn => simp [WorkerPoint.held, (Turn.held_of_wanted h).1]
  | inStore task user turn => simp [WorkerPoint.held, (Turn.held_of_wanted h).1]
  | searching task r rest turn => simp [WorkerPoint.held, (Turn.held_of_wanted h).1]
  | pushing task a r rest turn =>
    obtain ⟨hheld, rfl⟩ := Turn.held_of_wanted h
    simp [WorkerPoint.held, hheld, Mutex.rank]
  | lockingEntry task a r rest => simp [WorkerPoint.held]
  | _ => contradiction

/-- The mutex of an entry comes before the one of its queue; no other two are nested. -/
theorem discipline_ranked (p : Point) (m : Mutex) (h : discipline.wanted p = some m) :
    ∀ n ∈ discipline.held p, n.rank < m.rank := by
  cases p with
  | main p =>
    intro n hn
    have hnil : discipline.held (.main p) = [] := MainPoint.held_of_wanted h
    simp [hnil] at hn
  | client p => exact ClientPoint.held_below_wanted h
  | worker p => exact WorkerPoint.held_below_wanted h

end Order

section Entries
variable {c : Choice} {d : Shared} {a : Addr} {e : ResponseEntry}

theorem queuePush_keeps_closed {α : Type} (cmp : α → α → Int) (grows : Bool) (q : Queue α)
    (item : α) (priority : TaskPriority) :
    (Id.run (queuePush cmp grows q item priority)).2.closed = q.closed := by
  rcases queuePush_cases cmp grows q item priority with ⟨h, -⟩ | ⟨q', h, hopen, hopen', -⟩
  · rw [h]
  · rw [h, hopen, hopen']

theorem queuePop_keeps_closed {α : Type} (cmp : α → α → Int) (q : Queue α) :
    (Id.run (queuePop cmp q)).2.closed = q.closed := by
  rcases queuePop_cases cmp q with ⟨h, -⟩ | ⟨h, -⟩ | ⟨item, q', h, hclosed, -⟩
  · rw [h]
  · rw [h]
  · rw [h]
    exact hclosed

/-- The entry at `a` is the same, or has been changed under `right` and is still
closed if it was. -/
def EntryKept (d' : Shared) (right : Prop) (a : Addr) (e : ResponseEntry) : Prop :=
  d'.entries a = some e ∨
    ∃ e', d'.entries a = some e' ∧ (e.queue.closed = true → e'.queue.closed = true) ∧ right

theorem entryKept_setEntry {b : Addr} {f f' : ResponseEntry} {right : Prop}
    (hf : d.entries b = some f) (hclosed : f.queue.closed = true → f'.queue.closed = true)
    (hright : a = b → right) (he : d.entries a = some e) :
    EntryKept (d.setEntry b f') right a e := by
  rcases eq_or_ne a b with rfl | hne
  · obtain rfl := Option.some.inj (hf.symm.trans he)
    exact Or.inr ⟨f', by simp [Shared.setEntry], hclosed, hright rfl⟩
  · exact Or.inl (by simpa [Shared.setEntry, hne] using he)

theorem mainNext_entries {joined : Bool} {p : MainPoint} {m : Move MainPoint}
    (h : mainNext c d joined p = some m) (hp : p ≠ .cleaning .inside) (he : d.entries a = some e) :
    m.shared.entries a = some e := by
  unfold mainNext at h
  dsimp only at h
  repeat' split at h
  all_goals
    first
    | contradiction
    | (obtain rfl := Option.some.inj h
       exact he)
    | skip
  rename_i b _ hfree
  obtain rfl := Option.some.inj h
  have hne : a ≠ b := by
    rintro rfl
    simp [he] at hfree
  simpa [Shared.setEntry, hne] using he

theorem poppingTest_entries {ci : ClientInfo} {b : Addr} {m : Move ClientPoint}
    (h : clientNext c d (.popping ci b .testing) = some m) (he : d.entries a = some e) :
    EntryKept m.shared (a = b) a e := by
  obtain ⟨f, hf, h⟩ := Option.bind_eq_some_iff.mp h
  have hclosed := queuePop_keeps_closed c.compareResponses f.queue
  cases hpop : Id.run (queuePop c.compareResponses f.queue) with
  | mk popped queue =>
    rw [hpop] at h hclosed
    cases popped with
    | blocked =>
      obtain rfl := Option.some.inj h
      exact Or.inl he
    | null =>
      obtain rfl := Option.some.inj h
      exact entryKept_setEntry hf hclosed.trans id he
    | item r =>
      obtain rfl := Option.some.inj h
      exact entryKept_setEntry hf hclosed.trans id he

theorem EntryKept.imp {d' : Shared} {right right' : Prop} (h : EntryKept d' right a e)
    (himp : right → right') : EntryKept d' right' a e :=
  h.imp_right fun ⟨e', he', hclosed, hright⟩ => ⟨e', he', hclosed, himp hright⟩

theorem clientNext_entries {p : ClientPoint} {m : Move ClientPoint}
    (h : clientNext c d p = some m) (he : d.entries a = some e) :
    EntryKept m.shared (.entry a ∈ p.held ∨ p = .destroyingFound a) a e := by
  cases p with
  | checking ci b rc =>
    obtain ⟨f, -, h⟩ := Option.bind_eq_some_iff.mp h
    repeat' split at h
    all_goals
      obtain rfl := Option.some.inj h
      exact Or.inl he
  | popping ci b stage =>
    cases stage with
    | testing =>
      apply (poppingTest_entries h he).imp
      rintro rfl
      exact Or.inl (by simp [ClientPoint.held])
    | _ =>
      obtain rfl := Option.some.inj h
      exact Or.inl he
  | closingFound b turn =>
    cases turn with
    | locking =>
      obtain rfl := Option.some.inj h
      exact Or.inl he
    | inside =>
      obtain ⟨f, hf, h⟩ := Option.bind_eq_some_iff.mp h
      obtain rfl := Option.some.inj h
      apply entryKept_setEntry hf (fun _ => rfl) _ he
      rintro rfl
      exact Or.inl (by simp [ClientPoint.held])
  | destroyingFound b =>
    obtain ⟨f, hf, h⟩ := Option.bind_eq_some_iff.mp h
    obtain rfl := Option.some.inj h
    have hclosed : f.queue.closed = true → f.destroy.queue.closed = true := id
    apply entryKept_setEntry hf hclosed _ he
    rintro rfl
    exact Or.inr rfl
  | _ =>
    unfold clientNext at h
    dsimp only at h
    repeat' split at h
    all_goals
      first
      | contradiction
      | (obtain rfl := Option.some.inj h
         exact Or.inl he)

theorem workerNext_entries {p : WorkerPoint} {m : Move WorkerPoint}
    (h : workerNext c d p = some m) (he : d.entries a = some e) :
    EntryKept m.shared (.entry a ∈ p.held) a e := by
  cases p with
  | pushing task b r rest turn =>
    cases turn with
    | locking =>
      obtain rfl := Option.some.inj h
      exact Or.inl he
    | inside =>
      obtain ⟨f, hf, h⟩ := Option.bind_eq_some_iff.mp h
      obtain rfl := Option.some.inj h
      apply entryKept_setEntry hf _ _ he
      · simp [queuePush_keeps_closed]
      · rintro rfl
        simp [WorkerPoint.held]
  | _ =>
    unfold workerNext at h
    dsimp only at h
    repeat' split at h
    all_goals
      first
      | contradiction
      | (obtain rfl := Option.some.inj h
         exact Or.inl he)

end Entries

section Waiting
variable {c : Choice} {d d' : Shared}

/-- What a client thread may rely on at its point. -/
def ClientPoint.Ready (d : Shared) : ClientPoint → Prop
  | .popping _ a stage =>
    stage ≠ .sleeping ∧
      ∃ e, d.entries a = some e ∧ (0 < e.queue.size ∨ e.queue.closed = true)
  | .leavingFound a | .destroyingFound a => ∃ e, d.entries a = some e ∧ e.queue.closed = true
  | _ => True

theorem ClientPoint.Ready.frame {p : ClientPoint} (h : p.Ready d)
    (hkept : ∀ a e, d.entries a = some e →
      EntryKept d' (.entry a ∉ p.held ∨ e.queue.closed = true) a e) : p.Ready d' := by
  have hclosed : ∀ a, (∃ e, d.entries a = some e ∧ e.queue.closed = true) →
      ∃ e, d'.entries a = some e ∧ e.queue.closed = true := by
    rintro a ⟨e, he, hc⟩
    rcases hkept a e he with he' | ⟨e', he', hc', -⟩
    · exact ⟨e, he', hc⟩
    · exact ⟨e', he', hc' hc⟩
  cases p with
  | popping ci a stage =>
    obtain ⟨hawake, e, he, hready⟩ := h
    refine ⟨hawake, ?_⟩
    rcases hkept a e he with he' | ⟨e', he', hc', hout | hc⟩
    · exact ⟨e, he', hready⟩
    · simp [ClientPoint.held] at hout
    · exact ⟨e', he', Or.inr (hc' hc)⟩
  | leavingFound a => exact hclosed a h
  | destroyingFound a => exact hclosed a h
  | _ => trivial

/-- A queue with an item or a closed one does not make `queue_pop` wait. -/
theorem queuePop_not_blocked {α : Type} {cmp : α → α → Int} {q : Queue α}
    (h : 0 < q.size ∨ q.closed = true) : (Id.run (queuePop cmp q)).1 ≠ .blocked := by
  rcases queuePop_cases cmp q with ⟨-, hempty, hopen⟩ | ⟨hpop, -⟩ | ⟨item, q', hpop, -⟩
  · have hsize : q.size = 0 := by rw [← length_contents, hempty, List.length_nil]
    rcases h with h | h
    · omega
    · rw [hopen] at h
      contradiction
  · simp [hpop]
  · simp [hpop]

theorem clientNext_ready {p : ClientPoint} {m : Move ClientPoint}
    (h : clientNext c d p = some m) (hp : p.Ready d) : m.point.Ready m.shared := by
  cases p with
  | checking ci a rc =>
    obtain ⟨e, he, h⟩ := Option.bind_eq_some_iff.mp h
    repeat' split at h
    all_goals obtain rfl := Option.some.inj h
    · trivial
    · trivial
    · rename_i hsize _
      exact ⟨nofun, e, he, Or.inl hsize⟩
    · trivial
  | popping ci a stage =>
    cases stage with
    | locking =>
      obtain rfl := Option.some.inj h
      exact ⟨nofun, hp.2⟩
    | testing =>
      obtain ⟨-, e, he, hready⟩ := hp
      obtain ⟨f, hf, h⟩ := Option.bind_eq_some_iff.mp h
      obtain rfl := Option.some.inj (he.symm.trans hf)
      have hawake : (Id.run (queuePop c.compareResponses e.queue)).1 ≠ .blocked :=
        queuePop_not_blocked hready
      split at h
      · rename_i hpop
        simp [hpop] at hawake
      · obtain rfl := Option.some.inj h
        trivial
    | sleeping => exact absurd rfl hp.1
  | closingFound a turn =>
    cases turn with
    | locking =>
      obtain rfl := Option.some.inj h
      trivial
    | inside =>
      obtain ⟨e, he, h⟩ := Option.bind_eq_some_iff.mp h
      obtain rfl := Option.some.inj h
      exact ⟨{ e with queue := queueClose e.queue }, by simp [Shared.setEntry], rfl⟩
  | leavingFound a =>
    obtain rfl := Option.some.inj h
    exact hp
  | destroyingFound a =>
    obtain ⟨e, he, h⟩ := Option.bind_eq_some_iff.mp h
    obtain rfl := Option.some.inj h
    trivial
  | _ =>
    unfold clientNext at h
    dsimp only at h
    repeat' split at h
    all_goals
      first
      | contradiction
      | (obtain rfl := Option.some.inj h
         trivial)

end Waiting

section Steps
variable {clients workers : Nat} {s s' : LockServer clients workers}

/-- What one step of a thread does to the server. -/
inductive LockMoves (s s' : LockServer clients workers) : Prop
  | main (m : Move MainPoint) (c : Choice) (hnext : mainNext c s.shared s.joined s.main = some m)
      (happly : m.op.apply s.owner .main = some s'.owner) (hshared : s'.shared = m.shared)
      (hmain : s'.main = m.point) (hclients : s'.clientAt = s.clientAt)
      (hworkers : s'.workerAt = s.workerAt)
  | client (t : Fin clients) (m : Move ClientPoint) (c : Choice)
      (hnext : clientNext c s.shared (s.clientAt t) = some m)
      (happly : m.op.apply s.owner (.client t) = some s'.owner) (hshared : s'.shared = m.shared)
      (hmain : s'.main = s.main) (hclients : s'.clientAt = Function.update s.clientAt t m.point)
      (hworkers : s'.workerAt = s.workerAt)
  | worker (w : Fin workers) (m : Move WorkerPoint) (c : Choice)
      (hnext : workerNext c s.shared (s.workerAt w) = some m)
      (happly : m.op.apply s.owner (.worker w) = some s'.owner) (hshared : s'.shared = m.shared)
      (hmain : s'.main = s.main) (hclients : s'.clientAt = s.clientAt)
      (hworkers : s'.workerAt = Function.update s.workerAt w m.point)

theorem lockStep_moves {l : Thread clients workers × Choice} (h : lockStep s l = some s') :
    LockMoves s s' := by
  obtain ⟨thread, c⟩ := l
  cases thread with
  | main =>
    obtain ⟨m, hnext, h⟩ := Option.bind_eq_some_iff.mp h
    obtain ⟨owner, happly, rfl⟩ := Option.map_eq_some_iff.mp h
    exact .main m c hnext happly rfl rfl rfl rfl
  | client t =>
    obtain ⟨m, hnext, h⟩ := Option.bind_eq_some_iff.mp h
    obtain ⟨owner, happly, rfl⟩ := Option.map_eq_some_iff.mp h
    exact .client t m c hnext happly rfl rfl rfl rfl
  | worker w =>
    obtain ⟨m, hnext, h⟩ := Option.bind_eq_some_iff.mp h
    obtain ⟨owner, happly, rfl⟩ := Option.map_eq_some_iff.mp h
    exact .worker w m c hnext happly rfl rfl rfl rfl

theorem LockMoves.consistent (hm : LockMoves s s')
    (h : Consistent discipline s.owner s.point) : Consistent discipline s'.owner s'.point := by
  cases hm with
  | main m c hnext happly hshared hmain hclients hworkers =>
    have hpoint : s'.point = Function.update s.point .main (.main m.point) := by
      funext u
      cases u <;> simp [LockServer.point, hmain, hclients, hworkers]
    rw [hpoint]
    exact h.step (mainNext_turns hnext) happly
  | client t m c hnext happly hshared hmain hclients hworkers =>
    have hpoint : s'.point = Function.update s.point (.client t) (.client m.point) := by
      funext u
      cases u with
      | client v =>
        rcases eq_or_ne v t with rfl | hne
        · simp [LockServer.point, hclients]
        · simp [LockServer.point, hclients, hne]
      | _ => simp [LockServer.point, hmain, hworkers]
    rw [hpoint]
    exact h.step (clientNext_turns hnext) happly
  | worker w m c hnext happly hshared hmain hclients hworkers =>
    have hpoint : s'.point = Function.update s.point (.worker w) (.worker m.point) := by
      funext u
      cases u with
      | worker v =>
        rcases eq_or_ne v w with rfl | hne
        · simp [LockServer.point, hworkers]
        · simp [LockServer.point, hworkers, hne]
      | _ => simp [LockServer.point, hmain, hclients]
    rw [hpoint]
    exact h.step (workerNext_turns hnext) happly

theorem exited_of_joined (h : s.joined = true) (t : Fin clients) : s.clientAt t = .exited := by
  obtain ⟨hclients, -⟩ := Bool.and_eq_true_iff.mp h
  have ht := List.all_eq_true.mp hclients t (List.mem_finRange t)
  cases hp : s.clientAt t with
  | exited => rfl
  | _ => simp [hp, ClientPoint.isExited] at ht

theorem joined_of_cleaning {c : Choice} {m : Move MainPoint} {turn : Turn}
    (h : mainNext c s.shared s.joined s.main = some m) (hm : m.point = .cleaning turn) :
    s.joined = true ∨ ∃ turn', s.main = .cleaning turn' := by
  unfold mainNext at h
  dsimp only at h
  repeat' split at h
  all_goals
    first
    | contradiction
    | (obtain rfl := Option.some.inj h
       simp_all)

/-- The invariant of the locking. -/
structure Steady (s : LockServer clients workers) : Prop where
  consistent : Consistent discipline s.owner s.point
  ready : ∀ t, (s.clientAt t).Ready s.shared
  joined : ∀ turn, s.main = .cleaning turn → ∀ t, s.clientAt t = .exited

theorem LockMoves.ready (hm : LockMoves s s') (h : Steady s) (t : Fin clients) :
    (s'.clientAt t).Ready s'.shared := by
  cases hm with
  | main m c hnext happly hshared hmain hclients hworkers =>
    rw [hclients, hshared]
    by_cases hcleaning : s.main = .cleaning .inside
    · rw [h.joined _ hcleaning t]
      trivial
    · apply (h.ready t).frame
      intro a e he
      exact Or.inl (mainNext_entries hnext hcleaning he)
  | client u m c hnext happly hshared hmain hclients hworkers =>
    rw [hclients, hshared]
    rcases eq_or_ne t u with rfl | hne
    · rw [Function.update_self]
      exact clientNext_ready hnext (h.ready t)
    · rw [Function.update_of_ne hne]
      apply (h.ready t).frame
      intro a e he
      apply (clientNext_entries hnext he).imp
      rintro (hheld | hdestroying)
      · left
        intro hmine
        have hsame : Thread.client t = Thread.client u := h.consistent.exclusive hmine hheld
        exact hne (Thread.client.inj hsame)
      · right
        have hready := h.ready u
        rw [hdestroying] at hready
        obtain ⟨f, hf, hclosed⟩ := hready
        obtain rfl := Option.some.inj (hf.symm.trans he)
        exact hclosed
  | worker w m c hnext happly hshared hmain hclients hworkers =>
    rw [hclients, hshared]
    apply (h.ready t).frame
    intro a e he
    apply (workerNext_entries hnext he).imp
    intro hheld
    left
    intro hmine
    have hsame : Thread.client t = Thread.worker w := h.consistent.exclusive hmine hheld
    contradiction

theorem LockMoves.joined (hm : LockMoves s s') (h : Steady s) {turn : Turn}
    (hturn : s'.main = .cleaning turn) (t : Fin clients) : s'.clientAt t = .exited := by
  cases hm with
  | main m c hnext happly hshared hmain hclients hworkers =>
    rw [hclients]
    rcases joined_of_cleaning hnext (hmain.symm.trans hturn) with hjoined | ⟨turn', hcleaning⟩
    · exact exited_of_joined hjoined t
    · exact h.joined turn' hcleaning t
  | client u m c hnext happly hshared hmain hclients hworkers =>
    rw [h.joined turn (hmain.symm.trans hturn) u] at hnext
    contradiction
  | worker w m c hnext happly hshared hmain hclients hworkers =>
    rw [hclients]
    exact h.joined turn (hmain.symm.trans hturn) t

theorem LockMoves.steady (hm : LockMoves s s') (h : Steady s) : Steady s' :=
  ⟨hm.consistent h.consistent, hm.ready h, fun _ hturn => hm.joined h hturn⟩

theorem lockInit_steady (store : UserStore) :
    Steady (lockInit store : LockServer clients workers) := by
  refine ⟨?_, fun _ => trivial, fun _ h => by cases h⟩
  intro m t
  cases t <;>
    simp [lockInit, LockServer.point, discipline, MainPoint.held, ClientPoint.held,
      WorkerPoint.held, PopPoint.held]

end Steps

/-- The states that any order of thread steps reaches. -/
abbrev LocksReached {clients workers : Nat} (store : UserStore) :
    LockServer clients workers → Prop :=
  Reached lockStep (fun _ _ => True) (lockInit store)

/-- Thread `t` is about to lock a mutex that `u` holds. -/
abbrev LockServer.Waits {clients workers : Nat} (s : LockServer clients workers)
    (t u : Thread clients workers) : Prop :=
  WaitsFor discipline s.owner s.point t u

theorem no_mutex_deadlock {clients workers : Nat} (store : UserStore)
    (s : LockServer clients workers) (h : LocksReached store s) :
    (∀ t, ¬ Relation.TransGen s.Waits t t) ∧
    ∀ t ci a, s.clientAt t ≠ .popping ci a .sleeping := by
  have hsteady : Steady s := by
    apply h.invariant (lockInit_steady store)
    intro s s' l _ hs _ hstep
    exact (lockStep_moves hstep).steady hs
  refine ⟨fun t => no_cycle discipline_ranked hsteady.consistent t, ?_⟩
  intro t ci a hp
  have hready := hsteady.ready t
  rw [hp] at hready
  exact hready.1 rfl

/-- A client connects and sends `SIGNUP a b`. -/
def signupChoice : Choice where
  compareTasks := fun _ _ => 0
  compareClients := fun _ _ => 0
  compareEntries := fun _ _ => 0
  compareResponses := fun _ _ => 0
  grows := true
  allocates := true
  works := true
  files := ⟨false, .ok (), .ok [], false, none⟩
  interrupted := false
  fd := 5
  entry := some 0
  streamEnds := false
  line := cstr "SIGNUP a b"
  now := ⟨0, 0⟩
  rc := .woken

/-- The worker has locked the entry of the client before the client gets to it. -/
def entryContended : List (Thread 1 1 × Choice) :=
  let order : List (Nat × Thread 1 1) := [(5, .main), (5, .client 0), (9, .worker 0), (2, .client 0)]
  order.flatMap fun (n, t) => List.replicate n (t, signupChoice)

theorem contended_entry_no_cycle : ∃ s : LockServer 1 1,
    LocksReached emptyStore s ∧ s.Waits (.client 0) (.worker 0) ∧
    ¬ Relation.TransGen s.Waits (.client 0) (.client 0) := by
  have hview : (exec lockStep (lockInit emptyStore) entryContended).map
      (fun s => (discipline.wanted (s.point (.client 0)), s.owner (.entry 0))) =
      some (some (.entry 0), some (.worker 0)) := by
    decide +kernel
  obtain ⟨s, hexec, hs⟩ := Option.map_eq_some_iff.mp hview
  obtain ⟨hwanted, howner⟩ := Prod.mk.inj hs
  have hreach : LocksReached emptyStore s :=
    .of_exec .start (guarded_of_forall (fun _ _ _ => trivial) _) hexec
  exact ⟨s, hreach, ⟨.entry 0, hwanted, howner⟩, (no_mutex_deadlock _ s hreach).1 _⟩

end FileServer
