import FileServer.Queue
import FileServer.Command
import FileServer.Worker
import Mathlib.Logic.Function.Basic

/-!
# The threads of the server (main.c, client.c, worker.c)

One state for the main thread, any number of client threads and workers, the
three shared queues, the response entries on the heap and the open sockets. An
action is one critical section, one call into the store, or one write to a
socket; a run is any order of enabled actions. `malloc` may hand out any free
address, also one that was freed before.

Some fields only record history and are never read by a step: the stage
each connection has reached, the number of each task, the last task of each
connection and what was written. Comparisons are made in a monad, as in the
queue.

The cleanup after the last `pthread_join` runs alone and is left out, as are
the log lines. Client ids are natural numbers.
-/

namespace FileServer

set_option autoImplicit false

abbrev Addr := Nat

/-- A task and the number of its submission. -/
structure Job where
  ticket : Nat
  task : Task
  deriving DecidableEq, Repr

/-- A response and the task it answers; it is addressed to that task's connection. -/
structure Reply where
  job : Job
  response : Response
  addressed : response.clientId = job.task.client.clientId
  deriving DecidableEq, Repr

structure ResponseQueueEntry where
  clientId : Nat
  queue : Queue Reply

def ResponseQueueEntry.close (e : ResponseQueueEntry) : ResponseQueueEntry :=
  { e with queue := queueClose e.queue }

inductive MainPhase where
  | accepting
  | accepted (ci : ClientInfo)
  | closingTasks
  | closingMap
  | joining
  deriving DecidableEq, Repr

inductive ClientPhase where
  | idle
  | reading (ci : ClientInfo)
  | submitted (ci : ClientInfo)
  | waiting (ci : ClientInfo) (entry : Addr)
  | closing (ci : ClientInfo)
  | deregistering (clientId : Nat)
  | unlinked (entry : Addr)
  | closed (entry : Addr)
  | exited
  deriving DecidableEq, Repr

inductive WorkerPhase where
  | idle
  | took (job : Job)
  | locked (job : Job) (user : Option User)
  | sending (job : Job) (effects : List Effect)
  | pushing (entry : Addr) (reply : Reply) (effects : List Effect)
  | exited
  deriving DecidableEq, Repr

inductive Line where
  | allocationFailed
  | timedOut
  | reply (reply : Reply)
  | fileData (filename : CString) (content : List Byte)
  deriving DecidableEq, Repr

def responseLine (r : Response) : CString :=
  snprintf 1024 ((if r.status = .ok then cstr "OK" else cstr "ERR") ++ cstr " " ++ r.message ++
    cstr "\n")

def timeoutResponse : Response where
  clientId := 0
  status := .err
  message := strncpyZ 512 (cstr "Request timed out")

def Line.bytes : Line → List Byte
  | .allocationFailed => cstr "Error: Failed to allocate task\n"
  | .timedOut => responseLine timeoutResponse
  | .reply r => responseLine r.response
  | .fileData filename content =>
    snprintf 512 (cstr "FILE_DATA " ++ filename ++ cstr " " ++ decimal content.length ++ cstr "\n") ++
      content

/-- One write: the descriptor, the connection open on it, the last task
submitted by the writer's connection, and the line. -/
structure Written where
  fd : Nat
  owner : Option Nat
  last : Nat
  line : Line
  deriving DecidableEq, Repr

inductive Stage where
  | unborn
  | accepted
  | queued
  | served (thread : Nat)
  | deregistered
  deriving DecidableEq, Repr

structure Server where
  taskQueue : Queue Job
  responseMap : Queue Addr
  clientQueue : Queue ClientInfo
  store : UserStore
  main : MainPhase
  nextClientId : Nat
  clients : Nat → ClientPhase
  workers : Nat → WorkerPhase
  mem : Addr → Option ResponseQueueEntry
  sockets : Nat → Option Nat
  stage : Nat → Stage
  nextTicket : Nat
  lastTicket : Nat → Nat
  written : List Written

/-- The state when the accept loop starts. -/
def serverInit (store : UserStore) : Server where
  taskQueue := queueInit
  responseMap := queueInit
  clientQueue := queueInit
  store := store
  main := .accepting
  nextClientId := 1
  clients := fun _ => .idle
  workers := fun _ => .idle
  mem := fun _ => none
  sockets := fun _ => none
  stage := fun _ => .unborn
  nextTicket := 1
  lastTicket := fun _ => 0
  written := []

namespace Server

def setClient (s : Server) (t : Nat) (p : ClientPhase) : Server :=
  { s with clients := Function.update s.clients t p }

def setWorker (s : Server) (w : Nat) (p : WorkerPhase) : Server :=
  { s with workers := Function.update s.workers w p }

def setEntry (s : Server) (a : Addr) (e : Option ResponseQueueEntry) : Server :=
  { s with mem := Function.update s.mem a e }

def setStage (s : Server) (c : Nat) (stage : Stage) : Server :=
  { s with stage := Function.update s.stage c stage }

def write (s : Server) (fd : Nat) (clientId : Nat) (line : Line) : Server :=
  { s with written := ⟨fd, s.sockets fd, s.lastTicket clientId, line⟩ :: s.written }

/-- The accept loop after registration: the id is used up and waits to be queued. -/
def acceptOn (s : Server) (fd : Nat) : Server :=
  { s with
    nextClientId := s.nextClientId + 1
    sockets := Function.update s.sockets fd (some s.nextClientId)
    main := .accepted ⟨s.nextClientId, fd⟩ }.setStage s.nextClientId .accepted

def submit (s : Server) (t : Nat) (ci : ClientInfo) (taskQueue : Queue Job) : Server :=
  { s with
    taskQueue
    nextTicket := s.nextTicket + 1
    lastTicket := Function.update s.lastTicket ci.clientId s.nextTicket }.setClient t (.submitted ci)

/-- `e->client_id` for the entry at `a`. -/
def idAt (s : Server) (a : Addr) : Option Nat := (s.mem a).map ResponseQueueEntry.clientId

/-- The linear search that lookups and deregistration make in the response map. -/
def scan (s : Server) (clientId : Nat) : Option (Fin s.responseMap.size) :=
  (List.finRange s.responseMap.size).find? fun i =>
    s.idAt (s.responseMap.items.get i).data = some clientId

def findEntry (s : Server) (clientId : Nat) : Option Addr :=
  (s.scan clientId).map fun i => (s.responseMap.items.get i).data

end Server

/-- Removal by overwriting with the last item. -/
def removeAt {α : Type} (q : Queue α) (i : Fin q.size) : Queue α where
  size := q.size - 1
  items :=
    (if i.val < q.size - 1 then
      q.items.set i (q.items.get ⟨q.size - 1, Nat.sub_lt i.pos Nat.one_pos⟩) i.isLt
      else q.items).pop
  capacity := q.capacity
  closed := q.closed
  fits := q.pred_fits

/-- The comparisons that the queues make, by the type of their items. -/
structure Comparators (m : Type → Type) where
  task : Job → Job → m Int
  client : ClientInfo → ClientInfo → m Int
  entry : Addr → Addr → m Int
  response : Reply → Reply → m Int

/-- Arguments are what the surroundings decide: descriptors, addresses and
success of allocations, lines received, the clock, results of file calls. -/
inductive Action where
  | accept (fd : Nat) (entry : Option Addr) (grows : Bool)
  | enqueue (grows : Bool)
  | interrupt
  | closeTasks
  | closeMap
  | takeClient (t : Nat)
  | command (t : Nat) (line : CString) (now : Timespec) (grows : Bool)
  | taskUnallocated (t : Nat)
  | endOfStream (t : Nat)
  | findEntry (t : Nat)
  | deliver (t : Nat)
  | timeOut (t : Nat) (allocates : Bool)
  | waitFails (t : Nat)
  | closeSocket (t : Nat)
  | unlink (t : Nat)
  | closeEntry (t : Nat)
  | free (t : Nat)
  | takeTask (w : Nat)
  | lockUser (w : Nat) (works : Bool)
  | process (w : Nat) (works : Bool) (files : FileResults)
  | respond (w : Nat) (allocates : Bool)
  | push (w : Nat) (grows : Bool)
  | sendFile (w : Nat) (content : Option (List Byte))
  | finish (w : Nat)

section Step
variable {m : Type → Type} [Monad m]

/-- `register_client_response_queue`; `entry` is what `calloc` returns. -/
def registerClientResponseQueue (cmp : Comparators m) (s : Server) (clientId : Nat)
    (entry : Option Addr) (grows : Bool) : m Server :=
  match entry with
  | none => pure s
  | some a => do
    let (success, map) ← queuePush cmp.entry grows s.responseMap a .normal
    if success then pure ({ s with responseMap := map }.setEntry a (some ⟨clientId, queueInit⟩))
    else pure s

/-- The part of `deregister_client_response_queue` under the map's mutex. -/
def unlinkEntry (s : Server) (clientId : Nat) : Option (Addr × Queue Addr) :=
  (s.scan clientId).map fun i => ((s.responseMap.items.get i).data, removeAt s.responseMap i)

/-- `none` when the action is not enabled. -/
def step (cmp : Comparators m) (s : Server) (action : Action) : m (Option Server) :=
  match action with
  | .accept fd entry grows =>
    match s.main with
    | .accepting =>
      if s.sockets fd = none ∧ entry.all (fun a => (s.mem a).isNone) then do
        let s ← registerClientResponseQueue cmp s s.nextClientId entry grows
        pure (some (s.acceptOn fd))
      else pure none
    | _ => pure none
  | .enqueue grows =>
    match s.main with
    | .accepted ci => do
      let (_, clientQueue) ← queuePush cmp.client grows s.clientQueue ci .normal
      pure (some ({ s with clientQueue, main := .accepting }.setStage ci.clientId .queued))
    | _ => pure none
  | .interrupt =>
    match s.main with
    | .accepting =>
      pure (some { s with main := .closingTasks, clientQueue := queueClose s.clientQueue })
    | _ => pure none
  | .closeTasks =>
    match s.main with
    | .closingTasks =>
      pure (some { s with main := .closingMap, taskQueue := queueClose s.taskQueue })
    | _ => pure none
  | .closeMap =>
    match s.main with
    | .closingMap =>
      pure (some { s with main := .joining, responseMap := queueClose s.responseMap })
    | _ => pure none
  | .takeClient t =>
    match s.clients t with
    | .idle => do
      let (popped, clientQueue) ← queuePop cmp.client s.clientQueue
      match popped with
      | .blocked => pure none
      | .null => pure (some (s.setClient t .exited))
      | .item ci =>
        pure (some (({ s with clientQueue }.setClient t (.reading ci)).setStage ci.clientId (.served t)))
    | _ => pure none
  | .command t line now grows =>
    match s.clients t with
    | .reading ci =>
      match parseCommand ci now line with
      | .quit => pure (some (s.setClient t (.closing ci)))
      | .unknown => pure (some s)
      | .submit task => do
        let (_, taskQueue) ←
          queuePush cmp.task grows s.taskQueue ⟨s.nextTicket, task⟩ task.priority
        pure (some (s.submit t ci taskQueue))
    | _ => pure none
  | .taskUnallocated t =>
    match s.clients t with
    | .reading ci => pure (some (s.write ci.socketFd ci.clientId .allocationFailed))
    | _ => pure none
  | .endOfStream t =>
    match s.clients t with
    | .reading ci => pure (some (s.setClient t (.closing ci)))
    | _ => pure none
  | .findEntry t =>
    match s.clients t with
    | .submitted ci =>
      match s.findEntry ci.clientId with
      | some a => pure (some (s.setClient t (.waiting ci a)))
      | none => pure (some (s.setClient t (.closing ci)))
    | _ => pure none
  | .deliver t =>
    match s.clients t with
    | .waiting ci a =>
      match s.mem a with
      | some e => do
        let (popped, queue) ← queuePop cmp.response e.queue
        match popped with
        | .item reply =>
          pure (some (((s.setEntry a (some { e with queue })).write ci.socketFd ci.clientId
            (.reply reply)).setClient t (.reading ci)))
        | _ => pure none
      | none => pure none
    | _ => pure none
  | .timeOut t allocates =>
    match s.clients t with
    | .waiting ci a =>
      if (s.mem a).all (fun e => e.queue.size = 0) then
        let s := if allocates then s.write ci.socketFd ci.clientId .timedOut else s
        pure (some (s.setClient t (.reading ci)))
      else pure none
    | _ => pure none
  | .waitFails t =>
    match s.clients t with
    | .waiting ci a =>
      if (s.mem a).all (fun e => e.queue.size = 0) then pure (some (s.setClient t (.reading ci)))
      else pure none
    | _ => pure none
  | .closeSocket t =>
    match s.clients t with
    | .closing ci =>
      pure (some ({ s with sockets := Function.update s.sockets ci.socketFd none }.setClient t
        (.deregistering ci.clientId)))
    | _ => pure none
  | .unlink t =>
    match s.clients t with
    | .deregistering c =>
      match unlinkEntry s c with
      | some (a, map) =>
        pure (some (({ s with responseMap := map }.setClient t (.unlinked a)).setStage c .deregistered))
      | none => pure (some ((s.setClient t .idle).setStage c .deregistered))
    | _ => pure none
  | .closeEntry t =>
    match s.clients t with
    | .unlinked a =>
      pure (some ((s.setEntry a ((s.mem a).map ResponseQueueEntry.close)).setClient t (.closed a)))
    | _ => pure none
  | .free t =>
    match s.clients t with
    | .closed a => pure (some ((s.setEntry a none).setClient t .idle))
    | _ => pure none
  | .takeTask w =>
    match s.workers w with
    | .idle => do
      let (popped, taskQueue) ← queuePop cmp.task s.taskQueue
      match popped with
      | .blocked => pure none
      | .null => pure (some (s.setWorker w .exited))
      | .item job => pure (some ({ s with taskQueue }.setWorker w (.took job)))
    | _ => pure none
  | .lockUser w works =>
    match s.workers w with
    | .took job =>
      if locksUser job.task then
        pure (some (s.setWorker w
          (.locked job (userStoreLockUser works s.store job.task.username))))
      else pure none
    | _ => pure none
  | .process w works files =>
    match s.workers w with
    | .took job =>
      if locksUser job.task then pure none
      else
        let (store, effects) := processTask works files s.store job.task none
        pure (some ({ s with store }.setWorker w (.sending job effects)))
    | .locked job user =>
      let (store, effects) := processTask works files s.store job.task user
      pure (some ({ s with store }.setWorker w (.sending job effects)))
    | _ => pure none
  | .respond w allocates =>
    match s.workers w with
    | .sending job (.sendResponse status message :: rest) =>
      match (if allocates then s.findEntry job.task.client.clientId else none) with
      | some a =>
        pure (some (s.setWorker w (.pushing a ⟨job, makeResponse job.task status message, rfl⟩ rest)))
      | none => pure (some (s.setWorker w (.sending job rest)))
    | _ => pure none
  | .push w grows =>
    match s.workers w with
    | .pushing a reply rest =>
      match s.mem a with
      | some e => do
        let (_, queue) ← queuePush cmp.response grows e.queue reply .normal
        pure (some ((s.setEntry a (some { e with queue })).setWorker w (.sending reply.job rest)))
      | none => pure (some (s.setWorker w (.sending reply.job rest)))
    | _ => pure none
  | .sendFile w content =>
    match s.workers w with
    | .sending job (.sendFileData _ filename :: rest) =>
      let client := job.task.client
      let s :=
        match content with
        | some bytes => s.write client.socketFd client.clientId (.fileData filename bytes)
        | none => s
      pure (some (s.setWorker w (.sending job rest)))
    | _ => pure none
  | .finish w =>
    match s.workers w with
    | .sending _ [] => pure (some (s.setWorker w .idle))
    | _ => pure none

end Step

/-- Tasks in their order, everything else equal. -/
def taskComparators : Comparators Id where
  task := fun a b => taskComparePriority a.task b.task
  client := fun _ _ => 0
  entry := fun _ _ => 0
  response := fun _ _ => 0

/-- A step whose comparisons return whatever `l.1` says. -/
def serverStep (s : Server) (l : Comparators Id × Action) : Option Server :=
  Id.run (step l.1 s l.2)

end FileServer
