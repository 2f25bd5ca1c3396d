import FileServer.Server

/-!
# What one step of the server does

Every enabled action with its guard and its effect, the order inside the queues
forgotten: a push that is taken adds its item, a pop removes one. All run
properties of the server are proved from this list.
-/

namespace FileServer

set_option autoImplicit false

theorem removeAt_perm {α : Type} (q : Queue α) (i : Fin q.size) :
    q.contents.Perm ((q.items.get i).data :: (removeAt q i).contents) := by
  have hset : (removeAt q i).items =
      (q.items.set i (q.items.get ⟨q.size - 1, Nat.sub_lt i.pos Nat.one_pos⟩)).pop := by
    unfold removeAt
    dsimp only
    split
    · rfl
    · rename_i hlast
      have hi : i = ⟨q.size - 1, Nat.sub_lt i.pos Nat.one_pos⟩ := by
        apply Fin.ext
        have := i.isLt
        dsimp only
        omega
      rw [← hi]
      congr 1
      exact (Vector.set_getElem_self i.isLt).symm
  have hperm := (ArrayHeap.set_pop_perm q.items i.isLt).map PriorityItem.data
  unfold Queue.contents
  rw [hset]
  exact hperm.symm

theorem Server.scan_some {s : Server} {c : Nat} {i : Fin s.responseMap.size}
    (h : s.scan c = some i) : s.idAt (s.responseMap.items.get i).data = some c := by
  simpa using List.find?_some h

theorem Server.scan_none {s : Server} {c : Nat} (h : s.scan c = none) :
    ∀ a ∈ s.responseMap.contents, s.idAt a ≠ some c := by
  intro a ha
  unfold Queue.contents at ha
  obtain ⟨item, hitem, rfl⟩ := List.mem_map.mp ha
  obtain ⟨i, hi, rfl⟩ := List.getElem_of_mem hitem
  have hi' : i < s.responseMap.size := by simpa using hi
  have hne := List.find?_eq_none.mp h ⟨i, hi'⟩ (List.mem_finRange _)
  intro heq
  exact hne (decide_eq_true heq)

theorem Server.findEntry_some {s : Server} {c : Nat} {a : Addr} (h : s.findEntry c = some a) :
    a ∈ s.responseMap.contents ∧ s.idAt a = some c := by
  obtain ⟨i, hi, rfl⟩ := Option.map_eq_some_iff.mp h
  refine ⟨?_, scan_some hi⟩
  exact (removeAt_perm s.responseMap i).mem_iff.mpr List.mem_cons_self

theorem unlinkEntry_some {s : Server} {c : Nat} {a : Addr} {map : Queue Addr}
    (h : unlinkEntry s c = some (a, map)) :
    s.idAt a = some c ∧ s.responseMap.contents.Perm (a :: map.contents) ∧
      map.closed = s.responseMap.closed := by
  obtain ⟨i, hi, heq⟩ := Option.map_eq_some_iff.mp h
  cases heq
  exact ⟨Server.scan_some hi, removeAt_perm _ _, rfl⟩

/-- A pushed queue: the item was added, or the push was refused. -/
def Added {α : Type} (item : α) (q q' : Queue α) : Prop :=
  q' = q ∨ q'.contents.Perm (item :: q.contents)

theorem queuePush_added {α : Type} (cmp : α → α → Int) (grows : Bool) (q : Queue α) (item : α)
    (p : TaskPriority) : Added item q (Id.run (queuePush cmp grows q item p)).2 := by
  rcases queuePush_cases cmp grows q item p with ⟨he, _⟩ | ⟨q', he, _, _, hperm⟩
  · rw [he]
    exact Or.inl rfl
  · rw [he]
    exact Or.inr hperm

inductive Moves (s : Server) : Action → Server → Prop
  | acceptRegistered {fd a : Nat} {grows : Bool} {map : Queue Addr} :
      s.main = .accepting → s.sockets fd = none → s.mem a = none →
      map.contents.Perm (a :: s.responseMap.contents) → map.closed = false →
      Moves s (.accept fd (some a) grows)
        (({ s with responseMap := map }.setEntry a (some ⟨s.nextClientId, queueInit⟩)).acceptOn fd)
  | acceptUnregistered {fd : Nat} {entry : Option Addr} {grows : Bool} :
      s.main = .accepting → s.sockets fd = none →
      entry = none ∨ s.responseMap.closed = true ∨ grows = false →
      Moves s (.accept fd entry grows) (s.acceptOn fd)
  | enqueue {grows : Bool} {ci : ClientInfo} {q : Queue ClientInfo} :
      s.main = .accepted ci → Added ci s.clientQueue q →
      Moves s (.enqueue grows)
        ({ s with clientQueue := q, main := .accepting }.setStage ci.clientId .queued)
  | interrupt : s.main = .accepting →
      Moves s .interrupt
        { s with main := .closingTasks, clientQueue := queueClose s.clientQueue }
  | closeTasks : s.main = .closingTasks →
      Moves s .closeTasks { s with main := .closingMap, taskQueue := queueClose s.taskQueue }
  | closeMap : s.main = .closingMap →
      Moves s .closeMap { s with main := .joining, responseMap := queueClose s.responseMap }
  | exitClient {t : Nat} : s.clients t = .idle → Moves s (.takeClient t) (s.setClient t .exited)
  | takeClient {t : Nat} {ci : ClientInfo} {q : Queue ClientInfo} :
      s.clients t = .idle → (ci :: q.contents).Perm s.clientQueue.contents →
      Moves s (.takeClient t)
        (({ s with clientQueue := q }.setClient t (.reading ci)).setStage ci.clientId (.served t))
  | quit {t : Nat} {line : CString} {now : Timespec} {grows : Bool} {ci : ClientInfo} :
      s.clients t = .reading ci → parseCommand ci now line = .quit →
      Moves s (.command t line now grows) (s.setClient t (.closing ci))
  | unknown {t : Nat} {line : CString} {now : Timespec} {grows : Bool} {ci : ClientInfo} :
      s.clients t = .reading ci → parseCommand ci now line = .unknown →
      Moves s (.command t line now grows) s
  | submit {t : Nat} {line : CString} {now : Timespec} {grows : Bool} {ci : ClientInfo}
      {task : Task} {q : Queue Job} :
      s.clients t = .reading ci → parseCommand ci now line = .submit task →
      Added ⟨s.nextTicket, task⟩ s.taskQueue q →
      Moves s (.command t line now grows) (s.submit t ci q)
  | taskUnallocated {t : Nat} {ci : ClientInfo} : s.clients t = .reading ci →
      Moves s (.taskUnallocated t) (s.write ci.socketFd ci.clientId .allocationFailed)
  | endOfStream {t : Nat} {ci : ClientInfo} : s.clients t = .reading ci →
      Moves s (.endOfStream t) (s.setClient t (.closing ci))
  | foundEntry {t : Nat} {ci : ClientInfo} {a : Addr} :
      s.clients t = .submitted ci → s.findEntry ci.clientId = some a →
      Moves s (.findEntry t) (s.setClient t (.waiting ci a))
  | missedEntry {t : Nat} {ci : ClientInfo} :
      s.clients t = .submitted ci → s.findEntry ci.clientId = none →
      Moves s (.findEntry t) (s.setClient t (.closing ci))
  | deliver {t : Nat} {ci : ClientInfo} {a : Addr} {e : ResponseQueueEntry} {r : Reply}
      {q : Queue Reply} :
      s.clients t = .waiting ci a → s.mem a = some e → (r :: q.contents).Perm e.queue.contents →
      Moves s (.deliver t) (((s.setEntry a (some { e with queue := q })).write ci.socketFd
        ci.clientId (.reply r)).setClient t (.reading ci))
  | timeOut {t : Nat} {ci : ClientInfo} {a : Addr} : s.clients t = .waiting ci a →
      Moves s (.timeOut t true) ((s.write ci.socketFd ci.clientId .timedOut).setClient t (.reading ci))
  | timeOutSilent {t : Nat} {ci : ClientInfo} {a : Addr} : s.clients t = .waiting ci a →
      Moves s (.timeOut t false) (s.setClient t (.reading ci))
  | waitFails {t : Nat} {ci : ClientInfo} {a : Addr} : s.clients t = .waiting ci a →
      Moves s (.waitFails t) (s.setClient t (.reading ci))
  | closeSocket {t : Nat} {ci : ClientInfo} : s.clients t = .closing ci →
      Moves s (.closeSocket t)
        ({ s with sockets := Function.update s.sockets ci.socketFd none }.setClient t
          (.deregistering ci.clientId))
  | unlink {t c : Nat} {a : Addr} {map : Queue Addr} :
      s.clients t = .deregistering c → s.idAt a = some c →
      s.responseMap.contents.Perm (a :: map.contents) → map.closed = s.responseMap.closed →
      Moves s (.unlink t)
        (({ s with responseMap := map }.setClient t (.unlinked a)).setStage c .deregistered)
  | unlinkMissing {t c : Nat} : s.clients t = .deregistering c →
      (∀ a ∈ s.responseMap.contents, s.idAt a ≠ some c) →
      Moves s (.unlink t) ((s.setClient t .idle).setStage c .deregistered)
  | closeEntry {t : Nat} {a : Addr} : s.clients t = .unlinked a →
      Moves s (.closeEntry t)
        ((s.setEntry a ((s.mem a).map ResponseQueueEntry.close)).setClient t (.closed a))
  | free {t : Nat} {a : Addr} : s.clients t = .closed a →
      Moves s (.free t) ((s.setEntry a none).setClient t .idle)
  | exitWorker {w : Nat} : s.workers w = .idle → Moves s (.takeTask w) (s.setWorker w .exited)
  | takeTask {w : Nat} {job : Job} {q : Queue Job} :
      s.workers w = .idle → (job :: q.contents).Perm s.taskQueue.contents →
      Moves s (.takeTask w) ({ s with taskQueue := q }.setWorker w (.took job))
  | lockUser {w : Nat} {works : Bool} {job : Job} :
      s.workers w = .took job → locksUser job.task = true →
      Moves s (.lockUser w works)
        (s.setWorker w (.locked job (userStoreLockUser works s.store job.task.username)))
  | process {w : Nat} {works : Bool} {files : FileResults} {job : Job} {user : Option User}
      {store : UserStore} {effects : List Effect} :
      (s.workers w = .took job ∧ locksUser job.task = false ∧ user = none) ∨
        s.workers w = .locked job user →
      processTask works files s.store job.task user = (store, effects) →
      Moves s (.process w works files) ({ s with store := store }.setWorker w (.sending job effects))
  | respond {w : Nat} {job : Job} {status : ResponseStatus} {message : CString}
      {rest : List Effect} {a : Addr} :
      s.workers w = .sending job (.sendResponse status message :: rest) →
      s.findEntry job.task.client.clientId = some a →
      Moves s (.respond w true)
        (s.setWorker w (.pushing a ⟨job, makeResponse job.task status message, rfl⟩ rest))
  | respondDropped {w : Nat} {allocates : Bool} {job : Job} {status : ResponseStatus}
      {message : CString} {rest : List Effect} :
      s.workers w = .sending job (.sendResponse status message :: rest) →
      Moves s (.respond w allocates) (s.setWorker w (.sending job rest))
  | push {w : Nat} {grows : Bool} {a : Addr} {r : Reply} {rest : List Effect}
      {e : ResponseQueueEntry} {q : Queue Reply} :
      s.workers w = .pushing a r rest → s.mem a = some e → Added r e.queue q →
      Moves s (.push w grows)
        ((s.setEntry a (some { e with queue := q })).setWorker w (.sending r.job rest))
  | pushFreed {w : Nat} {grows : Bool} {a : Addr} {r : Reply} {rest : List Effect} :
      s.workers w = .pushing a r rest → s.mem a = none →
      Moves s (.push w grows) (s.setWorker w (.sending r.job rest))
  | sendFile {w : Nat} {content : List Byte} {job : Job} {filePath filename : CString}
      {rest : List Effect} :
      s.workers w = .sending job (.sendFileData filePath filename :: rest) →
      Moves s (.sendFile w (some content)) ((s.write job.task.client.socketFd
        job.task.client.clientId (.fileData filename content)).setWorker w (.sending job rest))
  | sendFileMissing {w : Nat} {job : Job} {filePath filename : CString} {rest : List Effect} :
      s.workers w = .sending job (.sendFileData filePath filename :: rest) →
      Moves s (.sendFile w none) (s.setWorker w (.sending job rest))
  | finish {w : Nat} {job : Job} : s.workers w = .sending job [] →
      Moves s (.finish w) (s.setWorker w .idle)

section Inversion
variable {cmp : Comparators Id} {s s' : Server}

theorem accept_moves {fd : Nat} {entry : Option Addr} {grows : Bool}
    (h : serverStep s (cmp, .accept fd entry grows) = some s') :
    Moves s (.accept fd entry grows) s' := by
  unfold serverStep step at h
  dsimp only at h
  split at h
  · rename_i hmain
    split at h
    · rename_i hfree
      cases entry with
      | none =>
        cases h
        exact .acceptUnregistered hmain hfree.1 (Or.inl rfl)
      | some a =>
        have hmem : s.mem a = none := by simpa using hfree.2
        rcases queuePush_cases cmp.entry grows s.responseMap a .normal with
          ⟨he, hwhy⟩ | ⟨map, he, _, hopen, hperm⟩
        · unfold registerClientResponseQueue at h
          dsimp only at h
          rw [eq_of_run he] at h
          cases h
          exact .acceptUnregistered hmain hfree.1 (Or.inr hwhy)
        · unfold registerClientResponseQueue at h
          dsimp only at h
          rw [eq_of_run he] at h
          cases h
          exact .acceptRegistered hmain hfree.1 hmem hperm hopen
    · contradiction
  · contradiction

theorem enqueue_moves {grows : Bool} (h : serverStep s (cmp, .enqueue grows) = some s') :
    Moves s (.enqueue grows) s' := by
  unfold serverStep step at h
  dsimp only at h
  split at h
  · rename_i ci hmain
    cases h
    exact .enqueue hmain (queuePush_added cmp.client grows s.clientQueue ci .normal)
  · contradiction

theorem takeClient_moves {t : Nat} (h : serverStep s (cmp, .takeClient t) = some s') :
    Moves s (.takeClient t) s' := by
  unfold serverStep step at h
  dsimp only at h
  split at h
  · rename_i hidle
    rcases queuePop_cases cmp.client s.clientQueue with
      ⟨he, _⟩ | ⟨he, _⟩ | ⟨ci, q, he, _, hperm⟩
    · rw [eq_of_run he] at h
      contradiction
    · rw [eq_of_run he] at h
      cases h
      exact .exitClient hidle
    · rw [eq_of_run he] at h
      cases h
      exact .takeClient hidle hperm
  · contradiction

theorem command_moves {t : Nat} {line : CString} {now : Timespec} {grows : Bool}
    (h : serverStep s (cmp, .command t line now grows) = some s') :
    Moves s (.command t line now grows) s' := by
  unfold serverStep step at h
  dsimp only at h
  split at h
  · rename_i ci hreading
    split at h
    · rename_i hp
      cases h
      exact .quit hreading hp
    · rename_i hp
      cases h
      exact .unknown hreading hp
    · rename_i task hp
      cases h
      exact .submit hreading hp (queuePush_added cmp.task grows s.taskQueue _ task.priority)
  · contradiction

theorem deliver_moves {t : Nat} (h : serverStep s (cmp, .deliver t) = some s') :
    Moves s (.deliver t) s' := by
  unfold serverStep step at h
  dsimp only at h
  split at h
  · rename_i ci a hwaiting
    split at h
    · rename_i e hmem
      rcases queuePop_cases cmp.response e.queue with
        ⟨he, _⟩ | ⟨he, _⟩ | ⟨r, q, he, _, hperm⟩
      · rw [eq_of_run he] at h
        contradiction
      · rw [eq_of_run he] at h
        contradiction
      · rw [eq_of_run he] at h
        cases h
        exact .deliver hwaiting hmem hperm
    · contradiction
  · contradiction

theorem takeTask_moves {w : Nat} (h : serverStep s (cmp, .takeTask w) = some s') :
    Moves s (.takeTask w) s' := by
  unfold serverStep step at h
  dsimp only at h
  split at h
  · rename_i hidle
    rcases queuePop_cases cmp.task s.taskQueue with
      ⟨he, _⟩ | ⟨he, _⟩ | ⟨job, q, he, _, hperm⟩
    · rw [eq_of_run he] at h
      contradiction
    · rw [eq_of_run he] at h
      cases h
      exact .exitWorker hidle
    · rw [eq_of_run he] at h
      cases h
      exact .takeTask hidle hperm
  · contradiction

theorem push_moves {w : Nat} {grows : Bool} (h : serverStep s (cmp, .push w grows) = some s') :
    Moves s (.push w grows) s' := by
  unfold serverStep step at h
  dsimp only at h
  split at h
  · rename_i a r rest hpushing
    split at h
    · rename_i e hmem
      cases h
      exact .push hpushing hmem (queuePush_added cmp.response grows e.queue r .normal)
    · rename_i hmem
      cases h
      exact .pushFreed hpushing hmem
  · contradiction

theorem process_moves {w : Nat} {works : Bool} {files : FileResults}
    (h : serverStep s (cmp, .process w works files) = some s') :
    Moves s (.process w works files) s' := by
  unfold serverStep step at h
  dsimp only at h
  split at h
  · rename_i job htook
    split at h
    · contradiction
    · rename_i hlock
      cases h
      exact .process (Or.inl ⟨htook, by simpa using hlock, rfl⟩) rfl
  · rename_i job user hlocked
    cases h
    exact .process (Or.inr hlocked) rfl
  · contradiction

theorem respond_moves {w : Nat} {allocates : Bool}
    (h : serverStep s (cmp, .respond w allocates) = some s') :
    Moves s (.respond w allocates) s' := by
  unfold serverStep step at h
  dsimp only at h
  split at h
  · rename_i job status message rest hsending
    cases allocates with
    | false =>
      cases h
      exact .respondDropped hsending
    | true =>
      simp only [if_true] at h
      split at h
      · rename_i a hfound
        cases h
        exact .respond hsending hfound
      · cases h
        exact .respondDropped hsending
  · contradiction

theorem unlink_moves {t : Nat} (h : serverStep s (cmp, .unlink t) = some s') :
    Moves s (.unlink t) s' := by
  unfold serverStep step at h
  dsimp only at h
  split at h
  · rename_i c hderegistering
    split at h
    · rename_i a map hunlink
      cases h
      obtain ⟨hid, hperm, hclosed⟩ := unlinkEntry_some hunlink
      exact .unlink hderegistering hid hperm hclosed
    · rename_i hnone
      cases h
      exact .unlinkMissing hderegistering (Server.scan_none (Option.map_eq_none_iff.mp hnone))
  · contradiction

theorem findEntry_moves {t : Nat} (h : serverStep s (cmp, .findEntry t) = some s') :
    Moves s (.findEntry t) s' := by
  unfold serverStep step at h
  dsimp only at h
  split at h
  · rename_i ci hsubmitted
    split at h
    · rename_i a hfound
      cases h
      exact .foundEntry hsubmitted hfound
    · rename_i hnone
      cases h
      exact .missedEntry hsubmitted hnone
  · contradiction

theorem timeOut_moves {t : Nat} {allocates : Bool}
    (h : serverStep s (cmp, .timeOut t allocates) = some s') :
    Moves s (.timeOut t allocates) s' := by
  unfold serverStep step at h
  dsimp only at h
  split at h
  · rename_i ci a hwaiting
    split at h
    · cases allocates with
      | true =>
        cases h
        exact .timeOut hwaiting
      | false =>
        cases h
        exact .timeOutSilent hwaiting
    · contradiction
  · contradiction

theorem waitFails_moves {t : Nat} (h : serverStep s (cmp, .waitFails t) = some s') :
    Moves s (.waitFails t) s' := by
  unfold serverStep step at h
  dsimp only at h
  split at h
  · rename_i ci a hwaiting
    split at h
    · cases h
      exact .waitFails hwaiting
    · contradiction
  · contradiction

theorem lockUser_moves {w : Nat} {works : Bool}
    (h : serverStep s (cmp, .lockUser w works) = some s') :
    Moves s (.lockUser w works) s' := by
  unfold serverStep step at h
  dsimp only at h
  split at h
  · rename_i job htook
    split at h
    · rename_i hlock
      cases h
      exact .lockUser htook hlock
    · contradiction
  · contradiction

theorem sendFile_moves {w : Nat} {content : Option (List Byte)}
    (h : serverStep s (cmp, .sendFile w content) = some s') :
    Moves s (.sendFile w content) s' := by
  unfold serverStep step at h
  dsimp only at h
  split at h
  · rename_i job filePath filename rest hsending
    cases content with
    | some bytes =>
      cases h
      exact .sendFile hsending
    | none =>
      cases h
      exact .sendFileMissing hsending
  · contradiction

/-- The actions of the main thread on its way out. -/
theorem shutdown_moves {action : Action}
    (ha : action = .interrupt ∨ action = .closeTasks ∨ action = .closeMap)
    (h : serverStep s (cmp, action) = some s') : Moves s action s' := by
  rcases ha with rfl | rfl | rfl <;> unfold serverStep step at h <;> dsimp only at h <;> split at h
  · rename_i hmain
    cases h
    exact .interrupt hmain
  · contradiction
  · rename_i hmain
    cases h
    exact .closeTasks hmain
  · contradiction
  · rename_i hmain
    cases h
    exact .closeMap hmain
  · contradiction

/-- The actions that only look at one thread's phase. -/
theorem phase_moves {action : Action}
    (ha : (∃ t, action = .taskUnallocated t ∨ action = .endOfStream t ∨ action = .closeSocket t ∨
      action = .closeEntry t ∨ action = .free t) ∨ ∃ w, action = .finish w)
    (h : serverStep s (cmp, action) = some s') : Moves s action s' := by
  rcases ha with ⟨t, rfl | rfl | rfl | rfl | rfl⟩ | ⟨w, rfl⟩ <;> unfold serverStep step at h <;>
    dsimp only at h <;> split at h
  · rename_i ci hreading
    cases h
    exact .taskUnallocated hreading
  · contradiction
  · rename_i ci hreading
    cases h
    exact .endOfStream hreading
  · contradiction
  · rename_i ci hclosing
    cases h
    exact .closeSocket hclosing
  · contradiction
  · rename_i a hunlinked
    cases h
    exact .closeEntry hunlinked
  · contradiction
  · rename_i a hclosed
    cases h
    exact .free hclosed
  · contradiction
  · rename_i job hsending
    cases h
    exact .finish hsending
  · contradiction

end Inversion

theorem serverStep_moves {s s' : Server} {l : Comparators Id × Action}
    (h : serverStep s l = some s') : Moves s l.2 s' := by
  obtain ⟨cmp, action⟩ := l
  cases action with
  | accept fd entry grows => exact accept_moves h
  | enqueue grows => exact enqueue_moves h
  | takeClient t => exact takeClient_moves h
  | command t line now grows => exact command_moves h
  | deliver t => exact deliver_moves h
  | takeTask w => exact takeTask_moves h
  | push w grows => exact push_moves h
  | process w works files => exact process_moves h
  | respond w allocates => exact respond_moves h
  | unlink t => exact unlink_moves h
  | findEntry t => exact findEntry_moves h
  | timeOut t allocates => exact timeOut_moves h
  | waitFails t => exact waitFails_moves h
  | lockUser w works => exact lockUser_moves h
  | sendFile w content => exact sendFile_moves h
  | interrupt => exact shutdown_moves (Or.inl rfl) h
  | closeTasks => exact shutdown_moves (Or.inr (Or.inl rfl)) h
  | closeMap => exact shutdown_moves (Or.inr (Or.inr rfl)) h
  | taskUnallocated t => exact phase_moves (Or.inl ⟨t, by simp⟩) h
  | endOfStream t => exact phase_moves (Or.inl ⟨t, by simp⟩) h
  | closeSocket t => exact phase_moves (Or.inl ⟨t, by simp⟩) h
  | closeEntry t => exact phase_moves (Or.inl ⟨t, by simp⟩) h
  | free t => exact phase_moves (Or.inl ⟨t, by simp⟩) h
  | finish w => exact phase_moves (Or.inr ⟨w, rfl⟩) h

end FileServer
