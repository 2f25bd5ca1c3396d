import Mathlib.Algebra.BigOperators.Group.Finset.Basic
import FileServer.TaskLife

/-!
# Shutdown (main.c, worker.c)

The main thread closes the task queue and joins the workers. A closed queue takes
no further task and hands out those it has, so that each worker can go on until it
finds the queue empty and exits; what the pool has left to do bounds the steps it
takes. When it has exited every task that was ever accepted has been processed.
-/

namespace FileServer

open Runs Tokens
set_option autoImplicit false

def Action.worker : Action → Option Nat
  | .takeTask w | .lockUser w _ | .process w _ _ | .respond w _ | .push w _ | .sendFile w _
  | .finish w => some w
  | _ => none

section Closed
variable {cmp : Comparators Id} {l : Comparators Id × Action} {s s' : Server}

theorem command_closed {t : Nat} {line : CString} {now : Timespec} {grows : Bool}
    (hc : s.taskQueue.closed = true)
    (h : serverStep s (cmp, .command t line now grows) = some s') :
    s'.taskQueue = s.taskQueue := by
  unfold serverStep step at h
  dsimp only at h
  split at h
  · rename_i ci hreading
    split at h
    · cases h
      rfl
    · cases h
      rfl
    · rename_i task hparse
      rw [eq_of_run (queuePush_closed cmp.task hc grows _ task.priority)] at h
      cases h
      rfl
  · contradiction

theorem takeTask_cases {w : Nat} (h : serverStep s (cmp, .takeTask w) = some s') :
    s.workers w = .idle ∧
      (s.taskQueue.closed = true ∧ s.taskQueue.contents = [] ∧ s' = s.setWorker w .exited ∨
        ∃ job q, q.closed = s.taskQueue.closed ∧ (job :: q.contents).Perm s.taskQueue.contents ∧
          s' = { s with taskQueue := q }.setWorker w (.took job)) := by
  unfold serverStep step at h
  dsimp only at h
  split at h
  · rename_i hidle
    rcases queuePop_cases cmp.task s.taskQueue with
      ⟨he, -⟩ | ⟨he, hempty, hclosed⟩ | ⟨job, q, he, hclosed, hperm⟩
    · rw [eq_of_run he] at h
      contradiction
    · rw [eq_of_run he] at h
      cases h
      exact ⟨hidle, Or.inl ⟨hclosed, hempty, rfl⟩⟩
    · rw [eq_of_run he] at h
      cases h
      exact ⟨hidle, Or.inr ⟨job, q, hclosed, hperm, rfl⟩⟩
  · contradiction

theorem taskQueue_closed (hc : s.taskQueue.closed = true) (h : serverStep s l = some s') :
    s'.taskQueue.closed = true ∧
      (s'.taskQueue.contents = s.taskQueue.contents ∨ ∃ w, l.2 = .takeTask w) := by
  obtain ⟨cmp, action⟩ := l
  have hm := serverStep_moves h
  cases hm with
  | submit _ _ _ =>
    have hsame := command_closed hc h
    rw [hsame]
    exact ⟨hc, Or.inl rfl⟩
  | takeTask _ _ =>
    obtain ⟨-, ⟨-, -, heq⟩ | ⟨job, q, hclosed, -, heq⟩⟩ := takeTask_cases h
    · rw [heq]
      exact ⟨hc, Or.inr ⟨_, rfl⟩⟩
    · rw [heq]
      exact ⟨hclosed.trans hc, Or.inr ⟨_, rfl⟩⟩
  | closeTasks _ => exact ⟨rfl, Or.inl rfl⟩
  | _ => exact ⟨hc, Or.inl rfl⟩

end Closed

theorem processTask_effects_length (works : Bool) (files : FileResults) (store : UserStore)
    (t : Task) (user : Option User) : (processTask works files store t user).2.length ≤ 2 := by
  unfold processTask
  cases t.type with
  | signup =>
    simp only [processSignup]
    split <;> simp
  | login =>
    cases user with
    | none => simp [processLogin]
    | some u =>
      simp only [processLogin]
      split <;> simp
  | upload =>
    simp only [processUpload]
    split <;> simp
  | download =>
    simp only [processDownload]
    repeat' split
    all_goals simp
  | delete =>
    cases user with
    | none => simp [processDelete]
    | some u =>
      simp only [processDelete]
      split <;> simp
  | list =>
    cases user with
    | none => simp [processList]
    | some u =>
      simp only [processList]
      split <;> simp
  | unknown => simp
  | quit => simp

/-- The steps a worker can still take without a further task. -/
def WorkerPhase.work : WorkerPhase → Nat
  | .exited => 0
  | .idle => 1
  | .sending _ effects => 2 * effects.length + 2
  | .pushing _ _ effects => 2 * effects.length + 3
  | .locked _ _ => 7
  | .took _ => 8

def remainingWork (n : Nat) (s : Server) : Nat :=
  8 * s.taskQueue.size + ∑ w ∈ Finset.range n, (s.workers w).work

def Action.ofPool (n : Nat) (action : Action) : Bool := action.worker.any (· < n)

section Work
variable {cmp : Comparators Id} {l : Comparators Id × Action} {s s' : Server} {n : Nat}

theorem sum_work_update (workers : Nat → WorkerPhase) (w : Nat) (p : WorkerPhase) :
    ∑ v ∈ Finset.range n, (Function.update workers w p v).work +
        (if w < n then (workers w).work else 0) =
      ∑ v ∈ Finset.range n, (workers v).work + if w < n then p.work else 0 := by
  by_cases hw : w < n
  · have hmem : w ∈ Finset.range n := Finset.mem_range.mpr hw
    have hrest : ∑ v ∈ (Finset.range n).erase w, (Function.update workers w p v).work =
        ∑ v ∈ (Finset.range n).erase w, (workers v).work := by
      apply Finset.sum_congr rfl
      intro v hv
      rw [Function.update_of_ne (Finset.ne_of_mem_erase hv)]
    rw [if_pos hw, if_pos hw, ← Finset.add_sum_erase _ _ hmem,
      ← Finset.add_sum_erase (Finset.range n) (fun v => (workers v).work) hmem, hrest,
      Function.update_self]
    omega
  · rw [if_neg hw, if_neg hw]
    apply congrArg (· + 0)
    apply Finset.sum_congr rfl
    intro v hv
    have hne : v ≠ w := by
      rintro rfl
      exact hw (Finset.mem_range.mp hv)
    rw [Function.update_of_ne hne]

theorem remaining_setWorker {t : Server} {w : Nat} {p : WorkerPhase}
    (hworkers : t.workers = s.workers) (hsize : t.taskQueue.size ≤ s.taskQueue.size)
    (hwork : 8 * t.taskQueue.size + p.work + 1 ≤ 8 * s.taskQueue.size + (s.workers w).work) :
    remainingWork n (t.setWorker w p) + (decide (w < n)).toNat ≤ remainingWork n s := by
  have hsum := sum_work_update (n := n) s.workers w p
  have hremaining : remainingWork n (t.setWorker w p) = 8 * t.taskQueue.size +
      ∑ v ∈ Finset.range n, (Function.update s.workers w p v).work := by
    rw [← hworkers]
    rfl
  rw [hremaining]
  unfold remainingWork
  by_cases hw : w < n
  · rw [if_pos hw, if_pos hw] at hsum
    simp only [hw, decide_true, Bool.toNat_true]
    omega
  · rw [if_neg hw, if_neg hw] at hsum
    simp only [hw, decide_false, Bool.toNat_false]
    omega

theorem remaining_frame (hworkers : s'.workers = s.workers)
    (hqueue : s'.taskQueue.contents = s.taskQueue.contents) :
    remainingWork n s' + false.toNat ≤ remainingWork n s := by
  have hsize : s'.taskQueue.size = s.taskQueue.size := by
    rw [← length_contents, ← length_contents, hqueue]
  unfold remainingWork
  rw [hworkers, hsize]
  exact Nat.le_refl _

/-- A step of the pool uses up some of its work, and no step adds to it. -/
theorem remaining_step (hc : s.taskQueue.closed = true) (h : serverStep s l = some s') :
    remainingWork n s' + (l.2.ofPool n).toNat ≤ remainingWork n s := by
  obtain ⟨cmp, action⟩ := l
  have hm := serverStep_moves h
  cases hm with
  | submit _ _ _ =>
    have hqueue := command_closed hc h
    exact remaining_frame rfl (congrArg Queue.contents hqueue)
  | exitWorker hidle =>
    apply remaining_setWorker rfl (Nat.le_refl _)
    simp [hidle, WorkerPhase.work]
  | @takeTask w job q hidle hperm =>
    have hlength := hperm.length_eq
    simp only [length_contents, List.length_cons] at hlength
    refine remaining_setWorker (t := { s with taskQueue := q }) rfl ?_ ?_
    · exact Nat.le_of_lt (Nat.lt_of_lt_of_eq (Nat.lt_succ_self _) hlength)
    · simp only [hidle, WorkerPhase.work]
      omega
  | lockUser htook _ =>
    apply remaining_setWorker rfl (Nat.le_refl _)
    simp [htook, WorkerPhase.work]
  | @process w works files job user store effects hphase hresult =>
    have hlength : effects.length ≤ 2 := by
      have heffects := congrArg Prod.snd hresult
      dsimp only at heffects
      rw [← heffects]
      exact processTask_effects_length works files s.store job.task user
    refine remaining_setWorker (t := { s with store := store }) rfl (Nat.le_refl _) ?_
    rcases hphase with ⟨htook, -, -⟩ | hlocked
    · simp only [htook, WorkerPhase.work]
      omega
    · simp only [hlocked, WorkerPhase.work]
      omega
  | respond hsending _ =>
    apply remaining_setWorker rfl (Nat.le_refl _)
    simp only [hsending, WorkerPhase.work, List.length_cons]
    omega
  | respondDropped hsending =>
    apply remaining_setWorker rfl (Nat.le_refl _)
    simp only [hsending, WorkerPhase.work, List.length_cons]
    omega
  | @push w grows a r rest e q hpushing _ _ =>
    refine remaining_setWorker (t := s.setEntry a (some { e with queue := q })) rfl
      (Nat.le_refl _) ?_
    simp only [Server.setEntry, hpushing, WorkerPhase.work]
    omega
  | pushFreed hpushing _ =>
    apply remaining_setWorker rfl (Nat.le_refl _)
    simp only [hpushing, WorkerPhase.work]
    omega
  | @sendFile w content job filePath filename rest hsending =>
    refine remaining_setWorker (t := s.write job.task.client.socketFd job.task.client.clientId
      (.fileData filename content)) rfl (Nat.le_refl _) ?_
    simp only [Server.write, hsending, WorkerPhase.work, List.length_cons]
    omega
  | sendFileMissing hsending =>
    apply remaining_setWorker rfl (Nat.le_refl _)
    simp only [hsending, WorkerPhase.work, List.length_cons]
    omega
  | finish hsending =>
    apply remaining_setWorker rfl (Nat.le_refl _)
    simp [hsending, WorkerPhase.work]
  | _ => exact remaining_frame rfl rfl

theorem worker_goes_on (hc : s.taskQueue.closed = true) (cmp : Comparators Id) {w : Nat}
    (hw : s.workers w ≠ .exited) :
    ∃ action, action.worker = some w ∧ (serverStep s (cmp, action)).isSome = true := by
  cases hphase : s.workers w with
  | exited => exact absurd hphase hw
  | idle =>
    refine ⟨.takeTask w, rfl, ?_⟩
    unfold serverStep step
    simp only [hphase]
    rcases queuePop_cases cmp.task s.taskQueue with ⟨-, -, hopen⟩ | ⟨he, -⟩ | ⟨job, q, he, -⟩
    · rw [hc] at hopen
      contradiction
    · rw [eq_of_run he]
      rfl
    · rw [eq_of_run he]
      rfl
  | took job =>
    cases hlocks : locksUser job.task with
    | true =>
      refine ⟨.lockUser w true, rfl, ?_⟩
      unfold serverStep step
      simp [hphase, hlocks]
    | false =>
      refine ⟨.process w true ⟨false, .error [], .error [], false, none⟩, rfl, ?_⟩
      unfold serverStep step
      simp [hphase, hlocks]
  | locked job user =>
    refine ⟨.process w true ⟨false, .error [], .error [], false, none⟩, rfl, ?_⟩
    unfold serverStep step
    simp [hphase]
  | sending job effects =>
    cases effects with
    | nil =>
      refine ⟨.finish w, rfl, ?_⟩
      unfold serverStep step
      simp [hphase]
    | cons effect rest =>
      cases effect with
      | sendResponse status message =>
        refine ⟨.respond w false, rfl, ?_⟩
        unfold serverStep step
        simp [hphase]
      | sendFileData filePath filename =>
        refine ⟨.sendFile w none, rfl, ?_⟩
        unfold serverStep step
        simp [hphase]
  | pushing a r rest =>
    refine ⟨.push w true, rfl, ?_⟩
    unfold serverStep step
    simp only [hphase]
    cases s.mem a with
    | none => rfl
    | some e => rfl

theorem eq_of_update {β : Type} {f : Nat → β} {u w : Nat} {p b : β}
    (h : Function.update f w p u = b) (hp : p ≠ b) : f u = b := by
  rcases eq_or_ne u w with rfl | hne
  · rw [Function.update_self] at h
    exact absurd h hp
  · rwa [Function.update_of_ne hne] at h

theorem exits_when_drained (h : serverStep s l = some s') {u : Nat}
    (hexited : s'.workers u = .exited) :
    s.workers u = .exited ∨ s.taskQueue.closed = true ∧ s.taskQueue.contents = [] := by
  obtain ⟨cmp, action⟩ := l
  have hm := serverStep_moves h
  cases hm with
  | exitWorker _ =>
    obtain ⟨-, ⟨hclosed, hempty, -⟩ | ⟨job, q, -, -, heq⟩⟩ := takeTask_cases h
    · exact Or.inr ⟨hclosed, hempty⟩
    · rw [heq] at hexited
      exact Or.inl (eq_of_update hexited nofun)
  | takeTask _ _ | lockUser _ _ | process _ _ | respond _ _ | respondDropped _ | push _ _ _
  | pushFreed _ _ | sendFile _ | sendFileMissing _ | finish _ =>
    exact Or.inl (eq_of_update hexited nofun)
  | _ => exact Or.inl hexited

/-- The queue has nothing left and takes nothing more. -/
def Drained (s : Server) : Prop := s.taskQueue.closed = true ∧ s.taskQueue.contents = []

theorem drained_step (hd : Drained s) (h : serverStep s l = some s') : Drained s' := by
  obtain ⟨cmp, action⟩ := l
  obtain ⟨hclosed, hsame | ⟨w, hw⟩⟩ := taskQueue_closed hd.1 h
  · exact ⟨hclosed, hsame.trans hd.2⟩
  · dsimp only at hw
    subst hw
    obtain ⟨-, ⟨-, -, heq⟩ | ⟨job, q, -, hperm, -⟩⟩ := takeTask_cases h
    · rw [heq]
      exact hd
    · rw [hd.2] at hperm
      exact absurd hperm.eq_nil (List.cons_ne_nil _ _)

end Work

theorem drained_of_exited {store : UserStore} {s : Server}
    (h : ServerReached (fun _ _ => True) store s) {w : Nat} (hw : s.workers w = .exited) :
    Drained s := by
  have hall : ∀ w, s.workers w = .exited → Drained s := by
    apply h.invariant (I := fun s => ∀ w, s.workers w = .exited → Drained s)
    · intro w hw
      simp [serverInit] at hw
    · intro s s' l _ hs _ hstep u hu
      rcases exits_when_drained hstep hu with hold | hdrained
      · exact drained_step (hs u hold) hstep
      · exact drained_step hdrained hstep
  exact hall w hw

def PoolExited (n : Nat) (s : Server) : Prop :=
  0 < n ∧ (∀ w < n, s.workers w = .exited) ∧ ∀ w, n ≤ w → s.workers w = .idle

theorem tally_drained {n : Nat} {s : Server} (hd : Drained s) : tally s n .queued = 0 := by
  simp [tally, hd.2]

theorem tally_exited {n m : Nat} {s : Server} (h : PoolExited n s) (w : Nat) :
    tally s m (.taken w) = 0 := by
  rcases Nat.lt_or_ge w n with hw | hw
  · simp [tally, h.2.1 w hw, WorkerPhase.unprocessed]
  · simp [tally, h.2.2 w hw, WorkerPhase.unprocessed]

theorem Life.shown_processed {n : Nat} {life : Life} (hqueued : life ≠ .placed .queued)
    (htaken : ∀ w, life ≠ .placed (.taken w)) :
    (life.shown n).count ⟨.processed, n⟩ = (life.shown n).count ⟨.accepted, n⟩ ∧
      (life.shown n).count ⟨.processed, n⟩ ≤ 1 := by
  cases life with
  | placed p =>
    cases p with
    | queued => exact absurd rfl hqueued
    | taken w => exact absurd rfl (htaken w)
    | answering w => simp [Life.shown]
    | answered a => simp [Life.shown]
  | unsubmitted => simp [Life.shown]
  | lost => simp [Life.shown]
  | delivered => simp [Life.shown]

/-- After the workers have exited, the tasks that were processed are exactly those
that the queue accepted, each once. -/
theorem shutdown_loses_no_task (store : UserStore) (s : Server) (log : List TaskEvent)
    (h : TasksReached store (s, log)) (n : Nat) (hpool : PoolExited n s) :
    (tickets .processed log).Perm (tickets .accepted log) ∧ (tickets .processed log).Nodup := by
  have hdrained : Drained s := drained_of_exited h.server (hpool.2.1 0 hpool.1)
  have hcounts : ∀ m, (tickets .processed log).count m = (tickets .accepted log).count m ∧
      (tickets .processed log).count m ≤ 1 := by
    intro m
    obtain ⟨life, hlife⟩ := h.living.2 m
    rw [count_tickets, count_tickets, hlife.lived.shown]
    apply Life.shown_processed
    · rintro rfl
      have hone : tally s m .queued = 1 := by rw [hlife.tally]; exact found_self _
      rw [tally_drained hdrained] at hone
      contradiction
    · rintro w rfl
      have hone : tally s m (.taken w) = 1 := by rw [hlife.tally]; exact found_self _
      rw [tally_exited hpool] at hone
      contradiction
  constructor
  · exact List.perm_iff_count.mpr fun m => (hcounts m).1
  · exact List.nodup_iff_count_le_one.mpr fun m => (hcounts m).2

theorem worker_kept {cmp : Comparators Id} {action : Action} {s s' : Server} {u : Nat}
    (h : serverStep s (cmp, action) = some s') (hu : action.worker ≠ some u) :
    s'.workers u = s.workers u := by
  have hm := serverStep_moves h
  cases hm with
  | exitWorker _ | takeTask _ _ | lockUser _ _ | process _ _ | respond _ _ | respondDropped _
  | push _ _ _ | pushFreed _ _ | sendFile _ | sendFileMissing _ | finish _ =>
    apply Function.update_of_ne
    rintro rfl
    exact hu rfl
  | _ => rfl

theorem workers_kept {ls : List (Comparators Id × Action)} {s s' : Server} {n : Nat}
    (hls : ls.all (fun l => l.2.worker.all (· < n)) = true) (h : exec serverStep s ls = some s') :
    ∀ w, n ≤ w → s'.workers w = s.workers w := by
  intro w hw
  refine exec_kept (fun s => s.workers w) (fun l hl s s' hstep => ?_) h
  apply worker_kept hstep
  intro heq
  have hpool := List.all_eq_true.mp hls l hl
  rw [heq] at hpool
  have hlt : w < n := by simpa using hpool
  exact absurd hw (Nat.not_le_of_lt hlt)

def askedAndStopped : List (Comparators Id × Action) :=
  askedAndFound ++ [.push 0 true, .deliver 0, .interrupt, .closeTasks, .finish 0, .takeTask 0].map
    (Prod.mk taskComparators)

theorem stopped_server_lost_no_task : ∃ s log, TasksReached emptyStore (s, log) ∧
    PoolExited 1 s ∧ tickets .accepted log = [1] ∧
      ((tickets .processed log).Perm (tickets .accepted log) ∧ (tickets .processed log).Nodup) := by
  have hview : (exec (logged serverStep lifeEvents) (serverInit emptyStore, [])
      askedAndStopped).map (fun r => (r.1.workers 0, tickets .accepted r.2)) =
        some (.exited, [1]) := by
    decide +kernel
  obtain ⟨⟨s, log⟩, hexec, hs⟩ := Option.map_eq_some_iff.mp hview
  obtain ⟨hworker, hlog⟩ := Prod.mk.inj hs
  have hreach : TasksReached emptyStore (s, log) :=
    .of_exec .start (guarded_of_forall (fun _ _ _ => trivial) _) hexec
  have hpool : PoolExited 1 s := by
    refine ⟨Nat.one_pos, ?_, ?_⟩
    · intro w hw
      obtain rfl := Nat.lt_one_iff.mp hw
      exact hworker
    · exact workers_kept rfl (exec_unlogged hexec)
  exact ⟨s, log, hreach, hpool, hlog, shutdown_loses_no_task emptyStore s log hreach 1 hpool⟩

/-- Once the task queue is closed the pool takes only so many steps more, whatever
the other threads do, and a worker that has not exited is never stuck. -/
theorem pool_exits (n : Nat) (s : Server) (hclosed : s.taskQueue.closed = true)
    (ls : List (Comparators Id × Action)) (s' : Server) (h : exec serverStep s ls = some s') :
    ls.countP (fun l => l.2.ofPool n) ≤ remainingWork n s ∧
      ∀ w < n, s'.workers w ≠ .exited → ∀ cmp, ∃ action, action.worker = some w ∧
        (serverStep s' (cmp, action)).isSome = true := by
  constructor
  · have hbound : ls.countP (fun l => l.2.ofPool n) + remainingWork n s' ≤ remainingWork n s :=
      countP_add_le (I := fun s => s.taskQueue.closed = true) (fun hc hstep => (taskQueue_closed hc hstep).1)
        (fun hc hstep => remaining_step hc hstep) hclosed h
    exact Nat.le_of_add_right_le hbound
  · intro w _ hw cmp
    have hstill : s'.taskQueue.closed = true :=
      exec_preserves (I := fun s => s.taskQueue.closed = true)
        (fun hc hstep => (taskQueue_closed hc hstep).1) hclosed h
    exact worker_goes_on hstill cmp hw

theorem answering_pool_exits : ∃ s s', s.taskQueue.closed = true ∧
    exec serverStep s [(taskComparators, .push 0 true)] = some s' ∧
    (remainingWork 1 s = 3 ∧ 1 ≤ remainingWork 1 s) ∧
      ∀ w < 1, s'.workers w ≠ .exited → ∀ cmp, ∃ action, action.worker = some w ∧
        (serverStep s' (cmp, action)).isSome = true := by
  have hview : (exec serverStep (serverInit emptyStore) (askedAndFound ++
      [.interrupt, .closeTasks].map (Prod.mk taskComparators))).map (fun s =>
        (s.taskQueue.closed, remainingWork 1 s,
          (exec serverStep s [(taskComparators, .push 0 true)]).isSome)) = some (true, 3, true) := by
    decide +kernel
  obtain ⟨s, -, hs⟩ := Option.map_eq_some_iff.mp hview
  obtain ⟨hclosed, hs⟩ := Prod.mk.inj hs
  obtain ⟨hwork, hsome⟩ := Prod.mk.inj hs
  obtain ⟨s', hexec⟩ := Option.isSome_iff_exists.mp hsome
  obtain ⟨hbound, hgoes⟩ := pool_exits 1 s hclosed _ s' hexec
  exact ⟨s, s', hclosed, hexec, ⟨hwork, hbound⟩, hgoes⟩

end FileServer
