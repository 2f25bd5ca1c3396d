import FileServer.QueueConservation
import FileServer.Shared.ConditionVariable
import FileServer.Shared.Runs

/-!
# Sleeping in queue_pop (queue.c)

One queue and the threads that call `queue_pop` on it. A step is one critical
section of the queue's mutex: a push with its signal, a close with its broadcast,
or a popper's test of the loop condition, which takes an item, returns `NULL` or
goes to sleep with the mutex released. Pushers and closers keep no state between
their calls. A blocked popper may also wake up for no reason.
-/

namespace FileServer

open ConditionVariable Runs
set_option autoImplicit false

universe u
variable {α : Type} {ι : Type u}

structure Monitor (α : Type) (ι : Type u) where
  queue : Queue α
  poppers : ι → Waiter

def Monitor.start : Monitor α ι := ⟨queueInit, fun _ => .outside⟩

/-- `chosen` are the poppers that the signal of a push wakes. -/
inductive MonitorEvent (α : Type) (ι : Type u) where
  | push (cmp : α → α → Int) (item : α) (priority : TaskPriority) (grows : Bool)
      (chosen : Finset ι)
  | pop (cmp : α → α → Int) (i : ι)
  | close
  | spurious (i : ι)

/-- The waiter a popper becomes after its test of the loop condition. -/
def afterTest : Popped α → Waiter
  | .blocked => .blocked
  | .null | .item _ => .outside

def monitorStep [Fintype ι] [DecidableEq ι] (s : Monitor α ι) :
    MonitorEvent α ι → Option (Monitor α ι)
  | .push cmp item priority grows chosen =>
    let (accepted, queue) := Id.run (queuePush cmp grows s.queue item priority)
    if accepted then
      if Signals s.poppers chosen then some ⟨queue, signal s.poppers chosen⟩ else none
    else some { s with queue }
  | .pop cmp i =>
    if s.poppers i = .blocked then none
    else
      let (popped, queue) := Id.run (queuePop cmp s.queue)
      some ⟨queue, Function.update s.poppers i (afterTest popped)⟩
  | .close => some ⟨queueClose s.queue, broadcast s.poppers⟩
  | .spurious i =>
    if s.poppers i = .blocked then
      some { s with poppers := Function.update s.poppers i .woken }
    else none

section Steps
variable [Fintype ι] [DecidableEq ι] {s s' : Monitor α ι}

/-- What a step can do. -/
inductive MonitorMoves (s : Monitor α ι) : Monitor α ι → Prop
  | refuse : MonitorMoves s s
  | push {q : Queue α} {chosen : Finset ι} (hopen : s.queue.closed = false)
      (hclosed : q.closed = false) (hsize : q.size = s.queue.size + 1)
      (hchosen : Signals s.poppers chosen) : MonitorMoves s ⟨q, signal s.poppers chosen⟩
  | sleep {i : ι} (hi : s.poppers i ≠ .blocked) (hempty : s.queue.size = 0)
      (hopen : s.queue.closed = false) :
      MonitorMoves s ⟨s.queue, Function.update s.poppers i .blocked⟩
  | leave {i : ι} (hi : s.poppers i ≠ .blocked) (hempty : s.queue.size = 0)
      (hclosed : s.queue.closed = true) :
      MonitorMoves s ⟨s.queue, Function.update s.poppers i .outside⟩
  | take {i : ι} {q : Queue α} (hi : s.poppers i ≠ .blocked) (hclosed : q.closed = s.queue.closed)
      (hsize : q.size + 1 = s.queue.size) :
      MonitorMoves s ⟨q, Function.update s.poppers i .outside⟩
  | close : MonitorMoves s ⟨queueClose s.queue, broadcast s.poppers⟩
  | spurious {i : ι} (hi : s.poppers i = .blocked) :
      MonitorMoves s ⟨s.queue, Function.update s.poppers i .woken⟩

theorem monitorPush_moves {cmp : α → α → Int} {item : α} {priority : TaskPriority} {grows : Bool}
    {chosen : Finset ι} (h : monitorStep s (.push cmp item priority grows chosen) = some s') :
    MonitorMoves s s' := by
  rw [monitorStep] at h
  rcases queuePush_cases cmp grows s.queue item priority with ⟨he, _⟩ | ⟨q, he, hopen, hq, hperm⟩
  · rw [he] at h
    obtain rfl := Option.some.inj h
    exact .refuse
  · simp only [he, if_true] at h
    split at h
    · rename_i hchosen
      obtain rfl := Option.some.inj h
      have hsize : q.size = s.queue.size + 1 := by simpa using hperm.length_eq
      exact .push hopen hq hsize hchosen
    · contradiction

theorem monitorPop_moves {cmp : α → α → Int} {i : ι} (h : monitorStep s (.pop cmp i) = some s') :
    MonitorMoves s s' := by
  rw [monitorStep] at h
  split at h
  · contradiction
  rename_i hi
  rcases queuePop_cases cmp s.queue with ⟨he, hnil, hc⟩ | ⟨he, hnil, hc⟩ | ⟨a, q, he, hc, hperm⟩
  · rw [he] at h
    obtain rfl := Option.some.inj h
    exact .sleep hi (by simpa using congrArg List.length hnil) hc
  · rw [he] at h
    obtain rfl := Option.some.inj h
    exact .leave hi (by simpa using congrArg List.length hnil) hc
  · rw [he] at h
    obtain rfl := Option.some.inj h
    have hsize : q.size + 1 = s.queue.size := by simpa using hperm.length_eq
    exact .take hi hc hsize

theorem monitorStep_moves {e : MonitorEvent α ι} (h : monitorStep s e = some s') :
    MonitorMoves s s' := by
  cases e with
  | push cmp item priority grows chosen => exact monitorPush_moves h
  | pop cmp i => exact monitorPop_moves h
  | close =>
    obtain rfl := Option.some.inj h
    exact .close
  | spurious i =>
    rw [monitorStep] at h
    split at h
    · rename_i hi
      obtain rfl := Option.some.inj h
      exact .spurious hi
    · contradiction

/-- While a popper of an open queue sleeps, every item has a woken popper on its
way; nobody sleeps at a closed queue. -/
structure Alert (s : Monitor α ι) : Prop where
  whileOpen : s.queue.closed = false → (∃ i, s.poppers i = .blocked) →
    s.queue.size ≤ (awake s.poppers).card
  onceClosed : s.queue.closed = true → ∀ i, s.poppers i ≠ .blocked

theorem Alert.outside (h : Alert s) {i : ι} {q : Queue α} (hclosed : q.closed = s.queue.closed)
    (hsize : q.closed = false → q.size + 1 ≤ s.queue.size) :
    Alert ⟨q, Function.update s.poppers i .outside⟩ := by
  have hback : ∀ j, Function.update s.poppers i .outside j = .blocked → s.poppers j = .blocked :=
    fun _ => blocked_of_update (by simp)
  refine ⟨?_, ?_⟩
  · rintro hopen ⟨j, hj⟩
    have hbefore := h.whileOpen (hclosed ▸ hopen) ⟨j, hback j hj⟩
    have hcard : (awake s.poppers).card ≤
        (awake (Function.update s.poppers i .outside)).card + 1 := card_awake_le_update i _
    have hfewer := hsize hopen
    dsimp only
    omega
  · intro hc j hj
    exact h.onceClosed (hclosed ▸ hc) j (hback j hj)

theorem MonitorMoves.alert (hm : MonitorMoves s s') (h : Alert s) : Alert s' := by
  cases hm with
  | refuse => exact h
  | push hopen hclosed hsize hchosen =>
    refine ⟨?_, ?_⟩
    · rintro _ ⟨j, hj⟩
      have hblocked : ∃ i, s.poppers i = .blocked := ⟨j, blocked_of_signal hj⟩
      have hbefore := h.whileOpen hopen hblocked
      have hcard := card_awake_signal hchosen hblocked
      dsimp only
      omega
    · intro hc
      rw [hclosed] at hc
      contradiction
  | sleep hi hempty hopen =>
    refine ⟨?_, ?_⟩
    · intro _ _
      dsimp only
      omega
    · intro hc
      rw [hopen] at hc
      contradiction
  | leave hi hempty hclosed =>
    apply h.outside rfl
    intro hopen
    rw [hclosed] at hopen
    contradiction
  | take hi hclosed hsize => exact h.outside hclosed fun _ => hsize.le
  | close =>
    refine ⟨?_, ?_⟩
    · intro hc
      contradiction
    · intro _ i
      exact broadcast_ne_blocked i
  | @spurious i hi =>
    have hback : ∀ j, Function.update s.poppers i .woken j = .blocked → s.poppers j = .blocked :=
      fun _ => blocked_of_update (by simp)
    refine ⟨?_, ?_⟩
    · rintro hopen ⟨j, hj⟩
      have hbefore := h.whileOpen hopen ⟨j, hback j hj⟩
      exact hbefore.trans (card_awake_update_of_ne _ (by simp [hi]))
    · intro hc j hj
      exact h.onceClosed hc j (hback j hj)

end Steps

/-- The states that any order of critical sections and spurious wake-ups reaches. -/
abbrev MonitorReached [Fintype ι] [DecidableEq ι] : Monitor α ι → Prop :=
  Reached monitorStep (fun _ _ => True) Monitor.start

theorem no_lost_wakeup [Fintype ι] [DecidableEq ι] (s : Monitor α ι) (h : MonitorReached s) :
    (s.queue.closed = false → (∃ i, s.poppers i = .blocked) →
      s.queue.size ≤ (Finset.univ.filter fun i => s.poppers i = .woken).card) ∧
    (s.queue.closed = true → ∀ i, s.poppers i ≠ .blocked) ∧
    ¬ (0 < s.queue.size ∧ (∃ i, s.poppers i = .blocked) ∧ ∀ i, s.poppers i = .blocked) := by
  have halert : Alert s := by
    apply h.invariant
    · refine ⟨?_, ?_⟩
      · intro _ _
        exact Nat.zero_le _
      · intro hc
        contradiction
    · intro s s' e _ hs _ hstep
      exact (monitorStep_moves hstep).alert hs
  refine ⟨halert.whileOpen, halert.onceClosed, ?_⟩
  rintro ⟨hsize, ⟨i, hi⟩, hall⟩
  cases hc : s.queue.closed with
  | true => exact halert.onceClosed hc i hi
  | false =>
    have hnone : awake s.poppers = ∅ := awake_eq_empty fun j => by simp [hall j]
    have hle := halert.whileOpen hc ⟨i, hi⟩
    rw [hnone, Finset.card_empty] at hle
    omega

/-- Two poppers sleep, a push wakes one of them, and a third takes the item first. -/
def stolenItem : List (MonitorEvent Nat (Fin 3)) :=
  [.pop (fun _ _ => 0) 0, .pop (fun _ _ => 0) 1, .push (fun _ _ => 0) 7 .normal true {0},
    .pop (fun _ _ => 0) 2, .pop (fun _ _ => 0) 0, .push (fun _ _ => 0) 8 .normal true {1}]

theorem stolen_item_wakes_again : ∃ s : Monitor Nat (Fin 3), MonitorReached s ∧
    s.poppers 0 = .blocked ∧ s.poppers 1 = .woken ∧ s.queue.size = 1 ∧
    s.queue.size ≤ (Finset.univ.filter fun i => s.poppers i = .woken).card := by
  have hview : (exec monitorStep Monitor.start stolenItem).map
      (fun s => (s.poppers 0, s.poppers 1, s.queue.size, s.queue.closed)) =
      some (.blocked, .woken, 1, false) := by
    decide +kernel
  obtain ⟨s, hexec, hs⟩ := Option.map_eq_some_iff.mp hview
  obtain ⟨h₀, hs⟩ := Prod.mk.inj hs
  obtain ⟨h₁, hs⟩ := Prod.mk.inj hs
  obtain ⟨hsize, hopen⟩ := Prod.mk.inj hs
  have hreach : MonitorReached s :=
    .of_exec .start (guarded_of_forall (fun _ _ _ => trivial) _) hexec
  exact ⟨s, hreach, h₀, h₁, hsize, (no_lost_wakeup s hreach).1 hopen ⟨0, h₀⟩⟩

end FileServer
