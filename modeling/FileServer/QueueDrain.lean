import FileServer.QueueOrder
import FileServer.QueueConservation

/-!
# The heap order of the task queue and the order of a drain

Whatever calls the threads make, and whichever of them find the queue closed or
out of memory, the cells of the task queue stay a heap for `task_compare_priority`.
Popping until nothing is left therefore returns the waiting tasks in an order
that never increases.
-/

namespace FileServer

set_option autoImplicit false

section Ordered
variable {α : Type} {cmp : α → α → Int} (laws : CompareLaws cmp)
include laws

theorem criticalSection_heapQueue {q : Queue α} (hq : HeapQueue cmp q) (e : QueueEvent α)
    (he : e.cmp = cmp) : HeapQueue cmp (criticalSection q e).2 := by
  obtain ⟨thread, cmp', call⟩ := e
  subst he
  cases call with
  | push item p grows => exact queuePush_heapQueue laws grows hq item p
  | pop => exact queuePop_heapQueue laws hq
  | close => exact hq

theorem after_heapQueue {q : Queue α} (hq : HeapQueue cmp q) (events : List (QueueEvent α))
    (he : ∀ e ∈ events, e.cmp = cmp) : HeapQueue cmp (after q events) := by
  induction events generalizing q with
  | nil => exact hq
  | cons e events ih =>
    have hstep := criticalSection_heapQueue laws hq e (he e List.mem_cons_self)
    exact ih hstep fun e' h => he e' (List.mem_cons_of_mem e h)

end Ordered

def taskEvents (calls : List (QueueCall Task)) : List (QueueEvent Task) :=
  calls.map fun call => ⟨0, taskComparePriority, call⟩

/-- The task queue after a sequence of calls on it. -/
def taskQueue (calls : List (QueueCall Task)) : Queue Task :=
  after queueInit (taskEvents calls)

def pops (n : Nat) : List (QueueEvent Task) := taskEvents (List.replicate n .pop)

/-- The tasks returned by popping as often as there are tasks. -/
def drain (q : Queue Task) : List Task := returned q (pops q.size)

theorem taskQueue_heapQueue (calls : List (QueueCall Task)) :
    HeapQueue taskComparePriority (taskQueue calls) := by
  apply after_heapQueue taskComparePriority_laws (queueInit_heapQueue _)
  intro e he
  obtain ⟨call, _, rfl⟩ := List.mem_map.mp he
  rfl

theorem returned_pop (n : Nat) (q : Queue Task) (hs : q.size = n + 1) :
    ∃ x q', Id.run (queuePop taskComparePriority q) = (.item x, q') ∧ q'.size = n ∧
      (x :: q'.contents).Perm q.contents ∧
      returned q (pops (n + 1)) = x :: returned q' (pops n) := by
  have hne : q.contents ≠ [] := by
    intro hnil
    have hlen := length_contents q
    rw [hnil, hs] at hlen
    simp at hlen
  rcases queuePop_cases taskComparePriority q with ⟨_, hnil, _⟩ | ⟨_, hnil, _⟩ |
    ⟨x, q', hpop, _, hperm⟩
  · exact absurd hnil hne
  · exact absurd hnil hne
  · refine ⟨x, q', hpop, ?_, hperm, ?_⟩
    · have hlen := hperm.length_eq
      rw [List.length_cons, length_contents, length_contents, hs] at hlen
      omega
    · have hsec : criticalSection q ⟨0, taskComparePriority, .pop⟩ = (.popped (.item x), q') := by
        simp only [criticalSection, hpop]
      have hcons : pops (n + 1) = ⟨0, taskComparePriority, .pop⟩ :: pops n := by
        simp [pops, taskEvents, List.replicate_succ]
      rw [hcons, returned, hsec]
      rfl

theorem returned_pops (n : Nat) (q : Queue Task) (hs : q.size = n)
    (hq : HeapQueue taskComparePriority q) :
    (returned q (pops n)).Perm q.contents ∧
      (returned q (pops n)).Pairwise fun x y => 0 ≤ taskComparePriority x y := by
  induction n generalizing q with
  | zero =>
    have hnil : q.contents = [] := List.eq_nil_of_length_eq_zero (by rw [length_contents, hs])
    rw [hnil]
    exact ⟨.refl _, .nil⟩
  | succ n ih =>
    obtain ⟨x, q', hpop, hs', hperm, hret⟩ := returned_pop n q hs
    have hq' : HeapQueue taskComparePriority q' := by
      have h := queuePop_heapQueue taskComparePriority_laws hq
      rw [hpop] at h
      exact h
    obtain ⟨hrest, hsorted⟩ := ih q' hs' hq'
    have hdom := queuePop_dominates taskComparePriority_laws hq hpop
    rw [hret]
    refine ⟨(hrest.cons x).trans hperm, List.pairwise_cons.mpr ⟨?_, hsorted⟩⟩
    intro y hy
    exact hdom y (hrest.subset hy)

/-- In every state of the task queue each cell compares at most as high as its
parent, a pop returns a task that compares at least as high as all that remain,
and a drain returns all waiting tasks in non-increasing order. -/
theorem task_queue_drains_in_order (calls : List (QueueCall Task)) :
    CompareLaws taskComparePriority ∧
    (∀ i (hi : i < (taskQueue calls).size), 0 < i →
      0 ≤ taskComparePriority
        ((taskQueue calls).items.get ⟨(i - 1) / 2, by omega⟩).data
        ((taskQueue calls).items.get ⟨i, hi⟩).data) ∧
    (∀ x q', Id.run (queuePop taskComparePriority (taskQueue calls)) = (.item x, q') →
      ∀ y ∈ q'.contents, 0 ≤ taskComparePriority x y) ∧
    (drain (taskQueue calls)).Perm (taskQueue calls).contents ∧
    (drain (taskQueue calls)).Pairwise fun x y => 0 ≤ taskComparePriority x y := by
  have hq := taskQueue_heapQueue calls
  refine ⟨taskComparePriority_laws, ?_, ?_, returned_pops _ _ rfl hq⟩
  · intro i hi h0
    exact hq i hi h0
  · intro x q' hpop
    exact queuePop_dominates taskComparePriority_laws hq hpop

end FileServer
