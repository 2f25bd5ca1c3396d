import Mathlib.Data.Finset.Card
import Mathlib.Data.Fintype.Basic

/-!
# Threads at a condition variable

Each thread is outside the monitor, blocked on the condition variable without
having been signalled, or woken and on its way to the mutex. A signal wakes some
blocked threads, and at least one if there is one; a broadcast wakes them all.
-/

namespace ConditionVariable

set_option autoImplicit false

universe u
variable {ι : Type u}

inductive Waiter where
  | outside
  | blocked
  | woken
  deriving DecidableEq, Repr

/-- The threads in `chosen` become woken. -/
def signal [DecidableEq ι] (waiters : ι → Waiter) (chosen : Finset ι) (i : ι) : Waiter :=
  if i ∈ chosen then .woken else waiters i

/-- The threads that one signal may wake. -/
def Signals (waiters : ι → Waiter) (chosen : Finset ι) : Prop :=
  (∀ i ∈ chosen, waiters i = .blocked) ∧ ((∃ i, waiters i = .blocked) → chosen.Nonempty)

instance [Fintype ι] (waiters : ι → Waiter) (chosen : Finset ι) :
    Decidable (Signals waiters chosen) := inferInstanceAs (Decidable (_ ∧ _))

def broadcast (waiters : ι → Waiter) (i : ι) : Waiter :=
  match waiters i with
  | .blocked => .woken
  | other => other

/-- The woken threads. -/
def awake [Fintype ι] (waiters : ι → Waiter) : Finset ι :=
  Finset.univ.filter fun i => waiters i = .woken

section Counting
variable [DecidableEq ι] {waiters : ι → Waiter}

theorem blocked_of_signal {chosen : Finset ι} {i : ι} (h : signal waiters chosen i = .blocked) :
    waiters i = .blocked := by
  unfold signal at h
  split at h
  · contradiction
  · exact h

omit [DecidableEq ι] in
theorem broadcast_ne_blocked (i : ι) : broadcast waiters i ≠ .blocked := by
  unfold broadcast
  cases h : waiters i <;> simp

theorem blocked_of_update {i j : ι} {w : Waiter} (hw : w ≠ .blocked)
    (h : Function.update waiters i w j = .blocked) : waiters j = .blocked := by
  rcases eq_or_ne j i with rfl | hne
  · rw [Function.update_self] at h
    exact absurd h hw
  · rwa [Function.update_of_ne hne] at h

variable [Fintype ι]

omit [DecidableEq ι] in
theorem mem_awake {i : ι} : i ∈ awake waiters ↔ waiters i = .woken := by
  simp [awake]

omit [DecidableEq ι] in
theorem awake_eq_empty (h : ∀ i, waiters i ≠ .woken) : awake waiters = ∅ := by
  simp [awake, h]

theorem card_awake_signal {chosen : Finset ι} (h : Signals waiters chosen)
    (hblocked : ∃ i, waiters i = .blocked) :
    (awake waiters).card + 1 ≤ (awake (signal waiters chosen)).card := by
  have hdisjoint : ∀ i ∈ chosen, i ∉ awake waiters := by
    intro i hi hawake
    rw [mem_awake, h.1 i hi] at hawake
    contradiction
  have hunion : awake (signal waiters chosen) = awake waiters ∪ chosen := by
    ext i
    rw [Finset.mem_union, mem_awake, mem_awake, signal]
    by_cases hi : i ∈ chosen <;> simp [hi]
  rw [hunion, Finset.card_union_of_disjoint (Finset.disjoint_right.mpr hdisjoint)]
  have hpos := Finset.card_pos.mpr (h.2 hblocked)
  omega

theorem card_awake_le_update (i : ι) (w : Waiter) :
    (awake waiters).card ≤ (awake (Function.update waiters i w)).card + 1 := by
  have hsub : awake waiters ⊆ insert i (awake (Function.update waiters i w)) := by
    intro j hj
    rw [Finset.mem_insert, mem_awake]
    rcases eq_or_ne j i with rfl | hne
    · exact Or.inl rfl
    · rw [Function.update_of_ne hne]
      exact Or.inr (mem_awake.mp hj)
  exact (Finset.card_le_card hsub).trans (Finset.card_insert_le _ _)

theorem card_awake_update_of_ne {i : ι} (w : Waiter) (h : waiters i ≠ .woken) :
    (awake waiters).card ≤ (awake (Function.update waiters i w)).card := by
  apply Finset.card_le_card
  intro j hj
  rw [mem_awake] at hj ⊢
  have hne : j ≠ i := by
    rintro rfl
    exact h hj
  rwa [Function.update_of_ne hne]

end Counting

end ConditionVariable
