import Mathlib.Logic.Function.Basic
import Mathlib.Logic.Relation

/-!
# Threads that take mutexes in order

A thread stands at a point of its program, which tells the mutexes it holds and
the one it is about to lock. If every point wants only mutexes of a higher rank
than those it holds, no cycle of threads can wait for one another.
-/

namespace LockOrder

set_option autoImplicit false

universe u v w
variable {T : Type u} {M : Type v} {P : Type w}

structure Discipline (P : Type w) (M : Type v) where
  held : P → List M
  wanted : P → Option M

inductive LockOp (M : Type v) where
  | acquire (m : M)
  | release (m : M)
  | none

/-- The mutexes after an operation of thread `t`; a mutex that is taken cannot be
acquired. -/
def LockOp.apply [DecidableEq M] (owner : M → Option T) (t : T) :
    LockOp M → Option (M → Option T)
  | .acquire m =>
    match owner m with
    | .none => some (Function.update owner m (some t))
    | .some _ => Option.none
  | .release m => some (Function.update owner m Option.none)
  | .none => some owner

/-- How an operation changes the mutexes held, the last one taken being the first. -/
def LockOp.Turns : LockOp M → List M → List M → Prop
  | .acquire m, before, after => after = m :: before
  | .release m, before, after => before = m :: after ∧ m ∉ after
  | .none, before, after => after = before

def WaitsFor (D : Discipline P M) (owner : M → Option T) (point : T → P) (t u : T) : Prop :=
  ∃ m, D.wanted (point t) = some m ∧ owner m = some u

def Consistent (D : Discipline P M) (owner : M → Option T) (point : T → P) : Prop :=
  ∀ m t, owner m = some t ↔ m ∈ D.held (point t)

section Cycles
variable {D : Discipline P M} {owner : M → Option T} {point : T → P} {rank : M → Nat}

/-- A chain of waiting threads ends at a thread that holds a mutex of at least the
rank of the one wanted at its start. -/
theorem rank_le_of_waits (hrank : ∀ p m, D.wanted p = some m → ∀ n ∈ D.held p, rank n < rank m)
    (hcons : Consistent D owner point) {t u : T}
    (h : Relation.TransGen (WaitsFor D owner point) t u) :
    ∃ m n, D.wanted (point t) = some m ∧ n ∈ D.held (point u) ∧ rank m ≤ rank n := by
  induction h with
  | single hwaits =>
    obtain ⟨m, hm, howner⟩ := hwaits
    exact ⟨m, m, hm, (hcons m _).mp howner, Nat.le_refl _⟩
  | tail _ hwaits ih =>
    obtain ⟨m, n, hm, hn, hle⟩ := ih
    obtain ⟨k, hk, howner⟩ := hwaits
    exact ⟨m, k, hm, (hcons k _).mp howner, Nat.le_trans hle (Nat.le_of_lt (hrank _ k hk n hn))⟩

theorem no_cycle (hrank : ∀ p m, D.wanted p = some m → ∀ n ∈ D.held p, rank n < rank m)
    (hcons : Consistent D owner point) (t : T) :
    ¬ Relation.TransGen (WaitsFor D owner point) t t := by
  intro h
  obtain ⟨m, n, hm, hn, hle⟩ := rank_le_of_waits hrank hcons h
  exact absurd (hrank _ m hm n hn) (Nat.not_lt.mpr hle)

end Cycles

section Steps
variable [DecidableEq T] [DecidableEq M] {D : Discipline P M} {owner owner' : M → Option T}
  {point : T → P}

omit [DecidableEq T] [DecidableEq M] in
theorem Consistent.exclusive (h : Consistent D owner point) {m : M} {t u : T}
    (ht : m ∈ D.held (point t)) (hu : m ∈ D.held (point u)) : t = u :=
  Option.some.inj (((h m t).mpr ht).symm.trans ((h m u).mpr hu))

theorem Consistent.step (h : Consistent D owner point) {t : T} {op : LockOp M} {p : P}
    (hturn : op.Turns (D.held (point t)) (D.held p)) (happly : op.apply owner t = some owner') :
    Consistent D owner' (Function.update point t p) := by
  intro m u
  cases op with
  | none =>
    obtain rfl := Option.some.inj happly
    rcases eq_or_ne u t with rfl | hne
    · rw [Function.update_self, hturn]
      exact h m u
    · rw [Function.update_of_ne hne]
      exact h m u
  | acquire n =>
    rw [LockOp.apply] at happly
    split at happly
    · rename_i hfree
      obtain rfl := Option.some.inj happly
      have hnobody : ∀ v, n ∉ D.held (point v) := fun v hv => by simp [(h n v).mpr hv] at hfree
      rcases eq_or_ne u t with rfl | hne
      · rw [Function.update_self, hturn, List.mem_cons]
        rcases eq_or_ne m n with rfl | hm
        · simp
        · simp [hm, h m u]
      · rw [Function.update_of_ne hne]
        rcases eq_or_ne m n with rfl | hm
        · simpa [hnobody u] using hne.symm
        · rw [Function.update_of_ne hm]
          exact h m u
    · contradiction
  | release n =>
    obtain rfl := Option.some.inj happly
    obtain ⟨hheld, hgone⟩ := hturn
    have hmine : n ∈ D.held (point t) := by
      rw [hheld]
      exact List.mem_cons_self
    rcases eq_or_ne m n with rfl | hm
    · rw [Function.update_self]
      rcases eq_or_ne u t with rfl | hne
      · simp [hgone]
      · rw [Function.update_of_ne hne]
        simpa using fun hu => hne (h.exclusive hu hmine)
    · rw [Function.update_of_ne hm]
      rcases eq_or_ne u t with rfl | hne
      · rw [Function.update_self, h m u, hheld, List.mem_cons]
        simp [hm]
      · rw [Function.update_of_ne hne]
        exact h m u

end Steps

end LockOrder
