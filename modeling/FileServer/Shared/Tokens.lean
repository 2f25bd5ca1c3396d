import Mathlib.Logic.Function.Basic

/-!
# A thing that exists once

What the places of a system hold of one thing, counted place by place. While it
lies at one place, that place holds one of it and every other place holds none; it
is moved by taking one here and putting one there.
-/

namespace Tokens

set_option autoImplicit false

universe u
variable {ι : Type u} [DecidableEq ι]

/-- How many of a thing that lies at `o` are found at each place. -/
def found (o : Option ι) (p : ι) : Nat := if o = some p then 1 else 0

theorem found_none (p : ι) : found none p = 0 := rfl

theorem found_self (p : ι) : found (some p) p = 1 := if_pos rfl

theorem found_ne {o : Option ι} {p : ι} (h : o ≠ some p) : found o p = 0 := if_neg h

theorem eq_some_of_found_pos {o : Option ι} {p : ι} (h : 0 < found o p) : o = some p := by
  by_contra hne
  rw [found_ne hne] at h
  exact Nat.lt_irrefl 0 h

theorem put (p : ι) : Function.update (found none) p 1 = found (some p) := by
  funext q
  rcases eq_or_ne q p with rfl | hne
  · rw [Function.update_self, found_self]
  · rw [Function.update_of_ne hne, found_none, found_ne (by simpa using hne.symm)]

theorem take (p : ι) : Function.update (found (some p)) p 0 = found none := by
  funext q
  rcases eq_or_ne q p with rfl | hne
  · rw [Function.update_self, found_none]
  · rw [Function.update_of_ne hne, found_none, found_ne (by simpa using hne.symm)]

theorem move (p q : ι) :
    Function.update (Function.update (found (some p)) p 0) q 1 = found (some q) := by
  rw [take, put]

/-- Places that hold what they held before may be counted again. -/
theorem recount {f : ι → Nat} {p : ι} {k : Nat} (h : k = f p) : Function.update f p k = f := by
  rw [h, Function.update_eq_self]

end Tokens
