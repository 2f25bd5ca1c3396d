import Mathlib.Data.List.Induction

/-!
# Lexical resolution of paths over an arbitrary alphabet of names

A place is where a path leads when `.`, `..` and names are processed one after
another without looking at any file system: a number of unresolved `..`
followed by names, or names below the root of the tree. A relative component list
has a normal form, `reduce`, and following it from a place is climbing and then
descending.
-/

namespace LexicalPath

set_option autoImplicit false

universe u
variable {N : Type u}

inductive Component (N : Type u) where
  | here
  | up
  | name (n : N)
  deriving DecidableEq, Repr

structure Place (N : Type u) where
  rooted : Bool
  ups : Nat
  names : List N
  deriving DecidableEq, Repr

def Place.start (rooted : Bool) : Place N := ⟨rooted, 0, []⟩

/-- The parent of the root of the tree is the root itself. -/
def Place.up (p : Place N) : Place N :=
  if p.names = [] then
    if p.rooted then p else { p with ups := p.ups + 1 }
  else { p with names := p.names.dropLast }

def Place.walk (p : Place N) : Component N → Place N
  | .here => p
  | .up => p.up
  | .name n => { p with names := p.names ++ [n] }

def Place.follow (p : Place N) (cs : List (Component N)) : Place N := cs.foldl Place.walk p

def reduce (cs : List (Component N)) : Place N := (Place.start false).follow cs

def Place.climb (p : Place N) : Nat → Place N
  | 0 => p
  | k + 1 => (p.climb k).up

def Place.descend (p : Place N) (ns : List N) : Place N := { p with names := p.names ++ ns }

/-- `place` is `dir` or something below it. -/
def Inside (dir place : Place N) : Prop :=
  dir.rooted = place.rooted ∧ dir.ups = place.ups ∧ dir.names <+: place.names

def StrictlyInside (dir place : Place N) : Prop :=
  Inside dir place ∧ dir.names ≠ place.names

instance [DecidableEq N] (dir place : Place N) : Decidable (Inside dir place) :=
  inferInstanceAs (Decidable (_ ∧ _ ∧ _))

instance [DecidableEq N] (dir place : Place N) : Decidable (StrictlyInside dir place) :=
  inferInstanceAs (Decidable (_ ∧ _))

/-- Whatever the components climb out of `p` they name again, and then `below`. -/
def Returns (p : Place N) (cs : List (Component N)) (below : List N) : Prop :=
  (p.rooted = true ∨ (reduce cs).ups ≤ p.names.length) ∧
    (reduce cs).names = p.names.drop (p.names.length - (reduce cs).ups) ++ below

theorem follow_append (p : Place N) (cs ds : List (Component N)) :
    p.follow (cs ++ ds) = (p.follow cs).follow ds := List.foldl_append

@[simp] theorem descend_nil (p : Place N) : p.descend [] = p := by
  simp [Place.descend]

theorem up_descend (p : Place N) {ns : List N} (h : ns ≠ []) :
    (p.descend ns).up = p.descend ns.dropLast := by
  simp [Place.up, Place.descend, h, List.dropLast_append_of_ne_nil]

theorem walk_rooted (p : Place N) (c : Component N) : (p.walk c).rooted = p.rooted := by
  cases c with
  | here => rfl
  | up =>
    simp only [Place.walk, Place.up]
    split
    · split <;> rfl
    · rfl
  | name n => rfl

theorem follow_rooted (p : Place N) (cs : List (Component N)) :
    (p.follow cs).rooted = p.rooted := by
  induction cs generalizing p with
  | nil => rfl
  | cons c cs ih => exact (ih (p.walk c)).trans (walk_rooted p c)

theorem climb_eq (p : Place N) (k : Nat) :
    p.climb k =
      if k ≤ p.names.length then { p with names := p.names.take (p.names.length - k) }
      else if p.rooted then { p with names := [] }
      else { p with ups := p.ups + (k - p.names.length), names := [] } := by
  induction k with
  | zero => simp [Place.climb]
  | succ k ih =>
    rw [Place.climb, ih]
    by_cases hk : k + 1 ≤ p.names.length
    · have htake : p.names.take (p.names.length - k) ≠ [] := by
        intro h
        have := congrArg List.length h
        simp at this
        omega
      have hsub : p.names.length - k - 1 = p.names.length - (k + 1) := by omega
      simp only [Nat.le_of_succ_le hk, hk, if_true, Place.up, htake, if_false,
        List.dropLast_eq_take, List.take_take, List.length_take]
      congr 2
      omega
    · by_cases hz : k ≤ p.names.length
      · have hlen : p.names.length - k = 0 := by omega
        have hone : k + 1 - p.names.length = 1 := by omega
        cases hr : p.rooted <;> simp [hz, hk, hlen, hone, Place.up]
      · have hone : k + 1 - p.names.length = k - p.names.length + 1 := by omega
        cases hr : p.rooted <;> simp [hz, hk, hone, Place.up, Nat.add_assoc]

theorem follow_eq (p : Place N) (cs : List (Component N)) :
    p.follow cs = (p.climb (reduce cs).ups).descend (reduce cs).names := by
  induction cs using List.reverseRecOn with
  | nil => simp [Place.follow, reduce, Place.start, Place.climb]
  | append_singleton cs c ih =>
    have hroot : (reduce cs).rooted = false := follow_rooted _ _
    have hred : reduce (cs ++ [c]) = (reduce cs).walk c := follow_append _ _ _
    have hp : p.follow (cs ++ [c]) = (p.follow cs).walk c := follow_append _ _ _
    rw [hp, ih, hred]
    cases c with
    | here => rfl
    | name n => simp [Place.walk, Place.descend, List.append_assoc]
    | up =>
      by_cases hn : (reduce cs).names = []
      · simp [Place.walk, Place.up, hn, hroot, Place.climb]
      · simp only [Place.walk]
        rw [up_descend _ hn]
        simp [Place.up, hn]

theorem follow_of_returns {p : Place N} {cs : List (Component N)} {below : List N}
    (h : Returns p cs below) : p.follow cs = p.descend below := by
  obtain ⟨hroom, hnames⟩ := h
  rw [follow_eq, climb_eq, hnames]
  by_cases hk : (reduce cs).ups ≤ p.names.length
  · simp [hk, Place.descend, ← List.append_assoc]
  · have hr : p.rooted = true := hroom.resolve_right hk
    have hz : p.names.length - (reduce cs).ups = 0 := by omega
    simp [hk, hr, hz, Place.descend]

/-- A path ends at or below its start exactly when it returns there. -/
theorem inside_follow_iff (p : Place N) (cs : List (Component N)) :
    Inside p (p.follow cs) ↔ ∃ below, Returns p cs below := by
  constructor
  · rintro ⟨_, hups, hpre⟩
    rw [follow_eq, climb_eq] at hups hpre
    by_cases hk : (reduce cs).ups ≤ p.names.length
    · simp only [hk, if_true, Place.descend] at hpre
      have hsplit := List.take_append_drop (p.names.length - (reduce cs).ups) p.names
      obtain ⟨below, hb⟩ := hpre
      refine ⟨below, Or.inr hk, ?_⟩
      have hkey : p.names.take (p.names.length - (reduce cs).ups) ++ (reduce cs).names =
          p.names.take (p.names.length - (reduce cs).ups) ++
            (p.names.drop (p.names.length - (reduce cs).ups) ++ below) := by
        rw [← List.append_assoc, hsplit, hb]
      exact List.append_cancel_left hkey
    · have hz : p.names.length - (reduce cs).ups = 0 := by omega
      simp only [hk, if_false] at hups hpre
      cases hr : p.rooted with
      | true =>
        simp only [hr, if_true, Place.descend, List.nil_append] at hpre
        obtain ⟨below, hb⟩ := hpre
        exact ⟨below, Or.inl hr, by rw [hz, List.drop_zero, hb]⟩
      | false =>
        simp only [hr, Place.descend] at hups
        simp at hups
        omega
  · rintro ⟨below, h⟩
    rw [follow_of_returns h]
    exact ⟨rfl, rfl, List.prefix_append _ _⟩

theorem strictlyInside_follow_iff (p : Place N) (cs : List (Component N)) :
    StrictlyInside p (p.follow cs) ↔ ∃ below, below ≠ [] ∧ Returns p cs below := by
  constructor
  · rintro ⟨hin, hne⟩
    obtain ⟨below, h⟩ := (inside_follow_iff p cs).mp hin
    refine ⟨below, ?_, h⟩
    rintro rfl
    exact hne (by rw [follow_of_returns h, descend_nil])
  · rintro ⟨below, hne, h⟩
    refine ⟨(inside_follow_iff p cs).mpr ⟨below, h⟩, ?_⟩
    rw [follow_of_returns h]
    simpa [Place.descend] using hne

end LexicalPath
