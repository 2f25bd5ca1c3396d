import Mathlib.Data.Vector.Basic

/-!
# Level-order array heaps over an arbitrary dominance relation

`dom a b` reads "a may stand above b". Nothing below fixes a loop: the lemmas
say what one swap along an edge does to the only edges that may be out of order,
and when no such edge is left. A sift-up or sift-down is then an induction
over its own swaps.
-/

namespace ArrayHeap

set_option autoImplicit false

universe u
variable {α : Type u} {n : Nat}

def parent (i : Nat) : Nat := (i - 1) / 2

theorem parent_lt {i : Nat} (hi : 0 < i) : parent i < i := by
  unfold parent
  omega

theorem child_cases {i j : Nat} (hj : 0 < j) (hp : parent j = i) :
    j = 2 * i + 1 ∨ j = 2 * i + 2 := by
  unfold parent at hp
  omega

theorem parent_left (i : Nat) : parent (2 * i + 1) = i := by
  unfold parent
  omega

theorem parent_right (i : Nat) : parent (2 * i + 2) = i := by
  unfold parent
  omega

/-- The edge entering position `j` is in order. -/
def EdgeOk (dom : α → α → Prop) (v : Vector α n) (j : Nat) : Prop :=
  ∀ (hj : j < n) (h0 : 0 < j),
    dom (v.get ⟨parent j, Nat.lt_trans (parent_lt h0) hj⟩) (v.get ⟨j, hj⟩)

def Ordered (dom : α → α → Prop) (v : Vector α n) : Prop := ∀ j, EdgeOk dom v j

/-- The children of `i` may hang directly below the parent of `i`. -/
def Bridged (dom : α → α → Prop) (v : Vector α n) (i : Nat) : Prop :=
  ∀ j (hj : j < n) (_ : 0 < j) (hp : parent j = i) (h0 : 0 < i),
    dom (v.get ⟨parent i, by have := parent_lt h0; have := parent_lt ‹0 < j›; omega⟩) (v.get ⟨j, hj⟩)

/-- Every edge but the one entering `i` is in order. -/
structure UpReady (dom : α → α → Prop) (v : Vector α n) (i : Nat) : Prop where
  edges : ∀ j, j ≠ i → EdgeOk dom v j
  bridged : Bridged dom v i

/-- Every edge but those leaving `i` is in order. -/
structure DownReady (dom : α → α → Prop) (v : Vector α n) (i : Nat) : Prop where
  edges : ∀ j, 0 < j → parent j ≠ i → EdgeOk dom v j
  bridged : Bridged dom v i

theorem get_swap (v : Vector α n) {i j k : Nat} (hi : i < n) (hj : j < n) (hk : k < n) :
    (v.swap i j hi hj).get ⟨k, hk⟩ =
      if k = i then v.get ⟨j, hj⟩ else if k = j then v.get ⟨i, hi⟩ else v.get ⟨k, hk⟩ := by
  exact Vector.getElem_swap hi hj hk

theorem get_push_lt (v : Vector α n) (x : α) {k : Nat} (hk : k < n) :
    (v.push x).get ⟨k, Nat.lt_succ_of_lt hk⟩ = v.get ⟨k, hk⟩ :=
  Vector.getElem_push_lt hk

theorem UpReady.ordered {dom : α → α → Prop} {v : Vector α n} {i : Nat}
    (h : UpReady dom v i) (hi : EdgeOk dom v i) : Ordered dom v := by
  intro j
  by_cases hj : j = i
  · exact hj ▸ hi
  · exact h.edges j hj

theorem DownReady.ordered {dom : α → α → Prop} {v : Vector α n} {i : Nat}
    (h : DownReady dom v i) (hc : ∀ j, 0 < j → parent j = i → EdgeOk dom v j) :
    Ordered dom v := by
  intro j hj h0
  by_cases hp : parent j = i
  · exact hc j h0 hp hj h0
  · exact h.edges j h0 hp hj h0

theorem upReady_push {dom : α → α → Prop} {v : Vector α n} (h : Ordered dom v) (x : α) :
    UpReady dom (v.push x) n := by
  constructor
  · intro j hne hj h0
    have hjn : j < n := by omega
    have hp : parent j < n := Nat.lt_trans (parent_lt h0) hjn
    rw [get_push_lt v x hp, get_push_lt v x hjn]
    exact h j hjn h0
  · intro j hj h0 hp _
    have := parent_lt h0
    omega

theorem downReady_root {k : Nat} {dom : α → α → Prop} {v : Vector α n} {w : Vector α k}
    (h : Ordered dom v) (hk : k ≤ n)
    (hw : ∀ j (hj : j < k), 0 < j → w.get ⟨j, hj⟩ = v.get ⟨j, Nat.lt_of_lt_of_le hj hk⟩) :
    DownReady dom w 0 := by
  constructor
  · intro j h0 hp hj _
    have hpos : 0 < parent j := Nat.pos_of_ne_zero hp
    rw [hw j hj h0, hw (parent j) _ hpos]
    exact h j _ h0
  · intro _ _ _ _ h0
    omega

theorem get_set_zero_pop (v : Vector α n) (x : α) (hn : 0 < n) {j : Nat} (hj : j < n - 1)
    (h0 : 0 < j) : (v.set 0 x hn).pop.get ⟨j, hj⟩ = v.get ⟨j, by omega⟩ := by
  have hpop : (v.set 0 x hn).pop[j] = (v.set 0 x hn)[j] := Vector.getElem_pop hj
  exact hpop.trans (Vector.getElem_set_ne hn (by omega) (by omega))

theorem set_pop_perm (v : Vector α n) {i : Nat} (hi : i < n) :
    (v.get ⟨i, hi⟩ :: (v.set i (v.get ⟨n - 1, by omega⟩) hi).pop.toList).Perm v.toList := by
  obtain ⟨k, rfl⟩ := Nat.exists_eq_succ_of_ne_zero (Nat.ne_of_gt (Nat.zero_lt_of_lt hi))
  have hpop : (v.set i (v.get ⟨k, by omega⟩) hi).pop = (v.swap i k).pop := by
    apply Vector.ext
    intro j hj
    rw [Vector.getElem_pop, Vector.getElem_pop, Vector.getElem_set, Vector.getElem_swap]
    have hjk : j ≠ k := by omega
    by_cases hji : j = i
    · subst j
      simp
      rfl
    · simp [hji, hjk, Ne.symm hji]
  have hback : (v.swap i k).toList = (v.swap i k).pop.toList ++ [v.get ⟨i, hi⟩] := by
    have hb : (v.swap i k).back = v.get ⟨i, hi⟩ := by
      rw [Vector.back_eq_getElem]
      exact Vector.getElem_swap_right hi _
    have hp := congrArg Vector.toList (Vector.push_pop_back (v.swap i k))
    rw [Vector.toList_push, hb] at hp
    exact hp.symm
  change (v.get ⟨i, hi⟩ :: (v.set i (v.get ⟨k, by omega⟩) hi).pop.toList).Perm v.toList
  rw [hpop]
  have hswap : (v.swap i k).Perm v := Vector.swap_perm _ _
  have hperm := hswap.toList
  rw [hback] at hperm
  exact (List.perm_append_singleton _ _).symm.trans hperm

/-- Swapping a cell with its dominating child moves the defect to that child. -/
theorem DownReady.swap {dom : α → α → Prop} {v : Vector α n} {i c : Nat} (h : DownReady dom v i) (hc : c < n)
    (hc0 : 0 < c) (hp : parent c = i)
    (hbest : ∀ j (hj : j < n), 0 < j → parent j = i → dom (v.get ⟨c, hc⟩) (v.get ⟨j, hj⟩))
    (htop : dom (v.get ⟨c, hc⟩) (v.get ⟨i, hp ▸ Nat.lt_trans (parent_lt hc0) hc⟩)) :
    DownReady dom (v.swap i c (hp ▸ Nat.lt_trans (parent_lt hc0) hc) hc) c := by
  have hic : i < c := hp ▸ parent_lt hc0
  constructor
  · intro j hj0 hpj hj _
    have hlt := parent_lt hj0
    simp only [get_swap, hpj, if_false]
    by_cases hpi : parent j = i
    · by_cases hjc : j = c
      · subst j
        simpa [hpi, Nat.ne_of_gt hic] using htop
      · have hji : j ≠ i := by omega
        simpa [hpi, hjc, hji] using hbest j hj hj0 hpi
    · by_cases hji : j = i
      · subst j
        simpa [hpi] using h.bridged c hc hc0 hp hj0
      · have hjc : j ≠ c := by
          intro he
          exact hpi (he ▸ hp)
        simpa [hpi, hji, hjc] using h.edges j hj0 hpi hj hj0
  · intro j hj hj0 hpj _
    have hlt := parent_lt hj0
    have hji : j ≠ i := by omega
    have hjc : j ≠ c := by omega
    have hold := h.edges j hj0 (by omega) hj hj0
    simp only [hpj] at hold
    simpa [get_swap, hp, hji, hjc] using hold

section Preorder
variable {dom : α → α → Prop}
variable (trans : ∀ a b c, dom a b → dom b c → dom a c)
include trans

/-- Swapping a cell that dominates its parent moves the defect to the parent. -/
theorem UpReady.swap {v : Vector α n} {i : Nat} (h : UpReady dom v i) (hi : i < n) (h0 : 0 < i)
    (hlt : dom (v.get ⟨i, hi⟩) (v.get ⟨parent i, Nat.lt_trans (parent_lt h0) hi⟩)) :
    UpReady dom (v.swap (parent i) i (Nat.lt_trans (parent_lt h0) hi) hi) (parent i) := by
  have hpi := parent_lt h0
  constructor
  · intro j hne hj hj0
    have hpj := parent_lt hj0
    simp only [get_swap]
    by_cases hji : j = i
    · subst j
      simpa [Nat.ne_of_gt hpi] using hlt
    by_cases hpp : parent j = parent i
    · have hold := h.edges j hji hj hj0
      simp only [hpp] at hold
      simpa [hpp, hne, hji] using trans _ _ _ hlt hold
    by_cases hpj' : parent j = i
    · have hold := h.bridged j hj hj0 hpj' h0
      simpa [hpj', Nat.ne_of_gt hpi, hne, hji] using hold
    · simpa [hpp, hpj', hne, hji] using h.edges j hji hj hj0
  · intro j hj hj0 hp hpp
    have hpj := parent_lt hj0
    have hgg := parent_lt hpp
    have hne : parent i ≠ i := by omega
    have hg1 : parent (parent i) ≠ parent i := by omega
    have hg2 : parent (parent i) ≠ i := by omega
    have hup := h.edges (parent i) hne (by omega) hpp
    simp only [get_swap, hg1, hg2, if_false]
    by_cases hji : j = i
    · subst j
      simpa [Nat.ne_of_gt hpi] using hup
    · have hjp : j ≠ parent i := by omega
      have hold := h.edges j hji hj hj0
      simp only [hp] at hold
      simpa [hji, hjp] using trans _ _ _ hup hold

variable (refl : ∀ a, dom a a)
include refl

theorem Ordered.root {v : Vector α n} (h : Ordered dom v) (hn : 0 < n) :
    ∀ i (hi : i < n), dom (v.get ⟨0, hn⟩) (v.get ⟨i, hi⟩) := by
  intro i
  induction i using Nat.strongRecOn with
  | ind i ih =>
    intro hi
    by_cases h0 : 0 < i
    · have hp := parent_lt h0
      exact trans _ _ _ (ih (parent i) hp (by omega)) (h i hi h0)
    · have hz : i = 0 := by omega
      subst i
      exact refl _

end Preorder

end ArrayHeap
