import Mathlib.Data.List.Nodup
import Mathlib.Logic.Function.Basic

/-!
# Tables of shared objects that are used after the lookup

Objects are reached through a table of their addresses. A thread looks an object
up and uses it later, when the table may have changed; a thread that retires an
object first unlinks it and frees it later, and freed addresses are handed out
again. If nothing is unlinked while somebody holds it, every held address is
still linked to the object that was found.
-/

namespace HandleTable

set_option autoImplicit false

universe u v w
variable {A : Type u} {I : Type v} {T : Type w}

/-- `owner` is the live memory with the identity of each object, `held` what a
thread found and has not used yet, `retired` what it unlinked and has to free. -/
structure Table (A : Type u) (I : Type v) (T : Type w) where
  linked : List A
  owner : A → Option I
  held : T → Option (A × I)
  retired : T → Option A

inductive Step [DecidableEq A] [DecidableEq T] (s : Table A I T) : Table A I T → Prop
  | link {a : A} {i : I} {linked : List A} (hfree : s.owner a = none)
      (hnew : ∀ b ∈ s.linked, s.owner b ≠ some i) (hperm : linked.Perm (a :: s.linked)) :
      Step s { s with linked := linked, owner := Function.update s.owner a (some i) }
  | lookup {t : T} {a : A} {i : I} (hmem : a ∈ s.linked) (howner : s.owner a = some i) :
      Step s { s with held := Function.update s.held t (some (a, i)) }
  | release {t : T} : Step s { s with held := Function.update s.held t none }
  | unlink {t : T} {a : A} {linked : List A} (hperm : s.linked.Perm (a :: linked))
      (hunused : ∀ u i, s.held u ≠ some (a, i)) :
      Step s { s with linked := linked, retired := Function.update s.retired t (some a) }
  | free {t : T} {a : A} (hretired : s.retired t = some a) :
      Step s { s with
        owner := Function.update s.owner a none
        retired := Function.update s.retired t none }

structure Sound (s : Table A I T) : Prop where
  nodup : s.linked.Nodup
  live : ∀ a ∈ s.linked, s.owner a ≠ none
  unique : ∀ a ∈ s.linked, ∀ b ∈ s.linked, ∀ i, s.owner a = some i → s.owner b = some i → a = b
  held : ∀ t a i, s.held t = some (a, i) → a ∈ s.linked ∧ s.owner a = some i
  retiredLive : ∀ t a, s.retired t = some a → s.owner a ≠ none
  unlinked : ∀ t a, s.retired t = some a → a ∉ s.linked
  apart : ∀ t u a, s.retired t = some a → s.retired u = some a → t = u

theorem update_eq_some {α : Type u} {β : Type v} [DecidableEq α] {f : α → Option β} {x y : α}
    {b : β} {o : Option β} (h : Function.update f x o y = some b) :
    (y = x ∧ o = some b) ∨ (y ≠ x ∧ f y = some b) := by
  rcases eq_or_ne y x with rfl | hne
  · rw [Function.update_self] at h
    exact Or.inl ⟨rfl, h⟩
  · rw [Function.update_of_ne hne] at h
    exact Or.inr ⟨hne, h⟩

variable {s s' : Table A I T}

theorem Sound.link [DecidableEq A] (h : Sound s) {a : A} {i : I} {linked : List A} (hfree : s.owner a = none)
    (hnew : ∀ b ∈ s.linked, s.owner b ≠ some i) (hperm : linked.Perm (a :: s.linked)) :
    Sound { s with linked := linked, owner := Function.update s.owner a (some i) } := by
  have hmem : ∀ b, b ∈ linked ↔ b = a ∨ b ∈ s.linked := by
    intro b
    rw [hperm.mem_iff, List.mem_cons]
  have hout : a ∉ s.linked := fun ha => h.live a ha hfree
  have hother : ∀ b ∈ s.linked, Function.update s.owner a (some i) b = s.owner b := by
    intro b hb
    apply Function.update_of_ne
    intro heq
    exact hout (heq ▸ hb)
  constructor
  · exact hperm.nodup_iff.mpr (List.nodup_cons.mpr ⟨hout, h.nodup⟩)
  · intro b hb
    rcases (hmem b).mp hb with rfl | hb
    · simp
    · simp only [hother b hb]
      exact h.live b hb
  · intro b hb c hc j hbj hcj
    rcases (hmem b).mp hb with hba | hb' <;> rcases (hmem c).mp hc with hca | hc'
    · exact hba.trans hca.symm
    · subst hba
      simp only [Function.update_self, hother c hc'] at hbj hcj
      exact absurd (hbj ▸ hcj) (hnew c hc')
    · subst hca
      simp only [Function.update_self, hother b hb'] at hbj hcj
      exact absurd (hcj ▸ hbj) (hnew b hb')
    · simp only [hother b hb', hother c hc'] at hbj hcj
      exact h.unique b hb' c hc' j hbj hcj
  · intro t b j ht
    obtain ⟨hb, hj⟩ := h.held t b j ht
    exact ⟨(hmem b).mpr (Or.inr hb), (hother b hb).trans hj⟩
  · intro t b ht
    have hne : b ≠ a := by
      rintro rfl
      exact h.retiredLive t b ht hfree
    simp only [Function.update_of_ne hne]
    exact h.retiredLive t b ht
  · intro t b ht hb
    rcases (hmem b).mp hb with rfl | hb
    · exact h.retiredLive t b ht hfree
    · exact h.unlinked t b ht hb
  · exact h.apart

theorem Sound.hold [DecidableEq T] (h : Sound s) {t : T} {o : Option (A × I)}
    (ho : ∀ a i, o = some (a, i) → a ∈ s.linked ∧ s.owner a = some i) :
    Sound { s with held := Function.update s.held t o } := by
  refine ⟨h.nodup, h.live, h.unique, ?_, h.retiredLive, h.unlinked, h.apart⟩
  intro u b j hu
  rcases update_eq_some hu with ⟨_, heq⟩ | ⟨_, hu⟩
  · exact ho b j heq
  · exact h.held u b j hu

theorem Sound.unlink [DecidableEq T] (h : Sound s) {t : T} {a : A} {linked : List A}
    (hperm : s.linked.Perm (a :: linked)) (hunused : ∀ u i, s.held u ≠ some (a, i)) :
    Sound { s with linked := linked, retired := Function.update s.retired t (some a) } := by
  obtain ⟨hout, hnodup⟩ := List.nodup_cons.mp (hperm.nodup_iff.mp h.nodup)
  have hmem : ∀ b, b ∈ linked → b ∈ s.linked := by
    intro b hb
    exact hperm.mem_iff.mpr (List.mem_cons_of_mem a hb)
  have ha : a ∈ s.linked := hperm.mem_iff.mpr List.mem_cons_self
  constructor
  · exact hnodup
  · intro b hb
    exact h.live b (hmem b hb)
  · intro b hb c hc
    exact h.unique b (hmem b hb) c (hmem c hc)
  · intro u b j hu
    obtain ⟨hb, hj⟩ := h.held u b j hu
    refine ⟨?_, hj⟩
    rcases List.mem_cons.mp (hperm.mem_iff.mp hb) with rfl | hb
    · exact absurd hu (hunused u j)
    · exact hb
  · intro u b hu
    rcases update_eq_some hu with ⟨_, heq⟩ | ⟨_, hu⟩
    · cases heq
      exact h.live _ ha
    · exact h.retiredLive u b hu
  · intro u b hu
    rcases update_eq_some hu with ⟨_, heq⟩ | ⟨_, hu⟩
    · cases heq
      exact hout
    · exact fun hb => h.unlinked u b hu (hmem b hb)
  · intro u v b hu hv
    rcases update_eq_some hu with ⟨hut, heq⟩ | ⟨_, hu'⟩ <;>
      rcases update_eq_some hv with ⟨hvt, heq'⟩ | ⟨_, hv'⟩
    · exact hut.trans hvt.symm
    · cases heq
      exact absurd ha (h.unlinked v _ hv')
    · cases heq'
      exact absurd ha (h.unlinked u _ hu')
    · exact h.apart u v b hu' hv'

theorem Sound.free [DecidableEq A] [DecidableEq T] (h : Sound s) {t : T} {a : A} (hretired : s.retired t = some a) :
    Sound { s with
      owner := Function.update s.owner a none
      retired := Function.update s.retired t none } := by
  have hother : ∀ b ∈ s.linked, Function.update s.owner a none b = s.owner b := by
    intro b hb
    apply Function.update_of_ne
    rintro rfl
    exact h.unlinked t b hretired hb
  constructor
  · exact h.nodup
  · intro b hb
    simp only [hother b hb]
    exact h.live b hb
  · intro b hb c hc j hbj hcj
    simp only [hother b hb, hother c hc] at hbj hcj
    exact h.unique b hb c hc j hbj hcj
  · intro u b j hu
    obtain ⟨hb, hj⟩ := h.held u b j hu
    exact ⟨hb, (hother b hb).trans hj⟩
  · intro u b hu
    rcases update_eq_some hu with ⟨_, heq⟩ | ⟨hne, hu'⟩
    · contradiction
    · have hba : b ≠ a := by
        rintro rfl
        exact hne (h.apart u t b hu' hretired)
      simp only [Function.update_of_ne hba]
      exact h.retiredLive u b hu'
  · intro u b hu
    rcases update_eq_some hu with ⟨_, heq⟩ | ⟨_, hu⟩
    · contradiction
    · exact h.unlinked u b hu
  · intro u v b hu hv
    rcases update_eq_some hu with ⟨_, heq⟩ | ⟨_, hu⟩
    · contradiction
    rcases update_eq_some hv with ⟨_, heq⟩ | ⟨_, hv⟩
    · contradiction
    exact h.apart u v b hu hv

theorem Step.sound [DecidableEq A] [DecidableEq T] (hstep : Step s s') (h : Sound s) : Sound s' := by
  cases hstep with
  | link hfree hnew hperm => exact h.link hfree hnew hperm
  | lookup hmem howner =>
    apply h.hold
    intro b j heq
    cases heq
    exact ⟨hmem, howner⟩
  | release => exact h.hold (by simp)
  | unlink hperm hunused => exact h.unlink hperm hunused
  | free hretired => exact h.free hretired

/-- What unlinking leaves: the other objects, and none with the identity removed. -/
theorem Sound.unlinked_rest (h : Sound s) {a : A} {i : I} {rest : List A}
    (hperm : s.linked.Perm (a :: rest)) (howner : s.owner a = some i) :
    ∀ b ∈ rest, s.owner b ≠ some i := by
  intro b hb heq
  have hba := h.unique b (hperm.mem_iff.mpr (List.mem_cons_of_mem a hb)) a
    (hperm.mem_iff.mpr List.mem_cons_self) i heq howner
  subst hba
  exact (List.nodup_cons.mp (hperm.nodup_iff.mp h.nodup)).1 hb

end HandleTable
