import Mathlib.Data.List.Basic

/-!
# Runs of a guarded transition system

A system is a partial step function on states and labels; `allowed` restricts
which labels may be taken in which states. An invariant is proved from its
start and from one step, and what is already known of every reached state may
be used in that step.
-/

namespace Runs

set_option autoImplicit false

universe u v w
variable {σ : Type u} {ℓ : Type v} {step : σ → ℓ → Option σ} {allowed : σ → ℓ → Prop}
  {init s s' : σ}

/-- The states that runs of allowed steps reach. -/
inductive Reached (step : σ → ℓ → Option σ) (allowed : σ → ℓ → Prop) (init : σ) : σ → Prop
  | start : Reached step allowed init init
  | next {s s' : σ} {l : ℓ} : Reached step allowed init s → allowed s l → step s l = some s' →
      Reached step allowed init s'

theorem Reached.invariant {I : σ → Prop} (h : Reached step allowed init s) (h0 : I init)
    (hstep : ∀ {s s' l}, Reached step allowed init s → I s → allowed s l → step s l = some s' →
      I s') : I s := by
  induction h with
  | start => exact h0
  | next hr hl hs ih => exact hstep hr ih hl hs

theorem Reached.mono {more : σ → ℓ → Prop} (h : Reached step allowed init s)
    (hmore : ∀ s l, allowed s l → more s l) : Reached step more init s := by
  induction h with
  | start => exact .start
  | next _ hl hs ih => exact .next ih (hmore _ _ hl) hs

/-- The state after a list of labels, if all of them can be taken. -/
def exec (step : σ → ℓ → Option σ) (s : σ) : List ℓ → Option σ
  | [] => some s
  | l :: ls => (step s l).bind fun s' => exec step s' ls

/-- The guard holds at every step of the list. -/
def Guarded (step : σ → ℓ → Option σ) (allowed : σ → ℓ → Prop) (s : σ) : List ℓ → Prop
  | [] => True
  | l :: ls => allowed s l ∧ ∀ s', step s l = some s' → Guarded step allowed s' ls

theorem guarded_of_forall {ls : List ℓ} (h : ∀ l ∈ ls, ∀ s, allowed s l) (s : σ) :
    Guarded step allowed s ls := by
  induction ls generalizing s with
  | nil => trivial
  | cons l ls ih =>
    refine ⟨h l List.mem_cons_self s, fun s' _ => ih ?_ s'⟩
    intro k hk
    exact h k (List.mem_cons_of_mem l hk)

theorem Reached.of_exec (hr : Reached step allowed init s) {ls : List ℓ}
    (hg : Guarded step allowed s ls) (he : exec step s ls = some s') :
    Reached step allowed init s' := by
  induction ls generalizing s with
  | nil =>
    cases he
    exact hr
  | cons l ls ih =>
    obtain ⟨t, ht, hrest⟩ := Option.bind_eq_some_iff.mp he
    exact ih (.next hr hg.1 ht) (hg.2 t ht) hrest

/-- The state after a list of labels that all pass a check. -/
def execChecked (step : σ → ℓ → Option σ) (check : σ → ℓ → Bool) (s : σ) : List ℓ → Option σ
  | [] => some s
  | l :: ls =>
    if check s l then (step s l).bind fun s' => execChecked step check s' ls else none

theorem Reached.of_execChecked {check : σ → ℓ → Bool} (hcheck : ∀ s l, check s l = true → allowed s l)
    (hr : Reached step allowed init s) {ls : List ℓ}
    (he : execChecked step check s ls = some s') : Reached step allowed init s' := by
  induction ls generalizing s with
  | nil =>
    obtain rfl := Option.some.inj he
    exact hr
  | cons l ls ih =>
    rw [execChecked] at he
    split at he
    · rename_i hl
      obtain ⟨t, ht, hrest⟩ := Option.bind_eq_some_iff.mp he
      exact ih (.next hr (hcheck s l hl) ht) hrest
    · contradiction

theorem exec_preserves {I : σ → Prop}
    (hkeep : ∀ {s s' l}, I s → step s l = some s' → I s') (hs : I s) {ls : List ℓ}
    (he : exec step s ls = some s') : I s' := by
  induction ls generalizing s with
  | nil =>
    cases he
    exact hs
  | cons l ls ih =>
    obtain ⟨t, ht, hrest⟩ := Option.bind_eq_some_iff.mp he
    exact ih (hkeep hs ht) hrest

theorem exec_kept {β : Type w} (part : σ → β) {ls : List ℓ}
    (hkeep : ∀ l ∈ ls, ∀ s s', step s l = some s' → part s' = part s)
    (he : exec step s ls = some s') : part s' = part s := by
  induction ls generalizing s with
  | nil =>
    cases he
    rfl
  | cons l ls ih =>
    obtain ⟨t, ht, hrest⟩ := Option.bind_eq_some_iff.mp he
    rw [ih (fun k hk => hkeep k (List.mem_cons_of_mem l hk)) hrest]
    exact hkeep l List.mem_cons_self s t ht

/-- Two systems whose steps keep a relation, both or neither taking a label, keep it along
every list of labels. -/
theorem exec_rel {σ' : Type w} {step' : σ' → ℓ → Option σ'} {R : σ → σ' → Prop}
    (hstep : ∀ {s s'} l, R s s' → Option.Rel R (step s l) (step' s' l)) {t : σ'} (h : R s t)
    (ls : List ℓ) : Option.Rel R (exec step s ls) (exec step' t ls) := by
  induction ls generalizing s t with
  | nil => exact .some h
  | cons l ls ih =>
    have hrel := hstep l h
    unfold exec
    generalize step s l = o at hrel ⊢
    generalize step' t l = o' at hrel ⊢
    cases hrel with
    | some hnext => exact ih hnext
    | none => exact .none

/-- Where every counted label costs some of a potential and no label adds to it,
the potential bounds how many of them a run has. -/
theorem countP_add_le {I : σ → Prop} {c : σ → Nat} {p : ℓ → Bool}
    (hkeep : ∀ {s s' l}, I s → step s l = some s' → I s')
    (hcost : ∀ {s s' l}, I s → step s l = some s' → c s' + (p l).toNat ≤ c s)
    (hs : I s) {ls : List ℓ} (he : exec step s ls = some s') :
    ls.countP p + c s' ≤ c s := by
  induction ls generalizing s with
  | nil =>
    cases he
    exact Nat.le_of_eq (Nat.zero_add _)
  | cons l ls ih =>
    obtain ⟨t, ht, hrest⟩ := Option.bind_eq_some_iff.mp he
    have htail := ih (hkeep hs ht) hrest
    have hhead := hcost hs ht
    have hcount : (l :: ls).countP p = ls.countP p + (p l).toNat := by
      rw [List.countP_cons]
      cases p l <;> rfl
    omega

section Logged
variable {ε : Type v} {event : σ → ℓ → σ → List ε}

/-- The system together with the events that its steps have shown. -/
def logged (step : σ → ℓ → Option σ) (event : σ → ℓ → σ → List ε) (s : σ × List ε) (l : ℓ) :
    Option (σ × List ε) :=
  (step s.1 l).map fun s' => (s', s.2 ++ event s.1 l s')

theorem logged_step {s s' : σ × List ε} {l : ℓ} (h : logged step event s l = some s') :
    step s.1 l = some s'.1 ∧ s'.2 = s.2 ++ event s.1 l s'.1 := by
  obtain ⟨t, ht, rfl⟩ := Option.map_eq_some_iff.mp h
  exact ⟨ht, rfl⟩

theorem exec_unlogged {s s' : σ × List ε} {ls : List ℓ}
    (h : exec (logged step event) s ls = some s') : exec step s.1 ls = some s'.1 := by
  induction ls generalizing s with
  | nil =>
    cases h
    rfl
  | cons l ls ih =>
    obtain ⟨t, ht, hrest⟩ := Option.bind_eq_some_iff.mp h
    rw [exec, (logged_step ht).1]
    exact ih hrest

theorem Reached.unlogged {s : σ × List ε}
    (h : Reached (logged step event) (fun s => allowed s.1) (init, []) s) :
    Reached step allowed init s.1 := by
  induction h with
  | start => exact .start
  | next _ hl hs ih => exact .next ih hl (logged_step hs).1

theorem Reached.logged (h : Reached step allowed init s) (event : σ → ℓ → σ → List ε) :
    ∃ log, Reached (logged step event) (fun s => allowed s.1) (init, []) (s, log) := by
  induction h with
  | start => exact ⟨[], .start⟩
  | @next t t' l _ hl hs ih =>
    obtain ⟨log, hlog⟩ := ih
    refine ⟨log ++ event t l t', .next hlog hl ?_⟩
    simp only [Runs.logged, hs, Option.map_some]

end Logged

end Runs
