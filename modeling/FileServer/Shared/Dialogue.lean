import Mathlib.Data.List.Basic

/-!
# Programs that ask their environment

A program is at a stage; at each stage it makes one request or has ended, and the
answer leads to the next stage. The environment answers in a world of its own and
may go wrong at any request in a way that a fault describes. The trace of a run
keeps each request's stage, fault and answer.
-/

namespace Dialogue

set_option autoImplicit false

universe u v w x y
variable {σ : Type u} {ρ : Type v} {α : Type w} {ω : Type x} {φ : Type y}

structure Program (σ : Type u) (ρ : Type v) (α : Type w) where
  request : σ → Option ρ
  resume : α → σ → σ

structure Event (σ : Type u) (α : Type w) (φ : Type y) where
  stage : σ
  fault : φ
  answer : α

/-- `faults n` is what goes wrong at the request after `n` others. -/
inductive Run (P : Program σ ρ α) (ask : φ → ω → ρ → α × ω) (faults : Nat → φ) (start : σ)
    (world : ω) : List (Event σ α φ) → σ → ω → Prop
  | nil : Run P ask faults start world [] start world
  | call {trace : List (Event σ α φ)} {s : σ} {m : ω} {r : ρ} :
      Run P ask faults start world trace s m → P.request s = some r →
      Run P ask faults start world
        (trace ++ [⟨s, faults trace.length, (ask (faults trace.length) m r).1⟩])
        (P.resume (ask (faults trace.length) m r).1 s) (ask (faults trace.length) m r).2

/-- The first `n` requests of the run, if the program makes so many. -/
def Program.steps (P : Program σ ρ α) (ask : φ → ω → ρ → α × ω) (faults : Nat → φ) (start : σ)
    (world : ω) : Nat → Option (List (Event σ α φ) × σ × ω)
  | 0 => some ([], start, world)
  | n + 1 =>
    (P.steps ask faults start world n).bind fun t =>
      (P.request t.2.1).map fun r =>
        let out := ask (faults t.1.length) t.2.2 r
        (t.1 ++ [⟨t.2.1, faults t.1.length, out.1⟩], P.resume out.1 t.2.1, out.2)

/-- Nothing went wrong. -/
def NoFault (trace : List (Event σ α (Option φ))) : Prop := ∀ e ∈ trace, e.fault = none

theorem noFault_append (trace : List (Event σ α (Option φ))) (e : Event σ α (Option φ)) :
    NoFault (trace ++ [e]) ↔ NoFault trace ∧ e.fault = none := by
  unfold NoFault
  rw [List.forall_mem_append, List.forall_mem_singleton]

section Rules
variable {P : Program σ ρ α} {ask : φ → ω → ρ → α × ω} {faults : Nat → φ} {start : σ}
  {world : ω} {trace : List (Event σ α φ)} {s : σ} {m : ω}

theorem Run.invariant {I : List (Event σ α φ) → σ → ω → Prop}
    (h : Run P ask faults start world trace s m) (h0 : I [] start world)
    (hcall : ∀ trace s m r fault, I trace s m → P.request s = some r →
      I (trace ++ [⟨s, fault, (ask fault m r).1⟩]) (P.resume (ask fault m r).1 s)
        (ask fault m r).2) :
    I trace s m := by
  induction h with
  | nil => exact h0
  | call _ hr ih => exact hcall _ _ _ _ _ ih hr

theorem Run.planned {I : σ → ω → Prop} (h : Run P ask faults start world trace s m)
    (h0 : I start world)
    (hcall : ∀ n s m r, I s m → P.request s = some r →
      I (P.resume (ask (faults n) m r).1 s) (ask (faults n) m r).2) : I s m := by
  induction h with
  | nil => exact h0
  | call _ hr ih => exact hcall _ _ _ _ ih hr

theorem Run.of_steps {n : Nat} (h : P.steps ask faults start world n = some (trace, s, m)) :
    Run P ask faults start world trace s m := by
  induction n generalizing trace s m with
  | zero =>
    cases h
    exact .nil
  | succ n ih =>
    obtain ⟨⟨trace', s', m'⟩, hsteps, hnext⟩ := Option.bind_eq_some_iff.mp h
    obtain ⟨r, hr, heq⟩ := Option.map_eq_some_iff.mp hnext
    cases heq
    exact .call (ih hsteps) hr

theorem Run.steps_eq (h : Run P ask faults start world trace s m) :
    P.steps ask faults start world trace.length = some (trace, s, m) := by
  induction h with
  | nil => rfl
  | @call trace s m r hbefore hr ih =>
    rw [List.length_append, List.length_singleton, Program.steps, ih]
    simp only [Option.bind_some, hr, Option.map_some]

theorem Run.unique {trace' : List (Event σ α φ)} {s' : σ} {m' : ω}
    (h : Run P ask faults start world trace s m) (h' : Run P ask faults start world trace' s' m')
    (hlength : trace.length = trace'.length) : s = s' ∧ m = m' := by
  have heq := h.steps_eq
  rw [hlength, h'.steps_eq] at heq
  obtain ⟨-, hrest⟩ := Prod.mk.inj (Option.some.inj heq)
  obtain ⟨rfl, rfl⟩ := Prod.mk.inj hrest
  exact ⟨rfl, rfl⟩

theorem Run.mem_fault (h : Run P ask faults start world trace s m) :
    ∀ e ∈ trace, ∃ n, e.fault = faults n := by
  induction h with
  | nil => simp
  | call _ _ ih =>
    intro e he
    rcases List.mem_append.mp he with hold | hnew
    · exact ih e hold
    · obtain rfl := List.mem_singleton.mp hnew
      exact ⟨_, rfl⟩

theorem Run.noFault {ψ : Type y} {ask : Option ψ → ω → ρ → α × ω}
    {trace : List (Event σ α (Option ψ))}
    (h : Run P ask (fun _ => none) start world trace s m) : NoFault trace := by
  intro e he
  obtain ⟨n, hn⟩ := h.mem_fault e he
  exact hn

theorem Run.ends (h : Run P ask faults start world trace s m) (size : σ → Nat)
    (hless : ∀ trace s m r, Run P ask faults start world trace s m → P.request s = some r →
      size (P.resume (ask (faults trace.length) m r).1 s) < size s) :
    ∃ trace' s' m', Run P ask faults start world trace' s' m' ∧ P.request s' = none := by
  induction hsize : size s using Nat.strongRecOn generalizing trace s m with
  | ind k ih =>
    cases hr : P.request s with
    | none => exact ⟨trace, s, m, h, hr⟩
    | some r =>
      have hlt := hless trace s m r h hr
      rw [hsize] at hlt
      exact ih _ hlt (.call h hr) rfl

end Rules

end Dialogue
