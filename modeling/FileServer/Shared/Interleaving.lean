import Mathlib.Data.Set.Basic
import Mathlib.Logic.Function.Basic
import FileServer.Shared.Runs

/-!
# Interleaved processes and their serial order

Processes share a memory, of which `view` shows the value at each location. A
process touches only its `foot`: its steps depend on nothing else and change
nothing else. If no process changes a location that another one running at the
same time touches, every interleaving ends like the serial execution in the
order in which the processes ended, with the same final local states.
-/

namespace Interleaving

open Runs
set_option autoImplicit false

universe u v w x y
variable {σ : Type u} {L : Type v} {V : Type w} {P : Type x} {ι : Type y}

structure Machine (σ : Type u) (L : Type v) (V : Type w) (P : Type x) where
  view : σ → L → V
  step : P → σ → P × σ
  done : P → Bool
  foot : P → Set L
  foot_step : ∀ p m, foot (step p m).1 = foot p
  frame : ∀ p m, ∀ l ∉ foot p, view (step p m).2 l = view m l
  congr : ∀ p m m', (∀ l ∈ foot p, view m l = view m' l) → (step p m).1 = (step p m').1 ∧
    ∀ l ∈ foot p, view (step p m).2 l = view (step p m').2 l

inductive Status (P : Type x) where
  | waiting
  | running (p : P)
  | ended (p : P)

/-- `changed i` collects the locations that process `i` has changed so far. -/
structure System (σ : Type u) (L : Type v) (P : Type x) (ι : Type y) where
  mem : σ
  status : ι → Status P
  order : List ι
  changed : ι → Set L

def System.start (m : σ) : System σ L P ι := ⟨m, fun _ => .waiting, [], fun _ => ∅⟩

inductive Label (ι : Type y) where
  | start (i : ι)
  | move (i : ι)
  deriving DecidableEq

namespace Machine
variable (M : Machine σ L V P)

/-- The locations at which one step of the process changes the memory. -/
def changes (p : P) (m : σ) : Set L := {l | M.view (M.step p m).2 l ≠ M.view m l}

/-- A process runs alone for some steps. -/
inductive Exec (p : P) (m : σ) : P → σ → Prop
  | refl : Exec p m p m
  | step {q : P} {n : σ} : Exec p m q n → M.done q = false →
      Exec p m (M.step q n).1 (M.step q n).2

def runToEnd : Nat → P → σ → Option (P × σ)
  | 0, p, m => if M.done p then some (p, m) else none
  | k + 1, p, m =>
    if M.done p then some (p, m) else runToEnd k (M.step p m).1 (M.step p m).2

/-- Each process in turn runs from its start to its end. -/
inductive Serial (init : ι → P) (m₀ : σ) : List (ι × P) → σ → Prop
  | nil : Serial init m₀ [] m₀
  | snoc {results : List (ι × P)} {m m' : σ} {i : ι} {p : P} : Serial init m₀ results m →
      M.Exec (init i) m p m' → M.done p = true → Serial init m₀ (results ++ [(i, p)]) m'

def sysStep [DecidableEq ι] (init : ι → P) (s : System σ L P ι) : Label ι → Option (System σ L P ι)
  | .start i =>
    match s.status i with
    | .waiting =>
      some { s with
        status := Function.update s.status i (.running (init i))
        changed := Function.update s.changed i ∅ }
    | _ => none
  | .move i =>
    match s.status i with
    | .running p =>
      if M.done p then
        some { s with status := Function.update s.status i (.ended p), order := s.order ++ [i] }
      else
        some { s with
          mem := (M.step p s.mem).2
          status := Function.update s.status i (.running (M.step p s.mem).1)
          changed := Function.update s.changed i (s.changed i ∪ M.changes p s.mem) }
    | _ => none

/-- No process starts while another runs that has changed what it touches, and
no step changes what another running process touches. -/
def Undisturbed (init : ι → P) (s : System σ L P ι) : Label ι → Prop
  | .start i => ∀ j q, s.status j = .running q → ∀ l ∈ s.changed j, l ∉ M.foot (init i)
  | .move i => ∀ p, s.status i = .running p → M.done p = false → ∀ j q, j ≠ i →
      s.status j = .running q → ∀ l ∈ M.changes p s.mem, l ∉ M.foot q

/-- What an allowed step does to the system. -/
inductive Moves [DecidableEq ι] (init : ι → P) (s : System σ L P ι) : System σ L P ι → Prop
  | start (i : ι) (hw : s.status i = .waiting)
      (hfree : ∀ j q, s.status j = .running q → ∀ l ∈ s.changed j, l ∉ M.foot (init i)) :
      Moves init s { s with
        status := Function.update s.status i (.running (init i))
        changed := Function.update s.changed i ∅ }
  | finish (i : ι) (p : P) (hp : s.status i = .running p) (hd : M.done p = true) :
      Moves init s { s with
        status := Function.update s.status i (.ended p)
        order := s.order ++ [i] }
  | work (i : ι) (p : P) (hp : s.status i = .running p) (hd : M.done p = false)
      (hfree : ∀ j q, j ≠ i → s.status j = .running q →
        ∀ l ∈ M.changes p s.mem, l ∉ M.foot q) :
      Moves init s { s with
        mem := (M.step p s.mem).2
        status := Function.update s.status i (.running (M.step p s.mem).1)
        changed := Function.update s.changed i (s.changed i ∪ M.changes p s.mem) }

variable {M}

theorem sysStep_moves [DecidableEq ι] {init : ι → P} {s s' : System σ L P ι} {l : Label ι}
    (hl : M.Undisturbed init s l) (h : M.sysStep init s l = some s') : M.Moves init s s' := by
  cases l with
  | start i =>
    simp only [sysStep] at h
    split at h
    · rename_i hw
      obtain rfl := Option.some.inj h
      exact .start i hw hl
    · contradiction
  | move i =>
    simp only [sysStep] at h
    split at h
    · rename_i p hp
      split at h
      · rename_i hd
        obtain rfl := Option.some.inj h
        exact .finish i p hp hd
      · rename_i hd
        obtain rfl := Option.some.inj h
        have hd' : M.done p = false := by simpa using hd
        exact .work i p hp hd' (hl p hp hd')
    · contradiction

section Locality
variable {p q : P} {m m' n : σ}

theorem changes_subset : M.changes p m ⊆ M.foot p := by
  intro l hl
  by_contra hfoot
  exact hl (M.frame p m l hfoot)

theorem Exec.foot_eq (h : M.Exec p m q n) : M.foot q = M.foot p := by
  induction h with
  | refl => rfl
  | step _ _ ih => exact (M.foot_step _ _).trans ih

theorem Exec.frame (h : M.Exec p m q n) {l : L} (hl : l ∉ M.foot p) : M.view n l = M.view m l := by
  induction h with
  | refl => rfl
  | step he _ ih =>
    refine (M.frame _ _ l ?_).trans ih
    rw [he.foot_eq]
    exact hl

theorem Exec.congr (h : M.Exec p m q n) (hagree : ∀ l ∈ M.foot p, M.view m l = M.view m' l) :
    ∃ n', M.Exec p m' q n' ∧ ∀ l ∈ M.foot p, M.view n l = M.view n' l := by
  induction h with
  | refl => exact ⟨m', .refl, hagree⟩
  | @step q n he hdone ih =>
    obtain ⟨n', he', hn⟩ := ih
    rw [← he.foot_eq] at hn ⊢
    obtain ⟨hp, hmem⟩ := M.congr q n n' hn
    refine ⟨(M.step q n').2, ?_, hmem⟩
    rw [hp]
    exact .step he' hdone

theorem runToEnd_of_done (h : M.done p = true) (k : Nat) : M.runToEnd k p m = some (p, m) := by
  cases k <;> simp [runToEnd, h]

theorem Exec.runToEnd (h : M.Exec p m q n) {r : P × σ} {k : Nat}
    (hr : M.runToEnd k p m = some r) : ∃ k', M.runToEnd k' q n = some r := by
  induction h with
  | refl => exact ⟨k, hr⟩
  | step _ hd ih =>
    obtain ⟨k', hk⟩ := ih
    cases k' with
    | zero => simp [Machine.runToEnd, hd] at hk
    | succ k' => exact ⟨k', by simpa [Machine.runToEnd, hd] using hk⟩

theorem Exec.end_unique (h : M.Exec p m q n) (hd : M.done q = true) {r : P × σ} {k : Nat}
    (hr : M.runToEnd k p m = some r) : (q, n) = r := by
  obtain ⟨k', hk⟩ := h.runToEnd hr
  rw [runToEnd_of_done hd] at hk
  exact Option.some.inj hk

theorem Exec.trans {r : P} {k : σ} (h₁ : M.Exec p m q n) (h₂ : M.Exec q n r k) : M.Exec p m r k := by
  induction h₂ with
  | refl => exact h₁
  | step _ hd ih => exact .step ih hd

theorem exec_of_runToEnd {k : Nat} (h : M.runToEnd k p m = some (q, n)) :
    M.Exec p m q n ∧ M.done q = true := by
  induction k generalizing p m with
  | zero =>
    rw [Machine.runToEnd] at h
    split at h
    · rename_i hd
      obtain ⟨rfl, rfl⟩ := Prod.mk.inj (Option.some.inj h)
      exact ⟨.refl, hd⟩
    · contradiction
  | succ k ih =>
    rw [Machine.runToEnd] at h
    split at h
    · rename_i hd
      obtain ⟨rfl, rfl⟩ := Prod.mk.inj (Option.some.inj h)
      exact ⟨.refl, hd⟩
    · rename_i hd
      obtain ⟨hexec, hdone⟩ := ih h
      exact ⟨(Exec.step .refl (Bool.eq_false_iff.mpr hd)).trans hexec, hdone⟩

theorem Exec.runToEnd_of_done (h : M.Exec p m q n) {r : P × σ} {k : Nat}
    (hr : M.runToEnd k q n = some r) : ∃ k', M.runToEnd k' p m = some r := by
  induction h generalizing k with
  | refl => exact ⟨k, hr⟩
  | step _ hd ih => exact ih (k := k + 1) (by simpa [Machine.runToEnd, hd] using hr)

theorem Exec.deterministic {q' : P} {n' : σ} (h : M.Exec p m q n) (hd : M.done q = true)
    (h' : M.Exec p m q' n') (hd' : M.done q' = true) : (q, n) = (q', n') := by
  obtain ⟨k, hk⟩ := h'.runToEnd_of_done (k := 0) (Machine.runToEnd_of_done hd' 0)
  exact h.end_unique hd hk

theorem Serial.mem_unique {init : ι → P} {m₀ : σ} {results : List (ι × P)}
    (h : M.Serial init m₀ results m) {k : Nat}
    (hr : (results.map Prod.fst).foldlM
      (fun m i => (M.runToEnd k (init i) m).map Prod.snd) m₀ = some m') : m = m' := by
  induction h generalizing m' with
  | nil => exact Option.some.inj hr
  | snoc _ he hd ih =>
    rw [List.map_append, List.foldlM_append] at hr
    obtain ⟨m₁, hfirst, hlast⟩ := Option.bind_eq_some_iff.mp hr
    obtain rfl := ih hfirst
    simp only [List.map_cons, List.map_nil, List.foldlM_cons, List.foldlM_nil] at hlast
    obtain ⟨m₂, hlast, heq⟩ := Option.bind_eq_some_iff.mp hlast
    obtain ⟨r, hrun, rfl⟩ := Option.map_eq_some_iff.mp hlast
    rw [← he.end_unique hd hrun] at heq
    exact Option.some.inj heq

end Locality

section Standing
variable {first p : P} {m m' mem mem' : σ} {changed : Set L}

/-- Alone from `m`, the process `first` would now be `p`, would see the memory
that it sees in `mem`, and would have changed no more than `changed`. -/
def Stands (first : P) (m : σ) (p : P) (mem : σ) (changed : Set L) : Prop :=
  ∃ n, M.Exec first m p n ∧ (∀ l ∈ M.foot p, M.view mem l = M.view n l) ∧
    ∀ l ∉ changed, M.view n l = M.view m l

theorem Stands.begin (h : ∀ l ∈ M.foot p, M.view mem l = M.view m l) : M.Stands p m p mem ∅ :=
  ⟨m, .refl, h, fun _ _ => rfl⟩

theorem Stands.step (h : M.Stands first m p mem changed) (hd : M.done p = false) :
    M.Stands first m (M.step p mem).1 (M.step p mem).2 (changed ∪ M.changes p mem) := by
  obtain ⟨n, hexec, hseen, hkept⟩ := h
  obtain ⟨hnext, hmem⟩ := M.congr p mem n hseen
  refine ⟨(M.step p n).2, ?_, ?_, ?_⟩
  · rw [hnext]
    exact .step hexec hd
  · intro l hl
    rw [M.foot_step] at hl
    exact hmem l hl
  · intro l hl
    rw [Set.mem_union, not_or] at hl
    by_cases hfoot : l ∈ M.foot p
    · have hsame : M.view (M.step p mem).2 l = M.view mem l := not_not.mp hl.2
      rw [← hmem l hfoot, hsame, hseen l hfoot]
      exact hkept l hl.1
    · rw [M.frame p n l hfoot]
      exact hkept l hl.1

theorem Stands.frame (h : M.Stands first m p mem changed)
    (hsame : ∀ l ∈ M.foot p, M.view mem' l = M.view mem l) :
    M.Stands first m p mem' changed := by
  obtain ⟨n, hexec, hseen, hkept⟩ := h
  refine ⟨n, hexec, ?_, hkept⟩
  intro l hl
  rw [hsame l hl]
  exact hseen l hl

theorem Stands.rebase (h : M.Stands first m p mem changed)
    (hsame : ∀ l ∈ M.foot p, M.view m l = M.view m' l) : M.Stands first m' p mem changed := by
  obtain ⟨n, hexec, hseen, hkept⟩ := h
  have hfoot := hexec.foot_eq
  rw [hfoot] at hseen hsame
  obtain ⟨n', hexec', hagree⟩ := hexec.congr hsame
  refine ⟨n', hexec', ?_, ?_⟩
  · intro l hl
    rw [hfoot] at hl
    rw [hseen l hl]
    exact hagree l hl
  · intro l hl
    by_cases hmem : l ∈ M.foot first
    · rw [← hagree l hmem, hkept l hl]
      exact hsame l hmem
    · exact hexec'.frame hmem

end Standing

/-- `m` is the memory after the ended processes, one after the other, and every
running process stands where it would stand had it run alone from `m`. -/
structure Ordered (init : ι → P) (m₀ : σ) (s : System σ L P ι) (results : List (ι × P))
    (m : σ) : Prop where
  serial : M.Serial init m₀ results m
  names : results.map Prod.fst = s.order
  ended : ∀ i p, s.status i = .ended p ↔ (i, p) ∈ results
  settled : ∀ l, (∀ i p, s.status i = .running p → l ∉ s.changed i) →
    M.view s.mem l = M.view m l
  within : ∀ i p, s.status i = .running p → s.changed i ⊆ M.foot p
  apart : ∀ i j p q, i ≠ j → s.status i = .running p → s.status j = .running q →
    ∀ l ∈ s.changed i, l ∉ M.foot q
  alone : ∀ i p, s.status i = .running p → M.Stands (init i) m p s.mem (s.changed i)

section Steps
variable [DecidableEq ι] {init : ι → P} {m₀ m : σ} {s : System σ L P ι} {results : List (ι × P)}
  {i j : ι} {p q : P}

theorem running_update {status : ι → Status P}
    (h : Function.update status i (.running p) j = .running q) :
    (j = i ∧ p = q) ∨ (j ≠ i ∧ status j = .running q) := by
  rcases eq_or_ne j i with rfl | hne
  · rw [Function.update_self] at h
    exact Or.inl ⟨rfl, Status.running.inj h⟩
  · rw [Function.update_of_ne hne] at h
    exact Or.inr ⟨hne, h⟩

theorem running_update_ended {status : ι → Status P}
    (h : Function.update status i (.ended p) j = .running q) : j ≠ i ∧ status j = .running q := by
  rcases eq_or_ne j i with rfl | hne
  · rw [Function.update_self] at h
    contradiction
  · rw [Function.update_of_ne hne] at h
    exact ⟨hne, h⟩

theorem ordered_start (ho : M.Ordered init m₀ s results m) (hw : s.status i = .waiting)
    (hfree : ∀ j q, s.status j = .running q → ∀ l ∈ s.changed j, l ∉ M.foot (init i)) :
    M.Ordered init m₀ { s with
      status := Function.update s.status i (.running (init i))
      changed := Function.update s.changed i ∅ } results m where
  serial := ho.serial
  names := ho.names
  ended j q := by
    rcases eq_or_ne j i with rfl | hne
    · simp [← ho.ended, hw]
    · simp [Function.update_of_ne hne, ho.ended]
  settled l hl := by
    apply ho.settled
    intro j q hj
    have hne : j ≠ i := by
      rintro rfl
      simp [hw] at hj
    simpa [Function.update_of_ne hne] using hl j q (by simpa [Function.update_of_ne hne] using hj)
  within j q hj := by
    rcases running_update hj with ⟨rfl, rfl⟩ | ⟨hne, hj⟩
    · simp
    · simpa [Function.update_of_ne hne] using ho.within j q hj
  apart j k q r hjk hj hk := by
    rcases running_update hj with ⟨rfl, rfl⟩ | ⟨hne, hrunning⟩
    · simp
    · simp only [Function.update_of_ne hne]
      rcases running_update hk with ⟨rfl, rfl⟩ | ⟨_, hk⟩
      · exact hfree j q hrunning
      · exact ho.apart j k q r hjk hrunning hk
  alone j q hj := by
    rcases running_update hj with ⟨rfl, rfl⟩ | ⟨hne, hj⟩
    · simp only [Function.update_self]
      apply Stands.begin
      intro l hl
      apply ho.settled
      intro k r hk hmem
      exact hfree k r hk l hmem hl
    · simpa [Function.update_of_ne hne] using ho.alone j q hj

theorem ordered_finish (ho : M.Ordered init m₀ s results m) (hp : s.status i = .running p)
    (hd : M.done p = true) :
    ∃ n, M.Ordered init m₀ { s with
      status := Function.update s.status i (.ended p)
      order := s.order ++ [i] } (results ++ [(i, p)]) n := by
  obtain ⟨n, hexec, hseen, hkept⟩ := ho.alone i p hp
  refine ⟨n, .snoc ho.serial hexec hd, ?_, ?_, ?_, ?_, ?_, ?_⟩
  · simp [ho.names]
  · intro j q
    rcases eq_or_ne j i with rfl | hne
    · have hnot : (j, q) ∉ results := by simp [← ho.ended, hp]
      simp [hnot, eq_comm]
    · simp [ho.ended, hne]
  · intro l hl
    by_cases hchanged : l ∈ s.changed i
    · exact hseen l (ho.within i p hp hchanged)
    · rw [hkept l hchanged]
      apply ho.settled
      intro j q hj
      rcases eq_or_ne j i with rfl | hne
      · exact hchanged
      · exact hl j q (by simpa [Function.update_of_ne hne] using hj)
  · intro j q hj
    exact ho.within j q (running_update_ended hj).2
  · intro j k q r hjk hj hk
    exact ho.apart j k q r hjk (running_update_ended hj).2 (running_update_ended hk).2
  · intro j q hj
    obtain ⟨hne, hj⟩ := running_update_ended hj
    apply (ho.alone j q hj).rebase
    intro l hl
    refine (hkept l ?_).symm
    intro hchanged
    exact ho.apart i j p q hne.symm hp hj l hchanged hl

theorem ordered_work (ho : M.Ordered init m₀ s results m) (hp : s.status i = .running p)
    (hd : M.done p = false)
    (hfree : ∀ j q, j ≠ i → s.status j = .running q → ∀ l ∈ M.changes p s.mem, l ∉ M.foot q) :
    M.Ordered init m₀ { s with
      mem := (M.step p s.mem).2
      status := Function.update s.status i (.running (M.step p s.mem).1)
      changed := Function.update s.changed i (s.changed i ∪ M.changes p s.mem) } results m where
  serial := ho.serial
  names := ho.names
  ended j q := by
    rcases eq_or_ne j i with rfl | hne
    · simp [← ho.ended, hp]
    · simp [Function.update_of_ne hne, ho.ended]
  settled l hl := by
    have hi : l ∉ s.changed i ∪ M.changes p s.mem := by
      simpa using hl i _ (Function.update_self _ _ _)
    rw [Set.mem_union, not_or] at hi
    refine (not_not.mp hi.2).trans (ho.settled l ?_)
    intro j q hj
    rcases eq_or_ne j i with rfl | hne
    · exact hi.1
    · simpa [Function.update_of_ne hne] using
        hl j q (by simpa [Function.update_of_ne hne] using hj)
  within j q hj := by
    rcases running_update hj with ⟨rfl, rfl⟩ | ⟨hne, hj⟩
    · simp only [Function.update_self, M.foot_step]
      exact Set.union_subset (ho.within j p hp) changes_subset
    · simpa [Function.update_of_ne hne] using ho.within j q hj
  apart j k q r hjk hj hk := by
    rcases running_update hj with ⟨rfl, rfl⟩ | ⟨hne, hrunning⟩
    · simp only [Function.update_self]
      rcases running_update hk with ⟨rfl, _⟩ | ⟨_, hk⟩
      · contradiction
      · rintro l (hold | hnew)
        · exact ho.apart j k p r hjk hp hk l hold
        · exact hfree k r hjk.symm hk l hnew
    · simp only [Function.update_of_ne hne]
      rcases running_update hk with ⟨rfl, rfl⟩ | ⟨_, hk⟩
      · rw [M.foot_step]
        exact ho.apart j k q p hjk hrunning hp
      · exact ho.apart j k q r hjk hrunning hk
  alone j q hj := by
    rcases running_update hj with ⟨rfl, rfl⟩ | ⟨hne, hj⟩
    · simp only [Function.update_self]
      exact (ho.alone j p hp).step hd
    · simp only [Function.update_of_ne hne]
      apply (ho.alone j q hj).frame
      intro l hl
      by_contra hchange
      exact hfree j q hne hj l hchange hl

theorem Moves.ordered {s' : System σ L P ι} (h : M.Moves init s s')
    (ho : ∃ results m, M.Ordered init m₀ s results m) :
    ∃ results m, M.Ordered init m₀ s' results m := by
  obtain ⟨results, m, ho⟩ := ho
  cases h with
  | start i hw hfree => exact ⟨results, m, ordered_start ho hw hfree⟩
  | finish i p hp hd => exact ⟨_, ordered_finish ho hp hd⟩
  | work i p hp hd hfree => exact ⟨results, m, ordered_work ho hp hd hfree⟩

omit [DecidableEq ι] in
theorem ordered_init : M.Ordered init m₀ (System.start m₀) [] m₀ where
  serial := .nil
  names := rfl
  ended := by simp [System.start]
  settled _ _ := rfl
  within := by simp [System.start]
  apart := by simp [System.start]
  alone := by simp [System.start]

theorem ordered_of_reached
    (h : Reached (M.sysStep init) (M.Undisturbed init) (System.start m₀) s) :
    ∃ results m, M.Ordered init m₀ s results m := by
  apply h.invariant
  · exact ⟨[], m₀, ordered_init⟩
  · intro s s' l _ ho hl hs
    exact (sysStep_moves hl hs).ordered ho

end Steps

section Owners
variable (M) (init : ι → P) (owns : ι → Set L)

/-- A process starts only while none runs that owns what it touches, or touches what it owns. -/
def StartsApart (s : System σ L P ι) : Label ι → Prop
  | .start i => ∀ j q, s.status j = .running q →
      (∀ l ∈ owns i, l ∉ M.foot (init j)) ∧ ∀ l ∈ owns j, l ∉ M.foot (init i)
  | .move _ => True

/-- The processes that run are as `K` says, have changed only what they own, and own nothing
that another one touches. -/
structure Owning (J : σ → Prop) (K : ι → P → Prop) (s : System σ L P ι) : Prop where
  mem : J s.mem
  running : ∀ i p, s.status i = .running p → K i p ∧ M.foot p = M.foot (init i)
  changed : ∀ i p, s.status i = .running p → s.changed i ⊆ owns i
  apart : ∀ i j p q, i ≠ j → s.status i = .running p → s.status j = .running q →
    ∀ l ∈ owns i, l ∉ M.foot (init j)

end Owners

section Owners
variable {init : ι → P} {owns : ι → Set L} {J : σ → Prop} {K : ι → P → Prop}
  {s s' : System σ L P ι} {l : Label ι} {m₀ : σ}

theorem Owning.undisturbed (h : M.Owning init owns J K s)
    (hstep : ∀ i p m, J m → K i p → M.done p = false →
      J (M.step p m).2 ∧ K i (M.step p m).1 ∧ M.changes p m ⊆ owns i)
    (hl : M.StartsApart init owns s l) : M.Undisturbed init s l := by
  cases l with
  | start i =>
    intro j q hq k hk
    exact (hl j q hq).2 k (h.changed j q hq hk)
  | move i =>
    intro p hp hd j q hne hq k hk
    rw [(h.running j q hq).2]
    exact h.apart i j p q hne.symm hp hq k ((hstep i p s.mem h.mem (h.running i p hp).1 hd).2.2 hk)

variable [DecidableEq ι]

theorem Owning.start {i : ι} (h : M.Owning init owns J K s) (hinit : K i (init i))
    (hapart : M.StartsApart init owns s (.start i)) :
    M.Owning init owns J K { s with
      status := Function.update s.status i (.running (init i))
      changed := Function.update s.changed i ∅ } where
  mem := h.mem
  running j q hj := by
    rcases running_update hj with ⟨rfl, rfl⟩ | ⟨-, hj⟩
    · exact ⟨hinit, rfl⟩
    · exact h.running j q hj
  changed j q hj := by
    rcases running_update hj with ⟨rfl, rfl⟩ | ⟨hne, hj⟩
    · simp
    · simpa [Function.update_of_ne hne] using h.changed j q hj
  apart j k q r hjk hj hk := by
    rcases running_update hj with ⟨rfl, rfl⟩ | ⟨-, hold⟩
    · rcases running_update hk with ⟨rfl, -⟩ | ⟨-, hk⟩
      · contradiction
      · exact (hapart k r hk).1
    · rcases running_update hk with ⟨rfl, rfl⟩ | ⟨-, hk⟩
      · exact (hapart j q hold).2
      · exact h.apart j k q r hjk hold hk

theorem Owning.finish {i : ι} {p : P} (h : M.Owning init owns J K s) :
    M.Owning init owns J K { s with
      status := Function.update s.status i (.ended p)
      order := s.order ++ [i] } where
  mem := h.mem
  running j q hj := h.running j q (running_update_ended hj).2
  changed j q hj := h.changed j q (running_update_ended hj).2
  apart j k q r hjk hj hk :=
    h.apart j k q r hjk (running_update_ended hj).2 (running_update_ended hk).2

theorem Owning.work {i : ι} {p : P} (h : M.Owning init owns J K s) (hp : s.status i = .running p)
    (hstep : J (M.step p s.mem).2 ∧ K i (M.step p s.mem).1 ∧ M.changes p s.mem ⊆ owns i) :
    M.Owning init owns J K { s with
      mem := (M.step p s.mem).2
      status := Function.update s.status i (.running (M.step p s.mem).1)
      changed := Function.update s.changed i (s.changed i ∪ M.changes p s.mem) } where
  mem := hstep.1
  running j q hj := by
    rcases running_update hj with ⟨rfl, rfl⟩ | ⟨-, hj⟩
    · exact ⟨hstep.2.1, (M.foot_step _ _).trans (h.running j p hp).2⟩
    · exact h.running j q hj
  changed j q hj := by
    rcases running_update hj with ⟨rfl, rfl⟩ | ⟨hne, hj⟩
    · simpa using ⟨h.changed j p hp, hstep.2.2⟩
    · simpa [Function.update_of_ne hne] using h.changed j q hj
  apart j k q r hjk hj hk := by
    rcases running_update hj with ⟨rfl, -⟩ | ⟨-, hold⟩
    · rcases running_update hk with ⟨rfl, -⟩ | ⟨-, hk⟩
      · contradiction
      · exact h.apart j k p r hjk hp hk
    · rcases running_update hk with ⟨rfl, -⟩ | ⟨-, hk⟩
      · exact h.apart j k q p hjk hold hp
      · exact h.apart j k q r hjk hold hk

theorem undisturbed_of_apart (hinit : ∀ i, K i (init i)) (hmem : J m₀)
    (hstep : ∀ i p m, J m → K i p → M.done p = false →
      J (M.step p m).2 ∧ K i (M.step p m).1 ∧ M.changes p m ⊆ owns i)
    (h : Reached (M.sysStep init) (M.StartsApart init owns) (System.start m₀) s) :
    M.Owning init owns J K s ∧
      Reached (M.sysStep init) (M.Undisturbed init) (System.start m₀) s := by
  apply h.invariant
  · refine ⟨⟨hmem, ?_, ?_, ?_⟩, .start⟩
    · simp [System.start]
    · simp [System.start]
    · simp [System.start]
  · rintro s s' l - ⟨howning, hreached⟩ hl hs
    refine ⟨?_, .next hreached (howning.undisturbed hstep hl) hs⟩
    cases l with
    | start i =>
      simp only [sysStep] at hs
      split at hs
      · obtain rfl := Option.some.inj hs
        exact howning.start (hinit i) hl
      · contradiction
    | move i =>
      simp only [sysStep] at hs
      split at hs
      · rename_i p hp
        split at hs
        · obtain rfl := Option.some.inj hs
          exact howning.finish
        · rename_i hd
          obtain rfl := Option.some.inj hs
          have hd' : M.done p = false := by simpa using hd
          exact howning.work hp (hstep i p s.mem howning.mem (howning.running i p hp).1 hd')
      · contradiction

end Owners

section Narrow
variable (M) (foot : P → Set L) (hfoot : ∀ p m, foot (M.step p m).1 = foot p)
  (hframe : ∀ p m, ∀ l ∉ foot p, M.view (M.step p m).2 l = M.view m l)
  (hcongr : ∀ p m m', (∀ l ∈ foot p, M.view m l = M.view m' l) →
    (M.step p m).1 = (M.step p m').1 ∧
      ∀ l ∈ foot p, M.view (M.step p m).2 l = M.view (M.step p m').2 l)

/-- The same processes, known to touch less. -/
def narrow : Machine σ L V P where
  view := M.view
  step := M.step
  done := M.done
  foot := foot
  foot_step := hfoot
  frame := hframe
  congr := hcongr

theorem Exec.of_narrow {p q : P} {m n : σ} (h : (M.narrow foot hfoot hframe hcongr).Exec p m q n) :
    M.Exec p m q n := by
  induction h with
  | refl => exact .refl
  | step _ hd ih => exact ih.step hd

end Narrow

end Machine

end Interleaving
