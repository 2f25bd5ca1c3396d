import FileServer.Types
import FileServer.Shared.ArrayHeap

/-!
# The generic priority queue (queue.c)

One `Queue` of untyped items serves tasks, connections, response entries and
responses, and every comparison goes to `task_compare_priority`. The comparator
is therefore a parameter with effects in a monad: `Id` where it is total,
`Option` where it is undefined off tasks. Both sift loops end for every
comparator, which their definitions as terminating recursions record.

`items` holds the live cells `items[0..size)`. Each operation is one critical
section of `q->mutex`; the argument `grows` says whether a `realloc` made in
that section succeeds.
-/

namespace FileServer

set_option autoImplicit false

structure PriorityItem (α : Type) where
  data : α
  priority : TaskPriority
  deriving DecidableEq, Repr

structure Queue (α : Type) where
  size : Nat
  items : Vector (PriorityItem α) size
  capacity : Nat
  closed : Bool
  fits : size ≤ capacity

theorem Queue.pred_fits {α : Type} (q : Queue α) : q.size - 1 ≤ q.capacity :=
  Nat.le_trans (Nat.sub_le _ _) q.fits

/-- What a `queue_pop` call does: it sleeps on `not_empty`, returns `NULL`,
or returns an item. -/
inductive Popped (α : Type) where
  | blocked
  | null
  | item (data : α)
  deriving DecidableEq, Repr

section Model
variable {m : Type → Type} [Monad m] {α : Type} {n : Nat}

def heapifyUp (cmp : α → α → m Int) (items : Vector (PriorityItem α) n) (index : Nat)
    (h : index < n) : m (Vector (PriorityItem α) n) :=
  if h0 : 0 < index then do
    let parent := (index - 1) / 2
    have hp : parent < n := by omega
    let c ← cmp items[parent].data items[index].data
    if c ≥ 0 then pure items
    else heapifyUp cmp (items.swap parent index) parent hp
  else pure items
termination_by index

/-- One `if (child < q->size)` test of `heapify_down`: the child replaces
`largest` when it compares greater. -/
def larger (cmp : α → α → m Int) (items : Vector (PriorityItem α) n) (index child : Nat)
    (hc : index < child) (largest : {j : Fin n // index ≤ j.val}) :
    m {j : Fin n // index ≤ j.val} :=
  if h : child < n then do
    let c ← cmp items[child].data (items.get largest.val).data
    pure (if c > 0 then ⟨⟨child, h⟩, Nat.le_of_lt hc⟩ else largest)
  else pure largest

def heapifyDown (cmp : α → α → m Int) (items : Vector (PriorityItem α) n) (index : Fin n) :
    m (Vector (PriorityItem α) n) := do
  let largest ← larger cmp items index (2 * index + 1) (by omega) ⟨index, Nat.le_refl _⟩
  let largest ← larger cmp items index (2 * index + 2) (by omega) largest
  if h : largest.val = index then pure items
  else heapifyDown cmp (items.swap index largest.val) largest.val
termination_by n - index.val
decreasing_by
  have hne : largest.val.val ≠ index.val := fun he => h (Fin.ext he)
  exact Nat.sub_lt_sub_left index.isLt (Nat.lt_of_le_of_ne largest.property hne.symm)

def queueInit : Queue α where
  size := 0
  items := #v[]
  capacity := 0
  closed := false
  fits := Nat.le_refl 0

def queueClose (q : Queue α) : Queue α := { q with closed := true }

/-- The capacity after the resize test of `queue_push`, `none` when `realloc` fails. -/
def resize (grows : Bool) (q : Queue α) : Option Nat :=
  if q.size ≥ q.capacity then
    let newCapacity := if q.capacity = 0 then 16 else q.capacity * 2
    if grows then some newCapacity else none
  else some q.capacity

theorem size_lt_of_resize {grows : Bool} {q : Queue α} {c : Nat} (h : resize grows q = some c) :
    q.size + 1 ≤ c := by
  have hf := q.fits
  unfold resize at h
  split at h
  · dsimp only at h
    split at h
    · cases h
      split <;> omega
    · contradiction
  · cases h
    omega

def queuePush (cmp : α → α → m Int) (grows : Bool) (q : Queue α) (item : α)
    (priority : TaskPriority) : m (Bool × Queue α) :=
  if q.closed then pure (false, q)
  else
    match hr : resize grows q with
    | none => pure (false, q)
    | some capacity => do
      let items ← heapifyUp cmp (q.items.push ⟨item, priority⟩) q.size (Nat.lt_succ_self _)
      pure (true, ⟨q.size + 1, items, capacity, q.closed, size_lt_of_resize hr⟩)

def queuePop (cmp : α → α → m Int) (q : Queue α) : m (Popped α × Queue α) :=
  if h : q.size = 0 then pure (if q.closed then .null else .blocked, q)
  else do
    have hs : 0 < q.size := Nat.pos_of_ne_zero h
    let data := q.items[0].data
    let items := (q.items.set 0 q.items[q.size - 1]).pop
    if h1 : 0 < q.size - 1 then do
      let items ← heapifyDown cmp items ⟨0, h1⟩
      pure (.item data, ⟨q.size - 1, items, q.capacity, q.closed, q.pred_fits⟩)
    else pure (.item data, ⟨q.size - 1, items, q.capacity, q.closed, q.pred_fits⟩)

def Queue.contents (q : Queue α) : List α := q.items.toList.map PriorityItem.data

end Model

@[simp] theorem contents_queueInit (α : Type) : (queueInit : Queue α).contents = [] := rfl

@[simp] theorem contents_queueClose {α : Type} (q : Queue α) :
    (queueClose q).contents = q.contents := rfl

@[simp] theorem length_contents {α : Type} (q : Queue α) : q.contents.length = q.size := by
  simp [Queue.contents]

section Total
variable {α : Type} {n : Nat} (cmp : α → α → Int)

theorem heapifyUp_eq (items : Vector (PriorityItem α) n) (i : Nat) (h : i < n) :
    heapifyUp (m := Id) cmp items i h =
      if h0 : 0 < i then
        if cmp (items.get ⟨(i - 1) / 2, by omega⟩).data (items.get ⟨i, h⟩).data ≥ 0 then items
        else heapifyUp (m := Id) cmp (items.swap ((i - 1) / 2) i) ((i - 1) / 2) (by omega)
      else items := by
  rw [heapifyUp]
  rfl

theorem heapifyUp_perm (items : Vector (PriorityItem α) n) (i : Nat) (h : i < n) :
    Vector.Perm (heapifyUp (m := Id) cmp items i h) items := by
  induction items, i, h using heapifyUp.induct with
  | case1 items i h h0 parent hp ih =>
    rw [heapifyUp_eq, dif_pos h0]
    split
    · exact .rfl
    · exact ih.trans (Vector.swap_perm _ _)
  | case2 items i h h0 =>
    rw [heapifyUp_eq, dif_neg h0]

theorem heapifyDown_cases (items : Vector (PriorityItem α) n) (i : Fin n) :
    ∃ l₁ l₂ : {j : Fin n // i.val ≤ j.val},
      l₁ = larger (m := Id) cmp items i (2 * i + 1) (by omega) ⟨i, Nat.le_refl _⟩ ∧
      l₂ = larger (m := Id) cmp items i (2 * i + 2) (by omega) l₁ ∧
      heapifyDown (m := Id) cmp items i =
        if l₂.val = i then items else heapifyDown (m := Id) cmp (items.swap i l₂.val) l₂.val := by
  let l₁ : {j : Fin n // i.val ≤ j.val} :=
    larger (m := Id) cmp items i (2 * i + 1) (by omega) ⟨i, Nat.le_refl _⟩
  refine ⟨l₁, larger (m := Id) cmp items i (2 * i + 2) (by omega) l₁, rfl, rfl, ?_⟩
  rw [heapifyDown]
  rfl

theorem heapifyDown_perm (items : Vector (PriorityItem α) n) (i : Fin n) :
    Vector.Perm (heapifyDown (m := Id) cmp items i) items := by
  induction items, i using heapifyDown.induct with
  | case1 items i ih =>
    obtain ⟨l₁, l₂, -, -, heq⟩ := heapifyDown_cases cmp items i
    rw [heq]
    split
    · exact .rfl
    · rename_i hne
      exact (ih l₁ l₂ hne).trans (Vector.swap_perm _ _)

/-- `queue_push` either refuses and changes nothing or adds exactly its item. -/
theorem queuePush_cases (grows : Bool) (q : Queue α) (item : α) (p : TaskPriority) :
    (Id.run (queuePush cmp grows q item p) = (false, q) ∧ (q.closed = true ∨ grows = false)) ∨
    ∃ q', Id.run (queuePush cmp grows q item p) = (true, q') ∧ q.closed = false ∧
      q'.closed = false ∧ q'.contents.Perm (item :: q.contents) := by
  unfold queuePush
  split
  · rename_i hc
    exact Or.inl ⟨rfl, Or.inl hc⟩
  · rename_i hc
    have hc' : q.closed = false := by simpa using hc
    split
    · rename_i hr
      refine Or.inl ⟨rfl, Or.inr ?_⟩
      unfold resize at hr
      split at hr
      · dsimp only at hr
        split at hr
        · contradiction
        · rename_i hg
          simpa using hg
      · contradiction
    · refine Or.inr ⟨_, rfl, hc', hc', ?_⟩
      have hp := (heapifyUp_perm cmp (q.items.push ⟨item, p⟩) q.size (Nat.lt_succ_self _)).toList
      have hm := hp.map PriorityItem.data
      rw [Vector.toList_push, List.map_append] at hm
      exact hm.trans (List.perm_append_comm)

theorem queuePush_closed {q : Queue α} (h : q.closed = true) (grows : Bool) (item : α)
    (p : TaskPriority) : Id.run (queuePush cmp grows q item p) = (false, q) := by
  unfold queuePush
  rw [if_pos h]
  rfl

theorem eq_of_run {β : Type} {x : Id β} {b : β} (h : Id.run x = b) : x = pure b := h

/-- `queue_pop` sleeps or returns `NULL` only on an empty queue, and otherwise
takes exactly one item out. -/
theorem queuePop_cases (q : Queue α) :
    (Id.run (queuePop cmp q) = (.blocked, q) ∧ q.contents = [] ∧ q.closed = false) ∨
    (Id.run (queuePop cmp q) = (.null, q) ∧ q.contents = [] ∧ q.closed = true) ∨
    ∃ a q', Id.run (queuePop cmp q) = (.item a, q') ∧ q'.closed = q.closed ∧
      (a :: q'.contents).Perm q.contents := by
  unfold queuePop
  split
  · rename_i hz
    have hnil : q.contents = [] := List.eq_nil_of_length_eq_zero (by simpa using hz)
    cases hc : q.closed with
    | false => exact Or.inl ⟨rfl, hnil, rfl⟩
    | true => exact Or.inr (Or.inl ⟨rfl, hnil, rfl⟩)
  · rename_i hz
    have hs : 0 < q.size := Nat.pos_of_ne_zero hz
    have hrem := (ArrayHeap.set_pop_perm q.items hs).map PriorityItem.data
    apply Or.inr ∘ Or.inr
    dsimp only
    split
    · rename_i h1
      refine ⟨_, _, rfl, rfl, ?_⟩
      have hp := (heapifyDown_perm cmp (q.items.set 0 q.items[q.size - 1]).pop ⟨0, h1⟩).toList
      exact ((hp.map PriorityItem.data).cons _).trans hrem
    · exact ⟨_, _, rfl, rfl, hrem⟩

end Total

end FileServer
