import FileServer.Queue

/-!
# The array behind a queue (queue.c, main.c)

The operations of the queue once more, on the block of memory that `realloc` returns and
with the 64-bit words that C computes in. Arithmetic wraps; an operation that would make
it wrap, touch a cell outside the block, read one that was never written or go on for
ever ends in a trap instead. No run of operations does, whatever the comparators return
at each call and whichever allocations fail.
-/

namespace FileServer

set_option autoImplicit false

inductive Trap where
  | wraps
  | outOfBounds
  | uninitialised
  | endless
  deriving DecidableEq, Repr

abbrev Checked := Except Trap

def addWord (a b : UInt64) : Checked UInt64 :=
  if a.toNat + b.toNat < 18446744073709551616 then .ok (a + b) else .error .wraps

def mulWord (a b : UInt64) : Checked UInt64 :=
  if a.toNat * b.toNat < 18446744073709551616 then .ok (a * b) else .error .wraps

/-- The cells of the block at `q->items`. -/
abbrev Cells (α : Type) := List (Option (PriorityItem α))

structure RawQueue (α : Type) where
  cells : Cells α
  size : UInt64
  capacity : UInt64
  closed : Bool

section Model
variable {α : Type}

def readCell (cells : Cells α) (i : UInt64) : Checked (PriorityItem α) :=
  match cells[i.toNat]? with
  | none => .error .outOfBounds
  | some none => .error .uninitialised
  | some (some item) => .ok item

def writeCell (cells : Cells α) (i : UInt64) (item : PriorityItem α) : Checked (Cells α) :=
  if i.toNat < cells.length then .ok (cells.set i.toNat (some item)) else .error .outOfBounds

def swapItems (cells : Cells α) (i j : UInt64) : Checked (Cells α) := do
  let temp ← readCell cells i
  let other ← readCell cells j
  let cells ← writeCell cells i other
  writeCell cells j temp

/-- `heapify_up`; the comparator may answer differently in each of the rounds. -/
def heapifyUpRaw (cmp : Nat → α → α → Int) : Nat → Cells α → UInt64 → Checked (Cells α)
  | 0, _, _ => .error .endless
  | rounds + 1, cells, index =>
    if index > 0 then do
      let parent := (index - 1) / 2
      let parentItem ← readCell cells parent
      let currentItem ← readCell cells index
      if cmp rounds parentItem.data currentItem.data ≥ 0 then pure cells
      else do
        let cells ← swapItems cells parent index
        heapifyUpRaw cmp rounds cells parent
    else pure cells

def largerRaw (cmp : α → α → Int) (cells : Cells α) (size child largest : UInt64) :
    Checked UInt64 :=
  if child < size then do
    let childItem ← readCell cells child
    let largestItem ← readCell cells largest
    pure (if cmp childItem.data largestItem.data > 0 then child else largest)
  else pure largest

def heapifyDownRaw (cmp : Nat → α → α → Int) (size : UInt64) :
    Nat → Cells α → UInt64 → Checked (Cells α)
  | 0, _, _ => .error .endless
  | rounds + 1, cells, index => do
    let double ← mulWord 2 index
    let left ← addWord double 1
    let right ← addWord double 2
    let largest ← largerRaw (cmp (2 * rounds + 1)) cells size left index
    let largest ← largerRaw (cmp (2 * rounds)) cells size right largest
    if largest = index then pure cells
    else do
      let cells ← swapItems cells index largest
      heapifyDownRaw cmp size rounds cells largest

/-- `realloc` for items of 16 bytes; it may fail, and does beyond 2^63 - 1 bytes. -/
def realloc (grants : Bool) (cells : Cells α) (bytes : UInt64) : Option (Cells α) :=
  if grants ∧ bytes.toNat ≤ 9223372036854775807 then
    some (cells.take (bytes.toNat / 16) ++ List.replicate (bytes.toNat / 16 - cells.length) none)
  else none

/-- The part of `queue_push` after the resize test. -/
def insertRaw (cmp : Nat → α → α → Int) (q : RawQueue α) (item : α) (priority : TaskPriority) :
    Checked (Bool × RawQueue α) := do
  let cells ← writeCell q.cells q.size ⟨item, priority⟩
  let size ← addWord q.size 1
  let cells ← heapifyUpRaw cmp 64 cells (size - 1)
  pure (true, { q with cells, size })

def grownCapacity (capacity : UInt64) : Checked UInt64 :=
  if capacity = 0 then .ok 16 else mulWord capacity 2

def queuePushRaw (cmp : Nat → α → α → Int) (grants : Bool) (q : RawQueue α) (item : α)
    (priority : TaskPriority) : Checked (Bool × RawQueue α) :=
  if q.closed then pure (false, q)
  else if q.size ≥ q.capacity then do
    let newCapacity ← grownCapacity q.capacity
    let bytes ← mulWord newCapacity 16
    match realloc grants q.cells bytes with
    | none => pure (false, q)
    | some cells => insertRaw cmp { q with cells, capacity := newCapacity } item priority
  else insertRaw cmp q item priority

def queuePopRaw (cmp : Nat → α → α → Int) (q : RawQueue α) : Checked (Popped α × RawQueue α) :=
  if q.size = 0 then pure (if q.closed then .null else .blocked, q)
  else do
    let first ← readCell q.cells 0
    let size := q.size - 1
    let last ← readCell q.cells size
    let cells ← writeCell q.cells 0 last
    let cells ← if size > 0 then heapifyDownRaw cmp size 64 cells 0 else pure cells
    pure (.item first.data, { q with cells, size })

def queueCloseRaw (q : RawQueue α) : RawQueue α := { q with closed := true }

/-- The removal in `deregister_client_response_queue` of the item found at `i`. -/
def removeAtRaw (q : RawQueue α) (i : UInt64) : Checked (RawQueue α) :=
  if i < q.size then do
    let cells ←
      if i < q.size - 1 then do
        let last ← readCell q.cells (q.size - 1)
        writeCell q.cells i last
      else pure q.cells
    pure { q with cells, size := q.size - 1 }
  else pure q

def queueInitRaw : RawQueue α := ⟨[], 0, 0, false⟩

inductive RawCall (α : Type) where
  | push (item : α) (priority : TaskPriority) (grants : Bool)
  | pop
  | close
  | remove (i : UInt64)

structure RawEvent (α : Type) where
  cmp : Nat → α → α → Int
  call : RawCall α

def rawStep (q : RawQueue α) (e : RawEvent α) : Checked (RawQueue α) :=
  match e.call with
  | .push item priority grants => (queuePushRaw e.cmp grants q item priority).map Prod.snd
  | .pop => (queuePopRaw e.cmp q).map Prod.snd
  | .close => .ok (queueCloseRaw q)
  | .remove i => removeAtRaw q i

def rawRun (q : RawQueue α) : List (RawEvent α) → Checked (RawQueue α)
  | [] => .ok q
  | e :: events => (rawStep q e).bind fun q' => rawRun q' events

end Model

section Cells
variable {α : Type} {cells : Cells α} {n : Nat} {i j : UInt64}

/-- The first `n` cells hold items. -/
def Filled (cells : Cells α) (n : Nat) : Prop := ∀ i, i < n → ∃ item, cells[i]? = some (some item)

theorem Filled.readCell (h : Filled cells n) (hi : i.toNat < n) :
    ∃ item, readCell cells i = .ok item ∧ cells[i.toNat]? = some (some item) := by
  obtain ⟨item, hitem⟩ := h _ hi
  refine ⟨item, ?_, hitem⟩
  rw [FileServer.readCell, hitem]

theorem Filled.length (h : Filled cells n) : n ≤ cells.length := by
  rcases Nat.eq_zero_or_pos n with rfl | hpos
  · exact Nat.zero_le _
  · obtain ⟨item, hitem⟩ := h (n - 1) (by omega)
    have hlt := (List.getElem?_eq_some_iff.mp hitem).1
    omega

theorem Filled.set (h : Filled cells n) (k : Nat) (item : PriorityItem α) :
    Filled (cells.set k (some item)) n := by
  intro m hm
  rw [List.getElem?_set]
  split
  · rename_i heq
    have hlen := h.length
    rw [if_pos (by omega)]
    exact ⟨item, rfl⟩
  · exact h m hm

theorem Filled.writeCell (h : Filled cells n) (hi : i.toNat < n) (item : PriorityItem α) :
    FileServer.writeCell cells i item = .ok (cells.set i.toNat (some item)) := by
  rw [FileServer.writeCell, if_pos (Nat.lt_of_lt_of_le hi h.length)]

theorem Filled.swapItems (h : Filled cells n) (hi : i.toNat < n) (hj : j.toNat < n) :
    ∃ cells', swapItems cells i j = .ok cells' ∧ cells'.length = cells.length ∧ Filled cells' n := by
  obtain ⟨x, hx, -⟩ := h.readCell hi
  obtain ⟨y, hy, -⟩ := h.readCell hj
  have hset := h.set i.toNat y
  refine ⟨(cells.set i.toNat (some y)).set j.toNat (some x), ?_, by simp, hset.set _ x⟩
  simp only [FileServer.swapItems, hx, hy, h.writeCell hi, bind, Except.bind]
  exact hset.writeCell hj x

end Cells

section Words
variable {a b : UInt64}

theorem addWord_ok (h : a.toNat + b.toNat < 18446744073709551616) :
    ∃ c, addWord a b = .ok c ∧ c.toNat = a.toNat + b.toNat := by
  refine ⟨a + b, if_pos h, ?_⟩
  rw [UInt64.toNat_add]
  exact Nat.mod_eq_of_lt h

theorem mulWord_ok (h : a.toNat * b.toNat < 18446744073709551616) :
    ∃ c, mulWord a b = .ok c ∧ c.toNat = a.toNat * b.toNat := by
  refine ⟨a * b, if_pos h, ?_⟩
  rw [UInt64.toNat_mul]
  exact Nat.mod_eq_of_lt h

/-- The children of an index below 2^62 have indices that do not wrap. -/
theorem children_ok (h : a.toNat < 4611686018427387904) :
    ∃ double left right, mulWord 2 a = .ok double ∧ addWord double 1 = .ok left ∧
      addWord double 2 = .ok right ∧ left.toNat = 2 * a.toNat + 1 ∧
      right.toNat = 2 * a.toNat + 2 := by
  have htwo : (2 : UInt64).toNat = 2 := rfl
  have hone : (1 : UInt64).toNat = 1 := rfl
  obtain ⟨double, hdouble, hdoubleNat⟩ : ∃ double, mulWord 2 a = .ok double ∧
      double.toNat = (2 : UInt64).toNat * a.toNat := mulWord_ok (by rw [htwo]; omega)
  rw [htwo] at hdoubleNat
  obtain ⟨left, hleft, hleftNat⟩ : ∃ left, addWord double 1 = .ok left ∧
      left.toNat = double.toNat + (1 : UInt64).toNat := addWord_ok (by rw [hone]; omega)
  obtain ⟨right, hright, hrightNat⟩ : ∃ right, addWord double 2 = .ok right ∧
      right.toNat = double.toNat + (2 : UInt64).toNat := addWord_ok (by rw [htwo]; omega)
  exact ⟨double, left, right, hdouble, hleft, hright, by rw [hleftNat, hone]; omega,
    by rw [hrightNat, htwo]; omega⟩

theorem toNat_pred (h : 0 < a.toNat) : (a - 1).toNat = a.toNat - 1 :=
  UInt64.toNat_sub_of_le _ _ (UInt64.le_iff_toNat_le.mpr h)

end Words

section Sift
variable {α : Type} {cells : Cells α}

/-- Sift-up halves the index in every round. -/
theorem heapifyUpRaw_ok (cmp : Nat → α → α → Int) {n : Nat} (rounds : Nat) {index : UInt64}
    (h : Filled cells n) (hindex : index.toNat < n) (hrounds : index.toNat < 2 ^ rounds) :
    ∃ cells', heapifyUpRaw cmp (rounds + 1) cells index = .ok cells' ∧
      cells'.length = cells.length ∧ Filled cells' n := by
  induction rounds generalizing cells index with
  | zero =>
    have hzero : ¬ index > 0 := by
      intro hpos
      have hlt := UInt64.lt_iff_toNat_lt.mp hpos
      rw [Nat.pow_zero] at hrounds
      omega
    exact ⟨cells, if_neg hzero, rfl, h⟩
  | succ rounds ih =>
    rw [heapifyUpRaw]
    by_cases hpos : index > 0
    · have hone : 0 < index.toNat := UInt64.lt_iff_toNat_lt.mp hpos
      have hparent : ((index - 1) / 2).toNat = (index.toNat - 1) / 2 := by
        rw [UInt64.toNat_div, toNat_pred hone]
        rfl
      rw [Nat.pow_succ] at hrounds
      have hin : ((index - 1) / 2).toNat < n := by omega
      obtain ⟨parentItem, hp, -⟩ := h.readCell hin
      obtain ⟨currentItem, hc, -⟩ := h.readCell hindex
      rw [if_pos hpos]
      simp only [hp, hc, bind, Except.bind]
      split
      · exact ⟨cells, rfl, rfl, h⟩
      · obtain ⟨swapped, hswap, hlength, hwritten⟩ := h.swapItems hin hindex
        obtain ⟨cells', hrun, hlength', hwritten'⟩ := ih hwritten hin (by omega)
        rw [hswap]
        exact ⟨cells', hrun, hlength'.trans hlength, hwritten'⟩
    · rw [if_neg hpos]
      exact ⟨cells, rfl, rfl, h⟩

theorem largerRaw_ok (cmp : α → α → Int) {size largest : UInt64} (child : UInt64)
    (h : Filled cells size.toNat) (hlargest : largest.toNat < size.toNat) :
    ∃ l, largerRaw cmp cells size child largest = .ok l ∧ l.toNat < size.toNat ∧
      (l = largest ∨ l = child) := by
  unfold largerRaw
  by_cases hchild : child < size
  · have hin := UInt64.lt_iff_toNat_lt.mp hchild
    obtain ⟨childItem, hc, -⟩ := h.readCell hin
    obtain ⟨largestItem, hl, -⟩ := h.readCell hlargest
    rw [if_pos hchild]
    simp only [hc, hl, bind, Except.bind]
    by_cases hcmp : cmp childItem.data largestItem.data > 0
    · exact ⟨child, by rw [if_pos hcmp]; rfl, hin, Or.inr rfl⟩
    · exact ⟨largest, by rw [if_neg hcmp]; rfl, hlargest, Or.inl rfl⟩
  · exact ⟨largest, if_neg hchild, hlargest, Or.inl rfl⟩

/-- Sift-down at least doubles the index in every round. -/
theorem heapifyDownRaw_ok (cmp : Nat → α → α → Int) (rounds : Nat) {size index : UInt64}
    (h : Filled cells size.toNat) (hindex : index.toNat < size.toNat)
    (hsize : size.toNat ≤ 4611686018427387904) (hrounds : size.toNat < (index.toNat + 1) * 2 ^ rounds) :
    ∃ cells', heapifyDownRaw cmp size rounds cells index = .ok cells' ∧
      cells'.length = cells.length ∧ Filled cells' size.toNat := by
  induction rounds generalizing cells index with
  | zero =>
    rw [Nat.pow_zero] at hrounds
    omega
  | succ rounds ih =>
    obtain ⟨double, left, right, hdouble, hleft, hright, hleftNat, hrightNat⟩ :=
      children_ok (a := index) (by omega)
    obtain ⟨l₁, hl₁, hin₁, hcases₁⟩ := largerRaw_ok (cmp (2 * rounds + 1)) left h hindex
    obtain ⟨l₂, hl₂, hin₂, hcases₂⟩ := largerRaw_ok (cmp (2 * rounds)) right h hin₁
    rw [heapifyDownRaw]
    simp only [hdouble, hleft, hright, hl₁, hl₂, bind, Except.bind]
    split
    · exact ⟨cells, rfl, rfl, h⟩
    · rename_i hne
      have hgrow : 2 * index.toNat + 1 ≤ l₂.toNat := by
        rcases hcases₂ with rfl | rfl
        · rcases hcases₁ with rfl | rfl
          · exact absurd rfl hne
          · omega
        · omega
      obtain ⟨swapped, hswap, hlength, hwritten⟩ := h.swapItems hindex hin₂
      have hless : size.toNat < (l₂.toNat + 1) * 2 ^ rounds := by
        have hstep : (index.toNat + 1) * 2 ^ (rounds + 1) ≤ (l₂.toNat + 1) * 2 ^ rounds := by
          rw [Nat.pow_succ, Nat.mul_comm (2 ^ rounds) 2, ← Nat.mul_assoc]
          exact Nat.mul_le_mul_right _ (by omega)
        omega
      obtain ⟨cells', hrun, hlength', hwritten'⟩ := ih hwritten hin₂ hless
      rw [hswap]
      exact ⟨cells', hrun, hlength'.trans hlength, hwritten'⟩

end Sift

/-- The invariant of the array: it has been allocated for `capacity` items, which is
zero or sixteen doubled some times, and its first `size` cells are written. -/
structure RawQueue.Sound {α : Type} (q : RawQueue α) : Prop where
  doubled : q.capacity = 0 ∨ ∃ k, q.capacity.toNat = 16 * 2 ^ k
  fits : q.size.toNat ≤ q.capacity.toNat
  block : q.cells.length = q.capacity.toNat
  granted : q.capacity.toNat * 16 ≤ 9223372036854775807
  written : Filled q.cells q.size.toNat

section Operations
variable {α : Type} {q : RawQueue α}

theorem queueInitRaw_sound : (queueInitRaw : RawQueue α).Sound where
  doubled := Or.inl rfl
  fits := Nat.le_refl 0
  block := rfl
  granted := Nat.zero_le _
  written _ h := absurd h (Nat.not_lt_zero _)

theorem realloc_some {grants : Bool} {cells cells' : Cells α} {bytes : UInt64}
    (h : realloc grants cells bytes = some cells') {n : Nat} (hwritten : Filled cells n)
    (hroom : n ≤ bytes.toNat / 16) :
    grants = true ∧ bytes.toNat ≤ 9223372036854775807 ∧ (∀ i, i < n → cells'[i]? = cells[i]?) ∧
      (cells.length ≤ bytes.toNat / 16 → cells'.length = bytes.toNat / 16) := by
  unfold realloc at h
  split at h
  · rename_i hgrants
    obtain rfl := Option.some.inj h
    refine ⟨hgrants.1, hgrants.2, ?_, ?_⟩
    · intro i hi
      have hlen := hwritten.length
      rw [List.getElem?_append_left (by rw [List.length_take]; omega),
        List.getElem?_take_of_lt (by omega)]
    · intro hlen
      rw [List.length_append, List.length_take, List.length_replicate]
      omega
  · contradiction

/-- What inserting an item leaves to sift-up. -/
theorem insertRaw_eq (cmp : Nat → α → α → Int) (h : q.Sound)
    (hroom : q.size.toNat < q.capacity.toNat) (item : α) (priority : TaskPriority) :
    ∃ size : UInt64, size.toNat = q.size.toNat + 1 ∧ (size - 1).toNat = q.size.toNat ∧
      insertRaw cmp q item priority =
        (heapifyUpRaw cmp 64 (q.cells.set q.size.toNat (some ⟨item, priority⟩)) (size - 1)).map
          fun cells => (true, { q with cells, size }) := by
  have hgranted := h.granted
  have hone : (1 : UInt64).toNat = 1 := rfl
  have hwrite : writeCell q.cells q.size ⟨item, priority⟩ =
      .ok (q.cells.set q.size.toNat (some ⟨item, priority⟩)) :=
    if_pos (h.block.symm ▸ hroom)
  obtain ⟨size, hsize, hsizeNat⟩ : ∃ size, addWord q.size 1 = .ok size ∧
      size.toNat = q.size.toNat + (1 : UInt64).toNat := addWord_ok (by rw [hone]; omega)
  rw [hone] at hsizeNat
  refine ⟨size, hsizeNat, by rw [toNat_pred (by omega), hsizeNat, Nat.add_sub_cancel], ?_⟩
  simp only [insertRaw, hwrite, hsize, bind, Except.bind]
  cases heapifyUpRaw cmp 64 (q.cells.set q.size.toNat (some ⟨item, priority⟩)) (size - 1) <;> rfl

/-- Inserting an item where there is room for it. -/
theorem insertRaw_ok (cmp : Nat → α → α → Int) (h : q.Sound) (hroom : q.size.toNat < q.capacity.toNat)
    (item : α) (priority : TaskPriority) :
    ∃ q', insertRaw cmp q item priority = .ok (true, q') ∧ q'.Sound := by
  have hgranted := h.granted
  obtain ⟨size, hsize, hlast, hinsert⟩ := insertRaw_eq cmp h hroom item priority
  have hwritten : Filled (q.cells.set q.size.toNat (some ⟨item, priority⟩)) size.toNat := by
    intro i hi
    rcases Nat.lt_or_ge i q.size.toNat with hlt | hge
    · exact h.written.set _ _ i hlt
    · obtain rfl : i = q.size.toNat := by omega
      exact ⟨_, by rw [List.getElem?_set_self (h.block.symm ▸ hroom)]⟩
  obtain ⟨cells, hup, hlength, hcells⟩ := heapifyUpRaw_ok cmp 63 hwritten
    (by omega : (size - 1).toNat < size.toNat) (by rw [hlast]; omega)
  refine ⟨{ q with cells, size }, ?_, h.doubled, ?_, ?_, hgranted, hcells⟩
  · rw [hinsert, hup]
    rfl
  · change size.toNat ≤ q.capacity.toNat
    omega
  · rw [hlength, List.length_set, h.block]

/-- The new capacity and its bytes do not wrap. -/
theorem grownCapacity_ok (h : q.Sound) : ∃ newCapacity bytes : UInt64,
    grownCapacity q.capacity = .ok newCapacity ∧ mulWord newCapacity 16 = .ok bytes ∧
      newCapacity.toNat = (if q.capacity.toNat = 0 then 16 else q.capacity.toNat * 2) ∧
      bytes.toNat = newCapacity.toNat * 16 := by
  have hgranted := h.granted
  have htwo : (2 : UInt64).toNat = 2 := rfl
  have hsixteen : (16 : UInt64).toNat = 16 := rfl
  obtain ⟨newCapacity, hnew, hnewNat⟩ : ∃ c : UInt64, grownCapacity q.capacity = .ok c ∧
      c.toNat = if q.capacity.toNat = 0 then 16 else q.capacity.toNat * 2 := by
    rw [grownCapacity]
    by_cases hzero : q.capacity = 0
    · have hzeroNat : q.capacity.toNat = 0 := congrArg UInt64.toNat hzero
      exact ⟨16, if_pos hzero, by rw [if_pos hzeroNat, hsixteen]⟩
    · have hne : ¬ q.capacity.toNat = 0 := fun heq => hzero (UInt64.toNat_inj.mp heq)
      obtain ⟨c, hc, hcNat⟩ : ∃ c, mulWord q.capacity 2 = .ok c ∧
          c.toNat = q.capacity.toNat * (2 : UInt64).toNat := mulWord_ok (by rw [htwo]; omega)
      exact ⟨c, by rw [if_neg hzero, hc], by rw [if_neg hne, hcNat, htwo]⟩
  obtain ⟨bytes, hbytes, hbytesNat⟩ : ∃ bytes, mulWord newCapacity 16 = .ok bytes ∧
      bytes.toNat = newCapacity.toNat * (16 : UInt64).toNat :=
    mulWord_ok (by rw [hsixteen, hnewNat]; split <;> omega)
  exact ⟨newCapacity, bytes, hnew, hbytes, hnewNat, hbytesNat⟩

/-- What `realloc` grants is a larger array with the same items. -/
theorem realloc_sound (h : q.Sound) {grants : Bool} {newCapacity bytes : UInt64} {cells : Cells α}
    (hnew : newCapacity.toNat = if q.capacity.toNat = 0 then 16 else q.capacity.toNat * 2)
    (hbytes : bytes.toNat = newCapacity.toNat * 16)
    (hrealloc : realloc grants q.cells bytes = some cells) :
    grants = true ∧ RawQueue.Sound { q with cells, capacity := newCapacity } ∧
      q.capacity.toNat < newCapacity.toNat ∧ ∀ i, i < q.size.toNat → cells[i]? = q.cells[i]? := by
  have hfits := h.fits
  have hblock := h.block
  have hgrown : q.capacity.toNat < newCapacity.toNat := by
    rw [hnew]
    split <;> omega
  obtain ⟨hgrants, hbound, hsame, hlength⟩ := realloc_some hrealloc h.written (by omega)
  have hwritten : Filled cells q.size.toNat := fun i hi => hsame i hi ▸ h.written i hi
  refine ⟨hgrants, ⟨Or.inr ?_, ?_, ?_, ?_, hwritten⟩, hgrown, hsame⟩
  · change ∃ k, newCapacity.toNat = 16 * 2 ^ k
    rw [hnew]
    split
    · exact ⟨0, rfl⟩
    · rename_i hne
      obtain ⟨k, hk⟩ := h.doubled.resolve_left fun hzero => hne (congrArg UInt64.toNat hzero)
      exact ⟨k + 1, by rw [hk, Nat.pow_succ, Nat.mul_assoc]⟩
  · change q.size.toNat ≤ newCapacity.toNat
    omega
  · change cells.length = newCapacity.toNat
    omega
  · change newCapacity.toNat * 16 ≤ _
    omega

/-- A push does all it does within the array, and one that fails changes nothing. -/
theorem queuePushRaw_ok (cmp : Nat → α → α → Int) (grants : Bool) (h : q.Sound) (item : α)
    (priority : TaskPriority) :
    queuePushRaw cmp grants q item priority = .ok (false, q) ∨
      ∃ q', queuePushRaw cmp grants q item priority = .ok (true, q') ∧ q'.Sound := by
  have hfits := h.fits
  unfold queuePushRaw
  split
  · exact Or.inl rfl
  split
  · obtain ⟨newCapacity, bytes, hnew, hbytes, hnewNat, hbytesNat⟩ := grownCapacity_ok h
    simp only [hnew, hbytes, bind, Except.bind]
    cases hrealloc : realloc grants q.cells bytes with
    | none => exact Or.inl rfl
    | some cells =>
      obtain ⟨-, hsound, hgrown, -⟩ := realloc_sound h hnewNat hbytesNat hrealloc
      exact Or.inr (insertRaw_ok cmp hsound (by change q.size.toNat < newCapacity.toNat; omega) item
        priority)
  · rename_i hroom
    have hlt := mt UInt64.le_iff_toNat_le.mpr hroom
    exact Or.inr (insertRaw_ok cmp h (by omega) item priority)

/-- One item less, in cells of which one has been overwritten. -/
theorem RawQueue.Sound.shrink (h : q.Sound) {cells : Cells α} (hlength : cells.length = q.cells.length)
    (hpos : 0 < q.size.toNat) (hwritten : Filled cells (q.size - 1).toNat) :
    RawQueue.Sound { q with cells, size := q.size - 1 } := by
  have hfits := h.fits
  refine ⟨h.doubled, ?_, hlength.trans h.block, h.granted, hwritten⟩
  change (q.size - 1).toNat ≤ q.capacity.toNat
  rw [toNat_pred hpos]
  omega

theorem Filled.mono {cells : Cells α} {n m : Nat} (h : Filled cells n) (hle : m ≤ n) :
    Filled cells m := fun i hi => h i (Nat.lt_of_lt_of_le hi hle)

theorem queuePopRaw_ok (cmp : Nat → α → α → Int) (h : q.Sound) :
    ∃ popped q', queuePopRaw cmp q = .ok (popped, q') ∧ q'.Sound := by
  have hgranted := h.granted
  have hfits := h.fits
  unfold queuePopRaw
  by_cases hzero : q.size = 0
  · exact ⟨_, q, if_pos hzero, h⟩
  have hpos : 0 < q.size.toNat := by
    rcases Nat.eq_zero_or_pos q.size.toNat with heq | hpos
    · exact absurd (UInt64.toNat_inj.mp heq) hzero
    · exact hpos
  have hpred := toNat_pred hpos
  have hzeroNat : (0 : UInt64).toNat = 0 := rfl
  obtain ⟨first, hfirst, -⟩ := h.written.readCell (i := 0) hpos
  obtain ⟨last, hlast, -⟩ := h.written.readCell (i := q.size - 1) (by omega)
  have hwrite := h.written.writeCell (i := 0) hpos last
  have hset := (h.written.set (0 : UInt64).toNat last).mono (by omega : (q.size - 1).toNat ≤ _)
  rw [if_neg hzero]
  by_cases hmore : q.size - 1 > 0
  · have hmoreNat : (0 : UInt64).toNat < (q.size - 1).toNat := UInt64.lt_iff_toNat_lt.mp hmore
    obtain ⟨cells, hdown, hlength, hwritten⟩ := heapifyDownRaw_ok cmp 64 hset hmoreNat (by omega)
      (by rw [hzeroNat]; omega)
    refine ⟨.item first.data, { q with cells, size := q.size - 1 }, ?_,
      h.shrink (hlength.trans (List.length_set ..)) hpos hwritten⟩
    simp only [hfirst, hlast, hwrite, if_pos hmore, hdown, bind, Except.bind]
    rfl
  · refine ⟨.item first.data, { q with cells := _, size := q.size - 1 }, ?_,
      h.shrink (List.length_set ..) hpos hset⟩
    simp only [hfirst, hlast, hwrite, if_neg hmore, bind, Except.bind]
    rfl

theorem removeAtRaw_ok (h : q.Sound) (i : UInt64) : ∃ q', removeAtRaw q i = .ok q' ∧ q'.Sound := by
  unfold removeAtRaw
  by_cases hfound : i < q.size
  · have hlt := UInt64.lt_iff_toNat_lt.mp hfound
    have hpos : 0 < q.size.toNat := by omega
    have hpred := toNat_pred hpos
    rw [if_pos hfound]
    by_cases hmove : i < q.size - 1
    · obtain ⟨last, hlast, -⟩ := h.written.readCell (i := q.size - 1) (by omega)
      have hset := (h.written.set i.toNat last).mono (by omega : (q.size - 1).toNat ≤ _)
      refine ⟨_, ?_, h.shrink (List.length_set ..) hpos hset⟩
      simp only [if_pos hmove, hlast, h.written.writeCell hlt, bind, Except.bind]
      rfl
    · refine ⟨_, ?_, h.shrink rfl hpos (h.written.mono (by omega))⟩
      simp only [if_neg hmove, bind, Except.bind]
      rfl
  · exact ⟨q, if_neg hfound, h⟩

theorem rawStep_ok (h : q.Sound) (e : RawEvent α) : ∃ q', rawStep q e = .ok q' ∧ q'.Sound := by
  obtain ⟨cmp, call⟩ := e
  cases call with
  | push item priority grants =>
    rcases queuePushRaw_ok cmp grants h item priority with hpush | ⟨q', hpush, hsound⟩
    · exact ⟨q, congrArg (Except.map Prod.snd) hpush, h⟩
    · exact ⟨q', congrArg (Except.map Prod.snd) hpush, hsound⟩
  | pop =>
    obtain ⟨popped, q', hpop, hsound⟩ := queuePopRaw_ok cmp h
    exact ⟨q', congrArg (Except.map Prod.snd) hpop, hsound⟩
  | close => exact ⟨_, rfl, h.doubled, h.fits, h.block, h.granted, h.written⟩
  | remove i => exact removeAtRaw_ok h i

theorem rawRun_ok (h : q.Sound) (events : List (RawEvent α)) :
    ∃ q', rawRun q events = .ok q' ∧ q'.Sound := by
  induction events generalizing q with
  | nil => exact ⟨q, rfl, h⟩
  | cons e events ih =>
    obtain ⟨q₁, hstep, h₁⟩ := rawStep_ok h e
    obtain ⟨q₂, hrun, h₂⟩ := ih h₁
    refine ⟨q₂, ?_, h₂⟩
    rw [rawRun, hstep]
    exact hrun

/-- No run of queue operations ends in a trap; what it leaves has its items in an array of
16, 32, 64, … cells, and a push that is refused leaves it as it is. -/
theorem queue_runs_in_bounds (events : List (RawEvent α)) :
    ∃ q, rawRun queueInitRaw events = .ok q ∧
      (q.capacity = 0 ∨ ∃ k, q.capacity.toNat = 16 * 2 ^ k) ∧ q.size ≤ q.capacity ∧
      q.cells.length = q.capacity.toNat ∧
      ∀ cmp grants item priority, ∃ accepted q',
        queuePushRaw cmp grants q item priority = .ok (accepted, q') ∧
          (accepted = false → q' = q) := by
  obtain ⟨q, hrun, h⟩ := rawRun_ok queueInitRaw_sound events
  refine ⟨q, hrun, h.doubled, UInt64.le_iff_toNat_le.mpr h.fits, h.block, ?_⟩
  intro cmp grants item priority
  rcases queuePushRaw_ok cmp grants h item priority with hpush | ⟨q', hpush, -⟩
  · exact ⟨false, q, hpush, fun _ => rfl⟩
  · exact ⟨true, q', hpush, by simp⟩

end Operations

end FileServer
