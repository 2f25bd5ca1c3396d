import FileServer.QueueConservation
import FileServer.QueueMemory
import FileServer.Server

/-!
# The array computes what the queue says (queue.c, main.c)

The cells in use hold the items of the queue in their order. Where the comparator of a call
answers one question in one way, every operation on the array does what it does on the
queue; a push finds the array grown when `realloc` has granted it.
-/

namespace FileServer

set_option autoImplicit false

section Cells
variable {α : Type} {cells : Cells α} {n : Nat} {items : Vector (PriorityItem α) n} {i j : UInt64}

def Stores (cells : Cells α) (items : Vector (PriorityItem α) n) : Prop :=
  ∀ (k : Nat) (h : k < n), cells[k]? = some (some items[k])

theorem Stores.filled (h : Stores cells items) : Filled cells n :=
  fun k hk => ⟨items[k], h k hk⟩

theorem Stores.readCell (h : Stores cells items) (hi : i.toNat < n) :
    readCell cells i = .ok items[i.toNat] := by
  rw [FileServer.readCell, h i.toNat hi]

theorem Stores.set (h : Stores cells items) {k : Nat} (hk : k < n) (item : PriorityItem α) :
    Stores (cells.set k (some item)) (items.set k item) := by
  intro l hl
  have hlength := h.filled.length
  rw [List.getElem?_set, Vector.getElem_set]
  split
  · rw [if_pos (by omega)]
  · exact h l hl

theorem Stores.push (h : Stores cells items) (hroom : n < cells.length) (item : PriorityItem α) :
    Stores (cells.set n (some item)) (items.push item) := by
  intro k hk
  rw [List.getElem?_set, Vector.getElem_push]
  by_cases hlast : n = k
  · rw [if_pos hlast, if_pos (hlast ▸ hroom), dif_neg (by omega)]
  · rw [if_neg hlast, dif_pos (by omega)]
    exact h k (by omega)

theorem Stores.pop (h : Stores cells items) : Stores cells items.pop := by
  intro k hk
  rw [Vector.getElem_pop]
  exact h k (by omega)

theorem Stores.swapItems (h : Stores cells items) (hi : i.toNat < n) (hj : j.toNat < n) :
    ∃ cells', swapItems cells i j = .ok cells' ∧ cells'.length = cells.length ∧
      Stores cells' (items.swap i.toNat j.toNat) := by
  have hset := h.set hi items[j.toNat]
  refine ⟨(cells.set i.toNat (some items[j.toNat])).set j.toNat (some items[i.toNat]), ?_,
    by simp, ?_⟩
  · simp only [FileServer.swapItems, h.readCell hi, h.readCell hj, h.filled.writeCell hi, bind,
      Except.bind]
    exact hset.filled.writeCell hj _
  · exact hset.set hj items[i.toNat]

end Cells

section Sift
variable {α : Type} {cells : Cells α} {n : Nat} {items : Vector (PriorityItem α) n}

theorem heapifyUpRaw_refines (cmp : α → α → Int) (rounds : Nat) {index : UInt64} {i : Nat}
    (h : Stores cells items) (hindex : index.toNat = i) (hi : i < n) (hrounds : i < 2 ^ rounds) :
    ∃ cells', heapifyUpRaw (fun _ => cmp) (rounds + 1) cells index = .ok cells' ∧
      cells'.length = cells.length ∧ Stores cells' (heapifyUp (m := Id) cmp items i hi) := by
  induction rounds generalizing cells items index i with
  | zero =>
    obtain rfl : i = 0 := by simpa using hrounds
    have hzero : ¬ index > 0 := by
      intro hpos
      have hlt := UInt64.lt_iff_toNat_lt.mp hpos
      rw [hindex] at hlt
      exact Nat.lt_irrefl 0 hlt
    refine ⟨cells, if_neg hzero, rfl, ?_⟩
    rw [heapifyUp_eq, dif_neg (Nat.lt_irrefl 0)]
    exact h
  | succ rounds ih =>
    subst hindex
    rw [heapifyUpRaw, heapifyUp_eq]
    by_cases hpos : index > 0
    · have hone : 0 < index.toNat := UInt64.lt_iff_toNat_lt.mp hpos
      have hparent : ((index - 1) / 2).toNat = (index.toNat - 1) / 2 := by
        rw [UInt64.toNat_div, toNat_pred hone]
        rfl
      have hin : ((index - 1) / 2).toNat < n := by omega
      have hget : ∀ k : Fin n, items.get k = items[k.val] := fun _ => rfl
      rw [if_pos hpos, dif_pos hone]
      simp only [h.readCell hin, h.readCell hi, bind, Except.bind, hparent, hget]
      by_cases hcmp : cmp items[(index.toNat - 1) / 2].data items[index.toNat].data ≥ 0
      · rw [if_pos hcmp, if_pos hcmp]
        exact ⟨cells, rfl, rfl, h⟩
      · obtain ⟨swapped, hswap, hlength, hstores⟩ := h.swapItems hin hi
        simp only [hparent] at hstores
        rw [Nat.pow_succ] at hrounds
        obtain ⟨cells', hrun, hlength', hstores'⟩ :=
          ih hstores hparent (by omega) (by omega)
        rw [if_neg hcmp, if_neg hcmp, hswap]
        exact ⟨cells', hrun, hlength'.trans hlength, hstores'⟩
    · have hnot : ¬ 0 < index.toNat := fun hone => hpos (UInt64.lt_iff_toNat_lt.mpr hone)
      rw [if_neg hpos, dif_neg hnot]
      exact ⟨cells, rfl, rfl, h⟩

theorem largerRaw_refines (cmp : α → α → Int) {size child largest : UInt64} {i c : Nat}
    (h : Stores cells items) (hsize : size.toNat = n) (hchild : child.toNat = c) (hc : i < c)
    (l : {j : Fin n // i ≤ j.val}) (hl : largest.toNat = l.val.val) :
    ∃ largest', largerRaw cmp cells size child largest = .ok largest' ∧
      largest'.toNat = (larger (m := Id) cmp items i c hc l).val.val ∧
      (largest' = largest ∨ largest' = child) := by
  subst hchild
  unfold largerRaw larger
  by_cases hchild : child < size
  · have hin : child.toNat < n := hsize ▸ UInt64.lt_iff_toNat_lt.mp hchild
    have hlargest : largest.toNat < n := hl ▸ l.val.isLt
    have hget : items.get l.val = items[largest.toNat] := by
      simp only [hl]
      rfl
    rw [if_pos hchild, dif_pos hin]
    simp only [h.readCell hin, h.readCell hlargest, bind, Except.bind, hget]
    by_cases hcmp : cmp items[child.toNat].data items[largest.toNat].data > 0
    · rw [if_pos hcmp, if_pos hcmp]
      exact ⟨child, rfl, rfl, Or.inr rfl⟩
    · rw [if_neg hcmp, if_neg hcmp]
      exact ⟨largest, rfl, hl, Or.inl rfl⟩
  · have hout : ¬ child.toNat < n := fun hin => hchild (UInt64.lt_iff_toNat_lt.mpr (hsize ▸ hin))
    rw [if_neg hchild, dif_neg hout]
    exact ⟨largest, rfl, hl, Or.inl rfl⟩

theorem heapifyDownRaw_refines (cmp : α → α → Int) (rounds : Nat) {size index : UInt64} {i : Fin n}
    (h : Stores cells items) (hsize : size.toNat = n) (hindex : index.toNat = i.val)
    (hbound : n ≤ 4611686018427387904) (hrounds : n < (i.val + 1) * 2 ^ rounds) :
    ∃ cells', heapifyDownRaw (fun _ => cmp) size rounds cells index = .ok cells' ∧
      cells'.length = cells.length ∧ Stores cells' (heapifyDown (m := Id) cmp items i) := by
  induction rounds generalizing cells items index i with
  | zero =>
    have hlt := i.isLt
    rw [Nat.pow_zero] at hrounds
    omega
  | succ rounds ih =>
    have hlt := i.isLt
    obtain ⟨double, left, right, hdouble, hleft, hright, hleftNat, hrightNat⟩ :=
      children_ok (a := index) (by omega)
    rw [hindex] at hleftNat hrightNat
    obtain ⟨l₁, l₂, hl₁, hl₂, hdown⟩ := heapifyDown_cases cmp items i
    obtain ⟨largest₁, hlarger₁, hlargest₁, hcases₁⟩ := largerRaw_refines cmp h hsize hleftNat (by omega)
      ⟨i, Nat.le_refl _⟩ hindex
    rw [← hl₁] at hlargest₁
    obtain ⟨largest₂, hlarger₂, hlargest₂, hcases₂⟩ := largerRaw_refines cmp h hsize hrightNat (by omega)
      l₁ hlargest₁
    rw [← hl₂] at hlargest₂
    have hsame : largest₂ = index ↔ l₂.val = i := by
      rw [← UInt64.toNat_inj, hlargest₂, hindex, Fin.ext_iff]
    rw [heapifyDownRaw, hdown]
    simp only [hdouble, hleft, hright, hlarger₁, hlarger₂, bind, Except.bind]
    by_cases heq : l₂.val = i
    · rw [if_pos (hsame.mpr heq), if_pos heq]
      exact ⟨cells, rfl, rfl, h⟩
    · have hne : largest₂ ≠ index := fun hsame' => heq (hsame.mp hsame')
      have hgrow : 2 * i.val + 1 ≤ largest₂.toNat := by
        rcases hcases₂ with rfl | rfl
        · rcases hcases₁ with rfl | rfl
          · exact absurd rfl hne
          · omega
        · omega
      have hin : largest₂.toNat < n := hlargest₂ ▸ l₂.val.isLt
      have hless : n < (l₂.val.val + 1) * 2 ^ rounds := by
        have hstep : (i.val + 1) * 2 ^ (rounds + 1) ≤ (l₂.val.val + 1) * 2 ^ rounds := by
          rw [Nat.pow_succ, Nat.mul_comm (2 ^ rounds) 2, ← Nat.mul_assoc]
          exact Nat.mul_le_mul_right _ (by omega)
        omega
      obtain ⟨swapped, hswap, hlength, hstores⟩ := h.swapItems (hindex ▸ hlt : index.toNat < n) hin
      simp only [hindex, hlargest₂] at hstores
      obtain ⟨cells', hrun, hlength', hstores'⟩ := ih hstores hlargest₂ hless
      rw [if_neg hne, if_neg heq, hswap]
      exact ⟨cells', hrun, hlength'.trans hlength, hstores'⟩

end Sift

structure Represents {α : Type} (q : RawQueue α) (queue : Queue α) : Prop where
  size : q.size.toNat = queue.size
  capacity : q.capacity.toNat = queue.capacity
  closed : q.closed = queue.closed
  items : Stores q.cells queue.items

section Operations
variable {α : Type} {q : RawQueue α} {queue : Queue α}

theorem represents_queueInit : Represents (queueInitRaw : RawQueue α) queueInit where
  size := rfl
  capacity := rfl
  closed := rfl
  items _ h := absurd h (Nat.not_lt_zero _)

theorem queuePush_none (cmp : α → α → Int) {grows : Bool} (hopen : queue.closed = false)
    (hresize : resize grows queue = none) (item : α) (priority : TaskPriority) :
    Id.run (queuePush cmp grows queue item priority) = (false, queue) := by
  unfold queuePush
  rw [if_neg (by simp [hopen])]
  split
  · rfl
  · rename_i c hc
    rw [hresize] at hc
    contradiction

theorem queuePush_some (cmp : α → α → Int) {grows : Bool} {capacity : Nat}
    (hopen : queue.closed = false) (hresize : resize grows queue = some capacity) (item : α)
    (priority : TaskPriority) :
    Id.run (queuePush cmp grows queue item priority) =
      (true, ⟨queue.size + 1,
        heapifyUp (m := Id) cmp (queue.items.push ⟨item, priority⟩) queue.size (Nat.lt_succ_self _),
        capacity, queue.closed, size_lt_of_resize hresize⟩) := by
  unfold queuePush
  rw [if_neg (by simp [hopen])]
  split
  · rename_i hnone
    rw [hresize] at hnone
    contradiction
  · rename_i c hc
    obtain rfl : c = capacity := Option.some.inj (hc.symm.trans hresize)
    rfl

/-- An item put into an array with room for it, and its sift-up. -/
theorem insertRaw_refines (cmp : α → α → Int) (hsound : q.Sound)
    (hroom : q.size.toNat < q.capacity.toNat) (hsize : q.size.toNat = queue.size)
    (hitems : Stores q.cells queue.items) (item : α) (priority : TaskPriority) :
    ∃ q', insertRaw (fun _ => cmp) q item priority = .ok (true, q') ∧
      q'.size.toNat = queue.size + 1 ∧ q'.capacity = q.capacity ∧ q'.closed = q.closed ∧
      Stores q'.cells (heapifyUp (m := Id) cmp (queue.items.push ⟨item, priority⟩) queue.size
        (Nat.lt_succ_self _)) := by
  have hgranted := hsound.granted
  have hblock := hsound.block
  obtain ⟨size, hsizeNat, hlast, hinsert⟩ := insertRaw_eq (fun _ => cmp) hsound hroom item priority
  have hpushed := hitems.push (by omega) ⟨item, priority⟩
  obtain ⟨cells, hup, -, hstores⟩ := heapifyUpRaw_refines cmp 63 hpushed (hlast.trans hsize)
    (Nat.lt_succ_self _) (by omega)
  rw [hsize, hup] at hinsert
  exact ⟨_, hinsert, hsizeNat.trans (congrArg (· + 1) hsize), rfl, rfl, hstores⟩

/-- The queue of a push is taken to grow when `realloc` has granted it. -/
theorem queuePushRaw_refines (cmp : α → α → Int) (grants : Bool) (h : Represents q queue)
    (hsound : q.Sound) (item : α) (priority : TaskPriority) :
    ∃ grows, (grows = true → grants = true) ∧ ∃ q',
      queuePushRaw (fun _ => cmp) grants q item priority =
        .ok ((Id.run (queuePush cmp grows queue item priority)).1, q') ∧
      Represents q' (Id.run (queuePush cmp grows queue item priority)).2 := by
  have hsize := h.size
  have hcapacity := h.capacity
  unfold queuePushRaw
  by_cases hclosed : q.closed = true
  · refine ⟨false, by simp, q, ?_⟩
    rw [queuePush_closed cmp (h.closed ▸ hclosed), if_pos hclosed]
    exact ⟨rfl, h⟩
  have hopen : queue.closed = false := by simpa [h.closed] using hclosed
  rw [if_neg hclosed]
  by_cases hfull : q.size ≥ q.capacity
  · have hfullNat : queue.size ≥ queue.capacity := by
      have hle := UInt64.le_iff_toNat_le.mp hfull
      omega
    obtain ⟨newCapacity, bytes, hnew, hbytes, hnewNat, hbytesNat⟩ := grownCapacity_ok hsound
    rw [if_pos hfull]
    simp only [hnew, hbytes, bind, Except.bind]
    cases hrealloc : realloc grants q.cells bytes with
    | none =>
      have hresize : resize false queue = none := by
        rw [resize, if_pos hfullNat]
        rfl
      refine ⟨false, by simp, q, ?_⟩
      rw [queuePush_none cmp hopen hresize]
      exact ⟨rfl, h⟩
    | some cells =>
      obtain ⟨hgrants, hsound', hgrown, hsame⟩ := realloc_sound hsound hnewNat hbytesNat hrealloc
      have hresize : resize true queue = some newCapacity.toNat := by
        rw [resize, if_pos hfullNat, hnewNat, hcapacity]
        rfl
      have hitems : Stores cells queue.items := by
        intro k hk
        rw [hsame k (hsize ▸ hk)]
        exact h.items k hk
      obtain ⟨q', hinsert, hsize', hcapacity', hclosed', hstores⟩ := insertRaw_refines cmp hsound'
        (by change q.size.toNat < newCapacity.toNat; have hfits := hsound.fits; omega) hsize hitems
        item priority
      refine ⟨true, fun _ => hgrants, q', ?_⟩
      rw [queuePush_some cmp hopen hresize]
      exact ⟨hinsert, hsize', congrArg UInt64.toNat hcapacity', hclosed'.trans h.closed, hstores⟩
  · have hroom : ¬ queue.size ≥ queue.capacity := by
      have hlt := mt UInt64.le_iff_toNat_le.mpr hfull
      omega
    have hresize : resize false queue = some queue.capacity := by
      rw [resize, if_neg hroom]
    obtain ⟨q', hinsert, hsize', hcapacity', hclosed', hstores⟩ := insertRaw_refines cmp hsound
      (by omega) hsize h.items item priority
    refine ⟨false, by simp, q', ?_⟩
    rw [if_neg hfull, queuePush_some cmp hopen hresize]
    exact ⟨hinsert, hsize', (congrArg UInt64.toNat hcapacity').trans hcapacity,
      hclosed'.trans h.closed, hstores⟩

theorem queuePopRaw_refines (cmp : α → α → Int) (h : Represents q queue) (hsound : q.Sound) :
    ∃ q', queuePopRaw (fun _ => cmp) q = .ok ((Id.run (queuePop cmp queue)).1, q') ∧
      Represents q' (Id.run (queuePop cmp queue)).2 := by
  have hgranted := hsound.granted
  have hfits := hsound.fits
  have hsize := h.size
  have hitems := h.items
  unfold queuePopRaw queuePop
  by_cases hzero : q.size = 0
  · have hnone : queue.size = 0 := hsize ▸ congrArg UInt64.toNat hzero
    rw [if_pos hzero, dif_pos hnone, h.closed]
    exact ⟨q, rfl, h⟩
  have hsome : ¬ queue.size = 0 := fun hnone => hzero (UInt64.toNat_inj.mp (hsize.trans hnone))
  have hpred : (q.size - 1).toNat = queue.size - 1 := by
    rw [toNat_pred (by omega), hsize]
  have hfirstIn : (0 : UInt64).toNat < queue.size := Nat.pos_of_ne_zero hsome
  have hlastIn : (q.size - 1).toNat < queue.size := by omega
  have hwrite := hitems.filled.writeCell hfirstIn queue.items[queue.size - 1]
  have hmoved := (hitems.set hfirstIn queue.items[queue.size - 1]).pop
  rw [if_neg hzero, dif_neg hsome]
  simp only [hitems.readCell hfirstIn, hitems.readCell hlastIn, hpred, hwrite, bind, Except.bind]
  by_cases hmore : q.size - 1 > 0
  · have hmoreNat : 0 < queue.size - 1 := hpred ▸ UInt64.lt_iff_toNat_lt.mp hmore
    have hroot : (0 : UInt64).toNat = (⟨0, hmoreNat⟩ : Fin (queue.size - 1)).val := rfl
    obtain ⟨cells, hdown, -, hstores⟩ :=
      heapifyDownRaw_refines cmp 64 hmoved hpred hroot (by omega) (by omega)
    rw [if_pos hmore, dif_pos hmoreNat, hdown]
    exact ⟨_, rfl, hpred, h.capacity, h.closed, hstores⟩
  · have hlone : ¬ 0 < queue.size - 1 := fun hpos =>
      hmore (UInt64.lt_iff_toNat_lt.mpr (hpred.symm ▸ hpos))
    rw [if_neg hmore, dif_neg hlone]
    exact ⟨_, rfl, hpred, h.capacity, h.closed, hmoved⟩

/-- The item found at an index is removed as the response map removes it. -/
theorem removeAtRaw_refines (h : Represents q queue) (i : UInt64) (hi : i.toNat < queue.size) :
    ∃ q', removeAtRaw q i = .ok q' ∧ Represents q' (removeAt queue ⟨i.toNat, hi⟩) := by
  have hsize := h.size
  have hitems := h.items
  have hfound : i < q.size := UInt64.lt_iff_toNat_lt.mpr (hsize ▸ hi)
  have hpred : (q.size - 1).toNat = queue.size - 1 := by
    rw [toNat_pred (by omega), hsize]
  unfold removeAtRaw removeAt
  rw [if_pos hfound]
  by_cases hmove : i < q.size - 1
  · have hmoveNat : i.toNat < queue.size - 1 := hpred ▸ UInt64.lt_iff_toNat_lt.mp hmove
    have hlastIn : (q.size - 1).toNat < queue.size := by omega
    have hwrite := hitems.filled.writeCell hi queue.items[queue.size - 1]
    simp only [if_pos hmove, if_pos hmoveNat, hitems.readCell hlastIn, hpred, hwrite, bind, Except.bind]
    exact ⟨_, rfl, hpred, h.capacity, h.closed, (hitems.set hi queue.items[queue.size - 1]).pop⟩
  · have hlast : ¬ i.toNat < queue.size - 1 := fun hlt =>
      hmove (UInt64.lt_iff_toNat_lt.mpr (hpred.symm ▸ hlt))
    simp only [if_neg hmove, if_neg hlast, bind, Except.bind]
    exact ⟨_, rfl, hpred, h.capacity, h.closed, hitems.pop⟩

end Operations

/-- A call on the array and a critical section of the queue: the comparator answers alike in
all rounds, and the queue grows only where `realloc` may. -/
inductive Refines {α : Type} : RawEvent α → QueueEvent α → Prop
  | push {thread : Nat} {cmp : α → α → Int} {item : α} {priority : TaskPriority} {grants grows : Bool} :
      (grows = true → grants = true) →
        Refines ⟨fun _ => cmp, .push item priority grants⟩ ⟨thread, cmp, .push item priority grows⟩
  | pop {thread : Nat} {cmp : α → α → Int} : Refines ⟨fun _ => cmp, .pop⟩ ⟨thread, cmp, .pop⟩
  | close {thread : Nat} {cmp : α → α → Int} : Refines ⟨fun _ => cmp, .close⟩ ⟨thread, cmp, .close⟩

/-- A call of queue.c, or the removal in `deregister_client_response_queue` of the entry that
its scan has found. -/
inductive QueueSection (α : Type) where
  | call (e : QueueEvent α)
  | remove (i : Nat)

section Sections
variable {α : Type}

def queueSection (q : Queue α) : QueueSection α → Option (QueueOutcome α) × Queue α
  | .call e => (some (criticalSection q e).1, (criticalSection q e).2)
  | .remove i => (none, if h : i < q.size then removeAt q ⟨i, h⟩ else q)

def queueSections (q : Queue α) : List (QueueSection α) → List (Option (QueueOutcome α)) × Queue α
  | [] => ([], q)
  | x :: xs =>
    let r := queueSection q x
    let rest := queueSections r.2 xs
    (r.1 :: rest.1, rest.2)

/-- `rawStep` with what the call returns. -/
def rawCall (q : RawQueue α) (e : RawEvent α) : Checked (Option (QueueOutcome α) × RawQueue α) :=
  match e.call with
  | .push item priority grants =>
    (queuePushRaw e.cmp grants q item priority).map fun r => (some (.pushed r.1), r.2)
  | .pop => (queuePopRaw e.cmp q).map fun r => (some (.popped r.1), r.2)
  | .close => .ok (some .closed, queueCloseRaw q)
  | .remove i => (removeAtRaw q i).map fun q' => (none, q')

def rawCalls (q : RawQueue α) :
    List (RawEvent α) → Checked (List (Option (QueueOutcome α)) × RawQueue α)
  | [] => .ok ([], q)
  | e :: events => do
    let r ← rawCall q e
    let rest ← rawCalls r.2 events
    pure (r.1 :: rest.1, rest.2)

inductive RefinesSection : RawEvent α → QueueSection α → Prop
  | call {e : RawEvent α} {e' : QueueEvent α} : Refines e e' → RefinesSection e (.call e')
  | remove {cmp : Nat → α → α → Int} {i : UInt64} :
      RefinesSection ⟨cmp, .remove i⟩ (.remove i.toNat)

theorem rawCall_state (q : RawQueue α) (e : RawEvent α) :
    (rawCall q e).map Prod.snd = rawStep q e := by
  obtain ⟨cmp, call⟩ := e
  cases call with
  | push item priority grants =>
    simp only [rawCall, rawStep]
    cases queuePushRaw cmp grants q item priority <;> rfl
  | pop =>
    simp only [rawCall, rawStep]
    cases queuePopRaw cmp q <;> rfl
  | close => rfl
  | remove i =>
    simp only [rawCall, rawStep]
    cases removeAtRaw q i <;> rfl

end Sections

section Runs
variable {α : Type} {q : RawQueue α} {queue : Queue α}

theorem rawCall_refines (h : Represents q queue) (hsound : q.Sound) {e : RawEvent α}
    (hsteady : ∃ cmp, e.cmp = fun _ => cmp) :
    ∃ x q', RefinesSection e x ∧ rawCall q e = .ok ((queueSection queue x).1, q') ∧
      Represents q' (queueSection queue x).2 := by
  obtain ⟨cmps, call⟩ := e
  obtain ⟨cmp, rfl⟩ := hsteady
  cases call with
  | push item priority grants =>
    obtain ⟨grows, hgrows, q', hpush, hq'⟩ := queuePushRaw_refines cmp grants h hsound item priority
    refine ⟨.call ⟨0, cmp, .push item priority grows⟩, q', .call (.push hgrows), ?_, hq'⟩
    simp only [rawCall, hpush]
    rfl
  | pop =>
    obtain ⟨q', hpop, hq'⟩ := queuePopRaw_refines cmp h hsound
    refine ⟨.call ⟨0, cmp, .pop⟩, q', .call .pop, ?_, hq'⟩
    simp only [rawCall, hpop]
    rfl
  | close =>
    exact ⟨.call ⟨0, cmp, .close⟩, _, .call .close, rfl, h.size, h.capacity, rfl, h.items⟩
  | remove i =>
    refine ⟨.remove i.toNat, ?_⟩
    by_cases hi : i.toNat < queue.size
    · obtain ⟨q', hremove, hq'⟩ := removeAtRaw_refines h i hi
      simp only [rawCall, queueSection, hremove, dif_pos hi]
      exact ⟨q', .remove, rfl, hq'⟩
    · have hnone : ¬ i < q.size := fun hlt => hi (h.size ▸ UInt64.lt_iff_toNat_lt.mp hlt)
      simp only [rawCall, queueSection, removeAtRaw, if_neg hnone, dif_neg hi]
      exact ⟨q, .remove, rfl, h⟩

theorem rawCalls_refine (h : Represents q queue) (hsound : q.Sound) (events : List (RawEvent α))
    (hsteady : ∀ e ∈ events, ∃ cmp, e.cmp = fun _ => cmp) :
    ∃ sections q', List.Forall₂ RefinesSection events sections ∧
      rawCalls q events = .ok ((queueSections queue sections).1, q') ∧
      Represents q' (queueSections queue sections).2 := by
  induction events generalizing q queue with
  | nil => exact ⟨[], q, .nil, rfl, h⟩
  | cons e events ih =>
    obtain ⟨x, q₁, hrefines, hcall, h₁⟩ := rawCall_refines h hsound (hsteady e List.mem_cons_self)
    have hstep : rawStep q e = .ok q₁ := by
      rw [← rawCall_state, hcall]
      rfl
    obtain ⟨q₂, hstep', hsound₁⟩ := rawStep_ok hsound e
    obtain rfl : q₁ = q₂ := Except.ok.inj (hstep.symm.trans hstep')
    obtain ⟨sections, q', hall, hrun, hq'⟩ := ih h₁ hsound₁
      (fun e₁ he₁ => hsteady e₁ (List.mem_cons_of_mem e he₁))
    refine ⟨x :: sections, q', .cons hrefines hall, ?_, hq'⟩
    simp only [rawCalls, hcall, bind, Except.bind, hrun]
    rfl

/-- Calls on the array return what critical sections of the queue return, and leave in its
cells what those leave in the queue. -/
theorem array_refines_queue (events : List (RawEvent α))
    (hsteady : ∀ e ∈ events, ∃ cmp, e.cmp = fun _ => cmp) :
    ∃ sections q, List.Forall₂ RefinesSection events sections ∧
      rawCalls queueInitRaw events = .ok ((queueSections queueInit sections).1, q) ∧
      Represents q (queueSections queueInit sections).2 :=
  rawCalls_refine represents_queueInit queueInitRaw_sound events hsteady

theorem push_push_pop_refines :
    let cmp : Nat → Nat → Nat → Int := fun _ a b => a - b
    ∃ sections q, List.Forall₂ RefinesSection
        [⟨cmp, .push 3 .low true⟩, ⟨cmp, .push 7 .low true⟩, ⟨cmp, .pop⟩] sections ∧
      rawCalls queueInitRaw
          [⟨cmp, .push 3 .low true⟩, ⟨cmp, .push 7 .low true⟩, ⟨cmp, .pop⟩] =
        .ok ((queueSections queueInit sections).1, q) ∧
      Represents q (queueSections queueInit sections).2 := by
  apply array_refines_queue
  intro e he
  refine ⟨fun a b => a - b, ?_⟩
  simp only [List.mem_cons, List.not_mem_nil, or_false] at he
  obtain rfl | rfl | rfl := he <;> rfl

end Runs

end FileServer
