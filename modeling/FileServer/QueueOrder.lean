import FileServer.Queue

/-!
# The order in which tasks leave the queue

`heapify_up` and `heapify_down` keep `cmp parent child >= 0` for every total
preorder `cmp`, so a pop returns a maximum of `cmp`. `task_compare_priority`
is such a preorder, but it ranks the less urgent task higher: the maximum is the
task of lowest priority and, among those, of latest enqueue time.
-/

namespace FileServer

set_option autoImplicit false

/-- The laws of a three-way comparison by sign. -/
structure CompareLaws {α : Type} (cmp : α → α → Int) : Prop where
  sign : ∀ a b, 0 < cmp a b ↔ cmp b a < 0
  trans : ∀ {a b c}, 0 ≤ cmp a b → 0 ≤ cmp b c → 0 ≤ cmp a c

theorem CompareLaws.refl {α : Type} {cmp : α → α → Int} (laws : CompareLaws cmp) (a : α) :
    0 ≤ cmp a a := by
  have h := laws.sign a a
  omega

def Dominates {α : Type} (cmp : α → α → Int) (x y : PriorityItem α) : Prop :=
  0 ≤ cmp x.data y.data

def HeapQueue {α : Type} (cmp : α → α → Int) (q : Queue α) : Prop :=
  ArrayHeap.Ordered (Dominates cmp) q.items

theorem CompareLaws.dominates_trans {α : Type} {cmp : α → α → Int} (laws : CompareLaws cmp)
    (x y z : PriorityItem α) (hxy : Dominates cmp x y) (hyz : Dominates cmp y z) :
    Dominates cmp x z :=
  laws.trans hxy hyz

section Sift
variable {α : Type} {n : Nat} {cmp : α → α → Int} (laws : CompareLaws cmp)
include laws

theorem heapifyUp_ordered (items : Vector (PriorityItem α) n) (i : Nat) (h : i < n)
    (hr : ArrayHeap.UpReady (Dominates cmp) items i) :
    ArrayHeap.Ordered (Dominates cmp) (heapifyUp (m := Id) cmp items i h) := by
  induction items, i, h using heapifyUp.induct with
  | case1 items i h h0 parent hp ih =>
    rw [heapifyUp_eq, dif_pos h0]
    split
    · rename_i hge
      exact hr.ordered fun _ _ => hge
    · rename_i hlt
      apply ih
      refine hr.swap laws.dominates_trans h h0 ?_
      have hs := laws.sign (items.get ⟨i, h⟩).data (items.get ⟨(i - 1) / 2, by omega⟩).data
      exact Int.le_of_lt (hs.mpr (by omega))
  | case2 items i h h0 =>
    rw [heapifyUp_eq, dif_neg h0]
    exact hr.ordered fun _ hpos => absurd hpos h0

theorem larger_spec (items : Vector (PriorityItem α) n) (i child : Nat) (hc : i < child)
    (l : {j : Fin n // i ≤ j.val}) :
    let l' := larger (m := Id) cmp items i child hc l
    (l' = l ∨ l'.val.val = child) ∧
      Dominates cmp (items.get l'.val) (items.get l.val) ∧
      ∀ hn : child < n, Dominates cmp (items.get l'.val) (items.get ⟨child, hn⟩) := by
  intro l'
  by_cases hn : child < n
  · have hl' : l' = if cmp (items.get ⟨child, hn⟩).data (items.get l.val).data > 0
        then ⟨⟨child, hn⟩, Nat.le_of_lt hc⟩ else l := by
      change larger (m := Id) cmp items i child hc l = _
      unfold larger
      rw [dif_pos hn]
      rfl
    have hs := laws.sign (items.get ⟨child, hn⟩).data (items.get l.val).data
    rw [hl']
    split
    · rename_i hgt
      exact ⟨Or.inr rfl, Int.le_of_lt hgt, fun _ => laws.refl _⟩
    · rename_i hle
      exact ⟨Or.inl rfl, laws.refl _, fun _ => by unfold Dominates; omega⟩
  · have hl' : l' = l := by
      change larger (m := Id) cmp items i child hc l = _
      unfold larger
      rw [dif_neg hn]
      rfl
    rw [hl']
    exact ⟨Or.inl rfl, laws.refl _, fun h => absurd h hn⟩

theorem heapifyDown_ordered (items : Vector (PriorityItem α) n) (i : Fin n)
    (hr : ArrayHeap.DownReady (Dominates cmp) items i) :
    ArrayHeap.Ordered (Dominates cmp) (heapifyDown (m := Id) cmp items i) := by
  induction items, i using heapifyDown.induct with
  | case1 items i ih =>
    obtain ⟨l₁, l₂, hl₁, hl₂, heq⟩ := heapifyDown_cases cmp items i
    have h₁ := larger_spec laws items i (2 * i + 1) (by omega) ⟨i, Nat.le_refl _⟩
    have h₂ := larger_spec laws items i (2 * i + 2) (by omega) l₁
    dsimp only at h₁ h₂
    rw [← hl₁] at h₁
    rw [← hl₂] at h₂
    obtain ⟨hwhere₁, htop₁, hleft⟩ := h₁
    obtain ⟨hwhere₂, htop₂, hright⟩ := h₂
    rw [heq]
    have htop : Dominates cmp (items.get l₂.val) (items.get i) := laws.trans htop₂ htop₁
    have hbest : ∀ j (hj : j < n), 0 < j → ArrayHeap.parent j = i →
        Dominates cmp (items.get l₂.val) (items.get ⟨j, hj⟩) := by
      intro j hj h0 hp
      rcases ArrayHeap.child_cases h0 hp with rfl | rfl
      · exact laws.trans htop₂ (hleft hj)
      · exact hright hj
    split
    · rename_i hstop
      apply hr.ordered
      intro j h0 hp hj _
      have hd := hbest j hj h0 hp
      rw [hstop] at hd
      simpa only [hp] using hd
    · rename_i hne
      apply ih l₁ l₂ hne
      have hp : 0 < l₂.val.val ∧ ArrayHeap.parent l₂.val = i := by
        rcases hwhere₂ with he | he
        · rcases hwhere₁ with he' | he'
          · exact absurd (congrArg Subtype.val (he.trans he')) hne
          · rw [he, he']
            exact ⟨by omega, ArrayHeap.parent_left i⟩
        · rw [he]
          exact ⟨by omega, ArrayHeap.parent_right i⟩
      exact hr.swap l₂.val.isLt hp.1 hp.2 hbest htop

theorem queuePush_heapQueue (grows : Bool) {q : Queue α} (hq : HeapQueue cmp q) (item : α)
    (p : TaskPriority) : HeapQueue cmp (Id.run (queuePush cmp grows q item p)).2 := by
  unfold queuePush
  split
  · exact hq
  · split
    · exact hq
    · exact heapifyUp_ordered laws _ _ _ (ArrayHeap.upReady_push hq _)

theorem queuePop_heapQueue {q : Queue α} (hq : HeapQueue cmp q) :
    HeapQueue cmp (Id.run (queuePop cmp q)).2 := by
  unfold queuePop
  split
  · exact hq
  · rename_i hz
    have hs : 0 < q.size := Nat.pos_of_ne_zero hz
    dsimp only
    split
    · rename_i h1
      apply heapifyDown_ordered laws
      exact ArrayHeap.downReady_root hq (Nat.sub_le _ _)
        (fun j hj h0 => ArrayHeap.get_set_zero_pop _ _ hs hj h0)
    · rename_i h1
      intro j hj
      exact absurd (Nat.zero_lt_of_lt hj) h1

theorem queuePop_dominates {q q' : Queue α} {a : α} (hq : HeapQueue cmp q)
    (hpop : Id.run (queuePop cmp q) = (.item a, q')) :
    ∀ b ∈ q'.contents, 0 ≤ cmp a b := by
  rcases queuePop_cases cmp q with ⟨he, _⟩ | ⟨he, _⟩ | ⟨a', q'', he, _, hperm⟩
  · cases he.symm.trans hpop
  · cases he.symm.trans hpop
  have heq := he.symm.trans hpop
  cases heq
  intro b hb
  have hmem : b ∈ q.contents := hperm.subset (List.mem_cons_of_mem a hb)
  have hs : 0 < q.size := by
    rw [← length_contents]
    exact List.length_pos_of_mem hmem
  have ha : a = (q.items.get ⟨0, hs⟩).data := by
    unfold queuePop at hpop
    rw [dif_neg (Nat.ne_of_gt hs)] at hpop
    dsimp only at hpop
    split at hpop
    · cases hpop
      rfl
    · cases hpop
      rfl
  obtain ⟨x, hx, rfl⟩ := List.mem_map.mp hmem
  obtain ⟨i, hi, rfl⟩ := List.mem_iff_getElem.mp hx
  rw [ha]
  exact hq.root laws.dominates_trans (fun x => laws.refl x.data) hs i (by simpa using hi)

end Sift

def Timespec.Earlier (a b : Timespec) : Prop :=
  a.tvSec < b.tvSec ∨ (a.tvSec = b.tvSec ∧ a.tvNsec < b.tvNsec)

instance (a b : Timespec) : Decidable (a.Earlier b) :=
  inferInstanceAs (Decidable (_ ∨ _))

theorem taskComparePriority_nonneg (a b : Task) :
    0 ≤ taskComparePriority a b ↔
      a.priority.rank < b.priority.rank ∨
      (a.priority.rank = b.priority.rank ∧ ¬ a.enqueueTime.Earlier b.enqueueTime) := by
  unfold taskComparePriority Timespec.Earlier
  grind

theorem taskComparePriority_laws : CompareLaws taskComparePriority := by
  constructor
  · intro a b
    unfold taskComparePriority
    grind
  · intro a b c hab hbc
    rw [taskComparePriority_nonneg] at *
    unfold Timespec.Earlier at *
    omega

inductive TaskCall where
  | push (task : Task) (grows : Bool)
  | pop
  deriving Repr

/-- A `queue_pop` that returned a task, with the queue before and after it. -/
structure PopEvent where
  before : Queue Task
  task : Task
  after : Queue Task

def taskCall (q : Queue Task) : TaskCall → Queue Task × List PopEvent
  | .push task grows =>
    ((Id.run (queuePush taskComparePriority grows q task task.priority)).2, [])
  | .pop =>
    match Id.run (queuePop taskComparePriority q) with
    | (.item task, q') => (q', [⟨q, task, q'⟩])
    | (_, q') => (q', [])

def popEvents (q : Queue Task) : List TaskCall → List PopEvent
  | [] => []
  | call :: calls => (taskCall q call).2 ++ popEvents (taskCall q call).1 calls

/-- Nothing left behind has a larger priority, or the same priority and an
earlier enqueue time. -/
def MostUrgent (e : PopEvent) : Prop :=
  ∀ r ∈ e.after.contents, ¬ e.task.priority.rank < r.priority.rank ∧
    ¬ (r.priority = e.task.priority ∧ r.enqueueTime.Earlier e.task.enqueueTime)

instance (e : PopEvent) : Decidable (MostUrgent e) :=
  inferInstanceAs (Decidable (∀ r ∈ _, _))

/-- All waiting tasks carry the same priority and the same enqueue time. -/
def Level (q : Queue Task) : Prop :=
  ∀ a ∈ q.contents, ∀ b ∈ q.contents, a.priority = b.priority ∧ a.enqueueTime = b.enqueueTime

theorem taskCall_heapQueue {q : Queue Task} (hq : HeapQueue taskComparePriority q)
    (call : TaskCall) : HeapQueue taskComparePriority (taskCall q call).1 := by
  cases call with
  | push task grows => exact queuePush_heapQueue taskComparePriority_laws grows hq task _
  | pop =>
    have h := queuePop_heapQueue taskComparePriority_laws hq
    unfold taskCall
    rcases hp : Id.run (queuePop taskComparePriority q) with ⟨a, q'⟩
    rw [hp] at h
    cases a <;> exact h

theorem popEvents_heapQueue (calls : List TaskCall) {q : Queue Task}
    (hq : HeapQueue taskComparePriority q) :
    ∀ e ∈ popEvents q calls, HeapQueue taskComparePriority e.before ∧
      Id.run (queuePop taskComparePriority e.before) = (.item e.task, e.after) := by
  induction calls generalizing q with
  | nil => simp [popEvents]
  | cons call calls ih =>
    intro e he
    rcases List.mem_append.mp he with he | he
    · cases call with
      | push task grows => simp [taskCall] at he
      | pop =>
        unfold taskCall at he
        rcases hp : Id.run (queuePop taskComparePriority q) with ⟨a, q'⟩
        rw [hp] at he
        cases a with
        | blocked => simp at he
        | null => simp at he
        | item task =>
          simp only [List.mem_singleton] at he
          subst e
          exact ⟨hq, hp⟩
    · exact ih (taskCall_heapQueue hq call) e he

theorem mostUrgent_iff_level {e : PopEvent} (hq : HeapQueue taskComparePriority e.before)
    (hpop : Id.run (queuePop taskComparePriority e.before) = (.item e.task, e.after)) :
    MostUrgent e ↔ Level e.before := by
  have hdom := queuePop_dominates taskComparePriority_laws hq hpop
  have hperm : (e.task :: e.after.contents).Perm e.before.contents := by
    rcases queuePop_cases taskComparePriority e.before with ⟨he, _⟩ | ⟨he, _⟩ | ⟨_, _, he, _, hp⟩
    · cases he.symm.trans hpop
    · cases he.symm.trans hpop
    · cases he.symm.trans hpop
      exact hp
  constructor
  · intro hu
    have hsame : ∀ r ∈ e.before.contents,
        r.priority = e.task.priority ∧ r.enqueueTime = e.task.enqueueTime := by
      intro r hr
      rcases List.mem_cons.mp (hperm.symm.subset hr) with rfl | hr
      · exact ⟨rfl, rfl⟩
      · obtain ⟨hnot, htime⟩ := hu r hr
        rcases (taskComparePriority_nonneg _ _).mp (hdom r hr) with hlt | ⟨hrank, hlate⟩
        · exact absurd hlt hnot
        · have hpr := (TaskPriority.rank_injective hrank).symm
          have hearly : ¬ r.enqueueTime.Earlier e.task.enqueueTime := fun h => htime ⟨hpr, h⟩
          refine ⟨hpr, ?_⟩
          rcases hrt : r.enqueueTime with ⟨rs, rn⟩
          rcases het : e.task.enqueueTime with ⟨ts, tn⟩
          simp only [hrt, het, Timespec.Earlier] at hlate hearly
          have hs : rs = ts := by omega
          have hn : rn = tn := by omega
          rw [hs, hn]
    intro a ha b hb
    exact ⟨(hsame a ha).1.trans (hsame b hb).1.symm, (hsame a ha).2.trans (hsame b hb).2.symm⟩
  · intro hl r hr
    have ht := hperm.subset List.mem_cons_self
    have hr' := hperm.subset (List.mem_cons_of_mem e.task hr)
    obtain ⟨hpr, htime⟩ := hl r hr' e.task ht
    rw [hpr, htime]
    refine ⟨Nat.lt_irrefl _, fun h => ?_⟩
    have := h.2
    unfold Timespec.Earlier at this
    omega

theorem queueInit_heapQueue {α : Type} (cmp : α → α → Int) : HeapQueue cmp (queueInit : Queue α) :=
  fun _ hj => absurd hj (Nat.not_lt_zero _)

/-- In every run of pushes and pops the code pops most urgent tasks exactly at
the pops that find no two different urgencies in the queue. -/
theorem pops_mostUrgent_iff_level (calls : List TaskCall) :
    (∀ e ∈ popEvents queueInit calls, MostUrgent e) ↔
      ∀ e ∈ popEvents queueInit calls, Level e.before := by
  have hinv := popEvents_heapQueue calls (queueInit_heapQueue taskComparePriority)
  constructor
  · intro h e he
    exact (mostUrgent_iff_level (hinv e he).1 (hinv e he).2).mp (h e he)
  · intro h e he
    exact (mostUrgent_iff_level (hinv e he).1 (hinv e he).2).mpr (h e he)

/-- Two tasks of one client, submitted a second apart. -/
def listTask (sec : Int) : Task :=
  taskCreate .list ⟨1, 5⟩ (cstr "alice") [] [] [] 0 .low ⟨sec, 0⟩

def deleteTask (sec : Int) : Task :=
  taskCreate .delete ⟨1, 5⟩ (cstr "alice") [] (cstr "f") [] 0 .high ⟨sec, 0⟩

theorem low_priority_pops_first :
    ¬ ∀ calls, ∀ e ∈ popEvents queueInit calls, MostUrgent e := by
  intro h
  have hbad : ∃ e ∈ popEvents queueInit
      [.push (deleteTask 1) true, .push (listTask 2) true, .pop], ¬ MostUrgent e := by
    decide +kernel
  obtain ⟨e, he, hnot⟩ := hbad
  exact hnot (h _ e he)

end FileServer
