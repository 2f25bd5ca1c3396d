import FileServer.Registry

/-!
# What the shared heap compares

All queues call `task_compare_priority`, which reads `Task` fields. Queue items
are tagged with their type here and the comparison is undefined unless both are
tasks. A push compares its item exactly when the queue was not empty, a pop
when it leaves two or more items; so only queues that never hold two items of
another type are safe.
-/

namespace FileServer

set_option autoImplicit false

inductive Item where
  | task (task : Task)
  | clientInfo (ci : ClientInfo)
  | entry (a : Addr)
  | response (r : Response)

def taskCompare? : Item → Item → Option Int
  | .task a, .task b => some (taskComparePriority a b)
  | _, _ => none

def taggedComparators : Comparators Option where
  task := fun a b => taskCompare? (.task a.task) (.task b.task)
  client := fun a b => taskCompare? (.clientInfo a) (.clientInfo b)
  entry := fun a b => taskCompare? (.entry a) (.entry b)
  response := fun a b => taskCompare? (.response a.response) (.response b.response)

/-- `queue_push` returns false without touching the queue. -/
def Refused {α : Type} (grows : Bool) (q : Queue α) : Prop :=
  q.closed = true ∨ resize grows q = none

section Partial
variable {α : Type} {n : Nat}

/-- With a comparison that is always defined nothing is lost in `Option`. -/
theorem heapifyUp_total (f : α → α → Int) (items : Vector (PriorityItem α) n) (i : Nat) (h : i < n) :
    heapifyUp (m := Option) (fun a b => some (f a b)) items i h =
      some (heapifyUp (m := Id) f items i h) := by
  induction i using Nat.strongRecOn generalizing items with
  | ind i ih =>
    rw [heapifyUp, heapifyUp_eq]
    split
    · rename_i h0
      change (if f _ _ ≥ 0 then some items else heapifyUp (m := Option) _ _ _ _) = _
      rw [ih ((i - 1) / 2) (by omega)]
      exact (apply_ite some _ _ _).symm
    · rfl

theorem heapifyDown_total (f : α → α → Int) (items : Vector (PriorityItem α) n) (i : Fin n) :
    heapifyDown (m := Option) (fun a b => some (f a b)) items i =
      some (heapifyDown (m := Id) f items i) := by
  have hlarger : ∀ (items : Vector (PriorityItem α) n) (i c : Nat) (hc : i < c)
      (l : {j : Fin n // i ≤ j.val}),
      larger (m := Option) (fun a b => some (f a b)) items i c hc l =
        some (larger (m := Id) f items i c hc l) := by
    intro items i c hc l
    unfold larger
    split <;> rfl
  induction items, i using heapifyDown.induct with
  | case1 items i ih =>
    obtain ⟨l₁, l₂, h₁, h₂, heq⟩ := heapifyDown_cases f items i
    rw [heq, heapifyDown, hlarger, ← h₁]
    simp only [Option.bind_eq_bind, Option.bind_some]
    rw [hlarger, ← h₂]
    simp only [Option.bind_some]
    split
    · rfl
    · rename_i hne
      exact ih l₁ l₂ hne

theorem queuePush_total (f : α → α → Int) (grows : Bool) (q : Queue α) (item : α)
    (p : TaskPriority) :
    queuePush (m := Option) (fun a b => some (f a b)) grows q item p =
      some (Id.run (queuePush f grows q item p)) := by
  unfold queuePush
  split
  · rfl
  split
  · rfl
  rw [heapifyUp_total]
  rfl

theorem queuePop_total (f : α → α → Int) (q : Queue α) :
    queuePop (m := Option) (fun a b => some (f a b)) q = some (Id.run (queuePop f q)) := by
  unfold queuePop
  split
  · rfl
  dsimp only
  split
  · rw [heapifyDown_total]
    rfl
  · rfl

/-- A push to an empty queue compares nothing. -/
theorem queuePush_lone (cmp : α → α → Option Int) (f : α → α → Int) {grows : Bool} {q : Queue α}
    (h : q.size = 0 ∨ Refused grows q) (item : α) (p : TaskPriority) :
    queuePush (m := Option) cmp grows q item p = some (Id.run (queuePush f grows q item p)) := by
  unfold queuePush
  split
  · rfl
  rename_i hopen
  split
  · rfl
  rename_i capacity hresize
  rcases h with hsize | hclosed | hfull
  · rw [heapifyUp, dif_neg (by omega), heapifyUp, dif_neg (by omega)]
    rfl
  · exact absurd hclosed hopen
  · rw [hfull] at hresize
    contradiction

/-- A push to a queue with items compares, whatever the sift loop then does. -/
theorem queuePush_crowded (cmp : α → α → Option Int) (hcmp : ∀ a b, cmp a b = none) {grows : Bool}
    {q : Queue α} (hsize : q.size ≠ 0) (hrefused : ¬ Refused grows q) (item : α) (p : TaskPriority) :
    queuePush (m := Option) cmp grows q item p = none := by
  unfold queuePush
  split
  · rename_i hclosed
    exact absurd (Or.inl hclosed) hrefused
  split
  · rename_i hfull
    exact absurd (Or.inr hfull) hrefused
  rw [heapifyUp, dif_pos (Nat.pos_of_ne_zero hsize)]
  simp only [hcmp]
  rfl

theorem queuePop_lone (cmp : α → α → Option Int) (f : α → α → Int) {q : Queue α}
    (h : q.size ≤ 1) : queuePop (m := Option) cmp q = some (Id.run (queuePop f q)) := by
  unfold queuePop
  split
  · rfl
  dsimp only
  rw [dif_neg (by omega), dif_neg (by omega)]
  rfl

theorem size_queuePush_lone (f : α → α → Int) {grows : Bool} {q : Queue α}
    (h : q.size = 0 ∨ Refused grows q) (hsmall : q.size ≤ 1) (item : α) (p : TaskPriority) :
    (Id.run (queuePush f grows q item p)).2.size ≤ 1 := by
  unfold queuePush
  split
  · exact hsmall
  rename_i hopen
  split
  · exact hsmall
  rename_i capacity hresize
  rcases h with hsize | hclosed | hfull
  · change q.size + 1 ≤ 1
    omega
  · exact absurd hclosed hopen
  · rw [hfull] at hresize
    contradiction

end Partial

/-- No queue of other items than tasks holds two of them. -/
structure Small (s : Server) : Prop where
  client : s.clientQueue.size ≤ 1
  map : s.responseMap.size ≤ 1
  entries : ∀ a e, s.mem a = some e → e.queue.size ≤ 1

/-- A connection, an entry or a response is pushed only when its queue is empty. -/
def Lone (s : Server) : Action → Prop
  | .accept fd (some a) grows => s.main = .accepting → s.sockets fd = none → s.mem a = none →
      s.responseMap.size = 0 ∨ Refused grows s.responseMap
  | .enqueue grows => ∀ ci, s.main = .accepted ci →
      s.clientQueue.size = 0 ∨ Refused grows s.clientQueue
  | .push w grows => ∀ a r rest e, s.workers w = .pushing a r rest → s.mem a = some e →
      e.queue.size = 0 ∨ Refused grows e.queue
  | _ => True

section Steps
variable {s s' : Server}

theorem accept_lone {fd : Nat} {entry : Option Addr} {grows : Bool}
    (h : Lone s (.accept fd entry grows)) :
    step taggedComparators s (.accept fd entry grows) =
      some (serverStep s (taskComparators, .accept fd entry grows)) := by
  unfold serverStep step
  dsimp only
  split
  · rename_i hmain
    split
    · rename_i hfree
      cases entry with
      | none => rfl
      | some a =>
        have hlone := h hmain hfree.1 (by simpa using hfree.2)
        unfold registerClientResponseQueue
        dsimp only
        rw [queuePush_lone taggedComparators.entry taskComparators.entry hlone]
        cases he : Id.run (queuePush taskComparators.entry grows s.responseMap a .normal) with
        | mk ok map =>
          rw [eq_of_run he]
          cases ok <;> rfl
    · rfl
  · rfl

theorem enqueue_lone {grows : Bool} (h : Lone s (.enqueue grows)) :
    step taggedComparators s (.enqueue grows) =
      some (serverStep s (taskComparators, .enqueue grows)) := by
  unfold serverStep step
  dsimp only
  split
  · rename_i ci hmain
    rw [queuePush_lone taggedComparators.client taskComparators.client (h ci hmain)]
    rfl
  · rfl

theorem push_lone {w : Nat} {grows : Bool} (h : Lone s (.push w grows)) :
    step taggedComparators s (.push w grows) =
      some (serverStep s (taskComparators, .push w grows)) := by
  unfold serverStep step
  dsimp only
  split
  · rename_i a r rest hphase
    split
    · rename_i e hmem
      rw [queuePush_lone taggedComparators.response taskComparators.response
        (h a r rest e hphase hmem)]
      rfl
    · rfl
  · rfl

theorem command_total (t : Nat) (line : CString) (now : Timespec) (grows : Bool) :
    step taggedComparators s (.command t line now grows) =
      some (serverStep s (taskComparators, .command t line now grows)) := by
  unfold serverStep step
  dsimp only
  split
  · split
    · rfl
    · rfl
    · have htotal : taggedComparators.task = fun a b => some (taskComparators.task a b) := rfl
      rw [htotal, queuePush_total]
      rfl
  · rfl

theorem takeClient_small (h : Small s) (t : Nat) :
    step taggedComparators s (.takeClient t) =
      some (serverStep s (taskComparators, .takeClient t)) := by
  unfold serverStep step
  dsimp only
  split
  · rw [queuePop_lone taggedComparators.client taskComparators.client h.client]
    cases he : Id.run (queuePop taskComparators.client s.clientQueue) with
    | mk popped q =>
      rw [eq_of_run he]
      cases popped <;> rfl
  · rfl

theorem deliver_small (h : Small s) (t : Nat) :
    step taggedComparators s (.deliver t) = some (serverStep s (taskComparators, .deliver t)) := by
  unfold serverStep step
  dsimp only
  split
  · split
    · rename_i e hmem
      rw [queuePop_lone taggedComparators.response taskComparators.response (h.entries _ e hmem)]
      cases he : Id.run (queuePop taskComparators.response e.queue) with
      | mk popped q =>
        rw [eq_of_run he]
        cases popped <;> rfl
    · rfl
  · rfl

theorem takeTask_total (w : Nat) :
    step taggedComparators s (.takeTask w) = some (serverStep s (taskComparators, .takeTask w)) := by
  unfold serverStep step
  dsimp only
  split
  · have htotal : taggedComparators.task = fun a b => some (taskComparators.task a b) := rfl
    rw [htotal, queuePop_total]
    cases he : Id.run (queuePop taskComparators.task s.taskQueue) with
    | mk popped q =>
      rw [eq_of_run he]
      cases popped <;> rfl
  · rfl

/-- While the queues are small, a step that pushes to empty queues only makes no
undefined comparison. -/
theorem step_lone (hsmall : Small s) {action : Action} (h : Lone s action) :
    step taggedComparators s action = some (serverStep s (taskComparators, action)) := by
  cases action with
  | accept fd entry grows => exact accept_lone h
  | enqueue grows => exact enqueue_lone h
  | push w grows => exact push_lone h
  | command t line now grows => exact command_total t line now grows
  | takeClient t => exact takeClient_small hsmall t
  | deliver t => exact deliver_small hsmall t
  | takeTask w => exact takeTask_total w
  | findEntry t =>
    unfold serverStep step
    dsimp only
    split
    · split <;> rfl
    · rfl
  | timeOut t allocates =>
    unfold serverStep step
    dsimp only
    split
    · split <;> rfl
    · rfl
  | waitFails t =>
    unfold serverStep step
    dsimp only
    split
    · split <;> rfl
    · rfl
  | unlink t =>
    unfold serverStep step
    dsimp only
    split
    · split <;> rfl
    · rfl
  | lockUser w works =>
    unfold serverStep step
    dsimp only
    split
    · split <;> rfl
    · rfl
  | process w works files =>
    unfold serverStep step
    dsimp only
    split
    · split <;> rfl
    · rfl
    · rfl
  | respond w allocates =>
    unfold serverStep step
    dsimp only
    split
    · split <;> rfl
    · rfl
  | _ =>
    unfold serverStep step
    dsimp only
    split <;> rfl

theorem step_crowded {action : Action} (h : ¬ Lone s action) :
    step taggedComparators s action = none := by
  cases action with
  | accept fd entry grows =>
    cases entry with
    | none => exact absurd trivial h
    | some a =>
      obtain ⟨hmain, hfd, hmem, hsize, hrefused⟩ : s.main = .accepting ∧ s.sockets fd = none ∧
          s.mem a = none ∧ s.responseMap.size ≠ 0 ∧ ¬ Refused grows s.responseMap := by
        simpa [Lone] using h
      unfold step
      dsimp only
      rw [hmain]
      dsimp only
      rw [if_pos ⟨hfd, by simp [hmem]⟩]
      unfold registerClientResponseQueue
      dsimp only
      rw [queuePush_crowded taggedComparators.entry (fun _ _ => rfl) hsize hrefused]
      rfl
  | enqueue grows =>
    obtain ⟨ci, hmain, hsize, hrefused⟩ : ∃ ci, s.main = .accepted ci ∧ s.clientQueue.size ≠ 0 ∧
        ¬ Refused grows s.clientQueue := by
      simpa [Lone] using h
    unfold step
    dsimp only
    rw [hmain]
    dsimp only
    rw [queuePush_crowded taggedComparators.client (fun _ _ => rfl) hsize hrefused]
    rfl
  | push w grows =>
    obtain ⟨a, r, rest, hphase, e, hmem, hsize, hrefused⟩ : ∃ a r rest,
        s.workers w = .pushing a r rest ∧ ∃ e, s.mem a = some e ∧ e.queue.size ≠ 0 ∧
          ¬ Refused grows e.queue := by
      simpa [Lone] using h
    unfold step
    dsimp only
    rw [hphase]
    dsimp only
    rw [hmem]
    dsimp only
    rw [queuePush_crowded taggedComparators.response (fun _ _ => rfl) hsize hrefused]
    rfl
  | _ => exact absurd trivial h

theorem Small.setEntry (h : Small s) (hclient : s'.clientQueue = s.clientQueue)
    (hmap : s'.responseMap.size ≤ 1) {a : Addr} {o : Option ResponseQueueEntry}
    (hmem : s'.mem = Function.update s.mem a o) (ho : ∀ e, o = some e → e.queue.size ≤ 1) :
    Small s' := by
  refine ⟨hclient ▸ h.client, hmap, ?_⟩
  intro b e hb
  rw [hmem] at hb
  rcases HandleTable.update_eq_some hb with ⟨_, heq⟩ | ⟨_, hb⟩
  · exact ho e heq
  · exact h.entries b e hb

theorem accept_keeps_small (hsmall : Small s) {fd : Nat} {entry : Option Addr} {grows : Bool}
    (h : Lone s (.accept fd entry grows))
    (hstep : serverStep s (taskComparators, .accept fd entry grows) = some s') : Small s' := by
  unfold serverStep step at hstep
  dsimp only at hstep
  split at hstep
  · rename_i hmain
    split at hstep
    · rename_i hfree
      cases entry with
      | none =>
        cases hstep
        exact ⟨hsmall.client, hsmall.map, hsmall.entries⟩
      | some a =>
        have hsize := size_queuePush_lone taskComparators.entry
          (h hmain hfree.1 (by simpa using hfree.2)) hsmall.map a .normal
        unfold registerClientResponseQueue at hstep
        dsimp only at hstep
        cases he : Id.run (queuePush taskComparators.entry grows s.responseMap a .normal) with
        | mk ok map =>
          rw [eq_of_run he] at hstep
          rw [he] at hsize
          cases ok with
          | true =>
            cases hstep
            refine hsmall.setEntry rfl hsize rfl ?_
            intro e he
            cases he
            exact Nat.zero_le 1
          | false =>
            cases hstep
            exact ⟨hsmall.client, hsmall.map, hsmall.entries⟩
    · contradiction
  · contradiction

theorem enqueue_keeps_small (hsmall : Small s) {grows : Bool} (h : Lone s (.enqueue grows))
    (hstep : serverStep s (taskComparators, .enqueue grows) = some s') : Small s' := by
  unfold serverStep step at hstep
  dsimp only at hstep
  split at hstep
  · rename_i ci hmain
    cases hstep
    exact ⟨size_queuePush_lone taskComparators.client (h ci hmain) hsmall.client ci .normal,
      hsmall.map, hsmall.entries⟩
  · contradiction

theorem push_keeps_small (hsmall : Small s) {w : Nat} {grows : Bool} (h : Lone s (.push w grows))
    (hstep : serverStep s (taskComparators, .push w grows) = some s') : Small s' := by
  unfold serverStep step at hstep
  dsimp only at hstep
  split at hstep
  · rename_i a r rest hphase
    split at hstep
    · rename_i e hmem
      cases hstep
      refine hsmall.setEntry rfl hsmall.map rfl ?_
      intro e' he'
      cases he'
      exact size_queuePush_lone taskComparators.response (h a r rest e hphase hmem)
        (hsmall.entries a e hmem) r .normal
    · cases hstep
      exact ⟨hsmall.client, hsmall.map, hsmall.entries⟩
  · contradiction

theorem size_of_perm {α : Type} {q q' : Queue α} {a : α} (h : (a :: q'.contents).Perm q.contents)
    (hq : q.size ≤ 1) : q'.size ≤ 1 := by
  have hlen := h.length_eq
  rw [List.length_cons, length_contents, length_contents] at hlen
  omega

theorem step_keeps_small (hsmall : Small s) {action : Action} (h : Lone s action)
    (hstep : serverStep s (taskComparators, action) = some s') : Small s' := by
  have hm : Moves s action s' := serverStep_moves hstep
  cases hm with
  | acceptRegistered _ _ _ _ _ => exact accept_keeps_small hsmall h hstep
  | acceptUnregistered _ _ _ => exact accept_keeps_small hsmall h hstep
  | enqueue _ _ => exact enqueue_keeps_small hsmall h hstep
  | push _ _ _ => exact push_keeps_small hsmall h hstep
  | takeClient _ hperm =>
    exact ⟨size_of_perm hperm hsmall.client, hsmall.map, hsmall.entries⟩
  | unlink _ _ hperm _ =>
    exact ⟨hsmall.client, size_of_perm hperm.symm hsmall.map, hsmall.entries⟩
  | @deliver t ci a e r q _ hmem hperm =>
    refine hsmall.setEntry rfl hsmall.map rfl ?_
    intro e' he'
    cases he'
    exact size_of_perm hperm (hsmall.entries a e hmem)
  | @closeEntry t a _ =>
    refine hsmall.setEntry rfl hsmall.map rfl ?_
    intro e he
    obtain ⟨e₀, hmem, rfl⟩ := Option.map_eq_some_iff.mp he
    exact hsmall.entries a e₀ hmem
  | free _ =>
    refine hsmall.setEntry rfl hsmall.map rfl ?_
    intro e he
    contradiction
  | _ => exact ⟨hsmall.client, hsmall.map, hsmall.entries⟩

end Steps

/-- Along the actions, as far as they are enabled, no comparison is undefined. -/
def typeSafe (s : Server) : List Action → Bool
  | [] => true
  | a :: as =>
    match step taggedComparators s a with
    | none => false
    | some none => true
    | some (some s') => typeSafe s' as

/-- Along the actions, as far as they are enabled, items other than tasks are
pushed to empty queues only. -/
def LoneAlong (s : Server) : List Action → Prop
  | [] => True
  | a :: as => Lone s a ∧ ∀ s', serverStep s (taskComparators, a) = some s' → LoneAlong s' as

theorem typeSafe_of_small {s : Server} (hsmall : Small s) (actions : List Action) :
    typeSafe s actions = true ↔ LoneAlong s actions := by
  induction actions generalizing s with
  | nil => simp [typeSafe, LoneAlong]
  | cons a as ih =>
    rw [typeSafe, LoneAlong]
    by_cases h : Lone s a
    · rw [step_lone hsmall h]
      cases hstep : serverStep s (taskComparators, a) with
      | none => simp [h]
      | some s' =>
        simp only [h, true_and, Option.some.injEq, forall_eq']
        exact ih (step_keeps_small hsmall h hstep)
    · rw [step_crowded h]
      simp [h]

/-- The heap compares only tasks exactly in the runs in which every connection,
entry and response is pushed to an empty queue. -/
theorem typeSafe_iff_lone (store : UserStore) (actions : List Action) :
    typeSafe (serverInit store) actions = true ↔ LoneAlong (serverInit store) actions := by
  apply typeSafe_of_small
  refine ⟨Nat.zero_le 1, Nat.zero_le 1, ?_⟩
  intro a e he
  contradiction

/-- Registering a second connection compares two response entries. -/
theorem second_connection_compares_entries :
    ¬ ∀ (store : UserStore) (actions : List Action), typeSafe (serverInit store) actions = true := by
  intro h
  have hsafe := h emptyStore
    [.accept 4 (some 0) true, .enqueue true, .takeClient 0, .accept 5 (some 1) true]
  revert hsafe
  decide +kernel

end FileServer
