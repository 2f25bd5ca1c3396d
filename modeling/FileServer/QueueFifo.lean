import FileServer.QueueConservation

/-!
# The order among equal items (queue.c)

When all comparisons say equal, the sift loops move nothing. A push then appends, but a
pop moves the last item to the root: of three items or more the youngest comes to
stand first. The queue returns its items in order as long as no pop that finds three of
them is followed by another that finds any.
-/

namespace FileServer

set_option autoImplicit false

variable {α : Type} {n : Nat}

/-- All items compare equal, as responses do, whose compared bytes are zero. -/
def AllEqual (cmp : α → α → Int) : Prop := ∀ a b, cmp a b = 0

section Equal
variable {cmp : α → α → Int}

theorem heapifyUp_equal (h : AllEqual cmp) (items : Vector (PriorityItem α) n) (i : Nat)
    (hi : i < n) : heapifyUp (m := Id) cmp items i hi = items := by
  rw [heapifyUp_eq]
  split
  · rw [h, if_pos (Int.le_refl 0)]
  · rfl

theorem larger_equal (h : AllEqual cmp) (items : Vector (PriorityItem α) n) (i child : Nat)
    (hc : i < child) (largest : {j : Fin n // i ≤ j.val}) :
    larger (m := Id) cmp items i child hc largest = largest := by
  unfold larger
  split
  · rename_i hchild
    change (if cmp items[child].data (items.get largest.val).data > 0 then _ else largest) = largest
    rw [h, if_neg (Int.lt_irrefl 0)]
  · rfl

theorem heapifyDown_equal (h : AllEqual cmp) (items : Vector (PriorityItem α) n) (i : Fin n) :
    heapifyDown (m := Id) cmp items i = items := by
  obtain ⟨l₁, l₂, hl₁, hl₂, heq⟩ := heapifyDown_cases cmp items i
  rw [larger_equal h] at hl₁ hl₂
  rw [heq, if_pos (by rw [hl₂, hl₁])]

theorem queuePush_equal (h : AllEqual cmp) (grows : Bool) (q : Queue α) (item : α)
    (p : TaskPriority) :
    Id.run (queuePush cmp grows q item p) = (false, q) ∨
    ∃ q', Id.run (queuePush cmp grows q item p) = (true, q') ∧ q'.contents = q.contents ++ [item] := by
  unfold queuePush
  split
  · exact Or.inl rfl
  · split
    · exact Or.inl rfl
    · refine Or.inr ⟨_, rfl, ?_⟩
      rw [Queue.contents, heapifyUp_equal h, Vector.toList_push, List.map_append]
      rfl

theorem queuePop_equal (h : AllEqual cmp) (q : Queue α) :
    (q.contents = [] ∧ (Id.run (queuePop cmp q)).2 = q ∧
      ((Id.run (queuePop cmp q)).1 = .blocked ∨ (Id.run (queuePop cmp q)).1 = .null)) ∨
    ∃ a rest last q', q.contents = a :: rest ∧ (a :: rest).getLast? = some last ∧
      Id.run (queuePop cmp q) = (.item a, q') ∧ q'.contents = (last :: rest).dropLast := by
  unfold queuePop
  split
  · rename_i hz
    have hnil : q.contents = [] := List.eq_nil_of_length_eq_zero (by simpa using hz)
    refine Or.inl ⟨hnil, rfl, ?_⟩
    cases q.closed with
    | false => exact Or.inl rfl
    | true => exact Or.inr rfl
  · rename_i hz
    have hs : 0 < q.size := Nat.pos_of_ne_zero hz
    have hlen := length_contents q
    obtain ⟨a, rest, hcontents⟩ := List.exists_cons_of_ne_nil
      (fun hnil : q.contents = [] => hz (by rw [← hlen, hnil]; rfl))
    have hget : ∀ i (hi : i < q.size), q.contents[i]? = some (q.items[i].data) := by
      intro i hi
      simp [Queue.contents, hi]
    have ha : q.items[0].data = a := by
      have hfirst := hget 0 hs
      rw [hcontents] at hfirst
      exact (Option.some.inj hfirst).symm
    have hlast : (a :: rest).getLast? = some (q.items[q.size - 1].data) := by
      rw [List.getLast?_eq_getElem?, ← hcontents, hlen]
      exact hget _ _
    have hrest : ((q.items.set 0 q.items[q.size - 1]).pop).toList.map PriorityItem.data =
        (q.items[q.size - 1].data :: rest).dropLast := by
      have hset : (q.contents.set 0 q.items[q.size - 1].data) = q.items[q.size - 1].data :: rest := by
        rw [hcontents, List.set_cons_zero]
      rw [Vector.toList_pop, Vector.toList_set, List.map_dropLast, List.map_set]
      exact congrArg List.dropLast hset
    refine Or.inr ⟨a, rest, q.items[q.size - 1].data, ?_⟩
    dsimp only
    rw [ha]
    split
    · refine ⟨_, hcontents, hlast, rfl, ?_⟩
      rw [Queue.contents, heapifyDown_equal h]
      exact hrest
    · exact ⟨_, hcontents, hlast, rfl, hrest⟩

theorem criticalSection_equal (q : Queue α) (e : QueueEvent α) (h : AllEqual e.cmp) :
    (∃ item, e.call ≠ .pop ∧ acceptedBy e (criticalSection q e).1 = [item] ∧
      returnedBy (criticalSection q e).1 = [] ∧
      (criticalSection q e).2.contents = q.contents ++ [item]) ∨
    (∃ a rest last, e.call = .pop ∧ q.contents = a :: rest ∧ (a :: rest).getLast? = some last ∧
      acceptedBy e (criticalSection q e).1 = [] ∧ returnedBy (criticalSection q e).1 = [a] ∧
      (criticalSection q e).2.contents = (last :: rest).dropLast) ∨
    ((e.call = .pop → q.contents = []) ∧ acceptedBy e (criticalSection q e).1 = [] ∧
      returnedBy (criticalSection q e).1 = [] ∧ (criticalSection q e).2.contents = q.contents) := by
  obtain ⟨thread, cmp, call⟩ := e
  cases call with
  | push item p grows =>
    rcases queuePush_equal h grows q item p with hrun | ⟨q', hrun, hcontents⟩
    · refine Or.inr (Or.inr ⟨by simp, ?_⟩)
      simp [criticalSection, hrun, acceptedBy, returnedBy]
    · refine Or.inl ⟨item, by simp, ?_⟩
      simp [criticalSection, hrun, acceptedBy, returnedBy, hcontents]
  | pop =>
    rcases queuePop_equal h q with ⟨hnil, hsame, hout⟩ | ⟨a, rest, last, q', hcons, hlast, hrun, hq'⟩
    · refine Or.inr (Or.inr ⟨fun _ => hnil, ?_⟩)
      rcases hout with hout | hout
      · simp [criticalSection, hsame, hout, acceptedBy, returnedBy]
      · simp [criticalSection, hsame, hout, acceptedBy, returnedBy]
    · refine Or.inr (Or.inl ⟨a, rest, last, rfl, hcons, hlast, ?_⟩)
      simp [criticalSection, hrun, acceptedBy, returnedBy, hq']
  | close =>
    refine Or.inr (Or.inr ⟨by simp, ?_⟩)
    simp [criticalSection, acceptedBy, returnedBy]

end Equal

def NoMorePops (q : Queue α) (events : List (QueueEvent α)) : Prop :=
  ∀ pre e post, events = pre ++ e :: post → e.call = .pop → (after q pre).size = 0

/-- After a pop that finds three items or more, no pop finds one. -/
def OrderKept (q : Queue α) (events : List (QueueEvent α)) : Prop :=
  ∀ pre e post, events = pre ++ e :: post → e.call = .pop → 3 ≤ (after q pre).size →
    NoMorePops (after q (pre ++ [e])) post

def Fifo (q : Queue α) (events : List (QueueEvent α)) : Prop :=
  returned q events <+: q.contents ++ accepted q events

section Order
variable {q : Queue α} {e : QueueEvent α} {events : List (QueueEvent α)}

theorem size_eq_zero_iff (q : Queue α) : q.size = 0 ↔ q.contents = [] := by
  rw [← length_contents, List.length_eq_zero_iff]

theorem forall_split_cons {β : Type} {b : β} {bs : List β} {P : List β → β → List β → Prop} :
    (∀ pre c post, b :: bs = pre ++ c :: post → P pre c post) ↔
      P [] b bs ∧ ∀ pre c post, bs = pre ++ c :: post → P (b :: pre) c post := by
  constructor
  · intro h
    refine ⟨h [] b bs rfl, ?_⟩
    intro pre c post hsplit
    exact h (b :: pre) c post (by rw [hsplit, List.cons_append])
  · rintro ⟨hfirst, hrest⟩ pre c post hsplit
    cases pre with
    | nil =>
      obtain ⟨rfl, rfl⟩ := List.cons.inj hsplit
      exact hfirst
    | cons b₁ pre =>
      obtain ⟨rfl, htail⟩ := List.cons.inj hsplit
      exact hrest pre c post htail

theorem noMorePops_cons :
    NoMorePops q (e :: events) ↔
      (e.call = .pop → q.size = 0) ∧ NoMorePops (criticalSection q e).2 events :=
  forall_split_cons

theorem orderKept_cons :
    OrderKept q (e :: events) ↔
      (e.call = .pop → 3 ≤ q.size → NoMorePops (criticalSection q e).2 events) ∧
        OrderKept (criticalSection q e).2 events :=
  forall_split_cons

theorem NoMorePops.orderKept (h : NoMorePops q events) : OrderKept q events := by
  intro pre e post hsplit hpop hsize
  rw [h pre e post hsplit hpop] at hsize
  contradiction

theorem moved_of_few {a last : α} {rest : List α} (hlast : (a :: rest).getLast? = some last)
    (hfew : rest.length ≤ 1) : (last :: rest).dropLast = rest := by
  cases rest with
  | nil => rfl
  | cons b more =>
    obtain rfl : more = [] := List.eq_nil_of_length_eq_zero (Nat.le_zero.mp (Nat.le_of_succ_le_succ hfew))
    obtain rfl : b = last := by simpa using hlast
    rfl

theorem moved_of_many {a last : α} {rest : List α} (hlast : (a :: rest).getLast? = some last)
    (hmany : 2 ≤ rest.length) (hnodup : rest.Nodup) :
    ∃ b more, rest = b :: more ∧ b ≠ last ∧ (last :: rest).dropLast = last :: rest.dropLast := by
  obtain ⟨b, more, rfl⟩ := List.exists_cons_of_ne_nil (List.ne_nil_of_length_pos (by omega : 0 < rest.length))
  have hmore : more ≠ [] := by
    rintro rfl
    simp at hmany
  refine ⟨b, more, rfl, ?_, rfl⟩
  rintro rfl
  have hmem : b ∈ more := by
    rw [List.getLast?_cons_cons, List.getLast?_eq_some_getLast (List.cons_ne_nil b more),
      List.getLast_cons hmore] at hlast
    exact Option.some.inj hlast ▸ List.getLast_mem hmore
  exact (List.nodup_cons.mp hnodup).1 hmem

variable (hequal : ∀ e ∈ events, AllEqual e.cmp)
include hequal

theorem returned_nil_iff : returned q events = [] ↔ NoMorePops q events := by
  induction events generalizing q with
  | nil =>
    refine iff_of_true rfl ?_
    intro pre e post hsplit
    simp at hsplit
  | cons e events ih =>
    have hrest := fun q' => ih (q := q') fun e' he' => hequal e' (List.mem_cons_of_mem _ he')
    rw [returned, List.append_eq_nil_iff, hrest, noMorePops_cons, size_eq_zero_iff]
    refine and_congr_left fun _ => ?_
    rcases criticalSection_equal q e (hequal e List.mem_cons_self) with
      ⟨item, hcall, -, hret, -⟩ | ⟨a, rest, last, hcall, hcons, -, -, hret, -⟩ | ⟨hcall, -, hret, -⟩
    · rw [hret]
      exact iff_of_true rfl fun hpop => absurd hpop hcall
    · rw [hret, hcons]
      simp [hcall]
    · rw [hret]
      exact iff_of_true rfl hcall

theorem returned_head {a : α} {rest : List α} (hcons : q.contents = a :: rest) :
    returned q events = [] ∨ ∃ out, returned q events = a :: out := by
  induction events generalizing q rest with
  | nil => exact Or.inl rfl
  | cons e events ih =>
    have htail : ∀ e' ∈ events, AllEqual e'.cmp := fun e' he' => hequal e' (List.mem_cons_of_mem _ he')
    rw [returned]
    rcases criticalSection_equal q e (hequal e List.mem_cons_self) with
      ⟨item, -, -, hret, hnext⟩ | ⟨b, rest', last, -, hb, -, -, hret, -⟩ | ⟨-, -, hret, hnext⟩
    · rw [hret]
      exact ih htail (hnext.trans (by rw [hcons, List.cons_append]))
    · rw [hcons] at hb
      obtain ⟨rfl, -⟩ := List.cons.inj hb
      rw [hret]
      exact Or.inr ⟨_, rfl⟩
    · rw [hret]
      exact ih htail (hnext.trans hcons)

theorem fifo_of_orderKept (hkept : OrderKept q events) : Fifo q events := by
  induction events generalizing q with
  | nil => exact List.nil_prefix
  | cons e events ih =>
    have htail : ∀ e' ∈ events, AllEqual e'.cmp := fun e' he' => hequal e' (List.mem_cons_of_mem _ he')
    obtain ⟨hfirst, hrest⟩ := orderKept_cons.mp hkept
    have hnext := ih htail hrest
    unfold Fifo at hnext ⊢
    rw [returned, accepted]
    rcases criticalSection_equal q e (hequal e List.mem_cons_self) with
      ⟨item, -, hacc, hret, hq⟩ | ⟨a, rest, last, hcall, hcons, hlast, hacc, hret, hq⟩ | ⟨-, hacc, hret, hq⟩
    · rw [hq, List.append_assoc] at hnext
      rwa [hacc, hret]
    · rw [hacc, hret, hcons, List.cons_append, List.nil_append, List.nil_append,
        List.cons_append, List.cons_prefix_cons]
      refine ⟨rfl, ?_⟩
      by_cases hcrowd : 3 ≤ q.size
      · rw [(returned_nil_iff htail).mpr (hfirst hcall hcrowd)]
        exact List.nil_prefix
      · have hsize := length_contents q
        rw [hcons, List.length_cons] at hsize
        rwa [hq, moved_of_few hlast (by omega)] at hnext
    · rw [hq] at hnext
      rwa [hacc, hret]

/-- Of different items, the youngest is seen to come too early. -/
theorem orderKept_of_fifo (hnodup : (q.contents ++ accepted q events).Nodup)
    (hfifo : Fifo q events) : OrderKept q events := by
  induction events generalizing q with
  | nil =>
    intro pre e post hsplit
    simp at hsplit
  | cons e events ih =>
    have htail : ∀ e' ∈ events, AllEqual e'.cmp := fun e' he' => hequal e' (List.mem_cons_of_mem _ he')
    unfold Fifo at hfifo
    rw [returned, accepted] at hfifo
    rw [accepted] at hnodup
    rw [orderKept_cons]
    rcases criticalSection_equal q e (hequal e List.mem_cons_self) with
      ⟨item, hcall, hacc, hret, hq⟩ | ⟨a, rest, last, hcall, hcons, hlast, hacc, hret, hq⟩ |
        ⟨hnil, hacc, hret, hq⟩
    · refine ⟨fun hpop => absurd hpop hcall, ih htail ?_ ?_⟩
      · rw [hq, List.append_assoc]
        rwa [hacc] at hnodup
      · unfold Fifo
        rw [hq, List.append_assoc]
        rwa [hacc, hret] at hfifo
    · rw [hacc, hret, hcons, List.cons_append, List.nil_append, List.nil_append,
        List.cons_append, List.cons_prefix_cons] at hfifo
      rw [hacc, hcons, List.nil_append, List.cons_append, List.nodup_cons] at hnodup
      have hsize := length_contents q
      rw [hcons, List.length_cons] at hsize
      by_cases hcrowd : 3 ≤ q.size
      · have hrest : rest.Nodup := (List.nodup_append.mp hnodup.2).1
        obtain ⟨b, more, rfl, hne, hmoved⟩ := moved_of_many hlast (by omega) hrest
        have hnone : returned (criticalSection q e).2 events = [] := by
          rcases returned_head htail (hq.trans hmoved) with hnil | ⟨out, hout⟩
          · exact hnil
          · rw [hout, List.cons_append, List.cons_prefix_cons] at hfifo
            exact absurd hfifo.2.1.symm hne
        have hmore := (returned_nil_iff htail).mp hnone
        exact ⟨fun _ _ => hmore, hmore.orderKept⟩
      · refine ⟨fun _ h => absurd h hcrowd, ih htail ?_ ?_⟩
        · rw [hq, moved_of_few hlast (by omega)]
          exact hnodup.2
        · unfold Fifo
          rw [hq, moved_of_few hlast (by omega)]
          exact hfifo.2
    · refine ⟨?_, ih htail ?_ ?_⟩
      · intro hpop hcrowd
        rw [(size_eq_zero_iff q).mpr (hnil hpop)] at hcrowd
        contradiction
      · rwa [hq, ← List.nil_append (accepted _ _), ← hacc]
      · unfold Fifo
        rw [hq]
        rwa [hacc, hret] at hfifo

end Order

/-- On a queue whose items all compare equal the items are returned in their order unless
a pop that finds three of them or more is followed by a pop that finds one; and then,
of different items, they are not. -/
theorem equal_items_fifo_iff (events : List (QueueEvent α))
    (hequal : ∀ e ∈ events, AllEqual e.cmp) :
    (OrderKept queueInit events → returned queueInit events <+: accepted queueInit events) ∧
    ((accepted queueInit events).Nodup → returned queueInit events <+: accepted queueInit events →
      OrderKept queueInit events) := by
  constructor
  · intro hkept
    have hfifo := fifo_of_orderKept hequal hkept
    rwa [Fifo, contents_queueInit, List.nil_append] at hfifo
  · intro hnodup hfifo
    apply orderKept_of_fifo hequal
    · rwa [contents_queueInit, List.nil_append]
    · rwa [Fifo, contents_queueInit, List.nil_append]

def pushesThenPops (items : List Nat) (pops : Nat) : List (QueueEvent Nat) :=
  items.map (fun a => ⟨0, fun _ _ => 0, .push a .normal true⟩) ++
    List.replicate pops ⟨1, fun _ _ => 0, .pop⟩

theorem pushesThenPops_equal (items : List Nat) (pops : Nat) :
    ∀ e ∈ pushesThenPops items pops, AllEqual e.cmp := by
  intro e he
  rcases List.mem_append.mp he with he | he
  · obtain ⟨a, -, rfl⟩ := List.mem_map.mp he
    exact fun _ _ => rfl
  · rw [(List.mem_replicate.mp he).2]
    exact fun _ _ => rfl

theorem two_items_fifo :
    (∀ e ∈ pushesThenPops [1, 2] 2, AllEqual e.cmp) ∧
    (OrderKept queueInit (pushesThenPops [1, 2] 2) →
      returned queueInit (pushesThenPops [1, 2] 2) <+: accepted queueInit (pushesThenPops [1, 2] 2)) ∧
    ((accepted queueInit (pushesThenPops [1, 2] 2)).Nodup →
      returned queueInit (pushesThenPops [1, 2] 2) <+: accepted queueInit (pushesThenPops [1, 2] 2) →
      OrderKept queueInit (pushesThenPops [1, 2] 2)) :=
  ⟨pushesThenPops_equal _ _, equal_items_fifo_iff _ (pushesThenPops_equal _ _)⟩

theorem three_items_not_fifo :
    (∀ e ∈ pushesThenPops [1, 2, 3] 2, AllEqual e.cmp) ∧
    accepted queueInit (pushesThenPops [1, 2, 3] 2) = [1, 2, 3] ∧
    returned queueInit (pushesThenPops [1, 2, 3] 2) = [1, 3] ∧
    ¬ returned queueInit (pushesThenPops [1, 2, 3] 2) <+:
      accepted queueInit (pushesThenPops [1, 2, 3] 2) := by
  refine ⟨pushesThenPops_equal _ _, ?_⟩
  decide +kernel

end FileServer
