import FileServer.Queue

/-!
# No item is lost or duplicated

A run of one queue is the list of its critical sections in the order in which
the mutex admitted them, whichever threads they belong to. Every event
brings its own comparator, so nothing below relies on what comparisons return. A
`queue_pop` that has to sleep is an event with outcome `blocked`; the same
thread's next test of the loop condition is a later event.
-/

namespace FileServer

set_option autoImplicit false

variable {α : Type}

inductive QueueCall (α : Type) where
  | push (item : α) (priority : TaskPriority) (grows : Bool)
  | pop
  | close

structure QueueEvent (α : Type) where
  thread : Nat
  cmp : α → α → Int
  call : QueueCall α

inductive QueueOutcome (α : Type) where
  | pushed (accepted : Bool)
  | popped (result : Popped α)
  | closed

def criticalSection (q : Queue α) (e : QueueEvent α) : QueueOutcome α × Queue α :=
  match e.call with
  | .push item priority grows =>
    let r := Id.run (queuePush e.cmp grows q item priority)
    (.pushed r.1, r.2)
  | .pop =>
    let r := Id.run (queuePop e.cmp q)
    (.popped r.1, r.2)
  | .close => (.closed, queueClose q)

def acceptedBy (e : QueueEvent α) : QueueOutcome α → List α
  | .pushed true =>
    match e.call with
    | .push item _ _ => [item]
    | _ => []
  | _ => []

def returnedBy : QueueOutcome α → List α
  | .popped (.item a) => [a]
  | _ => []

def after (q : Queue α) : List (QueueEvent α) → Queue α
  | [] => q
  | e :: events => after (criticalSection q e).2 events

/-- The items whose `queue_push` returned true, in order. -/
def accepted (q : Queue α) : List (QueueEvent α) → List α
  | [] => []
  | e :: events => acceptedBy e (criticalSection q e).1 ++ accepted (criticalSection q e).2 events

/-- The items that `queue_pop` calls returned, in order. -/
def returned (q : Queue α) : List (QueueEvent α) → List α
  | [] => []
  | e :: events => returnedBy (criticalSection q e).1 ++ returned (criticalSection q e).2 events

theorem criticalSection_conserves (q : Queue α) (e : QueueEvent α) :
    (acceptedBy e (criticalSection q e).1 ++ q.contents).Perm
      (returnedBy (criticalSection q e).1 ++ (criticalSection q e).2.contents) := by
  obtain ⟨thread, cmp, call⟩ := e
  cases call with
  | push item p grows =>
    rcases queuePush_cases cmp grows q item p with ⟨he, _⟩ | ⟨q', he, _, _, hperm⟩
    · simp [criticalSection, he, acceptedBy, returnedBy]
    · simpa [criticalSection, he, acceptedBy, returnedBy] using hperm.symm
  | pop =>
    rcases queuePop_cases cmp q with ⟨he, _⟩ | ⟨he, _⟩ | ⟨a, q', he, _, hperm⟩
    · simp [criticalSection, he, acceptedBy, returnedBy]
    · simp [criticalSection, he, acceptedBy, returnedBy]
    · simpa [criticalSection, he, acceptedBy, returnedBy] using hperm.symm
  | close => simp [criticalSection, acceptedBy, returnedBy]

theorem criticalSection_closed (q : Queue α) (e : QueueEvent α) :
    (criticalSection q e).2.closed = true ↔ q.closed = true ∨ e.call = .close := by
  obtain ⟨thread, cmp, call⟩ := e
  cases call with
  | push item p grows =>
    rcases queuePush_cases cmp grows q item p with ⟨he, _⟩ | ⟨q', he, hq, hq', _⟩
    · simp [criticalSection, he]
    · simp [criticalSection, he, hq, hq']
  | pop =>
    rcases queuePop_cases cmp q with ⟨he, _⟩ | ⟨he, _⟩ | ⟨a, q', he, hq, _⟩
    · simp [criticalSection, he]
    · simp [criticalSection, he]
    · simp [criticalSection, he, hq]
  | close => simp [criticalSection, queueClose]

theorem accepted_append (q : Queue α) (pre post : List (QueueEvent α)) :
    accepted q (pre ++ post) = accepted q pre ++ accepted (after q pre) post := by
  induction pre generalizing q with
  | nil => rfl
  | cons e pre ih => simp [accepted, after, ih]

theorem after_conserves (q : Queue α) (events : List (QueueEvent α)) :
    (accepted q events ++ q.contents).Perm (returned q events ++ (after q events).contents) := by
  induction events generalizing q with
  | nil => exact .refl _
  | cons e events ih =>
    have hstep := criticalSection_conserves q e
    have hrest := ih (criticalSection q e).2
    simp only [accepted, returned, after, List.append_assoc]
    refine (List.perm_append_comm_assoc _ _ _).trans ((hstep.append_left _).trans ?_)
    exact (List.perm_append_comm_assoc _ _ _).trans (hrest.append_left _)

theorem after_closed (q : Queue α) (events : List (QueueEvent α)) :
    (after q events).closed = true ↔ q.closed = true ∨ ∃ e ∈ events, e.call = .close := by
  induction events generalizing q with
  | nil => simp [after]
  | cons e events ih =>
    simp only [after, ih, criticalSection_closed, List.mem_cons, exists_eq_or_imp]
    exact or_assoc

theorem accepted_closed {q : Queue α} (hq : q.closed = true) (events : List (QueueEvent α)) :
    accepted q events = [] := by
  induction events generalizing q with
  | nil => rfl
  | cons e events ih =>
    have hnext := (criticalSection_closed q e).mpr (Or.inl hq)
    have hnone : acceptedBy e (criticalSection q e).1 = [] := by
      obtain ⟨thread, cmp, call⟩ := e
      cases call with
      | push item p grows =>
        simp [criticalSection, queuePush_closed cmp hq grows item p, acceptedBy]
      | pop => rfl
      | close => rfl
    simp [accepted, hnone, ih hnext]

theorem criticalSection_null {q : Queue α} {e : QueueEvent α}
    (h : (criticalSection q e).1 = .popped .null) :
    q.closed = true ∧ q.contents = [] ∧ (criticalSection q e).2 = q := by
  obtain ⟨thread, cmp, call⟩ := e
  cases call with
  | push item p grows => simp [criticalSection] at h
  | pop =>
    rcases queuePop_cases cmp q with ⟨he, _⟩ | ⟨he, hnil, hc⟩ | ⟨a, q', he, _, _⟩
    · simp [criticalSection, he] at h
    · exact ⟨hc, hnil, by simp [criticalSection, he]⟩
    · simp [criticalSection, he] at h
  | close => simp [criticalSection] at h

/-- Accepted items are the returned ones plus those still queued; after a close
a push changes nothing; and a `NULL` result comes only after a close, when every
item accepted in the whole run has already been returned. -/
theorem queue_conserves_items (events : List (QueueEvent α)) :
    (accepted queueInit events).Perm
      (returned queueInit events ++ (after queueInit events).contents) ∧
    ∀ pre e post, events = pre ++ e :: post →
      ((∃ c ∈ pre, c.call = .close) → ∀ item priority grows, e.call = .push item priority grows →
        criticalSection (after queueInit pre) e = (.pushed false, after queueInit pre)) ∧
      ((criticalSection (after queueInit pre) e).1 = .popped .null →
        (∃ c ∈ pre, c.call = .close) ∧ (after queueInit pre).contents = [] ∧
        (accepted queueInit events).Perm (returned queueInit pre)) := by
  have hall : ∀ evs : List (QueueEvent α), (accepted queueInit evs).Perm
      (returned queueInit evs ++ (after queueInit evs).contents) := by
    intro evs
    simpa using after_conserves (queueInit : Queue α) evs
  have hclosed : ∀ evs : List (QueueEvent α), (after queueInit evs).closed = true ↔
      ∃ c ∈ evs, c.call = .close := by
    intro evs
    simpa [queueInit] using after_closed (queueInit : Queue α) evs
  refine ⟨hall events, ?_⟩
  rintro pre e post rfl
  constructor
  · intro hc item p grows he
    have hq := (hclosed pre).mpr hc
    simp [criticalSection, he, queuePush_closed e.cmp hq grows item p]
  · intro hnull
    obtain ⟨hq, hnil, hsame⟩ := criticalSection_null hnull
    refine ⟨(hclosed pre).mp hq, hnil, ?_⟩
    have hlate : accepted (after queueInit pre) (e :: post) = [] := accepted_closed hq _
    rw [accepted_append, hlate, List.append_nil]
    simpa [hnil] using hall pre

end FileServer
