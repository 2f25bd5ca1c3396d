import FileServer.LinkedFiles
import FileServer.StorageTree

/-!
# The storage root and the user directories behind links

Where the path of a storage root leads, the paths of the user directories go on from
there, whatever links are followed on the way. A directory of a user stays where it is
as long as no name on that way is taken away.
-/

namespace FileServer

open LexicalPath
set_option autoImplicit false

theorem components_slash (path : CString) : components (path ++ [slash]) = components path ++ [.here] :=
  components_append path []

section Ends
variable {t : Tree} {last : Bool} {q l : Location} {cs : List (Component CString)}

theorem stride_link {c : Component CString} {target : CString} (hdir : t.entry q = .dir)
    (hshort : overlong c = false) (hlink : t.entry (q.walk c) = .link target)
    (hend : ¬ (cs = [] ∧ last = false)) :
    t.stride last q (c :: cs) = .turned (origin q.names target) (components target ++ cs) := by
  simp only [Tree.stride, hdir, hshort, hlink, if_neg hend, Bool.false_eq_true, if_false]

/-- Where a stride through `.` ends, the stride to an entry ends at the entry. -/
theorem stride_here (h : ∀ errno, t.stride true q (cs ++ [.here]) ≠ .barred errno) :
    (∃ R, t.stride true q (cs ++ [.here]) = .arrived R ∧ t.entry R = .dir ∧
        ∀ n last, overlong (.name n) = false →
          (last = false ∨ ∀ target, t.entry (R.walk (.name n)) ≠ .link target) →
          t.stride last q (cs ++ [.name n]) = .arrived (R.walk (.name n))) ∨
      ∃ q' ds, t.stride true q (cs ++ [.here]) = .turned q' (ds ++ [.here]) ∧
        ∀ last c, t.stride last q (cs ++ [c]) = .turned q' (ds ++ [c]) := by
  induction cs generalizing q with
  | nil =>
    obtain ⟨hdir, -⟩ := stride_dir h
    have hnot : ∀ target, t.entry (q.walk .here) ≠ .link target := by
      intro target hlink
      exact absurd (hdir.symm.trans hlink) (by simp)
    refine Or.inl ⟨q, stride_cons hdir rfl hnot, hdir, ?_⟩
    intro n last hshort hend
    by_cases hlink : ∃ target, t.entry (q.walk (.name n)) = .link target
    · obtain ⟨target, hlink⟩ := hlink
      obtain rfl : last = false := hend.resolve_right fun hno => hno target hlink
      simp only [List.nil_append, Tree.stride, hdir, hshort, hlink, Bool.false_eq_true, if_false,
        and_self, if_true]
    · exact stride_cons hdir hshort (not_exists.mp hlink)
  | cons c cs ih =>
    obtain ⟨hdir, hshort⟩ := stride_dir h
    by_cases hlink : ∃ target, t.entry (q.walk c) = .link target
    · obtain ⟨target, hlink⟩ := hlink
      right
      have hturn : ∀ last x, t.stride last q (c :: (cs ++ [x])) =
          .turned (origin q.names target) (components target ++ cs ++ [x]) := by
        intro last x
        rw [stride_link hdir hshort hlink (by simp), List.append_assoc]
      exact ⟨_, _, hturn true .here, fun last x => hturn last x⟩
    · have hgo : ∀ last x, t.stride last q (c :: (cs ++ [x])) = t.stride last (q.walk c) (cs ++ [x]) :=
        fun last x => stride_cons hdir hshort (not_exists.mp hlink)
      simp only [List.cons_append, hgo] at h ⊢
      exact ih h

theorem looks_here (t : Tree) (q : Location) (cs : List (Component CString)) (c : Component CString) :
    t.looks q (cs ++ [.here]) ⊆ t.looks q (cs ++ [c]) := by
  induction cs generalizing q with
  | nil =>
    intro l hl
    have hq : l = q := by
      rw [List.nil_append, Tree.looks] at hl
      split at hl <;> simpa [Place.walk, Tree.looks] using hl
    rw [hq]
    exact mem_looks_self t q _
  | cons c' cs ih =>
    rw [List.cons_append, List.cons_append, Tree.looks, Tree.looks]
    split
    · exact List.Subset.refl _
    · exact List.cons_subset_cons q (ih _)
    · exact List.cons_subset_cons q (ih _)
    · exact List.cons_subset_cons q (ih _)

theorem way_here (t : Tree) (last : Bool) (n : Nat) (q : Location) (cs : List (Component CString))
    (c : Component CString) : t.way true n q (cs ++ [.here]) ⊆ t.way last n q (cs ++ [c]) := by
  induction n generalizing q cs with
  | zero => exact List.Subset.refl _
  | succ n ih =>
    rw [Tree.way, Tree.way]
    apply List.append_subset.mpr
    refine ⟨List.Subset.trans (looks_here t q cs c) (List.subset_append_left _ _), ?_⟩
    by_cases hpasses : ∀ errno, t.stride true q (cs ++ [.here]) ≠ .barred errno
    · rcases stride_here hpasses with ⟨R, harrived, -⟩ | ⟨q', ds, hturned, hsame⟩
      · rw [harrived]
        exact List.nil_subset _
      · rw [hturned, hsame]
        exact List.Subset.trans (ih q' ds) (List.subset_append_right _ _)
    · obtain ⟨errno, hbarred⟩ := not_forall_not.mp hpasses
      rw [hbarred]
      exact List.nil_subset _

/-- Where a path through `.` leads, the path to an entry leads to the entry. -/
theorem lead_here {n : Nat} {R : Location} (h : t.lead true n q (cs ++ [.here]) = .ok R) :
    t.entry R = .dir ∧ ∀ m last, overlong (.name m) = false →
      (last = false ∨ ∀ target, t.entry (R.walk (.name m)) ≠ .link target) →
      t.lead last n q (cs ++ [.name m]) = .ok (R.walk (.name m)) := by
  induction n generalizing q cs with
  | zero => contradiction
  | succ n ih =>
    have hpasses : ∀ errno, t.stride true q (cs ++ [.here]) ≠ .barred errno := by
      intro errno hbarred
      rw [Tree.lead, hbarred] at h
      contradiction
    rw [Tree.lead] at h
    rcases stride_here hpasses with ⟨R', harrived, hdir, hname⟩ | ⟨q', ds, hturned, hsame⟩
    · rw [harrived] at h
      obtain rfl := Except.ok.inj h
      refine ⟨hdir, ?_⟩
      intro m last hshort hend
      rw [Tree.lead, hname m last hshort hend]
    · rw [hturned] at h
      obtain ⟨hdir, hlead⟩ := ih h
      refine ⟨hdir, ?_⟩
      intro m last hshort hend
      rw [Tree.lead, hsame]
      exact hlead m last hshort hend

theorem arrived_mem_looks (h : t.stride last q cs = .arrived l) : l ∈ t.looks q cs := by
  induction cs generalizing q with
  | nil =>
    obtain rfl := Stride.arrived.inj h
    exact mem_looks_self t q []
  | cons c cs ih =>
    have hpasses : ∀ errno, t.stride last q (c :: cs) ≠ .barred errno := by
      intro errno hbarred
      rw [h] at hbarred
      contradiction
    obtain ⟨hdir, hshort⟩ := stride_dir hpasses
    by_cases hlink : ∃ target, t.entry (q.walk c) = .link target
    · obtain ⟨target, hlink⟩ := hlink
      by_cases hend : cs = [] ∧ last = false
      · obtain ⟨rfl, rfl⟩ := hend
        have hnext := mem_looks_next t q c []
        simp only [Tree.stride, hdir, hshort, hlink, and_self, if_true, Bool.false_eq_true,
          if_false] at h
        obtain rfl := Stride.arrived.inj h
        exact hnext
      · rw [stride_link hdir hshort hlink hend] at h
        contradiction
    · have hnot := not_exists.mp hlink
      rw [stride_cons hdir hshort hnot] at h
      rw [looks_cons hnot]
      exact List.mem_cons_of_mem q (ih h)

theorem lead_mem_way {n : Nat} (h : t.lead last n q cs = .ok l) : l ∈ t.way last n q cs := by
  induction n generalizing q cs with
  | zero => contradiction
  | succ n ih =>
    rw [Tree.lead] at h
    rw [Tree.way]
    cases hs : t.stride last q cs with
    | arrived l' =>
      rw [hs] at h
      obtain rfl := Except.ok.inj h
      exact List.mem_append_left _ (arrived_mem_looks hs)
    | barred errno =>
      rw [hs] at h
      contradiction
    | turned q' cs' =>
      rw [hs] at h
      exact List.mem_append_right _ (ih h)

end Ends

end FileServer
