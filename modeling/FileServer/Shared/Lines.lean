import Mathlib.Data.List.Flatten
import Mathlib.Data.List.Perm.Subperm

/-!
# Texts made of lines

A text is put together from lines by ending each with a separator, and taken apart
by splitting it there. Lines without the separator are found again, after them what
follows the last separator; and whatever is split at the separator is the lines
that it was made of, were one more separator at its end.
-/

namespace Lines

set_option autoImplicit false

universe u
variable {α : Type u} {sep : α}

def joined (sep : α) (lines : List (List α)) : List α := lines.flatMap fun line => line ++ [sep]

@[simp] theorem joined_nil (sep : α) : joined sep [] = [] := rfl

@[simp] theorem joined_cons (line : List α) (lines : List (List α)) :
    joined sep (line :: lines) = line ++ sep :: joined sep lines := by
  simp [joined]

theorem joined_append (lines more : List (List α)) :
    joined sep (lines ++ more) = joined sep lines ++ joined sep more := List.flatMap_append

/-- Different lines that all occur in a text do not take more room than the text. -/
theorem joined_length_le (sep : α) {lines text : List (List α)} (hnodup : lines.Nodup)
    (hmem : ∀ line ∈ lines, line ∈ text) :
    (joined sep lines).length ≤ (joined sep text).length := by
  obtain ⟨lines', hperm, hsub⟩ := List.subperm_of_subset hnodup hmem
  have hle := (hsub.flatMap fun line => line ++ [sep]).length_le
  have heq := (hperm.flatMap_right fun line => line ++ [sep]).length_eq
  exact heq ▸ hle

section Split
variable [BEq α] [LawfulBEq α]

theorem splitOn_joined_append {lines : List (List α)} (h : ∀ line ∈ lines, sep ∉ line)
    (rest : List α) : (joined sep lines ++ rest).splitOn sep = lines ++ rest.splitOn sep := by
  induction lines with
  | nil => rfl
  | cons line lines ih =>
    have hrest := ih fun l hl => h l (List.mem_cons_of_mem _ hl)
    rw [joined_cons, List.append_assoc, List.cons_append,
      List.splitOn_append_cons_self_of_not_mem (h line List.mem_cons_self), hrest, List.cons_append]

theorem splitOn_joined {lines : List (List α)} (h : ∀ line ∈ lines, sep ∉ line) :
    (joined sep lines).splitOn sep = lines ++ [[]] := by
  simpa using splitOn_joined_append h []

theorem splitOn_ended (text : List α) : (text ++ [sep]).splitOn sep = text.splitOn sep ++ [[]] :=
  List.splitOn_append_cons_self text []

theorem joined_splitOn (text : List α) : joined sep (text.splitOn sep) = text ++ [sep] := by
  induction text with
  | nil => simp
  | cons c cs ih =>
    rw [List.splitOn_cons_eq_if_modifyHead]
    split
    · rename_i hc
      rw [joined_cons, ih, eq_of_beq hc]
      rfl
    · obtain ⟨line, lines, hsplit⟩ := List.exists_cons_of_ne_nil (List.splitOn_ne_nil sep cs)
      rw [hsplit, joined_cons] at ih
      rw [hsplit, List.modifyHead_cons, joined_cons, List.cons_append, ih, List.cons_append]

theorem notMem_of_mem_splitOn {text line : List α} (h : line ∈ text.splitOn sep) : sep ∉ line := by
  induction text generalizing line with
  | nil =>
    obtain rfl : line = [] := by simpa using h
    exact List.not_mem_nil
  | cons c cs ih =>
    rw [List.splitOn_cons_eq_if_modifyHead] at h
    split at h
    · rcases List.mem_cons.mp h with rfl | h
      · exact List.not_mem_nil
      · exact ih h
    · rename_i hc
      obtain ⟨first, lines, hsplit⟩ := List.exists_cons_of_ne_nil (List.splitOn_ne_nil sep cs)
      rw [hsplit, List.modifyHead_cons] at h
      rcases List.mem_cons.mp h with rfl | h
      · intro hsep
        rcases List.mem_cons.mp hsep with rfl | hsep
        · exact hc (beq_self_eq_true _)
        · exact ih (hsplit ▸ List.mem_cons_self) hsep
      · exact ih (hsplit ▸ List.mem_cons_of_mem _ h)

/-- One character too few leaves the lines as they are: it is the last separator. -/
theorem splitOn_take_joined {lines : List (List α)} (h : ∀ line ∈ lines, sep ∉ line) {limit : Nat}
    (hfits : (joined sep lines).length ≤ limit + 1) :
    ((joined sep lines).take limit).splitOn sep = lines ++ [[]] ∨
      ((joined sep lines).take limit).splitOn sep = lines := by
  by_cases hshort : (joined sep lines).length ≤ limit
  · rw [List.take_of_length_le hshort]
    exact Or.inl (splitOn_joined h)
  · have hne : lines ≠ [] := by
      rintro rfl
      exact hshort (Nat.zero_le _)
    obtain ⟨front, last, rfl⟩ := (List.eq_nil_or_concat' lines).resolve_left hne
    have hlast : sep ∉ last := h last (List.mem_append_right _ List.mem_cons_self)
    have hfront : ∀ line ∈ front, sep ∉ line := fun line hl => h line (List.mem_append_left _ hl)
    have hsplit : joined sep (front ++ [last]) = joined sep front ++ last ++ [sep] := by
      simp [joined]
    have hlimit : (joined sep front ++ last).length = limit := by
      rw [hsplit, List.length_append, List.length_singleton] at hfits hshort
      omega
    rw [hsplit, List.take_left' hlimit, splitOn_joined_append hfront,
      List.splitOn_eq_singleton hlast]
    exact Or.inr rfl

/-- Different lines are all read from a text cut after `limit` characters, and nothing
else is, if and only if they have no separator and at most the last one was cut off. -/
theorem read_cut_iff {lines : List (List α)} (hnodup : lines.Nodup) (limit : Nat)
    (hne : ∀ line ∈ lines, line ≠ []) :
    (∀ line, (line ∈ ((joined sep lines).take limit).splitOn sep ∧ line ≠ []) ↔ line ∈ lines) ↔
      (∀ line ∈ lines, sep ∉ line) ∧ (joined sep lines).length ≤ limit + 1 := by
  constructor
  · intro hread
    have hmem : ∀ line ∈ lines, line ∈ ((joined sep lines).take limit).splitOn sep :=
      fun line hl => ((hread line).mpr hl).1
    refine ⟨fun line hl => notMem_of_mem_splitOn (hmem line hl), ?_⟩
    have hle := joined_length_le sep hnodup hmem
    rw [joined_splitOn, List.length_append, List.length_take, List.length_singleton] at hle
    omega
  · rintro ⟨hplain, hfits⟩ line
    rcases splitOn_take_joined hplain hfits with hsplit | hsplit
    · rw [hsplit, List.mem_append, List.mem_singleton]
      constructor
      · rintro ⟨hl | hl, hnil⟩
        · exact hl
        · exact absurd hl hnil
      · intro hl
        exact ⟨Or.inl hl, hne line hl⟩
    · rw [hsplit]
      exact and_iff_left_of_imp (hne line)

end Split

end Lines
