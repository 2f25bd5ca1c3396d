import Mathlib.Data.List.DropRight

/-!
# Texts of the form key and value

A line with a separator is an entry: a key before the first separator and a value after
it, both without the blanks around them. Of several entries with one key the last counts.
-/

namespace Entries

set_option autoImplicit false

universe u v
variable {α : Type u}

def trimmed (blank : α → Bool) (s : List α) : List α := (s.dropWhile blank).rdropWhile blank

section Trim
variable {blank : α → Bool}

theorem rdropWhile_append_blank {t : List α} (h : ∀ c ∈ t, blank c) (s : List α) :
    (s ++ t).rdropWhile blank = s.rdropWhile blank := by
  have hrev : ∀ c ∈ t.reverse, blank c := fun c hc => h c (List.mem_reverse.mp hc)
  rw [List.rdropWhile, List.reverse_append, List.dropWhile_append_of_pos hrev, List.rdropWhile]

/-- Blanks at the end make no difference. -/
theorem trimmed_append {t : List α} (h : ∀ c ∈ t, blank c) (s : List α) :
    trimmed blank (s ++ t) = trimmed blank s := by
  rw [trimmed, trimmed, List.dropWhile_append]
  split
  · rename_i hnil
    rw [List.isEmpty_iff.mp hnil, List.dropWhile_eq_nil_iff.mpr h]
  · exact rdropWhile_append_blank h _

theorem filter_dropWhile_blank (s : List α) :
    (s.dropWhile blank).filter (fun c => !blank c) = s.filter fun c => !blank c := by
  induction s with
  | nil => rfl
  | cons c s ih =>
    rw [List.dropWhile_cons]
    split
    · rename_i hc
      rw [ih, List.filter_cons_of_neg (by simp [hc])]
    · rfl

/-- Trimming loses nothing but blanks. -/
theorem filter_trimmed (s : List α) :
    (trimmed blank s).filter (fun c => !blank c) = s.filter fun c => !blank c := by
  rw [trimmed, List.rdropWhile, List.filter_reverse, filter_dropWhile_blank, List.filter_reverse,
    List.reverse_reverse, filter_dropWhile_blank]

theorem rdropWhile_cons_of_neg {c : α} (h : ¬ blank c) (s : List α) :
    (c :: s).rdropWhile blank = c :: s.rdropWhile blank := by
  induction s using List.reverseRecOn with
  | nil => rw [List.rdropWhile_singleton, if_neg h, List.rdropWhile_nil]
  | append_singleton s d ih =>
    rw [← List.cons_append, List.rdropWhile_concat, List.rdropWhile_concat, ih]
    split <;> rfl

end Trim

section First
variable [DecidableEq α] {sep : α}

/-- What stands before the first separator, and what after it. -/
def beforeSep (sep : α) (line : List α) : List α := line.takeWhile fun c => c ≠ sep

def afterSep (sep : α) (line : List α) : List α := (line.dropWhile fun c => c ≠ sep).drop 1

theorem dropWhile_ne_nil_of_mem {line : List α} (h : sep ∈ line) :
    (line.dropWhile fun c => c ≠ sep) ≠ [] := by
  intro hnil
  simpa using List.dropWhile_eq_nil_iff.mp hnil sep h

theorem beforeSep_append {line : List α} (h : sep ∈ line) (rest : List α) :
    beforeSep sep (line ++ rest) = beforeSep sep line := by
  have hparts := congrArg List.length (List.takeWhile_append_dropWhile (p := fun c => c ≠ sep) (l := line))
  have hpos := List.length_pos_iff.mpr (dropWhile_ne_nil_of_mem h)
  rw [List.length_append] at hparts
  rw [beforeSep, List.takeWhile_append, if_neg (by omega), beforeSep]

theorem afterSep_append {line : List α} (h : sep ∈ line) (rest : List α) :
    afterSep sep (line ++ rest) = afterSep sep line ++ rest := by
  have hne := dropWhile_ne_nil_of_mem h
  rw [afterSep, List.dropWhile_append, if_neg (by simpa using hne),
    List.drop_append_of_le_length (List.length_pos_iff.mpr hne), afterSep]

end First

section Last
variable {κ : Type u} {β γ : Type v} [DecidableEq κ] {key : κ}

/-- The value of the last entry with the key. -/
def lastValue (key : κ) (entries : List (κ × β)) : Option β :=
  ((entries.filter fun e => e.1 = key).getLast?).map Prod.snd

@[simp] theorem lastValue_nil (key : κ) : lastValue key ([] : List (κ × β)) = none := rfl

theorem lastValue_cons_of_ne {e : κ × β} (h : e.1 ≠ key) (entries : List (κ × β)) :
    lastValue key (e :: entries) = lastValue key entries := by
  rw [lastValue, List.filter_cons_of_neg (by simpa using h), lastValue]

theorem lastValue_cons_of_eq {e : κ × β} (h : e.1 = key) (entries : List (κ × β)) :
    lastValue key (e :: entries) = some ((lastValue key entries).getD e.2) := by
  rw [lastValue, List.filter_cons_of_pos (by simpa using h), List.getLast?_cons, lastValue]
  cases (entries.filter fun e => e.1 = key).getLast? <;> rfl

/-- Assigning the values in turn leaves the last. -/
theorem foldl_assign (value : β → γ) (default : γ) (entries : List (κ × β)) :
    entries.foldl (fun old e => if e.1 = key then value e.2 else old) default =
      ((lastValue key entries).map value).getD default := by
  induction entries generalizing default with
  | nil => rfl
  | cons e entries ih =>
    rw [List.foldl_cons, ih]
    by_cases h : e.1 = key
    · rw [if_pos h, lastValue_cons_of_eq h]
      cases lastValue key entries <;> rfl
    · rw [if_neg h, lastValue_cons_of_ne h]

end Last

end Entries
