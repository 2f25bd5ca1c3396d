import FileServer.Shared.Lines

/-!
# Reading a text through a buffer of limited length

`fgets` reads up to the end of the line, but at most `limit` characters, and what it has
not read is left for the next call. A loop of such calls sees a text made of lines piece by
piece: the pieces of every line, and none that has a part of two lines.
-/

namespace Fgets

open Lines
set_option autoImplicit false

universe u
variable {α : Type u} [DecidableEq α] {sep : α} {limit : Nat}

def fgets (sep : α) : Nat → List α → List α × List α
  | 0, text => ([], text)
  | _ + 1, [] => ([], [])
  | limit + 1, c :: text =>
    if c = sep then ([c], text) else (c :: (fgets sep limit text).1, (fgets sep limit text).2)

/-- What a loop of calls reads until one of them reads nothing, in at most `fuel` calls. -/
def readFuel (sep : α) (limit : Nat) : Nat → List α → List (List α)
  | 0, _ => []
  | fuel + 1, text =>
    if (fgets sep limit text).1 = [] then []
    else (fgets sep limit text).1 :: readFuel sep limit fuel (fgets sep limit text).2

def readAll (sep : α) (limit : Nat) (text : List α) : List (List α) :=
  readFuel sep limit text.length text

/-- What a loop of calls reads of one line. -/
def pieces (sep : α) (limit : Nat) (line : List α) : List (List α) :=
  readAll sep limit (line ++ [sep])

theorem fgets_append (sep : α) (limit : Nat) (text : List α) :
    (fgets sep limit text).1 ++ (fgets sep limit text).2 = text := by
  induction text generalizing limit with
  | nil => cases limit <;> rfl
  | cons c text ih =>
    cases limit with
    | zero => rfl
    | succ limit =>
      rw [fgets]
      split
      · rfl
      · exact congrArg (c :: ·) (ih limit)

theorem fgets_eq_nil_iff (sep : α) (hlimit : limit ≠ 0) (text : List α) :
    (fgets sep limit text).1 = [] ↔ text = [] := by
  obtain ⟨n, rfl⟩ := Nat.exists_eq_succ_of_ne_zero hlimit
  cases text with
  | nil => simp [fgets]
  | cons c text =>
    rw [fgets]
    split <;> simp

theorem fgets_rest_lt (sep : α) (hlimit : limit ≠ 0) {text : List α} (h : text ≠ []) :
    (fgets sep limit text).2.length < text.length := by
  have hlength := congrArg List.length (fgets_append sep limit text)
  have hpos := List.length_pos_iff.mpr (mt (fgets_eq_nil_iff sep hlimit text).mp h)
  rw [List.length_append] at hlength
  omega

/-- A line that is shorter than the limit is read whole. -/
theorem fgets_short {line : List α} (h : sep ∉ line) (hshort : line.length < limit) (rest : List α) :
    fgets sep limit (line ++ sep :: rest) = (line ++ [sep], rest) := by
  induction line generalizing limit with
  | nil =>
    obtain ⟨n, rfl⟩ := Nat.exists_eq_succ_of_ne_zero (Nat.ne_zero_of_lt hshort)
    simp [fgets]
  | cons c line ih =>
    obtain ⟨n, rfl⟩ := Nat.exists_eq_succ_of_ne_zero (Nat.ne_zero_of_lt hshort)
    have hc : c ≠ sep := fun heq => h (heq ▸ List.mem_cons_self)
    have hrest := ih (fun hmem => h (List.mem_cons_of_mem c hmem)) (Nat.lt_of_succ_lt_succ hshort)
    rw [List.cons_append, fgets, if_neg hc, hrest]
    rfl

theorem fgets_whole {line : List α} (h : sep ∉ line) (hshort : line.length ≤ limit) :
    fgets sep limit line = (line, []) := by
  induction line generalizing limit with
  | nil => cases limit <;> rfl
  | cons c line ih =>
    obtain ⟨n, rfl⟩ := Nat.exists_eq_succ_of_ne_zero (Nat.ne_zero_of_lt hshort)
    have hc : c ≠ sep := fun heq => h (heq ▸ List.mem_cons_self)
    rw [fgets, if_neg hc, ih (fun hmem => h (List.mem_cons_of_mem c hmem)) (Nat.le_of_succ_le_succ hshort)]

/-- A longer one is cut at the limit. -/
theorem fgets_long {line : List α} (h : sep ∉ line) (hlong : limit ≤ line.length) (rest : List α) :
    fgets sep limit (line ++ rest) = (line.take limit, line.drop limit ++ rest) := by
  induction line generalizing limit with
  | nil =>
    obtain rfl := Nat.le_zero.mp hlong
    rfl
  | cons c line ih =>
    cases limit with
    | zero => rfl
    | succ n =>
      have hc : c ≠ sep := fun heq => h (heq ▸ List.mem_cons_self)
      have hrest := ih (fun hmem => h (List.mem_cons_of_mem c hmem)) (Nat.le_of_succ_le_succ hlong)
      rw [List.cons_append, fgets, if_neg hc, hrest]
      rfl

theorem readFuel_nil (hlimit : limit ≠ 0) (fuel : Nat) : readFuel sep limit fuel [] = [] := by
  cases fuel with
  | zero => rfl
  | succ fuel => rw [readFuel, if_pos ((fgets_eq_nil_iff sep hlimit []).mpr rfl)]

/-- Calls beyond the length of the text read nothing more. -/
theorem readFuel_congr (hlimit : limit ≠ 0) {fuel fuel' : Nat} {text : List α}
    (h : text.length ≤ fuel) (h' : text.length ≤ fuel') :
    readFuel sep limit fuel text = readFuel sep limit fuel' text := by
  induction fuel generalizing fuel' text with
  | zero =>
    obtain rfl := List.eq_nil_of_length_eq_zero (Nat.le_zero.mp h)
    rw [readFuel_nil hlimit, readFuel_nil hlimit]
  | succ fuel ih =>
    by_cases hnil : text = []
    · rw [hnil, readFuel_nil hlimit, readFuel_nil hlimit]
    · have hlt := fgets_rest_lt sep hlimit hnil
      obtain ⟨k, rfl⟩ : ∃ k, fuel' = k + 1 := ⟨fuel' - 1, by omega⟩
      have hrest : readFuel sep limit fuel (fgets sep limit text).2 =
          readFuel sep limit k (fgets sep limit text).2 := ih (by omega) (by omega)
      rw [readFuel, readFuel, hrest]

theorem readAll_cons (hlimit : limit ≠ 0) {text : List α} (h : text ≠ []) :
    readAll sep limit text =
      (fgets sep limit text).1 :: readAll sep limit (fgets sep limit text).2 := by
  have hlt := fgets_rest_lt sep hlimit h
  obtain ⟨k, hk⟩ : ∃ k, text.length = k + 1 := ⟨text.length - 1, by omega⟩
  have hrest : readFuel sep limit k (fgets sep limit text).2 =
      readAll sep limit (fgets sep limit text).2 :=
    readFuel_congr hlimit (by omega) (Nat.le_refl _)
  rw [readAll, hk, readFuel, if_neg (mt (fgets_eq_nil_iff sep hlimit text).mp h), hrest]

@[simp] theorem readAll_nil (sep : α) (limit : Nat) : readAll sep limit [] = [] := rfl

/-- A line is read before anything that follows it. -/
theorem readAll_line (hlimit : limit ≠ 0) {line : List α} (h : sep ∉ line) (rest : List α) :
    readAll sep limit (line ++ sep :: rest) = pieces sep limit line ++ readAll sep limit rest := by
  unfold pieces
  induction hn : line.length using Nat.strongRecOn generalizing line with
  | ind n ih =>
    subst hn
    have hne : line ++ [sep] ≠ [] := by simp
    rw [readAll_cons hlimit (by simp), readAll_cons hlimit hne]
    by_cases hshort : line.length < limit
    · rw [fgets_short h hshort, fgets_short h hshort]
      rfl
    · have hlong := Nat.le_of_not_lt hshort
      have hless : (line.drop limit).length < line.length := by
        rw [List.length_drop]
        omega
      have hplain : sep ∉ line.drop limit := fun hmem => h (List.mem_of_mem_drop hmem)
      rw [fgets_long h hlong, fgets_long h hlong, ih _ hless hplain rfl]
      rfl

theorem readAll_joined_append (hlimit : limit ≠ 0) {lines : List (List α)}
    (h : ∀ line ∈ lines, sep ∉ line) (rest : List α) :
    readAll sep limit (joined sep lines ++ rest) =
      lines.flatMap (pieces sep limit) ++ readAll sep limit rest := by
  induction lines with
  | nil => rfl
  | cons line lines ih =>
    have hrest := ih fun l hl => h l (List.mem_cons_of_mem _ hl)
    rw [joined_cons, List.append_assoc, List.cons_append,
      readAll_line hlimit (h line List.mem_cons_self), hrest, List.flatMap_cons, List.append_assoc]

theorem readAll_joined (hlimit : limit ≠ 0) {lines : List (List α)}
    (h : ∀ line ∈ lines, sep ∉ line) :
    readAll sep limit (joined sep lines) = lines.flatMap (pieces sep limit) := by
  simpa using readAll_joined_append hlimit h []

theorem pieces_short {line : List α} (h : sep ∉ line) (hshort : line.length < limit) :
    pieces sep limit line = [line ++ [sep]] := by
  have hlimit := Nat.ne_zero_of_lt hshort
  rw [pieces, readAll_cons hlimit (by simp), fgets_short h hshort]
  rfl

theorem pieces_long (hlimit : limit ≠ 0) {line : List α} (h : sep ∉ line)
    (hlong : limit ≤ line.length) :
    pieces sep limit line = line.take limit :: pieces sep limit (line.drop limit) := by
  rw [pieces, readAll_cons hlimit (by simp), fgets_long h hlong]
  rfl

theorem fgets_length_le (sep : α) (limit : Nat) (text : List α) :
    (fgets sep limit text).1.length ≤ limit := by
  induction text generalizing limit with
  | nil => cases limit <;> exact Nat.zero_le _
  | cons c text ih =>
    cases limit with
    | zero => exact Nat.le_refl 0
    | succ limit =>
      rw [fgets]
      split
      · exact Nat.succ_le_succ (Nat.zero_le _)
      · exact Nat.succ_le_succ (ih limit)

theorem length_le_of_mem_readFuel {fuel : Nat} {text piece : List α}
    (h : piece ∈ readFuel sep limit fuel text) : piece.length ≤ limit := by
  induction fuel generalizing text with
  | zero => exact absurd h List.not_mem_nil
  | succ fuel ih =>
    rw [readFuel] at h
    split at h
    · exact absurd h List.not_mem_nil
    · rcases List.mem_cons.mp h with rfl | h
      · exact fgets_length_le sep limit text
      · exact ih h

theorem length_le_of_mem_readAll {text piece : List α} (h : piece ∈ readAll sep limit text) :
    piece.length ≤ limit :=
  length_le_of_mem_readFuel h

section Read
universe v
variable {β : Type v} {f : List α → Option β}

/-- To a reader that does not look at the ends of lines the last line needs none. -/
theorem filterMap_readAll (hlimit : limit ≠ 0) (hnil : f [] = none)
    (hend : ∀ piece, f (piece ++ [sep]) = f piece) {line : List α} (h : sep ∉ line) :
    (readAll sep limit line).filterMap f = (pieces sep limit line).filterMap f := by
  induction hn : line.length using Nat.strongRecOn generalizing line with
  | ind n ih =>
    subst hn
    by_cases hshort : line.length < limit
    · rw [pieces_short h hshort, List.filterMap_cons, hend]
      by_cases hempty : line = []
      · subst hempty
        rw [readAll_nil, hnil]
      · have hread : fgets sep limit line = (line, []) := fgets_whole h (Nat.le_of_lt hshort)
        rw [readAll_cons hlimit hempty, hread, readAll_nil, List.filterMap_cons]
    · have hlong := Nat.le_of_not_lt hshort
      have hread := fgets_long h hlong []
      have hless : (line.drop limit).length < line.length := by
        rw [List.length_drop]
        omega
      have hne : line ≠ [] := by
        rintro rfl
        exact hlimit (Nat.le_zero.mp hlong)
      rw [List.append_nil, List.append_nil] at hread
      rw [pieces_long hlimit h hlong, readAll_cons hlimit hne, hread, List.filterMap_cons,
        List.filterMap_cons, ih _ hless (fun hmem => h (List.mem_of_mem_drop hmem)) rfl]

end Read

end Fgets
