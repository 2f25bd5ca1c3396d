import Mathlib.Data.List.TakeWhile
import FileServer.LineBuffer

/-!
# What the start of a line settles

A line whose end is not known yet: `lineFixed` says, from the bytes at hand alone,
when the parser will read the same task whatever up to `room` further bytes may
follow. A string field is settled once its word is followed by another byte or
fills its width, a size once its digits have ended or cannot begin.
-/

namespace FileServer

set_option autoImplicit false

def firstWord (width : Nat) (s : CString) : CString :=
  ((s.dropWhile isSpace).takeWhile fun c => !isSpace c).take width

/-- What follows the first word, when no further byte can make the word longer. -/
def wordEnd (width : Nat) (s : CString) : Option CString :=
  if (firstWord width s).length < (s.dropWhile isSpace).length ∨
      (firstWord width s).length = width then
    some ((s.dropWhile isSpace).drop (firstWord width s).length)
  else none

section Words
variable {width : Nat} {s rest : CString}

theorem stringField_eq (width : Nat) (s : CString) :
    stringField width (some s) = if s.dropWhile isSpace = [] then ([], none) else
      (firstWord width s, some ((s.dropWhile isSpace).drop (firstWord width s).length)) := by
  unfold stringField scanString
  dsimp only [Option.bind_some]
  by_cases h : s.dropWhile isSpace = []
  · rw [if_pos h, if_pos h]
  · rw [if_neg h, if_neg h]
    rfl

theorem firstWord_of_spaces {width : Nat} {s : CString} (h : s.dropWhile isSpace = []) :
    firstWord width s = [] := by
  simp [firstWord, h]

theorem stringField_fst (width : Nat) (s : CString) :
    (stringField width (some s)).1 = firstWord width s := by
  rw [stringField_eq]
  split
  · rename_i h
    exact (firstWord_of_spaces h).symm
  · rfl

theorem firstWord_length_le (width : Nat) (s : CString) :
    (firstWord width s).length ≤ (s.dropWhile isSpace).length := by
  unfold firstWord
  rw [List.length_take]
  exact Nat.le_trans (Nat.min_le_right _ _) (List.takeWhile_sublist _).length_le

theorem dropWhile_ne_nil_of_wordEnd (hw : 0 < width) (h : wordEnd width s = some rest) :
    s.dropWhile isSpace ≠ [] := by
  intro hnil
  simp [wordEnd, firstWord_of_spaces hnil, hnil] at h
  omega

theorem dropWhile_append_of_ne (hne : s.dropWhile isSpace ≠ []) (u : CString) :
    (s ++ u).dropWhile isSpace = s.dropWhile isSpace ++ u := by
  rw [List.dropWhile_append, if_neg]
  rw [List.isEmpty_iff]
  exact hne

/-- A word that has ended is read the same whatever follows. -/
theorem firstWord_append_of_wordEnd (hw : 0 < width) (h : wordEnd width s = some rest)
    (u : CString) : firstWord width (s ++ u) = firstWord width s := by
  have hne := dropWhile_ne_nil_of_wordEnd hw h
  unfold wordEnd at h
  split at h
  · rename_i hend
    unfold firstWord at hend ⊢
    rw [dropWhile_append_of_ne hne, List.takeWhile_append]
    split
    · rename_i hall
      rw [List.length_take, hall] at hend
      rw [(List.takeWhile_prefix _).eq_of_length hall, List.take_append_of_le_length (by omega)]
    · rfl
  · contradiction

theorem stringField_of_wordEnd (hw : 0 < width) (h : wordEnd width s = some rest) (u : CString) :
    stringField width (some (s ++ u)) = (firstWord width s, some (rest ++ u)) := by
  have hne := dropWhile_ne_nil_of_wordEnd hw h
  have hword := firstWord_append_of_wordEnd hw h u
  have hlen := firstWord_length_le width s
  have hdrop := dropWhile_append_of_ne hne u
  have hrest : (s.dropWhile isSpace).drop (firstWord width s).length = rest := by
    unfold wordEnd at h
    split at h
    · exact Option.some.inj h
    · contradiction
  rw [stringField_eq, hword, hdrop, if_neg (by simp [hne]), List.drop_append_of_le_length hlen, hrest]

theorem takeWhile_word {u : CString} (h : ∀ c ∈ u, isSpace c = false) :
    (u.takeWhile fun c => !isSpace c) = u ∧ u.dropWhile isSpace = u := by
  refine ⟨List.takeWhile_eq_self_iff.mpr (by simpa using h), ?_⟩
  cases u with
  | nil => rfl
  | cons c u => rw [List.dropWhile_cons_of_neg (by simp [h c])]

/-- A word that has not ended takes up what follows it. -/
theorem firstWord_append_of_open (h : wordEnd width s = none) (u : CString) :
    ∃ v, v.length ≤ u.length ∧ ((∀ c ∈ u, isSpace c = false) → v = u) ∧
      firstWord width (s ++ u) = (firstWord width s ++ v).take width := by
  unfold wordEnd at h
  split at h
  · contradiction
  · rename_i hopen
    rw [not_or] at hopen
    unfold firstWord at hopen ⊢
    rw [List.dropWhile_append]
    split
    · rename_i hnil
      rw [List.isEmpty_iff.mp hnil]
      refine ⟨(u.dropWhile isSpace).takeWhile fun c => !isSpace c, ?_, ?_, by simp⟩
      · exact Nat.le_trans (List.takeWhile_sublist _).length_le (List.dropWhile_sublist _).length_le
      · intro hu
        rw [(takeWhile_word hu).2, (takeWhile_word hu).1]
    · rw [List.length_take] at hopen
      have hlen := (List.takeWhile_sublist (fun c => !isSpace c) (l := s.dropWhile isSpace)).length_le
      have hall : ((s.dropWhile isSpace).takeWhile fun c => !isSpace c) = s.dropWhile isSpace := by
        apply (List.takeWhile_prefix _).eq_of_length
        omega
      rw [List.takeWhile_append, if_pos (by rw [hall]), hall]
      rw [hall] at hopen
      refine ⟨u.takeWhile fun c => !isSpace c, (List.takeWhile_sublist _).length_le,
        fun hu => (takeWhile_word hu).1, ?_⟩
      rw [List.take_of_length_le (l := s.dropWhile isSpace) (by omega)]

theorem firstWord_lt_of_open (h : wordEnd width s = none) : (firstWord width s).length < width := by
  unfold wordEnd at h
  split at h
  · contradiction
  · rename_i hopen
    have hle : (firstWord width s).length ≤ width := List.length_take_le _ _
    omega

/-- One more letter makes an open word longer. -/
theorem firstWord_append_letter (h : wordEnd width s = none) :
    firstWord width (s ++ [120]) = firstWord width s ++ [120] := by
  have hlt := firstWord_lt_of_open h
  have hletter : ∀ c ∈ ([120] : CString), isSpace c = false := by
    intro c hc
    obtain rfl := List.mem_singleton.mp hc
    rfl
  obtain ⟨v, _, hv, hword⟩ := firstWord_append_of_open h [120]
  rw [hword, hv hletter, List.take_of_length_le (by simp; omega)]

end Words

def isSign (c : Byte) : Bool := c = 43 ∨ c = 45

/-- What a size is read from: the text after spaces and a sign. -/
def sizeBody (s : CString) : CString :=
  let t := s.dropWhile isSpace
  if t.head?.any isSign then t.tail else t

inductive SizeEnd where
  | never
  | growing
  | passed (rest : CString)

/-- Whether digits can still follow, whether they cannot begin, or what follows them. -/
def sizeEnd (s : CString) : SizeEnd :=
  let digits := (sizeBody s).takeWhile isDigit
  if digits = sizeBody s then .growing
  else if digits = [] then .never
  else .passed ((sizeBody s).drop digits.length)

def sizeValue (negative : Bool) (digits : CString) : Nat :=
  let value : Nat := digits.foldl (fun n d => 10 * n + (d.toNat - 48)) 0
  if 2 ^ 64 ≤ value then 2 ^ 64 - 1
  else if negative then (2 ^ 64 - value) % 2 ^ 64
  else value

section Sizes
variable {s rest : CString}

theorem scanSize_eq (s : CString) :
    scanSize s = if (sizeBody s).takeWhile isDigit = [] then none else
      some (sizeValue ((s.dropWhile isSpace).head? = some 45) ((sizeBody s).takeWhile isDigit),
        (sizeBody s).drop ((sizeBody s).takeWhile isDigit).length) := by
  have hbody : sizeBody s = if (s.dropWhile isSpace).head? = some 43 ∨
      (s.dropWhile isSpace).head? = some 45 then (s.dropWhile isSpace).tail
      else s.dropWhile isSpace := by
    unfold sizeBody
    cases s.dropWhile isSpace with
    | nil => simp
    | cons c t => simp [isSign]
  rw [hbody]
  simp only [scanSize, sizeValue, decide_eq_true_eq]

theorem sizeField_eq (s : CString) :
    sizeField (some s) = if (sizeBody s).takeWhile isDigit = [] then (0, none) else
      (sizeValue ((s.dropWhile isSpace).head? = some 45) ((sizeBody s).takeWhile isDigit),
        some ((sizeBody s).drop ((sizeBody s).takeWhile isDigit).length)) := by
  unfold sizeField
  rw [Option.bind_some, scanSize_eq]
  split
  · rename_i h
    split at h <;> simp_all
  · rename_i h
    split at h <;> simp_all

theorem sizeBody_append (h : s.dropWhile isSpace ≠ []) (u : CString) :
    sizeBody (s ++ u) = sizeBody s ++ u := by
  unfold sizeBody
  rw [dropWhile_append_of_ne h]
  cases ht : s.dropWhile isSpace with
  | nil => exact absurd ht h
  | cons c t =>
    cases hsign : isSign c <;> simp [hsign]

theorem sizeBody_of_spaces (h : s.dropWhile isSpace = []) : sizeBody s = [] := by
  simp [sizeBody, h]

/-- Digits that have ended, or cannot begin, are read the same whatever follows. -/
theorem takeWhile_sizeBody_append (h : (sizeBody s).takeWhile isDigit ≠ sizeBody s) (u : CString) :
    (s.dropWhile isSpace ≠ []) ∧ sizeBody (s ++ u) = sizeBody s ++ u ∧
      (sizeBody (s ++ u)).takeWhile isDigit = (sizeBody s).takeWhile isDigit := by
  have hne : s.dropWhile isSpace ≠ [] := by
    intro hnil
    simp [sizeBody_of_spaces hnil] at h
  refine ⟨hne, sizeBody_append hne u, ?_⟩
  rw [sizeBody_append hne, List.takeWhile_append, if_neg]
  intro hlen
  exact h ((List.takeWhile_prefix _).eq_of_length hlen)

theorem sizeField_of_never (h : sizeEnd s = .never) (u : CString) :
    sizeField (some (s ++ u)) = (0, none) := by
  unfold sizeEnd at h
  dsimp only at h
  split at h
  · contradiction
  rename_i hne
  split at h
  · rename_i hnone
    obtain ⟨_, _, hdigits⟩ := takeWhile_sizeBody_append hne u
    rw [sizeField_eq, hdigits, if_pos hnone]
  · contradiction

theorem sizeField_of_passed (h : sizeEnd s = .passed rest) (u : CString) :
    sizeField (some (s ++ u)) = ((sizeField (some s)).1, some (rest ++ u)) := by
  unfold sizeEnd at h
  dsimp only at h
  split at h
  · contradiction
  rename_i hne
  split at h
  · contradiction
  rename_i hsome
  obtain ⟨hspaces, hbody, hdigits⟩ := takeWhile_sizeBody_append hne u
  have hhead : ((s ++ u).dropWhile isSpace).head? = (s.dropWhile isSpace).head? := by
    rw [dropWhile_append_of_ne hspaces]
    cases ht : s.dropWhile isSpace with
    | nil => exact absurd ht hspaces
    | cons c t => rfl
  have hle : ((sizeBody s).takeWhile isDigit).length ≤ (sizeBody s).length :=
    (List.takeWhile_sublist _).length_le
  rw [sizeField_eq (s ++ u), sizeField_eq s, hdigits, if_neg hsome, if_neg hsome, hbody, hhead,
    List.drop_append_of_le_length hle, SizeEnd.passed.inj h]

end Sizes

/-- `f` gives the same value whatever string of at most `room` bytes follows `s`. -/
def Pinned {α : Type} (room : Nat) (f : CString → α) (s : CString) : Prop :=
  ∀ u : CString, u.length ≤ room → 0 ∉ u → f (s ++ u) = f s

theorem pinned_map {α β : Type} {room : Nat} {f : CString → α} {g : α → β} (s : CString)
    (hg : ∀ {a b}, g a = g b → a = b) : Pinned room (fun t => g (f t)) s ↔ Pinned room f s := by
  constructor
  · intro h u hlen hzero
    exact hg (h u hlen hzero)
  · intro h u hlen hzero
    exact congrArg g (h u hlen hzero)

/-- A string field shows in what is parsed, so it has to end; then the rest of the
line decides. -/
theorem pinned_stringField {α : Type} {room width : Nat} (hw : 0 < width) (hroom : 1 ≤ room)
    (k : CString × Option CString → α) (field : α → CString) (hfield : ∀ x, field (k x) = x.1)
    (s : CString) :
    Pinned room (fun t => k (stringField width (some t))) s ↔
      ∃ rest, wordEnd width s = some rest ∧
        Pinned room (fun t => k (firstWord width s, some t)) rest := by
  constructor
  · intro h
    cases hend : wordEnd width s with
    | none =>
      have hsame := congrArg field (h [120] hroom (by decide))
      rw [hfield, hfield, stringField_fst, stringField_fst, firstWord_append_letter hend] at hsame
      simp at hsame
    | some rest =>
      refine ⟨rest, rfl, ?_⟩
      intro u hlen hzero
      have hsame := h u hlen hzero
      have hself := stringField_of_wordEnd hw hend []
      rw [List.append_nil, List.append_nil] at hself
      simpa only [stringField_of_wordEnd hw hend u, hself] using hsame
  · rintro ⟨rest, hend, h⟩ u hlen hzero
    have hself := stringField_of_wordEnd hw hend []
    rw [List.append_nil, List.append_nil] at hself
    simpa only [stringField_of_wordEnd hw hend u, hself] using h u hlen hzero

section Uploads

/-- The size and the temporary file, which end an UPLOAD. -/
def sizeAndTmpfile (s : CString) : Nat × CString :=
  ((sizeField (some s)).1, (stringField 255 (sizeField (some s)).2).1)

def sizeAndTmpfileFixed (s : CString) : Bool :=
  match sizeEnd s with
  | .never => true
  | .growing => false
  | .passed rest => (wordEnd 255 rest).isSome

theorem not_pinned_growing {room : Nat} (hroom : 2 ≤ room) {s : CString}
    (h : sizeEnd s = .growing) : ¬ Pinned room sizeAndTmpfile s := by
  intro hpinned
  have hdigits : (sizeBody s).takeWhile isDigit = sizeBody s := by
    unfold sizeEnd at h
    dsimp only at h
    split at h
    · assumption
    · split at h <;> contradiction
  rcases eq_or_ne (sizeBody s) [] with hnil | hne
  · -- no digit yet: the digit 1 makes the size positive
    have hbody : sizeBody (s ++ [49]) = [49] := by
      by_cases hspaces : s.dropWhile isSpace = []
      · unfold sizeBody
        rw [List.dropWhile_append, hspaces]
        decide
      · rw [sizeBody_append hspaces, hnil]
        rfl
    have hsame := congrArg Prod.fst (hpinned [49] (by simp; omega) (by decide))
    unfold sizeAndTmpfile at hsame
    dsimp only at hsame
    rw [sizeField_eq (s ++ [49]), hbody, sizeField_eq s, hnil, if_neg (by decide),
      if_pos List.takeWhile_nil] at hsame
    revert hsame
    cases decide (((s ++ [49]).dropWhile isSpace).head? = some 45) <;> decide
  · -- after the last digit a temporary file may follow
    have hspaces : s.dropWhile isSpace ≠ [] := by
      intro hspaces
      exact hne (sizeBody_of_spaces hspaces)
    have hmore : (sizeBody s ++ [32, 120]).takeWhile isDigit = sizeBody s := by
      rw [List.takeWhile_append, if_pos (by rw [hdigits])]
      simp [isDigit]
    have hsame := congrArg Prod.snd (hpinned [32, 120] hroom (by decide))
    unfold sizeAndTmpfile at hsame
    dsimp only at hsame
    rw [sizeField_eq (s ++ [32, 120]), sizeBody_append hspaces, hmore, sizeField_eq s, hdigits,
      if_neg hne, if_neg hne] at hsame
    simp only [List.drop_left, List.drop_length, stringField_fst] at hsame
    revert hsame
    decide

theorem pinned_sizeAndTmpfile {room : Nat} (hroom : 2 ≤ room) (s : CString) :
    Pinned room sizeAndTmpfile s ↔ sizeAndTmpfileFixed s = true := by
  unfold sizeAndTmpfileFixed
  cases hend : sizeEnd s with
  | never =>
    refine iff_of_true ?_ rfl
    intro u _ _
    have hself := sizeField_of_never hend []
    rw [List.append_nil] at hself
    unfold sizeAndTmpfile
    rw [sizeField_of_never hend u, hself]
  | growing => exact iff_of_false (not_pinned_growing hroom hend) (by simp)
  | passed rest =>
    have hread : ∀ u, sizeAndTmpfile (s ++ u) =
        ((sizeField (some s)).1, (stringField 255 (some (rest ++ u))).1) := by
      intro u
      unfold sizeAndTmpfile
      rw [sizeField_of_passed hend u]
    have hrest : Pinned room sizeAndTmpfile s ↔
        Pinned room (fun t => (stringField 255 (some t)).1) rest := by
      refine forall_congr' fun u => forall_congr' fun _ => forall_congr' fun _ => ?_
      have hself := hread []
      rw [List.append_nil, List.append_nil] at hself
      rw [hread, hself, Prod.mk.injEq]
      simp
    rw [hrest, pinned_stringField (by omega) (by omega) Prod.fst id (fun _ => rfl)]
    simp [Pinned, Option.isSome_iff_exists]

end Uploads

section Priorities
variable {room : Nat} {s : CString}

def priorityWords : List CString := [cstr "high", cstr "low"]

/-- The priority that SIGNUP makes of its third word. -/
def priorityOfWord (word : CString) : TaskPriority :=
  if word.map toLower = cstr "high" then .high
  else if word.map toLower = cstr "low" then .low
  else .normal

def signupPriority (s : CString) : TaskPriority := priorityOfWord (firstWord 15 s)

/-- The third word has ended, or it is neither a priority nor can it become one. -/
def priorityFixed (room : Nat) (s : CString) : Bool :=
  (wordEnd 15 s).isSome ∨ ∀ w ∈ priorityWords,
    ¬ ((firstWord 15 s).map toLower <+: w ∧ w.length ≤ (firstWord 15 s).length + room)

theorem priorityWords_spec : ∀ w ∈ priorityWords,
    w.length ≤ 4 ∧ w.map toLower = w ∧ ∀ c ∈ w, isSpace c = false ∧ c ≠ 0 := by
  have hall : priorityWords.all (fun w => w.length ≤ 4 ∧ w.map toLower = w ∧
      w.all (fun c => isSpace c = false ∧ c ≠ 0) = true) = true := rfl
  simpa using hall

theorem priorityOfWord_eq_normal {word : CString} :
    priorityOfWord word = .normal ↔ word.map toLower ∉ priorityWords := by
  unfold priorityOfWord priorityWords
  split
  · simp [*]
  · split <;> simp [*]

theorem signupPriority_of_hopeless (hopen : wordEnd 15 s = none)
    (h : ∀ w ∈ priorityWords,
      ¬ ((firstWord 15 s).map toLower <+: w ∧ w.length ≤ (firstWord 15 s).length + room))
    {u : CString} (hlen : u.length ≤ room) : signupPriority (s ++ u) = .normal := by
  have hlt := firstWord_lt_of_open hopen
  obtain ⟨v, hv, _, hword⟩ := firstWord_append_of_open hopen u
  rw [signupPriority, priorityOfWord_eq_normal, hword]
  intro hmem
  apply h _ hmem
  refine ⟨?_, ?_⟩
  · rw [List.take_append, List.take_of_length_le (by omega), List.map_append]
    exact List.prefix_append _ _
  · rw [List.length_map, List.length_take, List.length_append]
    omega

theorem not_pinned_signupPriority (hroom : 1 ≤ room) (hopen : wordEnd 15 s = none) {w : CString}
    (hw : w ∈ priorityWords) (hbegins : (firstWord 15 s).map toLower <+: w)
    (hfits : w.length ≤ (firstWord 15 s).length + room) : ¬ Pinned room signupPriority s := by
  intro hpinned
  obtain ⟨hshort, hlower, hletters⟩ := priorityWords_spec w hw
  by_cases hnow : (firstWord 15 s).map toLower ∈ priorityWords
  · -- a complete priority is spoilt by one more letter
    have hsame := hpinned [120] hroom (by decide)
    have hspoilt : signupPriority (s ++ [120]) = .normal := by
      rw [signupPriority, priorityOfWord_eq_normal, firstWord_append_letter hopen, List.map_append]
      revert hnow
      generalize (firstWord 15 s).map toLower = word
      revert word
      decide
    rw [hspoilt] at hsame
    exact priorityOfWord_eq_normal.mp hsame.symm hnow
  · -- a proper beginning of a priority is completed
    obtain ⟨rest, hrest⟩ := hbegins
    have hsub : ∀ c ∈ rest, isSpace c = false ∧ c ≠ 0 := by
      intro c hc
      apply hletters
      rw [← hrest]
      exact List.mem_append_right _ hc
    have hlen : (firstWord 15 s).length + rest.length = w.length := by
      rw [← hrest, List.length_append, List.length_map]
    have hsame := hpinned rest (by omega) fun h0 => (hsub 0 h0).2 rfl
    obtain ⟨v, _, hv, hword⟩ := firstWord_append_of_open hopen rest
    obtain rfl := hv fun c hc => (hsub c hc).1
    have hdone : (firstWord 15 (s ++ v)).map toLower = w := by
      rw [hword, List.take_of_length_le (by rw [List.length_append]; omega), List.map_append]
      rw [← hrest, List.map_append] at hlower
      rw [(List.append_inj hlower (by simp)).2, hrest]
    have hnormal : signupPriority s = .normal := priorityOfWord_eq_normal.mpr hnow
    rw [hnormal] at hsame
    apply priorityOfWord_eq_normal.mp hsame
    rw [hdone]
    exact hw

theorem pinned_signupPriority (hroom : 1 ≤ room) (s : CString) :
    Pinned room signupPriority s ↔ priorityFixed room s = true := by
  unfold priorityFixed
  rw [decide_eq_true_eq]
  cases hend : wordEnd 15 s with
  | some rest =>
    refine iff_of_true ?_ (Or.inl rfl)
    intro u _ _
    unfold signupPriority
    rw [firstWord_append_of_wordEnd (by omega) hend]
  | none =>
    constructor
    · intro hpinned
      right
      rintro w hw ⟨hbegins, hfits⟩
      exact not_pinned_signupPriority hroom hend hw hbegins hfits hpinned
    · rintro (h | h) u hlen _
      · contradiction
      · have hself := signupPriority_of_hopeless hend h (u := []) (by simp)
        rw [List.append_nil] at hself
        rw [signupPriority_of_hopeless hend h hlen, hself]

end Priorities

section Commands
variable {room : Nat} (task : Task) (args : CString)

/-- Two string fields and what is made of the rest of the line. -/
theorem pinned_twoFields {α : Type} {width width' : Nat} (hw : 0 < width) (hw' : 0 < width')
    (hroom : 1 ≤ room) (k : CString → CString → Option CString → α) (field field' : α → CString)
    (hfield : ∀ a b c, field (k a b c) = a) (hfield' : ∀ a b c, field' (k a b c) = b) :
    Pinned room (fun t => k (stringField width (some t)).1
        (stringField width' (stringField width (some t)).2).1
        (stringField width' (stringField width (some t)).2).2) args ↔
      ∃ rest, wordEnd width args = some rest ∧ ∃ rest', wordEnd width' rest = some rest' ∧
        Pinned room (fun t => k (firstWord width args) (firstWord width' rest) (some t)) rest' := by
  rw [pinned_stringField hw hroom (fun x => k x.1 (stringField width' x.2).1 (stringField width' x.2).2)
    field (fun _ => hfield _ _ _)]
  refine exists_congr fun rest => and_congr_right fun _ => ?_
  exact pinned_stringField hw' hroom (fun y => k (firstWord width args) y.1 y.2) field'
    (fun _ => hfield' _ _ _) rest

def twoWordsFixed (width width' : Nat) (args : CString) : Bool :=
  (wordEnd width args).any fun rest => (wordEnd width' rest).isSome

def signupFixed (room : Nat) (args : CString) : Bool :=
  (wordEnd 63 args).any fun rest => (wordEnd 63 rest).any (priorityFixed room)

def uploadFixed (args : CString) : Bool :=
  (wordEnd 63 args).any fun rest => (wordEnd 255 rest).any sizeAndTmpfileFixed

theorem pinned_const {α : Type} (a : α) (s : CString) : Pinned room (fun _ => a) s :=
  fun _ _ _ => rfl

/-- The priority that SIGNUP reads from the rest of its line. -/
def priorityField (rest : Option CString) : TaskPriority :=
  let (priorityStr, rest) := stringField 15 rest
  if rest.isSome then
    if strcasecmpEq priorityStr (cstr "HIGH") then .high
    else if strcasecmpEq priorityStr (cstr "LOW") then .low
    else .normal
  else .normal

theorem priorityField_some (s : CString) : priorityField (some s) = signupPriority s := by
  unfold priorityField signupPriority
  rw [stringField_eq]
  by_cases h : s.dropWhile isSpace = []
  · rw [if_pos h, firstWord_of_spaces h]
    decide
  · rw [if_neg h]
    simp only [Option.isSome_some, if_pos, strcasecmpEq, decide_eq_true_eq]
    rfl

theorem pinned_parseSignup (hroom : 1 ≤ room) :
    Pinned room (parseSignup task) args ↔ signupFixed room args = true := by
  refine (pinned_twoFields args (Nat.succ_pos _) (Nat.succ_pos _) hroom
    (fun username password rest =>
      { task with type := .signup, username, password, priority := priorityField rest })
    Task.username Task.password (fun _ _ _ => rfl) (fun _ _ _ => rfl)).trans ?_
  simp only [signupFixed, Option.any_eq_true]
  refine exists_congr fun rest => and_congr_right fun _ => exists_congr fun rest' =>
    and_congr_right fun _ => ?_
  rw [← pinned_signupPriority hroom]
  simp only [priorityField_some]
  refine pinned_map (f := signupPriority) (g := fun priority => { task with
      type := .signup
      username := firstWord 63 args
      password := firstWord 63 rest
      priority := priority }) rest' ?_
  intro a b hab
  exact congrArg Task.priority hab

theorem pinned_parseLogin (hroom : 1 ≤ room) :
    Pinned room (parseLogin task) args ↔ twoWordsFixed 63 63 args = true := by
  refine (pinned_twoFields args (Nat.succ_pos _) (Nat.succ_pos _) hroom
    (fun username password _ =>
    { task with type := .login, username, password, priority := .high }) Task.username
    Task.password (fun _ _ _ => rfl) (fun _ _ _ => rfl)).trans ?_
  simp [twoWordsFixed, pinned_const, Option.any_eq_true, Option.isSome_iff_exists]

theorem pinned_parseUserPath (hroom : 1 ≤ room) (type : CommandType) (priority : TaskPriority) :
    Pinned room (parseUserPath type priority task) args ↔ twoWordsFixed 63 255 args = true := by
  refine (pinned_twoFields args (Nat.succ_pos _) (Nat.succ_pos _) hroom
    (fun username path _ =>
    { task with type, username, path, priority }) Task.username
    Task.path (fun _ _ _ => rfl) (fun _ _ _ => rfl)).trans ?_
  simp [twoWordsFixed, pinned_const, Option.any_eq_true, Option.isSome_iff_exists]

theorem pinned_parseUpload (hroom : 2 ≤ room) :
    Pinned room (parseUpload task) args ↔ uploadFixed args = true := by
  refine (pinned_twoFields args (Nat.succ_pos _) (Nat.succ_pos _)
    (Nat.le_of_succ_le hroom) (fun username path rest =>
    { task with
      type := .upload
      username := username
      path := path
      size := (sizeField rest).1
      tmpfile := (stringField 255 (sizeField rest).2).1
      priority := .normal }) Task.username
    Task.path (fun _ _ _ => rfl) (fun _ _ _ => rfl)).trans ?_
  simp only [uploadFixed, Option.any_eq_true]
  refine exists_congr fun rest => and_congr_right fun _ => exists_congr fun rest' =>
    and_congr_right fun _ => ?_
  rw [← pinned_sizeAndTmpfile hroom]
  refine pinned_map (f := sizeAndTmpfile) (g := fun x => { task with
      type := .upload
      username := firstWord 63 args
      path := firstWord 255 rest
      size := x.1
      tmpfile := x.2
      priority := .normal }) rest' ?_
  intro a b hab
  exact Prod.ext (congrArg Task.size hab) (congrArg Task.tmpfile hab)

theorem pinned_parseList (hroom : 1 ≤ room) :
    Pinned room (parseList task) args ↔ (wordEnd 63 args).isSome = true := by
  refine (pinned_stringField (Nat.succ_pos _) hroom (fun x =>
    { task with type := .list, username := x.1, priority := .low }) Task.username
    (fun _ => rfl) args).trans ?_
  simp [pinned_const, Option.isSome_iff_exists]

end Commands

section Lines
variable {client : ClientInfo} {now : Timespec} {room : Nat} {line : CString}

def taskKeywords : List CString :=
  [cstr "SIGNUP", cstr "LOGIN", cstr "UPLOAD", cstr "DOWNLOAD", cstr "DELETE", cstr "LIST"]

/-- The command is known and its arguments are settled, or no command that
submits a task can come of the line any more. -/
def lineFixed (room : Nat) (line : CString) : Bool :=
  if startsWith line (cstr "SIGNUP") then signupFixed room (line.drop 6)
  else if startsWith line (cstr "LOGIN") then twoWordsFixed 63 63 (line.drop 5)
  else if startsWith line (cstr "UPLOAD") then uploadFixed (line.drop 6)
  else if startsWith line (cstr "DOWNLOAD") then twoWordsFixed 63 255 (line.drop 8)
  else if startsWith line (cstr "DELETE") then twoWordsFixed 63 255 (line.drop 6)
  else if startsWith line (cstr "LIST") then (wordEnd 63 (line.drop 4)).isSome
  else taskKeywords.all fun keyword => ¬ line <+: keyword

theorem startsWith_iff (line keyword : CString) :
    startsWith line keyword = true ↔ keyword <+: line := by
  unfold startsWith
  rw [decide_eq_true_eq, List.prefix_iff_eq_take]
  exact eq_comm

theorem startsWith_append {keyword : CString} (h : startsWith line keyword = true) (u : CString) :
    startsWith (line ++ u) keyword = true ∧
      (line ++ u).drop keyword.length = line.drop keyword.length ++ u := by
  rw [startsWith_iff] at h ⊢
  exact ⟨h.trans (List.prefix_append _ _), List.drop_append_of_le_length h.length_le⟩

/-- A line starts with one keyword at most. -/
theorem startsWith_exclusive {k : CString} (h : startsWith line k = true) (k' : CString)
    (hk : ¬ k <+: k' ∧ ¬ k' <+: k) : startsWith line k' = false := by
  rw [Bool.eq_false_iff]
  intro h'
  rw [startsWith_iff] at h h'
  rcases List.prefix_or_prefix_of_prefix h h' with hle | hle
  · exact hk.1 hle
  · exact hk.2 hle

theorem task_eq_none_iff : (parseCommand client now line).task? = none ↔
    ∀ keyword ∈ taskKeywords, startsWith line keyword = false := by
  unfold parseCommand
  dsimp only
  split
  · simp_all [taskKeywords, Parsed.task?]
  split
  · simp_all [taskKeywords, Parsed.task?]
  split
  · simp_all [taskKeywords, Parsed.task?]
  split
  · simp_all [taskKeywords, Parsed.task?]
  split
  · simp_all [taskKeywords, Parsed.task?]
  split
  · simp_all [taskKeywords, Parsed.task?]
  split <;> simp_all [taskKeywords, Parsed.task?]

/-- Without a keyword, the line is settled unless it can become one. -/
theorem pinned_no_keyword (hlong : 8 ≤ line.length + room)
    (hnone : ∀ keyword ∈ taskKeywords, startsWith line keyword = false) :
    Pinned room (fun l => (parseCommand client now l).task?) line ↔
      ∀ keyword ∈ taskKeywords, ¬ line <+: keyword := by
  have hline : (parseCommand client now line).task? = none := task_eq_none_iff.mpr hnone
  constructor
  · rintro hpinned keyword hk ⟨u, hu⟩
    have hword : keyword.length ≤ 8 ∧ 0 ∉ keyword := by
      revert hk
      clear hu
      revert keyword
      decide
    rw [← hu, List.length_append] at hword
    have hsame := hpinned u (by omega) fun h0 => hword.2 (List.mem_append_right _ h0)
    dsimp only at hsame
    rw [hline, hu, task_eq_none_iff] at hsame
    have hself : startsWith keyword keyword = true := by simp [startsWith]
    rw [hsame keyword hk] at hself
    contradiction
  · intro hfar u _ _
    dsimp only
    rw [hline, task_eq_none_iff]
    intro keyword hk
    rw [Bool.eq_false_iff]
    intro hstarts
    rw [startsWith_iff] at hstarts
    rcases List.prefix_or_prefix_of_prefix hstarts (List.prefix_append line u) with hle | hle
    · have hno := hnone keyword hk
      rw [(startsWith_iff _ _).mpr hle] at hno
      contradiction
    · exact hfar keyword hk hle

/-- Behind its keyword the line is settled when the arguments are. -/
theorem pinned_keyword {keyword : CString} (n : Nat) (hn : keyword.length = n)
    {parse : CString → Task} (h : startsWith line keyword = true)
    (hparse : ∀ l, startsWith l keyword = true →
      parseCommand client now l = .submit (parse (l.drop n))) :
    Pinned room (fun l => (parseCommand client now l).task?) line ↔
      Pinned room parse (line.drop n) := by
  have htask : ∀ u, (parseCommand client now (line ++ u)).task? = some (parse (line.drop n ++ u)) := by
    intro u
    obtain ⟨hstart, hdrop⟩ := startsWith_append h u
    rw [hparse _ hstart, ← hn, hdrop]
    rfl
  refine forall_congr' fun u => forall_congr' fun _ => forall_congr' fun _ => ?_
  have hself := htask []
  rw [List.append_nil, List.append_nil] at hself
  dsimp only
  rw [htask, hself, Option.some.injEq]

theorem pinned_parseCommand (client : ClientInfo) (now : Timespec) (hroom : 2 ≤ room)
    (hlong : 8 ≤ line.length + room) :
    Pinned room (fun l => (parseCommand client now l).task?) line ↔ lineFixed room line = true := by
  have hone : 1 ≤ room := Nat.le_of_succ_le hroom
  unfold lineFixed
  split
  · rename_i h
    refine (pinned_keyword 6 rfl h ?_).trans
      (pinned_parseSignup (blankTask client now) _ hone)
    intro l hl
    simp [parseCommand, blankTask, hl]
  split
  · rename_i h
    refine (pinned_keyword 5 rfl h ?_).trans
      (pinned_parseLogin (blankTask client now) _ hone)
    intro l hl
    simp [parseCommand, blankTask, hl, startsWith_exclusive hl (cstr "SIGNUP") (by decide)]
  split
  · rename_i h
    refine (pinned_keyword 6 rfl h ?_).trans
      (pinned_parseUpload (blankTask client now) _ hroom)
    intro l hl
    simp [parseCommand, blankTask, hl, startsWith_exclusive hl (cstr "SIGNUP") (by decide),
      startsWith_exclusive hl (cstr "LOGIN") (by decide)]
  split
  · rename_i h
    refine (pinned_keyword 8 rfl h ?_).trans
      (pinned_parseUserPath (blankTask client now) _ hone .download .normal)
    intro l hl
    simp [parseCommand, blankTask, hl, startsWith_exclusive hl (cstr "SIGNUP") (by decide),
      startsWith_exclusive hl (cstr "LOGIN") (by decide),
      startsWith_exclusive hl (cstr "UPLOAD") (by decide)]
  split
  · rename_i h
    refine (pinned_keyword 6 rfl h ?_).trans
      (pinned_parseUserPath (blankTask client now) _ hone .delete .high)
    intro l hl
    simp [parseCommand, blankTask, hl, startsWith_exclusive hl (cstr "SIGNUP") (by decide),
      startsWith_exclusive hl (cstr "LOGIN") (by decide),
      startsWith_exclusive hl (cstr "UPLOAD") (by decide),
      startsWith_exclusive hl (cstr "DOWNLOAD") (by decide)]
  split
  · rename_i h
    refine (pinned_keyword 4 rfl h ?_).trans
      (pinned_parseList (blankTask client now) _ hone)
    intro l hl
    simp [parseCommand, blankTask, hl, startsWith_exclusive hl (cstr "SIGNUP") (by decide),
      startsWith_exclusive hl (cstr "LOGIN") (by decide),
      startsWith_exclusive hl (cstr "UPLOAD") (by decide),
      startsWith_exclusive hl (cstr "DOWNLOAD") (by decide),
      startsWith_exclusive hl (cstr "DELETE") (by decide)]
  · rw [pinned_no_keyword hlong (by simp_all [taskKeywords])]
    simp

end Lines

/-- The unterminated end of a stream is settled by a NUL in it or, with the bytes
that are left in the 512 of the buffer, as a line. -/
def tailFixed (tail : List Byte) : Bool := 0 ∈ tail ∨ lineFixed (512 - tail.length) tail

theorem cString_of_mem {bytes : List Byte} (h : 0 ∈ bytes) (rest : List Byte) :
    cString (bytes ++ rest) = cString bytes := by
  obtain ⟨pre, post, rfl⟩ := List.append_of_mem h
  rw [List.append_assoc, List.cons_append, cString_append_zero, cString_append_zero]

theorem cString_of_not_mem {bytes : List Byte} (h : 0 ∉ bytes) (rest : List Byte) :
    cString (bytes ++ rest) = bytes ++ cString rest := by
  unfold cString
  rw [List.takeWhile_append, if_pos]
  rw [List.takeWhile_eq_self_iff.mpr]
  intro c hc
  simpa using fun h0 : c = 0 => h (h0 ▸ hc)

theorem zero_not_mem_cString (bytes : List Byte) : 0 ∉ cString bytes := by
  intro h
  simpa using List.mem_takeWhile_imp h

/-- The task read from the tail does not depend on the bytes behind it exactly
when the tail is settled. -/
theorem tail_settled_iff (client : ClientInfo) (now : Timespec) {tail : List Byte}
    (hlen : tail.length ≤ 510) :
    (∀ older₁ older₂ : List Byte, older₁.length = 512 - tail.length →
        older₂.length = 512 - tail.length →
        (parseCommand client now (cString (tail ++ older₁))).task? =
          (parseCommand client now (cString (tail ++ older₂))).task?) ↔
      tailFixed tail = true := by
  unfold tailFixed
  rw [decide_eq_true_eq]
  by_cases hzero : 0 ∈ tail
  · refine iff_of_true ?_ (Or.inl hzero)
    intro older₁ older₂ _ _
    rw [cString_of_mem hzero, cString_of_mem hzero]
  rw [or_iff_right hzero, ← pinned_parseCommand client now (by omega) (by omega)]
  constructor
  · intro h u hroom hu
    have hfill := h (u ++ List.replicate (512 - tail.length - u.length) 0)
      (List.replicate (512 - tail.length) 0) (by simp; omega) (by simp)
    have hzeros : ∀ k, cString (List.replicate k 0) = [] := by
      intro k
      cases k <;> simp [cString, List.replicate_succ]
    rw [cString_of_not_mem hzero, cString_of_not_mem hzero, cString_of_not_mem hu, hzeros, hzeros,
      List.append_nil, List.append_nil] at hfill
    exact hfill
  · intro h older₁ older₂ h₁ h₂
    have hpinned : ∀ older : List Byte, older.length = 512 - tail.length →
        (parseCommand client now (cString (tail ++ older))).task? =
          (parseCommand client now tail).task? := by
      intro older holder
      rw [cString_of_not_mem hzero]
      apply h _ _ (zero_not_mem_cString older)
      rw [← holder]
      exact (List.takeWhile_sublist _).length_le
    rw [hpinned older₁ h₁, hpinned older₂ h₂]

end FileServer
