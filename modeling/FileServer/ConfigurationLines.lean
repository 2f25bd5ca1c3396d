import FileServer.Configuration

/-!
# What the configuration reader makes of a line (config.c)

A buffer is read for what it says exactly when it is a comment, sets nothing, or has a
value that `strtok` and the cut at the line's end leave whole. A file is read right when
each of its lines is, and goes on saying the same when it is cut every 255 bytes.
-/

namespace FileServer

open Entries Fgets Lines
set_option autoImplicit false

def optionKeys : List CString :=
  [cstr "use_persistent_storage", cstr "storage_path", cstr "database_file"]

/-- The text of a buffer from the first character on that is no `=`. -/
def lineTokens (line : List Byte) : CString := (lineText line).dropWhile fun c => c = 61

def firstToken (s : CString) : CString := beforeSep 61 (s.dropWhile fun c => c = 61)

def Separators (s : CString) : Prop := ∀ c ∈ s, c = 61

instance (s : CString) : Decidable (Separators s) := List.decidableBAll (fun c => c = 61) s

/-- The entry in a text that does not begin with `=`. -/
def tokenEntry (tokens : CString) : Option (CString × CString) :=
  if Separators (afterSep 61 tokens) then none
  else some (trimmed isBlank (beforeSep 61 tokens), trimmed isBlank (firstToken (afterSep 61 tokens)))

/-- The value has no second `=`, and the line ends where the reader cuts it. -/
def ValueKept (line : List Byte) : Prop :=
  61 ∉ afterSep 61 (lineText line) ∧ ∀ c ∈ line.drop (lineText line).length, isBlank c

/-- The key is read before the cut, and a value after it, which is kept or, were it kept,
would switch nothing on either. -/
def OptionKept (line : List Byte) : Prop :=
  61 ∈ lineText line ∧ ¬ Separators (afterSep 61 (lineText line)) ∧
    (ValueKept line ∨
      trimmed isBlank (beforeSep 61 line) = cstr "use_persistent_storage" ∧
        trimmed isBlank (firstToken (afterSep 61 (lineText line))) ≠ cstr "1" ∧
          trimmed isBlank (afterSep 61 line) ≠ cstr "1")

/-- A comment, a line without an option, or one whose option is kept. A `=` at the start
is skipped, and no option may stand behind it. -/
def Clear (line : List Byte) : Prop :=
  line.head? = some 35 ∨
  line.head? = some 61 ∧
    (trimmed isBlank (beforeSep 61 (lineTokens line)) ∈ optionKeys →
      Separators (afterSep 61 (lineTokens line))) ∨
  line.head? ≠ some 61 ∧
    (61 ∈ line → trimmed isBlank (beforeSep 61 line) ∈ optionKeys → OptionKept line)

/-- A comment, or a buffer that gives none of the three options a value. -/
def Silent (line : List Byte) : Prop :=
  line.head? = some 35 ∨
  (trimmed isBlank (beforeSep 61 (lineTokens line)) ∈ optionKeys →
    Separators (afterSep 61 (lineTokens line)))

instance (line : List Byte) : Decidable (ValueKept line) :=
  have : Decidable (∀ c ∈ line.drop (lineText line).length, isBlank c) := List.decidableBAll _ _
  instDecidableAnd

instance (line : List Byte) : Decidable (OptionKept line) := instDecidableAnd

instance (line : List Byte) : Decidable (Clear line) := instDecidableOr

instance (line : List Byte) : Decidable (Silent line) := instDecidableOr

section Texts
variable {line : List Byte}

theorem lineText_eq (line : List Byte) :
    lineText line = line.takeWhile fun c => (c ≠ 13 ∧ c ≠ 10) ∧ c ≠ 0 := by
  rw [lineText, cString, List.takeWhile_takeWhile]
  simp

theorem mem_lineText {c : Byte} (h : c ∈ lineText line) : c ≠ 13 ∧ c ≠ 10 ∧ c ≠ 0 := by
  rw [lineText_eq] at h
  have hc := List.mem_takeWhile_imp h
  simp only [decide_eq_true_eq] at hc
  exact ⟨hc.1.1, hc.1.2, hc.2⟩

/-- The line goes on after its text only from a byte at which the reader cuts it. -/
theorem lineText_append_drop (line : List Byte) :
    lineText line ++ line.drop (lineText line).length = line := by
  have hprefix : lineText line <+: line := lineText_eq line ▸ List.takeWhile_prefix _
  exact (List.prefix_iff_eq_append.mp hprefix)

theorem lineText_end (line : List Byte) : lineText (line ++ [10]) = lineText line := by
  rw [lineText_eq, lineText_eq, List.takeWhile_append]
  split
  · rename_i hall
    rw [(List.takeWhile_prefix _).eq_of_length hall]
    simp
  · rfl

theorem trimWhitespace_eq {str : CString} (h : ∀ c ∈ str, c ≠ 13 ∧ c ≠ 10) :
    trimWhitespace str = trimmed isBlank str := by
  have hdrop : (str.dropWhile fun c => c = 32 ∨ c = 9) = str.dropWhile isBlank := by
    induction str with
    | nil => rfl
    | cons c str ih =>
      have hc := h c List.mem_cons_self
      have hrest := ih fun d hd => h d (List.mem_cons_of_mem c hd)
      rw [List.dropWhile_cons, List.dropWhile_cons, hrest]
      simp [isBlank, hc.1, hc.2]
  unfold trimWhitespace trimmed
  rw [hdrop]
  split
  · rename_i hnil
    rw [hnil, List.rdropWhile_nil]
  · rename_i c rest heq
    have hc : ¬ isBlank c := by
      have hhead := List.head_dropWhile_not isBlank (l := str) (by simp [heq])
      simp only [heq, List.head_cons] at hhead
      simp [hhead]
    rw [heq, rdropWhile_cons_of_neg hc]
    rfl

end Texts

section Buffers
variable {line : List Byte}

theorem strtok_eq (s : CString) :
    strtok s = if (s.dropWhile fun c => c = 61) = [] then none
      else some (firstToken s, afterSep 61 (s.dropWhile fun c => c = 61)) := rfl

theorem dropWhile_eq_nil_iff_separators {s : CString} :
    (s.dropWhile fun c => c = 61) = [] ↔ Separators s := by
  simp [List.dropWhile_eq_nil_iff, Separators]

/-- `trim_whitespace` trims all that can stand around a part of a text. -/
theorem trimWhitespace_part {s : CString} (h : s.Sublist (lineText line)) :
    trimWhitespace s = trimmed isBlank s :=
  trimWhitespace_eq fun _ hc => ⟨(mem_lineText (h.subset hc)).1, (mem_lineText (h.subset hc)).2.1⟩

theorem afterSep_sublist (s : CString) : (afterSep 61 s).Sublist s :=
  (List.drop_sublist _ _).trans (List.dropWhile_sublist _)

theorem firstToken_sublist (s : CString) : (firstToken s).Sublist s :=
  (List.takeWhile_sublist _).trans (List.dropWhile_sublist _)

theorem strtok_twice (line : List Byte) :
    (match strtok (lineText line) with
      | none => none
      | some (key, rest) =>
        match strtok rest with
        | none => none
        | some (value, _) => some (trimWhitespace key, trimWhitespace value)) =
      tokenEntry (lineTokens line) := by
  have htokens : (lineTokens line).Sublist (lineText line) := List.dropWhile_sublist _
  have hfirst : strtok (lineText line) = if lineTokens line = [] then none
      else some (beforeSep 61 (lineTokens line), afterSep 61 (lineTokens line)) := rfl
  rw [hfirst]
  by_cases hnil : lineTokens line = []
  · rw [if_pos hnil, hnil]
    rfl
  · rw [if_neg hnil, tokenEntry]
    dsimp only
    rw [strtok_eq]
    by_cases hall : Separators (afterSep 61 (lineTokens line))
    · rw [if_pos hall, if_pos (dropWhile_eq_nil_iff_separators.mpr hall)]
    · rw [if_neg hall, if_neg (mt dropWhile_eq_nil_iff_separators.mp hall)]
      have hkey := trimWhitespace_part ((List.takeWhile_sublist _).trans htokens :
        (beforeSep 61 (lineTokens line)).Sublist (lineText line))
      have hvalue := trimWhitespace_part ((firstToken_sublist _).trans
        ((afterSep_sublist (lineTokens line)).trans htokens))
      exact congrArg some (Prod.ext hkey hvalue)

theorem head?_of_cString {c : Byte} {rest : CString} (h : cString line = c :: rest) :
    line.head? = some c := by
  cases line with
  | nil => contradiction
  | cons d line =>
    rw [cString, List.takeWhile_cons] at h
    split at h
    · exact congrArg some (List.cons.inj h).1
    · contradiction

/-- What a buffer that is no comment is read as. -/
theorem lineEntry_eq (h : line.head? ≠ some 35) : lineEntry line = tokenEntry (lineTokens line) := by
  have hempty : lineText line = [] → none = tokenEntry (lineTokens line) := by
    intro hnil
    rw [lineTokens, hnil]
    rfl
  unfold lineEntry
  split
  · rename_i hnil
    exact hempty (by rw [lineText, hnil]; rfl)
  · rename_i c rest hcons
    have hc : c ≠ 35 := fun heq => h (heq ▸ head?_of_cString hcons)
    split
    · rename_i hskip
      refine hempty ?_
      rw [lineText, hcons, List.takeWhile_cons_of_neg]
      rcases hskip.resolve_left hc with rfl | rfl <;> decide
    · exact strtok_twice line

theorem lineEntry_comment (h : line.head? = some 35) : lineEntry line = none := by
  unfold lineEntry
  split
  · rfl
  · rename_i c rest hcons
    have hc := head?_of_cString hcons
    rw [h] at hc
    obtain rfl := Option.some.inj hc
    rfl

end Buffers

section Options
variable {line : List Byte} {key value other : CString}

theorem ofEntry_eq_none_iff : Setting.ofEntry (key, value) = none ↔ key ∉ optionKeys := by
  unfold Setting.ofEntry optionKeys
  split
  · simp_all
  split
  · simp_all
  split <;> simp_all

/-- Two values of an option come to the same only if they are the same, or both switch off. -/
theorem ofEntry_eq_iff (h : key ∈ optionKeys) :
    Setting.ofEntry (key, value) = Setting.ofEntry (key, other) ↔
      value = other ∨ key = cstr "use_persistent_storage" ∧ value ≠ cstr "1" ∧ other ≠ cstr "1" := by
  by_cases hswitch : key = cstr "use_persistent_storage"
  · have hof : ∀ v, Setting.ofEntry (key, v) =
        some (.usePersistentStorage (decide (v = cstr "1"))) := fun v => if_pos hswitch
    rw [hof, hof, Option.some.injEq, Setting.usePersistentStorage.injEq, decide_eq_decide]
    by_cases hvalue : value = cstr "1"
    · simp [hvalue, eq_comm]
    · simp only [hvalue, false_iff, not_false_eq_true, ne_eq, true_and, hswitch]
      exact ⟨Or.inr, fun hor => hor.elim (fun heq => heq ▸ hvalue) id⟩
  · unfold Setting.ofEntry
    simp only [hswitch, false_and, or_false, ↓reduceIte]
    split
    · simp
    split
    · simp
    · simp_all [optionKeys]

theorem firstToken_of_notMem {s : CString} (h : 61 ∉ s) : firstToken s = s := by
  have hall : ∀ c ∈ s, c ≠ 61 := fun c hc heq => h (heq ▸ hc)
  have hdrop : (s.dropWhile fun c => c = 61) = s := by
    cases s with
    | nil => rfl
    | cons c s => rw [List.dropWhile_cons_of_neg (by simpa using hall c List.mem_cons_self)]
  rw [firstToken, hdrop, beforeSep, List.takeWhile_eq_self_iff]
  simpa using hall

theorem notMem_firstToken (s : CString) : 61 ∉ firstToken s := by
  intro hmem
  have hne := List.mem_takeWhile_imp hmem
  simp at hne

/-- The token read as the value is the value when nothing else stood on the line. Nothing
but blanks is lost in trimming, so what was cut off would be missing. -/
theorem value_eq_iff (h : 61 ∈ lineText line) :
    trimmed isBlank (firstToken (afterSep 61 (lineText line))) =
      trimmed isBlank (afterSep 61 line) ↔ ValueKept line := by
  have hafter : afterSep 61 line =
      afterSep 61 (lineText line) ++ line.drop (lineText line).length := by
    rw [← afterSep_append h, lineText_append_drop]
  rw [hafter, ValueKept]
  generalize afterSep 61 (lineText line) = value
  generalize line.drop (lineText line).length = rest
  constructor
  · intro heq
    have hfilter := congrArg (List.filter fun c => !isBlank c) heq
    rw [filter_trimmed, filter_trimmed, List.filter_append] at hfilter
    have hsub := (firstToken_sublist value).filter fun c => !isBlank c
    have hlength := congrArg List.length hfilter
    have hle := hsub.length_le
    rw [List.length_append] at hlength
    have hrest : rest.filter (fun c => !isBlank c) = [] :=
      List.eq_nil_of_length_eq_zero (by omega)
    have hsame := hsub.eq_of_length (by omega)
    constructor
    · intro hmem
      have hkept : 61 ∈ value.filter fun c => !isBlank c := List.mem_filter.mpr ⟨hmem, rfl⟩
      rw [← hsame] at hkept
      exact notMem_firstToken value (List.mem_filter.mp hkept).1
    · simpa [List.filter_eq_nil_iff] using hrest
  · rintro ⟨hone, hblank⟩
    rw [firstToken_of_notMem hone, trimmed_append hblank]

theorem setting_eq (h : line.head? ≠ some 35) :
    setting line = (tokenEntry (lineTokens line)).bind Setting.ofEntry := by
  rw [setting, lineEntry_eq h]

theorem tokenEntry_bind_eq_none_iff (tokens : CString) :
    (tokenEntry tokens).bind Setting.ofEntry = none ↔
      (trimmed isBlank (beforeSep 61 tokens) ∈ optionKeys → Separators (afterSep 61 tokens)) := by
  unfold tokenEntry
  split
  · rename_i hall
    exact iff_of_true rfl fun _ => hall
  · rename_i hvalue
    rw [Option.bind_some, ofEntry_eq_none_iff]
    exact (not_congr Iff.rfl).trans (by simp [hvalue])

theorem tokenEntry_of_notMem {tokens : CString} (h : 61 ∉ tokens) : tokenEntry tokens = none := by
  have hafter : afterSep 61 tokens = [] := by
    rw [afterSep, List.dropWhile_eq_nil_iff.mpr]
    · rfl
    · intro c hc
      have hne : c ≠ 61 := fun heq => h (heq ▸ hc)
      simpa using hne
  rw [tokenEntry, hafter]
  rfl

theorem said_eq (h : line.head? ≠ some 35) (hsep : 61 ∈ line) :
    said line = Setting.ofEntry (trimmed isBlank (beforeSep 61 line), trimmed isBlank (afterSep 61 line)) := by
  rw [said, entry, if_neg h, if_pos hsep, Option.bind_some]

theorem said_of_notMem (hsep : 61 ∉ line) : said line = none := by
  rw [said, entry, if_neg hsep, ite_self]
  rfl

theorem said_of_leading (h : line.head? = some 61) : said line = none := by
  obtain ⟨rest, rfl⟩ : ∃ rest, line = 61 :: rest := by
    cases line with
    | nil => contradiction
    | cons c rest => exact ⟨rest, by rw [Option.some.inj h]⟩
  have hkey : beforeSep 61 ((61 : Byte) :: rest) = [] := rfl
  rw [said_eq (by simp) List.mem_cons_self, hkey]
  exact ofEntry_eq_none_iff.mpr (by decide)

theorem lineTokens_eq (h : line.head? ≠ some 61) : lineTokens line = lineText line := by
  rw [lineTokens]
  cases htext : lineText line with
  | nil => rfl
  | cons c text =>
    have hline := lineText_append_drop line
    rw [htext] at hline
    have hc : c ≠ 61 := by
      rintro rfl
      exact h (by rw [← hline]; rfl)
    rw [List.dropWhile_cons_of_neg (by simpa using hc)]

theorem setting_eq_none_iff (line : List Byte) : setting line = none ↔ Silent line := by
  unfold Silent
  by_cases hcomment : line.head? = some 35
  · rw [setting, lineEntry_comment hcomment]
    exact iff_of_true rfl (Or.inl hcomment)
  · rw [setting_eq hcomment, tokenEntry_bind_eq_none_iff]
    simp only [hcomment, false_or]

/-- A buffer is read for what it says if and only if it is clear. -/
theorem setting_eq_said_iff (line : List Byte) : setting line = said line ↔ Clear line := by
  unfold Clear
  by_cases hcomment : line.head? = some 35
  · rw [setting, lineEntry_comment hcomment, said, entry, if_pos hcomment]
    exact iff_of_true rfl (Or.inl hcomment)
  rw [setting_eq hcomment]
  simp only [hcomment, false_or]
  by_cases hleading : line.head? = some 61
  · rw [said_of_leading hleading, tokenEntry_bind_eq_none_iff]
    simp [hleading]
  rw [lineTokens_eq hleading]
  simp only [hleading, false_and, false_or, ne_eq, not_false_eq_true, true_and]
  by_cases hsep : 61 ∈ line
  · rw [said_eq hcomment hsep]
    by_cases htext : 61 ∈ lineText line
    · have hbefore : beforeSep 61 (lineText line) = beforeSep 61 line := by
        rw [← beforeSep_append htext, lineText_append_drop]
      by_cases hkey : trimmed isBlank (beforeSep 61 line) ∈ optionKeys
      · by_cases hvalue : Separators (afterSep 61 (lineText line))
        · rw [tokenEntry, if_pos hvalue]
          refine iff_of_false ?_ fun h => (h hsep hkey).2.1 hvalue
          exact fun h => ofEntry_eq_none_iff.mp h.symm hkey
        · rw [tokenEntry, if_neg hvalue, hbefore, Option.bind_some, ofEntry_eq_iff hkey,
            value_eq_iff htext]
          exact ⟨fun h _ _ => ⟨htext, hvalue, h⟩, fun h => (h hsep hkey).2.2⟩
      · rw [ofEntry_eq_none_iff.mpr hkey, tokenEntry_bind_eq_none_iff, hbefore]
        exact iff_of_true (fun h => absurd h hkey) fun _ h => absurd h hkey
    · rw [tokenEntry_of_notMem htext]
      refine (eq_comm.trans ofEntry_eq_none_iff).trans ?_
      exact ⟨fun h _ hkey => absurd hkey h, fun h hkey => htext (h hsep hkey).1⟩
  · have htext : 61 ∉ lineText line := fun hmem =>
      hsep (lineText_append_drop line ▸ List.mem_append_left _ hmem)
    rw [said_of_notMem hsep, tokenEntry_of_notMem htext]
    exact iff_of_true rfl fun h => absurd h hsep

end Options

end FileServer
