import FileServer.ConfigurationLines

/-!
# What the configuration reader makes of a file (config.c)

A line of up to 254 characters is one buffer; a longer one is read as several lines, of
which only the first can be seen to belong to a comment. A line that is not plain is
betrayed by a file in which the option it touches was set otherwise before.
-/

namespace FileServer

open Entries Fgets Lines
set_option autoImplicit false

/-! What a list of settings comes to. -/

def Setting.key : Setting → CString
  | .usePersistentStorage _ => cstr "use_persistent_storage"
  | .storagePath _ => cstr "storage_path"
  | .databaseFile _ => cstr "database_file"

def Setting.Holds (config : Config) : Setting → Prop
  | .usePersistentStorage value => config.usePersistentStorage = value
  | .storagePath value => config.storagePath = value
  | .databaseFile value => config.databaseFile = value

/-- Of several settings of one option the last is left. -/
def lastSetting (key : CString) (settings : List Setting) : Option Setting :=
  (settings.filter fun s => s.key = key).getLast?

/-- Cut every 255 bytes, the line sets what it says and no other option. -/
def PlainLine (line : List Byte) : Prop :=
  ∀ key ∈ optionKeys,
    lastSetting key ((pieces 10 255 line).filterMap setting) = lastSetting key (said line).toList

instance (line : List Byte) : Decidable (PlainLine line) := List.decidableBAll _ _

section Settings
variable {config : Config} {settings settings' : List Setting} {x y : Setting} {key : CString}

theorem Setting.key_mem (x : Setting) : x.key ∈ optionKeys := by
  cases x <;> simp [Setting.key, optionKeys]

theorem Setting.holds_apply (config : Config) (x : Setting) : x.Holds (x.apply config) := by
  cases x <;> rfl

theorem Setting.holds_apply_iff (config : Config) (x y : Setting) :
    x.Holds (y.apply config) ↔ y = x ∨ y.key ≠ x.key ∧ x.Holds config := by
  have hkeys : optionKeys.Nodup := by decide
  simp only [optionKeys, List.nodup_cons, List.mem_cons, not_or] at hkeys
  obtain ⟨⟨hpath, hfile, -⟩, ⟨hpathFile, -⟩, -⟩ := hkeys
  cases x <;> cases y <;> simp_all [Setting.Holds, Setting.apply, Setting.key, eq_comm]

theorem Setting.config_ext {config config' : Config} (h : ∀ x : Setting, x.Holds config → x.Holds config') :
    config = config' := by
  obtain ⟨persistent, path, file⟩ := config
  obtain rfl : config'.usePersistentStorage = persistent := h (.usePersistentStorage persistent) rfl
  obtain rfl : config'.storagePath = path := h (.storagePath path) rfl
  obtain rfl : config'.databaseFile = file := h (.databaseFile file) rfl
  rfl

theorem lastSetting_concat (key : CString) (settings : List Setting) (y : Setting) :
    lastSetting key (settings ++ [y]) =
      if y.key = key then some y else lastSetting key settings := by
  rw [lastSetting, List.filter_append]
  split
  · rename_i hkey
    rw [List.filter_cons_of_pos (by simpa using hkey), List.filter_nil, List.getLast?_concat]
  · rename_i hkey
    rw [List.filter_cons_of_neg (by simpa using hkey), List.filter_nil, List.append_nil, lastSetting]

theorem key_of_lastSetting (h : lastSetting key settings = some x) : x.key = key := by
  simpa using (List.mem_filter.mp (List.mem_of_getLast? h)).2

theorem Setting.holds_foldl_iff (config : Config) (settings : List Setting) (x : Setting) :
    x.Holds (settings.foldl Setting.apply config) ↔
      lastSetting x.key settings = some x ∨
        lastSetting x.key settings = none ∧ x.Holds config := by
  induction settings using List.reverseRecOn with
  | nil => simp [lastSetting]
  | append_singleton settings y ih =>
    rw [List.foldl_concat, Setting.holds_apply_iff, ih, lastSetting_concat]
    by_cases hkey : y.key = x.key
    · simp [hkey]
    · have hne : y ≠ x := fun heq => hkey (congrArg Setting.key heq)
      simp [hkey, hne]

theorem foldl_settings_congr
    (h : ∀ key ∈ optionKeys, lastSetting key settings = lastSetting key settings')
    (config : Config) :
    settings.foldl Setting.apply config = settings'.foldl Setting.apply config := by
  apply Setting.config_ext
  intro x hx
  rw [Setting.holds_foldl_iff] at hx ⊢
  rwa [← h x.key x.key_mem]

end Settings

section Files
variable {line : List Byte} {lines : List (List Byte)}

theorem head?_end {c : Byte} (hc : c ≠ 10) :
    (line ++ [10]).head? = some c ↔ line.head? = some c := by
  cases line with
  | nil => simp [hc.symm]
  | cons d line => rfl

theorem setting_end (line : List Byte) : setting (line ++ [10]) = setting line := by
  by_cases h : line.head? = some 35
  · rw [setting, setting, lineEntry_comment h, lineEntry_comment ((head?_end (by decide)).mpr h)]
  · rw [setting_eq h, setting_eq (mt (head?_end (by decide)).mp h), lineTokens, lineText_end,
      lineTokens]

theorem settings_short (h : 10 ∉ line) (hshort : line.length ≤ 254) :
    (pieces 10 255 line).filterMap setting = (setting line).toList := by
  rw [pieces_short h (Nat.lt_succ_of_le hshort), List.filterMap_cons, setting_end]
  cases setting line <;> rfl

theorem lastSetting_toList_iff {e e' : Option Setting} :
    (∀ key ∈ optionKeys, lastSetting key e.toList = lastSetting key e'.toList) ↔ e = e' := by
  have hself : ∀ x : Setting, lastSetting x.key [x] = some x := fun x => by simp [lastSetting]
  have hfind : ∀ (e : Option Setting) (key : CString) (x : Setting),
      lastSetting key e.toList = some x → e = some x := by
    intro e key x hlast
    have hmem := (List.mem_filter.mp (List.mem_of_getLast? hlast)).1
    exact Option.mem_toList.mp hmem
  refine ⟨fun h => ?_, fun h _ _ => h ▸ rfl⟩
  cases e with
  | some x => exact (hfind e' x.key x ((h x.key x.key_mem).symm.trans (hself x))).symm
  | none =>
    cases e' with
    | none => rfl
    | some x => exact hfind none x.key x ((h x.key x.key_mem).trans (hself x))

theorem plainLine_iff_clear (h : 10 ∉ line) (hshort : line.length ≤ 254) :
    PlainLine line ↔ Clear line := by
  rw [PlainLine, settings_short h hshort, lastSetting_toList_iff, setting_eq_said_iff]

/-- The value that a buffer gives an option: what stands between the first `=` behind the key
and the next one. -/
def given (key : CString) (line : List Byte) : Option CString :=
  if line.head? = some 35 ∨ Separators (afterSep 61 (lineTokens line)) ∨
      trimmed isBlank (beforeSep 61 (lineTokens line)) ≠ key then none
  else some (trimmed isBlank (firstToken (afterSep 61 (lineTokens line))))

/-- The value that a line says an option has. -/
def saidOf (key : CString) (line : List Byte) : Option CString :=
  if line.head? = some 35 ∨ 61 ∉ line ∨ trimmed isBlank (beforeSep 61 line) ≠ key then none
  else some (trimmed isBlank (afterSep 61 line))

/-- Two values are the same, or both switch off. -/
def Alike (key : CString) : Option CString → Option CString → Prop
  | some value, some other =>
    value = other ∨ key = cstr "use_persistent_storage" ∧ value ≠ cstr "1" ∧ other ≠ cstr "1"
  | none, none => True
  | _, _ => False

/-- Of the parts of a line that give an option a value, the last gives it what the line says. -/
def PartsSay (line : List Byte) : Prop :=
  ∀ key ∈ optionKeys, Alike key ((pieces 10 255 line).filterMap (given key)).getLast? (saidOf key line)

theorem ofEntry_key {key value : CString} {x : Setting} (h : Setting.ofEntry (key, value) = some x) :
    x.key = key := by
  unfold Setting.ofEntry at h
  dsimp only at h
  split at h
  · rename_i hkey
    cases h
    exact hkey.symm
  · split at h
    · rename_i hkey
      cases h
      exact hkey.symm
    · split at h
      · rename_i hkey
        cases h
        exact hkey.symm
      · contradiction

theorem ofEntry_filter {k key value : CString} :
    (Setting.ofEntry (k, value)).filter (fun x => x.key = key) =
      if k = key then Setting.ofEntry (key, value) else none := by
  cases hof : Setting.ofEntry (k, value) with
  | none =>
    split
    · rename_i hkey
      rw [← hkey, hof, Option.filter_none]
    · rfl
  | some x =>
    have hx := ofEntry_key hof
    split
    · rename_i hkey
      rw [← hkey, hof, Option.filter_some_pos]
      simp [hx]
    · rename_i hkey
      rw [Option.filter_some_neg]
      simp [hx, hkey]

theorem setting_filter (key : CString) (line : List Byte) :
    (setting line).filter (fun x => x.key = key) =
      (given key line).bind fun value => Setting.ofEntry (key, value) := by
  unfold given
  by_cases hcomment : line.head? = some 35
  · rw [setting, lineEntry_comment hcomment, if_pos (Or.inl hcomment)]
    rfl
  rw [setting_eq hcomment, tokenEntry]
  by_cases hall : Separators (afterSep 61 (lineTokens line))
  · rw [if_pos hall, if_pos (Or.inr (Or.inl hall))]
    rfl
  rw [if_neg hall, Option.bind_some, ofEntry_filter]
  by_cases hkey : trimmed isBlank (beforeSep 61 (lineTokens line)) = key
  · rw [if_pos hkey, if_neg (by simp [hcomment, hall, hkey])]
    rfl
  · rw [if_neg hkey, if_pos (Or.inr (Or.inr hkey))]
    rfl

theorem said_filter (key : CString) (line : List Byte) :
    (said line).filter (fun x => x.key = key) =
      (saidOf key line).bind fun value => Setting.ofEntry (key, value) := by
  unfold saidOf
  by_cases hcomment : line.head? = some 35
  · rw [said, entry, if_pos hcomment, if_pos (Or.inl hcomment)]
    rfl
  by_cases hsep : 61 ∈ line
  · rw [said_eq hcomment hsep, ofEntry_filter]
    by_cases hkey : trimmed isBlank (beforeSep 61 line) = key
    · rw [if_pos hkey, if_neg (by simp [hcomment, hsep, hkey])]
      rfl
    · rw [if_neg hkey, if_pos (Or.inr (Or.inr hkey))]
      rfl
  · rw [said_of_notMem hsep, if_pos (Or.inr (Or.inl hsep))]
    rfl

theorem lastSetting_parts (key : CString) (parts : List (List Byte)) :
    lastSetting key (parts.filterMap setting) =
      ((parts.filterMap (given key)).filterMap fun value => Setting.ofEntry (key, value)).getLast? := by
  rw [lastSetting, List.filter_filterMap, List.filterMap_filterMap]
  refine congrArg List.getLast? (List.filterMap_congr fun line _ => ?_)
  exact setting_filter key line

theorem ofEntry_some {key : CString} (h : key ∈ optionKeys) (values : List CString) :
    (values.filterMap fun value => Setting.ofEntry (key, value)).getLast? =
      values.getLast?.bind fun value => Setting.ofEntry (key, value) := by
  induction values using List.reverseRecOn with
  | nil => rfl
  | append_singleton values value _ =>
    have hsome : Setting.ofEntry (key, value) ≠ none := fun hnone => (ofEntry_eq_none_iff.mp hnone) h
    obtain ⟨x, hx⟩ := Option.ne_none_iff_exists'.mp hsome
    have hlast : [value].filterMap (fun value => Setting.ofEntry (key, value)) = [x] := by
      simp [hx]
    rw [List.filterMap_append, hlast, List.getLast?_concat, List.getLast?_concat, Option.bind_some, hx]

theorem alike_iff {key : CString} (h : key ∈ optionKeys) (value other : Option CString) :
    Alike key value other ↔ (value.bind fun v => Setting.ofEntry (key, v)) =
      other.bind fun v => Setting.ofEntry (key, v) := by
  have hsome : ∀ v, Setting.ofEntry (key, v) ≠ none := fun v hnone => (ofEntry_eq_none_iff.mp hnone) h
  cases value with
  | none =>
    cases other with
    | none => exact iff_of_true trivial rfl
    | some w => exact iff_of_false id fun heq => hsome w heq.symm
  | some v =>
    cases other with
    | none => exact iff_of_false id (hsome v)
    | some w => exact (ofEntry_eq_iff h).symm

/-- For lines of any length. -/
theorem plainLine_iff_partsSay (line : List Byte) : PlainLine line ↔ PartsSay line := by
  refine forall₂_congr fun key hkey => ?_
  have hsaid : lastSetting key (said line).toList =
      (saidOf key line).bind fun value => Setting.ofEntry (key, value) := by
    rw [← said_filter, lastSetting]
    cases said line with
    | none => rfl
    | some x =>
      by_cases hx : x.key = key
      · simp [hx, Option.filter_some_pos]
      · simp [hx, Option.filter_some_neg]
  rw [lastSetting_parts, ofEntry_some hkey, hsaid, alike_iff hkey]

theorem configInit_eq (file : List Byte) :
    configInit (some file) =
      ((readAll 10 255 file).filterMap setting).foldl Setting.apply setDefaultConfig :=
  foldl_configLine _ fun _ hb => Nat.le_trans (length_le_of_mem_readAll hb) (by decide)

theorem configInit_splitOn (file : List Byte) :
    configInit (some file) =
      (((file.splitOn 10).flatMap (pieces 10 255)).filterMap setting).foldl Setting.apply
        setDefaultConfig := by
  have hne : file.splitOn 10 ≠ [] := List.splitOn_ne_nil 10 file
  obtain ⟨front, last, hsplit⟩ := (List.eq_nil_or_concat' (file.splitOn 10)).resolve_left hne
  have hplain : ∀ l ∈ front ++ [last], 10 ∉ l := fun l hl =>
    notMem_of_mem_splitOn (hsplit ▸ hl)
  have hfile : file = joined 10 front ++ last := by
    have hjoined : joined 10 (file.splitOn 10) = file ++ [10] := joined_splitOn file
    rw [hsplit, joined_append, joined_cons, joined_nil, ← List.append_assoc] at hjoined
    exact (List.append_cancel_right hjoined).symm
  have hlast : (readAll 10 255 last).filterMap setting =
      (pieces 10 255 last).filterMap setting :=
    filterMap_readAll (by decide) rfl setting_end (hplain last (by simp))
  have hread : readAll 10 255 file = front.flatMap (pieces 10 255) ++ readAll 10 255 last := by
    rw [hfile]
    exact readAll_joined_append (by decide) (fun l hl => hplain l (by simp [hl])) last
  rw [configInit_eq, hread, hsplit, List.filterMap_append, hlast, List.flatMap_append,
    List.filterMap_append]
  simp

theorem configInit_joined (h : ∀ l ∈ lines, 10 ∉ l) :
    configInit (some (joined 10 lines)) =
      ((lines.flatMap (pieces 10 255)).filterMap setting).foldl Setting.apply setDefaultConfig := by
  rw [configInit_eq, readAll_joined (by decide) h]

theorem foldl_plainLines (h : ∀ l ∈ lines, PlainLine l) (config : Config) :
    ((lines.flatMap (pieces 10 255)).filterMap setting).foldl Setting.apply config =
      (lines.filterMap said).foldl Setting.apply config := by
  induction lines generalizing config with
  | nil => rfl
  | cons line lines ih =>
    have hsaid : (line :: lines).filterMap said = (said line).toList ++ lines.filterMap said := by
      rw [List.filterMap_cons]
      cases said line <;> rfl
    rw [List.flatMap_cons, List.filterMap_append, List.foldl_append, hsaid, List.foldl_append,
      foldl_settings_congr (h line List.mem_cons_self), ih fun l hl => h l (List.mem_cons_of_mem _ hl)]

theorem readRight_of_plainLines {file : List Byte} (h : ∀ l ∈ file.splitOn 10, PlainLine l) :
    ReadRight file := by
  rw [ReadRight, configInit_splitOn, foldl_plainLines h, intended_eq]

end Files

/-! Two ways of setting an option are told apart after it was set in a third. -/

/-- A line that sets the option to something else. -/
def otherLine : Setting → List Byte
  | .usePersistentStorage value =>
    if value then cstr "use_persistent_storage=0" else cstr "use_persistent_storage=1"
  | .storagePath value => if value = cstr "a" then cstr "storage_path=b" else cstr "storage_path=a"
  | .databaseFile value =>
    if value = cstr "a" then cstr "database_file=b" else cstr "database_file=a"

section Telling
variable {config : Config} {settings settings' : List Setting} {x : Setting} {key : CString}

theorem otherLine_plain (x : Setting) : 10 ∉ otherLine x ∧ PlainLine (otherLine x) := by
  cases x <;> rw [otherLine] <;> split <;> decide +kernel

theorem otherLine_said (x : Setting) :
    ∃ y, said (otherLine x) = some y ∧ ∀ config, ¬ x.Holds (y.apply config) := by
  have hab : cstr "b" ≠ cstr "a" := by decide
  cases x with
  | usePersistentStorage value =>
    cases value with
    | false =>
      exact ⟨.usePersistentStorage true, by decide +kernel, by simp [Setting.Holds, Setting.apply]⟩
    | true =>
      exact ⟨.usePersistentStorage false, by decide +kernel, by simp [Setting.Holds, Setting.apply]⟩
  | storagePath value =>
    by_cases hvalue : value = cstr "a"
    · refine ⟨.storagePath (cstr "b"), ?_, fun _ h => hab (h.trans hvalue)⟩
      rw [otherLine, if_pos hvalue]
      decide +kernel
    · refine ⟨.storagePath (cstr "a"), ?_, fun _ h => hvalue h.symm⟩
      rw [otherLine, if_neg hvalue]
      decide +kernel
  | databaseFile value =>
    by_cases hvalue : value = cstr "a"
    · refine ⟨.databaseFile (cstr "b"), ?_, fun _ h => hab (h.trans hvalue)⟩
      rw [otherLine, if_pos hvalue]
      decide +kernel
    · refine ⟨.databaseFile (cstr "a"), ?_, fun _ h => hvalue h.symm⟩
      rw [otherLine, if_neg hvalue]
      decide +kernel

theorem not_holds_of_ne (h : lastSetting x.key settings ≠ some x) (hnot : ¬ x.Holds config) :
    ¬ x.Holds (settings.foldl Setting.apply config) := by
  rw [Setting.holds_foldl_iff]
  exact fun hor => hor.elim h fun hafter => hnot hafter.2

theorem exists_line_telling (h : lastSetting key settings ≠ lastSetting key settings') :
    ∃ line, (10 ∉ line ∧ PlainLine line) ∧ ∀ config,
      settings.foldl Setting.apply ((said line).toList.foldl Setting.apply config) ≠
        settings'.foldl Setting.apply ((said line).toList.foldl Setting.apply config) := by
  obtain ⟨x, hx⟩ : ∃ x, lastSetting key settings = some x ∧ lastSetting key settings' ≠ some x ∨
      lastSetting key settings' = some x ∧ lastSetting key settings ≠ some x := by
    cases hsettings : lastSetting key settings with
    | some x => exact ⟨x, Or.inl ⟨rfl, fun heq => h (hsettings.trans heq.symm)⟩⟩
    | none =>
      cases hsettings' : lastSetting key settings' with
      | some x => exact ⟨x, Or.inr ⟨rfl, by simp⟩⟩
      | none => exact absurd (hsettings.trans hsettings'.symm) h
  obtain ⟨y, hsaid, hnot⟩ := otherLine_said x
  refine ⟨otherLine x, otherLine_plain x, fun config heq => ?_⟩
  rw [hsaid] at heq
  rcases hx with ⟨hlast, hne⟩ | ⟨hlast, hne⟩
  · obtain rfl := key_of_lastSetting hlast
    have hholds := (Setting.holds_foldl_iff (y.apply config) settings x).mpr (Or.inl hlast)
    exact not_holds_of_ne hne (hnot config) (heq ▸ hholds)
  · obtain rfl := key_of_lastSetting hlast
    have hholds := (Setting.holds_foldl_iff (y.apply config) settings' x).mpr (Or.inl hlast)
    exact not_holds_of_ne hne (hnot config) (heq ▸ hholds)

end Telling

section Lines
variable {line comment : List Byte}

theorem intended_joined {lines : List (List Byte)} (h : ∀ l ∈ lines, 10 ∉ l) :
    intended ((joined 10 lines).splitOn 10) =
      (lines.filterMap said).foldl Setting.apply setDefaultConfig := by
  rw [splitOn_joined h, intended_eq, List.filterMap_append]
  have hempty : [([] : List Byte)].filterMap said = [] := rfl
  rw [hempty, List.append_nil]

theorem plainLine_of_readRight (h : 10 ∉ line)
    (hread : ∀ before : List (List Byte), (∀ l ∈ before, 10 ∉ l ∧ PlainLine l) →
      ReadRight (joined 10 (before ++ [line]))) : PlainLine line := by
  intro key _
  by_contra hne
  obtain ⟨other, hother, htelling⟩ := exists_line_telling hne
  have hplain : ∀ l ∈ [other] ++ [line], 10 ∉ l := by
    simpa using ⟨hother.1, h⟩
  have hright := hread [other] (by simpa using hother)
  have hsaid : ∀ l : List Byte, [l].filterMap said = (said l).toList := by
    intro l
    rw [List.filterMap_cons]
    cases said l <;> rfl
  have hbefore : ∀ l ∈ [other], PlainLine l := List.forall_mem_singleton.mpr hother.2
  rw [ReadRight, configInit_joined hplain, intended_joined hplain, List.flatMap_append,
    List.filterMap_append, List.filterMap_append, List.foldl_append, List.foldl_append,
    foldl_plainLines hbefore, List.flatMap_singleton, hsaid, hsaid] at hright
  exact htelling _ hright

theorem setting_comment (h : comment.head? = some 35) : setting comment = none := by
  rw [setting, lineEntry_comment h]
  rfl

theorem settings_comment (h : 10 ∉ comment) (hcomment : comment.head? = some 35) :
    (pieces 10 255 comment).filterMap setting = (pieces 10 255 comment).tail.filterMap setting := by
  by_cases hshort : comment.length < 255
  · rw [pieces_short h hshort, List.filterMap_cons, setting_end, setting_comment hcomment]
    rfl
  · have hhead : (comment.take 255).head? = some 35 := by
      cases comment with
      | nil => contradiction
      | cons c rest => exact hcomment
    rw [pieces_long (by decide) h (Nat.le_of_not_lt hshort), List.filterMap_cons,
      setting_comment hhead]
    rfl

theorem comment_ignored_iff (h : 10 ∉ comment) (hcomment : comment.head? = some 35) :
    (∀ before after : List (List Byte), (∀ l ∈ before ++ after, 10 ∉ l) →
      configInit (some (joined 10 (before ++ comment :: after))) =
        configInit (some (joined 10 (before ++ after)))) ↔
      ∀ part ∈ (pieces 10 255 comment).tail, Silent part := by
  have hsilent : (∀ part ∈ (pieces 10 255 comment).tail, Silent part) ↔
      (pieces 10 255 comment).filterMap setting = [] := by
    rw [settings_comment h hcomment, List.filterMap_eq_nil_iff]
    exact forall₂_congr fun part _ => (setting_eq_none_iff part).symm
  rw [hsilent]
  constructor
  · intro hignored
    by_contra hne
    obtain ⟨front, x, hsettings⟩ :=
      (List.eq_nil_or_concat' ((pieces 10 255 comment).filterMap setting)).resolve_left hne
    obtain ⟨y, hsaid, hnot⟩ := otherLine_said x
    have hother := otherLine_plain x
    have hbefore : ∀ l ∈ [otherLine x], PlainLine l := List.forall_mem_singleton.mpr hother.2
    have hlines : ∀ l ∈ [otherLine x] ++ [comment], 10 ∉ l := by
      simpa using ⟨hother.1, h⟩
    have hsaidBefore : [otherLine x].filterMap said = [y] := by
      rw [List.filterMap_cons, hsaid, List.filterMap_nil]
    have heq := hignored [otherLine x] [] (by simpa using hother.1)
    rw [configInit_joined hlines, configInit_joined (by simpa using hother.1), List.flatMap_append,
      List.filterMap_append, List.append_nil, List.foldl_append, foldl_plainLines hbefore,
      List.flatMap_singleton, hsettings, hsaidBefore, List.foldl_concat] at heq
    have hholds := Setting.holds_apply
      (front.foldl Setting.apply ([y].foldl Setting.apply setDefaultConfig)) x
    rw [heq] at hholds
    exact hnot setDefaultConfig hholds
  · intro hnone before after hplain
    have hlines : ∀ l ∈ before ++ comment :: after, 10 ∉ l := by
      intro l hl
      rcases List.mem_append.mp hl with hl | hl
      · exact hplain l (List.mem_append_left _ hl)
      · rcases List.mem_cons.mp hl with rfl | hl
        · exact h
        · exact hplain l (List.mem_append_right _ hl)
    rw [configInit_joined hlines, configInit_joined hplain, List.flatMap_append, List.flatMap_cons,
      List.flatMap_append, List.filterMap_append, List.filterMap_append, hnone, List.nil_append,
      List.filterMap_append]

end Lines

/-- Files of plain lines are read right, and a line is read right behind all plain lines only
if it is plain itself. A line is plain if the last of its parts that gives an option a value
gives it what the line says; of lines of up to 254 characters the clear ones are plain. A
comment of any length can be put in anywhere if and only if its later parts are silent. -/
theorem config_read_right_iff (file line : List Byte) :
    ((∀ l ∈ file.splitOn 10, PlainLine l) → ReadRight file) ∧
    (10 ∉ line →
      ((∀ before : List (List Byte), (∀ l ∈ before, 10 ∉ l ∧ PlainLine l) →
        ReadRight (joined 10 (before ++ [line]))) ↔ PlainLine line) ∧
      (PlainLine line ↔ PartsSay line) ∧
      (line.length ≤ 254 → (PlainLine line ↔ Clear line)) ∧
      (line.head? = some 35 →
        ((∀ before after : List (List Byte), (∀ l ∈ before ++ after, 10 ∉ l) →
          configInit (some (joined 10 (before ++ line :: after))) =
            configInit (some (joined 10 (before ++ after)))) ↔
          ∀ part ∈ (pieces 10 255 line).tail, Silent part))) := by
  refine ⟨readRight_of_plainLines, fun h => ⟨⟨plainLine_of_readRight h, ?_⟩,
    plainLine_iff_partsSay line, plainLine_iff_clear h, comment_ignored_iff h⟩⟩
  intro hline before hbefore
  apply readRight_of_plainLines
  have hlines : ∀ l ∈ before ++ [line], 10 ∉ l ∧ PlainLine l := by
    intro l hl
    rcases List.mem_append.mp hl with hl | hl
    · exact hbefore l hl
    · exact List.mem_singleton.mp hl ▸ ⟨h, hline⟩
  rw [splitOn_joined fun l hl => (hlines l hl).1]
  intro l hl
  rcases List.mem_append.mp hl with hl | hl
  · exact (hlines l hl).2
  · rw [List.mem_singleton.mp hl]
    decide +kernel

theorem spaced_config_read :
    configInit (some (cstr "# paths\nstorage_path=a\r\n storage_path = ./data \nuse_persistent_storage=0\n\ndatabase_file=u.db")) =
      ⟨false, cstr "./data", cstr "u.db"⟩ := by
  have hright := (config_read_right_iff
    (cstr "# paths\nstorage_path=a\r\n storage_path = ./data \nuse_persistent_storage=0\n\ndatabase_file=u.db")
    []).1 (by decide +kernel)
  rw [hright]
  decide +kernel

/-- A comment of 269 characters, the last fourteen of which are a setting. -/
def longComment : List Byte := 35 :: List.replicate 254 45 ++ cstr "storage_path=x"

theorem long_comment_sets_path :
    ¬ ∀ file : List Byte, configInit (some file) = intended (file.splitOn 10) := by
  intro h
  have hpath := congrArg Config.storagePath (h longComment)
  have hne : (configInit (some longComment)).storagePath ≠
      (intended (longComment.splitOn 10)).storagePath := by decide +kernel
  exact hne hpath

end FileServer
