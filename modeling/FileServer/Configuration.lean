import FileServer.LineBuffer
import FileServer.Shared.Entries
import FileServer.Shared.Fgets

/-!
# Reading the configuration (config.c)

`config_init` reads the file through a buffer of 256 bytes and takes each buffer apart
with `strtok`. The creation of the storage directory, which it does last, is left out.
-/

namespace FileServer

open Entries Fgets Lines
set_option autoImplicit false

structure Config where
  usePersistentStorage : Bool
  storagePath : CString
  databaseFile : CString
  deriving DecidableEq, Repr

def setDefaultConfig : Config := ⟨true, cstr "./storage", cstr "users.db"⟩

def trimWhitespace (str : CString) : CString :=
  match str.dropWhile fun c => c = 32 ∨ c = 9 with
  | [] => []
  | c :: rest => c :: rest.rdropWhile fun c => c = 32 ∨ c = 9 ∨ c = 10 ∨ c = 13

/-- `strtok` with the delimiter `=`: the token and what it leaves for the next call. -/
def strtok (s : CString) : Option (CString × CString) :=
  let token := s.dropWhile fun c => c = 61
  if token = [] then none
  else some (token.takeWhile fun c => c ≠ 61, (token.dropWhile fun c => c ≠ 61).drop 1)

/-- The buffer up to what `strcspn` finds in it. -/
def lineText (line : List Byte) : CString := (cString line).takeWhile fun c => c ≠ 13 ∧ c ≠ 10

/-- The key and the value that a buffer is taken for. -/
def lineEntry (line : List Byte) : Option (CString × CString) :=
  match cString line with
  | [] => none
  | c :: _ =>
    if c = 35 ∨ c = 10 ∨ c = 13 then none
    else
      match strtok (lineText line) with
      | none => none
      | some (key, rest) =>
        match strtok rest with
        | none => none
        | some (value, _) => some (trimWhitespace key, trimWhitespace value)

def setOption (config : Config) (key value : CString) : Config :=
  if key = cstr "use_persistent_storage" then
    { config with usePersistentStorage := decide (value = cstr "1") }
  else if key = cstr "storage_path" then { config with storagePath := value.take 511 }
  else if key = cstr "database_file" then { config with databaseFile := value.take 511 }
  else config

def configLine (config : Config) (line : List Byte) : Config :=
  match lineEntry line with
  | none => config
  | some (key, value) => setOption config key value

/-- `config_init`; the argument is `none` when the file cannot be opened. -/
def configInit : Option (List Byte) → Config
  | none => setDefaultConfig
  | some file => (readAll 10 255 file).foldl configLine setDefaultConfig

/-! What a configuration file says. -/

def isBlank (c : Byte) : Bool := c = 32 ∨ c = 9 ∨ c = 10 ∨ c = 13

/-- The entry on a line that is no comment. -/
def entry (line : List Byte) : Option (CString × CString) :=
  if line.head? = some 35 then none
  else if 61 ∈ line then
    some (trimmed isBlank (beforeSep 61 line), trimmed isBlank (afterSep 61 line))
  else none

/-- For each key the last entry counts. -/
def intended (lines : List (List Byte)) : Config where
  usePersistentStorage :=
    ((lastValue (cstr "use_persistent_storage") (lines.filterMap entry)).map fun value =>
      decide (value = cstr "1")).getD true
  storagePath :=
    (lastValue (cstr "storage_path") (lines.filterMap entry)).getD (cstr "./storage")
  databaseFile :=
    (lastValue (cstr "database_file") (lines.filterMap entry)).getD (cstr "users.db")

def ReadRight (file : List Byte) : Prop := configInit (some file) = intended (file.splitOn 10)

/-! The settings that the two of them make of a line. -/

inductive Setting where
  | usePersistentStorage (value : Bool)
  | storagePath (value : CString)
  | databaseFile (value : CString)
  deriving DecidableEq, Repr

def Setting.ofEntry (e : CString × CString) : Option Setting :=
  if e.1 = cstr "use_persistent_storage" then
    some (.usePersistentStorage (decide (e.2 = cstr "1")))
  else if e.1 = cstr "storage_path" then some (.storagePath e.2)
  else if e.1 = cstr "database_file" then some (.databaseFile e.2)
  else none

def Setting.apply (config : Config) : Setting → Config
  | .usePersistentStorage value => { config with usePersistentStorage := value }
  | .storagePath value => { config with storagePath := value }
  | .databaseFile value => { config with databaseFile := value }

/-- What a line says. -/
def said (line : List Byte) : Option Setting := (entry line).bind Setting.ofEntry

/-- What a buffer is read as. -/
def setting (line : List Byte) : Option Setting := (lineEntry line).bind Setting.ofEntry

section Folds

theorem setOption_eq (config : Config) {key value : CString} (h : value.length ≤ 511) :
    setOption config key value =
      (Setting.ofEntry (key, value)).toList.foldl Setting.apply config := by
  unfold setOption Setting.ofEntry
  rw [List.take_of_length_le h]
  split
  · rfl
  split
  · rfl
  split <;> rfl

theorem strtok_length_le {s token rest : CString} (h : strtok s = some (token, rest)) :
    token.length ≤ s.length ∧ rest.length ≤ s.length := by
  unfold strtok at h
  dsimp only at h
  split at h
  · contradiction
  · obtain ⟨rfl, rfl⟩ := Prod.mk.inj (Option.some.inj h)
    have hdrop := (List.dropWhile_sublist (fun c : Byte => c = 61) (l := s)).length_le
    exact ⟨Nat.le_trans (List.takeWhile_sublist _).length_le hdrop,
      Nat.le_trans ((List.drop_sublist _ _).trans (List.dropWhile_sublist _)).length_le hdrop⟩

theorem trimWhitespace_length_le (str : CString) : (trimWhitespace str).length ≤ str.length := by
  have hdrop := (List.dropWhile_sublist (fun c : Byte => c = 32 ∨ c = 9) (l := str)).length_le
  unfold trimWhitespace
  split
  · exact Nat.zero_le _
  · rename_i c rest heq
    rw [heq] at hdrop
    have hrest := (List.rdropWhile_prefix (fun c : Byte => c = 32 ∨ c = 9 ∨ c = 10 ∨ c = 13)
      rest).length_le
    simp only [List.length_cons] at hdrop ⊢
    omega

theorem lineEntry_length_le {line : List Byte} {key value : CString}
    (h : lineEntry line = some (key, value)) : value.length ≤ line.length := by
  have htext : (lineText line).length ≤ line.length :=
    ((List.takeWhile_sublist _).trans (List.takeWhile_sublist _)).length_le
  unfold lineEntry at h
  split at h
  · contradiction
  split at h
  · contradiction
  split at h
  · contradiction
  · rename_i hkey
    split at h
    · contradiction
    · rename_i hvalue
      obtain ⟨-, rfl⟩ := Prod.mk.inj (Option.some.inj h)
      exact Nat.le_trans (trimWhitespace_length_le _) (Nat.le_trans (strtok_length_le hvalue).1
        (Nat.le_trans (strtok_length_le hkey).2 htext))

theorem configLine_eq (config : Config) {line : List Byte} (h : line.length ≤ 511) :
    configLine config line = (setting line).toList.foldl Setting.apply config := by
  unfold configLine setting
  split
  · rename_i hnone
    rw [hnone]
    rfl
  · rename_i key value hsome
    rw [hsome, setOption_eq config (Nat.le_trans (lineEntry_length_le hsome) h)]
    rfl

theorem foldl_configLine (config : Config) {buffers : List (List Byte)}
    (h : ∀ b ∈ buffers, b.length ≤ 511) :
    buffers.foldl configLine config = (buffers.filterMap setting).foldl Setting.apply config := by
  induction buffers generalizing config with
  | nil => rfl
  | cons b buffers ih =>
    rw [List.foldl_cons, configLine_eq config (h b List.mem_cons_self),
      ih _ fun b' hb' => h b' (List.mem_cons_of_mem b hb'), List.filterMap_cons]
    cases setting b <;> rfl

/-- The settings of a list of entries, one after the other. -/
def settle (config : Config) (entries : List (CString × CString)) : Config :=
  entries.foldl (fun config e => (Setting.ofEntry e).toList.foldl Setting.apply config) config

theorem settle_field {β : Type} (field : Config → β) (value : CString → β) {key : CString}
    (h : ∀ config e, field ((Setting.ofEntry e).toList.foldl Setting.apply config) =
      if e.1 = key then value e.2 else field config)
    (config : Config) (entries : List (CString × CString)) :
    field (settle config entries) = ((lastValue key entries).map value).getD (field config) := by
  rw [← foldl_assign, settle]
  exact (List.foldl_hom field fun config e => (h config e).symm).symm

theorem settle_usePersistentStorage (config : Config) (entries : List (CString × CString)) :
    (settle config entries).usePersistentStorage =
      ((lastValue (cstr "use_persistent_storage") entries).map fun value =>
        decide (value = cstr "1")).getD config.usePersistentStorage := by
  apply settle_field Config.usePersistentStorage
  intro config e
  unfold Setting.ofEntry
  split
  · rfl
  split
  · rfl
  split <;> rfl

theorem settle_storagePath (config : Config) (entries : List (CString × CString)) :
    (settle config entries).storagePath =
      (lastValue (cstr "storage_path") entries).getD config.storagePath := by
  rw [settle_field Config.storagePath id, Option.map_id, id_eq]
  intro config e
  unfold Setting.ofEntry
  split
  · rename_i hkey
    rw [hkey]
    rfl
  split
  · rfl
  split <;> rfl

theorem settle_databaseFile (config : Config) (entries : List (CString × CString)) :
    (settle config entries).databaseFile =
      (lastValue (cstr "database_file") entries).getD config.databaseFile := by
  rw [settle_field Config.databaseFile id, Option.map_id, id_eq]
  intro config e
  unfold Setting.ofEntry
  split
  · rename_i hkey
    rw [hkey]
    rfl
  split
  · rename_i hkey
    rw [hkey]
    rfl
  split <;> rfl

theorem settle_eq (config : Config) (entries : List (CString × CString)) :
    settle config entries = (entries.filterMap Setting.ofEntry).foldl Setting.apply config := by
  induction entries generalizing config with
  | nil => rfl
  | cons e entries ih =>
    rw [settle, List.foldl_cons, List.filterMap_cons]
    cases Setting.ofEntry e with
    | none => exact ih _
    | some s => exact ih _

theorem intended_eq (lines : List (List Byte)) :
    intended lines = (lines.filterMap said).foldl Setting.apply setDefaultConfig := by
  have hsaid : lines.filterMap said = (lines.filterMap entry).filterMap Setting.ofEntry := by
    rw [List.filterMap_filterMap]
    rfl
  rw [hsaid, ← settle_eq]
  have huse := settle_usePersistentStorage setDefaultConfig (lines.filterMap entry)
  have hpath := settle_storagePath setDefaultConfig (lines.filterMap entry)
  have hfile := settle_databaseFile setDefaultConfig (lines.filterMap entry)
  cases hsettled : settle setDefaultConfig (lines.filterMap entry) with
  | mk use path file =>
    rw [hsettled] at huse hpath hfile
    exact (Config.mk.injEq ..).mpr ⟨huse.symm, hpath.symm, hfile.symm⟩

end Folds

end FileServer
