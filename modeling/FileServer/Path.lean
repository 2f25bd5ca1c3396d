import FileServer.UserStore
import FileServer.Shared.LexicalPath

/-!
# Where user paths lead (build_user_path in fs.c)

The three file commands act on `<root>/<user>/<relpath>`, cut to 511 bytes, with
no check of either token. The path is confined to the user's directory exactly
when every `..` of the relpath is undone by naming again what it left.
-/

namespace FileServer

open LexicalPath
set_option autoImplicit false

def slash : Byte := 47

def splitSlash : CString → List CString
  | [] => [[]]
  | c :: cs =>
    if c = slash then [] :: splitSlash cs
    else
      match splitSlash cs with
      | [] => [[c]]
      | w :: ws => (c :: w) :: ws

def component (s : CString) : Component CString :=
  if s = [] ∨ s = cstr "." then .here
  else if s = cstr ".." then .up
  else .name s

def components (s : CString) : List (Component CString) := (splitSlash s).map component

/-- The place a path string names after `.`, `..` and `/` processing. -/
def resolve (s : CString) : Place CString :=
  (Place.start (s.head? == some slash)).follow (components s)

def userDirPath (store : UserStore) (user : CString) : CString :=
  store.storageRoot ++ slash :: user

def buildUserPath (store : UserStore) (user rel : CString) : CString :=
  snprintf 512 (store.storageRoot ++ slash :: (user ++ slash :: rel))

def databasePath (store : UserStore) (databaseFile : CString) : CString :=
  snprintf 512 (store.storageRoot ++ slash :: databaseFile)

theorem splitSlash_ne_nil (s : CString) : splitSlash s ≠ [] := by
  cases s with
  | nil => simp [splitSlash]
  | cons c cs =>
    rw [splitSlash]
    split
    · simp
    · split <;> simp

theorem splitSlash_append (a b : CString) :
    splitSlash (a ++ slash :: b) = splitSlash a ++ splitSlash b := by
  induction a with
  | nil => simp [splitSlash]
  | cons c cs ih =>
    rw [List.cons_append, splitSlash, splitSlash, ih]
    split
    · rfl
    · cases hs : splitSlash cs with
      | nil => exact absurd hs (splitSlash_ne_nil cs)
      | cons w ws => rfl

theorem resolve_append {dir : CString} (h : dir ≠ []) (rest : CString) :
    resolve (dir ++ slash :: rest) = (resolve dir).follow (components rest) := by
  have hhead : (dir ++ slash :: rest).head? = dir.head? := by
    cases dir with
    | nil => exact absurd rfl h
    | cons c cs => rfl
  unfold resolve components
  rw [hhead, splitSlash_append, List.map_append, follow_append]

/-- The part of the relpath that survives the 512-byte path buffer. -/
def keptRelpath (store : UserStore) (user rel : CString) : CString :=
  rel.take (511 - (userDirPath store user).length - 1)

theorem buildUserPath_eq (store : UserStore) {user : CString} (hu : user.length ≤ 63)
    (rel : CString) :
    buildUserPath store user rel = userDirPath store user ++ slash :: keptRelpath store user rel := by
  have hroot := store.rootFits
  have hlen : (userDirPath store user).length ≤ 319 := by
    simp only [userDirPath, List.length_append, List.length_cons]
    omega
  have hsplit : store.storageRoot ++ slash :: (user ++ slash :: rel) =
      userDirPath store user ++ slash :: rel := by
    simp [userDirPath]
  have hroom : 511 - (userDirPath store user).length =
      (511 - (userDirPath store user).length - 1) + 1 := by omega
  unfold buildUserPath snprintf keptRelpath
  rw [hsplit, List.take_append, List.take_of_length_le (by omega), hroom]
  simp

/-- The path of a file command stays strictly below its user's directory, away
from every other registered user's directory and from the database file. -/
structure Confined (store : UserStore) (databaseFile user rel : CString) : Prop where
  inside : StrictlyInside (resolve (userDirPath store user)) (resolve (buildUserPath store user rel))
  others : ∀ v ∈ store.names, v ≠ user →
    ¬ Inside (resolve (userDirPath store v)) (resolve (buildUserPath store user rel))
  database : resolve (buildUserPath store user rel) ≠ resolve (databasePath store databaseFile)

/-- Exactly when the code confines a path: the kept relpath names again every
directory it climbs out of and then something below, no other registered
user's directory lies on the way to that place, and it is not the database. -/
theorem confined_iff_returns (store : UserStore) (databaseFile : CString) {user : CString}
    (hu : user.length ≤ 63) (rel : CString) :
    Confined store databaseFile user rel ↔
      ∃ below, below ≠ [] ∧
        Returns (resolve (userDirPath store user)) (components (keptRelpath store user rel)) below ∧
        (∀ v ∈ store.names, v ≠ user → ¬ Inside (resolve (userDirPath store v))
          ((resolve (userDirPath store user)).descend below)) ∧
        (resolve (userDirPath store user)).descend below ≠
          resolve (databasePath store databaseFile) := by
  have hdir : userDirPath store user ≠ [] := by simp [userDirPath]
  have hpath : resolve (buildUserPath store user rel) =
      (resolve (userDirPath store user)).follow (components (keptRelpath store user rel)) := by
    rw [buildUserPath_eq store hu, resolve_append hdir]
  constructor
  · rintro ⟨hin, hothers, hdb⟩
    rw [hpath] at hin hothers hdb
    obtain ⟨below, hne, hret⟩ := (strictlyInside_follow_iff _ _).mp hin
    rw [follow_of_returns hret] at hothers hdb
    exact ⟨below, hne, hret, hothers, hdb⟩
  · rintro ⟨below, hne, hret, hothers, hdb⟩
    rw [← follow_of_returns hret, ← hpath] at hothers hdb
    refine ⟨?_, hothers, hdb⟩
    rw [hpath]
    exact (strictlyInside_follow_iff _ _).mpr ⟨below, hne, hret⟩

/-- A store in which `alice` and `bob` have signed up. -/
def aliceAndBob : UserStore :=
  let one := (userStoreSignup true emptyStore (cstr "alice") (cstr "pw") (100 * 2 ^ 20) .normal).2
  (userStoreSignup true one (cstr "bob") (cstr "pw") (100 * 2 ^ 20) .normal).2

theorem confined_plain_relpath :
    (cstr "alice").length ≤ 63 ∧ (∃ below, below ≠ [] ∧
      Returns (resolve (userDirPath aliceAndBob (cstr "alice")))
        (components (keptRelpath aliceAndBob (cstr "alice") (cstr "notes.txt"))) below) ∧
    Confined aliceAndBob (cstr "users.db") (cstr "alice") (cstr "notes.txt") := by
  have hu : (cstr "alice").length ≤ 63 := by decide
  have hret : Returns (resolve (userDirPath aliceAndBob (cstr "alice")))
      (components (keptRelpath aliceAndBob (cstr "alice") (cstr "notes.txt"))) [cstr "notes.txt"] :=
    ⟨by decide, by decide⟩
  refine ⟨hu, ⟨_, by decide, hret⟩, ?_⟩
  exact (confined_iff_returns aliceAndBob (cstr "users.db") hu _).mpr
    ⟨_, by decide, hret, by decide, by decide⟩

theorem dotdot_leaves_user_directory :
    ¬ ∀ (store : UserStore) (databaseFile user rel : CString), user ∈ store.names →
      user ≠ [] → user.length ≤ 63 → rel.length ≤ 255 → Confined store databaseFile user rel := by
  intro h
  have hc := h aliceAndBob (cstr "users.db") (cstr "alice") (cstr "../bob/secret")
    (by decide) (by decide) (by decide) (by decide)
  exact absurd hc.inside (by decide)

end FileServer
