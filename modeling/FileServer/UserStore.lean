import FileServer.Types

/-!
# The user store (user_db.c)

Both backends behind one interface. The `users` table is the list of its rows:
statements compare user names byte-wise and the code's own check under
`db_mutex` keeps them unique. The argument `works` of a call says whether
its allocation or its SQL statement succeeds. Creating the user's directory is
a file-system effect and not part of the store.

`user_store_lock_user` hands out a fresh zeroed `User` on every call: its
`priority` is the enumerator 0 and its mutex is created but never locked. The
fields `pass` and `used_bytes` stay zero and no one reads them.
-/

namespace FileServer

set_option autoImplicit false

structure InMemoryUser where
  name : CString
  pass : CString
  quotaBytes : Nat
  deriving DecidableEq, Repr

structure UserRow where
  username : CString
  password : CString
  quotaBytes : Nat
  deriving DecidableEq, Repr

inductive Storage where
  | persistent (rows : List UserRow)
  | memory (users : List InMemoryUser)
  deriving DecidableEq, Repr

structure UserStore where
  storageRoot : CString
  storage : Storage
  rootFits : storageRoot.length ≤ 255

structure User where
  name : CString
  priority : TaskPriority
  quotaBytes : Nat
  deriving DecidableEq, Repr

/-- The names that `user_store_lock_user` finds. -/
def UserStore.names (store : UserStore) : List CString :=
  match store.storage with
  | .persistent rows => rows.map UserRow.username
  | .memory users => users.map InMemoryUser.name

/-- `user_store_create` cuts the root to its 256-byte field. -/
def userStoreCreate (persistent : Bool) (rows : List UserRow) (root : CString) : UserStore where
  storageRoot := strncpyZ 256 root
  storage := if persistent then .persistent rows else .memory []
  rootFits := by
    rw [strncpyZ, List.length_take]
    exact Nat.min_le_left _ _

/-- The store of a server started on an empty database. -/
def emptyStore : UserStore := userStoreCreate true [] (cstr "./storage")

def userStoreSignup (works : Bool) (store : UserStore) (name pass : CString) (quotaBytes : Nat)
    (_priority : TaskPriority) : Bool × UserStore :=
  match store.storage with
  | .persistent rows =>
    if works = false then (false, store)
    else if rows.any (fun r => r.username = name) then (false, store)
    else (true, { store with storage := .persistent (rows ++ [⟨name, pass, quotaBytes⟩]) })
  | .memory users =>
    if users.any (fun u => u.name = name) then (false, store)
    else if works = false then (false, store)
    else
      let user := ⟨strncpyZ 64 name, strncpyZ 64 pass, quotaBytes⟩
      (true, { store with storage := .memory (user :: users) })

def userStoreLogin (works : Bool) (store : UserStore) (name pass : CString) : Bool :=
  match store.storage with
  | .persistent rows =>
    if works then
      match rows.find? (fun r => r.username = name) with
      | some r => r.password = pass
      | none => false
    else false
  | .memory users =>
    match users.find? (fun u => u.name = name) with
    | some u => u.pass = pass
    | none => false

def userStoreLockUser (works : Bool) (store : UserStore) (name : CString) : Option User :=
  if works = false then none
  else
    match store.storage with
    | .persistent rows =>
      (rows.find? (fun r => r.username = name)).map fun r =>
        ⟨strncpyZ 64 r.username, .low, r.quotaBytes⟩
    | .memory users =>
      (users.find? (fun u => u.name = name)).map fun u =>
        ⟨strncpyZ 64 u.name, .low, u.quotaBytes⟩

theorem mem_names_of_lockUser {works : Bool} {store : UserStore} {name : CString} {u : User}
    (h : userStoreLockUser works store name = some u) : name ∈ store.names := by
  unfold userStoreLockUser at h
  split at h
  · contradiction
  · unfold UserStore.names
    cases hs : store.storage with
    | persistent rows =>
      simp only [hs, Option.map_eq_some_iff] at h
      obtain ⟨r, hr, _⟩ := h
      have heq : r.username = name := by simpa using List.find?_some hr
      exact List.mem_map.mpr ⟨r, List.mem_of_find?_eq_some hr, heq⟩
    | memory users =>
      simp only [hs, Option.map_eq_some_iff] at h
      obtain ⟨r, hr, _⟩ := h
      have heq : r.name = name := by simpa using List.find?_some hr
      exact List.mem_map.mpr ⟨r, List.mem_of_find?_eq_some hr, heq⟩

theorem strncpyZ_of_fits {s : CString} (h : s.length ≤ 63) : strncpyZ 64 s = s :=
  List.take_of_length_le h

theorem userStoreSignup_cases (works : Bool) (store : UserStore) (name pass : CString)
    (quotaBytes : Nat) (priority : TaskPriority) :
    userStoreSignup works store name pass quotaBytes priority = (false, store) ∨
    ∃ store' stored, userStoreSignup works store name pass quotaBytes priority = (true, store') ∧
      store'.storageRoot = store.storageRoot ∧ (name.length ≤ 63 → stored = name) ∧
      ∀ n, n ∈ store'.names ↔ n ∈ store.names ∨ n = stored := by
  unfold userStoreSignup
  cases hs : store.storage with
  | persistent rows =>
    dsimp only
    split
    · exact Or.inl rfl
    split
    · exact Or.inl rfl
    · refine Or.inr ⟨_, name, rfl, rfl, fun _ => rfl, ?_⟩
      intro n
      simp [UserStore.names, hs]
  | memory users =>
    dsimp only
    split
    · exact Or.inl rfl
    split
    · exact Or.inl rfl
    · refine Or.inr ⟨_, strncpyZ 64 name, rfl, rfl, strncpyZ_of_fits, ?_⟩
      intro n
      simp [UserStore.names, hs, or_comm]

theorem lockUser_of_mem_names {store : UserStore} {name : CString} (h : name ∈ store.names) :
    ∃ u, userStoreLockUser true store name = some u := by
  unfold UserStore.names at h
  unfold userStoreLockUser
  cases hs : store.storage with
  | persistent rows =>
    rw [hs] at h
    obtain ⟨r, hr, rfl⟩ := List.mem_map.mp h
    have hsome : (rows.find? fun k => k.username = r.username).isSome := by
      rw [List.find?_isSome]
      exact ⟨r, hr, by simp⟩
    obtain ⟨k, hk⟩ := Option.isSome_iff_exists.mp hsome
    simp [hk]
  | memory users =>
    rw [hs] at h
    obtain ⟨r, hr, rfl⟩ := List.mem_map.mp h
    have hsome : (users.find? fun k => k.name = r.name).isSome := by
      rw [List.find?_isSome]
      exact ⟨r, hr, by simp⟩
    obtain ⟨k, hk⟩ := Option.isSome_iff_exists.mp hsome
    simp [hk]

theorem lockUser_priority {works : Bool} {store : UserStore} {name : CString} {u : User}
    (h : userStoreLockUser works store name = some u) : u.priority = .low := by
  unfold userStoreLockUser at h
  split at h
  · contradiction
  · cases hs : store.storage with
    | persistent rows =>
      simp only [hs, Option.map_eq_some_iff] at h
      obtain ⟨r, _, rfl⟩ := h
      rfl
    | memory users =>
      simp only [hs, Option.map_eq_some_iff] at h
      obtain ⟨r, _, rfl⟩ := h
      rfl

end FileServer
