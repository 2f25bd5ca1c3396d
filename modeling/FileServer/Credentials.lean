import FileServer.UserStore
import Mathlib.Logic.Function.Basic

/-!
# The user store as a map of credentials

A partial map from names to a password and a quota says what both backends are
for. Every call is atomic under the store's mutex, so a history of any number of
threads is the list of their calls. The list of the in-memory backend and the
table of the persistent one are read as such a map, and every call acts on it as
the map's own operation does.

`works` says of each call whether its allocation succeeds and, in the persistent
backend, its statements. A call without resources reports failure; `user_store_login`
of the in-memory backend needs none.
-/

namespace FileServer

set_option autoImplicit false

structure Credential where
  password : CString
  quotaBytes : Nat
  deriving DecidableEq, Repr

abbrev Credentials := CString → Option Credential

def noCredentials : Credentials := fun _ => none

inductive StoreCall where
  | signup (name pass : CString) (quotaBytes : Nat) (priority : TaskPriority)
  | login (name pass : CString)
  | lockUser (name : CString)

/-- Names and passwords as the command parser produces them. -/
def StoreCall.Fits : StoreCall → Prop
  | .signup name pass _ _ => name.length ≤ 63 ∧ pass.length ≤ 63
  | .login name pass => name.length ≤ 63 ∧ pass.length ≤ 63
  | .lockUser name => name.length ≤ 63

instance : (c : StoreCall) → Decidable c.Fits
  | .signup _ _ _ _ => inferInstanceAs (Decidable (_ ∧ _))
  | .login _ _ => inferInstanceAs (Decidable (_ ∧ _))
  | .lockUser _ => inferInstanceAs (Decidable (_ ≤ _))

structure StoreEvent where
  thread : Nat
  works : Bool
  call : StoreCall

/-- What a call returns; of a locked user, the name and the quota. -/
inductive StoreResult where
  | signedUp (ok : Bool)
  | loggedIn (ok : Bool)
  | locked (user : Option (CString × Nat))
  deriving DecidableEq, Repr

def storeCall (store : UserStore) (e : StoreEvent) : StoreResult × UserStore :=
  match e.call with
  | .signup name pass quotaBytes priority =>
    let (ok, store) := userStoreSignup e.works store name pass quotaBytes priority
    (.signedUp ok, store)
  | .login name pass => (.loggedIn (userStoreLogin e.works store name pass), store)
  | .lockUser name =>
    (.locked ((userStoreLockUser e.works store name).map fun u => (u.name, u.quotaBytes)), store)

def credentialCall (m : Credentials) (e : StoreEvent) : StoreResult × Credentials :=
  match e.call with
  | .signup name pass quotaBytes _ =>
    if e.works = true ∧ m name = none then
      (.signedUp true, Function.update m name (some ⟨pass, quotaBytes⟩))
    else (.signedUp false, m)
  | .login name pass => (.loggedIn ((m name).map Credential.password = some pass), m)
  | .lockUser name =>
    (.locked (if e.works then (m name).map fun c => (name, c.quotaBytes) else none), m)

def storeResults (store : UserStore) : List StoreEvent → List StoreResult
  | [] => []
  | e :: events => (storeCall store e).1 :: storeResults (storeCall store e).2 events

def credentialResults (m : Credentials) : List StoreEvent → List StoreResult
  | [] => []
  | e :: events => (credentialCall m e).1 :: credentialResults (credentialCall m e).2 events

def credentialsAfter (m : Credentials) : List StoreEvent → Credentials
  | [] => m
  | e :: events => credentialsAfter (credentialCall m e).2 events

def rowCredentials (rows : List UserRow) : Credentials := fun name =>
  (rows.find? fun r => r.username = name).map fun r => ⟨r.password, r.quotaBytes⟩

def userCredentials (users : List InMemoryUser) : Credentials := fun name =>
  (users.find? fun u => u.name = name).map fun u => ⟨u.pass, u.quotaBytes⟩

/-- The map that a store stands for. -/
def UserStore.credentials (store : UserStore) : Credentials :=
  match store.storage with
  | .persistent rows => rowCredentials rows
  | .memory users => userCredentials users

/-- The calls whose results do not depend on failing SQL statements. -/
def Dependable (store : UserStore) (e : StoreEvent) : Prop :=
  (∃ rows, store.storage = .persistent rows) → e.works = true

section Persistent
variable {rows : List UserRow} {name : CString}

theorem rowCredentials_none :
    rowCredentials rows name = none ↔ rows.any (fun r => r.username = name) = false := by
  simp [rowCredentials]

theorem rowCredentials_append (hnew : rowCredentials rows name = none) (pass : CString)
    (quotaBytes : Nat) : rowCredentials (rows ++ [⟨name, pass, quotaBytes⟩]) =
      Function.update (rowCredentials rows) name (some ⟨pass, quotaBytes⟩) := by
  funext n
  rcases eq_or_ne n name with rfl | hne
  · have hnone : rows.find? (fun r => r.username = n) = none := by
      simpa [rowCredentials] using hnew
    simp [rowCredentials, hnone]
  · rw [Function.update_of_ne hne]
    simp [rowCredentials, List.find?_append, hne.symm]

end Persistent

section Memory
variable {users : List InMemoryUser} {name : CString}

theorem userCredentials_none :
    userCredentials users name = none ↔ users.any (fun u => u.name = name) = false := by
  simp [userCredentials]

theorem userCredentials_cons (pass : CString) (quotaBytes : Nat) :
    userCredentials (⟨name, pass, quotaBytes⟩ :: users) =
      Function.update (userCredentials users) name (some ⟨pass, quotaBytes⟩) := by
  funext n
  rcases eq_or_ne n name with rfl | hne
  · simp [userCredentials]
  · rw [Function.update_of_ne hne]
    simp [userCredentials, hne.symm]

end Memory

section Refinement
variable {store : UserStore} {e : StoreEvent}

theorem signup_refines (works : Bool) (store : UserStore) {name pass : CString}
    (hname : name.length ≤ 63) (hpass : pass.length ≤ 63) (quotaBytes : Nat)
    (priority : TaskPriority) :
    let r := userStoreSignup works store name pass quotaBytes priority
    (r.1 = true ↔ works = true ∧ store.credentials name = none) ∧
      r.2.credentials = if r.1 then
        Function.update store.credentials name (some ⟨pass, quotaBytes⟩) else store.credentials := by
  unfold userStoreSignup UserStore.credentials
  cases hs : store.storage with
  | persistent rows =>
    dsimp only
    by_cases hw : works = false
    · simp [hw, hs]
    have hworks : works = true := by simpa using hw
    by_cases hnew : rowCredentials rows name = none
    · have hany := rowCredentials_none.mp hnew
      simp [hworks, hany, hnew, rowCredentials_append hnew]
    · have hany := mt rowCredentials_none.mpr hnew
      rw [Bool.not_eq_false] at hany
      simp [hworks, hany, hnew, hs]
  | memory users =>
    dsimp only
    by_cases hnew : userCredentials users name = none
    · have hany := userCredentials_none.mp hnew
      cases works with
      | false => simp [hany, hs]
      | true =>
        simp [hany, hnew, strncpyZ_of_fits hname, strncpyZ_of_fits hpass, userCredentials_cons]
    · have hany := mt userCredentials_none.mpr hnew
      rw [Bool.not_eq_false] at hany
      simp [hany, hnew, hs]

theorem login_refines (hd : Dependable store e) (name pass : CString) :
    userStoreLogin e.works store name pass =
      decide ((store.credentials name).map Credential.password = some pass) := by
  unfold userStoreLogin UserStore.credentials
  cases hs : store.storage with
  | persistent rows =>
    have hworks : e.works = true := hd ⟨rows, hs⟩
    rcases Option.eq_none_or_eq_some (rows.find? fun r => r.username = name) with hnone | ⟨r, hr⟩
    · simp [rowCredentials, hworks, hnone]
    · simp [rowCredentials, hworks, hr]
  | memory users =>
    rcases Option.eq_none_or_eq_some (users.find? fun u => u.name = name) with hnone | ⟨u, hu⟩
    · simp [userCredentials, hnone]
    · simp [userCredentials, hu]

theorem lockUser_refines {works : Bool} {name : CString} (hname : name.length ≤ 63) :
    (userStoreLockUser works store name).map (fun u => (u.name, u.quotaBytes)) =
      if works then (store.credentials name).map fun c => (name, c.quotaBytes) else none := by
  unfold userStoreLockUser UserStore.credentials
  cases works with
  | false => simp
  | true =>
    cases hs : store.storage with
    | persistent rows =>
      simp only [rowCredentials, Bool.true_eq_false, if_false, if_true, Option.map_map]
      cases hfind : rows.find? (fun r => r.username = name) with
      | none => rfl
      | some r =>
        have heq : r.username = name := by simpa using List.find?_some hfind
        simp [heq, strncpyZ_of_fits hname]
    | memory users =>
      simp only [userCredentials, Bool.true_eq_false, if_false, if_true, Option.map_map]
      cases hfind : users.find? (fun u => u.name = name) with
      | none => rfl
      | some u =>
        have heq : u.name = name := by simpa using List.find?_some hfind
        simp [heq, strncpyZ_of_fits hname]

/-- Every call acts on the store as the map's operation on the map it stands for. -/
theorem storeCall_refines (hfit : e.call.Fits) (hd : Dependable store e) :
    (storeCall store e).1 = (credentialCall store.credentials e).1 ∧
      (storeCall store e).2.credentials = (credentialCall store.credentials e).2 := by
  unfold storeCall credentialCall
  cases hcall : e.call with
  | signup name pass quotaBytes priority =>
    rw [hcall] at hfit
    obtain ⟨hok, hmap⟩ :=
      signup_refines e.works store hfit.1 hfit.2 quotaBytes priority
    dsimp only
    by_cases hbinds : e.works = true ∧ store.credentials name = none
    · rw [if_pos hbinds, hmap, hok.mpr hbinds]
      exact ⟨rfl, rfl⟩
    · have hno := Bool.eq_false_iff.mpr (mt hok.mp hbinds)
      rw [if_neg hbinds, hmap, hno]
      exact ⟨rfl, rfl⟩
  | login name pass => exact ⟨congrArg StoreResult.loggedIn (login_refines hd name pass), rfl⟩
  | lockUser name =>
    rw [hcall] at hfit
    exact ⟨congrArg StoreResult.locked (lockUser_refines hfit), rfl⟩

theorem persistent_storeCall :
    (∃ rows, (storeCall store e).2.storage = .persistent rows) ↔
      ∃ rows, store.storage = .persistent rows := by
  unfold storeCall
  cases e.call with
  | login name pass => exact Iff.rfl
  | lockUser name => exact Iff.rfl
  | signup name pass quotaBytes priority =>
    unfold userStoreSignup
    cases hs : store.storage <;> dsimp only <;> split <;> (try split) <;> simp [hs]

/-- A whole history acts on the store as on the map it stands for. -/
theorem storeResults_refine {events : List StoreEvent} (hfit : ∀ e ∈ events, e.call.Fits)
    (hd : ∀ e ∈ events, Dependable store e) :
    storeResults store events = credentialResults store.credentials events := by
  induction events generalizing store with
  | nil => rfl
  | cons e events ih =>
    obtain ⟨hresult, hmap⟩ :=
      storeCall_refines (hfit e List.mem_cons_self) (hd e List.mem_cons_self)
    rw [storeResults, credentialResults, hresult, ← hmap]
    congr 1
    apply ih
    · intro k hk
      exact hfit k (List.mem_cons_of_mem e hk)
    · intro k hk hrows
      exact hd k (List.mem_cons_of_mem e hk) (persistent_storeCall.mp hrows)

end Refinement

/-- The event is a sign-up for the name that has what it needs. -/
def StoreEvent.signsUp (e : StoreEvent) (name : CString) : Bool :=
  match e.call with
  | .signup n _ _ _ => n = name && e.works
  | _ => false

/-- How many sign-ups for the name were reported as successful. -/
def wins (name : CString) (events : List StoreEvent) (results : List StoreResult) : Nat :=
  (events.zip results).countP fun er => er.1.signsUp name && er.2 = .signedUp true

section Winners
variable {m : Credentials} {name : CString} {e : StoreEvent}

/-- Nothing rebinds a name. -/
theorem credentialCall_keeps {c : Credential} (h : m name = some c) :
    (credentialCall m e).2 name = some c := by
  unfold credentialCall
  split
  · rename_i n pass quotaBytes priority hcall
    split
    · rename_i hfree
      have hne : name ≠ n := by
        rintro rfl
        rw [h] at hfree
        exact absurd hfree.2 (by simp)
      exact (Function.update_of_ne hne _ _).trans h
    · exact h
  · exact h
  · exact h

theorem credentialCall_signsUp (hsigns : e.signsUp name = true) :
    ((credentialCall m e).1 = .signedUp true ↔ m name = none) ∧
      (credentialCall m e).2 name ≠ none := by
  unfold StoreEvent.signsUp at hsigns
  unfold credentialCall
  split at hsigns
  · rename_i n pass quotaBytes priority hcall
    obtain ⟨hname, hworks⟩ : n = name ∧ e.works = true := by simpa using hsigns
    subst hname
    simp only [hcall, hworks, true_and]
    by_cases hfree : m n = none <;> simp [hfree]
  · contradiction

theorem credentialCall_other (hother : e.signsUp name = false) :
    (credentialCall m e).2 name = m name := by
  unfold StoreEvent.signsUp at hother
  unfold credentialCall
  split
  · rename_i n pass quotaBytes priority hcall
    split
    · rename_i hfree
      have hne : name ≠ n := by
        rintro rfl
        simp [hcall, hfree.1] at hother
      exact Function.update_of_ne hne _ _
    · rfl
  · rfl
  · rfl

theorem wins_bound (events : List StoreEvent) (h : m name ≠ none) :
    wins name events (credentialResults m events) = 0 := by
  induction events generalizing m with
  | nil => rfl
  | cons e events ih =>
    obtain ⟨c, hc⟩ := Option.ne_none_iff_exists'.mp h
    have hstill : (credentialCall m e).2 name ≠ none := by
      rw [credentialCall_keeps hc]
      simp
    have hrest := ih hstill
    unfold wins at hrest ⊢
    rw [credentialResults, List.zip_cons_cons, List.countP_cons, hrest]
    cases hsigns : e.signsUp name with
    | false => simp
    | true =>
      have hlose : (credentialCall m e).1 ≠ .signedUp true := mt (credentialCall_signsUp hsigns).1.mp h
      simp [hlose]

/-- Of the sign-ups for a free name exactly one succeeds. -/
theorem wins_free (events : List StoreEvent) (h : m name = none)
    (hsome : ∃ e ∈ events, e.signsUp name = true) :
    wins name events (credentialResults m events) = 1 := by
  induction events generalizing m with
  | nil => simp at hsome
  | cons e events ih =>
    cases hsigns : e.signsUp name with
    | true =>
      obtain ⟨hwin, hbound⟩ := credentialCall_signsUp (m := m) hsigns
      have hrest := wins_bound events hbound
      unfold wins at hrest ⊢
      rw [credentialResults, List.zip_cons_cons, List.countP_cons, hrest]
      simp [hsigns, hwin.mpr h]
    | false =>
      have hstill : (credentialCall m e).2 name = none := by rw [credentialCall_other hsigns, h]
      have hrest := ih hstill (by simpa [hsigns] using hsome)
      unfold wins at hrest ⊢
      rw [credentialResults, List.zip_cons_cons, List.countP_cons, hrest]
      simp [hsigns]

theorem credentialsAfter_keeps (events : List StoreEvent) {c : Credential} (h : m name = some c) :
    credentialsAfter m events name = some c := by
  induction events generalizing m with
  | nil => exact h
  | cons e events ih => exact ih (credentialCall_keeps h)

end Winners

/-- Both backends answer every history as the map does, an empty one for the
in-memory backend and the one its rows stand for for the persistent one; a name
once bound stays bound as it is, and of the sign-ups for a free name exactly one
succeeds. -/
theorem stores_refine_credentials (root : CString) (rows : List UserRow)
    (events : List StoreEvent) (hfit : ∀ e ∈ events, e.call.Fits) :
    let inMemory := storeResults (userStoreCreate false rows root) events
    let persistent := fun rows => storeResults (userStoreCreate true rows root) events
    inMemory = credentialResults noCredentials events ∧
    ((∀ e ∈ events, e.works = true) →
      persistent rows = credentialResults (rowCredentials rows) events ∧ persistent [] = inMemory) ∧
    (∀ m name c, m name = some c → credentialsAfter m events name = some c) ∧
    ∀ name, (∃ e ∈ events, e.signsUp name = true) →
      wins name events inMemory = 1 ∧
      ((∀ e ∈ events, e.works = true) → rowCredentials rows name = none →
        wins name events (persistent rows) = 1) := by
  have hmemory : storeResults (userStoreCreate false rows root) events =
      credentialResults noCredentials events :=
    storeResults_refine hfit fun _ _ ⟨_, hrows⟩ => nomatch hrows
  have hsql : (∀ e ∈ events, e.works = true) → ∀ rows,
      storeResults (userStoreCreate true rows root) events =
        credentialResults (rowCredentials rows) events :=
    fun hworks _ => storeResults_refine hfit fun e he _ => hworks e he
  refine ⟨hmemory, ?_, ?_, ?_⟩
  · intro hworks
    exact ⟨hsql hworks rows, (hsql hworks []).trans hmemory.symm⟩
  · intro m name c hc
    exact credentialsAfter_keeps events hc
  · intro name hsome
    refine ⟨?_, ?_⟩
    · rw [hmemory]
      exact wins_free events rfl hsome
    · intro hworks hfree
      dsimp only
      rw [hsql hworks rows]
      exact wins_free events hfree hsome

/-- Two threads sign `alice` up with different passwords; both then log in. -/
def twoSignups : List StoreEvent :=
  [⟨0, true, .signup (cstr "alice") (cstr "one") 5 .normal⟩,
    ⟨1, true, .signup (cstr "alice") (cstr "two") 7 .high⟩,
    ⟨1, true, .login (cstr "alice") (cstr "two")⟩, ⟨0, true, .login (cstr "alice") (cstr "one")⟩,
    ⟨1, true, .lockUser (cstr "alice")⟩]

theorem second_signup_refused :
    storeResults (userStoreCreate false [] (cstr "./storage")) twoSignups =
      [.signedUp true, .signedUp false, .loggedIn false, .loggedIn true,
        .locked (some (cstr "alice", 5))] ∧
    storeResults (userStoreCreate true [] (cstr "./storage")) twoSignups =
      storeResults (userStoreCreate false [] (cstr "./storage")) twoSignups := by
  have hfit : ∀ e ∈ twoSignups, e.call.Fits := by
    intro e he
    simp only [twoSignups, List.mem_cons, List.not_mem_nil, or_false] at he
    rcases he with rfl | rfl | rfl | rfl | rfl <;> decide
  have hworks : ∀ e ∈ twoSignups, e.works = true := by
    intro e he
    simp only [twoSignups, List.mem_cons, List.not_mem_nil, or_false] at he
    rcases he with rfl | rfl | rfl | rfl | rfl <;> rfl
  obtain ⟨_, hsql, _⟩ := stores_refine_credentials (cstr "./storage") [] twoSignups hfit
  exact ⟨by decide, (hsql hworks).2⟩

end FileServer
