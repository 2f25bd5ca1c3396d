import FileServer.Registry

/-!
# Pushing to a response entry that is gone

`send_response` keeps the address of an entry across the end of the critical
section in which it was found, while `deregister_client_response_queue` frees
it under no lock that the worker holds. Client ids are given once, so the entry
of a connection is destroyed exactly when its address no longer holds its id.
-/

namespace FileServer

open Runs
set_option autoImplicit false

/-- Worker `w` is about to push to an entry that has been destroyed. -/
def PushesRetired (s : Server) (w : Nat) : Prop :=
  ∃ a r rest, s.workers w = .pushing a r rest ∧ s.idAt a ≠ some r.response.clientId

theorem Registry.push_target {s : Server} (hr : Registry s) (w : Nat) : ¬ PushesRetired s w := by
  rintro ⟨a, r, rest, hphase, hne⟩
  have hheld : (handles s).held (.inr w) = some (a, r.response.clientId) := by
    change (s.workers w).holds = _
    rw [hphase]
    rfl
  exact hne (hr.sound.held _ _ _ hheld).2

theorem unlink_step {s : Server} {t c : Nat} {a : Addr} {map : Queue Addr} (cmp : Comparators Id)
    (hphase : s.clients t = .deregistering c) (hunlink : unlinkEntry s c = some (a, map)) :
    serverStep s (cmp, .unlink t) =
      some (({ s with responseMap := map }.setClient t (.unlinked a)).setStage c .deregistered) := by
  unfold serverStep step
  dsimp only
  rw [hphase]
  dsimp only
  rw [hunlink]
  rfl

theorem closeEntry_step {s : Server} {t : Nat} {a : Addr} (cmp : Comparators Id)
    (hphase : s.clients t = .unlinked a) :
    serverStep s (cmp, .closeEntry t) =
      some ((s.setEntry a ((s.mem a).map ResponseQueueEntry.close)).setClient t (.closed a)) := by
  unfold serverStep step
  dsimp only
  rw [hphase]
  rfl

theorem free_step {s : Server} {t : Nat} {a : Addr} (cmp : Comparators Id)
    (hphase : s.clients t = .closed a) :
    serverStep s (cmp, .free t) = some ((s.setEntry a none).setClient t .idle) := by
  unfold serverStep step
  dsimp only
  rw [hphase]
  rfl

theorem deregister_frees {s : Server} {t c : Nat} {a : Addr} (cmp : Comparators Id)
    (hphase : s.clients t = .deregistering c) (hfound : s.findEntry c = some a) :
    ∃ s', exec serverStep s [(cmp, .unlink t), (cmp, .closeEntry t), (cmp, .free t)] = some s' ∧
      s'.workers = s.workers ∧ s'.idAt a = none := by
  obtain ⟨i, hi, hdata⟩ := Option.map_eq_some_iff.mp hfound
  have hunlink : unlinkEntry s c = some (a, removeAt s.responseMap i) := by
    unfold unlinkEntry
    rw [hi, ← hdata]
    rfl
  let s₁ := ({ s with responseMap := removeAt s.responseMap i }.setClient t (.unlinked a)).setStage c
    .deregistered
  let s₂ := (s₁.setEntry a ((s₁.mem a).map ResponseQueueEntry.close)).setClient t (.closed a)
  have h₁ : serverStep s (cmp, .unlink t) = some s₁ := unlink_step cmp hphase hunlink
  have h₂ : serverStep s₁ (cmp, .closeEntry t) = some s₂ :=
    closeEntry_step cmp (Function.update_self _ _ _)
  have h₃ : serverStep s₂ (cmp, .free t) = some ((s₂.setEntry a none).setClient t .idle) :=
    free_step cmp (Function.update_self _ _ _)
  refine ⟨(s₂.setEntry a none).setClient t .idle, ?_, rfl, ?_⟩
  · simp only [exec, h₁, h₂, h₃, Option.bind_some]
  · change (s₂.setEntry a none).idAt a = none
    rw [idAt_setEntry, Function.update_self]
    rfl

theorem Registry.findEntry {s : Server} (hr : Registry s) {a : Addr} {c : Nat}
    (ha : a ∈ s.responseMap.contents) (hid : s.idAt a = some c) : s.findEntry c = some a := by
  cases hfind : s.findEntry c with
  | none => exact absurd hid (Server.scan_none (Option.map_eq_none_iff.mp hfind) a ha)
  | some b =>
    obtain ⟨hb, hidb⟩ := Server.findEntry_some hfind
    rw [hr.sound.unique a ha b hb c hid hidb]

theorem pushFreed_step {s : Server} {w : Nat} {a : Addr} {r : Reply} {rest : List Effect}
    (cmp : Comparators Id) (grows : Bool) (hphase : s.workers w = .pushing a r rest)
    (hmem : s.mem a = none) :
    serverStep s (cmp, .push w grows) = some (s.setWorker w (.sending r.job rest)) := by
  unfold serverStep step
  dsimp only
  rw [hphase]
  dsimp only
  rw [hmem]
  rfl

/-- As long as no entry is unlinked while a worker stands between finding and
using it, no push goes to a destroyed entry. The condition is sharp: the first
unlinking that breaks it can be followed by such a push. -/
theorem push_never_retired_when_calm (store : UserStore) :
    (∀ s s' cmp w grows, ServerReached Calm store s →
      serverStep s (cmp, .push w grows) = some s' → ¬ PushesRetired s w) ∧
    (∀ s cmp t, ServerReached Calm store s → ¬ Calm s (cmp, .unlink t) →
      ∃ s₁ s₂ w, exec serverStep s [(cmp, .unlink t), (cmp, .closeEntry t), (cmp, .free t)] = some s₁ ∧
        serverStep s₁ (cmp, .push w true) = some s₂ ∧ PushesRetired s₁ w) := by
  constructor
  · intro s s' cmp w grows hreach _
    exact (registry_reached (fun _ _ h => h) hreach).push_target w
  · intro s cmp t hreach hnot
    have hr := registry_reached (fun _ _ h => h) hreach
    obtain ⟨c, hphase, w, a, r, rest, hworker, hc⟩ : ∃ c, s.clients t = .deregistering c ∧
        ∃ w a r rest, s.workers w = .pushing a r rest ∧ r.response.clientId = c := by
      simpa [Calm, Unheld] using hnot
    have hheld : (handles s).held (.inr w) = some (a, c) := by
      change (s.workers w).holds = _
      rw [hworker, ← hc]
      rfl
    obtain ⟨ha, hid⟩ := hr.sound.held _ _ _ hheld
    obtain ⟨s₁, hexec, hworkers, hgone⟩ := deregister_frees cmp hphase (hr.findEntry ha hid)
    have hphase₁ : s₁.workers w = .pushing a r rest := by rw [hworkers, hworker]
    have hfree : s₁.mem a = none := Option.map_eq_none_iff.mp hgone
    refine ⟨s₁, _, w, hexec, pushFreed_step cmp true hphase₁ hfree, a, r, rest, hphase₁, ?_⟩
    rw [hgone]
    simp

theorem WorkerPhase.holds_some {p : WorkerPhase} {a c : Nat} (h : p.holds = some (a, c)) :
    ∃ r rest, p = .pushing a r rest ∧ r.response.clientId = c := by
  cases p with
  | pushing b r rest =>
    cases h
    exact ⟨r, rest, rfl, rfl⟩
  | _ => contradiction

def Action.unlinks : Action → Bool
  | .unlink _ => true
  | _ => false

theorem calm_of_not_unlinks {l : Comparators Id × Action} (h : l.2.unlinks = false) (s : Server) :
    Calm s l := by
  intro t c ht
  rw [ht] at h
  contradiction

theorem guarded_calm {ls : List (Comparators Id × Action)}
    (h : ls.all (fun l => !l.2.unlinks) = true) (s : Server) : Guarded serverStep Calm s ls := by
  apply guarded_of_forall
  intro l hl
  exact calm_of_not_unlinks (by simpa using List.all_eq_true.mp h l hl)

/-- One connection asks for a listing; its worker has found the entry. -/
def askedAndFound : List (Comparators Id × Action) :=
  [.accept 4 (some 0) true, .enqueue true, .takeClient 0, .command 0 (cstr "LIST alice") ⟨0, 0⟩ true,
    .findEntry 0, .takeTask 0, .lockUser 0 true, .process 0 true ⟨true, .ok (), .ok [], true, some []⟩,
    .respond 0 true].map (Prod.mk taskComparators)

/-- The wait expired and the client hung up. -/
def askedAndLeft : List (Comparators Id × Action) :=
  askedAndFound ++ [.timeOut 0 true, .endOfStream 0, .closeSocket 0].map (Prod.mk taskComparators)

theorem push_after_request_is_live :
    (∃ s s', ServerReached Calm emptyStore s ∧
      serverStep s (taskComparators, .push 0 true) = some s' ∧ ¬ PushesRetired s 0) ∧
    ∃ s, ServerReached Calm emptyStore s ∧ ¬ Calm s (taskComparators, .unlink 0) ∧
      ∃ s₁ w, PushesRetired s₁ w := by
  constructor
  · have hview : (exec serverStep (serverInit emptyStore) askedAndFound).map
        (fun s => (serverStep s (taskComparators, .push 0 true)).isSome) = some true := by
      decide +kernel
    obtain ⟨s, hexec, hs⟩ := Option.map_eq_some_iff.mp hview
    obtain ⟨s', hpush⟩ := Option.isSome_iff_exists.mp hs
    have hreach : ServerReached Calm emptyStore s := .of_exec .start (guarded_calm rfl _) hexec
    exact ⟨s, s', hreach, hpush,
      (push_never_retired_when_calm emptyStore).1 s s' taskComparators 0 true hreach hpush⟩
  · have hview : (exec serverStep (serverInit emptyStore) askedAndLeft).map
        (fun s => ((s.workers 0).holds, s.clients 0)) = some (some (0, 1), .deregistering 1) := by
      decide +kernel
    obtain ⟨s, hexec, hs⟩ := Option.map_eq_some_iff.mp hview
    obtain ⟨hholds, hclient⟩ := Prod.mk.inj hs
    obtain ⟨r, rest, hphase, hc⟩ := WorkerPhase.holds_some hholds
    have hreach : ServerReached Calm emptyStore s := .of_exec .start (guarded_calm rfl _) hexec
    have hnot : ¬ Calm s (taskComparators, .unlink 0) := by
      intro hcalm
      exact hcalm 0 1 rfl hclient 0 0 r rest hphase hc
    obtain ⟨s₁, _, w, _, _, hbad⟩ :=
      (push_never_retired_when_calm emptyStore).2 s taskComparators 0 hreach hnot
    exact ⟨s, hreach, hnot, s₁, w, hbad⟩

theorem retired_entry_is_pushed :
    ¬ ∀ store s s' cmp w grows, ServerReached (fun _ _ => True) store s →
      serverStep s (cmp, .push w grows) = some s' → ¬ PushesRetired s w := by
  intro h
  have hview : (exec serverStep (serverInit emptyStore) (askedAndLeft ++
      [.unlink 0, .closeEntry 0, .free 0].map (Prod.mk taskComparators))).map
        (fun s => ((s.workers 0).holds, s.idAt 0)) =
      some (some (0, 1), none) := by
    decide +kernel
  obtain ⟨s, hexec, hs⟩ := Option.map_eq_some_iff.mp hview
  obtain ⟨hholds, hid⟩ := Prod.mk.inj hs
  obtain ⟨r, rest, hphase, hc⟩ := WorkerPhase.holds_some hholds
  have hreach : ServerReached (fun _ _ => True) emptyStore s :=
    .of_exec .start (guarded_of_forall (fun _ _ _ => trivial) _) hexec
  have hfree : s.mem 0 = none := Option.map_eq_none_iff.mp hid
  refine h emptyStore s _ taskComparators 0 true hreach
    (pushFreed_step taskComparators true hphase hfree) ⟨0, r, rest, hphase, ?_⟩
  rw [hid]
  simp

end FileServer
