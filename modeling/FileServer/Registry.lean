import FileServer.Lifecycle
import FileServer.Shared.HandleTable
import FileServer.Shared.Runs

/-!
# Response entries

The response map, the heap and the addresses that threads keep form a handle
table: entries in the map belong to open connections, an address that a thread
keeps is that of the entry it found, and an entry is freed only after it has left
the map.
-/

namespace FileServer

set_option autoImplicit false

def ClientPhase.awaits : ClientPhase → Option (Addr × Nat)
  | .waiting ci a => some (a, ci.clientId)
  | _ => none

def ClientPhase.retires : ClientPhase → Option Addr
  | .unlinked a | .closed a => some a
  | _ => none

def WorkerPhase.holds : WorkerPhase → Option (Addr × Nat)
  | .pushing a r _ => some (a, r.response.clientId)
  | _ => none

def handles (s : Server) : HandleTable.Table Addr Nat (Nat ⊕ Nat) where
  linked := s.responseMap.contents
  owner := s.idAt
  held := Sum.elim (ClientPhase.awaits ∘ s.clients) (WorkerPhase.holds ∘ s.workers)
  retired := Sum.elim (ClientPhase.retires ∘ s.clients) fun _ => none

theorem handles_setClient (s : Server) (t : Nat) (p : ClientPhase) :
    handles (s.setClient t p) = { handles s with
      held := Function.update (handles s).held (.inl t) p.awaits
      retired := Function.update (handles s).retired (.inl t) p.retires } := by
  unfold handles Server.setClient
  rw [Sum.update_elim_inl, Sum.update_elim_inl, Function.comp_update, Function.comp_update]
  rfl

theorem handles_setWorker (s : Server) (w : Nat) (p : WorkerPhase) :
    handles (s.setWorker w p) = { handles s with
      held := Function.update (handles s).held (.inr w) p.holds } := by
  unfold handles Server.setWorker
  rw [Sum.update_elim_inr, Function.comp_update]
  rfl

theorem idAt_setEntry (s : Server) (a : Addr) (e : Option ResponseQueueEntry) :
    (s.setEntry a e).idAt = Function.update s.idAt a (e.map ResponseQueueEntry.clientId) := by
  funext b
  unfold Server.idAt Server.setEntry
  rcases eq_or_ne b a with rfl | hne
  · simp
  · simp [Function.update_of_ne hne]

theorem handles_setEntry (s : Server) (a : Addr) (e : Option ResponseQueueEntry) :
    handles (s.setEntry a e) = { handles s with
      owner := Function.update (handles s).owner a (e.map ResponseQueueEntry.clientId) } := by
  unfold handles
  rw [idAt_setEntry]
  rfl

def Stage.isOpen : Stage → Bool
  | .accepted | .queued | .served _ => true
  | .unborn | .deregistered => false

/-- Entries in the map belong to connections that are accepted and not yet deregistered. -/
structure Registry (s : Server) : Prop where
  life : Lifecycle s
  sound : HandleTable.Sound (handles s)
  current : ∀ a ∈ s.responseMap.contents, ∀ c, s.idAt a = some c → (s.stage c).isOpen = true

/-- No worker stands between looking up an entry of `c` and pushing to it. -/
def Unheld (s : Server) (c : Nat) : Prop :=
  ∀ w a r rest, s.workers w = .pushing a r rest → r.response.clientId ≠ c

/-- The step does not unlink an entry that a worker has looked up and not yet used. -/
def Calm (s : Server) (l : Comparators Id × Action) : Prop :=
  ∀ t c, l.2 = .unlink t → s.clients t = .deregistering c → Unheld s c

section Handles
variable {s s' : Server}

theorem update_same {α β : Type} [DecidableEq α] {f : α → β} {x : α} {b : β} (h : b = f x) :
    Function.update f x b = f := by
  rw [h, Function.update_eq_self]

theorem handles_setClient_held {t : Nat} {p : ClientPhase} (q : ClientPhase) (hphase : s.clients t = p)
    (hretires : q.retires = p.retires) :
    handles (s.setClient t q) =
      { handles s with held := Function.update (handles s).held (.inl t) q.awaits } := by
  have hsame : q.retires = (handles s).retired (.inl t) := by
    rw [hretires, ← hphase]
    rfl
  rw [handles_setClient, update_same hsame]

theorem handles_setClient_retired {t : Nat} {p : ClientPhase} (q : ClientPhase) (hphase : s.clients t = p)
    (hawaits : q.awaits = p.awaits) :
    handles (s.setClient t q) =
      { handles s with retired := Function.update (handles s).retired (.inl t) q.retires } := by
  have hsame : q.awaits = (handles s).held (.inl t) := by
    rw [hawaits, ← hphase]
    rfl
  rw [handles_setClient, update_same hsame]

theorem handles_setClient_same {t : Nat} {p : ClientPhase} (q : ClientPhase) (hphase : s.clients t = p)
    (hawaits : q.awaits = p.awaits) (hretires : q.retires = p.retires) :
    handles (s.setClient t q) = handles s := by
  have hsame : q.awaits = (handles s).held (.inl t) := by
    rw [hawaits, ← hphase]
    rfl
  rw [handles_setClient_held q hphase hretires, update_same hsame]

theorem handles_setWorker_same {w : Nat} {p q : WorkerPhase} (hphase : s.workers w = p)
    (hholds : q.holds = p.holds) : handles (s.setWorker w q) = handles s := by
  rw [handles_setWorker, update_same (by rw [hholds, ← hphase]; rfl)]

theorem handles_setEntry_same {a : Addr} {e : Option ResponseQueueEntry}
    (h : e.map ResponseQueueEntry.clientId = s.idAt a) : handles (s.setEntry a e) = handles s := by
  have hsame : e.map ResponseQueueEntry.clientId = (handles s).owner a := h
  rw [handles_setEntry, update_same hsame]

theorem map_close (e : Option ResponseQueueEntry) :
    (e.map ResponseQueueEntry.close).map ResponseQueueEntry.clientId =
      e.map ResponseQueueEntry.clientId := by
  cases e <;> rfl

/-- The thread stops waiting; its entry, if it changed, kept its owner. -/
theorem release_step {t : Nat} {ci : ClientInfo} {a : Addr} (hs : handles s' = handles s)
    (hphase : s'.clients t = .waiting ci a) :
    HandleTable.Step (handles s) (handles (s'.setClient t (.reading ci))) := by
  rw [handles_setClient_held (.reading ci) hphase rfl, hs]
  exact .release

/-- A thread that unlinks is the only one that may hold its entry. -/
theorem Registry.unused (hr : Registry s) {t c : Nat} {a : Addr}
    (hderegistering : s.clients t = .deregistering c) (hid : s.idAt a = some c)
    (hunheld : Unheld s c) : ∀ u i, (handles s).held u ≠ some (a, i) := by
  intro u i hu
  obtain ⟨_, howner⟩ := hr.sound.held u a i hu
  have hi : i = c := Option.some.inj (howner.symm.trans hid)
  subst hi
  cases u with
  | inl t' =>
    have hawaits : (s.clients t').awaits = some (a, i) := hu
    cases hp : s.clients t' with
    | waiting ci b =>
      rw [hp] at hawaits
      cases hawaits
      have h₁ := (hr.life.served t' ci.clientId (some ci.socketFd) (by rw [hp]; rfl)).1
      have h₂ := (hr.life.served t ci.clientId none (by rw [hderegistering]; rfl)).1
      rw [h₁] at h₂
      cases h₂
      rw [hderegistering] at hp
      contradiction
    | _ => rw [hp] at hawaits; contradiction
  | inr w =>
    have hholds : (s.workers w).holds = some (a, i) := hu
    cases hp : s.workers w with
    | pushing b r rest =>
      rw [hp] at hholds
      cases hholds
      exact hunheld w a r rest hp rfl
    | _ => rw [hp] at hholds; contradiction

theorem Registry.fresh (hr : Registry s) :
    ∀ b ∈ s.responseMap.contents, s.idAt b ≠ some s.nextClientId := by
  intro b hb hid
  have hopen := hr.current b hb _ hid
  rw [hr.life.unborn _ (Nat.le_refl _)] at hopen
  contradiction

theorem Moves.handles_step {action : Action} (hm : Moves s action s') (hr : Registry s)
    (hcalm : ∀ t c, action = .unlink t → s.clients t = .deregistering c → Unheld s c) :
    handles s' = handles s ∨ HandleTable.Step (handles s) (handles s') := by
  cases hm with
  | @acceptRegistered fd a _ map _ _ hfree hperm _ =>
    right
    have howner : (handles s).owner a = none := by
      change (s.mem a).map ResponseQueueEntry.clientId = none
      rw [hfree]
      rfl
    have hlink := HandleTable.Step.link howner hr.fresh hperm
    have heq := handles_setEntry { s with responseMap := map } a (some ⟨s.nextClientId, queueInit⟩)
    exact heq ▸ hlink
  | @foundEntry t ci a hphase hfound =>
    right
    obtain ⟨hmem, hid⟩ := Server.findEntry_some hfound
    rw [handles_setClient_held (.waiting ci a) hphase rfl]
    exact HandleTable.Step.lookup (s := handles s) hmem hid
  | @deliver t ci a e r q hphase hmem _ =>
    right
    have hid : (some { e with queue := q }).map ResponseQueueEntry.clientId = s.idAt a := by
      simp [Server.idAt, hmem]
    exact release_step (handles_setEntry_same hid) hphase
  | timeOut hphase => exact Or.inr (release_step rfl hphase)
  | timeOutSilent hphase => exact Or.inr (release_step rfl hphase)
  | waitFails hphase => exact Or.inr (release_step rfl hphase)
  | @unlink t c a map hphase hid hperm hclosed =>
    right
    have hunlink := HandleTable.Step.unlink (t := Sum.inl t) hperm
      (hr.unused hphase hid (hcalm t c rfl hphase))
    have heq := handles_setClient_retired (s := { s with responseMap := map }) (.unlinked a) hphase
      rfl
    exact heq ▸ hunlink
  | @free t a hphase =>
    right
    have hretired : (handles s).retired (.inl t) = some a := by
      change (s.clients t).retires = some a
      rw [hphase]
      rfl
    have hphase' : (s.setEntry a none).clients t = .closed a := hphase
    rw [handles_setClient_retired .idle hphase' rfl, handles_setEntry]
    exact .free hretired
  | @respond w job status message rest a hphase hfound =>
    right
    obtain ⟨hmem, hid⟩ := Server.findEntry_some hfound
    rw [handles_setWorker]
    exact HandleTable.Step.lookup (s := handles s) hmem hid
  | @push w grows a r rest e q hphase hmem hadd =>
    right
    rw [handles_setWorker, handles_setEntry_same (by simp [Server.idAt, hmem])]
    exact .release
  | pushFreed hphase hmem =>
    right
    rw [handles_setWorker]
    exact .release
  | exitClient hphase | takeClient hphase _ | quit hphase _ | submit hphase _ _ | endOfStream hphase
  | missedEntry hphase _ | closeSocket hphase | unlinkMissing hphase _ =>
    exact Or.inl (handles_setClient_same _ hphase rfl rfl)
  | @closeEntry t a hphase =>
    left
    have hphase' : (s.setEntry a ((s.mem a).map ResponseQueueEntry.close)).clients t =
        .unlinked a := hphase
    rw [handles_setClient_same (.closed a) hphase' rfl rfl]
    exact handles_setEntry_same (map_close (s.mem a))
  | exitWorker hphase | takeTask hphase _ | lockUser hphase _
  | respondDropped hphase | sendFile hphase | sendFileMissing hphase | finish hphase =>
    exact Or.inl (handles_setWorker_same hphase rfl)
  | process hphase _ =>
    rcases hphase with ⟨hphase, _⟩ | hphase
    · exact Or.inl (handles_setWorker_same hphase rfl)
    · exact Or.inl (handles_setWorker_same hphase rfl)
  | _ => exact Or.inl rfl

theorem idAt_setEntry_same {a : Addr} {e : Option ResponseQueueEntry}
    (h : e.map ResponseQueueEntry.clientId = s.idAt a) : (s.setEntry a e).idAt = s.idAt := by
  rw [idAt_setEntry, update_same h]

theorem isOpen_update {c : Nat} {a b : Stage} (hc : s.stage c = a) (h : a.isOpen = b.isOpen) (d : Nat) :
    (Function.update s.stage c b d).isOpen = (s.stage d).isOpen :=
  update_view s.stage Stage.isOpen (by rw [hc, h]) d

def Current (s : Server) : Prop :=
  ∀ a ∈ s.responseMap.contents, ∀ c, s.idAt a = some c → (s.stage c).isOpen = true

theorem Current.frame (h : Current s) (hlinked : s'.responseMap.contents = s.responseMap.contents)
    (hid : s'.idAt = s.idAt) (hstage : ∀ c, (s'.stage c).isOpen = (s.stage c).isOpen) :
    Current s' := by
  intro a ha c hc
  rw [hstage]
  exact h a (hlinked ▸ ha) c (hid ▸ hc)

theorem Moves.current {action : Action} (hm : Moves s action s') (hr : Registry s) :
    Current s' := by
  have h : Current s := hr.current
  cases hm with
  | @acceptRegistered fd a _ map _ _ hfree hperm _ =>
    have hstage : ∀ d, d ≠ s.nextClientId →
        Function.update s.stage s.nextClientId .accepted d = s.stage d :=
      fun d hd => Function.update_of_ne hd _ _
    intro b hb d hd
    change (Function.update s.stage s.nextClientId .accepted d).isOpen = true
    change (({ s with responseMap := map } : Server).setEntry a _).idAt b = some d at hd
    rw [idAt_setEntry] at hd
    rcases List.mem_cons.mp (hperm.mem_iff.mp hb) with rfl | hb
    · rw [Function.update_self] at hd
      cases hd
      rw [Function.update_self]
      rfl
    · rcases HandleTable.update_eq_some hd with ⟨_, heq⟩ | ⟨_, hd⟩
      · cases heq
        rw [Function.update_self]
        rfl
      · rw [hstage d fun heq => hr.fresh b hb (heq ▸ hd)]
        exact h b hb d hd
  | acceptUnregistered _ _ _ =>
    intro b hb d hd
    have hne : d ≠ s.nextClientId := fun heq => hr.fresh b hb (heq ▸ hd)
    change (Function.update s.stage s.nextClientId .accepted d).isOpen = true
    rw [Function.update_of_ne hne]
    exact h b hb d hd
  | @enqueue _ ci _ hmain _ =>
    exact h.frame rfl rfl (isOpen_update (hr.life.accepted ci hmain).1 rfl)
  | @takeClient t ci q _ hperm =>
    have hstage := (hr.life.queued ci (hperm.mem_iff.mp List.mem_cons_self)).1
    exact h.frame rfl rfl (isOpen_update hstage rfl)
  | @unlink t c a map hphase hid hperm _ =>
    have hrest := hr.sound.unlinked_rest hperm hid
    intro b hb d hd
    have hne : d ≠ c := by
      rintro rfl
      exact hrest b hb hd
    change (Function.update s.stage c .deregistered d).isOpen = true
    rw [Function.update_of_ne hne]
    exact h b (hperm.mem_iff.mpr (List.mem_cons_of_mem a hb)) d hd
  | @unlinkMissing t c hphase hnone =>
    intro b hb d hd
    have hne : d ≠ c := by
      rintro rfl
      exact hnone b hb hd
    change (Function.update s.stage c .deregistered d).isOpen = true
    rw [Function.update_of_ne hne]
    exact h b hb d hd
  | @deliver t ci a e r q _ hmem _ =>
    refine h.frame rfl ?_ fun _ => rfl
    exact idAt_setEntry_same (by simp [Server.idAt, hmem])
  | @push w grows a r rest e q _ hmem _ =>
    refine h.frame rfl ?_ fun _ => rfl
    exact idAt_setEntry_same (by simp [Server.idAt, hmem])
  | closeEntry _ =>
    refine h.frame rfl ?_ fun _ => rfl
    exact idAt_setEntry_same (map_close _)
  | @free t a hphase =>
    intro b hb d hd
    change (s.setEntry a none).idAt b = some d at hd
    rw [idAt_setEntry] at hd
    rcases HandleTable.update_eq_some hd with ⟨_, heq⟩ | ⟨_, hd⟩
    · contradiction
    · exact h b hb d hd
  | _ => exact h.frame rfl rfl fun _ => rfl

theorem Moves.registry {action : Action} (hm : Moves s action s') (hr : Registry s)
    (hcalm : ∀ t c, action = .unlink t → s.clients t = .deregistering c → Unheld s c) :
    Registry s' := by
  refine ⟨hm.lifecycle hr.life, ?_, hm.current hr⟩
  rcases hm.handles_step hr hcalm with hsame | hstep
  · rw [hsame]
    exact hr.sound
  · exact hstep.sound hr.sound

theorem registry_init (store : UserStore) : Registry (serverInit store) := by
  have hheld : ∀ u, (handles (serverInit store)).held u = none := by
    intro u
    cases u <;> rfl
  have hretired : ∀ u, (handles (serverInit store)).retired u = none := by
    intro u
    cases u <;> rfl
  refine ⟨lifecycle_init store, ⟨List.nodup_nil, ?_, ?_, ?_, ?_, ?_, ?_⟩, ?_⟩
  · intro a ha
    contradiction
  · intro a ha
    contradiction
  · intro t a i ht
    rw [hheld] at ht
    contradiction
  · intro t a ht
    rw [hretired] at ht
    contradiction
  · intro t a ht
    rw [hretired] at ht
    contradiction
  · intro t u a ht
    rw [hretired] at ht
    contradiction
  · intro a ha
    contradiction

end Handles

/-- Server states that runs of allowed steps reach. -/
abbrev ServerReached (allowed : Server → Comparators Id × Action → Prop) (store : UserStore) :
    Server → Prop :=
  Runs.Reached serverStep allowed (serverInit store)

theorem registry_reached {allowed : Server → Comparators Id × Action → Prop} {store : UserStore}
    (hcalm : ∀ s l, allowed s l → Calm s l) {s : Server} (h : ServerReached allowed store s) :
    Registry s := by
  apply h.invariant (registry_init store)
  intro s s' l _ hr hl hs
  exact (serverStep_moves hs).registry hr (hcalm s l hl)

end FileServer
