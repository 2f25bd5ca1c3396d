import FileServer.EntryLifetime

/-!
# Response routing

The response map has one entry for each connection that is accepted and not yet
deregistered, a response lies only in the queue of its own connection's entry,
and it is written only to that connection's socket. The last two rest on an
address still holding the entry that a worker found there.
-/

namespace FileServer

open Runs
set_option autoImplicit false

/-- The allocations of a registration succeed. -/
def Action.allocates : Action → Bool
  | .accept _ entry grows => entry.isSome && grows
  | _ => true

def Matching (e : ResponseQueueEntry) : Prop :=
  ∀ r ∈ e.queue.contents, r.response.clientId = e.clientId

structure Routed (s : Server) : Prop where
  exactly : ∀ c, s.responseMap.contents.countP (fun a => s.idAt a = some c) =
    if (s.stage c).isOpen then 1 else 0
  matching : ∀ a e, s.mem a = some e → Matching e
  delivered : ∀ w ∈ s.written, ∀ r, w.line = .reply r → w.owner = some r.response.clientId

/-- Every open connection has its entry, and the map is closed by the last
action of the main thread only. -/
structure Complete (s : Server) : Prop where
  entries : ∀ c, (s.stage c).isOpen = true → ∃ a ∈ s.responseMap.contents, s.idAt a = some c
  mapOpen : s.main ≠ .joining → s.responseMap.closed = false

section Steps
variable {s s' : Server}

theorem Registry.count (hr : Registry s) (hc : Complete s) (c : Nat) :
    s.responseMap.contents.countP (fun a => s.idAt a = some c) =
      if (s.stage c).isOpen then 1 else 0 := by
  split
  · rename_i hopen
    obtain ⟨a, ha, hid⟩ := hc.entries c hopen
    have hperm := List.perm_cons_erase ha
    have hrest : ∀ b ∈ s.responseMap.contents.erase a, s.idAt b ≠ some c :=
      hr.sound.unlinked_rest hperm hid
    rw [hperm.countP_eq, List.countP_cons_of_pos (by simpa using hid), List.countP_eq_zero.mpr]
    intro b hb
    simpa using hrest b hb
  · rename_i hclosed
    apply List.countP_eq_zero.mpr
    intro a ha
    have hne : s.idAt a ≠ some c := fun hid => hclosed (hr.current a ha c hid)
    simpa using hne

theorem Complete.frame (h : Complete s) (hlinked : s'.responseMap = s.responseMap)
    (hid : s'.idAt = s.idAt) (hstage : ∀ c, (s'.stage c).isOpen = (s.stage c).isOpen)
    (hmain : s.main = .joining → s'.main = .joining) : Complete s' := by
  constructor
  · intro c hc
    rw [hlinked, hid]
    exact h.entries c (hstage c ▸ hc)
  · intro hne
    rw [hlinked]
    exact h.mapOpen fun heq => hne (hmain heq)

theorem Moves.complete {l : Comparators Id × Action} (hm : Moves s l.2 s') (hr : Registry s)
    (h : Complete s) (halloc : l.2.allocates = true) : Complete s' := by
  obtain ⟨cmp, action⟩ := l
  dsimp only at hm
  cases hm with
  | @acceptRegistered fd a _ map hmain _ hfree hperm hopen =>
    refine ⟨?_, fun _ => hopen⟩
    intro c hc
    have hid : ∀ b, ((({ s with responseMap := map } : Server).setEntry a
        (some ⟨s.nextClientId, queueInit⟩)).acceptOn fd).idAt b =
        Function.update s.idAt a (some s.nextClientId) b := by
      intro b
      exact congrFun (idAt_setEntry _ _ _) b
    rcases eq_or_ne c s.nextClientId with rfl | hne
    · exact ⟨a, hperm.mem_iff.mpr List.mem_cons_self, (hid a).trans (Function.update_self _ _ _)⟩
    · change (Function.update s.stage s.nextClientId .accepted c).isOpen = true at hc
      rw [Function.update_of_ne hne] at hc
      obtain ⟨b, hb, hidb⟩ := h.entries c hc
      refine ⟨b, hperm.mem_iff.mpr (List.mem_cons_of_mem a hb), ?_⟩
      rw [hid, Function.update_of_ne]
      · exact hidb
      · rintro rfl
        simp [Server.idAt, hfree] at hidb
  | @acceptUnregistered fd entry grows hmain _ hwhy =>
    obtain ⟨hentry, hgrows⟩ : entry.isSome = true ∧ grows = true := by
      simpa [Action.allocates] using halloc
    have hopen := h.mapOpen (by rw [hmain]; simp)
    rcases hwhy with rfl | hclosed | rfl
    · contradiction
    · rw [hopen] at hclosed
      contradiction
    · contradiction
  | @enqueue _ ci _ hmain _ =>
    refine h.frame rfl rfl (isOpen_update (hr.life.accepted ci hmain).1 rfl) ?_
    intro hjoin
    rw [hmain] at hjoin
    contradiction
  | interrupt hmain | closeTasks hmain =>
    refine h.frame rfl rfl (fun _ => rfl) ?_
    intro hjoin
    rw [hmain] at hjoin
    contradiction
  | closeMap hmain =>
    exact ⟨h.entries, fun hne => absurd rfl hne⟩
  | @takeClient t ci q _ hperm =>
    have hstage := (hr.life.queued ci (hperm.mem_iff.mp List.mem_cons_self)).1
    exact h.frame rfl rfl (isOpen_update hstage rfl) id
  | @unlink t c a map hphase hid hperm hclosed =>
    refine ⟨?_, fun hne => hclosed.trans (h.mapOpen hne)⟩
    intro d hd
    have hne : d ≠ c := by
      rintro rfl
      change (Function.update s.stage d .deregistered d).isOpen = true at hd
      rw [Function.update_self] at hd
      contradiction
    change (Function.update s.stage c .deregistered d).isOpen = true at hd
    rw [Function.update_of_ne hne] at hd
    obtain ⟨b, hb, hidb⟩ := h.entries d hd
    refine ⟨b, ?_, hidb⟩
    rcases List.mem_cons.mp (hperm.mem_iff.mp hb) with rfl | hb
    · exact absurd (Option.some.inj (hidb.symm.trans hid)) hne
    · exact hb
  | @unlinkMissing t c hphase hnone =>
    have hserved := (hr.life.served t c none (by rw [hphase]; rfl)).1
    obtain ⟨a, ha, hid⟩ := h.entries c (by rw [hserved]; rfl)
    exact absurd hid (hnone a ha)
  | @deliver t ci a e r q _ hmem _ =>
    exact h.frame rfl (idAt_setEntry_same (by simp [Server.idAt, hmem])) (fun _ => rfl) id
  | @push w grows a r rest e q _ hmem _ =>
    exact h.frame rfl (idAt_setEntry_same (by simp [Server.idAt, hmem])) (fun _ => rfl) id
  | closeEntry _ => exact h.frame rfl (idAt_setEntry_same (map_close _)) (fun _ => rfl) id
  | @free t a hphase =>
    refine ⟨?_, h.mapOpen⟩
    intro c hc
    obtain ⟨b, hb, hid⟩ := h.entries c hc
    refine ⟨b, hb, ?_⟩
    change (s.setEntry a none).idAt b = some c
    rw [idAt_setEntry, Function.update_of_ne]
    · exact hid
    · rintro rfl
      refine hr.sound.unlinked (.inl t) b ?_ hb
      change (s.clients t).retires = some b
      rw [hphase]
      rfl
  | _ => exact h.frame rfl rfl (fun _ => rfl) id

/-- An entry that a thread holds is the one it found. -/
theorem Registry.held_id (hr : Registry s) {u : Nat ⊕ Nat} {a : Addr} {c : Nat}
    {e : ResponseQueueEntry} (hheld : (handles s).held u = some (a, c)) (hmem : s.mem a = some e) :
    e.clientId = c := by
  have howner : s.idAt a = some c := (hr.sound.held u a c hheld).2
  unfold Server.idAt at howner
  rw [hmem] at howner
  exact Option.some.inj howner

def AllMatching (s : Server) : Prop := ∀ a e, s.mem a = some e → Matching e

theorem AllMatching.setEntry (h : AllMatching s) {a : Addr} {o : Option ResponseQueueEntry}
    (hmem : s'.mem = Function.update s.mem a o) (ho : ∀ e, o = some e → Matching e) :
    AllMatching s' := by
  intro b e hb
  rw [hmem] at hb
  rcases HandleTable.update_eq_some hb with ⟨_, heq⟩ | ⟨_, hb⟩
  · exact ho e heq
  · exact h b e hb

theorem Moves.matching {action : Action} (hm : Moves s action s') (hr : Registry s)
    (h : AllMatching s) : AllMatching s' := by
  cases hm with
  | acceptRegistered _ _ _ _ _ =>
    apply h.setEntry rfl
    intro e he
    cases he
    intro r hr
    contradiction
  | @deliver t ci a e r q _ hmem hperm =>
    apply h.setEntry rfl
    intro e' he'
    cases he'
    intro x hx
    exact h a e hmem x (hperm.mem_iff.mp (List.mem_cons_of_mem r hx))
  | @push w grows a r rest e q hphase hmem hadd =>
    apply h.setEntry rfl
    intro e' he'
    cases he'
    intro x hx
    rcases hadd with rfl | hperm
    · exact h a e hmem x hx
    rcases List.mem_cons.mp (hperm.mem_iff.mp hx) with rfl | hx
    · have hheld : (handles s).held (.inr w) = some (a, x.response.clientId) := by
        change (s.workers w).holds = _
        rw [hphase]
        rfl
      exact (hr.held_id hheld hmem).symm
    · exact h a e hmem x hx
  | @closeEntry t a _ =>
    apply h.setEntry rfl
    intro e he
    obtain ⟨e₀, hmem, rfl⟩ := Option.map_eq_some_iff.mp he
    exact h a e₀ hmem
  | free _ =>
    apply h.setEntry rfl
    intro e he
    contradiction
  | _ => exact h

def AllDelivered (s : Server) : Prop :=
  ∀ w ∈ s.written, ∀ r, w.line = .reply r → w.owner = some r.response.clientId

theorem AllDelivered.write (h : AllDelivered s) {fd c : Nat} {line : Line}
    (hline : ∀ r, line = .reply r → s.sockets fd = some r.response.clientId) :
    AllDelivered (s.write fd c line) := by
  intro w hw r hr
  rcases List.mem_cons.mp hw with rfl | hw
  · exact hline r hr
  · exact h w hw r hr

theorem Moves.delivered {action : Action} (hm : Moves s action s') (hr : Registry s)
    (hmatching : AllMatching s) (h : AllDelivered s) : AllDelivered s' := by
  cases hm with
  | taskUnallocated _ => exact h.write (by simp)
  | timeOut _ => exact h.write (by simp)
  | sendFile _ => exact h.write (by simp)
  | @deliver t ci a e r q hphase hmem hperm =>
    refine AllDelivered.write (s := s.setEntry a _) h ?_
    intro r' heq
    cases heq
    have hheld : (handles s).held (.inl t) = some (a, ci.clientId) := by
      change (s.clients t).awaits = _
      rw [hphase]
      rfl
    have hsocket := (hr.life.served t ci.clientId (some ci.socketFd) (by rw [hphase]; rfl)).2
    have hid := hmatching a e hmem r (hperm.mem_iff.mp List.mem_cons_self)
    rw [hid, hr.held_id hheld hmem]
    exact hsocket _ rfl
  | _ => exact h

end Steps

/-- What an unlinking step removes: the entry of its connection and no other. -/
def RemovesOnly (s s' : Server) (c : Nat) : Prop :=
  ∃ a, s.idAt a = some c ∧ s.responseMap.contents.Perm (a :: s'.responseMap.contents) ∧
    s'.mem = s.mem ∧ ∀ b ∈ s'.responseMap.contents, s.idAt b ≠ some c

theorem Registry.removesOnly {s s' : Server} (hr : Registry s) (hcomplete : Complete s)
    {cmp : Comparators Id} {t c : Nat} (hphase : s.clients t = .deregistering c)
    (hstep : serverStep s (cmp, .unlink t) = some s') : RemovesOnly s s' c := by
  have hm : Moves s (.unlink t) s' := serverStep_moves hstep
  cases hm with
  | @unlink _ d a map hphase' hid hperm _ =>
    cases hphase.symm.trans hphase'
    exact ⟨a, hid, hperm, rfl, hr.sound.unlinked_rest hperm hid⟩
  | @unlinkMissing _ d hphase' hnone =>
    cases hphase.symm.trans hphase'
    have hserved := (hr.life.served t c none (by rw [hphase]; rfl)).1
    obtain ⟨a, ha, hid⟩ := hcomplete.entries c (by rw [hserved]; rfl)
    exact absurd hid (hnone a ha)

theorem responses_routed_when_calm (store : UserStore) (s : Server)
    (h : ServerReached (fun s l => Calm s l ∧ l.2.allocates = true) store s) :
    Routed s ∧ ∀ s' cmp t c, s.clients t = .deregistering c →
      serverStep s (cmp, .unlink t) = some s' → RemovesOnly s s' c := by
  have hregistry : ∀ {s}, ServerReached (fun s l => Calm s l ∧ l.2.allocates = true) store s → Registry s :=
    registry_reached fun _ _ h => h.1
  have hcomplete : Complete s := by
    apply h.invariant
    · refine ⟨?_, fun _ => rfl⟩
      intro c hc
      contradiction
    · intro s s' l hreach hc hl hstep
      exact (serverStep_moves hstep).complete (hregistry hreach) hc hl.2
  have hrouted : AllMatching s ∧ AllDelivered s := by
    apply h.invariant (I := fun s => AllMatching s ∧ AllDelivered s)
    · refine ⟨?_, ?_⟩
      · intro a e he
        contradiction
      · intro w hw
        contradiction
    · intro s s' l hreach hs _ hstep
      have hm := serverStep_moves hstep
      have hr := hregistry hreach
      exact ⟨hm.matching hr hs.1, hm.delivered hr hs.1 hs.2⟩
  have hr := hregistry h
  refine ⟨⟨hr.count hcomplete, hrouted.1, hrouted.2⟩, ?_⟩
  intro s' cmp t c hphase hstep
  exact hr.removesOnly hcomplete hphase hstep

/-- A request is answered and the client hangs up. -/
def askedAndAnswered : List (Comparators Id × Action) :=
  askedAndFound ++ [.push 0 true, .deliver 0, .endOfStream 0, .closeSocket 0].map
    (Prod.mk taskComparators)

theorem routed_after_answer :
    ∃ s s', ServerReached (fun s l => Calm s l ∧ l.2.allocates = true) emptyStore s ∧
      s.clients 0 = .deregistering 1 ∧ serverStep s (taskComparators, .unlink 0) = some s' ∧
      Routed s ∧ RemovesOnly s s' 1 := by
  have hview : (exec serverStep (serverInit emptyStore) askedAndAnswered).map
      (fun s => (s.clients 0, (serverStep s (taskComparators, .unlink 0)).isSome)) =
      some (.deregistering 1, true) := by
    decide +kernel
  obtain ⟨s, hexec, hs⟩ := Option.map_eq_some_iff.mp hview
  obtain ⟨hphase, hsome⟩ := Prod.mk.inj hs
  obtain ⟨s', hunlink⟩ := Option.isSome_iff_exists.mp hsome
  have hreach : ServerReached (fun s l => Calm s l ∧ l.2.allocates = true) emptyStore s := by
    refine .of_exec .start (guarded_of_forall ?_ _) hexec
    intro l hl s
    have hall : askedAndAnswered.all (fun l => !l.2.unlinks && l.2.allocates) = true := rfl
    obtain ⟨hunlinks, halloc⟩ : l.2.unlinks = false ∧ l.2.allocates = true := by
      simpa using List.all_eq_true.mp hall l hl
    exact ⟨calm_of_not_unlinks hunlinks s, halloc⟩
  obtain ⟨hrouted, hremoves⟩ := responses_routed_when_calm emptyStore s hreach
  exact ⟨s, s', hreach, hphase, hunlink, hrouted, hremoves s' taskComparators 0 1 hphase hunlink⟩

def Line.replyId : Line → Option Nat
  | .reply r => some r.response.clientId
  | _ => none

def addressReused : List (Comparators Id × Action) :=
  askedAndLeft ++ [.unlink 0, .closeEntry 0, .free 0, .accept 5 (some 0) true, .push 0 true,
    .enqueue true, .takeClient 0, .command 0 (cstr "LIST bob") ⟨1, 0⟩ true, .findEntry 0,
    .deliver 0].map (Prod.mk taskComparators)

/-- The freed entry's address is used again for the next connection, which then
receives the response meant for the first. -/
theorem response_reaches_other_client :
    ¬ ∀ store s, ServerReached (fun _ l => l.2.allocates = true) store s → Routed s := by
  intro h
  have hview : (exec serverStep (serverInit emptyStore) addressReused).map (fun s =>
      s.written.head?.map fun w => (w.owner, w.line.replyId)) = some (some (some 2, some 1)) := by
    decide +kernel
  obtain ⟨s, hexec, hs⟩ := Option.map_eq_some_iff.mp hview
  obtain ⟨w, hw, heq⟩ := Option.map_eq_some_iff.mp hs
  obtain ⟨howner, hid⟩ := Prod.mk.inj heq
  have hreach : ServerReached (fun _ l => l.2.allocates = true) emptyStore s := by
    refine .of_exec .start (guarded_of_forall ?_ _) hexec
    intro l hl _
    have hall : addressReused.all (fun l => l.2.allocates) = true := rfl
    exact List.all_eq_true.mp hall l hl
  cases hline : w.line with
  | reply r =>
    have hdelivered := (h emptyStore s hreach).delivered w (List.mem_of_mem_head? hw) r hline
    rw [hline] at hid
    rw [howner] at hdelivered
    exact absurd (hdelivered.trans hid) (by decide)
  | _ =>
    rw [hline] at hid
    contradiction

end FileServer
