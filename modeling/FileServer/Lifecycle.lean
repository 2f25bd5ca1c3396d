import FileServer.ServerMoves

/-!
# The life of a connection

A connection is owned by one place at a time: the main thread, the client queue,
or the client thread that serves it until it has deregistered it.
-/

namespace FileServer

set_option autoImplicit false

/-- The connection a client thread owns and its descriptor while that is open. -/
def ClientPhase.conn : ClientPhase → Option (Nat × Option Nat)
  | .reading ci | .submitted ci | .waiting ci _ | .closing ci => some (ci.clientId, some ci.socketFd)
  | .deregistering c => some (c, none)
  | .idle | .unlinked _ | .closed _ | .exited => none

structure Lifecycle (s : Server) : Prop where
  unborn : ∀ c, s.nextClientId ≤ c → s.stage c = .unborn
  accepted : ∀ ci, s.main = .accepted ci →
    s.stage ci.clientId = .accepted ∧ s.sockets ci.socketFd = some ci.clientId
  queued : ∀ ci ∈ s.clientQueue.contents,
    s.stage ci.clientId = .queued ∧ s.sockets ci.socketFd = some ci.clientId
  distinct : (s.clientQueue.contents.map ClientInfo.clientId).Nodup
  served : ∀ t c fd, (s.clients t).conn = some (c, fd) →
    s.stage c = .served t ∧ ∀ d ∈ fd, s.sockets d = some c

theorem lifecycle_init (store : UserStore) : Lifecycle (serverInit store) := by
  refine ⟨fun _ _ => rfl, ?_, ?_, List.nodup_nil, ?_⟩
  · intro ci h
    contradiction
  · intro ci h
    contradiction
  · intro t c fd h
    contradiction

section Steps
variable {s s' : Server}

theorem update_view {β γ : Type} (f : Nat → β) (g : β → γ) {x : Nat} {b : β} (h : g b = g (f x)) :
    ∀ y, g (Function.update f x b y) = g (f y) := by
  intro y
  rcases eq_or_ne y x with rfl | hne
  · rw [Function.update_self, h]
  · rw [Function.update_of_ne hne]

theorem Lifecycle.frame (h : Lifecycle s) (hstage : s'.stage = s.stage)
    (hnext : s'.nextClientId = s.nextClientId) (hsockets : s'.sockets = s.sockets)
    (hmain : s'.main = s.main ∨ ∀ ci, s'.main ≠ .accepted ci)
    (hqueue : s'.clientQueue.contents = s.clientQueue.contents)
    (hconn : ∀ t, (s'.clients t).conn = (s.clients t).conn) : Lifecycle s' := by
  constructor
  · rw [hstage, hnext]
    exact h.unborn
  · intro ci hci
    rw [hstage, hsockets]
    rcases hmain with hmain | hmain
    · exact h.accepted ci (hmain ▸ hci)
    · exact absurd hci (hmain ci)
  · rw [hqueue, hstage, hsockets]
    exact h.queued
  · rw [hqueue]
    exact h.distinct
  · intro t c fd hc
    rw [hstage, hsockets]
    exact h.served t c fd (hconn t ▸ hc)

/-- A stage that is known differs from that of a connection which moves on. -/
theorem stage_ne {c d : Nat} {a b : Stage} (hc : s.stage c = a) (hd : s.stage d = b) (h : a ≠ b) :
    c ≠ d := by
  rintro rfl
  exact h (hc.symm.trans hd)

theorem Lifecycle.acceptOn (h : Lifecycle s) {fd : Nat} (hfd : s.sockets fd = none) :
    Lifecycle (s.acceptOn fd) := by
  have hfresh : s.stage s.nextClientId = .unborn := h.unborn _ (Nat.le_refl _)
  have hopen : ∀ {d c : Nat}, s.sockets d = some c →
      Function.update s.sockets fd (some s.nextClientId) d = some c := by
    intro d c hd
    rw [Function.update_of_ne ?_ _ _]
    · exact hd
    · rintro rfl
      rw [hfd] at hd
      contradiction
  have hstage : ∀ {c : Nat} {a : Stage}, s.stage c = a → a ≠ .unborn →
      Function.update s.stage s.nextClientId .accepted c = a := by
    intro c a hc ha
    rw [Function.update_of_ne (stage_ne hc hfresh ha)]
    exact hc
  constructor
  · intro c hc
    have hlt : s.nextClientId < c := hc
    change Function.update s.stage s.nextClientId .accepted c = .unborn
    rw [Function.update_of_ne (Nat.ne_of_gt hlt)]
    exact h.unborn c (Nat.le_of_lt hlt)
  · intro ci hci
    cases hci
    exact ⟨Function.update_self _ _ _, Function.update_self _ _ _⟩
  · intro ci hci
    obtain ⟨h₁, h₂⟩ := h.queued ci hci
    exact ⟨hstage h₁ (by simp), hopen h₂⟩
  · exact h.distinct
  · intro t c d hc
    obtain ⟨h₁, h₂⟩ := h.served t c d hc
    exact ⟨hstage h₁ (by simp), fun x hx => hopen (h₂ x hx)⟩

theorem Lifecycle.enqueue (h : Lifecycle s) {ci : ClientInfo} {q : Queue ClientInfo}
    (hmain : s.main = .accepted ci) (hadd : Added ci s.clientQueue q) :
    Lifecycle ({ s with clientQueue := q, main := .accepting }.setStage ci.clientId .queued) := by
  obtain ⟨hci, hfd⟩ := h.accepted ci hmain
  have hstage : ∀ {c : Nat} {a : Stage}, s.stage c = a → a ≠ .accepted →
      Function.update s.stage ci.clientId .queued c = a := by
    intro c a hc ha
    rw [Function.update_of_ne (stage_ne hc hci ha)]
    exact hc
  have hmem : ∀ x ∈ q.contents, x = ci ∨ x ∈ s.clientQueue.contents := by
    intro x hx
    rcases hadd with rfl | hperm
    · exact Or.inr hx
    · exact List.mem_cons.mp (hperm.mem_iff.mp hx)
  constructor
  · intro c hc
    have hne := stage_ne (h.unborn c hc) hci (by simp)
    exact (Function.update_of_ne hne _ _).trans (h.unborn c hc)
  · intro x hx
    cases hx
  · intro x hx
    rcases hmem x hx with rfl | hx
    · exact ⟨Function.update_self _ _ _, hfd⟩
    · obtain ⟨h₁, h₂⟩ := h.queued x hx
      exact ⟨hstage h₁ (by simp), h₂⟩
  · rcases hadd with rfl | hperm
    · exact h.distinct
    · apply (hperm.map _).nodup_iff.mpr
      rw [List.map_cons]
      refine List.nodup_cons.mpr ⟨?_, h.distinct⟩
      intro hin
      obtain ⟨x, hx, heq⟩ := List.mem_map.mp hin
      exact stage_ne (h.queued x hx).1 hci (by simp) heq
  · intro t c d hc
    obtain ⟨h₁, h₂⟩ := h.served t c d hc
    exact ⟨hstage h₁ (by simp), h₂⟩

theorem Lifecycle.takeClient (h : Lifecycle s) {t : Nat} {ci : ClientInfo} {q : Queue ClientInfo}
    (hperm : (ci :: q.contents).Perm s.clientQueue.contents) :
    Lifecycle (({ s with clientQueue := q }.setClient t (.reading ci)).setStage ci.clientId
      (.served t)) := by
  obtain ⟨hci, hfd⟩ := h.queued ci (hperm.mem_iff.mp List.mem_cons_self)
  have hdistinct := (hperm.map ClientInfo.clientId).nodup_iff.mpr h.distinct
  rw [List.map_cons] at hdistinct
  obtain ⟨hout, hnodup⟩ := List.nodup_cons.mp hdistinct
  have hstage : ∀ {c : Nat} {a : Stage}, s.stage c = a → c ≠ ci.clientId →
      Function.update s.stage ci.clientId (.served t) c = a := by
    intro c a hc hne
    rw [Function.update_of_ne hne]
    exact hc
  constructor
  · intro c hc
    have hne := stage_ne (h.unborn c hc) hci (by simp)
    exact (Function.update_of_ne hne _ _).trans (h.unborn c hc)
  · intro x hx
    obtain ⟨h₁, h₂⟩ := h.accepted x hx
    exact ⟨hstage h₁ (stage_ne h₁ hci (by simp)), h₂⟩
  · intro x hx
    obtain ⟨h₁, h₂⟩ := h.queued x (hperm.mem_iff.mp (List.mem_cons_of_mem _ hx))
    refine ⟨hstage h₁ ?_, h₂⟩
    intro heq
    exact hout (heq ▸ List.mem_map_of_mem hx)
  · exact hnodup
  · intro u c d hc
    change (Function.update s.clients t (.reading ci) u).conn = some (c, d) at hc
    rcases eq_or_ne u t with rfl | hne
    · rw [Function.update_self] at hc
      cases hc
      refine ⟨Function.update_self _ _ _, ?_⟩
      intro x hx
      cases hx
      exact hfd
    · rw [Function.update_of_ne hne] at hc
      obtain ⟨h₁, h₂⟩ := h.served u c d hc
      exact ⟨hstage h₁ (stage_ne h₁ hci (by simp)), h₂⟩

theorem Lifecycle.closeSocket (h : Lifecycle s) {t : Nat} {ci : ClientInfo}
    (hclosing : s.clients t = .closing ci) :
    Lifecycle ({ s with sockets := Function.update s.sockets ci.socketFd none }.setClient t
      (.deregistering ci.clientId)) := by
  obtain ⟨hci, hfd⟩ := h.served t ci.clientId (some ci.socketFd) (by rw [hclosing]; rfl)
  have hopen : ∀ {d c : Nat}, s.sockets d = some c → c ≠ ci.clientId →
      Function.update s.sockets ci.socketFd none d = some c := by
    intro d c hd hne
    rw [Function.update_of_ne ?_ _ _]
    · exact hd
    · rintro rfl
      rw [hfd _ rfl] at hd
      exact hne (Option.some.inj hd).symm
  constructor
  · exact h.unborn
  · intro x hx
    obtain ⟨h₁, h₂⟩ := h.accepted x hx
    exact ⟨h₁, hopen h₂ (stage_ne h₁ hci (by simp))⟩
  · intro x hx
    obtain ⟨h₁, h₂⟩ := h.queued x hx
    exact ⟨h₁, hopen h₂ (stage_ne h₁ hci (by simp))⟩
  · exact h.distinct
  · intro u c d hc
    change (Function.update s.clients t (.deregistering ci.clientId) u).conn = some (c, d) at hc
    rcases eq_or_ne u t with rfl | hne
    · rw [Function.update_self] at hc
      cases hc
      exact ⟨hci, by simp⟩
    · rw [Function.update_of_ne hne] at hc
      obtain ⟨h₁, h₂⟩ := h.served u c d hc
      refine ⟨h₁, fun x hx => hopen (h₂ x hx) (stage_ne h₁ hci ?_)⟩
      simpa using hne

/-- The end of a connection: its thread gives it up. -/
theorem Lifecycle.deregister (h : Lifecycle s) {t c : Nat} {p : ClientPhase}
    (hderegistering : s.clients t = .deregistering c) (hp : p.conn = none)
    (hstage' : s'.stage = Function.update s.stage c .deregistered)
    (hnext : s'.nextClientId = s.nextClientId) (hsockets : s'.sockets = s.sockets)
    (hmain : s'.main = s.main) (hqueue : s'.clientQueue = s.clientQueue)
    (hclients : s'.clients = Function.update s.clients t p) : Lifecycle s' := by
  obtain ⟨hc, _⟩ := h.served t c none (by rw [hderegistering]; rfl)
  have hstage : ∀ {d : Nat} {a : Stage}, s.stage d = a → a ≠ .served t → s'.stage d = a := by
    intro d a hd ha
    rw [hstage', Function.update_of_ne (stage_ne hd hc ha)]
    exact hd
  constructor
  · intro d hd
    rw [hnext] at hd
    exact hstage (h.unborn d hd) (by simp)
  · intro x hx
    obtain ⟨h₁, h₂⟩ := h.accepted x (hmain ▸ hx)
    exact ⟨hstage h₁ (by simp), hsockets ▸ h₂⟩
  · intro x hx
    obtain ⟨h₁, h₂⟩ := h.queued x (hqueue ▸ hx)
    exact ⟨hstage h₁ (by simp), hsockets ▸ h₂⟩
  · rw [hqueue]
    exact h.distinct
  · intro u d fd hu
    rw [hclients] at hu
    rcases eq_or_ne u t with rfl | hne
    · rw [Function.update_self, hp] at hu
      contradiction
    · rw [Function.update_of_ne hne] at hu
      obtain ⟨h₁, h₂⟩ := h.served u d fd hu
      exact ⟨hstage h₁ (by simpa using hne), fun x hx => hsockets ▸ h₂ x hx⟩

theorem Moves.lifecycle {action : Action} (hm : Moves s action s') (h : Lifecycle s) :
    Lifecycle s' := by
  cases hm with
  | acceptRegistered _ hfd _ _ _ =>
    refine Lifecycle.acceptOn ?_ ?_
    · exact h.frame rfl rfl rfl (Or.inl rfl) rfl fun _ => rfl
    · exact hfd
  | acceptUnregistered _ hfd _ => exact h.acceptOn hfd
  | enqueue hmain hadd => exact h.enqueue hmain hadd
  | interrupt _ => exact h.frame rfl rfl rfl (Or.inr (by simp)) rfl fun _ => rfl
  | closeTasks _ => exact h.frame rfl rfl rfl (Or.inr (by simp)) rfl fun _ => rfl
  | closeMap _ => exact h.frame rfl rfl rfl (Or.inr (by simp)) rfl fun _ => rfl
  | takeClient _ hperm => exact h.takeClient hperm
  | closeSocket hclosing => exact h.closeSocket hclosing
  | unlink hderegistering _ _ _ =>
    exact h.deregister hderegistering rfl rfl rfl rfl rfl rfl rfl
  | unlinkMissing hderegistering _ =>
    exact h.deregister hderegistering rfl rfl rfl rfl rfl rfl rfl
  | exitClient hphase | quit hphase _ | submit hphase _ _ | endOfStream hphase | foundEntry hphase _
  | missedEntry hphase _ | deliver hphase _ _ | timeOut hphase | timeOutSilent hphase
  | waitFails hphase | closeEntry hphase | free hphase =>
    refine h.frame rfl rfl rfl (Or.inl rfl) rfl (update_view s.clients _ ?_)
    rw [hphase]
    rfl
  | _ => exact h.frame rfl rfl rfl (Or.inl rfl) rfl fun _ => rfl

end Steps

end FileServer
