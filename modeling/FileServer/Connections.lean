import FileServer.Shutdown

/-!
# What is left of the connections (main.c, client.c)

A client thread that takes a connection closes its socket and frees its response entry
before it takes another one or exits. The threads exit when the client queue is closed and
empty, so nothing is left then but the connections that the queue did not take because its
`realloc` failed: `main` ignores the result of its `queue_push`, and nobody knows their
sockets any more. Their entries are what the loop at the end of `main` finds.
-/

namespace FileServer

open Runs
set_option autoImplicit false

/-- The connection that `main` fails to queue because the array of the queue cannot grow. -/
def refusals (s : Server) (l : Comparators Id × Action) (s' : Server) : List Nat :=
  match l.2, s.main with
  | .enqueue false, .accepted ci =>
    if s'.clientQueue.size = s.clientQueue.size then [ci.clientId] else []
  | _, _ => []

/-- Runs of calm steps, with the connections that were not queued. -/
abbrev ConnectionsReached (store : UserStore) (r : Server × List Nat) : Prop :=
  Reached (logged serverStep refusals) (fun r => Calm r.1) (serverInit store, []) r

def ClientsExited (n : Nat) (s : Server) : Prop :=
  0 < n ∧ (∀ t < n, s.clients t = .exited) ∧ ∀ t, n ≤ t → s.clients t = .idle

/-- The loop of `main` over the entries that are left in the map. -/
def freeRemaining (s : Server) : Server :=
  s.responseMap.contents.foldl (fun s a => s.setEntry a none) s

section Queue
variable {cmp : Comparators Id} {l : Comparators Id × Action} {s s' : Server}

theorem enqueue_cases {grows : Bool} (h : serverStep s (cmp, .enqueue grows) = some s') :
    ∃ ci q, s.main = .accepted ci ∧ q.closed = s.clientQueue.closed ∧ Added ci s.clientQueue q ∧
      s' = { s with clientQueue := q, main := .accepting }.setStage ci.clientId .queued := by
  unfold serverStep step at h
  dsimp only at h
  split at h
  · rename_i ci hmain
    rcases queuePush_cases cmp.client grows s.clientQueue ci .normal with
      ⟨he, -⟩ | ⟨q, he, hopen, hstill, hperm⟩
    · rw [eq_of_run he] at h
      cases h
      exact ⟨ci, s.clientQueue, hmain, rfl, Or.inl rfl, rfl⟩
    · rw [eq_of_run he] at h
      cases h
      exact ⟨ci, q, hmain, hstill.trans hopen.symm, Or.inr hperm, rfl⟩
  · contradiction

theorem enqueue_grows (h : serverStep s (cmp, .enqueue true) = some s')
    (hopen : s.clientQueue.closed = false) : s'.clientQueue.size ≠ s.clientQueue.size := by
  unfold serverStep step at h
  dsimp only at h
  split at h
  · rename_i ci hmain
    rcases queuePush_cases cmp.client true s.clientQueue ci .normal with
      ⟨-, hclosed | hfull⟩ | ⟨q, he, -, -, hperm⟩
    · rw [hopen] at hclosed
      contradiction
    · contradiction
    · rw [eq_of_run he] at h
      cases h
      have hlength := hperm.length_eq
      simp only [Queue.contents, List.length_map, Vector.length_toList, List.length_cons] at hlength
      change q.size ≠ s.clientQueue.size
      omega
  · contradiction

theorem takeClient_cases {t : Nat} (h : serverStep s (cmp, .takeClient t) = some s') :
    s.clients t = .idle ∧
      (s.clientQueue.closed = true ∧ s.clientQueue.contents = [] ∧ s' = s.setClient t .exited ∨
        ∃ ci q, q.closed = s.clientQueue.closed ∧ (ci :: q.contents).Perm s.clientQueue.contents ∧
          s' = ({ s with clientQueue := q }.setClient t (.reading ci)).setStage ci.clientId
            (.served t)) := by
  unfold serverStep step at h
  dsimp only at h
  split at h
  · rename_i hidle
    rcases queuePop_cases cmp.client s.clientQueue with
      ⟨he, -⟩ | ⟨he, hempty, hclosed⟩ | ⟨ci, q, he, hclosed, hperm⟩
    · rw [eq_of_run he] at h
      contradiction
    · rw [eq_of_run he] at h
      cases h
      exact ⟨hidle, Or.inl ⟨hclosed, hempty, rfl⟩⟩
    · rw [eq_of_run he] at h
      cases h
      exact ⟨hidle, Or.inr ⟨ci, q, hclosed, hperm, rfl⟩⟩
  · contradiction

end Queue

/-- The client queue is open as long as `main` accepts, and a client thread only exits because
it is closed and empty. -/
structure Closing (s : Server) : Prop where
  accepting : s.main = .accepting → s.clientQueue.closed = false
  accepted : ∀ ci, s.main = .accepted ci → s.clientQueue.closed = false
  exited : ∀ t, s.clients t = .exited → s.clientQueue.closed = true ∧ s.clientQueue.contents = []

section Closing
variable {l : Comparators Id × Action} {s s' : Server}

theorem Closing.frame (h : Closing s) (hqueue : s'.clientQueue = s.clientQueue)
    (hmain : s'.main = s.main ∨ s.main = .accepting ∧ (∃ ci, s'.main = .accepted ci))
    (hclients : ∀ t, s'.clients t = .exited → s.clients t = .exited) : Closing s' := by
  rcases hmain with hmain | ⟨hmain, hmain'⟩
  · refine ⟨?_, ?_, ?_⟩
    · rw [hmain, hqueue]
      exact h.accepting
    · rw [hmain, hqueue]
      exact h.accepted
    · rw [hqueue]
      exact fun t ht => h.exited t (hclients t ht)
  · obtain ⟨ci, hci⟩ := hmain'
    refine ⟨?_, ?_, ?_⟩
    · rw [hci]
      nofun
    · rw [hqueue]
      exact fun _ _ => h.accepting hmain
    · rw [hqueue]
      exact fun t ht => h.exited t (hclients t ht)

theorem Closing.of_stopping (haccepting : s.main ≠ .accepting) (haccepted : ∀ ci, s.main ≠ .accepted ci)
    (hexited : ∀ t, s.clients t = .exited → s.clientQueue.closed = true ∧ s.clientQueue.contents = []) :
    Closing s :=
  ⟨fun hmain => absurd hmain haccepting, fun ci hmain => absurd hmain (haccepted ci), hexited⟩

theorem closing_step (h : Closing s) (hstep : serverStep s l = some s') : Closing s' := by
  obtain ⟨cmp, action⟩ := l
  have hm := serverStep_moves hstep
  cases hm with
  | acceptRegistered hmain _ _ _ _ =>
    exact h.frame rfl (Or.inr ⟨hmain, _, rfl⟩) fun _ ht => ht
  | acceptUnregistered hmain _ _ => exact h.frame rfl (Or.inr ⟨hmain, _, rfl⟩) fun _ ht => ht
  | enqueue _ _ =>
    obtain ⟨ci, q, hmain, hclosed, -, heq⟩ := enqueue_cases hstep
    rw [heq]
    have hopen := h.accepted ci hmain
    refine ⟨fun _ => hclosed.trans hopen, ?_, ?_⟩
    · intro _ hother
      cases hother
    · intro t ht
      rw [(h.exited t ht).1] at hopen
      contradiction
  | interrupt hmain =>
    apply Closing.of_stopping (by simp) (by simp)
    intro t ht
    have hclosed := (h.exited t ht).1
    rw [h.accepting hmain] at hclosed
    contradiction
  | closeTasks _ => exact .of_stopping (by simp) (by simp) h.exited
  | closeMap _ => exact .of_stopping (by simp) (by simp) h.exited
  | @exitClient t _ =>
    obtain ⟨-, ⟨hclosed, hempty, -⟩ | ⟨ci, q, -, -, heq⟩⟩ := takeClient_cases hstep
    · exact ⟨h.accepting, h.accepted, fun _ _ => ⟨hclosed, hempty⟩⟩
    · have hphase := congrArg (fun s => s.clients t) heq
      simp [Server.setClient, Server.setStage] at hphase
  | @takeClient t ci q _ hperm =>
    obtain ⟨-, ⟨-, hempty, -⟩ | ⟨ci', q', hclosed, hperm', heq⟩⟩ := takeClient_cases hstep
    · rw [hempty] at hperm
      exact absurd hperm.eq_nil (List.cons_ne_nil _ _)
    · have hq : q = q' := congrArg Server.clientQueue heq
      subst hq
      refine ⟨fun hmain => hclosed.trans (h.accepting hmain),
        fun ci hmain => hclosed.trans (h.accepted ci hmain), ?_⟩
      intro u hu
      have hempty := (h.exited u (eq_of_update hu (by simp))).2
      rw [hempty] at hperm
      exact absurd hperm.eq_nil (List.cons_ne_nil _ _)
  | quit _ _ | submit _ _ _ | endOfStream _ | foundEntry _ _ | missedEntry _ _ | deliver _ _ _
  | timeOut _ | timeOutSilent _ | waitFails _ | closeSocket _ | unlink _ _ _ _ | unlinkMissing _ _
  | closeEntry _ | free _ =>
    refine h.frame rfl (Or.inl rfl) fun _ ht => eq_of_update ht ?_
    simp
  | _ => exact h.frame rfl (Or.inl rfl) fun _ ht => ht

end Closing

/-- Who has to do with a connection at each of its stages, and with a socket that is open. -/
structure Owned (s : Server) (refused : List Nat) : Prop where
  born : ∀ c, s.stage c = .unborn → c = 0 ∨ s.nextClientId ≤ c
  accepted : ∀ c, s.stage c = .accepted → ∃ fd, s.main = .accepted ⟨c, fd⟩
  queued : ∀ c, s.stage c = .queued → c ∈ refused ∨ ∃ ci ∈ s.clientQueue.contents, ci.clientId = c
  served : ∀ c t, s.stage c = .served t → ∃ fd, (s.clients t).conn = some (c, fd)
  opened : ∀ fd c, s.sockets fd = some c →
    s.main = .accepted ⟨c, fd⟩ ∨ s.stage c = .queued ∨ ∃ t, (s.clients t).conn = some (c, some fd)
  single : ∀ fd fd' c, s.sockets fd = some c → s.sockets fd' = some c → fd = fd'
  lost : ∀ c ∈ refused, s.stage c = .queued ∧ (∀ ci ∈ s.clientQueue.contents, ci.clientId ≠ c) ∧
    ∃ fd, s.sockets fd = some c

theorem owned_init (store : UserStore) : Owned (serverInit store) [] := by
  refine ⟨?_, nofun, nofun, nofun, nofun, nofun, nofun⟩
  intro c _
  rcases Nat.eq_zero_or_pos c with hzero | hpos
  · exact Or.inl hzero
  · exact Or.inr hpos

section Owned
variable {s s' : Server} {refused : List Nat}

theorem update_apply_of_ne {β : Type} {f : Nat → β} {x y : Nat} {a b : β} (h : f y = a) (hne : y ≠ x) :
    Function.update f x b y = a := by
  rw [Function.update_of_ne hne]
  exact h

theorem Owned.frame (h : Owned s refused) (hstage : s'.stage = s.stage)
    (hnext : s'.nextClientId = s.nextClientId) (hsockets : s'.sockets = s.sockets)
    (hmain : s'.main = s.main ∨ ∀ ci, s.main ≠ .accepted ci)
    (hqueue : s'.clientQueue.contents = s.clientQueue.contents)
    (hconn : ∀ t, (s'.clients t).conn = (s.clients t).conn) : Owned s' refused := by
  have hkept : ∀ ci, s.main = .accepted ci → s'.main = .accepted ci := by
    intro ci hci
    rcases hmain with hmain | hmain
    · exact hmain.trans hci
    · exact absurd hci (hmain ci)
  constructor
  · rw [hstage, hnext]
    exact h.born
  · rw [hstage]
    intro c hc
    obtain ⟨fd, hfd⟩ := h.accepted c hc
    exact ⟨fd, hkept _ hfd⟩
  · rw [hstage, hqueue]
    exact h.queued
  · rw [hstage]
    intro c t hc
    rw [hconn]
    exact h.served c t hc
  · rw [hsockets, hstage]
    intro fd c hc
    rcases h.opened fd c hc with hfd | hfd | ⟨t, ht⟩
    · exact Or.inl (hkept _ hfd)
    · exact Or.inr (Or.inl hfd)
    · exact Or.inr (Or.inr ⟨t, (hconn t).trans ht⟩)
  · rw [hsockets]
    exact h.single
  · rw [hstage, hqueue, hsockets]
    exact h.lost

theorem Owned.fresh (h : Owned s refused) (hl : Lifecycle s) (hmain : s.main = .accepting) (fd : Nat) :
    s.sockets fd ≠ some s.nextClientId := by
  have hunborn := hl.unborn _ (Nat.le_refl s.nextClientId)
  intro hfd
  rcases h.opened fd _ hfd with hold | hold | ⟨t, ht⟩
  · rw [hmain] at hold
    contradiction
  · rw [hunborn] at hold
    contradiction
  · rw [(hl.served t _ _ ht).1] at hunborn
    contradiction

theorem Owned.acceptOn (h : Owned s refused) (hl : Lifecycle s) (hmain : s.main = .accepting) {fd : Nat}
    (hfd : s.sockets fd = none) : Owned (s.acceptOn fd) refused := by
  have hunborn := hl.unborn _ (Nat.le_refl s.nextClientId)
  have hfresh := h.fresh hl hmain
  have hstage : ∀ {c a}, s.stage c = a → a ≠ .unborn → (s.acceptOn fd).stage c = a :=
    fun hc ha => update_apply_of_ne hc (stage_ne hc hunborn ha)
  have hback : ∀ {c a}, (s.acceptOn fd).stage c = a → a ≠ .accepted → c ≠ s.nextClientId ∧ s.stage c = a := by
    intro c a hc ha
    have hne : c ≠ s.nextClientId := by
      rintro rfl
      exact ha (hc.symm.trans (Function.update_self _ _ _))
    exact ⟨hne, (Function.update_of_ne hne _ _).symm.trans hc⟩
  have hopen : ∀ {d c}, (s.acceptOn fd).sockets d = some c →
      d = fd ∧ c = s.nextClientId ∨ s.sockets d = some c := by
    intro d c hd
    rcases HandleTable.update_eq_some hd with ⟨hdfd, hc⟩ | ⟨-, hd⟩
    · exact Or.inl ⟨hdfd, (Option.some.inj hc).symm⟩
    · exact Or.inr hd
  constructor
  · intro c hc
    obtain ⟨hne, hc⟩ := hback hc nofun
    rcases h.born c hc with hzero | hle
    · exact Or.inl hzero
    · exact Or.inr (Nat.lt_of_le_of_ne hle (Ne.symm hne))
  · intro c hc
    rcases eq_or_ne c s.nextClientId with rfl | hne
    · exact ⟨fd, rfl⟩
    · obtain ⟨d, hd⟩ := h.accepted c ((Function.update_of_ne hne _ _).symm.trans hc)
      rw [hmain] at hd
      contradiction
  · intro c hc
    exact h.queued c (hback hc nofun).2
  · intro c t hc
    exact h.served c t (hback hc nofun).2
  · intro d c hd
    rcases hopen hd with ⟨rfl, rfl⟩ | hd
    · exact Or.inl rfl
    · rcases h.opened d c hd with hold | hqueued | hconn
      · rw [hmain] at hold
        contradiction
      · exact Or.inr (Or.inl (hstage hqueued nofun))
      · exact Or.inr (Or.inr hconn)
  · intro d e c hd he
    rcases hopen hd with ⟨rfl, rfl⟩ | hold
    · rcases hopen he with ⟨rfl, -⟩ | hold
      · rfl
      · exact absurd hold (hfresh e)
    · rcases hopen he with ⟨-, rfl⟩ | hold'
      · exact absurd hold (hfresh d)
      · exact h.single d e c hold hold'
  · intro c hc
    obtain ⟨hqueued, hout, d, hd⟩ := h.lost c hc
    refine ⟨hstage hqueued nofun, hout, d, update_apply_of_ne hd ?_⟩
    rintro rfl
    rw [hfd] at hd
    contradiction

theorem Owned.enqueue (h : Owned s refused) (hl : Lifecycle s) {ci : ClientInfo} {q : Queue ClientInfo}
    (hmain : s.main = .accepted ci) (hadd : Added ci s.clientQueue q) :
    Owned ({ s with clientQueue := q, main := .accepting }.setStage ci.clientId .queued)
      (refused ++ if q.size = s.clientQueue.size then [ci.clientId] else []) := by
  obtain ⟨hci, hfd⟩ := hl.accepted ci hmain
  have hback : ∀ {c a}, Function.update s.stage ci.clientId .queued c = a → a ≠ .queued →
      c ≠ ci.clientId ∧ s.stage c = a := by
    intro c a hc ha
    have hne : c ≠ ci.clientId := by
      rintro rfl
      exact ha (hc.symm.trans (Function.update_self _ _ _))
    exact ⟨hne, (Function.update_of_ne hne _ _).symm.trans hc⟩
  have hnew : ∀ x ∈ s.clientQueue.contents, x.clientId ≠ ci.clientId :=
    fun x hx => stage_ne (hl.queued x hx).1 hci nofun
  have hmem : ∀ x ∈ q.contents, x = ci ∨ x ∈ s.clientQueue.contents := by
    intro x hx
    rcases hadd with rfl | hperm
    · exact Or.inr hx
    · exact List.mem_cons.mp (hperm.mem_iff.mp hx)
  have hgrown : ∀ x ∈ s.clientQueue.contents, x ∈ q.contents := by
    intro x hx
    rcases hadd with rfl | hperm
    · exact hx
    · exact hperm.mem_iff.mpr (List.mem_cons_of_mem ci hx)
  have hrefused : q.contents.Perm (ci :: s.clientQueue.contents) ∧ q.size ≠ s.clientQueue.size ∨
      q = s.clientQueue := by
    rcases hadd with rfl | hperm
    · exact Or.inr rfl
    · have hlength := hperm.length_eq
      simp only [length_contents, List.length_cons] at hlength
      exact Or.inl ⟨hperm, by omega⟩
  constructor
  · intro c hc
    exact h.born c (hback hc nofun).2
  · intro c hc
    obtain ⟨hne, hc⟩ := hback hc nofun
    obtain ⟨fd, hold⟩ := h.accepted c hc
    rw [hmain] at hold
    cases hold
    exact absurd rfl hne
  · intro c hc
    rcases eq_or_ne c ci.clientId with rfl | hne
    · rcases hrefused with ⟨hperm, -⟩ | rfl
      · exact Or.inr ⟨ci, hperm.mem_iff.mpr List.mem_cons_self, rfl⟩
      · rw [if_pos rfl]
        exact Or.inl (List.mem_append_right _ List.mem_cons_self)
    · rcases h.queued c ((Function.update_of_ne hne _ _).symm.trans hc) with hold | ⟨x, hx, hid⟩
      · exact Or.inl (List.mem_append_left _ hold)
      · exact Or.inr ⟨x, hgrown x hx, hid⟩
  · intro c t hc
    exact h.served c t (hback hc nofun).2
  · intro fd c hc
    right
    rcases h.opened fd c hc with hold | hqueued | hconn
    · rw [hmain] at hold
      cases hold
      exact Or.inl (Function.update_self _ _ _)
    · left
      rcases eq_or_ne c ci.clientId with rfl | hne
      · exact Function.update_self _ _ _
      · exact update_apply_of_ne hqueued hne
    · exact Or.inr hconn
  · exact h.single
  · intro c hc
    rcases List.mem_append.mp hc with hold | hlast
    · obtain ⟨hqueued, hout, hopen⟩ := h.lost c hold
      have hne := stage_ne hqueued hci nofun
      refine ⟨update_apply_of_ne hqueued hne, ?_, hopen⟩
      intro x hx
      rcases hmem x hx with rfl | hx
      · exact hne.symm
      · exact hout x hx
    · split at hlast
      · rename_i hsize
        obtain rfl := List.mem_singleton.mp hlast
        rcases hrefused with ⟨-, hgrew⟩ | rfl
        · exact absurd hsize hgrew
        · exact ⟨Function.update_self _ _ _, hnew, ci.socketFd, hfd⟩
      · contradiction

theorem Owned.takeClient (h : Owned s refused) (hl : Lifecycle s) {t : Nat} {ci : ClientInfo}
    {q : Queue ClientInfo} (hidle : s.clients t = .idle)
    (hperm : (ci :: q.contents).Perm s.clientQueue.contents) :
    Owned (({ s with clientQueue := q }.setClient t (.reading ci)).setStage ci.clientId (.served t))
      refused := by
  have htaken := hperm.mem_iff.mp List.mem_cons_self
  obtain ⟨hci, hfd⟩ := hl.queued ci htaken
  have hback : ∀ {c a}, Function.update s.stage ci.clientId (.served t) c = a → a ≠ .served t →
      c ≠ ci.clientId ∧ s.stage c = a := by
    intro c a hc ha
    have hne : c ≠ ci.clientId := by
      rintro rfl
      exact ha (hc.symm.trans (Function.update_self _ _ _))
    exact ⟨hne, (Function.update_of_ne hne _ _).symm.trans hc⟩
  have hconn : ∀ {u c fd}, (s.clients u).conn = some (c, fd) →
      (Function.update s.clients t (.reading ci) u).conn = some (c, fd) := by
    intro u c fd hu
    rw [Function.update_of_ne]
    · exact hu
    · rintro rfl
      rw [hidle] at hu
      contradiction
  have hself : (Function.update s.clients t (.reading ci) t).conn = some (ci.clientId, some ci.socketFd) := by
    rw [Function.update_self]
    rfl
  constructor
  · intro c hc
    exact h.born c (hback hc nofun).2
  · intro c hc
    exact h.accepted c (hback hc nofun).2
  · intro c hc
    obtain ⟨hne, hc⟩ := hback hc nofun
    rcases h.queued c hc with hold | ⟨x, hx, rfl⟩
    · exact Or.inl hold
    · right
      rcases List.mem_cons.mp (hperm.mem_iff.mpr hx) with rfl | hx
      · exact absurd rfl hne
      · exact ⟨x, hx, rfl⟩
  · intro c u hc
    rcases eq_or_ne c ci.clientId with rfl | hne
    · obtain rfl : t = u := by simpa [Server.setStage] using hc
      exact ⟨_, hself⟩
    · obtain ⟨fd, hu⟩ := h.served c u ((Function.update_of_ne hne _ _).symm.trans hc)
      exact ⟨fd, hconn hu⟩
  · intro fd c hc
    rcases h.opened fd c hc with hold | hqueued | ⟨u, hu⟩
    · exact Or.inl hold
    · right
      rcases eq_or_ne c ci.clientId with rfl | hne
      · obtain rfl := h.single _ _ _ hc hfd
        exact Or.inr ⟨t, hself⟩
      · exact Or.inl (update_apply_of_ne hqueued hne)
    · exact Or.inr (Or.inr ⟨u, hconn hu⟩)
  · exact h.single
  · intro c hc
    obtain ⟨hqueued, hout, hopen⟩ := h.lost c hc
    refine ⟨update_apply_of_ne hqueued (hout ci htaken).symm, ?_, hopen⟩
    intro x hx
    exact hout x (hperm.mem_iff.mp (List.mem_cons_of_mem ci hx))

theorem Owned.closeSocket (h : Owned s refused) (hl : Lifecycle s) {t : Nat} {ci : ClientInfo}
    (hclosing : s.clients t = .closing ci) :
    Owned ({ s with sockets := Function.update s.sockets ci.socketFd none }.setClient t
      (.deregistering ci.clientId)) refused := by
  obtain ⟨hci, hfd⟩ := hl.served t ci.clientId (some ci.socketFd) (by rw [hclosing]; rfl)
  have hback : ∀ {d c}, Function.update s.sockets ci.socketFd none d = some c →
      d ≠ ci.socketFd ∧ s.sockets d = some c := by
    intro d c hd
    rcases HandleTable.update_eq_some hd with ⟨-, hnone⟩ | hold
    · contradiction
    · exact hold
  refine ⟨h.born, h.accepted, h.queued, ?_, ?_, ?_, ?_⟩
  · intro c u hc
    obtain ⟨fd, hu⟩ := h.served c u hc
    rcases eq_or_ne u t with rfl | hne
    · rw [hclosing] at hu
      cases hu
      refine ⟨none, ?_⟩
      simp only [Server.setClient, Function.update_self]
      rfl
    · exact ⟨fd, (congrArg ClientPhase.conn (Function.update_of_ne hne _ _)).trans hu⟩
  · intro fd c hc
    obtain ⟨hne, hc⟩ := hback hc
    rcases h.opened fd c hc with hold | hqueued | ⟨u, hu⟩
    · exact Or.inl hold
    · exact Or.inr (Or.inl hqueued)
    · refine Or.inr (Or.inr ⟨u, (congrArg ClientPhase.conn (Function.update_of_ne ?_ _ _)).trans hu⟩)
      rintro rfl
      rw [hclosing] at hu
      cases hu
      exact hne rfl
  · intro d e c hd he
    exact h.single d e c (hback hd).2 (hback he).2
  · intro c hc
    obtain ⟨hqueued, hout, fd, hopen⟩ := h.lost c hc
    refine ⟨hqueued, hout, fd, update_apply_of_ne hopen ?_⟩
    rintro rfl
    rw [hfd _ rfl] at hopen
    cases hopen
    rw [hci] at hqueued
    contradiction

theorem Owned.deregister (h : Owned s refused) (hl : Lifecycle s) {t c : Nat} {p : ClientPhase}
    (hderegistering : s.clients t = .deregistering c)
    (hstage' : s'.stage = Function.update s.stage c .deregistered)
    (hnext : s'.nextClientId = s.nextClientId) (hsockets : s'.sockets = s.sockets)
    (hmain : s'.main = s.main) (hqueue : s'.clientQueue = s.clientQueue)
    (hclients : s'.clients = Function.update s.clients t p) : Owned s' refused := by
  obtain ⟨hc, -⟩ := hl.served t c none (by rw [hderegistering]; rfl)
  have hback : ∀ {d a}, s'.stage d = a → a ≠ .deregistered → d ≠ c ∧ s.stage d = a := by
    intro d a hd ha
    rw [hstage'] at hd
    have hne : d ≠ c := by
      rintro rfl
      exact ha (hd.symm.trans (Function.update_self _ _ _))
    exact ⟨hne, (Function.update_of_ne hne _ _).symm.trans hd⟩
  have hstage : ∀ {d}, s.stage d = .queued → s'.stage d = .queued := by
    intro d hd
    rw [hstage']
    exact update_apply_of_ne hd (stage_ne hd hc nofun)
  have hconn : ∀ {u d fd}, (s.clients u).conn = some (d, fd) → (d, fd) ≠ (c, none) →
      (s'.clients u).conn = some (d, fd) := by
    intro u d fd hu hne
    rw [hclients, Function.update_of_ne]
    · exact hu
    · rintro rfl
      rw [hderegistering] at hu
      exact hne (Option.some.inj hu).symm
  constructor
  · intro d hd
    rw [hnext]
    exact h.born d (hback hd nofun).2
  · intro d hd
    rw [hmain]
    exact h.accepted d (hback hd nofun).2
  · intro d hd
    rw [hqueue]
    exact h.queued d (hback hd nofun).2
  · intro d u hd
    obtain ⟨hne, hd⟩ := hback hd nofun
    obtain ⟨fd, hu⟩ := h.served d u hd
    exact ⟨fd, hconn hu fun heq => hne (Prod.mk.inj heq).1⟩
  · intro fd d hd
    rw [hsockets] at hd
    rw [hmain]
    rcases h.opened fd d hd with hold | hqueued | ⟨u, hu⟩
    · exact Or.inl hold
    · exact Or.inr (Or.inl (hstage hqueued))
    · exact Or.inr (Or.inr ⟨u, hconn hu nofun⟩)
  · rw [hsockets]
    exact h.single
  · intro d hd
    obtain ⟨hqueued, hout, hopen⟩ := h.lost d hd
    rw [hqueue, hsockets]
    exact ⟨hstage hqueued, hout, hopen⟩

theorem Moves.owned {action : Action} (hm : Moves s action s') (cmp : Comparators Id) (hl : Lifecycle s)
    (hgrows : action = .enqueue true → s'.clientQueue.size ≠ s.clientQueue.size)
    (h : Owned s refused) : Owned s' (refused ++ refusals s (cmp, action) s') := by
  cases hm with
  | @enqueue grows ci q hmain hadd =>
    have hlog : refusals s (cmp, .enqueue grows)
        ({ s with clientQueue := q, main := .accepting }.setStage ci.clientId .queued) =
          if q.size = s.clientQueue.size then [ci.clientId] else [] := by
      unfold refusals
      rw [hmain]
      cases grows with
      | false => rfl
      | true => exact (if_neg (hgrows rfl)).symm
    rw [hlog]
    exact h.enqueue hl hmain hadd
  | @acceptRegistered fd a _ map hmain hfd _ _ _ =>
    rw [refusals, List.append_nil]
    let s₁ := ({ s with responseMap := map } : Server).setEntry a (some ⟨s.nextClientId, queueInit⟩)
    have hl₁ : Lifecycle s₁ := hl.frame rfl rfl rfl (Or.inl rfl) rfl fun _ => rfl
    have h₁ : Owned s₁ refused := h.frame rfl rfl rfl (Or.inl rfl) rfl fun _ => rfl
    exact h₁.acceptOn hl₁ hmain hfd
  | acceptUnregistered hmain hfd _ =>
    rw [refusals, List.append_nil]
    exact h.acceptOn hl hmain hfd
  | interrupt hmain =>
    rw [refusals, List.append_nil]
    exact h.frame rfl rfl rfl (Or.inr (by simp [hmain])) rfl fun _ => rfl
  | closeTasks hmain =>
    rw [refusals, List.append_nil]
    exact h.frame rfl rfl rfl (Or.inr (by simp [hmain])) rfl fun _ => rfl
  | closeMap hmain =>
    rw [refusals, List.append_nil]
    exact h.frame rfl rfl rfl (Or.inr (by simp [hmain])) rfl fun _ => rfl
  | takeClient hidle hperm =>
    rw [refusals, List.append_nil]
    exact h.takeClient hl hidle hperm
  | closeSocket hclosing =>
    rw [refusals, List.append_nil]
    exact h.closeSocket hl hclosing
  | unlink hderegistering _ _ _ =>
    rw [refusals, List.append_nil]
    exact h.deregister hl hderegistering rfl rfl rfl rfl rfl rfl
  | unlinkMissing hderegistering _ =>
    rw [refusals, List.append_nil]
    exact h.deregister hl hderegistering rfl rfl rfl rfl rfl rfl
  | exitClient hphase | quit hphase _ | submit hphase _ _ | endOfStream hphase | foundEntry hphase _
  | missedEntry hphase _ | deliver hphase _ _ | timeOut hphase | timeOutSilent hphase
  | waitFails hphase | closeEntry hphase | free hphase =>
    rw [refusals, List.append_nil]
    refine h.frame rfl rfl rfl (Or.inl rfl) rfl (update_view s.clients _ ?_)
    rw [hphase]
    rfl
  | _ =>
    rw [refusals, List.append_nil]
    exact h.frame rfl rfl rfl (Or.inl rfl) rfl fun _ => rfl

end Owned

/-- An entry is in the map until a client thread has it to free. -/
def Kept (s : Server) : Prop :=
  ∀ a, s.mem a ≠ none → a ∈ s.responseMap.contents ∨ ∃ t, (s.clients t).retires = some a

section Kept
variable {s s' : Server}

theorem Kept.frame (h : Kept s) (hmap : s'.responseMap.contents = s.responseMap.contents)
    (hmem : ∀ a, s'.mem a ≠ none → s.mem a ≠ none)
    (hretires : ∀ t, (s'.clients t).retires = (s.clients t).retires) : Kept s' := by
  intro a ha
  rw [hmap]
  rcases h a (hmem a ha) with hlinked | ⟨t, ht⟩
  · exact Or.inl hlinked
  · exact Or.inr ⟨t, (hretires t).trans ht⟩

theorem live_of_update {a b : Addr} {e : Option ResponseQueueEntry} (he : s.mem a = none → e = none)
    (hb : Function.update s.mem a e b ≠ none) : s.mem b ≠ none := by
  rcases eq_or_ne b a with rfl | hne
  · rw [Function.update_self] at hb
    exact fun hnone => hb (he hnone)
  · rwa [Function.update_of_ne hne] at hb

theorem Moves.kept {action : Action} (hm : Moves s action s') (h : Kept s) : Kept s' := by
  cases hm with
  | @acceptRegistered fd a _ map _ _ _ hperm _ =>
    intro b hb
    rcases eq_or_ne b a with rfl | hne
    · exact Or.inl (hperm.mem_iff.mpr List.mem_cons_self)
    · have hlive : s.mem b ≠ none := by
        intro hnone
        exact hb ((Function.update_of_ne hne _ _).trans hnone)
      rcases h b hlive with hlinked | hretired
      · exact Or.inl (hperm.mem_iff.mpr (List.mem_cons_of_mem a hlinked))
      · exact Or.inr hretired
  | @unlink t c a map hderegistering _ hperm _ =>
    intro b hb
    rcases h b hb with hlinked | ⟨u, hu⟩
    · rcases List.mem_cons.mp (hperm.mem_iff.mp hlinked) with rfl | hlinked
      · refine Or.inr ⟨t, ?_⟩
        simp only [Server.setStage, Server.setClient, Function.update_self]
        rfl
      · exact Or.inl hlinked
    · refine Or.inr ⟨u, (congrArg ClientPhase.retires (Function.update_of_ne ?_ _ _)).trans hu⟩
      rintro rfl
      rw [hderegistering] at hu
      contradiction
  | @free t a hclosed =>
    intro b hb
    have hne : b ≠ a := by
      rintro rfl
      exact hb (Function.update_self _ _ _)
    have hlive : s.mem b ≠ none := by
      intro hnone
      exact hb ((Function.update_of_ne hne _ _).trans hnone)
    rcases h b hlive with hlinked | ⟨u, hu⟩
    · exact Or.inl hlinked
    · refine Or.inr ⟨u, (congrArg ClientPhase.retires (Function.update_of_ne ?_ _ _)).trans hu⟩
      rintro rfl
      rw [hclosed] at hu
      exact hne (Option.some.inj hu).symm
  | @closeEntry t a hunlinked =>
    refine h.frame rfl (fun b => live_of_update fun hnone => ?_) (update_view s.clients _ ?_)
    · rw [hnone]
      rfl
    · rw [hunlinked]
      rfl
  | @deliver t ci a e r q hwaiting hmem _ =>
    refine h.frame rfl (fun b => live_of_update fun hnone => ?_) (update_view s.clients _ ?_)
    · rw [hmem] at hnone
      contradiction
    · rw [hwaiting]
      rfl
  | @push w grows a r rest e q _ hmem _ =>
    refine h.frame rfl (fun b => live_of_update fun hnone => ?_) fun _ => rfl
    rw [hmem] at hnone
    contradiction
  | exitClient hphase | takeClient hphase _ | quit hphase _ | submit hphase _ _ | endOfStream hphase
  | foundEntry hphase _ | missedEntry hphase _ | timeOut hphase | timeOutSilent hphase
  | waitFails hphase | closeSocket hphase | unlinkMissing hphase _ =>
    refine h.frame rfl (fun _ ha => ha) (update_view s.clients _ ?_)
    rw [hphase]
    rfl
  | _ => exact h.frame rfl (fun _ ha => ha) fun _ => rfl

end Kept

theorem freed_mem (as : List Addr) (s : Server) (b : Addr) :
    (as.foldl (fun s a => s.setEntry a none) s).mem b = if b ∈ as then none else s.mem b := by
  induction as generalizing s with
  | nil => simp
  | cons a as ih =>
    rw [List.foldl_cons, ih]
    rcases eq_or_ne b a with rfl | hne
    · simp [Server.setEntry]
    · simp [Server.setEntry, hne]

section Reached
variable {store : UserStore} {s : Server} {refused : List Nat} {n : Nat}

theorem closing_reached (h : ServerReached Calm store s) : Closing s := by
  apply h.invariant
  · exact ⟨fun _ => rfl, nofun, nofun⟩
  · intro s s' l _ hs _ hstep
    exact closing_step hs hstep

theorem enqueues_reached (h : ServerReached Calm store s) {s' : Server} {cmp : Comparators Id}
    (hstep : serverStep s (cmp, .enqueue true) = some s') :
    s'.clientQueue.size ≠ s.clientQueue.size := by
  obtain ⟨ci, -, hmain, -⟩ := enqueue_cases hstep
  exact enqueue_grows hstep ((closing_reached h).accepted ci hmain)

theorem connections_reached (h : ConnectionsReached store (s, refused)) :
    Registry s ∧ Closing s ∧ Kept s ∧ Owned s refused := by
  have hreached : ServerReached Calm store s := h.unlogged
  have hregistry : ∀ {r}, ConnectionsReached store r → Registry r.1 :=
    fun hr => registry_reached (fun _ _ hl => hl) hr.unlogged
  refine ⟨hregistry h, closing_reached hreached, ?_, ?_⟩
  · apply hreached.invariant
    · exact fun a ha => absurd rfl ha
    · intro s s' l _ hs _ hstep
      exact (serverStep_moves hstep).kept hs
  · refine h.invariant (I := fun r => Owned r.1 r.2) (owned_init store) ?_
    intro r r' l hr howned _ hstep
    obtain ⟨hserver, hlog⟩ := logged_step hstep
    rw [hlog]
    refine (serverStep_moves hserver).owned l.1 (hregistry hr).life ?_ howned
    intro haction
    have hgrowing : serverStep r.1 (l.1, .enqueue true) = some r'.1 := haction ▸ hserver
    exact enqueues_reached hr.unlogged hgrowing

theorem exited_conn (h : ClientsExited n s) (t : Nat) :
    (s.clients t).conn = none ∧ (s.clients t).retires = none := by
  rcases Nat.lt_or_ge t n with ht | ht
  · rw [h.2.1 t ht]
    exact ⟨rfl, rfl⟩
  · rw [h.2.2 t ht]
    exact ⟨rfl, rfl⟩

theorem open_refused (h : ConnectionsReached store (s, refused)) (hexited : ClientsExited n s) {c : Nat}
    (hopen : (s.stage c).isOpen = true) : c ∈ refused := by
  obtain ⟨-, hclosing, -, howned⟩ := connections_reached h
  obtain ⟨hclosed, hempty⟩ := hclosing.exited 0 (hexited.2.1 0 hexited.1)
  cases hstage : s.stage c with
  | unborn =>
    rw [hstage] at hopen
    contradiction
  | accepted =>
    obtain ⟨fd, hmain⟩ := howned.accepted c hstage
    rw [hclosing.accepted _ hmain] at hclosed
    contradiction
  | queued =>
    rcases howned.queued c hstage with hrefused | ⟨ci, hci, -⟩
    · exact hrefused
    · rw [hempty] at hci
      contradiction
  | served t =>
    obtain ⟨fd, ht⟩ := howned.served c t hstage
    rw [(exited_conn hexited t).1] at ht
    contradiction
  | deregistered =>
    rw [hstage] at hopen
    contradiction

end Reached

/-- Once the client threads have exited, every connection that was queued is deregistered. The
sockets that are still open are those of the connections that the queue had no memory for, the
entries in the map are theirs, and with these freed no entry is left. -/
theorem shutdown_releases_connections (store : UserStore) (s : Server) (refused : List Nat)
    (h : ConnectionsReached store (s, refused)) (n : Nat) (hexited : ClientsExited n s) :
    (∀ c, 0 < c → c < s.nextClientId → c ∉ refused → s.stage c = .deregistered) ∧
      (∀ c, (∃ fd, s.sockets fd = some c) ↔ c ∈ refused) ∧
      (∀ a ∈ s.responseMap.contents, ∃ c ∈ refused, s.idAt a = some c) ∧
      s.responseMap.contents.Nodup ∧ ∀ a, (freeRemaining s).mem a = none := by
  obtain ⟨hregistry, hclosing, hkept, howned⟩ := connections_reached h
  have hrefused : ∀ {c}, (s.stage c).isOpen = true → c ∈ refused := open_refused h hexited
  refine ⟨?_, ?_, ?_, hregistry.sound.nodup, ?_⟩
  · intro c hpos hlt hqueued
    cases hstage : s.stage c with
    | unborn =>
      rcases howned.born c hstage with hzero | hle
      · omega
      · omega
    | deregistered => rfl
    | accepted => exact absurd (hrefused (by rw [hstage]; rfl)) hqueued
    | queued => exact absurd (hrefused (by rw [hstage]; rfl)) hqueued
    | served t => exact absurd (hrefused (by rw [hstage]; rfl)) hqueued
  · intro c
    constructor
    · rintro ⟨fd, hfd⟩
      rcases howned.opened fd c hfd with hmain | hstage | ⟨t, ht⟩
      · have hstage := (hregistry.life.accepted _ hmain).1
        exact hrefused (by rw [hstage]; rfl)
      · exact hrefused (by rw [hstage]; rfl)
      · rw [(exited_conn hexited t).1] at ht
        contradiction
    · intro hc
      exact (howned.lost c hc).2.2
  · intro a ha
    obtain ⟨c, hc⟩ := Option.ne_none_iff_exists'.mp (hregistry.sound.live a ha)
    exact ⟨c, hrefused (hregistry.current a ha c hc), hc⟩
  · intro a
    rw [freeRemaining, freed_mem]
    split
    · rfl
    · rename_i hout
      by_contra hlive
      rcases hkept a hlive with hlinked | ⟨t, ht⟩
      · exact hout hlinked
      · rw [(exited_conn hexited t).2] at ht
        contradiction

def Action.client : Action → Option Nat
  | .takeClient t | .command t _ _ _ | .taskUnallocated t | .endOfStream t | .findEntry t | .deliver t
  | .timeOut t _ | .waitFails t | .closeSocket t | .unlink t | .closeEntry t | .free t => some t
  | _ => none

theorem client_kept {cmp : Comparators Id} {action : Action} {s s' : Server} {u : Nat}
    (h : serverStep s (cmp, action) = some s') (hu : action.client ≠ some u) :
    s'.clients u = s.clients u := by
  have hm := serverStep_moves h
  cases hm with
  | exitClient _ | takeClient _ _ | quit _ _ | submit _ _ _ | endOfStream _ | foundEntry _ _
  | missedEntry _ _ | deliver _ _ _ | timeOut _ | timeOutSilent _ | waitFails _ | closeSocket _
  | unlink _ _ _ _ | unlinkMissing _ _ | closeEntry _ | free _ =>
    apply Function.update_of_ne
    rintro rfl
    exact hu rfl
  | _ => rfl

theorem clients_kept {ls : List (Comparators Id × Action)} {s s' : Server} {n : Nat}
    (hls : ls.all (fun l => l.2.client.all (· < n)) = true) (h : exec serverStep s ls = some s') :
    ∀ t, n ≤ t → s'.clients t = s.clients t := by
  intro t ht
  refine exec_kept (fun s => s.clients t) (fun l hl s s' hstep => ?_) h
  apply client_kept hstep
  intro heq
  have hpool := List.all_eq_true.mp hls l hl
  rw [heq] at hpool
  have hlt : t < n := by simpa using hpool
  exact absurd ht (Nat.not_le_of_lt hlt)

def refusedAndServed : List (Comparators Id × Action) :=
  [.accept 4 (some 0) true, .enqueue false, .accept 5 (some 1) true, .enqueue true, .takeClient 0,
    .endOfStream 0, .closeSocket 0].map (Prod.mk taskComparators)

def deregisteredAndStopped : List (Comparators Id × Action) :=
  [.unlink 0, .closeEntry 0, .free 0, .interrupt, .takeClient 0].map (Prod.mk taskComparators)

theorem stopped_server_keeps_refused : ∃ s, ConnectionsReached emptyStore (s, [1]) ∧ ClientsExited 1 s ∧
    s.sockets 4 = some 1 ∧ s.sockets 5 = none ∧
    ((∀ c, 0 < c → c < s.nextClientId → c ∉ [1] → s.stage c = .deregistered) ∧
      (∀ c, (∃ fd, s.sockets fd = some c) ↔ c ∈ [1]) ∧
      (∀ a ∈ s.responseMap.contents, ∃ c ∈ [1], s.idAt a = some c) ∧
      s.responseMap.contents.Nodup ∧ ∀ a, (freeRemaining s).mem a = none) := by
  have hview : ((exec (logged serverStep refusals) (serverInit emptyStore, []) refusedAndServed).bind
      fun r => exec (logged serverStep refusals) r deregisteredAndStopped).map (fun r =>
        (r.2, r.1.clients 0, r.1.sockets 4, r.1.sockets 5)) =
      some ([1], .exited, some 1, none) := by
    decide +kernel
  obtain ⟨⟨s, refused⟩, hruns, hs⟩ := Option.map_eq_some_iff.mp hview
  obtain ⟨r, hserved, hstopped⟩ := Option.bind_eq_some_iff.mp hruns
  obtain ⟨rfl, hs⟩ := Prod.mk.inj hs
  obtain ⟨hclient, hs⟩ := Prod.mk.inj hs
  obtain ⟨hfirst, hsecond⟩ := Prod.mk.inj hs
  have hunheld : ∀ c, Unheld r.1 c := by
    intro c w a reply rest hw
    rw [workers_kept rfl (exec_unlogged hserved) w (Nat.zero_le w)] at hw
    contradiction
  have hcalm : ∀ ls : List (Comparators Id × Action), ls.all (fun l => !l.2.unlinks) = true →
      ∀ r, Guarded (logged serverStep refusals) (fun r => Calm r.1) r ls := by
    intro ls hls
    refine guarded_of_forall fun l hl r => calm_of_not_unlinks ?_ r.1
    simpa using List.all_eq_true.mp hls l hl
  have hreached : ConnectionsReached emptyStore r := .of_exec .start (hcalm _ rfl _) hserved
  have hguarded : Guarded (logged serverStep refusals) (fun r => Calm r.1) r deregisteredAndStopped := by
    rw [deregisteredAndStopped, List.map_cons, Guarded]
    exact ⟨fun _ c _ _ => hunheld c, fun _ _ => hcalm _ rfl _⟩
  have hreach : ConnectionsReached emptyStore (s, [1]) := .of_exec hreached hguarded hstopped
  have hexited : ClientsExited 1 s := by
    refine ⟨Nat.one_pos, ?_, ?_⟩
    · intro t ht
      obtain rfl := Nat.lt_one_iff.mp ht
      exact hclient
    · intro t ht
      rw [clients_kept rfl (exec_unlogged hstopped) t ht, clients_kept rfl (exec_unlogged hserved) t ht]
      rfl
  exact ⟨s, hreach, hexited, hfirst, hsecond,
    shutdown_releases_connections emptyStore s [1] hreach 1 hexited⟩

end FileServer
