import FileServer.TaskLife

/-!
# A server whose answers come in time

A client thread stops waiting after five seconds, and its connection then goes on
with an answer still owed to it. Where no wait ends that way, a connection that
submits a task is owed nothing, and no entry is unlinked while a worker holds it:
whatever the interleaving, every response answers the last task of its connection,
is written to that connection, and is pushed to an entry that is there.
-/

namespace FileServer

open Runs Tokens
set_option autoImplicit false

def Action.timesOut : Action → Bool
  | .timeOut _ _ | .waitFails _ => true
  | _ => false

/-- The connection whose thread waits for an answer, or is about to. -/
def ClientPhase.asks : ClientPhase → Option Nat
  | .submitted ci | .waiting ci _ => some ci.clientId
  | _ => none

def ClientPhase.leaves : ClientPhase → Option Nat
  | .closing ci => some ci.clientId
  | .deregistering c => some c
  | _ => none

def HasLeft (s : Server) (c : Nat) : Prop :=
  s.stage c = .deregistered ∨ ∃ t, (s.clients t).leaves = some c

/-- The connection has no response entry and submits nothing more. -/
structure Abandoned (s : Server) (c : Nat) : Prop where
  unlisted : ∀ a ∈ s.responseMap.contents, s.idAt a ≠ some c
  unheld : Unheld s c
  left : HasLeft s c

/-- Whoever is owed an answer waits for it, or has no entry to receive it. -/
def Attended (s : Server) : Prop :=
  ∀ job, Owed s job → (∃ t, (s.clients t).asks = some job.task.client.clientId) ∨
    Abandoned s job.task.client.clientId

/-- Every task and its answer lie at one place at most. -/
def TasksPlaced (s : Server) : Prop := ∀ n, ∃ life : Life, tally s n = found life.station

section Counted
variable {s : Server} {job : Job}

theorem Owed.counted (h : Owed s job) : ∃ p, 0 < tally s job.ticket p := by
  rcases h with hqueued | ⟨w, hw⟩ | ⟨r, ⟨a, e, hmem, hr⟩, rfl⟩
  · exact ⟨.queued, List.countP_pos_iff.mpr ⟨job, hqueued, by simp⟩⟩
  · cases hphase : s.workers w with
    | took j =>
      rw [hphase] at hw
      cases hw
      exact ⟨.taken w, by simp [tally, hphase, WorkerPhase.unprocessed]⟩
    | locked j user =>
      rw [hphase] at hw
      cases hw
      exact ⟨.taken w, by simp [tally, hphase, WorkerPhase.unprocessed]⟩
    | sending j effects =>
      rw [hphase] at hw
      obtain rfl := sending_owes hw
      have hany : effects.any Effect.isResponse = true := by
        by_contra hno
        simp [WorkerPhase.owes, hno] at hw
      refine ⟨.answering w, ?_⟩
      simp only [tally, hphase, WorkerPhase.unstored, if_true]
      obtain ⟨effect, heffect, hresponse⟩ := List.any_eq_true.mp hany
      exact List.countP_pos_iff.mpr ⟨effect, heffect, hresponse⟩
    | pushing a r effects =>
      rw [hphase] at hw
      cases hw
      exact ⟨.answering w, by simp [tally, hphase, WorkerPhase.unstored]⟩
    | idle =>
      rw [hphase] at hw
      contradiction
    | exited =>
      rw [hphase] at hw
      contradiction
  · refine ⟨.answered a, ?_⟩
    simp only [tally, hmem]
    exact List.countP_pos_iff.mpr ⟨r, hr, by simp⟩

end Counted

section Left
variable {s s' : Server} {c : Nat}

theorem HasLeft.born (h : HasLeft s c) (hl : Lifecycle s) : s.stage c ≠ .unborn := by
  rcases h with hstage | ⟨t, ht⟩
  · rw [hstage]
    simp
  · cases hp : s.clients t with
    | closing ci =>
      rw [hp] at ht
      cases ht
      rw [(hl.served t ci.clientId (some ci.socketFd) (by rw [hp]; rfl)).1]
      simp
    | deregistering d =>
      rw [hp] at ht
      obtain rfl : d = c := Option.some.inj ht
      rw [(hl.served t d none (by rw [hp]; rfl)).1]
      simp
    | _ =>
      rw [hp] at ht
      contradiction

theorem leaves_update {clients : Nat → ClientPhase} {t u : Nat} {p q : ClientPhase}
    (hphase : clients u = q) (hq : q.leaves = none) (h : (clients t).leaves = some c) :
    (Function.update clients u p t).leaves = some c := by
  rcases eq_or_ne t u with rfl | hne
  · rw [hphase, hq] at h
    contradiction
  · rwa [Function.update_of_ne hne]

theorem Moves.hasLeft {action : Action} (hm : Moves s action s') (hl : Lifecycle s)
    (h : HasLeft s c) : HasLeft s' c := by
  have hborn := h.born hl
  have hstays : ∀ {d : Nat} {a b : Stage}, s.stage d = a → a ≠ .deregistered →
      s.stage c = .deregistered → Function.update s.stage d b c = .deregistered := by
    intro d a b hd ha hc
    rw [Function.update_of_ne (stage_ne hc hd ha.symm), hc]
  have hends : ∀ d, c = d ∨ s.stage c = .deregistered →
      Function.update s.stage d .deregistered c = .deregistered := by
    intro d hd
    rcases eq_or_ne c d with rfl | hne
    · exact Function.update_self _ _ _
    · rw [Function.update_of_ne hne]
      exact hd.resolve_left hne
  cases hm with
  | acceptRegistered _ _ _ _ _ =>
    refine h.imp (fun hc => ?_) id
    exact hstays (hl.unborn _ (Nat.le_refl _)) (by simp) hc
  | acceptUnregistered _ _ _ =>
    refine h.imp (fun hc => ?_) id
    exact hstays (hl.unborn _ (Nat.le_refl _)) (by simp) hc
  | @enqueue _ ci _ hmain _ =>
    refine h.imp (fun hc => ?_) id
    exact hstays (hl.accepted ci hmain).1 (by simp) hc
  | @takeClient t ci q hidle hperm =>
    have hqueued := (hl.queued ci (hperm.mem_iff.mp List.mem_cons_self)).1
    rcases h with hc | ⟨u, hu⟩
    · exact Or.inl (hstays hqueued (by simp) hc)
    · exact Or.inr ⟨u, leaves_update hidle rfl hu⟩
  | @closeSocket t ci hclosing =>
    rcases h with hc | ⟨u, hu⟩
    · exact Or.inl hc
    · refine Or.inr ⟨u, ?_⟩
      change (Function.update s.clients t _ u).leaves = some c
      rcases eq_or_ne u t with rfl | hne
      · rw [hclosing] at hu
        rw [Function.update_self]
        exact hu
      · rwa [Function.update_of_ne hne]
  | @unlink t d a map hderegistering _ _ _ =>
    rcases h with hc | ⟨u, hu⟩
    · exact Or.inl (hends d (Or.inr hc))
    · rcases eq_or_ne u t with rfl | hne
      · rw [hderegistering] at hu
        exact Or.inl (hends d (Or.inl (Option.some.inj hu).symm))
      · refine Or.inr ⟨u, ?_⟩
        change (Function.update s.clients t _ u).leaves = some c
        rwa [Function.update_of_ne hne]
  | @unlinkMissing t d hderegistering _ =>
    rcases h with hc | ⟨u, hu⟩
    · exact Or.inl (hends d (Or.inr hc))
    · rcases eq_or_ne u t with rfl | hne
      · rw [hderegistering] at hu
        exact Or.inl (hends d (Or.inl (Option.some.inj hu).symm))
      · refine Or.inr ⟨u, ?_⟩
        change (Function.update s.clients t _ u).leaves = some c
        rwa [Function.update_of_ne hne]
  | exitClient hphase | quit hphase _ | submit hphase _ _ | endOfStream hphase | foundEntry hphase _
  | missedEntry hphase _ | deliver hphase _ _ | timeOut hphase | timeOutSilent hphase
  | waitFails hphase | closeEntry hphase | free hphase =>
    refine h.imp id ?_
    rintro ⟨u, hu⟩
    exact ⟨u, leaves_update hphase rfl hu⟩
  | _ => exact h

theorem unlisted_frame (h : ∀ a ∈ s.responseMap.contents, s.idAt a ≠ some c)
    (hmap : s'.responseMap.contents ⊆ s.responseMap.contents) (hid : s'.idAt = s.idAt) :
    ∀ a ∈ s'.responseMap.contents, s'.idAt a ≠ some c := by
  intro a ha
  rw [hid]
  exact h a (hmap ha)

theorem Moves.unlisted {action : Action} (hm : Moves s action s') (hborn : c ≠ s.nextClientId)
    (h : ∀ a ∈ s.responseMap.contents, s.idAt a ≠ some c) :
    ∀ a ∈ s'.responseMap.contents, s'.idAt a ≠ some c := by
  cases hm with
  | @acceptRegistered fd a _ map _ _ _ hperm _ =>
    intro b hb hid
    change (({ s with responseMap := map } : Server).setEntry a _).idAt b = some c at hid
    rw [idAt_setEntry] at hid
    rcases HandleTable.update_eq_some hid with ⟨_, heq⟩ | ⟨hne, hid⟩
    · exact hborn (Option.some.inj heq).symm
    · rcases List.mem_cons.mp (hperm.mem_iff.mp hb) with rfl | hb
      · exact hne rfl
      · exact h b hb hid
  | @unlink t d a map _ _ hperm _ =>
    refine unlisted_frame h ?_ rfl
    intro b hb
    exact hperm.mem_iff.mpr (List.mem_cons_of_mem a hb)
  | @deliver t ci a e r q _ hmem _ =>
    exact unlisted_frame h (List.Subset.refl _)
      (idAt_setEntry_same (by simp [Server.idAt, hmem]))
  | @push w grows a r rest e q _ hmem _ =>
    exact unlisted_frame h (List.Subset.refl _)
      (idAt_setEntry_same (by simp [Server.idAt, hmem]))
  | closeEntry _ =>
    exact unlisted_frame h (List.Subset.refl _) (idAt_setEntry_same (map_close _))
  | @free t a _ =>
    intro b hb hid
    change (s.setEntry a none).idAt b = some c at hid
    rw [idAt_setEntry] at hid
    rcases HandleTable.update_eq_some hid with ⟨_, heq⟩ | ⟨_, hid⟩
    · contradiction
    · exact h b hb hid
  | _ => exact unlisted_frame h (List.Subset.refl _) rfl

theorem unheld_update {w : Nat} {p : WorkerPhase} (h : Unheld s c)
    (hworkers : s'.workers = Function.update s.workers w p) (hp : p.holds = none) :
    Unheld s' c := by
  intro u a r rest hu
  rw [hworkers] at hu
  rcases eq_or_ne u w with rfl | hne
  · rw [Function.update_self] at hu
    rw [hu] at hp
    contradiction
  · rw [Function.update_of_ne hne] at hu
    exact h u a r rest hu

theorem Moves.unheld {action : Action} (hm : Moves s action s')
    (hunlisted : ∀ a ∈ s.responseMap.contents, s.idAt a ≠ some c) (h : Unheld s c) :
    Unheld s' c := by
  cases hm with
  | @respond w job status message rest a hsending hfind =>
    obtain ⟨ha, hid⟩ := Server.findEntry_some hfind
    intro u b r more hu
    change Function.update s.workers w _ u = .pushing b r more at hu
    rcases eq_or_ne u w with rfl | hne
    · rw [Function.update_self] at hu
      cases hu
      rintro rfl
      exact hunlisted a ha hid
    · rw [Function.update_of_ne hne] at hu
      exact h u b r more hu
  | exitWorker _ | takeTask _ _ | lockUser _ _ | process _ _ | respondDropped _ | push _ _ _
  | pushFreed _ _ | sendFile _ | sendFileMissing _ | finish _ => exact unheld_update h rfl rfl
  | _ => exact h

theorem Abandoned.step {action : Action} (h : Abandoned s c) (hm : Moves s action s')
    (hl : Lifecycle s) : Abandoned s' c := by
  have hborn : c ≠ s.nextClientId := by
    rintro rfl
    exact h.left.born hl (hl.unborn _ (Nat.le_refl _))
  exact ⟨hm.unlisted hborn h.unlisted, hm.unheld h.unlisted h.unheld, hm.hasLeft hl h.left⟩

end Left

section Attending
variable {s s' : Server}

theorem abandoned_of_missed (hr : Registry s) {t c : Nat} (hmissed : s.findEntry c = none)
    (hworkers : s'.workers = s.workers) (hmap : s'.responseMap = s.responseMap)
    (hid : s'.idAt = s.idAt) (hleaves : (s'.clients t).leaves = some c) : Abandoned s' c := by
  have hnone := Server.scan_none (Option.map_eq_none_iff.mp hmissed)
  refine ⟨?_, ?_, Or.inr ⟨t, hleaves⟩⟩
  · rw [hmap, hid]
    exact hnone
  · intro w a r rest hw hc
    rw [hworkers] at hw
    have hheld : (handles s).held (.inr w) = some (a, r.response.clientId) := by
      change (s.workers w).holds = _
      rw [hw]
      rfl
    obtain ⟨ha, howner⟩ := hr.sound.held _ _ _ hheld
    exact hnone a ha (howner.trans (congrArg some hc))

theorem Queued.owed {r : Reply} (h : Queued s r) : Owed s r.job := Or.inr (Or.inr ⟨r, h, rfl⟩)

theorem awaited_client (hr : Registry s) (hmatching : AllMatching s) {t : Nat} {ci : ClientInfo}
    {a : Addr} {e : ResponseQueueEntry} {r : Reply} (hwaiting : s.clients t = .waiting ci a)
    (hmem : s.mem a = some e) (hmember : r ∈ e.queue.contents) :
    r.job.task.client.clientId = ci.clientId := by
  have hheld : (handles s).held (.inl t) = some (a, ci.clientId) := by
    change (s.clients t).awaits = _
    rw [hwaiting]
    rfl
  rw [← r.addressed, hmatching a e hmem r hmember, hr.held_id hheld hmem]

theorem deliver_settles (hplaced : TasksPlaced s) {a : Addr} {r : Reply} {e : ResponseQueueEntry}
    {q : Queue Reply} (hmem : s.mem a = some e) (hperm : (r :: q.contents).Perm e.queue.contents)
    (hsame : tally s' r.job.ticket =
      tally (s.setEntry a (some { e with queue := q })) r.job.ticket) {job : Job}
    (hticket : job.ticket = r.job.ticket) : ¬ Owed s' job := by
  intro howed
  obtain ⟨p, hp⟩ := howed.counted
  obtain ⟨life, hlife⟩ := hplaced r.job.ticket
  obtain ⟨life', hstep, htally⟩ := deliver_continues hlife hmem hperm s' hsame
  have hevents : history [⟨.delivered, r.job.ticket⟩] r.job.ticket =
      [⟨.delivered, r.job.ticket⟩] := by
    simp [history]
  rw [hevents] at hstep
  cases hstep with
  | deliver =>
    rw [hticket, htally] at hp
    exact Nat.lt_irrefl 0 hp

theorem asks_update {clients : Nat → ClientPhase} {t u c : Nat} {p q : ClientPhase}
    (hphase : clients u = q) (hq : q.asks = none) (h : (clients t).asks = some c) :
    (Function.update clients u p t).asks = some c := by
  rcases eq_or_ne t u with rfl | hne
  · rw [hphase, hq] at h
    contradiction
  · rwa [Function.update_of_ne hne]

theorem Moves.asks {action : Action} (hm : Moves s action s') (hr : Registry s)
    (hplaced : TasksPlaced s) (hmatching : AllMatching s) (hfresh : Fresh s)
    (hinTime : action.timesOut = false) {job : Job} (hjob : Owed s job) (hjob' : Owed s' job)
    {t : Nat} (ht : (s.clients t).asks = some job.task.client.clientId) :
    (∃ t, (s'.clients t).asks = some job.task.client.clientId) ∨
      Abandoned s' job.task.client.clientId := by
  cases hm with
  | @foundEntry u ci a hsubmitted _ =>
    refine Or.inl ⟨t, ?_⟩
    change (Function.update s.clients u _ t).asks = _
    rcases eq_or_ne t u with rfl | hne
    · rw [hsubmitted] at ht
      rw [Function.update_self]
      exact ht
    · rwa [Function.update_of_ne hne]
  | @missedEntry u ci hsubmitted hmissed =>
    rcases eq_or_ne t u with rfl | hne
    · rw [hsubmitted] at ht
      have hc : ci.clientId = job.task.client.clientId := Option.some.inj ht
      rw [← hc]
      refine Or.inr (abandoned_of_missed (t := t) hr hmissed rfl rfl rfl ?_)
      change (Function.update s.clients t _ t).leaves = _
      rw [Function.update_self]
      rfl
    · refine Or.inl ⟨t, ?_⟩
      change (Function.update s.clients u _ t).asks = _
      rwa [Function.update_of_ne hne]
  | @deliver u ci a e r q hwaiting hmem hperm =>
    rcases eq_or_ne t u with rfl | hne
    · rw [hwaiting] at ht
      have hc : ci.clientId = job.task.client.clientId := Option.some.inj ht
      have hin := hperm.mem_iff.mp List.mem_cons_self
      have hclient := awaited_client hr hmatching hwaiting hmem hin
      have hticket : job.ticket = r.job.ticket := by
        rw [hfresh job hjob, hfresh r.job (Queued.owed ⟨a, e, hmem, hin⟩), hclient, hc]
      exact absurd hjob' (deliver_settles hplaced hmem hperm (tally_frame rfl rfl rfl) hticket)
    · refine Or.inl ⟨t, ?_⟩
      change (Function.update s.clients u _ t).asks = _
      rwa [Function.update_of_ne hne]
  | timeOut _ | timeOutSilent _ | waitFails _ => contradiction
  | exitClient hphase | takeClient hphase _ | quit hphase _ | submit hphase _ _ | endOfStream hphase
  | closeSocket hphase | unlink hphase _ _ _ | unlinkMissing hphase _ | closeEntry hphase
  | free hphase => exact Or.inl ⟨t, asks_update hphase rfl ht⟩
  | _ => exact Or.inl ⟨t, ht⟩

theorem Moves.attended {action : Action} (hm : Moves s action s') (hr : Registry s)
    (hplaced : TasksPlaced s) (hmatching : AllMatching s) (hfresh : Fresh s)
    (hinTime : action.timesOut = false) (h : Attended s) : Attended s' := by
  intro job hjob
  rcases hm.owed hjob with hold | ⟨ci, ⟨t, line, now, grows, rfl, hreading, hparse⟩, -⟩
  · rcases h job hold with ⟨t, ht⟩ | habandoned
    · exact hm.asks hr hplaced hmatching hfresh hinTime hold hjob ht
    · exact Or.inr (habandoned.step hm hr.life)
  · have hclient : job.task.client = ci := (parseCommand_submit hparse).1
    cases hm with
    | quit hreading' hparse' =>
      cases hreading.symm.trans hreading'
      cases hparse.symm.trans hparse'
    | unknown hreading' hparse' =>
      cases hreading.symm.trans hreading'
      cases hparse.symm.trans hparse'
    | submit hreading' _ _ =>
      cases hreading.symm.trans hreading'
      refine Or.inl ⟨t, ?_⟩
      change (Function.update s.clients t _ t).asks = _
      rw [Function.update_self, hclient]
      rfl

theorem asks_conn {p : ClientPhase} {c : Nat} (h : p.asks = some c) :
    ∃ fd, p.conn = some (c, fd) := by
  cases p with
  | submitted ci =>
    cases h
    exact ⟨_, rfl⟩
  | waiting ci a =>
    cases h
    exact ⟨_, rfl⟩
  | _ => contradiction

theorem leaves_conn {p : ClientPhase} {c : Nat} (h : p.leaves = some c) :
    ∃ fd, p.conn = some (c, fd) := by
  cases p with
  | closing ci =>
    cases h
    exact ⟨_, rfl⟩
  | deregistering d =>
    cases h
    exact ⟨_, rfl⟩
  | _ => contradiction

theorem Lifecycle.thread_eq (hl : Lifecycle s) {t u c : Nat} {d d' : Option Nat}
    (ht : (s.clients t).conn = some (c, d)) (hu : (s.clients u).conn = some (c, d')) : u = t := by
  have hserved := (hl.served t c d ht).1
  rw [(hl.served u c d' hu).1] at hserved
  cases hserved
  rfl

theorem Lifecycle.not_left (hl : Lifecycle s) {t : Nat} {ci : ClientInfo}
    (hreading : s.clients t = .reading ci) : ¬ HasLeft s ci.clientId := by
  have ht : (s.clients t).conn = some (ci.clientId, some ci.socketFd) := by rw [hreading]; rfl
  rintro (hstage | ⟨u, hu⟩)
  · rw [(hl.served t _ _ ht).1] at hstage
    contradiction
  · obtain ⟨d, hd⟩ := leaves_conn hu
    obtain rfl := hl.thread_eq ht hd
    rw [hreading] at hu
    contradiction

theorem Attended.paid (h : Attended s) (hl : Lifecycle s) (l : Comparators Id × Action) :
    Paid s l := by
  rintro ci task ⟨t, line, now, grows, -, hreading, -⟩ job hjob hc
  have ht : (s.clients t).conn = some (ci.clientId, some ci.socketFd) := by rw [hreading]; rfl
  rcases h job hjob with ⟨u, hu⟩ | habandoned
  · rw [hc] at hu
    obtain ⟨d, hd⟩ := asks_conn hu
    obtain rfl := hl.thread_eq ht hd
    rw [hreading] at hu
    contradiction
  · have hleft := habandoned.left
    rw [hc] at hleft
    exact hl.not_left hreading hleft

/-- No worker holds the entry of a connection that is given up. -/
theorem Attended.calm (h : Attended s) (hl : Lifecycle s) (l : Comparators Id × Action) :
    Calm s l := by
  intro t c _ hderegistering w a r rest hpushing hc
  have ht : (s.clients t).conn = some (c, none) := by rw [hderegistering]; rfl
  have hclient : r.job.task.client.clientId = c := r.addressed.symm.trans hc
  have howed : Owed s r.job := by
    refine Or.inr (Or.inl ⟨w, ?_⟩)
    rw [hpushing]
    rfl
  rcases h r.job howed with ⟨u, hu⟩ | habandoned
  · rw [hclient] at hu
    obtain ⟨d, hd⟩ := asks_conn hu
    obtain rfl := hl.thread_eq ht hd
    rw [hderegistering] at hu
    contradiction
  · exact habandoned.unheld w a r rest hpushing r.addressed

end Attending

def InTime (_ : Server) (l : Comparators Id × Action) : Prop := l.2.timesOut = false

structure Punctual (s : Server) : Prop where
  registry : Registry s
  matching : AllMatching s
  fresh : Fresh s
  attended : Attended s

theorem tasksPlaced_reached {allowed : Server → Comparators Id × Action → Prop} {store : UserStore}
    {s : Server} (h : ServerReached allowed store s) : TasksPlaced s := by
  have hfree : ServerReached (fun _ _ => True) store s := h.mono fun _ _ _ => trivial
  obtain ⟨log, hlog⟩ := hfree.logged lifeEvents
  intro n
  obtain ⟨life, hlife⟩ := (TasksReached.living hlog).2 n
  exact ⟨life, hlife.tally⟩

theorem punctual_reached {store : UserStore} {s : Server} (h : ServerReached InTime store s) :
    Punctual s := by
  apply h.invariant
  · refine ⟨registry_init store, ?_, ?_, ?_⟩
    · intro a e he
      contradiction
    · intro job hjob
      exact absurd hjob (not_owed_init store job)
    · intro job hjob
      exact absurd hjob (not_owed_init store job)
  · intro s s' l hreach hs hl hstep
    have hm := serverStep_moves hstep
    have hlife := hs.registry.life
    refine ⟨?_, ?_, ?_, ?_⟩
    · exact hm.registry hs.registry (hs.attended.calm hlife l)
    · exact hm.matching hs.registry hs.matching
    · exact hm.fresh (hs.attended.paid hlife l) hs.fresh
    · exact hm.attended hs.registry (tasksPlaced_reached hreach) hs.matching hs.fresh hl hs.attended

/-- In a run in which no wait times out, every response that is written goes to the
connection whose task it answers and answers the last task that this connection
submitted, and no worker pushes to an entry that is gone. -/
theorem punctual_answers_right (store : UserStore) (s : Server)
    (h : ServerReached InTime store s) :
    (∀ line ∈ s.written, ∀ r, line.line = .reply r →
      line.owner = some r.response.clientId ∧ r.job.ticket = line.last) ∧
    ∀ w, ¬ PushesRetired s w := by
  have hwritten : InOrder s ∧ AllDelivered s := by
    apply h.invariant (I := fun s => InOrder s ∧ AllDelivered s)
    · refine ⟨?_, ?_⟩
      · intro w hw
        contradiction
      · intro w hw
        contradiction
    · intro s s' l hreach hs _ hstep
      have hm := serverStep_moves hstep
      have hp := punctual_reached hreach
      exact ⟨hm.inOrder hp.registry hp.matching hp.fresh hs.1,
        hm.delivered hp.registry hp.matching hs.2⟩
  constructor
  · intro line hline r hr
    exact ⟨hwritten.2 line hline r hr, hwritten.1 line hline r hr⟩
  · exact (punctual_reached h).registry.push_target

theorem listing_answered_in_time : ∃ s, ServerReached InTime emptyStore s ∧
    s.replyTickets = [1] ∧
    (∀ line ∈ s.written, ∀ r, line.line = .reply r →
      line.owner = some r.response.clientId ∧ r.job.ticket = line.last) ∧
    ∀ w, ¬ PushesRetired s w := by
  have hview : (exec serverStep (serverInit emptyStore) askedAndAnswered).map
      Server.replyTickets = some [1] := by
    decide +kernel
  obtain ⟨s, hexec, hs⟩ := Option.map_eq_some_iff.mp hview
  have hreach : ServerReached InTime emptyStore s := by
    refine .of_exec .start (guarded_of_forall ?_ _) hexec
    intro l hl _
    have hall : askedAndAnswered.all (fun l => !l.2.timesOut) = true := rfl
    simpa [InTime] using List.all_eq_true.mp hall l hl
  exact ⟨s, hreach, hs, punctual_answers_right emptyStore s hreach⟩

end FileServer
