import FileServer.InFlight
import FileServer.EntryLifetime

/-!
# Who may use a user's files

No thread remembers which connection has logged in: a worker looks the user
named by a file command up in the store and goes on if the name is registered.
What the server then answers is right exactly as far as workers meet no
registered user for which the connection has not been answered OK before.
-/

namespace FileServer

open Runs
set_option autoImplicit false

/-- The line answers `job` with OK on the connection `c` that submitted it. -/
def AnswersOk (line : Written) (c : Nat) (job : Job) : Prop :=
  line.owner = some c ∧ job.task.client.clientId = c ∧
    ∃ r, line.line = .reply r ∧ r.job = job ∧ r.response.status = .ok

/-- A LOGIN or SIGNUP for `user` was answered OK on connection `c`. -/
def SignedIn (log : List Written) (c : Nat) (user : CString) : Prop :=
  ∃ line ∈ log, ∃ job, AnswersOk line c job ∧
    (job.task.type = .login ∨ job.task.type = .signup) ∧ job.task.username = user

/-- Every file command answered OK comes after such an answer; the newest line
is the first. -/
def Authenticated : List Written → Prop
  | [] => True
  | line :: older =>
    (∀ c job, AnswersOk line c job → job.task.type.isFileCommand = true →
      SignedIn older c job.task.username) ∧ Authenticated older

/-- The step does not look up the registered user of a file command for a
connection that was not answered OK to a LOGIN or SIGNUP of that user. -/
def Entitled (s : Server) (l : Comparators Id × Action) : Prop :=
  ∀ w works job, l.2 = .lockUser w works → s.workers w = .took job →
    job.task.type.isFileCommand = true → job.task.username ∈ s.store.names →
    SignedIn s.written job.task.client.clientId job.task.username

theorem SignedIn.mono {log log' : List Written} {c : Nat} {user : CString}
    (h : SignedIn log c user) (hsub : log ⊆ log') : SignedIn log' c user := by
  obtain ⟨line, hline, hjob⟩ := h
  exact ⟨line, hsub hline, hjob⟩

def SendsOk (effects : List Effect) : Prop := ∃ message, .sendResponse .ok message ∈ effects

/-- The worker has found the user of the task, or is about to answer it OK. -/
def WorkerPhase.favours : WorkerPhase → Job → Prop
  | .locked job user, j => job = j ∧ user.isSome = true
  | .sending job effects, j => job = j ∧ SendsOk effects
  | .pushing _ r rest, j => r.job = j ∧ (r.response.status = .ok ∨ SendsOk rest)
  | .idle, _ | .took _, _ | .exited, _ => False

/-- An OK answer for the task is under way. -/
def Favoured (s : Server) (job : Job) : Prop :=
  (∃ w, (s.workers w).favours job) ∨ ∃ r, Queued s r ∧ r.job = job ∧ r.response.status = .ok

section Steps
variable {s s' : Server}

theorem WorkerMove.favours {action : Action} {w : Nat} {p q : WorkerPhase} {job : Job}
    (hmove : WorkerMove s action w p q) (hfile : job.task.type.isFileCommand = true)
    (h : q.favours job) :
    p.favours job ∨ (∃ works, action = .lockUser w works) ∧ p = .took job ∧
      job.task.username ∈ s.store.names := by
  cases hmove with
  | exit => exact absurd h id
  | take _ => exact absurd h id
  | finish => exact absurd h id
  | lock haction _ =>
    obtain ⟨rfl, hsome⟩ := h
    obtain ⟨u, hu⟩ := Option.isSome_iff_exists.mp hsome
    exact Or.inr ⟨⟨_, haction⟩, rfl, mem_names_of_lockUser hu⟩
  | processUnlocked hlock =>
    obtain ⟨rfl, message, hmem⟩ := h
    have hlocks := (user_of_ok hfile hmem).1
    rw [hlock] at hlocks
    contradiction
  | processLocked =>
    obtain ⟨rfl, message, hmem⟩ := h
    exact Or.inl ⟨rfl, (user_of_ok hfile hmem).2⟩
  | respond =>
    obtain ⟨rfl, hok | ⟨message, hmem⟩⟩ := h
    · have hstatus : _ = ResponseStatus.ok := hok
      subst hstatus
      exact Or.inl ⟨rfl, _, List.mem_cons_self⟩
    · exact Or.inl ⟨rfl, message, List.mem_cons_of_mem _ hmem⟩
  | skip =>
    obtain ⟨rfl, message, hmem⟩ := h
    exact Or.inl ⟨rfl, message, List.mem_cons_of_mem _ hmem⟩
  | push =>
    obtain ⟨rfl, hsend⟩ := h
    exact Or.inl ⟨rfl, Or.inr hsend⟩

theorem Moves.favoured {action : Action} (hm : Moves s action s') {job : Job}
    (hfile : job.task.type.isFileCommand = true) (h : Favoured s' job) :
    Favoured s job ∨ ∃ w works, action = .lockUser w works ∧ s.workers w = .took job ∧
      job.task.username ∈ s.store.names := by
  rcases h with ⟨w, h⟩ | ⟨r, hr, rfl, hok⟩
  · rcases hm.worker w with hsame | hmove
    · exact Or.inl (Or.inl ⟨w, hsame ▸ h⟩)
    · rcases hmove.favours hfile h with h | ⟨⟨works, haction⟩, hphase, hname⟩
      · exact Or.inl (Or.inl ⟨w, h⟩)
      · exact Or.inr ⟨w, works, haction, hphase, hname⟩
  · rcases hm.queued hr with hr | ⟨w, a, rest, hphase⟩
    · exact Or.inl (Or.inr ⟨r, hr, rfl, hok⟩)
    · refine Or.inl (Or.inl ⟨w, ?_⟩)
      rw [hphase]
      exact ⟨rfl, Or.inl hok⟩

theorem Moves.written {action : Action} (hm : Moves s action s') :
    s'.written = s.written ∨ ∃ line, s'.written = line :: s.written ∧
      ∀ r, line.line = .reply r → Queued s r := by
  cases hm with
  | taskUnallocated _ => exact Or.inr ⟨_, rfl, by simp⟩
  | timeOut _ => exact Or.inr ⟨_, rfl, by simp⟩
  | sendFile _ => exact Or.inr ⟨_, rfl, by simp⟩
  | @deliver t ci a e r q _ hmem hperm =>
    refine Or.inr ⟨_, rfl, ?_⟩
    intro r' heq
    cases heq
    exact ⟨a, e, hmem, hperm.mem_iff.mp List.mem_cons_self⟩
  | _ => exact Or.inl rfl

theorem Moves.written_subset {action : Action} (hm : Moves s action s') :
    s.written ⊆ s'.written := by
  rcases hm.written with heq | ⟨line, heq, _⟩
  · rw [heq]
    exact List.Subset.refl _
  · rw [heq]
    exact List.subset_cons_self _ _

structure Gated (s : Server) : Prop where
  log : Authenticated s.written
  underWay : ∀ job, Favoured s job → job.task.type.isFileCommand = true →
    SignedIn s.written job.task.client.clientId job.task.username

theorem Moves.gated {l : Comparators Id × Action} (hm : Moves s l.2 s') (hl : Entitled s l)
    (h : Gated s) : Gated s' := by
  constructor
  · rcases hm.written with heq | ⟨line, heq, hreply⟩
    · rw [heq]
      exact h.log
    · rw [heq]
      refine ⟨?_, h.log⟩
      intro c job hanswer hfile
      obtain ⟨_, hclient, r, hr, rfl, hok⟩ := hanswer
      rw [← hclient]
      exact h.underWay r.job (Or.inr ⟨r, hreply r hr, rfl, hok⟩) hfile
  · intro job hjob hfile
    have hbefore : SignedIn s.written job.task.client.clientId job.task.username := by
      rcases hm.favoured hfile hjob with hold | ⟨w, works, haction, hphase, hname⟩
      · exact h.underWay job hold hfile
      · exact hl w works job haction hphase hfile hname
    exact hbefore.mono hm.written_subset

end Steps

theorem file_commands_follow_login (store : UserStore) (s : Server)
    (h : ServerReached Entitled store s) : Authenticated s.written := by
  have hgated : Gated s := by
    apply h.invariant
    · refine ⟨trivial, ?_⟩
      rintro job (⟨w, hw⟩ | ⟨r, ⟨a, e, hmem, _⟩, _⟩)
      · exact absurd hw id
      · contradiction
    · intro s s' l _ hs hl hstep
      exact (serverStep_moves hstep).gated hl hs
  exact hgated.log

/-- What a reply line answers, and how. -/
structure Answer where
  client : Nat
  type : CommandType
  user : CString
  status : ResponseStatus
  deriving DecidableEq

def Line.answer : Line → Option Answer
  | .reply r =>
    some ⟨r.job.task.client.clientId, r.job.task.type, r.job.task.username, r.response.status⟩
  | _ => none

theorem answersOk_of_answer {line : Written} {c : Nat} {type : CommandType} {user : CString}
    (howner : line.owner = some c) (h : line.line.answer = some ⟨c, type, user, .ok⟩) :
    ∃ job, AnswersOk line c job ∧ job.task.type = type ∧ job.task.username = user := by
  cases hline : line.line with
  | reply r =>
    rw [hline] at h
    obtain ⟨hclient, htype, huser, hok⟩ : r.job.task.client.clientId = c ∧ r.job.task.type = type ∧
        r.job.task.username = user ∧ r.response.status = .ok := by
      simpa [Line.answer] using h
    exact ⟨r.job, ⟨howner, hclient, r, hline, rfl, hok⟩, htype, huser⟩
  | _ =>
    rw [hline] at h
    contradiction

def Action.locks : Action → Bool
  | .lockUser _ _ => true
  | _ => false

theorem guarded_entitled {ls : List (Comparators Id × Action)}
    (h : ls.all (fun l => !l.2.locks) = true) (s : Server) : Guarded serverStep Entitled s ls := by
  apply guarded_of_forall
  intro l hl s w works job haction
  have hlocks : l.2.locks = false := by simpa using List.all_eq_true.mp h l hl
  rw [haction] at hlocks
  contradiction

def signedUp : List Action :=
  [.accept 4 (some 0) true, .enqueue true, .takeClient 0,
    .command 0 (cstr "SIGNUP alice pw") ⟨0, 0⟩ true, .findEntry 0, .takeTask 0,
    .process 0 true ⟨true, .ok (), .ok [], true, some []⟩, .respond 0 true, .push 0 true, .deliver 0,
    .finish 0]

def asksForList : List Action :=
  [.command 0 (cstr "LIST alice") ⟨1, 0⟩ true, .findEntry 0, .takeTask 0]

def listedByUser : List Action :=
  [.process 0 true ⟨true, .ok (), .ok [], true, some []⟩, .respond 0 true, .push 0 true, .deliver 0]

def WorkerPhase.asks : WorkerPhase → Option (Nat × CString)
  | .took job => some (job.task.client.clientId, job.task.username)
  | _ => none

theorem user_lists_after_signup : ∃ s, ServerReached Entitled emptyStore s ∧
    (s.written.map fun line => (line.owner, line.line.answer)) =
      [(some 1, some ⟨1, .list, cstr "alice", .ok⟩), (some 1, some ⟨1, .signup, cstr "alice", .ok⟩)] ∧
    Authenticated s.written := by
  let before := (signedUp ++ asksForList).map (Prod.mk taskComparators)
  let lock : Comparators Id × Action := (taskComparators, .lockUser 0 true)
  let after := listedByUser.map (Prod.mk taskComparators)
  have hasks : (exec serverStep (serverInit emptyStore) before).map (fun s =>
      ((s.workers 0).asks, s.written.map fun line => (line.owner, line.line.answer))) =
      some (some (1, cstr "alice"), [(some 1, some ⟨1, .signup, cstr "alice", .ok⟩)]) := by
    decide +kernel
  have hview : ((exec serverStep (serverInit emptyStore) before).bind fun s₁ =>
      (serverStep s₁ lock).bind fun s₂ => (exec serverStep s₂ after).map fun s =>
        s.written.map fun line => (line.owner, line.line.answer)) =
      some [(some 1, some ⟨1, .list, cstr "alice", .ok⟩),
        (some 1, some ⟨1, .signup, cstr "alice", .ok⟩)] := by
    decide +kernel
  obtain ⟨s₁, hbefore, hs₁⟩ := Option.map_eq_some_iff.mp hasks
  rw [hbefore, Option.bind_some] at hview
  obtain ⟨s₂, hlock, hview⟩ := Option.bind_eq_some_iff.mp hview
  obtain ⟨s, hafter, hs⟩ := Option.map_eq_some_iff.mp hview
  obtain ⟨hworker, hlog⟩ := Prod.mk.inj hs₁
  have hsigned : SignedIn s₁.written 1 (cstr "alice") := by
    obtain ⟨line, older, hwritten, hline, _⟩ := List.map_eq_cons_iff.mp hlog
    obtain ⟨howner, hanswer⟩ := Prod.mk.inj hline
    obtain ⟨job, hok, htype, huser⟩ := answersOk_of_answer howner hanswer
    exact ⟨line, hwritten ▸ List.mem_cons_self, job, hok, Or.inr htype, huser⟩
  have hentitled : Entitled s₁ lock := by
    intro w works job haction hphase _ _
    cases haction
    rw [hphase] at hworker
    obtain ⟨hclient, huser⟩ := Prod.mk.inj (Option.some.inj hworker)
    rw [hclient, huser]
    exact hsigned
  have hreach₁ : ServerReached Entitled emptyStore s₁ :=
    .of_exec .start (guarded_entitled rfl _) hbefore
  have hreach : ServerReached Entitled emptyStore s :=
    .of_exec (.next hreach₁ hentitled hlock) (guarded_entitled rfl _) hafter
  exact ⟨s, hreach, hs, file_commands_follow_login emptyStore s hreach⟩

def listedByStranger : List Action :=
  [.accept 5 (some 1) true, .enqueue true, .takeClient 1, .command 1 (cstr "LIST alice") ⟨1, 0⟩ true,
    .findEntry 1, .takeTask 0, .lockUser 0 true,
    .process 0 true ⟨true, .ok (), .ok [], true, some []⟩, .respond 0 true, .push 0 true, .deliver 1]

theorem stranger_lists_files :
    ¬ ∀ store s, ServerReached (fun _ _ => True) store s → Authenticated s.written := by
  intro h
  have hview : (exec serverStep (serverInit emptyStore)
      ((signedUp ++ listedByStranger).map (Prod.mk taskComparators))).map
        (fun s => s.written.map fun line => (line.owner, line.line.answer)) =
      some [(some 2, some ⟨2, .list, cstr "alice", .ok⟩),
        (some 1, some ⟨1, .signup, cstr "alice", .ok⟩)] := by
    decide +kernel
  obtain ⟨s, hexec, hs⟩ := Option.map_eq_some_iff.mp hview
  have hreach : ServerReached (fun _ _ => True) emptyStore s :=
    .of_exec .start (guarded_of_forall (fun _ _ _ => trivial) _) hexec
  have hauth := h emptyStore s hreach
  obtain ⟨newest, older, hwritten, hnewest, holder⟩ := List.map_eq_cons_iff.mp hs
  obtain ⟨first, rest, rfl, hfirst, hrest⟩ := List.map_eq_cons_iff.mp holder
  obtain rfl := List.map_eq_nil_iff.mp hrest
  obtain ⟨howner, hanswer⟩ := Prod.mk.inj hnewest
  obtain ⟨job, hok, htype, huser⟩ := answersOk_of_answer howner hanswer
  rw [hwritten] at hauth
  obtain ⟨line, hline, _, ⟨hother, _⟩, _⟩ := hauth.1 2 job hok (by rw [htype]; rfl)
  rw [List.mem_singleton.mp hline, (Prod.mk.inj hfirst).1] at hother
  contradiction

end FileServer
