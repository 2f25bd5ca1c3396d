import FileServer.Credentials
import FileServer.FileSteps
import FileServer.SignupPriority
import FileServer.TaskLife

/-!
# Accounts over restarts

The name of an account is given once and its password stays. Both hold over any
interleaving of the workers, and over any number of restarts of a server with the
persistent store, wherever a crash has cut a run off: what has been answered OK to a
SIGNUP or a LOGIN fixes the password that the store will accept for that name, and no
second SIGNUP for the name is answered OK. Accounts of the in-memory store end with
the run.

The database is a file in the storage root, and nothing keeps the file commands from
it: `DELETE alice ../users.db` is processed like any other. So all of this is about
runs in which no file command names the database.
-/

namespace FileServer

open Runs
set_option autoImplicit false

/-- The account of the task's user has the task's password. -/
def Vouches (m : Credentials) (t : Task) : Prop :=
  (m t.username).map Credential.password = some t.password

def SignsIn (t : Task) : Prop := t.type = .login ∨ t.type = .signup

def Extends (m m' : Credentials) : Prop := ∀ name c, m name = some c → m' name = some c

section Database
variable (leads : CString → Prop)

variable {leads}

end Database

section Maps
variable {m m' m'' : Credentials} {t : Task}

theorem Extends.refl (m : Credentials) : Extends m m := fun _ _ h => h

theorem Extends.trans (h : Extends m m') (h' : Extends m' m'') : Extends m m'' :=
  fun name c hc => h' name c (h name c hc)

theorem Vouches.extends (h : Vouches m t) (hm : Extends m m') : Vouches m' t := by
  obtain ⟨c, hc, hpass⟩ := Option.map_eq_some_iff.mp h
  rw [Vouches, hm t.username c hc, Option.map_some, hpass]

theorem Vouches.registered (h : Vouches m t) : m t.username ≠ none := by
  intro hnone
  rw [Vouches, hnone] at h
  contradiction

theorem extends_update {name : CString} {c : Credential} (hnew : m name = none) :
    Extends m (Function.update m name (some c)) := by
  intro name' c' hc
  have hne : name' ≠ name := by
    rintro rfl
    rw [hnew] at hc
    contradiction
  rw [Function.update_of_ne hne]
  exact hc

end Maps

section Store
variable {works : Bool} {files : FileResults} {store store' : UserStore} {t : Task} {user : Option User}
variable {effects : List Effect}

theorem login_vouches (h : userStoreLogin works store t.username t.password = true) :
    Vouches store.credentials t := by
  have hlogin : userStoreLogin true store t.username t.password = true := by
    cases works with
    | true => exact h
    | false =>
      unfold userStoreLogin at h ⊢
      cases hs : store.storage with
      | persistent rows => simp [hs] at h
      | memory users => simpa [hs] using h
  have hworks : Dependable store ⟨0, true, .login t.username t.password⟩ := fun _ => rfl
  have hrefines := login_refines hworks t.username t.password
  rw [hlogin] at hrefines
  unfold Vouches
  exact of_decide_eq_true hrefines.symm

/-- What processing a task does to the accounts, and what an OK to a sign-in says of them. -/
theorem processTask_accounts (huser : t.username.length ≤ 63) (hpass : t.password.length ≤ 63)
    (h : processTask works files store t user = (store', effects)) :
    Extends store.credentials store'.credentials ∧
      (SignsIn t → SendsOk effects → Vouches store'.credentials t) ∧
      (t.type = .signup → SendsOk effects → store.credentials t.username = none) := by
  unfold processTask at h
  cases htype : t.type with
  | signup =>
    rw [htype] at h
    obtain ⟨hok, hmap⟩ := signup_refines works store huser hpass (100 * 2 ^ 20) t.priority
    unfold processSignup at h
    cases hresult : userStoreSignup works store t.username t.password (100 * 2 ^ 20) t.priority with
    | mk ok stored =>
      rw [hresult] at hok hmap h
      cases ok with
      | false =>
        obtain ⟨rfl, rfl⟩ := Prod.mk.inj h
        have hsame : stored.credentials = store.credentials := hmap
        have hsilent : ¬ SendsOk [.sendResponse .err (orText (snprintf 255
            (cstr "Signup failed - user may already exist")) (cstr "signup_failed"))] := by
          rintro ⟨message, hmem⟩
          simp at hmem
        rw [hsame]
        exact ⟨.refl _, fun _ hsends => absurd hsends hsilent, fun _ hsends => absurd hsends hsilent⟩
      | true =>
        obtain ⟨rfl, rfl⟩ := Prod.mk.inj h
        have hnew : store.credentials t.username = none := (hok.mp rfl).2
        have hadded : stored.credentials = Function.update store.credentials t.username
            (some ⟨t.password, 100 * 2 ^ 20⟩) := hmap
        rw [hadded]
        refine ⟨extends_update hnew, fun _ _ => ?_, fun _ _ => hnew⟩
        rw [Vouches, Function.update_self]
        rfl
  | login =>
    rw [htype] at h
    obtain ⟨rfl, rfl⟩ := Prod.mk.inj h
    refine ⟨.refl _, fun _ hsends => ?_, fun hsignup => by cases hsignup⟩
    obtain ⟨message, hmem⟩ := hsends
    cases user with
    | none => simp [processLogin] at hmem
    | some u =>
      unfold processLogin at hmem
      dsimp only at hmem
      split at hmem
      · rename_i hlogin
        exact login_vouches hlogin
      · simp at hmem
  | _ =>
    rw [htype] at h
    obtain ⟨rfl, -⟩ := Prod.mk.inj h
    exact ⟨.refl _, fun hsigns => by simp [SignsIn, htype] at hsigns, fun hsignup => by cases hsignup⟩

end Store

def FitsStore (t : Task) : Prop := t.username.length ≤ 63 ∧ t.password.length ≤ 63

/-- The step processes the task, and its worker will answer OK. -/
def Processes (s : Server) (action : Action) (s' : Server) (job : Job) : Prop :=
  ∃ w works files user effects, action = .process w works files ∧ (s.workers w).pending job ∧
    processTask works files s.store job.task user = (s'.store, effects) ∧ SendsOk effects

section Steps
variable {s s' : Server} {action : Action} {job : Job}

theorem pending_of_processing {w : Nat} {user : Option User}
    (h : (s.workers w = .took job ∧ locksUser job.task = false ∧ user = none) ∨
      s.workers w = .locked job user) : (s.workers w).pending job := by
  rcases h with ⟨hphase, _⟩ | hphase
  · rw [hphase]
    rfl
  · rw [hphase]
    rfl

theorem WorkerPhase.pending_unique {p : WorkerPhase} {job' : Job} (h : p.pending job)
    (h' : p.pending job') : job = job' := by
  cases p with
  | took j => exact Eq.trans (Eq.symm h) h'
  | locked j user => exact Eq.trans (Eq.symm h) h'
  | _ => exact absurd h id

theorem Processes.unique {job' : Job} (h : Processes s action s' job)
    (h' : Processes s action s' job') : job = job' := by
  obtain ⟨w, works, files, user, effects, rfl, hpending, -⟩ := h
  obtain ⟨w', works', files', user', effects', heq, hpending', -⟩ := h'
  obtain ⟨rfl, -⟩ := Action.process.inj heq
  exact WorkerPhase.pending_unique hpending hpending'

theorem Moves.announces_processed (hm : Moves s action s') {w : Nat}
    (h : (s'.workers w).announces job) : (s.workers w).announces job ∨ Processes s action s' job := by
  cases hm with
  | @process v works files job' user store effects hphase hresult =>
    rcases eq_or_ne w v with rfl | hne
    · simp only [Server.setWorker, Function.update_self] at h
      obtain ⟨rfl, hok⟩ := h
      exact Or.inr ⟨w, works, files, user, effects, rfl, pending_of_processing hphase, hresult, hok⟩
    · simp only [Server.setWorker, Function.update_of_ne hne] at h
      exact Or.inl h
  | exitWorker _ => exact Or.inl (update_announces rfl (absurd · id) h)
  | takeTask _ _ => exact Or.inl (update_announces rfl (absurd · id) h)
  | lockUser _ _ => exact Or.inl (update_announces rfl (absurd · id) h)
  | finish _ => exact Or.inl (update_announces rfl (absurd · id) h)
  | @respond v job' status message rest a hphase _ =>
    refine Or.inl (update_announces rfl ?_ h)
    rintro ⟨rfl, hok | ⟨text, hmem⟩⟩
    · have hstatus : status = .ok := hok
      rw [hphase, hstatus]
      exact ⟨rfl, message, List.mem_cons_self⟩
    · rw [hphase]
      exact ⟨rfl, text, List.mem_cons_of_mem _ hmem⟩
  | respondDropped hphase => exact Or.inl (update_announces rfl (announces_skip hphase) h)
  | sendFile hphase => exact Or.inl (update_announces rfl (announces_skip hphase) h)
  | sendFileMissing hphase => exact Or.inl (update_announces rfl (announces_skip hphase) h)
  | push hphase _ _ => exact Or.inl (update_announces rfl (announces_pushed hphase) h)
  | pushFreed hphase _ => exact Or.inl (update_announces rfl (announces_pushed hphase) h)
  | _ => exact Or.inl h

/-- An OK is announced by the worker that has processed the task, and by no other step. -/
theorem Moves.announced (hm : Moves s action s') (h : Announced s' job) :
    Announced s job ∨ Processes s action s' job := by
  rcases h with ⟨w, hw⟩ | ⟨r, hr, rfl, hok⟩ | ⟨line, hline, r, hreply, rfl, hok⟩
  · rcases hm.announces_processed hw with hold | hnew
    · exact Or.inl (Or.inl ⟨w, hold⟩)
    · exact Or.inr hnew
  · rcases hm.queued hr with hold | ⟨w, a, rest, hphase⟩
    · exact Or.inl (Or.inr (Or.inl ⟨r, hold, rfl, hok⟩))
    · refine Or.inl (Or.inl ⟨w, ?_⟩)
      rw [hphase]
      exact ⟨rfl, Or.inl hok⟩
  · rcases hm.written with heq | ⟨new, heq, hnew⟩
    · rw [heq] at hline
      exact Or.inl (Or.inr (Or.inr ⟨line, hline, r, hreply, rfl, hok⟩))
    · rw [heq] at hline
      rcases List.mem_cons.mp hline with rfl | hline
      · exact Or.inl (Or.inr (Or.inl ⟨r, hnew r hreply, rfl, hok⟩))
      · exact Or.inl (Or.inr (Or.inr ⟨line, hline, r, hreply, rfl, hok⟩))

/-- In a run that has started with the accounts `m`. -/
structure Attested (m : Credentials) (s : Server) : Prop where
  fits : ∀ job, Pending s job → FitsStore job.task
  kept : Extends m s.store.credentials
  vouched : ∀ job, Announced s job → SignsIn job.task → Vouches s.store.credentials job.task
  fresh : ∀ job, Announced s job → job.task.type = .signup → m job.task.username = none
  once : ∀ job job', Announced s job → Announced s job' → job.task.type = .signup →
    job'.task.type = .signup → job.task.username = job'.task.username → job = job'

theorem Moves.store_extends (hm : Moves s action s') (hfits : ∀ job, Pending s job → FitsStore job.task) :
    Extends s.store.credentials s'.store.credentials := by
  cases hm with
  | @process w works files job user store effects hphase hresult =>
    have hfit := hfits job (Or.inr ⟨w, pending_of_processing hphase⟩)
    exact (processTask_accounts hfit.1 hfit.2 hresult).1
  | _ => exact .refl _

variable {m : Credentials}

theorem Attested.fresh_processed (h : Attested m s) (hprocesses : Processes s action s' job)
    (hsignup : job.task.type = .signup) : s.store.credentials job.task.username = none := by
  obtain ⟨w, works, files, user, effects, -, hpending, hresult, hok⟩ := hprocesses
  have hfit := h.fits job (Or.inr ⟨w, hpending⟩)
  exact (processTask_accounts hfit.1 hfit.2 hresult).2.2 hsignup hok

theorem Attested.taken (h : Attested m s) (hjob : Announced s job) (hsignup : job.task.type = .signup) :
    s.store.credentials job.task.username ≠ none :=
  (h.vouched job hjob (Or.inr hsignup)).registered

theorem Attested.step (h : Attested m s) (hm : Moves s action s') : Attested m s' := by
  have hextends := hm.store_extends h.fits
  refine ⟨?_, h.kept.trans hextends, ?_, ?_, ?_⟩
  · intro job hjob
    rcases hm.pending hjob with hold | ⟨ci, t, line, now, grows, _, _, hparse⟩
    · exact h.fits job hold
    · exact ⟨parseCommand_username hparse, parseCommand_password hparse⟩
  · intro job hjob hsigns
    rcases hm.announced hjob with hold | ⟨w, works, files, user, effects, -, hpending, hresult, hok⟩
    · exact (h.vouched job hold hsigns).extends hextends
    · have hfit := h.fits job (Or.inr ⟨w, hpending⟩)
      exact (processTask_accounts hfit.1 hfit.2 hresult).2.1 hsigns hok
  · intro job hjob hsignup
    rcases hm.announced hjob with hold | hnew
    · exact h.fresh job hold hsignup
    · have hnone := h.fresh_processed hnew hsignup
      cases hfirst : m job.task.username with
      | none => rfl
      | some c =>
        rw [h.kept _ c hfirst] at hnone
        contradiction
  · intro job job' hjob hjob' hsignup hsignup' hname
    rcases hm.announced hjob with hold | hnew
    · rcases hm.announced hjob' with hold' | hnew'
      · exact h.once job job' hold hold' hsignup hsignup' hname
      · have hnone := h.fresh_processed hnew' hsignup'
        rw [← hname] at hnone
        exact absurd hnone (h.taken hold hsignup)
    · rcases hm.announced hjob' with hold' | hnew'
      · have hnone := h.fresh_processed hnew hsignup
        rw [hname] at hnone
        exact absurd hnone (h.taken hold' hsignup')
      · exact hnew.unique hnew'

end Steps

theorem attested_reached {store : UserStore} {s : Server}
    (h : ServerReached (fun _ _ => True) store s) : Attested store.credentials s := by
  apply h.invariant
  · have hnone : ∀ job, ¬ Announced (serverInit store) job := by
      rintro job (⟨w, hw⟩ | ⟨r, ⟨a, e, hmem, _⟩, _⟩ | ⟨line, hline, _⟩)
      · exact hw
      · contradiction
      · contradiction
    refine ⟨?_, .refl _, fun job hjob => absurd hjob (hnone job),
      fun job hjob => absurd hjob (hnone job), fun job _ hjob => absurd hjob (hnone job)⟩
    rintro job (hmem | ⟨w, hw⟩)
    · contradiction
    · exact absurd hw id
  · intro s s' l _ hs _ hstep
    exact hs.step (serverStep_moves hstep)

section Lines
variable {store : UserStore} {log : List Written} {s : Server} {t t' : Task} {root : CString}

theorem answered_reply {line : Line} (h : line.answered = some (t, .ok)) :
    ∃ r, line = .reply r ∧ r.job.task = t ∧ r.response.status = .ok := by
  cases line with
  | reply r =>
    obtain ⟨htask, hok⟩ := Prod.mk.inj (Option.some.inj h)
    exact ⟨r, rfl, htask, hok⟩
  | _ => contradiction

/-- The lines of a log on which the accounts `m` are known: each sign-in answered OK is to one
of them, and no name was given twice. -/
structure LinesAttested (m : Credentials) (log : List Written) : Prop where
  vouched : ∀ line ∈ log, ∀ t, line.line.answered = some (t, .ok) → SignsIn t → Vouches m t
  once : log.Pairwise fun newer older => ∀ t t', newer.line.answered = some (t, .ok) →
    older.line.answered = some (t', .ok) → t.type = .signup → t'.type = .signup →
      t.username ≠ t'.username

theorem written_once (h : ServerReached (fun _ _ => True) store s) :
    s.written.Pairwise fun newer older => ∀ t t', newer.line.answered = some (t, .ok) →
      older.line.answered = some (t', .ok) → t.type = .signup → t'.type = .signup →
        t.username ≠ t'.username := by
  have hdistinct := List.pairwise_filterMap.mp (replyTickets_nodup h)
  apply hdistinct.imp_of_mem
  intro newer older hnewer holder htickets t t' hanswered hanswered' hsignup hsignup' hname
  obtain ⟨r, hr, rfl, hok⟩ := answered_reply hanswered
  obtain ⟨r', hr', rfl, hok'⟩ := answered_reply hanswered'
  have hjob : r.job = r'.job := by
    apply (attested_reached h).once _ _ _ _ hsignup hsignup' hname
    · exact Or.inr (Or.inr ⟨newer, hnewer, r, hr, rfl, hok⟩)
    · exact Or.inr (Or.inr ⟨older, holder, r', hr', rfl, hok'⟩)
  refine htickets r.job.ticket ?_ r'.job.ticket ?_ (congrArg Job.ticket hjob)
  · rw [hr]
    rfl
  · rw [hr']
    rfl

theorem LinesAttested.run (h : LinesAttested store.credentials log)
    (hs : ServerReached (fun _ _ => True) store s) :
    LinesAttested s.store.credentials (s.written ++ log) := by
  have hattested := attested_reached hs
  constructor
  · intro line hline t hanswered hsigns
    rcases List.mem_append.mp hline with hline | hline
    · obtain ⟨r, hr, rfl, hok⟩ := answered_reply hanswered
      exact hattested.vouched r.job (Or.inr (Or.inr ⟨line, hline, r, hr, rfl, hok⟩)) hsigns
    · exact (h.vouched line hline t hanswered hsigns).extends hattested.kept
  · refine List.pairwise_append.mpr ⟨written_once hs, h.once, ?_⟩
    intro newer hnewer older holder t t' hanswered hanswered' hsignup hsignup' hname
    obtain ⟨r, hr, rfl, hok⟩ := answered_reply hanswered
    have hfree := hattested.fresh r.job (Or.inr (Or.inr ⟨newer, hnewer, r, hr, rfl, hok⟩)) hsignup
    have hold := (h.vouched older holder t' hanswered' (Or.inr hsignup')).registered
    rw [hname] at hfree
    exact hold hfree

end Lines

end FileServer
