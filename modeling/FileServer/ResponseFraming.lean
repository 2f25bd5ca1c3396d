import FileServer.InFlight
import FileServer.Listing
import FileServer.ResponseMessages
import FileServer.SignupPriority

/-!
# Responses as lines (send_response in worker.c, client_thread_main in client.c)

A response goes over the socket as one line. Every text that a worker sends fits the
response and has no newline in it, but for the listing of a directory with files. So a
reader of lines gets back what the workers sent, in every run in which each LIST finds an
empty directory and no task fails to be allocated.
-/

namespace FileServer

open Runs Lines
set_option autoImplicit false

structure Post where
  job : Job
  status : ResponseStatus
  message : CString

/-- The reply that the message goes into. -/
def Post.reply (p : Post) : Reply := ⟨p.job, makeResponse p.job.task p.status p.message, rfl⟩

def WorkerPhase.posts : WorkerPhase → List Post
  | .sending job (.sendResponse status message :: _) => [⟨job, status, message⟩]
  | _ => []

def posted (s : Server) : Action → List Post
  | .respond w _ => (s.workers w).posts
  | _ => []

structure PostedServer where
  server : Server
  posts : List Post

def recordedStep (s : PostedServer) (l : Comparators Id × Action) : Option PostedServer :=
  (serverStep s.server l).map fun server => ⟨server, posted s.server l.2 ++ s.posts⟩

def Line.isFileData : Line → Bool
  | .fileData _ _ => true
  | .allocationFailed | .timedOut | .reply _ => false

/-- What client threads have written on a connection, in order. -/
def clientLines (s : Server) (c : Nat) : List Line :=
  ((s.written.filter fun w => w.owner = some c ∧ w.line.isFileData = false).map
    Written.line).reverse

/-- The line carries a message of a worker, or the one that the client thread makes up itself. -/
inductive Delivers (posts : List Post) : Line → ResponseStatus × CString → Prop
  | reply {p : Post} : p ∈ posts → Delivers posts (.reply p.reply) (p.status, p.message)
  | timedOut : Delivers posts .timedOut (.err, cstr "Request timed out")

def responseText (r : ResponseStatus × CString) : CString :=
  (if r.1 = .ok then cstr "OK" else cstr "ERR") ++ cstr " " ++ r.2

/-- The lines on a connection are the responses delivered on it. -/
def Framed (s : PostedServer) (c : Nat) : Prop :=
  ∃ delivered, List.Forall₂ (Delivers s.posts) (clientLines s.server c) delivered ∧
    ((clientLines s.server c).flatMap Line.bytes).splitOn 10 = delivered.map responseText ++ [[]]

/-- A step that adds no line but of a response, and no message of more than one line. -/
def OneLineStep (s : Server) : Action → Prop
  | .taskUnallocated _ => False
  | .process w _ files =>
    ∀ job u, s.workers w = .locked job (some u) →
      FsReturns job.task files ∧
        (job.task.type = .list → ∀ listing, files.list = some listing → listing = [])
  | _ => True

/-! What holds of the record and the server after every step. -/

/-- A message in one line went into the reply. -/
def Known (posts : List Post) (r : Reply) : Prop := ∃ p ∈ posts, p.reply = r ∧ OneLine p.message

/-- The words of a task are words. -/
def OneLineTask (t : Task) : Prop := 10 ∉ t.username ∧ 10 ∉ t.path

def WorkerPhase.OneLine (posts : List Post) : WorkerPhase → Prop
  | .idle | .exited => True
  | .took job | .locked job _ => OneLineTask job.task
  | .sending _ effects => SendsOneLine effects
  | .pushing _ r effects => Known posts r ∧ SendsOneLine effects

def Line.OneLine (posts : List Post) : Line → Prop
  | .allocationFailed => False
  | .timedOut => True
  | .reply r => Known posts r
  | .fileData _ _ => True

structure OneLines (s : PostedServer) : Prop where
  tasks : ∀ job ∈ s.server.taskQueue.contents, OneLineTask job.task
  workers : ∀ w, (s.server.workers w).OneLine s.posts
  queued : ∀ r, Queued s.server r → Known s.posts r
  log : ∀ w ∈ s.server.written, w.line.OneLine s.posts

section Steps
variable {s s' : Server} {posts posts' : List Post}

theorem Known.mono {r : Reply} (h : Known posts r) (hsub : posts ⊆ posts') : Known posts' r := by
  obtain ⟨p, hp, hr⟩ := h
  exact ⟨p, hsub hp, hr⟩

theorem WorkerPhase.OneLine.mono {p : WorkerPhase} (h : p.OneLine posts) (hsub : posts ⊆ posts') :
    p.OneLine posts' := by
  cases p with
  | pushing a r effects => exact ⟨h.1.mono hsub, h.2⟩
  | _ => exact h

theorem Line.OneLine.mono {l : Line} (h : l.OneLine posts) (hsub : posts ⊆ posts') :
    l.OneLine posts' := by
  cases l with
  | reply r => exact Known.mono h hsub
  | _ => exact h

theorem newline_notMem_stringField (width : Nat) (input : Option CString) :
    10 ∉ (stringField width input).1 := by
  intro hmem
  unfold stringField at hmem
  split at hmem
  · rename_i word rest hsome
    obtain ⟨s, -, hscan⟩ := Option.bind_eq_some_iff.mp hsome
    unfold scanString at hscan
    dsimp only at hscan
    split at hscan
    · contradiction
    · obtain ⟨rfl, -⟩ := Prod.mk.inj (Option.some.inj hscan)
      have hspace := List.mem_takeWhile_imp (List.mem_of_mem_take hmem)
      contradiction
  · exact absurd hmem List.not_mem_nil

theorem parseCommand_oneLine {client : ClientInfo} {now : Timespec} {line : CString} {t : Task}
    (h : parseCommand client now line = .submit t) : OneLineTask t := by
  obtain ⟨args, rfl | rfl | rfl | rfl | rfl | rfl⟩ := parseCommand_cases h
  · exact ⟨newline_notMem_stringField 63 _, List.not_mem_nil⟩
  · exact ⟨newline_notMem_stringField 63 _, List.not_mem_nil⟩
  · exact ⟨newline_notMem_stringField 63 _, newline_notMem_stringField 255 _⟩
  · exact ⟨newline_notMem_stringField 63 _, newline_notMem_stringField 255 _⟩
  · exact ⟨newline_notMem_stringField 63 _, newline_notMem_stringField 255 _⟩
  · exact ⟨newline_notMem_stringField 63 _, List.not_mem_nil⟩

theorem posted_respond {w : Nat} {allocates : Bool} {job : Job} {status : ResponseStatus}
    {message : CString} {rest : List Effect}
    (h : s.workers w = .sending job (.sendResponse status message :: rest)) :
    posted s (.respond w allocates) = [⟨job, status, message⟩] := by
  rw [posted, h]
  rfl

theorem update_oneLine {w : Nat} {q : WorkerPhase}
    (hworkers : s'.workers = Function.update s.workers w q)
    (h : ∀ u, (s.workers u).OneLine posts) (hsub : posts ⊆ posts') (hq : q.OneLine posts') (u : Nat) :
    (s'.workers u).OneLine posts' := by
  rw [hworkers]
  rcases eq_or_ne u w with rfl | hne
  · rw [Function.update_self]
    exact hq
  · rw [Function.update_of_ne hne]
    exact (h u).mono hsub

theorem posts_subset (s : Server) (action : Action) (posts : List Post) :
    posts ⊆ posted s action ++ posts := List.subset_append_right _ _

theorem Moves.workersOneLine {action : Action} (hm : Moves s action s')
    (hallowed : OneLineStep s action) (h : OneLines ⟨s, posts⟩) (u : Nat) :
    (s'.workers u).OneLine (posted s action ++ posts) := by
  have hsub := posts_subset s action posts
  cases hm with
  | exitWorker _ =>
    refine update_oneLine rfl h.workers hsub ?_ u
    exact trivial
  | takeTask _ hperm =>
    refine update_oneLine rfl h.workers hsub ?_ u
    exact h.tasks _ (hperm.mem_iff.mp List.mem_cons_self)
  | @lockUser w works job hphase _ =>
    have hbefore := h.workers w
    rw [hphase] at hbefore
    refine update_oneLine rfl h.workers hsub ?_ u
    exact hbefore
  | @process w works files job user store effects hphase hresult =>
    have heffects : (processTask works files s.store job.task user).2 = effects :=
      congrArg Prod.snd hresult
    have htask : OneLineTask job.task := by
      have hbefore := h.workers w
      rcases hphase with ⟨hphase, -, -⟩ | hphase
      · rw [hphase] at hbefore
        exact hbefore
      · rw [hphase] at hbefore
        exact hbefore
    have hfiles : ∀ u, user = some u → FsReturns job.task files ∧
        (job.task.type = .list → ∀ listing, files.list = some listing → listing = []) := by
      rintro u rfl
      rcases hphase with ⟨-, -, hnone⟩ | hphase
      · contradiction
      · exact hallowed job u hphase
    have hsends : SendsOneLine (processTask works files s.store job.task user).2 :=
      processTask_sendsOneLine works htask.1 htask.2 hfiles
    refine update_oneLine rfl h.workers hsub ?_ u
    exact heffects ▸ hsends
  | @respond w job status message rest a hphase _ =>
    have hbefore := h.workers w
    rw [hphase] at hbefore
    have hknown : Known (posted s (.respond w true) ++ posts)
        ⟨job, makeResponse job.task status message, rfl⟩ := by
      rw [posted_respond hphase]
      exact ⟨⟨job, status, message⟩, List.mem_cons_self, rfl, hbefore status message List.mem_cons_self⟩
    refine update_oneLine rfl h.workers hsub ?_ u
    exact ⟨hknown, hbefore.tail⟩
  | @respondDropped w allocates job status message rest hphase =>
    have hbefore := h.workers w
    rw [hphase] at hbefore
    refine update_oneLine rfl h.workers hsub ?_ u
    exact hbefore.tail
  | @push w grows a r rest e q hphase _ _ =>
    have hbefore := h.workers w
    rw [hphase] at hbefore
    refine update_oneLine rfl h.workers hsub ?_ u
    exact hbefore.2
  | @pushFreed w grows a r rest hphase _ =>
    have hbefore := h.workers w
    rw [hphase] at hbefore
    refine update_oneLine rfl h.workers hsub ?_ u
    exact hbefore.2
  | @sendFile w content job filePath filename rest hphase =>
    have hbefore := h.workers w
    rw [hphase] at hbefore
    refine update_oneLine rfl h.workers hsub ?_ u
    exact hbefore.tail
  | @sendFileMissing w job filePath filename rest hphase =>
    have hbefore := h.workers w
    rw [hphase] at hbefore
    refine update_oneLine rfl h.workers hsub ?_ u
    exact hbefore.tail
  | finish _ =>
    refine update_oneLine rfl h.workers hsub ?_ u
    exact trivial
  | _ => exact (h.workers u).mono hsub

theorem Moves.logOneLine {action : Action} (hm : Moves s action s')
    (hallowed : OneLineStep s action) (h : OneLines ⟨s, posts⟩) :
    ∀ w ∈ s'.written, w.line.OneLine (posted s action ++ posts) := by
  have hlog : ∀ w ∈ s.written, w.line.OneLine (posted s action ++ posts) := fun w hw =>
    (h.log w hw).mono (posts_subset s action posts)
  cases hm with
  | taskUnallocated _ => exact hallowed.elim
  | @deliver t ci a e r q _ hmem hperm =>
    have hqueued : Queued s r := ⟨a, e, hmem, hperm.mem_iff.mp List.mem_cons_self⟩
    have hknown := (h.queued r hqueued).mono (posts_subset s (.deliver t) posts)
    exact List.forall_mem_cons.mpr ⟨hknown, hlog⟩
  | timeOut _ => exact List.forall_mem_cons.mpr ⟨trivial, hlog⟩
  | sendFile _ => exact List.forall_mem_cons.mpr ⟨trivial, hlog⟩
  | _ => exact hlog

theorem Moves.oneLines {action : Action} (hm : Moves s action s') (hallowed : OneLineStep s action)
    (h : OneLines ⟨s, posts⟩) : OneLines ⟨s', posted s action ++ posts⟩ := by
  refine ⟨?_, hm.workersOneLine hallowed h, ?_, hm.logOneLine hallowed h⟩
  · intro job hjob
    rcases hm.taskQueue hjob with hbefore | ⟨ci, ⟨t, line, now, grows, -, -, hparse⟩, -⟩
    · exact h.tasks job hbefore
    · exact parseCommand_oneLine hparse
  · intro r hr
    rcases hm.queued hr with hbefore | ⟨w, a, rest, hphase⟩
    · exact (h.queued r hbefore).mono (posts_subset s action posts)
    · have hpushing := h.workers w
      rw [hphase] at hpushing
      exact hpushing.1.mono (posts_subset s action posts)

end Steps

section Runs
variable {store : UserStore} {s : PostedServer} {posts : List Post}

theorem oneLines_reached
    (h : Reached recordedStep (fun s l => OneLineStep s.server l.2) ⟨serverInit store, []⟩ s) :
    OneLines s := by
  apply h.invariant
  · refine ⟨?_, fun _ => trivial, ?_, by simp [serverInit]⟩
    · simp [serverInit]
    · rintro r ⟨a, e, hmem, -⟩
      contradiction
  · intro s s' l _ hs hl hstep
    obtain ⟨server, hserver, rfl⟩ := Option.map_eq_some_iff.mp hstep
    exact (serverStep_moves hserver).oneLines hl hs

theorem PostedServer.of_reached {allowed : Server → Comparators Id × Action → Prop} {server : Server}
    (h : ServerReached allowed store server) :
    ∃ posts, Reached recordedStep (fun s l => allowed s.server l) ⟨serverInit store, []⟩
      ⟨server, posts⟩ := by
  induction h with
  | start => exact ⟨[], .start⟩
  | @next s s' l _ hl hstep ih =>
    obtain ⟨posts, hposts⟩ := ih
    have hrecorded : recordedStep ⟨s, posts⟩ l = some ⟨s', posted s l.2 ++ posts⟩ := by
      rw [recordedStep, hstep]
      rfl
    exact ⟨_, .next hposts hl hrecorded⟩

theorem responseLine_makeResponse {p : Post} (h : OneLine p.message) :
    Line.bytes (.reply p.reply) = responseText (p.status, p.message) ++ [10] := by
  have hmessage : p.reply.response.message = p.message := by
    change strncpyZ 512 p.message = p.message
    rw [strncpyZ]
    exact List.take_of_length_le h.2
  have hstatus : p.reply.response.status = p.status := rfl
  rw [Line.bytes, responseLine_eq (by rw [hmessage]; exact h.2), hmessage, hstatus]
  rfl

theorem newline_notMem_responseText {status : ResponseStatus} {message : CString}
    (h : OneLine message) : 10 ∉ responseText (status, message) := by
  have hok : (10 : Byte) ∉ cstr "OK" := by decide
  have herr : (10 : Byte) ∉ cstr "ERR" := by decide
  have hblank : (10 : Byte) ∉ cstr " " := by decide
  simp only [responseText, List.mem_append, not_or]
  refine ⟨⟨?_, hblank⟩, h.1⟩
  split
  · exact hok
  · exact herr

theorem Line.OneLine.delivers {l : Line} (h : l.OneLine posts) (hclient : l.isFileData = false) :
    ∃ d, Delivers posts l d ∧ l.bytes = responseText d ++ [10] ∧ 10 ∉ responseText d := by
  cases l with
  | allocationFailed => exact h.elim
  | timedOut => exact ⟨_, .timedOut, by decide, by decide⟩
  | reply r =>
    obtain ⟨p, hp, rfl, hline⟩ := h
    exact ⟨_, .reply hp, responseLine_makeResponse hline, newline_notMem_responseText hline⟩
  | fileData name content => contradiction

theorem lines_delivered {lines : List Line}
    (h : ∀ l ∈ lines, l.OneLine posts ∧ l.isFileData = false) :
    ∃ delivered, List.Forall₂ (Delivers posts) lines delivered ∧
      lines.flatMap Line.bytes = joined 10 (delivered.map responseText) ∧
      ∀ text ∈ delivered.map responseText, 10 ∉ text := by
  induction lines with
  | nil => exact ⟨[], .nil, rfl, by simp⟩
  | cons l lines ih =>
    obtain ⟨hline, hclient⟩ := h l List.mem_cons_self
    obtain ⟨d, hd, hbytes, hplain⟩ := hline.delivers hclient
    obtain ⟨delivered, hall, hjoined, hplains⟩ := ih fun l' hl' => h l' (List.mem_cons_of_mem l hl')
    refine ⟨d :: delivered, .cons hd hall, ?_, List.forall_mem_cons.mpr ⟨hplain, hplains⟩⟩
    rw [List.flatMap_cons, hbytes, hjoined, List.map_cons, joined_cons, List.append_assoc]
    rfl

/-- What client threads write on a connection are lines, and the lines are the responses, in
every run of which no LIST finds a file and no task fails to be allocated. -/
theorem responses_framed
    (h : Reached recordedStep (fun s l => OneLineStep s.server l.2) ⟨serverInit store, []⟩ s)
    (c : Nat) : Framed s c := by
  have hlog := (oneLines_reached h).log
  have hlines : ∀ l ∈ clientLines s.server c, l.OneLine s.posts ∧ l.isFileData = false := by
    intro l hl
    obtain ⟨w, hw, rfl⟩ := List.mem_map.mp (List.mem_reverse.mp hl)
    obtain ⟨hwritten, hclient⟩ := List.mem_filter.mp hw
    exact ⟨hlog w hwritten, (decide_eq_true_eq.mp hclient).2⟩
  obtain ⟨delivered, hall, hbytes, hplain⟩ := lines_delivered hlines
  refine ⟨delivered, hall, ?_⟩
  rw [hbytes, splitOn_joined hplain]

end Runs

def signupThenList (listing : CString) : List Action :=
  [.accept 4 (some 0) true, .enqueue true, .takeClient 0,
    .command 0 (cstr "SIGNUP alice pw") ⟨0, 0⟩ true, .findEntry 0, .takeTask 0,
    .process 0 true noResults, .respond 0 true, .push 0 true, .deliver 0, .finish 0,
    .command 0 (cstr "LIST alice") ⟨1, 0⟩ true, .findEntry 0, .takeTask 0, .lockUser 0 true,
    .process 0 true { noResults with list := some listing }, .respond 0 true, .push 0 true,
    .deliver 0, .finish 0]

def recordedRun (listing : CString) : Option PostedServer :=
  exec recordedStep ⟨serverInit emptyStore, []⟩
    ((signupThenList listing).map (Prod.mk taskComparators))

theorem noResults_fsReturns (t : Task) (list : Option CString) :
    FsReturns t { noResults with list := list } where
  upload text h := by
    obtain rfl := Except.error.inj h
    exact List.not_mem_nil
  download text h := by
    obtain rfl := Except.error.inj h
    exact List.not_mem_nil
  copy path h := by contradiction

theorem signupThenList_oneLine (s : Server) : ∀ action ∈ signupThenList [], OneLineStep s action := by
  have hprocess : ∀ list : Option CString, (∀ listing, list = some listing → listing = []) →
      OneLineStep s (.process 0 true { noResults with list := list }) := fun list hlist job _ _ =>
    ⟨noResults_fsReturns job.task list, fun _ => hlist⟩
  have hsignup := hprocess none (by simp)
  have hlist := hprocess (some []) (by simp)
  simp only [signupThenList, List.forall_mem_cons]
  exact ⟨trivial, trivial, trivial, trivial, trivial, trivial, hsignup, trivial, trivial, trivial,
    trivial, trivial, trivial, trivial, trivial, hlist, trivial, trivial, trivial, trivial, by simp⟩

theorem empty_listing_framed : ∃ s : PostedServer,
    (clientLines s.server 1).flatMap Line.bytes = cstr "OK signed_up\nOK \n" ∧ Framed s 1 := by
  have hview : (recordedRun []).map (fun s => (clientLines s.server 1).flatMap Line.bytes) =
      some (cstr "OK signed_up\nOK \n") := by decide +kernel
  obtain ⟨s, hrun, hbytes⟩ := Option.map_eq_some_iff.mp hview
  refine ⟨s, hbytes, responses_framed (Reached.of_exec .start (guarded_of_forall ?_ _) hrun) 1⟩
  intro l hl s
  obtain ⟨action, haction, rfl⟩ := List.mem_map.mp hl
  exact signupThenList_oneLine s.server action haction

/-- The line of a listing is followed by one that nobody sent. -/
theorem listing_not_framed :
    ¬ ∀ store s, Reached recordedStep (fun _ _ => True) ⟨serverInit store, []⟩ s → ∀ c, Framed s c := by
  intro h
  have hview : (recordedRun (cstr "notes\n")).map (fun s =>
      ((clientLines s.server 1).length, ((clientLines s.server 1).flatMap Line.bytes).splitOn 10)) =
      some (2, [cstr "OK signed_up", cstr "OK notes", [], []]) := by decide +kernel
  obtain ⟨s, hrun, hs⟩ := Option.map_eq_some_iff.mp hview
  obtain ⟨hlength, hsplit⟩ := Prod.mk.inj hs
  obtain ⟨delivered, hall, hlines⟩ := h emptyStore s
    (Reached.of_exec .start (guarded_of_forall (fun _ _ _ => trivial) _) hrun) 1
  have hcount := hall.length_eq
  have hpieces := congrArg List.length (hsplit.symm.trans hlines)
  rw [List.length_append, List.length_map, ← hcount, hlength] at hpieces
  contradiction

end FileServer
