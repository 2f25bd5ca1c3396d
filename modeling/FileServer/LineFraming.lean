import FileServer.LineIndependence
import FileServer.CommandRoundTrip

/-!
# The lines of a connection and the lines that are read

A peer sends lines of any length, each closed by a newline. The command loop reads
them back one by one as long as none is empty or longer than 510 bytes. The length
of an empty line is the value that ends the loop. A line of 511 bytes fills the
buffer before its newline, which is then read as an empty line; a longer one is
read in pieces.
-/

namespace FileServer

set_option autoImplicit false

structure SentLine where
  text : CString
  unbroken : Unbroken text

def streamOf (lines : List SentLine) : List Byte := lines.flatMap fun line => line.text ++ [10]

inductive LoopEnd where
  | quit
  | endOfStream
  | emptyLine
  | entryLost
  deriving DecidableEq, Repr

def handle (client : ClientInfo) (env : LineEnv) (line : CString) : Parsed :=
  if env.allocates then parseCommand client env.now line else .unknown

/-- The lines of the successful calls to `recv_line`, each with the task that is
pushed for it, and how the loop ends. -/
def readLoop (client : ClientInfo) (env : Nat → LineEnv) (k : Nat) (stream : List Byte)
    (buf : Buffer) : List (CString × Option Task) × LoopEnd :=
  let r := recvLine stream buf
  let line := cString r.buf.toList
  if _hr : r.result ≤ 0 then ([], if r.result = 0 then .emptyLine else .endOfStream)
  else
    match handle client (env k) line with
    | .quit => ([(line, none)], .quit)
    | .unknown =>
      let (next, ended) := readLoop client env (k + 1) r.rest r.buf
      ((line, none) :: next, ended)
    | .submit task =>
      if (env k).entryFound then
        let (next, ended) := readLoop client env (k + 1) r.rest r.buf
        ((line, some task) :: next, ended)
      else ([(line, some task)], .entryLost)
termination_by stream.length
decreasing_by
  all_goals
    have := recvLineFrom_rest 0 stream buf
    unfold r recvLine at *
    omega

/-- The lines up to QUIT, each with the task it asks for. -/
def sessionOf (client : ClientInfo) (env : Nat → LineEnv) : Nat → List SentLine →
    List (CString × Option Task)
  | _, [] => []
  | k, line :: lines =>
    (line.text, (handle client (env k) line.text).task?) ::
      if handle client (env k) line.text = .quit then [] else sessionOf client env (k + 1) lines

/-- The loop reads back the lines that were sent, pushes at most one task for
each, and ends at QUIT or at the end of the stream. -/
structure FramesLines (client : ClientInfo) (env : Nat → LineEnv) (lines : List SentLine)
    (buf : Buffer) : Prop where
  reads : (readLoop client env 0 (streamOf lines) buf).1 = sessionOf client env 0 lines
  pushes : (serve ⟨client, env, streamOf lines⟩ buf).1 =
    (sessionOf client env 0 lines).filterMap Prod.snd
  ends : (readLoop client env 0 (streamOf lines) buf).2 = .quit ∨
    (readLoop client env 0 (streamOf lines) buf).2 = .endOfStream

/-- Every line before QUIT leaves room for its newline and is not empty, and the
response entry is there after each task. -/
def WellFramed (client : ClientInfo) (env : Nat → LineEnv) : Nat → List SentLine → Prop
  | _, [] => True
  | k, line :: lines =>
    match handle client (env k) line.text with
    | .quit => line.text.length ≤ 511
    | .unknown =>
      (0 < line.text.length ∧ line.text.length ≤ 510) ∧ WellFramed client env (k + 1) lines
    | .submit _ =>
      (0 < line.text.length ∧ line.text.length ≤ 510) ∧ (env k).entryFound = true ∧
        WellFramed client env (k + 1) lines

variable {client : ClientInfo} {env : Nat → LineEnv}

section Loop
variable {stream : List Byte}

theorem lineTasks_handle (env : LineEnv) (line : CString) (next : List Task) :
    lineTasks client env line next =
      match handle client env line with
      | .quit => []
      | .unknown => next
      | .submit task => task :: if env.entryFound then next else [] := by
  unfold lineTasks handle
  cases env.allocates with
  | false => rfl
  | true => rfl

theorem serveFrom_read {k : Nat} {buf : Buffer} (hr : ¬ (recvLine stream buf).result ≤ 0) :
    (serveFrom client env k stream buf).1 =
      lineTasks client (env k) (cString (recvLine stream buf).buf.toList)
        (serveFrom client env (k + 1) (recvLine stream buf).rest (recvLine stream buf).buf).1 := by
  obtain ⟨hrest, hresult, _⟩ := recvLine_frame stream buf
  rw [serveFrom_tasks, if_neg (fun hnil => hr (hresult.mpr hnil)), hrest]

theorem serveFrom_readLoop (k : Nat) (stream : List Byte) (buf : Buffer) :
    (serveFrom client env k stream buf).1 =
      (readLoop client env k stream buf).1.filterMap Prod.snd := by
  fun_induction readLoop client env k stream buf with
  | case1 k stream buf r hr =>
    rw [serveFrom_empty ((recvLine_frame stream buf).2.1.mp hr), List.filterMap_nil]
  | case2 k stream buf r line hr hparse =>
    rw [serveFrom_read hr, lineTasks_handle, hparse]
    rfl
  | case3 k stream buf r line hr hparse next ended hnext ih =>
    rw [serveFrom_read hr, lineTasks_handle, hparse]
    dsimp only
    rw [ih, hnext]
    rfl
  | case4 k stream buf r line hr task hparse hfound next ended hnext ih =>
    rw [serveFrom_read hr, lineTasks_handle, hparse]
    dsimp only
    rw [if_pos hfound, ih, hnext]
    rfl
  | case5 k stream buf r line hr task hparse hfound =>
    rw [serveFrom_read hr, lineTasks_handle, hparse]
    dsimp only
    rw [if_neg hfound]
    rfl

def afterLine (client : ClientInfo) (env : LineEnv) (line : CString)
    (next : List (CString × Option Task) × LoopEnd) : List (CString × Option Task) × LoopEnd :=
  match handle client env line with
  | .quit => ([(line, none)], .quit)
  | .unknown => ((line, none) :: next.1, next.2)
  | .submit task =>
    if env.entryFound then ((line, some task) :: next.1, next.2)
    else ([(line, some task)], .entryLost)

theorem readLoop_text (client : ClientInfo) (env : Nat → LineEnv) {text more : List Byte}
    (hframe : frame stream = ⟨text, true, more⟩) (hne : text ≠ []) (hzero : 0 ∉ text) (k : Nat)
    (buf : Buffer) :
    ∃ buf', readLoop client env k stream buf =
      afterLine client (env k) text (readLoop client env (k + 1) more buf') := by
  obtain ⟨hresult, hrest, htext⟩ := recvLine_of_frame hframe hne hzero buf
  refine ⟨(recvLine stream buf).buf, ?_⟩
  rw [readLoop, dif_neg (by omega), htext, hrest]
  rfl

theorem readLoop_newline (k : Nat) (more : List Byte) (buf : Buffer) :
    readLoop client env k (10 :: more) buf = ([], .emptyLine) := by
  have hresult : (recvLine (10 :: more) buf).result = 0 := by
    simp [recvLine, recvLineFrom]
  rw [readLoop, dif_pos (by omega), if_pos hresult]

theorem readLoop_nil (k : Nat) (buf : Buffer) :
    readLoop client env k [] buf = ([], .endOfStream) := by
  have hresult : (recvLine [] buf).result = -1 := by
    simp [recvLine, recvLineFrom]
  rw [readLoop, dif_pos (by omega), if_neg (by omega)]

end Loop

section Framing
variable {line : SentLine} {lines : List SentLine} {k : Nat}

/-- The loop reads the session of these lines and ends as it should. -/
def ReadsBack (read : List (CString × Option Task) × LoopEnd)
    (session : List (CString × Option Task)) : Prop :=
  read.1 = session ∧ (read.2 = .quit ∨ read.2 = .endOfStream)

theorem handle_nil (env : LineEnv) : handle client env [] = .unknown := by
  unfold handle
  split
  · rfl
  · rfl

theorem readsBack_afterLine (next : List (CString × Option Task) × LoopEnd) :
    ReadsBack (afterLine client (env k) line.text next) (sessionOf client env k (line :: lines)) ↔
      match handle client (env k) line.text with
      | .quit => True
      | .unknown => ReadsBack next (sessionOf client env (k + 1) lines)
      | .submit _ => (env k).entryFound = true ∧
          ReadsBack next (sessionOf client env (k + 1) lines) := by
  rw [sessionOf]
  unfold afterLine ReadsBack
  cases hparse : handle client (env k) line.text with
  | quit => simp [Parsed.task?]
  | unknown => simp [Parsed.task?]
  | submit task =>
    cases hfound : (env k).entryFound with
    | false => simp
    | true => simp [Parsed.task?]

theorem streamOf_cons : streamOf (line :: lines) = line.text ++ 10 :: streamOf lines := by
  simp [streamOf]

theorem not_readsBack_emptyLine {read session : List (CString × Option Task)} :
    ¬ ReadsBack (read, .emptyLine) session := by
  rintro ⟨_, hend | hend⟩
  · contradiction
  · contradiction

theorem not_readsBack_long (hlong : 512 ≤ line.text.length) (buf : Buffer) :
    ¬ ReadsBack (readLoop client env k (streamOf (line :: lines)) buf)
      (sessionOf client env k (line :: lines)) := by
  intro h
  obtain ⟨hnewline, hzero⟩ := line.unbroken
  have hlen : (line.text.take 511).length = 511 := by
    rw [List.length_take]
    omega
  have hframe : frame (streamOf (line :: lines)) =
      ⟨line.text.take 511, true, line.text.drop 511 ++ 10 :: streamOf lines⟩ := by
    have hsplit := frame_full (fun hmem => hnewline (List.mem_of_mem_take hmem)) hlen
      (line.text.drop 511 ++ 10 :: streamOf lines)
    rw [← List.append_assoc, List.take_append_drop] at hsplit
    rw [streamOf_cons, hsplit]
  have hne : line.text.take 511 ≠ [] := by
    intro hnil
    rw [hnil] at hlen
    contradiction
  obtain ⟨buf', hloop⟩ := readLoop_text client env hframe hne
    (fun hmem => hzero (List.mem_of_mem_take hmem)) k buf
  have hread := h.1
  rw [hloop] at hread
  have hfirst : (afterLine client (env k) (line.text.take 511)
      (readLoop client env (k + 1) (line.text.drop 511 ++ 10 :: streamOf lines) buf')).1.head?.map
        Prod.fst = some (line.text.take 511) := by
    unfold afterLine
    split
    · rfl
    · rfl
    · split
      · rfl
      · rfl
  rw [hread, sessionOf] at hfirst
  have hsame : line.text = line.text.take 511 := Option.some.inj hfirst
  rw [← hsame] at hlen
  omega

theorem readsBack_iff_wellFramed (k : Nat) (lines : List SentLine) (buf : Buffer) :
    ReadsBack (readLoop client env k (streamOf lines) buf) (sessionOf client env k lines) ↔
      WellFramed client env k lines := by
  induction lines generalizing k buf with
  | nil =>
    have hnil : streamOf [] = [] := rfl
    rw [hnil, readLoop_nil]
    exact iff_of_true ⟨rfl, Or.inr rfl⟩ trivial
  | cons line lines ih =>
    obtain ⟨hnewline, hzero⟩ := line.unbroken
    by_cases hlong : 512 ≤ line.text.length
    · refine iff_of_false (not_readsBack_long hlong buf) ?_
      rw [WellFramed]
      split <;> omega
    by_cases hempty : line.text = []
    · rw [streamOf_cons, hempty, List.nil_append, readLoop_newline]
      refine iff_of_false not_readsBack_emptyLine ?_
      rw [WellFramed, hempty, handle_nil]
      simp
    have hpos := List.length_pos_iff.mpr hempty
    by_cases hfull : line.text.length = 511
    · have hframe := frame_full hnewline hfull (10 :: streamOf lines)
      obtain ⟨buf', hloop⟩ := readLoop_text client env hframe hempty hzero k buf
      rw [streamOf_cons, hloop, readLoop_newline, readsBack_afterLine]
      rw [WellFramed]
      cases handle client (env k) line.text with
      | quit => simp [hfull]
      | unknown => simp [hfull, not_readsBack_emptyLine]
      | submit task => simp [hfull, not_readsBack_emptyLine]
    · have hframe := frame_line hnewline (by omega) (streamOf lines)
      obtain ⟨buf', hloop⟩ := readLoop_text client env hframe hempty hzero k buf
      have hroom : 0 < line.text.length ∧ line.text.length ≤ 510 := by omega
      rw [streamOf_cons, hloop, readsBack_afterLine, ih (k + 1) buf']
      rw [WellFramed]
      cases handle client (env k) line.text with
      | quit => simp; omega
      | unknown => simp [hroom]
      | submit task => simp [hroom]

end Framing

/-- The lines of a connection are read back exactly when they are well framed. -/
theorem lines_framed_iff (client : ClientInfo) (env : Nat → LineEnv) (lines : List SentLine)
    (buf : Buffer) : FramesLines client env lines buf ↔ WellFramed client env 0 lines := by
  rw [← readsBack_iff_wellFramed 0 lines buf]
  constructor
  · intro h
    exact ⟨h.reads, h.ends⟩
  · rintro ⟨hread, hend⟩
    refine ⟨hread, ?_, hend⟩
    rw [serve, serveFrom_readLoop, hread]

def steadyEnv (_ : Nat) : LineEnv := ⟨true, ⟨0, 0⟩, true⟩

/-- A blank line before LIST: the loop ends there and LIST is never read. -/
theorem blank_line_ends_connection :
    ¬ ∀ client env lines buf, FramesLines client env lines buf := by
  intro h
  have hlist : Unbroken (cstr "LIST alice") := by
    refine ⟨?_, ?_⟩ <;> decide
  have hblank : Unbroken [] := ⟨List.not_mem_nil, List.not_mem_nil⟩
  have hend := (h ⟨1, 4⟩ steadyEnv [⟨[], hblank⟩, ⟨_, hlist⟩] (Vector.replicate 512 0)).ends
  rw [streamOf_cons, List.nil_append, readLoop_newline] at hend
  rcases hend with hend | hend
  · contradiction
  · contradiction

end FileServer
