import FileServer.Command

/-!
# The line buffer of a client thread (recv_line and the read loop in client.c)

`char line[512]` lives as long as the thread: it starts uninitialised and is
reused for every line of every connection. `recv_line` writes the terminating
NUL at a newline and at 511 bytes, but not when the peer ends the stream in the
middle of a line; the parser then reads on into older bytes.

A stream is the finite list of bytes the peer sends before it closes.
-/

namespace FileServer

set_option autoImplicit false

abbrev Buffer := Vector Byte 512

/-- The string that `line` denotes. -/
def cString (bytes : List Byte) : CString := bytes.takeWhile fun c => c ≠ 0

structure Received where
  result : Int
  rest : List Byte
  buf : Buffer

/-- The loop of `recv_line` at position `pos`. -/
def recvLineFrom (pos : Nat) (stream : List Byte) (buf : Buffer) : Received :=
  if h : pos < 511 then
    match stream with
    | [] => ⟨if pos > 0 then pos else -1, [], buf⟩
    | c :: rest =>
      if c = 10 then ⟨pos, rest, buf.set pos 0⟩
      else recvLineFrom (pos + 1) rest (buf.set pos c)
  else ⟨pos, stream, buf.set 511 0⟩

def recvLine (stream : List Byte) (buf : Buffer) : Received := recvLineFrom 0 stream buf

theorem recvLineFrom_rest (pos : Nat) (stream : List Byte) (buf : Buffer) :
    (recvLineFrom pos stream buf).rest.length + (recvLineFrom pos stream buf).result ≤
      stream.length + pos := by
  induction stream generalizing pos buf with
  | nil =>
    rw [recvLineFrom]
    split
    · dsimp only
      split <;> simp
    · simp
  | cons c rest ih =>
    rw [recvLineFrom]
    split
    · dsimp only
      split
      · simp only [List.length_cons]
        omega
      · have := ih (pos + 1) (buf.set pos c)
        simp only [List.length_cons] at this ⊢
        omega
    · simp

/-- What the surroundings decide while one line is handled: whether `calloc`
yields a task, the clock, and whether the connection's response entry is found. -/
structure LineEnv where
  allocates : Bool
  now : Timespec
  entryFound : Bool

structure Connection where
  client : ClientInfo
  env : Nat → LineEnv
  bytes : List Byte

/-- The command loop from the `k`-th line on: the tasks it pushes and the buffer
it leaves behind. -/
def serveFrom (client : ClientInfo) (env : Nat → LineEnv) (k : Nat) (stream : List Byte)
    (buf : Buffer) : List Task × Buffer :=
  let r := recvLine stream buf
  if _hr : r.result ≤ 0 then ([], r.buf)
  else if (env k).allocates = false then serveFrom client env (k + 1) r.rest r.buf
  else
    match parseCommand client (env k).now (cString r.buf.toList) with
    | .quit => ([], r.buf)
    | .unknown => serveFrom client env (k + 1) r.rest r.buf
    | .submit task =>
      if (env k).entryFound then
        let (tasks, buf') := serveFrom client env (k + 1) r.rest r.buf
        (task :: tasks, buf')
      else ([task], r.buf)
termination_by stream.length
decreasing_by
  all_goals
    have := recvLineFrom_rest 0 stream buf
    unfold r recvLine at *
    omega

def serve (conn : Connection) (buf : Buffer) : List Task × Buffer :=
  serveFrom conn.client conn.env 0 conn.bytes buf

/-- The buffer after a thread has served these connections. -/
def bufferAfter (buf : Buffer) : List Connection → Buffer
  | [] => buf
  | conn :: conns => bufferAfter (serve conn buf).2 conns

/-- What one `recv_line` takes off a stream, whatever the buffer holds. -/
structure Frame where
  text : List Byte
  ended : Bool
  rest : List Byte

def frameFrom (pos : Nat) (stream : List Byte) : Frame :=
  if pos < 511 then
    match stream with
    | [] => ⟨[], false, []⟩
    | c :: rest =>
      if c = 10 then ⟨[], true, rest⟩
      else
        let f := frameFrom (pos + 1) rest
        ⟨c :: f.text, f.ended, f.rest⟩
  else ⟨[], true, stream⟩

def frame (stream : List Byte) : Frame := frameFrom 0 stream

theorem frameFrom_length {pos : Nat} (hpos : pos ≤ 511) (stream : List Byte) :
    pos + (frameFrom pos stream).text.length ≤ 511 ∧
      (frameFrom pos stream).text.length + (frameFrom pos stream).rest.length ≤ stream.length ∧
      ((frameFrom pos stream).ended = false →
        pos + (frameFrom pos stream).text.length < 511 ∧ (frameFrom pos stream).rest = []) := by
  induction stream generalizing pos with
  | nil =>
    rw [frameFrom]
    split <;> simp <;> omega
  | cons c rest ih =>
    rw [frameFrom]
    split
    · rename_i hlt
      dsimp only
      split
      · simp
        omega
      · have hnext : pos + 1 ≤ 511 := hlt
        obtain ⟨h₁, h₂, h₃⟩ := ih hnext
        simp only [List.length_cons]
        refine ⟨by omega, by omega, fun he => ?_⟩
        obtain ⟨h₄, h₅⟩ := h₃ he
        exact ⟨by omega, h₅⟩
    · simp
      omega

theorem toList_set_split (buf : Buffer) {pos : Nat} (h : pos < 512) (c : Byte) :
    (buf.set pos c).toList = buf.toList.take pos ++ c :: buf.toList.drop (pos + 1) := by
  rw [Vector.toList_set, List.set_eq_take_append_cons_drop, if_pos (by simpa using h)]

theorem recvLineFrom_frame {pos : Nat} (hpos : pos ≤ 511) (stream : List Byte) (buf : Buffer) :
    let f := frameFrom pos stream
    let r := recvLineFrom pos stream buf
    r.rest = f.rest ∧
    r.result = (if f.ended ∨ 0 < pos + f.text.length then ((pos + f.text.length : Nat) : Int) else -1) ∧
    r.buf.toList = buf.toList.take pos ++ f.text ++
      (if f.ended then 0 :: buf.toList.drop (pos + f.text.length + 1)
        else buf.toList.drop (pos + f.text.length)) := by
  induction stream generalizing pos buf with
  | nil =>
    rw [recvLineFrom, frameFrom]
    split
    · simp
    · have h511 : pos = 511 := by omega
      subst pos
      simp [toList_set_split]
  | cons c rest ih =>
    rw [recvLineFrom, frameFrom]
    split
    · rename_i hlt
      dsimp only
      split
      · simp [toList_set_split buf (by omega : pos < 512)]
      · have hnext : pos + 1 ≤ 511 := hlt
        obtain ⟨h₁, h₂, h₃⟩ := ih hnext (buf.set pos c)
        have hlen : (buf.toList.take pos).length = pos := by simp; omega
        have htake : (buf.set pos c).toList.take (pos + 1) = buf.toList.take pos ++ [c] := by
          rw [toList_set_split buf (by omega), List.take_append, hlen, List.take_of_length_le (by omega)]
          simp
        have hdrop : ∀ k, (buf.set pos c).toList.drop (pos + 1 + k) = buf.toList.drop (pos + 1 + k) := by
          intro k
          rw [toList_set_split buf (by omega), List.drop_append, hlen,
            List.drop_of_length_le (by omega)]
          have hk : pos + 1 + k - pos = k + 1 := by omega
          rw [hk, List.drop_succ_cons, List.drop_drop, List.nil_append]
        have hadd : ∀ n, pos + 1 + n = pos + (n + 1) := by omega
        refine ⟨h₁, ?_, ?_⟩
        · rw [h₂]
          simp [hadd]
        · rw [h₃, htake, hdrop, Nat.add_assoc (pos + 1), hdrop, ← Nat.add_assoc (pos + 1), hadd]
          simp
    · have h511 : pos = 511 := by omega
      subst pos
      simp [toList_set_split]

theorem recvLine_frame (stream : List Byte) (buf : Buffer) :
    (recvLine stream buf).rest = (frame stream).rest ∧
    ((recvLine stream buf).result ≤ 0 ↔ (frame stream).text = []) ∧
    (recvLine stream buf).buf.toList = (frame stream).text ++
      (if (frame stream).ended then 0 :: buf.toList.drop ((frame stream).text.length + 1)
        else buf.toList.drop (frame stream).text.length) := by
  obtain ⟨h₁, h₂, h₃⟩ := recvLineFrom_frame (Nat.zero_le 511) stream buf
  refine ⟨h₁, ?_, ?_⟩
  · change (recvLineFrom 0 stream buf).result ≤ 0 ↔ _
    rw [h₂, ← List.length_eq_zero_iff]
    change _ ↔ (frameFrom 0 stream).text.length = 0
    split <;> omega
  · change (recvLineFrom 0 stream buf).buf.toList = _
    rw [h₃, Nat.zero_add, List.take_zero, List.nil_append]
    rfl

theorem frame_rest_lt {stream : List Byte} (h : (frame stream).text ≠ []) :
    (frame stream).rest.length < stream.length := by
  have hlen := (frameFrom_length (Nat.zero_le 511) stream).2.1
  have hpos := List.length_pos_iff.mpr h
  unfold frame at *
  omega

theorem cString_append_zero (text rest : List Byte) :
    cString (text ++ 0 :: rest) = cString text := by
  unfold cString
  induction text with
  | nil => simp
  | cons c cs ih =>
    rw [List.cons_append, List.takeWhile_cons, List.takeWhile_cons, ih]

theorem cString_congr {a b : List Byte} {n : Nat} (hagree : a.take n = b.take n)
    (hzero : 0 ∈ a.take n) : cString a = cString b := by
  obtain ⟨pre, post, hsplit⟩ := List.append_of_mem hzero
  have ha : a = pre ++ 0 :: (post ++ a.drop n) := by
    rw [← List.cons_append, ← List.append_assoc, ← hsplit, List.take_append_drop]
  have hb : b = pre ++ 0 :: (post ++ b.drop n) := by
    rw [← List.cons_append, ← List.append_assoc, ← hsplit, hagree, List.take_append_drop]
  rw [ha, hb, cString_append_zero, cString_append_zero]

def Parsed.task? : Parsed → Option Task
  | .submit task => some task
  | _ => none

/-- The unterminated end of the stream, with its line number, when the command
loop reaches it, parses it, and no earlier line of the connection was as long. -/
def looseTail (client : ClientInfo) (env : Nat → LineEnv) (k longest : Nat)
    (stream : List Byte) : Option (Nat × List Byte) :=
  let f := frame stream
  if _h : f.text = [] then none
  else if f.ended then
    let next := looseTail client env (k + 1) (max longest f.text.length) f.rest
    if (env k).allocates = false then next
    else
      match parseCommand client (env k).now (cString f.text) with
      | .quit => none
      | .unknown => next
      | .submit _ => if (env k).entryFound then next else none
  else if (env k).allocates ∧ longest < f.text.length then some (k, f.text) else none
termination_by stream.length
decreasing_by exact frame_rest_lt _h

end FileServer
