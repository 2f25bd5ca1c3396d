import FileServer.CommandTail

/-!
# When a connection's tasks depend on its own bytes alone

Two runs of one connection from different buffers are compared. Lines that ended
are read back exactly as sent. An unterminated tail is read together with what
follows it in the buffer: bytes of an earlier line of the same connection when
one was at least as long, and otherwise bytes left by whatever the thread
served before.
-/

namespace FileServer

set_option autoImplicit false

variable {client : ClientInfo} {env : Nat → LineEnv}

/-- The tasks of one line, followed by those of the lines after it. -/
def lineTasks (client : ClientInfo) (env : LineEnv) (line : CString) (next : List Task) :
    List Task :=
  if env.allocates = false then next
  else
    match parseCommand client env.now line with
    | .quit => []
    | .unknown => next
    | .submit task => task :: if env.entryFound then next else []

theorem serveFrom_tasks (k : Nat) (stream : List Byte) (buf : Buffer) :
    (serveFrom client env k stream buf).1 =
      if (frame stream).text = [] then []
      else lineTasks client (env k) (cString (recvLine stream buf).buf.toList)
        (serveFrom client env (k + 1) (frame stream).rest (recvLine stream buf).buf).1 := by
  obtain ⟨hrest, hres, _⟩ := recvLine_frame stream buf
  rw [serveFrom]
  simp only [hrest, hres, lineTasks]
  split
  · rfl
  split
  · rfl
  cases hp : parseCommand client (env k).now (cString (recvLine stream buf).buf.toList) with
  | quit => rfl
  | unknown => rfl
  | submit task =>
    dsimp only
    split <;> rfl

theorem serveFrom_empty {stream : List Byte} (h : (frame stream).text = []) (k : Nat)
    (buf : Buffer) : (serveFrom client env k stream buf).1 = [] := by
  rw [serveFrom_tasks, if_pos h]

theorem serveFrom_ended {stream : List Byte} (hne : ¬ (frame stream).text = [])
    (hend : (frame stream).ended = true) (k : Nat) (buf : Buffer) :
    (serveFrom client env k stream buf).1 =
      lineTasks client (env k) (cString (frame stream).text)
        (serveFrom client env (k + 1) (frame stream).rest (recvLine stream buf).buf).1 := by
  rw [serveFrom_tasks, if_neg hne]
  congr 1
  rw [(recvLine_frame stream buf).2.2, if_pos hend, cString_append_zero]

theorem serveFrom_cut {k : Nat} {stream : List Byte} (hne : ¬ (frame stream).text = [])
    (hend : ¬ (frame stream).ended = true) (buf : Buffer) :
    (serveFrom client env k stream buf).1 =
      if (env k).allocates = false then []
      else (parseCommand client (env k).now (cString
        ((frame stream).text ++ buf.toList.drop (frame stream).text.length))).task?.toList := by
  have hrest : (frame stream).rest = [] :=
    ((frameFrom_length (Nat.zero_le 511) stream).2.2 (eq_false_of_ne_true hend)).2
  have hnil : (frame ([] : List Byte)).text = [] := by simp [frame, frameFrom]
  rw [serveFrom_tasks, if_neg hne, hrest, serveFrom_empty hnil, (recvLine_frame stream buf).2.2,
    if_neg hend]
  unfold lineTasks
  split
  · rfl
  cases parseCommand client (env k).now
    (cString ((frame stream).text ++ buf.toList.drop (frame stream).text.length)) <;> simp [Parsed.task?]

theorem looseTail_longer {k longest j : Nat} {stream tail : List Byte}
    (h : looseTail client env k longest stream = some (j, tail)) : longest < tail.length := by
  fun_induction looseTail client env k longest stream with
  | case1 => contradiction
  | case2 k longest stream f hne hend next halloc ih =>
    exact Nat.lt_of_le_of_lt (Nat.le_max_left _ _) (ih h)
  | case3 => contradiction
  | case4 k longest stream f hne hend next halloc hp ih =>
    exact Nat.lt_of_le_of_lt (Nat.le_max_left _ _) (ih h)
  | case5 k longest stream f hne hend next halloc t hp hfound ih =>
    exact Nat.lt_of_le_of_lt (Nat.le_max_left _ _) (ih h)
  | case6 => contradiction
  | case7 k longest stream f hne hend hcut =>
    cases h
    exact hcut.2
  | case8 => contradiction

theorem drop_recvLine_ended {stream : List Byte} (h : (frame stream).ended = true) (buf : Buffer)
    {n : Nat} (hn : (frame stream).text.length < n) :
    (recvLine stream buf).buf.toList.drop n = buf.toList.drop n := by
  obtain ⟨d, rfl⟩ : ∃ d, n = (frame stream).text.length + (d + 1) :=
    ⟨n - (frame stream).text.length - 1, by omega⟩
  rw [(recvLine_frame stream buf).2.2, if_pos h, List.drop_append, List.drop_of_length_le (by omega)]
  have hsub : (frame stream).text.length + (d + 1) - (frame stream).text.length = d + 1 := by omega
  have hadd : (frame stream).text.length + 1 + d = (frame stream).text.length + (d + 1) := by omega
  rw [hsub, List.drop_succ_cons, List.drop_drop, List.nil_append, hadd]

/-- With a loose tail, the last task is parsed from the tail and the older bytes
behind it; everything before comes from the connection's own lines. -/
theorem serveFrom_loose {k longest j : Nat} {stream tail : List Byte}
    (h : looseTail client env k longest stream = some (j, tail)) :
    ∃ tasks, ∀ buf : Buffer, (serveFrom client env k stream buf).1 = tasks ++
      (parseCommand client (env j).now
        (cString (tail ++ buf.toList.drop tail.length))).task?.toList := by
  fun_induction looseTail client env k longest stream with
  | case1 => contradiction
  | case2 k longest stream f hne hend next halloc ih =>
    obtain ⟨tasks, htasks⟩ := ih h
    have hlong := Nat.lt_of_le_of_lt (Nat.le_max_right _ _) (looseTail_longer h)
    refine ⟨tasks, fun buf => ?_⟩
    rw [serveFrom_ended hne hend, htasks, drop_recvLine_ended hend buf hlong, lineTasks, if_pos halloc]
  | case3 => contradiction
  | case4 k longest stream f hne hend next halloc hp ih =>
    obtain ⟨tasks, htasks⟩ := ih h
    have hlong := Nat.lt_of_le_of_lt (Nat.le_max_right _ _) (looseTail_longer h)
    refine ⟨tasks, fun buf => ?_⟩
    rw [serveFrom_ended hne hend, htasks, drop_recvLine_ended hend buf hlong, lineTasks,
      if_neg halloc, hp]
  | case5 k longest stream f hne hend next halloc t hp hfound ih =>
    obtain ⟨tasks, htasks⟩ := ih h
    have hlong := Nat.lt_of_le_of_lt (Nat.le_max_right _ _) (looseTail_longer h)
    refine ⟨t :: tasks, fun buf => ?_⟩
    rw [serveFrom_ended hne hend, htasks, drop_recvLine_ended hend buf hlong, lineTasks,
      if_neg halloc, hp, List.cons_append]
    dsimp only
    rw [if_pos hfound]
  | case6 => contradiction
  | case7 k longest stream f hne hend hcut =>
    cases h
    refine ⟨[], fun buf => ?_⟩
    rw [serveFrom_cut hne hend, if_neg (by simp [hcut.1]), List.nil_append]
  | case8 => contradiction

/-- Both buffers hold the same bytes up to a NUL at index `n`; no line has
been read while `n` is 0. -/
def AgreeTo (n : Nat) (a b : Buffer) : Prop :=
  n = 0 ∨ (a.toList.take (n + 1) = b.toList.take (n + 1) ∧ a.toList[n]? = some 0)

theorem take_overlay (text mem : List Byte) {n : Nat} (h : text.length ≤ n) :
    (text ++ mem.drop text.length).take n = text ++ (mem.take n).drop text.length := by
  rw [List.take_append, List.take_of_length_le h, List.drop_take]

theorem AgreeTo.recvLine {n : Nat} {a b : Buffer} (hab : AgreeTo n a b) {stream : List Byte}
    (hne : (frame stream).text ≠ []) (h : (frame stream).ended = true) :
    AgreeTo (max n (frame stream).text.length) (recvLine stream a).buf (recvLine stream b).buf := by
  have hpos := List.length_pos_iff.mpr hne
  have hlist : ∀ c : Buffer, (FileServer.recvLine stream c).buf.toList =
      ((frame stream).text ++ [0]) ++ c.toList.drop ((frame stream).text ++ [0]).length := by
    intro c
    rw [(recvLine_frame stream c).2.2, if_pos h]
    simp
  right
  rw [hlist, hlist]
  rcases Nat.lt_or_ge (frame stream).text.length n with hlt | hle
  · rcases hab with rfl | ⟨htake, hzero⟩
    · omega
    rw [Nat.max_eq_left (Nat.le_of_lt hlt), take_overlay _ _ (by simp; omega), take_overlay _ _ (by simp; omega),
      htake]
    refine ⟨rfl, ?_⟩
    rw [List.getElem?_append_right (by simp; omega), List.getElem?_drop, ← hzero]
    congr 1
    simp
    omega
  · rw [Nat.max_eq_right hle, take_overlay _ _ (by simp), take_overlay _ _ (by simp)]
    refine ⟨?_, ?_⟩
    · rw [List.drop_take, List.drop_take]
      simp
    · rw [List.getElem?_append_left (by simp)]
      simp

theorem AgreeTo.cString_tail {n : Nat} {a b : Buffer} (hab : AgreeTo n a b) {tail : List Byte}
    (hne : tail ≠ []) (h : tail.length ≤ n) :
    cString (tail ++ a.toList.drop tail.length) = cString (tail ++ b.toList.drop tail.length) := by
  have hpos := List.length_pos_iff.mpr hne
  rcases hab with rfl | ⟨htake, hzero⟩
  · omega
  apply cString_congr (n := n + 1)
  · rw [take_overlay _ _ (by omega), take_overlay _ _ (by omega), htake]
  · rw [take_overlay _ _ (by omega)]
    apply List.mem_append_right
    apply List.mem_of_getElem? (i := n - tail.length)
    rw [List.getElem?_drop, List.getElem?_take, if_pos (by omega), ← hzero]
    congr 1
    omega

theorem serveFrom_own {k longest : Nat} {stream : List Byte}
    (h : looseTail client env k longest stream = none) {a b : Buffer} (hab : AgreeTo longest a b) :
    (serveFrom client env k stream a).1 = (serveFrom client env k stream b).1 := by
  fun_induction looseTail client env k longest stream generalizing a b with
  | case1 k longest stream f hempty => rw [serveFrom_empty hempty, serveFrom_empty hempty]
  | case2 k longest stream f hne hend next halloc =>
    rename_i ih
    rw [serveFrom_ended hne hend, serveFrom_ended hne hend, ih h (hab.recvLine hne hend)]
  | case3 k longest stream f hne hend halloc hp _ =>
    have hp' : parseCommand client (env k).now (cString (frame stream).text) = .quit := hp
    simp only [serveFrom_ended hne hend, lineTasks, if_neg halloc, hp']
  | case4 k longest stream f hne hend next halloc hp =>
    rename_i ih
    rw [serveFrom_ended hne hend, serveFrom_ended hne hend, ih h (hab.recvLine hne hend)]
  | case5 k longest stream f hne hend next halloc t hp hfound =>
    rename_i ih
    rw [serveFrom_ended hne hend, serveFrom_ended hne hend, ih h (hab.recvLine hne hend)]
  | case6 k longest stream f hne hend halloc t hp hfound _ =>
    have hp' : parseCommand client (env k).now (cString (frame stream).text) = .submit t := hp
    simp only [serveFrom_ended hne hend, lineTasks, if_neg halloc, hp', if_neg hfound]
  | case7 => contradiction
  | case8 k longest stream f hne hend hcut =>
    rw [serveFrom_cut hne hend, serveFrom_cut hne hend]
    split
    · rfl
    rename_i halloc
    have hle : (frame stream).text.length ≤ longest := by
      apply Nat.le_of_not_lt
      intro hlt
      exact hcut ⟨by simpa using halloc, hlt⟩
    rw [hab.cString_tail hne hle]

/-- The tasks of a connection do not depend on what the thread served before,
nor on what its buffer held at the start. -/
def NonInterfering (conn : Connection) : Prop :=
  ∀ (buf₁ buf₂ : Buffer) (earlier₁ earlier₂ : List Connection),
    (serve conn (bufferAfter buf₁ earlier₁)).1 = (serve conn (bufferAfter buf₂ earlier₂)).1

/-- If the connection ends in a tail longer than its earlier lines, the bytes of
the tail alone settle the task that is read from it. -/
def Settled (conn : Connection) : Prop :=
  ∀ k tail, looseTail conn.client conn.env 0 0 conn.bytes = some (k, tail) → tailFixed tail = true

theorem looseTail_short {k longest j : Nat} {stream tail : List Byte}
    (h : looseTail client env k longest stream = some (j, tail)) : tail.length ≤ 510 := by
  fun_induction looseTail client env k longest stream with
  | case1 => contradiction
  | case2 k longest stream f hne hend next halloc ih => exact ih h
  | case3 => contradiction
  | case4 k longest stream f hne hend next halloc hp ih => exact ih h
  | case5 k longest stream f hne hend next halloc t hp hfound ih => exact ih h
  | case6 => contradiction
  | case7 k longest stream f hne hend hcut =>
    cases h
    have hlen := ((frameFrom_length (Nat.zero_le 511) stream).2.2 (eq_false_of_ne_true hend)).1
    change (frameFrom 0 stream).text.length ≤ 510
    omega
  | case8 => contradiction

theorem exists_buffer {n : Nat} (hn : n ≤ 512) {older : List Byte}
    (h : older.length = 512 - n) : ∃ buf : Buffer, buf.toList.drop n = older := by
  have hlen : (List.replicate n (0 : Byte) ++ older).length = 512 := by
    simp
    omega
  refine ⟨⟨(List.replicate n 0 ++ older).toArray, by simpa using hlen⟩, ?_⟩
  simp

theorem toList_injective {a b : Option Task} (h : a.toList = b.toList) : a = b := by
  cases a <;> cases b <;> simp_all

theorem nonInterfering_iff_settled (conn : Connection) : NonInterfering conn ↔ Settled conn := by
  constructor
  · intro hni k tail hloose
    have hshort := looseTail_short hloose
    obtain ⟨tasks, htasks⟩ := serveFrom_loose hloose
    apply (tail_settled_iff conn.client (conn.env k).now hshort).mp
    intro older₁ older₂ h₁ h₂
    obtain ⟨buf₁, hbuf₁⟩ := exists_buffer (by omega) h₁
    obtain ⟨buf₂, hbuf₂⟩ := exists_buffer (by omega) h₂
    have heq := hni buf₁ buf₂ [] []
    unfold serve bufferAfter at heq
    rw [htasks, htasks, hbuf₁, hbuf₂] at heq
    exact toList_injective (List.append_cancel_left heq)
  · intro hsettled buf₁ buf₂ earlier₁ earlier₂
    unfold serve
    cases hloose : looseTail conn.client conn.env 0 0 conn.bytes with
    | none => exact serveFrom_own hloose (Or.inl rfl)
    | some found =>
      obtain ⟨k, tail⟩ := found
      obtain ⟨tasks, htasks⟩ := serveFrom_loose hloose
      have hlen : ∀ buf : Buffer, (buf.toList.drop tail.length).length = 512 - tail.length := by
        intro buf
        rw [List.length_drop, Vector.length_toList]
      have hsame := (tail_settled_iff conn.client (conn.env k).now (looseTail_short hloose)).mpr
        (hsettled k tail hloose)
      rw [htasks, htasks, hsame _ _ (hlen _) (hlen _)]

def sends (id : Nat) (text : String) : Connection where
  client := ⟨id, id + 3⟩
  env := fun _ => ⟨true, ⟨0, 0⟩, true⟩
  bytes := cstr text

theorem cut_list_names_earlier_user : ¬ ∀ conn, NonInterfering conn := by
  intro h
  have hsame := h (sends 2 "LIST") (Vector.replicate 512 0) (Vector.replicate 512 0)
    [sends 1 "LIST alice\n"] [sends 1 "LIST bob\n"]
  revert hsame
  decide +kernel

end FileServer
