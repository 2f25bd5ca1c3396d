import Mathlib.Algebra.GroupWithZero.Nat
import FileServer.ClientProgram
import FileServer.CommandTail
import FileServer.Decimal

/-!
# A command of the client, read by the server

The client formats a command, `recv_line` takes it off the socket and the parser
reads its words. The server gets what the client was given exactly if the command
fits: no more than 63 bytes of user name and password, and a whole line in the
buffer of the command. A longer name spills into the next field, a longer line
loses its newline and runs into the next command.
-/

namespace FileServer

open ClientProgram
set_option autoImplicit false

/-- The fields of a task that carry the arguments of a command. -/
structure Arguments where
  type : CommandType
  username : CString
  password : CString
  path : CString
  size : Nat
  tmpfile : CString

def Task.arguments (t : Task) : Arguments :=
  ⟨t.type, t.username, t.password, t.path, t.size, t.tmpfile⟩

/-- The arguments that the client was given. -/
def ClientProgram.ClientCall.arguments : ClientCall → Arguments
  | .signup username password _ => ⟨.signup, username.text, password.text, [], 0, []⟩
  | .login username password => ⟨.login, username.text, password.text, [], 0, []⟩
  | .upload account filename totalSize now =>
    ⟨.upload, account.text, [], filename.text, totalSize.toNat, uploadTmpfile filename.text now⟩
  | .download account filename => ⟨.download, account.text, [], filename.text, 0, []⟩
  | .delete account filename => ⟨.delete, account.text, [], filename.text, 0, []⟩
  | .list account => ⟨.list, account.text, [], [], 0, []⟩

/-- Whatever the connection sends next, `recv_line` takes exactly the bytes of the
call off the socket, and the parser makes of them a task with its arguments. -/
def RoundTrips (call : ClientCall) : Prop :=
  ∀ (client : ClientInfo) (now : Timespec) (buf : Buffer) (more : List Byte),
    let r := recvLine (call.bytes ++ more) buf
    0 < r.result ∧ r.rest = more ∧
      ∃ task, parseCommand client now (cString r.buf.toList) = .submit task ∧
        task.arguments = call.arguments

/-- The lengths for which a command fits into its buffers. -/
def ClientProgram.ClientCall.Fits : ClientCall → Prop
  | .signup username password priority =>
    username.text.length ≤ 63 ∧ password.text.length ≤ 63 ∧
      username.text.length + password.text.length + (priorityArgument priority).length ≤ 245
  | .login username password => username.text.length ≤ 63 ∧ password.text.length ≤ 63
  | .upload account filename totalSize now =>
    account.text.length ≤ 63 ∧
      account.text.length + filename.text.length + (decimal totalSize.toNat).length +
        (uploadTmpfile filename.text now).length ≤ 501
  | .download account _ => account.text.length ≤ 63
  | .delete account filename =>
    account.text.length ≤ 63 ∧ account.text.length + filename.text.length ≤ 246
  | .list account => account.text.length ≤ 63

/-- The bytes that may stand in a word. -/
def Plain (s : CString) : Prop := ∀ c ∈ s, isSpace c = false ∧ c ≠ 0

/-- Words, each after one blank. -/
def spaced (words : List CString) : CString := words.flatMap fun w => 32 :: w

section Frames
variable {text : List Byte}

theorem frameFrom_append (hline : 10 ∉ text) {pos : Nat} (hpos : pos + text.length ≤ 511)
    (tail : List Byte) :
    frameFrom pos (text ++ tail) = ⟨text ++ (frameFrom (pos + text.length) tail).text,
      (frameFrom (pos + text.length) tail).ended, (frameFrom (pos + text.length) tail).rest⟩ := by
  induction text generalizing pos with
  | nil => rfl
  | cons c text ih =>
    rw [List.length_cons] at hpos
    have hroom : pos + 1 + text.length ≤ 511 := by omega
    have hnext := ih (fun hmem => hline (List.mem_cons_of_mem c hmem)) hroom
    have hadd : pos + 1 + text.length = pos + (text.length + 1) := by omega
    have hc : c ≠ 10 := by
      rintro rfl
      exact hline List.mem_cons_self
    rw [List.cons_append, frameFrom, if_pos (by omega), if_neg hc, hnext, List.length_cons, hadd]
    rfl

theorem frame_line (hline : 10 ∉ text) (hlen : text.length ≤ 510) (more : List Byte) :
    frame (text ++ 10 :: more) = ⟨text, true, more⟩ := by
  have hnewline : frameFrom (0 + text.length) (10 :: more) = ⟨[], true, more⟩ := by
    rw [frameFrom, if_pos (by omega), if_pos rfl]
  rw [frame, frameFrom_append hline (by omega), hnewline, List.append_nil]

/-- A line as long as the buffer ends without a newline. -/
theorem frame_full (hline : 10 ∉ text) (hlen : text.length = 511) (more : List Byte) :
    frame (text ++ more) = ⟨text, true, more⟩ := by
  have hfull : frameFrom (0 + text.length) more = ⟨[], true, more⟩ := by
    rw [hlen, frameFrom.eq_def, if_neg (by omega)]
  rw [frame, frameFrom_append hline (by omega), hfull, List.append_nil]

/-- A line without a newline goes on with what comes next. -/
theorem frame_open (hline : 10 ∉ text) (hlen : text.length ≤ 509) :
    (frame (text ++ [120])).rest = [] := by
  have hnext : frameFrom (0 + text.length) [120] = ⟨[120], false, []⟩ := by
    rw [frameFrom, if_pos (by omega), if_neg (by decide), frameFrom, if_pos (by omega)]
  rw [frame, frameFrom_append hline (by omega), hnext]

theorem recvLine_of_frame {bytes more : List Byte} (hframe : frame bytes = ⟨text, true, more⟩)
    (hne : text ≠ []) (hzero : 0 ∉ text) (buf : Buffer) :
    0 < (recvLine bytes buf).result ∧ (recvLine bytes buf).rest = more ∧
      cString (recvLine bytes buf).buf.toList = text := by
  obtain ⟨hrest, hresult, hbuf⟩ := recvLine_frame bytes buf
  rw [hframe] at hrest hresult hbuf
  refine ⟨?_, hrest, ?_⟩
  · by_contra hle
    exact hne (hresult.mp (by omega))
  · rw [hbuf, if_pos rfl, cString_of_not_mem hzero]
    simp [cString]

end Frames

section Words
variable {w rest : CString}

/-- The text at hand is over or goes on with a blank. -/
def Broken (rest : CString) : Prop := rest = [] ∨ ∃ more, rest = 32 :: more

theorem broken_spaced (words : List CString) : Broken (spaced words) := by
  cases words with
  | nil => exact Or.inl rfl
  | cons w words => exact Or.inr ⟨_, rfl⟩

theorem Broken.head (h : Broken rest) : ∀ c, rest.head? = some c → isSpace c = true := by
  intro c hc
  rcases h with rfl | ⟨more, rfl⟩
  · contradiction
  · obtain rfl := Option.some.inj hc
    rfl

theorem dropWhile_gap {gap : CString} (h : ∀ c ∈ gap, isSpace c = true) (rest : CString) :
    (gap ++ rest).dropWhile isSpace = rest.dropWhile isSpace := by
  rw [List.dropWhile_append, if_pos]
  rw [List.isEmpty_iff, List.dropWhile_eq_nil_iff]
  exact h

theorem dropWhile_plain (hne : w ≠ []) (hplain : Plain w) (rest : CString) :
    (w ++ rest).dropWhile isSpace = w ++ rest := by
  obtain ⟨c, cs, rfl⟩ := List.exists_cons_of_ne_nil hne
  have hc := (hplain c List.mem_cons_self).1
  rw [List.cons_append, List.dropWhile_cons_of_neg (by simp [hc])]

theorem takeWhile_eq_nil_of_stop {p : Byte → Bool}
    (hstop : ∀ c, rest.head? = some c → isSpace c = true)
    (hp : ∀ c, isSpace c = true → p c = false) : rest.takeWhile p = [] := by
  cases rest with
  | nil => rfl
  | cons c rest => rw [List.takeWhile_cons_of_neg (by simp [hp c (hstop c rfl)])]

/-- A word between whitespace and a place where it ends is read whole. -/
theorem stringField_between {gap : CString} {width : Nat} (hgap : ∀ c ∈ gap, isSpace c = true)
    (hne : w ≠ []) (hplain : Plain w) (hlen : w.length ≤ width)
    (hstop : ∀ c, rest.head? = some c → isSpace c = true) :
    stringField width (some (gap ++ (w ++ rest))) = (w, some rest) := by
  have hstart : (gap ++ (w ++ rest)).dropWhile isSpace = w ++ rest := by
    rw [dropWhile_gap hgap, dropWhile_plain hne hplain]
  have hletters : ∀ c ∈ w, (!isSpace c) = true := by
    intro c hc
    rw [(hplain c hc).1]
    rfl
  have hend : (rest.takeWhile fun c => !isSpace c) = [] := by
    apply takeWhile_eq_nil_of_stop hstop
    intro c hc
    rw [hc]
    rfl
  have hword : firstWord width (gap ++ (w ++ rest)) = w := by
    rw [firstWord, hstart, List.takeWhile_append_of_pos hletters, hend, List.append_nil,
      List.take_of_length_le hlen]
  rw [stringField_eq, hstart, if_neg (by simp [hne]), hword, List.drop_left]

theorem isSpace_blank : ∀ c ∈ ([32] : CString), isSpace c = true := by
  intro c hc
  obtain rfl := List.mem_singleton.mp hc
  rfl

theorem stringField_word {width : Nat} (hne : w ≠ []) (hplain : Plain w) (hlen : w.length ≤ width)
    (hrest : Broken rest) : stringField width (some (32 :: (w ++ rest))) = (w, some rest) :=
  stringField_between isSpace_blank hne hplain hlen hrest.head

theorem stringField_spaced {width : Nat} (hne : w ≠ []) (hplain : Plain w)
    (hlen : w.length ≤ width) (words : List CString) :
    stringField width (some (spaced (w :: words))) = (w, some (spaced words)) :=
  stringField_word hne hplain hlen (broken_spaced words)

end Words

section Numbers

theorem plain_of_range {c : Byte} (hlow : 33 ≤ c.toNat) : isSpace c = false ∧ c ≠ 0 := by
  refine ⟨?_, ?_⟩
  · simp only [isSpace, UInt8.le_iff_toNat_le, decide_eq_false_iff_not, not_or, not_and]
    refine ⟨?_, ?_⟩
    · rintro rfl
      simp at hlow
    · intro _
      simp
      omega
  · rintro rfl
    simp at hlow

theorem plain_decimal (n : Nat) : Plain (decimal n) := by
  intro c hc
  apply plain_of_range
  have hdigit := decimal_digits hc
  omega

theorem isDigit_of_isSpace {c : Byte} (h : isSpace c = true) : isDigit c = false := by
  unfold isSpace at h
  unfold isDigit
  simp only [UInt8.le_iff_toNat_le, decide_eq_true_eq, decide_eq_false_iff_not] at *
  rcases h with rfl | ⟨_, h⟩
  · decide
  · have hhigh : c.toNat ≤ 13 := h
    have hlow : (48 : UInt8).toNat = 48 := rfl
    omega

/-- Digits between whitespace and a place where they end are read as their value. -/
theorem sizeField_between {gap digits rest : CString} (hgap : ∀ c ∈ gap, isSpace c = true)
    (hne : digits ≠ []) (hplain : Plain digits) (hdigits : ∀ c ∈ digits, isDigit c = true)
    (hvalue : digits.foldl (fun n d => 10 * n + (d.toNat - 48)) 0 < 2 ^ 64)
    (hstop : ∀ c, rest.head? = some c → isSpace c = true) :
    sizeField (some (gap ++ (digits ++ rest))) =
      (digits.foldl (fun n d => 10 * n + (d.toNat - 48)) 0, some rest) := by
  have hstart : (gap ++ (digits ++ rest)).dropWhile isSpace = digits ++ rest := by
    rw [dropWhile_gap hgap, dropWhile_plain hne hplain]
  have htake : (digits ++ rest).takeWhile isDigit = digits := by
    rw [List.takeWhile_append_of_pos hdigits,
      takeWhile_eq_nil_of_stop hstop fun c hc => isDigit_of_isSpace hc, List.append_nil]
  have hsign : ∀ b : Byte, isDigit b = false → (digits ++ rest).head? ≠ some b := by
    intro b hb hhead
    obtain ⟨c, cs, rfl⟩ := List.exists_cons_of_ne_nil hne
    rw [List.cons_append, List.head?_cons] at hhead
    obtain rfl := Option.some.inj hhead
    rw [hdigits c List.mem_cons_self] at hb
    contradiction
  unfold sizeField scanSize
  simp only [Option.bind_some, hstart, hsign 45 rfl, hsign 43 rfl, or_self, if_false, htake, hne,
    List.drop_left]
  rw [if_neg (Nat.not_le.mpr hvalue)]

theorem sizeField_decimal {n : Nat} (hn : n < 2 ^ 64) {rest : CString} (hrest : Broken rest) :
    sizeField (some (32 :: (decimal n ++ rest))) = (n, some rest) := by
  have hisDigit : ∀ c ∈ decimal n, isDigit c = true := by
    intro c hc
    have hdigit := decimal_digits hc
    simpa [isDigit, UInt8.le_iff_toNat_le] using hdigit
  have hread := sizeField_between isSpace_blank (decimal_ne_nil n) (plain_decimal n) hisDigit
    (by rwa [decimal_value]) hrest.head
  rw [decimal_value] at hread
  exact hread

theorem plain_append {a b : CString} (ha : Plain a) (hb : Plain b) : Plain (a ++ b) := by
  intro c hc
  rcases List.mem_append.mp hc with hc | hc
  · exact ha c hc
  · exact hb c hc

theorem plain_toString (now : Int) : Plain (cstr (toString now)) := by
  intro c hc
  apply plain_of_range
  have hbyte := timeText_byte hc
  omega

end Numbers

theorem plain_uploadTmpfile (filename : Token) (now : Int) :
    Plain (uploadTmpfile filename.text now) := by
  have hpath : Plain (cstr "/tmp/upload_") := by
    intro c hc
    have hall : (cstr "/tmp/upload_").all (fun c => !isSpace c && c ≠ 0) = true := by decide
    simpa using List.all_eq_true.mp hall c hc
  have hbar : Plain (cstr "_") := by
    intro c hc
    obtain rfl : c = 95 := List.mem_singleton.mp hc
    exact ⟨rfl, by decide⟩
  intro c hc
  exact plain_append (plain_append (plain_append hpath filename.plain) hbar) (plain_toString now) c
    (List.mem_of_mem_take hc)

theorem uploadTmpfile_ne_nil (filename : CString) (now : Int) :
    uploadTmpfile filename now ≠ [] := by
  have hpath : cstr "/tmp/upload_" = 47 :: cstr "tmp/upload_" := rfl
  simp [uploadTmpfile, snprintf, hpath]

section Lines

/-- The keyword and the words of a command, and the room its buffer has for them
and the newline. -/
def ClientProgram.ClientCall.keyword : ClientCall → CString
  | .signup _ _ _ => cstr "SIGNUP"
  | .login _ _ => cstr "LOGIN"
  | .upload _ _ _ _ => cstr "UPLOAD"
  | .download _ _ => cstr "DOWNLOAD"
  | .delete _ _ => cstr "DELETE"
  | .list _ => cstr "LIST"

def ClientProgram.ClientCall.words : ClientCall → List CString
  | .signup username password priority =>
    [username.text, password.text, priorityArgument priority]
  | .login username password => [username.text, password.text]
  | .upload account filename totalSize now =>
    [keptUsername account, filename.text, decimal totalSize.toNat, uploadTmpfile filename.text now]
  | .download account filename => [keptUsername account, filename.text]
  | .delete account filename => [keptUsername account, filename.text]
  | .list account => [keptUsername account]

def ClientProgram.ClientCall.room : ClientCall → Nat
  | .signup _ _ _ | .login _ _ | .delete _ _ | .list _ => 255
  | .upload _ _ _ _ | .download _ _ => 511

def ClientProgram.ClientCall.line (call : ClientCall) : CString := call.keyword ++ spaced call.words

theorem priorityArgument_ne_nil (priority : Option Token) : priorityArgument priority ≠ [] := by
  cases priority with
  | none => decide
  | some t => exact t.nonempty

theorem plain_priorityArgument (priority : Option Token) : Plain (priorityArgument priority) := by
  cases priority with
  | none =>
    intro c hc
    have hall : (cstr "NORMAL").all (fun c => !isSpace c && c ≠ 0) = true := by decide
    simpa using List.all_eq_true.mp hall c hc
  | some t => exact t.plain

theorem plain_keptUsername (account : Token) : Plain (keptUsername account) :=
  fun c hc => account.plain c (List.mem_of_mem_take hc)

theorem keptUsername_ne_nil (account : Token) : keptUsername account ≠ [] := by
  simp [keptUsername, strncpyZ, account.nonempty]

theorem bytes_eq (call : ClientCall) : call.bytes = (call.line ++ [10]).take call.room := by
  have hblank : cstr " " = [32] := rfl
  have hnewline : cstr "\n" = [10] := rfl
  cases call with
  | signup username password priority =>
    have hkeyword : cstr "SIGNUP " = cstr "SIGNUP" ++ [32] := rfl
    simp [ClientCall.bytes, ClientProgram.signup, priorityArgument_ne_nil, snprintf,
      ClientCall.line, ClientCall.keyword, ClientCall.words, ClientCall.room, spaced, hkeyword, hblank,
      hnewline]
  | login username password =>
    have hkeyword : cstr "LOGIN " = cstr "LOGIN" ++ [32] := rfl
    simp [ClientCall.bytes, ClientProgram.login, snprintf, ClientCall.line, ClientCall.keyword,
      ClientCall.words, ClientCall.room, spaced, hkeyword, hblank, hnewline]
  | upload account filename totalSize now =>
    have hkeyword : cstr "UPLOAD " = cstr "UPLOAD" ++ [32] := rfl
    simp [ClientCall.bytes, uploadFile, snprintf, ClientCall.line, ClientCall.keyword,
      ClientCall.words, ClientCall.room, spaced, hkeyword, hblank, hnewline]
  | download account filename =>
    have hkeyword : cstr "DOWNLOAD " = cstr "DOWNLOAD" ++ [32] := rfl
    simp [ClientCall.bytes, downloadFile, snprintf, ClientCall.line, ClientCall.keyword,
      ClientCall.words, ClientCall.room, spaced, hkeyword, hblank, hnewline]
  | delete account filename =>
    have hkeyword : cstr "DELETE " = cstr "DELETE" ++ [32] := rfl
    simp [ClientCall.bytes, deleteFile, snprintf, ClientCall.line, ClientCall.keyword,
      ClientCall.words, ClientCall.room, spaced, hkeyword, hblank, hnewline]
  | list account =>
    have hkeyword : cstr "LIST " = cstr "LIST" ++ [32] := rfl
    simp [ClientCall.bytes, listFiles, snprintf, ClientCall.line, ClientCall.keyword,
      ClientCall.words, ClientCall.room, spaced, hkeyword, hnewline]

/-- Neither a newline nor a NUL stands in the text. -/
def Unbroken (s : CString) : Prop := 10 ∉ s ∧ 0 ∉ s

theorem unbroken_append {a b : CString} (ha : Unbroken a) (hb : Unbroken b) : Unbroken (a ++ b) := by
  unfold Unbroken at *
  simp [ha, hb]

theorem unbroken_spaced {words : List CString} (h : ∀ w ∈ words, Plain w) :
    Unbroken (spaced words) := by
  have hbyte : ∀ c ∈ spaced words, c = 32 ∨ isSpace c = false ∧ c ≠ 0 := by
    intro c hc
    obtain ⟨w, hw, hmem⟩ := List.mem_flatMap.mp hc
    rcases List.mem_cons.mp hmem with rfl | hmem
    · exact Or.inl rfl
    · exact Or.inr (h w hw c hmem)
  refine ⟨?_, ?_⟩
  · intro hmem
    rcases hbyte 10 hmem with heq | hplain
    · contradiction
    · exact absurd hplain.1 (by decide)
  · intro hmem
    rcases hbyte 0 hmem with heq | hplain
    · contradiction
    · exact hplain.2 rfl

theorem plain_words (call : ClientCall) : ∀ w ∈ call.words, Plain w := by
  cases call with
  | signup username password priority =>
    simp only [ClientCall.words, List.forall_mem_cons]
    exact ⟨username.plain, password.plain, plain_priorityArgument priority, by simp⟩
  | login username password =>
    simp only [ClientCall.words, List.forall_mem_cons]
    exact ⟨username.plain, password.plain, by simp⟩
  | upload account filename totalSize now =>
    simp only [ClientCall.words, List.forall_mem_cons]
    exact ⟨plain_keptUsername account, filename.plain, plain_decimal _,
      plain_uploadTmpfile filename now, by simp⟩
  | download account filename =>
    simp only [ClientCall.words, List.forall_mem_cons]
    exact ⟨plain_keptUsername account, filename.plain, by simp⟩
  | delete account filename =>
    simp only [ClientCall.words, List.forall_mem_cons]
    exact ⟨plain_keptUsername account, filename.plain, by simp⟩
  | list account =>
    simp only [ClientCall.words, List.forall_mem_cons]
    exact ⟨plain_keptUsername account, by simp⟩

theorem keyword_mem (call : ClientCall) : call.keyword ∈ taskKeywords := by
  cases call <;> simp [ClientCall.keyword, taskKeywords]

theorem unbroken_keyword (call : ClientCall) : Unbroken call.keyword ∧ call.keyword ≠ [] := by
  have hall : ∀ k ∈ taskKeywords, (10 ∉ k ∧ 0 ∉ k) ∧ k ≠ [] := by decide
  exact hall _ (keyword_mem call)

theorem unbroken_line (call : ClientCall) : Unbroken call.line ∧ call.line ≠ [] := by
  refine ⟨unbroken_append (unbroken_keyword call).1 (unbroken_spaced (plain_words call)), ?_⟩
  simp [ClientCall.line, (unbroken_keyword call).2]

theorem length_spaced (words : List CString) :
    (spaced words).length = (words.map fun w => w.length + 1).sum := by
  simp [spaced, List.length_flatMap]

end Lines

section Parsing
variable (client : ClientInfo) (now : Timespec)

theorem startsWith_keyword (keyword args : CString) : startsWith (keyword ++ args) keyword = true :=
  (startsWith_iff _ _).mpr (List.prefix_append _ _)

/-- What the parser makes of the words behind a keyword. -/
theorem parseCommand_keyword (args : CString) :
    parseCommand client now (cstr "SIGNUP" ++ args) =
      .submit (parseSignup (blankTask client now) args) ∧
    parseCommand client now (cstr "LOGIN" ++ args) =
      .submit (parseLogin (blankTask client now) args) ∧
    parseCommand client now (cstr "UPLOAD" ++ args) =
      .submit (parseUpload (blankTask client now) args) ∧
    parseCommand client now (cstr "DOWNLOAD" ++ args) =
      .submit (parseUserPath .download .normal (blankTask client now) args) ∧
    parseCommand client now (cstr "DELETE" ++ args) =
      .submit (parseUserPath .delete .high (blankTask client now) args) ∧
    parseCommand client now (cstr "LIST" ++ args) =
      .submit (parseList (blankTask client now) args) := by
  have hother : ∀ k k' : CString, (¬ k <+: k' ∧ ¬ k' <+: k) → startsWith (k ++ args) k' = false :=
    fun k k' hk => startsWith_exclusive (startsWith_keyword k args) k' hk
  refine ⟨?_, ?_, ?_, ?_, ?_, ?_⟩
  · rw [parseCommand, if_pos (startsWith_keyword _ _)]
    rfl
  · rw [parseCommand, hother (cstr "LOGIN") (cstr "SIGNUP") (by decide)]
    simp only [Bool.false_eq_true, if_false, startsWith_keyword, if_true]
    rfl
  · simp only [parseCommand, hother (cstr "UPLOAD") (cstr "SIGNUP") (by decide),
      hother (cstr "UPLOAD") (cstr "LOGIN") (by decide), Bool.false_eq_true, if_false,
      startsWith_keyword, if_true]
    rfl
  · simp only [parseCommand, hother (cstr "DOWNLOAD") (cstr "SIGNUP") (by decide),
      hother (cstr "DOWNLOAD") (cstr "LOGIN") (by decide),
      hother (cstr "DOWNLOAD") (cstr "UPLOAD") (by decide), Bool.false_eq_true, if_false,
      startsWith_keyword, if_true]
    rfl
  · simp only [parseCommand, hother (cstr "DELETE") (cstr "SIGNUP") (by decide),
      hother (cstr "DELETE") (cstr "LOGIN") (by decide),
      hother (cstr "DELETE") (cstr "UPLOAD") (by decide),
      hother (cstr "DELETE") (cstr "DOWNLOAD") (by decide), Bool.false_eq_true, if_false,
      startsWith_keyword, if_true]
    rfl
  · simp only [parseCommand, hother (cstr "LIST") (cstr "SIGNUP") (by decide),
      hother (cstr "LIST") (cstr "LOGIN") (by decide),
      hother (cstr "LIST") (cstr "UPLOAD") (by decide),
      hother (cstr "LIST") (cstr "DOWNLOAD") (by decide),
      hother (cstr "LIST") (cstr "DELETE") (by decide), Bool.false_eq_true, if_false,
      startsWith_keyword, if_true]
    rfl

variable {client now}

theorem sizeField_spaced {n : Nat} (hn : n < 2 ^ 64) (words : List CString) :
    sizeField (some (spaced (decimal n :: words))) = (n, some (spaced words)) :=
  sizeField_decimal hn (broken_spaced words)

theorem parseUpload_words {user path tmpfile : CString} {n : Nat} (hn : n < 2 ^ 64)
    (huser : user ≠ [] ∧ Plain user ∧ user.length ≤ 63)
    (hpath : path ≠ [] ∧ Plain path ∧ path.length ≤ 255)
    (htmpfile : tmpfile ≠ [] ∧ Plain tmpfile ∧ tmpfile.length ≤ 255) :
    (parseUpload (blankTask client now) (spaced [user, path, decimal n, tmpfile])).arguments =
      ⟨.upload, user, [], path, n, tmpfile⟩ := by
  simp only [parseUpload, stringField_spaced huser.1 huser.2.1 huser.2.2,
    stringField_spaced hpath.1 hpath.2.1 hpath.2.2, sizeField_spaced hn,
    stringField_spaced htmpfile.1 htmpfile.2.1 htmpfile.2.2]
  rfl

theorem parseUserPath_words {user path : CString} (type : CommandType) (priority : TaskPriority)
    (huser : user ≠ [] ∧ Plain user ∧ user.length ≤ 63)
    (hpath : path ≠ [] ∧ Plain path ∧ path.length ≤ 255) :
    (parseUserPath type priority (blankTask client now) (spaced [user, path])).arguments =
      ⟨type, user, [], path, 0, []⟩ := by
  simp only [parseUserPath, stringField_spaced huser.1 huser.2.1 huser.2.2,
    stringField_spaced hpath.1 hpath.2.1 hpath.2.2]
  rfl

theorem parseSignup_words {user pass : CString} (words : List CString)
    (huser : user ≠ [] ∧ Plain user ∧ user.length ≤ 63)
    (hpass : pass ≠ [] ∧ Plain pass ∧ pass.length ≤ 63) :
    (parseSignup (blankTask client now) (spaced (user :: pass :: words))).arguments =
      ⟨.signup, user, pass, [], 0, []⟩ := by
  simp only [parseSignup, stringField_spaced huser.1 huser.2.1 huser.2.2,
    stringField_spaced hpass.1 hpass.2.1 hpass.2.2]
  rfl

theorem parseLogin_words {user pass : CString} (huser : user ≠ [] ∧ Plain user ∧ user.length ≤ 63)
    (hpass : pass ≠ [] ∧ Plain pass ∧ pass.length ≤ 63) :
    (parseLogin (blankTask client now) (spaced [user, pass])).arguments =
      ⟨.login, user, pass, [], 0, []⟩ := by
  simp only [parseLogin, stringField_spaced huser.1 huser.2.1 huser.2.2,
    stringField_spaced hpass.1 hpass.2.1 hpass.2.2]
  rfl

theorem parseList_words {user : CString} (huser : user ≠ [] ∧ Plain user ∧ user.length ≤ 63) :
    (parseList (blankTask client now) (spaced [user])).arguments = ⟨.list, user, [], [], 0, []⟩ := by
  simp only [parseList, stringField_spaced huser.1 huser.2.1 huser.2.2]
  rfl

theorem token_word (t : Token) : t.text ≠ [] ∧ Plain t.text ∧ t.text.length ≤ 255 :=
  ⟨t.nonempty, t.plain, t.fits⟩

theorem tmpfile_word (filename : Token) (now : Int) :
    uploadTmpfile filename.text now ≠ [] ∧ Plain (uploadTmpfile filename.text now) ∧
      (uploadTmpfile filename.text now).length ≤ 255 :=
  ⟨uploadTmpfile_ne_nil _ _, plain_uploadTmpfile filename now, List.length_take_le _ _⟩

theorem kept_word (account : Token) :
    keptUsername account ≠ [] ∧ Plain (keptUsername account) ∧ (keptUsername account).length ≤ 63 :=
  ⟨keptUsername_ne_nil account, plain_keptUsername account, List.length_take_le _ _⟩

/-- A whole line gives back the arguments of a call whose names fit. -/
theorem line_arguments {call : ClientCall} (h : call.Fits) :
    ∃ task, parseCommand client now call.line = .submit task ∧ task.arguments = call.arguments := by
  obtain ⟨hsignup, hlogin, hupload, hdownload, hdelete, hlist⟩ :=
    parseCommand_keyword client now (spaced call.words)
  have hkept : ∀ account : Token, account.text.length ≤ 63 → keptUsername account = account.text :=
    fun account hlen => strncpyZ_of_fits hlen
  cases call with
  | signup username password priority =>
    refine ⟨_, hsignup, parseSignup_words _ ?_ ?_⟩
    · exact ⟨username.nonempty, username.plain, h.1⟩
    · exact ⟨password.nonempty, password.plain, h.2.1⟩
  | login username password =>
    refine ⟨_, hlogin, parseLogin_words ?_ ?_⟩
    · exact ⟨username.nonempty, username.plain, h.1⟩
    · exact ⟨password.nonempty, password.plain, h.2⟩
  | upload account filename totalSize now =>
    refine ⟨_, hupload, ?_⟩
    rw [ClientCall.arguments, ← hkept account h.1]
    exact parseUpload_words totalSize.toNat_lt (kept_word account) (token_word filename)
      (tmpfile_word filename now)
  | download account filename =>
    refine ⟨_, hdownload, ?_⟩
    rw [ClientCall.arguments, ← hkept account h]
    exact parseUserPath_words _ _ (kept_word account) (token_word filename)
  | delete account filename =>
    refine ⟨_, hdelete, ?_⟩
    rw [ClientCall.arguments, ← hkept account h.1]
    exact parseUserPath_words _ _ (kept_word account) (token_word filename)
  | list account =>
    refine ⟨_, hlist, ?_⟩
    rw [ClientCall.arguments, ← hkept account h]
    exact parseList_words (kept_word account)

end Parsing

section Lengths

theorem length_line (call : ClientCall) :
    call.line.length = call.keyword.length + (call.words.map fun w => w.length + 1).sum := by
  rw [ClientCall.line, List.length_append, length_spaced]

theorem room_le (call : ClientCall) : call.room ≤ 511 := by
  cases call <;> simp [ClientCall.room]

theorem length_kept {account : Token} (h : account.text.length ≤ 63) :
    (keptUsername account).length = account.text.length := by
  rw [keptUsername, strncpyZ_of_fits h]

/-- The length of a line, argument by argument. -/
theorem length_line_arguments (call : ClientCall) : call.line.length =
    match call with
    | .signup username password priority =>
      9 + username.text.length + password.text.length + (priorityArgument priority).length
    | .login username password => 7 + username.text.length + password.text.length
    | .upload account filename totalSize now =>
      10 + (keptUsername account).length + filename.text.length +
        (decimal totalSize.toNat).length + (uploadTmpfile filename.text now).length
    | .download account filename => 10 + (keptUsername account).length + filename.text.length
    | .delete account filename => 8 + (keptUsername account).length + filename.text.length
    | .list account => 5 + (keptUsername account).length := by
  have hkeyword : call.keyword.length =
      match call with
      | .login _ _ => 5
      | .download _ _ => 8
      | .list _ => 4
      | _ => 6 := by
    cases call <;> rfl
  rw [length_line, hkeyword]
  cases call <;>
    simp only [ClientCall.words, List.map_cons, List.map_nil, List.sum_cons, List.sum_nil] <;> omega

/-- A command that fits leaves room for its newline, or fills the server's buffer. -/
theorem room_of_fits {call : ClientCall} (h : call.Fits) :
    call.line.length < call.room ∨ call.room = 511 ∧ call.line.length = 511 := by
  rw [length_line_arguments]
  cases call with
  | signup username password priority =>
    obtain ⟨huser, hpass, hsum⟩ := h
    dsimp only [ClientCall.room]
    omega
  | login username password =>
    obtain ⟨huser, hpass⟩ := h
    dsimp only [ClientCall.room]
    omega
  | upload account filename totalSize now =>
    obtain ⟨huser, hsum⟩ := h
    dsimp only [ClientCall.room]
    rw [length_kept huser]
    omega
  | download account filename =>
    have hpath := filename.fits
    have huser : account.text.length ≤ 63 := h
    dsimp only [ClientCall.room]
    rw [length_kept huser]
    omega
  | delete account filename =>
    obtain ⟨huser, hsum⟩ := h
    dsimp only [ClientCall.room]
    rw [length_kept huser]
    omega
  | list account =>
    have huser : account.text.length ≤ 63 := h
    dsimp only [ClientCall.room]
    rw [length_kept huser]
    omega

end Lengths

theorem roundTrips_of_fits {call : ClientCall} (h : call.Fits) : RoundTrips call := by
  intro client now buf more
  obtain ⟨⟨hline, hzero⟩, hne⟩ := unbroken_line call
  have hframe : frame (call.bytes ++ more) = ⟨call.line, true, more⟩ := by
    rw [bytes_eq]
    rcases room_of_fits h with hroom | ⟨hroom, hfull⟩
    · have hmost := room_le call
      have hwhole : (call.line ++ [10]).length ≤ call.room := by
        rw [List.length_append]
        exact hroom
      rw [List.take_of_length_le hwhole, List.append_assoc]
      exact frame_line hline (by omega) more
    · rw [hroom, ← hfull, List.take_left]
      exact frame_full hline hfull more
  obtain ⟨hresult, hrest, htext⟩ := recvLine_of_frame hframe hne hzero buf
  refine ⟨hresult, hrest, ?_⟩
  rw [htext]
  exact line_arguments h

section Overlong
variable {call : ClientCall}

/-- A line that has lost its newline is not read as a line of its own. -/
theorem not_roundTrips_of_cut (hroom : call.room = 255) (hlong : 255 ≤ call.line.length) :
    ¬ RoundTrips call := by
  intro h
  obtain ⟨_, hrest, _⟩ := h ⟨0, 0⟩ ⟨0, 0⟩ (Vector.replicate 512 0) [120]
  have hbytes : call.bytes = call.line.take 255 := by
    rw [bytes_eq, hroom, List.take_append_of_le_length hlong]
  have hline : 10 ∉ call.line.take 255 := fun hmem =>
    (unbroken_line call).1.1 (List.mem_of_mem_take hmem)
  have hshort : (call.line.take 255).length ≤ 509 := by
    rw [List.length_take]
    omega
  rw [(recvLine_frame _ _).1, hbytes, frame_open hline hshort] at hrest
  contradiction

/-- An UPLOAD line that is cut names another temporary file. -/
theorem not_roundTrips_upload {account filename : Token} {totalSize : UInt64} {now : Int}
    (hlong : 511 < (ClientCall.upload account filename totalSize now).line.length) :
    ¬ RoundTrips (.upload account filename totalSize now) := by
  intro h
  obtain ⟨_, _, task, hparse, harguments⟩ := h ⟨0, 0⟩ ⟨0, 0⟩ (Vector.replicate 512 0) []
  generalize hcall : ClientCall.upload account filename totalSize now = call at *
  let front := cstr "UPLOAD" ++ spaced [keptUsername account, filename.text, decimal totalSize.toNat]
  let kept := (uploadTmpfile filename.text now).take (510 - front.length)
  have hfront : front.length ≤ 347 := by
    have huser := (kept_word account).2.2
    have hpath := filename.fits
    have hdigits := decimal_length_le totalSize.toNat_lt
    have hkeyword : (cstr "UPLOAD").length = 6 := rfl
    simp only [front, List.length_append, length_spaced, hkeyword, List.map_cons, List.map_nil,
      List.sum_cons, List.sum_nil]
    omega
  have hline : call.line = front ++ 32 :: uploadTmpfile filename.text now := by
    subst hcall
    simp [front, ClientCall.line, ClientCall.keyword, ClientCall.words, spaced]
  have hcut : call.line.take 511 = front ++ 32 :: kept := by
    have hroom : 511 - front.length = (510 - front.length) + 1 := by omega
    rw [hline, List.take_append, List.take_of_length_le (by omega), hroom, List.take_succ_cons]
  have hkept : kept.length < (uploadTmpfile filename.text now).length := by
    rw [hline, List.length_append, List.length_cons] at hlong
    simp only [kept, List.length_take]
    omega
  have hframe : frame (call.bytes ++ []) = ⟨call.line.take 511, true, []⟩ := by
    have hbytes : call.bytes = call.line.take 511 := by
      rw [bytes_eq, List.take_append_of_le_length]
      · subst hcall
        rfl
      · exact (room_le call).trans hlong.le
    rw [hbytes]
    refine frame_full ?_ (by simp; omega) []
    exact fun hmem => (unbroken_line call).1.1 (List.mem_of_mem_take hmem)
  have hne : call.line.take 511 ≠ [] := by simp [hcut]
  have hzero : 0 ∉ call.line.take 511 :=
    fun hmem => (unbroken_line call).1.2 (List.mem_of_mem_take hmem)
  have hsplit : front ++ 32 :: kept = cstr "UPLOAD" ++
      spaced [keptUsername account, filename.text, decimal totalSize.toNat, kept] := by
    simp [front, spaced]
  rw [(recvLine_of_frame hframe hne hzero _).2.2, hcut, hsplit,
    (parseCommand_keyword _ _ _).2.2.1] at hparse
  have hword : kept ≠ [] ∧ Plain kept ∧ kept.length ≤ 255 := by
    obtain ⟨htmp, hplain, hlen⟩ := tmpfile_word filename now
    refine ⟨?_, fun c hc => hplain c (List.mem_of_mem_take hc), by omega⟩
    simp only [kept, ne_eq, List.take_eq_nil_iff, htmp, or_false]
    omega
  obtain rfl := Parsed.submit.inj hparse
  rw [parseUpload_words totalSize.toNat_lt (kept_word account) (token_word filename) hword,
    ← hcall] at harguments
  have hsame : kept = uploadTmpfile filename.text now := congrArg Arguments.tmpfile harguments
  rw [hsame] at hkept
  omega

end Overlong

theorem fits_of_roundTrips {call : ClientCall} (h : RoundTrips call) : call.Fits := by
  obtain ⟨_, _, task, hparse, harguments⟩ := h ⟨0, 0⟩ ⟨0, 0⟩ (Vector.replicate 512 0) []
  have huser := parseCommand_username hparse
  have hpass := parseCommand_password hparse
  have huser' : task.username = call.arguments.username := congrArg Arguments.username harguments
  have hpass' : task.password = call.arguments.password := congrArg Arguments.password harguments
  rw [huser'] at huser
  rw [hpass'] at hpass
  have hlen := length_line_arguments call
  cases call with
  | signup username password priority =>
    refine ⟨huser, hpass, ?_⟩
    by_contra hsum
    dsimp only at hlen
    exact not_roundTrips_of_cut rfl (by omega) h
  | login username password => exact ⟨huser, hpass⟩
  | upload account filename totalSize now =>
    refine ⟨huser, ?_⟩
    by_contra hsum
    dsimp only at hlen
    rw [length_kept huser] at hlen
    exact not_roundTrips_upload (by omega) h
  | download account filename => exact huser
  | delete account filename =>
    refine ⟨huser, ?_⟩
    by_contra hsum
    dsimp only at hlen
    rw [length_kept huser] at hlen
    exact not_roundTrips_of_cut rfl (by omega) h
  | list account => exact huser

/-- The server reads what the client was given exactly for commands that fit. -/
theorem command_roundTrips_iff_fits (call : ClientCall) : RoundTrips call ↔ call.Fits :=
  ⟨fits_of_roundTrips, roundTrips_of_fits⟩

/-- A user name of 64 letters, given to `login`. -/
def longName : Token where
  text := List.replicate 64 97
  nonempty := by decide
  fits := by decide
  plain := by
    intro c hc
    obtain rfl := List.eq_of_mem_replicate hc
    exact ⟨rfl, by decide⟩

/-- Its last letter is read as the password. -/
theorem long_name_spills : ¬ ∀ call : ClientCall, RoundTrips call := by
  intro h
  obtain ⟨_, _, task, hparse, harguments⟩ :=
    h (.login longName longName) ⟨0, 0⟩ ⟨0, 0⟩ (Vector.replicate 512 0) []
  have hread : ((parseCommand ⟨0, 0⟩ ⟨0, 0⟩ (cString (recvLine
      ((ClientCall.login longName longName).bytes ++ []) (Vector.replicate 512 0)).buf.toList)).task?.map
        fun t => t.password) = some [97] := by
    decide +kernel
  rw [hparse] at hread
  have hpass : task.password = [97] := by simpa [Parsed.task?] using hread
  have hsame : task.password = longName.text := congrArg Arguments.password harguments
  rw [hpass] at hsame
  exact absurd hsame (by decide)

end FileServer
