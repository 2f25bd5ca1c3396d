import FileServer.Types

/-!
# The command parser (client_thread_main in client.c)

`sscanf` with the three directives the parser uses. Conversions run from left to
right; after the first that fails the remaining fields keep the values
`task_create` gave them, and no branch but SIGNUP looks at the count.
-/

namespace FileServer

set_option autoImplicit false

def isSpace (c : Byte) : Bool := c = 32 ∨ (9 ≤ c ∧ c ≤ 13)

def isDigit (c : Byte) : Bool := 48 ≤ c ∧ c ≤ 57

/-- `%<width>s`. -/
def scanString (width : Nat) (s : CString) : Option (CString × CString) :=
  let t := s.dropWhile isSpace
  if t = [] then none
  else
    let word := (t.takeWhile fun c => !isSpace c).take width
    some (word, t.drop word.length)

/-- `%zu`: the value saturates as `strtoull` does, and a sign wraps it. -/
def scanSize (s : CString) : Option (Nat × CString) :=
  let t := s.dropWhile isSpace
  let negative := t.head? = some 45
  let body := if t.head? = some 43 ∨ negative then t.tail else t
  let digits := body.takeWhile isDigit
  if digits = [] then none
  else
    let value : Nat := digits.foldl (fun n d => 10 * n + (d.toNat - 48)) 0
    let size :=
      if 2 ^ 64 ≤ value then 2 ^ 64 - 1
      else if negative then (2 ^ 64 - value) % 2 ^ 64
      else value
    some (size, body.drop digits.length)

/-- One string conversion; `none` as input means that an earlier one failed. -/
def stringField (width : Nat) (input : Option CString) : CString × Option CString :=
  match input.bind (scanString width) with
  | some (word, rest) => (word, some rest)
  | none => ([], none)

def sizeField (input : Option CString) : Nat × Option CString :=
  match input.bind scanSize with
  | some (size, rest) => (size, some rest)
  | none => (0, none)

def toLower (c : Byte) : Byte := if 65 ≤ c ∧ c ≤ 90 then c + 32 else c

/-- `strcasecmp(a, b) == 0`. -/
def strcasecmpEq (a b : CString) : Bool := a.map toLower = b.map toLower

/-- `strncmp(line, keyword, strlen(keyword)) == 0`. -/
def startsWith (line keyword : CString) : Bool := line.take keyword.length = keyword

inductive Parsed where
  | submit (task : Task)
  | quit
  | unknown
  deriving DecidableEq, Repr

def parseSignup (task : Task) (args : CString) : Task :=
  let (username, rest) := stringField 63 (some args)
  let (password, rest) := stringField 63 rest
  let (priorityStr, rest) := stringField 15 rest
  let priority :=
    if rest.isSome then
      if strcasecmpEq priorityStr (cstr "HIGH") then .high
      else if strcasecmpEq priorityStr (cstr "LOW") then .low
      else .normal
    else .normal
  { task with type := .signup, username, password, priority }

def parseLogin (task : Task) (args : CString) : Task :=
  let (username, rest) := stringField 63 (some args)
  let (password, _) := stringField 63 rest
  { task with type := .login, username, password, priority := .high }

def parseUpload (task : Task) (args : CString) : Task :=
  let (username, rest) := stringField 63 (some args)
  let (path, rest) := stringField 255 rest
  let (size, rest) := sizeField rest
  let (tmpfile, _) := stringField 255 rest
  { task with type := .upload, username, path, size, tmpfile, priority := .normal }

/-- DOWNLOAD and DELETE read the same two tokens. -/
def parseUserPath (type : CommandType) (priority : TaskPriority) (task : Task)
    (args : CString) : Task :=
  let (username, rest) := stringField 63 (some args)
  let (path, _) := stringField 255 rest
  { task with type, username, path, priority }

def parseList (task : Task) (args : CString) : Task :=
  let (username, _) := stringField 63 (some args)
  { task with type := .list, username, priority := .low }

def parseCommand (client : ClientInfo) (now : Timespec) (line : CString) : Parsed :=
  let task := taskCreate .unknown client [] [] [] [] 0 .normal now
  if startsWith line (cstr "SIGNUP") then .submit (parseSignup task (line.drop 6))
  else if startsWith line (cstr "LOGIN") then .submit (parseLogin task (line.drop 5))
  else if startsWith line (cstr "UPLOAD") then .submit (parseUpload task (line.drop 6))
  else if startsWith line (cstr "DOWNLOAD") then
    .submit (parseUserPath .download .normal task (line.drop 8))
  else if startsWith line (cstr "DELETE") then
    .submit (parseUserPath .delete .high task (line.drop 6))
  else if startsWith line (cstr "LIST") then .submit (parseList task (line.drop 4))
  else if startsWith line (cstr "QUIT") then .quit
  else .unknown

/-- The task that the parser starts from. -/
def blankTask (client : ClientInfo) (now : Timespec) : Task :=
  taskCreate .unknown client [] [] [] [] 0 .normal now

theorem parseCommand_cases {client : ClientInfo} {now : Timespec} {line : CString} {t : Task}
    (h : parseCommand client now line = .submit t) :
    ∃ args, t = parseSignup (blankTask client now) args ∨ t = parseLogin (blankTask client now) args ∨
      t = parseUpload (blankTask client now) args ∨
      t = parseUserPath .download .normal (blankTask client now) args ∨
      t = parseUserPath .delete .high (blankTask client now) args ∨
      t = parseList (blankTask client now) args := by
  unfold parseCommand at h
  dsimp only at h
  split at h
  · exact ⟨_, Or.inl (Parsed.submit.inj h).symm⟩
  split at h
  · exact ⟨_, Or.inr (Or.inl (Parsed.submit.inj h).symm)⟩
  split at h
  · exact ⟨_, Or.inr (Or.inr (Or.inl (Parsed.submit.inj h).symm))⟩
  split at h
  · exact ⟨_, Or.inr (Or.inr (Or.inr (Or.inl (Parsed.submit.inj h).symm)))⟩
  split at h
  · exact ⟨_, Or.inr (Or.inr (Or.inr (Or.inr (Or.inl (Parsed.submit.inj h).symm))))⟩
  split at h
  · exact ⟨_, Or.inr (Or.inr (Or.inr (Or.inr (Or.inr (Parsed.submit.inj h).symm))))⟩
  split at h
  · cases h
  · cases h

theorem parseCommand_submit {client : ClientInfo} {now : Timespec} {line : CString} {t : Task}
    (h : parseCommand client now line = .submit t) :
    t.client = client ∧ t.type ≠ .unknown ∧ t.type ≠ .quit := by
  obtain ⟨args, rfl | rfl | rfl | rfl | rfl | rfl⟩ := parseCommand_cases h
  · exact ⟨rfl, by simp [parseSignup], by simp [parseSignup]⟩
  · exact ⟨rfl, by simp [parseLogin], by simp [parseLogin]⟩
  · exact ⟨rfl, by simp [parseUpload], by simp [parseUpload]⟩
  · exact ⟨rfl, by simp [parseUserPath], by simp [parseUserPath]⟩
  · exact ⟨rfl, by simp [parseUserPath], by simp [parseUserPath]⟩
  · exact ⟨rfl, by simp [parseList], by simp [parseList]⟩

theorem stringField_length_le (width : Nat) (input : Option CString) :
    (stringField width input).1.length ≤ width := by
  unfold stringField
  cases input with
  | none => simp
  | some s =>
    simp only [Option.bind_some, scanString]
    split
    · rename_i word rest h
      split at h
      · contradiction
      · obtain ⟨rfl, _⟩ := Prod.mk.inj (Option.some.inj h)
        exact List.length_take_le _ _
    · simp

theorem parseCommand_username {client : ClientInfo} {now : Timespec} {line : CString} {t : Task}
    (h : parseCommand client now line = .submit t) : t.username.length ≤ 63 := by
  obtain ⟨args, rfl | rfl | rfl | rfl | rfl | rfl⟩ := parseCommand_cases h
  all_goals exact stringField_length_le 63 (some args)

theorem parseCommand_password {client : ClientInfo} {now : Timespec} {line : CString} {t : Task}
    (h : parseCommand client now line = .submit t) : t.password.length ≤ 63 := by
  obtain ⟨args, rfl | rfl | rfl | rfl | rfl | rfl⟩ := parseCommand_cases h
  · exact stringField_length_le 63 _
  · exact stringField_length_le 63 _
  all_goals exact Nat.zero_le 63

end FileServer
