import Mathlib.Data.List.TakeWhile
import FileServer.LineBuffer
import FileServer.Worker

/-!
# The bundled client (client_program.c)

What the functions of the client hand to `send_command`, and the arguments that
`interactive_mode` calls them with. Every command is formatted into a fixed buffer
of 256 or 512 bytes; what does not fit is cut off without notice, the newline
included. The user name of a file command is the one that `signup` or `login` has
kept, cut to 63 bytes.
-/

namespace FileServer.ClientProgram

set_option autoImplicit false

/-- A word that `sscanf` reads with `%255s`. -/
structure Token where
  text : CString
  nonempty : text ≠ []
  fits : text.length ≤ 255
  plain : ∀ c ∈ text, isSpace c = false ∧ c ≠ 0

/-- What precedes the terminating NUL of a string. -/
abbrev Text := {s : CString // 0 ∉ s}

def signup (username password priority : CString) : CString :=
  if priority ≠ [] then
    snprintf 256 (cstr "SIGNUP " ++ username ++ cstr " " ++ password ++ cstr " " ++ priority ++ cstr "\n")
  else snprintf 256 (cstr "SIGNUP " ++ username ++ cstr " " ++ password ++ cstr " NORMAL\n")

def login (username password : CString) : CString :=
  snprintf 256 (cstr "LOGIN " ++ username ++ cstr " " ++ password ++ cstr "\n")

/-- The copy that `upload_file` makes of the file for the server to fetch. -/
def uploadTmpfile (filename : CString) (now : Int) : CString :=
  snprintf 256 (cstr "/tmp/upload_" ++ filename ++ cstr "_" ++ cstr (toString now))

def uploadFile (username filename : CString) (totalSize : Nat) (now : Int) : CString :=
  snprintf 512 (cstr "UPLOAD " ++ username ++ cstr " " ++ filename ++ cstr " " ++
    decimal totalSize ++ cstr " " ++ uploadTmpfile filename now ++ cstr "\n")

def downloadFile (username filename : CString) : CString :=
  snprintf 512 (cstr "DOWNLOAD " ++ username ++ cstr " " ++ filename ++ cstr "\n")

def deleteFile (username filename : CString) : CString :=
  snprintf 256 (cstr "DELETE " ++ username ++ cstr " " ++ filename ++ cstr "\n")

def listFiles (username : CString) : CString :=
  snprintf 256 (cstr "LIST " ++ username ++ cstr "\n")

/-- A call that `interactive_mode` makes. `account` is the user name given at the
last `signup` or `login` that was answered OK. -/
inductive ClientCall where
  | signup (username password : Token) (priority : Option Token)
  | login (username password : Token)
  | upload (account filename : Token) (totalSize : UInt64) (now : Int)
  | download (account filename : Token)
  | delete (account filename : Token)
  | list (account : Token)

/-- `client->username`. -/
def keptUsername (account : Token) : CString := strncpyZ 64 account.text

def priorityArgument (priority : Option Token) : CString :=
  (priority.map Token.text).getD (cstr "NORMAL")

/-- What the call hands to `send_command`. -/
def ClientCall.bytes : ClientCall → CString
  | .signup username password priority =>
    ClientProgram.signup username.text password.text (priorityArgument priority)
  | .login username password => ClientProgram.login username.text password.text
  | .upload account filename totalSize now =>
    uploadFile (keptUsername account) filename.text totalSize.toNat now
  | .download account filename => downloadFile (keptUsername account) filename.text
  | .delete account filename => deleteFile (keptUsername account) filename.text
  | .list account => listFiles (keptUsername account)

theorem zero_not_mem_scanned {width : Nat} {s word rest : CString} (hs : 0 ∉ s)
    (h : scanString width s = some (word, rest)) : 0 ∉ word ∧ 0 ∉ rest := by
  unfold scanString at h
  dsimp only at h
  split at h
  · contradiction
  obtain ⟨hword, hrest⟩ := Prod.mk.inj (Option.some.inj h)
  have hsub : ∀ c ∈ s.dropWhile isSpace, c ∈ s := fun c hc => (List.dropWhile_sublist _).subset hc
  refine ⟨?_, ?_⟩
  · intro hzero
    rw [← hword] at hzero
    exact hs (hsub 0 ((List.takeWhile_sublist _).subset (List.mem_of_mem_take hzero)))
  · intro hzero
    rw [← hrest] at hzero
    exact hs (hsub 0 (List.mem_of_mem_drop hzero))

theorem scanString_token {s word rest : CString} (hs : 0 ∉ s)
    (h : scanString 255 s = some (word, rest)) :
    word ≠ [] ∧ word.length ≤ 255 ∧ ∀ c ∈ word, isSpace c = false ∧ c ≠ 0 := by
  have hzero := (zero_not_mem_scanned hs h).1
  unfold scanString at h
  dsimp only at h
  split at h
  · contradiction
  rename_i hne
  obtain ⟨hword, _⟩ := Prod.mk.inj (Option.some.inj h)
  refine ⟨?_, ?_, ?_⟩
  · obtain ⟨c, cs, hcons⟩ := List.exists_cons_of_ne_nil hne
    have hletter : isSpace c = false := by
      have hhead := List.head_dropWhile_not isSpace hne
      simpa [hcons] using hhead
    rw [← hword, hcons, List.takeWhile_cons, hletter]
    simp
  · rw [← hword]
    exact List.length_take_le _ _
  · intro c hc
    refine ⟨?_, fun heq => hzero (heq ▸ hc)⟩
    rw [← hword] at hc
    simpa using List.mem_takeWhile_imp (List.mem_of_mem_take hc)

def scanToken (s : Text) : Option (Token × Text) :=
  match h : scanString 255 s.val with
  | none => none
  | some (word, rest) =>
    have ht := scanString_token s.property h
    some (⟨word, ht.1, ht.2.1, ht.2.2⟩, ⟨rest, (zero_not_mem_scanned s.property h).2⟩)

/-- The branches of `interactive_mode`. `copied` are the size and the clock of
`upload_file` when it could copy the file. -/
def dispatch (account : Option Token) (copied : Option (UInt64 × Int)) (command : CString)
    (arg1 arg2 arg3 : Option Token) : Option ClientCall :=
  if command = cstr "quit" then none
  else if command = cstr "signup" then
    arg1.bind fun username => arg2.map fun password => .signup username password arg3
  else if command = cstr "login" then
    arg1.bind fun username => arg2.map fun password => .login username password
  else
    account.bind fun account =>
      if command = cstr "upload" then
        arg1.bind fun filename => copied.map fun copy => .upload account filename copy.1 copy.2
      else if command = cstr "download" then arg1.map (.download account)
      else if command = cstr "delete" then arg1.map (.delete account)
      else if command = cstr "list" then some (.list account)
      else none

/-- One input line. A line of blanks leaves the previous command word in place. -/
def interactiveMode (account : Option Token) (copied : Option (UInt64 × Int)) (command : CString)
    (input : Text) : CString × Option ClientCall :=
  match h : scanString 63 input.val with
  | none => (command, dispatch account copied command none none none)
  | some (word, rest) =>
    let arg1 := scanToken ⟨rest, (zero_not_mem_scanned input.property h).2⟩
    let arg2 := arg1.bind fun t => scanToken t.2
    let arg3 := arg2.bind fun t => scanToken t.2
    (word, dispatch account copied word (arg1.map Prod.fst) (arg2.map Prod.fst) (arg3.map Prod.fst))

end FileServer.ClientProgram
