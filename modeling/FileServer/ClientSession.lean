import FileServer.CommandTail
import FileServer.InteractiveMode

/-!
# A session of the bundled client (client_program.c)

`send_command` lets nothing but SIGNUP and LOGIN through before an answer that begins
with `OK`, and the file commands name the user that the client has kept at that answer.
The server does not ask whose connection a file command comes in on, so this gate is all
that stands before the files of another user. Over whole sessions, with any input and
any faults of the connection, what is sent is a part of what the account that was
accepted last may ask for.
-/

namespace FileServer.ClientProgram

open Lines Fgets
set_option autoImplicit false

structure ClientState where
  username : CString
  loggedIn : Bool
  deriving DecidableEq, Repr

/-- What the calls of a round meet: the size and the clock of the copy that `upload_file`
makes, the bytes that `write` takes, and those that `read` has found. -/
structure Surroundings where
  copied : Option (UInt64 × Int)
  written : Option Nat
  received : Option (List Byte)
  deriving DecidableEq, Repr

/-- Whether the command has been sent whole, and what of it has been sent. -/
def ClientState.sendCommand (client : ClientState) (command : CString) (written : Option Nat) :
    Bool × List Byte :=
  if !client.loggedIn && !startsWith command (cstr "SIGNUP") && !startsWith command (cstr "LOGIN") then
    (false, [])
  else
    match written with
    | none => (false, [])
    | some n => (decide ((command.take n).length = command.length), command.take n)

def receiveResponse (responseSize : Nat) : Option (List Byte) → Option CString
  | none | some [] => none
  | some bytes => some (cString (bytes.take (responseSize - 1)))

/-- `strncmp(response, "OK", 2) == 0` for the response that has been read. -/
def Surroundings.answersOk (around : Surroundings) : Bool :=
  (receiveResponse 1024 around.received).any fun response => startsWith response (cstr "OK")

/-- What `signup` and `login` do with their command. -/
def ClientState.signIn (client : ClientState) (username command : CString) (around : Surroundings) :
    ClientState × List Byte :=
  let (whole, sent) := client.sendCommand command around.written
  if whole && around.answersOk then (⟨strncpyZ 64 username, true⟩, sent) else (client, sent)

def ClientState.signup (client : ClientState) (username password priority : CString)
    (around : Surroundings) : ClientState × List Byte :=
  client.signIn username (ClientProgram.signup username password priority) around

def ClientState.login (client : ClientState) (username password : CString) (around : Surroundings) :
    ClientState × List Byte :=
  client.signIn username (ClientProgram.login username password) around

/-- What `upload_file` sends, if it could copy the file. -/
def ClientState.uploadFile (client : ClientState) (filename : CString) (around : Surroundings) : List Byte :=
  match around.copied with
  | none => []
  | some (totalSize, now) =>
    (client.sendCommand (ClientProgram.uploadFile client.username filename totalSize.toNat now)
      around.written).2

def ClientState.downloadFile (client : ClientState) (filename : CString) (around : Surroundings) : List Byte :=
  (client.sendCommand (ClientProgram.downloadFile client.username filename) around.written).2

def ClientState.deleteFile (client : ClientState) (filename : CString) (around : Surroundings) : List Byte :=
  (client.sendCommand (ClientProgram.deleteFile client.username filename) around.written).2

def ClientState.listFiles (client : ClientState) (around : Surroundings) : List Byte :=
  (client.sendCommand (ClientProgram.listFiles client.username) around.written).2

/-- The call of a branch of `interactive_mode`, and what it sends. -/
def ClientState.call (client : ClientState) : Dispatched → Surroundings → ClientState × List Byte
  | .signup username password priority, around => client.signup username password priority around
  | .login username password, around => client.login username password around
  | .upload filename, around => (client, client.uploadFile filename around)
  | .download filename, around => (client, client.downloadFile filename around)
  | .delete filename, around => (client, client.deleteFile filename around)
  | .list, around => (client, client.listFiles around)
  | .quit, around => (client, (client.sendCommand (cstr "QUIT\n") around.written).2)

structure Exchange where
  call : Dispatched
  around : Surroundings
  sent : List Byte
  deriving DecidableEq, Repr

/-- The rounds of the loop, each with the string that `fgets` has stored. -/
def clientLoop (b : InputBuffers) (client : ClientState) : List (List Byte × Surroundings) → List Exchange
  | [] => []
  | (stored, around) :: more =>
    match inputRound b stored with
    | (b, none) => clientLoop b client more
    | (b, some call) =>
      ⟨call, around, (client.call call around).2⟩ ::
        if call = .quit then [] else clientLoop b (client.call call around).1 more

/-- The client on the bytes of `stdin`, with what each round meets. -/
def clientSession (b : InputBuffers) (stdin : List Byte) (around : Nat → Surroundings) : List Exchange :=
  clientLoop b ⟨[], false⟩ ((readAll 10 511 stdin).zipIdx.map fun s => (s.1, around s.2))

/-! What the user of an account may ask for. -/

/-- The command of a call under the account that the server has accepted last. -/
def request (account : Option CString) (call : Dispatched) (copied : Option (UInt64 × Int)) :
    Option CString :=
  match call with
  | .signup username password priority => some (ClientProgram.signup username password priority)
  | .login username password => some (ClientProgram.login username password)
  | .upload filename => account.bind fun account =>
    copied.map fun copy => ClientProgram.uploadFile (strncpyZ 64 account) filename copy.1.toNat copy.2
  | .download filename => account.map fun account => ClientProgram.downloadFile (strncpyZ 64 account) filename
  | .delete filename => account.map fun account => ClientProgram.deleteFile (strncpyZ 64 account) filename
  | .list => account.map fun account => ClientProgram.listFiles (strncpyZ 64 account)
  | .quit => account.map fun _ => cstr "QUIT\n"

/-- The account that an exchange signs in to: the command has gone out whole and was answered `OK`. -/
def Exchange.signedIn (x : Exchange) : Option CString :=
  match x.call with
  | .signup username _ _ | .login username _ =>
    if some x.sent = request none x.call x.around.copied ∧ x.around.answersOk then some username else none
  | _ => none

def accountAfter (account : Option CString) (exchanges : List Exchange) : Option CString :=
  exchanges.foldl (fun account x => x.signedIn.or account) account

/-- The client has kept the account that was accepted last. -/
structure ClientState.Keeps (client : ClientState) (account : Option CString) : Prop where
  loggedIn : client.loggedIn = account.isSome
  username : ∀ name, account = some name → client.username = strncpyZ 64 name

section Gate
variable {client : ClientState} {account : Option CString} {command keyword : CString}
variable {written : Option Nat} {around : Surroundings}

theorem startsWith_snprintf {cap : Nat} {text : CString} (hcap : keyword.length ≤ cap - 1)
    (h : startsWith text keyword = true) : startsWith (snprintf cap text) keyword = true := by
  rw [startsWith, decide_eq_true_eq] at h ⊢
  rw [snprintf, List.take_take, Nat.min_eq_left hcap, h]

theorem startsWith_text (keyword more : CString) : startsWith (keyword ++ more) keyword = true := by
  rw [startsWith_iff]
  exact List.prefix_append keyword more

theorem sendCommand_of_open (h : client.loggedIn = true ∨ startsWith command (cstr "SIGNUP") = true ∨
      startsWith command (cstr "LOGIN") = true) :
    (client.sendCommand command written).2 = command.take (written.getD 0) ∧
      (command ≠ [] → ((client.sendCommand command written).1 = true ↔
        (client.sendCommand command written).2 = command)) := by
  unfold ClientState.sendCommand
  rw [if_neg ?_]
  · cases written with
    | none => exact ⟨rfl, fun hne => iff_of_false Bool.false_ne_true fun heq => hne heq.symm⟩
    | some n =>
      refine ⟨rfl, fun _ => ?_⟩
      rw [decide_eq_true_eq]
      refine ⟨fun hlen => (List.take_prefix n command).eq_of_length hlen, fun heq => ?_⟩
      exact congrArg List.length heq
  · rcases h with h | h | h
    · simp [h]
    · simp [h]
    · simp [h]

theorem sendCommand_closed (hout : client.loggedIn = false) (h : startsWith command keyword = true)
    (hsignup : ¬ keyword <+: cstr "SIGNUP" ∧ ¬ cstr "SIGNUP" <+: keyword)
    (hlogin : ¬ keyword <+: cstr "LOGIN" ∧ ¬ cstr "LOGIN" <+: keyword) :
    client.sendCommand command written = (false, []) := by
  unfold ClientState.sendCommand
  rw [if_pos]
  rw [hout, startsWith_exclusive h _ hsignup, startsWith_exclusive h _ hlogin]
  rfl

theorem sent_under_account (hkeeps : client.Keeps account) (written : Option Nat)
    (command : CString → CString)
    (h : startsWith (command client.username) keyword = true)
    (hsignup : ¬ keyword <+: cstr "SIGNUP" ∧ ¬ cstr "SIGNUP" <+: keyword)
    (hlogin : ¬ keyword <+: cstr "LOGIN" ∧ ¬ cstr "LOGIN" <+: keyword) :
    (client.sendCommand (command client.username) written).2 =
      ((account.map fun name => command (strncpyZ 64 name)).getD []).take (written.getD 0) := by
  cases haccount : account with
  | none =>
    have hout : client.loggedIn = false := by rw [hkeeps.loggedIn, haccount, Option.isSome_none]
    rw [sendCommand_closed hout h hsignup hlogin]
    exact List.take_nil.symm
  | some name =>
    have hin : client.loggedIn = true := by rw [hkeeps.loggedIn, haccount, Option.isSome_some]
    rw [hkeeps.username name haccount, Option.map_some, Option.getD_some]
    exact (sendCommand_of_open (Or.inl hin)).1

theorem signIn_sent (username : CString) :
    (client.signIn username command around).2 = (client.sendCommand command around.written).2 := by
  unfold ClientState.signIn
  dsimp only
  split
  · rfl
  · rfl

theorem signIn_client (username : CString) (h : startsWith command (cstr "SIGNUP") = true ∨
      startsWith command (cstr "LOGIN") = true) (hne : command ≠ []) :
    (client.signIn username command around).1 =
      if (client.signIn username command around).2 = command ∧ around.answersOk = true then
        ⟨strncpyZ 64 username, true⟩
      else client := by
  have hwhole : (client.sendCommand command around.written).1 = true ↔
      (client.sendCommand command around.written).2 = command :=
    (sendCommand_of_open (Or.inr h)).2 hne
  rw [signIn_sent]
  unfold ClientState.signIn
  dsimp only
  by_cases hok : (client.sendCommand command around.written).2 = command ∧ around.answersOk = true
  · rw [if_pos hok, if_pos]
    rw [hwhole.mpr hok.1, hok.2]
    rfl
  · rw [if_neg hok, if_neg]
    rw [Bool.and_eq_true, hwhole]
    exact hok

end Gate

section Commands

theorem signup_starts (username password priority : CString) :
    startsWith (ClientProgram.signup username password priority) (cstr "SIGNUP") = true := by
  unfold ClientProgram.signup
  split
  · exact startsWith_snprintf (by decide) (startsWith_text (cstr "SIGNUP") _)
  · exact startsWith_snprintf (by decide) (startsWith_text (cstr "SIGNUP") _)

theorem login_starts (username password : CString) :
    startsWith (ClientProgram.login username password) (cstr "LOGIN") = true :=
  startsWith_snprintf (by decide) (startsWith_text (cstr "LOGIN") _)

theorem uploadFile_starts (username filename : CString) (totalSize : Nat) (now : Int) :
    startsWith (ClientProgram.uploadFile username filename totalSize now) (cstr "UPLOAD") = true :=
  startsWith_snprintf (by decide) (startsWith_text (cstr "UPLOAD") _)

theorem downloadFile_starts (username filename : CString) :
    startsWith (ClientProgram.downloadFile username filename) (cstr "DOWNLOAD") = true :=
  startsWith_snprintf (by decide) (startsWith_text (cstr "DOWNLOAD") _)

theorem deleteFile_starts (username filename : CString) :
    startsWith (ClientProgram.deleteFile username filename) (cstr "DELETE") = true :=
  startsWith_snprintf (by decide) (startsWith_text (cstr "DELETE") _)

theorem listFiles_starts (username : CString) :
    startsWith (ClientProgram.listFiles username) (cstr "LIST") = true :=
  startsWith_snprintf (by decide) (startsWith_text (cstr "LIST") _)

theorem ne_nil_of_starts {command keyword : CString} (h : startsWith command keyword = true)
    (hne : keyword ≠ []) : command ≠ [] := by
  rw [startsWith_iff] at h
  exact h.ne_nil hne

end Commands

section Session
variable {client : ClientState} {account : Option CString} {call : Dispatched} {around : Surroundings}

theorem call_sent (hkeeps : client.Keeps account) :
    (client.call call around).2 =
      ((request account call around.copied).getD []).take (around.written.getD 0) := by
  cases call with
  | signup username password priority =>
    have hstarts := signup_starts username password priority
    exact (signIn_sent username).trans (sendCommand_of_open (Or.inr (Or.inl hstarts))).1
  | login username password =>
    have hstarts := login_starts username password
    exact (signIn_sent username).trans (sendCommand_of_open (Or.inr (Or.inr hstarts))).1
  | upload filename =>
    simp only [ClientState.call, ClientState.uploadFile, request]
    cases around.copied with
    | none =>
      cases account with
      | none => exact List.take_nil.symm
      | some name => exact List.take_nil.symm
    | some copy =>
      have hsent := sent_under_account hkeeps around.written
        (fun name => ClientProgram.uploadFile name filename copy.1.toNat copy.2)
        (uploadFile_starts _ _ _ _) (by decide) (by decide)
      rw [Option.map_eq_bind] at hsent
      exact hsent
  | download filename =>
    exact sent_under_account hkeeps around.written (fun name => ClientProgram.downloadFile name filename)
      (downloadFile_starts _ _) (by decide) (by decide)
  | delete filename =>
    exact sent_under_account hkeeps around.written (fun name => ClientProgram.deleteFile name filename)
      (deleteFile_starts _ _) (by decide) (by decide)
  | list =>
    exact sent_under_account hkeeps around.written ClientProgram.listFiles (listFiles_starts _)
      (by decide) (by decide)
  | quit =>
    exact sent_under_account hkeeps around.written (fun _ => cstr "QUIT\n")
      (startsWith_text (cstr "QUIT") (cstr "\n")) (by decide) (by decide)

theorem keeps_signIn (hkeeps : client.Keeps account) (username : CString) {command : CString}
    (h : startsWith command (cstr "SIGNUP") = true ∨ startsWith command (cstr "LOGIN") = true)
    (hne : command ≠ []) :
    (client.signIn username command around).1.Keeps
      ((if some (client.signIn username command around).2 = some command ∧ around.answersOk = true then
        some username else none).or account) := by
  rw [signIn_client username h hne]
  simp only [Option.some_inj]
  split
  · refine ⟨rfl, fun name hname => ?_⟩
    rw [Option.some_or] at hname
    rw [Option.some_inj.mp hname]
  · exact hkeeps

theorem call_keeps (hkeeps : client.Keeps account) :
    (client.call call around).1.Keeps
      ((Exchange.mk call around (client.call call around).2).signedIn.or account) := by
  cases call with
  | signup username password priority =>
    have hstarts := signup_starts username password priority
    exact keeps_signIn hkeeps username (Or.inl hstarts) (ne_nil_of_starts hstarts (by decide))
  | login username password =>
    have hstarts := login_starts username password
    exact keeps_signIn hkeeps username (Or.inr hstarts) (ne_nil_of_starts hstarts (by decide))
  | upload filename => exact hkeeps
  | download filename => exact hkeeps
  | delete filename => exact hkeeps
  | list => exact hkeeps
  | quit => exact hkeeps

theorem clientLoop_sent {b : InputBuffers} {rounds : List (List Byte × Surroundings)}
    {before after : List Exchange} {x : Exchange} (hkeeps : client.Keeps account)
    (h : clientLoop b client rounds = before ++ x :: after) :
    x.sent = ((request (accountAfter account before) x.call x.around.copied).getD []).take
        (x.around.written.getD 0) ∧
      (x.call = .quit → after = []) := by
  induction rounds generalizing b client account before with
  | nil => simp [clientLoop] at h
  | cons round rounds ih =>
    obtain ⟨stored, around⟩ := round
    rw [clientLoop] at h
    cases hround : inputRound b stored with
    | mk b' dispatched =>
      rw [hround] at h
      cases dispatched with
      | none => exact ih hkeeps h
      | some call =>
        dsimp only at h
        cases before with
        | nil =>
          obtain ⟨rfl, hafter⟩ := List.cons.inj h
          refine ⟨call_sent hkeeps, fun hquit => ?_⟩
          rw [if_pos hquit] at hafter
          exact hafter.symm
        | cons first before =>
          obtain ⟨rfl, hrest⟩ := List.cons.inj h
          split at hrest
          · simp at hrest
          · have hsent := ih (call_keeps hkeeps) hrest
            exact hsent

/-- Whatever the user types and the connection does, each call sends just what the account that
was accepted last may ask for, as far as `write` takes it, and nothing follows QUIT. -/
theorem session_sends_requests (b : InputBuffers) (stdin : List Byte) (around : Nat → Surroundings)
    (before after : List Exchange) (x : Exchange)
    (h : clientSession b stdin around = before ++ x :: after) :
    x.sent = ((request (accountAfter none before) x.call x.around.copied).getD []).take
        (x.around.written.getD 0) ∧
      (x.call = .quit → after = []) := by
  have hstart : ClientState.Keeps ⟨[], false⟩ none := ⟨rfl, fun name hname => nomatch hname⟩
  exact clientLoop_sent hstart h

/-- The server takes every command whole and answers `OK`. -/
def obliging : Surroundings := ⟨none, some 512, some (cstr "OK\n")⟩

theorem bob_lists_after_signup :
    clientSession noInput (cstr "list\nsignup bob pw\nlist\nquit\n") (fun _ => obliging) =
      [⟨.list, obliging, []⟩,
        ⟨.signup (cstr "bob") (cstr "pw") (cstr "NORMAL"), obliging, cstr "SIGNUP bob pw NORMAL\n"⟩] ++
      ⟨.list, obliging, cstr "LIST bob\n"⟩ :: [⟨.quit, obliging, cstr "QUIT\n"⟩] ∧
    cstr "LIST bob\n" = ((request (accountAfter none
      [⟨.list, obliging, []⟩,
        ⟨.signup (cstr "bob") (cstr "pw") (cstr "NORMAL"), obliging, cstr "SIGNUP bob pw NORMAL\n"⟩])
      .list none).getD []).take 512 :=
  ⟨by decide +kernel, (session_sends_requests noInput (cstr "list\nsignup bob pw\nlist\nquit\n")
    (fun _ => obliging) _ [⟨.quit, obliging, cstr "QUIT\n"⟩] ⟨.list, obliging, cstr "LIST bob\n"⟩
    (by decide +kernel)).1⟩

end Session

end FileServer.ClientProgram
