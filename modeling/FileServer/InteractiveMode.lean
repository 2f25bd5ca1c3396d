import FileServer.ClientProgram
import FileServer.Shared.Fgets

/-!
# The input loop of the client (interactive_mode in client_program.c)

The arrays for the command and its arguments outlive a line. Every branch asks how many
fields were read before it looks at an argument, but none asks whether the command itself
was read: a line of blanks acts on the command word that an earlier line has left.
-/

namespace FileServer.ClientProgram

open Lines Fgets
set_option autoImplicit false

structure InputBuffers where
  command : CString
  arg1 : CString
  arg2 : CString
  arg3 : CString
  deriving DecidableEq, Repr

/-- `sscanf(input, "%63s %255s %255s %255s", command, arg1, arg2, arg3)` and its result. -/
def scanInput (b : InputBuffers) (input : CString) : InputBuffers × Int :=
  match scanString 63 input with
  | none => (b, -1)
  | some (command, rest) =>
    match scanString 255 rest with
    | none => ({ b with command }, 1)
    | some (arg1, rest) =>
      match scanString 255 rest with
      | none => ({ b with command, arg1 }, 2)
      | some (arg2, rest) =>
        match scanString 255 rest with
        | none => ({ b with command, arg1, arg2 }, 3)
        | some (arg3, _) => (⟨command, arg1, arg2, arg3⟩, 4)

inductive Dispatched where
  | signup (username password priority : CString)
  | login (username password : CString)
  | upload (filename : CString)
  | download (filename : CString)
  | delete (filename : CString)
  | list
  | quit
  deriving DecidableEq, Repr

def dispatchInput (b : InputBuffers) (parsed : Int) : Option Dispatched :=
  if b.command = cstr "quit" then some .quit
  else if b.command = cstr "signup" then
    if parsed < 3 then none
    else some (.signup b.arg1 b.arg2 (if parsed ≥ 4 then b.arg3 else cstr "NORMAL"))
  else if b.command = cstr "login" then
    if parsed < 3 then none else some (.login b.arg1 b.arg2)
  else if b.command = cstr "upload" then if parsed < 2 then none else some (.upload b.arg1)
  else if b.command = cstr "download" then if parsed < 2 then none else some (.download b.arg1)
  else if b.command = cstr "delete" then if parsed < 2 then none else some (.delete b.arg1)
  else if b.command = cstr "list" then some .list
  else none

def inputText (stored : List Byte) : CString := (cString stored).takeWhile fun c => c ≠ 10

def inputRound (b : InputBuffers) (stored : List Byte) : InputBuffers × Option Dispatched :=
  if inputText stored = [] then (b, none)
  else
    ((scanInput b (inputText stored)).1,
      dispatchInput (scanInput b (inputText stored)).1 (scanInput b (inputText stored)).2)

def inputLoop (b : InputBuffers) : List (List Byte) → List (Option Dispatched)
  | [] => []
  | stored :: more =>
    (inputRound b stored).2 ::
      if (inputRound b stored).2 = some .quit then [] else inputLoop (inputRound b stored).1 more

/-- The loop on the bytes of `stdin`, read into `char input[512]`. -/
def interactiveSession (b : InputBuffers) (stdin : List Byte) : List (Option Dispatched) :=
  inputLoop b (readAll 10 511 stdin)

def buffersAfter (b : InputBuffers) (stored : List (List Byte)) : InputBuffers :=
  stored.foldl (fun b s => (inputRound b s).1) b

def lineDispatches (b : InputBuffers) (line : List Byte) : List (Option Dispatched) :=
  inputLoop b (pieces 10 511 line)

/-- What is dispatched for each line up to the one that quits. -/
def dispatchedLines (b : InputBuffers) : List (List Byte) → List (List (Option Dispatched))
  | [] => []
  | line :: lines =>
    lineDispatches b line ::
      if some .quit ∈ lineDispatches b line then []
      else dispatchedLines (buffersAfter b (pieces 10 511 line)) lines

def noInput : InputBuffers := ⟨[], [], [], []⟩

def ownDispatches (line : List Byte) : List (Option Dispatched) := lineDispatches noInput line

def ownLines : List (List Byte) → List (List (Option Dispatched))
  | [] => []
  | line :: lines =>
    ownDispatches line :: if some .quit ∈ ownDispatches line then [] else ownLines lines

/-- The first string of a line that is not empty has nothing but whitespace. -/
def OpensBlank : List (List Byte) → Prop
  | [] => False
  | stored :: more =>
    if inputText stored = [] then OpensBlank more else scanString 63 (inputText stored) = none

def commandAfter (command : CString) (line : List Byte) : CString :=
  (buffersAfter { noInput with command } (pieces 10 511 line)).command

/-- No line that opens with blanks comes when `list` or `quit` is the command word left. -/
def NoStaleCommand : CString → List (List Byte) → Prop
  | _, [] => True
  | command, line :: lines =>
    (OpensBlank (pieces 10 511 line) → command ≠ cstr "list" ∧ command ≠ cstr "quit") ∧
      (some .quit ∈ ownDispatches line ∨ NoStaleCommand (commandAfter command line) lines)

section Rounds
variable {b b' : InputBuffers} {stored : List Byte}

/-- Without a word in the input the buffers stay, and with one they no longer matter. -/
theorem scanInput_cases (input : CString) :
    (scanString 63 input = none ∧ ∀ b, scanInput b input = (b, -1)) ∨
    ∃ command parsed d, scanString 63 input ≠ none ∧ ∀ b,
      (scanInput b input).1.command = command ∧ (scanInput b input).2 = parsed ∧
        dispatchInput (scanInput b input).1 parsed = d := by
  cases h : scanString 63 input with
  | none => exact Or.inl ⟨rfl, fun b => by rw [scanInput, h]⟩
  | some found =>
    obtain ⟨command, rest⟩ := found
    refine Or.inr ?_
    cases h₁ : scanString 255 rest with
    | none =>
      refine ⟨command, 1, dispatchInput ⟨command, [], [], []⟩ 1, by simp, fun b => ?_⟩
      simp [scanInput, h, h₁, dispatchInput]
    | some found₁ =>
      obtain ⟨arg1, rest₁⟩ := found₁
      cases h₂ : scanString 255 rest₁ with
      | none =>
        refine ⟨command, 2, dispatchInput ⟨command, arg1, [], []⟩ 2, by simp, fun b => ?_⟩
        simp [scanInput, h, h₁, h₂, dispatchInput]
      | some found₂ =>
        obtain ⟨arg2, rest₂⟩ := found₂
        cases h₃ : scanString 255 rest₂ with
        | none =>
          refine ⟨command, 3, dispatchInput ⟨command, arg1, arg2, []⟩ 3, by simp, fun b => ?_⟩
          simp [scanInput, h, h₁, h₂, h₃, dispatchInput]
        | some found₃ =>
          refine ⟨command, 4, dispatchInput ⟨command, arg1, arg2, found₃.1⟩ 4, by simp, fun b => ?_⟩
          simp [scanInput, h, h₁, h₂, h₃]

theorem inputRound_cases (stored : List Byte) :
    (inputText stored = [] ∧ ∀ b, inputRound b stored = (b, none)) ∨
    (inputText stored ≠ [] ∧ scanString 63 (inputText stored) = none ∧
      ∀ b, inputRound b stored = (b, dispatchInput b (-1))) ∨
    (inputText stored ≠ [] ∧ scanString 63 (inputText stored) ≠ none ∧
      ∃ command d, ∀ b, (inputRound b stored).1.command = command ∧ (inputRound b stored).2 = d) := by
  by_cases hempty : inputText stored = []
  · exact Or.inl ⟨hempty, fun b => by rw [inputRound, if_pos hempty]⟩
  rcases scanInput_cases (inputText stored) with ⟨hnone, hscan⟩ | ⟨command, parsed, d, hsome, hscan⟩
  · refine Or.inr (Or.inl ⟨hempty, hnone, fun b => ?_⟩)
    rw [inputRound, if_neg hempty, hscan b]
  · refine Or.inr (Or.inr ⟨hempty, hsome, command, d, fun b => ?_⟩)
    obtain ⟨hcommand, hparsed, hd⟩ := hscan b
    rw [inputRound, if_neg hempty, hparsed]
    exact ⟨hcommand, hd⟩

theorem dispatchInput_blank (b : InputBuffers) :
    dispatchInput b (-1) =
      if b.command = cstr "quit" then some .quit
      else if b.command = cstr "list" then some .list
      else none := by
  unfold dispatchInput
  by_cases hquit : b.command = cstr "quit"
  · rw [if_pos hquit, if_pos hquit]
  rw [if_neg hquit, if_neg hquit]
  by_cases hlist : b.command = cstr "list"
  · obtain ⟨command, arg1, arg2, arg3⟩ := b
    obtain rfl : command = cstr "list" := hlist
    rfl
  · rw [if_neg hlist]
    simp

theorem inputRound_congr (h : b.command = b'.command) (stored : List Byte) :
    (inputRound b stored).1.command = (inputRound b' stored).1.command ∧
      (inputRound b stored).2 = (inputRound b' stored).2 := by
  rcases inputRound_cases stored with ⟨-, hround⟩ | ⟨-, -, hround⟩ | ⟨-, -, command, d, hround⟩
  · rw [hround b, hround b']
    exact ⟨h, rfl⟩
  · rw [hround b, hround b']
    exact ⟨h, by rw [dispatchInput_blank, dispatchInput_blank, h]⟩
  · exact ⟨(hround b).1.trans (hround b').1.symm, (hround b).2.trans (hround b').2.symm⟩

end Rounds

section Loop
variable {b b' : InputBuffers}

theorem inputLoop_congr (h : b.command = b'.command) (stored : List (List Byte)) :
    inputLoop b stored = inputLoop b' stored ∧
      (buffersAfter b stored).command = (buffersAfter b' stored).command := by
  induction stored generalizing b b' with
  | nil => exact ⟨rfl, h⟩
  | cons s more ih =>
    obtain ⟨hcommand, hd⟩ := inputRound_congr h s
    obtain ⟨hloop, hafter⟩ := ih hcommand
    refine ⟨?_, hafter⟩
    rw [inputLoop, inputLoop, hd, hloop]

theorem inputLoop_quiet (hlist : b.command ≠ cstr "list") (hquit : b.command ≠ cstr "quit")
    (stored : List (List Byte)) : inputLoop b stored = inputLoop noInput stored := by
  induction stored with
  | nil => rfl
  | cons s more ih =>
    rw [inputLoop, inputLoop]
    rcases inputRound_cases s with ⟨-, hround⟩ | ⟨-, -, hround⟩ | ⟨-, -, command, d, hround⟩
    · rw [hround b, hround noInput, ih]
    · have hnone : dispatchInput b (-1) = dispatchInput noInput (-1) := by
        rw [dispatchInput_blank, if_neg hquit, if_neg hlist]
        decide
      rw [hround b, hround noInput, hnone, ih]
    · obtain ⟨hcommand, hd⟩ := hround b
      obtain ⟨hcommand', hd'⟩ := hround noInput
      rw [hd, hd', (inputLoop_congr (hcommand.trans hcommand'.symm) more).1]

theorem inputLoop_word {stored : List (List Byte)} (h : ¬ OpensBlank stored) :
    inputLoop b stored = inputLoop noInput stored := by
  induction stored with
  | nil => rfl
  | cons s more ih =>
    rw [OpensBlank] at h
    rw [inputLoop, inputLoop]
    rcases inputRound_cases s with ⟨hempty, hround⟩ | ⟨hne, hnone, hround⟩ | ⟨hne, -, command, d, hround⟩
    · rw [if_pos hempty] at h
      rw [hround b, hround noInput, ih h]
    · rw [if_neg hne] at h
      exact absurd hnone h
    · obtain ⟨hcommand, hd⟩ := hround b
      obtain ⟨hcommand', hd'⟩ := hround noInput
      rw [hd, hd', (inputLoop_congr (hcommand.trans hcommand'.symm) more).1]

theorem inputLoop_blank {stored : List (List Byte)} (hblank : OpensBlank stored)
    (h : inputLoop b stored = inputLoop noInput stored) :
    b.command ≠ cstr "list" ∧ b.command ≠ cstr "quit" := by
  induction stored with
  | nil => exact absurd hblank id
  | cons s more ih =>
    rw [OpensBlank] at hblank
    rw [inputLoop, inputLoop] at h
    rcases inputRound_cases s with ⟨hempty, hround⟩ | ⟨-, -, hround⟩ | ⟨hne, hsome, -⟩
    · rw [if_pos hempty] at hblank
      rw [hround b, hround noInput] at h
      exact ih hblank (List.cons.inj h).2
    · have hhead : (inputRound b s).2 = (inputRound noInput s).2 := (List.cons.inj h).1
      have hown : dispatchInput noInput (-1) = none := by decide
      rw [hround b, hround noInput, hown] at hhead
      change dispatchInput b (-1) = none at hhead
      rw [dispatchInput_blank] at hhead
      constructor
      · intro hlist
        rw [hlist, if_neg (by decide), if_pos rfl] at hhead
        contradiction
      · intro hquit
        simp [hquit] at hhead
    · rw [if_neg hne] at hblank
      exact absurd hblank hsome

theorem lineDispatches_iff (line : List Byte) :
    lineDispatches b line = ownDispatches line ↔
      (OpensBlank (pieces 10 511 line) → b.command ≠ cstr "list" ∧ b.command ≠ cstr "quit") := by
  constructor
  · intro h hblank
    exact inputLoop_blank hblank h
  · intro h
    by_cases hblank : OpensBlank (pieces 10 511 line)
    · exact inputLoop_quiet (h hblank).1 (h hblank).2 _
    · exact inputLoop_word hblank

theorem inputLoop_append (b : InputBuffers) (stored more : List (List Byte)) :
    inputLoop b (stored ++ more) =
      inputLoop b stored ++
        if some .quit ∈ inputLoop b stored then [] else inputLoop (buffersAfter b stored) more := by
  induction stored generalizing b with
  | nil => simp [inputLoop, buffersAfter]
  | cons s stored ih =>
    rw [List.cons_append, inputLoop, inputLoop]
    by_cases hquit : (inputRound b s).2 = some .quit
    · simp [hquit]
    · have hne : ¬ some .quit = (inputRound b s).2 := fun heq => hquit heq.symm
      rw [if_neg hquit, if_neg hquit, ih, List.cons_append]
      simp only [List.mem_cons, hne, false_or]
      rfl

theorem dispatchedLines_flatten {lines : List (List Byte)} (h : ∀ line ∈ lines, 10 ∉ line)
    (b : InputBuffers) :
    (dispatchedLines b lines).flatten = interactiveSession b (joined 10 lines) := by
  rw [interactiveSession, readAll_joined (by decide) h]
  induction lines generalizing b with
  | nil => rfl
  | cons line lines ih =>
    have hlines : ∀ l ∈ lines, 10 ∉ l := fun l hl => h l (List.mem_cons_of_mem _ hl)
    rw [List.flatMap_cons, inputLoop_append, dispatchedLines, List.flatten_cons, ← ih hlines]
    unfold lineDispatches
    split <;> rfl

theorem dispatchedLines_iff (b : InputBuffers) (lines : List (List Byte)) :
    dispatchedLines b lines = ownLines lines ↔ NoStaleCommand b.command lines := by
  induction lines generalizing b with
  | nil => exact iff_of_true rfl trivial
  | cons line lines ih =>
    have hafter : (buffersAfter b (pieces 10 511 line)).command = commandAfter b.command line := by
      refine (inputLoop_congr ?_ (pieces 10 511 line)).2
      rfl
    rw [dispatchedLines, ownLines, List.cons.injEq, NoStaleCommand, ← lineDispatches_iff, ← hafter]
    refine and_congr_right fun hline => ?_
    rw [hline]
    by_cases hquit : some .quit ∈ ownDispatches line
    · simp [hquit]
    · rw [if_neg hquit, if_neg hquit, ih]
      simp [hquit]

/-- What the lines of `stdin` dispatch, and exactly when each dispatches only what it says. -/
theorem input_independent_iff (b : InputBuffers) (lines : List (List Byte))
    (hlines : ∀ line ∈ lines, 10 ∉ line) :
    (dispatchedLines b lines).flatten = interactiveSession b (joined 10 lines) ∧
      (dispatchedLines b lines = ownLines lines ↔ NoStaleCommand b.command lines) :=
  ⟨dispatchedLines_flatten hlines b, dispatchedLines_iff b lines⟩

theorem list_then_delete_independent :
    (∀ line ∈ [cstr "list", cstr "delete"], 10 ∉ line) ∧
    (dispatchedLines noInput [cstr "list", cstr "delete"]).flatten =
      interactiveSession noInput (joined 10 [cstr "list", cstr "delete"]) ∧
    (dispatchedLines noInput [cstr "list", cstr "delete"] = ownLines [cstr "list", cstr "delete"] ↔
      NoStaleCommand noInput.command [cstr "list", cstr "delete"]) :=
  ⟨by decide, input_independent_iff noInput [cstr "list", cstr "delete"] (by decide)⟩

theorem blank_after_list_lists :
    dispatchedLines noInput [cstr "list", cstr " "] = [[some .list], [some .list]] ∧
      dispatchedLines noInput [cstr "delete", cstr " "] = [[none], [none]] ∧
      ownLines [cstr "list", cstr " "] = [[some .list], [none]] := by
  decide +kernel

end Loop

/-! The calls of the branches are those that `interactiveMode` hands to the server. -/

def ClientCall.dispatched : ClientCall → Dispatched
  | .signup username password priority =>
    .signup username.text password.text (priorityArgument priority)
  | .login username password => .login username.text password.text
  | .upload _ filename _ _ => .upload filename.text
  | .download _ filename => .download filename.text
  | .delete _ filename => .delete filename.text
  | .list _ => .list

section Calls
variable {b : InputBuffers} {parsed : Int} {account : Option Token} {copied : Option (UInt64 × Int)}
variable {arg1 arg2 arg3 : Option Token} {call : ClientCall}

theorem dispatch_dispatched {command : CString} (hcommand : b.command = command)
    (h₁ : ∀ t, arg1 = some t → 2 ≤ parsed ∧ b.arg1 = t.text)
    (h₂ : ∀ t, arg2 = some t → 3 ≤ parsed ∧ b.arg2 = t.text)
    (h₃ : (if 4 ≤ parsed then b.arg3 else cstr "NORMAL") = priorityArgument arg3)
    (h : dispatch account copied command arg1 arg2 arg3 = some call) :
    dispatchInput b parsed = some call.dispatched := by
  subst hcommand
  unfold dispatch at h
  unfold dispatchInput
  split at h
  · contradiction
  rename_i hquit
  rw [if_neg hquit]
  split at h
  · rename_i hsignup
    obtain ⟨username, husername, h⟩ := Option.bind_eq_some_iff.mp h
    obtain ⟨password, hpassword, rfl⟩ := Option.map_eq_some_iff.mp h
    obtain ⟨-, harg1⟩ := h₁ username husername
    obtain ⟨hread, harg2⟩ := h₂ password hpassword
    rw [if_pos hsignup, if_neg (Int.not_lt.mpr hread), harg1, harg2]
    exact congrArg (fun priority => some (Dispatched.signup _ _ priority)) h₃
  rename_i hsignup
  rw [if_neg hsignup]
  split at h
  · rename_i hlogin
    obtain ⟨username, husername, h⟩ := Option.bind_eq_some_iff.mp h
    obtain ⟨password, hpassword, rfl⟩ := Option.map_eq_some_iff.mp h
    obtain ⟨-, harg1⟩ := h₁ username husername
    obtain ⟨hread, harg2⟩ := h₂ password hpassword
    rw [if_pos hlogin, if_neg (Int.not_lt.mpr hread), harg1, harg2]
    rfl
  rename_i hlogin
  rw [if_neg hlogin]
  obtain ⟨user, -, h⟩ := Option.bind_eq_some_iff.mp h
  split at h
  · rename_i hupload
    obtain ⟨filename, hfilename, h⟩ := Option.bind_eq_some_iff.mp h
    obtain ⟨copy, -, rfl⟩ := Option.map_eq_some_iff.mp h
    obtain ⟨hread, harg1⟩ := h₁ filename hfilename
    rw [if_pos hupload, if_neg (Int.not_lt.mpr hread), harg1]
    rfl
  rename_i hupload
  rw [if_neg hupload]
  split at h
  · rename_i hdownload
    obtain ⟨filename, hfilename, rfl⟩ := Option.map_eq_some_iff.mp h
    obtain ⟨hread, harg1⟩ := h₁ filename hfilename
    rw [if_pos hdownload, if_neg (Int.not_lt.mpr hread), harg1]
    rfl
  rename_i hdownload
  rw [if_neg hdownload]
  split at h
  · rename_i hdelete
    obtain ⟨filename, hfilename, rfl⟩ := Option.map_eq_some_iff.mp h
    obtain ⟨hread, harg1⟩ := h₁ filename hfilename
    rw [if_pos hdelete, if_neg (Int.not_lt.mpr hread), harg1]
    rfl
  rename_i hdelete
  rw [if_neg hdelete]
  split at h
  · rename_i hlist
    obtain rfl := Option.some.inj h
    rw [if_pos hlist]
    rfl
  · contradiction

theorem scanToken_cases (s : Text) :
    (scanToken s = none ∧ scanString 255 s.val = none) ∨
    ∃ token rest, scanToken s = some (token, rest) ∧
      scanString 255 s.val = some (token.text, rest.val) := by
  unfold scanToken
  split
  · rename_i hnone
    exact Or.inl ⟨rfl, hnone⟩
  · rename_i word rest hsome
    exact Or.inr ⟨_, _, rfl, hsome⟩

/-- What is sent for an input line is what its round dispatches. -/
theorem interactiveMode_dispatches (b : InputBuffers) (input : Text) :
    (interactiveMode account copied b.command input).1 = (scanInput b input.val).1.command ∧
    ((interactiveMode account copied b.command input).2 = some call →
      dispatchInput (scanInput b input.val).1 (scanInput b input.val).2 = some call.dispatched) := by
  unfold interactiveMode
  split
  · rename_i hnone
    have hscan : scanInput b input.val = (b, -1) := by rw [scanInput, hnone]
    rw [hscan]
    exact ⟨rfl, dispatch_dispatched rfl (by simp) (by simp) rfl⟩
  rename_i word rest hsome
  rcases scanToken_cases ⟨rest, (zero_not_mem_scanned input.property hsome).2⟩ with
    ⟨htoken₁, hstring₁⟩ | ⟨token₁, rest₁, htoken₁, hstring₁⟩
  · have hscan : scanInput b input.val = ({ b with command := word }, 1) := by
      simp only [scanInput, hsome, hstring₁]
    rw [hscan]
    simp only [htoken₁, Option.bind_none, Option.map_none]
    refine ⟨trivial, dispatch_dispatched rfl ?_ ?_ rfl⟩
    · simp
    · simp
  rcases scanToken_cases rest₁ with ⟨htoken₂, hstring₂⟩ | ⟨token₂, rest₂, htoken₂, hstring₂⟩
  · have hscan : scanInput b input.val = ({ b with command := word, arg1 := token₁.text }, 2) := by
      simp only [scanInput, hsome, hstring₁, hstring₂]
    rw [hscan]
    simp only [htoken₁, htoken₂, Option.bind_none, Option.bind_some, Option.map_none, Option.map_some]
    refine ⟨trivial, dispatch_dispatched rfl ?_ ?_ rfl⟩
    · simp
    · simp
  rcases scanToken_cases rest₂ with ⟨htoken₃, hstring₃⟩ | ⟨token₃, rest₃, htoken₃, hstring₃⟩
  · have hscan : scanInput b input.val =
        ({ b with command := word, arg1 := token₁.text, arg2 := token₂.text }, 3) := by
      simp only [scanInput, hsome, hstring₁, hstring₂, hstring₃]
    rw [hscan]
    simp only [htoken₁, htoken₂, htoken₃, Option.bind_some, Option.map_none, Option.map_some]
    refine ⟨trivial, dispatch_dispatched rfl ?_ ?_ rfl⟩
    · simp
    · simp
  · have hscan : scanInput b input.val = (⟨word, token₁.text, token₂.text, token₃.text⟩, 4) := by
      simp only [scanInput, hsome, hstring₁, hstring₂, hstring₃]
    rw [hscan]
    simp only [htoken₁, htoken₂, htoken₃, Option.bind_some, Option.map_some]
    refine ⟨trivial, dispatch_dispatched rfl ?_ ?_ rfl⟩
    · simp
    · simp

end Calls

end FileServer.ClientProgram
