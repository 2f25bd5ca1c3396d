import FileServer.LineFraming
import FileServer.Workshop

/-!
# The documented protocol and the lines that are accepted

The README gives six commands, each a keyword and its arguments. The parser looks
at the keyword alone: what does not start with one of the six is dropped, and
everything else becomes a task, whether the keyword is followed by a blank or not
and however many arguments there are.
-/

namespace FileServer

open Runs
set_option autoImplicit false

inductive ProtocolCommand where
  | signup (user pass : CString) (priority : Option CString)
  | login (user pass : CString)
  | upload (user relpath size tmpfile : CString)
  | download (user relpath : CString)
  | delete (user relpath : CString)
  | list (user : CString)

namespace ProtocolCommand

def keyword : ProtocolCommand → CString
  | .signup _ _ _ => cstr "SIGNUP"
  | .login _ _ => cstr "LOGIN"
  | .upload _ _ _ _ => cstr "UPLOAD"
  | .download _ _ => cstr "DOWNLOAD"
  | .delete _ _ => cstr "DELETE"
  | .list _ => cstr "LIST"

def tokens : ProtocolCommand → List CString
  | .signup user pass priority => [user, pass] ++ priority.toList
  | .login user pass => [user, pass]
  | .upload user relpath size tmpfile => [user, relpath, size, tmpfile]
  | .download user relpath | .delete user relpath => [user, relpath]
  | .list user => [user]

end ProtocolCommand

def sizeOfToken (token : CString) : Nat := token.foldl (fun n d => 10 * n + (d.toNat - 48)) 0

/-- A size is written in decimal digits and fits a `size_t`. -/
def SizeToken (token : CString) : Prop :=
  (∀ c ∈ token, isDigit c = true) ∧ sizeOfToken token < 2 ^ 64

def priorityOfToken (token : CString) : Option TaskPriority :=
  if strcasecmpEq token (cstr "HIGH") then some .high
  else if strcasecmpEq token (cstr "NORMAL") then some .normal
  else if strcasecmpEq token (cstr "LOW") then some .low
  else none

namespace ProtocolCommand

/-- Every token fits the field of the task it is meant for. -/
def Fits : ProtocolCommand → Prop
  | .signup user pass priority =>
    user.length ≤ 63 ∧ pass.length ≤ 63 ∧ ∀ token ∈ priority, (priorityOfToken token).isSome = true
  | .login user pass => user.length ≤ 63 ∧ pass.length ≤ 63
  | .upload user relpath size tmpfile =>
    user.length ≤ 63 ∧ relpath.length ≤ 255 ∧ SizeToken size ∧ tmpfile.length ≤ 255
  | .download user relpath | .delete user relpath => user.length ≤ 63 ∧ relpath.length ≤ 255
  | .list user => user.length ≤ 63

def task (client : ClientInfo) (now : Timespec) : ProtocolCommand → Task
  | .signup user pass priority =>
    ⟨.signup, client, user, pass, [], [], 0, (priority.bind priorityOfToken).getD .normal, now⟩
  | .login user pass => ⟨.login, client, user, pass, [], [], 0, .high, now⟩
  | .upload user relpath size tmpfile =>
    ⟨.upload, client, user, [], relpath, tmpfile, sizeOfToken size, .normal, now⟩
  | .download user relpath => ⟨.download, client, user, [], relpath, [], 0, .normal, now⟩
  | .delete user relpath => ⟨.delete, client, user, [], relpath, [], 0, .high, now⟩
  | .list user => ⟨.list, client, user, [], [], [], 0, .low, now⟩

end ProtocolCommand

def Gap (s : CString) : Prop := ∀ c ∈ s, isSpace c = true

/-- The text is these words, each after whitespace. -/
def Spells : List CString → CString → Prop
  | [], text => Gap text
  | word :: words, text => ∃ gap rest, text = gap ++ (word ++ rest) ∧ gap ≠ [] ∧ Gap gap ∧
      word ≠ [] ∧ Plain word ∧ Spells words rest

/-- The line is the keyword of the command and exactly its arguments. -/
def Documented (line : CString) (command : ProtocolCommand) : Prop :=
  ∃ args, line = command.keyword ++ args ∧ Spells command.tokens args ∧ command.Fits

structure ShortLine extends SentLine where
  short : text.length ≤ 510

def pushedFor (client : ClientInfo) (env : LineEnv) (line : ShortLine) (buf : Buffer) : List Task :=
  (serve ⟨client, fun _ => env, streamOf [line.toSentLine]⟩ buf).1

/-- Workers take the pushed tasks and no others. -/
def FedBy {ω : Type} (tasks : List Task) (_ : Workshop Nat ω) : WorkLabel Nat → Prop
  | .take _ taking =>
    ∃ task ∈ tasks, parseCommand taking.client taking.created taking.line = .submit task
  | .move _ _ => True

/-- However the workers go on with these tasks, the user store and the files stay. -/
def Harmless (tasks : List Task) : Prop :=
  ∀ (ω : Type) (disk : Disk ω) (store : UserStore) (files : ω) (s : Workshop Nat ω),
    Reached (workStep disk) (FedBy tasks) (workStart store files) s →
      s.store = store ∧ s.files = files

/-- A task is pushed exactly for a documented line, with the fields it asks for, and
any other line has no effect. -/
structure MeetsGrammar (client : ClientInfo) (env : LineEnv) (line : ShortLine) (buf : Buffer) :
    Prop where
  accepts : pushedFor client env line buf ≠ [] ↔ ∃ command, Documented line.text command
  fields : ∀ command, Documented line.text command →
    pushedFor client env line buf = [command.task client env.now]
  rejects : (¬ ∃ command, Documented line.text command) → Harmless (pushedFor client env line buf)

/-- The line is documented or starts with none of the keywords; without memory for a
task it must not be documented. -/
def Regular (env : LineEnv) (line : CString) : Prop :=
  if env.allocates then
    (∃ command, Documented line command) ∨ ∀ keyword ∈ taskKeywords, ¬ keyword <+: line
  else ¬ ∃ command, Documented line command

section Words
variable {word text : CString} {words : List CString}

theorem Spells.head (h : Spells words text) : ∀ c, text.head? = some c → isSpace c = true := by
  intro c hc
  cases words with
  | nil => exact h c (List.mem_of_mem_head? hc)
  | cons word words =>
    obtain ⟨gap, rest, rfl, hne, hgap, _⟩ := h
    obtain ⟨b, bs, rfl⟩ := List.exists_cons_of_ne_nil hne
    obtain rfl := Option.some.inj hc
    exact hgap b List.mem_cons_self

theorem Spells.stringField {width : Nat} (h : Spells (word :: words) text)
    (hlen : word.length ≤ width) :
    ∃ rest, FileServer.stringField width (some text) = (word, some rest) ∧ Spells words rest := by
  obtain ⟨gap, rest, rfl, _, hgap, hword, hplain, hrest⟩ := h
  exact ⟨rest, stringField_between hgap hword hplain hlen hrest.head, hrest⟩

theorem Spells.stringField_nil (h : Spells [] text) (width : Nat) :
    FileServer.stringField width (some text) = ([], none) := by
  rw [stringField_eq, if_pos]
  rw [List.dropWhile_eq_nil_iff]
  exact h

theorem Spells.sizeField (h : Spells (word :: words) text) (hsize : SizeToken word) :
    ∃ rest, FileServer.sizeField (some text) = (sizeOfToken word, some rest) ∧ Spells words rest := by
  obtain ⟨gap, rest, rfl, _, hgap, hword, hplain, hrest⟩ := h
  exact ⟨rest, sizeField_between hgap hword hplain hsize.1 hsize.2 hrest.head, hrest⟩

end Words

section Parsing
variable {client : ClientInfo} {now : Timespec} {env : LineEnv} {line : CString}
  {command : ProtocolCommand}

theorem priorityToken_length {token : CString} (h : (priorityOfToken token).isSome = true) :
    token.length ≤ 15 := by
  have hname : ∃ name : CString, name.length ≤ 15 ∧ token.map toLower = name.map toLower := by
    unfold priorityOfToken strcasecmpEq at h
    simp only [decide_eq_true_eq] at h
    split at h
    · exact ⟨cstr "HIGH", by decide, by assumption⟩
    split at h
    · exact ⟨cstr "NORMAL", by decide, by assumption⟩
    split at h
    · exact ⟨cstr "LOW", by decide, by assumption⟩
    · contradiction
  obtain ⟨name, hlen, hsame⟩ := hname
  have hlength := congrArg List.length hsame
  rw [List.length_map, List.length_map] at hlength
  omega

theorem priorityOfToken_read {token : CString} (h : (priorityOfToken token).isSome = true) :
    priorityOfToken token = some (if strcasecmpEq token (cstr "HIGH") then .high
      else if strcasecmpEq token (cstr "LOW") then .low else .normal) := by
  unfold priorityOfToken at *
  by_cases hhigh : strcasecmpEq token (cstr "HIGH") = true
  · rw [if_pos hhigh, if_pos hhigh]
  rw [if_neg hhigh] at h ⊢
  rw [if_neg hhigh]
  by_cases hnormal : strcasecmpEq token (cstr "NORMAL") = true
  · have hlow : ¬ strcasecmpEq token (cstr "LOW") = true := by
      unfold strcasecmpEq at hnormal ⊢
      rw [decide_eq_true_eq] at hnormal
      rw [hnormal]
      decide
    rw [if_pos hnormal, if_neg hlow]
  rw [if_neg hnormal] at h ⊢
  split at h
  · rename_i hlow
    rw [if_pos hlow, if_pos hlow]
  · contradiction

theorem parseSignup_spelled {user pass args : CString} {priority : Option CString}
    (hspell : Spells (user :: pass :: priority.toList) args)
    (hfits : (ProtocolCommand.signup user pass priority).Fits) :
    parseSignup (blankTask client now) args =
      (ProtocolCommand.signup user pass priority).task client now := by
  obtain ⟨huser, hpass, hpriority⟩ := hfits
  obtain ⟨rest, hfirst, hspell⟩ := hspell.stringField huser
  obtain ⟨rest, hsecond, hspell⟩ := hspell.stringField hpass
  cases priority with
  | none =>
    simp only [parseSignup, hfirst, hsecond, hspell.stringField_nil]
    rfl
  | some token =>
    have hnamed := hpriority token rfl
    obtain ⟨rest, hthird, _⟩ := hspell.stringField (priorityToken_length hnamed)
    simp only [parseSignup, hfirst, hsecond, hthird, Option.isSome_some, if_true,
      ProtocolCommand.task, Option.bind_some, priorityOfToken_read hnamed, Option.getD_some]
    rfl

/-- A documented line is parsed as the command it spells. -/
theorem parse_documented (h : Documented line command) :
    parseCommand client now line = .submit (command.task client now) := by
  obtain ⟨args, rfl, hspell, hfits⟩ := h
  obtain ⟨hsignup, hlogin, hupload, hdownload, hdelete, hlist⟩ :=
    parseCommand_keyword client now args
  cases command with
  | signup user pass priority =>
    rw [ProtocolCommand.keyword, hsignup, parseSignup_spelled hspell hfits]
  | login user pass =>
    obtain ⟨rest, hfirst, hspell⟩ := hspell.stringField hfits.1
    obtain ⟨rest, hsecond, _⟩ := hspell.stringField hfits.2
    rw [ProtocolCommand.keyword, hlogin]
    simp only [parseLogin, hfirst, hsecond]
    rfl
  | upload user relpath size tmpfile =>
    obtain ⟨huser, hrelpath, hsize, htmpfile⟩ := hfits
    obtain ⟨rest, hfirst, hspell⟩ := hspell.stringField huser
    obtain ⟨rest, hsecond, hspell⟩ := hspell.stringField hrelpath
    obtain ⟨rest, hthird, hspell⟩ := hspell.sizeField hsize
    obtain ⟨rest, hfourth, _⟩ := hspell.stringField htmpfile
    rw [ProtocolCommand.keyword, hupload]
    simp only [parseUpload, hfirst, hsecond, hthird, hfourth]
    rfl
  | download user relpath =>
    obtain ⟨rest, hfirst, hspell⟩ := hspell.stringField hfits.1
    obtain ⟨rest, hsecond, _⟩ := hspell.stringField hfits.2
    rw [ProtocolCommand.keyword, hdownload]
    simp only [parseUserPath, hfirst, hsecond]
    rfl
  | delete user relpath =>
    obtain ⟨rest, hfirst, hspell⟩ := hspell.stringField hfits.1
    obtain ⟨rest, hsecond, _⟩ := hspell.stringField hfits.2
    rw [ProtocolCommand.keyword, hdelete]
    simp only [parseUserPath, hfirst, hsecond]
    rfl
  | list user =>
    obtain ⟨rest, hfirst, _⟩ := hspell.stringField hfits
    rw [ProtocolCommand.keyword, hlist]
    simp only [parseList, hfirst]
    rfl

theorem pushedFor_eq (client : ClientInfo) (env : LineEnv) (line : ShortLine) (buf : Buffer) :
    pushedFor client env line buf = (handle client env line.text).task?.toList := by
  have hstream : streamOf [line.toSentLine] = line.text ++ 10 :: [] := by
    rw [streamOf_cons]
    rfl
  have hframe : frame (line.text ++ 10 :: []) = ⟨line.text, true, []⟩ :=
    frame_line line.unbroken.1 line.short []
  have hrest : (frame ([] : List Byte)).text = [] := by simp [frame, frameFrom]
  unfold pushedFor serve
  dsimp only
  rw [hstream]
  by_cases hempty : line.text = []
  · rw [serveFrom_empty (by rw [hframe, hempty]), hempty, handle_nil]
    rfl
  · rw [serveFrom_ended (by rw [hframe]; exact hempty) (by rw [hframe]), lineTasks_handle, hframe,
      serveFrom_empty hrest]
    have htext : cString line.text = line.text := by
      have hwhole := cString_of_not_mem line.unbroken.2 []
      rw [List.append_nil] at hwhole
      exact hwhole.trans (List.append_nil _)
    rw [htext]
    cases handle client env line.text with
    | quit => rfl
    | unknown => rfl
    | submit task => simp [Parsed.task?]

theorem harmless_nil : Harmless [] := by
  intro ω disk store files s hreached
  have hstart : s = workStart store files := by
    refine hreached.invariant (I := fun s => s = workStart store files) rfl ?_
    rintro s s' label _ rfl hfed hstep
    cases label with
    | take w taking =>
      obtain ⟨task, hmem, _⟩ := hfed
      contradiction
    | move w entries => contradiction
  rw [hstart]
  exact ⟨rfl, rfl⟩

theorem handle_task_iff (client : ClientInfo) : (handle client env line).task? ≠ none ↔
    env.allocates = true ∧ ∃ keyword ∈ taskKeywords, keyword <+: line := by
  unfold handle
  cases env.allocates with
  | false => simp [Parsed.task?]
  | true =>
    simp only [if_true, true_and, ne_eq, task_eq_none_iff]
    simp only [not_forall, Bool.not_eq_false, startsWith_iff, exists_prop]

theorem Documented.keyword_prefix (h : Documented line command) :
    ∃ keyword ∈ taskKeywords, keyword <+: line := by
  obtain ⟨args, rfl, _, _⟩ := h
  refine ⟨command.keyword, ?_, List.prefix_append _ _⟩
  cases command <;> simp [ProtocolCommand.keyword, taskKeywords]

theorem Documented.has_gap (h : Documented line command) : ∃ c ∈ line, isSpace c = true := by
  obtain ⟨args, rfl, hspell, _⟩ := h
  have htokens : command.tokens ≠ [] := by cases command <;> simp [ProtocolCommand.tokens]
  obtain ⟨word, words, hcons⟩ := List.exists_cons_of_ne_nil htokens
  rw [hcons] at hspell
  obtain ⟨gap, rest, rfl, hne, hgap, _⟩ := hspell
  obtain ⟨c, cs, rfl⟩ := List.exists_cons_of_ne_nil hne
  exact ⟨c, by simp, hgap c List.mem_cons_self⟩

theorem pushedFor_ne_nil_iff (client : ClientInfo) (env : LineEnv) (line : ShortLine)
    (buf : Buffer) : pushedFor client env line buf ≠ [] ↔
      env.allocates = true ∧ ∃ keyword ∈ taskKeywords, keyword <+: line.text := by
  rw [pushedFor_eq, ← handle_task_iff client]
  cases (handle client env line.text).task? <;> simp

theorem meetsGrammar_of_documented {line : ShortLine} (buf : Buffer)
    (hallocates : env.allocates = true) (h : ∃ command, Documented line.text command) :
    MeetsGrammar client env line buf := by
  refine ⟨?_, ?_, fun hundocumented => absurd h hundocumented⟩
  · obtain ⟨command, hdocumented⟩ := h
    refine iff_of_true ?_ ⟨command, hdocumented⟩
    exact (pushedFor_ne_nil_iff client env line buf).mpr ⟨hallocates, hdocumented.keyword_prefix⟩
  · intro command hdocumented
    rw [pushedFor_eq, handle, if_pos hallocates, parse_documented hdocumented]
    rfl

theorem meetsGrammar_of_undocumented {line : ShortLine} {buf : Buffer}
    (hnone : pushedFor client env line buf = []) (h : ¬ ∃ command, Documented line.text command) :
    MeetsGrammar client env line buf := by
  refine ⟨?_, fun command hdocumented => absurd ⟨command, hdocumented⟩ h, fun _ => ?_⟩
  · exact iff_of_false (fun hsome => hsome hnone) h
  · rw [hnone]
    exact harmless_nil

end Parsing

/-- The parser follows the README exactly on regular lines. -/
theorem grammar_iff_regular (client : ClientInfo) (env : LineEnv) (line : ShortLine)
    (buf : Buffer) : MeetsGrammar client env line buf ↔ Regular env line.text := by
  have hpushed := pushedFor_ne_nil_iff client env line buf
  unfold Regular
  constructor
  · intro h
    have haccepts := h.accepts
    rw [hpushed] at haccepts
    split
    · rename_i hallocates
      by_cases hkeyword : ∃ keyword ∈ taskKeywords, keyword <+: line.text
      · exact Or.inl (haccepts.mp ⟨hallocates, hkeyword⟩)
      · exact Or.inr fun keyword hmem hstarts => hkeyword ⟨keyword, hmem, hstarts⟩
    · rename_i hallocates
      intro hdocumented
      exact hallocates (haccepts.mpr hdocumented).1
  · intro h
    by_cases hdocumented : ∃ command, Documented line.text command
    · have hallocates : env.allocates = true := by
        by_contra hallocates
        rw [if_neg hallocates] at h
        exact h hdocumented
      exact meetsGrammar_of_documented buf hallocates hdocumented
    · refine meetsGrammar_of_undocumented ?_ hdocumented
      by_contra hsome
      obtain ⟨hallocates, keyword, hmem, hstarts⟩ := hpushed.mp hsome
      rw [if_pos hallocates] at h
      rcases h with h | hnone
      · exact hdocumented h
      · exact hnone keyword hmem hstarts

def bareUpload : ShortLine where
  text := cstr "UPLOAD"
  unbroken := by
    unfold Unbroken
    decide
  short := by decide

/-- It is pushed as a task with empty fields. -/
theorem bare_upload_pushed : ¬ ∀ client env line buf, MeetsGrammar client env line buf := by
  intro h
  have hpushed : pushedFor ⟨1, 4⟩ (steadyEnv 0) bareUpload (Vector.replicate 512 0) ≠ [] := by
    rw [pushedFor_eq]
    decide
  obtain ⟨command, hdocumented⟩ := (h _ _ _ _).accepts.mp hpushed
  obtain ⟨c, hmem, hspace⟩ := hdocumented.has_gap
  have hword : (bareUpload.text.all fun c => !isSpace c) = true := by decide
  have hletter := List.all_eq_true.mp hword c hmem
  rw [hspace] at hletter
  contradiction

end FileServer
