import FileServer.ClientProgram
import FileServer.Decimal
import FileServer.LinkedFiles
import FileServer.Server
import FileServer.StorageTree

/-!
# Receiving a file (receive_file_data in client_program.c)

The client reads the response, then a buffer with the header, creates the file
`downloaded_<filename>`, and reads the bytes that are missing. The network cuts the stream into the chunks that the calls return: a call finds
some bytes ready, at least one, and returns as many of them as it was asked for. Where no
bytes are left it waits, as the server keeps the connection open.
-/

namespace FileServer.ClientProgram

open LexicalPath
set_option autoImplicit false

/-- `%ld`: the value saturates as `strtol` does. -/
def scanLong (s : CString) : Option Int :=
  let t := s.dropWhile isSpace
  let negative := t.head? = some 45
  let body := if t.head? = some 43 ∨ negative then t.tail else t
  let digits := body.takeWhile isDigit
  if digits = [] then none
  else
    let value : Nat := digits.foldl (fun n d => 10 * n + (d.toNat - 48)) 0
    some (if negative then -(min value 9223372036854775808 : Nat)
      else (min value 9223372036854775807 : Nat))

/-- `sscanf(buffer, "FILE_DATA %255s %ld", received_filename, &file_size)`. -/
def scanHeader (buffer : CString) : Option (CString × Int) :=
  if startsWith buffer (cstr "FILE_DATA") then
    match scanString 255 (buffer.drop 9) with
    | none => none
    | some (receivedFilename, rest) => (scanLong rest).map fun fileSize => (receivedFilename, fileSize)
  else none

/-- `read` or `recv` for `size` bytes when `ready + 1` have arrived, or all there are. -/
def recvBytes (size ready : Nat) (stream : List Byte) : Option (List Byte × List Byte) :=
  if stream = [] then none
  else some (stream.take (min size (ready + 1)), stream.drop (min size (ready + 1)))

inductive Download where
  | waiting
  | failed
  | saved (file : List Byte)
  deriving DecidableEq, Repr

theorem recvBytes_progress {size ready : Nat} {stream bytes rest : List Byte} (hsize : 0 < size)
    (h : recvBytes size ready stream = some (bytes, rest)) : 0 < bytes.length := by
  unfold recvBytes at h
  split at h
  · contradiction
  · rename_i hne
    obtain ⟨rfl, -⟩ := Prod.mk.inj (Option.some.inj h)
    have hpos := List.length_pos_iff.mpr hne
    rw [List.length_take]
    omega

/-- The loop over the remaining bytes; `call` counts the calls that were made. -/
def receiveRest (ready : Nat → Nat) (call remaining : Nat) (stream file : List Byte) : Download :=
  if _hzero : remaining = 0 then .saved file
  else
    match _hrecv : recvBytes (min remaining 8192) (ready call) stream with
    | none => .waiting
    | some (bytes, rest) =>
      receiveRest ready (call + 1) (remaining - bytes.length) rest (file ++ bytes)
termination_by remaining
decreasing_by
  have hpos := recvBytes_progress (by omega) _hrecv
  omega

/-- `output_filename`, which `snprintf` cuts after 511 bytes. -/
def outputFilename (filename : CString) : CString := (cstr "downloaded_" ++ filename).take 511

/-- `open(output_filename, O_WRONLY | O_CREAT | O_TRUNC, 0644)` in the tree of the client;
`fault` is an error that does not come from the path. -/
def outputFd (cwd : List CString) (t : Tree) (fault : Option Fault) (filename : CString) : Bool :=
  (t.perform cwd fault ⟨outputFilename filename, .fopenWrite⟩).1.error.isNone

/-- What follows the reading of the header: `header_size` is the length of the buffer as a
string, and the rest of it is taken for data. -/
def saveFile (opens : Bool) (ready : Nat → Nat) (buffer stream : List Byte) : Download :=
  match scanHeader (cString buffer) with
  | none => .failed
  | some (_, fileSize) =>
    if opens then
      let headerSize := (cString buffer).length
      let dataBytes := buffer.length - headerSize
      receiveRest ready 2 (fileSize - dataBytes).toNat stream (buffer.drop headerSize)
    else .failed

/-- `opens` tells whether the output file can be created. -/
def receiveFrame (opens : Bool) (ready : Nat → Nat) (stream : List Byte) : Download :=
  match recvBytes 1023 (ready 0) stream with
  | none => .waiting
  | some (response, stream) =>
    if startsWith (cString response) (cstr "OK") then
      match recvBytes 1023 (ready 1) stream with
      | none => .waiting
      | some (buffer, stream) => saveFile opens ready buffer stream
    else .failed

def receiveFileData (cwd : List CString) (t : Tree) (fault : Option Fault) (filename : CString)
    (ready : Nat → Nat) (stream : List Byte) : Download :=
  receiveFrame (outputFd cwd t fault filename) ready stream

section Output
variable {cwd : List CString} {t : Tree} {fault : Option Fault} {filename : CString}

/-- The output file can be created: its path leads to a file or to a free name in a
directory, links followed. -/
structure OutputOpens (cwd : List CString) (t : Tree) (fault : Option Fault) (filename : CString) :
    Prop where
  works : fault = none
  last : (outputFilename filename).getLast? ≠ some slash
  leads : ∃ l, t.target cwd (outputFilename filename) = .ok l ∧
    (t.entry l = .absent ∨ ∃ k, t.entry l = .file k)

theorem outputFd_iff : outputFd cwd t fault filename = true ↔ OutputOpens cwd t fault filename := by
  unfold outputFd
  cases fault with
  | some f =>
    refine iff_of_false ?_ fun h => absurd h.works (by simp)
    simp [Tree.perform, failed]
  | none =>
    have hperform : t.perform cwd none ⟨outputFilename filename, .fopenWrite⟩ =
        t.fopenWrite cwd (outputFilename filename) := rfl
    rw [hperform, Tree.fopenWrite]
    split
    · rename_i hlast
      refine iff_of_false ?_ fun h => h.last hlast
      cases t.nameAt cwd (outputFilename filename) with
      | error errno => simp [failed]
      | ok l => simp [failed]
    · rename_i hlast
      cases htarget : t.target cwd (outputFilename filename) with
      | error errno =>
        refine iff_of_false (by simp [failed]) ?_
        rintro ⟨-, -, l, hl, -⟩
        rw [htarget] at hl
        cases hl
      | ok l =>
        dsimp only
        cases hentry : t.entry l with
        | absent => exact iff_of_true rfl ⟨rfl, hlast, l, htarget, Or.inl hentry⟩
        | file k => exact iff_of_true rfl ⟨rfl, hlast, l, htarget, Or.inr ⟨k, hentry⟩⟩
        | dir | link target =>
          refine iff_of_false (by simp [failed]) ?_
          rintro ⟨-, -, l', hl', hplace⟩
          rw [htarget] at hl'
          cases hl'
          rw [hentry] at hplace
          simp at hplace

theorem outputFilename_eq (hlength : filename.length ≤ 255) :
    outputFilename filename = cstr "downloaded_" ++ filename := by
  have heleven : (cstr "downloaded_").length = 11 := rfl
  apply List.take_of_length_le
  rw [List.length_append]
  omega

theorem outputFilename_single (hslash : slash ∉ filename) :
    SingleName (cstr "downloaded_" ++ filename) := by
  have hhead : ∃ rest, cstr "downloaded_" ++ filename = 100 :: rest := ⟨_, rfl⟩
  obtain ⟨rest, hrest⟩ := hhead
  refine ⟨by simp [hrest], ?_, ?_, ?_⟩
  · have hnone : slash ∉ cstr "downloaded_" := by decide
    simp [hnone, hslash]
  · intro hdot
    rw [hrest] at hdot
    exact absurd (List.cons.inj hdot).1 (by decide)
  · intro hdots
    rw [hrest] at hdots
    exact absurd (List.cons.inj hdots).1 (by decide)

/-- A name without a slash must leave room for `downloaded_` in the 255 bytes of an entry. -/
theorem outputOpens_iff (hslash : slash ∉ filename) (hlength : filename.length ≤ 255)
    (hnolink : ∀ target, t.entry ⟨true, 0, cwd ++ [cstr "downloaded_" ++ filename]⟩ ≠ .link target) :
    OutputOpens cwd t fault filename ↔ fault = none ∧ t.entry ⟨true, 0, cwd⟩ = .dir ∧
      filename.length ≤ 244 ∧
      t.entry ⟨true, 0, cwd ++ [cstr "downloaded_" ++ filename]⟩ ≠ .dir := by
  have hsingle := outputFilename_single hslash
  have heleven : (cstr "downloaded_").length = 11 := rfl
  have horigin : origin cwd (cstr "downloaded_" ++ filename) = ⟨true, 0, cwd⟩ := rfl
  have hlast : (cstr "downloaded_" ++ filename).getLast? ≠ some slash :=
    fun hend => hsingle.2.1 (List.mem_of_getLast? hend)
  have htarget : t.target cwd (cstr "downloaded_" ++ filename) =
      t.lead true strides ⟨true, 0, cwd⟩ [.name (cstr "downloaded_" ++ filename)] := by
    rw [Tree.target, horigin, hsingle.components]
  have hwalk : (⟨true, 0, cwd⟩ : Location).walk (.name (cstr "downloaded_" ++ filename)) =
      ⟨true, 0, cwd ++ [cstr "downloaded_" ++ filename]⟩ := rfl
  constructor
  · rintro ⟨hworks, -, l, hl, hplace⟩
    rw [outputFilename_eq hlength, htarget, strides, Tree.lead] at hl
    have hpasses : ∀ errno, t.stride true ⟨true, 0, cwd⟩
        [.name (cstr "downloaded_" ++ filename)] ≠ .barred errno := by
      intro errno hbarred
      rw [hbarred] at hl
      cases hl
    obtain ⟨hdir, hshort⟩ := stride_dir hpasses
    rw [stride_cons hdir hshort hnolink, hwalk] at hl
    cases hl
    refine ⟨hworks, hdir, ?_, ?_⟩
    · have hname := of_decide_eq_false hshort
      rw [List.length_append] at hname
      omega
    · intro hentry
      rw [hentry] at hplace
      simp at hplace
  · rintro ⟨hworks, hdir, hshort, hfree⟩
    have hname : overlong (.name (cstr "downloaded_" ++ filename)) = false := by
      apply decide_eq_false
      rw [List.length_append]
      omega
    refine ⟨hworks, ?_, ⟨true, 0, cwd ++ [cstr "downloaded_" ++ filename]⟩, ?_, ?_⟩
    · rwa [outputFilename_eq hlength]
    · rw [outputFilename_eq hlength, htarget, strides, Tree.lead, stride_cons hdir hname hnolink]
      rfl
    · cases hentry : t.entry ⟨true, 0, cwd ++ [cstr "downloaded_" ++ filename]⟩ with
      | absent => exact Or.inl rfl
      | file k => exact Or.inr ⟨k, rfl⟩
      | dir => exact absurd hentry hfree
      | link target => exact absurd hentry (hnolink target)

end Output

section Calls
variable {ready : Nat → Nat}

theorem continue_eq {taken remaining : Nat} (stream file : List Byte) (hle : taken ≤ remaining) :
    (if remaining - (stream.take taken).length ≤ (stream.drop taken).length then
      Download.saved (file ++ stream.take taken ++
        (stream.drop taken).take (remaining - (stream.take taken).length))
    else .waiting) =
      if remaining ≤ stream.length then .saved (file ++ stream.take remaining) else .waiting := by
  rw [List.length_take, List.length_drop]
  by_cases hall : stream.length ≤ taken
  · have hmin : min taken stream.length = stream.length := Nat.min_eq_right hall
    rw [hmin, List.take_of_length_le hall, List.drop_eq_nil_of_le hall, List.take_nil,
      List.append_nil]
    by_cases hdone : remaining ≤ stream.length
    · rw [if_pos (by omega), if_pos hdone, List.take_of_length_le (by omega)]
    · rw [if_neg (by omega), if_neg hdone]
  · have hmin : min taken stream.length = taken := Nat.min_eq_left (by omega)
    have hsum : taken + (remaining - taken) = remaining := by omega
    rw [hmin, List.append_assoc, ← List.take_add, hsum]
    by_cases hdone : remaining ≤ stream.length
    · rw [if_pos (by omega), if_pos hdone]
    · rw [if_neg (by omega), if_neg hdone]

/-- The loop takes the remaining bytes off the stream, however it is cut. -/
theorem receiveRest_eq (ready : Nat → Nat) (call remaining : Nat) (stream file : List Byte) :
    receiveRest ready call remaining stream file =
      if remaining ≤ stream.length then .saved (file ++ stream.take remaining) else .waiting := by
  induction remaining using Nat.strongRecOn generalizing call stream file with
  | ind remaining ih =>
    rw [receiveRest]
    split
    · rename_i hzero
      simp [hzero]
    · rename_i hne
      split
      · rename_i hnone
        have hnil : stream = [] := by
          unfold recvBytes at hnone
          split at hnone
          · assumption
          · contradiction
        rw [hnil, if_neg (by simpa using hne)]
      · rename_i bytes rest hsome
        have hpos := recvBytes_progress (by omega) hsome
        unfold recvBytes at hsome
        split at hsome
        · contradiction
        · obtain ⟨rfl, rfl⟩ := Prod.mk.inj (Option.some.inj hsome)
          have hle : min (min remaining 8192) (ready call + 1) ≤ remaining := by omega
          generalize min (min remaining 8192) (ready call + 1) = taken at hpos hle ⊢
          rw [ih _ (by omega)]
          exact continue_eq stream file hle

end Calls

section Scans
variable {gap word rest digits : CString}

theorem dropWhile_before_word (hgap : ∀ c ∈ gap, isSpace c) (hword : ∀ c ∈ word, isSpace c = false)
    (hne : word ≠ []) (rest : CString) : (gap ++ word ++ rest).dropWhile isSpace = word ++ rest := by
  obtain ⟨c, word, rfl⟩ := List.exists_cons_of_ne_nil hne
  have hc : ¬ isSpace c := by simp [hword c List.mem_cons_self]
  rw [List.append_assoc, List.dropWhile_append_of_pos hgap, List.cons_append,
    List.dropWhile_cons_of_neg hc]

theorem scanString_word (hgap : ∀ c ∈ gap, isSpace c) (hword : ∀ c ∈ word, isSpace c = false)
    (hne : word ≠ []) (hlen : word.length ≤ 255) (hrest : ∀ c ∈ rest.head?, isSpace c) :
    scanString 255 (gap ++ word ++ rest) = some (word, rest) := by
  have htake : (word ++ rest).takeWhile (fun c => !isSpace c) = word := by
    rw [List.takeWhile_append_of_pos (by simpa using hword)]
    cases rest with
    | nil => simp
    | cons c rest => rw [List.takeWhile_cons_of_neg (by simpa using hrest), List.append_nil]
  have hnil : word ++ rest ≠ [] := by simp [hne]
  rw [scanString, dropWhile_before_word hgap hword hne, if_neg hnil, htake, List.take_of_length_le hlen]
  dsimp only
  rw [List.drop_left]

theorem scanString_spaces (hgap : ∀ c ∈ gap, isSpace c) : scanString 255 gap = none := by
  rw [scanString, List.dropWhile_eq_nil_iff.mpr hgap, if_pos rfl]

theorem scanLong_spaces (hgap : ∀ c ∈ gap, isSpace c) : scanLong gap = none := by
  rw [scanLong, List.dropWhile_eq_nil_iff.mpr hgap]
  rfl

def digitsValue (digits : CString) : Nat := digits.foldl (fun n d => 10 * n + (d.toNat - 48)) 0

theorem isDigit_not_space {c : Byte} (h : isDigit c) : isSpace c = false ∧ c ≠ 43 ∧ c ≠ 45 := by
  simp only [isDigit, isSpace, decide_eq_true_eq, UInt8.le_iff_toNat_le, ← UInt8.toNat_inj,
    decide_eq_false_iff_not, ne_eq] at h ⊢
  simp only [UInt8.reduceToNat] at h ⊢
  omega

theorem scanLong_digits (hgap : ∀ c ∈ gap, isSpace c) (hdigits : ∀ c ∈ digits, isDigit c)
    (hne : digits ≠ []) (hrest : ∀ c ∈ rest.head?, isDigit c = false)
    (hvalue : digitsValue digits < 9223372036854775808) :
    scanLong (gap ++ digits ++ rest) = some (digitsValue digits : Int) := by
  have hspace : ∀ c ∈ digits, isSpace c = false := fun c hc => (isDigit_not_space (hdigits c hc)).1
  have htake : (digits ++ rest).takeWhile isDigit = digits := by
    rw [List.takeWhile_append_of_pos hdigits]
    cases rest with
    | nil => simp
    | cons c rest => rw [List.takeWhile_cons_of_neg (by simpa using hrest), List.append_nil]
  have hhead : ∀ sign : Byte, isDigit sign = false → (digits ++ rest).head? ≠ some sign := by
    intro sign hsign heq
    obtain ⟨c, digits, rfl⟩ := List.exists_cons_of_ne_nil hne
    obtain rfl : c = sign := Option.some.inj heq
    have hdigit := hdigits c List.mem_cons_self
    rw [hsign] at hdigit
    contradiction
  have hplus := hhead 43 (by decide)
  have hminus := hhead 45 (by decide)
  rw [scanLong, dropWhile_before_word hgap hspace hne]
  simp only [hplus, hminus, or_self, if_false, htake, hne]
  have hmin : min (digitsValue digits) 9223372036854775807 = digitsValue digits :=
    Nat.min_eq_left (by omega)
  exact congrArg (fun n : Nat => some (n : Int)) hmin

theorem scanHeader_append (u : CString) :
    scanHeader (cstr "FILE_DATA" ++ u) =
      (scanString 255 u).bind fun scanned => (scanLong scanned.2).map fun size => (scanned.1, size) := by
  have hstarts : startsWith (cstr "FILE_DATA" ++ u) (cstr "FILE_DATA") = true := by
    rw [startsWith, List.take_left]
    simp
  have hdrop : (cstr "FILE_DATA" ++ u).drop 9 = u := List.drop_left' rfl
  rw [scanHeader, if_pos hstarts, hdrop]
  cases scanString 255 u <;> rfl

theorem scanHeader_short {e : Byte} (hgap : ∀ c ∈ gap, isSpace c)
    (hword : ∀ c ∈ word, isSpace c = false) (hne : word ≠ []) (hlen : word.length ≤ 255)
    (he : isSpace e) (n : Nat) :
    scanHeader ((cstr "FILE_DATA" ++ (gap ++ word ++ [e])).take n) = none := by
  by_cases hshort : n < 9
  · have hstarts : startsWith ((cstr "FILE_DATA" ++ (gap ++ word ++ [e])).take n)
        (cstr "FILE_DATA") = false := by
      rw [startsWith, decide_eq_false_iff_not]
      intro heq
      have hlength := congrArg List.length heq
      have hnine : (cstr "FILE_DATA").length = 9 := rfl
      rw [List.length_take, List.length_take, hnine] at hlength
      omega
    rw [scanHeader, hstarts]
    rfl
  · have hsplit : (cstr "FILE_DATA" ++ (gap ++ word ++ [e])).take n =
        cstr "FILE_DATA" ++ (gap ++ word ++ [e]).take (n - 9) := by
      rw [List.take_append, List.take_of_length_le (Nat.le_of_not_lt hshort)]
      rfl
    rw [hsplit, scanHeader_append]
    generalize n - 9 = m
    by_cases hin : m ≤ gap.length
    · have hspaces : ∀ c ∈ (gap ++ word ++ [e]).take m, isSpace c := by
        rw [List.append_assoc, List.take_append_of_le_length hin]
        exact fun c hc => hgap c (List.mem_of_mem_take hc)
      rw [scanString_spaces hspaces]
      rfl
    by_cases hpart : m ≤ (gap ++ word).length
    · have hcut : (gap ++ word ++ [e]).take m = gap ++ word.take (m - gap.length) ++ [] := by
        rw [List.take_append_of_le_length hpart, List.take_append,
          List.take_of_length_le (Nat.le_of_not_le hin), List.append_nil]
      have hsome : word.take (m - gap.length) ≠ [] := by
        rw [ne_eq, List.take_eq_nil_iff, not_or]
        exact ⟨by omega, hne⟩
      have hlen' : (word.take (m - gap.length)).length ≤ 255 :=
        Nat.le_trans (List.take_sublist _ _).length_le hlen
      rw [hcut, scanString_word hgap (fun c hc => hword c (List.mem_of_mem_take hc)) hsome hlen'
        (by simp)]
      rfl
    · have hwhole : (gap ++ word ++ [e]).take m = gap ++ word ++ [e] := by
        rw [List.take_of_length_le]
        rw [List.length_append, List.length_singleton]
        omega
      have hlong : scanLong [e] = none := scanLong_spaces (by simpa using he)
      rw [hwhole, scanString_word hgap hword hne hlen (by simpa using he), Option.bind_some, hlong]
      rfl

theorem scanHeader_digits (hgap : ∀ c ∈ gap, isSpace c) (hword : ∀ c ∈ word, isSpace c = false)
    (hne : word ≠ []) (hlen : word.length ≤ 255) (hdigits : ∀ c ∈ digits, isDigit c)
    (hsome : digits ≠ []) (hrest : ∀ c ∈ rest.head?, isDigit c = false)
    (hvalue : digitsValue digits < 9223372036854775808) :
    scanHeader (cstr "FILE_DATA" ++ (gap ++ word ++ 32 :: (digits ++ rest))) =
      some (word, (digitsValue digits : Int)) := by
  have hblank : ∀ c ∈ (32 :: (digits ++ rest)).head?, isSpace c := by
    simp only [List.head?_cons, Option.mem_some_iff, forall_eq']
    rfl
  have hlong : scanLong (32 :: (digits ++ rest)) = some (digitsValue digits : Int) :=
    scanLong_digits (List.forall_mem_singleton.mpr rfl) hdigits hsome hrest hvalue
  rw [scanHeader_append, scanString_word hgap hword hne hlen hblank, Option.bind_some, hlong]
  rfl

end Scans

end FileServer.ClientProgram
