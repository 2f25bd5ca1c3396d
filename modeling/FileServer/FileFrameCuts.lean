import FileServer.FileFrame

/-!
# Where a file frame may be cut (client_program.c, worker.c)

The client takes the whole second buffer for the header, as far as it is a string. So
the response must end where the header begins, the buffer where the header ends, and the
exceptions are few: a file name that holds the header's word, a file that begins with a
NUL, and a file of nothing but newlines.
-/

namespace FileServer.ClientProgram

set_option autoImplicit false

/-- The header's word, a gap, a file name and the size. -/
def frameHeader (gap word : CString) (size : Nat) : CString :=
  cstr "FILE_DATA" ++ (gap ++ word ++ 32 :: (decimal size ++ [10]))

/-- What a response of so many bytes leaves of the header, to be read as a header. -/
inductive HeaderLeft (name : CString) (size : Nat) : Nat → CString → Prop
  | whole : HeaderLeft name size 14 (frameHeader [32] name size)
  | inName (x y : CString) : name = x ++ cstr "FILE_DATA" ++ y → y ≠ [] →
      HeaderLeft name size (24 + x.length) (frameHeader [] y size)

/-- Where the second buffer may end, when it begins with a header of so many bytes. -/
def BufferEnds (header : Nat) (content : List Byte) (second : Nat) : Prop :=
  second = header ∨
    header < second ∧ (∀ c ∈ content.head?, c = 0) ∨
    second + 1 = header ∧ ∀ c ∈ content, c = 10

section Digits
variable {a b : CString} {n : Nat}

theorem foldl_digits_le (b : CString) (v : Nat) :
    v ≤ b.foldl (fun n d => 10 * n + (d.toNat - 48)) v := by
  induction b generalizing v with
  | nil => exact Nat.le_refl v
  | cons d b ih =>
    have hrest := ih (10 * v + (d.toNat - 48))
    rw [List.foldl_cons]
    omega

theorem digitsValue_append_le (hb : b ≠ []) : 10 * digitsValue a ≤ digitsValue (a ++ b) := by
  obtain ⟨d, b, rfl⟩ := List.exists_cons_of_ne_nil hb
  have hrest := foldl_digits_le b (10 * digitsValue a + (d.toNat - 48))
  rw [digitsValue, digitsValue, List.foldl_append, List.foldl_cons]
  rw [digitsValue] at hrest
  omega

/-- The number with its last digits missing is a smaller one. -/
theorem digitsValue_take_lt {k : Nat} (hk : 0 < k) (hlt : k < (decimal n).length) :
    digitsValue ((decimal n).take k) < n := by
  have hdrop : (decimal n).drop k ≠ [] := by
    rw [ne_eq, List.drop_eq_nil_iff]
    omega
  have hle := digitsValue_append_le (a := (decimal n).take k) hdrop
  have hvalue : digitsValue (decimal n) = n := decimal_value n
  rw [List.take_append_drop, hvalue] at hle
  rcases Nat.eq_zero_or_pos n with rfl | hpos
  · have hone : (decimal 0).length = 1 := by decide
    omega
  · omega

theorem isDigit_decimal {c : Byte} (h : c ∈ decimal n) : isDigit c := by
  have hc := decimal_digits h
  simp only [isDigit, decide_eq_true_eq, UInt8.le_iff_toNat_le, UInt8.reduceToNat]
  exact hc

end Digits

section Buffers
variable {left content : List Byte} {ready : Nat → Nat}

theorem cString_append (h : 0 ∉ left) (content : List Byte) :
    cString (left ++ content) = left ++ cString content := by
  have hall : ∀ c ∈ left, decide (c ≠ 0) = true := by
    intro c hc
    have hne : c ≠ 0 := fun heq => h (heq ▸ hc)
    simpa using hne
  rw [cString, List.takeWhile_append_of_pos hall, cString]

theorem saveFile_none {buffer : List Byte} (h : scanHeader (cString buffer) = none)
    (opens : Bool) (ready : Nat → Nat) (stream : List Byte) :
    saveFile opens ready buffer stream = .failed := by
  rw [saveFile, h]

theorem saveFile_some {buffer : List Byte} {name : CString} {size : Int}
    (h : scanHeader (cString buffer) = some (name, size)) (ready : Nat → Nat) (stream : List Byte) :
    saveFile true ready buffer stream =
      if (size - (buffer.length - (cString buffer).length : Nat)).toNat ≤ stream.length then
        .saved (buffer.drop (cString buffer).length ++
          stream.take (size - (buffer.length - (cString buffer).length : Nat)).toNat)
      else .waiting := by
  rw [saveFile, h]
  exact receiveRest_eq ready 2 _ stream _

theorem saveFile_unopened (ready : Nat → Nat) (buffer stream : List Byte) :
    saveFile false ready buffer stream = .failed := by
  unfold saveFile
  split
  · rfl
  · rfl

/-- The text of a buffer that the file's bytes may follow. -/
theorem cString_take (h : 0 ∉ left) (content : List Byte) (n : Nat) :
    cString ((left ++ content).take n) = left.take n ++ cString (content.take (n - left.length)) := by
  rw [List.take_append, cString_append fun hmem => h (List.mem_of_mem_take hmem)]

theorem eq_take_cons_iff (c : Byte) (content : List Byte) :
    (c :: content).take content.length = content ↔ ∀ d ∈ content, d = c := by
  induction content generalizing c with
  | nil => simp
  | cons d content ih =>
    rw [List.length_cons, List.take_succ_cons, List.cons.injEq]
    constructor
    · rintro ⟨rfl, hrest⟩ e he
      rcases List.mem_cons.mp he with rfl | he
      · rfl
      · exact (ih _).mp hrest e he
    · intro hall
      obtain rfl := hall d List.mem_cons_self
      exact ⟨rfl, (ih _).mpr fun e he => hall e (List.mem_cons_of_mem _ he)⟩

theorem cString_take_eq_nil_iff {n : Nat} (hn : 0 < n) :
    cString (content.take n) = [] ↔ ∀ c ∈ content.head?, c = 0 := by
  obtain ⟨m, rfl⟩ := Nat.exists_eq_succ_of_ne_zero (Nat.ne_zero_of_lt hn)
  cases content with
  | nil => simp [cString]
  | cons c content =>
    rw [List.take_succ_cons, cString, List.takeWhile_cons]
    by_cases hc : c = 0 <;> simp [hc]

end Buffers

section Frame
variable {gap word : CString} {content : List Byte} {n size : Nat}

theorem frameHeader_eq (gap word : CString) (size : Nat) :
    frameHeader gap word size =
      (cstr "FILE_DATA" ++ (gap ++ word ++ [32])) ++ (decimal size ++ [10]) := by
  simp [frameHeader]

theorem length_frameHeader (gap word : CString) (size : Nat) :
    (frameHeader gap word size).length =
      10 + gap.length + word.length + (decimal size).length + 1 := by
  have hnine : (cstr "FILE_DATA").length = 9 := rfl
  simp only [frameHeader, List.length_append, List.length_cons, List.length_nil, hnine]
  omega

theorem zero_notMem_frameHeader (hgap : 0 ∉ gap) (hword : 0 ∉ word) (size : Nat) :
    0 ∉ frameHeader gap word size := by
  have hdigits : (0 : Byte) ∉ decimal size := by
    intro hmem
    have hrange := (decimal_digits hmem).1
    contradiction
  have hwords : (0 : Byte) ∉ cstr "FILE_DATA" := by decide
  simp only [frameHeader, List.mem_append, List.mem_cons, List.not_mem_nil, not_or]
  exact ⟨hwords, ⟨hgap, hword⟩, by decide, hdigits, by decide, not_false⟩

variable (hgap : ∀ c ∈ gap, isSpace c ∧ c ≠ 0) (hword : ∀ c ∈ word, isSpace c = false ∧ c ≠ 0)
include hgap hword

theorem cString_frame (content : List Byte) (n : Nat) :
    cString ((frameHeader gap word size ++ content).take n) =
      (frameHeader gap word size).take n ++
        cString (content.take (n - (frameHeader gap word size).length)) :=
  cString_take (zero_notMem_frameHeader (fun h => (hgap 0 h).2 rfl) (fun h => (hword 0 h).2 rfl) size)
    content n

variable (hne : word ≠ []) (hlen : word.length ≤ 255)
include hne hlen

theorem scan_before_size (hn : n ≤ 10 + gap.length + word.length) (content : List Byte) :
    scanHeader (cString ((frameHeader gap word size ++ content).take n)) = none := by
  have hlength := length_frameHeader gap word size
  have hzero : n - (frameHeader gap word size).length = 0 := by omega
  have hprefix : n ≤ (cstr "FILE_DATA" ++ (gap ++ word ++ [32])).length := by
    have hnine : (cstr "FILE_DATA").length = 9 := rfl
    simp only [List.length_append, List.length_singleton, hnine]
    omega
  rw [cString_frame hgap hword, hzero, List.take_zero, frameHeader_eq,
    List.take_append_of_le_length hprefix]
  have hnil : cString [] = [] := rfl
  rw [hnil, List.append_nil]
  exact scanHeader_short (fun c hc => (hgap c hc).1) (fun c hc => (hword c hc).1) hne hlen rfl n

theorem scan_in_size (hsize : size < 9223372036854775808)
    (hlow : 10 + gap.length + word.length < n) (hhigh : n ≤ (frameHeader gap word size).length)
    (content : List Byte) :
    scanHeader (cString ((frameHeader gap word size ++ content).take n)) =
      some (word,
        (digitsValue ((decimal size).take (n - (10 + gap.length + word.length))) : Int)) := by
  have hlength := length_frameHeader gap word size
  have hzero : n - (frameHeader gap word size).length = 0 := by omega
  obtain ⟨k, rfl⟩ : ∃ k, n = 10 + gap.length + word.length + k := ⟨_, (Nat.add_sub_of_le hlow.le).symm⟩
  have hfront : (cstr "FILE_DATA" ++ (gap ++ word ++ [32])).length =
      10 + gap.length + word.length := by
    have hnine : (cstr "FILE_DATA").length = 9 := rfl
    simp only [List.length_append, List.length_singleton, hnine]
    omega
  have htext : (frameHeader gap word size).take (10 + gap.length + word.length + k) =
      cstr "FILE_DATA" ++ (gap ++ word ++
        32 :: ((decimal size).take k ++ [10].take (k - (decimal size).length))) := by
    rw [frameHeader_eq, ← hfront, List.take_length_add_append, List.take_append]
    simp
  have hdigits : ∀ c ∈ (decimal size).take k, isDigit c := fun c hc =>
    isDigit_decimal (List.mem_of_mem_take hc)
  have hsome : (decimal size).take k ≠ [] := by
    rw [ne_eq, List.take_eq_nil_iff, not_or]
    exact ⟨by omega, decimal_ne_nil size⟩
  have hend : ∀ c ∈ ([10].take (k - (decimal size).length) : List Byte).head?, isDigit c = false := by
    intro c hc
    have hmem := List.mem_of_mem_take (List.mem_of_mem_head? hc)
    rw [List.mem_singleton.mp hmem]
    rfl
  have hvalue : digitsValue ((decimal size).take k) ≤ size := by
    by_cases hshort : k < (decimal size).length
    · exact Nat.le_of_lt (digitsValue_take_lt (by omega) hshort)
    · rw [List.take_of_length_le (Nat.le_of_not_lt hshort)]
      exact Nat.le_of_eq (decimal_value size)
  have hnil : cString [] = [] := rfl
  rw [cString_frame hgap hword, hzero, List.take_zero, hnil, List.append_nil, htext,
    Nat.add_sub_cancel_left]
  exact scanHeader_digits (fun c hc => (hgap c hc).1) (fun c hc => (hword c hc).1) hne hlen hdigits
    hsome hend (Nat.lt_of_le_of_lt hvalue hsize)

theorem scan_after_size (hsize : size < 9223372036854775808)
    (hhigh : (frameHeader gap word size).length ≤ n) (content : List Byte) :
    scanHeader (cString ((frameHeader gap word size ++ content).take n)) =
      some (word, (size : Int)) := by
  have htext : frameHeader gap word size ++
        cString (content.take (n - (frameHeader gap word size).length)) =
      cstr "FILE_DATA" ++ (gap ++ word ++ 32 :: (decimal size ++
        10 :: cString (content.take (n - (frameHeader gap word size).length)))) := by
    simp [frameHeader]
  have hvalue : digitsValue (decimal size) = size := decimal_value size
  have hend : ∀ c ∈ ((10 : Byte) :: cString (content.take
      (n - (frameHeader gap word size).length))).head?, isDigit c = false := by
    simp only [List.head?_cons, Option.mem_some_iff, forall_eq']
    rfl
  have hscan := scanHeader_digits (fun c hc => (hgap c hc).1) (fun c hc => (hword c hc).1) hne hlen
    (fun c hc => isDigit_decimal hc) (decimal_ne_nil size) hend (by rw [hvalue]; exact hsize)
  rw [cString_frame hgap hword, List.take_of_length_le hhigh, htext, hscan, hvalue]

/-- A buffer that ends within the header leaves the rest of it to be taken for the file. -/
theorem saveFile_within_iff (ready : Nat → Nat) (hsize : content.length < 9223372036854775808)
    (hhigh : n ≤ (frameHeader gap word content.length).length) :
    saveFile true ready ((frameHeader gap word content.length ++ content).take n)
        ((frameHeader gap word content.length ++ content).drop n) = .saved content ↔
      n = (frameHeader gap word content.length).length ∨
        n + 1 = (frameHeader gap word content.length).length ∧ ∀ c ∈ content, c = 10 := by
  have hlength := length_frameHeader gap word content.length
  have hdigits := List.length_pos_iff.mpr (decimal_ne_nil content.length)
  rcases Nat.lt_or_ge (10 + gap.length + word.length) n with hlow | hlow
  · have hbuffer : cString ((frameHeader gap word content.length ++ content).take n) =
        (frameHeader gap word content.length ++ content).take n := by
      have hnil : cString [] = [] := rfl
      rw [cString_frame hgap hword, List.take_append, Nat.sub_eq_zero_of_le hhigh, List.take_zero, hnil]
    rw [saveFile_some (scan_in_size hgap hword hne hlen hsize hlow hhigh content), hbuffer,
      Nat.sub_self, List.drop_eq_nil_of_le (Nat.le_refl _), List.nil_append, Int.natCast_zero,
      Int.sub_zero, Int.toNat_natCast, List.drop_append_of_le_length hhigh]
    rcases Nat.lt_trichotomy (n + 1) (frameHeader gap word content.length).length with hlt | heq | hgt
    · have hfew := digitsValue_take_lt (n := content.length)
        (k := n - (10 + gap.length + word.length)) (by omega) (by omega)
      refine iff_of_false ?_ (by omega)
      split
      · intro hsaved
        have hcount := congrArg List.length (Download.saved.inj hsaved)
        rw [List.length_take] at hcount
        omega
      · simp
    · have hall : n - (10 + gap.length + word.length) = (decimal content.length).length := by omega
      have hvalue : digitsValue (decimal content.length) = content.length := decimal_value _
      have hrest : (frameHeader gap word content.length).drop n = [10] := by
        have hfront : n = (cstr "FILE_DATA" ++ (gap ++ word ++ [32]) ++ decimal content.length).length := by
          have hnine : (cstr "FILE_DATA").length = 9 := rfl
          simp only [List.length_append, List.length_singleton, hnine]
          omega
        rw [frameHeader_eq, ← List.append_assoc, hfront, List.drop_left]
      have hne' : n ≠ (frameHeader gap word content.length).length := by omega
      rw [hall, List.take_length, hvalue, hrest, if_pos (by simp), Download.saved.injEq,
        List.singleton_append, eq_take_cons_iff]
      simp [hne', heq]
    · obtain rfl : n = (frameHeader gap word content.length).length := by omega
      have hall : (decimal content.length).length ≤
          (frameHeader gap word content.length).length - (10 + gap.length + word.length) := by omega
      have hvalue : digitsValue (decimal content.length) = content.length := decimal_value _
      rw [List.take_of_length_le hall, hvalue, List.drop_length, List.nil_append, if_pos (Nat.le_refl _),
        List.take_length]
      exact iff_of_true rfl (Or.inl rfl)
  · rw [saveFile_none (scan_before_size hgap hword hne hlen hlow content)]
    exact iff_of_false (by simp) (by omega)

/-- One that ends after the header is the header as far as the first NUL of the file. -/
theorem saveFile_beyond_iff (ready : Nat → Nat) (hsize : content.length < 9223372036854775808)
    (hhigh : (frameHeader gap word content.length).length < n) :
    saveFile true ready ((frameHeader gap word content.length ++ content).take n)
        ((frameHeader gap word content.length ++ content).drop n) = .saved content ↔
      ∀ c ∈ content.head?, c = 0 := by
  obtain ⟨m, rfl⟩ : ∃ m, n = (frameHeader gap word content.length).length + m :=
    ⟨_, (Nat.add_sub_of_le hhigh.le).symm⟩
  have hm : 0 < m := by omega
  have hscan := scan_after_size hgap hword hne hlen hsize hhigh.le content
  rw [← cString_take_eq_nil_iff hm, saveFile_some hscan, cString_frame hgap hword,
    List.take_of_length_le hhigh.le, Nat.add_sub_cancel_left, List.take_length_add_append,
    List.drop_length_add_append]
  have hle : (cString (content.take m)).length ≤ (content.take m).length :=
    (List.takeWhile_sublist _).length_le
  have hshort := List.length_take_le' m content
  have hdata : (frameHeader gap word content.length ++ content.take m).length -
      (frameHeader gap word content.length ++ cString (content.take m)).length =
        (content.take m).length - (cString (content.take m)).length := by
    simp only [List.length_append]
    omega
  rw [hdata]
  have hrest : (content.drop m).length = content.length - (content.take m).length := by
    rw [List.length_drop, List.length_take]
    omega
  constructor
  · intro hsaved
    split at hsaved
    · rename_i hfits
      rw [hrest] at hfits
      apply List.eq_nil_of_length_eq_zero
      omega
    · contradiction
  · intro hnil
    have hremaining : ((content.length : Int) - ((content.take m).length - 0 : Nat)).toNat =
        (content.drop m).length := by
      rw [hrest]
      omega
    rw [hnil, List.length_nil, hremaining, if_pos (Nat.le_refl _), List.take_length, List.append_nil,
      List.drop_left, List.take_append_drop]

/-- The file is saved whole from a buffer that begins with its header, if and only if the
buffer ends where it may. -/
theorem saveFile_frame_iff (ready : Nat → Nat) (hsize : content.length < 9223372036854775808)
    (n : Nat) :
    saveFile true ready ((frameHeader gap word content.length ++ content).take n)
        ((frameHeader gap word content.length ++ content).drop n) = .saved content ↔
      BufferEnds (frameHeader gap word content.length).length content n := by
  unfold BufferEnds
  rcases Nat.lt_or_ge (frameHeader gap word content.length).length n with hhigh | hhigh
  · rw [saveFile_beyond_iff hgap hword hne hlen ready hsize hhigh]
    constructor
    · exact fun h => Or.inr (Or.inl ⟨hhigh, h⟩)
    · rintro (heq | ⟨-, h⟩ | ⟨heq, -⟩)
      · omega
      · exact h
      · omega
  · rw [saveFile_within_iff hgap hword hne hlen ready hsize hhigh]
    constructor
    · exact fun h => h.imp_right Or.inr
    · rintro (heq | ⟨hlt, -⟩ | h)
      · exact Or.inl heq
      · omega
      · exact Or.inr h

end Frame

end FileServer.ClientProgram
