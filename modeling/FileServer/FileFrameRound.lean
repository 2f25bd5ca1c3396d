import FileServer.FileFrameCuts

/-!
# Which segmentations deliver a file (client_program.c, worker.c)

A response of two bytes or more is a good one, whatever it leaves; but the next buffer must
begin with the word of the header, and what can begin with it is the header, or the rest of
a file name that holds the word. Bytes of the file taken for its header would be missing.
-/

namespace FileServer.ClientProgram

set_option autoImplicit false

/-- What the server sends for a download: the response line and the output of `send_file_data`. -/
def downloadStream (name : Token) (content : List Byte) : List Byte :=
  cstr "OK downloaded\n" ++ Line.bytes (.fileData name.text content)

section Stream
variable {name : CString} {content : List Byte} {size : Nat}

theorem frameHeader_length_le (name : Token) {size : Nat} (hsize : size < 9223372036854775808) :
    (frameHeader [32] name.text size).length ≤ 287 := by
  have hname := name.fits
  have hdigits := decimal_length_le (Nat.lt_trans hsize (by decide) : size < 2 ^ 64)
  rw [length_frameHeader, List.length_singleton]
  omega

theorem downloadStream_eq (name : Token) (hsize : content.length < 9223372036854775808) :
    downloadStream name content =
      cstr "OK downloaded\n" ++ frameHeader [32] name.text content.length ++ content := by
  have htext : cstr "FILE_DATA " ++ name.text ++ cstr " " ++ decimal content.length ++ cstr "\n" =
      frameHeader [32] name.text content.length := by
    have hword : cstr "FILE_DATA " = cstr "FILE_DATA" ++ [32] := rfl
    have hblank : cstr " " = [32] := rfl
    have hend : cstr "\n" = [10] := rfl
    simp [frameHeader, hword, hblank, hend]
  rw [downloadStream, Line.bytes, htext, snprintf, List.take_of_length_le, List.append_assoc]
  exact Nat.le_trans (frameHeader_length_le name hsize) (by decide)

theorem ne_of_first {s : CString} (h : ∀ c ∈ s, c ≠ 70) (hne : s ≠ []) (t z : CString) :
    s ++ t ≠ cstr "FILE_DATA" ++ z := by
  obtain ⟨c, s, rfl⟩ := List.exists_cons_of_ne_nil hne
  intro heq
  have hc : c = 70 := (List.cons.inj heq).1
  exact h c List.mem_cons_self hc

theorem word_in_name {j : Nat} {z : CString}
    (h : (name ++ 32 :: (decimal size ++ [10])).drop j = cstr "FILE_DATA" ++ z) :
    j ≤ name.length ∧ ∃ y, name.drop j = cstr "FILE_DATA" ++ y ∧
      z = y ++ 32 :: (decimal size ++ [10]) := by
  rcases Nat.lt_or_ge name.length j with hlt | hle
  · exfalso
    obtain ⟨i, rfl⟩ : ∃ i, j = name.length + (i + 1) := ⟨j - name.length - 1, by omega⟩
    rw [List.drop_length_add_append, List.drop_succ_cons] at h
    have hnone : ∀ c ∈ decimal size ++ [10], c ≠ 70 := by
      intro c hc
      rcases List.mem_append.mp hc with hc | hc
      · rintro rfl
        have hrange := (decimal_digits hc).2
        contradiction
      · rw [List.mem_singleton.mp hc]
        decide
    have hne : (decimal size ++ [10]).drop i ≠ [] := by
      rw [h]
      exact List.append_ne_nil_of_left_ne_nil (by decide) z
    refine ne_of_first (fun c hc => hnone c (List.mem_of_mem_drop hc)) hne [] z ?_
    rw [List.append_nil, h]
  · refine ⟨hle, ?_⟩
    rw [List.drop_append_of_le_length hle] at h
    rcases List.append_eq_append_iff.mp h with ⟨u, hword, htail⟩ | ⟨y, hy, hz⟩
    · cases u with
      | nil =>
        rw [List.append_nil] at hword
        exact ⟨[], by rw [List.append_nil, hword], by simpa using htail.symm⟩
      | cons c u =>
        have hc : c = 32 := (List.cons.inj htail).1.symm
        have hmem : (32 : Byte) ∈ cstr "FILE_DATA" := by
          rw [hword, hc]
          exact List.mem_append_right _ List.mem_cons_self
        exact absurd hmem (by decide)
    · exact ⟨y, hy, hz⟩

/-- The word of the header stands nowhere but at its start and in the file name. -/
theorem header_again {skipped : Nat} {z : CString} (htwo : 2 ≤ skipped)
    (h : (cstr "OK downloaded\n" ++ frameHeader [32] name size).drop skipped =
      cstr "FILE_DATA" ++ z) :
    skipped = 14 ∨ ∃ x y, name = x ++ cstr "FILE_DATA" ++ y ∧ skipped = 24 + x.length ∧
      z = y ++ 32 :: (decimal size ++ [10]) := by
  have hparts : frameHeader [32] name size =
      cstr "FILE_DATA " ++ (name ++ 32 :: (decimal size ++ [10])) := by
    have hword : cstr "FILE_DATA " = cstr "FILE_DATA" ++ [32] := rfl
    simp [frameHeader, hword]
  have hok : (cstr "OK downloaded\n").length = 14 := rfl
  have hten : (cstr "FILE_DATA ").length = 10 := rfl
  rcases Nat.lt_trichotomy skipped 14 with hlt | rfl | hgt
  · exfalso
    rw [List.drop_append_of_le_length (by omega)] at h
    refine ne_of_first ?_ ?_ _ _ h
    · have hnone : 70 ∉ (cstr "OK downloaded\n").drop 2 := by decide
      exact fun c hc heq => hnone (heq ▸ (List.drop_subset_drop_left _ htwo) hc)
    · rw [ne_eq, List.drop_eq_nil_iff]
      omega
  · exact Or.inl rfl
  · obtain ⟨k, rfl⟩ : ∃ k, skipped = (cstr "OK downloaded\n").length + k :=
      ⟨skipped - 14, by omega⟩
    rw [List.drop_length_add_append, hparts] at h
    rcases Nat.lt_or_ge k 10 with hlt | hge
    · exfalso
      rw [List.drop_append_of_le_length (by omega)] at h
      refine ne_of_first ?_ ?_ _ _ h
      · have hnone : 70 ∉ (cstr "FILE_DATA ").drop 1 := by decide
        exact fun c hc heq => hnone (heq ▸ (List.drop_subset_drop_left _ (by omega)) hc)
      · rw [ne_eq, List.drop_eq_nil_iff]
        omega
    · right
      obtain ⟨j, rfl⟩ : ∃ j, k = (cstr "FILE_DATA ").length + j := ⟨k - 10, by omega⟩
      rw [List.drop_length_add_append] at h
      obtain ⟨hle, y, hy, hz⟩ := word_in_name h
      refine ⟨name.take j, y, ?_, ?_, hz⟩
      · rw [List.append_assoc, ← hy, List.take_append_drop]
      · rw [List.length_take, hok, hten]
        omega

/-- A response of less than two bytes is refused, and any other accepted. -/
theorem receiveFrame_eq (opens : Bool) (ready : Nat → Nat) (name : Token) (content : List Byte) :
    receiveFrame opens ready (downloadStream name content) =
      if ready 0 = 0 then .failed
      else
        let stream := (downloadStream name content).drop (min 1023 (ready 0 + 1))
        if stream = [] then .waiting
        else saveFile opens ready (stream.take (min 1023 (ready 1 + 1)))
          (stream.drop (min 1023 (ready 1 + 1))) := by
  obtain ⟨rest, hrest⟩ : ∃ rest, downloadStream name content = 79 :: 75 :: rest := ⟨_, rfl⟩
  rw [receiveFrame, recvBytes, if_neg (by rw [hrest]; exact List.cons_ne_nil _ _)]
  dsimp only
  by_cases hone : ready 0 = 0
  · rw [if_pos hone, hone, hrest]
    rfl
  · have hstarts : startsWith
        (cString ((downloadStream name content).take (min 1023 (ready 0 + 1)))) (cstr "OK") = true := by
      obtain ⟨k, hk⟩ : ∃ k, min 1023 (ready 0 + 1) = k + 2 := ⟨min 1023 (ready 0 + 1) - 2, by omega⟩
      rw [hk, hrest]
      rfl
    rw [if_neg hone, if_pos hstarts, recvBytes]
    split
    · rename_i hnone
      split at hnone
      · rename_i hnil
        rw [if_pos hnil]
      · contradiction
    · rename_i hsome
      split at hsome
      · contradiction
      · rename_i hnil
        obtain ⟨rfl, rfl⟩ := Prod.mk.inj (Option.some.inj hsome)
        rw [if_neg hnil]

theorem scanHeader_starts {s : CString} {name : CString} {fileSize : Int}
    (h : scanHeader s = some (name, fileSize)) : cstr "FILE_DATA" <+: s := by
  unfold scanHeader at h
  split at h
  · rename_i hstarts
    rw [startsWith, decide_eq_true_eq] at hstarts
    rw [List.prefix_iff_eq_take, hstarts]
  · contradiction

theorem cString_of_starts (bytes : List Byte) : cString bytes <+: bytes := List.takeWhile_prefix _

theorem header_before_saved {ready : Nat → Nat} {buffer stream file : List Byte}
    (h : saveFile true ready buffer stream = .saved file) :
    (∃ name fileSize, scanHeader (cString buffer) = some (name, fileSize)) ∧
      (cString buffer).length + file.length ≤ (buffer ++ stream).length := by
  cases hscan : scanHeader (cString buffer) with
  | none =>
    rw [saveFile_none hscan] at h
    contradiction
  | some scanned =>
    obtain ⟨name, fileSize⟩ := scanned
    refine ⟨⟨name, fileSize, rfl⟩, ?_⟩
    rw [saveFile_some hscan] at h
    have hle := (cString_of_starts buffer).length_le
    split at h
    · have hcount := congrArg List.length (Download.saved.inj h)
      rw [List.length_append, List.length_drop, List.length_take] at hcount
      rw [List.length_append]
      omega
    · contradiction

/-- A name that ends with the word of the header leaves the size to be taken for a name. -/
theorem not_saved_at_end (ready : Nat → Nat) (hsize : content.length < 9223372036854775808)
    {left : CString} (hleft : left = cstr "FILE_DATA" ++ ([32] ++ decimal content.length ++ [10]))
    (n : Nat) :
    saveFile true ready ((left ++ content).take n) ((left ++ content).drop n) ≠ .saved content := by
  intro hsaved
  have hspace : ∀ c ∈ decimal content.length, isSpace c = false := fun c hc =>
    (isDigit_not_space (isDigit_decimal hc)).1
  have hzero : 0 ∉ left := by
    have hword : (0 : Byte) ∉ cstr "FILE_DATA" := by decide
    have hdigits : (0 : Byte) ∉ decimal content.length := fun hmem =>
      absurd (decimal_digits hmem).1 (by decide)
    simp [hleft, hword, hdigits]
  have hdigits : (decimal content.length).length ≤ 255 :=
    Nat.le_trans (decimal_length_le (Nat.lt_trans hsize (by decide) : content.length < 2 ^ 64))
      (by decide)
  have hnone : scanHeader (left.take n) = none := hleft ▸
    scanHeader_short (List.forall_mem_singleton.mpr rfl) hspace (decimal_ne_nil _) hdigits rfl n
  obtain ⟨⟨word, fileSize, hscan⟩, hlength⟩ := header_before_saved hsaved
  rw [List.take_append_drop, List.length_append, cString_take hzero, List.length_append] at hlength
  have hempty : cString (content.take (n - left.length)) = [] := by
    rcases Nat.le_total n left.length with hwithin | hbeyond
    · rw [Nat.sub_eq_zero_of_le hwithin]
      rfl
    · rw [List.take_of_length_le hbeyond] at hlength
      exact List.eq_nil_of_length_eq_zero (by omega)
  rw [cString_take hzero, hempty, List.append_nil, hnone] at hscan
  contradiction

theorem headerLeft_of_saved (ready : Nat → Nat) (name : Token)
    (hsize : content.length < 9223372036854775808) {first second : Nat} (htwo : 2 ≤ first)
    (h : saveFile true ready (((downloadStream name content).drop first).take second)
      (((downloadStream name content).drop first).drop second) = .saved content) :
    ∃ left, HeaderLeft name.text content.length first left ∧
      (downloadStream name content).drop first = left ++ content := by
  obtain ⟨⟨word, fileSize, hscan⟩, hlength⟩ := header_before_saved h
  have hstarts := scanHeader_starts hscan
  have hnine : (cstr "FILE_DATA").length = 9 := rfl
  have hstring := hstarts.length_le
  rw [List.take_append_drop] at hlength
  have hroom : 9 + content.length ≤ ((downloadStream name content).drop first).length := by omega
  have hfirst : first ≤
      (cstr "OK downloaded\n" ++ frameHeader [32] name.text content.length).length := by
    rw [List.length_drop, downloadStream_eq name hsize, List.length_append] at hroom
    omega
  have hdrop : (downloadStream name content).drop first =
      (cstr "OK downloaded\n" ++ frameHeader [32] name.text content.length).drop first ++ content := by
    rw [downloadStream_eq name hsize, List.drop_append_of_le_length hfirst]
  have hword : cstr "FILE_DATA" <+:
      (cstr "OK downloaded\n" ++ frameHeader [32] name.text content.length).drop first := by
    have hwhole := (hstarts.trans (cString_of_starts _)).trans (List.take_prefix _ _)
    rw [hdrop] at hwhole hroom
    refine List.prefix_of_prefix_length_le hwhole (List.prefix_append _ _) ?_
    rw [List.length_append] at hroom
    omega
  obtain ⟨z, hz⟩ := hword
  rcases header_again htwo hz.symm with rfl | ⟨x, y, hname, rfl, htail⟩
  · exact ⟨_, .whole, hdrop⟩
  · rw [htail] at hz
    rw [← hz] at hdrop
    by_cases hy : y = []
    · rw [hdrop] at h
      exact absurd h (not_saved_at_end ready hsize (by simp [hy]) second)
    · refine ⟨_, .inName x y hname hy, ?_⟩
      rw [hdrop]
      rfl

theorem HeaderLeft.bounds {first : Nat} {left : CString} (h : HeaderLeft name size first left) :
    14 ≤ first ∧ left ≠ [] := by
  cases h with
  | whole => exact ⟨Nat.le_refl 14, by simp [frameHeader]⟩
  | inName x y _ hy => exact ⟨by omega, by simp [frameHeader]⟩

theorem saveFile_headerLeft_iff (ready : Nat → Nat) (name : Token)
    (hsize : content.length < 9223372036854775808) {first : Nat} {left : CString}
    (h : HeaderLeft name.text content.length first left) (second : Nat) :
    saveFile true ready ((left ++ content).take second) ((left ++ content).drop second) =
      .saved content ↔ BufferEnds left.length content second := by
  cases h with
  | whole =>
    have hgap : ∀ c ∈ [(32 : Byte)], isSpace c ∧ c ≠ 0 :=
      List.forall_mem_singleton.mpr ⟨rfl, by decide⟩
    exact saveFile_frame_iff hgap name.plain name.nonempty name.fits ready hsize second
  | inName x y hname hy =>
    have hplain : ∀ c ∈ y, isSpace c = false ∧ c ≠ 0 := fun c hc =>
      name.plain c (hname ▸ List.mem_append_right _ hc)
    have hlen : y.length ≤ 255 := by
      have hfits := name.fits
      rw [hname, List.length_append] at hfits
      omega
    exact saveFile_frame_iff (List.forall_mem_nil _) hplain hy hlen ready hsize second

theorem drop_headerLeft (name : Token) (hsize : content.length < 9223372036854775808) {first : Nat}
    {left : CString} (h : HeaderLeft name.text content.length first left) :
    (downloadStream name content).drop first = left ++ content := by
  have hok : (cstr "OK downloaded\n").length = 14 := rfl
  rw [downloadStream_eq name hsize, List.append_assoc]
  cases h with
  | whole => exact List.drop_left' hok
  | inName x y hname hy =>
    have hskip : 24 + x.length = (cstr "OK downloaded\n" ++ cstr "FILE_DATA " ++ x).length := by
      have hten : (cstr "FILE_DATA ").length = 10 := rfl
      rw [List.length_append, List.length_append, hok, hten]
    have hword : cstr "FILE_DATA " = cstr "FILE_DATA" ++ [32] := rfl
    have hsplit : cstr "OK downloaded\n" ++ (frameHeader [32] name.text content.length ++ content) =
        (cstr "OK downloaded\n" ++ cstr "FILE_DATA " ++ x) ++
          (frameHeader [] y content.length ++ content) := by
      simp [frameHeader, hname, hword]
    rw [hsplit, hskip, List.drop_left]

theorem frame_received_iff (name : Token) (content : List Byte) (ready : Nat → Nat)
    (hsize : content.length < 9223372036854775808) :
    receiveFrame true ready (downloadStream name content) = .saved content ↔
      ∃ left, HeaderLeft name.text content.length (min 1023 (ready 0 + 1)) left ∧
        BufferEnds left.length content (min 1023 (ready 1 + 1)) := by
  rw [receiveFrame_eq]
  constructor
  · intro h
    split at h
    · contradiction
    · rename_i hready
      dsimp only at h
      split at h
      · contradiction
      · obtain ⟨left, hleft, hdrop⟩ := headerLeft_of_saved ready name hsize (by omega) h
        rw [hdrop] at h
        exact ⟨left, hleft, (saveFile_headerLeft_iff ready name hsize hleft _).mp h⟩
  · rintro ⟨left, hleft, hends⟩
    have hdrop := drop_headerLeft name hsize hleft
    have hready : ready 0 ≠ 0 := by
      have hfirst := hleft.bounds.1
      omega
    have hnonempty : left ++ content ≠ [] :=
      List.append_ne_nil_of_left_ne_nil hleft.bounds.2 content
    rw [if_neg hready, hdrop]
    dsimp only
    rw [if_neg hnonempty]
    exact (saveFile_headerLeft_iff ready name hsize hleft _).mpr hends

theorem frame_unopened (ready : Nat → Nat) (name : Token) (content file : List Byte) :
    receiveFrame false ready (downloadStream name content) ≠ .saved file := by
  rw [receiveFrame_eq]
  dsimp only
  split
  · simp
  · split
    · simp
    · rw [saveFile_unopened]
      simp

/-- A file is received if and only if the output file can be created, the response ends where
the header begins, and the buffer after it where the header ends, but for names and files of
some kinds. -/
theorem file_frame_received_iff (cwd : List CString) (t : Tree) (fault : Option Fault)
    (name : Token) (content : List Byte) (ready : Nat → Nat)
    (hsize : content.length < 9223372036854775808) :
    receiveFileData cwd t fault name.text ready (downloadStream name content) = .saved content ↔
      OutputOpens cwd t fault name.text ∧
        ∃ left, HeaderLeft name.text content.length (min 1023 (ready 0 + 1)) left ∧
          BufferEnds left.length content (min 1023 (ready 1 + 1)) := by
  rw [receiveFileData, ← outputFd_iff]
  cases outputFd cwd t fault name.text with
  | true => simpa using frame_received_iff name content ready hsize
  | false => exact iff_of_false (frame_unopened ready name content content) (by simp)

end Stream

def noteName : Token where
  text := cstr "note"
  nonempty := by simp [cstr]
  fits := by simp [cstr]
  plain := by simp [cstr, isSpace]

def bareTree : Tree := ⟨[], fun _ => [], 0⟩

theorem three_chunks_received :
    receiveFileData [] bareTree none (cstr "note") (fun call => if call = 0 then 13 else 16)
      (downloadStream noteName (cstr "hi")) = .saved (cstr "hi") := by
  apply (file_frame_received_iff [] bareTree none noteName (cstr "hi") _ (by decide)).mpr
  exact ⟨outputFd_iff.mp (by decide +kernel), _, .whole, Or.inl rfl⟩

/-- All in one chunk: the client waits for a header that it has thrown away. -/
theorem one_chunk_not_received :
    ¬ ∀ (name : Token) (content : List Byte) (ready : Nat → Nat),
      content.length < 9223372036854775808 →
        receiveFileData [] bareTree none name.text ready (downloadStream name content) =
          .saved content := by
  intro h
  have hsaved := h noteName (cstr "hi") (fun _ => 1000) (by decide)
  have hwaiting : receiveFrame (outputFd [] bareTree none noteName.text) (fun _ => 1000)
      (downloadStream noteName (cstr "hi")) = .waiting := by
    rw [receiveFrame_eq]
    decide +kernel
  rw [receiveFileData, hwaiting] at hsaved
  contradiction

end FileServer.ClientProgram
