import Mathlib.Algebra.Group.Nat.Defs
import FileServer.Worker

/-!
# Numbers as the server prints them

`%zu` and `%ld` write the decimal digits, after a minus sign if there is one. The
text of a number has no other characters and determines the number.
-/

namespace FileServer

set_option autoImplicit false

theorem decimal_eq_map (n : Nat) :
    decimal n = (Nat.toDigits 10 n).map fun c => c.toNat.toUInt8 := by
  simp [decimal, cstr]

theorem digit_byte {c : Char} (h : c.isDigit = true) :
    48 ≤ c.toNat ∧ c.toNat ≤ 57 ∧ c.toNat.toUInt8.toNat = c.toNat := by
  have hrange : 48 ≤ c.toNat ∧ c.toNat ≤ 57 := by
    simpa [Char.isDigit, UInt32.le_iff_toNat_le] using h
  refine ⟨hrange.1, hrange.2, ?_⟩
  simp
  omega

theorem foldl_digits {l : List Char} (h : ∀ c ∈ l, c.isDigit = true) (start : Nat) :
    (l.map fun c => c.toNat.toUInt8).foldl (fun n d => 10 * n + (d.toNat - 48)) start =
      Nat.ofDigitChars 10 l start := by
  induction l generalizing start with
  | nil => rfl
  | cons c l ih =>
    rw [List.map_cons, List.foldl_cons, Nat.ofDigitChars_cons, (digit_byte (h c List.mem_cons_self)).2.2]
    exact ih (fun d hd => h d (List.mem_cons_of_mem c hd)) _

theorem isDigit_toDigits {n : Nat} {c : Char} (h : c ∈ Nat.toDigits 10 n) : c.isDigit = true :=
  Nat.isDigit_of_mem_toDigits (by decide) (by decide) h

theorem decimal_digits {n : Nat} {c : Byte} (h : c ∈ decimal n) : 48 ≤ c.toNat ∧ c.toNat ≤ 57 := by
  rw [decimal_eq_map] at h
  obtain ⟨d, hd, rfl⟩ := List.mem_map.mp h
  obtain ⟨hlow, hhigh, hbyte⟩ := digit_byte (isDigit_toDigits hd)
  omega

theorem decimal_ne_nil (n : Nat) : decimal n ≠ [] := by
  simp [decimal_eq_map]

theorem decimal_value (n : Nat) :
    (decimal n).foldl (fun n d => 10 * n + (d.toNat - 48)) 0 = n := by
  rw [decimal_eq_map, foldl_digits (fun c hc => isDigit_toDigits hc), Nat.ofDigitChars_ten_toDigits]

theorem decimal_injective {m n : Nat} (h : decimal m = decimal n) : m = n := by
  rw [← decimal_value m, h, decimal_value]

theorem decimal_length_le {n : Nat} (hn : n < 2 ^ 64) : (decimal n).length ≤ 20 := by
  rw [decimal_eq_map, List.length_map, Nat.length_toDigits_le_iff (by decide) (by decide)]
  exact Nat.lt_trans hn (by decide)

/-- A time as `%ld` prints it. -/
def timeText (now : Int) : CString := cstr (toString now)

theorem timeText_negSucc (n : Nat) : timeText (.negSucc n) = 45 :: decimal (n + 1) := by
  have hsplit : toString (Int.negSucc n) = "-" ++ toString (n + 1) := rfl
  rw [timeText, hsplit, cstr, String.toList_append, List.map_append]
  rfl

theorem timeText_byte {now : Int} {c : Byte} (h : c ∈ timeText now) :
    45 ≤ c.toNat ∧ c.toNat ≤ 57 ∧ c.toNat ≠ 47 := by
  cases now with
  | ofNat n =>
    have hdigit := decimal_digits h
    omega
  | negSucc n =>
    rw [timeText_negSucc] at h
    rcases List.mem_cons.mp h with rfl | h
    · decide
    · have hdigit := decimal_digits h
      omega

theorem decimal_ne_minus (m n : Nat) : decimal m ≠ 45 :: decimal n := by
  intro h
  have hdigit := decimal_digits (h ▸ List.mem_cons_self : (45 : Byte) ∈ decimal m)
  simp at hdigit

theorem timeText_injective {a b : Int} (h : timeText a = timeText b) : a = b := by
  cases a with
  | ofNat m =>
    cases b with
    | ofNat n => rw [decimal_injective h]
    | negSucc n =>
      rw [timeText_negSucc] at h
      exact absurd h (decimal_ne_minus m _)
  | negSucc m =>
    cases b with
    | ofNat n =>
      rw [timeText_negSucc] at h
      exact absurd h.symm (decimal_ne_minus n _)
    | negSucc n =>
      rw [timeText_negSucc, timeText_negSucc] at h
      have hsucc := decimal_injective (List.cons.inj h).2
      rw [Nat.succ.inj hsucc]

theorem timeText_length_le {now : Int} (h : now.natAbs < 2 ^ 63) : (timeText now).length ≤ 21 := by
  have hlen := decimal_length_le (Nat.lt_trans h (by decide))
  cases now with
  | ofNat n => exact Nat.le_trans hlen (by decide)
  | negSucc n =>
    rw [timeText_negSucc, List.length_cons]
    exact Nat.succ_le_succ hlen

end FileServer
