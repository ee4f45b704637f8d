import Sdb.L1Data.Text
import Mathlib.Data.List.TakeWhile

/-!
# Decimal text

`intText` writes a number, `stoi` reads an `int` from the front of a text.

* `stoi_intText`: what `stoi` reads of a written number: the number, when it
  fits in 32 bits.
* `intValue_intText`: a written number can be told from its text.
-/
namespace Sdb.L1

theorem ascii_ofList (cs : List Char) :
    ascii (String.ofList cs) = cs.map fun c => UInt8.ofNat c.toNat := by
  simp [ascii]

/-- The digits of a natural number. -/
theorem intText_natCast (n : Nat) :
    intText (n : Int) = (Nat.toDigits 10 n).map fun c => UInt8.ofNat c.toNat := by
  have htext : toString (n : Int) = String.ofList (Nat.toDigits 10 n) :=
    Nat.toString_eq_ofList_toDigits
  rw [intText, htext, ascii_ofList]

theorem intText_negSucc (n : Nat) : intText (Int.negSucc n) = 45 :: intText (n + 1 : Nat) := by
  have htext : toString (Int.negSucc n) = "-" ++ toString ((n + 1 : Nat) : Int) := rfl
  rw [intText, htext, intText, ascii, String.toList_append, List.map_append]
  rfl

theorem toNat_digitChar {d : Nat} (hd : d < 10) :
    (UInt8.ofNat (Nat.digitChar d).toNat).toNat = d + 48 := by
  have hall : ∀ d : Fin 10, (UInt8.ofNat (Nat.digitChar d).toNat).toNat = d.val + 48 := by decide
  exact hall ⟨d, hd⟩

theorem isDigit_iff {c : UInt8} : isDigit c = true ↔ 48 ≤ c.toNat ∧ c.toNat ≤ 57 := by
  simp [isDigit, UInt8.le_iff_toNat_le]

theorem digitsValue_concat (s : Bytes) (c : UInt8) :
    digitsValue (s ++ [c]) = 10 * digitsValue s + (c.toNat - 48) := by
  simp [digitsValue]

/-- The text of a number of at least two digits ends in its last digit. -/
theorem intText_natCast_eq {n : Nat} (hn : 10 ≤ n) :
    intText (n : Int) = intText (n / 10 : Nat) ++
      [UInt8.ofNat (Nat.digitChar (n % 10)).toNat] := by
  rw [intText_natCast, intText_natCast, Nat.toDigits_of_base_le (by omega) hn, List.map_append]
  rfl

theorem intText_natCast_lt {n : Nat} (hn : n < 10) :
    intText (n : Int) = [UInt8.ofNat (Nat.digitChar n).toNat] := by
  rw [intText_natCast, Nat.toDigits_of_lt_base hn]
  rfl

theorem digitsValue_intText (n : Nat) : digitsValue (intText (n : Int)) = n := by
  induction n using Nat.strongRecOn with
  | ind n ih =>
    by_cases hn : n < 10
    · rw [intText_natCast_lt hn]
      have hd := toNat_digitChar hn
      simp only [digitsValue, List.foldl_cons, List.foldl_nil]
      omega
    · have hrec := ih (n / 10) (by omega)
      have hd := toNat_digitChar (d := n % 10) (by omega)
      rw [intText_natCast_eq (by omega), digitsValue_concat, hrec]
      omega

theorem isDigit_of_mem_intText {n : Nat} {c : UInt8} (hc : c ∈ intText (n : Int)) :
    isDigit c = true := by
  induction n using Nat.strongRecOn with
  | ind n ih =>
    by_cases hn : n < 10
    · rw [intText_natCast_lt hn] at hc
      have hd := toNat_digitChar hn
      rw [isDigit_iff, List.mem_singleton.mp hc]
      omega
    · rw [intText_natCast_eq (by omega)] at hc
      rcases List.mem_append.mp hc with hc | hc
      · exact ih (n / 10) (by omega) hc
      · have hd := toNat_digitChar (d := n % 10) (by omega)
        rw [isDigit_iff, List.mem_singleton.mp hc]
        omega

theorem intText_natCast_ne_nil (n : Nat) : intText (n : Int) ≠ [] := by
  rw [intText_natCast]
  intro hnil
  exact Nat.toDigits_ne_nil (List.map_eq_nil_iff.mp hnil)

/-- The first byte of a written natural number is a digit. -/
theorem intText_natCast_cons (n : Nat) :
    ∃ c cs, intText (n : Int) = c :: cs ∧ 48 ≤ c.toNat ∧ c.toNat ≤ 57 := by
  obtain ⟨c, cs, htext⟩ := List.exists_cons_of_ne_nil (intText_natCast_ne_nil n)
  have hmem : c ∈ intText (n : Int) := by
    rw [htext]
    exact List.mem_cons_self
  exact ⟨c, cs, htext, isDigit_iff.mp (isDigit_of_mem_intText hmem)⟩

/-- A text that starts with neither a blank nor a sign. -/
theorem stoi_unsigned {c : UInt8} {cs : Bytes} (hc : 48 ≤ c.toNat) (hc' : c.toNat ≤ 57) :
    stoi (c :: cs) =
      if digitsValue ((c :: cs).takeWhile isDigit) ≤ 2147483647 then
        some (digitsValue ((c :: cs).takeWhile isDigit) : Int)
      else none := by
  have hspace : isSpace c = false := by
    simp [isSpace, UInt8.le_iff_toNat_le, ← UInt8.toNat_inj]
    omega
  have hdrop : (c :: cs).dropWhile isSpace = c :: cs := by simp [hspace]
  have hne : (c :: cs).takeWhile isDigit ≠ [] := by simp [isDigit_iff.mpr ⟨hc, hc'⟩]
  unfold stoi
  rw [hdrop]
  dsimp only
  split
  · rename_i heq
    injection heq with hhead
    simp [hhead] at hc
  · rename_i heq
    injection heq with hhead
    simp [hhead] at hc
  · rw [if_neg hne]
    simp only [Bool.false_eq_true, if_false]
    by_cases hle : digitsValue ((c :: cs).takeWhile isDigit) ≤ 2147483647
    · rw [if_pos hle, if_pos (by omega)]
    · rw [if_neg hle, if_neg (by omega)]

/-- A minus sign and digits. -/
theorem stoi_negative {digits : Bytes} (hne : digits ≠ [])
    (hd : ∀ c ∈ digits, isDigit c = true) :
    stoi (45 :: digits) =
      if digitsValue digits ≤ 2147483648 then some (-(digitsValue digits : Int)) else none := by
  have hdrop : (45 :: digits).dropWhile isSpace = 45 :: digits := by simp [isSpace]
  have htake : digits.takeWhile isDigit = digits := List.takeWhile_eq_self_iff.mpr hd
  unfold stoi
  rw [hdrop]
  simp only [htake, if_neg hne, if_true]
  by_cases hle : digitsValue digits ≤ 2147483648
  · rw [if_pos hle, if_pos (by omega)]
  · rw [if_neg hle, if_neg (by omega)]

theorem stoi_intText (n : Int) :
    stoi (intText n) = if -2147483648 ≤ n ∧ n ≤ 2147483647 then some n else none := by
  cases n with
  | ofNat m =>
    obtain ⟨c, cs, htext, hc, hc'⟩ := intText_natCast_cons m
    have htake : (intText (m : Int)).takeWhile isDigit = intText (m : Int) :=
      List.takeWhile_eq_self_iff.mpr fun c => isDigit_of_mem_intText
    show stoi (intText (m : Int)) = _
    rw [htext, stoi_unsigned hc hc', ← htext, htake, digitsValue_intText]
    by_cases hle : m ≤ 2147483647
    · rw [if_pos hle, if_pos (by simp; omega)]
      rfl
    · rw [if_neg hle, if_neg (by simp; omega)]
  | negSucc m =>
    rw [intText_negSucc, stoi_negative (intText_natCast_ne_nil _) fun c => isDigit_of_mem_intText,
      digitsValue_intText]
    by_cases hle : m + 1 ≤ 2147483648
    · rw [if_pos hle, if_pos (by omega)]
      rfl
    · rw [if_neg hle, if_neg (by omega)]

/-- The number a text of digits, with a minus sign or without, stands for. -/
def intValue : Bytes → Int
  | 45 :: digits => -digitsValue digits
  | digits => digitsValue digits

theorem intValue_intText (n : Int) : intValue (intText n) = n := by
  cases n with
  | ofNat m =>
    obtain ⟨c, cs, htext, hc, -⟩ := intText_natCast_cons m
    have hvalue := digitsValue_intText m
    show intValue (intText (m : Int)) = m
    rw [htext] at hvalue ⊢
    unfold intValue
    split
    · rename_i heq
      injection heq with hhead
      simp [hhead] at hc
    · rw [hvalue]
  | negSucc m =>
    rw [intText_negSucc, intValue, digitsValue_intText]
    rfl

end Sdb.L1
