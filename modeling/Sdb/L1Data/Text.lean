import Sdb.L1Data.Message
import Mathlib.Data.List.TakeWhile

/-!
# C and C++ text functions on bytes

The character classes are those of the C locale: bytes from 128 on belong to
none of them.
-/
namespace Sdb.L1

def isDigit (c : UInt8) : Bool := 48 ≤ c && c ≤ 57

def isAlpha (c : UInt8) : Bool := (65 ≤ c && c ≤ 90) || (97 ≤ c && c ≤ 122)

def isAlnum (c : UInt8) : Bool := isAlpha c || isDigit c

def isXDigit (c : UInt8) : Bool := isDigit c || (65 ≤ c && c ≤ 70) || (97 ≤ c && c ≤ 102)

def isSpace (c : UInt8) : Bool := c = 32 || (9 ≤ c && c ≤ 13)

/-- The text a `const char*` to these bytes denotes: up to the first NUL. -/
def cstr (s : Bytes) : Bytes := s.takeWhile (· ≠ 0)

theorem cstr_eq_iff {bytes : Bytes} : cstr bytes = bytes ↔ 0 ∉ bytes := by
  unfold cstr
  rw [List.takeWhile_eq_self_iff]
  constructor
  · intro hall hmem
    simpa using hall 0 hmem
  · intro hnot c hc
    have hne : c ≠ 0 := by
      intro heq
      exact hnot (heq ▸ hc)
    simpa using hne

/-- `operator<<` of an integer. -/
def intText (n : Int) : Bytes := ascii (toString n)

/-- The value of a string of decimal digits. -/
def digitsValue (s : Bytes) : Nat := s.foldl (fun n c => 10 * n + (c.toNat - 48)) 0

/-- The value of one hexadecimal digit. -/
def xdigitValue (c : UInt8) : Nat :=
  if isDigit c then c.toNat - 48 else if 97 ≤ c then c.toNat - 87 else c.toNat - 55

/-- The value of a string of hexadecimal digits. -/
def xdigitsValue (s : Bytes) : Nat := s.foldl (fun n c => 16 * n + xdigitValue c) 0

/-- `std::stoi`: optional blanks and sign, then digits, the rest ignored; `none`
when it throws. -/
def stoi (s : Bytes) : Option Int :=
  let s := s.dropWhile isSpace
  let (negative, s) := match s with
    | 45 :: rest => (true, rest)
    | 43 :: rest => (false, rest)
    | _ => (false, s)
  let digits := s.takeWhile isDigit
  let n : Int := if negative then -digitsValue digits else digitsValue digits
  if digits = [] then none
  else if -2147483648 ≤ n ∧ n ≤ 2147483647 then some n
  else none

/-- The parts of a path between its separators. -/
def splitPath (separator : UInt8) : Bytes → List Bytes
  | [] => [[]]
  | c :: cs =>
    if c = separator then [] :: splitPath separator cs
    else
      match splitPath separator cs with
      | [] => [[c]]
      | part :: parts => (c :: part) :: parts

end Sdb.L1
