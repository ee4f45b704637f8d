import Sdb.L1Data.Decimal

/-!
# Numbers in the query of a request (`embedded_server/controller/DebugCommandController.h`)

`GET Variables/...` and `PUT Variables/Immediate/...` take `beginIterator` and
`count` from the query. A missing or empty parameter stands for its default; any
other text is read by `stringstream >> uint32_t`.

* `extractUInt32_iff`: the texts the stream reads, and what it reads of them: a
  number with a minus sign wraps around, what follows the digits is ignored;
* `extractUInt32_intText`: what it reads of a written integer;
* `readPagination_iff`: the queries that name a page.
-/
namespace Sdb.L5

open Sdb.L1

/-- The sign at the front of a text, and what follows it. -/
def readSign : Bytes → Bool × Bytes
  | 45 :: rest => (true, rest)
  | 43 :: rest => (false, rest)
  | rest => (false, rest)

/-- `ss >> parsedValue`: the value, or `none` when the stream is in the state `fail`.
As `strtoul` does, the stream negates the number after a minus sign in 32 bits. -/
def extractUInt32 (ss : Bytes) : Option UInt32 :=
  let (negative, ss) := readSign (ss.dropWhile isSpace)
  let digits := ss.takeWhile isDigit
  if digits = [] then none
  else if 4294967295 < digitsValue digits then none
  else
    let parsedValue := UInt32.ofNat (digitsValue digits)
    some (if negative then -parsedValue else parsedValue)

/-- `QueryParams::get`: the value of a parameter, `none` for `nullptr`. -/
abbrev QueryParams := Bytes → Option Bytes

/-- `parsedValue`, or `none` when the function returns `false`.
mirrors DebugCommandController.h:267-279 -/
def parseQueryParamWithDefault (queryParams : QueryParams) (name : Bytes)
    (defaultValue : UInt32) : Option UInt32 :=
  match queryParams name with
  | none => some defaultValue
  | some paramValueStr =>
    if paramValueStr.length = 0 then some defaultValue
    else extractUInt32 (cstr paramValueStr)

/-- `pagination`, or `none` when `validParams` is `false`.
mirrors DebugCommandController.h:173-176, 284-287 -/
def readPagination (queryParams : QueryParams) : Option PaginationInfo :=
  match parseQueryParamWithDefault queryParams (ascii "beginIterator") 0 with
  | none => none
  | some beginIterator =>
    match parseQueryParamWithDefault queryParams (ascii "count") 100 with
    | none => none
    | some count => if count ≤ 1000 then some ⟨beginIterator, count⟩ else none

/-! ## What the stream reads -/

/-- `text` spells a number: blanks, a sign or none, digits, and anything that does not
go on with a digit. -/
structure Spells (text : Bytes) (negative : Bool) (digits : Bytes) : Prop where
  split : ∃ blanks sign rest, text = blanks ++ (sign ++ (digits ++ rest)) ∧
    (∀ c ∈ blanks, isSpace c = true) ∧
    (if negative then sign = [45] else sign = [] ∨ sign = [43]) ∧
    ∀ c ∈ rest.head?, isDigit c = false
  nonempty : digits ≠ []
  digits : ∀ c ∈ digits, isDigit c = true

theorem isSpace_of_isDigit {c : UInt8} (h : isDigit c = true) : isSpace c = false := by
  rw [isDigit_iff] at h
  simp [isSpace, UInt8.le_iff_toNat_le, ← UInt8.toNat_inj]
  omega

/-- The digits at the front of a text are the longest piece of digits there. -/
theorem takeWhile_isDigit_eq {digits rest : Bytes} (hd : ∀ c ∈ digits, isDigit c = true)
    (hr : ∀ c ∈ rest.head?, isDigit c = false) : (digits ++ rest).takeWhile isDigit = digits := by
  rw [List.takeWhile_append_of_pos hd]
  cases rest with
  | nil => simp
  | cons c rest => simp [hr c rfl]

theorem head?_dropWhile {p : UInt8 → Bool} (l : Bytes) :
    ∀ c ∈ (l.dropWhile p).head?, p c = false := by
  intro c hc
  have hnot := List.head?_dropWhile_not p l
  rw [Option.mem_def.mp hc] at hnot
  exact hnot

/-- What the stream makes of the digits it has found. -/
def valueOf (negative : Bool) (digits : Bytes) : UInt32 :=
  if negative then -UInt32.ofNat (digitsValue digits) else UInt32.ofNat (digitsValue digits)

theorem extractUInt32_eq (text : Bytes) :
    extractUInt32 text =
      if (readSign (text.dropWhile isSpace)).2.takeWhile isDigit = [] then none
      else if 4294967295 < digitsValue ((readSign (text.dropWhile isSpace)).2.takeWhile isDigit)
        then none
      else some (valueOf (readSign (text.dropWhile isSpace)).1
        ((readSign (text.dropWhile isSpace)).2.takeWhile isDigit)) := rfl

/-- A sign, or none before a digit, is read as it is written. -/
theorem readSign_spelled {negative : Bool} {sign digits rest : Bytes} (hne : digits ≠ [])
    (hd : ∀ c ∈ digits, isDigit c = true)
    (hs : if negative then sign = [45] else sign = [] ∨ sign = [43]) :
    readSign (sign ++ (digits ++ rest)) = (negative, digits ++ rest) := by
  cases negative with
  | true =>
    obtain rfl : sign = [45] := hs
    rfl
  | false =>
    rcases hs with rfl | rfl
    · obtain ⟨c, cs, rfl⟩ := List.exists_cons_of_ne_nil hne
      have hc := isDigit_iff.mp (hd c List.mem_cons_self)
      show readSign (c :: (cs ++ rest)) = _
      unfold readSign
      split
      · rename_i heq
        injection heq with hhead
        simp [hhead] at hc
      · rename_i heq
        injection heq with hhead
        simp [hhead] at hc
      · rfl
    · rfl

/-- What the sign was. -/
theorem readSign_inv (text : Bytes) :
    ∃ sign, text = sign ++ (readSign text).2 ∧
      if (readSign text).1 then sign = [45] else sign = [] ∨ sign = [43] := by
  unfold readSign
  split
  · exact ⟨[45], rfl, rfl⟩
  · exact ⟨[43], rfl, .inr rfl⟩
  · exact ⟨[], rfl, .inl rfl⟩

/-- No blank is left in front of a sign or a digit. -/
theorem dropWhile_isSpace_spelled {negative : Bool} {sign digits rest : Bytes}
    (hne : digits ≠ []) (hd : ∀ c ∈ digits, isDigit c = true)
    (hs : if negative then sign = [45] else sign = [] ∨ sign = [43]) :
    (sign ++ (digits ++ rest)).dropWhile isSpace = sign ++ (digits ++ rest) := by
  obtain ⟨c, cs, heq, hc⟩ : ∃ c cs, sign ++ (digits ++ rest) = c :: cs ∧ isSpace c = false := by
    obtain ⟨d, ds, rfl⟩ := List.exists_cons_of_ne_nil hne
    have hspace := isSpace_of_isDigit (hd d List.mem_cons_self)
    have hcases : sign = [] ∨ sign = [43] ∨ sign = [45] := by
      cases negative with
      | true => exact .inr (.inr hs)
      | false => exact hs.imp_right .inl
    rcases hcases with rfl | rfl | rfl
    · exact ⟨d, ds ++ rest, rfl, hspace⟩
    · exact ⟨43, _, rfl, rfl⟩
    · exact ⟨45, _, rfl, rfl⟩
  rw [heq, List.dropWhile_cons_of_neg (by simp [hc])]

/-- The stream finds these digits. -/
theorem extractUInt32_spells {text digits : Bytes} {negative : Bool}
    (h : Spells text negative digits) :
    extractUInt32 text =
      if 4294967295 < digitsValue digits then none else some (valueOf negative digits) := by
  obtain ⟨⟨blanks, sign, rest, rfl, hb, hs, hr⟩, hne, hd⟩ := h
  have hdrop : (blanks ++ (sign ++ (digits ++ rest))).dropWhile isSpace =
      sign ++ (digits ++ rest) := by
    rw [List.dropWhile_append_of_pos hb, dropWhile_isSpace_spelled hne hd hs]
  rw [extractUInt32_eq, hdrop, readSign_spelled hne hd hs]
  simp only [takeWhile_isDigit_eq hd hr, if_neg hne]

/-- Where the stream finds digits, the text spells a number with them. -/
theorem spells_of_digits {text : Bytes}
    (hne : (readSign (text.dropWhile isSpace)).2.takeWhile isDigit ≠ []) :
    Spells text (readSign (text.dropWhile isSpace)).1
      ((readSign (text.dropWhile isSpace)).2.takeWhile isDigit) := by
  obtain ⟨sign, htext, hs⟩ := readSign_inv (text.dropWhile isSpace)
  generalize readSign (text.dropWhile isSpace) = p at hne htext hs ⊢
  obtain ⟨negative, rest⟩ := p
  refine ⟨⟨text.takeWhile isSpace, sign, rest.dropWhile isDigit, ?_, ?_, hs, ?_⟩, hne, ?_⟩
  · rw [List.takeWhile_append_dropWhile, ← htext, List.takeWhile_append_dropWhile]
  · exact fun c hc => List.mem_takeWhile_imp hc
  · exact head?_dropWhile rest
  · exact fun c hc => List.mem_takeWhile_imp hc

/-- **The numbers the stream reads.** The extraction succeeds on exactly the texts that
spell a number of at most 32 bits; the value is that number, negated modulo `2^32` after
a minus sign. -/
theorem extractUInt32_iff {text : Bytes} {v : UInt32} :
    extractUInt32 text = some v ↔
      ∃ negative digits, Spells text negative digits ∧ digitsValue digits < 2 ^ 32 ∧
        v = valueOf negative digits := by
  constructor
  · intro h
    by_cases hne : (readSign (text.dropWhile isSpace)).2.takeWhile isDigit = []
    · rw [extractUInt32_eq, if_pos hne] at h
      cases h
    · have hsp := spells_of_digits hne
      rw [extractUInt32_spells hsp] at h
      split at h
      · cases h
      · exact ⟨_, _, hsp, by omega, (Option.some.inj h).symm⟩
  · intro h
    obtain ⟨negative, digits, hsp, hlt, rfl⟩ := h
    rw [extractUInt32_spells hsp, if_neg (by omega)]

/-- A written integer spells itself. -/
theorem spells_intText (n : Int) : Spells (intText n) (decide (n < 0)) (intText n.natAbs) := by
  refine ⟨⟨[], if n < 0 then [45] else [], [], ?_, by simp, ?_, by simp⟩,
    intText_natCast_ne_nil _, fun c => isDigit_of_mem_intText⟩
  · cases n with
    | ofNat m => simp [Int.not_lt.mpr (Int.natCast_nonneg m)]
    | negSucc m => simp [intText_negSucc, Int.negSucc_lt_zero]
  · by_cases hn : n < 0 <;> simp [hn]

theorem ofInt_natCast (m : Nat) : UInt32.ofInt (m : Int) = UInt32.ofNat m := by
  apply UInt32.toNat_inj.mp
  simp only [UInt32.ofInt, UInt32.toNat_ofNat']
  omega

theorem valueOf_intText (n : Int) :
    valueOf (decide (n < 0)) (intText n.natAbs) = UInt32.ofInt n := by
  unfold valueOf
  rw [digitsValue_intText]
  by_cases hn : n < 0
  · have hneg : n = -(n.natAbs : Int) := by omega
    rw [if_pos (by simpa using hn)]
    conv => rhs; rw [hneg]
    rw [UInt32.ofInt_neg, ofInt_natCast]
  · have hpos : n = (n.natAbs : Int) := by omega
    rw [if_neg (by simpa using hn)]
    conv => rhs; rw [hpos]
    rw [ofInt_natCast]

/-- What is written as a decimal is read as it stands, a negative number modulo `2^32`. -/
theorem extractUInt32_intText (n : Int) :
    extractUInt32 (intText n) = if n.natAbs < 2 ^ 32 then some (UInt32.ofInt n) else none := by
  rw [extractUInt32_spells (spells_intText n), digitsValue_intText, valueOf_intText]
  by_cases hlt : n.natAbs < 2 ^ 32
  · rw [if_pos hlt, if_neg (by omega)]
  · rw [if_neg hlt, if_pos (by omega)]

/-! ## Pages -/

/-- What a parameter of the query stands for. -/
inductive Reads (defaultValue : UInt32) : Option Bytes → UInt32 → Prop where
  | missing : Reads defaultValue none defaultValue
  | empty : Reads defaultValue (some []) defaultValue
  | number {text digits : Bytes} {negative : Bool} : Spells (cstr text) negative digits →
      digitsValue digits < 2 ^ 32 → Reads defaultValue (some text) (valueOf negative digits)

theorem not_spells_nil {negative : Bool} {digits : Bytes} : ¬ Spells [] negative digits := by
  intro h
  obtain ⟨⟨blanks, sign, rest, heq, -⟩, hne, -⟩ := h
  simp [hne] at heq

theorem parseQueryParamWithDefault_iff {queryParams : QueryParams} {name : Bytes}
    {defaultValue v : UInt32} :
    parseQueryParamWithDefault queryParams name defaultValue = some v ↔
      Reads defaultValue (queryParams name) v := by
  unfold parseQueryParamWithDefault
  cases queryParams name with
  | none =>
    constructor
    · intro h
      obtain rfl := Option.some.inj h
      exact .missing
    · intro h
      obtain _ | _ | _ := h
      rfl
  | some text =>
    by_cases hlen : text.length = 0
    · obtain rfl := List.eq_nil_of_length_eq_zero hlen
      simp only [List.length_nil, if_true]
      constructor
      · intro h
        obtain rfl := Option.some.inj h
        exact .empty
      · intro h
        cases h with
        | empty => rfl
        | number hsp _ => exact absurd hsp not_spells_nil
    · simp only [if_neg hlen, extractUInt32_iff]
      constructor
      · intro h
        obtain ⟨negative, digits, hsp, hlt, rfl⟩ := h
        exact .number hsp hlt
      · intro h
        cases h with
        | empty => exact absurd rfl hlen
        | number hsp hlt => exact ⟨_, _, hsp, hlt, rfl⟩

/-- A page is read from both parameters, and its count is bounded. -/
theorem readPagination_eq_some {queryParams : QueryParams} {pagination : PaginationInfo} :
    readPagination queryParams = some pagination ↔
      parseQueryParamWithDefault queryParams (ascii "beginIterator") 0 =
          some pagination.beginIterator ∧
        parseQueryParamWithDefault queryParams (ascii "count") 100 = some pagination.count ∧
        pagination.count.toNat ≤ 1000 := by
  unfold readPagination
  constructor
  · intro h
    split at h
    · cases h
    rename_i hbegin
    split at h
    · cases h
    rename_i hcount
    split at h
    · rename_i hle
      obtain rfl := Option.some.inj h
      exact ⟨hbegin, hcount, hle⟩
    · cases h
  · intro h
    obtain ⟨hbegin, hcount, hle⟩ := h
    simp only [hbegin, hcount]
    exact if_pos hle

/-- **The queries that name a page.** A query is taken exactly when each parameter is
missing, empty or spells a number of at most 32 bits and the count is at most 1000; the
page is then the one the two parameters stand for. -/
theorem readPagination_iff {queryParams : QueryParams} {pagination : PaginationInfo} :
    readPagination queryParams = some pagination ↔
      Reads 0 (queryParams (ascii "beginIterator")) pagination.beginIterator ∧
        Reads 100 (queryParams (ascii "count")) pagination.count ∧
        pagination.count.toNat ≤ 1000 := by
  rw [readPagination_eq_some, parseQueryParamWithDefault_iff, parseQueryParamWithDefault_iff]

end Sdb.L5
