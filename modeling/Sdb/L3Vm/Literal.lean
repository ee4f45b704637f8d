import Sdb.L3Vm.Grammar

/-!
# String literals

`Literal q s w`: after the opening quote `q`, `w` spells the string `s` and closes
it; a byte is itself, an escape of two characters, or `\x` with one or two digits
(`byteHex`). `ReadString` takes `\x` differently (`readHex`): one digit counts as if
a 0 followed, and the character after the digits is skipped. A `\x` is in step
(`inStepHex`) if it has its value all the same and what is left after the skipped
character is read as the rest of the literal.

* `readString_iff`: what `ReadString` has read;
* `inStep_of_spells`: up to the last `\x` a literal that is read back is in step;
* `literal_read_iff`: which literals are read back. After a `\x` that is out of step
  a later one can make up for it, as in `\x41\x78\x378\x377`.
-/
namespace Sdb.L3

open Sdb.L1

/-- `\x` with two digits, or with one before a character that is no digit. -/
def byteHex (c : UInt8) (e w : Bytes) : Prop :=
  ∃ digits, digits ≠ [] ∧ (∀ d ∈ digits, isXDigit d = true) ∧ digits.length ≤ 2 ∧
    (digits.length = 2 ∨ ∀ d ∈ w.head?, isXDigit d = false) ∧ e = 120 :: digits ∧
    c = UInt8.ofNat (xdigitsValue digits)

/-- `w` spells `s`, from after the opening quote `q` to the closing one. -/
def Literal (q : UInt8) (s w : Bytes) : Prop := Body byteHex q [q] s w

/-- `ReadString` returns `s`, and the position is after the closing quote. -/
def ReadBack (q : UInt8) (s w rest : Bytes) : Prop := readString q (w ++ rest) = .ok (s, rest)

/-- With `\x` as the source takes it, `w` spells `s` as well, up to the closing quote
or, where nothing follows it, to the end of the text. -/
def SpellsAsRead (q : UInt8) (s w rest : Bytes) : Prop :=
  Body readHex q [q] s w ∨ (rest = [] ∧ Body readHex q [] s w)

/-- Without its first character, which is a backslash, the text reads the same: that
backslash escapes the other quote, perhaps behind more that escape each other. -/
inductive Resyncs (q : UInt8) : Bytes → Prop where
  | quote {o : UInt8} (ho : o = 34 ∨ o = 39) (hne : o ≠ q) (w : Bytes) : Resyncs q (92 :: o :: w)
  | backslash {w : Bytes} (h : Resyncs q w) : Resyncs q (92 :: 92 :: w)

/-- `\x` with two digits or with the digit 0, in front of such a text or of the last
closing quote. -/
def inStepHex (q : UInt8) (rest : Bytes) (c : UInt8) (e w : Bytes) : Prop :=
  ∃ digits, (∀ d ∈ digits, isXDigit d = true) ∧ (digits.length = 2 ∨ digits = [48]) ∧
    e = 120 :: digits ∧ c = UInt8.ofNat (xdigitsValue digits) ∧
    (Resyncs q w ∨ (rest = [] ∧ w = [q]))

/-- The literal is in step from here on. -/
def InStep (q : UInt8) (s w rest : Bytes) : Prop := Body (inStepHex q rest) q [q] s w

/-- No `\x` at all. -/
def noHex (_ : UInt8) (_ _ : Bytes) : Prop := False

/-- A literal in which the first `\x` that is out of step, if there is one, has a wrong
value or is the last `\x`. -/
inductive OneSlip (q : UInt8) (rest : Bytes) : Bytes → Bytes → Prop where
  | stop : OneSlip q rest [] [q]
  | raw {c : UInt8} {s w : Bytes} (hq : c ≠ q) (hs : c ≠ 92) (hn : c ≠ 10)
    (h : OneSlip q rest s w) : OneSlip q rest (c :: s) (c :: w)
  | simple {e c : UInt8} {s w : Bytes} (he : simpleEscape e = some c) (h : OneSlip q rest s w) :
    OneSlip q rest (c :: s) (92 :: e :: w)
  | inStep {c : UInt8} {e s w : Bytes} (he : inStepHex q rest c e w) (h : OneSlip q rest s w) :
    OneSlip q rest (c :: s) (92 :: (e ++ w))
  | wrong {c d : UInt8} {s w : Bytes} (he : byteHex c [120, d] w) (hd : d ≠ 48)
    (h : Literal q s w) : OneSlip q rest (c :: s) (92 :: ([120, d] ++ w))
  | last {c : UInt8} {e s w : Bytes} (he : byteHex c e w) (h : Body noHex q [q] s w) :
    OneSlip q rest (c :: s) (92 :: (e ++ w))

variable {q : UInt8} {s w rest stop : Bytes}

theorem readString_iff (hq : q = 34 ∨ q = 39) {pos : Bytes} :
    readString q pos = .ok (s, rest) ↔ StringRead q pos s rest := by
  constructor
  · intro hread
    exact readStringLoop_ok hq _ hread
  · intro hread
    rcases hread with ⟨w, rfl, hw⟩ | ⟨rfl, hw⟩
    · exact readStringLoop_body hq hw (.inl rfl) _ (Nat.lt_succ_self _)
    · have hend : readString q (pos ++ []) = .ok (s, []) :=
        readStringLoop_body hq hw (.inr ⟨rfl, rfl⟩) _ (Nat.lt_succ_self _)
      rwa [List.append_nil] at hend

theorem readBack_iff (hq : q = 34 ∨ q = 39) :
    ReadBack q s w rest ↔ SpellsAsRead q s w rest := by
  unfold ReadBack SpellsAsRead
  rw [readString_iff hq]
  constructor
  · intro hread
    rcases hread with ⟨w', heq, hw⟩ | ⟨rfl, hw⟩
    · rw [List.append_cancel_right heq]
      exact .inl hw
    · rw [List.append_nil] at hw
      exact .inr ⟨rfl, hw⟩
  · intro hspells
    rcases hspells with hw | ⟨rfl, hw⟩
    · exact .inl ⟨w, rfl, hw⟩
    · rw [← List.append_nil w] at hw
      exact .inr ⟨rfl, hw⟩

/-- The two ways a string may end. -/
theorem spellsAsRead_iff : SpellsAsRead q s w rest ↔
    ∃ stop, (stop = [q] ∨ (stop = [] ∧ rest = [])) ∧ Body readHex q stop s w := by
  constructor
  · intro hspells
    rcases hspells with hw | ⟨hrest, hw⟩
    · exact ⟨[q], .inl rfl, hw⟩
    · exact ⟨[], .inr ⟨rfl, hrest⟩, hw⟩
  · intro hspells
    obtain ⟨stop, rfl | ⟨rfl, hrest⟩, hw⟩ := hspells
    · exact .inl hw
    · exact .inr ⟨hrest, hw⟩

/-! ## One part of a text, as it is read -/

theorem body_raw {c c' : UInt8} (hc : c ≠ 92) (h : Body readHex q stop (c' :: s) (c :: w)) :
    c ≠ q ∧ c' = c ∧ Body readHex q stop s w := by
  cases h with
  | raw hq _ _ h => exact ⟨hq, rfl, h⟩
  | simple _ _ => exact absurd rfl hc
  | hex _ _ => exact absurd rfl hc

/-- A backslash is read as an escape of two characters or as one with digits, and then
a character more is skipped. -/
theorem body_escape {c : UInt8} (h : Body readHex q stop (c :: s) (92 :: w)) :
    (∃ e w', w = e :: w' ∧ simpleEscape e = some c ∧ Body readHex q stop s w') ∨
      ∃ letter digits d w', simpleEscape letter = none ∧
        (letter = 120 ∨ letter = 117 ∨ letter = 85) ∧ (∀ d ∈ digits, isXDigit d = true) ∧
        w = letter :: (digits ++ d :: w') ∧ Body readHex q stop s w' := by
  cases h with
  | raw _ hs _ _ => exact absurd rfl hs
  | simple he h => exact .inl ⟨_, _, rfl, he, h⟩
  | hex he h =>
    obtain ⟨letter, size, maxDigits, digits, d, hl, -, hx, -, -, rfl, -⟩ := he
    have hsimple := simpleEscape_hex hl
    simp only [List.mem_cons, Prod.mk.injEq, List.not_mem_nil, or_false] at hl
    exact .inr ⟨letter, digits, d, _, hsimple, by tauto, hx, by simp, h⟩

theorem body_simple {c o e : UInt8} (he : simpleEscape e = some o)
    (h : Body readHex q stop (c :: s) (92 :: e :: w)) : c = o ∧ Body readHex q stop s w := by
  rcases body_escape h with ⟨e', w', heq, he', hrest⟩ | ⟨letter, _, _, _, hnone, -, -, heq, -⟩
  · obtain ⟨rfl, rfl⟩ := List.cons.inj heq
    exact ⟨Option.some.inj (he'.symm.trans he), hrest⟩
  · rw [(List.cons.inj heq).1, hnone] at he
    cases he

theorem xdigitValue_lt {d : UInt8} (hd : isXDigit d = true) :
    xdigitValue d < 16 ∧ (xdigitValue d = 0 → d = 48) := by
  simp only [isXDigit, isDigit, Bool.or_eq_true, Bool.and_eq_true, decide_eq_true_eq,
    UInt8.le_iff_toNat_le, UInt8.reduceToNat] at hd
  unfold xdigitValue
  simp only [isDigit, Bool.and_eq_true, decide_eq_true_eq, UInt8.le_iff_toNat_le,
    UInt8.reduceToNat, ← UInt8.toNat_inj]
  split
  · omega
  · split
    · omega
    · omega

/-- One digit has its value although a 0 is read behind it: the digit is 0. -/
theorem digit_eq_zero {d : UInt8} (hd : isXDigit d = true)
    (h : UInt8.ofNat (xdigitsValue [d]) = UInt8.ofNat (xdigitsValue [d, 48])) : d = 48 := by
  obtain ⟨hlt, hzero⟩ := xdigitValue_lt hd
  have hvalue : xdigitsValue [d] = xdigitValue d := by simp [xdigitsValue]
  have hvalue' : xdigitsValue [d, 48] = 16 * xdigitValue d := by
    simp [xdigitsValue, xdigitValue, isDigit]
  rw [hvalue, hvalue', ← UInt8.toNat_inj, UInt8.toNat_ofNat', UInt8.toNat_ofNat'] at h
  exact hzero (by omega)

/-- The digits the literal means are those that are read. -/
theorem digits_unique {digits digits' : Bytes} {d : UInt8} {tail : Bytes}
    (hx : ∀ d ∈ digits, isXDigit d = true) (hx' : ∀ d ∈ digits', isXDigit d = true)
    (hne : digits ≠ []) (hne' : digits' ≠ []) (hle : digits.length ≤ 2)
    (hle' : digits'.length ≤ 2)
    (hend : digits.length = 2 ∨ ∀ d ∈ w.head?, isXDigit d = false)
    (hend' : digits'.length = 2 ∨ isXDigit d = false)
    (heq : digits ++ w = digits' ++ d :: tail) : digits = digits' ∧ w = d :: tail := by
  have hpos := List.length_pos_iff.mpr hne
  have hpos' := List.length_pos_iff.mpr hne'
  apply List.append_inj heq
  by_contra hlength
  by_cases hone : digits.length = 1
  · -- the literal's one digit is followed by the other that is read
    obtain ⟨a, rfl⟩ := List.length_eq_one_iff.mp hone
    have htwo : digits'.length = 2 := by simp at hlength; omega
    obtain ⟨a', b', rfl⟩ := List.length_eq_two.mp htwo
    simp only [List.cons_append, List.nil_append, List.cons.injEq] at heq
    have hb := hx' b' (by simp)
    rw [heq.2] at hend
    simp [hb] at hend
  · have htwo : digits.length = 2 := by omega
    have hone' : digits'.length = 1 := by omega
    obtain ⟨a, b, rfl⟩ := List.length_eq_two.mp htwo
    obtain ⟨a', rfl⟩ := List.length_eq_one_iff.mp hone'
    simp only [List.cons_append, List.nil_append, List.cons.injEq] at heq
    have hb := hx b (by simp)
    rw [heq.2.1] at hb
    simp [hb] at hend'

/-- A `\x` that is read has its value, and a character after it is skipped. -/
theorem body_hex {c : UInt8} {e : Bytes} (he : byteHex c e w)
    (h : Body readHex q stop (c :: s) (92 :: (e ++ w))) :
    ∃ digits, (∀ d ∈ digits, isXDigit d = true) ∧ (digits.length = 2 ∨ digits = [48]) ∧
      e = 120 :: digits ∧ c = UInt8.ofNat (xdigitsValue digits) ∧ w ≠ [] ∧
      Body readHex q stop s w.tail := by
  obtain ⟨digits, hne, hx, hle, hend, rfl, hc⟩ := he
  generalize htext : (92 :: (120 :: digits ++ w) : Bytes) = text at h
  cases h with
  | raw _ hs _ _ =>
    simp only [List.cons.injEq] at htext
    exact absurd htext.1.symm hs
  | simple he' _ =>
    simp only [List.cons_append, List.cons.injEq, true_and] at htext
    rw [← htext.1] at he'
    cases he'
  | @hex _ _ _ tail hhex h =>
    obtain ⟨letter, size, maxDigits, digits', d, hl, hne', hx', hsize, hend', rfl, hc'⟩ := hhex
    simp only [List.cons_append, List.cons.injEq, true_and, List.append_assoc] at htext
    obtain ⟨rfl, heq⟩ := htext
    obtain ⟨rfl, rfl⟩ := hexLetter_unique (by simp : ((120 : UInt8), 2, 2) ∈ _) hl
    obtain ⟨rfl, rfl⟩ := digits_unique hx hx' hne hne' hle hsize hend hend' heq
    refine ⟨digits, hx, ?_, rfl, hc, by simp, h⟩
    by_contra hslip
    simp only [not_or] at hslip
    have hpos := List.length_pos_iff.mpr hne
    obtain ⟨a, rfl⟩ := List.length_eq_one_iff.mp (by omega : digits.length = 1)
    apply hslip.2
    rw [digit_eq_zero (hx a (by simp)) (hc.symm.trans hc')]

/-- Such a `\x` is read, if the rest is from after the character that is skipped. -/
theorem body_hex_read {digits : Bytes} (hx : ∀ d ∈ digits, isXDigit d = true)
    (hlen : digits.length = 2 ∨ digits = [48]) (hne : w ≠ [])
    (hend : digits.length = 2 ∨ ∀ d ∈ w.head?, isXDigit d = false)
    (h : Body readHex q stop s w.tail) :
    Body readHex q stop (UInt8.ofNat (xdigitsValue digits) :: s) (92 :: (120 :: digits ++ w)) := by
  cases w with
  | nil => exact absurd rfl hne
  | cons d tail =>
    have hread : readHex (UInt8.ofNat (xdigitsValue digits)) (120 :: (digits ++ [d])) tail := by
      refine ⟨120, 2, 2, digits, d, by simp, ?_, hx, ?_, ?_, rfl, ?_⟩
      · intro hnil
        simp [hnil] at hlen
      · rcases hlen with hlen | rfl
        · omega
        · simp
      · simpa using hend
      · rcases hlen with hlen | rfl
        · simp [hlen]
        · rfl
    have hshape : 92 :: (120 :: digits ++ d :: tail) = 92 :: (120 :: (digits ++ [d]) ++ tail) := by
      simp
    rw [hshape]
    exact .hex hread h

/-! ## In step and out of it -/

theorem body_nil {hex : UInt8 → Bytes → Bytes → Prop} (h : Body hex q stop [] w) : w = stop := by
  cases h
  rfl

theorem body_empty {hex : UInt8 → Bytes → Bytes → Prop} (h : Body hex q stop s []) : s = [] := by
  cases h
  rfl

/-- The closing quote is no byte of the string. -/
theorem body_quote {hex : UInt8 → Bytes → Bytes → Prop} (hq : q = 34 ∨ q = 39)
    (h : Body hex q stop s (q :: w)) : s = [] := by
  generalize htext : q :: w = text at h
  have h92 : q ≠ 92 := by rcases hq with rfl | rfl <;> decide
  cases h with
  | stop => rfl
  | raw hne _ _ _ => exact absurd (List.cons.inj htext).1.symm hne
  | simple _ _ => exact absurd (List.cons.inj htext).1 h92
  | hex _ _ => exact absurd (List.cons.inj htext).1 h92

theorem simpleEscape_self {e : UInt8} (he : simpleEscape e = some e) (h92 : e ≠ 92) :
    e = 34 ∨ e = 39 := by
  unfold simpleEscape at he
  grind

theorem simpleEscape_backslash {e : UInt8} (he : simpleEscape e = some 92) : e = 92 := by
  unfold simpleEscape at he
  grind

theorem Resyncs.length {w : Bytes} (hr : Resyncs q w) : 2 ≤ w.length := by
  cases hr <;> simp

theorem Resyncs.head {w : Bytes} (hr : Resyncs q w) : w = 92 :: w.tail := by
  cases hr <;> rfl

/-- After a skipped backslash the text reads the same. -/
theorem Resyncs.tail_iff (hstop : stop = [q] ∨ stop = []) (hr : Resyncs q w) :
    Body readHex q stop s w.tail ↔ Body readHex q stop s w := by
  induction hr generalizing s with
  | @quote o ho hne w =>
    have hself : simpleEscape o = some o := by rcases ho with rfl | rfl <;> rfl
    have hraw : o ≠ 92 ∧ o ≠ 10 := by rcases ho with rfl | rfl <;> decide
    cases s with
    | nil =>
      refine iff_of_false (fun h => ?_) fun h => ?_
      · have heq := body_nil h
        rcases hstop with rfl | rfl
        · exact hne (List.cons.inj heq).1
        · cases heq
      · have heq := body_nil h
        rcases hstop with rfl | rfl
        · cases (List.cons.inj heq).2
        · cases heq
    | cons c s =>
      constructor
      · intro h
        obtain ⟨-, rfl, hrest⟩ := body_raw hraw.1 h
        exact .simple hself hrest
      · intro h
        obtain ⟨rfl, hrest⟩ := body_simple hself h
        exact .raw hne hraw.1 hraw.2 hrest
  | @backslash w hr ih =>
    have hhead := hr.head
    have hlen := hr.length
    cases s with
    | nil =>
      refine iff_of_false (fun h => ?_) fun h => ?_
      · have heq := congrArg List.length (body_nil h)
        rcases hstop with rfl | rfl
        · simp only [List.tail_cons, List.length_cons, List.length_nil] at heq
          omega
        · cases heq
      · have heq := congrArg List.length (body_nil h)
        rcases hstop with rfl | rfl
        · simp only [List.length_cons, List.length_nil] at heq
          omega
        · cases heq
    | cons c s =>
      constructor
      · intro h
        rw [List.tail_cons, hhead] at h
        obtain ⟨rfl, hrest⟩ := body_simple rfl h
        exact .simple rfl (ih.mp hrest)
      · intro h
        obtain ⟨rfl, hrest⟩ := body_simple rfl h
        rw [List.tail_cons, hhead]
        exact .simple rfl (ih.mpr hrest)

/-- A literal without `\x` is read as it is meant. -/
theorem noHex_unique {v : Bytes} (hq : q = 34 ∨ q = 39) (hstop : stop = [q] ∨ stop = [])
    (hl : Body noHex q [q] s w) (h : Body readHex q stop v w) : v = s := by
  induction hl generalizing v with
  | stop => exact body_quote hq h
  | @raw c s w hcq hs _ _ ih =>
    cases v with
    | nil =>
      have heq := body_nil h
      rcases hstop with rfl | rfl
      · exact absurd (List.cons.inj heq).1 hcq
      · cases heq
    | cons c' v =>
      obtain ⟨-, rfl, hrest⟩ := body_raw hs h
      rw [ih hrest]
  | @simple e c s w he _ ih =>
    cases v with
    | nil =>
      have heq := body_nil h
      rcases hstop with rfl | rfl
      · cases (List.cons.inj heq).2
      · cases heq
    | cons c' v =>
      obtain ⟨rfl, hrest⟩ := body_simple he h
      rw [ih hrest]
  | hex he _ _ => exact he.elim

theorem xdigit_raw {d : UInt8} (hd : isXDigit d = true) : d ≠ 92 ∧ d ≠ 34 ∧ d ≠ 39 := by
  simp only [isXDigit, isDigit, Bool.or_eq_true, Bool.and_eq_true, decide_eq_true_eq,
    UInt8.le_iff_toNat_le, UInt8.reduceToNat] at hd
  simp only [ne_eq, ← UInt8.toNat_inj, UInt8.reduceToNat]
  omega

/-- Bytes that are neither a backslash nor the quote are bytes of the string. -/
theorem noHex_raws {u : Bytes} (hu : ∀ c ∈ u, c ≠ 92 ∧ c ≠ q) (hl : Body noHex q [q] s (u ++ w)) :
    ∃ s', s.length = u.length + s'.length ∧ Body noHex q [q] s' w := by
  induction u generalizing s with
  | nil => exact ⟨s, by simp, hl⟩
  | cons c u ih =>
    obtain ⟨hc, hcq⟩ := hu c List.mem_cons_self
    rw [List.cons_append] at hl
    generalize htext : c :: (u ++ w) = text at hl
    cases hl with
    | stop => exact absurd (List.cons.inj htext).1 hcq
    | raw _ _ _ h =>
      obtain ⟨-, rfl⟩ := List.cons.inj htext
      obtain ⟨s', hlen, h'⟩ := ih (fun c' hc' => hu c' (List.mem_cons_of_mem _ hc')) h
      exact ⟨s', by simp only [List.length_cons]; omega, h'⟩
    | simple _ _ => exact absurd (List.cons.inj htext).1 hc
    | hex he _ => exact he.elim

/-- The letter of an escape and digits, as bytes of the string. -/
theorem noHex_digits {letter : UInt8} {digits : Bytes} (hq : q = 34 ∨ q = 39)
    (hletter : letter = 120 ∨ letter = 117 ∨ letter = 85) (hx : ∀ d ∈ digits, isXDigit d = true)
    (hl : Body noHex q [q] s (letter :: (digits ++ w))) :
    ∃ s', s'.length < s.length ∧ Body noHex q [q] s' w := by
  have hraws : ∀ c ∈ letter :: digits, c ≠ 92 ∧ c ≠ q := by
    intro c hc
    rcases List.mem_cons.mp hc with rfl | hc
    · rcases hletter with rfl | rfl | rfl <;> rcases hq with rfl | rfl <;> decide
    · have hraw := xdigit_raw (hx c hc)
      rcases hq with rfl | rfl
      · exact ⟨hraw.1, hraw.2.1⟩
      · exact ⟨hraw.1, hraw.2.2⟩
  obtain ⟨s', hlen, hl'⟩ := noHex_raws hraws hl
  exact ⟨s', by simp only [List.length_cons] at hlen; omega, hl'⟩

/-- After a character that is skipped no more is read than the literal has from there
on. -/
theorem length_le_of_skip (hq : q = 34 ∨ q = 39) (hstop : stop = [q] ∨ stop = []) (n : Nat) :
    ∀ {s v w : Bytes} {d : UInt8}, w.length ≤ n → Body noHex q [q] s (d :: w) →
      Body readHex q stop v w → v.length ≤ s.length := by
  induction n using Nat.strongRecOn with
  | ind n ih =>
    intro s v w d hn hl h
    cases hl with
    | stop => simp [body_empty h]
    | raw _ _ _ hl =>
      rw [noHex_unique hq hstop hl h]
      simp
    | @simple e c s w he hl =>
      cases v with
      | nil => simp
      | cons c' v =>
        by_cases h92 : e = 92
        · -- a backslash is left, which escapes what follows
          subst h92
          rw [List.length_cons] at hn
          rcases body_escape h with ⟨e', w', rfl, -, hrest⟩ |
            ⟨letter, digits, d', w', -, hletter, hx, rfl, hrest⟩
          · have hle := ih w'.length (by simp at hn; omega) (Nat.le_refl _) hl hrest
            simpa using hle
          · obtain ⟨s', hlen, hl'⟩ := noHex_digits hq hletter hx hl
            have hle := ih w'.length (by simp at hn; omega) (Nat.le_refl _) hl' hrest
            simp only [List.length_cons]
            omega
        · obtain ⟨-, -, hrest⟩ := body_raw h92 h
          rw [noHex_unique hq hstop hl hrest]
          simp
    | hex he _ => exact he.elim

/-- The last `\x` of a literal is read back only if it is in step. -/
theorem resyncs_of_noHex (hq : q = 34 ∨ q = 39) (hstop : stop = [q] ∨ stop = [])
    (hl : Body noHex q [q] s w) (h : Body readHex q stop s w.tail) :
    (stop = [] ∧ w = [q]) ∨ Resyncs q w := by
  have h92 : q ≠ 92 := by rcases hq with rfl | rfl <;> decide
  induction hl with
  | stop => exact .inl ⟨(body_nil h).symm, rfl⟩
  | @raw c s w _ _ _ hl _ =>
    -- the byte that is skipped is missing
    have hsame := congrArg List.length (noHex_unique hq hstop hl h)
    simp at hsame
  | @simple e c s w he hl ih =>
    right
    by_cases hbackslash : e = 92
    · subst hbackslash
      obtain rfl : 92 = c := Option.some.inj he
      rcases body_escape h with ⟨e', w', rfl, he', hrest⟩ |
        ⟨letter, digits, d, w', -, hletter, hx, rfl, hrest⟩
      · obtain rfl := simpleEscape_backslash he'
        rcases ih hrest with ⟨-, hclose⟩ | hr
        · exact absurd (List.cons.inj hclose).1.symm h92
        · exact .backslash hr
      · -- digits that the literal has as bytes are lost
        obtain ⟨s', hlen, hl'⟩ := noHex_digits hq hletter hx hl
        have hle := length_le_of_skip hq hstop _ (Nat.le_refl _) hl' hrest
        omega
    · obtain ⟨hne, rfl, -⟩ := body_raw hbackslash h
      exact .quote (simpleEscape_self he hbackslash) hne w
  | hex he _ _ => exact he.elim

/-! ## Main result -/

theorem not_xdigit_of_step (hq : q = 34 ∨ q = 39) (h : Resyncs q w ∨ (rest = [] ∧ w = [q])) :
    ∀ d ∈ w.head?, isXDigit d = false := by
  intro d hd
  rcases h with hr | ⟨-, rfl⟩
  · rw [hr.head] at hd
    obtain rfl : 92 = d := by simpa using hd
    rfl
  · obtain rfl : q = d := by simpa using hd
    rcases hq with rfl | rfl <;> rfl

theorem byteHex_of_inStep {c : UInt8} {e : Bytes} (hq : q = 34 ∨ q = 39)
    (he : inStepHex q rest c e w) : byteHex c e w := by
  obtain ⟨digits, hx, hlen, rfl, rfl, hstep⟩ := he
  refine ⟨digits, ?_, hx, ?_, .inr (not_xdigit_of_step hq hstep), rfl, rfl⟩
  · intro hnil
    simp [hnil] at hlen
  · rcases hlen with hlen | rfl
    · omega
    · simp

/-- A literal that is in step is read back. -/
theorem spells_of_inStep (hq : q = 34 ∨ q = 39) (hl : InStep q s w rest) :
    SpellsAsRead q s w rest := by
  rw [spellsAsRead_iff]
  unfold InStep at hl
  induction hl with
  | stop => exact ⟨[q], .inl rfl, .stop⟩
  | raw hcq hs hn _ ih =>
    obtain ⟨stop, hstop, h⟩ := ih
    exact ⟨stop, hstop, .raw hcq hs hn h⟩
  | simple he _ ih =>
    obtain ⟨stop, hstop, h⟩ := ih
    exact ⟨stop, hstop, .simple he h⟩
  | hex he hl ih =>
    obtain ⟨digits, hx, hlen, rfl, rfl, hstep⟩ := he
    have hend := not_xdigit_of_step hq hstep
    rcases hstep with hr | ⟨hrest, rfl⟩
    · obtain ⟨stop, hstop, h⟩ := ih
      have htail := (hr.tail_iff (hstop.imp_right And.left)).mpr h
      have hne := List.ne_nil_of_length_pos (Nat.lt_of_lt_of_le Nat.two_pos hr.length)
      exact ⟨stop, hstop, body_hex_read hx hlen hne (.inr hend) htail⟩
    · -- the closing quote is skipped, and the text ends
      obtain rfl := body_quote hq hl
      exact ⟨[], .inr ⟨rfl, hrest⟩, body_hex_read hx hlen (by simp) (.inr hend) .stop⟩

/-- A literal without `\x` is in step. -/
theorem inStep_of_noHex (hl : Body noHex q [q] s w) : InStep q s w rest := by
  unfold InStep
  induction hl with
  | stop => exact .stop
  | raw hcq hs hn _ ih => exact .raw hcq hs hn ih
  | simple he _ ih => exact .simple he ih
  | hex he _ _ => exact he.elim

/-- Up to its last `\x` a literal that is read back is in step. -/
theorem inStep_of_spells (hq : q = 34 ∨ q = 39) (hl : OneSlip q rest s w)
    (hspells : SpellsAsRead q s w rest) : InStep q s w rest := by
  rw [spellsAsRead_iff] at hspells
  obtain ⟨stop, hstop, h⟩ := hspells
  have hends : stop = [q] ∨ stop = [] := hstop.imp_right And.left
  unfold InStep
  induction hl with
  | stop => exact .stop
  | raw hcq hs hn _ ih => exact .raw hcq hs hn (ih (body_raw hs h).2.2)
  | simple he _ ih => exact .simple he (ih (body_simple he h).2)
  | inStep he hl ih =>
    obtain ⟨-, -, -, -, -, -, hrest⟩ := body_hex (byteHex_of_inStep hq he) h
    refine .hex he ?_
    obtain ⟨-, -, -, -, -, hr | ⟨-, rfl⟩⟩ := he
    · exact ih ((hr.tail_iff hends).mp hrest)
    · obtain rfl := body_empty hrest
      exact .stop
  | wrong he hd _ =>
    obtain ⟨digits, -, hlen, heq, -, -, -⟩ := body_hex he h
    obtain rfl := (List.cons.inj heq).2
    simp [hd] at hlen
  | last he hl =>
    obtain ⟨digits, hx, hlen, rfl, hc, -, hrest⟩ := body_hex he h
    refine .hex ⟨digits, hx, hlen, rfl, hc, ?_⟩ (inStep_of_noHex hl)
    rcases resyncs_of_noHex hq hends hl hrest with ⟨rfl, hclose⟩ | hr
    · rcases hstop with hstop | ⟨-, hnil⟩
      · cases hstop
      · exact .inr ⟨hnil, hclose⟩
    · exact .inl hr

/-- **Which literals are read back.** Those that are in step; of the literals with one slip
no others; and in general those that spell their string as the source takes `\x` too. -/
theorem literal_read_iff (hq : q = 34 ∨ q = 39) : ∀ s w, Literal q s w → ∀ rest,
    (InStep q s w rest → ReadBack q s w rest) ∧
    (OneSlip q rest s w → (ReadBack q s w rest ↔ InStep q s w rest)) ∧
    (ReadBack q s w rest ↔ SpellsAsRead q s w rest) := by
  intro s w _ rest
  refine ⟨?_, ?_, readBack_iff hq⟩
  · intro hl
    exact (readBack_iff hq).mpr (spells_of_inStep hq hl)
  · intro hl
    rw [readBack_iff hq]
    exact ⟨inStep_of_spells hq hl, spells_of_inStep hq⟩

/-- Two slips that make up for each other. -/
example : ReadBack 34 (ascii "Ax7877") (ascii "\\x41\\x78\\x378\\x377\"") [] := by
  unfold ReadBack
  decide

theorem xdigits_fourOne : ∀ d ∈ ([52, 49] : Bytes), isXDigit d = true := by
  simp [isXDigit, isDigit]

/-- `\x41\"' + 1` in single quotes. -/
theorem literal_read_quote : Literal 39 (ascii "A\"") (ascii "\\x41\\\"'") ∧
    OneSlip 39 (ascii " + 1") (ascii "A\"") (ascii "\\x41\\\"'") ∧
    ReadBack 39 (ascii "A\"") (ascii "\\x41\\\"'") (ascii " + 1") := by
  have hbyte : ∀ w, byteHex 65 [120, 52, 49] w := fun w =>
    ⟨[52, 49], by simp, xdigits_fourOne, by simp, .inl rfl, rfl, rfl⟩
  have hliteral : Literal 39 (ascii "A\"") (ascii "\\x41\\\"'") :=
    .hex (e := [120, 52, 49]) (hbyte _) (.simple rfl .stop)
  have hslip : OneSlip 39 (ascii " + 1") (ascii "A\"") (ascii "\\x41\\\"'") :=
    .last (e := [120, 52, 49]) (hbyte _) (.simple rfl .stop)
  have hstep : InStep 39 (ascii "A\"") (ascii "\\x41\\\"'") (ascii " + 1") :=
    .hex (e := [120, 52, 49]) ⟨[52, 49], xdigits_fourOne, .inl rfl, rfl, rfl,
      .inl (.quote (.inl rfl) (by decide) _)⟩ (.simple rfl .stop)
  exact ⟨hliteral, hslip, ((literal_read_iff (.inr rfl) _ _ hliteral _).2.1 hslip).mpr hstep⟩

/-- `\x41b` spells `Ab`, and `A` is read. -/
theorem literal_notReadBack :
    ¬ ∀ s w rest, Literal 34 s w → ReadBack 34 s w rest := by
  intro hall
  have hliteral : Literal 34 (ascii "Ab") (ascii "\\x41b\"") :=
    .hex (e := [120, 52, 49]) ⟨[52, 49], by simp, xdigits_fourOne, by simp, .inl rfl, rfl, rfl⟩
      (.raw (by decide) (by decide) (by decide) .stop)
  have hread := hall _ _ [] hliteral
  revert hread
  unfold ReadBack
  decide

end Sdb.L3
