import Sdb.L3Vm.Bounds

/-!
# Texts that make the parser leave the bounds

`Overruns text`: in a string that the parser comes to, an escape is reached that the
text ends in (`*(++pos)` is evaluated before `pos == end`), or that is a `\u` with
five digits (the loop's bound is 8, the buffer has 4).

* `readString_fatal_iff`, `parseLoop_fatal_iff`: the runs that end so;
* `parse_inBounds_iff`: parsing stays in bounds exactly for the other texts.
-/
namespace Sdb.L3

open Sdb.L1

/-- An escape that the reader follows out of bounds. -/
inductive Overrun : Bytes → Prop where
  /-- The text ends at the backslash. -/
  | backslash : Overrun [92]
  /-- The text ends before the character after the digits. -/
  | digits {letter : UInt8} {size maxDigits : Nat} {digits : Bytes}
    (hl : (letter, size, maxDigits) ∈ [((120 : UInt8), 2, 2), (117, 4, 8), (85, 8, 8)])
    (hx : ∀ d ∈ digits, isXDigit d = true) (hle : digits.length ≤ maxDigits) :
    Overrun (92 :: letter :: digits)
  /-- The fifth digit is written past the buffer. -/
  | fifth {digits : Bytes} (hx : ∀ d ∈ digits, isXDigit d = true) (hlen : digits.length = 5)
    (more : Bytes) : Overrun (92 :: 117 :: (digits ++ more))

/-- After the opening quote `q`, parts of a string and then such an escape. -/
def StringOverruns (q : UInt8) (pos : Bytes) : Prop :=
  ∃ v u bad, pos = u ++ bad ∧ Body readHex q [] v u ∧ Overrun bad

/-- What may stand before the first token of an expression: spaces, and expressions
with a bracket that is still open. -/
inductive Opens : Bytes → Prop where
  | spaces {sp : Bytes} (hsp : Spaces sp) : Opens sp
  | bracket {t : ExpressionNodeType} {e : Expr t} {sp w sp' pre : Bytes} (hsp : Spaces sp)
    (ht : t ≠ .number) (hw : Spells readHex e w) (hsp' : Spaces sp') (h : Opens pre) :
    Opens (sp ++ (w ++ sp' ++ 91 :: pre))

/-- The first string that the parser does not read to its end overruns. -/
def Overruns (text : Bytes) : Prop :=
  ∃ pre q pos, Opens pre ∧ (q = 34 ∨ q = 39) ∧ StringOverruns q pos ∧ text = pre ++ q :: pos

/-- The run that ended with `r` was left by such an error. -/
def IsFatal {α : Type} (r : Except ParseError α) : Prop := ∃ e, r = .error e ∧ Fatal e

theorem clean_iff {α : Type} {r : Except ParseError α} : Clean r ↔ ¬ IsFatal r := by
  simp [Clean, IsFatal]

theorem isFatal_error {α : Type} {e : ParseError} :
    IsFatal (.error e : Except ParseError α) ↔ Fatal e := by
  simp [IsFatal]

theorem isFatal_ok {α : Type} (a : α) : ¬ IsFatal (.ok a : Except ParseError α) := by
  simp [IsFatal]

/-! ## Digits -/

variable {q : UInt8} {eofError : String}

theorem escapeDigits_end {n : Nat} {digits : Bytes} (hx : ∀ d ∈ digits, isXDigit d = true)
    (hle : digits.length ≤ n) : escapeDigits eofError n digits = .error (.watch eofError []) := by
  induction digits generalizing n with
  | nil => cases n <;> rfl
  | cons d ds ih =>
    cases n with
    | zero => simp at hle
    | succ n =>
      have hrest := ih (fun d' hd' => hx d' (List.mem_cons_of_mem _ hd'))
        (Nat.le_of_succ_le_succ hle)
      simp [escapeDigits, hx d List.mem_cons_self, hrest]

/-- All the digits at the position are taken, up to the bound. -/
theorem escapeDigits_takes {n : Nat} {digits more taken pos' : Bytes}
    (hx : ∀ d ∈ digits, isXDigit d = true) (hle : digits.length ≤ n)
    (h : escapeDigits eofError n (digits ++ more) = .ok (taken, pos')) :
    digits.length ≤ taken.length := by
  obtain ⟨s, rest, -, hsplit, -, -, hmax⟩ := escapeDigits_ok h
  rcases List.append_eq_append_iff.mp hsplit with ⟨as, rfl, -⟩ | ⟨bs, rfl, hbs⟩
  · simp
  · cases bs with
    | nil => simp
    | cons b bs =>
      -- the character it has stopped at is a digit
      obtain ⟨rfl, -⟩ := List.cons.inj hbs
      have hs : isXDigit s = true := hx s (by simp)
      rcases hmax with hmax | hmax
      · simp only [List.length_append, List.length_cons] at hle
        omega
      · simp [hs] at hmax

theorem stringEscape_fatal_iff (heof : eofError = eofErrorOf 39 ∨ eofError = eofErrorOf 34)
    {letter : UInt8} {size maxDigits : Nat}
    (hl : (letter, size, maxDigits) ∈ [((120 : UInt8), 2, 2), (117, 4, 8), (85, 8, 8)])
    (pos : Bytes) :
    IsFatal (stringEscape eofError size maxDigits pos) ↔ Overrun (92 :: letter :: pos) := by
  have hfatal : IsFatal (.error (.watch eofError []) : Except ParseError (UInt8 × Bytes)) :=
    isFatal_error.mpr ⟨heof, rfl⟩
  constructor
  · intro hf
    obtain ⟨e, herr, hf⟩ := hf
    cases pos with
    | nil => exact .digits hl (by simp) (Nat.zero_le _)
    | cons c cs =>
      unfold stringEscape at herr
      dsimp only at herr
      split at herr
      · obtain rfl := Except.error.inj herr
        obtain ⟨-, hpos⟩ := hf
        cases hpos
      · split at herr
        · rename_i e' heq
          obtain ⟨-, hx, hle⟩ := escapeDigits_error heq
          exact .digits hl hx hle
        · rename_i digits pos' heq
          split at herr
          · rename_i hsize
            obtain ⟨d, rest, rfl, hsplit, hx, hle, -⟩ := escapeDigits_ok heq
            have hu : letter = 117 ∧ 5 ≤ digits.length := by
              simp only [List.mem_cons, Prod.mk.injEq, List.not_mem_nil, or_false] at hl
              rcases hl with ⟨rfl, rfl, rfl⟩ | ⟨rfl, rfl, rfl⟩ | ⟨rfl, rfl, rfl⟩
              · omega
              · exact ⟨rfl, hsize⟩
              · omega
            obtain ⟨rfl, hfive⟩ := hu
            have hfifth := Overrun.fifth (fun d hd => hx d (List.mem_of_mem_take hd))
              (List.length_take_of_le hfive) (digits.drop 5 ++ d :: rest)
            rw [← List.append_assoc, List.take_append_drop, ← hsplit] at hfifth
            exact hfifth
          · cases herr
  · intro hover
    cases hover with
    | @digits _ size' maxDigits' _ hl' hx hle =>
      obtain ⟨rfl, rfl⟩ := hexLetter_unique hl hl'
      cases pos with
      | nil => exact hfatal
      | cons c cs =>
        have hc : isXDigit c = true := hx c List.mem_cons_self
        simpa [stringEscape, hc, escapeDigits_end hx hle] using hfatal
    | @fifth digits hx hlen more =>
      obtain ⟨rfl, rfl⟩ := hexLetter_unique (by simp : ((117 : UInt8), 4, 8) ∈ _) hl
      cases digits with
      | nil => cases hlen
      | cons d ds =>
        have hd : isXDigit d = true := hx d List.mem_cons_self
        cases hdigits : escapeDigits eofError 8 (d :: ds ++ more) with
        | error e =>
          obtain ⟨rfl, -⟩ := escapeDigits_error hdigits
          rw [List.cons_append] at hdigits
          simpa [stringEscape, hd, hdigits] using hfatal
        | ok r =>
          obtain ⟨taken, pos'⟩ := r
          have htaken := escapeDigits_takes hx (by omega) hdigits
          have hlt : 4 < taken.length := by omega
          rw [List.cons_append] at hdigits
          have hundefined : IsFatal (.error .undefined : Except ParseError (UInt8 × Bytes)) :=
            isFatal_error.mpr trivial
          simpa [stringEscape, hd, hdigits, hlt] using hundefined

/-! ## Strings -/

theorem isFatal_pushed {r : Except ParseError (Bytes × Bytes)} (out : UInt8) :
    IsFatal (pushed out r) ↔ IsFatal r := by
  cases r with
  | ok p => exact iff_of_false (isFatal_ok _) (isFatal_ok p)
  | error e => exact isFatal_error.trans isFatal_error.symm

/-- One part of a string in front of one that overruns. -/
theorem StringOverruns.cons {out : UInt8} {pos : Bytes} (pre : Bytes) (h : StringOverruns q pos)
    (hpart : ∀ v u, Body readHex q [] v u → Body readHex q [] (out :: v) (pre ++ u)) :
    StringOverruns q (pre ++ pos) := by
  obtain ⟨v, u, bad, rfl, hbody, hbad⟩ := h
  exact ⟨out :: v, pre ++ u, bad, by simp, hpart v u hbody, hbad⟩

theorem stringOverruns_here {bad : Bytes} (h : Overrun bad) : StringOverruns q bad :=
  ⟨[], [], bad, rfl, .stop, h⟩

/-- An escape is followed out of bounds, or the rest of the string is, after the
character that is skipped. -/
theorem stringOverruns_escape (heof : eofError = eofErrorOf 39 ∨ eofError = eofErrorOf 34)
    {letter : UInt8} {size maxDigits : Nat}
    (hl : (letter, size, maxDigits) ∈ [((120 : UInt8), 2, 2), (117, 4, 8), (85, 8, 8)])
    {n : Nat} {pos : Bytes}
    (ih : ∀ pos, IsFatal (readStringLoop q eofError n pos) → StringOverruns q pos)
    (h : IsFatal (escaped (readStringLoop q eofError n)
      (stringEscape eofError size maxDigits pos))) :
    StringOverruns q (92 :: letter :: pos) := by
  cases hescape : stringEscape eofError size maxDigits pos with
  | error e =>
    rw [hescape] at h
    have hf : IsFatal (stringEscape eofError size maxDigits pos) :=
      ⟨e, hescape, isFatal_error.mp h⟩
    exact stringOverruns_here ((stringEscape_fatal_iff heof hl pos).mp hf)
  | ok r =>
    obtain ⟨out, pos'⟩ := r
    rw [hescape] at h
    have hrest : IsFatal (readStringLoop q eofError n pos'.tail) := (isFatal_pushed out).mp h
    have hpos : 0 < maxDigits := by
      simp only [List.mem_cons, Prod.mk.injEq, List.not_mem_nil, or_false] at hl
      omega
    obtain ⟨digits, s, tail, rfl, rfl, hne, hx, hsize, hmax, hout⟩ := stringEscape_ok hpos hescape
    have hhex : ∀ w, readHex out (letter :: (digits ++ [s])) w := fun w =>
      ⟨letter, size, maxDigits, digits, s, hl, hne, hx, hsize, hmax, rfl, hout⟩
    have hread := (ih tail hrest).cons (92 :: letter :: (digits ++ [s])) fun v u hbody =>
      Body.hex (hhex u) hbody
    simpa using hread

theorem stringOverruns_of_fatal (hq : q = 34 ∨ q = 39)
    (heof : eofError = eofErrorOf 39 ∨ eofError = eofErrorOf 34) (n : Nat) (pos : Bytes)
    (h : IsFatal (readStringLoop q eofError n pos)) : StringOverruns q pos := by
  induction n generalizing pos with
  | zero =>
    obtain ⟨e, herr, hf⟩ := h
    obtain rfl := Except.error.inj herr
    cases hf
  | succ n ih =>
    have hround := string_round q eofError n pos
    generalize readStringLoop q eofError (n + 1) pos = r at h hround
    cases hround with
    | ends => exact absurd h (isFatal_ok _)
    | close cs => exact absurd h (isFatal_ok _)
    | @raw c hs hn hcq cs =>
      have hne : c ≠ q := by
        intro heq
        exact hcq (heq ▸ hq) heq
      exact (ih cs ((isFatal_pushed c).mp h)).cons [c] fun v u hbody => .raw hne hs hn hbody
    | @simple e out he rest =>
      exact (ih rest ((isFatal_pushed out).mp h)).cons [92, e] fun v u hbody => .simple he hbody
    | hex hl rest => exact stringOverruns_escape heof hl ih h
    | cutOff => exact stringOverruns_here .backslash
    | refused what hpos => exact absurd (isFatal_error.mp h).2 hpos

/-- The reader gets to the escape that overruns. -/
theorem readStringLoop_fatal (heof : eofError = eofErrorOf 39 ∨ eofError = eofErrorOf 34)
    {v u bad : Bytes} (hbody : Body readHex q [] v u) (hbad : Overrun bad) (n : Nat)
    (hn : (u ++ bad).length < n) : IsFatal (readStringLoop q eofError n (u ++ bad)) := by
  induction hbody generalizing n with
  | stop =>
    cases n with
    | zero => cases hn
    | succ n =>
      have hescape : ∀ {letter : UInt8} {size maxDigits : Nat} {pos : Bytes},
          (letter, size, maxDigits) ∈ [((120 : UInt8), 2, 2), (117, 4, 8), (85, 8, 8)] →
          Overrun (92 :: letter :: pos) →
          IsFatal (readStringLoop q eofError (n + 1) (92 :: letter :: pos)) := by
        intro letter size maxDigits pos hl hover
        obtain ⟨e, herr, hf⟩ := (stringEscape_fatal_iff heof hl pos).mpr hover
        rw [readStringLoop_hex hl, herr]
        exact ⟨e, rfl, hf⟩
      cases hbad with
      | backslash => exact ⟨.watch eofError [], rfl, heof, rfl⟩
      | digits hl hx hle => exact hescape hl (.digits hl hx hle)
      | fifth hx hlen more =>
        exact hescape (List.mem_cons_of_mem _ List.mem_cons_self) (.fifth hx hlen more)
  | @raw c v u hcq hs hn10 _ ih =>
    cases n with
    | zero => cases hn
    | succ n =>
      rw [List.cons_append, readStringLoop_raw hs hn10 fun _ => hcq, isFatal_pushed]
      exact ih n (by simpa using hn)
  | @simple e c v u he _ ih =>
    cases n with
    | zero => cases hn
    | succ n =>
      rw [List.cons_append, List.cons_append, readStringLoop_simple he, isFatal_pushed]
      exact ih n (by simp at hn ⊢; omega)
  | @hex c e v u he _ ih =>
    cases n with
    | zero => cases hn
    | succ n =>
      obtain ⟨letter, size, maxDigits, digits, s, hl, hne, hx, hsize, hmax, rfl, rfl⟩ := he
      have hle : digits.length ≤ maxDigits := by
        simp only [List.mem_cons, Prod.mk.injEq, List.not_mem_nil, or_false] at hl
        omega
      have hescape := stringEscape_read eofError (u ++ bad) hne hx hsize hle hmax
      have hshape : (92 :: (letter :: (digits ++ [s]) ++ u)) ++ bad =
          92 :: letter :: (digits ++ s :: (u ++ bad)) := by simp
      rw [hshape, readStringLoop_hex hl, hescape]
      exact (isFatal_pushed _).mpr (ih n (by simp at hn ⊢; omega))

theorem readString_fatal_iff (hq : q = 34 ∨ q = 39) (pos : Bytes) :
    IsFatal (readString q pos) ↔ StringOverruns q pos := by
  have heof : eofErrorOf q = eofErrorOf 39 ∨ eofErrorOf q = eofErrorOf 34 := by
    rcases hq with rfl | rfl
    · exact .inr rfl
    · exact .inl rfl
  constructor
  · exact stringOverruns_of_fatal hq heof _ pos
  · intro h
    obtain ⟨v, u, bad, rfl, hbody, hbad⟩ := h
    exact readStringLoop_fatal heof hbody hbad _ (Nat.lt_succ_self _)

/-! ## Expressions -/

/-- The parser is left by such an error, whatever the bound of the loop. -/
def ParseOverruns (pos : Bytes) : Prop := ∀ n, pos.length < n → IsFatal (parseLoop n [] {} pos)

theorem parseOverruns_spaces {sp pos : Bytes} (hsp : Spaces sp) (h : ParseOverruns pos) :
    ParseOverruns (sp ++ pos) := by
  intro n hn
  obtain ⟨m, hm, heq⟩ := advances_spaces [] {} hsp pos n hn
  rw [heq]
  exact h m hm

theorem parseOverruns_string (hq : q = 34 ∨ q = 39) {pos : Bytes} (h : StringOverruns q pos) :
    ParseOverruns (q :: pos) := by
  intro n hn
  cases n with
  | zero => cases hn
  | succ n =>
    obtain ⟨e, herr, hf⟩ := (readString_fatal_iff hq pos).mpr h
    refine ⟨e, ?_, hf⟩
    rcases hq with rfl | rfl
    · simp [parseLoop, herr]
    · simp [parseLoop, herr]

/-- The error leaves the brackets that are open. -/
theorem parseOverruns_opens {pre pos : Bytes} (hpre : Opens pre) (h : ParseOverruns pos) :
    ParseOverruns (pre ++ pos) := by
  induction hpre with
  | spaces hsp => exact parseOverruns_spaces hsp h
  | @bracket t e sp w sp' pre hsp ht hw hsp' _ ih =>
    have hbracket : ParseOverruns (w ++ sp' ++ 91 :: (pre ++ pos)) := by
      intro n hn
      obtain ⟨m, hm, herr, -⟩ := bracket_round ht hw hsp' n hn
      obtain ⟨e, hinner, hf⟩ := ih m hm
      exact ⟨e, herr e hinner, hf⟩
    have hall := parseOverruns_spaces hsp hbracket
    simpa using hall

theorem overruns_string (hq : q = 34 ∨ q = 39) {pos : Bytes} (h : StringOverruns q pos) :
    Overruns (q :: pos) :=
  ⟨[], q, pos, .spaces spaces_nil, hq, h, rfl⟩

theorem Overruns.spaces {sp pos : Bytes} (hsp : Spaces sp) (h : Overruns pos) :
    Overruns (sp ++ pos) := by
  obtain ⟨pre, q, rest, hpre, hq, hstring, rfl⟩ := h
  refine ⟨sp ++ pre, q, rest, ?_, hq, hstring, by simp⟩
  cases hpre with
  | spaces hsp' => exact .spaces (spaces_append hsp hsp')
  | @bracket t e sp₁ w sp' pre hsp₁ ht hw hsp' hpre =>
    have hopens := Opens.bracket (spaces_append hsp hsp₁) ht hw hsp' hpre
    simpa using hopens

theorem overruns_bracket {t : ExpressionNodeType} {e : Expr t} {w sp pos : Bytes}
    (ht : t ≠ .number) (hw : Spells readHex e w) (hsp : Spaces sp) (h : Overruns pos) :
    Overruns (w ++ sp ++ 91 :: pos) := by
  obtain ⟨pre, q, rest, hpre, hq, hstring, rfl⟩ := h
  have hopens := Opens.bracket spaces_nil ht hw hsp hpre
  exact ⟨_, q, rest, hopens, hq, hstring, by simp⟩

/-- Where the parser is left by such an error, from the start of an expression and
from the end of one of its parts. -/
def OverrunsBelow (n : Nat) : Prop :=
  (∀ pos, IsFatal (parseLoop n [] {} pos) → Overruns pos) ∧
    ∀ (t : ExpressionNodeType) (e : Expr t) (w sp pos : Bytes), Spells readHex e w → Spaces sp →
      IsFatal (parseLoop n e.nodes.1 e.nodes.2 pos) → Overruns (w ++ sp ++ pos)

/-- An error of `ParseExpression` itself is thrown in bounds. -/
theorem not_isFatal_refused {α : Type} {what : String} {pos : Bytes}
    (hwhat : what ∈ expressionErrors) :
    ¬ IsFatal (.error (.watch what pos) : Except ParseError α) := by
  have hother : ∀ what ∈ expressionErrors, what ≠ eofErrorOf 39 ∧ what ≠ eofErrorOf 34 := by
    decide
  obtain ⟨h₁, h₂⟩ := hother what hwhat
  rw [isFatal_error]
  intro hf
  rcases hf.1 with heq | heq
  · exact h₁ heq
  · exact h₂ heq

theorem not_isFatal_fuel {α : Type} : ¬ IsFatal (.error .fuel : Except ParseError α) :=
  fun h => isFatal_error.mp h

/-- At the end of the text nothing more is read. -/
theorem not_isFatal_nil (n : Nat) (done : List Link) (current : Link) :
    ¬ IsFatal (parseLoop n done current []) := by
  cases n with
  | zero => exact not_isFatal_fuel
  | succ n =>
    rw [parseLoop_end]
    exact isFatal_ok _

theorem StartRound.overruns {n : Nat} (ih : OverrunsBelow n) {pos : Bytes}
    {r : Except ParseError (ExpressionNode × Bytes)} (hround : StartRound n pos r)
    (h : IsFatal r) : Overruns pos := by
  obtain ⟨ih₀, ih₁⟩ := ih
  cases hround with
  | ends => exact absurd h (isFatal_ok _)
  | space cs => exact (ih₀ cs h).spaces (spaces_cons spaces_nil)
  | token hw pos =>
    have hover := ih₁ _ _ _ [] pos hw spaces_nil h
    simpa using hover
  | openString hq hw => exact absurd h (not_isFatal_nil n _ _)
  | @stringError q cs err hq hstring =>
    have hf : IsFatal (readString q cs) := ⟨err, hstring, isFatal_error.mp h⟩
    exact overruns_string hq ((readString_fatal_iff hq cs).mp hf)
  | refused hwhat => exact absurd h (not_isFatal_refused hwhat)

/-- After a bracket, the error is one of the nested call, or one that comes after the
accessor it has read. -/
theorem overruns_index {n : Nat} (ih : OverrunsBelow n) {t : ExpressionNodeType} {e : Expr t}
    (ht : t ≠ .number) {w sp cs pos : Bytes} {accessor : ExpressionNode}
    (hw : Spells readHex e w) (hsp : Spaces sp)
    (hinner : parseLoop n [] {} cs = .ok (accessor, pos)) (ha : accessor.type ≠ .undefined)
    (h : IsFatal (parseLoop n (e.nodes.1 ++ [e.nodes.2])
      { type := .identifier, accessorExpression := accessor } pos)) :
    Overruns (w ++ sp ++ 91 :: cs) := by
  have hpos : pos ≠ [] := by
    intro hnil
    subst hnil
    exact not_isFatal_nil n _ _ h
  rcases (parsed_inv n).1 cs accessor pos hinner with ⟨sp₁, text, hsp₁, rfl, hends⟩ | ⟨-, -, hblank⟩
  · rcases hends with ⟨u, i, w', sp₂, hw', hsp₂, rfl, hclosed | ⟨-, hnil⟩⟩ | ⟨hnil, -⟩
    · subst hclosed
      have hover := ih.2 .identifier (.index e ht i)
        (w ++ sp ++ 91 :: (sp₁ ++ w' ++ sp₂ ++ [93])) [] pos
        (.index ht hw hsp hsp₁ hw' hsp₂) spaces_nil h
      simpa using hover
    · exact absurd hnil hpos
    · exact absurd hnil hpos
  · exact absurd hblank ha

theorem PartRound.overruns {n : Nat} (ih : ∀ m < n + 1, OverrunsBelow m)
    {t : ExpressionNodeType} {e : Expr t} {w sp pos : Bytes}
    {r : Except ParseError (ExpressionNode × Bytes)} (hw : Spells readHex e w) (hsp : Spaces sp)
    (hround : PartRound n e pos r) (h : IsFatal r) : Overruns (w ++ sp ++ pos) := by
  have ihn := ih n (Nat.lt_succ_self n)
  cases hround with
  | ends => exact absurd h (isFatal_ok _)
  | space _ cs =>
    have hover := ihn.2 t e w (sp ++ [32]) cs hw (spaces_append hsp (spaces_cons spaces_nil)) h
    simpa using hover
  | @field e name m hm pos =>
    have hover := (ih m (by omega)).2 .identifier (e.field name) (w ++ sp ++ 46 :: name.bytes) []
      pos (.field name hw hsp) spaces_nil h
    simpa using hover
  | @bracketError _ _ ht cs err hinner =>
    have hf : IsFatal (parseLoop n [] {} cs) := ⟨err, hinner, isFatal_error.mp h⟩
    exact overruns_bracket ht hw hsp (ihn.1 cs hf)
  | bracket _ ht hinner ha => exact overruns_index ihn ht hw hsp hinner ha h
  | close _ cs => exact absurd h (isFatal_ok _)
  | refused _ hwhat => exact absurd h (not_isFatal_refused hwhat)
  | fuel => exact absurd h not_isFatal_fuel

/-- **Where the parser leaves the bounds.** -/
theorem overruns_inv (n : Nat) : OverrunsBelow n := by
  induction n using Nat.strongRecOn with
  | ind n ih =>
    cases n with
    | zero =>
      exact ⟨fun _ h => absurd h not_isFatal_fuel,
        fun _ _ _ _ _ _ _ h => absurd h not_isFatal_fuel⟩
    | succ n =>
      exact ⟨fun pos h => (start_round n pos).overruns (ih n (Nat.lt_succ_self n)) h,
        fun _ e _ _ pos hw hsp h => (part_round n e pos).overruns ih hw hsp h⟩

theorem parseLoop_fatal_iff {n : Nat} {pos : Bytes} (hn : pos.length < n) :
    IsFatal (parseLoop n [] {} pos) ↔ Overruns pos := by
  constructor
  · exact (overruns_inv n).1 pos
  · intro h
    obtain ⟨pre, q, rest, hpre, hq, hstring, rfl⟩ := h
    exact parseOverruns_opens hpre (parseOverruns_string hq hstring) n hn

/-! ## The watch text -/

/-- Parsing stays in bounds: so do all the accesses, and what is returned or thrown is
a position between the begin and the end of the text. -/
def StaysInBounds (watch : Bytes) : Prop :=
  (∀ a ∈ watchAccesses watch, a.InBounds) ∧
    match parseExpression (watch.length + 1) watch with
    | .ok (_, pos) => pos <:+ watch
    | .error (.watch _ pos) => pos <:+ watch
    | .error _ => False

/-- **Parsing stays in bounds exactly if the text does not overrun**: in no string
that is read for its sake an escape ends with the text, or has five digits after
`\u`. -/
theorem parse_inBounds_iff (watch : Bytes) : StaysInBounds watch ↔ ¬ Overruns watch := by
  have hn := Nat.lt_succ_self watch.length
  have hsound := sound_parseLoop (watch.length + 1) [] {} watch hn
  have hiff : (∀ a ∈ watchAccesses watch, a.InBounds) ↔ ¬ Overruns watch := by
    rw [← parseLoop_fatal_iff hn, ← clean_iff]
    exact hsound.bounds
  unfold StaysInBounds
  rw [hiff]
  refine and_iff_left_of_imp fun hclean => ?_
  rw [← parseLoop_fatal_iff hn] at hclean
  have hwithin := hsound.within
  unfold parseExpression
  cases hread : parseLoop (watch.length + 1) [] {} watch with
  | ok r =>
    rw [hread] at hwithin
    exact hwithin
  | error e =>
    rw [hread] at hwithin hclean
    cases e with
    | watch what pos => exact hwithin
    | undefined => exact absurd ⟨.undefined, rfl, trivial⟩ hclean
    | fuel => exact hwithin

/-- `"\` is dereferenced at its end; `"\u12345"` has a fifth digit that is written to
index 4 of a buffer of size 4. -/
theorem parse_overruns :
    ¬ StaysInBounds [34, 92] ∧ .deref [] ∈ watchAccesses [34, 92] ∧
      ¬ StaysInBounds (ascii "\"\\u12345\"") ∧
      .write 4 4 ∈ watchAccesses (ascii "\"\\u12345\"") := by
  refine ⟨?_, by decide, ?_, by decide⟩
  · intro h
    exact h.1 (.deref []) (by decide) rfl
  · intro h
    exact absurd (h.1 (.write 4 4) (by decide)) (by simp)

end Sdb.L3
