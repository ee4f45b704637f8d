import Sdb.L3Vm.Accepted

/-!
# The grammar of watch expressions

An expression is a root (identifier, number or string) followed by suffixes, a
`.identifier` after an identifier or a bracket, and a `[expression]` after
anything but a number. `Expr` is indexed by the type of its last token, so that
no other expression can be built.

`Spells hex e w` says that `w` is a text of `e`. What an escape with hexadecimal
digits is, is the parameter `hex`: `plainHex` is the letter and its digits;
`readHex` is what `ReadString` takes for it, one character more.

* `parse_spells`: from the first character of a text of `e` the parser gets to
  the last node of `e`, and stops where the text ends;
* `parse_print`: parsing undoes printing.
-/
namespace Sdb.L3

open Sdb.L1

/-! ## Expressions -/

def isIdentifierChar (c : UInt8) : Bool := isAlnum c || c = 95

structure Identifier where
  bytes : Bytes
  head : ∃ c cs, bytes = c :: cs ∧ (isAlpha c = true ∨ c = 95)
  all : ∀ c ∈ bytes, isIdentifierChar c = true

/-- The identifier that is this letter. -/
def Identifier.letter (c : UInt8) (h : isAlpha c = true) : Identifier :=
  ⟨[c], ⟨c, [], rfl, .inl h⟩, by simp [isIdentifierChar, isAlnum, h]⟩

structure Number where
  bytes : Bytes
  nonempty : bytes ≠ []
  all : ∀ c ∈ bytes, isDigit c = true

/-- Expressions, by the type of the last node the parser builds for them. -/
inductive Expr : ExpressionNodeType → Type where
  | identifier (name : Identifier) : Expr .identifier
  | number (digits : Number) : Expr .number
  | string (value : Bytes) : Expr .string
  | field (e : Expr .identifier) (name : Identifier) : Expr .identifier
  | index {t u : ExpressionNodeType} (e : Expr t) (ht : t ≠ .number) (accessor : Expr u) :
    Expr .identifier

/-- The nodes of an expression: those before the last, and the last. -/
def Expr.nodes : {t : ExpressionNodeType} → Expr t → List Link × Link
  | _, .identifier name => ([], { type := .identifier, accessorValue := name.bytes })
  | _, .number digits => ([], { type := .number, accessorValue := digits.bytes })
  | _, .string value => ([], { type := .string, accessorValue := value })
  | _, .field e name =>
    (e.nodes.1 ++ [e.nodes.2], { type := .identifier, accessorValue := name.bytes })
  | _, .index e _ accessor =>
    (e.nodes.1 ++ [e.nodes.2],
      { type := .identifier,
        accessorExpression := chain (accessor.nodes.1 ++ [accessor.nodes.2]) })

/-- The tree of an expression. -/
def Expr.tree {t : ExpressionNodeType} (e : Expr t) : ExpressionNode :=
  chain (e.nodes.1 ++ [e.nodes.2])

@[simp] theorem Expr.type_last {t : ExpressionNodeType} (e : Expr t) : e.nodes.2.type = t := by
  cases e <;> rfl

/-- No expression is empty. -/
theorem Expr.type_defined {t : ExpressionNodeType} (e : Expr t) : t ≠ .undefined := by
  cases e <;> simp

/-- The tree starts with the root's node. -/
theorem Expr.nodes_head {t : ExpressionNodeType} (e : Expr t) :
    ∃ l ls, e.nodes.1 ++ [e.nodes.2] = l :: ls ∧ l.type ≠ .undefined := by
  induction e with
  | identifier name => exact ⟨_, _, rfl, by simp⟩
  | number digits => exact ⟨_, _, rfl, by simp⟩
  | string value => exact ⟨_, _, rfl, by simp⟩
  | field e name ih =>
    obtain ⟨l, ls, hnodes, hl⟩ := ih
    refine ⟨l, ls ++ [(Expr.field e name).nodes.2], ?_, hl⟩
    simp only [nodes, hnodes, List.cons_append]
  | index e ht accessor ih _ =>
    obtain ⟨l, ls, hnodes, hl⟩ := ih
    refine ⟨l, ls ++ [(Expr.index e ht accessor).nodes.2], ?_, hl⟩
    simp only [nodes, hnodes, List.cons_append]

theorem Expr.type_tree {t : ExpressionNodeType} (e : Expr t) : e.tree.type ≠ .undefined := by
  obtain ⟨l, ls, hnodes, hl⟩ := e.nodes_head
  rw [tree, hnodes]
  exact hl

/-! ## Texts -/

def Spaces (w : Bytes) : Prop := ∀ c ∈ w, c = 32

/-- A text of a string from after its opening quote `q` up to `stop`. -/
inductive Body (hex : UInt8 → Bytes → Bytes → Prop) (q : UInt8) (stop : Bytes) :
    Bytes → Bytes → Prop where
  | stop : Body hex q stop [] stop
  | raw {c : UInt8} {v w : Bytes} (hq : c ≠ q) (hs : c ≠ 92) (hn : c ≠ 10)
    (h : Body hex q stop v w) : Body hex q stop (c :: v) (c :: w)
  | simple {e c : UInt8} {v w : Bytes} (he : simpleEscape e = some c)
    (h : Body hex q stop v w) : Body hex q stop (c :: v) (92 :: e :: w)
  | hex {c : UInt8} {e v w : Bytes} (he : hex c e w) (h : Body hex q stop v w) :
    Body hex q stop (c :: v) (92 :: (e ++ w))

/-- `w` is a text of the expression. -/
inductive Spells (hex : UInt8 → Bytes → Bytes → Prop) :
    {t : ExpressionNodeType} → Expr t → Bytes → Prop where
  | identifier (name : Identifier) : Spells hex (.identifier name) name.bytes
  | number (digits : Number) : Spells hex (.number digits) digits.bytes
  | string {q : UInt8} {v w : Bytes} (hq : q = 34 ∨ q = 39) (h : Body hex q [q] v w) :
    Spells hex (.string v) (q :: w)
  | field {e : Expr .identifier} {w sp : Bytes} (name : Identifier) (h : Spells hex e w)
    (hsp : Spaces sp) : Spells hex (.field e name) (w ++ sp ++ 46 :: name.bytes)
  | index {t u : ExpressionNodeType} {e : Expr t} {accessor : Expr u} {w w' sp sp₁ sp₂ : Bytes}
    (ht : t ≠ .number) (h : Spells hex e w) (hsp : Spaces sp) (hsp₁ : Spaces sp₁)
    (h' : Spells hex accessor w') (hsp₂ : Spaces sp₂) :
    Spells hex (.index e ht accessor) (w ++ sp ++ 91 :: (sp₁ ++ w' ++ sp₂ ++ [93]))

/-- What `ReadString` takes for an escape with hexadecimal digits: the letter, as
many digits as there are up to the bound of the loop, and the character after
them. Digits beyond those of the number are written past its end. -/
def readHex (c : UInt8) (e _ : Bytes) : Prop :=
  ∃ letter size maxDigits digits swallowed,
    (letter, size, maxDigits) ∈ [((120 : UInt8), 2, 2), (117, 4, 8), (85, 8, 8)] ∧
      digits ≠ [] ∧ (∀ d ∈ digits, isXDigit d = true) ∧ digits.length ≤ size ∧
      (digits.length = maxDigits ∨ isXDigit swallowed = false) ∧
      e = letter :: (digits ++ [swallowed]) ∧
      c = UInt8.ofNat (xdigitsValue (digits ++ List.replicate (size - digits.length) 48))

/-- An escape with hexadecimal digits: the letter, and as many digits as there
are up to the width of the number. -/
def plainHex (c : UInt8) (e w : Bytes) : Prop :=
  ∃ letter size digits, (letter, size) ∈ [((120 : UInt8), 2), (117, 4), (85, 8)] ∧
    digits ≠ [] ∧ (∀ d ∈ digits, isXDigit d = true) ∧ digits.length ≤ size ∧
    (digits.length = size ∨ ∀ d ∈ w.head?, isXDigit d = false) ∧ e = letter :: digits ∧
    c = UInt8.ofNat (xdigitsValue digits)

/-! ## Reading a string -/

theorem escapeDigits_read (eofError : String) (n : Nat) (rest : Bytes) {digits : Bytes} {s : UInt8}
    (hx : ∀ d ∈ digits, isXDigit d = true) (hle : digits.length ≤ n)
    (hmax : digits.length = n ∨ isXDigit s = false) :
    escapeDigits eofError n (digits ++ s :: rest) = .ok (digits, s :: rest) := by
  induction digits generalizing n with
  | nil =>
    cases n with
    | zero => rfl
    | succ n =>
      have hs : isXDigit s = false := by simpa using hmax
      simp [escapeDigits, hs]
  | cons d ds ih =>
    cases n with
    | zero => simp at hle
    | succ n =>
      have hd : isXDigit d = true := hx d List.mem_cons_self
      have hrest := ih n (fun d' hd' => hx d' (List.mem_cons_of_mem _ hd')) (by simpa using hle)
        (by simpa using hmax)
      simp [escapeDigits, hd, hrest]

theorem escapeDigits_ok {eofError : String} {n : Nat} {pos digits pos' : Bytes}
    (h : escapeDigits eofError n pos = .ok (digits, pos')) :
    ∃ s rest, pos' = s :: rest ∧ pos = digits ++ s :: rest ∧
      (∀ d ∈ digits, isXDigit d = true) ∧ digits.length ≤ n ∧
      (digits.length = n ∨ isXDigit s = false) := by
  induction pos generalizing n digits with
  | nil => cases n <;> cases h
  | cons c cs ih =>
    cases n with
    | zero =>
      simp only [escapeDigits, Except.ok.injEq, Prod.mk.injEq] at h
      obtain ⟨rfl, rfl⟩ := h
      exact ⟨c, cs, rfl, rfl, by simp, by simp, .inl rfl⟩
    | succ n =>
      unfold escapeDigits at h
      split at h
      · rename_i hc
        split at h
        · rename_i digits' pos'' heq
          simp only [Except.ok.injEq, Prod.mk.injEq] at h
          obtain ⟨rfl, rfl⟩ := h
          obtain ⟨s, rest, rfl, rfl, hx, hle, hmax⟩ := ih heq
          refine ⟨s, rest, rfl, rfl, ?_, by simpa using hle, by simpa using hmax⟩
          intro d hd
          rcases List.mem_cons.mp hd with rfl | hd
          · exact hc
          · exact hx d hd
        · cases h
      · rename_i hc
        simp only [Except.ok.injEq, Prod.mk.injEq] at h
        obtain ⟨rfl, rfl⟩ := h
        exact ⟨c, cs, rfl, rfl, by simp, by simp, .inr (by simpa using hc)⟩

theorem stringEscape_read (eofError : String) (rest : Bytes) {size maxDigits : Nat}
    {digits : Bytes} {s : UInt8} (hne : digits ≠ []) (hx : ∀ d ∈ digits, isXDigit d = true)
    (hsize : digits.length ≤ size) (hle : digits.length ≤ maxDigits)
    (hmax : digits.length = maxDigits ∨ isXDigit s = false) :
    stringEscape eofError size maxDigits (digits ++ s :: rest) =
      .ok (UInt8.ofNat (xdigitsValue (digits ++ List.replicate (size - digits.length) 48)),
        s :: rest) := by
  have hread := escapeDigits_read eofError maxDigits rest hx hle hmax
  cases digits with
  | nil => exact absurd rfl hne
  | cons d ds =>
    have hd : isXDigit d = true := hx d List.mem_cons_self
    have hsize' : ¬ size < (d :: ds).length := by omega
    rw [List.cons_append] at hread
    simp only [List.cons_append, stringEscape, hd, hread, hsize', Bool.not_true,
      Bool.false_eq_true, if_false]

theorem stringEscape_ok {eofError : String} {size maxDigits : Nat} {pos pos' : Bytes} {c : UInt8}
    (hpos : 0 < maxDigits) (h : stringEscape eofError size maxDigits pos = .ok (c, pos')) :
    ∃ digits s rest, pos' = s :: rest ∧ pos = digits ++ s :: rest ∧ digits ≠ [] ∧
      (∀ d ∈ digits, isXDigit d = true) ∧ digits.length ≤ size ∧
      (digits.length = maxDigits ∨ isXDigit s = false) ∧
      c = UInt8.ofNat (xdigitsValue (digits ++ List.replicate (size - digits.length) 48)) := by
  cases pos with
  | nil => cases h
  | cons d ds =>
    unfold stringEscape at h
    dsimp only at h
    split at h
    · cases h
    · rename_i hd
      split at h
      · cases h
      · rename_i digits pos'' heq
        split at h
        · cases h
        · rename_i hsize
          simp only [Except.ok.injEq, Prod.mk.injEq] at h
          obtain ⟨rfl, rfl⟩ := h
          obtain ⟨s, rest, rfl, hsplit, hx, hle, hmax⟩ := escapeDigits_ok heq
          refine ⟨digits, s, rest, rfl, hsplit, ?_, hx, by omega, hmax, rfl⟩
          -- the first character is a digit
          intro hnil
          subst hnil
          simp only [List.nil_append, List.cons.injEq] at hsplit
          obtain ⟨rfl, -⟩ := hsplit
          rcases hmax with hmax | hmax
          · simp at hmax
            omega
          · simp [hmax] at hd

/-! ### The loop -/

/-- A text of a string is read to its end: past its quote, or to the end of the
watch text. -/
theorem readStringLoop_body {q : UInt8} {eofError : String} {stop v w rest : Bytes}
    (hq : q = 34 ∨ q = 39) (h : Body readHex q stop v w)
    (hstop : stop = [q] ∨ (stop = [] ∧ rest = [])) (n : Nat) (hn : (w ++ rest).length < n) :
    readStringLoop q eofError n (w ++ rest) = .ok (v, rest) := by
  induction h generalizing n with
  | stop =>
    cases n with
    | zero => cases hn
    | succ n =>
      rcases hstop with rfl | ⟨rfl, rfl⟩
      · rcases hq with rfl | rfl <;> simp [readStringLoop]
      · rfl
  | @raw c v w hcq hs hn10 _ ih =>
    cases n with
    | zero => cases hn
    | succ n =>
      have hrest := ih n (by simpa using hn)
      simp [readStringLoop, hcq, hs, hn10, hrest]
  | @simple e c v w he _ ih =>
    cases n with
    | zero => cases hn
    | succ n =>
      have hrest := ih n (by simp at hn ⊢; omega)
      simp [readStringLoop, he, hrest]
  | @hex c e v w he _ ih =>
    cases n with
    | zero => cases hn
    | succ n =>
      obtain ⟨letter, size, maxDigits, digits, s, hl, hne, hx, hsize, hmax, rfl, rfl⟩ := he
      have hle : digits.length ≤ maxDigits := by
        simp only [List.mem_cons, Prod.mk.injEq, List.not_mem_nil, or_false] at hl
        omega
      have hrest := ih n (by simp at hn ⊢; omega)
      have hescape := stringEscape_read eofError (w ++ rest) hne hx hsize hle hmax
      have hshape : (92 :: (letter :: (digits ++ [s]) ++ w)) ++ rest =
          92 :: letter :: (digits ++ s :: (w ++ rest)) := by simp
      rw [hshape, readStringLoop_hex hl, hescape]
      simp [escaped, pushed, hrest]

/-- A character of the string and the rest. -/
theorem pushed_ok {r : Except ParseError (Bytes × Bytes)} {out : UInt8} {v rest : Bytes}
    (h : pushed out r = .ok (v, rest)) : ∃ output, r = .ok (output, rest) ∧ v = out :: output := by
  cases r with
  | ok p =>
    simp only [pushed, Except.ok.injEq, Prod.mk.injEq] at h
    exact ⟨p.1, by rw [← h.2], h.1.symm⟩
  | error e => cases h

/-- What has been read: a text of `v` up to its quote, or all of the watch text. -/
def StringRead (q : UInt8) (pos v rest : Bytes) : Prop :=
  (∃ w, pos = w ++ rest ∧ Body readHex q [q] v w) ∨ (rest = [] ∧ Body readHex q [] v pos)

/-- One part of the string in front of what has been read. -/
theorem StringRead.cons {q out : UInt8} {pos v rest : Bytes} (pre : Bytes)
    (h : StringRead q pos v rest)
    (hpart : ∀ stop w, Body readHex q stop v w → Body readHex q stop (out :: v) (pre ++ w)) :
    StringRead q (pre ++ pos) (out :: v) rest := by
  rcases h with ⟨w, rfl, hw⟩ | ⟨rfl, hw⟩
  · exact .inl ⟨pre ++ w, by simp, hpart _ w hw⟩
  · exact .inr ⟨rfl, hpart _ pos hw⟩

/-- An escape with digits, and the character that is skipped after it. -/
theorem StringRead.hex {q letter out : UInt8} {size maxDigits : Nat} {eofError : String}
    {pos pos' v rest : Bytes}
    (hl : (letter, size, maxDigits) ∈ [((120 : UInt8), 2, 2), (117, 4, 8), (85, 8, 8)])
    (hescape : stringEscape eofError size maxDigits pos = .ok (out, pos'))
    (h : StringRead q pos'.tail v rest) :
    StringRead q (92 :: letter :: pos) (out :: v) rest := by
  have hpos : 0 < maxDigits := by
    simp only [List.mem_cons, Prod.mk.injEq, List.not_mem_nil, or_false] at hl
    omega
  obtain ⟨digits, s, tail, rfl, rfl, hne, hx, hsize, hmax, hout⟩ := stringEscape_ok hpos hescape
  have hhex : ∀ w, readHex out (letter :: (digits ++ [s])) w := fun w =>
    ⟨letter, size, maxDigits, digits, s, hl, hne, hx, hsize, hmax, rfl, hout⟩
  have hread : StringRead q ((92 :: letter :: (digits ++ [s])) ++ tail) (out :: v) rest :=
    StringRead.cons _ h fun stop w hw => Body.hex (hhex w) hw
  simpa using hread

/-- What `ReadString` has read is a text of its result, closed by its quote or cut
off by the end of the watch text. -/
theorem readStringLoop_ok {q : UInt8} {eofError : String} (hq : q = 34 ∨ q = 39) (n : Nat)
    {pos v rest : Bytes} (h : readStringLoop q eofError n pos = .ok (v, rest)) :
    StringRead q pos v rest := by
  induction n generalizing pos v with
  | zero => cases h
  | succ n ih =>
    have hround := string_round q eofError n pos
    rw [h] at hround
    generalize hr : (.ok (v, rest) : Except ParseError (Bytes × Bytes)) = r at hround
    cases hround with
    | ends =>
      simp only [Except.ok.injEq, Prod.mk.injEq] at hr
      obtain ⟨rfl, rfl⟩ := hr
      exact .inr ⟨rfl, .stop⟩
    | close cs =>
      simp only [Except.ok.injEq, Prod.mk.injEq] at hr
      obtain ⟨rfl, rfl⟩ := hr
      exact .inl ⟨[q], rfl, .stop⟩
    | @raw c hs hn hcq cs =>
      obtain ⟨output, hread, rfl⟩ := pushed_ok hr.symm
      have hne : c ≠ q := by
        intro heq
        exact hcq (heq ▸ hq) heq
      exact StringRead.cons [c] (ih hread) fun stop w hw => .raw hne hs hn hw
    | @simple e out he tail =>
      obtain ⟨output, hread, rfl⟩ := pushed_ok hr.symm
      exact StringRead.cons [92, e] (ih hread) fun stop w hw => .simple he hw
    | @hex letter size maxDigits hl tail =>
      cases hescape : stringEscape eofError size maxDigits tail with
      | ok p =>
        rw [hescape] at hr
        obtain ⟨output, hread, rfl⟩ := pushed_ok hr.symm
        exact StringRead.hex hl hescape (ih hread)
      | error e =>
        rw [hescape] at hr
        cases hr
    | cutOff => cases hr
    | refused what _ => cases hr

/-! ## Reading an expression -/

/-- Nothing that would be read into an identifier or a number before it. -/
def Boundary (rest : Bytes) : Prop := ∀ c ∈ rest.head?, isIdentifierChar c = false

theorem span_append {p : UInt8 → Bool} {w rest : Bytes} (hw : ∀ c ∈ w, p c = true)
    (hrest : ∀ c ∈ rest.head?, p c = false) : (w ++ rest).span p = (w, rest) := by
  rw [List.span_eq_takeWhile_dropWhile]
  rw [List.takeWhile_append_of_pos hw, List.dropWhile_append_of_pos hw]
  cases rest with
  | nil => simp
  | cons c cs =>
    have hc : p c = false := hrest c rfl
    simp [hc]

theorem readIdentifier_read (name : Identifier) {rest : Bytes} (hb : Boundary rest) :
    readIdentifier (name.bytes ++ rest) = (name.bytes, rest) :=
  span_append name.all hb

theorem readNumber_read (digits : Number) {rest : Bytes} (hb : Boundary rest) :
    readNumber (digits.bytes ++ rest) = (digits.bytes, rest) := by
  refine span_append digits.all fun c hc => ?_
  have hcls := hb c hc
  simp only [isIdentifierChar, isAlnum, Bool.or_eq_false_iff] at hcls
  exact hcls.1.2

theorem boundary_cons {c : UInt8} {cs : Bytes} (hc : isIdentifierChar c = false) :
    Boundary (c :: cs) := by
  intro d hd
  simp only [List.head?_cons, Option.mem_def, Option.some.injEq] at hd
  exact hd ▸ hc

theorem boundary_spaces {sp rest : Bytes} (hsp : Spaces sp) (hb : Boundary rest) :
    Boundary (sp ++ rest) := by
  cases sp with
  | nil => exact hb
  | cons c cs =>
    obtain rfl : c = 32 := hsp c List.mem_cons_self
    exact boundary_cons rfl

/-- From the nodes `done` and `current` with `pos` to read, the parser gets to
`done'` and `current'` with `pos'` to read. -/
def Advances (done : List Link) (current : Link) (pos : Bytes) (done' : List Link)
    (current' : Link) (pos' : Bytes) : Prop :=
  ∀ n, pos.length < n →
    ∃ m, pos'.length < m ∧ parseLoop n done current pos = parseLoop m done' current' pos'

theorem Advances.trans {done done' done'' : List Link} {current current' current'' : Link}
    {pos pos' pos'' : Bytes} (h : Advances done current pos done' current' pos')
    (h' : Advances done' current' pos' done'' current'' pos'') :
    Advances done current pos done'' current'' pos'' := by
  intro n hn
  obtain ⟨m, hm, heq⟩ := h n hn
  obtain ⟨k, hk, heq'⟩ := h' m hm
  exact ⟨k, hk, heq.trans heq'⟩

/-- One round that leaves the parser in a state it can go on from. -/
theorem Advances.round {done done' : List Link} {current current' : Link} {c : UInt8}
    {cs pos' : Bytes} (hle : pos'.length ≤ cs.length)
    (h : ∀ n, cs.length < n →
      parseLoop (n + 1) done current (c :: cs) = parseLoop n done' current' pos') :
    Advances done current (c :: cs) done' current' pos' := by
  intro n hn
  cases n with
  | zero => cases hn
  | succ n =>
    have hcs : cs.length < n := by simpa using hn
    exact ⟨n, by omega, h n hcs⟩

theorem advances_spaces (done : List Link) (current : Link) {sp : Bytes} (hsp : Spaces sp)
    (rest : Bytes) : Advances done current (sp ++ rest) done current rest := by
  induction sp with
  | nil => exact fun n hn => ⟨n, hn, rfl⟩
  | cons c cs ih =>
    obtain rfl : c = 32 := hsp c List.mem_cons_self
    have hcs : Spaces cs := fun d hd => hsp d (List.mem_cons_of_mem _ hd)
    exact Advances.trans (.round (Nat.le_refl _) fun n _ => by simp [parseLoop]) (ih hcs)

/-- The first character of an identifier starts no other token. -/
theorem identifier_start {c : UInt8} (hc : isAlpha c = true ∨ c = 95) :
    c ≠ 32 ∧ c ≠ 46 ∧ c ≠ 91 ∧ c ≠ 93 ∧ c ≠ 34 ∧ c ≠ 39 ∧ isDigit c = false := by
  rcases hc with hc | rfl
  · simp only [isAlpha, Bool.or_eq_true, Bool.and_eq_true, decide_eq_true_eq] at hc
    simp only [isDigit, Bool.and_eq_false_iff, decide_eq_false_iff_not, ne_eq,
      ← UInt8.toNat_inj, UInt8.le_iff_toNat_le] at hc ⊢
    simp only [UInt8.reduceToNat] at hc ⊢
    omega
  · decide

theorem number_start {c : UInt8} (hc : isDigit c = true) :
    c ≠ 32 ∧ c ≠ 46 ∧ c ≠ 91 ∧ c ≠ 93 ∧ c ≠ 34 ∧ c ≠ 39 := by
  simp only [isDigit, Bool.and_eq_true, decide_eq_true_eq] at hc
  simp only [ne_eq, ← UInt8.toNat_inj, UInt8.le_iff_toNat_le, UInt8.reduceToNat] at hc ⊢
  omega

theorem advances_identifier (done : List Link) (name : Identifier) {rest : Bytes}
    (hb : Boundary rest) :
    Advances done {} (name.bytes ++ rest) done
      { type := .identifier, accessorValue := name.bytes } rest := by
  obtain ⟨c, cs, hbytes, hc⟩ := name.head
  have hread := readIdentifier_read name hb
  obtain ⟨h₁, h₂, h₃, h₄, h₅, h₆, h₇⟩ := identifier_start hc
  rw [hbytes] at hread ⊢
  apply Advances.round
  · simp
  · intro n _
    rw [List.cons_append] at hread
    simp [parseLoop, h₁, h₂, h₃, h₄, h₅, h₆, h₇, hc, hread]

theorem advances_number (done : List Link) (digits : Number) {rest : Bytes}
    (hb : Boundary rest) :
    Advances done {} (digits.bytes ++ rest) done
      { type := .number, accessorValue := digits.bytes } rest := by
  have hread := readNumber_read digits hb
  cases hbytes : digits.bytes with
  | nil => exact absurd hbytes digits.nonempty
  | cons c cs =>
    have hc : isDigit c = true := digits.all c (by simp [hbytes])
    obtain ⟨h₁, h₂, h₃, h₄, h₅, h₆⟩ := number_start hc
    rw [hbytes] at hread
    apply Advances.round
    · simp
    · intro n _
      rw [List.cons_append] at hread
      simp [parseLoop, h₁, h₂, h₃, h₄, h₅, h₆, hc, hread]

theorem advances_string (done : List Link) {q : UInt8} {v w rest : Bytes}
    (hq : q = 34 ∨ q = 39) {stop : Bytes} (h : Body readHex q stop v w)
    (hstop : stop = [q] ∨ (stop = [] ∧ rest = [])) :
    Advances done {} (q :: (w ++ rest)) done { type := .string, accessorValue := v } rest := by
  have hread : readString q (w ++ rest) = .ok (v, rest) :=
    readStringLoop_body hq h hstop _ (Nat.lt_succ_self _)
  apply Advances.round
  · simp
  · intro n _
    rcases hq with rfl | rfl <;> simp [parseLoop, hread]

theorem advances_dot (done : List Link) {current : Link} (ht : current.type = .identifier)
    (name : Identifier) (rest : Bytes) :
    Advances done current (46 :: (name.bytes ++ rest)) (done ++ [current]) {}
      (name.bytes ++ rest) := by
  obtain ⟨c, cs, hbytes, hc⟩ := name.head
  apply Advances.round
  · exact Nat.le_refl _
  · intro n _
    rw [hbytes]
    rcases hc with hc | rfl <;> simp [parseLoop, *]

theorem advances_bracket (done : List Link) {current : Link}
    (ht : current.type = .string ∨ current.type = .identifier) {pos rest : Bytes}
    {accessor : ExpressionNode} (ha : accessor.type ≠ .undefined) (hle : rest.length ≤ pos.length)
    (h : ∀ n, pos.length < n → parseLoop n [] {} pos = .ok (accessor, rest)) :
    Advances done current (91 :: pos) (done ++ [current])
      { type := .identifier, accessorExpression := accessor } rest := by
  apply Advances.round hle
  intro n hn
  have hinner := h n hn
  rcases ht with ht | ht <;> simp [parseLoop, ht, hinner, ha]

/-- The end of a bracket. -/
theorem parseLoop_close (n : Nat) (done : List Link) {current : Link}
    (ht : current.type ≠ .undefined) (rest : Bytes) :
    parseLoop (n + 1) done current (93 :: rest) = .ok (chain (done ++ [current]), rest) := by
  simp [parseLoop, ht]

/-- The end of the watch text. -/
theorem parseLoop_end (n : Nat) (done : List Link) (current : Link) :
    parseLoop (n + 1) done current [] = .ok (chain (done ++ [current]), []) := rfl

/-- An expression in brackets, from after the opening one. -/
theorem Advances.close {t : ExpressionNodeType} {e : Expr t} {pos sp rest : Bytes}
    (h : ∀ rest, Boundary rest → Advances [] {} (pos ++ rest) e.nodes.1 e.nodes.2 rest)
    (hsp : Spaces sp) (n : Nat) (hn : (pos ++ (sp ++ 93 :: rest)).length < n) :
    parseLoop n [] {} (pos ++ (sp ++ 93 :: rest)) = .ok (e.tree, rest) := by
  have hb : Boundary (sp ++ 93 :: rest) := boundary_spaces hsp (boundary_cons rfl)
  obtain ⟨m, hm, heq⟩ := (h _ hb).trans (advances_spaces _ _ hsp (93 :: rest)) n hn
  rw [heq]
  cases m with
  | zero => cases hm
  | succ m => exact parseLoop_close m _ (by rw [e.type_last]; exact e.type_defined) rest

/-- **A text of an expression is parsed to its nodes.** -/
theorem parse_spells {t : ExpressionNodeType} {e : Expr t} {w : Bytes} (h : Spells readHex e w)
    (rest : Bytes) (hb : Boundary rest) :
    Advances [] {} (w ++ rest) e.nodes.1 e.nodes.2 rest := by
  induction h generalizing rest with
  | identifier name => exact advances_identifier [] name hb
  | number digits => exact advances_number [] digits hb
  | string hq h => exact advances_string [] hq h (.inl rfl)
  | @field e w sp name h hsp ih =>
    have hdot : Boundary (sp ++ 46 :: (name.bytes ++ rest)) :=
      boundary_spaces hsp (boundary_cons rfl)
    have hshape : (w ++ sp ++ 46 :: name.bytes) ++ rest =
        w ++ (sp ++ 46 :: (name.bytes ++ rest)) := by simp
    rw [hshape]
    apply (ih _ hdot).trans
    apply (advances_spaces _ _ hsp _).trans
    apply (advances_dot _ e.type_last name rest).trans
    exact advances_identifier _ name hb
  | @index t u e accessor w w' sp sp₁ sp₂ ht h hsp hsp₁ h' hsp₂ ih ih' =>
    have hbracket : Boundary (sp ++ 91 :: (sp₁ ++ (w' ++ (sp₂ ++ 93 :: rest)))) :=
      boundary_spaces hsp (boundary_cons rfl)
    have hshape : (w ++ sp ++ 91 :: (sp₁ ++ w' ++ sp₂ ++ [93])) ++ rest =
        w ++ (sp ++ 91 :: (sp₁ ++ (w' ++ (sp₂ ++ 93 :: rest)))) := by simp
    have hlast : e.nodes.2.type = .string ∨ e.nodes.2.type = .identifier := by
      rw [e.type_last]
      cases t with
      | undefined => exact absurd rfl e.type_defined
      | number => exact absurd rfl ht
      | string => exact .inl rfl
      | identifier => exact .inr rfl
    rw [hshape]
    apply (ih _ hbracket).trans
    apply (advances_spaces _ _ hsp _).trans
    apply advances_bracket _ hlast accessor.type_tree
    · simp only [List.length_append, List.length_cons]
      omega
    · intro n hn
      obtain ⟨m, hm, heq⟩ := advances_spaces [] {} hsp₁ (w' ++ (sp₂ ++ 93 :: rest)) n hn
      rw [heq]
      exact Advances.close ih' hsp₂ m hm

/-- An expression with spaces around it is parsed to its tree, to the end. -/
theorem parseWatch_spells {t : ExpressionNodeType} {e : Expr t} {w sp sp' : Bytes}
    (h : Spells readHex e w) (hsp : Spaces sp) (hsp' : Spaces sp') :
    parseWatch (sp ++ w ++ sp') = .ok e.tree := by
  have hb : Boundary (sp' ++ []) := boundary_spaces hsp' (by simp [Boundary])
  have hadv := ((advances_spaces [] {} hsp (w ++ (sp' ++ []))).trans (parse_spells h _ hb)).trans
    (advances_spaces _ _ hsp' [])
  rw [List.append_nil, ← List.append_assoc] at hadv
  obtain ⟨m, hm, heq⟩ := hadv _ (Nat.lt_succ_self _)
  unfold parseWatch parseExpression
  rw [heq]
  cases m with
  | zero => cases hm
  | succ m =>
    rw [parseLoop_end]
    rfl

/-! ## Printing -/

/-- A byte of a string: backslash, double quote and newline as two characters,
every other byte as itself. -/
def escapeByte (c : UInt8) : Bytes :=
  if c = 92 ∨ c = 34 then [92, c] else if c = 10 then [92, 110] else [c]

/-- An expression without spaces, with its strings in double quotes. -/
def Expr.print : {t : ExpressionNodeType} → Expr t → Bytes
  | _, .identifier name => name.bytes
  | _, .number digits => digits.bytes
  | _, .string value => 34 :: (value.flatMap escapeByte ++ [34])
  | _, .field e name => e.print ++ 46 :: name.bytes
  | _, .index e _ accessor => e.print ++ 91 :: (accessor.print ++ [93])

theorem body_print (hex : UInt8 → Bytes → Bytes → Prop) (v : Bytes) :
    Body hex 34 [34] v (v.flatMap escapeByte ++ [34]) := by
  induction v with
  | nil => exact .stop
  | cons c v ih =>
    rw [List.flatMap_cons, List.append_assoc]
    unfold escapeByte
    split
    · rename_i hc
      exact .simple (by rcases hc with rfl | rfl <;> rfl) ih
    · rename_i hc
      simp only [not_or] at hc
      split
      · rename_i hn
        subst hn
        exact .simple rfl ih
      · rename_i hn
        exact .raw hc.2 hc.1 hn ih

theorem print_spells (hex : UInt8 → Bytes → Bytes → Prop) {t : ExpressionNodeType} (e : Expr t) :
    Spells hex e e.print := by
  have hnone : Spaces [] := by simp [Spaces]
  induction e with
  | identifier name => exact .identifier name
  | number digits => exact .number digits
  | string value => exact .string (.inl rfl) (body_print hex value)
  | field e name ih => simpa [Expr.print] using Spells.field name ih hnone
  | index e ht accessor ih ih' => simpa [Expr.print] using Spells.index ht ih hnone hnone ih' hnone

/-- **Parsing undoes printing.** For every expression, `ParseExpression` started at
the first character of its printed text reads the whole text and returns its
tree; so does the parse stage. -/
theorem parse_print {t : ExpressionNodeType} (e : Expr t) :
    (∀ n, e.print.length < n → parseExpression n e.print = .ok (e.tree, [])) ∧
      parseWatch e.print = .ok e.tree := by
  have hnone : Spaces [] := by simp [Spaces]
  have hspells : Spells readHex e e.print := print_spells readHex e
  constructor
  · intro n hn
    have hadv := parse_spells hspells [] (by simp [Boundary])
    rw [List.append_nil] at hadv
    obtain ⟨m, hm, heq⟩ := hadv n hn
    rw [parseExpression, heq]
    cases m with
    | zero => cases hm
    | succ m => exact parseLoop_end m _ _
  · simpa using parseWatch_spells hspells hnone hnone

/-- `a` -/
def exprA : Expr .identifier := .identifier (.letter 97 rfl)

/-- `a.b["c\n"]`, with a newline in the string. -/
def nestedExpr : Expr .identifier :=
  .index (.field exprA (.letter 98 rfl)) (by decide) (.string [99, 10])

theorem parse_print_nestedExpr :
    nestedExpr.print = ascii "a.b[\"c\\n\"]" ∧
      parseExpression 20 nestedExpr.print = .ok (nestedExpr.tree, []) :=
  ⟨by decide, (parse_print nestedExpr).1 20 (by decide)⟩

end Sdb.L3
