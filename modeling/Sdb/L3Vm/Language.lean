import Sdb.L3Vm.Grammar

/-!
# The texts the parse stage accepts

`ParseExpression` is the parser of the whole text and of the text in brackets. It
ends at a `]`, and at the end of the text wherever that comes: before the first
token, inside a bracket, inside a string. So besides the expressions, the parse
stage accepts

* the blank text (`Spaces`);
* an expression with one `]` too many, if it is the last character (`Stray`);
* an expression that is cut short inside a bracket or a string (`CutShort`).

* `start_round`, `part_round`: what one round of the parser comes to;
* `parsed_inv`: how a run of the parser ends, and what it has read;
* `accepted_iff`: the accepted texts;
* `watch_grammar`: when the accepted texts are those of the grammar.
-/
namespace Sdb.L3

open Sdb.L1

/-- A text of an expression that ends inside a string or a bracket. -/
inductive Cut (hex : UInt8 → Bytes → Bytes → Prop) : Bytes → Prop where
  | string {q : UInt8} {v w : Bytes} (hq : q = 34 ∨ q = 39) (h : Body hex q [] v w) :
    Cut hex (q :: w)
  | bracket {t u : ExpressionNodeType} {e : Expr t} {accessor : Expr u}
    {w w' sp sp₁ sp₂ : Bytes} (ht : t ≠ .number) (h : Spells hex e w) (hsp : Spaces sp)
    (hsp₁ : Spaces sp₁) (h' : Spells hex accessor w') (hsp₂ : Spaces sp₂) :
    Cut hex (w ++ sp ++ 91 :: (sp₁ ++ w' ++ sp₂))
  | nested {t : ExpressionNodeType} {e : Expr t} {w w' sp sp₁ : Bytes} (ht : t ≠ .number)
    (h : Spells hex e w) (hsp : Spaces sp) (hsp₁ : Spaces sp₁) (h' : Cut hex w') :
    Cut hex (w ++ sp ++ 91 :: (sp₁ ++ w'))

/-- An expression, apart from surrounding spaces. -/
def Expression (hex : UInt8 → Bytes → Bytes → Prop) (text : Bytes) : Prop :=
  ∃ (t : ExpressionNodeType) (e : Expr t) (sp w sp' : Bytes),
    Spaces sp ∧ Spells hex e w ∧ Spaces sp' ∧ text = sp ++ w ++ sp'

/-- An expression and a `]`. -/
def Stray (hex : UInt8 → Bytes → Bytes → Prop) (text : Bytes) : Prop :=
  ∃ text', Expression hex text' ∧ text = text' ++ [93]

/-- An expression that ends inside a string or a bracket. -/
def CutShort (hex : UInt8 → Bytes → Bytes → Prop) (text : Bytes) : Prop :=
  ∃ sp w, Spaces sp ∧ Cut hex w ∧ text = sp ++ w

/-- The parse stage succeeds. -/
def Accepted (text : Bytes) : Prop := ∃ root, parseWatch text = .ok root

/-! ## One round of the parser -/

theorem span_eq {p : UInt8 → Bool} {pos value rest : Bytes} (h : pos.span p = (value, rest)) :
    pos = value ++ rest ∧ (∀ c ∈ value, p c = true) := by
  rw [List.span_eq_takeWhile_dropWhile, Prod.mk.injEq] at h
  obtain ⟨rfl, rfl⟩ := h
  exact ⟨List.takeWhile_append_dropWhile.symm, List.all_eq_true.mp List.all_takeWhile⟩

theorem readIdentifier_eq {c : UInt8} {cs value rest : Bytes} (hc : isAlpha c = true ∨ c = 95)
    (h : readIdentifier (c :: cs) = (value, rest)) :
    ∃ name : Identifier, value = name.bytes ∧ c :: cs = name.bytes ++ rest := by
  obtain ⟨hsplit, hall⟩ := span_eq h
  cases value with
  | nil =>
    -- the first character belongs to it
    unfold readIdentifier at h
    rw [List.span_eq_takeWhile_dropWhile, List.takeWhile_cons_of_pos] at h
    · simp at h
    · rcases hc with hc | rfl
      · simp [isAlnum, hc]
      · rfl
  | cons d ds =>
    obtain ⟨rfl, -⟩ : c = d ∧ cs = ds ++ rest := by simpa using hsplit
    exact ⟨⟨c :: ds, ⟨c, ds, rfl, hc⟩, hall⟩, rfl, hsplit⟩

theorem readNumber_eq {c : UInt8} {cs value rest : Bytes} (hc : isDigit c = true)
    (h : readNumber (c :: cs) = (value, rest)) :
    ∃ digits : Number, value = digits.bytes ∧ c :: cs = digits.bytes ++ rest := by
  obtain ⟨hsplit, hall⟩ := span_eq h
  cases value with
  | nil =>
    unfold readNumber at h
    rw [List.span_eq_takeWhile_dropWhile, List.takeWhile_cons_of_pos hc] at h
    simp at h
  | cons d ds => exact ⟨⟨d :: ds, by simp, hall⟩, rfl, hsplit⟩

/-- The messages of `ParseExpression` itself. -/
def expressionErrors : List String :=
  ["Attempted to access field of a non-identifier",
    "Expected identifier character after . but got EOF",
    "Expected identifier character after .",
    "[ must follow an identifier or string",
    "Could not create accessor expression",
    "Closing square bracket without a contained expression",
    "String must not follow another expression",
    "Identifier or number must not directly follow another expression",
    "Invalid character, expected alphanumeric or underscore."]

/-- What the parser comes to from the start of an expression, before the next round. -/
inductive StartRound (n : Nat) : Bytes → Except ParseError (ExpressionNode × Bytes) → Prop where
  | ends : StartRound n [] (.ok (chain [{}], []))
  | space (cs : Bytes) : StartRound n (32 :: cs) (parseLoop n [] {} cs)
  /-- A string, a number or an identifier is read. -/
  | token {t : ExpressionNodeType} {e : Expr t} {w : Bytes} (hw : Spells readHex e w)
    (pos : Bytes) : StartRound n (w ++ pos) (parseLoop n e.nodes.1 e.nodes.2 pos)
  /-- The text ends inside a string. -/
  | openString {q : UInt8} {v w : Bytes} (hq : q = 34 ∨ q = 39) (hw : Body readHex q [] v w) :
    StartRound n (q :: w) (parseLoop n [] { type := .string, accessorValue := v } [])
  | stringError {q : UInt8} {cs : Bytes} {err : ParseError} (hq : q = 34 ∨ q = 39)
    (hstring : readString q cs = .error err) : StartRound n (q :: cs) (.error err)
  | refused {pos pos' : Bytes} {what : String} (hwhat : what ∈ expressionErrors) :
    StartRound n pos (.error (.watch what pos'))

theorem start_round (n : Nat) (pos : Bytes) : StartRound n pos (parseLoop (n + 1) [] {} pos) := by
  cases pos with
  | nil => exact .ends
  | cons c cs =>
    unfold parseLoop
    dsimp only
    split
    · rename_i hc
      subst hc
      exact .space cs
    · split
      · exact .refused (by simp [expressionErrors])
      · split
        · exact .refused (by simp [expressionErrors])
        · split
          · exact .refused (by simp [expressionErrors])
          · split
            · -- a string
              rename_i hq
              simp only [ne_eq, not_true_eq_false, if_false]
              split
              · rename_i err hstring
                exact .stringError hq hstring
              · rename_i value pos' hstring
                rcases readStringLoop_ok hq _ hstring with ⟨w, rfl, hw⟩ | ⟨rfl, hw⟩
                · exact .token (.string hq hw) pos'
                · exact .openString hq hw
            · simp only [ne_eq, not_true_eq_false, if_false]
              split
              · -- a number
                rename_i hdigit
                obtain ⟨digits, hvalue, hsplit⟩ := readNumber_eq hdigit (Prod.eta _).symm
                have hround := StartRound.token (n := n) (.number digits) (readNumber (c :: cs)).2
                rw [← hsplit] at hround
                rw [hvalue]
                exact hround
              · split
                · -- an identifier
                  rename_i halpha
                  obtain ⟨name, hvalue, hsplit⟩ := readIdentifier_eq halpha (Prod.eta _).symm
                  have hround := StartRound.token (n := n) (.identifier name)
                    (readIdentifier (c :: cs)).2
                  rw [← hsplit] at hround
                  rw [hvalue]
                  exact hround
                · exact .refused (by simp [expressionErrors])

/-- What the parser comes to from the end of a part of the expression `e`; a dot and
the identifier after it are two rounds. -/
inductive PartRound (n : Nat) : {t : ExpressionNodeType} → Expr t → Bytes →
    Except ParseError (ExpressionNode × Bytes) → Prop where
  | ends {t : ExpressionNodeType} (e : Expr t) : PartRound n e [] (.ok (e.tree, []))
  | space {t : ExpressionNodeType} (e : Expr t) (cs : Bytes) :
    PartRound n e (32 :: cs) (parseLoop n e.nodes.1 e.nodes.2 cs)
  | field (e : Expr .identifier) (name : Identifier) {m : Nat} (hm : m < n) (pos : Bytes) :
    PartRound n e (46 :: (name.bytes ++ pos))
      (parseLoop m (e.field name).nodes.1 (e.field name).nodes.2 pos)
  | bracketError {t : ExpressionNodeType} (e : Expr t) (ht : t ≠ .number) {cs : Bytes}
    {err : ParseError} (hinner : parseLoop n [] {} cs = .error err) :
    PartRound n e (91 :: cs) (.error err)
  | bracket {t : ExpressionNodeType} (e : Expr t) (ht : t ≠ .number) {cs pos : Bytes}
    {accessor : ExpressionNode} (hinner : parseLoop n [] {} cs = .ok (accessor, pos))
    (ha : accessor.type ≠ .undefined) :
    PartRound n e (91 :: cs) (parseLoop n (e.nodes.1 ++ [e.nodes.2])
      { type := .identifier, accessorExpression := accessor } pos)
  | close {t : ExpressionNodeType} (e : Expr t) (cs : Bytes) :
    PartRound n e (93 :: cs) (.ok (e.tree, cs))
  | refused {t : ExpressionNodeType} (e : Expr t) {pos pos' : Bytes} {what : String}
    (hwhat : what ∈ expressionErrors) : PartRound n e pos (.error (.watch what pos'))
  | fuel {t : ExpressionNodeType} (e : Expr t) (pos : Bytes) : PartRound n e pos (.error .fuel)

/-- After a dot, the identifier is read in the next round. -/
theorem field_round (n : Nat) (e : Expr .identifier) {d : UInt8} {cs : Bytes}
    (hd : isAlpha d = true ∨ d = 95) :
    PartRound n e (46 :: d :: cs) (parseLoop n (e.nodes.1 ++ [e.nodes.2]) {} (d :: cs)) := by
  cases n with
  | zero => exact .fuel e _
  | succ m =>
    obtain ⟨h₁, h₂, h₃, h₄, h₅, h₆, h₇⟩ := identifier_start hd
    obtain ⟨name, hvalue, hsplit⟩ :=
      readIdentifier_eq hd (Prod.eta (readIdentifier (d :: cs))).symm
    have hname : parseLoop (m + 1) (e.nodes.1 ++ [e.nodes.2]) {} (d :: cs) =
        parseLoop m (e.field name).nodes.1 (e.field name).nodes.2
          (readIdentifier (d :: cs)).2 := by
      simp [parseLoop, h₁, h₂, h₃, h₄, h₅, h₆, h₇, hd, Expr.nodes, hvalue]
    have hround := PartRound.field e name (Nat.lt_succ_self m) (readIdentifier (d :: cs)).2
    rw [← hsplit, ← hname] at hround
    exact hround

theorem part_round (n : Nat) {t : ExpressionNodeType} (e : Expr t) (pos : Bytes) :
    PartRound n e pos (parseLoop (n + 1) e.nodes.1 e.nodes.2 pos) := by
  have hdef := e.type_defined
  cases pos with
  | nil => exact .ends e
  | cons c cs =>
    unfold parseLoop
    simp only [Expr.type_last, hdef, ne_eq, not_false_eq_true, if_true, if_false]
    split
    · rename_i hc
      subst hc
      exact .space e cs
    · split
      · -- a dot
        rename_i hc
        subst hc
        split
        · exact .refused e (by simp [expressionErrors])
        · rename_i ht
          simp only [not_not] at ht
          subst ht
          cases cs with
          | nil => exact .refused e (by simp [expressionErrors])
          | cons d tail =>
            dsimp only
            split
            · exact .refused e (by simp [expressionErrors])
            · rename_i hd
              simp only [Bool.not_eq_true', not_and_or, Bool.not_eq_false, not_not] at hd
              exact field_round n e hd
      · split
        · -- an opening bracket
          rename_i hc
          subst hc
          split
          · exact .refused e (by simp [expressionErrors])
          · rename_i ht
            have ht' : t ≠ .number := by
              intro hnumber
              simp [hnumber] at ht
            split
            · rename_i err hinner
              exact .bracketError e ht' hinner
            · rename_i accessor pos' hinner
              split
              · exact .refused e (by simp [expressionErrors])
              · rename_i ha
                exact .bracket e ht' hinner ha
        · split
          · rename_i hc
            subst hc
            exact .close e cs
          · split
            · exact .refused e (by simp [expressionErrors])
            · exact .refused e (by simp [expressionErrors])

/-- At the end of the text nothing is left. -/
theorem parseLoop_nil {n : Nat} {done : List Link} {current : Link} {root : ExpressionNode}
    {rest : Bytes} (h : parseLoop n done current [] = .ok (root, rest)) : rest = [] := by
  cases n with
  | zero => cases h
  | succ n =>
    rw [parseLoop_end, Except.ok.injEq, Prod.mk.injEq] at h
    exact h.2.symm

/-! ## What a run of the parser has read -/

/-- From the first character of a token on: an expression up to its `]`, an
expression up to the end, or one that is cut off there. -/
def ReadsTo (text : Bytes) (root : ExpressionNode) (rest : Bytes) : Prop :=
  (∃ (t : ExpressionNodeType) (e : Expr t) (w sp : Bytes), Spells readHex e w ∧ Spaces sp ∧
    root = e.tree ∧ (text = w ++ sp ++ 93 :: rest ∨ (text = w ++ sp ∧ rest = []))) ∨
  (rest = [] ∧ Cut readHex text)

/-- From the start: spaces and what `ReadsTo` describes, or spaces only. -/
def Read (pos : Bytes) (root : ExpressionNode) (rest : Bytes) : Prop :=
  (∃ sp text, Spaces sp ∧ pos = sp ++ text ∧ ReadsTo text root rest) ∨
    (rest = [] ∧ Spaces pos ∧ root.type = .undefined)

theorem spaces_cons {sp : Bytes} (h : Spaces sp) : Spaces (32 :: sp) := by
  intro c hc
  rcases List.mem_cons.mp hc with rfl | hc
  · rfl
  · exact h c hc

theorem spaces_append {sp sp' : Bytes} (h : Spaces sp) (h' : Spaces sp') : Spaces (sp ++ sp') := by
  intro c hc
  rcases List.mem_append.mp hc with hc | hc
  · exact h c hc
  · exact h' c hc

theorem spaces_nil : Spaces [] := fun _ h => by cases h

/-- How the parser ends, from the start of an expression and from the end of one
of its parts. -/
def ParsedBelow (n : Nat) : Prop :=
  (∀ pos root rest, parseLoop n [] {} pos = .ok (root, rest) → Read pos root rest) ∧
    ∀ (t : ExpressionNodeType) (e : Expr t) (w sp pos : Bytes) (root : ExpressionNode)
      (rest : Bytes), Spells readHex e w → Spaces sp →
      parseLoop n e.nodes.1 e.nodes.2 pos = .ok (root, rest) →
      ReadsTo (w ++ sp ++ pos) root rest

theorem StartRound.read {n : Nat} (ih : ParsedBelow n) {pos : Bytes}
    {r : Except ParseError (ExpressionNode × Bytes)} (hround : StartRound n pos r)
    {root : ExpressionNode} {rest : Bytes} (h : r = .ok (root, rest)) : Read pos root rest := by
  obtain ⟨ih₀, ih₁⟩ := ih
  cases hround with
  | ends =>
    simp only [Except.ok.injEq, Prod.mk.injEq] at h
    obtain ⟨rfl, rfl⟩ := h
    exact .inr ⟨rfl, spaces_nil, rfl⟩
  | space cs =>
    rcases ih₀ cs root rest h with ⟨sp, text, hsp, rfl, hends⟩ | ⟨rfl, hsp, htype⟩
    · exact .inl ⟨32 :: sp, text, spaces_cons hsp, rfl, hends⟩
    · exact .inr ⟨rfl, spaces_cons hsp, htype⟩
  | token hw pos =>
    have hends := ih₁ _ _ _ [] pos root rest hw spaces_nil h
    exact .inl ⟨[], _, spaces_nil, by simp, hends⟩
  | openString hq hw =>
    obtain rfl := parseLoop_nil h
    exact .inl ⟨[], _, spaces_nil, rfl, .inr ⟨rfl, .string hq hw⟩⟩
  | stringError hq hstring => cases h
  | refused hwhat => cases h

/-- A bracket, with what the nested call has read. -/
theorem parsed_index {n : Nat} (ih : ParsedBelow n) {t : ExpressionNodeType} {e : Expr t}
    (ht : t ≠ .number) {w sp cs pos : Bytes} {accessor root : ExpressionNode} {rest : Bytes}
    (hw : Spells readHex e w) (hsp : Spaces sp)
    (hinner : parseLoop n [] {} cs = .ok (accessor, pos)) (ha : accessor.type ≠ .undefined)
    (h : parseLoop n (e.nodes.1 ++ [e.nodes.2])
      { type := .identifier, accessorExpression := accessor } pos = .ok (root, rest)) :
    ReadsTo (w ++ sp ++ 91 :: cs) root rest := by
  obtain ⟨ih₀, ih₁⟩ := ih
  -- after the end of the text the outer call ends as well
  have hend : pos = [] → rest = [] := by
    intro hpos
    subst hpos
    exact parseLoop_nil h
  rcases ih₀ cs accessor pos hinner with ⟨sp₁, text, hsp₁, rfl, hends⟩ | ⟨-, -, hblank⟩
  · rcases hends with ⟨u, i, w', sp₂, hw', hsp₂, rfl, hclosed | ⟨hcut, hpos⟩⟩ | ⟨hpos, hcut⟩
    · subst hclosed
      have hends := ih₁ .identifier (.index e ht i)
        (w ++ sp ++ 91 :: (sp₁ ++ w' ++ sp₂ ++ [93])) [] pos root rest
        (.index ht hw hsp hsp₁ hw' hsp₂) spaces_nil h
      simpa using hends
    · subst hcut
      right
      refine ⟨hend hpos, ?_⟩
      have hbracket := Cut.bracket ht hw hsp hsp₁ hw' hsp₂
      simpa using hbracket
    · exact .inr ⟨hend hpos, .nested ht hw hsp hsp₁ hcut⟩
  · exact absurd hblank ha

theorem PartRound.read {n : Nat} (ih : ∀ m < n + 1, ParsedBelow m) {t : ExpressionNodeType}
    {e : Expr t} {w sp pos : Bytes} {r : Except ParseError (ExpressionNode × Bytes)}
    (hw : Spells readHex e w) (hsp : Spaces sp) (hround : PartRound n e pos r)
    {root : ExpressionNode} {rest : Bytes} (h : r = .ok (root, rest)) :
    ReadsTo (w ++ sp ++ pos) root rest := by
  cases hround with
  | ends =>
    simp only [Except.ok.injEq, Prod.mk.injEq] at h
    obtain ⟨rfl, rfl⟩ := h
    exact .inl ⟨t, e, w, sp, hw, hsp, rfl, .inr ⟨by simp, rfl⟩⟩
  | space _ cs =>
    have hends := (ih n (Nat.lt_succ_self n)).2 t e w (sp ++ [32]) cs root rest hw
      (spaces_append hsp (spaces_cons spaces_nil)) h
    simpa using hends
  | @field e name m hm pos =>
    have hends := (ih m (by omega)).2 .identifier (e.field name) (w ++ sp ++ 46 :: name.bytes) []
      pos root rest (.field name hw hsp) spaces_nil h
    simpa using hends
  | bracketError _ ht hinner => cases h
  | bracket _ ht hinner ha => exact parsed_index (ih n (Nat.lt_succ_self n)) ht hw hsp hinner ha h
  | close _ cs =>
    simp only [Except.ok.injEq, Prod.mk.injEq] at h
    obtain ⟨rfl, rfl⟩ := h
    exact .inl ⟨t, e, w, sp, hw, hsp, rfl, .inl rfl⟩
  | refused _ hwhat => cases h
  | fuel => cases h

/-- **What a run of the parser has read.** -/
theorem parsed_inv (n : Nat) : ParsedBelow n := by
  induction n using Nat.strongRecOn with
  | ind n ih =>
    cases n with
    | zero => exact ⟨fun _ _ _ h => (nomatch h), fun _ _ _ _ _ _ _ _ _ h => (nomatch h)⟩
    | succ n =>
      exact ⟨fun pos _ _ h => (start_round n pos).read (ih n (Nat.lt_succ_self n)) h,
        fun _ e _ _ pos _ _ hw hsp h => (part_round n e pos).read ih hw hsp h⟩

/-! ## What the parser accepts -/

/-- An expression is closed by the next bracket, whatever follows. -/
theorem expression_close {text : Bytes} (h : Expression readHex text) (rest : Bytes) (n : Nat)
    (hn : (text ++ 93 :: rest).length < n) :
    ∃ root, root.type ≠ .undefined ∧ parseLoop n [] {} (text ++ 93 :: rest) = .ok (root, rest) := by
  obtain ⟨t, e, sp, w, sp', hsp, hw, hsp', rfl⟩ := h
  have hshape : sp ++ w ++ sp' ++ 93 :: rest = sp ++ (w ++ (sp' ++ 93 :: rest)) := by simp
  rw [hshape] at hn ⊢
  obtain ⟨m, hm, heq⟩ := advances_spaces [] {} hsp (w ++ (sp' ++ 93 :: rest)) n hn
  exact ⟨e.tree, e.type_tree, heq.trans (Advances.close (parse_spells hw) hsp' m hm)⟩

/-- An expression that ends with the text. -/
theorem expression_end {text : Bytes} (h : Expression readHex text) (n : Nat)
    (hn : text.length < n) :
    ∃ root, root.type ≠ .undefined ∧ parseLoop n [] {} text = .ok (root, []) := by
  obtain ⟨t, e, sp, w, sp', hsp, hw, hsp', rfl⟩ := h
  have hb : Boundary (sp' ++ []) := boundary_spaces hsp' (by simp [Boundary])
  have hadv := ((advances_spaces [] {} hsp (w ++ (sp' ++ []))).trans (parse_spells hw _ hb)).trans
    (advances_spaces _ _ hsp' [])
  rw [List.append_nil, ← List.append_assoc] at hadv
  obtain ⟨m, hm, heq⟩ := hadv n hn
  cases m with
  | zero => cases hm
  | succ m => exact ⟨e.tree, e.type_tree, heq.trans (parseLoop_end m _ _)⟩

/-- A bracket after an expression: the nested call has a bound `m` of its own. -/
theorem bracket_round {t : ExpressionNodeType} {e : Expr t} {w sp cs : Bytes} (ht : t ≠ .number)
    (hw : Spells readHex e w) (hsp : Spaces sp) (n : Nat) (hn : (w ++ sp ++ 91 :: cs).length < n) :
    ∃ m, cs.length < m ∧
      (∀ err, parseLoop m [] {} cs = .error err →
        parseLoop n [] {} (w ++ sp ++ 91 :: cs) = .error err) ∧
      ∀ accessor pos, parseLoop m [] {} cs = .ok (accessor, pos) →
        (accessor.type = .undefined →
          ∃ err, parseLoop n [] {} (w ++ sp ++ 91 :: cs) = .error err) ∧
        (accessor.type ≠ .undefined → parseLoop n [] {} (w ++ sp ++ 91 :: cs) =
          parseLoop m (e.nodes.1 ++ [e.nodes.2])
            { type := .identifier, accessorExpression := accessor } pos) := by
  have hb : Boundary (sp ++ 91 :: cs) := boundary_spaces hsp (boundary_cons rfl)
  have hadv := (parse_spells hw _ hb).trans (advances_spaces _ _ hsp (91 :: cs))
  rw [← List.append_assoc] at hadv
  obtain ⟨k, hk, heq⟩ := hadv n hn
  cases k with
  | zero => cases hk
  | succ m =>
    have hm : cs.length < m := by simpa using hk
    have hlast : ¬ (t ≠ .string ∧ t ≠ .identifier) := by
      have hdef := e.type_defined
      cases t <;> simp_all
    refine ⟨m, hm, fun err herr => ?_, fun accessor pos hok => ⟨fun ha => ?_, fun ha => ?_⟩⟩
    · rw [heq]
      simp [parseLoop, hlast, herr]
    · refine ⟨.watch "Could not create accessor expression" pos, ?_⟩
      rw [heq]
      simp [parseLoop, hlast, hok, ha]
    · rw [heq]
      simp [parseLoop, hlast, hok, ha]

/-- The parser takes all of it for an expression. -/
def RunsOut (pos : Bytes) : Prop :=
  ∀ n, pos.length < n → ∃ root, root.type ≠ .undefined ∧ parseLoop n [] {} pos = .ok (root, [])

/-- The parser does not stop at a bracket in it. -/
def NotClosed (pos : Bytes) : Prop :=
  ∀ n root rest, pos.length < n → parseLoop n [] {} pos = .ok (root, rest) → rest = []

theorem RunsOut.spaces {sp pos : Bytes} (hsp : Spaces sp) (h : RunsOut pos) :
    RunsOut (sp ++ pos) := by
  intro n hn
  obtain ⟨m, hm, heq⟩ := advances_spaces [] {} hsp pos n hn
  rw [heq]
  exact h m hm

theorem NotClosed.spaces {sp pos : Bytes} (hsp : Spaces sp) (h : NotClosed pos) :
    NotClosed (sp ++ pos) := by
  intro n root rest hn hok
  obtain ⟨m, hm, heq⟩ := advances_spaces [] {} hsp pos n hn
  rw [heq] at hok
  exact h m root rest hm hok

theorem runsOut_expression {text : Bytes} (h : Expression readHex text) : RunsOut text :=
  fun n hn => expression_end h n hn

theorem runsOut_bracket {t : ExpressionNodeType} {e : Expr t} {w sp cs : Bytes}
    (ht : t ≠ .number) (hw : Spells readHex e w) (hsp : Spaces sp) (h : RunsOut cs) :
    RunsOut (w ++ sp ++ 91 :: cs) := by
  intro n hn
  obtain ⟨m, hm, -, hround⟩ := bracket_round ht hw hsp n hn
  obtain ⟨accessor, ha, hok⟩ := h m hm
  rw [(hround accessor [] hok).2 ha]
  cases m with
  | zero => cases hm
  | succ m =>
    obtain ⟨l, ls, hnodes, hl⟩ := e.nodes_head
    refine ⟨_, ?_, parseLoop_end m _ _⟩
    rw [hnodes]
    exact hl

theorem notClosed_bracket {t : ExpressionNodeType} {e : Expr t} {w sp cs : Bytes}
    (ht : t ≠ .number) (hw : Spells readHex e w) (hsp : Spaces sp) (h : NotClosed cs) :
    NotClosed (w ++ sp ++ 91 :: cs) := by
  intro n root rest hn hok
  obtain ⟨m, hm, herr, hround⟩ := bracket_round ht hw hsp n hn
  cases hinner : parseLoop m [] {} cs with
  | error err =>
    rw [herr err hinner] at hok
    cases hok
  | ok r =>
    obtain ⟨accessor, pos⟩ := r
    obtain rfl := h m accessor pos hm hinner
    by_cases ha : accessor.type = .undefined
    · obtain ⟨err, herr⟩ := (hround accessor [] hinner).1 ha
      rw [herr] at hok
      cases hok
    · rw [(hround accessor [] hinner).2 ha] at hok
      cases m with
      | zero => cases hm
      | succ m =>
        rw [parseLoop_end] at hok
        simp only [Except.ok.injEq, Prod.mk.injEq] at hok
        exact hok.2.symm

/-- A string that is cut off takes in what follows, up to its quote. -/
theorem body_more {q : UInt8} {v w : Bytes} (hq : q = 34 ∨ q = 39) (h : Body readHex q [] v w) :
    Body readHex q [] (v ++ [93, 120]) (w ++ [93, 120]) := by
  induction h with
  | stop =>
    have h₁ : (93 : UInt8) ≠ q := by rcases hq with rfl | rfl <;> decide
    have h₂ : (120 : UInt8) ≠ q := by rcases hq with rfl | rfl <;> decide
    exact .raw h₁ (by decide) (by decide) (.raw h₂ (by decide) (by decide) .stop)
  | raw hcq hs hn _ ih => exact .raw hcq hs hn ih
  | simple he _ ih => exact .simple he ih
  | @hex c e v w he _ ih =>
    have hmore : Body readHex q [] (c :: (v ++ [93, 120])) (92 :: (e ++ (w ++ [93, 120]))) :=
      .hex he ih
    simpa using hmore

theorem runsOut_string {q : UInt8} {v w : Bytes} (hq : q = 34 ∨ q = 39)
    (h : Body readHex q [] v w) : RunsOut (q :: w) := by
  intro n hn
  have hadv : Advances [] {} (q :: (w ++ [])) [] { type := .string, accessorValue := v } [] :=
    advances_string [] hq h (.inr ⟨rfl, rfl⟩)
  rw [List.append_nil] at hadv
  obtain ⟨m, hm, heq⟩ := hadv n hn
  cases m with
  | zero => cases hm
  | succ m => exact ⟨_, by simp [chain, ExpressionNode.type], heq.trans (parseLoop_end m _ _)⟩

theorem cut_runsOut {w : Bytes} (h : Cut readHex w) : RunsOut w := by
  induction h with
  | string hq h => exact runsOut_string hq h
  | @bracket t u e accessor w w' sp sp₁ sp₂ ht hw hsp hsp₁ hw' hsp₂ =>
    exact runsOut_bracket ht hw hsp
      (runsOut_expression ⟨u, accessor, sp₁, w', sp₂, hsp₁, hw', hsp₂, rfl⟩)
  | nested ht hw hsp hsp₁ _ ih => exact runsOut_bracket ht hw hsp (ih.spaces hsp₁)

/-- The bracket that would close an expression closes one inside of it, or none,
when it is cut short. -/
theorem cut_notClosed {w : Bytes} (h : Cut readHex w) : NotClosed (w ++ [93, 120]) := by
  induction h with
  | @string q v w hq h =>
    intro n root rest hn hok
    obtain ⟨root', -, hok'⟩ := runsOut_string hq (body_more hq h) n hn
    rw [List.cons_append, hok'] at hok
    simp only [Except.ok.injEq, Prod.mk.injEq] at hok
    exact hok.2.symm
  | @bracket t u e accessor w w' sp sp₁ sp₂ ht hw hsp hsp₁ hw' hsp₂ =>
    have hin : Expression readHex (sp₁ ++ w' ++ sp₂) :=
      ⟨u, accessor, sp₁, w', sp₂, hsp₁, hw', hsp₂, rfl⟩
    intro n root rest hn hok
    have hshape : w ++ sp ++ 91 :: (sp₁ ++ w' ++ sp₂) ++ [93, 120] =
        w ++ sp ++ 91 :: (sp₁ ++ w' ++ sp₂ ++ 93 :: [120]) := by simp
    rw [hshape] at hn hok
    obtain ⟨m, hm, -, hround⟩ := bracket_round ht hw hsp n hn
    obtain ⟨accessor', ha, hinner⟩ := expression_close hin [120] m hm
    rw [(hround accessor' [120] hinner).2 ha] at hok
    -- a second token follows the bracket
    cases m with
    | zero => cases hm
    | succ m => simp [parseLoop] at hok
  | @nested t e w w' sp sp₁ ht hw hsp hsp₁ _ ih =>
    have hshape : w ++ sp ++ 91 :: (sp₁ ++ w') ++ [93, 120] =
        w ++ sp ++ 91 :: (sp₁ ++ (w' ++ [93, 120])) := by simp
    rw [hshape]
    exact notClosed_bracket ht hw hsp (ih.spaces hsp₁)

/-! ## The accepted texts -/

theorem parseWatch_ok {text : Bytes} {root : ExpressionNode} :
    parseWatch text = .ok root ↔ parseLoop (text.length + 1) [] {} text = .ok (root, []) := by
  unfold parseWatch parseExpression
  constructor
  · intro h
    split at h
    · cases h
    · rename_i root' heq
      obtain rfl := Except.ok.inj h
      exact heq
    · cases h
  · intro h
    rw [h]

theorem accepted_of_runsOut {text : Bytes} (h : RunsOut text) : Accepted text := by
  obtain ⟨root, -, hok⟩ := h (text.length + 1) (Nat.lt_succ_self _)
  exact ⟨root, parseWatch_ok.mpr hok⟩

theorem accepted_spaces {text : Bytes} (h : Spaces text) : Accepted text := by
  have hadv := advances_spaces [] {} h []
  rw [List.append_nil] at hadv
  obtain ⟨m, hm, heq⟩ := hadv (text.length + 1) (Nat.lt_succ_self _)
  cases m with
  | zero => cases hm
  | succ m => exact ⟨_, parseWatch_ok.mpr (heq.trans (parseLoop_end m _ _))⟩

/-- The accepted texts, with the escapes as `ReadString` takes them. -/
theorem accepted_iff (text : Bytes) :
    Accepted text ↔ Expression readHex text ∨ Spaces text ∨ Stray readHex text ∨
      CutShort readHex text := by
  constructor
  · intro h
    obtain ⟨root, hroot⟩ := h
    rcases (parsed_inv _).1 text root [] (parseWatch_ok.mp hroot) with
      ⟨sp, text', hsp, rfl, hends⟩ | ⟨-, hsp, -⟩
    · rcases hends with ⟨t, e, w, sp', hw, hsp', -, rfl | ⟨rfl, -⟩⟩ | ⟨-, hcut⟩
      · refine .inr (.inr (.inl ⟨sp ++ w ++ sp', ⟨t, e, sp, w, sp', hsp, hw, hsp', rfl⟩, ?_⟩))
        simp
      · exact .inl ⟨t, e, sp, w, sp', hsp, hw, hsp', by simp⟩
      · exact .inr (.inr (.inr ⟨sp, text', hsp, hcut, rfl⟩))
    · exact .inr (.inl hsp)
  · intro h
    rcases h with hexpr | hsp | ⟨text', hexpr, rfl⟩ | ⟨sp, w, hsp, hcut, rfl⟩
    · exact accepted_of_runsOut (runsOut_expression hexpr)
    · exact accepted_spaces hsp
    · obtain ⟨root, -, hok⟩ := expression_close hexpr [] ((text' ++ [93]).length + 1)
        (Nat.lt_succ_self _)
      exact ⟨root, parseWatch_ok.mpr hok⟩
    · exact accepted_of_runsOut ((cut_runsOut hcut).spaces hsp)

/-- No expression is blank, ends in a `]` of its own too many, or is cut short. -/
theorem expression_exclusive {text : Bytes} (h : Expression readHex text) :
    ¬ (Spaces text ∨ Stray readHex text ∨ CutShort readHex text) := by
  -- a `]` and an `x` after it end the expression at the `]`
  obtain ⟨root, -, hok⟩ := expression_close h [120] ((text ++ [93, 120]).length + 1)
    (Nat.lt_succ_self _)
  intro hor
  rcases hor with hsp | ⟨text', hexpr, rfl⟩ | ⟨sp, w, hsp, hcut, rfl⟩
  · obtain ⟨m, hm, heq⟩ := advances_spaces [] {} hsp [93, 120] _ (Nat.lt_succ_self _)
    rw [heq] at hok
    cases m with
    | zero => cases hm
    | succ m => simp [parseLoop] at hok
  · have hshape : text' ++ [93] ++ [93, 120] = text' ++ 93 :: [93, 120] := by simp
    obtain ⟨root', -, hok'⟩ := expression_close hexpr [93, 120] _ (Nat.lt_succ_self _)
    rw [hshape, hok'] at hok
    cases hok
  · have hnc := (cut_notClosed hcut).spaces hsp _ root [120] (Nat.lt_succ_self _)
    rw [List.append_assoc] at hok
    cases hnc hok

/-! ## Texts without hexadecimal escapes -/

/-- A backslash with the letter of a hexadecimal escape after it. -/
def HexEscape (text : Bytes) : Prop :=
  ∃ pre letter post, letter ∈ [(120 : UInt8), 117, 85] ∧ text = pre ++ 92 :: letter :: post

theorem HexEscape.mono {w w' : Bytes} (h : HexEscape w) (hw : w <:+: w') : HexEscape w' := by
  obtain ⟨pre, letter, post, hl, rfl⟩ := h
  obtain ⟨a, b, rfl⟩ := hw
  exact ⟨a ++ pre, letter, post ++ b, hl, by simp⟩

/-- Such a reading of escapes starts them with one of the three letters. -/
def Lettered (hex : UInt8 → Bytes → Bytes → Prop) : Prop :=
  ∀ c e w, hex c e w → ∃ letter ds, letter ∈ [(120 : UInt8), 117, 85] ∧ e = letter :: ds

theorem lettered_readHex : Lettered readHex := by
  intro c e w he
  obtain ⟨letter, size, maxDigits, digits, s, hl, -, -, -, -, rfl, -⟩ := he
  refine ⟨letter, _, ?_, rfl⟩
  simp only [List.mem_cons, Prod.mk.injEq, List.not_mem_nil, or_false] at hl
  rcases hl with ⟨rfl, -⟩ | ⟨rfl, -⟩ | ⟨rfl, -⟩ <;> simp

theorem lettered_plainHex : Lettered plainHex := by
  intro c e w he
  obtain ⟨letter, size, digits, hl, -, -, -, -, rfl, -⟩ := he
  refine ⟨letter, _, ?_, rfl⟩
  simp only [List.mem_cons, Prod.mk.injEq, List.not_mem_nil, or_false] at hl
  rcases hl with ⟨rfl, -⟩ | ⟨rfl, -⟩ | ⟨rfl, -⟩ <;> simp

variable {hex hex' : UInt8 → Bytes → Bytes → Prop}

theorem Body.change (hl : Lettered hex) {q : UInt8} {stop v w : Bytes} (h : Body hex q stop v w)
    (hfree : ¬ HexEscape w) : Body hex' q stop v w := by
  induction h with
  | stop => exact .stop
  | @raw c v w hq hs hn _ ih =>
    exact .raw hq hs hn (ih fun hw => hfree (hw.mono (List.suffix_cons c w).isInfix))
  | @simple e c v w he _ ih =>
    refine .simple he (ih fun hw => hfree (hw.mono ⟨[92, e], [], by simp⟩))
  | @hex c e v w he _ ih =>
    obtain ⟨letter, ds, hletter, rfl⟩ := hl c e w he
    exact absurd ⟨[], letter, ds ++ w, hletter, rfl⟩ hfree

theorem Spells.change (hl : Lettered hex) {t : ExpressionNodeType} {e : Expr t} {w : Bytes}
    (h : Spells hex e w) (hfree : ¬ HexEscape w) : Spells hex' e w := by
  induction h with
  | identifier name => exact .identifier name
  | number digits => exact .number digits
  | @string q v w hq h =>
    exact .string hq (h.change hl fun hw => hfree (hw.mono (List.suffix_cons q w).isInfix))
  | @field e w sp name _ hsp ih =>
    exact .field name (ih fun hw => hfree (hw.mono ⟨[], sp ++ 46 :: name.bytes, by simp⟩)) hsp
  | @index t u e accessor w w' sp sp₁ sp₂ ht _ hsp hsp₁ _ hsp₂ ih ih' =>
    refine .index ht (ih fun hw => hfree (hw.mono ?_)) hsp hsp₁
      (ih' fun hw => hfree (hw.mono ?_)) hsp₂
    · exact ⟨[], sp ++ 91 :: (sp₁ ++ w' ++ sp₂ ++ [93]), by simp⟩
    · exact ⟨w ++ sp ++ 91 :: sp₁, sp₂ ++ [93], by simp⟩

theorem expression_change (hl : Lettered hex) {text : Bytes} (h : Expression hex text)
    (hfree : ¬ HexEscape text) : Expression hex' text := by
  obtain ⟨t, e, sp, w, sp', hsp, hw, hsp', rfl⟩ := h
  refine ⟨t, e, sp, w, sp', hsp, hw.change hl fun hesc => hfree (hesc.mono ?_), hsp', rfl⟩
  exact ⟨sp, sp', rfl⟩

/-- Nothing but the expressions of the grammar is an expression as the reader takes
it, blank, followed by a `]` too many, or cut short; and each of them is. -/
def Agrees (text : Bytes) : Prop :=
  Expression plainHex text ↔
    Expression readHex text ∨ Spaces text ∨ Stray readHex text ∨ CutShort readHex text

/-- **The accepted texts and the grammar.** A text is treated as the grammar says
exactly if it belongs to the grammar and to one of the four kinds of accepted
texts, or to none of the five. For a text without hexadecimal escapes, where the
two readings do not differ, this means that it is not blank, not followed by a
`]` too many, and not cut short. -/
theorem watch_grammar (text : Bytes) :
    ((Accepted text ↔ Expression plainHex text) ↔ Agrees text) ∧
      (¬ HexEscape text → ((Accepted text ↔ Expression plainHex text) ↔
        ¬ (Spaces text ∨ Stray readHex text ∨ CutShort readHex text))) := by
  refine ⟨by rw [accepted_iff]; exact iff_comm, fun hfree => ?_⟩
  have hsame : Expression plainHex text ↔ Expression readHex text :=
    ⟨fun h => expression_change lettered_plainHex h hfree,
      fun h => expression_change lettered_readHex h hfree⟩
  rw [accepted_iff, hsame]
  constructor
  · intro hiff hodd
    exact expression_exclusive (hiff.mp (.inr hodd)) hodd
  · intro hnot
    exact ⟨fun h => h.resolve_right hnot, .inl⟩

/-! ## An open bracket -/

theorem not_hexEscape {text : Bytes} (h : 92 ∉ text) : ¬ HexEscape text := by
  intro hesc
  obtain ⟨pre, letter, post, -, rfl⟩ := hesc
  exact h (by simp)

/-- `a[b` is an expression cut short. -/
theorem openBracket_cutShort : CutShort readHex (ascii "a[b") := by
  have hb : Spells readHex (.identifier (.letter 98 rfl)) [98] :=
    .identifier _
  have ha : Spells readHex exprA [97] := .identifier _
  exact ⟨[], ascii "a[b", spaces_nil,
    .bracket (by decide) ha spaces_nil spaces_nil hb spaces_nil, rfl⟩

theorem watch_grammar_indexed : Accepted (ascii "a[a]") ↔ Expression plainHex (ascii "a[a]") := by
  refine ((watch_grammar (ascii "a[a]")).2 (not_hexEscape (by decide))).mpr ?_
  apply expression_exclusive
  have ha : Spells readHex exprA [97] := .identifier _
  exact ⟨.identifier, .index exprA (by decide) exprA, [], ascii "a[a]", [], spaces_nil,
    .index (by decide) ha spaces_nil spaces_nil ha spaces_nil, spaces_nil, rfl⟩

/-- The parse stage accepts `a[b` and the empty text, which are no expressions. -/
theorem openBracket_accepted :
    Accepted (ascii "a[b") ∧ ¬ Expression plainHex (ascii "a[b") ∧ Accepted [] ∧
      ¬ Expression plainHex [] := by
  have hnot : ∀ text, 92 ∉ text → Spaces text ∨ Stray readHex text ∨ CutShort readHex text →
      ¬ Expression plainHex text := fun text hfree hodd h =>
    expression_exclusive (expression_change lettered_plainHex h (not_hexEscape hfree)) hodd
  exact ⟨⟨_, rfl⟩, hnot _ (by decide) (.inr (.inr openBracket_cutShort)), ⟨_, rfl⟩,
    hnot [] (by decide) (.inl spaces_nil)⟩

end Sdb.L3
