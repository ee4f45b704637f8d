import Sdb.L3Vm.Language
import Sdb.L3Vm.Commands

/-!
# One text for each watch

The parser accepts more than the expressions of its grammar: texts that end inside a
bracket or a string, a `]` too many, spaces, two kinds of quotes, escapes that take a
character with them. Whatever it accepts it makes the tree of an expression, and so the
tree can be printed again.

* `shaped_inv`: every tree is that of an expression;
* `print_tree`: printing the tree is printing the expression;
* `watch_canonical`: an accepted watch and the printed text of its tree are one watch.
-/
namespace Sdb.L3

open Sdb.L1

/-! ## Printing a tree -/

/-- The text of a node that is no suffix. -/
def tokenText (type : ExpressionNodeType) (value : Bytes) : Bytes :=
  if type = .string then 34 :: (value.flatMap escapeByte ++ [34]) else value

mutual

/-- A chain as it is written. -/
def ExpressionNode.print : ExpressionNode → Bytes
  | .null => []
  | .node type value _ next => tokenText type value ++ next.printSuffixes

def ExpressionNode.printSuffixes : ExpressionNode → Bytes
  | .null => []
  | .node _ value .null next => 46 :: value ++ next.printSuffixes
  | .node _ _ (.node type value accessor last) next =>
    91 :: ((ExpressionNode.node type value accessor last).print ++ [93]) ++ next.printSuffixes

end

/-- The text of a node after the first. -/
def Link.suffix (l : Link) : Bytes :=
  match l.accessorExpression with
  | .null => 46 :: l.accessorValue
  | accessor => 91 :: (accessor.print ++ [93])

theorem printSuffixes_chain (ls : List Link) :
    (chain ls).printSuffixes = ls.flatMap Link.suffix := by
  induction ls with
  | nil => rfl
  | cons l ls ih =>
    obtain ⟨type, value, accessor⟩ := l
    cases accessor with
    | null => simp [chain, ExpressionNode.printSuffixes, Link.suffix, ih]
    | node _ _ _ _ => simp [chain, ExpressionNode.printSuffixes, Link.suffix, ih]

/-- A node at the end of a chain adds its suffix. -/
theorem print_snoc {l : Link} {ls : List Link} (last : Link) :
    (chain (l :: ls ++ [last])).print = (chain (l :: ls)).print ++ last.suffix := by
  simp [chain, ExpressionNode.print, printSuffixes_chain]

theorem Expr.print_push {t : ExpressionNodeType} (e : Expr t) (last : Link) :
    (chain (e.nodes.1 ++ [e.nodes.2] ++ [last])).print = e.tree.print ++ last.suffix := by
  obtain ⟨l, ls, hnodes, -⟩ := e.nodes_head
  rw [tree, hnodes]
  exact print_snoc last

/-- Printing the tree is printing the expression. -/
theorem print_tree {t : ExpressionNodeType} (e : Expr t) : e.tree.print = e.print := by
  induction e with
  | identifier name => simp [Expr.tree, Expr.nodes, chain, ExpressionNode.print, tokenText,
      ExpressionNode.printSuffixes, Expr.print]
  | number digits => simp [Expr.tree, Expr.nodes, chain, ExpressionNode.print, tokenText,
      ExpressionNode.printSuffixes, Expr.print]
  | string value => simp [Expr.tree, Expr.nodes, chain, ExpressionNode.print, tokenText,
      ExpressionNode.printSuffixes, Expr.print]
  | field e name ih =>
    rw [Expr.print, ← ih]
    exact e.print_push _
  | index e ht accessor ih ih' =>
    have hsuffix : ({ type := .identifier, accessorExpression := accessor.tree } : Link).suffix =
        91 :: (accessor.tree.print ++ [93]) := by
      obtain ⟨l, ls, hnodes, -⟩ := accessor.nodes_head
      rw [Expr.tree, hnodes]
      rfl
    rw [Expr.print, ← ih, ← ih', ← hsuffix]
    exact e.print_push _

/-! ## The trees the parser builds -/

/-- What the parser builds from the start of an expression, and from the end of a part. -/
def ShapedBelow (n : Nat) : Prop :=
  (∀ pos root rest, parseLoop n [] {} pos = .ok (root, rest) →
      (Spaces pos ∧ root.type = .undefined) ∨
        ∃ (t : ExpressionNodeType) (e : Expr t), root = e.tree) ∧
    ∀ (t : ExpressionNodeType) (e : Expr t) (pos : Bytes) (root : ExpressionNode) (rest : Bytes),
      parseLoop n e.nodes.1 e.nodes.2 pos = .ok (root, rest) →
      ∃ (u : ExpressionNodeType) (e' : Expr u), root = e'.tree

theorem StartRound.shaped {n : Nat} (ih : ShapedBelow n) {pos : Bytes}
    {r : Except ParseError (ExpressionNode × Bytes)} (hround : StartRound n pos r)
    {root : ExpressionNode} {rest : Bytes} (h : r = .ok (root, rest)) :
    (Spaces pos ∧ root.type = .undefined) ∨
      ∃ (t : ExpressionNodeType) (e : Expr t), root = e.tree := by
  cases hround with
  | ends =>
    simp only [Except.ok.injEq, Prod.mk.injEq] at h
    obtain ⟨rfl, -⟩ := h
    exact .inl ⟨spaces_nil, rfl⟩
  | space cs => exact (ih.1 cs root rest h).imp_left fun hblank => ⟨spaces_cons hblank.1, hblank.2⟩
  | token _ pos => exact .inr (ih.2 _ _ pos root rest h)
  | @openString q v w hq hw => exact .inr (ih.2 .string (.string v) [] root rest h)
  | stringError _ _ => cases h
  | refused _ => cases h

theorem PartRound.shaped {n : Nat} (ih : ∀ m < n + 1, ShapedBelow m) {t : ExpressionNodeType}
    {e : Expr t} {pos : Bytes} {r : Except ParseError (ExpressionNode × Bytes)}
    (hround : PartRound n e pos r) {root : ExpressionNode} {rest : Bytes}
    (h : r = .ok (root, rest)) : ∃ (u : ExpressionNodeType) (e' : Expr u), root = e'.tree := by
  have ihn := ih n (Nat.lt_succ_self n)
  cases hround with
  | ends | close _ _ =>
    simp only [Except.ok.injEq, Prod.mk.injEq] at h
    exact ⟨t, e, h.1.symm⟩
  | space _ cs => exact ihn.2 t e cs root rest h
  | @field e name m hm pos => exact (ih m (by omega)).2 .identifier (e.field name) pos root rest h
  | bracketError _ _ _ => cases h
  | bracket _ ht hinner ha =>
    obtain ⟨-, hblank⟩ | ⟨u, i, rfl⟩ := ihn.1 _ _ _ hinner
    · exact absurd hblank ha
    · exact ihn.2 .identifier (.index e ht i) _ root rest h
  | refused _ _ => cases h
  | fuel => cases h

theorem shaped_inv (n : Nat) : ShapedBelow n := by
  induction n using Nat.strongRecOn with
  | ind n ih =>
    cases n with
    | zero => exact ⟨fun _ _ _ h => (nomatch h), fun _ _ _ _ _ h => (nomatch h)⟩
    | succ n =>
      exact ⟨fun pos _ _ h => (start_round n pos).shaped (ih n (Nat.lt_succ_self n)) h,
        fun _ e pos _ _ h => (part_round n e pos).shaped ih h⟩

/-- An accepted text that is not blank has the tree of an expression. -/
theorem parseWatch_shaped {text : Bytes} {root : ExpressionNode}
    (h : parseWatch text = .ok root) (hblank : ¬ Spaces text) :
    ∃ (t : ExpressionNodeType) (e : Expr t), root = e.tree :=
  ((shaped_inv _).1 text root [] (parseWatch_ok.mp h)).resolve_left fun hspaces =>
    hblank hspaces.1

/-! ## Main result -/

/-- **One text for each watch.** An accepted watch that is not blank, however it is spelled
and wherever it ends, has a tree whose printed text is an expression of the grammar, is
parsed to the same tree, and is evaluated by `GetImmediateValue` as the watch itself is; and
two such watches have the same tree exactly if they have the same printed text. -/
theorem watch_canonical {text : Bytes} {root : ExpressionNode} (h : parseWatch text = .ok root)
    (hblank : ¬ Spaces text) :
    Expression plainHex root.print ∧ parseWatch root.print = .ok root ∧
      (∀ {H : Type} (api : SqApi H) (r : Renderer H) (fuel : Nat) (stackFrame : Int32),
        getImmediateValue api r fuel stackFrame root.print =
          getImmediateValue api r fuel stackFrame text) ∧
      ∀ text' root', parseWatch text' = .ok root' → ¬ Spaces text' →
        (root'.print = root.print ↔ root' = root) := by
  have hprinted : ∀ text root, parseWatch text = .ok root → ¬ Spaces text →
      Expression plainHex root.print ∧ parseWatch root.print = .ok root := by
    intro text root h hblank
    obtain ⟨t, e, rfl⟩ := parseWatch_shaped h hblank
    rw [print_tree]
    refine ⟨⟨t, e, [], e.print, [], spaces_nil, print_spells plainHex e, spaces_nil, by simp⟩, ?_⟩
    simpa using parseWatch_spells (print_spells readHex e) spaces_nil spaces_nil
  obtain ⟨hexpression, hparse⟩ := hprinted text root h hblank
  refine ⟨hexpression, hparse, fun api r fuel stackFrame => ?_, fun text' root' h' hblank' => ?_⟩
  · unfold getImmediateValue
    rw [hparse, h]
  · constructor
    · intro hsame
      have hparse' := (hprinted text' root' h' hblank').2
      rw [hsame, hparse, Except.ok.injEq] at hparse'
      exact hparse'.symm
    · intro hsame
      rw [hsame]

/-- `a['b`, cut short in a string in a bracket, is `a["b"]`. -/
theorem watch_canonical_cutShort : ∃ root, parseWatch (ascii "a['b") = .ok root ∧
    root.print = ascii "a[\"b\"]" ∧ parseWatch (ascii "a[\"b\"]") = .ok root := by
  have hroot : ∃ root, parseWatch (ascii "a['b") = .ok root ∧ root.print = ascii "a[\"b\"]" :=
    ⟨_, rfl, rfl⟩
  obtain ⟨root, hparse, hprint⟩ := hroot
  have hparse' := (watch_canonical hparse (by simp [Spaces, ascii])).2.1
  rw [hprint] at hparse'
  exact ⟨root, hparse, hprint, hparse'⟩

end Sdb.L3
