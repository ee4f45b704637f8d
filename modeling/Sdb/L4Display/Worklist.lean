import Sdb.L4Display.Evaluate

/-!
# The worklist of a watch

`GetImmediateValue` keeps the chains it has to evaluate on a stack. A chain with
accessor expressions that have no result yet stays on the stack below them, and
is taken up again when they are done. A chain is known by its place, a list of
steps from the root; the places inside the chain at `id` are the lists that end
in `id`, so two chains do not share results unless one is inside the other
(`Apart`).

* `resolves`: a chain of an accepted expression on the stack is taken off, with
  its value (`reads`) on record and nothing else changed outside of it, or the
  evaluation ends with a code other than `Success` where it has no value;
* `answers_resolveExpression`: so the whole expression gets its value.
-/
namespace Sdb.L4

open Sdb.L1 Sdb.L3 Sdb.Exec

/-! ## Places -/

/-- Nothing inside `id` has a result. -/
def Fresh (results : ExpressionResults) (id : NodeId) : Prop := ∀ l, id <:+ l → results l = none

/-- No place is inside both. -/
def Apart (id id' : NodeId) : Prop := ∀ l, ¬(id <:+ l ∧ id' <:+ l)

theorem Apart.symm {id id' : NodeId} (h : Apart id id') : Apart id' id := fun l hl => h l hl.symm

theorem apart_steps {step step' : NodeStep} (hne : step ≠ step') (id : NodeId) :
    Apart (step :: id) (step' :: id) := by
  intro l hl
  obtain ⟨h, h'⟩ := hl
  have hsuffix := List.suffix_of_suffix_length_le h h' (by simp)
  have heq := hsuffix.eq_of_length (by simp)
  exact hne (List.cons.inj heq).1

theorem Apart.inside {x y x' y' : NodeId} (h : Apart x y) (hx : x <:+ x') (hy : y <:+ y') :
    Apart x' y' := fun l hl => h l ⟨hx.trans hl.1, hy.trans hl.2⟩

theorem accessors_inside {id : NodeId} {node : ExpressionNode} {x : NodeId × ExpressionNode}
    (hx : x ∈ accessors id node) : ∃ step, (step :: id) <:+ x.1 := by
  induction node generalizing id with
  | null => cases hx
  | node type text accessor next _ ih =>
    rw [accessors_node] at hx
    rcases List.mem_append.mp hx with hx | hx
    · split at hx
      · cases hx
      · obtain rfl := List.mem_singleton.mp hx
        exact ⟨.accessor, List.suffix_rfl⟩
    · obtain ⟨step, hstep⟩ := ih hx
      exact ⟨.next, (List.suffix_cons step _).trans hstep⟩

theorem accessors_apart (id : NodeId) (node : ExpressionNode) :
    (accessors id node).Pairwise fun x y => Apart x.1 y.1 := by
  induction node generalizing id with
  | null => exact List.Pairwise.nil
  | node type text accessor next _ ih =>
    rw [accessors_node]
    by_cases hnull : accessor = .null
    · rw [if_pos hnull]
      exact ih _
    · rw [if_neg hnull]
      refine List.pairwise_cons.mpr ⟨fun y hy => ?_, ih _⟩
      obtain ⟨step, hstep⟩ := accessors_inside hy
      exact (apart_steps (by decide) id).inside List.suffix_rfl
        ((List.suffix_cons step _).trans hstep)

theorem unresolved_fresh {results : ExpressionResults} {id : NodeId} {node : ExpressionNode}
    (h : ∀ x ∈ accessors id node, results x.1 = none) :
    unresolved results id node = accessors id node := by
  induction node generalizing id with
  | null => rfl
  | node type text accessor next _ ih =>
    rw [accessors_node] at h ⊢
    have hnext := ih fun x hx => h x (List.mem_append_right _ hx)
    rw [unresolved]
    by_cases hnull : accessor = .null
    · rw [if_neg (fun hand => hand.1 hnull), if_pos hnull, hnext]
      rfl
    · rw [if_neg hnull] at h ⊢
      rw [if_pos ⟨hnull, h (.accessor :: id, accessor) (by simp)⟩, hnext]
      rfl

theorem unresolved_recorded {results : ExpressionResults} {id : NodeId} {node : ExpressionNode}
    (h : ∀ x ∈ accessors id node, results x.1 ≠ none) : unresolved results id node = [] := by
  induction node generalizing id with
  | null => rfl
  | node type text accessor next _ ih =>
    rw [accessors_node] at h
    have hnext := ih fun x hx => h x (List.mem_append_right _ hx)
    rw [unresolved, hnext]
    by_cases hnull : accessor = .null
    · rw [if_neg (fun hand => hand.1 hnull)]
    · rw [if_neg hnull] at h
      exact if_neg fun hand => h (.accessor :: id, accessor) (by simp) hand.2

/-! ## The loop -/

section
variable {H : Type} {api : SqApi H} {sc : Scene} {Here : H → Prop}

theorem keysRead_none {stackFrame : Int32} {type : ExpressionNodeType} {text : Bytes}
    {id : NodeId} {node : ExpressionNode} {x : NodeId × ExpressionNode}
    (hx : x ∈ accessors id node) (hnone : reads api sc stackFrame x.2 = none) :
    keysRead api sc stackFrame type text node = none := by
  induction node generalizing id with
  | null => cases hx
  | node type' text' accessor next _ ih =>
    rw [accessors_node] at hx
    rw [keysRead]
    rcases List.mem_append.mp hx with hx | hx
    · split at hx
      · cases hx
      · rename_i hnull
        obtain rfl := List.mem_singleton.mp hx
        rw [if_neg hnull, hnone]
        rfl
    · rw [ih hx]
      cases (if accessor = .null then literal type text else reads api sc stackFrame accessor) <;>
        rfl

variable (api) (stackFrame : Int32)

/-- In `k` rounds the loop comes from one worklist to another. -/
def Leads (fuel k : Nat) (stack : List (NodeId × ExpressionNode)) (results : ExpressionResults)
    (h : H) (stack' : List (NodeId × ExpressionNode)) (results' : ExpressionResults)
    (h' : H) : Prop :=
  ∀ n a h'' top, Gives (evaluateLoop api stackFrame fuel n stack' results') h' [] a h'' top →
    Gives (evaluateLoop api stackFrame fuel (n + k) stack results) h [] a h'' top

/-- Within `k` rounds the loop ends with a code other than `Success`. -/
def Fails (fuel k : Nat) (stack : List (NodeId × ExpressionNode)) (results : ExpressionResults)
    (h h' : H) : Prop :=
  ∃ rc, rc ≠ .success ∧
    ∀ n, Gives (evaluateLoop api stackFrame fuel (n + k) stack results) h [] (.error rc) h' []

variable {api stackFrame}

theorem Leads.trans {fuel k k' : Nat} {stack stack' stack'' : List (NodeId × ExpressionNode)}
    {results results' results'' : ExpressionResults} {h h' h'' : H}
    (h₁ : Leads api stackFrame fuel k stack results h stack' results' h')
    (h₂ : Leads api stackFrame fuel k' stack' results' h' stack'' results'' h'') :
    Leads api stackFrame fuel (k' + k) stack results h stack'' results'' h'' := by
  intro n a h''' top hend
  rw [← Nat.add_assoc]
  exact h₁ _ _ _ _ (h₂ _ _ _ _ hend)

theorem Leads.fails {fuel k k' : Nat} {stack stack' : List (NodeId × ExpressionNode)}
    {results results' : ExpressionResults} {h h' h'' : H}
    (h₁ : Leads api stackFrame fuel k stack results h stack' results' h')
    (h₂ : Fails api stackFrame fuel k' stack' results' h' h'') :
    Fails api stackFrame fuel (k' + k) stack results h h'' := by
  obtain ⟨rc, hrc, hend⟩ := h₂
  refine ⟨rc, hrc, fun n => ?_⟩
  rw [← Nat.add_assoc]
  exact h₁ _ _ _ _ (hend n)

/-- A node whose accessor expressions are on record. -/
theorem evaluateLoop_node {fuel n : Nat} {id : NodeId} {node : ExpressionNode}
    {stack : List (NodeId × ExpressionNode)} {results : ExpressionResults}
    (h : unresolved results id node = []) :
    evaluateLoop api stackFrame fuel (n + 1) ((id, node) :: stack) results = (do
      match ← evaluateNode api fuel stackFrame results id node with
      | .error rc => return .error rc
      | .ok state =>
        evaluateLoop api stackFrame fuel n stack
          (Function.update results id (some state))) := by
  rw [evaluateLoop]
  split
  · rfl
  · rename_i hne
    exact absurd h hne

/-- A node that has to wait for its accessor expressions. -/
theorem leads_push {fuel : Nat} {id : NodeId} {node : ExpressionNode}
    {stack : List (NodeId × ExpressionNode)} {results : ExpressionResults} {h : H}
    (hne : unresolved results id node ≠ []) :
    Leads api stackFrame fuel 1 ((id, node) :: stack) results h
      ((unresolved results id node).reverse ++ (id, node) :: stack) results h := by
  intro n a h'' top hend
  rw [evaluateLoop]
  split
  · rename_i heq
    exact absurd heq hne
  · exact hend

variable (api sc Here stackFrame)

/-- The value of a chain and its place in the results. -/
def HasValue (results : ExpressionResults) (x : NodeId × ExpressionNode) : Prop :=
  ∃ state, results x.1 = some state ∧ reads api sc stackFrame x.2 = some state.resolvedValue

/-- The chains `xs` on top of the stack are taken off with their values on
record, or one of them has none and the loop ends. -/
def Clears (xs : List (NodeId × ExpressionNode)) (h : H) : Prop :=
  (∃ k N h', Here h' ∧ ∀ fuel, N ≤ fuel → ∀ results, (∀ x ∈ xs, Fresh results x.1) →
    ∃ results', (∀ x ∈ xs, HasValue api sc stackFrame results' x) ∧
      (∀ l, (∀ x ∈ xs, ¬x.1 <:+ l) → results' l = results l) ∧
      ∀ stack, Leads api stackFrame fuel k (xs ++ stack) results h stack results' h') ∨
  (∃ x ∈ xs, reads api sc stackFrame x.2 = none) ∧
    ∃ k N h', Here h' ∧ ∀ fuel, N ≤ fuel → ∀ results, (∀ x ∈ xs, Fresh results x.1) →
      ∀ stack, Fails api stackFrame fuel k (xs ++ stack) results h h'

/-- A chain is evaluated wherever it stands. -/
def Resolves (node : ExpressionNode) : Prop :=
  ∀ id h, Here h → Clears api sc Here stackFrame [(id, node)] h

variable {api sc Here stackFrame}

omit api sc Here stackFrame in
/-- The first chain is done; the others are untouched. -/
theorem fresh_after {x : NodeId × ExpressionNode} {xs : List (NodeId × ExpressionNode)}
    {results results' : ExpressionResults} (hf : ∀ y ∈ x :: xs, Fresh results y.1)
    (hapart : ∀ y ∈ xs, Apart x.1 y.1)
    (hkeep : ∀ l, (∀ y ∈ [x], ¬y.1 <:+ l) → results' l = results l) :
    ∀ y ∈ xs, Fresh results' y.1 := by
  intro y hy l hl
  rw [hkeep l fun z hz hzl => hapart y hy l ⟨List.mem_singleton.mp hz ▸ hzl, hl⟩]
  exact hf y (List.mem_cons_of_mem _ hy) l hl

/-- The chains on top of the stack, one after the other. -/
theorem clears_all {xs : List (NodeId × ExpressionNode)} {h : H} (hh : Here h)
    (hx : ∀ x ∈ xs, Resolves api sc Here stackFrame x.2)
    (hapart : xs.Pairwise fun x y => Apart x.1 y.1) : Clears api sc Here stackFrame xs h := by
  induction xs generalizing h with
  | nil =>
    refine .inl ⟨0, 0, h, hh, fun fuel _ results _ => ⟨results, ?_, fun l _ => rfl, ?_⟩⟩
    · simp
    · exact fun stack n a h'' top hend => hend
  | cons x xs ih =>
    obtain ⟨hfirst, hrest⟩ := List.pairwise_cons.mp hapart
    have hfresh : ∀ {results : ExpressionResults}, (∀ y ∈ x :: xs, Fresh results y.1) →
        ∀ y ∈ [x], Fresh results y.1 := fun hf y hy =>
      hf y (List.mem_singleton.mp hy ▸ List.mem_cons_self)
    rcases hx x List.mem_cons_self x.1 h hh with
      ⟨k, N, h', hh', hstep⟩ | ⟨⟨y, hy, hynone⟩, k, N, h', hh', hfails⟩
    · rcases ih hh' (fun y hy => hx y (List.mem_cons_of_mem _ hy)) hrest with
        ⟨k', N', h'', hh'', hsteps⟩ | ⟨⟨y, hy, hynone⟩, k', N', h'', hh'', hfails⟩
      · left
        refine ⟨k' + k, max N N', h'', hh'', fun fuel hfuel results hf => ?_⟩
        obtain ⟨results₁, hvalue₁, hkeep₁, hlead₁⟩ := hstep fuel (by omega) results (hfresh hf)
        obtain ⟨results₂, hvalue₂, hkeep₂, hlead₂⟩ := hsteps fuel (by omega) results₁
          (fresh_after hf hfirst hkeep₁)
        refine ⟨results₂, fun y hy => ?_, fun l hl => ?_, fun stack => ?_⟩
        · rcases List.mem_cons.mp hy with rfl | hy
          · obtain ⟨state, hstate, hreads⟩ := hvalue₁ y List.mem_cons_self
            refine ⟨state, ?_, hreads⟩
            rw [hkeep₂ _ fun z hz hzl => hfirst z hz _ ⟨List.suffix_rfl, hzl⟩]
            exact hstate
          · exact hvalue₂ y hy
        · rw [hkeep₂ l fun y hy => hl y (List.mem_cons_of_mem _ hy)]
          exact hkeep₁ l fun y hy => hl y (List.mem_singleton.mp hy ▸ List.mem_cons_self)
        · exact (hlead₁ _).trans (hlead₂ _)
      · right
        refine ⟨⟨y, List.mem_cons_of_mem _ hy, hynone⟩, k' + k, max N N', h'', hh'',
          fun fuel hfuel results hf stack => ?_⟩
        obtain ⟨results₁, -, hkeep₁, hlead₁⟩ := hstep fuel (by omega) results (hfresh hf)
        exact (hlead₁ _).fails
          (hfails fuel (by omega) results₁ (fresh_after hf hfirst hkeep₁) stack)
    · right
      rw [List.mem_singleton.mp hy] at hynone
      exact ⟨⟨x, List.mem_cons_self, hynone⟩, k, N, h', hh', fun fuel hfuel results hf stack =>
        hfails fuel hfuel results (hfresh hf) (xs ++ stack)⟩

variable (hst : Stage api sc Here) (stackFrame)

include hst

/-- The chain itself, when its accessor expressions are done. -/
theorem clears_node {h : H} (hh : Here h) (type : ExpressionNodeType) (text : Bytes)
    (next : ExpressionNode) :
    ∃ h', Here h' ∧ ∃ N, ∀ fuel, N ≤ fuel → ∀ results id,
      (∀ x ∈ accessors id (.node type text .null next), HasValue api sc stackFrame results x) →
      match reads api sc stackFrame (.node type text .null next) with
      | some v => ∃ state, state.resolvedValue = v ∧ ∀ stack,
          Leads api stackFrame fuel 1 ((id, .node type text .null next) :: stack) results h stack
            (Function.update results id (some state)) h'
      | none => ∀ stack,
          Fails api stackFrame fuel 1 ((id, .node type text .null next) :: stack) results h h' := by
  obtain ⟨h', hh', N, hN⟩ := answers_evaluateNode hst hh stackFrame type text next
  refine ⟨h', hh', N, fun fuel hfuel results id hvalues => ?_⟩
  have hanswers := hN fuel hfuel results id hvalues
  have hdone : unresolved results id (.node type text .null next) = [] :=
    unresolved_recorded fun x hx => by
      obtain ⟨state, hstate, -⟩ := hvalues x hx
      rw [hstate]
      exact Option.some_ne_none _
  cases hreads : reads api sc stackFrame (.node type text .null next) with
  | some v =>
    rw [hreads] at hanswers
    obtain ⟨state, hstate, hgives⟩ := hanswers
    refine ⟨state, hstate, fun stack n a h'' top hend => ?_⟩
    rw [evaluateLoop_node hdone]
    exact hgives.bind hend
  | none =>
    rw [hreads] at hanswers
    obtain ⟨rc, hrc, hgives⟩ := hanswers
    refine fun stack => ⟨rc, hrc, fun n => ?_⟩
    rw [evaluateLoop_node hdone]
    exact hgives.bind (gives_pure _)

omit hst in
/-- The accessor expressions of a chain stand inside it. -/
theorem accessors_below {id : NodeId} {next : ExpressionNode} {x : NodeId × ExpressionNode}
    (hx : x ∈ (accessors (.next :: id) next).reverse) : id <:+ x.1 := by
  obtain ⟨step, hstep⟩ := accessors_inside (List.mem_reverse.mp hx)
  exact (List.suffix_cons .next id).trans ((List.suffix_cons step _).trans hstep)

variable (api) in
omit hst in
/-- The round that pushes the accessor expressions, if there are any. -/
theorem leads_accessors {h : H} (id : NodeId) (type : ExpressionNodeType) (text : Bytes)
    (next : ExpressionNode) :
    ∃ p, ∀ fuel results stack, Fresh results id →
      Leads api stackFrame fuel p ((id, .node type text .null next) :: stack) results h
        ((accessors (.next :: id) next).reverse ++ (id, .node type text .null next) :: stack)
        results h := by
  have haccessors : accessors id (.node type text .null next) = accessors (.next :: id) next := by
    rw [accessors_node, if_pos rfl, List.nil_append]
  have hunresolved : ∀ results, Fresh results id →
      unresolved results id (.node type text .null next) = accessors (.next :: id) next := by
    intro results hf
    rw [unresolved_fresh, haccessors]
    intro x hx
    rw [haccessors] at hx
    exact hf _ (accessors_below (List.mem_reverse.mpr hx))
  by_cases hnil : accessors (.next :: id) next = []
  · refine ⟨0, fun fuel results stack _ n a h'' top hend => ?_⟩
    rw [hnil] at hend
    exact hend
  · refine ⟨1, fun fuel results stack hf => ?_⟩
    have hlead : Leads api stackFrame fuel 1 ((id, .node type text .null next) :: stack) results h
        ((unresolved results id (.node type text .null next)).reverse ++
          (id, .node type text .null next) :: stack) results h :=
      leads_push (hunresolved results hf ▸ hnil)
    rw [hunresolved results hf] at hlead
    exact hlead

/-- A chain whose accessor expressions are evaluated wherever they stand. -/
theorem resolves_chain {type : ExpressionNodeType} {text : Bytes} {next : ExpressionNode}
    (hx : ∀ id, ∀ x ∈ accessors id next, Resolves api sc Here stackFrame x.2) :
    Resolves api sc Here stackFrame (.node type text .null next) := by
  intro id h hh
  obtain ⟨p, hpush⟩ := leads_accessors api stackFrame (h := h) id type text next
  have hfresh : ∀ {results : ExpressionResults},
      (∀ x ∈ [(id, ExpressionNode.node type text .null next)], Fresh results x.1) →
        Fresh results id ∧ ∀ x ∈ (accessors (.next :: id) next).reverse, Fresh results x.1 := by
    intro results hf
    have hid := hf (id, .node type text .null next) List.mem_cons_self
    exact ⟨hid, fun x hx l hl => hid l ((accessors_below hx).trans hl)⟩
  rcases clears_all hh (fun x hx' => hx (.next :: id) x (List.mem_reverse.mp hx'))
      (List.pairwise_reverse.mpr ((accessors_apart _ next).imp Apart.symm)) with
    ⟨k, N, h', hh', hsteps⟩ | ⟨⟨x, hmem, hnone⟩, k, N, h', hh', hfails⟩
  · obtain ⟨h'', hh'', N', hnode⟩ := clears_node stackFrame hst hh' type text next
    have hrun : ∀ fuel, max N N' ≤ fuel → ∀ results,
        (∀ x ∈ [(id, ExpressionNode.node type text .null next)], Fresh results x.1) →
        ∃ results', (∀ l, ¬id <:+ l → results' l = results l) ∧
          (∀ stack, Leads api stackFrame fuel (k + p) ((id, .node type text .null next) :: stack)
            results h ((id, .node type text .null next) :: stack) results' h') ∧
          ∀ x ∈ accessors id (.node type text .null next),
            HasValue api sc stackFrame results' x := by
      intro fuel hfuel results hf
      obtain ⟨hid, hbelow⟩ := hfresh hf
      obtain ⟨results', hvalues, hkeep, hlead⟩ := hsteps fuel (by omega) results hbelow
      refine ⟨results', fun l hl => ?_, fun stack => (hpush fuel results stack hid).trans (hlead _),
        fun x hx => ?_⟩
      · exact hkeep l fun x hx hxl => hl ((accessors_below hx).trans hxl)
      · rw [accessors_node, if_pos rfl, List.nil_append] at hx
        exact hvalues x (List.mem_reverse.mpr hx)
    cases hreads : reads api sc stackFrame (.node type text .null next) with
    | some v =>
      left
      refine ⟨1 + (k + p), max N N', h'', hh'', fun fuel hfuel results hf => ?_⟩
      obtain ⟨results', hkeep, hlead, hvalues⟩ := hrun fuel hfuel results hf
      have hlast := hnode fuel (by omega) results' id hvalues
      rw [hreads] at hlast
      obtain ⟨state, rfl, hlast⟩ := hlast
      refine ⟨Function.update results' id (some state), fun x hx => ?_, fun l hl => ?_,
        fun stack => (hlead stack).trans (hlast stack)⟩
      · rw [List.mem_singleton.mp hx]
        exact ⟨state, Function.update_self _ _ _, hreads⟩
      · have hout := hl _ List.mem_cons_self
        have hne : l ≠ id := fun heq => hout (heq ▸ List.suffix_rfl)
        rw [Function.update_of_ne hne, hkeep l hout]
    | none =>
      right
      refine ⟨⟨_, List.mem_cons_self, hreads⟩, 1 + (k + p), max N N', h'', hh'',
        fun fuel hfuel results hf stack => ?_⟩
      obtain ⟨results', -, hlead, hvalues⟩ := hrun fuel hfuel results hf
      have hlast := hnode fuel (by omega) results' id hvalues
      rw [hreads] at hlast
      exact (hlead stack).fails (hlast stack)
  · right
    have hkeys : keysRead api sc stackFrame type text next = none :=
      keysRead_none (List.mem_reverse.mp hmem) hnone
    refine ⟨⟨_, List.mem_cons_self, ?_⟩, k + p, N, h', hh', fun fuel hfuel results hf stack => ?_⟩
    · rw [reads, hkeys]
      cases literal type text <;> rfl
    · obtain ⟨hid, hbelow⟩ := hfresh hf
      exact (hpush fuel results stack hid).fails (hfails fuel hfuel results hbelow _)

/-- **Every chain of an accepted expression is evaluated wherever it stands.** -/
theorem resolves (node : ExpressionNode) :
    (Rooted node → Resolves api sc Here stackFrame node) ∧
      (Suffixes node → ∀ id, ∀ x ∈ accessors id node, Resolves api sc Here stackFrame x.2) := by
  induction node with
  | null => exact ⟨False.elim, fun _ id x hx => by cases hx⟩
  | node type text accessor next iha ihn =>
    constructor
    · intro hrooted
      obtain ⟨rfl, hnext⟩ := hrooted
      exact resolves_chain stackFrame hst fun id => ihn.2 hnext id
    · intro hsuffixes id x hx
      obtain ⟨haccessor, hnext⟩ := hsuffixes
      rw [accessors_node] at hx
      rcases List.mem_append.mp hx with hx | hx
      · split at hx
        · cases hx
        · rename_i hnull
          rw [List.mem_singleton.mp hx]
          rcases haccessor with hnull' | ⟨-, hrooted⟩
          · exact absurd hnull' hnull
          · exact iha.1 hrooted
      · exact ihn.2 hnext _ x hx

/-- An accepted expression gets its value. -/
theorem answers_resolveExpression {h : H} (hh : Here h) {root : ExpressionNode}
    (hroot : Rooted root) :
    ∃ h', Here h' ∧ ∃ N, ∀ fuel, N ≤ fuel →
      Answers (resolveExpression api fuel stackFrame root) h [] h' []
        ExpressionNodeState.resolvedValue (reads api sc stackFrame root) := by
  have hempty : ∀ x ∈ [(([] : NodeId), root)], Fresh (fun _ => none) x.1 := fun _ _ _ _ => rfl
  rcases (resolves stackFrame hst root).1 hroot [] h hh with
    ⟨k, N, h', hh', hstep⟩ | ⟨⟨x, hx, hnone⟩, k, N, h', hh', hfails⟩
  · refine ⟨h', hh', max N (k + 1), fun fuel hfuel => ?_⟩
    obtain ⟨results, hvalue, -, hlead⟩ := hstep fuel (by omega) _ hempty
    obtain ⟨state, hstate, hreads⟩ := hvalue _ List.mem_cons_self
    rw [hreads]
    refine ⟨state, rfl, ?_⟩
    obtain ⟨n, rfl⟩ : ∃ n, fuel = n + 1 + k := ⟨fuel - k - 1, by omega⟩
    refine (hlead [] (n + 1) _ _ _ (gives_pure (Except.ok results))).bind ?_
    dsimp only
    rw [hstate]
    exact gives_pure _
  · refine ⟨h', hh', max N k, fun fuel hfuel => ?_⟩
    obtain ⟨rc, hrc, hend⟩ := hfails fuel (by omega) _ hempty []
    rw [List.mem_singleton.mp hx] at hnone
    rw [hnone]
    obtain ⟨n, rfl⟩ : ∃ n, fuel = n + k := ⟨fuel - k, by omega⟩
    exact ⟨rc, hrc, (hend n).bind (gives_pure _)⟩

end

end Sdb.L4
