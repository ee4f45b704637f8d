import Sdb.Core.Worklist
import Sdb.L4Display.Worklist
import Sdb.L4Display.Lookup

/-!
# The rounds of the worklist

`GetImmediateValue` evaluates the chains of a watch in rounds: a round pushes the
bracketed expressions that the chain on top of the stack still waits for, or
evaluates that chain. Here the rounds are steps (`Round`), over any VM, and the
stack is that of `Sdb.Worklist`: a chain waits for its accessor expressions, and is
recorded under its place.

* `evaluateLoop_run`: the loop takes these rounds, and nothing else;
* `evaluateNode_recorded`: how the evaluation of a chain can fail;
* `worklist_inOrder`: the loop ends, and evaluates every chain once, after those it
  uses.
-/
namespace Sdb.L4

open Sdb.L1 Sdb.L3 Sdb.Exec

/-! ## Chains in postorder -/

/-- The bracketed expressions inside the chain at `id`, each after those inside it. -/
def below : NodeId → ExpressionNode → List (NodeId × ExpressionNode)
  | _, .null => []
  | id, .node _ _ accessor next =>
    below (.next :: id) next ++
      if accessor = .null then []
      else below (.accessor :: id) accessor ++ [(.accessor :: id, accessor)]

/-- A chain and the bracketed expressions inside it. -/
def chains (x : NodeId × ExpressionNode) : List (NodeId × ExpressionNode) :=
  below x.1 x.2 ++ [x]

/-- The chains that are waited for. -/
def waitsFor (x : NodeId × ExpressionNode) : List (NodeId × ExpressionNode) := accessors x.1 x.2

theorem below_eq (id : NodeId) (node : ExpressionNode) :
    below id node = (accessors id node).reverse.flatMap chains := by
  induction node generalizing id with
  | null => rfl
  | node type text accessor next _ ih =>
    rw [accessors_node, below, ih]
    by_cases hnull : accessor = .null
    · simp [hnull]
    · simp [hnull, chains]

theorem postorder_chains : Worklist.Postorder waitsFor chains :=
  ⟨fun x => by rw [chains, below_eq]; rfl⟩

theorem below_inside {id : NodeId} {node : ExpressionNode} {x : NodeId × ExpressionNode}
    (hx : x ∈ below id node) : ∃ step, (step :: id) <:+ x.1 := by
  induction node generalizing id with
  | null => cases hx
  | node type text accessor next iha ihn =>
    rw [below] at hx
    rcases List.mem_append.mp hx with hx | hx
    · obtain ⟨step, hstep⟩ := ihn hx
      exact ⟨.next, (List.suffix_cons step _).trans hstep⟩
    · split at hx
      · cases hx
      · rcases List.mem_append.mp hx with hx | hx
        · obtain ⟨step, hstep⟩ := iha hx
          exact ⟨.accessor, (List.suffix_cons step _).trans hstep⟩
        · rw [List.mem_singleton.mp hx]
          exact ⟨.accessor, List.suffix_rfl⟩

/-- A chain does not stand inside itself. -/
theorem not_mem_below (id : NodeId) (node : ExpressionNode) :
    id ∉ (below id node).map Prod.fst := by
  intro hmem
  obtain ⟨x, hx, heq⟩ := List.mem_map.mp hmem
  obtain ⟨step, hstep⟩ := below_inside hx
  have hlen := hstep.length_le
  rw [heq, List.length_cons] at hlen
  omega

theorem nodup_below (id : NodeId) (node : ExpressionNode) :
    ((below id node).map Prod.fst).Nodup := by
  induction node generalizing id with
  | null => exact List.nodup_nil
  | node type text accessor next iha ihn =>
    rw [below]
    split
    · rw [List.append_nil]
      exact ihn _
    · have haccessor : ((below (.accessor :: id) accessor ++
          [(NodeStep.accessor :: id, accessor)]).map Prod.fst).Nodup := by
        rw [List.map_append, List.nodup_append]
        refine ⟨iha _, List.nodup_singleton _, fun a ha b hb heq => ?_⟩
        rw [heq, List.mem_singleton.mp hb] at ha
        exact not_mem_below _ _ ha
      rw [List.map_append, List.nodup_append]
      refine ⟨ihn _, haccessor, fun a ha b hb heq => ?_⟩
      obtain ⟨x, hx, rfl⟩ := List.mem_map.mp ha
      obtain ⟨y, hy, rfl⟩ := List.mem_map.mp hb
      obtain ⟨step, hstep⟩ := below_inside hx
      have hy' : (NodeStep.accessor :: id) <:+ y.1 := by
        rcases List.mem_append.mp hy with hy | hy
        · obtain ⟨step', hstep'⟩ := below_inside hy
          exact (List.suffix_cons step' _).trans hstep'
        · exact List.mem_singleton.mp hy ▸ List.suffix_rfl
      have hne : NodeStep.next ≠ .accessor := by decide
      exact apart_steps hne id x.1
        ⟨(List.suffix_cons step _).trans hstep, by rw [heq]; exact hy'⟩

theorem nodup_chains (x : NodeId × ExpressionNode) : ((chains x).map Prod.fst).Nodup := by
  rw [chains, List.map_append, List.nodup_append]
  refine ⟨nodup_below _ _, List.nodup_singleton _, fun a ha b hb heq => ?_⟩
  rw [heq, List.mem_singleton.mp hb] at ha
  exact not_mem_below _ _ ha

/-! ## Rounds -/

/-- The state of the loop between two rounds. -/
structure Work (H : Type) where
  stack : List (NodeId × ExpressionNode)
  results : ExpressionResults
  vm : SqVm H

/-- The state the loop starts in.
mirrors SquirrelDebugger.cpp:441-458 -/
def Work.start {H : Type} (root : ExpressionNode) (v : SqVm H) : Work H :=
  ⟨[([], root)], fun _ => none, v⟩

section
variable {H : Type} (api : SqApi H) (fuel : Nat) (stackFrame : Int32)

/-- One round that stays in the loop, with the chain it evaluates. -/
inductive Round : Work H → Option (NodeId × ExpressionNode) → Work H → Prop
  | waits {id : NodeId} {node : ExpressionNode} {stack : List (NodeId × ExpressionNode)}
    {results : ExpressionResults} {v : SqVm H} (h : unresolved results id node ≠ []) :
    Round ⟨(id, node) :: stack, results, v⟩ none
      ⟨(unresolved results id node).reverse ++ (id, node) :: stack, results, v⟩
  | evaluates {id : NodeId} {node : ExpressionNode} {stack : List (NodeId × ExpressionNode)}
    {results : ExpressionResults} {v t : SqVm H} {state : ExpressionNodeState}
    (h : unresolved results id node = [])
    (he : Returns (evaluateNode api fuel stackFrame results id node) v (.ok state) t) :
    Round ⟨(id, node) :: stack, results, v⟩ (some (id, node))
      ⟨stack, Function.update results id (some state), t⟩

/-- How the loop is left: with all results, with an error, or by an exception. -/
inductive Leaving :
    Work H → EStateM.Result Exn (SqVm H) (Except ReturnCode ExpressionResults) → Prop
  | done {results : ExpressionResults} {v : SqVm H} : Leaving ⟨[], results, v⟩ (.ok (.ok results) v)
  | error {id : NodeId} {node : ExpressionNode} {stack : List (NodeId × ExpressionNode)}
    {results : ExpressionResults} {v t : SqVm H} {rc : ReturnCode}
    (h : unresolved results id node = [])
    (he : Returns (evaluateNode api fuel stackFrame results id node) v (.error rc) t) :
    Leaving ⟨(id, node) :: stack, results, v⟩ (.ok (.error rc) t)
  | throws {id : NodeId} {node : ExpressionNode} {stack : List (NodeId × ExpressionNode)}
    {results : ExpressionResults} {v t : SqVm H} {e : Exn}
    (h : unresolved results id node = [])
    (he : (evaluateNode api fuel stackFrame results id node).run v = .error e t) :
    Leaving ⟨(id, node) :: stack, results, v⟩ (.error e t)

def rounds : LTS (Work H) (Option (NodeId × ExpressionNode)) where
  init w := ∃ root v, w = .start root v
  step := Round api fuel stackFrame

variable {api fuel stackFrame} {w w' : Work H}

theorem evaluateLoop_round {l : Option (NodeId × ExpressionNode)}
    (h : Round api fuel stackFrame w l w') (n : Nat) :
    (evaluateLoop api stackFrame fuel (n + 1) w.stack w.results).run w.vm =
      (evaluateLoop api stackFrame fuel n w'.stack w'.results).run w'.vm := by
  cases h with
  | waits hne =>
    rw [evaluateLoop]
    split
    · rename_i hnil
      exact absurd hnil hne
    · rfl
  | evaluates hnil he =>
    rw [evaluateLoop_node hnil, EStateM.run_bind, he]

/-- The loop takes the rounds of the run. -/
theorem evaluateLoop_run {ls : List (Option (NodeId × ExpressionNode))}
    (h : (rounds api fuel stackFrame).Run w ls w') (n : Nat) :
    (evaluateLoop api stackFrame fuel (n + ls.length) w.stack w.results).run w.vm =
      (evaluateLoop api stackFrame fuel n w'.stack w'.results).run w'.vm := by
  induction h with
  | nil => rfl
  | cons hs _ ih =>
    rw [← ih, List.length_cons, ← Nat.add_assoc]
    exact evaluateLoop_round hs _

theorem evaluateLoop_leaving
    {r : EStateM.Result Exn (SqVm H) (Except ReturnCode ExpressionResults)}
    (h : Leaving api fuel stackFrame w r) (n : Nat) :
    (evaluateLoop api stackFrame fuel (n + 1) w.stack w.results).run w.vm = r := by
  cases h with
  | done => rfl
  | error hnil he => rw [evaluateLoop_node hnil, EStateM.run_bind, he]; rfl
  | throws hnil he => rw [evaluateLoop_node hnil, EStateM.run_bind, he]

variable (api fuel stackFrame) in
/-- A round stays in the loop, or leaves it. -/
theorem round_or_leaving (w : Work H) :
    (∃ l w', Round api fuel stackFrame w l w') ∨ ∃ r, Leaving api fuel stackFrame w r := by
  obtain ⟨stack, results, v⟩ := w
  cases stack with
  | nil => exact .inr ⟨_, .done⟩
  | cons x stack =>
    obtain ⟨id, node⟩ := x
    by_cases hnil : unresolved results id node = []
    · cases hrun : (evaluateNode api fuel stackFrame results id node).run v with
      | error e t => exact .inr ⟨_, .throws hnil hrun⟩
      | ok rc t =>
        cases rc with
        | ok state => exact .inl ⟨_, _, .evaluates hnil hrun⟩
        | error rc => exact .inr ⟨_, .error hnil hrun⟩
    · exact .inl ⟨_, _, .waits hnil⟩

/-! ## The stack and the record -/

/-- The results are those of the chains in `done`. -/
def Results (results : ExpressionResults) (done : List (NodeId × ExpressionNode)) : Prop :=
  ∀ id, results id = none ↔ id ∉ done.map Prod.fst

theorem unresolved_eq {results : ExpressionResults} {done : List (NodeId × ExpressionNode)}
    (h : Results results done) (id : NodeId) (node : ExpressionNode) :
    unresolved results id node = Worklist.pending waitsFor Prod.fst (id, node) done := by
  unfold Worklist.pending waitsFor
  induction node generalizing id with
  | null => rfl
  | node type text accessor next _ ih =>
    rw [unresolved, accessors_node, List.filter_append, ← ih]
    by_cases hnull : accessor = .null
    · simp [hnull]
    · by_cases hdone : (NodeStep.accessor :: id) ∈ done.map Prod.fst
      · have hsome : results (.accessor :: id) ≠ none := fun hnone => (h _).mp hnone hdone
        rw [if_neg fun hand => hsome hand.2, if_neg hnull]
        simp only [List.filter_cons, hdone, not_true_eq_false, decide_false]
        rfl
      · rw [if_pos ⟨hnull, (h _).mpr hdone⟩, if_neg hnull]
        simp only [List.filter_cons, hdone, not_false_eq_true, decide_true]
        rfl

theorem Results.record {results : ExpressionResults} {done : List (NodeId × ExpressionNode)}
    (h : Results results done) (x : NodeId × ExpressionNode) (state : ExpressionNodeState) :
    Results (Function.update results x.1 (some state)) (done ++ [x]) := by
  intro id
  by_cases he : id = x.1
  · subst he
    simp
  · rw [Function.update_of_ne he, h]
    simp [he]

/-- A round moves the stack as the abstract worklist does. -/
theorem round_refines {l : Option (NodeId × ExpressionNode)}
    {done : List (NodeId × ExpressionNode)} (hr : Results w.results done)
    (h : Round api fuel stackFrame w l w') :
    Worklist.Round waitsFor Prod.fst ⟨w.stack, done⟩ l ⟨w'.stack, done ++ l.toList⟩ ∧
      Results w'.results (done ++ l.toList) := by
  cases h with
  | waits hne =>
    rw [unresolved_eq hr] at hne ⊢
    rw [Option.toList_none, List.append_nil]
    exact ⟨.waits hne, hr⟩
  | evaluates hnil _ =>
    rw [unresolved_eq hr] at hnil
    exact ⟨.records hnil, hr.record (_, _) _⟩

theorem run_refines {root : NodeId × ExpressionNode} {done : List (NodeId × ExpressionNode)}
    {ls : List (Option (NodeId × ExpressionNode))} (hr : Results w.results done)
    (h : (rounds api fuel stackFrame).Run w ls w') :
    (Worklist.rounds waitsFor Prod.fst root).Run ⟨w.stack, done⟩ ls
        ⟨w'.stack, done ++ ls.reduceOption⟩ ∧
      Results w'.results (done ++ ls.reduceOption) := by
  induction h generalizing done with
  | nil =>
    rw [List.reduceOption_nil, List.append_nil]
    exact ⟨.nil _, hr⟩
  | @cons w u w' l ls hs _ ih =>
    obtain ⟨hround, hr'⟩ := round_refines hr hs
    obtain ⟨hrun, hlast⟩ := ih hr'
    have hdone : done ++ l.toList ++ ls.reduceOption = done ++ (l :: ls).reduceOption := by
      cases l <;> simp [List.reduceOption_cons_of_none, List.reduceOption_cons_of_some]
    rw [hdone] at hrun hlast
    exact ⟨.cons hround hrun, hlast⟩

/-! ## The evaluation of a chain -/

theorem literalObject_run (type : ExpressionNodeType) (text : Bytes) (v : SqVm H) :
    ∃ o, (literalObject type text).run v =
      .ok (if type = .number ∧ 2147483647 < digitsValue text then .error .invalidParameter
        else .ok o) v := by
  unfold literalObject
  by_cases hnumber : type = .number
  · by_cases hbig : 2147483647 < digitsValue text
    · refine ⟨.null, ?_⟩
      rw [if_pos hnumber, if_pos hbig, if_pos ⟨hnumber, hbig⟩]
      rfl
    · refine ⟨.integer (digitsValue text), ?_⟩
      rw [if_pos hnumber, if_neg hbig, if_neg fun hand => hbig hand.2]
      rfl
  · refine ⟨.string text, ?_⟩
    rw [if_neg hnumber, if_neg fun hand => hnumber hand.1]
    rfl

/-- The keys of a chain whose accessor expressions have results: VM objects, unless a
number is out of range. -/
theorem sqNodes_recorded {results : ExpressionResults} (type : ExpressionNodeType) (text : Bytes)
    {id : NodeId} {node : ExpressionNode} (h : unresolved results id node = []) (v : SqVm H) :
    ∃ r, (sqNodes results type text id node).run v = .ok r v ∧
      ∀ rc, r = .error rc →
        rc = .invalidParameter ∧ type = .number ∧ 2147483647 < digitsValue text := by
  induction node generalizing id with
  | null => exact ⟨_, rfl, fun _ hrc => by cases hrc⟩
  | node type' text' accessor next _ ih =>
    rw [unresolved] at h
    have hnext : unresolved results (.next :: id) next = [] := by
      split at h
      · cases h
      · exact h
    obtain ⟨r, hr, hcode⟩ := ih hnext
    have hobject : ∃ r', (sqNodeObject results type text id accessor).run v = .ok r' v ∧
        ∀ rc, r' = .error rc →
          rc = .invalidParameter ∧ type = .number ∧ 2147483647 < digitsValue text := by
      unfold sqNodeObject
      by_cases hnull : accessor = .null
      · rw [if_neg (not_not.mpr hnull)]
        obtain ⟨o, ho⟩ := literalObject_run type text v
        refine ⟨_, ho, fun rc hrc => ?_⟩
        split at hrc
        · rename_i hbig
          exact ⟨(Except.error.inj hrc).symm, hbig⟩
        · cases hrc
      · rw [if_pos hnull]
        split
        · rename_i hnone
          rw [if_pos ⟨hnull, hnone⟩] at h
          cases h
        · exact ⟨_, rfl, fun _ hrc => by cases hrc⟩
    obtain ⟨r', hr', hcode'⟩ := hobject
    rw [sqNodes, EStateM.run_bind, hr']
    cases r' with
    | error rc => exact ⟨_, rfl, fun rc' hrc' => hcode' rc' (by rw [Except.error.inj hrc'])⟩
    | ok target =>
      simp only
      rw [EStateM.run_bind, hr]
      cases r with
      | error rc => exact ⟨_, rfl, fun rc' hrc' => hcode rc' hrc'⟩
      | ok targets => exact ⟨_, rfl, fun _ hrc => by cases hrc⟩

/-- A search in the VM that fails, fails with `InvalidParameter`. -/
theorem getObjectFromExpression_code (keys : List SqObject) {v t : SqVm H} {rc : ReturnCode}
    (h : Returns (getObjectFromExpression api fuel keys) v (.error rc) t) :
    rc = .invalidParameter := by
  induction keys generalizing v t rc with
  | nil =>
    obtain ⟨o, _, -, h⟩ := returns_bind_iff.mp h
    cases (returns_pure_iff.mp h).1
  | cons key keys ih =>
    obtain ⟨stack, heap, faults⟩ := v
    cases stack with
    | nil =>
      obtain ⟨type, _, htype, -⟩ := returns_bind_iff.mp h
      cases htype
    | cons o rest =>
      have hgoes : Goes api fuel heap o key keys rest faults (.ok (.error rc) t) :=
        h ▸ selectKey api heap o key fuel keys rest faults
      generalize hend : EStateM.Result.ok (Except.error rc) t = r at hgoes
      cases hgoes with
      | stuck _ _ _ => cases hend
      | stops _ =>
        cases hend
        rfl
      | @goes h' w above part hs =>
        have hafter : Returns (afterKey api fuel keys above.length part)
            ⟨w :: above ++ o :: rest, h', faults⟩ (.error rc) t := hend.symm
        obtain ⟨ret, u, hret, hafter⟩ := returns_bind_iff.mp hafter
        obtain ⟨_, u', -, hafter⟩ := returns_bind_iff.mp hafter
        cases ret with
        | error rc' =>
          rw [← Except.error.inj (returns_pure_iff.mp hafter).1]
          exact ih hret
        | ok p => cases (returns_pure_iff.mp hafter).1

theorem evaluateGlobal_code (keys : List SqObject) {v t : SqVm H} {rc : ReturnCode}
    (h : Returns (evaluateGlobal api fuel keys) v (.error rc) t) : rc = .invalidParameter := by
  unfold evaluateGlobal at h
  obtain ⟨_, v₁, -, h⟩ := returns_bind_iff.mp h
  obtain ⟨ret, v₂, hret, h⟩ := returns_bind_iff.mp h
  obtain ⟨_, v₃, -, h⟩ := returns_bind_iff.mp h
  cases ret with
  | error rc' =>
    have hrc := Except.error.inj (returns_pure_iff.mp h).1
    rw [← hrc]
    exact getObjectFromExpression_code keys hret
  | ok p => cases (returns_pure_iff.mp h).1

theorem findLocal_code (frame : Nat) (text : Bytes) (keys : List SqObject) (n nSeq : Nat)
    {v t : SqVm H} {i : Nat} {rc : ReturnCode}
    (h : Returns (findLocal api fuel frame text keys n nSeq) v (some (i, .error rc)) t) :
    rc = .invalidParameter := by
  induction n generalizing nSeq v with
  | zero => cases h
  | succ n ih =>
    unfold findLocal at h
    obtain ⟨name, v₁, -, h⟩ := returns_bind_iff.mp h
    cases name with
    | none => cases (returns_pure_iff.mp h).1
    | some localName =>
      simp only at h
      split at h
      · obtain ⟨_, v₂, -, h⟩ := returns_bind_iff.mp h
        obtain ⟨_, v₃, -, h⟩ := returns_bind_iff.mp h
        obtain ⟨_, v₄, -, h⟩ := returns_bind_iff.mp h
        obtain ⟨_, v₅, -, h⟩ := returns_bind_iff.mp h
        obtain ⟨ret, v₆, hret, h⟩ := returns_bind_iff.mp h
        have heq := (returns_pure_iff.mp h).1
        obtain rfl : ret = .error rc := (Prod.mk.inj (Option.some.inj heq)).2
        exact getObjectFromExpression_code keys hret
      · obtain ⟨_, v₂, -, h⟩ := returns_bind_iff.mp h
        exact ih (nSeq + 1) h

theorem evaluateIdentifier_code (text : Bytes) (keys : List SqObject) {v t : SqVm H}
    {rc : ReturnCode}
    (h : Returns (evaluateIdentifier api fuel stackFrame text keys) v (.error rc) t) :
    rc = .invalidParameter := by
  unfold evaluateIdentifier at h
  split at h
  · obtain ⟨_, v₁, -, h⟩ := returns_bind_iff.mp h
    obtain ⟨found, v₂, hfound, h⟩ := returns_bind_iff.mp h
    cases found with
    | none =>
      obtain ⟨_, v₃, -, h⟩ := returns_bind_iff.mp h
      exact evaluateGlobal_code keys h
    | some p =>
      obtain ⟨i, ret⟩ := p
      obtain ⟨_, v₃, -, h⟩ := returns_bind_iff.mp h
      cases ret with
      | error rc' =>
        have hrc := Except.error.inj (returns_pure_iff.mp h).1
        rw [← hrc]
        exact findLocal_code _ text keys fuel 0 hfound
      | ok p => cases (returns_pure_iff.mp h).1
  · exact evaluateGlobal_code keys h

variable (api fuel stackFrame) in
/-- The number of the chain is out of range, or the VM gives no value for its
identifier and keys. -/
def NoValue (results : ExpressionResults) (v : SqVm H) (id : NodeId) : ExpressionNode → Prop
  | .null => False
  | .node type text accessor next => type = .number ∧ 2147483647 < digitsValue text ∨
      type = .identifier ∧ ∃ keys,
        Returns (sqNodes results type text id (.node type text accessor next)) v (.ok keys) v ∧
        ∀ state t, ¬ Returns (evaluateIdentifier api fuel stackFrame text keys) v (.ok state) t

/-- A chain whose accessor expressions have results is evaluated, or has no value. -/
theorem evaluateNode_recorded {results : ExpressionResults} {id : NodeId} {node : ExpressionNode}
    (h : unresolved results id node = []) (hnode : node ≠ .null) (v : SqVm H) :
    (∃ state t, Returns (evaluateNode api fuel stackFrame results id node) v (.ok state) t) ∨
      NoValue api fuel stackFrame results v id node := by
  cases node with
  | null => exact absurd rfl hnode
  | node type text accessor next =>
    obtain ⟨r, hr, hcode⟩ := sqNodes_recorded type text h v
    cases r with
    | error rc =>
      obtain ⟨-, hbig⟩ := hcode rc rfl
      exact .inr (.inl hbig)
    | ok keys =>
      by_cases htype : type = .identifier
      · by_cases hvalue : ∃ state t,
          Returns (evaluateIdentifier api fuel stackFrame text keys) v (.ok state) t
        · obtain ⟨state, t, hvalue⟩ := hvalue
          refine .inl ⟨state, t, Returns.bind hr ?_⟩
          simp only [if_pos htype]
          exact hvalue
        · exact .inr (.inr ⟨htype, keys, hr, fun state t hstate => hvalue ⟨state, t, hstate⟩⟩)
      · refine .inl ⟨⟨[], keys.headD .null, .evaluation⟩, v, Returns.bind hr ?_⟩
        simp only [if_neg htype]
        exact rfl

/-- `ErrorInternal` is not returned for a chain whose accessor expressions have
results. -/
theorem evaluateNode_code {results : ExpressionResults} {id : NodeId} {node : ExpressionNode}
    (h : unresolved results id node = []) {v t : SqVm H} {rc : ReturnCode}
    (he : Returns (evaluateNode api fuel stackFrame results id node) v (.error rc) t) :
    rc = .invalidParameter := by
  cases node with
  | null => cases he
  | node type text accessor next =>
    obtain ⟨r, hr, hcode⟩ := sqNodes_recorded type text h v
    unfold evaluateNode at he
    obtain ⟨r', v₁, hr', he⟩ := returns_bind_iff.mp he
    obtain ⟨rfl, rfl⟩ := Returns.unique hr hr'
    cases r with
    | error rc' =>
      rw [← Except.error.inj (returns_pure_iff.mp he).1]
      exact (hcode rc' rfl).1
    | ok keys =>
      simp only at he
      split at he
      · exact evaluateIdentifier_code text keys he
      · cases (returns_pure_iff.mp he).1

theorem unresolved_ne_null {results : ExpressionResults} {id : NodeId} {node : ExpressionNode}
    {x : NodeId × ExpressionNode} (hx : x ∈ unresolved results id node) : x.2 ≠ .null := by
  induction node generalizing id with
  | null => cases hx
  | node type text accessor next _ ih =>
    rw [unresolved] at hx
    split at hx
    · rename_i hand
      rcases List.mem_cons.mp hx with rfl | hx
      · exact hand.1
      · exact ih hx
    · exact ih hx

/-- The chains on the stack have a first node. -/
theorem stack_ne_null {root : ExpressionNode} (hroot : root ≠ .null) {v : SqVm H}
    {ls : List (Option (NodeId × ExpressionNode))}
    (h : (rounds api fuel stackFrame).Run (.start root v) ls w) :
    ∀ x ∈ w.stack, x.2 ≠ .null := by
  refine h.invariant (fun _ => True) (fun w => ∀ x ∈ w.stack, x.2 ≠ .null) (fun _ _ => trivial)
    ?_ ?_
  · intro x hx
    rw [List.mem_singleton.mp hx]
    exact hroot
  · intro w l w' _ hi hs x hx
    cases hs with
    | waits _ =>
      rcases List.mem_append.mp hx with hx | hx
      · exact unresolved_ne_null (List.mem_reverse.mp hx)
      · exact hi x hx
    | evaluates _ _ => exact hi x (List.mem_cons_of_mem _ hx)

/-! ## Main result -/

/-- A chain of the expression: the whole of it, or one in brackets. -/
def Inside (root : ExpressionNode) (x : NodeId × ExpressionNode) : Prop :=
  Relation.ReflTransGen (fun x d => d ∈ accessors x.1 x.2) ([], root) x

variable (api fuel stackFrame) in
/-- What the rounds `ls` have evaluated, and what comes next. -/
structure EvaluatedInOrder (root : ExpressionNode) (ls : List (Option (NodeId × ExpressionNode)))
    (w : Work H) : Prop where
  bounded : ls.length ≤ 2 * (chains ([], root)).length
  once : ls.reduceOption.Nodup
  inside : ∀ x ∈ ls.reduceOption, Inside root x
  before : ∀ l₁ x l₂, ls.reduceOption = l₁ ++ x :: l₂ → ∀ d ∈ accessors x.1 x.2, d ∈ l₁
  last : ∀ l₁ l₂, ls.reduceOption = l₁ ++ ([], root) :: l₂ → l₂ = [] ∧ w.stack = []
  all : w.stack = [] → ∀ x, Inside root x → x ∈ ls.reduceOption
  resolved : ∀ id node stack, w.stack = (id, node) :: stack →
    unresolved w.results id node = [] → ∀ v t,
      ¬ Returns (evaluateNode api fuel stackFrame w.results id node) v (.error .errorInternal) t

theorem evaluatedInOrder_run {root : ExpressionNode} {v : SqVm H}
    {ls : List (Option (NodeId × ExpressionNode))}
    (h : (rounds api fuel stackFrame).Run (.start root v) ls w) :
    EvaluatedInOrder api fuel stackFrame root ls w := by
  have hresults : Results (Work.start root v).results [] := fun id => by simp [Work.start]
  obtain ⟨hrun, -⟩ : (Worklist.rounds waitsFor Prod.fst ([], root)).Run _ _ _ ∧ _ :=
    run_refines hresults h
  obtain ⟨-, hpre, hbound, hall, hlast⟩ :=
    Worklist.run_postorder postorder_chains (nodup_chains _) hrun
  rw [List.nil_append] at hpre hall hlast
  simp only at hpre hall hlast
  have hbefore := (postorder_chains.before ([], root)).initial hpre
  refine ⟨hbound, ?_, ?_, hbefore, ?_, ?_, ?_⟩
  · exact (List.Nodup.of_map Prod.fst (nodup_chains _)).sublist hpre.sublist
  · intro x hx
    exact postorder_chains.mem_iff.mp (hpre.subset hx)
  · intro l₁ l₂ heq
    have hempty : w.stack = [] := hlast (by rw [heq]; simp)
    refine ⟨?_, hempty⟩
    have hwhole := (hall hempty).symm.trans heq
    have hnodup : (chains ([], root)).Nodup := List.Nodup.of_map Prod.fst (nodup_chains _)
    rw [hwhole] at hnodup
    have hend : (chains ([], root)).getLast? = some ([], root) := by simp [chains]
    rw [hwhole] at hend
    cases l₂ with
    | nil => rfl
    | cons y l₂ =>
      have hmem : ([], root) ∈ y :: l₂ := by
        refine List.mem_of_getLast? ?_
        rwa [List.getLast?_append_of_ne_nil _ (by simp), List.getLast?_cons_cons] at hend
      exact absurd hmem (List.nodup_cons.mp (List.nodup_append.mp hnodup).2.1).1
  · intro hempty x hx
    rw [hall hempty]
    exact postorder_chains.mem_iff.mpr hx
  · intro id node stack _ hnil v t he
    cases evaluateNode_code hnil he

variable (api fuel stackFrame) in
/-- **The worklist is sound and ends.** Take any expression that `ParseExpression`
returns and any VM. In every run of rounds the chains are evaluated in order
(`EvaluatedInOrder`). The loop takes such a run and leaves it, whatever bound above twice the
number of chains it is given: with an empty stack, or at a chain that has no value. -/
theorem worklist_inOrder (v : SqVm H) {text pos : Bytes} {root : ExpressionNode}
    (hparse : parseExpression (text.length + 1) text = .ok (root, pos)) :
    (∀ ls w, (rounds api fuel stackFrame).Run (.start root v) ls w →
        EvaluatedInOrder api fuel stackFrame root ls w) ∧
      ∃ ls w r, (rounds api fuel stackFrame).Run (.start root v) ls w ∧
        Leaving api fuel stackFrame w r ∧
        (w.stack = [] ∨ ∃ id node stack, w.stack = (id, node) :: stack ∧
          NoValue api fuel stackFrame w.results w.vm id node) ∧
        ∀ n, 2 * (chains ([], root)).length < n →
          (evaluateLoop api stackFrame fuel n [([], root)] fun _ => none).run v = r := by
  have hroot : root ≠ .null := by
    have hparsed := parsed_parseLoop (text.length + 1) [] {} text (Nat.lt_succ_self _) rfl
    unfold parseExpression at hparse
    rw [hparse] at hparsed
    rintro rfl
    exact hparsed.1
  refine ⟨fun ls w h => evaluatedInOrder_run h, ?_⟩
  obtain ⟨ls, w, hrun, hstuck⟩ := LTS.exists_stuck
    fun ls w (h : (rounds api fuel stackFrame).Run (.start root v) ls w) =>
      (evaluatedInOrder_run h).bounded
  have hbound := (evaluatedInOrder_run hrun).bounded
  rcases round_or_leaving api fuel stackFrame w with ⟨l, w', hs⟩ | ⟨r, hr⟩
  · exact absurd hs (hstuck l w')
  · refine ⟨ls, w, r, hrun, hr, ?_, fun n hn => ?_⟩
    · have hnull := stack_ne_null hroot hrun
      obtain ⟨stack, results, vm⟩ := w
      cases stack with
      | nil => exact .inl rfl
      | cons x stack =>
        obtain ⟨id, node⟩ := x
        refine .inr ⟨id, node, stack, rfl, ?_⟩
        have hnil : unresolved results id node = [] := by
          by_cases hnil : unresolved results id node = []
          · exact hnil
          · exact absurd (Round.waits hnil) (hstuck _ _)
        by_contra hno
        rcases evaluateNode_recorded hnil (hnull _ List.mem_cons_self) vm with
          ⟨state, t, hstate⟩ | hno'
        · exact absurd (Round.evaluates hnil hstate) (hstuck _ _)
        · exact hno hno'
    · obtain ⟨k, rfl⟩ : ∃ k, n = k + 1 + ls.length := ⟨n - ls.length - 1, by omega⟩
      exact (evaluateLoop_run hrun (k + 1)).trans (evaluateLoop_leaving hr k)

end

/-! ## A watch with two brackets -/

/-- `a[b][c]` -/
def twoBrackets : Bytes := [97, 91, 98, 93, 91, 99, 93]

/-- The chains of `a[b][c]` in the order in which they are evaluated. -/
example (root : ExpressionNode) (h : parseWatch twoBrackets = .ok root) :
    (chains ([], root)).map Prod.fst = [[.accessor, .next, .next], [.accessor, .next], []] := by
  obtain rfl := Except.ok.inj (h.symm.trans (show parseWatch twoBrackets = .ok _ from rfl))
  rfl

/-- The root table has `a`, and `b` and `c` whose values are keys in it. -/
def bracketHeap : Heap where
  objects := [.table [some (.string [97], .table 1), some (.string [98], .string [112]),
      some (.string [99], .string [113])],
    .table [some (.string [112], .table 2)],
    .table [some (.string [113], .integer 7)]]

theorem worklist_inOrder_twoBrackets : ∃ root,
    parseExpression (twoBrackets.length + 1) twoBrackets = .ok (root, []) ∧
      ∃ ls w, (rounds heapApi 4 (-1)).Run (.start root ⟨[], bracketHeap, []⟩) ls w ∧
        EvaluatedInOrder heapApi 4 (-1) root ls w ∧ w.stack = [] ∧
          (w.results []).map (·.resolvedValue) = some (.integer 7) := by
  have hloop : ∃ root, parseExpression (twoBrackets.length + 1) twoBrackets = .ok (root, []) ∧
      2 * (chains ([], root)).length < 7 ∧
      (match (evaluateLoop heapApi (-1) 4 7 [([], root)] fun _ => none).run
          ⟨[], bracketHeap, []⟩ with
        | .ok (.ok results) _ => (results []).map (·.resolvedValue)
        | _ => none) = some (.integer 7) :=
    ⟨_, rfl, by decide, by decide +kernel⟩
  obtain ⟨root, hparse, hbound, hvalue⟩ := hloop
  obtain ⟨horder, ls, w, r, hrun, hleaving, -, hends⟩ :=
    worklist_inOrder heapApi 4 (-1) ⟨[], bracketHeap, []⟩ hparse
  rw [hends 7 hbound] at hvalue
  cases hleaving with
  | done => exact ⟨root, hparse, ls, _, hrun, horder ls _ hrun, rfl, hvalue⟩
  | error _ _ => cases hvalue
  | throws _ _ => cases hvalue

end Sdb.L4
