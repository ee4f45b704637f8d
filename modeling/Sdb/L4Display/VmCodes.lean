import Sdb.Core.Exec
import Sdb.L3Vm.Commands

/-!
# The return codes of a data command's part on the VM

Past its checks of the pause flag a data command fails with `Invalid`,
`InvalidParameter` or `ErrorInternal`. In particular `InvalidNotPaused` comes from the
checks alone, so that a client can take it at its word.

* `dataCall_codes`: every failure of a data command on the VM has one of the three
  codes, whatever the VM answers.
-/
namespace Sdb.L4

open Sdb.L1 Sdb.L3 Sdb.Exec

/-- The codes of a failure on the VM. -/
def FailsOnVm : ReturnCode → Prop
  | .invalid | .invalidParameter | .errorInternal => True
  | .success | .invalidNotPaused => False

/-- The codes of a command that got to the VM. -/
def CodeOnVm (rc : ReturnCode) : Prop := rc = .success ∨ FailsOnVm rc

/-- A failure has one of these codes. -/
def Coded {α : Type} (x : Except ReturnCode α) : Prop := ∀ code, x = .error code → FailsOnVm code

section
variable {H : Type} (api : SqApi H) (lib : CppLib) (r : Renderer H) {α β : Type}

theorem coded_ok (a : α) : Coded (.ok a) := by
  intro code h
  cases h

theorem coded_error {code : ReturnCode} (h : FailsOnVm code) :
    Coded (.error code : Except ReturnCode α) := by
  intro code' heq
  obtain rfl := Except.error.inj heq
  exact h

theorem Coded.map {x : Except ReturnCode α} (h : Coded x) (f : α → β) : Coded (x.map f) := by
  cases x with
  | ok a => exact coded_ok _
  | error code => exact coded_error (h code rfl)

theorem Coded.error {code : ReturnCode} (h : Coded (.error code : Except ReturnCode α)) :
    Coded (.error code : Except ReturnCode β) := coded_error (h code rfl)

theorem yields_ok (a : α) : Yields Coded (pure (.ok a) : VmM H (Except ReturnCode α)) :=
  yields_pure (coded_ok a)

theorem yields_error {code : ReturnCode} (h : FailsOnVm code) :
    Yields Coded (pure (.error code) : VmM H (Except ReturnCode α)) := yields_pure (coded_error h)

/-! ## Paths -/

theorem withVariableAtPath_coded {fn : VmM H (Except ReturnCode α)} (hfn : Yields Coded fn)
    (path : List UInt64) : Yields Coded (withVariableAtPath api fn path) := by
  induction path with
  | nil => exact hfn
  | cons part path ih =>
    refine .last fun type => ?_
    cases type with
    | array =>
      refine .last fun arrSize => ?_
      split
      · exact yields_error trivial
      · refine .last fun _ => .last fun found => ?_
        cases found with
        | false => exact yields_error trivial
        | true => exact ih.bind fun childRetVal h => .last fun _ => yields_pure h
    | table | instance_ =>
      refine .last fun _ => .last fun found => ?_
      cases found with
      | false => exact .last fun _ => yields_error trivial
      | true => exact ih.bind fun childRetVal h => .last fun _ => yields_pure h
    | _ => exact yields_error trivial

theorem createChildVariablesFromIterable_coded (fuel : Nat) (path : List UInt64)
    (pagination : PaginationInfo) :
    Yields Coded (createChildVariablesFromIterable api lib r fuel path pagination) :=
  withVariableAtPath_coded api (.last fun _ => yields_ok _) path

theorem withStackVariables_coded (stackFrame : UInt32) (path : Bytes)
    {fn : List UInt64 → VmM H (Except ReturnCode α)} (hfn : ∀ parts, Yields Coded (fn parts)) :
    Yields Coded (withStackVariables api stackFrame path fn) := by
  unfold withStackVariables
  split
  · exact yields_error trivial
  · cases pathParts path with
    | none => exact yields_throw _
    | some parts =>
      refine .last fun localName => ?_
      cases localName with
      | none => exact yields_error trivial
      | some localName => exact (hfn parts).bind fun rc h => .last fun _ => yields_pure h

theorem populateStackVariables_coded (fuel : Nat) (stackFrame : UInt32) (path : Bytes)
    (pagination : PaginationInfo) :
    Yields Coded (populateStackVariables api lib r fuel stackFrame path pagination) := by
  unfold populateStackVariables
  split
  · exact .last fun _ => yields_ok _
  · exact withStackVariables_coded api stackFrame path fun parts =>
      createChildVariablesFromIterable_coded api lib r fuel parts.tail pagination

theorem populateGlobalVariables_coded (fuel : Nat) (path : Bytes)
    (pagination : PaginationInfo) :
    Yields Coded (populateGlobalVariables api lib r fuel path pagination) := by
  unfold populateGlobalVariables
  split
  · exact yields_throw _
  · rename_i parts _
    refine .last fun _ => ?_
    exact (createChildVariablesFromIterable_coded api lib r fuel parts pagination).bind
      fun rc h => .last fun _ => yields_pure h

/-! ## Writing a value -/

theorem updateFromString_codes (k : Nat) (value : Bytes) :
    Yields CodeOnVm (updateFromString api lib k value) := by
  refine .last fun current => ?_
  cases parseValue lib value current with
  | none => exact yields_pure (.inr trivial)
  | some newVal =>
    refine .last fun _ => .last fun _ => .last fun found => ?_
    cases found with
    | false => exact yields_pure (.inr trivial)
    | true => exact yields_pure (.inl rfl)

theorem replaceValue_coded (newValueString : Bytes) :
    Yields Coded (replaceValue api lib r newValueString) := by
  refine .last fun key => (updateFromString_codes api lib 4 newValueString).bind fun rc hrc => ?_
  cases rc with
  | success =>
    refine .last fun _ => .last fun _ => .last fun found => ?_
    cases found with
    | false => exact .last fun _ => yields_error trivial
    | true => exact .last fun _ => yields_ok _
  | _ => exact yields_error (hrc.resolve_left (by simp))

theorem setStackVariableValue_coded (stackFrame : UInt32) (path newValueString : Bytes) :
    Yields Coded (setStackVariableValue api lib r stackFrame path newValueString) := by
  refine withStackVariables_coded api stackFrame path fun parts => ?_
  split
  · exact yields_error trivial
  · exact withVariableAtPath_coded api (replaceValue_coded api lib r newValueString) _

/-! ## Watch expressions -/

theorem scanForKey_coded (accessorObject : SqObject)
    {found : VmM H (Except ReturnCode (SqObject × List UInt32))} (hfound : Yields Coded found)
    (n : Nat) : Yields Coded (scanForKey api accessorObject found n) := by
  induction n with
  | zero => exact yields_throw _
  | succ n ih =>
    refine .last fun sqIter => ?_
    cases sqIter with
    | none => exact .last fun _ => .last fun _ => yields_error trivial
    | some sqIter =>
      refine .last fun next => ?_
      cases next with
      | false => exact .last fun _ => .last fun _ => yields_error trivial
      | true =>
        refine .last fun iterKey => ?_
        split
        · exact hfound.bind fun childRetVal h => .last fun _ => yields_pure (h.map _)
        · exact .last fun _ => ih

theorem getObjectFromExpression_coded (fuel : Nat) (accessors : List SqObject) :
    Yields Coded (getObjectFromExpression api fuel accessors) := by
  induction accessors with
  | nil => exact .last fun _ => yields_ok _
  | cons accessorObject next ih =>
    refine .last fun type => ?_
    cases type with
    | array =>
      dsimp only
      split
      · exact yields_error trivial
      · refine .last fun _ => .last fun _ => .last fun found => ?_
        cases found with
        | false => exact yields_error trivial
        | true => exact ih.bind fun childRetVal h => .last fun _ => yields_pure (h.map _)
    | table | instance_ =>
      refine .last fun _ => .last fun found => ?_
      cases found with
      | false => exact yields_error trivial
      | true => exact .last fun _ => scanForKey_coded api accessorObject ih fuel
    | _ => exact yields_error trivial

theorem literalObject_coded (type : ExpressionNodeType) (accessorValue : Bytes) :
    Yields Coded (literalObject type accessorValue : VmM H _) := by
  unfold literalObject
  split
  · split
    · exact yields_error trivial
    · exact .last fun _ => .last fun _ => .last fun _ => yields_ok _
  · exact .last fun _ => .last fun _ => .last fun _ => yields_ok _

theorem sqNodeObject_coded (results : ExpressionResults) (type : ExpressionNodeType)
    (accessorValue : Bytes) (id : NodeId) (accessor : ExpressionNode) :
    Yields Coded (sqNodeObject results type accessorValue id accessor : VmM H _) := by
  unfold sqNodeObject
  split
  · split
    · exact yields_error trivial
    · exact yields_ok _
  · exact literalObject_coded type accessorValue

theorem sqNodes_coded (results : ExpressionResults) (type : ExpressionNodeType)
    (accessorValue : Bytes) (id : NodeId) (node : ExpressionNode) :
    Yields Coded (sqNodes results type accessorValue id node : VmM H _) := by
  fun_induction sqNodes (H := H) results type accessorValue id node with
  | case1 => exact yields_ok _
  | case2 id type' value accessor next ih =>
    refine (sqNodeObject_coded results type accessorValue id accessor).bind fun target ht => ?_
    cases target with
    | error code => exact yields_pure ht.error
    | ok target =>
      refine ih.bind fun targets hts => ?_
      cases targets with
      | error code => exact yields_pure hts.error
      | ok targets => exact yields_ok _

theorem findLocal_coded (fuel stackFrame : Nat) (accessorValue : Bytes) (sqNode : List SqObject)
    (n nSeq : Nat) :
    Yields (fun found => ∀ p, found = some p → Coded p.2)
      (findLocal api fuel stackFrame accessorValue sqNode n nSeq) := by
  induction n generalizing nSeq with
  | zero => exact yields_throw _
  | succ n ih =>
    refine .last fun localName => ?_
    cases localName with
    | none =>
      apply yields_pure
      intro p hp
      cases hp
    | some localName =>
      dsimp only
      split
      · refine .last fun _ => .last fun _ => .last fun _ => .last fun _ => ?_
        refine (getObjectFromExpression_coded api fuel sqNode).bind fun rc h => yields_pure ?_
        intro p hp
        obtain rfl := Option.some.inj hp
        exact h
      · exact .last fun _ => ih (nSeq + 1)

theorem evaluateGlobal_coded (fuel : Nat) (sqNode : List SqObject) :
    Yields Coded (evaluateGlobal api fuel sqNode) := by
  refine .last fun _ => ?_
  exact (getObjectFromExpression_coded api fuel sqNode).bind fun rc h =>
    .last fun _ => yields_pure (h.map _)

theorem evaluateIdentifier_coded (fuel : Nat) (stackFrame : Int32) (accessorValue : Bytes)
    (sqNode : List SqObject) :
    Yields Coded (evaluateIdentifier api fuel stackFrame accessorValue sqNode) := by
  unfold evaluateIdentifier
  split
  · refine .last fun _ => ?_
    have hlocal := findLocal_coded api fuel stackFrame.toInt.toNat accessorValue sqNode fuel 0
    refine hlocal.bind fun found h => ?_
    cases found with
    | none => exact .last fun _ => evaluateGlobal_coded api fuel sqNode
    | some p => exact .last fun _ => yields_pure ((h p rfl).map _)
  · exact evaluateGlobal_coded api fuel sqNode

theorem evaluateNode_coded (fuel : Nat) (stackFrame : Int32) (results : ExpressionResults)
    (id : NodeId) (node : ExpressionNode) :
    Yields Coded (evaluateNode api fuel stackFrame results id node) := by
  cases node with
  | null => exact yields_throw _
  | node type accessorValue accessor next =>
    refine (sqNodes_coded results type accessorValue id _).bind fun sqNode h => ?_
    cases sqNode with
    | error code => exact yields_pure h.error
    | ok sqNode =>
      dsimp only
      split
      · exact evaluateIdentifier_coded api fuel stackFrame accessorValue sqNode
      · exact yields_ok _

theorem evaluateLoop_coded (stackFrame : Int32) (nodeFuel n : Nat)
    (stack : List (NodeId × ExpressionNode)) (results : ExpressionResults) :
    Yields Coded (evaluateLoop api stackFrame nodeFuel n stack results) := by
  induction n generalizing stack results with
  | zero => exact yields_throw _
  | succ n ih =>
    cases stack with
    | nil => exact yields_ok _
    | cons top stack =>
      obtain ⟨id, node⟩ := top
      unfold evaluateLoop
      split
      · refine (evaluateNode_coded api nodeFuel stackFrame results id node).bind fun state h => ?_
        cases state with
        | error code => exact yields_pure h.error
        | ok state => exact ih _ _
      · exact ih _ _

theorem resolveExpression_coded (fuel : Nat) (stackFrame : Int32)
    (expressionRoot : ExpressionNode) :
    Yields Coded (resolveExpression api fuel stackFrame expressionRoot) := by
  refine (evaluateLoop_coded api stackFrame fuel fuel _ _).bind fun results h => ?_
  cases results with
  | error code => exact yields_pure h.error
  | ok results =>
    dsimp only
    split
    · exact yields_error trivial
    · exact yields_ok _

theorem getImmediateValue_coded (fuel : Nat) (stackFrame : Int32) (watch : Bytes) :
    Yields Coded (getImmediateValue api r fuel stackFrame watch) := by
  unfold getImmediateValue
  split
  · exact yields_error trivial
  · exact yields_throw _
  · exact yields_throw _
  · rename_i expressionRoot _
    refine (resolveExpression_coded api fuel stackFrame expressionRoot).bind fun state h => ?_
    cases state with
    | error code => exact yields_pure h.error
    | ok state => exact .last fun _ => yields_ok _

/-! ## The commands -/

theorem returnCode_codes {x : Except ReturnCode α} (h : Coded x) : CodeOnVm (returnCode x) := by
  cases x with
  | ok a => exact .inl rfl
  | error code => exact .inr (h code rfl)

theorem dataCall_coded (fuel : Nat) (call : L2.DataCall) :
    Yields CodeOnVm (dataCall api lib r fuel call) := by
  have hcode : ∀ {α : Type} {m : VmM H (Except ReturnCode α)}, Yields Coded m →
      Yields CodeOnVm (returnCode <$> m) :=
    fun hm => .map fun s => (hm s).mono (fun _ _ h => returnCode_codes h) fun _ _ h => h
  cases call with
  | getStackVariables stackFrame path pagination =>
    exact hcode (populateStackVariables_coded api lib r fuel stackFrame path pagination)
  | getGlobalVariables path pagination =>
    exact hcode (populateGlobalVariables_coded api lib r fuel path pagination)
  | setStackVariableValue stackFrame path newValueString =>
    exact hcode (setStackVariableValue_coded api lib r stackFrame path newValueString)
  | getImmediateValue stackFrame watch _ =>
    exact hcode (getImmediateValue_coded api r fuel stackFrame watch)

/-- **How a data command fails.** Past the test of the pause flag a data command
succeeds, or fails with `Invalid`, `InvalidParameter` or `ErrorInternal`. -/
theorem dataCall_codes (fuel : Nat) (call : L2.DataCall) :
    Yields (fun rc => rc = .success ∨ FailsOnVm rc) (dataCall api lib r fuel call) :=
  dataCall_coded api lib r fuel call

variable {api lib} {fuel : Nat} {strToLower : Bytes → Bytes}
  {populateStack : SqVm H → List StackEntry}

/-- A data command's part on the VM has one of the codes, whatever the VM answers. -/
theorem call_codes {v v' : SqVm H} {call : L2.DataCall} {code : ReturnCode}
    (h : (squirrelAccess api lib fuel strToLower populateStack).call v call
      = some (v', some code)) : CodeOnVm code := by
  simp only [squirrelAccess] at h
  split at h
  · rename_i rc s' hrun
    simp only [Option.some.injEq, Prod.mk.injEq] at h
    obtain ⟨-, rfl⟩ := h
    exact (dataCall_coded api lib (renderer api lib fuel) fuel call v).ok hrun
  all_goals simp at h

end

end Sdb.L4
