import Sdb.L3Vm.Helpers
import Sdb.L3Vm.Parse
import Sdb.L2Pause.Debugger

/-!
# The data commands on the VM (`SquirrelVmDataImpl` and `GetImmediateValue`)

The part of each data command that uses the VM, after the checks on the pause
flag. A command yields its outputs (`ok`), a return code other than `Success`
(`error`), or leaves by an exception.

In `GetImmediateValue` a node of the expression tree is identified by its
address. Here it is identified by its place in the tree, a `NodeId`, and the
worklist holds the places with the nodes there. `sq_addref` and `sq_release`
keep strings alive that the model never frees, and are left out.

`squirrelAccess` makes these commands the `VmAccess` of the pause mechanism.
-/
namespace Sdb.L3

open Sdb.L1

/-- `SquirrelDebugger::kPathSeparator` (SquirrelDebugger.h:25) -/
def kPathSeparator : UInt8 := 44

/-- The path parts, or `none` when `stoi` throws.
mirrors SquirrelDebugger.cpp:139-146, 172-181 -/
def pathParts (path : Bytes) : Option (List UInt64) :=
  (splitPath kPathSeparator path).mapM fun part => (stoi part).map UInt64.ofInt

section
variable {H : Type} (api : SqApi H) (lib : CppLib) (r : Renderer H)

/-! ## Stack and global variables -/

/-- The loop of `WithStackRootVariables`, `n` locals from `nSeq` on.
mirrors SquirrelDebugger.cpp:105-127 -/
def rootVariablesLoop (stackFrame : Nat) : Nat → Nat → VmM H (List Variable)
  | 0, _ => return []
  | n + 1, nSeq => do
    match ← sqGetlocal api stackFrame nSeq with
    | none => return []
    | some localName =>
      let variable_ ← createChildVariable api r
      sqPoptop
      let rest ← rootVariablesLoop stackFrame n (nSeq + 1)
      return { variable_ with
        pathIterator := UInt64.ofNat nSeq
        pathUiString := cstr localName
        editable := false } :: rest

/-- mirrors SquirrelDebugger.cpp:101-129, with the `fn` of lines 84-89. The sum
of the pagination fields is taken in 32 bits. -/
def withStackRootVariables (stackFrame : UInt32) (pagination : PaginationInfo) :
    VmM H (List Variable) :=
  rootVariablesLoop api r stackFrame.toNat
    ((pagination.beginIterator + pagination.count).toNat - pagination.beginIterator.toNat)
    pagination.beginIterator.toNat

/-- mirrors SquirrelDebugger.cpp:131-165 -/
def withStackVariables {α : Type} (stackFrame : UInt32) (path : Bytes)
    (fn : List UInt64 → VmM H (Except ReturnCode α)) : VmM H (Except ReturnCode α) := do
  if path = [] then return .error .errorInternal
  else
    match pathParts path with
    | none => throw .logicError
    | some parts =>
      match ← sqGetlocal api stackFrame.toNat (parts.headD 0).toNat with
      | none => return .error .invalidParameter
      | some _ =>
        let rc ← fn parts
        sqPoptop
        return rc

/-- mirrors SquirrelDebugger.cpp:77-99 -/
def populateStackVariables (fuel : Nat) (stackFrame : UInt32) (path : Bytes)
    (pagination : PaginationInfo) : VmM H (Except ReturnCode (List Variable)) := do
  if path = [] then return .ok (← withStackRootVariables api r stackFrame pagination)
  else
    withStackVariables api stackFrame path fun parts =>
      createChildVariablesFromIterable api lib r fuel parts.tail pagination

/-- mirrors SquirrelDebugger.cpp:167-188 -/
def populateGlobalVariables (fuel : Nat) (path : Bytes) (pagination : PaginationInfo) :
    VmM H (Except ReturnCode (List Variable)) := do
  match if path = [] then some [] else pathParts path with
  | none => throw .logicError
  | some parts =>
    sqPushroottable api
    let rc ← createChildVariablesFromIterable api lib r fuel parts pagination
    sqPoptop
    return rc

/-- The function `SetStackVariableValue` runs on the value to replace: the
container is at -4, over it an iterator, the key and the value.
mirrors SquirrelDebugger.cpp:198-219 -/
def replaceValue (newValueString : Bytes) : VmM H (Except ReturnCode Variable) := do
  let key ← sqGetstackobj 2
  match ← updateFromString api lib 4 newValueString with
  | .success =>
    sqPushobject key
    sqPushobject key
    if ← sqGet api 4 then return .ok (← createChildVariable api r)
    else
      recordFault .lostKey
      return .error .invalid
  | rc => return .error rc

/-- mirrors SquirrelDebugger.cpp:190-221 -/
def setStackVariableValue (stackFrame : UInt32) (path newValueString : Bytes) :
    VmM H (Except ReturnCode Variable) :=
  withStackVariables api stackFrame path fun parts =>
    if parts.tail = [] then pure (.error .invalidParameter)
    else withVariableAtPath api (replaceValue api lib r newValueString) parts.tail

/-! ## Watch expressions -/

/-- A step from a node to one it points to. -/
inductive NodeStep where
  | next | accessor
  deriving DecidableEq, Repr

/-- A node of the expression tree, by the steps from the root, last step first. -/
abbrev NodeId := List NodeStep

/-- mirrors SquirrelDebugger.cpp:452-457; the `sqNode` is not read again. -/
structure ExpressionNodeState where
  iteratorPath : List UInt32
  resolvedValue : SqObject
  scope : VariableScope

/-- `expressionResults` -/
abbrev ExpressionResults := NodeId → Option ExpressionNodeState

/-- The accessor expressions of a chain that have no result yet, in the order in
which they are pushed.
mirrors SquirrelDebugger.cpp:465-477 -/
def unresolved (results : ExpressionResults) :
    NodeId → ExpressionNode → List (NodeId × ExpressionNode)
  | _, .null => []
  | id, .node _ _ accessor next =>
    if accessor ≠ .null ∧ results (.accessor :: id) = none then
      (.accessor :: id, accessor) :: unresolved results (.next :: id) next
    else unresolved results (.next :: id) next

/-- The VM object for the text of a root node. Both platforms' `int` is 32 bits
wide, and on the one the type names are indexed for so is `long`: `strtol` sets
`ERANGE` from 2^31 on.
mirrors SquirrelDebugger.cpp:507-528 -/
def literalObject (type : ExpressionNodeType) (accessorValue : Bytes) :
    VmM H (Except ReturnCode SqObject) := do
  if type = .number then
    if 2147483647 < digitsValue accessorValue then return .error .invalidParameter
    else
      sqPushinteger (digitsValue accessorValue)
      let target ← sqGetstackobj 1
      sqPoptop
      return .ok target
  else
    sqPushstring accessorValue
    let target ← sqGetstackobj 1
    sqPoptop
    return .ok target

/-- The accessor of one node as a VM object. `type` and `accessorValue` are
those of `node`, the first node of the chain.
mirrors SquirrelDebugger.cpp:494-528 -/
def sqNodeObject (results : ExpressionResults) (type : ExpressionNodeType)
    (accessorValue : Bytes) (id : NodeId) (accessor : ExpressionNode) :
    VmM H (Except ReturnCode SqObject) :=
  if accessor ≠ .null then
    match results (.accessor :: id) with
    | none => return .error .errorInternal
    | some state => return .ok state.resolvedValue
  else literalObject type accessorValue

/-- The accessors of a chain as VM objects.
mirrors SquirrelDebugger.cpp:488-536 -/
def sqNodes (results : ExpressionResults) (type : ExpressionNodeType) (accessorValue : Bytes) :
    NodeId → ExpressionNode → VmM H (Except ReturnCode (List SqObject))
  | _, .null => return .ok []
  | id, .node _ _ accessor next => do
    match ← sqNodeObject results type accessorValue id accessor with
    | .error rc => return .error rc
    | .ok target =>
      match ← sqNodes results type accessorValue (.next :: id) next with
      | .error rc => return .error rc
      | .ok targets => return .ok (target :: targets)

/-- The search for a local of this name, with the temporary table on top of the
stack: the index of the local and the result of the expression on a table that
holds it, or `none`.
mirrors SquirrelDebugger.cpp:548-577 -/
def findLocal (fuel stackFrame : Nat) (accessorValue : Bytes) (sqNode : List SqObject) :
    Nat → Nat → VmM H (Option (Nat × Except ReturnCode (SqObject × List UInt32)))
  | 0, _ => throw .fuel
  | n + 1, nSeq => do
    match ← sqGetlocal api stackFrame nSeq with
    | none => return none
    | some localName =>
      if cstr localName = accessorValue then
        sqPushstring accessorValue
        sqPush 2
        sqRawset api 4
        sqPoptop
        return some (nSeq, ← getObjectFromExpression api fuel sqNode)
      else
        sqPoptop
        findLocal fuel stackFrame accessorValue sqNode n (nSeq + 1)

/-- mirrors SquirrelDebugger.cpp:581-591 -/
def evaluateGlobal (fuel : Nat) (sqNode : List SqObject) :
    VmM H (Except ReturnCode ExpressionNodeState) := do
  sqPushroottable api
  let rc ← getObjectFromExpression api fuel sqNode
  sqPoptop
  return rc.map fun (value, path) => ⟨path, value, .global⟩

/-- mirrors SquirrelDebugger.cpp:539-592 -/
def evaluateIdentifier (fuel : Nat) (stackFrame : Int32) (accessorValue : Bytes)
    (sqNode : List SqObject) : VmM H (Except ReturnCode ExpressionNodeState) := do
  if 0 ≤ stackFrame.toInt then
    sqNewtable api
    match ← findLocal api fuel stackFrame.toInt.toNat accessorValue sqNode fuel 0 with
    | some (nSeq, rc) =>
      sqPoptop
      return rc.map fun (value, path) => ⟨UInt32.ofNat nSeq :: path.tail, value, .local_⟩
    | none =>
      sqPoptop
      evaluateGlobal api fuel sqNode
  else evaluateGlobal api fuel sqNode

/-- One node whose accessor expressions have results.
mirrors SquirrelDebugger.cpp:485-599 -/
def evaluateNode (fuel : Nat) (stackFrame : Int32) (results : ExpressionResults) (id : NodeId) :
    ExpressionNode → VmM H (Except ReturnCode ExpressionNodeState)
  -- `node->type` of a null pointer
  | .null => throw .undefined
  | .node type accessorValue accessor next => do
    match ← sqNodes results type accessorValue id (.node type accessorValue accessor next) with
    | .error rc => return .error rc
    | .ok sqNode =>
      if type = .identifier then evaluateIdentifier api fuel stackFrame accessorValue sqNode
      else return .ok ⟨[], sqNode.headD .null, .evaluation⟩

/-- mirrors SquirrelDebugger.cpp:460-600. The head of the worklist is `back()`. -/
def evaluateLoop (stackFrame : Int32) (nodeFuel : Nat) :
    Nat → List (NodeId × ExpressionNode) → ExpressionResults →
      VmM H (Except ReturnCode ExpressionResults)
  | 0, _, _ => throw .fuel
  | _ + 1, [], results => return .ok results
  | n + 1, (id, node) :: stack, results => do
    match unresolved results id node with
    | [] =>
      match ← evaluateNode api nodeFuel stackFrame results id node with
      | .error rc => return .error rc
      | .ok state =>
        evaluateLoop stackFrame nodeFuel n stack (Function.update results id (some state))
    | dependencies =>
      evaluateLoop stackFrame nodeFuel n (dependencies.reverse ++ (id, node) :: stack) results

/-- The result for the root of a parsed expression.
mirrors SquirrelDebugger.cpp:441-611 -/
def resolveExpression (fuel : Nat) (stackFrame : Int32) (expressionRoot : ExpressionNode) :
    VmM H (Except ReturnCode ExpressionNodeState) := do
  match ← evaluateLoop api stackFrame fuel fuel [([], expressionRoot)] fun _ => none with
  | .error rc => return .error rc
  | .ok results =>
    match results [] with
    | none => return .error .invalidParameter
    | some nodeState => return .ok nodeState

/-- mirrors SquirrelDebugger.cpp:612-621 -/
def showResolved (nodeState : ExpressionNodeState) : VmM H ImmediateValue := do
  sqPushobject nodeState.resolvedValue
  let variable_ ← createChildVariable api r
  sqPoptop
  return {
    variable_ := variable_
    scope := nodeState.scope
    iteratorPath := nodeState.iteratorPath }

/-- `GetImmediateValue` of a parsed expression.
mirrors SquirrelDebugger.cpp:441-621 -/
def evaluateExpression (fuel : Nat) (stackFrame : Int32) (expressionRoot : ExpressionNode) :
    VmM H (Except ReturnCode ImmediateValue) := do
  match ← resolveExpression api fuel stackFrame expressionRoot with
  | .error rc => return .error rc
  | .ok nodeState => return .ok (← showResolved api r nodeState)

/-- mirrors SquirrelDebugger.cpp:406-621, without the test of the pause flag. -/
def getImmediateValue (fuel : Nat) (stackFrame : Int32) (watch : Bytes) :
    VmM H (Except ReturnCode ImmediateValue) :=
  match parseWatch watch with
  | .error (.watch _ _) => pure (.error .invalidParameter)
  | .error .undefined => throw .undefined
  | .error .fuel => throw .fuel
  | .ok expressionRoot => evaluateExpression api r fuel stackFrame expressionRoot

/-! ## The data commands of the pause mechanism -/

/-- The return code of a command, without its outputs. -/
def returnCode {α : Type} : Except ReturnCode α → ReturnCode
  | .ok _ => .success
  | .error rc => rc

/-- The part of a data command that uses the VM.
mirrors SquirrelDebugger.cpp:341, 354, 370, 441-621 -/
def dataCall (fuel : Nat) : L2.DataCall → VmM H ReturnCode
  | .getStackVariables stackFrame path pagination =>
    returnCode <$> populateStackVariables api lib r fuel stackFrame path pagination
  | .getGlobalVariables path pagination =>
    returnCode <$> populateGlobalVariables api lib r fuel path pagination
  | .setStackVariableValue stackFrame path newValueString =>
    returnCode <$> setStackVariableValue api lib r stackFrame path newValueString
  | .getImmediateValue stackFrame watch _ =>
    returnCode <$> getImmediateValue api r fuel stackFrame watch

/-- The stack listing of `PopulateStack` is not part of this model: the VM shows
it to the hook through `populateStack`. A command that runs out of its bound or
has no defined behaviour does not return. -/
def squirrelAccess (fuel : Nat) (strToLower : Bytes → Bytes)
    (populateStack : SqVm H → List StackEntry) : L2.VmAccess (SqVm H) where
  strToLower := strToLower
  populateStack := populateStack
  parses watch :=
    match parseWatch watch with
    | .error (.watch _ _) => false
    | _ => true
  call s call :=
    match (dataCall api lib (renderer api lib fuel) fuel call).run s with
    | .ok rc s' => some (s', some rc)
    | .error .fuel _ => none
    | .error .undefined _ => none
    | .error _ s' => some (s', none)

end

end Sdb.L3
