import Sdb.L4Display.Evaluate
import Sdb.L4Display.Readings

/-!
# What a watch resolves to

The evaluation of a watch without the VM stack, as readings of the heap: the
walk along a chain of keys, the search among the locals, the trick with the
temporary table, and the worklist. None of them records a fault.

* `moves_resolveExpression`: the stack is as high afterwards as before;
* `reports_resolveExpression`: the value is read from the heap, the frame and the
  expression (`readExpression`), whatever lies on the stack.
-/
namespace Sdb.L4

open Sdb.L1 Sdb.L3 Sdb.Exec

section
variable {H : Type} (api : SqApi H)

/-! ## The height -/

theorem moves_literalObject (type : ExpressionNodeType) (value : Bytes) :
    Moves (H := H) (fun _ => 0) (literalObject type value) := by
  unfold literalObject
  split
  · split
    · exact moves_pure (by simp)
    · exact (moves_sqPushobject _).bind fun _ => (moves_sqGetstackobj 1).bind fun _ =>
        moves_sqPoptop.bind fun _ => moves_pure (by simp)
  · exact (moves_sqPushobject _).bind fun _ => (moves_sqGetstackobj 1).bind fun _ =>
      moves_sqPoptop.bind fun _ => moves_pure (by simp)

theorem moves_sqNodeObject (results : ExpressionResults) (type : ExpressionNodeType)
    (value : Bytes) (id : NodeId) (accessor : ExpressionNode) :
    Moves (H := H) (fun _ => 0) (sqNodeObject results type value id accessor) := by
  unfold sqNodeObject
  split
  · cases results (.accessor :: id) <;> exact moves_pure (by simp)
  · exact moves_literalObject type value

theorem moves_sqNodes (results : ExpressionResults) (type : ExpressionNodeType) (value : Bytes)
    (id : NodeId) (node : ExpressionNode) :
    Moves (H := H) (fun _ => 0) (sqNodes results type value id node) := by
  induction node generalizing id with
  | null => exact moves_pure (by simp)
  | node _ _ accessor next _ ih =>
    unfold sqNodes
    refine (moves_sqNodeObject results type value id accessor).bind fun target => ?_
    cases target with
    | error rc => exact moves_pure (by simp)
    | ok target =>
      refine ((ih (.next :: id)).congr (fun _ => rfl)).bind fun targets => ?_
      cases targets <;> exact moves_pure (by simp)

/-- A local that was found has been replaced by the expression's value on the
temporary table, which stays on top. -/
theorem moves_findLocal (fuel stackFrame : Nat) (value : Bytes) (sqNode : List SqObject)
    (n nSeq : Nat) : Moves (fun _ => 0) (findLocal api fuel stackFrame value sqNode n nSeq) := by
  induction n generalizing nSeq with
  | zero => exact moves_throw noExit_fuel
  | succ n ih =>
    unfold findLocal
    refine (moves_sqGetlocal api stackFrame nSeq).bind fun name => ?_
    cases name with
    | none => exact moves_pure (by simp [pushed])
    | some name =>
      dsimp only
      split
      · refine (moves_sqPushobject _).bind fun _ => (moves_sqPush 2).bind fun _ => ?_
        refine (moves_sqRawset api 4).bind fun _ => moves_sqPoptop.bind fun _ => ?_
        exact (moves_getObjectFromExpression api fuel sqNode).bind fun _ =>
          moves_pure (by simp [pushed])
      · exact moves_sqPoptop.bind fun _ => (ih (nSeq + 1)).congr (by simp [pushed])

theorem moves_evaluateGlobal (fuel : Nat) (sqNode : List SqObject) :
    Moves (fun _ => 0) (evaluateGlobal api fuel sqNode) := by
  refine (moves_sqPushroottable api).bind fun _ => ?_
  refine ((moves_getObjectFromExpression api fuel sqNode).congr (fun _ => rfl)).bind fun _ => ?_
  exact moves_sqPoptop.bind fun _ => moves_pure (by simp)

theorem moves_evaluateIdentifier (fuel : Nat) (stackFrame : Int32) (value : Bytes)
    (sqNode : List SqObject) :
    Moves (fun _ => 0) (evaluateIdentifier api fuel stackFrame value sqNode) := by
  unfold evaluateIdentifier
  split
  · refine (moves_sqNewtable api).bind fun _ => ?_
    refine ((moves_findLocal api fuel _ value sqNode fuel 0).congr (fun _ => rfl)).bind fun l => ?_
    cases l with
    | some p => exact moves_sqPoptop.bind fun _ => moves_pure (by simp)
    | none =>
      exact moves_sqPoptop.bind fun _ => (moves_evaluateGlobal api fuel sqNode).congr (by simp)
  · exact moves_evaluateGlobal api fuel sqNode

theorem moves_evaluateNode (fuel : Nat) (stackFrame : Int32) (results : ExpressionResults)
    (id : NodeId) (node : ExpressionNode) :
    Moves (fun _ => 0) (evaluateNode api fuel stackFrame results id node) := by
  cases node with
  | null => exact moves_throw noExit_undefined
  | node type value accessor next =>
    refine (moves_sqNodes results type value id _).bind fun sqNode => ?_
    cases sqNode with
    | error rc => exact moves_pure (by simp)
    | ok sqNode =>
      dsimp only
      split
      · exact (moves_evaluateIdentifier api fuel stackFrame value sqNode).congr (by simp)
      · exact moves_pure (by simp)

theorem moves_evaluateLoop (stackFrame : Int32) (nodeFuel n : Nat)
    (stack : List (NodeId × ExpressionNode)) (results : ExpressionResults) :
    Moves (fun _ => 0) (evaluateLoop api stackFrame nodeFuel n stack results) := by
  induction n generalizing stack results with
  | zero => exact moves_throw noExit_fuel
  | succ n ih =>
    cases stack with
    | nil => exact moves_pure rfl
    | cons top stack =>
      obtain ⟨id, node⟩ := top
      unfold evaluateLoop
      split
      · refine (moves_evaluateNode api nodeFuel stackFrame results id node).bind fun state => ?_
        cases state with
        | error rc => exact moves_pure (by simp)
        | ok state => exact (ih _ _).congr (by simp)
      · exact ih _ _

theorem moves_resolveExpression (fuel : Nat) (stackFrame : Int32) (root : ExpressionNode) :
    Moves (fun _ => 0) (resolveExpression api fuel stackFrame root) := by
  refine (moves_evaluateLoop api stackFrame fuel fuel _ _).bind fun results => ?_
  cases results with
  | error rc => exact moves_pure (by simp)
  | ok results =>
    dsimp only
    cases results [] <;> exact moves_pure (by simp)

/-! ## The readings -/

/-- What is found, with the path to it. -/
abbrev FoundObject := Except ReturnCode (SqObject × List UInt32)

/-- The scan for a key, from the iterator on. -/
def readScan (o key : SqObject) (found : SqObject → Reading H FoundObject) :
    Nat → SqObject → Reading H FoundObject
  | 0, _ => failure
  | n + 1, iter =>
    match readInteger api iter with
    | none => return .error .invalidParameter
    | some sqIter => do
      match ← readNext api o iter with
      | none => return .error .invalidParameter
      | some (iterKey, val, iter') =>
        if api.raw iterKey = api.raw key then
          let childRetVal ← found val
          return childRetVal.map fun (value, path) => (value, UInt32.ofInt sqIter :: path)
        else readScan o key found n iter'

/-- `GetObjectFromExpression` from an object. -/
def readObject (fuel : Nat) : List SqObject → SqObject → Reading H FoundObject
  | [], o => return .ok (o, [])
  | key :: keys, o =>
    match o.type with
    | .array =>
      if !key.isNumeric then return .error .invalidParameter
      else do
        match ← readGet api o key with
        | none => return .error .invalidParameter
        | some val =>
          let childRetVal ← readObject fuel keys val
          return childRetVal.map fun (value, path) =>
            (value, UInt32.ofInt ((readInteger api key).getD 0) :: path)
    | .table | .instance_ => do
      match ← readGet api o key with
      | none => return .error .invalidParameter
      | some _ => readScan api o key (readObject fuel keys) fuel (.integer 0)
    | _ => return .error .invalidParameter

/-- The accessor of a node; a number out of range is an error. -/
def nodeKey (results : ExpressionResults) (type : ExpressionNodeType) (text : Bytes)
    (id : NodeId) (accessor : ExpressionNode) : Except ReturnCode SqObject :=
  if accessor ≠ .null then
    match results (.accessor :: id) with
    | none => .error .errorInternal
    | some state => .ok state.resolvedValue
  else
    match literal type text with
    | some o => .ok o
    | none => .error .invalidParameter

/-- The accessors of a chain. -/
def nodeKeys (results : ExpressionResults) (type : ExpressionNodeType) (text : Bytes) :
    NodeId → ExpressionNode → Except ReturnCode (List SqObject)
  | _, .null => .ok []
  | id, .node _ _ accessor next =>
    match nodeKey results type text id accessor with
    | .error rc => .error rc
    | .ok key =>
      match nodeKeys results type text (.next :: id) next with
      | .error rc => .error rc
      | .ok keys => .ok (key :: keys)

/-- The search for a local of this name, which is put in the temporary table `t`. -/
def readLocal (fuel stackFrame : Nat) (text : Bytes) (keys : List SqObject) (t : Nat) :
    Nat → Nat → Reading H (Option (Nat × FoundObject))
  | 0, _ => failure
  | n + 1, nSeq => do
    match ← ask (api.getlocal · stackFrame nSeq) with
    | none => return none
    | some (localName, val) =>
      if cstr localName = text then
        turn fun h => (api.rawset h t (.string text) val, ())
        return some (nSeq, ← readObject api fuel keys (.table t))
      else readLocal fuel stackFrame text keys t n (nSeq + 1)

def readGlobal (fuel : Nat) (keys : List SqObject) :
    Reading H (Except ReturnCode ExpressionNodeState) := do
  let root ← ask api.roottable
  let rc ← readObject api fuel keys (.table root)
  return rc.map fun (value, path) => ⟨path, value, .global⟩

def readIdentifier (fuel : Nat) (stackFrame : Int32) (text : Bytes) (keys : List SqObject) :
    Reading H (Except ReturnCode ExpressionNodeState) := do
  if 0 ≤ stackFrame.toInt then
    let t ← turn api.newtable
    match ← readLocal api fuel stackFrame.toInt.toNat text keys t fuel 0 with
    | some (nSeq, rc) =>
      return rc.map fun (value, path) => ⟨UInt32.ofNat nSeq :: path.tail, value, .local_⟩
    | none => readGlobal api fuel keys
  else readGlobal api fuel keys

def readNode (fuel : Nat) (stackFrame : Int32) (results : ExpressionResults) (id : NodeId) :
    ExpressionNode → Reading H (Except ReturnCode ExpressionNodeState)
  | .null => failure
  | .node type text accessor next =>
    match nodeKeys results type text id (.node type text accessor next) with
    | .error rc => return .error rc
    | .ok keys =>
      if type = .identifier then readIdentifier api fuel stackFrame text keys
      else return .ok ⟨[], keys.headD .null, .evaluation⟩

/-- The worklist. -/
def readLoop (stackFrame : Int32) (nodeFuel : Nat) :
    Nat → List (NodeId × ExpressionNode) → ExpressionResults →
      Reading H (Except ReturnCode ExpressionResults)
  | 0, _, _ => failure
  | _ + 1, [], results => return .ok results
  | n + 1, (id, node) :: stack, results => do
    match unresolved results id node with
    | [] =>
      match ← readNode api nodeFuel stackFrame results id node with
      | .error rc => return .error rc
      | .ok state =>
        readLoop stackFrame nodeFuel n stack (Function.update results id (some state))
    | dependencies =>
      readLoop stackFrame nodeFuel n (dependencies.reverse ++ (id, node) :: stack) results

/-- The value of an expression in a frame. -/
def readExpression (fuel : Nat) (stackFrame : Int32) (root : ExpressionNode) :
    Reading H (Except ReturnCode ExpressionNodeState) := do
  match ← readLoop api stackFrame fuel fuel [([], root)] fun _ => none with
  | .error rc => return .error rc
  | .ok results =>
    match results [] with
    | none => return .error .invalidParameter
    | some state => return .ok state

/-! ## The code reads so -/

variable {api} in
theorem reports_scanForKey {o found key : SqObject}
    {walk : VmM H (Except ReturnCode (SqObject × List UInt32))}
    {read : SqObject → Reading H FoundObject}
    (hwalk : ∀ v, Reports walk [v] (read v) fun _ t => t = [v]) (n : Nat) (iter : SqObject) :
    Reports (scanForKey api key walk n) [iter, found, o] (readScan api o key read n iter)
      fun _ t => t = [o] := by
  induction n generalizing iter with
  | zero => exact reports_failure fun h => slips_throw noExit_fuel
  | succ n ih =>
    unfold scanForKey readScan
    refine reports_after (fun h => gives_readInteger api rfl) ?_
    cases readInteger api iter with
    | none =>
      exact reports_after (fun h => gives_sqPoptop)
        (reports_after (fun h => gives_sqPoptop) (reports_pure rfl))
    | some sqIter =>
      refine reports_sqNext api rfl ?_ fun iterKey val iter' => ?_
      · exact reports_after (fun h => gives_sqPoptop)
          (reports_after (fun h => gives_sqPoptop) (reports_pure rfl))
      · rw [if_pos rfl]
        refine reports_after (fun h => gives_sqGetstackobj rfl) ?_
        dsimp only
        split
        · refine ((hwalk val).frame [iterKey, iter', found, o]).bind (fun _ => ?_) ?_
          · exact (moves_sqPop 4).adds.bind fun _ => adds_pure _
          · rintro childRetVal _ rfl
            exact reports_after (fun h => gives_sqPop [val, iterKey, iter', found])
              (reports_pure rfl)
        · exact reports_after (fun h => gives_sqPop [val, iterKey]) (ih iter')

theorem reports_getObjectFromExpression (fuel : Nat) (keys : List SqObject) (o : SqObject) :
    Reports (getObjectFromExpression api fuel keys) [o] (readObject api fuel keys o)
      fun _ t => t = [o] := by
  induction keys generalizing o with
  | nil => exact reports_after (fun h => gives_sqGetstackobj rfl) (reports_pure rfl)
  | cons key keys ih =>
    have hslot : Reports (do
        sqPushobject key
        if ← sqGet api 2 then
          sqPushinteger 0
          scanForKey api key (getObjectFromExpression api fuel keys) fuel
        else return .error .invalidParameter) [o] (do
          match ← readGet api o key with
          | none => return .error .invalidParameter
          | some _ => readScan api o key (readObject api fuel keys) fuel (.integer 0))
        fun _ t => t = [o] := by
      refine reports_after (fun h => gives_sqPushobject key) ?_
      refine reports_sqGet api rfl (reports_pure rfl) fun val => ?_
      rw [if_pos rfl]
      refine reports_after (fun h => gives_sqPushobject _) ?_
      exact reports_scanForKey ih fuel _
    unfold getObjectFromExpression readObject
    refine reports_after (fun h => gives_sqGettype rfl) ?_
    cases o with
    | table a => exact hslot
    | instance_ a => exact hslot
    | array a =>
      dsimp only [SqObject.type]
      split
      · exact reports_pure rfl
      · refine reports_after (fun h => gives_sqPushobject key) ?_
        refine reports_after (fun h => gives_readInteger api rfl) ?_
        refine reports_sqGet api rfl (reports_pure rfl) fun val => ?_
        rw [if_pos rfl]
        refine ((ih val).frame [.array a]).bind (fun _ => ?_) ?_
        · exact adds_sqPoptop.bind fun _ => adds_pure _
        · rintro childRetVal _ rfl
          exact reports_after (fun h => gives_sqPoptop) (reports_pure rfl)
    | _ => exact reports_pure rfl

theorem gives_nodeKeys {h : H} {top : List SqObject} (results : ExpressionResults)
    (type : ExpressionNodeType) (text : Bytes) (id : NodeId) (node : ExpressionNode) :
    Gives (sqNodes results type text id node) h top (nodeKeys results type text id node) h top := by
  induction node generalizing id with
  | null => exact gives_pure _
  | node type' text' accessor next _ ih =>
    have hobject : Gives (sqNodeObject results type text id accessor) h top
        (nodeKey results type text id accessor) h top := by
      unfold sqNodeObject nodeKey
      split
      · cases results (.accessor :: id) <;> exact gives_pure _
      · exact gives_literalObject type text
    unfold sqNodes nodeKeys
    refine hobject.bind ?_
    cases nodeKey results type text id accessor with
    | error rc => exact gives_pure _
    | ok key =>
      refine (ih (.next :: id)).bind ?_
      cases nodeKeys results type text (.next :: id) next <;> exact gives_pure _

/-- The temporary table stays on top. -/
theorem reports_findLocal (fuel stackFrame : Nat) (text : Bytes) (keys : List SqObject)
    (t n nSeq : Nat) :
    Reports (findLocal api fuel stackFrame text keys n nSeq) [.table t]
      (readLocal api fuel stackFrame text keys t n nSeq) fun _ u => u = [.table t] := by
  induction n generalizing nSeq with
  | zero => exact reports_failure fun h => slips_throw noExit_fuel
  | succ n ih =>
    unfold findLocal readLocal
    refine reports_ask (fun found => found.map (·.1))
      (fun found => (found.map (·.2)).toList ++ [.table t])
      (fun h => gives_sqGetlocal api stackFrame nSeq) fun found => ?_
    rcases found with _ | ⟨localName, val⟩
    · exact reports_pure rfl
    · dsimp only [Option.map_some]
      split
      · refine reports_after (fun h => gives_sqPushobject _) ?_
        refine reports_after (fun h => gives_sqPush rfl) ?_
        refine reports_turn (fun done => done) (fun _ => [val, .table t])
          (fun h => gives_sqRawset api rfl (by simp)) fun _ => ?_
        refine reports_after (fun h => gives_sqPoptop) ?_
        refine (reports_getObjectFromExpression api fuel keys (.table t)).bind
          (fun _ => adds_pure _) ?_
        rintro rc _ rfl
        exact reports_pure rfl
      · exact reports_after (fun h => gives_sqPoptop) (ih (nSeq + 1))

theorem reports_evaluateGlobal (fuel : Nat) (keys : List SqObject) :
    Reports (evaluateGlobal api fuel keys) [] (readGlobal api fuel keys) fun _ t => t = [] := by
  refine reports_ask (fun _ => ()) (fun root => [.table root])
    (fun h => gives_sqPushroottable api) fun root => ?_
  refine (reports_getObjectFromExpression api fuel keys (.table root)).bind (fun _ => ?_) ?_
  · exact adds_sqPoptop.bind fun _ => adds_pure _
  · rintro rc _ rfl
    exact reports_after (fun h => gives_sqPoptop) (reports_pure rfl)

theorem reports_evaluateIdentifier (fuel : Nat) (stackFrame : Int32) (text : Bytes)
    (keys : List SqObject) :
    Reports (evaluateIdentifier api fuel stackFrame text keys) []
      (readIdentifier api fuel stackFrame text keys) fun _ t => t = [] := by
  unfold evaluateIdentifier readIdentifier
  split
  · refine reports_turn (fun _ => ()) (fun t => [.table t]) (fun h => gives_sqNewtable api)
      fun t => ?_
    refine (reports_findLocal api fuel _ text keys t fuel 0).bind (fun found => ?_) ?_
    · cases found with
      | some p => exact adds_sqPoptop.bind fun _ => adds_pure _
      | none => exact adds_sqPoptop.bind fun _ => (moves_evaluateGlobal api fuel keys).adds
    · rintro found _ rfl
      cases found with
      | some p => exact reports_after (fun h => gives_sqPoptop) (reports_pure rfl)
      | none => exact reports_after (fun h => gives_sqPoptop) (reports_evaluateGlobal api fuel keys)
  · exact reports_evaluateGlobal api fuel keys

theorem reports_evaluateNode (fuel : Nat) (stackFrame : Int32) (results : ExpressionResults)
    (id : NodeId) (node : ExpressionNode) :
    Reports (evaluateNode api fuel stackFrame results id node) []
      (readNode api fuel stackFrame results id node) fun _ t => t = [] := by
  cases node with
  | null => exact reports_failure fun h => slips_throw noExit_undefined
  | node type text accessor next =>
    unfold evaluateNode
    simp only [readNode]
    refine reports_after (fun h => gives_nodeKeys results type text id _) ?_
    cases nodeKeys results type text id (.node type text accessor next) with
    | error rc => exact reports_pure rfl
    | ok keys =>
      dsimp only
      split
      · exact reports_evaluateIdentifier api fuel stackFrame text keys
      · exact reports_pure rfl

theorem reports_evaluateLoop (stackFrame : Int32) (nodeFuel n : Nat)
    (stack : List (NodeId × ExpressionNode)) (results : ExpressionResults) :
    Reports (evaluateLoop api stackFrame nodeFuel n stack results) []
      (readLoop api stackFrame nodeFuel n stack results) fun _ t => t = [] := by
  induction n generalizing stack results with
  | zero => exact reports_failure fun h => slips_throw noExit_fuel
  | succ n ih =>
    cases stack with
    | nil => exact reports_pure rfl
    | cons top stack =>
      obtain ⟨id, node⟩ := top
      unfold evaluateLoop readLoop
      cases unresolved results id node with
      | nil =>
        refine (reports_evaluateNode api nodeFuel stackFrame results id node).bind
          (fun state => ?_) ?_
        · cases state with
          | error rc => exact adds_pure _
          | ok state => exact (moves_evaluateLoop api stackFrame nodeFuel n _ _).adds
        · rintro state _ rfl
          cases state with
          | error rc => exact reports_pure rfl
          | ok state => exact ih _ _
      | cons dependency dependencies => exact ih _ _

theorem reports_resolveExpression (fuel : Nat) (stackFrame : Int32) (root : ExpressionNode) :
    Reports (resolveExpression api fuel stackFrame root) []
      (readExpression api fuel stackFrame root) fun _ t => t = [] := by
  unfold resolveExpression readExpression
  refine (reports_evaluateLoop api stackFrame fuel fuel _ _).bind (fun results => ?_) ?_
  · cases results with
    | error rc => exact adds_pure _
    | ok results =>
      dsimp only
      cases results [] <;> exact adds_pure _
  · rintro results _ rfl
    cases results with
    | error rc => exact reports_pure rfl
    | ok results =>
      dsimp only
      cases results [] <;> exact reports_pure rfl

end

end Sdb.L4
