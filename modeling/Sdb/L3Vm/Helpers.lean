import Sdb.L3Vm.SqVm
import Sdb.L1Data.Text
import Mathlib.Logic.Function.Basic

/-!
# Rendering and walking VM objects (`squirrel_debugger/SquirrelVmHelpers.cpp`)

`ToString` and `ToClassFullName` are always called on the top of the stack
(index -1). The functions that use them take them as a `Renderer`, so that what
they do can be stated for any rendering; `renderer` is the source's own.

`ToString` recurses through `CreateTableSummary`, `GetClassesFullName` through
nested tables, and the loops over `sq_next` end when the VM says so; each takes
a bound on its steps, `fuel`, and stops with `Exn.fuel` when it is used up.

`CreateChildVariable` always returns `Success`; its result here is the variable
it fills in, and the branches of its callers for another code are left out.
-/
namespace Sdb.L3

open Sdb.L1

/-- mirrors SquirrelVmHelpers.cpp:28-49 -/
def toSqObjectTypeName : SqObjectType → Bytes
  | .null => ascii "NULL"
  | .integer => ascii "INTEGER"
  | .float => ascii "FLOAT"
  | .bool => ascii "BOOL"
  | .string => ascii "STRING"
  | .table => ascii "TABLE"
  | .array => ascii "ARRAY"
  | .userData => ascii "USERDATA"
  | .closure => ascii "CLOSURE"
  | .nativeClosure => ascii "NATIVECLOSURE"
  | .generator => ascii "GENERATOR"
  | .userPointer => ascii "USERPOINTER"
  | .thread => ascii "THREAD"
  | .funcProto => ascii "FUNCPROTO"
  | .class_ => ascii "CLASS"
  | .instance_ => ascii "INSTANCE"
  | .weakRef => ascii "WEAKREF"
  | .outer => ascii "OUTER"

/-- mirrors SquirrelVmHelpers.cpp:32-60 -/
def toVariableType : SqObjectType → VariableType
  | .null => .null
  | .integer => .integer
  | .float => .float
  | .bool => .bool
  | .string => .string
  | .table => .table
  | .array => .array
  | .userData => .userData
  | .closure => .closure
  | .nativeClosure => .nativeClosure
  | .generator => .generator
  | .userPointer => .userPointer
  | .thread => .thread
  | .funcProto => .funcProto
  | .class_ => .class_
  | .instance_ => .instance_
  | .weakRef => .weakRef
  | .outer => .outer

/-- mirrors SquirrelVmHelpers.cpp:16-17 -/
def kMaxTableSizeToSort : Int := 1000

def kMaxTableValueStringLength : Nat := 20

section
variable {H : Type} (api : SqApi H) (lib : CppLib)

/-! ## Class names -/

/-- `std::unordered_map<SQHash, std::string>` -/
abbrev ClassNames := UInt64 → Option Bytes

/-- The loop of `getClassesFullNameHelper`, with the iterator on top of the
stack; `rec` is the recursive call on a table found in a slot.
mirrors SquirrelVmHelpers.cpp:103-130 -/
def classNamesLoop (rec : Bytes → ClassNames → VmM H ClassNames) (currentNamespace : Bytes) :
    Nat → ClassNames → VmM H ClassNames
  | 0, _ => throw .fuel
  | n + 1, classNames => do
    if ← sqNext api 2 then
      let type ← sqGettype 1
      if type = .table ∨ type = .class_ then
        match ← sqGetstring 2 with
        -- `key` was never assigned
        | none => throw .undefined
        | some key =>
          let newNamespace :=
            currentNamespace ++ (if currentNamespace = [] then [] else ascii ".") ++ cstr key
          if type = .class_ then
            let classHash ← sqGethash api 1
            if (classNames classHash).isSome then
              sqPop 2
              return classNames
            else
              sqPop 2
              classNamesLoop rec currentNamespace n
                (Function.update classNames classHash (some newNamespace))
          else
            let classNames ← rec newNamespace classNames
            sqPop 2
            classNamesLoop rec currentNamespace n classNames
      else
        sqPop 2
        classNamesLoop rec currentNamespace n classNames
    else return classNames

/-- mirrors SquirrelVmHelpers.cpp:92-133 -/
def getClassesFullNameHelper : Nat → Bytes → ClassNames → VmM H ClassNames
  | 0, _, _ => throw .fuel
  | n + 1, currentNamespace, classNames => do
    if (← sqGettype 1) ≠ .table then
      recordFault .unnamedClass
      throw (.runtimeError "Must have a table at the top of the stack.")
    else
      sqPushnull
      let classNames ← classNamesLoop api (getClassesFullNameHelper n) currentNamespace n classNames
      sqPop 1
      return classNames

/-- The loop over the locals of one stack level in `ToClassFullName`: the name of
the local that is the class, if there is one.
mirrors SquirrelVmHelpers.cpp:679-703 -/
def localsLoop (stackIdx : Nat) (findClassHash : UInt64) :
    Nat → Nat → ClassNames → VmM H (Option Bytes × ClassNames)
  | 0, _, _ => throw .fuel
  | n + 1, nSeq, classNames => do
    match ← sqGetlocal api stackIdx nSeq with
    | none => return (none, classNames)
    | some localName =>
      let valType ← sqGettype 1
      if valType = .table then
        let classNames ← getClassesFullNameHelper api n [] classNames
        sqPoptop
        localsLoop stackIdx findClassHash n (nSeq + 1) classNames
      else if valType = .class_ then
        let classHash ← sqGethash api 1
        if classHash = findClassHash then
          sqPoptop
          return (some (cstr localName), classNames)
        else
          sqPoptop
          localsLoop stackIdx findClassHash n (nSeq + 1) classNames
      else
        sqPoptop
        localsLoop stackIdx findClassHash n (nSeq + 1) classNames

/-- The loop over the stack levels in `ToClassFullName`. The class names found in
tables of the locals are collected and never looked up.
mirrors SquirrelVmHelpers.cpp:675-708 -/
def framesLoop (findClassHash : UInt64) : Nat → Nat → ClassNames → VmM H Bytes
  | 0, _, _ => throw .fuel
  | n + 1, stackIdx, classNames => do
    if ← sqStackinfos api stackIdx then
      match ← localsLoop api stackIdx findClassHash n 0 classNames with
      | (some localName, _) => return localName
      | (none, classNames) => framesLoop findClassHash n (stackIdx + 1) classNames
    else
      recordFault .unnamedClass
      throw (.runtimeError "Unknown class")

/-- mirrors SquirrelVmHelpers.cpp:651-709 -/
def toClassFullName (fuel : Nat) : VmM H Bytes := do
  if (← sqGettype 1) ≠ .class_ then
    recordFault .unnamedClass
    throw (.runtimeError "Can't get the name of a class if it isn't a class!")
  else
    let findClassHash ← sqGethash api 1
    sqPushroottable api
    let classNames ← getClassesFullNameHelper api fuel [] fun _ => none
    sqPoptop
    match classNames findClassHash with
    | some name => return name
    | none => framesLoop api findClassHash fuel 0 classNames

/-! ## `ToString` -/

/-- The key texts of a table with the iterators before them, in the order of the
VM; the iterator is on top of the stack.
mirrors SquirrelVmHelpers.cpp:146-150, 454-458 -/
def collectKeys (toString : VmM H Bytes) : Nat → VmM H (List (Bytes × Int))
  | 0 => throw .fuel
  | n + 1 => do
    match ← sqGetinteger api 1 with
    | none => return []
    | some sqIter =>
      if ← sqNext api 2 then
        sqPoptop
        let key ← toString
        sqPoptop
        let rest ← collectKeys toString n
        return (key, sqIter) :: rest
      else return []

/-- mirrors SquirrelVmHelpers.cpp:142-154, 450-462 -/
def sortedKeys (toString : VmM H Bytes) (fuel : Nat) : VmM H (List (Bytes × Int)) := do
  sqPushinteger 0
  let tableKeyToIterator ← collectKeys api toString fuel
  sqPoptop
  return lib.sort tableKeyToIterator

/-- `operator<<(WriteTableSummaryFieldHelper)`: what `ss` holds afterwards.
mirrors SquirrelVmHelpers.cpp:73-90 -/
def writeTableSummaryField (toString : VmM H Bytes) (isFirst : Bool) (ss : Bytes) :
    VmM H Bytes := do
  let valueStr ← toString
  if valueStr ≠ [] then
    let ss := if isFirst then ss else ss ++ ascii ", "
    sqPoptop
    let key ← toString
    sqPoptop
    return ss ++ key ++ ascii ": " ++ valueStr
  else
    sqPop 2
    return ss

/-- The fields of a table with sorted keys.
mirrors SquirrelVmHelpers.cpp:158-168 -/
def sortedFields (toString : VmM H Bytes) (initialSummarySize : Nat) :
    List (Bytes × Int) → Bytes → VmM H Bytes
  | [], ss => return ss
  | (_, sqIter) :: rest, ss => do
    if ss.length - initialSummarySize < kMaxTableValueStringLength then
      sqPushinteger sqIter
      if ← sqNext api 2 then
        let ss ← writeTableSummaryField toString (ss.length == initialSummarySize) ss
        sqPoptop
        sortedFields toString initialSummarySize rest ss
      else
        sqPoptop
        return ss
    else return ss

/-- The fields of a table too large to sort, in the order of the VM.
mirrors SquirrelVmHelpers.cpp:173-175 -/
def streamedFields (toString : VmM H Bytes) : Nat → Bool → Bytes → VmM H Bytes
  | 0, _, _ => throw .fuel
  | n + 1, isFirst, ss => do
    if ss.length < kMaxTableValueStringLength then
      if ← sqNext api 2 then
        let ss ← writeTableSummaryField toString isFirst ss
        streamedFields toString n false ss
      else return ss
    else return ss

/-- mirrors SquirrelVmHelpers.cpp:135-180 -/
def createTableSummary (toString : VmM H Bytes) (fuel : Nat) : VmM H Bytes := do
  let ss := ascii "\x7b"
  if (← sqGetsize api 1) < kMaxTableSizeToSort then
    let tableKeyToIterator ← sortedKeys api lib toString fuel
    let ss ← sortedFields api toString ss.length tableKeyToIterator ss
    return ss ++ ascii "\x7d"
  else
    sqPushinteger 0
    let ss ← streamedFields api toString fuel true ss
    sqPoptop
    return ss ++ ascii "\x7d"

/-- The name of a closure. A null name stays on the stack.
mirrors SquirrelVmHelpers.cpp:286-297 -/
def closureName : VmM H Bytes := do
  if ← sqGetclosurename api 1 then
    match ← sqGetstring 1 with
    | some val =>
      sqPoptop
      return cstr val
    | none =>
      recordFault .nullName
      return []
  else return ascii "Invalid Closure"

/-- The `OT_CLOSURE` case of `ToString`.
mirrors SquirrelVmHelpers.cpp:284-307 -/
def closureText : VmM H Bytes := do
  let name ← closureName api
  match ← sqGetclosureinfo api 1 with
  | some (numParams, numFreeVars) =>
    return name ++ ascii "(" ++ intText numParams ++ ascii " params, " ++ intText numFreeVars ++
      ascii " freeVars" ++ ascii ")"
  | none => return name

/-- mirrors SquirrelVmHelpers.cpp:247-330 -/
def toString (fuel : Nat) : VmM H Bytes :=
  match fuel with
  | 0 => throw .fuel
  | n + 1 => do
    match ← sqGetstackobj 1 with
    | .bool val => return if val then ascii "true" else ascii "false"
    | .integer val => return intText val
    | .float val => return lib.floatText val
    | .string val => return cstr val
    | .closure _ => closureText api
    | .class_ _ => toClassFullName api n
    | .array _ =>
      let arrSize ← sqGetsize api 1
      return ascii "\x7b size=" ++ intText arrSize ++ ascii " \x7d"
    | .instance_ _ => createTableSummary api lib (toString n) n
    | .table _ => createTableSummary api lib (toString n) n
    | other => return toSqObjectTypeName other.type

/-! ## Child variables -/

/-- `ToString` and `ToClassFullName` of the top of the stack. -/
structure Renderer (H : Type) where
  toString : VmM H Bytes
  toClassFullName : VmM H Bytes

def renderer (fuel : Nat) : Renderer H where
  toString := toString api lib fuel
  toClassFullName := toClassFullName api fuel

variable (r : Renderer H)

/-- `instanceClassName` of an object of this type on top of the stack.
mirrors SquirrelVmHelpers.cpp:350-358 -/
def instanceClassName (type : SqObjectType) : VmM H Bytes := do
  if type = .instance_ then
    if ← sqGetclass api 1 then
      let name ← r.toClassFullName
      sqPoptop
      return name
    else return []
  else return []

/-- The child count of an instance or a userdata, read from its delegate.
mirrors SquirrelVmHelpers.cpp:366-382 -/
def delegateSize : VmM H UInt32 := do
  match (← sqGetstackobj 1).asTable with
  | none => throw .undefined
  | some sqObj =>
    sqPushobject sqObj
    if ← sqGetdelegate api 1 then
      let size ← sqGetsize api 1
      sqPoptop
      sqPoptop
      return UInt32.ofInt size
    else
      sqPoptop
      return 0

/-- `childCount` of an object of this type on top of the stack.
mirrors SquirrelVmHelpers.cpp:363-390 -/
def childCount (type : SqObjectType) : VmM H UInt32 :=
  match type with
  | .instance_ | .userData => delegateSize api
  | .array | .table => do return UInt32.ofInt (← sqGetsize api 1)
  | _ => return 0

/-- mirrors SquirrelVmHelpers.cpp:392-399 -/
def editable : SqObjectType → Bool
  | .bool | .float | .integer | .string => true
  | _ => false

/-- mirrors SquirrelVmHelpers.cpp:332-402 -/
def createChildVariable : VmM H Variable := do
  let stackObj ← sqGetstackobj 1
  let value ← r.toString
  let instanceClassName ← instanceClassName api r stackObj.type
  let childCount ← childCount api stackObj.type
  return {
    valueRawAddress := if stackObj.type.isRefCounted then api.raw stackObj else 0
    valueType := toVariableType stackObj.type
    value := value
    instanceClassName := instanceClassName
    childCount := childCount
    editable := editable stackObj.type }

/-- `createTableChildVariableFromIter`, after `variable.pathIterator` has been
set: key and value are on top of the stack and are popped.
mirrors SquirrelVmHelpers.cpp:406-419 -/
def createTableChildVariable (sqIter : Int) : VmM H Variable := do
  let variable_ ← createChildVariable api r
  sqPoptop
  let pathUiString ← r.toString
  let keyType ← sqGettype 1
  sqPoptop
  return { variable_ with
    pathIterator := UInt64.ofInt sqIter
    pathUiString := pathUiString
    pathTableKeyType := toVariableType keyType }

/-- mirrors SquirrelVmHelpers.cpp:426-439 -/
def arrayChildren : Nat → VmM H (List Variable)
  | 0 => return []
  | n + 1 => do
    match ← sqGetinteger api 1 with
    | none => return []
    | some sqIter =>
      if ← sqNext api 2 then
        let childVar ← createChildVariable api r
        sqPoptop
        let pathUiString ← r.toString
        sqPoptop
        let rest ← arrayChildren n
        return { childVar with
          pathIterator := UInt64.ofInt sqIter, pathUiString := pathUiString } :: rest
      else return []

/-- mirrors SquirrelVmHelpers.cpp:465-481 -/
def sortedChildren : List (Bytes × Int) → VmM H (List Variable)
  | [] => return []
  | (_, sqIter) :: keys => do
    sqPushinteger sqIter
    if ← sqNext api 2 then
      let variable_ ← createTableChildVariable api r sqIter
      sqPoptop
      let rest ← sortedChildren keys
      return variable_ :: rest
    else
      sqPoptop
      return []

/-- mirrors SquirrelVmHelpers.cpp:486-498 -/
def streamedChildren : Nat → VmM H (List Variable)
  | 0 => return []
  | n + 1 => do
    match ← sqGetinteger api 1 with
    | none => return []
    | some sqIter =>
      if ← sqNext api 2 then
        let variable_ ← createTableChildVariable api r sqIter
        let rest ← streamedChildren n
        return variable_ :: rest
      else return []

/-- The `OT_INSTANCE` and `OT_TABLE` case of `CreateChildVariables`.
mirrors SquirrelVmHelpers.cpp:442-502 -/
def tableChildren (fuel : Nat) (pagination : PaginationInfo) : VmM H (List Variable) := do
  if (← sqGetsize api 1) < kMaxTableSizeToSort then
    let tableKeyToIterator ← sortedKeys api lib r.toString fuel
    -- `begin() + beginIterator` past `end()`
    if tableKeyToIterator.length < pagination.beginIterator.toNat then throw .undefined
    else
      sortedChildren api r
        ((tableKeyToIterator.drop pagination.beginIterator.toNat).take pagination.count.toNat)
  else
    sqPushinteger pagination.beginIterator.toNat
    let children ← streamedChildren api r pagination.count.toNat
    sqPoptop
    return children

/-- mirrors SquirrelVmHelpers.cpp:404-507: the variables it appends. -/
def createChildVariables (fuel : Nat) (pagination : PaginationInfo) : VmM H (List Variable) := do
  match ← sqGettype 1 with
  | .array =>
    sqPushinteger pagination.beginIterator.toNat
    let children ← arrayChildren api r pagination.count.toNat
    sqPoptop
    return children
  | .instance_ => tableChildren api lib r fuel pagination
  | .table => tableChildren api lib r fuel pagination
  | _ => return []

/-! ## Paths -/

/-- `SQInteger` of a path part. -/
def toSqInteger (n : UInt64) : Int := n.toInt64.toInt

/-- `static_cast<int>` of a path part. -/
def toInt (n : UInt64) : Int := n.toUInt32.toInt32.toInt

/-- Run `fn` on the value the path leads to from the top of the stack. A return
code other than `Success` is an `error`; `ok` carries what `fn` computes.
mirrors SquirrelVmHelpers.cpp:518-570 -/
def withVariableAtPath {α : Type} (fn : VmM H (Except ReturnCode α)) :
    List UInt64 → VmM H (Except ReturnCode α)
  | [] => fn
  | part :: path => do
    match ← sqGettype 1 with
    | .array =>
      let arrSize ← sqGetsize api 1
      if arrSize ≤ toInt part then return .error .invalidParameter
      else
        sqPushinteger (toInt part)
        if ← sqGet api 2 then
          let childRetVal ← withVariableAtPath fn path
          sqPoptop
          return childRetVal
        else return .error .invalidParameter
    | .table | .instance_ =>
      sqPushinteger (toSqInteger part)
      if ← sqNext api 2 then
        let childRetVal ← withVariableAtPath fn path
        sqPop 3
        return childRetVal
      else
        sqPoptop
        return .error .invalidParameter
    | _ => return .error .invalidParameter

/-- mirrors SquirrelVmHelpers.cpp:509-516 -/
def createChildVariablesFromIterable (fuel : Nat) (path : List UInt64)
    (pagination : PaginationInfo) : VmM H (Except ReturnCode (List Variable)) :=
  withVariableAtPath api
    (do return .ok (← createChildVariables api lib r fuel pagination)) path

/-! ## Writing a value -/

/-- The new value of a slot that holds `current`; `none` if the text does not
parse or the type is not supported.
mirrors SquirrelVmHelpers.cpp:188-233 -/
def parseValue (value : Bytes) : SqObject → Option SqObject
  | .bool _ => some (.bool (value = ascii "true" ∨ value = ascii "1"))
  | .integer _ => (stoi value).map .integer
  | .float _ => (lib.stof value).map .float
  | .string _ => some (.string value)
  | _ => none

/-- mirrors SquirrelVmHelpers.cpp:182-244 -/
def updateFromString (k : Nat) (value : Bytes) : VmM H ReturnCode := do
  match parseValue lib value (← sqGetstackobj 1) with
  | none => return .invalidParameter
  | some newVal =>
    sqPoptop
    sqPushobject newVal
    if ← sqSet api k then return .success else return .errorInternal

/-! ## Expressions -/

/-- The scan for the slot of a key, past `sq_get`: from the iterator on top of
the stack, over the value found by `sq_get` and the container. `found` runs on
the value of the slot.
mirrors SquirrelVmHelpers.cpp:627-643 -/
def scanForKey (accessorObject : SqObject)
    (found : VmM H (Except ReturnCode (SqObject × List UInt32))) :
    Nat → VmM H (Except ReturnCode (SqObject × List UInt32))
  | 0 => throw .fuel
  | n + 1 => do
    match ← sqGetinteger api 1 with
    | some sqIter =>
      if ← sqNext api 3 then
        let iterKey ← sqGetstackobj 2
        if api.raw iterKey = api.raw accessorObject then
          let childRetVal ← found
          sqPop 4
          return childRetVal.map fun (value, path) => (value, UInt32.ofInt sqIter :: path)
        else
          sqPop 2
          scanForKey accessorObject found n
      else
        sqPoptop
        sqPoptop
        return .error .invalidParameter
    | none =>
      sqPoptop
      sqPoptop
      return .error .invalidParameter

/-- `foundObject` and `iteratorPath` for the chain of accessors, from the object
on top of the stack.
mirrors SquirrelVmHelpers.cpp:572-649 -/
def getObjectFromExpression (fuel : Nat) :
    List SqObject → VmM H (Except ReturnCode (SqObject × List UInt32))
  | [] => do return .ok (← sqGetstackobj 1, [])
  | accessorObject :: next => do
    match ← sqGettype 1 with
    | .array =>
      if !accessorObject.isNumeric then return .error .invalidParameter
      else
        sqPushobject accessorObject
        let arrIndex := (← sqGetinteger api 1).getD 0
        if ← sqGet api 2 then
          let childRetVal ← getObjectFromExpression fuel next
          sqPoptop
          return childRetVal.map fun (value, path) => (value, UInt32.ofInt arrIndex :: path)
        else return .error .invalidParameter
    | .table | .instance_ =>
      sqPushobject accessorObject
      if ← sqGet api 2 then
        sqPushinteger 0
        scanForKey api accessorObject (getObjectFromExpression fuel next) fuel
      else return .error .invalidParameter
    | _ => return .error .invalidParameter

end

end Sdb.L3
