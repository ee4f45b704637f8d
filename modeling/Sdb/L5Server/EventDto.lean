import Sdb.L1Data.Text

/-!
# The messages of the server (`embedded_server/dto/EventDto.h`)

The records the server writes as JSON and reads from it. A field that the server
reads may be missing (`none`): the mapper leaves it a null pointer. An enumerator is
kept as its number, which `static_cast` carries over; the mapper writes the name listed
with that number.

`createVariable` and its siblings copy the debugger's records field by field. Ids
and lines of resolved breakpoints, and the line of an output line, change their type
on the way: `UInt64` to `Int64`, `UInt32` to `Int32`.

* `createVariable_inj`: a variable can be told from its message;
* `createResolvedBreakpoint_reads_iff`: the breakpoints whose message shows their own
  numbers.
-/
namespace Sdb.L5

open Sdb.L1

/-! ## Enumerations -/

/-- The numbers of `data::ReturnCode`.
mirrors MessageInterface.h:16-27 -/
def returnCodeValue : ReturnCode → Int32
  | .success => 0
  | .invalid => 100
  | .invalidNotPaused => 101
  | .invalidParameter => 102
  | .errorInternal => 200

/-- mirrors MessageInterface.h:28 -/
def runStateValue : RunState → Int32
  | .running => 0
  | .pausing => 1
  | .paused => 2
  | .stepping => 3

/-- The numbers of `data::VariableType`, which are those of its order.
mirrors MessageInterface.h:46-65 -/
def variableTypeValue : VariableType → Int32
  | .null => 0
  | .integer => 1
  | .float => 2
  | .bool => 3
  | .string => 4
  | .table => 5
  | .array => 6
  | .userData => 7
  | .closure => 8
  | .nativeClosure => 9
  | .generator => 10
  | .userPointer => 11
  | .thread => 12
  | .funcProto => 13
  | .class_ => 14
  | .instance_ => 15
  | .weakRef => 16
  | .outer => 17

/-- mirrors MessageInterface.h:66-71 -/
def variableScopeValue : VariableScope → Int32
  | .local_ => 0
  | .global => 1
  | .evaluation => 2

/-! ## Records -/

namespace Dto

/-- mirrors EventDto.h:81-93 -/
structure Variable where
  pathIterator : UInt64
  pathUiString : Bytes
  pathTableKeyType : Int32
  valueType : Int32
  value : Bytes
  valueRawAddress : UInt64
  childCount : UInt32
  instanceClassName : Bytes
  editable : Bool
  deriving DecidableEq, Repr

/-- mirrors EventDto.h:95-100; `valueType` is never read. -/
structure VariableSetValueBody where
  value : Option Bytes
  deriving DecidableEq, Repr

/-- mirrors EventDto.h:108-114 -/
structure ImmediateValue where
  variable_ : Variable
  variableScope : Int32
  iteratorPath : List UInt32
  deriving DecidableEq, Repr

/-- mirrors EventDto.h:122-128 -/
structure StackEntry where
  file : Bytes
  line : UInt32
  function : Bytes
  deriving DecidableEq, Repr

/-- mirrors EventDto.h:130-137 -/
structure Status where
  runstate : Int32
  stack : List StackEntry
  pausedAtBreakpointId : UInt64
  deriving DecidableEq, Repr

/-- mirrors EventDto.h:139-147 -/
structure OutputLine where
  output : Bytes
  isErr : Bool
  file : Bytes
  line : Int32
  deriving DecidableEq, Repr

/-- mirrors EventDto.h:149-155 -/
structure CreateBreakpoint where
  id : Option UInt64
  line : Option UInt32
  deriving DecidableEq, Repr

/-- mirrors EventDto.h:157-162 -/
structure SetFileBreakpointsRequest where
  file : Option Bytes
  breakpoints : Option (List (Option CreateBreakpoint))
  deriving DecidableEq, Repr

/-- mirrors EventDto.h:164-170 -/
structure ResolvedBreakpoint where
  id : Int64
  line : Int32
  verified : Bool
  deriving DecidableEq, Repr

end Dto

/-! ## From the debugger's records -/

/-- mirrors DebugCommandController.h:312-327 -/
def createVariable (variable_ : Variable) : Dto.Variable where
  pathIterator := variable_.pathIterator
  pathUiString := variable_.pathUiString
  pathTableKeyType := variableTypeValue variable_.pathTableKeyType
  valueType := variableTypeValue variable_.valueType
  value := variable_.value
  valueRawAddress := variable_.valueRawAddress
  childCount := variable_.childCount
  instanceClassName := variable_.instanceClassName
  editable := variable_.editable

/-- mirrors DebugCommandController.h:303-310 -/
def createVariablesList (variables_ : List Variable) : List Dto.Variable :=
  variables_.map createVariable

/-- The body of the loop of `StackImmediate`.
mirrors DebugCommandController.h:188-198 -/
def createImmediateValue (value : ImmediateValue) : Dto.ImmediateValue where
  variable_ := createVariable value.variable_
  variableScope := variableScopeValue value.scope
  iteratorPath := value.iteratorPath

/-- The body of the loop of `FileBreakpoints`.
mirrors DebugCommandController.h:228-233 -/
def createResolvedBreakpoint (bp : ResolvedBreakpoint) : Dto.ResolvedBreakpoint where
  id := bp.id.toInt64
  line := bp.line.toInt32
  verified := bp.verified

/-- `file` and `function` are assigned from their `c_str()`.
mirrors EmbeddedServer.cpp:45-51 -/
def createStackEntry (stackEntry : StackEntry) : Dto.StackEntry where
  file := cstr stackEntry.file
  line := stackEntry.line
  function := cstr stackEntry.function

/-- mirrors EmbeddedServer.cpp:42-52 -/
def createStatus (status : Status) : Dto.Status where
  runstate := runStateValue status.runState
  stack := status.stack.map createStackEntry
  pausedAtBreakpointId := status.pausedAtBreakpointId

/-- mirrors EmbeddedServer.cpp:63-67 -/
def createOutputLine (outputLine : OutputLine) : Dto.OutputLine where
  output := outputLine.output
  isErr := outputLine.isErr
  file := outputLine.fileName
  line := outputLine.line.toInt32

/-! ## What a message tells -/

theorem variableTypeValue_inj {t t' : VariableType}
    (h : variableTypeValue t = variableTypeValue t') : t = t' := by
  cases t <;> cases t' <;> first | rfl | exact absurd h (by decide)

theorem variableScopeValue_inj {scope scope' : VariableScope}
    (h : variableScopeValue scope = variableScopeValue scope') : scope = scope' := by
  cases scope <;> cases scope' <;> first | rfl | exact absurd h (by decide)

theorem runStateValue_inj {r r' : RunState} (h : runStateValue r = runStateValue r') :
    r = r' := by
  cases r <;> cases r' <;> first | rfl | exact absurd h (by decide)

theorem returnCodeValue_inj {rc rc' : ReturnCode} (h : returnCodeValue rc = returnCodeValue rc') :
    rc = rc' := by
  cases rc <;> cases rc' <;> first | rfl | exact absurd h (by decide)

/-- A variable can be told from its message. -/
theorem createVariable_inj {v w : Variable} (h : createVariable v = createVariable w) :
    v = w := by
  cases v
  cases w
  simp only [createVariable, Dto.Variable.mk.injEq] at h
  obtain ⟨h₁, h₂, h₃, h₄, h₅, h₆, h₇, h₈, h₉⟩ := h
  rw [h₁, h₂, variableTypeValue_inj h₃, variableTypeValue_inj h₄, h₅, h₆, h₇, h₈, h₉]

theorem createImmediateValue_inj {v w : ImmediateValue}
    (h : createImmediateValue v = createImmediateValue w) : v = w := by
  cases v
  cases w
  simp only [createImmediateValue, Dto.ImmediateValue.mk.injEq] at h
  obtain ⟨h₁, h₂, h₃⟩ := h
  rw [createVariable_inj h₁, variableScopeValue_inj h₂, h₃]

theorem toInt64_reads_iff (id : UInt64) : id.toInt64.toInt = id.toNat ↔ id.toNat < 2 ^ 63 := by
  have hlt : id.toBitVec.toNat < 2 ^ 64 := id.toNat_lt
  show id.toBitVec.toInt = id.toBitVec.toNat ↔ id.toBitVec.toNat < 2 ^ 63
  rw [BitVec.toInt_eq_toNat_cond]
  split <;> omega

theorem toInt32_reads_iff (line : UInt32) :
    line.toInt32.toInt = line.toNat ↔ line.toNat < 2 ^ 31 := by
  have hlt : line.toBitVec.toNat < 2 ^ 32 := line.toNat_lt
  show line.toBitVec.toInt = line.toBitVec.toNat ↔ line.toBitVec.toNat < 2 ^ 31
  rw [BitVec.toInt_eq_toNat_cond]
  split <;> omega

/-- The message shows the id and the line of the breakpoint. -/
def ReadsAs (message : Dto.ResolvedBreakpoint) (bp : CreateBreakpoint) : Prop :=
  message.id.toInt = bp.id.toNat ∧ message.line.toInt = bp.line.toNat

theorem createResolvedBreakpoint_reads_iff (bp : CreateBreakpoint) :
    ReadsAs (createResolvedBreakpoint ⟨bp.id, bp.line, true⟩) bp ↔
      bp.id.toNat < 2 ^ 63 ∧ bp.line.toNat < 2 ^ 31 :=
  and_congr (toInt64_reads_iff bp.id) (toInt32_reads_iff bp.line)

end Sdb.L5
