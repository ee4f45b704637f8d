import Mathlib.Algebra.Group.Nat.Defs
import Mathlib.Data.List.Basic

/-!
# The message types (`interfaces/include/sdb/MessageInterface.h`)

The records that travel between the debugger and its clients. A `std::string`
is its list of bytes; the integer fields keep the widths of the header.
Enumerators are spelled with a lower-case first letter.
-/
namespace Sdb.L1

/-- The bytes of a `std::string`. -/
abbrev Bytes := List UInt8

/-- The bytes of an ASCII literal. -/
def ascii (s : String) : Bytes := s.toList.map fun c => UInt8.ofNat c.toNat

/-- mirrors MessageInterface.h:17-28 -/
inductive ReturnCode where
  | success | invalid | invalidNotPaused | invalidParameter | errorInternal
  deriving DecidableEq, Repr

/-- mirrors MessageInterface.h:29 -/
inductive RunState where
  | running | pausing | paused | stepping
  deriving DecidableEq, Repr

structure StackEntry where
  file : Bytes
  line : UInt32
  function : Bytes
  deriving DecidableEq, Repr

/-- mirrors MessageInterface.h:35-39 -/
structure Status where
  runState : RunState := .paused
  stack : List StackEntry := []
  pausedAtBreakpointId : UInt64 := 0
  deriving DecidableEq, Repr

/-- mirrors MessageInterface.h:40-45 -/
structure OutputLine where
  output : Bytes
  isErr : Bool := false
  fileName : Bytes
  line : UInt32
  deriving DecidableEq, Repr

/-- mirrors MessageInterface.h:47-66 -/
inductive VariableType where
  | null | integer | float | bool | string | table | array | userData | closure | nativeClosure
  | generator | userPointer | thread | funcProto | class_ | instance_ | weakRef | outer
  deriving DecidableEq, Repr

inductive VariableScope where
  | local_ | global | evaluation
  deriving DecidableEq, Repr

/-- mirrors MessageInterface.h:74-85 -/
structure Variable where
  pathIterator : UInt64 := 0
  pathUiString : Bytes := []
  pathTableKeyType : VariableType := .null
  valueType : VariableType := .null
  value : Bytes := []
  valueRawAddress : UInt64 := 0
  childCount : UInt32 := 0
  instanceClassName : Bytes := []
  editable : Bool := false
  deriving DecidableEq, Repr

structure PaginationInfo where
  beginIterator : UInt32
  count : UInt32
  deriving DecidableEq, Repr

structure CreateBreakpoint where
  id : UInt64
  line : UInt32
  deriving DecidableEq, Repr

structure ResolvedBreakpoint where
  id : UInt64
  line : UInt32
  verified : Bool
  deriving DecidableEq, Repr

/-- mirrors MessageInterface.h:103-108 -/
structure ImmediateValue where
  variable_ : Variable := {}
  scope : VariableScope := .local_
  iteratorPath : List UInt32 := []
  deriving DecidableEq, Repr

end Sdb.L1
