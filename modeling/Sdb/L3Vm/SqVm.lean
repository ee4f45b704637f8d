import Sdb.L1Data.Message
import Mathlib.Data.List.Perm.Basic

/-!
# The Squirrel VM as the debugger sees it

The debugger works on the VM's operand stack through the Squirrel C API.
`SqVm` is that stack (the head is its top) over an opaque heap `H`; a function
of the debugger is a `VmM` computation. What the API does to the stack is
written out here, one definition for each function the debugger calls; what the
VM answers (which slot comes next, whether a key is found, ...) is a parameter,
`SqApi`, since Squirrel itself is not part of the repository. `CppLib` holds
what the C++ library leaves open.

A stack position `-k` of the source is written `k`. Reading or popping below
the bottom of the stack is undefined behaviour (`Exn.undefined`); a recursion or
a loop that has used up its bound stops with `Exn.fuel`.

`faults` is a ghost list: it names the three places of the source after which
the stack is not what its caller expects, each time one is passed.
-/
namespace Sdb.L3

open Sdb.L1

/-- `SQObjectType`, in the order of its bits. -/
inductive SqObjectType where
  | null | integer | float | bool | string | table | array | userData | closure | nativeClosure
  | generator | userPointer | thread | funcProto | class_ | instance_ | weakRef | outer
  deriving DecidableEq, Repr

/-- An `HSQOBJECT`. Strings are interned by the VM and stand for their text; the
other reference types are addresses. -/
inductive SqObject where
  | null
  | integer (n : Int)
  | float (bits : UInt32)
  | bool (b : Bool)
  | string (s : Bytes)
  | table (addr : Nat)
  | array (addr : Nat)
  | userData (addr : Nat)
  | closure (addr : Nat)
  | nativeClosure (addr : Nat)
  | generator (addr : Nat)
  | userPointer (addr : Nat)
  | thread (addr : Nat)
  | funcProto (addr : Nat)
  | class_ (addr : Nat)
  | instance_ (addr : Nat)
  | weakRef (addr : Nat)
  | outer (addr : Nat)
  deriving DecidableEq, Repr

namespace SqObject

def type : SqObject → SqObjectType
  | null => .null
  | integer _ => .integer
  | float _ => .float
  | bool _ => .bool
  | string _ => .string
  | table _ => .table
  | array _ => .array
  | userData _ => .userData
  | closure _ => .closure
  | nativeClosure _ => .nativeClosure
  | generator _ => .generator
  | userPointer _ => .userPointer
  | thread _ => .thread
  | funcProto _ => .funcProto
  | class_ _ => .class_
  | instance_ _ => .instance_
  | weakRef _ => .weakRef
  | outer _ => .outer

/-- `sq_isnumeric` -/
def isNumeric : SqObject → Bool
  | integer _ | float _ => true
  | _ => false

/-- The object with its type overwritten by `OT_TABLE`, the "hack" by which
`CreateChildVariable` reads the delegate of an instance. `none` where the
overwritten object has no address to read a delegate from. -/
def asTable : SqObject → Option SqObject
  | table a | userData a | instance_ a => some (table a)
  | _ => none

end SqObject

/-- `ISREFCOUNTED` -/
def SqObjectType.isRefCounted : SqObjectType → Bool
  | null | integer | float | bool | userPointer => false
  | _ => true

/-- What the VM answers. -/
structure SqApi (H : Type) where
  /-- `sq_next`: from the iterator, the key, the value and the new iterator. -/
  next : H → SqObject → SqObject → Option (SqObject × SqObject × SqObject)
  /-- `sq_next` of an instance, a userdata or a generator. It calls the `_nexti`
  metamethod, or resumes the generator, which may change the heap. -/
  nexti : H → SqObject → SqObject → H × Option (SqObject × SqObject × SqObject)
  /-- `sq_get`; a metamethod may change the heap. -/
  get : H → SqObject → SqObject → H × Option SqObject
  /-- `sq_set` of a key to a value. -/
  set : H → SqObject → SqObject → SqObject → H × Bool
  /-- `sq_rawset` of a key other than `null` in the table at this address. -/
  rawset : H → Nat → SqObject → SqObject → H
  getsize : H → SqObject → Int
  getclass : H → SqObject → Option SqObject
  getdelegate : H → SqObject → Option SqObject
  /-- `sq_getclosurename`: the name, `null` for an anonymous closure. -/
  getclosurename : H → SqObject → Option SqObject
  getclosureinfo : H → SqObject → Option (Int × Int)
  gethash : H → SqObject → UInt64
  /-- `sq_newtable`: the address of the new table. -/
  newtable : H → H × Nat
  /-- The address of the root table. -/
  roottable : H → Nat
  /-- `sq_getlocal` of a stack level: the name and the value. -/
  getlocal : H → Nat → Nat → Option (Bytes × SqObject)
  stackinfos : H → Nat → Bool
  /-- `_unVal.raw` -/
  raw : SqObject → UInt64
  /-- A float converted to an integer by `sq_getinteger`. -/
  tointeger : UInt32 → Int

/-- `sq_next` of any object. -/
def SqApi.advance {H : Type} (api : SqApi H) (h : H) (o iter : SqObject) :
    H × Option (SqObject × SqObject × SqObject) :=
  match o with
  | .instance_ _ | .userData _ | .generator _ => api.nexti h o iter
  | _ => (h, api.next h o iter)

/-- What the C++ library does. `sort` is `std::sort` by the first component;
where keys are equal the standard leaves their order open. -/
structure CppLib where
  sort : List (Bytes × Int) → List (Bytes × Int)
  sort_perm : ∀ l, (sort l).Perm l
  sort_sorted : ∀ l, (sort l).Pairwise fun a b => a.1 ≤ b.1
  /-- `operator<<(float)` -/
  floatText : UInt32 → Bytes
  /-- `std::stof` -/
  stof : Bytes → Option UInt32

inductive Fault where
  /-- `sq_getclosurename` pushed `null`, which `ToString` does not pop. -/
  | nullName
  /-- `ToClassFullName` threw. -/
  | unnamedClass
  /-- `SetStackVariableValue` could not read back the slot it had just set. -/
  | lostKey
  deriving DecidableEq, Repr

structure SqVm (H : Type) where
  stack : List SqObject
  heap : H
  faults : List Fault := []
  deriving DecidableEq, Repr

inductive Exn where
  | runtimeError (what : String)
  /-- `std::invalid_argument` or `std::out_of_range` of a number conversion. -/
  | logicError
  | undefined
  | fuel
  deriving DecidableEq, Repr

abbrev VmM (H : Type) := EStateM Exn (SqVm H)

section
variable {H : Type} (api : SqApi H)

def recordFault (f : Fault) : VmM H Unit := fun s => .ok () { s with faults := f :: s.faults }

/-! ## Reading and moving the stack -/

/-- `sq_getstackobj(v, -k, &obj)` -/
def sqGetstackobj (k : Nat) : VmM H SqObject := fun s =>
  match s.stack[k - 1]? with
  | some o => .ok o s
  | none => .error .undefined s

/-- `sq_pop(v, n)` -/
def sqPop (n : Nat) : VmM H Unit := fun s =>
  if n ≤ s.stack.length then .ok () { s with stack := s.stack.drop n } else .error .undefined s

def sqPoptop : VmM H Unit := sqPop 1

def sqPushobject (o : SqObject) : VmM H Unit := fun s => .ok () { s with stack := o :: s.stack }

def sqPushnull : VmM H Unit := sqPushobject .null

def sqPushinteger (n : Int) : VmM H Unit := sqPushobject (.integer n)

def sqPushstring (s : Bytes) : VmM H Unit := sqPushobject (.string s)

/-- `sq_push(v, -k)` -/
def sqPush (k : Nat) : VmM H Unit := do sqPushobject (← sqGetstackobj k)

def sqGettype (k : Nat) : VmM H SqObjectType := do return (← sqGetstackobj k).type

/-- `sq_getinteger`; `none` when it fails. -/
def sqGetinteger (k : Nat) : VmM H (Option Int) := do
  match ← sqGetstackobj k with
  | .integer n => return some n
  | .float f => return some (api.tointeger f)
  | .bool b => return some (if b then 1 else 0)
  | _ => return none

/-- `sq_getstring`; `none` when it fails. -/
def sqGetstring (k : Nat) : VmM H (Option Bytes) := do
  match ← sqGetstackobj k with
  | .string s => return some s
  | _ => return none

/-! ## Asking the VM -/

def sqGetsize (k : Nat) : VmM H Int := do
  let o ← sqGetstackobj k
  return api.getsize (← get).heap o

def sqGethash (k : Nat) : VmM H UInt64 := do
  let o ← sqGetstackobj k
  return api.gethash (← get).heap o

def sqGetclosureinfo (k : Nat) : VmM H (Option (Int × Int)) := do
  let o ← sqGetstackobj k
  return api.getclosureinfo (← get).heap o

/-- A query of the object at `-k` that pushes its answer when there is one. -/
def sqPushAnswer (query : H → SqObject → Option SqObject) (k : Nat) : VmM H Bool := do
  let o ← sqGetstackobj k
  match query (← get).heap o with
  | some answer => do sqPushobject answer; return true
  | none => return false

def sqGetclosurename (k : Nat) : VmM H Bool := sqPushAnswer api.getclosurename k

def sqGetclass (k : Nat) : VmM H Bool := sqPushAnswer api.getclass k

def sqGetdelegate (k : Nat) : VmM H Bool := sqPushAnswer api.getdelegate k

def sqPushroottable : VmM H Unit := do sqPushobject (.table (api.roottable (← get).heap))

/-- `sq_getlocal`: pushes the local and returns its name. -/
def sqGetlocal (level nSeq : Nat) : VmM H (Option Bytes) := do
  match api.getlocal (← get).heap level nSeq with
  | some (name, value) => do sqPushobject value; return some name
  | none => return none

def sqStackinfos (level : Nat) : VmM H Bool := do return api.stackinfos (← get).heap level

/-- `sq_next`: advances the iterator on top of the stack and pushes key and value. -/
def sqNext (k : Nat) : VmM H Bool := fun s =>
  match s.stack, s.stack[k - 1]? with
  | iter :: rest, some o =>
    match api.advance s.heap o iter with
    | (h, some (key, val, iter')) =>
      .ok true { s with stack := val :: key :: iter' :: rest, heap := h }
    | (h, none) => .ok false { s with heap := h }
  | _, _ => .error .undefined s

/-- `sq_get`: replaces the key on top of the stack by its value, or pops it. -/
def sqGet (k : Nat) : VmM H Bool := fun s =>
  match s.stack, s.stack[k - 1]? with
  | key :: rest, some o =>
    match api.get s.heap o key with
    | (h, some val) => .ok true { s with stack := val :: rest, heap := h }
    | (h, none) => .ok false { s with stack := rest, heap := h }
  | _, _ => .error .undefined s

/-- `sq_set`: pops key and value, or nothing. -/
def sqSet (k : Nat) : VmM H Bool := fun s =>
  match s.stack, s.stack[k - 1]? with
  | val :: key :: rest, some o =>
    match api.set s.heap o key val with
    | (h, true) => .ok true { s with stack := rest, heap := h }
    | (h, false) => .ok false { s with heap := h }
  | _, _ => .error .undefined s

/-- `sq_rawset`, which pops key and value. The debugger calls it on a table and
with a string key only. -/
def sqRawset (k : Nat) : VmM H Unit := fun s =>
  match s.stack, s.stack[k - 1]? with
  | val :: key :: rest, some (.table t) =>
    if key = .null then .error .undefined s
    else .ok () { s with stack := rest, heap := api.rawset s.heap t key val }
  | _, _ => .error .undefined s

def sqNewtable : VmM H Unit := fun s =>
  let (h, t) := api.newtable s.heap
  .ok () { s with stack := .table t :: s.stack, heap := h }

end

end Sdb.L3
