import Sdb.Core.LTS
import Sdb.L1Data.BreakpointMap

/-!
# The pause mechanism (`squirrel_debugger/SquirrelDebugger.{h,cpp}`)

One VM thread runs the script and calls the debug hook; any number of client
threads call the command methods. `State` is what they share: the atomic
`pauseRequested_`, `*pauseMutexData_`, `*vmData_`, the condition variable with
its one possible waiter, and the VM's own state `V`, which only a running
script and the data commands change.

A critical section under `pauseMutex_` is one step. The places where the code
works outside the mutex are steps of their own:

* the hook's test of `vmData_->vm` (`Act.hook`), after which the VM thread is
  `entered`;
* in the `'c'` branch, after the frame has been pushed, the test of
  `pauseRequested_` and `returnsRequired` (`called`) and the `++` (`counting`),
  neither of them under the lock; in the `'r'` branch the locked adjustment after
  the pop (`returned`);
* in the `'l'` branch the read of `currentStack.back()` before the lock
  (`stopping`);
* `DetachVm`'s test of `vmData_->vm` before its lock (`detaching`).

`PauseExecution` and `ContinueExecution` test `pauseRequested_` once before and
once under the lock. When the first test fails the call changes nothing, as the
second would; so each is one step.

`pauseCv_.wait` releases the mutex as part of the hook's critical section
(`waiting false`); `notify_all` marks the waiter (`waiting true`); `Act.wake`
is the return from the wait, which the condition variable allows whether or not
the waiter was notified.

What the VM does is a parameter (`VmAccess`): the stack listing the hook puts
in the status and the four data commands' work on the VM. `none` from `call`
stands for a call that never returns.
-/
namespace Sdb.L2

open Sdb.L1

/-- mirrors SquirrelDebugger.h:77, where `Pause` has the value of `StepIn`. -/
inductive PauseType where
  | none | stepOut | stepOver | stepIn
  deriving DecidableEq, Repr

abbrev PauseType.pause : PauseType := .stepIn

/-- `INT32_MAX` -/
def int32Max : Int := 2147483647

/-- `INT32_MIN` -/
def int32Min : Int := -2147483648

/-- A source name as the hook receives it: the address, and the text there. -/
structure SourceName where
  addr : Nat
  text : Bytes
  deriving DecidableEq, Repr

/-- The hook's `type`, with the arguments its branch reads. -/
inductive HookEvent where
  | c (sourceName : SourceName) (line : Int)
  | r
  | l (line : Int)
  | other
  deriving DecidableEq, Repr

/-- The four commands that read or write the VM, with their arguments. -/
inductive DataCall where
  | getStackVariables (stackFrame : UInt32) (path : Bytes) (pagination : PaginationInfo)
  | getGlobalVariables (path : Bytes) (pagination : PaginationInfo)
  | setStackVariableValue (stackFrame : UInt32) (path newValueString : Bytes)
  | getImmediateValue (stackFrame : Int32) (watch : Bytes) (pagination : PaginationInfo)
  deriving DecidableEq, Repr

/-- The VM as the debugger uses it. `call` is the part of a data command after
its checks: the VM afterwards, and the return code or `none` if an exception
leaves the command. `parses` is the parse stage of `GetImmediateValue`. -/
structure VmAccess (V : Type) where
  strToLower : Bytes → Bytes
  populateStack : V → List StackEntry
  parses : Bytes → Bool
  call : V → DataCall → Option (V × Option ReturnCode)

/-- mirrors SquirrelDebugger.cpp:46-57 -/
structure PauseMutexData where
  isPaused : Bool := false
  returnsRequired : Int := 0
  status : Status := {}
  breakpoints : BreakpointMap := {}

/-- mirrors SquirrelDebugger.cpp:225-228 -/
structure StackInfo where
  fileNameHandle : FileNameHandle
  line : Int
  deriving DecidableEq, Repr

/-- mirrors SquirrelDebugger.cpp:223-230. The head of `currentStack` is its
`back()`. -/
structure VmData where
  vm : Option Nat := none
  currentStack : List StackInfo := []
  fileNameHandles : Nat → Option FileNameHandle := fun _ => none

/-- Where the VM thread is. `fault` is reached by an access the C++ standard
leaves undefined: `back()` or `pop_back()` on an empty `currentStack`. -/
inductive VmThread where
  | script
  | entered (e : HookEvent)
  | called
  | counting
  | returned
  | stopping (line : Int) (handle : FileNameHandle)
  | waiting (notified : Bool)
  | fault
  deriving DecidableEq, Repr

structure State (V : Type) where
  pauseRequested : PauseType := .none
  pauseMutexData : PauseMutexData := {}
  vmData : VmData := {}
  eventInterface : Bool := false
  thread : VmThread := .script
  /-- `DetachVm` calls between their test and their lock. -/
  detaching : Nat := 0
  script : V

/-- What a step shows to the outside. -/
inductive Res where
  | silent
  /-- A command returned without using the VM. -/
  | rc (code : ReturnCode)
  /-- A data command used the VM; `none` if it was left by an exception. -/
  | usedVm (code : Option ReturnCode)
  /-- `HandleStatusChanged(status)` was called by `SendStatus`. -/
  | sent (status : Status)
  /-- The hook paused with this status, and called `HandleStatusChanged` if
  there is an event interface. -/
  | paused (status : Status)
  deriving DecidableEq, Repr

section
variable {V : Type} (vm : VmAccess V)

/-- `pauseCv_.notify_all()`. -/
def notifyAll (s : State V) : State V :=
  match s.thread with
  | .waiting _ => { s with thread := .waiting true }
  | _ => s

/-! ## Commands -/

/-- mirrors SquirrelDebugger.cpp:251-259 -/
def addVm (s : State V) (handle : Nat) : State V :=
  { s with vmData := { s.vmData with vm := some handle } }

/-- The test of `DetachVm` before its lock.
mirrors SquirrelDebugger.cpp:264 -/
def detachVm (s : State V) : State V :=
  if s.vmData.vm.isSome then { s with detaching := s.detaching + 1 } else s

/-- The critical section of `DetachVm`.
mirrors SquirrelDebugger.cpp:265-276 -/
def detachVmLocked (s : State V) : State V :=
  let s := { s with pauseMutexData := { s.pauseMutexData with isPaused := false } }
  let s :=
    if s.pauseRequested ≠ .none then notifyAll { s with pauseRequested := .none } else s
  { s with vmData := {}, detaching := s.detaching - 1 }

/-- mirrors SquirrelDebugger.cpp:280-291 -/
def pauseExecution (s : State V) : State V × ReturnCode :=
  if s.pauseRequested = .none then
    ({ s with pauseRequested := .pause,
              pauseMutexData := { s.pauseMutexData with returnsRequired := -1 } }, .success)
  else (s, .success)

/-- mirrors SquirrelDebugger.cpp:293-306 -/
def continueExecution (s : State V) : State V × ReturnCode :=
  if s.pauseRequested ≠ .none then
    (notifyAll { s with pauseRequested := .none }, .success)
  else (s, .invalidNotPaused)

/-- mirrors SquirrelDebugger.cpp:663-676 -/
def step (s : State V) (pauseType : PauseType) (returnsRequired : Int) : State V × ReturnCode :=
  if !s.pauseMutexData.isPaused then (s, .invalidNotPaused)
  else
    (notifyAll { s with
      pauseMutexData := { s.pauseMutexData with returnsRequired := returnsRequired }
      pauseRequested := pauseType }, .success)

/-- mirrors SquirrelDebugger.cpp:308-312 -/
def stepOut (s : State V) : State V × ReturnCode := step s .stepOut 1

/-- mirrors SquirrelDebugger.cpp:314-318 -/
def stepOver (s : State V) : State V × ReturnCode := step s .stepOver 0

/-- mirrors SquirrelDebugger.cpp:320-324 -/
def stepIn (s : State V) : State V × ReturnCode := step s .stepIn (-1)

/-- The first loop of `SetFileBreakpoints`: the breakpoints to set, or `none`
after an entry with a zero field; and the entries pushed to `resolvedBps`.
mirrors SquirrelDebugger.cpp:632-650 -/
def resolve : List CreateBreakpoint → Option (List Breakpoint) × List ResolvedBreakpoint
  | [] => (some [], [])
  | ⟨id, line⟩ :: rest =>
    if id = 0 then (none, [])
    else if line = 0 then (none, [])
    else ((resolve rest).1.map (⟨id, line⟩ :: ·), ⟨id, line, true⟩ :: (resolve rest).2)

/-- The critical section of `SetFileBreakpoints`.
mirrors SquirrelDebugger.cpp:655-657 -/
def replaceBreakpoints (m : BreakpointMap) (file : Bytes) (bps : List Breakpoint) :
    BreakpointMap :=
  let (m, handle) := m.ensureFileNameHandle vm.strToLower file
  (m.clear handle).addAll handle bps

/-- mirrors SquirrelDebugger.cpp:623-661; the last component is `resolvedBps`. -/
def setFileBreakpoints (s : State V) (file : Bytes) (createBps : List CreateBreakpoint) :
    State V × ReturnCode × List ResolvedBreakpoint :=
  match resolve createBps with
  | (none, resolved) => (s, .invalidParameter, resolved)
  | (some bps, resolved) =>
    ({ s with pauseMutexData := { s.pauseMutexData with
        breakpoints := replaceBreakpoints vm s.pauseMutexData.breakpoints file bps } },
      .success, resolved)

/-- The status `SendStatus` sends.
mirrors SquirrelDebugger.cpp:681-700 -/
def currentStatus (s : State V) : Status :=
  if s.pauseRequested ≠ .none then
    if s.pauseMutexData.isPaused then { s.pauseMutexData.status with runState := .paused }
    else if s.pauseRequested = .pause then { runState := .pausing }
    else { runState := .stepping }
  else { runState := .running }

/-- mirrors SquirrelDebugger.cpp:678-706 -/
def sendStatus (s : State V) : Res :=
  if s.eventInterface then .sent (currentStatus s) else .rc .success

/-- The checks a data command makes before it uses the VM: `some` of the code
it returns when one fails.
mirrors SquirrelDebugger.cpp:331-340, 348-352, 360-369, 416-439 -/
def refused (s : State V) : DataCall → Option ReturnCode
  | .getStackVariables stackFrame _ _ =>
    if !s.pauseMutexData.isPaused then some .invalidNotPaused
    else if s.vmData.currentStack.length < stackFrame.toNat then some .invalidParameter
    else none
  | .getGlobalVariables _ _ =>
    if !s.pauseMutexData.isPaused then some .invalidNotPaused else none
  | .setStackVariableValue stackFrame _ _ =>
    if !s.pauseMutexData.isPaused then some .invalidNotPaused
    else if s.vmData.currentStack.length < stackFrame.toNat then some .invalidParameter
    else none
  | .getImmediateValue _ watch _ =>
    if !vm.parses watch then some .invalidParameter
    else if !s.pauseMutexData.isPaused then some .invalidNotPaused
    else none

/-- mirrors SquirrelDebugger.cpp:326-371, 406-621 -/
def dataCommand (s : State V) (call : DataCall) : Option (State V × Res) :=
  match refused vm s call with
  | some code => some (s, .rc code)
  | none => (vm.call s.script call).map fun (v, code) => ({ s with script := v }, .usedVm code)

/-! ## The debug hook -/

/-- The hook's test that a VM is attached.
mirrors SquirrelDebugger.cpp:712-715 -/
def hookEntry (s : State V) (e : HookEvent) : State V :=
  if s.vmData.vm.isNone then s else { s with thread := .entered e }

/-- `'c'`: the handle of the source name, through the per-address cache, and
the new frame.
mirrors SquirrelDebugger.cpp:719-731 -/
def hookCall (s : State V) (sourceName : SourceName) (line : Int) : State V :=
  match s.vmData.fileNameHandles sourceName.addr with
  | some handle =>
    { s with
      vmData := { s.vmData with currentStack := ⟨handle, line⟩ :: s.vmData.currentStack }
      thread := .called }
  | none =>
    let (m, handle) :=
      s.pauseMutexData.breakpoints.ensureFileNameHandle vm.strToLower sourceName.text
    { s with
      pauseMutexData := { s.pauseMutexData with breakpoints := m }
      vmData := { s.vmData with
        currentStack := ⟨handle, line⟩ :: s.vmData.currentStack
        fileNameHandles :=
          Function.update s.vmData.fileNameHandles sourceName.addr (some handle) }
      thread := .called }

/-- `'c'`: whether there is one more frame to return from.
mirrors SquirrelDebugger.cpp:733-734 -/
def hookCalled (s : State V) : State V :=
  if s.pauseRequested ≠ .none ∧ 0 ≤ s.pauseMutexData.returnsRequired then
    { s with thread := .counting }
  else { s with thread := .script }

/-- `'c'`: `++returnsRequired`.
mirrors SquirrelDebugger.cpp:735 -/
def hookCounted (s : State V) : State V :=
  { s with
    pauseMutexData := { s.pauseMutexData with
      returnsRequired := s.pauseMutexData.returnsRequired + 1 }
    thread := .script }

/-- `'r'`: the pop.
mirrors SquirrelDebugger.cpp:741-742 -/
def hookReturn (s : State V) : State V :=
  match s.vmData.currentStack with
  | [] => { s with thread := .fault }
  | _ :: rest =>
    { s with vmData := { s.vmData with currentStack := rest }, thread := .returned }

/-- `'r'`: one frame less to return from.
mirrors SquirrelDebugger.cpp:743-748 -/
def hookReturned (s : State V) : State V :=
  if s.pauseRequested ≠ .none then
    { s with
      pauseMutexData := { s.pauseMutexData with
        returnsRequired := s.pauseMutexData.returnsRequired - 1 }
      thread := .script }
  else { s with thread := .script }

/-- `'l'` before the lock: the current frame's line and file.
mirrors SquirrelDebugger.cpp:753-756 -/
def hookLine (s : State V) (line : Int) : State V :=
  match s.vmData.currentStack with
  | [] => { s with thread := .fault }
  | head :: rest =>
    { s with
      vmData := { s.vmData with currentStack := { head with line := line } :: rest }
      thread := .stopping line head.fileNameHandle }

/-- The breakpoint test of the `'l'` branch: whether one was found, and `bp`.
mirrors SquirrelDebugger.cpp:753, 761-762 -/
def lineBreakpoint (m : BreakpointMap) (line : Int) (handle : FileNameHandle) :
    Bool × Breakpoint :=
  if 0 ≤ line ∧ line < int32Max ∧ handle ≠ none then
    m.readBreakpoint handle (UInt32.ofNat line.toNat) {}
  else (false, {})

/-- `'l'` under the lock, up to the wait. `throws` is what
`HandleStatusChanged` does; its exception leaves the hook with the mutex
released and the script running.
mirrors SquirrelDebugger.cpp:758-783 -/
def hookStop (s : State V) (line : Int) (handle : FileNameHandle) (throws : Bool) :
    State V × Res :=
  let (found, bp) := lineBreakpoint s.pauseMutexData.breakpoints line handle
  let s :=
    if found then
      { s with
        pauseMutexData := { s.pauseMutexData with returnsRequired := 0 }
        pauseRequested := .pause }
    else s
  if s.pauseRequested ≠ .none ∧ s.pauseMutexData.returnsRequired ≤ 0 then
    let status : Status :=
      { runState := .paused
        stack := vm.populateStack s.script
        pausedAtBreakpointId := bp.id }
    ({ s with
        pauseMutexData := { s.pauseMutexData with isPaused := true, status := status }
        thread := if s.eventInterface ∧ throws then .script else .waiting false },
      .paused status)
  else ({ s with thread := .script }, .silent)

/-- The next step of the VM thread inside the hook. -/
def hookNext (s : State V) (throws : Bool) : Option (State V × Res) :=
  match s.thread with
  | .entered (.c sourceName line) => some (hookCall vm s sourceName line, .silent)
  | .entered .r => some (hookReturn s, .silent)
  | .entered (.l line) => some (hookLine s line, .silent)
  | .entered .other => some ({ s with thread := .script }, .silent)
  | .called => some (hookCalled s, .silent)
  | .counting => some (hookCounted s, .silent)
  | .returned => some (hookReturned s, .silent)
  | .stopping line handle => some (hookStop vm s line handle throws)
  | .script | .waiting _ | .fault => none

/-- The return from `pauseCv_.wait`.
mirrors SquirrelDebugger.cpp:783-784 -/
def wake (s : State V) : State V :=
  { s with pauseMutexData := { s.pauseMutexData with isPaused := false }, thread := .script }

/-! ## The system -/

inductive Resume where
  | continueExecution | stepIn | stepOver | stepOut
  deriving DecidableEq, Repr

/-- mirrors SquirrelDebugger.cpp:293-324 -/
def resume (s : State V) : Resume → State V × ReturnCode
  | .continueExecution => continueExecution s
  | .stepIn => stepIn s
  | .stepOver => stepOver s
  | .stepOut => stepOut s

inductive Act (V : Type) where
  | addVm (handle : Nat)
  | detachVm
  | detachVmLocked
  | pauseExecution
  | resume (c : Resume)
  | setFileBreakpoints (file : Bytes) (createBps : List CreateBreakpoint)
  | sendStatus
  | data (call : DataCall)
  /-- The running script changes the VM. -/
  | script (v : V)
  /-- The running script raises a hook event. -/
  | hook (e : HookEvent)
  | hookNext (throws : Bool)
  | wake

/-- One step of the system; `none` when the action is not possible. -/
def exec (s : State V) : Act V → Option (State V × Res)
  | .addVm handle => some (addVm s handle, .silent)
  | .detachVm => some (detachVm s, .silent)
  | .detachVmLocked => if s.detaching = 0 then none else some (detachVmLocked s, .silent)
  | .pauseExecution => some ((pauseExecution s).1, .rc (pauseExecution s).2)
  | .resume c => some ((resume s c).1, .rc (resume s c).2)
  | .setFileBreakpoints file createBps =>
    some ((setFileBreakpoints vm s file createBps).1,
      .rc (setFileBreakpoints vm s file createBps).2.1)
  | .sendStatus => some (s, sendStatus s)
  | .data call => dataCommand vm s call
  | .script v => if s.thread = .script then some ({ s with script := v }, .silent) else none
  | .hook e => if s.thread = .script then some (hookEntry s e, .silent) else none
  | .hookNext throws => hookNext vm s throws
  | .wake =>
    match s.thread with
    | .waiting _ => some (wake s, .silent)
    | _ => none

/-- An action with what it showed. -/
structure Lbl (V : Type) where
  act : Act V
  res : Res

/-- A fresh debugger, attached to nothing. -/
def fresh (eventInterface : Bool) (v : V) : State V :=
  { eventInterface := eventInterface, script := v }

/-- Partial step function on labels, so that a run fixes its states. -/
def stepLbl (s : State V) (l : Lbl V) : Option (State V) :=
  match exec vm s l.act with
  | some (s', res) => if res = l.res then some s' else none
  | none => none

def lts : LTS (State V) (Lbl V) :=
  LTS.ofStep (fun s => ∃ e v, s = fresh e v) (stepLbl vm)

theorem lts_step {s s' : State V} {l : Lbl V} :
    (lts vm).step s l s' ↔ exec vm s l.act = some (s', l.res) := by
  show stepLbl vm s l = some s' ↔ _
  unfold stepLbl
  cases exec vm s l.act with
  | none => simp
  | some p =>
    obtain ⟨t, res⟩ := p
    by_cases h : res = l.res <;> simp [h]

theorem lts_functional : (lts vm).Functional := LTS.ofStep_functional _ _

end

end Sdb.L2
