import Sdb.L2Pause.Debugger

/-!
# What one step of the pause mechanism can do

The state a client can observe through its commands is the control part of
`State`: the request, the pause flag, the counter, the call stack and where the
VM thread is. Each action is described once by what it does to that part; the
invariants of the later modules are derived from these descriptions.

* `passive_frame`: setting breakpoints, sending the status, the data commands,
  `AddVm` and the script's own work leave the control part alone;
* `hookStop_stops` / `hookStop_runs`: the `'l'` branch pauses exactly when
  `Stops` holds;
* `hookNext_inv`, `exec_inv`: every step is one of the constructors of
  `HookNext` and `Exec`, each with its guard and the state it leaves.
-/
namespace Sdb.L2

open Sdb.L1

section
variable {V : Type} (vm : VmAccess V)

/-- `HandleStatusChanged` returns normally in this action. -/
def Act.ListenerReturns : Act V → Prop
  | .hookNext throws => throws = false
  | _ => True

/-- The actions that leave the control part alone. -/
def Act.Passive : Act V → Prop
  | .addVm _ | .setFileBreakpoints _ _ | .sendStatus | .data _ | .script _ => True
  | _ => False

/-- The system in which no listener throws. -/
def ltsReturns : LTS (State V) (Lbl V) := (lts vm).restrict fun _ l => l.act.ListenerReturns

theorem ltsReturns_step {s s' : State V} {l : Lbl V} :
    (ltsReturns vm).step s l s' ↔
      exec vm s l.act = some (s', l.res) ∧ l.act.ListenerReturns := by
  show (lts vm).step s l s' ∧ _ ↔ _
  rw [lts_step]

/-- `s'` differs from `s` outside the control part only. -/
structure SameControl (s s' : State V) : Prop where
  pauseRequested : s'.pauseRequested = s.pauseRequested
  isPaused : s'.pauseMutexData.isPaused = s.pauseMutexData.isPaused
  returnsRequired : s'.pauseMutexData.returnsRequired = s.pauseMutexData.returnsRequired
  currentStack : s'.vmData.currentStack = s.vmData.currentStack
  fileNameHandles : s'.vmData.fileNameHandles = s.vmData.fileNameHandles
  thread : s'.thread = s.thread
  attached : s.vmData.vm.isSome → s'.vmData.vm.isSome

theorem SameControl.refl (s : State V) : SameControl s s := ⟨rfl, rfl, rfl, rfl, rfl, rfl, id⟩

theorem setFileBreakpoints_frame (s : State V) (file : Bytes) (bps : List CreateBreakpoint) :
    SameControl s (setFileBreakpoints vm s file bps).1 := by
  unfold setFileBreakpoints
  split
  · exact .refl s
  · exact ⟨rfl, rfl, rfl, rfl, rfl, rfl, id⟩

/-- A data command touches the VM's own state only. -/
theorem dataCommand_script {s s' : State V} {call : DataCall} {res : Res}
    (h : dataCommand vm s call = some (s', res)) : ∃ v, s' = { s with script := v } := by
  unfold dataCommand at h
  split at h
  · simp only [Option.some.injEq, Prod.mk.injEq] at h
    obtain ⟨rfl, -⟩ := h
    exact ⟨s.script, rfl⟩
  · simp only [Option.map_eq_some_iff] at h
    obtain ⟨⟨v, code⟩, -, h⟩ := h
    simp only [Prod.mk.injEq] at h
    obtain ⟨rfl, -⟩ := h
    exact ⟨v, rfl⟩

/-- What a passive action can do. -/
theorem passive_inv {s s' : State V} {a : Act V} {res : Res} (ha : a.Passive)
    (h : exec vm s a = some (s', res)) :
    (∃ handle, a = .addVm handle ∧ s' = addVm s handle) ∨
      (∃ file bps, a = .setFileBreakpoints file bps ∧
        s' = (setFileBreakpoints vm s file bps).1) ∨
      ∃ v, s' = { s with script := v } := by
  cases a with
  | addVm handle =>
    simp only [exec, Option.some.injEq, Prod.mk.injEq] at h
    exact .inl ⟨handle, rfl, h.1.symm⟩
  | setFileBreakpoints file bps =>
    simp only [exec, Option.some.injEq, Prod.mk.injEq] at h
    exact .inr (.inl ⟨file, bps, rfl, h.1.symm⟩)
  | sendStatus =>
    simp only [exec, Option.some.injEq, Prod.mk.injEq] at h
    exact .inr (.inr ⟨s.script, h.1.symm⟩)
  | data call => exact .inr (.inr (dataCommand_script vm h))
  | script v =>
    simp only [exec] at h
    split at h
    · simp only [Option.some.injEq, Prod.mk.injEq] at h
      exact .inr (.inr ⟨v, h.1.symm⟩)
    · cases h
  | _ => exact ha.elim

theorem passive_frame {s s' : State V} {a : Act V} {res : Res} (ha : a.Passive)
    (h : exec vm s a = some (s', res)) : SameControl s s' := by
  rcases passive_inv vm ha h with ⟨handle, -, rfl⟩ | ⟨file, bps, -, rfl⟩ | ⟨v, rfl⟩
  · exact ⟨rfl, rfl, rfl, rfl, rfl, rfl, fun _ => rfl⟩
  · exact setFileBreakpoints_frame vm s file bps
  · exact ⟨rfl, rfl, rfl, rfl, rfl, rfl, id⟩

/-- `SetFileBreakpoints` is the only command that writes the breakpoints. -/
theorem passive_breakpoints {s s' : State V} {a : Act V} {res : Res} (ha : a.Passive)
    (hb : ∀ file bps, a ≠ .setFileBreakpoints file bps) (h : exec vm s a = some (s', res)) :
    s'.pauseMutexData.breakpoints = s.pauseMutexData.breakpoints := by
  rcases passive_inv vm ha h with ⟨handle, -, rfl⟩ | ⟨file, bps, heq, -⟩ | ⟨v, rfl⟩
  · rfl
  · exact absurd heq (hb file bps)
  · rfl

/-! ## Notification -/

theorem notifyAll_waiting {s : State V} {n : Bool} (h : s.thread = .waiting n) :
    notifyAll s = { s with thread := .waiting true } := by
  simp [notifyAll, h]

@[simp] theorem notifyAll_pauseRequested (s : State V) :
    (notifyAll s).pauseRequested = s.pauseRequested := by
  unfold notifyAll; split <;> rfl

@[simp] theorem notifyAll_pauseMutexData (s : State V) :
    (notifyAll s).pauseMutexData = s.pauseMutexData := by
  unfold notifyAll; split <;> rfl

@[simp] theorem notifyAll_vmData (s : State V) : (notifyAll s).vmData = s.vmData := by
  unfold notifyAll; split <;> rfl

/-! ## The resume commands -/

/-- The request a resume command leaves. -/
def Resume.pauseType : Resume → PauseType
  | .continueExecution => .none
  | .stepIn => .stepIn
  | .stepOver => .stepOver
  | .stepOut => .stepOut

/-- The counter a resume command leaves; `ContinueExecution` keeps the old one. -/
def Resume.counter : Resume → Int → Int
  | .continueExecution, n => n
  | .stepIn, _ => -1
  | .stepOver, _ => 0
  | .stepOut, _ => 1

/-- When a resume command is accepted: `ContinueExecution` looks at the
request, the step commands at the pause flag. -/
def Accepts (s : State V) : Resume → Prop
  | .continueExecution => s.pauseRequested ≠ .none
  | .stepIn | .stepOver | .stepOut => s.pauseMutexData.isPaused = true

instance (s : State V) (c : Resume) : Decidable (Accepts s c) := by
  cases c <;> unfold Accepts <;> infer_instance

theorem resume_refused {s : State V} {c : Resume} (h : ¬ Accepts s c) :
    resume s c = (s, .invalidNotPaused) := by
  cases c <;> simp only [Accepts] at h <;>
    simp [resume, continueExecution, stepIn, stepOver, stepOut, L2.step, h]

/-- An accepted resume command sets its request and its counter and notifies. -/
theorem resume_accepted {s : State V} {c : Resume} (h : Accepts s c) :
    resume s c =
      (notifyAll { s with
        pauseMutexData := { s.pauseMutexData with
          returnsRequired := c.counter s.pauseMutexData.returnsRequired }
        pauseRequested := c.pauseType }, .success) := by
  cases c <;> simp only [Accepts] at h <;>
    simp [resume, continueExecution, stepIn, stepOver, stepOut, L2.step, h, Resume.counter,
      Resume.pauseType]

theorem resume_success_iff {s : State V} {c : Resume} :
    (resume s c).2 = .success ↔ Accepts s c := by
  by_cases h : Accepts s c
  · simp [h, resume_accepted h]
  · simp [h, resume_refused h]

/-- A resume command leaves the pause flag and the VM data alone; the flag stays
up until the VM thread wakes. -/
theorem resume_frame (s : State V) (c : Resume) :
    (resume s c).1.pauseMutexData.isPaused = s.pauseMutexData.isPaused ∧
      (resume s c).1.vmData = s.vmData ∧
      ((∀ n, s.thread ≠ .waiting n) → (resume s c).1.thread = s.thread) := by
  by_cases h : Accepts s c
  · rw [resume_accepted h]
    refine ⟨by simp, by simp, fun hn => ?_⟩
    unfold notifyAll
    split
    · rename_i n hw
      exact absurd hw (hn n)
    · rfl
  · rw [resume_refused h]
    exact ⟨rfl, rfl, fun _ => rfl⟩

/-- An accepted resume command notifies the waiting VM thread. -/
theorem resume_notifies {s : State V} {c : Resume} (h : Accepts s c) {n : Bool}
    (hn : s.thread = .waiting n) :
    (resume s c).1 = { s with
      pauseMutexData := { s.pauseMutexData with
        returnsRequired := c.counter s.pauseMutexData.returnsRequired }
      pauseRequested := c.pauseType
      thread := .waiting true } := by
  rw [resume_accepted h]
  exact notifyAll_waiting hn

/-! ## `DetachVm`, `PauseExecution` -/

theorem detachVm_frame (s : State V) : SameControl s (detachVm s) := by
  unfold detachVm
  split
  · exact ⟨rfl, rfl, rfl, rfl, rfl, rfl, id⟩
  · exact .refl s

theorem detachVmLocked_idle {s : State V} (h : s.pauseRequested = .none) :
    detachVmLocked s =
      { s with
        pauseMutexData := { s.pauseMutexData with isPaused := false }
        vmData := {}
        detaching := s.detaching - 1 } := by
  simp [detachVmLocked, h]

theorem detachVmLocked_busy {s : State V} (h : s.pauseRequested ≠ .none) :
    detachVmLocked s =
      { notifyAll s with
        pauseRequested := .none
        pauseMutexData := { s.pauseMutexData with isPaused := false }
        vmData := {}
        detaching := s.detaching - 1 } := by
  unfold detachVmLocked
  simp only [ne_eq, h, not_false_eq_true, if_true]
  unfold notifyAll
  split <;> simp_all

/-- After the critical section of `DetachVm` no pause is shown or requested and
nothing is attached. -/
theorem detachVmLocked_spec (s : State V) :
    (detachVmLocked s).pauseRequested = .none ∧
      (detachVmLocked s).pauseMutexData.isPaused = false ∧ (detachVmLocked s).vmData = {} := by
  by_cases h : s.pauseRequested = .none
  · rw [detachVmLocked_idle h]; exact ⟨h, rfl, rfl⟩
  · rw [detachVmLocked_busy h]; exact ⟨rfl, rfl, rfl⟩

theorem detachVmLocked_thread (s : State V) :
    (detachVmLocked s).thread = if s.pauseRequested = .none then s.thread
      else (notifyAll s).thread := by
  by_cases h : s.pauseRequested = .none
  · rw [detachVmLocked_idle h, if_pos h]
  · rw [detachVmLocked_busy h, if_neg h]

/-- A detach moves the thread only within the wait. -/
theorem detachVmLocked_stays (s : State V) :
    (detachVmLocked s).thread = s.thread ∨ ∃ n, (detachVmLocked s).thread = .waiting n := by
  rw [detachVmLocked_thread]
  split
  · exact .inl rfl
  · unfold notifyAll
    split
    · exact .inr ⟨true, rfl⟩
    · exact .inl rfl

theorem pauseExecution_idle {s : State V} (h : s.pauseRequested = .none) :
    (pauseExecution s).1 =
      { s with
        pauseRequested := .pause
        pauseMutexData := { s.pauseMutexData with returnsRequired := -1 } } := by
  simp [pauseExecution, h]

theorem pauseExecution_busy {s : State V} (h : s.pauseRequested ≠ .none) :
    (pauseExecution s).1 = s := by
  simp [pauseExecution, h]

@[simp] theorem pauseExecution_code (s : State V) : (pauseExecution s).2 = .success := by
  unfold pauseExecution; split <;> rfl

/-- `PauseExecution` leaves a request outstanding and touches nothing else but
the counter. -/
theorem pauseExecution_spec (s : State V) :
    (pauseExecution s).1.pauseRequested ≠ .none ∧
      (pauseExecution s).1.pauseMutexData.isPaused = s.pauseMutexData.isPaused ∧
      (pauseExecution s).1.vmData = s.vmData ∧ (pauseExecution s).1.thread = s.thread := by
  by_cases h : s.pauseRequested = .none
  · rw [pauseExecution_idle h]; simp
  · rw [pauseExecution_busy h]; exact ⟨h, rfl, rfl, rfl⟩

/-! ## The hook -/

/-- The `'l'` branch finds a breakpoint. -/
def BreakpointAt (m : BreakpointMap) (line : Int) (handle : FileNameHandle) : Prop :=
  (lineBreakpoint m line handle).1 = true

instance (m : BreakpointMap) (line : Int) (handle : FileNameHandle) :
    Decidable (BreakpointAt m line handle) := by
  unfold BreakpointAt; infer_instance

/-- A breakpoint is set on this line of this file. -/
def BreakpointSet (m : BreakpointMap) (handle : FileNameHandle) (line : Int) : Prop :=
  ∃ h n b, handle = some h ∧ (UInt32.toNat n : Int) = line ∧ m.readLine h n = some b

/-- The hook looks for breakpoints on the lines below `INT32_MAX`. -/
theorem breakpointAt_iff (m : BreakpointMap) (line : Int) (handle : FileNameHandle) :
    BreakpointAt m line handle ↔ line < int32Max ∧ BreakpointSet m handle line := by
  unfold BreakpointAt lineBreakpoint BreakpointSet
  constructor
  · intro h
    split at h
    · rename_i hc
      obtain ⟨h0, hlt, hne⟩ := hc
      obtain ⟨i, rfl⟩ := Option.ne_none_iff_exists'.mp hne
      rw [BreakpointMap.readBreakpoint_some, Option.isSome_iff_exists] at h
      obtain ⟨b, hb⟩ := h
      have hn : (UInt32.ofNat line.toNat).toNat = line.toNat := by
        simp only [UInt32.toNat_ofNat']
        unfold int32Max at hlt
        omega
      exact ⟨hlt, i, _, b, rfl, by rw [hn]; omega, hb⟩
    · cases h
  · rintro ⟨hlt, i, n, b, rfl, rfl, hb⟩
    rw [if_pos ⟨by omega, hlt, by simp⟩, BreakpointMap.readBreakpoint_some]
    have hn : UInt32.ofNat (n.toNat : Int).toNat = n := by simp
    rw [hn, hb]
    rfl

/-- The `'l'` branch pauses: a breakpoint, or a request with no return left to
wait for. -/
def Stops (s : State V) (line : Int) (handle : FileNameHandle) : Prop :=
  BreakpointAt s.pauseMutexData.breakpoints line handle ∨
    (s.pauseRequested ≠ .none ∧ s.pauseMutexData.returnsRequired ≤ 0)

instance (s : State V) (line : Int) (handle : FileNameHandle) :
    Decidable (Stops s line handle) := by
  unfold Stops; infer_instance

/-- The status of a pause at this line. -/
def pauseStatus (s : State V) (line : Int) (handle : FileNameHandle) : Status where
  runState := .paused
  stack := vm.populateStack s.script
  pausedAtBreakpointId := (lineBreakpoint s.pauseMutexData.breakpoints line handle).2.id

theorem hookStop_stops {s : State V} {line : Int} {handle : FileNameHandle} (throws : Bool)
    (h : Stops s line handle) :
    (hookStop vm s line handle throws).2 = .paused (pauseStatus vm s line handle) ∧
      (hookStop vm s line handle throws).1.pauseRequested ≠ .none ∧
      (hookStop vm s line handle throws).1.pauseMutexData.isPaused = true ∧
      (hookStop vm s line handle throws).1.pauseMutexData.returnsRequired ≤ 0 ∧
      (hookStop vm s line handle throws).1.pauseMutexData.breakpoints =
        s.pauseMutexData.breakpoints ∧
      (hookStop vm s line handle throws).1.vmData = s.vmData ∧
      (throws = false → (hookStop vm s line handle throws).1.thread = .waiting false) := by
  unfold hookStop pauseStatus
  by_cases hb : BreakpointAt s.pauseMutexData.breakpoints line handle
  · have hf : (lineBreakpoint s.pauseMutexData.breakpoints line handle).1 = true := hb
    simp only [hf, if_true]
    simp
    intro ht
    simp [ht]
  · have hf : (lineBreakpoint s.pauseMutexData.breakpoints line handle).1 = false :=
      Bool.eq_false_iff.mpr hb
    obtain ⟨h1, h2⟩ := h.resolve_left hb
    simp only [hf, Bool.false_eq_true, if_false]
    rw [if_pos ⟨h1, h2⟩]
    refine ⟨rfl, h1, rfl, h2, rfl, rfl, ?_⟩
    intro ht
    simp [ht]

theorem hookStop_runs {s : State V} {line : Int} {handle : FileNameHandle} (throws : Bool)
    (h : ¬ Stops s line handle) :
    hookStop vm s line handle throws = ({ s with thread := .script }, .silent) := by
  have hb : ¬ BreakpointAt s.pauseMutexData.breakpoints line handle := fun hb => h (.inl hb)
  have hf : (lineBreakpoint s.pauseMutexData.breakpoints line handle).1 = false :=
    Bool.eq_false_iff.mpr hb
  have hr : ¬ (s.pauseRequested ≠ .none ∧ s.pauseMutexData.returnsRequired ≤ 0) :=
    fun hr => h (.inr hr)
  unfold hookStop
  simp only [hf, Bool.false_eq_true, if_false]
  rw [if_neg hr]

/-- After the line branch the script runs on or the VM thread waits. -/
theorem hookStop_thread (s : State V) (line : Int) (handle : FileNameHandle) (throws : Bool) :
    (hookStop vm s line handle throws).1.thread = .script ∨
      (hookStop vm s line handle throws).1.thread = .waiting false := by
  unfold hookStop
  dsimp only
  repeat' split
  all_goals simp

theorem hookCall_control (s : State V) (sourceName : SourceName) (line : Int) :
    (hookCall vm s sourceName line).pauseRequested = s.pauseRequested ∧
      (hookCall vm s sourceName line).pauseMutexData.isPaused = s.pauseMutexData.isPaused ∧
      (hookCall vm s sourceName line).pauseMutexData.returnsRequired =
        s.pauseMutexData.returnsRequired ∧
      (hookCall vm s sourceName line).vmData.vm = s.vmData.vm ∧
      (∃ handle, (hookCall vm s sourceName line).vmData.currentStack =
        ⟨handle, line⟩ :: s.vmData.currentStack) ∧
      (hookCall vm s sourceName line).thread = .called := by
  unfold hookCall
  split
  · rename_i handle _
    exact ⟨rfl, rfl, rfl, rfl, ⟨handle, rfl⟩, rfl⟩
  · exact ⟨rfl, rfl, rfl, rfl, ⟨_, rfl⟩, rfl⟩

/-- A call is counted only while a request is outstanding and there are returns
to wait for. -/
theorem hookCalled_eq (s : State V) :
    hookCalled s = { s with
      thread := if s.pauseRequested ≠ .none ∧ 0 ≤ s.pauseMutexData.returnsRequired then .counting
        else .script } := by
  unfold hookCalled
  split <;> rfl

theorem hookCalled_thread (s : State V) :
    (hookCalled s).thread = .counting ∨ (hookCalled s).thread = .script := by
  rw [hookCalled_eq]
  dsimp only
  split
  · exact .inl rfl
  · exact .inr rfl

theorem hookCalled_running (s : State V) (n : Bool) : (hookCalled s).thread ≠ .waiting n := by
  rcases hookCalled_thread s with h | h <;> simp [h]

/-- A return lowers the counter whenever a request is outstanding. -/
theorem hookReturned_eq (s : State V) :
    hookReturned s = { s with
      pauseMutexData := { s.pauseMutexData with
        returnsRequired := s.pauseMutexData.returnsRequired -
          if s.pauseRequested ≠ .none then 1 else 0 }
      thread := .script } := by
  unfold hookReturned
  split <;> simp

theorem hookReturn_nonempty {s : State V} {head : StackInfo} {rest : List StackInfo}
    (h : s.vmData.currentStack = head :: rest) :
    hookReturn s =
      { s with vmData := { s.vmData with currentStack := rest }, thread := .returned } := by
  simp [hookReturn, h]

theorem hookReturn_empty {s : State V} (h : s.vmData.currentStack = []) :
    hookReturn s = { s with thread := .fault } := by
  simp [hookReturn, h]

theorem hookLine_nonempty {s : State V} {head : StackInfo} {rest : List StackInfo} (line : Int)
    (h : s.vmData.currentStack = head :: rest) :
    hookLine s line =
      { s with
        vmData := { s.vmData with currentStack := { head with line := line } :: rest }
        thread := .stopping line head.fileNameHandle } := by
  simp [hookLine, h]

theorem hookLine_empty {s : State V} (line : Int) (h : s.vmData.currentStack = []) :
    hookLine s line = { s with thread := .fault } := by
  simp [hookLine, h]

theorem hookNext_stopping {s : State V} {line : Int} {handle : FileNameHandle} (throws : Bool)
    (ht : s.thread = .stopping line handle) :
    hookNext vm s throws = some (hookStop vm s line handle throws) := by
  simp [hookNext, ht]

/-- What the VM thread does next inside the hook, one constructor for each way a
branch can go. -/
inductive HookNext (s : State V) (throws : Bool) : State V → Res → Prop where
  | call {sourceName : SourceName} {line : Int} (ht : s.thread = .entered (.c sourceName line)) :
    HookNext s throws (hookCall vm s sourceName line) .silent
  | ret {head : StackInfo} {rest : List StackInfo} (ht : s.thread = .entered .r)
    (hstk : s.vmData.currentStack = head :: rest) :
    HookNext s throws
      { s with vmData := { s.vmData with currentStack := rest }, thread := .returned } .silent
  | line {line : Int} {head : StackInfo} {rest : List StackInfo}
    (ht : s.thread = .entered (.l line)) (hstk : s.vmData.currentStack = head :: rest) :
    HookNext s throws
      { s with
        vmData := { s.vmData with currentStack := { head with line := line } :: rest }
        thread := .stopping line head.fileNameHandle } .silent
  | fault (ht : s.thread = .entered .r ∨ ∃ line, s.thread = .entered (.l line))
    (hstk : s.vmData.currentStack = []) :
    HookNext s throws { s with thread := .fault } .silent
  | other (ht : s.thread = .entered .other) :
    HookNext s throws { s with thread := .script } .silent
  | called (ht : s.thread = .called) : HookNext s throws (hookCalled s) .silent
  | counted (ht : s.thread = .counting) : HookNext s throws (hookCounted s) .silent
  | returned (ht : s.thread = .returned) : HookNext s throws (hookReturned s) .silent
  | stops {line : Int} {handle : FileNameHandle} (ht : s.thread = .stopping line handle)
    (hst : Stops s line handle) :
    HookNext s throws (hookStop vm s line handle throws).1
      (.paused (pauseStatus vm s line handle))
  | runs {line : Int} {handle : FileNameHandle} (ht : s.thread = .stopping line handle)
    (hst : ¬ Stops s line handle) :
    HookNext s throws { s with thread := .script } .silent

theorem hookNext_inv {s s' : State V} {throws : Bool} {res : Res}
    (h : hookNext vm s throws = some (s', res)) : HookNext vm s throws s' res := by
  unfold hookNext at h
  split at h
  case h_1 sourceName line ht =>
    simp only [Option.some.injEq, Prod.mk.injEq] at h
    obtain ⟨rfl, rfl⟩ := h
    exact .call ht
  case h_2 ht =>
    simp only [Option.some.injEq, Prod.mk.injEq] at h
    obtain ⟨rfl, rfl⟩ := h
    cases hstk : s.vmData.currentStack with
    | nil => rw [hookReturn_empty hstk]; exact .fault (.inl ht) hstk
    | cons head rest => rw [hookReturn_nonempty hstk]; exact .ret ht hstk
  case h_3 line ht =>
    simp only [Option.some.injEq, Prod.mk.injEq] at h
    obtain ⟨rfl, rfl⟩ := h
    cases hstk : s.vmData.currentStack with
    | nil => rw [hookLine_empty line hstk]; exact .fault (.inr ⟨line, ht⟩) hstk
    | cons head rest => rw [hookLine_nonempty line hstk]; exact .line ht hstk
  case h_4 ht =>
    simp only [Option.some.injEq, Prod.mk.injEq] at h
    obtain ⟨rfl, rfl⟩ := h
    exact .other ht
  case h_5 ht =>
    simp only [Option.some.injEq, Prod.mk.injEq] at h
    obtain ⟨rfl, rfl⟩ := h
    exact .called ht
  case h_6 ht =>
    simp only [Option.some.injEq, Prod.mk.injEq] at h
    obtain ⟨rfl, rfl⟩ := h
    exact .counted ht
  case h_7 ht =>
    simp only [Option.some.injEq, Prod.mk.injEq] at h
    obtain ⟨rfl, rfl⟩ := h
    exact .returned ht
  case h_8 line handle ht =>
    rw [Option.some.injEq] at h
    by_cases hst : Stops s line handle
    · have hres := (hookStop_stops vm throws hst).1
      rw [h] at hres
      obtain rfl : _ = s' := congrArg Prod.fst h
      obtain rfl : res = _ := hres
      exact .stops ht hst
    · rw [hookStop_runs vm throws hst, Prod.mk.injEq] at h
      obtain ⟨rfl, rfl⟩ := h
      exact .runs ht hst
  all_goals cases h

/-- A VM thread in the wait takes no step of the hook. -/
theorem HookNext.running {s s' : State V} {throws : Bool} {res : Res}
    (h : HookNext vm s throws s' res) (n : Bool) : s.thread ≠ .waiting n := by
  cases h with
  | fault ht _ => rcases ht with ht | ⟨line, ht⟩ <;> simp [ht]
  | _ => simp [*]

/-! ## One step of the system -/

/-- The decision of a line event that pauses ... -/
theorem exec_stops {s s' : State V} {line : Int} {handle : FileNameHandle} {throws : Bool}
    {res : Res} (ht : s.thread = .stopping line handle) (hst : Stops s line handle)
    (h : exec vm s (.hookNext throws) = some (s', res)) :
    res = .paused (pauseStatus vm s line handle) ∧ s'.pauseMutexData.isPaused = true ∧
      (throws = false → s'.thread = .waiting false) := by
  simp only [exec, hookNext_stopping vm throws ht, Option.some.injEq] at h
  obtain ⟨h₁, -, h₂, -, -, -, h₃⟩ := hookStop_stops vm throws hst
  rw [h] at h₁ h₂ h₃
  exact ⟨h₁, h₂, h₃⟩

/-- ... and of one that does not. -/
theorem exec_runs {s s' : State V} {line : Int} {handle : FileNameHandle} {throws : Bool}
    {res : Res} (ht : s.thread = .stopping line handle) (hst : ¬ Stops s line handle)
    (h : exec vm s (.hookNext throws) = some (s', res)) : res = .silent := by
  simp only [exec, hookNext_stopping vm throws ht, hookStop_runs vm throws hst,
    Option.some.injEq, Prod.mk.injEq] at h
  exact h.2.symm

/-- What an action does, one constructor for each way it can go. -/
inductive Exec (s : State V) : Act V → State V → Res → Prop where
  | passive {a : Act V} {s' : State V} {res : Res} (ha : a.Passive) (h : SameControl s s') :
    Exec s a s' res
  | detachVm : Exec s .detachVm (detachVm s) .silent
  | detachVmLocked : Exec s .detachVmLocked (detachVmLocked s) .silent
  | pauseExecution : Exec s .pauseExecution (pauseExecution s).1 (.rc .success)
  | accepted {c : Resume} (hc : Accepts s c) :
    Exec s (.resume c) (resume s c).1 (.rc .success)
  | refused {c : Resume} (hc : ¬ Accepts s c) : Exec s (.resume c) s (.rc .invalidNotPaused)
  | unattached {e : HookEvent} (ht : s.thread = .script) (hv : s.vmData.vm.isNone) :
    Exec s (.hook e) s .silent
  | hook {e : HookEvent} (ht : s.thread = .script) (hv : s.vmData.vm.isSome) :
    Exec s (.hook e) { s with thread := .entered e } .silent
  | hookNext {throws : Bool} {s' : State V} {res : Res} (h : HookNext vm s throws s' res) :
    Exec s (.hookNext throws) s' res
  | wake {n : Bool} (ht : s.thread = .waiting n) : Exec s .wake (wake s) .silent

theorem exec_inv {s s' : State V} {a : Act V} {res : Res} (h : exec vm s a = some (s', res)) :
    Exec vm s a s' res := by
  by_cases hp : a.Passive
  · exact .passive hp (passive_frame vm hp h)
  · cases a with
    | detachVm =>
      simp only [exec, Option.some.injEq, Prod.mk.injEq] at h
      obtain ⟨rfl, rfl⟩ := h
      exact .detachVm
    | detachVmLocked =>
      simp only [exec] at h
      split at h
      · cases h
      · simp only [Option.some.injEq, Prod.mk.injEq] at h
        obtain ⟨rfl, rfl⟩ := h
        exact .detachVmLocked
    | pauseExecution =>
      simp only [exec, pauseExecution_code, Option.some.injEq, Prod.mk.injEq] at h
      obtain ⟨rfl, rfl⟩ := h
      exact .pauseExecution
    | resume c =>
      simp only [exec, Option.some.injEq, Prod.mk.injEq] at h
      obtain ⟨rfl, rfl⟩ := h
      by_cases hc : Accepts s c
      · rw [resume_success_iff.mpr hc]; exact .accepted hc
      · rw [resume_refused hc]; exact .refused hc
    | hook e =>
      simp only [exec] at h
      split at h
      · rename_i ht
        simp only [Option.some.injEq, Prod.mk.injEq] at h
        obtain ⟨rfl, rfl⟩ := h
        unfold hookEntry
        split
        · rename_i hv
          exact .unattached ht hv
        · rename_i hv
          exact .hook ht (Option.isSome_iff_ne_none.mpr (by simpa using hv))
      · cases h
    | hookNext throws => exact .hookNext (hookNext_inv vm h)
    | wake =>
      simp only [exec] at h
      split at h
      · rename_i n ht
        simp only [Option.some.injEq, Prod.mk.injEq] at h
        obtain ⟨rfl, rfl⟩ := h
        exact .wake ht
      · cases h
    | _ => exact absurd trivial hp

/-! ## The range of the counter -/

/-- The `++` or the `--` of `returnsRequired` leaves the range of an `int`. -/
def Overflows (s : State V) : Act V → Prop
  | .hookNext _ =>
    s.thread = .counting ∧ s.pauseMutexData.returnsRequired = int32Max ∨
      s.thread = .returned ∧ s.pauseRequested ≠ .none ∧
        s.pauseMutexData.returnsRequired = int32Min
  | _ => False

instance (s : State V) : (a : Act V) → Decidable (Overflows s a)
  | .hookNext _ => inferInstanceAs (Decidable (_ ∨ _))
  | .addVm _ | .detachVm | .detachVmLocked | .pauseExecution | .resume _
  | .setFileBreakpoints _ _ | .sendStatus | .data _ | .script _ | .hook _ | .wake => .isFalse id

/-! ## The frame of a line event -/

/-- In a line event the hook looks at the file of the top frame. -/
def OnTop (s : State V) : Prop :=
  ∀ line handle, s.thread = .stopping line handle →
    ∃ frame rest, s.vmData.currentStack = frame :: rest ∧ frame.fileNameHandle = handle

theorem onTop_of_running {s : State V} (h : ∀ line handle, s.thread ≠ .stopping line handle) :
    OnTop s := fun line handle hs => absurd hs (h line handle)

/-- A command that leaves the call stack alone and does not move the VM thread
into a line event. -/
theorem onTop_of_frame {s s' : State V} (hstk : s'.vmData.currentStack = s.vmData.currentStack)
    (hth : s'.thread = s.thread ∨ ∀ line handle, s'.thread ≠ .stopping line handle)
    (ht : OnTop s) : OnTop s' := by
  intro line handle hs
  rcases hth with hth | hth
  · rw [hstk]
    exact ht line handle (hth ▸ hs)
  · exact absurd hs (hth line handle)

theorem onTop_hookNext {s s' : State V} {throws : Bool} {res : Res}
    (h : HookNext vm s throws s' res) : OnTop s' := by
  cases h with
  | @call sourceName line ht =>
    exact onTop_of_running (by simp [(hookCall_control vm s sourceName line).2.2.2.2.2])
  | line ht hstk =>
    intro line' handle hs
    simp only [VmThread.stopping.injEq] at hs
    exact ⟨_, _, rfl, hs.2⟩
  | called _ =>
    refine onTop_of_running fun _ _ => ?_
    rcases hookCalled_thread s with e | e <;> simp [e]
  | counted _ => exact onTop_of_running (by simp [hookCounted])
  | returned _ => exact onTop_of_running (by simp [hookReturned_eq])
  | @stops line handle _ _ =>
    refine onTop_of_running fun _ _ => ?_
    rcases hookStop_thread vm s line handle throws with e | e <;> simp [e]
  | ret _ _ => exact onTop_of_running (by simp)
  | fault _ _ => exact onTop_of_running (by simp)
  | other _ => exact onTop_of_running (by simp)
  | runs _ _ => exact onTop_of_running (by simp)

/-- Only `DetachVm` can take the frame away from under a line event. -/
theorem onTop_step {s s' : State V} {a : Act V} {res : Res} (ha : a ≠ .detachVmLocked)
    (h : Exec vm s a s' res) (ht : OnTop s) : OnTop s' := by
  cases h with
  | passive _ hf => exact onTop_of_frame hf.currentStack (.inl hf.thread) ht
  | detachVm =>
    exact onTop_of_frame (detachVm_frame s).currentStack (.inl (detachVm_frame s).thread) ht
  | detachVmLocked => exact absurd rfl ha
  | pauseExecution =>
    obtain ⟨-, -, h₃, h₄⟩ := pauseExecution_spec s
    exact onTop_of_frame (congrArg VmData.currentStack h₃) (.inl h₄) ht
  | @accepted c _ =>
    obtain ⟨-, h₂, h₃⟩ := resume_frame s c
    refine onTop_of_frame (congrArg VmData.currentStack h₂) ?_ ht
    by_cases hw : ∃ n, s.thread = .waiting n
    · obtain ⟨n, hn⟩ := hw
      exact .inr (by simp [resume_notifies ‹_› hn])
    · exact .inl (h₃ fun n hn => hw ⟨n, hn⟩)
  | refused _ => exact ht
  | unattached _ _ => exact ht
  | hook _ _ => exact onTop_of_running (by simp)
  | hookNext hn => exact onTop_hookNext vm hn
  | wake _ => exact onTop_of_running (by simp [wake])

end

end Sdb.L2
