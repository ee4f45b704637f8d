import Sdb.L2Pause.Confirm

/-!
# When a pause request takes effect

`PauseExecution` and the step commands share `pauseRequested_` and
`returnsRequired`. With no request outstanding `PauseExecution` records one that
the next line honours at any depth (counter `-1`, which calls and returns keep
negative). With a request outstanding it returns `Success` and changes nothing;
the next line then pauses only if the counter of that request lets it.

`PausesNext s` says that from `s` on, whatever commands other than the resume
commands and `DetachVm` come and however many calls and returns, the next line
event that finds a frame in `currentStack` pauses. `returnsRequired` is an `int`:
a step that would take it out of its range is undefined, and `PausesNext` follows
no run beyond one.

* `pause_takes_effect`: after `PauseExecution` that holds exactly when `Immediate`
  held before and the VM thread was not between the test and the `++` of a call;
* `pause_ignored`: a reachable state in which a step over swallows the request.
-/
namespace Sdb.L2

open Sdb.L1

section
variable {V : Type} (vm : VmAccess V)

/-- Neither a resume command nor a part of `DetachVm`. -/
def Act.KeepsRequest : Act V → Prop
  | .resume _ | .detachVm | .detachVmLocked => False
  | _ => True

/-- The action decides whether a line event pauses. -/
def DecidesLine (s : State V) (a : Act V) : Prop :=
  (∃ line handle, s.thread = .stopping line handle) ∧ ∃ throws, a = .hookNext throws

/-- The system up to the decision of the next line event, without resume
commands, detaches and overflows. -/
def beforeLine : LTS (State V) (Lbl V) :=
  (lts vm).restrict fun s l => l.act.KeepsRequest ∧ ¬ DecidesLine s l.act ∧ ¬ Overflows s l.act

/-- The next line event pauses: with a frame in `currentStack` it goes on to the lock,
and there it shows the pause, and the VM thread enters the wait unless the listener
throws. -/
def PausesNext (s : State V) : Prop :=
  ∀ ls t, (beforeLine vm).Run s ls t → ∀ line throws t' res,
    exec vm t (.hookNext throws) = some (t', res) →
    (t.thread = .entered (.l line) → t.vmData.currentStack ≠ [] →
      ∃ handle, t'.thread = .stopping line handle) ∧
    ∀ handle, t.thread = .stopping line handle →
      (∃ status, res = .paused status) ∧ t'.pauseMutexData.isPaused = true ∧
        (throws = false → t'.thread = .waiting false)

/-- A line event that finds no frame in `currentStack` ends in its `back()`. -/
def NeedsFrame (s : State V) : Prop :=
  ∀ ls t, (beforeLine vm).Run s ls t → ∀ line throws t' res,
    exec vm t (.hookNext throws) = some (t', res) →
    t.thread = .entered (.l line) → t.vmData.currentStack = [] →
    t'.thread = .fault ∧ res = .silent ∧
      t'.pauseMutexData.isPaused = t.pauseMutexData.isPaused

/-- A pause requested in `s` is honoured at the next line: no other request is
outstanding, or one that waits for no return. -/
def Immediate (s : State V) : Prop :=
  s.pauseRequested = .none ∨ s.pauseMutexData.returnsRequired < 0

/-- A request is outstanding that no call can defer. -/
structure Pending (s : State V) : Prop where
  requested : s.pauseRequested ≠ .none
  counter : s.pauseMutexData.returnsRequired < 0
  running : ∀ n, s.thread ≠ .waiting n
  uncounted : s.thread ≠ .counting

theorem pending_of_same {s s' : State V} (h : SameControl s s') (hp : Pending s) : Pending s' :=
  ⟨h.pauseRequested ▸ hp.requested, h.returnsRequired ▸ hp.counter,
    fun n => h.thread ▸ hp.running n, h.thread ▸ hp.uncounted⟩

/-- Up to the decision of a line event no call or return makes the counter
non-negative. -/
theorem pending_hookNext {s s' : State V} {throws : Bool} {res : Res} (hp : Pending s)
    (hs : ∀ line handle, s.thread ≠ .stopping line handle)
    (h : HookNext vm s throws s' res) : Pending s' := by
  have hc := hp.counter
  cases h with
  | @call sourceName line ht =>
    obtain ⟨h₁, -, h₂, -, -, h₃⟩ := hookCall_control vm s sourceName line
    exact ⟨h₁ ▸ hp.requested, h₂ ▸ hc, by simp [h₃], by simp [h₃]⟩
  | ret _ _ => exact ⟨hp.requested, hc, by simp, by simp⟩
  | line _ _ => exact ⟨hp.requested, hc, by simp, by simp⟩
  | fault _ _ => exact ⟨hp.requested, hc, by simp, by simp⟩
  | other _ => exact ⟨hp.requested, hc, by simp, by simp⟩
  | called _ =>
    rw [hookCalled_eq, if_neg (by omega)]
    exact ⟨hp.requested, by simpa using hc, by simp, by simp⟩
  | counted ht => exact absurd ht hp.uncounted
  | returned _ =>
    rw [hookReturned_eq, if_pos hp.requested]
    exact ⟨hp.requested, by show s.pauseMutexData.returnsRequired - 1 < 0; omega, by simp,
      by simp⟩
  | stops ht _ => exact absurd ht (hs _ _)
  | runs ht _ => exact absurd ht (hs _ _)

theorem pending_step {s s' : State V} {l : Lbl V} (hp : Pending s)
    (h : (beforeLine vm).step s l s') : Pending s' := by
  obtain ⟨a, res⟩ := l
  obtain ⟨h, hk, hd, -⟩ := h
  cases exec_inv vm ((lts_step vm).mp h) with
  | passive _ hf => exact pending_of_same hf hp
  | pauseExecution =>
    rw [pauseExecution_busy hp.requested]
    exact hp
  | unattached _ _ => exact hp
  | hook _ _ => exact ⟨hp.requested, hp.counter, by simp, by simp⟩
  | @hookNext throws _ _ hn =>
    exact pending_hookNext vm hp
      (fun line handle ht => hd ⟨⟨line, handle, ht⟩, throws, rfl⟩) hn
  | wake ht => exact absurd ht (hp.running _)
  | detachVm => exact hk.elim
  | detachVmLocked => exact hk.elim
  | accepted _ => exact hk.elim
  | refused _ => exact hk.elim

theorem line_goes_on {t t' : State V} {line : Int} {throws : Bool} {res : Res}
    (h : exec vm t (.hookNext throws) = some (t', res)) (ht : t.thread = .entered (.l line)) :
    (t.vmData.currentStack ≠ [] → ∃ handle, t'.thread = .stopping line handle) ∧
      (t.vmData.currentStack = [] → t' = { t with thread := .fault } ∧ res = .silent) := by
  simp only [exec, hookNext, ht, hookLine, Option.some.injEq, Prod.mk.injEq] at h
  obtain ⟨rfl, rfl⟩ := h
  cases hstk : t.vmData.currentStack with
  | nil => exact ⟨fun hne => absurd rfl hne, fun _ => ⟨rfl, rfl⟩⟩
  | cons head rest => exact ⟨fun _ => ⟨head.fileNameHandle, rfl⟩, fun h => by cases h⟩

theorem needsFrame (s : State V) : NeedsFrame vm s := by
  intro ls t _ line throws t' res h ht hstk
  obtain ⟨rfl, rfl⟩ := (line_goes_on vm h ht).2 hstk
  exact ⟨rfl, rfl, rfl⟩

theorem pausesNext_of_pending {s : State V} (hp : Pending s) : PausesNext vm s := by
  intro ls t hr line throws t' res h
  refine ⟨fun ht => (line_goes_on vm h ht).1, fun handle ht => ?_⟩
  have hpt : Pending t := hr.invariant (fun _ => True) Pending (fun _ _ => trivial) hp
    fun _ _ _ _ hi hs => pending_step vm hi hs
  have hst : Stops t line handle := .inr ⟨hpt.requested, Int.le_of_lt hpt.counter⟩
  obtain ⟨h₁, h₂, h₃⟩ := exec_stops vm ht hst h
  exact ⟨⟨_, h₁⟩, h₂, h₃⟩

/-- A call and a line of the callee, with a request that a call defers: the
counter is one higher when the line event is decided. -/
theorem line_after_call {s : State V} (hv : s.vmData.vm.isSome) (ht : s.thread = .script)
    (hreq : s.pauseRequested ≠ .none) (hc : 0 ≤ s.pauseMutexData.returnsRequired)
    (hmax : s.pauseMutexData.returnsRequired < int32Max) :
    ∃ ls t handle, (beforeLine vm).Run s ls t ∧ t.thread = .stopping (-1) handle ∧
      t.pauseMutexData.returnsRequired = s.pauseMutexData.returnsRequired + 1 := by
  have hv' : s.vmData.vm.isNone = false := by
    cases h : s.vmData.vm <;> simp_all
  -- the call ...
  let s₁ : State V := { s with thread := .entered (.c ⟨1, []⟩ 0) }
  let s₂ := hookCall vm s₁ ⟨1, []⟩ 0
  let s₃ : State V := { s₂ with thread := .counting }
  let s₄ := hookCounted s₃
  -- ... and the line
  let s₅ : State V := { s₄ with thread := .entered (.l (-1)) }
  obtain ⟨hreq₂, -, hc₂, hvm₂, ⟨handle, hstk₂⟩, ht₂⟩ := hookCall_control vm s₁ ⟨1, []⟩ 0
  have h₃ : hookCalled s₂ = s₃ := by
    rw [hookCalled_eq, if_pos ⟨hreq₂ ▸ hreq, hc₂ ▸ hc⟩]
  have hv₄ : s₄.vmData.vm.isNone = false := by
    rw [← hv']
    exact congrArg _ hvm₂
  let s₆ : State V := { s₅ with
    vmData := { s₅.vmData with currentStack := ⟨handle, -1⟩ :: s.vmData.currentStack }
    thread := .stopping (-1) handle }
  have hstk₅ : s₅.vmData.currentStack = ⟨handle, 0⟩ :: s.vmData.currentStack := hstk₂
  have h₆ : hookLine s₅ (-1) = s₆ := hookLine_nonempty (-1) hstk₅
  refine ⟨[⟨.hook (.c ⟨1, []⟩ 0), .silent⟩, ⟨.hookNext false, .silent⟩,
    ⟨.hookNext false, .silent⟩, ⟨.hookNext false, .silent⟩, ⟨.hook (.l (-1)), .silent⟩,
    ⟨.hookNext false, .silent⟩], s₆, handle, ?_, rfl, congrArg (· + 1) hc₂⟩
  refine .cons ⟨(lts_step vm).mpr ?_, trivial, fun hd => ?_, fun ho => ?_⟩ (t := s₁)
    (.cons ⟨(lts_step vm).mpr ?_, trivial, fun hd => ?_, fun ho => ?_⟩ (t := s₂)
      (.cons ⟨(lts_step vm).mpr ?_, trivial, fun hd => ?_, fun ho => ?_⟩ (t := s₃)
        (.cons ⟨(lts_step vm).mpr ?_, trivial, fun hd => ?_, fun ho => ?_⟩ (t := s₄)
          (.cons ⟨(lts_step vm).mpr ?_, trivial, fun hd => ?_, fun ho => ?_⟩ (t := s₅)
            (.single ⟨(lts_step vm).mpr ?_, trivial, fun hd => ?_, fun ho => ?_⟩)))))
  · simp [exec, ht, hookEntry, hv', s₁]
  · simp [DecidesLine, ht] at hd
  · simp [Overflows] at ho
  · simp [exec, hookNext, s₁, s₂]
  · simp [DecidesLine, s₁] at hd
  · simp [Overflows, s₁] at ho
  · simp [exec, hookNext, s₂, ht₂, h₃]
  · simp [DecidesLine, s₂, ht₂] at hd
  · simp [Overflows, s₂, ht₂] at ho
  · simp [exec, hookNext, s₃, s₄]
  · simp [DecidesLine, s₃] at hd
  · simp only [Overflows, s₃, s₂, hc₂, s₁] at ho
    simp at ho
    omega
  · have ht₄ : s₄.thread = .script := rfl
    simp [exec, hookEntry, hv₄, ht₄, s₅]
  · simp [DecidesLine, s₄, hookCounted] at hd
  · simp [Overflows] at ho
  · simp [exec, hookNext, s₅, h₆]
  · simp [DecidesLine, s₅] at hd
  · simp [Overflows, s₅] at ho

/-- With a non-negative counter, one more call defers the pause past the next
line. -/
theorem not_pausesNext {s : State V} (hv : s.vmData.vm.isSome) (ht : s.thread = .script)
    (hreq : s.pauseRequested ≠ .none) (hc : 0 ≤ s.pauseMutexData.returnsRequired)
    (hmax : s.pauseMutexData.returnsRequired < int32Max) : ¬ PausesNext vm s := by
  intro hp
  obtain ⟨ls, t, handle, hrun, hthread, hcounter⟩ := line_after_call vm hv ht hreq hc hmax
  have hst : ¬ Stops t (-1) handle := by
    intro hst
    rcases hst with hb | ⟨-, hle⟩
    · simp [BreakpointAt, lineBreakpoint] at hb
    · omega
  have hstep : exec vm t (.hookNext false) = some ({ t with thread := .script }, .silent) := by
    simp only [exec, hookNext_stopping vm false hthread, hookStop_runs vm false hst]
  obtain ⟨⟨status, hres⟩, -⟩ := (hp ls t hrun (-1) false _ .silent hstep).2 handle hthread
  cases hres

/-! ## A call that is being counted -/

/-- The commands write no counter below `-1`, and a call is counted from `0` on. -/
def Counted (s : State V) : Prop :=
  s.thread = .counting → -1 ≤ s.pauseMutexData.returnsRequired

theorem counted_hookNext {s s' : State V} {throws : Bool} {res : Res}
    (h : HookNext vm s throws s' res) : Counted s' := by
  intro ht'
  cases h with
  | @call name line _ => simp [(hookCall_control vm s name line).2.2.2.2.2] at ht'
  | called _ =>
    rw [hookCalled_eq] at ht' ⊢
    dsimp only at ht' ⊢
    split at ht'
    · rename_i hcount
      omega
    · cases ht'
  | counted _ => simp [hookCounted] at ht'
  | returned _ => simp [hookReturned_eq] at ht'
  | @stops line handle _ _ =>
    rcases hookStop_thread vm s line handle throws with e | e <;> simp [e] at ht'
  | _ => cases ht'

theorem counted_inductive : (lts vm).Inductive Counted where
  init := by rintro s ⟨e, v, rfl⟩ ht; cases ht
  step := fun s l s' hi h => by
    intro ht'
    obtain ⟨a, res⟩ := l
    cases exec_inv vm ((lts_step vm).mp h) with
    | passive _ hf =>
      rw [hf.returnsRequired]
      exact hi (hf.thread ▸ ht')
    | detachVm =>
      rw [(detachVm_frame s).returnsRequired]
      exact hi ((detachVm_frame s).thread ▸ ht')
    | detachVmLocked =>
      have ht : s.thread = .counting := by
        rw [detachVmLocked_thread] at ht'
        split at ht'
        · exact ht'
        · unfold notifyAll at ht'
          split at ht'
          · cases ht'
          · exact ht'
      by_cases hreq : s.pauseRequested = .none
      · rw [detachVmLocked_idle hreq]
        exact hi ht
      · rw [detachVmLocked_busy hreq]
        exact hi ht
    | pauseExecution =>
      rw [(pauseExecution_spec s).2.2.2] at ht'
      by_cases hreq : s.pauseRequested = .none
      · simp [pauseExecution_idle hreq]
      · rw [pauseExecution_busy hreq]
        exact hi ht'
    | @accepted c hc =>
      have hrun : ∀ n, s.thread ≠ .waiting n := by
        intro n hn
        rw [resume_notifies hc hn] at ht'
        cases ht'
      rw [(resume_frame s c).2.2 hrun] at ht'
      rw [resume_accepted hc]
      simp only [notifyAll_pauseMutexData]
      cases c with
      | continueExecution => exact hi ht'
      | stepIn | stepOver | stepOut => simp [Resume.counter]
    | refused _ => exact hi ht'
    | unattached _ _ => exact hi ht'
    | hook _ _ => cases ht'
    | hookNext hn => exact counted_hookNext vm hn ht'
    | wake _ => cases ht'

/-- A request that comes between the test and the `++` of a call ends at `0` or above, and
the next call defers it. -/
theorem not_pausesNext_counting {s : State V} (hv : s.vmData.vm.isSome)
    (ht : s.thread = .counting) (hcount : Counted s)
    (hmax : s.pauseMutexData.returnsRequired + 1 < int32Max) :
    ¬ PausesNext vm (pauseExecution s).1 := by
  obtain ⟨hreq, -, hvm, hth⟩ := pauseExecution_spec s
  have hlow : -1 ≤ (pauseExecution s).1.pauseMutexData.returnsRequired ∧
      (pauseExecution s).1.pauseMutexData.returnsRequired + 1 < int32Max := by
    by_cases h : s.pauseRequested = .none
    · rw [pauseExecution_idle h]
      exact ⟨Int.le_refl _, by simp [int32Max]⟩
    · rw [pauseExecution_busy h]
      exact ⟨hcount ht, hmax⟩
  revert hreq hvm hth hlow
  generalize (pauseExecution s).1 = s₁
  intro hreq hvm hth hlow hp
  have hth₁ : s₁.thread = .counting := hth.trans ht
  have hstep : (beforeLine vm).step s₁ ⟨.hookNext false, .silent⟩ (hookCounted s₁) := by
    refine ⟨(lts_step vm).mpr (by simp [exec, hookNext, hth₁]), trivial, ?_, ?_⟩
    · rintro ⟨⟨line, handle, h⟩, -⟩
      rw [hth₁] at h
      cases h
    · rintro (⟨-, h⟩ | ⟨h, -⟩)
      · omega
      · rw [hth₁] at h
        cases h
  refine not_pausesNext vm (s := hookCounted s₁) (by simpa [hookCounted, hvm] using hv) rfl hreq
    ?_ ?_ fun ls t hr => hp (⟨.hookNext false, .silent⟩ :: ls) t (.cons hstep hr)
  · show 0 ≤ s₁.pauseMutexData.returnsRequired + 1
    omega
  · exact hlow.2

/-- **When a pause request takes effect.** Take a reachable state in which a VM is
attached and its thread is not in the wait. `PauseExecution` returns `Success`; if the
request is `Immediate`, and no call is between its test and its `++`, the next line event
pauses; and if the thread is running script or in that `++`, it does so only then. A line
event that finds no frame never pauses. -/
theorem pause_takes_effect (s : State V) (hr : (lts vm).Reachable s) (hv : s.vmData.vm.isSome)
    (hw : ∀ n, s.thread ≠ .waiting n) :
    (pauseExecution s).2 = .success ∧
      (Immediate s ∧ s.thread ≠ .counting → PausesNext vm (pauseExecution s).1) ∧
      (s.thread = .script ∨ s.thread = .counting →
        s.pauseMutexData.returnsRequired + 1 < int32Max →
        (PausesNext vm (pauseExecution s).1 ↔ Immediate s ∧ s.thread ≠ .counting)) ∧
      NeedsFrame vm (pauseExecution s).1 := by
  have hsuff : Immediate s ∧ s.thread ≠ .counting → PausesNext vm (pauseExecution s).1 := by
    intro ⟨hi, hth⟩
    apply pausesNext_of_pending
    by_cases hreq : s.pauseRequested = .none
    · rw [pauseExecution_idle hreq]
      exact ⟨by simp, by simp, hw, hth⟩
    · rw [pauseExecution_busy hreq]
      exact ⟨hreq, hi.resolve_left hreq, hw, hth⟩
  refine ⟨pauseExecution_code s, hsuff, fun ht hmax => ⟨fun hp => ?_, hsuff⟩, needsFrame vm _⟩
  rcases ht with ht | ht
  · refine ⟨?_, by simp [ht]⟩
    by_contra hn
    simp only [Immediate, not_or, Int.not_lt] at hn
    rw [pauseExecution_busy hn.1] at hp
    exact not_pausesNext vm hv ht hn.1 hn.2 (by omega) hp
  · exact absurd hp
      (not_pausesNext_counting vm hv ht ((counted_inductive vm).reachable s hr) hmax)

end

/-! ## A request that is swallowed -/

/-- Step over from the pause, and call a function. -/
def stepOverActs : List (Act Unit) :=
  pauseActs ++ [.resume .stepOver, .wake, .hook (.c nameA 7), .hookNext false, .hookNext false,
    .hookNext false]

/-- The state after `stepOverActs`: a step over is outstanding, one call deeper. -/
def steppingState : State Unit where
  pauseRequested := .stepOver
  pauseMutexData :=
    { isPaused := false, returnsRequired := 1,
      breakpoints := (({} : BreakpointMap).ensureFileNameHandle id nameA.text).1 }
  vmData :=
    { vm := some 1, currentStack := [⟨some 0, 7⟩, ⟨some 0, 5⟩],
      fileNameHandles := Function.update (fun _ => none) 1 (some (some 0)) }
  eventInterface := true
  thread := .script
  script := ()

theorem steppingState_reachable : (lts idleVm).Reachable steppingState :=
  (reachable_of_runActs idleVm true () stepOverActs rfl
    (by simp [stepOverActs, pauseActs, Act.ListenerReturns])).of_restrict

theorem pause_takes_effect_fresh :
    ∃ s : State Unit, s.pauseRequested = .none ∧ PausesNext idleVm (pauseExecution s).1 :=
  ⟨addVm (fresh true ()) 1, rfl,
    (pause_takes_effect idleVm (addVm (fresh true ()) 1)
      (reachable_of_runActs idleVm true () [.addVm 1] rfl
        (by simp [Act.ListenerReturns])).of_restrict rfl (by simp [addVm, fresh])).2.1
      ⟨.inl rfl, by simp [addVm, fresh]⟩⟩

/-- In this reachable state a VM is attached and runs script, and
`PauseExecution` returns `Success`; but a line event on line 10, with no
breakpoint set anywhere, then does not pause. -/
theorem pause_ignored :
    (lts idleVm).Reachable steppingState ∧ steppingState.vmData.vm.isSome = true ∧
      steppingState.thread = .script ∧ (pauseExecution steppingState).2 = .success ∧
      ¬ PausesNext idleVm (pauseExecution steppingState).1 := by
  refine ⟨steppingState_reachable, rfl, rfl, rfl, fun hp => ?_⟩
  have hrun : ∃ t, (beforeLine idleVm).Run (pauseExecution steppingState).1
      [⟨.hook (.l 10), .silent⟩, ⟨.hookNext false, .silent⟩] t ∧
      t.thread = .stopping 10 (some 0) ∧
      ∃ t', exec idleVm t (.hookNext false) = some (t', .silent) := by
    refine ⟨_, .cons ⟨rfl, trivial, ?_, ?_⟩ (.single ⟨rfl, trivial, ?_, ?_⟩), rfl, _, rfl⟩
    · rintro ⟨⟨line, handle, h⟩, -⟩
      cases h
    · exact id
    · rintro ⟨⟨line, handle, h⟩, -⟩
      cases h
    · rintro (⟨h, -⟩ | ⟨h, -⟩) <;> cases h
  obtain ⟨t, hr, ht, t', hstep⟩ := hrun
  obtain ⟨⟨status, h⟩, -⟩ := (hp _ t hr 10 false t' .silent hstep).2 (some 0) ht
  cases h

end Sdb.L2
