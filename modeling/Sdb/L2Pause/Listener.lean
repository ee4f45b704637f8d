import Sdb.L2Pause.Wakeup

/-!
# A listener that throws

The hook sets `isPaused` before it calls `eventInterface_->HandleStatusChanged`,
and clears it after the wait. An exception of the listener leaves the hook in
between: the lock is released, the script goes on, and the flag stays up. "We can
only safely read Squirrel state once the pause is confirmed"
(SquirrelDebugger.h:81-83) is then no longer true of the flag.

* `fakePause_run`: the flag stays up until the VM pauses again or is detached;
* `thrown_listener_fakes_pause`: this happens whenever the listener throws.
-/
namespace Sdb.L2

open Sdb.L1

section
variable {V : Type} (vm : VmAccess V)

/-- Some step of the run showed a pause. -/
def Pauses (ls : List (Lbl V)) : Prop := ∃ l ∈ ls, ∃ status, l.res = .paused status

/-- The commands that need a pause are refused in `s`. `GetImmediateValue` checks
its text first. -/
def RefusesAsNotPaused (s : State V) : Prop :=
  (∀ c, c ≠ .continueExecution → (resume s c).2 = .invalidNotPaused) ∧
    ∀ call, (∀ stackFrame watch pagination,
      call = .getImmediateValue stackFrame watch pagination → vm.parses watch = true) →
      refused vm s call = some .invalidNotPaused

/-- The commands that need a pause are not refused as not paused. -/
def TakesAsPaused (s : State V) : Prop :=
  (∀ c, c ≠ .continueExecution → (resume s c).2 = .success) ∧
    ∀ call, refused vm s call ≠ some .invalidNotPaused

/-- The flag is up and the VM thread is not in the wait. -/
structure FakePause (s : State V) : Prop where
  isPaused : s.pauseMutexData.isPaused = true
  thread : ∀ n, s.thread ≠ .waiting n

theorem takesAsPaused {s : State V} (h : s.pauseMutexData.isPaused = true) :
    TakesAsPaused vm s := by
  constructor
  · intro c hc
    apply resume_success_iff.mpr
    cases c with
    | continueExecution => exact absurd rfl hc
    | stepIn => exact h
    | stepOver => exact h
    | stepOut => exact h
  · intro call
    cases call with
    | getStackVariables stackFrame path pagination =>
      simp only [refused, h, Bool.not_true, Bool.false_eq_true, if_false]
      split <;> simp
    | getGlobalVariables path pagination => simp [refused, h]
    | setStackVariableValue stackFrame path newValueString =>
      simp only [refused, h, Bool.not_true, Bool.false_eq_true, if_false]
      split <;> simp
    | getImmediateValue stackFrame watch pagination =>
      simp only [refused, h, Bool.not_true, Bool.false_eq_true, if_false]
      split <;> simp

/-! ## Until the next pause -/

theorem FakePause.of_frame {s s' : State V} (hp : s'.pauseMutexData.isPaused =
    s.pauseMutexData.isPaused) (ht : s'.thread = s.thread) (h : FakePause s) : FakePause s' :=
  ⟨hp.trans h.isPaused, fun n => ht ▸ h.thread n⟩

theorem fakePause_hookNext {s s' : State V} {throws : Bool} {res : Res} (hf : FakePause s)
    (hp : ∀ status, res ≠ .paused status) (h : HookNext vm s throws s' res) : FakePause s' := by
  have hflag := hf.isPaused
  cases h with
  | @call sourceName line _ =>
    obtain ⟨-, h₂, -, -, -, h₆⟩ := hookCall_control vm s sourceName line
    exact ⟨h₂.trans hflag, by simp [h₆]⟩
  | called _ =>
    refine ⟨?_, hookCalled_running s⟩
    rw [hookCalled_eq]
    exact hflag
  | counted _ => exact ⟨hflag, by simp [hookCounted]⟩
  | returned _ =>
    rw [hookReturned_eq]
    exact ⟨hflag, by simp⟩
  | stops _ _ => exact absurd rfl (hp _)
  | ret _ _ => exact ⟨hflag, by simp⟩
  | line _ _ => exact ⟨hflag, by simp⟩
  | fault _ _ => exact ⟨hflag, by simp⟩
  | other _ => exact ⟨hflag, by simp⟩
  | runs _ _ => exact ⟨hflag, by simp⟩

theorem fakePause_step {s s' : State V} {l : Lbl V} (hf : FakePause s)
    (hl : (∀ status, l.res ≠ .paused status) ∧ l.act ≠ .detachVmLocked)
    (h : (lts vm).step s l s') : FakePause s' := by
  obtain ⟨a, res⟩ := l
  obtain ⟨hp, hd⟩ := hl
  cases exec_inv vm ((lts_step vm).mp h) with
  | passive _ hs => exact hf.of_frame hs.isPaused hs.thread
  | detachVm => exact hf.of_frame (detachVm_frame s).isPaused (detachVm_frame s).thread
  | detachVmLocked => exact absurd rfl hd
  | pauseExecution =>
    obtain ⟨-, h₂, -, h₄⟩ := pauseExecution_spec s
    exact hf.of_frame h₂ h₄
  | @accepted c _ =>
    obtain ⟨h₁, -, h₃⟩ := resume_frame s c
    exact hf.of_frame h₁ (h₃ hf.thread)
  | refused _ => exact hf
  | unattached _ _ => exact hf
  | hook _ _ => exact ⟨hf.isPaused, by simp⟩
  | hookNext hn => exact fakePause_hookNext vm hf hp hn
  | wake ht => exact absurd ht (hf.thread _)

theorem fakePause_run {s t : State V} {ls : List (Lbl V)} (hf : FakePause s)
    (h : (lts vm).Run s ls t) (hp : ¬ Pauses ls) (hd : ∀ l ∈ ls, l.act ≠ .detachVmLocked) :
    FakePause t := by
  refine h.invariant (fun l => (∀ status, l.res ≠ .paused status) ∧ l.act ≠ .detachVmLocked)
    FakePause (fun l hl => ⟨fun status hres => hp ⟨l, hl, status, hres⟩, hd l hl⟩) hf ?_
  intro u l u' hl hu hs
  exact fakePause_step vm hu hl hs

/-! ## Main result -/

/-- The line branch with a listener that throws. -/
theorem hookStop_throws {s : State V} {line : Int} {handle : FileNameHandle}
    (he : s.eventInterface = true) (h : Stops s line handle) :
    FakePause (hookStop vm s line handle true).1 ∧
      (hookStop vm s line handle true).1.thread = .script := by
  have ht : (hookStop vm s line handle true).1.thread = .script := by
    unfold hookStop
    dsimp only
    repeat' split
    all_goals simp_all
  exact ⟨⟨(hookStop_stops vm true h).2.2.1, by simp [ht]⟩, ht⟩

/-- **A listener that throws fakes a pause.** Whatever the state in which a line
event decides to pause: if there is a listener and it throws, the script goes on
with `isPaused` set. The commands that need a pause are then not refused, on
every run until the VM pauses again or is detached. So in none of these states
does the exception leave the debugger refusing them. -/
theorem thrown_listener_fakes_pause (s s' : State V) (line : Int) (handle : FileNameHandle)
    (res : Res) (ht : s.thread = .stopping line handle) (hst : Stops s line handle)
    (he : s.eventInterface = true) (h : exec vm s (.hookNext true) = some (s', res)) :
    s'.thread = .script ∧ s'.pauseMutexData.isPaused = true ∧
      (∀ ls t, (lts vm).Run s' ls t → ¬ Pauses ls → (∀ l ∈ ls, l.act ≠ .detachVmLocked) →
        t.pauseMutexData.isPaused = true ∧ TakesAsPaused vm t) ∧
      ¬ ∀ ls t, (lts vm).Run s' ls t → ¬ Pauses ls → RefusesAsNotPaused vm t := by
  simp only [exec, hookNext_stopping vm true ht, Option.some.injEq] at h
  obtain ⟨hfake, hscript⟩ := hookStop_throws vm he hst
  rw [h] at hfake hscript
  refine ⟨hscript, hfake.isPaused, fun ls t hr hp hd => ?_, fun hrefuses => ?_⟩
  · have hft := fakePause_run vm hfake hr hp hd
    exact ⟨hft.isPaused, takesAsPaused vm hft.isPaused⟩
  · have hnone : ¬ Pauses ([] : List (Lbl V)) := by simp [Pauses]
    have href := (hrefuses [] s' (.nil s') hnone).1 .stepIn (by simp)
    rw [(takesAsPaused vm hfake.isPaused).1 .stepIn (by simp)] at href
    cases href

end

/-! ## A broken connection -/

/-- `pauseActs` up to the decision of the line event. -/
def beforePauseActs : List (Act Unit) :=
  [.addVm 1, .pauseExecution, .hook (.c nameA 1), .hookNext false, .hookNext false,
    .hook (.l 5), .hookNext false]

/-- The state after `beforePauseActs`. -/
def beforePauseState : State Unit :=
  { pausedState with
    pauseMutexData := { pausedState.pauseMutexData with isPaused := false, status := {} }
    thread := .stopping 5 (some 0) }

theorem beforePauseState_reachable : (lts idleVm).Reachable beforePauseState :=
  (reachable_of_runActs idleVm true () beforePauseActs rfl
    (by simp [beforePauseActs, Act.ListenerReturns])).of_restrict

theorem beforePauseState_stops : Stops beforePauseState 5 (some 0) :=
  .inr ⟨nofun, (by decide : (-1 : Int) ≤ 0)⟩

theorem thrown_listener_fakes_pause_beforePauseState :
    ∃ s', exec idleVm beforePauseState (.hookNext true) =
        some (s', .paused { runState := .paused }) ∧ s'.pauseMutexData.isPaused = true :=
  ⟨_, rfl, (thrown_listener_fakes_pause idleVm beforePauseState _ 5 (some 0) _ rfl
    beforePauseState_stops rfl rfl).2.1⟩

/-- In this reachable state a line event decides to pause, and the listener
throws: the script runs on, a step command returns `Success`, and
`GetGlobalVariables` reads the VM. -/
theorem thrown_listener_shows_pause :
    ∃ s', (lts idleVm).Reachable beforePauseState ∧ Stops beforePauseState 5 (some 0) ∧
      exec idleVm beforePauseState (.hookNext true) =
        some (s', .paused { runState := .paused }) ∧
      s'.thread = .script ∧ s'.pauseMutexData.isPaused = true ∧
      (∃ t, exec idleVm s' (.resume .stepOver) = some (t, .rc .success)) ∧
      ∃ t, exec idleVm s' (.data (.getGlobalVariables [] ⟨0, 10⟩)) =
        some (t, .usedVm (some .success)) :=
  ⟨_, beforePauseState_reachable, beforePauseState_stops, rfl, rfl, rfl, ⟨_, rfl⟩, _, rfl⟩

end Sdb.L2
