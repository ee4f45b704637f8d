import Sdb.L2Pause.Wakeup

/-!
# What is left after `DetachVm`

The hook tests `vmData_->vm` once, when it is entered, and not again under the
lock. A `DetachVm` that runs in between clears the request, the call stack and
the VM, but not the position of the VM thread: a line event that has read its
frame still takes the lock, and pauses there if a request has been made again or
a breakpoint is set; and an event that has not used its frame yet finds the call
stack empty.

* `detached_run`: what holds after a detach that meets the thread elsewhere;
* `detach_final`: a detach is final, and leads to no undefined access, exactly if it
  does not meet the thread in this gap (`InGap`);
* `pause_after_detach`: a detached VM thread blocked in the hook.
-/
namespace Sdb.L2

open Sdb.L1

section
variable {V : Type} (vm : VmAccess V)

/-- The VM thread has read its frame and has yet to take the lock. -/
def BeforeLock (s : State V) : Prop := ∃ line handle, s.thread = .stopping line handle

/-- The VM thread has passed the test of `vm` in an event that uses the frame on
top of the call stack, and has yet to do so. -/
def BeforeFrame (s : State V) : Prop :=
  s.thread = .entered .r ∨ ∃ line, s.thread = .entered (.l line)

/-- The VM thread is between the hook's test of `vm` and its locked section. -/
def InGap (s : State V) : Prop := BeforeLock s ∨ BeforeFrame s

/-- No pause is shown, and the VM thread is not blocked in the hook and has done nothing
undefined. -/
structure AtRest (s : State V) : Prop where
  isPaused : s.pauseMutexData.isPaused = false
  unblocked : s.thread ≠ .waiting false
  defined : s.thread ≠ .fault

/-- `P` holds from `s` on, until the next `AddVm`. -/
def UntilAddVm (P : State V → Prop) (s : State V) : Prop :=
  ∀ ls t, (lts vm).Run s ls t → (∀ l ∈ ls, ∀ handle, l.act ≠ .addVm handle) → P t

/-- The VM thread is on its way out of the hook, or outside it. -/
def Leaving : VmThread → Prop
  | .stopping _ _ | .waiting false | .entered .r | .entered (.l _) | .fault => False
  | _ => True

structure Detached (s : State V) : Prop where
  vm : s.vmData.vm = none
  isPaused : s.pauseMutexData.isPaused = false
  thread : Leaving s.thread

theorem Detached.atRest {s : State V} (h : Detached s) : AtRest s := by
  refine ⟨h.isPaused, fun hw => ?_, fun hf => ?_⟩
  · have ht := h.thread
    rw [hw] at ht
    exact ht
  · have ht := h.thread
    rw [hf] at ht
    exact ht

/-- Of the passive actions only `AddVm` touches the VM's data. -/
theorem passive_vmData {s s' : State V} {a : Act V} {res : Res} (ha : a.Passive)
    (hv : ∀ handle, a ≠ .addVm handle) (h : exec vm s a = some (s', res)) :
    s'.vmData.vm = s.vmData.vm := by
  rcases passive_inv vm ha h with ⟨handle, heq, -⟩ | ⟨file, bps, -, rfl⟩ | ⟨v, rfl⟩
  · exact absurd heq (hv handle)
  · unfold setFileBreakpoints
    split <;> rfl
  · rfl

/-! ## After the detach -/

theorem leaving_of_outside {s : State V} (hw : s.thread ≠ .waiting false)
    (hgap : ¬ InGap s) (hf : s.thread ≠ .fault) : Leaving s.thread := by
  unfold Leaving
  split
  · rename_i line handle ht
    exact hgap (.inl ⟨line, handle, ht⟩)
  · rename_i ht
    exact hw ht
  · rename_i ht
    exact hgap (.inr (.inl ht))
  · rename_i line ht
    exact hgap (.inr (.inr ⟨line, ht⟩))
  · rename_i ht
    exact hf ht
  · trivial

theorem leaving_notifyAll {s : State V} (h : Leaving s.thread) : Leaving (notifyAll s).thread := by
  unfold notifyAll
  split
  · trivial
  · exact h

theorem detached_detachVmLocked {s : State V} (ha : Armed s) (hgap : ¬ InGap s)
    (hf : s.thread ≠ .fault) : Detached (detachVmLocked s) := by
  obtain ⟨-, hp, hv⟩ := detachVmLocked_spec s
  refine ⟨by rw [hv], hp, ?_⟩
  have hw := armed_detachVmLocked ha
  rcases detachVmLocked_stays s with ht | ⟨n, ht⟩
  · rw [ht] at hw ⊢
    exact leaving_of_outside hw hgap hf
  · rw [ht] at hw ⊢
    cases n with
    | true => trivial
    | false => exact absurd rfl hw

theorem detached_hookNext {s s' : State V} {throws : Bool} {res : Res} (hd : Detached s)
    (h : HookNext vm s throws s' res) : Detached s' := by
  have ht := hd.thread
  cases h with
  | @call sourceName line _ =>
    obtain ⟨-, h₂, -, h₄, -, h₆⟩ := hookCall_control vm s sourceName line
    exact ⟨h₄.trans hd.vm, h₂.trans hd.isPaused, by simp [Leaving, h₆]⟩
  | other _ => exact ⟨hd.vm, hd.isPaused, trivial⟩
  | called _ =>
    refine ⟨?_, ?_, ?_⟩
    · rw [hookCalled_eq]
      exact hd.vm
    · rw [hookCalled_eq]
      exact hd.isPaused
    · rcases hookCalled_thread s with e | e <;> rw [e] <;> trivial
  | counted _ => exact ⟨hd.vm, hd.isPaused, trivial⟩
  | returned _ =>
    rw [hookReturned_eq]
    exact ⟨hd.vm, hd.isPaused, trivial⟩
  | fault hth _ => rcases hth with hth | ⟨line, hth⟩ <;> simp [Leaving, hth] at ht
  | ret hth _ => simp [Leaving, hth] at ht
  | line hth _ => simp [Leaving, hth] at ht
  | stops hth _ => simp [Leaving, hth] at ht
  | runs hth _ => simp [Leaving, hth] at ht

theorem detached_step {s s' : State V} {l : Lbl V} (hd : Detached s)
    (ha : ∀ handle, l.act ≠ .addVm handle) (h : (lts vm).step s l s') : Detached s' := by
  obtain ⟨a, res⟩ := l
  have hx := (lts_step vm).mp h
  cases exec_inv vm hx with
  | passive hp hf =>
    exact ⟨(passive_vmData vm hp ha hx).trans hd.vm, hf.isPaused.trans hd.isPaused,
      hf.thread ▸ hd.thread⟩
  | detachVm =>
    have hsame : detachVm s = s := by simp [detachVm, hd.vm]
    rw [hsame]
    exact hd
  | detachVmLocked =>
    refine detached_detachVmLocked (armed_of_thread hd.atRest.unblocked) (fun hb => ?_)
      hd.atRest.defined
    have ht := hd.thread
    rcases hb with ⟨line, handle, hth⟩ | hth | ⟨line, hth⟩ <;> simp [Leaving, hth] at ht
  | pauseExecution =>
    obtain ⟨-, h₂, h₃, h₄⟩ := pauseExecution_spec s
    exact ⟨(congrArg VmData.vm h₃).trans hd.vm, h₂.trans hd.isPaused, h₄ ▸ hd.thread⟩
  | @accepted c hc =>
    obtain ⟨h₁, h₂, -⟩ := resume_frame s c
    refine ⟨(congrArg VmData.vm h₂).trans hd.vm, h₁.trans hd.isPaused, ?_⟩
    rw [resume_accepted hc]
    exact leaving_notifyAll hd.thread
  | refused _ => exact hd
  | unattached _ _ => exact hd
  | hook _ hv => simp [hd.vm] at hv
  | hookNext hn => exact detached_hookNext vm hd hn
  | wake _ => exact ⟨hd.vm, rfl, trivial⟩

theorem detached_run {s t : State V} {ls : List (Lbl V)} (hd : Detached s)
    (ha : ∀ l ∈ ls, ∀ handle, l.act ≠ .addVm handle) (h : (lts vm).Run s ls t) : Detached t :=
  h.invariant (fun l => ∀ handle, l.act ≠ .addVm handle) Detached ha hd
    fun _ _ _ hl hu hs => detached_step vm hu hl hs

/-! ## A detach in the gap -/

/-- Outside the wait a detach does not move the thread. -/
theorem detachVmLocked_moves {s : State V} (h : ∀ n, s.thread ≠ .waiting n) :
    (detachVmLocked s).thread = s.thread := by
  rw [detachVmLocked_thread]
  split
  · rfl
  · unfold notifyAll
    split
    · rename_i n hn
      exact absurd hn (h n)
    · rfl

/-- Before the lock: a pause request made after the detach blocks the thread. -/
theorem pauses_after_detach {s : State V} (h : BeforeLock s) :
    ∃ t status, (lts vm).Run (detachVmLocked s)
        [⟨.pauseExecution, .rc .success⟩, ⟨.hookNext false, .paused status⟩] t ∧
      t.vmData.vm = none ∧ t.pauseMutexData.isPaused = true ∧ t.thread = .waiting false := by
  obtain ⟨line, handle, hth⟩ := h
  obtain ⟨hreq, -, hvm⟩ := detachVmLocked_spec s
  have hth₁ : (detachVmLocked s).thread = .stopping line handle := by
    rw [detachVmLocked_moves (by simp [hth]), hth]
  let u := (pauseExecution (detachVmLocked s)).1
  have hu : u = { detachVmLocked s with
      pauseRequested := .pause
      pauseMutexData := { (detachVmLocked s).pauseMutexData with returnsRequired := -1 } } :=
    pauseExecution_idle hreq
  have hst : Stops u line handle := by
    right
    rw [hu]
    exact ⟨nofun, (by decide : (-1 : Int) ≤ 0)⟩
  have hstep : exec vm u (.hookNext false) = some (hookStop vm u line handle false) := by
    simp only [exec]
    exact hookNext_stopping vm false (by rw [hu]; exact hth₁)
  obtain ⟨h₁, -, h₂, -, -, h₃, h₄⟩ := hookStop_stops vm false hst
  have hreq₁ : (lts vm).step (detachVmLocked s) ⟨.pauseExecution, .rc .success⟩ u :=
    (lts_step vm).mpr (by simp only [exec, pauseExecution_code, u])
  have hstop : (lts vm).step u ⟨.hookNext false, .paused (pauseStatus vm u line handle)⟩
      (hookStop vm u line handle false).1 :=
    (lts_step vm).mpr (by rw [hstep, ← h₁])
  refine ⟨_, _, .cons hreq₁ (.single hstop), ?_, h₂, h₄ rfl⟩
  rw [h₃, hu]
  exact congrArg VmData.vm hvm

/-- Before the frame: the thread uses the frame on top of an empty stack. -/
theorem faults_after_detach {s : State V} (h : BeforeFrame s) :
    ∃ t, (lts vm).Run (detachVmLocked s) [⟨.hookNext false, .silent⟩] t ∧ t.thread = .fault := by
  obtain ⟨-, -, hvm⟩ := detachVmLocked_spec s
  have hstk : (detachVmLocked s).vmData.currentStack = [] := by rw [hvm]
  have hth : (detachVmLocked s).thread = s.thread := by
    apply detachVmLocked_moves
    intro n
    rcases h with h | ⟨line, h⟩ <;> simp [h]
  refine ⟨{ detachVmLocked s with thread := .fault }, .single ((lts_step vm).mpr ?_), rfl⟩
  rcases h with h | ⟨line, h⟩
  · simp [exec, hookNext, hth, h, hookReturn_empty hstk]
  · simp [exec, hookNext, hth, h, hookLine_empty line hstk]

/-! ## Main result -/

theorem exec_detachVmLocked {s s' : State V} {res : Res}
    (h : exec vm s .detachVmLocked = some (s', res)) : s' = detachVmLocked s := by
  simp only [exec] at h
  split at h
  · cases h
  · simp only [Option.some.injEq, Prod.mk.injEq] at h
    exact h.1.symm

/-- Only `DetachVm` takes the VM away. -/
theorem vm_step {s s' : State V} {l : Lbl V} (h : (lts vm).step s l s')
    (hv : s'.vmData.vm = none) : s.vmData.vm = none ∨ l.act = .detachVmLocked := by
  obtain ⟨a, res⟩ := l
  cases exec_inv vm ((lts_step vm).mp h) with
  | passive _ hf =>
    left
    by_contra hn
    have hsome := hf.attached (Option.isSome_iff_ne_none.mpr hn)
    simp [hv] at hsome
  | detachVm =>
    left
    unfold detachVm at hv
    split at hv <;> exact hv
  | detachVmLocked => exact .inr rfl
  | pauseExecution => exact .inl ((congrArg VmData.vm (pauseExecution_spec s).2.2.1) ▸ hv)
  | @accepted c _ => exact .inl ((congrArg VmData.vm (resume_frame s c).2.1) ▸ hv)
  | refused _ => exact .inl hv
  | unattached _ _ => exact .inl hv
  | hook _ _ => exact .inl hv
  | hookNext hn =>
    left
    cases hn with
    | @call sourceName line _ => exact (hookCall_control vm s sourceName line).2.2.2.1 ▸ hv
    | called _ =>
      rw [hookCalled_eq] at hv
      exact hv
    | returned _ =>
      rw [hookReturned_eq] at hv
      exact hv
    | @stops line handle _ hst =>
      exact (congrArg VmData.vm (hookStop_stops vm _ hst).2.2.2.2.2.1) ▸ hv
    | _ => exact hv
  | wake _ => exact .inl hv

/-- The critical section of `DetachVm` does not meet the thread in the gap, nor after an
undefined access. -/
def DetachesOutside (s : State V) (l : Lbl V) : Prop :=
  l.act = .detachVmLocked → ¬ InGap s ∧ s.thread ≠ .fault

theorem detached_inductive :
    ((lts vm).restrict DetachesOutside).Inductive
      fun s => Armed s ∧ (s.vmData.vm = none → Detached s) where
  init := by
    intro s hs
    refine ⟨(armed_inductive vm).init s hs, fun _ => ?_⟩
    obtain ⟨e, v, rfl⟩ := hs
    exact ⟨rfl, rfl, trivial⟩
  step := by
    intro s l s' hi h
    obtain ⟨harmed, hd⟩ := hi
    obtain ⟨hst, hout⟩ := h
    refine ⟨(armed_inductive vm).step s l s' harmed hst, fun hv => ?_⟩
    rcases vm_step vm hst hv with hnone | hact
    · refine detached_step vm (hd hnone) (fun handle hl => ?_) hst
      obtain ⟨a, res⟩ := l
      obtain rfl : a = .addVm handle := hl
      have hx := (lts_step vm).mp hst
      simp only [exec, Option.some.injEq, Prod.mk.injEq] at hx
      obtain ⟨rfl, -⟩ := hx
      cases hv
    · obtain ⟨hgap, hf⟩ := hout hact
      obtain ⟨a, res⟩ := l
      obtain rfl : a = .detachVmLocked := hact
      rw [exec_detachVmLocked vm ((lts_step vm).mp hst)]
      exact detached_detachVmLocked harmed hgap hf

/-- **When detaching is final.** In every state of every run whose detaches do not meet
the VM thread in the gap, with no VM attached no pause is shown and the thread is neither
blocked nor at an undefined access. For a single detach this is exact: from there until
the next `AddVm` it holds on every run if and only if the detach did not meet the thread
in the gap. -/
theorem detach_final :
    (∀ s, ((lts vm).restrict DetachesOutside).Reachable s → s.vmData.vm = none → AtRest s) ∧
      ∀ s s' res, (lts vm).Reachable s → s.thread ≠ .fault →
        exec vm s .detachVmLocked = some (s', res) →
        (UntilAddVm vm AtRest s' ↔ ¬ InGap s) := by
  refine ⟨fun s hr hv => (((detached_inductive vm).reachable s hr).2 hv).atRest,
    fun s s' res hr hf h => ?_⟩
  obtain rfl := exec_detachVmLocked vm h
  have harmed : Armed s := (armed_inductive vm).reachable s hr
  constructor
  · intro hrest hgap
    rcases hgap with hb | hb
    · obtain ⟨t, status, hrun, -, hp, -⟩ := pauses_after_detach vm hb
      have hat := (hrest _ t hrun (by simp)).isPaused
      rw [hp] at hat
      cases hat
    · obtain ⟨t, hrun, hfault⟩ := faults_after_detach vm hb
      exact (hrest _ t hrun (by simp)).defined hfault
  · intro hgap ls t hrun ha
    exact (detached_run vm (detached_detachVmLocked harmed hgap hf) ha hrun).atRest

end

/-! ## A pause on a detached VM -/

/-- The script has called a function and reached line 5; the hook has read its
frame, and `DetachVm` has passed its test. -/
def gapActs : List (Act Unit) :=
  [.addVm 1, .hook (.c nameA 1), .hookNext false, .hookNext false, .hook (.l 5),
    .hookNext false, .detachVm]

/-- The state after `gapActs`. -/
def gapState : State Unit where
  pauseMutexData :=
    { breakpoints := (({} : BreakpointMap).ensureFileNameHandle id nameA.text).1 }
  vmData :=
    { vm := some 1, currentStack := [⟨some 0, 5⟩],
      fileNameHandles := Function.update (fun _ => none) 1 (some (some 0)) }
  eventInterface := true
  thread := .stopping 5 (some 0)
  detaching := 1
  script := ()

theorem gapState_reachable : (lts idleVm).Reachable gapState :=
  (reachable_of_runActs idleVm true () gapActs rfl
    (by simp [gapActs, Act.ListenerReturns])).of_restrict

theorem detach_final_pausedState :
    UntilAddVm idleVm AtRest (detachVmLocked (detachVm pausedState)) := by
  have hstep : (lts idleVm).step pausedState ⟨.detachVm, .silent⟩ (detachVm pausedState) := rfl
  have hr := pausedState_reachable.of_restrict.run (.single hstep)
  refine ((detach_final idleVm).2 (detachVm pausedState) _ .silent hr ?_ rfl).mpr ?_
  · exact nofun
  · rintro (⟨line, handle, h⟩ | h | ⟨line, h⟩) <;> cases h

/-- From this reachable state `DetachVm` returns; a client requests a pause; and
the VM thread blocks in the hook, shown as paused on no VM. -/
theorem pause_after_detach :
    ∃ s' ls t, (lts idleVm).Reachable gapState ∧
      exec idleVm gapState .detachVmLocked = some (s', .silent) ∧
      (lts idleVm).Run s' ls t ∧ (∀ l ∈ ls, ∀ handle, l.act ≠ .addVm handle) ∧
      t.vmData.vm = none ∧ t.pauseMutexData.isPaused = true ∧ t.thread = .waiting false := by
  have hb : BeforeLock gapState := ⟨5, some 0, rfl⟩
  obtain ⟨t, status, hrun, ht⟩ := pauses_after_detach idleVm hb
  exact ⟨detachVmLocked gapState, _, t, gapState_reachable, rfl, hrun, by simp, ht⟩

end Sdb.L2
