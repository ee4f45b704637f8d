import Sdb.L2Pause.Steps

/-!
# A request, then its confirmation

"First a pause is requested, then it is confirmed. We can only safely read
Squirrel state once the pause is confirmed" (SquirrelDebugger.h:81-83). The
confirmation is `isPaused`. `PauseInv` ties it to the wait in the hook: a
confirmed pause is a VM thread in the wait, and a VM thread in the wait that
nobody has notified is a confirmed pause with a request outstanding.

* `paused_in_wait`: in every reachable state a confirmed pause means the VM
  thread is in the wait, so no data command meets a running script;
* `blocked_resumes`: in every reachable state an un-notified wait is one every
  resume command ends.

The listener is assumed to return: `ltsReturns`.
-/
namespace Sdb.L2

open Sdb.L1

section
variable {V : Type} (vm : VmAccess V)

structure PauseInv (s : State V) : Prop where
  paused : s.pauseMutexData.isPaused = true → ∃ n, s.thread = .waiting n
  blocked : s.thread = .waiting false →
    s.pauseMutexData.isPaused = true ∧ s.pauseRequested ≠ .none

theorem PauseInv.of_same {s s' : State V} (h : SameControl s s') (hi : PauseInv s) :
    PauseInv s' := by
  refine ⟨fun hp => ?_, fun hw => ?_⟩
  · rw [h.thread]
    exact hi.paused (h.isPaused ▸ hp)
  · rw [h.isPaused, h.pauseRequested]
    exact hi.blocked (h.thread ▸ hw)

/-- A state with no pause shown and no un-notified waiter. -/
theorem PauseInv.of_quiet {s : State V} (hp : s.pauseMutexData.isPaused = false)
    (hw : s.thread ≠ .waiting false) : PauseInv s :=
  ⟨fun h => absurd (hp.symm.trans h) (by decide), fun h => absurd h hw⟩

/-- While the VM thread is outside the wait no pause is confirmed. -/
theorem PauseInv.not_paused {s : State V} (hi : PauseInv s) (hw : ∀ n, s.thread ≠ .waiting n) :
    s.pauseMutexData.isPaused = false := by
  cases hp : s.pauseMutexData.isPaused with
  | false => rfl
  | true =>
    obtain ⟨n, hn⟩ := hi.paused hp
    exact absurd hn (hw n)

theorem pauseInv_detachVmLocked {s : State V} (hi : PauseInv s) : PauseInv (detachVmLocked s) := by
  refine .of_quiet (detachVmLocked_spec s).2.1 ?_
  rw [detachVmLocked_thread]
  split
  · rename_i hn
    exact fun hw => (hi.blocked hw).2 hn
  · unfold notifyAll
    split
    · simp
    · rename_i hn
      exact hn false

theorem pauseInv_pauseExecution {s : State V} (hi : PauseInv s) :
    PauseInv (pauseExecution s).1 := by
  obtain ⟨h₁, h₂, -, h₄⟩ := pauseExecution_spec s
  refine ⟨fun hp => ?_, fun hw => ?_⟩
  · rw [h₄]
    exact hi.paused (h₂ ▸ hp)
  · rw [h₂]
    exact ⟨(hi.blocked (h₄ ▸ hw)).1, h₁⟩

theorem pauseInv_resume {s : State V} (c : Resume) (hi : PauseInv s) :
    PauseInv (resume s c).1 := by
  by_cases ha : Accepts s c
  · by_cases hw : ∃ n, s.thread = .waiting n
    · obtain ⟨n, hn⟩ := hw
      rw [resume_notifies ha hn]
      exact ⟨fun _ => ⟨true, rfl⟩, fun h => by cases h⟩
    · -- outside the wait only `ContinueExecution` can be accepted; it notifies nobody
      have hw' : ∀ n, s.thread ≠ .waiting n := fun n e => hw ⟨n, e⟩
      obtain ⟨h₁, -, h₃⟩ := resume_frame s c
      refine .of_quiet (h₁.trans (hi.not_paused hw')) ?_
      rw [h₃ hw']
      exact hw' false
  · rw [resume_refused ha]
    exact hi

theorem pauseInv_hookNext {s s' : State V} {res : Res} (hi : PauseInv s)
    (h : HookNext vm s false s' res) : PauseInv s' := by
  have hidle := fun hw => hi.not_paused (s := s) hw
  cases h with
  | @call sourceName line ht =>
    obtain ⟨-, h₂, -, -, -, h₃⟩ := hookCall_control vm s sourceName line
    exact .of_quiet (h₂.trans (hidle (by simp [ht]))) (by simp [h₃])
  | ret ht _ => exact .of_quiet (hidle (by simp [ht])) (by simp)
  | line ht _ => exact .of_quiet (hidle (by simp [ht])) (by simp)
  | fault ht _ =>
    exact .of_quiet (hidle (by rcases ht with ht | ⟨line, ht⟩ <;> simp [ht])) (by simp)
  | other ht => exact .of_quiet (hidle (by simp [ht])) (by simp)
  | called ht =>
    refine .of_quiet ?_ (hookCalled_running s false)
    rw [hookCalled_eq]
    exact hidle (by simp [ht])
  | counted ht => exact .of_quiet (hidle (by simp [ht])) (by simp [hookCounted])
  | returned ht =>
    rw [hookReturned_eq]
    exact .of_quiet (hidle (by simp [ht])) (by simp)
  | stops ht hst =>
    obtain ⟨-, h₁, h₂, -, -, -, h₃⟩ := hookStop_stops vm false hst
    exact ⟨fun _ => ⟨false, h₃ rfl⟩, fun _ => ⟨h₂, h₁⟩⟩
  | runs ht _ => exact .of_quiet (hidle (by simp [ht])) (by simp)

theorem pauseInv_step {s s' : State V} {a : Act V} {res : Res} (hi : PauseInv s)
    (h : Exec vm s a s' res) (ha : a.ListenerReturns) : PauseInv s' := by
  cases h with
  | passive _ hf => exact hi.of_same hf
  | detachVm => exact hi.of_same (detachVm_frame s)
  | detachVmLocked => exact pauseInv_detachVmLocked hi
  | pauseExecution => exact pauseInv_pauseExecution hi
  | @accepted c _ => exact pauseInv_resume c hi
  | refused _ => exact hi
  | unattached _ _ => exact hi
  | hook ht _ => exact .of_quiet (hi.not_paused (by simp [ht])) (by simp)
  | @hookNext throws _ _ hn =>
    obtain rfl : throws = false := ha
    exact pauseInv_hookNext vm hi hn
  | wake _ => exact .of_quiet rfl (by simp [wake])

theorem pauseInv_inductive : (ltsReturns vm).Inductive PauseInv where
  init := by rintro s ⟨e, v, rfl⟩; exact .of_quiet rfl (by simp [fresh])
  step := fun s l s' hi h =>
    have ⟨hx, ha⟩ := (ltsReturns_step vm).mp h
    pauseInv_step vm hi (exec_inv vm hx) ha

/-! ## Runs of concrete actions -/

def runActs (s : State V) : List (Act V) → Option (State V)
  | [] => some s
  | a :: as => (exec vm s a).bind fun p => runActs p.1 as

theorem run_of_runActs {s s' : State V} {as : List (Act V)} (h : runActs vm s as = some s')
    (hl : ∀ a ∈ as, a.ListenerReturns) :
    ∃ ls, ls.map Lbl.act = as ∧ (ltsReturns vm).Run s ls s' := by
  induction as generalizing s with
  | nil =>
    simp only [runActs, Option.some.injEq] at h
    subst h
    exact ⟨[], rfl, .nil s⟩
  | cons a as ih =>
    simp only [runActs, Option.bind_eq_some_iff] at h
    obtain ⟨⟨t, res⟩, h₁, h₂⟩ := h
    obtain ⟨ls, hm, hr⟩ := ih h₂ fun b hb => hl b (List.mem_cons_of_mem _ hb)
    exact ⟨⟨a, res⟩ :: ls, by simp [hm],
      .cons ((ltsReturns_step vm).mpr ⟨h₁, hl a List.mem_cons_self⟩) hr⟩

/-- The actions from a fresh debugger to a state lead to a reachable one. -/
theorem reachable_of_runActs {s : State V} (e : Bool) (v : V) (as : List (Act V))
    (h : runActs vm (fresh e v) as = some s) (hl : ∀ a ∈ as, a.ListenerReturns) :
    (ltsReturns vm).Reachable s := by
  obtain ⟨ls, -, hr⟩ := run_of_runActs vm h hl
  exact ⟨fresh e v, ls, ⟨e, v, rfl⟩, hr⟩

/-! ## Main results -/

/-- **A confirmed pause is a waiting VM thread.** In every reachable state
`isPaused` implies that the VM thread is in the wait of the hook; a data command
either is refused and changes nothing, or uses the VM while its thread is in
that wait; and the script takes no step while `isPaused` holds. -/
theorem paused_in_wait (s : State V) (hr : (ltsReturns vm).Reachable s) :
    (s.pauseMutexData.isPaused = true → ∃ n, s.thread = .waiting n) ∧
      (∀ call s' res, exec vm s (.data call) = some (s', res) →
        (∃ code, res = .rc code ∧ s' = s) ∨
          (∃ code n, res = .usedVm code ∧ s.pauseMutexData.isPaused = true ∧
            s.thread = .waiting n ∧ s'.thread = .waiting n)) ∧
      (∀ v s' res, exec vm s (.script v) = some (s', res) →
        s.pauseMutexData.isPaused = false) := by
  have hi := (pauseInv_inductive vm).reachable s hr
  refine ⟨hi.paused, fun call s' res h => ?_, fun v s' res h => ?_⟩
  · have hf : SameControl s s' := passive_frame vm (a := .data call) trivial h
    simp only [exec, dataCommand] at h
    split at h
    · rename_i code _
      simp only [Option.some.injEq, Prod.mk.injEq] at h
      obtain ⟨rfl, rfl⟩ := h
      exact .inl ⟨code, rfl, rfl⟩
    · rename_i hnone
      have hp : s.pauseMutexData.isPaused = true := by
        cases call <;> simp only [refused] at hnone <;> grind
      obtain ⟨n, hn⟩ := hi.paused hp
      simp only [Option.map_eq_some_iff, Prod.mk.injEq] at h
      obtain ⟨⟨v, code⟩, -, -, hres⟩ := h
      exact .inr ⟨code, n, hres.symm, hp, hn, hf.thread.trans hn⟩
  · simp only [exec] at h
    split at h
    · rename_i ht
      exact hi.not_paused fun n => by simp [ht]
    · cases h

/-- **A paused VM can be resumed.** In every reachable state in which the VM
thread waits and no notification has been sent since the wait began, the pause
is confirmed, a request is outstanding, and each resume command returns
`Success` and notifies. -/
theorem blocked_resumes (s : State V) (hr : (ltsReturns vm).Reachable s)
    (hw : s.thread = .waiting false) :
    s.pauseMutexData.isPaused = true ∧ s.pauseRequested ≠ .none ∧
      ∀ c : Resume, ∃ s', exec vm s (.resume c) = some (s', .rc .success) ∧
        s'.thread = .waiting true := by
  obtain ⟨hp, hq⟩ := ((pauseInv_inductive vm).reachable s hr).blocked hw
  refine ⟨hp, hq, fun c => ?_⟩
  have ha : Accepts s c := by cases c <;> assumption
  have hsuccess : (resume s c).2 = .success := resume_success_iff.mpr ha
  refine ⟨(resume s c).1, by simp only [exec, hsuccess], ?_⟩
  rw [resume_notifies ha hw]

end

/-! ## A run that pauses -/

/-- A VM without state whose data commands succeed. -/
def idleVm : VmAccess Unit where
  strToLower := id
  populateStack _ := []
  parses _ := true
  call _ _ := some ((), some .success)

/-- The source name `"a"` at address 1. -/
def nameA : SourceName := ⟨1, [97]⟩

/-- Attach, request a pause, call a function, reach line 5. -/
def pauseActs : List (Act Unit) :=
  [.addVm 1, .pauseExecution, .hook (.c nameA 1), .hookNext false, .hookNext false,
    .hook (.l 5), .hookNext false, .hookNext false]

/-- The state after `pauseActs`. -/
def pausedState : State Unit where
  pauseRequested := .pause
  pauseMutexData :=
    { isPaused := true, returnsRequired := -1,
      breakpoints := (({} : BreakpointMap).ensureFileNameHandle id nameA.text).1 }
  vmData :=
    { vm := some 1, currentStack := [⟨some 0, 5⟩],
      fileNameHandles := Function.update (fun _ => none) 1 (some (some 0)) }
  eventInterface := true
  thread := .waiting false
  script := ()

theorem pausedState_reachable : (ltsReturns idleVm).Reachable pausedState :=
  reachable_of_runActs idleVm true () pauseActs rfl
    (by simp [pauseActs, Act.ListenerReturns])

theorem paused_in_wait_pausedState :
    pausedState.pauseMutexData.isPaused = true ∧ ∃ n, pausedState.thread = .waiting n :=
  ⟨rfl, (paused_in_wait idleVm pausedState pausedState_reachable).1 rfl⟩

theorem blocked_resumes_pausedState :
    pausedState.thread = .waiting false ∧
      ∃ s', exec idleVm pausedState (.resume .stepOver) = some (s', .rc .success) ∧
        s'.thread = .waiting true :=
  ⟨rfl, (blocked_resumes idleVm pausedState pausedState_reachable rfl).2.2 .stepOver⟩

end Sdb.L2
