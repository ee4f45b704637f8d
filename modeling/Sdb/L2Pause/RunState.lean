import Sdb.L2Pause.Wakeup

/-!
# The run state `SendStatus` reports

`SendStatus` derives the run state from `pauseRequested_` and `isPaused`. Two
things are lost on the way: `PauseType::Pause` is `PauseType::StepIn`, so who made
the request, and `isPaused` stays up until the VM thread has woken, so whether a
step has been accepted in the meantime.

`Request` is the record of both, kept along the run beside the state: who made
the outstanding request, and whether a command took effect since the wait began.
`Reported` says what a client should be told.

* `record_inductive`: how the record and the state are related;
* `sendStatus_reports`: the report is right exactly if `Distinguished` holds;
* `status_misreports`: a step into that is reported first as a pause, and then as
  a pause request.
-/
namespace Sdb.L2

open Sdb.L1

section
variable {V : Type} (vm : VmAccess V)

/-- Who made a request. -/
inductive Maker where
  | pauseExecution
  | step (c : Resume)
  | breakpoint
  deriving DecidableEq, Repr

/-- The maker of the outstanding request, and whether a resume command or a
detach took effect since the VM thread last entered the wait. -/
structure Request where
  maker : Option Maker := none
  resumed : Bool := false
  deriving DecidableEq, Repr

def Resume.maker : Resume → Option Maker
  | .continueExecution => none
  | c => some (.step c)

/-- The line event at hand finds a breakpoint. -/
def atBreakpoint (s : State V) : Bool :=
  match s.thread with
  | .stopping line handle => (lineBreakpoint s.pauseMutexData.breakpoints line handle).1
  | _ => false

/-- The record after a step, from the state before it. -/
def observe (s : State V) (l : Lbl V) (r : Request) : Request :=
  match l.act with
  | .pauseExecution =>
    if s.pauseRequested = .none then { r with maker := some .pauseExecution } else r
  | .resume c => if Accepts s c then ⟨c.maker, true⟩ else r
  | .detachVmLocked => ⟨none, true⟩
  | .hookNext _ =>
    match l.res with
    | .paused _ => ⟨if atBreakpoint s then some .breakpoint else r.maker, false⟩
    | _ => r
  | _ => r

/-- The system with the record kept beside it. -/
def recorded : LTS (State V × Request) (Lbl V) := (lts vm).track {} observe

/-- Every reachable state has its record. -/
theorem recorded_reachable {s : State V} (h : (lts vm).Reachable s) :
    ∃ r, (recorded vm).Reachable (s, r) :=
  h.track ({} : Request) (observe (V := V))

/-- `Paused` exactly when the VM thread waits and nothing has resumed it;
otherwise by the maker of the outstanding request. A breakpoint's request is
outstanding only during its pause. -/
def Reported (s : State V) (r : Request) (runState : RunState) : Prop :=
  (runState = .paused ↔ (∃ n, s.thread = .waiting n) ∧ r.resumed = false) ∧
    (¬ ((∃ n, s.thread = .waiting n) ∧ r.resumed = false) →
      (r.maker = none → runState = .running) ∧
      (∀ c, r.maker = some (.step c) → runState = .stepping) ∧
      (r.maker = some .pauseExecution → runState = .pausing))

/-- A pause that is still shown is one nobody has resumed, or has no request; and
a request without a pause was not made by `StepIn`. -/
def Distinguished (s : State V) (r : Request) : Prop :=
  (s.pauseMutexData.isPaused = true → s.pauseRequested ≠ .none → s.thread = .waiting false) ∧
    (s.pauseMutexData.isPaused = false → r.maker ≠ some (.step .stepIn))

/-! ## The record and the state -/

def Maker.pauseType : Option Maker → PauseType
  | none => .none
  | some .pauseExecution => .pause
  | some (.step c) => c.pauseType
  | some .breakpoint => .pause

structure Records (s : State V) (r : Request) : Prop where
  pauseRequested : s.pauseRequested = Maker.pauseType r.maker
  notified : ∀ n, s.thread = .waiting n → r.resumed = n
  steps : r.maker ≠ some (.step .continueExecution)

theorem Records.of_frame {s s' : State V} {r : Request}
    (hp : s'.pauseRequested = s.pauseRequested) (ht : s'.thread = s.thread)
    (h : Records s r) : Records s' r :=
  ⟨hp.trans h.pauseRequested, fun n hn => h.notified n (ht ▸ hn), h.steps⟩

/-- A step of the VM thread that changes no request and does not enter the wait. -/
theorem Records.of_running {s s' : State V} {r : Request}
    (hp : s'.pauseRequested = s.pauseRequested) (ht : ∀ n, s'.thread ≠ .waiting n)
    (h : Records s r) : Records s' r :=
  ⟨hp.trans h.pauseRequested, fun n hn => absurd hn (ht n), h.steps⟩

theorem maker_pauseType (c : Resume) : Maker.pauseType c.maker = c.pauseType := by
  cases c <;> rfl

theorem maker_steps (c : Resume) : c.maker ≠ some (.step .continueExecution) := by
  cases c <;> simp [Resume.maker]

/-- A breakpoint makes a request of its own. -/
theorem hookStop_pauseRequested (s : State V) (line : Int) (handle : FileNameHandle)
    (throws : Bool) :
    (hookStop vm s line handle throws).1.pauseRequested =
      if (lineBreakpoint s.pauseMutexData.breakpoints line handle).1 then .pause
      else s.pauseRequested := by
  unfold hookStop
  dsimp only
  by_cases hb : (lineBreakpoint s.pauseMutexData.breakpoints line handle).1 = true
  · simp only [hb, if_true]
    split <;> rfl
  · simp only [hb, Bool.false_eq_true, if_false]
    split <;> rfl

/-- Nobody made the request exactly if there is none. -/
theorem pauseType_none {m : Option Maker} (hm : m ≠ some (.step .continueExecution)) :
    Maker.pauseType m = .none ↔ m = none := by
  cases m with
  | none => simp [Maker.pauseType]
  | some m =>
    cases m with
    | step c =>
      cases c with
      | continueExecution => exact absurd rfl hm
      | stepIn => simp [Maker.pauseType, Resume.pauseType]
      | stepOver => simp [Maker.pauseType, Resume.pauseType]
      | stepOut => simp [Maker.pauseType, Resume.pauseType]
    | pauseExecution => simp [Maker.pauseType]
    | breakpoint => simp [Maker.pauseType]

theorem records_hookNext {s s' : State V} {throws : Bool} {res : Res} {r : Request}
    (hr : Records s r) (h : HookNext vm s throws s' res) :
    Records s' (observe s ⟨.hookNext throws, res⟩ r) := by
  cases h with
  | @call sourceName line _ =>
    obtain ⟨h₁, -, -, -, -, h₆⟩ := hookCall_control vm s sourceName line
    exact hr.of_running h₁ (by simp [h₆])
  | called _ =>
    refine hr.of_running (s := s) ?_ (hookCalled_running s)
    rw [hookCalled_eq]
  | counted _ => exact hr.of_running (s := s) rfl (by simp [hookCounted])
  | returned _ =>
    rw [hookReturned_eq]
    exact hr.of_running (s := s) rfl (by simp)
  | ret _ _ => exact hr.of_running (s := s) rfl (by simp)
  | line _ _ => exact hr.of_running (s := s) rfl (by simp)
  | fault _ _ => exact hr.of_running (s := s) rfl (by simp)
  | other _ => exact hr.of_running (s := s) rfl (by simp)
  | runs _ _ => exact hr.of_running (s := s) rfl (by simp)
  | @stops line handle ht hst =>
    have hreq := hookStop_pauseRequested vm s line handle throws
    have hat : atBreakpoint s =
        (lineBreakpoint s.pauseMutexData.breakpoints line handle).1 := by simp [atBreakpoint, ht]
    refine ⟨?_, fun n hn => ?_, ?_⟩
    · rw [hreq]
      simp only [observe, hat]
      split
      · rfl
      · exact hr.pauseRequested
    · rcases hookStop_thread vm s line handle throws with e | e
      · rw [hn] at e
        cases e
      · rw [hn] at e
        cases e
        rfl
    · simp only [observe]
      split
      · simp
      · exact hr.steps

theorem records_step {s s' : State V} {l : Lbl V} {r : Request} (ha : Armed s)
    (hr : Records s r) (h : (lts vm).step s l s') : Records s' (observe s l r) := by
  obtain ⟨a, res⟩ := l
  have hx := (lts_step vm).mp h
  cases exec_inv vm hx with
  | passive hp hf =>
    have ho : observe s ⟨a, res⟩ r = r := by
      cases a <;> first | rfl | exact hp.elim
    rw [ho]
    exact hr.of_frame hf.pauseRequested hf.thread
  | detachVm => exact hr.of_frame (detachVm_frame s).pauseRequested (detachVm_frame s).thread
  | detachVmLocked =>
    refine ⟨(detachVmLocked_spec s).1, fun n hn => ?_, by simp [observe]⟩
    -- a thread without a request is not waiting un-notified
    have hnf : (detachVmLocked s).thread ≠ .waiting false := armed_detachVmLocked ha
    cases n with
    | false => exact absurd hn hnf
    | true => rfl
  | pauseExecution =>
    by_cases hreq : s.pauseRequested = .none
    · have ho : observe s ⟨.pauseExecution, .rc .success⟩ r =
          { r with maker := some .pauseExecution } := by simp [observe, hreq]
      rw [ho, pauseExecution_idle hreq]
      exact ⟨rfl, fun n hn => hr.notified n hn, by simp⟩
    · have ho : observe s ⟨.pauseExecution, .rc .success⟩ r = r := by simp [observe, hreq]
      rw [ho, pauseExecution_busy hreq]
      exact hr
  | @accepted c hc =>
    have ho : observe s ⟨.resume c, .rc .success⟩ r = ⟨c.maker, true⟩ := by simp [observe, hc]
    rw [ho]
    refine ⟨?_, fun n hn => ?_, maker_steps c⟩
    · rw [resume_accepted hc, notifyAll_pauseRequested]
      exact (maker_pauseType c).symm
    · rw [resume_accepted hc] at hn
      unfold notifyAll at hn
      split at hn
      · simpa using hn
      · rename_i hnw
        exact absurd hn (hnw n)
  | @refused c hc =>
    have ho : observe s ⟨.resume c, .rc .invalidNotPaused⟩ r = r := by simp [observe, hc]
    rw [ho]
    exact hr
  | unattached _ _ => exact hr
  | hook _ _ => exact hr.of_running (s := s) rfl (by simp)
  | hookNext hn => exact records_hookNext vm hr hn
  | wake _ => exact hr.of_running (s := s) rfl (by simp [wake])

theorem record_inductive :
    (recorded vm).Inductive fun p => Armed p.1 ∧ Records p.1 p.2 where
  init := by
    intro p hp
    obtain ⟨hs, hr⟩ := hp
    refine ⟨(armed_inductive vm).init p.1 hs, ?_⟩
    obtain ⟨e, v, hs⟩ := hs
    rw [hs, hr]
    exact ⟨rfl, fun n hn => by simp [fresh] at hn, by simp⟩
  step := by
    intro p l p' hi h
    obtain ⟨ha, hr⟩ := hi
    obtain ⟨hst, ho⟩ := h
    rw [ho]
    exact ⟨(armed_inductive vm).step p.1 l p'.1 ha hst, records_step vm ha hr hst⟩

/-! ## Main result -/

theorem sendStatus_sent {s s' : State V} {status : Status}
    (h : exec vm s .sendStatus = some (s', .sent status)) : status = currentStatus s := by
  simp only [exec, sendStatus, Option.some.injEq, Prod.mk.injEq] at h
  obtain ⟨-, h⟩ := h
  split at h
  · simpa using h.symm
  · cases h

/-- **What `SendStatus` reports.** In every reachable state, whatever the wakeups
and the listener do, the run state `SendStatus` sends is the one to report if and
only if the state and the maker of its request are `Distinguished`. -/
theorem sendStatus_reports (s s' : State V) (r : Request) (status : Status)
    (hr : (recorded vm).Reachable (s, r))
    (h : exec vm s .sendStatus = some (s', .sent status)) :
    Reported s r status.runState ↔ Distinguished s r := by
  have hinv : Armed s ∧ Records s r := (record_inductive vm).reachable (s, r) hr
  obtain ⟨harmed, hreq, hnot, hsteps⟩ := hinv
  obtain rfl := sendStatus_sent vm h
  have hwait : ((∃ n, s.thread = .waiting n) ∧ r.resumed = false) ↔
      s.thread = .waiting false := by
    constructor
    · intro hw
      obtain ⟨⟨n, hn⟩, hres⟩ := hw
      rw [hn, ← hnot n hn, hres]
    · intro hw
      exact ⟨⟨false, hw⟩, hnot false hw⟩
  unfold Reported Distinguished
  rw [hwait]
  by_cases hw : s.thread = .waiting false
  · obtain ⟨hp, hq⟩ := harmed hw
    simp [currentStatus, hw, hp, hq]
  · by_cases hq : s.pauseRequested = .none
    · -- nothing outstanding: running, and nobody made a request
      have hmaker : r.maker = none := (pauseType_none hsteps).mp (hreq ▸ hq)
      simp [currentStatus, hw, hq, hmaker]
    · cases hp : s.pauseMutexData.isPaused with
      | true => simp [currentStatus, hw, hq, hp]
      | false =>
        -- a request without a pause: by the request's type
        cases hm : r.maker with
        | none =>
          rw [hm] at hreq
          exact absurd hreq hq
        | some m =>
          rw [hm] at hreq hsteps
          cases m with
          | step c => cases c <;> simp_all [currentStatus, Maker.pauseType, Resume.pauseType]
          | pauseExecution => simp_all [currentStatus, Maker.pauseType]
          | breakpoint => simp_all [currentStatus, Maker.pauseType]

end

/-! ## A step into, as it is reported -/

/-- A run of actions with its record. -/
def runRecorded (s : State Unit) (r : Request) : List (Act Unit) → Option (State Unit × Request)
  | [] => some (s, r)
  | a :: as => (exec idleVm s a).bind fun p => runRecorded p.1 (observe s ⟨a, p.2⟩ r) as

theorem run_of_runRecorded {s : State Unit} {r : Request} {as : List (Act Unit)}
    {p : State Unit × Request} (h : runRecorded s r as = some p) :
    ∃ ls, (recorded idleVm).Run (s, r) ls p := by
  induction as generalizing s r with
  | nil =>
    simp only [runRecorded, Option.some.injEq] at h
    exact ⟨[], h ▸ .nil _⟩
  | cons a as ih =>
    simp only [runRecorded, Option.bind_eq_some_iff] at h
    obtain ⟨⟨t, res⟩, h₁, h₂⟩ := h
    obtain ⟨ls, hr⟩ := ih h₂
    exact ⟨⟨a, res⟩ :: ls, .cons ⟨(lts_step idleVm).mpr h₁, rfl⟩ hr⟩

theorem reachable_of_runRecorded (as : List (Act Unit)) {p : State Unit × Request}
    (h : runRecorded (fresh true ()) {} as = some p) : (recorded idleVm).Reachable p := by
  obtain ⟨ls, hr⟩ := run_of_runRecorded h
  exact ⟨(fresh true (), {}), ls, ⟨⟨true, (), rfl⟩, rfl⟩, hr⟩

/-- A step into has been accepted from the pause. -/
def steppingIn : State Unit := (resume pausedState .stepIn).1

def stepInRecord : Request := ⟨some (.step .stepIn), true⟩

theorem steppingIn_recorded : (recorded idleVm).Reachable (steppingIn, stepInRecord) :=
  reachable_of_runRecorded (pauseActs ++ [.resume .stepIn]) rfl

theorem woken_recorded : (recorded idleVm).Reachable (wake steppingIn, stepInRecord) :=
  reachable_of_runRecorded (pauseActs ++ [.resume .stepIn, .wake]) rfl

theorem sendStatus_reports_pausedState :
    Reported pausedState ⟨some .pauseExecution, false⟩ .paused :=
  (sendStatus_reports idleVm pausedState pausedState ⟨some .pauseExecution, false⟩ _
    (reachable_of_runRecorded pauseActs rfl) rfl).mpr
    ⟨fun _ _ => rfl, fun h => by cases h⟩

/-- After the step into has been accepted, the status says `Paused` while the VM
thread has not woken, and `Pausing` once it has. -/
theorem status_misreports :
    (recorded idleVm).Reachable (steppingIn, stepInRecord) ∧
      (∃ status, exec idleVm steppingIn .sendStatus = some (steppingIn, .sent status) ∧
        status.runState = .paused ∧ ¬ Reported steppingIn stepInRecord status.runState) ∧
      (recorded idleVm).Reachable (wake steppingIn, stepInRecord) ∧
      ∃ status, exec idleVm (wake steppingIn) .sendStatus =
          some (wake steppingIn, .sent status) ∧
        status.runState = .pausing ∧
        ¬ Reported (wake steppingIn) stepInRecord status.runState := by
  refine ⟨steppingIn_recorded, ⟨_, rfl, rfl, fun h => ?_⟩, woken_recorded, _, rfl, rfl,
    fun h => ?_⟩
  · have hres := (h.1.mp rfl).2
    cases hres
  · have hstep := (h.2 (fun hw => by cases hw.2)).2.1 .stepIn rfl
    cases hstep

end Sdb.L2
