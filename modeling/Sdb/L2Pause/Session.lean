import Sdb.Core.Refine
import Sdb.L2Pause.Held
import Sdb.L2Pause.History
import Sdb.L2Pause.RunState
import Sdb.L2Pause.Wakeup

/-!
# The session a client sees

What the pause mechanism is for, without its lock, its flag, its counter and its call
stack: the script runs, is held, or has been released and has not gone on yet; and a
request to stop may be outstanding.

* `debugger_refines_session`, `runs_as_session`: with a listener that returns, no detach
  and no spurious wakeup, the pause mechanism does nothing that the session does not; in
  particular the session alone tells the code of every command and the whole of every
  status sent;
* `pauses_le_resumes`: the script stops at most once for each accepted resume command,
  and once more.
-/
namespace Sdb.L2

open Sdb.L1

/-! ## The session -/

/-- Where the script is. A status is that of the pause. -/
inductive Phase where
  | running
  | held (status : Status)
  | released (status : Status)
  deriving DecidableEq, Repr

structure Session where
  phase : Phase := .running
  request : PauseType := .none
  deriving DecidableEq, Repr

/-- What is seen of a session. -/
inductive SessionEvent where
  | pause
  | resume (c : Resume) (code : ReturnCode)
  | sent (status : Status)
  /-- A data command was refused as not paused. -/
  | notPaused
  /-- A data command used the VM. -/
  | usedVm
  | stops (status : Status)
  | goes
  deriving DecidableEq, Repr

namespace Phase

def release : Phase → Phase
  | .held status => .released status
  | p => p

def Running (p : Phase) : Prop := p = .running

instance (p : Phase) : Decidable p.Running := inferInstanceAs (Decidable (p = .running))

end Phase

namespace Session

/-- The resume commands that are accepted: the steps while the script does not run,
`ContinueExecution` while a request is outstanding. -/
def Accepts (s : Session) : Resume → Prop
  | .continueExecution => s.request ≠ .none
  | .stepIn | .stepOver | .stepOut => ¬ s.phase.Running

/-- The status that is sent on request. -/
def status (s : Session) : Status :=
  match s.request, s.phase with
  | .none, _ => { runState := .running }
  | _, .held status | _, .released status => status
  | .pause, .running => { runState := .pausing }
  | _, .running => { runState := .stepping }

/-- A stop is for the outstanding request or at a breakpoint, which has an id and is a
request of its own. -/
def StopsWith (s : Session) (status : Status) (request : PauseType) : Prop :=
  s.phase = .running ∧ status.runState = .paused ∧ request ≠ .none ∧
    (request = .pause ∧ status.pausedAtBreakpointId ≠ 0 ∨
      request = s.request ∧ status.pausedAtBreakpointId = 0)

inductive Step : Session → SessionEvent → Session → Prop where
  | pause (s : Session) :
      Step s .pause { s with request := if s.request = .none then .pause else s.request }
  | accepted {s : Session} {c : Resume} : s.Accepts c →
      Step s (.resume c .success) { phase := s.phase.release, request := c.pauseType }
  | refused {s : Session} {c : Resume} : ¬ s.Accepts c →
      Step s (.resume c .invalidNotPaused) s
  | sent (s : Session) : Step s (.sent s.status) s
  | notPaused {s : Session} : s.phase.Running → Step s .notPaused s
  | usedVm {s : Session} : ¬ s.phase.Running → Step s .usedVm s
  | stops {s : Session} {status : Status} {request : PauseType} : s.StopsWith status request →
      Step s (.stops status) { phase := .held status, request := request }
  | goes {s : Session} {status : Status} : s.phase = .released status →
      Step s .goes { s with phase := .running }

end Session

def session : LTS Session SessionEvent where
  init s := s = {}
  step := Session.Step

/-! ## Stops and resumes -/

/-- 1 while the script does not run. -/
def Session.stopped (s : Session) : Nat := if s.phase.Running then 0 else 1

/-- 1 between an accepted resume command and the script's going on. -/
def Session.leaving (s : Session) : Nat :=
  match s.phase with
  | .released _ => 1
  | _ => 0

def SessionEvent.IsStop : SessionEvent → Bool
  | .stops _ => true
  | _ => false

def SessionEvent.IsAccepted : SessionEvent → Bool
  | .resume _ .success => true
  | _ => false

/-- Stops and goings alternate, and each going takes an accepted resume command. -/
theorem session_counts {s t : Session} {ls : List SessionEvent} (h : session.Run s ls t) :
    ls.countP SessionEvent.IsStop + s.stopped = ls.count .goes + t.stopped ∧
      ls.count .goes + t.leaving ≤ ls.countP SessionEvent.IsAccepted + s.leaving := by
  induction h with
  | nil => simp
  | @cons s t u l ls hs _ ih =>
    obtain ⟨ih₁, ih₂⟩ := ih
    simp only [List.countP_cons, List.count_cons]
    cases hs with
    | pause | refused _ | sent | notPaused _ | usedVm _ =>
      simp [SessionEvent.IsStop, SessionEvent.IsAccepted, Session.stopped, Session.leaving] at *
      omega
    | accepted _ =>
      cases hp : s.phase <;>
        simp [SessionEvent.IsStop, SessionEvent.IsAccepted, Session.stopped, Session.leaving,
          Phase.release, Phase.Running, hp] at * <;> omega
    | stops hst =>
      obtain ⟨hp, -⟩ := hst
      simp [SessionEvent.IsStop, SessionEvent.IsAccepted, Session.stopped, Session.leaving,
        Phase.Running, hp] at *
      omega
    | goes hp =>
      simp [SessionEvent.IsStop, SessionEvent.IsAccepted, Session.stopped, Session.leaving,
        Phase.Running, hp] at *
      omega

/-! ## The pause mechanism as a session -/

section
variable {V : Type} (vm : VmAccess V)

/-- The session a state of the debugger is. -/
def State.session (s : State V) : Session where
  phase :=
    match s.thread with
    | .waiting false => .held s.pauseMutexData.status
    | .waiting true => .released s.pauseMutexData.status
    | _ => .running
  request := s.pauseRequested

/-- What is seen of a step. -/
def Lbl.seen (l : Lbl V) : Option SessionEvent :=
  match l.act, l.res with
  | .pauseExecution, _ => some .pause
  | .resume c, .rc code => some (.resume c code)
  | .sendStatus, .sent status => some (.sent status)
  | .data _, .rc .invalidNotPaused => some .notPaused
  | .data _, .usedVm _ => some .usedVm
  | .hookNext _, .paused status => some (.stops status)
  | .wake, _ => some .goes
  | _, _ => none

/-- The systems with a listener that returns, no detach and no spurious wakeup. -/
def orderlyPauses : LTS (State V) (Lbl V) :=
  (lts vm).restrict fun s l => l.act.Attended ∧ WakesNotified s l

/-- The map is that of some run whose lists have no entry without an id. -/
def Numbered (m : BreakpointMap) : Prop :=
  ∃ latest, MapInv latest m ∧ ∀ name, ∀ b ∈ latest name, b.id ≠ 0

/-- The flag is up in the wait only, with the status of the pause, and every breakpoint
has an id. -/
structure Announced (s : State V) : Prop where
  held : Held s
  status : ∀ n, s.thread = .waiting n → s.pauseMutexData.status.runState = .paused
  numbered : Numbered s.pauseMutexData.breakpoints

variable {s s' : State V}

theorem session_running (h : ∀ n, s.thread ≠ .waiting n) :
    s.session = { phase := .running, request := s.pauseRequested } := by
  unfold State.session
  split
  · rename_i ht
    exact absurd ht (h false)
  · rename_i ht
    exact absurd ht (h true)
  · rfl

theorem session_waiting {n : Bool} (h : s.thread = .waiting n) :
    s.session = {
      phase := if n then .released s.pauseMutexData.status else .held s.pauseMutexData.status
      request := s.pauseRequested } := by
  unfold State.session
  cases n <;> simp [h]

theorem session_frame (ht : s'.thread = s.thread) (hq : s'.pauseRequested = s.pauseRequested)
    (hs : s'.pauseMutexData.status = s.pauseMutexData.status) : s'.session = s.session := by
  unfold State.session
  rw [ht, hq, hs]

theorem Announced.running_iff (hi : Announced s) :
    s.session.phase.Running ↔ s.pauseMutexData.isPaused = false := by
  by_cases hw : ∃ n, s.thread = .waiting n
  · obtain ⟨n, hn⟩ := hw
    rw [hi.held.mpr ⟨n, hn⟩, session_waiting hn]
    cases n <;> simp [Phase.Running]
  · have hw' : ∀ n, s.thread ≠ .waiting n := fun n hn => hw ⟨n, hn⟩
    rw [session_running hw', hi.held.not_paused hw']
    simp [Phase.Running]

theorem Announced.accepts_iff (hi : Announced s) (c : Resume) :
    s.session.Accepts c ↔ Accepts s c := by
  cases c with
  | continueExecution => exact Iff.rfl
  | _ =>
    show ¬ s.session.phase.Running ↔ s.pauseMutexData.isPaused = true
    rw [hi.running_iff, Bool.not_eq_false]

theorem Announced.status_eq (hi : Announced s) : s.session.status = currentStatus s := by
  unfold currentStatus
  by_cases hw : ∃ n, s.thread = .waiting n
  · obtain ⟨n, hn⟩ := hw
    have hsame : { s.pauseMutexData.status with runState := .paused } =
        s.pauseMutexData.status := by
      rw [← hi.status n hn]
    rw [hi.held.mpr ⟨n, hn⟩, session_waiting hn, hsame]
    cases hq : s.pauseRequested <;> cases n <;> rfl
  · have hw' : ∀ n, s.thread ≠ .waiting n := fun n hn => hw ⟨n, hn⟩
    rw [session_running hw', hi.held.not_paused hw']
    cases hq : s.pauseRequested <;> rfl

/-- Entering the wait the hook stores the status of the pause. -/
theorem entered_status {a : Act V} {res : Res} {n : Bool} (h : Exec vm s a s' res)
    (ha : a ≠ .detachVmLocked) (hs : ∀ n, s.thread ≠ .waiting n) (hs' : s'.thread = .waiting n) :
    s'.pauseMutexData.status.runState = .paused := by
  cases h with
  | passive _ hf => exact absurd (hf.thread ▸ hs') (hs n)
  | detachVm => exact absurd ((detachVm_frame s).thread ▸ hs') (hs n)
  | detachVmLocked => exact absurd rfl ha
  | pauseExecution => exact absurd ((pauseExecution_spec s).2.2.2 ▸ hs') (hs n)
  | @accepted c _ => exact absurd ((resume_frame s c).2.2 hs ▸ hs') (hs n)
  | refused _ => exact absurd hs' (hs n)
  | unattached _ _ => exact absurd hs' (hs n)
  | hook _ _ => cases hs'
  | wake _ => cases hs'
  | @hookNext throws _ _ hn =>
    cases hn with
    | @call sourceName line _ =>
      rw [(hookCall_control vm s sourceName line).2.2.2.2.2] at hs'
      cases hs'
    | called _ => exact absurd hs' (hookCalled_running s n)
    | returned _ =>
      rw [hookReturned_eq] at hs'
      cases hs'
    | @stops line handle _ hst =>
      rw [hookStop_status vm throws hst]
      rfl
    | _ => cases hs'

theorem numbered_step {a : Act V} {res : Res} (hi : Numbered s.pauseMutexData.breakpoints)
    (h : exec vm s a = some (s', res)) : Numbered s'.pauseMutexData.breakpoints := by
  obtain ⟨latest, hm, hid⟩ := hi
  refine ⟨_, mapInv_step vm (o := { latest := latest }) hm h, ?_⟩
  cases a with
  | setFileBreakpoints file bps =>
    simp only [exec, Option.some.injEq, Prod.mk.injEq] at h
    obtain ⟨-, rfl⟩ := h
    rcases setFileBreakpoints_spec vm s file bps with ⟨-, -, hcode⟩ | ⟨hall, -, hcode⟩
    · simpa [Seen.next, hcode] using hid
    · intro name b hb
      simp only [Seen.next, hcode, if_true] at hb
      by_cases hname : name = vm.strToLower file
      · subst hname
        rw [Function.update_self] at hb
        exact (hall b hb).1
      · rw [Function.update_of_ne hname] at hb
        exact hid name b hb
  | hook e => cases e <;> exact hid
  | _ => exact hid

theorem announced_step {a : Act V} {res : Res} (hi : Announced s)
    (h : exec vm s a = some (s', res)) (ha : a.Attended) : Announced s' := by
  refine ⟨held_step vm hi.held (exec_inv vm h) ha, fun n hn => ?_,
    numbered_step vm hi.numbered h⟩
  by_cases hw : ∃ n, s.thread = .waiting n
  · obtain ⟨m, hm⟩ := hw
    have hwake : a ≠ .wake := by
      intro he
      subst he
      cases exec_inv vm h with
      | wake _ => cases hn
      | passive hp _ => exact hp.elim
    have hin : InPause s.pauseMutexData.status s := ⟨⟨m, hm⟩, hi.held.mpr ⟨m, hm⟩, rfl⟩
    rw [(inPause_step vm hin h hwake ha.2).status]
    exact hi.status m hm
  · exact entered_status vm (exec_inv vm h) ha.2 (fun m hm => hw ⟨m, hm⟩) hn

/-- No breakpoint, no id. -/
theorem lineBreakpoint_notFound {m : BreakpointMap} {line : Int} {handle : FileNameHandle}
    (h : (lineBreakpoint m line handle).1 = false) : (lineBreakpoint m line handle).2.id = 0 := by
  unfold lineBreakpoint at h ⊢
  split
  · rename_i hc
    rw [if_pos hc] at h
    cases handle with
    | none => rfl
    | some h' =>
      rw [BreakpointMap.readBreakpoint_some] at h ⊢
      cases hr : m.readLine h' (UInt32.ofNat line.toNat) with
      | none => rfl
      | some bp => simp [hr] at h
  · rfl

/-- A breakpoint has an id. -/
theorem lineBreakpoint_found {m : BreakpointMap} (hm : Numbered m) {line : Int}
    {handle : FileNameHandle} (h : (lineBreakpoint m line handle).1 = true) :
    (lineBreakpoint m line handle).2.id ≠ 0 := by
  obtain ⟨latest, hm, hid⟩ := hm
  unfold lineBreakpoint at h ⊢
  split
  · rename_i hc
    rw [if_pos hc] at h
    cases handle with
    | none => simp at hc
    | some i =>
      rw [BreakpointMap.readBreakpoint_some] at h ⊢
      obtain ⟨bp, hbp⟩ := Option.isSome_iff_exists.mp h
      have hlt : i < m.fileNames.length := by
        by_contra hle
        rw [hm.unused i (Nat.le_of_not_lt hle)] at hbp
        cases hbp
      have hlast := hbp
      rw [hm.lines i _ (List.getElem?_eq_getElem hlt), Option.map_eq_some_iff] at hlast
      obtain ⟨b, hb, rfl⟩ := hlast
      rw [hbp]
      exact hid _ b (List.mem_reverse.mp (List.mem_of_find?_eq_some hb))
  · rename_i hc
    rw [if_neg hc] at h
    cases h

/-- What a step of the hook is to the session. -/
theorem session_hookNext {res : Res} (hi : Numbered s.pauseMutexData.breakpoints)
    (h : HookNext vm s false s' res) :
    (res = .silent ∧ s'.session = s.session) ∨
      ∃ status, res = .paused status ∧
        session.step s.session (.stops status) s'.session := by
  have hs : s.session = { phase := .running, request := s.pauseRequested } :=
    session_running h.running
  have hsilent : (∀ n, s'.thread ≠ .waiting n) → s'.pauseRequested = s.pauseRequested →
      s'.session = s.session := by
    intro ht hq
    rw [hs, session_running ht, hq]
  cases h with
  | @call sourceName line _ =>
    obtain ⟨hq, -, -, -, -, ht⟩ := hookCall_control vm s sourceName line
    exact .inl ⟨rfl, hsilent (by simp [ht]) hq⟩
  | called _ =>
    refine .inl ⟨rfl, hsilent (hookCalled_running s) ?_⟩
    rw [hookCalled_eq]
  | counted _ => exact .inl ⟨rfl, hsilent (by simp [hookCounted]) rfl⟩
  | returned _ =>
    rw [hookReturned_eq] at hsilent ⊢
    exact .inl ⟨rfl, hsilent (by simp) rfl⟩
  | @stops line handle _ hst =>
    right
    obtain ⟨-, hq, -, -, -, -, ht⟩ := hookStop_stops vm false hst
    have hstatus := hookStop_status vm false hst
    refine ⟨_, rfl, ?_⟩
    rw [session_waiting (ht rfl), hstatus, hs]
    refine .stops ⟨rfl, rfl, hq, ?_⟩
    rw [hookStop_pauseRequested]
    cases hfound : (lineBreakpoint s.pauseMutexData.breakpoints line handle).1 with
    | true => exact .inl ⟨rfl, lineBreakpoint_found hi hfound⟩
    | false => exact .inr ⟨rfl, lineBreakpoint_notFound hfound⟩
  | _ => exact .inl ⟨rfl, hsilent (by simp) rfl⟩

theorem session_pauseExecution (s : State V) :
    (pauseExecution s).1.session = { s.session with
      request := if s.session.request = .none then .pause else s.session.request } := by
  by_cases hq : s.pauseRequested = .none
  · rw [pauseExecution_idle hq]
    simp [State.session, hq]
  · rw [pauseExecution_busy hq]
    simp [State.session, hq]

theorem session_resume {c : Resume} (hc : Accepts s c) :
    (resume s c).1.session = { phase := s.session.phase.release, request := c.pauseType } := by
  by_cases hw : ∃ n, s.thread = .waiting n
  · obtain ⟨n, hn⟩ := hw
    rw [resume_notifies hc hn, session_waiting hn]
    cases n <;> rfl
  · have hw' : ∀ n, s.thread ≠ .waiting n := fun n hn => hw ⟨n, hn⟩
    have ht := (resume_frame s c).2.2 hw'
    rw [session_running (fun n => ht ▸ hw' n), session_running hw', resume_accepted hc]
    simp [Phase.release]

/-- A data command shows whether the script runs. -/
theorem session_data {call : DataCall} {res : Res} (hi : Announced s)
    (h : exec vm s (.data call) = some (s', res)) (hframe : s'.session = s.session) :
    session.Matches s.session (Lbl.seen (⟨.data call, res⟩ : Lbl V)) s'.session := by
  simp only [exec, dataCommand] at h
  split at h
  · rename_i code hr
    obtain ⟨rfl, rfl⟩ := Prod.mk.inj (Option.some.inj h)
    cases code with
    | invalidNotPaused =>
      exact .notPaused (hi.running_iff.mpr ((refused_notPaused vm).mp hr).1)
    | _ => rfl
  · rename_i hr
    simp only [Option.map_eq_some_iff, Prod.mk.injEq] at h
    obtain ⟨⟨v, code⟩, -, -, rfl⟩ := h
    show session.step _ .usedVm _
    rw [hframe]
    exact .usedVm fun hrun => refused_running vm (hi.running_iff.mp hrun) hr

theorem session_step {l : Lbl V} (hi : Announced s) (h : exec vm s l.act = some (s', l.res))
    (ha : l.act.Attended) (hw : WakesNotified s l) :
    session.Matches s.session l.seen s'.session := by
  obtain ⟨a, res⟩ := l
  cases exec_inv vm h with
  | passive hp hf =>
    have hframe : s'.session = s.session :=
      session_frame hf.thread hf.pauseRequested (passive_status vm hp h)
    cases a with
    | data call => exact session_data vm hi h hframe
    | sendStatus =>
      simp only [exec, sendStatus, Option.some.injEq, Prod.mk.injEq] at h
      obtain ⟨rfl, rfl⟩ := h
      split
      · show session.step _ (.sent _) _
        rw [← hi.status_eq]
        exact .sent _
      · exact hframe
    | addVm _ | setFileBreakpoints _ _ | script _ => exact hframe
    | _ => exact hp.elim
  | detachVm =>
    exact session_frame (detachVm_frame s).thread (detachVm_frame s).pauseRequested (by
      unfold detachVm
      split <;> rfl)
  | detachVmLocked => exact absurd rfl ha.2
  | pauseExecution =>
    show session.step _ .pause _
    rw [session_pauseExecution]
    exact .pause _
  | @accepted c hc =>
    show session.step _ (.resume c .success) _
    rw [session_resume hc]
    exact .accepted ((hi.accepts_iff c).mpr hc)
  | @refused c hc => exact .refused fun hacc => hc ((hi.accepts_iff c).mp hacc)
  | unattached _ _ => rfl
  | hook ht _ =>
    show State.session _ = _
    rw [session_running (s := s) (by simp [ht]), session_running (by simp)]
  | @hookNext throws _ _ hn =>
    obtain rfl : throws = false := ha.1
    rcases session_hookNext vm hi.numbered hn with ⟨rfl, hsame⟩ | ⟨status, rfl, hstep⟩
    · exact hsame
    · exact hstep
  | wake _ =>
    have hwoken : s.thread = .waiting true := hw rfl
    show session.step _ .goes _
    rw [session_waiting hwoken, session_running (by simp [wake])]
    exact .goes rfl

/-! ## Main results -/

theorem orderlyPauses_inductive : (orderlyPauses vm).Inductive Announced where
  init := by
    intro s hs
    obtain ⟨e, v, rfl⟩ := hs
    exact {
      held := (held_inductive vm).init _ ⟨e, v, rfl⟩
      status := fun n hn => by cases hn
      numbered := ⟨_, mapInv_fresh e v, by simp⟩ }
  step := fun _ _ _ hi h => announced_step vm hi ((lts_step vm).mp h.1) h.2.1

theorem debugger_refines_session :
    (orderlyPauses vm).Refines session Announced State.session Lbl.seen where
  invariant := orderlyPauses_inductive vm
  init := by
    intro s hs
    obtain ⟨e, v, rfl⟩ := hs
    rfl
  step := fun _ _ _ hi h => session_step vm hi ((lts_step vm).mp h.1) h.2.1 h.2.2

/-- **The pause mechanism is a session.** -/
theorem runs_as_session {s₀ : State V} {ls : List (Lbl V)} (hi : (orderlyPauses vm).init s₀)
    (h : (orderlyPauses vm).Run s₀ ls s) : session.Run {} (ls.filterMap Lbl.seen) s.session := by
  have hrefines := debugger_refines_session vm
  have hrun := hrefines.run (hrefines.invariant.init s₀ hi) h
  rwa [hrefines.init s₀ hi] at hrun

/-- The hook announces a pause in this step. -/
def Lbl.announces (l : Lbl V) : Bool :=
  match l.act, l.res with
  | .hookNext _, .paused _ => true
  | _, _ => false

theorem seen_isStop (l : Lbl V) :
    (l.seen.map SessionEvent.IsStop).getD false = l.announces := by
  obtain ⟨a, res⟩ := l
  cases a <;> cases res with
  | rc code => cases code <;> rfl
  | _ => rfl

theorem seen_isAccepted (l : Lbl V) :
    (l.seen.map SessionEvent.IsAccepted).getD false = l.accepted := by
  obtain ⟨a, res⟩ := l
  cases a <;> cases res with
  | rc code => cases code <;> rfl
  | _ => rfl

/-- **Stops need resumes.** The script stops at most once more than resume commands are
accepted, and once it has gone on, not more often than that. -/
theorem pauses_le_resumes {s₀ : State V} {ls : List (Lbl V)} (hi : (orderlyPauses vm).init s₀)
    (h : (orderlyPauses vm).Run s₀ ls s) :
    ls.countP Lbl.announces ≤ accepted ls + 1 ∧
      ((∀ n, s.thread ≠ .waiting n) → ls.countP Lbl.announces ≤ accepted ls) := by
  have hrefines := debugger_refines_session vm
  have hrun := hrefines.run (hrefines.invariant.init s₀ hi) h
  rw [hrefines.init s₀ hi] at hrun
  obtain ⟨hstops, hgoes⟩ := session_counts hrun
  have hle : s.session.stopped ≤ 1 := by
    unfold Session.stopped
    split <;> omega
  have h₀ : Session.stopped {} = 0 ∧ Session.leaving {} = 0 := ⟨rfl, rfl⟩
  rw [List.countP_filterMap, funext seen_isStop] at hstops
  rw [List.countP_filterMap, funext seen_isAccepted] at hgoes
  unfold accepted
  refine ⟨by omega, fun hw => ?_⟩
  have hzero : s.session.stopped = 0 := by
    rw [session_running hw]
    rfl
  omega

end

/-- The VM pauses for `PauseExecution`. -/
theorem pausingRun_orderly :
    (orderlyPauses idleVm).Run (fresh true ()) (pausingRun ++ [pausingStep]) pausedState := by
  obtain ⟨s, hr, hp⟩ := pausingRun_begins
  refine (hr.append (.single hp.1)).restrict fun l₁ l l₂ t hls _ => ?_
  have hl : l ∈ pausingRun ++ [pausingStep] := by rw [hls]; simp
  have hall : ∀ l ∈ pausingRun ++ [pausingStep], l.act.Attended ∧ l.act ≠ .wake := by
    simp [pausingRun, pausingStep, Act.Attended, Act.ListenerReturns]
  exact ⟨(hall l hl).1, fun hw => absurd hw (hall l hl).2⟩

theorem runs_as_session_pausingRun :
    session.Run {} [.pause, .stops { runState := .paused }]
      { phase := .held { runState := .paused }, request := .pause } :=
  runs_as_session idleVm ⟨true, (), rfl⟩ pausingRun_orderly

theorem pauses_le_resumes_pausingRun :
    (pausingRun ++ [pausingStep]).countP Lbl.announces ≤
      accepted (pausingRun ++ [pausingStep]) + 1 :=
  (pauses_le_resumes idleVm ⟨true, (), rfl⟩ pausingRun_orderly).1

end Sdb.L2
