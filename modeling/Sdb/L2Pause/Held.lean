import Sdb.L2Pause.Confirm
import Sdb.L2Pause.Listener
import Sdb.L2Pause.Resume

/-!
# What a held VM shows

The hook stores the status of a pause before it waits. `SendStatus` sends the stored
status again, so that a client that connects late learns where the script stands.

* `resent_status`: until the VM thread leaves the wait, every `SendStatus` sends the very
  status the pause was announced with, whatever the clients read, write or step to
  meanwhile; only an accepted `ContinueExecution` makes it send `Running`;
* `script_run`: while the VM thread waits only the data commands change the VM;
* `held_inductive`: without a detach, and with a listener that returns, `isPaused` says
  that the VM thread is in the wait.
-/
namespace Sdb.L2

open Sdb.L1

section
variable {V : Type} (vm : VmAccess V)

/-! ## The stored status -/

/-- The VM thread is in the wait of the pause that was announced with `status`. -/
structure InPause (status : Status) (s : State V) : Prop where
  waiting : ∃ n, s.thread = .waiting n
  paused : s.pauseMutexData.isPaused = true
  status : s.pauseMutexData.status = status

/-- A step that leaves the wait, the flag and the stored status alone. -/
theorem InPause.of_frame {status : Status} {s s' : State V} (hi : InPause status s)
    (ht : s'.thread = s.thread) (hp : s'.pauseMutexData.isPaused = s.pauseMutexData.isPaused)
    (hs : s'.pauseMutexData.status = s.pauseMutexData.status) : InPause status s' :=
  ⟨ht ▸ hi.waiting, hp ▸ hi.paused, hs ▸ hi.status⟩

/-- Neither a passive action nor the test of `DetachVm` touches the stored status. -/
theorem passive_status {s s' : State V} {a : Act V} {res : Res} (ha : a.Passive)
    (h : exec vm s a = some (s', res)) :
    s'.pauseMutexData.status = s.pauseMutexData.status := by
  rcases passive_inv vm ha h with ⟨handle, -, rfl⟩ | ⟨file, bps, -, rfl⟩ | ⟨v, rfl⟩
  · rfl
  · unfold setFileBreakpoints
    split <;> rfl
  · rfl

theorem inPause_step {status : Status} {s s' : State V} {a : Act V} {res : Res}
    (hi : InPause status s) (h : exec vm s a = some (s', res)) (hw : a ≠ .wake)
    (hd : a ≠ .detachVmLocked) : InPause status s' := by
  obtain ⟨n, hn⟩ := hi.waiting
  cases exec_inv vm h with
  | passive ha hf => exact hi.of_frame hf.thread hf.isPaused (passive_status vm ha h)
  | detachVm =>
    have hstatus : (detachVm s).pauseMutexData = s.pauseMutexData := by
      unfold detachVm
      split <;> rfl
    exact hi.of_frame (detachVm_frame s).thread (by rw [hstatus]) (by rw [hstatus])
  | detachVmLocked => exact absurd rfl hd
  | pauseExecution =>
    obtain ⟨-, hp, -, ht⟩ := pauseExecution_spec s
    refine hi.of_frame ht hp ?_
    by_cases hidle : s.pauseRequested = .none
    · rw [pauseExecution_idle hidle]
    · rw [pauseExecution_busy hidle]
  | @accepted c hc =>
    rw [resume_notifies hc hn]
    exact ⟨⟨true, rfl⟩, hi.paused, hi.status⟩
  | refused _ => exact hi
  | unattached ht _ => exact absurd (hn.symm.trans ht) (by simp)
  | hook ht _ => exact absurd (hn.symm.trans ht) (by simp)
  | hookNext hn' => exact absurd hn (hn'.running vm n)
  | wake _ => exact absurd rfl hw

theorem inPause_run {status : Status} {s t : State V} {ls : List (Lbl V)}
    (hi : InPause status s) (hr : (lts vm).Run s ls t)
    (hw : ∀ l ∈ ls, l.act ≠ .wake ∧ l.act ≠ .detachVmLocked) : InPause status t :=
  hr.invariant (fun l => l.act ≠ .wake ∧ l.act ≠ .detachVmLocked) (InPause status) hw hi
    fun _ _ _ hl hi h => inPause_step vm hi ((lts_step vm).mp h) hl.1 hl.2

/-- Only the hook announces a pause. -/
theorem paused_hookNext {s s' : State V} {a : Act V} {status : Status}
    (h : exec vm s a = some (s', .paused status)) : ∃ throws, a = .hookNext throws := by
  cases a with
  | hookNext throws => exact ⟨throws, rfl⟩
  | data call =>
    simp only [exec, dataCommand] at h
    split at h
    · simp at h
    · simp [Option.map_eq_some_iff] at h
  | sendStatus =>
    simp only [exec, sendStatus, Option.some.injEq, Prod.mk.injEq] at h
    obtain ⟨-, h⟩ := h
    split at h <;> cases h
  | detachVmLocked | script _ | hook _ =>
    simp only [exec] at h
    split at h <;> simp at h
  | wake =>
    simp only [exec] at h
    split at h <;> simp at h
  | _ => simp [exec] at h

theorem hookStop_status {s : State V} {line : Int} {handle : FileNameHandle} (throws : Bool)
    (h : Stops s line handle) :
    (hookStop vm s line handle throws).1.pauseMutexData.status =
      pauseStatus vm s line handle := by
  unfold hookStop pauseStatus
  by_cases hb : BreakpointAt s.pauseMutexData.breakpoints line handle
  · have hf : (lineBreakpoint s.pauseMutexData.breakpoints line handle).1 = true := hb
    simp [hf]
  · have hf : (lineBreakpoint s.pauseMutexData.breakpoints line handle).1 = false :=
      Bool.eq_false_iff.mpr hb
    obtain ⟨h₁, h₂⟩ := h.resolve_left hb
    simp [hf, h₁, h₂]

/-- The step by which the VM thread enters the wait of a pause. -/
theorem pauses_inv {s s' : State V} {a : Act V} {status : Status}
    (h : exec vm s a = some (s', .paused status)) (hl : a.ListenerReturns) :
    InPause status s' ∧ status.runState = .paused ∧ s'.pauseRequested ≠ .none := by
  obtain ⟨throws, rfl⟩ := paused_hookNext vm h
  obtain rfl : throws = false := hl
  cases hookNext_inv vm h with
  | @stops line handle ht hst =>
    obtain ⟨-, hq, hp, -, -, -, hthread⟩ := hookStop_stops vm false hst
    exact ⟨⟨⟨false, hthread rfl⟩, hp, hookStop_status vm false hst⟩, rfl, hq⟩

/-! ## The request in the wait -/

/-- While the VM waits, only `ContinueExecution` takes the request away. -/
theorem requested_step {s s' : State V} {l : Lbl V} {status : Status} (hi : InPause status s)
    (hq : s.pauseRequested ≠ .none) (h : exec vm s l.act = some (s', l.res))
    (hw : l.act ≠ .wake) (hd : l.act ≠ .detachVmLocked)
    (hc : l.act ≠ .resume .continueExecution) : s'.pauseRequested ≠ .none := by
  obtain ⟨n, hn⟩ := hi.waiting
  obtain ⟨a, res⟩ := l
  cases exec_inv vm h with
  | passive _ hf => exact hf.pauseRequested ▸ hq
  | detachVm => exact (detachVm_frame s).pauseRequested ▸ hq
  | detachVmLocked => exact absurd rfl hd
  | pauseExecution => exact (pauseExecution_spec s).1
  | @accepted c hacc =>
    rw [resume_notifies hacc hn]
    cases c with
    | continueExecution => exact absurd rfl hc
    | _ => simp [Resume.pauseType]
  | refused _ => exact hq
  | unattached ht _ => exact absurd (hn.symm.trans ht) (by simp)
  | hook ht _ => exact absurd (hn.symm.trans ht) (by simp)
  | hookNext hn' => exact absurd hn (hn'.running vm n)
  | wake _ => exact absurd rfl hw

theorem requested_run {status : Status} {s t : State V} {ls : List (Lbl V)}
    (hi : InPause status s) (hq : s.pauseRequested ≠ .none) (hr : (lts vm).Run s ls t)
    (hw : ∀ l ∈ ls, l.act ≠ .wake ∧ l.act ≠ .detachVmLocked)
    (hc : ∀ l ∈ ls, l.act ≠ .resume .continueExecution) : t.pauseRequested ≠ .none := by
  have hkeep := hr.invariant
    (fun l => (l.act ≠ .wake ∧ l.act ≠ .detachVmLocked) ∧ l.act ≠ .resume .continueExecution)
    (fun s => InPause status s ∧ s.pauseRequested ≠ .none)
    (fun l hl => ⟨hw l hl, hc l hl⟩) ⟨hi, hq⟩ fun s l s' hl hi h => by
      have hx := (lts_step vm).mp h
      exact ⟨inPause_step vm hi.1 hx hl.1.1 hl.1.2,
        requested_step vm hi.1 hi.2 hx hl.1.1 hl.1.2 hl.2⟩
  exact hkeep.2

/-- What `SendStatus` sends while the VM waits. -/
theorem currentStatus_inPause {status : Status} {s : State V} (hi : InPause status s)
    (hstatus : status.runState = .paused) :
    currentStatus s =
      if s.pauseRequested = .none then { runState := .running } else status := by
  unfold currentStatus
  by_cases hq : s.pauseRequested = .none
  · simp [hq]
  · have hsame : { s.pauseMutexData.status with runState := .paused } = status := by
      rw [hi.status, ← hstatus]
    simp [hq, hi.paused, hsame]

/-! ## A pause is a wait -/

/-- The systems in which no VM is detached and the listener returns. -/
def Act.Attended (a : Act V) : Prop := a.ListenerReturns ∧ a ≠ .detachVmLocked

def attended : LTS (State V) (Lbl V) := (lts vm).restrict fun _ l => l.act.Attended

/-- `isPaused` says that the VM thread is in the wait. -/
def Held (s : State V) : Prop :=
  s.pauseMutexData.isPaused = true ↔ ∃ n, s.thread = .waiting n

theorem held_of_running {s : State V} (hp : s.pauseMutexData.isPaused = false)
    (ht : ∀ n, s.thread ≠ .waiting n) : Held s :=
  iff_of_false (by simp [hp]) fun ⟨n, hn⟩ => ht n hn

theorem Held.of_frame {s s' : State V} (hi : Held s) (ht : s'.thread = s.thread)
    (hp : s'.pauseMutexData.isPaused = s.pauseMutexData.isPaused) : Held s' := by
  unfold Held
  rw [ht, hp]
  exact hi

theorem Held.not_paused {s : State V} (hi : Held s) (ht : ∀ n, s.thread ≠ .waiting n) :
    s.pauseMutexData.isPaused = false := by
  rw [Bool.eq_false_iff]
  intro hp
  obtain ⟨n, hn⟩ := hi.mp hp
  exact ht n hn

theorem held_hookNext {s s' : State V} {res : Res} (hi : Held s)
    (h : HookNext vm s false s' res) : Held s' := by
  have hp : s.pauseMutexData.isPaused = false := hi.not_paused fun n => h.running vm n
  cases h with
  | @call sourceName line _ =>
    obtain ⟨-, h₂, -, -, -, h₃⟩ := hookCall_control vm s sourceName line
    exact held_of_running (h₂.trans hp) (by simp [h₃])
  | ret _ _ | line _ _ | fault _ _ | other _ | runs _ _ => exact held_of_running hp (by simp)
  | called _ =>
    refine held_of_running ?_ (hookCalled_running s)
    rw [hookCalled_eq]
    exact hp
  | counted _ => exact held_of_running hp (by simp [hookCounted])
  | returned _ =>
    rw [hookReturned_eq]
    exact held_of_running hp (by simp)
  | stops _ hst =>
    obtain ⟨-, -, h₂, -, -, -, h₃⟩ := hookStop_stops vm false hst
    exact iff_of_true h₂ ⟨false, h₃ rfl⟩

theorem held_step {s s' : State V} {a : Act V} {res : Res} (hi : Held s)
    (h : Exec vm s a s' res) (ha : a.Attended) : Held s' := by
  cases h with
  | passive _ hf => exact hi.of_frame hf.thread hf.isPaused
  | detachVm => exact hi.of_frame (detachVm_frame s).thread (detachVm_frame s).isPaused
  | detachVmLocked => exact absurd rfl ha.2
  | pauseExecution =>
    obtain ⟨-, hp, -, ht⟩ := pauseExecution_spec s
    exact hi.of_frame ht hp
  | @accepted c hc =>
    by_cases hw : ∃ n, s.thread = .waiting n
    · obtain ⟨n, hn⟩ := hw
      have hp := hi.mpr ⟨n, hn⟩
      rw [resume_notifies hc hn]
      exact iff_of_true hp ⟨true, rfl⟩
    · have hw' : ∀ n, s.thread ≠ .waiting n := fun n hn => hw ⟨n, hn⟩
      obtain ⟨h₁, -, h₃⟩ := resume_frame s c
      exact held_of_running (h₁.trans (hi.not_paused hw')) (by rw [h₃ hw']; exact hw')
  | refused _ => exact hi
  | unattached _ _ => exact hi
  | hook ht _ => exact held_of_running (hi.not_paused (by simp [ht])) (by simp)
  | @hookNext throws _ _ hn =>
    obtain rfl : throws = false := ha.1
    exact held_hookNext vm hi hn
  | wake _ => exact held_of_running rfl (by simp [wake])

theorem held_inductive : (attended vm).Inductive Held where
  init := by
    intro s hs
    obtain ⟨e, v, rfl⟩ := hs
    exact held_of_running rfl (by simp [fresh])
  step := fun _ _ _ hi h =>
    held_step vm hi (exec_inv vm ((lts_step vm).mp h.1)) h.2

/-! ## The checks of a data command -/

/-- The watch of the command parses, where it has one. -/
def Parses : Act V → Prop
  | .data (.getImmediateValue _ watch _) => vm.parses watch = true
  | _ => True

theorem refused_notPaused {s : State V} {call : DataCall} :
    refused vm s call = some .invalidNotPaused ↔
      s.pauseMutexData.isPaused = false ∧ Parses vm (.data call) := by
  unfold refused Parses
  cases call <;> cases s.pauseMutexData.isPaused <;> simp

/-- A data command is refused while the pause flag is down. -/
theorem refused_running {s : State V} {call : DataCall}
    (hp : s.pauseMutexData.isPaused = false) : refused vm s call ≠ none := by
  unfold refused
  cases call with
  | getImmediateValue stackFrame watch pagination =>
    by_cases hw : vm.parses watch = true <;> simp [hp, hw]
  | _ => simp [hp]

theorem refused_failed {s : State V} {call : DataCall} {code : ReturnCode}
    (h : refused vm s call = some code) : code ≠ .success := by
  unfold refused at h
  cases call <;> dsimp only at h <;> split at h <;> try split at h
  all_goals simp only [Option.some.injEq, reduceCtorEq] at h
  all_goals simp [← h]

/-! ## The VM in the wait -/

/-- The data commands of a run that used the VM. -/
def usedCalls (ls : List (Lbl V)) : List DataCall :=
  ls.filterMap fun l =>
    match l.act, l.res with
    | .data call, .usedVm _ => some call
    | _, _ => none

/-- The VM after these data commands; `none` when one of them never returns. -/
def afterCalls (v : V) : List DataCall → Option V
  | [] => some v
  | call :: calls => (vm.call v call).bind fun p => afterCalls p.1 calls

theorem afterCalls_append (v : V) (calls calls' : List DataCall) :
    afterCalls vm v (calls ++ calls') =
      (afterCalls vm v calls).bind fun w => afterCalls vm w calls' := by
  induction calls generalizing v with
  | nil => rfl
  | cons call calls ih =>
    simp only [List.cons_append, afterCalls, ih, Option.bind_assoc]

theorem notifyAll_script (s : State V) : (notifyAll s).script = s.script := by
  unfold notifyAll
  split <;> rfl

theorem hookNext_script {s s' : State V} {throws : Bool} {res : Res}
    (h : hookNext vm s throws = some (s', res)) : s'.script = s.script := by
  unfold hookNext at h
  split at h <;> simp only [Option.some.injEq, Prod.mk.injEq, reduceCtorEq] at h
  · obtain ⟨rfl, -⟩ := h
    unfold hookCall
    split <;> rfl
  · obtain ⟨rfl, -⟩ := h
    unfold hookReturn
    split <;> rfl
  · obtain ⟨rfl, -⟩ := h
    unfold hookLine
    split <;> rfl
  · obtain ⟨rfl, -⟩ := h
    rfl
  · obtain ⟨rfl, -⟩ := h
    unfold hookCalled
    split <;> rfl
  · obtain ⟨rfl, -⟩ := h
    rfl
  · obtain ⟨rfl, -⟩ := h
    unfold hookReturned
    split <;> rfl
  · rename_i line handle _
    have hstop : (hookStop vm s line handle throws).1.script = s.script := by
      unfold hookStop
      split
      dsimp only
      split <;> split <;> rfl
    rw [← hstop, h]

/-- Only the script and the data commands change the VM. -/
theorem exec_script {s s' : State V} {a : Act V} {res : Res}
    (h : exec vm s a = some (s', res)) (hd : ∀ call, a ≠ .data call)
    (hv : ∀ v, a ≠ .script v) : s'.script = s.script := by
  cases a with
  | data call => exact absurd rfl (hd call)
  | script v => exact absurd rfl (hv v)
  | hookNext throws => exact hookNext_script vm h
  | detachVmLocked =>
    simp only [exec] at h
    split at h
    · cases h
    · obtain ⟨rfl, -⟩ := Prod.mk.inj (Option.some.inj h)
      by_cases hq : s.pauseRequested = .none
      · rw [detachVmLocked_idle hq]
      · rw [detachVmLocked_busy hq, notifyAll_script]
  | hook e =>
    simp only [exec] at h
    split at h
    · obtain ⟨rfl, -⟩ := Prod.mk.inj (Option.some.inj h)
      unfold hookEntry
      split <;> rfl
    · cases h
  | wake =>
    simp only [exec] at h
    split at h
    · obtain ⟨rfl, -⟩ := Prod.mk.inj (Option.some.inj h)
      rfl
    · cases h
  | detachVm =>
    obtain ⟨rfl, -⟩ := Prod.mk.inj (Option.some.inj h)
    unfold detachVm
    split <;> rfl
  | pauseExecution =>
    obtain ⟨rfl, -⟩ := Prod.mk.inj (Option.some.inj h)
    unfold pauseExecution
    split <;> rfl
  | resume c =>
    obtain ⟨rfl, -⟩ := Prod.mk.inj (Option.some.inj h)
    by_cases hc : Accepts s c
    · rw [resume_accepted hc, notifyAll_script]
    · rw [resume_refused hc]
  | setFileBreakpoints file bps =>
    obtain ⟨rfl, -⟩ := Prod.mk.inj (Option.some.inj h)
    unfold setFileBreakpoints
    split <;> rfl
  | addVm _ | sendStatus =>
    obtain ⟨rfl, -⟩ := Prod.mk.inj (Option.some.inj h)
    rfl

/-- A step while the script does not run. -/
theorem script_step {s s' : State V} {l : Lbl V} (h : exec vm s l.act = some (s', l.res))
    (hs : s.thread ≠ .script) : afterCalls vm s.script (usedCalls [l]) = some s'.script := by
  obtain ⟨a, res⟩ := l
  by_cases hd : ∃ call, a = .data call
  · obtain ⟨call, rfl⟩ := hd
    simp only [exec, dataCommand] at h
    split at h
    · simp only [Option.some.injEq, Prod.mk.injEq] at h
      obtain ⟨rfl, rfl⟩ := h
      rfl
    · simp only [Option.map_eq_some_iff, Prod.mk.injEq] at h
      obtain ⟨⟨v, code⟩, hcall, rfl, rfl⟩ := h
      simp [usedCalls, afterCalls, hcall]
  · have hd' : ∀ call, a ≠ .data call := fun call ha => hd ⟨call, ha⟩
    have hv : ∀ v, a ≠ .script v := by
      intro v ha
      subst ha
      simp only [exec, if_neg hs] at h
      cases h
    have hcalls : usedCalls [(⟨a, res⟩ : Lbl V)] = [] := by
      cases a with
      | data call => exact absurd rfl (hd' call)
      | _ => rfl
    rw [hcalls, exec_script vm h hd' hv]
    rfl

theorem script_run {s t : State V} {ls : List (Lbl V)} {n : Bool} (h : (lts vm).Run s ls t)
    (hs : s.thread = .waiting n) (hw : ∀ l ∈ ls, l.act ≠ .wake) :
    afterCalls vm s.script (usedCalls ls) = some t.script := by
  induction h generalizing n with
  | nil => rfl
  | @cons s t u l ls hst _ ih =>
    have hex := (lts_step vm).mp hst
    obtain ⟨m, hm, -⟩ := waiting_step vm hs hex (hw l List.mem_cons_self)
    have hrest := ih hm fun l' hl' => hw l' (List.mem_cons_of_mem _ hl')
    have hl := script_step vm hex (by simp [hs])
    have hsplit : usedCalls (l :: ls) = usedCalls [l] ++ usedCalls ls :=
      List.filterMap_append (l := [l])
    rw [hsplit, afterCalls_append, hl]
    exact hrest

/-! ## Main result -/

/-- **A pause keeps its status.** Let the hook announce a pause with `status`, and let
any commands follow before the VM thread leaves the wait. `SendStatus` then sends
`status` again, the same stack and the same breakpoint, or, when a `ContinueExecution`
was among the commands, perhaps `Running`. -/
theorem resent_status {s s' t t' : State V} {a : Act V} {status : Status} {res : Res}
    {ls : List (Lbl V)} (hpause : exec vm s a = some (s', .paused status))
    (hl : a.ListenerReturns) (hr : (lts vm).Run s' ls t)
    (hw : ∀ l ∈ ls, l.act ≠ .wake ∧ l.act ≠ .detachVmLocked)
    (hsend : exec vm t .sendStatus = some (t', res)) (he : t.eventInterface = true) :
    t' = t ∧ (res = .sent status ∨
      (res = .sent { runState := .running } ∧ t.pauseRequested = .none ∧
        ∃ l ∈ ls, l.act = .resume .continueExecution)) := by
  obtain ⟨hi, hstatus, hq⟩ := pauses_inv vm hpause hl
  have hit := inPause_run vm hi hr hw
  simp only [exec, sendStatus, he, if_true, Option.some.injEq, Prod.mk.injEq,
    currentStatus_inPause hit hstatus] at hsend
  obtain ⟨rfl, rfl⟩ := hsend
  refine ⟨rfl, ?_⟩
  by_cases hnone : t.pauseRequested = .none
  · right
    rw [if_pos hnone]
    refine ⟨rfl, hnone, ?_⟩
    by_contra hnot
    have hc : ∀ l ∈ ls, l.act ≠ .resume .continueExecution := fun l hl he => hnot ⟨l, hl, he⟩
    exact requested_run vm hi hq hr hw hc hnone
  · rw [if_neg hnone]
    exact .inl rfl

end

theorem stepIn_run : (lts idleVm).Run pausedState [⟨.resume .stepIn, .rc .success⟩]
    (resume pausedState .stepIn).1 := .single ((lts_step idleVm).mpr rfl)

/-- The VM thread pauses, a client steps into the next call, another asks for the
status. -/
theorem resent_status_stepIn :
    Res.sent (currentStatus (resume pausedState .stepIn).1) = .sent { runState := .paused } ∨
      (Res.sent (currentStatus (resume pausedState .stepIn).1) = .sent { runState := .running } ∧
        (resume pausedState .stepIn).1.pauseRequested = .none ∧
        ∃ l ∈ [(⟨.resume .stepIn, .rc .success⟩ : Lbl Unit)],
          l.act = .resume .continueExecution) := by
  have hpause : exec idleVm beforePauseState (.hookNext false) =
      some (pausedState, .paused { runState := .paused }) := rfl
  exact (resent_status idleVm hpause rfl stepIn_run (by simp) rfl rfl).2

end Sdb.L2
