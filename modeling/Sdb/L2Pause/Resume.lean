import Sdb.L2Pause.Confirm

/-!
# One resume command for one wait

`notify_all` does not wake the VM thread at once: between the notification and
the moment the thread has the mutex again, `isPaused` is still set and
`pauseRequested_` holds what the command left there. `ContinueExecution` clears
the request, so a second one is refused; the step commands look at `isPaused`
alone, so a step is accepted in this window, and `ContinueExecution` is accepted
there after a step.

`Timely` is the condition on a call that keeps this from happening: it is not
made in the window while its own guard is up. `one_resume_per_wait` shows that
in a wait whose calls are timely at most one resume command is accepted, and
that without a detach it is exactly this condition, which can then be read off the
calls (`SparesWindow`); `second_resume_accepted` is a wait in which two are.
-/
namespace Sdb.L2

open Sdb.L1

section
variable {V : Type} (vm : VmAccess V)

def Act.isResume : Act V → Bool
  | .resume _ => true
  | _ => false

/-- A resume command returned `Success`. -/
def Lbl.accepted (l : Lbl V) : Bool := l.act.isResume && decide (l.res = .rc .success)

/-- The number of resume commands that returned `Success`. -/
def accepted (ls : List (Lbl V)) : Nat := ls.countP Lbl.accepted

/-- If the action is a resume command, then the VM thread has not been notified
yet, or the guard of the command is down: `isPaused` for a step,
`pauseRequested_` for `ContinueExecution`. -/
def Timely (s : State V) (l : Lbl V) : Prop :=
  ∀ c, l.act = .resume c → s.thread = .waiting true → ¬ Accepts s c

theorem accepted_cons (l : Lbl V) (ls : List (Lbl V)) :
    accepted (l :: ls) = accepted ls + if l.accepted then 1 else 0 := by
  simp [accepted, List.countP_cons]

/-- A resume command that is not accepted is refused as not paused. -/
theorem resume_result {s s' : State V} {l : Lbl V} (h : exec vm s l.act = some (s', l.res))
    (hl : l.act.isResume = true) :
    (l.accepted = true ∧ l.res = .rc .success) ∨
      (l.accepted = false ∧ l.res = .rc .invalidNotPaused) := by
  cases ha : l.act with
  | resume c =>
    simp only [ha, exec, Option.some.injEq, Prod.mk.injEq] at h
    unfold Lbl.accepted
    rw [ha, ← h.2]
    by_cases hc : Accepts s c
    · left; simp [resume_accepted hc, Act.isResume]
    · right; simp [resume_refused hc, Act.isResume]
  | _ => simp [ha, Act.isResume] at hl

theorem accepted_iff {s s' : State V} {l : Lbl V} {c : Resume}
    (h : exec vm s l.act = some (s', l.res)) (hl : l.act = .resume c) :
    l.accepted = true ↔ Accepts s c := by
  simp only [hl, exec, Option.some.injEq, Prod.mk.injEq] at h
  rw [← resume_success_iff, Lbl.accepted, hl, ← h.2]
  simp [Act.isResume]

theorem not_accepted {l : Lbl V} (hl : ∀ c, l.act ≠ .resume c) : l.accepted = false := by
  unfold Lbl.accepted
  cases ha : l.act with
  | resume c => exact absurd ha (hl c)
  | _ => rfl

/-! ## Inside a wait -/

/-- While the VM thread waits, a step other than `wake` leaves it waiting. It is
notified afterwards if it was before or if a resume command was accepted, and,
a detach apart, only then. -/
theorem waiting_step {s s' : State V} {l : Lbl V} {n : Bool} (hs : s.thread = .waiting n)
    (h : exec vm s l.act = some (s', l.res)) (hw : l.act ≠ .wake) :
    ∃ m, s'.thread = .waiting m ∧ (n = true ∨ l.accepted = true → m = true) ∧
      (l.act ≠ .detachVmLocked → m = true → n = true ∨ l.accepted = true) := by
  obtain ⟨a, res⟩ := l
  have hiff := fun c (hl : a = .resume c) => accepted_iff vm h hl
  have hsame : SameControl s s' → (∀ c, a ≠ .resume c) →
      ∃ m, s'.thread = .waiting m ∧ (n = true ∨ Lbl.accepted ⟨a, res⟩ = true → m = true) ∧
        (a ≠ .detachVmLocked → m = true → n = true ∨ Lbl.accepted ⟨a, res⟩ = true) := by
    intro hf ha
    exact ⟨n, hf.thread.trans hs, by simp [not_accepted (l := ⟨a, res⟩) ha], fun _ hm => .inl hm⟩
  cases exec_inv vm h with
  | passive ha hf => exact hsame hf fun c hc => by simp [hc, Act.Passive] at ha
  | detachVm => exact hsame (detachVm_frame s) (by simp)
  | detachVmLocked =>
    rw [detachVmLocked_thread]
    split
    · exact ⟨n, hs, by simp [Lbl.accepted, Act.isResume], fun hne => absurd rfl hne⟩
    · rw [notifyAll_waiting hs]
      exact ⟨true, rfl, fun _ => rfl, fun hne => absurd rfl hne⟩
  | pauseExecution =>
    exact ⟨n, (pauseExecution_spec s).2.2.2.trans hs, by simp [Lbl.accepted, Act.isResume],
      fun _ hm => .inl hm⟩
  | @accepted c hc =>
    rw [resume_notifies hc hs]
    exact ⟨true, rfl, fun _ => rfl, fun _ _ => .inr ((hiff c rfl).mpr hc)⟩
  | @refused c hc =>
    have hna : ¬ Lbl.accepted (⟨.resume c, .rc .invalidNotPaused⟩ : Lbl V) = true :=
      fun e => hc ((hiff c rfl).mp e)
    exact ⟨n, hs, by simp [hna], fun _ hm => .inl hm⟩
  | unattached ht _ => exact absurd (hs.symm.trans ht) (by simp)
  | hook ht _ => exact absurd (hs.symm.trans ht) (by simp)
  | hookNext hn => exact absurd hs (hn.running vm n)
  | wake _ => exact absurd rfl hw

/-- Timely calls: none is accepted once the VM thread is notified, at most one
before. -/
theorem accepted_le {s s' : State V} {ls : List (Lbl V)} {n : Bool}
    (h : ((lts vm).restrict Timely).Run s ls s') (hs : s.thread = .waiting n)
    (hw : ∀ l ∈ ls, l.act ≠ .wake) : accepted ls ≤ if n then 0 else 1 := by
  induction h generalizing n with
  | nil => simp [accepted]
  | @cons s t s' l ls hst _ ih =>
    obtain ⟨hstep, htimely⟩ := hst
    rw [lts_step] at hstep
    obtain ⟨m, hm, himp, -⟩ := waiting_step vm hs hstep (hw l List.mem_cons_self)
    have hrest := ih hm fun l' hl' => hw l' (List.mem_cons_of_mem _ hl')
    rw [accepted_cons]
    by_cases ha : l.accepted = true
    · obtain rfl : m = true := himp (.inr ha)
      have hn : n = false := by
        by_contra hne
        have hn : n = true := by simpa using hne
        have hres : l.act.isResume = true := by
          unfold Lbl.accepted at ha
          simp only [Bool.and_eq_true] at ha
          exact ha.1
        cases hc : l.act with
        | resume c =>
          exact htimely c hc (hn ▸ hs) ((accepted_iff vm hstep hc).mp ha)
        | _ => simp [hc, Act.isResume] at hres
      simp_all
    · cases n with
      | true =>
        obtain rfl : m = true := himp (.inl rfl)
        simp_all
      | false =>
        have hle₁ : (if m = true then 0 else 1) ≤ 1 := by split <;> omega
        simp only [ha, Bool.false_eq_true, if_false]
        omega

/-- Without a detach, a wait in which no more than that are accepted has timely
calls only. -/
theorem timely_of_accepted_le {s s' : State V} {ls : List (Lbl V)} {n : Bool}
    (h : (lts vm).Run s ls s') (hs : s.thread = .waiting n) (hw : ∀ l ∈ ls, l.act ≠ .wake)
    (hd : ∀ l ∈ ls, l.act ≠ .detachVmLocked) (hle : accepted ls ≤ if n then 0 else 1) :
    ((lts vm).restrict Timely).Run s ls s' := by
  induction h generalizing n with
  | nil => exact .nil _
  | @cons s t s' l ls hstep _ ih =>
    have hstep' := (lts_step vm).mp hstep
    obtain ⟨m, hm, -, hconv⟩ := waiting_step vm hs hstep' (hw l List.mem_cons_self)
    have hconv := hconv (hd l List.mem_cons_self)
    rw [accepted_cons] at hle
    have htimely : Timely s l := by
      intro c hc hnt hacc
      have hn : n = true := by rw [hs] at hnt; simpa using hnt
      have ha : l.accepted = true := (accepted_iff vm hstep' hc).mpr hacc
      simp [hn, ha] at hle
    refine .cons ⟨hstep, htimely⟩ (ih hm (fun l' hl' => hw l' (List.mem_cons_of_mem _ hl'))
      (fun l' hl' => hd l' (List.mem_cons_of_mem _ hl')) ?_)
    have hle₁ : (if n = true then 0 else 1) ≤ 1 := by split <;> omega
    cases m with
    | false => simp only [Bool.false_eq_true, if_false]; omega
    | true =>
      rcases hconv rfl with hn | ha
      · simp only [hn, if_true] at hle ⊢; omega
      · simp only [ha, if_true] at hle ⊢; omega

/-! ## The condition on the calls -/

/-- Where a wait stands, read off the calls made in it: whether it has been notified, and
then whether a request is outstanding. -/
def window : Option Bool → Act V → Option Bool
  | none, .resume c => some (c ≠ .continueExecution)
  | some _, .pauseExecution => some true
  | w, _ => w

/-- After the first resume command no step is called, and no `ContinueExecution` after a
step or a `PauseExecution`. -/
def SparesWindow : Option Bool → List (Act V) → Prop
  | _, [] => True
  | w, a :: as =>
    (∀ c r, a = .resume c → w = some r → c = .continueExecution ∧ r = false) ∧
      SparesWindow (window w a) as

structure InWindow (w : Option Bool) (s : State V) : Prop where
  thread : s.thread = .waiting w.isSome
  paused : s.pauseMutexData.isPaused = true
  request : s.pauseRequested = .none ↔ w = some false

theorem InWindow.of_same {w : Option Bool} {s s' : State V} (hi : InWindow w s)
    (h : SameControl s s') : InWindow w s' :=
  ⟨h.thread.trans hi.thread, h.isPaused.trans hi.paused, by rw [h.pauseRequested, hi.request]⟩

theorem InWindow.timely_iff {w : Option Bool} {s : State V} {l : Lbl V} (hi : InWindow w s) :
    Timely s l ↔ ∀ c r, l.act = .resume c → w = some r → c = .continueExecution ∧ r = false := by
  constructor
  · rintro ht c r hc rfl
    have hna := ht c hc hi.thread
    cases c with
    | continueExecution =>
      refine ⟨rfl, ?_⟩
      simpa [Accepts, hi.request] using hna
    | stepIn | stepOver | stepOut => exact absurd hi.paused hna
  · intro hall c hc hth hacc
    cases w with
    | none =>
      rw [hi.thread] at hth
      cases hth
    | some r =>
      obtain ⟨rfl, rfl⟩ := hall c r hc rfl
      exact hacc (hi.request.mpr rfl)

theorem inWindow_step {w : Option Bool} {s s' : State V} {l : Lbl V} (hi : InWindow w s)
    (h : exec vm s l.act = some (s', l.res)) (hw : l.act ≠ .wake)
    (hd : l.act ≠ .detachVmLocked) (ht : Timely s l) : InWindow (window w l.act) s' := by
  obtain ⟨a, res⟩ := l
  cases exec_inv vm h with
  | passive ha hf =>
    have hsame : window w a = w := by
      cases a with
      | resume c => exact ha.elim
      | pauseExecution => exact ha.elim
      | _ => cases w <;> rfl
    show InWindow (window w a) s'
    rw [hsame]
    exact hi.of_same hf
  | detachVm =>
    have hf := detachVm_frame s
    cases w with
    | none => exact hi.of_same hf
    | some r => exact hi.of_same hf
  | detachVmLocked => exact absurd rfl hd
  | pauseExecution =>
    obtain ⟨hreq, hp, -, hth⟩ := pauseExecution_spec s
    cases w with
    | none => exact ⟨hth.trans hi.thread, hp.trans hi.paused, iff_of_false hreq (by simp [window])⟩
    | some r =>
      exact ⟨hth.trans hi.thread, hp.trans hi.paused, iff_of_false hreq (by simp [window])⟩
  | @accepted c hc =>
    cases w with
    | some r => exact absurd hc (ht c rfl hi.thread)
    | none =>
      rw [resume_notifies hc hi.thread]
      refine ⟨rfl, hi.paused, ?_⟩
      cases c <;> simp [window, Resume.pauseType]
  | @refused c hc =>
    cases w with
    | some r => exact hi
    | none =>
      refine absurd ?_ hc
      cases c with
      | continueExecution => exact fun hnone => by simpa using hi.request.mp hnone
      | stepIn | stepOver | stepOut => exact hi.paused
  | unattached hth _ => exact absurd (hi.thread.symm.trans hth) (by simp)
  | hook hth _ => exact absurd (hi.thread.symm.trans hth) (by simp)
  | hookNext hn => exact absurd hi.thread (hn.running vm _)
  | wake _ => exact absurd rfl hw

/-- Inside a wait without a detach, timely calls are those that spare the window. -/
theorem timely_iff_spares {w : Option Bool} {s s' : State V} {ls : List (Lbl V)}
    (hi : InWindow w s) (h : (lts vm).Run s ls s') (hw : ∀ l ∈ ls, l.act ≠ .wake)
    (hd : ∀ l ∈ ls, l.act ≠ .detachVmLocked) :
    ((lts vm).restrict Timely).Run s ls s' ↔ SparesWindow w (ls.map Lbl.act) := by
  induction h generalizing w with
  | nil => exact iff_of_true (.nil _) trivial
  | @cons s t s' l ls hs _ ih =>
    have hnext : Timely s l → (((lts vm).restrict Timely).Run t ls s' ↔
        SparesWindow (window w l.act) (ls.map Lbl.act)) := fun ht =>
      ih (inWindow_step vm hi ((lts_step vm).mp hs) (hw l List.mem_cons_self)
        (hd l List.mem_cons_self) ht) (fun l' hl' => hw l' (List.mem_cons_of_mem _ hl'))
        fun l' hl' => hd l' (List.mem_cons_of_mem _ hl')
    constructor
    · intro hr
      obtain _ | @⟨_, u, _, _, _, hst, hr⟩ := hr
      obtain rfl := lts_functional vm _ _ _ _ hs hst.1
      exact ⟨hi.timely_iff.mp hst.2, (hnext hst.2).mp hr⟩
    · intro ⟨hhead, htail⟩
      have ht := hi.timely_iff.mpr hhead
      exact .cons ⟨hs, ht⟩ ((hnext ht).mpr htail)

/-- **One resume command for one wait.** Take the part of a run from the entry
of the VM thread into the wait (not notified) on, as long as it does not leave
the wait. If its resume commands are timely, at most one of them returns
`Success`; without a detach in it that holds only if they are timely, which, in the
wait of a confirmed pause, means that they spare the window. Every other resume
command is refused with `InvalidNotPaused`. -/
theorem one_resume_per_wait (s s' : State V) (ls : List (Lbl V))
    (hs : s.thread = .waiting false) (h : (lts vm).Run s ls s')
    (hw : ∀ l ∈ ls, l.act ≠ .wake) :
    (((lts vm).restrict Timely).Run s ls s' → accepted ls ≤ 1) ∧
      ((∀ l ∈ ls, l.act ≠ .detachVmLocked) →
        (accepted ls ≤ 1 ↔ ((lts vm).restrict Timely).Run s ls s')) ∧
      (∀ l ∈ ls, l.act.isResume = true → l.accepted = false → l.res = .rc .invalidNotPaused) ∧
      (s.pauseMutexData.isPaused = true → s.pauseRequested ≠ .none →
        (∀ l ∈ ls, l.act ≠ .detachVmLocked) →
        (accepted ls ≤ 1 ↔ SparesWindow none (ls.map Lbl.act))) := by
  have hexact : (∀ l ∈ ls, l.act ≠ .detachVmLocked) →
      (accepted ls ≤ 1 ↔ ((lts vm).restrict Timely).Run s ls s') := fun hd =>
    ⟨fun hle => timely_of_accepted_le vm h hs hw hd (by simpa using hle),
      fun ht => by simpa using accepted_le vm ht hs hw⟩
  refine ⟨fun ht => by simpa using accepted_le vm ht hs hw, hexact, fun l hl hres hna => ?_,
    fun hp hq hd => ?_⟩
  · obtain ⟨l₁, l₂, rfl⟩ := List.append_of_mem hl
    obtain ⟨t, -, h₂⟩ := h.split
    obtain _ | ⟨hst, -⟩ := h₂
    rcases resume_result vm ((lts_step vm).mp hst) hres with ⟨ha, -⟩ | ⟨-, hres⟩
    · rw [hna] at ha; cases ha
    · exact hres
  · rw [hexact hd]
    exact timely_iff_spares vm ⟨hs, hp, iff_of_false hq (by simp)⟩ h hw hd

end

/-! ## Two accepted commands in one wait -/

/-- Two clients resume the paused VM before its thread wakes: a step into, then
a step out. -/
def twoResumes : List (Lbl Unit) :=
  [⟨.resume .stepIn, .rc .success⟩, ⟨.resume .stepOut, .rc .success⟩]

theorem one_resume_per_wait_continue :
    ∃ s', (lts idleVm).Run pausedState [⟨.resume .continueExecution, .rc .success⟩] s' ∧
      accepted [(⟨.resume .continueExecution, .rc .success⟩ : Lbl Unit)] ≤ 1 := by
  refine ⟨_, .single rfl, (one_resume_per_wait idleVm pausedState _
    [⟨.resume .continueExecution, .rc .success⟩] rfl (.single rfl) (by simp)).1 ?_⟩
  refine .single ⟨rfl, fun c _ ht => ?_⟩
  cases ht

/-- In this wait, entered from a reachable state, two resume commands return
`Success`. -/
theorem second_resume_accepted :
    ∃ s', (lts idleVm).Reachable pausedState ∧ pausedState.thread = .waiting false ∧
      (lts idleVm).Run pausedState twoResumes s' ∧ (∀ l ∈ twoResumes, l.act ≠ .wake) ∧
      accepted twoResumes = 2 :=
  ⟨_, pausedState_reachable.of_restrict, rfl, .cons (rfl : _ = some _) (.single rfl),
    by simp [twoResumes], rfl⟩

end Sdb.L2
