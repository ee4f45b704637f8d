import Sdb.L2Pause.Monitor

/-!
# Stepping out of the last frame

`StepOut` asks for the next line one frame further out. From the only open frame there is
none: `returnsRequired` counts down to zero when that frame returns, but a line event comes
only after a call, which counts it up again. The request stays, and while it does,
`PauseExecution` leaves the counter alone.

* `awaitsNone_step`, `awaitsNone_run`: the target below all frames is kept;
* `stepOut_lastFrame`: until a resume command is accepted only a breakpoint stops the
  script.
-/
namespace Sdb.L2

open Sdb.L1

section
variable {V : Type} (vm : VmAccess V)

/-- Neither a pause nor an accepted resume command. -/
def Lbl.Undecided (l : Lbl V) : Prop :=
  (∀ status, l.res ≠ .paused status) ∧ ∀ c, l.act = .resume c → l.res ≠ .rc .success

/-- The request is for a line outside all frames. -/
def AwaitsNone (m : Monitor) (s : State V) : Prop := Alive s → m.goal = some (.atMost 0)

/-- The hook does not come back from an access the C++ standard leaves undefined. -/
theorem alive_back {s s' : State V} {a : Act V} {res : Res} (h : Exec vm s a s' res)
    (hd : a ≠ .detachVmLocked) (ha : Alive s') : Alive s := by
  cases h with
  | passive _ hf =>
    unfold Alive at ha ⊢
    rw [← hf.thread, ← hf.currentStack]
    exact ha
  | detachVm =>
    have hf := detachVm_frame s
    unfold Alive at ha ⊢
    rw [← hf.thread, ← hf.currentStack]
    exact ha
  | detachVmLocked => exact absurd rfl hd
  | pauseExecution =>
    obtain ⟨-, -, hvm, hth⟩ := pauseExecution_spec s
    unfold Alive at ha ⊢
    rw [← hth, ← hvm]
    exact ha
  | @accepted c _ =>
    obtain ⟨-, hvm, hth⟩ := resume_frame s c
    by_cases hw : ∃ n, s.thread = .waiting n
    · obtain ⟨n, hn⟩ := hw
      simp [Alive, hn]
    · unfold Alive at ha ⊢
      rw [← hth fun n hn => hw ⟨n, hn⟩, ← hvm]
      exact ha
  | refused _ => exact ha
  | unattached _ _ => exact ha
  | hook ht _ => simp [Alive, ht]
  | hookNext hn =>
    cases hn with
    | ret ht hstk => simp [Alive, ht, hstk]
    | fault _ _ => exact absurd rfl ha.1
    | call ht | line ht _ | other ht | called ht | counted ht | returned ht | stops ht _
    | runs ht _ =>
      simp [Alive, ht]
  | wake ht => simp [Alive, ht]

/-- Only a return changes the target, and the outermost return does not reach below it. -/
theorem awaitsNone_step {textOf : Nat → Bytes} {m : Monitor} {s s' : State V} {l : Lbl V}
    (hi : Agrees vm textOf True m s) (hg : AwaitsNone m s) (h : (monitored vm textOf).step s l s')
    (hl : l.Undecided) : AwaitsNone (m.next vm l) s' := by
  intro ha
  obtain ⟨a, res⟩ := l
  obtain ⟨⟨h, hsteady⟩, -⟩ := h
  have hx := exec_inv vm ((lts_step vm).mp h)
  have hd : a ≠ .detachVmLocked := by
    rintro rfl
    exact hsteady
  have hgoal := hg (alive_back vm hx hd ha)
  obtain ⟨hpause, hresume⟩ := hl
  show m.nextGoal vm ⟨a, res⟩ = some (.atMost 0)
  cases hx with
  | @hook e ht _ =>
    cases e with
    | r =>
      obtain ⟨name, rest, hf⟩ : ∃ name rest, m.seen.frames = name :: rest :=
        List.exists_cons_of_ne_nil fun hnil => ha.2 rfl ((hi.no_frames vm ht).mp hnil)
      have hdepth : ¬ m.depth - 1 < 0 := by
        simp [Monitor.depth, hf]
      simp [Monitor.nextGoal, hgoal, Goal.afterReturn, hdepth]
    | _ => exact hgoal
  | pauseExecution => simp [Monitor.nextGoal, hgoal]
  | accepted _ => exact absurd rfl (hresume _ rfl)
  | hookNext hn =>
    cases hn with
    | stops _ _ => exact absurd rfl (hpause _)
    | _ => exact hgoal
  | passive hp _ =>
    cases a with
    | addVm _ | setFileBreakpoints _ _ | sendStatus | data _ | script _ => exact hgoal
    | _ => exact hp.elim
  | unattached _ hv => exact absurd hi.tracks.attached (by simpa using hv)
  | _ => exact hgoal

/-- A request is outstanding all along, so none can race. -/
theorem AwaitsNone.unraced {textOf : Nat → Bytes} {m : Monitor} {s : State V} {a : Act V}
    (hg : AwaitsNone m s) (hi : Agrees vm textOf True m s) : ¬ Races s a := by
  intro ⟨_, hreq, ht⟩
  have hgoal := hg (by simp [Alive, ht])
  rw [hi.request.mp hreq] at hgoal
  cases hgoal

theorem awaitsNone_run {textOf : Nat → Bytes} {m : Monitor} {s t : State V} {ls : List (Lbl V)}
    (hi : Agrees vm textOf True m s) (hg : AwaitsNone m s) (h : (monitored vm textOf).Run s ls t)
    (hl : ∀ l ∈ ls, l.Undecided) :
    Agrees vm textOf True (ls.foldl (Monitor.next vm) m) t ∧
      AwaitsNone (ls.foldl (Monitor.next vm) m) t := by
  induction h generalizing m with
  | nil => exact ⟨hi, hg⟩
  | @cons s u t l ls hs _ ih =>
    exact ih (agrees_step vm hi hs fun _ => hg.unraced vm hi)
      (awaitsNone_step vm hi hg hs (hl l List.mem_cons_self))
      fun l' hl' => hl l' (List.mem_cons_of_mem l hl')

/-- There is a frame at every line event. -/
theorem depth_at_line {textOf : Nat → Bytes} {m : Monitor} {s : State V} {line : Int}
    {handle : FileNameHandle} (hi : Agrees vm textOf True m s)
    (ht : s.thread = .stopping line handle) : 0 < m.depth := by
  obtain ⟨fs, ha, hfs⟩ := hi.tracks.frames
  rw [ht] at ha
  obtain rfl : m.seen.frames = fs := ha
  obtain ⟨frame, rest, hstk, -⟩ := hi.tracks.top line handle ht
  have hlen := hfs.length_eq
  rw [hstk, List.length_cons] at hlen
  unfold Monitor.depth
  omega

/-- Whatever raced before, the agreement that a counter has no part in is kept. -/
theorem agrees_run_raced {textOf : Nat → Bytes} {unraced : Prop} {m : Monitor} {s t : State V}
    {ls : List (Lbl V)} (hi : Agrees vm textOf unraced m s)
    (h : (monitored vm textOf).Run s ls t) :
    Agrees vm textOf False (ls.foldl (Monitor.next vm) m) t := by
  induction h generalizing m unraced with
  | nil => exact ⟨hi.tracks, hi.held, hi.request, False.elim, hi.line⟩
  | cons hs _ ih =>
    have hi' : Agrees vm textOf False m _ :=
      ⟨hi.tracks, hi.held, hi.request, False.elim, hi.line⟩
    exact ih (agrees_step vm hi' hs False.elim)

/-- The step command sets a counter of its own. -/
theorem agrees_stepOut {textOf : Nat → Bytes} {m : Monitor} {s t : State V}
    (hi : Agrees vm textOf False m s)
    (hstep : exec vm s (.resume .stepOut) = some (t, .rc .success)) :
    Agrees vm textOf True (m.next vm ⟨.resume .stepOut, .rc .success⟩) t := by
  have hs : (monitored vm textOf).step s ⟨.resume .stepOut, .rc .success⟩ t :=
    ⟨⟨(lts_step vm).mpr hstep, trivial⟩, trivial⟩
  have hi' := agrees_step vm hi hs False.elim
  cases exec_inv vm hstep with
  | accepted hc => exact agrees_accepted vm hi hc hi'.tracks hi'.held
  | passive ha _ => exact ha.elim

/-! ## Main result -/

/-- **Stepping out of the last frame is not undone by `PauseExecution`.** Take a run that
starts with an attached VM, in which the VM stays attached, the listener returns and the
text of a source name is a function of its address, and let `StepOut` be accepted while one
frame is open. Up to the next accepted resume command, whatever else is called and wherever
the script goes, its next stop is at a breakpoint. -/
theorem stepOut_lastFrame (textOf : Nat → Bytes) (eventInterface : Bool) (v : V) (vmHandle : Nat)
    {ls ls' : List (Lbl V)} {s t u u' : State V} {throws : Bool} {status : Status}
    (hr : (monitored vm textOf).Run (addVm (fresh eventInterface v) vmHandle) ls s)
    (hone : (monitor vm ls).depth = 1)
    (hstep : exec vm s (.resume .stepOut) = some (t, .rc .success))
    (hr' : (monitored vm textOf).Run t ls' u) (hl : ∀ l ∈ ls', l.Undecided)
    (hstop : exec vm u (.hookNext throws) = some (u', .paused status)) :
    ∃ b, (monitor vm (ls ++ ⟨.resume .stepOut, .rc .success⟩ :: ls')).breakpoint vm = some b ∧
      status.pausedAtBreakpointId = b.id := by
  have hi : Agrees vm textOf False (monitor vm ls) s :=
    agrees_run_raced vm (agrees_fresh vm textOf eventInterface v vmHandle) hr
  have hi' := agrees_stepOut vm hi hstep
  have hgoal : ((monitor vm ls).next vm ⟨.resume .stepOut, .rc .success⟩).goal =
      some (.atMost 0) := by
    show some (Goal.atMost ((monitor vm ls).depth - 1)) = some (.atMost 0)
    rw [hone]
    rfl
  obtain ⟨hiu, hkept⟩ := awaitsNone_run vm hi' (fun _ => hgoal) hr' hl
  have hmonitor : monitor vm (ls ++ ⟨.resume .stepOut, .rc .success⟩ :: ls') =
      ls'.foldl (Monitor.next vm) ((monitor vm ls).next vm ⟨.resume .stepOut, .rc .success⟩) := by
    simp only [monitor, List.foldl_append, List.foldl_cons]
  rw [← hmonitor] at hiu hkept
  cases hookNext_inv vm hstop with
  | @stops line handle ht hst =>
    have hdepth := depth_at_line vm hiu ht
    rcases (hiu.stops_iff vm ht).mp hst with hb | ⟨g, hg, hmet⟩
    · obtain ⟨b, hb⟩ := Option.isSome_iff_exists.mp hb
      refine ⟨b, hb, ?_⟩
      simp [pauseStatus, hiu.lineBreakpoint vm ht, hb, toBreakpoint]
    · rw [hkept (by simp [Alive, ht])] at hg
      obtain rfl := Option.some.inj hg
      have hle : (monitor vm (ls ++ ⟨.resume .stepOut, .rc .success⟩ :: ls')).depth ≤ 0 := hmet
      omega

end

/-! ## A request that nothing meets -/

/-- A breakpoint on line 5 stops the script in its only frame. -/
def stoppedRun : List (Lbl Unit) :=
  [⟨.setFileBreakpoints nameA.text [⟨1, 5⟩], .rc .success⟩,
    ⟨.hook (.c nameA 1), .silent⟩, ⟨.hookNext false, .silent⟩, ⟨.hookNext false, .silent⟩,
    ⟨.hook (.l 5), .silent⟩, ⟨.hookNext false, .silent⟩,
    ⟨.hookNext false, .paused { runState := .paused, pausedAtBreakpointId := 1 }⟩]

/-- The frame returns, a client asks for a pause, and the next call runs past line 4. -/
def pastLineRun : List (Lbl Unit) :=
  [⟨.wake, .silent⟩, ⟨.hook .r, .silent⟩, ⟨.hookNext false, .silent⟩, ⟨.hookNext false, .silent⟩,
    ⟨.pauseExecution, .rc .success⟩,
    ⟨.hook (.c nameA 1), .silent⟩, ⟨.hookNext false, .silent⟩, ⟨.hookNext false, .silent⟩,
    ⟨.hookNext false, .silent⟩,
    ⟨.hook (.l 4), .silent⟩, ⟨.hookNext false, .silent⟩, ⟨.hookNext false, .silent⟩,
    ⟨.hook (.l 5), .silent⟩, ⟨.hookNext false, .silent⟩]

theorem stepOut_lastFrame_pastLine : ∃ t u u' status,
    (monitored idleVm fun _ => nameA.text).Run t pastLineRun u ∧
      exec idleVm u (.hookNext false) = some (u', .paused status) ∧
        status.pausedAtBreakpointId = 1 := by
  have hrun : ∃ s t u u' status,
      stoppedRun.foldlM (stepLbl idleVm) (addVm (fresh true ()) 1) = some s ∧
        exec idleVm s (.resume .stepOut) = some (t, .rc .success) ∧
        pastLineRun.foldlM (stepLbl idleVm) t = some u ∧
        exec idleVm u (.hookNext false) = some (u', .paused status) :=
    ⟨_, _, _, _, _, rfl, rfl, rfl, rfl⟩
  obtain ⟨s, t, u, u', status, hfold, hstep, hfold', hstop⟩ := hrun
  have hr : (monitored idleVm fun _ => nameA.text).Run (addVm (fresh true ()) 1) stoppedRun s :=
    monitored_run idleVm hfold (by simp [stoppedRun, Act.Steady, Act.ListenerReturns])
  have hr' : (monitored idleVm fun _ => nameA.text).Run t pastLineRun u :=
    monitored_run idleVm hfold' (by simp [pastLineRun, Act.Steady, Act.ListenerReturns])
  obtain ⟨b, hb, hid⟩ := stepOut_lastFrame idleVm (fun _ => nameA.text) true () 1 hr (by decide)
    hstep hr' (by simp [pastLineRun, Lbl.Undecided]) hstop
  obtain rfl : (⟨1, 5⟩ : CreateBreakpoint) = b := Option.some.inj hb
  exact ⟨t, u, u', status, hr', hstop, hid⟩

end Sdb.L2
