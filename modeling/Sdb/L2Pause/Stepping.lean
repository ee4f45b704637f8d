import Sdb.L2Pause.Confirm

/-!
# Where a resume command lands

After a step command the counter `returnsRequired` stands for the number of
frames still to leave. A call raises it only while it is not negative, a return
always lowers it. Measured against the target depth `T` (the depth `d` of the
pause for a step over, `d - 1` for a step out) this makes it

* the depth minus `T`, as long as the depth has not been below `T`;
* negative, and no longer related to the depth, from then on.

Between the push of a frame and the adjustment of the counter the two differ;
`due` is the counter with the adjustment still to come.

* `counts_step`: what one step does to `due` and to the depth;
* `counter_tracks_depth`: the relation above, over any run that does not pause;
* `resume_lands`: the line at which the next pause comes.
-/
namespace Sdb.L2

open Sdb.L1

section
variable {V : Type} (vm : VmAccess V)

/-- Neither `PauseExecution`, nor a resume command, nor a part of `DetachVm`. -/
def Act.Undisturbed : Act V → Prop
  | .pauseExecution | .resume _ | .detachVm | .detachVmLocked => False
  | _ => True

/-- The system up to the next pause, without commands that change the request. -/
def untilPause : LTS (State V) (Lbl V) :=
  (lts vm).restrict fun _ l => l.act.Undisturbed ∧ ∀ status, l.res ≠ .paused status

def depth (s : State V) : Int := s.vmData.currentStack.length

/-- `returnsRequired` with the adjustment the hook still owes. -/
def due (s : State V) : Int :=
  match s.thread with
  | .called => s.pauseMutexData.returnsRequired +
      if 0 ≤ s.pauseMutexData.returnsRequired then 1 else 0
  | .counting => s.pauseMutexData.returnsRequired + 1
  | .returned => s.pauseMutexData.returnsRequired - 1
  | _ => s.pauseMutexData.returnsRequired

/-- One step as the counter sees it: nothing, a call, or a return. -/
inductive Counts (s s' : State V) : Prop where
  | none (hdepth : depth s' = depth s) (hdue : due s' = due s)
  | call (hdepth : depth s' = depth s + 1) (hdue : due s' = due s + if 0 ≤ due s then 1 else 0)
  | ret (hdepth : depth s' = depth s - 1) (hdue : due s' = due s - 1)

theorem counts_of_same {s s' : State V} (h : SameControl s s') : Counts s s' := by
  refine .none ?_ ?_
  · unfold depth; rw [h.currentStack]
  · unfold due; rw [h.thread, h.returnsRequired]

/-- What a step of the VM thread inside the hook does, if it does not pause. -/
theorem counts_hookNext {s s' : State V} {throws : Bool} {res : Res}
    (hp : ∀ status, res ≠ .paused status) (h : HookNext vm s throws s' res) :
    s'.pauseRequested = s.pauseRequested ∧ (s.pauseRequested ≠ .none → Counts s s') := by
  cases h with
  | @call sourceName line ht =>
    obtain ⟨h₁, -, hc, -, ⟨handle, hstk⟩, ht'⟩ := hookCall_control vm s sourceName line
    refine ⟨h₁, fun _ => .call ?_ ?_⟩
    · simp [depth, hstk]
    · simp [due, ht, ht', hc]
  | ret ht hstk => exact ⟨rfl, fun _ => .ret (by simp [depth, hstk]) (by simp [due, ht])⟩
  | line ht hstk => exact ⟨rfl, fun _ => .none (by simp [depth, hstk]) (by simp [due, ht])⟩
  | fault ht hstk =>
    refine ⟨rfl, fun _ => .none rfl ?_⟩
    rcases ht with ht | ⟨line, ht⟩ <;> simp [due, ht]
  | other ht => exact ⟨rfl, fun _ => .none rfl (by simp [due, ht])⟩
  | called ht =>
    rw [hookCalled_eq]
    refine ⟨rfl, fun hreq => .none rfl ?_⟩
    by_cases hc : 0 ≤ s.pauseMutexData.returnsRequired
    · simp [due, ht, hreq, hc]
    · simp [due, ht, hc]
  | counted ht => exact ⟨rfl, fun _ => .none rfl (by simp [due, ht, hookCounted])⟩
  | returned ht =>
    rw [hookReturned_eq]
    exact ⟨rfl, fun hreq => .none (by simp [depth]) (by simp [due, ht, hreq])⟩
  | stops _ _ => exact absurd rfl (hp _)
  | runs ht _ => exact ⟨rfl, fun _ => .none rfl (by simp [due, ht])⟩

/-- One step before the next pause: the request stays and the counter follows
the depth. -/
theorem counts_step {s s' : State V} {l : Lbl V} (h : (untilPause vm).step s l s') :
    s'.pauseRequested = s.pauseRequested ∧ (s.pauseRequested ≠ .none → Counts s s') := by
  obtain ⟨a, res⟩ := l
  obtain ⟨h, hu, hp⟩ := h
  cases exec_inv vm ((lts_step vm).mp h) with
  | passive _ hf => exact ⟨hf.pauseRequested, fun _ => counts_of_same hf⟩
  | unattached _ _ => exact ⟨rfl, fun _ => .none rfl rfl⟩
  | hook ht _ => exact ⟨rfl, fun _ => .none rfl (by simp [due, ht])⟩
  | hookNext hn => exact counts_hookNext vm hp hn
  | wake ht => exact ⟨rfl, fun _ => .none rfl (by simp [due, wake, ht])⟩
  | pauseExecution => exact hu.elim
  | accepted _ => exact hu.elim
  | refused _ => exact hu.elim
  | detachVm => exact hu.elim
  | detachVmLocked => exact hu.elim

/-! ## Over a run -/

theorem untilPause_request {s t : State V} {ls : List (Lbl V)} (h : (untilPause vm).Run s ls t) :
    t.pauseRequested = s.pauseRequested ∧ (OnTop s → OnTop t) := by
  induction h with
  | nil => exact ⟨rfl, id⟩
  | @cons s u t l ls hs _ ih =>
    have hnd : l.act ≠ .detachVmLocked := fun e => by
      have hu := hs.2.1
      rw [e] at hu
      exact hu
    have hx := exec_inv vm ((lts_step vm).mp hs.1)
    exact ⟨ih.1.trans (counts_step vm hs).1, fun ht => ih.2 (onTop_step vm hnd hx ht)⟩

/-- A negative counter stays negative. -/
theorem due_neg_run {s t : State V} {ls : List (Lbl V)} (h : (untilPause vm).Run s ls t)
    (hreq : s.pauseRequested ≠ .none) (hd : due s < 0) : due t < 0 := by
  induction h with
  | nil => exact hd
  | cons hs _ ih =>
    obtain ⟨h₁, h₂⟩ := counts_step vm hs
    refine ih (h₁ ▸ hreq) ?_
    cases h₂ hreq with
    | none _ hdue => omega
    | call _ hdue => rw [if_neg (by omega)] at hdue; omega
    | ret _ hdue => omega

/-- The depth has been below `T` at some state of the run. -/
def WentBelow (T : Int) (s : State V) (ls : List (Lbl V)) (t : State V) : Prop :=
  (untilPause vm).Through (fun u => depth u < T) s ls t

/-- A counter that starts as the depth minus `T` stays that until the depth goes
below `T`, and is negative afterwards. -/
theorem counter_tracks_depth {T : Int} {s t : State V} {ls : List (Lbl V)}
    (h : (untilPause vm).Run s ls t) (hreq : s.pauseRequested ≠ .none)
    (hd : due s = depth s - T) (hge : T ≤ depth s) :
    (due t < 0 ∧ WentBelow vm T s ls t) ∨
      (due t = depth t - T ∧ T ≤ depth t ∧ ¬ WentBelow vm T s ls t) := by
  induction h with
  | nil s =>
    right
    refine ⟨hd, hge, fun hb => ?_⟩
    have hlt : depth s < T := LTS.through_nil (P := fun u => depth u < T) hb
    omega
  | @cons s u t l ls hs hr ih =>
    obtain ⟨h₁, h₂⟩ := counts_step vm hs
    have hreq' : u.pauseRequested ≠ .none := h₁ ▸ hreq
    by_cases hlow : depth u < T
    · -- the step is a return from depth `T`
      left
      have hneg : due u < 0 := by
        cases h₂ hreq with
        | none hdepth hdue => omega
        | call hdepth hdue => omega
        | ret hdepth hdue => omega
      exact ⟨due_neg_run vm hr hreq' hneg, [l], ls, u, rfl, .single hs, hlow, hr⟩
    · have hu : due u = depth u - T := by
        cases h₂ hreq with
        | none hdepth hdue => omega
        | call hdepth hdue => rw [if_pos (by omega)] at hdue; omega
        | ret hdepth hdue => omega
      rcases ih hreq' hu (by omega) with ⟨hneg, hb⟩ | ⟨heq, hge', hnb⟩
      · left
        obtain ⟨l₁, l₂, w, rfl, hr₁, hw, hr₂⟩ := hb
        exact ⟨hneg, l :: l₁, l₂, w, rfl, .cons hs hr₁, hw, hr₂⟩
      · right
        refine ⟨heq, hge', fun hb => hnb ?_⟩
        obtain ⟨l₁, l₂, w, he, hr₁, hw, hr₂⟩ := hb
        cases l₁ with
        | nil =>
          obtain _ | _ := hr₁
          omega
        | cons l' l₁ =>
          obtain ⟨rfl, rfl⟩ : l' = l ∧ ls = l₁ ++ l₂ := by simpa [eq_comm] using he
          obtain _ | ⟨hs', hr₁⟩ := hr₁
          have hu' : some _ = some _ := hs'.1.symm.trans hs.1
          cases hu'
          exact ⟨l₁, l₂, w, rfl, hr₁, hw, hr₂⟩

/-! ## Main result -/

/-- The depth a step over or a step out from depth `d` waits for. -/
def Resume.target (d : Int) : Resume → Int
  | .stepOut => d - 1
  | _ => d

/-- The pause a resume command asks for, at the state in which a line event is
decided: at once for a step into; at the target depth or above, or anywhere
after the depth has been below the target, for a step over or out. -/
def Resume.Asks (c : Resume) (T : Int) (s : State V) (ls : List (Lbl V)) (t : State V) : Prop :=
  c = .stepIn ∨ ((c = .stepOver ∨ c = .stepOut) ∧ (depth t ≤ T ∨ WentBelow vm T s ls t))

theorem due_resume {s s₁ : State V} {c : Resume} (hs : s.thread = .waiting false)
    (h : exec vm s (.resume c) = some (s₁, .rc .success)) :
    s₁.pauseRequested = c.pauseType ∧ depth s₁ = depth s ∧ OnTop s₁ ∧
      (c ≠ .continueExecution → due s₁ = c.counter 0) := by
  simp only [exec, Option.some.injEq, Prod.mk.injEq, Res.rc.injEq] at h
  obtain ⟨rfl, hsucc⟩ := h
  rw [resume_notifies (resume_success_iff.mp hsucc) hs]
  refine ⟨rfl, rfl, onTop_of_running fun _ _ => by simp, fun hc => ?_⟩
  cases c <;> first | rfl | exact absurd rfl hc

/-- On the way from a step over or out to `t` the request is due exactly if the
depth is at the target or has been below it. -/
theorem due_iff {T : Int} {s t : State V} {ls : List (Lbl V)} (h : (untilPause vm).Run s ls t)
    (hreq : s.pauseRequested ≠ .none) (hd : due s = depth s - T) (hge : T ≤ depth s) :
    due t ≤ 0 ↔ depth t ≤ T ∨ WentBelow vm T s ls t := by
  rcases counter_tracks_depth vm h hreq hd hge with ⟨hneg, hb⟩ | ⟨heq, -, hnb⟩
  · exact ⟨fun _ => .inr hb, fun _ => Int.le_of_lt hneg⟩
  · constructor
    · intro hle
      left
      omega
    · intro hor
      have hle := hor.resolve_right hnb
      omega

/-- The request and the counter say what the command asked for. -/
theorem asks_iff {s s₁ t : State V} {c : Resume} {ls : List (Lbl V)} {line : Int}
    {handle : FileNameHandle} (hs : s.thread = .waiting false)
    (hc : exec vm s (.resume c) = some (s₁, .rc .success)) (hr : (untilPause vm).Run s₁ ls t)
    (ht : t.thread = .stopping line handle) :
    (t.pauseRequested ≠ .none ∧ t.pauseMutexData.returnsRequired ≤ 0) ↔
      c.Asks vm (c.target (depth s)) s₁ ls t := by
  obtain ⟨hreq₁, hdepth₁, -, hdue₁⟩ := due_resume vm hs hc
  have hdue : due t = t.pauseMutexData.returnsRequired := by simp [due, ht]
  rw [(untilPause_request vm hr).1, ← hdue]
  cases c with
  | continueExecution => simp [hreq₁, Resume.pauseType, Resume.Asks]
  | stepIn =>
    have hreq : s₁.pauseRequested ≠ .none := by simp [hreq₁, Resume.pauseType]
    have hneg : due t < 0 := due_neg_run vm hr hreq (by rw [hdue₁ (by simp)]; decide)
    exact ⟨fun _ => .inl rfl, fun _ => ⟨hreq, Int.le_of_lt hneg⟩⟩
  | stepOver =>
    have hreq : s₁.pauseRequested ≠ .none := by simp [hreq₁, Resume.pauseType]
    have hstart := hdue₁ (by simp)
    simp only [Resume.counter] at hstart
    rw [due_iff vm hr hreq (T := depth s) (by omega) (by omega)]
    simp [Resume.Asks, Resume.target, hreq]
  | stepOut =>
    have hreq : s₁.pauseRequested ≠ .none := by simp [hreq₁, Resume.pauseType]
    have hstart := hdue₁ (by simp)
    simp only [Resume.counter] at hstart
    rw [due_iff vm hr hreq (T := depth s - 1) (by omega) (by omega)]
    simp [Resume.Asks, Resume.target, hreq]

/-- **Where a resume command lands.** The VM thread is blocked un-notified in the
hook at depth `d` and the resume command `c` is accepted. On any run from there
without a further command that changes the request and without a pause so far,
the next line event pauses exactly if a breakpoint is set on its line of the top
frame's file and the line is below `INT32_MAX`, or `c` asks for it. So the next
pause comes at the first line event for which one of these holds. -/
theorem resume_lands (s s₁ t t' : State V) (c : Resume) (ls : List (Lbl V)) (line : Int)
    (handle : FileNameHandle) (throws : Bool) (res : Res) (hs : s.thread = .waiting false)
    (hc : exec vm s (.resume c) = some (s₁, .rc .success)) (hr : (untilPause vm).Run s₁ ls t)
    (ht : t.thread = .stopping line handle)
    (h : exec vm t (.hookNext throws) = some (t', res)) :
    ∃ frame rest, t.vmData.currentStack = frame :: rest ∧
      ((∃ status, res = .paused status ∧ (throws = false → t'.thread = .waiting false)) ↔
        (line < int32Max ∧
          BreakpointSet t.pauseMutexData.breakpoints frame.fileNameHandle line) ∨
        c.Asks vm (c.target (depth s)) s₁ ls t) := by
  obtain ⟨-, -, htop₁, -⟩ := due_resume vm hs hc
  obtain ⟨-, htop⟩ := untilPause_request vm hr
  obtain ⟨frame, rest, hstk, rfl⟩ := htop htop₁ line handle ht
  refine ⟨frame, rest, hstk, ?_⟩
  rw [← breakpointAt_iff, ← asks_iff vm hs hc hr ht]
  constructor
  · intro hpaused
    by_contra hst
    obtain ⟨status, hres, -⟩ := hpaused
    rw [exec_runs vm ht hst h] at hres
    cases hres
  · intro hst
    obtain ⟨h₁, -, h₂⟩ := exec_stops vm ht hst h
    exact ⟨_, h₁, h₂⟩

end

/-! ## Lines past `INT32_MAX` -/

/-- The pause of `pausedState`, with a breakpoint set on line 2147483648. -/
def farBreakpointState : State Unit :=
  (setFileBreakpoints idleVm pausedState [97] [⟨1, 2147483648⟩]).1

/-- `ContinueExecution` from there, up to the line event on line 2147483648. -/
def farLineRun : List (Lbl Unit) :=
  [⟨.wake, .silent⟩, ⟨.hook (.l 2147483648), .silent⟩, ⟨.hookNext false, .silent⟩]

theorem resume_lands_farBreakpoint :
    ∃ s₁ t t', exec idleVm farBreakpointState (.resume .stepIn) = some (s₁, .rc .success) ∧
      (untilPause idleVm).Run s₁ farLineRun t ∧
      (∃ status, exec idleVm t (.hookNext false) = some (t', .paused status)) := by
  have hr : ∃ s₁ t t' res, exec idleVm farBreakpointState (.resume .stepIn) =
      some (s₁, .rc .success) ∧ (untilPause idleVm).Run s₁ farLineRun t ∧
      t.thread = .stopping 2147483648 (some 0) ∧
      exec idleVm t (.hookNext false) = some (t', res) :=
    ⟨_, _, _, _, rfl, .cons ⟨rfl, trivial, by simp⟩ (.cons ⟨rfl, trivial, by simp⟩
      (.single ⟨rfl, trivial, by simp⟩)), rfl, rfl⟩
  obtain ⟨s₁, t, t', res, h₁, hrun, ht, hnext⟩ := hr
  obtain ⟨frame, rest, -, hiff⟩ := resume_lands idleVm farBreakpointState s₁ t t' .stepIn
    farLineRun 2147483648 (some 0) false res rfl h₁ hrun ht hnext
  obtain ⟨status, hres, -⟩ := hiff.mpr (.inr (.inl rfl))
  exact ⟨s₁, t, t', h₁, hrun, status, hres ▸ hnext⟩

/-- From this reachable pause `ContinueExecution` is accepted and the script
reaches line 2147483648 of a file in which a breakpoint is set on that line; the
VM does not pause there. -/
theorem farBreakpoint_missed :
    ∃ s₁ t t', (lts idleVm).Reachable farBreakpointState ∧
      farBreakpointState.thread = .waiting false ∧
      farBreakpointState.vmData.currentStack.length = 1 ∧
      exec idleVm farBreakpointState (.resume .continueExecution) = some (s₁, .rc .success) ∧
      (untilPause idleVm).Run s₁ farLineRun t ∧
      t.thread = .stopping 2147483648 (some 0) ∧
      t.vmData.currentStack = [⟨some 0, 2147483648⟩] ∧
      BreakpointSet t.pauseMutexData.breakpoints (some 0) 2147483648 ∧
      exec idleVm t (.hookNext false) = some (t', .silent) := by
  refine ⟨_, _, _, ?_, rfl, rfl, rfl, .cons ⟨rfl, trivial, by simp⟩
    (.cons ⟨rfl, trivial, by simp⟩ (.single ⟨rfl, trivial, by simp⟩)), rfl, rfl,
    ⟨0, 2147483648, ⟨1, 2147483648⟩, rfl, rfl, rfl⟩, rfl⟩
  have hset : (lts idleVm).step pausedState
      ⟨.setFileBreakpoints [97] [⟨1, 2147483648⟩], .rc .success⟩ farBreakpointState :=
    (lts_step idleVm).mpr rfl
  exact pausedState_reachable.of_restrict.run (.single hset)

end Sdb.L2
