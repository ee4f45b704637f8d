import Sdb.L2Pause.Breakpoints
import Sdb.L2Pause.Held
import Sdb.L2Pause.RunState

/-!
# Where the script stops

Four commands and the breakpoints decide together where the script stops, and the hook
finds out through `pauseRequested_` and the counter `returnsRequired`, which it adjusts
at each call and return. `Monitor` decides the same from the labels of a run alone: it
counts no returns but remembers a target (`Goal`), the next line or the next line at most
so many frames deep.

* `agrees_step`, `agrees_run`: through the interleavings of the commands with the hook
  the counter stands for the target (`Goal.Holds`);
* `stops_as_monitored`: at every line event the hook does what the monitor says.

Two things are outside this account. A `ContinueExecution` and a `PauseExecution` that
both come between the unlocked test and the `++` of one call leave the new request with a
counter of `0` (`Races`). And the counter is an `int`: a step that leaves its range is
undefined (`Overflows`).
-/
namespace Sdb.L2

open Sdb.L1 BreakpointMap

/-! ## The monitor -/

/-- What a request asks for. -/
inductive Goal where
  | nextLine
  | atMost (depth : Int)
  deriving DecidableEq, Repr

/-- A line event at this depth is what was asked for. -/
def Goal.Met (depth : Int) : Goal → Prop
  | .nextLine => True
  | .atMost target => depth ≤ target

instance (depth : Int) : (g : Goal) → Decidable (g.Met depth)
  | .nextLine => .isTrue trivial
  | .atMost target => inferInstanceAs (Decidable (depth ≤ target))

/-- Once the script has left the target frame too, the next line is good enough, however
deep it lies. -/
def Goal.afterReturn (depth : Int) : Goal → Goal
  | .nextLine => .nextLine
  | .atMost target => if depth < target then .nextLine else .atMost target

/-- What a resume command at this depth asks for. -/
def Resume.goal (depth : Int) : Resume → Option Goal
  | .continueExecution => none
  | .stepIn => some .nextLine
  | .stepOver => some (.atMost depth)
  | .stepOut => some (.atMost (depth - 1))

structure Monitor where
  seen : Seen := {}
  goal : Option Goal := none
  /-- The line of the latest line event. -/
  line : Int := 0

def Monitor.depth (m : Monitor) : Int := m.seen.frames.length

section
variable {V : Type} (vm : VmAccess V)

/-- The breakpoint the script stands on. -/
def Monitor.breakpoint (m : Monitor) : Option CreateBreakpoint :=
  match m.seen.frames with
  | [] => none
  | name :: _ =>
    if 0 ≤ m.line ∧ m.line < int32Max then
      lastOn (m.seen.latest (vm.strToLower name.text)) m.line
    else none

/-- The script has to stop at this line. -/
def Monitor.Halts (m : Monitor) : Prop :=
  (m.breakpoint vm).isSome = true ∨ ∃ g ∈ m.goal, g.Met m.depth

instance (m : Monitor) : Decidable (m.Halts vm) :=
  inferInstanceAs (Decidable (_ ∨ ∃ g ∈ m.goal, g.Met m.depth))

/-- A breakpoint asks for the next line of its frame, as a step over does. -/
def Monitor.nextGoal (m : Monitor) (l : Lbl V) : Option Goal :=
  match l.act, l.res with
  | .hook .r, _ => m.goal.map (Goal.afterReturn (m.depth - 1))
  | .pauseExecution, _ => some (m.goal.getD .nextLine)
  | .resume c, .rc .success => c.goal m.depth
  | .hookNext _, .paused _ =>
    if (m.breakpoint vm).isSome then some (.atMost m.depth) else m.goal
  | _, _ => m.goal

def Monitor.next (m : Monitor) (l : Lbl V) : Monitor where
  seen := m.seen.next vm l
  goal := m.nextGoal vm l
  line :=
    match l.act with
    | .hook (.l line) => line
    | _ => m.line

def monitor (ls : List (Lbl V)) : Monitor := ls.foldl (Monitor.next vm) {}

/-! ## The counter -/

/-- `returnsRequired` after the adjustment that an event already seen still asks for. -/
def foreseen (s : State V) : Int :=
  match s.thread with
  | .entered (.c _ _) | .called => s.pauseMutexData.returnsRequired +
      if 0 ≤ s.pauseMutexData.returnsRequired then 1 else 0
  | .counting => s.pauseMutexData.returnsRequired + 1
  | .entered .r | .returned => s.pauseMutexData.returnsRequired - 1
  | _ => s.pauseMutexData.returnsRequired

/-- How the counter stands for a target. -/
def Goal.Holds (depth counter : Int) : Goal → Prop
  | .nextLine => counter < 0
  | .atMost target => counter = depth - target ∧ target ≤ depth

/-- The VM thread is not in an access the C++ standard leaves undefined, nor on its way
to one: a return from no frame. -/
def Alive (s : State V) : Prop :=
  s.thread ≠ .fault ∧ (s.thread = .entered .r → s.vmData.currentStack ≠ [])

/-- The line event the VM thread is in, if it is in one. -/
def AtLine (line : Int) : VmThread → Prop
  | .entered (.l n) => line = n
  | .stopping n _ => line = n
  | _ => True

/-- A request is made while the hook is about to count a call for the last one. -/
def Races (s : State V) (a : Act V) : Prop :=
  a = .pauseExecution ∧ s.pauseRequested = .none ∧ s.thread = .counting

instance (s : State V) : (a : Act V) → Decidable (Races s a)
  | .pauseExecution =>
    decidable_of_iff (s.pauseRequested = .none ∧ s.thread = .counting) (by simp [Races])
  | .addVm _ | .detachVm | .detachVmLocked | .resume _ | .setFileBreakpoints _ _ | .sendStatus
  | .data _ | .script _ | .hook _ | .hookNext _ | .wake => .isFalse fun h => by cases h.1

/-- Agreement of monitor and debugger, in the counter only if no request has raced. -/
structure Agrees (textOf : Nat → Bytes) (unraced : Prop) (m : Monitor) (s : State V) :
    Prop where
  tracks : Tracks vm textOf m.seen s
  held : Held s
  request : s.pauseRequested = .none ↔ m.goal = none
  counter : unraced → Alive s → ∀ g ∈ m.goal, g.Holds m.depth (foreseen s)
  line : AtLine m.line s.thread

theorem Goal.Holds.met_iff {depth counter : Int} {g : Goal} (h : g.Holds depth counter) :
    g.Met depth ↔ counter ≤ 0 := by
  cases g with
  | nextLine =>
    unfold Goal.Holds at h
    simp only [Goal.Met, true_iff]
    omega
  | atMost target =>
    obtain ⟨h, -⟩ := h
    simp only [Goal.Met]
    omega

theorem Goal.Holds.call {depth counter : Int} {g : Goal} (h : g.Holds depth counter) :
    g.Holds (depth + 1) (counter + if 0 ≤ counter then 1 else 0) := by
  cases g with
  | nextLine =>
    unfold Goal.Holds at h ⊢
    rw [if_neg (by omega)]
    omega
  | atMost target =>
    obtain ⟨h, hle⟩ := h
    refine ⟨?_, by omega⟩
    rw [if_pos (by omega)]
    omega

/-- A return from the target frame itself makes the counter negative for good. -/
theorem Goal.Holds.ret {depth counter : Int} {g : Goal} (h : g.Holds depth counter) :
    (g.afterReturn (depth - 1)).Holds (depth - 1) (counter - 1) := by
  cases g with
  | nextLine =>
    unfold Goal.Holds at h
    simp only [Goal.afterReturn, Goal.Holds]
    omega
  | atMost target =>
    obtain ⟨h, hle⟩ := h
    simp only [Goal.afterReturn]
    by_cases hleft : depth - 1 < target
    · rw [if_pos hleft]
      show counter - 1 < 0
      omega
    · rw [if_neg hleft]
      exact ⟨by omega, by omega⟩

/-- The counter of an accepted resume command stands for its target. -/
theorem Resume.goal_holds (c : Resume) (depth counter : Int) :
    ∀ g ∈ c.goal depth, g.Holds depth (c.counter counter) := by
  intro g hg
  cases c with
  | continueExecution => cases hg
  | stepIn =>
    obtain rfl := Option.some.inj hg
    show (-1 : Int) < 0
    omega
  | stepOver =>
    obtain rfl := Option.some.inj hg
    show (0 : Int) = depth - depth ∧ depth ≤ depth
    omega
  | stepOut =>
    obtain rfl := Option.some.inj hg
    show (1 : Int) = depth - (depth - 1) ∧ depth - 1 ≤ depth
    omega

theorem Resume.goal_eq_none (c : Resume) (depth : Int) :
    c.pauseType = .none ↔ c.goal depth = none := by
  cases c <;> simp [Resume.pauseType, Resume.goal]

theorem foreseen_neg {s : State V} (h : s.pauseMutexData.returnsRequired < 0)
    (ht : s.thread ≠ .counting) : foreseen s < 0 := by
  unfold foreseen
  split
  case h_3 hcount => exact absurd hcount ht
  all_goals try split
  all_goals omega

/-- In the wait and in the script the hook owes nothing. -/
theorem foreseen_settled {s : State V} (h : s.thread = .script ∨ ∃ n, s.thread = .waiting n) :
    foreseen s = s.pauseMutexData.returnsRequired := by
  unfold foreseen
  rcases h with h | ⟨n, h⟩ <;> rw [h]

/-! ## One step -/

/-- A step that the counter, the request and the target do not see. -/
theorem Agrees.of_frame {textOf : Nat → Bytes} {unraced : Prop} {m m' : Monitor} {s s' : State V}
    (hi : Agrees vm textOf unraced m s) (htr : Tracks vm textOf m'.seen s') (hh : Held s')
    (hd : m'.depth = m.depth) (hg : m'.goal = m.goal)
    (hq : s'.pauseRequested = s.pauseRequested)
    (hc : s.pauseRequested ≠ .none → Alive s' → Alive s ∧ foreseen s' = foreseen s)
    (hl : AtLine m'.line s'.thread) : Agrees vm textOf unraced m' s' where
  tracks := htr
  held := hh
  request := by
    rw [hq, hg]
    exact hi.request
  counter := by
    intro hu ha g hmem
    rw [hg] at hmem
    have hreq : s.pauseRequested ≠ .none := by
      rw [ne_eq, hi.request]
      intro hnone
      rw [hnone] at hmem
      cases hmem
    obtain ⟨halive, heq⟩ := hc hreq ha
    rw [hd, heq]
    exact hi.counter hu halive g hmem
  line := hl

theorem agrees_pauseExecution {textOf : Nat → Bytes} {unraced : Prop} {m : Monitor} {s : State V}
    (hi : Agrees vm textOf unraced m s) (hrace : unraced → ¬ Races s .pauseExecution)
    (htr : Tracks vm textOf m.seen (pauseExecution s).1) (hh : Held (pauseExecution s).1) :
    Agrees vm textOf unraced (m.next vm ⟨.pauseExecution, .rc .success⟩) (pauseExecution s).1 := by
  by_cases hidle : s.pauseRequested = .none
  · have hnone : m.goal = none := hi.request.mp hidle
    rw [pauseExecution_idle hidle] at htr hh ⊢
    refine ⟨htr, hh, by simp [Monitor.next, Monitor.nextGoal], fun hu _ g hg => ?_, hi.line⟩
    simp only [Monitor.next, Monitor.nextGoal, hnone, Option.getD_none, Option.mem_some] at hg
    obtain rfl := hg
    exact foreseen_neg (by simp) fun ht => hrace hu ⟨rfl, hidle, ht⟩
  · obtain ⟨g, hg⟩ := Option.ne_none_iff_exists'.mp fun hnone => hidle (hi.request.mpr hnone)
    rw [pauseExecution_busy hidle] at htr hh ⊢
    refine hi.of_frame vm htr hh rfl ?_ rfl (fun _ ha => ⟨ha, rfl⟩) hi.line
    simp [Monitor.next, Monitor.nextGoal, hg]

/-- A resume command is accepted only in the wait, `ContinueExecution` also elsewhere. It
sets the counter of its target, whatever came before. -/
theorem agrees_accepted {textOf : Nat → Bytes} {unraced : Prop} {m : Monitor} {s : State V}
    {c : Resume} (hi : Agrees vm textOf unraced m s) (hc : Accepts s c)
    (htr : Tracks vm textOf m.seen (resume s c).1) (hh : Held (resume s c).1) :
    Agrees vm textOf True (m.next vm ⟨.resume c, .rc .success⟩) (resume s c).1 := by
  have hreq : (resume s c).1.pauseRequested = c.pauseType := by
    rw [resume_accepted hc, notifyAll_pauseRequested]
  have hgoal : (m.next vm ⟨.resume c, .rc .success⟩).goal = c.goal m.depth := rfl
  refine ⟨htr, hh, ?_, ?_, ?_⟩
  · rw [hreq, hgoal]
    exact c.goal_eq_none m.depth
  · intro _ _ g hg
    rw [hgoal] at hg
    by_cases hw : ∃ n, s.thread = .waiting n
    · obtain ⟨n, hn⟩ := hw
      rw [resume_notifies hc hn, foreseen_settled (.inr ⟨true, rfl⟩)]
      exact c.goal_holds m.depth _ g hg
    · cases c with
      | continueExecution => cases hg
      | _ => exact absurd (hi.held.mp hc) hw
  · by_cases hw : ∃ n, s.thread = .waiting n
    · obtain ⟨n, hn⟩ := hw
      rw [resume_notifies hc hn]
      trivial
    · rw [(resume_frame s c).2.2 fun n hn => hw ⟨n, hn⟩]
      exact hi.line

/-- The frames the labels show are those of `currentStack`, outside the hook. -/
theorem Agrees.no_frames {textOf : Nat → Bytes} {unraced : Prop} {m : Monitor} {s : State V}
    (hi : Agrees vm textOf unraced m s) (ht : s.thread = .script) :
    m.seen.frames = [] ↔ s.vmData.currentStack = [] := by
  obtain ⟨fs, ha, hfs⟩ := hi.tracks.frames
  rw [ht] at ha
  obtain rfl : m.seen.frames = fs := ha
  rw [← List.length_eq_zero_iff, ← hfs.length_eq, List.length_eq_zero_iff]

/-- The monitor counts a call and a return from the hook event on, the counter a step or
two later. -/
theorem agrees_hook {textOf : Nat → Bytes} {unraced : Prop} {m : Monitor} {s : State V}
    {e : HookEvent}
    (hi : Agrees vm textOf unraced m s) (ht : s.thread = .script)
    (htr : Tracks vm textOf (m.next vm ⟨.hook e, .silent⟩).seen { s with thread := .entered e })
    (hh : Held { s with thread := .entered e }) :
    Agrees vm textOf unraced (m.next vm ⟨.hook e, .silent⟩) { s with thread := .entered e } := by
  have hsettled := foreseen_settled (.inl ht)
  cases e with
  | c name line =>
    refine ⟨htr, hh, hi.request, fun hu _ g hg => ?_, trivial⟩
    have hcall := (hi.counter hu ⟨by simp [ht], by simp [ht]⟩ g hg).call
    have hdepth : (m.next vm ⟨.hook (.c name line), .silent⟩).depth = m.depth + 1 := by
      simp [Monitor.depth, Monitor.next, Seen.next]
    rw [hsettled] at hcall
    rw [hdepth]
    exact hcall
  | r =>
    refine ⟨htr, hh, ?_, fun hu ha g hg => ?_, trivial⟩
    · show _ ↔ m.goal.map _ = none
      rw [Option.map_eq_none_iff]
      exact hi.request
    · obtain ⟨g₀, hg₀, rfl⟩ := Option.map_eq_some_iff.mp hg
      have hret := (hi.counter hu ⟨by simp [ht], by simp [ht]⟩ g₀ hg₀).ret
      have hdepth : (m.next vm ⟨.hook .r, .silent⟩).depth = m.depth - 1 := by
        obtain ⟨name, rest, hf⟩ : ∃ name rest, m.seen.frames = name :: rest :=
          List.exists_cons_of_ne_nil fun hnil => ha.2 rfl ((hi.no_frames vm ht).mp hnil)
        simp [Monitor.depth, Monitor.next, Seen.next, hf]
      rw [hsettled] at hret
      rw [hdepth]
      exact hret
  | l line =>
    refine hi.of_frame vm htr hh rfl rfl rfl (fun _ _ => ⟨⟨by simp [ht], by simp [ht]⟩, ?_⟩) rfl
    rw [hsettled]
    rfl
  | other =>
    refine hi.of_frame vm htr hh rfl rfl rfl (fun _ _ => ⟨⟨by simp [ht], by simp [ht]⟩, ?_⟩)
      trivial
    rw [hsettled]
    rfl

/-- At a line event the debugger looks up the breakpoint the monitor looks up. -/
theorem Agrees.lineBreakpoint {textOf : Nat → Bytes} {unraced : Prop} {m : Monitor} {s : State V}
    {line : Int}
    {handle : FileNameHandle} (hi : Agrees vm textOf unraced m s)
    (ht : s.thread = .stopping line handle) :
    lineBreakpoint s.pauseMutexData.breakpoints line handle =
      ((m.breakpoint vm).isSome, ((m.breakpoint vm).map toBreakpoint).getD {}) := by
  have hline : m.line = line := by
    have hl := hi.line
    rw [ht] at hl
    exact hl
  obtain ⟨fs, ha, hfs⟩ := hi.tracks.frames
  rw [ht] at ha
  obtain rfl : m.seen.frames = fs := ha
  obtain ⟨frame, rest, hstk, rfl⟩ := hi.tracks.top line handle ht
  rw [hstk] at hfs
  unfold Monitor.breakpoint
  cases hframes : m.seen.frames with
  | nil =>
    rw [hframes] at hfs
    cases hfs
  | cons name names =>
    rw [hframes] at hfs
    obtain _ | ⟨hname, -⟩ := hfs
    rw [hline]
    dsimp only
    by_cases hrange : 0 ≤ line ∧ line < int32Max
    · rw [if_pos hrange]
      exact lineBreakpoint_latest vm hi.tracks.map hname hrange.1 hrange.2
    · rw [if_neg hrange]
      unfold L2.lineBreakpoint
      rw [if_neg fun h => hrange ⟨h.1, h.2.1⟩]
      rfl

theorem Agrees.stops_iff {textOf : Nat → Bytes} {m : Monitor} {s : State V} {line : Int}
    {handle : FileNameHandle} (hi : Agrees vm textOf True m s)
    (ht : s.thread = .stopping line handle) : Stops s line handle ↔ m.Halts vm := by
  have halive : Alive s := ⟨by simp [ht], by simp [ht]⟩
  have hsettled : foreseen s = s.pauseMutexData.returnsRequired := by
    unfold foreseen
    rw [ht]
  unfold Stops Monitor.Halts BreakpointAt
  rw [hi.lineBreakpoint vm ht]
  refine or_congr Iff.rfl ⟨fun ⟨hq, hr⟩ => ?_, fun ⟨g, hg, hmet⟩ => ⟨?_, ?_⟩⟩
  · obtain ⟨g, hg⟩ := Option.ne_none_iff_exists'.mp fun hnone => hq (hi.request.mpr hnone)
    refine ⟨g, hg, (hi.counter trivial halive g hg).met_iff.mpr ?_⟩
    rw [hsettled]
    exact hr
  · intro hnone
    rw [hi.request.mp hnone] at hg
    cases hg
  · rw [← hsettled]
    exact (hi.counter trivial halive g hg).met_iff.mp hmet

/-- A breakpoint replaces the counter with that of a step over. -/
theorem hookStop_returnsRequired (s : State V) (line : Int) (handle : FileNameHandle)
    (throws : Bool) :
    (hookStop vm s line handle throws).1.pauseMutexData.returnsRequired =
      if (lineBreakpoint s.pauseMutexData.breakpoints line handle).1 then 0
      else s.pauseMutexData.returnsRequired := by
  unfold hookStop
  dsimp only
  by_cases hb : (lineBreakpoint s.pauseMutexData.breakpoints line handle).1 = true
  · simp only [hb, if_true]
    split <;> rfl
  · simp only [hb, Bool.false_eq_true, if_false]
    split <;> rfl

theorem agrees_stops {textOf : Nat → Bytes} {unraced : Prop} {m : Monitor} {s : State V}
    {line : Int}
    {handle : FileNameHandle} {status : Status} (hi : Agrees vm textOf unraced m s)
    (ht : s.thread = .stopping line handle) (hst : Stops s line handle)
    (htr : Tracks vm textOf m.seen (hookStop vm s line handle false).1)
    (hh : Held (hookStop vm s line handle false).1) :
    Agrees vm textOf unraced (m.next vm ⟨.hookNext false, .paused status⟩)
      (hookStop vm s line handle false).1 := by
  have hwait := (hookStop_stops vm false hst).2.2.2.2.2.2 rfl
  have hreq := hookStop_pauseRequested vm s line handle false
  have hcount := hookStop_returnsRequired vm s line handle false
  rw [hi.lineBreakpoint vm ht] at hreq hcount
  have hgoal : (m.next vm ⟨.hookNext false, .paused status⟩).goal =
      if (m.breakpoint vm).isSome then some (.atMost m.depth) else m.goal := rfl
  refine ⟨htr, hh, ?_, fun hu _ g hg => ?_, by rw [hwait]; trivial⟩
  · rw [hreq, hgoal]
    split
    · simp
    · exact hi.request
  · rw [foreseen_settled (.inr ⟨false, hwait⟩), hcount]
    rw [hgoal] at hg
    split at hg
    · rename_i hb
      obtain rfl := Option.some.inj hg
      rw [if_pos hb]
      show (0 : Int) = m.depth - m.depth ∧ m.depth ≤ m.depth
      omega
    · rename_i hb
      rw [if_neg hb]
      have hold := hi.counter hu ⟨by simp [ht], by simp [ht]⟩ g hg
      simp only [foreseen, ht] at hold
      exact hold

theorem agrees_hookNext {textOf : Nat → Bytes} {unraced : Prop} {m : Monitor} {s s' : State V}
    {res : Res}
    (hi : Agrees vm textOf unraced m s) (h : HookNext vm s false s' res)
    (htr : Tracks vm textOf m.seen s') (hh : Held s') :
    Agrees vm textOf unraced (m.next vm ⟨.hookNext false, res⟩) s' := by
  cases h with
  | @call name line ht =>
    obtain ⟨hq, -, hc, -, -, ht'⟩ := hookCall_control vm s name line
    refine hi.of_frame vm htr hh rfl rfl hq (fun _ _ => ⟨by simp [Alive, ht], ?_⟩)
      (by rw [ht']; trivial)
    simp [foreseen, ht, ht', hc]
  | ret ht hstk =>
    refine hi.of_frame vm htr hh rfl rfl rfl (fun _ _ => ⟨by simp [Alive, ht, hstk], ?_⟩) trivial
    simp [foreseen, ht]
  | @line line head rest ht hstk =>
    have hline := hi.line
    rw [ht] at hline
    refine hi.of_frame vm htr hh rfl rfl rfl (fun _ _ => ⟨by simp [Alive, ht], ?_⟩) hline
    simp [foreseen, ht]
  | fault _ _ =>
    exact hi.of_frame vm htr hh rfl rfl rfl (fun _ ha => absurd rfl ha.1) trivial
  | other ht =>
    refine hi.of_frame vm htr hh rfl rfl rfl (fun _ _ => ⟨by simp [Alive, ht], ?_⟩) trivial
    simp [foreseen, ht]
  | called ht =>
    refine hi.of_frame vm htr hh rfl rfl (by rw [hookCalled_eq])
      (fun hq _ => ⟨by simp [Alive, ht], ?_⟩) ?_
    · by_cases hc : 0 ≤ s.pauseMutexData.returnsRequired
      · simp [foreseen, hookCalled_eq, ht, hq, hc]
      · simp [foreseen, hookCalled_eq, ht, hc]
    · rcases hookCalled_thread s with e | e <;> rw [e] <;> trivial
  | counted ht =>
    refine hi.of_frame vm htr hh rfl rfl rfl (fun _ _ => ⟨by simp [Alive, ht], ?_⟩) trivial
    simp [foreseen, hookCounted, ht]
  | returned ht =>
    rw [hookReturned_eq] at htr hh ⊢
    refine hi.of_frame vm htr hh rfl rfl rfl (fun hq _ => ⟨by simp [Alive, ht], ?_⟩) trivial
    simp [foreseen, ht, hq]
  | stops ht hst => exact agrees_stops vm hi ht hst htr hh
  | runs ht _ =>
    refine hi.of_frame vm htr hh rfl rfl rfl (fun _ _ => ⟨by simp [Alive, ht], ?_⟩) trivial
    simp [foreseen, ht]

/-- The runs in which the VM stays attached and the listener returns. -/
def monitored (textOf : Nat → Bytes) : LTS (State V) (Lbl V) :=
  (steady vm textOf).restrict fun _ l => l.act.ListenerReturns

/-- Of these the runs without a race and without an overflow. -/
def counted (textOf : Nat → Bytes) : LTS (State V) (Lbl V) :=
  (monitored vm textOf).restrict fun s l => ¬ Races s l.act ∧ ¬ Overflows s l.act

theorem agrees_step {textOf : Nat → Bytes} {unraced : Prop} {m : Monitor} {s s' : State V}
    {l : Lbl V} (hi : Agrees vm textOf unraced m s) (h : (monitored vm textOf).step s l s')
    (hrace : unraced → ¬ Races s l.act) : Agrees vm textOf unraced (m.next vm l) s' := by
  have htr : Tracks vm textOf (m.next vm l).seen s' := tracks_step vm hi.tracks h.1
  obtain ⟨a, res⟩ := l
  obtain ⟨⟨h, hsteady⟩, hret⟩ := h
  have hx := exec_inv vm ((lts_step vm).mp h)
  have hh : Held s' := by
    refine held_step vm hi.held hx ⟨hret, ?_⟩
    rintro rfl
    exact hsteady
  cases hx with
  | passive ha hf =>
    have hquiet : (m.next vm ⟨a, res⟩).goal = m.goal ∧ (m.next vm ⟨a, res⟩).line = m.line ∧
        (m.next vm ⟨a, res⟩).depth = m.depth := by
      cases a with
      | setFileBreakpoints file bps =>
        refine ⟨rfl, rfl, ?_⟩
        by_cases hres : res = .rc .success <;> simp [Monitor.depth, Monitor.next, Seen.next, hres]
      | addVm _ | sendStatus | data _ | script _ => exact ⟨rfl, rfl, rfl⟩
      | _ => exact ha.elim
    obtain ⟨hg, hl, hd⟩ := hquiet
    refine hi.of_frame vm htr hh hd hg hf.pauseRequested (fun _ halive => ⟨?_, ?_⟩) ?_
    · unfold Alive at halive ⊢
      rw [← hf.thread, ← hf.currentStack]
      exact halive
    · unfold foreseen
      rw [hf.thread, hf.returnsRequired]
    · rw [hl, hf.thread]
      exact hi.line
  | detachVm => exact hsteady.elim
  | detachVmLocked => exact hsteady.elim
  | pauseExecution => exact agrees_pauseExecution vm hi hrace htr hh
  | accepted hc =>
    obtain ⟨htracks, hheld, hrequest, hcounter, hline⟩ := agrees_accepted vm hi hc htr hh
    exact ⟨htracks, hheld, hrequest, fun _ => hcounter trivial, hline⟩
  | refused _ =>
    exact hi.of_frame vm htr hh rfl rfl rfl (fun _ ha => ⟨ha, rfl⟩) hi.line
  | unattached _ hv => exact absurd hi.tracks.attached (by simpa using hv)
  | hook ht _ => exact agrees_hook vm hi ht htr hh
  | @hookNext throws _ _ hn =>
    obtain rfl : throws = false := hret
    exact agrees_hookNext vm hi hn htr hh
  | wake ht =>
    refine hi.of_frame vm htr hh rfl rfl rfl (fun _ _ => ⟨by simp [Alive, ht], ?_⟩) trivial
    simp [foreseen, wake, ht]

theorem agrees_run {textOf : Nat → Bytes} {m : Monitor} {s t : State V} {ls : List (Lbl V)}
    (hi : Agrees vm textOf True m s) (h : (counted vm textOf).Run s ls t) :
    Agrees vm textOf True (ls.foldl (Monitor.next vm) m) t := by
  induction h generalizing m with
  | nil => exact hi
  | cons hs _ ih => exact ih (agrees_step vm hi hs.1 fun _ => hs.2.1)

theorem agrees_fresh (textOf : Nat → Bytes) (eventInterface : Bool) (v : V) (vmHandle : Nat) :
    Agrees vm textOf True {} (addVm (fresh eventInterface v) vmHandle) where
  tracks := tracks_fresh vm textOf eventInterface v vmHandle
  held := held_of_running rfl (by simp [addVm, fresh])
  request := iff_of_true rfl rfl
  counter := fun _ _ _ hg => by cases hg
  line := trivial

theorem monitored_run {textOf : Nat → Bytes} {s t : State V} {ls : List (Lbl V)}
    (h : ls.foldlM (stepLbl vm) s = some t)
    (hl : ∀ l ∈ ls, l.act.Steady textOf ∧ l.act.ListenerReturns) :
    (monitored vm textOf).Run s ls t :=
  ((LTS.run_of_foldlM h).restrict fun _ l _ _ hls _ => (hl l (by simp [hls])).1).restrict
    fun _ l _ _ hls _ => (hl l (by simp [hls])).2

/-! ## Main result -/

/-- **The script stops where the labels say.** Take any run that starts with a fresh
debugger and an attached VM, and in which the VM stays attached, the listener returns, the
text of a source name is a function of its address, and no request races and no counter
overflows. At a line event the hook pauses exactly if the monitor of the run so far halts,
and then reports the id of the breakpoint the monitor sees there. -/
theorem stops_as_monitored (textOf : Nat → Bytes) (eventInterface : Bool) (v : V)
    (vmHandle : Nat) {ls : List (Lbl V)} {t t' : State V} {line : Int} {handle : FileNameHandle}
    {throws : Bool} {res : Res}
    (hr : (counted vm textOf).Run (addVm (fresh eventInterface v) vmHandle) ls t)
    (ht : t.thread = .stopping line handle)
    (h : exec vm t (.hookNext throws) = some (t', res)) :
    res =
      if (monitor vm ls).Halts vm then
        .paused {
          runState := .paused
          stack := vm.populateStack t.script
          pausedAtBreakpointId := (((monitor vm ls).breakpoint vm).map (·.id)).getD 0 }
      else .silent := by
  have hi : Agrees vm textOf True (monitor vm ls) t :=
    agrees_run vm (agrees_fresh vm textOf eventInterface v vmHandle) hr
  by_cases hst : Stops t line handle
  · rw [if_pos ((hi.stops_iff vm ht).mp hst), (exec_stops vm ht hst h).1]
    unfold pauseStatus
    rw [hi.lineBreakpoint vm ht]
    cases (monitor vm ls).breakpoint vm <;> rfl
  · rw [if_neg fun hhalt => hst ((hi.stops_iff vm ht).mpr hhalt)]
    exact exec_runs vm ht hst h

end

/-! ## A step over a call -/

/-- A breakpoint on line 5 stops the script; a step over from there runs through a call,
past line 7 of the callee, to line 6. -/
def stepOverRun : List (Lbl Unit) :=
  [⟨.setFileBreakpoints nameA.text [⟨1, 5⟩], .rc .success⟩,
    ⟨.hook (.c nameA 1), .silent⟩, ⟨.hookNext false, .silent⟩, ⟨.hookNext false, .silent⟩,
    ⟨.hook (.l 5), .silent⟩, ⟨.hookNext false, .silent⟩,
    ⟨.hookNext false, .paused { runState := .paused, pausedAtBreakpointId := 1 }⟩,
    ⟨.resume .stepOver, .rc .success⟩, ⟨.wake, .silent⟩,
    ⟨.hook (.c nameA 7), .silent⟩, ⟨.hookNext false, .silent⟩, ⟨.hookNext false, .silent⟩,
    ⟨.hookNext false, .silent⟩,
    ⟨.hook (.l 7), .silent⟩, ⟨.hookNext false, .silent⟩, ⟨.hookNext false, .silent⟩,
    ⟨.hook .r, .silent⟩, ⟨.hookNext false, .silent⟩, ⟨.hookNext false, .silent⟩,
    ⟨.hook (.l 6), .silent⟩, ⟨.hookNext false, .silent⟩]

theorem stops_as_monitored_stepOverRun :
    ∃ t t', (counted idleVm fun _ => nameA.text).Run (addVm (fresh true ()) 1) stepOverRun t ∧
      exec idleVm t (.hookNext false) = some (t', .paused { runState := .paused }) := by
  have hrun : ∃ t t' res,
      stepOverRun.foldlM (stepLbl idleVm) (addVm (fresh true ()) 1) = some t ∧
        stepOverRun.foldlM (fun s l =>
          if ¬ Races s l.act ∧ ¬ Overflows s l.act then stepLbl idleVm s l else none)
          (addVm (fresh true ()) 1) = some t ∧
        t.thread = .stopping 6 (some 0) ∧
        exec idleVm t (.hookNext false) = some (t', res) := ⟨_, _, _, rfl, rfl, rfl, rfl⟩
  obtain ⟨t, t', res, hfold, hchecked, ht, hnext⟩ := hrun
  have hmonitored : (monitored idleVm fun _ => nameA.text).Run (addVm (fresh true ()) 1)
      stepOverRun t :=
    monitored_run idleVm hfold (by simp [stepOverRun, Act.Steady, Act.ListenerReturns])
  have hr : (counted idleVm fun _ => nameA.text).Run (addVm (fresh true ()) 1) stepOverRun t := by
    refine hmonitored.restrict fun l₁ l l₂ u hls hu => ?_
    have hkept := @LTS.restrict_of_foldlM _ _ (lts idleVm).init _ _ _ _ _ _ hchecked
    rw [hls] at hkept
    exact hkept.restrict_at (lts_functional idleVm) hu.of_restrict.of_restrict
  have hres := stops_as_monitored idleVm (fun _ => nameA.text) true () 1 hr ht hnext
  have hhalts : (monitor idleVm stepOverRun).Halts idleVm := by decide
  rw [if_pos hhalts] at hres
  subst hres
  exact ⟨t, t', hr, hnext⟩

end Sdb.L2
