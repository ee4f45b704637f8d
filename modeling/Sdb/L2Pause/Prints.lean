import Sdb.L2Pause.Mirror

/-!
# Where a line is printed from

`SquirrelPrintCallback` reports each line with the file and the line number of the last
frame of `currentStack`. The hook keeps both there: the file from the call event on, the
line number from the call event and then from each line event of the frame.

* `located_step`, `located_run`: the frames of `currentStack` are the places the events
  show (`places`);
* `prints_located`: every printed line is reported with the place where the script is.
-/
namespace Sdb.L2

open Sdb.L1 BreakpointMap

/-- An open frame: its source name, and the line of its call or of its latest line event. -/
structure Place where
  name : SourceName
  line : Int
  deriving DecidableEq, Repr

section
variable {V : Type} (vm : VmAccess V)

def placesNext (ps : List Place) : HostLbl V → List Place
  | .print _ _ _ => ps
  | .debugger l =>
    match l.act with
    | .hook (.c name line) => ⟨name, line⟩ :: ps
    | .hook .r => ps.tail
    | .hook (.l line) => ps.modifyHead fun place => { place with line := line }
    | _ => ps

/-- The open frames, innermost first. -/
def places (ls : List (HostLbl V)) : List Place := ls.foldl placesNext []

/-- No detach, and the text of a source name is a function of its address. -/
def HostLbl.Steady (textOf : Nat → Bytes) : HostLbl V → Prop
  | .print _ _ _ => True
  | .debugger l => l.act.Steady textOf

def steadyHost (textOf : Nat → Bytes) : LTS (State V) (HostLbl V) :=
  (host vm).restrict fun _ l => l.Steady textOf

/-- The lines in `currentStack`, against those the events show: the hook writes a line a
step after its event. -/
def LinesAhead (lines : List Int) : VmThread → List Int → Prop
  | .entered (.c _ line), stack => lines = line :: stack
  | .entered .r, stack => lines = stack.tail
  | .entered (.l line), stack => lines = stack.modifyHead fun _ => line
  | .fault, _ => True
  | _, stack => lines = stack

structure Located (textOf : Nat → Bytes) (ps : List Place) (s : State V) : Prop where
  tracks : ∃ o : Seen, o.frames = ps.map Place.name ∧ Tracks vm textOf o s
  lines : LinesAhead (ps.map Place.line) s.thread (s.vmData.currentStack.map StackInfo.line)

/-! ## One step -/

theorem placesNext_names {o : Seen} {ps : List Place} (h : o.frames = ps.map Place.name)
    (l : Lbl V) : (o.next vm l).frames = (placesNext ps (.debugger l)).map Place.name := by
  obtain ⟨a, res⟩ := l
  cases a with
  | hook e =>
    cases e with
    | c name line => simp [Seen.next, placesNext, h]
    | r => simp [Seen.next, placesNext, h]
    | l line =>
      cases ps with
      | nil => exact h
      | cons place rest => exact h
    | other => exact h
  | setFileBreakpoints file bps =>
    simp only [Seen.next, placesNext]
    split <;> exact h
  | _ => exact h

theorem lines_hookNext {s s' : State V} {throws : Bool} {res : Res} {lines : List Int}
    (h : HookNext vm s throws s' res)
    (hl : LinesAhead lines s.thread (s.vmData.currentStack.map StackInfo.line)) :
    LinesAhead lines s'.thread (s'.vmData.currentStack.map StackInfo.line) := by
  cases h with
  | @call name line ht =>
    obtain ⟨-, -, -, -, ⟨handle, hstk⟩, ht'⟩ := hookCall_control vm s name line
    rw [ht] at hl
    rw [ht', hstk]
    exact hl
  | ret ht hstk =>
    rw [ht, hstk] at hl
    exact hl
  | line ht hstk =>
    rw [ht, hstk] at hl
    exact hl
  | fault _ _ => trivial
  | other ht | runs ht _ =>
    rw [ht] at hl
    exact hl
  | called ht =>
    rw [ht] at hl
    rcases hookCalled_thread s with e | e <;> rw [e, hookCalled_eq] <;> exact hl
  | counted ht =>
    rw [ht] at hl
    exact hl
  | returned ht =>
    rw [ht] at hl
    rw [hookReturned_eq]
    exact hl
  | @stops line handle ht hst =>
    obtain ⟨-, -, -, -, -, hvm, -⟩ := hookStop_stops vm throws hst
    rw [ht] at hl
    rw [hvm]
    rcases hookStop_thread vm s line handle throws with e | e <;> rw [e] <;> exact hl

theorem lines_step {s s' : State V} {l : Lbl V} {ps : List Place} (h : Exec vm s l.act s' l.res)
    (hd : l.act ≠ .detachVmLocked) (hv : s.vmData.vm.isSome)
    (hl : LinesAhead (ps.map Place.line) s.thread (s.vmData.currentStack.map StackInfo.line)) :
    LinesAhead ((placesNext ps (.debugger l)).map Place.line) s'.thread
      (s'.vmData.currentStack.map StackInfo.line) := by
  obtain ⟨a, res⟩ := l
  cases h with
  | passive ha hf =>
    have hsame : placesNext ps (.debugger ⟨a, res⟩) = ps := by
      cases a with
      | hook e => exact ha.elim
      | _ => rfl
    rw [hsame, hf.thread, hf.currentStack]
    exact hl
  | detachVm =>
    rw [(detachVm_frame s).thread, (detachVm_frame s).currentStack]
    exact hl
  | detachVmLocked => exact absurd rfl hd
  | pauseExecution =>
    obtain ⟨-, -, hvm, hth⟩ := pauseExecution_spec s
    rw [hth, hvm]
    exact hl
  | @accepted c hc =>
    obtain ⟨-, hvm, hth⟩ := resume_frame s c
    rw [hvm]
    by_cases hw : ∃ n, s.thread = .waiting n
    · obtain ⟨n, hn⟩ := hw
      rw [hn] at hl
      rw [resume_notifies hc hn]
      exact hl
    · rw [hth fun n hn => hw ⟨n, hn⟩]
      exact hl
  | refused _ => exact hl
  | unattached _ hnone => exact absurd hv (by simpa using hnone)
  | @hook e ht _ =>
    rw [ht] at hl
    have hlines : ps.map Place.line = s.vmData.currentStack.map StackInfo.line := hl
    cases e with
    | c name line => simp [placesNext, LinesAhead, hlines]
    | r => simp [placesNext, LinesAhead, hlines]
    | l line =>
      show (ps.modifyHead fun place => { place with line := line }).map Place.line =
        (s.vmData.currentStack.map StackInfo.line).modifyHead fun _ => line
      rw [← hlines]
      cases ps with
      | nil => rfl
      | cons place rest => rfl
    | other => exact hlines
  | hookNext hn => exact lines_hookNext vm hn hl
  | wake ht =>
    rw [ht] at hl
    exact hl

/-- A print leaves the state alone or reads an empty `currentStack`. -/
theorem located_print {textOf : Nat → Bytes} {ps : List Place} {s : State V}
    (hi : Located vm textOf ps s) (isErr : Bool) (str : Bytes) :
    Located vm textOf ps (squirrelPrintCallback s isErr str).1 := by
  have hfault : Located vm textOf ps { s with thread := .fault } := by
    obtain ⟨⟨o, ho, htracks⟩, -⟩ := hi
    exact ⟨⟨o, ho, htracks.of_frame vm id rfl rfl rfl rfl (fun _ _ => trivial)
      (onTop_of_running (by simp))⟩, trivial⟩
  unfold squirrelPrintCallback
  split
  · exact hi
  · split
    · exact hfault
    · split
      · exact hfault
      · exact hi

theorem located_step {textOf : Nat → Bytes} {ps : List Place} {s s' : State V} {l : HostLbl V}
    (hi : Located vm textOf ps s) (h : (steadyHost vm textOf).step s l s') :
    Located vm textOf (placesNext ps l) s' := by
  obtain ⟨hstep, hsteady⟩ := h
  cases l with
  | print isErr str outputLine =>
    have hprint : hostStep vm s (.print isErr str outputLine) = some s' := hstep
    simp only [hostStep] at hprint
    split at hprint
    · obtain rfl := Option.some.inj hprint
      exact located_print vm hi isErr str
    · cases hprint
  | debugger l =>
    have hlts : (lts vm).step s l s' := hstep
    obtain ⟨⟨o, ho, htracks⟩, hlines⟩ := hi
    have hd : l.act ≠ .detachVmLocked := by
      intro hact
      have hnot : l.act.Steady textOf := hsteady
      rw [hact] at hnot
      exact hnot
    exact ⟨⟨o.next vm l, placesNext_names vm ho l, tracks_step vm htracks ⟨hlts, hsteady⟩⟩,
      lines_step vm (exec_inv vm ((lts_step vm).mp hlts)) hd htracks.attached hlines⟩

theorem located_run {textOf : Nat → Bytes} {ps : List Place} {s t : State V}
    {ls : List (HostLbl V)} (hi : Located vm textOf ps s)
    (h : (steadyHost vm textOf).Run s ls t) : Located vm textOf (ls.foldl placesNext ps) t := by
  induction h generalizing ps with
  | nil => exact hi
  | cons hs _ ih => exact ih (located_step vm hi hs)

theorem located_fresh (textOf : Nat → Bytes) (eventInterface : Bool) (v : V) (vmHandle : Nat) :
    Located vm textOf [] (addVm (fresh eventInterface v) vmHandle) :=
  ⟨⟨{}, rfl, tracks_fresh vm textOf eventInterface v vmHandle⟩, rfl⟩

/-- While the script runs `currentStack` is empty with the places ... -/
theorem Located.empty {textOf : Nat → Bytes} {s : State V} (hi : Located vm textOf [] s)
    (ht : s.thread = .script) : s.vmData.currentStack = [] := by
  have hlines := hi.lines
  rw [ht] at hlines
  exact List.map_eq_nil_iff.mp (Eq.symm hlines)

/-- ... and its last frame is the innermost of them. -/
theorem Located.top {textOf : Nat → Bytes} {place : Place} {rest : List Place} {s : State V}
    (hi : Located vm textOf (place :: rest) s) (ht : s.thread = .script) :
    ∃ frame stack, s.vmData.currentStack = frame :: stack ∧ frame.line = place.line ∧
      Names vm s.pauseMutexData.breakpoints frame.fileNameHandle place.name.text := by
  obtain ⟨⟨o, ho, htracks⟩, hlines⟩ := hi
  obtain ⟨fs, ha, hfs⟩ := htracks.frames
  rw [ht] at ha hlines
  obtain rfl : o.frames = fs := ha
  have hstk : (place :: rest).map Place.line = s.vmData.currentStack.map StackInfo.line := hlines
  cases hstack : s.vmData.currentStack with
  | nil =>
    rw [hstack] at hstk
    cases hstk
  | cons frame stack =>
    rw [hstack, ho] at hfs
    rw [hstack] at hstk
    obtain _ | ⟨hname, -⟩ := hfs
    exact ⟨frame, stack, rfl, (List.cons.inj hstk).1.symm, hname⟩

/-! ## Main result -/

/-- **A printed line is reported from where the script stands.** Take any run that starts
with a fresh debugger and an attached VM, in which the VM stays attached and the text of a
source name is a function of its address. A line printed inside a call reaches the event
interface with its text, the stored name of the file that the innermost open call was made
in, and the line number of the latest line event of that call, or of the call itself (0 for
one that is not positive or too large); a line printed outside of all calls reads the last
frame of an empty `currentStack`. -/
theorem prints_located (textOf : Nat → Bytes) (eventInterface : Bool) (v : V) (vmHandle : Nat)
    {ls : List (HostLbl V)} {t t' : State V} {isErr : Bool} {str : Bytes}
    {outputLine : Option OutputLine}
    (hr : (steadyHost vm textOf).Run (addVm (fresh eventInterface v) vmHandle) ls t)
    (h : hostStep vm t (.print isErr str outputLine) = some t') :
    (places ls = [] → t'.thread = .fault ∧ outputLine = none) ∧
      ∀ place rest, places ls = place :: rest → t' = t ∧
        outputLine = if t.eventInterface then some {
            output := str
            isErr := isErr
            fileName := foldName vm.strToLower place.name.text
            line := shownLine place.line }
          else none := by
  have hi : Located vm textOf (places ls) t :=
    located_run vm (located_fresh vm textOf eventInterface v vmHandle) hr
  have hattached : t.vmData.vm.isNone = false := by
    obtain ⟨o, -, htracks⟩ := hi.tracks
    simpa using htracks.attached
  simp only [hostStep] at h
  split at h
  · rename_i hc
    obtain ⟨ht, rfl⟩ := hc
    obtain rfl := Option.some.inj h
    unfold squirrelPrintCallback
    simp only [hattached, Bool.false_eq_true, if_false]
    refine ⟨fun hnone => ?_, fun place rest hplaces => ?_⟩
    · rw [hnone] at hi
      rw [hi.empty vm ht]
      exact ⟨rfl, rfl⟩
    · rw [hplaces] at hi
      obtain ⟨frame, stack, hstk, hline, handle, hhandle, hname⟩ := hi.top vm ht
      obtain ⟨fileNameHandle, line⟩ := frame
      obtain rfl : fileNameHandle = some handle := hhandle
      obtain rfl : line = place.line := hline
      rw [hstk]
      refine ⟨rfl, ?_⟩
      simp only [hname, Option.getD_some]
  · cases h

end

/-! ## A print after a return -/

/-- A call of a function in the second file and back, on line 4 of the first. -/
def thereAndBackRun : List (HostLbl Unit) :=
  [silent (.hook (.c nameA 1)), silent (.hookNext false), silent (.hookNext false),
    silent (.hook (.l 4)), silent (.hookNext false), silent (.hookNext false),
    silent (.hook (.c ⟨2, [98]⟩ 7)), silent (.hookNext false), silent (.hookNext false),
    silent (.hook .r), silent (.hookNext false), silent (.hookNext false)]

/-- The text at the addresses of `thereAndBackRun`. -/
def twoFiles : Nat → Bytes
  | 2 => [98]
  | _ => nameA.text

theorem prints_located_thereAndBack : ∃ t t' outputLine,
    (steadyHost idleVm twoFiles).Run (addVm (fresh true ()) 1) thereAndBackRun t ∧
      hostStep idleVm t (.print false [104, 105] (some outputLine)) = some t' ∧
        outputLine.fileName = nameA.text ∧ outputLine.line = 4 := by
  have hrun : ∃ t t', thereAndBackRun.foldlM (hostStep idleVm) (addVm (fresh true ()) 1) = some t ∧
      t.eventInterface = true ∧
      hostStep idleVm t (.print false [104, 105] (some ⟨[104, 105], false, nameA.text, 4⟩)) =
        some t' := ⟨_, _, rfl, rfl, rfl⟩
  obtain ⟨t, t', hfold, he, hprint⟩ := hrun
  have hsteady : ∀ l ∈ thereAndBackRun, l.Steady twoFiles := by
    simp [thereAndBackRun, silent, HostLbl.Steady, Act.Steady, twoFiles, nameA]
  have hr : (steadyHost idleVm twoFiles).Run (addVm (fresh true ()) 1) thereAndBackRun t :=
    (LTS.run_of_foldlM hfold).restrict fun _ l _ _ hls _ => hsteady l (by simp [hls])
  obtain ⟨-, hout⟩ := (prints_located idleVm twoFiles true () 1 hr hprint).2 ⟨nameA, 4⟩ [] rfl
  rw [if_pos he, Option.some.injEq] at hout
  exact ⟨t, t', _, hr, hprint, congrArg OutputLine.fileName hout, congrArg OutputLine.line hout⟩

end Sdb.L2
