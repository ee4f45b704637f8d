import Sdb.L2Pause.History
import Mathlib.Data.List.Infix

/-!
# Breakpoints that were reported verified

`SetFileBreakpoints` reports every entry of an accepted list as verified. Whether a
later line event pauses there is decided by the handle of the frame the hook reads and
by the list that was last accepted for the file of that handle.

* `effective_iff`: a line event on the line of a verified entry pauses with its id
  exactly when it finds a frame, the line is below `INT32_MAX`, and the last entry on
  that line, of the latest list of the frame's file, has the id; for a frame of the
  event's own file that is the list itself;
* `follows_run`, `ownFrame`: the frame is of the event's own file where the text of a
  source name is a function of its address and no detach falls between the hook's test
  of a call event and its push (`orderly`): `currentStack` then holds the frames entered
  since the last attach, the innermost of those an observer sees (`Follows`).
-/
namespace Sdb.L2

open Sdb.L1 BreakpointMap

section
variable {V : Type} (vm : VmAccess V)

/-- The text of a source name is a function of its address, and no detach meets a
call event in the hook. -/
def Orderly (textOf : Nat → Bytes) (s : State V) (l : Lbl V) : Prop :=
  match l.act with
  | .hook (.c name _) => name.text = textOf name.addr
  | .detachVmLocked => ∀ name line, s.thread ≠ .entered (.c name line)
  | _ => True

def orderly (textOf : Nat → Bytes) : LTS (State V) (Lbl V) := (lts vm).restrict (Orderly textOf)

/-! ## The agreement -/

/-- The frames `fs` of `currentStack` are the innermost of those the labels show. -/
def Behind (textOf : Nat → Bytes) (frames : List SourceName) : VmThread → List SourceName → Prop
  | .entered (.c name _), fs =>
    ∃ older, frames = name :: older ∧ fs <+: older ∧ name.text = textOf name.addr
  | .entered .r, fs => fs.tail <+: frames
  | .fault, _ => True
  | _, fs => fs <+: frames

structure Follows (textOf : Nat → Bytes) (o : Seen) (s : State V) : Prop where
  map : MapInv o.latest s.pauseMutexData.breakpoints
  cache : ∀ addr handle, s.vmData.fileNameHandles addr = some handle →
    Names vm s.pauseMutexData.breakpoints handle (textOf addr)
  detached : s.vmData.vm = none →
    s.vmData.currentStack = [] ∧ ∀ name line, s.thread ≠ .entered (.c name line)
  frames : ∃ fs, Behind textOf o.frames s.thread fs ∧
    List.Forall₂ (fun (frame : StackInfo) (name : SourceName) =>
      Names vm s.pauseMutexData.breakpoints frame.fileNameHandle name.text)
      s.vmData.currentStack fs
  stopping : ∀ line handle, s.thread = .stopping line handle →
    ∃ name older, o.frames = name :: older ∧
      Names vm s.pauseMutexData.breakpoints handle name.text

variable {vm} {textOf : Nat → Bytes} {o : Seen} {s s' t : State V}

/-- A step that leaves the call stack and the tables alone. -/
theorem Follows.of_frame (hi : Follows vm textOf o s)
    (hv : s'.vmData.vm = none → s.vmData.vm = none)
    (hbps : s'.pauseMutexData.breakpoints = s.pauseMutexData.breakpoints)
    (hcache : s'.vmData.fileNameHandles = s.vmData.fileNameHandles)
    (hstk : s'.vmData.currentStack = s.vmData.currentStack)
    (hf : ∀ fs, Behind textOf o.frames s.thread fs → Behind textOf o.frames s'.thread fs)
    (hc : ∀ name line, s'.thread = .entered (.c name line) → s'.thread = s.thread)
    (hs : ∀ line handle, s'.thread = .stopping line handle → s'.thread = s.thread) :
    Follows vm textOf o s' := by
  obtain ⟨fs, hb, hfs⟩ := hi.frames
  refine ⟨?_, ?_, ?_, ⟨fs, hf fs hb, ?_⟩, ?_⟩
  · rw [hbps]
    exact hi.map
  · rw [hcache, hbps]
    exact hi.cache
  · intro hnone
    obtain ⟨hempty, hthread⟩ := hi.detached (hv hnone)
    refine ⟨by rw [hstk, hempty], fun name line heq => hthread name line ?_⟩
    rw [← hc name line heq, heq]
  · rw [hstk, hbps]
    exact hfs
  · intro line handle heq
    rw [hbps]
    exact hi.stopping line handle (by rw [← hs line handle heq, heq])

theorem follows_setFileBreakpoints (file : Bytes) (bps : List CreateBreakpoint)
    (hi : Follows vm textOf o s) :
    Follows vm textOf
      (o.next vm ⟨.setFileBreakpoints file bps, .rc (setFileBreakpoints vm s file bps).2.1⟩)
      (setFileBreakpoints vm s file bps).1 := by
  rcases setFileBreakpoints_spec vm s file bps with ⟨-, h₁, h₂⟩ | ⟨-, h₁, h₂⟩
  · rw [h₁, h₂]
    simpa [Seen.next] using hi
  · rw [h₁, h₂]
    obtain ⟨hm, hp⟩ := hi.map.replace vm file bps
    obtain ⟨fs, hb, hfs⟩ := hi.frames
    refine ⟨by simpa [Seen.next] using hm,
      fun addr handle hc => (hi.cache addr handle hc).mono vm hp, hi.detached, ⟨fs, ?_, ?_⟩, ?_⟩
    · simpa [Seen.next] using hb
    · exact forall₂_mono vm hp hfs
    · intro line handle ht
      obtain ⟨name, older, hframes, hn⟩ := hi.stopping line handle ht
      exact ⟨name, older, by simpa [Seen.next] using hframes, hn.mono vm hp⟩

/-- The new frame is the one the observer saw at the call event. -/
theorem follows_hookCall {name : SourceName} {line : Int} (hi : Follows vm textOf o s)
    (hth : s.thread = .entered (.c name line)) :
    Follows vm textOf o (hookCall vm s name line) := by
  obtain ⟨fs, hb, hfs⟩ := hi.frames
  rw [hth] at hb
  obtain ⟨older, hframes, hpre, htext⟩ := hb
  have hsome : s.vmData.vm ≠ none := fun hnone => (hi.detached hnone).2 name line hth
  have hpre' : name :: fs <+: o.frames := by
    rw [hframes]
    exact (List.prefix_cons_inj name).mpr hpre
  unfold hookCall
  split
  · rename_i handle hc
    have hn := hi.cache name.addr handle hc
    rw [← htext] at hn
    exact ⟨hi.map, hi.cache, fun hnone => absurd hnone hsome,
      ⟨name :: fs, hpre', .cons hn hfs⟩, fun _ _ h => by cases h⟩
  · obtain ⟨hm, hn, hp⟩ := hi.map.ensure vm name.text
    refine ⟨hm, ?_, fun hnone => absurd hnone hsome,
      ⟨name :: fs, hpre', .cons hn (forall₂_mono vm hp hfs)⟩, fun _ _ h => by cases h⟩
    intro addr handle hupd
    simp only at hupd
    by_cases he : addr = name.addr
    · subst he
      rw [Function.update_self, Option.some.injEq] at hupd
      rw [← htext, ← hupd]
      exact hn
    · rw [Function.update_of_ne he] at hupd
      exact (hi.cache addr handle hupd).mono vm hp

theorem follows_hookNext {throws : Bool} {res : Res} (hi : Follows vm textOf o s)
    (h : HookNext vm s throws s' res) : Follows vm textOf o s' := by
  cases h with
  | call ht => exact follows_hookCall hi ht
  | @ret head rest ht hstk =>
    obtain ⟨fs, hb, hfs⟩ := hi.frames
    rw [hstk] at hfs
    rw [ht] at hb
    obtain _ | ⟨-, hfs⟩ := hfs
    refine ⟨hi.map, hi.cache, fun hnone => ?_, ⟨_, hb, hfs⟩, fun _ _ h => by cases h⟩
    rw [(hi.detached hnone).1] at hstk
    cases hstk
  | @line line head rest ht hstk =>
    obtain ⟨fs, hb, hfs⟩ := hi.frames
    rw [hstk] at hfs
    rw [ht] at hb
    cases hfs with
    | @cons _ name _ fs hn hfs =>
      obtain ⟨older, hframes⟩ := hb
      refine ⟨hi.map, hi.cache, fun hnone => ?_, ⟨name :: fs, ⟨older, hframes⟩, .cons hn hfs⟩, ?_⟩
      · rw [(hi.detached hnone).1] at hstk
        cases hstk
      · intro line' handle heq
        injection heq with _ hhandle
        rw [← hhandle]
        exact ⟨name, fs ++ older, hframes.symm, hn⟩
  | fault ht hstk =>
    exact hi.of_frame id rfl rfl rfl (fun _ _ => trivial) (fun _ _ h => by cases h)
      fun _ _ h => by cases h
  | other ht =>
    exact hi.of_frame id rfl rfl rfl (by simp [ht, Behind]) (fun _ _ h => by cases h)
      fun _ _ h => by cases h
  | called ht =>
    refine hi.of_frame (by rw [hookCalled_eq]; exact id) (by rw [hookCalled_eq])
      (by rw [hookCalled_eq]) (by rw [hookCalled_eq]) ?_ ?_ ?_
    · intro fs hb
      rw [ht] at hb
      rcases hookCalled_thread s with e | e <;> rw [e] <;> exact hb
    · intro name line heq
      rcases hookCalled_thread s with e | e <;> rw [e] at heq <;> cases heq
    · intro line handle heq
      rcases hookCalled_thread s with e | e <;> rw [e] at heq <;> cases heq
  | counted ht =>
    exact hi.of_frame id rfl rfl rfl (by simp [ht, Behind, hookCounted])
      (fun _ _ h => by cases h) fun _ _ h => by cases h
  | returned ht =>
    rw [hookReturned_eq]
    exact hi.of_frame id rfl rfl rfl (by simp [ht, Behind]) (fun _ _ h => by cases h)
      fun _ _ h => by cases h
  | @stops line handle ht hst =>
    obtain ⟨-, -, -, -, hbps, hvm, -⟩ := hookStop_stops vm throws hst
    have hthread := hookStop_thread vm s line handle throws
    refine hi.of_frame (by rw [hvm]; exact id) hbps (by rw [hvm]) (by rw [hvm]) ?_ ?_ ?_
    · intro fs hb
      rw [ht] at hb
      rcases hthread with e | e <;> rw [e] <;> exact hb
    · intro name line' heq
      rcases hthread with e | e <;> rw [e] at heq <;> cases heq
    · intro line' handle' heq
      rcases hthread with e | e <;> rw [e] at heq <;> cases heq
  | runs ht _ =>
    exact hi.of_frame id rfl rfl rfl (by simp [ht, Behind]) (fun _ _ h => by cases h)
      fun _ _ h => by cases h

/-- A detach empties `currentStack` and the cache of handles. -/
theorem follows_detachVmLocked (hi : Follows vm textOf o s)
    (hc : ∀ name line, s.thread ≠ .entered (.c name line)) :
    Follows vm textOf o (detachVmLocked s) := by
  obtain ⟨-, -, hvm⟩ := detachVmLocked_spec s
  have hbps : (detachVmLocked s).pauseMutexData.breakpoints = s.pauseMutexData.breakpoints := by
    by_cases h : s.pauseRequested = .none
    · rw [detachVmLocked_idle h]
    · rw [detachVmLocked_busy h]
  have hthread := detachVmLocked_stays s
  refine ⟨?_, ?_, ?_, ⟨[], ?_, ?_⟩, ?_⟩
  · rw [hbps]
    exact hi.map
  · intro addr handle hcache
    rw [hvm] at hcache
    cases hcache
  · intro _
    refine ⟨by rw [hvm], fun name line heq => ?_⟩
    rcases hthread with e | ⟨n, e⟩
    · exact hc name line (by rw [← e, heq])
    · rw [heq] at e
      cases e
  · rcases hthread with e | ⟨n, e⟩
    · rw [e]
      cases hth : s.thread with
      | entered e =>
        cases e with
        | c name line => exact absurd hth (hc name line)
        | _ => exact List.nil_prefix
      | fault => trivial
      | _ => exact List.nil_prefix
    · rw [e]
      exact List.nil_prefix
  · rw [hvm]
    exact .nil
  · intro line handle heq
    rw [hbps]
    rcases hthread with e | ⟨n, e⟩
    · exact hi.stopping line handle (by rw [← e, heq])
    · rw [heq] at e
      cases e

/-- A hook event that reaches no VM: there is no frame to keep. -/
theorem follows_unattached {e : HookEvent} {res : Res} (hi : Follows vm textOf o s)
    (hth : s.thread = .script) (hv : s.vmData.vm = none) :
    Follows vm textOf (o.next vm ⟨.hook e, res⟩) s := by
  obtain ⟨hempty, -⟩ := hi.detached hv
  refine ⟨?_, hi.cache, hi.detached, ⟨[], ?_, ?_⟩, ?_⟩
  · cases e <;> exact hi.map
  · rw [hth]
    exact List.nil_prefix
  · rw [hempty]
    exact .nil
  · intro line handle heq
    rw [hth] at heq
    cases heq

theorem follows_hook {e : HookEvent} {res : Res} (hi : Follows vm textOf o s)
    (hth : s.thread = .script) (hv : s.vmData.vm.isSome)
    (he : Orderly textOf s ⟨.hook e, res⟩) :
    Follows vm textOf (o.next vm ⟨.hook e, res⟩) { s with thread := .entered e } := by
  obtain ⟨fs, hb, hfs⟩ := hi.frames
  rw [hth] at hb
  have hpre : fs <+: o.frames := hb
  refine ⟨?_, hi.cache, ?_, ⟨fs, ?_, hfs⟩, fun _ _ h => by cases h⟩
  · cases e <;> exact hi.map
  · intro hnone
    simp only at hnone
    rw [hnone] at hv
    cases hv
  · cases e with
    | c name line => exact ⟨o.frames, rfl, hpre, he⟩
    | r =>
      have hdrop := List.IsPrefix.drop hpre 1
      rwa [List.drop_one, List.drop_one] at hdrop
    | _ => exact hpre

theorem follows_step {l : Lbl V} (hi : Follows vm textOf o s)
    (h : (orderly vm textOf).step s l s') : Follows vm textOf (o.next vm l) s' := by
  obtain ⟨a, res⟩ := l
  obtain ⟨h, horderly⟩ := h
  rw [lts_step] at h
  cases exec_inv vm h with
  | passive ha hf =>
    by_cases hset : ∃ file bps, a = .setFileBreakpoints file bps
    · obtain ⟨file, bps, rfl⟩ := hset
      simp only [exec, Option.some.injEq, Prod.mk.injEq] at h
      obtain ⟨rfl, rfl⟩ := h
      exact follows_setFileBreakpoints file bps hi
    · have hbps := passive_breakpoints vm ha (fun file bps e => hset ⟨file, bps, e⟩) h
      have hsame : o.next vm ⟨a, res⟩ = o := by
        cases a with
        | setFileBreakpoints file bps => exact absurd ⟨file, bps, rfl⟩ hset
        | hook e => exact ha.elim
        | _ => rfl
      have hvm : s'.vmData.vm = none → s.vmData.vm = none := by
        intro hnone
        cases hs : s.vmData.vm with
        | none => rfl
        | some handle =>
          have hsome := hf.attached (by simp [hs])
          rw [hnone] at hsome
          cases hsome
      rw [hsame]
      exact hi.of_frame hvm hbps hf.fileNameHandles hf.currentStack (by simp [hf.thread])
        (fun _ _ _ => hf.thread) fun _ _ _ => hf.thread
  | detachVm =>
    have hf := detachVm_frame s
    have hvm : (detachVm s).vmData = s.vmData := by
      unfold detachVm
      split <;> rfl
    have hbps : (detachVm s).pauseMutexData = s.pauseMutexData := by
      unfold detachVm
      split <;> rfl
    exact hi.of_frame (by rw [hvm]; exact id) (by rw [hbps]) hf.fileNameHandles hf.currentStack
      (by simp [hf.thread]) (fun _ _ _ => hf.thread) fun _ _ _ => hf.thread
  | detachVmLocked => exact follows_detachVmLocked hi horderly
  | pauseExecution =>
    obtain ⟨-, -, hvm, hth⟩ := pauseExecution_spec s
    have hbps : (pauseExecution s).1.pauseMutexData.breakpoints =
        s.pauseMutexData.breakpoints := by
      unfold pauseExecution
      split <;> rfl
    exact hi.of_frame (by rw [hvm]; exact id) hbps (by rw [hvm]) (by rw [hvm])
      (by simp [hth]) (fun _ _ _ => hth) fun _ _ _ => hth
  | @accepted c hc =>
    obtain ⟨-, hvm, hth⟩ := resume_frame s c
    have hbps : (resume s c).1.pauseMutexData.breakpoints = s.pauseMutexData.breakpoints := by
      rw [resume_accepted hc]
      simp
    by_cases hw : ∃ n, s.thread = .waiting n
    · obtain ⟨n, hn⟩ := hw
      have hth' := resume_notifies hc hn
      refine hi.of_frame (by rw [hvm]; exact id) hbps (by rw [hvm]) (by rw [hvm]) ?_ ?_ ?_
      · intro fs hb
        rw [hn] at hb
        rw [hth']
        exact hb
      · intro name line heq
        rw [hth'] at heq
        cases heq
      · intro line handle heq
        rw [hth'] at heq
        cases heq
    · have hth' := hth fun n hn => hw ⟨n, hn⟩
      exact hi.of_frame (by rw [hvm]; exact id) hbps (by rw [hvm]) (by rw [hvm])
        (by simp [hth']) (fun _ _ _ => hth') fun _ _ _ => hth'
  | refused _ => exact hi
  | unattached ht hv => exact follows_unattached hi ht (by simpa using hv)
  | hook ht hv => exact follows_hook hi ht hv horderly
  | hookNext hn => exact follows_hookNext hi hn
  | wake ht =>
    exact hi.of_frame id rfl rfl rfl (by simp [ht, Behind, wake])
      (fun _ _ h => by cases h) fun _ _ h => by cases h

theorem follows_run {ls : List (Lbl V)} (hi : Follows vm textOf o s)
    (h : (orderly vm textOf).Run s ls s') :
    Follows vm textOf (ls.foldl (Seen.next vm) o) s' := by
  induction h generalizing o with
  | nil => exact hi
  | cons hs _ ih => exact ih (follows_step hi hs)

theorem follows_fresh (eventInterface : Bool) (v : V) :
    Follows vm textOf {} (fresh eventInterface v) where
  map := ⟨List.nodup_nil, fun _ _ hn => by simp [fresh] at hn, fun _ _ _ => rfl, fun _ _ => rfl⟩
  cache := fun _ _ hc => by cases hc
  detached := fun _ => ⟨rfl, fun _ _ h => by cases h⟩
  frames := ⟨[], List.nil_prefix, .nil⟩
  stopping := fun _ _ h => by cases h

/-! ## Main result -/

theorem latest_foldl {name : Bytes} {ls : List (Lbl V)}
    (hnone : ∀ l ∈ ls, ∀ file bps, l.act = .setFileBreakpoints file bps →
      vm.strToLower file ≠ name) : (ls.foldl (Seen.next vm) o).latest name = o.latest name := by
  induction ls generalizing o with
  | nil => rfl
  | cons l ls ih =>
    rw [List.foldl_cons, ih fun l' hl' => hnone l' (List.mem_cons_of_mem l hl')]
    have hl := hnone l List.mem_cons_self
    obtain ⟨a, res⟩ := l
    cases a with
    | setFileBreakpoints file bps =>
      have hne := (hl file bps rfl).symm
      simp only [Seen.next]
      split
      · exact Function.update_of_ne hne _ _
      · rfl
    | hook e => cases e <;> rfl
    | _ => rfl

/-- The entries reported are those of the list, and have an id. -/
theorem resolve_reported {bps : List CreateBreakpoint} {r : ResolvedBreakpoint}
    (hr : r ∈ (resolve bps).2) : r.id ≠ 0 := by
  induction bps with
  | nil => cases hr
  | cons b rest ih =>
    obtain ⟨id, line⟩ := b
    unfold resolve at hr
    by_cases hid : id = 0
    · simp [hid] at hr
    · by_cases hline : line = 0
      · simp [hid, hline] at hr
      · rw [if_neg hid, if_neg hline] at hr
        rcases List.mem_cons.mp hr with rfl | hr
        · exact hid
        · exact ih hr

variable (vm) in
theorem setFileBreakpoints_resolved (s : State V) (file : Bytes) (bps : List CreateBreakpoint) :
    (setFileBreakpoints vm s file bps).2.2 = (resolve bps).2 := by
  unfold setFileBreakpoints
  split <;> simp [*]

/-- The step pauses the VM and reports this breakpoint. -/
def PausesAt (id : UInt64) (throws : Bool) (s' : State V) (res : Res) : Prop :=
  ∃ status, res = .paused status ∧ status.pausedAtBreakpointId = id ∧
    (throws = false → s'.thread = .waiting false)

/-- The hook has read a frame with the handle of this file. -/
def FrameOf (s : State V) (name : Bytes) : Prop :=
  ∃ line i, s.thread = .stopping line (some i) ∧
    s.pauseMutexData.breakpoints.fileNames[i]? = some name

/-- The hook looks the line up, and the last entry of the list on it has this id. -/
def Effective (bps : List CreateBreakpoint) (id : UInt64) (line : UInt32) : Prop :=
  (line.toNat : Int) < int32Max ∧ (lastOn bps line.toNat).map (·.id) = some id

instance (bps : List CreateBreakpoint) (id : UInt64) (line : UInt32) :
    Decidable (Effective bps id line) := by
  unfold Effective
  infer_instance

theorem FrameOf.unique {name name' : Bytes} (h : FrameOf s name) (h' : FrameOf s name') :
    name = name' := by
  obtain ⟨line, i, hth, hname⟩ := h
  obtain ⟨line', i', hth', hname'⟩ := h'
  rw [hth, VmThread.stopping.injEq, Option.some.injEq] at hth'
  obtain ⟨-, rfl⟩ := hth'
  exact Option.some.inj (hname.symm.trans hname')

/-- The pause reports the breakpoint that the line branch reads. -/
theorem pausesAt_iff {line : Int} {handle : FileNameHandle} {throws : Bool} {res : Res}
    {id : UInt64} {entry : Option CreateBreakpoint} (hth : s.thread = .stopping line handle)
    (hentry : lineBreakpoint s.pauseMutexData.breakpoints line handle =
      (entry.isSome, (entry.map toBreakpoint).getD {}))
    (hid : id ≠ 0) (h : exec vm s (.hookNext throws) = some (s', res)) :
    PausesAt id throws s' res ↔ entry.map (·.id) = some id := by
  cases entry with
  | none =>
    -- without a breakpoint on the line a pause reports the id 0
    refine iff_of_false (fun hpause => hid ?_) (by simp)
    obtain ⟨status, hres, hreported, -⟩ := hpause
    by_cases hst : Stops s line handle
    · have hstatus := (exec_stops vm hth hst h).1
      rw [hres, Res.paused.injEq] at hstatus
      rw [← hreported, hstatus]
      simp [pauseStatus, hentry]
    · rw [exec_runs vm hth hst h] at hres
      cases hres
  | some b =>
    have hst : Stops s line handle := .inl (by simp [BreakpointAt, hentry])
    obtain ⟨hres, -, hwaits⟩ := exec_stops vm hth hst h
    have hreports : (pauseStatus vm s line handle).pausedAtBreakpointId = b.id := by
      simp [pauseStatus, hentry, toBreakpoint]
    constructor
    · intro hpause
      obtain ⟨status, hres', hid', -⟩ := hpause
      rw [hres, Res.paused.injEq] at hres'
      rw [Option.map_some, ← hreports, hres', hid']
    · intro hlast
      have hbid : b.id = id := by simpa using hlast
      exact ⟨_, hres, by rw [hreports, hbid], hwaits⟩

/-- A line event that finds `currentStack` empty pauses nothing. -/
theorem not_pausesAt_empty {line : Int} {throws : Bool} {res : Res} {id : UInt64}
    (hth : s.thread = .entered (.l line)) (h : exec vm s (.hookNext throws) = some (s', res)) :
    ¬ PausesAt id throws s' res := by
  intro hpause
  obtain ⟨status, hres, -⟩ := hpause
  cases exec_inv vm h with
  | passive ha => exact ha.elim
  | hookNext hn =>
    cases hn with
    | stops ht => cases hth.symm.trans ht
    | _ => cases hres

/-- At a line event the latest list of the frame's file decides. -/
theorem pausesAt_frame {line : UInt32} {handle : FileNameHandle} {throws : Bool} {res : Res}
    {id : UInt64} (hm : MapInv o.latest s.pauseMutexData.breakpoints)
    (hth : s.thread = .stopping line.toNat handle) (hid : id ≠ 0)
    (h : exec vm s (.hookNext throws) = some (s', res)) :
    PausesAt id throws s' res ↔ ∃ name, FrameOf s name ∧ Effective (o.latest name) id line := by
  -- a line that is not looked up, or whose handle stands for no file
  have hnone : lineBreakpoint s.pauseMutexData.breakpoints line.toNat handle = (false, {}) →
      ¬ PausesAt id throws s' res := fun hbp hpause => by
    have hlast : PausesAt id throws s' res ↔
        (none : Option CreateBreakpoint).map (·.id) = some id :=
      pausesAt_iff hth hbp hid h
    cases hlast.mp hpause
  by_cases h₁ : (line.toNat : Int) < int32Max
  · by_cases hname : ∃ i name, handle = some i ∧
        s.pauseMutexData.breakpoints.fileNames[i]? = some name
    · obtain ⟨i, name, rfl, hname⟩ := hname
      have hframe : FrameOf s name := ⟨_, i, hth, hname⟩
      rw [pausesAt_iff hth (lineBreakpoint_named hm hname (by omega) h₁) hid h]
      constructor
      · exact fun hlast => ⟨name, hframe, h₁, hlast⟩
      · intro heffective
        obtain ⟨name', hframe', -, hlast⟩ := heffective
        obtain rfl := hframe.unique hframe'
        exact hlast
    · refine iff_of_false (hnone ?_) fun heffective => ?_
      · unfold lineBreakpoint
        cases handle with
        | none => rw [if_neg fun hall => hall.2.2 rfl]
        | some i =>
          have hlen : s.pauseMutexData.breakpoints.fileNames.length ≤ i := by
            by_contra hlt
            exact hname ⟨i, _, rfl, List.getElem?_eq_getElem (by omega)⟩
          rw [if_pos ⟨by omega, h₁, by simp⟩, readBreakpoint_some, hm.unused i hlen]
          rfl
      · obtain ⟨name, ⟨line', i, hth', hfile⟩, -⟩ := heffective
        rw [hth, VmThread.stopping.injEq] at hth'
        exact hname ⟨i, name, hth'.2, hfile⟩
  · refine iff_of_false (hnone ?_) fun heffective => ?_
    · unfold lineBreakpoint
      rw [if_neg fun hall => h₁ hall.2.1]
    · obtain ⟨name, -, hlt, -⟩ := heffective
      exact h₁ hlt

variable (vm) in
/-- A run sets the breakpoints of a file, with `Success`, and `r` is an entry
reported verified; no other call for the file follows, and the hook has come to a
line event on that line of that file, and has read its frame or finds none. `o` is
what the run shows. -/
inductive AtVerified (file : Bytes) (bps : List CreateBreakpoint) (r : ResolvedBreakpoint)
    (s : State V) : Seen → Prop
  | intro {eventInterface : Bool} {v : V} {ls ls' : List (Lbl V)} {t u : State V}
    {resolved : List ResolvedBreakpoint}
    (before : (lts vm).Run (fresh eventInterface v) ls t)
    (set : setFileBreakpoints vm t file bps = (u, .success, resolved))
    (reported : r ∈ resolved.filter (·.verified))
    (after : (lts vm).Run u ls' s)
    (last : ∀ l ∈ ls', ∀ file' bps', l.act = .setFileBreakpoints file' bps' →
      vm.strToLower file' ≠ vm.strToLower file)
    (line : (∃ handle, s.thread = .stopping r.line.toNat handle) ∨
      (s.thread = .entered (.l r.line.toNat) ∧ s.vmData.currentStack = []))
    (inFile : ∃ name older,
      (seen vm (ls ++ ⟨.setFileBreakpoints file bps, .rc .success⟩ :: ls')).frames =
        name :: older ∧ vm.strToLower name.text = vm.strToLower file) :
    AtVerified file bps r s (seen vm (ls ++ ⟨.setFileBreakpoints file bps, .rc .success⟩ :: ls'))

/-- **When a verified breakpoint is effective.** The line event pauses with its id exactly
when it finds a frame, the line is looked up, and the last entry on it, in the latest list
of the file whose handle the frame has, has the id. Where the frame has the handle of the
event's own file, that list is the one the entry was reported for. -/
theorem effective_iff {file : Bytes} {bps : List CreateBreakpoint} {r : ResolvedBreakpoint}
    {throws : Bool} {res : Res} (h : AtVerified vm file bps r s o)
    (hnext : exec vm s (.hookNext throws) = some (s', res)) :
    (PausesAt r.id throws s' res ↔
        ∃ name, FrameOf s name ∧ Effective (o.latest name) r.id r.line) ∧
      (FrameOf s (vm.strToLower file) →
        (PausesAt r.id throws s' res ↔ Effective bps r.id r.line)) := by
  obtain @⟨eventInterface, v, ls, ls', t, u, resolved, hbefore, hset, hreported,
    hafter, hlast, hline, -⟩ := h
  have hlatest : (seen vm (ls ++ ⟨.setFileBreakpoints file bps, .rc .success⟩ :: ls')).latest
      (vm.strToLower file) = bps := by
    unfold seen
    rw [List.foldl_append, List.foldl_cons, latest_foldl hlast]
    simp [Seen.next]
  have hframe : PausesAt r.id throws s' res ↔ ∃ name, FrameOf s name ∧ Effective
      ((seen vm (ls ++ ⟨.setFileBreakpoints file bps, .rc .success⟩ :: ls')).latest name)
      r.id r.line := by
    rcases hline with ⟨handle, hline⟩ | ⟨hline, -⟩
    case inr =>
      refine iff_of_false (not_pausesAt_empty hline hnext) fun heffective => ?_
      obtain ⟨name, ⟨line, i, hth, -⟩, -⟩ := heffective
      cases hline.symm.trans hth
    have hstep : (lts vm).step t ⟨.setFileBreakpoints file bps, .rc .success⟩ u :=
      (lts_step vm).mpr (by simp [exec, hset])
    have hm := mapInv_run vm (o := {}) (hbefore.append (.cons hstep hafter))
      ⟨List.nodup_nil, fun _ _ hn => by simp [fresh] at hn, fun _ _ _ => rfl, fun _ _ => rfl⟩
    have hid : r.id ≠ 0 := by
      have hresolved := setFileBreakpoints_resolved vm t file bps
      rw [hset] at hresolved
      have hmem : r ∈ (resolve bps).2 := by
        rw [← hresolved]
        exact (List.mem_filter.mp hreported).1
      exact resolve_reported hmem
    exact pausesAt_frame hm hline hid hnext
  refine ⟨hframe, fun hown => hframe.trans ⟨fun heffective => ?_, fun heffective => ?_⟩⟩
  · obtain ⟨name, hname, heffective⟩ := heffective
    rw [hname.unique hown, hlatest] at heffective
    exact heffective
  · refine ⟨_, hown, ?_⟩
    rw [hlatest]
    exact heffective

/-- In an orderly run the frame read is of the file of the innermost open call. -/
theorem ownFrame {eventInterface : Bool} {v : V} {ls : List (Lbl V)} {line : Int}
    {handle : FileNameHandle} (hr : (orderly vm textOf).Run (fresh eventInterface v) ls s)
    (hth : s.thread = .stopping line handle) :
    ∃ name older, (seen vm ls).frames = name :: older ∧ FrameOf s (vm.strToLower name.text) := by
  have hi : Follows vm textOf (seen vm ls) s := follows_run (follows_fresh eventInterface v) hr
  obtain ⟨name, older, hframes, i, rfl, hname⟩ := hi.stopping line handle hth
  exact ⟨name, older, hframes, line, i, hth, hname⟩

end

/-! ## Two entries on line 5 -/

/-- A call of a function of this file, and line 5 of it. -/
def lineFiveRun : List (Lbl Unit) :=
  [⟨.hook (.c nameA 1), .silent⟩, ⟨.hookNext false, .silent⟩, ⟨.hookNext false, .silent⟩,
    ⟨.hook (.l 5), .silent⟩, ⟨.hookNext false, .silent⟩]

theorem twoOnLineFive {r : ResolvedBreakpoint} (hr : r ∈ [⟨1, 5, true⟩, ⟨2, 5, true⟩]) :
    ∃ s s' o status, AtVerified idleVm nameA.text [⟨1, 5⟩, ⟨2, 5⟩] r s o ∧
      FrameOf s nameA.text ∧ exec idleVm s (.hookNext false) = some (s', .paused status) ∧
      status.pausedAtBreakpointId = 2 := by
  have hline : r.line = 5 := by
    simp only [List.mem_cons, List.not_mem_nil, or_false] at hr
    rcases hr with rfl | rfl <;> rfl
  have hbefore : ∃ t u s s' status,
      (lts idleVm).Run (fresh true ()) [⟨.addVm 1, .silent⟩] t ∧
      setFileBreakpoints idleVm t nameA.text [⟨1, 5⟩, ⟨2, 5⟩] =
        (u, .success, [⟨1, 5, true⟩, ⟨2, 5, true⟩]) ∧
      (lts idleVm).Run u lineFiveRun s ∧
      s.thread = .stopping 5 (some 0) ∧
      s.pauseMutexData.breakpoints.fileNames[0]? = some nameA.text ∧
      exec idleVm s (.hookNext false) = some (s', .paused status) ∧
      status.pausedAtBreakpointId = 2 :=
    ⟨_, _, _, _, _, .single rfl, rfl, .cons rfl (.cons rfl (.cons rfl (.cons rfl (.single rfl)))),
      rfl, rfl, rfl, rfl⟩
  obtain ⟨t, u, s, s', status, hbefore, hset, hafter, hthread, hname, hnext, hid⟩ := hbefore
  refine ⟨s, s', _, status, .intro hbefore hset ?_ hafter ?_ (.inl ⟨some 0, ?_⟩) ?_,
    ⟨5, 0, hthread, hname⟩, hnext, hid⟩
  · rw [List.mem_filter]
    refine ⟨hr, ?_⟩
    simp only [List.mem_cons, List.not_mem_nil, or_false] at hr
    rcases hr with rfl | rfl <;> rfl
  · intro l hl file bps heq
    simp only [lineFiveRun, List.mem_cons, List.not_mem_nil, or_false] at hl
    rcases hl with rfl | rfl | rfl | rfl | rfl <;> cases heq
  · rw [hthread, hline]
    rfl
  · exact ⟨nameA, [], rfl, rfl⟩

/-- The second entry is effective. -/
theorem effective_second :
    ∃ s s' o res, AtVerified idleVm nameA.text [⟨1, 5⟩, ⟨2, 5⟩] ⟨2, 5, true⟩ s o ∧
      exec idleVm s (.hookNext false) = some (s', res) ∧ PausesAt 2 false s' res := by
  obtain ⟨s, s', o, status, hat, hframe, hnext, -⟩ := twoOnLineFive (r := ⟨2, 5, true⟩) (by simp)
  exact ⟨s, s', o, _, hat, hnext, ((effective_iff hat hnext).2 hframe).mpr (by decide)⟩

/-- The first entry is reported verified and is not effective. -/
theorem verified_notEffective :
    ¬ ∀ (s s' : State Unit) file bps r o res, AtVerified idleVm file bps r s o →
      exec idleVm s (.hookNext false) = some (s', res) → PausesAt r.id false s' res := by
  intro hall
  obtain ⟨s, s', o, status, hat, -, hnext, hid⟩ := twoOnLineFive (r := ⟨1, 5, true⟩) (by simp)
  obtain ⟨status', hres, hid', -⟩ := hall s s' _ _ _ _ _ hat hnext
  rw [Res.paused.injEq] at hres
  rw [← hres, hid] at hid'
  cases hid'

end Sdb.L2
