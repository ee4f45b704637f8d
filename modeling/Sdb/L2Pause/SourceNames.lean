import Sdb.L2Pause.Breakpoints

/-!
# Source names that are loaded again

The hook finds the handle of a call event through a cache from addresses to
handles (`fileNameHandles`), which only a detach empties. Here the VM may release a
source name and place another at its address. `Met` records, beside the run, the
text at each address when its first call event since the last detach was handled,
and the texts of the frames in `currentStack`.

* `keeps_step`, `keeps_run`: the cache holds the handle of the first text met;
* `ownFile_iff`: every frame is matched against its own file exactly when every
  later text at an address folds to the first one's name.
-/
namespace Sdb.L2

open Sdb.L1 BreakpointMap

/-! ## The record -/

structure Met where
  /-- The text at each address at its first call event since the last detach. -/
  first : Nat → Option Bytes := fun _ => none
  /-- The texts of the frames in `currentStack`, innermost first. -/
  frames : List Bytes := []
  /-- The text of the frame that a line event was last read for. -/
  reading : Option Bytes := none
  /-- The latest accepted breakpoints of each folded file name. -/
  latest : Bytes → List CreateBreakpoint := fun _ => []

def Met.call (o : Met) (name : SourceName) : Met :=
  { o with
    first := Function.update o.first name.addr (some ((o.first name.addr).getD name.text))
    frames := name.text :: o.frames }

section
variable {V : Type} (vm : VmAccess V)

/-- A frame is recorded when the hook pushes it, and dropped when it is popped. -/
def met (s : State V) (l : Lbl V) (o : Met) : Met :=
  match l.act, s.thread with
  | .hookNext _, .entered (.c name _) => o.call name
  | .hookNext _, .entered .r => { o with frames := o.frames.tail }
  | .hookNext _, .entered (.l _) => { o with reading := o.frames.head? }
  | .setFileBreakpoints file bps, _ =>
    if l.res = .rc .success then
      { o with latest := Function.update o.latest (vm.strToLower file) bps }
    else o
  | .detachVmLocked, _ => { o with first := fun _ => none, frames := [] }
  | _, _ => o

/-- The pause mechanism with the record beside it. -/
def meeting : LTS (State V × Met) (Lbl V) := (lts vm).track {} (met vm)

/-- A call event that the hook handles in this step has the file of the first text
met at its address. -/
def SameFile (s : State V) (o : Met) (l : Lbl V) : Prop :=
  ∀ throws name line, l.act = .hookNext throws → s.thread = .entered (.c name line) →
    ∀ text, o.first name.addr = some text → vm.strToLower text = vm.strToLower name.text

/-- Every frame has the handle of the text at its call event, and so has the line
event in the hook. -/
structure OwnFile (s : State V) (o : Met) : Prop where
  frames : List.Forall₂ (fun (frame : StackInfo) (text : Bytes) =>
    Names vm s.pauseMutexData.breakpoints frame.fileNameHandle text)
    s.vmData.currentStack o.frames
  stopping : ∀ line handle, s.thread = .stopping line handle →
    ∃ text, o.reading = some text ∧ Names vm s.pauseMutexData.breakpoints handle text

/-- A breakpoint that the hook finds at a line event was set for the frame's file. -/
def OwnBreakpoint (s : State V) (o : Met) : Prop :=
  ∀ line handle bp, s.thread = .stopping line handle →
    lineBreakpoint s.pauseMutexData.breakpoints line handle = (true, bp) →
    ∃ text, o.reading = some text ∧ ∃ b ∈ o.latest (vm.strToLower text),
      (b.line.toNat : Int) = line ∧ bp = toBreakpoint b

/-- The map holds the latest lists, and the cache the handle of each text met. -/
structure Keeps (s : State V) (o : Met) : Prop where
  map : MapInv o.latest s.pauseMutexData.breakpoints
  cache : ∀ addr, (s.vmData.fileNameHandles addr = none ∧ o.first addr = none) ∨
    ∃ handle text, s.vmData.fileNameHandles addr = some handle ∧ o.first addr = some text ∧
      Names vm s.pauseMutexData.breakpoints handle text

/-! ## What a step does to the tables -/

/-- One constructor for each way a step can change the stack, the cache, the
breakpoints or the record. -/
inductive Changes (s : State V) (o : Met) (l : Lbl V) (s' : State V) : Met → Prop
  | nothing (hbps : s'.pauseMutexData.breakpoints = s.pauseMutexData.breakpoints)
    (hcache : s'.vmData.fileNameHandles = s.vmData.fileNameHandles)
    (hstk : s'.vmData.currentStack = s.vmData.currentStack)
    (hstop : ∀ line handle, s'.thread = .stopping line handle → s'.thread = s.thread) :
    Changes s o l s' o
  | set {file : Bytes} {bps : List CreateBreakpoint}
    (hs : s' = { s with pauseMutexData := { s.pauseMutexData with
      breakpoints := replaceBreakpoints vm s.pauseMutexData.breakpoints file
        (bps.map toBreakpoint) } }) :
    Changes s o l s' { o with latest := Function.update o.latest (vm.strToLower file) bps }
  | call {throws : Bool} {name : SourceName} {line : Int} (ha : l.act = .hookNext throws)
    (ht : s.thread = .entered (.c name line)) (hs : s' = hookCall vm s name line) :
    Changes s o l s' (o.call name)
  | ret (hm : s'.pauseMutexData = s.pauseMutexData)
    (hcache : s'.vmData.fileNameHandles = s.vmData.fileNameHandles)
    (hstk : s'.vmData.currentStack = s.vmData.currentStack.tail)
    (hstop : ∀ line handle, s'.thread ≠ .stopping line handle) :
    Changes s o l s' { o with frames := o.frames.tail }
  | line {line : Int} {head : StackInfo} {rest : List StackInfo}
    (hstk : s.vmData.currentStack = head :: rest)
    (hs : s' = { s with
      vmData := { s.vmData with currentStack := { head with line := line } :: rest }
      thread := .stopping line head.fileNameHandle }) :
    Changes s o l s' { o with reading := o.frames.head? }
  | fault (hs : s' = { s with thread := .fault }) :
    Changes s o l s' { o with reading := o.frames.head? }
  | detach (hs : s' = detachVmLocked s) :
    Changes s o l s' { o with first := fun _ => none, frames := [] }

variable {vm} {s s' : State V} {o o' : Met} {l : Lbl V}

theorem changes_hookNext {throws : Bool} {res : Res} (h : HookNext vm s throws s' res) :
    Changes vm s o ⟨.hookNext throws, res⟩ s' (met vm s ⟨.hookNext throws, res⟩ o) := by
  unfold met
  cases h with
  | call ht =>
    rw [ht]
    exact .call rfl ht rfl
  | @ret head rest ht hstk =>
    rw [ht]
    exact .ret rfl rfl (by rw [hstk]; rfl) fun _ _ heq => by cases heq
  | line ht hstk =>
    rw [ht]
    exact .line hstk rfl
  | fault ht hstk =>
    rcases ht with ht | ⟨line, ht⟩
    · rw [ht]
      exact .ret rfl rfl (by simp [hstk]) fun _ _ heq => by cases heq
    · rw [ht]
      exact .fault rfl
  | other ht =>
    rw [ht]
    exact .nothing rfl rfl rfl fun _ _ heq => by cases heq
  | called ht =>
    rw [ht, hookCalled_eq]
    refine .nothing rfl rfl rfl fun _ _ heq => ?_
    rw [← hookCalled_eq] at heq
    rcases hookCalled_thread s with e | e <;> rw [e] at heq <;> cases heq
  | counted ht =>
    rw [ht]
    exact .nothing rfl rfl rfl fun _ _ heq => by cases heq
  | returned ht =>
    rw [ht, hookReturned_eq]
    exact .nothing rfl rfl rfl fun _ _ heq => by cases heq
  | @stops line handle ht hst =>
    obtain ⟨-, -, -, -, hbps, hvm, -⟩ := hookStop_stops vm throws hst
    rw [ht]
    refine .nothing hbps (by rw [hvm]) (by rw [hvm]) fun line' handle' heq => ?_
    rcases hookStop_thread vm s line handle throws with e | e <;> rw [e] at heq <;> cases heq
  | runs ht _ =>
    rw [ht]
    exact .nothing rfl rfl rfl fun _ _ heq => by cases heq

theorem changes_of_step (h : (meeting vm).step (s, o) l (s', o')) : Changes vm s o l s' o' := by
  obtain ⟨a, res⟩ := l
  obtain ⟨h, ho⟩ := h
  simp only at h ho
  rw [lts_step] at h
  subst ho
  cases exec_inv vm h with
  | passive ha hf =>
    by_cases hset : ∃ file bps, a = .setFileBreakpoints file bps
    · obtain ⟨file, bps, rfl⟩ := hset
      simp only [exec, Option.some.injEq, Prod.mk.injEq] at h
      obtain ⟨rfl, rfl⟩ := h
      rcases setFileBreakpoints_spec vm s file bps with ⟨-, h₁, h₂⟩ | ⟨-, h₁, h₂⟩
      · rw [h₁, h₂]
        exact .nothing rfl rfl rfl fun _ _ _ => rfl
      · rw [h₁, h₂]
        exact .set rfl
    · have hsame : met vm s ⟨a, res⟩ o = o := by
        cases a with
        | setFileBreakpoints file bps => exact absurd ⟨file, bps, rfl⟩ hset
        | hookNext throws => exact ha.elim
        | detachVmLocked => exact ha.elim
        | _ => rfl
      rw [hsame]
      exact .nothing (passive_breakpoints vm ha (fun file bps e => hset ⟨file, bps, e⟩) h)
        hf.fileNameHandles hf.currentStack fun _ _ _ => hf.thread
  | detachVm =>
    have hf := detachVm_frame s
    refine .nothing ?_ hf.fileNameHandles hf.currentStack fun _ _ _ => hf.thread
    unfold detachVm
    split <;> rfl
  | detachVmLocked => exact .detach rfl
  | pauseExecution =>
    obtain ⟨-, -, hvm, hth⟩ := pauseExecution_spec s
    refine .nothing ?_ (by rw [hvm]) (by rw [hvm]) fun _ _ _ => hth
    unfold pauseExecution
    split <;> rfl
  | @accepted c hc =>
    obtain ⟨-, hvm, hth⟩ := resume_frame s c
    refine .nothing ?_ (by rw [hvm]) (by rw [hvm]) fun line handle heq => ?_
    · rw [resume_accepted hc]
      simp
    · by_cases hw : ∃ n, s.thread = .waiting n
      · obtain ⟨n, hn⟩ := hw
        rw [resume_notifies hc hn] at heq
        cases heq
      · exact hth fun n hn => hw ⟨n, hn⟩
  | refused _ => exact .nothing rfl rfl rfl fun _ _ _ => rfl
  | unattached _ _ => exact .nothing rfl rfl rfl fun _ _ _ => rfl
  | hook _ _ => exact .nothing rfl rfl rfl fun _ _ heq => by cases heq
  | hookNext hn => exact changes_hookNext hn
  | wake _ => exact .nothing rfl rfl rfl fun _ _ heq => by cases heq

/-! ## The cache -/

theorem detachVmLocked_breakpoints (s : State V) :
    (detachVmLocked s).pauseMutexData.breakpoints = s.pauseMutexData.breakpoints := by
  by_cases h : s.pauseRequested = .none
  · rw [detachVmLocked_idle h]
  · rw [detachVmLocked_busy h]

/-- A known address: the cached handle is pushed. -/
theorem hookCall_known {name : SourceName} {handle : FileNameHandle} (line : Int)
    (h : s.vmData.fileNameHandles name.addr = some handle) :
    hookCall vm s name line =
      { s with
        vmData := { s.vmData with currentStack := ⟨handle, line⟩ :: s.vmData.currentStack }
        thread := .called } := by
  unfold hookCall
  rw [h]

/-- A new address: the handle of the text is cached and pushed. -/
theorem hookCall_new {name : SourceName} (line : Int)
    (h : s.vmData.fileNameHandles name.addr = none) :
    hookCall vm s name line =
      { s with
        pauseMutexData := { s.pauseMutexData with
          breakpoints := (s.pauseMutexData.breakpoints.ensureFileNameHandle vm.strToLower
            name.text).1 }
        vmData := { s.vmData with
          currentStack := ⟨(s.pauseMutexData.breakpoints.ensureFileNameHandle vm.strToLower
            name.text).2, line⟩ :: s.vmData.currentStack
          fileNameHandles := Function.update s.vmData.fileNameHandles name.addr
            (some (s.pauseMutexData.breakpoints.ensureFileNameHandle vm.strToLower
              name.text).2) }
        thread := .called } := by
  unfold hookCall
  rw [h]

theorem Met.call_known {name : SourceName} {text : Bytes} (h : o.first name.addr = some text) :
    (o.call name).first = o.first := by
  unfold call
  rw [h, Option.getD_some, ← h]
  exact Function.update_eq_self _ _

theorem keeps_step (hi : Keeps vm s o) (h : Changes vm s o l s' o') : Keeps vm s' o' := by
  cases h with
  | nothing hbps hcache _ _ =>
    constructor
    · rw [hbps]
      exact hi.map
    · rw [hbps, hcache]
      exact hi.cache
  | @set file bps hs =>
    subst hs
    obtain ⟨hm, hp⟩ := hi.map.replace vm file bps
    refine ⟨hm, fun addr => ?_⟩
    rcases hi.cache addr with hnone | ⟨handle, text, hc, hf, hn⟩
    · exact .inl hnone
    · exact .inr ⟨handle, text, hc, hf, hn.mono vm hp⟩
  | @call throws name line _ _ hs =>
    subst hs
    rcases hi.cache name.addr with ⟨hc, hf⟩ | ⟨handle, text, hc, hf, -⟩
    · obtain ⟨hm, hn, hp⟩ := hi.map.ensure vm name.text
      rw [hookCall_new line hc]
      refine ⟨hm, fun addr => ?_⟩
      by_cases he : addr = name.addr
      · subst he
        exact .inr ⟨_, name.text, by simp, by simp [Met.call, hf], hn⟩
      · simp only [Met.call, Function.update_of_ne he]
        rcases hi.cache addr with hnone | ⟨handle, text, hc', hf', hn'⟩
        · exact .inl hnone
        · exact .inr ⟨handle, text, hc', hf', hn'.mono vm hp⟩
    · rw [hookCall_known line hc]
      refine ⟨hi.map, ?_⟩
      rw [Met.call_known hf]
      exact hi.cache
  | ret hm hcache _ _ =>
    constructor
    · rw [hm]
      exact hi.map
    · rw [hm, hcache]
      exact hi.cache
  | line _ hs =>
    subst hs
    exact ⟨hi.map, hi.cache⟩
  | fault hs =>
    subst hs
    exact ⟨hi.map, hi.cache⟩
  | detach hs =>
    subst hs
    constructor
    · rw [detachVmLocked_breakpoints]
      exact hi.map
    · rw [(detachVmLocked_spec s).2.2]
      exact fun addr => .inl ⟨rfl, rfl⟩

theorem keeps_fresh (eventInterface : Bool) (v : V) : Keeps vm (fresh eventInterface v) {} where
  map := ⟨List.nodup_nil, fun _ _ hn => by simp [fresh] at hn, fun _ _ _ => rfl, fun _ _ => rfl⟩
  cache := fun _ => .inl ⟨rfl, rfl⟩

theorem keeps_run {ls : List (Lbl V)} (hi : Keeps vm s o)
    (h : (meeting vm).Run (s, o) ls (s', o')) : Keeps vm s' o' :=
  h.invariant (fun _ => True) (fun p => Keeps vm p.1 p.2) (fun _ _ => trivial) hi
    fun _ _ _ _ hp hs => keeps_step hp (changes_of_step hs)

/-! ## The frames -/

theorem Names.unique {m : BreakpointMap} {handle : FileNameHandle} {text text' : Bytes}
    (h : Names vm m handle text) (h' : Names vm m handle text') :
    vm.strToLower text = vm.strToLower text' := by
  obtain ⟨i, rfl, hi⟩ := h
  obtain ⟨j, hj, hi'⟩ := h'
  obtain rfl := Option.some.inj hj
  exact Option.some.inj (hi.symm.trans hi')

theorem Names.congr {m : BreakpointMap} {handle : FileNameHandle} {text text' : Bytes}
    (h : Names vm m handle text) (he : vm.strToLower text = vm.strToLower text') :
    Names vm m handle text' := by
  obtain ⟨i, rfl, hi⟩ := h
  refine ⟨i, rfl, hi.trans ?_⟩
  exact congrArg some he

/-- The frames and the line event keep their names in a larger table. -/
theorem OwnFile.mono {m : BreakpointMap} (hown : OwnFile vm s o)
    (hp : s.pauseMutexData.breakpoints.fileNames <+: m.fileNames) :
    List.Forall₂ (fun (frame : StackInfo) (text : Bytes) =>
        Names vm m frame.fileNameHandle text) s.vmData.currentStack o.frames ∧
      ∀ line handle, s.thread = .stopping line handle →
        ∃ text, o.reading = some text ∧ Names vm m handle text := by
  refine ⟨hown.frames.imp fun _ _ hn => hn.mono vm hp, fun line handle ht => ?_⟩
  obtain ⟨text, hr, hn⟩ := hown.stopping line handle ht
  exact ⟨text, hr, hn.mono vm hp⟩

theorem ownFile_step (hi : Keeps vm s o) (hown : OwnFile vm s o) (hsame : SameFile vm s o l)
    (h : Changes vm s o l s' o') : OwnFile vm s' o' := by
  cases h with
  | nothing hbps _ hstk hstop =>
    constructor
    · rw [hbps, hstk]
      exact hown.frames
    · intro line handle ht
      rw [hbps]
      exact hown.stopping line handle (by rw [← hstop line handle ht, ht])
  | @set file bps hs =>
    subst hs
    obtain ⟨-, hp⟩ := hi.map.replace vm file bps
    obtain ⟨hframes, hstopping⟩ := hown.mono hp
    exact ⟨hframes, hstopping⟩
  | @call throws name line ha ht hs =>
    subst hs
    rcases hi.cache name.addr with ⟨hc, -⟩ | ⟨handle, text, hc, hf, hn⟩
    · obtain ⟨-, hn, hp⟩ := hi.map.ensure vm name.text
      rw [hookCall_new line hc]
      exact ⟨.cons hn (hown.mono hp).1, fun _ _ heq => by cases heq⟩
    · rw [hookCall_known line hc]
      have hfold := hsame throws name line ha ht text hf
      exact ⟨.cons (hn.congr hfold) hown.frames, fun _ _ heq => by cases heq⟩
  | ret hm _ hstk hstop =>
    constructor
    · rw [hm, hstk]
      have hframes := hown.frames
      revert hframes
      generalize s.vmData.currentStack = stack
      generalize o.frames = frames
      intro hframes
      cases hframes with
      | nil => exact .nil
      | cons _ hrest => exact hrest
    · exact fun line handle ht => absurd ht (hstop line handle)
  | @line line head rest hstk hs =>
    subst hs
    have hframes := hown.frames
    rw [hstk] at hframes
    generalize hfs : o.frames = frames at hframes
    cases hframes with
    | @cons _ text _ texts hn hrest =>
      constructor
      · exact .cons hn hrest
      · intro line' handle heq
        injection heq with _ hhandle
        rw [← hhandle]
        exact ⟨text, rfl, hn⟩
  | fault hs =>
    subst hs
    exact ⟨hown.frames, fun _ _ heq => by cases heq⟩
  | detach hs =>
    subst hs
    constructor
    · rw [(detachVmLocked_spec s).2.2]
      exact .nil
    · intro line handle ht
      rw [detachVmLocked_breakpoints]
      refine hown.stopping line handle ?_
      rw [detachVmLocked_thread] at ht
      split at ht
      · exact ht
      · unfold notifyAll at ht
        split at ht
        · cases ht
        · exact ht

/-- A frame pushed with the handle of its text has the file of the first one. -/
theorem sameFile_of_ownFile (hi : Keeps vm s o) (hown : OwnFile vm s' o')
    (h : (meeting vm).step (s, o) l (s', o')) : SameFile vm s o l := by
  intro throws name line ha ht text hf
  obtain ⟨a, res⟩ := l
  obtain rfl : a = .hookNext throws := ha
  obtain ⟨hstep, ho⟩ := h
  simp only at hstep ho
  rw [lts_step] at hstep
  obtain ⟨rfl, -⟩ : hookCall vm s name line = s' ∧ Res.silent = res := by
    simpa [exec, hookNext, ht] using hstep
  rcases hi.cache name.addr with ⟨-, hnone⟩ | ⟨handle, text', hc, hf', hn⟩
  · rw [hnone] at hf
    cases hf
  · obtain rfl : text' = text := Option.some.inj (hf'.symm.trans hf)
    have hframes := hown.frames
    rw [ho, hookCall_known line hc] at hframes
    simp only [met, ht, Met.call] at hframes
    obtain _ | ⟨hname, -⟩ := hframes
    exact hn.unique hname

theorem ownBreakpoint_of_ownFile (hi : Keeps vm s o) (hown : OwnFile vm s o) :
    OwnBreakpoint vm s o := by
  intro line handle bp ht hfound
  obtain ⟨text, hr, hn⟩ := hown.stopping line handle ht
  refine ⟨text, hr, ?_⟩
  have hlooked : 0 ≤ line ∧ line < int32Max := by
    by_cases hcond : 0 ≤ line ∧ line < int32Max ∧ handle ≠ none
    · exact ⟨hcond.1, hcond.2.1⟩
    · simp [lineBreakpoint, hcond] at hfound
  rw [lineBreakpoint_latest vm hi.map hn hlooked.1 hlooked.2] at hfound
  obtain ⟨hsome, hbp⟩ := Prod.mk.inj hfound
  obtain ⟨b, hb⟩ := Option.isSome_iff_exists.mp hsome
  rw [hb] at hbp
  unfold lastOn at hb
  refine ⟨b, ?_, ?_, hbp.symm⟩
  · simpa using List.mem_of_find?_eq_some hb
  · simpa using List.find?_some hb

/-! ## Main result -/

/-- **When every frame is matched against its own file.** Take any run of a fresh
debugger. In every state on the way each frame of `currentStack` has the handle of
the text at its call event, and a breakpoint found at a line event was set for that
text's file, if and only if at each call event handled the text folds to the same
name as the first one met at its address since the last detach. -/
theorem ownFile_iff (eventInterface : Bool) (v : V) {ls : List (Lbl V)} {p : State V × Met}
    (h : (meeting vm).Run (fresh eventInterface v, {}) ls p) :
    (∀ l₁ l₂ t o, ls = l₁ ++ l₂ → (meeting vm).Run (fresh eventInterface v, {}) l₁ (t, o) →
        OwnFile vm t o ∧ OwnBreakpoint vm t o) ↔
      ∀ l₁ l l₂ t o, ls = l₁ ++ l :: l₂ →
        (meeting vm).Run (fresh eventInterface v, {}) l₁ (t, o) → SameFile vm t o l := by
  have hkeeps : ∀ l₁ t o, (meeting vm).Run (fresh eventInterface v, {}) l₁ (t, o) →
      Keeps vm t o := fun l₁ t o hr => keeps_run (keeps_fresh eventInterface v) hr
  constructor
  · intro hall l₁ l l₂ t o hls hr
    rw [hls] at h
    obtain ⟨⟨t', o'⟩, hr', hrest⟩ := h.split
    obtain ⟨rfl, rfl⟩ : t' = t ∧ o' = o := by
      have hf : (meeting vm).Functional := (lts_functional vm).track _ _
      simpa using hr'.unique hf hr
    cases hrest with
    | @cons _ u _ _ _ hs _ =>
      have hls' : ls = (l₁ ++ [l]) ++ l₂ := by rw [hls]; simp
      have hown := (hall _ l₂ u.1 u.2 hls' (hr.append (.single hs))).1
      exact sameFile_of_ownFile (hkeeps l₁ t' o' hr) hown hs
  · intro hall l₁ l₂ t o hls hr
    have hown : OwnFile vm (t, o).1 (t, o).2 := by
      refine LTS.along (P := fun _ (q : State V × Met) => OwnFile vm q.1 q.2) ?_ ?_
        l₁ l₂ (t, o) hls hr
      · exact ⟨.nil, fun _ _ heq => by cases heq⟩
      · intro l₁ l l₂ q u hls hq hown hs
        exact ownFile_step (hkeeps l₁ q.1 q.2 hq) hown (hall l₁ l l₂ q.1 q.2 hls hq)
          (changes_of_step hs)
    exact ⟨hown, ownBreakpoint_of_ownFile (hkeeps l₁ t o hr) hown⟩

end

/-! ## A script that is loaded at the address of another -/

/-- Another file at the address of `nameA`. -/
def nameB : SourceName := ⟨1, [98]⟩

/-- Line 5 of the first file has a breakpoint; it is called and returns, and then
line 5 of the second is reached. -/
def reloadRun : List (Lbl Unit) :=
  [⟨.addVm 1, .silent⟩, ⟨.setFileBreakpoints nameA.text [⟨1, 5⟩], .rc .success⟩,
    ⟨.hook (.c nameA 1), .silent⟩, ⟨.hookNext false, .silent⟩, ⟨.hookNext false, .silent⟩,
    ⟨.hook .r, .silent⟩, ⟨.hookNext false, .silent⟩, ⟨.hookNext false, .silent⟩,
    ⟨.hook (.c nameB 1), .silent⟩, ⟨.hookNext false, .silent⟩, ⟨.hookNext false, .silent⟩,
    ⟨.hook (.l 5), .silent⟩, ⟨.hookNext false, .silent⟩]

theorem reloadRun_pauses : ∃ t o t' status,
    (meeting idleVm).Run (fresh true (), {}) reloadRun (t, o) ∧ o.frames = [nameB.text] ∧
      ¬ OwnFile idleVm t o ∧ o.latest nameB.text = [] ∧
      exec idleVm t (.hookNext false) = some (t', .paused status) ∧
      status.pausedAtBreakpointId = 1 := by
  have hrun : ∃ t o t' status,
      (meeting idleVm).Run (fresh true (), {}) reloadRun (t, o) ∧ o.frames = [nameB.text] ∧
        t.vmData.currentStack = [⟨some 0, 5⟩] ∧
        t.pauseMutexData.breakpoints.fileNames = [nameA.text] ∧ o.latest nameB.text = [] ∧
        exec idleVm t (.hookNext false) = some (t', .paused status) ∧
        status.pausedAtBreakpointId = 1 := by
    refine ⟨_, _, _, _, .cons (t := (_, _)) ⟨rfl, rfl⟩ (.cons (t := (_, _)) ⟨rfl, rfl⟩
      (.cons (t := (_, _)) ⟨rfl, rfl⟩ (.cons (t := (_, _)) ⟨rfl, rfl⟩
      (.cons (t := (_, _)) ⟨rfl, rfl⟩ (.cons (t := (_, _)) ⟨rfl, rfl⟩
      (.cons (t := (_, _)) ⟨rfl, rfl⟩ (.cons (t := (_, _)) ⟨rfl, rfl⟩
      (.cons (t := (_, _)) ⟨rfl, rfl⟩ (.cons (t := (_, _)) ⟨rfl, rfl⟩
      (.cons (t := (_, _)) ⟨rfl, rfl⟩ (.cons (t := (_, _)) ⟨rfl, rfl⟩
      (.single ⟨rfl, rfl⟩)))))))))))), rfl, rfl, rfl, rfl, rfl, rfl⟩
  obtain ⟨t, o, t', status, hr, hframes, hstk, hnames, hlatest, hnext, hid⟩ := hrun
  refine ⟨t, o, t', status, hr, hframes, ?_, hlatest, hnext, hid⟩
  intro hown
  have hall := hown.frames
  rw [hstk, hframes] at hall
  obtain _ | ⟨hn, -⟩ := hall
  obtain ⟨i, hi, hname⟩ := hn
  obtain rfl : 0 = i := Option.some.inj hi
  rw [hnames] at hname
  exact absurd (Option.some.inj hname) (by decide)

/-- Both files are loaded at one address, with a detach between. -/
def detachedRun : List (Lbl Unit) :=
  [⟨.addVm 1, .silent⟩, ⟨.hook (.c nameA 1), .silent⟩, ⟨.hookNext false, .silent⟩,
    ⟨.hookNext false, .silent⟩, ⟨.detachVm, .silent⟩, ⟨.detachVmLocked, .silent⟩,
    ⟨.addVm 1, .silent⟩, ⟨.hook (.c nameB 1), .silent⟩, ⟨.hookNext false, .silent⟩]

theorem ownFile_iff_detachedRun : ∃ p,
    (meeting idleVm).Run (fresh true (), {}) detachedRun p ∧ p.2.frames = [nameB.text] ∧
      ((∀ l₁ l₂ t o, detachedRun = l₁ ++ l₂ →
          (meeting idleVm).Run (fresh true (), {}) l₁ (t, o) →
            OwnFile idleVm t o ∧ OwnBreakpoint idleVm t o) ↔
        ∀ l₁ l l₂ t o, detachedRun = l₁ ++ l :: l₂ →
          (meeting idleVm).Run (fresh true (), {}) l₁ (t, o) → SameFile idleVm t o l) := by
  have hrun : ∃ p, (meeting idleVm).Run (fresh true (), {}) detachedRun p ∧
      p.2.frames = [nameB.text] := by
    refine ⟨(_, _), .cons (t := (_, _)) ⟨rfl, rfl⟩ (.cons (t := (_, _)) ⟨rfl, rfl⟩
      (.cons (t := (_, _)) ⟨rfl, rfl⟩ (.cons (t := (_, _)) ⟨rfl, rfl⟩
      (.cons (t := (_, _)) ⟨rfl, rfl⟩ (.cons (t := (_, _)) ⟨rfl, rfl⟩
      (.cons (t := (_, _)) ⟨rfl, rfl⟩ (.cons (t := (_, _)) ⟨rfl, rfl⟩
      (.single ⟨rfl, rfl⟩)))))))), rfl⟩
  obtain ⟨p, hr, hframes⟩ := hrun
  exact ⟨p, hr, hframes, ownFile_iff true () hr⟩

end Sdb.L2
