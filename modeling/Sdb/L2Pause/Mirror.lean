import Sdb.L2Pause.Breakpoints

/-!
# The mirror of the call stack

`currentStack` mirrors the VM's calls: a call event pushes a frame, a return event
pops one, a line event and `SquirrelPrintCallback` read the last one. The script
and its host are a system of their own here (`hosted`): calls and returns nest, a
line event comes inside a call, a print comes at any time, and VMs are added and
detached by any thread at any time. `Calls` counts what the events show.

* `mirrors_step`: one step keeps the mirror as long as the counts are, or is the
  access to an empty mirror;
* `faultless_iff`: a run meets no access to an empty mirror exactly when each
  access comes inside a call entered since the VM was attached.
-/
namespace Sdb.L2

open Sdb.L1

section
variable {V : Type} (vm : VmAccess V)

/-! ## Prints -/

/-- The line of a frame as a print and a stack listing show it.
mirrors SquirrelDebugger.cpp:68-70, 797-800 -/
def shownLine (line : Int) : UInt32 :=
  if 0 < line ∧ line ≤ int32Max then UInt32.ofNat line.toNat else 0

/-- `back()` of an empty `currentStack` and a null file name are undefined; the
second component is what `HandleOutputLine` is called with.
mirrors SquirrelDebugger.cpp:789-811 -/
def squirrelPrintCallback (s : State V) (isErr : Bool) (str : Bytes) :
    State V × Option OutputLine :=
  if s.vmData.vm.isNone then (s, none)
  else
    match s.vmData.currentStack with
    | [] => ({ s with thread := .fault }, none)
    | stackInfo :: _ =>
      match stackInfo.fileNameHandle with
      | none => ({ s with thread := .fault }, none)
      | some handle =>
        let outputLine : OutputLine := {
          output := str
          isErr := isErr
          fileName := (s.pauseMutexData.breakpoints.fileNames[handle]?).getD []
          line := shownLine stackInfo.line }
        (s, if s.eventInterface then some outputLine else none)

/-! ## The debugger with its host -/

/-- A step of the pause mechanism, or a print with what the event interface got. -/
inductive HostLbl (V : Type) where
  | debugger (l : Lbl V)
  | print (isErr : Bool) (str : Bytes) (outputLine : Option OutputLine)

def hostStep (s : State V) : HostLbl V → Option (State V)
  | .debugger l => stepLbl vm s l
  | .print isErr str outputLine =>
    if s.thread = .script ∧ (squirrelPrintCallback s isErr str).2 = outputLine then
      some (squirrelPrintCallback s isErr str).1
    else none

def host : LTS (State V) (HostLbl V) :=
  LTS.ofStep (fun s => ∃ e v, s = fresh e v) (hostStep vm)

/-- The calls of the script as the events show them. -/
structure Calls where
  /-- The open calls. -/
  depth : Nat := 0
  /-- Those that were open when the VM was attached. -/
  base : Nat := 0
  /-- Call events that a detach overtook in the hook. -/
  leftover : Nat := 0

/-- The event in the hook is over. -/
def Calls.finish (s : State V) (g : Calls) : Calls :=
  match s.thread with
  | .entered (.c _ _) =>
    if s.vmData.vm.isNone then
      { g with depth := g.depth + 1, leftover := g.leftover + 1 }
    else { g with depth := g.depth + 1 }
  | .entered .r => { g with depth := g.depth - 1 }
  | _ => g

def Calls.observe (s : State V) : HostLbl V → Calls → Calls
  | .print _ _ _, g => g
  | .debugger l, g =>
    match l.act with
    | .addVm _ => if s.vmData.vm.isNone then { g with base := g.depth } else g
    | .detachVmLocked => { g with leftover := 0 }
    | .hook (.c _ _) => if s.vmData.vm.isNone then { g with depth := g.depth + 1 } else g
    | .hook .r => if s.vmData.vm.isNone then { g with depth := g.depth - 1 } else g
    | .hookNext _ => g.finish s
    | _ => g

/-- Returns and lines come inside a call. -/
def Nested (p : State V × Calls) : HostLbl V → Prop
  | .debugger ⟨.hook .r, _⟩ | .debugger ⟨.hook (.l _), _⟩ => 0 < p.2.depth
  | _ => True

def hosted : LTS (State V × Calls) (HostLbl V) :=
  ((host vm).track {} Calls.observe).restrict Nested

/-! ## The condition -/

/-- Some open call was entered since the VM was attached. Between two attachments
there is only what a detach left. -/
def Recorded (p : State V × Calls) : Prop :=
  if p.1.vmData.vm.isSome then p.2.base < p.2.depth + p.2.leftover else 0 < p.2.leftover

/-- Where the debugger pops the mirror or reads its last frame, such a call is open. -/
def Inside (p : State V × Calls) : HostLbl V → Prop
  | .print _ _ _ => p.1.vmData.vm.isSome → Recorded p
  | .debugger ⟨.hookNext _, _⟩ =>
    p.1.thread = .entered .r ∨ (∃ line, p.1.thread = .entered (.l line)) → Recorded p
  | _ => True

/-- The mirror holds the calls entered since the VM was attached. -/
structure Mirrors (p : State V × Calls) : Prop where
  attached : p.1.vmData.vm.isSome →
    p.1.vmData.currentStack.length + p.2.base = p.2.depth + p.2.leftover
  detached : p.1.vmData.vm = none → p.1.vmData.currentStack.length = p.2.leftover
  returns : p.1.thread = .entered .r →
    0 < p.2.depth ∧ (p.1.vmData.vm = none → p.2.leftover = 0)
  frames : ∀ frame ∈ p.1.vmData.currentStack, frame.fileNameHandle ≠ none
  cache : ∀ addr handle, p.1.vmData.fileNameHandles addr = some handle → handle ≠ none
  running : p.1.thread ≠ .fault

variable {vm} {p p' : State V × Calls}

theorem Mirrors.recorded_iff (hm : Mirrors p) : Recorded p ↔ p.1.vmData.currentStack ≠ [] := by
  have hlen : p.1.vmData.currentStack ≠ [] ↔ 0 < p.1.vmData.currentStack.length :=
    List.length_pos_iff.symm
  rw [hlen]
  unfold Recorded
  cases hvm : p.1.vmData.vm with
  | none =>
    have hlength := hm.detached hvm
    simp only [Option.isSome_none, Bool.false_eq_true, if_false]
    omega
  | some handle =>
    have hlength := hm.attached (by simp [hvm])
    simp only [Option.isSome_some, if_true]
    omega

/-! ## One step -/

theorem hosted_step {l : HostLbl V} :
    (hosted vm).step p l p' ↔ hostStep vm p.1 l = some p'.1 ∧
      p'.2 = Calls.observe p.1 l p.2 ∧ Nested p l := by
  constructor
  · intro h
    exact ⟨h.1.1, h.1.2, h.2⟩
  · intro h
    exact ⟨⟨h.1, h.2.1⟩, h.2.2⟩

theorem hosted_cons {s s' : State V} {g : Calls} {l : HostLbl V} {ls : List (HostLbl V)}
    (h : hostStep vm s l = some s') (hn : Nested (s, g) l)
    (hr : (hosted vm).Run (s', Calls.observe s l g) ls p) :
    (hosted vm).Run (s, g) (l :: ls) p := .cons (hosted_step.mpr ⟨h, rfl, hn⟩) hr

/-- A step that leaves the call stack alone, and does not come to a return event. -/
theorem Mirrors.of_thread {s s' : State V} {g : Calls} (hm : Mirrors (s, g))
    (hvm : s'.vmData = s.vmData)
    (hth : s'.thread = s.thread ∨ s'.thread ≠ .entered .r ∧ s'.thread ≠ .fault) :
    Mirrors (s', g) := by
  refine ⟨?_, ?_, ?_, ?_, ?_, ?_⟩
  · simp only [hvm]
    exact hm.attached
  · simp only [hvm]
    exact hm.detached
  · intro hr
    rcases hth with heq | ⟨hne, -⟩
    · simp only [hvm]
      exact hm.returns (by rw [← heq]; exact hr)
    · exact absurd hr hne
  · simp only [hvm]
    exact hm.frames
  · simp only [hvm]
    exact hm.cache
  · intro hf
    rcases hth with heq | ⟨-, hne⟩
    · exact hm.running (by rw [← heq]; exact hf)
    · exact hne hf

theorem ensureFileNameHandle_ne_none (strToLower : Bytes → Bytes) (m : BreakpointMap)
    (fileName : Bytes) : (m.ensureFileNameHandle strToLower fileName).2 ≠ none := by
  unfold BreakpointMap.ensureFileNameHandle
  split <;> simp

variable (vm) in
/-- The frame that is pushed has a file name. -/
theorem hookCall_frames {s : State V} (name : SourceName) (line : Int)
    (hframes : ∀ frame ∈ s.vmData.currentStack, frame.fileNameHandle ≠ none)
    (hcache : ∀ addr handle, s.vmData.fileNameHandles addr = some handle → handle ≠ none) :
    (∀ frame ∈ (hookCall vm s name line).vmData.currentStack, frame.fileNameHandle ≠ none) ∧
      ∀ addr handle, (hookCall vm s name line).vmData.fileNameHandles addr = some handle →
        handle ≠ none := by
  unfold hookCall
  split
  · rename_i handle hc
    refine ⟨fun frame hmem => ?_, hcache⟩
    rcases List.mem_cons.mp hmem with rfl | hmem
    · exact hcache _ _ hc
    · exact hframes frame hmem
  · have hne := ensureFileNameHandle_ne_none vm.strToLower s.pauseMutexData.breakpoints name.text
    refine ⟨fun frame hmem => ?_, fun addr handle hc => ?_⟩
    · rcases List.mem_cons.mp hmem with rfl | hmem
      · exact hne
      · exact hframes frame hmem
    · simp only at hc
      by_cases he : addr = name.addr
      · subst he
        rw [Function.update_self, Option.some.injEq] at hc
        rw [← hc]
        exact hne
      · rw [Function.update_of_ne he] at hc
        exact hcache addr handle hc

theorem mirrors_hookCall {s : State V} {g : Calls} {name : SourceName} {line : Int}
    (hm : Mirrors (s, g)) (ht : s.thread = .entered (.c name line)) :
    Mirrors (hookCall vm s name line, g.finish s) := by
  obtain ⟨-, -, -, hvm, ⟨handle, hstk⟩, hth⟩ := hookCall_control vm s name line
  obtain ⟨hframes, hcache⟩ := hookCall_frames vm name line hm.frames hm.cache
  refine ⟨?_, ?_, ?_, hframes, hcache, by simp [hth]⟩
  · intro hsome
    rw [hvm] at hsome
    have hlength := hm.attached hsome
    have hnone : s.vmData.vm.isNone = false := by simpa using hsome
    simp only [Calls.finish, ht, hstk, List.length_cons, hnone, Bool.false_eq_true, if_false]
    simp only at hlength
    omega
  · intro hnone
    rw [hvm] at hnone
    have hlength := hm.detached hnone
    simp only at hlength
    simp only [Calls.finish, ht, hstk, List.length_cons, hnone, Option.isNone_none, if_true]
    omega
  · intro hr
    rw [hth] at hr
    cases hr

/-- The innermost frame is removed. -/
theorem mirrors_pop {s : State V} {g : Calls} {head : StackInfo} {rest : List StackInfo}
    (hm : Mirrors (s, g)) (ht : s.thread = .entered .r)
    (hstk : s.vmData.currentStack = head :: rest) :
    Mirrors ({ s with vmData := { s.vmData with currentStack := rest }, thread := .returned },
      g.finish s) := by
  obtain ⟨hdepth, hleft⟩ := hm.returns ht
  simp only at hdepth hleft
  have hfinish : g.finish s = { g with depth := g.depth - 1 } := by simp [Calls.finish, ht]
  rw [hfinish]
  refine ⟨?_, ?_, fun hr => (by cases hr), ?_, hm.cache, by simp⟩
  · intro hsome
    have hlength := hm.attached hsome
    simp only [hstk, List.length_cons] at hlength
    simp only
    omega
  · intro hnone
    have hlength := hm.detached hnone
    simp only [hstk, List.length_cons] at hlength
    have hzero := hleft hnone
    omega
  · intro frame hmem
    apply hm.frames
    simp only [hstk]
    exact List.mem_cons_of_mem head hmem

theorem mirrors_hookNext {s s' : State V} {g : Calls} {throws : Bool} {res : Res}
    (hm : Mirrors (s, g)) (h : HookNext vm s throws s' res)
    (hin : s.thread = .entered .r ∨ (∃ line, s.thread = .entered (.l line)) → Recorded (s, g)) :
    Mirrors (s', g.finish s) := by
  cases h with
  | call ht => exact mirrors_hookCall hm ht
  | ret ht hstk => exact mirrors_pop hm ht hstk
  | @line line head rest ht hstk =>
    have hfinish : g.finish s = g := by simp [Calls.finish, ht]
    have hlength : (⟨head.fileNameHandle, line⟩ :: rest : List StackInfo).length =
        s.vmData.currentStack.length := by rw [hstk]; rfl
    rw [hfinish]
    refine ⟨?_, ?_, fun hr => (by cases hr), ?_, hm.cache, by simp⟩
    · intro hsome
      exact (congrArg (· + g.base) hlength).trans (hm.attached hsome)
    · intro hnone
      exact hlength.trans (hm.detached hnone)
    · intro frame hmem
      rcases List.mem_cons.mp hmem with rfl | hmem
      · exact hm.frames head (by simp [hstk])
      · exact hm.frames frame (by simp [hstk, hmem])
  | fault ht hstk => exact absurd hstk (hm.recorded_iff.mp (hin ht))
  | other ht =>
    have hfinish : g.finish s = g := by simp [Calls.finish, ht]
    rw [hfinish]
    exact hm.of_thread rfl (.inr (by simp))
  | called ht =>
    have hfinish : g.finish s = g := by simp [Calls.finish, ht]
    rw [hfinish, hookCalled_eq]
    refine hm.of_thread rfl (.inr ?_)
    rw [← hookCalled_eq]
    rcases hookCalled_thread s with e | e <;> simp [e]
  | counted ht =>
    have hfinish : g.finish s = g := by simp [Calls.finish, ht]
    rw [hfinish]
    exact hm.of_thread rfl (.inr (by simp [hookCounted]))
  | returned ht =>
    have hfinish : g.finish s = g := by simp [Calls.finish, ht]
    rw [hfinish, hookReturned_eq]
    exact hm.of_thread rfl (.inr (by simp))
  | @stops line handle ht hst =>
    have hfinish : g.finish s = g := by simp [Calls.finish, ht]
    obtain ⟨-, -, -, -, -, hvm, -⟩ := hookStop_stops vm throws hst
    rw [hfinish]
    refine hm.of_thread hvm (.inr ?_)
    rcases hookStop_thread vm s line handle throws with e | e <;> rw [e] <;> simp
  | runs ht _ =>
    have hfinish : g.finish s = g := by simp [Calls.finish, ht]
    rw [hfinish]
    exact hm.of_thread rfl (.inr (by simp))

theorem mirrors_addVm {s : State V} {g : Calls} (hm : Mirrors (s, g)) (handle : Nat) :
    Mirrors (addVm s handle, if s.vmData.vm.isNone then { g with base := g.depth } else g) := by
  refine ⟨fun _ => ?_, fun hnone => (by cases hnone), fun hr => ?_, hm.frames, hm.cache,
    hm.running⟩
  · cases hvm : s.vmData.vm with
    | none =>
      have hlength := hm.detached hvm
      simp only [Option.isNone_none, if_true, addVm]
      simp only at hlength
      omega
    | some other =>
      have hlength := hm.attached (by simp [hvm])
      simp only [Option.isNone_some, Bool.false_eq_true, if_false, addVm]
      exact hlength
  · obtain ⟨hdepth, -⟩ := hm.returns hr
    refine ⟨?_, fun hnone => (by cases hnone)⟩
    split
    · exact hdepth
    · exact hdepth

theorem mirrors_detachVmLocked {s : State V} {g : Calls} (hm : Mirrors (s, g)) :
    Mirrors (detachVmLocked s, { g with leftover := 0 }) := by
  obtain ⟨-, -, hvm⟩ := detachVmLocked_spec s
  have hthread := detachVmLocked_stays s
  refine ⟨?_, ?_, ?_, ?_, ?_, ?_⟩
  · intro hsome
    simp [hvm] at hsome
  · simp [hvm]
  · intro hr
    rcases hthread with heq | ⟨n, heq⟩
    · exact ⟨(hm.returns (by rw [← heq]; exact hr)).1, fun _ => rfl⟩
    · simp only at hr
      rw [heq] at hr
      cases hr
  · simp [hvm]
  · simp [hvm]
  · intro hf
    rcases hthread with heq | ⟨n, heq⟩
    · exact hm.running (by rw [← heq]; exact hf)
    · simp only at hf
      rw [heq] at hf
      cases hf

/-- A hook event that reaches no VM is counted and not recorded. -/
theorem mirrors_unattached {s : State V} {g : Calls} (hm : Mirrors (s, g))
    (hth : s.thread = .script) (hvm : s.vmData.vm = none) (depth : Nat) :
    Mirrors (s, { g with depth := depth }) := by
  refine ⟨fun hsome => ?_, hm.detached, fun hr => ?_, hm.frames, hm.cache, hm.running⟩
  · simp [hvm] at hsome
  · rw [hth] at hr
    cases hr

theorem mirrors_hook {s : State V} {g : Calls} {e : HookEvent} (hm : Mirrors (s, g))
    (hvm : s.vmData.vm.isSome) (hdepth : e = .r → 0 < g.depth) :
    Mirrors ({ s with thread := .entered e }, g) := by
  refine ⟨hm.attached, hm.detached, fun hr => ⟨hdepth ?_, fun hnone => ?_⟩, hm.frames, hm.cache,
    by simp⟩
  · simpa using hr
  · simp only at hnone
    rw [hnone] at hvm
    cases hvm

/-- A print reads the mirror and changes nothing. -/
theorem mirrors_print {s : State V} {g : Calls} (hm : Mirrors (s, g)) (isErr : Bool)
    (str : Bytes) (hin : s.vmData.vm.isSome → Recorded (s, g)) :
    (squirrelPrintCallback s isErr str).1 = s := by
  unfold squirrelPrintCallback
  split
  · rfl
  · rename_i hnone
    have hsome : s.vmData.vm.isSome := by
      cases hvm : s.vmData.vm with
      | none => simp [hvm] at hnone
      | some handle => rfl
    split
    · rename_i hempty
      exact absurd hempty (hm.recorded_iff.mp (hin hsome))
    · rename_i stackInfo rest hstk
      have hhandle := hm.frames stackInfo (by simp [hstk])
      split
      · rename_i hnull
        exact absurd hnull hhandle
      · rfl

theorem mirrors_exec {s s' : State V} {g : Calls} {l : Lbl V} (hm : Mirrors (s, g))
    (h : exec vm s l.act = some (s', l.res)) (hn : Nested (s, g) (.debugger l))
    (hin : Inside (s, g) (.debugger l)) : Mirrors (s', Calls.observe s (.debugger l) g) := by
  obtain ⟨a, res⟩ := l
  cases exec_inv vm h with
  | passive ha hf =>
    rcases passive_inv vm ha h with ⟨handle, rfl, rfl⟩ | ⟨file, bps, rfl, rfl⟩ | ⟨v, rfl⟩
    · exact mirrors_addVm hm handle
    · refine hm.of_thread ?_ (.inl hf.thread)
      rcases setFileBreakpoints_spec vm s file bps with ⟨-, heq, -⟩ | ⟨-, heq, -⟩ <;> rw [heq]
    · cases a with
      | addVm handle =>
        simp only [exec, Option.some.injEq, Prod.mk.injEq] at h
        rw [← h.1]
        exact mirrors_addVm hm handle
      | hook e => exact ha.elim
      | detachVmLocked => exact ha.elim
      | hookNext throws => exact ha.elim
      | _ => exact hm.of_thread rfl (.inl rfl)
  | detachVm =>
    refine hm.of_thread ?_ (.inl (detachVm_frame s).thread)
    unfold detachVm
    split <;> rfl
  | detachVmLocked => exact mirrors_detachVmLocked hm
  | pauseExecution =>
    obtain ⟨-, -, hvm, hth⟩ := pauseExecution_spec s
    exact hm.of_thread hvm (.inl hth)
  | @accepted c hc =>
    obtain ⟨-, hvm, hth⟩ := resume_frame s c
    refine hm.of_thread hvm ?_
    by_cases hw : ∃ n, s.thread = .waiting n
    · obtain ⟨n, hw⟩ := hw
      rw [resume_notifies hc hw]
      exact .inr (by simp)
    · exact .inl (hth fun n hn => hw ⟨n, hn⟩)
  | refused _ => exact hm
  | @unattached e ht hv =>
    have hvm : s.vmData.vm = none := by simpa using hv
    cases e with
    | c name line =>
      simp only [Calls.observe, hv, if_true]
      exact mirrors_unattached hm ht hvm _
    | r =>
      simp only [Calls.observe, hv, if_true]
      exact mirrors_unattached hm ht hvm _
    | _ => exact hm
  | @hook e ht hv =>
    have hnone : s.vmData.vm.isNone = false := by simpa using hv
    have hobserve : Calls.observe s (.debugger ⟨.hook e, .silent⟩) g = g := by
      cases e <;> simp [Calls.observe, hnone]
    rw [hobserve]
    refine mirrors_hook hm hv fun he => ?_
    rw [he] at hn
    exact hn
  | hookNext hnext => exact mirrors_hookNext hm hnext hin
  | wake ht => exact hm.of_thread rfl (.inr (by simp [wake]))

theorem mirrors_step {l : HostLbl V} (hm : Mirrors p) (hs : (hosted vm).step p l p')
    (hin : Inside p l) : Mirrors p' := by
  obtain ⟨s, g⟩ := p
  obtain ⟨s', g'⟩ := p'
  obtain ⟨hstep, hobserve, hnested⟩ := hosted_step.mp hs
  simp only at hstep hobserve
  subst hobserve
  cases l with
  | debugger l => exact mirrors_exec hm ((lts_step vm).mp hstep) hnested hin
  | print isErr str outputLine =>
    simp only [hostStep] at hstep
    split at hstep
    · rw [mirrors_print hm isErr str hin] at hstep
      obtain rfl := Option.some.inj hstep
      exact hm
    · cases hstep

/-- The access to an empty mirror. -/
theorem fault_of_outside {l : HostLbl V} (hm : Mirrors p) (hs : (hosted vm).step p l p')
    (hout : ¬ Inside p l) : p'.1.thread = .fault := by
  obtain ⟨s, g⟩ := p
  obtain ⟨s', g'⟩ := p'
  obtain ⟨hstep, -, -⟩ := hosted_step.mp hs
  cases l with
  | debugger l =>
    obtain ⟨a, res⟩ := l
    have hexec := (lts_step vm).mp hstep
    cases a with
    | hookNext throws =>
      simp only [Inside, not_forall] at hout
      obtain ⟨hth, hrec⟩ := hout
      have hempty : s.vmData.currentStack = [] := by
        by_contra hne
        exact hrec (hm.recorded_iff.mpr hne)
      cases hookNext_inv vm hexec with
      | fault _ _ => rfl
      | ret _ hstk => rw [hempty] at hstk; cases hstk
      | line _ hstk => rw [hempty] at hstk; cases hstk
      | call ht | other ht | called ht | counted ht | returned ht | stops ht _ | runs ht _ =>
        rcases hth with hth | ⟨line, hth⟩ <;> rw [ht] at hth <;> cases hth
    | _ => exact absurd trivial hout
  | print isErr str outputLine =>
    simp only [Inside, not_forall] at hout
    obtain ⟨hsome, hrec⟩ := hout
    have hempty : s.vmData.currentStack = [] := by
      by_contra hne
      exact hrec (hm.recorded_iff.mpr hne)
    have hnone : s.vmData.vm.isNone = false := by simpa using hsome
    simp only [hostStep] at hstep
    split at hstep
    · rw [← Option.some.inj hstep]
      simp [squirrelPrintCallback, hnone, hempty]
    · cases hstep

/-- Nothing leads on from such an access. -/
theorem fault_exec {s s' : State V} {a : Act V} {res : Res} (hf : s.thread = .fault)
    (h : exec vm s a = some (s', res)) : s'.thread = .fault := by
  cases exec_inv vm h with
  | passive ha hsame => rw [hsame.thread, hf]
  | detachVm => rw [(detachVm_frame s).thread, hf]
  | detachVmLocked =>
    rw [detachVmLocked_thread]
    split
    · exact hf
    · simp [notifyAll, hf]
  | pauseExecution => rw [(pauseExecution_spec s).2.2.2, hf]
  | accepted _ => rw [(resume_frame s _).2.2 (by simp [hf]), hf]
  | refused _ => exact hf
  | unattached ht _ => rw [hf] at ht; cases ht
  | hook ht _ => rw [hf] at ht; cases ht
  | hookNext hnext => simp [exec, hookNext, hf] at h
  | wake ht => rw [hf] at ht; cases ht

theorem fault_step {l : HostLbl V} (hf : p.1.thread = .fault) (hs : (hosted vm).step p l p') :
    p'.1.thread = .fault := by
  obtain ⟨hstep, -, -⟩ := hosted_step.mp hs
  cases l with
  | debugger l => exact fault_exec hf ((lts_step vm).mp hstep)
  | print isErr str outputLine => simp [hostStep, hf] at hstep

theorem hosted_functional : (hosted vm).Functional :=
  ((LTS.ofStep_functional _ _).track _ _).restrict _

theorem mirrors_fresh (eventInterface : Bool) (v : V) : Mirrors (fresh eventInterface v, {}) where
  attached := fun h => by cases h
  detached := fun _ => rfl
  returns := fun h => by cases h
  frames := fun _ h => by cases h
  cache := fun _ _ h => by cases h
  running := fun h => by cases h

/-- **The mirror is popped and read only while it holds a frame, exactly when each
such access comes inside a call entered since the VM was attached.** The thread of
the VM is at `fault` from the first access to an empty mirror on. -/
theorem faultless_iff {eventInterface : Bool} {v : V} {ls : List (HostLbl V)}
    (hr : (hosted vm).Run (fresh eventInterface v, {}) ls p) :
    p.1.thread ≠ .fault ↔ ∀ l₁ l l₂ q, ls = l₁ ++ l :: l₂ →
      (hosted vm).Run (fresh eventInterface v, {}) l₁ q → Inside q l :=
  hr.avoids_iff hosted_functional
    (fun _ _ _ hm hs hin => mirrors_step hm hs hin) (fun _ _ _ hm hs => fault_of_outside hm hs)
    (fun _ _ _ hf hs => fault_step hf hs) (fun _ hm => hm.running)
    (mirrors_fresh eventInterface v)

end

/-! ## An attach outside of any call, and one inside -/

def silent (a : Act Unit) : HostLbl Unit := .debugger ⟨a, .silent⟩

/-- A VM is attached, calls a function, and prints from it. -/
def printRun : List (HostLbl Unit) :=
  [silent (.addVm 1), silent (.hook (.c nameA 3)), silent (.hookNext false),
    silent (.hookNext false),
    .print false [104, 105] (some ⟨[104, 105], false, nameA.text, 3⟩)]

theorem faultless_printRun :
    ∃ p, (hosted idleVm).Run (fresh true (), {}) printRun p ∧
      ∀ l₁ l l₂ q, printRun = l₁ ++ l :: l₂ → (hosted idleVm).Run (fresh true (), {}) l₁ q →
        Inside q l := by
  have hrun : ∃ p, (hosted idleVm).Run (fresh true (), {}) printRun p ∧ p.1.thread = .script :=
    ⟨_, hosted_cons rfl trivial (hosted_cons rfl trivial (hosted_cons rfl trivial
      (hosted_cons rfl trivial (hosted_cons rfl trivial (.nil _))))), rfl⟩
  obtain ⟨p, hr, hth⟩ := hrun
  exact ⟨p, hr, (faultless_iff hr).mp (by simp [hth])⟩

/-- A VM that is attached inside a call returns from it. -/
def returnRun : List (HostLbl Unit) :=
  [silent (.hook (.c nameA 3)), silent (.addVm 1), silent (.hook .r), silent (.hookNext false)]

theorem returnRun_faults :
    ¬ ∀ ls p, (hosted idleVm).Run (fresh true (), {}) ls p → p.1.thread ≠ .fault := by
  intro hall
  have hrun : ∃ p, (hosted idleVm).Run (fresh true (), {}) returnRun p ∧ p.1.thread = .fault :=
    ⟨_, hosted_cons rfl trivial (hosted_cons rfl trivial (hosted_cons rfl Nat.one_pos
      (hosted_cons rfl trivial (.nil _)))), rfl⟩
  obtain ⟨p, hr, hth⟩ := hrun
  exact hall _ p hr hth

end Sdb.L2
