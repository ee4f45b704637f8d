import Sdb.L2Pause.Session

/-!
# The session is exact

`runs_as_session` says that the pause mechanism shows nothing a session does not. Here is
the converse: whatever a session does, some script and some breakpoints make the pause
mechanism show it. The script runs in one file. It starts with enough calls open that
`StepOut` always has a frame to return to, and stops at a breakpoint or on a line without
one.

* `stops_here`, `returns_here`: the two things such a script does;
* `ready_step`: they show any step of a session;
* `seen_iff_session`: what can be seen of the pause mechanism is exactly what the session
  does, with the stacks the VM can have.
-/
namespace Sdb.L2

open Sdb.L1

section
variable {V : Type} (vm : VmAccess V)

/-- Whatever it holds, the VM answers some watch. -/
def Answering : Prop :=
  ∀ v, ∃ stackFrame watch pagination, vm.parses watch = true ∧
    (vm.call v (.getImmediateValue stackFrame watch pagination)).isSome

/-- A stop has a stack the VM can have. -/
def SessionEvent.Shown : SessionEvent → Prop
  | .stops status => ∃ v, status.stack = vm.populateStack v
  | _ => True

/-- The file the script runs in. -/
def theFile : SourceName := ⟨0, []⟩

/-- The open frames are all in the file, whose name its address stands for. -/
structure InFile (s : State V) : Prop where
  frames : ∀ frame ∈ s.vmData.currentStack,
    Names vm s.pauseMutexData.breakpoints frame.fileNameHandle theFile.text
  cache : ∀ handle, s.vmData.fileNameHandles theFile.addr = some handle →
    Names vm s.pauseMutexData.breakpoints handle theFile.text

/-- Between two hook events or in a pause, in the state the session is in, with `n` frames open
or more, and at most one to return from. -/
structure Ready (n : ℕ) (s : State V) (t : Session) : Prop where
  session : s.session = t
  announced : Announced s
  attached : s.vmData.vm.isSome
  between : s.thread = .script ∨ ∃ m, s.thread = .waiting m
  counter : s.pauseRequested ≠ .none → s.pauseMutexData.returnsRequired ≤ 1
  inFile : InFile vm s
  depth : n ≤ s.vmData.currentStack.length
  eventInterface : s.eventInterface = true

variable {vm} {n : ℕ} {s s' : State V} {t t' : Session}

theorem orderly_step {a : Act V} {res : Res} (h : exec vm s a = some (s', res))
    (ha : a.Attended) (hw : a ≠ .wake) : (orderlyPauses vm).step s ⟨a, res⟩ s' :=
  ⟨(lts_step vm).mpr h, ha, fun he => absurd he hw⟩

theorem InFile.mono (hi : InFile vm s) (hvm : s'.vmData = s.vmData)
    (hp : s.pauseMutexData.breakpoints.fileNames <+: s'.pauseMutexData.breakpoints.fileNames) :
    InFile vm s' where
  frames := by
    rw [hvm]
    exact fun frame hframe => (hi.frames frame hframe).mono vm hp
  cache := by
    rw [hvm]
    exact fun handle hcache => (hi.cache handle hcache).mono vm hp

theorem InFile.hookCall (hi : InFile vm s) (hn : Numbered s.pauseMutexData.breakpoints)
    (line : Int) : InFile vm (hookCall vm s theFile line) := by
  obtain ⟨latest, hm, -⟩ := hn
  unfold L2.hookCall
  split
  · rename_i handle hcache
    refine ⟨fun frame hframe => ?_, hi.cache⟩
    rcases List.mem_cons.mp hframe with rfl | hframe
    · exact hi.cache handle hcache
    · exact hi.frames frame hframe
  · obtain ⟨-, hnew, hp⟩ := hm.ensure vm theFile.text
    refine ⟨fun frame hframe => ?_, fun handle hcache => ?_⟩
    · rcases List.mem_cons.mp hframe with rfl | hframe
      · exact hnew
      · exact (hi.frames frame hframe).mono vm hp
    · simp only [Function.update_self, Option.some.injEq] at hcache
      exact hcache ▸ hnew

/-- A state with the same frames and breakpoints. -/
theorem Ready.keep (hr : Ready vm (n + 1) s t) (ha : Announced s') (hs : s'.session = t')
    (hvm : s'.vmData = s.vmData)
    (hb : s'.pauseMutexData.breakpoints = s.pauseMutexData.breakpoints)
    (he : s'.eventInterface = s.eventInterface)
    (ht : s'.thread = .script ∨ ∃ m, s'.thread = .waiting m)
    (hc : s'.pauseRequested ≠ .none → s'.pauseMutexData.returnsRequired ≤ 1) :
    Ready vm n s' t' where
  session := hs
  announced := ha
  attached := hvm ▸ hr.attached
  between := ht
  counter := hc
  inFile := hr.inFile.mono hvm (hb ▸ List.prefix_refl _)
  depth := by
    have hdepth := hr.depth
    rw [hvm]
    omega
  eventInterface := he.trans hr.eventInterface

/-- The script runs when the session does. -/
theorem Ready.running (hr : Ready vm n s t) (hp : t.phase = .running) : s.thread = .script := by
  rcases hr.between with h | ⟨m, h⟩
  · exact h
  · have hs := hr.session
    rw [session_waiting h] at hs
    subst hs
    cases m <;> simp at hp

theorem Ready.released (hr : Ready vm n s t) {status : Status} (hp : t.phase = .released status) :
    s.thread = .waiting true := by
  have hs := hr.session
  rcases hr.between with h | ⟨m, h⟩
  · rw [session_running (by simp [h])] at hs
    subst hs
    simp at hp
  · rw [session_waiting h] at hs
    subst hs
    cases m with
    | true => exact h
    | false => simp at hp

/-! ## What the script does -/

/-- The script reaches a line of its innermost call, and stops there. -/
theorem stops_here (hr : Ready vm n s t) (ht : s.thread = .script) (v : V) (line : Int)
    {head : StackInfo} {rest : List StackInfo} (hstk : s.vmData.currentStack = head :: rest)
    (hst : Stops s line head.fileNameHandle) :
    ∃ ls s', (orderlyPauses vm).Run s ls s' ∧
      ls.filterMap Lbl.seen = [.stops {
        runState := .paused
        stack := vm.populateStack v
        pausedAtBreakpointId :=
          (lineBreakpoint s.pauseMutexData.breakpoints line head.fileNameHandle).2.id }] ∧
      Ready vm n s' {
        phase := .held {
          runState := .paused
          stack := vm.populateStack v
          pausedAtBreakpointId :=
            (lineBreakpoint s.pauseMutexData.breakpoints line head.fileNameHandle).2.id }
        request :=
          if (lineBreakpoint s.pauseMutexData.breakpoints line head.fileNameHandle).1 then .pause
          else s.pauseRequested } := by
  let s₁ : State V := { s with script := v }
  let s₂ : State V := { s₁ with thread := .entered (.l line) }
  let s₃ : State V := { s₂ with
    vmData := { s.vmData with currentStack := { head with line := line } :: rest }
    thread := .stopping line head.fileNameHandle }
  let s₄ : State V := (hookStop vm s₃ line head.fileNameHandle false).1
  have hst₃ : Stops s₃ line head.fileNameHandle := hst
  obtain ⟨hres, -, -, hc, hb, hvm, hth⟩ := hookStop_stops vm false hst₃
  have h₁ : exec vm s (.script v) = some (s₁, .silent) := by simp [exec, ht, s₁]
  have h₂ : exec vm s₁ (.hook (.l line)) = some (s₂, .silent) := by
    have hvm := hr.attached
    simp [exec, hookEntry, ht, s₁, s₂, Option.isSome_iff_ne_none.mp hvm]
  have h₃ : exec vm s₂ (.hookNext false) = some (s₃, .silent) := by
    have hline : hookLine s₂ line = s₃ := hookLine_nonempty line hstk
    simp [exec, hookNext, s₂, ← hline]
  have h₄ : exec vm s₃ (.hookNext false) =
      some (s₄, .paused (pauseStatus vm s₃ line head.fileNameHandle)) := by
    rw [← hres]
    simp [exec, hookNext, s₃, s₄]
  have hattended : (Act.hookNext false : Act V).Attended := ⟨rfl, by simp⟩
  have hrun : (orderlyPauses vm).Run s [⟨.script v, .silent⟩, ⟨.hook (.l line), .silent⟩,
      ⟨.hookNext false, .silent⟩,
      ⟨.hookNext false, .paused (pauseStatus vm s₃ line head.fileNameHandle)⟩] s₄ :=
    .cons (orderly_step h₁ ⟨trivial, by simp⟩ (by simp))
      (.cons (orderly_step h₂ ⟨trivial, by simp⟩ (by simp))
        (.cons (orderly_step h₃ hattended (by simp))
          (.single (orderly_step h₄ hattended (by simp)))))
  refine ⟨_, s₄, hrun, rfl, ?_⟩
  exact {
    session := by
      rw [session_waiting (hth rfl), hookStop_status vm false hst₃, hookStop_pauseRequested]
      rfl
    announced := (orderlyPauses_inductive vm).run hrun hr.announced
    attached := by
      rw [hvm]
      exact hr.attached
    between := .inr ⟨false, hth rfl⟩
    counter := fun _ => Int.le_trans hc (by decide)
    inFile := by
      refine ⟨?_, ?_⟩
      · rw [hvm, hb]
        intro frame hframe
        have hframes := hr.inFile.frames
        rw [hstk] at hframes
        rcases List.mem_cons.mp hframe with rfl | hframe
        · exact hframes head List.mem_cons_self
        · exact hframes frame (List.mem_cons_of_mem _ hframe)
      · rw [hvm, hb]
        exact hr.inFile.cache
    depth := by
      have hdepth := hr.depth
      rw [hstk] at hdepth
      rw [hvm]
      exact hdepth
    eventInterface := by
      have he : s₄.eventInterface = s₃.eventInterface := by
        simp only [s₄]
        unfold hookStop
        dsimp only
        repeat' split
        all_goals rfl
      rw [he]
      exact hr.eventInterface }

/-- The script returns from its innermost call. -/
theorem returns_here (hr : Ready vm (n + 1) s t) (ht : s.thread = .script)
    (hq : s.pauseRequested ≠ .none) :
    ∃ ls s', (orderlyPauses vm).Run s ls s' ∧ ls.filterMap Lbl.seen = [] ∧ Ready vm n s' t ∧
      s'.thread = .script ∧ s'.pauseRequested = s.pauseRequested ∧
      s'.pauseMutexData.returnsRequired ≤ 0 := by
  have hdepth := hr.depth
  cases hstk : s.vmData.currentStack with
  | nil => simp [hstk] at hdepth
  | cons head rest =>
    let s₁ : State V := { s with thread := .entered .r }
    let s₂ : State V := { s₁ with
      vmData := { s.vmData with currentStack := rest }, thread := .returned }
    let s₃ : State V := { s₂ with
      pauseMutexData := { s.pauseMutexData with
        returnsRequired := s.pauseMutexData.returnsRequired - 1 }
      thread := .script }
    have h₁ : exec vm s (.hook .r) = some (s₁, .silent) := by
      have hvm := hr.attached
      simp [exec, hookEntry, ht, s₁, Option.isSome_iff_ne_none.mp hvm]
    have h₂ : exec vm s₁ (.hookNext false) = some (s₂, .silent) := by
      have hreturn : hookReturn s₁ = s₂ := hookReturn_nonempty hstk
      simp [exec, hookNext, s₁, ← hreturn]
    have h₃ : exec vm s₂ (.hookNext false) = some (s₃, .silent) := by
      simp [exec, hookNext, hookReturned, s₁, s₂, s₃, hq]
    have hattended : (Act.hookNext false : Act V).Attended := ⟨rfl, by simp⟩
    have hrun : (orderlyPauses vm).Run s [⟨.hook .r, .silent⟩, ⟨.hookNext false, .silent⟩,
        ⟨.hookNext false, .silent⟩] s₃ :=
      .cons (orderly_step h₁ ⟨trivial, by simp⟩ (by simp))
        (.cons (orderly_step h₂ hattended (by simp))
          (.single (orderly_step h₃ hattended (by simp))))
    have hcounter := hr.counter hq
    refine ⟨_, s₃, hrun, rfl, ?_, rfl, rfl, ?_⟩
    · exact {
        session := by
          rw [← hr.session, session_running (by simp [s₃]), session_running (by simp [ht])]
        announced := (orderlyPauses_inductive vm).run hrun hr.announced
        attached := hr.attached
        between := .inl rfl
        counter := fun _ => by
          simp only [s₃]
          omega
        inFile := by
          refine ⟨fun frame hframe => hr.inFile.frames frame ?_, hr.inFile.cache⟩
          rw [hstk]
          exact List.mem_cons_of_mem _ hframe
        depth := by
          rw [hstk, List.length_cons] at hdepth
          exact Nat.le_of_succ_le_succ hdepth
        eventInterface := hr.eventInterface }
    · simp only [s₃]
      omega

/-- A client sets a breakpoint on the first line of the file, and no other. -/
theorem sets_here (hr : Ready vm n s t) {id : UInt64} (hid : id ≠ 0) :
    ∃ l s', (orderlyPauses vm).step s l s' ∧ l.seen = none ∧ Ready vm n s' t ∧
      s'.thread = s.thread ∧ s'.vmData = s.vmData ∧
      ∀ frame ∈ s.vmData.currentStack,
        lineBreakpoint s'.pauseMutexData.breakpoints 1 frame.fileNameHandle = (true, ⟨id, 1⟩) := by
  obtain ⟨latest, hm, -⟩ := hr.announced.numbered
  obtain ⟨hm', hpre⟩ := hm.replace vm theFile.text [⟨id, 1⟩]
  rcases setFileBreakpoints_spec vm s theFile.text [⟨id, 1⟩] with ⟨hzero, -, -⟩ | ⟨-, hs, hcode⟩
  · simp [hid] at hzero
  · let m := replaceBreakpoints vm s.pauseMutexData.breakpoints theFile.text
      ([⟨id, 1⟩].map toBreakpoint)
    let s' : State V := { s with pauseMutexData := { s.pauseMutexData with breakpoints := m } }
    have h : exec vm s (.setFileBreakpoints theFile.text [⟨id, 1⟩]) = some (s', .rc .success) := by
      simp only [exec, hs, hcode]
      rfl
    have hin : InFile vm s' := hr.inFile.mono rfl hpre
    have ha : (Act.setFileBreakpoints theFile.text [⟨id, 1⟩] : Act V).Attended := ⟨trivial, by simp⟩
    refine ⟨_, s', orderly_step h ha (by simp), rfl, ?_, rfl, rfl, fun frame hframe => ?_⟩
    · exact {
        session := hr.session
        announced := announced_step vm hr.announced h ha
        attached := hr.attached
        between := hr.between
        counter := hr.counter
        inFile := hin
        depth := hr.depth
        eventInterface := hr.eventInterface }
    · show lineBreakpoint m 1 _ = _
      rw [lineBreakpoint_latest vm hm' (hin.frames frame hframe) (by decide) (by decide),
        Function.update_self]
      rfl

/-- Below the first line there is no breakpoint. -/
theorem lineBreakpoint_negative (m : BreakpointMap) (handle : FileNameHandle) :
    lineBreakpoint m (-1) handle = (false, {}) := rfl

/-- A script that may stop with a status does so. -/
theorem ready_stops (hr : Ready vm (n + 2) s t) {status : Status} {request : PauseType}
    (hst : t.StopsWith status request) (hv : ∃ v, status.stack = vm.populateStack v) :
    ∃ ls s', (orderlyPauses vm).Run s ls s' ∧ ls.filterMap Lbl.seen = [.stops status] ∧
      Ready vm (n + 1) s' { phase := .held status, request := request } := by
  obtain ⟨hp, hstate, hq, hwith⟩ := hst
  obtain ⟨v, hv⟩ := hv
  obtain ⟨runState, stack, id⟩ := status
  dsimp only at hstate hv hwith
  subst hstate hv
  have ht := hr.running hp
  have hrequest : t.request = s.pauseRequested := by
    rw [← hr.session]
    rfl
  have hless : Ready vm (n + 1) s t := { hr with depth := Nat.le_of_succ_le hr.depth }
  rcases hwith with ⟨rfl, hid⟩ | ⟨rfl, rfl⟩
  · obtain ⟨l, u, hs, hseen, hu, hthread, hvm, hline⟩ := sets_here hless hid
    cases hstk : s.vmData.currentStack with
    | nil => simpa [hstk] using hr.depth
    | cons head rest =>
      have hfound := hline head (hstk ▸ List.mem_cons_self)
      obtain ⟨ls, s', hrun, hls, hready⟩ := stops_here hu (hthread.trans ht) v 1
        ((congrArg VmData.currentStack hvm).trans hstk) (.inl (by simp [BreakpointAt, hfound]))
      simp only [hfound, if_true] at hls hready
      exact ⟨l :: ls, s', .cons hs hrun, by rw [List.filterMap_cons_none hseen, hls], hready⟩
  · have hstops : ∃ ls u, (orderlyPauses vm).Run s ls u ∧ ls.filterMap Lbl.seen = [] ∧
        Ready vm (n + 1) u t ∧ u.thread = .script ∧ u.pauseRequested = s.pauseRequested ∧
        u.pauseMutexData.returnsRequired ≤ 0 := by
      by_cases hc : s.pauseMutexData.returnsRequired ≤ 0
      · exact ⟨[], s, .nil s, rfl, hless, ht, rfl, hc⟩
      · exact returns_here hr ht (hrequest ▸ hq)
    obtain ⟨l₁, u, h₁, hseen, hu, hthread, hsame, hc⟩ := hstops
    cases hstk : u.vmData.currentStack with
    | nil => simpa [hstk] using hu.depth
    | cons head rest =>
      obtain ⟨l₂, s', h₂, hls, hready⟩ := stops_here hu hthread v (-1) hstk
        (.inr ⟨hsame ▸ hrequest ▸ hq, hc⟩)
      simp only [lineBreakpoint_negative, Bool.false_eq_true, if_false, hsame,
        ← hrequest] at hls hready
      exact ⟨l₁ ++ l₂, s', h₁.append h₂, by rw [List.filterMap_append, hseen, hls]; rfl, hready⟩

/-! ## What the clients do -/

theorem ready_pause (hr : Ready vm (n + 1) s t) :
    ∃ l s', (orderlyPauses vm).step s l s' ∧ l.seen = some .pause ∧
      Ready vm n s' { t with request := if t.request = .none then .pause else t.request } := by
  have h : exec vm s .pauseExecution = some ((pauseExecution s).1, .rc .success) := by
    simp [exec]
  have ha : (Act.pauseExecution : Act V).Attended := ⟨trivial, by simp⟩
  obtain ⟨-, -, hvm, hth⟩ := pauseExecution_spec s
  refine ⟨_, _, orderly_step h ha (by simp), rfl,
    hr.keep (announced_step vm hr.announced h ha) ?_ hvm ?_ ?_ (hth ▸ hr.between) ?_⟩
  · rw [session_pauseExecution, hr.session]
  · unfold pauseExecution
    split <;> rfl
  · unfold pauseExecution
    split <;> rfl
  · by_cases hq : s.pauseRequested = .none
    · rw [pauseExecution_idle hq]
      intro _
      show (-1 : Int) ≤ 1
      decide
    · rw [pauseExecution_busy hq]
      exact hr.counter

theorem ready_accepted (hr : Ready vm (n + 1) s t) {c : Resume} (hc : t.Accepts c) :
    ∃ l s', (orderlyPauses vm).step s l s' ∧ l.seen = some (.resume c .success) ∧
      Ready vm n s' { phase := t.phase.release, request := c.pauseType } := by
  have hacc : Accepts s c := (hr.announced.accepts_iff c).mp (hr.session ▸ hc)
  have h : exec vm s (.resume c) = some ((resume s c).1, .rc .success) := by
    simp [exec, resume_success_iff.mpr hacc]
  have ha : (Act.resume c : Act V).Attended := ⟨trivial, by simp⟩
  obtain ⟨-, hvm, hth⟩ := resume_frame s c
  refine ⟨_, _, orderly_step h ha (by simp), rfl,
    hr.keep (announced_step vm hr.announced h ha) ?_ hvm ?_ ?_ ?_ ?_⟩
  · rw [session_resume hacc, hr.session]
  · rw [resume_accepted hacc]
    simp
  · rw [resume_accepted hacc]
    unfold notifyAll
    split <;> rfl
  · rcases hr.between with hs | ⟨m, hm⟩
    · exact .inl ((hth (by simp [hs])).trans hs)
    · rw [resume_notifies hacc hm]
      exact .inr ⟨true, rfl⟩
  · rw [resume_accepted hacc]
    cases c <;> simp [Resume.pauseType, Resume.counter]

/-- A data command that is not refused. -/
theorem ready_usedVm (hvm : Answering vm) (hr : Ready vm (n + 1) s t)
    (hp : ¬ t.phase.Running) :
    ∃ l s', (orderlyPauses vm).step s l s' ∧ l.seen = some .usedVm ∧ Ready vm n s' t := by
  obtain ⟨stackFrame, watch, pagination, hparses, hcall⟩ := hvm s.script
  obtain ⟨⟨v, code⟩, hcall⟩ := Option.isSome_iff_exists.mp hcall
  have hpaused : s.pauseMutexData.isPaused = true := by
    rw [← Bool.not_eq_false, ← hr.announced.running_iff, hr.session]
    exact hp
  have h : exec vm s (.data (.getImmediateValue stackFrame watch pagination)) =
      some ({ s with script := v }, .usedVm code) := by
    simp [exec, dataCommand, refused, hparses, hpaused, hcall]
  have ha : (Act.data (.getImmediateValue stackFrame watch pagination) : Act V).Attended :=
    ⟨trivial, by simp⟩
  exact ⟨_, _, orderly_step h ha (by simp), rfl,
    hr.keep (announced_step vm hr.announced h ha) hr.session rfl rfl rfl hr.between hr.counter⟩

/-- A command that leaves the state as it is. -/
theorem ready_same (hr : Ready vm (n + 1) s t) {a : Act V} {res : Res} {e : SessionEvent}
    (h : exec vm s a = some (s, res)) (ha : a.Attended) (hw : a ≠ .wake)
    (he : Lbl.seen (⟨a, res⟩ : Lbl V) = some e) :
    ∃ l s', (orderlyPauses vm).step s l s' ∧ l.seen = some e ∧ Ready vm n s' t :=
  ⟨_, _, orderly_step h ha hw, he,
    hr.keep hr.announced hr.session rfl rfl rfl hr.between hr.counter⟩

theorem ready_goes (hr : Ready vm (n + 1) s t) {status : Status}
    (hp : t.phase = .released status) :
    ∃ l s', (orderlyPauses vm).step s l s' ∧ l.seen = some .goes ∧
      Ready vm n s' { t with phase := .running } := by
  have ht := hr.released hp
  have h : exec vm s .wake = some (wake s, .silent) := by simp [exec, ht]
  have ha : (Act.wake : Act V).Attended := ⟨trivial, by simp⟩
  refine ⟨⟨.wake, .silent⟩, _, ⟨(lts_step vm).mpr h, ha, fun _ => ht⟩, rfl,
    hr.keep (announced_step vm hr.announced h ha) ?_ rfl rfl rfl (.inl rfl) hr.counter⟩
  rw [session_running (by simp [wake]), ← hr.session]
  rfl

/-! ## A script for a session -/

/-- The next call. -/
theorem calls_here (hr : Ready vm n s t) (ht : s.thread = .script)
    (hq : s.pauseRequested = .none) :
    ∃ ls s', (orderlyPauses vm).Run s ls s' ∧ ls.filterMap Lbl.seen = [] ∧
      Ready vm (n + 1) s' t ∧ s'.thread = .script ∧ s'.pauseRequested = .none := by
  let s₁ : State V := { s with thread := .entered (.c theFile 1) }
  let s₂ : State V := hookCall vm s₁ theFile 1
  let s₃ : State V := { s₂ with thread := .script }
  obtain ⟨hq₂, -, -, hvm₂, ⟨handle, hstk₂⟩, hth₂⟩ := hookCall_control vm s₁ theFile 1
  have he₂ : s₂.eventInterface = s.eventInterface := by
    simp only [s₂]
    unfold hookCall
    split <;> rfl
  have h₁ : exec vm s (.hook (.c theFile 1)) = some (s₁, .silent) := by
    have hvm := hr.attached
    simp [exec, hookEntry, ht, s₁, Option.isSome_iff_ne_none.mp hvm]
  have h₂ : exec vm s₁ (.hookNext false) = some (s₂, .silent) := rfl
  have h₃ : exec vm s₂ (.hookNext false) = some (s₃, .silent) := by
    have hnone : s₂.pauseRequested = .none := hq₂.trans hq
    have hthread : s₂.thread = .called := hth₂
    simp [exec, hookNext, hthread, hookCalled, hnone, s₃]
  have hattended : (Act.hookNext false : Act V).Attended := ⟨rfl, by simp⟩
  have hrun : (orderlyPauses vm).Run s [⟨.hook (.c theFile 1), .silent⟩,
      ⟨.hookNext false, .silent⟩, ⟨.hookNext false, .silent⟩] s₃ :=
    .cons (orderly_step h₁ ⟨trivial, by simp⟩ (by simp))
      (.cons (orderly_step h₂ hattended (by simp))
        (.single (orderly_step h₃ hattended (by simp))))
  refine ⟨_, s₃, hrun, rfl, ?_, rfl, hq₂.trans hq⟩
  have hin₁ : InFile vm s₁ := hr.inFile.mono rfl (List.prefix_refl _)
  have hin₂ : InFile vm s₂ := hin₁.hookCall hr.announced.numbered 1
  exact {
    session := by
      rw [← hr.session, session_running (by simp [s₃]), session_running (by simp [ht])]
      exact congrArg (Session.mk .running) hq₂
    announced := (orderlyPauses_inductive vm).run hrun hr.announced
    attached := by
      show s₂.vmData.vm.isSome
      rw [hvm₂]
      exact hr.attached
    between := .inl rfl
    counter := fun hne => absurd (hq₂.trans hq) hne
    inFile := ⟨hin₂.frames, hin₂.cache⟩
    depth := by
      show n + 1 ≤ s₂.vmData.currentStack.length
      rw [hstk₂]
      exact Nat.succ_le_succ hr.depth
    eventInterface := he₂.trans hr.eventInterface }

/-- The first calls. -/
theorem ready_start (vm : VmAccess V) (n : ℕ) (v : V) :
    ∃ ls s, (orderlyPauses vm).Run (fresh true v) ls s ∧ ls.filterMap Lbl.seen = [] ∧
      Ready vm n s {} ∧ s.thread = .script ∧ s.pauseRequested = .none := by
  induction n with
  | zero =>
    have h : exec vm (fresh true v) (.addVm 0) = some (addVm (fresh true v) 0, .silent) := rfl
    have hinit := (orderlyPauses_inductive vm).init (fresh true v) ⟨true, v, rfl⟩
    refine ⟨_, _, .single (orderly_step h ⟨trivial, by simp⟩ (by simp)), rfl, ?_, rfl, rfl⟩
    exact {
      session := rfl
      announced := announced_step vm hinit h ⟨trivial, by simp⟩
      attached := rfl
      between := .inl rfl
      counter := fun hne => absurd rfl hne
      inFile := ⟨by simp [addVm, fresh], by simp [addVm, fresh]⟩
      depth := Nat.zero_le _
      eventInterface := rfl }
  | succ n ih =>
    obtain ⟨l₁, s, h₁, hseen₁, hr, ht, hq⟩ := ih
    obtain ⟨l₂, s', h₂, hseen₂, hr', ht', hq'⟩ := calls_here hr ht hq
    refine ⟨l₁ ++ l₂, s', h₁.append h₂, ?_, hr', ht', hq'⟩
    rw [List.filterMap_append, hseen₁, hseen₂]
    rfl

theorem ready_step (hvm : Answering vm) :
    (orderlyPauses vm).Realizes session Lbl.seen (SessionEvent.Shown vm)
      fun n => Ready vm (n + 1) := by
  intro n s t e t' hr hstep hshown
  have hsingle : (∃ l s', (orderlyPauses vm).step s l s' ∧ l.seen = some e ∧
      Ready vm (n + 1) s' t') → ∃ ls s', (orderlyPauses vm).Run s ls s' ∧
        ls.filterMap Lbl.seen = [e] ∧ Ready vm (n + 1) s' t' := by
    intro h
    obtain ⟨l, s', hs, hseen, hr'⟩ := h
    exact ⟨[l], s', .single hs, List.filterMap_cons_some hseen, hr'⟩
  cases hstep with
  | pause => exact hsingle (ready_pause hr)
  | accepted hc => exact hsingle (ready_accepted hr hc)
  | @refused c hc =>
    have hrefused : ¬ Accepts s c := fun hacc =>
      hc (hr.session ▸ (hr.announced.accepts_iff c).mpr hacc)
    have h : exec vm s (.resume c) = some (s, .rc .invalidNotPaused) := by
      simp [exec, resume_refused hrefused]
    exact hsingle (ready_same hr h ⟨trivial, by simp⟩ (by simp) rfl)
  | sent =>
    have h : exec vm s .sendStatus = some (s, .sent (currentStatus s)) := by
      simp [exec, sendStatus, hr.eventInterface]
    refine hsingle (ready_same hr h ⟨trivial, by simp⟩ (by simp) ?_)
    rw [← hr.announced.status_eq, hr.session]
    rfl
  | notPaused hp =>
    have hpaused : s.pauseMutexData.isPaused = false := by
      rw [← hr.announced.running_iff, hr.session]
      exact hp
    have h : exec vm s (.data (.getGlobalVariables [] ⟨0, 0⟩)) =
        some (s, .rc .invalidNotPaused) := by
      simp [exec, dataCommand, refused, hpaused]
    exact hsingle (ready_same hr h ⟨trivial, by simp⟩ (by simp) rfl)
  | usedVm hp => exact hsingle (ready_usedVm hvm hr hp)
  | stops hst => exact ready_stops hr hst hshown
  | goes hp => exact hsingle (ready_goes hr hp)

theorem seen_stops {l : Lbl V} {status : Status} (h : l.seen = some (.stops status)) :
    l.res = .paused status := by
  unfold Lbl.seen at h
  split at h <;> simp only [Option.some.injEq, SessionEvent.stops.injEq, reduceCtorEq] at h
  subst h
  assumption

/-- The stack of a stop is the VM's. -/
theorem shown_of_step {l : Lbl V} (h : (orderlyPauses vm).step s l s') {e : SessionEvent}
    (he : l.seen = some e) : e.Shown vm := by
  obtain ⟨a, res⟩ := l
  have hex := (lts_step vm).mp h.1
  cases e with
  | stops status =>
    obtain rfl : res = .paused status := seen_stops he
    obtain ⟨throws, rfl⟩ := paused_hookNext vm hex
    cases hookNext_inv vm hex with
    | stops _ _ => exact ⟨s.script, rfl⟩
  | _ => trivial

theorem seen_shown {ls : List (Lbl V)} (h : (orderlyPauses vm).Run s ls s') :
    ∀ e ∈ ls.filterMap Lbl.seen, e.Shown vm := by
  induction h with
  | nil => simp
  | @cons s u s' l ls hs _ ih =>
    cases hl : l.seen with
    | none =>
      rw [List.filterMap_cons_none hl]
      exact ih
    | some e =>
      rw [List.filterMap_cons_some hl]
      exact List.forall_mem_cons.mpr ⟨shown_of_step hs hl, ih⟩

/-! ## Main result -/

/-- **The session is exact.** Over all scripts and all interleavings, with a listener that
returns, no detach and no spurious wakeup, what is seen of the pause mechanism is just what
a session does whose stops have stacks of the VM. -/
theorem seen_iff_session (vm : VmAccess V) [Nonempty V] (hvm : Answering vm)
    {es : List SessionEvent} :
    (∃ s₀ ls s, (orderlyPauses vm).init s₀ ∧ (orderlyPauses vm).Run s₀ ls s ∧
        ls.filterMap Lbl.seen = es) ↔
      (∃ t, session.Run {} es t) ∧
        ∀ status, .stops status ∈ es → ∃ v, status.stack = vm.populateStack v := by
  constructor
  · intro h
    obtain ⟨s₀, ls, s, hi, hr, rfl⟩ := h
    have hrefines := debugger_refines_session vm
    have hrun := hrefines.run (hrefines.invariant.init s₀ hi) hr
    rw [hrefines.init s₀ hi] at hrun
    exact ⟨⟨_, hrun⟩, fun status hst => seen_shown hr _ hst⟩
  · intro h
    obtain ⟨⟨t, hr⟩, hstacks⟩ := h
    obtain ⟨v⟩ := ‹Nonempty V›
    obtain ⟨l₁, s, h₁, hseen₁, hready, -, -⟩ := ready_start vm (es.length + 1) v
    have hshown : ∀ e ∈ es, e.Shown vm := by
      intro e he
      cases e with
      | stops status => exact hstacks status he
      | _ => trivial
    obtain ⟨l₂, s', h₂, hseen₂, -⟩ := (ready_step hvm).run hr hshown (n := 0) (s := s)
      (by simpa using hready)
    refine ⟨_, l₁ ++ l₂, s', ⟨true, v, rfl⟩, h₁.append h₂, ?_⟩
    rw [List.filterMap_append, hseen₁, hseen₂]
    rfl

end

/-- A stop at breakpoint 7, a step out of its call, and on. -/
def outAndOn : List SessionEvent :=
  [.stops { pausedAtBreakpointId := 7 }, .resume .stepOut .success, .goes, .stops {},
    .resume .continueExecution .success, .goes, .resume .stepIn .invalidNotPaused]

theorem outAndOn_session : session.Run {} outAndOn {} := by
  have h₁ : ({} : Session).StopsWith { pausedAtBreakpointId := 7 } .pause :=
    ⟨rfl, rfl, by decide, .inl ⟨rfl, by decide⟩⟩
  have h₂ : ({ request := .stepOut } : Session).StopsWith {} .stepOut :=
    ⟨rfl, rfl, by decide, .inr ⟨rfl, rfl⟩⟩
  exact .cons (.stops h₁)
    (.cons (.accepted (c := .stepOut) (by simp [Session.Accepts, Phase.Running]))
      (.cons (.goes rfl)
        (.cons (.stops h₂)
          (.cons (.accepted (c := .continueExecution) (by simp [Session.Accepts]))
            (.cons (.goes rfl)
              (.single (.refused (by simp [Session.Accepts, Phase.Running]))))))))

theorem seen_iff_session_outAndOn : ∃ s₀ ls s, (orderlyPauses idleVm).init s₀ ∧
    (orderlyPauses idleVm).Run s₀ ls s ∧ ls.filterMap Lbl.seen = outAndOn := by
  have hvm : Answering idleVm := fun _ => ⟨0, [], ⟨0, 0⟩, rfl, rfl⟩
  refine (seen_iff_session idleVm hvm).mpr ⟨⟨_, outAndOn_session⟩, fun status hst => ⟨(), ?_⟩⟩
  simp only [outAndOn, List.mem_cons, SessionEvent.stops.injEq, reduceCtorEq, false_or,
    List.not_mem_nil, or_false] at hst
  rcases hst with rfl | rfl <;> rfl

end Sdb.L2
