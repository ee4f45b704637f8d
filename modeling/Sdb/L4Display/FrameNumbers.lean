import Sdb.L4Display.HeapOrder
import Sdb.L4Display.Runs
import Sdb.L2Pause.Mirror

/-!
# Frame numbers

A status numbers the frames of its stack as `sq_stackinfos` does (`populateStack`),
`sq_getlocal` numbers them the same way, and the range check of the commands uses the
size of `currentStack`, in which frames of native functions are missing.
`NumbersFrames` is what the VM does: `frames` are its frames from the top, there are
no locals past the last one, and no operation of a stopped VM adds or removes one.

* `status_frames`: while the VM waits, its frames are those of the last status;
* `frameNumbers_iff`: when a frame number is accepted and refused by the commands
  as the status has it.
-/
namespace Sdb.L4

open Sdb.L1 Sdb.L3 Sdb.Exec

/-- The fields of `SQStackInfos`. -/
structure SqStackInfos where
  source : Bytes
  line : Int
  funcname : Bytes
  deriving DecidableEq, Repr

/-- The loop of `PopulateStack`, from `stackIdx` on, over what `sq_stackinfos` gives.
mirrors SquirrelDebugger.cpp:64-74 -/
def populateStackLoop (frames : List SqStackInfos) : Nat → Nat → List StackEntry
  | 0, _ => []
  | n + 1, stackIdx =>
    match frames[stackIdx]? with
    | none => []
    | some si =>
      ⟨cstr si.source, L2.shownLine si.line, cstr si.funcname⟩ ::
        populateStackLoop frames n (stackIdx + 1)

/-- mirrors SquirrelDebugger.cpp:60-75 -/
def populateStack (frames : List SqStackInfos) : List StackEntry :=
  populateStackLoop frames (frames.length + 1) 0

theorem length_populateStackLoop (frames : List SqStackInfos) (n stackIdx : Nat) :
    (populateStackLoop frames n stackIdx).length = min n (frames.length - stackIdx) := by
  induction n generalizing stackIdx with
  | zero => simp [populateStackLoop]
  | succ n ih =>
    unfold populateStackLoop
    cases hf : frames[stackIdx]? with
    | none =>
      have hle : frames.length ≤ stackIdx := List.getElem?_eq_none_iff.mp hf
      simp
      omega
    | some si =>
      have hlt := (List.getElem?_eq_some_iff.mp hf).1
      simp only [List.length_cons, ih]
      omega

theorem length_populateStack (frames : List SqStackInfos) :
    (populateStack frames).length = frames.length := by
  unfold populateStack
  rw [length_populateStackLoop]
  omega

section
variable {H : Type} (api : SqApi H) (lib : CppLib) (fuel : Nat) (strToLower : Bytes → Bytes)
variable (frames : H → List SqStackInfos)

/-- The VM's frames, numbered from the top. -/
structure NumbersFrames : Prop where
  stackinfos : ∀ h level, api.stackinfos h level = decide (level < (frames h).length)
  getlocal : ∀ h level nSeq, (frames h).length ≤ level → api.getlocal h level nSeq = none
  nexti : ∀ h o iter, (frames (api.nexti h o iter).1).length = (frames h).length
  get : ∀ h o key, (frames (api.get h o key).1).length = (frames h).length
  set : ∀ h o key val, (frames (api.set h o key val).1).length = (frames h).length
  rawset : ∀ h t key val, (frames (api.rawset h t key val)).length = (frames h).length
  newtable : ∀ h, (frames (api.newtable h).1).length = (frames h).length

/-- The VM with its stack listing. -/
def listingAccess : L2.VmAccess (SqVm H) :=
  squirrelAccess api lib fuel strToLower fun s => populateStack (frames s.heap)

variable {api frames}

theorem NumbersFrames.heapOrder (hf : NumbersFrames api frames) :
    HeapOrder api fun h h' => (frames h').length = (frames h).length where
  refl _ := rfl
  trans _ _ _ h₁ h₂ := h₂.trans h₁
  advance := advance_heap (Q := fun h h' => (frames h').length = (frames h).length)
    (fun _ => rfl) hf.nexti
  get := hf.get
  set := hf.set
  rawset := hf.rawset
  newtable := hf.newtable

/-! ## The frames of a status -/

variable {lib fuel strToLower} {s s' : L2.State (SqVm H)}

/-- A data command keeps the frames of the VM. -/
theorem NumbersFrames.call (hf : NumbersFrames api frames) {v v' : SqVm H} {call : L2.DataCall}
    {code : Option ReturnCode}
    (h : (listingAccess api lib fuel strToLower frames).call v call = some (v', code)) :
    (frames v'.heap).length = (frames v.heap).length := by
  have hrenders : ReadOrder.Renders _ (renderer api lib fuel) := hf.heapOrder.renderer lib fuel
  have hturns := hf.heapOrder.dataCall lib hrenders fuel call v
  simp only [listingAccess, squirrelAccess] at h
  split at h
  · rename_i rc t hrun
    obtain rfl : t = v' := congrArg Prod.fst (Option.some.inj h)
    exact hturns.ok hrun
  · cases h
  · cases h
  · rename_i e t _ _ hrun
    obtain rfl : t = v' := congrArg Prod.fst (Option.some.inj h)
    exact hturns.error hrun

/-- While the VM thread waits, the status lists the frames the VM has. -/
def StatusFrames (frames : H → List SqStackInfos) (s : L2.State (SqVm H)) : Prop :=
  ∀ n, s.thread = .waiting n →
    s.pauseMutexData.status.stack.length = (frames s.script.heap).length

theorem StatusFrames.of_same (hs : StatusFrames frames s)
    (hth : ∀ n, s'.thread = .waiting n → ∃ m, s.thread = .waiting m)
    (hstatus : s'.pauseMutexData.status = s.pauseMutexData.status)
    (hscript : s'.script = s.script) : StatusFrames frames s' := by
  intro n hn
  obtain ⟨m, hm⟩ := hth n hn
  rw [hstatus, hscript]
  exact hs m hm

theorem statusFrames_of_running (hth : ∀ n, s.thread ≠ .waiting n) : StatusFrames frames s :=
  fun n hn => absurd hn (hth n)

/-- The hook lists the frames the VM has when it pauses. -/
theorem statusFrames_hookStop (line : Int) (handle : FileNameHandle) (throws : Bool) :
    StatusFrames frames
      (L2.hookStop (listingAccess api lib fuel strToLower frames) s line handle throws).1 := by
  intro n hn
  unfold L2.hookStop at hn ⊢
  dsimp only at hn ⊢
  have hlist := length_populateStack (frames s.script.heap)
  split at hn
  · rename_i hfound
    split at hn
    · rename_i hstop
      rw [if_pos hfound, if_pos hstop]
      exact hlist
    · cases hn
  · rename_i hfound
    split at hn
    · rename_i hstop
      rw [if_neg hfound, if_pos hstop]
      exact hlist
    · cases hn

theorem statusFrames_hookNext {throws : Bool} {res : L2.Res}
    (hn : L2.HookNext (listingAccess api lib fuel strToLower frames) s throws s' res) :
    StatusFrames frames s' := by
  cases hn with
  | @call name line ht =>
    obtain ⟨-, -, -, -, -, hth⟩ := L2.hookCall_control
      (listingAccess api lib fuel strToLower frames) s name line
    exact statusFrames_of_running (by simp [hth])
  | called ht => exact statusFrames_of_running (L2.hookCalled_running s)
  | counted ht => exact statusFrames_of_running (by simp [L2.hookCounted])
  | returned ht =>
    rw [L2.hookReturned_eq]
    exact statusFrames_of_running (by simp)
  | @stops line handle ht hst => exact statusFrames_hookStop line handle throws
  | _ => exact statusFrames_of_running (by simp)

theorem statusFrames_data (hf : NumbersFrames api frames) {call : L2.DataCall} {res : L2.Res}
    (hs : StatusFrames frames s)
    (h : L2.dataCommand (listingAccess api lib fuel strToLower frames) s call = some (s', res)) :
    StatusFrames frames s' := by
  unfold L2.dataCommand at h
  split at h
  · simp only [Option.some.injEq, Prod.mk.injEq] at h
    exact h.1 ▸ hs
  · simp only [Option.map_eq_some_iff] at h
    obtain ⟨⟨v, code⟩, hcall, h⟩ := h
    simp only [Prod.mk.injEq] at h
    rw [← h.1]
    intro n hn
    exact (hs n hn).trans (hf.call hcall).symm

theorem statusFrames_detachVmLocked (hs : StatusFrames frames s) :
    StatusFrames frames (L2.detachVmLocked s) := by
  refine hs.of_same (fun n hn => ?_) ?_ ?_
  · rw [L2.detachVmLocked_thread] at hn
    split at hn
    · exact ⟨n, hn⟩
    · unfold L2.notifyAll at hn
      split at hn
      · rename_i m hm
        exact ⟨m, hm⟩
      · exact ⟨n, hn⟩
  · by_cases hreq : s.pauseRequested = .none
    · rw [L2.detachVmLocked_idle hreq]
    · rw [L2.detachVmLocked_busy hreq]
  · by_cases hreq : s.pauseRequested = .none
    · rw [L2.detachVmLocked_idle hreq]
    · rw [L2.detachVmLocked_busy hreq]
      show (L2.notifyAll s).script = s.script
      unfold L2.notifyAll
      split <;> rfl

/-- The commands that leave the VM thread alone: only a data command may write to the
VM, and the script runs only while its thread does. -/
theorem statusFrames_passive (hf : NumbersFrames api frames) {a : L2.Act (SqVm H)} {res : L2.Res}
    (ha : a.Passive) (hsame : L2.SameControl s s') (hs : StatusFrames frames s)
    (hexec : L2.exec (listingAccess api lib fuel strToLower frames) s a = some (s', res)) :
    StatusFrames frames s' := by
  cases a with
  | data call => exact statusFrames_data hf hs hexec
  | script v =>
    simp only [L2.exec] at hexec
    split at hexec
    · rename_i hth
      exact statusFrames_of_running fun n hn => by
        rw [hsame.thread, hth] at hn
        cases hn
    · cases hexec
  | setFileBreakpoints file bps =>
    simp only [L2.exec, Option.some.injEq, Prod.mk.injEq] at hexec
    rw [← hexec.1]
    rcases L2.setFileBreakpoints_spec (listingAccess api lib fuel strToLower frames) s file bps
      with ⟨-, heq, -⟩ | ⟨-, heq, -⟩
    · rw [heq]
      exact hs
    · rw [heq]
      exact hs
  | addVm handle =>
    simp only [L2.exec, Option.some.injEq, Prod.mk.injEq] at hexec
    rw [← hexec.1]
    exact hs
  | sendStatus =>
    simp only [L2.exec, Option.some.injEq, Prod.mk.injEq] at hexec
    rw [← hexec.1]
    exact hs
  | _ => exact ha.elim

theorem statusFrames_step (hf : NumbersFrames api frames) {l : L2.Lbl (SqVm H)}
    (hs : StatusFrames frames s)
    (h : (L2.lts (listingAccess api lib fuel strToLower frames)).step s l s') :
    StatusFrames frames s' := by
  obtain ⟨a, res⟩ := l
  have hexec := (L2.lts_step _).mp h
  cases L2.exec_inv _ hexec with
  | passive ha hsame => exact statusFrames_passive hf ha hsame hs hexec
  | detachVm =>
    unfold L2.detachVm
    split
    · exact hs
    · exact hs
  | detachVmLocked => exact statusFrames_detachVmLocked hs
  | pauseExecution =>
    by_cases hreq : s.pauseRequested = .none
    · rw [L2.pauseExecution_idle hreq]
      exact hs
    · rw [L2.pauseExecution_busy hreq]
      exact hs
  | @accepted c hc =>
    by_cases hw : ∃ n, s.thread = .waiting n
    · obtain ⟨n, hn⟩ := hw
      rw [L2.resume_notifies hc hn]
      intro m hm
      exact hs n hn
    · refine statusFrames_of_running fun n hn => hw ⟨n, ?_⟩
      rw [← (L2.resume_frame s c).2.2 fun m hm => hw ⟨m, hm⟩, hn]
  | refused _ => exact hs
  | unattached _ _ => exact hs
  | hook _ _ => exact statusFrames_of_running (by simp)
  | hookNext hn => exact statusFrames_hookNext hn
  | wake _ => exact statusFrames_of_running (by simp [L2.wake])

/-- **While the VM thread waits its frames are those of the status.** -/
theorem status_frames (hf : NumbersFrames api frames)
    (hr : (L2.lts (listingAccess api lib fuel strToLower frames)).Reachable s) :
    StatusFrames frames s := by
  have hinv : (L2.lts (listingAccess api lib fuel strToLower frames)).Inductive
      (StatusFrames frames) := by
    refine ⟨fun s₀ h₀ => ?_, fun t l t' ht h => statusFrames_step hf ht h⟩
    obtain ⟨e, v, rfl⟩ := h₀
    exact statusFrames_of_running (by simp [L2.fresh])
  exact hinv.reachable s hr

/-! ## The commands -/

variable (api lib fuel strToLower frames)

/-- `GetStackVariables`: the return code and the variables it appends, or `none` when
an exception leaves it.
mirrors SquirrelDebugger.cpp:326-342 -/
def getStackVariables (s : L2.State (SqVm H)) (stackFrame : UInt32) (path : Bytes)
    (pagination : PaginationInfo) : Option (ReturnCode × List Variable) :=
  match L2.refused (listingAccess api lib fuel strToLower frames) s
      (.getStackVariables stackFrame path pagination) with
  | some code => some (code, [])
  | none =>
    (result (populateStackVariables api lib (renderer api lib fuel) fuel stackFrame path
      pagination) s.script).map fun
      | .ok vars => (.success, vars)
      | .error rc => (rc, [])

/-- `GetStackVariables` with an empty path is of this frame, as the status has it. -/
def FrameListed (s : L2.State (SqVm H)) (stackFrame : UInt32) (pagination : PaginationInfo) :
    Prop :=
  if stackFrame.toNat < s.pauseMutexData.status.stack.length then
    ∃ vars, getStackVariables api lib fuel strToLower frames s stackFrame [] pagination =
      some (.success, vars)
  else
    getStackVariables api lib fuel strToLower frames s stackFrame [] pagination =
      some (.invalidParameter, [])

/-- The return code a step shows. -/
def codeOf : L2.Res → Option ReturnCode
  | .rc code => some code
  | .usedVm code => code
  | _ => none

/-- `SetStackVariableValue` returns `InvalidParameter`. -/
def FrameRefused (s : L2.State (SqVm H)) (stackFrame : UInt32) (path text : Bytes) : Prop :=
  ∃ s' res, L2.dataCommand (listingAccess api lib fuel strToLower frames) s
    (.setStackVariableValue stackFrame path text) = some (s', res) ∧
      codeOf res = some .invalidParameter

variable {strToLower frames}

/-- `CreateChildVariable` returns for each of `n` locals from `nSeq` on. -/
inductive LocalsShown (r : Renderer H) (level : Nat) : Nat → Nat → SqVm H → Prop
  | page (nSeq : Nat) (v : SqVm H) : LocalsShown r level 0 nSeq v
  | last {n nSeq : Nat} {v : SqVm H} (h : api.getlocal v.heap level nSeq = none) :
    LocalsShown r level (n + 1) nSeq v
  | shown {n nSeq : Nat} {v t u : SqVm H} {name : Bytes} {value : SqObject}
    {variable_ : Variable} (h : api.getlocal v.heap level nSeq = some (name, value))
    (shown : Returns (createChildVariable api r) { v with stack := value :: v.stack } variable_ t)
    (popped : Returns sqPoptop t () u) (rest : LocalsShown r level n (nSeq + 1) u) :
    LocalsShown r level (n + 1) nSeq v

/-- The page of a frame's locals that `GetStackVariables` lists. -/
def PageOfFrame (v : SqVm H) (stackFrame : UInt32) (pagination : PaginationInfo) : Prop :=
  LocalsShown api (renderer api lib fuel) stackFrame.toNat
    ((pagination.beginIterator + pagination.count).toNat - pagination.beginIterator.toNat)
    pagination.beginIterator.toNat v

variable {api lib fuel}

theorem returns_sqGetlocal_iff {level nSeq : Nat} {v t : SqVm H} {found : Option Bytes} :
    Returns (sqGetlocal api level nSeq) v found t ↔
      (api.getlocal v.heap level nSeq = none ∧ found = none ∧ t = v) ∨
      ∃ name value, api.getlocal v.heap level nSeq = some (name, value) ∧ found = some name ∧
        t = { v with stack := value :: v.stack } := by
  have hgives : Gives (sqGetlocal api level nSeq) v.heap [] _ _ _ :=
    gives_sqGetlocal api level nSeq
  have hread := hgives v.stack v.faults
  rw [List.nil_append, List.append_nil] at hread
  cases hlocal : api.getlocal v.heap level nSeq with
  | none =>
    rw [hlocal] at hread
    constructor
    · intro h
      obtain ⟨rfl, rfl⟩ := hread.unique h
      exact .inl ⟨rfl, rfl, rfl⟩
    · rintro (⟨-, rfl, rfl⟩ | ⟨name, value, h, -⟩)
      · exact hread
      · cases h
  | some p =>
    obtain ⟨name, value⟩ := p
    rw [hlocal] at hread
    constructor
    · intro h
      obtain ⟨rfl, rfl⟩ := hread.unique h
      exact .inr ⟨name, value, rfl, rfl, rfl⟩
    · rintro (⟨h, -⟩ | ⟨name', value', h, rfl, rfl⟩)
      · cases h
      · cases h
        exact hread

theorem locals_listed_iff {r : Renderer H} {level n nSeq : Nat} {v : SqVm H} :
    (∃ vars t, Returns (rootVariablesLoop api r level n nSeq) v vars t) ↔
      LocalsShown api r level n nSeq v := by
  induction n generalizing nSeq v with
  | zero => exact iff_of_true ⟨[], v, rfl⟩ (.page nSeq v)
  | succ n ih =>
    constructor
    · intro h
      obtain ⟨vars, t, h⟩ := h
      unfold rootVariablesLoop at h
      obtain ⟨found, u, hlocal, hrest⟩ := returns_bind_iff.mp h
      rcases returns_sqGetlocal_iff.mp hlocal with
        ⟨hnone, rfl, rfl⟩ | ⟨name, value, hsome, rfl, rfl⟩
      · exact .last hnone
      · obtain ⟨variable_, w, hshown, hrest⟩ := returns_bind_iff.mp hrest
        obtain ⟨_, x, hpop, hrest⟩ := returns_bind_iff.mp hrest
        obtain ⟨others, y, hothers, -⟩ := returns_bind_iff.mp hrest
        exact .shown hsome hshown hpop (ih.mp ⟨others, y, hothers⟩)
    · intro h
      cases h with
      | last hnone =>
        exact ⟨[], v, (returns_sqGetlocal_iff.mpr (.inl ⟨hnone, rfl, rfl⟩)).bind rfl⟩
      | @shown _ _ _ t u name value variable_ hsome hshown hpop hrest =>
        obtain ⟨others, y, hothers⟩ := ih.mpr hrest
        exact ⟨_, y, (returns_sqGetlocal_iff.mpr (.inr ⟨name, value, hsome, rfl, rfl⟩)).bind
          (hshown.bind (hpop.bind (hothers.bind rfl)))⟩

variable (api lib fuel strToLower frames) in
/-- What `GetStackVariables` returns for an accepted frame and an empty path. -/
theorem getStackVariables_iff {stackFrame : UInt32} (hp : s.pauseMutexData.isPaused = true)
    (hle : stackFrame.toNat ≤ s.vmData.currentStack.length) (pagination : PaginationInfo)
    (vars : List Variable) :
    getStackVariables api lib fuel strToLower frames s stackFrame [] pagination =
      some (.success, vars) ↔ ∃ t, Returns (withStackRootVariables api (renderer api lib fuel)
        stackFrame pagination) s.script vars t := by
  have hrefused : L2.refused (listingAccess api lib fuel strToLower frames) s
      (.getStackVariables stackFrame [] pagination) = none := by
    simp [L2.refused, hp]
    omega
  unfold getStackVariables
  rw [hrefused]
  dsimp only
  constructor
  · intro h
    obtain ⟨answer, hanswer, heq⟩ := Option.map_eq_some_iff.mp h
    obtain ⟨t, hreturns⟩ := returns_of_result hanswer
    unfold populateStackVariables at hreturns
    rw [if_pos rfl] at hreturns
    obtain ⟨listed, u, hlisted, hpure⟩ := returns_bind_iff.mp hreturns
    obtain ⟨rfl, -⟩ := returns_pure_iff.mp hpure
    obtain rfl : listed = vars := (Prod.mk.inj heq).2
    exact ⟨u, hlisted⟩
  · intro h
    obtain ⟨t, hlisted⟩ := h
    have hreturns : Returns (populateStackVariables api lib (renderer api lib fuel) fuel stackFrame
        [] pagination) s.script (.ok vars) t := by
      unfold populateStackVariables
      rw [if_pos rfl]
      exact Returns.bind hlisted rfl
    rw [hreturns.result_eq]
    rfl

variable (api lib fuel strToLower frames) in
theorem getStackVariables_success_iff {stackFrame : UInt32}
    (hp : s.pauseMutexData.isPaused = true)
    (hle : stackFrame.toNat ≤ s.vmData.currentStack.length) (pagination : PaginationInfo) :
    (∃ vars, getStackVariables api lib fuel strToLower frames s stackFrame [] pagination =
      some (.success, vars)) ↔ PageOfFrame api lib fuel s.script stackFrame pagination := by
  unfold PageOfFrame
  rw [← locals_listed_iff]
  exact exists_congr fun vars =>
    getStackVariables_iff api lib fuel strToLower frames hp hle pagination vars

/-- The range check of `GetStackVariables`. -/
theorem getStackVariables_refused {stackFrame : UInt32} {path : Bytes}
    {pagination : PaginationInfo} (hp : s.pauseMutexData.isPaused = true)
    (hlt : s.vmData.currentStack.length < stackFrame.toNat) :
    getStackVariables api lib fuel strToLower frames s stackFrame path pagination =
      some (.invalidParameter, []) := by
  have hrefused : L2.refused (listingAccess api lib fuel strToLower frames) s
      (.getStackVariables stackFrame path pagination) = some .invalidParameter := by
    simp [L2.refused, hp, hlt]
  unfold getStackVariables
  rw [hrefused]

/-- Past the last frame there is nothing to show, and that is a `Success`. -/
theorem pageOfFrame_past (hf : NumbersFrames api frames) {v : SqVm H} {stackFrame : UInt32}
    (hle : (frames v.heap).length ≤ stackFrame.toNat) (pagination : PaginationInfo) :
    PageOfFrame api lib fuel v stackFrame pagination := by
  unfold PageOfFrame
  cases (pagination.beginIterator + pagination.count).toNat - pagination.beginIterator.toNat with
  | zero => exact .page _ v
  | succ n => exact .last (hf.getlocal _ _ _ hle)

theorem frameListed_iff (hf : NumbersFrames api frames)
    (hp : s.pauseMutexData.isPaused = true)
    (hstack : s.pauseMutexData.status.stack.length = (frames s.script.heap).length)
    (stackFrame : UInt32) (pagination : PaginationInfo) :
    FrameListed api lib fuel strToLower frames s stackFrame pagination ↔
      (stackFrame.toNat < s.pauseMutexData.status.stack.length ∧
        stackFrame.toNat ≤ s.vmData.currentStack.length ∧
        PageOfFrame api lib fuel s.script stackFrame pagination) ∨
      (s.pauseMutexData.status.stack.length ≤ stackFrame.toNat ∧
        s.vmData.currentStack.length < stackFrame.toNat) := by
  unfold FrameListed
  by_cases hmirror : stackFrame.toNat ≤ s.vmData.currentStack.length
  · have hiff := getStackVariables_success_iff api lib fuel strToLower frames
      hp hmirror pagination
    by_cases hframe : stackFrame.toNat < s.pauseMutexData.status.stack.length
    · rw [if_pos hframe, hiff]
      constructor
      · intro hpage
        exact .inl ⟨hframe, hmirror, hpage⟩
      · rintro (⟨-, -, hpage⟩ | ⟨hle, -⟩)
        · exact hpage
        · omega
    · rw [if_neg hframe]
      obtain ⟨vars, hvars⟩ := hiff.mpr (pageOfFrame_past hf (by omega) pagination)
      rw [hvars]
      refine iff_of_false (fun heq => by cases heq) ?_
      rintro (⟨hlt, -⟩ | ⟨-, hlt⟩)
      · exact hframe hlt
      · omega
  · rw [getStackVariables_refused hp (by omega)]
    split
    · refine iff_of_false (fun h => ?_) ?_
      · obtain ⟨vars, h⟩ := h
        cases h
      · rintro (⟨-, hle, -⟩ | ⟨hle, -⟩) <;> omega
    · exact iff_of_true rfl (.inr ⟨by omega, by omega⟩)

variable (lib) in
/-- Past the last frame `sq_getlocal` finds nothing. -/
theorem run_setStackVariableValue_past (hf : NumbersFrames api frames) {v : SqVm H}
    {stackFrame : UInt32} (hle : (frames v.heap).length ≤ stackFrame.toNat) (r : Renderer H)
    (path text : Bytes) :
    (setStackVariableValue api lib r stackFrame path text).run v =
      if path = [] then .ok (.error .errorInternal) v
      else if (pathParts path).isSome then .ok (.error .invalidParameter) v
      else .error .logicError v := by
  unfold setStackVariableValue withStackVariables
  by_cases hpath : path = []
  · rw [if_pos hpath, if_pos hpath]
    rfl
  · rw [if_neg hpath, if_neg hpath]
    cases hparts : pathParts path with
    | none => rfl
    | some parts =>
      have hlocal : Returns (sqGetlocal api stackFrame.toNat (parts.headD 0).toNat) v none v :=
        returns_sqGetlocal_iff.mpr (.inl ⟨hf.getlocal _ _ _ hle, rfl, rfl⟩)
      exact hlocal.bind rfl

theorem returns_returnCode_iff {α : Type} {m : VmM H (Except ReturnCode α)} {v t : SqVm H} :
    Returns (returnCode <$> m) v .invalidParameter t ↔
      Returns m v (.error .invalidParameter) t := by
  rw [← bind_pure_comp, returns_bind_iff]
  constructor
  · intro hret
    obtain ⟨rc, u, hm, hpure⟩ := hret
    obtain ⟨hcode, rfl⟩ := returns_pure_iff.mp hpure
    cases rc with
    | ok a => cases hcode
    | error rc =>
      obtain rfl : rc = .invalidParameter := hcode
      exact hm
  · intro hret
    exact ⟨_, t, hret, rfl⟩

/-- A command that is not refused returns what it makes of the VM. -/
theorem code_iff {stackOf : SqVm H → List StackEntry} {call : L2.DataCall}
    (hnot : L2.refused (squirrelAccess api lib fuel strToLower stackOf) s call = none) :
    (∃ s' res, L2.dataCommand (squirrelAccess api lib fuel strToLower stackOf) s call =
      some (s', res) ∧ codeOf res = some .invalidParameter) ↔
    ∃ t, Returns (dataCall api lib (renderer api lib fuel) fuel call) s.script
      .invalidParameter t := by
  unfold L2.dataCommand
  rw [hnot]
  simp only [squirrelAccess]
  cases hrun : (dataCall api lib (renderer api lib fuel) fuel call).run s.script with
  | ok rc t =>
    simp only [Option.map_some, Option.some.injEq]
    constructor
    · intro hcode
      obtain ⟨s', res, heq, hcode⟩ := hcode
      obtain ⟨rfl, rfl⟩ := Prod.mk.inj heq
      obtain rfl : rc = .invalidParameter := Option.some.inj hcode
      exact ⟨t, hrun⟩
    · intro hret
      obtain ⟨t', hret⟩ := hret
      have heq := hrun.symm.trans hret
      injection heq with hrc
      exact ⟨_, _, rfl, congrArg some hrc⟩
  | error e t =>
    refine iff_of_false ?_ ?_
    · intro hcode
      obtain ⟨s', res, heq, hcode⟩ := hcode
      cases e with
      | fuel => cases heq
      | undefined => cases heq
      | logicError =>
        obtain ⟨-, rfl⟩ := Prod.mk.inj (Option.some.inj heq)
        cases hcode
      | runtimeError what =>
        obtain ⟨-, rfl⟩ := Prod.mk.inj (Option.some.inj heq)
        cases hcode
    · intro hret
      obtain ⟨t', hret⟩ := hret
      cases hrun.symm.trans hret

theorem frameRefused_iff (hf : NumbersFrames api frames)
    (hp : s.pauseMutexData.isPaused = true) {stackFrame : UInt32}
    (hle : (frames s.script.heap).length ≤ stackFrame.toNat) (path text : Bytes) :
    FrameRefused api lib fuel strToLower frames s stackFrame path text ↔
      s.vmData.currentStack.length < stackFrame.toNat ∨
        (path ≠ [] ∧ (pathParts path).isSome = true) := by
  by_cases hmirror : s.vmData.currentStack.length < stackFrame.toNat
  · have hrefused : L2.refused (listingAccess api lib fuel strToLower frames) s
        (.setStackVariableValue stackFrame path text) = some .invalidParameter := by
      simp [L2.refused, hp, hmirror]
    unfold FrameRefused L2.dataCommand
    rw [hrefused]
    exact iff_of_true ⟨s, _, rfl, rfl⟩ (.inl hmirror)
  · have hrefused : L2.refused (listingAccess api lib fuel strToLower frames) s
        (.setStackVariableValue stackFrame path text) = none := by
      simp [L2.refused, hp, hmirror]
    have hrun := run_setStackVariableValue_past lib hf hle (renderer api lib fuel) path text
    unfold FrameRefused
    rw [listingAccess, code_iff hrefused]
    simp only [dataCall, returns_returnCode_iff]
    unfold Returns
    rw [hrun]
    constructor
    · intro hret
      obtain ⟨t, hret⟩ := hret
      right
      by_cases hpath : path = []
      · rw [if_pos hpath] at hret
        cases hret
      · rw [if_neg hpath] at hret
        refine ⟨hpath, ?_⟩
        by_contra hparts
        rw [if_neg hparts] at hret
        cases hret
    · intro h
      rcases h with hlt | ⟨hpath, hparts⟩
      · exact absurd hlt hmirror
      · rw [if_neg hpath, if_pos hparts]
        exact ⟨s.script, rfl⟩

/-- **When frame numbers mean the same everywhere.** In a reachable state in which
the VM thread waits, `GetStackVariables` lists the frames of the status and refuses
the others exactly for the numbers that are a frame of the status, not past the size
of `currentStack`, and whose locals can be shown, and for those past both; of the
numbers past the status `SetStackVariableValue` refuses those past `currentStack`,
and the others if the path is a list of numbers. -/
theorem frameNumbers_iff (hf : NumbersFrames api frames)
    (hr : (L2.lts (listingAccess api lib fuel strToLower frames)).Reachable s)
    (hp : s.pauseMutexData.isPaused = true) (hw : ∃ n, s.thread = .waiting n)
    (stackFrame : UInt32) :
    (∀ pagination, FrameListed api lib fuel strToLower frames s stackFrame pagination ↔
      (stackFrame.toNat < s.pauseMutexData.status.stack.length ∧
        stackFrame.toNat ≤ s.vmData.currentStack.length ∧
        PageOfFrame api lib fuel s.script stackFrame pagination) ∨
      (s.pauseMutexData.status.stack.length ≤ stackFrame.toNat ∧
        s.vmData.currentStack.length < stackFrame.toNat)) ∧
    (s.pauseMutexData.status.stack.length ≤ stackFrame.toNat → ∀ path text,
      (FrameRefused api lib fuel strToLower frames s stackFrame path text ↔
        s.vmData.currentStack.length < stackFrame.toNat ∨
          (path ≠ [] ∧ (pathParts path).isSome = true))) := by
  obtain ⟨n, hn⟩ := hw
  have hstack := status_frames hf hr n hn
  refine ⟨fun pagination => frameListed_iff hf hp hstack stackFrame pagination, ?_⟩
  intro hle path text
  rw [hstack] at hle
  exact frameRefused_iff hf hp hle path text

end

/-! ## One frame -/

/-- The frames of a heap, one for each level of locals. -/
def heapFrames (h : Heap) : List SqStackInfos := h.locals.map fun _ => ⟨[97], 5, [102]⟩

theorem numbersFrames_heapApi : NumbersFrames heapApi heapFrames where
  stackinfos h level := by simp [heapApi, heapFrames]
  getlocal h level nSeq hle := by
    have hnone : h.locals[level]? = none := by
      rw [List.getElem?_eq_none_iff]
      simpa [heapFrames] using hle
    simp [heapApi, hnone]
  nexti _ _ _ := rfl
  get _ _ _ := rfl
  set h o key val := by
    have hset : (heapApi.set h o key val).1.locals = h.locals := by
      show (if (h.find o key).isSome then (h.store o key val, true) else (h, false)).1.locals = _
      split
      · exact h.locals_store o key val
      · rfl
    simp [heapFrames, hset]
  rawset h t key val := by
    have hset : (heapApi.rawset h t key val).locals = h.locals :=
      h.locals_store _ key val
    simp [heapFrames, hset]
  newtable _ := rfl

/-- A VM in one frame, whose only local is `7`. -/
def frameVm : SqVm Heap := ⟨[], { locals := [[([98], .integer 7)]] }, []⟩

def frameAccess : L2.VmAccess (SqVm Heap) :=
  listingAccess heapApi insertionLib 1 id heapFrames

/-- Attach, request a pause, call a function, reach line 5. -/
def frameActs : List (L2.Act (SqVm Heap)) :=
  [.addVm 1, .pauseExecution, .hook (.c L2.nameA 1), .hookNext false, .hookNext false,
    .hook (.l 5), .hookNext false, .hookNext false]

theorem frame_paused : ∃ s, (L2.lts frameAccess).Reachable s ∧
    s.pauseMutexData.isPaused = true ∧ (∃ n, s.thread = .waiting n) ∧
    s.pauseMutexData.status.stack.length = 1 ∧ s.vmData.currentStack.length = 1 ∧
    s.script = frameVm := by
  have hrun : ∃ s, L2.runActs frameAccess (L2.fresh true frameVm) frameActs = some s ∧
      s.pauseMutexData.isPaused = true ∧ (∃ n, s.thread = .waiting n) ∧
      s.pauseMutexData.status.stack.length = 1 ∧ s.vmData.currentStack.length = 1 ∧
      s.script = frameVm := ⟨_, rfl, rfl, ⟨false, rfl⟩, rfl, rfl, rfl⟩
  obtain ⟨s, hrun, hs⟩ := hrun
  exact ⟨s, (L2.reachable_of_runActs frameAccess true frameVm frameActs hrun
    (by simp [frameActs, L2.Act.ListenerReturns])).of_restrict, hs⟩

/-- Frame 0 is listed. -/
theorem frameListed_zero : ∃ s, (L2.lts frameAccess).Reachable s ∧
    FrameListed heapApi insertionLib 1 id heapFrames s 0 ⟨0, 8⟩ := by
  obtain ⟨s, hr, hp, hw, hstatus, hmirror, hscript⟩ := frame_paused
  refine ⟨s, hr, ((frameNumbers_iff numbersFrames_heapApi hr hp hw 0).1 ⟨0, 8⟩).mpr (.inl ?_)⟩
  rw [hstatus, hmirror, hscript]
  exact ⟨by decide, by decide, .shown rfl rfl rfl (.last rfl)⟩

/-- Frame 1, which there is not, is listed as well. -/
theorem frameListed_past : ¬ ∀ s, (L2.lts frameAccess).Reachable s →
    s.pauseMutexData.isPaused = true → (∃ n, s.thread = .waiting n) → ∀ stackFrame pagination,
    FrameListed heapApi insertionLib 1 id heapFrames s stackFrame pagination := by
  intro hall
  obtain ⟨s, hr, hp, hw, hstatus, hmirror, hscript⟩ := frame_paused
  have hlisted := hall s hr hp hw 1 ⟨0, 8⟩
  have hone : (1 : UInt32).toNat ≤ s.vmData.currentStack.length := by
    rw [hmirror]
    decide
  have hpage : PageOfFrame heapApi insertionLib 1 s.script 1 ⟨0, 8⟩ := by
    rw [hscript]
    exact .last rfl
  obtain ⟨vars, hvars⟩ := (getStackVariables_success_iff heapApi insertionLib 1 id heapFrames
    hp hone ⟨0, 8⟩).mpr hpage
  unfold FrameListed at hlisted
  rw [if_neg (by rw [hstatus]; decide), hvars] at hlisted
  cases hlisted

end Sdb.L4
