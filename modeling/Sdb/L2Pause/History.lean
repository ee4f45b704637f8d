import Sdb.Core.Refine
import Sdb.L2Pause.Breakpoints
import Sdb.L2Pause.Confirm

/-!
# What outlives a session

`DetachVm` clears the request, the pause flag and the VM data. It leaves behind the
breakpoint map, with a number for every file name that ever came up, the counter
`returnsRequired` and the status of the last pause. Of these only what the map says of a
line of a file is ever seen again.

* `mapInv_run`, `lookup_seen`: in any run the map holds, file by file, the latest
  accepted list;
* `alike_step`: debuggers that differ in the numbers of the files, in a counter no request
  uses and in a status no pause shows answer every step alike;
* `remembers_breakpoints`: after a detach the debugger cannot be told from any other one
  with the same breakpoints.
-/
namespace Sdb.L2

open Sdb.L1 BreakpointMap

section
variable {V : Type} (vm : VmAccess V)

/-! ## The map in a run -/

/-- The hook only adds names; every other step but `SetFileBreakpoints` leaves the
map alone. -/
theorem exec_breakpoints {s s' : State V} {a : Act V} {res : Res}
    (h : exec vm s a = some (s', res)) (ha : ∀ file bps, a ≠ .setFileBreakpoints file bps) :
    s'.pauseMutexData.breakpoints = s.pauseMutexData.breakpoints ∨
      ∃ file, s'.pauseMutexData.breakpoints =
        (s.pauseMutexData.breakpoints.ensureFileNameHandle vm.strToLower file).1 := by
  cases exec_inv vm h with
  | passive hp _ => exact .inl (passive_breakpoints vm hp ha h)
  | detachVm =>
    left
    unfold detachVm
    split <;> rfl
  | detachVmLocked =>
    left
    by_cases hq : s.pauseRequested = .none
    · rw [detachVmLocked_idle hq]
    · rw [detachVmLocked_busy hq]
  | pauseExecution =>
    left
    unfold pauseExecution
    split <;> rfl
  | @accepted c hc =>
    left
    rw [resume_accepted hc]
    simp
  | refused _ => exact .inl rfl
  | unattached _ _ => exact .inl rfl
  | hook _ _ => exact .inl rfl
  | wake _ => exact .inl rfl
  | @hookNext throws _ _ hn =>
    cases hn with
    | @call sourceName line _ =>
      unfold hookCall
      split
      · exact .inl rfl
      · exact .inr ⟨sourceName.text, rfl⟩
    | called _ =>
      rw [hookCalled_eq]
      exact .inl rfl
    | returned _ =>
      rw [hookReturned_eq]
      exact .inl rfl
    | stops _ hst =>
      obtain ⟨-, -, -, -, hbps, -, -⟩ := hookStop_stops vm throws hst
      exact .inl hbps
    | _ => exact .inl rfl

theorem mapInv_step {s s' : State V} {a : Act V} {res : Res} {o : Seen}
    (hm : MapInv o.latest s.pauseMutexData.breakpoints)
    (h : exec vm s a = some (s', res)) :
    MapInv (o.next vm ⟨a, res⟩).latest s'.pauseMutexData.breakpoints := by
  by_cases hset : ∃ file bps, a = .setFileBreakpoints file bps
  · obtain ⟨file, bps, rfl⟩ := hset
    simp only [exec, Option.some.injEq, Prod.mk.injEq] at h
    obtain ⟨rfl, rfl⟩ := h
    rcases setFileBreakpoints_spec vm s file bps with ⟨-, h₁, h₂⟩ | ⟨-, h₁, h₂⟩
    · rw [h₁, h₂]
      exact hm
    · rw [h₁, h₂]
      exact (hm.replace vm file bps).1
  · have hother : ∀ file bps, a ≠ .setFileBreakpoints file bps :=
      fun file bps he => hset ⟨file, bps, he⟩
    have hsame : (o.next vm ⟨a, res⟩).latest = o.latest := by
      cases a with
      | setFileBreakpoints file bps => exact absurd rfl (hother file bps)
      | hook e => cases e <;> rfl
      | _ => rfl
    rw [hsame]
    rcases exec_breakpoints vm h hother with heq | ⟨file, heq⟩
    · rw [heq]
      exact hm
    · rw [heq]
      exact (hm.ensure vm file).1

/-- **The map holds the latest lists**, whatever the host, the script and the hook do. -/
theorem mapInv_run {s t : State V} {ls : List (Lbl V)} {o : Seen}
    (h : (lts vm).Run s ls t) (hm : MapInv o.latest s.pauseMutexData.breakpoints) :
    MapInv (ls.foldl (Seen.next vm) o).latest t.pauseMutexData.breakpoints := by
  induction h generalizing o with
  | nil => exact hm
  | cons hs _ ih => exact ih (mapInv_step vm hm ((lts_step vm).mp hs))

theorem mapInv_fresh (eventInterface : Bool) (v : V) :
    MapInv (fun _ => []) (fresh eventInterface v).pauseMutexData.breakpoints :=
  ⟨List.nodup_nil, fun _ _ hn => by simp [fresh] at hn, fun _ _ _ => rfl, fun _ _ => rfl⟩

/-- The breakpoint of a line of the file that is stored under this name. -/
def lookup (m : BreakpointMap) (name : Bytes) (line : UInt32) : Option Breakpoint :=
  (m.fileNames.findIdx? (· == name)).bind fun h => m.readLine h line

theorem MapInv.lookup {latest : Bytes → List CreateBreakpoint} {m : BreakpointMap}
    (hm : MapInv latest m) (name : Bytes) (line : UInt32) :
    L2.lookup m name line = (lastOn (latest name) line.toNat).map toBreakpoint := by
  unfold L2.lookup
  cases hfind : m.fileNames.findIdx? (· == name) with
  | none =>
    have hnot : name ∉ m.fileNames := by
      rw [List.findIdx?_eq_none_iff] at hfind
      intro hmem
      have hne := hfind name hmem
      simp at hne
    rw [hm.absent name hnot]
    rfl
  | some h =>
    obtain ⟨hlt, hname, -⟩ := List.findIdx?_eq_some_iff_getElem.mp hfind
    have hget : m.fileNames[h]? = some name := by
      rw [List.getElem?_eq_getElem hlt]
      exact congrArg some (by simpa using hname)
    exact hm.lines h name hget line

/-- What the labels of a run say of the map. -/
theorem lookup_seen {t : State V} {ls : List (Lbl V)} {eventInterface : Bool} {v : V}
    (h : (lts vm).Run (fresh eventInterface v) ls t) (name : Bytes) (line : UInt32) :
    lookup t.pauseMutexData.breakpoints name line =
      (lastOn ((seen vm ls).latest name) line.toNat).map toBreakpoint :=
  (mapInv_run vm h (o := {}) (mapInv_fresh eventInterface v)).lookup name line

/-! ## Two debuggers alike -/

theorem rel_imp {α β : Type} {R S : α → β → Prop} {a : Option α} {b : Option β}
    (h : Option.Rel R a b) (hrs : ∀ x y, R x y → S x y) : Option.Rel S a b := by
  cases h with
  | none => exact .none
  | some hr => exact .some (hrs _ _ hr)

theorem rel_flip {α β : Type} {R : α → β → Prop} {a : Option α} {b : Option β}
    (h : Option.Rel (fun x y => R y x) b a) : Option.Rel R a b := by
  cases h with
  | none => exact .none
  | some hr => exact .some hr

/-- Two maps, each of some run, that hold the same breakpoints. -/
structure SameBreakpoints (m m' : BreakpointMap) : Prop where
  map : ∃ latest, MapInv latest m
  map' : ∃ latest, MapInv latest m'
  lookup : ∀ name line, lookup m name line = lookup m' name line

/-- The two handles are those of one file, each in its own table. -/
def OneFile (m m' : BreakpointMap) (handle handle' : FileNameHandle) : Prop :=
  ∃ text, Names vm m handle text ∧ Names vm m' handle' text

/-- The same frames are open, and the same addresses known, under any handles. -/
structure SameTables (m m' : BreakpointMap) (d d' : VmData) : Prop where
  breakpoints : SameBreakpoints m m'
  attached : d'.vm = d.vm
  frames : List.Forall₂ (fun frame frame' : StackInfo =>
    OneFile vm m m' frame.fileNameHandle frame'.fileNameHandle) d.currentStack d'.currentStack
  cache : ∀ addr, Option.Rel (OneFile vm m m') (d.fileNameHandles addr) (d'.fileNameHandles addr)

inductive SameThread (m m' : BreakpointMap) : VmThread → VmThread → Prop where
  | same {th : VmThread} (h : ∀ line handle, th ≠ .stopping line handle) : SameThread m m' th th
  | stopping {line : Int} {handle handle' : FileNameHandle} (h : OneFile vm m m' handle handle') :
    SameThread m m' (.stopping line handle) (.stopping line handle')

/-- Alike but for the numbers of the files, a counter that no request uses and a status
that no pause shows. -/
structure Alike (s t : State V) : Prop where
  tables : SameTables vm s.pauseMutexData.breakpoints t.pauseMutexData.breakpoints
    s.vmData t.vmData
  thread : SameThread vm s.pauseMutexData.breakpoints t.pauseMutexData.breakpoints
    s.thread t.thread
  requested : t.pauseRequested = s.pauseRequested
  paused : t.pauseMutexData.isPaused = s.pauseMutexData.isPaused
  counter : s.pauseRequested ≠ .none →
    t.pauseMutexData.returnsRequired = s.pauseMutexData.returnsRequired
  status : s.pauseMutexData.isPaused = true → t.pauseMutexData.status = s.pauseMutexData.status
  eventInterface : t.eventInterface = s.eventInterface
  detaching : t.detaching = s.detaching
  script : t.script = s.script

theorem OneFile.symm {m m' : BreakpointMap} {handle handle' : FileNameHandle}
    (h : OneFile vm m m' handle handle') : OneFile vm m' m handle' handle := by
  obtain ⟨text, h₁, h₂⟩ := h
  exact ⟨text, h₂, h₁⟩

theorem OneFile.mono {m m' n n' : BreakpointMap} {handle handle' : FileNameHandle}
    (hp : m.fileNames <+: n.fileNames) (hp' : m'.fileNames <+: n'.fileNames)
    (h : OneFile vm m m' handle handle') : OneFile vm n n' handle handle' := by
  obtain ⟨text, h₁, h₂⟩ := h
  exact ⟨text, h₁.mono vm hp, h₂.mono vm hp'⟩

theorem SameThread.symm {m m' : BreakpointMap} {th th' : VmThread}
    (h : SameThread vm m m' th th') : SameThread vm m' m th' th := by
  cases h with
  | same hns => exact .same hns
  | stopping hsame => exact .stopping (hsame.symm vm)

/-- Outside a line event the two threads are at the same place. -/
theorem SameThread.eq {m m' : BreakpointMap} {th th' : VmThread} (h : SameThread vm m m' th th')
    (hns : ∀ line handle, th ≠ .stopping line handle) : th' = th := by
  cases h with
  | same _ => rfl
  | stopping _ => exact absurd rfl (hns _ _)

theorem SameThread.mono {m m' n n' : BreakpointMap} {th th' : VmThread}
    (hp : m.fileNames <+: n.fileNames) (hp' : m'.fileNames <+: n'.fileNames)
    (h : SameThread vm m m' th th') : SameThread vm n n' th th' := by
  cases h with
  | same hns => exact .same hns
  | stopping hsame => exact .stopping (hsame.mono vm hp hp')

theorem SameTables.symm {m m' : BreakpointMap} {d d' : VmData}
    (h : SameTables vm m m' d d') : SameTables vm m' m d' d where
  breakpoints :=
    ⟨h.breakpoints.map', h.breakpoints.map, fun name line => (h.breakpoints.lookup name line).symm⟩
  attached := h.attached.symm
  frames := (h.frames.imp fun _ _ hsame => hsame.symm vm).flip
  cache := fun addr => rel_flip (rel_imp (h.cache addr) fun _ _ hsame => hsame.symm vm)

theorem SameTables.mono {m m' n n' : BreakpointMap} {d d' : VmData}
    (h : SameTables vm m m' d d') (hb : SameBreakpoints n n')
    (hp : m.fileNames <+: n.fileNames) (hp' : m'.fileNames <+: n'.fileNames) :
    SameTables vm n n' d d' where
  breakpoints := hb
  attached := h.attached
  frames := h.frames.imp fun _ _ hsame => hsame.mono vm hp hp'
  cache := fun addr => rel_imp (h.cache addr) fun _ _ hsame => hsame.mono vm hp hp'

theorem Alike.symm {s t : State V} (h : Alike vm s t) : Alike vm t s where
  tables := h.tables.symm vm
  thread := h.thread.symm vm
  requested := h.requested.symm
  paused := h.paused.symm
  counter := fun hq => (h.counter (h.requested ▸ hq)).symm
  status := fun hp => (h.status (h.paused ▸ hp)).symm
  eventInterface := h.eventInterface.symm
  detaching := h.detaching.symm
  script := h.script.symm

/-! ## The two maps -/

theorem SameBreakpoints.ensure {m m' : BreakpointMap} (h : SameBreakpoints m m') (file : Bytes) :
    SameBreakpoints (m.ensureFileNameHandle vm.strToLower file).1
        (m'.ensureFileNameHandle vm.strToLower file).1 ∧
      OneFile vm (m.ensureFileNameHandle vm.strToLower file).1
        (m'.ensureFileNameHandle vm.strToLower file).1
        (m.ensureFileNameHandle vm.strToLower file).2
        (m'.ensureFileNameHandle vm.strToLower file).2 ∧
      m.fileNames <+: (m.ensureFileNameHandle vm.strToLower file).1.fileNames ∧
      m'.fileNames <+: (m'.ensureFileNameHandle vm.strToLower file).1.fileNames := by
  obtain ⟨⟨latest, hm⟩, ⟨latest', hm'⟩, hlookup⟩ := h
  obtain ⟨he, hn, hp⟩ := hm.ensure vm file
  obtain ⟨he', hn', hp'⟩ := hm'.ensure vm file
  refine ⟨⟨⟨latest, he⟩, ⟨latest', he'⟩, fun name line => ?_⟩, ⟨file, hn, hn'⟩, hp, hp'⟩
  rw [he.lookup, he'.lookup, ← hm.lookup, ← hm'.lookup]
  exact hlookup name line

theorem SameBreakpoints.replace {m m' : BreakpointMap} (h : SameBreakpoints m m') (file : Bytes)
    (bps : List CreateBreakpoint) :
    SameBreakpoints (replaceBreakpoints vm m file (bps.map toBreakpoint))
        (replaceBreakpoints vm m' file (bps.map toBreakpoint)) ∧
      m.fileNames <+: (replaceBreakpoints vm m file (bps.map toBreakpoint)).fileNames ∧
      m'.fileNames <+: (replaceBreakpoints vm m' file (bps.map toBreakpoint)).fileNames := by
  obtain ⟨⟨latest, hm⟩, ⟨latest', hm'⟩, hlookup⟩ := h
  obtain ⟨hr, hp⟩ := hm.replace vm file bps
  obtain ⟨hr', hp'⟩ := hm'.replace vm file bps
  refine ⟨⟨⟨_, hr⟩, ⟨_, hr'⟩, fun name line => ?_⟩, hp, hp'⟩
  rw [hr.lookup, hr'.lookup]
  by_cases hname : name = vm.strToLower file
  · subst hname
    rw [Function.update_self, Function.update_self]
  · rw [Function.update_of_ne hname, Function.update_of_ne hname, ← hm.lookup, ← hm'.lookup]
    exact hlookup name line

/-- Under the handle of a file the map holds the breakpoints of its name. -/
theorem readLine_lookup {latest : Bytes → List CreateBreakpoint} {m : BreakpointMap}
    (hm : MapInv latest m) {h : Nat} {name : Bytes} (hname : m.fileNames[h]? = some name)
    (line : UInt32) : m.readLine h line = lookup m name line := by
  rw [hm.lookup, hm.lines h name hname]

theorem SameBreakpoints.lineBreakpoint {m m' : BreakpointMap} (h : SameBreakpoints m m')
    {handle handle' : FileNameHandle} (hf : OneFile vm m m' handle handle') (line : Int) :
    lineBreakpoint m' line handle' = lineBreakpoint m line handle := by
  obtain ⟨⟨latest, hm⟩, ⟨latest', hm'⟩, hlookup⟩ := h
  obtain ⟨text, ⟨i, rfl, hi⟩, ⟨j, rfl, hj⟩⟩ := hf
  unfold L2.lineBreakpoint
  by_cases hrange : 0 ≤ line ∧ line < int32Max
  · rw [if_pos ⟨hrange.1, hrange.2, by simp⟩, if_pos ⟨hrange.1, hrange.2, by simp⟩,
      readBreakpoint_some, readBreakpoint_some, readLine_lookup hm hi, readLine_lookup hm' hj,
      hlookup]
  · rw [if_neg fun hc => hrange ⟨hc.1, hc.2.1⟩, if_neg fun hc => hrange ⟨hc.1, hc.2.1⟩]

/-! ## Steps alike -/

theorem notifyAll_running {s : State V} (h : ∀ n, s.thread ≠ .waiting n) : notifyAll s = s := by
  unfold notifyAll
  split
  · rename_i n hw
    exact absurd hw (h n)
  · rfl

theorem alike_notifyAll {s t : State V} (h : Alike vm s t) :
    Alike vm (notifyAll s) (notifyAll t) := by
  by_cases hw : ∃ n, s.thread = .waiting n
  · obtain ⟨n, hn⟩ := hw
    have hn' : t.thread = .waiting n := (h.thread.eq vm (by simp [hn])).trans hn
    rw [notifyAll_waiting hn, notifyAll_waiting hn']
    exact { h with thread := .same (by simp) }
  · have hr : ∀ n, s.thread ≠ .waiting n := fun n hn => hw ⟨n, hn⟩
    have hr' : ∀ n, t.thread ≠ .waiting n := by
      intro n hn
      exact hr n (((h.thread.symm vm).eq vm (by simp [hn])).trans hn)
    rw [notifyAll_running hr, notifyAll_running hr']
    exact h

theorem alike_pauseExecution {s t : State V} (h : Alike vm s t) :
    Alike vm (pauseExecution s).1 (pauseExecution t).1 := by
  by_cases hidle : s.pauseRequested = .none
  · rw [pauseExecution_idle hidle, pauseExecution_idle (h.requested.trans hidle)]
    exact { h with requested := rfl, counter := fun _ => rfl }
  · rw [pauseExecution_busy hidle, pauseExecution_busy (h.requested ▸ hidle)]
    exact h

theorem Alike.accepts {s t : State V} (h : Alike vm s t) (c : Resume) :
    Accepts t c ↔ Accepts s c := by
  cases c <;> simp [Accepts, h.requested, h.paused]

theorem alike_resume {s t : State V} (h : Alike vm s t) (c : Resume) :
    (resume t c).2 = (resume s c).2 ∧ Alike vm (resume s c).1 (resume t c).1 := by
  by_cases hc : Accepts s c
  · rw [resume_accepted hc, resume_accepted ((h.accepts vm c).mpr hc)]
    refine ⟨rfl, alike_notifyAll vm { h with requested := rfl, counter := fun hq => ?_ }⟩
    cases c with
    | continueExecution => exact absurd rfl hq
    | _ => rfl
  · rw [resume_refused hc, resume_refused fun hc' => hc ((h.accepts vm c).mp hc')]
    exact ⟨rfl, h⟩

theorem alike_detachVm {s t : State V} (h : Alike vm s t) :
    Alike vm (detachVm s) (detachVm t) := by
  unfold detachVm
  rw [h.tables.attached, h.detaching]
  split
  · exact { h with detaching := rfl }
  · exact h

theorem alike_detachVmLocked {s t : State V} (h : Alike vm s t) :
    Alike vm (detachVmLocked s) (detachVmLocked t) := by
  have hcleared : SameTables vm s.pauseMutexData.breakpoints t.pauseMutexData.breakpoints {} {} :=
    ⟨h.tables.breakpoints, rfl, .nil, fun _ => .none⟩
  have hdetaching : t.detaching - 1 = s.detaching - 1 := by rw [h.detaching]
  by_cases hq : s.pauseRequested = .none
  · rw [detachVmLocked_idle hq, detachVmLocked_idle (h.requested.trans hq)]
    exact { h with
      tables := hcleared
      paused := rfl
      status := fun hp => by cases hp
      detaching := hdetaching }
  · have hn := alike_notifyAll vm h
    have hthread := hn.thread
    rw [notifyAll_pauseMutexData, notifyAll_pauseMutexData] at hthread
    rw [detachVmLocked_busy hq, detachVmLocked_busy (h.requested ▸ hq)]
    exact { hn with
      tables := hcleared
      thread := hthread
      requested := rfl
      paused := rfl
      counter := fun hnone => absurd rfl hnone
      status := fun hp => by cases hp
      detaching := hdetaching }

theorem alike_setFileBreakpoints {s t : State V} (h : Alike vm s t) (file : Bytes)
    (bps : List CreateBreakpoint) :
    (setFileBreakpoints vm t file bps).2.1 = (setFileBreakpoints vm s file bps).2.1 ∧
      Alike vm (setFileBreakpoints vm s file bps).1 (setFileBreakpoints vm t file bps).1 := by
  have hnot : (∀ b ∈ bps, b.id ≠ 0 ∧ b.line ≠ 0) → ¬ ∃ b ∈ bps, b.id = 0 ∨ b.line = 0 := by
    intro hall hex
    obtain ⟨b, hb, hz⟩ := hex
    exact absurd hz (by simp [hall b hb])
  rcases setFileBreakpoints_spec vm s file bps with ⟨hex, h₁, h₂⟩ | ⟨hall, h₁, h₂⟩ <;>
    rcases setFileBreakpoints_spec vm t file bps with ⟨hex', h₁', h₂'⟩ | ⟨hall', h₁', h₂'⟩
  · rw [h₁, h₂, h₁', h₂']
    exact ⟨rfl, h⟩
  · exact absurd hex (hnot hall')
  · exact absurd hex' (hnot hall)
  · rw [h₁, h₂, h₁', h₂']
    obtain ⟨hb, hp, hp'⟩ := h.tables.breakpoints.replace vm file bps
    exact ⟨rfl, { h with
      tables := h.tables.mono vm hb hp hp'
      thread := h.thread.mono vm hp hp' }⟩

theorem alike_sendStatus {s t : State V} (h : Alike vm s t) : sendStatus t = sendStatus s := by
  have hcurrent : currentStatus t = currentStatus s := by
    unfold currentStatus
    rw [h.requested, h.paused]
    by_cases hp : s.pauseMutexData.isPaused = true
    · rw [h.status hp]
    · simp [hp]
  unfold sendStatus
  rw [h.eventInterface, hcurrent]

theorem alike_refused {s t : State V} (h : Alike vm s t) (call : DataCall) :
    refused vm t call = refused vm s call := by
  have hlen : t.vmData.currentStack.length = s.vmData.currentStack.length :=
    h.tables.frames.length_eq.symm
  unfold refused
  rw [h.paused, hlen]

/-- The hook numbers a new file in each table by itself. -/
theorem alike_hookCall {s t : State V} (h : Alike vm s t) (sourceName : SourceName) (line : Int) :
    Alike vm (hookCall vm s sourceName line) (hookCall vm t sourceName line) := by
  have hcache := h.tables.cache sourceName.addr
  unfold hookCall
  cases hs : s.vmData.fileNameHandles sourceName.addr with
  | some handle =>
    cases ht : t.vmData.fileNameHandles sourceName.addr with
    | none =>
      rw [hs, ht] at hcache
      cases hcache
    | some handle' =>
      rw [hs, ht, Option.rel_some_some] at hcache
      exact { h with
        tables := { h.tables with frames := .cons hcache h.tables.frames }
        thread := .same (by simp) }
  | none =>
    cases ht : t.vmData.fileNameHandles sourceName.addr with
    | some handle' =>
      rw [hs, ht] at hcache
      cases hcache
    | none =>
      obtain ⟨hb, hf, hp, hp'⟩ := h.tables.breakpoints.ensure vm sourceName.text
      have htables := h.tables.mono vm hb hp hp'
      refine { h with
        tables := ⟨hb, htables.attached, .cons hf htables.frames, fun addr => ?_⟩
        thread := .same (by simp) }
      by_cases haddr : addr = sourceName.addr
      · subst haddr
        simp only [Function.update_self, Option.rel_some_some]
        exact hf
      · simp only [Function.update_of_ne haddr]
        exact htables.cache addr

theorem alike_hookStop {s t : State V} (h : Alike vm s t) {line : Int}
    {handle handle' : FileNameHandle}
    (hf : OneFile vm s.pauseMutexData.breakpoints t.pauseMutexData.breakpoints handle handle')
    (throws : Bool) :
    (hookStop vm t line handle' throws).2 = (hookStop vm s line handle throws).2 ∧
      Alike vm (hookStop vm s line handle throws).1 (hookStop vm t line handle' throws).1 := by
  have hline := h.tables.breakpoints.lineBreakpoint vm hf line
  have hafter : ∀ th, SameThread vm s.pauseMutexData.breakpoints t.pauseMutexData.breakpoints
      (if s.eventInterface ∧ throws then .script else .waiting th)
      (if t.eventInterface ∧ throws then .script else .waiting th) := by
    intro th
    rw [h.eventInterface]
    refine .same ?_
    split <;> simp
  unfold hookStop
  rw [hline]
  generalize lineBreakpoint s.pauseMutexData.breakpoints line handle = looked
  obtain ⟨found, bp⟩ := looked
  cases found with
  | true =>
    have hstop : PauseType.pause ≠ .none ∧ (0 : Int) ≤ 0 := ⟨by simp, Int.le_refl 0⟩
    simp only [if_true]
    rw [if_pos hstop, if_pos hstop, h.script]
    exact ⟨rfl, { h with
      script := rfl
      thread := hafter false
      requested := rfl
      paused := rfl
      counter := fun _ => rfl
      status := fun _ => rfl }⟩
  | false =>
    simp only [Bool.false_eq_true, if_false]
    have hsame : (t.pauseRequested ≠ .none ∧ t.pauseMutexData.returnsRequired ≤ 0) ↔
        (s.pauseRequested ≠ .none ∧ s.pauseMutexData.returnsRequired ≤ 0) := by
      rw [h.requested]
      refine and_congr_right fun hq => ?_
      rw [h.counter hq]
    by_cases hstop : s.pauseRequested ≠ .none ∧ s.pauseMutexData.returnsRequired ≤ 0
    · rw [if_pos hstop, if_pos (hsame.mpr hstop), h.script]
      exact ⟨rfl, { h with
        script := rfl
        thread := hafter false
        paused := rfl
        status := fun _ => rfl }⟩
    · rw [if_neg hstop, if_neg fun hc => hstop (hsame.mp hc)]
      exact ⟨rfl, { h with thread := .same (by simp) }⟩

theorem alike_hookReturn {s t : State V} (h : Alike vm s t) :
    Alike vm (hookReturn s) (hookReturn t) := by
  have hframes := h.tables.frames
  cases hs : s.vmData.currentStack with
  | nil =>
    rw [hs, List.forall₂_nil_left_iff] at hframes
    rw [hookReturn_empty hs, hookReturn_empty hframes]
    exact { h with thread := .same (by simp) }
  | cons frame rest =>
    rw [hs, List.forall₂_cons_left_iff] at hframes
    obtain ⟨frame', rest', -, hrest, ht⟩ := hframes
    rw [hookReturn_nonempty hs, hookReturn_nonempty ht]
    exact { h with
      tables := { h.tables with frames := hrest }
      thread := .same (by simp) }

theorem alike_hookLine {s t : State V} (h : Alike vm s t) (line : Int) :
    Alike vm (hookLine s line) (hookLine t line) := by
  have hframes := h.tables.frames
  cases hs : s.vmData.currentStack with
  | nil =>
    rw [hs, List.forall₂_nil_left_iff] at hframes
    rw [hookLine_empty line hs, hookLine_empty line hframes]
    exact { h with thread := .same (by simp) }
  | cons frame rest =>
    rw [hs, List.forall₂_cons_left_iff] at hframes
    obtain ⟨frame', rest', hframe, hrest, ht⟩ := hframes
    rw [hookLine_nonempty line hs, hookLine_nonempty line ht]
    exact { h with
      tables := { h.tables with frames := .cons hframe hrest }
      thread := .stopping hframe }

/-- A call looks at the counter only under a request. -/
theorem alike_hookCalled {s t : State V} (h : Alike vm s t) :
    Alike vm (hookCalled s) (hookCalled t) := by
  have hsame : (t.pauseRequested ≠ .none ∧ 0 ≤ t.pauseMutexData.returnsRequired) ↔
      (s.pauseRequested ≠ .none ∧ 0 ≤ s.pauseMutexData.returnsRequired) := by
    rw [h.requested]
    refine and_congr_right fun hq => ?_
    rw [h.counter hq]
  unfold hookCalled
  by_cases hc : s.pauseRequested ≠ .none ∧ 0 ≤ s.pauseMutexData.returnsRequired
  · rw [if_pos hc, if_pos (hsame.mpr hc)]
    exact { h with thread := .same (by simp) }
  · rw [if_neg hc, if_neg fun ht => hc (hsame.mp ht)]
    exact { h with thread := .same (by simp) }

theorem alike_hookCounted {s t : State V} (h : Alike vm s t) :
    Alike vm (hookCounted s) (hookCounted t) := by
  refine { h with thread := .same (by simp [hookCounted]), counter := fun hq => ?_ }
  show t.pauseMutexData.returnsRequired + 1 = s.pauseMutexData.returnsRequired + 1
  rw [h.counter hq]

/-- A return touches it only under a request. -/
theorem alike_hookReturned {s t : State V} (h : Alike vm s t) :
    Alike vm (hookReturned s) (hookReturned t) := by
  rw [hookReturned_eq, hookReturned_eq]
  refine { h with thread := .same (by simp), counter := fun hq => ?_ }
  show t.pauseMutexData.returnsRequired - _ = s.pauseMutexData.returnsRequired - _
  rw [h.requested, h.counter hq]

theorem alike_hookNext {s t s' : State V} {throws : Bool} {res : Res} (h : Alike vm s t)
    (hx : hookNext vm s throws = some (s', res)) :
    ∃ t', hookNext vm t throws = some (t', res) ∧ Alike vm s' t' := by
  by_cases hst : ∃ line handle, s.thread = .stopping line handle
  · obtain ⟨line, handle, hs⟩ := hst
    have hthread := h.thread
    rw [hs] at hthread
    generalize hth : t.thread = th at hthread
    cases hthread with
    | same hns => exact absurd rfl (hns line handle)
    | @stopping _ _ handle' hf =>
      obtain ⟨hres, halike⟩ := alike_hookStop vm h hf throws
      rw [hookNext_stopping vm throws hs, Option.some.injEq] at hx
      rw [hookNext_stopping vm throws hth]
      rw [hx] at hres halike
      exact ⟨_, congrArg some (Prod.ext rfl hres), halike⟩
  · have ht : t.thread = s.thread := h.thread.eq vm fun line handle he => hst ⟨line, handle, he⟩
    unfold hookNext at hx ⊢
    rw [ht]
    cases hs : s.thread with
    | stopping line handle => exact absurd ⟨line, handle, hs⟩ hst
    | entered e =>
      rw [hs] at hx
      cases e with
      | c sourceName line =>
        obtain ⟨rfl, rfl⟩ := Prod.mk.inj (Option.some.inj hx)
        exact ⟨_, rfl, alike_hookCall vm h sourceName line⟩
      | r =>
        obtain ⟨rfl, rfl⟩ := Prod.mk.inj (Option.some.inj hx)
        exact ⟨_, rfl, alike_hookReturn vm h⟩
      | l line =>
        obtain ⟨rfl, rfl⟩ := Prod.mk.inj (Option.some.inj hx)
        exact ⟨_, rfl, alike_hookLine vm h line⟩
      | other =>
        obtain ⟨rfl, rfl⟩ := Prod.mk.inj (Option.some.inj hx)
        exact ⟨_, rfl, { h with thread := .same (by simp) }⟩
    | called =>
      rw [hs] at hx
      obtain ⟨rfl, rfl⟩ := Prod.mk.inj (Option.some.inj hx)
      exact ⟨_, rfl, alike_hookCalled vm h⟩
    | counting =>
      rw [hs] at hx
      obtain ⟨rfl, rfl⟩ := Prod.mk.inj (Option.some.inj hx)
      exact ⟨_, rfl, alike_hookCounted vm h⟩
    | returned =>
      rw [hs] at hx
      obtain ⟨rfl, rfl⟩ := Prod.mk.inj (Option.some.inj hx)
      exact ⟨_, rfl, alike_hookReturned vm h⟩
    | script | waiting _ | fault =>
      rw [hs] at hx
      cases hx

/-- One step of the system, with the same label. -/
theorem alike_step : (lts vm).Simulates (Alike vm) := by
  intro s t l s' h hstep
  obtain ⟨a, res⟩ := l
  have hx := (lts_step vm).mp hstep
  suffices hmatch : ∃ t', exec vm t a = some (t', res) ∧ Alike vm s' t' by
    obtain ⟨t', hx', halike⟩ := hmatch
    exact ⟨t', (lts_step vm).mpr hx', halike⟩
  have hrunning : s.thread = .script → t.thread = .script := fun hs =>
    (h.thread.eq vm (by simp [hs])).trans hs
  cases a with
  | addVm handle =>
    obtain ⟨rfl, rfl⟩ := Prod.mk.inj (Option.some.inj hx)
    exact ⟨_, rfl, { h with tables := { h.tables with attached := rfl } }⟩
  | detachVm =>
    obtain ⟨rfl, rfl⟩ := Prod.mk.inj (Option.some.inj hx)
    exact ⟨_, rfl, alike_detachVm vm h⟩
  | detachVmLocked =>
    simp only [exec] at hx ⊢
    rw [h.detaching]
    split at hx
    · cases hx
    · rename_i hd
      obtain ⟨rfl, rfl⟩ := Prod.mk.inj (Option.some.inj hx)
      rw [if_neg hd]
      exact ⟨_, rfl, alike_detachVmLocked vm h⟩
  | pauseExecution =>
    obtain ⟨rfl, rfl⟩ := Prod.mk.inj (Option.some.inj hx)
    simp only [exec, pauseExecution_code]
    exact ⟨_, rfl, alike_pauseExecution vm h⟩
  | resume c =>
    obtain ⟨rfl, rfl⟩ := Prod.mk.inj (Option.some.inj hx)
    obtain ⟨hcode, halike⟩ := alike_resume vm h c
    simp only [exec, hcode]
    exact ⟨_, rfl, halike⟩
  | setFileBreakpoints file bps =>
    obtain ⟨rfl, rfl⟩ := Prod.mk.inj (Option.some.inj hx)
    obtain ⟨hcode, halike⟩ := alike_setFileBreakpoints vm h file bps
    simp only [exec, hcode]
    exact ⟨_, rfl, halike⟩
  | sendStatus =>
    obtain ⟨rfl, rfl⟩ := Prod.mk.inj (Option.some.inj hx)
    simp only [exec, alike_sendStatus vm h]
    exact ⟨_, rfl, h⟩
  | data call =>
    simp only [exec, dataCommand] at hx ⊢
    rw [alike_refused vm h call, h.script]
    split at hx
    · obtain ⟨rfl, rfl⟩ := Prod.mk.inj (Option.some.inj hx)
      exact ⟨_, rfl, h⟩
    · obtain ⟨⟨v, code⟩, hcall, hres⟩ := Option.map_eq_some_iff.mp hx
      obtain ⟨rfl, rfl⟩ := Prod.mk.inj hres
      rw [hcall]
      exact ⟨_, rfl, { h with script := rfl }⟩
  | script v =>
    simp only [exec] at hx ⊢
    split at hx
    · rename_i hs
      obtain ⟨rfl, rfl⟩ := Prod.mk.inj (Option.some.inj hx)
      rw [if_pos (hrunning hs)]
      exact ⟨_, rfl, { h with script := rfl }⟩
    · cases hx
  | hook e =>
    simp only [exec] at hx ⊢
    split at hx
    · rename_i hs
      obtain ⟨rfl, rfl⟩ := Prod.mk.inj (Option.some.inj hx)
      rw [if_pos (hrunning hs)]
      refine ⟨_, rfl, ?_⟩
      unfold hookEntry
      rw [h.tables.attached]
      split
      · exact h
      · exact { h with thread := .same (by simp) }
    · cases hx
  | hookNext throws => exact alike_hookNext vm h hx
  | wake =>
    simp only [exec] at hx ⊢
    split at hx
    · rename_i n hs
      obtain ⟨rfl, rfl⟩ := Prod.mk.inj (Option.some.inj hx)
      rw [(h.thread.eq vm (by simp [hs])).trans hs]
      exact ⟨_, rfl, { h with
        thread := .same (by simp [wake])
        paused := rfl
        status := fun hp => by cases hp }⟩
    · cases hx

/-! ## Main result -/

/-- Nothing is attached, requested or shown. -/
structure Cleared (s : State V) : Prop where
  vmData : s.vmData = {}
  requested : s.pauseRequested = .none
  paused : s.pauseMutexData.isPaused = false

theorem cleared_detachVmLocked (s : State V) : Cleared (detachVmLocked s) := by
  obtain ⟨hq, hp, hvm⟩ := detachVmLocked_spec s
  exact ⟨hvm, hq, hp⟩

/-- The same script at the same place, the same listener, as many detaches under way. -/
structure SameHost (s t : State V) : Prop where
  script : t.script = s.script
  thread : t.thread = s.thread
  eventInterface : t.eventInterface = s.eventInterface
  detaching : t.detaching = s.detaching

theorem mapInv_reachable {s : State V} (h : (lts vm).Reachable s) :
    ∃ latest, MapInv latest s.pauseMutexData.breakpoints := by
  obtain ⟨s₀, ls, ⟨e, v, rfl⟩, hr⟩ := h
  exact ⟨_, mapInv_run vm hr (o := {}) (mapInv_fresh e v)⟩

theorem Cleared.alike {s t : State V} (hs : Cleared s) (ht : Cleared t) (hhost : SameHost s t)
    (hns : ∀ line handle, s.thread ≠ .stopping line handle)
    (hbps : SameBreakpoints s.pauseMutexData.breakpoints t.pauseMutexData.breakpoints) :
    Alike vm s t where
  tables := by
    refine ⟨hbps, ?_, ?_, fun addr => ?_⟩ <;> rw [hs.vmData, ht.vmData]
    · exact .nil
    · exact .none
  thread := by
    rw [hhost.thread]
    exact .same hns
  requested := ht.requested.trans hs.requested.symm
  paused := ht.paused.trans hs.paused.symm
  counter := fun hq => absurd hs.requested hq
  status := by
    intro hp
    rw [hs.paused] at hp
    cases hp
  eventInterface := hhost.eventInterface
  detaching := hhost.detaching
  script := hhost.script

/-- **A detached debugger remembers its breakpoints.** Take two debuggers without a VM,
each new or detached after any run, but not between the two halves of a line event, in
front of the same script, with the VM's thread at the same place, the same listener and as
many detaches under way, whose maps hold the same breakpoint on each line of each file.
Whatever the two runs were, in whatever order the files came up, and whatever was requested,
counted or shown: every further run of the one is a run of the other, label by label. -/
theorem remembers_breakpoints {s t : State V} (hs : Cleared s) (ht : Cleared t)
    (hhost : SameHost s t) (hns : ∀ line handle, s.thread ≠ .stopping line handle)
    (hrs : (lts vm).Reachable s) (hrt : (lts vm).Reachable t)
    (hlookup : ∀ name line, lookup s.pauseMutexData.breakpoints name line =
      lookup t.pauseMutexData.breakpoints name line) (ls : List (Lbl V)) :
    (∃ s', (lts vm).Run s ls s') ↔ ∃ t', (lts vm).Run t ls t' := by
  have hbps := SameBreakpoints.mk (mapInv_reachable vm hrs) (mapInv_reachable vm hrt) hlookup
  exact (alike_step vm).runs_iff (fun _ _ halike => halike.symm vm)
    (hs.alike vm ht hhost hns hbps) ls

end

/-! ## A second session -/

/-- The source name `"b"` at address 2. -/
def otherName : SourceName := ⟨2, [98]⟩

/-- Breakpoints in two files, a VM, a request that nothing answers, a detach. -/
def firstSession : List (Lbl Unit) :=
  [⟨.setFileBreakpoints nameA.text [⟨1, 5⟩], .rc .success⟩,
    ⟨.setFileBreakpoints otherName.text [⟨2, 6⟩], .rc .success⟩,
    ⟨.addVm 1, .silent⟩, ⟨.pauseExecution, .rc .success⟩,
    ⟨.detachVm, .silent⟩, ⟨.detachVmLocked, .silent⟩]

/-- The same breakpoints, given to a new debugger the other way round. -/
def noSession : List (Lbl Unit) :=
  [⟨.setFileBreakpoints otherName.text [⟨2, 6⟩], .rc .success⟩,
    ⟨.setFileBreakpoints nameA.text [⟨1, 5⟩], .rc .success⟩]

/-- A VM that stops on line 5. -/
def secondSession : List (Lbl Unit) :=
  [⟨.addVm 2, .silent⟩, ⟨.hook (.c nameA 1), .silent⟩, ⟨.hookNext false, .silent⟩,
    ⟨.hookNext false, .silent⟩, ⟨.hook (.l 5), .silent⟩, ⟨.hookNext false, .silent⟩,
    ⟨.hookNext false, .paused { runState := .paused, pausedAtBreakpointId := 1 }⟩]

theorem remembers_breakpoints_secondSession : ∃ s s',
    (lts idleVm).Run (fresh true ()) firstSession s ∧
      (lts idleVm).Run s secondSession s' := by
  have hfirst : ∃ s, firstSession.foldlM (stepLbl idleVm) (fresh true ()) = some s ∧
      Cleared s ∧ s.thread = .script ∧ s.eventInterface = true ∧ s.detaching = 0 :=
    ⟨_, rfl, ⟨rfl, rfl, rfl⟩, rfl, rfl, rfl⟩
  have hnone : ∃ t t', noSession.foldlM (stepLbl idleVm) (fresh true ()) = some t ∧
      secondSession.foldlM (stepLbl idleVm) t = some t' ∧
      Cleared t ∧ t.thread = .script ∧ t.eventInterface = true ∧ t.detaching = 0 :=
    ⟨_, _, rfl, rfl, ⟨rfl, rfl, rfl⟩, rfl, rfl, rfl⟩
  obtain ⟨s, hfold, hs, hthread, he, hd⟩ := hfirst
  obtain ⟨t, t', hfold', hsecond, ht, hthread', he', hd'⟩ := hnone
  have hrs : (lts idleVm).Run (fresh true ()) firstSession s := LTS.run_of_foldlM hfold
  have hrt : (lts idleVm).Run (fresh true ()) noSession t := LTS.run_of_foldlM hfold'
  have hlatest : (seen idleVm firstSession).latest = (seen idleVm noSession).latest :=
    Function.update_comm (by decide) _ _ _
  have hlookup : ∀ name line, lookup s.pauseMutexData.breakpoints name line =
      lookup t.pauseMutexData.breakpoints name line := by
    intro name line
    rw [lookup_seen idleVm hrs, lookup_seen idleVm hrt, hlatest]
  obtain ⟨s', hrun⟩ := (remembers_breakpoints idleVm hs ht
    ⟨rfl, hthread'.trans hthread.symm, he'.trans he.symm, hd'.trans hd.symm⟩ (by simp [hthread])
    ⟨_, _, ⟨true, (), rfl⟩, hrs⟩ ⟨_, _, ⟨true, (), rfl⟩, hrt⟩ hlookup secondSession).mpr
      ⟨t', LTS.run_of_foldlM hsecond⟩
  exact ⟨s, s', hrs, hrun⟩

end Sdb.L2
