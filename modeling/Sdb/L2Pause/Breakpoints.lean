import Sdb.L2Pause.Confirm

/-!
# Breakpoints over whole runs

An observer who sees only the labels of a run knows which frames are open and,
for each file name after `StrToLower`, the list of the latest
`SetFileBreakpoints` call that returned `Success` (`Seen`). The debugger knows
the same through three tables: the file names with their handles, the cache from
source-name addresses to handles, and the lines of each handle. `Tracks` is the
agreement between the two, whatever the VM thread is doing.

* `tracks_step`, `tracks_run`: every step keeps the agreement;
* `breakpoints_honoured`: at a line event the hook acts as the observer says.

Over such a run the VM stays attached, and an address the VM passes as
`sourceName` always carries the same text (`Act.Steady`).
-/
namespace Sdb.L2

open Sdb.L1 BreakpointMap

/-! ## The observer -/

structure Seen where
  /-- The source names of the open frames, innermost first. -/
  frames : List SourceName := []
  /-- The latest accepted breakpoints of each folded file name. -/
  latest : Bytes → List CreateBreakpoint := fun _ => []

/-- The last entry of the list on this line. -/
def lastOn (bps : List CreateBreakpoint) (line : Int) : Option CreateBreakpoint :=
  bps.reverse.find? fun b => (b.line.toNat : Int) == line

section
variable {V : Type} (vm : VmAccess V)

def Seen.next (o : Seen) (l : Lbl V) : Seen :=
  match l.act with
  | .hook (.c name _) => { o with frames := name :: o.frames }
  | .hook .r => { o with frames := o.frames.tail }
  | .setFileBreakpoints file bps =>
    if l.res = .rc .success then
      { o with latest := Function.update o.latest (vm.strToLower file) bps }
    else o
  | _ => o

def seen (ls : List (Lbl V)) : Seen := ls.foldl (Seen.next vm) {}

/-- No detach, and the text of a source name is a function of its address. -/
def Act.Steady (textOf : Nat → Bytes) : Act V → Prop
  | .detachVm | .detachVmLocked => False
  | .hook (.c name _) => name.text = textOf name.addr
  | _ => True

def steady (textOf : Nat → Bytes) : LTS (State V) (Lbl V) :=
  (lts vm).restrict fun _ l => l.act.Steady textOf

/-! ## The breakpoint map -/

/-- The handle is that of the file name `text` folds to. -/
def Names (m : BreakpointMap) (handle : FileNameHandle) (text : Bytes) : Prop :=
  ∃ h, handle = some h ∧ m.fileNames[h]? = some (foldName vm.strToLower text)

def toBreakpoint (b : CreateBreakpoint) : Breakpoint := ⟨b.id, b.line⟩

/-- The map holds, line by line, the latest list of every file it knows. -/
structure MapInv (latest : Bytes → List CreateBreakpoint) (m : BreakpointMap) : Prop where
  nodup : m.fileNames.Nodup
  lines : ∀ h name, m.fileNames[h]? = some name → ∀ n : UInt32,
    m.readLine h n = (lastOn (latest name) n.toNat).map toBreakpoint
  unused : ∀ h, m.fileNames.length ≤ h → ∀ n, m.readLine h n = none
  absent : ∀ name, name ∉ m.fileNames → latest name = []

theorem find_toBreakpoint (bps : List CreateBreakpoint) (n : UInt32) :
    (bps.map toBreakpoint).reverse.find? (·.line == n) =
      (lastOn bps n.toNat).map toBreakpoint := by
  have hp : ((fun b : Breakpoint => b.line == n) ∘ toBreakpoint) =
      fun b : CreateBreakpoint => ((b.line.toNat : Int) == (n.toNat : Int)) := by
    funext b
    rw [Bool.eq_iff_iff]
    simp only [Function.comp, toBreakpoint, beq_iff_eq, Int.natCast_inj, UInt32.toNat_inj]
  rw [← List.map_reverse, List.find?_map, hp, lastOn]

theorem getElem?_shared {l l' : List Bytes} (hp : l <+: l') {i : Nat} (hlt : i < l.length) :
    l'[i]? = l[i]? := by
  rw [List.prefix_iff_getElem?.mp hp i hlt, List.getElem?_eq_getElem hlt]

theorem Names.mono {m m' : BreakpointMap} (hp : m.fileNames <+: m'.fileNames)
    {handle : FileNameHandle} {text : Bytes} (h : Names vm m handle text) :
    Names vm m' handle text := by
  obtain ⟨i, rfl, hi⟩ := h
  obtain ⟨hlt, -⟩ := List.getElem?_eq_some_iff.mp hi
  exact ⟨i, rfl, (getElem?_shared hp hlt).trans hi⟩

theorem MapInv.ensure {latest : Bytes → List CreateBreakpoint} {m : BreakpointMap}
    (hm : MapInv latest m) (file : Bytes) :
    MapInv latest (m.ensureFileNameHandle vm.strToLower file).1 ∧
      Names vm (m.ensureFileNameHandle vm.strToLower file).1
        (m.ensureFileNameHandle vm.strToLower file).2 file ∧
      m.fileNames <+: (m.ensureFileNameHandle vm.strToLower file).1.fileNames := by
  obtain ⟨h, h₁, h₂, hpre, hbps, hnd⟩ :=
    ensureFileNameHandle_spec vm.strToLower m file hm.nodup
  have hread : ∀ h n, (m.ensureFileNameHandle vm.strToLower file).1.readLine h n =
      m.readLine h n := by
    intro h n
    simp only [readLine, hbps]
  refine ⟨⟨hnd, ?_, ?_, ?_⟩, ⟨h, h₁, h₂⟩, hpre⟩
  · intro h' name hname n
    rw [hread]
    by_cases hlt : h' < m.fileNames.length
    · exact hm.lines h' name ((getElem?_shared hpre hlt).symm.trans hname) n
    · -- a new name: nothing was set for it, and nothing is stored under its handle
      have hnot : name ∉ m.fileNames := by
        intro hmem
        obtain ⟨i, hi⟩ := List.getElem?_of_mem hmem
        obtain ⟨hlt', -⟩ := List.getElem?_eq_some_iff.mp hi
        have he : i = h' := handle_unique hnd ((getElem?_shared hpre hlt').trans hi) hname
        omega
      rw [hm.unused h' (by omega), hm.absent name hnot]
      rfl
  · intro h' hle n
    rw [hread]
    exact hm.unused h' (Nat.le_trans hpre.length_le hle) n
  · exact fun name hnot => hm.absent name fun hmem => hnot (hpre.subset hmem)

theorem MapInv.replace {latest : Bytes → List CreateBreakpoint} {m : BreakpointMap}
    (hm : MapInv latest m) (file : Bytes) (bps : List CreateBreakpoint) :
    MapInv (Function.update latest (vm.strToLower file) bps)
        (replaceBreakpoints vm m file (bps.map toBreakpoint)) ∧
      m.fileNames <+: (replaceBreakpoints vm m file (bps.map toBreakpoint)).fileNames := by
  obtain ⟨hm₁, ⟨h, h₁, h₂⟩, hpre⟩ := hm.ensure vm file
  have hfold : foldName vm.strToLower file = vm.strToLower file := rfl
  rw [hfold] at h₂
  unfold replaceBreakpoints
  simp only [h₁]
  refine ⟨⟨?_, ?_, ?_, ?_⟩, ?_⟩
  · simpa using hm₁.nodup
  · intro h' name hname n
    simp only [addAll_fileNames, clear_fileNames] at hname
    rw [readLine_setAll]
    by_cases he : h' = h
    · subst he
      obtain rfl : vm.strToLower file = name := Option.some.inj (h₂.symm.trans hname)
      rw [if_pos rfl, Function.update_self, find_toBreakpoint]
    · have hne : name ≠ vm.strToLower file := by
        rintro rfl
        exact he (handle_unique hm₁.nodup hname h₂)
      rw [if_neg he, Function.update_of_ne hne]
      exact hm₁.lines h' name hname n
  · intro h' hle n
    simp only [addAll_fileNames, clear_fileNames] at hle
    obtain ⟨hlt, -⟩ := List.getElem?_eq_some_iff.mp h₂
    rw [readLine_setAll, if_neg (by omega)]
    exact hm₁.unused h' hle n
  · intro name hnot
    simp only [addAll_fileNames, clear_fileNames] at hnot
    have hne : name ≠ vm.strToLower file := by
      rintro rfl
      exact hnot (List.mem_of_getElem? h₂)
    rw [Function.update_of_ne hne]
    exact hm₁.absent name hnot
  · simpa using hpre

/-- Every entry is accepted, or one has a zero field. -/
theorem resolve_spec (bps : List CreateBreakpoint) :
    ((∃ b ∈ bps, b.id = 0 ∨ b.line = 0) ∧ (resolve bps).1 = none) ∨
      ((∀ b ∈ bps, b.id ≠ 0 ∧ b.line ≠ 0) ∧
        (resolve bps).1 = some (bps.map toBreakpoint)) := by
  induction bps with
  | nil => right; simp [resolve]
  | cons b rest ih =>
    obtain ⟨id, line⟩ := b
    unfold resolve
    by_cases hid : id = 0
    · left; simp [hid]
    · by_cases hline : line = 0
      · left; simp [hline]
      · rcases ih with ⟨hex, hr⟩ | ⟨hall, hr⟩
        · left
          simp only [hid, hline, if_false, hr, Option.map_none, and_true]
          obtain ⟨b, hb, hz⟩ := hex
          exact ⟨b, List.mem_cons_of_mem _ hb, hz⟩
        · right
          simp only [hid, hline, if_false, hr, Option.map_some, List.map_cons, toBreakpoint,
            and_true]
          intro b hb
          rcases List.mem_cons.mp hb with rfl | hb
          · exact ⟨hid, hline⟩
          · exact hall b hb

/-- `SetFileBreakpoints` returns `InvalidParameter` and changes nothing if an
entry has a zero field; otherwise it replaces the breakpoints of the file. -/
theorem setFileBreakpoints_spec (s : State V) (file : Bytes) (bps : List CreateBreakpoint) :
    ((∃ b ∈ bps, b.id = 0 ∨ b.line = 0) ∧
        (setFileBreakpoints vm s file bps).1 = s ∧
        (setFileBreakpoints vm s file bps).2.1 = .invalidParameter) ∨
      ((∀ b ∈ bps, b.id ≠ 0 ∧ b.line ≠ 0) ∧
        (setFileBreakpoints vm s file bps).1 =
          { s with pauseMutexData := { s.pauseMutexData with
              breakpoints := replaceBreakpoints vm s.pauseMutexData.breakpoints file
                (bps.map toBreakpoint) } } ∧
        (setFileBreakpoints vm s file bps).2.1 = .success) := by
  unfold setFileBreakpoints
  rcases resolve_spec bps with ⟨hex, hr⟩ | ⟨hall, hr⟩
  · left
    split
    · exact ⟨hex, rfl, rfl⟩
    · simp_all
  · right
    split
    · simp_all
    · rename_i bps' resolved he
      have hb : bps' = bps.map toBreakpoint := by simpa [he] using hr
      subst hb
      exact ⟨hall, rfl, rfl⟩

/-! ## The agreement -/

/-- The open frames `fs` of `currentStack`, against those the labels show: a
frame is seen at its hook event, and pushed or popped a step later. -/
def Ahead (textOf : Nat → Bytes) (frames : List SourceName) : VmThread → List SourceName → Prop
  | .entered (.c name _), fs => frames = name :: fs ∧ name.text = textOf name.addr
  | .entered .r, fs => frames = fs.tail
  | .fault, _ => True
  | _, fs => frames = fs

structure Tracks (textOf : Nat → Bytes) (o : Seen) (s : State V) : Prop where
  attached : s.vmData.vm.isSome
  map : MapInv o.latest s.pauseMutexData.breakpoints
  cache : ∀ addr handle, s.vmData.fileNameHandles addr = some handle →
    Names vm s.pauseMutexData.breakpoints handle (textOf addr)
  frames : ∃ fs, Ahead textOf o.frames s.thread fs ∧
    List.Forall₂ (fun (frame : StackInfo) (name : SourceName) =>
      Names vm s.pauseMutexData.breakpoints frame.fileNameHandle name.text)
      s.vmData.currentStack fs
  top : OnTop s

/-- A step that leaves the call stack and the tables alone. -/
theorem Tracks.of_frame {textOf : Nat → Bytes} {o o' : Seen} {s s' : State V}
    (hi : Tracks vm textOf o s) (hv : s.vmData.vm.isSome → s'.vmData.vm.isSome)
    (hbps : s'.pauseMutexData.breakpoints = s.pauseMutexData.breakpoints)
    (hcache : s'.vmData.fileNameHandles = s.vmData.fileNameHandles)
    (hstk : s'.vmData.currentStack = s.vmData.currentStack) (hl : o'.latest = o.latest)
    (hf : ∀ fs, Ahead textOf o.frames s.thread fs → Ahead textOf o'.frames s'.thread fs)
    (ht : OnTop s') : Tracks vm textOf o' s' := by
  obtain ⟨fs, ha, hfs⟩ := hi.frames
  refine ⟨hv hi.attached, ?_, ?_, ⟨fs, hf fs ha, ?_⟩, ht⟩
  · rw [hl, hbps]; exact hi.map
  · rw [hcache, hbps]; exact hi.cache
  · rw [hstk, hbps]; exact hfs

/-- The names a larger table gives the handles in use are the old ones. -/
theorem forall₂_mono {m m' : BreakpointMap} (hp : m.fileNames <+: m'.fileNames)
    {stk : List StackInfo} {fs : List SourceName}
    (h : List.Forall₂ (fun (frame : StackInfo) (name : SourceName) =>
      Names vm m frame.fileNameHandle name.text) stk fs) :
    List.Forall₂ (fun (frame : StackInfo) (name : SourceName) =>
      Names vm m' frame.fileNameHandle name.text) stk fs :=
  h.imp fun _ _ hn => hn.mono vm hp

theorem tracks_setFileBreakpoints {textOf : Nat → Bytes} {o : Seen} {s : State V}
    (file : Bytes) (bps : List CreateBreakpoint)
    (hi : Tracks vm textOf o s) (ht : OnTop (setFileBreakpoints vm s file bps).1) :
    Tracks vm textOf
      (o.next vm ⟨.setFileBreakpoints file bps, .rc (setFileBreakpoints vm s file bps).2.1⟩)
      (setFileBreakpoints vm s file bps).1 := by
  rcases setFileBreakpoints_spec vm s file bps with ⟨-, h₁, h₂⟩ | ⟨-, h₁, h₂⟩
  · rw [h₁, h₂]
    simpa [Seen.next] using hi
  · rw [h₁] at ht ⊢
    rw [h₂]
    obtain ⟨hm, hp⟩ := hi.map.replace vm file bps
    obtain ⟨fs, ha, hfs⟩ := hi.frames
    refine ⟨hi.attached, by simpa [Seen.next] using hm,
      fun addr handle hc => (hi.cache addr handle hc).mono vm hp, ⟨fs, ?_, ?_⟩, ht⟩
    · simpa [Seen.next] using ha
    · exact forall₂_mono vm hp hfs

/-- The hook gives a new frame the handle of its source name, from the cache or
from the table. -/
theorem tracks_hookCall {textOf : Nat → Bytes} {o : Seen} {s : State V} {name : SourceName}
    {line : Int} (hi : Tracks vm textOf o s) (hth : s.thread = .entered (.c name line)) :
    Tracks vm textOf o (hookCall vm s name line) := by
  obtain ⟨fs, ha, hfs⟩ := hi.frames
  rw [hth] at ha
  obtain ⟨hframes, htext⟩ := ha
  have ht : OnTop (hookCall vm s name line) :=
    onTop_of_running (by simp [(hookCall_control vm s name line).2.2.2.2.2])
  unfold hookCall at ht ⊢
  split
  · rename_i handle hc
    rw [hc] at ht
    have hn := hi.cache name.addr handle hc
    rw [← htext] at hn
    exact ⟨hi.attached, hi.map, hi.cache, ⟨name :: fs, hframes, .cons hn hfs⟩, ht⟩
  · rename_i hc
    rw [hc] at ht
    obtain ⟨hm, hn, hp⟩ := hi.map.ensure vm name.text
    refine ⟨hi.attached, hm, ?_, ⟨name :: fs, hframes, .cons hn (forall₂_mono vm hp hfs)⟩, ht⟩
    intro addr handle hupd
    simp only at hupd
    by_cases he : addr = name.addr
    · subst he
      rw [Function.update_self, Option.some.injEq] at hupd
      rw [← htext, ← hupd]
      exact hn
    · rw [Function.update_of_ne he] at hupd
      exact (hi.cache addr handle hupd).mono vm hp

theorem tracks_hookNext {textOf : Nat → Bytes} {o : Seen} {s s' : State V} {throws : Bool}
    {res : Res} (hi : Tracks vm textOf o s) (h : HookNext vm s throws s' res) :
    Tracks vm textOf o s' := by
  have htop := onTop_hookNext vm h
  cases h with
  | call ht => exact tracks_hookCall vm hi ht
  | @ret head rest ht hstk =>
    obtain ⟨fs, ha, hfs⟩ := hi.frames
    rw [hstk] at hfs
    rw [ht] at ha
    obtain _ | ⟨-, hfs⟩ := hfs
    exact ⟨hi.attached, hi.map, hi.cache, ⟨_, ha, hfs⟩, htop⟩
  | @line line head rest ht hstk =>
    obtain ⟨fs, ha, hfs⟩ := hi.frames
    rw [hstk] at hfs
    rw [ht] at ha
    obtain _ | ⟨hn, hfs⟩ := hfs
    exact ⟨hi.attached, hi.map, hi.cache, ⟨_, ha, .cons hn hfs⟩, htop⟩
  | fault ht hstk =>
    exact hi.of_frame vm id rfl rfl rfl rfl (fun _ _ => trivial) htop
  | other ht => exact hi.of_frame vm id rfl rfl rfl rfl (by simp [ht, Ahead]) htop
  | called ht =>
    have hahead : ∀ fs, Ahead textOf o.frames s.thread fs →
        Ahead textOf o.frames (hookCalled s).thread fs := by
      intro fs ha
      rw [ht] at ha
      rcases hookCalled_thread s with e | e <;> rw [e] <;> exact ha
    rw [hookCalled_eq] at htop hahead ⊢
    exact hi.of_frame vm id rfl rfl rfl rfl hahead htop
  | counted ht => exact hi.of_frame vm id rfl rfl rfl rfl (by simp [ht, Ahead, hookCounted]) htop
  | returned ht =>
    rw [hookReturned_eq] at htop ⊢
    exact hi.of_frame vm id rfl rfl rfl rfl (by simp [ht, Ahead]) htop
  | @stops line handle ht hst =>
    obtain ⟨-, -, -, -, hbps, hvm, -⟩ := hookStop_stops vm throws hst
    refine hi.of_frame vm (by rw [hvm]; exact id) hbps (by rw [hvm]) (by rw [hvm]) rfl ?_ htop
    intro fs ha
    rw [ht] at ha
    rcases hookStop_thread vm s line handle throws with e | e <;> rw [e] <;> exact ha
  | runs ht _ => exact hi.of_frame vm id rfl rfl rfl rfl (by simp [ht, Ahead]) htop

theorem tracks_step {textOf : Nat → Bytes} {o : Seen} {s s' : State V} {l : Lbl V}
    (hi : Tracks vm textOf o s) (h : (steady vm textOf).step s l s') :
    Tracks vm textOf (o.next vm l) s' := by
  obtain ⟨a, res⟩ := l
  obtain ⟨h, hsteady⟩ := h
  rw [lts_step] at h
  have hnd : a ≠ .detachVmLocked := by rintro rfl; exact hsteady
  have htop := onTop_step vm hnd (exec_inv vm h) hi.top
  cases exec_inv vm h with
  | passive ha hf =>
    by_cases hset : ∃ file bps, a = .setFileBreakpoints file bps
    · obtain ⟨file, bps, rfl⟩ := hset
      simp only [exec, Option.some.injEq, Prod.mk.injEq] at h
      obtain ⟨rfl, rfl⟩ := h
      exact tracks_setFileBreakpoints vm file bps hi htop
    · have hbps := passive_breakpoints vm ha (fun file bps e => hset ⟨file, bps, e⟩) h
      have hsame : o.next vm ⟨a, res⟩ = o := by
        cases a with
        | setFileBreakpoints file bps => exact absurd ⟨file, bps, rfl⟩ hset
        | hook e => exact ha.elim
        | _ => rfl
      rw [hsame]
      exact hi.of_frame vm hf.attached hbps hf.fileNameHandles hf.currentStack rfl
        (by simp [hf.thread]) htop
  | detachVm => exact hsteady.elim
  | detachVmLocked => exact hsteady.elim
  | pauseExecution =>
    obtain ⟨-, -, hvm, hth⟩ := pauseExecution_spec s
    have hbps : (pauseExecution s).1.pauseMutexData.breakpoints =
        s.pauseMutexData.breakpoints := by
      unfold pauseExecution; split <;> rfl
    exact hi.of_frame vm (by rw [hvm]; exact id) hbps (by rw [hvm]) (by rw [hvm]) rfl
      (by simp [hth, Seen.next]) htop
  | @accepted c hc =>
    obtain ⟨-, hvm, hth⟩ := resume_frame s c
    have hbps : (resume s c).1.pauseMutexData.breakpoints = s.pauseMutexData.breakpoints := by
      rw [resume_accepted hc]; simp
    refine hi.of_frame vm (by rw [hvm]; exact id) hbps (by rw [hvm]) (by rw [hvm]) rfl ?_ htop
    intro fs ha
    by_cases hw : ∃ n, s.thread = .waiting n
    · obtain ⟨n, hn⟩ := hw
      rw [hn] at ha
      rw [resume_notifies hc hn]
      exact ha
    · rw [hth fun n hn => hw ⟨n, hn⟩]
      exact ha
  | refused _ => exact hi
  | unattached _ hv => exact absurd hi.attached (by simpa using hv)
  | @hook e ht _ =>
    obtain ⟨fs, ha, hfs⟩ := hi.frames
    rw [ht] at ha
    obtain rfl : o.frames = fs := ha
    refine ⟨hi.attached, ?_, hi.cache, ⟨o.frames, ?_, hfs⟩, htop⟩
    · cases e <;> exact hi.map
    · cases e with
      | c name line => exact ⟨rfl, hsteady⟩
      | _ => rfl
  | hookNext hn => exact tracks_hookNext vm hi hn
  | wake ht =>
    exact hi.of_frame vm id rfl rfl rfl rfl (by simp [ht, Ahead, wake, Seen.next]) htop

theorem tracks_run {textOf : Nat → Bytes} {o : Seen} {s s' : State V} {ls : List (Lbl V)}
    (hi : Tracks vm textOf o s) (h : (steady vm textOf).Run s ls s') :
    Tracks vm textOf (ls.foldl (Seen.next vm) o) s' := by
  induction h generalizing o with
  | nil => exact hi
  | cons hs _ ih => exact ih (tracks_step vm hi hs)

theorem tracks_fresh (textOf : Nat → Bytes) (eventInterface : Bool) (v : V) (handle : Nat) :
    Tracks vm textOf {} (addVm (fresh eventInterface v) handle) where
  attached := rfl
  map := ⟨List.nodup_nil, fun _ _ hn => (nomatch hn), fun _ _ _ => rfl, fun _ _ => rfl⟩
  cache := fun addr h hc => by cases hc
  frames := ⟨[], rfl, .nil⟩
  top := onTop_of_running (by simp [addVm, fresh])

/-! ## Main result -/

/-- What the line branch reads for a line it looks up. -/
theorem lineBreakpoint_named {latest : Bytes → List CreateBreakpoint} {m : BreakpointMap}
    (hm : MapInv latest m) {h : Nat} {name : Bytes} (hname : m.fileNames[h]? = some name)
    {line : Int} (h₀ : 0 ≤ line) (h₁ : line < int32Max) :
    lineBreakpoint m line (some h) =
      ((lastOn (latest name) line).isSome,
        ((lastOn (latest name) line).map toBreakpoint).getD {}) := by
  have hline : ((UInt32.ofNat line.toNat).toNat : Int) = line := by
    simp only [UInt32.toNat_ofNat']
    unfold int32Max at h₁
    omega
  unfold lineBreakpoint
  rw [if_pos ⟨h₀, h₁, by simp⟩, readBreakpoint_some, hm.lines h _ hname, hline]
  simp

theorem lineBreakpoint_latest {latest : Bytes → List CreateBreakpoint} {m : BreakpointMap}
    (hm : MapInv latest m) {handle : FileNameHandle} {text : Bytes} (hn : Names vm m handle text)
    {line : Int} (h₀ : 0 ≤ line) (h₁ : line < int32Max) :
    lineBreakpoint m line handle =
      ((lastOn (latest (vm.strToLower text)) line).isSome,
        ((lastOn (latest (vm.strToLower text)) line).map toBreakpoint).getD {}) := by
  obtain ⟨h, rfl, hname⟩ := hn
  exact lineBreakpoint_named hm hname h₀ h₁

/-- At a line event the list tracked for the innermost frame's name decides. -/
theorem honoured_at_line {textOf : Nat → Bytes} {o : Seen} {t t' : State V} {line : Int}
    {handle : FileNameHandle} {throws : Bool} {res : Res} (hi : Tracks vm textOf o t)
    (ht : t.thread = .stopping line handle) (h₀ : 0 ≤ line) (h₁ : line < int32Max)
    (h : exec vm t (.hookNext throws) = some (t', res)) :
    ∃ name rest, o.frames = name :: rest ∧
      (∀ b, lastOn (o.latest (vm.strToLower name.text)) line = some b →
        ∃ status, res = .paused status ∧ status.pausedAtBreakpointId = b.id ∧
          (throws = false → t'.thread = .waiting false)) ∧
      (lastOn (o.latest (vm.strToLower name.text)) line = none →
        ∀ status, res = .paused status → status.pausedAtBreakpointId = 0) := by
  obtain ⟨fs, ha, hfs⟩ := hi.frames
  rw [ht] at ha
  obtain rfl : o.frames = fs := ha
  obtain ⟨frame, rest, hstk, rfl⟩ := hi.top line handle ht
  rw [hstk] at hfs
  cases hfr : o.frames with
  | nil => rw [hfr] at hfs; cases hfs
  | cons name rest' =>
    rw [hfr] at hfs
    obtain _ | ⟨hname, -⟩ := hfs
    have hline := lineBreakpoint_latest vm hi.map hname h₀ h₁
    refine ⟨name, rest', rfl, ?_, ?_⟩
    · intro b hb
      rw [hb] at hline
      have hst : Stops t line frame.fileNameHandle := .inl (by simp [BreakpointAt, hline])
      obtain ⟨hres, -, hth⟩ := exec_stops vm ht hst h
      exact ⟨_, hres, by simp [pauseStatus, hline, toBreakpoint], hth⟩
    · intro hb status hres
      rw [hb] at hline
      by_cases hst : Stops t line frame.fileNameHandle
      · have hstatus := (exec_stops vm ht hst h).1
        rw [hres, Res.paused.injEq] at hstatus
        simp [hstatus, pauseStatus, hline]
      · rw [exec_runs vm ht hst h] at hres
        cases hres

/-- The return code of `SetFileBreakpoints`, and what a refused call leaves. -/
theorem setFileBreakpoints_code {t t' : State V} {file : Bytes} {bps : List CreateBreakpoint}
    {res : Res} (h : exec vm t (.setFileBreakpoints file bps) = some (t', res)) :
    ((∃ b ∈ bps, b.id = 0 ∨ b.line = 0) → res = .rc .invalidParameter ∧ t' = t) ∧
      ((∀ b ∈ bps, b.id ≠ 0 ∧ b.line ≠ 0) → res = .rc .success) := by
  simp only [exec, Option.some.injEq, Prod.mk.injEq] at h
  obtain ⟨rfl, rfl⟩ := h
  rcases setFileBreakpoints_spec vm t file bps with ⟨hex, h₁, h₂⟩ | ⟨hall, h₁, h₂⟩
  · refine ⟨fun _ => ⟨by rw [h₂], h₁⟩, fun hall => ?_⟩
    obtain ⟨b, hb, hz⟩ := hex
    exact absurd hz (by simp [hall b hb])
  · refine ⟨fun hex => ?_, fun _ => by rw [h₂]⟩
    obtain ⟨b, hb, hz⟩ := hex
    exact absurd hz (by simp [hall b hb])

/-- **Breakpoints are honoured over whole runs.** Take any run that starts with a
fresh debugger and an attached VM and in which the VM stays attached.

At a line event with `0 ≤ line < INT32_MAX` the current frame is the innermost
open one; let `B` be the latest list accepted for its source name. If `B` has an
entry on the line the VM pauses and reports the id of the last one; if not, a
pause reports the id 0. A `SetFileBreakpoints` call with a zero field in some
entry returns `InvalidParameter` and changes nothing; any other call returns
`Success`. -/
theorem breakpoints_honoured (textOf : Nat → Bytes) (eventInterface : Bool) (v : V)
    (vmHandle : Nat) (ls : List (Lbl V)) (t : State V)
    (hr : (steady vm textOf).Run (addVm (fresh eventInterface v) vmHandle) ls t) :
    (∀ line handle throws t' res, t.thread = .stopping line handle → 0 ≤ line →
      line < int32Max → exec vm t (.hookNext throws) = some (t', res) →
      ∃ name rest, (seen vm ls).frames = name :: rest ∧
        (∀ b, lastOn ((seen vm ls).latest (vm.strToLower name.text)) line = some b →
          ∃ status, res = .paused status ∧ status.pausedAtBreakpointId = b.id ∧
            (throws = false → t'.thread = .waiting false)) ∧
        (lastOn ((seen vm ls).latest (vm.strToLower name.text)) line = none →
          ∀ status, res = .paused status → status.pausedAtBreakpointId = 0)) ∧
      (∀ file bps t' res, exec vm t (.setFileBreakpoints file bps) = some (t', res) →
        ((∃ b ∈ bps, b.id = 0 ∨ b.line = 0) → res = .rc .invalidParameter ∧ t' = t) ∧
        ((∀ b ∈ bps, b.id ≠ 0 ∧ b.line ≠ 0) → res = .rc .success)) := by
  have hi : Tracks vm textOf (seen vm ls) t :=
    tracks_run vm (tracks_fresh vm textOf eventInterface v vmHandle) hr
  constructor
  · intro line handle throws t' res ht h₀ h₁ h
    exact honoured_at_line vm hi ht h₀ h₁ h
  · intro file bps t' res h
    exact setFileBreakpoints_code vm h

end

/-! ## A breakpoint with two entries on one line -/

/-- Two entries on line 5 of the file, then a call and that line. -/
def twoEntriesRun : List (Lbl Unit) :=
  [⟨.setFileBreakpoints nameA.text [⟨1, 5⟩, ⟨2, 5⟩], .rc .success⟩,
    ⟨.hook (.c nameA 1), .silent⟩, ⟨.hookNext false, .silent⟩, ⟨.hookNext false, .silent⟩,
    ⟨.hook (.l 5), .silent⟩, ⟨.hookNext false, .silent⟩]

theorem breakpoints_honoured_twoEntries :
    ∃ t t' status, (steady idleVm fun _ => nameA.text).Run (addVm (fresh true ()) 1)
        twoEntriesRun t ∧
      exec idleVm t (.hookNext false) = some (t', .paused status) ∧
        status.pausedAtBreakpointId = 2 := by
  have hrun : ∃ t t' res, (steady idleVm fun _ => nameA.text).Run (addVm (fresh true ()) 1)
        twoEntriesRun t ∧ t.thread = .stopping 5 (some 0) ∧
      exec idleVm t (.hookNext false) = some (t', res) :=
    ⟨_, _, _, .cons ⟨rfl, trivial⟩ (.cons ⟨rfl, rfl⟩ (.cons ⟨rfl, trivial⟩
      (.cons ⟨rfl, trivial⟩ (.cons ⟨rfl, trivial⟩ (.single ⟨rfl, trivial⟩))))), rfl, rfl⟩
  obtain ⟨t, t', res, hr, ht, hnext⟩ := hrun
  obtain ⟨name, rest, hframes, hpause, -⟩ := (breakpoints_honoured idleVm (fun _ => nameA.text)
    true () 1 twoEntriesRun t hr).1 5 (some 0) false t' res ht (by decide) (by decide) hnext
  obtain rfl : nameA = name := (List.cons.inj hframes).1
  obtain ⟨status, rfl, hid, -⟩ := hpause ⟨2, 5⟩ rfl
  exact ⟨t, t', status, hr, hnext, hid⟩

end Sdb.L2
