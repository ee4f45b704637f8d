import Sdb.Core.LTS
import Sdb.L1Data.BreakpointMap

/-!
# What a `BreakpointMap` stands for

A caller of the map knows the operations it made and their answers. From these
alone a handle has a name, the folded name of the call that returned it
(`nameOf`), and the operations make a `LineTable`: a map from folded file names
and lines to breakpoints, which `Clear` and `AddAll` change and nothing else.
`used` is the map with that history beside it; the handles a caller passes are
null or were returned before.

* `represents_step`: every operation keeps the map in agreement with its history;
* `map_refines`: what each operation answers is what the history says, in every
  state reached.
-/
namespace Sdb.L1.BreakpointMap

/-! ## Operations and their history -/

inductive Op where
  | ensureFileNameHandle (fileName : Bytes)
  | findFileNameHandle (fileName : Bytes)
  | clear (handle : FileNameHandle)
  | addAll (handle : FileNameHandle) (breakpoints : List Breakpoint)
  | readBreakpoint (handle : FileNameHandle) (line : UInt32) (bp : Breakpoint)

inductive Answer where
  | handle (handle : FileNameHandle)
  | done
  | read (found : Bool) (bp : Breakpoint)
  deriving DecidableEq, Repr

/-- An operation with its answer. -/
structure Lbl where
  op : Op
  answer : Answer

/-- The file name a call is made with. -/
def Op.fileName : Op → Option Bytes
  | .ensureFileNameHandle fileName | .findFileNameHandle fileName => some fileName
  | _ => none

/-- The handle a call is made with. -/
def Op.handle : Op → FileNameHandle
  | .clear handle | .addAll handle _ | .readBreakpoint handle _ _ => handle
  | _ => none

/-- The handle is null or was returned before. -/
def Returned (ls : List Lbl) (handle : FileNameHandle) : Prop :=
  handle = none ∨ ∃ l ∈ ls, l.answer = .handle handle

section
variable (strToLower : Bytes → Bytes)

def run (m : BreakpointMap) : Op → BreakpointMap × Answer
  | .ensureFileNameHandle fileName =>
    ((m.ensureFileNameHandle strToLower fileName).1,
      .handle (m.ensureFileNameHandle strToLower fileName).2)
  | .findFileNameHandle fileName => (m, .handle (m.findFileNameHandle strToLower fileName))
  | .clear handle => (m.clear handle, .done)
  | .addAll handle breakpoints => (m.addAll handle breakpoints, .done)
  | .readBreakpoint handle line bp =>
    (m, .read (m.readBreakpoint handle line bp).1 (m.readBreakpoint handle line bp).2)

/-- The map with what its caller has seen. -/
def used : LTS (BreakpointMap × List Lbl) Lbl where
  init p := p = ({}, [])
  step p l p' :=
    Returned p.2 l.op.handle ∧ run strToLower p.1 l.op = (p'.1, l.answer) ∧ p'.2 = p.2 ++ [l]

/-! ## The abstract map -/

abbrev LineTable := Bytes × UInt32 → Option Breakpoint

def LineTable.clear (t : LineTable) (name : Bytes) : LineTable := fun k =>
  if k.1 = name then none else t k

def LineTable.addAll (t : LineTable) (name : Bytes) (bps : List Breakpoint) : LineTable :=
  bps.foldl (fun t bp => Function.update t (name, bp.line) (some bp)) t

/-- The name of a handle is that of the first call that returned it. -/
def nameOf (ls : List Lbl) (handle : FileNameHandle) : Option Bytes :=
  if handle = none then none
  else (ls.find? (·.answer = .handle handle)).bind fun l => l.op.fileName.map strToLower

/-- What an operation does to the abstract map, given the names of the handles. -/
def LineTable.next (names : FileNameHandle → Option Bytes) (t : LineTable) : Op → LineTable
  | .clear handle =>
    match names handle with
    | some name => t.clear name
    | none => t
  | .addAll handle bps =>
    match names handle with
    | some name => t.addAll name bps
    | none => t
  | _ => t

/-- The abstract map after these operations. -/
def tableOf (ls : List Lbl) : LineTable :=
  (ls.foldl
    (fun (p : List Lbl × LineTable) l => (p.1 ++ [l], p.2.next (nameOf strToLower p.1) l.op))
    ([], fun _ => none)).2

theorem tableOf_concat (ls : List Lbl) (l : Lbl) :
    tableOf strToLower (ls ++ [l]) =
      (tableOf strToLower ls).next (nameOf strToLower ls) l.op := by
  have hpast : ∀ ls : List Lbl, (ls.foldl
      (fun (p : List Lbl × LineTable) l => (p.1 ++ [l], p.2.next (nameOf strToLower p.1) l.op))
      ([], fun _ => none)).1 = ls := by
    intro ls
    induction ls using List.reverseRecOn with
    | nil => rfl
    | append_singleton ls l ih => simp only [List.foldl_append, List.foldl_cons, List.foldl_nil, ih]
  simp only [tableOf, List.foldl_append, List.foldl_cons, List.foldl_nil, hpast]

@[simp] theorem LineTable.clear_apply (t : LineTable) (name n : Bytes) (line : UInt32) :
    t.clear name (n, line) = if n = name then none else t (n, line) := rfl

/-- `AddAll` works on the lines of its own file. -/
theorem LineTable.addAll_apply (t : LineTable) (name n : Bytes) (bps : List Breakpoint)
    (line : UInt32) :
    t.addAll name bps (n, line) =
      if n = name then addLines (fun line => t (name, line)) bps line else t (n, line) := by
  unfold addAll addLines
  induction bps generalizing t with
  | nil =>
    by_cases hn : n = name
    · simp [hn]
    · simp [hn]
  | cons bp bps ih =>
    rw [List.foldl_cons, ih, List.foldl_cons]
    have hlines : (fun line => Function.update t (name, bp.line) (some bp) (name, line)) =
        Function.update (fun line => t (name, line)) bp.line (some bp) := by
      funext line
      by_cases hl : line = bp.line
      · simp [hl]
      · simp [hl]
    by_cases hn : n = name
    · rw [if_pos hn, if_pos hn, hlines]
    · have hk : (n, line) ≠ (name, bp.line) := fun he => hn (Prod.mk.inj he).1
      rw [if_neg hn, if_neg hn, Function.update_of_ne hk]

theorem getD_readLine (m : BreakpointMap) (h : Nat) :
    (m.breakpoints h).getD (fun _ => none) = m.readLine h := by
  funext line
  unfold readLine
  cases m.breakpoints h <;> rfl

theorem readLine_addAll (m : BreakpointMap) (h h' : Nat) (bps : List Breakpoint)
    (line : UInt32) :
    (m.addAll (some h) bps).readLine h' line =
      if h' = h then addLines (m.readLine h) bps line else m.readLine h' line := by
  simp only [addAll, readLine_setLines, getD_readLine]

/-! ## The map and its history -/

structure Represents (m : BreakpointMap) (ls : List Lbl) : Prop where
  nodup : m.fileNames.Nodup
  ensured : ∀ h name, m.fileNames[h]? = some name → ∃ fileName,
    ⟨.ensureFileNameHandle fileName, .handle (some h)⟩ ∈ ls ∧ name = strToLower fileName
  returned : ∀ l ∈ ls, ∀ h, l.answer = .handle (some h) →
    ∃ fileName, l.op.fileName = some fileName ∧ m.fileNames[h]? = some (strToLower fileName)
  answered : ∀ fileName answer, ⟨.ensureFileNameHandle fileName, answer⟩ ∈ ls →
    ∃ h, answer = .handle (some h)
  lines : ∀ h name, m.fileNames[h]? = some name → ∀ line,
    m.readLine h line = tableOf strToLower ls (name, line)
  unused : ∀ h, m.fileNames.length ≤ h → ∀ line, m.readLine h line = none
  absent : ∀ name, name ∉ m.fileNames → ∀ line, tableOf strToLower ls (name, line) = none

variable {strToLower} {m : BreakpointMap} {ls : List Lbl}

/-- The history names a handle as the map does. -/
theorem Represents.nameOf_eq (hi : Represents strToLower m ls) {h : Nat} {name : Bytes}
    (hname : m.fileNames[h]? = some name) : nameOf strToLower ls (some h) = some name := by
  obtain ⟨fileName, hmem, rfl⟩ := hi.ensured h name hname
  unfold nameOf
  rw [if_neg (by simp)]
  cases hf : ls.find? (·.answer = .handle (some h)) with
  | none =>
    rw [List.find?_eq_none] at hf
    simpa using hf _ hmem
  | some l =>
    have hanswer := List.find?_some hf
    obtain ⟨file, hfile, hname'⟩ :=
      hi.returned l (List.mem_of_find?_eq_some hf) h (by simpa using hanswer)
    rw [hname, Option.some.injEq] at hname'
    simp [hfile, hname']

/-- A handle a caller may pass is null or names a stored file. -/
theorem Represents.known (hi : Represents strToLower m ls) {handle : FileNameHandle}
    (hr : Returned ls handle) :
    handle = none ∨ ∃ h name, handle = some h ∧ m.fileNames[h]? = some name := by
  rcases hr with rfl | ⟨l, hl, hanswer⟩
  · exact .inl rfl
  · cases handle with
    | none => exact .inl rfl
    | some h =>
      obtain ⟨fileName, -, hname⟩ := hi.returned l hl h hanswer
      exact .inr ⟨h, _, rfl, hname⟩

/-- An operation that answers no handle and keeps the names. -/
theorem Represents.of_lines (hi : Represents strToLower m ls) {m' : BreakpointMap} {l : Lbl}
    (hnames : m'.fileNames = m.fileNames) (hanswer : ∀ h, l.answer ≠ .handle (some h))
    (hop : l.op.fileName = none)
    (hlines : ∀ h name, m.fileNames[h]? = some name → ∀ line,
      m'.readLine h line = tableOf strToLower (ls ++ [l]) (name, line))
    (hunused : ∀ h, m.fileNames.length ≤ h → ∀ line, m'.readLine h line = m.readLine h line)
    (habsent : ∀ name, name ∉ m.fileNames → ∀ line,
      tableOf strToLower (ls ++ [l]) (name, line) = tableOf strToLower ls (name, line)) :
    Represents strToLower m' (ls ++ [l]) := by
  refine ⟨by rw [hnames]; exact hi.nodup, ?_, ?_, ?_, by rw [hnames]; exact hlines, ?_, ?_⟩
  · intro h name hname
    rw [hnames] at hname
    obtain ⟨fileName, hmem, he⟩ := hi.ensured h name hname
    exact ⟨fileName, List.mem_append_left _ hmem, he⟩
  · intro l' hl' h ha
    rw [hnames]
    rcases List.mem_append.mp hl' with hl' | hl'
    · exact hi.returned l' hl' h ha
    · obtain rfl := List.mem_singleton.mp hl'
      exact absurd ha (hanswer h)
  · intro fileName answer hmem
    rcases List.mem_append.mp hmem with hmem | hmem
    · exact hi.answered fileName answer hmem
    · obtain rfl := List.mem_singleton.mp hmem
      cases hop
  · intro h hle line
    rw [hnames] at hle
    rw [hunused h hle]
    exact hi.unused h hle line
  · intro name hnot line
    rw [hnames] at hnot
    rw [habsent name hnot]
    exact hi.absent name hnot line

theorem findFileNameHandle_some {fileName : Bytes} {h : Nat}
    (hf : m.findFileNameHandle strToLower fileName = some h) :
    m.fileNames[h]? = some (strToLower fileName) := by
  obtain ⟨hlt, he, -⟩ := List.findIdx?_eq_some_iff_getElem.mp hf
  rw [List.getElem?_eq_getElem hlt]
  simpa [foldName, kCaseInsensitivePaths] using he

theorem findFileNameHandle_none {fileName : Bytes} :
    m.findFileNameHandle strToLower fileName = none ↔ strToLower fileName ∉ m.fileNames := by
  unfold findFileNameHandle
  rw [List.findIdx?_eq_none_iff]
  have hfold : foldName strToLower fileName = strToLower fileName := rfl
  constructor
  · intro hf hmem
    simpa [hfold] using hf _ hmem
  · intro hnot name hmem
    rw [hfold, beq_eq_false_iff_ne]
    intro he
    exact hnot (he ▸ hmem)

/-- A call with a file name that finds the handle, or finds none and adds none. -/
theorem represents_find (hi : Represents strToLower m ls) {l : Lbl} {fileName : Bytes}
    (hop : l.op.fileName = some fileName)
    (hanswer : l.answer = .handle (m.findFileNameHandle strToLower fileName))
    (hfound : ∀ file, l.op = .ensureFileNameHandle file → ∃ h, l.answer = .handle (some h)) :
    Represents strToLower m (ls ++ [l]) := by
  have htable : tableOf strToLower (ls ++ [l]) = tableOf strToLower ls := by
    rw [tableOf_concat]
    unfold LineTable.next
    split
    · rename_i he
      rw [he] at hop
      cases hop
    · rename_i he
      rw [he] at hop
      cases hop
    · rfl
  refine ⟨hi.nodup, ?_, ?_, ?_, by rw [htable]; exact hi.lines, hi.unused,
    by rw [htable]; exact hi.absent⟩
  · intro h name hname
    obtain ⟨file, hmem, he⟩ := hi.ensured h name hname
    exact ⟨file, List.mem_append_left _ hmem, he⟩
  · intro l' hl' h ha
    rcases List.mem_append.mp hl' with hl' | hl'
    · exact hi.returned l' hl' h ha
    · obtain rfl := List.mem_singleton.mp hl'
      rw [hanswer, Answer.handle.injEq] at ha
      exact ⟨fileName, hop, findFileNameHandle_some ha⟩
  · intro file answer hmem
    rcases List.mem_append.mp hmem with hmem | hmem
    · exact hi.answered file answer hmem
    · obtain rfl := List.mem_singleton.mp hmem
      exact hfound file rfl

/-- A file that is new: nothing was set for it, and nothing is stored under its handle. -/
theorem represents_new (hi : Represents strToLower m ls) {fileName : Bytes}
    (hnew : strToLower fileName ∉ m.fileNames) :
    Represents strToLower { m with fileNames := m.fileNames ++ [strToLower fileName] }
      (ls ++ [⟨.ensureFileNameHandle fileName, .handle (some m.fileNames.length)⟩]) := by
  have htable : tableOf strToLower
      (ls ++ [⟨.ensureFileNameHandle fileName, .handle (some m.fileNames.length)⟩]) =
      tableOf strToLower ls := tableOf_concat strToLower ls _
  have hnames : ∀ h name, (m.fileNames ++ [strToLower fileName])[h]? = some name →
      m.fileNames[h]? = some name ∨ h = m.fileNames.length ∧ name = strToLower fileName := by
    intro h name hn
    rw [List.getElem?_append] at hn
    split at hn
    · exact .inl hn
    · right
      obtain ⟨hlt, he⟩ := List.getElem?_eq_some_iff.mp hn
      simp only [List.length_singleton] at hlt
      refine ⟨by omega, ?_⟩
      simpa using he.symm
  refine ⟨?_, ?_, ?_, ?_, ?_, ?_, ?_⟩
  · exact List.nodup_append.mpr ⟨hi.nodup, List.nodup_singleton _, fun a ha b hb he =>
      hnew (List.mem_singleton.mp hb ▸ he ▸ ha)⟩
  · intro h name hn
    rcases hnames h name hn with hn | ⟨rfl, rfl⟩
    · obtain ⟨file, hmem, he⟩ := hi.ensured h name hn
      exact ⟨file, List.mem_append_left _ hmem, he⟩
    · exact ⟨fileName, by simp, rfl⟩
  · intro l hl h ha
    rcases List.mem_append.mp hl with hl | hl
    · obtain ⟨file, hfile, hn⟩ := hi.returned l hl h ha
      obtain ⟨hlt, -⟩ := List.getElem?_eq_some_iff.mp hn
      exact ⟨file, hfile, by rw [List.getElem?_append_left hlt, hn]⟩
    · obtain rfl := List.mem_singleton.mp hl
      obtain rfl : m.fileNames.length = h := by simpa using ha
      exact ⟨fileName, rfl, by simp⟩
  · intro file answer hmem
    rcases List.mem_append.mp hmem with hmem | hmem
    · exact hi.answered file answer hmem
    · injection List.mem_singleton.mp hmem with _ ha
      exact ⟨_, ha⟩
  · intro h name hn line
    rw [htable]
    rcases hnames h name hn with hn | ⟨rfl, rfl⟩
    · exact hi.lines h name hn line
    · rw [hi.absent _ hnew]
      exact hi.unused _ (Nat.le_refl _) line
  · intro h hle line
    rw [List.length_append, List.length_singleton] at hle
    exact hi.unused h (by omega) line
  · intro name hnot line
    rw [htable]
    exact hi.absent name (fun hmem => hnot (List.mem_append_left _ hmem)) line

theorem represents_clear (hi : Represents strToLower m ls) {handle : FileNameHandle}
    (hr : Returned ls handle) :
    Represents strToLower (m.clear handle) (ls ++ [⟨.clear handle, .done⟩]) := by
  have htable := tableOf_concat strToLower ls ⟨.clear handle, .done⟩
  rcases hi.known hr with rfl | ⟨h, name, rfl, hname⟩
  · refine hi.of_lines rfl (fun _ => nofun) rfl ?_ (fun _ _ _ => rfl) ?_
    · intro h name hname line
      rw [htable]
      exact hi.lines h name hname line
    · intro name _ line
      rw [htable]
      rfl
  · simp only [LineTable.next, hi.nameOf_eq hname] at htable
    refine hi.of_lines (by simp) (fun _ => nofun) rfl ?_ ?_ ?_
    · intro h' name' hname' line
      rw [htable, LineTable.clear_apply]
      by_cases he : h' = h
      · subst he
        obtain rfl := Option.some.inj (hname'.symm.trans hname)
        rw [if_pos rfl, ← getD_readLine, clear_getD]
      · have hne : name' ≠ name := by
          rintro rfl
          exact he (handle_unique hi.nodup hname' hname)
        rw [if_neg hne, readLine_clear_ne m he]
        exact hi.lines h' name' hname' line
    · intro h' hle line
      obtain ⟨hlt, -⟩ := List.getElem?_eq_some_iff.mp hname
      exact readLine_clear_ne m (by omega) line
    · intro name' hnot line
      have hne : name' ≠ name := by
        rintro rfl
        exact hnot (List.mem_of_getElem? hname)
      rw [htable, LineTable.clear_apply, if_neg hne]

theorem represents_addAll (hi : Represents strToLower m ls) {handle : FileNameHandle}
    (bps : List Breakpoint) (hr : Returned ls handle) :
    Represents strToLower (m.addAll handle bps) (ls ++ [⟨.addAll handle bps, .done⟩]) := by
  have htable := tableOf_concat strToLower ls ⟨.addAll handle bps, .done⟩
  rcases hi.known hr with rfl | ⟨h, name, rfl, hname⟩
  · refine hi.of_lines rfl (fun _ => nofun) rfl ?_ (fun _ _ _ => rfl) ?_
    · intro h name hname line
      rw [htable]
      exact hi.lines h name hname line
    · intro name _ line
      rw [htable]
      rfl
  · simp only [LineTable.next, hi.nameOf_eq hname] at htable
    refine hi.of_lines (by simp) (fun _ => nofun) rfl ?_ ?_ ?_
    · intro h' name' hname' line
      rw [htable, LineTable.addAll_apply, readLine_addAll]
      by_cases he : h' = h
      · subst he
        obtain rfl := Option.some.inj (hname'.symm.trans hname)
        have hlines : m.readLine h' = fun line => tableOf strToLower ls (name', line) :=
          funext (hi.lines h' name' hname)
        rw [if_pos rfl, if_pos rfl, hlines]
      · have hne : name' ≠ name := by
          rintro rfl
          exact he (handle_unique hi.nodup hname' hname)
        rw [if_neg he, if_neg hne]
        exact hi.lines h' name' hname' line
    · intro h' hle line
      obtain ⟨hlt, -⟩ := List.getElem?_eq_some_iff.mp hname
      rw [readLine_addAll, if_neg (by omega)]
    · intro name' hnot line
      have hne : name' ≠ name := by
        rintro rfl
        exact hnot (List.mem_of_getElem? hname)
      rw [htable, LineTable.addAll_apply, if_neg hne]

theorem represents_read (hi : Represents strToLower m ls) (handle : FileNameHandle)
    (line : UInt32) (bp bp' : Breakpoint) (found : Bool) :
    Represents strToLower m (ls ++ [⟨.readBreakpoint handle line bp, .read found bp'⟩]) := by
  have htable : tableOf strToLower
      (ls ++ [⟨.readBreakpoint handle line bp, .read found bp'⟩]) = tableOf strToLower ls :=
    tableOf_concat strToLower ls _
  refine hi.of_lines rfl (fun _ => nofun) rfl ?_ (fun _ _ _ => rfl) fun name _ line => ?_
  · rw [htable]
    exact hi.lines
  · rw [htable]

theorem represents_step {op : Op} (hi : Represents strToLower m ls)
    (hr : Returned ls op.handle) :
    Represents strToLower (run strToLower m op).1 (ls ++ [⟨op, (run strToLower m op).2⟩]) := by
  cases op with
  | ensureFileNameHandle fileName =>
    simp only [run, ensureFileNameHandle]
    cases hf : m.findFileNameHandle strToLower fileName with
    | some i => exact represents_find hi rfl (by rw [hf]) fun _ _ => ⟨i, rfl⟩
    | none => exact represents_new hi (findFileNameHandle_none.mp hf)
  | findFileNameHandle fileName => exact represents_find hi rfl rfl fun _ => nofun
  | clear handle => exact represents_clear hi hr
  | addAll handle bps => exact represents_addAll hi bps hr
  | readBreakpoint handle line bp => exact represents_read hi handle line bp _ _

theorem represents_inductive :
    (used strToLower).Inductive fun p => Represents strToLower p.1 p.2 where
  init := by
    rintro p rfl
    exact ⟨List.nodup_nil, fun _ _ => nofun, fun _ => nofun, fun _ _ => nofun,
      fun _ _ => nofun, fun _ _ _ => rfl, fun _ _ _ => rfl⟩
  step := by
    intro p l p' hi h
    obtain ⟨hr, hrun, hpast⟩ := h
    have hs := represents_step hi hr
    rw [hrun] at hs
    rw [hpast]
    exact hs

/-! ## Main result -/

variable (strToLower) in
/-- The answers the map gives, from the history alone. -/
structure Refines (m : BreakpointMap) (ls : List Lbl) : Prop where
  distinct : m.fileNames.Nodup
  lowered : ∀ name ∈ m.fileNames, strToLower name = name
  /-- A handle has one name, whichever call returned it. -/
  named : ∀ l ∈ ls, ∀ fileName h, l.op.fileName = some fileName → l.answer = .handle (some h) →
    nameOf strToLower ls (some h) = some (strToLower fileName)
  ensured : ∀ file handle file' handle',
    ⟨.ensureFileNameHandle file, .handle handle⟩ ∈ ls →
    ⟨.ensureFileNameHandle file', .handle handle'⟩ ∈ ls →
      handle ≠ none ∧ (handle = handle' ↔ strToLower file = strToLower file')
  found : ∀ file,
    (m.findFileNameHandle strToLower file = none ↔ ∀ file' handle,
      ⟨.ensureFileNameHandle file', .handle handle⟩ ∈ ls →
        strToLower file' ≠ strToLower file) ∧
    ∀ file' handle, ⟨.ensureFileNameHandle file', .handle handle⟩ ∈ ls →
      strToLower file' = strToLower file → m.findFileNameHandle strToLower file = handle
  read : ∀ handle, Returned ls handle → ∀ line bp,
    (∀ b, m.readBreakpoint handle line bp = (true, b) ↔ ∃ name,
      nameOf strToLower ls handle = some name ∧ tableOf strToLower ls (name, line) = some b) ∧
    ((m.readBreakpoint handle line bp).1 = false → (m.readBreakpoint handle line bp).2 = bp)
  /-- An operation on one handle, or on null, leaves every other handle's lines. -/
  others : ∀ op handle, (op = .clear handle ∨ ∃ bps, op = .addAll handle bps) →
    ∀ handle', handle' ≠ handle → ∀ line bp,
      (run strToLower m op).1.readBreakpoint handle' line bp =
        m.readBreakpoint handle' line bp

theorem readBreakpoint_congr {m' : BreakpointMap} {h : Nat} {line : UInt32}
    (hl : m'.readLine h line = m.readLine h line) (bp : Breakpoint) :
    m'.readBreakpoint (some h) line bp = m.readBreakpoint (some h) line bp := by
  rw [readBreakpoint_some, readBreakpoint_some, hl]

theorem readBreakpoint_true {h : Nat} {line : UInt32} {bp b : Breakpoint} :
    m.readBreakpoint (some h) line bp = (true, b) ↔ m.readLine h line = some b := by
  rw [readBreakpoint_some]
  cases m.readLine h line with
  | none => simp
  | some b' => simp

theorem readBreakpoint_false {handle : FileNameHandle} {line : UInt32} {bp : Breakpoint}
    (hf : (m.readBreakpoint handle line bp).1 = false) :
    (m.readBreakpoint handle line bp).2 = bp := by
  cases handle with
  | none => rfl
  | some h =>
    rw [readBreakpoint_some] at hf ⊢
    have hnone : m.readLine h line = none := by simpa using hf
    rw [hnone]
    rfl

theorem readBreakpoint_others {op : Op} {handle handle' : FileNameHandle}
    (hop : op = .clear handle ∨ ∃ bps, op = .addAll handle bps) (hne : handle' ≠ handle)
    (line : UInt32) (bp : Breakpoint) :
    (run strToLower m op).1.readBreakpoint handle' line bp =
      m.readBreakpoint handle' line bp := by
  cases handle' with
  | none => rfl
  | some h' =>
    apply readBreakpoint_congr
    cases handle with
    | none =>
      rcases hop with rfl | ⟨bps, rfl⟩
      · rfl
      · rfl
    | some h =>
      have hne' : h' ≠ h := fun he => hne (congrArg some he)
      rcases hop with rfl | ⟨bps, rfl⟩
      · exact readLine_clear_ne m hne' line
      · simp only [run, readLine_addAll, if_neg hne']

theorem Represents.ensured_name (hi : Represents strToLower m ls) {file : Bytes}
    {handle : FileNameHandle}
    (hmem : ⟨.ensureFileNameHandle file, .handle handle⟩ ∈ ls) :
    ∃ h, handle = some h ∧ m.fileNames[h]? = some (strToLower file) := by
  obtain ⟨h, ha⟩ := hi.answered _ _ hmem
  obtain rfl := Answer.handle.inj ha
  obtain ⟨fileName, hfile, hname⟩ := hi.returned _ hmem h rfl
  obtain rfl : file = fileName := by simpa [Op.fileName] using hfile
  exact ⟨h, rfl, hname⟩

theorem Represents.found (hi : Represents strToLower m ls) (file : Bytes) :
    (m.findFileNameHandle strToLower file = none ↔ ∀ file' handle,
      ⟨.ensureFileNameHandle file', .handle handle⟩ ∈ ls →
        strToLower file' ≠ strToLower file) ∧
    ∀ file' handle, ⟨.ensureFileNameHandle file', .handle handle⟩ ∈ ls →
      strToLower file' = strToLower file → m.findFileNameHandle strToLower file = handle := by
  constructor
  · rw [findFileNameHandle_none]
    constructor
    · intro hnot file' handle hmem he
      obtain ⟨h, -, hname⟩ := hi.ensured_name hmem
      rw [he] at hname
      exact hnot (List.mem_of_getElem? hname)
    · intro hall hmem
      obtain ⟨h, hname⟩ := List.getElem?_of_mem hmem
      obtain ⟨file', hmem', he⟩ := hi.ensured h _ hname
      exact hall file' (some h) hmem' he.symm
  · intro file' handle hmem he
    obtain ⟨h, rfl, hname⟩ := hi.ensured_name hmem
    rw [he] at hname
    cases hf : m.findFileNameHandle strToLower file with
    | none => exact absurd (List.mem_of_getElem? hname) (findFileNameHandle_none.mp hf)
    | some i => rw [handle_unique hi.nodup (findFileNameHandle_some hf) hname]

theorem Represents.read (hi : Represents strToLower m ls) {handle : FileNameHandle}
    (hr : Returned ls handle) (line : UInt32) (bp b : Breakpoint) :
    m.readBreakpoint handle line bp = (true, b) ↔ ∃ name,
      nameOf strToLower ls handle = some name ∧ tableOf strToLower ls (name, line) = some b := by
  rcases hi.known hr with rfl | ⟨h, name, rfl, hname⟩
  · simp [readBreakpoint, nameOf]
  · rw [readBreakpoint_true, hi.lines h name hname, hi.nameOf_eq hname]
    simp

/-- **The map is a map from folded file names and lines.** `strToLower` is any
idempotent function; the handles passed are null or were returned before. -/
theorem map_refines (hidem : ∀ name, strToLower (strToLower name) = strToLower name)
    (h : (used strToLower).Reachable (m, ls)) : Refines strToLower m ls := by
  have hi : Represents strToLower m ls := represents_inductive.reachable _ h
  refine ⟨hi.nodup, ?_, ?_, ?_, hi.found, ?_, ?_⟩
  · intro name hmem
    obtain ⟨i, hname⟩ := List.getElem?_of_mem hmem
    obtain ⟨file, -, rfl⟩ := hi.ensured i name hname
    exact hidem file
  · intro l hl fileName i hfile ha
    obtain ⟨file, hfile', hname⟩ := hi.returned l hl i ha
    obtain rfl : file = fileName := by simpa [hfile'] using hfile
    exact hi.nameOf_eq hname
  · intro file handle file' handle' hmem hmem'
    obtain ⟨i, rfl, hname⟩ := hi.ensured_name hmem
    obtain ⟨j, rfl, hname'⟩ := hi.ensured_name hmem'
    refine ⟨by simp, ?_⟩
    constructor
    · intro he
      rw [Option.some.inj he] at hname
      exact Option.some.inj (hname.symm.trans hname')
    · intro he
      rw [he] at hname
      rw [handle_unique hi.nodup hname hname']
  · intro handle hr line bp
    exact ⟨fun b => hi.read hr line bp b, readBreakpoint_false⟩
  · intro op handle hop handle' hne line bp
    exact readBreakpoint_others hop hne line bp

end

/-! ## Two spellings of one name -/

/-- The lower case of an ASCII letter. -/
def lowerByte (b : UInt8) : UInt8 := if 65 ≤ b ∧ b ≤ 90 then b + 32 else b

theorem lowerByte_idem (b : UInt8) : lowerByte (lowerByte b) = lowerByte b := by
  unfold lowerByte
  by_cases hb : 65 ≤ b ∧ b ≤ 90
  · have hnot : ¬ (65 ≤ b + 32 ∧ b + 32 ≤ 90) := by
      simp only [UInt8.le_iff_toNat_le, UInt8.toNat_add] at hb ⊢
      simp at hb ⊢
      omega
    rw [if_pos hb, if_neg hnot]
  · rw [if_neg hb, if_neg hb]

/-- `A.nut` is ensured and given a breakpoint; `a.NUT` is then the same file. -/
def twoSpellings : List Lbl :=
  [⟨.ensureFileNameHandle [65, 46, 110, 117, 116], .handle (some 0)⟩,
    ⟨.addAll (some 0) [⟨1, 5⟩], .done⟩,
    ⟨.ensureFileNameHandle [97, 46, 78, 85, 84], .handle (some 0)⟩]

theorem map_refines_twoSpellings :
    ∃ m, Refines (List.map lowerByte) m twoSpellings ∧
      m.readBreakpoint (some 0) 5 {} = (true, ⟨1, 5⟩) :=
  ⟨_, map_refines (fun name => by simp [lowerByte_idem])
    ⟨_, twoSpellings, rfl, .cons (t := (_, _)) ⟨.inl rfl, rfl, rfl⟩
      (.cons (t := (_, _)) ⟨.inr ⟨_, List.mem_cons_self, rfl⟩, rfl, rfl⟩
        (.single ⟨.inl rfl, rfl, rfl⟩))⟩, rfl⟩

end Sdb.L1.BreakpointMap
