import Sdb.L1Data.Message
import Mathlib.Data.List.Nodup
import Mathlib.Data.List.Induction
import Mathlib.Logic.Function.Basic

/-!
# Breakpoints by file and line (`squirrel_debugger/BreakpointMap.{h,cpp}`)

`fileNames_` is a vector of shared strings that only grows, and a
`FileNameHandle` is compared as a pointer. A handle is therefore `none`
(`nullptr`) or the index of its string in `fileNames_`. `breakpoints_` maps a
handle to a map from lines to breakpoints; both maps are partial functions.
`StrToLower` is the platform's and stays a parameter.

* `ensureFileNameHandle_spec`: the handle names the folded text.
* `readLine_setAll`: what `Clear` then `AddAll`, the only writer, leaves on
  each line of each file.
-/
namespace Sdb.L1

/-- `kCaseInsensitivePaths` (BreakpointMap.cpp:19). -/
def kCaseInsensitivePaths : Bool := true

structure Breakpoint where
  id : UInt64 := 0
  line : UInt32 := 0
  deriving DecidableEq, Repr

/-- `std::shared_ptr<std::string>`: `none` is `nullptr`. -/
abbrev FileNameHandle := Option Nat

structure BreakpointMap where
  fileNames : List Bytes := []
  breakpoints : Nat → Option (UInt32 → Option Breakpoint) := fun _ => none

namespace BreakpointMap

variable (strToLower : Bytes → Bytes)

/-- The name a file is stored and looked up under. -/
def foldName (fileName : Bytes) : Bytes :=
  if kCaseInsensitivePaths then strToLower fileName else fileName

def setLines (m : BreakpointMap) (h : Nat) (lines : UInt32 → Option Breakpoint) : BreakpointMap :=
  { m with breakpoints := Function.update m.breakpoints h (some lines) }

/-- mirrors BreakpointMap.cpp:22-35 -/
def clear (m : BreakpointMap) (handle : FileNameHandle) : BreakpointMap :=
  match handle with
  | none => m
  | some h =>
    match m.breakpoints h with
    | none => m
    | some _ => m.setLines h fun _ => none

/-- The loop of `AddAll`: a later breakpoint replaces an earlier one on its line. -/
def addLines (lineToBp : UInt32 → Option Breakpoint) (bps : List Breakpoint) :
    UInt32 → Option Breakpoint :=
  bps.foldl (fun lines bp => Function.update lines bp.line (some bp)) lineToBp

/-- mirrors BreakpointMap.cpp:37-48 -/
def addAll (m : BreakpointMap) (handle : FileNameHandle) (bps : List Breakpoint) :
    BreakpointMap :=
  match handle with
  | none => m
  | some h => m.setLines h (addLines ((m.breakpoints h).getD fun _ => none) bps)

/-- mirrors BreakpointMap.cpp:50-70: the result, and `bp` after the call. -/
def readBreakpoint (m : BreakpointMap) (handle : FileNameHandle) (line : UInt32)
    (bp : Breakpoint) : Bool × Breakpoint :=
  match handle with
  | none => (false, bp)
  | some h =>
    match m.breakpoints h with
    | none => (false, bp)
    | some bpMap =>
      match bpMap line with
      | none => (false, bp)
      | some b => (true, b)

/-- mirrors BreakpointMap.cpp:72-93 -/
def findFileNameHandle (m : BreakpointMap) (fileName : Bytes) : FileNameHandle :=
  m.fileNames.findIdx? (· == foldName strToLower fileName)

/-- mirrors BreakpointMap.cpp:95-113: the map after the call, and the handle. -/
def ensureFileNameHandle (m : BreakpointMap) (fileName : Bytes) : BreakpointMap × FileNameHandle :=
  match m.findFileNameHandle strToLower fileName with
  | some h => (m, some h)
  | none =>
    ({ m with fileNames := m.fileNames ++ [foldName strToLower fileName] },
      some m.fileNames.length)

/-! ## What the operations do to a line -/

/-- The breakpoint of one line of one file. -/
def readLine (m : BreakpointMap) (h : Nat) (line : UInt32) : Option Breakpoint :=
  (m.breakpoints h).bind fun bpMap => bpMap line

theorem readBreakpoint_some (m : BreakpointMap) (h : Nat) (line : UInt32) (bp : Breakpoint) :
    m.readBreakpoint (some h) line bp =
      ((m.readLine h line).isSome, (m.readLine h line).getD bp) := by
  unfold readLine
  simp only [readBreakpoint]
  cases m.breakpoints h with
  | none => rfl
  | some bpMap => cases hl : bpMap line <;> simp [hl]

theorem readLine_setLines (m : BreakpointMap) (h h' : Nat) (lines : UInt32 → Option Breakpoint)
    (line : UInt32) :
    (m.setLines h lines).readLine h' line = if h' = h then lines line else m.readLine h' line := by
  unfold readLine setLines
  by_cases he : h' = h
  · subst he; simp
  · simp [he]

theorem addLines_concat (lines : UInt32 → Option Breakpoint) (bps : List Breakpoint)
    (bp : Breakpoint) :
    addLines lines (bps ++ [bp]) = Function.update (addLines lines bps) bp.line (some bp) := by
  simp [addLines]

/-- `AddAll` leaves the last breakpoint of the list on each line it mentions. -/
theorem addLines_apply (lines : UInt32 → Option Breakpoint) (bps : List Breakpoint)
    (line : UInt32) :
    addLines lines bps line = (bps.reverse.find? (·.line == line)).or (lines line) := by
  induction bps using List.reverseRecOn with
  | nil => rfl
  | append_singleton bps bp ih =>
    rw [addLines_concat, List.reverse_append, List.reverse_singleton, List.singleton_append,
      List.find?_cons]
    by_cases h : line = bp.line
    · subst h
      simp
    · have hne : (bp.line == line) = false := beq_false_of_ne (Ne.symm h)
      rw [Function.update_of_ne h, ih, hne]

/-- A cleared file holds no breakpoint, whether or not it had a map. -/
theorem clear_getD (m : BreakpointMap) (h : Nat) :
    ((m.clear (some h)).breakpoints h).getD (fun _ => none) = fun _ => none := by
  cases hm : m.breakpoints h <;> simp [clear, hm, setLines]

theorem readLine_clear_ne (m : BreakpointMap) {h h' : Nat} (hne : h' ≠ h) (line : UInt32) :
    (m.clear (some h)).readLine h' line = m.readLine h' line := by
  cases hm : m.breakpoints h with
  | none => simp [clear, hm]
  | some lines => simp [clear, hm, readLine_setLines, hne]

/-- `Clear` followed by `AddAll` on one file, the pair `SetFileBreakpoints` runs:
the lines of that file are those of the list, every other file is untouched. -/
theorem readLine_setAll (m : BreakpointMap) (h h' : Nat) (bps : List Breakpoint)
    (line : UInt32) :
    ((m.clear (some h)).addAll (some h) bps).readLine h' line =
      if h' = h then bps.reverse.find? (·.line == line) else m.readLine h' line := by
  simp only [addAll, readLine_setLines, clear_getD, addLines_apply, Option.or_none]
  split
  · rfl
  · rename_i hne
    exact m.readLine_clear_ne hne line

@[simp] theorem clear_fileNames (m : BreakpointMap) (handle : FileNameHandle) :
    (m.clear handle).fileNames = m.fileNames := by
  unfold clear
  split
  · rfl
  · split <;> rfl

@[simp] theorem addAll_fileNames (m : BreakpointMap) (handle : FileNameHandle)
    (bps : List Breakpoint) : (m.addAll handle bps).fileNames = m.fileNames := by
  unfold addAll
  split <;> rfl

/-! ## Handles -/

/-- `EnsureFileNameHandle` returns the index of the folded name, in a map that
extends the old one, holds the same breakpoints and still has distinct names. -/
theorem ensureFileNameHandle_spec (m : BreakpointMap) (fileName : Bytes)
    (hm : m.fileNames.Nodup) :
    ∃ h, (m.ensureFileNameHandle strToLower fileName).2 = some h ∧
      (m.ensureFileNameHandle strToLower fileName).1.fileNames[h]? =
        some (foldName strToLower fileName) ∧
      m.fileNames <+: (m.ensureFileNameHandle strToLower fileName).1.fileNames ∧
      (m.ensureFileNameHandle strToLower fileName).1.breakpoints = m.breakpoints ∧
      (m.ensureFileNameHandle strToLower fileName).1.fileNames.Nodup := by
  unfold ensureFileNameHandle findFileNameHandle
  cases hf : m.fileNames.findIdx? (· == foldName strToLower fileName) with
  | some h =>
    obtain ⟨hlt, heq, -⟩ := List.findIdx?_eq_some_iff_getElem.mp hf
    refine ⟨h, rfl, ?_, List.prefix_refl _, rfl, hm⟩
    rw [List.getElem?_eq_getElem hlt]
    simpa using heq
  | none =>
    have hnot : foldName strToLower fileName ∉ m.fileNames := by
      rw [List.findIdx?_eq_none_iff] at hf
      intro hmem
      simpa using hf _ hmem
    exact ⟨m.fileNames.length, rfl, by simp, List.prefix_append _ _, rfl,
      List.nodup_append.mpr ⟨hm, List.nodup_singleton _, fun a ha b hb e =>
        hnot (List.mem_singleton.mp hb ▸ e ▸ ha)⟩⟩

/-- In a map with distinct names two handles with the same name are equal. -/
theorem handle_unique {m : BreakpointMap} (hm : m.fileNames.Nodup) {h h' : Nat} {n : Bytes}
    (e : m.fileNames[h]? = some n) (e' : m.fileNames[h']? = some n) : h = h' := by
  obtain ⟨hlt, -⟩ := List.getElem?_eq_some_iff.mp e
  exact (List.getElem?_inj hlt hm).mp (e.trans e'.symm)

end BreakpointMap

end Sdb.L1
