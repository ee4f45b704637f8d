import Sdb.L1Data.Decimal
import Sdb.L4Display.FrameNumbers
import Sdb.L4Display.Edit

/-!
# Path text and path parts

A path is the text of its parts in decimal, with commas between (`pathText`);
`pathParts` decodes it, through the 32 bits of `stoi`. What it decodes is navigated
with, whether the text was written that way or not, and a negative number reaches
`sq_next` (`handed`).

* `pathParts_pathText`: the parts come back exactly if each fits in an `int`;
* `rejected_iff`: a data command answers a path text with `InvalidParameter`, and
  no negative iterator, exactly if it is `Unusable`: every component has a number
  in front, and these numbers lead nowhere.
-/
namespace Sdb.L4

open Sdb.L1 Sdb.L3 Sdb.Exec

/-! ## The text of a path -/

def pathText : List UInt64 → Bytes
  | [] => []
  | [part] => intText (part.toNat : Int)
  | part :: part' :: parts =>
    intText (part.toNat : Int) ++ kPathSeparator :: pathText (part' :: parts)

theorem separator_notMem_intText (n : Nat) : kPathSeparator ∉ intText (n : Int) := by
  intro hmem
  have hdigit := isDigit_of_mem_intText hmem
  cases hdigit

theorem splitPath_pathText {parts : List UInt64} (hne : parts ≠ []) :
    splitPath kPathSeparator (pathText parts) =
      parts.map fun part => intText (part.toNat : Int) := by
  induction parts with
  | nil => exact absurd rfl hne
  | cons part parts ih =>
    cases parts with
    | nil => exact splitPath_of_notMem (separator_notMem_intText part.toNat)
    | cons part' parts =>
      rw [pathText, splitPath_append, splitPath_of_notMem (separator_notMem_intText part.toNat),
        ih (by simp)]
      rfl

/-- What `stoi` makes of the text of a part. -/
theorem decode_part (part : UInt64) :
    (stoi (intText (part.toNat : Int))).map UInt64.ofInt =
      if part.toNat ≤ 2147483647 then some part else none := by
  rw [stoi_intText]
  by_cases hle : part.toNat ≤ 2147483647
  · rw [if_pos hle, if_pos (by omega), Option.map_some, ofInt_natCast part.toNat_lt]
    simp
  · rw [if_neg hle, if_neg (by omega)]
    rfl

theorem mapM_some_self_iff {α : Type} {f : α → Option α} {as : List α} :
    as.mapM f = some as ↔ ∀ a ∈ as, f a = some a := by
  induction as with
  | nil => simp
  | cons a as ih =>
    rw [List.mapM_cons]
    simp only [Option.bind_eq_bind, Option.bind_eq_some_iff, Option.pure_def, Option.some.injEq,
      List.cons.injEq, List.forall_mem_cons]
    constructor
    · intro h
      obtain ⟨b, hb, bs, hbs, rfl, rfl⟩ := h
      exact ⟨hb, ih.mp hbs⟩
    · intro h
      obtain ⟨ha, has⟩ := h
      exact ⟨a, ha, as, ih.mpr has, rfl, rfl⟩

/-- Both decoders of the source are `pathParts`. -/
theorem pathParts_pathText {parts : List UInt64} (hne : parts ≠ []) :
    pathParts (pathText parts) = some parts ↔ ∀ part ∈ parts, part.toNat ≤ 2147483647 := by
  have hdecode : pathParts (pathText parts) =
      parts.mapM fun part => if part.toNat ≤ 2147483647 then some part else none := by
    rw [pathParts, splitPath_pathText hne, List.mapM_map]
    simp only [Function.comp_def, decode_part]
  rw [hdecode, mapM_some_self_iff]
  refine forall₂_congr fun part _ => ?_
  by_cases hle : part.toNat ≤ 2147483647 <;> simp [hle]

/-! ## One part of a path -/

section
variable {H : Type} (api : SqApi H)

/-- Where a part leads from `o`: the heap afterwards, and the object with what is
pushed below it. -/
def follow (h : H) (o : SqObject) (part : UInt64) : H × Option (SqObject × List SqObject) :=
  match o with
  | .array _ =>
    if api.getsize h o ≤ toInt part then (h, none)
    else
      ((api.get h o (.integer (toInt part))).1,
        (api.get h o (.integer (toInt part))).2.map fun v => (v, []))
  | .table _ | .instance_ _ =>
    ((api.advance h o (.integer (toSqInteger part))).1,
      (api.advance h o (.integer (toSqInteger part))).2.map fun (key, v, iter) => (v, [key, iter]))
  | _ => (h, none)

/-- The iterator `sq_next` is called with for a part. -/
def iteratorFor (o : SqObject) (part : UInt64) : List Int :=
  match o with
  | .table _ | .instance_ _ => [toSqInteger part]
  | _ => []

/-- The iterators `WithVariableAtPath` hands to `sq_next` on its way. -/
def handed : H → SqObject → List UInt64 → List Int
  | _, _, [] => []
  | h, o, part :: path =>
    iteratorFor o part ++
      match follow api h o part with
      | (h', some (v, _)) => handed h' v path
      | (_, none) => []

/-- The path leads nowhere, which is found out without a negative iterator; or it
ends at an object with `Q`. -/
inductive Nowhere (Q : SqObject → Prop) : H → SqObject → List UInt64 → Prop where
  | here {h : H} {o : SqObject} (hq : Q o) : Nowhere Q h o []
  | stop {h h' : H} {o : SqObject} {part : UInt64} {path : List UInt64}
      (hnonneg : ∀ i ∈ iteratorFor o part, 0 ≤ i) (hf : follow api h o part = (h', none)) :
      Nowhere Q h o (part :: path)
  | on {h h' : H} {o v : SqObject} {part : UInt64} {path : List UInt64} {pushed : List SqObject}
      (hnonneg : ∀ i ∈ iteratorFor o part, 0 ≤ i)
      (hf : follow api h o part = (h', some (v, pushed))) (hrest : Nowhere Q h' v path) :
      Nowhere Q h o (part :: path)

variable {api} {α : Type} {fn : VmM H (Except ReturnCode α)} {h h' : H} {o v : SqObject}
variable {part : UInt64} {path : List UInt64} {pushed below : List SqObject} {faults : List Fault}

/-- With nowhere to go the navigation is refused. -/
theorem gives_stop (hf : follow api h o part = (h', none)) :
    Gives (withVariableAtPath api fn (part :: path)) h [o] (.error .invalidParameter) h' [o] := by
  have htype : Gives (sqGettype 1) h [o] o.type h [o] := gives_sqGettype rfl
  have hslot : ∀ i, ((api.advance h o (.integer i)).1, (api.advance h o (.integer i)).2.map
      fun (key, v, iter) => (v, [key, iter])) = (h', none) →
      Gives (sqNext api 2) h [.integer i, o] false h' [.integer i, o] := by
    intro i hi
    rw [Prod.mk.injEq, Option.map_eq_none_iff] at hi
    exact gives_sqNext_none api rfl (Prod.ext hi.1 hi.2)
  cases o with
  | array a =>
    refine htype.bind ((gives_sqGetsize api rfl).bind ?_)
    unfold follow at hf
    dsimp only at hf
    split at hf
    · rename_i hsize
      obtain ⟨rfl, -⟩ := Prod.mk.inj hf
      rw [if_pos hsize]
      exact gives_pure _
    · rename_i hsize
      rw [if_neg hsize]
      rw [Prod.mk.injEq, Option.map_eq_none_iff] at hf
      have hget : Gives (sqGet api 2) h [.integer (toInt part), .array a] false h' [.array a] :=
        gives_sqGet_none api rfl (Prod.ext hf.1 hf.2)
      exact (gives_sqPushobject _).bind (hget.bind (gives_pure _))
  | table a =>
    have hnext := hslot _ hf
    exact htype.bind ((gives_sqPushobject _).bind (hnext.bind (gives_sqPoptop.bind (gives_pure _))))
  | instance_ a =>
    have hnext := hslot _ hf
    exact htype.bind ((gives_sqPushobject _).bind (hnext.bind (gives_sqPoptop.bind (gives_pure _))))
  | _ =>
    obtain ⟨rfl, -⟩ := Prod.mk.inj hf
    exact htype.bind (gives_pure _)

/-- The rest of the path is walked with the next object on top. -/
theorem run_on (hf : follow api h o part = (h', some (v, pushed))) :
    (withVariableAtPath api fn (part :: path)).run ⟨o :: below, h, faults⟩ =
      (do
        let rc ← withVariableAtPath api fn path
        sqPop (v :: pushed).length
        return rc : VmM H (Except ReturnCode α)).run ⟨v :: pushed ++ o :: below, h', faults⟩ := by
  have htype : Gives (sqGettype 1) h [o] o.type h [o] := gives_sqGettype rfl
  have hslot : ∀ i, ((api.advance h o (.integer i)).1, (api.advance h o (.integer i)).2.map
      fun (key, v, iter) => (v, [key, iter])) = (h', some (v, pushed)) →
      ∃ key iter, pushed = [key, iter] ∧
        Gives (sqNext api 2) h [.integer i, o] true h' [v, key, iter, o] := by
    intro i hi
    rw [Prod.mk.injEq, Option.map_eq_some_iff] at hi
    obtain ⟨hheap, ⟨key, v', iter⟩, hnext, heq⟩ := hi
    obtain ⟨rfl, rfl⟩ := Prod.mk.inj heq
    exact ⟨key, iter, rfl, gives_sqNext api rfl (Prod.ext hheap hnext)⟩
  cases o with
  | array a =>
    unfold follow at hf
    dsimp only at hf
    split at hf
    · cases (Prod.mk.inj hf).2
    · rename_i hsize
      rw [Prod.mk.injEq, Option.map_eq_some_iff] at hf
      obtain ⟨hheap, v', hget, heq⟩ := hf
      obtain ⟨rfl, rfl⟩ := Prod.mk.inj heq
      have hsized : Gives (sqGetsize api 1) h [.array a] (api.getsize h (.array a)) h [.array a] :=
        gives_sqGetsize api rfl
      have hpush : Gives (sqPushobject (.integer (toInt part))) h [.array a] () h
        [.integer (toInt part), .array a] := gives_sqPushobject _
      have hget : Gives (sqGet api 2) h [.integer (toInt part), .array a] true h' [v', .array a] :=
        gives_sqGet api rfl (Prod.ext hheap hget)
      refine (htype.run_bind _ below faults).trans ((hsized.run_bind _ below faults).trans ?_)
      rw [if_neg hsize]
      exact (hpush.run_bind _ below faults).trans (hget.run_bind _ below faults)
  | table a =>
    obtain ⟨key, iter, rfl, hnext⟩ := hslot _ hf
    have hpush : Gives (sqPushobject (.integer (toSqInteger part))) h [.table a] () h
      [.integer (toSqInteger part), .table a] := gives_sqPushobject _
    exact (htype.run_bind _ below faults).trans
      ((hpush.run_bind _ below faults).trans (hnext.run_bind _ below faults))
  | instance_ a =>
    obtain ⟨key, iter, rfl, hnext⟩ := hslot _ hf
    have hpush : Gives (sqPushobject (.integer (toSqInteger part))) h [.instance_ a] () h
      [.integer (toSqInteger part), .instance_ a] := gives_sqPushobject _
    exact (htype.run_bind _ below faults).trans
      ((hpush.run_bind _ below faults).trans (hnext.run_bind _ below faults))
  | _ => cases (Prod.mk.inj hf).2

theorem returns_on_iff (hf : follow api h o part = (h', some (v, pushed)))
    {rc : Except ReturnCode α} {t : SqVm H} :
    Returns (withVariableAtPath api fn (part :: path)) ⟨o :: below, h, faults⟩ rc t ↔
      ∃ u, Returns (withVariableAtPath api fn path) ⟨v :: pushed ++ o :: below, h', faults⟩ rc u ∧
        (v :: pushed).length ≤ u.stack.length ∧
        t = { u with stack := u.stack.drop (v :: pushed).length } := by
  rw [← returns_thenPop_iff]
  unfold Returns
  rw [run_on hf]

/-! ## The way of a path -/

variable {Q : SqObject → Prop}

/-- The answer is `InvalidParameter`, and the stack is as it was. -/
theorem Nowhere.returns (hn : Nowhere api Q h o path)
    (hQ : ∀ v below h, below ≠ [] → Q v → Returns fn ⟨v :: below, h, faults⟩
      (.error .invalidParameter) ⟨v :: below, h, faults⟩)
    (hbelow : below ≠ [] ∨ path ≠ [] ∨ ∀ v, ¬ Q v) :
    ∃ h', Returns (withVariableAtPath api fn path) ⟨o :: below, h, faults⟩
      (.error .invalidParameter) ⟨o :: below, h', faults⟩ := by
  induction hn generalizing below with
  | @here h o hq =>
    refine ⟨h, hQ o below h ?_ hq⟩
    rcases hbelow with hne | hne | hnot
    · exact hne
    · exact absurd rfl hne
    · exact absurd hq (hnot o)
  | stop hnonneg hf => exact ⟨_, gives_stop hf below faults⟩
  | @on h h' o v part path pushed hnonneg hf hrest ih =>
    have hbelow' : pushed ++ o :: below ≠ [] := by simp
    obtain ⟨h'', hret⟩ := ih (.inl hbelow')
    refine ⟨h'', (returns_on_iff hf).mpr ⟨_, hret, by simp, ?_⟩⟩
    simp

theorem Nowhere.nonneg (hn : Nowhere api Q h o path) : ∀ i ∈ handed api h o path, 0 ≤ i := by
  induction hn with
  | here hq =>
    intro i hi
    cases hi
  | stop hnonneg hf =>
    intro i hi
    rw [handed, hf, List.append_nil] at hi
    exact hnonneg i hi
  | on hnonneg hf hrest ih =>
    intro i hi
    rw [handed, hf] at hi
    rcases List.mem_append.mp hi with hi | hi
    · exact hnonneg i hi
    · exact ih i hi

theorem nowhere_of_returns {t : SqVm H}
    (hfn : ∀ v below h t, Returns fn ⟨v :: below, h, faults⟩ (.error .invalidParameter) t → Q v)
    (hret : Returns (withVariableAtPath api fn path) ⟨o :: below, h, faults⟩
      (.error .invalidParameter) t) (hnonneg : ∀ i ∈ handed api h o path, 0 ≤ i) :
    Nowhere api Q h o path := by
  induction path generalizing h o below t with
  | nil => exact .here (hfn o below h t hret)
  | cons part path ih =>
    have hpart : ∀ i ∈ iteratorFor o part, 0 ≤ i :=
      fun i hi => hnonneg i (List.mem_append_left _ hi)
    cases hf : follow api h o part with
    | mk h' next =>
      cases next with
      | none => exact .stop hpart hf
      | some p =>
        obtain ⟨v, pushed⟩ := p
        obtain ⟨u, hu, -⟩ := (returns_on_iff hf).mp hret
        refine .on hpart hf (ih hu fun i hi => hnonneg i ?_)
        rw [handed, hf]
        exact List.mem_append_right _ hi

variable (api) in
/-- The other VM answers the same, but for negative iterators. -/
structure AgreesFromZero (api' : SqApi H) : Prop where
  getsize : api'.getsize = api.getsize
  get : api'.get = api.get
  advance : ∀ h o i, 0 ≤ i → api'.advance h o (.integer i) = api.advance h o (.integer i)

theorem AgreesFromZero.follow_eq {api' : SqApi H} (ha : AgreesFromZero api api')
    (hnonneg : ∀ i ∈ iteratorFor o part, 0 ≤ i) : follow api' h o part = follow api h o part := by
  cases o with
  | array a => simp only [follow, ha.getsize, ha.get]
  | table a => simp only [follow, ha.advance h _ _ (hnonneg _ List.mem_cons_self)]
  | instance_ a => simp only [follow, ha.advance h _ _ (hnonneg _ List.mem_cons_self)]
  | _ => rfl

/-- `handed` misses no iterator: with none of them negative, what the VM does with
negative iterators does not matter. -/
theorem AgreesFromZero.run_eq {api' : SqApi H} (ha : AgreesFromZero api api')
    (hnonneg : ∀ i ∈ handed api h o path, 0 ≤ i) :
    (withVariableAtPath api' fn path).run ⟨o :: below, h, faults⟩ =
      (withVariableAtPath api fn path).run ⟨o :: below, h, faults⟩ := by
  induction path generalizing h o below with
  | nil => rfl
  | cons part path ih =>
    have hfollow := ha.follow_eq (h := h) fun i hi => hnonneg i (List.mem_append_left _ hi)
    cases hf : follow api h o part with
    | mk h' next =>
      rw [hf] at hfollow
      cases next with
      | none =>
        have hstop : Returns (withVariableAtPath api fn (part :: path)) _ _ _ :=
          gives_stop hf below faults
        exact (gives_stop hfollow below faults).trans hstop.symm
      | some p =>
        obtain ⟨v, pushed⟩ := p
        have hrest : ∀ i ∈ handed api h' v path, 0 ≤ i := by
          intro i hi
          refine hnonneg i ?_
          rw [handed, hf]
          exact List.mem_append_right _ hi
        rw [run_on hf, run_on hfollow, EStateM.run_bind, EStateM.run_bind, List.cons_append,
          ih hrest]

/-! ## What the commands run at the end of a path -/

variable {lib : CppLib} {r : Renderer H} {text : Bytes}

theorem listing_ne_error {fuel : Nat} {pagination : PaginationInfo} {s t : SqVm H}
    {rc : ReturnCode} : ¬ Returns (do
      return .ok (← createChildVariables api lib r fuel pagination) :
        VmM H (Except ReturnCode (List Variable))) s (.error rc) t := by
  intro hret
  obtain ⟨vars, u, -, hpure⟩ := returns_bind_iff.mp hret
  cases (returns_pure_iff.mp hpure).1

theorem updateFromString_invalid {k : Nat} {s t : SqVm H} {below : List SqObject}
    (hs : s.stack = v :: below)
    (hret : Returns (updateFromString api lib k text) s .invalidParameter t) :
    parseValue lib text v = none := by
  obtain ⟨o, u, hobject, hrest⟩ := returns_bind_iff.mp hret
  obtain ⟨hslot, rfl⟩ := returns_sqGetstackobj hobject
  rw [hs] at hslot
  obtain rfl : v = o := Option.some.inj hslot
  cases hp : parseValue lib text v with
  | none => rfl
  | some new =>
    rw [hp] at hrest
    obtain ⟨_, u, -, hrest⟩ := returns_bind_iff.mp hrest
    obtain ⟨_, u, -, hrest⟩ := returns_bind_iff.mp hrest
    obtain ⟨done, u, -, hrest⟩ := returns_bind_iff.mp hrest
    cases done with
    | false => cases (returns_pure_iff.mp hrest).1
    | true => cases (returns_pure_iff.mp hrest).1

theorem replaceValue_invalid {t : SqVm H}
    (hret : Returns (replaceValue api lib r text) ⟨v :: below, h, faults⟩
      (.error .invalidParameter) t) : parseValue lib text v = none := by
  obtain ⟨key, u, hkey, hrest⟩ := returns_bind_iff.mp hret
  obtain ⟨-, rfl⟩ := returns_sqGetstackobj hkey
  obtain ⟨rc, u, hupdate, hrest⟩ := returns_bind_iff.mp hrest
  cases rc with
  | success =>
    obtain ⟨_, u, -, hrest⟩ := returns_bind_iff.mp hrest
    obtain ⟨_, u, -, hrest⟩ := returns_bind_iff.mp hrest
    obtain ⟨found, u, -, hrest⟩ := returns_bind_iff.mp hrest
    cases found with
    | false =>
      obtain ⟨_, u, -, hrest⟩ := returns_bind_iff.mp hrest
      cases (returns_pure_iff.mp hrest).1
    | true =>
      obtain ⟨shown, u, -, hrest⟩ := returns_bind_iff.mp hrest
      cases (returns_pure_iff.mp hrest).1
  | invalidParameter => exact updateFromString_invalid rfl hupdate
  | _ => cases (returns_pure_iff.mp hrest).1

theorem returns_replaceValue (hbelow : below ≠ []) (hp : parseValue lib text v = none) :
    Returns (replaceValue api lib r text) ⟨v :: below, h, faults⟩ (.error .invalidParameter)
      ⟨v :: below, h, faults⟩ := by
  obtain ⟨key, rest, rfl⟩ := List.exists_cons_of_ne_nil hbelow
  have hgives : Gives (replaceValue api lib r text) h [v, key] (.error .invalidParameter) h
    [v, key] := gives_replaceValue_none r hp
  exact hgives rest faults

end

/-! ## The commands -/

section
variable {H : Type} (api : SqApi H) (lib : CppLib)

/-- The path text of a command that takes one. -/
def pathOf : L2.DataCall → Option Bytes
  | .getStackVariables _ path _ => some path
  | .getGlobalVariables path _ => some path
  | .setStackVariableValue _ path _ => some path
  | .getImmediateValue .. => none

/-- The iterators handed to `sq_next` on the way from a local. -/
def handedViaLocal (h : H) (stackFrame : UInt32) (path : Bytes) : List Int :=
  match pathParts path with
  | none => []
  | some parts =>
    match api.getlocal h stackFrame.toNat (parts.headD 0).toNat with
    | none => []
    | some (_, o) => handed api h o parts.tail

/-- The iterators a command hands to `sq_next` for the path it is given. -/
def handedTo (h : H) : L2.DataCall → List Int
  | .getStackVariables stackFrame path _ => handedViaLocal api h stackFrame path
  | .getGlobalVariables path _ =>
    match pathParts path with
    | none => []
    | some parts => handed api h (.table (api.roottable h)) parts
  | .setStackVariableValue stackFrame path _ => handedViaLocal api h stackFrame path
  | .getImmediateValue .. => []

/-- Every component has a number in front; the first is of no local, or of one from
which the others have `P`. -/
def ViaLocal (h : H) (stackFrame : UInt32) (path : Bytes)
    (P : SqObject → List UInt64 → Prop) : Prop :=
  ∃ parts, pathParts path = some parts ∧
    (api.getlocal h stackFrame.toNat (parts.headD 0).toNat = none ∨
      ∃ name o, api.getlocal h stackFrame.toNat (parts.headD 0).toNat = some (name, o) ∧
        P o parts.tail)

/-- Every component has a number in front, and with these numbers the command has
nothing to work on. -/
def Unusable (h : H) : L2.DataCall → Prop
  | .getStackVariables stackFrame path _ =>
    ViaLocal api h stackFrame path (Nowhere api (fun _ => False) h)
  | .getGlobalVariables path _ => ∃ parts, pathParts path = some parts ∧
      Nowhere api (fun _ => False) h (.table (api.roottable h)) parts
  | .setStackVariableValue stackFrame path text =>
    ViaLocal api h stackFrame path fun o rest =>
      rest = [] ∨ Nowhere api (fun v => parseValue lib text v = none) h o rest
  | .getImmediateValue .. => False

variable (fuel : Nat) (strToLower : Bytes → Bytes) (populateStack : SqVm H → List StackEntry)

/-- The command is of a frame past `currentStack`. -/
def FrameOut (s : L2.State (SqVm H)) : L2.DataCall → Prop
  | .getStackVariables stackFrame _ _ => s.vmData.currentStack.length < stackFrame.toNat
  | .setStackVariableValue stackFrame _ _ => s.vmData.currentStack.length < stackFrame.toNat
  | _ => False

/-- The command returns `InvalidParameter`, and hands no negative iterator to the VM
if it gets as far as the path. -/
def Rejected (s : L2.State (SqVm H)) (call : L2.DataCall) : Prop :=
  (∃ s' res, L2.dataCommand (squirrelAccess api lib fuel strToLower populateStack) s call =
    some (s', res) ∧ codeOf res = some .invalidParameter) ∧
  (¬ FrameOut s call → ∀ i ∈ handedTo api s.script.heap call, 0 ≤ i)

variable {api lib fuel strToLower populateStack}

/-- What a command on a local answers, after the text has been read. -/
theorem invalid_viaLocal_iff {α : Type} {stackFrame : UInt32} {path : Bytes} (hpath : path ≠ [])
    {g : List UInt64 → VmM H (Except ReturnCode α)} {v : SqVm H} :
    (∃ t, Returns (withStackVariables api stackFrame path g) v (.error .invalidParameter) t) ↔
      ∃ parts, pathParts path = some parts ∧
        (api.getlocal v.heap stackFrame.toNat (parts.headD 0).toNat = none ∨
          ∃ name o, api.getlocal v.heap stackFrame.toNat (parts.headD 0).toNat = some (name, o) ∧
            ∃ t, Returns (g parts) ⟨o :: v.stack, v.heap, v.faults⟩ (.error .invalidParameter) t ∧
              1 ≤ t.stack.length) := by
  cases hparts : pathParts path with
  | none =>
    refine iff_of_false ?_ ?_
    · intro hret
      obtain ⟨t, hret⟩ := hret
      unfold withStackVariables at hret
      rw [if_neg hpath, hparts] at hret
      cases hret
    · intro hsome
      obtain ⟨parts, hsome, -⟩ := hsome
      cases hsome
  | some parts =>
    cases hlocal : api.getlocal v.heap stackFrame.toNat (parts.headD 0).toNat with
    | none =>
      refine iff_of_true ⟨v, ?_⟩ ⟨parts, rfl, .inl hlocal⟩
      have hread : Returns (sqGetlocal api stackFrame.toNat (parts.headD 0).toNat) v none v :=
        returns_sqGetlocal_iff.mpr (.inl ⟨hlocal, rfl, rfl⟩)
      unfold withStackVariables
      rw [if_neg hpath, hparts]
      exact hread.bind rfl
    | some p =>
      obtain ⟨name, o⟩ := p
      constructor
      · intro hret
        obtain ⟨t, hret⟩ := hret
        obtain ⟨u, hu, hle, -⟩ := (returns_withStackVariables_iff hparts hlocal).mp hret
        exact ⟨parts, rfl, .inr ⟨name, o, hlocal, u, hu, hle⟩⟩
      · intro hret
        obtain ⟨parts', heq, hret⟩ := hret
        obtain rfl := Option.some.inj heq
        rcases hret with hnone | ⟨name', o', hsome, u, hu, hle⟩
        · cases hlocal.symm.trans hnone
        · obtain ⟨rfl, rfl⟩ := Prod.mk.inj (Option.some.inj (hlocal.symm.trans hsome))
          exact ⟨_, (returns_withStackVariables_iff hparts hlocal).mpr ⟨u, hu, hle, rfl⟩⟩

/-- On the way from a local. -/
theorem handedViaLocal_eq {h : H} {stackFrame : UInt32} {path name : Bytes}
    {parts : List UInt64} {o : SqObject} (hparts : pathParts path = some parts)
    (hlocal : api.getlocal h stackFrame.toNat (parts.headD 0).toNat = some (name, o)) :
    handedViaLocal api h stackFrame path = handed api h o parts.tail := by
  unfold handedViaLocal
  rw [hparts]
  dsimp only
  rw [hlocal]

theorem handedViaLocal_none {h : H} {stackFrame : UInt32} {path : Bytes}
    {parts : List UInt64} (hparts : pathParts path = some parts)
    (hlocal : api.getlocal h stackFrame.toNat (parts.headD 0).toNat = none) :
    handedViaLocal api h stackFrame path = [] := by
  unfold handedViaLocal
  rw [hparts]
  dsimp only
  rw [hlocal]

/-- A command on a local: `g` answers `InvalidParameter`, with no negative iterator,
where the path has `P`. -/
theorem viaLocal_iff {α : Type} {stackFrame : UInt32} {path : Bytes} (hpath : path ≠ [])
    {g : List UInt64 → VmM H (Except ReturnCode α)} {v : SqVm H}
    {P : SqObject → List UInt64 → Prop}
    (hP : ∀ o parts, ((∃ t, Returns (g parts) ⟨o :: v.stack, v.heap, v.faults⟩
      (.error .invalidParameter) t ∧ 1 ≤ t.stack.length) ∧
        ∀ i ∈ handed api v.heap o parts.tail, 0 ≤ i) ↔ P o parts.tail) :
    ((∃ t, Returns (withStackVariables api stackFrame path g) v (.error .invalidParameter) t) ∧
      ∀ i ∈ handedViaLocal api v.heap stackFrame path, 0 ≤ i) ↔
      ViaLocal api v.heap stackFrame path P := by
  rw [invalid_viaLocal_iff hpath]
  constructor
  · intro hret
    obtain ⟨⟨parts, hparts, hlocal⟩, hnonneg⟩ := hret
    refine ⟨parts, hparts, ?_⟩
    rcases hlocal with hnone | ⟨name, o, hsome, hg⟩
    · exact .inl hnone
    · rw [handedViaLocal_eq hparts hsome] at hnonneg
      exact .inr ⟨name, o, hsome, (hP o parts).mp ⟨hg, hnonneg⟩⟩
  · intro hfrom
    obtain ⟨parts, hparts, hlocal⟩ := hfrom
    rcases hlocal with hnone | ⟨name, o, hsome, hp⟩
    · refine ⟨⟨parts, hparts, .inl hnone⟩, ?_⟩
      rw [handedViaLocal_none hparts hnone]
      intro i hi
      cases hi
    · obtain ⟨hg, hnonneg⟩ := (hP o parts).mpr hp
      rw [handedViaLocal_eq hparts hsome]
      exact ⟨⟨parts, hparts, .inr ⟨name, o, hsome, hg⟩⟩, hnonneg⟩

/-- A listing is answered so where the path leads nowhere. -/
theorem listing_iff {h : H} {o : SqObject} {below : List SqObject} {faults : List Fault}
    {path : List UInt64} {pagination : PaginationInfo} :
    ((∃ t, Returns (createChildVariablesFromIterable api lib (renderer api lib fuel) fuel path
      pagination) ⟨o :: below, h, faults⟩ (.error .invalidParameter) t ∧ 1 ≤ t.stack.length) ∧
        ∀ i ∈ handed api h o path, 0 ≤ i) ↔ Nowhere api (fun _ => False) h o path := by
  constructor
  · intro hret
    obtain ⟨⟨t, hret, -⟩, hnonneg⟩ := hret
    exact nowhere_of_returns (fun v below h t hfn => listing_ne_error hfn) hret hnonneg
  · intro hn
    obtain ⟨h', hret⟩ := hn.returns (fun v below h _ hq => hq.elim) (.inr (.inr fun v hq => hq))
    exact ⟨⟨_, hret, by simp⟩, hn.nonneg⟩

/-- Setting a value is answered so with nothing to set, or with a text that is no value
of the type there. -/
theorem setting_iff {h : H} {o : SqObject} {below : List SqObject} {faults : List Fault}
    {path : List UInt64} {text : Bytes} :
    ((∃ t, Returns (if path = [] then pure (.error .invalidParameter)
        else withVariableAtPath api (replaceValue api lib (renderer api lib fuel) text) path)
          ⟨o :: below, h, faults⟩ (.error .invalidParameter) t ∧ 1 ≤ t.stack.length) ∧
        ∀ i ∈ handed api h o path, 0 ≤ i) ↔
      (path = [] ∨ Nowhere api (fun v => parseValue lib text v = none) h o path) := by
  by_cases hpath : path = []
  · rw [if_pos hpath, hpath]
    refine iff_of_true ⟨⟨_, rfl, by simp⟩, ?_⟩ (.inl rfl)
    intro i hi
    cases hi
  · rw [if_neg hpath]
    constructor
    · intro hret
      obtain ⟨⟨t, hret, -⟩, hnonneg⟩ := hret
      exact .inr (nowhere_of_returns (fun v below h t hfn => replaceValue_invalid hfn) hret
        hnonneg)
    · rintro (hnil | hn)
      · exact absurd hnil hpath
      · obtain ⟨h', hret⟩ := hn.returns (fun v below h hne hq => returns_replaceValue hne hq)
          (.inr (.inl hpath))
        exact ⟨⟨_, hret, by simp⟩, hn.nonneg⟩

/-- The root table is on top while its listing is made. -/
theorem invalid_global_iff {path : Bytes} (hpath : path ≠ []) {parts : List UInt64}
    (hparts : pathParts path = some parts) {pagination : PaginationInfo} {v : SqVm H} :
    (∃ t, Returns (populateGlobalVariables api lib (renderer api lib fuel) fuel path pagination) v
      (.error .invalidParameter) t) ↔
    ∃ t, Returns (createChildVariablesFromIterable api lib (renderer api lib fuel) fuel parts
      pagination) ⟨.table (api.roottable v.heap) :: v.stack, v.heap, v.faults⟩
      (.error .invalidParameter) t ∧ 1 ≤ t.stack.length := by
  have hroot : Returns (sqPushroottable api) v ()
      ⟨.table (api.roottable v.heap) :: v.stack, v.heap, v.faults⟩ := by
    have hgives : Gives (sqPushroottable api) v.heap [] () v.heap [.table (api.roottable v.heap)] :=
      gives_sqPushroottable api
    exact hgives v.stack v.faults
  unfold populateGlobalVariables
  rw [if_neg hpath, hparts]
  constructor
  · intro hret
    obtain ⟨t, hret⟩ := hret
    obtain ⟨_, u, hu, hrest⟩ := returns_bind_iff.mp hret
    obtain ⟨-, rfl⟩ := hroot.unique hu
    obtain ⟨w, hw, hle, -⟩ := returns_thenPop_iff.mp hrest
    exact ⟨w, hw, hle⟩
  · intro hret
    obtain ⟨w, hw, hle⟩ := hret
    exact ⟨_, hroot.bind (returns_thenPop_iff.mpr ⟨w, hw, hle, rfl⟩)⟩

theorem unusable_iff {call : L2.DataCall} {path : Bytes} (hcall : pathOf call = some path)
    (hpath : path ≠ []) {v : SqVm H} :
    ((∃ t, Returns (dataCall api lib (renderer api lib fuel) fuel call) v .invalidParameter t) ∧
      ∀ i ∈ handedTo api v.heap call, 0 ≤ i) ↔ Unusable api lib v.heap call := by
  cases call with
  | getStackVariables stackFrame path' pagination =>
    obtain rfl := Option.some.inj hcall
    simp only [dataCall, returns_returnCode_iff, populateStackVariables, if_neg hpath]
    exact viaLocal_iff hpath fun o parts => listing_iff
  | getGlobalVariables path' pagination =>
    obtain rfl := Option.some.inj hcall
    simp only [dataCall, returns_returnCode_iff, handedTo, Unusable]
    cases hparts : pathParts path' with
    | none =>
      refine iff_of_false ?_ (by simp)
      intro hret
      obtain ⟨⟨t, hret⟩, -⟩ := hret
      unfold populateGlobalVariables at hret
      rw [if_neg hpath, hparts] at hret
      cases hret
    | some parts =>
      rw [invalid_global_iff hpath hparts]
      simp only [Option.some.injEq, exists_eq_left']
      exact listing_iff
  | setStackVariableValue stackFrame path' text =>
    obtain rfl := Option.some.inj hcall
    simp only [dataCall, returns_returnCode_iff, setStackVariableValue, handedTo, Unusable]
    exact viaLocal_iff hpath fun o parts => setting_iff
  | getImmediateValue stackFrame watch pagination => cases hcall

variable {s : L2.State (SqVm H)}

theorem refused_of_frameOut (hp : s.pauseMutexData.isPaused = true) {call : L2.DataCall}
    (hout : FrameOut s call) :
    L2.refused (squirrelAccess api lib fuel strToLower populateStack) s call =
      some .invalidParameter := by
  cases call with
  | getStackVariables stackFrame path pagination =>
    have hlt : s.vmData.currentStack.length < stackFrame.toNat := hout
    simp [L2.refused, hp, hlt]
  | setStackVariableValue stackFrame path text =>
    have hlt : s.vmData.currentStack.length < stackFrame.toNat := hout
    simp [L2.refused, hp, hlt]
  | _ => exact hout.elim

theorem not_refused (hp : s.pauseMutexData.isPaused = true) {call : L2.DataCall} {path : Bytes}
    (hcall : pathOf call = some path) (hin : ¬ FrameOut s call) :
    L2.refused (squirrelAccess api lib fuel strToLower populateStack) s call = none := by
  cases call with
  | getStackVariables stackFrame path pagination =>
    have hle : ¬ s.vmData.currentStack.length < stackFrame.toNat := hin
    simp [L2.refused, hp, hle]
  | getGlobalVariables path pagination => simp [L2.refused, hp]
  | setStackVariableValue stackFrame path text =>
    have hle : ¬ s.vmData.currentStack.length < stackFrame.toNat := hin
    simp [L2.refused, hp, hle]
  | getImmediateValue stackFrame watch pagination => cases hcall

theorem rejected_iff (hp : s.pauseMutexData.isPaused = true) {call : L2.DataCall} {path : Bytes}
    (hcall : pathOf call = some path) (hpath : path ≠ []) :
    Rejected api lib fuel strToLower populateStack s call ↔
      FrameOut s call ∨ Unusable api lib s.script.heap call := by
  by_cases hout : FrameOut s call
  · have hrefused : L2.refused (squirrelAccess api lib fuel strToLower populateStack) s call =
      some .invalidParameter := refused_of_frameOut hp hout
    refine iff_of_true ⟨⟨s, .rc .invalidParameter, ?_, rfl⟩, fun hin => absurd hout hin⟩
      (.inl hout)
    unfold L2.dataCommand
    rw [hrefused]
  · unfold Rejected
    rw [code_iff (not_refused hp hcall hout), or_iff_right hout, ← unusable_iff hcall hpath,
      imp_iff_right hout]

variable (api lib fuel strToLower populateStack) in
/-- **Path text and path parts.** The text of a list of parts is decoded to that list
exactly if each part fits in an `int`. Any other text, as any text, is rejected exactly
if the frame is refused, or every component has a number in front and these numbers lead
nowhere. -/
theorem path_text_iff (hp : s.pauseMutexData.isPaused = true) :
    (∀ parts, parts ≠ [] →
      (pathParts (pathText parts) = some parts ↔ ∀ part ∈ parts, part.toNat ≤ 2147483647)) ∧
    ∀ call path, pathOf call = some path → path ≠ [] →
      (Rejected api lib fuel strToLower populateStack s call ↔
        FrameOut s call ∨ Unusable api lib s.script.heap call) :=
  ⟨fun _ hne => pathParts_pathText hne, fun _ _ hcall hpath => rejected_iff hp hcall hpath⟩

end

/-! ## A path that is used and should not be -/

theorem digit_or_separator {parts : List UInt64} {c : UInt8} (hc : c ∈ pathText parts) :
    isDigit c = true ∨ c = kPathSeparator := by
  induction parts with
  | nil => cases hc
  | cons part parts ih =>
    cases parts with
    | nil => exact .inl (isDigit_of_mem_intText hc)
    | cons part' parts =>
      rw [pathText, List.mem_append, List.mem_cons] at hc
      rcases hc with hc | hc | hc
      · exact .inl (isDigit_of_mem_intText hc)
      · exact .inr hc
      · exact ih hc

def frameStack (s : SqVm Heap) : List StackEntry := populateStack (heapFrames s.heap)

/-- `0,5x` starts at a local without a fifth child. -/
theorem path_text_zeroFive : ∃ s, (L2.lts frameAccess).Reachable s ∧
    s.pauseMutexData.isPaused = true ∧ pathParts (pathText [0, 5]) = some [0, 5] ∧
    Rejected heapApi insertionLib 1 id frameStack s
      (.getStackVariables 0 (ascii "0,5x") ⟨0, 8⟩) := by
  obtain ⟨s, hr, hp, -, -, -, hscript⟩ := frame_paused
  have hiff := path_text_iff heapApi insertionLib 1 id frameStack hp
  refine ⟨s, hr, hp, (hiff.1 [0, 5] (by simp)).mpr (by simp), ?_⟩
  refine (hiff.2 _ _ rfl (by decide)).mpr (.inr ?_)
  rw [hscript]
  refine ⟨[0, 5], rfl, .inr ⟨[98], .integer 7, rfl, .stop ?_ rfl⟩⟩
  intro i hi
  cases hi

/-- The text of 2147483648 is not decoded, and `0x` is taken for the path 0. -/
theorem path_text_notDecoded_notRejected :
    (¬ ∀ parts, parts ≠ [] → pathParts (pathText parts) = some parts) ∧
    ¬ ∀ s call path, (L2.lts frameAccess).Reachable s → s.pauseMutexData.isPaused = true →
      pathOf call = some path → path ≠ [] → (∀ parts, parts ≠ [] → path ≠ pathText parts) →
      Rejected heapApi insertionLib 1 id frameStack s call := by
  constructor
  · intro hall
    have hdecoded := (pathParts_pathText (by simp)).mp (hall [2147483648] (by simp))
    exact absurd (hdecoded _ List.mem_cons_self) (by decide)
  · intro hall
    obtain ⟨s, hr, hp, -, -, hmirror, hscript⟩ := frame_paused
    have hother : ∀ parts, parts ≠ [] → ascii "0x" ≠ pathText parts := by
      intro parts _ heq
      have hmem : (120 : UInt8) ∈ pathText parts := heq ▸ (by decide)
      rcases digit_or_separator hmem with hdigit | hsep
      · cases hdigit
      · cases hsep
    have hrejected := hall s (.getStackVariables 0 (ascii "0x") ⟨0, 8⟩) _ hr hp rfl (by decide)
      hother
    rcases (rejected_iff hp rfl (by decide)).mp hrejected with hout | hunusable
    · exact absurd hout (Nat.not_lt_zero _)
    · rw [hscript] at hunusable
      obtain ⟨parts, hparts, hlocal⟩ := hunusable
      obtain rfl : [0] = parts := Option.some.inj hparts
      rcases hlocal with hnone | ⟨name, o, hsome, hnowhere⟩
      · cases hnone
      · cases hnowhere with
        | here hq => exact hq

end Sdb.L4
