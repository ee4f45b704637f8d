import Sdb.L4Display.Listing

/-!
# Writing a slot

`SetStackVariableValue` of a slot of a table or an instance, at any depth. With
`sq_get` and `sq_set` as plain access to slots (`PlainAccess`) it changes that
slot or nothing (`setStackVariableValue_frame`).

* `Writable`: the slot is there, holds a scalar, and the text parses for it;
* `scalarVariable`: what the debugger says of a scalar.
-/
namespace Sdb.L4

open Sdb.L1 Sdb.L3 Sdb.Exec

/-- The values that can be edited. -/
def Scalar : SqObject → Prop
  | .bool _ | .integer _ | .float _ | .string _ => True
  | _ => False

def scalarText (lib : CppLib) : SqObject → Bytes
  | .bool b => if b then ascii "true" else ascii "false"
  | .integer n => intText n
  | .float bits => lib.floatText bits
  | .string s => cstr s
  | _ => []

section
variable {H : Type} (api : SqApi H) (lib : CppLib)

/-- A scalar as the debugger shows it. -/
def scalarVariable (o : SqObject) : Variable where
  valueRawAddress := if o.type.isRefCounted then api.raw o else 0
  valueType := toVariableType o.type
  value := scalarText lib o
  editable := true

variable (slots : H → SqObject → List (Option (SqObject × SqObject)))

/-- `sq_get` and `sq_set` without metamethods: a slot of a table or an instance is
found by its key, and set in place. -/
structure PlainAccess : Prop where
  get : ∀ {h o key val} {i : Nat}, o.type = .table ∨ o.type = .instance_ →
    DistinctKeys (slots h o) → (slots h o)[i]? = some (some (key, val)) →
    api.get h o key = (h, some val)
  set : ∀ {h o key val} {i : Nat} (new), o.type = .table ∨ o.type = .instance_ →
    DistinctKeys (slots h o) → (slots h o)[i]? = some (some (key, val)) →
    ∃ h', api.set h o key new = (h', true) ∧ slots h' o = (slots h o).set i (some (key, new)) ∧
      ∀ o', o' ≠ o → slots h' o' = slots h o'

/-- The slots of every object of a heap, without a key that stands twice. A
negative iterator leads nowhere. -/
structure PlainHeap (h : H) : Prop where
  view : SlotView api h (slots h)
  negative : ∀ o n, n < 0 → (api.advance h o (.integer n)).2 = none
  arrays : ArrayView api h (slots h)
  distinct : ∀ o, DistinctKeys (slots h o)

/-- The slot of `o` at iterator `part` is there, holds a scalar, and the text parses
for it. -/
def Writable (h : H) (o : SqObject) (part : UInt64) (text : Bytes) : Prop :=
  ∃ key val i new, Slots.next (slots h o) part.toNat = some ((key, val), i + 1) ∧ Scalar val ∧
    parseValue lib text val = some new

variable {api lib slots}

theorem scalar_of_parse {text : Bytes} {val new : SqObject}
    (hp : parseValue lib text val = some new) : Scalar val ∧ Scalar new := by
  cases val with
  | bool b =>
    simp only [parseValue, Option.some.injEq] at hp
    exact hp ▸ ⟨trivial, trivial⟩
  | integer n =>
    obtain ⟨m, -, rfl⟩ := Option.map_eq_some_iff.mp hp
    exact ⟨trivial, trivial⟩
  | float bits =>
    obtain ⟨m, -, rfl⟩ := Option.map_eq_some_iff.mp hp
    exact ⟨trivial, trivial⟩
  | string s =>
    simp only [parseValue, Option.some.injEq] at hp
    exact hp ▸ ⟨trivial, trivial⟩
  | _ => cases hp

theorem gives_scalarText {fuel : Nat} (hfuel : 0 < fuel) {h : H} {o : SqObject} (hs : Scalar o) :
    Gives (L3.toString api lib fuel) h [o] (scalarText lib o) h [o] := by
  obtain ⟨n, rfl⟩ : ∃ n, fuel = n + 1 := ⟨fuel - 1, by omega⟩
  refine (gives_sqGetstackobj rfl).bind ?_
  cases o with
  | bool b => exact gives_pure _
  | integer m => exact gives_pure _
  | float bits => exact gives_pure _
  | string s => exact gives_pure _
  | _ => exact hs.elim

theorem gives_scalarVariable {fuel : Nat} (hfuel : 0 < fuel) {h : H} {o : SqObject}
    (hs : Scalar o) :
    Gives (createChildVariable api (renderer api lib fuel)) h [o] (scalarVariable api lib o) h
      [o] := by
  refine (gives_sqGetstackobj rfl).bind ((gives_scalarText hfuel hs).bind ?_)
  cases o with
  | bool b => exact gives_pure _
  | integer m => exact gives_pure _
  | float bits => exact gives_pure _
  | string s => exact gives_pure _
  | _ => exact hs.elim

/-! ## The stack during the write -/

section
variable {h h' : H} {o key val new : SqObject} {text : Bytes} {below : List SqObject}

theorem gives_updateFromString {j : Nat} (hp : parseValue lib text val = some new)
    (ho : below[j]? = some o) (hset : api.set h o key new = (h', true)) :
    Gives (updateFromString api lib (j + 3) text) h (val :: key :: below) .success h' below := by
  refine (gives_sqGetstackobj rfl).bind ?_
  rw [hp]
  refine gives_sqPoptop.bind ((gives_sqPushobject new).bind ?_)
  exact (gives_sqSet api ho hset).bind (gives_pure _)

theorem gives_updateFromString_false {j : Nat} (hp : parseValue lib text val = some new)
    (ho : below[j]? = some o) (hset : api.set h o key new = (h', false)) :
    Gives (updateFromString api lib (j + 3) text) h (val :: key :: below) .errorInternal h'
      (new :: key :: below) := by
  refine (gives_sqGetstackobj rfl).bind ?_
  rw [hp]
  refine gives_sqPoptop.bind ((gives_sqPushobject new).bind ?_)
  exact (gives_sqSet_false api ho hset).bind (gives_pure _)

theorem gives_updateFromString_none (hp : parseValue lib text val = none) (k : Nat) :
    Gives (updateFromString api lib k text) h (val :: below) .invalidParameter h
      (val :: below) := by
  refine (gives_sqGetstackobj rfl).bind ?_
  rw [hp]
  exact gives_pure _

/-- What is at -4 takes the value under the key, and it is read back from there. -/
theorem gives_readBack {h'' : H} {v : SqObject} {r : Renderer H} {shown : Variable}
    (hp : parseValue lib text val = some new) (ho : below[1]? = some o)
    (hset : api.set h o key new = (h', true)) (hget : api.get h' o key = (h'', some v))
    (hshown : Gives (createChildVariable api r) h'' [v] shown h'' [v]) :
    Gives (replaceValue api lib r text) h (val :: key :: below) (.ok shown) h''
      (v :: key :: below) := by
  refine (gives_sqGetstackobj rfl).bind ((gives_updateFromString hp ho hset).bind ?_)
  refine (gives_sqPushobject key).bind ((gives_sqPushobject key).bind ?_)
  refine (gives_sqGet api ho hget).bind ?_
  exact (hshown.frame (key :: below)).bind (gives_pure _)

/-- The container is at -4, over it an iterator, the key and the value. -/
theorem gives_replaceValue {fuel : Nat} (hfuel : 0 < fuel)
    (hp : parseValue lib text val = some new) (hset : api.set h o key new = (h', true))
    (hget : api.get h' o key = (h', some new)) (iter : SqObject) :
    Gives (replaceValue api lib (renderer api lib fuel) text) h [val, key, iter, o]
      (.ok (scalarVariable api lib new)) h' [new, key, iter, o] :=
  gives_readBack hp (show [iter, o][1]? = some o from rfl) hset hget
    (gives_scalarVariable hfuel (scalar_of_parse hp).2)

theorem gives_replaceValue_none (r : Renderer H) (hp : parseValue lib text val = none) :
    Gives (replaceValue api lib r text) h (val :: key :: below) (.error .invalidParameter) h
      (val :: key :: below) :=
  (gives_sqGetstackobj rfl).bind ((gives_updateFromString_none hp 4).bind (gives_pure _))

/-! ## The last part of the path -/

theorem PlainHeap.next (hh : PlainHeap api slots h) (o : SqObject) (part : UInt64) :
    api.advance h o (.integer (toSqInteger part)) =
      (h, (Slots.next (slots h o) part.toNat).map
        fun ((key, val), j) => (key, val, .integer j)) := by
  refine Prod.ext (hh.view.still o _) ?_
  by_cases hlt : part.toNat < 2 ^ 63
  · rw [toSqInteger_of_lt hlt]
    exact hh.view.next o part.toNat
  · have hneg := toSqInteger_of_le (Nat.le_of_not_lt hlt)
    rw [hh.negative o _ hneg]
    cases hn : Slots.next (slots h o) part.toNat with
    | none => rfl
    | some p =>
      have hpos := (Slots.next_lt hn).trans (hh.view.bounded o)
      exact absurd hpos hlt

/-- `fn` runs on the slot: its value, its key and the iterator behind it. -/
theorem gives_lastSlot (hh : PlainHeap api slots h) (ho : o.type = .table ∨ o.type = .instance_)
    {part : UInt64} {j : Nat} (hs : Slots.next (slots h o) part.toNat = some ((key, val), j))
    {α : Type} {fn : VmM H (Except ReturnCode α)} {rc : Except ReturnCode α} {val' : SqObject}
    (hfn : Gives fn h [val, key, .integer j, o] rc h' [val', key, .integer j, o]) :
    Gives (withVariableAtPath api fn [part]) h [o] rc h' [o] :=
  (reachesOver_slot hh.view ho hs).gives hfn

theorem gives_noSlot (hh : PlainHeap api slots h) (ho : o.type = .table ∨ o.type = .instance_)
    {part : UInt64} (hs : Slots.next (slots h o) part.toNat = none) {α : Type}
    (fn : VmM H (Except ReturnCode α)) (path : List UInt64) :
    Gives (withVariableAtPath api fn (part :: path)) h [o] (.error .invalidParameter) h [o] := by
  have hnext := hh.next o part
  rw [hs] at hnext
  have hrun : Gives (do
      sqPushobject (.integer (toSqInteger part))
      if ← sqNext api 2 then
        let childRetVal ← withVariableAtPath api fn path
        sqPop 3
        return childRetVal
      else
        sqPoptop
        return .error .invalidParameter : VmM H (Except ReturnCode α)) h [o]
      (.error .invalidParameter) h [o] := by
    refine (gives_sqPushobject _).bind ((gives_sqNext_none api rfl hnext).bind ?_)
    exact gives_sqPoptop.bind (gives_pure _)
  refine (gives_sqGettype rfl).bind ?_
  cases o with
  | table a => exact hrun
  | instance_ a => exact hrun
  | _ => simp [SqObject.type] at ho

/-! ## The command -/

/-- A command on a local: the local is pushed for it, and popped. -/
theorem gives_withStackVariables {stackFrame : UInt32} {path : Bytes} {parts : List UInt64}
    {name : Bytes} {start : SqObject} (hparts : pathParts path = some parts)
    (hlocal : api.getlocal h stackFrame.toNat (parts.headD 0).toNat = some (name, start))
    {α : Type} {fn : List UInt64 → VmM H (Except ReturnCode α)} {rc : Except ReturnCode α}
    (hfn : Gives (fn parts) h [start] rc h' [start]) :
    Gives (withStackVariables api stackFrame path fn) h [] rc h' [] := by
  have hne : path ≠ [] := by
    rintro rfl
    cases hparts
  have hget : Gives (sqGetlocal api stackFrame.toNat (parts.headD 0).toNat) h [] (some name) h
      [start] := by
    have hgives := (gives_sqGetlocal api stackFrame.toNat (parts.headD 0).toNat :
      Gives _ h [] _ _ _)
    rwa [hlocal] at hgives
  unfold withStackVariables
  rw [if_neg hne, hparts]
  exact hget.bind (hfn.bind (gives_sqPoptop.bind (gives_pure _)))

theorem gives_setStackVariableValue {stackFrame : UInt32} {path : Bytes} {first last : UInt64}
    {middle : List UInt64} {name : Bytes} {start : SqObject} (hh : PlainHeap api slots h)
    (hparts : pathParts path = some (first :: (middle ++ [last])))
    (hlocal : api.getlocal h stackFrame.toNat first.toNat = some (name, start))
    (hleads : LeadsTo (slots h) start middle o) {r : Renderer H} {rc : Except ReturnCode Variable}
    (hlast : Gives (withVariableAtPath api (replaceValue api lib r text) [last]) h [o] rc h' [o]) :
    Gives (setStackVariableValue api lib r stackFrame path text) h [] rc h' [] := by
  refine gives_withStackVariables hparts hlocal ?_
  have hne : (first :: (middle ++ [last])).tail ≠ [] := by simp
  rw [if_neg hne]
  exact hleads.gives hh.view hh.arrays hlast

variable (lib) in
/-- **A write touches its slot only.** The command succeeds exactly if the slot is
there, holds a scalar and the text parses for it. Then that slot holds the parsed
value under the key it had, every other slot is as it was, and the variable
returned shows the value now stored; otherwise no slot changes. The stack is as
high as before, and the same. -/
theorem setStackVariableValue_frame (hplain : PlainAccess api slots) (hh : PlainHeap api slots h)
    {fuel : Nat} (hfuel : 0 < fuel) {stackFrame : UInt32} {path : Bytes} {first last : UInt64}
    {middle : List UInt64} {name : Bytes} {start : SqObject}
    (hparts : pathParts path = some (first :: (middle ++ [last])))
    (hlocal : api.getlocal h stackFrame.toNat first.toNat = some (name, start))
    (hleads : LeadsTo (slots h) start middle o) (ho : o.type = .table ∨ o.type = .instance_)
    (text : Bytes) (stack : List SqObject) (faults : List Fault) :
    ∃ rc h', Returns (setStackVariableValue api lib (renderer api lib fuel) stackFrame path text)
        ⟨stack, h, faults⟩ rc ⟨stack, h', faults⟩ ∧
      (returnCode rc = .success ↔ Writable lib slots h o last text) ∧
      (∀ key val i new, Slots.next (slots h o) last.toNat = some ((key, val), i + 1) →
        parseValue lib text val = some new →
        rc = .ok (scalarVariable api lib new) ∧
          slots h' o = (slots h o).set i (some (key, new)) ∧
          ∀ o', o' ≠ o → slots h' o' = slots h o') ∧
      (¬ Writable lib slots h o last text → slots h' = slots h) := by
  cases hs : Slots.next (slots h o) last.toNat with
  | none =>
    have hnot : ¬ Writable lib slots h o last text := by
      intro hwritable
      obtain ⟨key, val, i, new, hnext, -⟩ := hwritable
      rw [hs] at hnext
      cases hnext
    have hgives := gives_setStackVariableValue hh hparts hlocal hleads
      (gives_noSlot hh ho hs (replaceValue api lib (renderer api lib fuel) text) [])
    refine ⟨_, h, hgives stack faults, ?_, ?_, fun _ => rfl⟩
    · exact iff_of_false (by simp [returnCode]) hnot
    · intro key val i new hnext
      cases hnext
  | some p =>
    obtain ⟨⟨key, val⟩, j⟩ := p
    obtain ⟨i, rfl, -, hslot⟩ := Slots.next_position hs
    cases hp : parseValue lib text val with
    | none =>
      have hnot : ¬ Writable lib slots h o last text := by
        intro hwritable
        obtain ⟨key', val', i', new, hnext, -, hparse⟩ := hwritable
        rw [hs] at hnext
        simp only [Option.some.injEq, Prod.mk.injEq] at hnext
        rw [← hnext.1.2, hp] at hparse
        cases hparse
      have hgives := gives_setStackVariableValue hh hparts hlocal hleads
        (gives_lastSlot hh ho hs (gives_replaceValue_none (renderer api lib fuel) hp))
      refine ⟨_, h, hgives stack faults, ?_, ?_, fun _ => rfl⟩
      · exact iff_of_false (by simp [returnCode]) hnot
      · intro key' val' i' new hnext hparse
        simp only [Option.some.injEq, Prod.mk.injEq] at hnext
        rw [← hnext.1.2, hp] at hparse
        cases hparse
    | some new =>
      have hwritable : Writable lib slots h o last text :=
        ⟨key, val, i, new, hs, (scalar_of_parse hp).1, hp⟩
      obtain ⟨h', hset, hself, hothers⟩ := hplain.set new ho (hh.distinct o) hslot
      have hget : api.get h' o key = (h', some new) := by
        have hlt := (List.getElem?_eq_some_iff.mp hslot).1
        refine hplain.get (i := i) ho ?_ ?_
        · rw [hself]
          exact (hh.distinct o).set_value hslot new
        · rw [hself, List.getElem?_set_self hlt]
      have hgives := gives_setStackVariableValue hh hparts hlocal hleads
        (gives_lastSlot hh ho hs (gives_replaceValue hfuel hp hset hget (.integer (i + 1))))
      refine ⟨_, h', hgives stack faults, ?_, ?_, fun hnot => absurd hwritable hnot⟩
      · exact iff_of_true rfl hwritable
      · intro key' val' i' new' hnext hparse
        simp only [Option.some.injEq, Prod.mk.injEq, Nat.add_right_cancel_iff] at hnext
        obtain ⟨⟨rfl, rfl⟩, rfl⟩ := hnext
        obtain rfl : new = new' := by simpa [hp] using hparse
        exact ⟨rfl, hself, hothers⟩

end

end

/-! ## A heap -/

theorem plainAccess_heapApi : PlainAccess heapApi Heap.slots where
  get := by
    intro h o key val i ho hd hslot
    have hfind : h.find o key = some val := by
      rw [Heap.find, find_of_slot hd hslot]
      rfl
    show (h, h.find o key) = _
    rw [hfind]
  set := by
    intro h o key val i new ho hd hslot
    have hfind : (h.find o key).isSome = true := by
      rw [Heap.find, find_of_slot hd hslot]
      rfl
    refine ⟨h.store o key new, ?_, ?_, ?_⟩
    · show (if (h.find o key).isSome then (h.store o key new, true) else (h, false)) = _
      rw [if_pos hfind]
    · exact Heap.slots_store ho hd hslot new
    · intro o' hne
      exact Heap.slots_store_ne hne key new

theorem plainHeap_heapApi {h : Heap} (hb : ∀ x ∈ h.objects, x.slots.length < 2 ^ 63)
    (hd : ∀ x ∈ h.objects, DistinctKeys x.slots) : PlainHeap heapApi Heap.slots h where
  view := slotView_heapApi hb
  negative := by
    intro o n hn
    cases n with
    | ofNat n => exact absurd hn (by simp)
    | negSucc n => exact congrArg Prod.snd (heapApi_advance h o _)
  arrays := arrayView_heapApi h
  distinct := by
    intro o
    rcases h.slots_cases o with ho | ⟨x, hx, ho⟩
    · rw [ho]
      exact List.nodup_nil
    · rw [ho]
      exact hd x hx

/-- The only local is an array with one element, the table `{x = 5, y = "b"}`. -/
def rowHeap : Heap where
  objects := [
    .array [.table 1],
    .table [none, some (.string [120], .integer 5), some (.string [121], .string [98])]]
  locals := [[([97], .array 0)]]

theorem rowHeap_plain : PlainHeap heapApi Heap.slots rowHeap :=
  plainHeap_heapApi (by decide) (by decide)

/-- Writing `7` at the path `0,0,1`. -/
theorem setStackVariableValue_rowHeap :
    ∃ h', Returns (setStackVariableValue heapApi insertionLib (renderer heapApi insertionLib 9) 0
        [48, 44, 48, 44, 49] [55]) ⟨[.null], rowHeap, []⟩
        (.ok (scalarVariable heapApi insertionLib (.integer 7))) ⟨[.null], h', []⟩ ∧
      h'.slots (.table 1) =
        [none, some (.string [120], .integer 7), some (.string [121], .string [98])] ∧
      h'.slots (.array 0) = rowHeap.slots (.array 0) := by
  have hleads : LeadsTo rowHeap.slots (.array 0) [0] (.table 1) :=
    .element (by decide) (show _ = some (some (SqObject.integer 0, _)) from rfl) (.here _)
  have hparts : pathParts [48, 44, 48, 44, 49] = some (0 :: ([0] ++ [1])) := by decide
  have hlocal : heapApi.getlocal rowHeap (0 : UInt32).toNat (0 : UInt64).toNat =
      some ([97], .array 0) := rfl
  have hfuel : 0 < 9 := by decide
  obtain ⟨rc, h', hreturns, -, hwritten, -⟩ := setStackVariableValue_frame insertionLib
    plainAccess_heapApi rowHeap_plain hfuel hparts hlocal hleads (.inl rfl) [55] [.null] []
  obtain ⟨rfl, hself, hothers⟩ := hwritten (.string [120]) (.integer 5) 1 (.integer 7) rfl
    (by decide)
  exact ⟨h', hreturns, hself, hothers (.array 0) (by simp)⟩

end Sdb.L4
