import Sdb.L4Display.Write
import Sdb.L1Data.Decimal

/-!
# Writing back the text that is shown

`UpdateFromString` on a slot, given the text `ToString` shows for its value or
any other text. `SlotCall` is the call: value and key on top of the VM's stack,
the container below, and a VM that keeps what is stored.

* `restored_iff`: the text shown writes the same value back for every bool, for
  an integer that fits in an `int`, and for a string without a NUL byte.
* `refused_iff`: of the texts that are no rendering of a bool or an integer,
  those are refused that are meant for an integer and that `stoi` cannot read.
* `update_text_iff`: the two together.
-/
namespace Sdb.L4

open Sdb.L1 Sdb.L3 Sdb.Exec

section
variable {H : Type} (api : SqApi H) (lib : CppLib)

/-- `UpdateFromString(v, -k, value)` on the slot of `o` at `key`, which holds `val`.
What is set there is read back. -/
structure SlotCall (k : Nat) (s : SqVm H) (o key val : SqObject) : Prop where
  stack : ∃ below, s.stack = val :: key :: below
  container : 3 ≤ k ∧ s.stack[k - 1]? = some o
  holds : (api.get s.heap o key).2 = some val
  stores : ∀ new, ∃ h', api.set s.heap o key new = (h', true) ∧ (api.get h' o key).2 = some new

/-- The text shown for the value of the slot is accepted and leaves the value. -/
def Restored (fuel k : Nat) (s : SqVm H) (o key val : SqObject) : Prop :=
  ∃ text t, Returns (L3.toString api lib fuel) s text s ∧
    Returns (updateFromString api lib k text) s .success t ∧ (api.get t.heap o key).2 = some val

/-- The text is not accepted, and nothing changes. -/
def Refused (k : Nat) (s : SqVm H) (text : Bytes) : Prop :=
  Returns (updateFromString api lib k text) s .invalidParameter s

/-- The values whose text is read back. -/
def ReadsBack : SqObject → Prop
  | .bool _ => True
  | .integer n => -2147483648 ≤ n ∧ n ≤ 2147483647
  | .string bytes => 0 ∉ bytes
  | _ => False

/-- Values with a text of their own. -/
def Textual : SqObject → Prop
  | .bool _ | .integer _ | .string _ => True
  | _ => False

/-- The texts of the values of a type: bools and 64-bit integers. -/
def Rendering : SqObjectType → Bytes → Prop
  | .bool, text => text ∈ [ascii "true", ascii "false", ascii "1", ascii "0"]
  | .integer, text => ∃ n : Int, -9223372036854775808 ≤ n ∧ n < 9223372036854775808 ∧
    text = intText n
  | _, _ => True

variable {api lib} {fuel k : Nat} {s t : SqVm H} {o key val new : SqObject} {text : Bytes}

variable (lib) in
/-- Bool, integer and string are shown by their text. -/
theorem returns_scalarText (hc : SlotCall api k s o key val) (hfuel : 0 < fuel)
    (hs : Scalar val) : Returns (L3.toString api lib fuel) s (scalarText lib val) s := by
  obtain ⟨below, hstack⟩ := hc.stack
  have hgives : Gives (L3.toString api lib fuel) s.heap [val] (scalarText lib val) s.heap [val] :=
    gives_scalarText hfuel hs
  have hreturns := hgives (key :: below) s.faults
  rwa [List.singleton_append, ← hstack] at hreturns

theorem SlotCall.state (hc : SlotCall api k s o key val) :
    ∃ below, s = ⟨[val, key] ++ below, s.heap, s.faults⟩ ∧ 3 ≤ k ∧ below[k - 3]? = some o := by
  obtain ⟨below, hstack⟩ := hc.stack
  obtain ⟨hk, ho⟩ := hc.container
  obtain ⟨j, rfl⟩ : ∃ j, k = j + 3 := ⟨k - 3, by omega⟩
  rw [hstack] at ho
  exact ⟨below, by rw [List.cons_append, List.singleton_append, ← hstack], hk, ho⟩

/-- A text that parses is stored. -/
theorem SlotCall.update (hc : SlotCall api k s o key val)
    (hp : parseValue lib text val = some new) :
    ∃ t, Returns (updateFromString api lib k text) s .success t ∧
      (api.get t.heap o key).2 = some new := by
  obtain ⟨below, hs, hk, ho⟩ := hc.state
  obtain ⟨h', hset, hget⟩ := hc.stores new
  have hgives : Gives (updateFromString api lib (k - 3 + 3) text) s.heap (val :: key :: below)
      .success h' below := gives_updateFromString hp ho hset
  have hgives := hgives [] s.faults
  rw [List.append_nil, List.append_nil, show k - 3 + 3 = k by omega] at hgives
  rw [hs]
  exact ⟨_, hgives, hget⟩

/-- A text that does not parse changes nothing. -/
theorem SlotCall.refuse (hc : SlotCall api k s o key val)
    (hp : parseValue lib text val = none) : Refused api lib k s text := by
  obtain ⟨below, hs, -⟩ := hc.state
  have hgives : Gives (updateFromString api lib k text) s.heap [val, key] .invalidParameter
      s.heap [val, key] := gives_updateFromString_none hp k
  unfold Refused
  rw [hs]
  exact hgives below s.faults

theorem refused_iff_parse (hc : SlotCall api k s o key val) :
    Refused api lib k s text ↔ parseValue lib text val = none := by
  constructor
  · intro href
    cases hp : parseValue lib text val with
    | none => rfl
    | some new =>
      obtain ⟨t, hret, -⟩ := hc.update hp
      cases (hret.unique href).1
  · exact hc.refuse

theorem restored_iff_parse (hc : SlotCall api k s o key val) (hfuel : 0 < fuel)
    (hs : Scalar val) :
    Restored api lib fuel k s o key val ↔
      parseValue lib (scalarText lib val) val = some val := by
  have hshown := returns_scalarText lib hc hfuel hs
  constructor
  · intro hr
    obtain ⟨text, t, htext, hret, hget⟩ := hr
    obtain ⟨rfl, -⟩ := hshown.unique htext
    cases hp : parseValue lib (scalarText lib val) val with
    | none => cases ((hc.refuse hp).unique hret).1
    | some new =>
      obtain ⟨t', hret', hget'⟩ := hc.update hp
      obtain ⟨-, rfl⟩ := hret.unique hret'
      rw [← hget', hget]
  · intro hp
    obtain ⟨t, hret, hget⟩ := hc.update hp
    exact ⟨_, t, hshown, hret, hget⟩

/-- The text shown is parsed as the value it is shown for. -/
theorem parse_scalarText_iff (hv : Textual val) :
    parseValue lib (scalarText lib val) val = some val ↔ ReadsBack val := by
  cases val with
  | bool b =>
    refine iff_of_true ?_ trivial
    cases b <;> rfl
  | integer n =>
    simp only [parseValue, scalarText, stoi_intText, ReadsBack]
    split <;> simp_all
  | string bytes =>
    simp only [parseValue, scalarText, ReadsBack, Option.some.injEq, SqObject.string.injEq]
    exact cstr_eq_iff
  | _ => exact hv.elim

theorem restored_iff (hc : SlotCall api k s o key val) (hfuel : 0 < fuel) (hv : Textual val) :
    Restored api lib fuel k s o key val ↔ ReadsBack val := by
  have hs : Scalar val := by
    cases val with
    | bool b => trivial
    | integer n => trivial
    | string bytes => trivial
    | _ => exact hv.elim
  rw [restored_iff_parse hc hfuel hs, parse_scalarText_iff hv]

/-- A bool slot takes every text; an integer slot every text with a number in front. -/
theorem refused_iff (hc : SlotCall api k s o key val)
    (hv : val.type = .bool ∨ val.type = .integer) :
    Refused api lib k s text ↔ val.type = .integer ∧ stoi text = none := by
  rw [refused_iff_parse hc]
  cases val with
  | bool b => simp [parseValue, SqObject.type]
  | integer n => simp [parseValue, SqObject.type]
  | _ =>
    rcases hv with hv | hv
    · cases hv
    · cases hv

variable (lib fuel) in
/-- Both halves of editing as the inverse of display: what is shown is written back
exactly for the values of `ReadsBack`, and a text that is no rendering is refused
exactly by an integer slot and where `stoi` finds no number that fits. -/
theorem update_text_iff (hc : SlotCall api k s o key val) (hfuel : 0 < fuel) :
    (Textual val → (Restored api lib fuel k s o key val ↔ ReadsBack val)) ∧
      ∀ text, val.type = .bool ∨ val.type = .integer → ¬ Rendering val.type text →
        (Refused api lib k s text ↔ val.type = .integer ∧ stoi text = none) :=
  ⟨fun hv => restored_iff hc hfuel hv, fun _ hv _ => refused_iff hc hv⟩

/-- A slot of a table or an instance whose slots are set in place. -/
theorem slotCall_of_slot {slots : H → SqObject → List (Option (SqObject × SqObject))}
    (hp : PlainAccess api slots) (hk : 3 ≤ k) (hstack : ∃ below, s.stack = val :: key :: below)
    (ho : s.stack[k - 1]? = some o) (htype : o.type = .table ∨ o.type = .instance_)
    (hd : DistinctKeys (slots s.heap o)) {i : Nat}
    (hslot : (slots s.heap o)[i]? = some (some (key, val))) : SlotCall api k s o key val where
  stack := hstack
  container := ⟨hk, ho⟩
  holds := by rw [hp.get htype hd hslot]
  stores := by
    intro new
    obtain ⟨h', hset, hslots, -⟩ := hp.set new htype hd hslot
    have hlt := (List.getElem?_eq_some_iff.mp hslot).1
    have hd' : DistinctKeys (slots h' o) := by
      rw [hslots]
      exact hd.set_value hslot new
    have hslot' : (slots h' o)[i]? = some (some (key, new)) := by
      rw [hslots, List.getElem?_set_self hlt]
    exact ⟨h', hset, by rw [hp.get htype hd' hslot']⟩

end

/-! ## A slot -/

/-- The only table has one slot, `x`, with this value. -/
def cellHeap (val : SqObject) : Heap where
  objects := [.table [some (.string [120], val)]]

def cellVm (val : SqObject) : SqVm Heap where
  stack := [val, .string [120], .table 0]
  heap := cellHeap val

theorem cellVm_call (val : SqObject) :
    SlotCall heapApi 3 (cellVm val) (.table 0) (.string [120]) val :=
  slotCall_of_slot plainAccess_heapApi (le_refl 3) ⟨_, rfl⟩ rfl (.inl rfl)
    (show (List.map Prod.fst [(SqObject.string [120], val)]).Nodup by simp) (i := 0) rfl

/-- `7` is written back, and `stoi` finds no number in `x`. -/
theorem update_text_seven :
    Restored heapApi insertionLib 1 3 (cellVm (.integer 7)) (.table 0) (.string [120])
        (.integer 7) ∧
      Refused heapApi insertionLib 3 (cellVm (.integer 7)) (ascii "x") := by
  obtain ⟨hrestored, hrefused⟩ := update_text_iff insertionLib 1
    (cellVm_call (.integer 7)) (by decide)
  refine ⟨(hrestored trivial).mpr ⟨by omega, by omega⟩, (hrefused (ascii "x") (.inr rfl) ?_).mpr ?_⟩
  · rintro ⟨n, -, -, heq⟩
    have hread := stoi_intText n
    have hvalue := intValue_intText n
    rw [← heq] at hread hvalue
    obtain rfl : 72 = n := hvalue
    revert hread
    decide
  · exact ⟨rfl, by decide⟩

/-- The first integer that does not fit in an `int` is shown and not written back. -/
theorem not_restored_wide :
    ¬ (∀ (s : SqVm Heap) (o key val : SqObject), SlotCall heapApi 3 s o key val → Textual val →
      Restored heapApi insertionLib 1 3 s o key val) := by
  intro hall
  have hrestored := hall _ _ _ _ (cellVm_call (.integer 2147483648)) trivial
  have hreads := (restored_iff (cellVm_call (.integer 2147483648)) (by decide) trivial).mp
    hrestored
  have hle : (2147483648 : Int) ≤ 2147483647 := hreads.2
  omega

end Sdb.L4
