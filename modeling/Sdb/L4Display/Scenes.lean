import Sdb.L4Display.Reference
import Mathlib.Data.List.Find
import Mathlib.Data.List.ReduceOption

/-!
# Scenes of a heap

`heapScene h₀` is the scene a VM with the heap `h₀` shows. While a watch is
evaluated the heap grows by temporary tables (`Grown`), which no slot of `h₀`
leads to.

* `stage_heapScene`: the VM's answers are those of the scene, if the heap is
  closed: no local and no slot leads out of it.
-/
namespace Sdb.L4

open Sdb.L1 Sdb.L3

/-- The object lies in the heap, if it is one that the watch looks into. -/
def Heap.Has (h₀ : Heap) : SqObject → Prop
  | .table a | .array a | .instance_ a => a < h₀.objects.length
  | _ => True

instance (h₀ : Heap) : DecidablePred (Heap.Has h₀) := fun o => by
  cases o <;> unfold Heap.Has <;> infer_instance

/-- The heap's VM with other raw words, such as another layout of the memory. -/
def heapApiWith (raw : SqObject → UInt64) : SqApi Heap := { heapApi with raw := raw }

def heapScene (h₀ : Heap) : Scene where
  live := Heap.Has h₀
  slots := h₀.slots
  lookup := h₀.find
  locals level := (h₀.locals[level]?).getD []
  root := h₀.root

/-- No local and no slot leads out of the heap. -/
structure Closed (h₀ : Heap) : Prop where
  root : h₀.root < h₀.objects.length
  locals : ∀ frame ∈ h₀.locals, ∀ l ∈ frame, Heap.Has h₀ l.2
  slots : ∀ x ∈ h₀.objects, ∀ a ∈ x.slots.reduceOption, Heap.Has h₀ a.2

/-- In each container raw words tell the keys apart. -/
def KeysApart (raw : SqObject → UInt64) (h₀ : Heap) : Prop :=
  ∀ x ∈ h₀.objects, ∀ a ∈ x.slots.reduceOption, ∀ b ∈ x.slots.reduceOption,
    raw a.1 = raw b.1 → a.1 = b.1

instance (raw : SqObject → UInt64) (h₀ : Heap) : Decidable (KeysApart raw h₀) :=
  inferInstanceAs (Decidable (∀ x ∈ h₀.objects, ∀ a ∈ x.slots.reduceOption,
    ∀ b ∈ x.slots.reduceOption, raw a.1 = raw b.1 → a.1 = b.1))

/-- The heap and temporary tables. -/
def Grown (h₀ h : Heap) : Prop :=
  ∃ temporary, h = { h₀ with objects := h₀.objects ++ temporary }

section
variable {h₀ h : Heap}

theorem Grown.slots (hg : Grown h₀ h) {o : SqObject} (ho : Heap.Has h₀ o) :
    h.slots o = h₀.slots o := by
  obtain ⟨temporary, rfl⟩ := hg
  cases o with
  | table a | array a | instance_ a =>
    unfold Heap.slots
    dsimp only
    rw [List.getElem?_append_left ho]
  | _ => rfl

theorem Grown.find (hg : Grown h₀ h) {o : SqObject} (ho : Heap.Has h₀ o) (key : SqObject) :
    h.find o key = h₀.find o key := by
  unfold Heap.find
  rw [hg.slots ho]

theorem Grown.push (hg : Grown h₀ h) (x : HeapObject) :
    Grown h₀ { h with objects := h.objects ++ [x] } := by
  obtain ⟨temporary, rfl⟩ := hg
  exact ⟨temporary ++ [x], by simp⟩

theorem Closed.slot (hc : Closed h₀) {o : SqObject} {a : SqObject × SqObject}
    (ha : some a ∈ h₀.slots o) : Heap.Has h₀ a.2 := by
  rcases h₀.slots_cases o with hnil | ⟨x, hx, heq⟩
  · rw [hnil] at ha
    cases ha
  · rw [heq] at ha
    exact hc.slots x hx a (List.reduceOption_mem_iff.mpr ha)

/-- The temporary table with its one slot. -/
theorem heapApi_temporary (raw : SqObject → UInt64) (h : Heap) (key val : SqObject) :
    (heapApiWith raw).rawset ((heapApiWith raw).newtable h).1 ((heapApiWith raw).newtable h).2
      key val = { h with objects := h.objects ++ [.table [some (key, val)]] } := by
  show Heap.store { h with objects := h.objects ++ [.table []] } (.table h.objects.length) key val =
    _
  unfold Heap.store
  dsimp only
  rw [List.getElem?_append_right (Nat.le_refl _), Nat.sub_self]
  dsimp only [List.getElem?_cons_zero]
  rw [List.set_append_right _ _ (Nat.le_refl _), Nat.sub_self]
  rfl

theorem slots_newtable (h : Heap) (slots : Slots) :
    ({ h with objects := h.objects ++ [.table slots] } : Heap).slots (.table h.objects.length) =
      slots := by
  unfold Heap.slots
  dsimp only
  rw [List.getElem?_append_right (Nat.le_refl _), Nat.sub_self]
  rfl

/-- **A closed heap shows its scene.** -/
theorem stage_heapScene (hc : Closed h₀) (raw : SqObject → UInt64) :
    Stage (heapApiWith raw) (heapScene h₀) (Grown h₀) where
  roottable := by
    rintro h ⟨temporary, rfl⟩
    rfl
  getlocal := by
    rintro h ⟨temporary, rfl⟩ level n
    show ((h₀.locals[level]?).bind (·[n]?)) = ((h₀.locals[level]?).getD [])[n]?
    cases h₀.locals[level]? <;> simp
  next h hg o ho i := by
    have hnext := heapApi_next h o i
    rw [hg.slots ho] at hnext
    exact hnext
  get h hg o ho key := by
    show (h, h.find o key) = (h, h₀.find o key)
    rw [hg.find ho]
  liveRoot := hc.root
  liveLocal level l hl := by
    have hl' : l ∈ (h₀.locals[level]?).getD [] := hl
    cases hframe : h₀.locals[level]? with
    | none =>
      rw [hframe] at hl'
      cases hl'
    | some frame =>
      rw [hframe] at hl'
      exact hc.locals frame (List.mem_of_getElem? hframe) l hl'
  liveSlot o _ a ha := hc.slot ha
  liveLookup o _ key val hval := by
    obtain ⟨a, ha, rfl⟩ := Option.map_eq_some_iff.mp (show h₀.find o key = some val from hval)
    exact hc.slot (List.reduceOption_mem_iff.mp (List.mem_of_find?_eq_some ha))
  newtable h hg := hg.push _
  rawset h hg s val _ := by
    rw [heapApi_temporary]
    refine ⟨hg.push _, ?_, [some (.string s, val)], rfl, fun i => ?_⟩
    · show (_, Heap.find _ (.table h.objects.length) (.string s)) = _
      rw [Heap.find, slots_newtable]
      simp [reduceOption_eq]
    · have hnext := heapApi_next { h with objects := h.objects ++ [.table [some (.string s, val)]] }
        (.table h.objects.length) i
      rw [slots_newtable] at hnext
      exact hnext

/-- The scan and the lookup among slots whose keys raw words tell apart. -/
theorem find?_raw {raw : SqObject → UInt64} {slots : List (SqObject × SqObject)}
    (hapart : ∀ a ∈ slots, ∀ b ∈ slots, raw a.1 = raw b.1 → a.1 = b.1) {key : SqObject}
    {slot : SqObject × SqObject} (hslot : slots.find? (·.1 = key) = some slot) :
    slots.find? (raw ·.1 = raw key) = some slot := by
  have hkey : slot.1 = key := by simpa using List.find?_some hslot
  have hmem := List.mem_of_find?_eq_some hslot
  rw [← hslot]
  refine List.find?_congr fun a ha => ?_
  rw [decide_eq_decide, ← hkey]
  exact ⟨hapart a ha slot hmem, fun heq => heq ▸ rfl⟩

/-- The keys of an array are numbers. -/
theorem find_array_none {a : Nat} {key : SqObject} (hkey : ¬key.isNumeric = true) :
    h₀.find (.array a) key = none := by
  rw [Heap.find, Option.map_eq_none_iff, List.find?_eq_none]
  intro slot hslot heq
  unfold Heap.slots at hslot
  dsimp only at hslot
  split at hslot
  · rw [reduceOption_arraySlots] at hslot
    obtain ⟨i, hi, rfl⟩ := List.mem_mapIdx.mp hslot
    exact hkey (of_decide_eq_true heq ▸ rfl)
  · cases hslot

/-- **The scan finds what the lookup finds.** -/
theorem lookupByScan_heapScene {raw : SqObject → UInt64} (hapart : KeysApart raw h₀) :
    LookupByScan (heapApiWith raw) (heapScene h₀) := by
  intro o key
  have hscan : ((h₀.find o key).bind fun _ => ((Slots.entries (h₀.slots o)).find? fun e =>
      raw e.2.1 = raw key).map (·.2.2)) = h₀.find o key := by
    cases hfind : h₀.find o key with
    | none => rfl
    | some val =>
      obtain ⟨slot, hslot, rfl⟩ := Option.map_eq_some_iff.mp hfind
      have happart : ∀ a ∈ (h₀.slots o).reduceOption, ∀ b ∈ (h₀.slots o).reduceOption,
          raw a.1 = raw b.1 → a.1 = b.1 := by
        rcases h₀.slots_cases o with hnil | ⟨x, hx, heq⟩
        · rw [hnil]
          nofun
        · rw [heq]
          exact hapart x hx
      have hraw := find?_raw happart hslot
      rw [reduceOption_eq, ← Slots.entries_values, List.find?_map] at hraw
      obtain ⟨e, he, heq⟩ := Option.map_eq_some_iff.mp hraw
      rw [Option.bind_some]
      exact Option.map_eq_some_iff.mpr ⟨e, he, by rw [heq]⟩
  cases o with
  | table a | instance_ a => exact hscan
  | array a =>
    unfold FoundByScan selects slotOf
    dsimp only
    split
    · rfl
    · rename_i hnum
      exact (find_array_none hnum).symm
  | _ => rfl

end

end Sdb.L4
