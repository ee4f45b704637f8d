import Sdb.L3Vm.SqVm
import Sdb.Core.Slots
import Mathlib.Data.List.Sort
import Mathlib.Data.List.ReduceOption

/-!
# A heap of tables, arrays, instances and closures

One `SqApi` of the kind the debugger runs on: an object's address is its index
in the heap, a container is a list of slots, `sq_next` walks the slots
(`heapApi_next`) and `sq_get` finds the slot with the key. It has no delegates
and no metamethods. The results about the debugger hold for any `SqApi`; this
one shows them at work.
-/
namespace Sdb.L3

open Sdb.L1

abbrev Slots := List (Option (SqObject × SqObject))

inductive HeapObject where
  | table (slots : Slots)
  | array (elements : List SqObject)
  | instance_ (theClass : SqObject) (members : Slots)
  | closure (name : SqObject) (numParams numFreeVars : Int)
  | class_
  deriving DecidableEq, Repr

structure Heap where
  objects : List HeapObject := []
  root : Nat := 0
  /-- The locals of each stack level, with their names. -/
  locals : List (List (Bytes × SqObject)) := []
  deriving DecidableEq, Repr

/-- The slots of an array with these elements: every index is a key. -/
def arraySlots (elements : List SqObject) : Slots :=
  elements.mapIdx fun i e => some (.integer i, e)

def HeapObject.slots : HeapObject → Slots
  | .table slots => slots
  | .array elements => arraySlots elements
  | .instance_ _ members => members
  | .closure _ _ _ | .class_ => []

namespace Heap

def slots (h : Heap) (o : SqObject) : Slots :=
  match o with
  | .table a =>
    match h.objects[a]? with
    | some (.table slots) => slots
    | _ => []
  | .array a =>
    match h.objects[a]? with
    | some (.array elements) => arraySlots elements
    | _ => []
  | .instance_ a =>
    match h.objects[a]? with
    | some (.instance_ _ members) => members
    | _ => []
  | _ => []

def find (h : Heap) (o key : SqObject) : Option SqObject :=
  ((h.slots o).reduceOption.find? (·.1 = key)).map (·.2)

/-- The slots with the value of a key replaced, or with a new slot for it. -/
def storeSlot (slots : Slots) (key val : SqObject) : Slots :=
  if slots.reduceOption.any (·.1 = key) then
    slots.map fun slot => slot.map fun (k, v) => if k = key then (k, val) else (k, v)
  else slots ++ [some (key, val)]

def store (h : Heap) (o key val : SqObject) : Heap :=
  match o with
  | .table a =>
    match h.objects[a]? with
    | some (.table slots) =>
      { h with objects := h.objects.set a (.table (storeSlot slots key val)) }
    | _ => h
  | .instance_ a =>
    match h.objects[a]? with
    | some (.instance_ c slots) =>
      { h with objects := h.objects.set a (.instance_ c (storeSlot slots key val)) }
    | _ => h
  | _ => h

end Heap

/-- The number of a string, its bytes read in base 256. -/
def stringNumber (s : Bytes) : Nat := s.foldl (fun n c => 256 * n + c.toNat) 0

/-- Integers, floats and booleans are their own bits; references are spread over
the upper half, strings by their number. -/
def heapRaw : SqObject → UInt64
  | .null => 0
  | .integer n => UInt64.ofInt n
  | .float bits => bits.toUInt64
  | .bool b => if b then 1 else 0
  | .string s => UInt64.ofNat (2 ^ 63 + 32 * stringNumber s)
  | .table a => UInt64.ofNat (2 ^ 63 + 32 * a + 1)
  | .array a => UInt64.ofNat (2 ^ 63 + 32 * a + 2)
  | .userData a => UInt64.ofNat (2 ^ 63 + 32 * a + 3)
  | .closure a => UInt64.ofNat (2 ^ 63 + 32 * a + 4)
  | .nativeClosure a => UInt64.ofNat (2 ^ 63 + 32 * a + 5)
  | .generator a => UInt64.ofNat (2 ^ 63 + 32 * a + 6)
  | .userPointer a => UInt64.ofNat (2 ^ 63 + 32 * a + 7)
  | .thread a => UInt64.ofNat (2 ^ 63 + 32 * a + 8)
  | .funcProto a => UInt64.ofNat (2 ^ 63 + 32 * a + 9)
  | .class_ a => UInt64.ofNat (2 ^ 63 + 32 * a + 10)
  | .instance_ a => UInt64.ofNat (2 ^ 63 + 32 * a + 11)
  | .weakRef a => UInt64.ofNat (2 ^ 63 + 32 * a + 12)
  | .outer a => UInt64.ofNat (2 ^ 63 + 32 * a + 13)

/-- The position an iterator object stands for. -/
def iteratorPosition : SqObject → Option Nat
  | .null => some 0
  | .integer (.ofNat i) => some i
  | _ => none

/-- `sq_next` over the slots of a container; there are no `_nexti` metamethods. -/
def Heap.next (h : Heap) (o iter : SqObject) : Option (SqObject × SqObject × SqObject) :=
  (iteratorPosition iter).bind fun i =>
    (Slots.next (h.slots o) i).map fun ((key, val), j) => (key, val, .integer j)

def heapApi : SqApi Heap where
  next := Heap.next
  nexti h o iter := (h, h.next o iter)
  get h o key := (h, h.find o key)
  set h o key val := if (h.find o key).isSome then (h.store o key val, true) else (h, false)
  rawset h t key val := h.store (.table t) key val
  getsize h o :=
    match o with
    | .table _ | .array _ => (h.slots o).reduceOption.length
    | _ => 0
  getclass h o :=
    match o with
    | .instance_ a =>
      match h.objects[a]? with
      | some (.instance_ c _) => some c
      | _ => none
    | _ => none
  getdelegate _ _ := some .null
  getclosurename h o :=
    match o with
    | .closure a =>
      match h.objects[a]? with
      | some (.closure name _ _) => some name
      | _ => none
    | _ => none
  getclosureinfo h o :=
    match o with
    | .closure a =>
      match h.objects[a]? with
      | some (.closure _ numParams numFreeVars) => some (numParams, numFreeVars)
      | _ => none
    | _ => none
  gethash _ o := heapRaw o
  newtable h := ({ h with objects := h.objects ++ [.table []] }, h.objects.length)
  roottable h := h.root
  getlocal h level nSeq := (h.locals[level]?).bind (·[nSeq]?)
  stackinfos h level := level < h.locals.length
  raw := heapRaw
  tointeger _ := 0

theorem heapApi_advance (h : Heap) (o iter : SqObject) :
    heapApi.advance h o iter = (h, h.next o iter) := by
  cases o <;> rfl

theorem heapApi_next (h : Heap) (o : SqObject) (i : Nat) :
    heapApi.advance h o (.integer i) =
      (h, (Slots.next (h.slots o) i).map fun ((key, val), j) => (key, val, .integer j)) :=
  heapApi_advance h o (.integer i)

theorem Heap.slots_cases (h : Heap) (o : SqObject) :
    h.slots o = [] ∨ ∃ x ∈ h.objects, h.slots o = x.slots := by
  unfold Heap.slots
  split
  all_goals first | split | exact .inl rfl
  all_goals first | exact .inl rfl | skip
  all_goals
    rename_i hx
    exact .inr ⟨_, List.mem_of_getElem? hx, rfl⟩

theorem reduceOption_eq {α : Type} (l : List (Option α)) : l.reduceOption = l.filterMap id := rfl

theorem reduceOption_arraySlots (elements : List SqObject) :
    (arraySlots elements).reduceOption = elements.mapIdx fun i e => (SqObject.integer i, e) := by
  have hmap : arraySlots elements =
      (elements.mapIdx fun i e => (SqObject.integer i, e)).map some := by
    refine List.ext_getElem? fun j => ?_
    simp [arraySlots]
    rfl
  rw [hmap, reduceOption_eq, List.filterMap_map]
  exact List.filterMap_some

theorem find_element {elements : List SqObject} {i : Nat} {e : SqObject}
    (he : elements[i]? = some e) :
    (arraySlots elements).reduceOption.find? (·.1 = .integer i) = some (.integer i, e) := by
  obtain ⟨hlt, rfl⟩ := List.getElem?_eq_some_iff.mp he
  rw [reduceOption_arraySlots, List.find?_eq_some_iff_getElem]
  refine ⟨by simp, i, by simpa using hlt, by simp, fun j hj => ?_⟩
  simp
  omega

/-! ## Keys -/

/-- No key stands in two slots. -/
def DistinctKeys (slots : Slots) : Prop := (slots.reduceOption.map Prod.fst).Nodup

instance (slots : Slots) : Decidable (DistinctKeys slots) :=
  inferInstanceAs (Decidable (List.Nodup _))

theorem mem_reduceOption {slots : Slots} {i : Nat} {slot : SqObject × SqObject}
    (hslot : slots[i]? = some (some slot)) : slot ∈ slots.reduceOption :=
  List.reduceOption_mem_iff.mpr (List.mem_of_getElem? hslot)

/-- Setting a slot keeps its key. -/
theorem map_fst_set {slots : Slots} {i : Nat} {key val : SqObject}
    (hslot : slots[i]? = some (some (key, val))) (new : SqObject) :
    (slots.set i (some (key, new))).reduceOption.map Prod.fst =
      slots.reduceOption.map Prod.fst := by
  induction slots generalizing i with
  | nil => cases hslot
  | cons o slots ih =>
    cases i with
    | zero =>
      obtain rfl : o = some (key, val) := by simpa using hslot
      simp
    | succ i =>
      have hrec := ih (by simpa using hslot)
      cases o with
      | none => simpa using hrec
      | some slot => simpa using hrec

theorem DistinctKeys.set_value {slots : Slots} {i : Nat} {key val : SqObject}
    (hd : DistinctKeys slots) (hslot : slots[i]? = some (some (key, val))) (new : SqObject) :
    DistinctKeys (slots.set i (some (key, new))) := by
  unfold DistinctKeys
  rw [map_fst_set hslot new]
  exact hd

theorem find_of_slot {slots : Slots} (hd : DistinctKeys slots) {i : Nat} {key val : SqObject}
    (hslot : slots[i]? = some (some (key, val))) :
    slots.reduceOption.find? (·.1 = key) = some (key, val) := by
  have hmem := mem_reduceOption hslot
  cases hfind : slots.reduceOption.find? (·.1 = key) with
  | none =>
    have hnone := List.find?_eq_none.mp hfind (key, val) hmem
    simp at hnone
  | some slot =>
    have hkey : slot.1 = key := by simpa using List.find?_some hfind
    have heq := List.inj_on_of_nodup_map hd (List.mem_of_find?_eq_some hfind) hmem hkey
    rw [heq]

theorem map_replace_of_notMem {slots : Slots} {key : SqObject}
    (hnot : key ∉ slots.reduceOption.map Prod.fst) (new : SqObject) :
    slots.map (fun slot => slot.map fun (k, v) => if k = key then (k, new) else (k, v)) =
      slots := by
  refine (List.map_congr_left fun slot hmem => ?_).trans (List.map_id slots)
  cases slot with
  | none => rfl
  | some slot =>
    have hne : slot.1 ≠ key := by
      rintro rfl
      exact hnot (List.mem_map_of_mem (List.reduceOption_mem_iff.mpr hmem))
    simp [hne]

/-- With every key in one slot only, replacing by key is replacing in place. -/
theorem map_replace_eq_set {slots : Slots} (hd : DistinctKeys slots) {i : Nat}
    {key val : SqObject} (hslot : slots[i]? = some (some (key, val))) (new : SqObject) :
    slots.map (fun slot => slot.map fun (k, v) => if k = key then (k, new) else (k, v)) =
      slots.set i (some (key, new)) := by
  induction slots generalizing i with
  | nil => cases hslot
  | cons o slots ih =>
    cases i with
    | zero =>
      obtain rfl : o = some (key, val) := by simpa using hslot
      simp only [DistinctKeys, List.reduceOption_cons_of_some, List.map_cons,
        List.nodup_cons] at hd
      have hrest := map_replace_of_notMem hd.1 new
      simp [hrest]
    | succ i =>
      have hslot' : slots[i]? = some (some (key, val)) := by simpa using hslot
      cases o with
      | none =>
        have hrec := ih (by simpa [DistinctKeys] using hd) hslot'
        simpa using hrec
      | some slot =>
        obtain ⟨k, v⟩ := slot
        simp only [DistinctKeys, List.reduceOption_cons_of_some, List.map_cons,
          List.nodup_cons] at hd
        have hne : k ≠ key := by
          rintro rfl
          exact hd.1 (List.mem_map_of_mem (mem_reduceOption hslot'))
        have hrec := ih hd.2 hslot'
        simpa [hne] using hrec

theorem storeSlot_eq_set {slots : Slots} (hd : DistinctKeys slots) {i : Nat}
    {key val : SqObject} (hslot : slots[i]? = some (some (key, val))) (new : SqObject) :
    Heap.storeSlot slots key new = slots.set i (some (key, new)) := by
  have hany : slots.reduceOption.any (·.1 = key) = true :=
    List.any_eq_true.mpr ⟨(key, val), mem_reduceOption hslot, by simp⟩
  rw [Heap.storeSlot, if_pos hany]
  exact map_replace_eq_set hd hslot new

theorem Heap.locals_store (h : Heap) (o key new : SqObject) :
    (h.store o key new).locals = h.locals := by
  unfold Heap.store
  split
  · split <;> rfl
  · split <;> rfl
  · rfl

theorem Heap.root_store (h : Heap) (o key new : SqObject) : (h.store o key new).root = h.root := by
  unfold Heap.store
  split
  · split <;> rfl
  · split <;> rfl
  · rfl

theorem Heap.slots_store {h : Heap} {o key val : SqObject} {i : Nat}
    (ho : o.type = .table ∨ o.type = .instance_) (hd : DistinctKeys (h.slots o))
    (hslot : (h.slots o)[i]? = some (some (key, val))) (new : SqObject) :
    (h.store o key new).slots o = (h.slots o).set i (some (key, new)) := by
  cases o with
  | table a =>
    cases hx : h.objects[a]? with
    | none => simp [Heap.slots, hx] at hslot
    | some x =>
      have hlt := (List.getElem?_eq_some_iff.mp hx).1
      cases x with
      | table slots =>
        simp only [Heap.slots, hx] at hd hslot ⊢
        simp [Heap.store, hx, List.getElem?_set_self hlt, storeSlot_eq_set hd hslot new]
      | _ => simp [Heap.slots, hx] at hslot
  | instance_ a =>
    cases hx : h.objects[a]? with
    | none => simp [Heap.slots, hx] at hslot
    | some x =>
      have hlt := (List.getElem?_eq_some_iff.mp hx).1
      cases x with
      | instance_ c slots =>
        simp only [Heap.slots, hx] at hd hslot ⊢
        simp [Heap.store, hx, List.getElem?_set_self hlt, storeSlot_eq_set hd hslot new]
      | _ => simp [Heap.slots, hx] at hslot
  | _ => simp [SqObject.type] at ho

theorem Heap.slots_table_set {h : Heap} {a : Nat} {slots slots' : Slots} {o : SqObject}
    (hx : h.objects[a]? = some (.table slots)) (hne : o ≠ .table a) :
    ({ h with objects := h.objects.set a (.table slots') } : Heap).slots o = h.slots o := by
  have hlt := (List.getElem?_eq_some_iff.mp hx).1
  cases o with
  | table b =>
    have hb : a ≠ b := fun heq => hne (heq ▸ rfl)
    simp [Heap.slots, List.getElem?_set_ne hb]
  | array b =>
    by_cases hb : a = b
    · subst hb
      simp [Heap.slots, hx, List.getElem?_set_self hlt]
    · simp [Heap.slots, List.getElem?_set_ne hb]
  | instance_ b =>
    by_cases hb : a = b
    · subst hb
      simp [Heap.slots, hx, List.getElem?_set_self hlt]
    · simp [Heap.slots, List.getElem?_set_ne hb]
  | _ => rfl

theorem Heap.slots_instance_set {h : Heap} {a : Nat} {c : SqObject} {slots slots' : Slots}
    {o : SqObject} (hx : h.objects[a]? = some (.instance_ c slots)) (hne : o ≠ .instance_ a) :
    ({ h with objects := h.objects.set a (.instance_ c slots') } : Heap).slots o = h.slots o := by
  have hlt := (List.getElem?_eq_some_iff.mp hx).1
  cases o with
  | instance_ b =>
    have hb : a ≠ b := fun heq => hne (heq ▸ rfl)
    simp [Heap.slots, List.getElem?_set_ne hb]
  | array b =>
    by_cases hb : a = b
    · subst hb
      simp [Heap.slots, hx, List.getElem?_set_self hlt]
    · simp [Heap.slots, List.getElem?_set_ne hb]
  | table b =>
    by_cases hb : a = b
    · subst hb
      simp [Heap.slots, hx, List.getElem?_set_self hlt]
    · simp [Heap.slots, List.getElem?_set_ne hb]
  | _ => rfl

theorem Heap.slots_store_ne {h : Heap} {o o' : SqObject} (hne : o' ≠ o) (key new : SqObject) :
    (h.store o key new).slots o' = h.slots o' := by
  unfold Heap.store
  split
  · split
    · rename_i hx
      exact Heap.slots_table_set hx hne
    · rfl
  · split
    · rename_i hx
      exact Heap.slots_instance_set hx hne
    · rfl
  · rfl

/-! ## A C++ library -/

/-- A library that sorts by insertion and has no text for floats. -/
def insertionLib : CppLib where
  sort l := l.insertionSort fun a b => a.1 ≤ b.1
  sort_perm l := l.perm_insertionSort _
  sort_sorted l := by
    have : Std.Total fun a b : Bytes × Int => a.1 ≤ b.1 := ⟨fun a b => List.le_total a.1 b.1⟩
    have : IsTrans (Bytes × Int) fun a b => a.1 ≤ b.1 := ⟨fun a b c h₁ h₂ => List.le_trans h₁ h₂⟩
    exact List.pairwise_insertionSort _ l
  floatText _ := []
  stof _ := none

end Sdb.L3
