import Sdb.L4Display.Listed

/-!
# Child counts

`CreateChildVariable` takes the number of children from the size of the object or
of its delegate, cast to 32 bits; `CreateChildVariables` lists what `sq_next` goes
through, and has no case for userdata. `Sized` is what the VM says of sizes and
delegates.

* `childCount_eq`, `length_children`: what is counted and what is listed;
* `childCount_iff`: for which objects the two agree.

A rendering that slips (`Slips`) leaves the stack shifted, so what is said of a container
is said where it, its keys and its children have something to show (`Renderable`).
-/
namespace Sdb.L4

open Sdb.L1 Sdb.L3 Sdb.Exec

/-- From the first child on, as many as there are. -/
def unlimited : PaginationInfo := ⟨0, 4294967295⟩

/-- The object is one that `CreateChildVariables` goes through. -/
def Iterable (v : SqObject) : Prop := v.type = .array ∨ v.type = .table ∨ v.type = .instance_

section
variable {H : Type} (api : SqApi H) (h : H)
variable (slots : SqObject → List (Option (SqObject × SqObject)))

/-- The number of slots of an object. -/
def slotCount (v : SqObject) : Nat := (Slots.entries (slots v)).length

/-- `sq_getsize` and `sq_getdelegate` of the objects there are. An instance viewed as a
table has its member table for a delegate, and a userdata a table or `null`. -/
structure Sized (live : SqObject → Prop) : Prop where
  array : ∀ a, api.getsize h (.array a) = slotCount slots (.array a)
  table : ∀ a, api.getsize h (.table a) = slotCount slots (.table a)
  null : api.getsize h .null = -1
  instance_ : ∀ a, live (.instance_ a) → ∃ m, api.getdelegate h (.table a) = some (.table m) ∧
    slots (.instance_ a) = slots (.table m)
  userData : ∀ a, live (.userData a) → ∃ d, api.getdelegate h (.table a) = some d ∧
    (d = .null ∨ ∃ t, d = .table t)

/-- The cast to 32 bits does not change the number, or changes it to the largest one,
where the listing ends too. -/
def FitsCount (n : Nat) : Prop := n < 2 ^ 32 ∨ n % 2 ^ 32 = 2 ^ 32 - 1

/-- An iterable object with a number of slots that fits, a userdata with a delegate that
is counted as empty, or an object of another type. -/
def CountExact : SqObject → Prop
  | .array a => FitsCount (slotCount slots (.array a))
  | .table a => FitsCount (slotCount slots (.table a))
  | .instance_ a => FitsCount (slotCount slots (.instance_ a))
  | .userData a => ∃ t, api.getdelegate h (.table a) = some (.table t) ∧
      slotCount slots (.table t) % 2 ^ 32 = 0
  | _ => True

variable {api h slots} {live : SqObject → Prop} {lib : CppLib} {fuel : Nat} {v : SqObject}
  {stack : List SqObject} {faults : List Fault}

/-! ## What is counted -/

/-- A userdata is always rendered. -/
theorem gives_createChildVariable_userData (a n : Nat) : ∃ value,
    Gives (createChildVariable api (renderer api lib (n + 1))) h [.userData a] value h
      [.userData a] := by
  have htext : Gives (L3.toString api lib (n + 1)) h [.userData a]
      (toSqObjectTypeName .userData) h [.userData a] :=
    (gives_sqGetstackobj rfl).bind (gives_pure _)
  have hnamed : Named api (n + 1) h (.userData a) := by
    intro htype
    cases htype
  exact gives_createChildVariable htext hnamed

/-- The count that is reported. -/
theorem childCount_eq (hs : Still api h) {variable_ : Variable} {t : SqVm H}
    (hr : Returns (createChildVariable api (renderer api lib fuel)) ⟨v :: stack, h, faults⟩
      variable_ t)
    (hshow : Iterable v → Showable api lib fuel h v) : variable_.childCount = countOf api h v := by
  have hrendered : Iterable v → variable_.childCount = countOf api h v := by
    intro hv
    obtain ⟨value, hgives⟩ := (showable_iff lib fuel hs v).mp (hshow hv)
    obtain ⟨rfl, -⟩ := hr.unique (hgives stack faults)
    exact ((tells_createChildVariable lib fuel hs v).of_gives hgives).2.2.2
  -- the types that are counted as 0, whatever their rendering leaves on the stack
  have hplain : (∀ u, Returns (childCount api v.type) u 0 u) →
      countOf api h v = 0 → variable_.childCount = countOf api h v := by
    intro hzero hcount
    unfold createChildVariable at hr
    obtain ⟨o, _, hobject, hr⟩ := returns_bind_iff.mp hr
    obtain ⟨rfl, -⟩ : v = o ∧ _ := Returns.unique rfl hobject
    obtain ⟨_, _, -, hr⟩ := returns_bind_iff.mp hr
    obtain ⟨_, _, -, hr⟩ := returns_bind_iff.mp hr
    obtain ⟨count, u, hn, hr⟩ := returns_bind_iff.mp hr
    obtain ⟨rfl, -⟩ := returns_pure_iff.mp hr
    obtain ⟨hn, -⟩ := (hzero _).unique hn
    rw [hcount, ← hn]
  cases v with
  | array a => exact hrendered (.inl rfl)
  | table a => exact hrendered (.inr (.inl rfl))
  | instance_ a => exact hrendered (.inr (.inr rfl))
  | userData a =>
    cases fuel with
    | zero => cases hr
    | succ n =>
      obtain ⟨value, hgives⟩ : ∃ value, Gives _ h [.userData a] value h [.userData a] :=
        gives_createChildVariable_userData a n
      obtain ⟨rfl, -⟩ := hr.unique (hgives stack faults)
      exact ((tells_createChildVariable lib (n + 1) hs (.userData a)).of_gives hgives).2.2.2
  | _ => exact hplain (fun _ => rfl) rfl

/-! ## What is listed -/

/-- A page from the first child on holds the first slots. -/
theorem length_page {es : List Entry} (hp : Page api lib fuel h slots v unlimited es) :
    es.length = min 4294967295 (slotCount slots v) := by
  have hstreamed : StreamedPage api lib fuel h slots v unlimited es →
      es.length = min 4294967295 (slotCount slots v) := by
    intro hs
    rw [hs.1, List.length_take]
    rfl
  have hsorted : SortedPage api lib fuel h slots v unlimited es →
      es.length = min 4294967295 (slotCount slots v) := by
    intro hs
    obtain ⟨-, -, all, hall, rfl⟩ := hs
    rw [List.length_take, show all.drop unlimited.beginIterator.toNat = all from rfl,
      hall.perm.length_eq]
    rfl
  unfold Page at hp
  split at hp
  · exact hstreamed hp
  · split at hp
    · exact hsorted hp
    · exact hstreamed hp

/-- The number of children that are listed. -/
theorem length_children (hv : SlotView api h slots) (hi : Iterable v)
    (hp : Presents api lib fuel h slots v) {vars : List Variable} {t : SqVm H}
    (hr : Returns (createChildVariables api lib (renderer api lib fuel) fuel unlimited)
      ⟨v :: stack, h, faults⟩ vars t) : vars.length = min 4294967295 (slotCount slots v) := by
  have hle : StartsInside api h slots v unlimited := fun _ _ => Nat.zero_le _
  obtain ⟨es, hpage, hvars⟩ := hp.returned hv hi hle hr
  rw [← hvars.length_eq]
  exact length_page hpage

/-! ## Main result -/

theorem toNat_ofInt_count (n : Nat) : (UInt32.ofInt n).toNat = n % 2 ^ 32 := by
  rw [UInt32.ofInt, UInt32.toNat_ofNat']
  omega

theorem fitsCount_iff (n : Nat) : n % 2 ^ 32 = min 4294967295 n ↔ FitsCount n := by
  unfold FitsCount
  omega

variable (api h slots lib fuel v) in
/-- An object that can be gone through has something to show, and so have its keys and
children. -/
def Renderable : Prop :=
  Iterable v → Showable api lib fuel h v ∧ Presents api lib fuel h slots v

theorem count_eq_iff (hv : SlotView api h slots) (hs : Sized api h slots live) (hl : live v)
    {variable_ : Variable} {vars : List Variable} {t t' : SqVm H}
    (hcount : Returns (createChildVariable api (renderer api lib fuel)) ⟨v :: stack, h, faults⟩
      variable_ t)
    (hlist : Returns (createChildVariables api lib (renderer api lib fuel) fuel unlimited)
      ⟨v :: stack, h, faults⟩ vars t')
    (hrendered : Renderable api h slots lib fuel v) :
    variable_.childCount.toNat = vars.length ↔ CountExact api h slots v := by
  rw [childCount_eq hv.still hcount fun hi => (hrendered hi).1]
  have hlisted : Iterable v → vars.length = min 4294967295 (slotCount slots v) :=
    fun hi => length_children hv hi (hrendered hi).2 hlist
  have hempty : ¬ Iterable v → vars.length = 0 := by
    intro hi
    have hgives : Gives (createChildVariables api lib (renderer api lib fuel) fuel unlimited) h [v]
      [] h [v] := gives_noChildren hi
    rw [(hlist.unique (hgives stack faults)).1]
    rfl
  cases v with
  | array a =>
    rw [hlisted (.inl rfl), countOf, hs.array, toNat_ofInt_count]
    exact fitsCount_iff _
  | table a =>
    rw [hlisted (.inr (.inl rfl)), countOf, hs.table, toNat_ofInt_count]
    exact fitsCount_iff _
  | instance_ a =>
    obtain ⟨m, hdelegate, hslots⟩ := hs.instance_ a hl
    have hsame : slotCount slots (.table m) = slotCount slots (.instance_ a) := by
      rw [slotCount, slotCount, hslots]
    rw [hlisted (.inr (.inr rfl)), countOf, hdelegate]
    dsimp only
    rw [hs.table, toNat_ofInt_count, hsame]
    exact fitsCount_iff _
  | userData a =>
    rw [hempty (by simp [Iterable, SqObject.type]), countOf]
    obtain ⟨d, hdelegate, hd⟩ := hs.userData a hl
    rw [hdelegate]
    dsimp only
    rcases hd with rfl | ⟨t, rfl⟩
    · -- the size of `null` is counted
      rw [hs.null]
      refine iff_of_false (by decide) ?_
      intro hexact
      obtain ⟨t, ht, -⟩ := hexact
      rw [hdelegate] at ht
      cases ht
    · rw [hs.table, toNat_ofInt_count]
      constructor
      · intro hzero
        exact ⟨t, hdelegate, hzero⟩
      · intro hexact
        obtain ⟨t', ht', hzero⟩ := hexact
        rw [hdelegate] at ht'
        cases ht'
        exact hzero
  | _ => exact iff_of_true (hempty (by simp [Iterable, SqObject.type])).symm trivial

/-- **When the count agrees with the listing.** It does where it is exact and what the two
calls render is in order; and where that is in order, only where it is exact. -/
theorem childCount_iff (hv : SlotView api h slots) (hs : Sized api h slots live) (hl : live v)
    {variable_ : Variable} {vars : List Variable} {t t' : SqVm H}
    (hcount : Returns (createChildVariable api (renderer api lib fuel)) ⟨v :: stack, h, faults⟩
      variable_ t)
    (hlist : Returns (createChildVariables api lib (renderer api lib fuel) fuel unlimited)
      ⟨v :: stack, h, faults⟩ vars t') :
    (CountExact api h slots v ∧ Renderable api h slots lib fuel v →
      variable_.childCount.toNat = vars.length) ∧
    (Renderable api h slots lib fuel v → variable_.childCount.toNat = vars.length →
      CountExact api h slots v) :=
  ⟨fun hexact => (count_eq_iff hv hs hl hcount hlist hexact.2).mpr hexact.1,
    fun hrendered => (count_eq_iff hv hs hl hcount hlist hrendered).mp⟩

end

/-! ## An array and a userdata -/

/-- The heap's VM, where only containers have a size and nothing has a delegate. -/
def countApi : SqApi Heap :=
  { heapApi with
    getsize := fun h o =>
      match o with
      | .table _ | .array _ => (h.slots o).reduceOption.length
      | _ => -1 }

/-- Array 0 has two elements; the address 1 is that of a userdata without a delegate. -/
def twoElements : Heap where
  objects := [.array [.bool true, .bool false]]

theorem slotView_countApi : SlotView countApi twoElements twoElements.slots := by
  have hview : SlotView heapApi twoElements twoElements.slots := slotView_heapApi (by decide)
  have hadvance : ∀ o iter,
      countApi.advance twoElements o iter = heapApi.advance twoElements o iter := fun _ _ => rfl
  exact ⟨fun o iter => hview.still o iter, fun o i => hview.next o i, hview.bounded⟩

theorem length_entries (slots : Slots) :
    (Slots.entries slots).length = slots.reduceOption.length := by
  rw [← List.length_map, Slots.entries_values]
  rfl

/-- There are no instances. -/
theorem sized_countApi : Sized countApi twoElements twoElements.slots fun v =>
    v.type ≠ .instance_ where
  array a := by
    rw [slotCount, length_entries]
    rfl
  table a := by
    rw [slotCount, length_entries]
    rfl
  null := rfl
  instance_ a hl := absurd rfl hl
  userData a _ := ⟨.null, rfl, .inl rfl⟩

/-- The userdata is said to have 4294967295 children, and none is listed. -/
theorem userData_counted : SlotView countApi twoElements twoElements.slots ∧
    Sized countApi twoElements twoElements.slots (fun v => v.type ≠ .instance_) ∧
    ∃ variable_ vars, Returns (createChildVariable countApi (renderer countApi insertionLib 9))
        ⟨[.userData 1], twoElements, []⟩ variable_ ⟨[.userData 1], twoElements, []⟩ ∧
      Returns (createChildVariables countApi insertionLib (renderer countApi insertionLib 9) 9
        unlimited) ⟨[.userData 1], twoElements, []⟩ vars ⟨[.userData 1], twoElements, []⟩ ∧
      variable_.childCount.toNat = 4294967295 ∧ vars.length = 0 :=
  ⟨slotView_countApi, sized_countApi, _, _, rfl, rfl, rfl, rfl⟩

/-- The two elements of the array are counted and listed. -/
theorem childCount_iff_twoElements : ∃ variable_ vars,
    Returns (createChildVariable countApi (renderer countApi insertionLib 9))
      ⟨[.array 0], twoElements, []⟩ variable_ ⟨[.array 0], twoElements, []⟩ ∧
    Returns (createChildVariables countApi insertionLib (renderer countApi insertionLib 9) 9
      unlimited) ⟨[.array 0], twoElements, []⟩ vars ⟨[.array 0], twoElements, []⟩ ∧
    variable_.childCount.toNat = vars.length := by
  have hshow : Showable countApi insertionLib 9 twoElements (.array 0) := by decide +kernel
  have hpresents : Presents countApi insertionLib 9 twoElements twoElements.slots (.array 0) := by
    decide +kernel
  obtain ⟨variable_, hcount⟩ := (showable_iff insertionLib 9 slotView_countApi.still _).mp hshow
  have hle : StartsInside countApi twoElements twoElements.slots (.array 0) unlimited :=
    fun _ _ => Nat.zero_le _
  obtain ⟨es, vars, hpage, hvars⟩ := hpresents.page slotView_countApi.still hle
  have hruns := hcount [] []
  have hruns' := gives_page slotView_countApi (.inl rfl) (fun hno _ => absurd rfl (hno 0)) hpage
    hvars [] []
  have hlive : (SqObject.array 0).type ≠ .instance_ := by decide
  exact ⟨variable_, vars, hruns, hruns', (childCount_iff slotView_countApi sized_countApi hlive
    hruns hruns').1 ⟨.inl (by decide), fun _ => ⟨hshow, hpresents⟩⟩⟩

end Sdb.L4
