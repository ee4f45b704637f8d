import Sdb.Core.Paged
import Sdb.L4Display.Paging
import Sdb.L4Display.Edit

/-!
# A listing read page by page

A client reads the children of an array or of a small table by index, page after
page until one is short; those of an array or of a table of at least 1000 keys it
reads by iterator, each page from the `pathIterator` of the last child it has.

* `indexed_page`, `streamed_page`: the pages of a container as those of one list;
* `read_by_index`, `read_by_iterator`: read page by page, the listing is the one
  that a single page would show, every child once and in the same order.
-/
namespace Sdb.L4

open Sdb.L1 Sdb.L3 Sdb.Exec

section
variable {H : Type} (api : SqApi H) (lib : CppLib) (fuel : Nat)

/-- `beginIterator` is an index: an array, or a table that is sorted. -/
def PagedByIndex (h : H) (o : SqObject) : Prop :=
  o.type = .array ∨
    (o.type = .table ∨ o.type = .instance_) ∧ api.getsize h o < kMaxTableSizeToSort

/-- `beginIterator` is an iterator: an array, or a table that is not sorted. -/
def PagedByIterator (h : H) (o : SqObject) : Prop :=
  o.type = .array ∨
    (o.type = .table ∨ o.type = .instance_) ∧ ¬ api.getsize h o < kMaxTableSizeToSort

/-- The page of `count` children from index `i` on, as `PopulateStackVariables`
answers it. -/
def IndexPage (s : SqVm H) (stackFrame : UInt32) (path : Bytes) (count : UInt32) (i : Nat)
    (vars : List Variable) : Prop :=
  Lists api lib fuel s stackFrame path ⟨UInt32.ofNat i, count⟩ vars

/-- The page of `count` children from an iterator on. -/
def IteratorPage (s : SqVm H) (stackFrame : UInt32) (path : Bytes) (count : UInt32)
    (it : UInt64) (vars : List Variable) : Prop :=
  Lists api lib fuel s stackFrame path (pageFrom it count) vars

variable {api lib fuel}

/-! ## The pages of one list -/

section
variable {h : H} {slots : SqObject → List (Option (SqObject × SqObject))} {o : SqObject}

/-- A child that is shown, with the text of its key. -/
def ShownChild (api : SqApi H) (lib : CppLib) (fuel : Nat) (h : H) (o : SqObject) (e : Entry)
    (x : Variable) : Prop :=
  Gives (L3.toString api lib fuel) h [e.2.1] (shownText (L3.toString api lib fuel) h e.2.1) h
    [e.2.1] ∧ Child api lib fuel h o e x

theorem shownChildren_iff (es : List Entry) (vars : List Variable) :
    List.Forall₂ (ShownChild api lib fuel h o) es vars ↔
      KeysShown api lib fuel h es ∧ List.Forall₂ (Child api lib fuel h o) es vars :=
  List.forall₂_and_left es vars

theorem Sorted.unique {all all' : List Entry} (hs : Sorted api lib fuel h slots o all)
    (hs' : Sorted api lib fuel h slots o all') : all = all' := by
  apply List.ext_getElem?
  intro k
  apply Option.ext
  intro e
  exact ⟨fun hk => hs.at hs' hk, fun hk => hs'.at hs hk⟩

/-- The elements of an array from index `i` on. -/
theorem entriesFrom_array (ha : ArrayView api h slots) (a i : Nat) :
    Slots.entriesFrom (slots (.array a)) i = (Slots.entries (slots (.array a))).drop i := by
  induction i with
  | zero => simp [Slots.entriesFrom, Slots.entries]
  | succ i ih =>
    rw [← List.drop_drop, ← ih]
    by_cases hlt : i < (slots (.array a)).length
    · obtain ⟨element, hslot, -⟩ := ha.occupied a i hlt
      rw [Slots.entriesFrom_of_next (Slots.next_of_getElem? hslot)]
      rfl
    · have hnone : ∀ j, i ≤ j → Slots.entriesFrom (slots (.array a)) j = [] := by
        intro j hj
        rw [Slots.entriesFrom, List.drop_of_length_le (by omega)]
        rfl
      rw [hnone i (Nat.le_refl i), hnone (i + 1) (Nat.le_succ i)]
      rfl

variable (lib) in
theorem streamed_page (hv : SlotView api h slots) (hs : PagedByIterator api h o)
    (hfuel : (Slots.entries (slots o)).length < fuel) (pagination : PaginationInfo)
    (vars : List Variable) :
    Gives (createChildVariables api lib (renderer api lib fuel) fuel pagination) h [o] vars h [o] ↔
      List.Forall₂ (ShownChild api lib fuel h o)
        ((Slots.entriesFrom (slots o) pagination.beginIterator.toNat).take
          pagination.count.toNat) vars := by
  have ho : o.type = .array ∨ o.type = .table ∨ o.type = .instance_ := hs.imp_right And.left
  have hpage : ∀ es, Page api lib fuel h slots o pagination es ↔
      StreamedPage api lib fuel h slots o pagination es := by
    intro es
    obtain harray | ⟨htable, hlarge⟩ := hs
    · cases o with
      | array a => rfl
      | _ => cases harray
    · rw [page_table (not_array htable), if_neg hlarge]
  rw [createChildVariables_page hv ho hfuel, shownChildren_iff]
  constructor
  · intro hlisted
    obtain ⟨es, hp, hvars⟩ := hlisted
    obtain ⟨rfl, hk⟩ := (hpage es).mp hp
    exact ⟨hk, hvars⟩
  · intro hlisted
    obtain ⟨hk, hvars⟩ := hlisted
    exact ⟨_, (hpage _).mpr ⟨rfl, hk⟩, hvars⟩

variable (lib) in
/-- The pages by index are those of one list, in the order of a whole listing. -/
theorem indexed_page (hv : SlotView api h slots) (ha : ArrayView api h slots)
    (hi : PagedByIndex api h o) (hfuel : (Slots.entries (slots o)).length < fuel) :
    ∃ (K : Prop) (all : List Entry), all.Perm (Slots.entries (slots o)) ∧
      ∀ pagination : PaginationInfo, pagination.beginIterator.toNat ≤ all.length → ∀ vars,
        Gives (createChildVariables api lib (renderer api lib fuel) fuel pagination) h [o] vars h
            [o] ↔
          K ∧ List.Forall₂ (ShownChild api lib fuel h o)
            ((all.drop pagination.beginIterator.toNat).take pagination.count.toNat) vars := by
  obtain harray | ⟨htable, hsmall⟩ := hi
  · refine ⟨True, Slots.entries (slots o), List.Perm.refl _, fun pagination _ vars => ?_⟩
    rw [true_and, streamed_page lib hv (.inl harray) hfuel]
    cases o with
    | array a => rw [entriesFrom_array ha]
    | _ => cases harray
  · obtain ⟨all, hs⟩ := sorted_exists api lib fuel h slots o
    refine ⟨KeysShown api lib fuel h (Slots.entries (slots o)), all, hs.perm,
      fun pagination hle vars => ?_⟩
    rw [createChildVariables_page hv (.inr htable) hfuel, shownChildren_iff]
    constructor
    · intro hlisted
      obtain ⟨es, hp, hvars⟩ := hlisted
      have hsorted := (page_small htable hsmall pagination es).mp hp
      have hmem := fun e (he : e ∈ es) => hsorted.mem he
      obtain ⟨-, hk, all', hs', rfl⟩ := hsorted
      obtain rfl := hs.unique hs'
      exact ⟨hk, fun e he => hk e (hmem e he), hvars⟩
    · intro hlisted
      obtain ⟨hk, -, hvars⟩ := hlisted
      refine ⟨_, (page_small htable hsmall pagination _).mpr ⟨?_, hk, all, hs, rfl⟩, hvars⟩
      rw [← hs.perm.length_eq]
      exact hle

end

/-! ## Reading page by page -/

/-- In a container whose keys and children are all in order, what is listed is the page. -/
theorem Opens.lists_iff {slots : H → SqObject → List (Option (SqObject × SqObject))} {h : H}
    {stackFrame : UInt32} {path : Bytes} {first : UInt64} {middle : List UInt64}
    {start o : SqObject} {pagination : PaginationInfo} {vars : List Variable}
    (hh : PlainHeap api slots h) (hop : Opens api slots h stackFrame path first middle start o)
    (ho : o.type = .array ∨ o.type = .table ∨ o.type = .instance_)
    (hpresents : Presents api lib fuel h (slots h) o)
    (hle : StartsInside api h (slots h) o pagination)
    (hfuel : (Slots.entries (slots h o)).length < fuel) (stack : List SqObject)
    (faults : List Fault) :
    Lists api lib fuel ⟨stack, h, faults⟩ stackFrame path pagination vars ↔
      Gives (createChildVariables api lib (renderer api lib fuel) fuel pagination) h [o] vars h
        [o] := by
  constructor
  · intro hlists
    obtain ⟨t, hlisted⟩ := hlists
    obtain ⟨es, vars', hp, hvars⟩ := hpresents.page hh.view.still hle
    have hgives := (createChildVariables_page hh.view ho hfuel pagination vars').mpr ⟨es, hp, hvars⟩
    obtain ⟨heq, -⟩ := ((hop.listing_iff hh stack faults).mpr hgives).unique hlisted
    obtain rfl := Except.ok.inj heq
    exact hgives
  · intro hgives
    exact ⟨_, (hop.listing_iff hh stack faults).mpr hgives⟩

variable {slots : H → SqObject → List (Option (SqObject × SqObject))} {h : H}
variable {stackFrame : UInt32} {path : Bytes} {first : UInt64} {middle : List UInt64}
variable {start o : SqObject} {stack : List SqObject} {faults : List Fault} {count : UInt32}
variable {whole : PaginationInfo} {vars : List Variable}

/-- **Read by index.** Asked for by index, page after page until one is short, the
children of an array or of a small table are those that a single page would show. -/
theorem read_by_index (hh : PlainHeap api slots h)
    (hop : Opens api slots h stackFrame path first middle start o) (hi : PagedByIndex api h o)
    (hfuel : (Slots.entries (slots h o)).length < fuel)
    (hfits : (Slots.entries (slots h o)).length < 2 ^ 32) (hcount : count ≠ 0)
    (hpresents : Presents api lib fuel h (slots h) o) (hw : Whole (slots h) o whole) :
    Paged.ReadsBy (IndexPage api lib fuel ⟨stack, h, faults⟩ stackFrame path count) count.toNat 0
        vars ↔
      Lists api lib fuel ⟨stack, h, faults⟩ stackFrame path whole vars := by
  obtain ⟨K, all, hperm, hpage⟩ := indexed_page lib hh.view hh.arrays hi hfuel
  have hlen := hperm.length_eq
  have ho : o.type = .array ∨ o.type = .table ∨ o.type = .instance_ := hi.imp_right And.left
  have hread : ∀ i ≤ all.length, ∀ vars,
      IndexPage api lib fuel ⟨stack, h, faults⟩ stackFrame path count i vars ↔
        K ∧ List.Forall₂ (ShownChild api lib fuel h o) ((all.drop i).take count.toNat) vars := by
    intro i hi vars
    have hindex : (UInt32.ofNat i).toNat = i := by
      rw [UInt32.toNat_ofNat']
      exact Nat.mod_eq_of_lt (by omega)
    have hanswer := hpage ⟨UInt32.ofNat i, count⟩ (by rw [hindex]; exact hi) vars
    rw [hindex] at hanswer
    refine (hop.lists_iff hh ho hpresents (fun _ _ => ?_) hfuel stack faults).trans hanswer
    show (UInt32.ofNat i).toNat ≤ _
    rw [hindex, ← hlen]
    exact hi
  have hpos : 0 < count.toNat := Nat.pos_of_ne_zero fun hz => hcount (UInt32.toNat_inj.mp hz)
  have hall := hpage whole (by rw [hw.fromStart]; exact Nat.zero_le _) vars
  have henough : all.length ≤ whole.count.toNat := hlen ▸ hw.enough
  rw [hw.fromStart, List.take_of_length_le (by simpa using henough)] at hall
  rw [Paged.readsBy_iff hpos hread (Nat.zero_le _)]
  refine ((hop.lists_iff hh ho hpresents (fun _ _ => ?_) hfuel stack faults).trans hall).symm
  rw [hw.fromStart]
  exact Nat.zero_le _

/-- **Read by iterator.** Asked for from the `pathIterator` of the last child on, page
after page until one is short, the children of an array or of a large table are
those that a single page would show. -/
theorem read_by_iterator (hh : PlainHeap api slots h)
    (hop : Opens api slots h stackFrame path first middle start o) (hs : PagedByIterator api h o)
    (hfuel : (Slots.entries (slots h o)).length < fuel)
    (hfits : (slots h o).length ≤ 2 ^ 32) (hcount : 1 < count)
    (hpresents : Presents api lib fuel h (slots h) o) (hw : Whole (slots h) o whole) :
    Paged.ReadsFrom (IteratorPage api lib fuel ⟨stack, h, faults⟩ stackFrame path count)
        (fun x : Variable => x.pathIterator) count.toNat 0 vars ↔
      Lists api lib fuel ⟨stack, h, faults⟩ stackFrame path whole vars := by
  have hbegin : ∀ it : UInt64, it.toNat < 2 ^ 32 →
      (pageFrom it count).beginIterator.toNat = it.toNat := by
    intro it hit
    show it.toUInt32.toNat = it.toNat
    rw [toUInt32_toNat]
    exact Nat.mod_eq_of_lt hit
  have ho : o.type = .array ∨ o.type = .table ∨ o.type = .instance_ := hs.imp_right And.left
  have hinside : ∀ pagination, StartsInside api h (slots h) o pagination := by
    intro pagination hno hsize
    obtain harray | ⟨-, hlarge⟩ := hs
    · cases o with
      | array a => exact absurd rfl (hno a)
      | _ => cases harray
    · exact absurd hsize hlarge
  have hread : ∀ it : UInt64, it.toNat < 2 ^ 32 → ∀ vars,
      IteratorPage api lib fuel ⟨stack, h, faults⟩ stackFrame path count it vars ↔
        List.Forall₂ (ShownChild api lib fuel h o)
          ((Slots.entriesFrom (slots h o) it.toNat).take count.toNat) vars := by
    intro it hit vars
    have hanswer := streamed_page lib hh.view hs hfuel (pageFrom it count) vars
    rw [hbegin it hit] at hanswer
    exact (hop.lists_iff hh ho hpresents (hinside _) hfuel stack faults).trans hanswer
  have hresume : ∀ it : UInt64, it.toNat < 2 ^ 32 → ∀ front e rest (x : Variable),
      Slots.entriesFrom (slots h o) it.toNat = front ++ e :: rest →
      ShownChild api lib fuel h o e x → x.pathIterator.toNat < 2 ^ 32 ∧
        Slots.entriesFrom (slots h o) x.pathIterator.toNat = e :: rest := by
    intro it hit front e rest x hentries hx
    have hwalk := Slots.walk_entriesFrom (slots h o) it.toNat
    rw [hentries] at hwalk
    obtain ⟨j, hnext⟩ := hwalk.next_of_mem (List.mem_append_right front List.mem_cons_self)
    rw [hx.2.iterator_toNat hh.view ⟨j, hnext⟩]
    exact ⟨(Slots.next_lt hnext).trans_le hfits,
      (Slots.walk_entriesFrom _ _).unique hwalk.suffix⟩
  have hone : 1 < count.toNat := hcount
  have hall := streamed_page lib hh.view hs hfuel whole vars
  have hzero : Slots.entriesFrom (slots h o) 0 = Slots.entries (slots h o) :=
    (Slots.walk_entriesFrom _ _).unique (Slots.walk_entries _)
  rw [hw.fromStart, show (0 : UInt32).toNat = 0 from rfl, hzero,
    List.take_of_length_le hw.enough] at hall
  rw [Paged.readsFrom_iff hone hread hresume (by decide)]
  exact ((hop.lists_iff hh ho hpresents (hinside _) hfuel stack faults).trans hall).symm

end

/-! ## Read two ways -/

/-- A page of a heap, with the iterators it shows. -/
theorem listed_heapApi {h : Heap} {o : SqObject} (pagination : PaginationInfo)
    (hv : SlotView heapApi h h.slots) (ho : o.type = .array ∨ o.type = .table ∨ o.type = .instance_)
    (its : List UInt64) (hok : faultless (createChildVariables heapApi insertionLib
      (renderer heapApi insertionLib 9) 9 pagination) ⟨[o], h, []⟩ = true)
    (hits : (result (createChildVariables heapApi insertionLib (renderer heapApi insertionLib 9) 9
      pagination) ⟨[o], h, []⟩).map (·.map (·.pathIterator)) = some its) :
    ∃ vars, Gives (createChildVariables heapApi insertionLib (renderer heapApi insertionLib 9) 9
      pagination) h [o] vars h [o] ∧ vars.map (·.pathIterator) = its := by
  obtain ⟨vars, _, ⟨rfl, -⟩, hgives⟩ :=
    (tells_createChildVariables hv ho pagination).exists_gives hok
  have hreturns := hgives [] []
  rw [List.append_nil] at hreturns
  rw [hreturns.result_eq] at hits
  exact ⟨vars, hgives, Option.some.inj hits⟩

/-- The table with `x` and `y`, a child at a time: the last page is empty. -/
theorem read_by_index_rowHeap : ∃ vars, vars.map (·.pathIterator) = [0, 2] ∧
    Paged.ReadsBy (IndexPage heapApi insertionLib 9 ⟨[.null], rowHeap, []⟩ 0 [48, 44, 48] 1) 1 0
      vars := by
  have hop : Opens heapApi Heap.slots rowHeap 0 [48, 44, 48] 0 [0] (.array 0) (.table 1) :=
    ⟨by decide, ⟨[97], rfl⟩,
      .element (by decide) (show _ = some (some (SqObject.integer 0, _)) from rfl) (.here _)⟩
  obtain ⟨vars, hgives, hits⟩ := listed_heapApi (o := .table 1) ⟨0, 5⟩
    rowHeap_plain.view (.inr (.inl rfl)) [0, 2] (by decide +kernel) (by decide +kernel)
  exact ⟨vars, hits, (read_by_index rowHeap_plain hop (.inr ⟨.inl rfl, by decide⟩) (by decide)
    (by decide) (by decide) (by decide +kernel) ⟨rfl, by decide⟩).mpr
      ⟨_, (hop.listing_iff rowHeap_plain [.null] []).mpr hgives⟩⟩

/-- The only local is the array `[5, 6, 7]`. -/
def tripleHeap : Heap where
  objects := [.array [.integer 5, .integer 6, .integer 7]]
  locals := [[([97], .array 0)]]

theorem tripleHeap_plain : PlainHeap heapApi Heap.slots tripleHeap :=
  plainHeap_heapApi (by decide) (by decide)

/-- Two elements at a time, the second of them read again with the third. -/
theorem read_by_iterator_tripleHeap : ∃ vars, vars.map (·.pathIterator) = [0, 1, 2] ∧
    Paged.ReadsFrom (IteratorPage heapApi insertionLib 9 ⟨[.null], tripleHeap, []⟩ 0 [48] 2)
      (fun x : Variable => x.pathIterator) 2 0 vars := by
  have hop : Opens heapApi Heap.slots tripleHeap 0 [48] 0 [] (.array 0) (.array 0) :=
    ⟨by decide, ⟨[97], rfl⟩, .here _⟩
  obtain ⟨vars, hgives, hits⟩ := listed_heapApi (o := .array 0) ⟨0, 5⟩
    tripleHeap_plain.view (.inl rfl) [0, 1, 2] (by decide +kernel) (by decide +kernel)
  exact ⟨vars, hits, (read_by_iterator tripleHeap_plain hop (.inl rfl) (by decide) (by decide)
    (by decide) (by decide +kernel) ⟨rfl, by decide⟩).mpr
      ⟨_, (hop.listing_iff tripleHeap_plain [.null] []).mpr hgives⟩⟩

end Sdb.L4
