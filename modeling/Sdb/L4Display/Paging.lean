import Sdb.L4Display.Pages

/-!
# Paging from an iterator

A page is asked for with the `pathIterator` of a child as its `beginIterator`. For
an array, and for a table or an instance of at least 1000 keys, `beginIterator` is
an iterator, of 32 bits where `pathIterator` has 64. For a smaller table it counts
sorted keys, and `pathIterator` does not.

* `starts_page`: a page in order is what every longer page from the same start begins with;
* `InPlace`: where the child's iterator is also where the child is listed;
* `resumes_iff`: a page that is returned starts with the child exactly there, and it is
  returned if the children on it can be shown.
-/
namespace Sdb.L4

open Sdb.L1 Sdb.L3 Sdb.Exec

section
variable {H : Type} (api : SqApi H) (lib : CppLib) (fuel : Nat) (h : H)
variable (slots : SqObject → List (Option (SqObject × SqObject)))

/-- The page asked for from a `pathIterator` on: `beginIterator` has 32 bits. -/
def pageFrom (pathIterator : UInt64) (count : UInt32) : PaginationInfo :=
  ⟨pathIterator.toUInt32, count⟩

/-- Asked for from `x.pathIterator` on, the page is returned and starts with `x`,
whatever lies below on the stack. -/
def Resumes (o : SqObject) (x : Variable) (count : UInt32) : Prop :=
  ∃ rest, ∀ below faults, ∃ t, Returns (createChildVariables api lib (renderer api lib fuel) fuel
    (pageFrom x.pathIterator count)) ⟨o :: below, h, faults⟩ (x :: rest) t

/-- Of the sorted children of a small table, the one at index `it` has the iterator
`it`; elsewhere `it` is in the range of `beginIterator`. -/
def InPlace (o : SqObject) (it : UInt64) : Prop :=
  match o with
  | .array _ => it.toNat < 2 ^ 32
  | _ =>
    if api.getsize h o < kMaxTableSizeToSort then
      ∃ all e, Sorted api lib fuel h slots o all ∧ all[it.toUInt32.toNat]? = some e ∧
        e.1 = it.toNat
    else it.toNat < 2 ^ 32

/-- There is such a page, its keys have a text (`keysShown_iff`) and each child on it has a
value to show. -/
def Shown (o : SqObject) (pagination : PaginationInfo) : Prop :=
  ∃ es, Page api lib fuel h slots o pagination es ∧ ∀ e ∈ es, Showable api lib fuel h e.2.2

variable {api lib fuel h slots} {o : SqObject} {e : Entry} {x y : Variable}

/-! ## The child and its slot -/

theorem Child.iterator (hc : Child api lib fuel h o e x) : x.pathIterator = UInt64.ofInt e.1 := by
  obtain ⟨value, -, rfl⟩ := hc
  cases o <;> rfl

theorem Child.unique (hx : Child api lib fuel h o e x) (hy : Child api lib fuel h o e y) :
    x = y := by
  obtain ⟨value, hvalue, rfl⟩ := hx
  obtain ⟨value', hvalue', rfl⟩ := hy
  obtain rfl := hvalue.unique hvalue'
  rfl

theorem inPlace_table (ho : o.type = .table ∨ o.type = .instance_) (it : UInt64) :
    InPlace api lib fuel h slots o it ↔
      if api.getsize h o < kMaxTableSizeToSort then
        ∃ all e, Sorted api lib fuel h slots o all ∧ all[it.toUInt32.toNat]? = some e ∧
          e.1 = it.toNat
      else it.toNat < 2 ^ 32 := by
  cases o with
  | array a => exact absurd rfl (not_array ho a)
  | _ => rfl

/-- The iteration that starts at the entry's iterator finds the entry. -/
def Found (slots : SqObject → List (Option (SqObject × SqObject))) (o : SqObject) (e : Entry) :
    Prop :=
  ∃ j, Slots.next (slots o) e.1 = some (e.2, j)

theorem Found.unique {e' : Entry} (hf : Found slots o e) (hf' : Found slots o e')
    (heq : e.1 = e'.1) : e = e' := by
  obtain ⟨j, hj⟩ := hf
  obtain ⟨j', hj'⟩ := hf'
  rw [heq, hj', Option.some.injEq, Prod.mk.injEq] at hj
  exact Prod.ext heq hj.1.symm

theorem StreamedPage.found {pagination : PaginationInfo} {es : List Entry}
    (hp : StreamedPage api lib fuel h slots o pagination es) (he : e ∈ es) :
    Found slots o e := by
  obtain ⟨rfl, -⟩ := hp
  exact (Slots.walk_entriesFrom _ _).next_of_mem (List.mem_of_mem_take he)

theorem Page.found (ho : o.type = .array ∨ o.type = .table ∨ o.type = .instance_)
    {pagination : PaginationInfo} {es : List Entry}
    (hp : Page api lib fuel h slots o pagination es) (he : e ∈ es) : Found slots o e := by
  rcases ho with harray | htable
  · cases o with
    | array a => exact StreamedPage.found hp he
    | _ => cases harray
  · rw [page_table (not_array htable)] at hp
    split at hp
    · exact Slots.next_of_mem_entries (hp.mem he)
    · exact hp.found he

theorem Page.keys {pagination : PaginationInfo} {es : List Entry}
    (hp : Page api lib fuel h slots o pagination es) (hno : ∀ a, o ≠ .array a)
    (hsize : api.getsize h o < kMaxTableSizeToSort) :
    KeysShown api lib fuel h (Slots.entries (slots o)) := by
  rw [page_table hno, if_pos hsize] at hp
  exact hp.2.1

theorem Page.key (ho : o.type = .array ∨ o.type = .table ∨ o.type = .instance_)
    {pagination : PaginationInfo} {es : List Entry}
    (hp : Page api lib fuel h slots o pagination es) (he : e ∈ es) :
    Gives (L3.toString api lib fuel) h [e.2.1] (shownText (L3.toString api lib fuel) h e.2.1) h
      [e.2.1] := by
  rcases ho with harray | htable
  · cases o with
    | array a => exact hp.2 e he
    | _ => cases harray
  · rw [page_table (not_array htable)] at hp
    split at hp
    · exact hp.2.1 e (hp.mem he)
    · exact hp.2 e he

/-- The iterator of a child is the one its slot was found at. -/
theorem Child.iterator_toNat (hv : SlotView api h slots) (hf : Found slots o e)
    (hc : Child api lib fuel h o e x) : x.pathIterator.toNat = e.1 := by
  obtain ⟨j, hj⟩ := hf
  have hlt := (Slots.next_lt hj).trans (hv.bounded o)
  rw [hc.iterator]
  exact toNat_ofInt (by omega)

/-! ## The first child of the page -/

theorem toUInt32_toNat (it : UInt64) : it.toUInt32.toNat = it.toNat % 2 ^ 32 := by simp

/-- An iterator in the range of `beginIterator`: the page from it on starts at its slot. -/
theorem streamedPage_one {it : UInt64} (hf : Found slots o e) (he : e.1 = it.toNat)
    (hlt : it.toNat < 2 ^ 32)
    (hkey : Gives (L3.toString api lib fuel) h [e.2.1]
      (shownText (L3.toString api lib fuel) h e.2.1) h [e.2.1]) :
    StreamedPage api lib fuel h slots o (pageFrom it 1) [e] := by
  obtain ⟨j, hj⟩ := hf
  refine ⟨?_, keysShown_cons hkey keysShown_nil⟩
  show [e] = (Slots.entriesFrom (slots o) it.toUInt32.toNat).take 1
  rw [toUInt32_toNat, Nat.mod_eq_of_lt hlt, ← he, Slots.entriesFrom_of_next hj, List.take_succ_cons,
    List.take_zero]

/-- The sorted children are determined: what is sorted has the iterator beside the text. -/
theorem Sorted.at {all all' : List Entry} (hs : Sorted api lib fuel h slots o all)
    (hs' : Sorted api lib fuel h slots o all') {k : Nat} (hk : all[k]? = some e) :
    all'[k]? = some e := by
  have hkeys : (all'.map (keyPair api lib fuel h))[k]? = some (keyPair api lib fuel h e) := by
    rw [hs'.sort, ← hs.sort, List.getElem?_map, hk]
    rfl
  rw [List.getElem?_map, Option.map_eq_some_iff] at hkeys
  obtain ⟨e', he', hpair⟩ := hkeys
  have hfst : e'.1 = e.1 := Int.ofNat.inj (Prod.mk.inj hpair).2
  have hfound : Found slots o e := Slots.next_of_mem_entries
    (hs.perm.mem_iff.mp (List.mem_of_getElem? hk))
  have hfound' : Found slots o e' := Slots.next_of_mem_entries
    (hs'.perm.mem_iff.mp (List.mem_of_getElem? he'))
  rw [he', hfound'.unique hfound hfst]

/-- A child in place is the page of one child from its iterator on. -/
theorem page_one (ho : o.type = .array ∨ o.type = .table ∨ o.type = .instance_) {it : UInt64}
    (hf : Found slots o e) (he : e.1 = it.toNat) (hin : InPlace api lib fuel h slots o it)
    (hkey : Gives (L3.toString api lib fuel) h [e.2.1]
      (shownText (L3.toString api lib fuel) h e.2.1) h [e.2.1])
    (hk : (∀ a, o ≠ .array a) → api.getsize h o < kMaxTableSizeToSort →
      KeysShown api lib fuel h (Slots.entries (slots o))) :
    Page api lib fuel h slots o (pageFrom it 1) [e] := by
  rcases ho with harray | htable
  · cases o with
    | array a => exact streamedPage_one hf he hin hkey
    | _ => cases harray
  · rw [page_table (not_array htable)]
    rw [inPlace_table htable] at hin
    split
    · rename_i hsize
      rw [if_pos hsize] at hin
      obtain ⟨all, e', hs, hget, he'⟩ := hin
      have hf' : Found slots o e' := Slots.next_of_mem_entries
        (hs.perm.mem_iff.mp (List.mem_of_getElem? hget))
      obtain rfl := hf'.unique hf (he'.trans he.symm)
      obtain ⟨hlt, hget⟩ := List.getElem?_eq_some_iff.mp hget
      refine ⟨?_, hk (not_array htable) hsize, all, hs, ?_⟩
      · rw [← hs.perm.length_eq]
        exact Nat.le_of_lt hlt
      · show [e'] = (all.drop it.toUInt32.toNat).take 1
        rw [List.drop_eq_getElem_cons hlt, hget, List.take_succ_cons, List.take_zero]
    · rename_i hsize
      rw [if_neg hsize] at hin
      exact streamedPage_one hf he hin hkey

/-! ## The children a page starts with -/

section
variable {below : List SqObject} {faults : List Fault} {n : Nat}

theorem firstIterator_arrayChildren (r : Renderer H) (i : Int) :
    Ends (arrayChildren api r n) ⟨.integer i :: below, h, faults⟩
      (fun vars _ => ∀ y, vars.head? = some y → y.pathIterator = UInt64.ofInt i)
      fun _ _ => True := by
  cases n with
  | zero => exact ends_pure fun y hy => by cases hy
  | succ n =>
    apply (gives_sqGetinteger api rfl : Gives _ _ [.integer i] _ _ _).bind_ends
    refine Ends.bind (ends_trivial _ _) fun found u _ => ?_
    cases found with
    | false => exact ends_pure fun y hy => by cases hy
    | true =>
      refine Ends.bind (ends_trivial _ _) fun _ _ _ => Ends.bind (ends_trivial _ _) fun _ _ _ => ?_
      refine Ends.bind (ends_trivial _ _) fun _ _ _ => Ends.bind (ends_trivial _ _) fun _ _ _ => ?_
      refine Ends.bind (ends_trivial _ _) fun _ _ _ => ends_pure fun y hy => ?_
      obtain rfl := Option.some.inj hy
      rfl

theorem iterator_createTableChildVariable (r : Renderer H) (i : Int) (s : SqVm H) :
    Ends (createTableChildVariable api r i) s (fun y _ => y.pathIterator = UInt64.ofInt i)
      fun _ _ => True := by
  unfold createTableChildVariable
  refine Ends.bind (ends_trivial _ _) fun _ _ _ => Ends.bind (ends_trivial _ _) fun _ _ _ => ?_
  refine Ends.bind (ends_trivial _ _) fun _ _ _ => Ends.bind (ends_trivial _ _) fun _ _ _ => ?_
  exact Ends.bind (ends_trivial _ _) fun _ _ _ => ends_pure rfl

theorem firstIterator_streamedChildren (r : Renderer H) (i : Int) :
    Ends (streamedChildren api r n) ⟨.integer i :: below, h, faults⟩
      (fun vars _ => ∀ y, vars.head? = some y → y.pathIterator = UInt64.ofInt i)
      fun _ _ => True := by
  cases n with
  | zero => exact ends_pure fun y hy => by cases hy
  | succ n =>
    apply (gives_sqGetinteger api rfl : Gives _ _ [.integer i] _ _ _).bind_ends
    refine Ends.bind (ends_trivial _ _) fun found u _ => ?_
    cases found with
    | false => exact ends_pure fun y hy => by cases hy
    | true =>
      refine (iterator_createTableChildVariable r i u).bind fun first _ hfirst => ?_
      refine Ends.bind (ends_trivial _ _) fun _ _ _ => ends_pure fun y hy => ?_
      obtain rfl := Option.some.inj hy
      exact hfirst

theorem firstIterator_sortedChildren (r : Renderer H) (keys : List (Bytes × Int)) (s : SqVm H) :
    Ends (sortedChildren api r keys) s (fun vars _ => ∀ y, vars.head? = some y →
      ∃ key ∈ keys.head?, y.pathIterator = UInt64.ofInt key.2) fun _ _ => True := by
  cases keys with
  | nil => exact ends_pure fun y hy => by cases hy
  | cons key keys =>
    obtain ⟨text, i⟩ := key
    unfold sortedChildren
    refine Ends.bind (ends_trivial _ _) fun _ _ _ => ?_
    refine Ends.bind (ends_trivial _ _) fun found u _ => ?_
    cases found with
    | false => exact Ends.bind (ends_trivial _ _) fun _ _ _ => ends_pure fun y hy => by cases hy
    | true =>
      refine (iterator_createTableChildVariable r i u).bind fun first _ hfirst => ?_
      refine Ends.bind (ends_trivial _ _) fun _ _ _ => Ends.bind (ends_trivial _ _) fun _ _ _ => ?_
      refine ends_pure fun y hy => ?_
      obtain rfl := Option.some.inj hy
      exact ⟨(text, i), rfl, hfirst⟩

variable (hv : SlotView api h slots)

include hv

omit hv in
theorem starts_nil (m : VmM H (List Variable)) (s : SqVm H) :
    Ends m s (fun vars _ => [] <+: vars) fun _ _ => True :=
  (ends_trivial m s).mono (fun _ _ _ => List.nil_prefix) fun _ _ _ => trivial

theorem starts_arrayChildren {a i m : Nat} {es : List Entry}
    (hw : Slots.Walk (slots (.array a)) i es) (hle : m ≤ n) {shown : List Variable}
    (hk : KeysShown api lib fuel h (es.take m))
    (hvars : List.Forall₂ (Child api lib fuel h (.array a)) (es.take m) shown) :
    Ends (arrayChildren api (renderer api lib fuel) n)
      ⟨.integer i :: .array a :: below, h, faults⟩ (fun vars _ => shown <+: vars)
      fun _ _ => True := by
  induction hw generalizing m n shown with
  | done hs =>
    rw [List.take_nil] at hvars
    cases hvars
    exact starts_nil _ _
  | @step i j e es hs hw ih =>
    cases m with
    | zero =>
      cases hvars
      exact starts_nil _ _
    | succ m =>
      obtain ⟨n, rfl⟩ : ∃ k, n = k + 1 := ⟨n - 1, by omega⟩
      obtain ⟨key, val⟩ := e
      rw [List.take_succ_cons] at hk hvars
      cases hvars with
      | cons hc hvars =>
        obtain ⟨value, hvalue, rfl⟩ := hc
        apply (gives_sqGetinteger api rfl : Gives _ _ [.integer i] _ _ _).bind_ends
        apply (gives_sqNext api rfl (hv.next_some hs) : Gives _ _ [_, .array a] _ _ _).bind_ends
        refine (hvalue.frame [key, .integer j, .array a]).bind_ends (gives_sqPoptop.bind_ends ?_)
        refine (hk.head.frame [.integer j, .array a]).bind_ends (gives_sqPoptop.bind_ends ?_)
        refine (ih (Nat.le_of_succ_le_succ hle) hk.tail hvars).bind fun vars _ hvars =>
          ends_pure ?_
        exact List.cons_prefix_cons.mpr ⟨rfl, hvars⟩

theorem starts_streamedChildren (ho : ∀ a, o ≠ .array a) {i m : Nat} {es : List Entry}
    (hw : Slots.Walk (slots o) i es) (hle : m ≤ n) {shown : List Variable}
    (hk : KeysShown api lib fuel h (es.take m))
    (hvars : List.Forall₂ (Child api lib fuel h o) (es.take m) shown) :
    Ends (streamedChildren api (renderer api lib fuel) n) ⟨.integer i :: o :: below, h, faults⟩
      (fun vars _ => shown <+: vars) fun _ _ => True := by
  induction hw generalizing m n shown with
  | done hs =>
    rw [List.take_nil] at hvars
    cases hvars
    exact starts_nil _ _
  | @step i j e es hs hw ih =>
    cases m with
    | zero =>
      cases hvars
      exact starts_nil _ _
    | succ m =>
      obtain ⟨n, rfl⟩ : ∃ k, n = k + 1 := ⟨n - 1, by omega⟩
      rw [List.take_succ_cons] at hk hvars
      cases hvars with
      | cons hc hvars =>
        apply (gives_sqGetinteger api rfl : Gives _ _ [.integer i] _ _ _).bind_ends
        apply (gives_sqNext api rfl (hv.next_some hs) : Gives _ _ [_, o] _ _ _).bind_ends
        apply ((gives_createTableChildVariable ho hk.head hc).frame [.integer j, o]).bind_ends
        refine (ih (Nat.le_of_succ_le_succ hle) hk.tail hvars).bind fun vars _ hvars =>
          ends_pure ?_
        exact List.cons_prefix_cons.mpr ⟨rfl, hvars⟩

theorem starts_sortedChildren (ho : ∀ a, o ≠ .array a) {es : List Entry}
    (hf : ∀ e ∈ es, Found slots o e) {shown : List Variable} (hk : KeysShown api lib fuel h es)
    (hvars : List.Forall₂ (Child api lib fuel h o) es shown) (keys : List (Bytes × Int)) :
    Ends (sortedChildren api (renderer api lib fuel) (es.map (keyPair api lib fuel h) ++ keys))
      ⟨o :: below, h, faults⟩ (fun vars _ => shown <+: vars) fun _ _ => True := by
  induction hvars with
  | nil => exact starts_nil _ _
  | @cons e x es shown hc hvars ih =>
    obtain ⟨j, hnext⟩ := hf e List.mem_cons_self
    rw [List.map_cons, List.cons_append]
    unfold sortedChildren
    apply (gives_sqPushobject _ : Gives _ _ [o] _ _ _).bind_ends
    apply (gives_sqNext api rfl (hv.next_some hnext) : Gives _ _ [_, o] _ _ _).bind_ends
    apply ((gives_createTableChildVariable ho hk.head hc).frame [.integer j, o]).bind_ends
    apply gives_sqPoptop.bind_ends
    refine (ih (fun e' he' => hf e' (List.mem_cons_of_mem _ he')) hk.tail).bind
      fun vars _ hvars => ends_pure ?_
    exact List.cons_prefix_cons.mpr ⟨rfl, hvars⟩

theorem starts_tableChildren (ho : o.type = .table ∨ o.type = .instance_)
    (hfuel : (Slots.entries (slots o)).length < fuel) {shorter : PaginationInfo} {es : List Entry}
    {shown : List Variable} (hp : Page api lib fuel h slots o shorter es)
    (hvars : List.Forall₂ (Child api lib fuel h o) es shown) {count : UInt32}
    (hle : shorter.count.toNat ≤ count.toNat) :
    Ends (tableChildren api lib (renderer api lib fuel) fuel ⟨shorter.beginIterator, count⟩)
      ⟨o :: below, h, faults⟩ (fun vars _ => shown <+: vars) fun _ _ => True := by
  have hno := not_array ho
  rw [page_table hno] at hp
  unfold tableChildren
  apply (gives_sqGetsize api rfl : Gives _ _ [o] _ _ _).bind_ends
  by_cases hsize : api.getsize h o < kMaxTableSizeToSort
  · rw [if_pos hsize] at hp ⊢
    have hmem : ∀ e ∈ es, e ∈ Slots.entries (slots o) := fun e he => SortedPage.mem hp he
    obtain ⟨-, hk, all, hs, rfl⟩ := hp
    have hkeys : Gives (sortedKeys api lib (L3.toString api lib fuel) fuel) h [o]
        (all.map (keyPair api lib fuel h)) h [o] := by
      rw [hs.sort]
      exact gives_sortedKeys lib hv hk hfuel
    have hprefix : (all.drop shorter.beginIterator.toNat).take shorter.count.toNat <+:
        (all.drop shorter.beginIterator.toNat).take count.toNat := List.take_prefix_take_left hle
    obtain ⟨more, hmore⟩ := hprefix
    apply hkeys.bind_ends
    split
    · exact ends_throw trivial
    rw [← List.map_drop, ← List.map_take]
    show Ends (sortedChildren api _ (((all.drop _).take count.toNat).map _)) _ _ _
    rw [← hmore, List.map_append]
    exact starts_sortedChildren hv hno (fun e he => Slots.next_of_mem_entries (hmem e he))
      (fun e he => hk e (hmem e he)) hvars _
  · rw [if_neg hsize] at hp ⊢
    obtain ⟨rfl, hk⟩ := hp
    apply (gives_sqPushobject _ : Gives _ _ [o] _ _ _).bind_ends
    exact Ends.bind (starts_streamedChildren hv hno (Slots.walk_entriesFrom _ _) hle hk hvars)
      fun vars _ hvars => Ends.bind (ends_trivial _ _) fun _ _ _ => ends_pure hvars

/-- A page in order is what every longer page from the same start begins with, whatever
the longer page comes to. -/
theorem starts_page (ho : o.type = .array ∨ o.type = .table ∨ o.type = .instance_)
    (hfuel : (Slots.entries (slots o)).length < fuel) {shorter : PaginationInfo} {es : List Entry}
    {shown : List Variable} (hp : Page api lib fuel h slots o shorter es)
    (hvars : List.Forall₂ (Child api lib fuel h o) es shown) {count : UInt32}
    (hle : shorter.count ≤ count) (below : List SqObject) (faults : List Fault) :
    Ends (createChildVariables api lib (renderer api lib fuel) fuel
        ⟨shorter.beginIterator, count⟩) ⟨o :: below, h, faults⟩ (fun vars _ => shown <+: vars)
      fun _ _ => True := by
  unfold createChildVariables
  apply (gives_sqGettype rfl : Gives _ _ [o] _ _ _).bind_ends
  cases o with
  | array a =>
    obtain ⟨rfl, hk⟩ := hp
    apply (gives_sqPushobject _ : Gives _ _ [.array a] _ _ _).bind_ends
    exact Ends.bind (starts_arrayChildren hv (Slots.walk_entriesFrom _ _) hle hk hvars)
      fun vars _ hvars => Ends.bind (ends_trivial _ _) fun _ _ _ => ends_pure hvars
  | table a => exact starts_tableChildren hv (.inl rfl) hfuel hp hvars hle
  | instance_ a => exact starts_tableChildren hv (.inr rfl) hfuel hp hvars hle
  | _ => simp [SqObject.type] at ho

end

section
variable {below : List SqObject} {faults : List Fault} {count : UInt32}

/-- A loop that starts at an iterator cut to 32 bits does not start with a child whose
iterator was cut. -/
theorem notFirst_of_cut {m : VmM H (List Variable)} {s : SqVm H}
    (hcut : ¬ x.pathIterator.toNat < 2 ^ 32)
    (hiter : Ends m s (fun vars _ => ∀ y, vars.head? = some y → y.pathIterator =
      UInt64.ofInt (pageFrom x.pathIterator count).beginIterator.toNat) fun _ _ => True) :
    Ends m s (fun vars _ => vars.head? ≠ some x) fun _ _ => True := by
  refine hiter.mono (fun vars _ hvars hhead => hcut ?_) fun _ _ _ => trivial
  have hit := congrArg UInt64.toNat (hvars x hhead)
  have hbegin : (pageFrom x.pathIterator count).beginIterator.toNat =
    x.pathIterator.toNat % 2 ^ 32 := toUInt32_toNat x.pathIterator
  rw [toNat_ofInt (by omega), hbegin] at hit
  omega

theorem notFirst_tableChildren (hv : SlotView api h slots)
    (ho : o.type = .table ∨ o.type = .instance_)
    (hfuel : (Slots.entries (slots o)).length < fuel)
    (hk : api.getsize h o < kMaxTableSizeToSort →
      KeysShown api lib fuel h (Slots.entries (slots o)))
    (hin : ¬ InPlace api lib fuel h slots o x.pathIterator) :
    Ends (tableChildren api lib (renderer api lib fuel) fuel (pageFrom x.pathIterator count))
      ⟨o :: below, h, faults⟩ (fun vars _ => vars.head? ≠ some x) fun _ _ => True := by
  rw [inPlace_table ho] at hin
  unfold tableChildren
  apply (gives_sqGetsize api rfl : Gives _ _ [o] _ _ _).bind_ends
  by_cases hsize : api.getsize h o < kMaxTableSizeToSort
  · -- a sorted page starts with the child at that index
    rw [if_pos hsize] at hin ⊢
    obtain ⟨all, hs⟩ := sorted_exists api lib fuel h slots o
    have hkeys : Gives (sortedKeys api lib (L3.toString api lib fuel) fuel) h [o]
        (all.map (keyPair api lib fuel h)) h [o] := by
      rw [hs.sort]
      exact gives_sortedKeys lib hv (hk hsize) hfuel
    apply hkeys.bind_ends
    split
    · exact ends_throw trivial
    rw [← List.map_drop, ← List.map_take]
    refine (firstIterator_sortedChildren _ _ _).mono (fun vars _ hvars hhead => hin ?_)
      fun _ _ _ => trivial
    obtain ⟨key, hmem, hit⟩ := hvars x hhead
    rw [List.head?_map, Option.mem_def, Option.map_eq_some_iff] at hmem
    obtain ⟨e', hfirst, rfl⟩ := hmem
    have hat : all[x.pathIterator.toUInt32.toNat]? = some e' := by
      rw [List.head?_take] at hfirst
      split at hfirst
      · cases hfirst
      · rw [← List.head?_drop]
        exact hfirst
    have hf' : Found slots o e' := Slots.next_of_mem_entries
      (hs.perm.mem_iff.mp (List.mem_of_getElem? hat))
    obtain ⟨j, hj⟩ := hf'
    have hlt := (Slots.next_lt hj).trans (hv.bounded o)
    refine ⟨all, e', hs, hat, ?_⟩
    rw [hit]
    exact (toNat_ofInt (by omega)).symm
  · rw [if_neg hsize] at hin ⊢
    apply (gives_sqPushobject _ : Gives _ _ [o] _ _ _).bind_ends
    exact Ends.bind (notFirst_of_cut hin (firstIterator_streamedChildren _ _))
      fun vars _ hvars => Ends.bind (ends_trivial _ _) fun _ _ _ => ends_pure hvars

/-- A child that is not in place is not what the page from its iterator on starts with. -/
theorem notFirst (hv : SlotView api h slots)
    (ho : o.type = .array ∨ o.type = .table ∨ o.type = .instance_)
    (hfuel : (Slots.entries (slots o)).length < fuel)
    (hk : (∀ a, o ≠ .array a) → api.getsize h o < kMaxTableSizeToSort →
      KeysShown api lib fuel h (Slots.entries (slots o)))
    (hin : ¬ InPlace api lib fuel h slots o x.pathIterator) :
    Ends (createChildVariables api lib (renderer api lib fuel) fuel
        (pageFrom x.pathIterator count)) ⟨o :: below, h, faults⟩
      (fun vars _ => vars.head? ≠ some x) fun _ _ => True := by
  unfold createChildVariables
  apply (gives_sqGettype rfl : Gives _ _ [o] _ _ _).bind_ends
  cases o with
  | array a =>
    apply (gives_sqPushobject _ : Gives _ _ [.array a] _ _ _).bind_ends
    exact Ends.bind (notFirst_of_cut hin (firstIterator_arrayChildren _ _)) fun vars _ hvars =>
      Ends.bind (ends_trivial _ _) fun _ _ _ => ends_pure hvars
  | table a => exact notFirst_tableChildren hv (.inl rfl) hfuel (hk (by simp)) hin
  | instance_ a => exact notFirst_tableChildren hv (.inr rfl) hfuel (hk (by simp)) hin
  | _ => simp [SqObject.type] at ho

end

/-- A returned page starts with the child exactly if the child is in place. -/
theorem returned_starts (hv : SlotView api h slots)
    (ho : o.type = .array ∨ o.type = .table ∨ o.type = .instance_)
    (hfuel : (Slots.entries (slots o)).length < fuel) {count : UInt32} (hcount : count ≠ 0)
    (hf : Found slots o e) (hc : Child api lib fuel h o e x) (he : e.1 = x.pathIterator.toNat)
    (hkey : Gives (L3.toString api lib fuel) h [e.2.1]
      (shownText (L3.toString api lib fuel) h e.2.1) h [e.2.1])
    (hk : (∀ a, o ≠ .array a) → api.getsize h o < kMaxTableSizeToSort →
      KeysShown api lib fuel h (Slots.entries (slots o)))
    (below : List SqObject) (faults : List Fault) :
    Ends (createChildVariables api lib (renderer api lib fuel) fuel
        (pageFrom x.pathIterator count)) ⟨o :: below, h, faults⟩
      (fun vars _ => vars.head? = some x ↔ InPlace api lib fuel h slots o x.pathIterator)
      fun _ _ => True := by
  by_cases hin : InPlace api lib fuel h slots o x.pathIterator
  · have hone : (1 : UInt32) ≤ count := by
      have hpos : count.toNat ≠ 0 := fun hzero => hcount (UInt32.toNat_inj.mp hzero)
      show 1 ≤ count.toNat
      omega
    have hpage : Page api lib fuel h slots o (pageFrom x.pathIterator 1) [e] :=
      page_one ho hf he hin hkey hk
    refine (starts_page hv ho hfuel hpage (.cons hc .nil) hone below faults).mono
      (fun vars _ hstart => iff_of_true ?_ hin) fun _ _ _ => trivial
    obtain ⟨more, rfl⟩ := hstart
    rfl
  · exact (notFirst hv ho hfuel hk hin).mono (fun _ _ hnot => iff_of_false hnot hin)
      fun _ _ _ => trivial

/-- A page can be shown exactly if the listing of it is in order. -/
theorem shown_iff (hv : SlotView api h slots)
    (ho : o.type = .array ∨ o.type = .table ∨ o.type = .instance_)
    (hfuel : (Slots.entries (slots o)).length < fuel) (pagination : PaginationInfo) :
    Shown api lib fuel h slots o pagination ↔
      ∃ vars, Gives (createChildVariables api lib (renderer api lib fuel) fuel pagination) h [o]
        vars h [o] := by
  constructor
  · intro hshown
    obtain ⟨es, hp, hshowable⟩ := hshown
    obtain ⟨vars, hvars⟩ := childrenOf_shown o es fun e he =>
      (showable_iff lib fuel hv.still e.2.2).mp (hshowable e he)
    exact ⟨vars, (createChildVariables_page hv ho hfuel pagination vars).mpr ⟨es, hp, hvars⟩⟩
  · intro hgives
    obtain ⟨vars, hgives⟩ := hgives
    obtain ⟨es, hp, hvars⟩ := (createChildVariables_page hv ho hfuel pagination vars).mp hgives
    exact ⟨es, hp, fun e he =>
      (showable_iff lib fuel hv.still e.2.2).mpr (shown_of_children hvars e he)⟩

/-- **Where paging resumes.** Of a child some page showed: a page asked for from its
`pathIterator` on, if it is returned, starts with it exactly if the child is in place;
and it is returned if the children on it can be shown. -/
theorem resumes_iff (hv : SlotView api h slots)
    (ho : o.type = .array ∨ o.type = .table ∨ o.type = .instance_)
    (hfuel : (Slots.entries (slots o)).length < fuel) {pagination : PaginationInfo}
    (hshown : Shown api lib fuel h slots o pagination) {rest : List SqObject}
    {recorded : List Fault} {vars : List Variable} {u : SqVm H}
    (hlisted : Returns (createChildVariables api lib (renderer api lib fuel) fuel pagination)
      ⟨o :: rest, h, recorded⟩ vars u) (hx : x ∈ vars) {count : UInt32} (hcount : count ≠ 0) :
    (∀ below faults page t, Returns (createChildVariables api lib (renderer api lib fuel) fuel
        (pageFrom x.pathIterator count)) ⟨o :: below, h, faults⟩ page t →
      (page.head? = some x ↔ InPlace api lib fuel h slots o x.pathIterator)) ∧
    (InPlace api lib fuel h slots o x.pathIterator ∧
        Shown api lib fuel h slots o (pageFrom x.pathIterator count) →
      Resumes api lib fuel h o x count) := by
  obtain ⟨vars₀, hgives₀⟩ := (shown_iff hv ho hfuel pagination).mp hshown
  obtain ⟨rfl, -⟩ := hlisted.unique (hgives₀ rest recorded)
  obtain ⟨es₀, hp₀, hvars₀⟩ := (createChildVariables_page hv ho hfuel pagination vars).mp hgives₀
  obtain ⟨e, hmem, hc⟩ := forall₂_mem_right hvars₀ hx
  have hf := hp₀.found ho hmem
  have he : e.1 = x.pathIterator.toNat := (hc.iterator_toNat hv hf).symm
  have hstarts : ∀ below faults page t, Returns (createChildVariables api lib
      (renderer api lib fuel) fuel (pageFrom x.pathIterator count)) ⟨o :: below, h, faults⟩ page t →
      (page.head? = some x ↔ InPlace api lib fuel h slots o x.pathIterator) :=
    fun below faults page t hreturns =>
      (returned_starts hv ho hfuel hcount hf hc he (hp₀.key ho hmem) hp₀.keys below
        faults).ok hreturns
  refine ⟨hstarts, ?_⟩
  intro hplace
  obtain ⟨hin, hshown'⟩ := hplace
  obtain ⟨page, hgives⟩ := (shown_iff hv ho hfuel _).mp hshown'
  obtain ⟨rest, rfl⟩ := List.head?_eq_some_iff.mp ((hstarts [] [] page _ (hgives [] [])).mpr hin)
  exact ⟨rest, fun below faults => ⟨_, hgives below faults⟩⟩

end

/-! ## An array that resumes, and a table that does not -/

/-- A page of `classHeap`, with the iterators it shows. -/
theorem listed_classHeap (o : SqObject) (pagination : PaginationInfo) (its : List UInt64)
    (ho : o.type = .array ∨ o.type = .table ∨ o.type = .instance_)
    (hok : faultless (createChildVariables heapApi insertionLib (renderer heapApi insertionLib 9) 9
      pagination) ⟨[o], classHeap true, []⟩ = true)
    (hits : (result (createChildVariables heapApi insertionLib (renderer heapApi insertionLib 9) 9
      pagination) ⟨[o], classHeap true, []⟩).map (·.map (·.pathIterator)) = some its) :
    ∃ vars, Gives (createChildVariables heapApi insertionLib (renderer heapApi insertionLib 9) 9
      pagination) (classHeap true) [o] vars (classHeap true) [o] ∧
        vars.map (·.pathIterator) = its := by
  obtain ⟨vars, _, ⟨rfl, -⟩, hgives⟩ :=
    (tells_createChildVariables (classHeap_view true) ho pagination).exists_gives hok
  refine ⟨vars, hgives, ?_⟩
  have hreturns := hgives [] []
  rw [List.append_nil] at hreturns
  rw [hreturns.result_eq] at hits
  exact Option.some.inj hits

/-- A page from the second element of array 3 on. -/
theorem resumes_array : ∃ vars x t, Returns (createChildVariables heapApi insertionLib
      (renderer heapApi insertionLib 9) 9 ⟨0, 5⟩) ⟨[.array 3], classHeap true, []⟩ vars t ∧
      x ∈ vars ∧ x.pathIterator = 1 ∧
      Resumes heapApi insertionLib 9 (classHeap true) (.array 3) x 5 := by
  have hv := classHeap_view true
  obtain ⟨vars, hgives, hits⟩ := listed_classHeap (.array 3) ⟨0, 5⟩ [0, 1]
    (.inl rfl) (by decide +kernel) (by decide +kernel)
  obtain ⟨x, hx, hit⟩ := List.mem_map.mp (show (1 : UInt64) ∈ vars.map (·.pathIterator) by
    rw [hits]
    decide)
  obtain ⟨page, hpage, -⟩ := listed_classHeap (.array 3) ⟨1, 5⟩ [1] (.inl rfl)
    (by decide +kernel) (by decide +kernel)
  have hshown := (shown_iff hv (.inl rfl) (by decide) ⟨0, 5⟩).mpr ⟨vars, hgives⟩
  have hlisted := hgives [] []
  refine ⟨vars, x, _, hlisted, hx, hit, (resumes_iff hv (.inl rfl) (by decide) hshown hlisted hx
    (show (5 : UInt32) ≠ 0 by decide)).2 ?_⟩
  rw [hit]
  exact ⟨show (1 : UInt64).toNat < 2 ^ 32 by decide,
    (shown_iff hv (.inl rfl) (by decide) ⟨1, 5⟩).mpr ⟨page, hpage⟩⟩

/-- Table 2 lists `a`, at iterator 2, before `b`, at iterator 0. The page from `b` on
starts with `a`. -/
theorem not_resumes_table : ¬ ∀ vars x, Gives (createChildVariables heapApi insertionLib
      (renderer heapApi insertionLib 9) 9 ⟨0, 5⟩) (classHeap true) [.table 2] vars (classHeap true)
      [.table 2] → x ∈ vars →
      Resumes heapApi insertionLib 9 (classHeap true) (.table 2) x 5 := by
  intro hall
  obtain ⟨vars, hgives, hits⟩ := listed_classHeap (.table 2) ⟨0, 5⟩ [2, 0]
    (.inr (.inl rfl)) (by decide +kernel) (by decide +kernel)
  obtain ⟨x, hx, hit⟩ := List.mem_map.mp (show (0 : UInt64) ∈ vars.map (·.pathIterator) by
    rw [hits]
    decide)
  obtain ⟨rest, hresumed⟩ := hall vars x hgives hx
  rw [hit, show pageFrom 0 5 = ⟨0, 5⟩ from rfl] at hresumed
  obtain ⟨t, hpage⟩ := hresumed [] []
  obtain ⟨rfl, -⟩ := (hgives [] []).unique hpage
  rw [List.map_cons, List.cons.injEq, hit] at hits
  exact absurd hits.1 (by decide)

end Sdb.L4
