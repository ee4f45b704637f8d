import Sdb.L4Display.Readings

/-!
# Pages of children

A page of `CreateChildVariables`: the children from `beginIterator` on, at most
`count` of them. A table or an instance of fewer than 1000 keys is sorted first
and `beginIterator` is an index into the sorted keys; otherwise it is an
iterator.

* `Page`: the slots on the page, and what must be in order for it;
* `createChildVariables_page`: the listing succeeds exactly if there is such a
  page and its children can be shown, and it returns these children;
* `sorted_page`: the sorted page is returned if `beginIterator` is at most the number
  of keys, every key has a text and the children of the page can be shown; where every
  key has a text, only then. Past the end the start position is undefined
  (`page_past_end`).
-/
namespace Sdb.L4

open Sdb.L1 Sdb.L3 Sdb.Exec

section
variable {H : Type}

/-- What `ToString` says of an object, if it says anything. -/
noncomputable def shownText (toString : VmM H Bytes) (h : H) (o : SqObject) : Bytes :=
  open Classical in
  if ht : ∃ t, Gives toString h [o] t h [o] then ht.choose else []

theorem gives_shownText {toString : VmM H Bytes} {h : H} {o : SqObject} {t : Bytes}
    (ht : Gives toString h [o] t h [o]) : Gives toString h [o] (shownText toString h o) h [o] := by
  have hex : ∃ t, Gives toString h [o] t h [o] := ⟨t, ht⟩
  unfold shownText
  rw [dif_pos hex]
  exact hex.choose_spec

variable (api : SqApi H) (lib : CppLib) (fuel : Nat) (h : H)
variable (slots : SqObject → List (Option (SqObject × SqObject)))

/-- Every key has a text. -/
abbrev KeysShown (es : List Entry) : Prop :=
  Texts (L3.toString api lib fuel) h (shownText (L3.toString api lib fuel) h) es

/-- `variable_` is what is returned for a slot of `o`. -/
abbrev Child (o : SqObject) (e : Entry) (variable_ : Variable) : Prop :=
  ChildOf api (L3.toString api lib fuel) fuel h (shownText (L3.toString api lib fuel) h) o e
    variable_

/-- What is sorted: the text of the key, and the iterator. -/
noncomputable def keyPair (e : Entry) : Bytes × Int :=
  (shownText (L3.toString api lib fuel) h e.2.1, e.1)

/-- `all` are the slots of `o` in the order of `std::sort`. -/
structure Sorted (o : SqObject) (all : List Entry) : Prop where
  perm : all.Perm (Slots.entries (slots o))
  sort : all.map (keyPair api lib fuel h) =
    lib.sort ((Slots.entries (slots o)).map (keyPair api lib fuel h))

/-- The slots from an iterator on. -/
def StreamedPage (o : SqObject) (pagination : PaginationInfo) (es : List Entry) : Prop :=
  es = (Slots.entriesFrom (slots o) pagination.beginIterator.toNat).take
      pagination.count.toNat ∧
    KeysShown api lib fuel h es

/-- The slots from an index of the sorted keys on. -/
def SortedPage (o : SqObject) (pagination : PaginationInfo) (es : List Entry) : Prop :=
  pagination.beginIterator.toNat ≤ (Slots.entries (slots o)).length ∧
    KeysShown api lib fuel h (Slots.entries (slots o)) ∧
    ∃ all, Sorted api lib fuel h slots o all ∧
      es = (all.drop pagination.beginIterator.toNat).take pagination.count.toNat

/-- `es` are the slots of `o` on the page. -/
def Page (o : SqObject) (pagination : PaginationInfo) (es : List Entry) : Prop :=
  match o with
  | .array _ => StreamedPage api lib fuel h slots o pagination es
  | _ =>
    if api.getsize h o < kMaxTableSizeToSort then SortedPage api lib fuel h slots o pagination es
    else StreamedPage api lib fuel h slots o pagination es

variable {api lib fuel h slots}

/-- A page of a table or an instance. -/
theorem page_table {o : SqObject} (ho : ∀ a, o ≠ .array a) (pagination : PaginationInfo)
    (es : List Entry) :
    Page api lib fuel h slots o pagination es ↔
      if api.getsize h o < kMaxTableSizeToSort then
        SortedPage api lib fuel h slots o pagination es
      else StreamedPage api lib fuel h slots o pagination es := by
  cases o with
  | array a => exact (ho a rfl).elim
  | _ => rfl

theorem not_array {o : SqObject} (ho : o.type = .table ∨ o.type = .instance_) (a : Nat) :
    o ≠ .array a := by
  intro heq
  rw [heq] at ho
  simp [SqObject.type] at ho

variable (api lib fuel h slots) in
theorem sorted_exists (o : SqObject) : ∃ all, Sorted api lib fuel h slots o all := by
  have hcomp : Relation.Comp (· = List.map (keyPair api lib fuel h) ·) List.Perm
      (lib.sort ((Slots.entries (slots o)).map (keyPair api lib fuel h)))
      (Slots.entries (slots o)) := by
    rw [List.eq_map_comp_perm]
    exact lib.sort_perm _
  obtain ⟨all, hsort, hperm⟩ := hcomp
  exact ⟨all, hperm, hsort.symm⟩

theorem SortedPage.mem {o : SqObject} {pagination : PaginationInfo} {es : List Entry}
    (hp : SortedPage api lib fuel h slots o pagination es) {e : Entry} (he : e ∈ es) :
    e ∈ Slots.entries (slots o) := by
  obtain ⟨-, -, all, hs, rfl⟩ := hp
  exact hs.perm.mem_iff.mp (List.mem_of_mem_drop (List.mem_of_mem_take he))

theorem forall₂_mem_right {α β : Type} {R : α → β → Prop} {as : List α} {bs : List β}
    (hr : List.Forall₂ R as bs) {b : β} (hb : b ∈ bs) : ∃ a ∈ as, R a b := by
  induction hr with
  | nil => cases hb
  | cons hab hrest ih =>
    rcases List.mem_cons.mp hb with rfl | hb
    · exact ⟨_, List.mem_cons_self, hab⟩
    · obtain ⟨a, ha, hab⟩ := ih hb
      exact ⟨a, List.mem_cons_of_mem _ ha, hab⟩

theorem forall₂_mem_left {α β : Type} {R : α → β → Prop} {as : List α} {bs : List β}
    (hr : List.Forall₂ R as bs) {a : α} (ha : a ∈ as) : ∃ b ∈ bs, R a b :=
  forall₂_mem_right hr.flip ha

theorem keysShown_nil : KeysShown api lib fuel h [] := by
  intro e he
  cases he

theorem keysShown_cons {e : Entry} {es : List Entry}
    (hkey : Gives (L3.toString api lib fuel) h [e.2.1]
      (shownText (L3.toString api lib fuel) h e.2.1) h [e.2.1])
    (hk : KeysShown api lib fuel h es) : KeysShown api lib fuel h (e :: es) := by
  intro e' he'
  rcases List.mem_cons.mp he' with rfl | he'
  · exact hkey
  · exact hk e' he'

/-- The text of a key is what is kept of it. -/
theorem tells_key (hs : Still api h) (o : SqObject) :
    Tells (L3.toString api lib fuel) h [o] fun text t => t = [o] ∧
      text = shownText (L3.toString api lib fuel) h o ∧
      Gives (L3.toString api lib fuel) h [o] text h [o] := by
  rcases steady_toString lib fuel hs o with ⟨text, _, rfl, ht⟩ | hslips
  · exact .inl ⟨text, _, ⟨rfl, ht.unique (gives_shownText ht), ht⟩, ht⟩
  · exact .inr hslips

theorem tells_child (hs : Still api h) (v : SqObject) :
    Tells (createChildVariable api (renderer api lib fuel)) h [v] fun value t => t = [v] ∧
      Gives (createChildVariable api (renderer api lib fuel)) h [v] value h [v] := by
  rcases steady_createChildVariable lib fuel hs v with ⟨value, _, rfl, hc⟩ | hslips
  · exact .inl ⟨value, _, ⟨rfl, hc⟩, hc⟩
  · exact .inr hslips

/-! ## What a listing that returns has listed -/

theorem tells_createTableChildVariable (hs : Still api h) {o : SqObject}
    (ho : ∀ a, o ≠ .array a) (e : Entry) :
    Tells (createTableChildVariable api (renderer api lib fuel) e.1) h [e.2.2, e.2.1]
      fun variable_ t => t = [] ∧
        Gives (L3.toString api lib fuel) h [e.2.1]
          (shownText (L3.toString api lib fuel) h e.2.1) h [e.2.1] ∧
        Child api lib fuel h o e variable_ := by
  have hadds : Adds (sqGettype 1 : VmM H SqObjectType) := (moves_sqGettype 1).adds
  unfold createTableChildVariable
  refine ((tells_child hs e.2.2).over [e.2.1]).bind (fun _ => ?_) ?_
  · exact adds_sqPoptop.bind fun _ => (net_toString api lib fuel).adds.bind fun _ =>
      hadds.bind fun _ => adds_sqPoptop.bind fun _ => adds_pure _
  · intro value t ht
    obtain ⟨rfl, hvalue⟩ := ht
    refine gives_sqPoptop.bind_tells ((tells_key hs e.2.1).bind (fun _ => ?_) ?_)
    · exact hadds.bind fun _ => adds_sqPoptop.bind fun _ => adds_pure _
    · intro text t ht
      obtain ⟨rfl, rfl, htext⟩ := ht
      refine (gives_sqGettype rfl).bind_tells (gives_sqPoptop.bind_tells ?_)
      refine (gives_pure _).tells ⟨rfl, htext, value, hvalue, ?_⟩
      cases o with
      | array a => exact (ho a rfl).elim
      | _ => rfl

variable (hv : SlotView api h slots)

include hv

theorem tells_keys {o : SqObject} {i n : Nat} {es : List Entry} (hw : Slots.Walk (slots o) i es) :
    Tells (collectKeys api (L3.toString api lib fuel) n) h [.integer i, o]
      fun keys t => (∃ j : Nat, t = [.integer j, o]) ∧ keys = es.map (keyPair api lib fuel h) ∧
        KeysShown api lib fuel h es := by
  have hnet := net_toString api lib fuel
  induction hw generalizing n with
  | @done i hs =>
    cases n with
    | zero => exact tells_throw noExit_fuel
    | succ n =>
      refine (gives_sqGetinteger api rfl).bind_tells ?_
      refine (gives_sqNext_none api rfl (hv.next_none hs)).bind_tells ?_
      exact (gives_pure _).tells ⟨⟨i, rfl⟩, rfl, keysShown_nil⟩
  | @step i j a es hs hw ih =>
    cases n with
    | zero => exact tells_throw noExit_fuel
    | succ n =>
      obtain ⟨key, val⟩ := a
      refine (gives_sqGetinteger api rfl).bind_tells ?_
      refine (gives_sqNext api rfl (hv.next_some hs)).bind_tells (gives_sqPoptop.bind_tells ?_)
      refine ((tells_key hv.still key).over [.integer j, o]).bind (fun _ => ?_) ?_
      · exact adds_sqPoptop.bind fun _ => (net_collectKeys api hnet n).adds.bind fun _ =>
          adds_pure _
      · intro text t ht
        obtain ⟨rfl, rfl, htext⟩ := ht
        refine gives_sqPoptop.bind_tells (ih.bind (fun _ => adds_pure _) ?_)
        intro keys t ht
        obtain ⟨⟨j', rfl⟩, rfl, hk⟩ := ht
        exact (gives_pure _).tells ⟨⟨j', rfl⟩, rfl, keysShown_cons htext hk⟩

theorem tells_sortedKeys (o : SqObject) (n : Nat) :
    Tells (sortedKeys api lib (L3.toString api lib fuel) n) h [o] fun keys t => t = [o] ∧
      keys = lib.sort ((Slots.entries (slots o)).map (keyPair api lib fuel h)) ∧
      KeysShown api lib fuel h (Slots.entries (slots o)) := by
  unfold sortedKeys
  refine (gives_sqPushobject _).bind_tells ?_
  refine (tells_keys hv (Slots.walk_entries (slots o))).bind
    (fun _ => adds_sqPoptop.bind fun _ => adds_pure _) ?_
  intro keys t ht
  obtain ⟨⟨j, rfl⟩, rfl, hk⟩ := ht
  exact gives_sqPoptop.bind_tells ((gives_pure _).tells ⟨rfl, rfl, hk⟩)

theorem tells_sortedChildren {o : SqObject} (ho : ∀ a, o ≠ .array a) {es : List Entry}
    (hes : ∀ e ∈ es, e ∈ Slots.entries (slots o)) :
    Tells (sortedChildren api (renderer api lib fuel) (es.map (keyPair api lib fuel h))) h [o]
      fun vars t => t = [o] ∧ List.Forall₂ (Child api lib fuel h o) es vars := by
  have hrenders := renders_renderer api lib fuel
  induction es with
  | nil => exact (gives_pure _).tells ⟨rfl, .nil⟩
  | cons e es ih =>
    obtain ⟨j, hnext⟩ := Slots.next_of_mem_entries (hes e List.mem_cons_self)
    refine (gives_sqPushobject _).bind_tells ?_
    refine (gives_sqNext api rfl (hv.next_some hnext)).bind_tells ?_
    refine ((tells_createTableChildVariable hv.still ho e).over [.integer j, o]).bind
      (fun _ => ?_) ?_
    · exact adds_sqPoptop.bind fun _ =>
        (net_sortedChildren api hrenders (es.map (keyPair api lib fuel h))).adds.bind fun _ =>
          adds_pure _
    · intro variable_ t ht
      obtain ⟨rfl, -, hc⟩ := ht
      refine gives_sqPoptop.bind_tells ((ih fun e' he' =>
        hes e' (List.mem_cons_of_mem _ he')).bind (fun _ => adds_pure _) ?_)
      intro vars t ht
      obtain ⟨rfl, hvars⟩ := ht
      exact (gives_pure _).tells ⟨rfl, .cons hc hvars⟩

theorem tells_streamedChildren {o : SqObject} (ho : ∀ a, o ≠ .array a) {i n : Nat}
    {es : List Entry} (hw : Slots.Walk (slots o) i es) :
    Tells (streamedChildren api (renderer api lib fuel) n) h [.integer i, o] fun vars t =>
      (∃ j : Nat, t = [.integer j, o]) ∧ KeysShown api lib fuel h (es.take n) ∧
        List.Forall₂ (Child api lib fuel h o) (es.take n) vars := by
  have hrenders := renders_renderer api lib fuel
  induction hw generalizing n with
  | @done i hs =>
    rw [List.take_nil]
    cases n with
    | zero => exact (gives_pure _).tells ⟨⟨i, rfl⟩, keysShown_nil, .nil⟩
    | succ n =>
      refine (gives_sqGetinteger api rfl).bind_tells ?_
      refine (gives_sqNext_none api rfl (hv.next_none hs)).bind_tells ?_
      exact (gives_pure _).tells ⟨⟨i, rfl⟩, keysShown_nil, .nil⟩
  | @step i j a es hs hw ih =>
    cases n with
    | zero => exact (gives_pure _).tells ⟨⟨i, rfl⟩, keysShown_nil, .nil⟩
    | succ n =>
      rw [List.take_succ_cons]
      refine (gives_sqGetinteger api rfl).bind_tells ?_
      refine (gives_sqNext api rfl (hv.next_some hs)).bind_tells ?_
      refine ((tells_createTableChildVariable hv.still ho (i, a)).over [.integer j, o]).bind
        (fun _ => ?_) ?_
      · exact (net_streamedChildren api hrenders n).adds.bind fun _ => adds_pure _
      · intro variable_ t ht
        obtain ⟨rfl, hkey, hc⟩ := ht
        refine ih.bind (fun _ => adds_pure _) ?_
        intro vars t ht
        obtain ⟨⟨j', rfl⟩, hk, hvars⟩ := ht
        exact (gives_pure _).tells ⟨⟨j', rfl⟩, keysShown_cons hkey hk, .cons hc hvars⟩

theorem tells_arrayChildren {a i n : Nat} {es : List Entry}
    (hw : Slots.Walk (slots (.array a)) i es) :
    Tells (arrayChildren api (renderer api lib fuel) n) h [.integer i, .array a] fun vars t =>
      (∃ j : Nat, t = [.integer j, .array a]) ∧ KeysShown api lib fuel h (es.take n) ∧
        List.Forall₂ (Child api lib fuel h (.array a)) (es.take n) vars := by
  have hrenders := renders_renderer api lib fuel
  induction hw generalizing n with
  | @done i hs =>
    rw [List.take_nil]
    cases n with
    | zero => exact (gives_pure _).tells ⟨⟨i, rfl⟩, keysShown_nil, .nil⟩
    | succ n =>
      refine (gives_sqGetinteger api rfl).bind_tells ?_
      refine (gives_sqNext_none api rfl (hv.next_none hs)).bind_tells ?_
      exact (gives_pure _).tells ⟨⟨i, rfl⟩, keysShown_nil, .nil⟩
  | @step i j e es hs hw ih =>
    cases n with
    | zero => exact (gives_pure _).tells ⟨⟨i, rfl⟩, keysShown_nil, .nil⟩
    | succ n =>
      have hnet := net_arrayChildren api hrenders n
      obtain ⟨key, val⟩ := e
      rw [List.take_succ_cons]
      refine (gives_sqGetinteger api rfl).bind_tells ?_
      refine (gives_sqNext api rfl (hv.next_some hs)).bind_tells ?_
      refine ((tells_child hv.still val).over [key, .integer j, .array a]).bind (fun _ => ?_) ?_
      · exact adds_sqPoptop.bind fun _ => (net_toString api lib fuel).adds.bind fun _ =>
          adds_sqPoptop.bind fun _ => hnet.adds.bind fun _ => adds_pure _
      · intro value t ht
        obtain ⟨rfl, hvalue⟩ := ht
        refine gives_sqPoptop.bind_tells
          (((tells_key hv.still key).over [.integer j, .array a]).bind (fun _ => ?_) ?_)
        · exact adds_sqPoptop.bind fun _ => hnet.adds.bind fun _ => adds_pure _
        · intro text t ht
          obtain ⟨rfl, rfl, htext⟩ := ht
          refine gives_sqPoptop.bind_tells (ih.bind (fun _ => adds_pure _) ?_)
          intro vars t ht
          obtain ⟨⟨j', rfl⟩, hk, hvars⟩ := ht
          exact (gives_pure _).tells
            ⟨⟨j', rfl⟩, keysShown_cons htext hk, .cons ⟨value, hvalue, rfl⟩ hvars⟩

theorem tells_tableChildren {o : SqObject} (ho : ∀ a, o ≠ .array a) (pagination : PaginationInfo) :
    Tells (tableChildren api lib (renderer api lib fuel) fuel pagination) h [o] fun vars t =>
      t = [o] ∧ ∃ es, Page api lib fuel h slots o pagination es ∧
        List.Forall₂ (Child api lib fuel h o) es vars := by
  have hrenders := renders_renderer api lib fuel
  have hpage : ∀ es, Page api lib fuel h slots o pagination es ↔ _ := page_table ho pagination
  unfold tableChildren
  refine (gives_sqGetsize api rfl).bind_tells ?_
  by_cases hsize : api.getsize h o < kMaxTableSizeToSort
  · simp only [if_pos hsize] at hpage ⊢
    refine (tells_sortedKeys hv o fuel).bind (fun keys => ?_) ?_
    · split
      · exact adds_throw _
      · exact (net_sortedChildren api hrenders _).adds
    · intro keys t ht
      obtain ⟨rfl, rfl, hk⟩ := ht
      have hlen : (lib.sort ((Slots.entries (slots o)).map (keyPair api lib fuel h))).length =
          (Slots.entries (slots o)).length := by
        rw [(lib.sort_perm _).length_eq, List.length_map]
      rw [hlen]
      split
      · exact tells_throw noExit_undefined
      · rename_i hle
        obtain ⟨all, hs⟩ := sorted_exists api lib fuel h slots o
        rw [← hs.sort, ← List.map_drop, ← List.map_take]
        have hp : SortedPage api lib fuel h slots o pagination
            ((all.drop pagination.beginIterator.toNat).take pagination.count.toNat) :=
          ⟨Nat.le_of_not_lt hle, hk, all, hs, rfl⟩
        refine (tells_sortedChildren hv ho fun e he => hp.mem he).mono ?_
        intro vars t ht
        obtain ⟨rfl, hvars⟩ := ht
        exact ⟨rfl, _, (hpage _).mpr hp, hvars⟩
  · simp only [if_neg hsize] at hpage ⊢
    refine (gives_sqPushobject _).bind_tells ?_
    refine (tells_streamedChildren hv ho (Slots.walk_entriesFrom _ _)).bind
      (fun _ => adds_sqPoptop.bind fun _ => adds_pure _) ?_
    intro vars t ht
    obtain ⟨⟨j, rfl⟩, hk, hvars⟩ := ht
    exact gives_sqPoptop.bind_tells ((gives_pure _).tells
      ⟨rfl, _, (hpage _).mpr ⟨rfl, hk⟩, hvars⟩)

theorem tells_createChildVariables {o : SqObject}
    (ho : o.type = .array ∨ o.type = .table ∨ o.type = .instance_) (pagination : PaginationInfo) :
    Tells (createChildVariables api lib (renderer api lib fuel) fuel pagination) h [o]
      fun vars t => t = [o] ∧ ∃ es, Page api lib fuel h slots o pagination es ∧
        List.Forall₂ (Child api lib fuel h o) es vars := by
  unfold createChildVariables
  refine (gives_sqGettype rfl).bind_tells ?_
  cases o with
  | array a =>
    refine (gives_sqPushobject _).bind_tells ?_
    refine (tells_arrayChildren hv (Slots.walk_entriesFrom _ _)).bind
      (fun _ => adds_sqPoptop.bind fun _ => adds_pure _) ?_
    intro vars t ht
    obtain ⟨⟨j, rfl⟩, hk, hvars⟩ := ht
    exact gives_sqPoptop.bind_tells ((gives_pure _).tells ⟨rfl, _, ⟨rfl, hk⟩, hvars⟩)
  | table a => exact tells_tableChildren hv (by simp) pagination
  | instance_ a => exact tells_tableChildren hv (by simp) pagination
  | _ => simp [SqObject.type] at ho

/-! ## A page that is in order is returned -/

theorem gives_tablePage {o : SqObject} (ho : o.type = .table ∨ o.type = .instance_)
    (hf : api.getsize h o < kMaxTableSizeToSort → (Slots.entries (slots o)).length < fuel)
    {pagination : PaginationInfo}
    {es : List Entry} {vars : List Variable} (hp : Page api lib fuel h slots o pagination es)
    (hvars : List.Forall₂ (Child api lib fuel h o) es vars) :
    Gives (tableChildren api lib (renderer api lib fuel) fuel pagination) h [o] vars h [o] := by
  have hno := not_array ho
  have hpage := (page_table hno pagination es).mp hp
  unfold tableChildren
  refine (gives_sqGetsize api rfl).bind ?_
  by_cases hsize : api.getsize h o < kMaxTableSizeToSort
  · rw [if_pos hsize] at hpage ⊢
    have hmem : ∀ e ∈ es, e ∈ Slots.entries (slots o) := fun e he => hpage.mem he
    obtain ⟨hle, hk, all, hs, rfl⟩ := hpage
    have hkeys : Gives (sortedKeys api lib (L3.toString api lib fuel) fuel) h [o]
        (lib.sort ((Slots.entries (slots o)).map (keyPair api lib fuel h))) h [o] :=
      gives_sortedKeys lib hv hk (hf hsize)
    refine hkeys.bind ?_
    have hlen : ¬ (lib.sort ((Slots.entries (slots o)).map (keyPair api lib fuel h))).length <
        pagination.beginIterator.toNat := by
      rw [(lib.sort_perm _).length_eq, List.length_map]
      omega
    rw [if_neg hlen, ← hs.sort, ← List.map_drop, ← List.map_take]
    exact gives_sortedChildren hv hno hmem (fun e he => hk e (hmem e he)) hvars
  · rw [if_neg hsize] at hpage ⊢
    obtain ⟨rfl, hk⟩ := hpage
    obtain ⟨j, hrec⟩ := gives_streamedChildren hv hno (Slots.walk_entriesFrom _ _) hk hvars
    exact (gives_sqPushobject _).bind (hrec.bind (gives_sqPoptop.bind (gives_pure _)))

/-- Only the sorted keys need the bound. -/
theorem gives_page {o : SqObject} (ho : o.type = .array ∨ o.type = .table ∨ o.type = .instance_)
    (hf : (∀ a, o ≠ .array a) → api.getsize h o < kMaxTableSizeToSort →
      (Slots.entries (slots o)).length < fuel)
    {pagination : PaginationInfo} {es : List Entry} {vars : List Variable}
    (hp : Page api lib fuel h slots o pagination es)
    (hvars : List.Forall₂ (Child api lib fuel h o) es vars) :
    Gives (createChildVariables api lib (renderer api lib fuel) fuel pagination) h [o] vars h
      [o] := by
  unfold createChildVariables
  refine (gives_sqGettype rfl).bind ?_
  cases o with
  | array a =>
    obtain ⟨rfl, hk⟩ := hp
    obtain ⟨j, hrec⟩ := gives_arrayChildren hv (Slots.walk_entriesFrom _ _) hk hvars
    exact (gives_sqPushobject _).bind (hrec.bind (gives_sqPoptop.bind (gives_pure _)))
  | table a => exact gives_tablePage hv (.inl rfl) (hf (by simp)) hp hvars
  | instance_ a => exact gives_tablePage hv (.inr rfl) (hf (by simp)) hp hvars
  | _ => simp [SqObject.type] at ho

/-- **What a page lists.** The listing returns exactly if there is such a page and
its children can be shown, and it returns them. -/
theorem createChildVariables_page {o : SqObject}
    (ho : o.type = .array ∨ o.type = .table ∨ o.type = .instance_)
    (hf : (Slots.entries (slots o)).length < fuel) (pagination : PaginationInfo)
    (vars : List Variable) :
    Gives (createChildVariables api lib (renderer api lib fuel) fuel pagination) h [o] vars h [o] ↔
      ∃ es, Page api lib fuel h slots o pagination es ∧
        List.Forall₂ (Child api lib fuel h o) es vars := by
  constructor
  · intro hgives
    exact ((tells_createChildVariables hv ho pagination).of_gives hgives).2
  · intro hpage
    obtain ⟨es, hp, hvars⟩ := hpage
    exact gives_page hv ho (fun _ _ => hf) hp hvars

end

/-! ## Sorted pages -/

section
variable {H : Type} (api : SqApi H) (lib : CppLib) (fuel : Nat) (h : H)
variable (slots : SqObject → List (Option (SqObject × SqObject)))

/-- The children of a small table, sorted, from index `beginIterator` on and at
most `count` of them, are returned, whatever lies below on the stack. -/
def Served (o : SqObject) (pagination : PaginationInfo) : Prop :=
  ∃ all vars, Sorted api lib fuel h slots o all ∧
    List.Forall₂ (Child api lib fuel h o)
      ((all.drop pagination.beginIterator.toNat).take pagination.count.toNat) vars ∧
    ∀ rest faults, ∃ t, Returns (createChildVariables api lib (renderer api lib fuel) fuel
      pagination) ⟨o :: rest, h, faults⟩ vars t

/-- Every key of `o` has a text. -/
def KeysLegible (o : SqObject) : Prop :=
  ∀ e ∈ Slots.entries (slots o), Legible api lib fuel h e.2.1

/-- Every key has a text, and the children on the page have a value to show. -/
structure Presentable (o : SqObject) (pagination : PaginationInfo) : Prop where
  keys : KeysLegible api lib fuel h slots o
  page : ∃ all, Sorted api lib fuel h slots o all ∧
    ∀ e ∈ (all.drop pagination.beginIterator.toNat).take pagination.count.toNat,
      Showable api lib fuel h e.2.2

variable {api lib fuel h slots}

theorem childrenOf_shown (o : SqObject) (es : List Entry)
    (hes : ∀ e ∈ es, ∃ value,
      Gives (createChildVariable api (renderer api lib fuel)) h [e.2.2] value h [e.2.2]) :
    ∃ vars, List.Forall₂ (Child api lib fuel h o) es vars := by
  induction es with
  | nil => exact ⟨[], .nil⟩
  | cons e es ih =>
    obtain ⟨value, hvalue⟩ := hes e List.mem_cons_self
    obtain ⟨vars, hvars⟩ := ih fun e' he' => hes e' (List.mem_cons_of_mem _ he')
    exact ⟨_ :: vars, .cons ⟨value, hvalue, rfl⟩ hvars⟩

theorem shown_of_children {o : SqObject} {es : List Entry} {vars : List Variable}
    (hvars : List.Forall₂ (Child api lib fuel h o) es vars) : ∀ e ∈ es, ∃ value,
      Gives (createChildVariable api (renderer api lib fuel)) h [e.2.2] value h [e.2.2] := by
  intro e he
  obtain ⟨_, -, value, hvalue, -⟩ := forall₂_mem_left hvars he
  exact ⟨value, hvalue⟩

theorem page_small {o : SqObject} (ho : o.type = .table ∨ o.type = .instance_)
    (hsize : api.getsize h o < kMaxTableSizeToSort) (pagination : PaginationInfo)
    (es : List Entry) :
    Page api lib fuel h slots o pagination es ↔
      SortedPage api lib fuel h slots o pagination es :=
  (page_table (not_array ho) pagination es).trans (iff_of_eq (if_pos hsize))

theorem keysShown_iff (hs : Still api h) (es : List Entry) :
    KeysShown api lib fuel h es ↔ ∀ e ∈ es, Legible api lib fuel h e.2.1 := by
  refine forall₂_congr fun e _ => (Iff.intro (fun htext => ⟨_, htext⟩) fun hlegible => ?_).trans
    (legible_iff lib fuel hs e.2.1).symm
  obtain ⟨text, htext⟩ := hlegible
  exact gives_shownText htext

theorem KeysLegible.shown (hs : Still api h) {o : SqObject}
    (hk : KeysLegible api lib fuel h slots o) :
    KeysShown api lib fuel h (Slots.entries (slots o)) :=
  (keysShown_iff hs _).mpr hk

/-- The listing of a small table or instance throws where its sorted branch does. -/
theorem throws_small {o : SqObject} (ho : o.type = .table ∨ o.type = .instance_)
    (hsize : api.getsize h o < kMaxTableSizeToSort) {pagination : PaginationInfo}
    (hm : Throws (sortedKeys api lib (L3.toString api lib fuel) fuel >>= fun keys =>
      if keys.length < pagination.beginIterator.toNat then throw .undefined
      else sortedChildren api (renderer api lib fuel)
        ((keys.drop pagination.beginIterator.toNat).take pagination.count.toNat)) h [o]) :
    Throws (createChildVariables api lib (renderer api lib fuel) fuel pagination) h [o] := by
  have htable : Throws (tableChildren api lib (renderer api lib fuel) fuel pagination) h [o] := by
    unfold tableChildren
    refine (gives_sqGetsize api rfl).bind_throws ?_
    rw [if_pos hsize]
    exact hm
  unfold createChildVariables
  refine (gives_sqGettype rfl).bind_throws ?_
  rcases ho with ho | ho
  · rw [ho]
    exact htable
  · rw [ho]
    exact htable

/-- A start past the sorted keys is undefined. -/
theorem throws_pastEnd (hv : SlotView api h slots) {o : SqObject}
    (ho : o.type = .table ∨ o.type = .instance_)
    (hsize : api.getsize h o < kMaxTableSizeToSort)
    (hf : (Slots.entries (slots o)).length < fuel)
    (hk : KeysShown api lib fuel h (Slots.entries (slots o))) {pagination : PaginationInfo}
    (hlt : (Slots.entries (slots o)).length < pagination.beginIterator.toNat) :
    Throws (createChildVariables api lib (renderer api lib fuel) fuel pagination) h [o] := by
  have hkeys : Gives (sortedKeys api lib (L3.toString api lib fuel) fuel) h [o]
      (lib.sort ((Slots.entries (slots o)).map (keyPair api lib fuel h))) h [o] :=
    gives_sortedKeys lib hv hk hf
  refine throws_small ho hsize (hkeys.bind_throws ?_)
  rw [(lib.sort_perm _).length_eq, List.length_map, if_pos hlt]
  exact throws_throw _

/-! ## A container that is in order -/

variable (api lib fuel h slots) in
/-- Every key and every child of `o` has something to show. -/
def Presents (o : SqObject) : Prop :=
  ∀ slot ∈ (slots o).reduceOption, Legible api lib fuel h slot.1 ∧ Showable api lib fuel h slot.2

instance (o : SqObject) : Decidable (Presents api lib fuel h slots o) :=
  inferInstanceAs (Decidable (∀ slot ∈ (slots o).reduceOption, _))

variable (api h slots) in
/-- The page starts inside the keys, where they are sorted. -/
def StartsInside (o : SqObject) (pagination : PaginationInfo) : Prop :=
  (∀ a, o ≠ .array a) → api.getsize h o < kMaxTableSizeToSort →
    pagination.beginIterator.toNat ≤ (Slots.entries (slots o)).length

theorem Presents.of_next {o : SqObject} (hp : Presents api lib fuel h slots o) {i j : Nat}
    {slot : SqObject × SqObject} (hn : Slots.next (slots o) i = some (slot, j)) :
    Legible api lib fuel h slot.1 ∧ Showable api lib fuel h slot.2 := by
  obtain ⟨k, -, -, hslot⟩ := Slots.next_position hn
  exact hp slot (mem_reduceOption hslot)

theorem Presents.keysLegible {o : SqObject} (hp : Presents api lib fuel h slots o) :
    KeysLegible api lib fuel h slots o := by
  intro e he
  obtain ⟨j, hn⟩ := Slots.next_of_mem_entries he
  exact (hp.of_next hn).1

theorem Presents.page (hs : Still api h) {o : SqObject} (hp : Presents api lib fuel h slots o)
    {pagination : PaginationInfo} (hle : StartsInside api h slots o pagination) :
    ∃ es vars, Page api lib fuel h slots o pagination es ∧
      List.Forall₂ (Child api lib fuel h o) es vars := by
  have hlegible := hp.keysLegible.shown hs
  have hshown : ∀ {es : List Entry}, (∀ e ∈ es, ∃ j, Slots.next (slots o) e.1 = some (e.2, j)) →
      ∃ vars, List.Forall₂ (Child api lib fuel h o) es vars := by
    intro es hes
    refine childrenOf_shown o es fun e he => ?_
    obtain ⟨j, hn⟩ := hes e he
    exact (showable_iff lib fuel hs e.2.2).mp (hp.of_next hn).2
  have hstreamed : ∃ es vars, StreamedPage api lib fuel h slots o pagination es ∧
      List.Forall₂ (Child api lib fuel h o) es vars := by
    have hnext : ∀ e ∈ (Slots.entriesFrom (slots o) pagination.beginIterator.toNat).take
        pagination.count.toNat, ∃ j, Slots.next (slots o) e.1 = some (e.2, j) := fun e he =>
      (Slots.walk_entriesFrom _ _).next_of_mem (List.mem_of_mem_take he)
    obtain ⟨vars, hvars⟩ := hshown hnext
    refine ⟨_, vars, ⟨rfl, (keysShown_iff hs _).mpr fun e he => ?_⟩, hvars⟩
    obtain ⟨j, hn⟩ := hnext e he
    exact (hp.of_next hn).1
  by_cases ho : ∃ a, o = .array a
  · obtain ⟨a, rfl⟩ := ho
    exact hstreamed
  · have hno : ∀ a, o ≠ .array a := fun a heq => ho ⟨a, heq⟩
    simp only [page_table hno]
    split
    · rename_i hsize
      obtain ⟨all, hall⟩ := sorted_exists api lib fuel h slots o
      have hpage : SortedPage api lib fuel h slots o pagination
          ((all.drop pagination.beginIterator.toNat).take pagination.count.toNat) :=
        ⟨hle hno hsize, hlegible, all, hall, rfl⟩
      obtain ⟨vars, hvars⟩ := hshown fun e he => Slots.next_of_mem_entries (hpage.mem he)
      exact ⟨_, vars, hpage, hvars⟩
    · exact hstreamed

/-- A page of a container that is in order, if it is returned at all, is returned in
order. -/
theorem Presents.returned (hv : SlotView api h slots) {o : SqObject}
    (hp : Presents api lib fuel h slots o)
    (ho : o.type = .array ∨ o.type = .table ∨ o.type = .instance_) {pagination : PaginationInfo}
    (hle : StartsInside api h slots o pagination) {rest : List SqObject} {faults : List Fault}
    {vars : List Variable} {t : SqVm H}
    (hr : Returns (createChildVariables api lib (renderer api lib fuel) fuel pagination)
      ⟨o :: rest, h, faults⟩ vars t) :
    ∃ es, Page api lib fuel h slots o pagination es ∧
      List.Forall₂ (Child api lib fuel h o) es vars := by
  obtain ⟨es, vars', hpage, hvars⟩ := hp.page hv.still hle
  by_cases hf : (∀ a, o ≠ .array a) → api.getsize h o < kMaxTableSizeToSort →
      (Slots.entries (slots o)).length < fuel
  · obtain ⟨rfl, -⟩ := hr.unique ((gives_page hv ho hf hpage hvars) rest faults)
    exact ⟨es, hpage, hvars⟩
  · -- the bound is used up by the keys
    simp only [not_forall, Nat.not_lt] at hf
    obtain ⟨hno, hsize, hlt⟩ := hf
    have htable : o.type = .table ∨ o.type = .instance_ := by
      refine ho.resolve_left fun harray => ?_
      cases o with
      | array a => exact hno a rfl
      | _ => cases harray
    have hkeys := throws_collectKeys hv (Slots.walk_entries _) (hp.keysLegible.shown hv.still) hlt
    have hthrows : Throws (createChildVariables api lib (renderer api lib fuel) fuel pagination)
        h [o] := by
      refine throws_small htable hsize (Throws.bind ?_)
      exact (gives_sqPushobject _).bind_throws hkeys.bind
    obtain ⟨e, u, herror⟩ := hthrows rest faults
    cases hr.symm.trans herror

/-- **Pagination and the end of the key list.** The sorted page is returned, and no
position outside the sorted keys is formed, if `beginIterator` is at most the number of
keys and what the listing renders has a text and a value; where every key has a text, only
then. -/
theorem sorted_page (hv : SlotView api h slots) {o : SqObject}
    (ho : o.type = .table ∨ o.type = .instance_)
    (hsize : api.getsize h o < kMaxTableSizeToSort)
    (hf : (Slots.entries (slots o)).length < fuel) (pagination : PaginationInfo) :
    (pagination.beginIterator.toNat ≤ (Slots.entries (slots o)).length ∧
        Presentable api lib fuel h slots o pagination →
      Served api lib fuel h slots o pagination) ∧
    (KeysLegible api lib fuel h slots o → Served api lib fuel h slots o pagination →
      pagination.beginIterator.toNat ≤ (Slots.entries (slots o)).length ∧
        Presentable api lib fuel h slots o pagination) := by
  constructor
  · intro hpresent
    obtain ⟨hle, hlegible, all, hs, hshown⟩ := hpresent
    have hchildren : ∃ vars, List.Forall₂ (Child api lib fuel h o) _ vars :=
      childrenOf_shown o _ fun e he => (showable_iff lib fuel hv.still e.2.2).mp (hshown e he)
    obtain ⟨vars, hvars⟩ := hchildren
    have hp : SortedPage api lib fuel h slots o pagination
        ((all.drop pagination.beginIterator.toNat).take pagination.count.toNat) :=
      ⟨hle, hlegible.shown hv.still, all, hs, rfl⟩
    have hgives := (createChildVariables_page hv (.inr ho) hf pagination vars).mpr
      ⟨_, (page_small ho hsize pagination _).mpr hp, hvars⟩
    exact ⟨all, vars, hs, hvars, fun rest faults => ⟨_, hgives rest faults⟩⟩
  · intro hlegible hserved
    obtain ⟨all, vars, hs, hvars, hreturns⟩ := hserved
    refine ⟨Nat.le_of_not_lt fun hlt => ?_, hlegible, all, hs, fun e he => ?_⟩
    · have hthrows := throws_pastEnd hv ho hsize hf (hlegible.shown hv.still) hlt
      obtain ⟨e, t, herror⟩ := hthrows [] []
      obtain ⟨u, hok⟩ := hreturns [] []
      cases hok.symm.trans herror
    · exact (showable_iff lib fuel hv.still e.2.2).mpr (shown_of_children hvars e he)

end

/-- From index 1 on, of the two children of table 2. -/
theorem sorted_page_classHeap :
    Served heapApi insertionLib 9 (classHeap true) (classHeap true).slots (.table 2) ⟨1, 5⟩ := by
  obtain ⟨all, hs⟩ := sorted_exists heapApi insertionLib 9 (classHeap true)
    (classHeap true).slots (.table 2)
  have hentries : ∀ e ∈ Slots.entries ((classHeap true).slots (.table 2)),
      Legible heapApi insertionLib 9 (classHeap true) e.2.1 ∧
        Showable heapApi insertionLib 9 (classHeap true) e.2.2 := by decide +kernel
  refine (sorted_page (classHeap_view true) (.inl rfl) (by decide) (by decide) ⟨1, 5⟩).1
    ⟨by decide, fun e he => (hentries e he).1, all, hs, fun e he => ?_⟩
  have hmem := hs.perm.mem_iff.mp (List.mem_of_mem_drop (List.mem_of_mem_take he))
  exact (hentries e hmem).2

/-- A page that starts past the two keys of table 2 has no defined start. -/
theorem page_past_end :
    thrown (createChildVariables heapApi insertionLib (renderer heapApi insertionLib 9) 9 ⟨3, 5⟩)
        ⟨[.table 2], classHeap true, []⟩ = some .undefined ∧
      ¬ Served heapApi insertionLib 9 (classHeap true) (classHeap true).slots (.table 2)
        ⟨3, 5⟩ := by
  have hthrown : thrown (createChildVariables heapApi insertionLib
      (renderer heapApi insertionLib 9) 9 ⟨3, 5⟩) ⟨[.table 2], classHeap true, []⟩ =
        some .undefined := by decide +kernel
  refine ⟨hthrown, ?_⟩
  intro hserved
  obtain ⟨all, vars, -, -, hreturns⟩ := hserved
  obtain ⟨t, hok⟩ := hreturns [] []
  unfold thrown at hthrown
  rw [show (createChildVariables _ _ _ _ _).run _ = _ from hok] at hthrown
  cases hthrown

end Sdb.L4
