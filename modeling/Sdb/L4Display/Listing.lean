import Sdb.L4Display.Paths
import Mathlib.Data.List.Perm.Basic

/-!
# Listing and navigating

`CreateChildVariables` gives every child the iterator value from which the slot
is the next one, and `WithVariableAtPath` goes back with it. `ToString` is any
total function of the object, `text`; the containers are those of `SlotView` and
`ArrayView`.

* `ChildOf`: a returned variable and the slot it stands for;
* `Expands`: the object at the end of a path of returned iterators;
* `listing_navigation`: every child is listed once, sorted or in the order of the
  iteration; every returned iterator reaches its child; a path of them lists the
  children of the object the user expanded.

Listing an instance child asks `ToClassFullName` for its class, which may throw
(`unnamedChild_throws`); `Named` says that it does not.
-/
namespace Sdb.L4

open Sdb.L1 Sdb.L3 Sdb.Exec

section
variable {H : Type} (api : SqApi H) (lib : CppLib) (toString : VmM H Bytes) (classFuel : Nat)
variable (h : H) (slots : SqObject → List (Option (SqObject × SqObject)))
variable (text : SqObject → Bytes)

/-- The rendering with this `ToString`; the class names are the source's own. -/
def rendererWith : Renderer H := ⟨toString, toClassFullName api classFuel⟩

/-- `ToClassFullName` returns for the class of an instance. -/
def Named (v : SqObject) : Prop :=
  v.type = .instance_ → ∀ c, api.getclass h v = some c →
    ∃ name t, (toClassFullName api classFuel).run ⟨[c], h, []⟩ = .ok name t


/-- The variable listed for a slot of `o`: what `CreateChildVariable` says of the
value, with the iterator and the key. -/
def ChildOf (o : SqObject) (e : Entry) (variable_ : Variable) : Prop :=
  ∃ value, Gives (createChildVariable api (rendererWith api toString classFuel)) h [e.2.2]
      value h [e.2.2] ∧
    variable_ =
      match o with
      | .array _ => { value with
          pathIterator := UInt64.ofInt e.1
          pathUiString := text e.2.1 }
      | _ => { value with
          pathIterator := UInt64.ofInt e.1
          pathUiString := text e.2.1
          pathTableKeyType := toVariableType e.2.1.type }

/-- What can be listed: an array of fewer than 2^31 elements, a table or an
instance. -/
def Container : SqObject → Prop
  | .array a => (slots (.array a)).length < 2 ^ 31
  | .table _ | .instance_ _ => True
  | _ => False

/-- Small tables and instances are sorted by the key's text, the others keep the
order of the iteration. -/
def InOrder (o : SqObject) (children : List Entry) : Prop :=
  match o with
  | .array _ => children = Slots.entries (slots o)
  | _ =>
    if api.getsize h o < kMaxTableSizeToSort then
      children.Pairwise fun e e' => text e.2.1 ≤ text e'.2.1
    else children = Slots.entries (slots o)

/-- `path` is made of the iterators listed level by level from `o` to `o'`. -/
inductive Expands : SqObject → List UInt64 → SqObject → Prop where
  | here (o : SqObject) : Expands o [] o
  | child {o o' : SqObject} {e : Entry} {path : List UInt64} (ho : Container slots o)
      (he : e ∈ Slots.entries (slots o)) (h : Expands e.2.2 path o') :
      Expands o (UInt64.ofInt e.1 :: path) o'

/-! ## One child -/

variable {api toString classFuel h slots text}

variable (toString) in
theorem gives_instanceClassName {v : SqObject} (hn : Named api classFuel h v) :
    ∃ name, Gives (instanceClassName api (rendererWith api toString classFuel) v.type) h [v]
      name h [v] := by
  unfold instanceClassName
  split
  · rename_i htype
    have hclass : Gives (sqGetclass api 1) h [v] (api.getclass h v).isSome h
      ((api.getclass h v).toList ++ [v]) := gives_sqPushAnswer rfl
    cases hc : api.getclass h v with
    | none =>
      rw [hc] at hclass
      exact ⟨_, hclass.bind (gives_pure _)⟩
    | some c =>
      rw [hc] at hclass
      obtain ⟨name, t, hrun⟩ := hn htype c hc
      have hname := (gives_toClassFullName api hrun).frame [v]
      exact ⟨name, hclass.bind (hname.bind (gives_sqPoptop.bind (gives_pure _)))⟩
  · exact ⟨_, gives_pure _⟩

/-- The number of children that the VM's sizes and delegates say an object has. -/
def countOf (api : SqApi H) (h : H) : SqObject → UInt32
  | .instance_ a | .userData a =>
    match api.getdelegate h (.table a) with
    | some d => UInt32.ofInt (api.getsize h d)
    | none => 0
  | .array a => UInt32.ofInt (api.getsize h (.array a))
  | .table a => UInt32.ofInt (api.getsize h (.table a))
  | _ => 0

theorem gives_delegateSize {v t : SqObject} (ht : v.asTable = some t) :
    Gives (delegateSize api) h [v]
      (match api.getdelegate h t with
      | some d => UInt32.ofInt (api.getsize h d)
      | none => 0) h [v] := by
  unfold delegateSize
  have hdelegate : Gives (sqGetdelegate api 1) h [t, v] (api.getdelegate h t).isSome h
    ((api.getdelegate h t).toList ++ [t, v]) := gives_sqPushAnswer rfl
  refine (gives_sqGetstackobj rfl).bind ?_
  rw [ht]
  cases hd : api.getdelegate h t with
  | none =>
    rw [hd] at hdelegate
    exact (gives_sqPushobject t).bind (hdelegate.bind (gives_sqPoptop.bind (gives_pure _)))
  | some d =>
    rw [hd] at hdelegate
    exact (gives_sqPushobject t).bind (hdelegate.bind ((gives_sqGetsize api rfl).bind
      (gives_sqPoptop.bind (gives_sqPoptop.bind (gives_pure _)))))

variable (api h) in
theorem gives_childCount (v : SqObject) :
    Gives (childCount api v.type) h [v] (countOf api h v) h [v] := by
  cases v with
  | instance_ a => exact gives_delegateSize rfl
  | userData a => exact gives_delegateSize rfl
  | array a => exact (gives_sqGetsize api rfl).bind (gives_pure _)
  | table a => exact (gives_sqGetsize api rfl).bind (gives_pure _)
  | _ => exact gives_pure _

theorem gives_createChildVariable {v : SqObject} {t : Bytes} (htext : Gives toString h [v] t h [v])
    (hn : Named api classFuel h v) :
    ∃ value, Gives (createChildVariable api (rendererWith api toString classFuel)) h [v]
      value h [v] := by
  obtain ⟨name, hname⟩ := gives_instanceClassName toString hn
  have hcount := gives_childCount api h v
  exact ⟨_, (gives_sqGetstackobj rfl).bind (htext.bind (hname.bind (hcount.bind
    (gives_pure _))))⟩

theorem gives_createTableChildVariable {o : SqObject} {e : Entry} {variable_ : Variable}
    (ho : ∀ a, o ≠ .array a) (hkey : Gives toString h [e.2.1] (text e.2.1) h [e.2.1])
    (hc : ChildOf api toString classFuel h text o e variable_) :
    Gives (createTableChildVariable api (rendererWith api toString classFuel) e.1) h
      [e.2.2, e.2.1] variable_ h [] := by
  obtain ⟨value, hvalue, rfl⟩ := hc
  refine (hvalue.frame [e.2.1]).bind (gives_sqPoptop.bind (hkey.bind ?_))
  refine (gives_sqGettype rfl).bind (gives_sqPoptop.bind ?_)
  cases o with
  | array a => exact (ho a rfl).elim
  | _ => exact gives_pure _

theorem childOf_exists (htext : ∀ o, Gives toString h [o] (text o) h [o]) (o : SqObject)
    {e : Entry} (hn : Named api classFuel h e.2.2) :
    ∃ variable_, ChildOf api toString classFuel h text o e variable_ := by
  obtain ⟨value, hvalue⟩ := gives_createChildVariable (htext e.2.2) hn
  exact ⟨_, value, hvalue, rfl⟩

theorem childrenOf_exist (htext : ∀ o, Gives toString h [o] (text o) h [o]) (o : SqObject)
    (es : List Entry) (hn : ∀ e ∈ es, Named api classFuel h e.2.2) :
    ∃ vars, List.Forall₂ (ChildOf api toString classFuel h text o) es vars := by
  induction es with
  | nil => exact ⟨[], .nil⟩
  | cons e es ih =>
    obtain ⟨variable_, hv⟩ := childOf_exists htext o (hn e List.mem_cons_self)
    obtain ⟨vars, hvars⟩ := ih fun e' he' => hn e' (List.mem_cons_of_mem _ he')
    exact ⟨variable_ :: vars, .cons hv hvars⟩

/-! ## The loops -/

variable (toString h text) in
/-- `text` is what `ToString` says of the keys. -/
def Texts (es : List Entry) : Prop := ∀ e ∈ es, Gives toString h [e.2.1] (text e.2.1) h [e.2.1]

theorem Texts.head {e : Entry} {es : List Entry} (hk : Texts toString h text (e :: es)) :
    Gives toString h [e.2.1] (text e.2.1) h [e.2.1] := hk e List.mem_cons_self

theorem Texts.tail {e : Entry} {es : List Entry} (hk : Texts toString h text (e :: es)) :
    Texts toString h text es := fun e' he' => hk e' (List.mem_cons_of_mem _ he')

variable (hv : SlotView api h slots)

include hv

theorem gives_collectKeys {o : SqObject} {i n : Nat} {es : List Entry}
    (hw : Slots.Walk (slots o) i es) (hk : Texts toString h text es) (hn : es.length < n) :
    ∃ j : Nat, Gives (collectKeys api toString n) h [.integer i, o]
      (es.map fun e => (text e.2.1, (e.1 : Int))) h [.integer j, o] := by
  induction hw generalizing n with
  | @done i hs =>
    obtain ⟨n, rfl⟩ : ∃ m, n = m + 1 := ⟨n - 1, by simp at hn; omega⟩
    exact ⟨i, (gives_sqGetinteger api rfl).bind
      ((gives_sqNext_none api rfl (hv.next_none hs)).bind (gives_pure _))⟩
  | @step i j a es hs hw ih =>
    obtain ⟨n, rfl⟩ : ∃ m, n = m + 1 := ⟨n - 1, by simp at hn; omega⟩
    obtain ⟨key, val⟩ := a
    obtain ⟨j', hrec⟩ := ih hk.tail (n := n) (by simp at hn; omega)
    refine ⟨j', (gives_sqGetinteger api rfl).bind
      ((gives_sqNext api rfl (hv.next_some hs)).bind (gives_sqPoptop.bind ?_))⟩
    exact (hk.head.frame [.integer j, o]).bind
      (gives_sqPoptop.bind (hrec.bind (gives_pure _)))

/-- A bound that does not reach past the last key is used up. -/
theorem throws_collectKeys {o : SqObject} {i n : Nat} {es : List Entry}
    (hw : Slots.Walk (slots o) i es) (hk : Texts toString h text es) (hn : n ≤ es.length) :
    Throws (collectKeys api toString n) h [.integer i, o] := by
  induction hw generalizing n with
  | done hs =>
    obtain rfl : n = 0 := by simpa using hn
    exact throws_throw _
  | @step i j a es hs hw ih =>
    cases n with
    | zero => exact throws_throw _
    | succ n =>
      obtain ⟨key, val⟩ := a
      have hrec := ih hk.tail (n := n) (by simp at hn; omega)
      refine (gives_sqGetinteger api rfl).bind_throws ?_
      refine (gives_sqNext api rfl (hv.next_some hs)).bind_throws (gives_sqPoptop.bind_throws ?_)
      exact (hk.head.frame [.integer j, o]).bind_throws (gives_sqPoptop.bind_throws hrec.bind)

theorem gives_sortedKeys {o : SqObject} {n : Nat}
    (hk : Texts toString h text (Slots.entries (slots o)))
    (hn : (Slots.entries (slots o)).length < n) :
    Gives (sortedKeys api lib toString n) h [o]
      (lib.sort ((Slots.entries (slots o)).map fun e => (text e.2.1, (e.1 : Int)))) h [o] := by
  obtain ⟨j, hkeys⟩ := gives_collectKeys hv (Slots.walk_entries (slots o)) hk hn
  exact (gives_sqPushobject _).bind (hkeys.bind (gives_sqPoptop.bind (gives_pure _)))

theorem gives_sortedChildren {o : SqObject} (ho : ∀ a, o ≠ .array a) {es : List Entry}
    {vars : List Variable} (hes : ∀ e ∈ es, e ∈ Slots.entries (slots o))
    (hk : Texts toString h text es)
    (hvars : List.Forall₂ (ChildOf api toString classFuel h text o) es vars) :
    Gives (sortedChildren api (rendererWith api toString classFuel)
      (es.map fun e => (text e.2.1, (e.1 : Int)))) h [o] vars h [o] := by
  induction hvars with
  | nil => exact gives_pure _
  | @cons e variable_ es vars hc hvars ih =>
    obtain ⟨j, hnext⟩ := Slots.next_of_mem_entries (hes e List.mem_cons_self)
    have hchild := (gives_createTableChildVariable ho hk.head hc).frame [.integer j, o]
    have hrec := ih (fun e' he' => hes e' (List.mem_cons_of_mem _ he')) hk.tail
    exact (gives_sqPushobject _).bind ((gives_sqNext api rfl (hv.next_some hnext)).bind
      (hchild.bind (gives_sqPoptop.bind (hrec.bind (gives_pure _)))))

theorem gives_streamedChildren {o : SqObject} (ho : ∀ a, o ≠ .array a) {i n : Nat}
    {es : List Entry} {vars : List Variable} (hw : Slots.Walk (slots o) i es)
    (hk : Texts toString h text (es.take n))
    (hvars : List.Forall₂ (ChildOf api toString classFuel h text o) (es.take n) vars) :
    ∃ j : Nat, Gives (streamedChildren api (rendererWith api toString classFuel) n) h
      [.integer i, o] vars h [.integer j, o] := by
  induction hw generalizing n vars with
  | @done i hs =>
    rw [List.take_nil] at hvars
    cases hvars
    cases n with
    | zero => exact ⟨i, gives_pure _⟩
    | succ n =>
      exact ⟨i, (gives_sqGetinteger api rfl).bind
        ((gives_sqNext_none api rfl (hv.next_none hs)).bind (gives_pure _))⟩
  | @step i j a es hs hw ih =>
    cases n with
    | zero =>
      cases hvars
      exact ⟨i, gives_pure _⟩
    | succ n =>
      rw [List.take_succ_cons] at hk hvars
      cases hvars with
      | @cons _ variable_ _ vars hc hvars =>
        obtain ⟨j', hrec⟩ := ih hk.tail hvars
        have hchild := (gives_createTableChildVariable ho hk.head hc).frame [.integer j, o]
        exact ⟨j', (gives_sqGetinteger api rfl).bind
          ((gives_sqNext api rfl (hv.next_some hs)).bind
            (hchild.bind (hrec.bind (gives_pure _))))⟩

theorem gives_arrayChildren {a i n : Nat} {es : List Entry} {vars : List Variable}
    (hw : Slots.Walk (slots (.array a)) i es) (hk : Texts toString h text (es.take n))
    (hvars : List.Forall₂ (ChildOf api toString classFuel h text (.array a)) (es.take n) vars) :
    ∃ j : Nat, Gives (arrayChildren api (rendererWith api toString classFuel) n) h
      [.integer i, .array a] vars h [.integer j, .array a] := by
  induction hw generalizing n vars with
  | @done i hs =>
    rw [List.take_nil] at hvars
    cases hvars
    cases n with
    | zero => exact ⟨i, gives_pure _⟩
    | succ n =>
      exact ⟨i, (gives_sqGetinteger api rfl).bind
        ((gives_sqNext_none api rfl (hv.next_none hs)).bind (gives_pure _))⟩
  | @step i j e es hs hw ih =>
    cases n with
    | zero =>
      cases hvars
      exact ⟨i, gives_pure _⟩
    | succ n =>
      rw [List.take_succ_cons] at hk hvars
      cases hvars with
      | @cons _ variable_ _ vars hc hvars =>
        obtain ⟨j', hrec⟩ := ih hk.tail hvars
        obtain ⟨value, hvalue, rfl⟩ := hc
        have hkey := hk.head
        obtain ⟨key, val⟩ := e
        exact ⟨j', (gives_sqGetinteger api rfl).bind
          ((gives_sqNext api rfl (hv.next_some hs)).bind
            ((hvalue.frame [key, .integer j, .array a]).bind (gives_sqPoptop.bind
              ((hkey.frame [.integer j, .array a]).bind (gives_sqPoptop.bind
                (hrec.bind (gives_pure _)))))))⟩

variable (htext : ∀ o, Gives toString h [o] (text o) h [o])

include htext

/-- The pagination of a whole listing. -/
structure Whole (slots : SqObject → List (Option (SqObject × SqObject))) (o : SqObject)
    (pagination : PaginationInfo) : Prop where
  fromStart : pagination.beginIterator = 0
  enough : (Slots.entries (slots o)).length ≤ pagination.count.toNat

theorem gives_tableChildren {o : SqObject} (ho : ∀ a, o ≠ .array a) {fuel : Nat}
    {pagination : PaginationInfo} (hw : Whole slots o pagination)
    (hf : (Slots.entries (slots o)).length < fuel)
    (hn : ∀ e ∈ Slots.entries (slots o), Named api classFuel h e.2.2) :
    ∃ children vars, children.Perm (Slots.entries (slots o)) ∧
      InOrder api h slots text o children ∧
      List.Forall₂ (ChildOf api toString classFuel h text o) children vars ∧
      Gives (tableChildren api lib (rendererWith api toString classFuel) fuel pagination) h [o]
        vars h [o] := by
  have horder : ∀ children, InOrder api h slots text o children ↔
      if api.getsize h o < kMaxTableSizeToSort then
        children.Pairwise fun e e' => text e.2.1 ≤ text e'.2.1
      else children = Slots.entries (slots o) := by
    intro children
    cases o with
    | array a => exact (ho a rfl).elim
    | _ => rfl
  unfold tableChildren
  by_cases hsize : api.getsize h o < kMaxTableSizeToSort
  · -- the sorted pairs are those of a permutation of the children
    have hcomp : Relation.Comp (· = List.map (fun e : Entry => (text e.2.1, (e.1 : Int))) ·)
        List.Perm (lib.sort ((Slots.entries (slots o)).map fun e => (text e.2.1, (e.1 : Int))))
        (Slots.entries (slots o)) := by
      rw [List.eq_map_comp_perm]
      exact lib.sort_perm _
    obtain ⟨children, hkeys, hperm⟩ := hcomp
    obtain ⟨vars, hvars⟩ := childrenOf_exist htext o children
      fun e he => hn e (hperm.mem_iff.mp he)
    have hlen : (children.map fun e => (text e.2.1, (e.1 : Int))).length ≤
        pagination.count.toNat := by
      rw [List.length_map, hperm.length_eq]
      exact hw.enough
    refine ⟨children, vars, hperm, (horder children).mpr ?_, hvars, ?_⟩
    · rw [if_pos hsize]
      have hsorted := lib.sort_sorted
        ((Slots.entries (slots o)).map fun e => (text e.2.1, (e.1 : Int)))
      rw [hkeys, List.pairwise_map] at hsorted
      exact hsorted
    · refine (gives_sqGetsize api rfl).bind ?_
      rw [if_pos hsize]
      refine (gives_sortedKeys lib hv (fun e _ => htext e.2.1) hf).bind ?_
      rw [hw.fromStart, hkeys]
      simp only [UInt32.toNat_zero, Nat.not_lt_zero, if_false, List.drop_zero]
      rw [List.take_of_length_le hlen]
      exact gives_sortedChildren hv ho (fun e he => hperm.mem_iff.mp he)
        (fun e _ => htext e.2.1) hvars
  · obtain ⟨vars, hvars⟩ := childrenOf_exist htext o _ hn
    refine ⟨_, vars, .rfl, (horder _).mpr (by rw [if_neg hsize]), hvars, ?_⟩
    refine (gives_sqGetsize api rfl).bind ?_
    rw [if_neg hsize, hw.fromStart]
    rw [← List.take_of_length_le hw.enough] at hvars
    obtain ⟨j, hrec⟩ := gives_streamedChildren hv ho (Slots.walk_entries (slots o))
      (fun e _ => htext e.2.1) hvars
    exact (gives_sqPushobject _).bind (hrec.bind (gives_sqPoptop.bind (gives_pure _)))

theorem gives_createChildVariables {o : SqObject} (ho : Container slots o) {fuel : Nat}
    {pagination : PaginationInfo} (hw : Whole slots o pagination)
    (hf : (Slots.entries (slots o)).length < fuel)
    (hn : ∀ e ∈ Slots.entries (slots o), Named api classFuel h e.2.2) :
    ∃ children vars, children.Perm (Slots.entries (slots o)) ∧
      InOrder api h slots text o children ∧
      List.Forall₂ (ChildOf api toString classFuel h text o) children vars ∧
      Gives (createChildVariables api lib (rendererWith api toString classFuel) fuel pagination) h
        [o] vars h [o] := by
  unfold createChildVariables
  cases o with
  | array a =>
    obtain ⟨vars, hvars⟩ := childrenOf_exist htext (.array a) _ hn
    refine ⟨_, vars, .rfl, rfl, hvars, (gives_sqGettype rfl).bind ?_⟩
    rw [← List.take_of_length_le hw.enough] at hvars
    obtain ⟨j, hrec⟩ := gives_arrayChildren hv (Slots.walk_entries _) (fun e _ => htext e.2.1) hvars
    dsimp only [SqObject.type]
    rw [hw.fromStart]
    exact (gives_sqPushobject _).bind (hrec.bind (gives_sqPoptop.bind (gives_pure _)))
  | table a =>
    obtain ⟨children, vars, h₁, h₂, h₃, h₄⟩ := gives_tableChildren lib hv htext
      (o := .table a) (by simp) hw hf hn
    refine ⟨children, vars, h₁, h₂, h₃, (gives_sqGettype rfl).bind ?_⟩
    exact h₄
  | instance_ a =>
    obtain ⟨children, vars, h₁, h₂, h₃, h₄⟩ := gives_tableChildren lib hv htext
      (o := .instance_ a) (by simp) hw hf hn
    refine ⟨children, vars, h₁, h₂, h₃, (gives_sqGettype rfl).bind ?_⟩
    exact h₄
  | _ => exact ho.elim

omit htext

/-! ## Paths -/

theorem reaches_child (ha : ArrayView api h slots) {o : SqObject} (hc : Container slots o)
    {e : Entry} (he : e ∈ Slots.entries (slots o)) :
    Reaches api h o (UInt64.ofInt e.1) e.2.2 := by
  obtain ⟨j, hnext⟩ := Slots.next_of_mem_entries he
  have hlt := Slots.next_lt hnext
  have hpart : (UInt64.ofInt (e.1 : Int)).toNat = e.1 := by
    have := hv.bounded o
    exact toNat_ofInt (by omega)
  cases o with
  | array a =>
    obtain ⟨element, hslot, -⟩ := ha.occupied a e.1 hlt
    have hval : e.2.2 = element := by
      have := hnext.symm.trans (Slots.next_of_getElem? hslot)
      simp only [Option.some.injEq, Prod.mk.injEq] at this
      rw [this.1]
    rw [hval]
    have hpos : (slots (.array a))[(UInt64.ofInt (e.1 : Int)).toNat]? =
        some (some (.integer e.1, element)) := by
      rw [hpart]
      exact hslot
    have hsmall : (UInt64.ofInt (e.1 : Int)).toNat < 2 ^ 31 := by
      rw [hpart]
      exact hlt.trans hc
    exact (reachesOver_element ha hsmall hpos).reaches
  | table a =>
    rw [← hpart] at hnext
    exact (reachesOver_slot hv (.inl rfl) hnext).reaches
  | instance_ a =>
    rw [← hpart] at hnext
    exact (reachesOver_slot hv (.inr rfl) hnext).reaches
  | _ => exact hc.elim

theorem Expands.gives (ha : ArrayView api h slots) {o o' : SqObject} {path : List UInt64}
    (hp : Expands slots o path o') {α : Type} {fn : VmM H (Except ReturnCode α)}
    {rc : Except ReturnCode α} (hfn : Gives fn h [o'] rc h [o']) :
    Gives (withVariableAtPath api fn path) h [o] rc h [o] := by
  induction hp with
  | here o => exact hfn
  | child ho he hp ih => exact (reaches_child hv ha ho he).gives (ih hfn)

end

/-! ## Listing and navigating -/

section
variable {H : Type} (api : SqApi H) (lib : CppLib) (toString : VmM H Bytes) (classFuel : Nat)

/-- **Listing and navigating agree, at any depth.** A container all of whose
instance children have a class with a name is listed in full: every child once,
in the order of `InOrder`. The iterator returned with a child reaches it, and
after any path of returned iterators the listing is that of the object at its
end. -/
theorem listing_navigation (h : H) (slots : SqObject → List (Option (SqObject × SqObject)))
    (text : SqObject → Bytes) (hv : SlotView api h slots) (ha : ArrayView api h slots)
    (htext : ∀ o, Gives toString h [o] (text o) h [o]) :
    (∀ o fuel pagination, Container slots o → Whole slots o pagination →
      (Slots.entries (slots o)).length < fuel →
      (∀ e ∈ Slots.entries (slots o), Named api classFuel h e.2.2) →
      ∃ children vars, children.Perm (Slots.entries (slots o)) ∧
        InOrder api h slots text o children ∧
        List.Forall₂ (ChildOf api toString classFuel h text o) children vars ∧
        Gives (createChildVariables api lib (rendererWith api toString classFuel) fuel
          pagination) h [o] vars h [o]) ∧
    (∀ o e, Container slots o → e ∈ Slots.entries (slots o) →
      Reaches api h o (UInt64.ofInt e.1) e.2.2) ∧
    ∀ o o' path, Expands slots o path o' → ∀ fuel pagination vars,
      Gives (createChildVariables api lib (rendererWith api toString classFuel) fuel
        pagination) h [o'] vars h [o'] →
      Gives (createChildVariablesFromIterable api lib (rendererWith api toString classFuel) fuel
        path pagination) h [o] (.ok vars) h [o] := by
  refine ⟨fun o fuel pagination ho hw hf hn => ?_, fun o e ho he => ?_, ?_⟩
  · exact gives_createChildVariables lib hv htext ho hw hf hn
  · exact reaches_child hv ha ho he
  · intro o o' path hp fuel pagination vars hvars
    exact hp.gives hv ha (hvars.bind (gives_pure _))

end

/-! ## A heap -/

/-- Strings are shown as they are, everything else by the name of its type. -/
def keyText (o : SqObject) : Bytes :=
  match o with
  | .string s => s
  | _ => toSqObjectTypeName o.type

def toKeyText : VmM Heap Bytes := do return keyText (← sqGetstackobj 1)

/-- The root table holds the class `C` if `named`; table 2 has an array under
`b` and an instance of the class under `a`. -/
def classHeap (named : Bool) : Heap where
  objects := [
    .table (if named then [some (.string [67], .class_ 1)] else []),
    .class_,
    .table [none, some (.string [98], .array 3), some (.string [97], .instance_ 4)],
    .array [.integer 10, .integer 20],
    .instance_ (.class_ 1) []]

theorem classHeap_view (named : Bool) :
    SlotView heapApi (classHeap named) (classHeap named).slots :=
  slotView_heapApi (by cases named <;> decide)

/-- With the class missing from the root table the listing is left by an
exception. -/
theorem unnamedChild_throws :
    SlotView heapApi (classHeap false) (classHeap false).slots ∧
      ArrayView heapApi (classHeap false) (classHeap false).slots ∧
      (∀ o, Gives toKeyText (classHeap false) [o] (keyText o) (classHeap false) [o]) ∧
      Container (classHeap false).slots (.table 2) ∧
      Whole (classHeap false).slots (.table 2) ⟨0, 2⟩ ∧
      thrown (createChildVariables heapApi insertionLib (rendererWith heapApi toKeyText 9) 9 ⟨0, 2⟩)
        ⟨[.table 2], classHeap false, []⟩ = some (.runtimeError "Unknown class") :=
  ⟨classHeap_view false, arrayView_heapApi _, fun _ _ _ => rfl, trivial, ⟨rfl, by decide⟩,
    by decide +kernel⟩

/-- The only instance of `classHeap` is of class 1. -/
theorem classHeap_named (v : SqObject) : Named heapApi 9 (classHeap true) v := by
  intro hi c hc
  have hclass : c = .class_ 1 := by
    cases v with
    | instance_ a =>
      match a with
      | 4 => exact (Option.some.inj hc).symm
      | 0 | 1 | 2 | 3 => cases hc
      | a + 5 => cases hc
    | _ => cases hi
  rw [hclass]
  exact ⟨[67], _, rfl⟩

/-- With the class in the root table both children of table 2 are listed, `a`
before `b`, and the path of `b` is expanded to the elements of its array. -/
theorem listing_navigation_classHeap :
    (∃ children vars, children.Perm (Slots.entries ((classHeap true).slots (.table 2))) ∧
      List.Forall₂ (ChildOf heapApi toKeyText 9 (classHeap true) keyText (.table 2))
        children vars ∧
      vars.map (·.pathUiString) = [[97], [98]] ∧
      Gives (createChildVariables heapApi insertionLib (rendererWith heapApi toKeyText 9) 9 ⟨0, 2⟩)
        (classHeap true) [.table 2] vars (classHeap true) [.table 2]) ∧
    ∃ vars, Gives (createChildVariablesFromIterable heapApi insertionLib
        (rendererWith heapApi toKeyText 9) 9 [0] ⟨0, 2⟩) (classHeap true) [.table 2] (.ok vars)
        (classHeap true) [.table 2] ∧ vars.length = 2 := by
  obtain ⟨hlist, -, hpath⟩ := listing_navigation heapApi insertionLib toKeyText 9 (classHeap true)
    (classHeap true).slots keyText (classHeap_view true) (arrayView_heapApi _) fun _ _ _ => rfl
  constructor
  · obtain ⟨children, vars, hperm, -, hvars, hgives⟩ := hlist (.table 2) 9 ⟨0, 2⟩ trivial
      ⟨rfl, by decide⟩ (by decide) fun e _ => classHeap_named e.2.2
    refine ⟨children, vars, hperm, hvars, ?_, hgives⟩
    have hshown : (result (createChildVariables heapApi insertionLib
        (rendererWith heapApi toKeyText 9) 9 ⟨0, 2⟩) ⟨[.table 2], classHeap true, []⟩).map
          (·.map (·.pathUiString)) = some [[97], [98]] := by decide +kernel
    have hreturns := hgives [] []
    rw [List.append_nil] at hreturns
    rw [hreturns.result_eq] at hshown
    exact Option.some.inj hshown
  · obtain ⟨children, vars, hperm, -, hvars, hgives⟩ := hlist (.array 3) 9 ⟨0, 2⟩
      (show 2 < 2 ^ 31 by decide)
      ⟨rfl, by decide⟩ (by decide) fun e _ => classHeap_named e.2.2
    have he : ((0, .string [98], .array 3) : Entry) ∈
        Slots.entries ((classHeap true).slots (.table 2)) := by decide
    have ho : Container (classHeap true).slots (.table 2) := trivial
    refine ⟨vars, hpath _ _ _ (.child ho he (.here (.array 3))) 9 ⟨0, 2⟩ vars hgives, ?_⟩
    rw [← hvars.length_eq, hperm.length_eq]
    decide

end Sdb.L4
