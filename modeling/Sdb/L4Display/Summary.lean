import Sdb.L4Display.SummaryText

/-!
# Rendering a variable

`ToString` works with the VM stack, a bound on its recursion and one on each of
its loops; `objectText` is what it is meant to show. `Follows` relates the two:
`ToString` returns that text, or else it throws (`follows_toString`), and where
there is a text a large enough bound returns it (`gives_toString`).

* `rendering_terminates`: on a finite object graph `ToString` returns exactly if
  the object does not lead, by the fields shown, to an object that shows itself;
* `selfTable_diverges`: a table with itself in a slot has no text.
-/
namespace Sdb.L4

open Sdb.L1 Sdb.L3 Sdb.Exec Sdb.Reach

section
variable {H : Type} {α β : Type} {h : H} {top top' : List SqObject} {total : Bool}

/-- `m` returns the value of `r`. Otherwise `r` has none, if `total`, and `m`
throws, if not. -/
def Follows (total : Bool) (m : VmM H α) (h : H) (top : List SqObject) (r : Option α)
    (P : List SqObject → Prop) : Prop :=
  (∃ a top', r = some a ∧ P top' ∧ Gives m h top a h top') ∨
    if total then r = none else Throws m h top

/-- `m` follows `r` on the top object and leaves the stack alone. -/
abbrev FollowsOn (total : Bool) (m : VmM H α) (h : H) (o : SqObject) (r : Option α) : Prop :=
  Follows total m h [o] r (· = [o])

theorem Gives.follows {m : VmM H α} {a : α} {P : List SqObject → Prop}
    (hm : Gives m h top a h top') (hp : P top') : Follows total m h top (some a) P :=
  .inl ⟨a, top', rfl, hp, hm⟩

theorem Follows.bind {m : VmM H α} {f : α → VmM H β} {r : Option α} {r' : α → Option β}
    {P Q : List SqObject → Prop} (hm : Follows total m h top r P)
    (hf : ∀ a top', r = some a → P top' → Follows total (f a) h top' (r' a) Q) :
    Follows total (m >>= f) h top (r.bind r') Q := by
  rcases hm with ⟨a, top', rfl, hp, hm⟩ | hm
  · rcases hf a top' rfl hp with ⟨b, top'', hb, hq, hfa⟩ | hfa
    · exact .inl ⟨b, top'', by rw [Option.bind_some, hb], hq, hm.bind hfa⟩
    · refine .inr ?_
      cases total with
      | true => exact hfa
      | false => exact hm.bind_throws hfa
  · refine .inr ?_
    cases total with
    | true =>
      rw [if_pos rfl] at hm ⊢
      rw [hm]
      rfl
    | false => exact Throws.bind hm

theorem Gives.bind_follows {m : VmM H α} {f : α → VmM H β} {a : α} {r : Option β}
    {P : List SqObject → Prop} (hm : Gives m h top a h top')
    (hf : Follows total (f a) h top' r P) : Follows total (m >>= f) h top r P := by
  have hfollows : Follows total m h top (some a) (· = top') := hm.follows rfl
  have hb : Follows total (m >>= f) h top ((some a).bind fun _ => r) P :=
    hfollows.bind fun b t hab ht => by
      obtain rfl := Option.some.inj hab
      rw [ht]
      exact hf
  exact hb

/-- The value is used and nothing is left to do but stack moves. -/
theorem Follows.map {m : VmM H α} {f : α → VmM H β} {r : Option α} {g : α → β}
    {P Q : List SqObject → Prop} (hm : Follows total m h top r P)
    (hf : ∀ a top', P top' → ∃ top'', Q top'' ∧ Gives (f a) h top' (g a) h top'') :
    Follows total (m >>= f) h top (r.map g) Q := by
  rw [Option.map_eq_bind]
  refine hm.bind fun a t _ hp => ?_
  obtain ⟨top'', hq, hfa⟩ := hf a t hp
  exact hfa.follows hq

theorem Follows.frame {m : VmM H α} {r : Option α} (hm : Follows total m h top r (· = top'))
    (more : List SqObject) : Follows total m h (top ++ more) r (· = top' ++ more) := by
  rcases hm with ⟨a, _, hr, rfl, hm⟩ | hm
  · exact .inl ⟨a, _, hr, rfl, hm.frame more⟩
  · refine .inr ?_
    cases total with
    | true => exact hm
    | false => exact Throws.frame hm more

theorem follows_fuel {r : Option α} {P : List SqObject → Prop} (ht : total ≠ true) :
    Follows total (throw .fuel : VmM H α) h top r P := by
  refine .inr ?_
  rw [if_neg ht]
  exact throws_throw _

/-! ## The summary of a table -/

variable {api : SqApi H} (lib : CppLib)
variable {slots : SqObject → List (Option (SqObject × SqObject))} (hv : SlotView api h slots)
variable {toString : VmM H Bytes} {rec : SqObject → Option Bytes} {o : SqObject}

theorem follows_writeTableSummaryField {e : Entry}
    (hkey : FollowsOn total toString h e.2.1 (rec e.2.1))
    (hval : FollowsOn total toString h e.2.2 (rec e.2.2)) (isFirst : Bool) (ss : Bytes) :
    Follows total (writeTableSummaryField toString isFirst ss) h [e.2.2, e.2.1]
      (fieldText rec isFirst e ss) (· = []) := by
  unfold writeTableSummaryField fieldText
  refine (hval.frame [e.2.1]).bind ?_
  rintro valueStr _ - rfl
  split
  · refine gives_sqPoptop.bind_follows (hkey.map fun key t ht => ?_)
    rw [ht]
    exact ⟨[], rfl, gives_sqPoptop.bind (gives_pure _)⟩
  · have hpop : Gives (sqPop 2) h [e.2.2, e.2.1] () h [] := gives_sqPop [e.2.2, e.2.1]
    exact hpop.bind_follows ((gives_pure ss).follows rfl)

/-- `ToString` on the keys and the values of `o`. -/
def FollowsSlots (total : Bool) (toString : VmM H Bytes) (h : H)
    (slots : SqObject → List (Option (SqObject × SqObject))) (rec : SqObject → Option Bytes)
    (o : SqObject) : Prop :=
  ∀ a ∈ (slots o).filterMap id,
    FollowsOn total toString h a.1 (rec a.1) ∧ FollowsOn total toString h a.2 (rec a.2)

variable (hts : FollowsSlots total toString h slots rec o)

theorem FollowsSlots.next (hts : FollowsSlots total toString h slots rec o) {i j : Nat}
    {a : SqObject × SqObject} (hn : Slots.next (slots o) i = some (a, j)) :
    FollowsOn total toString h a.1 (rec a.1) ∧ FollowsOn total toString h a.2 (rec a.2) :=
  hts a (by simpa using Slots.mem_of_next hn)

include hv hts

theorem follows_collectKeys {i n : Nat} {es : List Entry} (hw : Slots.Walk (slots o) i es)
    (hn : total = true → es.length < n) :
    Follows total (collectKeys api toString n) h [.integer i, o] (keysText rec es)
      fun t => ∃ j : Nat, t = [.integer j, o] := by
  induction hw generalizing n with
  | @done i hs =>
    cases n with
    | zero => exact follows_fuel fun ht => absurd (hn ht) (by simp)
    | succ n =>
      exact (gives_sqGetinteger api rfl).bind_follows
        ((gives_sqNext_none api rfl (hv.next_none hs)).bind_follows
          ((gives_pure _).follows ⟨i, rfl⟩))
  | @step i j a es hs hw ih =>
    cases n with
    | zero => exact follows_fuel fun ht => absurd (hn ht) (by simp)
    | succ n =>
      obtain ⟨key, val⟩ := a
      have hrec := ih (n := n) fun ht => by
        have := hn ht
        simp at this
        omega
      refine (gives_sqGetinteger api rfl).bind_follows
        ((gives_sqNext api rfl (hv.next_some hs)).bind_follows
          (gives_sqPoptop.bind_follows (((hts.next hs).1.frame [.integer j, o]).bind ?_)))
      rintro text _ - rfl
      refine gives_sqPoptop.bind_follows (hrec.map fun keys t ht => ?_)
      exact ⟨t, ht, gives_pure _⟩

theorem follows_sortedKeys {n : Nat}
    (hn : total = true → (Slots.entries (slots o)).length < n) :
    FollowsOn total (sortedKeys api lib toString n) h o
      ((keysText rec (Slots.entries (slots o))).map lib.sort) := by
  refine (gives_sqPushobject _).bind_follows
    ((follows_collectKeys hv hts (Slots.walk_entries (slots o)) hn).map ?_)
  rintro keys _ ⟨j, rfl⟩
  exact ⟨[o], rfl, gives_sqPoptop.bind (gives_pure _)⟩

/-- Each of the sorted keys leads back to a slot. -/
theorem follows_sortedFields (hsmall : Small api h o) {keys : List (Bytes × Int)}
    (hkeys : ∀ p ∈ keys, ∃ e ∈ Slots.entries (slots o), p.2 = (e.1 : Int)) (isFirst : Bool)
    (ss : Bytes) :
    FollowsOn total (sortedFields api toString 1 keys ss) h o
      (fieldsText api h rec o (entriesOf slots o keys) isFirst ss) := by
  induction keys generalizing isFirst ss with
  | nil => exact (gives_pure _).follows rfl
  | cons p keys ih =>
    obtain ⟨text, i⟩ := p
    obtain ⟨e, he, rfl⟩ := hkeys (text, i) List.mem_cons_self
    obtain ⟨j, hnext⟩ := Slots.next_of_mem_entries he
    have hentries : entriesOf slots o ((text, (e.1 : Int)) :: keys) =
        e :: entriesOf slots o keys := by
      unfold entriesOf
      rw [List.filterMap_cons]
      simp [hnext]
    have hlimit : ss.length - 1 < kMaxTableValueStringLength ↔ ss.length < limit api h o := by
      rw [limit, if_pos hsmall]
      unfold kMaxTableValueStringLength
      omega
    rw [hentries, fieldsText]
    unfold sortedFields
    by_cases hlt : ss.length < limit api h o
    · rw [if_pos (hlimit.mpr hlt), if_pos hlt, if_pos hsmall]
      obtain ⟨hkey, hval⟩ := hts.next hnext
      refine (gives_sqPushobject _).bind_follows
        ((gives_sqNext api rfl (hv.next_some hnext)).bind_follows ?_)
      rw [if_pos rfl]
      refine ((follows_writeTableSummaryField hkey hval _ ss).frame [.integer j, o]).bind ?_
      rintro ss _ - rfl
      refine gives_sqPoptop.bind_follows (ih (fun p hp => ?_) false ss)
      exact hkeys p (List.mem_cons_of_mem _ hp)
    · rw [if_neg (mt hlimit.mp hlt), if_neg hlt]
      exact (gives_pure _).follows rfl

theorem follows_streamedFields (hlarge : ¬Small api h o) {i n : Nat} {es : List Entry}
    (hw : Slots.Walk (slots o) i es) (hn : total = true → es.length < n) (isFirst : Bool)
    (ss : Bytes) :
    Follows total (streamedFields api toString n isFirst ss) h [.integer i, o]
      (fieldsText api h rec o es isFirst ss) fun t => ∃ j : Nat, t = [.integer j, o] := by
  have hlimit : limit api h o = kMaxTableValueStringLength := if_neg hlarge
  induction hw generalizing n isFirst ss with
  | @done i hs =>
    cases n with
    | zero => exact follows_fuel fun ht => absurd (hn ht) (by simp)
    | succ n =>
      unfold streamedFields
      split
      · exact (gives_sqNext_none api rfl (hv.next_none hs)).bind_follows
          ((gives_pure _).follows ⟨i, rfl⟩)
      · exact (gives_pure _).follows ⟨i, rfl⟩
  | @step i j a es hs hw ih =>
    cases n with
    | zero => exact follows_fuel fun ht => absurd (hn ht) (by simp)
    | succ n =>
      unfold streamedFields
      rw [fieldsText, hlimit]
      split
      · obtain ⟨hkey, hval⟩ := hts.next hs
        refine (gives_sqNext api rfl (hv.next_some hs)).bind_follows ?_
        rw [if_pos rfl]
        refine ((follows_writeTableSummaryField (e := (i, a)) hkey hval isFirst ss).frame
          [.integer j, o]).bind ?_
        rintro ss _ - rfl
        refine ih (fun ht => ?_) false ss
        have := hn ht
        simp at this
        omega
      · exact (gives_pure _).follows ⟨i, rfl⟩

omit hv hts in
theorem keysText_iterators {es : List Entry} {keys : List (Bytes × Int)}
    (ht : keysText rec es = some keys) {p : Bytes × Int} (hp : p ∈ keys) :
    ∃ e ∈ es, p.2 = (e.1 : Int) := by
  induction es generalizing keys with
  | nil =>
    obtain rfl := Option.some.inj ht
    cases hp
  | cons e es ih =>
    obtain ⟨key, hkey, hrest⟩ := Option.bind_eq_some_iff.mp ht
    obtain ⟨keys', hkeys', rfl⟩ := Option.map_eq_some_iff.mp hrest
    rcases List.mem_cons.mp hp with rfl | hp
    · exact ⟨e, List.mem_cons_self, rfl⟩
    · obtain ⟨e', he', hp'⟩ := ih hkeys' hp
      exact ⟨e', List.mem_cons_of_mem _ he', hp'⟩

theorem follows_createTableSummary {n : Nat}
    (hn : total = true → (Slots.entries (slots o)).length < n) :
    FollowsOn total (createTableSummary api lib toString n) h o
      (summaryText api lib h slots rec o) := by
  unfold createTableSummary summaryText ordered
  refine (gives_sqGetsize api rfl).bind_follows ?_
  by_cases hsmall : Small api h o
  · have hsize : api.getsize h o < kMaxTableSizeToSort := hsmall
    rw [if_pos hsize, if_pos hsmall]
    have hkeys := follows_sortedKeys lib hv hts hn
    rw [show ∀ r : Option (List (Bytes × Int)),
        ((r.map fun keys => entriesOf slots o (lib.sort keys)).bind fun es =>
          (fieldsText api h rec o es true (ascii "\x7b")).map (· ++ ascii "\x7d")) =
        (r.map lib.sort).bind fun keys =>
          (fieldsText api h rec o (entriesOf slots o keys) true (ascii "\x7b")).map
            (· ++ ascii "\x7d")
      from fun r => by cases r <;> rfl]
    refine hkeys.bind ?_
    rintro keys _ hr rfl
    obtain ⟨keys', hkeys', rfl⟩ := Option.map_eq_some_iff.mp hr
    refine (follows_sortedFields hv hts hsmall (fun p hp => ?_) true _).map ?_
    · exact keysText_iterators hkeys' ((lib.sort_perm keys').mem_iff.mp hp)
    · rintro ss _ rfl
      exact ⟨[o], rfl, gives_pure _⟩
  · have hsize : ¬api.getsize h o < kMaxTableSizeToSort := hsmall
    rw [if_neg hsize, if_neg hsmall, Option.bind_some]
    refine (gives_sqPushobject _).bind_follows
      ((follows_streamedFields hv hts hsmall (Slots.walk_entries (slots o)) hn true _).map ?_)
    rintro ss _ ⟨j, rfl⟩
    exact ⟨[o], rfl, gives_sqPoptop.bind (gives_pure _)⟩

omit hts

/-! ## `ToString` -/

/-- A finite graph of tables, instances, arrays and scalars. -/
structure DataGraph (slots : SqObject → List (Option (SqObject × SqObject))) (G : Set SqObject) :
    Prop where
  finite : G.Finite
  data : ∀ o ∈ G, IsData o
  closed : ∀ o ∈ G, HasFields o → ∀ a ∈ (slots o).filterMap id, a.1 ∈ G ∧ a.2 ∈ G

variable {G : Set SqObject} (hG : DataGraph slots G)

include hG

/-- `ToString` shows what it is meant to show, or throws. -/
theorem follows_toString (n : Nat) (ho : o ∈ G) :
    FollowsOn false (L3.toString api lib n) h o (objectText api lib h slots n o) := by
  induction n generalizing o with
  | zero => exact follows_fuel (by simp)
  | succ n ih =>
    have hsummary : HasFields o → FollowsOn false
        (createTableSummary api lib (L3.toString api lib n) n) h o
        (summaryText api lib h slots (objectText api lib h slots n) o) := by
      intro hf
      refine follows_createTableSummary lib hv (fun a ha => ?_) (by simp)
      obtain ⟨hkey, hval⟩ := hG.closed o ho hf a ha
      exact ⟨ih hkey, ih hval⟩
    unfold L3.toString
    refine (gives_sqGetstackobj rfl).bind_follows ?_
    cases o with
    | table a => exact hsummary trivial
    | instance_ a => exact hsummary trivial
    | array a => exact (gives_sqGetsize api rfl).bind_follows ((gives_pure _).follows rfl)
    | null | integer | float | bool | string => exact (gives_pure _).follows rfl
    | _ => exact (hG.data _ ho).elim

omit hv hG in
/-- One bound for finitely many objects. -/
theorem bound_all {γ : Type} {p : γ → Nat → Prop} {l : List γ}
    (hp : ∀ a ∈ l, ∃ N, ∀ n, N ≤ n → p a n) : ∃ N, ∀ n, N ≤ n → ∀ a ∈ l, p a n := by
  induction l with
  | nil => exact ⟨0, fun _ _ _ ha => by cases ha⟩
  | cons a l ih =>
    obtain ⟨N, hN⟩ := hp a List.mem_cons_self
    obtain ⟨M, hM⟩ := ih fun b hb => hp b (List.mem_cons_of_mem _ hb)
    refine ⟨max N M, fun n hn b hb => ?_⟩
    rcases List.mem_cons.mp hb with rfl | hb
    · exact hN n (by omega)
    · exact hM n (by omega) b hb

/-- A text is shown by every large enough bound. -/
theorem gives_toString {n : Nat} (ho : o ∈ G) {text : Bytes}
    (ht : objectText api lib h slots n o = some text) :
    ∃ N, ∀ fuel, N ≤ fuel → Gives (L3.toString api lib fuel) h [o] text h [o] := by
  induction n generalizing o text with
  | zero => cases ht
  | succ n ih =>
    have hsummary : HasFields o → summaryText api lib h slots (objectText api lib h slots n) o =
          some text → ∃ N, ∀ fuel, N ≤ fuel →
        Gives (createTableSummary api lib (L3.toString api lib fuel) fuel) h [o] text h [o] := by
      intro hf htext
      have hslot : ∀ w ∈ G, ∃ N, ∀ fuel, N ≤ fuel →
          FollowsOn true (L3.toString api lib fuel) h w (objectText api lib h slots n w) := by
        intro w hw
        cases hwt : objectText api lib h slots n w with
        | none => exact ⟨0, fun _ _ => .inr (by simp)⟩
        | some t =>
          obtain ⟨N, hN⟩ := ih hw hwt
          exact ⟨N, fun fuel hfuel => (hN fuel hfuel).follows rfl⟩
      have hslots : ∀ a ∈ (slots o).filterMap id, ∃ N, ∀ fuel, N ≤ fuel →
          FollowsOn true (L3.toString api lib fuel) h a.1 (objectText api lib h slots n a.1) ∧
          FollowsOn true (L3.toString api lib fuel) h a.2 (objectText api lib h slots n a.2) := by
        intro a ha
        obtain ⟨hkey, hval⟩ := hG.closed o ho hf a ha
        obtain ⟨N, hN⟩ := hslot _ hkey
        obtain ⟨M, hM⟩ := hslot _ hval
        exact ⟨max N M, fun fuel hfuel => ⟨hN fuel (by omega), hM fuel (by omega)⟩⟩
      obtain ⟨N, hN⟩ := bound_all hslots
      refine ⟨max N ((Slots.entries (slots o)).length + 1), fun fuel hfuel => ?_⟩
      have hfollows : FollowsOn true (createTableSummary api lib (L3.toString api lib fuel) fuel)
          h o (summaryText api lib h slots (objectText api lib h slots n) o) :=
        follows_createTableSummary lib hv (hN fuel (by omega)) fun _ => by omega
      rcases hfollows with ⟨a, _, ha, rfl, hgives⟩ | hnone
      · rw [htext] at ha
        exact Option.some.inj ha ▸ hgives
      · rw [if_pos rfl, htext] at hnone
        cases hnone
    have hsucc : ∀ N, (∀ m, N ≤ m → Gives (L3.toString api lib (m + 1)) h [o] text h [o]) →
        ∃ N, ∀ fuel, N ≤ fuel → Gives (L3.toString api lib fuel) h [o] text h [o] := by
      intro N hN
      refine ⟨N + 1, fun fuel hfuel => ?_⟩
      obtain ⟨m, rfl⟩ : ∃ m, fuel = m + 1 := ⟨fuel - 1, by omega⟩
      exact hN m (by omega)
    cases o with
    | table a =>
      obtain ⟨N, hN⟩ := hsummary trivial ht
      exact hsucc N fun m hm => (gives_sqGetstackobj (o := .table a) rfl).bind (hN m hm)
    | instance_ a =>
      obtain ⟨N, hN⟩ := hsummary trivial ht
      exact hsucc N fun m hm => (gives_sqGetstackobj (o := .instance_ a) rfl).bind (hN m hm)
    | array a =>
      obtain rfl := Option.some.inj ht
      have hsize : Gives (sqGetsize api 1) h [.array a] (api.getsize h (.array a)) h [.array a] :=
        gives_sqGetsize api rfl
      exact hsucc 0 fun m _ =>
        (gives_sqGetstackobj (o := .array a) rfl).bind (hsize.bind (gives_pure _))
    | null | integer | float | bool | string =>
      obtain rfl := Option.some.inj ht
      exact hsucc 0 fun m _ => (gives_sqGetstackobj rfl).bind (gives_pure _)
    | _ => cases ht

omit hv hG in
theorem ordered_next {es : List Entry} (hes : ordered api lib h slots rec o = some es) {e : Entry}
    (he : e ∈ es) : ∃ j, Slots.next (slots o) e.1 = some (e.2, j) := by
  unfold ordered at hes
  split at hes
  · obtain ⟨keys, -, rfl⟩ := Option.map_eq_some_iff.mp hes
    obtain ⟨p, -, hp⟩ := List.mem_filterMap.mp he
    obtain ⟨⟨a, j⟩, hnext, rfl⟩ := Option.map_eq_some_iff.mp hp
    exact ⟨j, hnext⟩
  · obtain rfl := Option.some.inj hes
    exact Slots.next_of_mem_entries he

omit hv in
theorem displays_closed {w : SqObject} (ho : o ∈ G) (hw : Displays api lib h slots o w) :
    w ∈ G := by
  have hslot : ∀ {i j : Nat} {a : SqObject × SqObject}, HasFields o →
      Slots.next (slots o) i = some (a, j) → a.1 ∈ G ∧ a.2 ∈ G := fun hf hn =>
    hG.closed o ho hf _ (by simpa using Slots.mem_of_next hn)
  have hcomes : ∀ {n : Nat} {e : Entry} {ss : Bytes}, Comes api lib h slots n o e ss →
      e.2.1 ∈ G ∧ e.2.2 ∈ G := by
    rintro n e ss ⟨hf, -, before, after, hes, -⟩
    obtain ⟨j, hnext⟩ := ordered_next lib hes (e := e) (by simp)
    exact hslot hf hnext
  cases hw with
  | sortKey hf _ he =>
    obtain ⟨j, hnext⟩ := Slots.next_of_mem_entries he
    exact (hslot hf hnext).1
  | value hc => exact (hcomes hc).2
  | fieldKey hc _ _ => exact (hcomes hc).1

/-- **Rendering a variable terminates exactly where no object shows itself.** In
a finite graph of tables, instances, arrays and scalars `ToString` of an object
returns if and only if the object does not lead, from object to displayed
object, to a table or an instance that leads back to itself. -/
theorem rendering_terminates (ho : o ∈ G) (rest : List SqObject) (faults : List Fault) :
    (∃ fuel text t, (L3.toString api lib fuel).run ⟨o :: rest, h, faults⟩ = .ok text t) ↔
      ¬ReachesCycle (Displays api lib h slots) o := by
  rw [← acc_iff_no_cycle hG.finite (fun v hv w hw => displays_closed lib hG hv hw) ho]
  constructor
  · rintro ⟨fuel, text, t, hrun⟩
    rcases follows_toString lib hv hG fuel ho with ⟨text', _, htext, -, -⟩ | hthrow
    · exact acc_of_text htext
    · obtain ⟨e, u, hu⟩ := hthrow rest faults
      cases hrun.symm.trans hu
  · intro hacc
    obtain ⟨n, text, ht⟩ := text_of_acc hG.data
      (fun v hv w hw => displays_closed lib hG hv hw) ho hacc
    obtain ⟨N, hN⟩ := gives_toString lib hv hG ho ht
    exact ⟨N, text, _, hN N (Nat.le_refl N) rest faults⟩

end

/-! ## Two tables -/

/-- `local t = {}; t.t <- t` -/
def selfTable : Heap := { objects := [.table [some (.string [116], .table 0)]] }

theorem selfTable_view : SlotView heapApi selfTable selfTable.slots :=
  slotView_heapApi (by decide)

def selfGraph : Set SqObject := {.string [116], .table 0}

theorem selfTable_graph : DataGraph selfTable.slots selfGraph where
  finite := (Set.finite_singleton _).insert _
  data o ho := by
    rcases ho with rfl | rfl <;> trivial
  closed o ho hf a ha := by
    rcases ho with rfl | rfl
    · exact hf.elim
    · obtain rfl := List.mem_singleton.mp (show a ∈ [(.string [116], .table 0)] from ha)
      exact ⟨.inl rfl, .inr rfl⟩

/-- The first field of the table is the table. -/
theorem selfTable_displays :
    Displays heapApi insertionLib selfTable selfTable.slots (.table 0) (.table 0) :=
  have hcomes : Comes heapApi insertionLib selfTable selfTable.slots 1 (.table 0)
      (0, .string [116], .table 0) (ascii "\x7b") :=
    ⟨trivial, by decide, [], [], by decide +kernel, rfl⟩
  .value hcomes

/-- No bound is large enough for the table. -/
theorem selfTable_diverges :
    DataGraph selfTable.slots selfGraph ∧ SqObject.table 0 ∈ selfGraph ∧
      ¬∃ fuel text t, (L3.toString heapApi insertionLib fuel).run ⟨[.table 0], selfTable, []⟩ =
        .ok text t := by
  refine ⟨selfTable_graph, .inr rfl, ?_⟩
  rintro ⟨fuel, text, t, hrun⟩
  have hself := Relation.TransGen.single selfTable_displays
  rcases follows_toString insertionLib selfTable_view selfTable_graph fuel (.inr rfl)
    with ⟨text', _, htext, -, -⟩ | hthrow
  · exact no_cycle_of_acc (acc_of_text htext) ⟨_, .refl, hself⟩
  · obtain ⟨e, u, hu⟩ := hthrow [] []
    cases hrun.symm.trans hu

/-- `local t = {}; local u = {t = t}` -/
def nestedTable : Heap :=
  { objects := [.table [some (.string [116], .table 1)], .table []] }

def nestedGraph : Set SqObject := {.string [116], .table 0, .table 1}

theorem nestedTable_graph : DataGraph nestedTable.slots nestedGraph where
  finite := ((Set.finite_singleton _).insert _).insert _
  data o ho := by
    rcases ho with rfl | rfl | rfl <;> trivial
  closed o ho hf a ha := by
    rcases ho with rfl | rfl | rfl
    · exact hf.elim
    · obtain rfl := List.mem_singleton.mp (show a ∈ [(.string [116], .table 1)] from ha)
      exact ⟨.inl rfl, .inr (.inr rfl)⟩
    · cases ha

/-- `{t: {}}` is shown, so nothing in it shows itself. -/
theorem rendering_terminates_nestedTable :
    ¬ReachesCycle (Displays heapApi insertionLib nestedTable nestedTable.slots) (.table 0) := by
  have hshown : result (L3.toString heapApi insertionLib 5) ⟨[.table 0], nestedTable, []⟩ =
      some (ascii "\x7bt: \x7b\x7d\x7d") := by decide +kernel
  obtain ⟨t, hrun⟩ := returns_of_result hshown
  exact (rendering_terminates insertionLib (slotView_heapApi (by decide)) nestedTable_graph
    (.inr (.inl rfl)) [] []).mp ⟨5, _, t, hrun⟩

end Sdb.L4
