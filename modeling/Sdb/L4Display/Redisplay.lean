import Sdb.L4Display.Edit
import Sdb.L4Display.Summary

/-!
# What an edit changes of what is shown

The text of an object is made of the objects it displays, so a write shows only where the
object written to is displayed. An array displays nothing but its size, and a table or an
instance no field after the one that makes its summary long enough.

* `objectText_agree`: heaps that agree on the objects an object leads to show one text of it;
* `rendered_iff`: `ToString` returns exactly this text;
* `edit_redisplays`: after `SetStackVariableValue` an object that does not lead to the
  container of the slot is shown as before.
-/
namespace Sdb.L4

open Sdb.L1 Sdb.L3 Sdb.Exec
open Relation (ReflTransGen)

section
variable {H : Type} (api : SqApi H) (lib : CppLib)

/-- `ToString` shows this text of the object. -/
def Rendered (h : H) (o : SqObject) (text : Bytes) : Prop :=
  ∃ fuel t, (L3.toString api lib fuel).run ⟨[o], h, []⟩ = .ok text t

variable {api lib} {h h' : H} {slots slots' : SqObject → List (Option (SqObject × SqObject))}
  {o : SqObject} {G : Set SqObject}

/-! ## One text in two heaps -/

theorem keysText_agree {rec rec' : SqObject → Option Bytes} {es : List Entry}
    (he : ∀ e ∈ es, rec' e.2.1 = rec e.2.1) : keysText rec' es = keysText rec es := by
  induction es with
  | nil => rfl
  | cons e es ih =>
    obtain ⟨hkey, hrest⟩ := List.forall_mem_cons.mp he
    rw [keysText, keysText, hkey, ih hrest]

theorem small_iff (hsize : api.getsize h' o = api.getsize h o) :
    Small api h' o ↔ Small api h o := by
  unfold Small
  rw [hsize]

theorem ordered_agree {rec rec' : SqObject → Option Bytes} (hf : HasFields o)
    (hslots : slots' o = slots o) (hsize : api.getsize h' o = api.getsize h o)
    (hrec : ∀ w, Displays api lib h slots o w → rec' w = rec w) :
    ordered api lib h' slots' rec' o = ordered api lib h slots rec o := by
  unfold ordered entriesOf
  rw [hslots]
  by_cases hs : Small api h o
  · rw [if_pos hs, if_pos ((small_iff hsize).mpr hs),
      keysText_agree fun e he => hrec _ (.sortKey hf hs he)]
  · rw [if_neg hs, if_neg fun hs' => hs ((small_iff hsize).mp hs')]

theorem fieldText_agree {rec : SqObject → Option Bytes} {n : Nat} {e : Entry} {ss : Bytes}
    (hc : Comes api lib h slots n o e ss)
    (hrec : ∀ w, Displays api lib h slots o w → rec w = objectText api lib h slots n w)
    (isFirst : Bool) :
    fieldText rec isFirst e ss = fieldText (objectText api lib h slots n) isFirst e ss := by
  unfold fieldText
  rw [hrec _ (.value hc)]
  cases hval : objectText api lib h slots n e.2.2 with
  | none => rfl
  | some valueStr =>
    by_cases hne : valueStr = []
    · simp [hne]
    · rw [hrec _ (.fieldKey hc hval hne)]

/-- The fields that are still to come, after those that have been written. -/
theorem fieldsText_agree {rec : SqObject → Option Bytes} {n : Nat} (hf : HasFields o)
    (hsize : api.getsize h' o = api.getsize h o)
    (hrec : ∀ w, Displays api lib h slots o w → rec w = objectText api lib h slots n w)
    (before : List Entry) {es : List Entry} {ss : Bytes}
    (hes : ordered api lib h slots (objectText api lib h slots n) o = some (before ++ es))
    (hss : fieldsText api h (objectText api lib h slots n) o before true (ascii "\x7b") =
      some ss) :
    fieldsText api h' rec o es before.isEmpty ss =
      fieldsText api h (objectText api lib h slots n) o es before.isEmpty ss := by
  induction es generalizing before ss with
  | nil => rfl
  | cons e es ih =>
    have hlimit : limit api h' o = limit api h o := by
      unfold limit
      exact if_congr (small_iff hsize) rfl rfl
    have hfirst : ∀ b : Bool, (if Small api h' o then ss.length == 1 else b) =
        if Small api h o then ss.length == 1 else b := fun b =>
      if_congr (small_iff hsize) rfl rfl
    rw [fieldsText, fieldsText, hlimit, hfirst]
    by_cases hlt : ss.length < limit api h o
    · have hc : Comes api lib h slots n o e ss := ⟨hf, hlt, before, es, hes, hss⟩
      rw [if_pos hlt, if_pos hlt, fieldText_agree hc hrec]
      cases hmid : fieldText (objectText api lib h slots n)
          (if Small api h o then ss.length == 1 else before.isEmpty) e ss with
      | none => rfl
      | some ss' =>
        have hes' : ordered api lib h slots (objectText api lib h slots n) o =
            some ((before ++ [e]) ++ es) := by simpa using hes
        have hss' : fieldsText api h (objectText api lib h slots n) o (before ++ [e]) true
            (ascii "\x7b") = some ss' := by
          rw [fieldsText_append, hss, Option.bind_some, fieldsText, if_pos hlt, Bool.true_and, hmid]
          rfl
        have hne : (before ++ [e]).isEmpty = false := by simp
        have hrest := ih (before ++ [e]) hes' hss'
        rw [hne] at hrest
        exact hrest
    · rw [if_neg hlt, if_neg hlt]

/-- Heaps that agree on what an object leads to show one text of it. -/
theorem objectText_agree (n : Nat)
    (hsame : ∀ v, ReflTransGen (Displays api lib h slots) o v →
      slots' v = slots v ∧ api.getsize h' v = api.getsize h v) :
    objectText api lib h' slots' n o = objectText api lib h slots n o := by
  induction n generalizing o with
  | zero => rfl
  | succ n ih =>
    have hsummary : HasFields o → summaryText api lib h' slots' (objectText api lib h' slots' n) o =
        summaryText api lib h slots (objectText api lib h slots n) o := by
      intro hf
      obtain ⟨hslots, hsize⟩ := hsame o .refl
      have hrec : ∀ w, Displays api lib h slots o w →
          objectText api lib h' slots' n w = objectText api lib h slots n w :=
        fun w hw => ih fun v hv => hsame v (.head hw hv)
      unfold summaryText
      rw [ordered_agree hf hslots hsize hrec]
      cases hes : ordered api lib h slots (objectText api lib h slots n) o with
      | none => rfl
      | some es =>
        have hfields : fieldsText api h' (objectText api lib h' slots' n) o es true
            (ascii "\x7b") = fieldsText api h (objectText api lib h slots n) o es true
            (ascii "\x7b") := fieldsText_agree hf hsize hrec [] hes rfl
        rw [Option.bind_some, Option.bind_some, hfields]
    cases o with
    | table a => exact hsummary trivial
    | instance_ a => exact hsummary trivial
    | array a =>
      have hsize := (hsame (.array a) .refl).2
      exact congrArg (fun size => some (ascii "\x7b size=" ++ intText size ++ ascii " \x7d")) hsize
    | _ => rfl

/-- **`ToString` shows the text of an object**, whatever lies below it on the stack. -/
theorem rendered_iff (hv : SlotView api h slots) (hG : DataGraph slots G) (ho : o ∈ G)
    {text : Bytes} :
    Rendered api lib h o text ↔ ∃ n, objectText api lib h slots n o = some text := by
  constructor
  · intro hr
    obtain ⟨fuel, t, hrun⟩ := hr
    rcases follows_toString lib hv hG fuel ho with ⟨text', _, htext, -, hgives⟩ | hthrow
    · obtain ⟨rfl, -⟩ := Returns.unique (hgives [] []) hrun
      exact ⟨fuel, htext⟩
    · obtain ⟨e, u, hu⟩ := hthrow [] []
      cases hrun.symm.trans hu
  · intro hr
    obtain ⟨n, htext⟩ := hr
    obtain ⟨N, hN⟩ := gives_toString lib hv hG ho htext
    exact ⟨N, _, hN N (Nat.le_refl N) [] []⟩

/-! ## The write -/

/-- The new value is a scalar, so the objects are still those of a data graph. -/
theorem DataGraph.write (hG : DataGraph slots G) {key val new : SqObject} {i : Nat}
    (hslot : (slots o)[i]? = some (some (key, val))) (hnew : Scalar new)
    (hself : slots' o = (slots o).set i (some (key, new)))
    (hothers : ∀ o', o' ≠ o → slots' o' = slots o') : DataGraph slots' (insert new G) where
  finite := hG.finite.insert new
  data := by
    intro w hw
    rcases Set.mem_insert_iff.mp hw with rfl | hw
    · cases w with
      | bool | integer | float | string => trivial
      | _ => exact hnew.elim
    · exact hG.data w hw
  closed := by
    intro w hw hf a ha
    have hold : w ∈ G := by
      rcases Set.mem_insert_iff.mp hw with rfl | hw
      · cases w with
        | bool | integer | float | string => exact hf.elim
        | _ => exact hnew.elim
      · exact hw
    have hkept : a ∈ (slots w).filterMap id → a.1 ∈ insert new G ∧ a.2 ∈ insert new G := by
      intro ha
      obtain ⟨hkey, hval⟩ := hG.closed w hold hf a ha
      exact ⟨.inr hkey, .inr hval⟩
    by_cases hwo : w = o
    · subst hwo
      have hkey := (hG.closed w hold hf (key, val)
        (List.mem_filterMap.mpr ⟨_, List.mem_of_getElem? hslot, rfl⟩)).1
      rw [hself] at ha
      obtain ⟨slot, hmem, rfl⟩ := List.mem_filterMap.mp ha
      rcases List.mem_or_eq_of_mem_set hmem with hmem | hmem
      · exact hkept (List.mem_filterMap.mpr ⟨_, hmem, rfl⟩)
      · obtain rfl := Option.some.inj hmem
        exact ⟨.inr hkey, .inl rfl⟩
    · rw [hothers w hwo] at ha
      exact hkept ha

variable (api) in
/-- Setting a slot that is there leaves the sizes, and a heap whose slots can be read. -/
structure SetsInPlace (slots : H → SqObject → List (Option (SqObject × SqObject))) (h : H) :
    Prop where
  size : ∀ {o key val new h'} {i : Nat}, o.type = .table ∨ o.type = .instance_ →
    (slots h o)[i]? = some (some (key, val)) → api.set h o key new = (h', true) →
    api.getsize h' = api.getsize h
  view : ∀ {o key val new h'} {i : Nat}, o.type = .table ∨ o.type = .instance_ →
    (slots h o)[i]? = some (some (key, val)) → api.set h o key new = (h', true) →
    SlotView api h' (slots h')

end

section
variable {H : Type} {api : SqApi H} {h : H}
variable {slots : H → SqObject → List (Option (SqObject × SqObject))} {o : SqObject}

/-- The command sets one slot of the container to a scalar, or leaves the heap. -/
theorem setStackVariableValue_sets (lib : CppLib) (hplain : PlainAccess api slots)
    (hh : PlainHeap api slots h) {fuel : Nat} (hfuel : 0 < fuel) {stackFrame : UInt32}
    {path : Bytes} {first last : UInt64} {middle : List UInt64} {name : Bytes} {start : SqObject}
    (hparts : pathParts path = some (first :: (middle ++ [last])))
    (hlocal : api.getlocal h stackFrame.toNat first.toNat = some (name, start))
    (hleads : LeadsTo (slots h) start middle o) (ho : o.type = .table ∨ o.type = .instance_)
    (text : Bytes) :
    ∃ rc h', Gives (setStackVariableValue api lib (renderer api lib fuel) stackFrame path text) h []
        rc h' [] ∧
      (h' = h ∨ ∃ key val new, ∃ i : Nat, (slots h o)[i]? = some (some (key, val)) ∧ Scalar new ∧
        api.set h o key new = (h', true) ∧ slots h' o = (slots h o).set i (some (key, new)) ∧
        ∀ o', o' ≠ o → slots h' o' = slots h o') := by
  cases hs : Slots.next (slots h o) last.toNat with
  | none =>
    exact ⟨_, h, gives_setStackVariableValue hh hparts hlocal hleads (gives_noSlot hh ho hs _ []),
      .inl rfl⟩
  | some p =>
    obtain ⟨⟨key, val⟩, j⟩ := p
    obtain ⟨i, rfl, -, hslot⟩ := Slots.next_position hs
    cases hp : parseValue lib text val with
    | none =>
      exact ⟨_, h, gives_setStackVariableValue hh hparts hlocal hleads
        (gives_lastSlot hh ho hs (gives_replaceValue_none _ hp)), .inl rfl⟩
    | some new =>
      obtain ⟨h', hset, hself, hothers⟩ := hplain.set new ho (hh.distinct o) hslot
      have hget : api.get h' o key = (h', some new) := by
        have hlt := (List.getElem?_eq_some_iff.mp hslot).1
        refine hplain.get (i := i) ho ?_ ?_
        · rw [hself]
          exact (hh.distinct o).set_value hslot new
        · rw [hself, List.getElem?_set_self hlt]
      exact ⟨_, h', gives_setStackVariableValue hh hparts hlocal hleads
        (gives_lastSlot hh ho hs (gives_replaceValue hfuel hp hset hget _)),
        .inr ⟨key, val, new, i, hslot, (scalar_of_parse hp).2, hset, hself, hothers⟩⟩

/-- **An edit is shown only where the container is shown.** Whatever `SetStackVariableValue`
of a slot of a table or an instance returns, an object that does not lead, from object to
displayed object, to this table or instance is shown as before. -/
theorem edit_redisplays (lib : CppLib) (hplain : PlainAccess api slots)
    (hh : PlainHeap api slots h) (hw : SetsInPlace api slots h) {fuel : Nat} (hfuel : 0 < fuel)
    {stackFrame : UInt32} {path : Bytes} {first last : UInt64} {middle : List UInt64}
    {name : Bytes} {start : SqObject}
    (hparts : pathParts path = some (first :: (middle ++ [last])))
    (hlocal : api.getlocal h stackFrame.toNat first.toNat = some (name, start))
    (hleads : LeadsTo (slots h) start middle o) (ho : o.type = .table ∨ o.type = .instance_)
    (text : Bytes) (stack : List SqObject) (faults : List Fault) :
    ∃ rc s', Returns (setStackVariableValue api lib (renderer api lib fuel) stackFrame path text)
        ⟨stack, h, faults⟩ rc s' ∧
      ∀ G w, DataGraph (slots h) G → w ∈ G →
        ¬ ReflTransGen (Displays api lib h (slots h)) w o →
        ∀ shown, Rendered api lib s'.heap w shown ↔ Rendered api lib h w shown := by
  obtain ⟨rc, h', hgives, rfl | ⟨key, val, new, i, hslot, hnew, hset, hself, hothers⟩⟩ :=
    setStackVariableValue_sets lib hplain hh hfuel hparts hlocal hleads ho text
  · exact ⟨rc, _, hgives stack faults, fun _ _ _ _ _ _ => Iff.rfl⟩
  · refine ⟨rc, _, hgives stack faults, fun G w hG hw' hnot shown => ?_⟩
    have hG' := hG.write hslot hnew hself hothers
    have hsame : ∀ n, objectText api lib h' (slots h') n w =
        objectText api lib h (slots h) n w := fun n => objectText_agree n fun v hv =>
      ⟨hothers v fun heq => hnot (heq ▸ hv), by rw [hw.size ho hslot hset]⟩
    show Rendered api lib h' w shown ↔ _
    rw [rendered_iff (hw.view ho hslot hset) hG' (.inr hw'), rendered_iff hh.view hG hw']
    simp only [hsame]

end

/-! ## A heap -/

theorem setsInPlace_heapApi {fuel : Nat} {h : Heap} (hpos : 0 < fuel)
    (hf : ∀ x ∈ h.objects, Fits fuel x.slots) : SetsInPlace heapApi Heap.slots h where
  size := by
    intro o key val new h' i ho hslot hset
    obtain ⟨-, rfl⟩ := set_heapApi hset
    funext v
    have hlen : ((h.store o key new).slots v).reduceOption.length =
        (h.slots v).reduceOption.length := by
      by_cases hv : v = o
      · subst hv
        have hd := (navigable_heapApi hpos hf).distinct v
        have hlength := congrArg List.length (map_fst_set hslot new)
        rw [List.length_map, List.length_map] at hlength
        rw [Heap.slots_store ho hd hslot, hlength]
      · rw [Heap.slots_store_ne hv]
    cases v with
    | table a => exact congrArg Int.ofNat hlen
    | array a => exact congrArg Int.ofNat hlen
    | _ => rfl
  view := fun _ _ hset => ((staysNavigable_heapApi hpos hf).written hset).view

/-- Writing `7` at the path `0,0,1`. The array at `0` holds the table written to, and shows
only its size. -/
theorem edit_redisplays_rowHeap :
    ∃ rc s', Returns (setStackVariableValue heapApi insertionLib (renderer heapApi insertionLib 9) 0
        [48, 44, 48, 44, 49] [55]) ⟨[.null], rowHeap, []⟩ rc s' ∧
      ∀ shown, Rendered heapApi insertionLib s'.heap (.array 0) shown ↔
        Rendered heapApi insertionLib rowHeap (.array 0) shown := by
  have hleads : LeadsTo rowHeap.slots (.array 0) [0] (.table 1) :=
    .element (by decide) (show _ = some (some (SqObject.integer 0, _)) from rfl) (.here _)
  have hparts : pathParts [48, 44, 48, 44, 49] = some (0 :: ([0] ++ [1])) := by decide
  have hlocal : heapApi.getlocal rowHeap (0 : UInt32).toNat (0 : UInt64).toNat =
      some ([97], .array 0) := rfl
  obtain ⟨rc, s', hreturns, hshown⟩ := edit_redisplays insertionLib plainAccess_heapApi
    rowHeap_plain (setsInPlace_heapApi (by decide) rowHeap_fits) (show 0 < 9 by decide) hparts
    hlocal hleads (.inl rfl) [55] [.null] []
  have hG : DataGraph rowHeap.slots {.array 0} := {
    finite := Set.finite_singleton _
    data := by
      intro w hw
      obtain rfl := Set.mem_singleton_iff.mp hw
      trivial
    closed := by
      intro w hw hf
      obtain rfl := Set.mem_singleton_iff.mp hw
      exact hf.elim }
  refine ⟨rc, s', hreturns, hshown _ _ hG rfl fun hreaches => ?_⟩
  rcases hreaches.cases_head with heq | ⟨w, hw, -⟩
  · cases heq
  · cases hw with
    | sortKey hf => exact hf.elim
    | value hc => exact hc.1.elim
    | fieldKey hc => exact hc.1.elim

end Sdb.L4
