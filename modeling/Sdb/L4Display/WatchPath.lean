import Sdb.L4Display.Evaluate
import Sdb.L4Display.Paths
import Sdb.L4Display.Scenes

/-!
# The iterator path of a watch

`GetImmediateValue` returns with a value the path on which it was found: the
number of a local and iterators from there, or iterators from the root table.
`GetObjectFromExpression` writes the path while it selects by keys, and
`WithVariableAtPath` reads it as iterators and indices.

* `retrace`: the way back along a path, by `sq_getlocal` or from the root table,
  and `WithVariableAtPath`;
* `Indexed`: arrays are read by index, and positions fit in the words that carry
  them;
* `settles_walk`: the walk along an expression leaves a path that leads to the
  object it found, at any length and nesting;
* `watch_path_leads_back`: the path of a watch leads to the object the watch was
  resolved to, in every heap that shows the same scene.
-/
namespace Sdb.L4

open Sdb.L1 Sdb.L3 Sdb.Exec

section
variable {H : Type} (api : SqApi H) (sc : Scene)

/-- The object at the end of a path that starts at the top of the stack. -/
def objectAtPath (path : List UInt32) : VmM H (Except ReturnCode SqObject) :=
  withVariableAtPath api (do return .ok (← sqGetstackobj 1)) (path.map UInt32.toUInt64)

/-- The way back along an iterator path. The first part of a local's path is its
number. -/
def retrace (stackFrame : Int32) :
    VariableScope → List UInt32 → VmM H (Except ReturnCode SqObject)
  | .local_, nSeq :: path => do
    match ← sqGetlocal api stackFrame.toInt.toNat nSeq.toNat with
    | none => return .error .invalidParameter
    | some _ =>
      let rc ← objectAtPath api path
      sqPoptop
      return rc
  | .global, path => do
    sqPushroottable api
    let rc ← objectAtPath api path
    sqPoptop
    return rc
  | _, _ => return .error .invalidParameter

/-- The index `sq_get` of an array takes a number for. -/
def arrayIndex : SqObject → Int
  | .integer n => n
  | .float f => api.tointeger f
  | _ => 0

def elementAt (slots : List (Option (SqObject × SqObject))) : Int → Option SqObject
  | .ofNat n => (slots[n]?).join.map (·.2)
  | .negSucc _ => none

/-- Arrays are read by index. An index fits in an `int`, an iterator and the number
of a local in 32 bits. -/
structure Indexed (Here : H → Prop) : Prop where
  element : ∀ a, sc.live (.array a) → ∀ n : Int,
    sc.lookup (.array a) (.integer n) = elementAt (sc.slots (.array a)) n
  found : ∀ a, sc.live (.array a) → ∀ key v, key.isNumeric = true →
    sc.lookup (.array a) key = some v →
    elementAt (sc.slots (.array a)) (arrayIndex api key) = some v
  getsize : ∀ h, Here h → ∀ a, sc.live (.array a) →
    api.getsize h (.array a) = (sc.slots (.array a)).length
  indices : ∀ a, sc.live (.array a) → (sc.slots (.array a)).length ≤ 2 ^ 31
  iterators : ∀ o, sc.live o → (sc.slots o).length ≤ 2 ^ 32
  numbers : ∀ level, (sc.locals level).length ≤ 2 ^ 32

/-- The iterator path of a result leads to its value. -/
def LeadsBack (stackFrame : Int32) (state : ExpressionNodeState) : Prop :=
  match state.scope with
  | .local_ => ∃ nSeq path l, state.iteratorPath = nSeq :: path ∧
      (sc.locals stackFrame.toInt.toNat)[nSeq.toNat]? = some l ∧
      LeadsTo sc.slots l.2 (path.map UInt32.toUInt64) state.resolvedValue
  | .global => LeadsTo sc.slots (.table sc.root) (state.iteratorPath.map UInt32.toUInt64)
      state.resolvedValue
  | .evaluation => True

variable {api sc}

/-! ## The way back -/

theorem elementAt_some {slots : List (Option (SqObject × SqObject))} {n : Int} {v : SqObject}
    (he : elementAt slots n = some v) :
    ∃ i key, n = ((i : Nat) : Int) ∧ slots[i]? = some (some (key, v)) := by
  cases n with
  | ofNat i =>
    obtain ⟨⟨key, v'⟩, hslot, rfl⟩ := Option.map_eq_some_iff.mp he
    exact ⟨i, key, rfl, Option.join_eq_some_iff.mp hslot⟩
  | negSucc i => cases he

variable {Here : H → Prop} (hst : Stage api sc Here) (hidx : Indexed api sc Here)

include hst hidx

/-- `WithVariableAtPath` goes where the path leads in the scene, and back. -/
theorem LeadsTo.gives_here {h h' : H} (hh : Here h) {o o' : SqObject} (ho : sc.live o)
    {path : List UInt64} (hp : LeadsTo sc.slots o path o') {α : Type}
    {fn : VmM H (Except ReturnCode α)} {rc : Except ReturnCode α}
    (hfn : Gives fn h [o'] rc h' [o']) :
    Gives (withVariableAtPath api fn path) h [o] rc h' [o] := by
  induction hp with
  | here o => exact hfn
  | @element a part path key v o' hpart he hrest ih =>
    have hlive : sc.live v := hst.liveSlot _ ho (key, v) (List.mem_of_getElem? he)
    have hlt := (List.getElem?_eq_some_iff.mp he).1
    have hsize : (part.toNat : Int) < api.getsize h (.array a) := by
      rw [hidx.getsize h hh a ho]
      omega
    have hget : api.get h (.array a) (.integer part.toNat) = (h, some v) := by
      rw [hst.get h hh _ ho, hidx.element a ho]
      show (h, ((sc.slots (.array a))[part.toNat]?).join.map (·.2)) = _
      rw [he]
      rfl
    exact (reachesOver_index hpart hsize hget).reaches.gives (ih hlive hfn)
  | @slot o part path key v o' j ho' hs hrest ih =>
    have hlive : sc.live v := hst.liveSlot _ ho (key, v) (Slots.mem_of_next hs)
    have hlt := (Slots.next_lt hs).trans_le (hidx.iterators o ho)
    have hstep : api.advance h o (.integer part.toNat) = (h, some (key, v, .integer j)) := by
      rw [hst.next h hh o ho, hs]
      rfl
    exact (reachesOver_next ho' (by omega) hstep).reaches.gives (ih hlive hfn)

/-- The path of a result is the way back to its value. -/
theorem LeadsBack.retraced {stackFrame : Int32} {state : ExpressionNodeState}
    (hback : LeadsBack sc stackFrame state) (hscope : state.scope ≠ .evaluation) {h : H}
    (hh : Here h) :
    Gives (retrace api stackFrame state.scope state.iteratorPath) h []
      (.ok state.resolvedValue) h [] := by
  have htop : ∀ o, Gives (do return .ok (← sqGetstackobj 1) : VmM H (Except ReturnCode SqObject)) h
      [o] (.ok o) h [o] := fun o => (gives_sqGetstackobj rfl).bind (gives_pure _)
  unfold LeadsBack at hback
  cases hs : state.scope with
  | local_ =>
    rw [hs] at hback
    obtain ⟨nSeq, path, l, hpath, hl, hleads⟩ := hback
    have hlocal := (gives_sqGetlocal api stackFrame.toInt.toNat nSeq.toNat : Gives _ h [] _ _ _)
    rw [hst.getlocal h hh, hl] at hlocal
    have hlive := hst.liveLocal _ l (List.mem_of_getElem? hl)
    rw [hpath]
    exact hlocal.bind ((hleads.gives_here hst hidx hh hlive (htop _)).bind
      (gives_sqPoptop.bind (gives_pure _)))
  | global =>
    rw [hs] at hback
    have hroot := (gives_sqPushroottable api : Gives _ h [] _ _ _)
    rw [hst.roottable h hh] at hroot
    exact hroot.bind ((hback.gives_here hst hidx hh hst.liveRoot (htop _)).bind
      (gives_sqPoptop.bind (gives_pure _)))
  | evaluation => exact absurd hs hscope

/-! ## The walk along an expression -/

/-- The first part of the path is an iterator from which `sq_next` finds a value, and
the rest is a path from there. -/
def ByIterator (slots : List (Option (SqObject × SqObject)))
    (Q : SqObject → SqObject → List UInt32 → Prop) (v : SqObject) (path : List UInt32) : Prop :=
  ∃ (i : Nat) (key val : SqObject) (j : Nat) (rest : List UInt32),
    path = UInt32.ofInt i :: rest ∧ Slots.next slots i = some ((key, val), j) ∧ Q val v rest

omit hst hidx in
/-- The scan stops at a slot, and puts the iterator from which `sq_next` found it in
front of the path. -/
theorem settles_scan {h : H} {o key : SqObject} {slots : List (Option (SqObject × SqObject))}
    (hnext : ∀ i : Nat, api.advance h o (.integer i) =
      (h, (Slots.next slots i).map fun ((key, val), j) => (key, val, .integer j)))
    {walk : VmM H (Except ReturnCode (SqObject × List UInt32))}
    {Q : SqObject → SqObject → List UInt32 → Prop}
    (hwalk : ∀ k v, some (k, v) ∈ slots → Settles walk h [v] fun rc t =>
      t = [v] ∧ ∀ v' path, rc = .ok (v', path) → Q v v' path)
    (found : SqObject) (n i : Nat) :
    Settles (scanForKey api key walk n) h [.integer i, found, o] fun rc t =>
      t = [o] ∧ ∀ v' path, rc = .ok (v', path) → ByIterator slots Q v' path := by
  induction n generalizing i with
  | zero => exact settles_throw _
  | succ n ih =>
    unfold scanForKey
    refine (gives_sqGetinteger api rfl).bind_settles ?_
    cases hs : Slots.next slots i with
    | none =>
      have hnone : api.advance h o (.integer i) = (h, none) := by
        rw [hnext, hs]
        rfl
      refine (gives_sqNext_none api rfl hnone).bind_settles ?_
      refine gives_sqPoptop.bind_settles (gives_sqPoptop.bind_settles ?_)
      exact (gives_pure _).settles ⟨rfl, fun _ _ hok => by cases hok⟩
    | some p =>
      obtain ⟨⟨iterKey, val⟩, j⟩ := p
      have hsome : api.advance h o (.integer i) = (h, some (iterKey, val, .integer j)) := by
        rw [hnext, hs]
        rfl
      refine (gives_sqNext api rfl hsome).bind_settles ?_
      rw [if_pos rfl]
      refine (gives_sqGetstackobj rfl).bind_settles ?_
      by_cases hraw : api.raw iterKey = api.raw key
      · rw [if_pos hraw]
        have hval := (hwalk iterKey val (Slots.mem_of_next hs)).over [iterKey, .integer j, found, o]
        refine hval.bind fun rc t hrc => ?_
        obtain ⟨rfl, hq⟩ := hrc
        refine (gives_sqPop [val, iterKey, .integer j, found]).bind_settles ?_
        refine (gives_pure _).settles ⟨rfl, fun v' path hok => ?_⟩
        cases rc with
        | error rc => cases hok
        | ok b =>
          obtain ⟨v'', rest⟩ := b
          obtain ⟨rfl, rfl⟩ := Prod.mk.inj (Except.ok.inj hok)
          exact ⟨i, iterKey, val, j, rest, rfl, hs, hq _ _ rfl⟩
      · rw [if_neg hraw]
        exact (gives_sqPop [val, iterKey]).bind_settles (ih j)

omit hst hidx in
/-- One selection in a table or an instance. -/
theorem settles_select {h : H} {o key : SqObject} (ho : o.type = .table ∨ o.type = .instance_)
    {slots : List (Option (SqObject × SqObject))}
    (hnext : ∀ i : Nat, api.advance h o (.integer i) =
      (h, (Slots.next slots i).map fun ((key, val), j) => (key, val, .integer j)))
    {found : Option SqObject} (hget : api.get h o key = (h, found)) {keys : List SqObject}
    {fuel : Nat} {Q : SqObject → SqObject → List UInt32 → Prop}
    (hwalk : ∀ k v, some (k, v) ∈ slots →
      Settles (getObjectFromExpression api fuel keys) h [v] fun rc t =>
        t = [v] ∧ ∀ v' path, rc = .ok (v', path) → Q v v' path) :
    Settles (getObjectFromExpression api fuel (key :: keys)) h [o] fun rc t =>
      t = [o] ∧ ∀ v' path, rc = .ok (v', path) → ByIterator slots Q v' path := by
  have hscan : ∀ (found : SqObject) (n i : Nat),
      Settles (scanForKey api key (getObjectFromExpression api fuel keys) n) h
        [.integer i, found, o] fun rc t =>
          t = [o] ∧ ∀ v' path, rc = .ok (v', path) → ByIterator slots Q v' path :=
    settles_scan hnext hwalk
  unfold getObjectFromExpression
  refine (gives_sqGettype rfl).bind_settles ?_
  rcases ho with ho | ho
  all_goals
    rw [ho]
    refine (gives_sqPushobject key).bind_settles ?_
    cases found with
    | none =>
      refine (gives_sqGet_none api rfl hget).bind_settles ((gives_pure _).settles ⟨rfl, ?_⟩)
      intro v' path hok
      cases hok
    | some v =>
      refine (gives_sqGet api rfl hget).bind_settles ?_
      rw [if_pos rfl]
      exact (gives_sqPushobject _).bind_settles (hscan v fuel 0)

omit hst hidx in
theorem toNat_iterator {n : Nat} (hn : n < 2 ^ 32) :
    (UInt32.ofInt (n : Int)).toUInt64.toNat = n := by
  simp [UInt32.ofInt]
  omega

/-- The path that a walk from `o` leaves leads from `o` to what it found. -/
def Walked (sc : Scene) (o : SqObject) (rc : Except ReturnCode (SqObject × List UInt32)) : Prop :=
  ∀ v path, rc = .ok (v, path) → LeadsTo sc.slots o (path.map UInt32.toUInt64) v

omit hst hidx in
theorem walked_error (o : SqObject) (code : ReturnCode) : Walked sc o (.error code) := by
  intro v path hok
  cases hok

omit hst hidx in
theorem gives_arrayIndex {h : H} {key o : SqObject} (hnum : key.isNumeric = true) :
    Gives (sqGetinteger api 1) h [key, o] (some (arrayIndex api key)) h [key, o] := by
  refine (gives_sqGetstackobj rfl).bind ?_
  cases key with
  | integer n => exact gives_pure _
  | float f => exact gives_pure _
  | _ => cases hnum

/-- A walk that starts in a table or an instance. -/
theorem settles_slot {h : H} (hh : Here h) {o key : SqObject}
    (ho : o.type = .table ∨ o.type = .instance_) (hlive : sc.live o) {fuel : Nat}
    {keys : List SqObject}
    (hwalk : ∀ v, sc.live v → Settles (getObjectFromExpression api fuel keys) h [v] fun rc t =>
      t = [v] ∧ Walked sc v rc) :
    Settles (getObjectFromExpression api fuel (key :: keys)) h [o] fun rc t =>
      t = [o] ∧ Walked sc o rc := by
  have hselect := settles_select ho (hst.next h hh o hlive) (hst.get h hh o hlive key)
    fun k v hmem => hwalk v (hst.liveSlot o hlive (k, v) hmem)
  refine hselect.mono fun rc t hrc => ⟨hrc.1, fun v' path hok => ?_⟩
  obtain ⟨i, k, v, j, rest, rfl, hs, hleads⟩ := hrc.2 v' path hok
  have hlt := (Slots.next_lt hs).trans_le (hidx.iterators o hlive)
  have hs' : Slots.next (sc.slots o) (UInt32.ofInt (i : Int)).toUInt64.toNat =
      some ((k, v), j) := by
    rw [toNat_iterator hlt]
    exact hs
  exact .slot ho hs' hleads

/-- A walk that starts in an array. -/
theorem settles_element {h : H} (hh : Here h) {a : Nat} {key : SqObject}
    (hlive : sc.live (.array a)) {fuel : Nat} {keys : List SqObject}
    (hwalk : ∀ v, sc.live v → Settles (getObjectFromExpression api fuel keys) h [v] fun rc t =>
      t = [v] ∧ Walked sc v rc) :
    Settles (getObjectFromExpression api fuel (key :: keys)) h [.array a] fun rc t =>
      t = [.array a] ∧ Walked sc (.array a) rc := by
  unfold getObjectFromExpression
  refine (gives_sqGettype rfl).bind_settles ?_
  dsimp only [SqObject.type]
  by_cases hnum : key.isNumeric = true
  · rw [hnum, if_neg (by simp)]
    refine (gives_sqPushobject key).bind_settles ((gives_arrayIndex hnum).bind_settles ?_)
    have hget := hst.get h hh _ hlive key
    cases hfound : sc.lookup (.array a) key with
    | none =>
      rw [hfound] at hget
      refine (gives_sqGet_none api rfl hget).bind_settles ?_
      exact (gives_pure _).settles ⟨rfl, walked_error _ _⟩
    | some v =>
      rw [hfound] at hget
      obtain ⟨i, k, hi, he⟩ := elementAt_some (hidx.found a hlive key v hnum hfound)
      have hlt := (List.getElem?_eq_some_iff.mp he).1
      have hsmall := hidx.indices a hlive
      have hpart : (UInt32.ofInt ((some (arrayIndex api key)).getD 0)).toUInt64.toNat = i := by
        rw [hi]
        exact toNat_iterator (by omega)
      have hsmall' : (UInt32.ofInt ((some (arrayIndex api key)).getD 0)).toUInt64.toNat <
          2 ^ 31 := by omega
      rw [← hpart] at he
      refine (gives_sqGet api rfl hget).bind_settles ?_
      rw [if_pos rfl]
      have hrest := (hwalk v (hst.liveLookup _ hlive key v hfound)).over [.array a]
      refine hrest.bind fun rc t hrc => ?_
      obtain ⟨rfl, hleads⟩ := hrc
      refine gives_sqPoptop.bind_settles ((gives_pure _).settles ⟨rfl, ?_⟩)
      cases rc with
      | error rc => exact walked_error _ _
      | ok b =>
        obtain ⟨v'', rest⟩ := b
        intro v' path hok
        obtain ⟨rfl, rfl⟩ := Prod.mk.inj (Except.ok.inj hok)
        exact .element hsmall' he (hleads _ _ rfl)
  · rw [Bool.not_eq_true] at hnum
    rw [hnum, if_pos (by simp)]
    exact (gives_pure _).settles ⟨rfl, walked_error _ _⟩

/-- **The walk along an expression leaves a path to what it finds.** -/
theorem settles_walk {h : H} (hh : Here h) (fuel : Nat) (keys : List SqObject) {o : SqObject}
    (ho : sc.live o) :
    Settles (getObjectFromExpression api fuel keys) h [o] fun rc t =>
      t = [o] ∧ Walked sc o rc := by
  induction keys generalizing o with
  | nil =>
    refine (gives_sqGetstackobj rfl).bind_settles ((gives_pure _).settles ⟨rfl, ?_⟩)
    intro v path hok
    obtain ⟨rfl, rfl⟩ := Prod.mk.inj (Except.ok.inj hok)
    exact .here o
  | cons key keys ih =>
    cases o with
    | table a => exact settles_slot hst hidx hh (.inl rfl) ho fun v hv => ih hv
    | instance_ a => exact settles_slot hst hidx hh (.inr rfl) ho fun v hv => ih hv
    | array a => exact settles_element hst hidx hh ho fun v hv => ih hv
    | _ =>
      unfold getObjectFromExpression
      refine (gives_sqGettype rfl).bind_settles ((gives_pure _).settles ⟨rfl, ?_⟩)
      exact walked_error _ _

/-! ## Results in a scene -/

section
variable {α β : Type} {h h' : H} {top top' top'' : List SqObject}

omit hst hidx in
/-- `m` returns as `P` says in a heap that shows the scene, or throws. -/
def Concludes (Here : H → Prop) (m : VmM H α) (h : H) (top top' : List SqObject)
    (P : α → Prop) : Prop :=
  (∃ a h', Here h' ∧ P a ∧ Gives m h top a h' top') ∨ Throws m h top

omit hst hidx in
theorem Settles.concludes {m : VmM H α} {P : α → Prop}
    (hm : Settles m h top fun a t => t = top' ∧ P a) (hh : Here h) :
    Concludes Here m h top top' P := by
  rcases hm with ⟨a, _, ⟨rfl, hp⟩, hm⟩ | hm
  · exact .inl ⟨a, h, hh, hp, hm⟩
  · exact .inr hm

omit hst hidx in
theorem Gives.concludes {m : VmM H α} {a : α} {P : α → Prop} (hm : Gives m h top a h' top')
    (hh : Here h') (hp : P a) : Concludes Here m h top top' P := .inl ⟨a, h', hh, hp, hm⟩

omit hst hidx in
theorem concludes_throw (e : Exn) {P : α → Prop} :
    Concludes Here (throw e : VmM H α) h top top' P := .inr (throws_throw e)

omit hst hidx in
theorem Gives.bind_concludes {m : VmM H α} {f : α → VmM H β} {a : α} {P : β → Prop}
    (hm : Gives m h top a h' top') (hf : Concludes Here (f a) h' top' top'' P) :
    Concludes Here (m >>= f) h top top'' P := by
  rcases hf with ⟨b, h'', hh'', hp, hf⟩ | hf
  · exact .inl ⟨b, h'', hh'', hp, hm.bind hf⟩
  · exact .inr (hm.bind_throws hf)

omit hst hidx in
theorem Concludes.bind {m : VmM H α} {f : α → VmM H β} {P : α → Prop} {Q : β → Prop}
    (hm : Concludes Here m h top top' P)
    (hf : ∀ a h', Here h' → P a → Concludes Here (f a) h' top' top'' Q) :
    Concludes Here (m >>= f) h top top'' Q := by
  rcases hm with ⟨a, h', hh', hp, hm⟩ | hm
  · exact hm.bind_concludes (hf a h' hh' hp)
  · exact .inr hm.bind

end

/-! ## A root identifier -/

/-- What a walk from the temporary table leaves of the path leads from the local. -/
def FromLocal (sc : Scene) (val : SqObject) (rc : Except ReturnCode (SqObject × List UInt32)) :
    Prop :=
  ∀ v path, rc = .ok (v, path) → LeadsTo sc.slots val (path.tail.map UInt32.toUInt64) v

/-- The walk from the temporary table. -/
theorem settles_oneSlot {h : H} (hh : Here h) {t : Nat} {text : Bytes} {val : SqObject}
    (hlive : sc.live val) (hone : OneSlot api h t (.string text) val) (fuel : Nat)
    (keys : List SqObject) :
    Settles (getObjectFromExpression api fuel (.string text :: keys)) h [.table t] fun rc top =>
      top = [.table t] ∧ FromLocal sc val rc := by
  obtain ⟨slots, hslots, hnext⟩ := hone.next
  have honly : ∀ k v, some (k, v) ∈ slots → v = val := by
    intro k v hmem
    have hfilter : (k, v) ∈ slots.filterMap id := List.mem_filterMap.mpr ⟨_, hmem, rfl⟩
    rw [hslots] at hfilter
    exact (Prod.mk.inj (List.mem_singleton.mp hfilter)).2
  have hwalk : ∀ k v, some (k, v) ∈ slots →
      Settles (getObjectFromExpression api fuel keys) h [v] fun rc top =>
        top = [v] ∧ ∀ v' path, rc = .ok (v', path) →
          v = val → LeadsTo sc.slots val (path.map UInt32.toUInt64) v' := by
    intro k v hmem
    obtain rfl := honly k v hmem
    refine (settles_walk hst hidx hh fuel keys hlive).mono fun rc top hrc => ?_
    exact ⟨hrc.1, fun v' path hok _ => hrc.2 v' path hok⟩
  have hselect := settles_select
    (Q := fun v v' path => v = val → LeadsTo sc.slots val (path.map UInt32.toUInt64) v')
    (.inl rfl) hnext hone.get hwalk
  refine hselect.mono fun rc top hrc => ⟨hrc.1, fun v' path hok => ?_⟩
  obtain ⟨i, k, v, j, rest, rfl, hs, hleads⟩ := hrc.2 v' path hok
  exact hleads (honly k v (Slots.mem_of_next hs))

variable {stackFrame : Int32}

/-- The walk from the root table. -/
theorem concludes_evaluateGlobal {h : H} (hh : Here h) (fuel : Nat) (keys : List SqObject) :
    Concludes Here (evaluateGlobal api fuel keys) h [] [] fun rc =>
      ∀ state, rc = .ok state → LeadsBack sc stackFrame state := by
  have hroot := (gives_sqPushroottable api : Gives _ h [] _ _ _)
  rw [hst.roottable h hh] at hroot
  have hwalk := (settles_walk hst hidx hh fuel keys hst.liveRoot).concludes hh
  refine hroot.bind_concludes (hwalk.bind fun rc h' hh' hleads => ?_)
  refine gives_sqPoptop.bind_concludes ((gives_pure _).concludes hh' fun state hok => ?_)
  cases rc with
  | error rc => cases hok
  | ok b =>
    obtain ⟨v, path⟩ := b
    obtain rfl := Except.ok.inj hok
    exact hleads v path rfl

/-- The first local of the name, and the walk from it. -/
theorem concludes_findLocal {h : H} (hh : Here h) (frame fuel : Nat) (text : Bytes)
    (keys : List SqObject) (n nSeq : Nat) :
    Concludes Here (findLocal api fuel frame text (.string text :: keys) n nSeq)
      (api.newtable h).1 [.table (api.newtable h).2] [.table (api.newtable h).2] fun found =>
        ∀ i rc, found = some (i, rc) → ∃ l, (sc.locals frame)[i]? = some l ∧
          FromLocal sc l.2 rc := by
  have hnew := hst.newtable h hh
  induction n generalizing nSeq with
  | zero => exact concludes_throw _
  | succ n ih =>
    have hlocal : Gives (sqGetlocal api frame nSeq) (api.newtable h).1
        [.table (api.newtable h).2] ((api.getlocal (api.newtable h).1 frame nSeq).map (·.1))
        (api.newtable h).1 (((api.getlocal (api.newtable h).1 frame nSeq).map (·.2)).toList ++
          [.table (api.newtable h).2]) := gives_sqGetlocal api frame nSeq
    rw [hst.getlocal _ hnew] at hlocal
    unfold findLocal
    cases hl : (sc.locals frame)[nSeq]? with
    | none =>
      rw [hl] at hlocal
      exact hlocal.bind_concludes ((gives_pure _).concludes hnew fun i rc hfound => by cases hfound)
    | some l =>
      rw [hl] at hlocal
      refine hlocal.bind_concludes ?_
      dsimp only [Option.map_some]
      by_cases hname : cstr l.1 = text
      · rw [if_pos hname]
        have hlive := hst.liveLocal frame l (List.mem_of_getElem? hl)
        obtain ⟨hhere, hone⟩ := hst.rawset h hh text l.2 hlive
        have hwalk := (settles_oneSlot hst hidx hhere hlive hone fuel keys).concludes hhere
        refine (gives_sqPushobject _).bind_concludes ((gives_sqPush rfl).bind_concludes ?_)
        refine (gives_sqRawset api rfl (by simp)).bind_concludes ?_
        refine gives_sqPoptop.bind_concludes (hwalk.bind fun rc h' hh' hfrom => ?_)
        refine (gives_pure _).concludes hh' fun i rc' hfound => ?_
        obtain ⟨rfl, rfl⟩ := Prod.mk.inj (Option.some.inj hfound)
        exact ⟨l, hl, hfrom⟩
      · rw [if_neg hname]
        exact gives_sqPoptop.bind_concludes (ih (nSeq + 1))

theorem concludes_evaluateIdentifier {h : H} (hh : Here h) (fuel : Nat) (text : Bytes)
    (keys : List SqObject) :
    Concludes Here (evaluateIdentifier api fuel stackFrame text (.string text :: keys)) h [] []
      fun rc => ∀ state, rc = .ok state → LeadsBack sc stackFrame state := by
  unfold evaluateIdentifier
  split
  · have hfind := concludes_findLocal hst hidx hh stackFrame.toInt.toNat fuel text keys fuel 0
    refine (gives_sqNewtable api).bind_concludes (hfind.bind fun found h' hh' hlocal => ?_)
    cases found with
    | none =>
      exact gives_sqPoptop.bind_concludes (concludes_evaluateGlobal hst hidx hh' fuel _)
    | some p =>
      obtain ⟨i, rc⟩ := p
      obtain ⟨l, hl, hfrom⟩ := hlocal i rc rfl
      refine gives_sqPoptop.bind_concludes ((gives_pure _).concludes hh' fun state hok => ?_)
      cases rc with
      | error rc => cases hok
      | ok b =>
        obtain ⟨v, path⟩ := b
        obtain rfl := Except.ok.inj hok
        have hlt := (List.getElem?_eq_some_iff.mp hl).1
        have hnumber := hidx.numbers stackFrame.toInt.toNat
        have hnat : (UInt32.ofNat i).toNat = i := UInt32.toNat_ofNat_of_lt' (hlt.trans_le hnumber)
        refine ⟨UInt32.ofNat i, path.tail, l, rfl, ?_, hfrom v path rfl⟩
        rw [hnat]
        exact hl
  · exact concludes_evaluateGlobal hst hidx hh fuel _

/-! ## The worklist -/

omit hst hidx in
/-- The accessors of a chain as VM objects; the first of a chain that starts with an
identifier is its text. -/
theorem gives_sqNodes_first (results : ExpressionResults) (type : ExpressionNodeType)
    (text : Bytes) (id : NodeId) (node : ExpressionNode) (h : H) (top : List SqObject) :
    ∃ rc, Gives (sqNodes results type text id node) h top rc h top ∧
      ∀ keys, rc = .ok keys → Rooted node → type = .identifier →
        ∃ rest, keys = .string text :: rest := by
  induction node generalizing id with
  | null => exact ⟨_, gives_pure _, fun keys _ hrooted => hrooted.elim⟩
  | node type' text' accessor next _ ih =>
    have hobject : ∃ rc, Gives (sqNodeObject results type text id accessor) h top rc h top ∧
        ∀ key, rc = .ok key → accessor = .null → type = .identifier → key = .string text := by
      unfold sqNodeObject
      by_cases hnull : accessor = .null
      · rw [if_neg (not_not.mpr hnull)]
        refine ⟨_, gives_literalObject type text, fun key hok _ htype => ?_⟩
        rw [literal, if_neg (by simp [htype])] at hok
        exact (Except.ok.inj hok).symm
      · rw [if_pos hnull]
        cases results (.accessor :: id) with
        | none => exact ⟨_, gives_pure _, fun key hok => by cases hok⟩
        | some state => exact ⟨_, gives_pure _, fun key _ hnull' => absurd hnull' hnull⟩
    obtain ⟨rc, hobject, hfirst⟩ := hobject
    unfold sqNodes
    cases rc with
    | error rc => exact ⟨_, hobject.bind (gives_pure _), fun keys hok => by cases hok⟩
    | ok key =>
      obtain ⟨rc', hnext, -⟩ := ih (.next :: id)
      cases rc' with
      | error rc =>
        exact ⟨_, hobject.bind (hnext.bind (gives_pure _)), fun keys hok => by cases hok⟩
      | ok keys =>
        refine ⟨_, hobject.bind (hnext.bind (gives_pure _)), fun keys' hok hrooted htype => ?_⟩
        obtain rfl := Except.ok.inj hok
        exact ⟨keys, by rw [hfirst key rfl hrooted.1 htype]⟩

/-- One chain. -/
theorem concludes_evaluateNode {h : H} (hh : Here h) (fuel : Nat) (results : ExpressionResults)
    (id : NodeId) {node : ExpressionNode} (hrooted : Rooted node) :
    Concludes Here (evaluateNode api fuel stackFrame results id node) h [] [] fun rc =>
      ∀ state, rc = .ok state → LeadsBack sc stackFrame state := by
  cases node with
  | null => exact hrooted.elim
  | node type text accessor next =>
    obtain ⟨rc, hnodes, hfirst⟩ := gives_sqNodes_first results type text id
      (.node type text accessor next) h []
    unfold evaluateNode
    refine hnodes.bind_concludes ?_
    cases rc with
    | error rc => exact (gives_pure _).concludes hh fun state hok => by cases hok
    | ok keys =>
      dsimp only
      split
      · rename_i htype
        obtain ⟨rest, rfl⟩ := hfirst keys rfl hrooted htype
        exact concludes_evaluateIdentifier hst hidx hh fuel text rest
      · refine (gives_pure _).concludes hh fun state hok => ?_
        obtain rfl := Except.ok.inj hok
        trivial

omit hst hidx in
/-- The accessor expressions of a suffix chain are chains. -/
theorem unresolved_rooted {results : ExpressionResults} {id : NodeId} {node : ExpressionNode}
    (hsuffixes : Suffixes node) : ∀ x ∈ unresolved results id node, Rooted x.2 := by
  induction node generalizing id with
  | null =>
    intro x hx
    cases hx
  | node type text accessor next _ ih =>
    obtain ⟨haccessor, hnext⟩ := hsuffixes
    intro x hx
    rw [unresolved] at hx
    split at hx
    · rename_i hnew
      rcases List.mem_cons.mp hx with rfl | hx
      · exact (haccessor.resolve_left hnew.1).2
      · exact ih hnext x hx
    · exact ih hnext x hx

omit hst hidx in
theorem suffixes_of_rooted {node : ExpressionNode} (hrooted : Rooted node) : Suffixes node := by
  cases node with
  | null => exact hrooted.elim
  | node type text accessor next => exact ⟨.inl hrooted.1, hrooted.2⟩

/-- **Every result on record leads back**, however the worklist grew. -/
theorem concludes_evaluateLoop {h : H} (hh : Here h) (fuel n : Nat)
    {stack : List (NodeId × ExpressionNode)} (hstack : ∀ x ∈ stack, Rooted x.2)
    {results : ExpressionResults}
    (hresults : ∀ id state, results id = some state → LeadsBack sc stackFrame state) :
    Concludes Here (evaluateLoop api stackFrame fuel n stack results) h [] [] fun rc =>
      ∀ results', rc = .ok results' →
        ∀ id state, results' id = some state → LeadsBack sc stackFrame state := by
  induction n generalizing h stack results with
  | zero => exact concludes_throw _
  | succ n ih =>
    cases stack with
    | nil =>
      refine (gives_pure _).concludes hh fun results' hok => ?_
      obtain rfl := Except.ok.inj hok
      exact hresults
    | cons x stack =>
      obtain ⟨id, node⟩ := x
      have hrooted : Rooted node := hstack _ List.mem_cons_self
      have hrest : ∀ x ∈ stack, Rooted x.2 := fun x hx => hstack x (List.mem_cons_of_mem _ hx)
      have hdependencies : ∀ x ∈ (unresolved results id node).reverse ++ (id, node) :: stack,
          Rooted x.2 := by
        intro x hx
        rcases List.mem_append.mp hx with hx | hx
        · exact unresolved_rooted (suffixes_of_rooted hrooted) x (List.mem_reverse.mp hx)
        · exact hstack x hx
      rw [evaluateLoop]
      split
      · have hnode : Concludes Here (evaluateNode api fuel stackFrame results id node) h [] []
            fun rc => ∀ state, rc = .ok state → LeadsBack sc stackFrame state :=
          concludes_evaluateNode hst hidx hh fuel results id hrooted
        refine hnode.bind fun rc h' hh' hstate => ?_
        cases rc with
        | error rc => exact (gives_pure _).concludes hh' fun results' hok => by cases hok
        | ok state =>
          refine ih hh' hrest fun id' state' hmem => ?_
          by_cases heq : id' = id
          · rw [heq, Function.update_self] at hmem
            obtain rfl := Option.some.inj hmem
            exact hstate state rfl
          · rw [Function.update_of_ne heq] at hmem
            exact hresults id' state' hmem
      · exact ih hh hdependencies hresults

/-- The result for the root of an accepted expression. -/
theorem concludes_resolveExpression {h : H} (hh : Here h) (fuel : Nat) {root : ExpressionNode}
    (hrooted : Rooted root) :
    Concludes Here (resolveExpression api fuel stackFrame root) h [] [] fun rc =>
      ∀ state, rc = .ok state → LeadsBack sc stackFrame state := by
  have hstack : ∀ x ∈ [(([] : NodeId), root)], Rooted x.2 := fun x hx =>
    List.mem_singleton.mp hx ▸ hrooted
  have hloop : Concludes Here (evaluateLoop api stackFrame fuel fuel [([], root)] fun _ => none) h
      [] [] fun rc => ∀ results', rc = .ok results' → ∀ id state, results' id = some state →
        LeadsBack sc stackFrame state :=
    concludes_evaluateLoop hst hidx hh fuel fuel hstack fun id state hnone => by cases hnone
  unfold resolveExpression
  refine hloop.bind fun rc h' hh' hresults => ?_
  cases rc with
  | error rc => exact (gives_pure _).concludes hh' fun state hok => by cases hok
  | ok results =>
    dsimp only
    cases hroot : results [] with
    | none => exact (gives_pure _).concludes hh' fun state hok => by cases hok
    | some state =>
      refine (gives_pure _).concludes hh' fun state' hok => ?_
      obtain rfl := Except.ok.inj hok
      exact hresults results rfl [] state hroot

/-- **The iterator path of a watch leads back.** When `GetImmediateValue` succeeds, it
has resolved the text to an object and shows that object, with the scope and the
path it was found on; and the way back along this path ends on that very object, in
every heap that shows the same scene. -/
theorem watch_path_leads_back {r : Renderer H} {fuel : Nat} {watch : Bytes} {s t : SqVm H}
    (hh : Here s.heap) {shown : ImmediateValue}
    (hret : Returns (getImmediateValue api r fuel stackFrame watch) s (.ok shown) t) :
    ∃ root nodeState u, parseWatch watch = .ok root ∧
      Returns (resolveExpression api fuel stackFrame root) s (.ok nodeState) u ∧
      Returns (showResolved api r nodeState) u shown t ∧
      u.stack = s.stack ∧ Here u.heap ∧
      (shown.scope ≠ .evaluation → ∀ h, Here h →
        Gives (retrace api stackFrame shown.scope shown.iteratorPath) h []
          (.ok nodeState.resolvedValue) h []) := by
  obtain ⟨stack, h₀, faults⟩ := s
  unfold getImmediateValue at hret
  cases hparse : parseWatch watch with
  | error e =>
    rw [hparse] at hret
    cases e with
    | watch what pos => cases hret
    | undefined => cases hret
    | fuel => cases hret
  | ok root =>
    rw [hparse] at hret
    obtain ⟨rc, u, hresolve, hshow⟩ := returns_bind_iff.mp hret
    cases rc with
    | error rc => cases (returns_pure_iff.mp hshow).1
    | ok nodeState =>
      obtain ⟨shown', w, hshown, hpure⟩ := returns_bind_iff.mp hshow
      obtain ⟨heq, rfl⟩ := returns_pure_iff.mp hpure
      obtain rfl := Except.ok.inj heq
      have hfields : shown'.scope = nodeState.scope ∧
          shown'.iteratorPath = nodeState.iteratorPath := by
        obtain ⟨_, _, -, hrest⟩ := returns_bind_iff.mp hshown
        obtain ⟨_, _, -, hrest⟩ := returns_bind_iff.mp hrest
        obtain ⟨_, _, -, hrest⟩ := returns_bind_iff.mp hrest
        obtain ⟨rfl, -⟩ := returns_pure_iff.mp hrest
        exact ⟨rfl, rfl⟩
      have hresult : Concludes Here (resolveExpression api fuel stackFrame root) h₀ [] [] fun rc =>
          ∀ state, rc = .ok state → LeadsBack sc stackFrame state :=
        concludes_resolveExpression hst hidx hh fuel (parseWatch_rooted hparse)
      rcases hresult with ⟨rc, h', hh', hback, hgives⟩ | hthrows
      · obtain ⟨rfl, rfl⟩ := (hgives stack faults).unique hresolve
        refine ⟨root, nodeState, _, rfl, hresolve, hshown, rfl, hh', fun hscope h hh => ?_⟩
        rw [hfields.1, hfields.2]
        rw [hfields.1] at hscope
        exact (hback nodeState rfl).retraced hst hidx hscope hh
      · obtain ⟨e, w, hrun⟩ := hthrows stack faults
        have hcontra := hrun.symm.trans hresolve
        cases hcontra

end

/-! ## Closed heaps -/

theorem slots_getElem? {elements : List SqObject} (i : Nat) :
    ((arraySlots elements)[i]?).join.map (·.2) = elements[i]? := by
  rw [arraySlots, List.getElem?_mapIdx]
  cases elements[i]? <;> rfl

/-- A heap reads its arrays by index. -/
theorem find_array (h₀ : Heap) (a : Nat) (n : Int) :
    h₀.find (.array a) (.integer n) = elementAt (h₀.slots (.array a)) n := by
  unfold Heap.find Heap.slots
  dsimp only
  split
  · rename_i elements _
    cases n with
    | ofNat i =>
      rw [elementAt, slots_getElem?]
      cases he : elements[i]? with
      | some e =>
        have hfind := find_element he
        rw [← Int.ofNat_eq_natCast] at hfind
        rw [hfind]
        rfl
      | none =>
        rw [Option.map_eq_none_iff, List.find?_eq_none, reduceOption_arraySlots]
        intro slot hslot heq
        obtain ⟨j, hj, rfl⟩ := List.mem_mapIdx.mp hslot
        have hij : (j : Int) = i := SqObject.integer.inj (of_decide_eq_true heq)
        obtain rfl : j = i := by omega
        rw [List.getElem?_eq_getElem hj] at he
        cases he
    | negSucc i =>
      rw [elementAt, Option.map_eq_none_iff, List.find?_eq_none, reduceOption_arraySlots]
      intro slot hslot heq
      obtain ⟨j, hj, rfl⟩ := List.mem_mapIdx.mp hslot
      have hneg : (j : Int) = Int.negSucc i := SqObject.integer.inj (of_decide_eq_true heq)
      omega
  · cases n <;> rfl

/-- Only integers are keys of a heap's arrays. -/
theorem find_array_float (h₀ : Heap) (a : Nat) (f : UInt32) :
    h₀.find (.array a) (.float f) = none := by
  unfold Heap.find Heap.slots
  dsimp only
  split
  · rw [Option.map_eq_none_iff, List.find?_eq_none, reduceOption_arraySlots]
    intro slot hslot heq
    obtain ⟨j, hj, rfl⟩ := List.mem_mapIdx.mp hslot
    cases of_decide_eq_true heq
  · rfl

/-- A heap whose containers and frames are small enough is indexed. -/
theorem indexed_heapScene {h₀ : Heap} (hslots : ∀ x ∈ h₀.objects, x.slots.length ≤ 2 ^ 31)
    (hlocals : ∀ frame ∈ h₀.locals, frame.length ≤ 2 ^ 32) (raw : SqObject → UInt64) :
    Indexed (heapApiWith raw) (heapScene h₀) (Grown h₀) := by
  have hlength : ∀ o, (h₀.slots o).length ≤ 2 ^ 31 := by
    intro o
    rcases h₀.slots_cases o with hnil | ⟨x, hx, heq⟩
    · rw [hnil]
      exact Nat.zero_le _
    · rw [heq]
      exact hslots x hx
  exact {
    element := fun a _ n => find_array h₀ a n
    found := by
      intro a _ key v hnum hfind
      cases key with
      | integer n => exact (find_array h₀ a n).symm.trans hfind
      | float f => cases (find_array_float h₀ a f).symm.trans hfind
      | _ => cases hnum
    getsize := by
      intro h hg a ha
      show (((h.slots (.array a)).reduceOption.length : Nat) : Int) = (h₀.slots (.array a)).length
      rw [Grown.slots hg (show Heap.Has h₀ (.array a) from ha)]
      unfold Heap.slots
      dsimp only
      split
      · rw [reduceOption_arraySlots]
        simp [arraySlots]
      · rfl
    indices := fun a _ => hlength (.array a)
    iterators := fun o _ => (hlength o).trans (by decide)
    numbers := by
      intro level
      show ((h₀.locals[level]?).getD []).length ≤ _
      cases hframe : h₀.locals[level]? with
      | none => exact Nat.zero_le _
      | some frame => exact hlocals frame (List.mem_of_getElem? hframe) }

/-- `a[0]["x"]` -/
def slotWatch : Bytes := [97, 91, 48, 93, 91, 34, 120, 34, 93]

/-- The local `a` is an array of a table that has `x` behind a free slot. -/
def slotHeap : Heap where
  objects := [.table [], .array [.table 2],
    .table [some (.string [119], .integer 7), none, some (.string [120], .integer 5)]]
  locals := [[([97], .array 1)]]

theorem watch_path_leads_back_slotWatch :
    ∃ shown t root nodeState u,
      Returns (getImmediateValue heapApi (renderer heapApi insertionLib 9) 9 0 slotWatch)
        ⟨[], slotHeap, []⟩ (.ok shown) t ∧
      Returns (resolveExpression heapApi 9 0 root) ⟨[], slotHeap, []⟩ (.ok nodeState) u ∧
      nodeState.resolvedValue = .integer 5 ∧
      shown.scope = .local_ ∧ shown.iteratorPath = [0, 0, 1] ∧
      Gives (retrace heapApi 0 .local_ [0, 0, 1]) slotHeap [] (.ok (.integer 5)) slotHeap [] := by
  have hst : Stage heapApi (heapScene slotHeap) (Grown slotHeap) :=
    stage_heapScene ⟨by decide, by decide, by decide⟩ heapRaw
  have hidx : Indexed heapApi (heapScene slotHeap) (Grown slotHeap) :=
    indexed_heapScene (by decide) (by decide) heapRaw
  have hhere : Grown slotHeap slotHeap := ⟨[], rfl⟩
  have hresult : (result (getImmediateValue heapApi (renderer heapApi insertionLib 9) 9 0 slotWatch)
      ⟨[], slotHeap, []⟩).map (fun rc => rc.map fun shown => (shown.scope, shown.iteratorPath)) =
        some (.ok (.local_, [0, 0, 1])) := by decide +kernel
  obtain ⟨rc, hrc, hshown⟩ := Option.map_eq_some_iff.mp hresult
  cases rc with
  | error rc => cases hshown
  | ok shown =>
    obtain ⟨hscope, hpath⟩ := Prod.mk.inj (Except.ok.inj hshown)
    obtain ⟨t, hret⟩ := returns_of_result hrc
    obtain ⟨root, nodeState, u, -, hresolve, -, -, -, hback⟩ :=
      watch_path_leads_back hst hidx hhere hret
    have hgives := hback (by rw [hscope]; decide) slotHeap hhere
    rw [hscope, hpath] at hgives
    have hvalue : result (retrace heapApi 0 .local_ [0, 0, 1]) ⟨[], slotHeap, []⟩ =
        some (.ok (.integer 5)) := by decide +kernel
    obtain ⟨w, hretrace⟩ := returns_of_result hvalue
    obtain ⟨heq, -⟩ := (hgives [] []).unique hretrace
    rw [heq] at hgives
    exact ⟨shown, t, root, nodeState, u, hret, hresolve, Except.ok.inj heq, hscope, hpath, hgives⟩

end Sdb.L4
