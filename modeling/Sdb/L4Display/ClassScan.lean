import Sdb.Core.Scan
import Sdb.L4Display.Runs

/-!
# The scan for class names

`getClassesFullNameHelper` scans nested tables (`Core/Scan`). A slot with a class is
a mark, which is known by the hash of the class; one with a table is a link. At a
class or a table under a key that is no string the scan is stuck: `key` is read
without having been assigned.

* `returnsNames_iff`, `gives_getClassesFullNameHelper`: the function returns what the scan records;
* `classScan_terminates_iff`: it returns exactly if the scan is stuck nowhere and
  comes to no table on a cycle of slots that no class comes before.
-/
namespace Sdb.L4

open Sdb.L1 Sdb.L3 Sdb.Exec Sdb.Scan Relation

section
variable {H : Type} (api : SqApi H) (h : H)
variable (slots : SqObject → List (Option (SqObject × SqObject)))

abbrev ClassCell := Cell Bytes UInt64 SqObject

/-- What the loop does at a slot with this key and value. -/
def slotCell (slot : SqObject × SqObject) : ClassCell :=
  match slot with
  | (.string key, .class_ a) => .mark key (api.gethash h (.class_ a))
  | (.string key, .table a) => .link key (.table a)
  | (_, .class_ _) => .stuck
  | (_, .table _) => .stuck
  | _ => .skip

def tableCells (o : SqObject) : List ClassCell :=
  (Slots.entries (slots o)).map fun e => slotCell api h e.2

/-- `newNamespace`
mirrors SquirrelVmHelpers.cpp:110-114 -/
def fullName (currentNamespace key : Bytes) : Bytes :=
  currentNamespace ++ (if currentNamespace = [] then [] else ascii ".") ++ cstr key

/-- The slots of the tables, and an iteration that starts from `null`. -/
structure TableView : Prop where
  next : ∀ a (i : Nat), api.next h (.table a) (.integer i) =
    (Slots.next (slots (.table a)) i).map fun ((key, val), j) => (key, val, .integer j)
  start : ∀ a, api.next h (.table a) .null = api.next h (.table a) (.integer 0)

/-- A scan of the tables of this heap. -/
abbrev ScansTables : Bytes → List ClassCell → ClassNames → ClassNames → Prop :=
  Scans (tableCells api h slots) fullName

variable {api h slots}

theorem TableView.next_some (hv : TableView api h slots) {a : Nat} {key val : SqObject} {i j : Nat}
    (hs : Slots.next (slots (.table a)) i = some ((key, val), j)) :
    api.advance h (.table a) (.integer i) = (h, some (key, val, .integer j)) :=
  congrArg (Prod.mk h) ((hv.next a i).trans (by rw [hs]; rfl))

theorem TableView.next_none (hv : TableView api h slots) {a i : Nat}
    (hs : Slots.next (slots (.table a)) i = none) :
    api.advance h (.table a) (.integer i) = (h, none) :=
  congrArg (Prod.mk h) ((hv.next a i).trans (by rw [hs]; rfl))

theorem TableView.advance_null (hv : TableView api h slots) (a : Nat) :
    api.advance h (.table a) .null = api.advance h (.table a) (.integer 0) :=
  congrArg (Prod.mk h) (hv.start a)

theorem slotCell_skip {slot : SqObject × SqObject}
    (ht : ¬ (slot.2.type = .table ∨ slot.2.type = .class_)) : slotCell api h slot = .skip := by
  obtain ⟨key, val⟩ := slot
  cases val <;> simp [SqObject.type] at ht <;> cases key <;> rfl

/-! ## What is returned is a scan -/

section
variable {iter : SqObject} {b : Nat} {ns : Bytes}

theorem settles_classNamesScan (hv : TableView api h slots)
    {rec : Bytes → ClassNames → VmM H ClassNames}
    (hrec : ∀ ns names a, Settles (rec ns names) h [.table a] fun names' t => t = [.table a] ∧
      ScansTables api h slots ns (tableCells api h slots (.table a)) names names')
    (n : Nat) (names : ClassNames) {i : Nat} {es : List Entry}
    (hw : Slots.Walk (slots (.table b)) i es)
    (hiter : api.advance h (.table b) iter = api.advance h (.table b) (.integer i)) :
    Settles (classNamesLoop api rec ns n names) h [iter, .table b] fun names' t =>
      (∃ iter', t = [iter', .table b]) ∧
        ScansTables api h slots ns (es.map fun e => slotCell api h e.2) names names' := by
  induction n generalizing names iter i es with
  | zero => exact settles_throw _
  | succ n ih =>
    unfold classNamesLoop
    cases hw with
    | done hs =>
      have hnext := hiter.trans (hv.next_none hs)
      exact (gives_sqNext_none api rfl hnext).bind_settles
        ((gives_pure _).settles ⟨⟨iter, rfl⟩, .done⟩)
    | @step _ j a es hs hes =>
      obtain ⟨key, val⟩ := a
      have hnext := hiter.trans (hv.next_some hs)
      refine (gives_sqNext api rfl hnext).bind_settles ?_
      rw [if_pos rfl]
      -- the rest of the slots
      have hrest : ∀ names, Settles (sqPop 2 >>= fun _ => classNamesLoop api rec ns n names) h
          [val, key, .integer j, .table b] fun names' t => (∃ iter', t = [iter', .table b]) ∧
            ScansTables api h slots ns (es.map fun e => slotCell api h e.2) names names' :=
        fun names => (gives_sqPop [val, key]).bind_settles (ih names hes rfl)
      refine (gives_sqGettype rfl).bind_settles ?_
      by_cases ht : val.type = .table ∨ val.type = .class_
      · rw [if_pos ht]
        refine (gives_sqGetstring rfl).bind_settles ?_
        cases key with
        | string key =>
          dsimp only
          cases val with
          | class_ a =>
            rw [if_pos (show (SqObject.class_ a).type = .class_ from rfl)]
            refine (gives_sqGethash api rfl).bind_settles ?_
            by_cases hseen : (names (api.gethash h (.class_ a))).isSome
            · rw [if_pos hseen]
              exact (gives_sqPop [.class_ a, .string key]).bind_settles
                ((gives_pure _).settles ⟨⟨_, rfl⟩, .leave hseen⟩)
            · rw [if_neg hseen]
              have hnone : names (api.gethash h (.class_ a)) = none := by simpa using hseen
              refine (hrest _).mono fun names' t hscan => ⟨hscan.1, .record hnone hscan.2⟩
          | table a =>
            rw [if_neg (show ¬ (SqObject.table a).type = .class_ by simp [SqObject.type])]
            refine ((hrec _ names a).frame [.string key, .integer j, .table b]).bind ?_
            intro names₁ t ht
            obtain ⟨_, rfl, rfl, hinner⟩ := ht
            exact (hrest names₁).mono fun names' t hscan => ⟨hscan.1, .into hinner hscan.2⟩
          | _ => simp [SqObject.type] at ht
        | _ => exact settles_throw _
      · rw [if_neg ht]
        refine (hrest names).mono fun names' t hscan => ⟨hscan.1, ?_⟩
        rw [List.map_cons, slotCell_skip ht]
        exact .skip hscan.2

theorem settles_getClassesFullNameHelper (hv : TableView api h slots) (n : Nat) (ns : Bytes)
    (names : ClassNames) (a : Nat) :
    Settles (getClassesFullNameHelper api n ns names) h [.table a] fun names' t =>
      t = [.table a] ∧
        ScansTables api h slots ns (tableCells api h slots (.table a)) names names' := by
  induction n generalizing ns names a with
  | zero => exact settles_throw _
  | succ n ih =>
    unfold getClassesFullNameHelper
    refine (gives_sqGettype rfl).bind_settles ?_
    rw [if_neg (show ¬ (SqObject.table a).type ≠ .table by simp [SqObject.type])]
    refine (gives_sqPushobject .null).bind_settles ?_
    refine (settles_classNamesScan hv ih n names (Slots.walk_entries _) (hv.advance_null _)).bind ?_
    intro names' t ht
    obtain ⟨⟨iter, rfl⟩, hscan⟩ := ht
    exact (gives_sqPop [iter]).bind_settles ((gives_pure _).settles ⟨rfl, hscan⟩)

/-! ## A scan is returned -/

theorem slotCell_eq_mark {slot : SqObject × SqObject} {key : Bytes} {c : UInt64}
    (hs : slotCell api h slot = .mark key c) :
    ∃ a, slot = (.string key, .class_ a) ∧ c = api.gethash h (.class_ a) := by
  obtain ⟨k, val⟩ := slot
  cases val <;> cases k <;> simp [slotCell] at hs
  obtain ⟨rfl, rfl⟩ := hs
  exact ⟨_, rfl, rfl⟩

theorem slotCell_eq_link {slot : SqObject × SqObject} {key : Bytes} {v : SqObject}
    (hs : slotCell api h slot = .link key v) :
    ∃ a, slot = (.string key, .table a) ∧ v = .table a := by
  obtain ⟨k, val⟩ := slot
  cases val <;> cases k <;> simp [slotCell] at hs
  obtain ⟨rfl, rfl⟩ := hs
  exact ⟨_, rfl, rfl⟩

theorem slotCell_eq_skip {slot : SqObject × SqObject} (hs : slotCell api h slot = .skip) :
    ¬ (slot.2.type = .table ∨ slot.2.type = .class_) := by
  obtain ⟨k, val⟩ := slot
  cases val <;> cases k <;> simp [slotCell, SqObject.type] at hs ⊢

section
variable {rec : Bytes → ClassNames → VmM H ClassNames} {n : Nat} {names names' names₁ : ClassNames}
variable {iter' : SqObject} {t : List SqObject}

/-- One round of the loop, by the cell of its slot. -/
theorem gives_loop_skip {slot : SqObject × SqObject}
    (hnext : api.advance h (.table b) iter = (h, some (slot.1, slot.2, iter')))
    (hcell : slotCell api h slot = .skip)
    (hrest : Gives (classNamesLoop api rec ns n names) h [iter', .table b] names' h t) :
    Gives (classNamesLoop api rec ns (n + 1) names) h [iter, .table b] names' h t := by
  unfold classNamesLoop
  refine (gives_sqNext api rfl hnext).bind ?_
  rw [if_pos rfl]
  refine (gives_sqGettype rfl).bind ?_
  rw [if_neg (slotCell_eq_skip hcell)]
  exact (gives_sqPop [slot.2, slot.1]).bind hrest

theorem gives_loop_leave {key : Bytes} {a : Nat}
    (hnext : api.advance h (.table b) iter = (h, some (.string key, .class_ a, iter')))
    (hseen : (names (api.gethash h (.class_ a))).isSome) :
    Gives (classNamesLoop api rec ns (n + 1) names) h [iter, .table b] names h
      [iter', .table b] := by
  unfold classNamesLoop
  refine (gives_sqNext api rfl hnext).bind ?_
  rw [if_pos rfl]
  refine (gives_sqGettype rfl).bind ?_
  rw [if_pos (show _ ∨ (SqObject.class_ a).type = .class_ from .inr rfl)]
  refine (gives_sqGetstring rfl).bind ?_
  dsimp only
  rw [if_pos (show (SqObject.class_ a).type = .class_ from rfl)]
  refine (gives_sqGethash api rfl).bind ?_
  rw [if_pos hseen]
  exact (gives_sqPop [.class_ a, .string key]).bind (gives_pure _)

theorem gives_loop_record {key : Bytes} {a : Nat}
    (hnext : api.advance h (.table b) iter = (h, some (.string key, .class_ a, iter')))
    (hnew : names (api.gethash h (.class_ a)) = none)
    (hrest : Gives (classNamesLoop api rec ns n
      (Function.update names (api.gethash h (.class_ a)) (some (fullName ns key)))) h
      [iter', .table b] names' h t) :
    Gives (classNamesLoop api rec ns (n + 1) names) h [iter, .table b] names' h t := by
  unfold classNamesLoop
  refine (gives_sqNext api rfl hnext).bind ?_
  rw [if_pos rfl]
  refine (gives_sqGettype rfl).bind ?_
  rw [if_pos (show _ ∨ (SqObject.class_ a).type = .class_ from .inr rfl)]
  refine (gives_sqGetstring rfl).bind ?_
  dsimp only
  rw [if_pos (show (SqObject.class_ a).type = .class_ from rfl)]
  refine (gives_sqGethash api rfl).bind ?_
  rw [if_neg (by simp [hnew])]
  exact (gives_sqPop [.class_ a, .string key]).bind hrest

theorem gives_loop_into {key : Bytes} {a : Nat}
    (hnext : api.advance h (.table b) iter = (h, some (.string key, .table a, iter')))
    (hrec : Gives (rec (fullName ns key) names) h [.table a] names₁ h [.table a])
    (hrest : Gives (classNamesLoop api rec ns n names₁) h [iter', .table b] names' h t) :
    Gives (classNamesLoop api rec ns (n + 1) names) h [iter, .table b] names' h t := by
  unfold classNamesLoop
  refine (gives_sqNext api rfl hnext).bind ?_
  rw [if_pos rfl]
  refine (gives_sqGettype rfl).bind ?_
  rw [if_pos (show (SqObject.table a).type = .table ∨ _ from .inl rfl)]
  refine (gives_sqGetstring rfl).bind ?_
  dsimp only
  rw [if_neg (show ¬ (SqObject.table a).type = .class_ by simp [SqObject.type])]
  exact (hrec.frame [.string key, iter', .table b]).bind
    ((gives_sqPop [.table a, .string key]).bind hrest)

theorem gives_helper {a : Nat}
    (hloop : Gives (classNamesLoop api (getClassesFullNameHelper api n) ns n names) h
      [.null, .table a] names' h [iter', .table a]) :
    Gives (getClassesFullNameHelper api (n + 1) ns names) h [.table a] names' h [.table a] := by
  unfold getClassesFullNameHelper
  refine (gives_sqGettype rfl).bind ?_
  rw [if_neg (show ¬ (SqObject.table a).type ≠ .table by simp [SqObject.type])]
  exact (gives_sqPushobject .null).bind (hloop.bind ((gives_sqPop [iter']).bind (gives_pure _)))

end

/-- For every large enough bound the loop returns what is recorded. -/
theorem gives_classNamesScan (hv : TableView api h slots) {cs : List ClassCell}
    {names names' : ClassNames} (hscan : ScansTables api h slots ns cs names names') :
    ∀ (b : Nat) (iter : SqObject) (i : Nat) (es : List Entry),
      cs = es.map (fun e => slotCell api h e.2) → Slots.Walk (slots (.table b)) i es →
      api.advance h (.table b) iter = api.advance h (.table b) (.integer i) →
      ∃ N, ∀ r n, N ≤ r → N < n → ∃ iter',
        Gives (classNamesLoop api (getClassesFullNameHelper api r) ns n names) h [iter, .table b]
          names' h [iter', .table b] := by
  induction hscan with
  | done =>
    intro b iter i es hcs hw hiter
    obtain rfl := List.map_eq_nil_iff.mp hcs.symm
    cases hw with
    | done hs =>
      refine ⟨0, fun r n _ hn => ⟨iter, ?_⟩⟩
      obtain ⟨n, rfl⟩ := Nat.exists_eq_succ_of_ne_zero (Nat.ne_of_gt hn)
      unfold classNamesLoop
      exact (gives_sqNext_none api rfl (hiter.trans (hv.next_none hs))).bind (gives_pure _)
  | @skip ns cs names names' _ ih =>
    intro b iter i es hcs hw hiter
    cases hw with
    | done _ => cases hcs
    | @step _ j slot es hs hes =>
      obtain ⟨hcell, htail⟩ := List.cons.inj hcs
      obtain ⟨N, hN⟩ := ih b (.integer j) j es htail hes rfl
      refine ⟨N + 1, fun r n hr hn => ?_⟩
      obtain ⟨n, rfl⟩ := Nat.exists_eq_succ_of_ne_zero (Nat.ne_zero_of_lt hn)
      obtain ⟨iter', hrest⟩ := hN r n (by omega) (by omega)
      exact ⟨iter', gives_loop_skip (hiter.trans (hv.next_some hs)) hcell.symm hrest⟩
  | @leave ns key c cs names hc =>
    intro b iter i es hcs hw hiter
    cases hw with
    | done _ => cases hcs
    | @step _ j slot es hs hes =>
      obtain ⟨hcell, -⟩ := List.cons.inj hcs
      obtain ⟨a, rfl, rfl⟩ := slotCell_eq_mark hcell.symm
      refine ⟨0, fun r n _ hn => ⟨.integer j, ?_⟩⟩
      obtain ⟨n, rfl⟩ := Nat.exists_eq_succ_of_ne_zero (Nat.ne_of_gt hn)
      exact gives_loop_leave (hiter.trans (hv.next_some hs)) hc
  | @record ns key c cs names names' hc _ ih =>
    intro b iter i es hcs hw hiter
    cases hw with
    | done _ => cases hcs
    | @step _ j slot es hs hes =>
      obtain ⟨hcell, htail⟩ := List.cons.inj hcs
      obtain ⟨a, rfl, rfl⟩ := slotCell_eq_mark hcell.symm
      obtain ⟨N, hN⟩ := ih b (.integer j) j es htail hes rfl
      refine ⟨N + 1, fun r n hr hn => ?_⟩
      obtain ⟨n, rfl⟩ := Nat.exists_eq_succ_of_ne_zero (Nat.ne_zero_of_lt hn)
      obtain ⟨iter', hrest⟩ := hN r n (by omega) (by omega)
      exact ⟨iter', gives_loop_record (hiter.trans (hv.next_some hs)) hc hrest⟩
  | @into ns key v cs names names₁ names' _ _ ihv ih =>
    intro b iter i es hcs hw hiter
    cases hw with
    | done _ => cases hcs
    | @step _ j slot es hs hes =>
      obtain ⟨hcell, htail⟩ := List.cons.inj hcs
      obtain ⟨a, rfl, rfl⟩ := slotCell_eq_link hcell.symm
      obtain ⟨N, hN⟩ := ih b (.integer j) j es htail hes rfl
      obtain ⟨M, hM⟩ := ihv a .null 0 _ rfl (Slots.walk_entries _) (hv.advance_null _)
      refine ⟨max N M + 2, fun r n hr hn => ?_⟩
      obtain ⟨n, rfl⟩ := Nat.exists_eq_succ_of_ne_zero (Nat.ne_zero_of_lt hn)
      obtain ⟨iter', hrest⟩ := hN r n (by omega) (by omega)
      obtain ⟨r, rfl⟩ : ∃ m, r = m + 1 := ⟨r - 1, by omega⟩
      obtain ⟨inner, hinner⟩ := hM r r (by omega) (by omega)
      exact ⟨iter', gives_loop_into (hiter.trans (hv.next_some hs)) (gives_helper hinner) hrest⟩

/-- For every large enough bound `getClassesFullNameHelper` returns what is recorded. -/
theorem gives_getClassesFullNameHelper (hv : TableView api h slots) {a : Nat}
    {names names' : ClassNames}
    (hscan : ScansTables api h slots ns (tableCells api h slots (.table a)) names names') :
    ∃ N, ∀ fuel, N ≤ fuel →
      Gives (getClassesFullNameHelper api fuel ns names) h [.table a] names' h [.table a] := by
  obtain ⟨N, hN⟩ :=
    gives_classNamesScan hv hscan a .null 0 _ rfl (Slots.walk_entries _) (hv.advance_null _)
  refine ⟨N + 2, fun fuel hfuel => ?_⟩
  obtain ⟨n, rfl⟩ : ∃ m, fuel = m + 1 := ⟨fuel - 1, by omega⟩
  obtain ⟨iter', hloop⟩ := hN n n (by omega) (by omega)
  exact gives_helper hloop

/-! ## Termination -/

/-- `getClassesFullNameHelper` returns for the table on top of the stack. -/
def ReturnsNames (api : SqApi H) (h : H) (a : Nat) (ns : Bytes) (names : ClassNames) : Prop :=
  ∀ rest faults, ∃ fuel names' t,
    (getClassesFullNameHelper api fuel ns names).run ⟨.table a :: rest, h, faults⟩ = .ok names' t

theorem returnsNames_iff (hv : TableView api h slots) {a : Nat} {names : ClassNames} :
    ReturnsNames api h a ns names ↔
      ∃ names', ScansTables api h slots ns (tableCells api h slots (.table a)) names names' := by
  constructor
  · intro hret
    obtain ⟨fuel, names', t, hrun⟩ := hret [] []
    rcases settles_getClassesFullNameHelper hv fuel ns names a with
      ⟨names'', _, ⟨rfl, hscan⟩, -⟩ | hthrow
    · exact ⟨names'', hscan⟩
    · obtain ⟨e, u, hu⟩ := hthrow [] []
      rw [List.append_nil, hrun] at hu
      cases hu
  · intro h rest faults
    obtain ⟨names', hscan⟩ := h
    obtain ⟨N, hN⟩ := gives_getClassesFullNameHelper hv hscan
    exact ⟨N, names', _, hN N (Nat.le_refl N) rest faults⟩

variable (slots) in
/-- Finitely many tables, with all the tables in their slots. -/
structure TableGraph (G : Set SqObject) : Prop where
  finite : G.Finite
  closed : ∀ o ∈ G, ∀ key a, some (key, .table a) ∈ slots o → .table a ∈ G

theorem mem_tableCells {o : SqObject} {cell : ClassCell} :
    cell ∈ tableCells api h slots o ↔ ∃ slot, some slot ∈ slots o ∧ slotCell api h slot = cell := by
  have hvalues : (Slots.entries (slots o)).map (fun e => slotCell api h e.2) =
      ((slots o).filterMap id).map (slotCell api h) := by
    rw [← Slots.entries_values, List.map_map]
    rfl
  rw [tableCells, hvalues]
  simp

theorem TableGraph.cells {G : Set SqObject} (hG : TableGraph slots G) :
    ∀ v ∈ G, ∀ k u, .link k u ∈ tableCells api h slots v → u ∈ G := by
  intro v hv k u hmem
  obtain ⟨slot, hslot, hcell⟩ := mem_tableCells.mp hmem
  obtain ⟨a, rfl, rfl⟩ := slotCell_eq_link hcell
  exact hG.closed v hv _ _ hslot

/-- **When the scan for class names ends.** On a finite heap it returns exactly if it
comes to no class and no table under a key that is no string, and to no table that
leads back to itself by slots before the first class of their tables. -/
theorem classScan_terminates_iff (hv : TableView api h slots) {G : Set SqObject}
    (hG : TableGraph slots G) {a : Nat} (ha : .table a ∈ G) (ns : Bytes) (names : ClassNames) :
    ReturnsNames api h a ns names ↔
      Smooth (tableCells api h slots) fullName ns (tableCells api h slots (.table a)) names := by
  rw [returnsNames_iff hv]
  exact scans_iff hG.finite hG.cells ha ns names

end

end

theorem tableView_heapApi (h : Heap) : TableView heapApi h h.slots where
  next _ _ := rfl
  start _ := rfl

/-- A root table with a class, and with itself in a slot behind it. -/
def guardedHeap : Heap where
  objects := [.table [some (.string (ascii "A"), .class_ 1),
    some (.string (ascii "self"), .table 0)], .class_]

theorem guardedHeap_terminates : ReturnsNames heapApi guardedHeap 0 [] fun _ => none := by
  have hview : TableView heapApi guardedHeap guardedHeap.slots :=
    tableView_heapApi _
  have hgraph : TableGraph guardedHeap.slots {.table 0} := by
    refine ⟨Set.finite_singleton _, ?_⟩
    intro o ho key a hslot
    obtain rfl : o = .table 0 := ho
    have hslot' : key = .string (ascii "self") ∧ a = 0 := by
      simpa [Heap.slots, guardedHeap] using hslot
    rw [hslot'.2]
    rfl
  refine (classScan_terminates_iff hview hgraph (Set.mem_singleton _) [] _).mpr ?_
  have hleave : ScansTables heapApi guardedHeap guardedHeap.slots (fullName [] (ascii "self"))
      (tableCells heapApi guardedHeap guardedHeap.slots (.table 0))
      (Function.update (fun _ => none) (heapRaw (.class_ 1)) (some (fullName [] (ascii "A")))) _ :=
    .leave rfl
  exact Scans.smooth (.record rfl (.into hleave .done))

/-- A root table with itself in its only slot. -/
def selfHeap : Heap where
  objects := [.table [some (.string (ascii "self"), .table 0)]]

/-- The scan goes into the root table again and again. -/
theorem selfHeap_diverges : ¬ ReturnsNames heapApi selfHeap 0 [] fun _ => none := by
  have hview : TableView heapApi selfHeap selfHeap.slots :=
    tableView_heapApi _
  intro hret
  obtain ⟨names', hscan⟩ := (returnsNames_iff hview).mp hret
  have hcycle := hscan.smooth.noCycle [] (ascii "self") (.table 0) [] _ .here
  exact hcycle (.single ⟨[], ascii "self", [], rfl, by simp⟩)

end Sdb.L4
