import Sdb.L4Display.Reference

/-!
# Evaluating one chain

A chain whose accessor expressions have values is evaluated by a search among
the locals, the trick with the temporary table, and the walk of
`GetObjectFromExpression`. `Answers` says that such a computation returns the
given value, or a code other than `Success` where there is none.

* `answers_getObjectFromExpression`: the walk selects key by key (`selects`);
* `answers_evaluateIdentifier`: from a root identifier;
* `answers_evaluateNode`: a chain, from the values of its accessor expressions.

Each holds from some bound on, since every scan and every search ends.
-/
namespace Sdb.L4

open Sdb.L1 Sdb.L3 Sdb.Exec

section
variable {H : Type} {β γ : Type} {h h' h'' : H} {top top' top'' : List SqObject}

/-- `m` returns a result with the value of `r`, or an error code if `r` has none. -/
def Answers (m : VmM H (Except ReturnCode β)) (h : H) (top : List SqObject) (h' : H)
    (top' : List SqObject) (value : β → SqObject) (r : Option SqObject) : Prop :=
  match r with
  | some v => ∃ b, value b = v ∧ Gives m h top (.ok b) h' top'
  | none => ∃ rc, rc ≠ .success ∧ Gives m h top (.error rc) h' top'

theorem Gives.bind_answers {α : Type} {m : VmM H α} {f : α → VmM H (Except ReturnCode β)} {a : α}
    {value : β → SqObject} {r : Option SqObject} (hm : Gives m h top a h' top')
    (hf : Answers (f a) h' top' h'' top'' value r) :
    Answers (m >>= f) h top h'' top'' value r := by
  cases r with
  | some v =>
    obtain ⟨b, hb, hfb⟩ := hf
    exact ⟨b, hb, hm.bind hfb⟩
  | none =>
    obtain ⟨rc, hrc, hfrc⟩ := hf
    exact ⟨rc, hrc, hm.bind hfrc⟩

theorem Answers.frame {m : VmM H (Except ReturnCode β)} {value : β → SqObject}
    {r : Option SqObject} (hm : Answers m h top h' top' value r) (more : List SqObject) :
    Answers m h (top ++ more) h' (top' ++ more) value r := by
  cases r with
  | some v =>
    obtain ⟨b, hb, hmb⟩ := hm
    exact ⟨b, hb, hmb.frame more⟩
  | none =>
    obtain ⟨rc, hrc, hmrc⟩ := hm
    exact ⟨rc, hrc, hmrc.frame more⟩

/-- What follows keeps the value and the kind of the outcome. -/
theorem Answers.bind_keep {m : VmM H (Except ReturnCode β)}
    {f : Except ReturnCode β → VmM H (Except ReturnCode γ)} {value : β → SqObject}
    {value' : γ → SqObject} {r : Option SqObject} (hm : Answers m h top h' top' value r)
    (hok : ∀ b, ∃ c, value' c = value b ∧ Gives (f (.ok b)) h' top' (.ok c) h'' top'')
    (herror : ∀ rc, Gives (f (.error rc)) h' top' (.error rc) h'' top'') :
    Answers (m >>= f) h top h'' top'' value' r := by
  cases r with
  | some v =>
    obtain ⟨b, hb, hmb⟩ := hm
    obtain ⟨c, hc, hfc⟩ := hok b
    exact ⟨c, hc.trans hb, hmb.bind hfc⟩
  | none =>
    obtain ⟨rc, hrc, hmrc⟩ := hm
    exact ⟨rc, hrc, hmrc.bind (herror rc)⟩

theorem answers_error {value : β → SqObject} {rc : ReturnCode} (hrc : rc ≠ .success) :
    Answers (pure (.error rc) : VmM H (Except ReturnCode β)) h top h top value none :=
  ⟨rc, hrc, gives_pure _⟩

/-! ## The walk along an expression -/

variable (api : SqApi H)

/-- The scan from `i` on: the first slot with the key's raw word. -/
theorem answers_scanForKey {o found : SqObject} {slots : List (Option (SqObject × SqObject))}
    (hnext : ∀ i : Nat, api.advance h o (.integer i) =
      (h, (Slots.next slots i).map fun ((key, val), j) => (key, val, .integer j)))
    {key : SqObject} {walk : VmM H (Except ReturnCode (SqObject × List UInt32))}
    {value : SqObject → Option SqObject} {i n : Nat} {es : List Entry}
    (hw : Slots.Walk slots i es) (hn : es.length < n)
    (hwalk : ∀ v, ((es.find? fun e => api.raw e.2.1 = api.raw key).map (·.2.2)) = some v →
      Answers walk h [v] h [v] Prod.fst (value v)) :
    Answers (scanForKey api key walk n) h [.integer i, found, o] h [o] Prod.fst
      (((es.find? fun e => api.raw e.2.1 = api.raw key).map (·.2.2)).bind value) := by
  induction hw generalizing n with
  | @done i hs =>
    obtain ⟨n, rfl⟩ : ∃ m, n = m + 1 := ⟨n - 1, by simp at hn; omega⟩
    have hnone : api.advance h o (.integer i) = (h, none) := by rw [hnext, hs]; rfl
    exact (gives_sqGetinteger api rfl).bind_answers
      ((gives_sqNext_none api rfl hnone).bind_answers
        (gives_sqPoptop.bind_answers (gives_sqPoptop.bind_answers (answers_error (by decide)))))
  | @step i j a es hs hw ih =>
    obtain ⟨n, rfl⟩ : ∃ m, n = m + 1 := ⟨n - 1, by simp at hn; omega⟩
    obtain ⟨iterKey, val⟩ := a
    have hsome : api.advance h o (.integer i) = (h, some (iterKey, val, .integer j)) := by
      rw [hnext, hs]
      rfl
    refine (gives_sqGetinteger api rfl).bind_answers
      ((gives_sqNext api rfl hsome).bind_answers ?_)
    rw [if_pos rfl]
    refine (gives_sqGetstackobj rfl).bind_answers ?_
    by_cases hraw : api.raw iterKey = api.raw key
    · rw [if_pos hraw]
      rw [List.find?_cons_of_pos (by simpa using hraw)] at hwalk ⊢
      have hval := (hwalk val rfl).frame [iterKey, .integer j, found, o]
      refine hval.bind_keep (fun b => ?_) fun rc => ?_
      · exact ⟨(b.1, UInt32.ofInt i :: b.2), rfl,
          (gives_sqPop [val, iterKey, .integer j, found]).bind (gives_pure _)⟩
      · exact (gives_sqPop [val, iterKey, .integer j, found]).bind (gives_pure _)
    · rw [if_neg hraw]
      rw [List.find?_cons_of_neg (by simpa using hraw)] at hwalk ⊢
      exact (gives_sqPop [val, iterKey]).bind_answers (ih (by simp at hn; omega) hwalk)

/-- One selection in a table or an instance. -/
theorem answers_select_slot {o : SqObject} (ho : o.type = .table ∨ o.type = .instance_)
    {slots : List (Option (SqObject × SqObject))}
    (hnext : ∀ i : Nat, api.advance h o (.integer i) =
      (h, (Slots.next slots i).map fun ((key, val), j) => (key, val, .integer j)))
    {key : SqObject} {found : Option SqObject} (hget : api.get h o key = (h, found))
    (keys : List SqObject) (value : SqObject → Option SqObject) {fuel : Nat}
    (hfuel : (Slots.entries slots).length < fuel)
    (hwalk : ∀ v, (((Slots.entries slots).find? fun e => api.raw e.2.1 = api.raw key).map
      (·.2.2)) = some v →
        Answers (getObjectFromExpression api fuel keys) h [v] h [v] Prod.fst (value v)) :
    Answers (getObjectFromExpression api fuel (key :: keys)) h [o] h [o] Prod.fst
      ((found.bind fun _ => ((Slots.entries slots).find? fun e =>
        api.raw e.2.1 = api.raw key).map (·.2.2)).bind value) := by
  have hslot : Answers (do
      sqPushobject key
      if ← sqGet api 2 then
        sqPushinteger 0
        scanForKey api key (getObjectFromExpression api fuel keys) fuel
      else return .error .invalidParameter) h [o] h [o] Prod.fst
      ((found.bind fun _ => ((Slots.entries slots).find? fun e =>
        api.raw e.2.1 = api.raw key).map (·.2.2)).bind value) := by
    refine (gives_sqPushobject key).bind_answers ?_
    cases found with
    | none => exact (gives_sqGet_none api rfl hget).bind_answers (answers_error (by decide))
    | some fv =>
      refine (gives_sqGet api rfl hget).bind_answers ?_
      rw [if_pos rfl]
      exact (gives_sqPushobject _).bind_answers
        (answers_scanForKey api hnext (Slots.walk_entries slots) hfuel hwalk)
  unfold getObjectFromExpression
  refine (gives_sqGettype rfl).bind_answers ?_
  rcases ho with ho | ho
  · rw [ho]
    exact hslot
  · rw [ho]
    exact hslot

/-- One selection in an array. -/
theorem answers_select_element {a : Nat} {key : SqObject} {found : Option SqObject}
    (hget : api.get h (.array a) key = (h, found)) (keys : List SqObject)
    (value : SqObject → Option SqObject) {fuel : Nat}
    (hwalk : ∀ v, found = some v →
      Answers (getObjectFromExpression api fuel keys) h [v] h [v] Prod.fst (value v)) :
    Answers (getObjectFromExpression api fuel (key :: keys)) h [.array a] h [.array a] Prod.fst
      ((if key.isNumeric then found else none).bind value) := by
  have hindex : ∃ n, Gives (sqGetinteger api 1) h [key, .array a] n h [key, .array a] := by
    cases key <;> exact ⟨_, (gives_sqGetstackobj rfl).bind (gives_pure _)⟩
  obtain ⟨n, hindex⟩ := hindex
  unfold getObjectFromExpression
  refine (gives_sqGettype rfl).bind_answers ?_
  dsimp only [SqObject.type]
  by_cases hnum : key.isNumeric = true
  · rw [hnum, if_neg (by simp), if_pos rfl]
    refine (gives_sqPushobject key).bind_answers (hindex.bind_answers ?_)
    cases found with
    | none => exact (gives_sqGet_none api rfl hget).bind_answers (answers_error (by decide))
    | some v =>
      refine (gives_sqGet api rfl hget).bind_answers ?_
      rw [if_pos rfl]
      refine ((hwalk v rfl).frame [.array a]).bind_keep (fun b => ?_) fun rc => ?_
      · exact ⟨(b.1, UInt32.ofInt (n.getD 0) :: b.2), rfl, gives_sqPoptop.bind (gives_pure _)⟩
      · exact gives_sqPoptop.bind (gives_pure _)
  · rw [if_neg hnum, if_pos (by simpa using hnum)]
    exact answers_error (by decide)

/-- A bound for the value that is found, if there is one. -/
theorem exists_bound {found : Option SqObject} {P : Nat → SqObject → Prop}
    (h : ∀ v, found = some v → ∃ N, ∀ fuel, N ≤ fuel → P fuel v) :
    ∃ N, ∀ fuel, N ≤ fuel → ∀ v, found = some v → P fuel v := by
  cases found with
  | none => exact ⟨0, fun fuel _ v hv => nomatch hv⟩
  | some v =>
    obtain ⟨N, hN⟩ := h v rfl
    refine ⟨N, fun fuel hfuel v' hv' => ?_⟩
    obtain rfl := Option.some.inj hv'
    exact hN fuel hfuel

variable {api} {sc : Scene} {Here : H → Prop} (hst : Stage api sc Here)

include hst

/-- The walk along an expression selects key by key. -/
theorem answers_getObjectFromExpression (hh : Here h) (keys : List SqObject) {o : SqObject}
    (ho : sc.live o) :
    ∃ N, ∀ fuel, N ≤ fuel → Answers (getObjectFromExpression api fuel keys) h [o] h [o] Prod.fst
      (keys.foldlM (selects api sc) o) := by
  induction keys generalizing o with
  | nil => exact ⟨0, fun fuel _ => ⟨(o, []), rfl, (gives_sqGetstackobj rfl).bind (gives_pure _)⟩⟩
  | cons key keys ih =>
    rw [List.foldlM_cons]
    have hget := hst.get h hh o ho key
    have hslot : o.type = .table ∨ o.type = .instance_ →
        ∃ N, ∀ fuel, N ≤ fuel →
          Answers (getObjectFromExpression api fuel (key :: keys)) h [o] h [o] Prod.fst
            (((sc.lookup o key).bind fun _ => ((Slots.entries (sc.slots o)).find? fun e =>
              api.raw e.2.1 = api.raw key).map (·.2.2)).bind fun v =>
                keys.foldlM (selects api sc) v) := by
      intro htype
      have hlive : ∀ v, (((Slots.entries (sc.slots o)).find? fun e =>
          api.raw e.2.1 = api.raw key).map (·.2.2)) = some v → sc.live v := by
        intro v hv
        obtain ⟨e, hfound, rfl⟩ := Option.map_eq_some_iff.mp hv
        obtain ⟨j, hnext⟩ := Slots.next_of_mem_entries (List.mem_of_find?_eq_some hfound)
        exact hst.liveSlot o ho e.2 (Slots.mem_of_next hnext)
      obtain ⟨N, hN⟩ := exists_bound fun v hv => ih (hlive v hv)
      refine ⟨max N ((Slots.entries (sc.slots o)).length + 1), fun fuel hfuel => ?_⟩
      exact answers_select_slot api htype (hst.next h hh o ho) hget keys _ (by omega)
        (hN fuel (by omega))
    cases o with
    | table a => exact hslot (.inl rfl)
    | instance_ a => exact hslot (.inr rfl)
    | array a =>
      obtain ⟨N, hN⟩ := exists_bound fun v hv => ih (hst.liveLookup _ ho key v hv)
      exact ⟨N, fun fuel hfuel => answers_select_element api hget keys _ (hN fuel hfuel)⟩
    | _ =>
      refine ⟨0, fun fuel _ => ?_⟩
      unfold getObjectFromExpression
      refine (gives_sqGettype rfl).bind_answers ?_
      exact answers_error (show ReturnCode.invalidParameter ≠ .success by decide)

/-! ## A root identifier -/

theorem answers_evaluateGlobal (hh : Here h) (keys : List SqObject) :
    ∃ N, ∀ fuel, N ≤ fuel → Answers (evaluateGlobal api fuel keys) h [] h []
      ExpressionNodeState.resolvedValue (keys.foldlM (selects api sc) (.table sc.root)) := by
  obtain ⟨N, hN⟩ := answers_getObjectFromExpression hst hh keys hst.liveRoot
  refine ⟨N, fun fuel hfuel => ?_⟩
  have hroot : Gives (sqPushroottable api) h [] () h [.table (api.roottable h)] :=
    gives_sqPushroottable api
  rw [hst.roottable h hh] at hroot
  refine hroot.bind_answers ((hN fuel hfuel).bind_keep (fun b => ?_) fun rc => ?_)
  · exact ⟨⟨b.2, b.1, .global⟩, rfl, gives_sqPoptop.bind (gives_pure _)⟩
  · exact gives_sqPoptop.bind (gives_pure _)

/-- The locals from `nSeq` on, one by one. -/
theorem gives_getlocal (hh : Here h) (top : List SqObject) (frame nSeq : Nat) :
    ((sc.locals frame).drop nSeq = [] ∧
      Gives (sqGetlocal api frame nSeq) h top none h top) ∨
    ∃ l, (sc.locals frame).drop nSeq = l :: (sc.locals frame).drop (nSeq + 1) ∧
      Gives (sqGetlocal api frame nSeq) h top (some l.1) h (l.2 :: top) := by
  have hlocal : Gives (sqGetlocal api frame nSeq) h top ((api.getlocal h frame nSeq).map (·.1)) h
    (((api.getlocal h frame nSeq).map (·.2)).toList ++ top) := gives_sqGetlocal api frame nSeq
  rw [hst.getlocal h hh] at hlocal
  cases hl : (sc.locals frame)[nSeq]? with
  | none =>
    rw [hl] at hlocal
    exact .inl ⟨List.drop_eq_nil_of_le (List.getElem?_eq_none_iff.mp hl), hlocal⟩
  | some l =>
    rw [hl] at hlocal
    obtain ⟨hlt, rfl⟩ := List.getElem?_eq_some_iff.mp hl
    exact .inr ⟨_, List.drop_eq_getElem_cons hlt, hlocal⟩

theorem gives_findLocal_none (hh : Here h) (top : List SqObject) (frame : Nat) (text : Bytes)
    (fuel : Nat) (keys : List SqObject) (nSeq : Nat) {n : Nat}
    (hn : ((sc.locals frame).drop nSeq).length < n)
    (hfind : ((sc.locals frame).drop nSeq).find? (cstr ·.1 = text) = none) :
    Gives (findLocal api fuel frame text keys n nSeq) h top none h top := by
  induction n generalizing nSeq with
  | zero => cases hn
  | succ n ih =>
    unfold findLocal
    rcases gives_getlocal hst hh top frame nSeq with ⟨-, hlocal⟩ | ⟨l, hdrop, hlocal⟩
    · exact hlocal.bind (gives_pure _)
    · rw [hdrop] at hn hfind
      have hname : ¬cstr l.1 = text := by
        intro heq
        rw [List.find?_cons_of_pos (by simpa using heq)] at hfind
        cases hfind
      rw [List.find?_cons_of_neg (by simpa using hname)] at hfind
      refine hlocal.bind ?_
      dsimp only
      rw [if_neg hname]
      exact gives_sqPoptop.bind (ih (nSeq + 1) (by simpa using hn) hfind)

/-- The local is put in the temporary table at `t`, and the expression is walked
from there. -/
theorem gives_findLocal_some (hh : Here h) (frame : Nat) (text : Bytes) {val : SqObject}
    (fuel : Nat) (keys : List SqObject) (t nSeq : Nat) {n : Nat}
    (hn : ((sc.locals frame).drop nSeq).length < n)
    (hfind : (((sc.locals frame).drop nSeq).find? (cstr ·.1 = text)).map (·.2) = some val)
    (res : Except ReturnCode (SqObject × List UInt32))
    (hwalk : Gives (getObjectFromExpression api fuel keys) (api.rawset h t (.string text) val)
      [.table t] res (api.rawset h t (.string text) val) [.table t]) :
    ∃ i, Gives (findLocal api fuel frame text keys n nSeq) h [.table t] (some (i, res))
      (api.rawset h t (.string text) val) [.table t] := by
  induction n generalizing nSeq with
  | zero => cases hn
  | succ n ih =>
    unfold findLocal
    rcases gives_getlocal hst hh [.table t] frame nSeq with ⟨hdrop, -⟩ | ⟨l, hdrop, hlocal⟩
    · rw [hdrop] at hfind
      cases hfind
    · rw [hdrop] at hn hfind
      by_cases hname : cstr l.1 = text
      · rw [List.find?_cons_of_pos (by simpa using hname)] at hfind
        obtain rfl : l.2 = val := Option.some.inj hfind
        refine ⟨nSeq, hlocal.bind ?_⟩
        dsimp only
        rw [if_pos hname]
        exact (gives_sqPushobject _).bind ((gives_sqPush rfl).bind
          ((gives_sqRawset api rfl (by simp)).bind (gives_sqPoptop.bind
            (hwalk.bind (gives_pure _)))))
      · rw [List.find?_cons_of_neg (by simpa using hname)] at hfind
        obtain ⟨i, hrec⟩ := ih (nSeq + 1) (by simpa using hn) hfind
        refine ⟨i, hlocal.bind ?_⟩
        dsimp only
        rw [if_neg hname]
        exact gives_sqPoptop.bind hrec

/-- The temporary table leads to the local. -/
theorem answers_oneSlot {t : Nat} {text : Bytes} {val : SqObject} (hh : Here h)
    (hlive : sc.live val) (hone : OneSlot api h t (.string text) val) (keys : List SqObject) :
    ∃ N, ∀ fuel, N ≤ fuel → Answers (getObjectFromExpression api fuel (.string text :: keys)) h
      [.table t] h [.table t] Prod.fst (keys.foldlM (selects api sc) val) := by
  obtain ⟨N, hN⟩ := answers_getObjectFromExpression hst hh keys hlive
  obtain ⟨slots, hslots, hnext⟩ := hone.next
  have hfind : ((Slots.entries slots).find? fun e => api.raw e.2.1 =
      api.raw (.string text)).map (·.2.2) = some val := by
    have hvalues := Slots.entries_values slots
    rw [hslots] at hvalues
    obtain ⟨i, hentries⟩ : ∃ i, Slots.entries slots = [(i, .string text, val)] := by
      rcases hes : Slots.entries slots with _ | ⟨e, _ | ⟨e', es⟩⟩
      · rw [hes] at hvalues
        cases hvalues
      · rw [hes] at hvalues
        have he : e.2 = (.string text, val) := List.singleton_inj.mp hvalues
        exact ⟨e.1, by rw [← he]⟩
      · rw [hes] at hvalues
        simp at hvalues
    rw [hentries, List.find?_cons_of_pos (by simp)]
    rfl
  refine ⟨max N ((Slots.entries slots).length + 1), fun fuel hfuel => ?_⟩
  have hselect := answers_select_slot api (.inl rfl) hnext hone.get keys
    (fun v => keys.foldlM (selects api sc) v) (show (Slots.entries slots).length < fuel by omega)
    (by
      rw [hfind]
      intro v hv
      obtain rfl := Option.some.inj hv
      exact hN fuel (by omega))
  rw [hfind] at hselect
  exact hselect

/-- A root identifier and the keys of its suffixes. -/
theorem answers_evaluateIdentifier (hh : Here h) (stackFrame : Int32) (text : Bytes)
    (keys : List SqObject) :
    ∃ h', Here h' ∧ ∃ N, ∀ fuel, N ≤ fuel →
      Answers (evaluateIdentifier api fuel stackFrame text (.string text :: keys)) h [] h' []
        ExpressionNodeState.resolvedValue
        ((rootRead api sc stackFrame text).bind fun o => keys.foldlM (selects api sc) o) := by
  unfold rootRead firstLocal
  by_cases hframe : 0 ≤ stackFrame.toInt
  · have hnew := hst.newtable h hh
    cases hfind : ((sc.locals stackFrame.toInt.toNat).find? (cstr ·.1 = text)).map (·.2) with
    | some val =>
      obtain ⟨l, hl, rfl⟩ := Option.map_eq_some_iff.mp hfind
      have hlive := hst.liveLocal _ l (List.mem_of_find?_eq_some hl)
      obtain ⟨hhere, hone⟩ := hst.rawset h hh text l.2 hlive
      obtain ⟨N, hN⟩ := answers_oneSlot hst hhere hlive hone keys
      refine ⟨_, hhere, max N ((sc.locals stackFrame.toInt.toNat).length + 1), fun fuel hfuel => ?_⟩
      unfold evaluateIdentifier
      rw [if_pos hframe, if_pos hframe, Option.some_or, Option.bind_some]
      refine (gives_sqNewtable api).bind_answers ?_
      have hlocal := fun res hres => gives_findLocal_some (n := fuel) hst hnew
        stackFrame.toInt.toNat text fuel (.string text :: keys) (api.newtable h).2 0
        (by rw [List.drop_zero]; omega) (by rw [List.drop_zero]; exact hfind) res hres
      have hwalk := hN fuel (by omega)
      cases hr : keys.foldlM (selects api sc) l.2 with
      | some v =>
        rw [hr] at hwalk
        obtain ⟨b, hb, hgives⟩ := hwalk
        obtain ⟨i, hi⟩ := hlocal _ hgives
        exact ⟨⟨UInt32.ofNat i :: b.2.tail, b.1, .local_⟩, hb,
          hi.bind (gives_sqPoptop.bind (gives_pure _))⟩
      | none =>
        rw [hr] at hwalk
        obtain ⟨rc, hrc, hgives⟩ := hwalk
        obtain ⟨i, hi⟩ := hlocal _ hgives
        exact ⟨rc, hrc, hi.bind (gives_sqPoptop.bind (gives_pure _))⟩
    | none =>
      obtain ⟨N, hN⟩ := answers_evaluateGlobal hst hnew (.string text :: keys)
      refine ⟨_, hnew, max N ((sc.locals stackFrame.toInt.toNat).length + 1), fun fuel hfuel => ?_⟩
      unfold evaluateIdentifier
      rw [if_pos hframe, if_pos hframe, Option.none_or]
      have hsearch := gives_findLocal_none (n := fuel) hst hnew [.table (api.newtable h).2]
        stackFrame.toInt.toNat text fuel (.string text :: keys) 0
        (by rw [List.drop_zero]; omega)
        (by rw [List.drop_zero]; exact Option.map_eq_none_iff.mp hfind)
      exact (gives_sqNewtable api).bind_answers (hsearch.bind_answers
        (gives_sqPoptop.bind_answers (hN fuel (by omega))))
  · obtain ⟨N, hN⟩ := answers_evaluateGlobal hst hh (.string text :: keys)
    refine ⟨h, hh, N, fun fuel hfuel => ?_⟩
    unfold evaluateIdentifier
    rw [if_neg hframe, if_neg hframe, Option.none_or]
    exact hN fuel hfuel

/-! ## A chain -/

omit hst in
/-- The accessor expressions of a chain with their places. -/
def accessors (id : NodeId) (node : ExpressionNode) : List (NodeId × ExpressionNode) :=
  unresolved (fun _ => none) id node

omit hst in
theorem accessors_node (id : NodeId) (type : ExpressionNodeType) (text : Bytes)
    (accessor next : ExpressionNode) : accessors id (.node type text accessor next) =
      (if accessor = .null then [] else [(.accessor :: id, accessor)]) ++
        accessors (.next :: id) next := by
  unfold accessors
  rw [unresolved]
  by_cases hnull : accessor = .null <;> simp [hnull]

/-- Every accessor expression of the chain has its value on record. -/
def Recorded (api : SqApi H) (sc : Scene) (stackFrame : Int32) (results : ExpressionResults)
    (id : NodeId) (node : ExpressionNode) : Prop :=
  ∀ x ∈ accessors id node, ∃ state, results x.1 = some state ∧
    reads api sc stackFrame x.2 = some state.resolvedValue

omit hst in
theorem gives_literalObject (type : ExpressionNodeType) (text : Bytes) :
    Gives (literalObject type text) h top
      (match literal type text with
        | some o => .ok o
        | none => .error .invalidParameter) h top := by
  unfold literalObject literal
  split
  · split
    · exact gives_pure _
    · exact (gives_sqPushobject _).bind ((gives_sqGetstackobj rfl).bind
        (gives_sqPoptop.bind (gives_pure _)))
  · exact (gives_sqPushobject _).bind ((gives_sqGetstackobj rfl).bind
      (gives_sqPoptop.bind (gives_pure _)))

omit hst in
/-- The keys of a chain as VM objects; a literal out of range is an error. -/
theorem gives_sqNodes {stackFrame : Int32} {results : ExpressionResults}
    (type : ExpressionNodeType) (text : Bytes) {id : NodeId} {node : ExpressionNode}
    (hr : Recorded api sc stackFrame results id node) (top : List SqObject) :
    Gives (sqNodes results type text id node) h top
      (match keysRead api sc stackFrame type text node with
        | some keys => .ok keys
        | none => .error .invalidParameter) h top := by
  induction node generalizing id with
  | null => exact gives_pure _
  | node type' text' accessor next _ ih =>
    have hrest : Recorded api sc stackFrame results (.next :: id) next := fun x hx => hr x (by
      rw [accessors_node]
      exact List.mem_append_right _ hx)
    have hnext := ih hrest
    have hobject : Gives (sqNodeObject results type text id accessor) h top
        (match (if accessor = .null then literal type text
            else reads api sc stackFrame accessor) with
          | some o => .ok o
          | none => .error .invalidParameter) h top := by
      unfold sqNodeObject
      by_cases hnull : accessor = .null
      · rw [if_neg (not_not.mpr hnull), if_pos hnull]
        exact gives_literalObject type text
      · obtain ⟨state, hstate, hreads⟩ := hr (.accessor :: id, accessor) (by
          rw [accessors_node, if_neg hnull]
          exact List.mem_append_left _ List.mem_cons_self)
        rw [if_pos hnull, if_neg hnull, hreads, hstate]
        exact gives_pure _
    unfold sqNodes keysRead
    refine hobject.bind ?_
    cases (if accessor = .null then literal type text else reads api sc stackFrame accessor) with
    | none => exact gives_pure _
    | some key =>
      refine hnext.bind ?_
      cases keysRead api sc stackFrame type text next <;> exact gives_pure _

/-- One node whose accessor expressions are on record. -/
theorem answers_evaluateNode (hh : Here h) (stackFrame : Int32) (type : ExpressionNodeType)
    (text : Bytes) (next : ExpressionNode) :
    ∃ h', Here h' ∧ ∃ N, ∀ fuel, N ≤ fuel → ∀ results id,
      Recorded api sc stackFrame results id (.node type text .null next) →
      Answers (evaluateNode api fuel stackFrame results id (.node type text .null next)) h [] h' []
        ExpressionNodeState.resolvedValue
        (reads api sc stackFrame (.node type text .null next)) := by
  have hchain : keysRead api sc stackFrame type text (.node type text .null next) =
      (literal type text).bind fun key =>
        (keysRead api sc stackFrame type text next).map (key :: ·) := by
    rw [keysRead, if_pos rfl]
  have herror : keysRead api sc stackFrame type text (.node type text .null next) = none →
      ∃ h', Here h' ∧ ∃ N, ∀ fuel, N ≤ fuel → ∀ results id,
        Recorded api sc stackFrame results id (.node type text .null next) →
        Answers (evaluateNode api fuel stackFrame results id (.node type text .null next)) h [] h'
          [] ExpressionNodeState.resolvedValue none := by
    intro hnone
    refine ⟨h, hh, 0, fun fuel _ results id hr => ?_⟩
    have hnodes := gives_sqNodes (h := h) type text hr
    rw [hnone] at hnodes
    exact ⟨.invalidParameter, by decide, (hnodes []).bind (gives_pure _)⟩
  rw [reads]
  cases hliteral : literal type text with
  | none => exact herror (by rw [hchain, hliteral]; rfl)
  | some first =>
    cases hnext : keysRead api sc stackFrame type text next with
    | none => exact herror (by rw [hchain, hliteral, hnext]; rfl)
    | some keys =>
      have hkeys : keysRead api sc stackFrame type text (.node type text .null next) =
          some (first :: keys) := by rw [hchain, hliteral, hnext]; rfl
      rw [Option.bind_some, Option.bind_some]
      by_cases htype : type = .identifier
      · obtain rfl : first = .string text := by
          rw [literal, if_neg (by simp [htype])] at hliteral
          exact (Option.some.inj hliteral).symm
        obtain ⟨h', hh', N, hN⟩ := answers_evaluateIdentifier hst hh stackFrame text keys
        refine ⟨h', hh', N, fun fuel hfuel results id hr => ?_⟩
        have hnodes := gives_sqNodes (h := h) type text hr []
        rw [hkeys] at hnodes
        refine hnodes.bind_answers ?_
        dsimp only
        rw [if_pos htype, if_pos htype]
        exact hN fuel hfuel
      · refine ⟨h, hh, 0, fun fuel _ results id hr => ?_⟩
        have hnodes := gives_sqNodes (h := h) type text hr []
        rw [hkeys] at hnodes
        refine hnodes.bind_answers ?_
        dsimp only
        rw [if_neg htype, if_neg htype]
        exact ⟨_, rfl, gives_pure _⟩

end

end Sdb.L4
