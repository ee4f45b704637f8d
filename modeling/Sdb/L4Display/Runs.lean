import Sdb.Core.Exec
import Sdb.Core.Slots
import Sdb.L3Vm.Commands
import Sdb.L3Vm.Heap

/-!
# Runs on the top of the stack

The helpers work on the top of the VM stack and do not look at what lies below.
`Gives m h top a h' top'`: from the objects `top` and the heap `h`, `m` returns
`a` and leaves `top'` and `h'`, whatever lies below; `Throws` is the other way to
end. What `Gives` says of a short top it says of a longer one (`Gives.frame`).

`SlotView` and `ArrayView` are the VM's containers as the helpers meet them:
`sq_next` over the slots of `Core/Slots`.

* `settles_toClassFullName`: `ToClassFullName` gives a name and leaves the stack
  alone, or throws; which of the two does not depend on what lies below.
-/
namespace Sdb.L4

open Sdb.L1 Sdb.L3 Sdb.Exec

section
variable {H : Type} {α β : Type} {h h' h'' : H} {top top' top'' : List SqObject}

def Gives (m : VmM H α) (h : H) (top : List SqObject) (a : α) (h' : H)
    (top' : List SqObject) : Prop :=
  ∀ rest faults, Returns m ⟨top ++ rest, h, faults⟩ a ⟨top' ++ rest, h', faults⟩

def Throws (m : VmM H α) (h : H) (top : List SqObject) : Prop :=
  ∀ rest faults, ∃ e t, m.run ⟨top ++ rest, h, faults⟩ = .error e t

theorem gives_pure (a : α) : Gives (pure a : VmM H α) h top a h top := fun _ _ => rfl

theorem Gives.bind {m : VmM H α} {f : α → VmM H β} {a : α} {b : β}
    (hm : Gives m h top a h' top') (hf : Gives (f a) h' top' b h'' top'') :
    Gives (m >>= f) h top b h'' top'' :=
  fun rest faults => (hm rest faults).bind (hf rest faults)

theorem Gives.run_bind {m : VmM H α} {a : α} (hm : Gives m h top a h' top') (f : α → VmM H β)
    (rest : List SqObject) (faults : List Fault) :
    (m >>= f).run ⟨top ++ rest, h, faults⟩ = (f a).run ⟨top' ++ rest, h', faults⟩ := by
  rw [EStateM.run_bind, show m.run _ = _ from hm rest faults]

theorem Gives.bind_ends {m : VmM H α} {f : α → VmM H β} {a : α} {rest : List SqObject}
    {faults : List Fault} {Q : β → SqVm H → Prop} {E : Exn → SqVm H → Prop}
    (hm : Gives m h top a h' top') (hf : Ends (f a) ⟨top' ++ rest, h', faults⟩ Q E) :
    Ends (m >>= f) ⟨top ++ rest, h, faults⟩ Q E := by
  unfold Ends
  rw [hm.run_bind f]
  exact hf

theorem Gives.bind_throws {m : VmM H α} {f : α → VmM H β} {a : α}
    (hm : Gives m h top a h' top') (hf : Throws (f a) h' top') : Throws (m >>= f) h top := by
  intro rest faults
  obtain ⟨e, t, ht⟩ := hf rest faults
  exact ⟨e, t, by rw [EStateM.run_bind, show m.run _ = _ from hm rest faults]; exact ht⟩

theorem Throws.bind {m : VmM H α} {f : α → VmM H β} (hm : Throws m h top) :
    Throws (m >>= f) h top := by
  intro rest faults
  obtain ⟨e, t, ht⟩ := hm rest faults
  exact ⟨e, t, by rw [EStateM.run_bind, ht]⟩

theorem throws_throw (e : Exn) : Throws (throw e : VmM H α) h top := fun _ _ => ⟨e, _, rfl⟩

theorem Gives.frame {m : VmM H α} {a : α} (hm : Gives m h top a h' top') (more : List SqObject) :
    Gives m h (top ++ more) a h' (top' ++ more) := by
  intro rest faults
  rw [List.append_assoc, List.append_assoc]
  exact hm (more ++ rest) faults

theorem Throws.frame {m : VmM H α} (hm : Throws m h top) (more : List SqObject) :
    Throws m h (top ++ more) := by
  intro rest faults
  rw [List.append_assoc]
  exact hm (more ++ rest) faults

/-! ## The stack operations -/

theorem gives_sqGetstackobj {k : Nat} {o : SqObject} (hk : top[k - 1]? = some o) :
    Gives (sqGetstackobj k) h top o h top := by
  intro rest faults
  have hlt := (List.getElem?_eq_some_iff.mp hk).1
  unfold Returns sqGetstackobj EStateM.run
  dsimp only
  rw [List.getElem?_append_left hlt, hk]

theorem gives_sqGettype {k : Nat} {o : SqObject} (hk : top[k - 1]? = some o) :
    Gives (sqGettype k) h top o.type h top :=
  (gives_sqGetstackobj hk).bind (gives_pure _)

theorem gives_sqPushobject (o : SqObject) : Gives (sqPushobject o) h top () h (o :: top) :=
  fun _ _ => rfl

theorem gives_sqPop (gone : List SqObject) :
    Gives (sqPop gone.length) h (gone ++ top) () h top := by
  intro rest faults
  unfold Returns sqPop EStateM.run
  dsimp only
  rw [if_pos (by simp), List.append_assoc, List.drop_left]

theorem gives_sqPoptop {o : SqObject} : Gives sqPoptop h (o :: top) () h top := gives_sqPop [o]

theorem gives_sqPush {k : Nat} {o : SqObject} (hk : top[k - 1]? = some o) :
    Gives (sqPush k) h top () h (o :: top) :=
  (gives_sqGetstackobj hk).bind (gives_sqPushobject o)

variable (api : SqApi H)

/-- What `sq_getinteger` says of an object. -/
def readInteger : SqObject → Option Int
  | .integer n => some n
  | .float f => some (api.tointeger f)
  | .bool b => some (if b then 1 else 0)
  | _ => none

theorem gives_readInteger {k : Nat} {o : SqObject} (hk : top[k - 1]? = some o) :
    Gives (sqGetinteger api k) h top (readInteger api o) h top := by
  refine (gives_sqGetstackobj hk).bind ?_
  cases o <;> exact gives_pure _

theorem gives_sqGetinteger {k : Nat} {n : Int} (hk : top[k - 1]? = some (.integer n)) :
    Gives (sqGetinteger api k) h top (some n) h top :=
  gives_readInteger api hk

theorem gives_sqGetstring {k : Nat} {o : SqObject} (hk : top[k - 1]? = some o) :
    Gives (sqGetstring k) h top (match o with | .string s => some s | _ => none) h top := by
  refine (gives_sqGetstackobj hk).bind ?_
  cases o <;> exact gives_pure _

theorem gives_get_bind {f : SqVm H → VmM H α} {a : α}
    (hf : ∀ rest faults, Returns (f ⟨top ++ rest, h, faults⟩) ⟨top ++ rest, h, faults⟩ a
      ⟨top' ++ rest, h', faults⟩) : Gives (get >>= f) h top a h' top' := by
  intro rest faults
  have hget : Returns (get : VmM H (SqVm H)) ⟨top ++ rest, h, faults⟩ ⟨top ++ rest, h, faults⟩
    ⟨top ++ rest, h, faults⟩ := rfl
  exact hget.bind (hf rest faults)

theorem gives_sqGetsize {k : Nat} {o : SqObject} (hk : top[k - 1]? = some o) :
    Gives (sqGetsize api k) h top (api.getsize h o) h top :=
  (gives_sqGetstackobj hk).bind (gives_get_bind fun _ _ => rfl)

theorem gives_sqGethash {k : Nat} {o : SqObject} (hk : top[k - 1]? = some o) :
    Gives (sqGethash api k) h top (api.gethash h o) h top :=
  (gives_sqGetstackobj hk).bind (gives_get_bind fun _ _ => rfl)

theorem gives_sqPushAnswer {query : H → SqObject → Option SqObject} {k : Nat} {o : SqObject}
    (hk : top[k - 1]? = some o) :
    Gives (sqPushAnswer query k) h top (query h o).isSome h ((query h o).toList ++ top) := by
  refine (gives_sqGetstackobj hk).bind (gives_get_bind fun rest faults => ?_)
  dsimp only
  cases query h o <;> rfl

theorem gives_sqPushroottable :
    Gives (sqPushroottable api) h top () h (.table (api.roottable h) :: top) :=
  gives_get_bind fun _ _ => rfl

theorem gives_sqGetlocal (level nSeq : Nat) :
    Gives (sqGetlocal api level nSeq) h top ((api.getlocal h level nSeq).map (·.1)) h
      (((api.getlocal h level nSeq).map (·.2)).toList ++ top) := by
  refine gives_get_bind fun rest faults => ?_
  dsimp only
  rcases api.getlocal h level nSeq with _ | ⟨name, value⟩ <;> rfl

theorem gives_sqStackinfos (level : Nat) :
    Gives (sqStackinfos api level) h top (api.stackinfos h level) h top :=
  gives_get_bind fun _ _ => rfl

theorem gives_sqNext {k : Nat} {iter o key val iter' : SqObject}
    (hk : (iter :: top)[k - 1]? = some o)
    (hn : api.advance h o iter = (h', some (key, val, iter'))) :
    Gives (sqNext api k) h (iter :: top) true h' (val :: key :: iter' :: top) := by
  intro rest faults
  have hlt := (List.getElem?_eq_some_iff.mp hk).1
  have hk' : (iter :: (top ++ rest))[k - 1]? = some o := by
    rw [← List.cons_append, List.getElem?_append_left hlt, hk]
  unfold Returns sqNext EStateM.run
  simp only [List.cons_append, hk', hn]

theorem gives_sqNext_none {k : Nat} {iter o : SqObject} (hk : (iter :: top)[k - 1]? = some o)
    (hn : api.advance h o iter = (h', none)) :
    Gives (sqNext api k) h (iter :: top) false h' (iter :: top) := by
  intro rest faults
  have hlt := (List.getElem?_eq_some_iff.mp hk).1
  have hk' : (iter :: (top ++ rest))[k - 1]? = some o := by
    rw [← List.cons_append, List.getElem?_append_left hlt, hk]
  unfold Returns sqNext EStateM.run
  simp only [List.cons_append, hk', hn]

theorem gives_sqGet {k : Nat} {key o val : SqObject} (hk : (key :: top)[k - 1]? = some o)
    (hg : api.get h o key = (h', some val)) :
    Gives (sqGet api k) h (key :: top) true h' (val :: top) := by
  intro rest faults
  have hlt := (List.getElem?_eq_some_iff.mp hk).1
  have hk' : (key :: (top ++ rest))[k - 1]? = some o := by
    rw [← List.cons_append, List.getElem?_append_left hlt, hk]
  unfold Returns sqGet EStateM.run
  simp only [List.cons_append, hk', hg]

theorem gives_sqGet_none {k : Nat} {key o : SqObject} (hk : (key :: top)[k - 1]? = some o)
    (hg : api.get h o key = (h', none)) : Gives (sqGet api k) h (key :: top) false h' top := by
  intro rest faults
  have hlt := (List.getElem?_eq_some_iff.mp hk).1
  have hk' : (key :: (top ++ rest))[k - 1]? = some o := by
    rw [← List.cons_append, List.getElem?_append_left hlt, hk]
  unfold Returns sqGet EStateM.run
  simp only [List.cons_append, hk', hg]

theorem gives_sqSet {k : Nat} {val key o : SqObject} (hk : (val :: key :: top)[k - 1]? = some o)
    (hs : api.set h o key val = (h', true)) :
    Gives (sqSet api k) h (val :: key :: top) true h' top := by
  intro rest faults
  have hlt := (List.getElem?_eq_some_iff.mp hk).1
  have hk' : (val :: key :: (top ++ rest))[k - 1]? = some o := by
    rw [← List.cons_append, ← List.cons_append, List.getElem?_append_left hlt, hk]
  unfold Returns sqSet EStateM.run
  simp only [List.cons_append, hk', hs]

theorem gives_sqSet_false {k : Nat} {val key o : SqObject}
    (hk : (val :: key :: top)[k - 1]? = some o) (hs : api.set h o key val = (h', false)) :
    Gives (sqSet api k) h (val :: key :: top) false h' (val :: key :: top) := by
  intro rest faults
  have hlt := (List.getElem?_eq_some_iff.mp hk).1
  have hk' : (val :: key :: (top ++ rest))[k - 1]? = some o := by
    rw [← List.cons_append, ← List.cons_append, List.getElem?_append_left hlt, hk]
  unfold Returns sqSet EStateM.run
  simp only [List.cons_append, hk', hs]

theorem gives_sqRawset {k t : Nat} {key val : SqObject}
    (hk : (val :: key :: top)[k - 1]? = some (.table t)) (hkey : key ≠ .null) :
    Gives (sqRawset api k) h (val :: key :: top) () (api.rawset h t key val) top := by
  intro rest faults
  have hlt := (List.getElem?_eq_some_iff.mp hk).1
  have hk' : (val :: key :: (top ++ rest))[k - 1]? = some (.table t) := by
    rw [← List.cons_append, ← List.cons_append, List.getElem?_append_left hlt, hk]
  unfold Returns sqRawset EStateM.run
  simp only [List.cons_append, hk', if_neg hkey]

theorem gives_sqNewtable :
    Gives (sqNewtable api) h top () (api.newtable h).1 (.table (api.newtable h).2 :: top) :=
  fun _ _ => rfl

/-! ## Containers -/

/-- A slot with the iterator value before it: the iterator, the key, the value. -/
abbrev Entry := Nat × SqObject × SqObject

/-- `sq_next` over the slots of each object: from iterator value `i` the first
occupied slot at position `i` or after, and the position after it. No `_nexti`
metamethod changes the heap. Positions fit in an `SQInteger`. -/
structure SlotView (api : SqApi H) (h : H)
    (slots : SqObject → List (Option (SqObject × SqObject))) : Prop where
  still : ∀ o iter, (api.advance h o iter).1 = h
  next : ∀ o (i : Nat), (api.advance h o (.integer i)).2 =
    (Slots.next (slots o) i).map fun ((key, val), j) => (key, val, .integer j)
  bounded : ∀ o, (slots o).length < 2 ^ 63

theorem SlotView.next_some {api : SqApi H} {slots : SqObject → List (Option (SqObject × SqObject))}
    (hv : SlotView api h slots) {o key val : SqObject} {i j : Nat}
    (hs : Slots.next (slots o) i = some ((key, val), j)) :
    api.advance h o (.integer i) = (h, some (key, val, .integer j)) :=
  Prod.ext (hv.still o _) ((hv.next o i).trans (by rw [hs]; rfl))

theorem SlotView.next_none {api : SqApi H} {slots : SqObject → List (Option (SqObject × SqObject))}
    (hv : SlotView api h slots) {o : SqObject} {i : Nat}
    (hs : Slots.next (slots o) i = none) : api.advance h o (.integer i) = (h, none) :=
  Prod.ext (hv.still o _) ((hv.next o i).trans (by rw [hs]; rfl))

/-- An array's slots are its elements, and `sq_get` reads them by index. -/
structure ArrayView (api : SqApi H) (h : H)
    (slots : SqObject → List (Option (SqObject × SqObject))) : Prop where
  occupied : ∀ a i, i < (slots (.array a)).length →
    ∃ element, (slots (.array a))[i]? = some (some (.integer i, element)) ∧
      api.get h (.array a) (.integer i) = (h, some element)
  getsize : ∀ a, api.getsize h (.array a) = (slots (.array a)).length

/-! ## Class names -/

/-- `m` returns as `P` says, or throws, whatever lies below `top`. -/
def Settles (m : VmM H α) (h : H) (top : List SqObject) (P : α → List SqObject → Prop) : Prop :=
  (∃ a top', P a top' ∧ Gives m h top a h top') ∨ Throws m h top

theorem Gives.settles {m : VmM H α} {a : α} {P : α → List SqObject → Prop}
    (hm : Gives m h top a h top') (hp : P a top') : Settles m h top P := .inl ⟨a, top', hp, hm⟩

theorem settles_throw (e : Exn) {P : α → List SqObject → Prop} :
    Settles (throw e : VmM H α) h top P := .inr (throws_throw e)

theorem Settles.bind {m : VmM H α} {f : α → VmM H β} {P : α → List SqObject → Prop}
    {Q : β → List SqObject → Prop} (hm : Settles m h top P)
    (hf : ∀ a top', P a top' → Settles (f a) h top' Q) : Settles (m >>= f) h top Q := by
  rcases hm with ⟨a, top', hp, hm⟩ | hm
  · rcases hf a top' hp with ⟨b, top'', hq, hfa⟩ | hfa
    · exact .inl ⟨b, top'', hq, hm.bind hfa⟩
    · exact .inr (hm.bind_throws hfa)
  · exact .inr hm.bind

theorem Gives.bind_settles {m : VmM H α} {f : α → VmM H β} {a : α} {Q : β → List SqObject → Prop}
    (hm : Gives m h top a h top') (hf : Settles (f a) h top' Q) : Settles (m >>= f) h top Q :=
  Settles.bind (P := fun b t => b = a ∧ t = top') (hm.settles ⟨rfl, rfl⟩) (by
    rintro _ _ ⟨rfl, rfl⟩
    exact hf)

theorem Settles.mono {m : VmM H α} {P Q : α → List SqObject → Prop} (hm : Settles m h top P)
    (hpq : ∀ a top', P a top' → Q a top') : Settles m h top Q := by
  rcases hm with ⟨a, top', hp, hm⟩ | hm
  · exact .inl ⟨a, top', hpq a top' hp, hm⟩
  · exact .inr hm

theorem Settles.frame {m : VmM H α} {P : α → List SqObject → Prop} (hm : Settles m h top P)
    (more : List SqObject) :
    Settles m h (top ++ more) fun a t => ∃ top', t = top' ++ more ∧ P a top' := by
  rcases hm with ⟨a, top', hp, hm⟩ | hm
  · exact .inl ⟨a, _, ⟨top', rfl, hp⟩, hm.frame more⟩
  · exact .inr (hm.frame more)

theorem Settles.over {m : VmM H α} {Q : α → Prop}
    (hm : Settles m h top fun a t => t = top' ∧ Q a) (more : List SqObject) :
    Settles m h (top ++ more) fun a t => t = top' ++ more ∧ Q a := by
  refine (hm.frame more).mono fun a t ht => ?_
  obtain ⟨_, rfl, rfl, hq⟩ := ht
  exact ⟨rfl, hq⟩

/-- The stack is left alone. -/
abbrev Keeps (m : VmM H α) (h : H) (top : List SqObject) : Prop :=
  Settles m h top fun _ top' => top' = top

theorem Keeps.frame {m : VmM H α} (hm : Keeps m h top) (more : List SqObject) :
    Keeps m h (top ++ more) := by
  refine (Settles.frame hm more).mono fun a t ht => ?_
  obtain ⟨_, rfl, rfl⟩ := ht
  rfl

theorem keeps_unnamed (what : String) :
    Keeps (do recordFault .unnamedClass; throw (.runtimeError what) : VmM H α) h top :=
  .inr fun _ _ => ⟨.runtimeError what, _, rfl⟩

/-- The iterator moves on. -/
theorem settles_classNamesLoop {rec : Bytes → ClassNames → VmM H ClassNames}
    (hrec : ∀ ns names o, Keeps (rec ns names) h [o]) (ns : Bytes) (a n : Nat)
    (names : ClassNames) (iter : SqObject) :
    Settles (classNamesLoop api rec ns n names) h [iter, .table a] fun _ t =>
      ∃ iter', t = [iter', .table a] := by
  induction n generalizing names iter with
  | zero => exact settles_throw _
  | succ n ih =>
    unfold classNamesLoop
    have hnext : api.advance h (.table a) iter = (h, api.next h (.table a) iter) := rfl
    cases hn : api.next h (.table a) iter with
    | none =>
      rw [hn] at hnext
      exact (gives_sqNext_none api rfl hnext).bind_settles ((gives_pure _).settles ⟨_, rfl⟩)
    | some p =>
      rw [hn] at hnext
      obtain ⟨key, val, iter'⟩ := p
      have hrest : ∀ names, Settles (sqPop 2 >>= fun _ => classNamesLoop api rec ns n names) h
          [val, key, iter', .table a] fun _ t => ∃ iter', t = [iter', .table a] := fun names =>
        (gives_sqPop [val, key]).bind_settles (ih names iter')
      refine (gives_sqNext api rfl hnext).bind_settles ?_
      rw [if_pos rfl]
      refine (gives_sqGettype rfl).bind_settles ?_
      split
      · refine (gives_sqGetstring rfl).bind_settles ?_
        split
        · exact settles_throw _
        · dsimp only
          by_cases hc : val.type = .class_
          · rw [if_pos hc]
            refine (gives_sqGethash api rfl).bind_settles ?_
            split
            · exact (gives_sqPop [val, key]).bind_settles ((gives_pure _).settles ⟨_, rfl⟩)
            · exact hrest _
          · rw [if_neg hc]
            refine ((hrec _ _ val).frame [key, iter', .table a]).bind ?_
            rintro names _ rfl
            exact hrest names
      · exact hrest names

theorem keeps_getClassesFullNameHelper (n : Nat) (ns : Bytes) (names : ClassNames)
    (o : SqObject) : Keeps (getClassesFullNameHelper api n ns names) h [o] := by
  induction n generalizing ns names o with
  | zero => exact settles_throw _
  | succ n ih =>
    unfold getClassesFullNameHelper
    refine (gives_sqGettype rfl).bind_settles ?_
    cases o with
    | table a =>
      refine (gives_sqPushobject .null).bind_settles ?_
      refine (settles_classNamesLoop api ih ns a n names .null).bind ?_
      rintro names _ ⟨iter, rfl⟩
      exact (gives_sqPop [iter]).bind_settles ((gives_pure _).settles rfl)
    | _ => exact keeps_unnamed _

theorem keeps_localsLoop (stackIdx : Nat) (hash : UInt64) (n nSeq : Nat) (names : ClassNames) :
    Keeps (localsLoop api stackIdx hash n nSeq names) h top := by
  induction n generalizing nSeq names with
  | zero => exact settles_throw _
  | succ n ih =>
    unfold localsLoop
    refine (gives_sqGetlocal api stackIdx nSeq).bind_settles ?_
    rcases api.getlocal h stackIdx nSeq with _ | ⟨name, value⟩
    · exact (gives_pure _).settles rfl
    · have hnext : ∀ names, Settles
          (sqPoptop >>= fun _ => localsLoop api stackIdx hash n (nSeq + 1) names) h
          (value :: top) fun _ t => t = top := fun names => gives_sqPoptop.bind_settles (ih _ names)
      refine (gives_sqGettype rfl).bind_settles ?_
      split
      · refine ((keeps_getClassesFullNameHelper api n [] names value).frame top).bind ?_
        rintro names _ rfl
        exact hnext names
      · split
        · refine (gives_sqGethash api rfl).bind_settles ?_
          split
          · exact gives_sqPoptop.bind_settles ((gives_pure _).settles rfl)
          · exact hnext names
        · exact hnext names

theorem keeps_framesLoop (hash : UInt64) (n stackIdx : Nat) (names : ClassNames) :
    Keeps (framesLoop api hash n stackIdx names) h top := by
  induction n generalizing stackIdx names with
  | zero => exact settles_throw _
  | succ n ih =>
    unfold framesLoop
    refine (gives_sqStackinfos api stackIdx).bind_settles ?_
    split
    · refine (keeps_localsLoop api stackIdx hash n 0 names).bind ?_
      rintro ⟨_ | name, names⟩ _ rfl
      · exact ih _ _
      · exact (gives_pure _).settles rfl
    · exact keeps_unnamed _

theorem settles_toClassFullName (fuel : Nat) (c : SqObject) :
    Keeps (toClassFullName api fuel) h [c] := by
  unfold toClassFullName
  refine (gives_sqGettype rfl).bind_settles ?_
  split
  · exact keeps_unnamed _
  · refine (gives_sqGethash api rfl).bind_settles ?_
    refine (gives_sqPushroottable api).bind_settles ?_
    refine ((keeps_getClassesFullNameHelper api fuel [] _ _).frame [c]).bind ?_
    rintro names _ rfl
    refine gives_sqPoptop.bind_settles ?_
    split
    · exact (gives_pure _).settles rfl
    · exact keeps_framesLoop api _ fuel 0 names

/-- A run of `ToClassFullName` that returns shows what it returns anywhere. -/
theorem gives_toClassFullName {fuel : Nat} {c : SqObject} {name : Bytes} {t : SqVm H}
    (hrun : (toClassFullName api fuel).run ⟨[c], h, []⟩ = .ok name t) :
    Gives (toClassFullName api fuel) h [c] name h [c] := by
  rcases settles_toClassFullName (h := h) api fuel c with ⟨a, _, rfl, ha⟩ | hthrow
  · obtain ⟨rfl, -⟩ := (ha [] []).unique hrun
    exact ha
  · obtain ⟨e, u, hu⟩ := hthrow [] []
    rw [List.append_nil, hrun] at hu
    cases hu

end

/-! ## The containers of `Heap` -/

theorem slotView_heapApi {h : Heap} (hb : ∀ x ∈ h.objects, x.slots.length < 2 ^ 63) :
    SlotView heapApi h h.slots where
  still o iter := congrArg Prod.fst (heapApi_advance h o iter)
  next o i := congrArg Prod.snd (heapApi_next h o i)
  bounded o := by
    rcases h.slots_cases o with ho | ⟨x, hx, ho⟩
    · rw [ho]
      decide
    · rw [ho]
      exact hb x hx

theorem arrayView_heapApi (h : Heap) : ArrayView heapApi h h.slots := by
  have hcases : ∀ a, h.slots (.array a) = [] ∨
      ∃ elements, h.slots (.array a) = arraySlots elements := by
    intro a
    unfold Heap.slots
    dsimp only
    split
    · exact .inr ⟨_, rfl⟩
    · exact .inl rfl
  refine ⟨fun a i hi => ?_, fun a => ?_⟩
  · rcases hcases a with ha | ⟨elements, ha⟩
    · rw [ha] at hi
      cases hi
    · have hlt : i < elements.length := by simpa [ha, arraySlots] using hi
      have he : elements[i]? = some elements[i] := List.getElem?_eq_getElem hlt
      refine ⟨elements[i], by simp [ha, arraySlots, he], ?_⟩
      show (h, h.find (.array a) (.integer i)) = _
      rw [Heap.find, ha, find_element he]
      rfl
  · show ((h.slots (.array a)).reduceOption.length : Int) = _
    rcases hcases a with ha | ⟨elements, ha⟩
    · rw [ha]
      rfl
    · rw [ha, reduceOption_arraySlots]
      simp [arraySlots]

end Sdb.L4
