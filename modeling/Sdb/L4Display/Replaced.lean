import Sdb.L4Display.Readings
import Sdb.L4Display.Write

/-!
# A scalar replaced by a scalar

Two heaps that differ in one slot of one container `c`, which holds a scalar in both.
What is rendered without running over `c` is rendered the same in both. The scan for
class names may run over `c`, and passes over scalars.

* `AnswersAlike`: the VM answers alike, the slots of `c` aside;
* `alike_toClassFullName`: a class has the same name in both heaps;
* `readTextBeside`: the text of an object, if `ToString` does not run over `c`;
* `legible_replaced`, `showable_replaced`: what has a text or a value beside `c` has it in
  both heaps.
-/
namespace Sdb.L4

open Sdb.L1 Sdb.L3 Sdb.Exec

section
variable {H : Type} (api : SqApi H) (c : SqObject)

/-- `h'` answers like `h`, the slots of `c` aside. -/
structure AnswersAlike (h h' : H) : Prop where
  advance : ∀ o iter, o ≠ c → (api.advance h' o iter).2 = (api.advance h o iter).2
  getsize : api.getsize h' = api.getsize h
  getclass : api.getclass h' = api.getclass h
  getclosurename : api.getclosurename h' = api.getclosurename h
  getclosureinfo : api.getclosureinfo h' = api.getclosureinfo h
  gethash : api.gethash h' = api.gethash h
  roottable : api.roottable h' = api.roottable h
  getlocal : api.getlocal h' = api.getlocal h
  stackinfos : api.stackinfos h' = api.stackinfos h

/-- What `sq_next` answers in the two heaps: a slot of one key, with one value or with
two scalars. -/
inductive SameStep : Option (SqObject × SqObject × SqObject) →
    Option (SqObject × SqObject × SqObject) → Prop where
  | ended : SameStep none none
  | same (key val iter : SqObject) : SameStep (some (key, val, iter)) (some (key, val, iter))
  | replaced (key iter : SqObject) {val new : SqObject} (hval : Scalar val) (hnew : Scalar new) :
      SameStep (some (key, val, iter)) (some (key, new, iter))

/-- An iterator that an iteration starts from or comes to. -/
def Position (iter : SqObject) : Prop := iter = .null ∨ ∃ i : Nat, iter = .integer i

/-- `h'` is `h` with scalars of `c` replaced. No iteration changes either heap. -/
structure Replaced (h h' : H) : Prop extends AnswersAlike api c h h' where
  still : Still api h
  still' : Still api h'
  step : ∀ {a iter}, SqObject.table a = c → Position iter →
    SameStep (api.next h (.table a) iter) (api.next h' (.table a) iter)
  position : ∀ {a iter key val iter'}, SqObject.table a = c → Position iter →
    api.next h (.table a) iter = some (key, val, iter') → Position iter'

/-! ## Computations that do the same in both heaps -/

section
variable {α β : Type} {h h' : H} {top top' : List SqObject}

/-- `m` returns the same in both heaps, or throws in both. -/
def Alike (m : VmM H α) (h h' : H) (top : List SqObject) (P : α → List SqObject → Prop) : Prop :=
  (∃ a top', P a top' ∧ Gives m h top a h top' ∧ Gives m h' top a h' top') ∨
    (Throws m h top ∧ Throws m h' top)

theorem Gives.alike {m : VmM H α} {a : α} {P : α → List SqObject → Prop}
    (hg : Gives m h top a h top') (hg' : Gives m h' top a h' top') (hp : P a top') :
    Alike m h h' top P := .inl ⟨a, top', hp, hg, hg'⟩

theorem alike_pure {a : α} {P : α → List SqObject → Prop} (hp : P a top) :
    Alike (pure a : VmM H α) h h' top P := (gives_pure a).alike (gives_pure a) hp

theorem alike_throw (e : Exn) {P : α → List SqObject → Prop} :
    Alike (throw e : VmM H α) h h' top P := .inr ⟨throws_throw e, throws_throw e⟩

theorem alike_unnamed (what : String) {P : α → List SqObject → Prop} :
    Alike (do recordFault .unnamedClass; throw (.runtimeError what) : VmM H α) h h' top P :=
  .inr ⟨fun _ _ => ⟨.runtimeError what, _, rfl⟩, fun _ _ => ⟨.runtimeError what, _, rfl⟩⟩

theorem Alike.bind {m : VmM H α} {f : α → VmM H β} {P : α → List SqObject → Prop}
    {Q : β → List SqObject → Prop} (hm : Alike m h h' top P)
    (hf : ∀ a t, P a t → Alike (f a) h h' t Q) : Alike (m >>= f) h h' top Q := by
  rcases hm with ⟨a, t, hp, hg, hg'⟩ | ⟨hthrow, hthrow'⟩
  · rcases hf a t hp with ⟨b, u, hq, hf, hf'⟩ | ⟨hf, hf'⟩
    · exact .inl ⟨b, u, hq, hg.bind hf, hg'.bind hf'⟩
    · exact .inr ⟨hg.bind_throws hf, hg'.bind_throws hf'⟩
  · exact .inr ⟨hthrow.bind, hthrow'.bind⟩

/-- A step that returns the same wherever it is taken. -/
theorem Gives.bind_alike {m : VmM H α} {f : α → VmM H β} {a : α} {Q : β → List SqObject → Prop}
    (hg : ∀ h, Gives m h top a h top') (hf : Alike (f a) h h' top' Q) :
    Alike (m >>= f) h h' top Q :=
  Alike.bind (P := fun b t => b = a ∧ t = top') ((hg h).alike (hg h') ⟨rfl, rfl⟩) fun _ _ hp => by
    obtain ⟨rfl, rfl⟩ := hp
    exact hf

theorem Alike.frame {m : VmM H α} (hm : Alike m h h' top fun _ t => t = top')
    (more : List SqObject) : Alike m h h' (top ++ more) fun _ t => t = top' ++ more := by
  rcases hm with ⟨a, _, rfl, hg, hg'⟩ | ⟨hthrow, hthrow'⟩
  · exact .inl ⟨a, _, rfl, hg.frame more, hg'.frame more⟩
  · exact .inr ⟨hthrow.frame more, hthrow'.frame more⟩

theorem Alike.of_runs {m m' : VmM H α} {P : α → List SqObject → Prop}
    (hrun : ∀ rest faults, m.run ⟨top ++ rest, h, faults⟩ = m'.run ⟨top' ++ rest, h, faults⟩)
    (hrun' : ∀ rest faults, m.run ⟨top ++ rest, h', faults⟩ = m'.run ⟨top' ++ rest, h', faults⟩)
    (hm : Alike m' h h' top' P) : Alike m h h' top P := by
  rcases hm with ⟨a, t, hp, hg, hg'⟩ | ⟨hthrow, hthrow'⟩
  · exact .inl ⟨a, t, hp, fun rest faults => (hrun rest faults).trans (hg rest faults),
      fun rest faults => (hrun' rest faults).trans (hg' rest faults)⟩
  · refine .inr ⟨fun rest faults => ?_, fun rest faults => ?_⟩
    · rw [hrun]
      exact hthrow rest faults
    · rw [hrun']
      exact hthrow' rest faults

end

/-! ## Class names -/

/-- The loop passes over a slot that holds neither a table nor a class. -/
theorem run_classNamesLoop_skip {h : H} {rec : Bytes → ClassNames → VmM H ClassNames} {ns : Bytes}
    {n a : Nat} {names : ClassNames} {iter key val iter' : SqObject}
    (hnext : api.advance h (.table a) iter = (h, some (key, val, iter')))
    (hval : ¬ (val.type = .table ∨ val.type = .class_)) (rest : List SqObject)
    (faults : List Fault) :
    (classNamesLoop api rec ns (n + 1) names).run ⟨[iter, .table a] ++ rest, h, faults⟩ =
      (classNamesLoop api rec ns n names).run ⟨[iter', .table a] ++ rest, h, faults⟩ := by
  have hpop : Gives (sqPop 2) h [val, key, iter', .table a] () h [iter', .table a] :=
    gives_sqPop [val, key]
  rw [classNamesLoop,
    (gives_sqNext api rfl hnext : Gives _ _ [iter, .table a] _ _ _).run_bind, if_pos rfl,
    (gives_sqGettype rfl : Gives _ _ [val, key, iter', .table a] _ _ _).run_bind, if_neg hval]
  exact hpop.run_bind _ rest faults

theorem Scalar.no_scan {val : SqObject} (hs : Scalar val) :
    ¬ (val.type = .table ∨ val.type = .class_) := by
  cases val <;> first | exact hs.elim | simp [SqObject.type]

section
variable {api c} {h h' : H} {top : List SqObject} (hr : Replaced api c h h')

include hr

/-- A step of the iteration over a table. -/
theorem Replaced.table_step {a : Nat} {iter : SqObject}
    (hiter : SqObject.table a = c → Position iter) :
    SameStep (api.next h (.table a) iter) (api.next h' (.table a) iter) := by
  by_cases heq : SqObject.table a = c
  · exact hr.step heq (hiter heq)
  · have hnext : api.next h' (.table a) iter = api.next h (.table a) iter :=
      hr.advance (.table a) iter heq
    rw [hnext]
    rcases api.next h (.table a) iter with _ | ⟨key, val, iter'⟩
    · exact .ended
    · exact .same key val iter'

theorem alike_classNamesLoop {rec : Bytes → ClassNames → VmM H ClassNames}
    (hrec : ∀ ns names a, Alike (rec ns names) h h' [.table a] fun _ t => t = [.table a])
    (ns : Bytes) (a n : Nat) (names : ClassNames) {iter : SqObject}
    (hiter : SqObject.table a = c → Position iter) :
    Alike (classNamesLoop api rec ns n names) h h' [iter, .table a] fun _ t =>
      ∃ iter', t = [iter', .table a] := by
  induction n generalizing names iter with
  | zero => exact alike_throw _
  | succ n ih =>
    have hstep := hr.table_step hiter
    have hadvance : api.advance h (.table a) iter = (h, api.next h (.table a) iter) := rfl
    have hadvance' : api.advance h' (.table a) iter = (h', api.next h' (.table a) iter) := rfl
    have hpos : ∀ {key val iter'}, api.next h (.table a) iter = some (key, val, iter') →
        SqObject.table a = c → Position iter' := by
      intro key val iter' hnext heq
      exact hr.position heq (hiter heq) hnext
    generalize hn : api.next h (.table a) iter = found at hstep hadvance hpos
    generalize api.next h' (.table a) iter = found' at hstep hadvance'
    cases hstep with
    | ended =>
      unfold classNamesLoop
      refine Alike.bind (P := fun b t => b = false ∧ t = [iter, .table a])
        ((gives_sqNext_none api rfl hadvance).alike (gives_sqNext_none api rfl hadvance')
          ⟨rfl, rfl⟩) ?_
      rintro _ _ ⟨rfl, rfl⟩
      exact alike_pure ⟨iter, rfl⟩
    | replaced key iter' hval hnew =>
      exact Alike.of_runs (run_classNamesLoop_skip api hadvance hval.no_scan)
        (run_classNamesLoop_skip api hadvance' hnew.no_scan) (ih names (hpos rfl))
    | same key val iter' =>
      have hrest : ∀ names, Alike (sqPop 2 >>= fun _ => classNamesLoop api rec ns n names) h h'
          [val, key, iter', .table a] fun _ t => ∃ iter', t = [iter', .table a] := fun names =>
        Gives.bind_alike (fun h => gives_sqPop [val, key]) (ih names (hpos rfl))
      unfold classNamesLoop
      refine Alike.bind (P := fun b t => b = true ∧ t = [val, key, iter', .table a])
        ((gives_sqNext api rfl hadvance).alike (gives_sqNext api rfl hadvance') ⟨rfl, rfl⟩) ?_
      rintro _ _ ⟨rfl, rfl⟩
      rw [if_pos rfl]
      refine Gives.bind_alike (fun h => gives_sqGettype (o := val) rfl) ?_
      split
      · rename_i htype
        have hstring : ∀ h : H, Gives (sqGetstring 2) h [val, key, iter', .table a] _ h
          [val, key, iter', .table a] := fun h => gives_sqGetstring (o := key) rfl
        apply Gives.bind_alike hstring
        split
        · exact alike_throw _
        · dsimp only
          by_cases hclass : val.type = .class_
          · rw [if_pos hclass]
            refine Alike.bind (P := fun b t => t = [val, key, iter', .table a])
              ((gives_sqGethash api rfl).alike ?_ rfl) ?_
            · rw [← hr.gethash]
              exact gives_sqGethash api rfl
            · rintro hash _ rfl
              split
              · exact Gives.bind_alike (fun h => gives_sqPop [val, key]) (alike_pure ⟨_, rfl⟩)
              · exact hrest _
          · rw [if_neg hclass]
            obtain ⟨b, rfl⟩ : ∃ b, val = .table b := by
              cases val <;> simp [SqObject.type] at htype hclass ⊢
            apply ((hrec _ _ b).frame [key, iter', .table a]).bind
            rintro names _ rfl
            exact hrest names
      · exact hrest names

theorem alike_getClassesFullNameHelper (n : Nat) (ns : Bytes) (names : ClassNames) (a : Nat) :
    Alike (getClassesFullNameHelper api n ns names) h h' [.table a] fun _ t => t = [.table a] := by
  induction n generalizing ns names a with
  | zero => exact alike_throw _
  | succ n ih =>
    unfold getClassesFullNameHelper
    refine Gives.bind_alike (fun h => gives_sqGettype rfl) ?_
    refine Gives.bind_alike (fun h => gives_sqPushobject .null) ?_
    refine (alike_classNamesLoop hr ih ns a n names fun _ => .inl rfl).bind ?_
    rintro names _ ⟨iter, rfl⟩
    exact Gives.bind_alike (fun h => gives_sqPop [iter]) (alike_pure rfl)

theorem alike_localsLoop (stackIdx : Nat) (hash : UInt64) (n nSeq : Nat) (names : ClassNames) :
    Alike (localsLoop api stackIdx hash n nSeq names) h h' top fun _ t => t = top := by
  induction n generalizing nSeq names with
  | zero => exact alike_throw _
  | succ n ih =>
    unfold localsLoop
    have hlocal : Gives (sqGetlocal api stackIdx nSeq) h top _ h _ :=
      gives_sqGetlocal api stackIdx nSeq
    have hlocal' : Gives (sqGetlocal api stackIdx nSeq) h' top _ h' _ :=
      gives_sqGetlocal api stackIdx nSeq
    rw [hr.getlocal] at hlocal'
    rcases hl : api.getlocal h stackIdx nSeq with _ | ⟨name, value⟩
    · rw [hl] at hlocal hlocal'
      refine Alike.bind (P := fun b t => b = none ∧ t = top)
        (hlocal.alike hlocal' ⟨rfl, rfl⟩) ?_
      rintro _ _ ⟨rfl, rfl⟩
      exact alike_pure rfl
    · rw [hl] at hlocal hlocal'
      have hnext : ∀ names, Alike
          (sqPoptop >>= fun _ => localsLoop api stackIdx hash n (nSeq + 1) names) h h'
          (value :: top) fun _ t => t = top := fun names =>
        Gives.bind_alike (fun h => gives_sqPoptop) (ih _ names)
      refine Alike.bind (P := fun b t => b = some name ∧ t = value :: top)
        (hlocal.alike hlocal' ⟨rfl, rfl⟩) ?_
      rintro _ _ ⟨rfl, rfl⟩
      refine Gives.bind_alike (fun h => gives_sqGettype (o := value) rfl) ?_
      split
      · rename_i htype
        obtain ⟨b, rfl⟩ : ∃ b, value = .table b := by
          cases value <;> simp [SqObject.type] at htype ⊢
        apply ((alike_getClassesFullNameHelper hr n [] names b).frame top).bind
        rintro names _ rfl
        exact hnext names
      · split
        · refine Alike.bind (P := fun b t => t = value :: top)
            ((gives_sqGethash api rfl).alike ?_ rfl) ?_
          · rw [← hr.gethash]
            exact gives_sqGethash api rfl
          · rintro classHash _ rfl
            split
            · exact Gives.bind_alike (fun h => gives_sqPoptop) (alike_pure rfl)
            · exact hnext names
        · exact hnext names

theorem alike_framesLoop (hash : UInt64) (n stackIdx : Nat) (names : ClassNames) :
    Alike (framesLoop api hash n stackIdx names) h h' top fun _ t => t = top := by
  induction n generalizing stackIdx names with
  | zero => exact alike_throw _
  | succ n ih =>
    unfold framesLoop
    have hinfos : Gives (sqStackinfos api stackIdx) h' top _ h' top :=
      gives_sqStackinfos api stackIdx
    rw [hr.stackinfos] at hinfos
    refine Alike.bind (P := fun b t => t = top)
      ((gives_sqStackinfos api stackIdx).alike hinfos rfl) ?_
    rintro more _ rfl
    split
    · apply (alike_localsLoop hr stackIdx hash n 0 names).bind
      rintro ⟨_ | name, names⟩ _ rfl
      · exact ih _ _
      · exact alike_pure rfl
    · exact alike_unnamed _

theorem alike_toClassFullName (n : Nat) (o : SqObject) :
    Alike (toClassFullName api n) h h' [o] fun _ t => t = [o] := by
  unfold toClassFullName
  refine Gives.bind_alike (fun h => gives_sqGettype rfl) ?_
  split
  · exact alike_unnamed _
  · refine Alike.bind (P := fun b t => t = [o]) ((gives_sqGethash api rfl).alike ?_ rfl) ?_
    · rw [← hr.gethash]
      exact gives_sqGethash api rfl
    · rintro hash _ rfl
      have hroot : Gives (sqPushroottable api) h' [o] () h' _ := gives_sqPushroottable api
      rw [hr.roottable] at hroot
      refine Alike.bind (P := fun b t => t = [.table (api.roottable h), o])
        ((gives_sqPushroottable api).alike hroot rfl) ?_
      rintro _ _ rfl
      apply ((alike_getClassesFullNameHelper hr n [] _ _).frame [o]).bind
      rintro names _ rfl
      refine Gives.bind_alike (fun h => gives_sqPoptop) ?_
      split
      · exact alike_pure rfl
      · exact alike_framesLoop hr _ n 0 names

end

/-! ## The text beside a container -/

variable (lib : CppLib)

/-- The text of an object. No answer where `ToString` runs over `c`. -/
def readTextBeside : Nat → SqObject → Reading H Bytes
  | 0, _ => failure
  | n + 1, o =>
    if o = c then failure
    else if o.type = .table ∨ o.type = .instance_ then
      readSummary api lib (readTextBeside n) o n
    else readText api lib (n + 1) o

variable (fuel : Nat)

/-- `ToString` has a text for `o` and does not run over `c`. -/
def LegibleBeside (h : H) (o : SqObject) : Prop := (readTextBeside api c lib fuel o h).isSome

instance (h : H) (o : SqObject) : Decidable (LegibleBeside api c lib fuel h o) :=
  inferInstanceAs (Decidable (_ = true))

/-- An answer of `r` in `h` is the answer of `r'` in `h'`. -/
def Matches {α : Type} (h h' : H) (r r' : Reading H α) : Prop :=
  ∀ a h₁, r h = some (a, h₁) → h₁ = h ∧ r' h' = some (a, h')

section
variable {api c lib fuel} {α β : Type} {h h' : H}

theorem matches_pure (a : α) : Matches h h' (pure a) (pure a) := by
  intro b h₁ hr
  obtain ⟨rfl, rfl⟩ := Prod.mk.inj (Option.some.inj hr)
  exact ⟨rfl, rfl⟩

theorem matches_failure {r : Reading H α} : Matches h h' failure r := by
  intro b h₁ hr
  cases hr

theorem Matches.bind {r r' : Reading H α} {f f' : α → Reading H β} (hr : Matches h h' r r')
    (hf : ∀ a, Matches h h' (f a) (f' a)) : Matches h h' (r >>= f) (r' >>= f') := by
  intro b h₂ hb
  have hrun : ((r h).bind fun p => f p.1 p.2) = some (b, h₂) := hb
  obtain ⟨⟨a, h₁⟩, ha, hfa⟩ := Option.bind_eq_some_iff.mp hrun
  obtain ⟨rfl, ha'⟩ := hr a h₁ ha
  obtain ⟨rfl, hfa'⟩ := hf a b h₂ hfa
  refine ⟨rfl, ?_⟩
  show ((r' h').bind fun p => f' p.1 p.2) = some (b, h')
  rw [ha', Option.bind_some]
  exact hfa'

theorem matches_turn {step : H → H × α} (hs : (step h).1 = h) (hs' : (step h').1 = h')
    (ha : (step h').2 = (step h).2) : Matches h h' (turn step) (turn step) := by
  intro a h₁ hr
  obtain ⟨rfl, rfl⟩ := Prod.mk.inj (Option.some.inj hr)
  refine ⟨hs, ?_⟩
  rw [turn, ha, hs']

theorem matches_ask {query : H → α} (hq : query h' = query h) :
    Matches h h' (ask query) (ask query) := matches_turn rfl rfl hq

theorem Matches.answer {r r' : Reading H α} (hr : Matches h h' r r') (hsome : (r h).isSome) :
    ∃ a, r h = some (a, h) ∧ r' h' = some (a, h') := by
  obtain ⟨⟨a, h₁⟩, ha⟩ := Option.isSome_iff_exists.mp hsome
  obtain ⟨rfl, ha'⟩ := hr a h₁ ha
  exact ⟨a, ha, ha'⟩

theorem read_bind_none {r : Reading H α} {f : α → Reading H β} (hr : r h = none) :
    (r >>= f) h = none := by
  show ((r h).bind fun p => f p.1 p.2) = none
  rw [hr, Option.bind_none]

theorem read_bind {r : Reading H α} {f : α → Reading H β} {a : α} {h₁ : H}
    (ha : r h = some (a, h₁)) : (r >>= f) h = f a h₁ := by
  show ((r h).bind fun p => f p.1 p.2) = f a h₁
  rw [ha, Option.bind_some]

variable (hr : Replaced api c h h')

include hr

theorem matches_readNext {o : SqObject} (ho : o ≠ c) (iter : SqObject) :
    Matches h h' (readNext api o iter) (readNext api o iter) :=
  matches_turn (hr.still o iter) (hr.still' o iter) (hr.advance o iter ho)

theorem matches_readClassName (n : Nat) (o : SqObject) :
    Matches h h' (readClassName api n o) (readClassName api n o) := by
  intro name h₁ hname
  unfold readClassName at hname
  rcases alike_toClassFullName hr n o with ⟨name', _, rfl, hg, hg'⟩ | ⟨hthrow, -⟩
  · rw [show (toClassFullName api n).run ⟨[o], h, []⟩ = _ from hg [] []] at hname
    simp only [Option.some.injEq, Prod.mk.injEq] at hname
    obtain ⟨rfl, rfl⟩ := hname
    refine ⟨rfl, ?_⟩
    unfold readClassName
    rw [show (toClassFullName api n).run ⟨[o], h', []⟩ = _ from hg' [] []]
  · obtain ⟨e, t, hrun⟩ := hthrow [] []
    rw [show (toClassFullName api n).run ⟨[o], h, []⟩ = _ from hrun] at hname
    cases hname

theorem matches_readClosureText (o : SqObject) :
    Matches h h' (readClosureText api o) (readClosureText api o) := by
  have hname : Matches h h' (readClosureName api o) (readClosureName api o) := by
    refine (matches_ask (by rw [hr.getclosurename])).bind fun found => ?_
    split
    · exact matches_pure _
    · exact matches_pure _
    · exact matches_failure
  refine hname.bind fun name => (matches_ask (by rw [hr.getclosureinfo])).bind fun found => ?_
  split
  · exact matches_pure _
  · exact matches_pure _

section
variable {text text' : SqObject → Reading H Bytes} {o : SqObject} (ho : o ≠ c)
variable (ht : ∀ v, Matches h h' (text v) (text' v))

omit hr in
include ht in
theorem matches_readField (isFirst : Bool) (ss : Bytes) (key val : SqObject) :
    Matches h h' (readField text isFirst ss key val) (readField text' isFirst ss key val) := by
  refine (ht val).bind fun valueStr => ?_
  split
  · exact (ht key).bind fun _ => matches_pure _
  · exact matches_pure _

include ho ht

theorem matches_readKeys (n : Nat) (iter : SqObject) :
    Matches h h' (readKeys api text o n iter) (readKeys api text' o n iter) := by
  induction n generalizing iter with
  | zero => exact matches_failure
  | succ n ih =>
    unfold readKeys
    cases readInteger api iter with
    | none => exact matches_pure _
    | some sqIter =>
      refine (matches_readNext hr ho iter).bind fun found => ?_
      rcases found with _ | ⟨key, val, iter'⟩
      · exact matches_pure _
      · exact (ht key).bind fun _ => (ih iter').bind fun _ => matches_pure _

theorem matches_readSortedFields (initial : Nat) (keys : List (Bytes × Int)) (ss : Bytes) :
    Matches h h' (readSortedFields api text o initial keys ss)
      (readSortedFields api text' o initial keys ss) := by
  induction keys generalizing ss with
  | nil => exact matches_pure _
  | cons key keys ih =>
    obtain ⟨_, sqIter⟩ := key
    unfold readSortedFields
    split
    · refine (matches_readNext hr ho _).bind fun found => ?_
      rcases found with _ | ⟨key, val, iter'⟩
      · exact matches_pure _
      · exact (matches_readField ht _ ss key val).bind fun ss => ih ss
    · exact matches_pure _

theorem matches_readStreamedFields (n : Nat) (isFirst : Bool) (ss : Bytes) (iter : SqObject) :
    Matches h h' (readStreamedFields api text o n isFirst ss iter)
      (readStreamedFields api text' o n isFirst ss iter) := by
  induction n generalizing isFirst ss iter with
  | zero => exact matches_failure
  | succ n ih =>
    unfold readStreamedFields
    split
    · refine (matches_readNext hr ho iter).bind fun found => ?_
      rcases found with _ | ⟨key, val, iter'⟩
      · exact matches_pure _
      · exact (matches_readField ht isFirst ss key val).bind fun ss => ih false ss iter'
    · exact matches_pure _

theorem matches_readSummary (n : Nat) :
    Matches h h' (readSummary api lib text o n) (readSummary api lib text' o n) := by
  unfold readSummary readSortedKeys
  refine (matches_ask (by rw [hr.getsize])).bind fun size => ?_
  split
  · refine ((matches_readKeys hr ho ht n _).bind fun _ => matches_pure _).bind fun keys => ?_
    exact (matches_readSortedFields hr ho ht _ keys _).bind fun _ => matches_pure _
  · exact (matches_readStreamedFields hr ho ht n true _ _).bind fun _ => matches_pure _

end

/-- Objects that are no table and no instance have one text in both heaps. -/
theorem matches_plainText {n : Nat} {o : SqObject}
    (ho : ¬ (o.type = .table ∨ o.type = .instance_)) :
    Matches h h' (readText api lib (n + 1) o) (readText api lib (n + 1) o) := by
  unfold readText
  cases o with
  | closure a => exact matches_readClosureText hr _
  | class_ a => exact matches_readClassName hr n _
  | array a => exact (matches_ask (by rw [hr.getsize])).bind fun _ => matches_pure _
  | instance_ a => exact absurd (.inr rfl) ho
  | table a => exact absurd (.inl rfl) ho
  | _ => exact matches_pure _

/-- What has a text beside `c` has it in both heaps. -/
theorem matches_readText (n : Nat) (o : SqObject) :
    Matches h h' (readTextBeside api c lib n o) (readText api lib n o) := by
  induction n generalizing o with
  | zero => exact matches_failure
  | succ n ih =>
    unfold readTextBeside
    split
    · exact matches_failure
    · rename_i ho
      split
      · rename_i htype
        have hsummary : Matches h h' (readSummary api lib _ o n) (readSummary api lib _ o n) :=
          matches_readSummary hr ho ih n
        cases o with
        | table a => exact hsummary
        | instance_ a => exact hsummary
        | _ => simp [SqObject.type] at htype
      · rename_i htype
        exact matches_plainText hr htype

omit hr in
theorem Replaced.refl (hr : Replaced api c h h') : Replaced api c h h where
  advance _ _ _ := rfl
  getsize := rfl
  getclass := rfl
  getclosurename := rfl
  getclosureinfo := rfl
  gethash := rfl
  roottable := rfl
  getlocal := rfl
  stackinfos := rfl
  still := hr.still
  still' := hr.still
  step {a iter} _ _ := by
    rcases api.next h (.table a) iter with _ | ⟨key, val, iter'⟩
    · exact .ended
    · exact .same key val iter'
  position := hr.position

/-- A text beside `c` is the text in both heaps. -/
theorem legible_replaced {o : SqObject} (hl : LegibleBeside api c lib fuel h o) :
    ∃ text, Gives (L3.toString api lib fuel) h [o] text h [o] ∧
      Gives (L3.toString api lib fuel) h' [o] text h' [o] := by
  obtain ⟨text, htext, htext'⟩ := (matches_readText hr fuel o).answer hl
  obtain ⟨_, htext''⟩ := matches_readText hr.refl fuel o text h htext
  obtain ⟨_, rfl, hg⟩ := (reports_toString api lib fuel o).gives htext''
  obtain ⟨_, rfl, hg'⟩ := (reports_toString api lib fuel o).gives htext'
  exact ⟨text, hg, hg'⟩

/-- A value that is shown, with its text beside `c`, is shown in both heaps. -/
theorem showable_replaced {v : SqObject} (hl : LegibleBeside api c lib fuel h v)
    (hs : Showable api lib fuel h v) : Showable api lib fuel h' v := by
  have htexts : Matches h h' (readTextBeside api c lib fuel v) _ := matches_readText hr fuel v
  obtain ⟨text, htext, htext'⟩ := htexts.answer hl
  obtain ⟨-, hsame⟩ := matches_readText hr.refl fuel v text h htext
  have hclass : Matches h h' (readInstanceClassName api fuel v)
      (readInstanceClassName api fuel v) := by
    unfold readInstanceClassName
    split
    · refine (matches_ask (by rw [hr.getclass])).bind fun found => ?_
      split
      · exact matches_pure _
      · exact matches_readClassName hr fuel _
    · exact matches_pure _
  have hnamed : (readInstanceClassName api fuel v h).isSome := by
    unfold Showable readVariable at hs
    rw [read_bind hsame] at hs
    cases hn : readInstanceClassName api fuel v h with
    | some p => rfl
    | none =>
      rw [read_bind_none hn] at hs
      cases hs
  obtain ⟨name, -, hname⟩ := hclass.answer hnamed
  unfold Showable readVariable
  rw [read_bind htext', read_bind hname]
  rfl

end

end

end Sdb.L4
