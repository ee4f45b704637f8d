import Sdb.L4Display.Moves

/-!
# The account of the helpers

Each function of `SquirrelVmHelpers.cpp` leaves the stack as high as it found
it, apart from the null closure names it meets (`Names`): the renderings, the
listings of children, the walk along a path and the walk along an expression.
The three that are documented to pop a key and a value do so.
-/
namespace Sdb.L4

open Sdb.L1 Sdb.L3 Sdb.Exec

section
variable {H : Type} {α β : Type} (api : SqApi H)

/-! ## Class names -/

theorem noExit_fuel : NoExit .fuel := .inl rfl

theorem noExit_undefined : NoExit .undefined := .inr rfl

/-- A throw of `ToClassFullName`. -/
theorem net_unnamed {n : α → Int} {b : Int} (hb : b ≤ 0) (what : String) :
    Net (H := H) Names n b (do recordFault .unnamedClass; throw (.runtimeError what)) := by
  intro s
  exact .inr ⟨⟨what, rfl⟩, by simp, show (s.stack.length : Int) + b ≤ s.stack.length by omega⟩

theorem net_classNamesLoop {rec : Bytes → ClassNames → VmM H ClassNames}
    (hrec : ∀ ns names, Net Names (fun _ => 0) 0 (rec ns names)) (ns : Bytes) (n : Nat)
    (names : ClassNames) : Net Names (fun _ => 0) 0 (classNamesLoop api rec ns n names) := by
  induction n generalizing names with
  | zero => exact (moves_throw noExit_fuel).net names_nil
  | succ n ih =>
    unfold classNamesLoop
    refine (moves_sqNext api 2).bind_net fun next => ?_
    cases next with
    | false => exact (moves_pure (by simp [advanced])).net names_nil
    | true =>
      have hnext : ∀ names, Net Names (fun _ => (0 : Int) - advanced true) (0 - advanced true)
          (sqPop 2 >>= fun _ => classNamesLoop api rec ns n names) := fun names =>
        (moves_sqPop 2).bind_net fun _ => (ih names).congr (by simp [advanced])
          (by simp [advanced])
      rw [if_pos rfl]
      refine (moves_sqGettype 1).bind_net fun type => ?_
      split
      · refine (moves_sqGetstring 2).bind_net fun key => ?_
        cases key with
        | none => exact (moves_throw noExit_undefined).net names_nil
        | some key =>
          dsimp only
          split
          · refine (moves_sqGethash api 1).bind_net fun hash => ?_
            split
            · refine (moves_sqPop 2).bind_net fun _ => ?_
              exact (moves_pure (by simp [advanced])).net names_nil
            · exact (hnext _).congr (by simp) (by simp)
          · refine ((hrec _ _).congr (fun _ => rfl) (by simp [advanced])).bind fun names => ?_
            exact (hnext _).congr (by simp) (by simp)
      · exact (hnext _).congr (by simp) (by simp)

theorem net_getClassesFullNameHelper (n : Nat) (ns : Bytes) (names : ClassNames) :
    Net Names (fun _ => 0) 0 (getClassesFullNameHelper api n ns names) := by
  induction n generalizing ns names with
  | zero => exact (moves_throw noExit_fuel).net names_nil
  | succ n ih =>
    unfold getClassesFullNameHelper
    refine (moves_sqGettype 1).bind_net fun type => ?_
    split
    · exact net_unnamed (by simp) _
    · refine (moves_sqPushobject .null).bind_net fun _ => ?_
      refine Net.bind_moves ((net_classNamesLoop api ih ns n names).congr (fun _ => rfl)
        (by simp)) fun names => ?_
      exact (moves_sqPop 1).bind fun _ => moves_pure (by simp)

theorem net_localsLoop (stackIdx : Nat) (hash : UInt64) (n nSeq : Nat) (names : ClassNames) :
    Net Names (fun _ => 0) 0 (localsLoop api stackIdx hash n nSeq names) := by
  induction n generalizing nSeq names with
  | zero => exact (moves_throw noExit_fuel).net names_nil
  | succ n ih =>
    unfold localsLoop
    refine (moves_sqGetlocal api stackIdx nSeq).bind_net fun name => ?_
    cases name with
    | none => exact (moves_pure (by simp [pushed])).net names_nil
    | some name =>
      have hnext : ∀ names, Net Names (fun _ => (0 : Int) - pushed (some name).isSome)
          (0 - pushed (some name).isSome)
          (sqPoptop >>= fun _ => localsLoop api stackIdx hash n (nSeq + 1) names) := fun names =>
        moves_sqPoptop.bind_net fun _ => (ih _ _).congr (by simp [pushed]) (by simp [pushed])
      refine (moves_sqGettype 1).bind_net fun type => ?_
      split
      · refine ((net_getClassesFullNameHelper api n [] names).congr (fun _ => rfl)
          (by simp [pushed])).bind fun names => ?_
        exact (hnext _).congr (by simp) (by simp)
      · split
        · refine (moves_sqGethash api 1).bind_net fun h => ?_
          split
          · refine moves_sqPoptop.bind_net fun _ => ?_
            exact (moves_pure (by simp [pushed])).net names_nil
          · exact (hnext _).congr (by simp) (by simp)
        · exact (hnext _).congr (by simp) (by simp)

theorem net_framesLoop (hash : UInt64) (n stackIdx : Nat) (names : ClassNames) :
    Net Names (fun _ => 0) 0 (framesLoop api hash n stackIdx names) := by
  induction n generalizing stackIdx names with
  | zero => exact (moves_throw noExit_fuel).net names_nil
  | succ n ih =>
    unfold framesLoop
    refine (moves_sqStackinfos api stackIdx).bind_net fun more => ?_
    split
    · refine ((net_localsLoop api stackIdx hash n 0 names).congr (fun _ => rfl)
        (by simp)).bind fun p => ?_
      obtain ⟨_ | name, names⟩ := p
      · exact (ih _ _).congr (by simp) (by simp)
      · exact (moves_pure (by simp)).net names_nil
    · exact net_unnamed (by simp) _

theorem net_toClassFullName (fuel : Nat) : Net Names (fun _ => 0) 0 (toClassFullName api fuel) := by
  unfold toClassFullName
  refine (moves_sqGettype 1).bind_net fun type => ?_
  split
  · exact net_unnamed (by simp) _
  · refine (moves_sqGethash api 1).bind_net fun hash => ?_
    refine (moves_sqPushroottable api).bind_net fun _ => ?_
    refine ((net_getClassesFullNameHelper api fuel [] _).congr (fun _ => rfl)
      (by simp)).bind fun names => ?_
    refine moves_sqPoptop.bind_net fun _ => ?_
    split
    · exact (moves_pure (by simp)).net names_nil
    · exact (net_framesLoop api hash fuel 0 names).congr (by simp) (by simp)

/-! ## `ToString` -/

variable (lib : CppLib)

theorem net_collectKeys {toString : VmM H Bytes} (ht : Net Names (fun _ => 0) 0 toString)
    (n : Nat) : Net Names (fun _ => 0) 0 (collectKeys api toString n) := by
  induction n with
  | zero => exact (moves_throw noExit_fuel).net names_nil
  | succ n ih =>
    unfold collectKeys
    refine (moves_sqGetinteger api 1).bind_net fun iter => ?_
    cases iter with
    | none => exact (moves_pure (by simp)).net names_nil
    | some iter =>
      refine (moves_sqNext api 2).bind_net fun next => ?_
      cases next with
      | false => exact (moves_pure (by simp [advanced])).net names_nil
      | true =>
        rw [if_pos rfl]
        refine moves_sqPoptop.bind_net fun _ => ?_
        refine (ht.congr (fun _ => rfl) (by simp [advanced])).bind fun key => ?_
        refine moves_sqPoptop.bind_net fun _ => ?_
        refine Net.bind_moves (ih.congr (fun _ => rfl) (by simp [advanced])) fun rest => ?_
        exact moves_pure (by simp [advanced])

theorem net_sortedKeys {toString : VmM H Bytes} (ht : Net Names (fun _ => 0) 0 toString)
    (fuel : Nat) : Net Names (fun _ => 0) 0 (sortedKeys api lib toString fuel) := by
  unfold sortedKeys
  refine (moves_sqPushobject _).bind_net fun _ => ?_
  refine Net.bind_moves ((net_collectKeys api ht fuel).congr (fun _ => rfl) (by simp)) fun _ => ?_
  exact moves_sqPoptop.bind fun _ => moves_pure (by simp)

/-- The key and the value of the field are popped. -/
theorem net_writeTableSummaryField {toString : VmM H Bytes}
    (ht : Net Names (fun _ => 0) 0 toString) (isFirst : Bool) (ss : Bytes) :
    Net Names (fun _ => -2) (-2) (writeTableSummaryField toString isFirst ss) := by
  unfold writeTableSummaryField
  refine (ht.congr (fun _ => rfl) (by simp)).bind fun value => ?_
  split
  · refine moves_sqPoptop.bind_net fun _ => ?_
    refine (ht.congr (fun _ => rfl) (by simp)).bind fun key => ?_
    exact (moves_sqPoptop.bind fun _ => moves_pure (by simp)).net names_nil
  · exact ((moves_sqPop 2).bind fun _ => moves_pure (by simp)).net names_nil

theorem net_sortedFields {toString : VmM H Bytes} (ht : Net Names (fun _ => 0) 0 toString)
    (initial : Nat) (keys : List (Bytes × Int)) (ss : Bytes) :
    Net Names (fun _ => 0) 0 (sortedFields api toString initial keys ss) := by
  induction keys generalizing ss with
  | nil => exact (moves_pure (by simp)).net names_nil
  | cons key keys ih =>
    unfold sortedFields
    split
    · refine (moves_sqPushobject _).bind_net fun _ => ?_
      refine (moves_sqNext api 2).bind_net fun next => ?_
      cases next with
      | false =>
        exact (moves_sqPoptop.bind fun _ => moves_pure (by simp [advanced])).net names_nil
      | true =>
        rw [if_pos rfl]
        refine ((net_writeTableSummaryField ht _ ss).congr (fun _ => rfl)
          (by simp [advanced])).bind fun ss => ?_
        refine moves_sqPoptop.bind_net fun _ => ?_
        exact (ih ss).congr (by simp [advanced]) (by simp [advanced])
    · exact (moves_pure (by simp)).net names_nil

theorem net_streamedFields {toString : VmM H Bytes} (ht : Net Names (fun _ => 0) 0 toString)
    (n : Nat) (isFirst : Bool) (ss : Bytes) :
    Net Names (fun _ => 0) 0 (streamedFields api toString n isFirst ss) := by
  induction n generalizing isFirst ss with
  | zero => exact (moves_throw noExit_fuel).net names_nil
  | succ n ih =>
    unfold streamedFields
    split
    · refine (moves_sqNext api 2).bind_net fun next => ?_
      cases next with
      | false => exact (moves_pure (by simp [advanced])).net names_nil
      | true =>
        rw [if_pos rfl]
        refine ((net_writeTableSummaryField ht isFirst ss).congr (fun _ => rfl)
          (by simp [advanced])).bind fun ss => ?_
        exact (ih false ss).congr (by simp [advanced]) (by simp [advanced])
    · exact (moves_pure (by simp)).net names_nil

theorem net_createTableSummary {toString : VmM H Bytes} (ht : Net Names (fun _ => 0) 0 toString)
    (fuel : Nat) : Net Names (fun _ => 0) 0 (createTableSummary api lib toString fuel) := by
  unfold createTableSummary
  refine (moves_sqGetsize api 1).bind_net fun size => ?_
  split
  · refine ((net_sortedKeys api lib ht fuel).congr (fun _ => rfl) (by simp)).bind fun keys => ?_
    refine Net.bind_moves ((net_sortedFields api ht _ keys _).congr (fun _ => rfl)
      (by simp)) fun ss => ?_
    exact moves_pure (by simp)
  · refine (moves_sqPushobject _).bind_net fun _ => ?_
    refine Net.bind_moves ((net_streamedFields api ht fuel true _).congr (fun _ => rfl)
      (by simp)) fun ss => ?_
    exact moves_sqPoptop.bind fun _ => moves_pure (by simp)

/-- The name `sq_getclosurename` pushed stays when it is `null`. -/
theorem net_nullName {b : Int} : Net (H := H) Names (fun _ => -1) b (recordFault .nullName) := by
  intro s
  refine ⟨[.nullName], rfl, by simp [Names], ?_⟩
  show (s.stack.length : Int) = s.stack.length + -1 + weight [.nullName]
  simp only [weight, Fault.weight]
  omega

theorem net_closureName : Net Names (fun _ => 0) 0 (closureName api) := by
  unfold closureName
  refine (moves_sqPushAnswer api.getclosurename 1).bind_net fun answered => ?_
  cases answered with
  | false => exact (moves_pure (by simp [pushed])).net names_nil
  | true =>
    rw [if_pos rfl]
    refine (moves_sqGetstring 1).bind_net fun val => ?_
    cases val with
    | some val => exact (moves_sqPoptop.bind fun _ => moves_pure (by simp [pushed])).net names_nil
    | none => exact Net.bind_moves net_nullName fun _ => moves_pure (by simp [pushed])

theorem net_closureText : Net Names (fun _ => 0) 0 (closureText api) := by
  unfold closureText
  refine (net_closureName api).bind_moves fun name => ?_
  refine (moves_sqGetclosureinfo api 1).bind fun info => ?_
  cases info <;> exact moves_pure (by simp)

theorem net_toString (fuel : Nat) : Net Names (fun _ => 0) 0 (toString api lib fuel) := by
  induction fuel with
  | zero => exact (moves_throw noExit_fuel).net names_nil
  | succ n ih =>
    unfold L3.toString
    refine (moves_sqGetstackobj 1).bind_net fun o => ?_
    have hsummary : Net Names (fun _ => 0 - 0) (0 - 0)
        (createTableSummary api lib (toString api lib n) n) :=
      (net_createTableSummary api lib ih n).congr (by simp) (by simp)
    cases o with
    | closure a => exact (net_closureText api).congr (by simp) (by simp)
    | class_ a => exact (net_toClassFullName api n).congr (by simp) (by simp)
    | array a =>
      exact ((moves_sqGetsize api 1).bind fun _ => moves_pure (by simp)).net names_nil
    | instance_ a => exact hsummary
    | table a => exact hsummary
    | _ => exact (moves_pure (by simp)).net names_nil

/-! ## Child variables -/

/-- The account of a rendering. -/
structure Renders (r : Renderer H) : Prop where
  toString : Net Names (fun _ => 0) 0 r.toString
  toClassFullName : Net Names (fun _ => 0) 0 r.toClassFullName

theorem renders_renderer (fuel : Nat) : Renders (renderer api lib fuel) :=
  ⟨net_toString api lib fuel, net_toClassFullName api fuel⟩

theorem moves_delegateSize : Moves (fun _ => 0) (delegateSize api) := by
  unfold delegateSize
  refine (moves_sqGetstackobj 1).bind fun o => ?_
  cases o.asTable with
  | none => exact moves_throw noExit_undefined
  | some t =>
    refine (moves_sqPushobject t).bind fun _ => ?_
    refine (moves_sqPushAnswer api.getdelegate 1).bind fun answered => ?_
    cases answered with
    | false => exact moves_sqPoptop.bind fun _ => moves_pure (by simp [pushed])
    | true =>
      rw [if_pos rfl]
      refine (moves_sqGetsize api 1).bind fun size => ?_
      exact moves_sqPoptop.bind fun _ => moves_sqPoptop.bind fun _ =>
        moves_pure (by simp [pushed])

theorem moves_childCount (type : SqObjectType) : Moves (fun _ => 0) (childCount api type) := by
  cases type with
  | instance_ => exact moves_delegateSize api
  | userData => exact moves_delegateSize api
  | array => exact (moves_sqGetsize api 1).bind fun _ => moves_pure (by simp)
  | table => exact (moves_sqGetsize api 1).bind fun _ => moves_pure (by simp)
  | _ => exact moves_pure (by simp)

variable {r : Renderer H} (hr : Renders r)

include hr

theorem net_instanceClassName (type : SqObjectType) :
    Net Names (fun _ => 0) 0 (instanceClassName api r type) := by
  unfold instanceClassName
  split
  · refine (moves_sqPushAnswer api.getclass 1).bind_net fun answered => ?_
    cases answered with
    | false => exact (moves_pure (by simp [pushed])).net names_nil
    | true =>
      rw [if_pos rfl]
      refine (hr.toClassFullName.congr (fun _ => rfl) (by simp [pushed])).bind_moves fun name => ?_
      exact moves_sqPoptop.bind fun _ => moves_pure (by simp [pushed])
  · exact (moves_pure (by simp)).net names_nil

theorem net_createChildVariable : Net Names (fun _ => 0) 0 (createChildVariable api r) := by
  unfold createChildVariable
  refine (moves_sqGetstackobj 1).bind_net fun o => ?_
  refine (hr.toString.congr (fun _ => rfl) (by simp)).bind fun value => ?_
  refine ((net_instanceClassName api hr o.type).congr (fun _ => rfl) (by simp)).bind fun name => ?_
  exact ((moves_childCount api o.type).bind fun _ => moves_pure (by simp)).net names_nil

/-- The key and the value of the child are popped. -/
theorem net_createTableChildVariable (iter : Int) :
    Net Names (fun _ => -2) (-2) (createTableChildVariable api r iter) := by
  unfold createTableChildVariable
  refine ((net_createChildVariable api hr).congr (fun _ => rfl) (by simp)).bind fun v => ?_
  refine moves_sqPoptop.bind_net fun _ => ?_
  refine (hr.toString.congr (fun _ => rfl) (by simp)).bind fun key => ?_
  exact ((moves_sqGettype 1).bind fun _ => moves_sqPoptop.bind fun _ =>
    moves_pure (by simp)).net names_nil

theorem net_arrayChildren (n : Nat) : Net Names (fun _ => 0) 0 (arrayChildren api r n) := by
  induction n with
  | zero => exact (moves_pure (by simp)).net names_nil
  | succ n ih =>
    unfold arrayChildren
    refine (moves_sqGetinteger api 1).bind_net fun iter => ?_
    cases iter with
    | none => exact (moves_pure (by simp)).net names_nil
    | some iter =>
      refine (moves_sqNext api 2).bind_net fun next => ?_
      cases next with
      | false => exact (moves_pure (by simp [advanced])).net names_nil
      | true =>
        rw [if_pos rfl]
        refine ((net_createChildVariable api hr).congr (fun _ => rfl)
          (by simp [advanced])).bind fun v => ?_
        refine moves_sqPoptop.bind_net fun _ => ?_
        refine (hr.toString.congr (fun _ => rfl) (by simp [advanced])).bind fun key => ?_
        refine moves_sqPoptop.bind_net fun _ => ?_
        refine (ih.congr (fun _ => rfl) (by simp [advanced])).bind_moves fun rest => ?_
        exact moves_pure (by simp [advanced])

theorem net_sortedChildren (keys : List (Bytes × Int)) :
    Net Names (fun _ => 0) 0 (sortedChildren api r keys) := by
  induction keys with
  | nil => exact (moves_pure (by simp)).net names_nil
  | cons key keys ih =>
    unfold sortedChildren
    refine (moves_sqPushobject _).bind_net fun _ => ?_
    refine (moves_sqNext api 2).bind_net fun next => ?_
    cases next with
    | false => exact (moves_sqPoptop.bind fun _ => moves_pure (by simp [advanced])).net names_nil
    | true =>
      rw [if_pos rfl]
      refine ((net_createTableChildVariable api hr _).congr (fun _ => rfl)
        (by simp [advanced])).bind fun v => ?_
      refine moves_sqPoptop.bind_net fun _ => ?_
      refine (ih.congr (fun _ => rfl) (by simp [advanced])).bind_moves fun rest => ?_
      exact moves_pure (by simp [advanced])

theorem net_streamedChildren (n : Nat) :
    Net Names (fun _ => 0) 0 (streamedChildren api r n) := by
  induction n with
  | zero => exact (moves_pure (by simp)).net names_nil
  | succ n ih =>
    unfold streamedChildren
    refine (moves_sqGetinteger api 1).bind_net fun iter => ?_
    cases iter with
    | none => exact (moves_pure (by simp)).net names_nil
    | some iter =>
      refine (moves_sqNext api 2).bind_net fun next => ?_
      cases next with
      | false => exact (moves_pure (by simp [advanced])).net names_nil
      | true =>
        rw [if_pos rfl]
        refine ((net_createTableChildVariable api hr iter).congr (fun _ => rfl)
          (by simp [advanced])).bind fun v => ?_
        refine (ih.congr (fun _ => rfl) (by simp [advanced])).bind_moves fun rest => ?_
        exact moves_pure (by simp [advanced])

theorem net_tableChildren (fuel : Nat) (pagination : PaginationInfo) :
    Net Names (fun _ => 0) 0 (tableChildren api lib r fuel pagination) := by
  unfold tableChildren
  refine (moves_sqGetsize api 1).bind_net fun size => ?_
  split
  · refine ((net_sortedKeys api lib hr.toString fuel).congr (fun _ => rfl)
      (by simp)).bind fun keys => ?_
    split
    · exact (moves_throw noExit_undefined).net names_nil
    · exact (net_sortedChildren api hr _).congr (by simp) (by simp)
  · refine (moves_sqPushobject _).bind_net fun _ => ?_
    refine ((net_streamedChildren api hr _).congr (fun _ => rfl) (by simp)).bind_moves fun vs => ?_
    exact moves_sqPoptop.bind fun _ => moves_pure (by simp)

theorem net_createChildVariables (fuel : Nat) (pagination : PaginationInfo) :
    Net Names (fun _ => 0) 0 (createChildVariables api lib r fuel pagination) := by
  unfold createChildVariables
  refine (moves_sqGettype 1).bind_net fun type => ?_
  have htable : Net Names (fun _ => 0 - 0) (0 - 0) (tableChildren api lib r fuel pagination) :=
    (net_tableChildren api lib hr fuel pagination).congr (by simp) (by simp)
  cases type with
  | array =>
    refine (moves_sqPushobject _).bind_net fun _ => ?_
    refine ((net_arrayChildren api hr _).congr (fun _ => rfl) (by simp)).bind_moves fun vs => ?_
    exact moves_sqPoptop.bind fun _ => moves_pure (by simp)
  | instance_ => exact htable
  | table => exact htable
  | _ => exact (moves_pure (by simp)).net names_nil

theorem net_rootVariablesLoop (stackFrame n nSeq : Nat) :
    Net Names (fun _ => 0) 1 (rootVariablesLoop api r stackFrame n nSeq) := by
  induction n generalizing nSeq with
  | zero => exact (moves_pure (by simp)).net names_nil
  | succ n ih =>
    unfold rootVariablesLoop
    refine (moves_sqGetlocal api stackFrame nSeq).bind_net fun name => ?_
    cases name with
    | none => exact (moves_pure (by simp [pushed])).net names_nil
    | some name =>
      refine ((net_createChildVariable api hr).congr (fun _ => rfl) (by simp [pushed])).bind
        fun v => ?_
      refine moves_sqPoptop.bind_net fun _ => ?_
      refine ((ih (nSeq + 1)).congr (fun _ => rfl) (by simp [pushed])).bind_moves fun rest => ?_
      exact moves_pure (by simp [pushed])

omit hr

/-! ## Paths and expressions -/

theorem net_withVariableAtPath {G : List Fault → Prop} (hG : G [])
    {fn : VmM H (Except ReturnCode α)} (hfn : Net G (fun _ => 0) 0 fn) (path : List UInt64) :
    Net G (fun _ => 0) 0 (withVariableAtPath api fn path) := by
  induction path with
  | nil => exact hfn
  | cons part path ih =>
    unfold withVariableAtPath
    refine (moves_sqGettype 1).bind_net fun type => ?_
    have hslot : Net G (fun _ => (0 : Int) - 0) (0 - 0) (do
        sqPushinteger (toSqInteger part)
        if ← sqNext api 2 then
          let childRetVal ← withVariableAtPath api fn path
          sqPop 3
          return childRetVal
        else
          sqPoptop
          return .error .invalidParameter) := by
      refine (moves_sqPushobject _).bind_net fun _ => ?_
      refine (moves_sqNext api 2).bind_net fun next => ?_
      cases next with
      | false => exact (moves_sqPoptop.bind fun _ => moves_pure (by simp [advanced])).net hG
      | true =>
        rw [if_pos rfl]
        refine (ih.congr (fun _ => rfl) (by simp [advanced])).bind_moves fun rc => ?_
        exact (moves_sqPop 3).bind fun _ => moves_pure (by simp [advanced])
    cases type with
    | array =>
      refine (moves_sqGetsize api 1).bind_net fun size => ?_
      split
      · exact (moves_pure (by simp)).net hG
      · refine (moves_sqPushobject _).bind_net fun _ => ?_
        refine (moves_sqGet api 2).bind_net fun found => ?_
        cases found with
        | false => exact (moves_pure (by simp [looked])).net hG
        | true =>
          rw [if_pos rfl]
          refine (ih.congr (fun _ => rfl) (by simp [looked])).bind_moves fun rc => ?_
          exact moves_sqPoptop.bind fun _ => moves_pure (by simp [looked])
    | table => exact hslot
    | instance_ => exact hslot
    | _ => exact (moves_pure (by simp)).net hG

theorem moves_scanForKey (key : SqObject)
    {found : VmM H (Except ReturnCode (SqObject × List UInt32))} (hf : Moves (fun _ => 0) found)
    (n : Nat) : Moves (fun _ => -2) (scanForKey api key found n) := by
  induction n with
  | zero => exact moves_throw noExit_fuel
  | succ n ih =>
    unfold scanForKey
    refine (moves_sqGetinteger api 1).bind fun iter => ?_
    cases iter with
    | none =>
      exact moves_sqPoptop.bind fun _ => moves_sqPoptop.bind fun _ => moves_pure (by simp)
    | some iter =>
      refine (moves_sqNext api 3).bind fun next => ?_
      cases next with
      | false =>
        exact moves_sqPoptop.bind fun _ => moves_sqPoptop.bind fun _ =>
          moves_pure (by simp [advanced])
      | true =>
        rw [if_pos rfl]
        refine (moves_sqGetstackobj 2).bind fun iterKey => ?_
        split
        · exact hf.bind fun _ => (moves_sqPop 4).bind fun _ => moves_pure (by simp [advanced])
        · exact (moves_sqPop 2).bind fun _ => ih.congr (by simp [advanced])

theorem moves_getObjectFromExpression (fuel : Nat) (sqNode : List SqObject) :
    Moves (fun _ => 0) (getObjectFromExpression api fuel sqNode) := by
  induction sqNode with
  | nil => exact (moves_sqGetstackobj 1).bind fun _ => moves_pure (by simp)
  | cons accessor next ih =>
    unfold getObjectFromExpression
    refine (moves_sqGettype 1).bind fun type => ?_
    have hslot : Moves (fun _ => (0 : Int) - 0) (do
        sqPushobject accessor
        if ← sqGet api 2 then
          sqPushinteger 0
          scanForKey api accessor (getObjectFromExpression api fuel next) fuel
        else return .error .invalidParameter) := by
      refine (moves_sqPushobject _).bind fun _ => ?_
      refine (moves_sqGet api 2).bind fun found => ?_
      cases found with
      | false => exact moves_pure (by simp [looked])
      | true =>
        refine (moves_sqPushobject _).bind fun _ => ?_
        exact (moves_scanForKey api accessor ih fuel).congr (by simp [looked])
    cases type with
    | array =>
      dsimp only
      split
      · exact moves_pure (by simp)
      · refine (moves_sqPushobject _).bind fun _ => ?_
        refine (moves_sqGetinteger api 1).bind fun index => ?_
        refine (moves_sqGet api 2).bind fun found => ?_
        cases found with
        | false => exact moves_pure (by simp [looked])
        | true =>
          rw [if_pos rfl]
          refine (ih.congr (fun _ => rfl)).bind fun _ => ?_
          exact moves_sqPoptop.bind fun _ => moves_pure (by simp [looked])
    | table => exact hslot
    | instance_ => exact hslot
    | _ => exact moves_pure (by simp)

end

end Sdb.L4
