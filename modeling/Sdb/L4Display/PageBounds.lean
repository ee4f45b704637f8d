import Sdb.Core.Exec
import Sdb.L3Vm.Commands

/-!
# How long a page is

Each listing stops at `pagination.count`: its loop runs at most so many rounds, whatever
the VM answers, and whatever the 32-bit sum `beginIterator + count` comes to.

* `populateStackVariables_bounded`, `populateGlobalVariables_bounded`: no listing is
  longer than the count asked for.
-/
namespace Sdb.L4

open Sdb.L1 Sdb.L3 Sdb.Exec

section
variable {H : Type} (api : SqApi H) (lib : CppLib) (r : Renderer H)

/-- No more than `n` variables. -/
abbrev AtMost (n : Nat) (variables_ : List Variable) : Prop := variables_.length ≤ n

theorem atMost_nil (n : Nat) : AtMost n [] := Nat.zero_le n

theorem AtMost.cons {n : Nat} {variables_ : List Variable} (v : Variable)
    (h : AtMost n variables_) : AtMost (n + 1) (v :: variables_) := Nat.succ_le_succ h

/-! ## The loops -/

theorem rootVariablesLoop_bounded (stackFrame : Nat) : ∀ n nSeq,
    Yields (AtMost n) (rootVariablesLoop api r stackFrame n nSeq) := by
  intro n
  induction n with
  | zero => exact fun _ => yields_pure (atMost_nil 0)
  | succ n ih =>
    intro nSeq
    refine .last fun localName => ?_
    cases localName with
    | none => exact yields_pure (atMost_nil _)
    | some localName =>
      refine .last fun variable_ => .last fun _ => ?_
      exact (ih (nSeq + 1)).bind fun rest hrest => yields_pure (hrest.cons _)

theorem arrayChildren_bounded (n : Nat) : Yields (AtMost n) (arrayChildren api r n) := by
  induction n with
  | zero => exact yields_pure (atMost_nil 0)
  | succ n ih =>
    refine .last fun sqIter => ?_
    cases sqIter with
    | none => exact yields_pure (atMost_nil _)
    | some sqIter =>
      refine .last fun found => ?_
      cases found with
      | false => exact yields_pure (atMost_nil _)
      | true =>
        refine .last fun childVar => .last fun _ => .last fun pathUiString => .last fun _ => ?_
        exact ih.bind fun rest hrest => yields_pure (hrest.cons _)

theorem streamedChildren_bounded (n : Nat) : Yields (AtMost n) (streamedChildren api r n) := by
  induction n with
  | zero => exact yields_pure (atMost_nil 0)
  | succ n ih =>
    refine .last fun sqIter => ?_
    cases sqIter with
    | none => exact yields_pure (atMost_nil _)
    | some sqIter =>
      refine .last fun found => ?_
      cases found with
      | false => exact yields_pure (atMost_nil _)
      | true =>
        refine .last fun variable_ => ?_
        exact ih.bind fun rest hrest => yields_pure (hrest.cons _)

theorem sortedChildren_bounded (keys : List (Bytes × Int)) :
    Yields (AtMost keys.length) (sortedChildren api r keys) := by
  induction keys with
  | nil => exact yields_pure (atMost_nil 0)
  | cons key keys ih =>
    refine .last fun _ => .last fun found => ?_
    cases found with
    | false => exact .last fun _ => yields_pure (atMost_nil _)
    | true =>
      refine .last fun variable_ => .last fun _ => ?_
      exact ih.bind fun rest hrest => yields_pure (hrest.cons _)

/-! ## The listings -/

theorem tableChildren_bounded (fuel : Nat) (pagination : PaginationInfo) :
    Yields (AtMost pagination.count.toNat) (tableChildren api lib r fuel pagination) := by
  refine .last fun size => ?_
  split
  · refine .last fun keys => ?_
    split
    · exact yields_throw _
    · intro s
      refine (sortedChildren_bounded api r _ s).mono (fun children _ h => ?_) fun _ _ h => h
      exact h.trans (List.length_take_le _ _)
  · refine .last fun _ => ?_
    exact (streamedChildren_bounded api r _).bind fun children h =>
      .last fun _ => yields_pure h

theorem createChildVariables_bounded (fuel : Nat) (pagination : PaginationInfo) :
    Yields (AtMost pagination.count.toNat) (createChildVariables api lib r fuel pagination) := by
  refine .last fun type => ?_
  cases type with
  | array =>
    refine .last fun _ => ?_
    exact (arrayChildren_bounded api r _).bind fun children h => .last fun _ => yields_pure h
  | table | instance_ => exact tableChildren_bounded api lib r fuel pagination
  | _ => exact yields_pure (atMost_nil _)

/-- What a listing returns, when it returns no error. -/
def BoundedPage (n : Nat) (x : Except ReturnCode (List Variable)) : Prop :=
  ∀ variables_, x = .ok variables_ → AtMost n variables_

theorem page_error (n : Nat) (code : ReturnCode) : BoundedPage n (.error code) := by
  intro variables_ h
  cases h

theorem page_ok {n : Nat} {variables_ : List Variable} (h : AtMost n variables_) :
    BoundedPage n (.ok variables_) := by
  intro variables' heq
  obtain rfl := Except.ok.inj heq
  exact h

theorem withVariableAtPath_bounded {n : Nat} {fn : VmM H (Except ReturnCode (List Variable))}
    (hfn : Yields (BoundedPage n) fn) (path : List UInt64) :
    Yields (BoundedPage n) (withVariableAtPath api fn path) := by
  induction path with
  | nil => exact hfn
  | cons part path ih =>
    refine .last fun type => ?_
    cases type with
    | array =>
      refine .last fun arrSize => ?_
      split
      · exact yields_pure (page_error n _)
      · refine .last fun _ => .last fun found => ?_
        cases found with
        | false => exact yields_pure (page_error n _)
        | true => exact ih.bind fun childRetVal h => .last fun _ => yields_pure h
    | table | instance_ =>
      refine .last fun _ => .last fun found => ?_
      cases found with
      | false => exact .last fun _ => yields_pure (page_error n _)
      | true => exact ih.bind fun childRetVal h => .last fun _ => yields_pure h
    | _ => exact yields_pure (page_error n _)

theorem createChildVariablesFromIterable_bounded (fuel : Nat) (path : List UInt64)
    (pagination : PaginationInfo) :
    Yields (BoundedPage pagination.count.toNat)
      (createChildVariablesFromIterable api lib r fuel path pagination) :=
  withVariableAtPath_bounded api
    ((createChildVariables_bounded api lib r fuel pagination).bind fun _ h =>
      yields_pure (page_ok h)) path

/-- The rounds of the loop over the locals: the sum wraps around, the difference does
not. -/
theorem wrapped_count_le (pagination : PaginationInfo) :
    (pagination.beginIterator + pagination.count).toNat - pagination.beginIterator.toNat ≤
      pagination.count.toNat := by
  rw [UInt32.toNat_add]
  omega

theorem withStackRootVariables_bounded (stackFrame : UInt32) (pagination : PaginationInfo) :
    Yields (AtMost pagination.count.toNat)
      (withStackRootVariables api r stackFrame pagination) := by
  intro s
  refine (rootVariablesLoop_bounded api r _ _ _ s).mono (fun variables_ _ h => ?_) fun _ _ h => h
  exact h.trans (wrapped_count_le pagination)

theorem populateStackVariables_bounded (fuel : Nat) (stackFrame : UInt32) (path : Bytes)
    (pagination : PaginationInfo) :
    Yields (BoundedPage pagination.count.toNat)
      (populateStackVariables api lib r fuel stackFrame path pagination) := by
  unfold populateStackVariables
  split
  · exact (withStackRootVariables_bounded api r stackFrame pagination).bind fun _ h =>
      yields_pure (page_ok h)
  · unfold withStackVariables
    split
    · exact yields_pure (page_error _ _)
    · cases pathParts path with
      | none => exact yields_throw _
      | some parts =>
        refine .last fun localName => ?_
        cases localName with
        | none => exact yields_pure (page_error _ _)
        | some localName =>
          exact (createChildVariablesFromIterable_bounded api lib r fuel _ pagination).bind
            fun rc h => .last fun _ => yields_pure h

theorem populateGlobalVariables_bounded (fuel : Nat) (path : Bytes)
    (pagination : PaginationInfo) :
    Yields (BoundedPage pagination.count.toNat)
      (populateGlobalVariables api lib r fuel path pagination) := by
  unfold populateGlobalVariables
  split
  · exact yields_throw _
  · rename_i parts _
    refine .last fun _ => ?_
    exact (createChildVariablesFromIterable_bounded api lib r fuel parts pagination).bind
      fun rc h => .last fun _ => yields_pure h

end

end Sdb.L4
