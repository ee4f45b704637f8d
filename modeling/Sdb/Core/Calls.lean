import Sdb.Core.LTS
import Mathlib.Logic.Function.Basic

/-!
# Programs that call a shared object

A `Prog` calls an object, goes on with what the call returned, and ends with an
answer; a call that raises ends the program. `Makes p tr q`: `p` makes the calls
`tr` with the results there, and `q` is left.

`pool` runs any number of programs on one object, whose steps may interleave in
any way, also with steps no program takes.

* `makes_bind`: the calls of `p >>= f` are those of `p`, then those of `f`;
* `pool_object`: a run of the pool is a run of the object;
* `pool_makes`: in a run of the pool each program makes its own calls in its own order.
-/
namespace Sdb

inductive Prog (E C R A : Type*) where
  | ret (a : A)
  | throw (e : E)
  | call (c : C) (k : R → Prog E C R A)

namespace Prog

variable {E C R A B : Type*}

def bind (p : Prog E C R A) (f : A → Prog E C R B) : Prog E C R B :=
  match p with
  | .ret a => f a
  | .throw e => .throw e
  | .call c k => .call c fun r => (k r).bind f

/-- What is left when a call has ended in this way. -/
def resume (k : R → Prog E C R A) : Except E R → Prog E C R A
  | .ok r => k r
  | .error e => .throw e

inductive Makes : Prog E C R A → List (C × Except E R) → Prog E C R A → Prop where
  | nil (p : Prog E C R A) : Makes p [] p
  | cons {c : C} {k : R → Prog E C R A} {r : Except E R} {tr : List (C × Except E R)}
      {q : Prog E C R A} : Makes (resume k r) tr q → Makes (.call c k) ((c, r) :: tr) q

theorem Makes.append {p q u : Prog E C R A} {tr₁ tr₂ : List (C × Except E R)}
    (h₁ : Makes p tr₁ q) (h₂ : Makes q tr₂ u) : Makes p (tr₁ ++ tr₂) u := by
  induction h₁ with
  | nil => exact h₂
  | cons _ ih => exact .cons (ih h₂)

theorem makes_ret {a : A} {tr : List (C × Except E R)} {q : Prog E C R A} :
    Makes (.ret a) tr q ↔ tr = [] ∧ q = .ret a := by
  constructor
  · intro h
    obtain _ | _ := h
    exact ⟨rfl, rfl⟩
  · intro h
    obtain ⟨rfl, rfl⟩ := h
    exact .nil _

theorem makes_throw {e : E} {tr : List (C × Except E R)} {q : Prog E C R A} :
    Makes (.throw e) tr q ↔ tr = [] ∧ q = .throw e := by
  constructor
  · intro h
    obtain _ | _ := h
    exact ⟨rfl, rfl⟩
  · intro h
    obtain ⟨rfl, rfl⟩ := h
    exact .nil _

/-- A program that answers after a call had a result of that call. -/
theorem makes_call {c : C} {k : R → Prog E C R A} {tr : List (C × Except E R)} {a : A} :
    Makes (.call c k) tr (.ret a) ↔
      ∃ r tr', tr = (c, .ok r) :: tr' ∧ Makes (k r) tr' (.ret a) := by
  constructor
  · intro h
    cases h with
    | @cons _ _ r tr' _ h =>
      cases r with
      | ok r => exact ⟨r, tr', rfl, h⟩
      | error e =>
        obtain ⟨-, hq⟩ := makes_throw.mp h
        cases hq
  · intro h
    obtain ⟨r, tr', rfl, h⟩ := h
    exact .cons h

theorem makes_bind {p : Prog E C R A} {f : A → Prog E C R B} {tr : List (C × Except E R)}
    {b : B} :
    Makes (p.bind f) tr (.ret b) ↔
      ∃ tr₁ tr₂ a, tr = tr₁ ++ tr₂ ∧ Makes p tr₁ (.ret a) ∧ Makes (f a) tr₂ (.ret b) := by
  constructor
  · intro h
    induction p generalizing tr with
    | ret a => exact ⟨[], tr, a, rfl, .nil _, h⟩
    | throw e =>
      obtain ⟨-, hq⟩ := makes_throw.mp h
      cases hq
    | call c k ih =>
      obtain ⟨r, tr', rfl, hleft⟩ := makes_call.mp h
      obtain ⟨tr₁, tr₂, a, rfl, hp, hf⟩ := ih r hleft
      exact ⟨(c, .ok r) :: tr₁, tr₂, a, rfl, makes_call.mpr ⟨r, tr₁, rfl, hp⟩, hf⟩
  · intro h
    obtain ⟨tr₁, tr₂, a, rfl, hp, hf⟩ := h
    induction p generalizing tr₁ with
    | ret a' =>
      obtain ⟨rfl, ha⟩ := makes_ret.mp hp
      injection ha with ha
      exact ha ▸ hf
    | throw e =>
      obtain ⟨-, hq⟩ := makes_throw.mp hp
      cases hq
    | call c k ih =>
      obtain ⟨r, tr', rfl, hleft⟩ := makes_call.mp hp
      exact makes_call.mpr ⟨r, tr' ++ tr₂, rfl, ih r _ hleft⟩

/-- Every call the program can make satisfies `P`. -/
inductive CallsOnly (P : C → Prop) : Prog E C R A → Prop where
  | ret (a : A) : CallsOnly P (.ret a)
  | throw (e : E) : CallsOnly P (.throw e)
  | call {c : C} {k : R → Prog E C R A} : P c → (∀ r, CallsOnly P (k r)) →
      CallsOnly P (.call c k)

theorem CallsOnly.bind {P : C → Prop} {p : Prog E C R A} {f : A → Prog E C R B}
    (hp : CallsOnly P p) (hf : ∀ a, CallsOnly P (f a)) : CallsOnly P (p.bind f) := by
  induction hp with
  | ret a => exact hf a
  | throw e => exact .throw e
  | call hc _ ih => exact .call hc ih

theorem CallsOnly.made {P : C → Prop} {p q : Prog E C R A} {tr : List (C × Except E R)}
    (hp : CallsOnly P p) (h : Makes p tr q) : ∀ x ∈ tr, P x.1 := by
  induction h with
  | nil => simp
  | @cons c k r tr q _ ih =>
    obtain _ | _ | ⟨hc, hk⟩ := hp
    have hleft : CallsOnly P (resume k r) := by
      cases r with
      | ok r => exact hk r
      | error e => exact .throw e
    intro x hx
    rcases List.mem_cons.mp hx with rfl | hx
    · exact hc
    · exact ih hleft x hx

end Prog

/-! ## Many programs on one object -/

namespace LTS

open Prog

variable {S L I E C R A : Type*} [DecidableEq I]

/-- The object `M` with programs that call it. `answer` reads off a step of `M` which
call it is and how that ended; a step with `none` beside it is nobody's call. -/
def pool (M : LTS S L) (answer : L → Option (C × Except E R))
    (start : (I → Prog E C R A) → Prop) : LTS (S × (I → Prog E C R A)) (L × Option I) where
  init s := M.init s.1 ∧ start s.2
  step s l s' := M.step s.1 l.1 s'.1 ∧
    match l.2 with
    | none => s'.2 = s.2
    | some i => ∃ c k r, answer l.1 = some (c, r) ∧ s.2 i = .call c k ∧
        s'.2 = Function.update s.2 i (resume k r)

/-- The calls of the program `i`. -/
def made (answer : L → Option (C × Except E R)) (i : I) (ls : List (L × Option I)) :
    List (C × Except E R) :=
  ls.filterMap fun l => if l.2 = some i then answer l.1 else none

variable {M : LTS S L} {answer : L → Option (C × Except E R)}
  {start : (I → Prog E C R A) → Prop} {s s' : S × (I → Prog E C R A)}
  {ls : List (L × Option I)}

theorem made_append (i : I) (l₁ l₂ : List (L × Option I)) :
    made answer i (l₁ ++ l₂) = made answer i l₁ ++ made answer i l₂ :=
  List.filterMap_append

theorem pool_object (h : (M.pool answer start).Run s ls s') :
    M.Run s.1 (ls.map Prod.fst) s'.1 := by
  induction h with
  | nil s => exact .nil s.1
  | cons hs _ ih => exact .cons hs.1 ih

/-- What one step does to the program `i`. -/
theorem pool_step_makes {l : L × Option I} (h : (M.pool answer start).step s l s') (i : I) :
    Makes (s.2 i) (made answer i [l]) (s'.2 i) := by
  obtain ⟨l, who⟩ := l
  obtain ⟨-, h⟩ := h
  cases who with
  | none =>
    dsimp only at h
    rw [h]
    exact .nil _
  | some j =>
    obtain ⟨c, k, r, ha, hp, hs'⟩ := h
    rw [hs']
    by_cases hj : j = i
    · subst hj
      rw [hp, Function.update_self]
      simpa [made, ha] using Makes.cons (.nil _)
    · rw [Function.update_of_ne (Ne.symm hj)]
      simpa [made, hj] using Makes.nil _

theorem pool_makes (h : (M.pool answer start).Run s ls s') (i : I) :
    Makes (s.2 i) (made answer i ls) (s'.2 i) := by
  induction h with
  | nil => exact .nil _
  | @cons s t s' l ls hs _ ih =>
    rw [← List.singleton_append, made_append]
    exact (pool_step_makes hs i).append ih

/-- A step with a program beside it is a call of that program. -/
theorem pool_answer {i : I} {l : L} (h : (M.pool answer start).Run s ls s')
    (hl : (l, some i) ∈ ls) : ∃ c r, answer l = some (c, r) ∧ (c, r) ∈ made answer i ls := by
  obtain ⟨l₁, l₂, rfl⟩ := List.append_of_mem hl
  obtain ⟨t, -, h₂⟩ := h.split
  obtain _ | ⟨hs, -⟩ := h₂
  obtain ⟨-, c, k, r, ha, -, -⟩ := hs
  refine ⟨c, r, ha, List.mem_filterMap.mpr ⟨(l, some i), hl, ?_⟩⟩
  rw [if_pos rfl, ha]

/-- A call of `i` in a run, with the step of the object it is. -/
theorem pool_call {i : I} {c : C} {r : Except E R} (h : (M.pool answer start).Run s ls s')
    (hc : (c, r) ∈ made answer i ls) :
    ∃ l₁ l l₂ t u, ls = l₁ ++ (l, some i) :: l₂ ∧ answer l = some (c, r) ∧
      M.Run s.1 (l₁.map Prod.fst) t ∧ M.step t l u ∧ M.Run u (l₂.map Prod.fst) s'.1 := by
  obtain ⟨⟨l, who⟩, hl, hread⟩ := List.mem_filterMap.mp hc
  split at hread
  · rename_i hwho
    obtain rfl : who = some i := hwho
    obtain ⟨l₁, l₂, rfl⟩ := List.append_of_mem hl
    obtain ⟨t, h₁, h₂⟩ := h.split
    obtain _ | ⟨hs, h₂⟩ := h₂
    exact ⟨l₁, l, l₂, _, _, rfl, hread, pool_object h₁, hs.1, pool_object h₂⟩
  · cases hread

end LTS

end Sdb
