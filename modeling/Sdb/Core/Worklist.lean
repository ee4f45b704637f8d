import Sdb.Core.LTS
import Mathlib.Algebra.GroupWithZero.Nat
import Mathlib.Data.List.ReduceOption
import Mathlib.Data.List.Nodup
import Mathlib.Logic.Relation

/-!
# A worklist of nodes that wait for others

`deps` lists the nodes that a node waits for. A round looks at the node on top of
the stack: it pushes those of its `deps` that are not recorded, or, when there are
none, takes the node off and records it under its `key` (`Round`).

A postorder lists the nodes under a node, each after those it waits for, the last
of these first. When no two nodes of a postorder have the same key, the nodes are
recorded in exactly that order.

* `Postorder.before`: in a postorder every node comes after those it waits for;
* `tracks_run`: what is recorded, and how many rounds it takes;
* `run_postorder`: the order of the nodes, and an empty stack when all are recorded.
-/
namespace Sdb.Worklist

variable {α κ : Type*} (deps : α → List α) (key : α → κ)

structure State (α : Type*) where
  stack : List α
  done : List α

section
variable [DecidableEq κ]

/-- The nodes that `x` still waits for. -/
def pending (x : α) (done : List α) : List α :=
  (deps x).filter fun d => key d ∉ done.map key

inductive Round : State α → Option α → State α → Prop
  | waits {x : α} {stack done : List α} (h : pending deps key x done ≠ []) :
    Round ⟨x :: stack, done⟩ none ⟨(pending deps key x done).reverse ++ x :: stack, done⟩
  | records {x : α} {stack done : List α} (h : pending deps key x done = []) :
    Round ⟨x :: stack, done⟩ (some x) ⟨stack, done ++ [x]⟩

def rounds (root : α) : LTS (State α) (Option α) where
  init s := s = ⟨[root], []⟩
  step := Round deps key

end

/-! ## Postorders -/

/-- Every node of the list comes after those it waits for. -/
def Before (l : List α) : Prop := ∀ l₁ x l₂, l = l₁ ++ x :: l₂ → ∀ d ∈ deps x, d ∈ l₁

structure Postorder (order : α → List α) : Prop where
  eq : ∀ x, order x = (deps x).reverse.flatMap order ++ [x]

variable {deps key}

theorem before_nil : Before deps [] := by
  intro l₁ x l₂ h
  simp at h

theorem Before.append {l l' : List α} (h : Before deps l) (h' : Before deps l') :
    Before deps (l ++ l') := by
  intro l₁ x l₂ heq d hd
  rcases List.append_eq_append_iff.mp heq with ⟨as, rfl, hl'⟩ | ⟨bs, rfl, hcons⟩
  · exact List.mem_append_right _ (h' as x l₂ hl' d hd)
  · cases bs with
    | nil =>
      exact absurd (h' [] x l₂ hcons.symm d hd) List.not_mem_nil
    | cons b bs =>
      obtain ⟨rfl, -⟩ := List.cons.inj hcons
      exact h l₁ _ bs rfl d hd

theorem Before.concat {l : List α} {x : α} (h : Before deps l) (hx : ∀ d ∈ deps x, d ∈ l) :
    Before deps (l ++ [x]) := by
  intro l₁ y l₂ heq d hd
  rcases List.eq_nil_or_concat l₂ with rfl | ⟨l₂, z, rfl⟩
  · obtain ⟨rfl, hxy⟩ := List.append_inj' heq rfl
    obtain rfl := List.singleton_inj.mp hxy
    exact hx d hd
  · have heq' : l ++ [x] = (l₁ ++ y :: l₂) ++ [z] := by simpa using heq
    exact h l₁ y l₂ (List.append_inj' heq' rfl).1 d hd

theorem Before.initial {l l' : List α} (h : Before deps l) (hp : l' <+: l) : Before deps l' := by
  obtain ⟨t, rfl⟩ := hp
  intro l₁ x l₂ heq d hd
  exact h l₁ x (l₂ ++ t) (by rw [heq]; simp) d hd

theorem before_flatMap {order : α → List α} {xs : List α}
    (h : ∀ x ∈ xs, Before deps (order x)) : Before deps (xs.flatMap order) := by
  induction xs with
  | nil => exact before_nil
  | cons x xs ih =>
    rw [List.flatMap_cons]
    exact (h x List.mem_cons_self).append (ih fun y hy => h y (List.mem_cons_of_mem _ hy))

namespace Postorder

variable {order : α → List α} (hp : Postorder deps order)
include hp

theorem mem_self (x : α) : x ∈ order x := by
  rw [hp.eq]
  exact List.mem_append_right _ List.mem_cons_self

theorem length_lt {x d : α} (hd : d ∈ deps x) : (order d).length < (order x).length := by
  rw [hp.eq x, List.length_append, List.length_singleton]
  have hsub : (order d).Sublist ((deps x).reverse.flatMap order) :=
    List.sublist_flatten_of_mem (List.mem_map_of_mem (List.mem_reverse.mpr hd))
  exact Nat.lt_succ_of_le hsub.length_le

theorem before (x : α) : Before deps (order x) := by
  induction hn : (order x).length using Nat.strongRecOn generalizing x with
  | ind n ih =>
    rw [hp.eq]
    refine Before.concat (before_flatMap fun d hd => ?_) fun d hd => ?_
    · exact ih _ (hn ▸ hp.length_lt (List.mem_reverse.mp hd)) d rfl
    · exact List.mem_flatMap.mpr ⟨d, List.mem_reverse.mpr hd, hp.mem_self d⟩

/-- A postorder lists what the node waits for, directly or through others. -/
theorem mem_iff {x y : α} :
    y ∈ order x ↔ Relation.ReflTransGen (fun a d => d ∈ deps a) x y := by
  constructor
  · intro hy
    induction hn : (order x).length using Nat.strongRecOn generalizing x with
    | ind n ih =>
      rw [hp.eq] at hy
      rcases List.mem_append.mp hy with hy | hy
      · obtain ⟨d, hd, hyd⟩ := List.mem_flatMap.mp hy
        have hd' := List.mem_reverse.mp hd
        exact .head hd' (ih _ (hn ▸ hp.length_lt hd') hyd rfl)
      · rw [List.mem_singleton.mp hy]
  · intro hr
    induction hr using Relation.ReflTransGen.head_induction_on with
    | refl => exact hp.mem_self _
    | head hd _ ih =>
      rw [hp.eq]
      exact List.mem_append_left _ (List.mem_flatMap.mpr ⟨_, List.mem_reverse.mpr hd, ih⟩)

end Postorder

/-! ## What a run records -/

section
variable [DecidableEq κ] (order : α → List α)

/-- What is still to be recorded for a stack on which some nodes have had the nodes
they wait for pushed over them. -/
def todo (marks : List (α × Bool)) : List α :=
  marks.flatMap fun m => if m.2 then [m.1] else order m.1

/-- The rounds that are left, at most. -/
def weight (marks : List (α × Bool)) : Nat :=
  (marks.map fun m => if m.2 then 1 else 2 * (order m.1).length).sum

/-- After `n` rounds the nodes recorded and those to come make the postorder. -/
def Tracks (root : α) (n : Nat) (s : State α) : Prop :=
  ∃ marks : List (α × Bool), marks.map Prod.fst = s.stack ∧
    s.done ++ todo order marks = order root ∧ n + weight order marks ≤ 2 * (order root).length

variable {order} {root : α} {n : Nat} {s s' : State α}

theorem todo_append (marks marks' : List (α × Bool)) :
    todo order (marks ++ marks') = todo order marks ++ todo order marks' :=
  List.flatMap_append

theorem weight_append (marks marks' : List (α × Bool)) :
    weight order (marks ++ marks') = weight order marks + weight order marks' := by
  simp [weight]

/-- Nodes that are pushed are to be recorded with all they wait for. -/
theorem todo_fresh (xs : List α) :
    todo order (xs.map fun x => (x, false)) = xs.flatMap order := by
  simp [todo, List.flatMap_map]

theorem weight_fresh (xs : List α) :
    weight order (xs.map fun x => (x, false)) = 2 * (xs.flatMap order).length := by
  induction xs with
  | nil => rfl
  | cons x xs ih =>
    simp only [weight, List.map_cons, List.sum_cons, List.flatMap_cons, List.length_append] at ih ⊢
    rw [ih]
    simp
    omega

/-- A node whose turn has come waits for nothing. -/
theorem pending_turn {x : α} {done rest : List α} (hb : Before deps (order root))
    (h : done ++ x :: rest = order root) : pending deps key x done = [] := by
  unfold pending
  rw [List.filter_eq_nil_iff]
  intro d hd
  simp only [decide_not, Bool.not_eq_true', decide_eq_false_iff_not, not_not]
  exact List.mem_map_of_mem (hb done x rest h.symm d hd)

/-- A node that was just pushed waits for all it depends on. -/
theorem pending_fresh {x : α} {done rest : List α} (hp : Postorder deps order)
    (hn : ((order root).map key).Nodup) (h : done ++ (order x ++ rest) = order root) :
    pending deps key x done = deps x := by
  unfold pending
  rw [List.filter_eq_self]
  intro d hd
  have hmem : d ∈ order x := by
    rw [hp.eq]
    exact List.mem_append_left _
      (List.mem_flatMap.mpr ⟨d, List.mem_reverse.mpr hd, hp.mem_self d⟩)
  rw [← h, List.map_append, List.nodup_append] at hn
  simp only [decide_eq_true_eq]
  intro hdone
  have hrest : key d ∈ (order x ++ rest).map key :=
    List.mem_map_of_mem (List.mem_append_left _ hmem)
  exact hn.2.2 _ hdone _ hrest rfl

theorem tracks_step {l : Option α} (hp : Postorder deps order)
    (hn : ((order root).map key).Nodup) (hi : Tracks order root n s)
    (h : Round deps key s l s') : Tracks order root (n + 1) s' ∧ s'.done = s.done ++ l.toList := by
  obtain ⟨marks, hmarks, horder, hweight⟩ := hi
  have hb : Before deps (order root) := hp.before root
  cases h with
  | @waits x stack done hne =>
    refine ⟨?_, (List.append_nil done).symm⟩
    obtain _ | ⟨⟨y, waiting⟩, marks⟩ := marks
    · cases hmarks
    · obtain ⟨rfl, hrest⟩ := List.cons.inj hmarks
      cases waiting with
      | true => exact absurd (pending_turn hb horder) hne
      | false =>
        have hpend : pending deps key y done = deps y := pending_fresh hp hn horder
        refine ⟨(deps y).reverse.map (fun d => (d, false)) ++ (y, true) :: marks, ?_, ?_, ?_⟩
        · rw [hpend]
          simp [hrest, Function.comp_def]
        · have heq : todo order ((y, false) :: marks) = order y ++ todo order marks := rfl
          have htrue : todo order ((y, true) :: marks) = [y] ++ todo order marks := rfl
          rw [todo_append, todo_fresh, htrue, ← List.append_assoc _ [y], ← hp.eq, ← heq]
          exact horder
        · have hlen : (order y).length = ((deps y).reverse.flatMap order).length + 1 := by
            rw [hp.eq y, List.length_append, List.length_singleton]
          have hfalse : weight order ((y, false) :: marks) =
              2 * (order y).length + weight order marks := by simp [weight]
          have htrue : weight order ((y, true) :: marks) = 1 + weight order marks := by
            simp [weight]
          rw [weight_append, weight_fresh, htrue]
          rw [hfalse] at hweight
          omega
  | @records x stack done hnil =>
    refine ⟨?_, rfl⟩
    obtain _ | ⟨⟨y, waiting⟩, marks⟩ := marks
    · cases hmarks
    · obtain ⟨rfl, hrest⟩ := List.cons.inj hmarks
      cases waiting with
      | true =>
        refine ⟨marks, hrest, ?_, ?_⟩
        · have htrue : todo order ((y, true) :: marks) = [y] ++ todo order marks := rfl
          rw [List.append_assoc, ← htrue]
          exact horder
        · have htrue : weight order ((y, true) :: marks) = 1 + weight order marks := by
            simp [weight]
          rw [htrue] at hweight
          omega
      | false =>
        have hleaf : deps y = [] :=
          (pending_fresh hp hn horder).symm.trans hnil
        have hself : order y = [y] := by
          rw [hp.eq, hleaf]
          rfl
        refine ⟨marks, hrest, ?_, ?_⟩
        · have heq : todo order ((y, false) :: marks) = order y ++ todo order marks := rfl
          rw [List.append_assoc, ← hself, ← heq]
          exact horder
        · have hfalse : weight order ((y, false) :: marks) =
              2 * (order y).length + weight order marks := by simp [weight]
          rw [hfalse, hself] at hweight
          simp only [List.length_singleton] at hweight
          omega

theorem tracks_run {ls : List (Option α)} (hp : Postorder deps order)
    (hn : ((order root).map key).Nodup) (hi : Tracks order root n s)
    (h : (rounds deps key root).Run s ls s') :
    Tracks order root (n + ls.length) s' ∧ s'.done = s.done ++ ls.reduceOption := by
  induction h generalizing n with
  | nil => exact ⟨hi, (List.append_nil _).symm⟩
  | @cons s t s' l ls hs _ ih =>
    obtain ⟨hi', hdone⟩ := tracks_step hp hn hi hs
    obtain ⟨hlast, hdone'⟩ := ih hi'
    refine ⟨by simpa [Nat.add_assoc, Nat.add_comm 1] using hlast, ?_⟩
    rw [hdone', hdone, List.append_assoc]
    cases l <;> rfl

/-- **The nodes are recorded in postorder.** -/
theorem run_postorder {ls : List (Option α)} (hp : Postorder deps order)
    (hn : ((order root).map key).Nodup) (h : (rounds deps key root).Run ⟨[root], []⟩ ls s) :
    s.done = ls.reduceOption ∧ s.done <+: order root ∧ ls.length ≤ 2 * (order root).length ∧
      (s.stack = [] → s.done = order root) ∧ (root ∈ s.done → s.stack = []) := by
  have hstart : Tracks order root 0 ⟨[root], []⟩ :=
    ⟨[(root, false)], rfl, by simp [todo], by simp [weight]⟩
  obtain ⟨⟨marks, hmarks, horder, hweight⟩, hdone⟩ := tracks_run hp hn hstart h
  refine ⟨hdone, ⟨_, horder⟩, by omega, ?_, ?_⟩
  · intro hempty
    obtain rfl : marks = [] := List.map_eq_nil_iff.mp (hmarks.trans hempty)
    rw [← horder]
    exact (List.append_nil _).symm
  · intro hroot
    have hnodup : (order root).Nodup := List.Nodup.of_map key hn
    rw [← horder, List.nodup_append] at hnodup
    cases marks with
    | nil => exact hmarks.symm
    | cons m marks =>
      -- the root comes last, so it would have to be recorded twice
      have hne : todo order (m :: marks) ≠ [] := by
        have hm : (if m.2 then [m.1] else order m.1) ≠ [] := by
          split
          · simp
          · exact List.ne_nil_of_mem (hp.mem_self m.1)
        intro hnil
        exact hm (List.append_eq_nil_iff.mp hnil).1
      have hlast : (order root).getLast? = some root := by rw [hp.eq]; simp
      rw [← horder, List.getLast?_append_of_ne_nil _ hne] at hlast
      exact absurd rfl (hnodup.2.2 root hroot root (List.mem_of_getLast? hlast))

end

end Sdb.Worklist
