import Mathlib.Data.Fintype.Card
import Mathlib.Data.Set.Finite.Basic
import Mathlib.Logic.Relation

/-!
# Recursion along the edges of a finite graph

`r v w` when the recursion on `v` calls itself on `w`. It ends from `v` when `v`
is accessible; on a finite graph that is so exactly if no cycle can be reached
from `v` (`acc_iff_no_cycle`).
-/
namespace Sdb.Reach

open Relation

variable {α : Type*} {r : α → α → Prop}

/-- From `v` one comes to an object that comes back to itself. -/
def ReachesCycle (r : α → α → Prop) (v : α) : Prop :=
  ∃ w, ReflTransGen r v w ∧ TransGen r w w

theorem acc_of_reaches {v w : α} (h : Acc (flip r) v) (hw : ReflTransGen r v w) :
    Acc (flip r) w := by
  induction hw with
  | refl => exact h
  | tail _ hstep ih => exact ih.inv hstep

theorem no_cycle_of_acc {v : α} (h : Acc (flip r) v) : ¬ReachesCycle r v := by
  rintro ⟨w, hw, hcycle⟩
  have hirrefl : ∀ u, Acc (TransGen (flip r)) u → ¬TransGen (flip r) u u := by
    intro u hu
    induction hu with
    | intro u _ ih => exact fun hback => ih u hback hback
  exact hirrefl w (acc_of_reaches h hw).transGen (transGen_swap.mpr hcycle)

theorem acc_of_no_cycle {S : Set α} (hfin : S.Finite)
    (hclosed : ∀ v ∈ S, ∀ w, r v w → w ∈ S) {v : α} (hv : v ∈ S) (hno : ¬ReachesCycle r v) :
    Acc (flip r) v := by
  let R := {w : α // ReflTransGen r v w}
  have hsub : ∀ w, ReflTransGen r v w → w ∈ S := by
    intro w hw
    induction hw with
    | refl => exact hv
    | tail _ hstep ih => exact hclosed _ ih _ hstep
  have : Finite R := Set.Finite.subset hfin fun w hw => hsub w hw
  let below : R → R → Prop := fun a b => TransGen r b.1 a.1
  have : IsTrans R below := ⟨fun _ _ _ h₁ h₂ => h₂.trans h₁⟩
  have : Std.Irrefl below := ⟨fun a ha => hno ⟨a.1, a.2, ha⟩⟩
  have hwf := Finite.wellFounded_of_trans_of_irrefl below
  have hacc : ∀ a : R, Acc (flip r) a.1 := by
    intro a
    induction a using hwf.induction with
    | _ a ih => exact ⟨_, fun w hw => ih ⟨w, a.2.tail hw⟩ (.single hw)⟩
  exact hacc ⟨v, .refl⟩

theorem acc_iff_no_cycle {S : Set α} (hfin : S.Finite)
    (hclosed : ∀ v ∈ S, ∀ w, r v w → w ∈ S) {v : α} (hv : v ∈ S) :
    Acc (flip r) v ↔ ¬ReachesCycle r v :=
  ⟨no_cycle_of_acc, acc_of_no_cycle hfin hclosed hv⟩

end Sdb.Reach
