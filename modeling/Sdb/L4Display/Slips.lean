import Sdb.L4Display.Balance
import Sdb.L4Display.Runs

/-!
# Renderings that slip

A rendering returns and leaves the stack alone, or it slips: it records a fault,
after which the stack is not what its caller expects, or it does not return. Which
of the two does not depend on what lies below, and no later step takes a fault
back, so what a listing shows tells that each of its renderings was in order
(`Tells.of_gives`).
-/
namespace Sdb.L4

open Sdb.L1 Sdb.L3 Sdb.Exec

section
variable {H : Type} {α β : Type} {h h' h'' : H} {top top' top'' : List SqObject}

/-- No fault is taken back. -/
def Adds (m : VmM H α) : Prop :=
  ∀ s, Ends m s (fun _ t => s.faults.length ≤ t.faults.length)
    fun e t => NoExit e ∨ s.faults.length ≤ t.faults.length

/-- A fault is recorded on every way out. -/
def Slips (m : VmM H α) (h : H) (top : List SqObject) : Prop :=
  ∀ rest faults, Ends m ⟨top ++ rest, h, faults⟩
    (fun _ t => faults.length < t.faults.length)
    fun e t => NoExit e ∨ faults.length < t.faults.length

/-- `m` returns as `P` says, or slips, whatever lies below `top`. -/
def Tells (m : VmM H α) (h : H) (top : List SqObject) (P : α → List SqObject → Prop) : Prop :=
  (∃ a top', P a top' ∧ Gives m h top a h top') ∨ Slips m h top

/-- The stack is left alone. -/
abbrev Steady (m : VmM H α) (h : H) (top : List SqObject) : Prop :=
  Tells m h top fun _ top' => top' = top

theorem Net.adds {G : List Fault → Prop} {n : α → Int} {b : Int} {m : VmM H α}
    (hm : Net G n b m) : Adds m := by
  intro s
  refine (hm s).mono ?_ fun e t he => he.imp_right fun hthrown => Nat.le_of_lt hthrown.2.1
  rintro a t ⟨new, hfaults, -, -⟩
  rw [hfaults, List.length_append]
  omega

theorem Moves.adds {n : α → Int} {m : VmM H α} (hm : Moves n m) : Adds m :=
  (hm.net (G := fun _ => True) (b := 0) trivial).adds

theorem adds_pure (a : α) : Adds (pure a : VmM H α) := fun _ => ends_pure (Nat.le_refl _)

theorem adds_throw (e : Exn) : Adds (throw e : VmM H α) :=
  fun _ => ends_throw (.inr (Nat.le_refl _))

theorem Adds.bind {m : VmM H α} {f : α → VmM H β} (hm : Adds m) (hf : ∀ a, Adds (f a)) :
    Adds (m >>= f) := by
  intro s
  refine (hm s).bind fun a t hle => (hf a t).mono (fun _ u hle' => ?_) fun _ _ he => ?_
  · exact Nat.le_trans hle hle'
  · exact he.imp_right fun hle' => Nat.le_trans hle hle'

theorem slips_throw {e : Exn} (he : NoExit e) : Slips (throw e : VmM H α) h top :=
  fun _ _ => ends_throw (.inl he)

/-- A computation that is accounted for throws with a fault. -/
theorem Throws.slips {G : List Fault → Prop} {n : α → Int} {b : Int} {m : VmM H α}
    (hm : Throws m h top) (hnet : Net G n b m) : Slips m h top := by
  intro rest faults
  obtain ⟨e, t, hrun⟩ := hm rest faults
  have hends := hnet ⟨top ++ rest, h, faults⟩
  unfold Ends at hends ⊢
  rw [hrun] at hends ⊢
  exact hends.imp_right fun hthrown => hthrown.2.1

theorem Slips.bind {m : VmM H α} {f : α → VmM H β} (hm : Slips m h top)
    (hf : ∀ a, Adds (f a)) : Slips (m >>= f) h top := by
  intro rest faults
  refine (hm rest faults).bind fun a t hlt => (hf a t).mono (fun _ u hle => ?_) fun _ _ he => ?_
  · exact Nat.lt_of_lt_of_le hlt hle
  · exact he.imp_right fun hle => Nat.lt_of_lt_of_le hlt hle

theorem Gives.bind_slips {m : VmM H α} {f : α → VmM H β} {a : α}
    (hm : Gives m h top a h' top') (hf : Slips (f a) h' top') : Slips (m >>= f) h top := by
  intro rest faults
  have hend := hf rest faults
  unfold Ends at hend ⊢
  rw [hm.run_bind f rest faults]
  exact hend

theorem Slips.frame {m : VmM H α} (hm : Slips m h top) (more : List SqObject) :
    Slips m h (top ++ more) := by
  intro rest faults
  rw [List.append_assoc]
  exact hm (more ++ rest) faults

theorem Slips.not_gives {m : VmM H α} {a : α} (hm : Slips m h top) :
    ¬ Gives m h top a h' top' := by
  intro hg
  have hlt := (hm [] []).ok (hg [] [])
  exact Nat.lt_irrefl _ hlt

/-! ## Composition -/

theorem Gives.tells {m : VmM H α} {a : α} {P : α → List SqObject → Prop}
    (hm : Gives m h top a h top') (hp : P a top') : Tells m h top P := .inl ⟨a, top', hp, hm⟩

theorem Tells.mono {m : VmM H α} {P Q : α → List SqObject → Prop} (hm : Tells m h top P)
    (hpq : ∀ a top', P a top' → Q a top') : Tells m h top Q := by
  rcases hm with ⟨a, top', hp, hm⟩ | hm
  · exact .inl ⟨a, top', hpq a top' hp, hm⟩
  · exact .inr hm

theorem tells_throw {e : Exn} (he : NoExit e) {P : α → List SqObject → Prop} :
    Tells (throw e : VmM H α) h top P := .inr (slips_throw he)

theorem Tells.bind {m : VmM H α} {f : α → VmM H β} {P : α → List SqObject → Prop}
    {Q : β → List SqObject → Prop} (hm : Tells m h top P) (hadds : ∀ a, Adds (f a))
    (hf : ∀ a top', P a top' → Tells (f a) h top' Q) : Tells (m >>= f) h top Q := by
  rcases hm with ⟨a, top', hp, hm⟩ | hm
  · rcases hf a top' hp with ⟨b, top'', hq, hfa⟩ | hfa
    · exact .inl ⟨b, top'', hq, hm.bind hfa⟩
    · exact .inr (hm.bind_slips hfa)
  · exact .inr (hm.bind hadds)

theorem Gives.bind_tells {m : VmM H α} {f : α → VmM H β} {a : α} {Q : β → List SqObject → Prop}
    (hm : Gives m h top a h top') (hf : Tells (f a) h top' Q) : Tells (m >>= f) h top Q := by
  rcases hf with ⟨b, top'', hq, hfa⟩ | hfa
  · exact .inl ⟨b, top'', hq, hm.bind hfa⟩
  · exact .inr (hm.bind_slips hfa)

theorem Tells.frame {m : VmM H α} (hm : Tells m h top fun _ t => t = top') (more : List SqObject) :
    Tells m h (top ++ more) fun _ t => t = top' ++ more := by
  rcases hm with ⟨a, _, rfl, hm⟩ | hm
  · exact .inl ⟨a, _, rfl, hm.frame more⟩
  · exact .inr (hm.frame more)

theorem Gives.unique {m : VmM H α} {a b : α} (hm : Gives m h top a h' top')
    (hm' : Gives m h top b h'' top'') : a = b := ((hm [] []).unique (hm' [] [])).1

theorem Tells.over {m : VmM H α} {Q : α → Prop} (hm : Tells m h top fun a t => t = top' ∧ Q a)
    (more : List SqObject) : Tells m h (top ++ more) fun a t => t = top' ++ more ∧ Q a := by
  rcases hm with ⟨a, _, ⟨rfl, hq⟩, hm⟩ | hm
  · exact .inl ⟨a, _, ⟨rfl, hq⟩, hm.frame more⟩
  · exact .inr (hm.frame more)

/-- A run that returns in order returns as `P` says. -/
theorem Tells.of_gives {m : VmM H α} {a : α} {P : α → List SqObject → Prop}
    (hm : Tells m h top P) (hg : Gives m h top a h' top') : P a top' := by
  rcases hm with ⟨b, top'', hp, hb⟩ | hslips
  · obtain ⟨rfl, hstate⟩ := (hb [] []).unique (hg [] [])
    simp only [List.append_nil, SqVm.mk.injEq] at hstate
    rw [← hstate.1]
    exact hp
  · exact absurd hg hslips.not_gives

/-- `m` returns and records no fault. -/
def faultless (m : VmM H α) (s : SqVm H) : Bool :=
  match m.run s with
  | .ok _ t => t.faults.length ≤ s.faults.length
  | .error _ _ => false

theorem Tells.exists_gives {m : VmM H α} {P : α → List SqObject → Prop} (hm : Tells m h top P)
    (hok : faultless m ⟨top, h, []⟩ = true) : ∃ a top', P a top' ∧ Gives m h top a h top' := by
  rcases hm with hgives | hslips
  · exact hgives
  · have hend := hslips [] []
    rw [List.append_nil] at hend
    unfold Ends at hend
    unfold faultless at hok
    cases hrun : m.run ⟨top, h, []⟩ with
    | ok a t =>
      rw [hrun] at hend hok
      exact absurd hend (Nat.not_lt.mpr (of_decide_eq_true hok))
    | error e t =>
      rw [hrun] at hok
      cases hok

end

end Sdb.L4
