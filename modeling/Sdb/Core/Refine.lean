import Sdb.Core.LTS

/-!
# Refinement by a function

`abs` maps the states of `M` to those of `N`, and `ρ` its labels to labels of `N` or,
where a step of `M` is nothing to `N`, to `none`. `M.Refines N I abs ρ`: on states with
the invariant `I`, each step of `M` is the step of `N` its label stands for.

* `Refines.run`: a run of `M` is a run of `N` with the labels that are left;
* `Refines.reachable`: an invariant of `N` holds of what a reachable state stands for.

`M.Simulates R`: a step from a state is matched, under the same label, from every state
related to it.

* `Simulates.run`, `Simulates.runs_iff`: so is a run; states related both ways take the
  same runs.

`M.Realizes N ρ A R`: a step of `N` whose label is in `A` is all that `ρ` shows of some run
of `M`. Each such run may use up something; `R n` relates states that are good for `n` more.

* `Realizes.run`: a run of `N` is what is seen of a run of `M`.
-/
namespace Sdb.LTS

variable {S L T K : Type*}

/-- What a step of `M` from `s` to `s'` is to `N`. -/
def Matches (N : LTS T K) (t : T) (k : Option K) (t' : T) : Prop :=
  match k with
  | some k => N.step t k t'
  | none => t' = t

structure Refines (M : LTS S L) (N : LTS T K) (I : S → Prop) (abs : S → T) (ρ : L → Option K) :
    Prop where
  invariant : M.Inductive I
  init : ∀ s, M.init s → N.init (abs s)
  step : ∀ s l s', I s → M.step s l s' → N.Matches (abs s) (ρ l) (abs s')

variable {M : LTS S L} {N : LTS T K} {I : S → Prop} {abs : S → T} {ρ : L → Option K}

theorem Refines.run (h : M.Refines N I abs ρ) {s s' : S} {ls : List L} (hi : I s)
    (hr : M.Run s ls s') : N.Run (abs s) (ls.filterMap ρ) (abs s') := by
  induction hr with
  | nil => exact .nil _
  | @cons s t s' l ls hs _ ih =>
    have hstep := h.step s l t hi hs
    have hrest := ih (h.invariant.step s l t hi hs)
    unfold Matches at hstep
    cases hl : ρ l with
    | none =>
      rw [hl] at hstep
      rw [List.filterMap_cons_none hl, ← hstep]
      exact hrest
    | some k =>
      rw [hl] at hstep
      rw [List.filterMap_cons_some hl]
      exact .cons hstep hrest

theorem Refines.reachable (h : M.Refines N I abs ρ) {J : T → Prop} (hJ : N.Inductive J) {s : S}
    (hs : M.Reachable s) : J (abs s) := by
  obtain ⟨s₀, ls, hi, hr⟩ := hs
  exact hJ.reachable _ ⟨abs s₀, _, h.init s₀ hi, h.run (h.invariant.init s₀ hi) hr⟩

/-! ## States that are alike -/

/-- The steps of a state are those of the states related to it. -/
def Simulates (M : LTS S L) (R : S → S → Prop) : Prop :=
  ∀ s t l s', R s t → M.step s l s' → ∃ t', M.step t l t' ∧ R s' t'

theorem Simulates.run {R : S → S → Prop} (h : M.Simulates R) {s s' t : S} {ls : List L}
    (hr : M.Run s ls s') (hst : R s t) : ∃ t', M.Run t ls t' ∧ R s' t' := by
  induction hr generalizing t with
  | nil => exact ⟨t, .nil t, hst⟩
  | @cons s u s' l ls hs _ ih =>
    obtain ⟨t₁, hstep, hrel⟩ := h s t l u hst hs
    obtain ⟨t', hrun, hrel'⟩ := ih hrel
    exact ⟨t', .cons hstep hrun, hrel'⟩

theorem Simulates.runs_iff {R : S → S → Prop} (h : M.Simulates R)
    (hsymm : ∀ s t, R s t → R t s) {s t : S} (hst : R s t) (ls : List L) :
    (∃ s', M.Run s ls s') ↔ ∃ t', M.Run t ls t' := by
  constructor
  · intro hr
    obtain ⟨s', hr⟩ := hr
    obtain ⟨t', hrun, -⟩ := h.run hr hst
    exact ⟨t', hrun⟩
  · intro hr
    obtain ⟨t', hr⟩ := hr
    obtain ⟨s', hrun, -⟩ := h.run hr (hsymm s t hst)
    exact ⟨s', hrun⟩

/-! ## Runs that show what is asked for -/

def Realizes (M : LTS S L) (N : LTS T K) (ρ : L → Option K) (A : K → Prop)
    (R : ℕ → S → T → Prop) : Prop :=
  ∀ n s t k t', R (n + 1) s t → N.step t k t' → A k →
    ∃ ls s', M.Run s ls s' ∧ ls.filterMap ρ = [k] ∧ R n s' t'

theorem Realizes.run {A : K → Prop} {R : ℕ → S → T → Prop} (h : M.Realizes N ρ A R) {t t' : T}
    {ks : List K} (hr : N.Run t ks t') (hA : ∀ k ∈ ks, A k) {n : ℕ} {s : S}
    (hst : R (n + ks.length) s t) :
    ∃ ls s', M.Run s ls s' ∧ ls.filterMap ρ = ks ∧ R n s' t' := by
  induction hr generalizing s with
  | nil t => exact ⟨[], s, .nil s, rfl, hst⟩
  | @cons t u t' k ks hstep _ ih =>
    obtain ⟨hk, hks⟩ := List.forall_mem_cons.mp hA
    obtain ⟨l₁, s₁, h₁, hseen₁, hrel⟩ := h _ s t k u hst hstep hk
    obtain ⟨l₂, s', h₂, hseen₂, hrel'⟩ := ih hks hrel
    refine ⟨l₁ ++ l₂, s', h₁.append h₂, ?_, hrel'⟩
    rw [List.filterMap_append, hseen₁, hseen₂]
    rfl

end Sdb.LTS
