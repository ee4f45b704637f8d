import Mathlib.Data.List.Basic
import Mathlib.Data.List.Induction

/-!
# Labelled transition systems

States `S`, labels `L`, a set of initial states and a step relation. A
property of every reachable state is proved through an inductive invariant
(`Inductive.reachable`); a property of a stretch of a run that only takes
some of the labels through `Run.invariant`, which carries a predicate along
the run under a side condition on each label.

`Through P s ls s'` says that some state of the run `s --ls--> s'`, its two
ends included, satisfies `P`. `ofStep` builds the system of a partial step function.
-/
namespace Sdb

structure LTS (S L : Type*) where
  init : S → Prop
  step : S → L → S → Prop

namespace LTS

variable {S L : Type*} (M : LTS S L)

inductive Run : S → List L → S → Prop where
  | nil (s : S) : Run s [] s
  | cons {s t s' : S} {l : L} {ls : List L} : M.step s l t → Run t ls s' → Run s (l :: ls) s'

def Reachable (s : S) : Prop := ∃ s₀ ls, M.init s₀ ∧ M.Run s₀ ls s

structure Inductive (I : S → Prop) : Prop where
  init : ∀ s, M.init s → I s
  step : ∀ s l s', I s → M.step s l s' → I s'

/-- The steps of `M` whose source state and label satisfy `A`. -/
def restrict (A : S → L → Prop) : LTS S L where
  init := M.init
  step s l s' := M.step s l s' ∧ A s l

variable {M}

theorem Run.single {s s' : S} {l : L} (h : M.step s l s') : M.Run s [l] s' := .cons h (.nil _)

theorem Run.append {s t u : S} {l₁ l₂ : List L} (h₁ : M.Run s l₁ t) (h₂ : M.Run t l₂ u) :
    M.Run s (l₁ ++ l₂) u := by
  induction h₁ with
  | nil => exact h₂
  | cons hs _ ih => exact .cons hs (ih h₂)

theorem Run.split {s u : S} {l₁ l₂ : List L} (h : M.Run s (l₁ ++ l₂) u) :
    ∃ t, M.Run s l₁ t ∧ M.Run t l₂ u := by
  induction l₁ generalizing s with
  | nil => exact ⟨s, .nil s, h⟩
  | cons l ls ih =>
    obtain _ | ⟨hs, hr⟩ := h
    obtain ⟨t, h₁, h₂⟩ := ih hr
    exact ⟨t, .cons hs h₁, h₂⟩

/-- A predicate kept by every step whose label satisfies `A` is kept by a run
all of whose labels do. -/
theorem Run.invariant {s s' : S} {ls : List L} (h : M.Run s ls s') (A : L → Prop) (I : S → Prop)
    (hA : ∀ l ∈ ls, A l) (h₀ : I s) (hstep : ∀ t l t', A l → I t → M.step t l t' → I t') :
    I s' := by
  induction h with
  | nil => exact h₀
  | @cons s t s' l ls hs _ ih =>
    have hl : A l := hA l List.mem_cons_self
    exact ih (fun l' hl' => hA l' (List.mem_cons_of_mem _ hl')) (hstep s l t hl h₀ hs)

/-- A property of the labels so far and the state reached, kept by each step of the run. -/
theorem along {P : List L → S → Prop} {s : S} {ls : List L} (h₀ : P [] s)
    (hstep : ∀ l₁ l l₂ t u, ls = l₁ ++ l :: l₂ → M.Run s l₁ t → P l₁ t → M.step t l u →
      P (l₁ ++ [l]) u) :
    ∀ l₁ l₂ u, ls = l₁ ++ l₂ → M.Run s l₁ u → P l₁ u := by
  intro l₁
  induction l₁ using List.reverseRecOn with
  | nil =>
    intro l₂ u _ hr
    obtain _ | _ := hr
    exact h₀
  | append_singleton l₁ l ih =>
    intro l₂ u hls hr
    obtain ⟨t, h₁, h₂⟩ := hr.split
    obtain _ | ⟨hs, hnil⟩ := h₂
    obtain _ | _ := hnil
    have hls' : ls = l₁ ++ l :: l₂ := by rw [hls, List.append_assoc]; rfl
    exact hstep l₁ l l₂ t u hls' h₁ (ih (l :: l₂) t hls' h₁) hs

/-- Where runs are bounded, one of them cannot go on. -/
theorem exists_stuck {s : S} {b : ℕ} (hb : ∀ ls t, M.Run s ls t → ls.length ≤ b) :
    ∃ ls t, M.Run s ls t ∧ ∀ l u, ¬ M.step t l u := by
  have hleft : ∀ k ls t, M.Run s ls t → b ≤ ls.length + k →
      ∃ ls t, M.Run s ls t ∧ ∀ l u, ¬ M.step t l u := by
    intro k
    induction k with
    | zero =>
      intro ls t hr hle
      refine ⟨ls, t, hr, fun l u hs => ?_⟩
      have hlen := hb _ _ (hr.append (.single hs))
      simp at hlen
      omega
    | succ k ih =>
      intro ls t hr hle
      by_cases hstep : ∃ l u, M.step t l u
      · obtain ⟨l, u, hs⟩ := hstep
        exact ih _ u (hr.append (.single hs)) (by simp; omega)
      · exact ⟨ls, t, hr, fun l u hs => hstep ⟨l, u, hs⟩⟩
  exact hleft b [] s (.nil s) (Nat.le_add_left _ _)

theorem Inductive.run {I : S → Prop} (hI : M.Inductive I) {s s' : S} {ls : List L}
    (h : M.Run s ls s') (h₀ : I s) : I s' :=
  h.invariant (fun _ => True) I (fun _ _ => trivial) h₀ fun t l t' _ ht hs => hI.step t l t' ht hs

theorem Inductive.reachable {I : S → Prop} (hI : M.Inductive I) (s : S) (h : M.Reachable s) :
    I s := by
  obtain ⟨s₀, ls, hi, hr⟩ := h
  exact hI.run hr (hI.init s₀ hi)

theorem Reachable.run {s s' : S} {ls : List L} (h : M.Reachable s) (hr : M.Run s ls s') :
    M.Reachable s' := by
  obtain ⟨s₀, l₀, hi, h₀⟩ := h
  exact ⟨s₀, l₀ ++ ls, hi, h₀.append hr⟩

theorem Run.of_restrict {A : S → L → Prop} {s s' : S} {ls : List L}
    (h : (M.restrict A).Run s ls s') : M.Run s ls s' := by
  induction h with
  | nil => exact .nil _
  | cons hs _ ih => exact .cons hs.1 ih

/-- What a restriction that only reads labels says about a run. -/
theorem Run.labels {A : L → Prop} {s s' : S} {ls : List L}
    (h : (M.restrict fun _ l => A l).Run s ls s') : ∀ l ∈ ls, A l := by
  induction h with
  | nil => simp
  | cons hs _ ih => exact List.forall_mem_cons.mpr ⟨hs.2, ih⟩

theorem Reachable.of_restrict {A : S → L → Prop} {s : S} (h : (M.restrict A).Reachable s) :
    M.Reachable s := by
  obtain ⟨s₀, ls, hi, hr⟩ := h
  exact ⟨s₀, ls, hi, hr.of_restrict⟩

/-- A run all of whose steps satisfy `A`, each at the state it is taken from. -/
theorem Run.restrict {A : S → L → Prop} {s s' : S} {ls : List L} (h : M.Run s ls s')
    (hA : ∀ l₁ l l₂ t, ls = l₁ ++ l :: l₂ → M.Run s l₁ t → A t l) :
    (M.restrict A).Run s ls s' := by
  induction h with
  | nil => exact .nil _
  | @cons s t s' l ls hs _ ih =>
    refine .cons ⟨hs, hA [] l ls s rfl (.nil s)⟩ (ih fun l₁ l' l₂ u hls hr => ?_)
    exact hA (l :: l₁) l' l₂ u (by rw [hls]; rfl) (.cons hs hr)

/-! ## A record kept beside the state -/

/-- `M` with a record of the run: `observe` reads the state before a step and its
label. -/
def track {G : Type*} (M : LTS S L) (g₀ : G) (observe : S → L → G → G) : LTS (S × G) L where
  init p := M.init p.1 ∧ p.2 = g₀
  step p l p' := M.step p.1 l p'.1 ∧ p'.2 = observe p.1 l p.2

/-- Keeping the record forbids no run. -/
theorem Run.track {G : Type*} {observe : S → L → G → G} {s s' : S} {ls : List L}
    (h : M.Run s ls s') (g₀ g : G) : ∃ g', (M.track g₀ observe).Run (s, g) ls (s', g') := by
  induction h generalizing g with
  | nil => exact ⟨g, .nil _⟩
  | @cons s t s' l ls hs _ ih =>
    obtain ⟨g', hr⟩ := ih (observe s l g)
    exact ⟨g', .cons ⟨hs, rfl⟩ hr⟩

/-- Every reachable state is reached with some record. -/
theorem Reachable.track {G : Type*} {s : S} (h : M.Reachable s) (g₀ : G)
    (observe : S → L → G → G) : ∃ g, (M.track g₀ observe).Reachable (s, g) := by
  obtain ⟨s₀, ls, hi, hr⟩ := h
  obtain ⟨g, hr'⟩ : ∃ g, (M.track g₀ observe).Run (s₀, g₀) ls (s, g) := hr.track g₀ g₀
  exact ⟨g, (s₀, g₀), ls, ⟨hi, rfl⟩, hr'⟩

/-! ## Systems whose labels fix the step -/

variable (M) in
/-- The label and the state before a step determine the state after it. -/
def Functional : Prop := ∀ s l t t', M.step s l t → M.step s l t' → t = t'

theorem Run.unique (hM : M.Functional) {s t t' : S} {ls : List L} (h : M.Run s ls t)
    (h' : M.Run s ls t') : t = t' := by
  induction h with
  | nil =>
    obtain _ | _ := h'
    rfl
  | cons hs _ ih =>
    obtain _ | ⟨hs', hr'⟩ := h'
    obtain rfl := hM _ _ _ _ hs hs'
    exact ih hr'

theorem Functional.restrict (hM : M.Functional) (A : S → L → Prop) :
    (M.restrict A).Functional := fun s l t t' h h' => hM s l t t' h.1 h'.1

theorem Functional.track {G : Type*} (hM : M.Functional) (g₀ : G) (observe : S → L → G → G) :
    (M.track g₀ observe).Functional := by
  intro p l q q' h h'
  exact Prod.ext (hM p.1 l q.1 q'.1 h.1 h'.1) (h.2.trans h'.2.symm)

/-- A step that satisfies `A` keeps the invariant, any other step leads to `Bad`, which
no step leaves: a run ends outside `Bad` exactly when each of its steps satisfies `A`. -/
theorem Run.avoids_iff (hM : M.Functional) {I Bad : S → Prop} {A : S → L → Prop}
    (hkeep : ∀ s l s', I s → M.step s l s' → A s l → I s')
    (hbad : ∀ s l s', I s → M.step s l s' → ¬ A s l → Bad s')
    (habsorb : ∀ s l s', Bad s → M.step s l s' → Bad s') (hI : ∀ s, I s → ¬ Bad s)
    {s s' : S} {ls : List L} (h : M.Run s ls s') (h₀ : I s) :
    ¬ Bad s' ↔ ∀ l₁ l l₂ t, ls = l₁ ++ l :: l₂ → M.Run s l₁ t → A t l := by
  induction h with
  | nil s =>
    refine iff_of_true (hI s h₀) fun l₁ l l₂ t hls => ?_
    simp at hls
  | @cons s t s' l ls hs hr ih =>
    by_cases hA : A s l
    · rw [ih (hkeep s l t h₀ hs hA)]
      constructor
      · intro hall l₁ l' l₂ u hls hu
        cases hu with
        | nil =>
          obtain rfl : l = l' := (List.cons.inj hls).1
          exact hA
        | @cons _ t' _ l'' l₁ hs' hu =>
          obtain ⟨rfl, rfl⟩ := List.cons.inj hls
          obtain rfl := hM _ _ _ _ hs hs'
          exact hall l₁ l' l₂ u rfl hu
      · intro hall l₁ l' l₂ u hls hu
        exact hall (l :: l₁) l' l₂ u (by rw [hls]; rfl) (.cons hs hu)
    · refine iff_of_false (fun hnot => hnot ?_) fun hall => hA (hall [] l ls s rfl (.nil s))
      exact hr.invariant (fun _ => True) Bad (fun _ _ => trivial) (hbad s l t h₀ hs hA)
        fun _ _ _ _ hu hstep => habsorb _ _ _ hu hstep

/-- What a restricted run says about each of its steps. -/
theorem Run.restrict_at (hM : M.Functional) {A : S → L → Prop} {s s' t : S} {l₁ l₂ : List L}
    {l : L} (h : (M.restrict A).Run s (l₁ ++ l :: l₂) s') (hr : M.Run s l₁ t) : A t l := by
  obtain ⟨u, h₁, h₂⟩ := h.split
  obtain _ | ⟨hs, -⟩ := h₂
  obtain rfl := h₁.of_restrict.unique hM hr
  exact hs.2

/-! ## States met along a run -/

/-- Some state of the run from `s` to `s'` along `ls` satisfies `P`. -/
def Through (M : LTS S L) (P : S → Prop) (s : S) (ls : List L) (s' : S) : Prop :=
  ∃ l₁ l₂ t, ls = l₁ ++ l₂ ∧ M.Run s l₁ t ∧ P t ∧ M.Run t l₂ s'

theorem through_nil {P : S → Prop} {s s' : S} (h : M.Through P s [] s') : P s' := by
  obtain ⟨l₁, l₂, t, he, -, hp, h₂⟩ := h
  obtain ⟨-, rfl⟩ := List.append_eq_nil_iff.mp he.symm
  obtain _ | _ := h₂
  exact hp

/-! ## Systems given by a partial step function -/

/-- The system of a partial step function. -/
def ofStep (init : S → Prop) (f : S → L → Option S) : LTS S L where
  init := init
  step s l s' := f s l = some s'

theorem ofStep_functional (init : S → Prop) (f : S → L → Option S) :
    (ofStep init f).Functional := by
  intro s l t t' h h'
  exact Option.some.inj (h.symm.trans h')

theorem run_of_foldlM {init : S → Prop} {f : S → L → Option S} {s s' : S} {ls : List L}
    (h : ls.foldlM f s = some s') : (ofStep init f).Run s ls s' := by
  induction ls generalizing s with
  | nil =>
    obtain rfl := Option.some.inj h
    exact .nil s
  | cons l ls ih =>
    rw [List.foldlM_cons, Option.bind_eq_bind, Option.bind_eq_some_iff] at h
    obtain ⟨t, hs, hr⟩ := h
    exact .cons hs (ih hr)

/-- The same of steps that are checked as they are taken. -/
theorem restrict_of_foldlM {init : S → Prop} {f : S → L → Option S} {A : S → L → Prop}
    [∀ s l, Decidable (A s l)] {s s' : S} {ls : List L}
    (h : ls.foldlM (fun s l => if A s l then f s l else none) s = some s') :
    ((ofStep init f).restrict A).Run s ls s' := by
  induction ls generalizing s with
  | nil =>
    obtain rfl := Option.some.inj h
    exact .nil s
  | cons l ls ih =>
    rw [List.foldlM_cons, Option.bind_eq_bind, Option.bind_eq_some_iff] at h
    obtain ⟨t, hs, hr⟩ := h
    split at hs
    · exact .cons ⟨hs, ‹_›⟩ (ih hr)
    · cases hs

end LTS

end Sdb
