import Sdb.Core.Reach
import Mathlib.Data.Set.Card
import Mathlib.Data.Set.Finite.Lattice

/-!
# Scanning nested containers

A container is a list of cells: a mark, a link to another container, nothing of
interest, or a cell at which the scan is stuck. The scan goes through the cells in
their order and into each link, and records every mark under a name. At a mark that
is recorded already it leaves the container, whatever comes after it there.

`Scans` is a scan that ends, `Comes` says what a scan comes to.

* `scans_iff`: with finitely many containers a scan ends exactly if it comes to no
  cell at which it is stuck, and to no container on a cycle of links with no mark
  before them;
* `recorded_iff`: which marks are recorded, and under which names.
-/
namespace Sdb.Scan

open Relation Sdb.Reach

inductive Cell (K C V : Type*) where
  | skip
  | stuck
  | mark (k : K) (c : C)
  | link (k : K) (v : V)

variable {K C V N : Type*} [DecidableEq C] (cells : V → List (Cell K C V)) (sub : N → K → N)

/-- From these cells of the container with the name `n` and what is recorded so far,
the scan ends with what is recorded then. -/
inductive Scans : N → List (Cell K C V) → (C → Option N) → (C → Option N) → Prop where
  | done {n : N} {s : C → Option N} : Scans n [] s s
  | skip {n : N} {cs : List (Cell K C V)} {s s' : C → Option N} (h : Scans n cs s s') :
    Scans n (.skip :: cs) s s'
  | leave {n : N} {k : K} {c : C} {cs : List (Cell K C V)} {s : C → Option N}
    (hc : (s c).isSome) : Scans n (.mark k c :: cs) s s
  | record {n : N} {k : K} {c : C} {cs : List (Cell K C V)} {s s' : C → Option N}
    (hc : s c = none) (h : Scans n cs (Function.update s c (some (sub n k))) s') :
    Scans n (.mark k c :: cs) s s'
  | into {n : N} {k : K} {v : V} {cs : List (Cell K C V)} {s s₁ s' : C → Option N}
    (hv : Scans (sub n k) (cells v) s s₁) (h : Scans n cs s₁ s') : Scans n (.link k v :: cs) s s'

/-- The scan comes to these cells of a container, with what is recorded by then. -/
inductive Comes : N → List (Cell K C V) → (C → Option N) →
    N → List (Cell K C V) → (C → Option N) → Prop where
  | here {n : N} {cs : List (Cell K C V)} {s : C → Option N} : Comes n cs s n cs s
  | skip {n n' : N} {cs cs' : List (Cell K C V)} {s s' : C → Option N}
    (h : Comes n cs s n' cs' s') : Comes n (.skip :: cs) s n' cs' s'
  | record {n n' : N} {k : K} {c : C} {cs cs' : List (Cell K C V)} {s s' : C → Option N}
    (hc : s c = none) (h : Comes n cs (Function.update s c (some (sub n k))) n' cs' s') :
    Comes n (.mark k c :: cs) s n' cs' s'
  | into {n n' : N} {k : K} {v : V} {cs cs' : List (Cell K C V)} {s s' : C → Option N}
    (h : Comes (sub n k) (cells v) s n' cs' s') : Comes n (.link k v :: cs) s n' cs' s'
  | after {n n' : N} {k : K} {v : V} {cs cs' : List (Cell K C V)} {s s₁ s' : C → Option N}
    (hv : Scans cells sub (sub n k) (cells v) s s₁) (h : Comes n cs s₁ n' cs' s') :
    Comes n (.link k v :: cs) s n' cs' s'

/-- A link from `v` to `u` that no mark comes before in `v`. -/
def Unguarded (v u : V) : Prop :=
  ∃ pre k post, cells v = pre ++ .link k u :: post ∧ ∀ k c, .mark k c ∉ pre

/-- The scan is stuck nowhere and comes to no container on an unguarded cycle. -/
structure Smooth (n : N) (cs : List (Cell K C V)) (s : C → Option N) : Prop where
  notStuck : ∀ n' cs' s', ¬ Comes cells sub n cs s n' (.stuck :: cs') s'
  noCycle : ∀ n' k v cs' s', Comes cells sub n cs s n' (.link k v :: cs') s' →
    ¬ TransGen (Unguarded cells) v v

variable {cells sub} {n n' : N} {cs cs' : List (Cell K C V)} {s s' s₁ : C → Option N}

/-! ## Scans that end -/

theorem Scans.unique (h : Scans cells sub n cs s s') (h' : Scans cells sub n cs s s₁) :
    s' = s₁ := by
  induction h generalizing s₁ with
  | done =>
    cases h'
    rfl
  | skip _ ih =>
    cases h' with
    | skip h' => exact ih h'
  | leave hc =>
    cases h' with
    | leave _ => rfl
    | record hc' _ => simp [hc'] at hc
  | record hc _ ih =>
    cases h' with
    | leave hc' => simp [hc] at hc'
    | record _ h' => exact ih h'
  | into _ _ ihv ih =>
    cases h' with
    | into hv' h' =>
      obtain rfl := ihv hv'
      exact ih h'

/-- What is recorded stays. -/
theorem Scans.keeps (h : Scans cells sub n cs s s') {c : C} (hc : (s c).isSome) : s' c = s c := by
  induction h with
  | done | leave => rfl
  | skip _ ih => exact ih hc
  | @record n k c' cs s s' hnew _ ih =>
    have hne : c ≠ c' := by
      rintro rfl
      simp [hnew] at hc
    have hold : Function.update s c' (some (sub n k)) c = s c := Function.update_of_ne hne _ _
    rw [← hold]
    exact ih (by rwa [hold])
  | into _ _ ihv ih =>
    have hv := ihv hc
    rw [← hv]
    exact ih (by rwa [hv])

/-- From every point a scan that ends comes to, it ends as well. -/
theorem Comes.scans (h : Comes cells sub n cs s n' cs' s') (hends : Scans cells sub n cs s s₁) :
    ∃ s₁', Scans cells sub n' cs' s' s₁' := by
  induction h generalizing s₁ with
  | here => exact ⟨s₁, hends⟩
  | skip _ ih =>
    cases hends with
    | skip hends => exact ih hends
  | record hc _ ih =>
    cases hends with
    | leave hc' => simp [hc] at hc'
    | record _ hends => exact ih hends
  | into _ ih =>
    cases hends with
    | into hv _ => exact ih hv
  | after hv _ ih =>
    cases hends with
    | into hv' hends =>
      obtain rfl := hv.unique hv'
      exact ih hends

/-- A scan that ends goes down unguarded links only so far. -/
theorem Scans.acc (h : Scans cells sub n cs s s') :
    ∀ pre k u post, cs = pre ++ .link k u :: post → (∀ k c, .mark k c ∉ pre) →
      Acc (flip (Unguarded cells)) u := by
  induction h with
  | done =>
    intro pre k u post hcs
    simp at hcs
  | skip _ ih =>
    intro pre k u post hcs hpre
    cases pre with
    | nil => cases hcs
    | cons x pre =>
      obtain ⟨-, htail⟩ := List.cons.inj hcs
      exact ih pre k u post htail fun k c hm => hpre k c (List.mem_cons_of_mem _ hm)
  | leave | record =>
    intro pre k u post hcs hpre
    cases pre with
    | nil => cases hcs
    | cons x pre =>
      obtain ⟨rfl, -⟩ := List.cons.inj hcs
      exact absurd List.mem_cons_self (hpre _ _)
  | into _ _ ihv ih =>
    intro pre k u post hcs hpre
    cases pre with
    | nil =>
      obtain ⟨heq, -⟩ := List.cons.inj hcs
      cases heq
      refine ⟨_, fun w hw => ?_⟩
      obtain ⟨pre, k, post, hcells, hfree⟩ := hw
      exact ihv pre k w post hcells hfree
    | cons x pre =>
      obtain ⟨-, htail⟩ := List.cons.inj hcs
      exact ih pre k u post htail fun k c hm => hpre k c (List.mem_cons_of_mem _ hm)

theorem Scans.smooth (h : Scans cells sub n cs s s₁) : Smooth cells sub n cs s where
  notStuck := by
    intro n' cs' s' hcomes
    obtain ⟨s₁', hends⟩ := hcomes.scans h
    cases hends
  noCycle := by
    intro n' k v cs' s' hcomes hcycle
    obtain ⟨s₁', hends⟩ := hcomes.scans h
    have hacc := hends.acc [] k v cs' rfl (by simp)
    exact no_cycle_of_acc hacc ⟨v, .refl, hcycle⟩

/-! ## Scans of finitely many containers -/

theorem Smooth.comes (h : Smooth cells sub n cs s)
    (hlift : ∀ n₁ cs₁ s₁, Comes cells sub n' cs' s' n₁ cs₁ s₁ → Comes cells sub n cs s n₁ cs₁ s₁) :
    Smooth cells sub n' cs' s' where
  notStuck n₁ cs₁ s₁ hcomes := h.notStuck n₁ cs₁ s₁ (hlift _ _ _ hcomes)
  noCycle n₁ k v cs₁ s₁ hcomes := h.noCycle n₁ k v cs₁ s₁ (hlift _ _ _ hcomes)

/-- The marks of `M` that are not recorded yet. -/
def unseen (M : Set C) (s : C → Option N) : Set C := {c | c ∈ M ∧ s c = none}

theorem ncard_update_lt {M : Set C} (hM : M.Finite) {c : C} (hc : c ∈ M) (hnew : s c = none)
    (name : N) : (unseen M (Function.update s c (some name))).ncard < (unseen M s).ncard := by
  refine Set.ncard_lt_ncard ?_ (hM.subset fun c hc => hc.1)
  refine ⟨fun c' hc' => ⟨hc'.1, ?_⟩, fun hsub => ?_⟩
  · by_cases heq : c' = c
    · rw [heq]
      exact hnew
    · rw [← hc'.2, Function.update_of_ne heq]
  · have hmem : c ∈ unseen M (Function.update s c (some name)) := hsub ⟨hc, hnew⟩
    simp [unseen] at hmem

def Cell.mark? : Cell K C V → Option C
  | .mark _ c => some c
  | _ => none

variable (cells) in
/-- The marks in the containers of `G`. -/
def marksOf (G : Set V) : Set C := {c | ∃ v ∈ G, ∃ k, .mark k c ∈ cells v}

omit [DecidableEq C] in
theorem marksOf_finite {G : Set V} (hfin : G.Finite) : (marksOf cells G).Finite := by
  refine (hfin.biUnion fun v _ => List.finite_toSet ((cells v).filterMap Cell.mark?)).subset ?_
  intro c hc
  obtain ⟨v, hv, k, hmem⟩ := hc
  exact Set.mem_biUnion hv (List.mem_filterMap.mpr ⟨_, hmem, rfl⟩)

section
variable {G : Set V} (hfin : G.Finite) (hclosed : ∀ v ∈ G, ∀ k u, .link k u ∈ cells v → u ∈ G)

include hfin hclosed

/-- A scan that records something leaves fewer marks to record. -/
theorem Scans.grows (h : Scans cells sub n cs s s') {v : V} (hv : v ∈ G) (hcs : cs <:+ cells v) :
    s' = s ∨ (unseen (marksOf cells G) s').ncard < (unseen (marksOf cells G) s).ncard := by
  induction h generalizing v with
  | done | leave => exact .inl rfl
  | skip _ ih => exact ih hv ((List.suffix_cons _ _).trans hcs)
  | @record n k c cs s s' hc _ ih =>
    have hmark : c ∈ marksOf cells G := ⟨v, hv, k, hcs.subset List.mem_cons_self⟩
    have hlt := ncard_update_lt (marksOf_finite hfin) hmark hc (sub n k)
    rcases ih hv ((List.suffix_cons _ _).trans hcs) with rfl | hrest
    · exact .inr hlt
    · exact .inr (hrest.trans hlt)
  | @into n k u cs s s₁ s' _ _ ihv ih =>
    have hu : u ∈ G := hclosed v hv k u (hcs.subset List.mem_cons_self)
    rcases ihv hu (List.suffix_refl _) with rfl | hlt
    · exact ih hv ((List.suffix_cons _ _).trans hcs)
    · rcases ih hv ((List.suffix_cons _ _).trans hcs) with rfl | hrest
      · exact .inr hlt
      · exact .inr (hrest.trans hlt)

omit [DecidableEq C] in
/-- Unguarded links that lead away from the unguarded cycles lead only so far. -/
theorem acc_offCycles {v : V} (hv : v ∈ G) :
    Acc (flip fun v u => Unguarded cells v u ∧ ¬ TransGen (Unguarded cells) u u) v := by
  refine acc_of_no_cycle hfin (fun v hv u hu => ?_) hv fun hcycle => ?_
  · obtain ⟨⟨pre, k, post, hcells, -⟩, -⟩ := hu
    exact hclosed v hv k u (by simp [hcells])
  · obtain ⟨w, -, hw⟩ := hcycle
    obtain ⟨x, -, hstep⟩ := TransGen.tail'_iff.mp hw
    exact hstep.2 (hw.lift id fun _ _ h => h.1)

/-- The rest of the cells of `v`: a mark was recorded since `s₀`, or the links so far
are unguarded. -/
theorem scans_rest {v : V} (hv : v ∈ G) {s₀ : C → Option N}
    (hless : ∀ u ∈ G, ∀ n s,
      (unseen (marksOf cells G) s).ncard < (unseen (marksOf cells G) s₀).ncard →
      Smooth cells sub n (cells u) s → ∃ s', Scans cells sub n (cells u) s s')
    (hsame : ∀ u, Unguarded cells v u → ¬ TransGen (Unguarded cells) u u → ∀ n,
      Smooth cells sub n (cells u) s₀ → ∃ s', Scans cells sub n (cells u) s₀ s')
    {pre : List (Cell K C V)} (hcells : cells v = pre ++ cs)
    (hs : (s = s₀ ∧ ∀ k c, .mark k c ∉ pre) ∨
      (unseen (marksOf cells G) s).ncard < (unseen (marksOf cells G) s₀).ncard)
    (hsmooth : Smooth cells sub n cs s) : ∃ s', Scans cells sub n cs s s' := by
  induction cs generalizing pre s with
  | nil => exact ⟨s, .done⟩
  | cons x cs ih =>
    have hsplit : cells v = (pre ++ [x]) ++ cs := by simp [hcells]
    have hpre : ∀ {s : C → Option N}, (∀ k c, x ≠ .mark k c) → (s = s₀ ∧ ∀ k c, .mark k c ∉ pre) →
        s = s₀ ∧ ∀ k c, .mark k c ∉ pre ++ [x] := by
      intro s hx hs
      refine ⟨hs.1, fun k c hm => ?_⟩
      rcases List.mem_append.mp hm with hm | hm
      · exact hs.2 k c hm
      · exact hx k c (List.mem_singleton.mp hm).symm
    cases x with
    | skip =>
      have hrest := hsmooth.comes fun _ _ _ h => .skip h
      obtain ⟨s', hends⟩ := ih hsplit (hs.imp_left (hpre (by simp))) hrest
      exact ⟨s', .skip hends⟩
    | stuck => exact absurd .here (hsmooth.notStuck n cs s)
    | mark k c =>
      cases hc : s c with
      | some name => exact ⟨s, .leave (by simp [hc])⟩
      | none =>
        have hmark : c ∈ marksOf cells G := ⟨v, hv, k, by simp [hcells]⟩
        have hlt := ncard_update_lt (marksOf_finite hfin) hmark hc (sub n k)
        have hle : (unseen (marksOf cells G) s).ncard ≤ (unseen (marksOf cells G) s₀).ncard := by
          rcases hs with ⟨rfl, -⟩ | hs
          · exact Nat.le_refl _
          · exact Nat.le_of_lt hs
        have hrest := hsmooth.comes fun _ _ _ h => .record hc h
        obtain ⟨s', hends⟩ := ih hsplit (.inr (Nat.lt_of_lt_of_le hlt hle)) hrest
        exact ⟨s', .record hc hends⟩
    | link k u =>
      have hu : u ∈ G := hclosed v hv k u (by simp [hcells])
      have hinner := hsmooth.comes fun _ _ _ h => .into h
      have hnested : ∃ s₁, Scans cells sub (sub n k) (cells u) s s₁ := by
        rcases hs with ⟨rfl, hfree⟩ | hs
        · exact hsame u ⟨pre, k, cs, hcells, hfree⟩ (hsmooth.noCycle n k u cs s .here) _ hinner
        · exact hless u hu _ s hs hinner
      obtain ⟨s₁, hv₁⟩ := hnested
      have hrest := hsmooth.comes fun _ _ _ h => .after hv₁ h
      have hs₁ : (s₁ = s₀ ∧ ∀ k' c, .mark k' c ∉ pre ++ [.link k u]) ∨
          (unseen (marksOf cells G) s₁).ncard < (unseen (marksOf cells G) s₀).ncard := by
        rcases hv₁.grows hfin hclosed hu (List.suffix_refl _) with rfl | hlt
        · exact hs.imp_left (hpre (by simp))
        · rcases hs with ⟨rfl, -⟩ | hs
          · exact .inr hlt
          · exact .inr (hlt.trans hs)
      obtain ⟨s', hends⟩ := ih hsplit hs₁ hrest
      exact ⟨s', .into hv₁ hends⟩

/-- **When a scan ends.** -/
theorem scans_iff {v : V} (hv : v ∈ G) (n : N) (s : C → Option N) :
    (∃ s', Scans cells sub n (cells v) s s') ↔ Smooth cells sub n (cells v) s := by
  constructor
  · intro h
    obtain ⟨s', hends⟩ := h
    exact hends.smooth
  · -- on the number of marks to record, and on the unguarded links from `v` on
    induction hm : (unseen (marksOf cells G) s).ncard using Nat.strongRecOn generalizing v n s with
    | ind m ihm =>
      have hacc := acc_offCycles hfin hclosed hv
      induction hacc generalizing n with
      | intro v _ ihv =>
        intro hsmooth
        have hall : cells v = [] ++ cells v := rfl
        refine scans_rest hfin hclosed hv ?_ ?_ hall (.inl ⟨rfl, by simp⟩) hsmooth
        · intro u hu n s' hlt hsmooth'
          exact ihm _ (hm ▸ hlt) hu n s' rfl hsmooth'
        · intro u hfree hcycle n' hsmooth'
          obtain ⟨pre, k, post, hcells, hpre⟩ := hfree
          have hu : u ∈ G := hclosed v hv k u (by simp [hcells])
          exact ihv u ⟨⟨pre, k, post, hcells, hpre⟩, hcycle⟩ hu n' hsmooth'

/-- The same for links one after the other. -/
theorem scans_links_iff {links : List (Cell K C V)}
    (hlinks : ∀ x ∈ links, x = .skip ∨ ∃ k, ∃ v ∈ G, x = .link k v) (n : N) (s : C → Option N) :
    (∃ s', Scans cells sub n links s s') ↔ Smooth cells sub n links s := by
  constructor
  · intro h
    obtain ⟨s', hends⟩ := h
    exact hends.smooth
  · intro hsmooth
    induction links generalizing s with
    | nil => exact ⟨s, .done⟩
    | cons x links ih =>
      obtain ⟨hx, hrest⟩ := List.forall_mem_cons.mp hlinks
      rcases hx with rfl | ⟨k, v, hv, rfl⟩
      · obtain ⟨s', hends⟩ := ih hrest s (hsmooth.comes fun _ _ _ h => .skip h)
        exact ⟨s', .skip hends⟩
      · have hinner := hsmooth.comes fun _ _ _ h => .into h
        obtain ⟨s₁, hv₁⟩ := (scans_iff hfin hclosed hv _ s).mpr hinner
        obtain ⟨s', hends⟩ := ih hrest s₁ (hsmooth.comes fun _ _ _ h => .after hv₁ h)
        exact ⟨s', .into hv₁ hends⟩

end

/-! ## What is recorded -/

/-- Along these keys one comes to the mark: through links, and the last is its own. -/
inductive Holds (cells : V → List (Cell K C V)) : List (Cell K C V) → List K → C → Prop where
  | here {cs : List (Cell K C V)} {k : K} {c : C} (h : .mark k c ∈ cs) : Holds cells cs [k] c
  | inside {cs : List (Cell K C V)} {k : K} {v : V} {ks : List K} {c : C} (h : .link k v ∈ cs)
    (hv : Holds cells (cells v) ks c) : Holds cells cs (k :: ks) c

omit [DecidableEq C] in
theorem Holds.cons {ks : List K} {c : C} (h : Holds cells cs ks c) (x : Cell K C V) :
    Holds cells (x :: cs) ks c := by
  cases h with
  | here h => exact .here (List.mem_cons_of_mem x h)
  | inside h hv => exact .inside (List.mem_cons_of_mem x h) hv

/-- A mark that the scan comes to would be recorded under the keys that lead to it. -/
theorem Comes.holds {k : K} {c : C}
    (h : Comes cells sub n cs s n' (.mark k c :: cs') s') :
    ∃ ks, Holds cells cs ks c ∧ sub n' k = ks.foldl sub n := by
  generalize hx : Cell.mark k c :: cs' = x at h
  induction h with
  | here =>
    subst hx
    exact ⟨[k], .here List.mem_cons_self, rfl⟩
  | skip _ ih | record _ _ ih | after _ _ ih =>
    obtain ⟨ks, hks, hname⟩ := ih hx
    exact ⟨ks, hks.cons _, hname⟩
  | @into n n' k' v cs cs' s s' _ ih =>
    obtain ⟨ks, hks, hname⟩ := ih hx
    exact ⟨k' :: ks, .inside List.mem_cons_self hks, hname⟩

theorem Comes.recorded {k : K} {c : C} (h : Comes cells sub n cs s n' (.mark k c :: cs') s')
    (hnew : s' c = none) (hends : Scans cells sub n cs s s₁) : s₁ c = some (sub n' k) := by
  generalize hx : Cell.mark k c :: cs' = x at h
  induction h generalizing s₁ with
  | here =>
    subst hx
    cases hends with
    | leave hc => simp [hnew] at hc
    | record _ hends =>
      have hkeeps := hends.keeps (c := c) (by simp)
      rw [hkeeps, Function.update_self]
  | skip _ ih =>
    cases hends with
    | skip hends => exact ih hnew hends hx
  | record hc _ ih =>
    cases hends with
    | leave hc' => simp [hc] at hc'
    | record _ hends => exact ih hnew hends hx
  | into _ ih =>
    cases hends with
    | into hv hends =>
      have hrec := ih hnew hv hx
      rw [← hrec]
      exact hends.keeps (by simp [hrec])
  | after hv _ ih =>
    cases hends with
    | into hv' hends =>
      obtain rfl := hv.unique hv'
      exact ih hnew hends hx

/-- **What a scan records.** -/
theorem recorded_iff (hends : Scans cells sub n cs s s') {c : C} (hc : s c = none) (name : N) :
    s' c = some name ↔ ∃ n' k cs' s₁, Comes cells sub n cs s n' (.mark k c :: cs') s₁ ∧
      s₁ c = none ∧ name = sub n' k := by
  constructor
  · intro hname
    induction hends with
    | done | leave =>
      rw [hc] at hname
      cases hname
    | skip _ ih =>
      obtain ⟨n', k, cs', s₁, hcomes, hrest⟩ := ih hc hname
      exact ⟨n', k, cs', s₁, .skip hcomes, hrest⟩
    | @record n k c' cs s s' hnew hends ih =>
      by_cases heq : c = c'
      · subst heq
        have hkeeps := hends.keeps (c := c) (by simp)
        rw [hname, Function.update_self] at hkeeps
        exact ⟨n, k, cs, s, .here, hc, Option.some.inj hkeeps⟩
      · obtain ⟨n', k', cs', s₁, hcomes, hrest⟩ :=
          ih (by rwa [Function.update_of_ne heq]) hname
        exact ⟨n', k', cs', s₁, .record hnew hcomes, hrest⟩
    | @into n k v cs s s₁ s' hv hends ihv ih =>
      cases hs₁ : s₁ c with
      | none =>
        obtain ⟨n', k', cs', s₂, hcomes, hrest⟩ := ih hs₁ hname
        exact ⟨n', k', cs', s₂, .after hv hcomes, hrest⟩
      | some name' =>
        have hkeeps := hends.keeps (c := c) (by simp [hs₁])
        obtain ⟨n', k', cs', s₂, hcomes, hrest⟩ := ihv hc (by rw [← hkeeps]; exact hname)
        exact ⟨n', k', cs', s₂, .into hcomes, hrest⟩
  · intro h
    obtain ⟨n', k, cs', s₁, hcomes, hnew, rfl⟩ := h
    exact hcomes.recorded hnew hends

end Sdb.Scan
