import Mathlib.Data.List.Basic

/-!
# Iterating over slots

A container with slots, some of them empty, and an iterator that is a position:
`next slots i` is the first occupied slot at position `i` or after, with the
position after it. `entries slots` lists the occupied slots in order, each with
the iterator value from which it was reached; that is the position after the
slot before, and not the position of the slot itself.

* `walk_entries`: `entries` is what a loop over `next` from 0 meets;
* `entries_values`: every occupied slot is met exactly once, in order;
* `next_of_mem_entries`: the iterator value kept with a slot leads back to it.
-/
namespace Sdb.Slots

variable {α : Type*}

def next : List (Option α) → Nat → Option (α × Nat)
  | [], _ => none
  | some a :: _, 0 => some (a, 1)
  | none :: slots, 0 => (next slots 0).map fun (a, j) => (a, j + 1)
  | _ :: slots, i + 1 => (next slots i).map fun (a, j) => (a, j + 1)

/-- The entries of `slots`, whose first slot has position `p`, from the iterator
value `i`. -/
def scan (i p : Nat) : List (Option α) → List (Nat × α)
  | [] => []
  | none :: slots => scan i (p + 1) slots
  | some a :: slots => (i, a) :: scan (p + 1) (p + 1) slots

def entries (slots : List (Option α)) : List (Nat × α) := scan 0 0 slots

/-- From `i` on the slots before `slots` are empty. -/
theorem next_append_empty (pre slots : List (Option α)) {i : Nat} (hi : i ≤ pre.length)
    (he : ∀ k, i ≤ k → k < pre.length → pre[k]? = some none) :
    next (pre ++ slots) i = (next slots 0).map fun (a, j) => (a, j + pre.length) := by
  induction pre generalizing i with
  | nil =>
    obtain rfl : i = 0 := by simpa using hi
    cases h : next slots 0 <;> simp [h]
  | cons o pre ih =>
    cases i with
    | zero =>
      have ho : o = none := by simpa using he 0 (Nat.le_refl 0) (by simp)
      have hrec := ih (Nat.zero_le _) fun k _ hk => by
        simpa using he (k + 1) (Nat.zero_le _) (by simpa using hk)
      subst ho
      rw [List.cons_append, next, hrec]
      cases next slots 0 <;> simp [Nat.add_assoc]
    | succ i =>
      have hrec := ih (i := i) (by simpa using hi) fun k hk hlt => by
        simpa using he (k + 1) (by omega) (by simpa using hlt)
      have hstep : next ((o :: pre) ++ slots) (i + 1) =
          (next (pre ++ slots) i).map fun (a, j) => (a, j + 1) := by
        cases o <;> rfl
      rw [hstep, hrec]
      cases next slots 0 <;> simp [Nat.add_assoc]

/-- One step of the iteration: the first entry of the scan, and where the scan
goes on. -/
theorem next_scan (pre : List (Option α)) {i : Nat} (hi : i ≤ pre.length)
    (he : ∀ k, i ≤ k → k < pre.length → pre[k]? = some none) (slots : List (Option α)) :
    (next (pre ++ slots) i = none ∧ scan i pre.length slots = []) ∨
      ∃ mid a rest, slots = mid ++ some a :: rest ∧
        next (pre ++ slots) i = some (a, pre.length + mid.length + 1) ∧
        scan i pre.length slots =
          (i, a) :: scan (pre.length + mid.length + 1) (pre.length + mid.length + 1) rest := by
  induction slots generalizing pre with
  | nil =>
    left
    rw [next_append_empty pre [] hi he]
    exact ⟨rfl, rfl⟩
  | cons o slots ih =>
    cases o with
    | some a =>
      right
      refine ⟨[], a, slots, rfl, ?_, rfl⟩
      rw [next_append_empty pre _ hi he]
      simp [next, Nat.add_comm]
    | none =>
      have he' : ∀ k, i ≤ k → k < (pre ++ [none]).length → (pre ++ [none])[k]? = some none := by
        intro k hk hlt
        by_cases h : k < pre.length
        · rw [List.getElem?_append_left h]
          exact he k hk h
        · obtain rfl : k = pre.length := by simp at hlt; omega
          simp
      have happ : (pre ++ [none]) ++ slots = pre ++ none :: slots := by simp
      rcases ih (pre ++ [none]) (by simp; omega) he' with ⟨h₁, h₂⟩ | ⟨mid, a, rest, h₁, h₂, h₃⟩
      · left
        rw [happ] at h₁
        exact ⟨h₁, by simpa [scan] using h₂⟩
      · right
        refine ⟨none :: mid, a, rest, by rw [h₁]; rfl, ?_, ?_⟩
        · rw [happ] at h₂
          rw [h₂]
          simp [Nat.add_assoc, Nat.add_comm 1]
        · rw [List.length_append, List.length_singleton] at h₃
          rw [scan, h₃]
          simp [Nat.add_assoc, Nat.add_comm 1]

theorem scan_values (i p : Nat) (slots : List (Option α)) :
    (scan i p slots).map Prod.snd = slots.filterMap id := by
  induction slots generalizing i p with
  | nil => rfl
  | cons o slots ih => cases o <;> simp [scan, ih]

/-- Every occupied slot is met exactly once, in order. -/
theorem entries_values (slots : List (Option α)) :
    (entries slots).map Prod.snd = slots.filterMap id := scan_values 0 0 slots

theorem next_of_mem_scan (pre : List (Option α)) {i : Nat} (hi : i ≤ pre.length)
    (he : ∀ k, i ≤ k → k < pre.length → pre[k]? = some none) (slots : List (Option α))
    {e : Nat × α} (hm : e ∈ scan i pre.length slots) :
    ∃ j, next (pre ++ slots) e.1 = some (e.2, j) := by
  induction slots generalizing pre i with
  | nil => cases hm
  | cons o slots ih =>
    have happ : pre ++ o :: slots = (pre ++ [o]) ++ slots := by simp
    cases o with
    | none =>
      rw [happ]
      refine ih (pre ++ [none]) (i := i) (by simp; omega) ?_ (by simpa [scan] using hm)
      intro k hk hlt
      by_cases h : k < pre.length
      · rw [List.getElem?_append_left h]
        exact he k hk h
      · obtain rfl : k = pre.length := by simp at hlt; omega
        simp
    | some a =>
      rcases List.mem_cons.mp hm with rfl | hm
      · rw [next_append_empty pre _ hi he]
        exact ⟨_, rfl⟩
      · rw [happ]
        refine ih (pre ++ [some a]) (i := pre.length + 1) (by simp) ?_ (by simpa using hm)
        intro k hk hlt
        simp at hlt
        omega

theorem next_of_getElem? {slots : List (Option α)} {i : Nat} {a : α}
    (h : slots[i]? = some (some a)) : next slots i = some (a, i + 1) := by
  induction slots generalizing i with
  | nil => cases h
  | cons o slots ih =>
    cases i with
    | zero =>
      obtain rfl : o = some a := by simpa using h
      rfl
    | succ i =>
      have hrec := ih (by simpa using h)
      cases o <;> simp [next, hrec]

theorem next_lt {slots : List (Option α)} {i j : Nat} {a : α} (h : next slots i = some (a, j)) :
    i < slots.length := by
  induction slots generalizing i j a with
  | nil => cases h
  | cons o slots ih =>
    cases i with
    | zero => simp
    | succ i =>
      have hstep : next (o :: slots) (i + 1) = (next slots i).map fun (a, j) => (a, j + 1) := by
        cases o <;> rfl
      rw [hstep] at h
      obtain ⟨⟨b, k⟩, hb, -⟩ := Option.map_eq_some_iff.mp h
      have := ih hb
      simp
      omega

theorem mem_of_next {slots : List (Option α)} {i j : Nat} {a : α}
    (h : next slots i = some (a, j)) : some a ∈ slots := by
  induction slots generalizing i j a with
  | nil => cases h
  | cons o slots ih =>
    have hrest : ∀ i, (next slots i).map (fun (a, j) => (a, j + 1)) = some (a, j) →
        some a ∈ o :: slots := by
      intro i hi
      obtain ⟨⟨b, k⟩, hb, heq⟩ := Option.map_eq_some_iff.mp hi
      obtain ⟨rfl, -⟩ := Prod.mk.inj heq
      exact List.mem_cons_of_mem _ (ih hb)
    cases i with
    | zero =>
      cases o with
      | none => exact hrest 0 h
      | some b =>
        simp only [next, Option.some.injEq, Prod.mk.injEq] at h
        rw [h.1]
        exact List.mem_cons_self
    | succ i => cases o <;> exact hrest i h

/-- The position of the slot `next` finds. -/
theorem next_position {slots : List (Option α)} {i j : Nat} {a : α}
    (h : next slots i = some (a, j)) : ∃ k, j = k + 1 ∧ i ≤ k ∧ slots[k]? = some (some a) := by
  induction slots generalizing i j a with
  | nil => cases h
  | cons o slots ih =>
    have hrest : ∀ i', (next slots i').map (fun (a, j) => (a, j + 1)) = some (a, j) →
        ∃ k, j = k + 1 ∧ i' + 1 ≤ k ∧ (o :: slots)[k]? = some (some a) := by
      intro i' hi
      obtain ⟨⟨b, j'⟩, hb, heq⟩ := Option.map_eq_some_iff.mp hi
      obtain ⟨rfl, rfl⟩ := Prod.mk.inj heq
      obtain ⟨k, rfl, hle, hk⟩ := ih hb
      exact ⟨k + 1, rfl, by omega, by simpa using hk⟩
    cases i with
    | zero =>
      cases o with
      | none =>
        obtain ⟨k, hj, -, hk⟩ := hrest 0 h
        exact ⟨k, hj, Nat.zero_le k, hk⟩
      | some b =>
        simp only [next, Option.some.injEq, Prod.mk.injEq] at h
        obtain ⟨rfl, rfl⟩ := h
        exact ⟨0, rfl, Nat.le_refl 0, rfl⟩
    | succ i => cases o <;> exact hrest i h

/-- With a slot's content replaced, the same slots are found at the same positions. -/
theorem next_set {slots : List (Option α)} {i p j : Nat} {a b : α} (c : α)
    (hslot : slots[i]? = some (some b)) (h : next slots p = some (a, j)) :
    next (slots.set i (some c)) p = some (if j = i + 1 then c else a, j) := by
  induction slots generalizing i p j a with
  | nil => cases hslot
  | cons o slots ih =>
    have hrest : ∀ {i' p'}, slots[i']? = some (some b) →
        (next slots p').map (fun (a, j) => (a, j + 1)) = some (a, j) →
        (next (slots.set i' (some c)) p').map (fun (a, j) => (a, j + 1)) =
          some (if j = i' + 1 + 1 then c else a, j) := by
      intro i' p' hslot' hmap
      obtain ⟨⟨a', j'⟩, hnext, heq⟩ := Option.map_eq_some_iff.mp hmap
      obtain ⟨rfl, rfl⟩ := Prod.mk.inj heq
      rw [ih hslot' hnext]
      simp
    cases i with
    | zero =>
      obtain rfl : o = some b := by simpa using hslot
      cases p with
      | zero =>
        obtain ⟨rfl, rfl⟩ : b = a ∧ 1 = j := by simpa [next] using h
        rfl
      | succ p =>
        obtain ⟨⟨a', j'⟩, hnext, heq⟩ := Option.map_eq_some_iff.mp h
        obtain ⟨rfl, rfl⟩ := Prod.mk.inj heq
        obtain ⟨k, rfl, -, -⟩ := next_position hnext
        simp [next, hnext]
    | succ i =>
      have hslot' : slots[i]? = some (some b) := by simpa using hslot
      cases p with
      | zero =>
        cases o with
        | none => exact hrest hslot' h
        | some a' =>
          obtain ⟨rfl, rfl⟩ : a' = a ∧ 1 = j := by simpa [next] using h
          simp [next]
      | succ p => cases o <;> exact hrest hslot' h

/-- What a loop over `next` meets from `i` on, with the iterator value before
each entry. -/
inductive Walk (slots : List (Option α)) : Nat → List (Nat × α) → Prop where
  | done {i : Nat} (h : next slots i = none) : Walk slots i []
  | step {i j : Nat} {a : α} {es : List (Nat × α)} (h : next slots i = some (a, j))
      (hes : Walk slots j es) : Walk slots i ((i, a) :: es)

theorem walk_scan (pre slots : List (Option α)) {i : Nat} (hi : i ≤ pre.length)
    (he : ∀ k, i ≤ k → k < pre.length → pre[k]? = some none) :
    Walk (pre ++ slots) i (scan i pre.length slots) := by
  induction hn : slots.length using Nat.strongRecOn generalizing pre slots i with
  | _ n ih =>
    rcases next_scan pre hi he slots with ⟨h₁, h₂⟩ | ⟨mid, a, rest, rfl, h₂, h₃⟩
    · rw [h₂]
      exact .done h₁
    · have happ : pre ++ (mid ++ some a :: rest) = (pre ++ mid ++ [some a]) ++ rest := by simp
      have hlen : (pre ++ mid ++ [some a]).length = pre.length + mid.length + 1 := by
        simp
        omega
      have hrec := ih rest.length (by simp at hn; omega) (pre ++ mid ++ [some a]) rest
        (Nat.le_refl _) (fun k hk hlt => absurd hlt (by omega)) rfl
      rw [hlen, ← happ] at hrec
      rw [h₃]
      exact .step h₂ hrec

theorem walk_entries (slots : List (Option α)) : Walk slots 0 (entries slots) :=
  walk_scan [] slots (Nat.zero_le _) fun _ _ h => absurd h (by simp)

/-- The entries from iterator value `i` on. -/
def entriesFrom (slots : List (Option α)) (i : Nat) : List (Nat × α) := scan i i (slots.drop i)

theorem walk_entriesFrom (slots : List (Option α)) (i : Nat) :
    Walk slots i (entriesFrom slots i) := by
  by_cases hi : i ≤ slots.length
  · have hlen : (slots.take i).length = i := List.length_take_of_le hi
    have hwalk := walk_scan (slots.take i) (slots.drop i) (i := i) (by omega)
      fun k hk hlt => absurd hlt (by omega)
    rwa [List.take_append_drop, hlen] at hwalk
  · have hdrop : slots.drop i = [] := List.drop_of_length_le (by omega)
    rw [entriesFrom, hdrop]
    refine .done ?_
    cases hn : next slots i with
    | none => rfl
    | some p => exact absurd (next_lt hn) (by omega)

theorem Walk.next_of_mem {slots : List (Option α)} {i : Nat} {es : List (Nat × α)}
    (hw : Walk slots i es) {e : Nat × α} (he : e ∈ es) : ∃ j, next slots e.1 = some (e.2, j) := by
  induction hw with
  | done h => cases he
  | step h hes ih =>
    rcases List.mem_cons.mp he with rfl | he
    · exact ⟨_, h⟩
    · exact ih he

/-- The rest of a loop is a loop from the next entry's iterator value. -/
theorem Walk.suffix {slots : List (Option α)} {i : Nat} {front rest : List (Nat × α)}
    {e : Nat × α} (hw : Walk slots i (front ++ e :: rest)) : Walk slots e.1 (e :: rest) := by
  induction front generalizing i with
  | nil =>
    cases hw with
    | step h hes => exact .step h hes
  | cons e' front ih =>
    cases hw with
    | step h hes => exact ih hes

/-- The iterator value kept with a slot leads back to it. -/
theorem next_of_mem_entries {slots : List (Option α)} {e : Nat × α} (hm : e ∈ entries slots) :
    ∃ j, next slots e.1 = some (e.2, j) :=
  next_of_mem_scan [] (Nat.zero_le _) (fun _ _ h => absurd h (by simp)) slots hm

/-- A loop over `next` has one way to go. -/
theorem Walk.unique {slots : List (Option α)} {i : Nat} {es es' : List (Nat × α)}
    (hw : Walk slots i es) (hw' : Walk slots i es') : es = es' := by
  induction hw generalizing es' with
  | done h =>
    cases hw' with
    | done _ => rfl
    | step h' _ =>
      rw [h] at h'
      cases h'
  | step h hes ih =>
    cases hw' with
    | done h' =>
      rw [h] at h'
      cases h'
    | step h' hes' =>
      rw [h, Option.some.injEq, Prod.mk.injEq] at h'
      obtain ⟨rfl, rfl⟩ := h'
      rw [ih hes']

/-- From the iterator value kept with an entry the iteration starts with that entry. -/
theorem entriesFrom_of_next {slots : List (Option α)} {i j : Nat} {a : α}
    (h : next slots i = some (a, j)) :
    entriesFrom slots i = (i, a) :: entriesFrom slots j :=
  (walk_entriesFrom slots i).unique (.step h (walk_entriesFrom slots j))

/-! ## A slot's content replaced -/

theorem set_set_self {slots : List (Option α)} {k : Nat} {b : α} (c : α)
    (hslot : slots[k]? = some (some b)) :
    (slots.set k (some c)).set k (some b) = slots := by
  rw [List.set_set]
  obtain ⟨hlt, hget⟩ := List.getElem?_eq_some_iff.mp hslot
  rw [← hget]
  exact List.set_getElem_self hlt

theorem next_set_none {slots : List (Option α)} {k p : Nat} {b : α} (c : α)
    (hslot : slots[k]? = some (some b)) (h : next slots p = none) :
    next (slots.set k (some c)) p = none := by
  cases hnext : next (slots.set k (some c)) p with
  | none => rfl
  | some found =>
    have hlt := (List.getElem?_eq_some_iff.mp hslot).1
    have hback := next_set b (List.getElem?_set_self hlt) hnext
    rw [set_set_self c hslot, h] at hback
    cases hback

/-- An entry, with the content of slot `k` replaced. -/
def replaceAt (slots : List (Option α)) (k : Nat) (c : α) (e : Nat × α) : Nat × α :=
  (e.1, if (next slots e.1).map Prod.snd = some (k + 1) then c else e.2)

theorem replaceAt_eq {slots : List (Option α)} {k j : Nat} {c : α} {e : Nat × α}
    (h : next slots e.1 = some (e.2, j)) :
    replaceAt slots k c e = (e.1, if j = k + 1 then c else e.2) := by
  rw [replaceAt, h]
  simp

theorem Walk.set {slots : List (Option α)} {k i : Nat} {b : α} {es : List (Nat × α)} (c : α)
    (hslot : slots[k]? = some (some b)) (hw : Walk slots i es) :
    Walk (slots.set k (some c)) i (es.map (replaceAt slots k c)) := by
  induction hw with
  | done h => exact .done (next_set_none c hslot h)
  | @step i j a es h hes ih =>
    rw [List.map_cons, replaceAt_eq h]
    exact .step (next_set c hslot h) ih

theorem entries_set {slots : List (Option α)} {k : Nat} {b : α} (c : α)
    (hslot : slots[k]? = some (some b)) :
    entries (slots.set k (some c)) = (entries slots).map (replaceAt slots k c) :=
  (walk_entries _).unique ((walk_entries slots).set c hslot)

theorem entriesFrom_set {slots : List (Option α)} {k : Nat} {b : α} (c : α)
    (hslot : slots[k]? = some (some b)) (i : Nat) :
    entriesFrom (slots.set k (some c)) i = (entriesFrom slots i).map (replaceAt slots k c) :=
  (walk_entriesFrom _ i).unique ((walk_entriesFrom slots i).set c hslot)

end Sdb.Slots
