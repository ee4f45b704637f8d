import Mathlib.Data.List.Forall2

/-!
# Reading page by page

A source of items answers requests for a page: the items from a position on, at
most `n` of them. A reader goes on until a page is short. It either counts the
items it got (`ReadsBy`), or starts the next page at the last item of the page
before, which it then gets twice and keeps once (`ReadsFrom`).

* `readsBy_iff`, `readsFrom_iff`: where the pages are those of a list, each item
  related to what is answered for it, the reader gets the list.
-/
namespace Sdb.Paged

section
variable {α β P : Type*} {R : α → β → Prop} {K : Prop} {n : Nat}

/-- The reader that counts. -/
inductive ReadsBy (read : Nat → List β → Prop) (n : Nat) : Nat → List β → Prop where
  | last {i : Nat} {xs : List β} (hread : read i xs) (hshort : xs.length < n) :
      ReadsBy read n i xs
  | more {i : Nat} {xs rest : List β} (hread : read i xs) (hfull : xs.length = n)
      (hrest : ReadsBy read n (i + n) rest) : ReadsBy read n i (xs ++ rest)

/-- The reader that starts each page at the last item of the one before: `resume`
is where an item says its page starts. -/
inductive ReadsFrom (read : P → List β → Prop) (resume : β → P) (n : Nat) :
    P → List β → Prop where
  | last {p : P} {xs : List β} (hread : read p xs) (hshort : xs.length < n) :
      ReadsFrom read resume n p xs
  | more {p : P} {xs rest : List β} {x : β} (hread : read p (xs ++ [x]))
      (hfull : (xs ++ [x]).length = n) (hrest : ReadsFrom read resume n (resume x) rest) :
      ReadsFrom read resume n p (xs ++ rest)

/-! ## Related lists, cut in two -/

theorem forall₂_cut {as : List α} {xs : List β} (h : List.Forall₂ R as xs) (n : Nat) :
    List.Forall₂ R (as.take n) (xs.take n) ∧ List.Forall₂ R (as.drop n) (xs.drop n) :=
  ⟨List.forall₂_take n h, List.forall₂_drop n h⟩

theorem forall₂_join {as : List α} {xs ys : List β} {n : Nat}
    (h : List.Forall₂ R (as.take n) xs) (h' : List.Forall₂ R (as.drop n) ys) :
    List.Forall₂ R as (xs ++ ys) := by
  have hjoin : List.Forall₂ R (as.take n ++ as.drop n) (xs ++ ys) := List.rel_append h h'
  rwa [List.take_append_drop] at hjoin

/-- A page that is short is all there is. -/
theorem take_of_short {as : List α} {xs : List β} (h : List.Forall₂ R (as.take n) xs)
    (hshort : xs.length < n) : as.take n = as := by
  have hlen := h.length_eq
  rw [List.length_take] at hlen
  exact List.take_of_length_le (by omega)

/-! ## The reader that counts -/

section
variable {read : Nat → List β → Prop} {all : List α}

theorem ReadsBy.answers
    (hread : ∀ i ≤ all.length, ∀ xs, read i xs ↔ K ∧ List.Forall₂ R ((all.drop i).take n) xs)
    {i : Nat} {xs : List β} (h : ReadsBy read n i xs) (hi : i ≤ all.length) :
    K ∧ List.Forall₂ R (all.drop i) xs := by
  induction h with
  | last hpage hshort =>
    obtain ⟨hk, hpage⟩ := (hread _ hi _).mp hpage
    rw [take_of_short hpage hshort] at hpage
    exact ⟨hk, hpage⟩
  | @more i xs rest hpage hfull _ ih =>
    obtain ⟨hk, hpage⟩ := (hread _ hi _).mp hpage
    have hlen := hpage.length_eq
    rw [List.length_take, List.length_drop] at hlen
    obtain ⟨-, hrest⟩ := ih (by omega)
    rw [← List.drop_drop] at hrest
    exact ⟨hk, forall₂_join hpage hrest⟩

theorem ReadsBy.reads (hn : 0 < n) (hk : K)
    (hread : ∀ i ≤ all.length, ∀ xs, read i xs ↔ K ∧ List.Forall₂ R ((all.drop i).take n) xs)
    {i : Nat} {xs : List β} (hi : i ≤ all.length) (h : List.Forall₂ R (all.drop i) xs) :
    ReadsBy read n i xs := by
  -- on what is still to be read
  induction hm : all.length - i using Nat.strongRecOn generalizing i xs with
  | _ m ih =>
    have hlen := h.length_eq
    rw [List.length_drop] at hlen
    obtain ⟨hfirst, hrest⟩ := forall₂_cut h n
    have hpage := (hread i hi _).mpr ⟨hk, hfirst⟩
    by_cases hshort : xs.length < n
    · rw [List.take_of_length_le (Nat.le_of_lt hshort)] at hpage
      exact .last hpage hshort
    · rw [List.drop_drop] at hrest
      have hnext := ih (all.length - (i + n)) (by omega) (by omega) hrest rfl
      have hmore := ReadsBy.more hpage (by rw [List.length_take]; omega) hnext
      rwa [List.take_append_drop] at hmore

/-- The reader that counts gets the list, from where it starts. -/
theorem readsBy_iff (hn : 0 < n)
    (hread : ∀ i ≤ all.length, ∀ xs, read i xs ↔ K ∧ List.Forall₂ R ((all.drop i).take n) xs)
    {i : Nat} (hi : i ≤ all.length) (xs : List β) :
    ReadsBy read n i xs ↔ K ∧ List.Forall₂ R (all.drop i) xs := by
  constructor
  · intro h
    exact h.answers hread hi
  · intro h
    exact ReadsBy.reads hn h.1 hread hi h.2

end

/-! ## The reader that resumes -/

/-- The last item of a page, and what comes before it. -/
theorem forall₂_last {as : List α} {xs : List β} {x : β}
    (h : List.Forall₂ R (as.take n) (xs ++ [x])) :
    ∃ front a rest, as = front ++ a :: rest ∧ List.Forall₂ R front xs ∧ R a x := by
  have hfront := List.forall₂_take_append _ _ _ h
  have hlast := List.forall₂_drop_append _ _ _ h
  cases hdrop : (as.take n).drop xs.length with
  | nil =>
    rw [hdrop] at hlast
    cases hlast
  | cons a back =>
    rw [hdrop] at hlast
    obtain ⟨ha, hback⟩ := List.forall₂_cons.mp hlast
    obtain rfl := List.forall₂_nil_right_iff.mp hback
    refine ⟨(as.take n).take xs.length, a, as.drop n, ?_, hfront, ha⟩
    calc as = as.take n ++ as.drop n := (List.take_append_drop n as).symm
      _ = ((as.take n).take xs.length ++ [a]) ++ as.drop n := by
        rw [← hdrop, List.take_append_drop xs.length (as.take n)]
      _ = (as.take n).take xs.length ++ a :: as.drop n := by
        rw [List.append_assoc, List.singleton_append]

section
variable {read : P → List β → Prop} {resume : β → P} {items : P → List α} {Valid : P → Prop}

theorem ReadsFrom.answers
    (hread : ∀ p, Valid p → ∀ xs, read p xs ↔ List.Forall₂ R ((items p).take n) xs)
    (hresume : ∀ p, Valid p → ∀ front a rest x, items p = front ++ a :: rest → R a x →
      Valid (resume x) ∧ items (resume x) = a :: rest)
    {p : P} {xs : List β} (h : ReadsFrom read resume n p xs) (hp : Valid p) :
    List.Forall₂ R (items p) xs := by
  induction h with
  | last hpage hshort =>
    have hpage := (hread _ hp _).mp hpage
    rwa [take_of_short hpage hshort] at hpage
  | @more p xs rest x hpage _ _ ih =>
    have hpage := (hread p hp _).mp hpage
    obtain ⟨front, a, back, hitems, hfront, ha⟩ := forall₂_last hpage
    obtain ⟨hvalid, hnext⟩ := hresume p hp front a back x hitems ha
    have hrest := ih hvalid
    rw [hnext] at hrest
    rw [hitems]
    exact List.rel_append hfront hrest

theorem ReadsFrom.reads (hn : 1 < n)
    (hread : ∀ p, Valid p → ∀ xs, read p xs ↔ List.Forall₂ R ((items p).take n) xs)
    (hresume : ∀ p, Valid p → ∀ front a rest x, items p = front ++ a :: rest → R a x →
      Valid (resume x) ∧ items (resume x) = a :: rest)
    {p : P} {xs : List β} (hp : Valid p) (h : List.Forall₂ R (items p) xs) :
    ReadsFrom read resume n p xs := by
  -- on what is still to be read: a page leaves all but its last item behind
  induction hm : (items p).length using Nat.strongRecOn generalizing p xs with
  | _ m ih =>
    have hfirst := List.forall₂_take n h
    have hpage := (hread p hp _).mpr hfirst
    by_cases hshort : xs.length < n
    · rw [List.take_of_length_le (Nat.le_of_lt hshort)] at hpage
      exact .last hpage hshort
    · have hlen : (xs.take n).length = n := List.length_take_of_le (by omega)
      obtain hnil | ⟨ys, x, hys⟩ := List.eq_nil_or_concat (xs.take n)
      · rw [hnil, List.length_nil] at hlen
        omega
      · rw [List.concat_eq_append] at hys
        rw [hys] at hfirst hpage hlen
        have hxs : xs = ys ++ x :: xs.drop n := by
          rw [← List.singleton_append, ← List.append_assoc, ← hys, List.take_append_drop]
        obtain ⟨front, a, back, hitems, hfront, ha⟩ := forall₂_last hfirst
        obtain ⟨hvalid, hnext⟩ := hresume p hp front a back x hitems ha
        have hfrontLen := hfront.length_eq
        have hback : List.Forall₂ R (a :: back) (x :: xs.drop n) := by
          rw [hitems, hxs] at h
          have hdrop := List.forall₂_drop_append _ _ _ h
          rwa [List.drop_left' hfrontLen] at hdrop
        rw [← hnext] at hback
        have hrest := ih (items (resume x)).length (by
          rw [hnext, ← hm, hitems]
          simp only [List.length_append, List.length_cons, List.length_nil] at hlen ⊢
          omega) hvalid hback rfl
        rw [hxs]
        exact .more hpage hlen hrest

/-- The reader that resumes gets the list too. -/
theorem readsFrom_iff (hn : 1 < n)
    (hread : ∀ p, Valid p → ∀ xs, read p xs ↔ List.Forall₂ R ((items p).take n) xs)
    (hresume : ∀ p, Valid p → ∀ front a rest x, items p = front ++ a :: rest → R a x →
      Valid (resume x) ∧ items (resume x) = a :: rest)
    {p : P} (hp : Valid p) (xs : List β) :
    ReadsFrom read resume n p xs ↔ List.Forall₂ R (items p) xs := by
  constructor
  · intro h
    exact h.answers hread hresume hp
  · intro h
    exact ReadsFrom.reads hn hread hresume hp h

end

end

end Sdb.Paged
