import Sdb.Core.LTS
import Mathlib.Data.List.Nodup
import Mathlib.Logic.Function.Basic

/-!
# Broadcasts by several senders

Each sender gives its messages, one after the other, to every receiver of a list. The
rounds of different senders interleave; receivers come and go while nobody sends.

* `feed_conserves`: what a receiver has got of a sender's messages, and the one it is
  still owed, are those the sender started while the receiver was there, in their order;
* `feed_perm`: when nobody sends, a receiver has got each message started while it was
  there exactly once.
-/
namespace Sdb

structure Feed (I R A : Type*) where
  receivers : List R := []
  /-- The message of the sender, and how many receivers have got it. -/
  sending : I → Option (A × Nat) := fun _ => none
  inbox : R → List (I × A) := fun _ => []

inductive FeedLbl (I R A : Type*) where
  | start (i : I) (m : A)
  | give (i : I)
  | finish (i : I)
  | join (r : R)
  | leave (r : R)

namespace Feed

variable {I R A : Type*} [DecidableEq I] [DecidableEq R]

inductive Step : Feed I R A → FeedLbl I R A → Feed I R A → Prop where
  | start {s : Feed I R A} {i : I} {m : A} : s.sending i = none →
      Step s (.start i m) { s with sending := Function.update s.sending i (some (m, 0)) }
  | give {s : Feed I R A} {i : I} {m : A} {k : Nat} {r : R} : s.sending i = some (m, k) →
      s.receivers[k]? = some r →
      Step s (.give i) { s with
        sending := Function.update s.sending i (some (m, k + 1))
        inbox := Function.update s.inbox r (s.inbox r ++ [(i, m)]) }
  | finish {s : Feed I R A} {i : I} {m : A} : s.sending i = some (m, s.receivers.length) →
      Step s (.finish i) { s with sending := Function.update s.sending i none }
  | join {s : Feed I R A} {r : R} : (∀ i, s.sending i = none) → r ∉ s.receivers →
      Step s (.join r) { s with receivers := s.receivers ++ [r] }
  | leave {s : Feed I R A} (r : R) : (∀ i, s.sending i = none) →
      Step s (.leave r) { s with receivers := s.receivers.erase r }

def lts : LTS (Feed I R A) (FeedLbl I R A) where
  init s := s = {}
  step := Step

/-! ## What a receiver is due -/

/-- Whether the receiver is there, and what was started while it was. -/
def follow (r : R) (p : Bool × List (I × A)) : FeedLbl I R A → Bool × List (I × A)
  | .start i m => if p.1 then (p.1, p.2 ++ [(i, m)]) else p
  | .join r' => if r' = r then (true, p.2) else p
  | .leave r' => if r' = r then (false, p.2) else p
  | .give _ | .finish _ => p

/-- The messages started while the receiver was there. -/
def due (r : R) (ls : List (FeedLbl I R A)) : List (I × A) := (ls.foldl (follow r) (false, [])).2

/-- The message of a sender that the receiver has not got yet. -/
def owed (s : Feed I R A) (i : I) (r : R) : List (I × A) :=
  match s.sending i with
  | some (m, k) => if r ∈ s.receivers.drop k then [(i, m)] else []
  | none => []

/-- What comes from the sender. -/
def by_ (i : I) (l : List (I × A)) : List (I × A) := l.filter fun p => p.1 = i

theorem by_append (i : I) (l l' : List (I × A)) : by_ i (l ++ l') = by_ i l ++ by_ i l' :=
  List.filter_append ..

theorem by_self (i : I) (m : A) : by_ i [(i, m)] = [(i, m)] := by simp [by_]

theorem by_other {i j : I} (h : j ≠ i) (m : A) : by_ i [(j, m)] = [] := by simp [by_, h]

structure Follows (r : R) (s : Feed I R A) (p : Bool × List (I × A)) : Prop where
  nodup : s.receivers.Nodup
  here : p.1 = true ↔ r ∈ s.receivers
  conserved : ∀ i, by_ i p.2 = by_ i (s.inbox r) ++ s.owed i r

variable {s s' : Feed I R A} {r : R} {p : Bool × List (I × A)}

omit [DecidableEq I] in
theorem owed_idle {i : I} (h : s.sending i = none) : s.owed i r = [] := by
  unfold owed
  rw [h]

omit [DecidableEq I] in
theorem owed_sending {i : I} {m : A} {k : Nat} (h : s.sending i = some (m, k)) :
    s.owed i r = if r ∈ s.receivers.drop k then [(i, m)] else [] := by
  unfold owed
  rw [h]

omit [DecidableEq I] in
/-- What another sender owes. -/
theorem owed_congr {i : I} (hs : s'.sending i = s.sending i)
    (hr : s'.receivers = s.receivers) : s'.owed i r = s.owed i r := by
  unfold owed
  rw [hs, hr]

theorem follows_start {i : I} {m : A} (hi : Follows r s p) (h : s.sending i = none)
    (hr : s'.receivers = s.receivers)
    (hs : s'.sending = Function.update s.sending i (some (m, 0))) (hb : s'.inbox = s.inbox) :
    Follows r s' (follow r p (.start i m)) := by
  have howed : ∀ j, s'.owed j r =
      if j = i then (if r ∈ s.receivers then [(i, m)] else []) else s.owed j r := by
    intro j
    by_cases hj : j = i
    · subst hj
      rw [if_pos rfl, owed_sending (m := m) (k := 0) (by simp [hs]), hr, List.drop_zero]
    · rw [if_neg hj]
      exact owed_congr (by simp [hs, hj]) hr
  by_cases hmem : r ∈ s.receivers
  · have hp : follow r p (.start i m) = (p.1, p.2 ++ [(i, m)]) := by
      simp [follow, hi.here.mpr hmem]
    rw [hp]
    refine ⟨hr ▸ hi.nodup, hr ▸ hi.here, fun j => ?_⟩
    rw [howed, by_append, hi.conserved, hb]
    by_cases hj : j = i
    · subst hj
      simp [by_self, owed_idle h, hmem]
    · simp [by_other (Ne.symm hj), hj]
  · have hp : follow r p (.start i m) = p := by
      have hnot : p.1 ≠ true := fun he => hmem (hi.here.mp he)
      simp [follow, hnot]
    rw [hp]
    refine ⟨hr ▸ hi.nodup, hr ▸ hi.here, fun j => ?_⟩
    rw [howed, hi.conserved, hb]
    by_cases hj : j = i
    · subst hj
      simp [owed_idle h, hmem]
    · simp [hj]

theorem follows_give {i : I} {m : A} {k : Nat} {r₀ : R} (hi : Follows r s p)
    (h : s.sending i = some (m, k)) (hr₀ : s.receivers[k]? = some r₀)
    (hr : s'.receivers = s.receivers)
    (hs : s'.sending = Function.update s.sending i (some (m, k + 1)))
    (hb : s'.inbox = Function.update s.inbox r₀ (s.inbox r₀ ++ [(i, m)])) : Follows r s' p := by
  obtain ⟨hlt, hget⟩ := List.getElem?_eq_some_iff.mp hr₀
  have hdrop : s.receivers.drop k = r₀ :: s.receivers.drop (k + 1) := by
    rw [List.drop_eq_getElem_cons hlt, hget]
  have hnot : r₀ ∉ s.receivers.drop (k + 1) := by
    have hnodup := hi.nodup.sublist (List.drop_sublist k s.receivers)
    rw [hdrop] at hnodup
    exact (List.nodup_cons.mp hnodup).1
  refine ⟨hr ▸ hi.nodup, hr ▸ hi.here, fun j => ?_⟩
  rw [hi.conserved, hb]
  by_cases hj : j = i
  · subst hj
    rw [owed_sending h, hdrop, owed_sending (m := m) (k := k + 1) (by simp [hs]), hr]
    by_cases heq : r = r₀
    · subst heq
      simp [by_append, by_self, hnot]
    · simp [heq]
  · rw [owed_congr (by simp [hs, hj]) hr]
    by_cases heq : r = r₀
    · subst heq
      simp [by_append, by_other (Ne.symm hj)]
    · simp [heq]

theorem follows_finish {i : I} {m : A} (hi : Follows r s p)
    (h : s.sending i = some (m, s.receivers.length)) (hr : s'.receivers = s.receivers)
    (hs : s'.sending = Function.update s.sending i none) (hb : s'.inbox = s.inbox) :
    Follows r s' p := by
  refine ⟨hr ▸ hi.nodup, hr ▸ hi.here, fun j => ?_⟩
  rw [hi.conserved, hb]
  by_cases hj : j = i
  · subst hj
    rw [owed_sending h, owed_idle (s := s') (by simp [hs])]
    simp
  · rw [owed_congr (by simp [hs, hj]) hr]

/-- Receivers come and go while nobody is owed anything. -/
theorem follows_receivers {b : Bool} (hi : Follows r s p)
    (h : ∀ i, s.sending i = none) (hs : s'.sending = s.sending) (hb : s'.inbox = s.inbox)
    (hnodup : s'.receivers.Nodup) (hhere : b = true ↔ r ∈ s'.receivers) :
    Follows r s' (b, p.2) := by
  refine ⟨hnodup, hhere, fun j => ?_⟩
  rw [hi.conserved, hb, owed_idle (h j), owed_idle (s := s') (by rw [hs]; exact h j)]

theorem follows_step {l : FeedLbl I R A} (hi : Follows r s p) (h : Step s l s') :
    Follows r s' (follow r p l) := by
  cases h with
  | start h => exact follows_start hi h rfl rfl rfl
  | give h hr => exact follows_give hi h hr rfl rfl rfl
  | finish h => exact follows_finish hi h rfl rfl rfl
  | @join r' h hr' =>
    have hnodup : (s.receivers ++ [r']).Nodup :=
      List.nodup_append.mpr ⟨hi.nodup, List.nodup_singleton _, fun a ha b hb he =>
        hr' (List.mem_singleton.mp hb ▸ he ▸ ha)⟩
    by_cases hr : r' = r
    · subst hr
      rw [show follow r' p (.join r') = (true, p.2) from if_pos rfl]
      exact follows_receivers hi h rfl rfl hnodup (by simp)
    · have hb : p.1 = true ↔ r ∈ s.receivers ++ [r'] := by
        rw [hi.here]
        simp [Ne.symm hr]
      rw [show follow r p (.join r') = (p.1, p.2) from if_neg hr]
      exact follows_receivers hi h rfl rfl hnodup hb
  | leave r' h =>
    have hnodup := hi.nodup.erase r'
    by_cases hr : r' = r
    · subst hr
      have hb : false = true ↔ r' ∈ s.receivers.erase r' := by
        rw [hi.nodup.mem_erase_iff]
        simp
      rw [show follow r' p (.leave r') = (false, p.2) from if_pos rfl]
      exact follows_receivers hi h rfl rfl hnodup hb
    · have hb : p.1 = true ↔ r ∈ s.receivers.erase r' := by
        rw [hi.here, hi.nodup.mem_erase_iff]
        simp [Ne.symm hr]
      rw [show follow r p (.leave r') = (p.1, p.2) from if_neg hr]
      exact follows_receivers hi h rfl rfl hnodup hb

theorem follows_run {ls : List (FeedLbl I R A)} (hi : Follows r s p) (h : lts.Run s ls s') :
    Follows r s' (ls.foldl (follow r) p) := by
  induction h generalizing p with
  | nil => exact hi
  | cons hs _ ih => exact ih (follows_step hi hs)

theorem feed_conserves {ls : List (FeedLbl I R A)} (h : lts.Run {} ls s) (r : R) (i : I) :
    by_ i (due r ls) = by_ i (s.inbox r) ++ s.owed i r := by
  have hfresh : Follows r ({} : Feed I R A) (false, []) :=
    ⟨List.nodup_nil, by simp, fun _ => rfl⟩
  exact (follows_run hfresh h).conserved i

theorem feed_perm [DecidableEq A] {ls : List (FeedLbl I R A)} (h : lts.Run {} ls s)
    (hidle : ∀ i, s.sending i = none) (r : R) : (s.inbox r).Perm (due r ls) := by
  rw [List.perm_iff_count]
  intro ⟨i, m⟩
  have hcount : ∀ l : List (I × A), l.count (i, m) = (by_ i l).count (i, m) := by
    intro l
    rw [by_, List.count_filter (by simp)]
  have hconserved := feed_conserves h r i
  rw [owed_idle (hidle i), List.append_nil] at hconserved
  rw [hcount, hcount (due r ls), hconserved]

end Feed

end Sdb
