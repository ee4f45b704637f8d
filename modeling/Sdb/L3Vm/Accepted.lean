import Sdb.L3Vm.Parse
import Mathlib.Data.List.TakeDrop

/-!
# What the parser accepts

* `Rooted`: the shape of an accepted expression: the first node of a chain has no
  accessor expression, and every accessor expression is a chain of its own that
  is not empty;
* `string_round`: what one round of `ReadString` comes to;
* `parseWatch_rooted`: every accepted text has that shape;
* `parseWatch_fuel`: the bound of `parseWatch` is never used up.
-/
namespace Sdb.L3

open Sdb.L1

mutual

/-- A chain. -/
def Rooted : ExpressionNode → Prop
  | .null => False
  | .node _ _ accessor next => accessor = .null ∧ Suffixes next

/-- The nodes of a chain after the first. -/
def Suffixes : ExpressionNode → Prop
  | .null => True
  | .node _ _ accessor next =>
    (accessor = .null ∨ (accessor.type ≠ .undefined ∧ Rooted accessor)) ∧ Suffixes next

end

/-- A node after the first. -/
def SuffixLink (l : Link) : Prop :=
  l.accessorExpression = .null ∨
    (l.accessorExpression.type ≠ .undefined ∧ Rooted l.accessorExpression)

/-- The nodes parsed so far make a chain. -/
def Linked : List Link → Link → Prop
  | [], current => current.accessorExpression = .null
  | first :: done, current =>
    first.accessorExpression = .null ∧ (∀ l ∈ done, SuffixLink l) ∧ SuffixLink current

theorem suffixes_chain {ls : List Link} (h : ∀ l ∈ ls, SuffixLink l) : Suffixes (chain ls) := by
  induction ls with
  | nil => trivial
  | cons l ls ih =>
    exact ⟨h l List.mem_cons_self, ih fun l' hl' => h l' (List.mem_cons_of_mem _ hl')⟩

theorem Linked.rooted {done : List Link} {current : Link} (h : Linked done current) :
    Rooted (chain (done ++ [current])) := by
  cases done with
  | nil => exact ⟨h, trivial⟩
  | cons first done =>
    obtain ⟨hfirst, hdone, hcurrent⟩ := h
    refine ⟨hfirst, suffixes_chain fun l hl => ?_⟩
    rcases List.mem_append.mp hl with hl | hl
    · exact hdone l hl
    · exact List.mem_singleton.mp hl ▸ hcurrent

/-- A finished node and a new one. -/
theorem Linked.push {done : List Link} {current next : Link} (h : Linked done current)
    (hn : SuffixLink next) : Linked (done ++ [current]) next := by
  cases done with
  | nil => exact ⟨h, by simp, hn⟩
  | cons first done =>
    obtain ⟨hfirst, hdone, hcurrent⟩ := h
    refine ⟨hfirst, fun l hl => ?_, hn⟩
    rcases List.mem_append.mp hl with hl | hl
    · exact hdone l hl
    · exact List.mem_singleton.mp hl ▸ hcurrent

/-- The type and the value of the current node do not matter. -/
theorem Linked.set {done : List Link} {current : Link} (h : Linked done current)
    (type : ExpressionNodeType) (value : Bytes) :
    Linked done { current with type := type, accessorValue := value } := by
  cases done with
  | nil => exact h
  | cons first done => exact h

/-! ## One round of `ReadString` -/

theorem simpleEscape_hex {letter : UInt8} {size maxDigits : Nat}
    (h : (letter, size, maxDigits) ∈ [((120 : UInt8), 2, 2), (117, 4, 8), (85, 8, 8)]) :
    simpleEscape letter = none := by
  simp only [List.mem_cons, Prod.mk.injEq, List.not_mem_nil, or_false] at h
  rcases h with ⟨rfl, -⟩ | ⟨rfl, -⟩ | ⟨rfl, -⟩ <;> rfl

/-- The bounds belong to the letter. -/
theorem hexLetter_unique {letter : UInt8} {size maxDigits size' maxDigits' : Nat}
    (h : (letter, size, maxDigits) ∈ [((120 : UInt8), 2, 2), (117, 4, 8), (85, 8, 8)])
    (h' : (letter, size', maxDigits') ∈ [((120 : UInt8), 2, 2), (117, 4, 8), (85, 8, 8)]) :
    size' = size ∧ maxDigits' = maxDigits := by
  simp only [List.mem_cons, Prod.mk.injEq, List.not_mem_nil, or_false] at h h'
  rcases h with ⟨rfl, rfl, rfl⟩ | ⟨rfl, rfl, rfl⟩ | ⟨rfl, rfl, rfl⟩
  · simpa using h'
  · simpa using h'
  · simpa using h'

/-- A character in front of what is read after it. -/
def pushed (out : UInt8) :
    Except ParseError (Bytes × Bytes) → Except ParseError (Bytes × Bytes)
  | .ok (output, pos) => .ok (out :: output, pos)
  | .error e => .error e

/-- An escape with digits, and what is read after it and one more character. -/
def escaped (loop : Bytes → Except ParseError (Bytes × Bytes)) :
    Except ParseError (UInt8 × Bytes) → Except ParseError (Bytes × Bytes)
  | .ok (out, pos) => pushed out (loop pos.tail)
  | .error e => .error e

/-- What `ReadString` comes to from a position in the string, before the next round. -/
inductive StringRound (q : UInt8) (eofError : String) (n : Nat) :
    Bytes → Except ParseError (Bytes × Bytes) → Prop where
  | ends : StringRound q eofError n [] (.ok ([], []))
  | close (cs : Bytes) : StringRound q eofError n (q :: cs) (.ok ([], cs))
  | raw {c : UInt8} (hs : c ≠ 92) (hn : c ≠ 10) (hq : c = 34 ∨ c = 39 → c ≠ q) (cs : Bytes) :
    StringRound q eofError n (c :: cs) (pushed c (readStringLoop q eofError n cs))
  | simple {e out : UInt8} (he : simpleEscape e = some out) (rest : Bytes) :
    StringRound q eofError n (92 :: e :: rest) (pushed out (readStringLoop q eofError n rest))
  | hex {letter : UInt8} {size maxDigits : Nat}
    (hl : (letter, size, maxDigits) ∈ [((120 : UInt8), 2, 2), (117, 4, 8), (85, 8, 8)])
    (rest : Bytes) :
    StringRound q eofError n (92 :: letter :: rest)
      (escaped (readStringLoop q eofError n) (stringEscape eofError size maxDigits rest))
  | cutOff : StringRound q eofError n [92] (.error (.watch eofError []))
  | refused {pos pos' : Bytes} (what : String) (hpos : pos' ≠ []) :
    StringRound q eofError n pos (.error (.watch what pos'))

section
variable {q : UInt8} {eofError : String}

theorem readStringLoop_raw {c : UInt8} (hs : c ≠ 92) (hn : c ≠ 10) (hq : c = 34 ∨ c = 39 → c ≠ q)
    (n : Nat) (cs : Bytes) :
    readStringLoop q eofError (n + 1) (c :: cs) = pushed c (readStringLoop q eofError n cs) := by
  conv_lhs => unfold readStringLoop
  simp only [if_neg hs]
  by_cases hquote : c = 34 ∨ c = 39
  · rw [if_pos hquote, if_neg (hq hquote)]
    rfl
  · rw [if_neg hquote, if_neg hn]
    rfl

theorem readStringLoop_simple {e out : UInt8} (he : simpleEscape e = some out) (n : Nat)
    (rest : Bytes) :
    readStringLoop q eofError (n + 1) (92 :: e :: rest) =
      pushed out (readStringLoop q eofError n rest) := by
  rw [readStringLoop]
  simp only [if_true, he]
  rfl

/-- An escape with digits is read by `stringEscape` with its bounds, and one more
character is skipped. -/
theorem readStringLoop_hex {letter : UInt8} {size maxDigits : Nat}
    (hl : (letter, size, maxDigits) ∈ [((120 : UInt8), 2, 2), (117, 4, 8), (85, 8, 8)]) (n : Nat)
    (rest : Bytes) :
    readStringLoop q eofError (n + 1) (92 :: letter :: rest) =
      escaped (readStringLoop q eofError n) (stringEscape eofError size maxDigits rest) := by
  have hsimple := simpleEscape_hex hl
  have hne : (117 : UInt8) ≠ 120 ∧ (85 : UInt8) ≠ 120 ∧ (85 : UInt8) ≠ 117 := by decide
  simp only [List.mem_cons, Prod.mk.injEq, List.not_mem_nil, or_false] at hl
  rw [readStringLoop]
  rcases hl with ⟨rfl, rfl, rfl⟩ | ⟨rfl, rfl, rfl⟩ | ⟨rfl, rfl, rfl⟩
  · simp only [if_true, hsimple]
    rfl
  · simp only [if_true, hsimple, if_neg hne.1]
    rfl
  · simp only [if_true, hsimple, if_neg hne.2.1, if_neg hne.2.2]
    rfl

theorem string_round (q : UInt8) (eofError : String) (n : Nat) (pos : Bytes) :
    StringRound q eofError n pos (readStringLoop q eofError (n + 1) pos) := by
  cases pos with
  | nil => exact .ends
  | cons c cs =>
    by_cases h92 : c = 92
    · subst h92
      cases cs with
      | nil => exact .cutOff
      | cons e rest =>
        cases he : simpleEscape e with
        | some out =>
          rw [readStringLoop_simple he]
          exact .simple he rest
        | none =>
          by_cases hl : ∃ size maxDigits, (e, size, maxDigits) ∈
              [((120 : UInt8), 2, 2), (117, 4, 8), (85, 8, 8)]
          · obtain ⟨size, maxDigits, hl⟩ := hl
            rw [readStringLoop_hex hl]
            exact .hex hl rest
          · -- an unknown escape
            simp only [List.mem_cons, Prod.mk.injEq, List.not_mem_nil, or_false, not_exists,
              not_or, not_and] at hl
            have h120 : e ≠ 120 := fun heq => (hl 2 2).1 heq rfl rfl
            have h117 : e ≠ 117 := fun heq => (hl 4 8).2.1 heq rfl rfl
            have h85 : e ≠ 85 := fun heq => (hl 8 8).2.2 heq rfl rfl
            unfold readStringLoop
            simp only [if_true, he, if_neg h120, if_neg h117, if_neg h85]
            exact .refused _ (by simp)
    by_cases h10 : c = 10
    · subst h10
      unfold readStringLoop
      simp only [if_neg h92]
      exact .refused _ (by simp)
    by_cases hclose : (c = 34 ∨ c = 39) ∧ c = q
    · obtain ⟨hquote, rfl⟩ := hclose
      unfold readStringLoop
      simp only [if_neg h92, if_pos hquote, if_true]
      exact .close cs
    · have hq : c = 34 ∨ c = 39 → c ≠ q := fun hquote heq => hclose ⟨hquote, heq⟩
      rw [readStringLoop_raw h92 h10 hq]
      exact .raw h92 h10 hq cs

end

/-! ## Reading goes forward -/

/-- A reader that started at `pos` and did not run out of its bound. -/
def Forward {α : Type} (pos : Bytes) : Except ParseError (α × Bytes) → Prop
  | .ok (_, pos') => pos'.length ≤ pos.length
  | .error e => e ≠ .fuel

theorem forward_escapeDigits (eofError : String) (n : Nat) (pos : Bytes) :
    Forward pos (escapeDigits eofError n pos) := by
  induction pos generalizing n with
  | nil => cases n <;> exact ParseError.noConfusion
  | cons c cs ih =>
    cases n with
    | zero => exact Nat.le_refl _
    | succ n =>
      have hrec := ih n
      unfold escapeDigits
      split
      · split
        · rename_i digits pos' heq
          rw [heq] at hrec
          exact Nat.le_succ_of_le hrec
        · rename_i e heq
          rw [heq] at hrec
          exact hrec
      · exact Nat.le_refl _

theorem forward_stringEscape (eofError : String) (size maxDigits : Nat) (pos : Bytes) :
    Forward pos (stringEscape eofError size maxDigits pos) := by
  cases pos with
  | nil => exact ParseError.noConfusion
  | cons c cs =>
    have hdigits := forward_escapeDigits eofError maxDigits (c :: cs)
    unfold stringEscape
    dsimp only
    split
    · exact ParseError.noConfusion
    · split
      · rename_i e heq
        rw [heq] at hdigits
        exact hdigits
      · rename_i digits pos' heq
        rw [heq] at hdigits
        split
        · exact ParseError.noConfusion
        · exact hdigits

/-- A character and the rest of the string. -/
theorem forward_pushed {c : UInt8} {cs p : Bytes} {rest : Except ParseError (Bytes × Bytes)}
    (hrest : Forward p rest) (hp : p.length ≤ cs.length) (out : UInt8) :
    Forward (c :: cs) (pushed out rest) := by
  cases rest with
  | ok r => exact Nat.le_trans hrest (Nat.le_succ_of_le hp)
  | error e => exact hrest

/-- An escape with digits, one more character and the rest of the string. -/
theorem forward_escaped {c : UInt8} {cs p : Bytes} {escape : Except ParseError (UInt8 × Bytes)}
    {loop : Bytes → Except ParseError (Bytes × Bytes)} (hescape : Forward p escape)
    (hloop : ∀ q : Bytes, q.length ≤ cs.length → Forward q (loop q)) (hp : p.length ≤ cs.length) :
    Forward (c :: cs) (escaped loop escape) := by
  cases escape with
  | ok r =>
    have htail : r.2.tail.length ≤ cs.length := by
      have hread : r.2.length ≤ p.length := hescape
      rw [List.length_tail]
      omega
    exact forward_pushed (hloop _ htail) htail r.1
  | error e => exact hescape

theorem forward_readStringLoop (enclosingChar : UInt8) (eofError : String) (n : Nat) (pos : Bytes)
    (hn : pos.length < n) : Forward pos (readStringLoop enclosingChar eofError n pos) := by
  induction n generalizing pos with
  | zero => cases hn
  | succ n ih =>
    have hloop : ∀ q : Bytes, q.length < pos.length →
        Forward q (readStringLoop enclosingChar eofError n q) := fun q hq => ih q (by omega)
    have hround := string_round enclosingChar eofError n pos
    generalize readStringLoop enclosingChar eofError (n + 1) pos = r at hround
    cases hround with
    | ends => exact Nat.le_refl _
    | close cs => exact Nat.le_succ _
    | raw _ _ _ cs => exact forward_pushed (hloop cs (by simp)) (Nat.le_refl _) _
    | @simple e _ _ rest =>
      have hrest : rest.length < (92 :: e :: rest).length := by
        simp only [List.length_cons]
        omega
      exact forward_pushed (hloop rest hrest) (Nat.le_succ _) _
    | hex _ rest =>
      refine forward_escaped (forward_stringEscape _ _ _ rest) (fun q hq => hloop q ?_)
        (Nat.le_succ _)
      simp only [List.length_cons] at hq ⊢
      omega
    | cutOff => exact ParseError.noConfusion
    | refused what _ => exact ParseError.noConfusion

theorem forward_readString (enclosingChar : UInt8) (pos : Bytes) :
    Forward pos (readString enclosingChar pos) :=
  forward_readStringLoop _ _ _ _ (Nat.lt_succ_self _)

/-- Where a character was looked at and taken, something was read. -/
theorem span_length_lt {p : UInt8 → Bool} {c : UInt8} (hc : p c = true) (cs : Bytes) :
    ((c :: cs).span p).2.length ≤ cs.length := by
  rw [List.span_eq_takeWhile_dropWhile, List.dropWhile_cons_of_pos hc]
  exact (List.dropWhile_suffix p).length_le

/-! ## Expressions -/

/-- How the parser ends from `pos`. -/
def Parsed (pos : Bytes) : Except ParseError (ExpressionNode × Bytes) → Prop
  | .ok (root, pos') => Rooted root ∧ pos'.length ≤ pos.length
  | .error e => e ≠ .fuel

theorem Parsed.longer {pos pos' : Bytes} {r : Except ParseError (ExpressionNode × Bytes)}
    (h : Parsed pos' r) (hle : pos'.length ≤ pos.length) : Parsed pos r := by
  cases r with
  | ok p => exact ⟨h.1, Nat.le_trans h.2 hle⟩
  | error e => exact h

theorem parsed_parseLoop (n : Nat) (done : List Link) (current : Link) (pos : Bytes)
    (hn : pos.length < n) (hl : Linked done current) :
    Parsed pos (parseLoop n done current pos) := by
  induction n generalizing done current pos with
  | zero => cases hn
  | succ n ih =>
    cases pos with
    | nil => exact ⟨hl.rooted, Nat.le_refl _⟩
    | cons c cs =>
      have hcs : cs.length < n := by simpa using hn
      -- a round that leaves the parser at `p`
      have hround : ∀ {done : List Link} {current : Link} (p : Bytes), p.length ≤ cs.length →
          Linked done current → Parsed (c :: cs) (parseLoop n done current p) :=
        fun p hp hl => (ih _ _ p (by omega) hl).longer (Nat.le_succ_of_le hp)
      unfold parseLoop
      dsimp only
      split
      · exact hround cs (Nat.le_refl _) hl
      · split
        · split
          · exact ParseError.noConfusion
          · cases cs with
            | nil => exact ParseError.noConfusion
            | cons d rest =>
              dsimp only
              split
              · exact ParseError.noConfusion
              · exact hround (d :: rest) (Nat.le_refl _) (hl.push (.inl rfl))
        · split
          · split
            · exact ParseError.noConfusion
            · have hinner := ih [] {} cs hcs rfl
              split
              · rename_i e heq
                rw [heq] at hinner
                exact hinner
              · rename_i accessor pos' heq
                rw [heq] at hinner
                split
                · exact ParseError.noConfusion
                · rename_i htype
                  exact hround pos' hinner.2 (hl.push (.inr ⟨htype, hinner.1⟩))
          · split
            · split
              · exact ParseError.noConfusion
              · exact ⟨hl.rooted, Nat.le_succ _⟩
            · split
              · split
                · exact ParseError.noConfusion
                · have hstring := forward_readString c cs
                  split
                  · rename_i e heq
                    rw [heq] at hstring
                    exact hstring
                  · rename_i value pos' heq
                    rw [heq] at hstring
                    exact hround pos' hstring (hl.set _ _)
              · split
                · exact ParseError.noConfusion
                · split
                  · rename_i hdigit
                    exact hround _ (span_length_lt hdigit cs) (hl.set _ _)
                  · split
                    · rename_i halpha
                      refine hround _ (span_length_lt ?_ cs) (hl.set _ _)
                      rcases halpha with halpha | rfl
                      · simp [isAlnum, halpha]
                      · rfl
                    · exact ParseError.noConfusion

/-- **What is accepted is well formed.** -/
theorem parseWatch_rooted {watch : Bytes} {root : ExpressionNode}
    (h : parseWatch watch = .ok root) : Rooted root := by
  have hparsed := parsed_parseLoop (watch.length + 1) [] {} watch (Nat.lt_succ_self _) rfl
  unfold parseWatch parseExpression at h
  split at h
  · cases h
  · rename_i root' heq
    rw [heq] at hparsed
    obtain rfl := Except.ok.inj h
    exact hparsed.1
  · cases h

/-- The bound on the rounds is never used up. -/
theorem parseWatch_fuel (watch : Bytes) : parseWatch watch ≠ .error .fuel := by
  have hparsed := parsed_parseLoop (watch.length + 1) [] {} watch (Nat.lt_succ_self _) rfl
  unfold parseWatch parseExpression
  split
  · rename_i e heq
    rw [heq] at hparsed
    exact fun h => hparsed (Except.error.inj h)
  · exact nofun
  · exact nofun

end Sdb.L3
