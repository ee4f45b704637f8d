import Sdb.L3Vm.Language

/-!
# What the parser touches

`ParseExpression` and its readers dereference positions in the watch text, and
`processStringEscape` writes into a buffer of digits. `parseAccesses` lists these
accesses in their order, the one that leaves the bounds included; it takes the
branches of `parseLoop` with the results of the readers.

* `sound_parseLoop`: the accesses stay in bounds exactly if the parser is not left
  by an end of the text inside an escape, which the source tests for after the read,
  or by a write past the digits; what it returns or throws is a position in the text.
-/
namespace Sdb.L3

open Sdb.L1

/-- An access: `*pos`, or `dest[index]` of a buffer of `size` digits. -/
inductive Access where
  | deref (pos : Bytes)
  | write (index size : Nat)
  deriving DecidableEq, Repr

def Access.InBounds : Access → Prop
  | .deref pos => pos ≠ []
  | .write index size => index < size

@[simp] theorem inBounds_deref (pos : Bytes) : (Access.deref pos).InBounds ↔ pos ≠ [] := .rfl

@[simp] theorem inBounds_write (index size : Nat) :
    (Access.write index size).InBounds ↔ index < size := .rfl

/-- What is touched after a reader that ended with `r`. -/
def thenAccesses {α : Type} (r : Except ParseError (α × Bytes))
    (next : α → Bytes → List Access) : List Access :=
  match r with
  | .ok (a, pos) => next a pos
  | .error _ => []

/-! ## Strings -/

/-- The loop over the digits, from the `index`-th on; the character at the position
has been read.
mirrors SquirrelVmHelpers.cpp:727-734 -/
def digitAccesses (size : Nat) : Nat → Nat → Bytes → List Access
  | _, _, [] => []
  | _, 0, _ => []
  | index, n + 1, c :: cs =>
    if isXDigit c then .write index size :: .deref cs :: digitAccesses size (index + 1) n cs
    else []

/-- mirrors SquirrelVmHelpers.cpp:718-735 -/
def escapeAccesses (size maxDigits : Nat) (pos : Bytes) : List Access :=
  .deref pos ::
    match pos with
    | [] => []
    | c :: _ => if isXDigit c then digitAccesses size 0 maxDigits pos else []

/-- An escape with digits and what is read after it. -/
def escapeThen (eofError : String) (size maxDigits : Nat) (rest : Bytes → List Access)
    (pos : Bytes) : List Access :=
  escapeAccesses size maxDigits pos ++
    thenAccesses (stringEscape eofError size maxDigits pos) fun _ pos => rest pos.tail

/-- mirrors SquirrelVmHelpers.cpp:737-822 -/
def stringLoopAccesses (enclosingChar : UInt8) (eofError : String) : Nat → Bytes → List Access
  | 0, _ => []
  | _ + 1, [] => []
  | n + 1, c :: cs =>
    .deref (c :: cs) ::
      if c = 92 then
        .deref cs ::
          match cs with
          | [] => []
          | e :: rest =>
            match simpleEscape e with
            | some _ => stringLoopAccesses enclosingChar eofError n rest
            | none =>
              if e = 120 then
                escapeThen eofError 2 2 (stringLoopAccesses enclosingChar eofError n) rest
              else if e = 117 then
                escapeThen eofError 4 8 (stringLoopAccesses enclosingChar eofError n) rest
              else if e = 85 then
                escapeThen eofError 8 8 (stringLoopAccesses enclosingChar eofError n) rest
              else []
      else if c = 34 ∨ c = 39 then
        if c = enclosingChar then [] else stringLoopAccesses enclosingChar eofError n cs
      else if c = 10 then []
      else stringLoopAccesses enclosingChar eofError n cs

/-- The error of `ReadString` at the end of the text. -/
def eofErrorOf (enclosingChar : UInt8) : String :=
  if enclosingChar = 39 then "Encountered EOF when looking for '"
  else "Encountered EOF when looking for \""

/-- From the opening quote.
mirrors SquirrelVmHelpers.cpp:712-822 -/
def readStringAccesses (enclosingChar : UInt8) (pos : Bytes) : List Access :=
  .deref (enclosingChar :: pos) ::
    stringLoopAccesses enclosingChar (eofErrorOf enclosingChar) (pos.length + 1) pos

/-! ## Expressions -/

/-- `ReadNumber` and `ReadIdentifier`.
mirrors SquirrelVmHelpers.cpp:824-848 -/
def spanAccesses (p : UInt8 → Bool) : Bytes → List Access
  | [] => []
  | c :: cs => .deref (c :: cs) :: if p c then spanAccesses p cs else []

/-- mirrors SquirrelVmHelpers.cpp:850-949 -/
def parseAccesses : Nat → List Link → Link → Bytes → List Access
  | 0, _, _, _ => []
  | _ + 1, _, _, [] => []
  | n + 1, done, current, c :: cs =>
    .deref (c :: cs) ::
      if c = 32 then parseAccesses n done current cs
      else if c = 46 then
        if current.type ≠ .identifier then []
        else
          match cs with
          | [] => []
          | d :: rest =>
            .deref (d :: rest) ::
              if !isAlpha d ∧ d ≠ 95 then [] else parseAccesses n (done ++ [current]) {} cs
      else if c = 91 then
        if current.type ≠ .string ∧ current.type ≠ .identifier then []
        else
          parseAccesses n [] {} cs ++
            thenAccesses (parseLoop n [] {} cs) fun accessor pos =>
              if accessor.type = .undefined then []
              else
                parseAccesses n (done ++ [current])
                  { type := .identifier, accessorExpression := accessor } pos
      else if c = 93 then []
      else if c = 34 ∨ c = 39 then
        if current.type ≠ .undefined then []
        else
          readStringAccesses c cs ++
            thenAccesses (readString c cs) fun value pos =>
              parseAccesses n done { current with type := .string, accessorValue := value } pos
      else if current.type ≠ .undefined then []
      else if isDigit c then
        spanAccesses isDigit (c :: cs) ++
          parseAccesses n done
            { current with type := .number, accessorValue := (readNumber (c :: cs)).1 }
            (readNumber (c :: cs)).2
      else if isAlpha c ∨ c = 95 then
        spanAccesses (fun c => isAlnum c || c = 95) (c :: cs) ++
          parseAccesses n done
            { current with type := .identifier, accessorValue := (readIdentifier (c :: cs)).1 }
            (readIdentifier (c :: cs)).2
      else []

/-- What the parse stage touches. -/
def watchAccesses (watch : Bytes) : List Access := parseAccesses (watch.length + 1) [] {} watch

/-! ## Sound runs -/

/-- The errors that come after an access out of bounds: the end of the text inside an
escape, and a write past the digits. -/
def Fatal : ParseError → Prop
  | .watch what pos => (what = eofErrorOf 39 ∨ what = eofErrorOf 34) ∧ pos = []
  | .undefined => True
  | .fuel => False

def Clean {α : Type} (r : Except ParseError α) : Prop := ∀ e, r = .error e → ¬ Fatal e

/-- What is returned or thrown is a position from `pos` on, up to the end. -/
def Within {α : Type} (pos : Bytes) : Except ParseError (α × Bytes) → Prop
  | .ok (_, pos') => pos' <:+ pos
  | .error (.watch _ pos') => pos' <:+ pos
  | .error .undefined => True
  | .error .fuel => False

/-- The accesses of a reader that started at `pos` and ended with `r`. -/
structure Sound {α : Type} (pos : Bytes) (accesses : List Access)
    (r : Except ParseError (α × Bytes)) : Prop where
  bounds : (∀ a ∈ accesses, a.InBounds) ↔ Clean r
  within : Within pos r

section
variable {α : Type} {pos pos' : Bytes} {accesses : List Access}

theorem clean_ok (a : α) : Clean (.ok a : Except ParseError α) := fun _ h => by cases h

theorem clean_error_iff {e : ParseError} :
    Clean (.error e : Except ParseError α) ↔ ¬ Fatal e := by
  constructor
  · intro hc
    exact hc e rfl
  · intro hf e' he
    cases he
    exact hf

theorem Within.longer {r : Except ParseError (α × Bytes)} (h : Within pos' r)
    (hle : pos' <:+ pos) : Within pos r := by
  cases r with
  | ok p => exact h.trans hle
  | error e =>
    cases e with
    | watch what p => exact h.trans hle
    | undefined => trivial
    | fuel => exact h

theorem Sound.longer {r : Except ParseError (α × Bytes)} (h : Sound pos' accesses r)
    (hle : pos' <:+ pos) : Sound pos accesses r :=
  ⟨h.bounds, h.within.longer hle⟩

/-- Accesses in bounds before the others. -/
theorem Sound.after {r : Except ParseError (α × Bytes)} {before : List Access}
    (h : Sound pos' accesses r) (hbefore : ∀ a ∈ before, a.InBounds) (hle : pos' <:+ pos) :
    Sound pos (before ++ accesses) r where
  bounds := by
    rw [← h.bounds]
    simp only [List.mem_append, or_imp, forall_and]
    exact and_iff_right hbefore
  within := h.within.longer hle

/-- The reader ends here. -/
theorem sound_ok (hin : ∀ a ∈ accesses, a.InBounds) (a : α) (hle : pos' <:+ pos) :
    Sound pos accesses (.ok (a, pos') : Except ParseError (α × Bytes)) where
  bounds := iff_of_true hin (clean_ok _)
  within := hle

theorem sound_error (hin : ∀ a ∈ accesses, a.InBounds) {what : String}
    (hwhat : what ≠ eofErrorOf 39 ∧ what ≠ eofErrorOf 34) (hle : pos' <:+ pos) :
    Sound pos accesses (.error (.watch what pos') : Except ParseError (α × Bytes)) where
  bounds := by
    refine iff_of_true hin (clean_error_iff.mpr ?_)
    rintro ⟨heq | heq, -⟩
    · exact hwhat.1 heq
    · exact hwhat.2 heq
  within := hle

/-- A reader goes on from where another stopped. -/
theorem Sound.next {β : Type} {a : α} {result : Except ParseError (β × Bytes)}
    {next : α → Bytes → List Access}
    (h : Sound pos accesses (.ok (a, pos') : Except ParseError (α × Bytes)))
    (hnext : Sound pos' (next a pos') result) :
    Sound pos (accesses ++ thenAccesses (.ok (a, pos')) next) result :=
  hnext.after (h.bounds.mpr (clean_ok (a, pos'))) h.within

/-- A reader that is left by an error. -/
theorem Sound.stop {β : Type} {e : ParseError} (next : α → Bytes → List Access)
    (h : Sound pos accesses (.error e : Except ParseError (α × Bytes))) :
    Sound pos (accesses ++ thenAccesses (.error e) next)
      (.error e : Except ParseError (β × Bytes)) where
  bounds := by
    rw [thenAccesses, List.append_nil, h.bounds, clean_error_iff, clean_error_iff]
  within := by
    have hwithin := h.within
    cases e with
    | watch what p => exact hwithin
    | undefined => trivial
    | fuel => exact hwithin

/-- A character in front of what is read. -/
theorem Sound.push {rest : Except ParseError (Bytes × Bytes)} (h : Sound pos accesses rest)
    (out : UInt8) :
    Sound pos accesses
      (match rest with
        | .ok (output, pos) => .ok (out :: output, pos)
        | .error e => .error e) := by
  cases rest with
  | ok p => exact sound_ok (h.bounds.mpr (clean_ok p)) _ h.within
  | error e => exact h

end

/-! ## Reading a string -/

theorem inBounds_head (c : UInt8) (cs : Bytes) :
    ∀ a ∈ [Access.deref (c :: cs)], a.InBounds := by simp

/-- The digits run into the end of the text. -/
theorem escapeDigits_error {eofError : String} {n : Nat} {pos : Bytes} {e : ParseError}
    (h : escapeDigits eofError n pos = .error e) :
    e = .watch eofError [] ∧ (∀ d ∈ pos, isXDigit d = true) ∧ pos.length ≤ n := by
  induction pos generalizing n with
  | nil =>
    refine ⟨?_, by simp, Nat.zero_le n⟩
    cases n with
    | zero => exact (Except.error.inj h).symm
    | succ n => exact (Except.error.inj h).symm
  | cons c cs ih =>
    cases n with
    | zero => cases h
    | succ n =>
      unfold escapeDigits at h
      split at h
      · rename_i hc
        split at h
        · cases h
        · rename_i e' heq
          obtain rfl := Except.error.inj h
          obtain ⟨he, hx, hle⟩ := ih heq
          exact ⟨he, List.forall_mem_cons.mpr ⟨hc, hx⟩, Nat.succ_le_succ hle⟩
      · cases h

/-- The digits are written and the characters after them are read in bounds if they do
not run into the end, and fit. -/
theorem digitAccesses_iff (eofError : String) {size index n : Nat} {pos : Bytes}
    (hpos : pos ≠ []) (hindex : index ≤ size) :
    (∀ a ∈ digitAccesses size index n pos, a.InBounds) ↔
      ∃ digits pos', escapeDigits eofError n pos = .ok (digits, pos') ∧
        index + digits.length ≤ size := by
  induction pos generalizing index n with
  | nil => exact absurd rfl hpos
  | cons c cs ih =>
    cases n with
    | zero =>
      refine iff_of_true ?_ ⟨[], c :: cs, rfl, hindex⟩
      intro a ha
      cases ha
    | succ n =>
      unfold digitAccesses escapeDigits
      by_cases hc : isXDigit c = true
      · simp only [if_pos hc, List.forall_mem_cons, inBounds_write, inBounds_deref]
        by_cases hlt : index < size
        · cases cs with
          | nil => simp [escapeDigits]
          | cons d ds =>
            have hrec : (∀ a ∈ digitAccesses size (index + 1) n (d :: ds), a.InBounds) ↔ _ :=
              ih (by simp) hlt
            rw [and_iff_right hlt, and_iff_right (by simp), hrec]
            cases hdigits : escapeDigits eofError n (d :: ds) with
            | ok p =>
              obtain ⟨digits, pos'⟩ := p
              simp
              omega
            | error e => simp
        · refine iff_of_false (fun h => hlt h.1) ?_
          intro h
          obtain ⟨digits, pos', hdigits, hle⟩ := h
          split at hdigits
          · obtain ⟨rfl, -⟩ := Prod.mk.inj (Except.ok.inj hdigits)
            rw [List.length_cons] at hle
            omega
          · cases hdigits
      · rw [if_neg hc, if_neg hc]
        refine iff_of_true ?_ ⟨[], c :: cs, rfl, hindex⟩
        intro a ha
        cases ha

variable {eofError : String}

theorem sound_stringEscape (heof : eofError = eofErrorOf 39 ∨ eofError = eofErrorOf 34)
    (size maxDigits : Nat) (pos : Bytes) :
    Sound pos (escapeAccesses size maxDigits pos) (stringEscape eofError size maxDigits pos) := by
  have hfatal : Fatal (.watch eofError []) := ⟨heof, rfl⟩
  cases pos with
  | nil =>
    refine ⟨iff_of_false ?_ fun hclean => clean_error_iff.mp hclean hfatal, List.suffix_refl []⟩
    intro hin
    exact hin _ List.mem_cons_self rfl
  | cons c cs =>
    have hderef : ∀ a ∈ [Access.deref (c :: cs)], a.InBounds := by simp
    unfold escapeAccesses stringEscape
    by_cases hc : isXDigit c = true
    · simp only [hc, if_true, Bool.not_true, Bool.false_eq_true, if_false]
      suffices hread : Sound (c :: cs) (digitAccesses size 0 maxDigits (c :: cs)) _ from
        hread.after hderef (List.suffix_refl _)
      have hdigits : (∀ a ∈ digitAccesses size 0 maxDigits (c :: cs), a.InBounds) ↔ _ :=
        digitAccesses_iff eofError (by simp) (Nat.zero_le size)
      cases hread : escapeDigits eofError maxDigits (c :: cs) with
      | error e =>
        obtain ⟨rfl, -⟩ := escapeDigits_error hread
        refine ⟨?_, List.nil_suffix⟩
        rw [hdigits, hread]
        refine iff_of_false (by simp) fun hclean => clean_error_iff.mp hclean hfatal
      | ok p =>
        obtain ⟨digits, pos'⟩ := p
        obtain ⟨d, rest, rfl, hsplit, -⟩ := escapeDigits_ok hread
        rw [hread] at hdigits
        dsimp only
        split
        · rename_i hsize
          refine ⟨?_, trivial⟩
          rw [hdigits]
          refine iff_of_false ?_ fun hclean => clean_error_iff.mp hclean trivial
          intro hfit
          obtain ⟨digits', pos', heq, hle⟩ := hfit
          obtain ⟨rfl, -⟩ := Prod.mk.inj (Except.ok.inj heq)
          omega
        · rename_i hsize
          refine sound_ok (hdigits.mpr ⟨digits, _, rfl, by omega⟩) _ ?_
          rw [hsplit]
          exact List.suffix_append _ _
    · simp only [hc, Bool.not_false, if_true, Bool.false_eq_true, if_false]
      refine sound_error hderef ?_ (List.suffix_refl _)
      decide

/-- An escape, the character after it, and the rest of the string. -/
theorem sound_escapeThen (heof : eofError = eofErrorOf 39 ∨ eofError = eofErrorOf 34)
    (size maxDigits : Nat) {pos : Bytes} {loop : Bytes → Except ParseError (Bytes × Bytes)}
    {rest : Bytes → List Access} (hloop : ∀ p, p <:+ pos → Sound p (rest p) (loop p)) :
    Sound pos (escapeThen eofError size maxDigits rest pos)
      (match stringEscape eofError size maxDigits pos with
        | .ok (out, p) =>
          match loop p.tail with
          | .ok (output, p) => .ok (out :: output, p)
          | .error e => .error e
        | .error e => .error e) := by
  have hescape := sound_stringEscape heof size maxDigits pos
  unfold escapeThen
  cases hread : stringEscape eofError size maxDigits pos with
  | error e =>
    rw [hread] at hescape
    exact hescape.stop _
  | ok r =>
    obtain ⟨out, p⟩ := r
    rw [hread] at hescape
    have htail : p.tail <:+ p := List.tail_suffix p
    have hpush := (hloop p.tail (htail.trans hescape.within)).push out
    exact hescape.next (hpush.longer htail)

/-- An escape: the character after the backslash is read without a look at the end. -/
theorem sound_backslash (heof : eofError = eofErrorOf 39 ∨ eofError = eofErrorOf 34)
    {q : UInt8} {n : Nat} {cs : Bytes}
    (hloop : ∀ p, p <:+ cs → Sound p (stringLoopAccesses q eofError n p)
      (readStringLoop q eofError n p)) :
    Sound (92 :: cs) (stringLoopAccesses q eofError (n + 1) (92 :: cs))
      (readStringLoop q eofError (n + 1) (92 :: cs)) := by
  have hcs : cs <:+ 92 :: cs := List.suffix_cons 92 cs
  unfold stringLoopAccesses readStringLoop
  simp only [if_true]
  cases cs with
  | nil =>
    refine ⟨iff_of_false ?_ ?_, List.nil_suffix⟩
    · intro hin
      exact hin (.deref []) (by simp) rfl
    · intro hclean
      exact clean_error_iff.mp hclean ⟨heof, rfl⟩
  | cons e rest =>
    have hderefs : ∀ a ∈ [Access.deref (92 :: e :: rest), .deref (e :: rest)], a.InBounds := by
      simp
    have hrest : rest <:+ e :: rest := List.suffix_cons e rest
    have hescape : ∀ size maxDigits, Sound (92 :: e :: rest)
        ([Access.deref (92 :: e :: rest), .deref (e :: rest)] ++
          escapeThen eofError size maxDigits (stringLoopAccesses q eofError n) rest) _ :=
      fun size maxDigits =>
        (sound_escapeThen heof size maxDigits fun p hp => hloop p (hp.trans hrest)).after
          hderefs (hrest.trans hcs)
    dsimp only
    cases simpleEscape e with
    | some out => exact ((hloop rest hrest).push out).after hderefs (hrest.trans hcs)
    | none =>
      dsimp only
      by_cases h120 : e = 120
      · simp only [if_pos h120]
        exact hescape 2 2
      by_cases h117 : e = 117
      · simp only [if_neg h120, if_pos h117]
        exact hescape 4 8
      by_cases h85 : e = 85
      · simp only [if_neg h120, if_neg h117, if_pos h85]
        exact hescape 8 8
      simp only [if_neg h120, if_neg h117, if_neg h85]
      exact sound_error hderefs (by decide) hcs

theorem sound_readStringLoop (heof : eofError = eofErrorOf 39 ∨ eofError = eofErrorOf 34)
    (enclosingChar : UInt8) (n : Nat) (pos : Bytes) (hn : pos.length < n) :
    Sound pos (stringLoopAccesses enclosingChar eofError n pos)
      (readStringLoop enclosingChar eofError n pos) := by
  induction n generalizing pos with
  | zero => cases hn
  | succ n ih =>
    cases pos with
    | nil => exact sound_ok (by simp [stringLoopAccesses]) [] (List.suffix_refl [])
    | cons c cs =>
      have hderef := inBounds_head c cs
      have hcs : cs <:+ c :: cs := List.suffix_cons c cs
      have hloop : ∀ p, p <:+ cs → Sound p (stringLoopAccesses enclosingChar eofError n p)
          (readStringLoop enclosingChar eofError n p) := by
        intro p hp
        have hlen := hp.length_le
        rw [List.length_cons] at hn
        exact ih p (by omega)
      -- one character, and the rest of the string
      have hpush : ∀ out, Sound (c :: cs)
          ([Access.deref (c :: cs)] ++ stringLoopAccesses enclosingChar eofError n cs)
          (match readStringLoop enclosingChar eofError n cs with
            | .ok (output, pos) => .ok (out :: output, pos)
            | .error e => .error e) := fun out =>
        ((hloop cs (List.suffix_refl cs)).push out).after hderef hcs
      by_cases h92 : c = 92
      · subst h92
        exact sound_backslash heof hloop
      unfold stringLoopAccesses readStringLoop
      simp only [if_neg h92]
      by_cases hquote : c = 34 ∨ c = 39
      · simp only [if_pos hquote]
        by_cases hclose : c = enclosingChar
        · simp only [if_pos hclose]
          exact sound_ok hderef _ hcs
        · simp only [if_neg hclose]
          exact hpush c
      · simp only [if_neg hquote]
        by_cases h10 : c = 10
        · simp only [if_pos h10]
          exact sound_error hderef (by decide) (List.suffix_refl _)
        · simp only [if_neg h10]
          exact hpush c

theorem sound_readString {enclosingChar : UInt8} (hq : enclosingChar = 34 ∨ enclosingChar = 39)
    (pos : Bytes) :
    Sound pos (readStringAccesses enclosingChar pos) (readString enclosingChar pos) := by
  have heof : eofErrorOf enclosingChar = eofErrorOf 39 ∨
      eofErrorOf enclosingChar = eofErrorOf 34 := by
    rcases hq with rfl | rfl
    · exact .inr rfl
    · exact .inl rfl
  have hderef : ∀ a ∈ [Access.deref (enclosingChar :: pos)], a.InBounds := by simp
  have hloop := sound_readStringLoop heof enclosingChar (pos.length + 1) pos (Nat.lt_succ_self _)
  exact hloop.after hderef (List.suffix_refl pos)

/-! ## Reading an expression -/

theorem inBounds_spanAccesses (p : UInt8 → Bool) (pos : Bytes) :
    ∀ a ∈ spanAccesses p pos, a.InBounds := by
  induction pos with
  | nil => simp [spanAccesses]
  | cons c cs ih =>
    intro a ha
    rcases List.mem_cons.mp ha with rfl | ha
    · simp
    · split at ha
      · exact ih a ha
      · cases ha

theorem span_suffix {p : UInt8 → Bool} {c : UInt8} (hc : p c = true) (cs : Bytes) :
    ((c :: cs).span p).2 <:+ cs := by
  rw [List.span_eq_takeWhile_dropWhile, List.dropWhile_cons_of_pos hc]
  exact List.dropWhile_suffix p

/-- The rounds from a position in `cs` on are sound. -/
def SoundRounds (n : Nat) (cs : Bytes) : Prop :=
  ∀ (done : List Link) (current : Link) (p : Bytes), p <:+ cs →
    Sound p (parseAccesses n done current p) (parseLoop n done current p)

section
variable {n : Nat} {cs : Bytes}

theorem sound_space (hround : SoundRounds n cs) (done : List Link) (current : Link) :
    Sound (32 :: cs) (parseAccesses (n + 1) done current (32 :: cs))
      (parseLoop (n + 1) done current (32 :: cs)) :=
  (hround done current cs (List.suffix_refl cs)).after (inBounds_head 32 cs)
    (List.suffix_cons 32 cs)

theorem sound_dot (hround : SoundRounds n cs) (done : List Link) (current : Link) :
    Sound (46 :: cs) (parseAccesses (n + 1) done current (46 :: cs))
      (parseLoop (n + 1) done current (46 :: cs)) := by
  have hderef := inBounds_head 46 cs
  have hcs : cs <:+ 46 :: cs := List.suffix_cons 46 cs
  have h32 : (46 : UInt8) ≠ 32 := by decide
  unfold parseLoop parseAccesses
  simp only [if_neg h32, if_true]
  by_cases htype : current.type ≠ .identifier
  · simp only [if_pos htype]
    exact sound_error hderef (by decide) (List.suffix_refl _)
  · simp only [if_neg htype]
    cases cs with
    | nil => exact sound_error hderef (by decide) List.nil_suffix
    | cons d rest =>
      -- the character after the dot is read twice, here and in the next round
      have hderefs : ∀ a ∈ [Access.deref (46 :: d :: rest), .deref (d :: rest)],
          a.InBounds := by simp
      dsimp only
      by_cases hd : (!isAlpha d) = true ∧ d ≠ 95
      · simp only [if_pos hd]
        exact sound_error hderefs (by decide) hcs
      · simp only [if_neg hd]
        exact (hround _ _ (d :: rest) (List.suffix_refl _)).after hderefs hcs

theorem sound_open (hround : SoundRounds n cs) (done : List Link) (current : Link) :
    Sound (91 :: cs) (parseAccesses (n + 1) done current (91 :: cs))
      (parseLoop (n + 1) done current (91 :: cs)) := by
  have hderef := inBounds_head 91 cs
  have hcs : cs <:+ 91 :: cs := List.suffix_cons 91 cs
  have hchar : (91 : UInt8) ≠ 32 ∧ (91 : UInt8) ≠ 46 := by decide
  unfold parseLoop parseAccesses
  simp only [if_neg hchar.1, if_neg hchar.2, if_true]
  by_cases htype : current.type ≠ .string ∧ current.type ≠ .identifier
  · simp only [if_pos htype]
    exact sound_error hderef (by decide) (List.suffix_refl _)
  · simp only [if_neg htype]
    have hinner := hround [] {} cs (List.suffix_refl cs)
    cases hread : parseLoop n [] {} cs with
    | error e =>
      rw [hread] at hinner
      exact (hinner.stop _).after hderef hcs
    | ok r =>
      obtain ⟨accessor, p⟩ := r
      rw [hread] at hinner
      refine (hinner.next ?_).after hderef hcs
      dsimp only
      by_cases ha : accessor.type = .undefined
      · simp only [if_pos ha]
        exact sound_error (by simp) (by decide) (List.suffix_refl p)
      · simp only [if_neg ha]
        exact hround _ _ p hinner.within

theorem sound_close (n : Nat) (done : List Link) (current : Link) (cs : Bytes) :
    Sound (93 :: cs) (parseAccesses (n + 1) done current (93 :: cs))
      (parseLoop (n + 1) done current (93 :: cs)) := by
  have hderef := inBounds_head 93 cs
  have hchar : (93 : UInt8) ≠ 32 ∧ (93 : UInt8) ≠ 46 ∧ (93 : UInt8) ≠ 91 := by decide
  unfold parseLoop parseAccesses
  simp only [if_neg hchar.1, if_neg hchar.2.1, if_neg hchar.2.2, if_true]
  by_cases htype : current.type = .undefined
  · simp only [if_pos htype]
    exact sound_error hderef (by decide) (List.suffix_refl _)
  · simp only [if_neg htype]
    exact sound_ok hderef _ (List.suffix_cons 93 cs)

theorem sound_quote {q : UInt8} (hq : q = 34 ∨ q = 39) (hround : SoundRounds n cs)
    (done : List Link) (current : Link) :
    Sound (q :: cs) (parseAccesses (n + 1) done current (q :: cs))
      (parseLoop (n + 1) done current (q :: cs)) := by
  have hderef := inBounds_head q cs
  have hcs : cs <:+ q :: cs := List.suffix_cons q cs
  have hchar : q ≠ 32 ∧ q ≠ 46 ∧ q ≠ 91 ∧ q ≠ 93 := by
    rcases hq with rfl | rfl <;> decide
  obtain ⟨h32, h46, h91, h93⟩ := hchar
  unfold parseLoop parseAccesses
  simp only [if_neg h32, if_neg h46, if_neg h91, if_neg h93, if_pos hq]
  by_cases htype : current.type ≠ .undefined
  · simp only [if_pos htype]
    exact sound_error hderef (by decide) (List.suffix_refl _)
  · simp only [if_neg htype]
    have hstring := sound_readString hq cs
    cases hread : readString q cs with
    | error e =>
      rw [hread] at hstring
      exact (hstring.stop _).after hderef hcs
    | ok r =>
      obtain ⟨value, p⟩ := r
      rw [hread] at hstring
      exact (hstring.next (hround _ _ p hstring.within)).after hderef hcs

/-- The characters of a number or an identifier. -/
theorem sound_token {p : UInt8 → Bool} {c : UInt8} (hp : p c = true) (hround : SoundRounds n cs)
    (done : List Link) (current : Link) :
    Sound (c :: cs)
      (.deref (c :: cs) :: (spanAccesses p (c :: cs) ++
        parseAccesses n done current ((c :: cs).span p).2))
      (parseLoop n done current ((c :: cs).span p).2) := by
  have hspan := span_suffix hp cs
  have hrest := (hround done current _ hspan).after (inBounds_spanAccesses p (c :: cs))
    (hspan.trans (List.suffix_cons c cs))
  exact hrest.after (inBounds_head c cs) (List.suffix_refl _)

end

theorem sound_parseLoop (n : Nat) (done : List Link) (current : Link) (pos : Bytes)
    (hn : pos.length < n) :
    Sound pos (parseAccesses n done current pos) (parseLoop n done current pos) := by
  induction n generalizing done current pos with
  | zero => cases hn
  | succ n ih =>
    cases pos with
    | nil => exact sound_ok (by simp [parseAccesses]) _ (List.suffix_refl [])
    | cons c cs =>
      have hround : SoundRounds n cs := by
        intro done current p hp
        have hlen := hp.length_le
        rw [List.length_cons] at hn
        exact ih done current p (by omega)
      by_cases h32 : c = 32
      · subst h32
        exact sound_space hround done current
      by_cases h46 : c = 46
      · subst h46
        exact sound_dot hround done current
      by_cases h91 : c = 91
      · subst h91
        exact sound_open hround done current
      by_cases h93 : c = 93
      · subst h93
        exact sound_close n done current cs
      by_cases hquote : c = 34 ∨ c = 39
      · exact sound_quote hquote hround done current
      -- a number, an identifier, or no token
      have hderef := inBounds_head c cs
      have hself : c :: cs <:+ c :: cs := List.suffix_refl _
      unfold parseLoop parseAccesses
      simp only [if_neg h32, if_neg h46, if_neg h91, if_neg h93, if_neg hquote]
      by_cases htype : current.type ≠ .undefined
      · simp only [if_pos htype]
        exact sound_error hderef (by decide) hself
      · simp only [if_neg htype]
        by_cases hdigit : isDigit c = true
        · simp only [if_pos hdigit]
          exact sound_token hdigit hround done _
        · simp only [if_neg hdigit]
          by_cases halpha : isAlpha c = true ∨ c = 95
          · simp only [if_pos halpha]
            have hword : (isAlnum c || c = 95) = true := by
              rcases halpha with halpha | rfl
              · simp [isAlnum, halpha]
              · rfl
            exact sound_token (p := fun c => isAlnum c || c = 95) hword hround done _
          · simp only [if_neg halpha]
            exact sound_error hderef (by decide) hself

end Sdb.L3
