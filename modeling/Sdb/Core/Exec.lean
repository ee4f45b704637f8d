/-!
# Computations with a state and exceptions

Rules of pre- and postconditions for `EStateM`, whose exceptions keep the state
reached. `Ends m s Q E` says how `m` ends from `s`: in `Q` when it returns, in
`E` when it throws. `Returns m s a t` fixes the result and the state.
-/
namespace Sdb.Exec

variable {ε σ α β : Type}

def Ends (m : EStateM ε σ α) (s : σ) (Q : α → σ → Prop) (E : ε → σ → Prop) : Prop :=
  match m.run s with
  | .ok a t => Q a t
  | .error e t => E e t

def Returns (m : EStateM ε σ α) (s : σ) (a : α) (t : σ) : Prop := m.run s = .ok a t

theorem ends_pure {a : α} {s : σ} {Q : α → σ → Prop} {E : ε → σ → Prop} (h : Q a s) :
    Ends (pure a) s Q E := h

theorem ends_throw {e : ε} {s : σ} {Q : α → σ → Prop} {E : ε → σ → Prop} (h : E e s) :
    Ends (throw e : EStateM ε σ α) s Q E := h

theorem ends_trivial (m : EStateM ε σ α) (s : σ) : Ends m s (fun _ _ => True) fun _ _ => True := by
  unfold Ends
  cases m.run s <;> trivial

theorem Ends.bind {m : EStateM ε σ α} {f : α → EStateM ε σ β} {s : σ} {Q : α → σ → Prop}
    {R : β → σ → Prop} {E : ε → σ → Prop} (h : Ends m s Q E)
    (hf : ∀ a t, Q a t → Ends (f a) t R E) : Ends (m >>= f) s R E := by
  unfold Ends at h ⊢
  rw [EStateM.run_bind]
  cases hm : m.run s with
  | ok a t =>
    rw [hm] at h
    exact hf a t h
  | error e t =>
    rw [hm] at h
    exact h

theorem Ends.mono {m : EStateM ε σ α} {s : σ} {Q Q' : α → σ → Prop} {E E' : ε → σ → Prop}
    (h : Ends m s Q E) (hQ : ∀ a t, Q a t → Q' a t) (hE : ∀ e t, E e t → E' e t) :
    Ends m s Q' E' := by
  unfold Ends at h ⊢
  cases hm : m.run s with
  | ok a t =>
    rw [hm] at h
    exact hQ a t h
  | error e t =>
    rw [hm] at h
    exact hE e t h

theorem Ends.map {m : EStateM ε σ α} {f : α → β} {s : σ} {Q : β → σ → Prop} {E : ε → σ → Prop}
    (h : Ends m s (fun a t => Q (f a) t) E) : Ends (f <$> m) s Q E := by
  unfold Ends EStateM.run at h ⊢
  show match EStateM.map f m s with
    | .ok b t => Q b t
    | .error e t => E e t
  unfold EStateM.map
  cases hrun : m s with
  | ok a t =>
    rw [hrun] at h
    exact h
  | error e t =>
    rw [hrun] at h
    exact h

theorem Ends.ok {m : EStateM ε σ α} {s t : σ} {a : α} {Q : α → σ → Prop} {E : ε → σ → Prop}
    (h : Ends m s Q E) (hm : m.run s = .ok a t) : Q a t := by
  unfold Ends at h
  rw [hm] at h
  exact h

theorem Ends.error {m : EStateM ε σ α} {s t : σ} {e : ε} {Q : α → σ → Prop} {E : ε → σ → Prop}
    (h : Ends m s Q E) (hm : m.run s = .error e t) : E e t := by
  unfold Ends at h
  rw [hm] at h
  exact h

theorem Returns.bind {m : EStateM ε σ α} {f : α → EStateM ε σ β} {s t u : σ} {a : α} {b : β}
    (hm : Returns m s a t) (hf : Returns (f a) t b u) : Returns (m >>= f) s b u := by
  unfold Returns at *
  rw [EStateM.run_bind, hm]
  exact hf

theorem returns_bind_iff {m : EStateM ε σ α} {f : α → EStateM ε σ β} {s t : σ} {b : β} :
    Returns (m >>= f) s b t ↔ ∃ a u, Returns m s a u ∧ Returns (f a) u b t := by
  constructor
  · intro h
    unfold Returns at h
    rw [EStateM.run_bind] at h
    cases hm : m.run s with
    | ok a u =>
      rw [hm] at h
      exact ⟨a, u, hm, h⟩
    | error e u =>
      rw [hm] at h
      cases h
  · intro h
    obtain ⟨a, u, hm, hf⟩ := h
    exact hm.bind hf

theorem returns_pure_iff {a b : α} {s t : σ} :
    Returns (pure a : EStateM ε σ α) s b t ↔ a = b ∧ s = t := by
  constructor
  · intro h
    injection h with h₁ h₂
    exact ⟨h₁, h₂⟩
  · intro h
    obtain ⟨rfl, rfl⟩ := h
    rfl

/-- Whichever way `m` ends, it ends in a state related to the one it started from. -/
def Carries (R : σ → σ → Prop) (m : EStateM ε σ α) : Prop :=
  ∀ s, Ends m s (fun _ t => R s t) fun _ t => R s t

theorem carries_pure {R : σ → σ → Prop} (hrefl : ∀ s, R s s) (a : α) :
    Carries R (pure a : EStateM ε σ α) := fun s => ends_pure (hrefl s)

theorem carries_throw {R : σ → σ → Prop} (hrefl : ∀ s, R s s) (e : ε) :
    Carries R (throw e : EStateM ε σ α) := fun s => ends_throw (hrefl s)

theorem Carries.bind {R : σ → σ → Prop} (htrans : ∀ s t u, R s t → R t u → R s u)
    {m : EStateM ε σ α} {f : α → EStateM ε σ β} (hm : Carries R m) (hf : ∀ a, Carries R (f a)) :
    Carries R (m >>= f) := by
  intro s
  refine (hm s).bind fun a t ht => ?_
  exact (hf a t).mono (fun _ u hu => htrans s t u ht hu) fun _ u hu => htrans s t u ht hu

theorem Carries.map {R : σ → σ → Prop} {m : EStateM ε σ α} (hm : Carries R m) (f : α → β) :
    Carries R (f <$> m) := fun s => Ends.map (Q := fun _ t => R s t) (hm s)

/-- Whenever `m` returns, its result satisfies `P`. -/
def Yields (P : α → Prop) (m : EStateM ε σ α) : Prop :=
  ∀ s, Ends m s (fun a _ => P a) fun _ _ => True

theorem yields_pure {P : α → Prop} {a : α} (h : P a) : Yields P (pure a : EStateM ε σ α) :=
  fun _ => ends_pure h

theorem yields_throw {P : α → Prop} (e : ε) : Yields P (throw e : EStateM ε σ α) :=
  fun _ => ends_throw trivial

theorem yields_trivial (m : EStateM ε σ α) : Yields (fun _ => True) m := ends_trivial m

theorem Yields.bind {P : β → Prop} {Q : α → Prop} {m : EStateM ε σ α}
    {f : α → EStateM ε σ β} (hm : Yields Q m) (hf : ∀ a, Q a → Yields P (f a)) :
    Yields P (m >>= f) := fun s => (hm s).bind fun a t ha => hf a ha t

/-- Where only what comes last matters. -/
theorem Yields.last {P : β → Prop} {m : EStateM ε σ α} {f : α → EStateM ε σ β}
    (hf : ∀ a, Yields P (f a)) : Yields P (m >>= f) :=
  (yields_trivial m).bind fun a _ => hf a

theorem Yields.map {P : β → Prop} {m : EStateM ε σ α} {f : α → β}
    (hm : Yields (fun a => P (f a)) m) : Yields P (f <$> m) :=
  fun s => Ends.map (Q := fun b _ => P b) (hm s)

/-- What `m` returns from `s`. -/
def result (m : EStateM ε σ α) (s : σ) : Option α :=
  match m.run s with
  | .ok a _ => some a
  | .error _ _ => none

/-- What `m` throws from `s`. -/
def thrown (m : EStateM ε σ α) (s : σ) : Option ε :=
  match m.run s with
  | .ok _ _ => none
  | .error e _ => some e

theorem Returns.result_eq {m : EStateM ε σ α} {s t : σ} {a : α} (h : Returns m s a t) :
    result m s = some a := by
  unfold Returns at h
  rw [result, h]

theorem returns_of_result {m : EStateM ε σ α} {s : σ} {a : α} (h : result m s = some a) :
    ∃ t, Returns m s a t := by
  unfold result at h
  cases hrun : m.run s with
  | ok b t =>
    rw [hrun] at h
    obtain rfl := Option.some.inj h
    exact ⟨t, hrun⟩
  | error e t =>
    rw [hrun] at h
    cases h

theorem Returns.unique {m : EStateM ε σ α} {s t t' : σ} {a a' : α} (h : Returns m s a t)
    (h' : Returns m s a' t') : a = a' ∧ t = t' := by
  have he : EStateM.Result.ok a t = EStateM.Result.ok a' t' := h.symm.trans h'
  injection he with h₁ h₂
  exact ⟨h₁, h₂⟩

end Sdb.Exec
