import Sdb.Core.Exec
import Sdb.L3Vm.Commands

/-!
# Accounting for the VM stack

Every push of the debugger is meant to be popped again before the command is
left. `Moves n m` says that `m` changes the height of the stack by `n`, which may
depend on its result, and records no fault; `Net G n b m` allows the faults `G`
and accounts for them: a null closure name stays on the stack, a slot that could
not be read back leaves one object too few, and an exception leaves at least `b`
objects more than there were.

The rules of composition, and the account of each VM operation.
-/
namespace Sdb.L4

open Sdb.L1 Sdb.L3 Sdb.Exec

section
variable {H : Type} {α β : Type}

/-- The objects a fault leaves on the stack. -/
def Fault.weight : Fault → Int
  | .nullName => 1
  | .unnamedClass => 0
  | .lostKey => -1

def weight : List Fault → Int
  | [] => 0
  | f :: faults => Fault.weight f + weight faults

/-- The outcomes that are no exit of a command. -/
def NoExit (e : Exn) : Prop := e = .fuel ∨ e = .undefined

def Moves (n : α → Int) (m : VmM H α) : Prop :=
  ∀ s, Ends m s
    (fun a t => t.faults = s.faults ∧ (t.stack.length : Int) = s.stack.length + n a)
    (fun e _ => NoExit e)

def Net (G : List Fault → Prop) (n : α → Int) (b : Int) (m : VmM H α) : Prop :=
  ∀ s, Ends m s
    (fun a t => ∃ new, t.faults = new ++ s.faults ∧ G new ∧
      (t.stack.length : Int) = s.stack.length + n a + weight new)
    (fun e t => NoExit e ∨ ((∃ what, e = .runtimeError what) ∧
      s.faults.length < t.faults.length ∧ (s.stack.length : Int) + b ≤ t.stack.length))

/-- Null closure names only. -/
def Names (faults : List Fault) : Prop := ∀ f ∈ faults, f = .nullName

theorem names_nil : Names [] := by simp [Names]

theorem Names.append {l₁ l₂ : List Fault} (h₁ : Names l₁) (h₂ : Names l₂) :
    Names (l₁ ++ l₂) := by
  intro f hf
  rcases List.mem_append.mp hf with hf | hf
  · exact h₁ f hf
  · exact h₂ f hf

theorem weight_append (l₁ l₂ : List Fault) : weight (l₁ ++ l₂) = weight l₁ + weight l₂ := by
  induction l₁ with
  | nil => simp [weight]
  | cons f l₁ ih =>
    rw [List.cons_append, weight, weight, ih]
    omega

theorem Names.weight_eq {l : List Fault} (h : Names l) : weight l = l.length := by
  induction l with
  | nil => rfl
  | cons f l ih =>
    have hf : f = .nullName := h f List.mem_cons_self
    have hl := ih fun g hg => h g (List.mem_cons_of_mem _ hg)
    rw [weight, hl, hf]
    simp only [Fault.weight, List.length_cons]
    omega

/-! ## Composition -/

theorem Moves.congr {n n' : α → Int} {m : VmM H α} (h : Moves n m) (hn : ∀ a, n a = n' a) :
    Moves n' m := by
  have : n = n' := funext hn
  exact this ▸ h

theorem moves_pure {n : α → Int} {a : α} (h : n a = 0) : Moves n (pure a : VmM H α) := by
  intro s
  exact ends_pure ⟨rfl, by omega⟩

theorem moves_throw {n : α → Int} {e : Exn} (h : NoExit e) : Moves n (throw e : VmM H α) :=
  fun _ => ends_throw h

theorem Moves.bind {n : α → Int} {n' : β → Int} {m : VmM H α} {f : α → VmM H β}
    (hm : Moves n m) (hf : ∀ a, Moves (fun b => n' b - n a) (f a)) : Moves n' (m >>= f) := by
  intro s
  refine (hm s).bind fun a t ⟨hft, ht⟩ => (hf a t).mono (fun b u ⟨hfu, hu⟩ => ?_) fun _ _ h => h
  exact ⟨hfu.trans hft, by dsimp only at hu; omega⟩

theorem Moves.net {n : α → Int} {m : VmM H α} (h : Moves n m) {G : List Fault → Prop} (hG : G [])
    {b : Int} : Net G n b m := by
  intro s
  refine (h s).mono (fun a t ⟨hf, ht⟩ => ⟨[], hf, hG, ?_⟩) fun _ _ h => .inl h
  simpa [weight] using ht

theorem Net.congr {G : List Fault → Prop} {n n' : α → Int} {b b' : Int} {m : VmM H α}
    (h : Net G n b m) (hn : ∀ a, n a = n' a) (hb : b' ≤ b) : Net G n' b' m := by
  intro s
  refine (h s).mono (fun a t ⟨new, h₁, h₂, h₃⟩ => ⟨new, h₁, h₂, by rw [h₃, hn a]⟩) ?_
  rintro e t (h | ⟨hw, hf, ht⟩)
  · exact .inl h
  · exact .inr ⟨hw, hf, by omega⟩

/-- Stack moves before an accounted computation. -/
theorem Moves.bind_net {G : List Fault → Prop} {n : α → Int} {n' : β → Int} {b : Int}
    {m : VmM H α} {f : α → VmM H β} (hm : Moves n m)
    (hf : ∀ a, Net G (fun c => n' c - n a) (b - n a) (f a)) : Net G n' b (m >>= f) := by
  intro s
  refine ((hm s).mono (fun _ _ h => h) fun _ _ h => .inl h).bind fun a t ⟨hft, ht⟩ =>
    (hf a t).mono (fun c u ⟨new, h₁, h₂, h₃⟩ =>
      ⟨new, hft ▸ h₁, h₂, by dsimp only at h₃; omega⟩) ?_
  rintro e u (h | ⟨hw, hfu, hu⟩)
  · exact .inl h
  · exact .inr ⟨hw, hft ▸ hfu, by omega⟩

/-- Stack moves after an accounted computation. -/
theorem Net.bind_moves {G : List Fault → Prop} {n : α → Int} {n' : β → Int} {b : Int}
    {m : VmM H α} {f : α → VmM H β} (hm : Net G n b m)
    (hf : ∀ a, Moves (fun c => n' c - n a) (f a)) : Net G n' b (m >>= f) := by
  intro s
  refine (hm s).bind fun a t ⟨new, h₁, h₂, h₃⟩ => (hf a t).mono ?_ fun _ _ h => .inl h
  rintro c u ⟨hf, hu⟩
  exact ⟨new, hf.trans h₁, h₂, by dsimp only at hu; omega⟩

/-- Two computations that leave null closure names only. -/
theorem Net.bind {n : α → Int} {n' : β → Int} {b : Int} {m : VmM H α} {f : α → VmM H β}
    (hm : Net Names n b m) (hf : ∀ a, Net Names (fun c => n' c - n a) (b - n a) (f a)) :
    Net Names n' b (m >>= f) := by
  intro s
  refine (hm s).bind fun a t ⟨new, h₁, h₂, h₃⟩ => (hf a t).mono ?_ ?_
  · rintro c u ⟨new', h₁', h₂', h₃'⟩
    refine ⟨new' ++ new, by rw [h₁', h₁, List.append_assoc], h₂'.append h₂, ?_⟩
    rw [weight_append]
    dsimp only at h₃'
    omega
  · rintro e u (h | ⟨hw, hfu, hu⟩)
    · exact .inl h
    · have := h₂.weight_eq
      rw [h₁, List.length_append] at hfu
      exact .inr ⟨hw, by omega, by omega⟩

/-! ## The stack operations -/

theorem moves_sqGetstackobj (k : Nat) : Moves (H := H) (fun _ => 0) (sqGetstackobj k) := by
  intro s
  unfold sqGetstackobj Ends EStateM.run
  dsimp only
  cases s.stack[k - 1]? with
  | none => exact .inr rfl
  | some o => exact ⟨rfl, by omega⟩

theorem moves_sqPop (k : Nat) : Moves (H := H) (fun _ => -k) (sqPop k) := by
  intro s
  unfold sqPop Ends EStateM.run
  dsimp only
  by_cases h : k ≤ s.stack.length
  · rw [if_pos h]
    exact ⟨rfl, by rw [List.length_drop]; omega⟩
  · rw [if_neg h]
    exact .inr rfl

theorem moves_sqPoptop : Moves (H := H) (fun _ => -1) sqPoptop := moves_sqPop 1

theorem moves_sqPushobject (o : SqObject) : Moves (H := H) (fun _ => 1) (sqPushobject o) :=
  fun s => ⟨rfl, by simp⟩

theorem moves_get : Moves (H := H) (fun _ => 0) get := fun s => ⟨rfl, by simp⟩

theorem moves_sqGettype (k : Nat) : Moves (H := H) (fun _ => 0) (sqGettype k) :=
  (moves_sqGetstackobj k).bind fun _ => moves_pure rfl

variable (api : SqApi H)

theorem moves_sqGetinteger (k : Nat) : Moves (fun _ => 0) (sqGetinteger api k) := by
  refine (moves_sqGetstackobj k).bind fun o => ?_
  cases o <;> exact moves_pure rfl

theorem moves_sqGetstring (k : Nat) : Moves (H := H) (fun _ => 0) (sqGetstring k) := by
  refine (moves_sqGetstackobj k).bind fun o => ?_
  cases o <;> exact moves_pure rfl

theorem moves_sqGetsize (k : Nat) : Moves (fun _ => 0) (sqGetsize api k) :=
  (moves_sqGetstackobj k).bind fun _ => moves_get.bind fun _ => moves_pure rfl

theorem moves_sqGethash (k : Nat) : Moves (fun _ => 0) (sqGethash api k) :=
  (moves_sqGetstackobj k).bind fun _ => moves_get.bind fun _ => moves_pure rfl

theorem moves_sqGetclosureinfo (k : Nat) : Moves (fun _ => 0) (sqGetclosureinfo api k) :=
  (moves_sqGetstackobj k).bind fun _ => moves_get.bind fun _ => moves_pure rfl

/-- One object if the VM has an answer. -/
def pushed (answered : Bool) : Int := if answered then 1 else 0

theorem moves_sqPushAnswer (query : H → SqObject → Option SqObject) (k : Nat) :
    Moves pushed (sqPushAnswer query k) := by
  refine (moves_sqGetstackobj k).bind fun o => moves_get.bind fun s => ?_
  cases query s.heap o with
  | none => exact moves_pure rfl
  | some answer => exact (moves_sqPushobject answer).bind fun _ => moves_pure rfl

theorem moves_sqPushroottable : Moves (fun _ => 1) (sqPushroottable api) :=
  moves_get.bind fun _ => moves_sqPushobject _

theorem moves_sqPush (k : Nat) : Moves (H := H) (fun _ => 1) (sqPush k) :=
  (moves_sqGetstackobj k).bind fun _ => moves_sqPushobject _

theorem moves_sqGetlocal (level nSeq : Nat) :
    Moves (fun name => pushed name.isSome) (sqGetlocal api level nSeq) := by
  refine moves_get.bind fun s => ?_
  cases api.getlocal s.heap level nSeq with
  | none => exact moves_pure rfl
  | some p => exact (moves_sqPushobject p.2).bind fun _ => moves_pure rfl

theorem moves_sqStackinfos (level : Nat) : Moves (fun _ => 0) (sqStackinfos api level) :=
  moves_get.bind fun _ => moves_pure rfl

/-- Key and value if there is a next slot. -/
def advanced (next : Bool) : Int := if next then 2 else 0

theorem moves_sqNext (k : Nat) : Moves advanced (sqNext api k) := by
  intro s
  obtain ⟨stack, heap, faults⟩ := s
  unfold sqNext Ends EStateM.run
  dsimp only
  cases stack with
  | nil => exact .inr rfl
  | cons iter rest =>
    cases (iter :: rest)[k - 1]? with
    | none => exact .inr rfl
    | some o =>
      dsimp only
      rcases api.advance heap o iter with ⟨h, _ | p⟩
      · exact ⟨rfl, by simp [advanced]⟩
      · exact ⟨rfl, by simp [advanced]; omega⟩

/-- The key goes if there is no value for it. -/
def looked (found : Bool) : Int := if found then 0 else -1

theorem moves_sqGet (k : Nat) : Moves looked (sqGet api k) := by
  intro s
  obtain ⟨stack, heap, faults⟩ := s
  unfold sqGet Ends EStateM.run
  dsimp only
  cases stack with
  | nil => exact .inr rfl
  | cons key rest =>
    cases (key :: rest)[k - 1]? with
    | none => exact .inr rfl
    | some o =>
      dsimp only
      rcases api.get heap o key with ⟨h, _ | val⟩
      · refine ⟨rfl, ?_⟩
        simp only [looked, List.length_cons, Int.natCast_add, Int.cast_ofNat_Int,
          Bool.false_eq_true, if_false]
        omega
      · exact ⟨rfl, by simp [looked]⟩

/-- Key and value go if the slot was set. -/
def stored (ok : Bool) : Int := if ok then -2 else 0

theorem moves_sqSet (k : Nat) : Moves stored (sqSet api k) := by
  intro s
  obtain ⟨stack, heap, faults⟩ := s
  unfold sqSet Ends EStateM.run
  dsimp only
  rcases stack with _ | ⟨val, _ | ⟨key, rest⟩⟩
  · exact .inr rfl
  · exact .inr rfl
  · cases (val :: key :: rest)[k - 1]? with
    | none => exact .inr rfl
    | some o =>
      dsimp only
      rcases api.set heap o key val with ⟨h, _ | _⟩
      · exact ⟨rfl, by simp [stored]⟩
      · exact ⟨rfl, by simp [stored]; omega⟩

theorem moves_sqRawset (k : Nat) : Moves (fun _ => -2) (sqRawset api k) := by
  intro s
  obtain ⟨stack, heap, faults⟩ := s
  unfold sqRawset Ends EStateM.run
  dsimp only
  rcases stack with _ | ⟨val, _ | ⟨key, rest⟩⟩
  · exact .inr rfl
  · exact .inr rfl
  · cases (val :: key :: rest)[k - 1]? with
    | none => exact .inr rfl
    | some o =>
      cases o with
      | table t =>
        by_cases hk : key = .null
        · dsimp only
          rw [if_pos hk]
          exact .inr rfl
        · dsimp only
          rw [if_neg hk]
          exact ⟨rfl, by simp; omega⟩
      | _ => exact .inr rfl

theorem moves_sqNewtable : Moves (fun _ => 1) (sqNewtable api) := fun _ => ⟨rfl, by simp⟩

end

end Sdb.L4
