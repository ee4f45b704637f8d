import Sdb.L4Display.Runs

/-!
# Selecting by raw words

`GetObjectFromExpression` looks each key up with `sq_get`, and in a table or an
instance goes on from a slot found by a scan that compares raw words. Nothing is
assumed of the VM here: `FirstWithRaw` says which slot that is, `Selects` what one
key leads to, and `Walks` where a whole chain does.

* `selectKey`: what the code does for one key, however it ends;
* `walks_of_run`, `run_of_walks`: the code returns what `Walks` says;
* `found_iff`: for which chains the object found is the one `sq_get` finds.
-/
namespace Sdb.L4

open Sdb.L1 Sdb.L3 Sdb.Exec

section
variable {H : Type} (api : SqApi H)

/-- The value of the first slot, from the iterator on, whose key has the raw word of
`key`, or none among all slots, with the heap that `sq_next` leaves; `none` where there
is none among the first `n`. -/
def firstWithRaw (o key : SqObject) : Nat → H → SqObject → Option (H × Option SqObject)
  | 0, _, _ => none
  | n + 1, h, iter =>
    match readInteger api iter with
    | none => some (h, none)
    | some _ =>
      match api.advance h o iter with
      | (h', none) => some (h', none)
      | (h', some (k, v, iter')) =>
        if api.raw k = api.raw key then some (h', some v) else firstWithRaw o key n h' iter'

/-- `sq_next` comes to this slot first, or to the end without one, and leaves the heap `h'`. -/
def FirstWithRaw (h : H) (o key iter : SqObject) (h' : H) (r : Option SqObject) : Prop :=
  ∃ n, firstWithRaw api o key n h iter = some (h', r)

/-- The container is asked for the key. -/
def Asks : SqObject → SqObject → Prop
  | .array _, key => key.isNumeric = true
  | .table _, _ | .instance_ _, _ => True
  | _, _ => False

/-- What one key leads to: the heap after the lookup and the scan, and the object the chain goes
on from, if there is one. -/
inductive Selects (h : H) (o key : SqObject) : H → Option SqObject → Prop
  | refused (ha : ¬ Asks o key) : Selects h o key h none
  | absent {h' : H} (ha : Asks o key) (hg : api.get h o key = (h', none)) :
    Selects h o key h' none
  | element {h' : H} {v : SqObject} (ho : o.type = .array) (ha : Asks o key)
    (hg : api.get h o key = (h', some v)) : Selects h o key h' (some v)
  | slot {h' h'' : H} {found : SqObject} {r : Option SqObject}
    (ho : o.type = .table ∨ o.type = .instance_) (hg : api.get h o key = (h', some found))
    (hs : FirstWithRaw api h' o key (.integer 0) h'' r) : Selects h o key h'' r

/-- A chain of keys: the object found, or none if a key leads nowhere. -/
inductive Walks : H → SqObject → List SqObject → H → Option SqObject → Prop
  | here (h : H) (o : SqObject) : Walks h o [] h (some o)
  | stops {h h' : H} {o key : SqObject} {keys : List SqObject}
    (hs : Selects api h o key h' none) : Walks h o (key :: keys) h' none
  | goes {h h' h'' : H} {o key v : SqObject} {keys : List SqObject} {r : Option SqObject}
    (hs : Selects api h o key h' (some v)) (hw : Walks h' v keys h'' r) :
    Walks h o (key :: keys) h'' r

/-- The heap that the code is in when it goes on from the value of a key that `sq_get`
has found: the scan of a table or an instance is over. -/
def Scanned (h : H) (o key : SqObject) (h' : H) : Prop :=
  if o.type = .table ∨ o.type = .instance_ then ∃ r, FirstWithRaw api h o key (.integer 0) h' r
  else h' = h

/-- The VM's own lookup, key by key, each in the heap that the code is in then. -/
inductive SqGets : H → SqObject → List SqObject → Option SqObject → Prop
  | here (h : H) (o : SqObject) : SqGets h o [] (some o)
  | absent {h h' : H} {o key : SqObject} {keys : List SqObject}
    (hg : api.get h o key = (h', none)) : SqGets h o (key :: keys) none
  | found {h h' h'' : H} {o key v : SqObject} {keys : List SqObject} {r : Option SqObject}
    (hg : api.get h o key = (h', some v)) (hs : Scanned api h' o key h'')
    (hr : SqGets h'' v keys r) : SqGets h o (key :: keys) r

/-- In every table and instance on the way, the first slot with the raw word of the
key holds the value that `sq_get` finds. -/
def RawAgrees : H → SqObject → List SqObject → Prop
  | _, _, [] => True
  | h, o, key :: keys => ∀ h' v, api.get h o key = (h', some v) →
    match o.type with
    | .array => key.isNumeric = true → RawAgrees h' v keys
    | .table | .instance_ =>
      ∀ h'' slot, FirstWithRaw api h' o key (.integer 0) h'' (some slot) →
        slot = v ∧ RawAgrees h'' v keys
    | _ => True

/-- For this chain: an object that `GetObjectFromExpression` returns is the one that
`sq_get` finds. -/
def FindsBySqGet (h : H) (o : SqObject) (keys : List SqObject) : Prop :=
  ∀ fuel rest faults value path t,
    Returns (getObjectFromExpression api fuel keys) ⟨o :: rest, h, faults⟩
      (.ok (value, path)) t →
    SqGets api h o keys (some value)

variable {api} {h h' h'' h₁ h₂ : H} {o key : SqObject}

/-! ## FirstWithRaw -/

theorem sqGetinteger_run (iter : SqObject) (rest : List SqObject) (h : H) (faults : List Fault) :
    (sqGetinteger api 1).run ⟨iter :: rest, h, faults⟩ =
      .ok (readInteger api iter) ⟨iter :: rest, h, faults⟩ := by
  cases iter <;> rfl

theorem sqNext_run (iter top : SqObject) (rest : List SqObject) (faults : List Fault) :
    (sqNext api 3).run ⟨iter :: top :: o :: rest, h, faults⟩ =
      match api.advance h o iter with
      | (h', some (k, v, iter')) => .ok true ⟨v :: k :: iter' :: top :: o :: rest, h', faults⟩
      | (h', none) => .ok false ⟨iter :: top :: o :: rest, h', faults⟩ := rfl

theorem sqGet_run (key : SqObject) (rest : List SqObject) (faults : List Fault) :
    (sqGet api 2).run ⟨key :: o :: rest, h, faults⟩ =
      match api.get h o key with
      | (h', some v) => .ok true ⟨v :: o :: rest, h', faults⟩
      | (h', none) => .ok false ⟨o :: rest, h', faults⟩ := rfl

theorem firstWithRaw_mono {n m : Nat} {iter : SqObject} {r : H × Option SqObject}
    (hs : firstWithRaw api o key n h iter = some r) (hle : n ≤ m) :
    firstWithRaw api o key m h iter = some r := by
  induction n generalizing m h iter with
  | zero => cases hs
  | succ n ih =>
    obtain ⟨m, rfl⟩ : ∃ k, m = k + 1 := ⟨m - 1, by omega⟩
    rw [firstWithRaw] at hs ⊢
    cases hi : readInteger api iter with
    | none =>
      rw [hi] at hs
      exact hs
    | some i =>
      rw [hi] at hs
      dsimp only at hs ⊢
      rcases hn : api.advance h o iter with ⟨h', _ | ⟨k, v, iter'⟩⟩
      · rw [hn] at hs
        exact hs
      · rw [hn] at hs
        dsimp only at hs ⊢
        by_cases hraw : api.raw k = api.raw key
        · rw [if_pos hraw] at hs ⊢
          exact hs
        · rw [if_neg hraw] at hs ⊢
          exact ih hs (by omega)

theorem FirstWithRaw.unique {iter : SqObject} {r r' : Option SqObject}
    (hs : FirstWithRaw api h o key iter h₁ r) (hs' : FirstWithRaw api h o key iter h₂ r') :
    h₁ = h₂ ∧ r = r' := by
  obtain ⟨n, hn⟩ := hs
  obtain ⟨m, hm⟩ := hs'
  have hn' := firstWithRaw_mono hn (Nat.le_max_left n m)
  have hm' := firstWithRaw_mono hm (Nat.le_max_right n m)
  exact Prod.mk.inj (Option.some.inj (hn'.symm.trans hm'))

/-- What follows a hit: `found` runs on the value, over the key, the iterator and the
value that `sq_get` pushed. -/
def afterHit (found : VmM H (Except ReturnCode (SqObject × List UInt32))) (i : Int) :
    VmM H (Except ReturnCode (SqObject × List UInt32)) := do
  let childRetVal ← found
  sqPop 4
  return childRetVal.map fun (value, path) => (value, UInt32.ofInt i :: path)

variable {found : VmM H (Except ReturnCode (SqObject × List UInt32))}
  {iter top : SqObject} {rest : List SqObject} {faults : List Fault}

variable (api h o key found iter top rest faults) in
/-- The scan of the code ends as `firstWithRaw` says. -/
theorem scanForKey_run (n : Nat) :
    match firstWithRaw api o key n h iter with
    | none => ∃ t, (scanForKey api key found n).run ⟨iter :: top :: o :: rest, h, faults⟩ =
        .error .fuel t
    | some (h', none) => (scanForKey api key found n).run ⟨iter :: top :: o :: rest, h, faults⟩ =
        .ok (.error .invalidParameter) ⟨o :: rest, h', faults⟩
    | some (h', some v) => ∃ i k iter',
        (scanForKey api key found n).run ⟨iter :: top :: o :: rest, h, faults⟩ =
          (afterHit found i).run ⟨v :: k :: iter' :: top :: o :: rest, h', faults⟩ := by
  induction n generalizing h iter with
  | zero => exact ⟨_, rfl⟩
  | succ n ih =>
    rw [firstWithRaw, scanForKey, EStateM.run_bind, sqGetinteger_run]
    cases hi : readInteger api iter with
    | none => rfl
    | some i =>
      dsimp only
      rw [EStateM.run_bind, sqNext_run]
      rcases hn : api.advance h o iter with ⟨h', _ | ⟨k, v, iter'⟩⟩
      · rfl
      · dsimp only
        have hkey : (sqGetstackobj (H := H) 2).run
          ⟨v :: k :: iter' :: top :: o :: rest, h', faults⟩ =
            .ok k ⟨v :: k :: iter' :: top :: o :: rest, h', faults⟩ := rfl
        rw [if_pos rfl, EStateM.run_bind, hkey]
        dsimp only
        by_cases hraw : api.raw k = api.raw key
        · rw [if_pos hraw, if_pos hraw]
          exact ⟨i, k, iter', rfl⟩
        · rw [if_neg hraw, if_neg hraw]
          exact ih h' iter'

/-! ## One key -/

theorem Selects.unique {r r' : Option SqObject} (hs : Selects api h o key h' r)
    (hs' : Selects api h o key h'' r') : h' = h'' ∧ r = r' := by
  cases hs with
  | refused ha =>
    cases hs' with
    | refused _ => exact ⟨rfl, rfl⟩
    | absent ha' _ => exact absurd ha' ha
    | element _ ha' _ => exact absurd ha' ha
    | slot ho _ _ => cases o <;> simp [SqObject.type, Asks] at ho ha
  | absent ha hg =>
    cases hs' with
    | refused ha' => exact absurd ha ha'
    | absent _ hg' =>
      rw [hg] at hg'
      cases hg'
      exact ⟨rfl, rfl⟩
    | element _ _ hg' => rw [hg] at hg'; cases hg'
    | slot _ hg' _ => rw [hg] at hg'; cases hg'
  | element ho ha hg =>
    cases hs' with
    | refused ha' => exact absurd ha ha'
    | absent _ hg' => rw [hg] at hg'; cases hg'
    | element _ _ hg' =>
      rw [hg] at hg'
      cases hg'
      exact ⟨rfl, rfl⟩
    | slot ho' _ _ => rw [ho] at ho'; simp at ho'
  | slot ho hg hscan =>
    cases hs' with
    | refused ha' => cases o <;> simp [SqObject.type, Asks] at ho ha'
    | absent _ hg' => rw [hg] at hg'; cases hg'
    | element ho' _ _ => rw [ho'] at ho; simp at ho
    | slot _ hg' hscan' =>
      rw [hg] at hg'
      cases hg'
      exact hscan.unique hscan'

/-- Where a selection ends, a large enough bound sees the end of the scan. -/
theorem Selects.bound {r : Option SqObject} (hs : Selects api h o key h' r) :
    ∃ N, ∀ fuel, N ≤ fuel → ∀ h'' found, o.type = .table ∨ o.type = .instance_ →
      api.get h o key = (h'', some found) →
        firstWithRaw api o key fuel h'' (.integer 0) ≠ none := by
  cases hs with
  | refused ha =>
    refine ⟨0, fun fuel _ h'' found ho _ => absurd ?_ ha⟩
    cases o <;> simp [SqObject.type, Asks] at ho ⊢
  | absent _ hg =>
    refine ⟨0, fun fuel _ h'' found _ hget => ?_⟩
    rw [hg] at hget
    cases hget
  | element ho _ _ =>
    refine ⟨0, fun fuel _ h'' found ho' _ => ?_⟩
    rw [ho] at ho'
    simp at ho'
  | slot _ hg hscan =>
    obtain ⟨n, hn⟩ := hscan
    refine ⟨n, fun fuel hle h'' found _ hget hnone => ?_⟩
    rw [hg] at hget
    cases hget
    rw [firstWithRaw_mono hn hle] at hnone
    cases hnone

variable (api) in
/-- What follows a selection: the rest of the chain runs on the object, over what was
pushed for it. -/
def afterKey (fuel : Nat) (keys : List SqObject) (above : Nat) (part : UInt32) :
    VmM H (Except ReturnCode (SqObject × List UInt32)) := do
  let childRetVal ← getObjectFromExpression api fuel keys
  sqPop (above + 1)
  return childRetVal.map fun (value, path) => (value, part :: path)

theorem afterKey_run {fuel : Nat} {keys above rest : List SqObject} {part : UInt32} {v : SqObject}
    {faults : List Fault} {ret : Except ReturnCode (SqObject × List UInt32)}
    (hret : Returns (getObjectFromExpression api fuel keys) ⟨v :: (above ++ o :: rest), h, faults⟩
      ret ⟨v :: (above ++ o :: rest), h', faults⟩) :
    Returns (afterKey api fuel keys above.length part) ⟨v :: above ++ o :: rest, h, faults⟩
      (ret.map fun (value, path) => (value, part :: path)) ⟨o :: rest, h', faults⟩ := by
  have hpop : Gives (sqPop (v :: above).length) h' (v :: above ++ [o]) () h' [o] :=
    gives_sqPop (v :: above)
  have hback := hpop rest faults
  simp only [List.append_assoc, List.singleton_append] at hback
  have hrun : Returns (sqPop (H := H) (above.length + 1)) ⟨v :: (above ++ o :: rest), h', faults⟩
    () ⟨o :: rest, h', faults⟩ := hback
  exact hret.bind (hrun.bind rfl)

variable (api) in
/-- The three ways the code can go for a key: the bound is used up, the key leads
nowhere, or the chain goes on from an object. -/
inductive Goes (fuel : Nat) (h : H) (o key : SqObject) (keys rest : List SqObject)
    (faults : List Fault) :
    EStateM.Result Exn (SqVm H) (Except ReturnCode (SqObject × List UInt32)) → Prop
  | stuck {h' : H} {t : SqVm H} {found : SqObject} (ho : o.type = .table ∨ o.type = .instance_)
    (hg : api.get h o key = (h', some found))
    (hs : firstWithRaw api o key fuel h' (.integer 0) = none) :
    Goes fuel h o key keys rest faults (.error .fuel t)
  | stops {h' : H} (hs : Selects api h o key h' none) :
    Goes fuel h o key keys rest faults (.ok (.error .invalidParameter) ⟨o :: rest, h', faults⟩)
  | goes {h' : H} {v : SqObject} {above : List SqObject} {part : UInt32}
    (hs : Selects api h o key h' (some v)) :
    Goes fuel h o key keys rest faults
      ((afterKey api fuel keys above.length part).run ⟨v :: above ++ o :: rest, h', faults⟩)

/-- The lookup and the scan in a table or an instance. -/
theorem selectSlot (ho : o.type = .table ∨ o.type = .instance_) (fuel : Nat)
    (keys rest : List SqObject) (faults : List Fault) :
    Goes api fuel h o key keys rest faults
      ((do
        sqPushobject key
        if ← sqGet api 2 then
          sqPushinteger 0
          scanForKey api key (getObjectFromExpression api fuel keys) fuel
        else return .error .invalidParameter : VmM H _).run ⟨o :: rest, h, faults⟩) := by
  have ha : Asks o key := by cases o <;> simp [SqObject.type, Asks] at ho ⊢
  rw [EStateM.run_bind]
  show Goes api fuel h o key keys rest faults
    (EStateM.run (sqGet api 2 >>= _) ⟨key :: o :: rest, h, faults⟩)
  rw [EStateM.run_bind, sqGet_run]
  rcases hget : api.get h o key with ⟨h', r⟩
  cases r with
  | none => exact .stops (.absent ha hget)
  | some found =>
    dsimp only
    rw [if_pos rfl]
    show Goes api fuel h o key keys rest faults
      ((scanForKey api key (getObjectFromExpression api fuel keys) fuel).run
        ⟨.integer 0 :: found :: o :: rest, h', faults⟩)
    have hscan := scanForKey_run api h' o key (getObjectFromExpression api fuel keys) (.integer 0)
      found rest faults fuel
    rcases hs : firstWithRaw api o key fuel h' (.integer 0) with _ | ⟨h'', _ | v⟩
    · rw [hs] at hscan
      obtain ⟨t, hrun⟩ := hscan
      rw [hrun]
      exact .stuck ho hget hs
    · rw [hs] at hscan
      rw [show EStateM.run _ _ = _ from hscan]
      exact .stops (.slot ho hget ⟨fuel, hs⟩)
    · rw [hs] at hscan
      obtain ⟨i, k, iter', hrun⟩ := hscan
      rw [hrun]
      have hgoes : Goes api fuel h o key keys rest faults
          ((afterKey api fuel keys [k, iter', found].length (UInt32.ofInt i)).run
            ⟨v :: [k, iter', found] ++ o :: rest, h'', faults⟩) :=
        .goes (.slot ho hget ⟨fuel, hs⟩)
      exact hgoes

variable (api h o key) in
/-- **What the code does for a key**, however it ends. -/
theorem selectKey (fuel : Nat) (keys rest : List SqObject) (faults : List Fault) :
    Goes api fuel h o key keys rest faults
      ((getObjectFromExpression api fuel (key :: keys)).run ⟨o :: rest, h, faults⟩) := by
  have hrefused : ∀ {o : SqObject}, ¬ Asks o key → Goes api fuel h o key keys rest faults
      ((pure (.error .invalidParameter) : VmM H _).run ⟨o :: rest, h, faults⟩) :=
    fun ha => .stops (.refused ha)
  rw [getObjectFromExpression, EStateM.run_bind]
  cases o with
  | table a => exact selectSlot (.inl rfl) fuel keys rest faults
  | instance_ a => exact selectSlot (.inr rfl) fuel keys rest faults
  | array a =>
    show Goes api fuel h (.array a) key keys rest faults
      (EStateM.run (if !key.isNumeric then _ else _) ⟨.array a :: rest, h, faults⟩)
    by_cases hnum : key.isNumeric = true
    · rw [if_neg (by simp [hnum]), EStateM.run_bind]
      show Goes api fuel h (.array a) key keys rest faults
        (EStateM.run (sqGetinteger api 1 >>= _) ⟨key :: .array a :: rest, h, faults⟩)
      rw [EStateM.run_bind, sqGetinteger_run]
      dsimp only
      rw [EStateM.run_bind, sqGet_run]
      rcases hget : api.get h (.array a) key with ⟨h', r⟩
      cases r with
      | none => exact .stops (.absent hnum hget)
      | some v =>
        have hgoes : Goes api fuel h (.array a) key keys rest faults
            ((afterKey api fuel keys [].length (UInt32.ofInt ((readInteger api key).getD 0))).run
              ⟨v :: [] ++ .array a :: rest, h', faults⟩) := .goes (.element rfl hnum hget)
        exact hgoes
    · rw [if_pos (by simp [hnum])]
      exact hrefused hnum
  | _ => exact hrefused id

/-! ## A chain -/

/-- What a run returns is what `Walks` says; the stack is as it was. -/
theorem walks_of_run {fuel : Nat} {keys rest : List SqObject} {faults : List Fault}
    {rc : Except ReturnCode (SqObject × List UInt32)} {t : SqVm H}
    (hr : Returns (getObjectFromExpression api fuel keys) ⟨o :: rest, h, faults⟩ rc t) :
    ∃ h', Walks api h o keys h' (rc.toOption.map Prod.fst) ∧ t = ⟨o :: rest, h', faults⟩ := by
  induction keys generalizing h o rest rc t with
  | nil =>
    obtain ⟨rfl, rfl⟩ := returns_pure_iff.mp hr
    exact ⟨h, .here h o, rfl⟩
  | cons key keys ih =>
    have hgoes : Goes api fuel h o key keys rest faults (.ok rc t) :=
      hr ▸ selectKey api h o key fuel keys rest faults
    generalize hend : EStateM.Result.ok rc t = r at hgoes
    cases hgoes with
    | stuck _ _ => cases hend
    | @stops h' hs =>
      cases hend
      exact ⟨h', .stops hs, rfl⟩
    | @goes h' v above part hs =>
      have hafter : Returns (afterKey api fuel keys above.length part)
          ⟨v :: above ++ o :: rest, h', faults⟩ rc t := hend.symm
      obtain ⟨ret, u, hret, -⟩ := returns_bind_iff.mp hafter
      obtain ⟨h'', hw, rfl⟩ := ih hret
      obtain ⟨rfl, rfl⟩ := hafter.unique (afterKey_run hret)
      refine ⟨h'', ?_, rfl⟩
      cases ret with
      | error code => exact .goes hs hw
      | ok p => exact .goes hs hw

/-- A run that does not return has used up its bound. -/
theorem fuel_of_throws {fuel : Nat} {keys rest : List SqObject} {faults : List Fault} {e : Exn}
    {t : SqVm H}
    (hr : (getObjectFromExpression api fuel keys).run ⟨o :: rest, h, faults⟩ = .error e t) :
    e = .fuel := by
  induction keys generalizing h o rest with
  | nil => cases hr
  | cons key keys ih =>
    have hgoes : Goes api fuel h o key keys rest faults (.error e t) :=
      hr ▸ selectKey api h o key fuel keys rest faults
    generalize hend : EStateM.Result.error e t = r at hgoes
    cases hgoes with
    | stuck _ _ _ =>
      cases hend
      rfl
    | stops _ => cases hend
    | @goes h' v above part hs =>
      cases hret : (getObjectFromExpression api fuel keys).run
          ⟨v :: (above ++ o :: rest), h', faults⟩ with
      | error e' t' =>
        rw [List.cons_append, afterKey, EStateM.run_bind, hret] at hend
        cases hend
        exact ih hret
      | ok rc t' =>
        obtain ⟨h'', -, rfl⟩ := walks_of_run hret
        rw [show EStateM.run _ _ = _ from afterKey_run hret] at hend
        cases hend

/-- With a large enough bound the code returns what `Walks` says. -/
theorem run_of_walks {keys : List SqObject} {r : Option SqObject}
    (hw : Walks api h o keys h' r) : ∃ N, ∀ fuel, N ≤ fuel → ∀ rest faults, ∃ rc,
      Returns (getObjectFromExpression api fuel keys) ⟨o :: rest, h, faults⟩ rc
        ⟨o :: rest, h', faults⟩ ∧ rc.toOption.map Prod.fst = r := by
  induction hw with
  | here h o => exact ⟨0, fun _ _ _ _ => ⟨.ok (o, []), rfl, rfl⟩⟩
  | @stops h h' o key keys hs =>
    obtain ⟨N, hN⟩ := hs.bound
    refine ⟨N, fun fuel hle rest faults => ?_⟩
    have hgoes := selectKey api h o key fuel keys rest faults
    unfold Returns
    generalize EStateM.run _ _ = run at hgoes ⊢
    cases hgoes with
    | stuck ho hg hscan => exact absurd hscan (hN fuel hle _ _ ho hg)
    | stops hs' =>
      obtain ⟨rfl, -⟩ := hs.unique hs'
      exact ⟨_, rfl, rfl⟩
    | goes hs' => exact absurd (hs.unique hs').2 (by simp)
  | @goes h h' h'' o key v keys r hs _ ih =>
    obtain ⟨N, hN⟩ := hs.bound
    obtain ⟨M, hM⟩ := ih
    refine ⟨max N M, fun fuel hle rest faults => ?_⟩
    have hgoes := selectKey api h o key fuel keys rest faults
    unfold Returns
    generalize EStateM.run _ _ = run at hgoes ⊢
    cases hgoes with
    | stuck ho hg hscan => exact absurd hscan (hN fuel (by omega) _ _ ho hg)
    | stops hs' => exact absurd (hs.unique hs').2 (by simp)
    | @goes _ w above part hs' =>
      obtain ⟨rfl, hv⟩ := hs.unique hs'
      obtain rfl := Option.some.inj hv
      obtain ⟨rc, hrc, hr⟩ := hM fuel (by omega) (above ++ o :: rest) faults
      refine ⟨_, afterKey_run hrc, ?_⟩
      cases rc with
      | error code => exact hr
      | ok p => exact hr

/-! ## Main result -/

/-- A selection of an object is the value of a slot, where `sq_get` found one too. -/
theorem selects_some_iff {slot : SqObject} : Selects api h o key h'' (some slot) ↔
    ∃ h' v, api.get h o key = (h', some v) ∧
      ((o.type = .array ∧ key.isNumeric = true ∧ slot = v ∧ h'' = h') ∨
        ((o.type = .table ∨ o.type = .instance_) ∧
          FirstWithRaw api h' o key (.integer 0) h'' (some slot))) := by
  constructor
  · intro hs
    cases hs with
    | element ho ha hg =>
      refine ⟨_, slot, hg, .inl ⟨ho, ?_, rfl, rfl⟩⟩
      cases o <;> simp [SqObject.type] at ho
      exact ha
    | slot ho hg hscan => exact ⟨_, _, hg, .inr ⟨ho, hscan⟩⟩
  · intro h
    obtain ⟨h', v, hg, ⟨ho, hnum, rfl, rfl⟩ | ⟨ho, hscan⟩⟩ := h
    · refine .element ho ?_ hg
      cases o <;> simp [SqObject.type] at ho
      exact hnum
    · exact .slot ho hg hscan

/-- The code goes on in the heap after the scan. -/
theorem Selects.scanned {slot : SqObject} (hs : Selects api h o key h'' (some slot)) :
    ∃ h' v, api.get h o key = (h', some v) ∧ Scanned api h' o key h'' := by
  obtain ⟨h', v, hg, ⟨ho, -, -, rfl⟩ | ⟨ho, hscan⟩⟩ := selects_some_iff.mp hs
  · exact ⟨_, v, hg, by simp [Scanned, ho]⟩
  · refine ⟨h', v, hg, ?_⟩
    rw [Scanned, if_pos ho]
    exact ⟨_, hscan⟩

theorem Scanned.unique (hs : Scanned api h o key h₁) (hs' : Scanned api h o key h₂) :
    h₁ = h₂ := by
  unfold Scanned at hs hs'
  by_cases ho : o.type = .table ∨ o.type = .instance_
  · rw [if_pos ho] at hs hs'
    obtain ⟨r, hs⟩ := hs
    obtain ⟨r', hs'⟩ := hs'
    exact (hs.unique hs').1
  · rw [if_neg ho] at hs hs'
    exact hs.trans hs'.symm

/-- The condition, key by key. -/
theorem rawAgrees_cons {keys : List SqObject} : RawAgrees api h o (key :: keys) ↔
    ∀ h'' slot, Selects api h o key h'' (some slot) →
      (∃ h', api.get h o key = (h', some slot)) ∧ RawAgrees api h'' slot keys := by
  simp only [selects_some_iff]
  constructor
  · intro ha h'' slot hs
    obtain ⟨h', v, hg, ⟨ho, hnum, rfl, rfl⟩ | ⟨ho, hscan⟩⟩ := hs
    · have hv := ha _ slot hg
      rw [ho] at hv
      exact ⟨⟨_, hg⟩, hv hnum⟩
    · have hv := ha h' v hg
      rcases ho with ho | ho
      all_goals
        rw [ho] at hv
        obtain ⟨rfl, hrest⟩ := hv h'' slot hscan
        exact ⟨⟨h', hg⟩, hrest⟩
  · intro ha h' v hg
    have hslot : (o.type = .table ∨ o.type = .instance_) → ∀ h'' slot,
        FirstWithRaw api h' o key (.integer 0) h'' (some slot) →
          slot = v ∧ RawAgrees api h'' v keys := by
      intro ho h'' slot hscan
      obtain ⟨⟨_, hg'⟩, hrest⟩ := ha h'' slot ⟨h', v, hg, .inr ⟨ho, hscan⟩⟩
      rw [hg] at hg'
      cases hg'
      exact ⟨rfl, hrest⟩
    cases ho : o.type with
    | array => exact fun hnum => (ha h' v ⟨h', v, hg, .inl ⟨ho, hnum, rfl, rfl⟩⟩).2
    | table => exact hslot (.inl ho)
    | instance_ => exact hslot (.inr ho)
    | _ => trivial

/-- Walking by scans is walking by `sq_get`, where the two agree. -/
theorem sqGets_of_walks {keys : List SqObject} {v : SqObject} (hw : Walks api h o keys h' (some v))
    (ha : RawAgrees api h o keys) : SqGets api h o keys (some v) := by
  generalize hr : some v = r at hw
  induction hw with
  | here h o => exact .here h o
  | stops _ => cases hr
  | goes hs _ ih =>
    obtain ⟨⟨h₁, hget⟩, hrest⟩ := rawAgrees_cons.mp ha _ _ hs
    obtain ⟨h₂, w, hget', hscanned⟩ := hs.scanned
    rw [hget] at hget'
    cases hget'
    exact .found hget hscanned (ih hrest hr)

theorem RawAgrees.of_shorter {keys keys' : List SqObject} (hp : keys' <+: keys)
    (ha : RawAgrees api h o keys) : RawAgrees api h o keys' := by
  induction keys' generalizing h o keys with
  | nil => trivial
  | cons key keys' ih =>
    obtain ⟨tail, rfl⟩ := hp
    rw [List.cons_append, rawAgrees_cons] at ha
    rw [rawAgrees_cons]
    intro h'' slot hs
    obtain ⟨hget, hrest⟩ := ha h'' slot hs
    exact ⟨hget, ih (List.prefix_append keys' tail) hrest⟩

/-- A chain that leads somewhere is found by the code. -/
theorem FindsBySqGet.of_walks {keys : List SqObject} {v : SqObject}
    (hf : FindsBySqGet api h o keys) (hw : Walks api h o keys h' (some v)) :
    SqGets api h o keys (some v) := by
  obtain ⟨N, hN⟩ := run_of_walks hw
  obtain ⟨rc, hrc, hr⟩ := hN N (Nat.le_refl N) [] []
  cases rc with
  | error code => cases hr
  | ok p =>
    obtain rfl := Option.some.inj hr
    exact hf N [] [] p.1 p.2 _ hrc

/-- **When lookups find the VM's slots**: for a chain of keys and all chains it
begins with. -/
theorem found_iff (h : H) (o : SqObject) (keys : List SqObject) :
    (∀ keys', keys' <+: keys → FindsBySqGet api h o keys') ↔ RawAgrees api h o keys := by
  constructor
  · intro hall
    induction keys generalizing h o with
    | nil => trivial
    | cons key keys ih =>
      rw [rawAgrees_cons]
      intro h'' slot hs
      obtain ⟨h', v, hget, hscanned⟩ := hs.scanned
      -- the chain of this one key ends with the selection
      have hslot : v = slot := by
        cases (hall [key] (by simp)).of_walks (.goes hs (.here h'' slot)) with
        | found hget' _ hr =>
          rw [hget] at hget'
          cases hget'
          cases hr
          rfl
      subst hslot
      refine ⟨⟨h', hget⟩, ih h'' v fun keys' hp fuel rest faults value path t hr => ?_⟩
      -- a chain from `v` is one from `o`, behind the key
      obtain ⟨h₁, hw, -⟩ := walks_of_run hr
      cases (hall (key :: keys') (by simpa using hp)).of_walks (.goes hs hw) with
      | found hget' hscanned' hrest =>
        rw [hget] at hget'
        cases hget'
        rw [hscanned.unique hscanned']
        exact hrest
  · intro ha keys' hp fuel rest faults value path t hr
    obtain ⟨h', hw, -⟩ := walks_of_run hr
    exact sqGets_of_walks hw (ha.of_shorter hp)

end

/-! ## A boolean key -/

/-- A table with the slots `true ↦ 7` and `1 ↦ 8`, in this order of `sq_next`. -/
def boolFirst : Heap where
  objects := [.table [some (.bool true, .integer 7), some (.integer 1, .integer 8)]]

/-- Looking for `1` in it finds the value of `true`, whose raw word is 1 too. -/
theorem lookup_boolFirst :
    DistinctKeys (boolFirst.slots (.table 0)) ∧
      Returns (getObjectFromExpression heapApi 2 [.integer 1]) ⟨[.table 0], boolFirst, []⟩
        (.ok (.integer 7, [0])) ⟨[.table 0], boolFirst, []⟩ ∧
      SqGets heapApi boolFirst (.table 0) [.integer 1] (some (.integer 8)) ∧
      ¬ FindsBySqGet heapApi boolFirst (.table 0) [.integer 1] := by
  have hrun : Returns (getObjectFromExpression heapApi 2 [.integer 1])
      ⟨[.table 0], boolFirst, []⟩ (.ok (.integer 7, [0])) ⟨[.table 0], boolFirst, []⟩ := rfl
  have hget : heapApi.get boolFirst (.table 0) (.integer 1) = (boolFirst, some (.integer 8)) := rfl
  have hscanned : Scanned heapApi boolFirst (.table 0) (.integer 1) boolFirst :=
    ⟨some (.integer 7), 1, rfl⟩
  refine ⟨by decide, hrun, .found hget hscanned (.here _ _), ?_⟩
  intro hf
  cases hf _ _ _ _ _ _ hrun with
  | found hget' _ hr =>
    rw [hget] at hget'
    cases hget'
    cases hr

end Sdb.L4
