import Sdb.L4Display.PathText
import Sdb.L4Display.Resolved

/-!
# The VM stack after a data command

The account of the four data commands. What a command can leave behind is in
`Leaves` when it returns and in `Exits` for every way out: the height is as before
exactly if no fault was recorded. Whether one is recorded is decided by what the
command renders (`Decides`), which is read off the heap, the stack and the
arguments (`Undisturbed`).

* `dataCommand_height`: a data command leaves the height as it was exactly if it is
  refused or `Undisturbed`;
* `anonymousLocal_leaks`: listing the locals of a frame one of which is an
  anonymous function leaves one object more.
-/
namespace Sdb.L4

open Sdb.L1 Sdb.L3 Sdb.Exec

section
variable {H : Type} {α β : Type} (api : SqApi H)

/-! ## The account of the commands -/

variable (lib : CppLib) {r : Renderer H} (hr : Renders r)

/-- What a command may leave behind when it returns: null closure names, or one
slot it could not read back. -/
def Leaves (faults : List Fault) : Prop := Names faults ∨ faults = [.lostKey]

theorem Leaves.weight_eq_zero {l : List Fault} (h : Leaves l) : weight l = 0 ↔ l = [] := by
  rcases h with h | rfl
  · rw [h.weight_eq]
    simp
  · simp [weight, Fault.weight]

theorem Net.leaves {n : α → Int} {b : Int} {m : VmM H α} (h : Net Names n b m) :
    Net Leaves n b m := by
  intro s
  exact (h s).mono (fun a t ⟨new, h₁, h₂, h₃⟩ => ⟨new, h₁, .inl h₂, h₃⟩) fun _ _ h => h

theorem leaves_nil : Leaves [] := .inl names_nil

/-- Two objects go if the slot was set. -/
def updated (rc : ReturnCode) : Int := if rc = .success then -2 else 0

theorem moves_updateFromString (k : Nat) (value : Bytes) :
    Moves updated (updateFromString api lib k value) := by
  unfold updateFromString
  refine (moves_sqGetstackobj 1).bind fun o => ?_
  cases parseValue lib value o with
  | none => exact moves_pure (by simp [updated])
  | some v =>
    refine moves_sqPoptop.bind fun _ => (moves_sqPushobject v).bind fun _ => ?_
    refine (moves_sqSet api k).bind fun ok => ?_
    cases ok <;> exact moves_pure (by simp [updated, stored])

include hr

theorem net_replaceValue (value : Bytes) :
    Net Leaves (fun _ => 0) 0 (replaceValue api lib r value) := by
  unfold replaceValue
  refine (moves_sqGetstackobj 2).bind_net fun key => ?_
  refine (moves_updateFromString api lib 4 value).bind_net fun rc => ?_
  cases rc with
  | success =>
    refine (moves_sqPushobject key).bind_net fun _ => (moves_sqPushobject key).bind_net fun _ => ?_
    refine (moves_sqGet api 4).bind_net fun found => ?_
    cases found with
    | true =>
      refine (((net_createChildVariable api hr).leaves).congr (fun _ => rfl)
        (by simp [updated, looked])).bind_moves fun v => ?_
      exact moves_pure (by simp [updated, looked])
    | false =>
      intro s
      refine ⟨[.lostKey], rfl, .inr rfl, ?_⟩
      show (s.stack.length : Int) = _
      simp only [updated, looked, weight, Fault.weight, if_true, Bool.false_eq_true, if_false]
      omega
  | _ => exact (moves_pure (by simp [updated])).net leaves_nil

/-- The exits of a command, from `s`. -/
def Exits (s : SqVm H) (m : VmM H α) : Prop :=
  Ends m s
    (fun _ t => ∃ new, t.faults = new ++ s.faults ∧ Leaves new ∧
      (t.stack.length : Int) = s.stack.length + weight new)
    (fun e t => NoExit e ∨ t = s ∨
      (s.faults.length < t.faults.length ∧ s.stack.length < t.stack.length))

omit hr in
theorem Net.exits {m : VmM H α} (h : Net Leaves (fun _ => 0) 1 m) (s : SqVm H) : Exits s m := by
  refine (h s).mono (fun a t ⟨new, h₁, h₂, h₃⟩ => ⟨new, h₁, h₂, by simpa using h₃⟩) ?_
  rintro e t (h | ⟨-, hf, ht⟩)
  · exact .inl h
  · exact .inr (.inr ⟨hf, by omega⟩)

omit hr in
theorem exits_withStackVariables {stackFrame : UInt32} {path : Bytes}
    {fn : List UInt64 → VmM H (Except ReturnCode α)}
    (hfn : ∀ parts, Net Leaves (fun _ => 0) 0 (fn parts)) (s : SqVm H) :
    Exits s (withStackVariables api stackFrame path fn) := by
  unfold withStackVariables
  split
  · exact ((moves_pure (n := fun _ => 0) rfl).net (b := 1) leaves_nil).exits s
  · cases pathParts path with
    | none => exact .inr (.inl rfl)
    | some parts =>
      refine Net.exits ?_ s
      refine (moves_sqGetlocal api _ _).bind_net fun name => ?_
      cases name with
      | none => exact (moves_pure (by simp [pushed])).net leaves_nil
      | some name =>
        refine ((hfn parts).congr (fun _ => rfl) (by simp [pushed])).bind_moves fun rc => ?_
        exact moves_sqPoptop.bind fun _ => moves_pure (by simp [pushed])

theorem net_createChildVariablesFromIterable (fuel : Nat) (path : List UInt64)
    (pagination : PaginationInfo) : Net Leaves (fun _ => 0) 0
      (createChildVariablesFromIterable api lib r fuel path pagination) :=
  (net_withVariableAtPath api names_nil ((net_createChildVariables api lib hr fuel
    pagination).bind_moves fun _ => moves_pure (by simp)) path).leaves

theorem net_showResolved (state : ExpressionNodeState) :
    Net Names (fun _ => 0) 1 (showResolved api r state) := by
  unfold showResolved
  refine (moves_sqPushobject _).bind_net fun _ => ?_
  refine ((net_createChildVariable api hr).congr (fun _ => rfl) (by simp)).bind_moves fun v => ?_
  exact moves_sqPoptop.bind fun _ => moves_pure (by simp)

theorem net_evaluateExpression (fuel : Nat) (stackFrame : Int32) (root : ExpressionNode) :
    Net Names (fun _ => 0) 1 (evaluateExpression api r fuel stackFrame root) := by
  unfold evaluateExpression
  refine (moves_resolveExpression api fuel stackFrame root).bind_net fun state => ?_
  cases state with
  | error rc => exact (moves_pure (by simp)).net names_nil
  | ok state =>
    refine ((net_showResolved api hr state).congr (fun _ => rfl) (by simp)).bind_moves
      fun v => ?_
    exact moves_pure (by simp)

omit hr in
theorem Exits.map {m : VmM H α} {f : α → β} {s : SqVm H} (h : Exits s m) : Exits s (f <$> m) := by
  have he : f <$> m = m >>= fun a => pure (f a) := (bind_pure_comp f m).symm
  unfold Exits
  rw [he]
  exact Ends.bind h fun a t ht => ends_pure ht

theorem exits_dataCall (fuel : Nat) (call : L2.DataCall) (s : SqVm H) :
    Exits s (dataCall api lib r fuel call) := by
  cases call with
  | getStackVariables stackFrame path pagination =>
    apply Exits.map
    unfold populateStackVariables
    split
    · exact (((net_rootVariablesLoop api hr _ _ _).bind_moves fun _ =>
        moves_pure (by simp)).leaves).exits s
    · exact exits_withStackVariables api
        (fun parts => net_createChildVariablesFromIterable api lib hr fuel _ pagination) s
  | getGlobalVariables path pagination =>
    apply Exits.map
    unfold populateGlobalVariables
    split
    · exact .inr (.inl rfl)
    · rename_i parts _
      refine Net.exits ?_ s
      refine (moves_sqPushroottable api).bind_net fun _ => ?_
      refine ((net_createChildVariablesFromIterable api lib hr fuel parts pagination).congr
        (fun _ => rfl) (by simp)).bind_moves fun rc => ?_
      exact moves_sqPoptop.bind fun _ => moves_pure (by simp)
  | setStackVariableValue stackFrame path value =>
    apply Exits.map
    refine exits_withStackVariables api (fun parts => ?_) s
    split
    · exact (moves_pure (by simp)).net leaves_nil
    · exact net_withVariableAtPath api leaves_nil (net_replaceValue api lib hr value) _
  | getImmediateValue stackFrame watch pagination =>
    apply Exits.map
    unfold getImmediateValue
    split
    · exact ((moves_pure (n := fun _ => 0) rfl).net (b := 1) leaves_nil).exits s
    · exact .inl noExit_undefined
    · exact .inl noExit_fuel
    · exact (net_evaluateExpression api hr fuel stackFrame _).leaves.exits s

omit hr

/-- Return and exception: the height is as before exactly if nothing was recorded. -/
theorem Exits.height_ok {m : VmM H α} {s t : SqVm H} {a : α} (h : Exits s m)
    (hm : m.run s = .ok a t) : t.stack.length = s.stack.length ↔ t.faults = s.faults := by
  obtain ⟨new, hf, hnew, ht⟩ := Ends.ok h hm
  have hz := hnew.weight_eq_zero
  rw [hf, List.append_left_eq_self]
  constructor
  · intro he
    exact hz.mp (by omega)
  · intro he
    have := hz.mpr he
    omega

theorem Exits.height_error {m : VmM H α} {s t : SqVm H} {e : Exn} (h : Exits s m)
    (hm : m.run s = .error e t) (he : ¬NoExit e) :
    t.stack.length = s.stack.length ↔ t.faults = s.faults := by
  rcases Ends.error h hm with hno | rfl | ⟨hf, ht⟩
  · exact absurd hno he
  · simp
  · constructor
    · intro hlength
      omega
    · intro hfaults
      rw [hfaults] at hf
      omega

end

/-! ## What the commands render -/

section
variable {H : Type} {α β : Type} {api : SqApi H} {h h' : H} {top top' below : List SqObject}
variable {faults : List Fault} {s : SqVm H} {P Q : Prop}

/-- Whether `m` records a fault, if it comes to an end, is up to `P`. -/
def Decides (m : VmM H α) (s : SqVm H) (P : Prop) : Prop :=
  Ends m s (fun _ t => t.faults = s.faults ↔ P) fun e t => NoExit e ∨ (t.faults = s.faults ↔ P)

theorem Decides.congr {m : VmM H α} (hm : Decides m s P) (hPQ : P ↔ Q) : Decides m s Q := by
  rw [← hPQ]
  exact hm

theorem Moves.decides {n : α → Int} {m : VmM H α} (hm : Moves n m) (hP : P) : Decides m s P := by
  refine (hm s).mono (fun a t hok => ?_) fun e t hno => .inl hno
  exact iff_of_true hok.1 hP

theorem Decides.ok {m : VmM H α} {a : α} {t : SqVm H} (hm : Decides m s P)
    (hrun : m.run s = .ok a t) : t.faults = s.faults ↔ P := by
  unfold Decides Ends at hm
  rw [hrun] at hm
  exact hm

theorem Decides.error {m : VmM H α} {e : Exn} {t : SqVm H} (hm : Decides m s P)
    (hrun : m.run s = .error e t) (he : ¬ NoExit e) : t.faults = s.faults ↔ P := by
  unfold Decides Ends at hm
  rw [hrun] at hm
  exact hm.resolve_left he

theorem decides_pure {a : α} (hP : P) : Decides (pure a : VmM H α) s P :=
  ends_pure (iff_of_true rfl hP)

theorem Decides.bind_moves {n : α → β → Int} {m : VmM H α} {f : α → VmM H β}
    (hm : Decides m s P) (hf : ∀ a, Moves (n a) (f a)) : Decides (m >>= f) s P := by
  refine Ends.bind hm fun a t hiff => (hf a t).mono (fun b u hok => ?_) fun e u hno => .inl hno
  rw [hok.1]
  exact hiff

theorem Gives.bind_decides {m : VmM H α} {f : α → VmM H β} {a : α}
    (hm : Gives m h top a h' top') (hf : Decides (f a) ⟨top' ++ below, h', faults⟩ P) :
    Decides (m >>= f) ⟨top ++ below, h, faults⟩ P := hm.bind_ends hf

/-- A reading that has no answer tells of a fault. -/
theorem Reports.decides {m : VmM H α} {q : Reading H α} {R : α → List SqObject → Prop}
    (hm : Reports m top q R) (h : H) (below : List SqObject) (faults : List Fault) :
    Decides m ⟨top ++ below, h, faults⟩ (q h).isSome := by
  cases hq : q h with
  | none =>
    refine (hm.slips hq below faults).mono (fun a t hlt => ?_) fun e t he => he.imp_right ?_
    · exact iff_of_false (fun heq => Nat.lt_irrefl _ (heq ▸ hlt)) (by simp)
    · intro hlt
      exact iff_of_false (fun heq => Nat.lt_irrefl _ (heq ▸ hlt)) (by simp)
  | some p =>
    obtain ⟨a, h'⟩ := p
    obtain ⟨top', -, hg⟩ := hm.gives hq
    unfold Decides Ends
    rw [show m.run _ = _ from hg below faults]
    simp

/-- The value of `m` is rendered. -/
theorem Reports.decides_bind {n : α → Int} {m : VmM H α} {q : Reading H α} {f : α → VmM H β}
    {R : α → H → Prop} (hm : Reports m top q fun _ t => t = top) (hmoves : Moves n m)
    (hf : ∀ a h', Decides (f a) ⟨top ++ below, h', faults⟩ (R a h')) :
    Decides (m >>= f) ⟨top ++ below, h, faults⟩ (∀ a h', q h = some (a, h') → R a h') := by
  cases hq : q h with
  | some p =>
    obtain ⟨a, h'⟩ := p
    obtain ⟨_, rfl, hg⟩ := hm.gives hq
    refine (hg.bind_decides (hf a h')).congr ⟨fun hR a' h'' heq => ?_, fun hR => hR a h' rfl⟩
    obtain ⟨rfl, rfl⟩ := Prod.mk.inj (Option.some.inj heq)
    exact hR
  | none =>
    refine Ends.bind (Q := fun _ _ => False) ?_ fun _ _ hfalse => hfalse.elim
    have hslips := hm.slips hq below faults
    have hends := hmoves ⟨top ++ below, h, faults⟩
    unfold Ends at hslips hends ⊢
    cases hrun : m.run ⟨top ++ below, h, faults⟩ with
    | ok a t =>
      rw [hrun] at hslips hends
      have hlt : faults.length < t.faults.length := hslips
      rw [hends.1] at hlt
      exact Nat.lt_irrefl _ hlt
    | error e t =>
      rw [hrun] at hends
      exact .inl hends

/-! ## Where a path leads -/

variable (api) in
/-- The end of a path and what lies on the stack below it; `none` if a part leads
nowhere. -/
def walk : H → SqObject → List SqObject → List UInt64 → Option (H × SqObject × List SqObject)
  | h, o, below, [] => some (h, o, below)
  | h, o, below, part :: path =>
    match follow api h o part with
    | (h', some (v, pushed)) => walk h' v (pushed ++ o :: below) path
    | (_, none) => none

theorem decides_withVariableAtPath {fn : VmM H (Except ReturnCode α)}
    {R : H → SqObject → List SqObject → Prop}
    (hfn : ∀ h o below, Decides fn ⟨o :: below, h, faults⟩ (R h o below)) (path : List UInt64)
    (h : H) (o : SqObject) (below : List SqObject) :
    Decides (withVariableAtPath api fn path) ⟨o :: below, h, faults⟩
      (∀ h' v below', walk api h o below path = some (h', v, below') → R h' v below') := by
  induction path generalizing h o below with
  | nil =>
    refine (hfn h o below).congr ⟨fun hR h' v below' heq => ?_, fun hR => hR h o below rfl⟩
    simp only [walk, Option.some.injEq, Prod.mk.injEq] at heq
    obtain ⟨rfl, rfl, rfl⟩ := heq
    exact hR
  | cons part path ih =>
    cases hf : follow api h o part with
    | mk h' next =>
      cases next with
      | none =>
        have hstop : Gives (withVariableAtPath api fn (part :: path)) h [o] _ h' [o] :=
          gives_stop hf
        have hrun : (withVariableAtPath api fn (part :: path)).run ⟨o :: below, h, faults⟩ = _ :=
          hstop below faults
        unfold Decides Ends
        rw [hrun]
        apply iff_of_true rfl
        intro h'' v below' heq
        simp [walk, hf] at heq
      | some p =>
        obtain ⟨v, pushed⟩ := p
        have hpop : ∀ rc : Except ReturnCode α, Moves (fun _ => -((v :: pushed).length : Int)) (do
            sqPop (v :: pushed).length
            return rc : VmM H (Except ReturnCode α)) :=
          fun rc => (moves_sqPop _).bind fun _ => moves_pure (by simp)
        have hrest := (ih h' v (pushed ++ o :: below)).bind_moves hpop
        unfold Decides Ends
        rw [run_on hf]
        refine (hrest.congr ?_)
        simp only [walk, hf]


theorem decides_withStackVariables {stackFrame : UInt32} {path : Bytes} {v : SqVm H}
    {fn : List UInt64 → VmM H (Except ReturnCode α)} {R : List UInt64 → SqObject → Prop}
    (hfn : ∀ parts o, Decides (fn parts) ⟨o :: v.stack, v.heap, v.faults⟩ (R parts o)) :
    Decides (withStackVariables api stackFrame path fn) v
      (path ≠ [] → ∀ parts name o, pathParts path = some parts →
        api.getlocal v.heap stackFrame.toNat (parts.headD 0).toNat = some (name, o) →
        R parts o) := by
  unfold withStackVariables
  split
  · rename_i hpath
    exact decides_pure fun hne => absurd hpath hne
  · rename_i hpath
    cases hparts : pathParts path with
    | none =>
      refine ends_throw (.inr (iff_of_true rfl ?_))
      intro _ parts name o heq
      cases heq
    | some parts =>
      have hlocal : Gives (sqGetlocal api stackFrame.toNat (parts.headD 0).toNat) v.heap [] _
        v.heap _ := gives_sqGetlocal api _ _
      apply hlocal.bind_decides
      cases hfound : api.getlocal v.heap stackFrame.toNat (parts.headD 0).toNat with
      | none =>
        apply decides_pure
        intro _ parts' name o heq hsome
        obtain rfl := Option.some.inj heq
        cases hfound.symm.trans hsome
      | some p =>
        obtain ⟨name, o⟩ := p
        have hpop : ∀ rc : Except ReturnCode α, Moves (fun _ => -1) (do
            sqPoptop
            return rc : VmM H (Except ReturnCode α)) :=
          fun rc => moves_sqPoptop.bind fun _ => moves_pure (by simp)
        refine ((hfn parts o).bind_moves hpop).congr ⟨?_, fun hR => ?_⟩
        · intro hR _ parts' name' o' heq hsome
          obtain rfl := Option.some.inj heq
          obtain ⟨rfl, rfl⟩ := Prod.mk.inj (Option.some.inj (hfound.symm.trans hsome))
          exact hR
        · exact hR hpath parts name o rfl hfound


/-! ## The commands -/

variable (api) (lib : CppLib) (fuel : Nat)

/-- The slot that `SetStackVariableValue` sets can be read back and rendered. The key
is taken from below the value, the container from three below. -/
def ReadBack (text : Bytes) (h : H) (v : SqObject) (below : List SqObject) : Prop :=
  ∀ key o new h', below[0]? = some key → below[2]? = some o → parseValue lib text v = some new →
    api.set h o key new = (h', true) →
    ∃ h'' w, api.get h' o key = (h'', some w) ∧ Showable api lib fuel h'' w

/-- `P` of the end of a path that starts at a local. -/
def AtEnd (v : SqVm H) (stackFrame : UInt32) (path : Bytes)
    (P : List UInt64 → H → SqObject → List SqObject → Prop) : Prop :=
  path ≠ [] → ∀ parts name start, pathParts path = some parts →
    api.getlocal v.heap stackFrame.toNat (parts.headD 0).toNat = some (name, start) →
    ∀ h o below, walk api v.heap start v.stack parts.tail = some (h, o, below) →
      P parts.tail h o below

/-- What the call renders has a text: every closure on the way a name that is a string,
every class a name that `ToClassFullName` finds. And a slot that it sets can be read
back. -/
def Undisturbed (v : SqVm H) : L2.DataCall → Prop
  | .getStackVariables stackFrame path pagination =>
    if path = [] then
      (readLocals api lib fuel stackFrame.toNat
        ((pagination.beginIterator + pagination.count).toNat - pagination.beginIterator.toNat)
        pagination.beginIterator.toNat v.heap).isSome = true
    else
      AtEnd api v stackFrame path fun _ h o _ =>
        (readChildren api lib fuel o pagination h).isSome = true
  | .getGlobalVariables path pagination =>
    ∀ parts, (if path = [] then some [] else pathParts path) = some parts →
      ∀ h o below, walk api v.heap (.table (api.roottable v.heap)) v.stack parts =
        some (h, o, below) → (readChildren api lib fuel o pagination h).isSome
  | .setStackVariableValue stackFrame path text =>
    AtEnd api v stackFrame path fun parts h o below =>
      parts ≠ [] → ReadBack api lib fuel text h o below
  | .getImmediateValue stackFrame watch _ =>
    ∀ root, parseWatch watch = .ok root → ∀ state h',
      readExpression api fuel stackFrame root v.heap = some (.ok state, h') →
        Showable api lib fuel h' state.resolvedValue

variable {api} {lib} {fuel}

/-- There is no container three below the value. -/
theorem noContainer {text : Bytes} {v key new : SqObject} {rest : List SqObject}
    (hparse : parseValue lib text v = some new) (hrest : rest[1]? = none) :
    Ends (updateFromString api lib 4 text) ⟨v :: key :: rest, h, faults⟩ (fun _ _ => False)
      fun e _ => NoExit e := by
  have hv : Gives (sqGetstackobj 1) h [v, key] v h [v, key] := gives_sqGetstackobj rfl
  have hpop : Gives sqPoptop h [v, key] () h [key] := gives_sqPoptop
  have hpush : Gives (sqPushobject new) h [key] () h [new, key] := gives_sqPushobject new
  apply hv.bind_ends
  rw [hparse]
  refine hpop.bind_ends (hpush.bind_ends ?_)
  refine Ends.bind (Q := fun _ _ => False) ?_ fun _ _ hfalse => hfalse.elim
  have hslot : (new :: key :: rest)[4 - 1]? = none := hrest
  unfold Ends sqSet EStateM.run
  simp only [List.cons_append, List.nil_append, hslot]
  exact noExit_undefined

/-- The slot has been set. -/
theorem decides_readBack {text : Bytes} {v key new a o : SqObject} {rest : List SqObject}
    (hparse : parseValue lib text v = some new) (hset : api.set h o key new = (h', true)) :
    Decides (replaceValue api lib (renderer api lib fuel) text)
      ⟨v :: key :: a :: o :: rest, h, faults⟩
      (∃ h'' w, api.get h' o key = (h'', some w) ∧ Showable api lib fuel h'' w) := by
  have hkey : Gives (sqGetstackobj 2) h [v, key, a, o] key h [v, key, a, o] :=
    gives_sqGetstackobj rfl
  have hupdate : Gives (updateFromString api lib 4 text) h [v, key, a, o] .success h' [a, o] :=
    gives_updateFromString (j := 1) hparse rfl hset
  have hpush : Gives (sqPushobject key) h' [a, o] () h' [key, a, o] := gives_sqPushobject key
  have hpush' : Gives (sqPushobject key) h' [key, a, o] () h' [key, key, a, o] :=
    gives_sqPushobject key
  unfold replaceValue
  refine hkey.bind_decides (hupdate.bind_decides ?_)
  refine hpush.bind_decides (hpush'.bind_decides ?_)
  rcases hget : api.get h' o key with ⟨h'', _ | w⟩
  · have hlost : Gives (sqGet api 4) h' [key, key, a, o] false h'' [key, a, o] :=
      gives_sqGet_none api rfl hget
    apply hlost.bind_decides
    refine iff_of_false (fun heq => ?_) ?_
    · exact List.cons_ne_self _ _ heq
    · rintro ⟨_, w, heq, -⟩
      cases (Prod.mk.inj heq).2
  · have hfound : Gives (sqGet api 4) h' [key, key, a, o] true h'' [w, key, a, o] :=
      gives_sqGet api rfl hget
    have hshow := (reports_createChildVariable api lib fuel w).decides h''
      (key :: a :: o :: rest) faults
    apply hfound.bind_decides
    refine (hshow.bind_moves (n := fun _ _ => 0) fun _ => moves_pure rfl).congr ⟨?_, ?_⟩
    · intro hshowable
      exact ⟨h'', w, rfl, hshowable⟩
    · rintro ⟨_, _, heq, hshowable⟩
      obtain ⟨rfl, hw⟩ := Prod.mk.inj heq
      obtain rfl := Option.some.inj hw
      exact hshowable

theorem decides_replaceValue (text : Bytes) (v : SqObject) :
    Decides (replaceValue api lib (renderer api lib fuel) text) ⟨v :: below, h, faults⟩
      (ReadBack api lib fuel text h v below) := by
  cases below with
  | nil => exact .inl noExit_undefined
  | cons key rest =>
    have hkey : Gives (sqGetstackobj 2) h [v, key] key h [v, key] := gives_sqGetstackobj rfl
    cases hparse : parseValue lib text v with
    | none =>
      have hupdate : Gives (updateFromString api lib 4 text) h [v, key] .invalidParameter h
        [v, key] := gives_updateFromString_none hparse 4
      unfold replaceValue
      refine hkey.bind_decides (hupdate.bind_decides ?_)
      apply decides_pure
      intro key' o new h' _ _ heq
      cases hparse.symm.trans heq
    | some new =>
      match rest with
      | [] =>
        unfold replaceValue
        apply hkey.bind_decides
        exact ((noContainer hparse rfl).mono (fun _ _ hfalse => hfalse) fun _ _ he => .inl he).bind
          fun _ _ hfalse => hfalse.elim
      | [a] =>
        unfold replaceValue
        apply hkey.bind_decides
        exact ((noContainer hparse rfl).mono (fun _ _ hfalse => hfalse) fun _ _ he => .inl he).bind
          fun _ _ hfalse => hfalse.elim
      | a :: o :: rest =>
        rcases hset : api.set h o key new with ⟨h', _ | _⟩
        · have hupdate : Gives (updateFromString api lib 4 text) h [v, key, a, o] .errorInternal h'
            [new, key, a, o] := gives_updateFromString_false (j := 1) hparse rfl hset
          unfold replaceValue
          refine hkey.bind_decides
            (hupdate.bind_decides (decides_pure ?_))
          intro key' o' new' h'' hkey' ho' hparse' hset'
          obtain rfl := Option.some.inj hkey'
          obtain rfl := Option.some.inj ho'
          obtain rfl := Option.some.inj (hparse.symm.trans hparse')
          cases (Prod.mk.inj (hset.symm.trans hset')).2
        · refine (decides_readBack hparse hset).congr ⟨?_, ?_⟩
          · intro hback key' o' new' h'' hkey' ho' hparse' hset'
            obtain rfl := Option.some.inj hkey'
            obtain rfl := Option.some.inj ho'
            obtain rfl := Option.some.inj (hparse.symm.trans hparse')
            obtain rfl := (Prod.mk.inj (hset.symm.trans hset')).1
            exact hback
          · intro hback
            exact hback key o new h' rfl rfl hparse hset

theorem decides_listing (path : List UInt64) (pagination : PaginationInfo) (o : SqObject) :
    Decides (createChildVariablesFromIterable api lib (renderer api lib fuel) fuel path pagination)
      ⟨o :: below, h, faults⟩ (∀ h' v below', walk api h o below path = some (h', v, below') →
        (readChildren api lib fuel v pagination h').isSome) := by
  refine decides_withVariableAtPath (R := fun h' v _ =>
    (readChildren api lib fuel v pagination h').isSome = true) ?_ path h o below
  intro h' v below'
  have hchildren := (reports_createChildVariables api lib fuel v pagination).decides h' below'
    faults
  exact hchildren.bind_moves (n := fun _ _ => 0) fun _ => moves_pure rfl

theorem decides_showResolved (state : ExpressionNodeState) :
    Decides (showResolved api (renderer api lib fuel) state) ⟨below, h, faults⟩
      (Showable api lib fuel h state.resolvedValue) := by
  have hpush : Gives (sqPushobject state.resolvedValue) h [] () h [state.resolvedValue] :=
    gives_sqPushobject _
  have hshow := (reports_createChildVariable api lib fuel state.resolvedValue).decides h below
    faults
  apply hpush.bind_decides
  exact hshow.bind_moves (n := fun _ _ => -1) fun _ =>
    moves_sqPoptop.bind fun _ => moves_pure (by simp)

theorem decides_evaluateExpression (stackFrame : Int32) (root : ExpressionNode) :
    Decides (evaluateExpression api (renderer api lib fuel) fuel stackFrame root)
      ⟨below, h, faults⟩ (∀ rc h', readExpression api fuel stackFrame root h = some (rc, h') →
        ∀ state, rc = .ok state → Showable api lib fuel h' state.resolvedValue) := by
  refine (reports_resolveExpression api fuel stackFrame root).decides_bind
    (moves_resolveExpression api fuel stackFrame root) fun rc h' => ?_
  cases rc with
  | error rc => exact decides_pure fun state heq => by cases heq
  | ok state =>
    have hshow : Decides (showResolved api (renderer api lib fuel) state) ⟨below, h', faults⟩ _ :=
      decides_showResolved state
    refine (hshow.bind_moves (n := fun _ _ => 0) fun _ => moves_pure rfl).congr ⟨?_, ?_⟩
    · intro hR state' heq
      obtain rfl := Except.ok.inj heq
      exact hR
    · intro hR
      exact hR state rfl

theorem Decides.map {m : VmM H α} {f : α → β} (hm : Decides m s P) : Decides (f <$> m) s P := by
  have he : f <$> m = m >>= fun a => pure (f a) := (bind_pure_comp f m).symm
  rw [he]
  exact hm.bind_moves (n := fun _ _ => 0) fun _ => moves_pure rfl

theorem decides_dataCall (call : L2.DataCall) (v : SqVm H) :
    Decides (dataCall api lib (renderer api lib fuel) fuel call) v
      (Undisturbed api lib fuel v call) := by
  cases call with
  | getStackVariables stackFrame path pagination =>
    apply Decides.map
    unfold populateStackVariables
    simp only [Undisturbed]
    split
    · unfold withStackRootVariables
      have hlocals := (reports_rootVariablesLoop api lib fuel stackFrame.toNat
        ((pagination.beginIterator + pagination.count).toNat - pagination.beginIterator.toNat)
        pagination.beginIterator.toNat).decides v.heap v.stack v.faults
      exact hlocals.bind_moves (n := fun _ _ => 0) fun _ => moves_pure rfl
    · exact decides_withStackVariables (R := fun parts o => ∀ h' v' below',
        walk api v.heap o v.stack parts.tail = some (h', v', below') →
          (readChildren api lib fuel v' pagination h').isSome = true)
        fun parts o => decides_listing parts.tail pagination o
  | getGlobalVariables path pagination =>
    apply Decides.map
    unfold populateGlobalVariables
    simp only [Undisturbed]
    cases (if path = [] then some [] else pathParts path) with
    | none =>
      refine ends_throw (.inr (iff_of_true rfl ?_))
      intro parts heq
      cases heq
    | some parts =>
      have hroot : Gives (sqPushroottable api) v.heap [] () v.heap
        [.table (api.roottable v.heap)] := gives_sqPushroottable api
      have hpop : ∀ rc : Except ReturnCode (List Variable), Moves (fun _ => -1) (do
          sqPoptop
          return rc : VmM H (Except ReturnCode (List Variable))) :=
        fun rc => moves_sqPoptop.bind fun _ => moves_pure (by simp)
      have hlisting : Decides (createChildVariablesFromIterable api lib (renderer api lib fuel) fuel
        parts pagination) ⟨.table (api.roottable v.heap) :: v.stack, v.heap, v.faults⟩ _ :=
        decides_listing parts pagination _
      refine (hroot.bind_decides (hlisting.bind_moves hpop)).congr ⟨?_, ?_⟩
      · intro hall parts' heq
        obtain rfl := Option.some.inj heq
        exact hall
      · intro hall
        exact hall parts rfl
  | setStackVariableValue stackFrame path text =>
    apply Decides.map
    refine decides_withStackVariables (R := fun parts o => ∀ h' v' below',
      walk api v.heap o v.stack parts.tail = some (h', v', below') → parts.tail ≠ [] →
        ReadBack api lib fuel text h' v' below') fun parts o => ?_
    split
    · rename_i hnil
      exact decides_pure fun _ _ _ _ hne => absurd hnil hne
    · rename_i hne
      refine (decides_withVariableAtPath (fun h' v' _ => decides_replaceValue text v') parts.tail
        v.heap o v.stack).congr ?_
      simp only [ne_eq, hne, not_false_eq_true, true_imp_iff]
  | getImmediateValue stackFrame watch pagination =>
    apply Decides.map
    unfold getImmediateValue
    simp only [Undisturbed]
    cases parseWatch watch with
    | error e =>
      cases e with
      | watch message position => exact decides_pure fun _ heq => by cases heq
      | undefined => exact .inl noExit_undefined
      | fuel => exact .inl noExit_fuel
    | ok root =>
      refine (decides_evaluateExpression stackFrame root).congr ⟨?_, ?_⟩
      · intro hall root' heq state h' hread
        obtain rfl := Except.ok.inj heq
        exact hall _ h' hread state rfl
      · intro hall rc h' hread state heq
        subst heq
        exact hall root rfl state h' hread

variable (api) in
/-- **A data command and the height of the VM stack.** A data command that is
left, by a return code or by an exception, leaves the height of the VM stack as
it was exactly if it is refused before it uses the VM, or what it renders has a
text, and a slot it sets can be read back. -/
theorem dataCommand_height (lib : CppLib) (fuel : Nat) (strToLower : Bytes → Bytes)
    (populateStack : SqVm H → List StackEntry) (s s' : L2.State (SqVm H)) (call : L2.DataCall)
    (res : L2.Res)
    (h : L2.dataCommand (squirrelAccess api lib fuel strToLower populateStack) s call =
      some (s', res)) :
    s'.script.stack.length = s.script.stack.length ↔
      (L2.refused (squirrelAccess api lib fuel strToLower populateStack) s call = none →
        Undisturbed api lib fuel s.script call) := by
  unfold L2.dataCommand at h
  split at h
  · rename_i hrefused
    simp only [Option.some.injEq, Prod.mk.injEq] at h
    obtain ⟨rfl, -⟩ := h
    refine iff_of_true rfl fun hnone => ?_
    rw [hrefused] at hnone
    cases hnone
  · rename_i hnone
    have hx := exits_dataCall api lib (renders_renderer api lib fuel) fuel call s.script
    have hd : Decides (dataCall api lib (renderer api lib fuel) fuel call) s.script _ :=
      decides_dataCall call s.script
    simp only [squirrelAccess, Option.map_eq_some_iff, Prod.mk.injEq] at h
    obtain ⟨⟨v, code⟩, hcall, rfl, -⟩ := h
    rw [imp_iff_right hnone]
    split at hcall
    · rename_i rc t hm
      simp only [Option.some.injEq, Prod.mk.injEq] at hcall
      obtain ⟨rfl, -⟩ := hcall
      exact (hx.height_ok hm).trans (hd.ok hm)
    · cases hcall
    · cases hcall
    · rename_i e t hfuel hundefined hm
      simp only [Option.some.injEq, Prod.mk.injEq] at hcall
      obtain ⟨rfl, -⟩ := hcall
      have hexit : ¬ NoExit e := by
        rintro (rfl | rfl)
        · exact hfuel rfl
        · exact hundefined rfl
      exact (hx.height_error hm hexit).trans (hd.error hm hexit)

end

/-! ## Two frames -/

/-- A debugger paused in a frame with one local. -/
def pausedWith (name : Bytes) (value : SqObject) (objects : List HeapObject) :
    L2.State (SqVm Heap) where
  pauseRequested := .pause
  pauseMutexData := { isPaused := true }
  vmData := { vm := some 1, currentStack := [⟨none, 1⟩] }
  thread := .waiting false
  script := { stack := [], heap := { objects := objects, locals := [[(name, value)]] } }

def heapAccess : L2.VmAccess (SqVm Heap) :=
  squirrelAccess heapApi insertionLib 8 id fun _ => []

/-- `local f = function() {}`, whose closure has no name. -/
def anonymousLocal : L2.State (SqVm Heap) := pausedWith [102] (.closure 0) [.closure .null 1 0]

/-- Listing the locals of the frame succeeds and leaves the null name behind. -/
theorem anonymousLocal_leaks :
    ∃ s', L2.dataCommand heapAccess anonymousLocal (.getStackVariables 0 [] ⟨0, 1⟩) =
        some (s', .usedVm (some .success)) ∧
      s'.script.stack.length = anonymousLocal.script.stack.length + 1 := ⟨_, rfl, rfl⟩

/-- `local f = function g() {}`: the name is a string and is popped. -/
def namedLocal : L2.State (SqVm Heap) :=
  pausedWith [102] (.closure 0) [.closure (.string [103]) 1 0]

theorem dataCommand_height_namedLocal :
    ∃ s', L2.dataCommand heapAccess namedLocal (.getStackVariables 0 [] ⟨0, 1⟩) =
        some (s', .usedVm (some .success)) ∧
      s'.script.stack.length = namedLocal.script.stack.length :=
  ⟨_, rfl, (dataCommand_height heapApi insertionLib 8 id (fun _ => []) namedLocal _
    (.getStackVariables 0 [] ⟨0, 1⟩) _ rfl).mpr fun _ => by
      simp only [Undisturbed, if_true]
      decide +kernel⟩

end Sdb.L4
