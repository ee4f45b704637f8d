import Sdb.L4Display.Lookup
import Sdb.L4Display.LocalPages
import Sdb.L4Display.Readings
import Sdb.L4Display.Rounds

/-!
# Looking at variables

`GetStackVariables`, `GetGlobalVariables` and `GetImmediateValue` are there to look.
What they could do to the VM they do through `sq_get`, which calls the `_get`
metamethod of a container for a key that it does not find, through `sq_next`, which
calls the `_nexti` metamethod of what it iterates, and through the temporary table of
`GetImmediateValue`. `Sight` says what there is to be changed, and `Documented` what
Squirrel says of the calls that could.

* `measured_evaluateLoop`: whether a watch leaves the VM alone can be read off the
  number of script functions called, and is decided by the keys it looks up;
* `looking_iff`: when one of the three commands leaves alone a VM in which nothing is
  iterated by script; `listing_calls` is a listing of one in which something is.
-/
namespace Sdb.L4

open Sdb.L1 Sdb.L3 Sdb.Exec

/-- What there is in a VM to be changed, and what `sq_get` and `sq_next` go by. -/
structure Sight (H C : Type) where
  /-- What is in an object, `none` where there is no such object. -/
  content : H → SqObject → Option C
  /-- The value of a key in the slots of a container or in those it delegates to. -/
  found : H → SqObject → SqObject → Option SqObject
  /-- The container has a `_get` metamethod. -/
  metamethod : H → SqObject → Prop
  /-- The object is iterated by script: it has a `_nexti` metamethod, or is a generator. -/
  nexti : H → SqObject → Prop
  /-- How many times a script function has been called. -/
  ran : H → Nat

section
variable {H C : Type} (api : SqApi H) (vm : Sight H C)

/-- `sq_get`, `sq_next`, `sq_newtable` and `sq_rawset` as Squirrel documents them. -/
structure Documented : Prop where
  found : ∀ h o key v, vm.found h o key = some v → api.get h o key = (h, some v)
  absent : ∀ h o key, vm.found h o key = none → ¬ vm.metamethod h o →
    api.get h o key = (h, none)
  calls : ∀ h o key, vm.found h o key = none → vm.metamethod h o →
    vm.ran h < vm.ran (api.get h o key).1
  /-- Arrays have no metamethods. -/
  array : ∀ h a, ¬ vm.metamethod h (.array a)
  iterated : ∀ h o iter, ¬ vm.nexti h o → (api.nexti h o iter).1 = h
  resumes : ∀ h o iter, vm.nexti h o → vm.ran h < vm.ran (api.nexti h o iter).1
  set_ran : ∀ h o key val, vm.ran h ≤ vm.ran (api.set h o key val).1
  fresh : ∀ h, vm.content h (.table (api.newtable h).2) = none
  newtable : ∀ h o c, vm.content h o = some c → vm.content (api.newtable h).1 o = some c
  newtable_ran : ∀ h, vm.ran (api.newtable h).1 = vm.ran h
  newtable_getlocal : ∀ h, api.getlocal (api.newtable h).1 = api.getlocal h
  rawset : ∀ h t key val o, o ≠ .table t →
    vm.content (api.rawset h t key val) o = vm.content h o
  rawset_ran : ∀ h t key val, vm.ran (api.rawset h t key val) = vm.ran h
  rawset_getlocal : ∀ h t key val, api.getlocal (api.rawset h t key val) = api.getlocal h
  newtable_nexti : ∀ h o, vm.nexti (api.newtable h).1 o → vm.nexti h o
  /-- A new table is no delegate of anything. -/
  rawset_nexti : ∀ h key val o,
    vm.nexti (api.rawset (api.newtable h).1 (api.newtable h).2 key val) o →
      vm.nexti (api.newtable h).1 o

/-- What was there is as it was, and no script function has been called. -/
structure Untouched (h h' : H) : Prop where
  content : ∀ o c, vm.content h o = some c → vm.content h' o = some c
  getlocal : api.getlocal h' = api.getlocal h
  ran : vm.ran h' = vm.ran h

/-- Nothing in the VM is iterated by script. -/
def NoNexti (h : H) : Prop := ∀ o, ¬ vm.nexti h o

/-- Looking the key up calls no metamethod. -/
def Quiet (h : H) (o key : SqObject) : Prop := vm.found h o key ≠ none ∨ ¬ vm.metamethod h o

/-- Along the chain every key looked up is. -/
def QuietAlong : H → SqObject → List SqObject → Prop
  | _, _, [] => True
  | h, o, key :: keys => (Asks o key → Quiet vm h o key) ∧
      ∀ h' v, Selects api h o key h' (some v) → QuietAlong h' v keys

/-- The value of the first local of this name, from number `n` on, if there is one. -/
inductive LocalNamed (h : H) (level : Nat) (text : Bytes) : Nat → Option SqObject → Prop
  | none {n : Nat} (hl : api.getlocal h level n = none) : LocalNamed h level text n none
  | here {n : Nat} {name : Bytes} {value : SqObject}
    (hl : api.getlocal h level n = some (name, value)) (ht : cstr name = text) :
    LocalNamed h level text n (some value)
  | later {n : Nat} {name : Bytes} {value : SqObject} {r : Option SqObject}
    (hl : api.getlocal h level n = some (name, value)) (ht : cstr name ≠ text)
    (hr : LocalNamed h level text (n + 1) r) : LocalNamed h level text n r

/-- Where the lookups of an identifier start: the heap and the container. -/
inductive Starts (h : H) (stackFrame : Int32) (text : Bytes) : H → SqObject → Prop
  | noFrame (hf : ¬ 0 ≤ stackFrame.toInt) : Starts h stackFrame text h (.table (api.roottable h))
  | local_ {value : SqObject} (hf : 0 ≤ stackFrame.toInt)
    (hl : LocalNamed api (api.newtable h).1 stackFrame.toInt.toNat text 0 (some value)) :
    Starts h stackFrame text
      (api.rawset (api.newtable h).1 (api.newtable h).2 (.string text) value)
      (.table (api.newtable h).2)
  | global (hf : 0 ≤ stackFrame.toInt)
    (hl : LocalNamed api (api.newtable h).1 stackFrame.toInt.toNat text 0 none) :
    Starts h stackFrame text (api.newtable h).1 (.table (api.roottable (api.newtable h).1))

/-- The chain is not that of an identifier, or its keys are looked up quietly. -/
def QuietChain (stackFrame : Int32) (results : ExpressionResults) (v : SqVm H) (id : NodeId) :
    ExpressionNode → Prop
  | .null => True
  | .node type text accessor next => type = .identifier → ∀ keys h₀ o,
      Returns (sqNodes results type text id (.node type text accessor next)) v (.ok keys) v →
      Starts api v.heap stackFrame text h₀ o → QuietAlong api vm h₀ o keys

/-- So is the chain that comes next. -/
def QuietNext (stackFrame : Int32) (w : Work H) : Prop :=
  ∀ id node stack, w.stack = (id, node) :: stack → unresolved w.results id node = [] →
    QuietChain api vm stackFrame w.results w.vm id node

/-- So is every chain of the rounds from here. -/
def QuietRounds (fuel : Nat) (stackFrame : Int32) (w : Work H) : Prop :=
  ∀ ls w', (rounds api fuel stackFrame).Run w ls w' → QuietNext api vm stackFrame w'

/-- The commands that are there to look. -/
def Looking : L2.DataCall → Prop
  | .setStackVariableValue .. => False
  | _ => True

/-- Every key that the command looks up in a table or an instance is there, or there is
no metamethod to be called. -/
def QuietCall (fuel : Nat) (v : SqVm H) : L2.DataCall → Prop
  | .getImmediateValue stackFrame watch _ => ∀ root, parseWatch watch = .ok root →
      QuietRounds api vm fuel stackFrame (.start root v)
  | _ => True

/-- Whether `P` can be read off the number of calls; and where `P` holds nothing is
touched. -/
structure Measured (P : Prop) (h h' : H) : Prop where
  mono : vm.ran h ≤ vm.ran h'
  ran_iff : vm.ran h' = vm.ran h ↔ P
  untouched : P → Untouched api vm h h'

variable {api vm} {h h' h'' : H} {o key : SqObject} {P Q : Prop}

/-! ## Measured changes -/

theorem Untouched.refl (h : H) : Untouched api vm h h := ⟨fun _ _ hc => hc, rfl, rfl⟩

theorem Untouched.trans (h₁ : Untouched api vm h h') (h₂ : Untouched api vm h' h'') :
    Untouched api vm h h'' where
  content o c hc := h₂.content o c (h₁.content o c hc)
  getlocal := h₂.getlocal.trans h₁.getlocal
  ran := h₂.ran.trans h₁.ran

theorem Untouched.measured (hu : Untouched api vm h h') : Measured api vm True h h' where
  mono := Nat.le_of_eq hu.ran.symm
  ran_iff := iff_of_true hu.ran trivial
  untouched _ := hu

/-- Once a script function has been called, only the number of calls matters. -/
theorem Measured.trans (h₁ : Measured api vm P h h') (hmono : vm.ran h' ≤ vm.ran h'')
    (h₂ : P → Measured api vm Q h' h'') : Measured api vm (P ∧ Q) h h'' := by
  have hmono₁ := h₁.mono
  by_cases hp : P
  · have hiff := (h₂ hp).ran_iff
    have hran := h₁.ran_iff.mpr hp
    refine ⟨Nat.le_trans hmono₁ hmono, ?_, fun hand => ?_⟩
    · rw [← hran, hiff]
      exact ⟨fun hq => ⟨hp, hq⟩, fun hand => hand.2⟩
    · exact (h₁.untouched hp).trans ((h₂ hp).untouched hand.2)
  · have hne : vm.ran h' ≠ vm.ran h := fun heq => hp (h₁.ran_iff.mp heq)
    refine ⟨Nat.le_trans hmono₁ hmono, ?_, fun hand => absurd hand.1 hp⟩
    exact ⟨fun heq => by omega, fun hand => absurd hand.1 hp⟩

theorem Measured.congr (hm : Measured api vm P h h') (hiff : P ↔ Q) : Measured api vm Q h h' where
  mono := hm.mono
  ran_iff := hm.ran_iff.trans hiff
  untouched hq := hm.untouched (hiff.mpr hq)

theorem Measured.untouched_iff (hm : Measured api vm P h h') : Untouched api vm h h' ↔ P :=
  ⟨fun hu => hm.ran_iff.mp hu.ran, hm.untouched⟩

/-! ## Looking keys up -/

theorem FirstWithRaw.related {R : H → H → Prop} (hq : ReadOrder api R) {iter : SqObject}
    {r : Option SqObject} (hs : FirstWithRaw api h o key iter h' r) : R h h' := by
  obtain ⟨n, hs⟩ := hs
  induction n generalizing h iter with
  | zero => cases hs
  | succ n ih =>
    rw [firstWithRaw] at hs
    cases hi : readInteger api iter with
    | none =>
      rw [hi] at hs
      obtain ⟨rfl, -⟩ := Prod.mk.inj (Option.some.inj hs)
      exact hq.refl h
    | some i =>
      rw [hi] at hs
      have hstep := hq.advance h o iter
      rcases hn : api.advance h o iter with ⟨h₁, _ | ⟨k, v, iter'⟩⟩
      · rw [hn] at hs hstep
        obtain ⟨rfl, -⟩ := Prod.mk.inj (Option.some.inj hs)
        exact hstep
      · rw [hn] at hs hstep
        dsimp only at hs
        split at hs
        · obtain ⟨rfl, -⟩ := Prod.mk.inj (Option.some.inj hs)
          exact hstep
        · exact hq.trans _ _ _ hstep (ih hs)

theorem Selects.related {R : H → H → Prop} (hq : HeapOrder api R) {r : Option SqObject}
    (hs : Selects api h o key h' r) : R h h' := by
  have hget := hq.get h o key
  cases hs with
  | refused _ => exact hq.refl h
  | absent _ hg =>
    rw [hg] at hget
    exact hget
  | element _ _ hg =>
    rw [hg] at hget
    exact hget
  | slot _ hg hs =>
    rw [hg] at hget
    exact hq.trans _ _ _ hget (hs.related hq.toReadOrder)

theorem Walks.related {R : H → H → Prop} (hq : HeapOrder api R) {keys : List SqObject}
    {r : Option SqObject} (hw : Walks api h o keys h' r) : R h h' := by
  induction hw with
  | here h o => exact hq.refl h
  | stops hs => exact hs.related hq
  | goes hs _ ih => exact hq.trans _ _ _ (hs.related hq) ih

variable (hd : Documented api vm)

include hd

theorem Documented.get_quiet (hquiet : Quiet vm h o key) : (api.get h o key).1 = h := by
  cases hfound : vm.found h o key with
  | some v => rw [hd.found h o key v hfound]
  | none =>
    rcases hquiet with hq | hq
    · exact absurd hfound hq
    · rw [hd.absent h o key hfound hq]

theorem Documented.get_calls (hquiet : ¬ Quiet vm h o key) :
    vm.ran h < vm.ran (api.get h o key).1 := by
  rw [Quiet, not_or, not_not, not_not] at hquiet
  exact hd.calls h o key hquiet.1 hquiet.2

theorem measured_get (h : H) (o key : SqObject) :
    Measured api vm (Quiet vm h o key) h (api.get h o key).1 := by
  by_cases hquiet : Quiet vm h o key
  · rw [hd.get_quiet hquiet]
    exact (Untouched.refl h).measured.congr (iff_of_true trivial hquiet)
  · have hlt := hd.get_calls hquiet
    refine ⟨Nat.le_of_lt hlt, iff_of_false (by omega) hquiet, fun hq => absurd hq hquiet⟩

/-- No call is taken back. -/
theorem Documented.heapOrder : HeapOrder api fun h h' => vm.ran h ≤ vm.ran h' where
  refl _ := Nat.le_refl _
  trans _ _ _ h₁ h₂ := Nat.le_trans h₁ h₂
  advance := by
    refine advance_heap (Q := fun h h' => vm.ran h ≤ vm.ran h') (fun _ => Nat.le_refl _) ?_
    intro h o iter
    by_cases ho : vm.nexti h o
    · exact Nat.le_of_lt (hd.resumes h o iter ho)
    · rw [hd.iterated h o iter ho]
  get h o key := (measured_get hd h o key).mono
  set := hd.set_ran
  rawset h t key val := Nat.le_of_eq (hd.rawset_ran h t key val).symm
  newtable h := Nat.le_of_eq (hd.newtable_ran h).symm

theorem NoNexti.still (hn : NoNexti vm h) : Still api h := by
  intro o iter
  have hkept : ∀ o, (api.nexti h o iter).1 = h := fun o => hd.iterated h o iter (hn o)
  cases o with
  | instance_ a => exact hkept _
  | userData a => exact hkept _
  | generator a => exact hkept _
  | _ => rfl

theorem measured_selects (hn : NoNexti vm h) {r : Option SqObject}
    (hs : Selects api h o key h' r) :
    Measured api vm (Asks o key → Quiet vm h o key) h h' ∧
      ((Asks o key → Quiet vm h o key) → h' = h) := by
  have hasked : ∀ {h₁ r'}, Asks o key → api.get h o key = (h₁, r') →
      Measured api vm (Asks o key → Quiet vm h o key) h h₁ ∧
        ((Asks o key → Quiet vm h o key) → h₁ = h) := by
    intro h₁ r' ha hg
    have hm := measured_get hd h o key
    have hquiet : Quiet vm h o key → (api.get h o key).1 = h := fun hq => hd.get_quiet hq
    rw [hg] at hm hquiet
    exact ⟨hm.congr ⟨fun hq _ => hq, fun hq => hq ha⟩, fun hq => hquiet (hq ha)⟩
  cases hs with
  | refused ha =>
    exact ⟨(Untouched.refl h).measured.congr (iff_of_true trivial fun ha' => absurd ha' ha),
      fun _ => rfl⟩
  | absent ha hg => exact hasked ha hg
  | element _ ha hg => exact hasked ha hg
  | slot ho hg hs =>
    have ha : Asks o key := by cases o <;> simp [SqObject.type, Asks] at ho ⊢
    obtain ⟨hm, hkept⟩ := hasked ha hg
    have hscan : ∀ {h₁}, h₁ = h → FirstWithRaw api h₁ o key (.integer 0) h' r → h' = h := by
      rintro h₁ rfl hs
      exact hs.related (hn.still hd).readOrder rfl
    refine ⟨(hm.trans (Q := True) (hs.related (R := fun h h' => vm.ran h ≤ vm.ran h')
      hd.heapOrder.toReadOrder) fun hq => ?_).congr
      ⟨fun hq => hq.1, fun hq => ⟨hq, trivial⟩⟩, fun hq => hscan (hkept hq) hs⟩
    rw [hscan (hkept hq) hs, hkept hq]
    exact (Untouched.refl h).measured

/-- A chain calls script functions unless it is quiet. -/
theorem measured_walks {keys : List SqObject} {r : Option SqObject} (hn : NoNexti vm h)
    (hw : Walks api h o keys h' r) :
    Measured api vm (QuietAlong api vm h o keys) h h' ∧
      (QuietAlong api vm h o keys → h' = h) := by
  induction hw with
  | here h o => exact ⟨(Untouched.refl h).measured, fun _ => rfl⟩
  | stops hs =>
    obtain ⟨hm, hkept⟩ := measured_selects hd hn hs
    refine ⟨hm.congr ⟨fun hq => ⟨hq, fun h'' v hs' => ?_⟩, fun hq => hq.1⟩, fun hq => hkept hq.1⟩
    cases (hs.unique hs').2
  | @goes h h' h'' o key v keys r hs hw ih =>
    obtain ⟨hm, hkept⟩ := measured_selects hd hn hs
    have hrest : (Asks o key → Quiet vm h o key) →
        Measured api vm (QuietAlong api vm h' v keys) h' h'' ∧
          (QuietAlong api vm h' v keys → h'' = h') := by
      intro hq
      apply ih
      rw [hkept hq]
      exact hn
    have hiff : (Asks o key → Quiet vm h o key) ∧ QuietAlong api vm h' v keys ↔
        QuietAlong api vm h o (key :: keys) := by
      refine ⟨fun hq => ⟨hq.1, fun h₁ v' hs' => ?_⟩, fun hq => ⟨hq.1, hq.2 h' v hs⟩⟩
      obtain ⟨rfl, hv⟩ := hs.unique hs'
      obtain rfl := Option.some.inj hv
      exact hq.2
    have hmono : vm.ran h' ≤ vm.ran h'' :=
      hw.related (R := fun h h' => vm.ran h ≤ vm.ran h') hd.heapOrder
    refine ⟨(hm.trans hmono fun hq => (hrest hq).1).congr hiff, fun hq => ?_⟩
    obtain ⟨hq, hqs⟩ := hiff.mpr hq
    rw [(hrest hq).2 hqs, hkept hq]

/-! ## Where lookups start -/

theorem Starts.untouched {stackFrame : Int32} {text : Bytes} {h₀ : H}
    (hs : Starts api h stackFrame text h₀ o) : Untouched api vm h h₀ := by
  have hnew : Untouched api vm h (api.newtable h).1 :=
    ⟨hd.newtable h, hd.newtable_getlocal h, hd.newtable_ran h⟩
  cases hs with
  | noFrame _ => exact .refl h
  | global _ _ => exact hnew
  | local_ _ _ =>
    refine ⟨fun o c hc => ?_, ?_, ?_⟩
    · -- the new table is no object of `h`
      have hne : o ≠ .table (api.newtable h).2 := by
        rintro rfl
        rw [hd.fresh] at hc
        cases hc
      rw [hd.rawset _ _ _ _ o hne]
      exact hnew.content o c hc
    · rw [hd.rawset_getlocal]
      exact hnew.getlocal
    · rw [hd.rawset_ran]
      exact hnew.ran

theorem Starts.noNexti {stackFrame : Int32} {text : Bytes} {h₀ : H} (hn : NoNexti vm h)
    (hs : Starts api h stackFrame text h₀ o) : NoNexti vm h₀ := by
  have hnew : NoNexti vm (api.newtable h).1 := fun o ho => hn o (hd.newtable_nexti h o ho)
  cases hs with
  | noFrame _ => exact hn
  | global _ _ => exact hnew
  | local_ _ _ => exact fun o ho => hnew o (hd.rawset_nexti h _ _ o ho)

omit hd

theorem LocalNamed.unique {level n : Nat} {text : Bytes} {r r' : Option SqObject}
    (hl : LocalNamed api h level text n r) (hl' : LocalNamed api h level text n r') : r = r' := by
  induction hl with
  | none hnone =>
    cases hl' with
    | none _ => rfl
    | here hsome _ => rw [hnone] at hsome; cases hsome
    | later hsome _ _ => rw [hnone] at hsome; cases hsome
  | here hsome ht =>
    cases hl' with
    | none hnone => rw [hsome] at hnone; cases hnone
    | here hsome' _ =>
      rw [hsome] at hsome'
      cases hsome'
      rfl
    | later hsome' ht' _ =>
      rw [hsome] at hsome'
      cases hsome'
      exact absurd ht ht'
  | later hsome ht _ ih =>
    cases hl' with
    | none hnone => rw [hsome] at hnone; cases hnone
    | here hsome' ht' =>
      rw [hsome] at hsome'
      cases hsome'
      exact absurd ht' ht
    | later _ _ hr => exact ih hr

theorem Starts.unique {stackFrame : Int32} {text : Bytes} {h₀ h₁ : H} {o₀ o₁ : SqObject}
    (hs : Starts api h stackFrame text h₀ o₀) (hs' : Starts api h stackFrame text h₁ o₁) :
    h₀ = h₁ ∧ o₀ = o₁ := by
  cases hs with
  | noFrame hf =>
    cases hs' with
    | noFrame _ => exact ⟨rfl, rfl⟩
    | local_ hf' _ => exact absurd hf' hf
    | global hf' _ => exact absurd hf' hf
  | local_ hf hl =>
    cases hs' with
    | noFrame hf' => exact absurd hf hf'
    | local_ _ hl' =>
      cases hl.unique hl'
      exact ⟨rfl, rfl⟩
    | global _ hl' => cases hl.unique hl'
  | global hf hl =>
    cases hs' with
    | noFrame hf' => exact absurd hf hf'
    | local_ _ hl' => cases hl.unique hl'
    | global _ _ => exact ⟨rfl, rfl⟩

/-! ## An identifier -/

variable {fuel : Nat} {stackFrame : Int32} {text : Bytes} {keys rest : List SqObject}
  {faults : List Fault}

variable (api fuel) in
/-- The lookups use up their bound, or they are a walk. -/
theorem lookups_end (h : H) (o : SqObject) (keys rest : List SqObject) (faults : List Fault) :
    (∃ t, (getObjectFromExpression api fuel keys).run ⟨o :: rest, h, faults⟩ = .error .fuel t) ∨
      ∃ rc h' r, Walks api h o keys h' r ∧
        Returns (getObjectFromExpression api fuel keys) ⟨o :: rest, h, faults⟩ rc
          ⟨o :: rest, h', faults⟩ := by
  cases hrun : (getObjectFromExpression api fuel keys).run ⟨o :: rest, h, faults⟩ with
  | error e t =>
    obtain rfl := fuel_of_throws hrun
    exact .inl ⟨t, rfl⟩
  | ok rc t =>
    obtain ⟨h', hw, rfl⟩ := walks_of_run hrun
    exact .inr ⟨rc, h', _, hw, hrun⟩

variable (api fuel) in
theorem evaluateGlobal_ends (h : H) (keys stack : List SqObject) (faults : List Fault) :
    (∃ t, (evaluateGlobal api fuel keys).run ⟨stack, h, faults⟩ = .error .fuel t) ∨
      ∃ rc h' r, Walks api h (.table (api.roottable h)) keys h' r ∧
        Returns (evaluateGlobal api fuel keys) ⟨stack, h, faults⟩ rc ⟨stack, h', faults⟩ := by
  have hroot : Returns (sqPushroottable api) ⟨stack, h, faults⟩ ()
    ⟨.table (api.roottable h) :: stack, h, faults⟩ := rfl
  rcases lookups_end api fuel h (.table (api.roottable h)) keys stack faults
    with ⟨t, hrun⟩ | ⟨rc, h', r, hw, hrun⟩
  · refine .inl ⟨t, ?_⟩
    rw [evaluateGlobal, EStateM.run_bind, hroot]
    dsimp only
    rw [EStateM.run_bind, hrun]
  · exact .inr ⟨_, h', r, hw, hroot.bind (hrun.bind rfl)⟩

variable (api fuel text keys rest faults) in
/-- The search for a local, over the temporary table. -/
theorem findLocal_ends (h : H) (level t : Nat) (n nSeq : Nat) :
    (∃ u, (findLocal api fuel level text keys n nSeq).run ⟨.table t :: rest, h, faults⟩ =
        .error .fuel u) ∨
      (LocalNamed api h level text nSeq none ∧
        Returns (findLocal api fuel level text keys n nSeq) ⟨.table t :: rest, h, faults⟩ none
          ⟨.table t :: rest, h, faults⟩) ∨
      ∃ value i rc h' r, LocalNamed api h level text nSeq (some value) ∧
        Walks api (api.rawset h t (.string text) value) (.table t) keys h' r ∧
        Returns (findLocal api fuel level text keys n nSeq) ⟨.table t :: rest, h, faults⟩
          (some (i, rc)) ⟨.table t :: rest, h', faults⟩ := by
  induction n generalizing nSeq with
  | zero => exact .inl ⟨_, rfl⟩
  | succ n ih =>
    cases hl : api.getlocal h level nSeq with
    | none =>
      have hnone : Returns (sqGetlocal api level nSeq) ⟨.table t :: rest, h, faults⟩ none
        ⟨.table t :: rest, h, faults⟩ := returns_sqGetlocal_iff.mpr (.inl ⟨hl, rfl, rfl⟩)
      exact .inr (.inl ⟨.none hl, hnone.bind rfl⟩)
    | some p =>
      obtain ⟨name, value⟩ := p
      have hsome : Returns (sqGetlocal api level nSeq) ⟨.table t :: rest, h, faults⟩ (some name)
          ⟨value :: .table t :: rest, h, faults⟩ :=
        returns_sqGetlocal_iff.mpr (.inr ⟨name, value, hl, rfl, rfl⟩)
      rw [findLocal, EStateM.run_bind, hsome]
      dsimp only
      by_cases ht : cstr name = text
      · rw [if_pos ht]
        show (∃ u, EStateM.run (getObjectFromExpression api fuel keys >>= fun rc =>
            pure (some (nSeq, rc)))
              ⟨.table t :: rest, api.rawset h t (.string text) value, faults⟩ =
          .error .fuel u) ∨ _
        rcases lookups_end api fuel (api.rawset h t (.string text) value)
          (.table t) keys rest faults with ⟨u, hrun⟩ | ⟨rc, h', r, hw, hrun⟩
        · refine .inl ⟨u, ?_⟩
          rw [EStateM.run_bind, hrun]
        · refine .inr (.inr ⟨value, nSeq, rc, h', r, .here hl ht, hw, hsome.bind ?_⟩)
          dsimp only
          rw [if_pos ht]
          exact hrun.bind rfl
      · have hnext : EStateM.run (sqPoptop (H := H) >>= fun _ =>
            findLocal api fuel level text keys n (nSeq + 1))
              ⟨value :: .table t :: rest, h, faults⟩ =
            (findLocal api fuel level text keys n (nSeq + 1)).run ⟨.table t :: rest, h, faults⟩ :=
          rfl
        rw [if_neg ht, hnext]
        rcases ih (nSeq + 1) with hfuel | ⟨hnone, hrun⟩ | ⟨value', i, rc, h', r, hnamed, hw, hrun⟩
        · exact .inl hfuel
        · refine .inr (.inl ⟨.later hl ht hnone, hsome.bind ?_⟩)
          dsimp only
          rw [if_neg ht]
          exact hnext.trans hrun
        · refine .inr (.inr ⟨value', i, rc, h', r, .later hl ht hnamed, hw, hsome.bind ?_⟩)
          dsimp only
          rw [if_neg ht]
          exact hnext.trans hrun

variable (api fuel stackFrame) in
/-- An identifier is looked up from where it starts. -/
theorem evaluateIdentifier_ends (text : Bytes) (keys : List SqObject) (v : SqVm H) :
    (∃ t, (evaluateIdentifier api fuel stackFrame text keys).run v = .error .fuel t) ∨
      ∃ rc h₀ o h' r, Starts api v.heap stackFrame text h₀ o ∧ Walks api h₀ o keys h' r ∧
        Returns (evaluateIdentifier api fuel stackFrame text keys) v rc
          ⟨v.stack, h', v.faults⟩ := by
  obtain ⟨stack, h, faults⟩ := v
  unfold evaluateIdentifier
  by_cases hf : 0 ≤ stackFrame.toInt
  · rw [if_pos hf]
    have hnew : Returns (sqNewtable api) ⟨stack, h, faults⟩ ()
      ⟨.table (api.newtable h).2 :: stack, (api.newtable h).1, faults⟩ := rfl
    have hpop : ∀ h', Returns (sqPoptop (H := H)) ⟨.table (api.newtable h).2 :: stack, h', faults⟩
      () ⟨stack, h', faults⟩ := fun _ => rfl
    rw [EStateM.run_bind, hnew]
    dsimp only
    rcases findLocal_ends api fuel text keys stack faults (api.newtable h).1
      stackFrame.toInt.toNat (api.newtable h).2 fuel 0
      with ⟨u, hfind⟩ | ⟨hnone, hfind⟩ | ⟨value, i, rc, h', r, hnamed, hw, hfind⟩
    · refine .inl ⟨u, ?_⟩
      rw [EStateM.run_bind, hfind]
    · rw [EStateM.run_bind, hfind]
      dsimp only
      rw [EStateM.run_bind, hpop]
      rcases evaluateGlobal_ends api fuel (api.newtable h).1 keys stack faults
        with hfuel | ⟨rc, h', r, hw, hrun⟩
      · exact .inl hfuel
      · exact .inr ⟨rc, _, _, h', r, .global hf hnone, hw,
          hnew.bind (hfind.bind ((hpop _).bind hrun))⟩
    · exact .inr ⟨_, _, _, h', r, .local_ hf hnamed, hw,
        hnew.bind (hfind.bind ((hpop _).bind rfl))⟩
  · rw [if_neg hf]
    rcases evaluateGlobal_ends api fuel h keys stack faults
      with hfuel | ⟨rc, h', r, hw, hrun⟩
    · exact .inl hfuel
    · exact .inr ⟨rc, _, _, h', r, .noFrame hf, hw, hrun⟩

/-! ## A watch -/

/-- An exception that the model has and the program has not. -/
def OutOfModel (e : Exn) : Prop := e = .fuel ∨ e = .undefined

include hd

variable (fuel stackFrame) in
/-- A chain calls script functions unless its lookups are quiet. -/
theorem measured_evaluateNode {results : ExpressionResults} {id : NodeId} {node : ExpressionNode}
    (h : unresolved results id node = []) (v : SqVm H) :
    Ends (evaluateNode api fuel stackFrame results id node) v
      (fun _ t => NoNexti vm v.heap →
        Measured api vm (QuietChain api vm stackFrame results v id node) v.heap t.heap ∧
          (QuietChain api vm stackFrame results v id node → NoNexti vm t.heap))
      fun e _ => OutOfModel e := by
  cases node with
  | null => exact ends_throw (.inr rfl)
  | node type text accessor next =>
    obtain ⟨r, hr, -⟩ := sqNodes_recorded type text h v
    have hkeys : ∀ {keys}, Returns (sqNodes results type text id (.node type text accessor next)) v
        (.ok keys) v → r = .ok keys := fun hkeys => (Returns.unique hr hkeys).1
    unfold Ends
    rw [evaluateNode, EStateM.run_bind, hr]
    dsimp only
    cases r with
    | error rc =>
      refine fun hn => ⟨(Untouched.refl v.heap).measured.congr (iff_of_true trivial ?_),
        fun _ => hn⟩
      intro _ keys h₀ o hret
      cases hkeys hret
    | ok keys =>
      dsimp only
      by_cases htype : type = .identifier
      · rw [if_pos htype]
        rcases evaluateIdentifier_ends api fuel stackFrame text keys v with
          ⟨t, hrun⟩ | ⟨rc, h₀, o, h', r, hs, hw, hrun⟩
        · rw [hrun]
          exact .inl rfl
        · rw [hrun]
          intro hn
          obtain ⟨hwalk, hkept⟩ := measured_walks hd (hs.noNexti hd hn) hw
          have hiff : QuietAlong api vm h₀ o keys ↔
              QuietChain api vm stackFrame results v id (.node type text accessor next) := by
            refine ⟨fun hq _ keys' h₁ o₁ hret hs' => ?_, fun hq => hq htype keys h₀ o hr hs⟩
            obtain ⟨rfl, rfl⟩ := hs.unique hs'
            cases hkeys hret
            exact hq
          refine ⟨?_, fun hq => ?_⟩
          · exact ((hs.untouched hd).measured.trans hwalk.mono fun _ => hwalk).congr
              ((iff_of_eq (true_and _)).trans hiff)
          · rw [hkept (hiff.mpr hq)]
            exact hs.noNexti hd hn
      · rw [if_neg htype]
        exact fun hn => ⟨(Untouched.refl v.heap).measured.congr
          (iff_of_true trivial fun htype' => absurd htype' htype), fun _ => hn⟩

omit hd in
/-- From a state on: the chain that comes next, and the rounds after the first. -/
theorem quietRounds_iff {w : Work H} : QuietRounds api vm fuel stackFrame w ↔
    QuietNext api vm stackFrame w ∧
      ∀ l w', Round api fuel stackFrame w l w' → QuietRounds api vm fuel stackFrame w' := by
  constructor
  · intro hq
    exact ⟨hq [] w (.nil w), fun l w' hs ls w'' hrun => hq (l :: ls) w'' (.cons hs hrun)⟩
  · intro hq ls w' hrun
    cases hrun with
    | nil => exact hq.1
    | cons hs hrun => exact hq.2 _ _ hs _ _ hrun

variable (fuel stackFrame) in
/-- The loop calls script functions unless its rounds are quiet. -/
theorem measured_evaluateLoop (n : Nat) (w : Work H) :
    Ends (evaluateLoop api stackFrame fuel n w.stack w.results) w.vm
      (fun _ t => NoNexti vm w.vm.heap →
        Measured api vm (QuietRounds api vm fuel stackFrame w) w.vm.heap t.heap ∧
          (QuietRounds api vm fuel stackFrame w → NoNexti vm t.heap))
      fun e _ => OutOfModel e := by
  induction n generalizing w with
  | zero => exact ends_throw (.inl rfl)
  | succ n ih =>
    obtain ⟨stack, results, v⟩ := w
    cases stack with
    | nil =>
      refine fun hn => ⟨(Untouched.refl v.heap).measured.congr (iff_of_true trivial ?_),
        fun _ => hn⟩
      refine quietRounds_iff.mpr ⟨fun id node stack heq => ?_, fun l w' hs => ?_⟩
      · cases heq
      · cases hs
    | cons x stack =>
      obtain ⟨id, node⟩ := x
      by_cases hnil : unresolved results id node = []
      · have hnext : QuietNext api vm stackFrame ⟨(id, node) :: stack, results, v⟩ ↔
            QuietChain api vm stackFrame results v id node := by
          refine ⟨fun hq => hq id node stack rfl hnil, fun hq id' node' stack' heq _ => ?_⟩
          cases heq
          exact hq
        have hnode := measured_evaluateNode hd fuel stackFrame hnil v
        unfold Ends at hnode ⊢
        rw [evaluateLoop_node hnil, EStateM.run_bind]
        cases hrun : (evaluateNode api fuel stackFrame results id node).run v with
        | error e t =>
          rw [hrun] at hnode
          exact hnode
        | ok rc t =>
          rw [hrun] at hnode
          cases rc with
          | error rc =>
            -- the loop ends here, and no round is taken
            have hiff : QuietChain api vm stackFrame results v id node ↔
                QuietRounds api vm fuel stackFrame ⟨(id, node) :: stack, results, v⟩ := by
              refine ⟨fun hq => ?_, fun hq => hnext.mp (quietRounds_iff.mp hq).1⟩
              refine quietRounds_iff.mpr ⟨hnext.mpr hq, fun l w' hs => ?_⟩
              cases hs with
              | waits hne => exact absurd hnil hne
              | evaluates _ he =>
                rw [Returns, hrun] at he
                cases he
            intro hn
            exact ⟨(hnode hn).1.congr hiff, fun hq => (hnode hn).2 (hiff.mpr hq)⟩
          | ok state =>
            have hround : Round api fuel stackFrame ⟨(id, node) :: stack, results, v⟩
                (some (id, node)) ⟨stack, Function.update results id (some state), t⟩ :=
              .evaluates hnil hrun
            have hiff : QuietChain api vm stackFrame results v id node ∧
                QuietRounds api vm fuel stackFrame
                  ⟨stack, Function.update results id (some state), t⟩ ↔
                QuietRounds api vm fuel stackFrame ⟨(id, node) :: stack, results, v⟩ := by
              refine ⟨fun hq => ?_, fun hq => ?_⟩
              · refine quietRounds_iff.mpr ⟨hnext.mpr hq.1, fun l w' hs => ?_⟩
                cases hs with
                | waits hne => exact absurd hnil hne
                | evaluates _ he =>
                  obtain ⟨hstate, rfl⟩ := Returns.unique hrun he
                  cases hstate
                  exact hq.2
              · obtain ⟨hfirst, hrest⟩ := quietRounds_iff.mp hq
                exact ⟨hnext.mp hfirst, hrest _ _ hround⟩
            have hmono := hd.heapOrder.evaluateLoop stackFrame fuel n stack
              (Function.update results id (some state)) t
            have hrest := ih ⟨stack, Function.update results id (some state), t⟩
            unfold Ends at hmono hrest
            dsimp only
            split
            · rename_i rc u hloop
              rw [hloop] at hmono hrest
              intro hn
              have hrest := fun hq => hrest ((hnode hn).2 hq)
              refine ⟨((hnode hn).1.trans hmono fun hq => (hrest hq).1).congr hiff, fun hq => ?_⟩
              obtain ⟨hfirst, hq⟩ := hiff.mpr hq
              exact (hrest hfirst).2 hq
            · rename_i e u hloop
              rw [hloop] at hrest
              exact hrest
      · -- a round that only pushes looks nothing up
        have hround : Round api fuel stackFrame ⟨(id, node) :: stack, results, v⟩ none
            ⟨(unresolved results id node).reverse ++ (id, node) :: stack, results, v⟩ :=
          .waits hnil
        have hrun := evaluateLoop_round hround n
        have hrest := ih ⟨(unresolved results id node).reverse ++ (id, node) :: stack, results, v⟩
        unfold Ends at hrest ⊢
        rw [hrun]
        have hiff : QuietRounds api vm fuel stackFrame
              ⟨(unresolved results id node).reverse ++ (id, node) :: stack, results, v⟩ ↔
            QuietRounds api vm fuel stackFrame ⟨(id, node) :: stack, results, v⟩ := by
          refine ⟨fun hq => ?_, fun hq => (quietRounds_iff.mp hq).2 _ _ hround⟩
          refine quietRounds_iff.mpr ⟨fun id' node' stack' heq hnil' => ?_, fun l w' hs => ?_⟩
          · cases heq
            exact absurd hnil' hnil
          · cases hs with
            | waits _ => exact hq
            | evaluates hnil' _ => exact absurd hnil' hnil
        refine Ends.mono hrest (fun _ u hu hn => ?_) fun _ _ he => he
        exact ⟨(hu hn).1.congr hiff, fun hq => (hu hn).2 (hiff.mpr hq)⟩

/-! ## Stack and global variables -/

/-- In an array nothing but the slots is looked into. -/
theorem heap_get_array (h : H) (a : Nat) (key : SqObject) : (api.get h (.array a) key).1 = h :=
  hd.get_quiet (.inr (hd.array h a))

theorem turns_withVariableAtPath {h₀ : H} (hs : Still api h₀) {α : Type}
    {fn : VmM H (Except ReturnCode α)} (hfn : Turns (fun h h' => h = h₀ → h' = h₀) fn)
    (path : List UInt64) :
    Turns (fun h h' => h = h₀ → h' = h₀) (withVariableAtPath api fn path) := by
  have hq := hs.readOrder
  induction path with
  | nil => exact hfn
  | cons part path ih =>
    intro s
    obtain ⟨stack, h, faults⟩ := s
    cases stack with
    | nil => exact fun heq => heq
    | cons o rest =>
      have hslot : Turns (fun h h' => h = h₀ → h' = h₀) (do
          sqPushinteger (toSqInteger part)
          if ← sqNext api 2 then
            let childRetVal ← withVariableAtPath api fn path
            sqPop 3
            return childRetVal
          else
            sqPoptop
            return .error .invalidParameter : VmM H (Except ReturnCode α)) := by
        refine hq.seq (hq.sqPushobject _) fun _ => hq.seq (hq.sqNext 2) fun next => ?_
        split
        · exact hq.seq ih fun _ => hq.seq (hq.sqPop 3) fun _ => hq.done _
        · exact hq.seq hq.sqPoptop fun _ => hq.done _
      have hrefused : Turns (fun h h' => h = h₀ → h' = h₀)
          (pure (.error .invalidParameter) : VmM H (Except ReturnCode α)) := hq.done _
      have htype : Returns (sqGettype 1) ⟨o :: rest, h, faults⟩ o.type ⟨o :: rest, h, faults⟩ := rfl
      unfold withVariableAtPath Ends
      rw [EStateM.run_bind, htype]
      cases o with
      | table a => exact hslot ⟨.table a :: rest, h, faults⟩
      | instance_ a => exact hslot ⟨.instance_ a :: rest, h, faults⟩
      | array a =>
        have hsize : Returns (sqGetsize api 1) ⟨.array a :: rest, h, faults⟩
          (api.getsize h (.array a)) ⟨.array a :: rest, h, faults⟩ := rfl
        have hpush : Returns (sqPushinteger (toInt part)) ⟨.array a :: rest, h, faults⟩ ()
          ⟨.integer (toInt part) :: .array a :: rest, h, faults⟩ := rfl
        dsimp only [SqObject.type]
        rw [EStateM.run_bind, hsize]
        dsimp only
        by_cases hout : api.getsize h (.array a) ≤ toInt part
        · rw [if_pos hout]
          exact hrefused ⟨.array a :: rest, h, faults⟩
        · rw [if_neg hout, EStateM.run_bind, hpush]
          dsimp only
          rw [EStateM.run_bind, sqGet_run]
          have hheap := heap_get_array hd h a (.integer (toInt part))
          rcases hget : api.get h (.array a) (.integer (toInt part)) with ⟨h', r⟩
          rw [hget] at hheap
          obtain rfl : h' = h := hheap
          cases r with
          | none => exact hrefused ⟨.array a :: rest, h', faults⟩
          | some v =>
            have hrest : Turns (fun h h' => h = h₀ → h' = h₀) (do
                let childRetVal ← withVariableAtPath api fn path
                sqPoptop
                return childRetVal : VmM H (Except ReturnCode α)) :=
              hq.seq ih fun _ => hq.seq hq.sqPoptop fun _ => hq.done _
            exact hrest ⟨v :: .array a :: rest, h', faults⟩
      | _ => exact hrefused _

/-! ## Main result -/

omit hd in
theorem Turns.measured {α : Type} {m : VmM H α} {v : SqVm H}
    (hm : Turns (fun h h' => h = v.heap → h' = v.heap) m) :
    Ends m v (fun _ t => Measured api vm True v.heap t.heap)
      fun e t => OutOfModel e ∨ Measured api vm True v.heap t.heap := by
  refine (hm v).mono (fun _ t heq => ?_) fun _ t heq => .inr ?_
  all_goals
    rw [heq rfl]
    exact (Untouched.refl v.heap).measured

/-- Showing the result changes nothing. -/
theorem measured_showResolved (lib : CppLib) (state : ExpressionNodeState) (t : SqVm H) :
    Ends (showResolved api (renderer api lib fuel) state) t
      (fun _ u => vm.ran t.heap ≤ vm.ran u.heap ∧ (NoNexti vm t.heap → u.heap = t.heap))
      fun _ u => vm.ran t.heap ≤ vm.ran u.heap ∧ (NoNexti vm t.heap → u.heap = t.heap) := by
  have hshow : ∀ {R : H → H → Prop}, ReadOrder api R →
      Turns R (showResolved api (renderer api lib fuel) state) := fun hq =>
    hq.seq (hq.sqPushobject _) fun _ =>
      hq.seq (hq.createChildVariable (hq.renderer lib fuel)) fun _ =>
        hq.seq hq.sqPoptop fun _ => hq.done _
  have hmono := hshow hd.heapOrder.toReadOrder t
  have hkept := fun hn : NoNexti vm t.heap => hshow (hn.still hd).readOrder t
  unfold Ends at hmono hkept ⊢
  split
  · rename_i a u hrun
    rw [hrun] at hmono
    refine ⟨hmono, fun hn => ?_⟩
    have hu := hkept hn
    rw [hrun] at hu
    exact hu rfl
  · rename_i e u hrun
    rw [hrun] at hmono
    refine ⟨hmono, fun hn => ?_⟩
    have hu := hkept hn
    rw [hrun] at hu
    exact hu rfl

theorem measured_evaluateExpression (lib : CppLib) (root : ExpressionNode) (v : SqVm H)
    (hn : NoNexti vm v.heap) :
    Ends (evaluateExpression api (renderer api lib fuel) fuel stackFrame root) v
      (fun _ t => Measured api vm (QuietRounds api vm fuel stackFrame (.start root v))
        v.heap t.heap)
      fun e t => OutOfModel e ∨
        Measured api vm (QuietRounds api vm fuel stackFrame (.start root v)) v.heap t.heap := by
  have hloop := measured_evaluateLoop hd fuel stackFrame fuel (.start root v)
  have hresolve : Ends (resolveExpression api fuel stackFrame root) v
      (fun _ t => Measured api vm (QuietRounds api vm fuel stackFrame (.start root v))
          v.heap t.heap ∧
        (QuietRounds api vm fuel stackFrame (.start root v) → NoNexti vm t.heap))
      fun e _ => OutOfModel e := by
    refine Ends.bind hloop fun rc t ht => ?_
    cases rc with
    | error rc => exact ends_pure (ht hn)
    | ok results => cases hroot : results [] <;> simp only [hroot] <;> exact ends_pure (ht hn)
  refine Ends.bind (hresolve.mono (fun _ _ ht => ht) fun _ _ he => .inl he) fun rc t ht => ?_
  obtain ⟨ht, hquiet⟩ := ht
  cases rc with
  | error rc => exact ends_pure ht
  | ok state =>
    have hshown : ∀ u : SqVm H,
        vm.ran t.heap ≤ vm.ran u.heap ∧ (NoNexti vm t.heap → u.heap = t.heap) →
          Measured api vm (QuietRounds api vm fuel stackFrame (.start root v)) v.heap u.heap := by
      intro u hu
      refine (ht.trans (Q := True) hu.1 fun hq => ?_).congr
        ⟨fun hq => hq.1, fun hq => ⟨hq, trivial⟩⟩
      rw [hu.2 (hquiet hq)]
      exact (Untouched.refl t.heap).measured
    refine Ends.bind ((measured_showResolved hd lib state t).mono (fun _ u hu => hshown u hu)
      fun _ u hu => .inr (hshown u hu)) fun a u hu => ends_pure hu

variable (fuel) in
theorem measured_dataCall (lib : CppLib) {call : L2.DataCall} (hlook : Looking call)
    (v : SqVm H) (hn : NoNexti vm v.heap) :
    Ends (dataCall api lib (renderer api lib fuel) fuel call) v
      (fun _ t => Measured api vm (QuietCall api vm fuel v call) v.heap t.heap)
      fun e t => OutOfModel e ∨ Measured api vm (QuietCall api vm fuel v call) v.heap t.heap := by
  have hstill := hn.still hd
  have hq := hstill.readOrder
  have hrenders := hq.renderer lib fuel
  cases call with
  | getStackVariables stackFrame path pagination =>
    exact Ends.map (Turns.measured (hq.populateStackVariables hrenders
      (turns_withVariableAtPath hd hstill) lib fuel stackFrame path pagination))
  | getGlobalVariables path pagination =>
    exact Ends.map (Turns.measured (hq.populateGlobalVariables hrenders
      (turns_withVariableAtPath hd hstill) lib fuel path pagination))
  | setStackVariableValue stackFrame path text => exact hlook.elim
  | getImmediateValue stackFrame watch pagination =>
    apply Ends.map
    unfold getImmediateValue
    cases hparse : parseWatch watch with
    | error e =>
      cases e with
      | watch what pos =>
        refine ends_pure ((Untouched.refl v.heap).measured.congr (iff_of_true trivial ?_))
        intro root hroot
        rw [hparse] at hroot
        cases hroot
      | undefined => exact ends_throw (.inl (.inr rfl))
      | fuel => exact ends_throw (.inl (.inl rfl))
    | ok root =>
      have hiff : QuietRounds api vm fuel stackFrame (.start root v) ↔
          QuietCall api vm fuel v (.getImmediateValue stackFrame watch pagination) := by
        refine ⟨fun hq root' hroot => ?_, fun hq => hq root hparse⟩
        cases hparse.symm.trans hroot
        exact hq
      exact (measured_evaluateExpression hd lib root v hn).mono (fun _ _ ht => ht.congr hiff)
        fun _ _ he => he.imp id fun ht => ht.congr hiff

end

/-! ## Metamethods that count -/

/-- A script function counts its call in a slot of table 1. -/
def counted (h : Heap × Nat) : Heap × Nat :=
  (h.1.store (.table 1) (.string [110]) (.integer (h.2 + 1)), h.2 + 1)

/-- The heap's VM with a count of script functions called, a `_get` metamethod of the root
table, which returns 0, and a `_nexti` metamethod of every instance, which ends the
iteration. Each counts its calls. -/
def metaApi : SqApi (Heap × Nat) where
  next h := heapApi.next h.1
  nexti h o iter :=
    if (heapApi.getclass h.1 o).isSome then (counted h, none) else (h, heapApi.next h.1 o iter)
  get h o key :=
    match h.1.find o key with
    | some v => (h, some v)
    | none => if o = .table h.1.root then (counted h, some (.integer 0)) else (h, none)
  set h o key val := (((heapApi.set h.1 o key val).1, h.2), (heapApi.set h.1 o key val).2)
  rawset h t key val := (h.1.store (.table t) key val, h.2)
  getsize h := heapApi.getsize h.1
  getclass h := heapApi.getclass h.1
  getdelegate h := heapApi.getdelegate h.1
  getclosurename h := heapApi.getclosurename h.1
  getclosureinfo h := heapApi.getclosureinfo h.1
  gethash h := heapApi.gethash h.1
  newtable h := (((heapApi.newtable h.1).1, h.2), (heapApi.newtable h.1).2)
  roottable h := h.1.root
  getlocal h := heapApi.getlocal h.1
  stackinfos h := heapApi.stackinfos h.1
  raw := heapRaw
  tointeger _ := 0

/-- The object is a table, an array or an instance of the heap. -/
def Heap.stands (h : Heap) : SqObject → Bool
  | .table a | .array a | .instance_ a => a < h.objects.length
  | _ => false

def metaSight : Sight (Heap × Nat) Slots where
  content h o := if Heap.stands h.1 o then some (h.1.slots o) else none
  found h := h.1.find
  metamethod h o := o = .table h.1.root
  nexti h o := (heapApi.getclass h.1 o).isSome
  ran h := h.2

theorem Heap.length_store (h : Heap) (o key val : SqObject) :
    (h.store o key val).objects.length = h.objects.length := by
  unfold Heap.store
  split
  · split
    · simp
    · rfl
  · split
    · simp
    · rfl
  · rfl

theorem Heap.stands_store (h : Heap) (o o' key val : SqObject) :
    Heap.stands (h.store o key val) o' = Heap.stands h o' := by
  cases o' <;> simp [Heap.stands, Heap.length_store]

theorem Heap.slots_push {h : Heap} {o : SqObject} (ho : Heap.stands h o = true)
    (x : HeapObject) :
    Heap.stands { h with objects := h.objects ++ [x] } o = true ∧
      ({ h with objects := h.objects ++ [x] } : Heap).slots o = h.slots o := by
  cases o with
  | table a | array a | instance_ a =>
    have hlt : a < h.objects.length := by simpa [Heap.stands] using ho
    refine ⟨?_, ?_⟩
    · simp [Heap.stands]
      omega
    · simp [Heap.slots, List.getElem?_append_left hlt]
  | _ => cases ho

/-- The class of an object of the heap is that of an instance. -/
theorem getclass_isSome_iff {h : Heap} {o : SqObject} :
    (heapApi.getclass h o).isSome ↔
      ∃ a c members, o = .instance_ a ∧ h.objects[a]? = some (.instance_ c members) := by
  constructor
  · intro ho
    cases o with
    | instance_ a =>
      unfold heapApi at ho
      dsimp only at ho
      split at ho
      · rename_i c members hx
        exact ⟨a, c, members, rfl, hx⟩
      · cases ho
    | _ => cases ho
  · rintro ⟨a, c, members, rfl, hx⟩
    simp [heapApi, hx]

/-- A new table is no instance. -/
theorem getclass_newtable {h : Heap} {o : SqObject}
    (ho : (heapApi.getclass (heapApi.newtable h).1 o).isSome) :
    (heapApi.getclass h o).isSome := by
  obtain ⟨a, c, members, rfl, hx⟩ := getclass_isSome_iff.mp ho
  refine getclass_isSome_iff.mpr ⟨a, c, members, rfl, ?_⟩
  have hnew : (heapApi.newtable h).1.objects = h.objects ++ [.table []] := rfl
  rw [hnew, List.getElem?_append] at hx
  split at hx
  · exact hx
  · cases List.mem_singleton.mp (List.mem_of_getElem? hx)

/-- Storing in a table makes no instance. -/
theorem getclass_store {h : Heap} {t : Nat} {key val o : SqObject}
    (ho : (heapApi.getclass (h.store (.table t) key val) o).isSome) :
    (heapApi.getclass h o).isSome := by
  obtain ⟨a, c, members, rfl, hx⟩ := getclass_isSome_iff.mp ho
  refine getclass_isSome_iff.mpr ⟨a, c, members, rfl, ?_⟩
  simp only [Heap.store] at hx
  split at hx
  · rename_i slots ht
    by_cases heq : t = a
    · subst heq
      rw [List.getElem?_set_self (List.getElem?_eq_some_iff.mp ht).1] at hx
      cases hx
    · rwa [List.getElem?_set_ne heq] at hx
  · exact hx

theorem documented_metaApi : Documented metaApi metaSight where
  found h o key v hfound := by
    have hfind : h.1.find o key = some v := hfound
    simp [metaApi, hfind]
  absent h o key hnone hmeta := by
    have hfind : h.1.find o key = none := hnone
    have hroot : ¬ o = .table h.1.root := hmeta
    simp [metaApi, hfind, hroot]
  calls h o key hnone hmeta := by
    have hfind : h.1.find o key = none := hnone
    have hroot : o = .table h.1.root := hmeta
    subst hroot
    simp [metaApi, metaSight, hfind, counted]
  iterated h o iter ho := by simp [metaApi, show ¬ (heapApi.getclass h.1 o).isSome from ho]
  resumes h o iter ho := by
    simp [metaApi, metaSight, show (heapApi.getclass h.1 o).isSome from ho, counted]
  set_ran h o key val := Nat.le_refl _
  newtable_nexti h o ho := getclass_newtable ho
  rawset_nexti h key val o ho := getclass_store ho
  array h a hmeta := by cases hmeta
  fresh h := by simp [metaSight, metaApi, heapApi, Heap.stands]
  newtable h o c hc := by
    simp only [metaSight] at hc ⊢
    split at hc
    · rename_i ho
      obtain ⟨ho', hslots⟩ := Heap.slots_push ho (.table [])
      show (if Heap.stands { h.1 with objects := h.1.objects ++ [.table []] } o = true then _
        else none) = _
      rw [if_pos ho', ← hc]
      exact congrArg some hslots
    · cases hc
  newtable_ran _ := rfl
  newtable_getlocal _ := rfl
  rawset h t key val o hne := by
    simp only [metaSight, metaApi, Heap.stands_store, Heap.slots_store_ne hne]
  rawset_ran _ _ _ _ := rfl
  rawset_getlocal h t key val := by
    funext level n
    simp [metaApi, heapApi, Heap.locals_store]

/-- A debugger that is paused in a VM whose root table has a slot `c`. -/
def counting : L2.State (SqVm (Heap × Nat)) where
  pauseMutexData := { isPaused := true }
  script := ⟨[], ({ objects := [.table [some (.string [99], .bool true)],
    .table [some (.string [110], .integer 0)]] }, 0), []⟩

def countingAccess : L2.VmAccess (SqVm (Heap × Nat)) :=
  squirrelAccess metaApi insertionLib 4 id fun _ => []

/-- A debugger that is paused in a frame with a local that is an instance. -/
def iterating : L2.State (SqVm (Heap × Nat)) where
  pauseMutexData := { isPaused := true }
  script := ⟨[], ({ objects := [.table [], .table [some (.string [110], .integer 0)],
    .instance_ (.class_ 3) [], .class_], locals := [[([105], .instance_ 2)]] }, 0), []⟩

/-- Listing the local runs the `_nexti` metamethod of its class, and table 1 is changed. -/
theorem listing_calls :
    ∃ s' res, L2.dataCommand countingAccess iterating (.getStackVariables 0 [] ⟨0, 1⟩) =
        some (s', res) ∧
      metaSight.content s'.script.heap (.table 1) = some [some (.string [110], .integer 1)] ∧
      ¬ Untouched metaApi metaSight iterating.script.heap s'.script.heap := by
  refine ⟨_, _, rfl, rfl, ?_⟩
  intro hu
  have hran := hu.ran
  cases hran

end Sdb.L4
