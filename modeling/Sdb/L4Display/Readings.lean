import Sdb.L4Display.HeapOrder
import Sdb.L4Display.Listing
import Sdb.L4Display.Slips

/-!
# What the renderings read

The renderings and listings of `SquirrelVmHelpers.cpp` without the VM stack. A
`Reading` is what a helper shows from a heap, with the heap it leaves, which a
`_nexti` metamethod may have changed. It has no answer where a closure has a name
that is not a string, where a class has no name, and where the helper does not
return.

`Reports` ties a helper to its reading: the helper returns the answer and leaves
the stack alone, whatever lies below, and slips where there is none.

* `reports_toString`, `reports_createChildVariable`, `reports_createChildVariables`,
  `reports_rootVariablesLoop`: the source's own helpers;
* `steady_toString`, `tells_createChildVariable`: the same where no iteration
  changes the heap.
-/
namespace Sdb.L4

open Sdb.L1 Sdb.L3 Sdb.Exec

/-- An answer and the heap after it, or no answer. -/
abbrev Reading (H α : Type) := StateT H Option α

/-- What the VM answers, with the heap it leaves. -/
def turn {H α : Type} (step : H → H × α) : Reading H α := fun h => some ((step h).2, (step h).1)

/-- What the VM answers from the heap. -/
def ask {H α : Type} (query : H → α) : Reading H α := turn fun h => (h, query h)

section
variable {H : Type} {α β γ : Type} {h h' : H} {top top' : List SqObject}
variable {P : α → List SqObject → Prop}

/-- `m` returns the answer of `r` and leaves the stack as `P` says, or slips where
`r` has none; whatever lies below `top`. -/
def Reports (m : VmM H α) (top : List SqObject) (r : Reading H α)
    (P : α → List SqObject → Prop) : Prop :=
  ∀ h, match r h with
    | some (a, h') => ∃ top', P a top' ∧ Gives m h top a h' top'
    | none => Slips m h top

theorem Reports.gives {m : VmM H α} {r : Reading H α} {a : α} (hm : Reports m top r P)
    (hr : r h = some (a, h')) : ∃ top', P a top' ∧ Gives m h top a h' top' := by
  have hh := hm h
  rw [hr] at hh
  exact hh

theorem Reports.slips {m : VmM H α} {r : Reading H α} (hm : Reports m top r P)
    (hr : r h = none) : Slips m h top := by
  have hh := hm h
  rw [hr] at hh
  exact hh

theorem Reports.of_cases {m : VmM H α} {r : Reading H α}
    (hsome : ∀ h a h', r h = some (a, h') → ∃ top', P a top' ∧ Gives m h top a h' top')
    (hnone : ∀ h, r h = none → Slips m h top) : Reports m top r P := by
  intro h
  cases hr : r h with
  | none => exact hnone h hr
  | some p => exact hsome h p.1 p.2 hr

theorem reports_pure {a : α} (hp : P a top) : Reports (pure a) top (pure a : Reading H α) P :=
  fun _ => ⟨top, hp, gives_pure a⟩

theorem reports_failure {m : VmM H α} (hm : ∀ h, Slips m h top) :
    Reports m top failure P := hm

theorem Reports.mono {m : VmM H α} {r : Reading H α} {Q : α → List SqObject → Prop}
    (hm : Reports m top r P) (hpq : ∀ a t, P a t → Q a t) : Reports m top r Q := by
  refine .of_cases (fun h a h' hr => ?_) fun h hr => hm.slips hr
  obtain ⟨top', hp, hg⟩ := hm.gives hr
  exact ⟨top', hpq a top' hp, hg⟩

theorem Reports.frame {m : VmM H α} {r : Reading H α}
    (hm : Reports m top r fun _ t => t = top') (more : List SqObject) :
    Reports m (top ++ more) r fun _ t => t = top' ++ more := by
  refine .of_cases (fun h a h' hr => ?_) fun h hr => (hm.slips hr).frame more
  obtain ⟨_, rfl, hg⟩ := hm.gives hr
  exact ⟨_, rfl, hg.frame more⟩

theorem Reports.bind {m : VmM H β} {f : β → VmM H α} {r : Reading H β} {q : β → Reading H α}
    {R : β → List SqObject → Prop} (hm : Reports m top r R) (hadds : ∀ b, Adds (f b))
    (hf : ∀ b top', R b top' → Reports (f b) top' (q b) P) :
    Reports (m >>= f) top (r >>= q) P := by
  intro h
  show match (r h).bind fun p => q p.1 p.2 with
    | some (a, h') => ∃ top', P a top' ∧ Gives (m >>= f) h top a h' top'
    | none => Slips (m >>= f) h top
  cases hr : r h with
  | none => exact (hm.slips hr).bind hadds
  | some p =>
    obtain ⟨b, h'⟩ := p
    obtain ⟨top', hb, hg⟩ := hm.gives hr
    have hrest := hf b top' hb h'
    simp only [Option.bind_some]
    split
    · rename_i a h'' hq
      rw [hq] at hrest
      obtain ⟨top'', hp, hg'⟩ := hrest
      exact ⟨top'', hp, hg.bind hg'⟩
    · rename_i hq
      rw [hq] at hrest
      exact hg.bind_slips hrest

/-- What follows changes the stack only. -/
theorem Reports.bind_returned {m : VmM H α} {f : α → VmM H α} {r : Reading H α}
    {R : α → List SqObject → Prop} (hm : Reports m top r R) (hadds : ∀ a, Adds (f a))
    (hf : ∀ a top', R a top' → Reports (f a) top' (pure a) P) : Reports (m >>= f) top r P := by
  rw [← bind_pure r]
  exact hm.bind hadds hf

/-- A step that asks the VM nothing. -/
theorem reports_after {m : VmM H β} {f : β → VmM H α} {b : β} {r : Reading H α}
    (hm : ∀ h, Gives m h top b h top') (hf : Reports (f b) top' r P) :
    Reports (m >>= f) top r P := by
  refine .of_cases (fun h a h' hr => ?_) fun h hr => (hm h).bind_slips (hf.slips hr)
  obtain ⟨top'', hp, hg⟩ := hf.gives hr
  exact ⟨top'', hp, (hm h).bind hg⟩

/-- A step in which the VM answers. -/
theorem reports_turn {m : VmM H β} {f : β → VmM H α} {step : H → H × γ} {q : γ → Reading H α}
    (answer : γ → β) (left : γ → List SqObject)
    (hm : ∀ h, Gives m h top (answer (step h).2) (step h).1 (left (step h).2))
    (hf : ∀ c, Reports (f (answer c)) (left c) (q c) P) :
    Reports (m >>= f) top (turn step >>= q) P := by
  intro h
  have hrest := hf (step h).2 (step h).1
  show match q (step h).2 (step h).1 with
    | some (a, h') => ∃ top', P a top' ∧ Gives (m >>= f) h top a h' top'
    | none => Slips (m >>= f) h top
  split
  · rename_i a h' hq
    rw [hq] at hrest
    obtain ⟨top', hp, hg⟩ := hrest
    exact ⟨top', hp, (hm h).bind hg⟩
  · rename_i hq
    rw [hq] at hrest
    exact (hm h).bind_slips hrest

/-- The VM answers from the heap. -/
theorem reports_ask {m : VmM H β} {f : β → VmM H α} {query : H → γ} {q : γ → Reading H α}
    (answer : γ → β) (left : γ → List SqObject)
    (hm : ∀ h, Gives m h top (answer (query h)) h (left (query h)))
    (hf : ∀ c, Reports (f (answer c)) (left c) (q c) P) :
    Reports (m >>= f) top (ask query >>= q) P :=
  reports_turn answer left hm hf

variable (api : SqApi H) (lib : CppLib)

/-- `sq_next` -/
def readNext (o iter : SqObject) : Reading H (Option (SqObject × SqObject × SqObject)) :=
  turn fun h => api.advance h o iter

theorem reports_sqNext {k : Nat} {iter o : SqObject} {f : Bool → VmM H α}
    {q : Option (SqObject × SqObject × SqObject) → Reading H α}
    (hk : (iter :: top)[k - 1]? = some o) (hnone : Reports (f false) (iter :: top) (q none) P)
    (hsome : ∀ key val iter',
      Reports (f true) (val :: key :: iter' :: top) (q (some (key, val, iter'))) P) :
    Reports (sqNext api k >>= f) (iter :: top) (readNext api o iter >>= q) P := by
  refine reports_turn (fun next => next.isSome) (fun next => match next with
    | none => iter :: top
    | some (key, val, iter') => val :: key :: iter' :: top) (fun h => ?_) fun next => ?_
  · rcases hn : api.advance h o iter with ⟨h₁, _ | ⟨key, val, iter'⟩⟩
    · exact gives_sqNext_none api hk hn
    · exact gives_sqNext api hk hn
  · rcases next with _ | ⟨key, val, iter'⟩
    · exact hnone
    · exact hsome key val iter'

/-- `sq_get` -/
def readGet (o key : SqObject) : Reading H (Option SqObject) := turn fun h => api.get h o key

theorem reports_sqGet {k : Nat} {key o : SqObject} {f : Bool → VmM H α}
    {q : Option SqObject → Reading H α} (hk : (key :: top)[k - 1]? = some o)
    (hnone : Reports (f false) top (q none) P)
    (hsome : ∀ val, Reports (f true) (val :: top) (q (some val)) P) :
    Reports (sqGet api k >>= f) (key :: top) (readGet api o key >>= q) P := by
  refine reports_turn (fun found => found.isSome) (fun found => found.toList ++ top) (fun h => ?_)
    fun found => ?_
  · rcases hg : api.get h o key with ⟨h₁, _ | val⟩
    · exact gives_sqGet_none api hk hg
    · exact gives_sqGet api hk hg
  · cases found with
    | none => exact hnone
    | some val => exact hsome val

/-! ## The readings of the renderings -/

/-- `ToClassFullName`, which reads only: no answer where the class has no name. -/
def readClassName (fuel : Nat) (c : SqObject) : Reading H Bytes := fun h =>
  match (toClassFullName api fuel).run ⟨[c], h, []⟩ with
  | .ok name _ => some (name, h)
  | .error _ _ => none

/-- No answer where the name is not a string. -/
def readClosureName (o : SqObject) : Reading H Bytes := do
  match ← ask (api.getclosurename · o) with
  | none => return ascii "Invalid Closure"
  | some (.string s) => return cstr s
  | some _ => failure

def readClosureText (o : SqObject) : Reading H Bytes := do
  let name ← readClosureName api o
  match ← ask (api.getclosureinfo · o) with
  | some (numParams, numFreeVars) =>
    return name ++ ascii "(" ++ intText numParams ++ ascii " params, " ++ intText numFreeVars ++
      ascii " freeVars" ++ ascii ")"
  | none => return name

section
variable (text : SqObject → Reading H Bytes)

def readKeys (o : SqObject) : Nat → SqObject → Reading H (List (Bytes × Int))
  | 0, _ => failure
  | n + 1, iter =>
    match readInteger api iter with
    | none => return []
    | some sqIter => do
      match ← readNext api o iter with
      | none => return []
      | some (key, _, iter') =>
        let key ← text key
        let rest ← readKeys o n iter'
        return (key, sqIter) :: rest

def readSortedKeys (o : SqObject) (fuel : Nat) : Reading H (List (Bytes × Int)) := do
  return lib.sort (← readKeys api text o fuel (.integer 0))

def readField (isFirst : Bool) (ss : Bytes) (key val : SqObject) : Reading H Bytes := do
  let valueStr ← text val
  if valueStr ≠ [] then
    let key ← text key
    return (if isFirst then ss else ss ++ ascii ", ") ++ key ++ ascii ": " ++ valueStr
  else return ss

def readSortedFields (o : SqObject) (initialSummarySize : Nat) :
    List (Bytes × Int) → Bytes → Reading H Bytes
  | [], ss => return ss
  | (_, sqIter) :: rest, ss =>
    if ss.length - initialSummarySize < kMaxTableValueStringLength then do
      match ← readNext api o (.integer sqIter) with
      | none => return ss
      | some (key, val, _) =>
        let ss ← readField text (ss.length == initialSummarySize) ss key val
        readSortedFields o initialSummarySize rest ss
    else return ss

def readStreamedFields (o : SqObject) : Nat → Bool → Bytes → SqObject → Reading H Bytes
  | 0, _, _, _ => failure
  | n + 1, isFirst, ss, iter =>
    if ss.length < kMaxTableValueStringLength then do
      match ← readNext api o iter with
      | none => return ss
      | some (key, val, iter') =>
        let ss ← readField text isFirst ss key val
        readStreamedFields o n false ss iter'
    else return ss

def readSummary (o : SqObject) (fuel : Nat) : Reading H Bytes := do
  let ss := ascii "\x7b"
  if (← ask (api.getsize · o)) < kMaxTableSizeToSort then
    let keys ← readSortedKeys api lib text o fuel
    let ss ← readSortedFields api text o ss.length keys ss
    return ss ++ ascii "\x7d"
  else
    let ss ← readStreamedFields api text o fuel true ss (.integer 0)
    return ss ++ ascii "\x7d"

end

/-- `ToString` -/
def readText : Nat → SqObject → Reading H Bytes
  | 0, _ => failure
  | n + 1, o =>
    match o with
    | .bool val => return if val then ascii "true" else ascii "false"
    | .integer val => return intText val
    | .float val => return lib.floatText val
    | .string val => return cstr val
    | .closure a => readClosureText api (.closure a)
    | .class_ a => readClassName api n (.class_ a)
    | .array a => do
      return ascii "\x7b size=" ++ intText (← ask (api.getsize · (.array a))) ++ ascii " \x7d"
    | .instance_ a => readSummary api lib (readText n) (.instance_ a) n
    | .table a => readSummary api lib (readText n) (.table a) n
    | other => return toSqObjectTypeName other.type

/-! ## The renderings -/

theorem adds_sqPoptop : Adds (sqPoptop : VmM H Unit) := moves_sqPoptop.adds

theorem reports_toClassFullName (fuel : Nat) (c : SqObject) :
    Reports (toClassFullName api fuel) [c] (readClassName api fuel c) fun _ t => t = [c] := by
  refine .of_cases (fun h name h' hr => ?_) fun h hr => ?_
  · unfold readClassName at hr
    split at hr
    · rename_i name' t hrun
      simp only [Option.some.injEq, Prod.mk.injEq] at hr
      obtain ⟨rfl, rfl⟩ := hr
      exact ⟨_, rfl, gives_toClassFullName api hrun⟩
    · cases hr
  · rcases settles_toClassFullName (h := h) api fuel c with ⟨name, _, rfl, hg⟩ | hthrow
    · have hrun : (toClassFullName api fuel).run ⟨[c], h, []⟩ = .ok name ⟨[c], h, []⟩ := hg [] []
      unfold readClassName at hr
      rw [hrun] at hr
      cases hr
    · exact hthrow.slips (net_toClassFullName api fuel)

/-- The name `sq_getclosurename` pushed is popped, unless it is `null`. -/
theorem reports_closureName (o : SqObject) :
    Reports (closureName api) [o] (readClosureName api o) fun _ t => t = [o] := by
  unfold closureName readClosureName
  refine reports_ask (fun name => name.isSome) (fun name => name.toList ++ [o])
    (fun h => gives_sqPushAnswer rfl) fun name => ?_
  cases name with
  | none => exact reports_pure rfl
  | some name =>
    have hname : [name, o][1 - 1]? = some name := rfl
    refine reports_after (fun h => gives_sqGetstring hname) ?_
    cases name with
    | string s => exact reports_after (fun h => gives_sqPoptop) (reports_pure rfl)
    | _ => exact reports_failure fun h rest faults => Nat.lt_succ_self _

theorem reports_closureText (o : SqObject) :
    Reports (closureText api) [o] (readClosureText api o) fun _ t => t = [o] := by
  unfold closureText readClosureText
  refine (reports_closureName api o).bind (fun name => ?_) ?_
  · refine (moves_sqGetclosureinfo api 1).adds.bind fun info => ?_
    cases info <;> exact adds_pure _
  · rintro name _ rfl
    refine reports_ask (fun info => info) (fun _ => [o])
      (fun h => (gives_sqGetstackobj rfl).bind (gives_get_bind fun _ _ => rfl)) fun info => ?_
    cases info <;> exact reports_pure rfl

section
variable {toString : VmM H Bytes} (hnet : Net Names (fun _ => 0) 0 toString)
variable {text : SqObject → Reading H Bytes}
variable (htext : ∀ o, Reports toString [o] (text o) fun _ t => t = [o])

include hnet htext

/-- The iterator moves on. -/
theorem reports_collectKeys (o : SqObject) (n : Nat) (iter : SqObject) :
    Reports (collectKeys api toString n) [iter, o] (readKeys api text o n iter) fun _ t =>
      ∃ iter', t = [iter', o] := by
  induction n generalizing iter with
  | zero => exact reports_failure fun h => slips_throw noExit_fuel
  | succ n ih =>
    unfold collectKeys readKeys
    refine reports_after (fun h => gives_readInteger api rfl) ?_
    cases readInteger api iter with
    | none => exact reports_pure ⟨_, rfl⟩
    | some sqIter =>
      refine reports_sqNext api rfl (reports_pure ⟨_, rfl⟩) fun key val iter' => ?_
      rw [if_pos rfl]
      refine reports_after (fun h => gives_sqPoptop) ?_
      have hrec := net_collectKeys api hnet n
      refine ((htext key).frame [iter', o]).bind (fun _ => ?_) ?_
      · exact adds_sqPoptop.bind fun _ => hrec.adds.bind fun _ => adds_pure _
      · rintro text _ rfl
        refine reports_after (fun h => gives_sqPoptop) ((ih iter').bind (fun _ => adds_pure _) ?_)
        rintro rest _ ⟨iter'', rfl⟩
        exact reports_pure ⟨_, rfl⟩

theorem reports_sortedKeys (o : SqObject) (n : Nat) :
    Reports (sortedKeys api lib toString n) [o] (readSortedKeys api lib text o n) fun _ t =>
      t = [o] := by
  unfold sortedKeys readSortedKeys
  refine reports_after (fun h => gives_sqPushobject _) ?_
  refine (reports_collectKeys api hnet htext o n _).bind
    (fun _ => adds_sqPoptop.bind fun _ => adds_pure _) ?_
  rintro keys _ ⟨iter, rfl⟩
  exact reports_after (fun h => gives_sqPoptop) (reports_pure rfl)

theorem reports_writeTableSummaryField (isFirst : Bool) (ss : Bytes) (key val : SqObject) :
    Reports (writeTableSummaryField toString isFirst ss) [val, key]
      (readField text isFirst ss key val) fun _ t => t = [] := by
  unfold writeTableSummaryField readField
  refine ((htext val).frame [key]).bind (fun value => ?_) ?_
  · split
    · exact adds_sqPoptop.bind fun _ => hnet.adds.bind fun _ => adds_sqPoptop.bind fun _ =>
        adds_pure _
    · exact (moves_sqPop 2).adds.bind fun _ => adds_pure _
  · rintro value _ rfl
    split
    · refine reports_after (fun h => gives_sqPoptop) ((htext key).bind (fun _ => ?_) ?_)
      · exact adds_sqPoptop.bind fun _ => adds_pure _
      · rintro text _ rfl
        exact reports_after (fun h => gives_sqPoptop) (reports_pure rfl)
    · exact reports_after (fun h => gives_sqPop [val, key]) (reports_pure rfl)

theorem reports_sortedFields (o : SqObject) (initial : Nat) (keys : List (Bytes × Int))
    (ss : Bytes) : Reports (sortedFields api toString initial keys ss) [o]
      (readSortedFields api text o initial keys ss) fun _ t => t = [o] := by
  induction keys generalizing ss with
  | nil => exact reports_pure rfl
  | cons key keys ih =>
    obtain ⟨_, sqIter⟩ := key
    unfold sortedFields readSortedFields
    split
    · refine reports_after (fun h => gives_sqPushobject _) ?_
      refine reports_sqNext api rfl ?_ fun key val iter' => ?_
      · exact reports_after (fun h => gives_sqPoptop) (reports_pure rfl)
      · rw [if_pos rfl]
        have hfield := reports_writeTableSummaryField hnet htext (ss.length == initial) ss key val
        refine (hfield.frame [iter', o]).bind (fun _ => ?_) ?_
        · exact adds_sqPoptop.bind fun _ => (net_sortedFields api hnet initial keys _).adds
        · rintro ss' _ rfl
          exact reports_after (fun h => gives_sqPoptop) (ih ss')
    · exact reports_pure rfl

/-- The iterator moves on. -/
theorem reports_streamedFields (o : SqObject) (n : Nat) (isFirst : Bool) (ss : Bytes)
    (iter : SqObject) :
    Reports (streamedFields api toString n isFirst ss) [iter, o]
      (readStreamedFields api text o n isFirst ss iter) fun _ t => ∃ iter', t = [iter', o] := by
  induction n generalizing isFirst ss iter with
  | zero => exact reports_failure fun h => slips_throw noExit_fuel
  | succ n ih =>
    unfold streamedFields readStreamedFields
    split
    · refine reports_sqNext api rfl (reports_pure ⟨_, rfl⟩) fun key val iter' => ?_
      rw [if_pos rfl]
      have hfield := reports_writeTableSummaryField hnet htext isFirst ss key val
      refine (hfield.frame [iter', o]).bind (fun _ => ?_) ?_
      · exact (net_streamedFields api hnet n false _).adds
      · rintro ss' _ rfl
        exact ih false ss' iter'
    · exact reports_pure ⟨_, rfl⟩

theorem reports_createTableSummary (o : SqObject) (n : Nat) :
    Reports (createTableSummary api lib toString n) [o] (readSummary api lib text o n) fun _ t =>
      t = [o] := by
  unfold createTableSummary readSummary
  refine reports_ask (fun size => size) (fun _ => [o]) (fun h => gives_sqGetsize api rfl)
    fun size => ?_
  split
  · refine (reports_sortedKeys api lib hnet htext o n).bind (fun keys => ?_) ?_
    · exact (net_sortedFields api hnet _ keys _).adds.bind fun _ => adds_pure _
    · rintro keys _ rfl
      refine (reports_sortedFields api hnet htext o _ keys _).bind (fun _ => adds_pure _) ?_
      rintro ss _ rfl
      exact reports_pure rfl
  · refine reports_after (fun h => gives_sqPushobject _) ?_
    refine (reports_streamedFields api hnet htext o n true _ _).bind
      (fun _ => adds_sqPoptop.bind fun _ => adds_pure _) ?_
    rintro ss _ ⟨iter, rfl⟩
    exact reports_after (fun h => gives_sqPoptop) (reports_pure rfl)

end

theorem reports_toString (n : Nat) (o : SqObject) :
    Reports (L3.toString api lib n) [o] (readText api lib n o) fun _ t => t = [o] := by
  induction n generalizing o with
  | zero => exact reports_failure fun h => slips_throw noExit_fuel
  | succ n ih =>
    have hsummary := reports_createTableSummary api lib (net_toString api lib n) ih o n
    unfold L3.toString readText
    refine reports_after (fun h => gives_sqGetstackobj rfl) ?_
    cases o with
    | closure a => exact reports_closureText api _
    | class_ a => exact reports_toClassFullName api n _
    | array a =>
      exact reports_ask (fun size => size) (fun _ => [_]) (fun h => gives_sqGetsize api rfl)
        fun size => reports_pure rfl
    | instance_ a => exact hsummary
    | table a => exact hsummary
    | _ => exact reports_pure rfl

/-! ## The readings of the listings -/

variable (fuel : Nat)

def readInstanceClassName (v : SqObject) : Reading H Bytes := do
  if v.type = .instance_ then
    match ← ask (api.getclass · v) with
    | none => return []
    | some c => readClassName api fuel c
  else return []

/-- `CreateChildVariable` -/
def readVariable (v : SqObject) : Reading H Variable := do
  let value ← readText api lib fuel v
  let instanceClassName ← readInstanceClassName api fuel v
  let childCount ← ask (countOf api · v)
  return {
    valueRawAddress := if v.type.isRefCounted then api.raw v else 0
    valueType := toVariableType v.type
    value := value
    instanceClassName := instanceClassName
    childCount := childCount
    editable := editable v.type }

def readTableChild (key val : SqObject) (sqIter : Int) : Reading H Variable := do
  let variable_ ← readVariable api lib fuel val
  let pathUiString ← readText api lib fuel key
  return { variable_ with
    pathIterator := UInt64.ofInt sqIter
    pathUiString := pathUiString
    pathTableKeyType := toVariableType key.type }

def readArrayChildren (o : SqObject) : Nat → SqObject → Reading H (List Variable)
  | 0, _ => return []
  | n + 1, iter =>
    match readInteger api iter with
    | none => return []
    | some sqIter => do
      match ← readNext api o iter with
      | none => return []
      | some (key, val, iter') =>
        let childVar ← readVariable api lib fuel val
        let pathUiString ← readText api lib fuel key
        let rest ← readArrayChildren o n iter'
        return { childVar with
          pathIterator := UInt64.ofInt sqIter, pathUiString := pathUiString } :: rest

def readSortedChildren (o : SqObject) : List (Bytes × Int) → Reading H (List Variable)
  | [] => return []
  | (_, sqIter) :: keys => do
    match ← readNext api o (.integer sqIter) with
    | none => return []
    | some (key, val, _) =>
      let variable_ ← readTableChild api lib fuel key val sqIter
      let rest ← readSortedChildren o keys
      return variable_ :: rest

def readStreamedChildren (o : SqObject) : Nat → SqObject → Reading H (List Variable)
  | 0, _ => return []
  | n + 1, iter =>
    match readInteger api iter with
    | none => return []
    | some sqIter => do
      match ← readNext api o iter with
      | none => return []
      | some (key, val, iter') =>
        let variable_ ← readTableChild api lib fuel key val sqIter
        let rest ← readStreamedChildren o n iter'
        return variable_ :: rest

def readTableChildren (o : SqObject) (pagination : PaginationInfo) :
    Reading H (List Variable) := do
  if (← ask (api.getsize · o)) < kMaxTableSizeToSort then
    let tableKeyToIterator ← readSortedKeys api lib (readText api lib fuel) o fuel
    if tableKeyToIterator.length < pagination.beginIterator.toNat then failure
    else
      readSortedChildren api lib fuel o
        ((tableKeyToIterator.drop pagination.beginIterator.toNat).take pagination.count.toNat)
  else
    readStreamedChildren api lib fuel o pagination.count.toNat
      (.integer pagination.beginIterator.toNat)

/-- `CreateChildVariables` -/
def readChildren (o : SqObject) (pagination : PaginationInfo) : Reading H (List Variable) :=
  match o.type with
  | .array =>
    readArrayChildren api lib fuel o pagination.count.toNat
      (.integer pagination.beginIterator.toNat)
  | .instance_ => readTableChildren api lib fuel o pagination
  | .table => readTableChildren api lib fuel o pagination
  | _ => return []

/-- The locals of a frame, each read when its turn comes. -/
def readLocals (stackFrame : Nat) : Nat → Nat → Reading H (List Variable)
  | 0, _ => return []
  | n + 1, nSeq => do
    match ← ask (api.getlocal · stackFrame nSeq) with
    | none => return []
    | some (localName, value) =>
      let variable_ ← readVariable api lib fuel value
      let rest ← readLocals stackFrame n (nSeq + 1)
      return { variable_ with
        pathIterator := UInt64.ofNat nSeq
        pathUiString := cstr localName
        editable := false } :: rest

/-! ## The listings -/

theorem reports_instanceClassName (v : SqObject) :
    Reports (instanceClassName api (renderer api lib fuel) v.type) [v]
      (readInstanceClassName api fuel v) fun _ t => t = [v] := by
  unfold instanceClassName readInstanceClassName
  split
  · refine reports_ask (fun c => c.isSome) (fun c => c.toList ++ [v])
      (fun h => gives_sqPushAnswer rfl) fun c => ?_
    cases c with
    | none => exact reports_pure rfl
    | some c =>
      refine ((reports_toClassFullName api fuel c).frame [v]).bind_returned
        (fun _ => adds_sqPoptop.bind fun _ => adds_pure _) ?_
      rintro name _ rfl
      exact reports_after (fun h => gives_sqPoptop) (reports_pure rfl)
  · exact reports_pure rfl

theorem reports_createChildVariable (v : SqObject) :
    Reports (createChildVariable api (renderer api lib fuel)) [v] (readVariable api lib fuel v)
      fun _ t => t = [v] := by
  have hrenders := renders_renderer api lib fuel
  have hcount : Adds (childCount api v.type) := (moves_childCount api v.type).adds
  unfold createChildVariable readVariable
  refine reports_after (fun h => gives_sqGetstackobj rfl) ?_
  refine (reports_toString api lib fuel v).bind (fun _ => ?_) ?_
  · exact (net_instanceClassName api hrenders v.type).adds.bind fun _ =>
      hcount.bind fun _ => adds_pure _
  · rintro value _ rfl
    refine (reports_instanceClassName api lib fuel v).bind
      (fun _ => hcount.bind fun _ => adds_pure _) ?_
    rintro name _ rfl
    exact reports_ask (fun count => count) (fun _ => [v]) (fun h => gives_childCount api h v)
      fun count => reports_pure rfl

theorem reports_createTableChildVariable (key val : SqObject) (sqIter : Int) :
    Reports (createTableChildVariable api (renderer api lib fuel) sqIter) [val, key]
      (readTableChild api lib fuel key val sqIter) fun _ t => t = [] := by
  have hadds : Adds (sqGettype 1 : VmM H SqObjectType) := (moves_sqGettype 1).adds
  unfold createTableChildVariable readTableChild
  refine ((reports_createChildVariable api lib fuel val).frame [key]).bind (fun _ => ?_) ?_
  · exact adds_sqPoptop.bind fun _ => (net_toString api lib fuel).adds.bind fun _ =>
      hadds.bind fun _ => adds_sqPoptop.bind fun _ => adds_pure _
  · rintro value _ rfl
    refine reports_after (fun h => gives_sqPoptop) ?_
    refine (reports_toString api lib fuel key).bind (fun _ => ?_) ?_
    · exact hadds.bind fun _ => adds_sqPoptop.bind fun _ => adds_pure _
    · rintro text _ rfl
      refine reports_after (fun h => gives_sqGettype rfl) ?_
      exact reports_after (fun h => gives_sqPoptop) (reports_pure rfl)

/-- The iterator moves on. -/
theorem reports_arrayChildren (o : SqObject) (n : Nat) (iter : SqObject) :
    Reports (arrayChildren api (renderer api lib fuel) n) [iter, o]
      (readArrayChildren api lib fuel o n iter) fun _ t => ∃ iter', t = [iter', o] := by
  induction n generalizing iter with
  | zero => exact reports_pure ⟨_, rfl⟩
  | succ n ih =>
    have hrec : Adds (arrayChildren api (renderer api lib fuel) n) :=
      (net_arrayChildren api (renders_renderer api lib fuel) n).adds
    unfold arrayChildren readArrayChildren
    refine reports_after (fun h => gives_readInteger api rfl) ?_
    cases readInteger api iter with
    | none => exact reports_pure ⟨_, rfl⟩
    | some sqIter =>
      refine reports_sqNext api rfl (reports_pure ⟨_, rfl⟩) fun key val iter' => ?_
      rw [if_pos rfl]
      refine ((reports_createChildVariable api lib fuel val).frame
        [key, iter', o]).bind (fun _ => ?_) ?_
      · exact adds_sqPoptop.bind fun _ => (net_toString api lib fuel).adds.bind fun _ =>
          adds_sqPoptop.bind fun _ => hrec.bind fun _ => adds_pure _
      · rintro value _ rfl
        refine reports_after (fun h => gives_sqPoptop) ?_
        refine ((reports_toString api lib fuel key).frame [iter', o]).bind (fun _ => ?_) ?_
        · exact adds_sqPoptop.bind fun _ => hrec.bind fun _ => adds_pure _
        · rintro text _ rfl
          refine reports_after (fun h => gives_sqPoptop)
            ((ih iter').bind (fun _ => adds_pure _) ?_)
          rintro rest _ ⟨iter'', rfl⟩
          exact reports_pure ⟨_, rfl⟩

theorem reports_sortedChildren (o : SqObject) (keys : List (Bytes × Int)) :
    Reports (sortedChildren api (renderer api lib fuel) keys) [o]
      (readSortedChildren api lib fuel o keys) fun _ t => t = [o] := by
  induction keys with
  | nil => exact reports_pure rfl
  | cons key keys ih =>
    obtain ⟨_, sqIter⟩ := key
    unfold sortedChildren readSortedChildren
    refine reports_after (fun h => gives_sqPushobject _) ?_
    refine reports_sqNext api rfl ?_ fun key val iter' => ?_
    · exact reports_after (fun h => gives_sqPoptop) (reports_pure rfl)
    · rw [if_pos rfl]
      refine ((reports_createTableChildVariable api lib fuel key val sqIter).frame
        [iter', o]).bind (fun _ => ?_) ?_
      · exact adds_sqPoptop.bind fun _ =>
          (net_sortedChildren api (renders_renderer api lib fuel) keys).adds.bind fun _ =>
            adds_pure _
      · rintro variable_ _ rfl
        refine reports_after (fun h => gives_sqPoptop) (ih.bind (fun _ => adds_pure _) ?_)
        rintro rest _ rfl
        exact reports_pure rfl

/-- The iterator moves on. -/
theorem reports_streamedChildren (o : SqObject) (n : Nat) (iter : SqObject) :
    Reports (streamedChildren api (renderer api lib fuel) n) [iter, o]
      (readStreamedChildren api lib fuel o n iter) fun _ t => ∃ iter', t = [iter', o] := by
  induction n generalizing iter with
  | zero => exact reports_pure ⟨_, rfl⟩
  | succ n ih =>
    unfold streamedChildren readStreamedChildren
    refine reports_after (fun h => gives_readInteger api rfl) ?_
    cases readInteger api iter with
    | none => exact reports_pure ⟨_, rfl⟩
    | some sqIter =>
      refine reports_sqNext api rfl (reports_pure ⟨_, rfl⟩) fun key val iter' => ?_
      rw [if_pos rfl]
      refine ((reports_createTableChildVariable api lib fuel key val sqIter).frame
        [iter', o]).bind (fun _ => ?_) ?_
      · exact (net_streamedChildren api (renders_renderer api lib fuel) n).adds.bind fun _ =>
          adds_pure _
      · rintro variable_ _ rfl
        refine (ih iter').bind (fun _ => adds_pure _) ?_
        rintro rest _ ⟨iter'', rfl⟩
        exact reports_pure ⟨_, rfl⟩

theorem reports_tableChildren (o : SqObject) (pagination : PaginationInfo) :
    Reports (tableChildren api lib (renderer api lib fuel) fuel pagination) [o]
      (readTableChildren api lib fuel o pagination) fun _ t => t = [o] := by
  have hrenders := renders_renderer api lib fuel
  unfold tableChildren readTableChildren
  refine reports_ask (fun size => size) (fun _ => [o]) (fun h => gives_sqGetsize api rfl)
    fun size => ?_
  split
  · refine (reports_sortedKeys api lib (net_toString api lib fuel)
      (reports_toString api lib fuel) o fuel).bind (fun keys => ?_) ?_
    · split
      · exact adds_throw _
      · exact (net_sortedChildren api hrenders _).adds
    · rintro keys _ rfl
      split
      · exact reports_failure fun h => slips_throw noExit_undefined
      · exact reports_sortedChildren api lib fuel o _
  · refine reports_after (fun h => gives_sqPushobject _) ?_
    refine (reports_streamedChildren api lib fuel o _ _).bind_returned
      (fun _ => adds_sqPoptop.bind fun _ => adds_pure _) ?_
    rintro vars _ ⟨iter, rfl⟩
    exact reports_after (fun h => gives_sqPoptop) (reports_pure rfl)

theorem reports_createChildVariables (o : SqObject) (pagination : PaginationInfo) :
    Reports (createChildVariables api lib (renderer api lib fuel) fuel pagination) [o]
      (readChildren api lib fuel o pagination) fun _ t => t = [o] := by
  unfold createChildVariables readChildren
  refine reports_after (fun h => gives_sqGettype rfl) ?_
  cases o with
  | array a =>
    refine reports_after (fun h => gives_sqPushobject _) ?_
    refine (reports_arrayChildren api lib fuel (.array a) _ _).bind_returned
      (fun _ => adds_sqPoptop.bind fun _ => adds_pure _) ?_
    rintro vars _ ⟨iter, rfl⟩
    exact reports_after (fun h => gives_sqPoptop) (reports_pure rfl)
  | instance_ a => exact reports_tableChildren api lib fuel _ pagination
  | table a => exact reports_tableChildren api lib fuel _ pagination
  | _ => exact reports_pure rfl

/-- The locals are popped. -/
theorem reports_rootVariablesLoop (stackFrame n nSeq : Nat) :
    Reports (rootVariablesLoop api (renderer api lib fuel) stackFrame n nSeq) []
      (readLocals api lib fuel stackFrame n nSeq) fun _ t => t = [] := by
  have hrenders := renders_renderer api lib fuel
  induction n generalizing nSeq with
  | zero => exact reports_pure rfl
  | succ n ih =>
    unfold rootVariablesLoop readLocals
    refine reports_ask (fun found => found.map (·.1)) (fun found => (found.map (·.2)).toList ++ [])
      (fun h => gives_sqGetlocal api stackFrame nSeq) fun found => ?_
    rcases found with _ | ⟨localName, value⟩
    · exact reports_pure rfl
    · refine (reports_createChildVariable api lib fuel value).bind (fun _ => ?_) ?_
      · exact adds_sqPoptop.bind fun _ =>
          (net_rootVariablesLoop api hrenders stackFrame n (nSeq + 1)).adds.bind fun _ =>
            adds_pure _
      · rintro variable_ _ rfl
        refine reports_after (fun h => gives_sqPoptop) ((ih (nSeq + 1)).bind
          (fun _ => adds_pure _) ?_)
        rintro rest _ rfl
        exact reports_pure rfl

/-! ## A heap that iteration leaves alone -/

/-- No iteration changes the heap `h`. -/
abbrev Still (api : SqApi H) (h : H) : Prop := ∀ o iter, (api.advance h o iter).1 = h

theorem Still.readOrder {api : SqApi H} (hs : Still api h) :
    ReadOrder api fun h₁ h₂ => h₁ = h → h₂ = h where
  refl _ h₁ := h₁
  trans _ _ _ h₁ h₂ h₃ := h₂ (h₁ h₃)
  advance h₁ o iter := by
    rintro rfl
    exact hs o iter

theorem Reports.tells {m : VmM H α} {r : Reading H α} (hm : Reports m top r P)
    (hturns : Turns (fun h₁ h₂ => h₁ = h → h₂ = h) m) : Tells m h top P := by
  cases hr : r h with
  | none => exact .inr (hm.slips hr)
  | some p =>
    obtain ⟨a, h'⟩ := p
    obtain ⟨top', hp, hg⟩ := hm.gives hr
    have hheap : h' = h := (hturns ⟨top ++ [], h, []⟩).ok (hg [] []) rfl
    rw [hheap] at hg
    exact .inl ⟨a, top', hp, hg⟩

/-- A reading has an answer exactly where the helper returns in order. -/
theorem Reports.isSome_iff {m : VmM H α} {r : Reading H α}
    (hm : Reports m top r fun _ t => t = top)
    (hturns : Turns (fun h₁ h₂ => h₁ = h → h₂ = h) m) :
    (r h).isSome ↔ ∃ a, Gives m h top a h top := by
  constructor
  · intro hsome
    rcases hm.tells hturns with ⟨a, _, rfl, hg⟩ | hslips
    · exact ⟨a, hg⟩
    · obtain ⟨⟨a, h'⟩, hr⟩ := Option.isSome_iff_exists.mp hsome
      obtain ⟨_, -, hg⟩ := hm.gives hr
      exact absurd hg hslips.not_gives
  · intro hgives
    obtain ⟨a, hg⟩ := hgives
    cases hr : r h with
    | none => exact absurd hg (hm.slips hr).not_gives
    | some p => rfl

/-- `ToString` has a text for `o`: every closure in it has a name, and every class. -/
def Legible (h : H) (o : SqObject) : Prop := (readText api lib fuel o h).isSome

/-- `CreateChildVariable` has a variable for `v`. -/
def Showable (h : H) (v : SqObject) : Prop := (readVariable api lib fuel v h).isSome

instance (h : H) (o : SqObject) : Decidable (Legible api lib fuel h o) :=
  inferInstanceAs (Decidable (_ = true))

instance (h : H) (v : SqObject) : Decidable (Showable api lib fuel h v) :=
  inferInstanceAs (Decidable (_ = true))

variable {api} (hs : Still api h)

include hs

theorem steady_toString (o : SqObject) : Steady (L3.toString api lib fuel) h [o] :=
  (reports_toString api lib fuel o).tells (hs.readOrder.toString lib fuel)

theorem legible_iff (o : SqObject) : Legible api lib fuel h o ↔
    ∃ text, Gives (L3.toString api lib fuel) h [o] text h [o] :=
  (reports_toString api lib fuel o).isSome_iff (hs.readOrder.toString lib fuel)

theorem steady_createChildVariable (v : SqObject) :
    Steady (createChildVariable api (renderer api lib fuel)) h [v] :=
  (reports_createChildVariable api lib fuel v).tells
    (hs.readOrder.createChildVariable (hs.readOrder.renderer lib fuel))

theorem showable_iff (v : SqObject) : Showable api lib fuel h v ↔
    ∃ value, Gives (createChildVariable api (renderer api lib fuel)) h [v] value h [v] :=
  (reports_createChildVariable api lib fuel v).isSome_iff
    (hs.readOrder.createChildVariable (hs.readOrder.renderer lib fuel))

theorem tells_createChildVariable (v : SqObject) :
    Tells (createChildVariable api (renderer api lib fuel)) h [v] fun value t => t = [v] ∧
      value.valueType = toVariableType v.type ∧ value.editable = editable v.type ∧
      value.childCount = countOf api h v := by
  have hcount : Adds (childCount api v.type) := (moves_childCount api v.type).adds
  have hname : Steady (instanceClassName api (renderer api lib fuel) v.type) h [v] :=
    (reports_instanceClassName api lib fuel v).tells
      (hs.readOrder.instanceClassName (hs.readOrder.renderer lib fuel) v.type)
  unfold createChildVariable
  refine (gives_sqGetstackobj rfl).bind_tells ?_
  refine (steady_toString lib fuel hs v).bind (fun _ => ?_) ?_
  · exact (net_instanceClassName api (renders_renderer api lib fuel) v.type).adds.bind fun _ =>
      hcount.bind fun _ => adds_pure _
  · rintro value _ rfl
    refine hname.bind (fun _ => hcount.bind fun _ => adds_pure _) ?_
    rintro name _ rfl
    exact (gives_childCount api h v).bind_tells ((gives_pure _).tells ⟨rfl, rfl, rfl, rfl⟩)

end

end Sdb.L4
