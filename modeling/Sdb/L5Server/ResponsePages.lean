import Sdb.L4Display.PageBounds
import Sdb.L5Server.Requests

/-!
# Pages in requests and responses

The controller hands the debugger a page only when its count is at most 1000, and the
debugger lists no more than the count. So no response to a request for variables is
longer than what was asked for, whatever the VM answers, whatever the script and other
requests do meanwhile, and however `beginIterator + count` wraps around.

* `pages_bounded`: no command asks for more than 1000 items, and no response lists more
  than its request asked for.
-/
namespace Sdb.L5

open Sdb.L1 Sdb.L2 Sdb.L3 Sdb.L4
open Sdb.Exec (Yields yields_trivial)

/-! ## What requests ask for -/

/-- The page a command asks for. -/
def Command.pagination : Command → Option PaginationInfo
  | .data (.getStackVariables _ _ pagination) => some pagination
  | .data (.getGlobalVariables _ pagination) => some pagination
  | .data (.getImmediateValue _ _ pagination) => some pagination
  | _ => none

/-- The query of a request for a list of variables. -/
def Request.listing : Request → Option QueryParams
  | .stackLocals _ _ queryParams => some queryParams
  | .stackGlobals _ queryParams => some queryParams
  | _ => none

/-- The command asks for no more than 1000 items. -/
def Moderate (c : Command) : Prop :=
  ∀ pagination, c.pagination = some pagination → pagination.count.toNat ≤ 1000

theorem moderate_of_none {c : Command} (h : c.pagination = none) : Moderate c := by
  intro pagination hp
  rw [h] at hp
  cases hp

theorem moderate_of_read {queryParams : QueryParams} {pagination : PaginationInfo} {c : Command}
    (hp : readPagination queryParams = some pagination) (hc : c.pagination = some pagination) :
    Moderate c := by
  intro p h
  obtain rfl := Option.some.inj (hc.symm.trans h)
  exact (readPagination_eq_some.mp hp).2.2

theorem moderate_returnCodeOf {c : Command} (h : c.pagination = none) :
    Prog.CallsOnly Moderate (returnCodeOf c) :=
  .call (moderate_of_none h) fun _ => .ret _

/-- A choice between two responses makes no call. -/
theorem callsOnly_ite {P : Command → Prop} {p : Prop} [Decidable p] (a b : Response) :
    Prog.CallsOnly P (if p then .ret a else .ret b : Endpoint Response) := by
  split <;> exact .ret _

theorem moderate_getImmediateValues {stackFrame : Int32} {queryParams : QueryParams}
    {pagination : PaginationInfo} (hp : readPagination queryParams = some pagination)
    (immediateStrings : List (Option Bytes)) :
    Prog.CallsOnly Moderate (getImmediateValues stackFrame pagination immediateStrings) := by
  induction immediateStrings with
  | nil => exact .ret _
  | cons watch rest ih =>
    cases watch with
    | none => exact .throw _
    | some immediateString =>
      refine .call (moderate_of_read hp rfl) fun r => ?_
      split
      · exact .ret _
      · exact ih.bind fun _ => .ret _

theorem moderate_handleVariables {queryParams : QueryParams} {call : PaginationInfo → Command}
    (hcall : ∀ pagination, (call pagination).pagination = some pagination) :
    Prog.CallsOnly Moderate (handleVariablesCommandMessage queryParams fun pagination =>
      .call (call pagination) fun r => .ret (r.code, r.variables_)) := by
  unfold handleVariablesCommandMessage
  split
  · exact .ret _
  · rename_i pagination hp
    exact (Prog.CallsOnly.call (moderate_of_read hp (hcall pagination)) fun _ => .ret _).bind
      fun _ => callsOnly_ite _ _

/-- No endpoint asks the debugger for more than 1000 items. -/
theorem moderate_handle (req : Request) : Prog.CallsOnly Moderate (handle req) := by
  cases req with
  | sendStatus | stepOut | stepOver | stepIn | pause | continue_ =>
    exact moderate_returnCodeOf rfl
  | stackLocals stackFrame path queryParams => exact moderate_handleVariables fun _ => rfl
  | stackGlobals path queryParams => exact moderate_handleVariables fun _ => rfl
  | setStackLocal stackFrame path setValueBody =>
    show Prog.CallsOnly Moderate (setStackLocal stackFrame path setValueBody)
    unfold setStackLocal
    split
    · exact .throw _
    · exact .call (moderate_of_none rfl) fun _ => callsOnly_ite _ _
  | stackImmediate stackFrame queryParams immediateStrings =>
    show Prog.CallsOnly Moderate (stackImmediate stackFrame queryParams immediateStrings)
    unfold stackImmediate
    split
    · exact .ret _
    · rename_i pagination hp
      exact (moderate_getImmediateValues hp immediateStrings).bind fun _ => callsOnly_ite _ _
  | fileBreakpoints createBpRequest =>
    show Prog.CallsOnly Moderate (fileBreakpoints createBpRequest)
    unfold fileBreakpoints
    split
    · exact .throw _
    · split
      · exact .throw _
      · exact .call (moderate_of_none rfl) fun _ => callsOnly_ite _ _

/-! ## What the debugger lists -/

section
variable {H : Type} {api : SqApi H} {lib : CppLib} {r : Renderer H} {fuel : Nat}

theorem resultOf_page {n : Nat} {x : Except ReturnCode (List Variable)} (h : BoundedPage n x) :
    (resultOf (x.map fun variables_ => { variables_ := variables_ })).variables_.length ≤ n := by
  cases x with
  | ok variables_ => exact h variables_ rfl
  | error code => exact Nat.zero_le n

/-- A listing on the VM is no longer than the page of its command. -/
theorem dataResult_bounded {call : DataCall} {pagination : PaginationInfo}
    (hp : (Command.data call).pagination = some pagination) :
    Yields (fun x => (resultOf x).variables_.length ≤ pagination.count.toNat)
      (dataResult api lib r fuel call) := by
  cases call with
  | getStackVariables stackFrame path pagination' =>
    obtain rfl := Option.some.inj hp
    refine .map fun s => ?_
    exact (populateStackVariables_bounded api lib r fuel stackFrame path pagination' s).mono
      (fun _ _ h => resultOf_page h) fun _ _ h => h
  | getGlobalVariables path pagination' =>
    obtain rfl := Option.some.inj hp
    refine .map fun s => ?_
    exact (populateGlobalVariables_bounded api lib r fuel path pagination' s).mono
      (fun _ _ h => resultOf_page h) fun _ _ h => h
  | setStackVariableValue stackFrame path newValueString => cases hp
  | getImmediateValue stackFrame watch pagination' =>
    refine .map fun s => (yields_trivial _ s).mono (fun x _ _ => ?_) fun _ _ h => h
    cases x <;> exact Nat.zero_le _

theorem ended_bounded {strToLower : Bytes → Bytes} {populateStack : SqVm H → List StackEntry}
    {s : L2.State (SqVm H)} {c : Command} {res : Res} {pagination : PaginationInfo} {x : Result}
    (hp : c.pagination = some pagination)
    (h : ended api lib fuel strToLower populateStack s ⟨c.act, res⟩ = .ok x) :
    x.variables_.length ≤ pagination.count.toNat := by
  obtain ⟨call, rfl⟩ : ∃ call, c = .data call := by
    cases c with
    | data call => exact ⟨call, rfl⟩
    | _ => cases hp
  cases res with
  | usedVm code =>
    have hended : dataEnded api lib (renderer api lib fuel) fuel s.script call = .ok x := h
    unfold dataEnded at hended
    split at hended
    · rename_i y t hrun
      obtain rfl := Except.ok.inj hended
      exact (dataResult_bounded hp s.script).ok hrun
    · cases hended
  | rc code | silent | sent _ | paused _ =>
    obtain rfl := Except.ok.inj h
    exact Nat.zero_le _

end

/-! ## Main results -/

section
variable {H : Type} {api : SqApi H} {lib : CppLib} {fuel : Nat} {strToLower : Bytes → Bytes}
  {populateStack : SqVm H → List StackEntry} {I : Type} [DecidableEq I] {reqs : I → Request}
  {s₀ s : L2.State (SqVm H)} {ps : I → Endpoint Response} {i : I} {resp : Response}
  {ls : List ((Lbl (SqVm H) × Except Unwound Result) × Option I)}

/-- A request for a list of variables stands for one command, which asks for the page
of its query. -/
theorem listing_commands {req : Request} {queryParams : QueryParams} {cs : List Command}
    (hq : req.listing = some queryParams) (h : req.commands = some cs) :
    ∃ c pagination, cs = [c] ∧ readPagination queryParams = some pagination ∧
      c.pagination = some pagination ∧
      ∀ rs, req.body rs = .variables_ (createVariablesList (rs.flatMap Result.variables_)) := by
  cases req with
  | stackLocals stackFrame path queryParams' | stackGlobals path queryParams' =>
    obtain rfl := Option.some.inj hq
    obtain ⟨pagination, hp, rfl⟩ := Option.map_eq_some_iff.mp h
    exact ⟨_, pagination, rfl, hp, rfl, fun _ => rfl⟩
  | _ => cases hq

/-- **Pages stay bounded.** In every run of the server no request has the debugger
asked for more than 1000 items; and a response to a request for a list of variables
holds at most as many as the query names, with `count` 100 where it names none. -/
theorem pages_bounded
    (h : (serving api lib fuel strToLower populateStack I).Run
      (s₀, fun i => handle (reqs i)) ls (s, ps)) :
    (∀ c x, (c, x) ∈ LTS.made callOf i ls → Moderate c) ∧
      ∀ queryParams variables_ resp, (reqs i).listing = some queryParams → ps i = .ret resp →
        resp.body = .variables_ variables_ →
        ∃ count, Reads 100 (queryParams (ascii "count")) count ∧ count.toNat ≤ 1000 ∧
          variables_.length ≤ count.toNat := by
  constructor
  · intro c x hc
    exact (moderate_handle (reqs i)).made (LTS.pool_makes h i) _ hc
  · intro queryParams variables_ resp hq ha hbody
    have hans := run_answers h ha
    have hcalls := fun c x => call_step h (i := i) (c := c) (x := x)
    generalize LTS.made callOf i ls = tr at hans hcalls
    cases hans with
    | rejected _ => cases hbody
    | failed _ _ hrc =>
      rw [createReturnCodeResponse_failed hrc] at hbody
      cases hbody
    | @carried cs rs hcs hcar =>
      obtain ⟨c, pagination, rfl, hread, hp, hb⟩ := listing_commands hq hcs
      obtain ⟨-, hcount, hle⟩ := readPagination_eq_some.mp hread
      refine ⟨pagination.count, parseQueryParamWithDefault_iff.mp hcount, hle, ?_⟩
      obtain ⟨r, rfl, -⟩ := (carried_single (hcar.success rfl).1).mp hcar
      obtain ⟨-, l, -, t, u, -, -, -, -, hended, -⟩ := hcalls c (.ok r) List.mem_cons_self
      have hlength := ended_bounded hp hended.symm
      simp only [okResponse, hb, List.map_cons, List.map_nil, List.flatMap_cons,
        List.flatMap_nil, List.append_nil, Body.variables_.injEq] at hbody
      rw [← hbody, createVariablesList, List.length_map]
      exact hlength

end

/-! ## The first of two globals -/

/-- `GET Variables/Global` with `count=1`. -/
def oneGlobal : Unit → Request :=
  fun _ => .stackGlobals [] fun k => if k = ascii "count" then some (ascii "1") else none

/-- A paused VM whose root table has the integers `a` and `b`. -/
def globalsVm : L2.State (SqVm Heap) where
  pauseMutexData := { isPaused := true }
  thread := .waiting false
  script :=
    { stack := []
      heap := { objects := [.table [some (.string [97], .integer 5),
        some (.string [98], .integer 6)]] } }

def globalA : Variable :=
  { pathUiString := [97], pathTableKeyType := .string, valueType := .integer, value := [53]
    editable := true }

def globalsCall : Lbl (SqVm Heap) × Except Unwound Result :=
  (⟨.data (.getGlobalVariables [] ⟨0, 1⟩), .usedVm (some .success)⟩,
    .ok { variables_ := [globalA] })

theorem globalsCall_ended :
    dataEnded heapApi insertionLib (renderer heapApi insertionLib 9) 9 globalsVm.script
      (.getGlobalVariables [] ⟨0, 1⟩) = globalsCall.2 := by
  decide +kernel

theorem globalsCall_step :
    L2.exec (access heapApi insertionLib 9 id fun _ => []) globalsVm globalsCall.1.act =
      some (globalsVm, globalsCall.1.res) := by
  have hcall : (access heapApi insertionLib 9 id fun _ => []).call globalsVm.script
      (.getGlobalVariables [] ⟨0, 1⟩) = some (globalsVm.script, some .success) := by
    decide +kernel
  simp only [L2.exec, dataCommand, refused, globalsCall, hcall]
  rfl

theorem globals_run : (serving heapApi insertionLib 9 id (fun _ => []) Unit).Run
    (globalsVm, fun i => handle (oneGlobal i)) [(globalsCall, some ())]
    (globalsVm, fun _ => .ret (okResponse (.variables_ (createVariablesList [globalA])))) :=
  .single ⟨⟨(lts_step _).mpr globalsCall_step, globalsCall_ended.symm⟩,
    .data (.getGlobalVariables [] ⟨0, 1⟩), _, globalsCall.2, rfl, rfl, rfl⟩

/-- The page of one variable. -/
theorem pages_bounded_oneGlobal : ∃ count, Reads 100 (some (ascii "1")) count ∧
    (createVariablesList [globalA]).length ≤ count.toNat := by
  obtain ⟨count, hreads, -, hle⟩ :=
    (pages_bounded (i := ()) globals_run).2 _ _ _ rfl rfl rfl
  exact ⟨count, hreads, hle⟩

end Sdb.L5
