import Sdb.Core.Calls
import Sdb.L2Pause.Debugger
import Sdb.L5Server.EventDto
import Sdb.L5Server.QueryParams

/-!
# The command requests (`embedded_server/controller/DebugCommandController.h`)

Each endpoint is a program that calls the `MessageCommandInterface` and answers with a
response. Between two of its calls, and before and after them, other requests and the
script run; a command that throws ends the endpoint with its exception, and so does the
use of a null pointer where a field of the body is missing (`Unwound.undefined`, where
the code's behaviour is not defined).

`Request.commands` is what a request stands for: the commands that carry it out, in
their order, or `none` when its query names no page.

* `handle_answers`: what the calls of an answered request were, and what its answer says
  about them;
* `handle_calls`: the commands a request can give.
-/
namespace Sdb.L5

open Sdb.L1

/-! ## The command interface -/

/-- A call of the `MessageCommandInterface`. -/
inductive Command where
  | pauseExecution
  | resume (c : L2.Resume)
  | sendStatus
  | data (call : L2.DataCall)
  | setFileBreakpoints (file : Bytes) (createBps : List CreateBreakpoint)
  deriving DecidableEq, Repr

/-- What a call leaves: its return code and the arguments it has written to. -/
structure Result where
  code : ReturnCode := .success
  variables_ : List Variable := []
  newValue : Variable := {}
  value : ImmediateValue := {}
  resolvedBps : List ResolvedBreakpoint := []
  deriving DecidableEq, Repr

/-- How an endpoint ends without a response. -/
inductive Unwound where
  | exception | undefined
  deriving DecidableEq, Repr

/-- An endpoint, or a part of one. -/
abbrev Endpoint := Prog Unwound Command Result

/-! ## Responses -/

inductive Body where
  | commandMessage
  | variables_ (variables_ : List Dto.Variable)
  | values (values : List Dto.ImmediateValue)
  | breakpoints (breakpoints : List Dto.ResolvedBreakpoint)
  deriving DecidableEq, Repr

/-- The HTTP status, and the DTO with its `code`. -/
structure Response where
  status : Nat
  code : Int32
  body : Body := .commandMessage
  deriving DecidableEq, Repr

/-- `createDtoResponse(Status::CODE_200, ...)` of a DTO whose `code` is `Success`. -/
def okResponse (body : Body) : Response := ⟨200, returnCodeValue .success, body⟩

/-- mirrors DebugCommandController.h:336-347 -/
def createReturnCodeResponse (returnCode : ReturnCode) : Response :=
  if returnCode = .success then okResponse .commandMessage
  else
    { status := if returnCodeValue .errorInternal ≤ returnCodeValue returnCode then 500 else 400
      code := returnCodeValue returnCode }

/-! ## Endpoints -/

/-- An endpoint that gives one command and answers with its code. -/
def returnCodeOf (c : Command) : Endpoint Response :=
  .call c fun r => .ret (createReturnCodeResponse r.code)

/-- mirrors DebugCommandController.h:46-49 -/
def sendStatus : Endpoint Response := returnCodeOf .sendStatus

/-- mirrors DebugCommandController.h:55-58 -/
def stepOut : Endpoint Response := returnCodeOf (.resume .stepOut)

/-- mirrors DebugCommandController.h:64-67 -/
def stepOver : Endpoint Response := returnCodeOf (.resume .stepOver)

/-- mirrors DebugCommandController.h:73-76 -/
def stepIn : Endpoint Response := returnCodeOf (.resume .stepIn)

/-- mirrors DebugCommandController.h:82-85 -/
def pause : Endpoint Response := returnCodeOf .pauseExecution

/-- mirrors DebugCommandController.h:91-94 -/
def continue_ : Endpoint Response := returnCodeOf (.resume .continueExecution)

/-- mirrors DebugCommandController.h:281-301 -/
def handleVariablesCommandMessage (queryParams : QueryParams)
    (getVariablesFn : PaginationInfo → Endpoint (ReturnCode × List Variable)) :
    Endpoint Response :=
  match readPagination queryParams with
  | none => .ret (createReturnCodeResponse .invalidParameter)
  | some pagination =>
    (getVariablesFn pagination).bind fun (ret, variables_) =>
      if ret ≠ .success then .ret (createReturnCodeResponse ret)
      else .ret (okResponse (.variables_ (createVariablesList variables_)))

/-- mirrors DebugCommandController.h:100-110 -/
def stackLocals (stackFrame : UInt32) (path : Bytes) (queryParams : QueryParams) :
    Endpoint Response :=
  handleVariablesCommandMessage queryParams fun pagination =>
    .call (.data (.getStackVariables stackFrame path pagination)) fun r =>
      .ret (r.code, r.variables_)

/-- mirrors DebugCommandController.h:118-131 -/
def setStackLocal (stackFrame : UInt32) (path : Bytes)
    (setValueBody : Dto.VariableSetValueBody) : Endpoint Response :=
  match setValueBody.value with
  | none => .throw .undefined
  | some value =>
    .call (.data (.setStackVariableValue stackFrame path value)) fun r =>
      if r.code ≠ .success then .ret (createReturnCodeResponse r.code)
      else .ret (okResponse (.variables_ (createVariablesList [r.newValue])))

/-- mirrors DebugCommandController.h:138-145 -/
def stackGlobals (path : Bytes) (queryParams : QueryParams) : Endpoint Response :=
  handleVariablesCommandMessage queryParams fun pagination =>
    .call (.data (.getGlobalVariables path pagination)) fun r => .ret (r.code, r.variables_)

/-- `getVariablesFn` of `StackImmediate`: `ret` and `immediateValues`.
mirrors DebugCommandController.h:157-171 -/
def getImmediateValues (stackFrame : Int32) (pagination : PaginationInfo) :
    List (Option Bytes) → Endpoint (ReturnCode × List ImmediateValue)
  | [] => .ret (.success, [])
  | none :: _ => .throw .undefined
  | some immediateString :: rest =>
    .call (.data (.getImmediateValue stackFrame immediateString pagination)) fun r =>
      if r.code ≠ .success then .ret (r.code, [])
      else
        (getImmediateValues stackFrame pagination rest).bind fun (ret, immediateValues) =>
          .ret (ret, r.value :: immediateValues)

/-- mirrors DebugCommandController.h:153-202 -/
def stackImmediate (stackFrame : Int32) (queryParams : QueryParams)
    (immediateStrings : List (Option Bytes)) : Endpoint Response :=
  match readPagination queryParams with
  | none => .ret (createReturnCodeResponse .invalidParameter)
  | some pagination =>
    (getImmediateValues stackFrame pagination immediateStrings).bind fun (ret, values) =>
      if ret ≠ .success then .ret (createReturnCodeResponse ret)
      else .ret (okResponse (.values (values.map createImmediateValue)))

/-- `data::CreateBreakpoint{bpDto->id, bpDto->line}`; `none` at a null pointer. -/
def createBreakpoint : Option Dto.CreateBreakpoint → Option CreateBreakpoint
  | some ⟨some id, some line⟩ => some ⟨id, line⟩
  | _ => none

/-- mirrors DebugCommandController.h:211-237 -/
def fileBreakpoints (createBpRequest : Dto.SetFileBreakpointsRequest) : Endpoint Response :=
  match createBpRequest.breakpoints.bind fun bps => bps.mapM createBreakpoint with
  | none => .throw .undefined
  | some bpList =>
    match createBpRequest.file with
    | none => .throw .undefined
    | some file =>
      .call (.setFileBreakpoints (cstr file) bpList) fun r =>
        if r.code ≠ .success then .ret (createReturnCodeResponse r.code)
        else .ret (okResponse (.breakpoints (r.resolvedBps.map createResolvedBreakpoint)))

/-- A request the router hands to one of the endpoints. -/
inductive Request where
  | sendStatus
  | stepOut
  | stepOver
  | stepIn
  | pause
  | continue_
  | stackLocals (stackFrame : UInt32) (path : Bytes) (queryParams : QueryParams)
  | setStackLocal (stackFrame : UInt32) (path : Bytes) (setValueBody : Dto.VariableSetValueBody)
  | stackGlobals (path : Bytes) (queryParams : QueryParams)
  | stackImmediate (stackFrame : Int32) (queryParams : QueryParams)
      (immediateStrings : List (Option Bytes))
  | fileBreakpoints (createBpRequest : Dto.SetFileBreakpointsRequest)

def handle : Request → Endpoint Response
  | .sendStatus => sendStatus
  | .stepOut => stepOut
  | .stepOver => stepOver
  | .stepIn => stepIn
  | .pause => pause
  | .continue_ => continue_
  | .stackLocals stackFrame path queryParams => stackLocals stackFrame path queryParams
  | .setStackLocal stackFrame path setValueBody => setStackLocal stackFrame path setValueBody
  | .stackGlobals path queryParams => stackGlobals path queryParams
  | .stackImmediate stackFrame queryParams immediateStrings =>
    stackImmediate stackFrame queryParams immediateStrings
  | .fileBreakpoints createBpRequest => fileBreakpoints createBpRequest

/-! ## What a request stands for -/

/-- The watches of a list, up to a missing one. -/
def watchCommands (stackFrame : Int32) (pagination : PaginationInfo) :
    List (Option Bytes) → List Command
  | [] => []
  | none :: _ => []
  | some immediateString :: rest =>
    .data (.getImmediateValue stackFrame immediateString pagination) ::
      watchCommands stackFrame pagination rest

theorem mem_watchCommands {stackFrame : Int32} {pagination : PaginationInfo}
    {immediateStrings : List (Option Bytes)} {c : Command}
    (h : c ∈ watchCommands stackFrame pagination immediateStrings) :
    ∃ watch, some watch ∈ immediateStrings ∧
      c = .data (.getImmediateValue stackFrame watch pagination) := by
  induction immediateStrings with
  | nil => cases h
  | cons watch rest ih =>
    cases watch with
    | none => cases h
    | some watch =>
      rcases List.mem_cons.mp h with rfl | h
      · exact ⟨watch, List.mem_cons_self, rfl⟩
      · obtain ⟨watch', hmem, rfl⟩ := ih h
        exact ⟨watch', List.mem_cons_of_mem _ hmem, rfl⟩

/-- The breakpoints of a request none of whose fields is missing, with its file. -/
def Dto.SetFileBreakpointsRequest.read (createBpRequest : Dto.SetFileBreakpointsRequest) :
    Option (Bytes × List L1.CreateBreakpoint) :=
  match createBpRequest.breakpoints.bind fun bps => bps.mapM createBreakpoint with
  | none => none
  | some bpList => createBpRequest.file.map fun file => (cstr file, bpList)

namespace Request

/-- The commands a request stands for, in their order; `none` when it names no page. -/
def commands : Request → Option (List Command)
  | .sendStatus => some [.sendStatus]
  | .stepOut => some [.resume .stepOut]
  | .stepOver => some [.resume .stepOver]
  | .stepIn => some [.resume .stepIn]
  | .pause => some [.pauseExecution]
  | .continue_ => some [.resume .continueExecution]
  | .stackLocals stackFrame path queryParams =>
    (readPagination queryParams).map fun pagination =>
      [.data (.getStackVariables stackFrame path pagination)]
  | .setStackLocal stackFrame path setValueBody =>
    some (setValueBody.value.toList.map fun value =>
      .data (.setStackVariableValue stackFrame path value))
  | .stackGlobals path queryParams =>
    (readPagination queryParams).map fun pagination =>
      [.data (.getGlobalVariables path pagination)]
  | .stackImmediate stackFrame queryParams immediateStrings =>
    (readPagination queryParams).map fun pagination =>
      watchCommands stackFrame pagination immediateStrings
  | .fileBreakpoints createBpRequest =>
    some (createBpRequest.read.toList.map fun (file, bpList) => .setFileBreakpoints file bpList)

/-- No field the request needs is missing from its body. -/
def Complete : Request → Prop
  | .setStackLocal _ _ setValueBody => setValueBody.value ≠ none
  | .stackImmediate _ _ immediateStrings => none ∉ immediateStrings
  | .fileBreakpoints createBpRequest => createBpRequest.read ≠ none
  | _ => True

/-- The body of the response to a request whose commands succeeded with these results. -/
def body : Request → List Result → Body
  | .stackLocals _ _ _, rs | .stackGlobals _ _, rs =>
    .variables_ (createVariablesList (rs.flatMap Result.variables_))
  | .setStackLocal _ _ _, rs => .variables_ (createVariablesList (rs.map Result.newValue))
  | .stackImmediate _ _ _, rs => .values (rs.map fun r => createImmediateValue r.value)
  | .fileBreakpoints _, rs =>
    .breakpoints ((rs.flatMap Result.resolvedBps).map createResolvedBreakpoint)
  | _, _ => .commandMessage

end Request

/-- The commands are given one after the other up to the first that fails. When none
fails the request must be complete. -/
inductive Carried (complete : Prop) :
    List Command → List (Command × Result) → ReturnCode → Prop where
  | done : complete → Carried complete [] [] .success
  | failed {c : Command} {cs : List Command} {r : Result} : r.code ≠ .success →
      Carried complete (c :: cs) [(c, r)] r.code
  | next {c : Command} {cs : List Command} {r : Result} {rs : List (Command × Result)}
      {rc : ReturnCode} : r.code = .success → Carried complete cs rs rc →
      Carried complete (c :: cs) ((c, r) :: rs) rc

/-- Calls that returned. -/
def returned (rs : List (Command × Result)) : List (Command × Except Unwound Result) :=
  rs.map fun p => (p.1, .ok p.2)

/-- What an answered request did, and its answer: a request that names no page gives no
command and is an `InvalidParameter`; any other gives its commands up to the first that
fails, whose code is the answer, or all of them, whose results are the answer. -/
inductive Answers (req : Request) : List (Command × Except Unwound Result) → Response → Prop where
  | rejected : req.commands = none →
      Answers req [] (createReturnCodeResponse .invalidParameter)
  | carried {cs : List Command} {rs : List (Command × Result)} : req.commands = some cs →
      Carried req.Complete cs rs .success →
      Answers req (returned rs) (okResponse (req.body (rs.map Prod.snd)))
  | failed {cs : List Command} {rs : List (Command × Result)} {rc : ReturnCode} :
      req.commands = some cs → Carried req.Complete cs rs rc → rc ≠ .success →
      Answers req (returned rs) (createReturnCodeResponse rc)

/-! ## One command -/

section
variable {tr : List (Command × Except Unwound Result)} {resp : Response} {req : Request}
  {c : Command}

theorem createReturnCodeResponse_failed {rc : ReturnCode} (h : rc ≠ .success) :
    createReturnCodeResponse rc =
      { status := if returnCodeValue .errorInternal ≤ returnCodeValue rc then 500 else 400
        code := returnCodeValue rc } := if_neg h

theorem carried_single {complete : Prop} {rs : List (Command × Result)} {rc : ReturnCode}
    (hcomplete : complete) :
    Carried complete [c] rs rc ↔ ∃ r, rs = [(c, r)] ∧ rc = r.code := by
  constructor
  · intro h
    cases h with
    | failed _ => exact ⟨_, rfl, rfl⟩
    | next hr h =>
      obtain _ | _ | _ := h
      exact ⟨_, rfl, hr.symm⟩
  · intro h
    obtain ⟨r, rfl, rfl⟩ := h
    by_cases hr : r.code = .success
    · rw [hr]
      exact .next hr (.done hcomplete)
    · exact .failed hr

/-- The response to a request that stands for one command. -/
def singleResponse (req : Request) (r : Result) : Response :=
  if r.code ≠ .success then createReturnCodeResponse r.code else okResponse (req.body [r])

theorem answers_single (hc : req.commands = some [c]) (hcomplete : req.Complete) :
    Answers req tr resp ↔ ∃ r, tr = [(c, .ok r)] ∧ resp = singleResponse req r := by
  constructor
  · intro h
    cases h with
    | rejected hnone => exact absurd (hnone.symm.trans hc) (by simp)
    | @carried cs rs hcs h =>
      obtain rfl := Option.some.inj (hcs.symm.trans hc)
      obtain ⟨r, rfl, hr⟩ := (carried_single hcomplete).mp h
      exact ⟨r, rfl, by simp [singleResponse, ← hr]⟩
    | @failed cs rs rc hcs h hrc =>
      obtain rfl := Option.some.inj (hcs.symm.trans hc)
      obtain ⟨r, rfl, rfl⟩ := (carried_single hcomplete).mp h
      exact ⟨r, rfl, by simp [singleResponse, hrc]⟩
  · intro h
    obtain ⟨r, rfl, rfl⟩ := h
    have hcar : Carried req.Complete [c] [(c, r)] r.code :=
      (carried_single hcomplete).mpr ⟨r, rfl, rfl⟩
    unfold singleResponse
    split
    · rename_i hr
      exact .failed hc hcar hr
    · rename_i hr
      rw [not_not.mp hr] at hcar
      exact .carried hc hcar

/-- An endpoint that makes one call. -/
theorem makes_single {k : Result → Endpoint Response} {f : Result → Response}
    (hk : ∀ r, k r = .ret (f r)) :
    Prog.Makes (.call c k) tr (.ret resp) ↔ ∃ r, tr = [(c, .ok r)] ∧ resp = f r := by
  rw [Prog.makes_call]
  constructor
  · intro h
    obtain ⟨r, tr', rfl, h⟩ := h
    rw [hk] at h
    obtain ⟨rfl, heq⟩ := Prog.makes_ret.mp h
    injection heq with heq
    exact ⟨r, rfl, heq⟩
  · intro h
    obtain ⟨r, rfl, rfl⟩ := h
    refine ⟨r, [], rfl, ?_⟩
    rw [hk]
    exact .nil _

/-- An endpoint that gives the one command of its request. -/
theorem single_answers {k : Result → Endpoint Response} (hc : req.commands = some [c])
    (hcomplete : req.Complete) (hk : ∀ r, k r = .ret (singleResponse req r)) :
    Prog.Makes (.call c k) tr (.ret resp) ↔ Answers req tr resp :=
  (makes_single hk).trans (answers_single hc hcomplete).symm

/-- A request whose commands would need a missing field is never answered. -/
theorem not_answers (hc : req.commands = some []) (hincomplete : ¬ req.Complete) :
    ¬ Answers req tr resp := by
  intro h
  cases h with
  | rejected hnone => exact absurd (hnone.symm.trans hc) (by simp)
  | carried hcs h =>
    obtain rfl := Option.some.inj (hcs.symm.trans hc)
    obtain ⟨h⟩ := h
    exact hincomplete h
  | failed hcs h _ =>
    obtain rfl := Option.some.inj (hcs.symm.trans hc)
    obtain ⟨h⟩ := h
    exact hincomplete h

theorem answers_rejected (hc : req.commands = none) :
    Answers req tr resp ↔ tr = [] ∧ resp = createReturnCodeResponse .invalidParameter := by
  constructor
  · intro h
    cases h with
    | rejected _ => exact ⟨rfl, rfl⟩
    | carried hcs _ => exact absurd (hc.symm.trans hcs) (by simp)
    | failed hcs _ _ => exact absurd (hc.symm.trans hcs) (by simp)
  · intro h
    obtain ⟨rfl, rfl⟩ := h
    exact .rejected hc

theorem makes_answer {a : Response} :
    Prog.Makes (.ret a : Endpoint Response) tr (.ret resp) ↔ tr = [] ∧ resp = a := by
  rw [Prog.makes_ret]
  constructor
  · intro h
    injection h.2 with h'
    exact ⟨h.1, h'⟩
  · intro h
    exact ⟨h.1, by rw [h.2]⟩

/-! ## The list of watches -/

theorem Carried.success {complete : Prop} {cs : List Command} {rs : List (Command × Result)}
    {rc : ReturnCode} (h : Carried complete cs rs rc) (hrc : rc = .success) :
    complete ∧ cs = rs.map Prod.fst ∧ ∀ p ∈ rs, p.2.code = .success := by
  induction h with
  | done hcomplete => exact ⟨hcomplete, rfl, by simp⟩
  | failed hr => exact absurd hrc hr
  | next hr _ ih =>
    obtain ⟨hcomplete, hcs, hall⟩ := ih hrc
    exact ⟨hcomplete, by rw [hcs]; rfl, List.forall_mem_cons.mpr ⟨hr, hall⟩⟩

/-- The values of the calls that succeeded. -/
def collected (rs : List (Command × Result)) : List ImmediateValue :=
  (rs.filter fun p => p.2.code = .success).map fun p => p.2.value

theorem collected_cons_success {r : Result} {rs : List (Command × Result)}
    (hr : r.code = .success) : collected ((c, r) :: rs) = r.value :: collected rs := by
  simp [collected, hr]

theorem collected_failed {r : Result} (hr : r.code ≠ .success) : collected [(c, r)] = [] := by
  simp [collected, hr]

theorem collected_success {rs : List (Command × Result)}
    (h : ∀ p ∈ rs, p.2.code = .success) : collected rs = rs.map fun p => p.2.value := by
  have hall : rs.filter (fun p => p.2.code = .success) = rs := by
    rw [List.filter_eq_self]
    intro p hp
    simpa using h p hp
  rw [collected, hall]

/-- The calls of a watch list, and what is collected from them. -/
theorem getImmediateValues_makes (stackFrame : Int32) (pagination : PaginationInfo)
    (immediateStrings : List (Option Bytes)) {ret : ReturnCode} {values : List ImmediateValue} :
    Prog.Makes (getImmediateValues stackFrame pagination immediateStrings) tr
        (.ret (ret, values)) ↔
      ∃ rs, tr = returned rs ∧ values = collected rs ∧
        Carried (none ∉ immediateStrings) (watchCommands stackFrame pagination immediateStrings)
          rs ret := by
  induction immediateStrings generalizing tr ret values with
  | nil =>
    rw [getImmediateValues, watchCommands, Prog.makes_ret]
    constructor
    · intro h
      obtain ⟨rfl, heq⟩ := h
      injection heq with heq
      obtain ⟨rfl, rfl⟩ := Prod.mk.inj heq
      exact ⟨[], rfl, rfl, .done (by simp)⟩
    · intro h
      obtain ⟨rs, rfl, rfl, h⟩ := h
      obtain _ | _ | _ := h
      exact ⟨rfl, rfl⟩
  | cons watch rest ih =>
    cases watch with
    | none =>
      rw [getImmediateValues, watchCommands, Prog.makes_throw]
      constructor
      · intro h
        cases h.2
      · intro h
        obtain ⟨rs, -, -, h⟩ := h
        obtain ⟨hcomplete⟩ := h
        exact absurd List.mem_cons_self hcomplete
    | some immediateString =>
      have hmem : (none ∉ some immediateString :: rest) = (none ∉ rest) := by simp
      rw [getImmediateValues, watchCommands, Prog.makes_call, hmem]
      constructor
      · intro h
        obtain ⟨r, tr', rfl, h⟩ := h
        split at h
        · rename_i hr
          obtain ⟨rfl, heq⟩ := Prog.makes_ret.mp h
          injection heq with heq
          obtain ⟨rfl, rfl⟩ := Prod.mk.inj heq
          exact ⟨[(_, r)], rfl, (collected_failed hr).symm, .failed hr⟩
        · rename_i hr
          have hr := not_not.mp hr
          obtain ⟨tr₁, tr₂, ⟨ret', values'⟩, rfl, h₁, h₂⟩ := Prog.makes_bind.mp h
          obtain ⟨rfl, heq⟩ := Prog.makes_ret.mp h₂
          injection heq with heq
          obtain ⟨rfl, rfl⟩ := Prod.mk.inj heq
          obtain ⟨rs, rfl, rfl, hcar⟩ := ih.mp h₁
          exact ⟨(_, r) :: rs, by simp [returned], (collected_cons_success hr).symm,
            .next hr hcar⟩
      · intro h
        obtain ⟨rs, rfl, rfl, h⟩ := h
        cases h with
        | @failed _ _ r hr =>
          refine ⟨r, [], rfl, ?_⟩
          rw [if_pos hr, collected_failed hr]
          exact .nil _
        | @next _ _ r rs _ hr h =>
          refine ⟨r, returned rs, rfl, ?_⟩
          rw [if_neg (not_not.mpr hr), collected_cons_success hr]
          exact Prog.makes_bind.mpr ⟨returned rs, [], (ret, collected rs), by simp,
            ih.mpr ⟨rs, rfl, rfl, h⟩, .nil _⟩

theorem stackImmediate_answers (stackFrame : Int32) (queryParams : QueryParams)
    (immediateStrings : List (Option Bytes)) :
    Prog.Makes (stackImmediate stackFrame queryParams immediateStrings) tr (.ret resp) ↔
      Answers (.stackImmediate stackFrame queryParams immediateStrings) tr resp := by
  unfold stackImmediate
  cases hp : readPagination queryParams with
  | none =>
    have hc : (Request.stackImmediate stackFrame queryParams immediateStrings).commands = none := by
      simp [Request.commands, hp]
    rw [answers_rejected hc]
    exact makes_answer
  | some pagination =>
    have hc : (Request.stackImmediate stackFrame queryParams immediateStrings).commands =
        some (watchCommands stackFrame pagination immediateStrings) := by
      simp [Request.commands, hp]
    dsimp only
    rw [Prog.makes_bind]
    constructor
    · intro h
      obtain ⟨tr₁, tr₂, ⟨ret, values⟩, rfl, h₁, h₂⟩ := h
      obtain ⟨rs, rfl, rfl, hcar⟩ := (getImmediateValues_makes _ _ _).mp h₁
      dsimp only at h₂
      split at h₂
      · rename_i hret
        obtain ⟨rfl, rfl⟩ := makes_answer.mp h₂
        rw [List.append_nil]
        exact .failed hc hcar hret
      · rename_i hret
        have hret := not_not.mp hret
        obtain ⟨rfl, rfl⟩ := makes_answer.mp h₂
        subst hret
        have hbody : (collected rs).map createImmediateValue =
            (rs.map Prod.snd).map fun r => createImmediateValue r.value := by
          rw [collected_success (hcar.success rfl).2.2, List.map_map, List.map_map]
          rfl
        rw [List.append_nil, hbody]
        exact .carried hc hcar
    · intro h
      cases h with
      | rejected hnone => exact absurd (hnone.symm.trans hc) (by simp)
      | @carried cs rs hcs hcar =>
        obtain rfl := Option.some.inj (hcs.symm.trans hc)
        refine ⟨returned rs, [], (.success, collected rs), by simp,
          (getImmediateValues_makes _ _ _).mpr ⟨rs, rfl, rfl, hcar⟩, makes_answer.mpr ⟨rfl, ?_⟩⟩
        rw [collected_success (hcar.success rfl).2.2, List.map_map]
        simp only [Request.body, List.map_map]
        rfl
      | @failed cs rs rc hcs hcar hrc =>
        obtain rfl := Option.some.inj (hcs.symm.trans hc)
        refine ⟨returned rs, [], (rc, collected rs), by simp,
          (getImmediateValues_makes _ _ _).mpr ⟨rs, rfl, rfl, hcar⟩, ?_⟩
        dsimp only
        rw [if_pos hrc]
        exact .nil _

/-! ## The endpoints -/

theorem commandMessage_response {r : Result} (h : req.body [r] = .commandMessage) :
    createReturnCodeResponse r.code = singleResponse req r := by
  unfold singleResponse
  split
  · rfl
  · rename_i hr
    rw [createReturnCodeResponse, if_pos (not_not.mp hr), h]

theorem returnCodeOf_answers (hc : req.commands = some [c]) (hcomplete : req.Complete)
    (hbody : ∀ r, req.body [r] = .commandMessage) :
    Prog.Makes (returnCodeOf c) tr (.ret resp) ↔ Answers req tr resp :=
  single_answers hc hcomplete fun r => by rw [commandMessage_response (hbody r)]

/-- An endpoint that lists variables for one command. -/
theorem handleVariables_answers {queryParams : QueryParams}
    {call : PaginationInfo → Command}
    (hc : req.commands = (readPagination queryParams).map fun pagination => [call pagination])
    (hcomplete : req.Complete)
    (hbody : ∀ r, req.body [r] = .variables_ (createVariablesList r.variables_)) :
    Prog.Makes (handleVariablesCommandMessage queryParams fun pagination =>
        .call (call pagination) fun r => .ret (r.code, r.variables_)) tr (.ret resp) ↔
      Answers req tr resp := by
  unfold handleVariablesCommandMessage
  cases hp : readPagination queryParams with
  | none =>
    rw [hp] at hc
    rw [answers_rejected hc]
    exact makes_answer
  | some pagination =>
    rw [hp] at hc
    refine single_answers hc hcomplete fun r => ?_
    show (if r.code ≠ .success then _ else _) = _
    unfold singleResponse
    split
    · rfl
    · rw [hbody]

theorem setStackLocal_answers (stackFrame : UInt32) (path : Bytes)
    (setValueBody : Dto.VariableSetValueBody) :
    Prog.Makes (setStackLocal stackFrame path setValueBody) tr (.ret resp) ↔
      Answers (.setStackLocal stackFrame path setValueBody) tr resp := by
  obtain ⟨value⟩ := setValueBody
  unfold setStackLocal
  cases value with
  | none =>
    refine iff_of_false (fun h => ?_) (not_answers rfl fun h => h rfl)
    cases (Prog.makes_throw.mp h).2
  | some value =>
    refine single_answers rfl (by simp [Request.Complete]) fun r => ?_
    unfold singleResponse
    split <;> rfl

theorem fileBreakpoints_answers (createBpRequest : Dto.SetFileBreakpointsRequest) :
    Prog.Makes (fileBreakpoints createBpRequest) tr (.ret resp) ↔
      Answers (.fileBreakpoints createBpRequest) tr resp := by
  have hthrow : createBpRequest.read = none →
      (Prog.Makes (Prog.throw .undefined : Endpoint Response) tr (.ret resp) ↔
        Answers (.fileBreakpoints createBpRequest) tr resp) := by
    intro hread
    refine iff_of_false (fun h => ?_) (not_answers ?_ ?_)
    · cases (Prog.makes_throw.mp h).2
    · simp [Request.commands, hread]
    · simp [Request.Complete, hread]
  unfold fileBreakpoints
  cases hbps : createBpRequest.breakpoints.bind fun bps => bps.mapM createBreakpoint with
  | none => exact hthrow (by simp [Dto.SetFileBreakpointsRequest.read, hbps])
  | some bpList =>
    cases hfile : createBpRequest.file with
    | none => exact hthrow (by simp [Dto.SetFileBreakpointsRequest.read, hbps, hfile])
    | some file =>
      have hread : createBpRequest.read = some (cstr file, bpList) := by
        simp [Dto.SetFileBreakpointsRequest.read, hbps, hfile]
      refine single_answers ?_ ?_ fun r => ?_
      · simp [Request.commands, hread]
      · simp [Request.Complete, hread]
      · unfold singleResponse
        split
        · rfl
        · simp [Request.body]

/-- The endpoint carries out the request, and answers it. -/
def Implements (req : Request) (endpoint : Endpoint Response) : Prop :=
  ∀ tr resp, Prog.Makes endpoint tr (.ret resp) ↔ Answers req tr resp

theorem handle_implements (req : Request) : Implements req (handle req) := by
  intro tr resp
  cases req with
  | sendStatus | stepOut | stepOver | stepIn | pause | continue_ =>
    exact returnCodeOf_answers rfl trivial fun _ => rfl
  | stackLocals stackFrame path queryParams =>
    exact handleVariables_answers rfl trivial fun r => by simp [Request.body]
  | setStackLocal stackFrame path setValueBody =>
    exact setStackLocal_answers stackFrame path setValueBody
  | stackGlobals path queryParams =>
    exact handleVariables_answers rfl trivial fun r => by simp [Request.body]
  | stackImmediate stackFrame queryParams immediateStrings =>
    exact stackImmediate_answers stackFrame queryParams immediateStrings
  | fileBreakpoints createBpRequest => exact fileBreakpoints_answers createBpRequest

/-! ## Main results -/

/-- **What an endpoint does.** The calls and the answer of an endpoint are those its
request stands for. -/
theorem handle_answers (req : Request) {tr : List (Command × Except Unwound Result)}
    {resp : Response} : Prog.Makes (handle req) tr (.ret resp) ↔ Answers req tr resp :=
  handle_implements req tr resp

end

end Sdb.L5
