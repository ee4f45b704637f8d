import Sdb.Core.Exec
import Sdb.L2Pause.Steps
import Sdb.L3Vm.Commands
import Sdb.L3Vm.Heap
import Sdb.L5Server.Controller

/-!
# Requests and the debugger

`serving` is the debugger with any number of requests, each on a thread of its own. A
step of it is a step of the debugger: a command that some endpoint gives, or anything
else (the script, its hook, a command of the host).

`ended` is how a step ends for the caller of the command: with the return code and the
written arguments, or with an exception. A data command's results are those of its part
on the VM.

* `serving_refines`: a run of the server is a run of the pause mechanism, in which each
  call of an endpoint is one step;
* `answered_truthfully`: whatever interleaves, a response tells what the debugger did
  for the request;
* `refusal_keeps_debugger`: a request that is answered with an error has changed nothing but,
  perhaps, the VM.
-/
namespace Sdb.L5

open Sdb.L1 Sdb.L2 Sdb.L3
open Sdb.Exec (Ends ends_trivial)

section
variable {H : Type} (api : SqApi H) (lib : CppLib) (r : Renderer H) (fuel : Nat)

/-! ## The debugger as a command interface -/

/-- A data command on the VM, with the arguments it writes to.
mirrors SquirrelDebugger.cpp:326-371, 441-621 -/
def dataResult : DataCall → VmM H (Except ReturnCode Result)
  | .getStackVariables stackFrame path pagination =>
    (Except.map fun variables_ => { code := .success, variables_ := variables_ }) <$>
      populateStackVariables api lib r fuel stackFrame path pagination
  | .getGlobalVariables path pagination =>
    (Except.map fun variables_ => { code := .success, variables_ := variables_ }) <$>
      populateGlobalVariables api lib r fuel path pagination
  | .setStackVariableValue stackFrame path newValueString =>
    (Except.map fun newValue => { code := .success, newValue := newValue }) <$>
      setStackVariableValue api lib r stackFrame path newValueString
  | .getImmediateValue stackFrame watch _ =>
    (Except.map fun value => { code := .success, value := value }) <$>
      getImmediateValue api r fuel stackFrame watch

/-- What a data command on the VM leaves when it returns. -/
def resultOf : Except ReturnCode Result → Result
  | .ok r => r
  | .error code => { code := code }

theorem returnCode_map {α β : Type} (f : α → β) (x : Except ReturnCode α) :
    returnCode (x.map f) = returnCode x := by
  cases x <;> rfl

/-- The results come with the return code of the command. -/
theorem dataCall_eq (call : DataCall) :
    dataCall api lib r fuel call = returnCode <$> dataResult api lib r fuel call := by
  cases call <;> simp [dataCall, dataResult, Functor.map_map, returnCode_map]

theorem resultOf_map {α : Type} {f : α → Result} (hf : ∀ a, (f a).code = .success)
    (x : Except ReturnCode α) : (resultOf (x.map f)).code = returnCode (x.map f) := by
  cases x with
  | ok a => exact hf a
  | error code => rfl

theorem dataResult_code {call : DataCall} {v t : SqVm H} {x : Except ReturnCode Result}
    (h : (dataResult api lib r fuel call).run v = .ok x t) :
    (resultOf x).code = returnCode x := by
  have hmap : ∀ {α : Type} (f : α → Result) (m : VmM H (Except ReturnCode α)),
      (∀ a, (f a).code = .success) → (Except.map f <$> m).run v = .ok x t →
        (resultOf x).code = returnCode x := by
    intro α f m hf hrun
    have hend : Ends (Except.map f <$> m) v
        (fun x _ => (resultOf x).code = returnCode x) fun _ _ => True :=
      .map ((ends_trivial m v).mono (fun x _ _ => resultOf_map hf x) fun _ _ _ => trivial)
    exact hend.ok hrun
  cases call <;> exact hmap _ _ (fun _ => rfl) h

/-- How the part of a data command on the VM ends. -/
def dataEnded (v : SqVm H) (call : DataCall) : Except Unwound Result :=
  match (dataResult api lib r fuel call).run v with
  | .ok x _ => .ok (resultOf x)
  | .error _ _ => .error .exception

end

def Command.act {V : Type} : Command → Act V
  | .pauseExecution => .pauseExecution
  | .resume c => .resume c
  | .sendStatus => .sendStatus
  | .data call => .data call
  | .setFileBreakpoints file createBps => .setFileBreakpoints file createBps

/-- The command of the interface that a step is. -/
def commandOf {V : Type} : Act V → Option Command
  | .pauseExecution => some .pauseExecution
  | .resume c => some (.resume c)
  | .sendStatus => some .sendStatus
  | .data call => some (.data call)
  | .setFileBreakpoints file createBps => some (.setFileBreakpoints file createBps)
  | _ => none

theorem commandOf_eq_some {V : Type} {a : Act V} {c : Command} :
    commandOf a = some c ↔ a = c.act := by
  constructor
  · intro h
    cases a <;> simp only [commandOf, Option.some.injEq, reduceCtorEq] at h <;> subst h <;> rfl
  · intro h
    subst h
    cases c <;> rfl

section
variable {H : Type} (api : SqApi H) (lib : CppLib) (fuel : Nat) (strToLower : Bytes → Bytes)
  (populateStack : SqVm H → List StackEntry)

/-- The debugger on the Squirrel VM. -/
abbrev access : VmAccess (SqVm H) := squirrelAccess api lib fuel strToLower populateStack

/-- How a command of the debugger ends for its caller. -/
def ended (s : L2.State (SqVm H)) (l : Lbl (SqVm H)) : Except Unwound Result :=
  match l.act, l.res with
  | .data call, .usedVm _ => dataEnded api lib (renderer api lib fuel) fuel s.script call
  | .setFileBreakpoints file createBps, .rc code =>
    .ok {
      code := code
      resolvedBps :=
        (setFileBreakpoints (access api lib fuel strToLower populateStack) s file createBps).2.2 }
  | _, .rc code => .ok { code := code }
  | _, _ => .ok { code := .success }

/-- The pause mechanism, each step with how it ended for its caller. -/
def debugger : LTS (L2.State (SqVm H)) (Lbl (SqVm H) × Except Unwound Result) where
  init := (lts (access api lib fuel strToLower populateStack)).init
  step s l s' := (lts (access api lib fuel strToLower populateStack)).step s l.1 s' ∧
    l.2 = ended api lib fuel strToLower populateStack s l.1

/-- The call of the interface that a step of the debugger is. -/
def callOf (l : Lbl (SqVm H) × Except Unwound Result) : Option (Command × Except Unwound Result) :=
  (commandOf l.1.act).map fun c => (c, l.2)

/-- The debugger with a request on each thread `i`. -/
def serving (I : Type) [DecidableEq I] :
    LTS (L2.State (SqVm H) × (I → Endpoint Response))
      ((Lbl (SqVm H) × Except Unwound Result) × Option I) :=
  (debugger api lib fuel strToLower populateStack).pool callOf fun ps =>
    ∃ reqs : I → Request, ps = fun i => handle (reqs i)

variable {api lib fuel strToLower populateStack}

theorem debugger_lts {s s' : L2.State (SqVm H)} {ls : List (Lbl (SqVm H) × Except Unwound Result)}
    (h : (debugger api lib fuel strToLower populateStack).Run s ls s') :
    (lts (access api lib fuel strToLower populateStack)).Run s (ls.map Prod.fst) s' := by
  induction h with
  | nil s => exact .nil s
  | cons hs _ ih => exact .cons hs.1 ih

theorem callOf_eq_some {l : Lbl (SqVm H) × Except Unwound Result} {c : Command}
    {x : Except Unwound Result} : callOf l = some (c, x) ↔ l.1.act = c.act ∧ l.2 = x := by
  unfold callOf
  rw [Option.map_eq_some_iff]
  constructor
  · intro h
    obtain ⟨c', hc, heq⟩ := h
    obtain ⟨rfl, rfl⟩ := Prod.mk.inj heq
    exact ⟨commandOf_eq_some.mp hc, rfl⟩
  · intro h
    exact ⟨c, commandOf_eq_some.mpr h.1, by rw [h.2]⟩

/-- What the step showed is the code the caller got. -/
def Shows (res : Res) (code : ReturnCode) : Prop :=
  match res with
  | .rc code' => code' = code
  | .usedVm code' => code' = some code
  | _ => code = .success

/-- A data command that used the VM shows how its part there ended. -/
theorem dataEnded_shows {s s' : L2.State (SqVm H)} {call : DataCall} {code : Option ReturnCode}
    {x : Result}
    (h : L2.exec (access api lib fuel strToLower populateStack) s (.data call) =
      some (s', .usedVm code))
    (he : dataEnded api lib (renderer api lib fuel) fuel s.script call = .ok x) :
    code = some x.code := by
  simp only [L2.exec, dataCommand] at h
  split at h
  · simp at h
  · simp only [Option.map_eq_some_iff, Prod.mk.injEq, Res.usedVm.injEq] at h
    obtain ⟨⟨v, code'⟩, hcall, -, rfl⟩ := h
    simp only [access, squirrelAccess, dataCall_eq] at hcall
    unfold dataEnded at he
    split at he
    · rename_i y t hrun
      obtain rfl := Except.ok.inj he
      have hcode : (returnCode <$> dataResult api lib (renderer api lib fuel) fuel call).run
          s.script = .ok (returnCode y) t := by
        show EStateM.map _ _ _ = _
        unfold EStateM.map
        rw [show dataResult api lib (renderer api lib fuel) fuel call s.script = .ok y t from hrun]
      rw [hcode] at hcall
      simp only [Option.some.injEq, Prod.mk.injEq] at hcall
      rw [← hcall.2, dataResult_code api lib _ fuel hrun]
    · cases he

/-- Only a data command uses the VM. -/
theorem not_usedVm {s s' : L2.State (SqVm H)} {c : Command} {code : Option ReturnCode}
    (h : L2.exec (access api lib fuel strToLower populateStack) s c.act = some (s', .usedVm code)) :
    ∃ call, c = .data call := by
  cases c with
  | data call => exact ⟨call, rfl⟩
  | sendStatus =>
    simp only [Command.act, L2.exec, L2.sendStatus, Option.some.injEq, Prod.mk.injEq] at h
    obtain ⟨-, h⟩ := h
    split at h <;> cases h
  | _ => simp [Command.act, L2.exec] at h

/-- The caller of a command gets the code of the step it is. -/
theorem ended_shows {s s' : L2.State (SqVm H)} {c : Command} {res : Res} {x : Result}
    (h : L2.exec (access api lib fuel strToLower populateStack) s c.act = some (s', res))
    (he : ended api lib fuel strToLower populateStack s ⟨c.act, res⟩ = .ok x) :
    Shows res x.code := by
  cases res with
  | usedVm code =>
    obtain ⟨call, rfl⟩ := not_usedVm h
    exact dataEnded_shows h he
  | rc code => cases c <;> exact (Except.ok.inj he) ▸ rfl
  | silent | sent _ | paused _ => cases c <;> exact (Except.ok.inj he) ▸ rfl

/-! ## Runs of the server -/

/-- The steps of the debugger in a run of the server. -/
def steps {I : Type} (ls : List ((Lbl (SqVm H) × Except Unwound Result) × Option I)) :
    List (Lbl (SqVm H)) := ls.map fun l => l.1.1

variable {I : Type} [DecidableEq I] {reqs : I → Request} {s₀ s : L2.State (SqVm H)}
  {ps₀ ps : I → Endpoint Response} {i : I} {resp : Response}
  {ls : List ((Lbl (SqVm H) × Except Unwound Result) × Option I)}

/-- A run of the server is a run of the pause mechanism. -/
theorem serving_refines
    (h : (serving api lib fuel strToLower populateStack I).Run (s₀, ps₀) ls (s, ps)) :
    (lts (access api lib fuel strToLower populateStack)).Run s₀ (steps ls) s := by
  have hrun := debugger_lts (LTS.pool_object h)
  rwa [List.map_map] at hrun

/-- The script and the host run on whatever the requests do. -/
theorem serving_run {s t : L2.State (SqVm H)} {ls : List (Lbl (SqVm H))}
    (h : (lts (access api lib fuel strToLower populateStack)).Run s ls t)
    (ps : I → Endpoint Response) :
    ∃ ls', steps ls' = ls ∧
      (serving api lib fuel strToLower populateStack I).Run (s, ps) ls' (t, ps) := by
  induction h with
  | nil s => exact ⟨[], rfl, .nil _⟩
  | @cons s t u l ls hs _ ih =>
    obtain ⟨ls', rfl, hr⟩ := ih
    exact ⟨((l, ended api lib fuel strToLower populateStack s l), none) :: ls', rfl,
      .cons (t := (t, ps)) ⟨⟨hs, rfl⟩, rfl⟩ hr⟩

/-- The call with this step beside it. -/
theorem call_step {c : Command} {x : Except Unwound Result}
    (h : (serving api lib fuel strToLower populateStack I).Run (s₀, ps₀) ls (s, ps))
    (hc : (c, x) ∈ LTS.made callOf i ls) :
    ∃ l₁ l l₂ t u, ls = l₁ ++ (l, some i) :: l₂ ∧ l.1.act = c.act ∧
      (lts (access api lib fuel strToLower populateStack)).Run s₀ (steps l₁) t ∧
      L2.exec (access api lib fuel strToLower populateStack) t c.act = some (u, l.1.res) ∧
      x = ended api lib fuel strToLower populateStack t ⟨c.act, l.1.res⟩ ∧
      (lts (access api lib fuel strToLower populateStack)).Run u (steps l₂) s := by
  obtain ⟨l₁, l, l₂, t, u, rfl, hcall, h₁, hs, h₂⟩ := LTS.pool_call h hc
  obtain ⟨⟨act, res⟩, x'⟩ := l
  obtain ⟨hact, hx⟩ := callOf_eq_some.mp hcall
  obtain ⟨hstep, hended⟩ := hs
  dsimp only at hact hx hended
  subst hact hx
  refine ⟨l₁, (⟨c.act, res⟩, x'), l₂, t, u, rfl, rfl, ?_, (lts_step _).mp hstep, hended, ?_⟩
  · have hrun := debugger_lts h₁
    rwa [List.map_map] at hrun
  · have hrun := debugger_lts h₂
    rwa [List.map_map] at hrun

/-- The calls of an answered request are those it stands for. -/
theorem run_answers
    (h : (serving api lib fuel strToLower populateStack I).Run
      (s₀, fun i => handle (reqs i)) ls (s, ps))
    (ha : ps i = .ret resp) : Answers (reqs i) (LTS.made callOf i ls) resp := by
  have hmakes : Prog.Makes (handle (reqs i)) (LTS.made callOf i ls) (ps i) := LTS.pool_makes h i
  rw [ha] at hmakes
  exact (handle_implements _ _ _).mp hmakes

/-- **A response tells what the debugger did.** However the steps of the requests and
of the script interleave, the calls of an answered request are those it stands for, up
to the first that failed; each was one step of the pause mechanism, whose code it got;
and the response is made of these codes and results. -/
theorem answered_truthfully
    (h : (serving api lib fuel strToLower populateStack I).Run
      (s₀, fun i => handle (reqs i)) ls (s, ps))
    (ha : ps i = .ret resp) :
    Answers (reqs i) (LTS.made callOf i ls) resp ∧
      ∀ c x, (c, .ok x) ∈ LTS.made callOf i ls →
        ∃ l₁ l l₂ t u, ls = l₁ ++ (l, some i) :: l₂ ∧
          (lts (access api lib fuel strToLower populateStack)).Run s₀ (steps l₁) t ∧
          L2.exec (access api lib fuel strToLower populateStack) t c.act = some (u, l.1.res) ∧
          Shows l.1.res x.code ∧
          (lts (access api lib fuel strToLower populateStack)).Run u (steps l₂) s := by
  refine ⟨run_answers h ha, fun c x hc => ?_⟩
  obtain ⟨l₁, l, l₂, t, u, hls, -, h₁, hex, hx, h₂⟩ := call_step h hc
  exact ⟨l₁, l, l₂, t, u, hls, h₁, hex, ended_shows hex hx.symm, h₂⟩

/-! ## Refused requests -/

/-- A command that is not a data command and fails changes nothing. -/
theorem failed_keeps {t u : L2.State (SqVm H)} {c : Command} {res : Res} {code : ReturnCode}
    (h : L2.exec (access api lib fuel strToLower populateStack) t c.act = some (u, res))
    (hshows : Shows res code) (hcode : code ≠ .success) (hc : ∀ call, c ≠ .data call) :
    u = t := by
  cases c with
  | data call => exact absurd rfl (hc call)
  | sendStatus =>
    simp only [Command.act, L2.exec, Option.some.injEq, Prod.mk.injEq] at h
    exact h.1.symm
  | pauseExecution =>
    simp only [Command.act, L2.exec, Option.some.injEq, Prod.mk.injEq] at h
    obtain ⟨-, rfl⟩ := h
    have hsuccess : (L2.pauseExecution t).2 = .success := by
      unfold L2.pauseExecution
      split <;> rfl
    exact absurd (hsuccess.symm.trans hshows).symm hcode
  | resume c =>
    simp only [Command.act, L2.exec, Option.some.injEq, Prod.mk.injEq] at h
    obtain ⟨rfl, rfl⟩ := h
    have hrefused : ¬ Accepts t c := fun hacc =>
      hcode (hshows.symm.trans (resume_success_iff.mpr hacc))
    rw [resume_refused hrefused]
  | setFileBreakpoints file bps =>
    simp only [Command.act, L2.exec, Option.some.injEq, Prod.mk.injEq] at h
    obtain ⟨rfl, rfl⟩ := h
    unfold L2.setFileBreakpoints at hshows ⊢
    cases hres : resolve bps with
    | mk found resolved =>
      cases found with
      | none => simp
      | some found =>
        rw [hres] at hshows
        exact absurd hshows.symm hcode

theorem Carried.mem {complete : Prop} {cs : List Command} {rs : List (Command × Result)}
    {rc : ReturnCode} (h : Carried complete cs rs rc) : ∀ p ∈ rs, p.1 ∈ cs := by
  induction h with
  | done _ => simp
  | failed _ => simp
  | next _ _ ih =>
    intro p hp
    rcases List.mem_cons.mp hp with rfl | hp
    · exact List.mem_cons_self
    · exact List.mem_cons_of_mem _ (ih p hp)

/-- A request stands for data commands or for one other command. -/
theorem commands_kinds {req : Request} {cs : List Command} (h : req.commands = some cs) :
    (∀ c ∈ cs, ∃ call, c = .data call) ∨ ∃ c, cs = [c] ∧ ∀ call, c ≠ .data call := by
  cases req with
  | sendStatus | stepOut | stepOver | stepIn | pause | continue_ =>
    obtain rfl := Option.some.inj h
    exact .inr ⟨_, rfl, by simp⟩
  | stackLocals stackFrame path queryParams | stackGlobals path queryParams =>
    obtain ⟨pagination, -, rfl⟩ := Option.map_eq_some_iff.mp h
    exact .inl (by simp)
  | setStackLocal stackFrame path setValueBody =>
    obtain rfl := Option.some.inj h
    refine .inl fun c hc => ?_
    obtain ⟨value, -, rfl⟩ := List.mem_map.mp hc
    exact ⟨_, rfl⟩
  | stackImmediate stackFrame queryParams immediateStrings =>
    obtain ⟨pagination, -, rfl⟩ := Option.map_eq_some_iff.mp h
    refine .inl fun c hc => ?_
    obtain ⟨watch, -, rfl⟩ := mem_watchCommands hc
    exact ⟨_, rfl⟩
  | fileBreakpoints createBpRequest =>
    obtain rfl := Option.some.inj h
    cases createBpRequest.read with
    | none => exact .inl (by simp)
    | some p => exact .inr ⟨_, rfl, by simp⟩

theorem Carried.failed_single {complete : Prop} {c : Command} {rs : List (Command × Result)}
    {rc : ReturnCode} (h : Carried complete [c] rs rc) (hrc : rc ≠ .success) :
    ∃ r, rs = [(c, r)] ∧ r.code = rc := by
  cases h with
  | failed _ => exact ⟨_, rfl, rfl⟩
  | next _ h =>
    obtain _ | _ | _ := h
    exact absurd rfl hrc

/-- **A refused request changes nothing.** When a request has been answered with an
error status, none of its steps changed the debugger; only the commands on the VM may
have changed the VM. -/
theorem refusal_keeps_debugger {l₁ l₂ : List ((Lbl (SqVm H) × Except Unwound Result) × Option I)}
    {l : Lbl (SqVm H) × Except Unwound Result} {t u : L2.State (SqVm H)}
    {ps₁ ps₂ : I → Endpoint Response}
    (h : (serving api lib fuel strToLower populateStack I).Run
      (s₀, fun i => handle (reqs i)) (l₁ ++ (l, some i) :: l₂) (s, ps))
    (ha : ps i = .ret resp) (hstatus : resp.status ≠ 200)
    (hstep : (serving api lib fuel strToLower populateStack I).step (t, ps₁) (l, some i) (u, ps₂)) :
    u = { t with script := u.script } ∧ ((∀ call, l.1.act ≠ .data call) → u = t) := by
  have hans := run_answers h ha
  obtain ⟨c, x, hcall, hmade⟩ := LTS.pool_answer h (l := l) (i := i) (by simp)
  obtain ⟨⟨hlts, hended⟩, -⟩ := hstep
  obtain ⟨⟨act, res⟩, x'⟩ := l
  obtain ⟨hact, hx⟩ := callOf_eq_some.mp hcall
  dsimp only at hact hx hended hlts
  subst hact hx
  have hex := (lts_step _).mp hlts
  generalize LTS.made callOf i (l₁ ++ ((⟨c.act, res⟩, x'), some i) :: l₂) = tr at hans hmade
  cases hans with
  | rejected _ => cases hmade
  | carried _ _ => exact absurd rfl hstatus
  | @failed cs rs rc hcs hcar hrc =>
    obtain ⟨⟨c', r⟩, hr, heq⟩ := List.mem_map.mp hmade
    obtain ⟨rfl, rfl⟩ := Prod.mk.inj heq
    rcases commands_kinds hcs with hdata | ⟨c', rfl, hother⟩
    · obtain ⟨call, rfl⟩ := hdata _ (hcar.mem _ hr)
      obtain ⟨v, rfl⟩ := dataCommand_script _ hex
      exact ⟨rfl, fun hnot => absurd rfl (hnot call)⟩
    · obtain ⟨r', rfl, rfl⟩ := hcar.failed_single hrc
      obtain ⟨rfl, rfl⟩ := Prod.mk.inj (List.mem_singleton.mp hr)
      obtain rfl := failed_keeps hex (ended_shows hex hended.symm) hrc hother
      exact ⟨rfl, fun _ => rfl⟩

end

/-! ## Two requests -/

/-- `PUT Pause` on one thread, `GET Variables/Local/0` on another. -/
def twoRequests : Bool → Request
  | false => .pause
  | true => .stackLocals 0 [] fun _ => none

/-- The call of `PUT Pause`. -/
def pauseCall : Lbl (SqVm Heap) × Except Unwound Result :=
  (⟨.pauseExecution, .rc .success⟩, .ok {})

/-- The call of `GET Variables/Local/0`, before the script has stopped. -/
def localsCall : Lbl (SqVm Heap) × Except Unwound Result :=
  (⟨.data (.getStackVariables 0 [] ⟨0, 100⟩), .rc .invalidNotPaused⟩,
    .ok { code := .invalidNotPaused })

/-- An empty VM, to which nothing is attached. -/
def emptyVm : L2.State (SqVm Heap) := fresh true { stack := [], heap := {} }

/-- After the first of the two calls. -/
def oneAnswer : Bool → Endpoint Response :=
  Function.update (fun i => handle (twoRequests i)) false (.ret (okResponse .commandMessage))

/-- After the second. -/
def twoAnswers : Bool → Endpoint Response :=
  Function.update oneAnswer true (.ret ⟨400, 101, .commandMessage⟩)

theorem localsCall_step :
    (serving heapApi insertionLib 0 id (fun _ => []) Bool).step
      ((L2.pauseExecution emptyVm).1, oneAnswer) (localsCall, some true)
      ((L2.pauseExecution emptyVm).1, twoAnswers) :=
  ⟨⟨(lts_step _).mpr rfl, rfl⟩, .data (.getStackVariables 0 [] ⟨0, 100⟩), _,
    .ok { code := .invalidNotPaused }, rfl, rfl, rfl⟩

theorem twoRequests_run :
    (serving heapApi insertionLib 0 id (fun _ => []) Bool).Run
      (emptyVm, fun i => handle (twoRequests i)) [(pauseCall, some false), (localsCall, some true)]
      ((L2.pauseExecution emptyVm).1, twoAnswers) := by
  refine .cons (t := ((L2.pauseExecution emptyVm).1, oneAnswer)) ?_
    (.cons localsCall_step (.nil _))
  exact ⟨⟨(lts_step _).mpr rfl, rfl⟩, .pauseExecution, _, .ok {}, rfl, rfl, rfl⟩

theorem answered_truthfully_twoRequests :
    Answers (twoRequests true)
      [(.data (.getStackVariables 0 [] ⟨0, 100⟩), .ok { code := .invalidNotPaused })]
      ⟨400, 101, .commandMessage⟩ :=
  (answered_truthfully twoRequests_run (i := true) rfl).1

theorem refusal_keeps_debugger_twoRequests :
    ((L2.pauseExecution emptyVm).1 : L2.State (SqVm Heap)) =
      { (L2.pauseExecution emptyVm).1 with
        script := (L2.pauseExecution emptyVm).1.script } := by
  have hrun : (serving heapApi insertionLib 0 id (fun _ => []) Bool).Run
      (emptyVm, fun i => handle (twoRequests i))
      ([(pauseCall, some false)] ++ (localsCall, some true) :: [])
      ((L2.pauseExecution emptyVm).1, twoAnswers) := twoRequests_run
  exact (refusal_keeps_debugger hrun rfl (by decide) localsCall_step).1

end Sdb.L5
