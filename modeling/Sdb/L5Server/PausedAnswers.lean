import Sdb.L2Pause.Exact
import Sdb.L2Pause.Held
import Sdb.L2Pause.Wakeup
import Sdb.L4Display.VmCodes
import Sdb.L5Server.Requests

/-!
# Answers of a paused and of a running script

A client is answered `InvalidNotPaused`, or it is answered with values of the script's
VM. The first says that the script was not stopped at some call of the request; the
second that it was, at all of them.

* `notPaused_iff`: with a listener that returns and no detach, a request that needs a
  paused VM is answered `InvalidNotPaused` exactly when one of its commands met a VM
  thread outside the wait;
* `watches_of_one_pause`: the values of a list of watches are those of one moment of the
  script, unless a resume command, a detach or a spurious wakeup came between.
-/
namespace Sdb.L5

open Sdb.L1 Sdb.L2 Sdb.L3 Sdb.L4

/-- The commands that only a paused VM carries out. -/
def Command.NeedsPause : Command → Prop
  | .data _ => True
  | .resume c => c ≠ .continueExecution
  | _ => False

/-- The requests for such commands. -/
def Request.NeedsPause : Request → Prop
  | .sendStatus | .pause | .continue_ | .fileBreakpoints _ => False
  | _ => True

theorem needsPause_commands {req : Request} {cs : List Command} (hn : req.NeedsPause)
    (h : req.commands = some cs) : ∀ c ∈ cs, c.NeedsPause := by
  cases req with
  | sendStatus | pause | continue_ | fileBreakpoints _ => exact hn.elim
  | stepOut | stepOver | stepIn =>
    obtain rfl := Option.some.inj h
    simp [Command.NeedsPause]
  | stackLocals stackFrame path queryParams | stackGlobals path queryParams =>
    obtain ⟨pagination, -, rfl⟩ := Option.map_eq_some_iff.mp h
    simp [Command.NeedsPause]
  | setStackLocal stackFrame path setValueBody =>
    obtain rfl := Option.some.inj h
    intro c hc
    obtain ⟨value, -, rfl⟩ := List.mem_map.mp hc
    trivial
  | stackImmediate stackFrame queryParams immediateStrings =>
    obtain ⟨pagination, -, rfl⟩ := Option.map_eq_some_iff.mp h
    intro c hc
    obtain ⟨watch, -, rfl⟩ := mem_watchCommands hc
    trivial

/-! ## One command -/

section
variable {H : Type} {api : SqApi H} {lib : CppLib} {fuel : Nat} {strToLower : Bytes → Bytes}
  {populateStack : SqVm H → List StackEntry}

/-- A command's code is `InvalidNotPaused` exactly when the pause flag is down. -/
theorem notPaused_step {s u : L2.State (SqVm H)} {c : Command} {res : Res} {code : ReturnCode}
    (h : L2.exec (access api lib fuel strToLower populateStack) s c.act = some (u, res))
    (hc : c.NeedsPause) (hshows : Shows res code) :
    code = .invalidNotPaused ↔ s.pauseMutexData.isPaused = false ∧
      Parses (access api lib fuel strToLower populateStack) c.act := by
  cases c with
  | data call =>
    show _ ↔ _ ∧ Parses _ (.data call)
    rw [← refused_notPaused]
    simp only [Command.act, L2.exec, dataCommand] at h
    cases hr : refused (access api lib fuel strToLower populateStack) s call with
    | some code' =>
      simp only [hr, Option.some.injEq, Prod.mk.injEq] at h
      obtain ⟨-, rfl⟩ := h
      obtain rfl : code' = code := hshows
      simp
    | none =>
      simp only [hr, Option.map_eq_some_iff, Prod.mk.injEq] at h
      obtain ⟨⟨v, code'⟩, hcall, -, rfl⟩ := h
      obtain rfl : code' = some code := hshows
      have hcodes := call_codes hcall
      refine iff_of_false (fun hcode => ?_) (by simp)
      subst hcode
      simp [CodeOnVm, FailsOnVm] at hcodes
  | resume c =>
    simp only [Command.act, L2.exec, Option.some.injEq, Prod.mk.injEq] at h
    obtain ⟨-, rfl⟩ := h
    obtain rfl : (L2.resume s c).2 = code := hshows
    have hacc : Accepts s c ↔ s.pauseMutexData.isPaused = true := by
      cases c with
      | continueExecution => exact absurd rfl hc
      | _ => rfl
    by_cases hp : s.pauseMutexData.isPaused = true
    · simp [resume_accepted (hacc.mpr hp), hp]
    · rw [resume_refused (fun h => hp (hacc.mp h))]
      simp [hp, Parses, Command.act]
  | _ => exact hc.elim

/-! ## The state a command met -/

variable {I : Type} [DecidableEq I] {reqs : I → Request}
  {s₀ s : L2.State (SqVm H)} {ps₀ ps : I → Endpoint Response} {i : I} {resp : Response}
  {ls : List ((Lbl (SqVm H) × Except Unwound Result) × Option I)}

/-- A step of a run that belongs to a request, from the state it was taken in. -/
theorem step_at {l₁ l₂ : List ((Lbl (SqVm H) × Except Unwound Result) × Option I)}
    {l : Lbl (SqVm H) × Except Unwound Result} {t : L2.State (SqVm H)}
    (h : (serving api lib fuel strToLower populateStack I).Run (s₀, ps₀)
      (l₁ ++ (l, some i) :: l₂) (s, ps))
    (ht : (lts (access api lib fuel strToLower populateStack)).Run s₀ (steps l₁) t) :
    ∃ c u, l.1.act = c.act ∧ (c, l.2) ∈ LTS.made callOf i (l₁ ++ (l, some i) :: l₂) ∧
      L2.exec (access api lib fuel strToLower populateStack) t c.act = some (u, l.1.res) ∧
      l.2 = ended api lib fuel strToLower populateStack t l.1 := by
  obtain ⟨c, x, hcall, hmade⟩ := LTS.pool_answer h (l := l) (i := i) (by simp)
  obtain ⟨hact, rfl⟩ := callOf_eq_some.mp hcall
  obtain ⟨⟨t', ps₁⟩, h₁, h₂⟩ := h.split
  obtain rfl := ht.unique (lts_functional _) (serving_refines h₁)
  obtain _ | ⟨hs, -⟩ := h₂
  obtain ⟨⟨hlts, hended⟩, -⟩ := hs
  have hex := (lts_step _).mp hlts
  rw [hact] at hex
  exact ⟨c, _, hact, hmade, hex, hended⟩

/-- Among the calls of an answered request only the last can fail, with the code of the
answer. -/
theorem Carried.failed_code {complete : Prop} {cs : List Command}
    {rs : List (Command × Result)} {rc : ReturnCode} (h : Carried complete cs rs rc)
    {p : Command × Result} (hp : p ∈ rs) (hcode : p.2.code ≠ .success) : p.2.code = rc := by
  induction h with
  | done _ => cases hp
  | failed _ =>
    obtain rfl := List.mem_singleton.mp hp
    rfl
  | next hr _ ih =>
    rcases List.mem_cons.mp hp with rfl | hp
    · exact absurd hr hcode
    · exact ih hp

/-- The answer is a failure exactly when a call of the request failed so. -/
theorem Carried.failed_iff {complete : Prop} {cs : List Command}
    {rs : List (Command × Result)} {rc code : ReturnCode} (h : Carried complete cs rs rc)
    (hcode : code ≠ .success) : rc = code ↔ ∃ p ∈ rs, p.2.code = code := by
  constructor
  · intro hrc
    subst hrc
    induction h with
    | done _ => exact absurd rfl hcode
    | failed _ => exact ⟨_, List.mem_cons_self, rfl⟩
    | next _ _ ih =>
      obtain ⟨p, hp, hcode'⟩ := ih hcode
      exact ⟨p, List.mem_cons_of_mem _ hp, hcode'⟩
  · intro hp
    obtain ⟨p, hp, rfl⟩ := hp
    exact (h.failed_code hp hcode).symm

/-- The same for the response. -/
theorem Answers.failed_iff {req : Request} {tr : List (Command × Except Unwound Result)}
    (h : Answers req tr resp) :
    resp.code = returnCodeValue .invalidNotPaused ↔
      ∃ c r, (c, .ok r) ∈ tr ∧ r.code = .invalidNotPaused := by
  have hmem : ∀ {rs : List (Command × Result)},
      (∃ p ∈ rs, p.2.code = .invalidNotPaused) ↔
        ∃ c r, (c, .ok r) ∈ returned rs ∧ r.code = .invalidNotPaused := by
    intro rs
    simp [returned]
  cases h with
  | rejected _ => exact iff_of_false (by decide) (by simp)
  | carried _ hcar =>
    rw [← hmem, ← hcar.failed_iff (by simp)]
    exact iff_of_false (by simp [okResponse, returnCodeValue]) (by simp)
  | failed _ hcar hrc =>
    rw [← hmem, ← hcar.failed_iff (by simp), createReturnCodeResponse_failed hrc]
    exact ⟨returnCodeValue_inj, congrArg returnCodeValue⟩

/-- The calls of an answered request that needs a paused VM. -/
theorem Answers.needsPause {req : Request} {tr : List (Command × Except Unwound Result)}
    {c : Command} {x : Except Unwound Result} (h : Answers req tr resp) (hn : req.NeedsPause)
    (hc : (c, x) ∈ tr) : c.NeedsPause ∧ ∃ r, x = .ok r := by
  have hreturned : ∀ {cs rs rc}, req.commands = some cs → Carried req.Complete cs rs rc →
      (c, x) ∈ returned rs → c.NeedsPause ∧ ∃ r, x = .ok r := by
    intro cs rs rc hcs hcar hmem
    obtain ⟨⟨c', r⟩, hr, heq⟩ := List.mem_map.mp hmem
    obtain ⟨rfl, rfl⟩ := Prod.mk.inj heq
    exact ⟨needsPause_commands hn hcs _ (hcar.mem _ hr), r, rfl⟩
  cases h with
  | rejected _ => cases hc
  | carried hcs hcar => exact hreturned hcs hcar hc
  | failed hcs hcar _ => exact hreturned hcs hcar hc

/-- The pause flag of a run without detaches, with a listener that returns. -/
theorem held_run {t : L2.State (SqVm H)} {ls : List (Lbl (SqVm H))}
    (hi : (lts (access api lib fuel strToLower populateStack)).init s₀)
    (h : (lts (access api lib fuel strToLower populateStack)).Run s₀ ls t)
    (hatt : ∀ l ∈ ls, l.act.Attended) : Held t := by
  have hr : (attended (access api lib fuel strToLower populateStack)).Run s₀ ls t :=
    h.restrict fun l₁ l l₂ _ hls _ => hatt l (by simp [hls])
  have hheld := held_inductive (access api lib fuel strToLower populateStack)
  exact hheld.run hr (hheld.init s₀ hi)

omit [DecidableEq I] in
theorem attended_before {l₁ l₂ : List ((Lbl (SqVm H) × Except Unwound Result) × Option I)}
    {l : (Lbl (SqVm H) × Except Unwound Result) × Option I} (hls : ls = l₁ ++ l :: l₂)
    (hatt : ∀ l ∈ steps ls, l.act.Attended) : ∀ l ∈ steps l₁, l.act.Attended := by
  intro l' hl'
  subst hls
  apply hatt
  rw [steps, List.map_append]
  exact List.mem_append_left _ hl'

/-! ## Main results -/

/-- **`InvalidNotPaused` tells the truth.** Take a run in which no VM is detached and the
listener returns. A request that needs a paused VM is answered `InvalidNotPaused` exactly
when one of its commands, its watch parsing where it has one, met a VM thread that was
not in the wait. -/
theorem notPaused_iff
    (hi : (lts (access api lib fuel strToLower populateStack)).init s₀)
    (h : (serving api lib fuel strToLower populateStack I).Run
      (s₀, fun i => handle (reqs i)) ls (s, ps))
    (hatt : ∀ l ∈ steps ls, l.act.Attended) (hn : (reqs i).NeedsPause) (ha : ps i = .ret resp) :
    resp.code = returnCodeValue .invalidNotPaused ↔
      ∃ l₁ l l₂ t, ls = l₁ ++ (l, some i) :: l₂ ∧
        (lts (access api lib fuel strToLower populateStack)).Run s₀ (steps l₁) t ∧
        Parses (access api lib fuel strToLower populateStack) l.1.act ∧
        ∀ n, t.thread ≠ .waiting n := by
  have hans := run_answers h ha
  rw [hans.failed_iff]
  constructor
  · intro hfailed
    obtain ⟨c, r, hc, hcode⟩ := hfailed
    obtain ⟨hneeds, -⟩ := hans.needsPause hn hc
    obtain ⟨l₁, l, l₂, t, u, hls, hact, ht, hex, hended, -⟩ := call_step h hc
    have hstep := (notPaused_step hex hneeds (ended_shows hex hended.symm)).mp hcode
    have hheld := held_run hi ht (attended_before hls hatt)
    refine ⟨l₁, l, l₂, t, hls, ht, by rw [hact]; exact hstep.2, fun n hw => ?_⟩
    rw [hheld.mpr ⟨n, hw⟩] at hstep
    cases hstep.1
  · intro hmet
    obtain ⟨l₁, l, l₂, t, rfl, ht, hparses, hw⟩ := hmet
    obtain ⟨c, u, hact, hc, hex, hended⟩ := step_at h ht
    obtain ⟨hneeds, r, hr⟩ := hans.needsPause hn hc
    obtain ⟨⟨act, res⟩, x⟩ := l
    dsimp only at hact hc hex hended hparses hr
    subst hact hr
    have hheld := held_run hi ht (attended_before rfl hatt)
    exact ⟨c, r, hc, (notPaused_step hex hneeds (ended_shows hex hended.symm)).mpr
      ⟨hheld.not_paused hw, hparses⟩⟩

/-! ## Watch lists -/

/-- A data command that succeeded used the VM, and found the pause flag up. -/
theorem succeeded_paused {t u : L2.State (SqVm H)} {call : DataCall} {code : ReturnCode}
    {res : Res}
    (h : L2.exec (access api lib fuel strToLower populateStack) t (.data call) = some (u, res))
    (hshows : Shows res code) (hcode : code = .success) :
    t.pauseMutexData.isPaused = true ∧ res = .usedVm (some .success) := by
  subst hcode
  simp only [L2.exec, dataCommand] at h
  split at h
  · rename_i code' hr
    obtain ⟨-, rfl⟩ := Prod.mk.inj (Option.some.inj h)
    exact absurd hshows (refused_failed _ hr)
  · rename_i hr
    simp only [Option.map_eq_some_iff, Prod.mk.injEq] at h
    obtain ⟨⟨v, code'⟩, -, -, rfl⟩ := h
    obtain rfl : code' = some .success := hshows
    refine ⟨?_, rfl⟩
    by_contra hp
    exact refused_running _ (Bool.eq_false_iff.mpr hp) hr

/-- A call of a list of watches that was answered with values. -/
theorem watch_at {stackFrame : Int32} {queryParams : QueryParams}
    {immediateStrings : List (Option Bytes)} {tr : List (Command × Except Unwound Result)}
    {c : Command} {x : Except Unwound Result}
    (h : Answers (.stackImmediate stackFrame queryParams immediateStrings) tr resp)
    (h200 : resp.status = 200) (hc : (c, x) ∈ tr) :
    ∃ watch pagination r, c = .data (.getImmediateValue stackFrame watch pagination) ∧
      x = .ok r ∧ r.code = .success := by
  cases h with
  | rejected _ => cases hc
  | failed _ _ hrc =>
    rw [createReturnCodeResponse_failed hrc] at h200
    dsimp only at h200
    split at h200 <;> cases h200
  | carried hcs hcar =>
    obtain ⟨pagination, -, rfl⟩ := Option.map_eq_some_iff.mp hcs
    obtain ⟨⟨c', r⟩, hr, heq⟩ := List.mem_map.mp hc
    obtain ⟨rfl, rfl⟩ := Prod.mk.inj heq
    obtain ⟨watch, -, rfl⟩ := mem_watchCommands (hcar.mem _ hr)
    exact ⟨watch, pagination, r, rfl, rfl, (hcar.success rfl).2.2 _ hr⟩

/-- A wait that nobody ends goes on. -/
theorem still_waiting {V : Type} {vm : VmAccess V} {t u : L2.State V} {ls : List (Lbl V)}
    (h : ((lts vm).restrict WakesNotified).Run t ls u) (ha : Armed t)
    (ht : t.thread = .waiting false) (hquiet : ∀ l ∈ ls, ¬ l.TakesEffect) :
    u.thread = .waiting false ∧ ∀ l ∈ ls, l.act ≠ .wake := by
  induction h with
  | nil => exact ⟨ht, by simp⟩
  | @cons t t' u l ls hs _ ih =>
    have hw : l.act ≠ .wake := by
      intro hwake
      have hn := hs.2 hwake
      rw [ht] at hn
      cases hn
    obtain ⟨m, hm, hiff⟩ := notified_step vm ha ht hs.1 hw
    have hm' : m = false := by
      rw [Bool.eq_false_iff]
      intro hm'
      rcases hiff.mp hm' with hn | heff
      · cases hn
      · exact hquiet l List.mem_cons_self heff
    subst hm'
    obtain ⟨hu, hrest⟩ := ih ((armed_inductive vm).step t l t' ha hs.1) hm
      fun l' hl' => hquiet l' (List.mem_cons_of_mem _ hl')
    exact ⟨hu, List.forall_mem_cons.mpr ⟨hw, hrest⟩⟩

/-- **The values of a watch list belong together.** Two calls of a request for watches
that was answered with values: if the pause of the first had not been ended by then, and
nothing takes effect up to the second, then the second call met the VM of the first after
nothing but the data commands in between. -/
theorem watches_of_one_pause {stackFrame : Int32} {queryParams : QueryParams}
    {immediateStrings : List (Option Bytes)}
    {l₀ l₁ l₂ : List ((Lbl (SqVm H) × Except Unwound Result) × Option I)}
    {a b : Lbl (SqVm H) × Except Unwound Result} {t u : L2.State (SqVm H)}
    (hreq : reqs i = .stackImmediate stackFrame queryParams immediateStrings)
    (hi : (lts (access api lib fuel strToLower populateStack)).init s₀)
    (h : (serving api lib fuel strToLower populateStack I).Run
      (s₀, fun i => handle (reqs i)) (l₀ ++ (a, some i) :: (l₁ ++ (b, some i) :: l₂)) (s, ps))
    (hl : ∀ l ∈ steps l₀, l.act.ListenerReturns) (ha : ps i = .ret resp)
    (h200 : resp.status = 200)
    (ht : (lts (access api lib fuel strToLower populateStack)).Run s₀ (steps l₀) t)
    (hu : ((lts (access api lib fuel strToLower populateStack)).restrict WakesNotified).Run t
      (steps ((a, some i) :: l₁)) u)
    (hnot : t.thread ≠ .waiting true) (hquiet : ∀ l ∈ steps ((a, some i) :: l₁), ¬ l.TakesEffect) :
    ∃ first second r r', a.1.act = .data first ∧ b.1.act = .data second ∧
      dataEnded api lib (renderer api lib fuel) fuel t.script first = .ok r ∧
      dataEnded api lib (renderer api lib fuel) fuel u.script second = .ok r' ∧
      afterCalls (access api lib fuel strToLower populateStack) t.script
        (usedCalls (steps ((a, some i) :: l₁))) = some u.script := by
  have hans := run_answers h ha
  rw [hreq] at hans
  have hsteps : steps (l₀ ++ (a, some i) :: l₁) = steps l₀ ++ steps ((a, some i) :: l₁) :=
    List.map_append
  have hcall : ∀ {l : Lbl (SqVm H) × Except Unwound Result}
      {k k' : List ((Lbl (SqVm H) × Except Unwound Result) × Option I)} {v : L2.State (SqVm H)},
      l₀ ++ (a, some i) :: (l₁ ++ (b, some i) :: l₂) = k ++ (l, some i) :: k' →
      (lts (access api lib fuel strToLower populateStack)).Run s₀ (steps k) v →
      ∃ call r, l.1.act = .data call ∧ v.pauseMutexData.isPaused = true ∧
        dataEnded api lib (renderer api lib fuel) fuel v.script call = .ok r := by
    intro l k k' v hk hv
    obtain ⟨c, w, hact, hc, hex, hended⟩ := step_at (hk ▸ h) hv
    rw [← hk] at hc
    obtain ⟨watch, pagination, r, rfl, hr, hcode⟩ := watch_at hans h200 hc
    obtain ⟨⟨act, res⟩, x⟩ := l
    dsimp only at hact hended hr hex
    subst hact hr
    obtain ⟨hp, rfl⟩ := succeeded_paused hex (ended_shows hex hended.symm) hcode
    exact ⟨_, r, rfl, hp, hended.symm⟩
  obtain ⟨first, r, hfirst, hp, hr⟩ := hcall rfl ht
  obtain ⟨second, r', hsecond, -, hr'⟩ :=
    hcall (k := l₀ ++ (a, some i) :: l₁) (by rw [List.append_assoc]; rfl)
      (hsteps ▸ ht.append hu.of_restrict)
  refine ⟨first, second, r, r', hfirst, hsecond, hr, hr', ?_⟩
  -- the first call found the VM thread in a wait that nobody has ended
  have hpause : PauseInv t := by
    have hinv := pauseInv_inductive (access api lib fuel strToLower populateStack)
    exact hinv.run (ht.restrict fun k l k' _ hk _ => hl l (by simp [hk])) (hinv.init s₀ hi)
  have harmed : Armed t := by
    have hinv := armed_inductive (access api lib fuel strToLower populateStack)
    exact hinv.run ht (hinv.init s₀ hi)
  obtain ⟨n, hn⟩ : ∃ n, t.thread = .waiting n := by
    by_contra hnone
    rw [hpause.not_paused fun n hn => hnone ⟨n, hn⟩] at hp
    cases hp
  obtain rfl : n = false := by
    cases n with
    | false => rfl
    | true => exact absurd hn hnot
  exact script_run _ hu.of_restrict hn (still_waiting hu harmed hn hquiet).2

end

/-- Before the script has stopped, its locals are asked for. -/
theorem notPaused_iff_twoRequests :
    ∃ l₁ l l₂ t, [(pauseCall, some false), (localsCall, some true)] = l₁ ++ (l, some true) :: l₂ ∧
      (lts (access heapApi insertionLib 0 id fun _ => [])).Run emptyVm (steps l₁) t ∧
      Parses (access heapApi insertionLib 0 id fun _ => []) l.1.act ∧
      ∀ n, t.thread ≠ .waiting n :=
  (notPaused_iff (i := true) ⟨_, _, rfl⟩ twoRequests_run
    (by simp [steps, pauseCall, localsCall, Act.Attended, Act.ListenerReturns]) trivial rfl).mp rfl

/-- The Squirrel VM answers the watch `1`, in no frame. -/
theorem answering_access {H : Type} (api : SqApi H) (lib : CppLib) (fuel : Nat)
    (strToLower : Bytes → Bytes) (populateStack : SqVm H → List StackEntry) :
    Answering (access api lib (fuel + 2) strToLower populateStack) :=
  fun _ => ⟨-1, [49], ⟨0, 0⟩, rfl, rfl⟩

/-! ## Two watches -/

/-- The watch `1`, in no frame. -/
def watchOne : DataCall := .getImmediateValue (-1) [49] ⟨0, 100⟩

/-- A request for it twice. -/
def twoWatches : Unit → Request :=
  fun _ => .stackImmediate (-1) (fun _ => none) [some [49], some [49]]

abbrev heapAccess : VmAccess (SqVm Heap) := access heapApi insertionLib 4 id fun _ => []

/-- Attach, request a pause, call a function, reach line 5. -/
def heapPauseActs : List (Act (SqVm Heap)) :=
  [.addVm 1, .pauseExecution, .hook (.c nameA 1), .hookNext false, .hookNext false,
    .hook (.l 5), .hookNext false, .hookNext false]

def heldVm : L2.State (SqVm Heap) := (runActs heapAccess emptyVm heapPauseActs).getD emptyVm

theorem heldVm_run : ∃ ls, ls.map Lbl.act = heapPauseActs ∧
    (ltsReturns heapAccess).Run emptyVm ls heldVm :=
  run_of_runActs heapAccess rfl (by simp [heapPauseActs, Act.ListenerReturns])

/-- The call of each of the two. -/
def watchCall : Lbl (SqVm Heap) × Except Unwound Result :=
  (⟨.data watchOne, .usedVm (some .success)⟩,
    dataEnded heapApi insertionLib (renderer heapApi insertionLib 4) 4 emptyVm.script watchOne)

def afterWatch (ps : Unit → Endpoint Response) : Unit → Endpoint Response := fun u =>
  match ps u with
  | .call _ k => Prog.resume k watchCall.2
  | p => p

theorem watchCall_step (ps : Unit → Endpoint Response)
    (h : ∃ k, ps () = .call (.data watchOne) k) :
    (serving heapApi insertionLib 4 id (fun _ => []) Unit).step (heldVm, ps)
      (watchCall, some ()) (heldVm, afterWatch ps) := by
  obtain ⟨k, hk⟩ := h
  refine ⟨⟨(lts_step _).mpr rfl, rfl⟩, .data watchOne, k, watchCall.2, rfl, hk, ?_⟩
  funext u
  simp [afterWatch, hk]

theorem watches_of_one_pause_twoWatches : ∃ first second r r',
    watchCall.1.act = .data first ∧ watchCall.1.act = .data second ∧
      dataEnded heapApi insertionLib (renderer heapApi insertionLib 4) 4 heldVm.script first =
        .ok r ∧
      dataEnded heapApi insertionLib (renderer heapApi insertionLib 4) 4 heldVm.script second =
        .ok r' ∧
      afterCalls heapAccess heldVm.script (usedCalls (steps [(watchCall, some ())])) =
        some heldVm.script := by
  obtain ⟨ls, -, hr⟩ := heldVm_run
  obtain ⟨ls', rfl, hserving⟩ := serving_run hr.of_restrict fun i => handle (twoWatches i)
  have hfirst := watchCall_step (fun i => handle (twoWatches i)) ⟨_, rfl⟩
  have hsecond := watchCall_step (afterWatch fun i => handle (twoWatches i)) ⟨_, rfl⟩
  have hrun : (serving heapApi insertionLib 4 id (fun _ => []) Unit).Run
      (emptyVm, fun i => handle (twoWatches i))
      (ls' ++ (watchCall, some ()) :: ([] ++ (watchCall, some ()) :: []))
      (heldVm, afterWatch (afterWatch fun i => handle (twoWatches i))) :=
    hserving.append (.cons hfirst (.single hsecond))
  refine watches_of_one_pause rfl ⟨_, _, rfl⟩ hrun hr.labels rfl rfl hr.of_restrict
    (.single ⟨hfirst.1.1, ?_⟩) ?_ ?_
  · simp [WakesNotified, watchCall]
  · simp [heldVm]
    decide
  · simp [steps, Lbl.TakesEffect, watchCall, Lbl.accepted, Act.isResume]

end Sdb.L5
