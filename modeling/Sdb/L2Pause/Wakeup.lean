import Sdb.L2Pause.Resume

/-!
# What ends a pause

The hook calls `pauseCv_.wait(lock)` without a predicate. A condition variable
may return from the wait after a notification, and also by itself; in the second
case the hook does not look at `pauseRequested_` again but clears `isPaused` and
goes back to the script.

* `waiting_run`: along a stretch of a run without a wakeup, the waiting thread
  has been notified exactly if a command took effect;
* `pause_ends_by_command`: in a run every pause ends by command if and only if
  every wakeup in it comes after a notification (`WakesNotified`);
* `spurious_wakeup`: a pause that ends with its request still outstanding.
-/
namespace Sdb.L2

open Sdb.L1

section
variable {V : Type} (vm : VmAccess V)

/-- A resume command that returned `Success`, or `DetachVm` under its lock. -/
def Lbl.TakesEffect (l : Lbl V) : Prop := l.accepted = true ∨ l.act = .detachVmLocked

/-- The wait does not return by itself in this step. -/
def WakesNotified (s : State V) (l : Lbl V) : Prop := l.act = .wake → s.thread = .waiting true

/-- This step begins a pause: it takes the VM thread into the wait. -/
def BeginsPause (s : State V) (l : Lbl V) (s' : State V) : Prop :=
  (lts vm).step s l s' ∧ (∀ n, s.thread ≠ .waiting n) ∧ s'.thread = .waiting false

/-- Between the beginning of a pause and the wakeup that ends it, a command took
effect. -/
def EndsByCommand (s₀ : State V) (ls : List (Lbl V)) : Prop :=
  ∀ l₁ p l₂ w l₃ s t t', ls = l₁ ++ p :: (l₂ ++ w :: l₃) → (lts vm).Run s₀ l₁ s →
    BeginsPause vm s p t → (lts vm).Run t l₂ t' → (∀ l ∈ l₂, l.act ≠ .wake) →
    w.act = .wake → ∃ l ∈ l₂, l.TakesEffect

/-- A VM thread that nobody has notified is shown as paused, for a request. -/
def Armed (s : State V) : Prop :=
  s.thread = .waiting false → s.pauseMutexData.isPaused = true ∧ s.pauseRequested ≠ .none

theorem armed_of_thread {s : State V} (h : s.thread ≠ .waiting false) : Armed s :=
  fun hw => absurd hw h

theorem armed_of_same {s s' : State V} (h : SameControl s s') (ha : Armed s) : Armed s' := by
  intro hw
  rw [h.isPaused, h.pauseRequested]
  exact ha (h.thread ▸ hw)

theorem armed_detachVmLocked {s : State V} (ha : Armed s) :
    (detachVmLocked s).thread ≠ .waiting false := by
  rw [detachVmLocked_thread]
  split
  · rename_i hn
    exact fun hw => (ha hw).2 hn
  · unfold notifyAll
    split
    · simp
    · rename_i hn
      exact hn false

theorem armed_resume {s : State V} {c : Resume} (hc : Accepts s c) : Armed (resume s c).1 := by
  apply armed_of_thread
  by_cases hw : ∃ n, s.thread = .waiting n
  · obtain ⟨n, hn⟩ := hw
    simp [resume_notifies hc hn]
  · rw [(resume_frame s c).2.2 fun n hn => hw ⟨n, hn⟩]
    exact fun hn => hw ⟨false, hn⟩

theorem armed_hookNext {s s' : State V} {throws : Bool} {res : Res}
    (h : HookNext vm s throws s' res) : Armed s' := by
  cases h with
  | @call sourceName line _ =>
    exact armed_of_thread (by simp [(hookCall_control vm s sourceName line).2.2.2.2.2])
  | ret _ _ => exact armed_of_thread (by simp)
  | line _ _ => exact armed_of_thread (by simp)
  | fault _ _ => exact armed_of_thread (by simp)
  | other _ => exact armed_of_thread (by simp)
  | called _ => exact armed_of_thread (hookCalled_running s false)
  | counted _ => exact armed_of_thread (by simp [hookCounted])
  | returned _ => exact armed_of_thread (by simp [hookReturned_eq])
  | stops _ hst =>
    obtain ⟨-, h₁, h₂, -⟩ := hookStop_stops vm throws hst
    exact fun _ => ⟨h₂, h₁⟩
  | runs _ _ => exact armed_of_thread (by simp)

theorem armed_step {s s' : State V} {a : Act V} {res : Res} (ha : Armed s)
    (h : Exec vm s a s' res) : Armed s' := by
  cases h with
  | passive _ hf => exact armed_of_same hf ha
  | detachVm => exact armed_of_same (detachVm_frame s) ha
  | detachVmLocked => exact armed_of_thread (armed_detachVmLocked ha)
  | pauseExecution =>
    obtain ⟨h₁, h₂, -, h₄⟩ := pauseExecution_spec s
    intro hw
    rw [h₂]
    exact ⟨(ha (h₄ ▸ hw)).1, h₁⟩
  | accepted hc => exact armed_resume hc
  | refused _ => exact ha
  | unattached _ _ => exact ha
  | hook _ _ => exact armed_of_thread (by simp)
  | hookNext hn => exact armed_hookNext vm hn
  | wake _ => exact armed_of_thread (by simp [wake])

theorem armed_inductive : (lts vm).Inductive Armed where
  init := by
    intro s hs
    obtain ⟨e, v, rfl⟩ := hs
    exact armed_of_thread (by simp [fresh])
  step := fun _ _ _ ha h => armed_step vm ha (exec_inv vm ((lts_step vm).mp h))

/-! ## Along a wait -/

/-- A step of a waiting thread's debugger, the wakeup apart: it is notified
afterwards if it was before or if the step takes effect. -/
theorem notified_step {s s' : State V} {l : Lbl V} {n : Bool} (ha : Armed s)
    (hs : s.thread = .waiting n) (h : (lts vm).step s l s') (hw : l.act ≠ .wake) :
    ∃ m, s'.thread = .waiting m ∧ (m = true ↔ n = true ∨ l.TakesEffect) := by
  obtain ⟨a, res⟩ := l
  have hx := (lts_step vm).mp h
  obtain ⟨m, hm, himp, hconv⟩ := waiting_step vm hs hx hw
  refine ⟨m, hm, ?_⟩
  by_cases hd : a = .detachVmLocked
  · have hm' : m = true := by
      cases m with
      | true => rfl
      | false =>
        subst hd
        cases exec_inv vm hx with
        | detachVmLocked => exact absurd hm (armed_detachVmLocked ha)
        | passive hp _ => exact hp.elim
    exact ⟨fun _ => .inr (.inr hd), fun _ => hm'⟩
  · constructor
    · intro h'
      rcases hconv hd h' with hn | hacc
      · exact .inl hn
      · exact .inr (.inl hacc)
    · intro h'
      apply himp
      rcases h' with hn | hacc | hdet
      · exact .inl hn
      · exact .inr hacc
      · exact absurd hdet hd

theorem waiting_run {s s' : State V} {ls : List (Lbl V)} {n : Bool} (h : (lts vm).Run s ls s')
    (ha : Armed s) (hs : s.thread = .waiting n) (hw : ∀ l ∈ ls, l.act ≠ .wake) :
    ∃ m, s'.thread = .waiting m ∧ (m = true ↔ n = true ∨ ∃ l ∈ ls, l.TakesEffect) := by
  induction h generalizing n with
  | nil => exact ⟨n, hs, by simp⟩
  | @cons s t s' l ls hst _ ih =>
    obtain ⟨m, hm, hiff⟩ := notified_step vm ha hs hst (hw l List.mem_cons_self)
    have hat : Armed t := (armed_inductive vm).step s l t ha hst
    obtain ⟨k, hk, hiff'⟩ := ih hat hm fun l' hl' => hw l' (List.mem_cons_of_mem _ hl')
    refine ⟨k, hk, ?_⟩
    rw [hiff', hiff]
    simp [or_assoc]

/-- No step enters the wait with the notification already sent. -/
theorem enters_not_notified {s s' : State V} {a : Act V} {res : Res} (h : Exec vm s a s' res)
    (hs : ∀ n, s.thread ≠ .waiting n) : s'.thread ≠ .waiting true := by
  cases h with
  | passive _ hf => exact hf.thread ▸ hs true
  | detachVm => exact (detachVm_frame s).thread ▸ hs true
  | detachVmLocked =>
    rw [detachVmLocked_thread]
    unfold notifyAll
    split
    · exact hs true
    · split
      · rename_i n hn
        exact absurd hn (hs n)
      · exact hs true
  | pauseExecution => exact (pauseExecution_spec s).2.2.2 ▸ hs true
  | @accepted c _ => exact (resume_frame s c).2.2 hs ▸ hs true
  | refused _ => exact hs true
  | unattached _ _ => exact hs true
  | hook _ _ => simp
  | @hookNext throws _ _ hn =>
    cases hn with
    | @call sourceName line _ => simp [(hookCall_control vm s sourceName line).2.2.2.2.2]
    | called _ => exact hookCalled_running s true
    | counted _ => simp [hookCounted]
    | returned _ => simp [hookReturned_eq]
    | @stops line handle _ _ =>
      rcases hookStop_thread vm s line handle throws with e | e <;> simp [e]
    | _ => simp
  | wake _ => simp [wake]

/-- The wakeup leaves the wait. -/
theorem woken {s s' : State V} {l : Lbl V} (h : (lts vm).step s l s') (hl : l.act = .wake) :
    (∃ n, s.thread = .waiting n) ∧ s'.thread = .script := by
  obtain ⟨a, res⟩ := l
  obtain rfl : a = .wake := hl
  cases exec_inv vm ((lts_step vm).mp h) with
  | wake ht => exact ⟨⟨_, ht⟩, rfl⟩
  | passive hp _ => exact hp.elim

/-- A thread in the wait entered it by one of the steps taken, and has not woken
since. -/
theorem entered_wait {s₀ s : State V} {ls : List (Lbl V)} {n : Bool} (h : (lts vm).Run s₀ ls s)
    (h₀ : ∀ n, s₀.thread ≠ .waiting n) (hs : s.thread = .waiting n) :
    ∃ l₁ p l₂ t t', ls = l₁ ++ p :: l₂ ∧ (lts vm).Run s₀ l₁ t ∧ BeginsPause vm t p t' ∧
      (lts vm).Run t' l₂ s ∧ ∀ l ∈ l₂, l.act ≠ .wake := by
  induction ls using List.reverseRecOn generalizing s n with
  | nil =>
    obtain _ | _ := h
    exact absurd hs (h₀ n)
  | append_singleton ls l ih =>
    obtain ⟨u, h₁, h₂⟩ := h.split
    have hst : (lts vm).step u l s := by
      obtain _ | ⟨hst, hnil⟩ := h₂
      obtain _ | _ := hnil
      exact hst
    by_cases hu : ∃ k, u.thread = .waiting k
    · -- already in the wait: this step is not the wakeup
      obtain ⟨k, hk⟩ := hu
      obtain ⟨l₁, p, l₂, t, t', rfl, hr₁, hp, hr₂, hnw⟩ := ih h₁ hk
      refine ⟨l₁, p, l₂ ++ [l], t, t', by simp, hr₁, hp, hr₂.append (.single hst), ?_⟩
      intro l' hl'
      rcases List.mem_append.mp hl' with hmem | hmem
      · exact hnw l' hmem
      · obtain rfl : l' = l := by simpa using hmem
        intro hw
        have hscript := (woken vm hst hw).2
        rw [hs] at hscript
        cases hscript
    · -- this step is the one that enters it
      have hnw : ∀ k, u.thread ≠ .waiting k := fun k hk => hu ⟨k, hk⟩
      have hn : n = false := by
        cases n with
        | false => rfl
        | true => exact absurd hs (enters_not_notified vm (exec_inv vm ((lts_step vm).mp hst)) hnw)
      exact ⟨ls, l, [], u, s, by simp, h₁, ⟨hst, hnw, hn ▸ hs⟩, .nil s, by simp⟩

/-! ## Main result -/

/-- **What ends a pause.** In a run from a fresh debugger, whatever the listener
does, every pause that ends has been ended by a command if and only if the wait
returns only after it has been notified. -/
theorem pause_ends_by_command (s₀ s : State V) (ls : List (Lbl V)) (hi : (lts vm).init s₀)
    (h : (lts vm).Run s₀ ls s) :
    EndsByCommand vm s₀ ls ↔ ((lts vm).restrict WakesNotified).Run s₀ ls s := by
  have harmed : ∀ {l₁ t}, (lts vm).Run s₀ l₁ t → Armed t := fun hr =>
    (armed_inductive vm).run hr ((armed_inductive vm).init s₀ hi)
  have h₀ : ∀ n, s₀.thread ≠ .waiting n := by
    obtain ⟨e, v, rfl⟩ := hi
    simp [fresh]
  constructor
  · intro hends
    refine h.restrict fun l₁ w l₃ t' hls hr hw => ?_
    -- the wait this wakeup ends began at some step of the run
    obtain ⟨u, hr₁, hr₂⟩ := (hls ▸ h).split
    obtain rfl := hr.unique (lts_functional vm) hr₁
    obtain _ | ⟨hst, -⟩ := hr₂
    obtain ⟨n, hn⟩ := (woken vm hst hw).1
    obtain ⟨k₁, p, k₂, t, v, rfl, hk₁, hp, hk₂, hnw⟩ := entered_wait vm hr h₀ hn
    obtain ⟨m, hm, hiff⟩ := waiting_run vm hk₂ (harmed (hk₁.append (.single hp.1))) hp.2.2 hnw
    have heff : ∃ l ∈ k₂, l.TakesEffect :=
      hends k₁ p k₂ w l₃ t v t' (by rw [hls]; simp) hk₁ hp hk₂ hnw hw
    rw [hm, hiff.mpr (.inr heff)]
  · intro hr l₁ p l₂ w l₃ t t' t'' hls hr₁ hp hr₂ hnw hw
    have hr₃ : (lts vm).Run s₀ (l₁ ++ p :: l₂) t'' := hr₁.append (.cons hp.1 hr₂)
    have hwoken : t''.thread = .waiting true := by
      have hls' : ls = (l₁ ++ p :: l₂) ++ w :: l₃ := by simp [hls]
      have hat : WakesNotified t'' w := LTS.Run.restrict_at (lts_functional vm) (hls' ▸ hr) hr₃
      exact hat hw
    obtain ⟨m, hm, hiff⟩ := waiting_run vm hr₂ (harmed (hr₁.append (.single hp.1))) hp.2.2 hnw
    have hm' : m = true := by
      rw [hm] at hwoken
      simpa using hwoken
    simpa using hiff.mp hm'

end

/-! ## A wakeup by itself -/

/-- `pauseActs` up to the decision of the line event. -/
def pausingRun : List (Lbl Unit) :=
  [⟨.addVm 1, .silent⟩, ⟨.pauseExecution, .rc .success⟩, ⟨.hook (.c nameA 1), .silent⟩,
    ⟨.hookNext false, .silent⟩, ⟨.hookNext false, .silent⟩, ⟨.hook (.l 5), .silent⟩,
    ⟨.hookNext false, .silent⟩]

def pausingStep : Lbl Unit := ⟨.hookNext false, .paused { runState := .paused }⟩

def wakeStep : Lbl Unit := ⟨.wake, .silent⟩

theorem pausingRun_begins :
    ∃ s, (lts idleVm).Run (fresh true ()) pausingRun s ∧
      BeginsPause idleVm s pausingStep pausedState := by
  refine ⟨_, .cons (rfl : _ = some _) (.cons (rfl : _ = some _) (.cons (rfl : _ = some _)
    (.cons (rfl : _ = some _) (.cons (rfl : _ = some _) (.cons (rfl : _ = some _)
    (.single (rfl : _ = some _))))))), rfl, ?_, rfl⟩
  intro n h
  cases h

theorem pause_ends_by_command_continue :
    EndsByCommand idleVm (fresh true ())
      (pausingRun ++ [pausingStep, ⟨.resume .continueExecution, .rc .success⟩, wakeStep]) := by
  obtain ⟨s, hr, hp⟩ := pausingRun_begins
  have hrun : (lts idleVm).Run pausedState
      [⟨.resume .continueExecution, .rc .success⟩, wakeStep]
      (wake (resume pausedState .continueExecution).1) := .cons rfl (.single rfl)
  refine (pause_ends_by_command idleVm (fresh true ()) _ _ ⟨true, (), rfl⟩
    (hr.append (.cons hp.1 hrun))).mpr (.append ?_ (.cons ⟨hp.1, nofun⟩ (.cons ⟨rfl, nofun⟩
    (.single ⟨rfl, fun _ => rfl⟩))))
  -- before the pause there is no wakeup
  refine hr.restrict fun l₁ l l₂ t hls _ hw => ?_
  have hl : l ∈ pausingRun := by rw [hls]; simp
  have hnw : ∀ l ∈ pausingRun, l.act ≠ .wake := by simp [pausingRun]
  exact absurd hw (hnw l hl)

/-- The VM pauses for `PauseExecution`; no command comes; the wait returns by
itself, and the script goes on with the request still outstanding. -/
theorem spurious_wakeup :
    ∃ s, (lts idleVm).init (fresh true ()) ∧
      (lts idleVm).Run (fresh true ()) (pausingRun ++ [pausingStep, wakeStep]) s ∧
      s.thread = .script ∧ s.pauseRequested = .pause ∧
      ¬ EndsByCommand idleVm (fresh true ()) (pausingRun ++ [pausingStep, wakeStep]) := by
  obtain ⟨s, hr, hp⟩ := pausingRun_begins
  refine ⟨wake pausedState, ⟨true, (), rfl⟩, hr.append (.cons hp.1 (.single rfl)), rfl, rfl, ?_⟩
  intro hends
  obtain ⟨l, hl, -⟩ := hends pausingRun pausingStep [] wakeStep [] s pausedState pausedState rfl hr
    hp (.nil pausedState) (by simp) rfl
  cases hl

end Sdb.L2
