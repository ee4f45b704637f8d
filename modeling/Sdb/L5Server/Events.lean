import Sdb.Core.Feed
import Sdb.Core.Refine
import Sdb.L2Pause.Mirror
import Sdb.L5Server.Broadcast
import Sdb.L5Server.EventDto

/-!
# Events on their way to the clients

`OatMessageEventInterface` turns each status and each line of output into a message and
broadcasts it, on the thread that called it: the VM's thread for a pause and for a print,
a request's thread for `SendStatus`, which has released `pauseMutex_` by then. So
several broadcasts can be under way at once.

* `Quiet`: no socket comes or goes during a broadcast, and no send fails;
* `live_refines_feed`: then the loops over `connections_` are a feed;
* `due_connected`: what a client is due: everything from its connection on;
* `events_in_order`: each client gets the messages of each thread once and in the order
  in which the thread called the event interface.
-/
namespace Sdb.L5

open Sdb.L1 Sdb.L2

/-- `EventMessageWrapper`: the type and the message. -/
inductive EventMessage where
  | status (message : Dto.Status)
  | outputLine (message : Dto.OutputLine)
  deriving DecidableEq, Repr

/-- What `HandleStatusChanged` broadcasts.
mirrors EmbeddedServer.cpp:41-59 -/
def handleStatusChanged (status : Status) : EventMessage := .status (createStatus status)

/-- What `HandleOutputLine` broadcasts.
mirrors EmbeddedServer.cpp:61-74 -/
def handleOutputLine (outputLine : OutputLine) : EventMessage :=
  .outputLine (createOutputLine outputLine)

/-- A range-based `for` over `connections_`, with the allocation it started in. -/
structure Loop where
  message : EventMessage
  buffer : Nat
  position : Nat
  last : Nat
  /-- Whether its call throws, where the hook's step has settled that. -/
  throws : Option Bool
  deriving DecidableEq, Repr

/-- The debugger, the websocket server and the broadcasts; the thread `none` is the VM's. -/
structure Live (V I : Type) where
  debugger : L2.State V
  server : Server := {}
  loops : Option I → Option Loop := fun _ => none
  /-- What each connection has got, and from which thread. -/
  inbox : Nat → List (Option I × EventMessage) := fun _ => []
  /-- An element outside the vector was used, and the behaviour is undefined. -/
  outside : Bool := false

inductive LiveLbl (V I : Type) where
  | debugger (l : HostLbl V) (who : Option I)
  | round (who : Option I)
  | finish (who : Option I)
  | fails (who : Option I)
  | connect (connection : Nat)
  | disconnect (listener : Nat)

section
variable {V I : Type}

/-- The steps of the VM's thread. -/
def OnVmThread : HostLbl V → Prop
  | .print _ _ _ => True
  | .debugger l =>
    match l.act with
    | .script _ | .hook _ | .hookNext _ | .wake => True
    | _ => False

/-- The message that a step has broadcast. The event interface is set before a VM is
added. -/
def called : HostLbl V → Option EventMessage
  | .print _ _ outputLine => outputLine.map handleOutputLine
  | .debugger l =>
    match l.res with
    | .sent status | .paused status => some (handleStatusChanged status)
    | _ => none

/-- What a pause in the hook says of its call of `HandleStatusChanged`: an exception of
it leaves the wait out. -/
def throwing : HostLbl V → Option Bool
  | .print _ _ _ => none
  | .debugger l =>
    match l.act with
    | .hookNext throws => some throws
    | _ => none

variable [DecidableEq I] (vm : VmAccess V) (grow : Nat → Nat)

/-- `broadcastMessage` is called.
mirrors WSListener.cpp:48-53 -/
def Live.start (s : Live V I) (who : Option I) (message : EventMessage) (throws : Option Bool) :
    Live V I :=
  { s with
    loops := Function.update s.loops who
      (some ⟨message, s.server.buffer, 0, s.server.connections.length, throws⟩) }

/-- One round of a loop: the element at the iterator.
mirrors WSListener.cpp:53-55 -/
def Live.round (s : Live V I) (who : Option I) (loop : Loop) : Live V I :=
  if loop.buffer = s.server.buffer then
    match s.server.connections[loop.position]? with
    | some connection =>
      { s with
        loops := Function.update s.loops who (some { loop with position := loop.position + 1 })
        inbox := Function.update s.inbox connection
          (s.inbox connection ++ [(who, loop.message)]) }
    | none => { s with outside := true }
  else { s with outside := true }

/-- A thread whose broadcast is under way does nothing else. A send that fails leaves the
loop, and the later clients without the message. Sockets come and go at any time. -/
inductive LiveStep : Live V I → LiveLbl V I → Live V I → Prop where
  | silent {s : Live V I} {l : HostLbl V} {who : Option I} {t : L2.State V} :
      (host vm).step s.debugger l t → s.loops who = none → (OnVmThread l → who = none) →
      called l = none → LiveStep s (.debugger l who) { s with debugger := t }
  | called {s : Live V I} {l : HostLbl V} {who : Option I} {t : L2.State V}
      {message : EventMessage} :
      (host vm).step s.debugger l t → s.loops who = none → (OnVmThread l → who = none) →
      called l = some message →
      LiveStep s (.debugger l who) (Live.start { s with debugger := t } who message (throwing l))
  | round {s : Live V I} {who : Option I} {loop : Loop} :
      s.loops who = some loop → loop.position ≠ loop.last →
      LiveStep s (.round who) (s.round who loop)
  | finish {s : Live V I} {who : Option I} {loop : Loop} :
      s.loops who = some loop → loop.position = loop.last → loop.throws ≠ some true →
      LiveStep s (.finish who) { s with loops := Function.update s.loops who none }
  | fails {s : Live V I} {who : Option I} {loop : Loop} :
      s.loops who = some loop → loop.throws ≠ some false →
      LiveStep s (.fails who) { s with loops := Function.update s.loops who none }
  | connect {s : Live V I} :
      LiveStep s (.connect s.server.created) { s with server := onAfterCreate grow s.server }
  | disconnect {s : Live V I} (listener : Nat) :
      LiveStep s (.disconnect listener) { s with server := onBeforeDestroy s.server listener }

/-- A fresh debugger with an event interface, before the first connection. -/
def live : LTS (Live V I) (LiveLbl V I) where
  init s := ∃ v, s = { debugger := fresh true v }
  step s l s' := s.outside = false ∧ LiveStep vm grow s l s'

/-- No socket comes or goes during a broadcast, and no send fails. -/
def Quiet (s : Live V I) : LiveLbl V I → Prop
  | .connect _ | .disconnect _ => ∀ who, s.loops who = none
  | .fails _ => False
  | _ => True

/-! ## The loops are a feed -/

def Live.feed (s : Live V I) : Feed (Option I) Nat EventMessage where
  receivers := s.server.connections
  sending who := (s.loops who).map fun loop => (loop.message, loop.position)
  inbox := s.inbox

def LiveLbl.feed : LiveLbl V I → Option (FeedLbl (Option I) Nat EventMessage)
  | .debugger l who => (L5.called l).map (.start who)
  | .round who => some (.give who)
  | .finish who => some (.finish who)
  | .fails _ => none
  | .connect connection => some (.join connection)
  | .disconnect listener => some (.leave listener)

/-- The iterators of a loop are into the vector, and the last is its end. -/
structure Loop.Valid (server : Server) (loop : Loop) : Prop where
  buffer : loop.buffer = server.buffer
  last : loop.last = server.connections.length
  position : loop.position ≤ loop.last

structure Live.Sound (s : Live V I) : Prop where
  server : s.server.Sound
  loops : ∀ who loop, s.loops who = some loop → loop.Valid s.server
  inside : s.outside = false

theorem onBeforeDestroy_erase (s : Server) (listener : Nat) :
    (onBeforeDestroy s listener).connections = s.connections.erase listener := by
  unfold onBeforeDestroy
  rw [List.erase_eq_eraseIdx, List.idxOf?]
  split <;> rename_i h <;> rw [h]

variable {vm grow} {s s' : Live V I} {l : LiveLbl V I}

theorem sound_loops {t : Live V I} (hi : s.Sound) (hserver : t.server = s.server)
    (hinside : t.outside = s.outside) {who : Option I} {loop : Option Loop}
    (hloops : t.loops = Function.update s.loops who loop)
    (hvalid : ∀ l, loop = some l → l.Valid s.server) : t.Sound := by
  refine ⟨hserver ▸ hi.server, fun w l hl => ?_, hinside.trans hi.inside⟩
  rw [hserver]
  rw [hloops] at hl
  by_cases hw : w = who
  · subst hw
    rw [Function.update_self] at hl
    exact hvalid l hl
  · rw [Function.update_of_ne hw] at hl
    exact hi.loops w l hl

omit [DecidableEq I] in
variable (grow) in
theorem sound_next (c : Call) (hi : s.Sound) (hidle : ∀ who, s.loops who = none) :
    Live.Sound { s with server := s.server.next grow c } := by
  refine ⟨next_sound hi.server c, fun who loop h => ?_, hi.inside⟩
  rw [hidle who] at h
  cases h

/-- A round of a valid loop gives the message to the connection at its iterator. -/
theorem round_valid (who : Option I) {loop : Loop} (hv : loop.Valid s.server)
    (hmore : loop.position ≠ loop.last) :
    ∃ connection, s.server.connections[loop.position]? = some connection ∧
      s.round who loop = { s with
        loops := Function.update s.loops who (some { loop with position := loop.position + 1 })
        inbox := Function.update s.inbox connection
          (s.inbox connection ++ [(who, loop.message)]) } := by
  have hlt : loop.position < s.server.connections.length := by
    have hlast := hv.last
    have hposition := hv.position
    omega
  have hget := List.getElem?_eq_getElem hlt
  refine ⟨_, hget, ?_⟩
  unfold Live.round
  rw [if_pos hv.buffer, hget]

theorem sound_step (hi : s.Sound) (h : LiveStep vm grow s l s') (hq : Quiet s l) :
    s'.Sound := by
  cases h with
  | silent _ _ _ _ => exact ⟨hi.server, hi.loops, hi.inside⟩
  | called _ _ _ _ =>
    refine sound_loops hi rfl rfl rfl fun l hl => ?_
    obtain rfl := Option.some.inj hl
    exact ⟨rfl, rfl, Nat.zero_le _⟩
  | @round who loop hloop hmore =>
    have hv := hi.loops who loop hloop
    obtain ⟨connection, -, hround⟩ := round_valid who hv hmore
    rw [hround]
    refine sound_loops hi rfl rfl rfl fun l hl => ?_
    obtain rfl := Option.some.inj hl
    have hposition := hv.position
    refine ⟨hv.buffer, hv.last, ?_⟩
    show loop.position + 1 ≤ loop.last
    omega
  | finish _ _ _ => exact sound_loops hi rfl rfl rfl fun l hl => by cases hl
  | fails _ _ => exact hq.elim
  | connect => exact sound_next grow .onAfterCreate hi hq
  | disconnect listener => exact sound_next grow (.onBeforeDestroy listener) hi hq

theorem feed_update (who : Option I) (loop : Option Loop) :
    (fun w => (Function.update s.loops who loop w).map fun l => (l.message, l.position)) =
      Function.update s.feed.sending who (loop.map fun l => (l.message, l.position)) := by
  funext w
  by_cases hw : w = who
  · subst hw
    simp
  · simp [Live.feed, hw]

theorem feed_step (hi : s.Sound) (h : LiveStep vm grow s l s') (hq : Quiet s l) :
    Feed.lts.Matches s.feed l.feed s'.feed := by
  cases h with
  | silent _ _ _ hcalled =>
    show LTS.Matches _ _ ((L5.called _).map _) _
    rw [hcalled]
    rfl
  | @called l who t message _ hidle _ hcalled =>
    show LTS.Matches _ _ ((L5.called _).map _) _
    rw [hcalled]
    show Feed.Step s.feed (.start who message) ⟨_, fun w => _, _⟩
    unfold Live.start
    rw [feed_update]
    exact .start (by simp [Live.feed, hidle])
  | @round who loop hloop hmore =>
    obtain ⟨connection, hget, hround⟩ := round_valid who (hi.loops who loop hloop) hmore
    rw [hround]
    show Feed.Step s.feed (.give who) ⟨_, fun w => _, _⟩
    rw [feed_update]
    exact .give (by simp [Live.feed, hloop]) hget
  | fails _ _ => exact hq.elim
  | @finish who loop hloop heq =>
    show Feed.Step s.feed (.finish who) ⟨_, fun w => _, _⟩
    rw [feed_update]
    have hlast : loop.position = s.feed.receivers.length :=
      heq.trans (hi.loops who loop hloop).last
    exact .finish (m := loop.message) (by rw [← hlast]; simp [Live.feed, hloop])
  | connect =>
    show Feed.Step s.feed (.join s.server.created) ⟨_, _, _⟩
    rw [(onAfterCreate_connections s.server).1]
    have hidle : ∀ who, s.loops who = none := hq
    refine .join (fun w => by simp [Live.feed, hidle w]) fun hmem => ?_
    exact absurd (hi.server.made _ hmem) (by omega)
  | disconnect listener =>
    show Feed.Step s.feed (.leave listener) ⟨_, _, _⟩
    rw [onBeforeDestroy_erase]
    have hidle : ∀ who, s.loops who = none := hq
    exact .leave listener fun w => by simp [Live.feed, hidle w]

variable (vm grow) in
theorem live_refines_feed :
    ((live (I := I) vm grow).restrict Quiet).Refines Feed.lts Live.Sound Live.feed
      LiveLbl.feed where
  invariant := {
    init := by
      intro s hs
      obtain ⟨v, rfl⟩ := hs
      exact ⟨⟨List.nodup_nil, by simp⟩, by simp, rfl⟩
    step := fun _ _ _ hi h => sound_step hi h.1.2 h.2 }
  init := by
    intro s hs
    obtain ⟨v, rfl⟩ := hs
    rfl
  step := fun _ _ _ hi h => feed_step hi h.1.2 h.2

/-! ## Main result -/

/-- The messages of a run that a client is due: those broadcast while it was
connected, each with the thread it came from. -/
def due (connection : Nat) (ls : List (LiveLbl V I)) : List (Option I × EventMessage) :=
  Feed.due connection (ls.filterMap LiveLbl.feed)

/-- The message that a step starts to broadcast, with its thread. -/
def LiveLbl.message : LiveLbl V I → Option (Option I × EventMessage)
  | .debugger l who => (L5.called l).map fun m => (who, m)
  | _ => none

omit [DecidableEq I] in
/-- Before it connects a client is due nothing. -/
theorem follow_before {connection : Nat} {ls : List (LiveLbl V I)}
    (hnew : .connect connection ∉ ls) :
    (ls.filterMap LiveLbl.feed).foldl (Feed.follow connection) (false, []) = (false, []) := by
  induction ls with
  | nil => rfl
  | cons l ls ih =>
    have hrest := ih fun hmem => hnew (List.mem_cons_of_mem _ hmem)
    cases l with
    | debugger l who =>
      cases hm : L5.called l <;>
        simpa [List.filterMap_cons, LiveLbl.feed, hm, Feed.follow] using hrest
    | connect c =>
      have hne : c ≠ connection := fun he => hnew (he ▸ List.mem_cons_self)
      simpa [List.filterMap_cons, LiveLbl.feed, Feed.follow, hne] using hrest
    | _ => simpa [List.filterMap_cons, LiveLbl.feed, Feed.follow] using hrest

omit [DecidableEq I] in
/-- While it stays a client is due every message. -/
theorem follow_during {connection : Nat} {ls : List (LiveLbl V I)}
    {messages : List (Option I × EventMessage)} (hstay : .disconnect connection ∉ ls) :
    (ls.filterMap LiveLbl.feed).foldl (Feed.follow connection) (true, messages) =
      (true, messages ++ ls.filterMap LiveLbl.message) := by
  induction ls generalizing messages with
  | nil => simp
  | cons l ls ih =>
    have hrest : .disconnect connection ∉ ls := fun hmem => hstay (List.mem_cons_of_mem _ hmem)
    cases l with
    | debugger l who =>
      cases hm : L5.called l <;>
        simp [LiveLbl.feed, LiveLbl.message, hm, Feed.follow, ih hrest]
    | disconnect listener =>
      have hne : listener ≠ connection := fun he => hstay (he ▸ List.mem_cons_self)
      simp [List.filterMap_cons, LiveLbl.feed, LiveLbl.message, Feed.follow, hne, ih hrest]
    | _ => simp [List.filterMap_cons, LiveLbl.feed, LiveLbl.message, Feed.follow, ih hrest]

omit [DecidableEq I] in
/-- A client that stays is due everything from its connection on. -/
theorem due_connected {connection : Nat} {l₁ l₂ : List (LiveLbl V I)}
    (hnew : .connect connection ∉ l₁) (hstay : .disconnect connection ∉ l₂) :
    due connection (l₁ ++ .connect connection :: l₂) = l₂.filterMap LiveLbl.message := by
  have hconnect : LiveLbl.feed (.connect connection : LiveLbl V I) = some (.join connection) := rfl
  unfold due Feed.due
  rw [List.filterMap_append, List.foldl_append, follow_before hnew,
    List.filterMap_cons_some hconnect, List.foldl_cons,
    show Feed.follow connection (false, ([] : List (Option I × EventMessage)))
      (.join connection) = (true, []) from if_pos rfl, follow_during hstay]
  rfl

/-- The messages of one thread. -/
def ofThread (who : Option I) (messages : List (Option I × EventMessage)) : List EventMessage :=
  (messages.filter fun p => p.1 = who).map Prod.snd

/-- **Each client sees each thread in order.** Whatever broadcasts interleave, if no
socket comes or goes during one and no send fails, a client has got the messages of a
thread that it is due, once each and in the order of the calls, up to the one that is on
its way; when no broadcast is under way it has got exactly the messages it is due. -/
theorem events_in_order {s₀ : Live V I} {ls : List (LiveLbl V I)}
    (hi : (live vm grow).init s₀) (h : ((live vm grow).restrict Quiet).Run s₀ ls s)
    (connection : Nat) :
    (∀ who, ∃ rest, ofThread who (due connection ls) =
        ofThread who (s.inbox connection) ++ rest ∧ rest.length ≤ 1 ∧
          (s.loops who = none → rest = [])) ∧
      ((∀ who, s.loops who = none) → (s.inbox connection).Perm (due connection ls)) := by
  have hrefines := live_refines_feed (I := I) vm grow
  have hrun := hrefines.run (hrefines.invariant.init s₀ hi) h
  rw [hrefines.init s₀ hi] at hrun
  constructor
  · intro who
    have hconserves := Feed.feed_conserves hrun connection who
    refine ⟨(Feed.owed s.feed who connection).map Prod.snd, ?_, ?_, fun hidle => ?_⟩
    · unfold ofThread due
      rw [← List.map_append]
      exact congrArg (List.map Prod.snd) hconserves
    · rw [List.length_map]
      unfold Feed.owed
      split
      · split <;> simp
      · simp
    · rw [Feed.owed_idle (by simp [Live.feed, hidle])]
      rfl
  · intro hidle
    exact Feed.feed_perm hrun (fun who => by simp [Live.feed, hidle who]) connection

end

/-! ## Two threads -/

/-- A line that a script prints in a call. -/
def printed : OutputLine := ⟨[104, 105], false, nameA.text, 1⟩

/-- Two clients connect. While the line that the VM's thread prints is on its way, a
request's thread sends the status; later it asks for a pause and sends the status again. -/
def twoThreads : List (LiveLbl Unit Unit) :=
  [.connect 0, .connect 1,
    .debugger (.debugger ⟨.addVm 1, .silent⟩) (some ()),
    .debugger (.debugger ⟨.hook (.c nameA 1), .silent⟩) none,
    .debugger (.debugger ⟨.hookNext false, .silent⟩) none,
    .debugger (.debugger ⟨.hookNext false, .silent⟩) none,
    .debugger (.print false printed.output (some printed)) none,
    .round none,
    .debugger (.debugger ⟨.sendStatus, .sent { runState := .running }⟩) (some ()),
    .round (some ()), .round (some ()), .finish (some ()),
    .round none, .finish none,
    .debugger (.debugger ⟨.pauseExecution, .rc .success⟩) (some ()),
    .debugger (.debugger ⟨.sendStatus, .sent { runState := .pausing }⟩) (some ()),
    .round (some ()), .round (some ()), .finish (some ())]

theorem twoThreads_run : ∃ s : Live Unit Unit,
    ((live idleVm fun n => n).restrict Quiet).Run { debugger := fresh true () } twoThreads s ∧
      ∀ who, s.loops who = none := by
  refine ⟨_, .cons ⟨⟨rfl, .connect⟩, fun _ => rfl⟩ (.cons ⟨⟨rfl, .connect⟩, fun _ => rfl⟩
    -- the script calls a function and prints a line
    (.cons ⟨⟨rfl, .silent rfl rfl (by simp [OnVmThread]) rfl⟩, trivial⟩
    (.cons ⟨⟨rfl, .silent rfl rfl (fun _ => rfl) rfl⟩, trivial⟩
    (.cons ⟨⟨rfl, .silent rfl rfl (fun _ => rfl) rfl⟩, trivial⟩
    (.cons ⟨⟨rfl, .silent rfl rfl (fun _ => rfl) rfl⟩, trivial⟩
    (.cons ⟨⟨rfl, .called rfl rfl (fun _ => rfl) rfl⟩, trivial⟩
    (.cons ⟨⟨rfl, .round rfl (by decide)⟩, trivial⟩
    -- the first status overtakes it
    (.cons ⟨⟨rfl, .called rfl rfl (by simp [OnVmThread]) rfl⟩, trivial⟩
    (.cons ⟨⟨rfl, .round rfl (by decide)⟩, trivial⟩
    (.cons ⟨⟨rfl, .round rfl (by decide)⟩, trivial⟩
    (.cons ⟨⟨rfl, .finish rfl rfl (by decide)⟩, trivial⟩
    (.cons ⟨⟨rfl, .round rfl (by decide)⟩, trivial⟩
    (.cons ⟨⟨rfl, .finish rfl rfl (by decide)⟩, trivial⟩
    -- the second status
    (.cons ⟨⟨rfl, .silent rfl rfl (by simp [OnVmThread]) rfl⟩, trivial⟩
    (.cons ⟨⟨rfl, .called rfl rfl (by simp [OnVmThread]) rfl⟩, trivial⟩
    (.cons ⟨⟨rfl, .round rfl (by decide)⟩, trivial⟩
    (.cons ⟨⟨rfl, .round rfl (by decide)⟩, trivial⟩
    (.single ⟨⟨rfl, .finish rfl rfl (by decide)⟩, trivial⟩)))))))))))))))))), fun who => ?_⟩
  obtain _ | _ := who <;> rfl

/-- Both clients have got the line and the two statuses, the statuses in their order. -/
theorem events_in_order_twoThreads : ∃ s : Live Unit Unit,
    ((live idleVm fun n => n).restrict Quiet).Run { debugger := fresh true () } twoThreads s ∧
      ∀ connection, connection < 2 →
        (s.inbox connection).Perm [(none, handleOutputLine printed),
            (some (), handleStatusChanged { runState := .running }),
            (some (), handleStatusChanged { runState := .pausing })] ∧
        ofThread (some ()) (s.inbox connection) =
          [handleStatusChanged { runState := .running },
            handleStatusChanged { runState := .pausing }] := by
  obtain ⟨s, hr, hidle⟩ := twoThreads_run
  refine ⟨s, hr, fun connection hlt => ?_⟩
  obtain ⟨hthreads, hall⟩ := events_in_order ⟨(), rfl⟩ hr connection
  obtain ⟨rest, hdue, -, hrest⟩ := hthreads (some ())
  rw [hrest (hidle _), List.append_nil] at hdue
  have hfeed : due connection twoThreads = [(none, handleOutputLine printed),
      (some (), handleStatusChanged { runState := .running }),
      (some (), handleStatusChanged { runState := .pausing })] := by
    obtain rfl | rfl : connection = 0 ∨ connection = 1 := by omega
    · rfl
    · rfl
  exact ⟨hfeed ▸ hall hidle, by rw [← hdue, hfeed]; rfl⟩

end Sdb.L5
