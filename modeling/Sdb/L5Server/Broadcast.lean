import Sdb.Core.LTS
import Sdb.L1Data.BreakpointMap

/-!
# Broadcasting to the connected clients (`embedded_server/websocket/WSListener.cpp`)

`connections_` is a vector that `onAfterCreate` appends to, `onBeforeDestroy`
erases from, and `broadcastMessage` walks with a range-based `for`, whose two
iterators are made before the first send. Nothing orders the three: between two
sends any number of sockets may come and go.

A connection is the identity of its `RemoteConnection`, and an iterator is a
position in the allocation it was made for (`buffer`). An append to a full vector
moves the elements to a new allocation, with the capacity `grow` gives it; an
erase moves the later elements down. A use of an element outside the vector ends
the model's run (`outside`): the code's behaviour is then undefined.

* `missed_run`: a connection that is passed over never gets the message;
* `delivered_iff`: which interleavings deliver the message to every connection
  that stays.
-/
namespace Sdb.L5

open Sdb.L1

/-! ## The server -/

/-- mirrors WSListener.h:74, 88: `connections_` with its allocation, `SOCKETS`, and
how many `RemoteConnection`s were made. -/
structure Server where
  connections : List Nat := []
  capacity : Nat := 0
  buffer : Nat := 0
  sockets : Int32 := 0
  created : Nat := 0

/-- What the websocket server calls on its other threads. -/
inductive Call where
  | onAfterCreate
  | onBeforeDestroy (listener : Nat)
  deriving DecidableEq, Repr

/-- A send of the broadcast, or a call that comes between two of them. -/
inductive Event where
  | send
  | call (c : Call)
  deriving DecidableEq, Repr

section
variable (grow : Nat → Nat)

/-- `connections_.push_back`: a full vector moves to a new allocation. -/
def Server.pushBack (s : Server) (connection : Nat) : Server :=
  if s.connections.length < s.capacity then
    { s with connections := s.connections ++ [connection] }
  else
    { s with
      connections := s.connections ++ [connection]
      capacity := max (grow s.capacity) (s.connections.length + 1)
      buffer := s.buffer + 1 }

/-- mirrors WSListener.cpp:58-67 -/
def onAfterCreate (s : Server) : Server :=
  { s.pushBack grow s.created with sockets := s.sockets + 1, created := s.created + 1 }

/-- mirrors WSListener.cpp:69-81 -/
def onBeforeDestroy (s : Server) (listener : Nat) : Server :=
  match s.connections.findIdx? (· == listener) with
  | none => { s with sockets := s.sockets - 1 }
  | some pos =>
    { s with connections := s.connections.eraseIdx pos, sockets := s.sockets - 1 }

def Server.next (s : Server) : Call → Server
  | .onAfterCreate => onAfterCreate grow s
  | .onBeforeDestroy listener => onBeforeDestroy s listener

/-- Sockets come and go. -/
def server : LTS Server Call := LTS.ofStep (· = {}) fun s c => some (s.next grow c)

/-! ## The broadcast -/

/-- `position` and `last` are `__begin` and `__end` of the range-based `for`. -/
structure State where
  server : Server
  message : Bytes
  buffer : Nat
  position : Nat
  last : Nat
  sent : List (Nat × Bytes) := []
  outside : Bool := false

/-- The start of the loop.
mirrors WSListener.cpp:53 -/
def broadcastMessage (s : Server) (message : Bytes) : State :=
  { server := s, message := message, buffer := s.buffer, position := 0,
    last := s.connections.length }

/-- One round of the loop: the element at the iterator.
mirrors WSListener.cpp:53-55 -/
def send (s : State) : State :=
  if s.buffer = s.server.buffer then
    match s.server.connections[s.position]? with
    | some connection =>
      { s with sent := s.sent ++ [(connection, s.message)], position := s.position + 1 }
    | none => { s with outside := true }
  else { s with outside := true }

/-- One event; no round is left when the iterators are equal. -/
def exec (s : State) : Event → Option State
  | .send => if s.outside ∨ s.position = s.last then none else some (send s)
  | .call c => if s.outside then none else some { s with server := s.server.next grow c }

/-- One call of `broadcastMessage`, from any state of the server. -/
def broadcasting : LTS State Event :=
  LTS.ofStep (fun s => ∃ sv message, (server grow).Reachable sv ∧ s = broadcastMessage sv message)
    (exec grow)

def Finished (s : State) : Prop := s.outside = true ∨ s.position = s.last

/-- The connection is in `connections_` in every state of the run. -/
def Throughout (s : State) (ls : List Event) (connection : Nat) : Prop :=
  ∀ l₁ l₂ u, ls = l₁ ++ l₂ → (broadcasting grow).Run s l₁ u → connection ∈ u.server.connections

/-- No element outside the vector was used, and every connection that stayed got the
message once. -/
def Delivered (s : State) (ls : List Event) (t : State) : Prop :=
  t.outside = false ∧
    ∀ connection, Throughout grow s ls connection → t.sent.count (connection, s.message) = 1

/-- The messages sent in these events. -/
def sends (ls : List Event) : Nat := ls.count .send

/-- Until the last send, appends find room, and there are more connections than
messages sent; and no connection is removed from below the next one while that one
stays. -/
structure Undisturbed (s : State) (ls : List Event) : Prop where
  room : ∀ l₁ l₂ u, ls = l₁ ++ .call .onAfterCreate :: l₂ → .send ∈ l₂ →
    (broadcasting grow).Run s l₁ u → u.server.connections.length < u.server.capacity
  ahead : ∀ l₁ l₂ u, ls = l₁ ++ .send :: l₂ → (broadcasting grow).Run s l₁ u →
    sends l₁ < u.server.connections.length
  below : ∀ l₁ listener l₂ u, ls = l₁ ++ .call (.onBeforeDestroy listener) :: l₂ →
    (broadcasting grow).Run s l₁ u → ∀ k next, u.server.connections[k]? = some listener →
    k < sends l₁ → u.server.connections[sends l₁]? = some next → ¬ Throughout grow s ls next

/-! ## The vector under the calls -/

/-- The connections are distinct and were made by `onAfterCreate`. -/
structure Server.Sound (s : Server) : Prop where
  nodup : s.connections.Nodup
  made : ∀ connection ∈ s.connections, connection < s.created

variable {grow} {s : Server} {connection : Nat}

theorem onAfterCreate_connections (s : Server) :
    (onAfterCreate grow s).connections = s.connections ++ [s.created] ∧
      (onAfterCreate grow s).created = s.created + 1 := by
  refine ⟨?_, rfl⟩
  unfold onAfterCreate Server.pushBack
  split <;> rfl

theorem onAfterCreate_buffer (s : Server) :
    (onAfterCreate grow s).buffer =
      if s.connections.length < s.capacity then s.buffer else s.buffer + 1 := by
  unfold onAfterCreate Server.pushBack
  split <;> rfl

theorem onBeforeDestroy_frame (s : Server) (listener : Nat) :
    (onBeforeDestroy s listener).created = s.created ∧
      (onBeforeDestroy s listener).buffer = s.buffer := by
  unfold onBeforeDestroy
  split <;> exact ⟨rfl, rfl⟩

/-- A listener that is not in the vector, or is erased from its place. -/
theorem onBeforeDestroy_cases (s : Server) (listener : Nat) :
    (listener ∉ s.connections ∧ (onBeforeDestroy s listener).connections = s.connections) ∨
      ∃ j, s.connections[j]? = some listener ∧
        (onBeforeDestroy s listener).connections = s.connections.eraseIdx j := by
  unfold onBeforeDestroy
  split
  · rename_i hf
    rw [List.findIdx?_eq_none_iff] at hf
    refine .inl ⟨fun hmem => ?_, rfl⟩
    simpa using hf listener hmem
  · rename_i pos hf
    obtain ⟨hlt, he, -⟩ := List.findIdx?_eq_some_iff_getElem.mp hf
    exact .inr ⟨pos, by rw [List.getElem?_eq_getElem hlt]; simpa using he, rfl⟩

theorem getElem?_unique (hs : s.Sound) {i j : Nat} (hi : s.connections[i]? = some connection)
    (hj : s.connections[j]? = some connection) : i = j := by
  obtain ⟨hlt, -⟩ := List.getElem?_eq_some_iff.mp hi
  exact (List.getElem?_inj hlt hs.nodup).mp (hi.trans hj.symm)

theorem next_sound (hs : s.Sound) (c : Call) : (s.next grow c).Sound := by
  cases c with
  | onAfterCreate =>
    obtain ⟨hc, hn⟩ : (onAfterCreate grow s).connections = s.connections ++ [s.created] ∧
        (onAfterCreate grow s).created = s.created + 1 := onAfterCreate_connections s
    constructor
    · simp only [Server.next, hc]
      refine List.nodup_append.mpr ⟨hs.nodup, List.nodup_singleton _, fun a ha b hb he => ?_⟩
      have hlt := hs.made a ha
      rw [he, List.mem_singleton.mp hb] at hlt
      omega
    · intro connection hmem
      simp only [Server.next, hc, hn] at hmem ⊢
      rcases List.mem_append.mp hmem with hmem | hmem
      · have hlt := hs.made connection hmem
        omega
      · rw [List.mem_singleton.mp hmem]
        omega
  | onBeforeDestroy listener =>
    obtain ⟨hn, -⟩ := onBeforeDestroy_frame s listener
    rcases onBeforeDestroy_cases s listener with ⟨-, hc⟩ | ⟨j, -, hc⟩
    · exact ⟨by simpa only [Server.next, hc] using hs.nodup,
        by simpa only [Server.next, hc, hn] using hs.made⟩
    · constructor
      · simp only [Server.next, hc]
        exact hs.nodup.sublist (List.eraseIdx_sublist _ _)
      · intro connection hmem
        simp only [Server.next, hc, hn] at hmem ⊢
        exact hs.made connection (List.mem_of_mem_eraseIdx hmem)

theorem server_sound (h : (server grow).Reachable s) : s.Sound := by
  have hI : (server grow).Inductive Server.Sound := by
    constructor
    · rintro s rfl
      exact ⟨List.nodup_nil, fun _ => nofun⟩
    · intro s c s' hs hstep
      obtain rfl := Option.some.inj hstep
      exact next_sound hs c
  exact hI.reachable s h

theorem next_buffer (s : Server) (c : Call) : s.buffer ≤ (s.next grow c).buffer := by
  cases c with
  | onAfterCreate =>
    simp only [Server.next, onAfterCreate_buffer]
    split <;> omega
  | onBeforeDestroy listener => exact Nat.le_of_eq (onBeforeDestroy_frame s listener).2.symm

/-- Where a connection comes from: its place, the place above it when one below was
erased, or it is new. -/
theorem placed_before {k : Nat} {c : Call}
    (h : (s.next grow c).connections[k]? = some connection) :
    s.connections[k]? = some connection ∨ s.connections[k + 1]? = some connection ∨
      connection = s.created := by
  cases c with
  | onAfterCreate =>
    simp only [Server.next, (onAfterCreate_connections s).1] at h
    rw [List.getElem?_append] at h
    split at h
    · exact .inl h
    · right; right
      obtain ⟨_, he⟩ := List.getElem?_eq_some_iff.mp h
      simpa using he.symm
  | onBeforeDestroy listener =>
    rcases onBeforeDestroy_cases s listener with ⟨-, hc⟩ | ⟨j, -, hc⟩
    · simp only [Server.next, hc] at h
      exact .inl h
    · simp only [Server.next, hc, List.getElem?_eraseIdx] at h
      split at h
      · exact .inl h
      · exact .inr (.inl h)

/-- Where a connection goes: it stays in its place, moves down when one below it is
erased, or is erased itself. -/
theorem placed_after (hs : s.Sound) {k : Nat} (h : s.connections[k]? = some connection)
    (c : Call) :
    (s.next grow c).connections[k]? = some connection ∨
      (∃ j listener, c = .onBeforeDestroy listener ∧ s.connections[j]? = some listener ∧
        j < k ∧ (s.next grow c).connections[k - 1]? = some connection) ∨
      c = .onBeforeDestroy connection ∧ connection ∉ (s.next grow c).connections := by
  cases c with
  | onAfterCreate =>
    obtain ⟨hlt, -⟩ := List.getElem?_eq_some_iff.mp h
    left
    rw [Server.next, (onAfterCreate_connections s).1, List.getElem?_append_left hlt, h]
  | onBeforeDestroy listener =>
    rcases onBeforeDestroy_cases s listener with ⟨-, hc⟩ | ⟨j, hj, hc⟩
    · left
      rw [Server.next, hc, h]
    · simp only [Server.next, hc]
      rcases Nat.lt_trichotomy k j with hlt | rfl | hlt
      · left
        rw [List.getElem?_eraseIdx, if_pos hlt, h]
      · right; right
        refine ⟨by rw [Option.some.inj (hj.symm.trans h)], fun hmem => ?_⟩
        obtain ⟨i, hi⟩ := List.getElem?_of_mem hmem
        rw [List.getElem?_eraseIdx] at hi
        split at hi
        · have he := getElem?_unique hs hi h
          omega
        · have he := getElem?_unique hs hi h
          omega
      · right; left
        refine ⟨j, listener, rfl, hj, hlt, ?_⟩
        rw [List.getElem?_eraseIdx, if_neg (by omega), Nat.sub_add_cancel (by omega), h]

/-! ## One broadcast -/

/-- What the loop has done after these events, as long as it used no element outside. -/
structure Going (s₀ : Server) (message : Bytes) (ls : List Event) (u : State) : Prop where
  inside : u.outside = false
  sound : u.server.Sound
  same : u.message = message
  position : u.position = sends ls
  last : u.last = s₀.connections.length
  buffer : u.buffer = s₀.buffer
  moved : s₀.buffer ≤ u.server.buffer
  once : ∀ connection, u.sent.count (connection, message) ≤ 1
  /-- At the position and above it nothing was sent. -/
  pending : ∀ k connection, u.server.connections[k]? = some connection → u.position ≤ k →
    u.sent.count (connection, message) = 0
  fresh : ∀ connection, u.server.created ≤ connection →
    u.sent.count (connection, message) = 0

variable {s₀ : Server} {message : Bytes} {ls : List Event} {u u' : State}

theorem going_start (hs : s₀.Sound) (message : Bytes) :
    Going s₀ message [] (broadcastMessage s₀ message) :=
  ⟨rfl, hs, rfl, rfl, rfl, rfl, Nat.le_refl _, fun _ => Nat.zero_le _, fun _ _ _ _ => rfl,
    fun _ _ => rfl⟩

theorem going_call (hi : Going s₀ message ls u) (c : Call) :
    Going s₀ message (ls ++ [.call c]) { u with server := u.server.next grow c } := by
  have hsends : sends (ls ++ [.call c]) = sends ls := by
    simp [sends, List.count_append]
  refine ⟨hi.inside, next_sound hi.sound c, hi.same, by rw [hsends]; exact hi.position,
    hi.last, hi.buffer, Nat.le_trans hi.moved (next_buffer u.server c), hi.once, ?_, ?_⟩
  · intro k connection hk hle
    rcases placed_before hk with h | h | h
    · exact hi.pending k connection h hle
    · exact hi.pending (k + 1) connection h (Nat.le_succ_of_le hle)
    · exact hi.fresh connection (Nat.le_of_eq h.symm)
  · intro connection hle
    apply hi.fresh connection
    refine Nat.le_trans ?_ hle
    cases c with
    | onAfterCreate => exact Nat.le_succ _
    | onBeforeDestroy listener =>
      exact Nat.le_of_eq (onBeforeDestroy_frame u.server listener).1.symm

/-- A round that finds its element. -/
theorem send_inside (hb : u.buffer = u.server.buffer)
    (hk : u.server.connections[u.position]? = some connection) :
    send u =
      { u with sent := u.sent ++ [(connection, u.message)], position := u.position + 1 } := by
  unfold send
  rw [if_pos hb]
  split
  · rename_i c hc
    rw [hk] at hc
    obtain rfl := Option.some.inj hc
    rfl
  · rename_i hc
    rw [hk] at hc
    cases hc

theorem count_concat (sent : List (Nat × Bytes)) (message : Bytes) (c c' : Nat) :
    (sent ++ [(c, message)]).count (c', message) =
      sent.count (c', message) + if c = c' then 1 else 0 := by
  rw [List.count_append, List.count_singleton]
  by_cases h : c = c'
  · simp [h]
  · simp [h]

theorem going_send (hi : Going s₀ message ls u) (hb : u.buffer = u.server.buffer)
    (hk : u.server.connections[u.position]? = some connection) :
    Going s₀ message (ls ++ [.send]) (send u) := by
  have hsends : sends (ls ++ [.send]) = sends ls + 1 := by
    simp [sends, List.count_append]
  have hzero := hi.pending u.position connection hk (Nat.le_refl _)
  rw [send_inside hb hk, hi.same]
  refine ⟨hi.inside, hi.sound, rfl, by rw [hsends, hi.position], hi.last, hi.buffer,
    hi.moved, ?_, ?_, ?_⟩
  · intro c
    simp only [count_concat]
    by_cases hc : connection = c
    · subst hc
      simp [hzero]
    · rw [if_neg hc]
      exact hi.once c
  · intro k c hk' hle
    simp only [count_concat] at hle ⊢
    have hne : connection ≠ c := by
      rintro rfl
      have he := getElem?_unique hi.sound hk hk'
      omega
    rw [if_neg hne, hi.pending k c hk' (by omega)]
  · intro c hle
    simp only [count_concat] at hle ⊢
    have hlt := hi.sound.made connection (List.mem_of_getElem? hk)
    have hne : connection ≠ c := by omega
    rw [if_neg hne, hi.fresh c hle]

/-- A round either finds its element or leaves the vector. -/
theorem send_outside (h : ¬ (u.buffer = u.server.buffer ∧
    u.position < u.server.connections.length)) : (send u).outside = true := by
  unfold send
  split
  · rename_i hb
    split
    · rename_i c hc
      obtain ⟨hlt, -⟩ := List.getElem?_eq_some_iff.mp hc
      exact absurd ⟨hb, hlt⟩ h
    · rfl
  · rfl

theorem step_send (h : (broadcasting grow).step u .send u') :
    u.outside = false ∧ u.position ≠ u.last ∧ u' = send u := by
  have hs : (if u.outside ∨ u.position = u.last then none else some (send u)) = some u' := h
  split at hs
  · cases hs
  · rename_i hne
    obtain ⟨ho, hp⟩ := not_or.mp hne
    exact ⟨by simpa using ho, hp, (Option.some.inj hs).symm⟩

theorem step_call {c : Call} (h : (broadcasting grow).step u (.call c) u') :
    u.outside = false ∧ u' = { u with server := u.server.next grow c } := by
  have hs : (if u.outside then none else some { u with server := u.server.next grow c }) =
    some u' := h
  split at hs
  · cases hs
  · rename_i ho
    exact ⟨by simpa using ho, (Option.some.inj hs).symm⟩

/-- Nothing follows a use of an element outside. -/
theorem step_inside {e : Event} (h : (broadcasting grow).step u e u') : u.outside = false := by
  cases e with
  | send => exact (step_send h).1
  | call c => exact (step_call h).1

theorem going_step {e : Event} (hi : Going s₀ message ls u)
    (h : (broadcasting grow).step u e u') :
    u'.outside = true ∨ Going s₀ message (ls ++ [e]) u' := by
  cases e with
  | send =>
    obtain ⟨-, -, rfl⟩ := step_send h
    by_cases hin : u.buffer = u.server.buffer ∧ u.position < u.server.connections.length
    · obtain ⟨hb, hlt⟩ := hin
      exact .inr (going_send hi hb (List.getElem?_eq_getElem hlt))
    · exact .inl (send_outside hin)
  | call c =>
    obtain ⟨-, rfl⟩ := step_call h
    exact .inr (going_call hi c)

/-- What holds in a state from which the run goes on. -/
theorem going_run (hs : s₀.Sound) {ls : List Event}
    (h : (broadcasting grow).Run (broadcastMessage s₀ message) ls u) (ho : u.outside = false) :
    Going s₀ message ls u := by
  have hall := LTS.along (P := fun l₁ u => u.outside = false → Going s₀ message l₁ u)
    (fun _ => going_start hs message) ?_ ls [] u (List.append_nil ls).symm h
  · exact hall ho
  · intro l₁ e l₂ t t' _ _ hi hstep ho'
    rcases going_step (hi (step_inside hstep)) hstep with hout | hi'
    · rw [ho'] at hout
      cases hout
    · exact hi'

/-! ## Interleavings that deliver -/

/-- The connection is in the vector, above the position or sent to, and below the end. -/
structure Due (message : Bytes) (connection : Nat) (u : State) : Prop where
  place : ∃ k, u.server.connections[k]? = some connection ∧ k < u.last ∧
    (u.position ≤ k ∨ u.sent.count (connection, message) = 1)

/-- The connection is in the vector below the position, and was not sent to. -/
structure Missed (message : Bytes) (connection : Nat) (u : State) : Prop where
  place : ∃ k, u.server.connections[k]? = some connection ∧ k < u.position ∧
    u.sent.count (connection, message) = 0

theorem due_send (hi : Going s₀ message ls u) (hb : u.buffer = u.server.buffer)
    {c : Nat} (hk : u.server.connections[u.position]? = some c)
    (hd : Due message connection u) : Due message connection (send u) := by
  obtain ⟨k, hplace, hlt, hcase⟩ := hd.place
  rw [send_inside hb hk]
  refine ⟨k, hplace, hlt, ?_⟩
  simp only [hi.same, count_concat]
  rcases hcase with hle | hone
  · by_cases he : u.position = k
    · subst he
      obtain rfl := Option.some.inj (hk.symm.trans hplace)
      right
      rw [if_pos rfl, hi.pending _ c hplace hle]
    · left
      omega
  · by_cases he : c = connection
    · subst he
      have hzero := hi.pending _ c hk (Nat.le_refl _)
      omega
    · right
      rw [if_neg he, hone]

theorem due_call (hi : Going s₀ message ls u) (c : Call) (hd : Due message connection u)
    (hstays : connection ∈ (u.server.next grow c).connections)
    (hbelow : ∀ listener j, c = .onBeforeDestroy listener →
      u.server.connections[j]? = some listener → j < u.position →
      u.server.connections[u.position]? ≠ some connection) :
    Due message connection { u with server := u.server.next grow c } := by
  obtain ⟨k, hplace, hlt, hcase⟩ := hd.place
  rcases placed_after hi.sound hplace c with hk | ⟨j, listener, rfl, hj, hjk, hk⟩ | ⟨-, hgone⟩
  · exact ⟨k, hk, hlt, hcase⟩
  · refine ⟨k - 1, hk, Nat.lt_of_le_of_lt (Nat.sub_le k 1) hlt, ?_⟩
    rcases hcase with hle | hone
    · by_cases he : u.position = k
      · exact absurd (he ▸ hplace) (hbelow listener j rfl hj (by omega))
      · left
        simp only
        omega
    · exact .inr hone
  · exact absurd hstays hgone

/-- A connection that was passed over stays so. -/
theorem missed_step {e : Event} (hi : Going s₀ message ls u) (hm : Missed message connection u)
    (h : (broadcasting grow).step u e u') (hstays : connection ∈ u'.server.connections) :
    Missed message connection u' := by
  obtain ⟨k, hplace, hlt, hzero⟩ := hm.place
  cases e with
  | send =>
    obtain ⟨-, -, rfl⟩ := step_send h
    by_cases hin : u.buffer = u.server.buffer ∧ u.position < u.server.connections.length
    · obtain ⟨hb, hlen⟩ := hin
      rw [send_inside hb (List.getElem?_eq_getElem hlen)]
      refine ⟨k, hplace, Nat.lt_succ_of_lt hlt, ?_⟩
      have hne : u.server.connections[u.position] ≠ connection := by
        intro he
        have hk := getElem?_unique hi.sound hplace
          ((List.getElem?_eq_getElem hlen).trans (congrArg some he))
        omega
      simp only [hi.same, count_concat]
      rw [if_neg hne, hzero]
    · unfold send
      split
      · rename_i hb
        split
        · rename_i c hc
          obtain ⟨hlen, -⟩ := List.getElem?_eq_some_iff.mp hc
          exact absurd ⟨hb, hlen⟩ hin
        · exact ⟨k, hplace, hlt, hzero⟩
      · exact ⟨k, hplace, hlt, hzero⟩
  | call c =>
    obtain ⟨-, rfl⟩ := step_call h
    rcases placed_after hi.sound hplace c with hk | ⟨j, listener, -, -, -, hk⟩ | ⟨-, hgone⟩
    · exact ⟨k, hk, hlt, hzero⟩
    · exact ⟨k - 1, hk, Nat.lt_of_le_of_lt (Nat.sub_le k 1) hlt, hzero⟩
    · exact absurd hstays hgone

theorem missed_run (hs : s₀.Sound) {l₁ l₂ : List Event}
    (h : (broadcasting grow).Run (broadcastMessage s₀ message) l₁ u)
    (h' : (broadcasting grow).Run u l₂ u') (hm : Missed message connection u)
    (hstay : Throughout grow (broadcastMessage s₀ message) (l₁ ++ l₂) connection) :
    Missed message connection u' := by
  refine LTS.along (P := fun _ v => Missed message connection v) hm ?_ l₂ [] u'
    (List.append_nil l₂).symm h'
  intro a e b v w hl hv hmv hstep
  have hi := going_run hs (h.append hv) (step_inside hstep)
  apply missed_step hi hmv hstep
  exact hstay (l₁ ++ (a ++ [e])) b w (by rw [hl]; simp)
    (h.append (hv.append (.single hstep)))

/-- The calls never move the vector back into an earlier allocation. -/
theorem moved_run (h : (broadcasting grow).Run u ls u') :
    u.server.buffer ≤ u'.server.buffer := by
  refine h.invariant (fun _ => True) (fun v => u.server.buffer ≤ v.server.buffer)
    (fun _ _ => trivial) (Nat.le_refl _) ?_
  intro v e w _ hle hstep
  cases e with
  | send =>
    obtain ⟨-, -, rfl⟩ := step_send hstep
    unfold send
    split
    · split <;> exact hle
    · exact hle
  | call c =>
    obtain ⟨-, rfl⟩ := step_call hstep
    exact Nat.le_trans hle (next_buffer v.server c)

theorem outside_run (h : (broadcasting grow).Run u ls u') (ho : u.outside = true) :
    u'.outside = true := by
  obtain _ | ⟨hs, -⟩ := h
  · exact ho
  · rw [step_inside hs] at ho
    cases ho

/-- A run that ends inside used the vector at each send. -/
theorem sent_inside (hs : s₀.Sound) {l₁ l₂ : List Event} {t : State}
    (h : (broadcasting grow).Run (broadcastMessage s₀ message) (l₁ ++ .send :: l₂) t)
    (ho : t.outside = false)
    (h₁ : (broadcasting grow).Run (broadcastMessage s₀ message) l₁ u) :
    u.server.buffer = s₀.buffer ∧ sends l₁ < u.server.connections.length := by
  obtain ⟨v, hv, hr⟩ := h.split
  obtain rfl := hv.unique (LTS.ofStep_functional _ _) h₁
  obtain _ | ⟨hstep, hrest⟩ := hr
  obtain ⟨hin, -, rfl⟩ := step_send hstep
  have hi := going_run hs h₁ hin
  by_cases hins : v.buffer = v.server.buffer ∧ v.position < v.server.connections.length
  · rw [hi.buffer, hi.position] at hins
    exact ⟨hins.1.symm, hins.2⟩
  · have hout := outside_run hrest (send_outside hins)
    rw [ho] at hout
    cases hout

theorem undisturbed_of_delivered (hs : s₀.Sound) {t : State}
    (h : (broadcasting grow).Run (broadcastMessage s₀ message) ls t)
    (hd : Delivered grow (broadcastMessage s₀ message) ls t) :
    Undisturbed grow (broadcastMessage s₀ message) ls := by
  obtain ⟨ho, hcount⟩ := hd
  constructor
  · intro l₁ l₂ u hls hsend hu
    obtain ⟨a, b, rfl⟩ := List.append_of_mem hsend
    by_contra hfull
    subst hls
    have h' := h
    rw [← List.cons_append, ← List.append_assoc] at h'
    obtain ⟨v, hv, -⟩ := h'.split
    have hbuf := (sent_inside hs h' ho hv).1
    obtain ⟨u', hu', hr⟩ := hv.split
    obtain rfl := hu'.unique (LTS.ofStep_functional _ _) hu
    obtain _ | ⟨hstep, hr⟩ := hr
    obtain ⟨hin, rfl⟩ := step_call hstep
    have hmoved := moved_run hr
    have hfirst := (going_run hs hu hin).moved
    simp only [Server.next, onAfterCreate_buffer, if_neg hfull] at hmoved
    omega
  · intro l₁ l₂ u hls hu
    subst hls
    exact (sent_inside hs h ho hu).2
  · intro l₁ listener l₂ u hls hu k next hk hlt hnext hstay
    subst hls
    obtain ⟨v, hv, hr⟩ := h.split
    obtain rfl := hv.unique (LTS.ofStep_functional _ _) hu
    obtain _ | ⟨hstep, hr⟩ := hr
    have hrun := hu.append (.single hstep)
    obtain ⟨hin, rfl⟩ := step_call hstep
    have hi := going_run hs hu hin
    rw [← hi.position] at hlt hnext
    -- the removal moves `next` below the position
    have hm : Missed message next
        { v with server := v.server.next grow (.onBeforeDestroy listener) } := by
      have hzero := hi.pending _ next hnext (Nat.le_refl _)
      rcases onBeforeDestroy_cases v.server listener with ⟨hnot, -⟩ | ⟨j, hj, hc⟩
      · exact absurd (List.mem_of_getElem? hk) hnot
      · obtain rfl := getElem?_unique hi.sound hk hj
        refine ⟨v.position - 1, ?_, by simp only; omega, hzero⟩
        simp only [Server.next, hc]
        rw [List.getElem?_eraseIdx, if_neg (by omega), Nat.sub_add_cancel (by omega), hnext]
    have hls : l₁ ++ .call (.onBeforeDestroy listener) :: l₂ =
        (l₁ ++ [.call (.onBeforeDestroy listener)]) ++ l₂ := by simp
    rw [hls] at hstay
    obtain ⟨-, -, -, hzero⟩ := (missed_run hs hrun hr hm hstay).place
    rw [← hls] at hstay
    have hone := hcount next hstay
    simp only [broadcastMessage] at hone
    omega

theorem delivered_of_undisturbed (hs : s₀.Sound) {t : State}
    (h : (broadcasting grow).Run (broadcastMessage s₀ message) ls t) (hf : Finished t)
    (hu : Undisturbed grow (broadcastMessage s₀ message) ls) :
    Delivered grow (broadcastMessage s₀ message) ls t := by
  -- as long as a send is to come, the vector is where the loop found it
  have hin : ∀ l₁ l₂ v, ls = l₁ ++ l₂ →
      (broadcasting grow).Run (broadcastMessage s₀ message) l₁ v → v.outside = false ∧
        ∀ l, ls = l₁ ++ l → .send ∈ l → v.server.buffer = s₀.buffer := by
    refine LTS.along (s := broadcastMessage s₀ message) (P := fun l₁ v => v.outside = false ∧
      ∀ l, ls = l₁ ++ l → .send ∈ l → v.server.buffer = s₀.buffer)
      ⟨rfl, fun _ _ _ => rfl⟩ ?_
    intro l₁ e l₂ v w hls hv hkept hstep
    obtain ⟨-, hbuf⟩ := hkept
    have hi := going_run hs hv (step_inside hstep)
    cases e with
    | send =>
      obtain ⟨-, -, rfl⟩ := step_send hstep
      have hlen := hu.ahead l₁ l₂ v hls hv
      have hb := hbuf _ hls List.mem_cons_self
      rw [← hi.position] at hlen
      rw [send_inside (hi.buffer.trans hb.symm) (List.getElem?_eq_getElem hlen)]
      exact ⟨hi.inside, fun _ _ _ => hb⟩
    | call c =>
      obtain ⟨-, rfl⟩ := step_call hstep
      refine ⟨hi.inside, fun l hl hsend => ?_⟩
      obtain rfl : l₂ = l := by
        rw [hls, List.append_assoc] at hl
        exact List.cons.inj (List.append_cancel_left hl) |>.2
      have hb := hbuf _ hls (List.mem_cons_of_mem _ hsend)
      cases c with
      | onAfterCreate =>
        simp only [Server.next, onAfterCreate_buffer]
        rw [if_pos (hu.room l₁ l₂ v hls hsend hv), hb]
      | onBeforeDestroy listener =>
        exact (onBeforeDestroy_frame v.server listener).2.trans hb
  obtain ⟨ho, -⟩ := hin ls [] t (List.append_nil ls).symm h
  refine ⟨ho, fun connection hstay => ?_⟩
  have hdue : ∀ l₁ l₂ v, ls = l₁ ++ l₂ →
      (broadcasting grow).Run (broadcastMessage s₀ message) l₁ v →
        Due message connection v := by
    refine LTS.along (P := fun _ (v : State) => Due message connection v) ?_ ?_
    · obtain ⟨k, hk⟩ := List.getElem?_of_mem (hstay [] ls _ rfl (.nil _))
      obtain ⟨hlt, -⟩ := List.getElem?_eq_some_iff.mp hk
      exact ⟨k, hk, hlt, .inl (Nat.zero_le k)⟩
    · intro l₁ e l₂ v w hls hv hd hstep
      have hi := going_run hs hv (step_inside hstep)
      cases e with
      | send =>
        obtain ⟨-, -, rfl⟩ := step_send hstep
        have hlen := hu.ahead l₁ l₂ v hls hv
        have hbuf := (hin l₁ (.send :: l₂) v hls hv).2 _ hls List.mem_cons_self
        rw [← hi.position] at hlen
        exact due_send hi (hi.buffer.trans hbuf.symm) (List.getElem?_eq_getElem hlen) hd
      | call c =>
        obtain ⟨-, rfl⟩ := step_call hstep
        refine due_call hi c hd ?_ ?_
        · exact hstay (l₁ ++ [.call c]) l₂ _ (by rw [hls]; simp) (hv.append (.single hstep))
        · rintro listener j rfl hj hlt hnext
          rw [hi.position] at hlt hnext
          exact hu.below l₁ listener l₂ v hls hv j connection hj hlt hnext hstay
  obtain ⟨k, -, hlt, hcase⟩ := (hdue ls [] t (List.append_nil ls).symm h).place
  rcases hf with hout | hlast
  · rw [ho] at hout
    cases hout
  · rcases hcase with hle | hone
    · omega
    · exact hone

/-! ## Main result -/

/-- **When a broadcast reaches every client.** Take any state of the server and any
interleaving of one complete broadcast with sockets that come and go. No element
outside the vector is used, and every connection that stays gets the message exactly
once, if and only if the interleaving is `Undisturbed`. -/
theorem delivered_iff (message : Bytes) {t : State} (hs : (server grow).Reachable s₀)
    (h : (broadcasting grow).Run (broadcastMessage s₀ message) ls t) (hf : Finished t) :
    Delivered grow (broadcastMessage s₀ message) ls t ↔
      Undisturbed grow (broadcastMessage s₀ message) ls :=
  ⟨undisturbed_of_delivered (server_sound hs) h,
    delivered_of_undisturbed (server_sound hs) h hf⟩

/-- A connection whose socket is not destroyed stays. -/
theorem throughout_of_kept (hs : s₀.Sound) (hmem : connection ∈ s₀.connections)
    (hkept : .call (.onBeforeDestroy connection) ∉ ls) :
    Throughout grow (broadcastMessage s₀ message) ls connection := by
  refine LTS.along (P := fun _ (v : State) => connection ∈ v.server.connections) hmem ?_
  intro l₁ e l₂ v w hls hv hmem hstep
  have hi := going_run hs hv (step_inside hstep)
  cases e with
  | send =>
    obtain ⟨-, -, rfl⟩ := step_send hstep
    unfold send
    split
    · split <;> exact hmem
    · exact hmem
  | call c =>
    obtain ⟨-, rfl⟩ := step_call hstep
    obtain ⟨k, hk⟩ := List.getElem?_of_mem hmem
    rcases placed_after hi.sound hk c with hk | ⟨j, listener, -, -, -, hk⟩ | ⟨rfl, -⟩
    · exact List.mem_of_getElem? hk
    · exact List.mem_of_getElem? hk
    · rw [hls] at hkept
      simp at hkept

end

/-! ## A client that leaves during a broadcast -/

/-- The growth of a vector that doubles. -/
def doubled (capacity : Nat) : Nat := 2 * capacity

/-- Two clients. -/
def twoClients : Server := onAfterCreate doubled (onAfterCreate doubled {})

theorem twoClients_reachable : (server doubled).Reachable twoClients :=
  ⟨{}, [.onAfterCreate, .onAfterCreate], rfl, .cons rfl (.single rfl)⟩

/-- The client that was sent to leaves, and another comes: the second client moves
down into its place and is passed over. -/
def leavingRun : List Event :=
  [.send, .call (.onBeforeDestroy 0), .call .onAfterCreate, .send]

theorem leavingRun_misses : ∃ t,
    (broadcasting doubled).Run (broadcastMessage twoClients [104, 105]) leavingRun t ∧
      Finished t ∧ t.outside = false ∧
      ¬ Delivered doubled (broadcastMessage twoClients [104, 105]) leavingRun t := by
  refine ⟨_, .cons rfl (.cons rfl (.cons rfl (.single rfl))), .inr rfl, rfl, ?_⟩
  rintro ⟨-, hcount⟩
  have hstay : Throughout doubled (broadcastMessage twoClients [104, 105]) leavingRun 1 :=
    throughout_of_kept (server_sound twoClients_reachable) (by decide) (by decide)
  exact absurd (hcount 1 hstay) (by decide)

/-- A third client comes, and finds no room, after the last send. -/
theorem delivered_iff_twoClients : ∃ t,
    (broadcasting doubled).Run (broadcastMessage twoClients [104, 105])
        [.send, .send, .call .onAfterCreate] t ∧
      (Delivered doubled (broadcastMessage twoClients [104, 105])
          [.send, .send, .call .onAfterCreate] t ↔
        Undisturbed doubled (broadcastMessage twoClients [104, 105])
          [.send, .send, .call .onAfterCreate]) :=
  ⟨_, .cons rfl (.cons rfl (.single rfl)),
    delivered_iff [104, 105] twoClients_reachable (.cons rfl (.cons rfl (.single rfl)))
      (.inr rfl)⟩

end Sdb.L5
