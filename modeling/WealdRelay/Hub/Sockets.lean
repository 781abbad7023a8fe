import WealdRelay.Hub.Registry
import WealdRelay.Lib.Run

/-!
# Sockets: the reader loop, the writer task and the hub

A connection is served by two tasks (`ws.rs`, `serve_connection_inner`). The reader
takes messages off the socket, one at a time, and performs the work each one defers.
The writer drains the outbound queue and may end on its own. Revocation reaches a
connection through the hub's principal index.

The reader's position is explicit: waiting at the top of its loop, holding a work item
that passed the loop's eviction check, inside `perform`, registered with the hub in the
middle of an `AUTH`, or ended. So an eviction may fall between the loop's check and the
work item it let through.

* `Tidy.step_cases` says once what a step can do;
* along a run, every live connection stays in the index exactly as long as no fanout
  finds the queue of a live connection closed, and under that condition an eviction ends
  what the connections of its hash do.
-/

namespace WealdRelay.Hub

open Lib Function Registry

/-- The states of a session. A ready session was admitted under an entry hash. -/
inductive Session
  | fresh
  | challenged
  | ready (entry : Bytes)
  | bootstrapping
  | closed
  deriving DecidableEq

/-- The work a session defers to the socket layer. -/
inductive Work
  | authenticate
  | accept
  | subscribe (group : Bytes)
  | reconcile
  | rotateAccessSet
  | blobTicket
  | dropBefore
  | publishWrap
  | redeem
  | administerInvite
  | publishHandshake
  | publishLive
  | keyPackages
  | wakeRegistration
  | publishCall
  | publishMedia
  deriving DecidableEq

/-- The work items `perform` refuses on an evicted connection. -/
def Work.refusedWhenEvicted : Work → Bool
  | .accept => true
  | .subscribe _ => true
  | _ => false

/-- The rows of the frame table that defer work. -/
def Session.defers : Session → Work → Bool
  | .challenged, .authenticate => true
  | .ready _, .authenticate => false
  | .ready _, _ => true
  | .bootstrapping, .rotateAccessSet => true
  | .bootstrapping, .redeem => true
  | .fresh, .redeem => true
  | .challenged, .redeem => true
  | _, _ => false

/-- Where a connection's reader is. -/
inductive Reader
  | waiting
  | handling (work : Work)
  | working (work : Work)
  | identified (entry : Bytes)
  | ended
  deriving DecidableEq

/-- One served connection. -/
structure Connection where
  session : Session
  reader : Reader
  deriving DecidableEq

namespace Connection

/-- A connection as `serve_connection` opens it. -/
def opened : Connection := { session := .fresh, reader := .waiting }

/-- No connection was opened under this id. -/
def absent : Connection := { session := .fresh, reader := .ended }

/-- The entry hash the connection is registered under, from `identify` on. -/
def entry (connection : Connection) : Option Bytes :=
  match connection.session, connection.reader with
  | .ready entry, _ => some entry
  | _, .identified entry => some entry
  | _, _ => none

theorem entry_of_ready {conn : Connection} {entry : Bytes}
    (h : conn.session = .ready entry) : conn.entry = some entry := by
  simp [Connection.entry, h]

/-- The reader is at work only on what the session defers. -/
def Coherent (connection : Connection) : Prop :=
  match connection.reader with
  | .handling work => connection.session.defers work = true
  | .working work => connection.session.defers work = true
  | .identified _ => connection.session = .challenged
  | .waiting => True
  | .ended => True

end Connection

/-- The sockets of a relay and its hub. -/
structure Sockets where
  hub : Registry
  connections : ConnectionId → Connection

/-- The relay as it starts. -/
def Sockets.start : Sockets where
  hub := Registry.new
  connections := fun _ => Connection.absent

/-- What may happen next: to one connection's reader or writer, or to the hub. -/
inductive Operation
  | connect
  | challenge (id : ConnectionId)
  | receive (id : ConnectionId) (work : Work)
  | perform (id : ConnectionId)
  | identify (id : ConnectionId) (entry : Bytes)
  | authenticated (id : ConnectionId)
  | bootstrapping (id : ConnectionId)
  | rejected (id : ConnectionId)
  | subscribe (id : ConnectionId) (protocolVersion : Nat)
  | release (id : ConnectionId) (replayedTo : Nat)
  | answer (id : ConnectionId) (frame : Frame)
  | finish (id : ConnectionId)
  | bye (id : ConnectionId)
  | leave (id : ConnectionId)
  | ping (id : ConnectionId)
  | write (id : ConnectionId)
  | writerEnds (id : ConnectionId)
  | disconnect (id : ConnectionId)
  | fanout (group : Bytes) (frame : Frame) (writer : ConnectionId) (minimumVersion : Nat)
  | settle (order : List Bytes)
  | evict (entry : Bytes)
  deriving DecidableEq

namespace Sockets

/-- Change one connection. -/
def set (sockets : Sockets) (id : ConnectionId) (connection : Connection) : Sockets :=
  { sockets with connections := update sockets.connections id connection }

/-- Move one connection's reader. -/
def setReader (sockets : Sockets) (id : ConnectionId) (reader : Reader) : Sockets :=
  sockets.set id { sockets.connections id with reader := reader }

/-- Change the hub. -/
def onHub (sockets : Sockets) (hub : Registry) : Sockets := { sockets with hub := hub }

/-- A socket opens under a fresh id. -/
def connected (sockets : Sockets) : Sockets where
  hub := sockets.hub.connect
  connections := update sockets.connections sockets.hub.nextId Connection.opened

/-- Queue one frame for a connection's own client, as `queue_all` does. -/
def queue (sockets : Sockets) (id : ConnectionId) (frame : Frame) : Sockets :=
  sockets.onHub (sockets.hub.onSender id (fun sender => (sender.tryQueue frame).2))

/-- Whether `queue_all` would report success. -/
def queues (sockets : Sockets) (id : ConnectionId) (frame : Frame) : Bool :=
  ((sockets.hub.senders id).tryQueue frame).1 == .sent

/-- A frame of headers and integers: an acknowledgement or an error. -/
def control : Frame := .other 0

/-- The writer task takes the next item; a close ends the task. -/
def takeNext (sender : OutboundSender) : OutboundSender :=
  match sender.queue with
  | [] => sender
  | .close :: rest => { sender with queue := rest, receiving := false }
  | _ :: rest => { sender with queue := rest }

/-- One operation, where the connection is at the point of its code that performs it. -/
def step (sockets : Sockets) : Operation → Option Sockets
  | .connect => some sockets.connected
  | .challenge id =>
    if sockets.connections id = Connection.opened && !sockets.hub.isEvicted id then
      some (sockets.set id { session := .challenged, reader := .waiting })
    else none
  | .receive id work =>
    if (sockets.connections id).reader = .waiting then
      -- The eviction check at the top of the loop and before `handle_message`.
      if sockets.hub.isEvicted id then some (sockets.setReader id .ended)
      else if (sockets.connections id).session.defers work then
        some (sockets.setReader id (.handling work))
      else none
    else none
  | .perform id =>
    match (sockets.connections id).reader with
    | .handling work =>
      if sockets.hub.isEvicted id && work.refusedWhenEvicted then
        some ((sockets.queue id control).setReader id .ended)
      else some (sockets.setReader id (.working work))
    | _ => none
  | .identify id entry =>
    if (sockets.connections id).reader = .working .authenticate then
      some ((sockets.onHub (sockets.hub.identify entry id)).setReader id (.identified entry))
    else none
  | .authenticated id =>
    match (sockets.connections id).reader with
    | .identified entry =>
      some ((sockets.queue id control).set id
        { session := .ready entry
          reader := if sockets.queues id control then .waiting else .ended })
    | _ => none
  | .bootstrapping id =>
    if (sockets.connections id).reader = .working .authenticate then
      some ((sockets.queue id control).set id
        { session := .bootstrapping
          reader := if sockets.queues id control then .waiting else .ended })
    else none
  | .rejected id =>
    match (sockets.connections id).reader with
    | .working .authenticate =>
      some ((sockets.queue id control).set id { session := .closed, reader := .ended })
    | .identified _ =>
      some (((sockets.onHub (sockets.hub.disconnect id)).queue id control).set id
        { session := .closed, reader := .ended })
    | _ => none
  | .subscribe id protocolVersion =>
    match (sockets.connections id).reader with
    | .working (.subscribe group) =>
      some (sockets.onHub (sockets.hub.subscribeHoldingHandshakes group id protocolVersion))
    | _ => none
  | .release id replayedTo =>
    match (sockets.connections id).reader with
    | .working (.subscribe group) =>
      some (sockets.onHub (sockets.hub.releaseHandshakes group id replayedTo))
    | _ => none
  | .answer id frame =>
    match (sockets.connections id).reader with
    | .working _ =>
      if sockets.queues id frame then some (sockets.queue id frame)
      else some ((sockets.queue id frame).setReader id .ended)
    | _ => none
  | .finish id =>
    match (sockets.connections id).reader with
    -- An `AUTH` ends ready, bootstrapping or rejected.
    | .working .authenticate => none
    | .working _ => some (sockets.setReader id .waiting)
    | _ => none
  | .bye id =>
    if (sockets.connections id).reader = .waiting then
      let answered := sockets.queue id control
      some ((answered.onHub (answered.hub.onSender id OutboundSender.close)).set id
        { session := .closed, reader := .ended })
    else none
  | .leave id =>
    if (sockets.connections id).reader = .ended then none
    else some (sockets.setReader id .ended)
  | .ping id =>
    some (sockets.onHub (sockets.hub.onSender id (fun sender => (sender.trySend .ping).2)))
  | .write id =>
    if (sockets.hub.senders id).receiving then
      some (sockets.onHub (sockets.hub.onSender id takeNext))
    else none
  | .writerEnds id =>
    some (sockets.onHub (sockets.hub.onSender id
      (fun sender => { sender with receiving := false })))
  | .disconnect id =>
    if (sockets.connections id).reader = .ended then
      some (sockets.onHub (sockets.hub.disconnect id))
    else none
  | .fanout group frame writer minimumVersion =>
    some (sockets.onHub (sockets.hub.fanoutFrame group frame writer minimumVersion))
  | .settle order => some (sockets.onHub (sockets.hub.settleDowngrades order))
  | .evict entry => some (sockets.onHub (sockets.hub.evict entry))

/-- The step relation. -/
def Steps (sockets : Sockets) (operation : Operation) (after : Sockets) : Prop :=
  sockets.step operation = some after

/-! ### The properties -/

/-- The connection's session is ready, its reader runs, and it is not flagged. -/
def Live (sockets : Sockets) (id : ConnectionId) : Prop :=
  (∃ entry, (sockets.connections id).session = .ready entry) ∧
    (sockets.connections id).reader ≠ .ended ∧ sockets.hub.isEvicted id = false

/-- Every live connection stands in the principal index under its own entry hash. -/
def Findable (sockets : Sockets) : Prop :=
  ∀ id entry, (sockets.connections id).session = .ready entry →
    (sockets.connections id).reader ≠ .ended → sockets.hub.isEvicted id = false →
      id ∈ sockets.hub.principals entry

/-- The operation is not a fanout that finds the queue of a live connection closed: a
connection whose writer task has ended while its reader still runs. -/
def Spares (sockets : Sockets) : Operation → Prop
  | .fanout group frame writer minimumVersion =>
    ∀ id, sockets.Live id → ¬ sockets.hub.Discards group frame writer minimumVersion id
  | _ => True

/-- The operation is a fanout that finds the queue of this connection closed. -/
def Discarded (sockets : Sockets) (operation : Operation) (id : ConnectionId) : Prop :=
  match operation with
  | .fanout group frame writer minimumVersion =>
    sockets.hub.Discards group frame writer minimumVersion id
  | _ => False

/-! ### What one step can do -/

/-- What holds in every state: only ready connections subscribe, the reader works on what
its session defers, ids at or above the counter are unused, and nobody is subscribed to
a group twice. -/
structure Tidy (sockets : Sockets) : Prop where
  subscribed : ∀ group id, id ∈ sockets.hub.subscriberIds group →
    (sockets.connections id).reader ≠ .ended →
      ∃ entry, (sockets.connections id).session = .ready entry
  coherent : ∀ id, (sockets.connections id).Coherent
  unused : ∀ id, sockets.hub.nextId ≤ id → sockets.connections id = Connection.absent
  bounded : ∀ group id, id ∈ sockets.hub.subscriberIds group → id < sockets.hub.nextId
  nodup : ∀ group, (sockets.hub.subscriberIds group).Nodup

/-- What a step may do to a connection that goes on: it gets an entry hash from `identify`
only, and becomes ready by `authenticated` only. -/
structure Keeps (operation : Operation) (id : ConnectionId) (before after : Connection) :
    Prop where
  coherent : after.Coherent
  running : after.reader ≠ .ended → before.reader ≠ .ended
  entry : ∀ entry, after.reader ≠ .ended → after.entry = some entry →
    before.entry = some entry ∨ operation = .identify id entry
  granted : ∀ entry, after.reader ≠ .ended → after.session = .ready entry →
    before.session = .ready entry ∨ operation = .authenticated id
  ready : ∀ entry, after.reader ≠ .ended → before.session = .ready entry →
    after.session = .ready entry

/-- A step that opens no connection and adds no subscriber. -/
structure Ordinary (sockets : Sockets) (operation : Operation) (after : Sockets) : Prop where
  hub : Registry.Narrows
    (fun id => (after.connections id).reader = .ended ∨ sockets.Discarded operation id)
    sockets.hub after.hub
  keeps : ∀ id, Keeps operation id (sockets.connections id) (after.connections id)
  unused : ∀ id, sockets.connections id = Connection.absent →
    after.connections id = Connection.absent
  takes : ∀ id work, (after.connections id).reader = .handling work →
    (sockets.connections id).reader = .handling work ∧ operation ≠ .perform id ∨
      sockets.hub.isEvicted id = false

variable {operation : Operation} {id : ConnectionId} {conn : Connection}

theorem Keeps.refl (h : conn.Coherent) : Keeps operation id conn conn where
  coherent := h
  running hrn := hrn
  entry _ _ he := Or.inl he
  granted _ _ hready := Or.inl hready
  ready _ _ hready := hready

theorem Keeps.ended {b t} (h : t.reader = .ended) : Keeps operation id b t where
  coherent := by simp [Connection.Coherent, h]
  running hrn := absurd h hrn
  entry _ hrn := absurd h hrn
  granted _ hrn := absurd h hrn
  ready _ hrn := absurd h hrn

theorem Keeps.moved {reader} (hrn : conn.reader ≠ .ended) (he : ∀ entry, reader ≠ .identified entry)
    (hcoherent : Connection.Coherent { conn with reader := reader }) :
    Keeps operation id conn { conn with reader := reader } where
  coherent := hcoherent
  running _ := hrn
  granted _ _ hready := Or.inl hready
  entry entry _ ha := by
    left
    cases hs : conn.session <;> simp_all [Connection.entry]
  ready _ _ hready := hready

theorem takeNext_evicted (tx : OutboundSender) : (takeNext tx).evicted = tx.evicted := by
  simp only [takeNext]
  split <;> rfl

section Steps

variable {sockets after : Sockets} {operation : Operation}

/-- Queueing for a connection's own client touches its queue only. -/
theorem narrows_queue (sockets : Sockets) (id : ConnectionId) (frame : Frame) :
    Registry.Narrows nobody sockets.hub (sockets.queue id frame).hub := by
  change Registry.Narrows nobody sockets.hub
    (sockets.hub.onSender id (fun tx => (tx.tryQueue frame).2))
  refine narrows_onSender sockets.hub id ?_
  intro hflag
  exact (OutboundSender.tryQueue_evicted _ _).trans hflag

variable {id : ConnectionId}

theorem connected_of_ne (hne : id ≠ sockets.hub.nextId) :
    sockets.connected.connections id = sockets.connections id ∧
      sockets.connected.hub.isEvicted id = sockets.hub.isEvicted id := by
  simp [connected, isEvicted, Registry.connect, update_of_ne hne]

variable (h : sockets.Tidy)
include h

/-- A session at work on an `AUTH` was challenged. -/
theorem Tidy.challenged (hreader : (sockets.connections id).reader = .working .authenticate) :
    (sockets.connections id).session = .challenged := by
  have hcoherent := h.coherent id
  simp only [Connection.Coherent, hreader] at hcoherent
  cases hs : (sockets.connections id).session <;> simp [Session.defers, hs] at hcoherent ⊢

variable {operations : List Operation} {hub : Registry} {g : Bytes}

theorem Tidy.ordinary_hub (hhub : Registry.Narrows
      (fun id => (sockets.connections id).reader = .ended ∨ sockets.Discarded operation id)
      sockets.hub hub) (hoperation : ∀ id, operation ≠ .perform id := by simp) :
    sockets.Ordinary operation (sockets.onHub hub) where
  hub := hhub
  keeps id := Keeps.refl (h.coherent id)
  unused _ habs := habs
  takes id _ hwork := Or.inl ⟨hwork, hoperation id⟩

/-- A step of one running connection, and of the hub, which loses that connection only
if its reader ends. -/
theorem Tidy.ordinary_set {conn}
    (hhub : Registry.Narrows (· = id ∧ conn.reader = .ended) sockets.hub hub)
    (hrn : (sockets.connections id).reader ≠ .ended)
    (hkeeps : Keeps operation id (sockets.connections id) conn)
    (htakes : ∀ work, conn.reader = .handling work → sockets.hub.isEvicted id = false :=
      by simp) (hoperation : ∀ x, operation = .perform x → x = id := by simp) :
    sockets.Ordinary operation ((sockets.onHub hub).set id conn) := by
  have hself : ((sockets.onHub hub).set id conn).connections id = conn := by
    simp [set]
  have ho : ∀ {x}, x ≠ id →
      ((sockets.onHub hub).set id conn).connections x = sockets.connections x :=
    fun hne => update_of_ne hne _ _
  refine ⟨⟨hhub.ids, hhub.flags, ?_, hhub.nextId⟩, ?_, ?_, ?_⟩
  · intro entry x hin
    refine (hhub.index entry x hin).imp_right (.imp_right ?_)
    rintro ⟨rfl, hend⟩
    exact .inl (by rw [hself]; exact hend)
  · intro x
    by_cases hne : x = id
    · subst hne
      rw [hself]
      exact hkeeps
    · rw [ho hne]
      exact .refl (h.coherent x)
  · intro x habs
    have hne : x ≠ id := by
      rintro rfl
      exact hrn (by rw [habs]; rfl)
    rw [ho hne]
    exact habs
  · intro x work hwork
    by_cases hne : x = id
    · subst hne
      rw [hself] at hwork
      exact .inr (htakes work hwork)
    · rw [ho hne] at hwork
      exact .inl ⟨hwork, fun hop => hne (hoperation x hop)⟩

/-- Everything one step can do: open a connection, add a subscriber, or neither. -/
theorem Tidy.step_cases (hs : sockets.Steps operation after) :
    (operation = .connect ∧ after = sockets.connected) ∨
      (∃ id g protocolVersion, operation = .subscribe id protocolVersion ∧
        (sockets.connections id).reader = .working (.subscribe g) ∧ after = sockets.onHub
            (sockets.hub.subscribeHoldingHandshakes g id protocolVersion)) ∨
      sockets.Ordinary operation after := by
  have hrefl : ∀ {lost}, Registry.Narrows lost sockets.hub sockets.hub :=
    (Registry.Narrows.refl sockets.hub).mono
  have hqueue : ∀ {lost} id frame, Registry.Narrows lost sockets.hub (sockets.queue id frame).hub :=
    fun id frame => (narrows_queue sockets id frame).mono
  cases operation with
  | connect =>
    cases hs
    exact .inl ⟨rfl, rfl⟩
  | challenge id =>
    simp only [Steps, step] at hs
    split_ifs at hs with hguard
    cases hs
    simp only [Bool.and_eq_true, decide_eq_true_eq] at hguard
    refine .inr (.inr (h.ordinary_set hrefl ?_
      ⟨trivial, ?_, by simp [Connection.entry], by simp, ?_⟩))
    · simp [hguard.1, Connection.opened]
    · simp [hguard.1, Connection.opened]
    · simp [hguard.1, Connection.opened]
  | receive id work =>
    simp only [Steps, step] at hs
    split_ifs at hs with hreader hflag hdefers
    · cases hs
      exact .inr (.inr (h.ordinary_set hrefl (by simp [hreader]) (.ended rfl)))
    · cases hs
      refine .inr (.inr (h.ordinary_set hrefl (by simp [hreader])
        (.moved (by simp [hreader]) (by simp) hdefers) ?_))
      intro _ _
      exact Bool.eq_false_iff.mpr hflag
  | perform id =>
    simp only [Steps, step] at hs
    split at hs
    next work hreader =>
      split_ifs at hs
      · cases hs
        exact .inr (.inr (h.ordinary_set (hqueue id control) (by simp [hreader]) (.ended rfl)))
      · cases hs
        have hcoherent := h.coherent id
        simp only [Connection.Coherent, hreader] at hcoherent
        exact .inr (.inr (h.ordinary_set hrefl (by simp [hreader])
          (.moved (by simp [hreader]) (by simp) hcoherent)))
    next => cases hs
  | identify id entry =>
    simp only [Steps, step] at hs
    split_ifs at hs with hreader
    cases hs
    have hhub := (narrows_identify sockets.hub entry id).1
    have hsess := h.challenged hreader
    refine .inr (.inr (h.ordinary_set hhub.mono (by simp [hreader])
      ⟨hsess, fun _ => by simp [hreader], ?_, fun _ _ hready => .inl hready,
        fun _ _ hready => hready⟩))
    intro x _ ho
    have heq : entry = x := by simpa [Connection.entry, onHub, hsess] using ho
    exact .inr (heq ▸ rfl)
  | authenticated id =>
    simp only [Steps, step] at hs
    split at hs
    next entry hreader =>
      cases hs
      have hsess : (sockets.connections id).session = .challenged := by
        have hcoherent := h.coherent id
        simpa only [Connection.Coherent, hreader] using hcoherent
      refine .inr (.inr (h.ordinary_set (hqueue id control) (by simp [hreader])
        ⟨?_, fun _ => by simp [hreader], ?_, fun _ _ _ => .inr rfl, ?_⟩ ?_))
      · simp only [Connection.Coherent]
        split_ifs <;> trivial
      · intro x _ ho
        exact .inl (by simpa [Connection.entry, hsess, hreader] using ho)
      · intro x _ hready
        rw [hsess] at hready
        cases hready
      · intro work hwork
        split_ifs at hwork
    next => cases hs
  | bootstrapping id =>
    simp only [Steps, step] at hs
    split_ifs at hs with hreader
    · cases hs
      refine .inr (.inr (h.ordinary_set (hqueue id control) (by simp [hreader])
        ⟨trivial, fun _ => by simp [hreader], by simp [Connection.entry], by simp, ?_⟩))
      intro entry _ hready
      rw [h.challenged hreader] at hready
      cases hready
    · cases hs
      exact .inr (.inr (h.ordinary_set (hqueue id control) (by simp [hreader]) (.ended rfl)))
  | rejected id =>
    simp only [Steps, step] at hs
    split at hs
    next hreader =>
      cases hs
      exact .inr (.inr (h.ordinary_set (hqueue id control) (by simp [hreader]) (.ended rfl)))
    next entry hreader =>
      cases hs
      have hhub := (narrows_disconnect sockets.hub id).trans
        (narrows_queue (sockets.onHub (sockets.hub.disconnect id)) id control).mono
      refine .inr (.inr (h.ordinary_set (hhub.weaken ?_) (by simp [hreader]) (.ended rfl)))
      intro x ho
      exact ⟨ho, rfl⟩
    next => cases hs
  | subscribe id protocolVersion =>
    simp only [Steps, step] at hs
    split at hs
    next g hreader =>
      cases hs
      exact .inr (.inl ⟨id, g, protocolVersion, rfl, hreader, rfl⟩)
    next => cases hs
  | release id replayedTo =>
    simp only [Steps, step] at hs
    split at hs
    next g _ =>
      cases hs
      exact .inr (.inr (h.ordinary_hub
        (narrows_releaseHandshakes sockets.hub g id replayedTo).mono))
    next => cases hs
  | answer id frame =>
    simp only [Steps, step] at hs
    split at hs
    next work hreader =>
      split_ifs at hs
      · cases hs
        exact .inr (.inr (h.ordinary_hub (hqueue id frame)))
      · cases hs
        exact .inr (.inr (h.ordinary_set (hqueue id frame) (by simp [hreader]) (.ended rfl)))
    next => cases hs
  | finish id =>
    simp only [Steps, step] at hs
    split at hs
    next => cases hs
    next work _ hreader =>
      cases hs
      exact .inr (.inr (h.ordinary_set hrefl (by simp [hreader])
        (.moved (by simp [hreader]) (by simp) trivial)))
    next => cases hs
  | bye id =>
    simp only [Steps, step] at hs
    split_ifs at hs with hreader
    cases hs
    refine .inr (.inr (h.ordinary_set ((hqueue id control).trans
      (narrows_onSender _ id ?_).mono) (by simp [hreader]) (.ended rfl)))
    intro hflag
    exact (OutboundSender.close_evicted _).trans hflag
  | leave id =>
    simp only [Steps, step] at hs
    split_ifs at hs with hreader
    cases hs
    exact .inr (.inr (h.ordinary_set hrefl hreader (.ended rfl)))
  | ping id =>
    cases hs
    exact .inr (.inr (h.ordinary_hub (narrows_onSender _ id
      (fun hflag => (OutboundSender.trySend_evicted _ _).trans hflag)).mono))
  | write id =>
    simp only [Steps, step] at hs
    split_ifs at hs
    cases hs
    exact .inr (.inr (h.ordinary_hub (narrows_onSender _ id
      (fun hflag => (takeNext_evicted _).trans hflag)).mono))
  | writerEnds id =>
    cases hs
    exact .inr (.inr (h.ordinary_hub (narrows_onSender _ id (fun hflag => hflag)).mono))
  | disconnect id =>
    simp only [Steps, step] at hs
    split_ifs at hs with hreader
    cases hs
    refine .inr (.inr (h.ordinary_hub ((narrows_disconnect sockets.hub id).weaken ?_)))
    rintro x rfl
    exact .inl hreader
  | fanout g frame w low =>
    cases hs
    exact .inr (.inr (h.ordinary_hub ((narrows_fanoutFrame (h.nodup g)).weaken (fun _ => .inr))))
  | settle order =>
    cases hs
    exact .inr (.inr (h.ordinary_hub (narrows_settleDowngrades order sockets.hub).mono))
  | evict entry =>
    cases hs
    exact .inr (.inr (h.ordinary_hub (narrows_evict sockets.hub entry).mono))

omit h in
theorem tidy_start : start.Tidy where
  subscribed _ _ h := by cases h
  coherent _ := trivial
  unused _ _ := rfl
  bounded _ _ h := by cases h
  nodup _ := List.nodup_nil

theorem Tidy.connected : sockets.connected.Tidy where
  subscribed g id hin hrn := by
    have hlt : id < sockets.hub.nextId := h.bounded g id hin
    simp only [Sockets.connected, update_of_ne hlt.ne] at hrn ⊢
    exact h.subscribed g id hin hrn
  coherent id := by
    by_cases hid : id = sockets.hub.nextId
    · simp [Sockets.connected, hid, Connection.Coherent, Connection.opened]
    · simpa only [Sockets.connected, update_of_ne hid] using h.coherent id
  unused id hle := by
    have hlt : sockets.hub.nextId < id := hle
    simpa only [Sockets.connected, update_of_ne hlt.ne'] using h.unused id hlt.le
  bounded g id hin := (h.bounded g id hin).trans (Nat.lt_succ_self _)
  nodup := h.nodup

theorem Tidy.subscribe (hreader : (sockets.connections id).reader = .working (.subscribe g))
    (protocolVersion : Nat) :
    (sockets.onHub (sockets.hub.subscribeHoldingHandshakes g id protocolVersion)).Tidy := by
  have hready : ∃ entry, (sockets.connections id).session = .ready entry := by
    have hcoherent := h.coherent id
    simp only [Connection.Coherent, hreader] at hcoherent
    cases hs : (sockets.connections id).session <;> simp [Session.defers, hs] at hcoherent ⊢
  have hlt : id < sockets.hub.nextId := by
    refine Nat.lt_of_not_le fun hle => ?_
    rw [h.unused id hle] at hreader
    cases hreader
  have hids := subscriberIds_subscribeWith (some []) sockets.hub g id protocolVersion
  have hnext := (subscribeWith_rest (some []) sockets.hub g id protocolVersion).2.2
  have hcases : ∀ other x,
      x ∈ (subscribeWith (some []) sockets.hub g id protocolVersion).subscriberIds
        other → x ∈ sockets.hub.subscriberIds other ∨ x = id := by
    intro other x hx
    rcases hids other with heq | ⟨-, hmore⟩
    · exact .inl (heq ▸ hx)
    · rw [hmore] at hx
      simpa using hx
  refine ⟨?_, h.coherent, ?_, ?_, ?_⟩
  · intro other x hx hrn
    rcases hcases other x hx with hold | rfl
    · exact h.subscribed other x hold hrn
    · exact hready
  · intro x hle
    exact h.unused x (hnext.symm.trans_le hle)
  · intro other x hx
    refine Nat.lt_of_lt_of_eq ?_ hnext.symm
    rcases hcases other x hx with hold | rfl
    · exact h.bounded other x hold
    · exact hlt
  · intro other
    change (subscriberIds (subscribeWith (some []) sockets.hub g id protocolVersion) other).Nodup
    rcases hids other with heq | ⟨hnew, hmore⟩
    · rw [heq]
      exact h.nodup other
    · rw [hmore]
      exact .append (h.nodup other) (List.nodup_singleton id) (List.disjoint_singleton.mpr hnew)

theorem Tidy.ordinary (hord : sockets.Ordinary operation after) : after.Tidy where
  subscribed g id hid hrn := by
    obtain ⟨entry, hready⟩ := h.subscribed g id ((hord.hub.ids g).subset hid)
      ((hord.keeps id).running hrn)
    exact ⟨entry, (hord.keeps id).ready entry hrn hready⟩
  coherent id := (hord.keeps id).coherent
  unused id hle := by
    rw [hord.hub.nextId] at hle
    exact hord.unused id (h.unused id hle)
  bounded g id hid := by
    rw [hord.hub.nextId]
    exact h.bounded g id ((hord.hub.ids g).subset hid)
  nodup g := (h.nodup g).sublist (hord.hub.ids g)

theorem tidy_step (hs : sockets.Steps operation after) : after.Tidy := by
  rcases h.step_cases hs with ⟨-, rfl⟩ | ⟨id, g, ver, -, hreader, rfl⟩ | hord
  · exact h.connected
  · exact h.subscribe hreader ver
  · exact h.ordinary hord

omit h

theorem tidy_run (run : Run Steps start operations sockets) : sockets.Tidy :=
  Run.invariant (fun _ _ _ h hs => tidy_step h hs) run tidy_start

/-- Every running, unflagged connection is indexed from `identify` on. -/
def Registered (sockets : Sockets) : Prop :=
  ∀ id entry, (sockets.connections id).reader ≠ .ended →
    (sockets.connections id).entry = some entry → sockets.hub.isEvicted id = false →
      id ∈ sockets.hub.principals entry

theorem Registered.findable (h : sockets.Registered) : sockets.Findable := by
  intro id entry hready hrn hflag
  exact h id entry hrn (Connection.entry_of_ready hready) hflag

/-- `identify` indexes the connection under the hash it goes on with. -/
theorem mem_principals_of_identify {entry}
    (hs : sockets.Steps (.identify id entry) after) : id ∈ after.hub.principals entry := by
  simp only [Steps, step] at hs
  split_ifs at hs
  cases hs
  exact (narrows_identify sockets.hub entry id).2

/-- A step that discards no live connection keeps everyone registered. -/
theorem registered_step (ht : sockets.Tidy) (h : sockets.Registered)
    (hspares : sockets.Spares operation)
    (hs : sockets.Steps operation after) : after.Registered := by
  rcases ht.step_cases hs with ⟨-, rfl⟩ | ⟨id, g, ver, -, hreader, rfl⟩ | hord
  · intro id entry hrn he hflag
    by_cases hid : id = sockets.hub.nextId
    · subst hid
      simp [connected, Connection.entry, Connection.opened] at he
    · obtain ⟨hsame, heq⟩ := connected_of_ne hid
      rw [hsame] at hrn he
      exact h id entry hrn he (heq ▸ hflag)
  · intro x entry hrn he hflag
    obtain ⟨hprin, hsenders, -⟩ := subscribeWith_rest (some []) sockets.hub g id ver
    simp only [isEvicted, onHub, subscribeHoldingHandshakes, hsenders, hprin] at hflag ⊢
    exact h x entry hrn he hflag
  · intro id entry hrn he hflag
    have hb := hord.hub.unflagged hflag
    have hran := (hord.keeps id).running hrn
    rcases (hord.keeps id).entry entry hrn he with hold | hnew
    · rcases hord.hub.index entry id (h id entry hran hold hb) with
        hin | hevicted | hend | hdiscarded
      · exact hin
      · exact absurd hevicted (Bool.eq_false_iff.mp hflag)
      · exact absurd hend hrn
      · cases operation with
        | fanout g frame w low =>
          -- A subscriber whose reader runs is ready, so a discarded one is live.
          have hsubscribed : id ∈ sockets.hub.subscriberIds g := by
            obtain ⟨sub, hmem, rfl, _⟩ := hdiscarded
            exact List.mem_map_of_mem hmem
          exact absurd hdiscarded (hspares id ⟨ht.subscribed g id hsubscribed hran, hran, hb⟩)
        | _ => exact hdiscarded.elim
    · subst hnew
      exact mem_principals_of_identify hs

/-- A fanout that discards a live connection leaves it out of the index. -/
theorem not_findable_of_discards (ht : sockets.Tidy) {frame w low} (hl : sockets.Live id)
    (hdiscards : sockets.hub.Discards g frame w low id) :
    ¬ (sockets.onHub (sockets.hub.fanoutFrame g frame w low)).Findable := by
  obtain ⟨⟨entry, hready⟩, hrn, hflag⟩ := hl
  obtain ⟨hgone, heq⟩ := discarded_fanoutFrame (ht.nodup g) hdiscards
  intro hfindable
  exact hgone entry (hfindable id entry hready hrn (heq.trans hflag))

/-! ### Whole runs -/

/-- Every state along the operations is findable. -/
def FindableThroughout (operations : List Operation) : Prop :=
  ∀ before rest sockets, operations = before ++ rest → Run Steps start before sockets →
    sockets.Findable

/-- No fanout among the operations finds the queue of a live connection closed. -/
def SparedThroughout (operations : List Operation) : Prop :=
  ∀ before operation rest sockets, operations = before ++ operation :: rest →
    Run Steps start before sockets → sockets.Spares operation

/-- The operation is the connection's `perform` of this work item, and it is not refused. -/
def Performs (sockets : Sockets) (operation : Operation) (id : ConnectionId) (work : Work) : Prop :=
  operation = .perform id ∧ (sockets.connections id).reader = .handling work ∧
    (sockets.hub.isEvicted id && work.refusedWhenEvicted) = false

/-- After an eviction of an entry hash, a connection authenticated under it takes up no
further work item. One its reader had already taken off the socket is refused if it
writes or subscribes, and is otherwise performed that once. -/
def EvictionEnds (operations : List Operation) : Prop :=
  ∀ before entry between operation rest sockets later id work,
    operations = before ++ .evict entry :: (between ++ operation :: rest) →
    Run Steps start before sockets →
    (sockets.connections id).session = .ready entry →
    Run Steps (sockets.onHub (sockets.hub.evict entry)) between later →
    later.Performs operation id work →
      (sockets.connections id).reader = .handling work ∧ work.refusedWhenEvicted = false ∧
        .perform id ∉ between

theorem registered_run (run : Run Steps start operations sockets)
    (hspared : SparedThroughout operations) : sockets.Registered := by
  refine Run.history ?_ ?_ run hspared
  · intro _ id entry hrn
    exact absurd rfl hrn
  · intro b sockets operation after hb ih hs hspared
    have hr : SparedThroughout b := by
      intro first x rest t hsplit hrun
      exact hspared first x (rest ++ [operation]) t (by simp [hsplit]) hrun
    exact registered_step (tidy_run hb) (ih hr) (hspared b operation [] sockets rfl hb) hs

/-- The reader of a connection that is flagged or ended takes up nothing new. -/
theorem silenced_run {between later}
    (run : Run Steps sockets between later) (ht : sockets.Tidy) (hid : id < sockets.hub.nextId)
    (hsilent : sockets.hub.isEvicted id = true ∨ (sockets.connections id).reader = .ended) :
    (later.hub.isEvicted id = true ∨ (later.connections id).reader = .ended) ∧
      ∀ work, (later.connections id).reader = .handling work →
        (sockets.connections id).reader = .handling work ∧ .perform id ∉ between := by
  suffices h : later.Tidy ∧ id < later.hub.nextId ∧
      (later.hub.isEvicted id = true ∨ (later.connections id).reader = .ended) ∧
      ∀ work, (later.connections id).reader = .handling work →
        (sockets.connections id).reader = .handling work ∧ .perform id ∉ between from h.2.2
  refine Run.history ?_ ?_ run
  · exact ⟨ht, hid, hsilent, fun work hwork => ⟨hwork, by simp⟩⟩
  · rintro between u operation v - ⟨hu, hlt, hquiet, htaken⟩ hs
    refine ⟨tidy_step hu hs, ?_⟩
    rcases hu.step_cases hs with ⟨rfl, rfl⟩ | ⟨x, g, ver, rfl, -, rfl⟩ | hord
    · obtain ⟨heq, hflag⟩ := connected_of_ne hlt.ne
      refine ⟨hlt.trans (Nat.lt_succ_self _), by rw [heq, hflag]; exact hquiet, ?_⟩
      intro work hwork
      rw [heq] at hwork
      simpa using htaken work hwork
    · obtain ⟨-, hsenders, hnext⟩ := subscribeWith_rest (some []) u.hub g x ver
      refine ⟨hlt.trans_eq hnext.symm, ?_, fun work hwork => by simpa using htaken work hwork⟩
      simpa only [isEvicted, onHub, subscribeHoldingHandshakes, hsenders] using hquiet
    · refine ⟨hlt.trans_eq hord.hub.nextId.symm, ?_, ?_⟩
      · rcases hquiet with hflag | hend
        · exact .inl (hord.hub.flags id hflag)
        · exact .inr (by_contra (fun h => (hord.keeps id).running h hend))
      · intro work hwork
        rcases hord.takes id work hwork with ⟨hheld, hperf⟩ | hunflagged
        · obtain ⟨hfirst, hnot⟩ := htaken work hheld
          exact ⟨hfirst, by simp [hnot, hperf.symm]⟩
        · rcases hquiet with hflag | hend
          · rw [hflag] at hunflagged
            cases hunflagged
          · have hran := (hord.keeps id).running (by simp [hwork])
            exact absurd hend hran

end Steps

/--
Along any interleaving, every live connection is in the principal index in every state
exactly when no fanout finds the queue of a live connection closed. Under that
condition an eviction ends the work of every connection authenticated under its hash.
-/
theorem findable_iff_spared (operations : List Operation) :
    (FindableThroughout operations ↔ SparedThroughout operations) ∧
      (SparedThroughout operations → EvictionEnds operations) := by
  have hb : ∀ {before rest}, operations = before ++ rest →
      SparedThroughout operations → SparedThroughout before := by
    intro before rest hsplit hspared first operation more t hfirst hrun
    exact hspared first operation (more ++ rest) t (by simp [hsplit, hfirst]) hrun
  refine ⟨⟨?_, ?_⟩, ?_⟩
  · intro hfindable before operation rest sockets hsplit hrun
    cases operation with
    | fanout group frame writer minimumVersion =>
      intro id hl hdiscards
      have hs : sockets.Steps (.fanout group frame writer minimumVersion)
        (sockets.onHub (sockets.hub.fanoutFrame group frame writer minimumVersion)) := rfl
      exact not_findable_of_discards (tidy_run hrun) hl hdiscards
        (hfindable _ rest _ (by simp [hsplit]) (hrun.snoc hs))
    | _ => trivial
  · intro hspared before rest sockets hsplit hrun
    exact (registered_run hrun (hb hsplit hspared)).findable
  · intro hspared before entry between operation rest sockets later id work hsplit hrun hready
      hlater hperforms
    have ht := tidy_run hrun
    have hregistered := registered_run hrun (hb hsplit hspared)
    have hid : id < sockets.hub.nextId := by
      refine Nat.lt_of_not_le fun hle => ?_
      rw [ht.unused id hle] at hready
      cases hready
    -- The index held the connection, or it was flagged or over before the eviction.
    have hsilent : (sockets.hub.evict entry).isEvicted id = true ∨
        (sockets.connections id).reader = .ended := by
      by_cases hend : (sockets.connections id).reader = .ended
      · exact .inr hend
      · refine .inl ?_
        cases hflag : sockets.hub.isEvicted id with
        | true => exact (Registry.narrows_evict sockets.hub entry).flags id hflag
        | false =>
          exact Registry.isEvicted_evict (hregistered.findable id entry hready hend hflag)
    have hs : sockets.Steps (.evict entry) (sockets.onHub (sockets.hub.evict entry)) := rfl
    obtain ⟨hquiet, htaken⟩ := silenced_run hlater (tidy_step ht hs)
      (hid.trans_eq (Registry.narrows_evict sockets.hub entry).nextId.symm) hsilent
    obtain ⟨-, hwork, hpassed⟩ := hperforms
    obtain ⟨hheld, hnot⟩ := htaken work hwork
    refine ⟨hheld, ?_, hnot⟩
    rcases hquiet with hflag | hend
    · simpa [hflag] using hpassed
    · rw [hend] at hwork
      cases hwork

/-! ### A connection the hub forgets -/

/-- Take operations in order. -/
def takeAll (sockets : Sockets) : List Operation → Option Sockets
  | [] => some sockets
  | operation :: rest => (sockets.step operation).bind (fun after => after.takeAll rest)

theorem run_of_takeAll {operations sockets t}
    (h : sockets.takeAll operations = some t) : Run Steps sockets operations t := by
  induction operations generalizing sockets with
  | nil =>
    cases h
    exact .nil _
  | cons operation rest ih =>
    obtain ⟨next, hs, hr⟩ := Option.bind_eq_some_iff.mp h
    exact .cons hs (ih hr)

/-- A connection opens and authenticates under an entry hash. -/
def authenticates (id : ConnectionId) (entry : Bytes) : List Operation :=
  [.connect, .challenge id, .receive id .authenticate, .perform id, .identify id entry,
    .authenticated id]

/-- A first device subscribes, and its writer task ends under it. A second device sends
an envelope to the group. -/
def strandedOperations : List Operation :=
  authenticates 0 (id32 10) ++
    [.receive 0 (.subscribe (id32 1)), .perform 0, .subscribe 0 1, .release 0 0, .finish 0,
      .writerEnds 0] ++
    authenticates 1 (id32 11) ++
    [.receive 1 .accept, .perform 1, .fanout (id32 1) (.push []) 1 1]

/-- The state they lead to. -/
def stranded : Sockets := (start.takeAll strandedOperations).getD start

/-- The state after an eviction of the first device and one more message from it. -/
def strandedLater : Sockets :=
  ((stranded.onHub (stranded.hub.evict (id32 10))).takeAll [.receive 0 .accept]).getD start

/-- The first device is ready, running and unflagged, and absent from the index. Evicting
its hash closes nothing, and its next message is performed. -/
theorem discarded_connection_keeps_working : Run Steps start strandedOperations stranded ∧
      (stranded.connections 0).session = .ready (id32 10) ∧ ¬ stranded.Findable ∧
      stranded.hub.evictCount (id32 10) = 0 ∧
      Run Steps (stranded.onHub (stranded.hub.evict (id32 10))) [.receive 0 .accept] strandedLater ∧
      strandedLater.Performs (.perform 0) 0 .accept ∧
      (stranded.connections 0).reader ≠ .handling .accept := by
  have hsome : ∀ {x : Option Sockets}, x.isSome = true → x = some (x.getD start) := by
    rintro (_ | x) hx
    · cases hx
    · rfl
  refine ⟨run_of_takeAll (hsome (by decide +kernel)), by decide +kernel, ?_, by decide +kernel,
    run_of_takeAll (hsome (by decide +kernel)),
    ⟨rfl, by decide +kernel, by decide +kernel⟩, by decide +kernel⟩
  intro hfindable
  have hmem := hfindable 0 (id32 10) (by decide +kernel) (by decide +kernel) (by decide +kernel)
  exact absurd hmem (by decide +kernel)

end Sockets

end WealdRelay.Hub
