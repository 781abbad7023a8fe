import Mathlib.Algebra.GroupWithZero.Nat
import Mathlib.Data.List.Nodup
import WealdRelay.Cbor

/-!
# The hub: subscriptions, the principal index and the fanout

The relay's live path (`hub.rs`) over the bounded outbound queues of `ws.rs`. A
connection's queue is bounded in frames and in bytes. Its sending half is shared by
the connection's own reader and by every hub entry that names the connection, so the
model keeps one `OutboundSender` per connection id and the hub entries keep the id.

A missing key of one of the source's maps and a key with an empty list are the same
here: a map is a function into lists.
-/

namespace WealdRelay.Hub

open List Function

/-- `SEND_QUEUE_BOUND`: the frames one queue holds. -/
def sendQueueBound : Nat := 256

/-- `SEND_QUEUE_BYTE_BUDGET`: eight mebibytes. -/
def sendQueueByteBudget : Nat := 8 * 1024 * 1024

/-- `MAX_HELD_HANDSHAKES`. -/
def maxHeldHandshakes : Nat := 256

/-- `OVERHEAD` of `Frame::queued_bytes`. -/
def frameOverhead : Nat := 256

/-- The frames the hub builds or tells apart. Any other frame is known to it by the
length of its payload only. -/
inductive Frame
  | push (envelope : Bytes)
  | handshake (group : Bytes) (seq : Nat) (message : Bytes)
  | live (group : Bytes) (epoch : Nat) (ct : Bytes)
  | call (group : Bytes) (epoch : Nat) (body : Bytes)
  | subAck (group : Bytes) (headSeq : Nat)
  | other (payload : Nat)
  deriving DecidableEq

namespace Frame

/-- What holding a frame in a queue costs, in bytes. -/
def queuedBytes : Frame → Nat
  | push envelope => envelope.length + frameOverhead
  | handshake _ _ message => message.length + frameOverhead
  | live _ _ ct => ct.length + frameOverhead
  | call _ _ body => body.length + frameOverhead
  | subAck _ _ => frameOverhead
  | other payload => payload + frameOverhead

/-- A frame that is never durable: shed, not downgraded, when there is no room. -/
def ephemeral : Frame → Bool
  | live _ _ _ => true
  | call _ _ _ => true
  | _ => false

/-- The frame no reconciliation brings back: a subscriber that misses it is ended. -/
def undowngradable : Frame → Bool
  | handshake _ _ _ => true
  | _ => false

end Frame

/-- `downgrade_frame`: a head of zero tells the client to reconcile. -/
def downgradeFrame (group : Bytes) : Frame := .subAck group 0

/-- `permits_for`: the cost of a frame, clamped to the whole budget. -/
def permitsFor (frame : Frame) : Nat := min frame.queuedBytes sendQueueByteBudget

/-- What stands in an outbound queue. -/
inductive Outbound
  | frame (frame : Frame)
  | ping
  | close
  deriving DecidableEq

/-- Only frames spend the byte budget. -/
def Outbound.permits : Outbound → Nat
  | .frame queued => permitsFor queued
  | .ping => 0
  | .close => 0

/-- A connection's outbound channel. `receiving` says that the writer task still
holds the other half. A channel that lost it keeps its queue as an account: the
permits of what it held are never given back. -/
structure OutboundSender where
  queue : List Outbound
  receiving : Bool
  evicted : Bool
  deriving DecidableEq

/-- What `try_queue` answers. -/
inductive Queued
  | sent
  | full
  | closed
  deriving DecidableEq

namespace OutboundSender

/-- `outbound_channel`. -/
def fresh : OutboundSender := { queue := [], receiving := true, evicted := false }

/-- Bytes queued and not yet written. -/
def queuedBytes (sender : OutboundSender) : Nat :=
  (sender.queue.map Outbound.permits).sum

/-- `OutboundSender::evict`. -/
def evict (sender : OutboundSender) : OutboundSender := { sender with evicted := true }

/-- `try_send`: a closed channel answers before a full one does. -/
def trySend (sender : OutboundSender) (item : Outbound) : Queued × OutboundSender :=
  if !sender.receiving then (.closed, sender)
  else if sendQueueBound ≤ sender.queue.length then (.full, sender)
  else (.sent, { sender with queue := sender.queue ++ [item] })

/-- `try_queue`: the permits first, then the channel. -/
def tryQueue (sender : OutboundSender) (frame : Frame) : Queued × OutboundSender :=
  if sendQueueByteBudget < sender.queuedBytes + permitsFor frame then (.full, sender)
  else sender.trySend (.frame frame)

/-- `OutboundSender::close`, best effort. -/
def close (sender : OutboundSender) : OutboundSender := (sender.trySend .close).2

variable (tx : OutboundSender)

@[simp]
theorem trySend_evicted (item : Outbound) : (tx.trySend item).2.evicted = tx.evicted := by
  simp only [trySend]
  split_ifs <;> rfl

@[simp]
theorem tryQueue_evicted (frame : Frame) : (tx.tryQueue frame).2.evicted = tx.evicted := by
  simp only [tryQueue]
  split_ifs
  · rfl
  · exact trySend_evicted tx (.frame frame)

@[simp]
theorem close_evicted : tx.close.evicted = tx.evicted :=
  trySend_evicted tx .close

/-- A queue answers `Closed` only once its writer task has ended. -/
theorem receiving_of_tryQueue_closed {tx : OutboundSender} {frame : Frame}
    (h : (tx.tryQueue frame).1 = .closed) : tx.receiving = false := by
  simp only [tryQueue, trySend] at h
  split_ifs at h with _ hrecv
  simpa using hrecv

end OutboundSender

/-- A connection's identity inside the hub. -/
abbrev ConnectionId := Nat

/-- One subscriber of one group. -/
structure Subscriber where
  id : ConnectionId
  protocolVersion : Nat
  downgradeOwed : Bool
  heldHandshakes : Option (List Frame)
  deriving DecidableEq

/-- What a fanout did to one subscriber. -/
inductive Delivery
  | sent
  | notSpoken
  | shed
  | downgraded
  | gone
  deriving DecidableEq

/-- The registry, with the channel of each connection. -/
structure Registry where
  groups : Bytes → List Subscriber
  principals : Bytes → List ConnectionId
  senders : ConnectionId → OutboundSender
  nextId : ConnectionId
  downgrades : Nat
  shed : Nat

/-- `Hub::new`: no connection, no entry. -/
def Registry.new : Registry where
  groups := fun _ => []
  principals := fun _ => []
  senders := fun _ => OutboundSender.fresh
  nextId := 0
  downgrades := 0
  shed := 0

namespace Registry

/-- Apply a change to one connection's channel. -/
def onSender (hub : Registry) (id : ConnectionId)
    (f : OutboundSender → OutboundSender) : Registry :=
  { hub with senders := update hub.senders id (f (hub.senders id)) }

/-- `Hub::connect`, with the fresh channel of the connection it names. -/
def connect (hub : Registry) : Registry :=
  { hub with
    senders := update hub.senders hub.nextId OutboundSender.fresh
    nextId := hub.nextId + 1 }

/-- Register interest in a group unless the connection is subscribed to it already. -/
def subscribeWith (held : Option (List Frame)) (hub : Registry) (group : Bytes)
    (id : ConnectionId) (protocolVersion : Nat) : Registry :=
  if (hub.groups group).any (fun subscriber => subscriber.id == id) then hub
  else
    { hub with
      groups := update hub.groups group (hub.groups group ++
        [{ id := id, protocolVersion := protocolVersion, downgradeOwed := false,
           heldHandshakes := held }]) }

/-- `Hub::subscribe`. -/
def subscribe : Registry → Bytes → ConnectionId → Nat → Registry :=
  subscribeWith none

/-- `Hub::subscribe_holding_handshakes`. -/
def subscribeHoldingHandshakes : Registry → Bytes → ConnectionId → Nat → Registry :=
  subscribeWith (some [])

/-- `Hub::identify`: idempotent for one connection. -/
def identify (hub : Registry) (entry : Bytes) (id : ConnectionId) : Registry :=
  if id ∈ hub.principals entry then hub
  else
    { hub with
      principals := update hub.principals entry (hub.principals entry ++ [id]) }

/-- `Hub::disconnect`: the connection leaves every group and the principal index.
Its socket is not touched. -/
def disconnect (hub : Registry) (id : ConnectionId) : Registry :=
  { hub with
    groups := fun group => (hub.groups group).filter (fun subscriber => subscriber.id != id)
    principals := fun entry => (hub.principals entry).filter (fun existing => existing != id) }

/-- One connection of an evicted principal: the signal, the close, the hub entries. -/
def evictOne (hub : Registry) (id : ConnectionId) : Registry :=
  (hub.onSender id (fun sender => sender.evict.close)).disconnect id

/-- `Hub::evict`. -/
def evict (hub : Registry) (entry : Bytes) : Registry :=
  (hub.principals entry).foldl evictOne
    { hub with principals := update hub.principals entry [] }

/-- `Hub::evict`'s answer: how many connections it closed. -/
def evictCount (hub : Registry) (entry : Bytes) : Nat := (hub.principals entry).length

end Registry

/-! ### The fanout -/

/-- What one turn of the fanout loop leaves: the subscriber, its channel, the outcome
to log (none for the writer itself), whether the hub drops the connection, and what is
added to the two counters. -/
structure Turn where
  subscriber : Subscriber
  sender : OutboundSender
  outcome : Option Delivery
  gone : Bool
  downgrades : Nat
  shed : Nat
  deriving DecidableEq

/-- A turn that ends the subscriber's hub entries. -/
def Turn.ended (subscriber : Subscriber) (sender : OutboundSender) : Turn where
  subscriber := subscriber
  sender := sender
  outcome := some .gone
  gone := true
  downgrades := 0
  shed := 0

/-- A turn that keeps the subscriber. -/
@[simp]
def Turn.kept (subscriber : Subscriber) (sender : OutboundSender)
    (outcome : Option Delivery) : Turn where
  subscriber := subscriber
  sender := sender
  outcome := outcome
  gone := false
  downgrades := 0
  shed := 0

/-- Queue the frame itself, nothing being owed or held. -/
def queueLive (frame : Frame) (subscriber : Subscriber) (sender : OutboundSender) : Turn :=
  match sender.tryQueue frame with
  | (.sent, sender) => Turn.kept subscriber sender (some .sent)
  | (.full, sender) =>
    if frame.ephemeral then
      { Turn.kept subscriber sender (some .shed) with shed := 1 }
    else if frame.undowngradable then Turn.ended subscriber sender.evict
    else
      { Turn.kept { subscriber with downgradeOwed := true } sender (some .downgraded) with
        downgrades := 1 }
  -- The entry is removed and the reader is not signalled.
  | (.closed, sender) => Turn.ended subscriber sender

/-- Pay an owed downgrade notice first, then queue the frame. -/
def queueOwing (group : Bytes) (frame : Frame) (subscriber : Subscriber)
    (sender : OutboundSender) : Turn :=
  if subscriber.downgradeOwed then
    match sender.tryQueue (downgradeFrame group) with
    | (.sent, sender) => queueLive frame { subscriber with downgradeOwed := false } sender
    | (.full, sender) =>
      if frame.undowngradable then Turn.ended subscriber sender.evict
      else Turn.kept subscriber sender (some .downgraded)
    | (.closed, sender) => Turn.ended subscriber sender
  else queueLive frame subscriber sender

/-- One turn of the loop of `Hub::fanout_frame`. -/
def deliver (group : Bytes) (frame : Frame) (writer : ConnectionId) (minimumVersion : Nat)
    (subscriber : Subscriber) (sender : OutboundSender) : Turn :=
  if subscriber.id = writer then Turn.kept subscriber sender none
  else if subscriber.protocolVersion < minimumVersion then
    Turn.kept subscriber sender (some .notSpoken)
  else
    match frame.undowngradable, subscriber.heldHandshakes with
    | true, some held =>
      if held.length < maxHeldHandshakes then
        Turn.kept { subscriber with heldHandshakes := some (held ++ [frame]) } sender (some .sent)
      else Turn.ended subscriber sender.evict
    | _, _ => queueOwing group frame subscriber sender

/-- The loop's accumulators. -/
structure Fanout where
  senders : ConnectionId → OutboundSender
  kept : List Subscriber
  outcomes : List (ConnectionId × Delivery)
  gone : List ConnectionId
  downgrades : Nat
  shed : Nat

/-- The accumulators after one more turn. -/
@[simp]
def Fanout.add (acc : Fanout) (id : ConnectionId) (turn : Turn) : Fanout where
  senders := update acc.senders id turn.sender
  kept := acc.kept ++ [turn.subscriber]
  outcomes := acc.outcomes ++ (turn.outcome.map (fun delivery => (id, delivery))).toList
  gone := acc.gone ++ (if turn.gone then [id] else [])
  downgrades := acc.downgrades + turn.downgrades
  shed := acc.shed + turn.shed

/-- The loop of `Hub::fanout_frame`. -/
def fanoutLoop (group : Bytes) (frame : Frame) (writer : ConnectionId)
    (minimumVersion : Nat) : List Subscriber → Fanout → Fanout
  | [], acc => acc
  | subscriber :: rest, acc =>
    fanoutLoop group frame writer minimumVersion rest (acc.add subscriber.id
        (deliver group frame writer minimumVersion subscriber (acc.senders subscriber.id)))

namespace Registry

/-- The accumulators as the loop starts. -/
def fanoutStart (hub : Registry) : Fanout where
  senders := hub.senders
  kept := []
  outcomes := []
  gone := []
  downgrades := hub.downgrades
  shed := hub.shed

/-- What the loop over one group leaves. -/
def fanoutTurns (hub : Registry) (group : Bytes) (frame : Frame) (writer : ConnectionId)
    (minimumVersion : Nat) : Fanout :=
  fanoutLoop group frame writer minimumVersion (hub.groups group) hub.fanoutStart

/-- `Hub::fanout_frame`: the loop under the lock, then a disconnect for each connection
it found gone. -/
def fanoutFrame (hub : Registry) (group : Bytes) (frame : Frame) (writer : ConnectionId)
    (minimumVersion : Nat) : Registry :=
  let turns := hub.fanoutTurns group frame writer minimumVersion
  turns.gone.foldl disconnect
    { hub with
      groups := update hub.groups group turns.kept
      senders := turns.senders
      downgrades := turns.downgrades
      shed := turns.shed }

/-- What `Hub::fanout_frame` answers. -/
def fanoutOutcomes (hub : Registry) (group : Bytes) (frame : Frame) (writer : ConnectionId)
    (minimumVersion : Nat) : List (ConnectionId × Delivery) :=
  (hub.fanoutTurns group frame writer minimumVersion).outcomes

end Registry

/-! ### Held handshakes and owed downgrades -/

/-- `u64::saturating_add(seq, 1)`. -/
def nextSeq (seq : Nat) : Nat := min (seq + 1) 18446744073709551615

/-- Queue the held handshakes the replay did not cover. One that finds no room ends
the connection; the second part says whether that happened. -/
@[simp]
def releaseLoop : List Frame → Nat → OutboundSender → OutboundSender × Bool
  | [], _, sender => (sender, false)
  | .handshake group seq message :: rest, next, sender =>
    if seq < next then releaseLoop rest next sender
    else
      match sender.tryQueue (.handshake group seq message) with
      | (.sent, sender) => releaseLoop rest (nextSeq seq) sender
      | (_, sender) => (sender.evict, true)
  | _ :: rest, next, sender => releaseLoop rest next sender

/-- The hold on one connection's handshakes taken off. -/
def unhold (id : ConnectionId) (subscriber : Subscriber) : Subscriber :=
  if subscriber.id = id then { subscriber with heldHandshakes := none } else subscriber

/-- Pay the notices owed in one group, each one that finds room. -/
def settleLoop (group : Bytes) : List Subscriber → (ConnectionId → OutboundSender) →
      List Subscriber × (ConnectionId → OutboundSender) × Nat
  | [], senders => ([], senders, 0)
  | subscriber :: rest, senders =>
    if subscriber.downgradeOwed then
      match (senders subscriber.id).tryQueue (downgradeFrame group) with
      | (.sent, sender) =>
        let settled := settleLoop group rest (update senders subscriber.id sender)
        ({ subscriber with downgradeOwed := false } :: settled.1, settled.2.1, settled.2.2 + 1)
      | _ =>
        let settled := settleLoop group rest senders
        (subscriber :: settled.1, settled.2)
    else
      let settled := settleLoop group rest senders
      (subscriber :: settled.1, settled.2)

namespace Registry

/-- `Hub::release_handshakes`. -/
def releaseHandshakes (hub : Registry) (group : Bytes) (id : ConnectionId)
    (replayedTo : Nat) : Registry :=
  match (hub.groups group).find? (fun subscriber => subscriber.id == id) with
  | none => hub
  | some subscriber =>
    match subscriber.heldHandshakes with
    | none => hub
    | some held =>
      let released := releaseLoop held replayedTo (hub.senders id)
      let hub :=
        { hub with
          groups := update hub.groups group ((hub.groups group).map (unhold id))
          senders := update hub.senders id released.1 }
      if released.2 then hub.disconnect id else hub

/-- `Hub::settle_downgrades` over one group. -/
def settleGroup (hub : Registry) (group : Bytes) : Registry :=
  let settled := settleLoop group (hub.groups group) hub.senders
  { hub with
    groups := update hub.groups group settled.1
    senders := settled.2.1 }

/-- `Hub::settle_downgrades`, with the groups in the order the map yields them. -/
def settleDowngrades (hub : Registry) (order : List Bytes) : Registry :=
  order.foldl settleGroup hub

end Registry

/-! ### What each operation does to the index, to the flags and to the subscribers -/

namespace Registry

/-- The connections subscribed to a group. -/
def subscriberIds (hub : Registry) (group : Bytes) : List ConnectionId :=
  (hub.groups group).map Subscriber.id

/-- The eviction flag of a connection. -/
def isEvicted (hub : Registry) (id : ConnectionId) : Bool := (hub.senders id).evicted

/-- What the hub's operations have in common: no subscriber is added, no flag is taken
back, and a connection leaves the principal index only flagged, or in `lost`. -/
structure Narrows (lost : ConnectionId → Prop) (before after : Registry) : Prop where
  ids : ∀ group, (after.subscriberIds group).Sublist (before.subscriberIds group)
  flags : ∀ id, before.isEvicted id = true → after.isEvicted id = true
  index : ∀ entry id, id ∈ before.principals entry →
    id ∈ after.principals entry ∨ after.isEvicted id = true ∨ lost id
  nextId : after.nextId = before.nextId

/-- Nobody is lost. -/
def nobody : ConnectionId → Prop := fun _ => False

variable {lost : ConnectionId → Prop}

theorem Narrows.trans {a b c} (hab : Narrows lost a b) (hbc : Narrows lost b c) :
    Narrows lost a c where
  ids g := (hbc.ids g).trans (hab.ids g)
  flags id h := hbc.flags id (hab.flags id h)
  index entry id h := by
    rcases hab.index entry id h with hmem | hflag | hlost
    · exact hbc.index entry id hmem
    · exact .inr (.inl (hbc.flags id hflag))
    · exact .inr (.inr hlost)
  nextId := hbc.nextId.trans hab.nextId

variable (gone : List ConnectionId) (hub : Registry) (id x : ConnectionId)
  (entry g : Bytes)

theorem Narrows.refl : Narrows nobody hub hub where
  ids _ := List.Sublist.refl _
  flags _ h := h
  index _ _ h := Or.inl h
  nextId := rfl

variable {b t : Registry}

theorem Narrows.unflagged (h : Narrows lost b t) {id}
    (hid : t.isEvicted id = false) : b.isEvicted id = false := by
  cases hflag : b.isEvicted id with
  | false => rfl
  | true => exact absurd (h.flags id hflag) (Bool.eq_false_iff.mp hid)

theorem Narrows.weaken {more : ConnectionId → Prop} (h : Narrows lost b t)
    (hmore : ∀ id, lost id → more id) : Narrows more b t where
  ids := h.ids
  flags := h.flags
  index entry id hid := (h.index entry id hid).imp_right (Or.imp_right (hmore id))
  nextId := h.nextId

theorem Narrows.mono (h : Narrows nobody b t) : Narrows lost b t :=
  h.weaken (fun _ => False.elim)

theorem Narrows.of_same (ids : ∀ g, t.subscriberIds g = b.subscriberIds g)
    (principals : t.principals = b.principals) (nextId : t.nextId = b.nextId)
    (flags : ∀ id, b.isEvicted id = true → t.isEvicted id = true) : Narrows nobody b t where
  ids g := by rw [ids g]
  flags := flags
  index entry id h := .inl (by rw [principals]; exact h)
  nextId := nextId

theorem isEvicted_onSender (f : OutboundSender → OutboundSender) : (hub.onSender id f).isEvicted x =
      if x = id then (f (hub.senders id)).evicted else hub.isEvicted x := by
  simp only [isEvicted, onSender, update_apply]
  split_ifs <;> rfl

theorem narrows_onSender {f : OutboundSender → OutboundSender}
    (hf : (hub.senders id).evicted = true → (f (hub.senders id)).evicted = true) :
    Narrows nobody hub (hub.onSender id f) := by
  refine .of_same (fun _ => rfl) rfl rfl ?_
  intro x ho
  rw [isEvicted_onSender]
  split_ifs with h
  · subst h
    exact hf ho
  · exact ho

@[simp]
theorem mem_principals_disconnect :
    x ∈ (hub.disconnect id).principals entry ↔ x ∈ hub.principals entry ∧ x ≠ id := by
  simp [disconnect]

theorem subscriberIds_disconnect :
    ((hub.disconnect id).subscriberIds g).Sublist (hub.subscriberIds g) :=
  filter_sublist.map Subscriber.id

theorem narrows_disconnect : Narrows (· = id) hub (hub.disconnect id) where
  ids g := subscriberIds_disconnect hub id g
  flags _ h := h
  index entry x h := by
    by_cases ho : x = id
    · exact .inr (.inr ho)
    · exact .inl ((mem_principals_disconnect hub id x entry).mpr ⟨h, ho⟩)
  nextId := rfl

/-- A disconnect of a flagged connection loses nobody. -/
theorem narrows_disconnect_of_evicted {hub id}
    (hid : hub.isEvicted id = true) : Narrows nobody hub (hub.disconnect id) where
  ids g := subscriberIds_disconnect hub id g
  flags _ h := h
  index entry x h := by
    rcases (narrows_disconnect hub id).index entry x h with hmem | hflag | rfl
    · exact .inl hmem
    · exact .inr (.inl hflag)
    · exact .inr (.inl hid)
  nextId := rfl

theorem isEvicted_evictOne :
    (hub.evictOne id).isEvicted x = true ↔ hub.isEvicted x = true ∨ x = id := by
  change (hub.onSender id fun tx => tx.evict.close).isEvicted x = true ↔ _
  rw [isEvicted_onSender]
  split_ifs with h
  · simp [h, OutboundSender.evict]
  · simp [h]

theorem narrows_evictOne : Narrows nobody hub (hub.evictOne id) := by
  have hflag : (hub.onSender id fun tx => tx.evict.close).isEvicted id = true :=
    (isEvicted_evictOne hub id id).mpr (.inr rfl)
  refine (narrows_onSender hub id ?_).trans (narrows_disconnect_of_evicted hflag)
  intro _
  simp [OutboundSender.evict]

theorem evictAll_spec (ids : List ConnectionId) (hub : Registry) :
    Narrows nobody hub (ids.foldl evictOne hub) ∧
      ∀ id, id ∈ ids → (ids.foldl evictOne hub).isEvicted id = true := by
  induction ids generalizing hub with
  | nil => exact ⟨.refl hub, by simp⟩
  | cons first rest ih =>
    obtain ⟨hr, hflags⟩ := ih (hub.evictOne first)
    refine ⟨(narrows_evictOne hub first).trans hr, ?_⟩
    intro id hid
    rcases mem_cons.mp hid with rfl | hid
    · exact hr.flags _ ((isEvicted_evictOne hub _ _).mpr (.inr rfl))
    · exact hflags id hid

/-- After an eviction every connection the index held under the entry is flagged. -/
theorem isEvicted_evict {hub : Registry} {entry : Bytes} {id : ConnectionId}
    (h : id ∈ hub.principals entry) : (hub.evict entry).isEvicted id = true :=
  (evictAll_spec (hub.principals entry) _).2 id h

theorem narrows_evict : Narrows nobody hub (hub.evict entry) := by
  have hall := (evictAll_spec (hub.principals entry)
    { hub with principals := update hub.principals entry [] }).1
  refine ⟨hall.ids, hall.flags, ?_, hall.nextId⟩
  intro x id hid
  by_cases ho : x = entry
  · subst ho
    exact .inr (.inl (isEvicted_evict hid))
  · refine hall.index x id ?_
    simp [update_of_ne ho, hid]

theorem foldl_disconnect : gone.foldl disconnect hub = { hub with
      groups := fun g => (hub.groups g).filter (!gone.contains ·.id)
      principals := fun entry => (hub.principals entry).filter (!gone.contains ·) } := by
  induction gone generalizing hub with
  | nil => simp
  | cons first rest ih =>
    simp only [foldl_cons, ih, disconnect, filter_filter, contains_cons, Bool.not_or, bne,
      Bool.and_comm]

end Registry

/-! ### One turn of the fanout -/

/-- What one turn may do: it keeps the subscriber's id and the channel's flag, and drops
the connection only flagged, or on finding its queue `closed`. -/
structure Turn.Sound (closed : Prop) (subscriber : Subscriber) (sender : OutboundSender)
    (turn : Turn) : Prop where
  id : turn.subscriber.id = subscriber.id
  flag : sender.evicted = true → turn.sender.evicted = true
  gone : turn.gone = true → turn.sender.evicted = true ∨ closed

section Turns

variable {g : Bytes} {frame : Frame} {w : ConnectionId} {low : Nat}
  {sub : Subscriber} {tx : OutboundSender} {acc : Fanout} {left : OutboundSender}
  {id : ConnectionId}

theorem evicted_of_tryQueue {ans} (h : tx.tryQueue frame = (ans, left)) :
    left.evicted = tx.evicted := by
  rw [← tx.tryQueue_evicted frame, h]

/-- A channel that took one frame does not answer `Closed` to the next. -/
theorem not_closed_of_sent {next : Frame} (h : tx.tryQueue frame = (.sent, left)) :
    (left.tryQueue next).1 ≠ .closed := by
  intro hclosed
  have hleft := OutboundSender.receiving_of_tryQueue_closed hclosed
  simp only [OutboundSender.tryQueue, OutboundSender.trySend] at h
  split_ifs at h with _ hrecv
  · cases h
  · cases h
  · cases h
  · obtain ⟨-, rfl⟩ := Prod.mk.inj h
    exact hrecv (by simpa using hleft)

theorem queueLive_sound (frame : Frame) (sub : Subscriber) (tx : OutboundSender) :
    Turn.Sound ((tx.tryQueue frame).1 = .closed) sub tx (queueLive frame sub tx) := by
  simp only [queueLive]
  split
  next left h => exact ⟨rfl, fun hflag => (evicted_of_tryQueue h).trans hflag, by simp⟩
  next left h =>
    have hleft := evicted_of_tryQueue h
    split_ifs
    · exact ⟨rfl, hleft.trans, by simp⟩
    · exact ⟨rfl, fun _ => rfl, fun _ => .inl rfl⟩
    · exact ⟨rfl, hleft.trans, by simp⟩
  next left h => exact ⟨rfl, (evicted_of_tryQueue h).trans, fun _ => .inr (by rw [h])⟩

theorem queueOwing_sound (g : Bytes) (frame : Frame) (sub : Subscriber) (tx : OutboundSender) :
    Turn.Sound ((tx.tryQueue (if sub.downgradeOwed then downgradeFrame g else frame)).1 = .closed)
      sub tx (queueOwing g frame sub tx) := by
  by_cases howed : sub.downgradeOwed = true
  · simp only [queueOwing, if_pos howed]
    split
    next left h =>
      -- The notice went out, so the frame that follows cannot find the queue closed.
      have hl := queueLive_sound frame { sub with downgradeOwed := false } left
      refine ⟨hl.id, fun hflag => hl.flag ((evicted_of_tryQueue h).trans hflag), ?_⟩
      intro hgone
      rcases hl.gone hgone with hflag | hclosed
      · exact .inl hflag
      · exact absurd hclosed (not_closed_of_sent h)
    next left h =>
      split_ifs
      · exact ⟨rfl, fun _ => rfl, fun _ => .inl rfl⟩
      · exact ⟨rfl, (evicted_of_tryQueue h).trans, by simp⟩
    next left h => exact ⟨rfl, (evicted_of_tryQueue h).trans, fun _ => .inr (by rw [h])⟩
  · simp only [queueOwing, if_neg howed]
    exact queueLive_sound frame sub tx

/-- The turn reaches the subscriber's queue and finds its receiving half gone. -/
def FindsClosed (group : Bytes) (frame : Frame) (writer : ConnectionId)
    (minimumVersion : Nat) (subscriber : Subscriber) (sender : OutboundSender) : Prop :=
  subscriber.id ≠ writer ∧ minimumVersion ≤ subscriber.protocolVersion ∧
    (frame.undowngradable = true → subscriber.heldHandshakes = none) ∧
    (sender.tryQueue (if subscriber.downgradeOwed then downgradeFrame group else frame)).1 = .closed

theorem deliver_sound : Turn.Sound (FindsClosed g frame w low sub tx)
      sub tx (deliver g frame w low sub tx) := by
  simp only [deliver]
  split_ifs with hwriter hver
  · exact ⟨rfl, fun h => h, by simp⟩
  · exact ⟨rfl, fun h => h, by simp⟩
  · split
    next held hframe hheld =>
      split_ifs
      · exact ⟨rfl, fun h => h, by simp⟩
      · exact ⟨rfl, fun _ => rfl, fun _ => .inl rfl⟩
    next hnot =>
      have howing := queueOwing_sound g frame sub tx
      refine ⟨howing.id, howing.flag, fun hgone => (howing.gone hgone).imp_right ?_⟩
      intro hclosed
      refine ⟨hwriter, not_lt.mp hver, ?_, hclosed⟩
      intro hframe
      cases hheld : sub.heldHandshakes with
      | none => rfl
      | some held => exact absurd hheld (hnot held hframe)

/-- A turn that finds the queue closed drops the connection and does not signal it. -/
theorem deliver_of_findsClosed (h : FindsClosed g frame w low sub tx) :
    deliver g frame w low sub tx = Turn.ended sub tx := by
  obtain ⟨hwriter, hver, hheld, hclosed⟩ := h
  have hqueue : ∀ next : Frame, (tx.tryQueue next).1 = .closed →
      tx.tryQueue next = (.closed, tx) := by
    intro next hnext
    have hrecv := OutboundSender.receiving_of_tryQueue_closed hnext
    simp only [OutboundSender.tryQueue, OutboundSender.trySend, hrecv] at hnext ⊢
    split_ifs at hnext ⊢ with hbudget
    rfl
  have howing : queueOwing g frame sub tx = .ended sub tx := by
    by_cases howed : sub.downgradeOwed = true
    · simp only [if_pos howed] at hclosed
      simp only [queueOwing, if_pos howed, hqueue _ hclosed]
    · simp only [if_neg howed] at hclosed
      simp only [queueOwing, if_neg howed, queueLive, hqueue _ hclosed]
  simp only [deliver, if_neg hwriter, if_neg (not_lt.mpr hver)]
  split
  next held hframe hsome => exact absurd (hheld hframe) (by simp [hsome])
  next => exact howing

/-! ### The whole fanout -/

theorem fanoutLoop_ids (subs : List Subscriber) (acc : Fanout) :
    (fanoutLoop g frame w low subs acc).kept.map Subscriber.id =
      acc.kept.map Subscriber.id ++ subs.map Subscriber.id := by
  induction subs generalizing acc with
  | nil => simp [fanoutLoop]
  | cons first rest ih =>
    rw [fanoutLoop, ih]
    simp [(deliver_sound).id]

variable {subs : List Subscriber}

theorem fanoutLoop_senders_of_notMem (hid : id ∉ subs.map Subscriber.id) :
    (fanoutLoop g frame w low subs acc).senders id = acc.senders id := by
  induction subs generalizing acc with
  | nil => rfl
  | cons first rest ih =>
    simp only [map_cons, mem_cons, not_or] at hid
    rw [fanoutLoop, ih hid.2]
    simp [update_of_ne hid.1]

/-- With each connection subscribed once, every subscriber's turn reads the channel as
the loop found it. -/
theorem fanoutLoop_senders (hnd : (subs.map Subscriber.id).Nodup)
    {sub} (hmem : sub ∈ subs) :
    (fanoutLoop g frame w low subs acc).senders sub.id = (deliver g frame w low sub
        (acc.senders sub.id)).sender := by
  induction subs generalizing acc with
  | nil => cases hmem
  | cons first rest ih =>
    simp only [map_cons, nodup_cons] at hnd
    rw [fanoutLoop]
    rcases mem_cons.mp hmem with rfl | hr
    · rw [fanoutLoop_senders_of_notMem hnd.1]
      simp
    · have hne : sub.id ≠ first.id := by
        rintro heq
        exact hnd.1 (heq ▸ mem_map_of_mem hr)
      rw [ih hnd.2 hr]
      simp [update_of_ne hne]

theorem mem_fanoutLoop_gone (hnd : (subs.map Subscriber.id).Nodup) :
    id ∈ (fanoutLoop g frame w low subs acc).gone ↔
      id ∈ acc.gone ∨ ∃ sub, sub ∈ subs ∧ sub.id = id ∧ (deliver g frame w low sub
          (acc.senders sub.id)).gone = true := by
  induction subs generalizing acc with
  | nil => simp [fanoutLoop]
  | cons first rest ih =>
    simp only [map_cons, nodup_cons] at hnd
    have hsame : ∀ sub, sub ∈ rest → (acc.add first.id (deliver g frame w low first
          (acc.senders first.id))).senders sub.id = acc.senders sub.id := by
      intro sub hr
      refine update_of_ne ?_ _ _
      rintro heq
      exact hnd.1 (heq ▸ mem_map_of_mem hr)
    rw [fanoutLoop, ih hnd.2, exists_mem_cons_iff, ← or_assoc]
    refine or_congr ?_ (exists_congr fun sub => and_congr_right fun hr => ?_)
    · simp only [Fanout.add, mem_append]
      split_ifs with hgone <;> simp [hgone, eq_comm]
    · rw [hsame sub hr]

end Turns

namespace Registry

variable {hub : Registry} {g : Bytes} {frame : Frame} {w : ConnectionId}
  {low : Nat}

/-- A fanout finds the queue of this connection closed. -/
def Discards (hub : Registry) (group : Bytes) (frame : Frame) (writer : ConnectionId)
    (minimumVersion : Nat) (id : ConnectionId) : Prop :=
  ∃ subscriber, subscriber ∈ hub.groups group ∧ subscriber.id = id ∧
    FindsClosed group frame writer minimumVersion subscriber (hub.senders id)

theorem subscriberIds_fanoutFrame (x : Bytes) :
    ((hub.fanoutFrame g frame w low).subscriberIds x).Sublist (hub.subscriberIds x) := by
  rw [fanoutFrame, foldl_disconnect]
  refine (filter_sublist.map Subscriber.id).trans ?_
  by_cases h : x = g
  · subst h
    simp [subscriberIds, fanoutTurns, fanoutLoop_ids, fanoutStart]
  · simp [subscriberIds, update_of_ne h]

theorem mem_principals_fanoutFrame {entry id} :
    id ∈ (hub.fanoutFrame g frame w low).principals entry ↔
      id ∈ hub.principals entry ∧ id ∉ (hub.fanoutTurns g frame w low).gone := by
  simp [fanoutFrame, foldl_disconnect]

theorem senders_fanoutFrame : (hub.fanoutFrame g frame w low).senders =
      (hub.fanoutTurns g frame w low).senders := by
  rw [fanoutFrame, foldl_disconnect]

/-- A fanout loses only the connections whose queue it finds closed. -/
theorem narrows_fanoutFrame (hnd : (hub.subscriberIds g).Nodup) :
    Narrows (hub.Discards g frame w low) hub (hub.fanoutFrame g frame w low) where
  ids x := subscriberIds_fanoutFrame x
  flags id hid := by
    simp only [isEvicted, senders_fanoutFrame]
    by_cases hmem : id ∈ hub.subscriberIds g
    · obtain ⟨sub, hsubscriber, rfl⟩ := mem_map.mp hmem
      exact (congrArg OutboundSender.evicted (fanoutLoop_senders hnd hsubscriber)).trans
        (deliver_sound.flag hid)
    · exact (congrArg OutboundSender.evicted (fanoutLoop_senders_of_notMem hmem)).trans hid
  index entry id hid := by
    by_cases hgone : id ∈ (hub.fanoutTurns g frame w low).gone
    · refine .inr ?_
      rcases (mem_fanoutLoop_gone hnd).mp hgone with hnone | ⟨sub, hmem, rfl, hturn⟩
      · cases hnone
      rcases deliver_sound.gone hturn with hflag | hclosed
      · refine .inl ?_
        simp only [isEvicted, senders_fanoutFrame]
        exact (congrArg OutboundSender.evicted (fanoutLoop_senders hnd hmem)).trans hflag
      · exact .inr ⟨sub, hmem, rfl, hclosed⟩
    · exact .inl (mem_principals_fanoutFrame.mpr ⟨hid, hgone⟩)
  nextId := by rw [fanoutFrame, foldl_disconnect]

/-- A connection a fanout discards leaves the whole index, and is not signalled. -/
theorem discarded_fanoutFrame (hnd : (hub.subscriberIds g).Nodup)
    {id} (hid : hub.Discards g frame w low id) :
    (∀ entry, id ∉ (hub.fanoutFrame g frame w low).principals entry) ∧
      (hub.fanoutFrame g frame w low).isEvicted id = hub.isEvicted id := by
  obtain ⟨sub, hmem, rfl, hclosed⟩ := hid
  have hturn := deliver_of_findsClosed hclosed
  refine ⟨?_, ?_⟩
  · intro entry hin
    refine (mem_principals_fanoutFrame.mp hin).2 ((mem_fanoutLoop_gone hnd).mpr ?_)
    exact .inr ⟨sub, hmem, rfl, by
      rw [show hub.fanoutStart.senders = hub.senders from rfl, hturn]; rfl⟩
  · simp only [isEvicted, senders_fanoutFrame, fanoutTurns]
    rw [fanoutLoop_senders hnd hmem, show hub.fanoutStart.senders = hub.senders from rfl, hturn]
    rfl

/-! ### The other operations -/

variable (held : Option (List Frame)) (subs : List Subscriber)
  (senders : ConnectionId → OutboundSender) (id : ConnectionId)

theorem subscriberIds_update (h : subs.map Subscriber.id = hub.subscriberIds g)
    (senders : ConnectionId → OutboundSender) (x : Bytes) :
    ({ hub with
        groups := update hub.groups g subs
        senders := senders } : Registry).subscriberIds x = hub.subscriberIds x := by
  by_cases ho : x = g
  · subst ho
    simpa [subscriberIds] using h
  · simp [subscriberIds, update_of_ne ho]

/-- The release flags the channel exactly when a held frame found no room. -/
theorem releaseLoop_evicted (held : List Frame) (next : Nat) (tx : OutboundSender) :
    (releaseLoop held next tx).1.evicted = (tx.evicted || (releaseLoop held next tx).2) := by
  induction held, next, tx using releaseLoop.induct with
  | case1 next tx => simp
  | case2 g seq msg rest next tx hlt ih => simp [hlt, ih]
  | case3 g seq msg rest next tx hlt left h ih =>
    simp [hlt, h, ih, evicted_of_tryQueue h]
  | case4 g seq msg rest next tx hlt ans left hans h =>
    simp [hlt, h, OutboundSender.evict]
  | case5 first rest next tx hfirst ih =>
    cases first with
    | handshake g seq msg => exact absurd rfl (hfirst g seq msg)
    | push | live | call | subAck | other => simp [ih]

theorem unhold_ids (subs : List Subscriber) :
    (subs.map (unhold id)).map Subscriber.id = subs.map Subscriber.id := by
  rw [map_map]
  refine map_congr_left ?_
  intro sub _
  simp only [comp_apply, unhold]
  split_ifs <;> rfl

/-- Releasing the held handshakes loses nobody: a connection it ends is flagged. -/
theorem narrows_releaseHandshakes (hub : Registry) (g : Bytes) (id : ConnectionId)
    (replayedTo : Nat) : Narrows nobody hub (hub.releaseHandshakes g id replayedTo) := by
  simp only [releaseHandshakes]
  split
  next => exact .refl hub
  next sub _ =>
    split
    next => exact .refl hub
    next held _ =>
      have hflag := releaseLoop_evicted held replayedTo (hub.senders id)
      have hrel : Narrows nobody hub
          { hub with
            groups := update hub.groups g ((hub.groups g).map (unhold id))
            senders := update hub.senders id
              (releaseLoop held replayedTo (hub.senders id)).1 } := by
        refine .of_same (subscriberIds_update _ (unhold_ids id _) _) rfl rfl ?_
        intro x ho
        simp only [isEvicted, update_apply]
        split_ifs with h
        · subst h
          rw [hflag, show (hub.senders x).evicted = true from ho, Bool.true_or]
        · exact ho
      split_ifs with hend
      · refine hrel.trans (narrows_disconnect_of_evicted ?_)
        simp [isEvicted, hflag, hend]
      · exact hrel

theorem settleLoop_ids :
    (settleLoop g subs senders).1.map Subscriber.id = subs.map Subscriber.id := by
  induction subs generalizing senders with
  | nil => rfl
  | cons first rest ih =>
    simp only [settleLoop]
    split_ifs
    · split <;> simp [ih]
    · simp [ih]

theorem settleLoop_evicted :
    ((settleLoop g subs senders).2.1 id).evicted = (senders id).evicted := by
  induction subs generalizing senders with
  | nil => rfl
  | cons first rest ih =>
    simp only [settleLoop]
    split_ifs
    · split
      next tx h =>
        rw [ih, update_apply]
        split_ifs with hid
        · rw [hid, evicted_of_tryQueue h]
        · rfl
      next => exact ih senders
    · exact ih senders

theorem narrows_settleDowngrades (order : List Bytes) (hub : Registry) :
    Narrows nobody hub (hub.settleDowngrades order) := by
  induction order generalizing hub with
  | nil => exact .refl hub
  | cons first rest ih =>
    refine .trans (b := hub.settleGroup first) ?_ (ih _)
    refine .of_same (subscriberIds_update _ (settleLoop_ids _ _) _) rfl rfl ?_
    intro id hid
    exact (settleLoop_evicted _ _ id).trans hid

/-- A subscription adds the connection to one group, once. -/
theorem subscriberIds_subscribeWith (hub : Registry) (g : Bytes) (id : ConnectionId)
    (protocolVersion : Nat) (x : Bytes) :
    (subscribeWith held hub g id protocolVersion).subscriberIds x = hub.subscriberIds x ∨
      id ∉ hub.subscriberIds x ∧ (subscribeWith held hub g id protocolVersion).subscriberIds x =
          hub.subscriberIds x ++ [id] := by
  simp only [subscribeWith]
  split_ifs with hany
  · exact .inl rfl
  by_cases ho : x = g
  · subst ho
    refine .inr ⟨?_, by simp [subscriberIds]⟩
    intro hin
    obtain ⟨sub, hmem, rfl⟩ := mem_map.mp hin
    exact hany (any_eq_true.mpr ⟨sub, hmem, by simp⟩)
  · exact .inl (by simp [subscriberIds, update_of_ne ho])

theorem subscribeWith_rest (hub : Registry) (g : Bytes) (id : ConnectionId)
    (protocolVersion : Nat) :
    (subscribeWith held hub g id protocolVersion).principals = hub.principals ∧
      (subscribeWith held hub g id protocolVersion).senders = hub.senders ∧
        (subscribeWith held hub g id protocolVersion).nextId = hub.nextId := by
  simp only [subscribeWith]
  split_ifs <;> exact ⟨rfl, rfl, rfl⟩

theorem narrows_identify (hub : Registry) (entry : Bytes) (id : ConnectionId) :
    Narrows nobody hub (hub.identify entry id) ∧ id ∈ (hub.identify entry id).principals entry := by
  simp only [identify]
  split_ifs with hmem
  · exact ⟨.refl hub, hmem⟩
  · refine ⟨⟨fun _ => .refl _, fun _ h => h, ?_, rfl⟩, by simp⟩
    intro other x hx
    by_cases ho : other = entry
    · subst ho
      simp [hx]
    · simp [update_of_ne ho, hx]

end Registry

end WealdRelay.Hub
