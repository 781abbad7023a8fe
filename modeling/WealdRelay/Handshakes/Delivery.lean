import WealdRelay.Handshakes.Feed
import WealdRelay.Handshakes.Store
import WealdRelay.Hub.Changes

/-!
# Publishing handshakes and replaying them

The paths a handshake takes to a subscriber. `publish_handshake` (`ws.rs`) appends the message
and then, in a second step, fans it out to everybody else in the group. The publisher itself is
answered with the same frame, in a third step, whether or not it is subscribed. A `SUB`
(`sync.rs`, `subscribe` and `replay_handshakes`) registers with a hold on live handshakes, reads
the log page by page, queues each page, and releases what was held past the replay's cursor. Any
number of publishers and the rest of the relay move between these steps, the subscriber's own
publications among them: the connection's loop handles one frame after the other, the model lets
them overlap.

One connection's subscription to one group is followed. `Relay.queued` records the frames ever
put into its channel; it is read off the channel before and after each operation of the hub.

* `Relay.step` is the model, `Relay.feed` the numbers of a state;
* `Tracked.step`: a step of the relay is a step of the feed.
-/

namespace WealdRelay.Handshakes

open Lib Hub List Function Registry

/-- `MIN_FANOUT_VERSION`. -/
def minFanoutVersion : Nat := 1

/-- The connection that subscribes, and the group it subscribes to. -/
structure Party where
  group : Bytes
  id : ConnectionId
  version : Nat
  speaks : minFanoutVersion ≤ version

/-! ### The hub, in numbers -/

/-- The numbers of this group among frames. -/
def seqsIn (group : Bytes) (frames : List Frame) : List Nat := frames.filterMap (Frame.seqIn group)

/-- The frame a replay sends for one stored message. -/
def frameOf (group : Bytes) (stored : Stored) : Frame :=
  .handshake group stored.seq stored.message

/-- What the hub's entry is to the feed. -/
def entryOf (group : Bytes) : Option Subscriber → Entry
  | none => .absent
  | some subscriber =>
    match subscriber.heldHandshakes with
    | none => .live
    | some held => .holding (seqsIn group held)

variable (group : Bytes)

theorem seqsIn_append (a b : List Frame) :
    seqsIn group (a ++ b) = seqsIn group a ++ seqsIn group b :=
  filterMap_append

theorem seqsIn_eq_nil {group fs}
    (h : ∀ frame ∈ fs, frame.seqIn group = none) : seqsIn group fs = [] :=
  filterMap_eq_nil_iff.mpr h

theorem seqsIn_frameOf (messages : List Stored) :
    seqsIn group (messages.map (frameOf group)) = messages.map Stored.seq := by
  induction messages with
  | nil => rfl
  | cons first rest ih => simpa [seqsIn, frameOf, Frame.seqIn] using ih

section View

variable {p : Party} {hub : Registry}

/-- The hub has each connection once in a group; the subscriber speaks the fanout's version, and
what is held for it are handshakes of the group. -/
structure Served (party : Party) (hub : Registry) : Prop where
  nodup : ∀ group, (hub.subscriberIds group).Nodup
  entry : ∀ subscriber, hub.entry party.group party.id = some subscriber →
    minFanoutVersion ≤ subscriber.protocolVersion ∧
      ∀ frames, subscriber.heldHandshakes = some frames →
        ∀ frame ∈ frames, (frame.seqIn party.group).isSome

/-- The subscriber's entry, in numbers. -/
def view (party : Party) (hub : Registry) : Entry :=
  entryOf party.group (hub.entry party.group party.id)

/-- The numbers an operation of the hub queues to the subscriber. -/
def heard (party : Party) (hub after : Registry) : List Nat :=
  seqsIn party.group (added (hub.senders party.id) (after.senders party.id))

variable {t : Registry}

theorem Served.of_absent (hnd : ∀ group, (t.subscriberIds group).Nodup)
    (h : t.entry p.group p.id = none) : Served p t := by
  refine ⟨hnd, fun sub hsome => ?_⟩
  rw [h] at hsome
  cases hsome

theorem heard_of_eq (h : (t.senders p.id).queue = (hub.senders p.id).queue) :
    heard p hub t = [] := by
  rw [heard, added_of_eq h]
  rfl

variable (g : Bytes) {fs : List Frame}

theorem heard_of_frames (h : (t.senders p.id).queue = (hub.senders p.id).queue ++ fs.map .frame) :
    heard p hub t = seqsIn p.group fs := by
  rw [heard, added_of_frames h]

theorem seqsIn_notice (sub : Subscriber) : seqsIn g (notice g sub) = [] := by
  refine seqsIn_eq_nil fun frame hframe => ?_
  simp only [notice] at hframe
  split_ifs at hframe
  · rw [mem_singleton.mp hframe]
    rfl
  · cases hframe

theorem seqsIn_handshake (seq : Nat) (msg : Bytes) : seqsIn g [.handshake g seq msg] = [seq] := by
  simp [seqsIn, Frame.seqIn]

/-- What a fanout of a number does to the subscriber. -/
inductive Fans (seq : Nat) : Entry → List Nat → Entry → Prop
  | absent : Fans seq .absent [] .absent
  | held (held : List Nat) : Fans seq (.holding held) [] (.holding (held ++ [seq]))
  | live : Fans seq .live [seq] .live
  | ends (entry : Entry) : Fans seq entry [] .absent

theorem fans_fanoutFrame (hhub : Served p hub) {w} (hwriter : w ≠ p.id) (seq : Nat) (msg : Bytes)
    (ha : hub.fanoutFrame p.group (.handshake p.group seq msg) w minFanoutVersion = t) :
    Fans seq (view p hub) (heard p hub t) (view p t) ∧ Served p t := by
  have hnd : ∀ g, (t.subscriberIds g).Nodup := fun g =>
    (hhub.nodup g).sublist (ha ▸ subscriberIds_fanoutFrame g)
  cases he : hub.entry p.group p.id with
  | none =>
    obtain ⟨hsender, hes⟩ := fanoutFrame_of_not_entry
      (.handshake p.group seq msg) w minFanoutVersion (hhub.nodup p.group) he
    rw [ha] at hsender hes
    have habs := (hes p.group).trans he
    rw [heard_of_eq (congrArg _ hsender), view, view, habs, he]
    exact ⟨.absent, .of_absent hnd habs⟩
  | some sub =>
    obtain ⟨hver, hheld⟩ := hhub.entry sub he
    have hid := (mem_of_entry he).2
    have hturn := deliver_delivers p.group (.handshake p.group seq msg) w
      minFanoutVersion sub (hub.senders p.id)
    obtain ⟨hsender, hes⟩ := fanoutFrame_of_entry (hhub.nodup p.group) he
      (.refl (deliver p.group (.handshake p.group seq msg) w minFanoutVersion
        sub (hub.senders p.id)))
    rw [ha] at hsender hes
    have ha := hes p.group
    generalize deliver p.group (.handshake p.group seq msg) w minFanoutVersion
      sub (hub.senders p.id) = turn at hturn hsender ha
    cases hturn with
    | skipped hskip =>
      rcases hskip with hskip | hskip
      · exact absurd (hskip.symm.trans hid) hwriter
      · exact absurd hskip (not_lt.mpr hver)
    | @held fs hframe hsome =>
      have hnew : t.entry p.group p.id = some { sub with
          heldHandshakes := some (fs ++ [.handshake p.group seq msg]) } := by
        simpa using ha
      have hview : view p hub = .holding (seqsIn p.group fs) := by
        simp [view, he, entryOf, hsome]
      have hnext : view p t = .holding (seqsIn p.group fs ++ [seq]) := by
        simp [view, hnew, entryOf, seqsIn_append, seqsIn_handshake]
      rw [heard_of_eq (congrArg _ hsender), hview, hnext]
      refine ⟨.held _, hnd, fun left hleft => ?_⟩
      cases hnew.symm.trans hleft
      refine ⟨hver, ?_⟩
      rintro _ ⟨⟩ frame hframe
      rcases mem_snoc.mp hframe with hold | rfl
      · exact hheld fs hsome frame hold
      · simp [Frame.seqIn]
    | overflow =>
      have habs : t.entry p.group p.id = none := by simpa [Turn.ended] using ha
      have hqueue : (t.senders p.id).queue = (hub.senders p.id).queue := by
        rw [hsender]
        rfl
      rw [heard_of_eq hqueue, show view p t = .absent by rw [view, habs]; rfl]
      exact ⟨.ends _, .of_absent hnd habs⟩
    | queues _ hnone hqueues =>
      have hsome := hnone rfl
      have hview : view p hub = .live := by simp [view, he, entryOf, hsome]
      cases hqueues with
      | sent =>
        have hnew : t.entry p.group p.id = some { sub with downgradeOwed := false } := by
          simpa using ha
        have hqueue : (t.senders p.id).queue = (hub.senders p.id).queue ++
            (notice p.group sub ++ [Frame.handshake p.group seq msg]).map .frame := by
          rw [hsender]
          rfl
        have hnext : view p t = .live := by simp [view, hnew, entryOf, hsome]
        rw [heard_of_frames hqueue, seqsIn_append, seqsIn_notice, seqsIn_handshake, hview, hnext]
        refine ⟨.live, hnd, fun left hleft => ?_⟩
        cases hnew.symm.trans hleft
        exact ⟨hver, hheld⟩
      | shed hshed => cases hshed
      | downgraded _ hframe | owing _ hframe => cases hframe
      | @ended _ fs hgone _ hqueue hframes =>
        have habs : t.entry p.group p.id = none := by
          rw [ha, if_pos hgone]
        rw [← hsender] at hqueue
        have hsilent : seqsIn p.group fs = [] :=
          sublist_nil.mp (seqsIn_notice p.group sub ▸ hframes.filterMap _)
        rw [heard_of_frames hqueue, hsilent, show view p t = .absent by rw [view, habs]; rfl]
        exact ⟨.ends _, .of_absent hnd habs⟩

/-- What the connection's own task puts into its channel. -/
theorem heard_tryQueue {frame result tx}
    (h : (hub.senders p.id).tryQueue frame = (result, tx)) :
    heard p hub (hub.onSender p.id fun _ => tx) =
      if result = .sent then seqsIn p.group [frame] else [] := by
  rcases (hub.senders p.id).tryQueue_cases frame with hsent | hfull | ⟨hclosed, -⟩
  · obtain ⟨rfl, rfl⟩ := Prod.mk.inj (h.symm.trans hsent)
    exact heard_of_frames (by simp [onSender])
  · obtain ⟨rfl, rfl⟩ := Prod.mk.inj (h.symm.trans hfull)
    exact heard_of_eq (by simp [onSender])
  · obtain ⟨rfl, rfl⟩ := Prod.mk.inj (h.symm.trans hclosed)
    exact heard_of_eq (by simp [onSender])

/-- A fanout passes over the connection that published. -/
theorem view_fanoutFrame_own (hhub : Served p hub) {frame}
    (ha : hub.fanoutFrame p.group frame p.id minFanoutVersion = t) :
    heard p hub t = [] ∧ Served p t ∧ view p t = view p hub := by
  have hnd : ∀ g, (t.subscriberIds g).Nodup := fun g =>
    (hhub.nodup g).sublist (ha ▸ subscriberIds_fanoutFrame g)
  have hsame : t.senders p.id = hub.senders p.id ∧
      t.entry p.group p.id = hub.entry p.group p.id := by
    subst ha
    cases he : hub.entry p.group p.id with
    | none =>
      obtain ⟨hsender, hes⟩ := fanoutFrame_of_not_entry frame p.id minFanoutVersion
        (hhub.nodup p.group) he
      exact ⟨hsender, (hes p.group).trans he⟩
    | some sub =>
      obtain ⟨hsender, hes⟩ := fanoutFrame_of_entry (hhub.nodup p.group) he
        (if_pos (mem_of_entry he).2 : deliver p.group frame p.id minFanoutVersion sub _ = _)
      exact ⟨hsender, by simpa using hes p.group⟩
  refine ⟨heard_of_eq (congrArg _ hsame.1), ⟨hnd, ?_⟩, ?_⟩
  · rw [hsame.2]
    exact hhub.entry
  · rw [view, view, hsame.2]

/-- Registering holds back live handshakes unless the connection is subscribed already. -/
theorem view_subscribe (hhub : Served p hub)
    (ha : hub.subscribeHoldingHandshakes p.group p.id p.version = t) :
    heard p hub t = [] ∧ Served p t ∧ (view p hub = .absent ∧ view p t = .holding [] ∨
        view p hub ≠ .absent ∧ view p t = view p hub) := by
  have hr := subscribeWith_rest (some []) hub p.group p.id p.version
  have hes := entry_subscribeWith (some []) hub p.group p.id p.version p.group p.id
  rw [if_pos ⟨rfl, rfl⟩] at hes
  change subscribeWith (some []) hub p.group p.id p.version = t at ha
  rw [ha] at hr hes
  have hnd : ∀ g, (t.subscriberIds g).Nodup := ha ▸
    Change.nodup hhub.nodup (.subscribe (some []) p.group p.id p.version)
  refine ⟨heard_of_eq (by rw [hr.2.1]), ⟨hnd, ?_⟩, ?_⟩
  · intro sub hsome
    rw [hes] at hsome
    cases he : hub.entry p.group p.id with
    | none =>
      rw [he, Option.getD_none] at hsome
      cases hsome
      refine ⟨p.speaks, ?_⟩
      rintro _ ⟨⟩ frame hframe
      cases hframe
    | some earlier =>
      rw [he, Option.getD_some] at hsome
      obtain rfl := Option.some.inj hsome
      exact hhub.entry earlier he
  · rw [view, view, hes]
    cases he : hub.entry p.group p.id with
    | none => exact .inl ⟨rfl, rfl⟩
    | some earlier =>
      refine .inr ⟨?_, rfl⟩
      simp only [entryOf]
      split <;> simp

/-- The frames held past a cursor, in numbers. -/
theorem seqsIn_releases {g} (next : Nat) (hframes : ∀ frame ∈ fs, (frame.seqIn g).isSome)
    (hsmall : ∀ seq ∈ seqsIn g fs, seq < 18446744073709551615) :
    seqsIn g (releases fs next) = released (seqsIn g fs) next := by
  induction fs generalizing next with
  | nil => rfl
  | cons first rest ih =>
    have hr : ∀ frame ∈ rest, (frame.seqIn g).isSome := fun frame h =>
      hframes frame (mem_cons_of_mem _ h)
    have hfirst := hframes first mem_cons_self
    cases first with
    | handshake own seq msg =>
      have hown : own = g := by
        by_contra hne
        simp [Frame.seqIn, hne] at hfirst
      subst hown
      rw [show seqsIn own (.handshake own seq msg :: rest) = seq :: seqsIn own rest by
        simp [seqsIn, Frame.seqIn]] at hsmall ⊢
      have hsat : Hub.nextSeq seq = seq + 1 := by
        have := hsmall seq mem_cons_self
        simp only [Hub.nextSeq]
        omega
      have hsmall' : ∀ seq ∈ seqsIn own rest, seq < 18446744073709551615 := fun seq h =>
        hsmall seq (mem_cons_of_mem _ h)
      simp only [releases, released]
      split_ifs
      · exact ih next hr hsmall'
      · rw [hsat, ← ih (seq + 1) hr hsmall']
        simp [seqsIn, Frame.seqIn]
    | push | live | call | subAck | other => cases hfirst

/-- What a release does to the subscriber. -/
inductive Releases (cursor : Nat) : Entry → List Nat → Entry → Prop
  | nothing (entry : Entry) (h : ∀ held, entry ≠ .holding held) : Releases cursor entry [] entry
  | all (held : List Nat) : Releases cursor (.holding held) (released held cursor) .live
  | ends (held sent : List Nat) (h : sent <+: released held cursor) :
      Releases cursor (.holding held) sent .absent

theorem releases_releaseHandshakes (hhub : Served p hub) {cur}
    (hsmall : ∀ seq ∈ (view p hub).held, seq < 18446744073709551615)
    (ha : hub.releaseHandshakes p.group p.id cur = t) :
    Releases cur (view p hub) (heard p hub t) (view p t) ∧ Served p t := by
  have hnd : ∀ g, (t.subscriberIds g).Nodup := fun g =>
    (hhub.nodup g).sublist (ha ▸ (narrows_releaseHandshakes hub p.group p.id cur).ids g)
  by_cases hheld : ∃ sub fs, hub.entry p.group p.id = some sub ∧ sub.heldHandshakes = some fs
  · obtain ⟨sub, fs, he, hframes⟩ := hheld
    obtain ⟨hver, hseqs⟩ := hhub.entry sub he
    have hview : view p hub = .holding (seqsIn p.group fs) := by
      simp [view, he, entryOf, hframes]
    rw [hview] at hsmall
    have hrel := seqsIn_releases cur (hseqs fs hframes) hsmall
    obtain ⟨queued, hqueued, hqueue, hall⟩ :=
      releaseLoop_queue fs cur (hub.senders p.id)
    obtain ⟨hsender, hes⟩ := releaseHandshakes_of_held he hframes
      (.refl (releaseLoop fs cur (hub.senders p.id)))
    rw [ha] at hsender hes
    rw [← hsender] at hqueue
    have hnew := hes p.group
    rw [if_pos rfl] at hnew
    rw [hview, heard_of_frames hqueue]
    cases hend : (releaseLoop fs cur (hub.senders p.id)).2 with
    | true =>
      rw [hend, if_pos rfl] at hnew
      rw [show view p t = .absent by rw [view, hnew]; rfl]
      refine ⟨.ends _ _ ?_, .of_absent hnd hnew⟩
      rw [← hrel]
      exact hqueued.filterMap _
    | false =>
      rw [hend, if_neg Bool.false_ne_true] at hnew
      rw [hall hend, hrel, show view p t = .live by rw [view, hnew]; rfl]
      refine ⟨.all _, hnd, fun left hleft => ?_⟩
      cases hnew.symm.trans hleft
      exact ⟨hver, fun _ => nofun⟩
  · have hnone : ∀ sub, hub.entry p.group p.id = some sub → sub.heldHandshakes = none := by
      intro sub he
      cases hsome : sub.heldHandshakes with
      | none => rfl
      | some fs => exact absurd ⟨sub, fs, he, hsome⟩ hheld
    rw [releaseHandshakes_of_not_held hnone] at ha
    subst ha
    rw [heard_of_eq rfl]
    refine ⟨.nothing _ fun held hview => ?_, hhub⟩
    simp only [view, entryOf] at hview
    split at hview
    next => cases hview
    next sub he =>
      rw [hnone sub he] at hview
      cases hview

/-- The rest of the relay queues no number, and keeps the entry or ends it. -/
theorem view_elsewhere (hhub : Served p hub) {change : Change}
    (helse : change.Elsewhere p.group p.id) (ha : change.apply hub = t) :
    heard p hub t = [] ∧ Served p t ∧ (view p t = view p hub ∨ view p t = .absent) := by
  have hquiet := ha ▸ change.quiet hhub.nodup helse
  refine ⟨seqsIn_eq_nil hquiet.queue, ⟨ha ▸ change.nodup hhub.nodup, ?_⟩, ?_⟩
  · intro sub hsome
    obtain ⟨earlier, hearlier, hheld, hver, -⟩ := hquiet.entry sub hsome
    rw [hheld, hver]
    exact hhub.entry earlier hearlier
  · cases he : t.entry p.group p.id with
    | none => exact .inr (by rw [view, he]; rfl)
    | some sub =>
      obtain ⟨earlier, hearlier, hheld, -⟩ := hquiet.entry sub he
      refine .inl ?_
      simp only [view, he, hearlier, entryOf, hheld]

end View

/-- A publisher's position: it has nothing under way; its append is committed and the frame is
still to be fanned out; or, on the subscriber's own connection, the frame is fanned out and still
to be queued as its answer. -/
inductive Publisher
  | idle
  | appended (writer : ConnectionId) (appended : Appended) (message : Bytes)
  | fanned (appended : Appended) (message : Bytes)
  deriving DecidableEq

/-- The subscriber's position in `subscribe`. -/
inductive Replay
  | idle
  | reading (cursor : Nat)
  | queueing (cursor : Nat) (rest : List Frame) (short : Bool)
  | releasing (cursor : Nat) (goesOn : Bool)
  | subscribed
  | ended
  deriving DecidableEq

/-- The relay, as far as one group's handshakes and one subscriber are concerned. -/
structure Relay (π : Type) where
  log : Store
  hub : Registry
  queued : List Frame
  publisher : π → Publisher
  replay : Replay

/-- The steps: `publish_handshake` in three, `subscribe` in six, and the rest of the relay. An
acknowledgement says whether the channel took it. -/
inductive Label (π : Type)
  | append (p : π) (writer : ConnectionId) (message : Bytes) (limit : Option Nat)
  | fanout (p : π)
  | acknowledge (p : π) (queued : Bool)
  | register
  | readPage
  | failPage
  | queueFrame
  | timeOut
  | release
  | elsewhere (change : Change)
  deriving DecidableEq

namespace Relay

variable {π : Type} [DecidableEq π]

/-- An operation of the hub, with the frames it queues to the subscriber. -/
def onHub (party : Party) (w : Relay π) (hub : Registry) : Relay π :=
  { w with
    hub := hub
    queued := w.queued ++ added (w.hub.senders party.id) (hub.senders party.id) }

/-- Where a replay stands with this much of its page left to queue. -/
def replayWithin (cursor : Nat) (rest : List Frame) (short : Bool) : Replay :=
  if rest = [] then if short then .releasing cursor true else .reading cursor
  else .queueing cursor rest short

/-- One step. -/
def step (c : Access.Crypto) (party : Party) (w : Relay π) : Label π → Option (Relay π)
  | .append p writer message limit =>
    match w.publisher p with
    | .idle =>
      match appendWithin c w.log ⟨party.group, message⟩ limit with
      | .error _ => none
      | .ok (appended, log) =>
        some { w with
          log := log
          publisher := update w.publisher p (.appended writer appended message) }
    | _ => none
  | .fanout p =>
    match w.publisher p with
    | .appended writer appended message =>
      let fanned := w.onHub party (w.hub.fanoutFrame party.group
        (.handshake party.group appended.seq message) writer minFanoutVersion)
      some { fanned with
        publisher := update w.publisher p
          (if writer = party.id then .fanned appended message else .idle) }
    | _ => none
  | .acknowledge p queued =>
    match w.publisher p with
    | .fanned appended message =>
      -- `queue_all`; a frame that cannot be queued ends the connection.
      let answer := (w.hub.senders party.id).tryQueue
        (.handshake party.group appended.seq message)
      if (answer.1 == .sent) = queued then
        let answered := w.onHub party (w.hub.onSender party.id (fun _ => answer.2))
        some { answered with
          publisher := update w.publisher p .idle
          replay := if queued then w.replay else .ended }
      else none
    | _ => none
  | .register =>
    if w.replay = .idle ∨ w.replay = .subscribed then
      let registered := w.onHub party
        (w.hub.subscribeHoldingHandshakes party.group party.id party.version)
      some { registered with replay := .reading 0 }
    else none
  | .readPage =>
    match w.replay with
    | .reading cursor =>
      let messages := page w.log party.group cursor (some handshakeReplayPage)
      match messages.getLast? with
      | none => some { w with replay := .releasing cursor true }
      | some last =>
        some { w with
          replay := .queueing (Hub.nextSeq last.seq) (messages.map (frameOf party.group))
            (messages.length < handshakeReplayPage) }
    | _ => none
  | .failPage =>
    match w.replay with
    | .reading cursor =>
      -- The error frame is the answer; the connection goes on if it was queued.
      let answer := (w.hub.senders party.id).tryQueue Sockets.control
      let answered := w.onHub party (w.hub.onSender party.id (fun _ => answer.2))
      some { answered with replay := .releasing cursor (answer.1 == .sent) }
    | _ => none
  | .queueFrame =>
    match w.replay with
    | .queueing cursor (frame :: rest) short =>
      match (w.hub.senders party.id).tryQueue frame with
      | (.sent, sender) =>
        let queued := w.onHub party (w.hub.onSender party.id (fun _ => sender))
        some { queued with replay := replayWithin cursor rest short }
      | _ => none
    | _ => none
  | .timeOut =>
    match w.replay with
    | .queueing cursor _ _ => some { w with replay := .releasing cursor false }
    | _ => none
  | .release =>
    match w.replay with
    | .releasing cursor goesOn =>
      let released := w.onHub party (w.hub.releaseHandshakes party.group party.id cursor)
      some { released with replay := if goesOn then .subscribed else .ended }
    | _ => none
  | .elsewhere change =>
    if change.Elsewhere party.group party.id then some (w.onHub party (change.apply w.hub))
    else none

/-! ### The numbers of a state -/

/-- A number that an append answered. -/
def pendingFor : Appended → Pending
  | .stored seq => ⟨seq, true⟩
  | .duplicate seq => ⟨seq, false⟩

/-- What a publisher is still to announce. -/
def pendingOf : Publisher → Option Pending
  | .idle => none
  | .appended _ appended _ => some (pendingFor appended)
  | .fanned appended _ => some (pendingFor appended)

@[simp]
def positionOf (group : Bytes) : Replay → Position
  | .idle => .idle
  | .reading cursor => .reading cursor
  | .queueing cursor rest short => .queueing cursor (seqsIn group rest) short
  | .releasing cursor goesOn => .releasing cursor goesOn
  | .subscribed => .subscribed
  | .ended => .ended

/-- The feed of a state. -/
def feed (party : Party) (w : Relay π) : Feed π where
  count := (rowsOf w.log party.group).length
  pending p := pendingOf (w.publisher p)
  entry := view party w.hub
  sent := seqsIn party.group w.queued
  position := positionOf party.group w.replay

/-- The event of a step: an append is fresh when the group has no such message, and the fanout of
the subscriber's own publication does not touch its feed. -/
def event (c : Access.Crypto) (party : Party) (w : Relay π) : Label π → Event π
  | .append p _ message _ =>
    .commit p (existing w.log party.group ((⟨party.group, message⟩ : Handshake).hash c)).isNone
  | .fanout p =>
    match w.publisher p with
    | .appended writer _ _ => if writer = party.id then .elsewhere else .fanout p
    | _ => .fanout p
  | .acknowledge p queued => .acknowledge p queued
  | .register => .register
  | .readPage => .read
  | .failPage => .failRead
  | .queueFrame => .queue
  | .timeOut => .timeOut
  | .release => .release
  | .elsewhere _ => .elsewhere

/-- A state whose log has no holes, whose hub serves the subscriber, and whose page holds
handshakes of the group. -/
structure Consistent (c : Access.Crypto) (party : Party) (w : Relay π) : Prop where
  dense : Dense c w.log
  small : (rowsOf w.log party.group).length ≤ Log.bigintBound
  served : Served party w.hub
  page : ∀ cursor rest short, w.replay = .queueing cursor rest short →
    ∀ frame ∈ rest, (frame.seqIn party.group).isSome

section Steps

variable {c : Access.Crypto} {party : Party} {w w' : Relay π} {p : π}

/-- A step of the feed that the relay took, to a state that is consistent again. -/
def Follows (c : Access.Crypto) (party : Party) (w : Relay π) (e : Event π) (w' : Relay π) : Prop :=
  Feed.Step (w.feed party) e (w'.feed party) ∧ Consistent c party w'

variable {f : Feed π} {queued : List Nat} {e : Entry}

theorem Follows.of_eq {e} (hs : Feed.Step (w.feed party) e f)
    (hn : (w'.feed party).count = f.count) (hpend : (w'.feed party).pending = f.pending)
    (he : (w'.feed party).entry = f.entry) (hsent : (w'.feed party).sent = f.sent)
    (hpos : (w'.feed party).position = f.position) (hw : Consistent c party w') :
    Follows c party w e w' :=
  ⟨(Feed.ext hn hpend he hsent hpos : w'.feed party = f) ▸ hs, hw⟩

theorem pending_publisher (w : Relay π) (p : π) (publisher : Publisher) :
    (fun q => pendingOf (update w.publisher p publisher q)) =
      update (w.feed party).pending p (pendingOf publisher) :=
  comp_update pendingOf w.publisher p publisher

theorem follows_append (hw : Consistent c party w) {writer msg lim}
    (h : w.step c party (.append p writer msg lim) = some w') :
    Follows c party w (w.event c party (.append p writer msg lim)) w' := by
  simp only [step] at h
  split at h
  next hidle =>
    have hnone : (w.feed party).pending p = none := by simp [feed, hidle, pendingOf]
    split at h
    next => cases h
    next appended log happend =>
      cases h
      simp only [event]
      rcases appendWithin_ok happend with ⟨seq, hexisting, rfl, rfl⟩ |
        ⟨seq, ws, hready, -, rfl, rfl⟩
      · rw [hexisting]
        have hlt : seq < (w.feed party).count := by
          obtain ⟨row, hrow, hg, -, rfl⟩ := row_of_existing hexisting
          exact hw.dense.seq_lt (mem_rowsOf.mpr ⟨hrow, hg⟩)
        exact .of_eq (.resent hnone hlt) rfl (pending_publisher w p _) rfl rfl rfl
          ⟨hw.dense, hw.small, hw.served, hw.page⟩
      · rw [existing_eq_none.mpr hready.absent]
        have hseq : seq = (w.feed party).count := hready.next.trans (hw.dense.nextSeq_eq _)
        have hn : (rowsOf (insert w.log ws
            (rowFor c ⟨party.group, msg⟩ seq)) party.group).length = (w.feed party).count + 1 :=
          congrArg List.length
            (rowsOf_insert_self w.log ws (rowFor c ⟨party.group, msg⟩ seq)) |>.trans
            (length_append ..)
        have hfits := hready.fits
        subst hseq
        refine .of_eq (.stored hnone) hn (pending_publisher w p _) rfl rfl rfl
          ⟨hw.dense.insert hready, ?_, hw.served, hw.page⟩
        exact hn.trans_le hfits
  next => cases h

theorem seq_pendingFor (appended : Appended) : (pendingFor appended).seq = appended.seq := by
  cases appended <;> rfl

theorem step_of_fans {next seq} (hp : f.pending p = some next)
    (hseq : next.seq = seq) (h : Fans seq f.entry queued e) :
    Feed.Step f (.fanout p)
      { f with
        pending := update f.pending p none
        entry := e
        sent := f.sent ++ queued } := by
  subst hseq
  cases f with
  | mk n pending b sent position =>
    cases h with
    | absent => simpa using Feed.Step.fanoutAbsent hp rfl
    | held held => simpa using Feed.Step.fanoutHeld hp rfl
    | live => exact .fanoutLive hp rfl
    | ends => simpa using Feed.Step.fanoutEnds hp

variable (hw : Consistent c party w)
include hw

theorem follows_fanout (h : w.step c party (.fanout p) = some w') :
    Follows c party w (w.event c party (.fanout p)) w' := by
  simp only [step] at h
  split at h
  next writer appended msg happended =>
    cases h
    have hp : (w.feed party).pending p = some (pendingFor appended) := congrArg pendingOf happended
    simp only [event, happended]
    by_cases hown : writer = party.id
    · subst hown
      rw [if_pos rfl, if_pos rfl]
      obtain ⟨hheard, hserved, hview⟩ := view_fanoutFrame_own hw.served rfl
      refine .of_eq .elsewhere rfl ?_ hview ?_ rfl ⟨hw.dense, hw.small, hserved, hw.page⟩
      · exact (pending_publisher w p _).trans (update_eq_self_iff.mpr hp.symm)
      · exact (seqsIn_append party.group w.queued _).trans
          ((congrArg _ hheard).trans (append_nil _))
    · rw [if_neg hown, if_neg hown]
      obtain ⟨hfans, hserved⟩ := fans_fanoutFrame hw.served hown appended.seq msg rfl
      exact .of_eq (step_of_fans hp (seq_pendingFor _) hfans) rfl (pending_publisher w p .idle) rfl
        (seqsIn_append party.group w.queued _) rfl ⟨hw.dense, hw.small, hserved, hw.page⟩
  next => cases h

theorem follows_acknowledge {queued} (h : w.step c party (.acknowledge p queued) = some w') :
    Follows c party w (.acknowledge p queued) w' := by
  simp only [step] at h
  split at h
  next appended msg happend =>
    generalize hresult : (w.hub.senders party.id).tryQueue
      (.handshake party.group appended.seq msg) = answer at h
    obtain ⟨result, tx⟩ := answer
    obtain ⟨hqueued, ⟨⟩⟩ := Option.ite_none_right_eq_some.mp h
    have hp : (w.feed party).pending p = some (pendingFor appended) := congrArg pendingOf happend
    have hheard := heard_tryQueue hresult
    rw [seqsIn_handshake, ← seq_pendingFor] at hheard
    cases result with
    | sent =>
      subst hqueued
      exact .of_eq (.acknowledged hp) rfl (pending_publisher w p .idle) rfl
        ((seqsIn_append party.group w.queued _).trans (congrArg _ hheard)) rfl
        ⟨hw.dense, hw.small, ⟨hw.served.nodup, hw.served.entry⟩, hw.page⟩
    | full | closed =>
      subst hqueued
      refine .of_eq (.unacknowledged hp) rfl (pending_publisher w p .idle) rfl ?_ rfl
        ⟨hw.dense, hw.small, ⟨hw.served.nodup, hw.served.entry⟩, fun _ _ _ h => by cases h⟩
      exact (seqsIn_append party.group w.queued _).trans ((congrArg _ hheard).trans (append_nil _))
  next => cases h

theorem follows_register (h : w.step c party .register = some w') :
    Follows c party w .register w' := by
  simp only [step] at h
  split_ifs at h with hreplay
  cases h
  obtain ⟨hheard, hserved, hview⟩ := view_subscribe hw.served rfl
  have hpos : (w.feed party).position = .idle ∨ (w.feed party).position = .subscribed :=
    hreplay.imp (fun h => by simp [feed, h]) (fun h => by simp [feed, h])
  have hsent : seqsIn party.group (w.queued ++ added (w.hub.senders party.id)
      ((w.hub.subscribeHoldingHandshakes party.group party.id party.version).senders party.id)) =
        (w.feed party).sent := by
    rw [seqsIn_append]
    exact (congrArg _ hheard).trans (append_nil _)
  have hcons := fun replay hpage =>
    (⟨hw.dense, hw.small, hserved, hpage⟩ : Consistent c party
      { w.onHub party (w.hub.subscribeHoldingHandshakes party.group party.id party.version) with
        replay := replay })
  rcases hview with ⟨habs, hholding⟩ | ⟨hpresent, heq⟩
  · exact .of_eq (.registerFirst hpos habs) rfl rfl hholding hsent rfl (hcons _ fun _ _ _ => nofun)
  · exact .of_eq (.registerAgain hpos hpresent) rfl rfl heq hsent rfl (hcons _ fun _ _ _ => nofun)

theorem follows_timeOut (h : w.step c party .timeOut = some w') :
    Follows c party w .timeOut w' := by
  simp only [step] at h
  split at h
  next cur rest short hreplay =>
    cases h
    have hpos : (w.feed party).position = .queueing cur (seqsIn party.group rest) short := by
      simp only [feed, hreplay, positionOf]
    exact .of_eq (.timeOut hpos) rfl rfl rfl rfl rfl
      ⟨hw.dense, hw.small, hw.served, fun _ _ _ => nofun⟩
  next => cases h

theorem follows_readPage (hbound : (w.feed party).Bounded)
    (hn : (rowsOf w.log party.group).length < Log.bigintBound)
    (h : w.step c party .readPage = some w') : Follows c party w .read w' := by
  simp only [step] at h
  split at h
  next cur hreplay =>
    have hpos : (w.feed party).position = .reading cur := by simp [feed, hreplay]
    have hcur : cur ≤ (rowsOf w.log party.group).length :=
      hbound.cursor cur (by rw [hpos]; rfl)
    have hseqs := hw.dense.page_seqs party.group (hcur.trans_lt hn) handshakeReplayPage
    generalize page w.log party.group cur (some handshakeReplayPage) = messages at h hseqs
    have hlen : messages.length =
        min handshakeReplayPage ((rowsOf w.log party.group).length - cur) := by
      simpa using congrArg List.length hseqs
    have hlast := congrArg getLast? hseqs
    rw [getLast?_map, getLast?_range'] at hlast
    split at h
    next hnone =>
      cases h
      rw [getLast?_eq_none_iff] at hnone
      subst hnone
      exact .of_eq (.read hpos hlen) rfl rfl rfl rfl rfl
        ⟨hw.dense, hw.small, hw.served, fun _ _ _ => nofun⟩
    next last hsome =>
      cases h
      rw [hsome, Option.map_some] at hlast
      split_ifs at hlast with hsize
      have hseq := Option.some.inj hlast
      have hbig : Log.bigintBound < 18446744073709551615 := by decide
      have hnext : Hub.nextSeq last.seq = cur + messages.length := by
        simp only [Hub.nextSeq]
        omega
      refine .of_eq (.read hpos hlen) rfl rfl rfl rfl ?_ ⟨hw.dense, hw.small, hw.served, ?_⟩
      · show Position.queueing _ _ _ = _
        have hmore : List.range' cur messages.length ≠ [] := by
          rw [hlen]
          simpa using hsize
        rw [hnext, seqsIn_frameOf, hseqs, ← hlen, Position.within, if_neg hmore]
      · rintro _ _ _ ⟨⟩ frame hframe
        obtain ⟨stored, -, rfl⟩ := mem_map.mp hframe
        simp [frameOf, Frame.seqIn]
  next => cases h

theorem follows_failPage (h : w.step c party .failPage = some w') :
    Follows c party w .failRead w' := by
  simp only [step] at h
  split at h
  next cur hreplay =>
    cases h
    have hsilent :=
      (heard_tryQueue (.refl ((w.hub.senders party.id).tryQueue Sockets.control))).trans
      (ite_self _)
    refine .of_eq (.failRead (by simp only [feed, hreplay, positionOf])) rfl rfl rfl ?_ rfl
      ⟨hw.dense, hw.small, ⟨hw.served.nodup, hw.served.entry⟩, fun _ _ _ h => by cases h⟩
    exact (seqsIn_append party.group w.queued _).trans ((congrArg _ hsilent).trans (append_nil _))
  next => cases h

omit hw in
theorem positionOf_replayWithin (group : Bytes) (cur : Nat) {rest} (short : Bool)
    (hr : ∀ frame ∈ rest, (frame.seqIn group).isSome) :
    positionOf group (replayWithin cur rest short) = .within cur (seqsIn group rest) short := by
  cases rest with
  | nil => cases short <;> rfl
  | cons first rest =>
    obtain ⟨seq, hseq⟩ := Option.isSome_iff_exists.mp (hr first mem_cons_self)
    have hcons : seqsIn group (first :: rest) = seq :: seqsIn group rest := by
      simp [seqsIn, hseq]
    simp [replayWithin, Position.within, hcons]

theorem follows_queueFrame (h : w.step c party .queueFrame = some w') :
    Follows c party w .queue w' := by
  simp only [step] at h
  split at h
  next cur frame rest short hreplay =>
    have hpage := hw.page cur _ short hreplay
    have hr : ∀ frame ∈ rest, (frame.seqIn party.group).isSome := fun frame h =>
      hpage frame (mem_cons_of_mem _ h)
    obtain ⟨seq, hseq⟩ := Option.isSome_iff_exists.mp (hpage frame mem_cons_self)
    have hpos : (w.feed party).position = .queueing cur (seq :: seqsIn party.group rest) short := by
      simp [feed, hreplay, seqsIn, hseq]
    split at h
    next tx hsent =>
      cases h
      have hheard : heard party w.hub (w.hub.onSender party.id (fun _ => tx)) = [seq] :=
        (heard_tryQueue hsent).trans (by simp [seqsIn, hseq])
      refine .of_eq (.queue hpos) rfl rfl rfl ?_ (positionOf_replayWithin _ _ _ hr)
        ⟨hw.dense, hw.small, ⟨hw.served.nodup, hw.served.entry⟩, ?_⟩
      · exact (seqsIn_append party.group w.queued _).trans (congrArg _ hheard)
      · intro x left late ho frame hframe
        simp only [replayWithin] at ho
        split_ifs at ho
        cases ho
        exact hr frame hframe
    next => cases h
  next => cases h

omit hw in
theorem step_of_releases {cur goesOn}
    (hpos : f.position = .releasing cur goesOn) (h : Releases cur f.entry queued e) :
    Feed.Step f .release
      { f with
        entry := e
        sent := f.sent ++ queued
        position := if goesOn then .subscribed else .ended } := by
  cases f with
  | mk n pending b sent position =>
    cases h with
    | nothing _ he => simpa using Feed.Step.releaseNothing hpos he
    | all held => exact .releaseAll hpos rfl
    | ends held sent hsent => exact .releaseEnds hpos rfl hsent

theorem follows_release (hbound : (w.feed party).Bounded)
    (h : w.step c party .release = some w') : Follows c party w .release w' := by
  simp only [step] at h
  split at h
  next cur goesOn hreplay =>
    cases h
    have hpos : (w.feed party).position = .releasing cur goesOn := by
      simp [feed, hreplay]
    have hsmall : ∀ seq ∈ (view party w.hub).held, seq < 18446744073709551615 := by
      intro seq hseq
      have hlt : seq < (rowsOf w.log party.group).length := hbound.held seq hseq
      have hbig : Log.bigintBound < 18446744073709551615 := by decide
      have := hw.small
      omega
    obtain ⟨hreleases, hserved⟩ := releases_releaseHandshakes hw.served hsmall
      (.refl (w.hub.releaseHandshakes party.group party.id cur))
    refine .of_eq (step_of_releases hpos hreleases) rfl rfl rfl
      (seqsIn_append party.group w.queued _) ?_
      ⟨hw.dense, hw.small, hserved, fun _ _ _ hreplay => ?_⟩
    · cases goesOn <;> rfl
    · cases goesOn <;> cases hreplay
  next => cases h

theorem follows_elsewhere {change : Change}
    (h : w.step c party (.elsewhere change) = some w') : Follows c party w .elsewhere w' := by
  simp only [step] at h
  split_ifs at h with helse
  cases h
  obtain ⟨hheard, hserved, hview⟩ := view_elsewhere hw.served helse rfl
  have hsent : seqsIn party.group (w.queued ++ added (w.hub.senders party.id)
      ((change.apply w.hub).senders party.id)) = (w.feed party).sent := by
    rw [seqsIn_append]
    exact (congrArg _ hheard).trans (append_nil _)
  rcases hview with heq | habs
  · exact .of_eq .elsewhere rfl rfl heq hsent rfl ⟨hw.dense, hw.small, hserved, hw.page⟩
  · exact .of_eq .ends rfl rfl habs hsent rfl ⟨hw.dense, hw.small, hserved, hw.page⟩

/-- Every step of the relay is a step of the feed. -/
theorem Consistent.step (hbound : (w.feed party).Bounded)
    (hn : (rowsOf w.log party.group).length < Log.bigintBound) {label}
    (h : w.step c party label = some w') : Follows c party w (w.event c party label) w' := by
  cases label with
  | append p writer msg lim => exact follows_append hw h
  | fanout p => exact follows_fanout hw h
  | acknowledge p queued => exact follows_acknowledge hw h
  | register => exact follows_register hw h
  | readPage => exact follows_readPage hw hbound hn h
  | failPage => exact follows_failPage hw h
  | queueFrame => exact follows_queueFrame hw h
  | timeOut => exact follows_timeOut hw h
  | release => exact follows_release hw hbound h
  | elsewhere change => exact follows_elsewhere hw h

end Steps

end Relay

end WealdRelay.Handshakes
