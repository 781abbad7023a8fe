import WealdRelay.Hub.Feed
import WealdRelay.Hub.Sockets

/-!
# What the rest of the relay does to one entry of the hub

While one connection subscribes to a group and receives its handshakes, the rest of the relay
goes on: other frames are fanned out, owed notices are paid, principals are evicted, the
connection's own tasks answer, ping, write and end. `Change` lists these operations, and
`Change.quiet` says all that matters of them to one entry: it may end, what it holds stays, and
no handshake of the group is queued. `fanout_reaches_authenticated` says whom a fanout reaches.
-/

namespace WealdRelay.Hub

open List Registry

/-- The number of a handshake of this group. -/
def Frame.seqIn (group : Bytes) : Frame → Option Nat
  | .handshake own seq _ => if own = group then some seq else none
  | _ => none

/-- The hub's operations, and what a connection's own two tasks do to its channel. -/
inductive Change
  | connect
  | identify (entry : Bytes) (id : ConnectionId)
  | subscribe (held : Option (List Frame)) (group : Bytes) (id : ConnectionId) (version : Nat)
  | release (group : Bytes) (id : ConnectionId) (replayedTo : Nat)
  | fanout (group : Bytes) (frame : Frame) (writer : ConnectionId) (minimumVersion : Nat)
  | settle (order : List Bytes)
  | evict (entry : Bytes)
  | disconnect (id : ConnectionId)
  | answer (id : ConnectionId) (frame : Frame)
  | ping (id : ConnectionId)
  | write (id : ConnectionId)
  | writerEnds (id : ConnectionId)
  deriving DecidableEq

namespace Change

def apply (hub : Registry) : Change → Registry
  | connect => hub.connect
  | identify entry id => hub.identify entry id
  | subscribe held group id version => Registry.subscribeWith held hub group id version
  | release group id replayedTo => hub.releaseHandshakes group id replayedTo
  | fanout group frame writer minimumVersion => hub.fanoutFrame group frame writer minimumVersion
  | settle order => hub.settleDowngrades order
  | evict entry => hub.evict entry
  | disconnect id => hub.disconnect id
  | answer id frame => hub.onSender id (fun sender => (sender.tryQueue frame).2)
  | ping id => hub.onSender id (fun sender => (sender.trySend .ping).2)
  | write id => hub.onSender id Sockets.takeNext
  | writerEnds id => hub.onSender id (fun sender => { sender with receiving := false })

/-- A change that is no part of the group's handshake feed to this connection: it subscribes
other entries and releases other connections only, fans out no handshake of the group and
answers this connection with none. -/
def Elsewhere (group : Bytes) (id : ConnectionId) : Change → Prop
  | subscribe _ other connection _ => ¬ (other = group ∧ connection = id)
  | release _ connection _ => connection ≠ id
  | fanout other frame _ _ =>
    frame.seqIn group = none ∧ ¬ (other = group ∧ frame.undowngradable = true)
  | answer connection frame => connection = id → frame.seqIn group = none
  | _ => True

instance (group : Bytes) (id : ConnectionId) (change : Change) :
    Decidable (change.Elsewhere group id) := by
  cases change <;> unfold Elsewhere <;> infer_instance

end Change

/-- An entry that is still there holds what it held, and a notice it owed is still owed or
among the frames queued. -/
def Subscriber.Stays (group : Bytes) (queued : List Frame) (before after : Subscriber) : Prop :=
  after.heldHandshakes = before.heldHandshakes ∧ after.protocolVersion = before.protocolVersion ∧
    (before.downgradeOwed = true → after.downgradeOwed = true ∨ downgradeFrame group ∈ queued)

/-- What the rest of the relay does to one entry: it may end it, and it queues no handshake of
the group. -/
structure Quiet (group : Bytes) (id : ConnectionId) (hub after : Registry) : Prop where
  entry : ∀ subscriber, after.entry group id = some subscriber →
    ∃ earlier, hub.entry group id = some earlier ∧
      earlier.Stays group (added (hub.senders id) (after.senders id)) subscriber
  queue : ∀ frame ∈ added (hub.senders id) (after.senders id), frame.seqIn group = none

/-- The same with the items that were queued, so that changes compose. -/
structure Keeps (group : Bytes) (id : ConnectionId) (items : List Outbound)
    (hub after : Registry) : Prop where
  entry : ∀ subscriber, after.entry group id = some subscriber →
    ∃ earlier, hub.entry group id = some earlier ∧ earlier.Stays group (framesOf items) subscriber
  queue : (after.senders id).queue = (hub.senders id).queue ++ items
  silent : ∀ frame ∈ framesOf items, frame.seqIn group = none

section Changes

variable {g : Bytes} {id : ConnectionId} {hub middle t : Registry}
  {items more : List Outbound}

theorem Subscriber.Stays.refl (g : Bytes) (queued : List Frame) (sub : Subscriber) :
    sub.Stays g queued sub :=
  ⟨rfl, rfl, .inl⟩

theorem Subscriber.Stays.mono {queued wider : List Frame} {b t : Subscriber}
    (h : b.Stays g queued t) (hwider : ∀ frame ∈ queued, frame ∈ wider) : b.Stays g wider t :=
  ⟨h.1, h.2.1, fun howed => (h.2.2 howed).imp_right (hwider _)⟩

theorem Subscriber.Stays.trans {queued : List Frame} {a b c : Subscriber}
    (hab : a.Stays g queued b) (hbc : b.Stays g queued c) : a.Stays g queued c :=
  ⟨hbc.1.trans hab.1, hbc.2.1.trans hab.2.1, fun howed =>
    (hab.2.2 howed).elim (hbc.2.2 ·) .inr⟩

namespace Keeps

theorem refl (g : Bytes) (id : ConnectionId) (hub : Registry) : Keeps g id [] hub hub where
  entry sub h := ⟨sub, h, .refl _ _ _⟩
  queue := (append_nil _).symm
  silent _ h := absurd h not_mem_nil

theorem trans (h₁ : Keeps g id items hub middle) (h₂ : Keeps g id more middle t) :
    Keeps g id (items ++ more) hub t where
  entry sub h := by
    obtain ⟨between, hbetween, hstays₂⟩ := h₂.entry sub h
    obtain ⟨earlier, hearlier, hstays₁⟩ := h₁.entry between hbetween
    refine ⟨earlier, hearlier, ?_⟩
    rw [framesOf_append]
    exact (hstays₁.mono fun _ => mem_append_left _).trans (hstays₂.mono fun _ => mem_append_right _)
  queue := by rw [h₂.queue, h₁.queue, append_assoc]
  silent frame h := by
    rw [framesOf_append] at h
    exact (mem_append.mp h).elim (h₁.silent frame) (h₂.silent frame)

theorem quiet (h : Keeps g id items hub t) : Quiet g id hub t where
  entry sub he := by
    rw [added_of_append h.queue]
    exact h.entry sub he
  queue frame hframe := by
    rw [added_of_append h.queue] at hframe
    exact h.silent frame hframe

/-- A change to the index alone, or to another connection. -/
theorem of_same (he : ∀ sub, t.entry g id = some sub → hub.entry g id = some sub)
    (hsender : (t.senders id).queue = (hub.senders id).queue) : Keeps g id [] hub t where
  entry sub h := ⟨sub, he sub h, .refl _ _ _⟩
  queue := hsender.trans (append_nil _).symm
  silent _ h := absurd h not_mem_nil

end Keeps

variable {frame : Frame} {tx : OutboundSender}

/-- What a turn queues, and what it leaves of the entry unless it holds the frame. -/
theorem Delivers.queued {w low sub turn} (h : Delivers g frame w low sub tx turn) :
    ∃ fs, (∀ queued ∈ fs, queued = downgradeFrame g ∨ queued = frame) ∧
      turn.sender.queue = tx.queue ++ fs.map .frame ∧
        (turn.gone = false → (frame.undowngradable = true → sub.heldHandshakes = none) →
          sub.Stays g fs turn.subscriber) := by
  have hnot : ∀ queued ∈ notice g sub, queued = downgradeFrame g := by
    intro queued hqueued
    simp only [notice] at hqueued
    split_ifs at hqueued
    · exact mem_singleton.mp hqueued
    · cases hqueued
  have howed : sub.downgradeOwed = true → downgradeFrame g ∈ notice g sub := by
    intro howed
    simp [notice, howed]
  have hnone : ∀ queue : List Outbound, queue = queue ++ ([] : List Frame).map .frame :=
    fun queue => (append_nil queue).symm
  cases h with
  | skipped => exact ⟨[], by simp, hnone _, fun _ _ => .refl _ _ _⟩
  | held hframe hheld =>
    exact ⟨[], by simp, hnone _, fun _ hno => absurd hheld (by simp [hno hframe])⟩
  | overflow => exact ⟨[], by simp, hnone _, fun hgone => by cases hgone⟩
  | queues _ hheld hturn =>
    cases hturn with
    | sent =>
      refine ⟨notice g sub ++ [frame], ?_, rfl, fun _ _ => ⟨rfl, rfl, ?_⟩⟩
      · intro queued hqueued
        exact (mem_append.mp hqueued).imp (hnot queued) mem_singleton.mp
      · exact fun h => .inr (mem_append_left _ (howed h))
    | shed =>
      exact ⟨notice g sub, fun queued hqueued => .inl (hnot queued hqueued), rfl,
        fun _ _ => ⟨rfl, rfl, fun h => .inr (howed h)⟩⟩
    | downgraded =>
      exact ⟨notice g sub, fun queued hqueued => .inl (hnot queued hqueued), rfl,
        fun _ _ => ⟨rfl, rfl, fun _ => .inl rfl⟩⟩
    | owing => exact ⟨[], by simp, hnone _, fun _ _ => .refl _ _ _⟩
    | ended hgone _ hqueue hframes =>
      exact ⟨_, fun queued hqueued => .inl (hnot queued (hframes.subset hqueued)), hqueue,
        fun hk => absurd hgone (by simp [hk])⟩

theorem silent_of_frames {fs : List Frame} (h : ∀ frame ∈ fs, frame.seqIn g = none) :
    ∀ frame ∈ framesOf (fs.map .frame), frame.seqIn g = none := by
  rwa [framesOf_map]

namespace Registry

theorem keeps_fanoutFrame (id : ConnectionId) {x : Bytes} {frame : Frame}
    (w : ConnectionId) (low : Nat) (hnd : (hub.subscriberIds x).Nodup)
    (hframe : frame.seqIn g = none) (helse : ¬ (x = g ∧ frame.undowngradable = true)) :
    ∃ items, Keeps g id items hub (hub.fanoutFrame x frame w low) := by
  cases he : hub.entry x id with
  | none =>
    obtain ⟨hsender, hes⟩ :=
      fanoutFrame_of_not_entry frame w low hnd he
    refine ⟨[], .of_same ?_ (congrArg _ hsender)⟩
    intro sub h
    rwa [← hes]
  | some sub =>
    have hturn := deliver_delivers x frame w low sub (hub.senders id)
    obtain ⟨hsender, hes⟩ := fanoutFrame_of_entry hnd he (.refl (deliver x frame
      w low sub (hub.senders id)))
    obtain ⟨fs, hframes, hqueue, hstays⟩ := hturn.queued
    refine ⟨fs.map .frame, ?_, ?_, ?_⟩
    · intro left hleft
      rw [hes] at hleft
      split_ifs at hleft with hgone hg
      · subst hg
        cases hleft
        rw [framesOf_map]
        refine ⟨sub, he, hstays (by simpa using hgone) fun hun => ?_⟩
        exact absurd ⟨rfl, hun⟩ helse
      · exact ⟨left, hleft, .refl _ _ _⟩
    · rw [hsender, hqueue]
    · refine silent_of_frames fun queued hqueued => ?_
      rcases hframes queued hqueued with rfl | rfl
      · rfl
      · exact hframe

theorem keeps_settleGroup (g : Bytes) (id : ConnectionId) (hub : Registry) (x : Bytes)
    (hnd : (hub.subscriberIds x).Nodup) : ∃ items, Keeps g id items hub (hub.settleGroup x) := by
  cases he : hub.entry x id with
  | none =>
    obtain ⟨hsender, hes⟩ := settleGroup_of_not_entry he
    exact ⟨[], .of_same (fun sub h => hes g ▸ h) (congrArg _ hsender)⟩
  | some sub =>
    obtain ⟨hsender, hes⟩ := settleGroup_of_entry hnd he
    rcases settled_cases x sub (hub.senders id) with heq | ⟨howed, hpaid⟩
    · rw [heq] at hsender hes
      refine ⟨[], .of_same ?_ (congrArg _ hsender)⟩
      intro left hleft
      rw [hes] at hleft
      split_ifs at hleft with hg
      · subst hg
        rw [he, hleft]
      · exact hleft
    · rw [hpaid] at hsender hes
      refine ⟨[downgradeFrame x].map .frame, ?_, ?_, ?_⟩
      · intro left hleft
        rw [hes] at hleft
        split_ifs at hleft with hg
        · subst hg
          cases hleft
          exact ⟨sub, he, rfl, rfl, fun _ => .inr (by simp [framesOf])⟩
        · exact ⟨left, hleft, .refl _ _ _⟩
      · rw [hsender]
        rfl
      · refine silent_of_frames fun queued hqueued => ?_
        rw [mem_singleton.mp hqueued]
        rfl

theorem keeps_settleDowngrades (g : Bytes) (id : ConnectionId) (order : List Bytes)
    (hub : Registry) (hnd : ∀ x, (hub.subscriberIds x).Nodup) :
    ∃ items, Keeps g id items hub (hub.settleDowngrades order) := by
  induction order generalizing hub with
  | nil => exact ⟨[], .refl _ _ _⟩
  | cons first rest ih =>
    obtain ⟨items, hfirst⟩ := keeps_settleGroup g id hub first (hnd first)
    obtain ⟨more, hr⟩ := ih (hub.settleGroup first) fun x =>
      (hnd x).sublist ((narrows_settleDowngrades [first] hub).ids x)
    exact ⟨items ++ more, hfirst.trans hr⟩

theorem keeps_disconnect (g : Bytes) (id : ConnectionId) (hub : Registry)
    (gone : ConnectionId) : Keeps g id [] hub (hub.disconnect gone) := by
  refine .of_same ?_ rfl
  intro sub h
  rw [entry_disconnect] at h
  split_ifs at h
  exact h

theorem keeps_evict (g : Bytes) (id : ConnectionId) (hub : Registry) (entry : Bytes) :
    ∃ items, Keeps g id items hub (hub.evict entry) := by
  obtain ⟨⟨items, hqueue, hitems⟩, hes⟩ := hub.evict_view entry id
  refine ⟨items, fun sub h => ?_, hqueue, by simp [hitems]⟩
  rcases hes g with hnone | heq
  · rw [hnone] at h
    cases h
  · exact ⟨sub, heq.symm.trans h, .refl _ _ _⟩

end Registry

/-- A change that keeps the entries. -/
theorem Quiet.of_same_entries (he : t.entry g id = hub.entry g id)
    (hqueue : ∀ frame ∈ added (hub.senders id) (t.senders id), frame.seqIn g = none) :
    Quiet g id hub t where
  entry sub h := ⟨sub, he ▸ h, .refl _ _ _⟩
  queue := hqueue

/-! ### What a connection's own tasks queue -/

theorem added_connect (hub : Registry) (id : ConnectionId) :
    added (hub.senders id) (hub.connect.senders id) = [] := by
  by_cases hid : id = hub.nextId
  · simp [added, Registry.connect, hid, OutboundSender.fresh, framesOf]
  · exact added_of_eq (by simp [Registry.connect, hid])

theorem mem_added_onSender {conn} {f : OutboundSender → OutboundSender}
    (h : frame ∈ added (hub.senders id) ((hub.onSender conn f).senders id)) :
    conn = id ∧ frame ∈ added (hub.senders id) (f (hub.senders id)) := by
  by_cases hid : conn = id
  · subst hid
    exact ⟨rfl, by simpa [onSender] using h⟩
  · rw [added_of_eq (by simp [onSender, Ne.symm hid])] at h
    cases h

theorem mem_added_tryQueue {queued} (h : queued ∈ added tx (tx.tryQueue frame).2) :
    queued = frame := by
  rcases tx.tryQueue_cases frame with hsent | hfull | ⟨hclosed, -⟩
  · have hadded : added tx (tx.tryQueue frame).2 = [frame] :=
      added_of_frames (by rw [hsent]; rfl)
    exact mem_singleton.mp (hadded ▸ h)
  · rw [hfull, added_of_eq rfl] at h
    cases h
  · rw [hclosed, added_of_eq rfl] at h
    cases h

theorem added_ping (tx : OutboundSender) : added tx (tx.trySend .ping).2 = [] := by
  simp only [OutboundSender.trySend]
  split_ifs
  · exact added_of_eq rfl
  · exact added_of_eq rfl
  · have hqueue : ({ tx with queue := tx.queue ++ [.ping] } : OutboundSender).queue =
        tx.queue ++ [.ping] := rfl
    exact added_of_append hqueue

theorem added_takeNext (tx : OutboundSender) : added tx (Sockets.takeNext tx) = [] := by
  have hqueue : (Sockets.takeNext tx).queue = tx.queue.tail := by
    simp only [Sockets.takeNext]
    split <;> simp_all
  have hshort : tx.queue.tail.length ≤ tx.queue.length := by simp
  rw [added, hqueue, drop_eq_nil_of_le hshort]
  rfl

theorem Change.nodup (hnd : ∀ x, (hub.subscriberIds x).Nodup) (change : Change)
    (g : Bytes) : ((change.apply hub).subscriberIds g).Nodup := by
  cases change with
  | connect | answer | ping | write | writerEnds => exact hnd g
  | identify entry id => exact (hnd g).sublist ((narrows_identify hub entry id).1.ids _)
  | subscribe held x id ver =>
    rcases subscriberIds_subscribeWith held hub x id ver g with
      heq | ⟨hnew, happend⟩
    · exact (congrArg List.Nodup heq).mpr (hnd g)
    · refine (congrArg List.Nodup happend).mpr ?_
      exact nodup_append'.mpr ⟨hnd g, nodup_singleton _, by simpa using hnew⟩
  | release x id replayedTo =>
    exact (hnd g).sublist ((narrows_releaseHandshakes hub x id replayedTo).ids g)
  | fanout x frame w low =>
    exact (hnd g).sublist (subscriberIds_fanoutFrame g)
  | settle order =>
    exact (hnd g).sublist ((Registry.narrows_settleDowngrades order hub).ids g)
  | evict entry => exact (hnd g).sublist ((narrows_evict hub entry).ids g)
  | disconnect id => exact (hnd g).sublist (subscriberIds_disconnect hub id g)

/-- Everything the rest of the relay does leaves the group's feed to this connection alone. -/
theorem Change.quiet (hnd : ∀ x, (hub.subscriberIds x).Nodup) (change : Change)
    (helse : change.Elsewhere g id) : Quiet g id hub (change.apply hub) := by
  cases change with
  | connect =>
    refine .of_same_entries rfl fun frame hframe => ?_
    exact absurd hframe (added_connect hub id ▸ not_mem_nil)
  | identify entry conn =>
    have hkeeps : Keeps g id [] hub (hub.identify entry conn) := by
      simp only [Registry.identify]
      split_ifs
      · exact .refl _ _ _
      · exact .of_same (fun _ h => h) rfl
    exact hkeeps.quiet
  | subscribe held x conn ver =>
    have hr := subscribeWith_rest held hub x conn ver
    refine ⟨?_, ?_⟩
    · intro sub h
      rw [apply, entry_subscribeWith, if_neg (fun h => helse ⟨h.1.symm, h.2.symm⟩)] at h
      exact ⟨sub, h, .refl _ _ _⟩
    · intro frame hframe
      rw [show added (hub.senders id) ((apply hub
        (.subscribe held x conn ver)).senders id) = [] from
          added_of_eq (by rw [apply, hr.2.1])] at hframe
      cases hframe
  | release x conn replayedTo =>
    obtain ⟨hsender, hes⟩ :=
      releaseHandshakes_of_ne hub x replayedTo (Ne.symm helse)
    exact (Keeps.of_same (fun sub h => hes g ▸ h) (congrArg _ hsender)).quiet
  | fanout x frame w low =>
    obtain ⟨items, hkeeps⟩ := Registry.keeps_fanoutFrame id w low (hnd x) helse.1 helse.2
    exact hkeeps.quiet
  | settle order =>
    obtain ⟨items, hkeeps⟩ := Registry.keeps_settleDowngrades g id order hub hnd
    exact hkeeps.quiet
  | evict entry =>
    obtain ⟨items, hkeeps⟩ := Registry.keeps_evict g id hub entry
    exact hkeeps.quiet
  | disconnect conn => exact (Registry.keeps_disconnect g id hub conn).quiet
  | answer conn frame =>
    refine .of_same_entries rfl fun queued hqueued => ?_
    simp only [apply] at hqueued
    obtain ⟨hid, hqueued⟩ := mem_added_onSender hqueued
    rw [mem_added_tryQueue hqueued]
    exact helse hid
  | ping conn =>
    refine .of_same_entries rfl fun queued hqueued => ?_
    simp only [apply] at hqueued
    exact absurd (mem_added_onSender hqueued).2 (by simp [added_ping])
  | write conn =>
    refine .of_same_entries rfl fun queued hqueued => ?_
    simp only [apply] at hqueued
    exact absurd (mem_added_onSender hqueued).2 (by simp [added_takeNext])
  | writerEnds conn =>
    refine .of_same_entries rfl fun queued hqueued => ?_
    simp only [apply] at hqueued
    exact absurd (mem_added_onSender hqueued).2 (by simp [added, framesOf])

end Changes

/-! ### Whom a fanout reaches -/

open Lib Sockets

/-- In every run, a fanout touches the queue of a running connection only if it is subscribed to
the group and has authenticated. -/
theorem fanout_reaches_authenticated
    {operations sockets}
    (run : Run Steps start operations sockets)
    {group frame writer minimumVersion id}
    (htouched : (sockets.hub.fanoutFrame group frame writer minimumVersion).senders id ≠
      sockets.hub.senders id)
    (hrunning : (sockets.connections id).reader ≠ .ended) :
    id ∈ sockets.hub.subscriberIds group ∧
      ∃ entry, (sockets.connections id).session = .ready entry := by
  have ht := tidy_run run
  have hid : id ∈ sockets.hub.subscriberIds group := by
    by_contra hnone
    exact htouched (fanoutFrame_of_not_entry _ _ _ (ht.nodup group) (entry_eq_none.mpr hnone)).1
  exact ⟨hid, ht.subscribed group id hid hrunning⟩

/-- The first device of `strandedOperations`, once it has subscribed. -/
theorem fanout_reaches_first : ∃ t, Run Steps start (strandedOperations.take 11) t ∧
    0 ∈ t.hub.subscriberIds (id32 1) ∧ ∃ entry, (t.connections 0).session = .ready entry := by
  have hexec : (start.takeAll (strandedOperations.take 11)).map (fun t =>
      (decide ((t.hub.fanoutFrame (id32 1) (.push []) 1 1).senders 0 ≠ t.hub.senders 0),
        decide ((t.connections 0).reader ≠ .ended))) = some (true, true) := by
    decide +kernel
  obtain ⟨t, htaken, hpair⟩ := Option.map_eq_some_iff.mp hexec
  obtain ⟨htouched, hrunning⟩ := Prod.mk.inj hpair
  have run := run_of_takeAll htaken
  exact ⟨t, run, fanout_reaches_authenticated run (of_decide_eq_true htouched)
    (of_decide_eq_true hrunning)⟩

end WealdRelay.Hub
