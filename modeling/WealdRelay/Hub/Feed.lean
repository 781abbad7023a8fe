import WealdRelay.Hub.Registry

/-!
# The hub as one connection sees it

What the operations of the hub do to the entry of one connection in one group and to its
channel. The hub keeps a list of entries per group; with each connection subscribed at most
once to a group, an operation treats each entry alone, and this file says how:

* `Registry.entry`: the entry of a connection in a group;
* `added`: the frames an operation puts into a channel;
* `fanoutFrame_of_entry`, `releaseHandshakes_of_held`, `settleGroup_of_entry`: the three
  operations that queue, in terms of `deliver`, `releaseLoop` and `try_queue`;
* `deliver_handshake`, `deliver_held`, `deliver_of_downgradable`: the turns of a fanout.
-/

namespace WealdRelay.Hub

open List Function

/-! ### What is queued -/

/-- The frames of a queue, without pings and closes. -/
def framesOf (queue : List Outbound) : List Frame :=
  queue.filterMap fun
    | .frame frame => some frame
    | .ping => none
    | .close => none

/-- The frames a channel holds behind what it held before. -/
def added (before after : OutboundSender) : List Frame :=
  framesOf (after.queue.drop before.queue.length)

section Added

variable {b middle t : OutboundSender} {frame : Frame} {items : List Outbound}

theorem framesOf_map (fs : List Frame) : framesOf (fs.map Outbound.frame) = fs := by
  induction fs with
  | nil => rfl
  | cons first rest ih => exact congrArg (first :: ·) ih

theorem framesOf_append (items more : List Outbound) :
    framesOf (items ++ more) = framesOf items ++ framesOf more :=
  filterMap_append

theorem added_of_append (h : t.queue = b.queue ++ items) : added b t = framesOf items := by
  rw [added, h, drop_left]

theorem added_of_frames {fs} (h : t.queue = b.queue ++ fs.map .frame) : added b t = fs := by
  rw [added_of_append h, framesOf_map]

theorem added_of_eq (h : t.queue = b.queue) : added b t = [] :=
  added_of_append (h.trans (append_nil _).symm)

namespace OutboundSender

theorem tryQueue_cases (tx : OutboundSender) (frame : Frame) :
    tx.tryQueue frame = (.sent, { tx with queue := tx.queue ++ [.frame frame] }) ∨
      tx.tryQueue frame = (.full, tx) ∨
        tx.tryQueue frame = (.closed, tx) ∧ tx.receiving = false := by
  simp only [tryQueue, trySend]
  split_ifs with _ hrecv
  · exact .inr (.inl rfl)
  · exact .inr (.inr ⟨rfl, by simpa using hrecv⟩)
  · exact .inr (.inl rfl)
  · exact .inl rfl

theorem queue_of_tryQueue_sent {tx left : OutboundSender} (h : tx.tryQueue frame = (.sent, left)) :
    left = { tx with queue := tx.queue ++ [.frame frame] } := by
  rcases tx.tryQueue_cases frame with hsent | hfull | ⟨hclosed, -⟩
  · exact (Prod.mk.inj (h.symm.trans hsent)).2
  · exact absurd (h.symm.trans hfull) (by simp)
  · exact absurd (h.symm.trans hclosed) (by simp)

theorem eq_of_tryQueue_ne {tx left : OutboundSender} {ans : Queued}
    (h : tx.tryQueue frame = (ans, left)) (hans : ans ≠ .sent) : left = tx := by
  rcases tx.tryQueue_cases frame with hsent | hfull | ⟨hclosed, -⟩
  · exact absurd (Prod.mk.inj (h.symm.trans hsent)).1 hans
  · exact (Prod.mk.inj (h.symm.trans hfull)).2
  · exact (Prod.mk.inj (h.symm.trans hclosed)).2

theorem close_queue (tx : OutboundSender) :
    ∃ items, tx.close.queue = tx.queue ++ items ∧ framesOf items = [] := by
  simp only [close, trySend]
  split_ifs
  · exact ⟨[], (append_nil _).symm, rfl⟩
  · exact ⟨[], (append_nil _).symm, rfl⟩
  · exact ⟨[.close], rfl, rfl⟩

end OutboundSender

end Added

/-! ### The entry of one connection -/

namespace Registry

/-- The entry of a connection in a group. -/
def entry (hub : Registry) (group : Bytes) (id : ConnectionId) : Option Subscriber :=
  (hub.groups group).find? (fun subscriber => subscriber.id == id)

section Entries

variable {hub : Registry} {g x : Bytes} {id : ConnectionId} {sub : Subscriber}

theorem mem_of_entry (h : hub.entry g id = some sub) : sub ∈ hub.groups g ∧ sub.id = id :=
  ⟨mem_of_find?_eq_some h, by simpa using find?_some h⟩

theorem entry_eq_none : hub.entry g id = none ↔ id ∉ hub.subscriberIds g := by
  simp only [entry, find?_eq_none, subscriberIds, mem_map, beq_iff_eq, not_exists, not_and]

/-- The entries of the groups alone decide. -/
theorem entry_congr {t : Registry} (h : t.groups g = hub.groups g) :
    t.entry g id = hub.entry g id := by
  rw [entry, h, entry]

theorem entry_update (subs : List Subscriber) (senders : ConnectionId → OutboundSender)
    (downgrades shed : Nat) :
    ({ hub with
        groups := update hub.groups g subs
        senders := senders
        downgrades := downgrades
        shed := shed } : Registry).entry x id =
      if x = g then subs.find? (·.id == id)
      else hub.entry x id := by
  simp only [entry, update_apply]
  split_ifs <;> rfl

theorem entry_foldl_disconnect (gone : List ConnectionId) (hub : Registry) (g : Bytes)
    (id : ConnectionId) :
    (gone.foldl disconnect hub).entry g id = if id ∈ gone then none else hub.entry g id := by
  simp only [entry, foldl_disconnect, find?_filter]
  split_ifs with hid
  · refine find?_eq_none.mpr fun sub _ => ?_
    rw [decide_eq_true_iff, beq_iff_eq]
    rintro ⟨hk, rfl⟩
    simp [hid] at hk
  · refine congrArg (fun p => find? p (hub.groups g)) (funext fun sub => ?_)
    by_cases heq : sub.id = id
    · simp [heq, hid]
    · simp [heq]

theorem entry_disconnect (hub : Registry) (gone : ConnectionId) (g : Bytes) (id : ConnectionId) :
    (hub.disconnect gone).entry g id = if id = gone then none else hub.entry g id := by
  simpa using entry_foldl_disconnect [gone] hub g id

/-- A subscription adds the entry it names and touches no other. -/
theorem entry_subscribeWith (held : Option (List Frame)) (hub : Registry) (g : Bytes)
    (id : ConnectionId) (ver : Nat) (x : Bytes) (conn : ConnectionId) :
    (subscribeWith held hub g id ver).entry x conn = if x = g ∧ conn = id then
        some ((hub.entry g id).getD
          { id := id, protocolVersion := ver, downgradeOwed := false, heldHandshakes := held })
      else hub.entry x conn := by
  simp only [subscribeWith]
  by_cases hany : (hub.groups g).any (·.id == id) = true
  · rw [if_pos hany]
    split_ifs with heq
    · obtain ⟨rfl, rfl⟩ := heq
      obtain ⟨found, hf⟩ := Option.isSome_iff_exists.mp (find?_isSome.mpr (any_eq_true.mp hany))
      rw [show hub.entry x conn = some found from hf, Option.getD_some]
    · rfl
  · have hnone : hub.entry g id = none := by
      refine find?_eq_none.mpr fun sub hmem hid => ?_
      exact hany (any_eq_true.mpr ⟨sub, hmem, hid⟩)
    rw [if_neg hany, entry_update, hnone, Option.getD_none, find?_append]
    by_cases hg : x = g
    · subst hg
      by_cases hid : conn = id
      · subst hid
        simp [show (hub.groups x).find? (·.id == conn) = none from hnone]
      · simp [hid, Ne.symm hid, entry]
    · simp [hg]

end Entries

end Registry

/-! ### One turn of a fanout -/

/-- The notice that goes ahead of the next frame. -/
def notice (group : Bytes) (subscriber : Subscriber) : List Frame :=
  if subscriber.downgradeOwed then [downgradeFrame group] else []

/-- A channel with frames behind what it holds. -/
def OutboundSender.extend (sender : OutboundSender) (frames : List Frame) : OutboundSender :=
  { sender with queue := sender.queue ++ frames.map Outbound.frame }

/-- Everything a turn that reaches the queue can do. -/
inductive Queues (group : Bytes) (frame : Frame) (subscriber : Subscriber)
    (sender : OutboundSender) : Turn → Prop
  | sent :
      Queues group frame subscriber sender (Turn.kept { subscriber with downgradeOwed := false }
          (sender.extend (notice group subscriber ++ [frame])) (some .sent))
  | shed (hshed : frame.ephemeral = true) :
      Queues group frame subscriber sender
        { Turn.kept { subscriber with downgradeOwed := false }
            (sender.extend (notice group subscriber)) (some .shed) with shed := 1 }
  | downgraded (hkeep : frame.ephemeral = false) (hframe : frame.undowngradable = false) :
      Queues group frame subscriber sender
        { Turn.kept { subscriber with downgradeOwed := true }
            (sender.extend (notice group subscriber)) (some .downgraded) with downgrades := 1 }
  | owing (howed : subscriber.downgradeOwed = true) (hframe : frame.undowngradable = false) :
      Queues group frame subscriber sender (Turn.kept subscriber sender (some .downgraded))
  | ended {turn : Turn} {frames : List Frame} (hgone : turn.gone = true)
      (hcount : turn.downgrades = 0)
      (hqueue : turn.sender.queue = sender.queue ++ frames.map .frame)
      (hframes : frames.Sublist (notice group subscriber)) :
      Queues group frame subscriber sender turn

/-- Everything a turn can do. -/
inductive Delivers (group : Bytes) (frame : Frame) (writer : ConnectionId)
    (minimumVersion : Nat) (subscriber : Subscriber) (sender : OutboundSender) : Turn → Prop
  | skipped {outcome : Option Delivery}
      (hskip : subscriber.id = writer ∨ subscriber.protocolVersion < minimumVersion) :
      Delivers group frame writer minimumVersion subscriber sender
        (Turn.kept subscriber sender outcome)
  | held {frames : List Frame} (hframe : frame.undowngradable = true)
      (hheld : subscriber.heldHandshakes = some frames) :
      Delivers group frame writer minimumVersion subscriber sender
        (Turn.kept { subscriber with heldHandshakes := some (frames ++ [frame]) } sender
          (some .sent))
  | overflow {frames : List Frame} (hframe : frame.undowngradable = true)
      (hheld : subscriber.heldHandshakes = some frames) :
      Delivers group frame writer minimumVersion subscriber sender
        (Turn.ended subscriber sender.evict)
  | queues {turn : Turn}
      (hfor : subscriber.id ≠ writer ∧ minimumVersion ≤ subscriber.protocolVersion)
      (hheld : frame.undowngradable = true → subscriber.heldHandshakes = none)
      (hturn : Queues group frame subscriber sender turn) :
      Delivers group frame writer minimumVersion subscriber sender turn

section Turns

variable {g : Bytes} {frame : Frame} {sub : Subscriber} {tx : OutboundSender}

theorem Queues.of_same_queue {flagged} (h : flagged.queue = tx.queue) :
    Queues g frame sub tx (Turn.ended sub flagged) := by
  have hqueue : flagged.queue = tx.queue ++ ([] : List Frame).map .frame :=
    h.trans (append_nil _).symm
  exact .ended rfl rfl hqueue (nil_sublist _)

theorem queueLive_queues (howed : sub.downgradeOwed = false) :
    Queues g frame sub tx (queueLive frame sub tx) := by
  have hnot : notice g sub = [] := by simp [notice, howed]
  have hextend : ∀ fs : List Frame, tx.extend (notice g sub ++ fs) = tx.extend fs := by
    simp [hnot]
  have hnone : tx.extend (notice g sub) = tx := by
    simp [hnot, OutboundSender.extend]
  have hpaid : { sub with downgradeOwed := false } = sub := by
    cases sub
    exact congrArg (Subscriber.mk _ _ · _) howed.symm
  simp only [queueLive]
  split
  next left h =>
    have hsent := @Queues.sent g frame sub tx
    rw [hextend, hpaid] at hsent
    rwa [OutboundSender.queue_of_tryQueue_sent h]
  next left h =>
    obtain rfl := OutboundSender.eq_of_tryQueue_ne h (by simp)
    split_ifs with hshed hframe
    · have hturn := @Queues.shed g frame sub left hshed
      rwa [hnone, hpaid] at hturn
    · exact .of_same_queue rfl
    · have hturn := @Queues.downgraded g frame sub left (by simpa using hshed)
        (by simpa using hframe)
      rwa [hnone] at hturn
  next left h =>
    obtain rfl := OutboundSender.eq_of_tryQueue_ne h (by simp)
    exact .of_same_queue rfl

/-- Once the notice is queued the turn is one that owes nothing. -/
theorem Queues.of_paid (howed : sub.downgradeOwed = true) {turn}
    (h : Queues g frame { sub with downgradeOwed := false }
      (tx.extend [downgradeFrame g]) turn) : Queues g frame sub tx turn := by
  have hpaid : notice g { sub with downgradeOwed := false } = [] := by simp [notice]
  have hnot : notice g sub = [downgradeFrame g] := by simp [notice, howed]
  have hextend : ∀ fs : List Frame, (tx.extend [downgradeFrame g]).extend fs =
      tx.extend (notice g sub ++ fs) := by
    simp [hnot, OutboundSender.extend]
  cases h with
  | sent =>
    rw [hextend, hpaid]
    exact .sent
  | shed hshed =>
    rw [hextend, hpaid, append_nil]
    exact .shed hshed
  | downgraded hkeep hframe =>
    rw [hextend, hpaid, append_nil]
    exact .downgraded hkeep hframe
  | owing hfalse => cases hfalse
  | @ended _ fs hgone hn hqueue hframes =>
    obtain rfl := sublist_nil.mp (hpaid ▸ hframes)
    have hqueue : turn.sender.queue = tx.queue ++ [downgradeFrame g].map .frame := by
      simpa [OutboundSender.extend] using hqueue
    exact .ended hgone hn hqueue (hnot ▸ .refl _)

theorem queueOwing_queues (g : Bytes) (frame : Frame) (sub : Subscriber) (tx : OutboundSender) :
    Queues g frame sub tx (queueOwing g frame sub tx) := by
  by_cases howed : sub.downgradeOwed = true
  · simp only [queueOwing, if_pos howed]
    split
    next left h =>
      obtain rfl := OutboundSender.queue_of_tryQueue_sent h
      exact .of_paid howed (queueLive_queues rfl)
    next left h =>
      obtain rfl := OutboundSender.eq_of_tryQueue_ne h (by simp)
      split_ifs with hframe
      · exact .of_same_queue rfl
      · exact .owing howed (by simpa using hframe)
    next left h =>
      obtain rfl := OutboundSender.eq_of_tryQueue_ne h (by simp)
      exact .of_same_queue rfl
  · simp only [queueOwing, if_neg howed]
    exact queueLive_queues (by simpa using howed)

theorem deliver_delivers (g : Bytes) (frame : Frame) (w : ConnectionId)
    (low : Nat) (sub : Subscriber) (tx : OutboundSender) :
    Delivers g frame w low sub tx (deliver g frame w low sub tx) := by
  simp only [deliver]
  split_ifs with hwriter hver
  · exact .skipped (.inl hwriter)
  · exact .skipped (.inr hver)
  split
  next held hframe hheld =>
    split_ifs
    · exact .held hframe hheld
    · exact .overflow hframe hheld
  next hnot =>
    refine .queues ⟨hwriter, not_lt.mp hver⟩ (fun hframe => ?_) (queueOwing_queues g frame sub tx)
    cases hheld : sub.heldHandshakes with
    | none => rfl
    | some held => exact absurd hheld (hnot held hframe)

end Turns

/-! ### A fanout -/

section Fanouts

variable {hub : Registry} {g : Bytes} {frame : Frame} {w : ConnectionId}
  {low : Nat} {id : ConnectionId} {sub : Subscriber}

/-- With each connection subscribed once, the entry the loop leaves is the one its own turn
leaves. -/
theorem find_fanoutLoop_kept {subs acc} (hnd : (subs.map Subscriber.id).Nodup)
    (hfind : subs.find? (·.id == id) = some sub) (hacc : id ∉ acc.kept.map Subscriber.id) :
    (fanoutLoop g frame w low subs acc).kept.find? (·.id == id) = some (deliver g frame w low sub
        (acc.senders sub.id)).subscriber := by
  have hk : ∀ (rest : List Subscriber) (start : Fanout), id ∉ rest.map Subscriber.id →
      (fanoutLoop g frame w low rest start).kept.find? (·.id == id) =
        start.kept.find? (·.id == id) := by
    intro rest
    induction rest with
    | nil => exact fun start _ => rfl
    | cons first rest ih =>
      intro start hid
      simp only [map_cons, mem_cons, not_or] at hid
      rw [fanoutLoop, ih _ hid.2]
      simp [find?_append, (deliver_sound).id, Ne.symm hid.1]
  induction subs generalizing acc with
  | nil => cases hfind
  | cons first rest ih =>
    simp only [map_cons, nodup_cons] at hnd
    rw [fanoutLoop]
    by_cases hfirst : first.id = id
    · rw [find?_cons_of_pos (by simpa using hfirst)] at hfind
      cases hfind
      have hnone : acc.kept.find? (·.id == id) = none := by
        refine find?_eq_none.mpr fun x hmem hid => hacc ?_
        exact mem_map.mpr ⟨x, hmem, by simpa using hid⟩
      rw [hk rest _ (hfirst ▸ hnd.1)]
      simp [find?_append, hnone, (deliver_sound).id, hfirst]
    · rw [find?_cons_of_neg (by simpa using hfirst)] at hfind
      have hid : sub.id = id := by simpa using find?_some hfind
      rw [ih hnd.2 hfind]
      · have ho : sub.id ≠ first.id := fun h => hfirst (h.symm.trans hid)
        simp [update_of_ne ho]
      · simpa [(deliver_sound).id, Ne.symm hfirst] using hacc

namespace Registry

/-- A fanout treats an entry of its group by one turn, and takes a connection it finds gone
out of every group. -/
theorem fanoutFrame_of_entry (hnd : (hub.subscriberIds g).Nodup)
    (he : hub.entry g id = some sub) {turn}
    (hturn : deliver g frame w low sub (hub.senders id) = turn) :
    (hub.fanoutFrame g frame w low).senders id = turn.sender ∧
      ∀ x, (hub.fanoutFrame g frame w low).entry x id = if turn.gone then none
        else if x = g then some turn.subscriber
        else hub.entry x id := by
  obtain ⟨hmem, rfl⟩ := mem_of_entry he
  refine ⟨?_, ?_⟩
  · rw [senders_fanoutFrame, fanoutTurns, fanoutLoop_senders hnd hmem]
    exact congrArg Turn.sender hturn
  intro x
  have hgone : sub.id ∈ (hub.fanoutTurns g frame w low).gone ↔ turn.gone = true := by
    rw [fanoutTurns, mem_fanoutLoop_gone hnd]
    constructor
    · rintro (hnone | ⟨found, hf, hid, hend⟩)
      · cases hnone
      · have heq := inj_on_of_nodup_map hnd hf hmem hid
        subst heq
        exact hturn ▸ hend
    · intro hend
      exact .inr ⟨sub, hmem, rfl, by rw [← hturn] at hend; exact hend⟩
  rw [fanoutFrame, entry_foldl_disconnect, entry_update]
  simp only [hgone]
  congr 1
  split_ifs
  · rw [fanoutTurns, find_fanoutLoop_kept hnd he (by simp [fanoutStart])]
    exact congrArg (some ·.subscriber) hturn
  · rfl

/-- A fanout does not touch a connection that is not in its group. -/
theorem fanoutFrame_of_not_entry (frame : Frame) (w : ConnectionId) (low : Nat)
    (hnd : (hub.subscriberIds g).Nodup) (he : hub.entry g id = none) :
    (hub.fanoutFrame g frame w low).senders id = hub.senders id ∧
      ∀ x, (hub.fanoutFrame g frame w low).entry x id = hub.entry x id := by
  have hid := entry_eq_none.mp he
  have hgone : id ∉ (hub.fanoutTurns g frame w low).gone := by
    rw [fanoutTurns, mem_fanoutLoop_gone hnd]
    rintro (hnone | ⟨found, hf, rfl, -⟩)
    · cases hnone
    · exact hid (mem_map_of_mem hf)
  refine ⟨?_, ?_⟩
  · rw [senders_fanoutFrame, fanoutTurns, fanoutLoop_senders_of_notMem hid]
    rfl
  intro x
  rw [fanoutFrame, entry_foldl_disconnect, if_neg hgone, entry_update]
  split_ifs with ho
  · subst ho
    have hids : (hub.fanoutTurns x frame w low).kept.map Subscriber.id = hub.subscriberIds x := by
      rw [fanoutTurns, fanoutLoop_ids]
      rfl
    rw [he, find?_eq_none]
    intro found hf heq
    refine hid ?_
    rw [← hids]
    exact mem_map.mpr ⟨found, hf, by simpa using heq⟩
  · rfl

end Registry

end Fanouts

/-! ### A release -/

/-- The held frames a release queues when there is room for all of them. -/
@[simp]
def releases : List Frame → Nat → List Frame
  | [], _ => []
  | .handshake group seq message :: rest, next =>
    if seq < next then releases rest next
    else .handshake group seq message :: releases rest (nextSeq seq)
  | _ :: rest, next => releases rest next

/-- A release queues the frames `releases` names, in order, until one finds no room. -/
theorem releaseLoop_queue (held : List Frame) (next : Nat) (tx : OutboundSender) :
    ∃ fs, fs <+: releases held next ∧
      (releaseLoop held next tx).1.queue = tx.queue ++ fs.map .frame ∧
        ((releaseLoop held next tx).2 = false → fs = releases held next) := by
  induction held, next, tx using releaseLoop.induct with
  | case1 next tx => exact ⟨[], prefix_rfl, by simp, fun _ => rfl⟩
  | case2 g seq msg rest next tx hlt ih => simpa [hlt] using ih
  | case3 g seq msg rest next tx hlt left h ih =>
    obtain ⟨fs, hframes, hqueue, hall⟩ := ih
    obtain rfl := OutboundSender.queue_of_tryQueue_sent h
    refine ⟨.handshake g seq msg :: fs, ?_, ?_, ?_⟩
    · simpa [hlt] using hframes
    · simp [hlt, h, hqueue]
    · simpa [hlt, h] using hall
  | case4 g seq msg rest next tx hlt ans left hans h =>
    obtain rfl := OutboundSender.eq_of_tryQueue_ne h hans
    exact ⟨[], nil_prefix, by simp [hlt, h, OutboundSender.evict], by simp [hlt, h]⟩
  | case5 first rest next tx hfirst ih =>
    cases first with
    | handshake g seq msg => exact absurd rfl (hfirst g seq msg)
    | push | live | call | subAck | other => simpa using ih

section Releases

variable {hub : Registry} {g : Bytes} {id : ConnectionId} {replayedTo : Nat}
  {sub : Subscriber}

theorem find_map_of_ids {f : Subscriber → Subscriber} (hf : ∀ sub, (f sub).id =
    sub.id) (subs : List Subscriber) (id : ConnectionId) :
    (subs.map f).find? (·.id == id) = (subs.find? (·.id == id)).map f := by
  rw [find?_map]
  congr 2
  exact funext fun sub => by simp [hf]

theorem unhold_id (id : ConnectionId) (sub : Subscriber) : (unhold id sub).id = sub.id := by
  simp only [unhold]
  split_ifs <;> rfl

namespace Registry

/-- A release ends the hold of the entry it names, and ends the connection when a held frame
finds no room. -/
theorem releaseHandshakes_of_held (he : hub.entry g id = some sub)
    {held} (hheld : sub.heldHandshakes = some held) {left ended}
    (hloop : releaseLoop held replayedTo (hub.senders id) = (left, ended)) :
    (hub.releaseHandshakes g id replayedTo).senders id = left ∧
      ∀ x, (hub.releaseHandshakes g id replayedTo).entry x id = if ended then none
        else if x = g then some { sub with heldHandshakes := none }
        else hub.entry x id := by
  have hid := (mem_of_entry he).2
  have hunhold : ((hub.groups g).map (unhold id)).find? (·.id == id) =
      some { sub with heldHandshakes := none } := by
    rw [find_map_of_ids (unhold_id id), show find? _ (hub.groups g) = some sub
      from he, Option.map_some, unhold, if_pos hid]
  simp only [releaseHandshakes, show find? _ (hub.groups g) = some sub from he, hheld, hloop]
  cases ended with
  | true => exact ⟨by simp [disconnect], fun x => by simp [entry_disconnect]⟩
  | false =>
    refine ⟨by simp, fun x => ?_⟩
    simp only [Bool.false_eq_true, if_false]
    rw [← hunhold]
    exact entry_update _ _ _ _

theorem releaseHandshakes_of_not_held
    (h : ∀ sub, hub.entry g id = some sub → sub.heldHandshakes = none) :
    hub.releaseHandshakes g id replayedTo = hub := by
  simp only [releaseHandshakes]
  split
  next => rfl
  next sub he => rw [h sub he]

theorem releaseHandshakes_of_ne (hub : Registry) (g : Bytes) (replayedTo : Nat)
    {conn} (hne : conn ≠ id) :
    (hub.releaseHandshakes g id replayedTo).senders conn = hub.senders conn ∧
      ∀ x, (hub.releaseHandshakes g id replayedTo).entry x conn = hub.entry x conn := by
  simp only [releaseHandshakes]
  split
  next => exact ⟨rfl, fun _ => rfl⟩
  next sub he =>
    split
    next => exact ⟨rfl, fun _ => rfl⟩
    next held hheld =>
      have hrel : ∀ (senders : ConnectionId → OutboundSender) (x : Bytes), ({ hub with
              groups := update hub.groups g ((hub.groups g).map (unhold id))
              senders := senders } : Registry).entry x conn =
            hub.entry x conn := by
        intro senders x
        refine (entry_update _ _ _ _).trans ?_
        split_ifs with ho
        · subst ho
          rw [find_map_of_ids (unhold_id id), ← entry]
          cases hsome : hub.entry x conn with
          | none => rfl
          | some found =>
            have hf : found.id ≠ id := (mem_of_entry hsome).2 ▸ hne
            simp [unhold, hf]
        · rfl
      split_ifs
      · refine ⟨by simp [disconnect, hne], fun x => ?_⟩
        rw [entry_disconnect, if_neg hne, hrel]
      · exact ⟨by simp [hne], hrel _⟩

end Registry

end Releases

/-! ### Paying owed notices, and evictions -/

/-- What paying does to one entry. -/
def settled (group : Bytes) (subscriber : Subscriber) (sender : OutboundSender) :
    Subscriber × OutboundSender :=
  if subscriber.downgradeOwed then
    match sender.tryQueue (downgradeFrame group) with
    | (.sent, sender) => ({ subscriber with downgradeOwed := false }, sender)
    | _ => (subscriber, sender)
  else (subscriber, sender)

section Settles

variable {hub : Registry} {g : Bytes} {id : ConnectionId} {sub : Subscriber}
  {senders : ConnectionId → OutboundSender}

theorem settled_cases (g : Bytes) (sub : Subscriber) (tx : OutboundSender) :
    settled g sub tx = (sub, tx) ∨ sub.downgradeOwed = true ∧ settled g sub tx =
        ({ sub with downgradeOwed := false }, tx.extend [downgradeFrame g]) := by
  simp only [settled]
  split_ifs with howed
  · split
    next left h =>
      obtain rfl := OutboundSender.queue_of_tryQueue_sent h
      exact .inr ⟨howed, rfl⟩
    next => exact .inl rfl
  · exact .inl rfl

theorem settleLoop_cons (first : Subscriber) (rest : List Subscriber) :
    (settleLoop g (first :: rest) senders).1 = (settled g first (senders first.id)).1 ::
          (settleLoop g rest (update senders first.id (settled g first (senders first.id)).2)).1 ∧
      (settleLoop g (first :: rest) senders).2.1 = (settleLoop g rest
          (update senders first.id (settled g first (senders first.id)).2)).2.1 := by
  by_cases howed : first.downgradeOwed = true
  · rcases (senders first.id).tryQueue_cases (downgradeFrame g) with h | h | ⟨h, -⟩ <;>
      simp [settleLoop, settled, howed, h]
  · simp [settleLoop, settled, howed]

variable {subs : List Subscriber}

theorem settleLoop_senders_of_notMem (hid : id ∉ subs.map Subscriber.id) :
    (settleLoop g subs senders).2.1 id = senders id := by
  induction subs generalizing senders with
  | nil => rfl
  | cons first rest ih =>
    simp only [map_cons, mem_cons, not_or] at hid
    rw [(settleLoop_cons first rest).2, ih hid.2, update_of_ne hid.1]

/-- With each connection subscribed once, every entry is settled alone. -/
theorem settleLoop_of_find (g : Bytes) (senders : ConnectionId → OutboundSender)
    (hnd : (subs.map Subscriber.id).Nodup) (hfind : subs.find? (·.id == id) = some sub) :
    (settleLoop g subs senders).1.find? (·.id == id) = some (settled g sub (senders id)).1 ∧
      (settleLoop g subs senders).2.1 id = (settled g sub (senders id)).2 := by
  have hset : ∀ (sub : Subscriber) (tx : OutboundSender), (settled g sub tx).1.id = sub.id := by
    intro sub tx
    rcases settled_cases g sub tx with h | ⟨-, h⟩ <;> rw [h]
  induction subs generalizing senders with
  | nil => cases hfind
  | cons first rest ih =>
    simp only [map_cons, nodup_cons] at hnd
    rw [(settleLoop_cons first rest).1, (settleLoop_cons first rest).2]
    by_cases hfirst : first.id = id
    · rw [find?_cons_of_pos (by simpa using hfirst)] at hfind
      cases hfind
      subst hfirst
      rw [find?_cons_of_pos (by simp [hset]), settleLoop_senders_of_notMem hnd.1, update_self]
      exact ⟨rfl, rfl⟩
    · rw [find?_cons_of_neg (by simpa using hfirst)] at hfind
      rw [find?_cons_of_neg (by simpa [hset] using hfirst)]
      have hr := ih (update senders first.id (settled g first (senders first.id)).2) hnd.2 hfind
      rwa [update_of_ne (Ne.symm hfirst)] at hr

namespace Registry

/-- Paying a group's notices settles each entry of the group alone. -/
theorem settleGroup_of_entry (hnd : (hub.subscriberIds g).Nodup) (he : hub.entry g id = some sub) :
    (hub.settleGroup g).senders id = (settled g sub (hub.senders id)).2 ∧
      ∀ x, (hub.settleGroup g).entry x id = if x = g then some (settled g sub (hub.senders id)).1
        else hub.entry x id := by
  obtain ⟨hfind, hsender⟩ := settleLoop_of_find g hub.senders hnd he
  refine ⟨hsender, fun x => ?_⟩
  rw [← hfind]
  exact entry_update _ _ _ _

theorem settleGroup_of_not_entry (he : hub.entry g id = none) :
    (hub.settleGroup g).senders id = hub.senders id ∧
      ∀ x, (hub.settleGroup g).entry x id = hub.entry x id := by
  have hid := entry_eq_none.mp he
  refine ⟨settleLoop_senders_of_notMem hid, fun x => ?_⟩
  refine (entry_update _ _ _ _).trans ?_
  split_ifs with ho
  · subst ho
    rw [he, find?_eq_none]
    intro found hf heq
    refine hid ?_
    rw [subscriberIds, ← settleLoop_ids (hub.groups x) hub.senders]
    exact mem_map.mpr ⟨found, hf, by simpa using heq⟩
  · rfl

/-- An eviction closes the channel and ends every entry of its connection. -/
theorem evictOne_view (hub : Registry) (gone : ConnectionId) (id : ConnectionId) :
    (∃ items, ((hub.evictOne gone).senders id).queue = (hub.senders id).queue ++ items ∧
        framesOf items = []) ∧
      ∀ g, (hub.evictOne gone).entry g id = if id = gone then none else hub.entry g id := by
  refine ⟨?_, fun g => entry_disconnect _ gone g id⟩
  by_cases hid : id = gone
  · subst hid
    have hsender : (hub.evictOne id).senders id = (hub.senders id).evict.close := by
      simp [evictOne, disconnect, onSender]
    rw [hsender]
    exact OutboundSender.close_queue (hub.senders id).evict
  · exact ⟨[], by simp [evictOne, disconnect, onSender, hid], rfl⟩

/-- An eviction puts no frame into any queue, and keeps an entry or ends it. -/
theorem evict_view (hub : Registry) (entry : Bytes) (id : ConnectionId) :
    (∃ items, ((hub.evict entry).senders id).queue = (hub.senders id).queue ++ items ∧
        framesOf items = []) ∧
      ∀ g, (hub.evict entry).entry g id = none ∨ (hub.evict entry).entry g id = hub.entry g id := by
  have hall : ∀ (ids : List ConnectionId) (start : Registry),
      (∃ items, ((ids.foldl evictOne start).senders id).queue = (start.senders id).queue ++ items ∧
          framesOf items = []) ∧
        ∀ g, (ids.foldl evictOne start).entry g id = none ∨
          (ids.foldl evictOne start).entry g id = start.entry g id := by
    intro ids
    induction ids with
    | nil => exact fun start => ⟨⟨[], (append_nil _).symm, rfl⟩, fun _ => .inr rfl⟩
    | cons first rest ih =>
      intro start
      obtain ⟨⟨items, hqueue, hitems⟩, he⟩ := evictOne_view start first id
      obtain ⟨⟨more, hmore, hframes⟩, hr⟩ := ih (start.evictOne first)
      refine ⟨⟨items ++ more, ?_, ?_⟩, fun g => ?_⟩
      · rw [foldl_cons, hmore, hqueue, append_assoc]
      · rw [framesOf_append, hitems, hframes]
        rfl
      · rcases hr g with hnone | heq
        · exact .inl hnone
        · rw [he] at heq
          split_ifs at heq
          · exact .inl heq
          · exact .inr heq
  exact hall (hub.principals entry)
    { hub with principals := update hub.principals entry [] }

end Registry

end Settles

end WealdRelay.Hub
