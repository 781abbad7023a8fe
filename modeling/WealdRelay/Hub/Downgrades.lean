import Mathlib.Algebra.BigOperators.Finprod
import WealdRelay.Hub.Changes

/-!
# Dropped pushes are declared

A `PUSH` that finds a subscriber's queue full is dropped, and the subscriber is owed a downgrade
frame that tells it to reconcile (`hub.rs`, `fanout_frame` and `settle_downgrades`). That frame
may not fit either: it stays owed, and goes out ahead of the next frame of any kind.

For every group and connection a list of `Sign`s records, oldest first, what the subscription saw
of this: a push queued or dropped, a downgrade frame queued, the end of the subscription. They
are read off the hub before and after each operation.

* `Tells`: what one operation can add for one entry, and how far the hub's counter moves on its
  account; `Change.tells` says that every operation does one of these;
* `Agrees`: the signs so far against the entry, kept by `Tells`;
* `Ledger`: the hub and the signs of a run.
-/

namespace WealdRelay.Hub

open List Function Registry Change

/-- What a subscription sees of the pushes of its group. -/
inductive Sign
  | pushed
  | dropped
  | notice
  | ended
  deriving DecidableEq

/-! ### Signs -/

/-- The maximal runs of dropped pushes with no other sign between them. `inside` says that a
run was going on before. -/
def runsFrom : Bool → List Sign → Nat
  | _, [] => 0
  | true, .dropped :: rest => runsFrom true rest
  | false, .dropped :: rest => runsFrom true rest + 1
  | _, _ :: rest => runsFrom false rest

/-- A run is going on after the signs. -/
def endsInside : Bool → List Sign → Bool
  | inside, [] => inside
  | _, .dropped :: rest => endsInside true rest
  | _, _ :: rest => endsInside false rest

def runs (signs : List Sign) : Nat := runsFrom false signs

/-- Every dropped push has a notice or the end of the subscription behind it. -/
def Answered (signs : List Sign) : Prop :=
  ∀ a b, signs = a ++ .dropped :: b → .notice ∈ b ∨ .ended ∈ b

/-- Between a dropped push and a later push stands a notice or the end of the subscription. -/
def Declared (signs : List Sign) : Prop :=
  ∀ a b c, signs = a ++ .dropped :: b ++ .pushed :: c → .notice ∈ b ∨ .ended ∈ b

section Signs

variable {signs : List Sign} {sign : Sign} (w : Bool)

theorem runsFrom_append (signs more : List Sign) : runsFrom w (signs ++ more) =
      runsFrom w signs + runsFrom (endsInside w signs) more := by
  induction signs generalizing w with
  | nil => simp [runsFrom, endsInside]
  | cons first rest ih =>
    cases first <;> cases w <;> simp [runsFrom, endsInside, ih, Nat.add_right_comm]

theorem endsInside_append (signs more : List Sign) :
    endsInside w (signs ++ more) = endsInside (endsInside w signs) more := by
  induction signs generalizing w with
  | nil => rfl
  | cons first rest ih => cases first <;> exact ih _

theorem endsInside_concat (signs : List Sign) (sign : Sign) :
    endsInside w (signs ++ [sign]) = (sign == .dropped) := by
  rw [endsInside_append]
  cases sign <;> rfl

theorem runs_concat (signs : List Sign) (sign : Sign) : runs (signs ++ [sign]) =
      runs signs + if sign = .dropped ∧ endsInside false signs = false then 1 else 0 := by
  rw [runs, runsFrom_append, ← runs]
  cases sign <;> cases endsInside false signs <;> rfl

/-- Only a queued push can leave an earlier drop undeclared. -/
theorem Declared.concat (h : Declared signs) (hsign : sign = .pushed → Answered signs) :
    Declared (signs ++ [sign]) := by
  intro a b c heq
  rcases Lib.snoc_split heq with ⟨rfl, hlast⟩ | ⟨rest, -, hr⟩
  · exact hsign hlast.symm a b rfl
  · exact h a b rest hr

theorem Answered.concat (h : sign = .notice ∨ sign = .ended ∨ sign = .pushed ∧ Answered signs) :
    Answered (signs ++ [sign]) := by
  intro a b heq
  rcases Lib.snoc_split heq with ⟨-, rfl⟩ | ⟨rest, rfl, hr⟩
  · rcases h with h | h | ⟨h, -⟩ <;> cases h
  · rcases h with rfl | rfl | ⟨rfl, hall⟩
    · exact .inl (by simp)
    · exact .inr (by simp)
    · exact (hall a rest hr).imp (mem_append_left _) (mem_append_left _)

end Signs

/-! ### What one operation tells one entry -/

/-- An entry that owes a notice or not, or no entry, before and after an operation; the signs it
adds; how far the counter moves on its account. -/
inductive Tells : Option Bool → List Sign → Nat → Option Bool → Prop
  | nothing (owed : Option Bool) : Tells owed [] 0 owed
  | subscribed : Tells none [] 0 (some false)
  | paid {signs count after}
      (hrest : Tells (some false) signs count after) :
      Tells (some true) (.notice :: signs) count after
  | pushed : Tells (some false) [.pushed] 0 (some false)
  | dropped : Tells (some false) [.dropped] 1 (some true)
  | droppedAgain : Tells (some true) [.dropped] 0 (some true)
  | ended (owed : Bool) : Tells (some owed) [.ended] 0 none

/-- The signs of a run against the entry as it is now: what is owed is the run that goes on. -/
structure Agrees (owed : Option Bool) (signs : List Sign) : Prop where
  declared : Declared signs
  answered : owed ≠ some true → Answered signs
  inside : endsInside false signs = (owed == some true)

theorem Agrees.tells {owed t signs more n} (h : Agrees owed signs) (htells : Tells owed more n t) :
    Agrees t (signs ++ more) ∧ runs (signs ++ more) = runs signs + n := by
  induction htells generalizing signs with
  | nothing owed => exact ⟨by simpa using h, by simp⟩
  | subscribed =>
    rw [append_nil]
    exact ⟨⟨h.declared, fun _ => h.answered nofun, h.inside⟩, rfl⟩
  | paid _ ih =>
    have hpaid : Agrees (some false) (signs ++ [.notice]) :=
      ⟨h.declared.concat nofun, fun _ => .concat (.inl rfl), endsInside_concat _ _ _⟩
    obtain ⟨hagrees, hruns⟩ := ih hpaid
    rw [runs_concat, append_assoc] at hruns
    rw [append_assoc] at hagrees
    exact ⟨hagrees, hruns⟩
  | pushed =>
    have hall : Answered signs := h.answered nofun
    exact ⟨⟨h.declared.concat fun _ => hall, fun _ => .concat (.inr (.inr ⟨rfl, hall⟩)),
      endsInside_concat _ _ _⟩, runs_concat _ _⟩
  | dropped =>
    refine ⟨⟨h.declared.concat nofun, fun hne => absurd rfl hne, endsInside_concat _ _ _⟩, ?_⟩
    rw [runs_concat, if_pos ⟨rfl, h.inside⟩]
  | droppedAgain =>
    refine ⟨⟨h.declared.concat nofun, fun hne => absurd rfl hne, endsInside_concat _ _ _⟩, ?_⟩
    rw [runs_concat, if_neg (by simp [h.inside])]
  | ended owed =>
    exact ⟨⟨h.declared.concat nofun, fun _ => .concat (.inr (.inl rfl)),
      endsInside_concat _ _ _⟩, runs_concat _ _⟩

/-! ### The signs of an operation -/

/-- An entry's debt. -/
def Registry.owes (hub : Registry) (group : Bytes) (id : ConnectionId) : Option Bool :=
  (hub.entry group id).map Subscriber.downgradeOwed

/-- The frames the source fans out to a group. -/
def Frame.fannedOut : Frame → Bool
  | push _ => true
  | handshake _ _ _ => true
  | live _ _ _ => true
  | call _ _ _ => true
  | subAck _ _ => false
  | other _ => false

def Frame.isPush : Frame → Bool
  | push _ => true
  | _ => false

theorem Frame.isPush_of_downgradable (frame : Frame) (hframe : frame.fannedOut = true)
    (hkeep : frame.ephemeral = false) (hdown : frame.undowngradable = false) :
    frame.isPush = true := by
  cases frame with
  | push _ => rfl
  | handshake _ _ _ => cases hdown
  | live _ _ _ => cases hkeep
  | call _ _ _ => cases hkeep
  | subAck | other => cases hframe

/-- What an entry sees of the frames its channel was given, in their order. -/
def seen (group : Bytes) (push : Option Frame) (queued : List Frame) : List Sign :=
  queued.filterMap fun frame =>
    if frame = downgradeFrame group then some .notice
    else if push = some frame then some .pushed
    else none

/-- What becomes of an entry, and of a push that was not queued. -/
def fate (queued : List Frame) (push : Option Frame) : Option Subscriber → List Sign
  | none => [.ended]
  | some _ =>
    match push with
    | none => []
    | some frame => if frame ∈ queued then [] else [.dropped]

/-- What an entry saw of an operation that gave its channel the frames `queued`. -/
def signsOf (group : Bytes) (queued : List Frame) (push : Option Frame)
    (before after : Option Subscriber) : List Sign :=
  match before with
  | none => []
  | some _ => seen group push queued ++ fate queued push after

/-- The push a fanout has for a subscriber. -/
def pushFor (frame : Frame) (writer : ConnectionId) (minimumVersion : Nat)
    (subscriber : Subscriber) : Option Frame :=
  if frame.isPush = true ∧ subscriber.id ≠ writer ∧ minimumVersion ≤ subscriber.protocolVersion then
    some frame
  else none

namespace Change

/-- The fanouts are the source's, and a connection's own task queues neither a push nor a
downgrade frame: the pushes here are those of the live feed. -/
def Live : Change → Prop
  | fanout _ frame _ _ => frame.fannedOut = true
  | answer _ frame => frame.isPush = false ∧ ∀ group, frame ≠ downgradeFrame group
  | _ => True

/-- The push an operation has for this entry. -/
def addressed (hub : Registry) (group : Bytes) (id : ConnectionId) : Change → Option Frame
  | fanout other frame writer minimumVersion =>
    if other = group then (hub.entry group id).bind (pushFor frame writer minimumVersion)
    else none
  | _ => none

/-- What an operation shows the subscription. -/
def signs (hub : Registry) (group : Bytes) (id : ConnectionId) (change : Change) : List Sign :=
  signsOf group (added (hub.senders id) ((change.apply hub).senders id))
    (change.addressed hub group id) (hub.entry group id) ((change.apply hub).entry group id)

/-- How far the operation moves the counter on account of this entry. -/
def counted (hub : Registry) (group : Bytes) (id : ConnectionId) : Change → Nat
  | fanout other frame writer minimumVersion =>
    if other = group then
      ((hub.entry group id).map fun subscriber =>
        (deliver group frame writer minimumVersion subscriber (hub.senders id)).downgrades).getD 0
    else 0
  | _ => 0

end Change

section Operations

variable {g : Bytes} {id : ConnectionId} {hub t : Registry} {frame : Frame}
  {sub : Subscriber} {queued : List Frame} {push : Option Frame}

theorem seen_append (g : Bytes) (push : Option Frame) (queued more : List Frame) :
    seen g push (queued ++ more) = seen g push queued ++ seen g push more :=
  filterMap_append

theorem seen_eq_nil (hno : downgradeFrame g ∉ queued) : seen g none queued = [] := by
  refine filterMap_eq_nil_iff.mpr fun frame hmem => ?_
  have hne : frame ≠ downgradeFrame g := fun h => hno (h ▸ hmem)
  simp [hne]

theorem seen_notice (g : Bytes) (push : Option Frame) (sub : Subscriber) :
    seen g push (notice g sub) = if sub.downgradeOwed then [.notice] else [] := by
  simp only [notice]
  split_ifs
  · simp [seen]
  · rfl

/-- An entry that is ended or owes what it owed, with no push for it and no notice queued. -/
theorem tells_of_untouched (b t : Option Subscriber) (hnone : seen g none queued = [])
    (howes : t = none ∨ t.map Subscriber.downgradeOwed = b.map Subscriber.downgradeOwed) :
    Tells (b.map Subscriber.downgradeOwed) (signsOf g queued none b t) 0
      (t.map Subscriber.downgradeOwed) := by
  cases b with
  | none =>
    have hgone : t = none := howes.elim id fun h => by simpa using h
    subst hgone
    exact .nothing none
  | some sub =>
    simp only [signsOf, hnone]
    cases t with
    | none => exact .ended _
    | some left =>
      rw [howes.resolve_left nofun]
      exact .nothing _

/-- A notice is queued first, to an entry that owes it, and the rest goes on as if it had owed
nothing. -/
theorem tells_of_notice {n t more}
    (hseen : seen g push queued = (if sub.downgradeOwed then [.notice] else []) ++ more)
    (hr : Tells (some false) (more ++ fate queued push t) n (t.map Subscriber.downgradeOwed)) :
    Tells (some sub.downgradeOwed) (signsOf g queued push (some sub) t) n
      (t.map Subscriber.downgradeOwed) := by
  simp only [signsOf, hseen]
  cases howed : sub.downgradeOwed with
  | true => exact .paid hr
  | false => exact hr

theorem tells_of_ended (hqueued : queued.Sublist (notice g sub)) (push : Option Frame) :
    Tells (some sub.downgradeOwed) (signsOf g queued push (some sub) none) 0 none := by
  cases queued with
  | nil => exact .ended _
  | cons first rest =>
    -- the notice is the only frame there can be
    have hall : first :: rest = notice g sub := by
      refine hqueued.eq_of_length_le ?_
      simp only [notice]
      split_ifs <;> simp
    have hseen : seen g push (first :: rest) =
        (if sub.downgradeOwed then [.notice] else []) ++ [] := by
      rw [hall, seen_notice, append_nil]
    exact tells_of_notice hseen (.ended false)

theorem eq_of_mem_notice (h : frame ∈ notice g sub) : frame = downgradeFrame g := by
  simp only [notice] at h
  split_ifs at h
  · exact mem_singleton.mp h
  · cases h

theorem ne_downgradeFrame (hframe : frame.fannedOut = true) (g : Bytes) :
    downgradeFrame g ≠ frame := by
  rintro rfl
  cases hframe

variable {tx : OutboundSender} {x : Bytes} {turn : Turn}

theorem Queues.tells (hframe : frame.fannedOut = true)
    (hpush : push = if frame.isPush then some frame else none)
    (hturn : Queues g frame sub tx turn) :
    Tells (some sub.downgradeOwed) (signsOf g (added tx turn.sender) push (some sub)
        (if turn.gone then none else some turn.subscriber))
      turn.downgrades
      ((if turn.gone then none else some turn.subscriber).map Subscriber.downgradeOwed) := by
  have hextend : ∀ fs, added tx (tx.extend fs) = fs := fun fs =>
    added_of_frames rfl
  have hne := ne_downgradeFrame hframe g
  cases hturn with
  | sent =>
    simp only [Turn.kept, hextend, Bool.false_eq_true, if_false]
    refine tells_of_notice (by rw [seen_append, seen_notice]) ?_
    cases hkind : frame.isPush with
    | true =>
      rw [hkind, if_pos rfl] at hpush
      subst hpush
      simp only [seen, fate, filterMap_cons, if_neg hne.symm, if_true,
        filterMap_nil, mem_append, mem_singleton, or_true, append_nil]
      exact .pushed
    | false =>
      rw [hkind, if_neg Bool.false_ne_true] at hpush
      subst hpush
      rw [seen_eq_nil (by simpa using hne)]
      exact .nothing _
  | shed hshed =>
    have hkind : frame.isPush = false := by
      cases frame with
      | push _ => cases hshed
      | _ => rfl
    rw [hkind, if_neg Bool.false_ne_true] at hpush
    subst hpush
    simp only [Turn.kept, hextend, Bool.false_eq_true, if_false]
    exact tells_of_notice (by rw [seen_notice, append_nil]) (.nothing _)
  | downgraded hkeep hdown =>
    rw [frame.isPush_of_downgradable hframe hkeep hdown, if_pos rfl] at hpush
    subst hpush
    have hno : frame ∉ notice g sub := fun h => hne (eq_of_mem_notice h).symm
    simp only [Turn.kept, hextend, Bool.false_eq_true, if_false]
    refine tells_of_notice (by rw [seen_notice, append_nil]) ?_
    simp only [fate, if_neg hno]
    exact .dropped
  | owing howed hdown =>
    have hadded : added tx tx = [] := added_of_eq rfl
    simp only [Turn.kept, hadded, Bool.false_eq_true, if_false, signsOf, seen,
      filterMap_nil, nil_append, Option.map_some, howed]
    cases hkind : frame.isPush with
    | true =>
      simp only [hpush, hkind, if_true, fate, not_mem_nil, if_false]
      exact .droppedAgain
    | false =>
      simp only [hpush, hkind, Bool.false_eq_true, if_false, fate]
      exact .nothing _
  | ended hgone hn hqueue hframes =>
    rw [if_pos hgone, hn, added_of_frames hqueue]
    exact tells_of_ended hframes push

theorem Delivers.tells {w low} (hframe : frame.fannedOut = true)
    (hturn : Delivers g frame w low sub tx turn) :
    Tells (some sub.downgradeOwed) (signsOf g (added tx turn.sender) (pushFor frame w low sub)
        (some sub) (if turn.gone then none else some turn.subscriber))
      turn.downgrades
      ((if turn.gone then none else some turn.subscriber).map Subscriber.downgradeOwed) := by
  have hadded : ∀ x : OutboundSender, x.queue = tx.queue →
      seen g none (added tx x) = [] := fun x h => by rw [added_of_eq h]; rfl
  cases hturn with
  | skipped hskip =>
    have hpush : pushFor frame w low sub = none := by
      refine if_neg fun h => ?_
      exact hskip.elim h.2.1 (not_lt.mpr h.2.2)
    rw [hpush]
    exact tells_of_untouched (some sub) (some _) (hadded _ rfl) (.inr rfl)
  | held hun hheld =>
    have hpush : pushFor frame w low sub = none := by
      refine if_neg fun h => ?_
      cases frame with
      | push _ => cases hun
      | _ => cases h.1
    rw [hpush]
    exact tells_of_untouched (some sub) (some _) (hadded _ rfl) (.inr rfl)
  | overflow hun hheld =>
    have hnone : added tx tx.evict = [] := added_of_eq rfl
    exact tells_of_ended (hnone ▸ nil_sublist _) _
  | queues hfor hheld hturn =>
    refine hturn.tells hframe ?_
    simp only [pushFor, hfor, and_true, ne_eq, not_false_eq_true]

/-- A fanout to another group may end the connection, and queues no notice of this group. -/
theorem fanoutFrame_elsewhere (id : ConnectionId) (w : ConnectionId) (low : Nat)
    (hnd : (hub.subscriberIds x).Nodup) (hframe : frame.fannedOut = true)
    (hg : x ≠ g) (ha : hub.fanoutFrame x frame w low = t) :
    downgradeFrame g ∉ added (hub.senders id) (t.senders id) ∧
      (t.entry g id = none ∨ t.entry g id = hub.entry g id) := by
  subst ha
  cases he : hub.entry x id with
  | none =>
    obtain ⟨hsender, hes⟩ :=
      fanoutFrame_of_not_entry frame w low hnd he
    rw [hsender, added_of_eq rfl]
    exact ⟨not_mem_nil, .inr (hes g)⟩
  | some sub =>
    obtain ⟨hsender, hes⟩ := fanoutFrame_of_entry hnd he
      (.refl (deliver x frame w low sub (hub.senders id)))
    obtain ⟨fs, hframes, hqueue, -⟩ :=
      (deliver_delivers x frame w low sub (hub.senders id)).queued
    rw [hsender, added_of_frames hqueue, hes, if_neg (Ne.symm hg)]
    refine ⟨fun hmem => ?_, ?_⟩
    · rcases hframes _ hmem with ho | heq
      · exact hg (Frame.subAck.inj ho).1.symm
      · exact ne_downgradeFrame hframe g heq
    · split_ifs
      · exact .inl rfl
      · exact .inr rfl

theorem tells_fanout (g : Bytes) (id : ConnectionId) (w : ConnectionId)
    (low : Nat) (hnd : (hub.subscriberIds x).Nodup) (hframe : frame.fannedOut = true) :
    Tells (hub.owes g id) ((Change.fanout x frame w low).signs hub g id)
      ((Change.fanout x frame w low).counted hub g id)
      ((hub.fanoutFrame x frame w low).owes g id) := by
  simp only [Change.signs, Change.addressed, Change.counted, apply, owes]
  by_cases hg : x = g
  · subst hg
    simp only [if_true]
    cases he : hub.entry x id with
    | none =>
      obtain ⟨-, hes⟩ :=
        fanoutFrame_of_not_entry frame w low hnd he
      rw [hes, he]
      exact .nothing none
    | some sub =>
      obtain ⟨hsender, hes⟩ := fanoutFrame_of_entry hnd he
        (.refl (deliver x frame w low sub (hub.senders id)))
      rw [hsender, hes, if_pos rfl]
      exact (deliver_delivers x frame w low sub (hub.senders id)).tells hframe
  · obtain ⟨hno, hes⟩ :=
      fanoutFrame_elsewhere id w low hnd hframe hg rfl
    simp only [if_neg hg]
    exact tells_of_untouched _ _ (seen_eq_nil hno) (hes.imp_right (congrArg _))

/-! ### The other operations -/

/-- Paying notices: this entry's is queued, or nothing is done about it. -/
structure Pays (group : Bytes) (id : ConnectionId) (items : List Outbound)
    (hub after : Registry) : Prop where
  queue : (after.senders id).queue = (hub.senders id).queue ++ items
  entry : after.entry group id = hub.entry group id ∧ seen group none (framesOf items) = [] ∨
      ∃ subscriber, hub.entry group id = some subscriber ∧ subscriber.downgradeOwed = true ∧
        after.entry group id = some { subscriber with downgradeOwed := false } ∧
          seen group none (framesOf items) = [.notice]

theorem Pays.trans {middle items more}
    (h₁ : Pays g id items hub middle) (h₂ : Pays g id more middle t) :
    Pays g id (items ++ more) hub t where
  queue := by rw [h₂.queue, h₁.queue, append_assoc]
  entry := by
    rw [framesOf_append, seen_append]
    rcases h₁.entry with ⟨heq, hno⟩ | ⟨sub, he, howed, hpaid, hone⟩
    · rw [hno, nil_append, ← heq]
      exact h₂.entry
    · rcases h₂.entry with ⟨heq, hno⟩ | ⟨left, hleft, howed', -⟩
      · rw [hone, hno, heq]
        exact .inr ⟨sub, he, howed, hpaid, rfl⟩
      · -- paid once, the entry owes nothing
        cases hpaid.symm.trans hleft
        cases howed'

theorem pays_settleGroup (g : Bytes) (id : ConnectionId) (x : Bytes)
    (hnd : (hub.subscriberIds x).Nodup) : ∃ items, Pays g id items hub (hub.settleGroup x) := by
  cases he : hub.entry x id with
  | none =>
    obtain ⟨hsender, hes⟩ := settleGroup_of_not_entry he
    exact ⟨[], by rw [hsender, append_nil], .inl ⟨hes g, rfl⟩⟩
  | some sub =>
    obtain ⟨hsender, hes⟩ := settleGroup_of_entry hnd he
    rcases settled_cases x sub (hub.senders id) with heq | ⟨howed, hpaid⟩
    · rw [heq] at hsender hes
      refine ⟨[], by rw [hsender, append_nil], .inl ⟨?_, rfl⟩⟩
      rw [hes]
      split_ifs with hg
      · rw [hg, he]
      · rfl
    · rw [hpaid] at hsender hes
      refine ⟨[downgradeFrame x].map .frame, by rw [hsender]; rfl, ?_⟩
      rw [framesOf_map, hes]
      by_cases hg : g = x
      · subst hg
        exact .inr ⟨sub, he, howed, if_pos rfl, by simp [seen]⟩
      · refine .inl ⟨if_neg hg, seen_eq_nil fun h => hg ?_⟩
        exact (Frame.subAck.inj (mem_singleton.mp h)).1

theorem pays_settleDowngrades (g : Bytes) (id : ConnectionId) (order : List Bytes)
    (hub : Registry) (hnd : ∀ x, (hub.subscriberIds x).Nodup) :
    ∃ items, Pays g id items hub (hub.settleDowngrades order) := by
  induction order generalizing hub with
  | nil => exact ⟨[], (append_nil _).symm, .inl ⟨rfl, rfl⟩⟩
  | cons first rest ih =>
    obtain ⟨items, hfirst⟩ := pays_settleGroup g id first (hnd first)
    obtain ⟨more, hr⟩ := ih (hub.settleGroup first) fun x =>
      (hnd x).sublist ((narrows_settleDowngrades [first] hub).ids x)
    exact ⟨items ++ more, hfirst.trans hr⟩

theorem undowngradable_of_mem_releases {held next}
    (h : frame ∈ releases held next) : frame.undowngradable = true := by
  induction held, next using releases.induct with
  | case1 next => cases h
  | case2 g seq msg rest next hlt ih =>
    rw [releases, if_pos hlt] at h
    exact ih h
  | case3 g seq msg rest next hlt ih =>
    rw [releases, if_neg hlt, mem_cons] at h
    rcases h with rfl | h
    · rfl
    · exact ih h
  | case4 first rest next hfirst ih =>
    rw [releases.eq_3 _ _ _ hfirst] at h
    exact ih h

/-- A release queues handshakes only, and may end the connection. -/
theorem releaseHandshakes_untouched (hub : Registry) (x : Bytes) (conn : ConnectionId)
    (replayedTo : Nat) (g : Bytes) (id : ConnectionId)
    (ha : hub.releaseHandshakes x conn replayedTo = t) :
    downgradeFrame g ∉ added (hub.senders id) (t.senders id) ∧
      (t.entry g id = none ∨ t.owes g id = hub.owes g id) := by
  subst ha
  by_cases hid : id = conn
  · subst hid
    by_cases hheld : ∃ sub held, hub.entry x id = some sub ∧ sub.heldHandshakes = some held
    · obtain ⟨sub, held, he, hheld⟩ := hheld
      obtain ⟨fs, hfront, hqueue, -⟩ := releaseLoop_queue held replayedTo (hub.senders id)
      obtain ⟨hsender, hes⟩ := releaseHandshakes_of_held he hheld
        (.refl (releaseLoop held replayedTo (hub.senders id)))
      rw [hsender, added_of_frames hqueue, owes, hes]
      refine ⟨fun hmem => ?_, ?_⟩
      · cases undowngradable_of_mem_releases (hfront.subset hmem)
      · split_ifs with hend hg
        · exact .inl rfl
        · refine .inr ?_
          rw [hg, owes, he]
          rfl
        · exact .inr rfl
    · rw [releaseHandshakes_of_not_held, added_of_eq rfl]
      · exact ⟨not_mem_nil, .inr rfl⟩
      · intro sub he
        cases hsome : sub.heldHandshakes with
        | none => rfl
        | some held => exact absurd ⟨sub, held, he, hsome⟩ hheld
  · obtain ⟨hsender, hes⟩ := hub.releaseHandshakes_of_ne x replayedTo hid
    rw [hsender, added_of_eq rfl, owes, hes]
    exact ⟨not_mem_nil, .inr rfl⟩

/-- Every operation tells the entry one of the things `Tells` lists. -/
theorem Change.tells (hnd : ∀ x, (hub.subscriberIds x).Nodup) {change : Change}
    (hl : change.Live) (g : Bytes) (id : ConnectionId) :
    Tells (hub.owes g id) (change.signs hub g id) (change.counted hub g id)
      ((change.apply hub).owes g id) := by
  -- a connection's own task changes no entry, and queues what `mem_added_onSender` says
  have hown : ∀ (conn : ConnectionId) (f : OutboundSender → OutboundSender),
      downgradeFrame g ∉ added (hub.senders id) (f (hub.senders id)) →
      Tells (hub.owes g id) (signsOf g (added (hub.senders id)
        ((hub.onSender conn f).senders id)) none (hub.entry g id)
          ((hub.onSender conn f).entry g id)) 0
        ((hub.onSender conn f).owes g id) := fun conn f hno =>
    tells_of_untouched _ _ (seen_eq_nil fun h => hno (mem_added_onSender h).2) (.inr rfl)
  cases change with
  | connect =>
    exact tells_of_untouched _ _ (by rw [apply, added_connect]; rfl) (.inr rfl)
  | identify entry conn =>
    have heq : ∀ t, hub.identify entry conn = t →
        t.senders = hub.senders ∧ t.groups = hub.groups := by
      rintro t rfl
      simp only [Registry.identify]
      split_ifs <;> exact ⟨rfl, rfl⟩
    obtain ⟨hsenders, hgroups⟩ := heq _ rfl
    refine tells_of_untouched _ _ ?_ (.inr (congrArg _ (entry_congr ?_)))
    · rw [apply, hsenders, added_of_eq rfl]
      rfl
    · rw [apply, hgroups]
  | subscribe held x conn ver =>
    simp only [signs, addressed, counted, apply, owes,
      entry_subscribeWith, (subscribeWith_rest held hub x conn ver).2.1]
    have hno : seen g none (added (hub.senders id) (hub.senders id)) = [] := by
      rw [added_of_eq rfl]
      rfl
    split_ifs with heq
    · obtain ⟨rfl, rfl⟩ := heq
      cases he : hub.entry g id with
      | none => exact .subscribed
      | some sub => exact tells_of_untouched (some sub) _ hno (.inr rfl)
    · exact tells_of_untouched _ _ hno (.inr rfl)
  | release x conn replayedTo =>
    obtain ⟨hno, howes⟩ :=
      releaseHandshakes_untouched hub x conn replayedTo g id rfl
    exact tells_of_untouched _ _ (seen_eq_nil hno) howes
  | fanout x frame w low =>
    exact tells_fanout g id w low (hnd x) hl
  | settle order =>
    obtain ⟨items, hpays⟩ := pays_settleDowngrades g id order hub hnd
    simp only [signs, addressed, counted, apply, owes, added_of_append hpays.queue]
    rcases hpays.entry with ⟨heq, hno⟩ | ⟨sub, he, howed, hpaid, hone⟩
    · exact tells_of_untouched _ _ hno (.inr (congrArg _ heq))
    · rw [he, hpaid]
      exact tells_of_notice (by rw [hone, howed]; rfl) (.nothing (some false))
  | evict entry =>
    obtain ⟨⟨items, hqueue, hitems⟩, hes⟩ := hub.evict_view entry id
    refine tells_of_untouched _ _ ?_ ((hes g).imp_right (congrArg _))
    rw [apply, added_of_append hqueue, hitems]
    rfl
  | disconnect conn =>
    have hnone : added (hub.senders id) ((hub.disconnect conn).senders id) = [] :=
      added_of_eq rfl
    refine tells_of_untouched _ _ (by rw [apply, hnone]; rfl) ?_
    rw [apply, entry_disconnect]
    split_ifs
    · exact .inl rfl
    · exact .inr rfl
  | answer conn frame =>
    refine hown conn (fun tx => (tx.tryQueue frame).2) fun hmem => ?_
    exact hl.2 g (mem_added_tryQueue hmem).symm
  | ping conn =>
    exact hown conn (fun tx => (tx.trySend .ping).2) (by simp [added_ping])
  | write conn => exact hown conn Sockets.takeNext (by simp [added_takeNext])
  | writerEnds conn =>
    exact hown conn (fun tx => { tx with receiving := false }) (by simp [added, framesOf])

end Operations

/-! ### The counter -/

section Counter

variable {g : Bytes} {frame : Frame} {w : ConnectionId} {low : Nat}
  {hub : Registry}

/-- With each connection subscribed once, the loop's counter adds up the turns each entry would
have alone. -/
theorem fanoutLoop_downgrades {subs} (acc : Fanout) (hnd : (subs.map Subscriber.id).Nodup) :
    (fanoutLoop g frame w low subs acc).downgrades = acc.downgrades + (subs.map fun sub =>
        (deliver g frame w low sub (acc.senders sub.id)).downgrades).sum := by
  induction subs generalizing acc with
  | nil => simp [fanoutLoop]
  | cons first rest ih =>
    simp only [map_cons, nodup_cons] at hnd
    have hr : ∀ sub ∈ rest, ∀ turn,
        (acc.add first.id turn).senders sub.id = acc.senders sub.id := by
      intro sub hmem turn
      refine update_of_ne (fun hid => hnd.1 ?_) _ _
      exact hid ▸ mem_map_of_mem hmem
    rw [fanoutLoop, ih _ hnd.2, map_cons, sum_cons, ← Nat.add_assoc]
    congr 2
    exact map_congr_left fun sub hmem => by rw [hr sub hmem]

theorem downgrades_fanoutFrame (hnd : (hub.subscriberIds g).Nodup) :
    (hub.fanoutFrame g frame w low).downgrades = hub.downgrades + ((hub.groups g).map fun sub =>
        (deliver g frame w low sub (hub.senders sub.id)).downgrades).sum := by
  rw [fanoutFrame, foldl_disconnect]
  exact fanoutLoop_downgrades hub.fanoutStart hnd

theorem entry_of_mem (hnd : (hub.subscriberIds g).Nodup) {sub}
    (hmem : sub ∈ hub.groups g) : hub.entry g sub.id = some sub := by
  cases he : hub.entry g sub.id with
  | none => exact absurd (mem_map_of_mem hmem) (entry_eq_none.mp he)
  | some found =>
    obtain ⟨hf, hid⟩ := mem_of_entry he
    rw [inj_on_of_nodup_map hnd hf hmem hid]

/-- A fanout counts for the entries of its group only. -/
theorem support_counted_fanout (hub : Registry) (g : Bytes) (frame : Frame)
    (w : ConnectionId) (low : Nat) :
    (support fun pair : Bytes × ConnectionId =>
        (Change.fanout g frame w low).counted hub pair.1 pair.2) ⊆
      ((hub.subscriberIds g).toFinset.image fun id => (g, id) :) := by
  rintro ⟨x, id⟩ hcounted
  simp only [mem_support, Change.counted] at hcounted
  split_ifs at hcounted with hg
  · subst hg
    have hid : id ∈ hub.subscriberIds g := by
      by_contra hno
      rw [entry_eq_none.mpr hno] at hcounted
      exact hcounted rfl
    simpa using hid
  · exact absurd rfl hcounted

theorem finsum_counted_fanout (frame : Frame) (w : ConnectionId) (low : Nat)
    (hnd : (hub.subscriberIds g).Nodup) :
    ∑ᶠ pair : Bytes × ConnectionId, (Change.fanout g frame w low).counted hub pair.1 pair.2 =
      ((hub.groups g).map fun sub =>
        (deliver g frame w low sub (hub.senders sub.id)).downgrades).sum := by
  rw [finsum_eq_sum_of_support_subset _ (support_counted_fanout hub g frame w low),
    Finset.sum_image fun _ _ _ _ h => (Prod.mk.inj h).2, sum_toFinset _ hnd,
    subscriberIds, map_map]
  refine congrArg List.sum (map_congr_left fun sub hmem => ?_)
  simp [Change.counted, entry_of_mem hnd hmem]

theorem downgrades_foldl {α : Type} (f : Registry → α → Registry)
    (hf : ∀ hub a, (f hub a).downgrades = hub.downgrades) (list : List α) (hub : Registry) :
    (list.foldl f hub).downgrades = hub.downgrades :=
  foldlRecOn (motive := fun t => t.downgrades = hub.downgrades) list f rfl
    fun _ h _ _ => (hf _ _).trans h

/-- The operation moves the counter by what it counts for each entry. -/
theorem Change.downgrades_apply (hnd : ∀ x, (hub.subscriberIds x).Nodup) (change : Change) :
    (support fun pair : Bytes × ConnectionId => change.counted hub pair.1 pair.2).Finite ∧
      (change.apply hub).downgrades =
        hub.downgrades + ∑ᶠ pair : Bytes × ConnectionId, change.counted hub pair.1 pair.2 := by
  have hnone : ∀ change : Change, (∀ g id, change.counted hub g id = 0) →
      (change.apply hub).downgrades = hub.downgrades →
      (support fun pair : Bytes × ConnectionId =>
          change.counted hub pair.1 pair.2).Finite ∧
        (change.apply hub).downgrades =
          hub.downgrades + ∑ᶠ pair : Bytes × ConnectionId, change.counted hub pair.1 pair.2 := by
    intro change hzero heq
    simp [hzero, heq]
  cases change with
  | fanout g frame w low =>
    refine ⟨(Finset.finite_toSet _).subset (support_counted_fanout hub g frame w low), ?_⟩
    rw [finsum_counted_fanout frame w low (hnd g)]
    exact downgrades_fanoutFrame (hnd g)
  | connect | disconnect | answer | ping | write | writerEnds => exact hnone _ (fun _ _ => rfl) rfl
  | identify entry id =>
    refine hnone _ (fun _ _ => rfl) ?_
    simp only [apply, Registry.identify]
    split_ifs <;> rfl
  | subscribe held g id ver =>
    refine hnone _ (fun _ _ => rfl) ?_
    simp only [apply, subscribeWith]
    split_ifs <;> rfl
  | release g id replayedTo =>
    refine hnone _ (fun _ _ => rfl) ?_
    simp only [apply, releaseHandshakes]
    split
    next => rfl
    next =>
      split
      next => rfl
      next => split_ifs <;> rfl
  | settle order =>
    exact hnone _ (fun _ _ => rfl) (downgrades_foldl settleGroup (fun _ _ => rfl) _ _)
  | evict entry => exact hnone _ (fun _ _ => rfl) (downgrades_foldl evictOne (fun _ _ => rfl) _ _)

end Counter

/-! ### Runs -/

/-- The hub, and what each subscription saw so far. -/
structure Ledger where
  hub : Registry
  signs : Bytes → ConnectionId → List Sign

namespace Ledger

/-- Nothing seen yet. -/
def start (hub : Registry) : Ledger where
  hub := hub
  signs := fun _ _ => []

def step (ledger : Ledger) (change : Change) : Ledger where
  hub := change.apply ledger.hub
  signs := fun group id => ledger.signs group id ++ change.signs ledger.hub group id

/-- The books after any run: every entry agrees with its signs, and the counter has moved once
for each run of drops. -/
structure Balanced (base : Nat) (ledger : Ledger) : Prop where
  nodup : ∀ group, (ledger.hub.subscriberIds group).Nodup
  agrees : ∀ group id, Agrees (ledger.hub.owes group id) (ledger.signs group id)
  finite : (support fun pair : Bytes × ConnectionId =>
    runs (ledger.signs pair.1 pair.2)).Finite
  counter : ledger.hub.downgrades =
    base + ∑ᶠ pair : Bytes × ConnectionId, runs (ledger.signs pair.1 pair.2)

variable {base : Nat} {l : Ledger}

theorem Balanced.step (h : Balanced base l) {change : Change} (hl : change.Live) :
    Balanced base (l.step change) := by
  have htells := fun g id =>
    (h.agrees g id).tells (change.tells h.nodup hl g id)
  obtain ⟨hfinite, hn⟩ := change.downgrades_apply h.nodup
  have hruns : (fun pair : Bytes × ConnectionId => runs ((l.step change).signs pair.1 pair.2)) =
      fun pair => runs (l.signs pair.1 pair.2) + change.counted l.hub pair.1 pair.2 :=
    funext fun pair => (htells pair.1 pair.2).2
  refine ⟨change.nodup h.nodup, fun g id => (htells g id).1, ?_, ?_⟩
  · rw [hruns]
    exact (h.finite.union hfinite).subset (support_add _ _)
  · rw [hruns, finsum_add_distrib h.finite hfinite, ← Nat.add_assoc, ← h.counter]
    exact hn

theorem Balanced.run (h : Balanced base l) {changes : List Change}
    (hl : ∀ change ∈ changes, change.Live) : Balanced base (changes.foldl Ledger.step l) := by
  induction changes generalizing l with
  | nil => exact h
  | cons first rest ih =>
    exact ih (h.step (hl first mem_cons_self)) fun change hmem =>
      hl change (mem_cons_of_mem _ hmem)

theorem balanced_start {hub} (hnd : ∀ g, (hub.subscriberIds g).Nodup)
    (howed : ∀ g id, hub.owes g id ≠ some true) : Balanced hub.downgrades (start hub) where
  nodup := hnd
  agrees g id :=
    { declared := fun a b c h => absurd h (by simp [start])
      answered := fun _ a b h => absurd h (by simp [start])
      inside := by simpa [start, endsInside] using howed g id }
  finite := by simp [start, runs, runsFrom]
  counter := by simp [start, runs, runsFrom]

/-- In every run of the hub's operations, a push queued to a subscription after one that was
dropped comes behind a downgrade frame of the group or behind the end of the subscription, and
the counter of downgrades moves once for each maximal run of dropped pushes. -/
theorem dropped_pushes_declared
    {hub : Registry}
    (hnodup : ∀ group, (hub.subscriberIds group).Nodup)
    (howed : ∀ group id, hub.owes group id ≠ some true)
    {changes : List Change}
    (hlive : ∀ change ∈ changes, change.Live)
    {ledger : Ledger}
    (hrun : changes.foldl Ledger.step (start hub) = ledger) :
    (∀ group id, Declared (ledger.signs group id)) ∧
      (support fun pair : Bytes × ConnectionId =>
        runs (ledger.signs pair.1 pair.2)).Finite ∧
      ledger.hub.downgrades =
        hub.downgrades + ∑ᶠ pair : Bytes × ConnectionId, runs (ledger.signs pair.1 pair.2) := by
  have hbalanced := hrun ▸ (balanced_start hnodup howed).run hlive
  exact ⟨fun group id => (hbalanced.agrees group id).declared, hbalanced.finite, hbalanced.counter⟩

/-! ### A notice that fits where the push does not -/

/-- The pushes of a history, with nothing between them. -/
def pushesOf (signs : List Sign) : List Sign :=
  signs.filter fun sign => sign == .pushed || sign == .dropped

def sampleGroup : Bytes := id32 1

/-- Connection 0 subscribed, with its queue filled but for a hundred bytes. -/
def crowdedChanges : List Change :=
  [.connect, .identify sampleGroup 0, .subscribe none sampleGroup 0 1, .answer 0 (.other 0),
    .answer 0 (.other (sendQueueByteBudget - 612))]

/-- A push is dropped; the writer makes room for the notice and not for the next push. -/
def twiceDropped : List Change :=
  crowdedChanges ++
    [.fanout sampleGroup (.push []) 1 1, .write 0, .fanout sampleGroup (.push []) 1 1]

/-- A push is dropped; the connection's principal is evicted while its reader subscribes again. -/
def evictedBetween : List Change :=
  crowdedChanges ++ [.fanout sampleGroup (.push []) 1 1, .evict sampleGroup, .write 0,
      .subscribe none sampleGroup 0 1, .fanout sampleGroup (.push []) 1 1]

/-- One run of dropped pushes with no push between them moves the counter twice, and a push that
follows a dropped one is queued with no notice. -/
theorem dropped_run_counted_twice :
    runs (pushesOf ((twiceDropped.foldl step (start .new)).signs sampleGroup 0)) = 1 ∧
      (twiceDropped.foldl step (start .new)).hub.downgrades = 2 ∧
      (evictedBetween.foldl step (start .new)).signs sampleGroup 0 =
        [.dropped, .ended, .pushed] := by
  decide +kernel

theorem twiceDropped_declared :
    Declared ((twiceDropped.foldl step (start .new)).signs sampleGroup 0) ∧
      (twiceDropped.foldl step (start .new)).signs sampleGroup 0 =
        [.dropped, .notice, .dropped] := by
  have hnd : ∀ group, (Registry.new.subscriberIds group).Nodup := fun _ => nodup_nil
  have howed : ∀ group id, Registry.new.owes group id ≠ some true := fun _ _ => nofun
  refine ⟨(dropped_pushes_declared hnd howed ?_ rfl).1 _ _, ?_⟩
  · simp [twiceDropped, crowdedChanges, Change.Live, Frame.fannedOut, Frame.isPush, downgradeFrame]
  · decide +kernel

end Ledger

end WealdRelay.Hub
