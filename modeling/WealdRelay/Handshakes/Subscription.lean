import WealdRelay.Handshakes.Append
import WealdRelay.Handshakes.Delivery

/-!
# What a subscriber receives of a group's handshakes

Runs of the relay of `Handshakes/Delivery.lean` from a state in which the connection is not yet
subscribed. An append is one step here: `Handshakes/Append.lean` shows that every committed
append, run statement by statement among any others, is `append_within` run alone at the moment
of its commit.

The source promises every handshake in order, once. That does not hold of every run, because
nothing ties the order of the fanouts to the order of the commits and because a failed replay
keeps the subscription. Each theorem here names the steps that have to be kept apart.
-/

namespace WealdRelay.Handshakes

open Lib Hub List

namespace Relay

section Starts

variable {π : Type} {c : Access.Crypto} {party : Party} {w : Relay π}

/-- Nothing is under way and the connection is not subscribed; the log may hold any number of
messages, and the hub any other subscriptions. -/
structure Start (c : Access.Crypto) (party : Party) (w : Relay π) : Prop where
  dense : Dense c w.log
  small : (rowsOf w.log party.group).length ≤ Log.bigintBound
  nodup : ∀ group, (w.hub.subscriberIds group).Nodup
  unsubscribed : w.hub.entry party.group party.id = none
  idle : ∀ p, w.publisher p = .idle
  replay : w.replay = .idle
  queued : w.queued = []

theorem Start.consistent (h : Start c party w) : Consistent c party w where
  dense := h.dense
  small := h.small
  served := .of_absent h.nodup h.unsubscribed
  page cur rest short hreplay := by
    rw [h.replay] at hreplay
    cases hreplay

/-- The feed at the start: nothing pending, nothing queued, no entry. -/
theorem Start.feed (h : Start c party w) : w.feed party =
      { count := (rowsOf w.log party.group).length
        pending := fun _ => none
        entry := .absent
        sent := []
        position := .idle } := by
  refine Feed.ext rfl (funext fun p => ?_) ?_ ?_ ?_
  · simp [Relay.feed, h.idle, pendingOf]
  · simp [Relay.feed, view, h.unsubscribed, entryOf]
  · simp [Relay.feed, h.queued, seqsIn]
  · simp [Relay.feed, h.replay]

theorem Start.bounded (h : Start c party w) : (w.feed party).Bounded := by
  rw [h.feed]
  exact ⟨fun _ => nofun, fun _ _ => nofun, fun _ => nofun, fun _ => nofun, fun _ => nofun⟩

end Starts

section Runs

variable {π : Type} [DecidableEq π] {c : Access.Crypto} {party : Party} {w t : Relay π}
  {labels : List (Label π)}

/-- A step from a state that meets a condition. The group's numbers are below the range of the
column that stores them. -/
def StepIf (c : Access.Crypto) (party : Party) (cond : Feed π → Event π → Prop) (w : Relay π)
    (label : Label π) (w' : Relay π) : Prop :=
  w.step c party label = some w' ∧ (rowsOf w.log party.group).length < Log.bigintBound ∧
    cond (w.feed party) (w.event c party label)

/-- What every step of the feed keeps under a condition, every run of the relay keeps. -/
theorem Start.run (hstart : Start c party w) {cond : Feed π → Event π → Prop} {I : Feed π → Prop}
    (hstep : ∀ f e g, I f → f.Bounded → cond f e → Feed.Step f e g → I g)
    (hrun : Run (StepIf c party cond) w labels t) (hw : I (w.feed party)) :
    I (t.feed party) ∧ Consistent c party t := by
  have hall : (I (t.feed party) ∧ Consistent c party t) ∧ (t.feed party).Bounded := by
    refine hrun.invariant ?_ ⟨⟨hw, hstart.consistent⟩, hstart.bounded⟩
    rintro s label s' ⟨⟨hI, hs⟩, hbound⟩ ⟨hmove, hn, hcond⟩
    obtain ⟨hfeed, hs'⟩ := hs.step hbound hn hmove
    exact ⟨⟨hstep _ _ _ hI hbound hcond hfeed, hs'⟩, hbound.step hfeed⟩
  exact hall.1

theorem mem_seqsIn {g fs seq} (h : seq ∈ seqsIn g fs) : ∃ msg, Frame.handshake g seq msg ∈ fs := by
  obtain ⟨frame, hframe, hseq⟩ := mem_filterMap.mp h
  cases frame with
  | handshake own n msg =>
    simp only [Frame.seqIn] at hseq
    split_ifs at hseq with hown
    subst hown
    cases hseq
    exact ⟨msg, hframe⟩
  | push | live | call | subAck | other => cases hseq

/-- Once every publisher is done and the subscription stands, every committed handshake has been
queued: in a run whose replay is not cut short and whose release finds no number held behind a
higher one. -/
theorem committed_handshakes_queued
    (hstart : Start c party w)
    (hrun : Run (StepIf c party Feed.Lossless) w labels t)
    (hsubscribed : t.replay = .subscribed)
    (hdone : ∀ p, t.publisher p = .idle)
    (hentry : (t.hub.entry party.group party.id).isSome = true) :
    ∀ row ∈ rowsOf t.log party.group, ∃ message,
      Frame.handshake party.group row.seq message ∈ t.queued := by
  have hcomplete : (w.feed party).Complete := by
    rw [hstart.feed]
    exact ⟨fun _ => rfl, nofun, fun h => absurd rfl h, fun h => absurd rfl h⟩
  obtain ⟨hcomplete, ht⟩ := hstart.run (fun _ _ _ hI _ hcond hs => hI.step hcond hs) hrun
    hcomplete
  intro row hrow
  refine mem_seqsIn ?_
  obtain ⟨subscriber, hsome⟩ := Option.isSome_iff_exists.mp hentry
  have hpresent : (t.feed party).entry ≠ .absent := by
    simp only [Relay.feed, view, hsome, entryOf]
    split <;> simp
  have hposition : (t.feed party).position = .subscribed := by
    simp [Relay.feed, hsubscribed]
  have haccounted := hcomplete.caught hpresent (by rw [hposition]; rfl) row.seq
    (ht.dense.seq_lt hrow)
  rcases haccounted with hsent | hr | hheld | ⟨p, next, hp, -⟩
  · exact hsent
  · rw [hposition] at hr
    cases hr
  · cases hholding : (t.feed party).entry with
    | absent => exact absurd hholding hpresent
    | holding held => exact absurd hholding (hcomplete.live hposition held)
    | live =>
      rw [hholding] at hheld
      cases hheld
  · simp [Relay.feed, hdone p, pendingOf] at hp

/-- The numbers queued to a subscriber ascend in a run with one `SUB` in which a live fanout is of
a number its publisher stored itself with no lower one still to come, an answer to its own
publication likewise and under a live entry, and in which no number below the cursor or a held
one is still to come at the release. -/
theorem queued_handshakes_ascend
    (hstart : Start c party w)
    (hrun : Run (StepIf c party Feed.InStep) w labels t) :
    (seqsIn party.group t.queued).Pairwise (· < ·) := by
  have hordered : (w.feed party).Ordered := by
    rw [hstart.feed]
    exact ⟨.nil, fun _ => ⟨rfl, rfl⟩, fun _ => nofun, fun _ => nofun, nofun,
      fun _ _ _ _ => nofun, nofun⟩
  exact (hstart.run (fun _ _ _ hI hbound hcond hs => hI.step hbound hcond hs) hrun
    hordered).1.ascending

/-- Whatever the publishers, the replay and the rest of the relay do, every number queued to a
subscriber is the number of a committed handshake. -/
theorem queued_handshakes_committed
    (hstart : Start c party w)
    (hrun : Run (StepIf c party fun _ _ => True) w labels t) :
    ∀ seq ∈ seqsIn party.group t.queued, ∃ row ∈ rowsOf t.log party.group, row.seq = seq := by
  obtain ⟨hbound, ht⟩ := hstart.run (fun _ _ _ hbound _ _ hs => hbound.step hs) hrun hstart.bounded
  intro seq hseq
  have hmem : seq ∈ (rowsOf t.log party.group).map (·.seq) := by
    rw [ht.dense.numbered]
    exact mem_range.mpr (hbound.sent seq hseq)
  exact mem_map.mp hmem

end Runs

/-! ### Runs that break the promise, and one that keeps it -/

/-- A run of given steps, each under a check of the state before it. -/
def exec {π : Type} [DecidableEq π] (c : Access.Crypto) (party : Party)
    (check : Feed π → Event π → Bool) : Relay π → List (Label π) → Option (Relay π)
  | w, [] => some w
  | w, label :: rest =>
    if check (w.feed party) (w.event c party label) = true ∧
        (rowsOf w.log party.group).length < Log.bigintBound then
      match w.step c party label with
      | none => none
      | some next => exec c party check next rest
    else none

theorem exec_run {π : Type} [DecidableEq π] {c p} {check : Feed π → Event π → Bool}
    {cond : Feed π → Event π → Prop} (hcheck : ∀ f e, check f e = true → cond f e) {labels w t}
    (h : exec c p check w labels = some t) : Run (StepIf c p cond) w labels t := by
  induction labels generalizing w with
  | nil =>
    obtain rfl := Option.some.inj h
    exact .nil w
  | cons label rest ih =>
    simp only [exec] at h
    split_ifs at h with hmeets
    split at h
    next => cases h
    next next hs => exact .cons ⟨hs, hmeets.2, hcheck _ _ hmeets.1⟩ (ih h)

def sampleParty : Party := ⟨sampleGroup, 7, 1, le_refl 1⟩

/-- An empty log of a known group, and nobody subscribed. -/
def sampleRelay : Relay Bool where
  log := ⟨fun group => if group = sampleGroup then some (id32 9) else none, [], fun _ => 0⟩
  hub := Registry.new
  queued := []
  publisher _ := .idle
  replay := .idle

theorem start_sampleRelay : Start sampleCrypto sampleParty sampleRelay where
  dense := ⟨fun _ => rfl, List.Pairwise.nil, nofun, nofun, nofun⟩
  small := Nat.zero_le _
  nodup _ := nodup_nil
  unsubscribed := rfl
  idle _ := rfl
  replay := rfl
  queued := rfl

/-- The subscription stands and both publishers are done. -/
def settled (w : Relay Bool) : Bool :=
  w.replay == .subscribed && w.publisher false == .idle && w.publisher true == .idle &&
    (w.hub.entry sampleGroup 7).isSome

theorem settled_iff {w : Relay Bool} (h : w.settled = true) :
    w.replay = .subscribed ∧ (∀ p, w.publisher p = .idle) ∧
      (w.hub.entry sampleGroup 7).isSome = true := by
  simp only [settled, Bool.and_eq_true, beq_iff_eq] at h
  obtain ⟨⟨⟨hreplay, hfirst⟩, hsecond⟩, he⟩ := h
  refine ⟨hreplay, fun p => ?_, he⟩
  cases p with
  | false => exact hfirst
  | true => exact hsecond

/-- Whether a run settles, the numbers that are committed and the numbers that were queued. -/
def summary (w : Relay Bool) : Bool × List Nat × List Nat :=
  (w.settled, (rowsOf w.log sampleGroup).map Row.seq, seqsIn sampleGroup w.queued)

/-- Two publishers commit, and fan out in the opposite order under a hold. -/
def crossedUnderHold : List (Label Bool) :=
  [.register, .readPage, .append false 1 [1] none, .append true 2 [2] none, .fanout true,
    .fanout false, .release]

theorem exec_crossedUnderHold :
    (exec sampleCrypto sampleParty (fun _ _ => true) sampleRelay crossedUnderHold).map summary =
      some (true, [0, 1], [1]) := by
  decide +kernel

/-- The release drops number 0, which is held behind number 1. -/
theorem crossed_handshake_dropped :
    ∃ t, Run (StepIf sampleCrypto sampleParty fun _ _ => True) sampleRelay crossedUnderHold t ∧
      t.replay = .subscribed ∧ (∀ p, t.publisher p = .idle) ∧
        (t.hub.entry sampleParty.group sampleParty.id).isSome = true ∧
          ∃ row ∈ rowsOf t.log sampleParty.group, ∀ message,
            Frame.handshake sampleParty.group row.seq message ∉ t.queued := by
  obtain ⟨t, hexec, ht⟩ := Option.map_eq_some_iff.mp exec_crossedUnderHold
  obtain ⟨hset, hlists⟩ := Prod.mk.inj ht
  obtain ⟨hrows, hqueued⟩ := Prod.mk.inj hlists
  obtain ⟨hreplay, hidle, he⟩ := settled_iff hset
  refine ⟨t, exec_run (fun _ _ _ => trivial) hexec, hreplay, hidle, he, ?_⟩
  have hzero : 0 ∈ (rowsOf t.log sampleGroup).map Row.seq := by
    rw [hrows]
    exact mem_cons_self
  obtain ⟨row, hrow, hseq⟩ := mem_map.mp hzero
  refine ⟨row, hrow, fun message hmem => ?_⟩
  have hsent : 0 ∈ seqsIn sampleGroup t.queued := by
    rw [← hseq]
    exact mem_filterMap.mpr ⟨_, hmem, by simp [Frame.seqIn, sampleParty]⟩
  rw [hqueued] at hsent
  exact absurd hsent (by decide)

/-- The same two publishers, after the release. -/
def crossedLive : List (Label Bool) :=
  [.register, .readPage, .release, .append false 1 [1] none, .append true 2 [2] none, .fanout true,
    .fanout false]

theorem exec_crossedLive :
    (exec sampleCrypto sampleParty (fun _ _ => true) sampleRelay crossedLive).map summary =
      some (true, [0, 1], [1, 0]) := by
  decide +kernel

/-- One subscription, nothing resent and nothing failed, and number 1 is queued before number 0. -/
theorem crossed_handshakes_swapped :
    ∃ t, Run (StepIf sampleCrypto sampleParty fun _ _ => True) sampleRelay crossedLive t ∧
      (t.hub.entry sampleParty.group sampleParty.id).isSome = true ∧
        ¬ (seqsIn sampleParty.group t.queued).Pairwise (· < ·) := by
  obtain ⟨t, hexec, ht⟩ := Option.map_eq_some_iff.mp exec_crossedLive
  obtain ⟨hset, hlists⟩ := Prod.mk.inj ht
  refine ⟨t, exec_run (fun _ _ _ => trivial) hexec, (settled_iff hset).2.2, ?_⟩
  rw [show seqsIn sampleParty.group t.queued = [1, 0] from (Prod.mk.inj hlists).2]
  decide

theorem crossedLive_committed : ∃ t : Relay Bool, seqsIn sampleGroup t.queued = [1, 0] ∧
    ∀ seq ∈ seqsIn sampleGroup t.queued, ∃ row ∈ rowsOf t.log sampleGroup, row.seq = seq := by
  obtain ⟨t, hexec, ht⟩ := Option.map_eq_some_iff.mp exec_crossedLive
  exact ⟨t, (Prod.mk.inj (Prod.mk.inj ht).2).2,
    queued_handshakes_committed start_sampleRelay (exec_run (fun _ _ _ => trivial) hexec)⟩

/-- Number 0 is stored before the subscription; the page read fails; number 1 comes live. -/
def failedReplay : List (Label Bool) :=
  [.append false 1 [1] none, .fanout false, .register, .failPage, .release, .append true 2 [2] none,
    .fanout true]

/-- Only this publisher has something to announce, which it stored itself. -/
def alone (f : Feed Bool) (p : Bool) : Bool :=
  (f.pending !p).isNone && (f.pending p).any Pending.fresh

/-- One publisher at a time, nothing resent, and the replay neither fails nor is cut short. -/
def calm (f : Feed Bool) : Event Bool → Bool
  | .commit _ _ => (f.pending false).isNone && (f.pending true).isNone
  | .fanout p => alone f p
  | .acknowledge p queued => queued && f.entry == .live && alone f p
  | .register => f.position == .idle
  | .failRead => false
  | .timeOut => false
  | .release => (f.pending false).isNone && (f.pending true).isNone &&
      decide (f.entry.held.Pairwise (· < ·))
  | _ => true

/-- Publishers that wait for each other. -/
def prompt (f : Feed Bool) : Event Bool → Bool
  | .commit _ _ => (f.pending false).isNone && (f.pending true).isNone
  | _ => true

theorem not_pending {f : Feed Bool}
    (h : ((f.pending false).isNone && (f.pending true).isNone) = true) (p : Bool) :
    f.pending p = none := by
  simp only [Bool.and_eq_true, Option.isNone_iff_eq_none] at h
  cases p with
  | false => exact h.1
  | true => exact h.2

theorem not_unannounced {f : Feed Bool}
    (h : ((f.pending false).isNone && (f.pending true).isNone) = true) (seq : Nat) :
    ¬ f.Unannounced seq := by
  rintro ⟨p, next, hp, -⟩
  rw [not_pending h p] at hp
  cases hp

variable (f : Feed Bool) (e : Event Bool)

theorem lowest_of_alone {p} (h : alone f p = true) : f.Lowest p := by
  intro next hp
  simp only [alone, Bool.and_eq_true, Option.isNone_iff_eq_none, hp, Option.any_some] at h
  refine ⟨h.2, fun q x hq _ => ?_⟩
  by_cases heq : q = p
  · subst heq
    exact le_of_eq (congrArg Pending.seq (Option.some.inj (hp.symm.trans hq)))
  · rw [show q = !p by cases p <;> cases q <;> simp_all, h.1] at hq
    cases hq

theorem calm_acknowledge {p queued} (h : calm f (.acknowledge p queued) = true) :
    queued = true ∧ f.entry = .live ∧ f.Lowest p := by
  simp only [calm, Bool.and_eq_true, beq_iff_eq] at h
  exact ⟨h.1.1, h.1.2, lowest_of_alone f h.2⟩

theorem prompt_sound (h : prompt f e = true) : f.Prompt e := by
  cases e with
  | commit p fresh =>
    cases fresh with
    | false => trivial
    | true => exact not_unannounced h
  | _ => trivial

theorem calm_lossless (h : calm f e = true) : f.Lossless e := by
  cases e with
  | failRead => cases h
  | timeOut => cases h
  | release =>
    intro cur goesOn held _ he
    simp only [calm, Bool.and_eq_true, decide_eq_true_eq, he] at h
    exact .of_pairwise h.2 cur
  | _ => trivial

theorem calm_inStep (h : calm f e = true) : f.InStep e := by
  cases e with
  | register => exact beq_iff_eq.mp h
  | fanout p => exact fun _ => lowest_of_alone f h
  | acknowledge p queued =>
    obtain ⟨rfl, he, hlow⟩ := calm_acknowledge f h
    exact ⟨he, hlow⟩
  | release =>
    intro cur goesOn held _ _ q x hq
    rw [calm, Bool.and_eq_true] at h
    rw [not_pending h.1 q] at hq
    cases hq
  | _ => trivial

theorem calm_careful (h : calm f e = true) : f.Careful e := by
  cases e with
  | commit p fresh =>
    cases fresh with
    | false => trivial
    | true => exact not_unannounced h
  | acknowledge p queued =>
    obtain ⟨rfl, he, -⟩ := calm_acknowledge f h
    exact .inl he
  | failRead => cases h
  | timeOut => cases h
  | _ => trivial

theorem exec_failedReplay :
    (exec sampleCrypto sampleParty prompt sampleRelay failedReplay).map summary =
      some (true, [0, 1], [1]) := by
  decide +kernel

/-- A number held and replayed, a number held and released, a number that comes live, and one
that the subscriber publishes itself. -/
def calmLabels : List (Label Bool) :=
  [.register, .append false 1 [1] none, .fanout false, .readPage, .queueFrame,
    .append true 2 [2] none, .fanout true, .release, .append false 1 [3] none, .fanout false,
    .append true 7 [4] none, .fanout true, .acknowledge true true]

theorem exec_calmLabels : (exec sampleCrypto sampleParty calm sampleRelay calmLabels).map summary =
      some (true, [0, 1, 2, 3], [0, 1, 2, 3]) := by
  decide +kernel

theorem calmLabels_complete :
    ∃ t, Run (StepIf sampleCrypto sampleParty Feed.Lossless) sampleRelay calmLabels t ∧
      (rowsOf t.log sampleGroup).map Row.seq = [0, 1, 2, 3] ∧
      ∀ row ∈ rowsOf t.log sampleParty.group,
        ∃ message, Frame.handshake sampleParty.group row.seq message ∈ t.queued := by
  obtain ⟨t, hexec, ht⟩ := Option.map_eq_some_iff.mp exec_calmLabels
  obtain ⟨hset, hlists⟩ := Prod.mk.inj ht
  obtain ⟨hreplay, hidle, he⟩ := settled_iff hset
  have hrun := exec_run calm_lossless hexec
  exact ⟨t, hrun, (Prod.mk.inj hlists).1,
    committed_handshakes_queued start_sampleRelay hrun hreplay hidle he⟩

theorem calmLabels_ascend :
    ∃ t, Run (StepIf sampleCrypto sampleParty Feed.InStep) sampleRelay calmLabels t ∧
      seqsIn sampleGroup t.queued = [0, 1, 2, 3] ∧
        (seqsIn sampleParty.group t.queued).Pairwise (· < ·) := by
  obtain ⟨t, hexec, ht⟩ := Option.map_eq_some_iff.mp exec_calmLabels
  obtain ⟨-, hlists⟩ := Prod.mk.inj ht
  have hrun := exec_run calm_inStep hexec
  exact ⟨t, hrun, (Prod.mk.inj hlists).2, queued_handshakes_ascend start_sampleRelay hrun⟩

end Relay

end WealdRelay.Handshakes
