import WealdRelay.Media.Steps
import WealdRelay.Retention.OneChain

/-!
# Media through an outage

No collector deletes an object that the newest manifest of its group names, as long as
every PUT for such an object learns that it is stored.

The row of a named object is final: the manifest claimed it. The unclaimed collector takes
rows that are not final, the storage sweep takes objects that have no row, and the retention
collector asks the newest manifest. What undoes this is a PUT for a named object whose
`head` fails. It counts as a PUT for an object that is not there, retires the final row and
puts one in its place that no manifest has claimed; a day later the unclaimed collector
takes the object.
-/

namespace WealdRelay.Media

open Lib Retention

namespace Relay

/-- The newest manifest of the group names the object. -/
def Names (relay : Relay) (group hash : Bytes) : Prop :=
  ∃ latest ∈ (relay.records group).latestManifest, hash ∈ latest.blobs

instance (relay : Relay) (group hash : Bytes) : Decidable (relay.Names group hash) :=
  inferInstanceAs (Decidable (∃ latest ∈ (relay.records group).latestManifest, hash ∈ latest.blobs))

/-- One of the three collectors runs. -/
def Event.collects : Event → Bool
  | .sweepUnclaimed _ _ _ => true
  | .sweepUnreferenced _ _ _ _ _ => true
  | .sweepRetention _ _ => true
  | _ => false

section Outage

variable {c : Access.Crypto} {workspaceOf : Bytes → Bytes} {relay after : Relay} {event : Event}

variable (workspaceOf) in
/-- A PUT for an object that the newest manifest names learns that it is stored. -/
def informed (relay : Relay) : Event → Bool
  | .put group hash _ _ headFails =>
    !decide (relay.Names group hash) || relay.alreadyStored (workspaceOf group) group hash headFails
  | _ => true

variable (c workspaceOf) in
/-- A step whose PUT is informed. -/
def informedStep (relay : Relay) (event : Event) (after : Relay) : Prop :=
  relay.step c workspaceOf event after ∧ relay.informed workspaceOf event = true

variable (workspaceOf) in
/-- Every object that is named has a final row. -/
structure Claimed (relay : Relay) : Prop where
  tidy : Tidy relay.tables
  final : ∀ group hash, relay.Names group hash →
    ∃ row, relay.rowOf (workspaceOf group) group hash = some row ∧ row.finalized = true

theorem claimed_unused (backend : Backend) (clock : Int) :
    Claimed workspaceOf (unused backend clock) := by
  refine ⟨tidy_unused backend clock, fun g hash hnames => ?_⟩
  obtain ⟨latest, hlatest, -⟩ := hnames
  cases hlatest

variable (h : Claimed workspaceOf relay)
include h

/-- The final row of a named object stays final. -/
theorem Claimed.rowOf_after (hinformed : relay.informed workspaceOf event = true) {g hash : Bytes}
    (hnames : relay.Names g hash) :
    ∃ row, (relay.after c workspaceOf event).rowOf (workspaceOf g) g hash = some row ∧
      row.finalized = true := by
  obtain ⟨row, hrow, hfinal⟩ := h.final g hash hnames
  have hlocal := ((after_local c workspaceOf event h.tidy).2 (workspaceOf g) g hash).1
  rw [hrow] at hlocal
  generalize (relay.after c workspaceOf event).rowOf (workspaceOf g) g hash = row' at *
  cases hlocal with
  | kept => exact ⟨row, rfl, hfinal⟩
  | requested _ len lim headFails _ _ habs =>
    simp [informed, hnames, habs] at hinformed
  | claimed _ rec fs _ _ _ => exact ⟨_, rfl, row.finalized_claimed relay.clock⟩
  | released sess _ clears _ _ _ _ _ hopen =>
    rw [hfinal] at hopen
    cases hopen
  | swept _ grace clears hstale =>
    simp [Reservation.stale, hfinal] at hstale
  | retired _ clears _ _ heligible => exact absurd heligible (not_eligible_of_named hnames _ _)

theorem Claimed.step (hinformed : relay.informed workspaceOf event = true) :
    Claimed workspaceOf (relay.after c workspaceOf event) := by
  refine ⟨(after_local c workspaceOf event h.tidy).1, fun g hash hnames => ?_⟩
  obtain ⟨latest, hlatest, hh⟩ := hnames
  rcases after_latestManifest c workspaceOf event h.tidy g with heq | ⟨rec, hnew, hrows⟩
  · exact h.rowOf_after hinformed ⟨latest, heq ▸ hlatest, hh⟩
  · obtain rfl : latest = rec := Option.some.inj (hlatest.symm.trans hnew)
    obtain ⟨row, hrow⟩ := hrows hash hh
    exact ⟨_, hrow, row.finalized_claimed relay.clock⟩

/-- A collector leaves a named object where it is. -/
theorem Claimed.blob_after (hcollects : event.collects = true)
    {g hash : Bytes} (hnames : relay.Names g hash) :
    (relay.after c workspaceOf event).blob (workspaceOf g) g hash =
      relay.blob (workspaceOf g) g hash := by
  obtain ⟨row, hrow, hfinal⟩ := h.final g hash hnames
  have hobject := ((after_local c workspaceOf event h.tidy).2 (workspaceOf g) g hash).2
  rw [hrow] at hobject
  generalize (relay.after c workspaceOf event).blob (workspaceOf g) g hash = object' at *
  cases hobject with
  | kept => rfl
  | uploaded | completed => cases hcollects
  | swept _ old grace clears hold hstale =>
    cases hold
    simp [Reservation.stale, hfinal] at hstale
  | unknown _ minAgeSeconds suppressed listFails clears _ hnone => cases hnone
  | retired _ old clears _ _ _ heligible =>
    exact absurd heligible (not_eligible_of_named hnames _ _)

omit h

/-- In every run whose PUTs for named objects learn that these are stored, no collector
deletes an object that the newest manifest of its group names. -/
theorem collectors_spare_named
    (event : Event)
    {backend : Backend}
    {clock : Int}
    {events : List Event}
    {group hash : Bytes}
    (hrun : Run (informedStep c workspaceOf) (unused backend clock) events relay)
    (hcollects : event.collects = true)
    (hstep : relay.step c workspaceOf event after)
    (hnames : relay.Names group hash) :
    after.blob (workspaceOf group) group hash = relay.blob (workspaceOf group) group hash := by
  have hclaimed : Claimed workspaceOf relay := by
    refine Run.invariant (fun relay event after h hstep => ?_) hrun (claimed_unused backend clock)
    obtain ⟨⟨-, rfl⟩, hinformed⟩ := hstep
    exact h.step hinformed
  obtain ⟨-, rfl⟩ := hstep
  exact hclaimed.blob_after hcollects hnames

end Outage

section Sample

/-- The URL of five bytes under reservation 0. -/
def smallUrl : Url :=
  ⟨.blob home room photo, some 5, home, room, photo, 0, seconds presignTtlSeconds⟩

/-- A manifest of the group that names the object, signed in epoch 0. -/
def namingManifest : RetentionManifest := ⟨room, 0, 1, none, [photo], id32 1⟩

/-- An object is uploaded and a manifest names it. -/
def uploadAndName : List Event :=
  [.govern room ⟨[genesisControl], [], false⟩ [] [], .put room photo 5 none false,
    .upload smallUrl 5,
    .manifest namingManifest (fun _ => none)]

/-- Then a PUT for it meets a store that does not answer, and a day goes by. -/
def outageAndDay : List Event :=
  [.put room photo 5 none true, .tick (seconds (2 * unclaimedGraceSeconds))]

/-- The unclaimed collector. -/
def dailySweep : Event := .sweepUnclaimed home unclaimedGraceSeconds (fun _ => true)

theorem outage_deletes_named : ∃ relay after, Run (step plainCrypto (fun _ => home)) (unused .s3 0)
        (uploadAndName ++ outageAndDay) relay ∧
      relay.step plainCrypto (fun _ => home) dailySweep after ∧
      relay.Names room photo ∧
      relay.blob home room photo = some ⟨.blob home room photo, 5, some 0⟩ ∧
      after.blob home room photo = none := by
  refine ⟨afterAll plainCrypto (fun _ => home) (unused .s3 0) (uploadAndName ++ outageAndDay),
    afterAll plainCrypto (fun _ => home) (unused .s3 0)
      (uploadAndName ++ outageAndDay ++ [dailySweep]),
    (run_afterAll (p := fun _ _ => true) ?_).mono (fun _ _ _ h => h.1), ⟨trivial, rfl⟩, ?_, ?_, ?_⟩
  all_goals decide +kernel

/-- A PUT that is told the object is there, and the same day. -/
def repeatAndDay : List Event :=
  [.put room photo 5 none false, .tick (seconds (2 * unclaimedGraceSeconds))]

theorem sweep_spares_named :
    ∃ relay after, Run (informedStep plainCrypto (fun _ => home)) (unused .s3 0)
        (uploadAndName ++ repeatAndDay) relay ∧
      relay.step plainCrypto (fun _ => home) dailySweep after ∧
      relay.Names room photo ∧
      after.blob home room photo = some ⟨.blob home room photo, 5, some 0⟩ := by
  have hrun : Run (informedStep plainCrypto (fun _ => home)) (unused .s3 0)
      (uploadAndName ++ repeatAndDay)
      (afterAll plainCrypto (fun _ => home) (unused .s3 0) (uploadAndName ++ repeatAndDay)) := by
    refine run_afterAll ?_
    decide +kernel
  have hnames : (afterAll plainCrypto (fun _ => home) (unused .s3 0)
      (uploadAndName ++ repeatAndDay)).Names room photo := by
    decide +kernel
  refine ⟨_, _, hrun, ⟨trivial, rfl⟩, hnames, ?_⟩
  have hspared := collectors_spare_named dailySweep hrun rfl ⟨trivial, rfl⟩ hnames
  refine hspared.trans ?_
  decide +kernel

end Sample
end Relay
end WealdRelay.Media
