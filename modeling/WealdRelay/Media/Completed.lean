import WealdRelay.Media.Sessions
import WealdRelay.Retention.OneChain

/-!
# Completed uploads

Once a COMPLETE has assembled an object, its reservation stays in place and the object in
the store until a manifest claims it or the unclaimed collector finds it older than its
grace period, as long as no other session of that reservation is aborted.

A reservation has as many sessions as it was asked for, and aborting one of them releases
the reservation they share. The guard against aborting a completed session looks at the
flags of that session alone.
-/

namespace WealdRelay.Media

open Lib Retention

namespace Relay

/-- Some session of this reservation is completed. -/
def completedUnder (relay : Relay) (workspace : Bytes) (reservationId : Nat) : Bool :=
  relay.sessions.any (fun session => session.completed && session.workspace = workspace &&
    session.reservationId = reservationId)

/-- An ABORT of an open session, none of whose siblings is completed. -/
def sparesSiblings (relay : Relay) : Event → Bool
  | .abort id _ =>
    (relay.session id).all (fun session => session.completed || session.aborted ||
      !relay.completedUnder session.workspace session.reservationId)
  | _ => true

section Completed

variable {c : Access.Crypto} {workspaceOf : Bytes → Bytes} {relay after : Relay} {event : Event}
  {workspace group hash : Bytes} {id : Nat}

/-- The reservation is in place, no manifest has claimed it, and the object is stored. -/
def Holds (workspace group hash : Bytes) (id : Nat) (relay : Relay) : Prop :=
  (∃ row, relay.rowOf workspace group hash = some row ∧ row.reservationId = id ∧
    row.finalized = false) ∧ (relay.blob workspace group hash).isSome = true

/-- The event is not a pass of the unclaimed collector that finds the row too old. -/
def withinGrace (workspace group hash : Bytes) (relay : Relay) : Event → Bool
  | .sweepUnclaimed inside graceSeconds _ =>
    inside ≠ workspace ||
      (relay.rowOf workspace group hash).all (fun row => !row.stale graceSeconds relay.clock)
  | _ => true

variable (c workspaceOf) in
/-- A step that aborts no sibling of a completed session. -/
def siblingStep (relay : Relay) (event : Event) (after : Relay) : Prop :=
  relay.step c workspaceOf event after ∧ relay.sparesSiblings event = true

variable (c workspaceOf workspace group hash) in
/-- Such a step before a manifest claims the object and within its grace period. -/
def pendingStep (relay : Relay) (event : Event) (after : Relay) : Prop :=
  siblingStep c workspaceOf relay event after ∧
    relay.withinGrace workspace group hash event = true ∧
    ∀ row, after.rowOf workspace group hash = some row → row.finalized = false

variable {reservationId : Nat}

theorem completedUnder_iff : relay.completedUnder workspace reservationId = true ↔
      ∃ sess ∈ relay.sessions, sess.completed = true ∧ sess.workspace = workspace ∧
        sess.reservationId = reservationId := by
  simp [completedUnder, and_assoc]

theorem completedUnder_after (event : Event) (ht : Tidy relay.tables)
    (hnum : Numbered relay) (h : relay.completedUnder workspace reservationId = true) :
    (relay.after c workspaceOf event).completedUnder workspace reservationId = true := by
  obtain ⟨sess, hsess, hdone, hr⟩ := completedUnder_iff.mp h
  refine completedUnder_iff.mpr ⟨sess, ?_, hdone, hr⟩
  rcases after_sessions c workspaceOf event ht hnum.nodup with
    ⟨hrevised, -⟩ | ⟨new, hopened, -⟩
  · exact hrevised.completed hsess hdone
  · rw [hopened]
    exact List.mem_append_left _ hsess

/-- The row stays under its id, and no manifest has claimed it unless it does so now. -/
theorem holds_row {row row' old}
    (hs : RowStep workspaceOf relay workspace group hash event row row')
    (hrow : row = some old) (hlookup : relay.rowOf workspace group hash = row)
    (hopen : old.finalized = false)
    (hdone : relay.completedUnder workspace old.reservationId = true)
    (hsiblings : relay.sparesSiblings event = true)
    (hgrace : relay.withinGrace workspace group hash event = true) :
    ∃ new, row' = some new ∧ new.reservationId = old.reservationId ∧
      (new.finalized = false ∨ new = old.claimed relay.clock) := by
  cases hs with
  | kept => exact ⟨old, hrow, rfl, .inl hopen⟩
  | requested _ len lim headFails _ _ _ =>
    have hrefreshed : .requested group hash len presignTtlSeconds relay.nextId
        relay.clock row = refreshed presignTtlSeconds relay.clock old := by
      simp [hrow, Reservation.requested, hopen]
    exact ⟨_, congrArg some hrefreshed, rfl, .inl hopen⟩
  | claimed _ rec fs _ _ _ =>
    cases hrow
    refine ⟨_, rfl, ?_, .inr rfl⟩
    simp [Reservation.claimed, hopen, Reservation.claimedAt]
  | released sess _ clears hsess hws hundone hunaborted hid _ =>
    cases hrow
    subst hws
    rw [hid] at hdone
    simp [sparesSiblings, hsess, hundone, hunaborted, hdone] at hsiblings
  | swept _ grace clears hstale =>
    cases hrow
    simp [withinGrace, hlookup, hstale] at hgrace
  | retired _ clears _ hfinal _ =>
    cases hrow
    rw [hopen] at hfinal
    cases hfinal

theorem holds_object {object object' old}
    (hs : ObjectStep workspaceOf relay workspace group hash (some old) event object object')
    (hstored : object.isSome = true) (hlookup : relay.rowOf workspace group hash = some old)
    (hopen : old.finalized = false)
    (hgrace : relay.withinGrace workspace group hash event = true) : object'.isSome = true := by
  cases hs with
  | kept => exact hstored
  | uploaded => rfl
  | completed => rfl
  | swept _ row grace clears hrow hstale =>
    cases hrow
    simp [withinGrace, hlookup, hstale] at hgrace
  | unknown _ minAgeSeconds suppressed listFails clears _ hrow => cases hrow
  | retired _ row clears _ hrow hfinal _ =>
    cases hrow
    rw [hopen] at hfinal
    cases hfinal

theorem Holds.step (ht : Tidy relay.tables) (hdone : relay.completedUnder workspace id = true)
    (h : Holds workspace group hash id relay)
    (hs : pendingStep c workspaceOf workspace group hash relay event after) :
    Holds workspace group hash id after := by
  obtain ⟨⟨⟨-, rfl⟩, hsiblings⟩, hgrace, hpend⟩ := hs
  obtain ⟨⟨row, hrow, rfl, hopen⟩, hstored⟩ := h
  obtain ⟨hrows, hobject⟩ := (after_local c workspaceOf event ht).2 workspace group hash
  refine ⟨?_, ?_⟩
  · obtain ⟨new, hnew, hid, -⟩ := holds_row hrows hrow rfl hopen hdone hsiblings hgrace
    exact ⟨new, hnew, hid, hpend new hnew⟩
  · rw [hrow] at hobject
    exact holds_object hobject hstored hrow hopen hgrace

/-- A COMPLETE that closes its session has assembled the object. -/
theorem holds_completed {ns} {fs : Key → Option Fault} {clears : Key → Bool}
    {sess row} (ht : Tidy relay.tables) (hf : relay.findMultipart id = some (sess, row))
    (hundone : sess.completed = false) (hopen : row.finalized = false)
    (hans : (relay.handleMultipartComplete id ns fs clears).2 = .multipartCompleted) :
    Holds sess.workspace row.group row.hash row.reservationId
        (relay.handleMultipartComplete id ns fs clears).1 ∧
      (relay.handleMultipartComplete id ns fs clears).1.completedUnder sess.workspace
        row.reservationId = true := by
  obtain ⟨hsess, hres, hrow⟩ := findMultipart_some ht hf
  rcases handleMultipartComplete_cases id ns fs clears with
    ⟨ans, hcomplete, hreplay⟩ | ⟨session', row', hfound', -, -, hcomplete⟩
  · rw [hcomplete] at hans
    obtain ⟨session', row', hfound', hdone⟩ := hreplay hans
    cases hf.symm.trans hfound'
    rw [hundone] at hdone
    cases hdone
  · cases hf.symm.trans hfound'
    rw [hcomplete]
    refine ⟨⟨⟨row, hrow, rfl, hopen⟩, ?_⟩, completedUnder_iff.mpr ?_⟩
    · simp [blob, get_deleteParts, Storage.get_put]
    · refine ⟨{ sess with completed := true }, ?_, rfl, rfl, hres.symm⟩
      exact List.mem_map.mpr ⟨sess, Table.mem_of_lookup hsess, if_pos rfl⟩

/-- In every run that aborts no sibling of a completed session: once a COMPLETE has
assembled an object that no manifest has claimed, its reservation stays and the object
stays, until a manifest claims it or the unclaimed collector finds it too old. -/
theorem completed_upload_held
    {backend : Backend}
    {clock : Int}
    {events later : List Event}
    {numbers : List Nat}
    {faults : Key → Option Fault}
    {clears : Key → Bool}
    {session : Session}
    {row : Reservation}
    {middle : Relay}
    (hrun : Run (siblingStep c workspaceOf) (unused backend clock) events relay)
    (hfound : relay.findMultipart id = some (session, row))
    (hundone : session.completed = false)
    (hopen : row.finalized = false)
    (hanswer : relay.answer c workspaceOf (.complete id numbers faults clears) =
      (middle, some .multipartCompleted))
    (hlater : Run (pendingStep c workspaceOf session.workspace row.group row.hash) middle later
      after) :
    Holds session.workspace row.group row.hash row.reservationId after := by
  obtain ⟨ht, hnumbered⟩ := numbered_run c workspaceOf (hrun.mono (fun _ _ _ h => h.1))
  obtain ⟨hheld, hdone⟩ := holds_completed ht hfound hundone hopen
    (Option.some.inj (congrArg Prod.snd hanswer))
  have hmiddle : relay.after c workspaceOf (.complete id numbers faults clears) = middle :=
    congrArg Prod.fst hanswer
  rw [show (relay.handleMultipartComplete id numbers faults clears).1 = middle from hmiddle]
    at hheld hdone
  have hstart : (Tidy middle.tables ∧ Numbered middle) ∧
      middle.completedUnder session.workspace row.reservationId = true ∧
      Holds session.workspace row.group row.hash row.reservationId middle := by
    rw [← hmiddle] at hheld hdone ⊢
    exact ⟨⟨(after_local c workspaceOf _ ht).1, hnumbered.step c workspaceOf _ ht⟩, hdone,
      hheld⟩
  refine (Run.invariant (I := fun relay => (Tidy relay.tables ∧ Numbered relay) ∧
    relay.completedUnder session.workspace row.reservationId = true ∧
    Holds session.workspace row.group row.hash row.reservationId relay)
    (fun relay event after h hs => ?_) hlater hstart).2.2
  obtain ⟨⟨ht, hnumbered⟩, hdone, hheld⟩ := h
  have hnext := hheld.step ht hdone hs
  obtain ⟨⟨⟨-, rfl⟩, -⟩, -⟩ := hs
  exact ⟨⟨(after_local c workspaceOf event ht).1, hnumbered.step c workspaceOf event ht⟩,
    completedUnder_after event ht hnumbered hdone, hnext⟩

end Completed

section Sample

/-- The URL of one part of session 1. -/
def partUrl (number : Nat) (len : Int) : Url :=
  ⟨.part 1 number, some len, home, room, photo, 0, seconds presignTtlSeconds⟩

/-- An object of 64 MiB and a byte is asked for twice, which opens sessions 1 and 3 of one
reservation, and both parts of session 1 are uploaded. -/
def twoSessions : List Event :=
  [.put room photo 67108865 none false, .put room photo 67108865 none false,
    .part 1 1 67108864, .part 1 2 1, .upload (partUrl 1 67108864) 67108864,
    .upload (partUrl 2 1) 1]

/-- Session 1 is completed. -/
def completeFirst : Event := .complete 1 [1, 2] (fun _ => none) (fun _ => true)

/-- Session 3 is aborted and the storage sweep passes. -/
def abortSecond : List Event :=
  [.abort 3 (fun _ => true), .sweepUnreferenced room 0 false false (fun _ => true)]

/-- The session that is completed, and the reservation. -/
def firstSession : Session :=
  ⟨1, home, 0, multipartPartSize, seconds presignTtlSeconds, false, false⟩

def sharedReservation : Reservation :=
  ⟨0, room, photo, 67108865, 0, seconds presignTtlSeconds, none⟩

/-- The relay before COMPLETE, and after it. -/
def beforeComplete : Relay := afterAll plainCrypto (fun _ => home) (unused .s3 0) twoSessions

def afterComplete : Relay := beforeComplete.after plainCrypto (fun _ => home) completeFirst

theorem completeFirst_answer : beforeComplete.answer plainCrypto (fun _ => home) completeFirst =
    (afterComplete, some .multipartCompleted) := by
  have hans : (beforeComplete.answer plainCrypto (fun _ => home) completeFirst).2 =
      some .multipartCompleted := by
    decide +kernel
  rw [← hans]
  rfl

theorem completed_upload_lost :
    ∃ after, Run (step plainCrypto (fun _ => home)) (unused .s3 0) twoSessions beforeComplete ∧
      beforeComplete.findMultipart 1 = some (firstSession, sharedReservation) ∧
      beforeComplete.answer plainCrypto (fun _ => home) completeFirst =
        (afterComplete, some .multipartCompleted) ∧
      Run (step plainCrypto (fun _ => home)) afterComplete abortSecond after ∧
      (afterComplete.blob home room photo).isSome = true ∧
      after.rowOf home room photo = none ∧ after.blob home room photo = none := by
  refine ⟨afterAll plainCrypto (fun _ => home) afterComplete abortSecond,
    (run_afterAll (p := fun _ _ => true) ?_).mono (fun _ _ _ h => h.1), ?_, completeFirst_answer,
    (run_afterAll (p := fun _ _ => true) ?_).mono (fun _ _ _ h => h.1), ?_, ?_, ?_⟩
  all_goals decide +kernel

/-- Both sweeps pass. -/
def bothSweeps : List Event :=
  [.sweepUnreferenced room 0 false false (fun _ => true),
    .sweepUnclaimed home unclaimedGraceSeconds (fun _ => true)]

theorem completed_upload_survives_sweeps :
    ∃ after, Run (siblingStep plainCrypto (fun _ => home)) (unused .s3 0) twoSessions
        beforeComplete ∧
      beforeComplete.answer plainCrypto (fun _ => home) completeFirst =
        (afterComplete, some .multipartCompleted) ∧
      Run (pendingStep plainCrypto (fun _ => home) home room photo) afterComplete bothSweeps after ∧
      Holds home room photo 0 after := by
  have hrun : Run (siblingStep plainCrypto (fun _ => home)) (unused .s3 0) twoSessions
      beforeComplete := by
    refine run_afterAll ?_
    decide +kernel
  have hf : beforeComplete.findMultipart 1 = some (firstSession, sharedReservation) := by
    decide +kernel
  have hlater : Run (pendingStep plainCrypto (fun _ => home) home room photo) afterComplete
      bothSweeps (afterAll plainCrypto (fun _ => home) afterComplete bothSweeps) := by
    refine (run_afterAll (p := fun relay event => relay.sparesSiblings event &&
      relay.withinGrace home room photo event &&
      ((relay.after plainCrypto (fun _ => home) event).rowOf home room photo).all
        (fun row => !row.finalized)) (by decide +kernel)).mono (fun relay event after h => ?_)
    simp only [Bool.and_eq_true] at h
    obtain ⟨hs, ⟨hsiblings, hgrace⟩, hopen⟩ := h
    refine ⟨⟨hs, hsiblings⟩, hgrace, fun row hrow => ?_⟩
    rw [hs.2] at hrow
    simpa [hrow] using hopen
  have hheld := completed_upload_held hrun hf rfl rfl completeFirst_answer hlater
  exact ⟨_, hrun, completeFirst_answer, hlater, hheld⟩

end Sample
end Relay
end WealdRelay.Media
