import Mathlib.Algebra.Ring.Int.Defs
import WealdRelay.Access.Set
import WealdRelay.Lib.Table
import WealdRelay.Lib.Transaction

/-!
# The media tables and their transactions

A workspace has one quota row, with the bytes it has stored, the bytes it has promised
to uploads in flight and its ceiling, and any number of reservation rows. A reservation
is taken before an upload URL is issued, moves from promised to stored when a retention
manifest first names its object, and leaves when it is released or its object deleted.

Each function of the store is the program of its statements, with `now()` the moment its
transaction began. A statement that locks, updates or deletes rows needs those rows.
-/

namespace WealdRelay.Media

open Lib

/-! ## Tables -/

/-- A quota row. No ceiling means unlimited. -/
structure Quota where
  storedBytes : Int
  reservedBytes : Int
  limitBytes : Option Int
deriving DecidableEq

/-- The largest 64-bit number. -/
def maxI64 : Int := 9223372036854775807

/-- The columns hold 64-bit numbers, and neither total may be negative. -/
def Quota.allowed (quota : Quota) : Bool :=
  0 ≤ quota.storedBytes && quota.storedBytes ≤ maxI64 &&
    0 ≤ quota.reservedBytes && quota.reservedBytes ≤ maxI64

/-- A reservation row. Times are microseconds. -/
structure Reservation where
  reservationId : Nat
  group : Bytes
  hash : Bytes
  bytes : Int
  createdAt : Int
  expiresAt : Int
  finalizedAt : Option Int
deriving DecidableEq

namespace Reservation

/-- A manifest has named the object. -/
def finalized (row : Reservation) : Bool := row.finalizedAt.isSome

/-- The object the row is for. -/
def slot (row : Reservation) : Bytes × Bytes := (row.group, row.hash)

/-- The row is for this object. -/
def isFor (group hash : Bytes) (row : Reservation) : Bool := row.slot = (group, hash)

/-- The row is for this object and no manifest has named it. -/
def inFlight (group hash : Bytes) (row : Reservation) : Bool :=
  row.isFor group hash && !row.finalized

/-- The row is for this object and a manifest has named it. -/
def settled (group hash : Bytes) (row : Reservation) : Bool :=
  row.isFor group hash && row.finalized

/-- The upload window has passed and no manifest has named the object. -/
def lapsed (now : Int) (row : Reservation) : Bool := !row.finalized && row.expiresAt < now

variable {g hash : Bytes} {row : Reservation}

theorem open_of_inFlight (h : row.inFlight g hash = true) : row.finalized = false := by
  simp only [inFlight, Bool.and_eq_true, Bool.not_eq_true'] at h
  exact h.2

theorem final_of_settled (h : row.settled g hash = true) : row.finalized = true := by
  simp only [settled, Bool.and_eq_true] at h
  exact h.2

end Reservation

/-- The rows of one workspace. -/
structure Ledger where
  quota : Option Quota
  rows : List Reservation
deriving DecidableEq

/-- The rows of every workspace. -/
abbrev Tables := Bytes → Ledger

/-- The tables before anything was written. -/
def noTables : Tables := fun _ => ⟨none, []⟩

/-- The row of a workspace under an id. -/
def Ledger.row (ledger : Ledger) (id : Nat) : Option Reservation :=
  Table.lookup Reservation.reservationId ledger.rows id

/-- A row that a transaction holds. -/
inductive Lock where
  | quota (workspace : Bytes)
  | row (workspace : Bytes) (id : Nat)
deriving DecidableEq

/-- What a statement leaves behind. -/
inductive Write where
  | putQuota (workspace : Bytes) (quota : Quota)
  | insertRow (workspace : Bytes) (row : Reservation)
  | putRow (workspace : Bytes) (row : Reservation)
  | deleteRow (workspace : Bytes) (id : Nat)
deriving DecidableEq

namespace Write

/-- The workspace a write is about. -/
@[simp]
def workspace : Write → Bytes
  | putQuota workspace _ => workspace
  | insertRow workspace _ => workspace
  | putRow workspace _ => workspace
  | deleteRow workspace _ => workspace

/-- The row a write is about. -/
def lock : Write → Lock
  | putQuota workspace _ => .quota workspace
  | insertRow workspace row => .row workspace row.reservationId
  | putRow workspace row => .row workspace row.reservationId
  | deleteRow workspace id => .row workspace id

/-- A write on the rows of its workspace. -/
@[simp]
def onLedger : Write → Ledger → Ledger
  | putQuota _ quota, ledger => { ledger with quota := some quota }
  | insertRow _ row, ledger => { ledger with rows := ledger.rows ++ [row] }
  | putRow _ row, ledger =>
    { ledger with rows := Table.put Reservation.reservationId ledger.rows row }
  | deleteRow _ id, ledger =>
    { ledger with rows := Table.remove Reservation.reservationId ledger.rows id }

/-- A write on the tables. -/
def apply (write : Write) (tables : Tables) : Tables :=
  Function.update tables write.workspace (write.onLedger (tables write.workspace))

end Write

/-! ## Statements -/

/-- Why a transaction is rolled back. -/
inductive Refusal where
  | database
  | overQuota
  | noReservation
  | notStale
deriving DecidableEq

/-- A transaction of the media store. -/
abbrev Tx := Prog Tables Write Lock Refusal

/-- The quota row, when there is one to hold. -/
def quotaLock (workspace : Bytes) (tables : Tables) : List Lock :=
  if (tables workspace).quota.isSome then [.quota workspace] else []

/-- The rows of a workspace that a `where` clause names. -/
def matching (workspace : Bytes) (p : Reservation → Bool) (tables : Tables) : List Reservation :=
  (tables workspace).rows.filter p

/-- The locks of the rows that a `where` clause names. -/
def rowLocks (workspace : Bytes) (p : Reservation → Bool) (tables : Tables) : List Lock :=
  (matching workspace p tables).map (fun row => .row workspace row.reservationId)

/-- `select … from relay_quota … for update`. -/
def selectQuotaForUpdate (workspace : Bytes) : Tx (Option Quota) :=
  .stmt (quotaLock workspace) (fun _ => []) (fun _ => false)
    (fun tables => .done (tables workspace).quota)

/-- `update relay_quota`, which does nothing without a row and fails on a value the
columns do not allow. `clamps` says when a `greatest` in it takes effect. -/
def updateQuota (workspace : Bytes) (clamps : Quota → Bool) (f : Quota → Quota) : Tx Unit :=
  .stmt (quotaLock workspace) (fun tables =>
      match (tables workspace).quota with
      | none => []
      | some quota => if (f quota).allowed then [.putQuota workspace (f quota)] else [])
    (fun tables => (tables workspace).quota.any clamps)
    (fun tables =>
      match (tables workspace).quota with
      | none => .done ()
      | some quota => if (f quota).allowed then .done () else .abort .database)

/-- `select` on the reservations. -/
def selectRows (workspace : Bytes) (p : Reservation → Bool) : Tx (List Reservation) :=
  .stmt (fun _ => []) (fun _ => []) (fun _ => false)
    (fun tables => .done (matching workspace p tables))

/-- `select … for update` on the reservations. -/
def selectRowsForUpdate (workspace : Bytes) (p : Reservation → Bool) : Tx (List Reservation) :=
  .stmt (rowLocks workspace p) (fun _ => []) (fun _ => false)
    (fun tables => .done (matching workspace p tables))

/-- `update … returning` on the reservations. -/
def updateRows (workspace : Bytes) (p : Reservation → Bool) (f : Reservation → Reservation) :
    Tx (List Reservation) :=
  .stmt (rowLocks workspace p)
    (fun tables => (matching workspace p tables).map (fun row => .putRow workspace (f row)))
    (fun _ => false) (fun tables => .done (matching workspace p tables))

/-- `delete … returning` on the reservations. -/
def deleteRows (workspace : Bytes) (p : Reservation → Bool) : Tx (List Reservation) :=
  .stmt (rowLocks workspace p) (fun tables =>
      (matching workspace p tables).map (fun row => .deleteRow workspace row.reservationId))
    (fun _ => false) (fun tables => .done (matching workspace p tables))

/-- Two gibibytes, the most one reservation may be for. -/
def blobLimit : Int := 2147483648

/-- The constraints of the reservation table: the quota row exists, the id is free, the
bytes are in range, and no other upload of the object is in flight. -/
def insertable (row : Reservation) (ledger : Ledger) : Bool :=
  ledger.quota.isSome && (ledger.row row.reservationId).isNone && 0 < row.bytes &&
    row.bytes ≤ blobLimit && (ledger.rows.filter (·.inFlight row.group row.hash)).isEmpty

/-- `insert` of a reservation. -/
def insertRow (workspace : Bytes) (row : Reservation) : Tx Unit :=
  .stmt (fun _ => [.row workspace row.reservationId]) (fun tables =>
      if insertable row (tables workspace) then [.insertRow workspace row] else [])
    (fun _ => false)
    (fun tables => if insertable row (tables workspace) then .done () else .abort .database)

/-! ## The functions of the store -/

/-- The answers of `reserve` that are not refusals. -/
inductive Reserved where
  | alreadyStored
  | active (reservationId : Nat)
deriving DecidableEq

/-- The outcomes of a claim. -/
inductive ClaimOutcome where
  | claimed
  | alreadyClaimed
  | noReservation
deriving DecidableEq

/-- A number of seconds, in microseconds. -/
def seconds (n : Int) : Int := n * 1000000

/-- Addition that stops at the ends of the 64-bit range. -/
def saturatingAdd (a b : Int) : Int := max (-maxI64 - 1) (min (a + b) maxI64)

/-- Addition on 64 bits, which wraps around in a release build. -/
def wrappingAdd (a b : Int) : Int := (a + b).bmod 18446744073709551616

/-- The bytes of some rows. -/
def totalBytes (rows : List Reservation) : Int := (rows.map (·.bytes)).sum

/-- `ensure_quota_row`: make sure there is a row, and fill in a missing ceiling. -/
def ensureQuotaRow (workspace : Bytes) (limit : Option Int) : Tx Unit :=
  .stmt (fun _ => [.quota workspace]) (fun tables =>
      match (tables workspace).quota with
      | none => [.putQuota workspace ⟨0, 0, limit⟩]
      | some quota =>
        [.putQuota workspace { quota with limitBytes := quota.limitBytes.or limit }])
    (fun _ => false) (fun _ => .done ())

/-- `set_quota_limit`: write the ceiling an operator names. -/
def setQuotaLimit (workspace : Bytes) (limit : Option Int) : Tx Unit :=
  .stmt (fun _ => [.quota workspace]) (fun tables =>
      match (tables workspace).quota with
      | none => [.putQuota workspace ⟨0, 0, limit⟩]
      | some quota => [.putQuota workspace { quota with limitBytes := limit }])
    (fun _ => false) (fun _ => .done ())

/-- Give the bytes of retired rows back to the workspace; the bytes stored after that. -/
def reclaim (workspace : Bytes) (quota : Quota) (stale : List Reservation) : Tx Int :=
  if stale.isEmpty then .done quota.storedBytes
  else
    let reclaimed := stale.foldl (fun total row => saturatingAdd total row.bytes) 0
    (updateQuota workspace (fun quota => quota.storedBytes < reclaimed)
      (fun quota => { quota with storedBytes := max (quota.storedBytes - reclaimed) 0 })).bind
      (fun _ => .done (max (quota.storedBytes - reclaimed) 0))

/-- The promised bytes that still count: those of lapsed reservations do not. -/
def liveReserved (workspace : Bytes) (quota : Quota) (now : Int) : Tx Int :=
  .stmt (fun _ => []) (fun _ => []) (fun tables =>
      quota.reservedBytes < totalBytes (matching workspace (·.lapsed now) tables))
    (fun tables =>
      .done (max (quota.reservedBytes - totalBytes (matching workspace (·.lapsed now) tables)) 0))

/-- The upload would take the workspace over its ceiling. -/
def overLimit (limit : Option Int) (stored reserved bytes : Int) : Bool :=
  limit.any (fun limit => limit < wrappingAdd (wrappingAdd stored reserved) bytes)

/-- The row of a new reservation. -/
def newReservation (group hash : Bytes) (bytes ttlSeconds : Int) (id : Nat) (now : Int) :
    Reservation :=
  { reservationId := id, group, hash, bytes, createdAt := now
    expiresAt := now + seconds ttlSeconds, finalizedAt := none }

/-- Retire every final row of an object that is not in the store; the bytes stored after
that. -/
def retire (workspace group hash : Bytes) (quota : Quota) : Tx Int := do
  let stale ← deleteRows workspace (·.settled group hash)
  reclaim workspace quota stale

/-- Compare a new upload with the ceiling, and charge it. -/
def charge (workspace group hash : Bytes) (bytes ttlSeconds : Int) (id : Nat) (now : Int)
    (quota : Quota) (stored : Int) : Tx Reserved := do
  let reserved ← liveReserved workspace quota now
  if overLimit quota.limitBytes stored reserved bytes then .abort .overQuota
  else do
    insertRow workspace (newReservation group hash bytes ttlSeconds id now)
    updateQuota workspace (fun _ => false)
      (fun quota => { quota with reservedBytes := quota.reservedBytes + bytes })
    return .active id

/-- The row after a repeated request has renewed its upload window. -/
def refreshed (ttlSeconds now : Int) (row : Reservation) : Reservation :=
  { row with expiresAt := now + seconds ttlSeconds, createdAt := now }

/-- `reserve`: take or renew the reservation of one object. -/
def reserve (workspace group hash : Bytes) (bytes : Int) (alreadyStored : Bool)
    (ttlSeconds : Int) (id : Nat) (now : Int) : Tx Reserved :=
  if alreadyStored then .done .alreadyStored
  else do
    match ← selectQuotaForUpdate workspace with
    | none => .abort .database
    | some quota =>
      match (← selectRowsForUpdate workspace (·.inFlight group hash)).head? with
      | some existing => do
          let _ ← updateRows workspace (·.reservationId = existing.reservationId)
            (refreshed ttlSeconds now)
          return .active existing.reservationId
      | none => do
          let stored ← retire workspace group hash quota
          charge workspace group hash bytes ttlSeconds id now quota stored

/-- The row once a manifest has named the object. -/
def Reservation.claimedAt (now : Int) (row : Reservation) : Reservation :=
  { row with finalizedAt := some now }

/-- `claim_in`: the object's reservation becomes final and its bytes stored. -/
def claimIn (workspace group hash : Bytes) (now : Int) : Tx ClaimOutcome := do
  let claimed ← updateRows workspace (·.inFlight group hash) (·.claimedAt now)
  match claimed.head? with
  | some row => do
      updateQuota workspace (fun quota => quota.reservedBytes < row.bytes) (fun quota =>
          { quota with
            reservedBytes := max (quota.reservedBytes - row.bytes) 0
            storedBytes := quota.storedBytes + row.bytes })
      return .claimed
  | none => do
      let present ← selectRows workspace (·.isFor group hash)
      return if present.isEmpty then .noReservation else .alreadyClaimed

/-- The claims of a manifest, all or none. -/
def claimAll (workspace group : Bytes) (now : Int) : List Bytes → Tx Unit
  | [] => .done ()
  | hash :: hashes => do
      match ← claimIn workspace group hash now with
      | .noReservation => .abort .noReservation
      | _ => claimAll workspace group now hashes

/-- `release_in`: a reservation that is not final leaves, with its promise. -/
def releaseIn (workspace : Bytes) (id : Nat) : Tx (Option Int) := do
  let gone ← deleteRows workspace (fun row => row.reservationId = id && !row.finalized)
  match gone.head? with
  | none => return none
  | some row => do
      updateQuota workspace (fun quota => quota.reservedBytes < row.bytes) (fun quota =>
          { quota with reservedBytes := max (quota.reservedBytes - row.bytes) 0 })
      return some row.bytes

/-- The row is a candidate of the unclaimed collector. -/
def Reservation.stale (graceSeconds now : Int) (row : Reservation) : Bool :=
  !row.finalized && row.createdAt < now - seconds graceSeconds

/-- `lock_unclaimed`: hold the quota row and the candidate, if it still is one. A row
that somebody else holds is skipped, which ends the collector's transaction as a
rollback does. -/
def lockUnclaimed (workspace : Bytes) (id : Nat) (graceSeconds now : Int) : Tx Bool := do
  let _ ← selectQuotaForUpdate workspace
  let held ← selectRowsForUpdate workspace
    (fun row => row.reservationId = id && row.stale graceSeconds now)
  return !held.isEmpty

/-- The transaction of the unclaimed collector on one candidate, whose object is deleted
between the lock and the release. -/
def sweepUnclaimed (workspace : Bytes) (id : Nat) (graceSeconds now : Int) : Tx Unit := do
  if ← lockUnclaimed workspace id graceSeconds now then do
    match ← releaseIn workspace id with
    | some _ => return ()
    | none => .abort .notStale
  else .abort .notStale

/-- `finish_deletion`: a final reservation whose object is gone leaves, with its bytes. -/
def finishDeletion (workspace : Bytes) (id : Nat) : Tx Unit := do
  let gone ← deleteRows workspace (fun row => row.reservationId = id && row.finalized)
  match gone.head? with
  | none => return ()
  | some row => do
      updateQuota workspace (fun quota => quota.storedBytes < row.bytes)
        (fun quota => { quota with storedBytes := max (quota.storedBytes - row.bytes) 0 })
      return ()

end WealdRelay.Media
