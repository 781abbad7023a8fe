import WealdRelay.Envelope

/-!
# The envelope log in the database

The rows behind `accept.rs`, `log.rs` and `lifecycle/store.rs`: the groups with their
counters, the envelopes, the byte counter of each workspace with its two triggers, and
the anchors of the checkpoints. The statements of one transaction are combined here
into what the transaction leaves behind when it commits; `Log/Accept.lean` takes them
apart.

A `bigint` that Rust fills with `as i64` is an `Int`. The sequence number is a `Nat`
because the schema keeps it at one or more.
-/

namespace WealdRelay.Log

open Lib

/-- The first number a `bigint` cannot hold. -/
def bigintBound : Nat := 9223372036854775808

/-- `value as i64`: the 64 bits of the value, read as a signed number. -/
def asI64 (value : Nat) : Int :=
  let bits := value % 18446744073709551616
  if bits < bigintBound then bits else (bits : Int) - 18446744073709551616

/-- `u64::try_from(value).unwrap_or_default()`. -/
def toU64 (value : Int) : Nat := value.toNat

/-- A row of `relay_group`. -/
structure GroupRow where
  workspaceId : Bytes
  nextSeq : Nat
  frozen : Bool
deriving DecidableEq

/-- A row of `relay_envelope`. -/
structure EnvelopeRow where
  groupId : Bytes
  hash : Bytes
  v : Nat
  enc : Nat
  epoch : Int
  seq : Nat
  ts : Int
  ct : Bytes
deriving DecidableEq

/-- A row of `relay_checkpoint_anchor`. -/
structure AnchorRow where
  groupId : Bytes
  manifestHash : Bytes
  hash : Bytes
deriving DecidableEq

/-- The tables. A workspace without a budget row has used nothing. -/
structure Db where
  groups : Bytes → Option GroupRow
  envelopes : List EnvelopeRow
  used : Bytes → Nat
  anchors : List AnchorRow

/-! ## Accepting -/

/-- `existing_seq`: the number an address is stored under. -/
def existingSeq (db : Db) (group hash : Bytes) : Option Nat :=
  (db.envelopes.find? (fun row => row.groupId = group ∧ row.hash = hash)).map (·.seq)

/-- The values `accept` binds to its insert. -/
def rowOf (e : Envelope) (seq now : Nat) : EnvelopeRow where
  groupId := e.group
  hash := e.hash
  v := e.v
  enc := e.enc.toNat
  epoch := asI64 e.epoch
  seq := seq
  ts := asI64 now
  ct := e.ct

/-- `on conflict do nothing` names no key, so either unique index stops the insert. -/
def conflicts (db : Db) (group hash : Bytes) (seq : Nat) : Bool :=
  db.envelopes.any (fun row => row.groupId = group ∧ (row.hash = hash ∨ row.seq = seq))

/-- `update relay_group set next_seq = next_seq + 1`. -/
def advance (db : Db) (group : Bytes) : Db :=
  { db with
    groups := Function.update db.groups group
      ((db.groups group).map (fun row => { row with nextSeq := row.nextSeq + 1 })) }

/-- The insert, with the trigger that charges the workspace. -/
def insert (db : Db) (workspace : Bytes) (row : EnvelopeRow) : Db :=
  { db with
    envelopes := db.envelopes ++ [row]
    used := Function.update db.used workspace (db.used workspace + row.ct.length) }

/-- Would a workspace holding `used` bytes be over the limit? -/
def overBudget (used : Nat) : Option Nat → Bool
  | none => false
  | some limit => limit < used

/-! ## Compacting -/

/-- What one `drop_before` names. -/
structure Drop where
  group : Bytes
  manifestHash : Bytes
  barrierSeq : Nat
  snapshots : List Bytes
deriving DecidableEq

/-- The anchors a drop records: the checkpoint's own envelope and its snapshots. -/
def Drop.anchors (d : Drop) : List AnchorRow :=
  (d.manifestHash :: d.snapshots).map (fun hash => ⟨d.group, d.manifestHash, hash⟩)

/-- An envelope under the barrier; the barrier is bound with `as i64`. -/
def Drop.below (d : Drop) (row : EnvelopeRow) : Bool :=
  row.groupId = d.group ∧ (row.seq : Int) < asI64 d.barrierSeq

/-- Does a checkpoint of the group, this one included, anchor the envelope? -/
def Drop.anchored (d : Drop) (db : Db) (row : EnvelopeRow) : Bool :=
  (db.anchors ++ d.anchors).any (fun anchor =>
    anchor.groupId = row.groupId ∧ anchor.hash = row.hash)

/-- The rows the delete selects in the database it sees. -/
def Drop.doomed (d : Drop) (db : Db) : List EnvelopeRow :=
  db.envelopes.filter (fun row => d.below row && !d.anchored db row)

def ctBytes (rows : List EnvelopeRow) : Nat := (rows.map (·.ct.length)).sum

/-- What one accepted `drop_before` did. -/
structure DropOutcome where
  deleted : Nat
  bytes : Nat
  kept : Int
deriving DecidableEq

/-- The anchors, recorded once. -/
def record (db : Db) (anchors : List AnchorRow) : Db :=
  { db with anchors := db.anchors ++ anchors.filter (fun anchor => anchor ∉ db.anchors) }

/-- The delete, with the trigger that credits the workspace and floors at zero. -/
def remove (db : Db) (workspace : Option Bytes) (gone : List EnvelopeRow) : Db :=
  { db with
    envelopes := db.envelopes.filter (fun row => row ∉ gone)
    used :=
      match workspace with
      | none => db.used
      | some workspace =>
        Function.update db.used workspace (db.used workspace - ctBytes gone) }

/-! ## Reading back -/

/-- A row as the envelope the wire carries. -/
def rowEnvelope (row : EnvelopeRow) : Envelope where
  v := if row.v < 256 then row.v else envelopeVersion
  enc := (Encryption.fromU8 (if row.enc < 256 then row.enc else 0)).getD .none
  group := row.groupId
  epoch := toU64 row.epoch
  seq := row.seq
  ts := toU64 row.ts
  hash := row.hash
  ct := row.ct

/-- One row, as envelope bytes. -/
def encodeRow (row : EnvelopeRow) : Bytes := (rowEnvelope row).encode

/-- The most envelopes one `SUB` reads. -/
def maxBackfill : Nat := 4096

/-- Stop after the row that crosses the byte allowance. -/
def cutAt (maxBytes : Nat) : Nat → List EnvelopeRow → List EnvelopeRow
  | _, [] => []
  | spent, row :: rows =>
    let spent := spent + (encodeRow row).length
    if maxBytes < spent then [row] else row :: cutAt maxBytes spent rows

/-- The rows `since` serves, ascending from the cursor. -/
def sinceRows (db : Db) (group : Bytes) (fromSeq maxRows maxBytes : Nat) : List EnvelopeRow :=
  let limit := min maxRows maxBackfill
  let selected := (db.envelopes.filter (fun row =>
    row.groupId = group ∧ min fromSeq (bigintBound - 1) ≤ row.seq)).insertionSort
      (fun a b => a.seq ≤ b.seq)
  cutAt maxBytes 0 (selected.take limit)

/-- `since`: the backfill of a subscription. -/
def since (db : Db) (group : Bytes) (fromSeq maxRows maxBytes : Nat) : List Bytes :=
  (sinceRows db group fromSeq maxRows maxBytes).map encodeRow

/-- Serve the wanted addresses in order, each at most once. -/
def serve : List Bytes → List (Bytes × Bytes) → List (Bytes × Bytes)
  | [], _ => []
  | id :: ids, found =>
    match found.find? (fun entry => entry.1 = id) with
    | none => serve ids found
    | some entry => entry :: serve ids (found.filter (fun other => other.1 ≠ id))

/-- `envelopes_for`: the pushes of a reconciliation round. -/
def envelopesFor (db : Db) (group : Bytes) (ids : List Bytes) : List (Bytes × Bytes) :=
  serve ids ((db.envelopes.filter (fun row => row.groupId = group ∧ row.hash ∈ ids)).map
    (fun row => (row.hash, encodeRow row)))

/-- `deliver`: the bytes of one accepted envelope, fanned out live. -/
def deliver (e : Envelope) (seq now : Nat) : Bytes :=
  { e with seq := seq, ts := now }.encode

end WealdRelay.Log
