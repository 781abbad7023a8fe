import WealdRelay.Log.Accept
import WealdRelay.Retention.Manifest

/-!
# Text compaction

`lifecycle/mod.rs`: one signed `drop_before` of a group. It is judged by the freeze, by
the newest settled control, by the policy or destruction record it names and by the
envelopes the log holds, in that order; then one transaction records its anchors and
deletes what lies below the checkpoint and is no anchor.
-/

namespace WealdRelay.Lifecycle

open Lib Retention

/-- One compaction instruction, as published. -/
structure DropBefore where
  group : Bytes
  manifestHash : Bytes
  snapshots : List Bytes
  epoch : Nat
  policyVersion : Option Nat
  destructionDigest : Option Bytes
  sig : Bytes
deriving DecidableEq

/-- What the signature covers. -/
def DropBefore.signingBytes (record : DropBefore) : Bytes :=
  Cbor.array [Cbor.bytes record.group, Cbor.bytes record.manifestHash,
    Access.encodeList record.snapshots, Cbor.uint record.epoch,
    Cbor.optionalBytes (record.policyVersion.map (Cbor.beBytes 8)),
    Cbor.optionalBytes record.destructionDigest]

/-- Why an instruction is not carried out. -/
inductive Refusal where
  | groupFrozen
  | noChain
  | staleEpoch (latest : Nat)
  | badSignature
  | noAuthorization
  | authorizationNotDue
  | incompleteManifest (missing : Nat)
deriving DecidableEq

section Judge

variable (c : Access.Crypto)

/-- What is wrong with an instruction in the light of the newest control. -/
def refusedByControl (record : DropBefore) (latest : Option RetentionControl) : Option Refusal :=
  match standing c record.epoch record.signingBytes record.sig latest with
  | .noControl => some .noChain
  | .otherEpoch latest => some (.staleEpoch latest)
  | .badSignature => some .badSignature
  | .current => none

/-- An authorization is due once its `not_before` has passed. -/
def refusedBefore (now notBefore : Nat) : Option Refusal :=
  if notBefore ≤ now then none else some .authorizationNotDue

/-- `authorization`: the active policy, if the instruction names its version, or the
destruction record it names. -/
def authorization (record : DropBefore) (now : Nat) (records : Records) : Option Refusal :=
  match record.policyVersion with
  | some version =>
    match records.activePolicy with
    | none => some .noAuthorization
    | some policy =>
      if policy.version ≠ version then some .noAuthorization
      else refusedBefore now policy.notBeforeSecs
  | none =>
    match record.destructionDigest with
    | none => some .noAuthorization
    | some digest =>
      match records.activeDestruction .dropBefore digest with
      | none => some .noAuthorization
      | some destruction => refusedBefore now destruction.notBeforeSecs

/-- `missing_envelopes`: the wanted addresses the log does not hold. -/
def missingEnvelopes (db : Log.Db) (group : Bytes) (wanted : List Bytes) : List Bytes :=
  wanted.filter (fun hash =>
    !db.envelopes.any (fun row => row.groupId = group && row.hash = hash))

/-- The checkpoint and every snapshot it names. -/
def DropBefore.required (record : DropBefore) : List Bytes :=
  record.manifestHash :: record.snapshots

/-- The instruction is refused if the log lacks an envelope it requires. -/
def refusedByLog (record : DropBefore) (db : Log.Db) : Option Refusal :=
  let missing := missingEnvelopes db record.group record.required
  if missing.isEmpty then none else some (.incompleteManifest missing.length)

/-- The barrier: the checkpoint's own place in the log. -/
def DropBefore.barrier (record : DropBefore) (db : Log.Db) : Nat :=
  (Log.existingSeq db record.group record.manifestHash).getD 0

def DropBefore.at (record : DropBefore) (barrier : Nat) : Log.Drop :=
  ⟨record.group, record.manifestHash, barrier, record.snapshots⟩

/-- The transaction of `store::drop_before`. -/
def compact (d : Log.Drop) (db : Log.Db) : Log.Db × Log.DropOutcome :=
  let gone := d.doomed db
  (Log.remove (Log.record db d.anchors) (Log.workspaceOf db d.group) gone,
    { deleted := gone.length
      bytes := Log.ctBytes gone
      kept := ((db.envelopes.filter d.below).length : Int) - gone.length })

/-- `drop_before`, with nothing else running. -/
def dropBefore (record : DropBefore) (now : Nat) (records : Records) (db : Log.Db) :
    Log.Db × Except Refusal Log.DropOutcome :=
  if records.chain.frozen then (db, .error .groupFrozen)
  else
    match refusedByControl c record records.chain.latestControl with
    | some refusal => (db, .error refusal)
    | none =>
      match authorization record now records with
      | some refusal => (db, .error refusal)
      | none =>
        match refusedByLog record db with
        | some refusal => (db, .error refusal)
        | none =>
          let (db', outcome) := compact (record.at (record.barrier db)) db
          (db', .ok outcome)

variable {c} {rec : DropBefore}

theorem refusedByControl_eq_none {latest : Option RetentionControl} :
    refusedByControl c rec latest = none ↔
      SignedUnder c latest rec.epoch rec.signingBytes rec.sig := by
  rw [← standing_eq_current, refusedByControl]
  split <;> simp_all

end Judge
end WealdRelay.Lifecycle
