import WealdRelay.Media.Store
import WealdRelay.Retention.Control

/-!
# Manifests and authorizations

The rest of `media/retention.rs` on one group: the manifests that were accepted, and the
policies and destruction records that authorize a deletion. A manifest is judged in
three parts.

* Against the newest settled control: its epoch, and its signature under that control's
  verifier.
* Against the newest manifest: its sequence number and the digest it names.
* In one transaction, its row is inserted and the reservation of every object it names is
  claimed, all or none.

The rows of `relay_retention_manifest_rejected` are evidence that nothing reads, and
`cancelled_at` is a column that nothing writes; neither is kept here.
-/

namespace WealdRelay.Retention

open Lib Cbor

/-- A complete list of a group's media, as published. -/
structure RetentionManifest where
  group : Bytes
  epoch : Nat
  sequence : Nat
  prevManifestHash : Option Bytes
  blobs : List Bytes
  sig : Bytes
deriving DecidableEq

namespace RetentionManifest

/-- What the signature covers. -/
def signingBytes (record : RetentionManifest) : Bytes :=
  array [bytes record.group, uint record.epoch, uint record.sequence,
    optionalBytes record.prevManifestHash, Access.encodeList record.blobs]

def encode (record : RetentionManifest) : Bytes :=
  array [bytes record.group, uint record.epoch, uint record.sequence,
    optionalBytes record.prevManifestHash, Access.encodeList record.blobs,
    bytes record.sig]

def digest (c : Access.Crypto) (record : RetentionManifest) : Bytes := c.blake3 record.encode

end RetentionManifest

/-- A row of `relay_retention_policy`. -/
structure Policy where
  version : Nat
  mediaAfterDays : Nat
  textAfterDays : Nat
  notBeforeSecs : Nat
deriving DecidableEq

/-- What a destruction record destroys. -/
inductive DestructionKind where
  | blob
  | dropBefore
  | other (kind : Bytes)
deriving DecidableEq

/-- A row of `relay_retention_destruction`. -/
structure Destruction where
  kind : DestructionKind
  targetDigest : Bytes
  notBeforeSecs : Nat
deriving DecidableEq

/-- The retention tables of one group. -/
structure Records where
  chain : Chain
  manifests : List RetentionManifest
  policies : List Policy
  destructions : List Destruction
deriving DecidableEq

namespace Records

def empty : Records := ⟨Chain.empty, [], [], []⟩

/-- `latest_manifest`. -/
def latestManifest (records : Records) : Option RetentionManifest :=
  Table.newest RetentionManifest.sequence records.manifests

/-- `active_policy`. -/
def activePolicy (records : Records) : Option Policy :=
  Table.newest Policy.version records.policies

/-- `active_destruction`. -/
def activeDestruction (records : Records) (kind : DestructionKind) (target : Bytes) :
    Option Destruction :=
  records.destructions.find? (fun row => row.kind = kind && row.targetDigest = target)

end Records

/-! ## Accepting a manifest -/

/-- The sequence number of a group's first manifest. -/
def firstManifestSequence : Nat := 1

/-- What presenting a manifest did. -/
inductive ManifestOutcome where
  | accepted (digest : Bytes)
  | invalid (reason : String)
deriving DecidableEq

section Judge

variable (c : Access.Crypto)

/-- How a signed record stands to the newest control: the check that `latest_control`
leaves to its callers. -/
inductive Standing where
  | noControl
  | otherEpoch (latest : Nat)
  | badSignature
  | current
deriving DecidableEq

def standing (epoch : Nat) (message sig : Bytes) : Option RetentionControl → Standing
  | none => .noControl
  | some latest =>
    if epoch ≠ latest.epoch then .otherEpoch latest.epoch
    else if c.verifyStrict latest.verifier message sig then .current
    else .badSignature

/-- What is wrong with a manifest in the light of the newest control. -/
def refusedByControl (record : RetentionManifest) (latest : Option RetentionControl) :
    Option String :=
  match standing c record.epoch record.signingBytes record.sig latest with
  | .noControl => some "no retention control for this group"
  | .otherEpoch _ => some "manifest epoch is not the group's latest epoch"
  | .badSignature => some "signature does not verify against the epoch verifier"
  | .current => none

/-- The sequence number the next manifest has. -/
def expectedSequence : Option RetentionManifest → Nat
  | none => firstManifestSequence
  | some latest => latest.sequence + 1

/-- What is wrong with a manifest in the light of the newest one. -/
def refusedByLatest (record : RetentionManifest) (latest : Option RetentionManifest) :
    Option String :=
  if record.sequence ≠ expectedSequence latest then
    some "sequence does not advance by exactly one"
  else if record.prevManifestHash ≠ latest.map (·.digest c) then
    some "prev_manifest_hash does not match the latest manifest"
  else none

/-- The row can be inserted: its numbers fit and its sequence number is free. -/
def insertableManifest (record : RetentionManifest) (records : Records) : Bool :=
  decide (1 ≤ record.sequence) && decide (record.sequence < epochBound) &&
    (Table.lookup RetentionManifest.sequence records.manifests record.sequence).isNone

/-- The transaction of an accepted manifest. Nothing is left of one that fails. -/
def commitManifest (workspace : Bytes) (now : Int) (record : RetentionManifest)
    (records : Records) (tables : Media.Tables) :
    Option (ManifestOutcome × Records × Media.Tables) :=
  if insertableManifest record records then
    match (Media.claimAll workspace record.group now record.blobs).alone Media.Write.apply
        tables with
    | .ok (_, tables') =>
      some (.accepted (record.digest c),
        { records with manifests := records.manifests ++ [record] }, tables')
    | .error .noReservation =>
      some (.invalid "manifest names a hash with no reservation", records, tables)
    | .error _ => none
  else none

/-- `apply_manifest`, with nothing else running. `none` is a failed statement. -/
def applyManifest (workspace : Bytes) (now : Int) (record : RetentionManifest)
    (records : Records) (tables : Media.Tables) :
    Option (ManifestOutcome × Records × Media.Tables) :=
  match refusedByControl c record records.chain.latestControl with
  | some reason => some (.invalid reason, records, tables)
  | none =>
    match refusedByLatest c record records.latestManifest with
    | some reason => some (.invalid reason, records, tables)
    | none => commitManifest c workspace now record records tables

variable {c} {rec : RetentionManifest} {rs records' : Records}
  {ts tables' : Media.Tables} {ws : Bytes} {now : Int} {digest : Bytes}

/-- The newest control is of this epoch, and its verifier signed the message. -/
def SignedUnder (c : Access.Crypto) (latest : Option RetentionControl) (epoch : Nat)
    (message sig : Bytes) : Prop :=
  ∃ control, latest = some control ∧ epoch = control.epoch ∧
    c.verifyStrict control.verifier message sig = true

theorem standing_eq_current {epoch msg sig latest} :
    standing c epoch msg sig latest = .current ↔ SignedUnder c latest epoch msg sig := by
  cases latest with
  | none => simp [standing, SignedUnder]
  | some control =>
    rw [standing]
    split
    next hepoch => simp [SignedUnder, hepoch]
    next hepoch =>
      simp only [not_not] at hepoch
      split
      next hsig => simp [SignedUnder, hepoch, hsig]
      next hsig => simp [SignedUnder, hsig]

theorem refusedByControl_eq_none {latest} : refusedByControl c rec latest = none ↔
      SignedUnder c latest rec.epoch rec.signingBytes rec.sig := by
  rw [← standing_eq_current, refusedByControl]
  split <;> simp_all

theorem refusedByLatest_eq_none {latest} :
    refusedByLatest c rec latest = none ↔ rec.sequence = expectedSequence latest ∧
        rec.prevManifestHash = latest.map (·.digest c) := by
  rw [refusedByLatest]
  split
  next hseq => simp [hseq]
  next hseq =>
    simp only [not_not] at hseq
    split
    next hprev => simp [hprev]
    next hprev =>
      simp only [not_not] at hprev
      simp [hseq, hprev]

theorem latestManifest_append (h : rec.sequence = expectedSequence rs.latestManifest) :
    Records.latestManifest { rs with manifests := rs.manifests ++ [rec] } = some rec := by
  refine Table.newest_append fun row hrow => ?_
  cases hlatest : rs.latestManifest with
  | none =>
    rw [Table.newest_eq_none.mp hlatest] at hrow
    cases hrow
  | some latest =>
    have hle : row.sequence ≤ latest.sequence := Table.le_newest hlatest hrow
    rw [hlatest, expectedSequence] at h
    omega

/-- A manifest whose transaction commits has claimed every object it names. -/
theorem commitManifest_accepted (h : commitManifest c ws now rec rs ts =
      some (.accepted digest, records', tables')) :
    insertableManifest rec rs = true ∧ digest = rec.digest c ∧
      records' = { rs with manifests := rs.manifests ++ [rec] } ∧
      ∃ ans, (Media.claimAll ws rec.group now rec.blobs).alone
        Media.Write.apply ts = .ok (ans, tables') := by
  rw [commitManifest] at h
  split at h
  next hins =>
    split at h
    next ans tables'' hclaims =>
      simp only [Option.some.injEq, Prod.mk.injEq, ManifestOutcome.accepted.injEq] at h
      obtain ⟨rfl, rfl, rfl⟩ := h
      exact ⟨hins, rfl, rfl, ans, hclaims⟩
    · simp at h
    · cases h
  · cases h

theorem commitManifest_invalid {reason} (h : commitManifest c ws now rec rs ts =
      some (.invalid reason, records', tables')) : records' = rs ∧ tables' = ts := by
  rw [commitManifest] at h
  split at h
  · split at h
    · simp at h
    · obtain ⟨-, rfl, rfl⟩ := by simpa using h
      exact ⟨rfl, rfl⟩
    · cases h
  · cases h

/-- A manifest that is refused changes nothing, and one that is accepted is the next of
its group and has claimed every object it names. -/
theorem applyManifest_cases {out}
    (h : applyManifest c ws now rec rs ts = some (out, records', tables')) :
    (records' = rs ∧ tables' = ts) ∨
    (rec.sequence = expectedSequence rs.latestManifest ∧
      records' = { rs with manifests := rs.manifests ++ [rec] } ∧
      (Media.claimAll ws rec.group now rec.blobs).alone Media.Write.apply ts =
        .ok ((), tables')) := by
  rw [applyManifest] at h
  split at h
  · obtain ⟨-, rfl, rfl⟩ := by simpa using h
    exact .inl ⟨rfl, rfl⟩
  · split at h
    · obtain ⟨-, rfl, rfl⟩ := by simpa using h
      exact .inl ⟨rfl, rfl⟩
    next hlatest =>
      cases out with
      | accepted digest =>
        obtain ⟨-, -, hrecords, ⟨⟩, hclaims⟩ := commitManifest_accepted h
        exact .inr ⟨(refusedByLatest_eq_none.mp hlatest).1, hrecords, hclaims⟩
      | invalid reason => exact .inl (commitManifest_invalid h)

end Judge
end WealdRelay.Retention
