import WealdRelay.Access.Set
import WealdRelay.Lib.Procs
import WealdRelay.Lib.Table

/-!
# The retention control chain

`media/retention.rs` on one group: the controls that are settled, one for each epoch, the
rivals that were recorded as evidence, and whether the group is frozen. `apply_control`
and `resolve_freeze` are processes; each of their statements commits on its own, so any
number of them interleave between one statement and the next.

* A control is judged against the settled control of the epoch before it, then against
  the one of its own epoch.
* The insert does nothing if the epoch is settled by then, and the record is judged
  against the row that won.
* A rival of a later epoch is recorded and then the group is frozen; a rival genesis
  control is refused.
-/

namespace WealdRelay.Retention

open Lib Cbor

/-! ## Records -/

/-- One link of the chain, as published. -/
structure RetentionControl where
  group : Bytes
  epoch : Nat
  verifier : Bytes
  prevControlHash : Option Bytes
  sig : Bytes
deriving DecidableEq

namespace RetentionControl

/-- What the signature covers. -/
def signingBytes (record : RetentionControl) : Bytes :=
  array [bytes record.group, uint record.epoch, bytes record.verifier,
    optionalBytes record.prevControlHash]

def encode (record : RetentionControl) : Bytes :=
  array [bytes record.group, uint record.epoch, bytes record.verifier,
    optionalBytes record.prevControlHash, bytes record.sig]

/-- The digest a later control names. -/
def digest (c : Access.Crypto) (record : RetentionControl) : Bytes := c.blake3 record.encode

end RetentionControl

/-- A member's word on which control of an epoch is genuine. -/
structure RetentionResolution where
  group : Bytes
  epoch : Nat
  verifier : Bytes
  sig : Bytes
deriving DecidableEq

def RetentionResolution.signingBytes (record : RetentionResolution) : Bytes :=
  array [bytes record.group, uint record.epoch, bytes record.verifier]

/-- What presenting a control did. -/
inductive ControlOutcome where
  | accepted
  | conflictFroze
  | conflictAlreadyFrozen
  | invalid (reason : String)
deriving DecidableEq

/-- The record was kept as evidence against the settled one. -/
def ControlOutcome.conflict : ControlOutcome → Bool
  | conflictFroze => true
  | conflictAlreadyFrozen => true
  | _ => false

/-- What presenting a resolution did. -/
inductive ResolveOutcome where
  | cleared
  | badSignature
  | unknownVerifier
deriving DecidableEq

/-! ## The tables of one group

The row of the group is there: `authorize_group` found it before either call began, and
nothing deletes it.
-/

/-- The settled controls and the recorded rivals, oldest first, and the freeze. -/
structure Chain where
  controls : List RetentionControl
  conflicts : List RetentionControl
  frozen : Bool
deriving DecidableEq

namespace Chain

/-- The tables of a group nothing was published for. -/
def empty : Chain := ⟨[], [], false⟩

/-- `control_at`: the settled control of an epoch. -/
def controlAt (chain : Chain) (epoch : Nat) : Option RetentionControl :=
  Table.lookup RetentionControl.epoch chain.controls epoch

/-- `latest_control`: the settled control of the newest epoch. -/
def latestControl (chain : Chain) : Option RetentionControl :=
  Table.newest RetentionControl.epoch chain.controls

/-- A settled control is added. -/
def settle (chain : Chain) (record : RetentionControl) : Chain :=
  { chain with controls := chain.controls ++ [record] }

/-- A rival is recorded. -/
def recordConflict (chain : Chain) (record : RetentionControl) : Chain :=
  { chain with conflicts := chain.conflicts ++ [record] }

end Chain

/-- The first number the epoch column does not hold. -/
def epochBound : Nat := 2 ^ 63

/-- What the table asks of a settled control. -/
def admissible (record : RetentionControl) : Bool :=
  decide (record.epoch < epochBound) && record.verifier.length = Access.keyBytes

/-- Whether a stored control and an incoming one are the same record. -/
def isTheSameControl (existing record : RetentionControl) : Bool :=
  existing.verifier = record.verifier && existing.prevControlHash = record.prevControlHash &&
    existing.sig = record.sig

/-! ## Statements -/

/-- Where a process stands. -/
inductive Phase where
  | idle
  | prior (record : RetentionControl)
  | existing (record : RetentionControl)
  | insert (record : RetentionControl)
  | winner (record : RetentionControl)
  | conflict (record : RetentionControl)
  | freeze (record : RetentionControl)
  | answered (record : RetentionControl) (outcome : ControlOutcome)
  | candidate (record : RetentionResolution)
  | conflicting (record : RetentionResolution)
  | clear (record : RetentionResolution)
  | resolved (record : RetentionResolution) (outcome : ResolveOutcome)
  | failed
deriving DecidableEq

/-- What a process does with its turn: take up a record of the group, run its next
statement, have it fail, or lose the answer of a statement that took effect. -/
inductive Action where
  | control (record : RetentionControl)
  | resolve (record : RetentionResolution)
  | turn
  | fail
  | lost
deriving DecidableEq

section Statement

variable (c : Access.Crypto)

/-- A record that is refused. -/
def refuse (record : RetentionControl) (reason : String) : Phase :=
  .answered record (.invalid reason)

/-- The signature check, by the authority that was found. -/
def judgeSignature (record : RetentionControl) (authority : Bytes) : Phase :=
  if c.verifyStrict authority record.signingBytes record.sig then .existing record
  else refuse record "signature does not verify"

/-- What is checked before the tables are asked anything. -/
def receive (record : RetentionControl) : Phase :=
  if record.epoch = 0 then
    if record.prevControlHash.isSome then refuse record "genesis control names a predecessor"
    else judgeSignature c record record.verifier
  else .prior record

/-- The checks against the settled control of the epoch before. -/
def judgePrior (record : RetentionControl) : Option RetentionControl → Phase
  | none => refuse record "no control for the prior epoch"
  | some prior =>
    match record.prevControlHash with
    | none => refuse record "non-genesis control names no predecessor"
    | some named =>
      if named = prior.digest c then judgeSignature c record prior.verifier
      else refuse record "prev_control_hash does not match the prior epoch's control"

/-- A record against the settled control of its own epoch. -/
def judgeExisting (record existing : RetentionControl) : Phase :=
  if isTheSameControl existing record then .answered record .accepted
  else if record.epoch = 0 then refuse record "group already has a genesis control"
  else .conflict record

/-- The check of a resolution before the tables are asked anything. -/
def receiveResolution (record : RetentionResolution) : Phase :=
  if c.verifyStrict record.verifier record.signingBytes record.sig then .candidate record
  else .resolved record .badSignature

/-- A recorded rival of this epoch has this verifier. -/
def conflictKnown (chain : Chain) (record : RetentionResolution) : Bool :=
  chain.conflicts.any (fun row => row.epoch = record.epoch && row.verifier = record.verifier)

/-- The settled control of this epoch has this verifier. -/
def controlKnown (chain : Chain) (record : RetentionResolution) : Bool :=
  (chain.controlAt record.epoch).any (fun row => row.verifier = record.verifier)

/-- One statement against the tables as they stand. -/
def statement (chain : Chain) : Phase → Option (Chain × Phase)
  | .prior record => some (chain, judgePrior c record (chain.controlAt (record.epoch - 1)))
  | .existing record =>
    match chain.controlAt record.epoch with
    | some existing => some (chain, judgeExisting record existing)
    | none => some (chain, .insert record)
  | .insert record =>
    -- The row's own checks come before the conflict on its key is looked at.
    if !admissible record then some (chain, .failed)
    else
      match chain.controlAt record.epoch with
      | some _ => some (chain, .winner record)
      | none => some (chain.settle record, .answered record .accepted)
  | .winner record =>
    match chain.controlAt record.epoch with
    | some winner => some (chain, judgeExisting record winner)
    | none => some (chain, .failed)
  | .conflict record => some (chain.recordConflict record, .freeze record)
  | .freeze record =>
    some ({ chain with frozen := true },
      .answered record (if chain.frozen then .conflictAlreadyFrozen else .conflictFroze))
  | .candidate record =>
    some (chain, if controlKnown chain record then .clear record else .conflicting record)
  | .conflicting record =>
    some (chain, if conflictKnown chain record then .clear record
      else .resolved record .unknownVerifier)
  | .clear record => some ({ chain with frozen := false }, .resolved record .cleared)
  | .idle | .answered _ _ | .resolved _ _ | .failed => none

/-- A process that has begun and not ended. -/
def Phase.running : Phase → Bool
  | .idle | .answered _ _ | .resolved _ _ | .failed => false
  | _ => true

def act (group : Bytes) : Action → Chain → Phase → Option (Chain × Phase)
  | .control record, chain, .idle =>
    if record.group = group then some (chain, receive c record) else none
  | .resolve record, chain, .idle =>
    if record.group = group then some (chain, receiveResolution c record) else none
  | .turn, chain, phase => statement c chain phase
  | .fail, chain, phase => if phase.running then some (chain, .failed) else none
  | .lost, chain, phase => (statement c chain phase).map (fun next => (next.1, .failed))
  | _, _, _ => none

/-- The processes of one group. No statement holds a row past its end. -/
def machine (group : Bytes) : Machine Chain Phase Action Unit where
  act := act c group
  needs := fun _ _ _ => []
  locks := fun _ => []
  locks_act := fun _ _ hrow => by cases hrow

end Statement
end WealdRelay.Retention
