import WealdRelay.Cbor

/-!
# Decrypting in a group session

`weald-mls/src/session.rs`: a session gives each message of its group to OpenMLS. `process`
merges a commit and keeps a proposal while it classifies the message. `decrypt` is built on
it, so it refuses a commit or a proposal that the group has already taken.
-/

namespace WealdRelay.Mls

/-- A commit that is not merged yet: the members there are once it is. -/
structure StagedCommit where
  members : List Nat
deriving DecidableEq

/-- The group as one device sees it. -/
structure Group where
  epoch : Nat
  members : List Nat
  pendingProposals : List Bytes
  pendingCommit : Option StagedCommit
deriving DecidableEq

/-- `ProcessedMessageContent`. -/
inductive Content where
  | applicationMessage (plaintext : Bytes)
  | stagedCommitMessage (staged : StagedCommit)
  | proposalMessage (proposal : Bytes)
  | externalJoinProposalMessage (proposal : Bytes)

inductive Error where
  | malformed (text : String)
  | protocol (text : String)
  | storage (text : String)
deriving DecidableEq

/-- What processing one message produced. -/
inductive Processed where
  | application (plaintext : Bytes) (sender : Nat)
  | commit (epoch : Nat)
  | proposal

/-- OpenMLS and its storage: how a message is read, with the leaf of a sender that is a
member, and the two calls that change the group. What is assumed of these: one that is refused
leaves the group as it was, a merge begins the next epoch, and a stored proposal is pending. -/
structure OpenMls (μ ν : Type) where
  decode : Bytes → Except String μ
  tryIntoProtocolMessage : μ → Except String ν
  processMessage : Group → ν → Except String (Option Nat × Content)
  mergeStagedCommit : Group → StagedCommit → Except String Group
  storePendingProposal : Group → Bytes → Except String Group
  epoch_merged : ∀ group staged merged, mergeStagedCommit group staged = .ok merged →
    merged.epoch = group.epoch + 1
  pending_stored : ∀ group proposal stored, storePendingProposal group proposal = .ok stored →
    stored.pendingProposals = group.pendingProposals ++ [proposal]

section Session

variable {μ ν : Type} (mls : OpenMls μ ν) (group : Group) (message : Bytes)

/-- The part of `process` that reads the message. -/
def read : Except Error (Option Nat × Content) :=
  match mls.decode message with
  | .error text => .error (.malformed text)
  | .ok incoming =>
    match mls.tryIntoProtocolMessage incoming with
    | .error text => .error (.malformed text)
    | .ok protocol => (mls.processMessage group protocol).mapError .protocol

/-- `Session::process`. A sender outside the tree has the leaf `u32::MAX`. -/
def process : Except Error Processed × Group :=
  match read mls group message with
  | .error error => (.error error, group)
  | .ok (leaf, .applicationMessage plaintext) =>
    (.ok (.application plaintext (leaf.getD 4294967295)), group)
  | .ok (_, .stagedCommitMessage staged) =>
    match mls.mergeStagedCommit group staged with
    | .error text => (.error (.protocol text), group)
    | .ok merged => (.ok (.commit merged.epoch), merged)
  | .ok (_, .proposalMessage proposal) | .ok (_, .externalJoinProposalMessage proposal) =>
    match mls.storePendingProposal group proposal with
    | .error text => (.error (.storage text), group)
    | .ok stored => (.ok .proposal, stored)

/-- `Session::decrypt`. -/
def decrypt : Except Error (Bytes × Nat) × Group :=
  match process mls group message with
  | (.error error, group) => (.error error, group)
  | (.ok (.application plaintext sender), group) => (.ok (plaintext, sender), group)
  | (.ok (.commit _), group) | (.ok .proposal, group) =>
    (.error (.protocol "not an application message"), group)

/-- The message is read as a commit or a proposal, and the group takes it. -/
def TakesHandshake : Prop :=
  match read mls group message with
  | .ok (_, .stagedCommitMessage staged) =>
    ∃ merged, mls.mergeStagedCommit group staged = .ok merged
  | .ok (_, .proposalMessage proposal) | .ok (_, .externalJoinProposalMessage proposal) =>
    ∃ stored, mls.storePendingProposal group proposal = .ok stored
  | _ => False

/-- A refused decrypt leaves the group as it was, exactly if the message is not a commit or
a proposal that the group takes. -/
theorem refused_decrypt_unchanged_iff :
    ((∃ error, (decrypt mls group message).1 = .error error) →
      (decrypt mls group message).2 = group) ↔ ¬ TakesHandshake mls group message := by
  have hmerge (staged) : mls.mergeStagedCommit group staged ≠ .ok group := fun h =>
    Nat.succ_ne_self group.epoch (mls.epoch_merged group staged group h).symm
  have hstore (proposal) : mls.storePendingProposal group proposal ≠ .ok group := fun h => by
    simpa using mls.pending_stored group proposal group h
  rw [decrypt, process, TakesHandshake]
  rcases read mls group message with error | ⟨leaf, content⟩
  · simp
  cases content with
  | applicationMessage plaintext => simp
  | stagedCommitMessage staged =>
    have hmoves := hmerge staged
    cases hmerged : mls.mergeStagedCommit group staged with
    | error text => simp [hmerged]
    | ok merged => simpa [hmerged] using hmoves
  | proposalMessage proposal | externalJoinProposalMessage proposal =>
    have hadds := hstore proposal
    cases hstored : mls.storePendingProposal group proposal with
    | error text => simp [hstored]
    | ok stored => simpa [hstored] using hadds

end Session

/-- A library that reads every message as a commit that removes the second of two members. -/
def commitsOnly : OpenMls Unit Unit where
  decode _ := .ok ()
  tryIntoProtocolMessage := .ok
  processMessage _ _ := .ok (some 0, .stagedCommitMessage ⟨[0]⟩)
  mergeStagedCommit group staged := .ok ⟨group.epoch + 1, staged.members, [], none⟩
  storePendingProposal group proposal :=
    .ok { group with pendingProposals := group.pendingProposals ++ [proposal] }
  epoch_merged _ _ _ h := by cases h; rfl
  pending_stored _ _ _ h := by cases h; rfl

/-- The commit is refused, and the epoch has moved. -/
theorem refused_commit_moves_epoch :
    decrypt commitsOnly ⟨4, [0, 1], [], none⟩ [] =
      (.error (.protocol "not an application message"), ⟨5, [0], [], none⟩) := by
  rfl

end WealdRelay.Mls
