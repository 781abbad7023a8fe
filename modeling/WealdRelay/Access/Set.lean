import WealdRelay.Cbor
import WealdRelay.Lib.Except
import WealdRelay.Lib.SortDedup

/-!
# One published access set

The data and the prior-free half of `access/mod.rs`: the decoded set, its digest,
the shape checks, the rule that every principal hashes to an entry, and the
recovery quorum's confirmation.

BLAKE3 and Ed25519 come from outside the repository and are the two fields of
`Crypto`. No property of either is assumed in this file.
-/

namespace WealdRelay.Access

open Lib List Cbor

def keyBytes : Nat := 32

def hashBytes : Nat := 32

def sigBytes : Nat := 64

/-- `weald recovery-confirm v1`, the domain separator a quorum signature covers. -/
def quorumConfirmLabel : Bytes :=
  [119, 101, 97, 108, 100, 32, 114, 101, 99, 111, 118, 101, 114, 121, 45,
    99, 111, 110, 102, 105, 114, 109, 32, 118, 49]

/-- A bound on every list in a published set. -/
def maxEntries : Nat := 4096

/-- The primitives the relay takes from its two cryptographic crates. -/
structure Crypto where
  /-- BLAKE3 of one byte string. -/
  blake3 : Bytes → Bytes
  /-- Decoding of a 32-byte key, then `verify_strict` of a 64-byte signature. -/
  verifyStrict : Bytes → Bytes → Bytes → Bool

/-- How a signer was acting. -/
inductive SignedAs where
  | authorizer
  | recovery
deriving DecidableEq

/-- A quorum signature over one proposed transition. -/
structure QuorumSignature where
  key : Bytes
  sig : Bytes
deriving DecidableEq

/-- Confirm-only external keys. -/
structure RecoveryQuorum where
  threshold : Nat
  keys : List Bytes
  sigs : List QuorumSignature
deriving DecidableEq

/-- One published access set, decoded. -/
structure AccessSet where
  workspace : Bytes
  version : Nat
  prevHash : Bytes
  issuedAt : Nat
  entries : List Bytes
  authorizers : List Bytes
  recovery : List Bytes
  quorum : Option RecoveryQuorum
  pending : List Bytes
  signer : Bytes
  sig : Bytes
deriving DecidableEq

/-- Why a publication was refused, one constructor per rule. -/
inductive AccessError where
  | emptyList (name : String)
  | tooManyEntries (name : String)
  | unsorted (name : String)
  | versionNotNext (expected got : Nat)
  | prevHashMismatch
  | signerNotPermitted
  | badSignature
  | principalNotAnEntry
  | wouldStrandAuthority (what : String)
  | rotationShape (rule : String)
  | rotationRateLimited
  | probationExceeded
  | quorum (rule : String)
  | workspaceMismatch
deriving DecidableEq

/-- Whether some window of two is out of strict order. -/
def unsortedWindow : List Bytes → Bool
  | a :: b :: rest => b ≤ a || unsortedWindow (b :: rest)
  | _ => false

/-- Non-empty, bounded, sorted and deduplicated. -/
def checkList (name : String) (items : List Bytes) (mayBeEmpty : Bool) : Except AccessError Unit :=
  if items = [] ∧ mayBeEmpty = false then .error (.emptyList name)
  else if maxEntries < items.length then .error (.tooManyEntries name)
  else if unsortedWindow items then .error (.unsorted name)
  else .ok ()

/-- The quorum half of the shape check. -/
def checkQuorum (quorum : RecoveryQuorum) : Except AccessError Unit :=
  match checkList "quorum" quorum.keys false with
  | .error _ => .error (.quorum "keys must be unique, sorted and non-empty")
  | .ok () =>
    if quorum.threshold = 0 ∨ quorum.keys.length < quorum.threshold then
      .error (.quorum "threshold must be between 1 and the key count")
    else .ok ()

/-- The shape checks that need no prior set. -/
def AccessSet.checkShape (s : AccessSet) : Except AccessError Unit := do
  checkList "entries" s.entries false
  checkList "authorizers" s.authorizers false
  checkList "recovery" s.recovery false
  checkList "pending" s.pending true
  match s.quorum with
  | some quorum => checkQuorum quorum
  | none => .ok ()

def encodeList (items : List Bytes) : Bytes :=
  array (items.map bytes)

def encodeQuorum (quorum : RecoveryQuorum) (withSignatures : Bool) : Bytes :=
  let signatures :=
    if withSignatures then
      array (quorum.sigs.map (fun s => array [bytes s.key, bytes s.sig]))
    else array []
  array [uint quorum.threshold, encodeList quorum.keys, signatures]

/-- The bytes an authorizer signs: `sig` and the quorum signatures are omitted. -/
def AccessSet.digestInput (s : AccessSet) : Bytes :=
  let quorum :=
    match s.quorum with
    | some quorum => encodeQuorum quorum false
    | none => optionalBytes none
  array [bytes s.workspace, uint s.version, bytes s.prevHash,
      uint s.issuedAt, encodeList s.entries, encodeList s.authorizers,
      encodeList s.recovery, quorum, encodeList s.pending, bytes s.signer]

section Crypto

variable (c : Crypto)

/-- The set's identity in the chain. -/
def AccessSet.digest (s : AccessSet) : Bytes := c.blake3 s.digestInput

/-- `BLAKE3(pubkey || workspace_salt)`, the stored form of a principal. -/
def entryHash (pubkey salt : Bytes) : Bytes := c.blake3 (pubkey ++ salt)

/-- What a quorum key signs to confirm one transition. -/
def quorumMessage (digest replacementEntry : Bytes) : Bytes :=
  c.blake3 (quorumConfirmLabel ++ digest ++ replacementEntry)

/-- One Ed25519 check; a key or signature of the wrong width answers false. -/
def verify (pubkey message signature : Bytes) : Bool :=
  if pubkey.length ≠ keyBytes then false
  else if signature.length ≠ sigBytes then false
  else c.verifyStrict pubkey message signature

def AccessSet.signatureVerifies (s : AccessSet) : Bool :=
  verify c s.signer s.digestInput s.sig

/-- Whether every authorizer and recovery key hashes to an entry. -/
def AccessSet.principalsAreEntries (s : AccessSet) (salt : Bytes) : Except AccessError Unit :=
  if ∀ key ∈ s.authorizers ++ s.recovery, entryHash c key salt ∈ s.entries then .ok ()
  else .error .principalNotAnEntry

/-- The keys counted while the carried signatures are walked once, in order. -/
def confirmLoop (configured : RecoveryQuorum) (message : Bytes) :
    List QuorumSignature → List Bytes → List Bytes
  | [], seen => seen
  | signature :: rest, seen =>
    if signature.key ∉ configured.keys then confirmLoop configured message rest seen
    else if signature.key ∈ seen then confirmLoop configured message rest seen
    else if verify c signature.key message signature.sig then
      confirmLoop configured message rest (seen ++ [signature.key])
    else confirmLoop configured message rest seen

/-- Does the quorum confirm this transition for `replacement`? -/
def AccessSet.quorumConfirms (s : AccessSet) (configured : RecoveryQuorum)
    (replacement : Bytes) : Bool :=
  match s.quorum with
  | none => false
  | some carried =>
    if carried.sigs = [] then false
    else
      let message := quorumMessage c (s.digest c) replacement
      configured.threshold ≤ (confirmLoop c configured message carried.sigs []).length

/--
The confirmation in its own terms: as many distinct configured keys as the
threshold asks for, each with a carried signature that verifies over the message.
-/
def AccessSet.CarriesConfirmation (s : AccessSet) (configured : RecoveryQuorum)
    (replacement : Bytes) : Prop :=
  ∃ carried, s.quorum = some carried ∧ ∃ keys : List Bytes,
      keys.Nodup ∧ configured.threshold ≤ keys.length ∧ ∀ key ∈ keys, key ∈ configured.keys ∧
          ∃ signature ∈ carried.sigs, signature.key = key ∧
            verify c key (quorumMessage c (s.digest c) replacement) signature.sig = true

end Crypto

/-! ## What the shape checks establish -/

/-- The window scan is strict ascent of the whole list. -/
theorem unsortedWindow_eq_false_iff :
    ∀ items : List Bytes, unsortedWindow items = false ↔ items.Pairwise (· < ·)
  | [] => by simp [unsortedWindow]
  | [a] => by simp [unsortedWindow]
  | a :: b :: rest => by
      have ih := unsortedWindow_eq_false_iff (b :: rest)
      have hs : unsortedWindow (a :: b :: rest) = false ↔
            a < b ∧ unsortedWindow (b :: rest) = false := by
        simp [unsortedWindow]
      rw [hs, ih]
      constructor
      · rintro ⟨hab, hr⟩
        refine pairwise_cons.mpr ⟨?_, hr⟩
        intro x hx
        rcases mem_cons.mp hx with rfl | hx
        · exact hab
        · exact lt_trans hab ((pairwise_cons.mp hr).1 x hx)
      · intro h
        obtain ⟨hall, hr⟩ := pairwise_cons.mp h
        exact ⟨hall b (by simp), hr⟩

theorem checkList_eq_ok {name : String} {items : List Bytes} {mayBeEmpty : Bool}
    (h : checkList name items mayBeEmpty = .ok ()) :
    (mayBeEmpty = false → items ≠ []) ∧ items.length ≤ maxEntries ∧ items.Pairwise (· < ·) := by
  unfold checkList at h
  split_ifs at h with hempty hlong hsort
  refine ⟨?_, Nat.le_of_not_lt hlong, ?_⟩
  · intro hmay hitems
    exact hempty ⟨hitems, hmay⟩
  · exact (unsortedWindow_eq_false_iff items).mp (by simpa using hsort)

/-- What a set that passed the prior-free checks looks like. -/
structure WellShaped (c : Crypto) (salt : Bytes) (s : AccessSet) : Prop where
  entries_ne : s.entries ≠ []
  authorizers_ne : s.authorizers ≠ []
  recovery_ne : s.recovery ≠ []
  entries_sorted : s.entries.Pairwise (· < ·)
  authorizers_sorted : s.authorizers.Pairwise (· < ·)
  recovery_sorted : s.recovery.Pairwise (· < ·)
  pending_sorted : s.pending.Pairwise (· < ·)
  authorizer_entry : ∀ key ∈ s.authorizers, entryHash c key salt ∈ s.entries
  recovery_entry : ∀ key ∈ s.recovery, entryHash c key salt ∈ s.entries
  quorum_sorted : ∀ quorum, s.quorum = some quorum → quorum.keys.Pairwise (· < ·)
  quorum_threshold : ∀ quorum, s.quorum = some quorum →
    1 ≤ quorum.threshold ∧ quorum.threshold ≤ quorum.keys.length

theorem checkQuorum_eq_ok {quorum : RecoveryQuorum} (h : checkQuorum quorum = .ok ()) :
    quorum.keys.Pairwise (· < ·) ∧
      1 ≤ quorum.threshold ∧ quorum.threshold ≤ quorum.keys.length := by
  unfold checkQuorum at h
  cases hlist : checkList "quorum" quorum.keys false with
  | error e => simp [hlist] at h
  | ok u =>
    simp only [hlist] at h
    split_ifs at h with hthreshold
    obtain ⟨_, _, hsort⟩ := checkList_eq_ok hlist
    exact ⟨hsort, by omega, by omega⟩

variable {c : Crypto} {s : AccessSet} {conf : RecoveryQuorum}

theorem wellShaped_of_checks {salt : Bytes} (hshape : s.checkShape = .ok ())
    (hentries : s.principalsAreEntries c salt = .ok ()) : WellShaped c salt s := by
  unfold AccessSet.checkShape at hshape
  obtain ⟨_, he, h⟩ := bind_ok hshape
  obtain ⟨_, ha, h⟩ := bind_ok h
  obtain ⟨_, hr, h⟩ := bind_ok h
  obtain ⟨_, hp, hq⟩ := bind_ok h
  obtain ⟨he0, -, hes⟩ := checkList_eq_ok he
  obtain ⟨ha0, -, has⟩ := checkList_eq_ok ha
  obtain ⟨hr0, -, hrs⟩ := checkList_eq_ok hr
  obtain ⟨-, -, hps⟩ := checkList_eq_ok hp
  unfold AccessSet.principalsAreEntries at hentries
  split_ifs at hentries with hall
  have hquorum : ∀ quorum, s.quorum = some quorum → checkQuorum quorum = .ok () := by
    intro quorum hsome
    simpa [hsome] using hq
  exact
    { entries_ne := he0 rfl
      authorizers_ne := ha0 rfl
      recovery_ne := hr0 rfl
      entries_sorted := hes
      authorizers_sorted := has
      recovery_sorted := hrs
      pending_sorted := hps
      authorizer_entry := fun key hkey => hall key (mem_append_left _ hkey)
      recovery_entry := fun key hkey => hall key (mem_append_right _ hkey)
      quorum_sorted := fun quorum hsome => (checkQuorum_eq_ok (hquorum quorum hsome)).1
      quorum_threshold := fun quorum hsome => (checkQuorum_eq_ok (hquorum quorum hsome)).2 }

/-! ## The quorum's confirmation -/

/--
The walk adds only configured keys with a verified signature, never a key it has
already counted.
-/
theorem confirmLoop_spec (c : Crypto) (conf : RecoveryQuorum) (msg : Bytes) :
    ∀ (sigs : List QuorumSignature) (seen : List Bytes), seen.Nodup →
      (confirmLoop c conf msg sigs seen).Nodup ∧
        ∀ key ∈ confirmLoop c conf msg sigs seen, key ∈ seen ∨ (key ∈ conf.keys ∧
              ∃ signature ∈ sigs, signature.key = key ∧ verify c key msg signature.sig = true)
  | [], seen, hseen => ⟨hseen, fun key hkey => .inl hkey⟩
  | signature :: rest, seen, hseen => by
      -- Three of the four branches keep `seen`; only a verified new key extends it.
      have hkeep : (confirmLoop c conf msg rest seen).Nodup ∧
            ∀ key ∈ confirmLoop c conf msg rest seen, key ∈ seen ∨
                (key ∈ conf.keys ∧ ∃ s ∈ signature :: rest, s.key = key ∧
                    verify c key msg s.sig = true) := by
        obtain ⟨hnd, hmem⟩ := confirmLoop_spec c conf msg rest seen hseen
        refine ⟨hnd, ?_⟩
        intro key hkey
        rcases hmem key hkey with hold | ⟨hconf, s, hs, heq, hver⟩
        · exact .inl hold
        · exact .inr ⟨hconf, s, mem_cons_of_mem _ hs, heq, hver⟩
      unfold confirmLoop
      split_ifs with hconf hdup hver
      · exact hkeep
      · have hseen' : (seen ++ [signature.key]).Nodup := by
          rw [nodup_append]
          refine ⟨hseen, by simp, ?_⟩
          intro a ha b hb
          rw [mem_singleton] at hb
          rintro rfl
          exact hdup (hb ▸ ha)
        obtain ⟨hnd, hmem⟩ := confirmLoop_spec c conf msg rest _ hseen'
        refine ⟨hnd, ?_⟩
        intro key hkey
        rcases hmem key hkey with hold | ⟨hc, s, hs, heq, hv⟩
        · rcases mem_append.mp hold with hold | hnew
          · exact .inl hold
          · rw [mem_singleton] at hnew
            subst hnew
            exact .inr ⟨hconf, signature, by simp, rfl, hver⟩
        · exact .inr ⟨hc, s, mem_cons_of_mem _ hs, heq, hv⟩
      · exact hkeep
      · exact hkeep

variable {rep : Bytes}

/-- A confirmation the relay counts is one in the specification's own terms. -/
theorem carriesConfirmation_of_quorumConfirms (h : s.quorumConfirms c conf rep = true) :
    s.CarriesConfirmation c conf rep := by
  unfold AccessSet.quorumConfirms at h
  cases hq : s.quorum with
  | none => simp [hq] at h
  | some carried =>
    simp only [hq] at h
    split_ifs at h with hsigs
    obtain ⟨hnd, hmem⟩ :=
      confirmLoop_spec c conf (quorumMessage c (s.digest c) rep) carried.sigs [] nodup_nil
    refine ⟨carried, hq, _, hnd, of_decide_eq_true h, ?_⟩
    intro key hkey
    rcases hmem key hkey with hnil | hok
    · simp at hnil
    · exact hok

/-- Without one signature by a configured key there is no confirmation. -/
theorem not_carriesConfirmation (hthreshold : 0 < conf.threshold)
    (hsigs : ∀ carried, s.quorum = some carried →
      ∀ signature ∈ carried.sigs, signature.key ∉ conf.keys) :
    ¬ s.CarriesConfirmation c conf rep := by
  rintro ⟨carried, hcarried, keys, -, hn, hkeys⟩
  cases keys with
  | nil =>
    rw [length_nil] at hn
    omega
  | cons key rest =>
    obtain ⟨hconf, signature, hsig, rfl, -⟩ := hkeys key (by simp)
    exact hsigs carried hcarried signature hsig hconf

end WealdRelay.Access
