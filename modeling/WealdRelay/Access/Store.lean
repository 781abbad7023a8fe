import WealdRelay.Access.Chain

/-!
# The access set against the database

`access/store.rs` over the tables of one workspace. A table is the list of its rows
in insertion order; a query filters and sorts it. `publish` is the reads, the
judgement and the one transaction; `commit` is that transaction, which either applies
every statement or none.

The stored `body` is kept decoded, so reading the chain's workspace back from it is a
projection. Times are in microseconds, the database's resolution.
-/

namespace WealdRelay.Access

open Lib List

/-- How long a recovery principal must wait between rotations. -/
def rotationWindowHours : Nat := 24

def rotationWindow : Nat := rotationWindowHours * 3600 * 1000000

/-- One row of `relay_access_set`; `body` holds what the other columns repeat. -/
structure SetRow where
  version : Nat
  digest : Bytes
  signedAs : SignedAs
  body : AccessSet
deriving DecidableEq

structure EntryRow where
  version : Nat
  entryHash : Bytes
deriving DecidableEq

inductive Role where
  | authorizer
  | recovery
  | quorum
deriving DecidableEq

structure PrincipalRow where
  version : Nat
  role : Role
  pubkey : Bytes
deriving DecidableEq

structure QuorumRow where
  version : Nat
  threshold : Nat
deriving DecidableEq

structure RotationRow where
  recoveryKey : Bytes
  attemptedAt : Nat
deriving DecidableEq

inductive VoidedReason where
  | revoked
  | superseded
  | expired
deriving DecidableEq

/-- A provisional grant; it is void from the moment it has a reason. -/
structure GrantRow where
  deviceHash : Bytes
  expiresAt : Nat
  seenVersion : Option Nat
  voided : Option VoidedReason
deriving DecidableEq

structure PushRow where
  entryHash : Bytes
  handle : Bytes
deriving DecidableEq

/-- The genesis key; the secret half is gone once the key is redeemed. -/
structure GenesisRow where
  publicKey : Bytes
  secretKey : Option Bytes
  token : Bytes
deriving DecidableEq

/-- A seat held for one device; `expiresAt` is in milliseconds, as the client gave it. -/
structure ReservationRow where
  token : Bytes
  joinNonce : Bytes
  deviceHash : Bytes
  expiresAt : Nat
  extended : Bool
  consumed : Bool
  released : Bool
deriving DecidableEq

inductive InviteState where
  | live
  | revoked
  | spent
deriving DecidableEq

/-- An invite; `expiresAt` is in milliseconds, as the issuer signed it. -/
structure InviteRow where
  token : Bytes
  uses : Nat
  expiresAt : Nat
  bootstrap : Bool
  state : InviteState
  remaining : Nat
deriving DecidableEq

/-- One entry of the membership transparency log. -/
structure LogRow where
  seq : Nat
  body : Bytes
  prevHash : Bytes
  entryHash : Bytes
deriving DecidableEq

/-- The rows of one workspace that `publish` and `AUTH` touch. -/
structure Db where
  sets : List SetRow
  entries : List EntryRow
  principals : List PrincipalRow
  quorums : List QuorumRow
  probations : List ProbationRow
  rotations : List RotationRow
  grants : List GrantRow
  pushHandles : List PushRow
  genesis : Option GenesisRow
  reservations : List ReservationRow
  invites : List InviteRow
  handoff : Option Bytes
  log : List LogRow
deriving DecidableEq

/-- A database call that could not answer, or a publication that was refused. -/
inductive StoreError where
  | database
  | refused (error : AccessError)
deriving DecidableEq

/-! ## Reads -/

/-- `order by version desc limit 1`. -/
def newestSet (db : Db) : Option SetRow :=
  db.sets.foldl (fun best row =>
    match best with
    | none => some row
    | some held => if held.version < row.version then some row else some held) none

/-- The entry hashes of one version, `order by entry_hash`. -/
def readEntries (db : Db) (version : Nat) : List Bytes :=
  ((db.entries.filter (fun row => row.version = version)).map (·.entryHash)).insertionSort (· ≤ ·)

/-- The principals of one version, `order by pubkey`. -/
def readPrincipals (db : Db) (version : Nat) : List PrincipalRow :=
  (db.principals.filter (fun row => row.version = version)).insertionSort
    (fun a b => a.pubkey ≤ b.pubkey)

/-- The keys of one role, in the order they were read. -/
def keysOf (role : Role) (principals : List PrincipalRow) : List Bytes :=
  (principals.filter (fun row => row.role = role)).map (·.pubkey)

/-- The quorum threshold of one version. -/
def readThreshold (db : Db) (version : Nat) : Option Nat :=
  (db.quorums.find? (fun row => row.version = version)).map (·.threshold)

/-- What the four reads of `read_prior` add up to. -/
def assemblePrior (row : SetRow) (entries : List Bytes) (principals : List PrincipalRow)
    (threshold : Option Nat) : Prior where
  workspace := row.body.workspace
  version := row.version
  digest := row.digest
  entries := entries
  authorizers := keysOf .authorizer principals
  recovery := keysOf .recovery principals
  quorum := threshold.map (fun threshold => ⟨threshold, keysOf .quorum principals, []⟩)

/-- `read_prior`, its statements run with nothing in between. -/
def readPrior (db : Db) : Option Prior :=
  (newestSet db).map (fun row =>
    assemblePrior row (readEntries db row.version) (readPrincipals db row.version)
      (readThreshold db row.version))

/-- Has this recovery principal rotated inside the window?
`attempted_at > now - window`, with the window moved to the other side. -/
def rotatedRecently (db : Db) (recoveryKey : Bytes) (now : Nat) : Bool :=
  0 < (db.rotations.filter (fun row =>
    row.recoveryKey = recoveryKey ∧ now < row.attemptedAt + rotationWindow)).length

/-- The limiter is asked only about a signer that is a prior recovery principal. -/
def recently (db : Db) (prior : Option Prior) (signer : Bytes) (now : Nat) : Bool :=
  match prior with
  | some prior => if signer ∈ prior.recovery then rotatedRecently db signer now else false
  | none => false

/-! ## The transaction -/

/-- `insert ... on conflict do nothing`, under the key of all three columns. -/
def insertPrincipal (version : Nat) (role : Role) (principals : List PrincipalRow)
    (key : Bytes) : List PrincipalRow :=
  if (⟨version, role, key⟩ : PrincipalRow) ∈ principals then principals
  else principals ++ [⟨version, role, key⟩]

/-- A grant whose hash the set carries is marked as seen. -/
def markSeen (version : Nat) (entries : List Bytes) (grant : GrantRow) : GrantRow :=
  if grant.voided = none ∧ grant.deviceHash ∈ entries then
    { grant with seenVersion := some version }
  else grant

/-- A grant that was seen before and is not in the set is void. -/
def voidSuperseded (entries : List Bytes) (grant : GrantRow) : GrantRow :=
  if grant.voided = none ∧ grant.seenVersion ≠ none ∧ grant.deviceHash ∉ entries then
    { grant with voided := some .superseded }
  else grant

section Transaction

variable (c : Crypto)

/-- What the relay prints at first run and a client pins: BLAKE3 of the genesis public
key under the label `weald genesis v1`. -/
def fingerprint (publicKey : Bytes) : Bytes :=
  let label : Bytes :=
    [119, 101, 97, 108, 100, 32, 103, 101, 110, 101, 115, 105, 115, 32, 118, 49]
  c.blake3 (label ++ publicKey)

/-- Entry zero: the genesis key, its fingerprint, and the trust root it admitted. -/
def entryZeroBody (genesisPublic trustRoot deviceHash : Bytes) : Bytes :=
  Cbor.array [Cbor.bytes genesisPublic, Cbor.bytes (fingerprint c genesisPublic),
      Cbor.bytes trustRoot, Cbor.bytes deviceHash]

/-- BLAKE3 over the previous entry hash and this entry's body. -/
def logChain (prevHash body : Bytes) : Bytes := c.blake3 (prevHash ++ body)

/-- The reservation a genesis set may consume: the key unspent, the seat still held.
The first one in table order stands for the row the database happens to return. -/
def consumable (db : Db) : Option (GenesisRow × ReservationRow) :=
  match db.genesis with
  | none => none
  | some genesis =>
    if genesis.secretKey = none then none
    else
      (db.reservations.find? (fun r =>
        r.token = genesis.token ∧ r.consumed = false ∧ r.released = false)).map
          (fun r => (genesis, r))

/-- `consume_in_tx`: the genesis set retires the seat, the invite and the key. -/
def consumeInTx (db : Db) (candidate : AccessSet) (salt : Bytes) : Except StoreError Db :=
  if candidate.version ≠ 0 then .ok db
  else
    match candidate.authorizers with
    | [trustRoot] =>
      match consumable db with
      | none => .ok db
      | some (genesis, reservation) =>
        if entryHash c trustRoot salt ≠ reservation.deviceHash then .ok db
        else if db.log.any (fun row => row.seq = 0) then .error .database
        else
          let body := entryZeroBody c genesis.publicKey trustRoot reservation.deviceHash
          let prevHash : Bytes := List.replicate hashBytes 0
          .ok { db with
            reservations := db.reservations.map (fun r =>
              if r.token = reservation.token ∧ r.joinNonce = reservation.joinNonce then
                { r with consumed := true }
              else r)
            invites := db.invites.map (fun i =>
              if i.token = reservation.token then { i with state := .spent, remaining := 0 }
              else i)
            genesis := some { genesis with secretKey := none }
            handoff := none
            log := db.log ++ [⟨0, body, prevHash, logChain c prevHash body⟩] }
    | _ => .ok db

/-- The statements between the insert of the set and the genesis step. -/
def applySet (db : Db) (candidate : AccessSet) (signedAs : SignedAs) (effects : Effects)
    (now : Nat) : Db :=
  let version := candidate.version
  let named :=
    candidate.recovery.foldl (insertPrincipal version .recovery)
      (candidate.authorizers.foldl (insertPrincipal version .authorizer) db.principals)
  { db with
    sets := db.sets ++ [⟨version, candidate.digest c, signedAs, candidate⟩]
    entries := db.entries ++ candidate.entries.map (fun entry => ⟨version, entry⟩)
    principals :=
      match candidate.quorum with
      | some quorum => quorum.keys.foldl (insertPrincipal version .quorum) named
      | none => named
    quorums :=
      match candidate.quorum with
      | some quorum => db.quorums ++ [⟨version, quorum.threshold⟩]
      | none => db.quorums
    rotations :=
      match signedAs with
      | .recovery => db.rotations ++ [⟨candidate.signer, now⟩]
      | .authorizer => db.rotations
    probations := applyEffects version effects db.probations
    grants := (db.grants.map (markSeen version candidate.entries)).map
      (voidSuperseded candidate.entries)
    pushHandles := db.pushHandles.filter (fun row => row.entryHash ∉ effects.removed) }

/-- The one transaction of `publish`: every statement, or an error and no change. -/
def commit (db : Db) (candidate : AccessSet) (signedAs : SignedAs) (effects : Effects)
    (salt : Bytes) (now : Nat) : Except StoreError Db :=
  -- `on conflict do nothing` covers the version and the digest, both unique.
  if db.sets.any (fun row => row.version = candidate.version ∨ row.digest = candidate.digest c)
  then .error (.refused (.versionNotNext candidate.version candidate.version))
  -- The rotation row is unique in its key and its time.
  else if signedAs = .recovery ∧ (⟨candidate.signer, now⟩ : RotationRow) ∈ db.rotations then
    .error .database
  else consumeInTx c (applySet c db candidate signedAs effects now) candidate salt

/-- `publish`, run with nothing in between: read, judge, commit. -/
def publish (db : Db) (candidate : AccessSet) (salt : Bytes) (now : Nat) :
    Except StoreError (SignedAs × Effects × Db) :=
  let prior := readPrior db
  match judge c candidate prior salt (readProbations db.probations)
      (recently db prior candidate.signer now) with
  | .error error => .error (.refused error)
  | .ok (signedAs, effects) =>
    match commit c db candidate signedAs effects salt now with
    | .error error => .error error
    | .ok next => .ok (signedAs, effects, next)

end Transaction

/-! ## What the tables hold -/

/-- Principal rows that name a set's keys, role by role. -/
structure PrincipalsOf (body : AccessSet) (principals : List PrincipalRow) : Prop where
  authorizers : keysOf .authorizer principals = body.authorizers
  recovery : keysOf .recovery principals = body.recovery
  quorum : ∀ quorum, body.quorum = some quorum → keysOf .quorum principals = quorum.keys

/-- The rows of version `version`, for a set that has been stored whole. -/
structure HoldsSet (db : Db) (version : Nat) (body : AccessSet) : Prop where
  entries : readEntries db version = body.entries
  principals : PrincipalsOf body (readPrincipals db version)
  threshold : readThreshold db version = body.quorum.map (·.threshold)

/-- The chain tables agree: versions count up and every set's rows are there. -/
structure Consistent (c : Crypto) (db : Db) : Prop where
  versions : ∀ (i : Nat) (row : SetRow), db.sets[i]? = some row → row.version = i
  body : ∀ row ∈ db.sets, row.body.version = row.version ∧ row.digest = row.body.digest c
  holds : ∀ row ∈ db.sets, HoldsSet db row.version row.body
  entries_lt : ∀ row ∈ db.entries, row.version < db.sets.length
  principals_lt : ∀ row ∈ db.principals, row.version < db.sets.length
  quorums_lt : ∀ row ∈ db.quorums, row.version < db.sets.length

section Consistency

variable {c : Crypto} {db next : Db} {cand : AccessSet} {signedAs : SignedAs}
variable {eff : Effects} {salt : Bytes} {now : Nat} {row : SetRow} {ver : Nat}

/-- Reading a stored set back gives what its successor is judged against. -/
theorem assemblePrior_eq {principals} (hok : Consistent c db)
    (hrow : row ∈ db.sets) (hprin : PrincipalsOf row.body principals) :
    assemblePrior row row.body.entries principals (readThreshold db row.version) =
      row.body.toPrior c := by
  obtain ⟨hver, hdigest⟩ := hok.body row hrow
  unfold assemblePrior AccessSet.toPrior AccessSet.configuredQuorum
  rw [hprin.authorizers, hprin.recovery, (hok.holds row hrow).threshold, hver, hdigest]
  cases hquorum : row.body.quorum with
  | none => rfl
  | some quorum => simp [hprin.quorum quorum hquorum]

theorem foldl_insertPrincipal (ver : Nat) (role : Role) :
    ∀ (keys : List Bytes) (principals : List PrincipalRow), keys.Nodup →
      (∀ key ∈ keys, (⟨ver, role, key⟩ : PrincipalRow) ∉ principals) →
      keys.foldl (insertPrincipal ver role) principals =
        principals ++ keys.map (fun key => ⟨ver, role, key⟩)
  | [], principals, _, _ => by simp
  | key :: rest, principals, hnd, hnew => by
      obtain ⟨hkey, hr⟩ := nodup_cons.mp hnd
      have hs : insertPrincipal ver role principals key = principals ++ [⟨ver, role, key⟩] :=
        if_neg (hnew key (by simp))
      rw [foldl_cons, hs, foldl_insertPrincipal ver role rest _ hr ?_]
      · simp
      · intro x ho hmem
        rcases mem_append.mp hmem with hold | hlast
        · exact hnew x (mem_cons_of_mem _ ho) hold
        · simp only [mem_singleton, PrincipalRow.mk.injEq, true_and] at hlast
          exact hkey (hlast ▸ ho)

/-- The principal rows of one set, in the order the transaction inserts them. -/
def principalRows (candidate : AccessSet) : List PrincipalRow :=
  candidate.authorizers.map (fun key => ⟨candidate.version, .authorizer, key⟩) ++
    candidate.recovery.map (fun key => ⟨candidate.version, .recovery, key⟩) ++
    (candidate.quorum.elim [] RecoveryQuorum.keys).map
      (fun key => ⟨candidate.version, .quorum, key⟩)

/-- The quorum row of one set, if it configures a quorum. -/
def quorumRows (candidate : AccessSet) : List QuorumRow :=
  match candidate.quorum with
  | some quorum => [⟨candidate.version, quorum.threshold⟩]
  | none => []

theorem version_of_mem_principalRows {row}
    (h : row ∈ principalRows cand) : row.version = cand.version := by
  simp only [principalRows, mem_append, mem_map] at h
  rcases h with (⟨_, _, rfl⟩ | ⟨_, _, rfl⟩) | ⟨_, _, rfl⟩ <;> rfl

theorem nodup_of_ascending {keys : List Bytes} (h : keys.Pairwise (· < ·)) : keys.Nodup :=
  h.imp (ne_of_lt ·)

theorem applySet_principals (hshaped : WellShaped c salt cand)
    (hnew : ∀ row ∈ db.principals, row.version ≠ cand.version) :
    (applySet c db cand signedAs eff now).principals = db.principals ++ principalRows cand := by
  have hfresh : ∀ (role : Role) (key : Bytes),
      (⟨cand.version, role, key⟩ : PrincipalRow) ∉ db.principals :=
    fun role key hmem => hnew _ hmem rfl
  let auth : List PrincipalRow :=
    cand.authorizers.map (fun key => ⟨cand.version, .authorizer, key⟩)
  let recov : List PrincipalRow :=
    cand.recovery.map (fun key => ⟨cand.version, .recovery, key⟩)
  have hauth := foldl_insertPrincipal cand.version .authorizer cand.authorizers
    db.principals (nodup_of_ascending hshaped.authorizers_sorted)
    (fun key _ => hfresh .authorizer key)
  have hrec := foldl_insertPrincipal cand.version .recovery cand.recovery
    (db.principals ++ auth) (nodup_of_ascending hshaped.recovery_sorted) (by simp [auth, hfresh])
  unfold applySet principalRows
  dsimp only
  rw [hauth, hrec]
  cases hquorum : cand.quorum with
  | none => simp [auth]
  | some quorum =>
    have hkeys := foldl_insertPrincipal cand.version .quorum quorum.keys
      (db.principals ++ auth ++ recov)
      (nodup_of_ascending (hshaped.quorum_sorted quorum hquorum))
      (by simp [auth, recov, hfresh])
    dsimp only
    rw [hkeys]
    simp [auth, recov]

theorem filter_version_nil {ρ : Type} {f : ρ → Nat} {rows : List ρ}
    (h : ∀ row ∈ rows, f row ≠ ver) : rows.filter (f · = ver) = [] :=
  filter_eq_nil_iff.mpr (fun row hrow => by simpa using h row hrow)

/-- The reads of one version depend only on that version's rows. -/
theorem holdsSet_of_append {extraEntries : List EntryRow} {extraPrincipals : List PrincipalRow}
    {extraQuorums : List QuorumRow} {body : AccessSet}
    (hes : next.entries = db.entries ++ extraEntries)
    (hprin : next.principals = db.principals ++ extraPrincipals)
    (hquorums : next.quorums = db.quorums ++ extraQuorums)
    (hne : (∀ row ∈ extraEntries, row.version ≠ ver) ∧
      (∀ row ∈ extraPrincipals, row.version ≠ ver) ∧
      ∀ row ∈ extraQuorums, row.version ≠ ver) (h : HoldsSet db ver body) :
    HoldsSet next ver body := by
  obtain ⟨hne₁, hne₂, hne₃⟩ := hne
  have he : readEntries next ver = readEntries db ver := by
    unfold readEntries
    rw [hes, filter_append, filter_version_nil hne₁, append_nil]
  have hp : readPrincipals next ver = readPrincipals db ver := by
    unfold readPrincipals
    rw [hprin, filter_append, filter_version_nil hne₂, append_nil]
  have ht : readThreshold next ver = readThreshold db ver := by
    have hnone : extraQuorums.find? (·.version = ver) = none :=
      find?_eq_none.mpr (by simpa using hne₃)
    unfold readThreshold
    rw [hquorums, find?_append, hnone, Option.or_none]
  exact ⟨he ▸ h.entries, hp ▸ h.principals, ht ▸ h.threshold⟩

/-- The rows a set brings in are read back as the set. -/
theorem holdsSet_new (hshaped : WellShaped c salt cand) (hes : next.entries =
      db.entries ++ cand.entries.map (fun e => ⟨cand.version, e⟩))
    (hprin : next.principals = db.principals ++ principalRows cand)
    (hquorums : next.quorums = db.quorums ++ quorumRows cand)
    (hne : (∀ row ∈ db.entries, row.version ≠ cand.version) ∧
      (∀ row ∈ db.principals, row.version ≠ cand.version) ∧
      ∀ row ∈ db.quorums, row.version ≠ cand.version) : HoldsSet next cand.version cand := by
  obtain ⟨hne₁, hne₂, hne₃⟩ := hne
  have hrows : next.principals.filter (·.version = cand.version) = principalRows cand := by
    rw [hprin, filter_append, filter_version_nil hne₂, nil_append, filter_eq_self]
    exact fun row hrow => decide_eq_true (version_of_mem_principalRows hrow)
  -- Each role's keys are read back in order from the rows of all three.
  have hkeys : ∀ (role : Role) (keys : List Bytes), keys.Pairwise (· < ·) →
      ((principalRows cand).filter (·.role = role)).map (·.pubkey) = keys →
      keysOf role (readPrincipals next cand.version) = keys := by
    intro role keys hsort hfilter
    unfold keysOf readPrincipals
    rw [hrows]
    exact filter_map_sortByKey (hfilter ▸ .refl _) (hsort.imp le_of_lt)
  refine ⟨?_, ⟨?_, ?_, ?_⟩, ?_⟩
  · unfold readEntries
    rw [hes, filter_append, filter_version_nil hne₁, nil_append,
      filter_eq_self.mpr (by simp), map_map]
    have hid : ((fun row : EntryRow => row.entryHash) ∘
        fun e => (⟨cand.version, e⟩ : EntryRow)) = id := rfl
    rw [hid, map_id]
    exact List.Pairwise.insertionSort_eq (hshaped.entries_sorted.imp le_of_lt)
  · refine hkeys .authorizer _ hshaped.authorizers_sorted ?_
    simp [principalRows, filter_map, Function.comp_def]
  · refine hkeys .recovery _ hshaped.recovery_sorted ?_
    simp [principalRows, filter_map, Function.comp_def]
  · intro quorum hquorum
    refine hkeys .quorum _ (hshaped.quorum_sorted quorum hquorum) ?_
    simp [principalRows, filter_map, Function.comp_def, hquorum]
  · have hnone : db.quorums.find? (·.version = cand.version) = none :=
      find?_eq_none.mpr (by simpa using hne₃)
    unfold readThreshold
    rw [hquorums, find?_append, hnone, quorumRows]
    cases cand.quorum with
    | none => rfl
    | some quorum => simp

/-- What the genesis step leaves alone. -/
structure SameChainRows (db next : Db) : Prop where
  sets : next.sets = db.sets
  entries : next.entries = db.entries
  principals : next.principals = db.principals
  quorums : next.quorums = db.quorums
  probations : next.probations = db.probations
  rotations : next.rotations = db.rotations
  grants : next.grants = db.grants
  pushHandles : next.pushHandles = db.pushHandles

theorem SameChainRows.refl (db : Db) : SameChainRows db db :=
  ⟨rfl, rfl, rfl, rfl, rfl, rfl, rfl, rfl⟩

theorem consumeInTx_rows (h : consumeInTx c db cand salt = .ok next) : SameChainRows db next := by
  unfold consumeInTx at h
  split at h
  next =>
    cases h
    exact .refl db
  next =>
    split at h
    next trustRoot _ =>
      split at h
      next =>
        cases h
        exact .refl db
      next genesis reservation _ =>
        split at h
        next =>
          cases h
          exact .refl db
        next =>
          obtain ⟨-, h⟩ := guard_ok h
          cases h
          exact ⟨rfl, rfl, rfl, rfl, rfl, rfl, rfl, rfl⟩
    next =>
      cases h
      exact .refl db

/-- What a transaction that went through has passed and written. -/
theorem commit_ok (h : commit c db cand signedAs eff salt now = .ok next) :
    (∀ row ∈ db.sets, row.version ≠ cand.version) ∧
      (signedAs = .recovery → (⟨cand.signer, now⟩ : RotationRow) ∉ db.rotations) ∧
      SameChainRows (applySet c db cand signedAs eff now) next := by
  unfold commit at h
  obtain ⟨habs, h⟩ := guard_ok h
  obtain ⟨hrot, h⟩ := guard_ok h
  refine ⟨?_, fun hsig hmem => hrot ⟨hsig, hmem⟩, consumeInTx_rows h⟩
  intro row hrow hver
  refine habs (any_eq_true.mpr ⟨row, hrow, ?_⟩)
  exact decide_eq_true (.inl hver)

variable (hok : Consistent c db)
include hok

theorem Consistent.version_lt (hrow : row ∈ db.sets) : row.version < db.sets.length := by
  obtain ⟨i, hi⟩ := List.getElem?_of_mem hrow
  rw [hok.versions i row hi]
  exact (List.getElem?_eq_some_iff.mp hi).1

theorem consistent_commit (hshaped : WellShaped c salt cand) (hver : cand.version = db.sets.length)
    (h : commit c db cand signedAs eff salt now = .ok next) : Consistent c next := by
  obtain ⟨-, -, hrows⟩ := commit_ok h
  have hsets : next.sets = db.sets ++ [⟨cand.version, cand.digest c, signedAs, cand⟩] := hrows.sets
  have hes : next.entries = db.entries ++
      cand.entries.map (fun e => ⟨cand.version, e⟩) := hrows.entries
  have hprin : next.principals = db.principals ++ principalRows cand := by
    rw [hrows.principals]
    exact applySet_principals hshaped fun row hrow => by have := hok.principals_lt row hrow; omega
  have hquorums : next.quorums = db.quorums ++ quorumRows cand := by
    rw [hrows.quorums]
    unfold applySet quorumRows
    cases cand.quorum <;> simp
  have hquorumVersion : ∀ row ∈ quorumRows cand, row.version = cand.version := by
    unfold quorumRows
    cases cand.quorum <;> simp
  have hlen : next.sets.length = db.sets.length + 1 := by
    rw [hsets, length_append, length_singleton]
  have hmem : ∀ row ∈ next.sets, row ∈ db.sets ∨
      row = ⟨cand.version, cand.digest c, signedAs, cand⟩ := by
    intro row hrow
    rw [hsets, mem_append, mem_singleton] at hrow
    exact hrow
  refine ⟨?_, ?_, ?_, ?_, ?_, ?_⟩
  · intro i row hi
    rw [hsets, getElem?_append] at hi
    split at hi
    next => exact hok.versions i row hi
    next hge =>
      obtain ⟨hlt, hrow⟩ := List.getElem?_eq_some_iff.mp hi
      rw [length_singleton] at hlt
      have hi0 : i - db.sets.length = 0 := by omega
      rw [hi0, List.getElem?_cons_zero, Option.some.injEq] at hi
      rw [← hi]
      show cand.version = i
      omega
  · intro row hrow
    rcases hmem row hrow with hold | rfl
    · exact hok.body row hold
    · exact ⟨rfl, rfl⟩
  · intro row hrow
    rcases hmem row hrow with hold | rfl
    · -- Every new row carries the new version, so the old reads are as they were.
      have hlt := hok.version_lt hold
      refine holdsSet_of_append hes hprin hquorums ⟨?_, ?_, ?_⟩ (hok.holds row hold)
      · intro new hnew
        obtain ⟨_, -, rfl⟩ := mem_map.mp hnew
        show cand.version ≠ row.version
        omega
      · intro new hnew
        rw [version_of_mem_principalRows hnew]
        omega
      · intro new hnew
        rw [hquorumVersion new hnew]
        omega
    · refine holdsSet_new hshaped hes hprin hquorums ⟨?_, ?_, ?_⟩
      · exact fun row hrow => by have := hok.entries_lt row hrow; omega
      · exact fun row hrow => by have := hok.principals_lt row hrow; omega
      · exact fun row hrow => by have := hok.quorums_lt row hrow; omega
  · intro row hrow
    rw [hes, mem_append, mem_map] at hrow
    rcases hrow with hold | ⟨_, -, rfl⟩
    · have := hok.entries_lt row hold
      omega
    · show cand.version < _
      omega
  · intro row hrow
    rw [hprin, mem_append] at hrow
    rcases hrow with hold | hnew
    · have := hok.principals_lt row hold
      omega
    · have := version_of_mem_principalRows hnew
      omega
  · intro row hrow
    rw [hquorums, mem_append] at hrow
    rcases hrow with hold | hnew
    · have := hok.quorums_lt row hold
      omega
    · have := hquorumVersion row hnew
      omega

theorem newestSet_eq : newestSet db = db.sets.getLast? := by
  have hfold : ∀ (rows : List SetRow),
      (∀ (i : Nat) (row : SetRow), rows[i]? = some row → row.version = i) →
      rows.foldl (fun best row =>
        match best with
        | none => some row
        | some held => if held.version < row.version then some row else some held) none =
        rows.getLast? := by
    intro rows
    induction rows using reverseRecOn with
    | nil => intro _; rfl
    | append_singleton rows row ih =>
      intro hver
      have hb : ∀ (i : Nat) (r : SetRow), rows[i]? = some r → r.version = i := by
        intro i r hi
        refine hver i r ?_
        rw [List.getElem?_append_left (List.getElem?_eq_some_iff.mp hi).1]
        exact hi
      rw [foldl_append, ih hb, List.getLast?_append]
      cases hlast : rows.getLast? with
      | none => rfl
      | some held =>
        obtain ⟨i, hi⟩ := List.getElem?_of_mem (mem_of_getLast? hlast)
        have hheld := hb i held hi
        have hilt := (List.getElem?_eq_some_iff.mp hi).1
        have hrow : row.version = rows.length := hver _ _ (by simp)
        have hlt : held.version < row.version := by omega
        simp [hlt]
  exact hfold db.sets hok.versions

theorem readPrior_eq : readPrior db = db.sets.getLast?.map (·.body.toPrior c) := by
  unfold readPrior
  rw [newestSet_eq hok]
  cases hlast : db.sets.getLast? with
  | none => rfl
  | some row =>
    have hrow := mem_of_getLast? hlast
    have hholds := hok.holds row hrow
    rw [Option.map_some, Option.map_some, hholds.entries,
      assemblePrior_eq hok hrow hholds.principals]

end Consistency

end WealdRelay.Access
