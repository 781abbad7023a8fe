import Mathlib.Data.List.Find
import WealdRelay.Access.Publisher
import WealdRelay.Invite.Joins

/-!
# Minting and redeeming the genesis key

`invite/genesis.rs` among the calls it runs beside: `ensure` mints a workspace's genesis
key with its bootstrap invite, joins take and give back the seat of that invite, and the
publication of the genesis set spends it and destroys the key. All of them are processes
over the rows of one workspace.

The transaction of `publish`, one turn in `Access/Publisher.lean`, is pulled apart here at
the places where it waits for a row or works from a snapshot: the insert of the set, the
statements on the grants, the two halves of the `select ... for update` that looks for the
bootstrap seat, and the update of the invite. `solo_publish` says that with nothing in
between they are that one turn again. The joins are the ones of `Invite/Joins.lean`, on
the tables they share with a publication.
-/

namespace WealdRelay.Invite.Genesis

open Lib Access Machine

/-- A bootstrap invite lives for a day. -/
def bootstrapExpiryMs : Nat := 24 * 60 * 60 * 1000

/-- The rows of one workspace: those a publication touches, and the rest of a join's. -/
structure Store where
  db : Db
  tombstones : List TombstoneRow
  bundles : List BundleRow
  scopes : List ScopeRow
  scopeCommits : List ScopeCommitRow
deriving DecidableEq

/-- The tables as a join sees them. -/
def Store.tables (s : Store) : Tables where
  invites := s.db.invites
  reservations := s.db.reservations
  grants := s.db.grants
  tombstones := s.tombstones
  bundles := s.bundles
  scopes := s.scopes
  scopeCommits := s.scopeCommits

/-- The rows after a join has written its tables. -/
def Store.withTables (s : Store) (t : Tables) : Store where
  db := { s.db with invites := t.invites, reservations := t.reservations, grants := t.grants }
  tombstones := t.tombstones
  bundles := t.bundles
  scopes := t.scopes
  scopeCommits := t.scopeCommits

def Store.withDb (s : Store) (db : Db) : Store := { s with db := db }

/-- What one call of `ensure` draws at random; the public key belongs to the secret. -/
structure Mint where
  secret : Bytes
  publicKey : Bytes
  token : Bytes
deriving DecidableEq

inductive Ensured where
  | minted (mint : Mint)
  | existing (fingerprint token : Bytes) (redeemed : Bool)
deriving DecidableEq

/-- A set whose transaction is open, and when it opened. -/
structure Publication where
  judgement : Judgement
  now : Nat
deriving DecidableEq

def Publication.candidate (p : Publication) : AccessSet := p.judgement.candidate

/-- The seat a genesis set may spend, and the set's one authorizer. -/
structure Seat where
  trustRoot : Bytes
  genesis : GenesisRow
  reservation : ReservationRow
deriving DecidableEq

/-- Where a process stands; a phase names the statement it runs next. -/
inductive Phase where
  | join (a : Invite.Phase)
  | read (issuedAt : Nat) (mint : Mint) (attempted : Bool)
  | insert (issuedAt : Nat) (mint : Mint)
  | commitMint (issuedAt : Nat) (mint : Mint)
  | ensured (answer : Ensured)
  | vanished
  | publish (a : Access.Phase)
  | inserted (p : Publication)
  | marked (p : Publication) (touched : List Bytes)
  | seatsRead (p : Publication) (touched : List Bytes) (trustRoot : Bytes)
      (candidates : List (Bytes × Bytes))
  | retire (p : Publication) (touched : List Bytes) (seat : Seat)
  | commitSet (p : Publication) (touched : List Bytes) (held : Option Seat)
  | commitGenesis (p : Publication) (touched : List Bytes) (seat : Seat)
deriving DecidableEq

/-- What a process does with its turn. -/
inductive Action where
  | join (i : Invite.Action)
  | ensure (now : Nat) (mint : Mint)
  | publish (candidate : AccessSet)
  | turn (now : Nat)
  | fail
deriving DecidableEq

/-- The rows and keys a transaction can hold. -/
inductive Row where
  | join (row : Invite.Row)
  | genesis
  | version (version : Nat)
  | digest (digest : Bytes)
deriving DecidableEq

/-! ## Minting -/

section Mint

variable (c : Crypto)

/-- The one `read` of `ensure`, and what it makes of a second pass that finds nothing. -/
def readGenesis (db : Db) (issuedAt : Nat) (mint : Mint) (attempted : Bool) : Phase :=
  match db.genesis with
  | some genesis =>
    .ensured (.existing (fingerprint c genesis.publicKey) genesis.token (genesis.secretKey = none))
  | none => if attempted then .vanished else .insert issuedAt mint

/-- The two inserts of `ensure`. The loser of a race rolls its invite back and goes round
once more. -/
def insertGenesis (db : Db) (issuedAt : Nat) (mint : Mint) : Phase :=
  if db.invites.any (fun invite => invite.token = mint.token) then .vanished
  else
    match db.genesis with
    | some _ => .read issuedAt mint true
    | none => .commitMint issuedAt mint

/-- What the commit of `ensure` leaves. -/
def afterMint (db : Db) (issuedAt : Nat) (mint : Mint) : Db :=
  { db with
    invites := db.invites ++
      [{ token := mint.token, uses := 1, expiresAt := issuedAt + bootstrapExpiryMs,
         bootstrap := true, state := .live, remaining := 1 }]
    genesis := some ⟨mint.publicKey, some mint.secret, mint.token⟩ }

end Mint

/-! ## The transaction of a publication, statement by statement -/

section Publish

variable (c : Crypto) (salt : Bytes)

/-- The judgement, and the insert of the set under its two unique keys. -/
def insertSet (db : Db) (now : Nat) (candidate : AccessSet) (prior : Option Prior)
    (probations : List Probation) (rotatedRecently : Bool) : Phase :=
  match judge c candidate prior salt probations rotatedRecently with
  | .error error => .publish (.refused (.refused error))
  | .ok (signedAs, effects) =>
    if db.sets.any (fun row =>
        row.version = candidate.version ∨ row.digest = candidate.digest c) then
      .publish (.refused (.refused (.versionNotNext candidate.version candidate.version)))
    else if signedAs = .recovery ∧ (⟨candidate.signer, now⟩ : RotationRow) ∈ db.rotations then
      .publish (.refused .database)
    else
      .inserted ⟨⟨candidate, prior, probations, rotatedRecently, signedAs, effects⟩, now⟩

/-- The grants that the two statements on them write. -/
def touchedGrants (grants : List GrantRow) (entries : List Bytes) : List Bytes :=
  (grants.filter (fun grant =>
    grant.voided = none ∧ (grant.deviceHash ∈ entries ∨ grant.seenVersion ≠ none))).map
      (·.deviceHash)

/-- The snapshot of `consume_in_tx`: the seats of the bootstrap invite still held while
the key is unspent. -/
def seatKeys (db : Db) : List (Bytes × Bytes) :=
  match db.genesis with
  | none => []
  | some genesis =>
    if genesis.secretKey = none then []
    else
      (db.reservations.filter (fun row =>
        decide (row.token = genesis.token) && outstanding row)).map reservationKey

/-- The row that `for update` locks: found in the snapshot, and still as it was there. -/
def seatFound (db : Db) (candidates : List (Bytes × Bytes)) :
    Option (GenesisRow × ReservationRow) :=
  match db.genesis with
  | none => none
  | some genesis =>
    if genesis.secretKey = none then none
    else
      (db.reservations.find? (fun row =>
        candidates.contains (reservationKey row) && decide (row.token = genesis.token) &&
          outstanding row)).map (fun row => (genesis, row))

/-- `consume_in_tx` down to its query: only version 0, and only one authorizer. -/
def readSeats (db : Db) (p : Publication) (touched : List Bytes) : Phase :=
  if p.candidate.version ≠ 0 then .commitSet p touched none
  else
    match p.candidate.authorizers with
    | [trustRoot] => .seatsRead p touched trustRoot (seatKeys db)
    | _ => .commitSet p touched none

/-- The rows are locked and the seat's device is compared with the authorizer. -/
def lockSeat (db : Db) (p : Publication) (touched : List Bytes) (trustRoot : Bytes)
    (candidates : List (Bytes × Bytes)) : Phase :=
  match seatFound db candidates with
  | none => .commitSet p touched none
  | some (genesis, reservation) =>
    if entryHash c trustRoot salt ≠ reservation.deviceHash then
      .commitSet p touched (some ⟨trustRoot, genesis, reservation⟩)
    else .retire p touched ⟨trustRoot, genesis, reservation⟩

/-- What the commit leaves of the set itself. -/
def afterSet (db : Db) (p : Publication) (touched : List Bytes) : Db :=
  { applySet c db p.candidate p.judgement.signedAs p.judgement.effects p.now with
    grants := db.grants.map (fun grant =>
      if grant.deviceHash ∈ touched then
        voidSuperseded p.candidate.entries (markSeen p.candidate.version p.candidate.entries grant)
      else grant) }

/-- What the commit leaves of the seat, its invite, the key and the log. -/
def afterRetire (db : Db) (seat : Seat) : Db :=
  let body := entryZeroBody c seat.genesis.publicKey seat.trustRoot seat.reservation.deviceHash
  let prevHash : Bytes := List.replicate hashBytes 0
  { db with
    reservations := db.reservations.map (fun row =>
      if row.token = seat.reservation.token ∧ row.joinNonce = seat.reservation.joinNonce then
        { row with consumed := true }
      else row)
    invites := db.invites.map (fun invite =>
      if invite.token = seat.reservation.token then
        { invite with state := .spent, remaining := 0 }
      else invite)
    genesis := some { seat.genesis with secretKey := none }
    handoff := none
    log := db.log ++ [⟨0, body, prevHash, logChain c prevHash body⟩] }

end Publish

/-! ## Turns and locks -/

section Machine

variable (c : Crypto) (salt : Bytes)

/-- One statement of `ensure` or of `publish` against the rows as they stand. -/
def statement (now : Nat) (s : Store) : Phase → Option (Store × Phase)
  | .join _ | .ensured _ | .vanished => none
  | .read issuedAt mint attempted => some (s, readGenesis c s.db issuedAt mint attempted)
  | .insert issuedAt mint => some (s, insertGenesis s.db issuedAt mint)
  | .commitMint issuedAt mint =>
    some (s.withDb (afterMint s.db issuedAt mint), .ensured (.minted mint))
  | .publish (.commit candidate prior probations rotatedRecently) =>
    some (s, insertSet c salt s.db now candidate prior probations rotatedRecently)
  | .publish a =>
    if a.inProgress then some (s, .publish (Access.statement c salt s.db now a).1) else none
  | .inserted p => some (s, .marked p (touchedGrants s.db.grants p.candidate.entries))
  | .marked p touched => some (s, readSeats s.db p touched)
  | .seatsRead p touched trustRoot candidates =>
    some (s, lockSeat c salt s.db p touched trustRoot candidates)
  | .retire p touched seat =>
    -- Entry zero is unique in the log.
    if s.db.log.any (fun row => row.seq = 0) then some (s, .publish (.refused .database))
    else some (s, .commitGenesis p touched seat)
  | .commitSet p touched _ =>
    some (s.withDb (afterSet c s.db p touched), .publish (.stored p.judgement))
  | .commitGenesis p touched seat =>
    some (s.withDb (afterRetire c (afterSet c s.db p touched) seat), .publish (.stored p.judgement))

/-- What a failed call answers; a join fails by its own action. -/
def Phase.failed : Phase → Option Phase
  | .join _ | .ensured _ | .vanished => none
  | .publish a => if a.inProgress then some (.publish (.refused .database)) else none
  | .read _ _ _ | .insert _ _ | .commitMint _ _ => some .vanished
  | .inserted _ | .marked _ _ | .seatsRead _ _ _ _ | .retire _ _ _ | .commitSet _ _ _
  | .commitGenesis _ _ _ => some (.publish (.refused .database))

def act (i : Action) (s : Store) (a : Phase) : Option (Store × Phase) :=
  match i, a with
  | .join i, .join a => (Invite.act c i s.tables a).map (fun r => (s.withTables r.1, .join r.2))
  | .ensure now mint, .join .idle => some (s, .read now mint false)
  | .publish candidate, .join .idle => some (s, .publish (.readHead candidate))
  | .turn now, a => statement c salt now s a
  | .fail, a => a.failed.map (fun b => (s, b))
  | _, _ => none

/-- The unique keys of a set that is stored and not committed. -/
def Publication.rows (p : Publication) : List Row :=
  [.version p.candidate.version, .digest (p.candidate.digest c)]

def grantLocks (touched : List Bytes) : List Row :=
  touched.map (fun hash => .join (.grant hash))

def Seat.rows (seat : Seat) : List Row :=
  [.genesis, .join (.reservation seat.reservation.token seat.reservation.joinNonce)]

def locks : Phase → List Row
  | .join a => a.locks.map .join
  | .commitMint _ mint => [.join (.invite mint.token), .genesis]
  | .inserted p => p.rows c
  | .marked p touched | .seatsRead p touched _ _ | .commitSet p touched none =>
    p.rows c ++ grantLocks touched
  | .retire p touched seat | .commitSet p touched (some seat) =>
    seat.rows ++ (p.rows c ++ grantLocks touched)
  | .commitGenesis p touched seat =>
    .join (.invite seat.genesis.token) :: (seat.rows ++ (p.rows c ++ grantLocks touched))
  | _ => []

/-- A join's statement needs what it needs; any other one needs what it goes on to hold. -/
def needs (i : Action) (s : Store) (a : Phase) : List Row :=
  match i, a with
  | .join i, .join a => (Invite.needs i s.tables a).map .join
  | i, a => ((act c salt i s a).map (fun r => locks c r.2)).getD []

end Machine

/-! ## What a turn can do -/

section Turns

variable {c : Crypto} {salt : Bytes} {i : Action} {s s' : Store} {a a' : Phase} {now : Nat}

/-- The rows after the commit a phase stands before, if it stands before one. -/
def Phase.commits (c : Crypto) (db : Db) : Phase → Option Db
  | .commitMint issuedAt mint => some (afterMint db issuedAt mint)
  | .commitSet p touched _ => some (afterSet c db p touched)
  | .commitGenesis p touched seat => some (afterRetire c (afterSet c db p touched) seat)
  | _ => none

theorem statement_store (h : statement c salt now s a = some (s', a')) :
    s' = s.withDb ((a.commits c s.db).getD s.db) := by
  cases a with
  | join | ensured | vanished => cases h
  | publish a =>
    cases a with
    | idle | stored | refused => cases h
    | readHead | readEntries | readPrincipals | readQuorum | readProbations
    | readRotations | commit =>
      cases h
      rfl
  | retire p ts seat =>
    simp only [statement] at h
    split at h <;> (obtain ⟨rfl, -⟩ := by simpa using h) <;> rfl
  | read | insert | inserted | marked | seatsRead | commitMint | commitSet | commitGenesis =>
    cases h
    rfl

theorem locks_failed (h : a.failed = some a') : locks c a' = [] := by
  cases a with
  | join | ensured | vanished => cases h
  | publish a =>
    simp only [Phase.failed] at h
    split at h
    · cases h
      rfl
    · cases h
  | read | insert | commitMint | inserted | marked | seatsRead | retire | commitSet
  | commitGenesis =>
    cases h
    rfl

/-- A turn is a join's, or starts or ends a call and holds nothing, or is a statement. -/
theorem act_cases (h : act c salt i s a = some (s', a')) :
    (∃ j b t b', i = .join j ∧ a = .join b ∧ Invite.act c j s.tables b = some (t, b') ∧
        s' = s.withTables t ∧ a' = .join b') ∨
      (s' = s ∧ locks c a' = []) ∨
      ∃ now, i = .turn now ∧ statement c salt now s a = some (s', a') := by
  unfold act at h
  split at h
  next j b =>
    obtain ⟨⟨t, b'⟩, hact, heq⟩ := Option.map_eq_some_iff.mp h
    obtain ⟨rfl, rfl⟩ := Prod.mk.inj heq
    exact .inl ⟨j, b, t, b', rfl, rfl, hact, rfl, rfl⟩
  · cases h
    exact .inr (.inl ⟨rfl, rfl⟩)
  · cases h
    exact .inr (.inl ⟨rfl, rfl⟩)
  next now => exact .inr (.inr ⟨_, rfl, h⟩)
  · obtain ⟨b, hfailed, heq⟩ := Option.map_eq_some_iff.mp h
    obtain ⟨rfl, rfl⟩ := Prod.mk.inj heq
    exact .inr (.inl ⟨rfl, locks_failed hfailed⟩)
  · cases h

theorem locks_act (h : act c salt i s a = some (s', a')) :
    ∀ row ∈ locks c a', row ∈ locks c a ∨ row ∈ needs c salt i s a := by
  intro row hrow
  unfold needs
  split
  next j b =>
    obtain ⟨⟨t, b'⟩, hact, heq⟩ := Option.map_eq_some_iff.mp h
    obtain ⟨rfl, rfl⟩ := Prod.mk.inj heq
    obtain ⟨mine, hmine, rfl⟩ := List.mem_map.mp hrow
    rcases Invite.locks_act hact mine hmine with hheld | hneeded
    · exact .inl (List.mem_map_of_mem hheld)
    · exact .inr (List.mem_map_of_mem hneeded)
  · exact .inr (by simpa [h] using hrow)

end Turns

/-- `ensure`, `publish` and the calls of a join, with the rows they hold. -/
def machine (c : Crypto) (salt : Bytes) : Machine Store Phase Action Row where
  act := act c salt
  needs := needs c salt
  locks := locks c
  locks_act := locks_act

/-! ## The transaction with nothing in between -/

section Alone

variable {c : Crypto} {salt : Bytes} {db : Db} (p : Publication) (ts : List Bytes) (n : Nat)

/-- The two statements on the grants write the rows they find, and no others matter. -/
theorem afterSet_touched : afterSet c db p (touchedGrants db.grants p.candidate.entries) =
      applySet c db p.candidate p.judgement.signedAs p.judgement.effects p.now := by
  unfold afterSet
  rw [List.map_congr_left (g := voidSuperseded p.candidate.entries ∘
    markSeen p.candidate.version p.candidate.entries), ← List.map_map]
  · rfl
  intro gr hgrant
  split
  · rfl
  next huntouched =>
    have hno : ¬ (gr.voided = none ∧
        (gr.deviceHash ∈ p.candidate.entries ∨ gr.seenVersion ≠ none)) :=
      fun hyes => huntouched (List.mem_map_of_mem
        (List.mem_filter.mpr ⟨hgrant, decide_eq_true hyes⟩))
    have hmark : markSeen p.candidate.version p.candidate.entries gr = gr :=
      if_neg (fun hboth => hno ⟨hboth.1, .inl hboth.2⟩)
    have hvoid : voidSuperseded p.candidate.entries gr = gr :=
      if_neg (fun hall => hno ⟨hall.1, .inr hall.2.1⟩)
    rw [Function.comp_apply, hmark, hvoid]

/-- With no time between the snapshot and the locks, the query finds its row. -/
theorem seatFound_seatKeys (db : Db) : seatFound db (seatKeys db) = consumable db := by
  unfold seatFound seatKeys consumable
  cases db.genesis with
  | none => rfl
  | some genesis =>
    dsimp only
    split
    · rfl
    · congr 1
      refine List.find?_congr fun row hrow => ?_
      -- The snapshot is what the other two tests say, so its own test adds nothing.
      have hsame : decide (row.token = genesis.token ∧ row.consumed = false ∧
          row.released = false) = (decide (row.token = genesis.token) && outstanding row) := by
        simp [outstanding]
      rw [hsame, Bool.and_assoc]
      cases h : decide (row.token = genesis.token) && outstanding row with
      | false => exact Bool.and_false _
      | true =>
        rw [Bool.and_true]
        exact List.contains_iff_mem.mpr (List.mem_map_of_mem (List.mem_filter.mpr ⟨hrow, h⟩))

variable {s : Store} {now : Nat} {cand : AccessSet} {prior : Option Prior}
variable {prs : List Probation} {recent : Bool}

/-- The end of a publication: refused and nothing written, or stored. -/
def published (s : Store) (judgement : Judgement) : Except StoreError Db → Store × Phase
  | .error error => (s, .publish (.refused error))
  | .ok next => (s.withDb next, .publish (.stored judgement))

theorem solo_published (s : Store) (judgement : Judgement) (out : Except StoreError Db) :
    (machine c salt).solo (.turn now) n (published s judgement out).1
        (published s judgement out).2 = published s judgement out := by
  cases out <;> exact solo_ended rfl n

theorem solo_commitSet (held : Option Seat) (n : Nat) :
    (machine c salt).solo (.turn now) (n + 1) s (.commitSet p ts held) =
      published s p.judgement (.ok (afterSet c s.db p ts)) :=
  (solo_turn rfl n).trans (solo_published n s p.judgement (.ok (afterSet c s.db p ts)))

theorem solo_retire (seat : Seat) :
    (machine c salt).solo (.turn now) 2 s (.retire p ts seat) = published s p.judgement
        (if s.db.log.any (·.seq = 0) then .error .database
        else .ok (afterRetire c (afterSet c s.db p ts) seat)) := by
  have hretire : (machine c salt).act (.turn now) s (.retire p ts seat) =
      if s.db.log.any (·.seq = 0) then some (s, .publish (.refused .database))
      else some (s, .commitGenesis p ts seat) := rfl
  split
  next hlog =>
    rw [if_pos hlog] at hretire
    rw [solo_turn hretire]
    exact solo_ended rfl 1
  next hlog =>
    rw [if_neg hlog] at hretire
    rw [solo_turn hretire]
    exact solo_turn rfl 0

/-- From the insert of the set on, what is left of the transaction is `applySet` and the
genesis step. -/
theorem solo_inserted : (machine c salt).solo (.turn now) 5 s (.inserted p) =
      published s p.judgement (consumeInTx c
        (applySet c s.db p.candidate p.judgement.signedAs p.judgement.effects p.now)
        p.candidate salt) := by
  have hset : afterSet c s.db p (touchedGrants s.db.grants p.candidate.entries) =
      applySet c s.db p.candidate p.judgement.signedAs p.judgement.effects p.now :=
    afterSet_touched p
  have hmarked : (machine c salt).act (.turn now) s (.inserted p) =
      some (s, .marked p (touchedGrants s.db.grants p.candidate.entries)) := rfl
  generalize touchedGrants s.db.grants p.candidate.entries = ts at hset hmarked
  have hread : (machine c salt).act (.turn now) s (.marked p ts) =
      some (s, readSeats s.db p ts) := rfl
  rw [solo_turn hmarked, solo_turn hread, ← hset]
  unfold readSeats consumeInTx
  by_cases hfirst : p.candidate.version ≠ 0
  · rw [if_pos hfirst, if_pos hfirst]
    exact solo_commitSet p ts none 2
  rw [if_neg hfirst, if_neg hfirst]
  rcases p.candidate.authorizers with _ | ⟨trustRoot, _ | ⟨second, rest⟩⟩
  · exact solo_commitSet p ts none 2
  · have hlock : (machine c salt).act (.turn now) s (.seatsRead p ts trustRoot (seatKeys s.db)) =
          some (s, lockSeat c salt s.db p ts trustRoot (seatKeys s.db)) := rfl
    have hconsumable : consumable (afterSet c s.db p ts) = consumable s.db := rfl
    dsimp only
    rw [solo_turn hlock, lockSeat, seatFound_seatKeys, hconsumable]
    cases consumable s.db with
    | none => exact solo_commitSet p ts none 1
    | some found =>
      dsimp only
      split
      · exact solo_commitSet p ts _ 1
      · exact solo_retire p ts _
  · exact solo_commitSet p ts none 2

/-- Run alone, the statements of the transaction are the transaction. -/
theorem solo_publish : (machine c salt).solo (.turn now) 6 s
        (.publish (.commit cand prior prs recent)) =
      (s.withDb (settle c salt s.db now cand prior prs recent).2,
        .publish (settle c salt s.db now cand prior prs recent).1) := by
  have hinsert : (machine c salt).act (.turn now) s (.publish (.commit cand prior prs recent)) =
        some (s, insertSet c salt s.db now cand prior prs recent) := rfl
  rw [solo_turn hinsert]
  unfold insertSet settle Access.commit
  cases judge c cand prior salt prs recent with
  | error error => exact solo_ended rfl 5
  | ok ans =>
    obtain ⟨signedAs, eff⟩ := ans
    dsimp only
    split
    · exact solo_ended rfl 5
    · split
      · exact solo_ended rfl 5
      · rw [solo_inserted]
        dsimp only [Publication.candidate]
        cases consumeInTx c (applySet c s.db cand signedAs eff now) cand salt with
        | error error => rfl
        | ok next => rfl

end Alone

end WealdRelay.Invite.Genesis
