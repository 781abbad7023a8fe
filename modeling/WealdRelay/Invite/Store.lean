import WealdRelay.Access.Store
import WealdRelay.Lib.Table

/-!
# The invite tables and their statements

The rows of one workspace behind `invite/reserve.rs` and `invite/store.rs`, and what each
statement of a join does to them. Only what a statement writes is here; which process
runs it, when, and what it holds in between is `Invite/Joins.lean`.

Times are in milliseconds, as the callers pass them; a grant's expiry is in
microseconds, the database's resolution.
-/

namespace WealdRelay.Invite

open Lib Access Table

/-- How long an unconsumed reservation holds its seat: ten minutes. -/
def reservationMs : Nat := 10 * 60 * 1000

/-- How `terminate` ends an invite. -/
inductive Terminal where
  | revoked
  | spent
deriving DecidableEq

def Terminal.state : Terminal → InviteState
  | .revoked => .revoked
  | .spent => .spent

theorem Terminal.state_ne_live (terminal : Terminal) : terminal.state ≠ .live := by
  cases terminal <;> decide

/-- What survives a revocation. -/
structure TombstoneRow where
  token : Bytes
  terminal : Terminal
  deviceHashes : List Bytes
deriving DecidableEq

/-- A sealed `GroupInfo` candidate. -/
structure BundleRow where
  token : Bytes
  group : Bytes
  epoch : Nat
  ct : Bytes
  uploadedAt : Nat
deriving DecidableEq

structure ScopeRow where
  token : Bytes
  group : Bytes
deriving DecidableEq

structure ScopeCommitRow where
  token : Bytes
  joinNonce : Bytes
  group : Bytes
  receipt : Bytes
deriving DecidableEq

/-- The tables a join touches. -/
structure Tables where
  invites : List InviteRow
  reservations : List ReservationRow
  grants : List GrantRow
  tombstones : List TombstoneRow
  bundles : List BundleRow
  scopes : List ScopeRow
  scopeCommits : List ScopeCommitRow
deriving DecidableEq

/-- The primary key of a reservation. -/
def reservationKey (row : ReservationRow) : Bytes × Bytes := (row.token, row.joinNonce)

/-! ## Reads -/

/-- `fetch`: one record by token, whatever state it is in. -/
def inviteOf (invites : List InviteRow) (token : Bytes) : Option InviteRow :=
  lookup InviteRow.token invites token

def reservationOf (reservations : List ReservationRow) (token nonce : Bytes) :
    Option ReservationRow :=
  lookup reservationKey reservations (token, nonce)

def grantOf (grants : List GrantRow) (hash : Bytes) : Option GrantRow :=
  lookup GrantRow.deviceHash grants hash

/-- `grant_is_voided`. -/
def grantIsVoided (grants : List GrantRow) (hash : Bytes) : Bool :=
  match grantOf grants hash with
  | some grant => grant.voided ≠ none
  | none => false

/-- Neither spent nor given back. -/
def outstanding (row : ReservationRow) : Bool := !row.consumed && !row.released

/-- The expiry of a live reservation for this nonce. -/
def liveReservation (reservations : List ReservationRow) (token nonce : Bytes) (now : Nat) :
    Option Nat :=
  match reservationOf reservations token nonce with
  | some row => if !row.released ∧ now < row.expiresAt then some row.expiresAt else none
  | none => none

/-! ## Grants -/

/-- `access::store::grant`: a void is never cleared. -/
def grantRows (grants : List GrantRow) (hash : Bytes) (expiresAt : Nat) : List GrantRow :=
  if grants.any (fun grant => grant.deviceHash == hash) then
    grants.map (fun grant =>
      if grant.deviceHash = hash ∧ grant.voided = none then
        { grant with expiresAt := expiresAt, seenVersion := none }
      else grant)
  else
    grants ++ [{ deviceHash := hash, expiresAt := expiresAt, seenVersion := none, voided := none }]

/-- The second statement of `extend`. -/
def extendGrantRows (grants : List GrantRow) (hash : Bytes) (expiresAt : Nat) : List GrantRow :=
  grants.map (fun grant =>
    if grant.deviceHash = hash ∧ grant.voided = none then { grant with expiresAt := expiresAt }
    else grant)

/-- `revoke_grant_in`, for each of these devices. -/
def voidGrantRows (grants : List GrantRow) (hashes : List Bytes) : List GrantRow :=
  grants.map (fun grant =>
    if grant.deviceHash ∈ hashes ∧ grant.voided = none then
      { grant with voided := some .revoked }
    else grant)

/-! ## Seats -/

/-- The `where` of the statement that takes a seat. -/
def seatFree (invite : InviteRow) (now : Nat) : Bool :=
  invite.state = .live ∧ 0 < invite.remaining ∧ now < invite.expiresAt

/-- One seat fewer. -/
def takeSeat (invites : List InviteRow) (token : Bytes) : List InviteRow :=
  modify InviteRow.token invites token (fun invite =>
    { invite with remaining := invite.remaining - 1 })

def markExtended (reservations : List ReservationRow) (token nonce : Bytes)
    (expiresAt : Nat) : List ReservationRow :=
  modify reservationKey reservations (token, nonce) (fun row =>
    { row with expiresAt := expiresAt, extended := true })

def markConsumed (reservations : List ReservationRow) (token nonce : Bytes) : List ReservationRow :=
  modify reservationKey reservations (token, nonce) (fun row =>
    { row with consumed := true })

/-- Is no seat of this invite held and unspent? -/
def noneOutstanding (reservations : List ReservationRow) (token : Bytes) : Bool :=
  reservations.all (fun row => row.token ≠ token || !outstanding row)

/-- `spend_in`, its first statement. -/
def markSpent (invites : List InviteRow) (token : Bytes) : List InviteRow :=
  modify InviteRow.token invites token (fun invite => { invite with state := .spent })

def dropBundles (bundles : List BundleRow) (token : Bytes) : List BundleRow :=
  bundles.filter (fun bundle => bundle.token ≠ token)

/-! ## Giving seats back -/

/-- The `where` of `release_expired`. -/
def expired (now : Nat) (row : ReservationRow) : Bool :=
  outstanding row && decide (row.expiresAt ≤ now)

/-- The reservations of one token that a release takes. -/
def freed (reservations : List ReservationRow) (hit : ReservationRow → Bool) (token : Bytes) :
    Nat :=
  reservations.countP (fun row => hit row && decide (row.token = token))

def release (reservations : List ReservationRow) (hit : ReservationRow → Bool) :
    List ReservationRow :=
  reservations.map (fun row => if hit row then { row with released := true } else row)

/-- `least(remaining + freed, uses)`, for the tokens that had a reservation released. -/
def returnSeats (invites : List InviteRow) (reservations : List ReservationRow)
    (hit : ReservationRow → Bool) : List InviteRow :=
  invites.map (fun invite =>
    if freed reservations hit invite.token = 0 then invite
    else
      { invite with
        remaining := min (invite.remaining + freed reservations hit invite.token) invite.uses })

/-- The state a revocation writes. -/
def markTerminal (invites : List InviteRow) (token : Bytes) (terminal : Terminal) :
    List InviteRow :=
  modify InviteRow.token invites token (fun invite =>
    { invite with state := terminal.state })

/-- The tombstone, written once and updated after. -/
def bury (tombstones : List TombstoneRow) (stone : TombstoneRow) : List TombstoneRow :=
  if tombstones.any (fun row => row.token = stone.token) then
    modify TombstoneRow.token tombstones stone.token (fun _ => stone)
  else tombstones ++ [stone]

def tombstoned (tombstones : List TombstoneRow) (token : Bytes) : Bool :=
  tombstones.any (fun row => row.token = token)

/-! ## Scope commits -/

/-- What a scope commit is judged on. -/
structure Judged where
  consumed : Bool
  scopes : Nat
  inviteExpiresAt : Nat
deriving DecidableEq

/-- The first read of `scope_commit`, with every check made on the row. -/
def judgeCommit (t : Tables) (token nonce hash : Bytes) (now : Nat) : Option Judged :=
  match reservationOf t.reservations token nonce, inviteOf t.invites token with
  | some row, some invite =>
    if row.released then none
    else if ¬ (invite.state = .live ∨ (invite.state = .spent ∧ row.consumed)) then none
    else if row.deviceHash ≠ hash then none
    else if tombstoned t.tombstones token then none
    else if invite.expiresAt ≤ now then none
    else if !row.consumed ∧ row.expiresAt ≤ now then none
    else
      some ⟨row.consumed, t.scopes.countP (fun scope => scope.token = token), invite.expiresAt⟩
  | _, _ => none

/-- `weald invite scope-commit v1`, the domain separator of a receipt. -/
def receiptLabel : Bytes :=
  [119, 101, 97, 108, 100, 32, 105, 110, 118, 105, 116, 101, 32, 115, 99, 111, 112, 101,
    45, 99, 111, 109, 109, 105, 116, 32, 118, 49]

def receiptFor (c : Crypto) (token nonce group : Bytes) : Bytes :=
  c.blake3 (receiptLabel ++ token ++ nonce ++ group)

/-- `insert ... on conflict (token, join_nonce, group_id) do nothing`. -/
def recordCommit (commits : List ScopeCommitRow) (commit : ScopeCommitRow) : List ScopeCommitRow :=
  if commits.any (fun row =>
      row.token = commit.token ∧ row.joinNonce = commit.joinNonce ∧ row.group = commit.group)
  then commits
  else commits ++ [commit]

def committedScopes (commits : List ScopeCommitRow) (token nonce : Bytes) : Nat :=
  commits.countP (fun row => row.token = token ∧ row.joinNonce = nonce)

/-! ## What the statements do to a lookup -/

section Lookups

variable {invites : List InviteRow} {res : List ReservationRow}
  {grants : List GrantRow} {tok x nonce hash : Bytes} {terminal : Terminal}

@[simp] theorem inviteOf_takeSeat_self : inviteOf (takeSeat invites tok) tok =
      (inviteOf invites tok).map (fun i => { i with remaining := i.remaining - 1 }) :=
  lookup_modify_self (fun _ => rfl)

theorem inviteOf_takeSeat_of_ne (h : x ≠ tok) :
    inviteOf (takeSeat invites tok) x = inviteOf invites x :=
  lookup_modify_of_ne (fun _ => rfl) h

@[simp] theorem inviteOf_markSpent_self : inviteOf (markSpent invites tok) tok =
      (inviteOf invites tok).map (fun i => { i with state := .spent }) :=
  lookup_modify_self (fun _ => rfl)

theorem inviteOf_markSpent_of_ne (h : x ≠ tok) :
    inviteOf (markSpent invites tok) x = inviteOf invites x :=
  lookup_modify_of_ne (fun _ => rfl) h

@[simp] theorem inviteOf_markTerminal_self : inviteOf (markTerminal invites tok terminal) tok =
      (inviteOf invites tok).map (fun i => { i with state := terminal.state }) :=
  lookup_modify_self (fun _ => rfl)

theorem inviteOf_markTerminal_of_ne (h : x ≠ tok) :
    inviteOf (markTerminal invites tok terminal) x = inviteOf invites x :=
  lookup_modify_of_ne (fun _ => rfl) h

theorem reservationOf_markExtended_of_ne {key : Bytes × Bytes} {exp : Nat}
    (h : key ≠ (tok, nonce)) :
    reservationOf (markExtended res tok nonce exp) key.1 key.2 = reservationOf res key.1 key.2 :=
  lookup_modify_of_ne (fun _ => rfl) h

theorem reservationOf_markConsumed_of_ne {key : Bytes × Bytes} (h : key ≠ (tok, nonce)) :
    reservationOf (markConsumed res tok nonce) key.1 key.2 = reservationOf res key.1 key.2 :=
  lookup_modify_of_ne (fun _ => rfl) h

end Lookups

end WealdRelay.Invite
