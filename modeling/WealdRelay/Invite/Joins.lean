import WealdRelay.Invite.Store
import WealdRelay.Lib.Procs

/-!
# Joins, releases and revocations that run at once

`reserve`, `extend`, `scope_commit`, `consume`, `release_expired` and `terminate` as
processes over the invite tables. A phase names the statement a process runs next and
carries what its transaction has read and written; the writes reach the tables when it
commits. A statement writes only rows that nobody else has written and not committed,
and it judges them as they are when it gets to them. Where a statement also decides
from rows it does not write, those are the rows of its snapshot, and it takes two turns:

* `extend` reads the invite in the snapshot and rechecks the reservation;
* the exhaustion test of `consume` counts outstanding reservations in the snapshot and
  rechecks the invite;
* `release_expired` finds its reservations in the snapshot and rechecks each.

The attempt budget and the code check of `reserve` are one answer here, which a request
carries (`Reserve.passes`); `Invite/Attempts.lean` is about them.
-/

namespace WealdRelay.Invite

open Lib Access

/-- What `reserve` is called with; `passes` is what the attempt budget and the code said. -/
structure Reserve where
  token : Bytes
  nonce : Bytes
  hash : Bytes
  now : Nat
  passes : Bool
deriving DecidableEq

/-- What `scope_commit` is called with. -/
structure ScopeCommit where
  token : Bytes
  nonce : Bytes
  hash : Bytes
  group : Bytes
  now : Nat
deriving DecidableEq

/-- What `consume` is called with, and the receipt its caller answers with, if any. -/
structure Consume where
  token : Bytes
  nonce : Bytes
  hash : Bytes
  inviteExpiresAt : Nat
  receipt : Option Bytes
deriving DecidableEq

/-- What a revocation has gathered. -/
structure Ending where
  token : Bytes
  terminal : Terminal
  hashes : List Bytes
deriving DecidableEq

/-- What a call was answered. -/
inductive Answer where
  | reserved (expiresAt : Nat)
  | unavailable
  | receipt (bytes : Bytes)
  | refused
  | extended (done : Bool)
  | consumed (done : Bool)
  | released (seats : Nat)
  | terminated (done : Bool)
  | failed
deriving DecidableEq

/-- Where a process stands. -/
inductive Phase where
  | idle
  | fetch (q : Reserve)
  | checkGrant (q : Reserve) (inviteExpiresAt : Nat)
  | checkSeat (q : Reserve) (inviteExpiresAt : Nat)
  | takeSeat (q : Reserve) (expiresAt : Nat)
  | grantSeat (q : Reserve) (expiresAt : Nat)
  | commitSeat (q : Reserve) (expiresAt : Nat)
  | extend (token nonce : Bytes)
  | extending (token nonce : Bytes) (snapshot : Option InviteRow)
  | extendGrant (token nonce hash : Bytes) (expiresAt : Nat)
  | commitExtend (token nonce hash : Bytes) (expiresAt : Nat) (moved : Bool)
  | judge (q : ScopeCommit)
  | checkScope (q : ScopeCommit) (judged : Judged)
  | record (q : ScopeCommit) (judged : Judged)
  | count (q : ScopeCommit) (judged : Judged)
  | mark (k : Consume)
  | recheck (k : Consume)
  | promote (k : Consume)
  | survey (k : Consume)
  | surveyed (k : Consume) (noneLeft : Bool)
  | decided (k : Consume) (exhausted : Option Bool)
  | release (now : Nat)
  | releasing (now : Nat) (candidates : List (Bytes × Bytes))
  | lockInvite (token : Bytes) (terminal : Terminal)
  | readHashes (token : Bytes) (terminal : Terminal)
  | closeSeats (e : Ending)
  | voidGrants (e : Ending) (closed : List (Bytes × Bytes)) (voided rest : List Bytes)
  | answered (answer : Answer)
deriving DecidableEq

/-- What a process does with its turn: it starts a call, runs its next statement, or
fails. -/
inductive Action where
  | reserve (q : Reserve)
  | extend (token nonce : Bytes)
  | scopeCommit (q : ScopeCommit)
  | consume (token nonce hash : Bytes) (inviteExpiresAt : Nat)
  | releaseExpired (now : Nat)
  | terminate (token : Bytes) (terminal : Terminal)
  | turn
  | fail
deriving DecidableEq

/-- The rows a transaction can hold. -/
inductive Row where
  | invite (token : Bytes)
  | reservation (token nonce : Bytes)
  | grant (hash : Bytes)
deriving DecidableEq

def reservationRow (key : Bytes × Bytes) : Row := .reservation key.1 key.2

/-! ## Locks -/

/-- The reservations a release takes: found in its snapshot, and still expired. -/
def hits (now : Nat) (candidates : List (Bytes × Bytes)) (row : ReservationRow) : Bool :=
  decide (reservationKey row ∈ candidates) && expired now row

/-- The reservations of an invite that nobody has spent or given back. -/
def openSeats (reservations : List ReservationRow) (token : Bytes) : List (Bytes × Bytes) :=
  (reservations.filter (fun row => decide (row.token = token) && outstanding row)).map
    reservationKey

/-- The reservation an extension may move, judged with the invite of its snapshot. -/
def extendable (reservations : List ReservationRow) (token nonce : Bytes)
    (snapshot : Option InviteRow) : Option (ReservationRow × Nat) :=
  match reservationOf reservations token nonce, snapshot with
  | some row, some invite =>
    if !row.extended ∧ outstanding row ∧ invite.state = .live then
      some (row, invite.expiresAt)
    else none
  | _, _ => none

/-- The invite, if it is live. -/
def liveInvite (invites : List InviteRow) (token : Bytes) : Option InviteRow :=
  match inviteOf invites token with
  | some invite => if invite.state = .live then some invite else none
  | none => none

/-- The reservation, if it can be spent. -/
def spendable (reservations : List ReservationRow) (token nonce : Bytes) : Bool :=
  match reservationOf reservations token nonce with
  | some row => outstanding row
  | none => false

/-- Is there a grant for this device that is not void? -/
def grantUnvoided (grants : List GrantRow) (hash : Bytes) : Bool :=
  match grantOf grants hash with
  | some grant => grant.voided = none
  | none => false

@[simp]
def Phase.locks : Phase → List Row
  | .grantSeat q _ => [.invite q.token]
  | .commitSeat q _ => [.invite q.token, .grant q.hash]
  | .extendGrant token nonce _ _ => [.reservation token nonce]
  | .commitExtend token nonce hash _ moved =>
    .reservation token nonce :: if moved then [.grant hash] else []
  | .promote k => [.reservation k.token k.nonce]
  | .survey k | .surveyed k _ => [.reservation k.token k.nonce, .grant k.hash]
  | .decided k exhausted =>
    .reservation k.token k.nonce :: .grant k.hash ::
      if exhausted.isSome then [.invite k.token] else []
  | .readHashes token _ => [.invite token]
  | .closeSeats e => [.invite e.token]
  | .voidGrants e closed voided _ =>
    .invite e.token :: (closed.map reservationRow ++ voided.map .grant)
  | _ => []

/-- The rows a statement writes. -/
def needs : Action → Tables → Phase → List Row
  | .turn, t, .takeSeat q _ =>
    match inviteOf t.invites q.token with
    | some invite => if seatFree invite q.now then [.invite q.token] else []
    | none => []
  | .turn, _, .grantSeat q _ => [.grant q.hash]
  | .turn, t, .extending token nonce snapshot =>
    match extendable t.reservations token nonce snapshot with
    | some _ => [.reservation token nonce]
    | none => []
  | .turn, t, .extendGrant _ _ hash _ =>
    if grantUnvoided t.grants hash then [.grant hash] else []
  | .turn, t, .mark k =>
    if spendable t.reservations k.token k.nonce then [.reservation k.token k.nonce] else []
  | .turn, _, .promote k => [.grant k.hash]
  | .turn, t, .surveyed k _ =>
    match liveInvite t.invites k.token with
    | some _ => [.invite k.token]
    | none => []
  | .turn, t, .releasing now candidates =>
    (t.reservations.filter (hits now candidates)).flatMap (fun row =>
      [.reservation row.token row.joinNonce, .invite row.token])
  | .turn, t, .lockInvite token _ =>
    match inviteOf t.invites token with
    | some _ => [.invite token]
    | none => []
  | .turn, t, .closeSeats e => (openSeats t.reservations e.token).map reservationRow
  | .turn, t, .voidGrants _ _ _ (hash :: _) =>
    if grantUnvoided t.grants hash then [.grant hash] else []
  | _, _, _ => []

/-! ## Statements -/

/-- `fetch`, and the checks of `reserve` that come before its transaction's reads. -/
def fetched (t : Tables) (q : Reserve) : Phase :=
  match inviteOf t.invites q.token with
  | none => .answered .unavailable
  | some invite =>
    if invite.state ≠ .live ∨ invite.expiresAt ≤ q.now then .answered .unavailable
    else if q.passes then .checkGrant q invite.expiresAt
    else .answered .unavailable

/-- The statement that takes a seat and records who holds it. -/
def seated (t : Tables) (q : Reserve) (expiresAt : Nat) : Phase :=
  match inviteOf t.invites q.token with
  | none => .answered .unavailable
  | some invite =>
    if seatFree invite q.now then
      -- A second reservation under one nonce is refused by the primary key.
      match reservationOf t.reservations q.token q.nonce with
      | some _ => .answered .failed
      | none => .grantSeat q expiresAt
    else .answered .unavailable

/-- How a call ends that has spent its seat, or found it spent. -/
def settled (k : Consume) (done : Bool) : Answer :=
  match k.receipt with
  | some receipt => if done then .receipt receipt else .refused
  | none => .consumed done

/-- What the commit of a reservation leaves. -/
def afterSeat (t : Tables) (q : Reserve) (expiresAt : Nat) : Tables :=
  { t with
    invites := takeSeat t.invites q.token
    reservations := t.reservations ++
      [{ token := q.token, joinNonce := q.nonce, deviceHash := q.hash, expiresAt := expiresAt,
         extended := false, consumed := false, released := false }]
    grants := grantRows t.grants q.hash (expiresAt * 1000) }

/-- What the commit of an extension leaves. -/
def afterExtend (t : Tables) (token nonce hash : Bytes) (expiresAt : Nat) (moved : Bool) :
    Tables :=
  { t with
    reservations := markExtended t.reservations token nonce expiresAt
    grants := if moved then extendGrantRows t.grants hash (expiresAt * 1000) else t.grants }

/-- What the commit of `consume` leaves. -/
def afterConsume (t : Tables) (k : Consume) (exhausted : Bool) : Tables :=
  { t with
    reservations := markConsumed t.reservations k.token k.nonce
    grants := grantRows t.grants k.hash (k.inviteExpiresAt * 1000)
    invites := if exhausted then markSpent t.invites k.token else t.invites
    bundles := if exhausted then dropBundles t.bundles k.token else t.bundles }

/-- What `release_expired` leaves. -/
def afterRelease (t : Tables) (hit : ReservationRow → Bool) : Tables :=
  { t with
    reservations := Invite.release t.reservations hit
    invites := returnSeats t.invites t.reservations hit }

/-- What the commit of a revocation leaves. -/
def afterEnding (t : Tables) (e : Ending) (closed : List (Bytes × Bytes)) : Tables :=
  { t with
    invites := markTerminal t.invites e.token e.terminal
    reservations := Invite.release t.reservations (fun row => reservationKey row ∈ closed)
    grants := voidGrantRows t.grants e.hashes
    tombstones := bury t.tombstones ⟨e.token, e.terminal, e.hashes⟩
    bundles := dropBundles t.bundles e.token }

section Statement

variable (c : Crypto)

/-- One statement against the tables as they stand. -/
def statement (t : Tables) : Phase → Option (Tables × Phase)
  | .fetch q => some (t, fetched t q)
  | .checkGrant q expiresAt =>
    if grantIsVoided t.grants q.hash then some (t, .answered .unavailable)
    else some (t, .checkSeat q expiresAt)
  | .checkSeat q expiresAt =>
    match liveReservation t.reservations q.token q.nonce q.now with
    | some existing => some (t, .answered (.reserved existing))
    | none => some (t, .takeSeat q (min (q.now + reservationMs) expiresAt))
  | .takeSeat q expiresAt => some (t, seated t q expiresAt)
  | .grantSeat q expiresAt =>
    if grantIsVoided t.grants q.hash then some (t, .answered .unavailable)
    else some (t, .commitSeat q expiresAt)
  | .commitSeat q expiresAt =>
    some (afterSeat t q expiresAt, .answered (.reserved expiresAt))
  | .extend token nonce => some (t, .extending token nonce (inviteOf t.invites token))
  | .extending token nonce snapshot =>
    match extendable t.reservations token nonce snapshot with
    | some (row, expiresAt) => some (t, .extendGrant token nonce row.deviceHash expiresAt)
    | none => some (t, .answered (.extended false))
  | .extendGrant token nonce hash expiresAt =>
    some (t, .commitExtend token nonce hash expiresAt (grantUnvoided t.grants hash))
  | .commitExtend token nonce hash expiresAt moved =>
    some (afterExtend t token nonce hash expiresAt moved, .answered (.extended true))
  | .judge q =>
    match judgeCommit t q.token q.nonce q.hash q.now with
    | some judged => some (t, .checkScope q judged)
    | none => some (t, .answered .refused)
  | .checkScope q judged =>
    if t.scopes.any (fun scope => scope.token = q.token ∧ scope.group = q.group) then
      some (t, .record q judged)
    else some (t, .answered .refused)
  | .record q judged =>
    some ({ t with
        scopeCommits := recordCommit t.scopeCommits
          ⟨q.token, q.nonce, q.group, receiptFor c q.token q.nonce q.group⟩ },
      .count q judged)
  | .count q judged =>
    let receipt := receiptFor c q.token q.nonce q.group
    if !judged.consumed ∧ judged.scopes ≤ committedScopes t.scopeCommits q.token q.nonce then
      some (t, .mark ⟨q.token, q.nonce, q.hash, judged.inviteExpiresAt, some receipt⟩)
    else some (t, .answered (.receipt receipt))
  | .mark k =>
    if spendable t.reservations k.token k.nonce then some (t, .promote k)
    else some (t, .recheck k)
  | .recheck k =>
    some (t, .answered (settled k (t.reservations.any (fun row =>
      row.token = k.token ∧ row.joinNonce = k.nonce ∧ row.consumed ∧ !row.released))))
  | .promote k => some (t, .survey k)
  | .survey k =>
    -- The transaction sees its own mark.
    some (t, .surveyed k (noneOutstanding (markConsumed t.reservations k.token k.nonce) k.token))
  | .surveyed k noneLeft =>
    some (t, .decided k ((liveInvite t.invites k.token).map (fun invite =>
      decide (invite.remaining = 0) && noneLeft)))
  | .decided k exhausted =>
    some (afterConsume t k (exhausted = some true), .answered (settled k true))
  | .release now =>
    some (t, .releasing now ((t.reservations.filter (expired now)).map reservationKey))
  | .releasing now candidates =>
    some (afterRelease t (hits now candidates),
      .answered (.released (t.reservations.countP (hits now candidates))))
  | .lockInvite token terminal =>
    match inviteOf t.invites token with
    | some _ => some (t, .readHashes token terminal)
    | none => some (t, .answered (.terminated false))
  | .readHashes token terminal =>
    some (t, .closeSeats ⟨token, terminal,
      ((t.reservations.filter (fun row => row.token = token)).map (·.deviceHash)).dedup⟩)
  | .closeSeats e =>
    some (t, .voidGrants e (openSeats t.reservations e.token) [] e.hashes)
  | .voidGrants e closed voided (hash :: rest) =>
    some (t, .voidGrants e closed
      (if grantUnvoided t.grants hash then hash :: voided else voided) rest)
  | .voidGrants e closed _ [] =>
    some (afterEnding t e closed, .answered (.terminated true))
  | .idle | .answered _ => none

/-- The phase a call starts in. -/
def Action.start : Action → Option Phase
  | .reserve q => some (.fetch q)
  | .extend token nonce => some (.extend token nonce)
  | .scopeCommit q => some (.judge q)
  | .consume token nonce hash expiresAt => some (.mark ⟨token, nonce, hash, expiresAt, none⟩)
  | .releaseExpired now => some (.release now)
  | .terminate token terminal => some (.lockInvite token terminal)
  | .turn | .fail => none

/-- Is a call under way? -/
def Phase.running : Phase → Bool
  | .idle | .answered _ => false
  | _ => true

def act (i : Action) (t : Tables) (a : Phase) : Option (Tables × Phase) :=
  match i with
  | .turn => statement c t a
  | .fail => if a.running then some (t, .answered .failed) else none
  | i => if a = .idle then i.start.map (fun b => (t, b)) else none

end Statement

/-! ## What a turn can do -/

section Turns

variable {c : Crypto} {i : Action} {t t' : Tables} {a a' : Phase}

/-- The tables after the commit a phase stands before, if it stands before one. -/
def Phase.commits (c : Crypto) (t : Tables) : Phase → Option Tables
  | .commitSeat q expiresAt => some (afterSeat t q expiresAt)
  | .commitExtend token nonce hash expiresAt moved =>
    some (afterExtend t token nonce hash expiresAt moved)
  | .record q _ =>
    some { t with
      scopeCommits := recordCommit t.scopeCommits
        ⟨q.token, q.nonce, q.group, receiptFor c q.token q.nonce q.group⟩ }
  | .decided k exhausted => some (afterConsume t k (exhausted = some true))
  | .releasing now candidates => some (afterRelease t (hits now candidates))
  | .voidGrants e closed _ [] => some (afterEnding t e closed)
  | _ => none

/-- The six commits of the calls, each with the tables it leaves. -/
inductive Commit (c : Crypto) (t : Tables) : Phase → Tables → Prop
  | seat (q : Reserve) (expiresAt : Nat) :
      Commit c t (.commitSeat q expiresAt) (afterSeat t q expiresAt)
  | extend (token nonce hash : Bytes) (expiresAt : Nat) (moved : Bool) :
      Commit c t (.commitExtend token nonce hash expiresAt moved)
        (afterExtend t token nonce hash expiresAt moved)
  | record (q : ScopeCommit) (judged : Judged) :
      Commit c t (.record q judged) { t with
        scopeCommits := recordCommit t.scopeCommits
          ⟨q.token, q.nonce, q.group, receiptFor c q.token q.nonce q.group⟩ }
  | consume (k : Consume) (exhausted : Option Bool) :
      Commit c t (.decided k exhausted) (afterConsume t k (exhausted = some true))
  | release (now : Nat) (candidates : List (Bytes × Bytes)) :
      Commit c t (.releasing now candidates) (afterRelease t (hits now candidates))
  | ending (e : Ending) (closed : List (Bytes × Bytes)) (voided : List Bytes) :
      Commit c t (.voidGrants e closed voided []) (afterEnding t e closed)

theorem commit_of_commits (h : a.commits c t = some t') : Commit c t a t' := by
  cases a with
  | commitSeat q exp =>
    cases h
    exact .seat q exp
  | commitExtend tok nonce hash exp moved =>
    cases h
    exact .extend tok nonce hash exp moved
  | record q judged =>
    cases h
    exact .record q judged
  | decided k exh =>
    cases h
    exact .consume k exh
  | releasing now cs =>
    cases h
    exact .release now cs
  | voidGrants e closed voided rest =>
    cases rest with
    | nil =>
      cases h
      exact .ending e closed voided
    | cons => cases h
  | idle | fetch | checkGrant | checkSeat | takeSeat | grantSeat | extend | extending
  | extendGrant | judge | checkScope | count | mark | recheck | promote | survey | surveyed
  | release | lockInvite | readHashes | closeSeats | answered => cases h

/-- A turn starts a call, gives up, or runs the next statement. -/
theorem act_cases (h : act c i t a = some (t', a')) : (t' = t ∧ a = .idle ∧ i.start = some a') ∨
      (t' = t ∧ a.running = true ∧ a' = .answered .failed) ∨
      (i = .turn ∧ statement c t a = some (t', a')) := by
  cases i with
  | turn => exact .inr (.inr ⟨rfl, h⟩)
  | fail =>
    simp only [act] at h
    split at h
    next hrn =>
      cases h
      exact .inr (.inl ⟨rfl, hrn, rfl⟩)
    · cases h
  | reserve | extend | scopeCommit | consume | releaseExpired | terminate =>
    simp only [act] at h
    split at h
    next hidle =>
      cases h
      exact .inl ⟨rfl, hidle, rfl⟩
    · cases h

theorem statement_tables (h : statement c t a = some (t', a')) : t' = (a.commits c t).getD t := by
  cases a with
  | idle | answered => cases h
  | checkGrant | grantSeat | checkSeat | extending | judge | checkScope | count | mark
  | lockInvite =>
    simp only [statement] at h
    split at h <;> (obtain ⟨rfl, -⟩ := by simpa using h) <;> rfl
  | voidGrants e closed voided rest =>
    cases rest <;> (obtain ⟨rfl, -⟩ := by simpa [statement] using h) <;> rfl
  | fetch | takeSeat | commitSeat | extend | extendGrant | commitExtend | record | recheck
  | promote | survey | surveyed | decided | release | releasing | readHashes | closeSeats =>
    cases h
    rfl

theorem act_tables (h : act c i t a = some (t', a')) :
    t' = t ∨ i = .turn ∧ a.commits c t = some t' := by
  obtain ⟨rfl, -⟩ | ⟨rfl, -⟩ | ⟨hturn, hstmt⟩ := act_cases h
  · exact .inl rfl
  · exact .inl rfl
  · have htables := statement_tables hstmt
    cases hcomm : a.commits c t with
    | none => exact .inl (by simpa [hcomm] using htables)
    | some ts => exact .inr ⟨hturn, by simpa [hcomm] using htables.symm⟩

theorem locks_start (h : i.start = some a') : a'.locks = [] := by
  cases i <;> simp only [Action.start, Option.some.injEq, reduceCtorEq] at h <;> (subst h; rfl)

theorem locks_fetched (q : Reserve) : (fetched t q).locks = [] := by
  unfold fetched
  split
  · rfl
  · split_ifs <;> rfl

/-- The seat's statement holds the invite it wrote, and nothing if it wrote none. -/
theorem mem_locks_seated {q : Reserve} {exp : Nat} {row : Row}
    (h : row ∈ (seated t q exp).locks) : row ∈ needs .turn t (.takeSeat q exp) := by
  unfold seated at h
  split at h
  · cases h
  next inv hinv =>
    split at h
    next hfree =>
      simp only [needs, hinv, if_pos hfree]
      split at h
      · cases h
      · exact h
    · cases h

/-- A statement holds only rows that its process held or that it writes. -/
theorem locks_statement (h : statement c t a = some (t', a')) :
    ∀ row ∈ a'.locks, row ∈ a.locks ∨ row ∈ needs .turn t a := by
  intro row hrow
  cases a with
  | idle | answered => cases h
  | fetch q =>
    cases h
    rw [locks_fetched] at hrow
    cases hrow
  | takeSeat q exp =>
    cases h
    exact .inr (mem_locks_seated hrow)
  | checkGrant | checkSeat | judge | checkScope | count =>
    simp only [statement] at h
    split at h <;> (obtain ⟨-, rfl⟩ := by simpa using h) <;> cases hrow
  | grantSeat q exp =>
    simp only [statement] at h
    split at h <;> cases h
    · cases hrow
    · simpa [needs] using hrow
  | extending tok nonce snapshot =>
    simp only [statement] at h
    split at h
    next hrow' =>
      cases h
      exact .inr (by simpa [needs, hrow'] using hrow)
    · cases h
      cases hrow
  | extendGrant | promote | survey | closeSeats =>
    cases h
    simpa [needs] using hrow
  | mark k =>
    simp only [statement] at h
    split at h
    next hspendable =>
      cases h
      exact .inr (by simpa [needs, hspendable] using hrow)
    · cases h
      cases hrow
  | surveyed k noneLeft =>
    cases h
    cases hl : liveInvite t.invites k.token with
    | none => exact .inl (by simpa [hl] using hrow)
    | some inv =>
      simpa [needs, hl, or_assoc] using hrow
  | lockInvite tok terminal =>
    simp only [statement] at h
    split at h
    next inv hinv =>
      cases h
      exact .inr (by simpa [needs, hinv] using hrow)
    · cases h
      cases hrow
  | readHashes tok terminal =>
    cases h
    exact .inl hrow
  | voidGrants e closed voided rest =>
    cases rest with
    | nil =>
      cases h
      cases hrow
    | cons hash rest =>
      cases h
      by_cases hunvoided : grantUnvoided t.grants hash = true
      · simp only [Phase.locks, needs, hunvoided, if_true, List.map_cons, List.mem_cons,
          List.mem_append, List.not_mem_nil, or_false] at hrow ⊢
        tauto
      · exact .inl (by simpa [hunvoided] using hrow)
  | commitSeat | extend | commitExtend | record | recheck | decided | release | releasing =>
    cases h
    cases hrow

theorem locks_act (h : act c i t a = some (t', a')) :
    ∀ row ∈ a'.locks, row ∈ a.locks ∨ row ∈ needs i t a := by
  obtain ⟨-, -, hstart⟩ | ⟨-, -, rfl⟩ | ⟨rfl, hstmt⟩ := act_cases h
  · intro row hrow
    rw [locks_start hstart] at hrow
    cases hrow
  · intro row hrow
    cases hrow
  · exact locks_statement hstmt

end Turns

/-- The calls of a join, with the rows they hold. -/
def machine (c : Crypto) : Machine Tables Phase Action Row where
  act := act c
  needs := needs
  locks := Phase.locks
  locks_act := locks_act

end WealdRelay.Invite
