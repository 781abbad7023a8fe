import WealdRelay.Cbor.Canonical
import WealdRelay.Invite.Attempts
import WealdRelay.Invite.Joins

/-!
# JOIN

`invite/redeem.rs` and `ws::redeem`: the four requests of a joiner, their bytes, and the
frame each is answered with. The frame is open to anybody, so what it says about a token
is what a stranger can learn.

A request runs by itself here: its calls take all their turns before the next request.
-/

namespace WealdRelay.Invite

open Lib Access Cbor Reader

/-! ## The wire -/

/-- A joiner's step. -/
inductive Request where
  | reserve (token code nonce device : Bytes)
  | bundles (token group : Bytes)
  | record (token : Bytes)
  | commit (token nonce device group : Bytes)
deriving DecidableEq

/-- Why a request does not decode. -/
inductive RedeemError where
  | cbor (error : CborError)
  | codeNotUtf8
  | fieldCount (step count : Nat)
  | unknownStep (step : Nat)
deriving DecidableEq

/-- A sealed bundle, as it is served. -/
structure EncBundle where
  group : Bytes
  epoch : Nat
  ct : Bytes
deriving DecidableEq

/-- What the relay answers. -/
inductive Response where
  | reserved (expiresAt : Nat)
  | bundles (served : List EncBundle)
  | committed (receipt : Bytes)
  | record (body : Bytes)
deriving DecidableEq

/-- `String::from_utf8` succeeds. -/
def isUtf8 (data : Bytes) : Bool :=
  (ByteArray.mk (data.map (fun byte => UInt8.ofNat byte.val)).toArray).validateUTF8

namespace Request

def token : Request → Bytes
  | .reserve token .. | .bundles token _ | .record token | .commit token .. => token

/-- The fields, the step first. -/
def fields : Request → List Bytes
  | .reserve token code nonce device =>
    [uint 0, bytes token, bytes code, bytes nonce, bytes device]
  | .bundles token group => [uint 1, bytes token, bytes group]
  | .record token => [uint 3, bytes token]
  | .commit token nonce device group =>
    [uint 2, bytes token, bytes nonce, bytes device, bytes group]

def encode (request : Request) : Bytes := array request.fields

/-- A CBOR refusal, as a refusal of the request. -/
def liftCbor {α : Type} : Except CborError α → Except RedeemError α :=
  Except.mapError .cbor

/-- The code has to be text. -/
def textOf (data : Bytes) : Except RedeemError Bytes :=
  if isUtf8 data then .ok data else .error .codeNotUtf8

/-- The fields after the step. -/
def decodeFields (step count : Nat) (data : Bytes) : Except RedeemError (Request × Bytes) :=
  match step, count with
  | 0, 5 => do
      let (token, data) ← liftCbor (Reader.bytes data)
      let (rawCode, data) ← liftCbor (Reader.bytes data)
      let code ← textOf rawCode
      let (nonce, data) ← liftCbor (Reader.bytes data)
      let (device, data) ← liftCbor (Reader.bytes data)
      .ok (.reserve token code nonce device, data)
  | 1, 3 => do
      let (token, data) ← liftCbor (Reader.bytes data)
      let (group, data) ← liftCbor (Reader.bytes data)
      .ok (.bundles token group, data)
  | 2, 5 => do
      let (token, data) ← liftCbor (Reader.bytes data)
      let (nonce, data) ← liftCbor (Reader.bytes data)
      let (device, data) ← liftCbor (Reader.bytes data)
      let (group, data) ← liftCbor (Reader.bytes data)
      .ok (.commit token nonce device group, data)
  | 3, 2 => do
      let (token, data) ← liftCbor (Reader.bytes data)
      .ok (.record token, data)
  | step, count => if step ≤ 3 then .error (.fieldCount step count) else .error (.unknownStep step)

def decode (data : Bytes) : Except RedeemError Request := do
  let (count, data) ← liftCbor (arrayHeader data)
  let (step, data) ← liftCbor (uint data)
  let (request, data) ← decodeFields step count data
  let () ← liftCbor (finish data)
  .ok request

/-- The requests that have an encoding: lengths are 64-bit numbers and a code is text. -/
def Fits : Request → Prop
  | .reserve token code nonce device =>
    token.length < 2 ^ 64 ∧ code.length < 2 ^ 64 ∧ nonce.length < 2 ^ 64 ∧
      device.length < 2 ^ 64 ∧ isUtf8 code = true
  | .bundles token group => token.length < 2 ^ 64 ∧ group.length < 2 ^ 64
  | .record token => token.length < 2 ^ 64
  | .commit token nonce device group =>
    token.length < 2 ^ 64 ∧ nonce.length < 2 ^ 64 ∧ device.length < 2 ^ 64 ∧ group.length < 2 ^ 64

variable (request : Request)

theorem fields_ne_nil : ∀ field ∈ request.fields, field ≠ [] := by
  cases request <;> simp [fields]

theorem length_fields_lt : request.fields.length < 2 ^ 64 := by
  cases request <;> simp [fields]

/-- The last field of a request, with nothing after it. -/
theorem bytes_last {v} (h : v.length < 2 ^ 64) : Reader.bytes (bytes v) = .ok (v, []) := by
  simpa using bytes_bytes h []

theorem decode_encode {request} (h : request.Fits) : decode request.encode = .ok request := by
  have harray : arrayHeader request.encode =
      .ok (request.fields.length, request.fields.flatten) := by
    simpa [encode] using arrayHeader_array request.fields [] request.length_fields_lt
      request.fields_ne_nil
  rw [decode, harray]
  cases request with
  | reserve tok code nonce device =>
    obtain ⟨htok, hcode, hnonce, hdev, htext⟩ := h
    simp [fields, liftCbor, Except.mapError, bind, Except.bind, decodeFields, textOf,
      uint_uint, bytes_bytes htok, bytes_bytes hcode,
      bytes_bytes hnonce, bytes_last hdev, htext, finish]
  | bundles tok g =>
    obtain ⟨htok, hg⟩ := h
    simp [fields, liftCbor, Except.mapError, bind, Except.bind, decodeFields,
      uint_uint, bytes_bytes htok, bytes_last hg,
      finish]
  | record tok =>
    have htok : tok.length < 2 ^ 64 := h
    simp [fields, liftCbor, Except.mapError, bind, Except.bind, decodeFields,
      uint_uint, bytes_last htok, finish]
  | commit tok nonce device g =>
    obtain ⟨htok, hnonce, hdev, hg⟩ := h
    simp [fields, liftCbor, Except.mapError, bind, Except.bind, decodeFields,
      uint_uint, bytes_bytes htok, bytes_bytes hnonce,
      bytes_bytes hdev, bytes_last hg, finish]

variable {data rest : Bytes} {request}

theorem field_ok {α : Type} {k : Bytes × Bytes → Except RedeemError α} {a}
    (h : (liftCbor (Reader.bytes data) >>= k) = .ok a) :
    ∃ v left, data = Cbor.bytes v ++ left ∧ v.length < 2 ^ 64 ∧ k (v, left) = .ok a := by
  obtain ⟨⟨v, left⟩, hread, h⟩ := bind_ok h
  obtain ⟨_, hdata, hlt, rfl⟩ := accepts_bytes (mapError_ok hread)
  exact ⟨v, left, hdata, hlt, h⟩

theorem decodeFields_ok {step count} (h : decodeFields step count data = .ok (request, rest)) :
    request.Fits ∧ request.fields.length = count ∧
      Cbor.uint step ++ data = request.fields.flatten ++ rest := by
  unfold decodeFields at h
  split at h
  · obtain ⟨token, _, rfl, htoken, h⟩ := field_ok h
    obtain ⟨rawCode, _, rfl, hcode, h⟩ := field_ok h
    obtain ⟨code, htext, h⟩ := bind_ok h
    obtain ⟨nonce, _, rfl, hnonce, h⟩ := field_ok h
    obtain ⟨device, _, rfl, hdevice, h⟩ := field_ok h
    rw [textOf] at htext
    split_ifs at htext with hutf
    cases htext
    cases h
    exact ⟨⟨htoken, hcode, hnonce, hdevice, hutf⟩, rfl, by simp [fields]⟩
  · obtain ⟨token, _, rfl, htoken, h⟩ := field_ok h
    obtain ⟨group, _, rfl, hgroup, h⟩ := field_ok h
    cases h
    exact ⟨⟨htoken, hgroup⟩, rfl, by simp [fields]⟩
  · obtain ⟨token, _, rfl, htoken, h⟩ := field_ok h
    obtain ⟨nonce, _, rfl, hnonce, h⟩ := field_ok h
    obtain ⟨device, _, rfl, hdevice, h⟩ := field_ok h
    obtain ⟨group, _, rfl, hgroup, h⟩ := field_ok h
    cases h
    exact ⟨⟨htoken, hnonce, hdevice, hgroup⟩, rfl, by simp [fields]⟩
  · obtain ⟨token, _, rfl, htoken, h⟩ := field_ok h
    cases h
    exact ⟨htoken, rfl, by simp [fields]⟩
  · split_ifs at h

/-- Bytes are read as a request exactly if they are the encoding of it. -/
theorem join_request_exact : decode data = .ok request ↔ request.Fits ∧ data = request.encode := by
  refine ⟨fun h => ?_, fun ⟨hfits, hdata⟩ => hdata ▸ decode_encode hfits⟩
  obtain ⟨⟨count, _⟩, hcount, h⟩ := bind_ok h
  obtain ⟨⟨step, _⟩, hstep, h⟩ := bind_ok h
  obtain ⟨⟨found, rest⟩, hfields, h⟩ := bind_ok h
  obtain ⟨⟨⟩, hend, h⟩ := bind_ok h
  cases h
  obtain ⟨_, rfl, -, rfl⟩ := accepts_arrayHeader (mapError_ok hcount)
  obtain ⟨_, rfl, -, rfl⟩ := accepts_uint (mapError_ok hstep)
  obtain ⟨hfits, rfl, hdata⟩ := decodeFields_ok hfields
  rw [finish_ok (mapError_ok hend), List.append_nil] at hdata
  exact ⟨hfits, by rw [encode, Cbor.array, hdata]⟩

end Request

def EncBundle.encode (bundle : EncBundle) : Bytes :=
  array [bytes bundle.group, uint bundle.epoch, bytes bundle.ct]

def Response.encode : Response → Bytes
  | .reserved expiresAt => array [uint 0, uint expiresAt]
  | .bundles served =>
    array [uint 1, array (served.map EncBundle.encode)]
  | .committed receipt => array [uint 2, bytes receipt]
  | .record body => array [uint 3, bytes body]

/-! ## The relay -/

/-- The columns of an invite that no statement writes. -/
structure RecordRow where
  token : Bytes
  workspaceId : Bytes
  body : Bytes
  codeHash : Bytes
deriving DecidableEq

/-- The database as `redeem` reads it: the records of all workspaces, and the other tables
and the salt of each. -/
structure Database where
  records : List RecordRow
  workspaces : Bytes → Tables
  salts : Bytes → Bytes
  attempts : Attempts.State

structure Relay where
  database : Option Database
  now : Nat

inductive ErrorCode where
  | seatsExhausted
  | backpressure
deriving DecidableEq

/-- `UNAVAILABLE`, the one answer to everything a joiner must not tell apart. -/
def unavailable : ErrorCode := .seatsExhausted

inductive Frame where
  | join (body : Bytes)
  | error (code : ErrorCode)
deriving DecidableEq

namespace Database

/-- `store::fetch`: the record and the columns of it that change. -/
def fetch (db : Database) (token : Bytes) : Option (RecordRow × InviteRow) :=
  match Table.lookup RecordRow.token db.records token with
  | some record =>
    (inviteOf (db.workspaces record.workspaceId).invites token).map (fun invite =>
      (record, invite))
  | none => none

/-- Another state of one workspace's tables. -/
def setTables (db : Database) (workspaceId : Bytes) (tables : Tables) : Database :=
  { db with workspaces := Function.update db.workspaces workspaceId tables }

/-- The database without the invite, scopes, bundles and reservations of a token. -/
def forget (db : Database) (token : Bytes) : Database :=
  { db with
    records := db.records.filter (fun record => record.token ≠ token)
    workspaces := fun workspaceId =>
      { db.workspaces workspaceId with
        invites := (db.workspaces workspaceId).invites.filter (fun row => row.token ≠ token)
        reservations :=
          (db.workspaces workspaceId).reservations.filter (fun row => row.token ≠ token)
        scopes := (db.workspaces workspaceId).scopes.filter (fun row => row.token ≠ token)
        bundles := (db.workspaces workspaceId).bundles.filter (fun row => row.token ≠ token) } }

end Database

/-- `source_hash`. -/
def sourceHash (c : Crypto) (source salt : Bytes) : Bytes := c.blake3 (source ++ salt)

/-- Can anybody still join with this invite? -/
def stillOpen (invite : InviteRow) (now : Nat) : Bool :=
  invite.state = .live && decide (now < invite.expiresAt)

/-- Newest first, and the higher epoch first among equals. -/
def newerBundle (a b : BundleRow) : Prop :=
  b.uploadedAt < a.uploadedAt ∨ (a.uploadedAt = b.uploadedAt ∧ b.epoch ≤ a.epoch)

instance (a b : BundleRow) : Decidable (newerBundle a b) :=
  inferInstanceAs (Decidable (_ ∨ _))

/-- `bundles_for`, which has the state of the invite in its `where`. -/
def bundlesFor (t : Tables) (token group : Bytes) (now : Nat) : List EncBundle :=
  match inviteOf t.invites token with
  | some invite =>
    ((t.bundles.filter (fun bundle => bundle.token = token && (bundle.group = group &&
        stillOpen invite now))).insertionSort newerBundle).map (fun bundle =>
      ⟨bundle.group, bundle.epoch, bundle.ct⟩)
  | none => []

/-- What a call was answered; every call here has been. -/
def Phase.answer : Phase → Answer
  | .answered answer => answer
  | _ => .failed

/-- The frame for a verdict of `reserve`. -/
def reserveFrame : Answer → Frame
  | .reserved expiresAt => .join (Response.reserved expiresAt).encode
  | .failed => .error .backpressure
  | _ => .error unavailable

/-- The frame for the answer of `scope_commit`. -/
def commitFrame : Answer → Frame
  | .receipt receipt => .join (Response.committed receipt).encode
  | .failed => .error .backpressure
  | _ => .error unavailable

section Redeem

variable (c : Crypto) (grade : Bytes → Bytes → Bytes → Attempts.Guess)

/-- `reserve::reserve`: the attempt first, then the seat. -/
def reserve (db : Database) (record : RecordRow) (invite : InviteRow)
    (code nonce hash source : Bytes) (now : Nat) : Database × Answer :=
  let attempt := Attempts.machine.solo .turn 8 db.attempts
    (.check ⟨record.token, source, grade code record.token record.codeHash,
      stillOpen invite now, now⟩)
  let call := (machine c).solo .turn 6 (db.workspaces record.workspaceId)
    (.fetch ⟨record.token, nonce, hash, now, attempt.2 = .answered true⟩)
  ({ db with attempts := attempt.1 }.setTables record.workspaceId call.1, call.2.answer)

/-- `reserve::scope_commit`. -/
def scopeCommit (db : Database) (record : RecordRow) (nonce hash group : Bytes) (now : Nat) :
    Database × Answer :=
  let call := (machine c).solo .turn 9 (db.workspaces record.workspaceId)
    (.judge ⟨record.token, nonce, hash, group, now⟩)
  (db.setTables record.workspaceId call.1, call.2.answer)

/-- `record_step`: the stored record of an invite that is open, and nothing otherwise. -/
def recordStep (fetched : Option (RecordRow × InviteRow)) (now : Nat) : Frame :=
  match fetched with
  | some (record, invite) =>
    if stillOpen invite now then .join (Response.record record.body).encode
    else .join (Response.record []).encode
  | none => .join (Response.record []).encode

/-- A request against a database that answers. -/
def serve (db : Database) (source : Bytes) (now : Nat) (request : Request) : Database × Frame :=
  match request, db.fetch request.token with
  -- The record step answers before the refusal that is the others' answer to no record.
  | .record _, fetched => (db, recordStep fetched now)
  | _, none => (db, .error unavailable)
  | .reserve _ code nonce device, some (record, invite) =>
    let salt := db.salts record.workspaceId
    let outcome := reserve c grade db record invite code nonce (entryHash c device salt)
      (sourceHash c source salt) now
    (outcome.1, reserveFrame outcome.2)
  | .bundles token group, some (record, _) =>
    (db, .join (Response.bundles
      (bundlesFor (db.workspaces record.workspaceId) token group now)).encode)
  | .commit _ nonce device group, some (record, _) =>
    let outcome := scopeCommit c db record nonce
      (entryHash c device (db.salts record.workspaceId)) group now
    (outcome.1, commitFrame outcome.2)

/-- `ws::redeem`. -/
def redeem (relay : Relay) (source body : Bytes) : Relay × Frame :=
  match Request.decode body with
  | .error _ => (relay, .error unavailable)
  | .ok request =>
    match relay.database with
    | none => (relay, .error .backpressure)
    | some db =>
      let served := serve c grade db source relay.now request
      ({ relay with database := some served.1 }, served.2)

end Redeem

/-! ## What a stranger learns of a token -/

def Request.isBundles : Request → Bool
  | .bundles .. => true
  | _ => false

/-- The nonce and the device a request speaks for. -/
def Request.holder : Request → Option (Bytes × Bytes)
  | .reserve _ _ nonce device | .commit _ nonce device _ => some (nonce, device)
  | _ => none

/-- The request speaks for a device that holds a reservation under its token. -/
def SpeaksForHolder (c : Crypto) (db : Database) (workspaceId : Bytes) (request : Request) :
    Prop :=
  ∃ nonce device, request.holder = some (nonce, device) ∧
    ∃ row ∈ (db.workspaces workspaceId).reservations, row.token = request.token ∧
      row.joinNonce = nonce ∧ row.deviceHash = entryHash c device (db.salts workspaceId)

section Stranger

variable {c : Crypto} {grade : Bytes → Bytes → Bytes → Attempts.Guess} {db : Database}
  {source body : Bytes} {now : Nat} {request : Request} {record : RecordRow}
  {invite : InviteRow}

theorem fetch_forget (db : Database) (tok : Bytes) : (db.forget tok).fetch tok = none := by
  have habs : Table.lookup RecordRow.token
      (db.records.filter (fun record => decide (record.token ≠ tok))) tok = none := by
    refine List.find?_eq_none.mpr fun record hrecord => ?_
    simpa using (List.mem_filter.mp hrecord).2
  simp only [Database.fetch, Database.forget, habs]

/-- The frame for a token without a record. -/
def frameForNone (request : Request) : Frame :=
  match request with
  | .record _ => .join (Response.record []).encode
  | _ => .error unavailable

theorem serve_of_none (h : db.fetch request.token = none) :
    (serve c grade db source now request).2 = frameForNone request := by
  cases request <;> simp only [serve, h] <;> rfl

variable {t : Tables} {token group : Bytes}

theorem fetched_of_closed {q} (hinv : inviteOf t.invites q.token = some invite)
    (hend : stillOpen invite q.now = false) : fetched t q = .answered .unavailable := by
  have hclosed : invite.state ≠ .live ∨ invite.expiresAt ≤ q.now := by
    simp only [stillOpen, Bool.and_eq_false_iff, decide_eq_false_iff_not, Nat.not_lt] at hend
    exact hend
  simp only [fetched, hinv, if_pos hclosed]

variable {nonce hash : Bytes}

/-- A closed invite has no seat to give, whatever the attempt was worth. -/
theorem reserve_of_closed {code}
    (hinv : inviteOf (db.workspaces record.workspaceId).invites record.token = some invite)
    (hend : stillOpen invite now = false) :
    (reserve c grade db record invite code nonce hash source now).2 = .unavailable := by
  simp only [reserve, Machine.solo, machine, act, statement,
    fetched_of_closed (q := ⟨_, _, _, _, _⟩) hinv hend, Phase.answer]

theorem judgeCommit_of_stranger
    (hstranger : ∀ row ∈ t.reservations, row.token = token → row.joinNonce = nonce →
      row.deviceHash ≠ hash) : judgeCommit t token nonce hash now = none := by
  unfold judgeCommit
  split
  next row invite hrow _ =>
    have hkey : reservationKey row = (token, nonce) := Table.key_of_lookup hrow
    obtain ⟨htok, hnonce⟩ := Prod.mk.inj hkey
    have hdev := hstranger row (Table.mem_of_lookup hrow) htok hnonce
    split_ifs <;> rfl
  · rfl

theorem scopeCommit_of_stranger
    (hstranger : ∀ row ∈ (db.workspaces record.workspaceId).reservations,
      row.token = record.token → row.joinNonce = nonce → row.deviceHash ≠ hash) :
    (scopeCommit c db record nonce hash group now).2 = .refused := by
  simp only [scopeCommit, Machine.solo, machine, act, statement,
    judgeCommit_of_stranger hstranger, Phase.answer]

theorem bundlesFor_of_closed (hinv : inviteOf t.invites token = some invite)
    (hend : stillOpen invite now = false) : bundlesFor t token group now = [] := by
  have hnone : t.bundles.filter (fun bundle => decide (bundle.token = token) &&
      (decide (bundle.group = group) && stillOpen invite now)) = [] := by
    simp [hend]
  simp only [bundlesFor, hinv, hnone]
  rfl

theorem fetch_some (h : db.fetch request.token = some (record, invite)) :
    record.token = request.token ∧
      inviteOf (db.workspaces record.workspaceId).invites request.token = some invite := by
  unfold Database.fetch at h
  split at h
  next found hf =>
    obtain ⟨row, hrow, hpair⟩ := Option.map_eq_some_iff.mp h
    obtain ⟨rfl, rfl⟩ := Prod.mk.inj hpair
    exact ⟨Table.key_of_lookup hf, hrow⟩
  · cases h

/-- The frame for a token whose invite is over: that of a token without a record, but for
the bundles. -/
theorem serve_of_closed (hfetch : db.fetch request.token = some (record, invite))
    (hend : stillOpen invite now = false)
    (hstranger : ¬ SpeaksForHolder c db record.workspaceId request) :
    (serve c grade db source now request).2 =
      if request.isBundles then .join (Response.bundles []).encode
      else frameForNone request := by
  obtain ⟨htok, hinv⟩ := fetch_some hfetch
  cases request with
  | record token =>
    simp only [serve, hfetch, recordStep, hend]
    rfl
  | bundles token group =>
    have hnone : bundlesFor (db.workspaces record.workspaceId) token group now = [] :=
      bundlesFor_of_closed hinv hend
    simp only [serve, hfetch, hnone]
    rfl
  | reserve token code nonce device =>
    have hclosed : inviteOf (db.workspaces record.workspaceId).invites record.token =
        some invite := by rw [htok]; exact hinv
    simp only [serve, hfetch, reserve_of_closed hclosed hend]
    rfl
  | commit token nonce device group =>
    have ho : ∀ row ∈ (db.workspaces record.workspaceId).reservations,
        row.token = record.token → row.joinNonce = nonce →
          row.deviceHash ≠ entryHash c device (db.salts record.workspaceId) :=
      fun row hrow heq hnonce hdev => hstranger
        ⟨nonce, device, rfl, row, hrow, heq.trans htok, hnonce, hdev⟩
    simp only [serve, hfetch, scopeCommit_of_stranger ho]
    rfl

/-- The frame for a request on a token whose invite is over, from a device that holds no
reservation under it, is the one for a token that never existed exactly when it does not
ask for bundles. -/
theorem join_tells_nothing_iff
    (hdecode : Request.decode body = .ok request)
    (hfetch : db.fetch request.token = some (record, invite))
    (hended : stillOpen invite now = false)
    (hstranger : ¬ SpeaksForHolder c db record.workspaceId request) :
    (redeem c grade ⟨some db, now⟩ source body).2 =
        (redeem c grade ⟨some (db.forget request.token), now⟩ source body).2 ↔
      request.isBundles = false := by
  have hnone : (serve c grade (db.forget request.token) source now request).2 =
      frameForNone request := serve_of_none (fetch_forget db request.token)
  have hclosed : (serve c grade db source now request).2 =
      if request.isBundles then .join (Response.bundles []).encode
      else frameForNone request := serve_of_closed hfetch hended hstranger
  simp only [redeem, hdecode, hnone, hclosed]
  cases request with
  | bundles token group => simp [Request.isBundles, frameForNone]
  | record | reserve | commit => simp [Request.isBundles]

end Stranger

section Sample

/-- A workspace with one revoked invite. -/
def revokedDatabase : Database :=
  { records := [⟨id16 1, id32 100, [50, 51], id32 60⟩]
    workspaces := fun _ =>
      { invites := [⟨id16 1, 2, 5000, false, .revoked, 2⟩], reservations := [], grants := [],
        tombstones := [⟨id16 1, .revoked, []⟩], bundles := [], scopes := [⟨id16 1, id32 7⟩],
        scopeCommits := [] }
    salts := fun _ => []
    attempts := ⟨[], 0, 0, []⟩ }

/-- No code is right. -/
def wrongGrade (_ _ _ : Bytes) : Attempts.Guess := .wrong

/-- Asking for the bundles of a revoked invite gets an empty list, and of a token that
never existed a refusal. -/
theorem bundles_tell_revoked_from_absent :
    (redeem sampleCrypto wrongGrade ⟨some revokedDatabase, 0⟩ (id32 9)
        (Request.bundles (id16 1) (id32 7)).encode).2 = .join (Response.bundles []).encode ∧
      (redeem sampleCrypto wrongGrade ⟨some (revokedDatabase.forget (id16 1)), 0⟩ (id32 9)
        (Request.bundles (id16 1) (id32 7)).encode).2 = .error unavailable ∧
      revokedDatabase.fetch (id16 1) =
        some (⟨id16 1, id32 100, [50, 51], id32 60⟩, ⟨id16 1, 2, 5000, false, .revoked, 2⟩) := by
  decide +kernel

def strangerCommit : Request := .commit (id16 1) (id16 2) (id32 3) (id32 7)

/-- A commit by a stranger is refused in both. -/
theorem commit_tells_nothing :
    (redeem sampleCrypto wrongGrade ⟨some revokedDatabase, 0⟩ (id32 9) strangerCommit.encode).2 =
      (redeem sampleCrypto wrongGrade ⟨some (revokedDatabase.forget (id16 1)), 0⟩ (id32 9)
        strangerCommit.encode).2 := by
  have hdecode : Request.decode strangerCommit.encode = .ok strangerCommit :=
    Request.decode_encode (by simp [strangerCommit, Request.Fits, id16, id32])
  have hfetch : revokedDatabase.fetch strangerCommit.token =
      some (⟨id16 1, id32 100, [50, 51], id32 60⟩, ⟨id16 1, 2, 5000, false, .revoked, 2⟩) := rfl
  have hstranger : ¬ SpeaksForHolder sampleCrypto revokedDatabase (id32 100) strangerCommit := by
    rintro ⟨nonce, device, -, row, hrow, -⟩
    cases hrow
  exact (join_tells_nothing_iff hdecode hfetch rfl hstranger).mpr rfl

end Sample

end WealdRelay.Invite
