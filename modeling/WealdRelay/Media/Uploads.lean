import WealdRelay.Media.Collect

/-!
# Uploads

`media/mod.rs` on the object store and the media tables: a PUT takes a reservation and is
answered with one upload URL or with a multipart session, a session hands out one URL for
each of its parts, is completed by assembling them and aborted by releasing the
reservation. One request is one step, and so is a pass of each collector.

The URLs that were issued are kept, each with the length it is bound to, the reservation
it was issued for and the moment it expires; the store takes a body under a URL that is
still good, and of that length only if the URL is bound to one. Ids come from a counter, as
`Uuid::new_v4` never repeats one.
-/

namespace WealdRelay.Media

open Lib Retention

/-- 64 MiB, the longest upload in one part. -/
def singlePartMaxBytes : Int := 64 * 1024 * 1024

/-- 64 MiB, the length of every part but the last. -/
def multipartPartSize : Int := 64 * 1024 * 1024

/-- 15 minutes, the life of a URL and of a reservation's window. -/
def presignTtlSeconds : Int := 15 * 60

/-- A row of `relay_blob_multipart`. A session whose reservation is gone finds no row
under its id. -/
structure Session where
  sessionId : Nat
  workspace : Bytes
  reservationId : Nat
  partSize : Int
  expiresAt : Int
  completed : Bool
  aborted : Bool
deriving DecidableEq

/-- A row of `relay_blob_multipart_part`. -/
structure Part where
  sessionId : Nat
  partNumber : Nat
  expectedLen : Int
deriving DecidableEq

/-- The store the relay is configured with. -/
inductive Backend where
  | s3
  | filesystem
deriving DecidableEq

/-- `presign`: the length an upload URL is bound to. The signature over the relay's own route
covers the method, the path and the expiry. -/
def Backend.presign : Backend → Int → Option Int
  | .s3, contentLength => some contentLength
  | .filesystem, _ => none

/-- An upload URL. -/
structure Url where
  key : Key
  len : Option Int
  workspace : Bytes
  group : Bytes
  hash : Bytes
  reservationId : Nat
  expiresAt : Int
deriving DecidableEq

/-- How a call of the store fails: it may be tried again, or not. -/
inductive Fault where
  | transient
  | terminal
deriving DecidableEq

/-- What a request is answered with. -/
inductive Answer where
  | exists
  | upload (url : Url)
  | multipart (sessionId : Nat)
  | partUpload (url : Url)
  | multipartCompleted
  | multipartAborted
  | manifest (outcome : ManifestOutcome)
  | tooLarge
  | storageExhausted
  | malformedHeader
  | hashMismatch
  | backpressure
deriving DecidableEq

namespace Shelf

/-- `find_active_reservation`. -/
def findActiveReservation (shelf : Shelf) (workspace group hash : Bytes) : Option Reservation :=
  ((shelf.tables workspace).rows.filter (·.isFor group hash)).maxOn? (·.createdAt)

/-- What the store says against claiming one object: more was written than declared, or
there is no answer for now. -/
def refusedObject (shelf : Shelf) (workspace group : Bytes) (faults : Key → Option Fault)
    (hash : Bytes) : Option Answer :=
  match shelf.findActiveReservation workspace group hash with
  | none => none
  | some row =>
    let key := Key.blob workspace group hash
    if row.finalized then none
    else
      match faults key, shelf.objects.get key with
      | some .transient, _ => some .backpressure
      | some .terminal, _ => none
      | none, none => none
      | none, some object => if row.bytes < object.len then some .hashMismatch else none

end Shelf

/-- The two calls of a PUT that has asked the store: the quota row, then the reservation. -/
def takeReservation (workspace group hash : Bytes) (len : Int) (limit : Option Int)
    (alreadyStored : Bool) (id : Nat) (now : Int) (tables : Tables) :
    Except Refusal Reserved × Tables :=
  let tables := (Call.ensureQuotaRow workspace limit).perform tables
  match (reserve workspace group hash len alreadyStored presignTtlSeconds id now).alone
      Write.apply tables with
  | .ok (answer, after) => (.ok answer, after)
  | .error reason => (.error reason, tables)

/-- Every row stays as it is, or the object that was not seen has a reservation. -/
theorem takeReservation_cases {ts : Tables} (ws g hash : Bytes) (len : Int)
    (lim : Option Int) (alreadyStored : Bool) (id : Nat) (now : Int) (ht : Tidy ts) :
    (∃ ans t, Tidy t ∧ (∀ w group' hash', (t w).rowOf group' hash' = (ts w).rowOf group' hash') ∧
      takeReservation ws g hash len lim alreadyStored id now ts = (ans, t) ∧
      ∀ reservationId, ans ≠ .ok (.active reservationId)) ∨
    (∃ row t, Tidy t ∧ alreadyStored = false ∧
      row = Reservation.requested g hash len presignTtlSeconds id now ((ts ws).rowOf g hash) ∧
      Rewrites ts t ws g hash (some row) ∧
      takeReservation ws g hash len lim alreadyStored id now ts =
        (.ok (.active row.reservationId), t)) := by
  obtain ⟨hq, hrows⟩ := ensureQuotaRow_rowOf ws lim ht
  rw [takeReservation]
  cases alreadyStored with
  | true => exact .inl ⟨_, _, hq, hrows, rfl, by simp⟩
  | false =>
    cases hrun : (reserve ws g hash len false presignTtlSeconds id now).alone
        Write.apply ((Call.ensureQuotaRow ws lim).perform ts) with
    | error reason => exact .inl ⟨.error reason, _, hq, hrows, rfl, by simp⟩
    | ok out =>
      obtain ⟨ans, t⟩ := out
      obtain ⟨ha, rfl, hrewrites⟩ := reserve_rowOf hq hrun
      rw [hrows] at hrewrites
      refine .inr ⟨_, t, ha, rfl, rfl, fun w group' hash' => ?_, ?_⟩
      · rw [hrewrites w group' hash', hrows]
      · simp only [hrows]

/-- The relay's media: the retention tables of each group, the media tables, the sessions,
the store, the URLs that are out, and the clock in microseconds. -/
structure Relay extends Shelf where
  backend : Backend
  records : Bytes → Records
  sessions : List Session
  parts : List Part
  urls : List Url
  nextId : Nat
  clock : Int

namespace Relay

variable (relay : Relay)

def nowMs : Nat := (relay.clock / 1000).toNat

/-! ## PUT -/

/-- The answer to a PUT that holds a reservation: the URL of the whole object, or a
session of its parts. -/
def issue (workspace group hash : Bytes) (len : Int) (reservationId : Nat) : Relay × Answer :=
  let expiresAt := relay.clock + seconds presignTtlSeconds
  if singlePartMaxBytes < len then
    let session : Session :=
      { sessionId := relay.nextId, workspace, reservationId, partSize := multipartPartSize
        expiresAt, completed := false, aborted := false }
    ({ relay with sessions := relay.sessions ++ [session], nextId := relay.nextId + 1 },
      .multipart relay.nextId)
  else
    let url : Url :=
      { key := .blob workspace group hash, len := relay.backend.presign len, workspace, group
        hash, reservationId, expiresAt }
    ({ relay with urls := relay.urls ++ [url] }, .upload url)

/-- `handle_put`. A `head` that fails counts as an object that is not there. -/
def handlePut (workspace group hash : Bytes) (len : Int) (limit : Option Int)
    (headFails : Bool) : Relay × Answer :=
  if len = 0 || blobLimit < len then (relay, .tooLarge)
  else
    let alreadyStored := !headFails && (relay.objects.get (.blob workspace group hash)).isSome
    match takeReservation workspace group hash len limit alreadyStored relay.nextId relay.clock
        relay.tables with
    | (.ok .alreadyStored, tables) => ({ relay with tables }, .exists)
    | (.ok (.active id), tables) =>
      { relay with tables, nextId := relay.nextId + 1 }.issue workspace group hash len id
    | (.error .overQuota, tables) => ({ relay with tables }, .storageExhausted)
    | (.error _, tables) => ({ relay with tables }, .backpressure)

/-! ## Multipart sessions -/

def session (id : Nat) : Option Session := Table.lookup Session.sessionId relay.sessions id

/-- `find_multipart`: the session and the reservation it spends. -/
def findMultipart (id : Nat) : Option (Session × Reservation) :=
  match relay.session id with
  | none => none
  | some session =>
    ((relay.tables session.workspace).row session.reservationId).map (fun row => (session, row))

/-- `session_part_count`. -/
def partCount (session : Session) (row : Reservation) : Option Int :=
  if session.partSize ≤ 0 || row.bytes ≤ 0 then none
  else some ((row.bytes + session.partSize - 1) / session.partSize)

/-- `expected_len_of`. -/
def expectedLenOf (session number : Nat) : Option Int :=
  (relay.parts.find? (fun part => part.sessionId = session && part.partNumber = number)).map
    (·.expectedLen)

/-- `recorded_parts`, in no particular order. -/
def recordedParts (session : Nat) : List Nat :=
  (relay.parts.filter (·.sessionId = session)).map (·.partNumber)

/-- The URL of a part, and the session's new expiry. -/
def issuePart (session : Session) (row : Reservation) (number : Nat) (len : Int) : Relay × Answer :=
  let expiresAt := relay.clock + seconds presignTtlSeconds
  let url : Url :=
    { key := .part session.sessionId number, len := relay.backend.presign len
      workspace := session.workspace, group := row.group, hash := row.hash
      reservationId := row.reservationId, expiresAt }
  let refreshed := { session with expiresAt := max session.expiresAt expiresAt }
  ({ relay with
      sessions := Table.put Session.sessionId relay.sessions refreshed
      urls := relay.urls ++ [url] }, .partUpload url)

/-- `handle_multipart_part`. -/
def handleMultipartPart (sessionId number : Nat) (len : Int) : Relay × Answer :=
  match relay.findMultipart sessionId with
  | none => (relay, .malformedHeader)
  | some (session, row) =>
    if session.completed || session.aborted || number = 0 || len = 0 then
      (relay, .malformedHeader)
    else
      match partCount session row with
      | none => (relay, .malformedHeader)
      | some maxParts =>
        if maxParts < number then (relay, .tooLarge)
        else
          match relay.expectedLenOf sessionId number with
          | some existing =>
            if existing ≠ len then (relay, .malformedHeader)
            else relay.issuePart session row number len
          | none =>
            if session.partSize < len then (relay, .tooLarge)
            else
              let part : Part := ⟨sessionId, number, len⟩
              { relay with parts := relay.parts ++ [part] }.issuePart session row number len

/-- The length of all the parts a client names, unless one is not in the store or the
store does not say. -/
def measure (sessionId : Nat) (faults : Key → Option Fault) : List Nat → Except Answer Int
  | [] => .ok 0
  | number :: numbers =>
    match faults (.part sessionId number), relay.objects.get (.part sessionId number) with
    | some .transient, _ => .error .backpressure
    | some .terminal, _ => .error .malformedHeader
    | none, none => .error .malformedHeader
    | none, some object => (measure sessionId faults numbers).map (object.len + ·)

/-- The parts of a session leave the store, those that do. -/
def deleteParts (objects : Storage) (sessionId : Nat) (clears : Key → Bool)
    (numbers : List Nat) : Storage :=
  numbers.foldl (fun objects number =>
    if clears (.part sessionId number) then objects.delete (.part sessionId number)
    else objects) objects

/-- `handle_multipart_complete`, with the numbers of the parts the client submits. -/
def handleMultipartComplete (sessionId : Nat) (numbers : List Nat)
    (faults : Key → Option Fault) (clears : Key → Bool) : Relay × Answer :=
  match relay.findMultipart sessionId with
  | none => (relay, .malformedHeader)
  | some (session, row) =>
    if session.aborted then (relay, .malformedHeader)
    else if session.completed then (relay, .multipartCompleted)
    else if !decide numbers.Nodup then (relay, .malformedHeader)
    else if numbers.any (fun number => !(relay.recordedParts sessionId).contains number) then
      (relay, .malformedHeader)
    else
      let ordered := numbers.insertionSort (· ≤ ·)
      match relay.measure sessionId faults ordered with
      | .error answer => (relay, answer)
      | .ok measured =>
        if measured ≠ row.bytes then (relay, .hashMismatch)
        else
          let object : StoredObject :=
            { key := .blob session.workspace row.group row.hash, len := measured
              modifiedMs := some relay.nowMs }
          ({ relay with
              objects := deleteParts (relay.objects.put object) sessionId clears ordered
              sessions := Table.put Session.sessionId relay.sessions
                { session with completed := true } }, .multipartCompleted)

/-- `handle_multipart_abort`. -/
def handleMultipartAbort (sessionId : Nat) (clears : Key → Bool) : Relay × Answer :=
  match relay.findMultipart sessionId with
  | none =>
    if (relay.session sessionId).any (·.aborted) then (relay, .multipartAborted)
    else (relay, .malformedHeader)
  | some (session, _) =>
    if session.completed then (relay, .malformedHeader)
    else if session.aborted then (relay, .multipartAborted)
    else
      ({ relay with
          objects := deleteParts relay.objects sessionId clears (relay.recordedParts sessionId)
          sessions := Table.put Session.sessionId relay.sessions { session with aborted := true }
          tables := (Call.release session.workspace session.reservationId).perform
            relay.tables }, .multipartAborted)

/-- The janitor on one session past its expiry: its parts leave the store and are
forgotten, and it is marked aborted. A part that does not leave keeps all as it is. -/
def abortStale (clears : Key → Bool) (relay : Relay) (session : Session) : Relay :=
  let numbers := relay.recordedParts session.sessionId
  let objects := deleteParts relay.objects session.sessionId clears numbers
  if numbers.all (fun number => clears (.part session.sessionId number)) then
    { relay with
      objects
      parts := relay.parts.filter (·.sessionId ≠ session.sessionId)
      sessions := Table.put Session.sessionId relay.sessions { session with aborted := true } }
  else { relay with objects }

/-- `stale_multipart_sessions`. -/
def staleSessions : List Session :=
  relay.sessions.filter (fun session =>
    !session.completed && session.expiresAt < relay.clock &&
      (!session.aborted || !(relay.recordedParts session.sessionId).isEmpty))

/-- The janitor's pass over the sessions. -/
def abortStaleSessions (clears : Key → Bool) : Relay :=
  relay.staleSessions.foldl (abortStale clears) relay

/-! ## Manifests -/

variable (c : Access.Crypto) (workspaceOf : Bytes → Bytes)

/-- `handle_manifest`. -/
def handleManifest (record : RetentionManifest) (faults : Key → Option Fault) : Relay × Answer :=
  match record.blobs.findSome? (relay.toShelf.refusedObject (workspaceOf record.group)
      record.group faults) with
  | some answer => (relay, answer)
  | none =>
    match Retention.applyManifest c (workspaceOf record.group) relay.clock record
        (relay.records record.group) relay.tables with
    | none => (relay, .backpressure)
    | some (outcome, records, tables) =>
      ({ relay with tables, records := Function.update relay.records record.group records },
        .manifest outcome)

/-! ## Steps -/

/-- What can happen: the requests of clients, what they upload, the passes of the
collectors, and time. `govern` is whatever the controls, resolutions, policies and
destruction records of a group leave in its tables. -/
inductive Event where
  | put (group hash : Bytes) (len : Nat) (limit : Option Int) (headFails : Bool)
  | part (session number len : Nat)
  | complete (session : Nat) (numbers : List Nat) (faults : Key → Option Fault)
      (clears : Key → Bool)
  | abort (session : Nat) (clears : Key → Bool)
  | upload (url : Url) (len : Int)
  | manifest (record : RetentionManifest) (faults : Key → Option Fault)
  | govern (group : Bytes) (chain : Chain) (policies : List Policy)
      (destructions : List Destruction)
  | tick (clock : Int)
  | sweepUnclaimed (workspace : Bytes) (graceSeconds : Int) (clears : Key → Bool)
  | sweepUnreferenced (group : Bytes) (minAgeSeconds : Nat) (suppressed listFails : Bool)
      (clears : Key → Bool)
  | sweepRetention (group : Bytes) (clears : Key → Bool)
  | abortStaleSessions (clears : Key → Bool)

/-- The relay after an event, and the answer if it is a request. -/
def answer : Event → Relay × Option Answer
  | .put group hash len limit headFails =>
    (relay.handlePut (workspaceOf group) group hash len limit headFails).map id some
  | .part session number len => (relay.handleMultipartPart session number len).map id some
  | .complete session numbers faults clears =>
    (relay.handleMultipartComplete session numbers faults clears).map id some
  | .abort session clears => (relay.handleMultipartAbort session clears).map id some
  | .upload url len =>
    ({ relay with objects := relay.objects.put ⟨url.key, len, some relay.nowMs⟩ }, none)
  | .manifest record faults => (relay.handleManifest c workspaceOf record faults).map id some
  | .govern group chain policies destructions =>
    ({ relay with
        records := Function.update relay.records group
          ⟨chain, (relay.records group).manifests, policies, destructions⟩ }, none)
  | .tick clock => ({ relay with clock }, none)
  | .sweepUnclaimed workspace graceSeconds clears =>
    ({ relay with
        toShelf := sweepUnclaimedAfter workspace graceSeconds relay.clock clears
          relay.toShelf }, none)
  | .sweepUnreferenced group minAgeSeconds suppressed listFails clears =>
    ({ relay with
        toShelf := sweepUnreferencedStorage (workspaceOf group) group relay.nowMs
          minAgeSeconds suppressed listFails clears relay.toShelf }, none)
  | .sweepRetention group clears =>
    ({ relay with
        toShelf := sweepRetention (workspaceOf group) group (relay.records group) relay.nowMs
          clears relay.toShelf }, none)
  | .abortStaleSessions clears => (relay.abortStaleSessions clears, none)

def after (event : Event) : Relay := (relay.answer c workspaceOf event).1

/-- When an event can happen: a body is taken under a URL that is still good and not bound
to another length, and the clock does not go back. -/
def Possible : Event → Prop
  | .upload url len => url ∈ relay.urls ∧ relay.clock < url.expiresAt ∧ url.len.all (· = len)
  | .tick clock => relay.clock ≤ clock
  | _ => True

/-- One event. -/
def step (relay : Relay) (event : Event) (relay' : Relay) : Prop :=
  relay.Possible event ∧ relay' = relay.after c workspaceOf event

end Relay
end WealdRelay.Media
