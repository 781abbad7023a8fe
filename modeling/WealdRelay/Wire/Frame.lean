import WealdRelay.Cbor.Reader
import WealdRelay.Lib.Parser

/-!
# The frame set

`frame.rs`: the twenty-five frames, the error taxonomy an `ERROR` frame carries, and the
codec. A frame is a two-item array, its tag and then its fields as a nested array.

The reader is the parser the source writes by hand: the fields in order, each check right
after the field it is about, and the refusal each check names. `url::Url::parse` is a
parameter.
-/

namespace WealdRelay.Wire

open Lib Lib.Parser Cbor Reader

/-- The highest protocol version this build speaks. -/
def protocolVersion : Nat := 4

/-- The lowest protocol version this build still serves. -/
def minProtocolVersion : Nat := 1

/-- The largest frame the relay reads. -/
def maxFrameBytes : Nat := 1048576 + 4096

/-- The largest `WAKE` frame the relay reads. -/
def maxWakeBytes : Nat := 1024

def callIdBytes : Nat := 16

def streamBytes : Nat := 4

def handleBytes : Nat := 16

def maxRegisterUrlBytes : Nat := 512

/-- Every defined wake category, as a mask. -/
def allCategories : Nat := 7

/-! ## Errors on the wire -/

/-- The six classes. -/
inductive ErrorClass where
  | retry
  | reject
  | denied
  | quota
  | version
  | limit
deriving DecidableEq

def ErrorClass.asStr : ErrorClass → String
  | .retry => "retry"
  | .reject => "reject"
  | .denied => "denied"
  | .quota => "quota"
  | .version => "version"
  | .limit => "limit"

/-- Every code the relay may emit. -/
inductive ErrorCode where
  | backpressure
  | lockTimeout
  | failover
  | pushBackpressure
  | malformedHeader
  | noncanonicalCbor
  | hashMismatch
  | envelopeTooLarge
  | unknownRequiredField
  | pushHandleMalformed
  | plaintextRefused
  | writerNotInAccessSet
  | groupUnknown
  | serviceReadOnly
  | groupFrozen
  | pushNotConfigured
  | wrapNotNewer
  | storageExhausted
  | logBudgetExhausted
  | rateLimited
  | seatsExhausted
  | groupIngressLimited
  | pushRegistrationRate
  | protocolUnsupported
  | belowClientFloor
deriving DecidableEq

namespace ErrorCode

/-- The class a code belongs to. -/
def classOf : ErrorCode → ErrorClass
  | backpressure | lockTimeout | failover | pushBackpressure => .retry
  | malformedHeader | noncanonicalCbor | hashMismatch | envelopeTooLarge
  | unknownRequiredField | pushHandleMalformed => .reject
  | plaintextRefused | writerNotInAccessSet | groupUnknown | serviceReadOnly | groupFrozen
  | wrapNotNewer | pushNotConfigured => .denied
  | storageExhausted | logBudgetExhausted | rateLimited | seatsExhausted
  | groupIngressLimited => .quota
  | pushRegistrationRate => .limit
  | protocolUnsupported | belowClientFloor => .version

/-- The stable string a client matches on. -/
def asStr : ErrorCode → String
  | backpressure => "backpressure"
  | lockTimeout => "lock_timeout"
  | failover => "failover"
  | pushBackpressure => "push_backpressure"
  | malformedHeader => "malformed_header"
  | noncanonicalCbor => "noncanonical_cbor"
  | hashMismatch => "hash_mismatch"
  | envelopeTooLarge => "envelope_too_large"
  | unknownRequiredField => "unknown_required_field"
  | pushHandleMalformed => "push_handle_malformed"
  | plaintextRefused => "plaintext_refused"
  | writerNotInAccessSet => "writer_not_in_access_set"
  | groupUnknown => "group_unknown"
  | serviceReadOnly => "service_read_only"
  | groupFrozen => "group_frozen"
  | pushNotConfigured => "push_not_configured"
  | wrapNotNewer => "wrap_not_newer"
  | storageExhausted => "storage_exhausted"
  | logBudgetExhausted => "log_budget_exhausted"
  | rateLimited => "rate_limited"
  | seatsExhausted => "seats_exhausted"
  | groupIngressLimited => "group_ingress_limited"
  | pushRegistrationRate => "push_registration_rate"
  | protocolUnsupported => "protocol_unsupported"
  | belowClientFloor => "below_client_floor"

/-- Every code, in the order the registry lists them. -/
def all : List ErrorCode :=
  [backpressure, lockTimeout, failover, pushBackpressure, malformedHeader, noncanonicalCbor,
    hashMismatch, envelopeTooLarge, unknownRequiredField, pushHandleMalformed,
    plaintextRefused, writerNotInAccessSet, groupUnknown, serviceReadOnly, groupFrozen,
    pushNotConfigured, wrapNotNewer, storageExhausted, logBudgetExhausted, rateLimited,
    seatsExhausted, groupIngressLimited, pushRegistrationRate, protocolUnsupported,
    belowClientFloor]

/-- The code with this class and name. -/
def lookup (className codeName : Bytes) : Option ErrorCode :=
  all.find? fun candidate =>
    ascii candidate.asStr = codeName ∧ ascii candidate.classOf.asStr = className

end ErrorCode

/-- One error, as it goes on the wire. -/
structure FrameError where
  code : ErrorCode
  retryAfter : Option Nat
  detail : Option Bytes
deriving DecidableEq

/-! ## Frames -/

/-- The frame tags. -/
inductive FrameTag where
  | connect
  | connectAck
  | authChallenge
  | auth
  | authAck
  | access
  | sub
  | subAck
  | recon
  | push
  | send
  | sendAck
  | blob
  | bye
  | error
  | wrap
  | handshake
  | join
  | drop
  | invite
  | live
  | keys
  | call
  | media
  | wake
deriving DecidableEq

namespace FrameTag

/-- The number on the wire, `tag as u16`. -/
def toU16 : FrameTag → Nat
  | connect => 1
  | connectAck => 2
  | authChallenge => 3
  | auth => 4
  | authAck => 5
  | access => 6
  | sub => 7
  | subAck => 8
  | recon => 9
  | push => 10
  | send => 11
  | sendAck => 12
  | blob => 13
  | bye => 14
  | error => 15
  | wrap => 16
  | handshake => 17
  | join => 18
  | drop => 19
  | invite => 20
  | live => 21
  | keys => 22
  | call => 23
  | media => 24
  | wake => 25

def fromU16 : Nat → Option FrameTag
  | 1 => some connect
  | 2 => some connectAck
  | 3 => some authChallenge
  | 4 => some auth
  | 5 => some authAck
  | 6 => some access
  | 7 => some sub
  | 8 => some subAck
  | 9 => some recon
  | 10 => some push
  | 11 => some send
  | 12 => some sendAck
  | 13 => some blob
  | 14 => some bye
  | 15 => some error
  | 16 => some wrap
  | 17 => some handshake
  | 18 => some join
  | 19 => some drop
  | 20 => some invite
  | 21 => some live
  | 22 => some keys
  | 23 => some call
  | 24 => some media
  | 25 => some wake
  | _ => none

@[simp] theorem fromU16_toU16 (tag : FrameTag) : fromU16 tag.toU16 = some tag := by
  cases tag <;> rfl

theorem toU16_lt (tag : FrameTag) : tag.toU16 < 26 := by
  cases tag <;> decide

theorem toU16_of_fromU16 {raw : Nat} {tag : FrameTag} (h : fromU16 raw = some tag) :
    tag.toU16 = raw := by
  unfold fromU16 at h
  split at h <;> cases h <;> rfl

end FrameTag

/-- The `KEYS` forms. -/
inductive KeysBody where
  | publish (packages : List Bytes)
  | published (remaining : Nat)
  | fetch (device : Bytes) (count : Nat)
  | bundles (packages : List Bytes)
  | none
deriving DecidableEq

def KeysBody.form : KeysBody → Nat
  | .publish _ => 1
  | .published _ => 2
  | .fetch _ _ => 3
  | .bundles _ => 4
  | .none => 5

/-- The `WAKE` forms. -/
inductive WakeBody where
  | register (handle : Bytes) (categories expiresAt : Nat)
  | registered (expiresAt : Nat)
  | clear
  | cleared
  | query
  | capability (enabled : Bool) (registerUrl : Text)
deriving DecidableEq

def WakeBody.form : WakeBody → Nat
  | .register _ _ _ => 1
  | .registered _ => 2
  | .clear => 3
  | .cleared => 4
  | .query => 5
  | .capability _ _ => 6

inductive Frame where
  | connect (version : Nat) (groups : List Bytes) (sentAt : Nat)
  | connectAck (version serverTime minEnc : Nat)
  | authChallenge (challenge : Bytes)
  | auth (deviceKey signature : Bytes)
  | authAck (keyPackagesRemaining writeMode : Nat) (buildDigest : Bytes)
      (accessSet minEnc : Nat)
  | access (body : Bytes)
  | sub (group : Bytes) (fromSeq : Nat)
  | subAck (group : Bytes) (headSeq : Nat)
  | recon (group payload : Bytes)
  | push (envelope : Bytes)
  | send (envelope : Bytes)
  | sendAck (hash : Bytes) (seq : Nat)
  | blob (payload : Bytes)
  | drop (payload : Bytes)
  | bye (reason : Bytes)
  | error (frameError : FrameError)
  | wrap (body : Bytes)
  | handshake (group : Bytes) (seq : Nat) (message : Bytes)
  | join (body : Bytes)
  | invite (body : Bytes)
  | live (group : Bytes) (epoch : Nat) (ct : Bytes)
  | keys (body : KeysBody)
  | call (callId group : Bytes) (epoch kind : Nat) (body : Bytes)
  | media (callId stream : Bytes) (seq : Nat) (ct : Bytes)
  | wake (body : WakeBody)
deriving DecidableEq

/-! ## The writer -/

def KeysBody.fields : KeysBody → Bytes
  | .publish packages | .bundles packages => array (packages.map bytes)
  | .published remaining => array [uint remaining]
  | .fetch device count => array [bytes device, uint count]
  | .none => array []

def WakeBody.fields : WakeBody → Bytes
  | .register handle categories expiresAt =>
    array [bytes handle, uint categories, uint expiresAt]
  | .registered expiresAt => array [uint expiresAt]
  | .clear | .cleared | .query => array []
  | .capability enabled registerUrl =>
    array [boolean enabled, text registerUrl]

namespace Frame

def tag : Frame → FrameTag
  | connect _ _ _ => .connect
  | connectAck _ _ _ => .connectAck
  | authChallenge _ => .authChallenge
  | auth _ _ => .auth
  | authAck _ _ _ _ _ => .authAck
  | access _ => .access
  | sub _ _ => .sub
  | subAck _ _ => .subAck
  | recon _ _ => .recon
  | push _ => .push
  | send _ => .send
  | sendAck _ _ => .sendAck
  | blob _ => .blob
  | drop _ => .drop
  | bye _ => .bye
  | error _ => .error
  | wrap _ => .wrap
  | handshake _ _ _ => .handshake
  | join _ => .join
  | invite _ => .invite
  | live _ _ _ => .live
  | keys _ => .keys
  | call _ _ _ _ _ => .call
  | media _ _ _ _ => .media
  | wake _ => .wake

/-- The frame's own fields. -/
def encodeBody : Frame → Bytes
  | connect version groups sentAt =>
    array [uint version, array (groups.map bytes), uint sentAt]
  | connectAck version serverTime minEnc =>
    array [uint version, uint serverTime, uint minEnc]
  | authChallenge challenge => array [bytes challenge]
  | auth deviceKey signature => array [bytes deviceKey, bytes signature]
  | authAck keyPackagesRemaining writeMode buildDigest accessSet minEnc =>
    array [uint keyPackagesRemaining, uint writeMode, bytes buildDigest,
      uint accessSet, uint minEnc]
  | access body => array [bytes body]
  | wrap body => array [bytes body]
  | handshake group seq message =>
    array [bytes group, uint seq, bytes message]
  | join body => array [bytes body]
  | invite body => array [bytes body]
  | sub group fromSeq => array [bytes group, uint fromSeq]
  | subAck group headSeq => array [bytes group, uint headSeq]
  | recon group payload => array [bytes group, bytes payload]
  | push envelope => array [bytes envelope]
  | send envelope => array [bytes envelope]
  | sendAck hash seq => array [bytes hash, uint seq]
  | blob payload => array [bytes payload]
  | drop payload => array [bytes payload]
  | bye reason => array [bytes reason]
  | live group epoch ct => array [bytes group, uint epoch, bytes ct]
  | call callId group epoch kind body =>
    array [bytes callId, bytes group, uint epoch, uint kind,
      bytes body]
  | media callId stream seq ct =>
    array [bytes callId, bytes stream, uint seq, bytes ct]
  | keys body => array [uint body.form, body.fields]
  | wake body => array [uint body.form, body.fields]
  | error frameError =>
    array [bytes (ascii frameError.code.classOf.asStr),
      bytes (ascii frameError.code.asStr), uint (frameError.retryAfter.getD 0),
      bytes (frameError.detail.getD [])]

/-- Deterministic CBOR: `[tag, [fields...]]`. -/
def encode (frame : Frame) : Bytes :=
  array [uint frame.tag.toU16, frame.encodeBody]

end Frame

/-! ## The reader -/

/-- The field a refusal names. -/
inductive Field where
  | form
  | code
  | wake
  | register
  | handle
  | categories
  | expiresAt
  | registered
  | fields
  | capability
  | enabled
  | registerUrl
deriving DecidableEq

/-- Why a frame could not be read. -/
inductive FrameDecodeError where
  | tooLarge (length : Nat)
  | cbor (error : CborError)
  | unknownTag (tag : Nat)
  | unsupportedVersion (version : Nat)
  | badField (field : Field)
  | badWakeField (field : Field)
  | tooLargeWake (length : Nat)
deriving DecidableEq

/-- What `url::Url::parse` returns, as far as it is read. -/
structure ParsedUrl where
  scheme : Bytes
  hostStr : Option Bytes

/-- At least one bit, and none that is undefined. -/
def isValidMask (mask : Nat) : Bool :=
  mask != 0 && mask &&& (255 - allCategories) == 0

/-- `https` anywhere, or `http` against loopback; the empty string means no ringer. -/
def isAcceptableRegisterUrl (parse : Bytes → Option ParsedUrl) (value : Bytes) : Bool :=
  value.isEmpty || match parse value with
    | none => false
    | some parsed =>
      parsed.scheme == ascii "https" || (parsed.scheme == ascii "http" &&
          [ascii "127.0.0.1", ascii "localhost", ascii "::1", ascii "[::1]"].any
            fun host => parsed.hostStr == some host)

/-- Split a `WAKE` codec failure into "not canonical" and "the wrong shape". -/
def wakeShape (field : Field) : CborError → FrameDecodeError
  | .nonCanonicalInteger => .cbor .nonCanonicalInteger
  | .reservedAdditionalInfo info => .cbor (.reservedAdditionalInfo info)
  | .trailingBytes count => .cbor (.trailingBytes count)
  | _ => .badField field

abbrev Read := Parser FrameDecodeError Byte

/-- One item; a refusal is a CBOR refusal. -/
def item {α : Type} (read : Parser CborError Byte α) : Read α := mapErr .cbor read

/-- One item of a `WAKE` frame, with the field a refusal names. -/
def wakeItem {α : Type} (field : Field) (read : Parser CborError Byte α) : Read α :=
  mapErr (wakeShape field) read

/-- An array header and as many items. -/
def itemList {α : Type} (read : Parser CborError Byte α) : Read (List α) := do
  let count ← item arrayHeader
  many (item read) count

/-- The frames that carry one byte string. -/
def readBytes (make : Bytes → Frame) : Read Frame := do
  item (array 1)
  return make (← item bytes)

/-- The frames that carry 32 bytes and a number. -/
def readSeq (make : Bytes → Nat → Frame) : Read Frame := do
  item (array 2)
  return make (← item (bytesOf 32)) (← item uint)

/-- The frames that carry a group, a number and a payload. -/
def readPayload (make : Bytes → Nat → Bytes → Frame) : Read Frame := do
  item (array 3)
  return make (← item (bytesOf 32)) (← item uint) (← item bytes)

def readConnect : Read Frame := do
  item (array 3)
  let version ← item u16
  -- A floor and no ceiling: the field is the client's maximum offer.
  refuse (version < minProtocolVersion) (.unsupportedVersion version)
  return .connect version (← itemList (bytesOf 32)) (← item uint)

def readConnectAck : Read Frame := do
  item (array 3)
  let version ← item u16
  refuse (¬ (minProtocolVersion ≤ version ∧ version ≤ protocolVersion))
    (.unsupportedVersion version)
  return .connectAck version (← item uint) (← item u8)

def readKeys : Read Frame := do
  item (array 2)
  let form ← item u8
  match form with
  | 1 => return .keys (.publish (← itemList bytes))
  | 2 =>
    item (array 1)
    return .keys (.published (← item u32))
  | 3 =>
    item (array 2)
    return .keys (.fetch (← item (bytesOf 32)) (← item u8))
  | 4 => return .keys (.bundles (← itemList bytes))
  | 5 =>
    item (array 0)
    return .keys .none
  | _ => throw (.badField .form)

/-- A `WAKE` form without fields. -/
def readWakeEmpty (body : WakeBody) : Read Frame := do
  wakeItem .fields (array 0)
  return .wake body

def readRegister : Read Frame := do
  wakeItem .register (array 3)
  let handle ← wakeItem .handle bytes
  refuse (handle.length ≠ handleBytes) (.badWakeField .handle)
  let categories ← wakeItem .categories u8
  refuse (¬ isValidMask categories) (.badWakeField .categories)
  return .wake (.register handle categories (← wakeItem .expiresAt uint))

def readCapability (parse : Bytes → Option ParsedUrl) : Read Frame := do
  wakeItem .capability (array 2)
  let enabled ← wakeItem .enabled boolean
  let registerUrl ← wakeItem .registerUrl text
  refuse (maxRegisterUrlBytes < registerUrl.bytes.length ∨
    ¬ isAcceptableRegisterUrl parse registerUrl.bytes) (.badWakeField .registerUrl)
  return .wake (.capability enabled registerUrl)

/-- A `WAKE` frame; `size` is the length of the whole frame. -/
def readWake (parse : Bytes → Option ParsedUrl) (size : Nat) : Read Frame := do
  refuse (maxWakeBytes < size) (.tooLargeWake size)
  wakeItem .wake (array 2)
  let form ← wakeItem .form u8
  match form with
  | 1 => readRegister
  | 2 =>
    wakeItem .registered (array 1)
    return .wake (.registered (← wakeItem .expiresAt uint))
  | 3 => readWakeEmpty .clear
  | 4 => readWakeEmpty .cleared
  | 5 => readWakeEmpty .query
  | 6 => readCapability parse
  | _ => throw (.badField .form)

def readError : Read Frame := do
  item (array 4)
  let className ← item bytes
  let codeName ← item bytes
  let retryAfter ← item u32
  let detail ← item bytes
  let code ← require (ErrorCode.lookup className codeName) (.badField .code)
  return .error
    { code
      retryAfter := if 0 < retryAfter then some retryAfter else none
      detail := if detail.isEmpty then none else some detail }

/-- The fields of the frame a tag announces. -/
def readBody (parse : Bytes → Option ParsedUrl) (size : Nat) : FrameTag → Read Frame
  | .connect => readConnect
  | .connectAck => readConnectAck
  | .authChallenge => readBytes .authChallenge
  | .auth => do
      item (array 2)
      return .auth (← item (bytesOf 32)) (← item (bytesOf 64))
  | .authAck => do
      item (array 5)
      return .authAck (← item u32) (← item u8) (← item bytes)
        (← item u8) (← item u8)
  | .access => readBytes .access
  | .wrap => readBytes .wrap
  | .join => readBytes .join
  | .invite => readBytes .invite
  | .handshake => readPayload .handshake
  | .sub => readSeq .sub
  | .subAck => readSeq .subAck
  | .recon => do
      item (array 2)
      return .recon (← item (bytesOf 32)) (← item bytes)
  | .push => readBytes .push
  | .send => readBytes .send
  | .sendAck => readSeq .sendAck
  | .blob => readBytes .blob
  | .drop => readBytes .drop
  | .bye => readBytes .bye
  | .live => readPayload .live
  | .call => do
      item (array 5)
      return .call (← item (bytesOf callIdBytes)) (← item (bytesOf 32))
        (← item uint) (← item u8) (← item bytes)
  | .media => do
      item (array 4)
      return .media (← item (bytesOf callIdBytes)) (← item (bytesOf streamBytes))
        (← item uint) (← item bytes)
  | .keys => readKeys
  | .wake => readWake parse size
  | .error => readError

def readFrame (parse : Bytes → Option ParsedUrl) (size : Nat) : Read Frame := do
  item (array 2)
  let rawTag ← item uint
  let tag ← require (FrameTag.fromU16 rawTag) (.unknownTag (min rawTag 65535))
  readBody parse size tag

/-- Read a frame, or say precisely why not. -/
def Frame.decode (parse : Bytes → Option ParsedUrl) (data : Bytes) :
    Except FrameDecodeError Frame :=
  if maxFrameBytes < data.length then .error (.tooLarge data.length)
  else do
    let (frame, rest) ← readFrame parse data.length data
    let () ← (finish rest).mapError .cbor
    .ok frame

/-- What the writer puts on the socket; a frame over the cap is refused with its length. -/
def encodeBounded (frame : Frame) : Except Nat Bytes :=
  let bytes := frame.encode
  if maxFrameBytes < bytes.length then .error bytes.length else .ok bytes

end WealdRelay.Wire
