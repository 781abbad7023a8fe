import WealdRelay.Cbor.Canonical
import WealdRelay.Wire.Frame

/-!
# One encoding per frame

`Frame.Typed` says which values the fields of the Rust enum can hold, `Frame.WellFormed`
what the reader asks of them beyond their types: the fixed widths, the version range, the
rules of `WAKE`, and an `ERROR` whose optional fields are not present and empty.

`Frame.encode_of_decode`: the bytes a frame was read from are its encoding, and it is well
formed. `Frame.decode_encode`: a well-formed frame within its size limit is read back.
Each reader of `Wire.Frame` has the two rules of `Lib.Parser`, `accepts_` and `reads_`, and
the frame's two follow them.
-/

namespace WealdRelay.Wire

open Lib Lib.Parser Cbor Reader List

/-! ## What a frame can hold -/

def KeysBody.Typed : KeysBody → Prop
  | .publish packages | .bundles packages =>
    packages.length < 2 ^ 64 ∧ ∀ package ∈ packages, package.length < 2 ^ 64
  | .published remaining => remaining ≤ 4294967295
  | .fetch device count => device.length < 2 ^ 64 ∧ count ≤ 255
  | .none => True

def KeysBody.WellFormed : KeysBody → Prop
  | .fetch device _ => device.length = 32
  | _ => True

def WakeBody.Typed : WakeBody → Prop
  | .register handle categories expiresAt =>
    handle.length < 2 ^ 64 ∧ categories ≤ 255 ∧ expiresAt < 2 ^ 64
  | .registered expiresAt => expiresAt < 2 ^ 64
  | .capability _ registerUrl => registerUrl.bytes.length < 2 ^ 64
  | _ => True

def WakeBody.WellFormed (parse : Bytes → Option ParsedUrl) : WakeBody → Prop
  | .register handle categories _ => handle.length = handleBytes ∧ isValidMask categories
  | .capability _ registerUrl => registerUrl.bytes.length ≤ maxRegisterUrlBytes ∧
      isAcceptableRegisterUrl parse registerUrl.bytes
  | _ => True

def FrameError.Typed (error : FrameError) : Prop :=
  (∀ seconds ∈ error.retryAfter, seconds ≤ 4294967295) ∧
    ∀ detail ∈ error.detail, detail.length < 2 ^ 64

/-- Neither `retry_after = Some(0)` nor `detail = Some(empty)`. -/
def FrameError.WellFormed (error : FrameError) : Prop :=
  error.retryAfter ≠ some 0 ∧ error.detail ≠ some []

namespace Frame

/-- The values the Rust types can hold: unsigned integers of 8 to 64 bits, and byte
strings and lists whose length is a 64-bit number. -/
def Typed : Frame → Prop
  | connect version groups sentAt => version ≤ 65535 ∧ groups.length < 2 ^ 64 ∧
      (∀ group ∈ groups, group.length < 2 ^ 64) ∧ sentAt < 2 ^ 64
  | connectAck version serverTime minEnc =>
    version ≤ 65535 ∧ serverTime < 2 ^ 64 ∧ minEnc ≤ 255
  | auth deviceKey signature => deviceKey.length < 2 ^ 64 ∧ signature.length < 2 ^ 64
  | authAck keyPackagesRemaining writeMode buildDigest accessSet minEnc =>
    keyPackagesRemaining ≤ 4294967295 ∧ writeMode ≤ 255 ∧ buildDigest.length < 2 ^ 64 ∧
      accessSet ≤ 255 ∧ minEnc ≤ 255
  | authChallenge payload | access payload | wrap payload | join payload | invite payload
  | push payload | send payload | blob payload | drop payload | bye payload =>
    payload.length < 2 ^ 64
  | sub key seq | subAck key seq | sendAck key seq => key.length < 2 ^ 64 ∧ seq < 2 ^ 64
  | recon group payload => group.length < 2 ^ 64 ∧ payload.length < 2 ^ 64
  | handshake group seq payload | live group seq payload =>
    group.length < 2 ^ 64 ∧ seq < 2 ^ 64 ∧ payload.length < 2 ^ 64
  | call callId group epoch kind body => callId.length < 2 ^ 64 ∧ group.length < 2 ^ 64 ∧
      epoch < 2 ^ 64 ∧ kind ≤ 255 ∧ body.length < 2 ^ 64
  | media callId stream seq ct => callId.length < 2 ^ 64 ∧ stream.length < 2 ^ 64 ∧
      seq < 2 ^ 64 ∧ ct.length < 2 ^ 64
  | keys body => body.Typed
  | wake body => body.Typed
  | error frameError => frameError.Typed

/-- What the reader asks of the fields beyond their types. -/
def WellFormed (parse : Bytes → Option ParsedUrl) : Frame → Prop
  | connect version groups _ =>
    minProtocolVersion ≤ version ∧ ∀ group ∈ groups, group.length = 32
  | connectAck version _ _ => minProtocolVersion ≤ version ∧ version ≤ protocolVersion
  | auth deviceKey signature => deviceKey.length = 32 ∧ signature.length = 64
  | sub key _ | subAck key _ | sendAck key _ | recon key _ | handshake key _ _
  | live key _ _ => key.length = 32
  | call callId group _ _ _ => callId.length = callIdBytes ∧ group.length = 32
  | media callId stream _ _ => callId.length = callIdBytes ∧ stream.length = streamBytes
  | keys body => body.WellFormed
  | wake body => body.WellFormed parse
  | error frameError => frameError.WellFormed
  | _ => True

/-- The most bytes the frame may be encoded in. -/
def sizeLimit : Frame → Nat
  | wake _ => maxWakeBytes
  | _ => maxFrameBytes

end Frame

/-! ## Reading what was written -/

variable (make : Bytes → Frame) (code : ErrorCode) {Q : Frame → Bytes → Prop} {p : Bytes}
  {seq : Nat}

theorem reads_readBytes (h : p.length < 2 ^ 64) :
    Reads (readBytes make) (Cbor.array [bytes p]) (make p) :=
  reads_record [_] _ (reads_field (reads_bytes h) (.pure _))

theorem reads_readSeq (make : Bytes → Nat → Frame) {key} (hkey : key.length = 32)
    (hseq : seq < 2 ^ 64) :
    Reads (readSeq make) (Cbor.array [bytes key, uint seq]) (make key seq) :=
  reads_record [_, _] _ (reads_field (reads_bytesOf hkey) (reads_field (reads_uint hseq) (.pure _)))

theorem reads_readPayload (make : Bytes → Nat → Bytes → Frame) {g}
    (hg : g.length = 32) (hseq : seq < 2 ^ 64) (hpay : p.length < 2 ^ 64) :
    Reads (readPayload make) (Cbor.array [bytes g, uint seq, bytes p]) (make g seq p) :=
  reads_record [_, _, _] _ (reads_field (reads_bytesOf hg) (reads_field (reads_uint hseq)
        (reads_field (reads_bytes hpay) (.pure _))))

/-- A list of byte strings, each read back by the same reader. -/
theorem reads_itemList {read vs} (hn : vs.length < 2 ^ 64) (h : ∀ v ∈ vs, Reads read (bytes v) v) :
    Reads (itemList read) (Cbor.array (vs.map bytes)) vs :=
  reads_list _ hn bytes_ne_nil (fun v hvalue => (h v hvalue).mapErr _)

theorem reads_readConnect {ver sentAt groups} (htyped : (Frame.connect ver groups sentAt).Typed)
    (hver : minProtocolVersion ≤ ver) (hgroups : ∀ g ∈ groups, g.length = 32) :
    Reads readConnect (Frame.connect ver groups sentAt).encodeBody
      (.connect ver groups sentAt) := by
  obtain ⟨hsmall, hn, -, hsentAt⟩ := htyped
  refine reads_record [_, _, _] _ ?_
  refine reads_field (reads_u16 hsmall) ?_
  refine (Reads.refuse (not_lt.mpr hver)).skip ?_
  refine (reads_itemList hn fun g hg =>
    reads_bytesOf (hgroups g hg)).bind ?_
  exact reads_field (reads_uint hsentAt) (.pure _)

theorem reads_readConnectAck {ver serverTime minEnc}
    (htyped : (Frame.connectAck ver serverTime minEnc).Typed)
    (hver : minProtocolVersion ≤ ver ∧ ver ≤ protocolVersion) :
    Reads readConnectAck (Frame.connectAck ver serverTime minEnc).encodeBody
      (.connectAck ver serverTime minEnc) := by
  obtain ⟨hsmall, htime, henc⟩ := htyped
  refine reads_record [_, _, _] _ ?_
  refine reads_field (reads_u16 hsmall) ?_
  refine (Reads.refuse (not_not.mpr hver)).skip ?_
  exact reads_field (reads_uint htime) (reads_field (reads_u8 henc) (Reads.pure _))

theorem reads_form {form fields} {k : Nat → Read Frame} {frame}
    (f g : CborError → FrameDecodeError) (hform : form ≤ 255) (hfields : fields ≠ [])
    (h : Reads (k form) fields frame) :
    Reads (do mapErr f (Reader.array 2); let form ← mapErr g Reader.u8; k form)
      (Cbor.array [uint form, fields]) frame := by
  refine reads_record [_, _] f ?_ (by simp) (by simp [hfields])
  refine ((reads_u8 hform).mapErr g).bind ?_
  rw [flatten_cons, flatten_nil, append_nil]
  exact h

theorem KeysBody.form_le (body : KeysBody) : body.form ≤ 255 := by
  cases body <;> simp [form]

theorem WakeBody.form_le (body : WakeBody) : body.form ≤ 255 := by
  cases body <;> simp [form]

theorem reads_readKeys {body} (htyped : body.Typed) (hformed : body.WellFormed) :
    Reads readKeys (Frame.keys body).encodeBody (.keys body) := by
  cases body with
  | publish | bundles =>
    refine reads_form _ _ (KeysBody.form_le _) (array_ne_nil _) ?_
    exact (reads_itemList htyped.1 fun package hpackage =>
      reads_bytes (htyped.2 package hpackage)).map
  | published remaining =>
    refine reads_form _ _ (KeysBody.form_le _) (array_ne_nil _) ?_
    exact reads_record [_] _ (reads_field (reads_u32 htyped) (Reads.pure _))
  | fetch device n =>
    refine reads_form _ _ (KeysBody.form_le _) (array_ne_nil _) ?_
    exact reads_record [_, _] _ (reads_field (reads_bytesOf hformed)
        (reads_field (reads_u8 htyped.2) (Reads.pure _)))
  | none =>
    refine reads_form _ _ (KeysBody.form_le _) (array_ne_nil _) ?_
    exact reads_record [] _ (Reads.pure _)

theorem reads_readRegister {handle categories exp}
    (htyped : (WakeBody.register handle categories exp).Typed)
    (hhandle : handle.length = handleBytes) (hmask : isValidMask categories) :
    Reads readRegister (WakeBody.register handle categories exp).fields
      (.wake (.register handle categories exp)) := by
  obtain ⟨hlen, hsmall, hexpires⟩ := htyped
  refine reads_record [_, _, _] _ ?_
  refine reads_field (reads_bytes hlen) ?_
  refine (Reads.refuse (not_not.mpr hhandle)).skip ?_
  refine reads_field (reads_u8 hsmall) ?_
  refine (Reads.refuse (not_not.mpr hmask)).skip ?_
  exact reads_field (reads_uint hexpires) (.pure _)

@[simp]
theorem boolean_ne_nil (v : Bool) : boolean v ≠ [] := by
  cases v <;> decide

@[simp]
theorem text_ne_nil (v : Text) : Cbor.text v ≠ [] := by
  refine ne_nil_of_length_pos ?_
  have hhead := length_head_pos majorText v.bytes.length
  rw [Cbor.text, length_append]
  omega

section Url

variable {parse : Bytes → Option ParsedUrl}

theorem reads_readCapability {enabled registerUrl}
    (htyped : (WakeBody.capability enabled registerUrl).Typed)
    (hformed : (WakeBody.capability enabled registerUrl).WellFormed parse) :
    Reads (readCapability parse) (WakeBody.capability enabled registerUrl).fields
      (.wake (.capability enabled registerUrl)) := by
  obtain ⟨hlen, hurl⟩ := hformed
  refine reads_record [_, _] _ ?_
  refine reads_field (reads_boolean enabled) ?_
  refine reads_field (reads_text htyped) ?_
  exact (Reads.refuse (not_or.mpr ⟨not_lt.mpr hlen, not_not.mpr hurl⟩)).skip (Reads.pure _)

theorem reads_readWakeEmpty (body : WakeBody) :
    Reads (readWakeEmpty body) (Cbor.array []) (.wake body) :=
  reads_record [] _ (.pure _)

theorem reads_readWake {body size} (hsize : size ≤ maxWakeBytes)
    (htyped : body.Typed) (hformed : body.WellFormed parse) :
    Reads (readWake parse size) (Frame.wake body).encodeBody (.wake body) := by
  refine (Reads.refuse (not_lt.mpr hsize)).skip ?_
  have hform := body.form_le
  cases body with
  | register handle categories exp =>
    exact reads_form _ _ hform (array_ne_nil _) (reads_readRegister htyped hformed.1 hformed.2)
  | registered exp =>
    refine reads_form _ _ hform (array_ne_nil _) ?_
    exact reads_record [_] _ (reads_field (reads_uint htyped) (.pure _))
  | clear => exact reads_form _ _ hform (array_ne_nil _) (reads_readWakeEmpty .clear)
  | cleared => exact reads_form _ _ hform (array_ne_nil _) (reads_readWakeEmpty .cleared)
  | query => exact reads_form _ _ hform (array_ne_nil _) (reads_readWakeEmpty .query)
  | capability enabled registerUrl =>
    exact reads_form _ _ hform (array_ne_nil _) (reads_readCapability htyped hformed)

end Url

/-- Every code is the first with its class and name. -/
theorem ErrorCode.lookup_asStr :
    lookup (ascii code.classOf.asStr) (ascii code.asStr) = some code := by
  cases code <;> decide

theorem ErrorCode.length_asStr :
    (ascii code.asStr).length < 2 ^ 64 ∧ (ascii code.classOf.asStr).length < 2 ^ 64 := by
  cases code <;> decide

theorem ErrorCode.lookup_ok {className codeName code} (h : lookup className codeName = some code) :
    ascii code.asStr = codeName ∧ ascii code.classOf.asStr = className := by
  simpa using find?_some h

/-- On the wire zero seconds stand for none. -/
theorem retryAfter_present (seconds : Nat) : (if 0 < seconds then some seconds else none) ≠ some 0 ∧
      (if 0 < seconds then some seconds else none).getD 0 = seconds ∧
        ∀ x ∈ (if 0 < seconds then some seconds else none), x = seconds := by
  cases seconds with
  | zero => simp
  | succ seconds => simp

/-- On the wire an empty detail stands for none. -/
theorem detail_present (detail : Bytes) : (if detail.isEmpty then none else some detail) ≠ some [] ∧
      (if detail.isEmpty then none else some detail).getD [] = detail ∧
        ∀ x ∈ (if detail.isEmpty then none else some detail), x = detail := by
  cases detail with
  | nil => simp
  | cons byte detail => simp

theorem reads_readError {error} (htyped : error.Typed) (hformed : error.WellFormed) :
    Reads readError (Frame.error error).encodeBody (.error error) := by
  obtain ⟨code, retryAfter, detail⟩ := error
  have hretry : retryAfter.getD 0 ≤ 4294967295 := by
    cases retryAfter with
    | none => exact Nat.zero_le _
    | some seconds => exact htyped.1 seconds rfl
  have hdetail : (detail.getD []).length < 2 ^ 64 := by
    cases detail with
    | none => exact Nat.two_pow_pos 64
    | some bytes => exact htyped.2 bytes rfl
  have hretryBack : (if 0 < retryAfter.getD 0 then some (retryAfter.getD 0) else none) =
      retryAfter := by
    cases retryAfter with
    | none => rfl
    | some seconds =>
      have hpos : seconds ≠ 0 := fun hzero => hformed.1 (congrArg some hzero)
      simp [Nat.pos_of_ne_zero hpos]
  have hdetailBack : (if (detail.getD []).isEmpty then none else some (detail.getD [])) =
      detail := by
    cases detail with
    | none => rfl
    | some bytes =>
      have hne : bytes ≠ [] := fun hnil => hformed.2 (congrArg some hnil)
      simp [hne]
  refine reads_record [_, _, _, _] _ ?_
  refine reads_field (reads_bytes code.length_asStr.2) ?_
  refine reads_field (reads_bytes code.length_asStr.1) ?_
  refine reads_field (reads_u32 hretry) ?_
  refine reads_field (reads_bytes hdetail) ?_
  refine (Reads.require code.lookup_asStr).skip ?_
  rw [hretryBack, hdetailBack]
  exact Reads.pure _

/-! ## What was read -/

theorem accepts_readBytes (h : ∀ p, p.length < 2 ^ 64 →
      Q (make p) (Cbor.array [bytes p])) : Accepts (readBytes make) Q := by
  refine accepts_record ?_
  refine accepts_field accepts_bytes fun p hpay => ?_
  exact .pure (h p hpay)

theorem accepts_readSeq (make : Bytes → Nat → Frame)
    (h : ∀ key seq, key.length = 32 → seq < 2 ^ 64 →
      Q (make key seq) (Cbor.array [bytes key, uint seq])) : Accepts (readSeq make) Q := by
  refine accepts_record ?_
  refine accepts_field (accepts_bytesOf 32) fun key hkey => ?_
  refine accepts_field accepts_uint fun seq hseq => ?_
  exact .pure (h key seq hkey hseq)

theorem accepts_readPayload (make : Bytes → Nat → Bytes → Frame)
    (h : ∀ g seq p, g.length = 32 → seq < 2 ^ 64 → p.length < 2 ^ 64 → Q (make g seq p)
        (Cbor.array [bytes g, uint seq, bytes p])) : Accepts (readPayload make) Q := by
  refine accepts_record ?_
  refine accepts_field (accepts_bytesOf 32) fun g hg => ?_
  refine accepts_field accepts_uint fun seq hseq => ?_
  refine accepts_field accepts_bytes fun p hpay => ?_
  exact .pure (h g seq p hg hseq hpay)

section Frames

variable {parse : Bytes → Option ParsedUrl}

/-- What the reader of a tag's fields establishes: a frame of that tag, well formed, and
consumed from its own encoding. -/
def Reconstructs (parse : Bytes → Option ParsedUrl) (size : Nat) (tag : FrameTag)
    (frame : Frame) (written : Bytes) : Prop :=
  frame.tag = tag ∧ frame.Typed ∧ frame.WellFormed parse ∧
    (tag = .wake → size ≤ maxWakeBytes) ∧ written = frame.encodeBody

variable {size : Nat}

theorem accepts_readConnect : Accepts readConnect (Reconstructs parse size .connect) := by
  refine accepts_record ?_
  refine accepts_field accepts_u16 fun ver hsmall => ?_
  refine Accepts.refuse.bind ?_
  rintro _ _ ⟨hver, rfl⟩
  refine (accepts_list _ ((accepts_bytesOf 32).mapErr _)).bind ?_
  rintro groups _ ⟨hn, hgroups, rfl⟩
  refine accepts_field accepts_uint fun sentAt hsentAt => ?_
  refine .pure ⟨rfl, ⟨hsmall, hn, ?_, hsentAt⟩, ⟨not_lt.mp hver, hgroups⟩, by simp, rfl⟩
  intro g hg
  rw [hgroups g hg]
  decide

theorem accepts_readConnectAck : Accepts readConnectAck (Reconstructs parse size .connectAck) := by
  refine accepts_record ?_
  refine accepts_field accepts_u16 fun ver hsmall => ?_
  refine Accepts.refuse.bind ?_
  rintro _ _ ⟨hver, rfl⟩
  refine accepts_field accepts_uint fun serverTime htime => ?_
  refine accepts_field accepts_u8 fun minEnc henc => ?_
  exact .pure ⟨rfl, ⟨hsmall, htime, henc⟩, not_not.mp hver, by simp, rfl⟩

variable {Q : Frame → Bytes → Prop}

/-- The fields of a form, after the number that announces it. -/
theorem accepts_form {k : Nat → Read Frame} (f g : CborError → FrameDecodeError)
    (h : ∀ form, Accepts (k form) fun frame fields =>
      Q frame (Cbor.array [uint form, fields])) :
    Accepts (do mapErr f (Reader.array 2); let form ← mapErr g Reader.u8; k form) Q := by
  refine accepts_record ?_
  refine accepts_field accepts_u8 fun form _ => ?_
  refine (h form).mono fun frame fields hframe => ?_
  simpa [Cbor.array] using hframe

/-- The two forms that carry a list of packages. -/
theorem accepts_packages (make : List Bytes → KeysBody)
    (h : ∀ packages, packages.length < 2 ^ 64 → (∀ package ∈ packages, package.length < 2 ^ 64) →
        Q (.keys (make packages)) (Cbor.array (packages.map bytes))) :
    Accepts (do return .keys (make (← itemList Reader.bytes))) Q := by
  refine .map ((accepts_list _ (accepts_bytes.mapErr _)).mono ?_)
  rintro packages _ ⟨hn, hpackages, rfl⟩
  exact h packages hn hpackages

theorem accepts_readKeys : Accepts readKeys (Reconstructs parse size .keys) := by
  refine accepts_form _ _ fun form => ?_
  split
  · exact accepts_packages .publish fun packages hn hpackages =>
      ⟨rfl, ⟨hn, hpackages⟩, trivial, by simp, rfl⟩
  · refine accepts_record ?_
    refine accepts_field accepts_u32 fun remaining hrem => ?_
    exact .pure ⟨rfl, hrem, trivial, by simp, rfl⟩
  · refine accepts_record ?_
    refine accepts_field (accepts_bytesOf 32) fun device hdev => ?_
    refine accepts_field accepts_u8 fun n hn => ?_
    exact .pure ⟨rfl, ⟨by rw [hdev]; decide, hn⟩, hdev, by simp, rfl⟩
  · exact accepts_packages .bundles fun packages hn hpackages =>
      ⟨rfl, ⟨hn, hpackages⟩, trivial, by simp, rfl⟩
  · refine accepts_record ?_
    exact .pure ⟨rfl, trivial, trivial, by simp, rfl⟩
  · exact .throw

theorem accepts_readRegister (hsize : size ≤ maxWakeBytes) :
    Accepts readRegister fun frame fields =>
      Reconstructs parse size .wake frame (Cbor.array [uint 1, fields]) := by
  refine accepts_record ?_
  refine accepts_field accepts_bytes fun handle hlen => ?_
  refine Accepts.refuse.bind ?_
  rintro _ _ ⟨hhandle, rfl⟩
  refine accepts_field accepts_u8 fun categories hsmall => ?_
  refine Accepts.refuse.bind ?_
  rintro _ _ ⟨hmask, rfl⟩
  refine accepts_field accepts_uint fun exp hexpires => ?_
  exact .pure ⟨rfl, ⟨hlen, hsmall, hexpires⟩,
    ⟨not_not.mp hhandle, not_not.mp hmask⟩, fun _ => hsize, rfl⟩

theorem accepts_readCapability (hsize : size ≤ maxWakeBytes) :
    Accepts (readCapability parse) fun frame fields =>
      Reconstructs parse size .wake frame (Cbor.array [uint 6, fields]) := by
  refine accepts_record ?_
  refine (accepts_boolean.mapErr _).bind ?_
  rintro enabled _ rfl
  refine accepts_field accepts_text fun registerUrl htext => ?_
  refine Accepts.refuse.bind ?_
  rintro _ _ ⟨hurl, rfl⟩
  obtain ⟨hlen, hacceptable⟩ := not_or.mp hurl
  exact .pure ⟨rfl, htext, ⟨not_lt.mp hlen, not_not.mp hacceptable⟩, fun _ => hsize, rfl⟩

theorem accepts_readWakeEmpty (body : WakeBody) (h : Q (.wake body) (Cbor.array [])) :
    Accepts (readWakeEmpty body) Q := by
  refine accepts_record ?_
  exact .pure h

theorem accepts_readWake : Accepts (readWake parse size) (Reconstructs parse size .wake) := by
  refine Accepts.refuse.bind ?_
  rintro _ _ ⟨hlarge, rfl⟩
  have hsize := not_lt.mp hlarge
  refine accepts_form _ _ fun form => ?_
  split
  · exact accepts_readRegister hsize
  · refine accepts_record ?_
    refine accepts_field accepts_uint fun exp hexpires => ?_
    exact .pure ⟨rfl, hexpires, trivial, fun _ => hsize, rfl⟩
  · exact accepts_readWakeEmpty .clear ⟨rfl, trivial, trivial, fun _ => hsize, rfl⟩
  · exact accepts_readWakeEmpty .cleared ⟨rfl, trivial, trivial, fun _ => hsize, rfl⟩
  · exact accepts_readWakeEmpty .query ⟨rfl, trivial, trivial, fun _ => hsize, rfl⟩
  · exact accepts_readCapability hsize
  · exact .throw

theorem accepts_readError : Accepts readError (Reconstructs parse size .error) := by
  refine accepts_record ?_
  refine accepts_field accepts_bytes fun className _ => ?_
  refine accepts_field accepts_bytes fun codeName _ => ?_
  refine accepts_field accepts_u32 fun retryAfter hretry => ?_
  refine accepts_field accepts_bytes fun detail hdetail => ?_
  refine Accepts.require.bind ?_
  rintro code _ ⟨hcode, rfl⟩
  obtain ⟨rfl, rfl⟩ := ErrorCode.lookup_ok hcode
  obtain ⟨hsome, hback, hseconds⟩ := retryAfter_present retryAfter
  obtain ⟨hsome', hback', hbytes⟩ := detail_present detail
  refine .pure ⟨rfl, ⟨?_, ?_⟩, ⟨hsome, hsome'⟩, by simp, ?_⟩
  · intro seconds hmem
    exact hseconds seconds hmem ▸ hretry
  · intro bytes hmem
    exact hbytes bytes hmem ▸ hdetail
  · simp only [Frame.encodeBody, hback, hback']
    rfl

theorem length_lt_of_eq {v : Bytes} {n : Nat} (h : v.length = n)
    (hn : n < 2 ^ 64 := by decide) : v.length < 2 ^ 64 := by
  rwa [h]

theorem accepts_readBody (size : Nat) (tag : FrameTag) :
    Accepts (readBody parse size tag) (Reconstructs parse size tag) := by
  cases tag with
  | connect => exact accepts_readConnect
  | connectAck => exact accepts_readConnectAck
  | keys => exact accepts_readKeys
  | wake => exact accepts_readWake
  | error => exact accepts_readError
  | authChallenge | access | wrap | join | invite | push | send | blob | drop | bye =>
    exact accepts_readBytes _ fun p hpay =>
      ⟨rfl, hpay, trivial, by simp, rfl⟩
  | sub | subAck | sendAck =>
    exact accepts_readSeq _ fun key seq hkey hseq =>
      ⟨rfl, ⟨length_lt_of_eq hkey, hseq⟩, hkey, by simp, rfl⟩
  | handshake | live =>
    exact accepts_readPayload _ fun g seq p hg hseq hpay =>
      ⟨rfl, ⟨length_lt_of_eq hg, hseq, hpay⟩, hg, by simp, rfl⟩
  | auth =>
    refine accepts_record ?_
    refine accepts_field (accepts_bytesOf 32) fun deviceKey hkey => ?_
    refine accepts_field (accepts_bytesOf 64) fun signature hsig => ?_
    exact .pure ⟨rfl, ⟨length_lt_of_eq hkey, length_lt_of_eq hsig⟩, ⟨hkey, hsig⟩, by simp, rfl⟩
  | authAck =>
    refine accepts_record ?_
    refine accepts_field accepts_u32 fun keyPackagesRemaining hrem => ?_
    refine accepts_field accepts_u8 fun writeMode hm => ?_
    refine accepts_field accepts_bytes fun buildDigest hdigest => ?_
    refine accepts_field accepts_u8 fun accessSet hset => ?_
    refine accepts_field accepts_u8 fun minEnc henc => ?_
    exact .pure ⟨rfl, ⟨hrem, hm, hdigest, hset, henc⟩, trivial, by simp, rfl⟩
  | recon =>
    refine accepts_record ?_
    refine accepts_field (accepts_bytesOf 32) fun g hg => ?_
    refine accepts_field accepts_bytes fun p hpay => ?_
    exact .pure ⟨rfl, ⟨length_lt_of_eq hg, hpay⟩, hg, by simp, rfl⟩
  | call =>
    refine accepts_record ?_
    refine accepts_field (accepts_bytesOf callIdBytes) fun callId hcall => ?_
    refine accepts_field (accepts_bytesOf 32) fun g hg => ?_
    refine accepts_field accepts_uint fun epoch hepoch => ?_
    refine accepts_field accepts_u8 fun kind hkind => ?_
    refine accepts_field accepts_bytes fun body hbody => ?_
    exact .pure ⟨rfl, ⟨length_lt_of_eq hcall, length_lt_of_eq hg, hepoch, hkind, hbody⟩,
      ⟨hcall, hg⟩,
      by simp, rfl⟩
  | media =>
    refine accepts_record ?_
    refine accepts_field (accepts_bytesOf callIdBytes) fun callId hcall => ?_
    refine accepts_field (accepts_bytesOf streamBytes) fun stream hstream => ?_
    refine accepts_field accepts_uint fun seq hseq => ?_
    refine accepts_field accepts_bytes fun ct hct => ?_
    exact .pure ⟨rfl, ⟨length_lt_of_eq hcall,
      length_lt_of_eq hstream, hseq, hct⟩, ⟨hcall, hstream⟩, by simp, rfl⟩

theorem accepts_readFrame (size : Nat) : Accepts (readFrame parse size) fun frame w => frame.Typed ∧
      frame.WellFormed parse ∧ (frame.tag = .wake → size ≤ maxWakeBytes) ∧ w = frame.encode := by
  refine accepts_record ?_
  refine accepts_field accepts_uint fun rawTag _ => ?_
  refine Accepts.require.bind ?_
  rintro tag _ ⟨htag, rfl⟩
  refine (accepts_readBody size tag).mono ?_
  rintro frame _ ⟨rfl, htyped, hformed, hwake, rfl⟩
  refine ⟨htyped, hformed, hwake, ?_⟩
  rw [← FrameTag.toU16_of_fromU16 htag]
  simp [Frame.encode, Cbor.array]

variable {frame : Frame}

/-- The bytes a frame was read from are its encoding, and the frame is well formed. -/
theorem Frame.encode_of_decode {data} (h : decode parse data = .ok frame) :
    frame.encode = data ∧ frame.Typed ∧ frame.WellFormed parse ∧
      frame.encode.length ≤ frame.sizeLimit := by
  obtain ⟨hlarge, h⟩ := guard_ok h
  obtain ⟨⟨got, rest⟩, hread, h⟩ := bind_ok h
  obtain ⟨⟨⟩, hfinish, h⟩ := bind_ok h
  cases h
  obtain ⟨w, hdata, htyped, hformed, hwake, rfl⟩ := accepts_readFrame data.length hread
  rw [finish_ok (mapError_ok hfinish), append_nil] at hdata
  refine ⟨hdata.symm, htyped, hformed, ?_⟩
  rw [← hdata]
  unfold sizeLimit
  split
  · exact hwake rfl
  · exact not_lt.mp hlarge

/-! ## Whole frames -/

theorem reads_readBody (hsize : size ≤ frame.sizeLimit) (htyped : frame.Typed)
    (hformed : frame.WellFormed parse) :
    Reads (readBody parse size frame.tag) frame.encodeBody frame := by
  cases frame with
  | connect ver groups sentAt => exact reads_readConnect htyped hformed.1 hformed.2
  | connectAck ver serverTime minEnc => exact reads_readConnectAck htyped hformed
  | authChallenge p | access p | wrap p | join p | invite p
  | push p | send p | blob p | drop p | bye p =>
    exact reads_readBytes _ htyped
  | sub key seq | subAck key seq | sendAck key seq => exact reads_readSeq _ hformed htyped.2
  | handshake g seq p | live g seq p =>
    exact reads_readPayload _ hformed htyped.2.1 htyped.2.2
  | keys body => exact reads_readKeys htyped hformed
  | wake body => exact reads_readWake hsize htyped hformed
  | error frameError => exact reads_readError htyped hformed
  | auth deviceKey signature =>
    exact reads_record [_, _] _ (reads_field (reads_bytesOf hformed.1)
        (reads_field (reads_bytesOf hformed.2) (.pure _)))
  | authAck keyPackagesRemaining writeMode buildDigest accessSet minEnc =>
    obtain ⟨hrem, hm, hdigest, hset, henc⟩ := htyped
    exact reads_record [_, _, _, _, _] _ (reads_field (reads_u32 hrem) (reads_field (reads_u8 hm)
          (reads_field (reads_bytes hdigest) (reads_field (reads_u8 hset)
              (reads_field (reads_u8 henc) (.pure _))))))
  | recon g p =>
    exact reads_record [_, _] _ (reads_field (reads_bytesOf hformed)
        (reads_field (reads_bytes htyped.2) (.pure _)))
  | call callId g epoch kind body =>
    obtain ⟨-, -, hepoch, hkind, hbody⟩ := htyped
    exact reads_record [_, _, _, _, _] _ (reads_field (reads_bytesOf hformed.1)
        (reads_field (reads_bytesOf hformed.2)
          (reads_field (reads_uint hepoch) (reads_field (reads_u8 hkind)
              (reads_field (reads_bytes hbody) (.pure _))))))
  | media callId stream seq ct =>
    obtain ⟨-, -, hseq, hct⟩ := htyped
    exact reads_record [_, _, _, _] _ (reads_field (reads_bytesOf hformed.1)
        (reads_field (reads_bytesOf hformed.2) (reads_field (reads_uint hseq)
            (reads_field (reads_bytes hct) (.pure _)))))

theorem encodeBody_ne_nil (frame : Frame) : frame.encodeBody ≠ [] := by
  cases frame <;> exact array_ne_nil _

theorem reads_readFrame (hsize : size ≤ frame.sizeLimit) (htyped : frame.Typed)
    (hformed : frame.WellFormed parse) : Reads (readFrame parse size) frame.encode frame := by
  have htag : frame.tag.toU16 < 2 ^ 64 := lt_trans frame.tag.toU16_lt (by decide)
  refine reads_record [_, _] _ ?_ (by simp) (by simp [encodeBody_ne_nil])
  refine reads_field (reads_uint htag) ?_
  refine (Reads.require (FrameTag.fromU16_toU16 _)).skip ?_
  rw [flatten_cons, flatten_nil, append_nil]
  exact reads_readBody hsize htyped hformed

theorem Frame.sizeLimit_le (frame : Frame) : frame.sizeLimit ≤ maxFrameBytes := by
  unfold sizeLimit
  split <;> decide

theorem Frame.decode_encode (htyped : frame.Typed) (hformed : frame.WellFormed parse)
    (hsize : frame.encode.length ≤ frame.sizeLimit) : decode parse frame.encode = .ok frame := by
  have hread := reads_readFrame hsize htyped hformed []
  rw [append_nil] at hread
  have hlimit := le_trans hsize frame.sizeLimit_le
  rw [decode, if_neg (not_lt.mpr hlimit), hread]
  rfl

/-- One encoding per message: what is accepted is the encoding of what was read, so no two
byte strings are read as one frame, and a well-formed frame is read back. -/
theorem frame_encoding_unique (parse : Bytes → Option ParsedUrl) :
    (∀ data frame, Frame.decode parse data = .ok frame → frame.encode = data) ∧
      (∀ data other frame, Frame.decode parse data = .ok frame →
        Frame.decode parse other = .ok frame → data = other) ∧
      ∀ frame : Frame, frame.Typed → frame.WellFormed parse →
        frame.encode.length ≤ frame.sizeLimit → Frame.decode parse frame.encode = .ok frame := by
  refine ⟨fun data frame h => (Frame.encode_of_decode h).1, ?_, ?_⟩
  · intro data other frame hdata ho
    rw [← (Frame.encode_of_decode hdata).1, (Frame.encode_of_decode ho).1]
  · intro frame htyped hformed hsize
    exact Frame.decode_encode htyped hformed hsize

/-- What the parser makes of the ringer's address. -/
def parseRinger (url : Bytes) : Option ParsedUrl :=
  if url = ascii "https://ringer" then
    some { scheme := ascii "https", hostStr := some (ascii "ringer") }
  else none

/-- A relay that names its ringer. -/
def ringer : Frame := .wake (.capability true ⟨ascii "https://ringer", by decide⟩)

theorem frame_encoding_unique_ringer : Frame.decode parseRinger ringer.encode = .ok ringer ∧
    ∀ data, Frame.decode parseRinger data = .ok ringer → data = ringer.encode := by
  obtain ⟨-, hunique, hback⟩ := frame_encoding_unique parseRinger
  have hread := hback ringer (by unfold ringer Frame.Typed WakeBody.Typed; decide)
    ⟨by decide, by decide⟩ (by decide)
  exact ⟨hread, fun data hdata => hunique data ringer.encode ringer hdata hread⟩

end Frames

end WealdRelay.Wire
