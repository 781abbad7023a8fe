import WealdRelay.Cbor.Canonical
import WealdRelay.Negentropy.Reconcile

/-!
# The reconciliation payload

`Message::encode` and `Message::decode` of `negentropy/mod.rs`. Here a fingerprint is a
content address, 32 bytes on the wire.

`Message.WellFormed` is what the decoder asks of a cover: between one and `MAX_RANGES`
ranges, upper bounds that ascend strictly to `INFINITY`, and id lists that ascend strictly
and are not too long. What is decoded is well formed (`wellFormed_of_decode`), and a
well-formed message comes back from its bytes (`decode_encode`).
-/

namespace WealdRelay.Negentropy

open Lib Lib.Parser Cbor Cbor.Reader List

/-- `RECON_VERSION`. -/
def reconVersion : Nat := 1

/-- The 32 bytes of a content address. -/
def idBytes (id : Id) : Bytes := beBytes 32 id.val

/-- A content address from bytes; missing ones are zero, surplus ones are ignored. -/
def fixed (data : Bytes) : Id :=
  ⟨beValue ((data ++ List.replicate 32 0).take 32), by
    refine lt_of_lt_of_le (beValue_lt _) (Nat.pow_le_pow_right (by decide) ?_)
    simp⟩

/-- Why a payload was refused. -/
inductive ReconError where
  | cbor (error : CborError)
  | unsupportedVersion (version : Nat)
  | tooManyRanges (count : Nat)
  | tooManyIds (count : Nat)
  | unknownMode (tag : Nat)
  | unorderedRanges
  | incompleteCover
  | unorderedIds
  | empty
deriving DecidableEq

/-! ## The writer -/

def Mode.tag {F : Type} : Mode F → Nat
  | .skip => 0
  | .fingerprint _ => 1
  | .idList _ => 2

def Mode.payload : Mode Id → Bytes
  | .skip => Cbor.null
  | .fingerprint value => Cbor.bytes (idBytes value)
  | .idList ids => Cbor.array (ids.map fun id => Cbor.bytes (idBytes id))

def Range.encode (range : Range Id) : Bytes :=
  Cbor.array [Cbor.uint range.upper, Cbor.uint range.mode.tag, range.mode.payload]

def Message.encode (message : Message Id) : Bytes :=
  Cbor.array [Cbor.uint reconVersion, Cbor.array (message.ranges.map Range.encode)]

/-! ## The reader -/

abbrev ReconRead := Parser ReconError Byte

def field {α : Type} (read : Parser CborError Byte α) : ReconRead α := mapErr .cbor read

def readId : ReconRead Id := do
  return fixed (← field (bytesOf 32))

/-- The payload of a mode. A skip carries `null` and nothing else. -/
def readMode : Nat → ReconRead (Mode Id)
  | 0 => do
      let payload ← field Reader.optionalBytes
      refuse payload.isSome (.cbor (.typeMismatch .null))
      return .skip
  | 1 => do
      return .fingerprint (← readId)
  | 2 => do
      let count ← field arrayHeader
      refuse (maxIdsPerRange < count) (.tooManyIds count)
      return .idList (← readId.ascending (fun id => id) .unorderedIds none count)
  | other => throw (.unknownMode other)

/-- `decode_range`. -/
def readRange : ReconRead (Range Id) := do
  field (Reader.array 3)
  let upper ← field Reader.uint
  let tag ← field Reader.uint
  return ⟨upper, ← readMode tag⟩

def readMessage : ReconRead (Message Id) := do
  field (Reader.array 2)
  let version ← field Reader.uint
  refuse (version ≠ reconVersion) (.unsupportedVersion version)
  let count ← field arrayHeader
  refuse (count = 0) .empty
  refuse (maxRanges < count) (.tooManyRanges count)
  let ranges ← readRange.ascending Range.upper .unorderedRanges none count
  refuse (ranges.getLast?.map Range.upper ≠ some infinity) .incompleteCover
  return ⟨ranges⟩

def Message.decode (data : Bytes) : Except ReconError (Message Id) := do
  let (message, rest) ← readMessage data
  let () ← (Reader.finish rest).mapError .cbor
  .ok message

/-! ## Well-formed messages -/

/-- An id list that ascends strictly and is not too long. -/
def Mode.WellFormed {F : Type} : Mode F → Prop
  | .idList ids => ids.Pairwise (fun a b => a < b) ∧ ids.length ≤ maxIdsPerRange
  | _ => True

/-- A cover the decoder accepts. -/
structure Message.WellFormed {F : Type} (message : Message F) : Prop where
  nonempty : 1 ≤ message.ranges.length
  count : message.ranges.length ≤ maxRanges
  ascending : message.ranges.Pairwise (fun a b => a.upper < b.upper)
  complete : message.ranges.getLast?.map Range.upper = some infinity
  modes : ∀ range ∈ message.ranges, range.mode.WellFormed

variable {F : Type} (id : Id) {data : Bytes}

theorem Message.WellFormed.rises {msg : Message F} (h : msg.WellFormed) :
    Rises Range.upper msg.ranges infinity :=
  ⟨h.ascending, h.complete⟩

theorem Message.WellFormed.upper_lt {msg : Message F} (h : msg.WellFormed)
    {r : Range F} (hrange : r ∈ msg.ranges) : r.upper < 2 ^ 64 :=
  lt_of_le_of_lt (h.rises.le r hrange) (by decide)

/-! ## The encoding -/

theorem fixed_idBytes : fixed (idBytes id) = id := by
  apply Fin.ext
  have htake : (idBytes id ++ replicate 32 0).take 32 = idBytes id := by
    rw [take_append_of_le_length (by simp [idBytes]), take_of_length_le (by simp [idBytes])]
  have hlt : id.val < 256 ^ 32 := id.isLt
  simp only [fixed, htake]
  rw [idBytes, beValue_beBytes, Nat.mod_eq_of_lt hlt]

theorem idBytes_fixed (h : data.length = 32) : idBytes (fixed data) = data := by
  have htake : (data ++ replicate 32 0).take 32 = data := by
    rw [take_append_of_le_length (le_of_eq h.symm), take_of_length_le (le_of_eq h)]
  have hback := beBytes_beValue data
  rw [h] at hback
  simp only [idBytes, fixed, htake, hback]

theorem accepts_readId : Accepts readId fun id w =>
    True ∧ w = Cbor.bytes (idBytes id) := by
  refine .map (((accepts_bytesOf 32).mapErr _).mono ?_)
  rintro data _ ⟨hlen, rfl⟩
  rw [idBytes_fixed hlen]
  exact ⟨trivial, rfl⟩

theorem reads_readId : Reads readId (Cbor.bytes (idBytes id)) id := by
  have hlen : (idBytes id).length = 32 := by simp [idBytes]
  have hread := ((reads_bytesOf hlen (by decide)).mapErr ReconError.cbor).map (f := fixed)
  rwa [fixed_idBytes] at hread

theorem accepts_readMode (tag : Nat) : Accepts (readMode tag) fun mode w =>
    mode.tag = tag ∧ mode.WellFormed ∧ w = mode.payload := by
  unfold readMode
  split
  · refine (accepts_optionalBytes.mapErr _).bind ?_
    rintro payload _ rfl
    refine Accepts.refuse.bind ?_
    rintro _ _ ⟨hnone, rfl⟩
    cases payload with
    | none => exact .pure ⟨rfl, trivial, rfl⟩
    | some v => exact absurd rfl hnone
  · refine .map (accepts_readId.mono fun v w hvalue => ?_)
    exact ⟨rfl, trivial, hvalue.2⟩
  · refine accepts_field accepts_arrayHeader fun n _ => ?_
    refine Accepts.refuse.bind ?_
    rintro _ _ ⟨hn, rfl⟩
    refine (Accepts.ascending _ accepts_readId n none).bind fun ids w hids => ?_
    obtain ⟨hlen, -, hrise, -, hwritten⟩ := hids
    subst hlen
    refine .pure ⟨rfl, ⟨hrise, not_lt.mp hn⟩, ?_⟩
    rw [hwritten, Mode.payload, Cbor.array, length_map, append_nil, nil_append]
  · exact .throw

theorem accepts_readRange : Accepts readRange fun r w =>
    (r.upper < 2 ^ 64 ∧ r.mode.WellFormed) ∧ w = r.encode := by
  refine accepts_record ?_
  refine accepts_field accepts_uint fun hi hupper => ?_
  refine accepts_field accepts_uint fun tag _ => ?_
  refine .map ((accepts_readMode tag).mono ?_)
  rintro mode _ ⟨rfl, hm, rfl⟩
  exact ⟨⟨hupper, hm⟩, by simp [Range.encode, Cbor.array]⟩

theorem accepts_readMessage : Accepts readMessage fun msg w =>
    msg.WellFormed ∧ w = msg.encode := by
  refine accepts_record ?_
  refine accepts_field accepts_uint fun ver _ => ?_
  refine Accepts.refuse.bind ?_
  rintro _ _ ⟨hver, rfl⟩
  refine accepts_field accepts_arrayHeader fun n _ => ?_
  refine Accepts.refuse.bind ?_
  rintro _ _ ⟨hempty, rfl⟩
  refine Accepts.refuse.bind ?_
  rintro _ _ ⟨hn, rfl⟩
  refine (Accepts.ascending _ accepts_readRange n none).bind ?_
  rintro ranges _ ⟨rfl, -, hrise, hran, rfl⟩
  refine Accepts.refuse.bind ?_
  rintro _ _ ⟨hlast, rfl⟩
  refine .pure ⟨⟨Nat.pos_of_ne_zero hempty, not_lt.mp hn, hrise,
    not_not.mp hlast, fun r hrange => (hran r hrange).2⟩, ?_⟩
  rw [not_not.mp hver]
  simp [Message.encode, Cbor.array]

variable {message : Message Id}

/-- A payload that was accepted is the encoding of a well-formed message. -/
theorem wellFormed_of_decode (h : Message.decode data = .ok message) :
    message.WellFormed ∧ message.encode = data := by
  obtain ⟨⟨got, rest⟩, hread, h⟩ := bind_ok h
  obtain ⟨⟨⟩, hfinish, h⟩ := bind_ok h
  cases h
  obtain ⟨w, hdata, hformed, rfl⟩ := accepts_readMessage hread
  rw [finish_ok (mapError_ok hfinish), append_nil] at hdata
  exact ⟨hformed, hdata.symm⟩

theorem Mode.tag_lt (mode : Mode F) : mode.tag < 2 ^ 64 := by
  cases mode <;> simp [tag]

theorem Mode.payload_ne_nil (mode : Mode Id) : mode.payload ≠ [] := by
  cases mode with
  | skip => exact cons_ne_nil _ _
  | fingerprint v => exact bytes_ne_nil _
  | idList ids => exact array_ne_nil _

theorem reads_readMode {mode : Mode Id} (h : mode.WellFormed) :
    Reads (readMode mode.tag) mode.payload mode := by
  cases mode with
  | skip => exact (reads_null.mapErr _).bind ((Reads.refuse (by simp)).skip (Reads.pure _))
  | fingerprint v => exact (reads_readId v).map
  | idList ids =>
    obtain ⟨hrise, hlen⟩ := h
    have hbound : maxIdsPerRange < 2 ^ 64 := by decide
    refine reads_counted _ (by simpa using lt_of_le_of_lt hlen hbound)
      (by simp) ?_
    rw [length_map]
    refine (Reads.refuse (not_lt.mpr hlen)).skip ?_
    exact (Reads.ascending _ (fun id _ => reads_readId id) (by simp) hrise).map

theorem Range.encode_ne_nil (r : Range Id) : r.encode ≠ [] := array_ne_nil _

theorem reads_readRange {r : Range Id} (hupper : r.upper < 2 ^ 64)
    (hm : r.mode.WellFormed) : Reads readRange r.encode r := by
  refine reads_record [_, _, _] _ ?_ (by simp) (by simp [Mode.payload_ne_nil])
  refine reads_field (reads_uint hupper) ?_
  refine reads_field (reads_uint r.mode.tag_lt) ?_
  rw [flatten_cons, flatten_nil, append_nil]
  exact (reads_readMode hm).map

theorem reads_readMessage (h : message.WellFormed) : Reads readMessage message.encode message := by
  have hread : ∀ r ∈ message.ranges, Reads readRange r.encode r :=
    fun r hrange => reads_readRange (h.upper_lt hrange) (h.modes r hrange)
  have hbound : maxRanges < 2 ^ 64 := by decide
  refine reads_record [_, _] _ ?_
  refine reads_field (reads_uint (by decide)) ?_
  refine (Reads.refuse (not_not.mpr rfl)).skip ?_
  rw [flatten_cons, flatten_nil, append_nil]
  refine reads_counted _ (by simpa using lt_of_le_of_lt h.count hbound)
    (by simpa using fun r _ => Range.encode_ne_nil r) ?_
  rw [length_map]
  refine (Reads.refuse (Nat.ne_of_gt h.nonempty)).skip ?_
  refine (Reads.refuse (not_lt.mpr h.count)).skip ?_
  rw [← append_nil (List.flatten _)]
  refine (Reads.ascending _ hread (by simp) h.ascending).bind ?_
  exact (Reads.refuse (not_not.mpr h.complete)).skip (Reads.pure _)

theorem Message.decode_encode (h : message.WellFormed) : decode message.encode = .ok message := by
  have hread := reads_readMessage h []
  rw [append_nil] at hread
  rw [decode, hread]
  rfl

/-- What the decoder accepts is the one encoding of a message within the protocol's bounds,
and the spans of that message partition the sequence numbers, in order. -/
theorem decoded_is_exact (h : Message.decode data = .ok message) :
    message.encode = data ∧ message.WellFormed ∧
      message.spans.Pairwise (fun a b => a.2.upper ≤ b.1) ∧
      ∀ seq < infinity, ∃ span ∈ message.spans, span.1 ≤ seq ∧ seq < span.2.upper := by
  obtain ⟨hformed, hencode⟩ := wellFormed_of_decode h
  refine ⟨hencode, hformed, pairwise_spans hformed.ascending 0, fun seq hseq => ?_⟩
  exact exists_span_of_lt hformed.complete (Nat.zero_le seq) hseq

/-- The item at a sequence number of a log whose content addresses count up. -/
def denseItem (seq : Nat) : Item := ⟨seq, ⟨seq % idCount, Nat.mod_lt _ (by decide)⟩⟩

/-- An id the relay does not hold. -/
def absent : Id := ⟨32768, by decide⟩

/-- A message with every mode: the first span is settled, the second has a fingerprint, and in
the last one the client names an id the relay does not hold. -/
def mixedMessage : Message Id :=
  ⟨[⟨10, .skip⟩, ⟨20, .fingerprint (fixed [1])⟩, ⟨infinity, .idList [absent]⟩]⟩

theorem decode_mixedMessage : Message.decode mixedMessage.encode = .ok mixedMessage :=
  Message.decode_encode ⟨by decide, by decide, by decide, rfl, by
    simp [mixedMessage, Mode.WellFormed, maxIdsPerRange]⟩

theorem mixedMessage_is_exact : mixedMessage.WellFormed ∧
    mixedMessage.spans.Pairwise (fun a b => a.2.upper ≤ b.1) ∧
    ∃ span ∈ mixedMessage.spans, span.1 ≤ 15 ∧ 15 < span.2.upper := by
  obtain ⟨-, hformed, hordered, hcovered⟩ := decoded_is_exact decode_mixedMessage
  exact ⟨hformed, hordered, hcovered 15 (by decide)⟩

end WealdRelay.Negentropy
