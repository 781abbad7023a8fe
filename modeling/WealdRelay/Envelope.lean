import WealdRelay.Access.Set
import WealdRelay.Cbor.Reader

/-!
# The envelope

`envelope/mod.rs`: the eight-field envelope, its content address, its encoding and
every check the relay makes on the bytes alone.

`Envelope.Fits` says which values the fields of the Rust struct can hold. An envelope
that was decoded fits (`fits_of_decode`), and one that fits survives the encoding
(`decode_encode`).
-/

namespace WealdRelay

open Lib Cbor

/-- The protocol version this build accepts. -/
def envelopeVersion : Nat := 1

def groupBytes : Nat := 32

def envelopeHashBytes : Nat := 32

/-- The `ct` ceiling, one mebibyte. -/
def maxCiphertextBytes : Nat := 1048576

/-- How the body is protected. -/
inductive Encryption where
  | none
  | mls
deriving DecidableEq

namespace Encryption

/-- The discriminant, `enc as u64`. -/
def toNat : Encryption → Nat
  | .none => 0
  | .mls => 1

def fromU8 : Nat → Option Encryption
  | 0 => some .none
  | 1 => some .mls
  | _ => Option.none

variable (enc : Encryption)

@[simp] theorem fromU8_toNat : fromU8 enc.toNat = some enc := by
  cases enc <;> rfl

theorem toNat_lt : enc.toNat < 2 := by
  cases enc <;> decide

end Encryption

/-- The encryption floor an operator sets. -/
inductive MinEncryption where
  | none
  | mls
deriving DecidableEq

/-- The only unit the relay stores. `seq` and `ts` are the relay's to assign. -/
structure Envelope where
  v : Nat
  enc : Encryption
  group : Bytes
  epoch : Nat
  seq : Nat
  ts : Nat
  hash : Bytes
  ct : Bytes
deriving DecidableEq

/-- Why an envelope was refused. -/
inductive EnvelopeError where
  | cbor (error : CborError)
  | unsupportedVersion (v : Nat)
  | unknownEncryption (raw : Nat)
  | plaintextRefused
  | hashMismatch
  | ciphertextTooLarge (length : Nat)
deriving DecidableEq

/-- BLAKE3 over version, encryption, group, epoch and ciphertext, in that order. -/
def contentHash (c : Access.Crypto) (v : Nat) (enc : Encryption) (group : Bytes)
    (epoch : Nat) (ct : Bytes) : Bytes :=
  c.blake3 (uint v ++ uint enc.toNat ++ bytes group ++ uint epoch ++
    bytes ct)

namespace Envelope

/-- The fields in the order of the wire format. -/
def fields (e : Envelope) : List Bytes :=
  [uint e.v, uint e.enc.toNat, bytes e.group, uint e.epoch,
    uint e.seq, uint e.ts, bytes e.hash, bytes e.ct]

def encode (e : Envelope) : Bytes := array e.fields

/-- A CBOR refusal, as an envelope refusal. -/
def liftCbor {α : Type} : Except CborError α → Except EnvelopeError α :=
  Except.mapError .cbor

/-- `from_u8`, with the refusal an unknown value gets. -/
def encryptionOf (raw : Nat) : Except EnvelopeError Encryption :=
  match Encryption.fromU8 raw with
  | some enc => .ok enc
  | none => .error (.unknownEncryption raw)

/-- Decode without validating. -/
def decode (data : Bytes) : Except EnvelopeError Envelope := do
  let ((), data) ← liftCbor (Reader.array 8 data)
  let (v, data) ← liftCbor (Reader.u8 data)
  let (rawEnc, data) ← liftCbor (Reader.u8 data)
  let enc ← encryptionOf rawEnc
  let (group, data) ← liftCbor (Reader.bytesOf groupBytes data)
  let (epoch, data) ← liftCbor (Reader.uint data)
  let (seq, data) ← liftCbor (Reader.uint data)
  let (ts, data) ← liftCbor (Reader.uint data)
  let (hash, data) ← liftCbor (Reader.bytesOf envelopeHashBytes data)
  let (ct, data) ← liftCbor (Reader.bytes data)
  let () ← liftCbor (Reader.finish data)
  .ok { v, enc, group, epoch, seq, ts, hash, ct }

/-- The address the envelope's own fields imply, whatever `hash` says. -/
def computedHash (c : Access.Crypto) (e : Envelope) : Bytes :=
  contentHash c e.v e.enc e.group e.epoch e.ct

/-- Every check that does not need database state. -/
def validate (c : Access.Crypto) (floor : MinEncryption) (e : Envelope) :
    Except EnvelopeError Unit :=
  if e.v ≠ envelopeVersion then .error (.unsupportedVersion e.v)
  else if floor = .mls ∧ e.enc = .none then .error .plaintextRefused
  else if maxCiphertextBytes < e.ct.length then .error (.ciphertextTooLarge e.ct.length)
  else if e.computedHash c ≠ e.hash then .error .hashMismatch
  else .ok ()

/-- The values the fields can hold: one byte, 64 bits, two fixed widths, and a
ciphertext whose length is a 64-bit number. -/
structure Fits (e : Envelope) : Prop where
  v : e.v < 256
  group : e.group.length = groupBytes
  epoch : e.epoch < 2 ^ 64
  seq : e.seq < 2 ^ 64
  ts : e.ts < 2 ^ 64
  hash : e.hash.length = envelopeHashBytes
  ct : e.ct.length < 2 ^ 64

/-! ## The encoding -/

theorem liftCbor_ok {α : Type} {x : Except CborError α} {a : α}
    (h : liftCbor x = .ok a) : x = .ok a :=
  mapError_ok h

theorem fields_ne_nil (e : Envelope) : ∀ field ∈ e.fields, field ≠ [] := by
  simp [fields, Reader.uint_ne_nil, Reader.bytes_ne_nil]

variable {e : Envelope}

theorem decode_encode (h : e.Fits) : decode e.encode = .ok e := by
  have harray : Reader.array 8 e.encode = .ok ((), e.fields.flatten) := by
    have hn : e.fields.length = 8 := rfl
    have hread := Reader.array_array e.fields [] (by simp [hn]) e.fields_ne_nil
    rwa [List.append_nil, List.append_nil, hn] at hread
  have henc : e.enc.toNat < 256 := lt_trans e.enc.toNat_lt (by decide)
  have hct := Reader.bytes_bytes h.ct []
  rw [List.append_nil] at hct
  rw [decode, harray]
  simp only [fields, List.flatten_cons, List.flatten_nil, List.append_nil, liftCbor,
    Except.mapError, bind, Except.bind, Reader.u8_uint h.v, Reader.u8_uint henc,
    encryptionOf, Encryption.fromU8_toNat, Reader.bytesOf_bytes h.group (by decide),
    Reader.uint_uint h.epoch, Reader.uint_uint h.seq, Reader.uint_uint h.ts,
    Reader.bytesOf_bytes h.hash (by decide), hct, Reader.finish, if_true]

/-- What was decoded fits, its ciphertext apart, which is as long as it is. -/
theorem fits_of_decode {data : Bytes} (h : decode data = .ok e) (hct : e.ct.length < 2 ^ 64) :
    e.Fits := by
  unfold decode at h
  obtain ⟨⟨⟨⟩, _⟩, -, h⟩ := bind_ok h
  obtain ⟨⟨v, _⟩, hv, h⟩ := bind_ok h
  obtain ⟨⟨rawEnc, _⟩, -, h⟩ := bind_ok h
  obtain ⟨enc, -, h⟩ := bind_ok h
  obtain ⟨⟨g, _⟩, hg, h⟩ := bind_ok h
  obtain ⟨⟨epoch, _⟩, hepoch, h⟩ := bind_ok h
  obtain ⟨⟨seq, _⟩, hseq, h⟩ := bind_ok h
  obtain ⟨⟨ts, _⟩, hts, h⟩ := bind_ok h
  obtain ⟨⟨hash, _⟩, hh, h⟩ := bind_ok h
  obtain ⟨⟨ct, _⟩, -, h⟩ := bind_ok h
  obtain ⟨-, -, h⟩ := bind_ok h
  cases h
  exact
    { v := Reader.u8_lt (liftCbor_ok hv)
      group := Reader.bytesOf_length (liftCbor_ok hg)
      epoch := Reader.uint_lt (liftCbor_ok hepoch)
      seq := Reader.uint_lt (liftCbor_ok hseq)
      ts := Reader.uint_lt (liftCbor_ok hts)
      hash := Reader.bytesOf_length (liftCbor_ok hh)
      ct := hct }

theorem validate_ok {c floor} (h : e.validate c floor = .ok ()) :
    e.v = envelopeVersion ∧ e.ct.length ≤ maxCiphertextBytes ∧ e.computedHash c = e.hash := by
  obtain ⟨hv, h⟩ := guard_ok h
  obtain ⟨-, h⟩ := guard_ok h
  obtain ⟨hct, h⟩ := guard_ok h
  obtain ⟨hh, -⟩ := guard_ok h
  exact ⟨not_not.mp hv, not_lt.mp hct, not_not.mp hh⟩

end Envelope
end WealdRelay
