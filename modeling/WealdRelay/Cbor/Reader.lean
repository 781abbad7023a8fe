import Mathlib.Data.List.Induction
import Mathlib.Tactic.Ring
import WealdRelay.Cbor
import WealdRelay.Lib.Except

/-!
# Deterministic CBOR, the reader

The decoder half of `cbor.rs`. A reader is a function of the bytes that are left: it
fails, or it returns a value and what is left after it. A failed read returns no bytes, so
where the cursor stands then is not in the model.

Every writer is undone by its reader, whatever bytes follow (`readHead_head`,
`uint_uint`, `bytes_bytes`, `arrayHeader_array`), and a number that was read fits 64 bits
(`uint_lt`).
-/

namespace WealdRelay.Cbor

open Lib List

/-- What a reader expected when it met another carried type. -/
inductive Item where
  | unsignedInteger
  | byteString
  | boolean
  | textString
  | null
  | array
deriving DecidableEq

/-- Why a decode refused. -/
inductive CborError where
  | truncated
  | unsupportedMajor (major : Nat)
  | nonCanonicalInteger
  | reservedAdditionalInfo (info : Nat)
  | unsupportedSimple (value : Nat)
  | typeMismatch (expected : Item)
  | wrongLength (expected got : Nat)
  | wrongArrayCount (expected got : Nat)
  | outOfRange (value : Nat)
  | trailingBytes (count : Nat)
  | invalidUtf8
deriving DecidableEq

def majorSimple : Nat := 7

/-- The number a run of bytes spells, most significant first. -/
def beValue (data : Bytes) : Nat :=
  data.foldl (fun value byte => value * 256 + byte.val) 0

namespace Reader

/-- How many bytes of argument follow an initial byte with this additional info. -/
def widthOf (info : Nat) : Nat :=
  match info with
  | 24 => 1
  | 25 => 2
  | 26 => 4
  | _ => 8

/-- The least argument that did not fit a shorter form. -/
def minimumOf (width : Nat) : Nat :=
  match width with
  | 1 => 24
  | 2 => 256
  | 4 => 65536
  | _ => 4294967296

/-- One head: its major type and its argument, canonicity enforced. -/
def readHead : Bytes → Except CborError ((Nat × Nat) × Bytes)
  | [] => .error .truncated
  | initial :: rest =>
    let major := initial.val / 32
    let info := initial.val % 32
    if info < 24 then .ok ((major, info), rest)
    else if 28 ≤ info then .error (.reservedAdditionalInfo info)
    else
      let width := widthOf info
      if rest.length < width then .error .truncated
      else
        let value := beValue (rest.take width)
        if value < minimumOf width then .error .nonCanonicalInteger
        else .ok ((major, value), rest.drop width)

/-- A carried major in the wrong place, or one the wire format does not carry. -/
def mismatch (major : Nat) (expected : Item) : CborError :=
  if major = majorUint ∨ major = majorBytes ∨ major = majorArray ∨ major = majorSimple then
    .typeMismatch expected
  else .unsupportedMajor major

/-- The argument of a head that must have this major type. -/
def argument (expected : Nat) (item : Item) (data : Bytes) : Except CborError (Nat × Bytes) := do
  let ((major, argument), rest) ← readHead data
  if major ≠ expected then .error (mismatch major item) else .ok (argument, rest)

def uint (data : Bytes) : Except CborError (Nat × Bytes) :=
  argument majorUint .unsignedInteger data

def u8 (data : Bytes) : Except CborError (Nat × Bytes) := do
  let (value, rest) ← uint data
  if 255 < value then .error (.outOfRange value) else .ok (value, rest)

def u16 (data : Bytes) : Except CborError (Nat × Bytes) := do
  let (value, rest) ← uint data
  if 65535 < value then .error (.outOfRange value) else .ok (value, rest)

def u32 (data : Bytes) : Except CborError (Nat × Bytes) := do
  let (value, rest) ← uint data
  if 4294967295 < value then .error (.outOfRange value) else .ok (value, rest)

def bytes (data : Bytes) : Except CborError (Bytes × Bytes) := do
  let (length, rest) ← argument majorBytes .byteString data
  if rest.length < length then .error .truncated
  else .ok (rest.take length, rest.drop length)

/-- A byte string of an exact width. -/
def bytesOf (count : Nat) (data : Bytes) : Except CborError (Bytes × Bytes) := do
  let (value, rest) ← bytes data
  if value.length ≠ count then .error (.wrongLength count value.length) else .ok (value, rest)

/-- One boolean; the argument of another simple value is named, cut to a byte. -/
def boolean (data : Bytes) : Except CborError (Bool × Bytes) := do
  let (value, rest) ← argument majorSimple .boolean data
  match value with
  | 20 => .ok (false, rest)
  | 21 => .ok (true, rest)
  | other => .error (.unsupportedSimple (min other 255))

/-- One text string, UTF-8 checked. -/
def text (data : Bytes) : Except CborError (Text × Bytes) := do
  let (length, rest) ← argument majorText .textString data
  if rest.length < length then .error .truncated
  else if valid : validUtf8 (rest.take length) = true then
    .ok (⟨rest.take length, valid⟩, rest.drop length)
  else .error .invalidUtf8

/-- A byte string, or `null` for absence. -/
def optionalBytes (data : Bytes) : Except CborError (Option Bytes × Bytes) :=
  match data with
  | [] => .error .truncated
  | initial :: _ =>
    if initial.val / 32 ≠ majorSimple then (bytes data).map fun (value, rest) => (some value, rest)
    else do
      let ((_, value), rest) ← readHead data
      if value ≠ 22 then .error (.unsupportedSimple (min value 255)) else .ok (none, rest)

/-- An array header of any length. -/
def arrayHeader (data : Bytes) : Except CborError (Nat × Bytes) := do
  let (count, rest) ← argument majorArray .array data
  if rest.length < count then .error .truncated else .ok (count, rest)

/-- An array header of an exact item count. -/
def array (count : Nat) (data : Bytes) : Except CborError (Unit × Bytes) := do
  let (got, rest) ← arrayHeader data
  if got ≠ count then .error (.wrongArrayCount count got) else .ok ((), rest)

/-- Refuse anything left over. -/
def finish (data : Bytes) : Except CborError Unit :=
  if data = [] then .ok () else .error (.trailingBytes data.length)

end Reader

/-! ## Big-endian numbers -/

variable (data : Bytes) (width v : Nat)

theorem beValue_snoc (byte : Byte) : beValue (data ++ [byte]) = beValue data * 256 + byte.val := by
  simp [beValue]

@[simp] theorem length_beBytes : (beBytes width v).length = width := by
  induction width generalizing v with
  | zero => rfl
  | succ width ih => simp [beBytes, ih]

theorem beValue_beBytes : beValue (beBytes width v) = v % 256 ^ width := by
  induction width generalizing v with
  | zero => simp [beBytes, beValue, Nat.mod_one]
  | succ width ih =>
    have hlow : (Fin.ofNat 256 v).val = v % 256 := rfl
    rw [beBytes, beValue_snoc, ih, hlow, pow_succ', Nat.mod_mul]
    ring

theorem beValue_lt : beValue data < 256 ^ data.length := by
  induction data using reverseRecOn with
  | nil => simp [beValue]
  | append_singleton data byte ih =>
    have hbyte := byte.isLt
    rw [beValue_snoc, length_append, length_singleton, pow_succ]
    omega

namespace Reader

/-! ## Reading what was written -/

variable {major v : Nat} (info : Nat) {n : Nat} (items : List Bytes) {item : Item}
  (tail : Bytes)

theorem initial_parts (hmajor : major < 8) (hinfo : info < 32) :
    (Fin.ofNat 256 (major * 32 + info)).val / 32 = major ∧
      (Fin.ofNat 256 (major * 32 + info)).val % 32 = info := by
  have hinitial : (Fin.ofNat 256 (major * 32 + info)).val = major * 32 + info := by
    show (major * 32 + info) % 256 = _
    omega
  omega

/-- The forms with following bytes are one form at three widths. -/
theorem readHead_wide {tail : Bytes} (hmajor : major < 8) (hinfo : 24 ≤ info) (hlt : info < 28)
    (hlow : minimumOf (widthOf info) ≤ v) (hfits : v < 256 ^ widthOf info) :
    readHead (Fin.ofNat 256 (major * 32 + info) :: (beBytes (widthOf info) v ++ tail)) =
      .ok ((major, v), tail) := by
  obtain ⟨hdiv, hmod⟩ := initial_parts info hmajor (by omega)
  have hvalue : beValue (beBytes (widthOf info) v) = v := by
    rw [beValue_beBytes, Nat.mod_eq_of_lt hfits]
  have hlong : ¬ (beBytes (widthOf info) v ++ tail).length < widthOf info := by
    simp
  have htake : (beBytes (widthOf info) v ++ tail).take (widthOf info) =
      beBytes (widthOf info) v := by
    rw [take_append_of_le_length (by simp), take_of_length_le (by simp)]
  have hdrop : (beBytes (widthOf info) v ++ tail).drop (widthOf info) = tail := by
    rw [drop_append_of_le_length (by simp), drop_of_length_le (by simp), nil_append]
  simp only [readHead, hdiv, hmod, if_neg (not_lt.mpr hinfo), if_neg (not_le.mpr hlt),
    if_neg hlong, htake, hdrop, hvalue, if_neg (not_lt.mpr hlow)]

theorem readHead_head (hmajor : major < 8) (hvalue : v < 2 ^ 64) (tail : Bytes) :
    readHead (head major v ++ tail) = .ok ((major, v), tail) := by
  unfold head
  split_ifs with h24 h8 h16 h32
  · obtain ⟨hdiv, hmod⟩ := initial_parts v hmajor (by omega)
    simp only [singleton_append, readHead, hdiv, hmod, if_pos h24]
  · exact readHead_wide 24 hmajor (by decide) (by decide)
      (by simpa [widthOf, minimumOf] using h24) (by simp [widthOf]; omega)
  · exact readHead_wide 25 hmajor (by decide) (by decide)
      (by simp [widthOf, minimumOf]; omega) (by simp [widthOf]; omega)
  · exact readHead_wide 26 hmajor (by decide) (by decide)
      (by simp [widthOf, minimumOf]; omega) (by simp [widthOf]; omega)
  · exact readHead_wide 27 hmajor (by decide) (by decide)
      (by simp [widthOf, minimumOf]; omega) (by simpa [widthOf] using hvalue)

theorem argument_head (hmajor : major < 8) (hvalue : v < 2 ^ 64) (tail : Bytes) :
    argument major item (head major v ++ tail) = .ok (v, tail) := by
  simp [argument, readHead_head hmajor hvalue, bind, Except.bind]

theorem uint_uint (hvalue : v < 2 ^ 64) (tail : Bytes) :
    uint (Cbor.uint v ++ tail) = .ok (v, tail) :=
  argument_head (by decide) hvalue tail

theorem u8_uint (hvalue : v < 256) (tail : Bytes) : u8 (Cbor.uint v ++ tail) = .ok (v, tail) := by
  have hsmall : ¬ 255 < v := by omega
  simp [u8, uint_uint (show v < 2 ^ 64 by omega), bind, Except.bind, hsmall]

theorem bytes_bytes {v : Bytes} (hlen : v.length < 2 ^ 64) (tail : Bytes) :
    bytes (Cbor.bytes v ++ tail) = .ok (v, tail) := by
  rw [Cbor.bytes, append_assoc]
  simp [bytes, argument_head (show majorBytes < 8 by decide) hlen, bind, Except.bind]

theorem bytesOf_bytes {v : Bytes} (hlen : v.length = n) (hn : n < 2 ^ 64)
    (tail : Bytes) : bytesOf n (Cbor.bytes v ++ tail) = .ok (v, tail) := by
  simp [bytesOf, bytes_bytes (hlen ▸ hn), bind, Except.bind, hlen]

theorem length_head_pos (major v : Nat) : 0 < (head major v).length := by
  unfold head
  split_ifs <;> simp

@[simp]
theorem uint_ne_nil (v : Nat) : Cbor.uint v ≠ [] :=
  ne_nil_of_length_pos (length_head_pos _ _)

@[simp]
theorem bytes_ne_nil (v : Bytes) : Cbor.bytes v ≠ [] := by
  refine ne_nil_of_length_pos ?_
  have hhead := length_head_pos majorBytes v.length
  rw [Cbor.bytes, length_append]
  omega

theorem length_le_flatten {items : List Bytes} (h : ∀ item ∈ items, item ≠ []) :
    items.length ≤ items.flatten.length := by
  induction items with
  | nil => simp
  | cons item items ih =>
    have hi := length_pos_of_ne_nil (h item mem_cons_self)
    have hr := ih (fun x ho => h x (mem_cons_of_mem _ ho))
    simp only [length_cons, flatten_cons, length_append]
    omega

/-- An array's header reads back, provided every item holds a byte. -/
theorem arrayHeader_array (hn : items.length < 2 ^ 64) (hitems : ∀ item ∈ items, item ≠ []) :
    arrayHeader (Cbor.array items ++ tail) = .ok (items.length, items.flatten ++ tail) := by
  have hle := length_le_flatten hitems
  have hlong : ¬ (items.flatten ++ tail).length < items.length := by
    rw [length_append]
    omega
  rw [Cbor.array, append_assoc]
  simp only [arrayHeader, argument_head (show majorArray < 8 by decide) hn, bind,
    Except.bind, if_neg hlong]

theorem array_array (hn : items.length < 2 ^ 64) (hitems : ∀ item ∈ items, item ≠ []) :
    array items.length (Cbor.array items ++ tail) = .ok ((), items.flatten ++ tail) := by
  simp only [array, arrayHeader_array items tail hn hitems, bind, Except.bind, ne_eq,
    not_true_eq_false, if_false]

/-! ## What a read value can be -/

theorem widthOf_le : widthOf info ≤ 8 := by
  unfold widthOf
  split <;> decide

variable {data rest : Bytes}

theorem readHead_lt (h : readHead data = .ok ((major, v), rest)) : v < 2 ^ 64 := by
  cases data with
  | nil => cases h
  | cons initial data =>
    simp only [readHead] at h
    split_ifs at h with h24
    · obtain ⟨⟨-, rfl⟩, -⟩ := by simpa using h
      omega
    · obtain ⟨⟨-, rfl⟩, -⟩ := by simpa using h
      have hbound := beValue_lt (data.take (widthOf (initial.val % 32)))
      have hwidth : (data.take (widthOf (initial.val % 32))).length ≤ 8 := by
        rw [length_take]
        exact le_trans (Nat.min_le_left _ _) (widthOf_le _)
      exact lt_of_lt_of_le hbound (Nat.pow_le_pow_right (by decide) hwidth)

theorem argument_ok {expected : Nat} (h : argument expected item data = .ok (v, rest)) :
    readHead data = .ok ((expected, v), rest) := by
  obtain ⟨⟨⟨major, got⟩, left⟩, hhead, h⟩ := bind_ok h
  obtain ⟨hmajor, h⟩ := guard_ok h
  cases h
  rw [hhead, not_not.mp hmajor]

theorem uint_lt (h : uint data = .ok (v, rest)) : v < 2 ^ 64 :=
  readHead_lt (argument_ok h)

theorem u8_lt (h : u8 data = .ok (v, rest)) : v < 256 := by
  obtain ⟨⟨got, left⟩, -, h⟩ := bind_ok h
  obtain ⟨hsmall, h⟩ := guard_ok h
  cases h
  omega

theorem bytesOf_length {v : Bytes} (h : bytesOf n data = .ok (v, rest)) : v.length = n := by
  obtain ⟨⟨got, left⟩, -, h⟩ := bind_ok h
  obtain ⟨hlen, h⟩ := guard_ok h
  cases h
  exact not_not.mp hlen

end Reader
end WealdRelay.Cbor
