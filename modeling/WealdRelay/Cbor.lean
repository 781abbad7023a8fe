import Mathlib.Data.List.Lex
import Mathlib.Order.Fin.Basic

/-!
# Deterministic CBOR, the writers

The encoder half of `cbor.rs`: unsigned integers in shortest form,
definite-length byte strings, text strings and arrays, the two booleans and `null`. A
struct is an array of its fields in declaration order.

A byte is a `Fin 256`, so the order on byte strings is the lexicographic order
`Vec<u8>` compares by.
-/

namespace WealdRelay

/-- One byte. -/
abbrev Byte := Fin 256

/-- A byte string; `<` and `≤` are lexicographic. -/
abbrev Bytes := List Byte

instance byteNeZero : @NeZero Nat Zero.ofOfNat0 256 := ⟨Nat.succ_ne_zero 255⟩

instance bytesLawfulBEq : LawfulBEq Bytes := inferInstance

/-- Inside a UTF-8 string: how many continuation bytes are due, and the range of the
next one. -/
structure Utf8State where
  due : Nat
  low : Nat
  high : Nat

/-- One byte of a UTF-8 string. The ranges of the first continuation byte exclude the
overlong forms, the surrogates and everything above U+10FFFF. -/
def Utf8State.step (state : Utf8State) (byte : Nat) : Option Utf8State :=
  if state.due = 0 then
    if byte < 0x80 then some ⟨0, 0x80, 0xBF⟩
    else if 0xC2 ≤ byte ∧ byte ≤ 0xDF then some ⟨1, 0x80, 0xBF⟩
    else if byte = 0xE0 then some ⟨2, 0xA0, 0xBF⟩
    else if byte = 0xED then some ⟨2, 0x80, 0x9F⟩
    else if 0xE1 ≤ byte ∧ byte ≤ 0xEF then some ⟨2, 0x80, 0xBF⟩
    else if byte = 0xF0 then some ⟨3, 0x90, 0xBF⟩
    else if byte = 0xF4 then some ⟨3, 0x80, 0x8F⟩
    else if 0xF1 ≤ byte ∧ byte ≤ 0xF3 then some ⟨3, 0x80, 0xBF⟩
    else none
  else if state.low ≤ byte ∧ byte ≤ state.high then some ⟨state.due - 1, 0x80, 0xBF⟩
  else none

/-- Whether the bytes from here on end the string between characters. -/
def Utf8State.accepts (state : Utf8State) : Bytes → Bool
  | [] => state.due = 0
  | byte :: rest =>
    match state.step byte.val with
    | none => false
    | some next => next.accepts rest

/-- Whether bytes are UTF-8, as `str::from_utf8` decides it. -/
def validUtf8 (data : Bytes) : Bool := (⟨0, 0x80, 0xBF⟩ : Utf8State).accepts data

/-- A Rust `String`: its bytes, which are UTF-8. -/
structure Text where
  bytes : Bytes
  valid : validUtf8 bytes = true
deriving DecidableEq

/-- Sixteen equal bytes: a sample token, nonce or call id. -/
def id16 (byte : Byte) : Bytes := List.replicate 16 byte

/-- Thirty-two equal bytes: a sample workspace, group, hash or key. -/
def id32 (byte : Byte) : Bytes := List.replicate 32 byte

/-- The text of a literal made of ASCII characters, as bytes. -/
def ascii (text : String) : Bytes := text.toList.map fun c => Fin.ofNat 256 c.toNat

namespace Cbor

def majorUint : Nat := 0

def majorBytes : Nat := 2

def majorText : Nat := 3

def majorArray : Nat := 4

/-- `null`: major 7, value 22. -/
def null : Bytes := [246]

/-- The `width` low bytes of a number, most significant first (`to_be_bytes`). -/
def beBytes : Nat → Nat → Bytes
  | 0, _ => []
  | width + 1, value => beBytes width (value / 256) ++ [Fin.ofNat 256 value]

/-- A major type and an argument, in the shortest form that holds it. -/
def head (major value : Nat) : Bytes :=
  -- The tag stands in the high three bits, so `tag | n` adds for `n < 32`.
  let tag := major * 32
  if value < 24 then [Fin.ofNat 256 (tag + value)]
  else if value ≤ 255 then [Fin.ofNat 256 (tag + 24), Fin.ofNat 256 value]
  else if value ≤ 65535 then Fin.ofNat 256 (tag + 25) :: beBytes 2 value
  else if value ≤ 4294967295 then Fin.ofNat 256 (tag + 26) :: beBytes 4 value
  else Fin.ofNat 256 (tag + 27) :: beBytes 8 value

def uint (value : Nat) : Bytes := head majorUint value

def bytes (value : Bytes) : Bytes := head majorBytes value.length ++ value

/-- `false` and `true`: major 7, values 20 and 21. -/
def boolean (value : Bool) : Bytes := if value then [245] else [244]

def text (value : Text) : Bytes := head majorText value.bytes.length ++ value.bytes

def array (items : List Bytes) : Bytes :=
  head majorArray items.length ++ items.flatten

/-- A byte string, or `null` when absent. -/
def optionalBytes : Option Bytes → Bytes
  | some value => bytes value
  | none => null

end Cbor
end WealdRelay
