import WealdRelay.Cbor

/-!
# The names a listing comes back with

`hex_bytes` of `media/mod.rs` walks an object's name two bytes at a time and reads each piece
with `u8::from_str_radix`. A piece is sliced by byte offsets, and a slice that ends inside a
character panics; `none` stands for the panic.
-/

namespace WealdRelay.Media.Names

open List

/-- The character of a digit, in lower case. -/
def hexDigit (digit : Fin 16) : Byte :=
  ⟨if digit.val < 10 then 48 + digit.val else 87 + digit.val, by split <;> omega⟩

/-- `hex`. -/
def hex (bytes : Bytes) : Bytes :=
  bytes.flatMap (fun byte =>
    [hexDigit (Fin.ofNat 16 (byte.val / 16)), hexDigit (Fin.ofNat 16 byte.val)])

/-- `char::to_digit` in base 16, which takes either case. -/
def toDigit (byte : Byte) : Option (Fin 16) :=
  if 48 ≤ byte.val ∧ byte.val ≤ 57 then some (Fin.ofNat 16 (byte.val - 48))
  else if 97 ≤ byte.val ∧ byte.val ≤ 102 then some (Fin.ofNat 16 (byte.val - 87))
  else if 65 ≤ byte.val ∧ byte.val ≤ 70 then some (Fin.ofNat 16 (byte.val - 55))
  else none

/-- Two digits as a byte. -/
def ofDigits (high low : Fin 16) : Byte := ⟨high.val * 16 + low.val, by omega⟩

/-- `u8::from_str_radix` of two characters: a plus sign may stand before the digits. -/
def fromStrRadix (high low : Byte) : Option Byte :=
  if high.val = 43 then (toDigit low).map (ofDigits 0)
  else (toDigit high).bind (fun digit => (toDigit low).map (ofDigits digit))

/-- `is_char_boundary` where the rest begins: no continuation byte stands there. -/
def boundary : Bytes → Bool
  | [] => true
  | byte :: _ => byte.val < 128 ∨ 192 ≤ byte.val

/-- The pieces of a name of even length. Each slice begins where the one before it ended. -/
def pieces : Bytes → Option (Except Unit Bytes)
  | high :: low :: rest =>
    if boundary rest then
      match fromStrRadix high low with
      | none => some (.error ())
      | some byte => (pieces rest).map (fun read => read.map (byte :: ·))
    else none
  | _ => some (.ok [])

def hexBytes (name : Bytes) : Option (Except Unit Bytes) :=
  if name.length % 2 = 0 then pieces name else some (.error ())

/-- `MAX_LIST`. -/
def maxList : Nat := 4096

/-- The entries of a listing, from the names that are left. -/
def entries (charged : Bytes → Option Int) : List Bytes → Option (List (Bytes × Nat))
  | [] => some []
  | name :: names =>
    match hexBytes name with
    | none => none
    | some (.error _) => entries charged names
    | some (.ok hash) =>
      let len := (((charged hash).filter (fun bytes => 0 < bytes)).getD 0).toNat
      (entries charged names).map ((hash, len) :: ·)

/-- `handle_list` after the storage and the charged lengths were read. -/
def handleList (charged : Bytes → Option Int) (names : List Bytes) : Option (List (Bytes × Nat)) :=
  entries charged (names.take maxList)

/-- Lower-case hex digits only. -/
def Lower (name : Bytes) : Prop := ∀ byte ∈ name, ∃ digit, hexDigit digit = byte

/-- A piece of the name is no number in base 16, and neither it nor a piece before it ends
inside a character. -/
inductive Refused : Bytes → Prop
  | here {high low rest} (hcut : boundary rest) (h : fromStrRadix high low = none) :
    Refused (high :: low :: rest)
  | later {high low rest} (hcut : boundary rest) (h : Refused rest) : Refused (high :: low :: rest)

/-- The names `hexBytes` is the inverse of `hex` on. -/
def Sound (name : Bytes) : Prop := name.length % 2 = 1 ∨ Lower name ∨ Refused name

variable {name : Bytes}

theorem toDigit_hexDigit (digit : Fin 16) : toDigit (hexDigit digit) = some digit := by
  revert digit
  decide

theorem hexDigit_mem (digit : Fin 16) : 48 ≤ (hexDigit digit).val ∧ (hexDigit digit).val < 128 := by
  rw [hexDigit]
  dsimp only
  split <;> omega

theorem fromStrRadix_hexDigit (high low : Fin 16) :
    fromStrRadix (hexDigit high) (hexDigit low) = some (ofDigits high low) := by
  have hdigit := hexDigit_mem high
  have hsign : (hexDigit high).val ≠ 43 := by omega
  rw [fromStrRadix, if_neg hsign, toDigit_hexDigit, toDigit_hexDigit]
  rfl

theorem hex_cons (high low : Fin 16) (bytes : Bytes) :
    hex (ofDigits high low :: bytes) = hexDigit high :: hexDigit low :: hex bytes := by
  have hhigh : Fin.ofNat 16 ((ofDigits high low).val / 16) = high := by
    ext
    simp only [ofDigits, Fin.ofNat]
    omega
  have hlow : Fin.ofNat 16 (ofDigits high low).val = low := by
    ext
    simp only [ofDigits, Fin.ofNat]
    omega
  rw [hex, flatMap_cons, hhigh, hlow]
  rfl

theorem lower_hex (bytes : Bytes) : Lower (hex bytes) := by
  intro byte hbyte
  obtain ⟨b, -, hb⟩ := mem_flatMap.mp hbyte
  simp only [mem_cons, not_mem_nil, or_false] at hb
  rcases hb with rfl | rfl
  · exact ⟨_, rfl⟩
  · exact ⟨_, rfl⟩

theorem pieces_of_refused (h : Refused name) : pieces name = some (.error ()) := by
  induction h with
  | here hcut h =>
    rw [pieces, if_pos hcut, h]
  | @later high low rest hcut h ih =>
    rw [pieces, if_pos hcut]
    cases fromStrRadix high low with
    | none => rfl
    | some byte =>
      simp only [ih, Option.map_some]
      rfl

theorem refused_of_pieces (h : pieces name = some (.error ())) : Refused name := by
  induction name using pieces.induct with
  | case1 high low rest hcut hnone =>
    exact .here hcut hnone
  | case2 high low rest hcut byte hbyte ih =>
    simp only [pieces, if_pos hcut, hbyte, Option.map_eq_some_iff] at h
    obtain ⟨read, hread, herror⟩ := h
    refine .later hcut (ih ?_)
    cases read with
    | error => exact hread
    | ok bytes => cases herror
  | case3 high low rest hcut =>
    rw [pieces, if_neg hcut] at h
    cases h
  | case4 name hname =>
    rw [pieces] at h
    · cases h
    · exact hname

theorem boundary_of_lower (h : Lower name) : boundary name = true := by
  cases name with
  | nil => rfl
  | cons byte rest =>
    obtain ⟨digit, rfl⟩ := h byte mem_cons_self
    simp [boundary, (hexDigit_mem digit).2]

theorem pieces_of_lower : ∀ {name : Bytes}, name.length % 2 = 0 → Lower name →
    ∃ bytes, pieces name = some (.ok bytes) ∧ hex bytes = name
  | [], _, _ => ⟨[], rfl, rfl⟩
  | [_], heven, _ => by simp at heven
  | high :: low :: rest, heven, h => by
    obtain ⟨highDigit, rfl⟩ := h high (by simp)
    obtain ⟨lowDigit, rfl⟩ := h low (by simp)
    have hrest : Lower rest := fun byte hbyte => h byte (by simp [hbyte])
    have hrestEven := (Nat.add_mod_right rest.length 2).symm.trans heven
    obtain ⟨bytes, hbytes, hhex⟩ := pieces_of_lower hrestEven hrest
    refine ⟨ofDigits highDigit lowDigit :: bytes, ?_, ?_⟩
    · rw [pieces, if_pos (boundary_of_lower hrest), fromStrRadix_hexDigit, hbytes]
      rfl
    · rw [hex_cons, hhex]

/-- No panic, and bytes only for the name `hex` would write for them. -/
def Inverse (name : Bytes) : Prop :=
  hexBytes name ≠ none ∧ ∀ bytes, hexBytes name = some (.ok bytes) → hex bytes = name

theorem inverse_of_sound (h : Sound name) : Inverse name := by
  rcases Nat.mod_two_eq_zero_or_one name.length with heven | hodd
  · rw [Inverse, hexBytes, if_pos heven]
    rcases h with hodd | hlower | hrefused
    · omega
    · obtain ⟨bytes, hbytes, hhex⟩ := pieces_of_lower heven hlower
      simp [hbytes, hhex]
    · simp [pieces_of_refused hrefused]
  · simp [Inverse, hexBytes, hodd]

theorem sound_of_inverse (h : Inverse name) : Sound name := by
  rcases Nat.mod_two_eq_zero_or_one name.length with heven | hodd
  · refine .inr ?_
    rw [Inverse, hexBytes, if_pos heven] at h
    cases hread : pieces name with
    | none => exact absurd hread h.1
    | some read =>
      cases read with
      | error => exact .inr (refused_of_pieces hread)
      | ok bytes => exact .inl (h.2 bytes hread ▸ lower_hex bytes)
  · exact .inl hodd

/-- A listing of such names has entries, each of an object whose name is the one written. -/
theorem entries_named (charged : Bytes → Option Int) {names : List Bytes}
    (h : ∀ name ∈ names, Sound name) :
    ∃ listed, entries charged names = some listed ∧ ∀ entry ∈ listed, hex entry.1 ∈ names := by
  induction names with
  | nil => exact ⟨[], rfl, by simp⟩
  | cons name names ih =>
    obtain ⟨hread, hexact⟩ := inverse_of_sound (h name mem_cons_self)
    obtain ⟨listed, hlisted, hnamed⟩ := ih (fun other hother => h other (mem_cons_of_mem _ hother))
    rw [entries]
    cases hname : hexBytes name with
    | none => exact absurd hname hread
    | some read =>
      cases read with
      | error =>
        exact ⟨listed, hlisted, fun entry hentry => mem_cons_of_mem _ (hnamed entry hentry)⟩
      | ok hash =>
        simp only [hlisted, Option.map_some, Option.some.injEq, exists_eq_left', forall_mem_cons]
        refine ⟨?_, fun entry hentry => mem_cons_of_mem _ (hnamed entry hentry)⟩
        rw [hexact hash hname]
        exact mem_cons_self

/-- A name is read without a panic, and only as the bytes it is written for, exactly if its
length is odd, it is lower-case hex, or a piece of it is refused in time; and a listing of
such names reports only objects under the names they were written under. -/
theorem hexBytes_inverse_iff (charged : Bytes → Option Int) : (∀ name, Inverse name ↔ Sound name) ∧
    ∀ names : List Bytes, (∀ name ∈ names, Sound name) →
      ∃ listed, handleList charged names = some listed ∧ ∀ entry ∈ listed, hex entry.1 ∈ names := by
  refine ⟨fun name => ⟨sound_of_inverse, inverse_of_sound⟩, fun names h => ?_⟩
  obtain ⟨listed, hlisted, hnamed⟩ :=
    entries_named charged (fun name hname => h name (mem_of_mem_take hname))
  exact ⟨listed, hlisted, fun entry hentry => mem_of_mem_take (hnamed entry hentry)⟩

/-- A two-byte character between two letters: the first piece ends inside it. -/
def accented : Text := ⟨[97, 195, 169, 98], by decide⟩

/-- A name with a character of two bytes panics; a sign or a capital is read, and the name it
would be written under is another. -/
theorem hexBytes_panics_or_differs : hexBytes accented.bytes = none ∧
      (hexBytes (ascii "+f") = some (.ok [15]) ∧ hex [15] = ascii "0f") ∧
        hexBytes (ascii "AB") = some (.ok [171]) ∧ hex [171] = ascii "ab" := by
  decide

end WealdRelay.Media.Names
