import WealdRelay.Cbor.Reader

/-!
# The CBOR of the agent payloads

`agent_cbor.rs` of `weald-mls` writes and reads the same subset as `cbor.rs` does, in code of
its own. Its reader holds the whole message and an offset: a read answers the value and the
offset after it.
-/

namespace WealdRelay.Cbor.Agent

open List hiding head

/-! ## The writers -/

/-- One head in shortest form. -/
def head (major value : Nat) : Bytes :=
  let tag := major <<< 5
  if value < 24 then [Fin.ofNat 256 (tag ||| value)]
  else if value ≤ 255 then [Fin.ofNat 256 (tag ||| 24), Fin.ofNat 256 value]
  else if value ≤ 65535 then Fin.ofNat 256 (tag ||| 25) :: beBytes 2 value
  else if value ≤ 4294967295 then Fin.ofNat 256 (tag ||| 26) :: beBytes 4 value
  else Fin.ofNat 256 (tag ||| 27) :: beBytes 8 value

def uint (value : Nat) : Bytes := head 0 value

def bytes (value : Bytes) : Bytes := head 2 value.length ++ value

def text (value : Text) : Bytes := head 3 value.bytes.length ++ value.bytes

def array (items : List Bytes) : Bytes := head 4 items.length ++ items.flatten

/-! ## The reader -/

/-- Why a decode refused. -/
inductive AgentError where
  | truncated
  | nonCanonicalInteger
  | unsupportedMajor (major : Nat)
  | reservedAdditionalInfo (info : Nat)
  | unsupportedSimple (value : Nat)
  | typeMismatch (expected : String)
  | mapKeysNotAscending (previous next : Nat)
  | unknownKey (key : Nat)
  | tooDeep
deriving DecidableEq

/-- The least argument a head of this width may carry. -/
def minimum : Nat → Nat
  | 1 => 24
  | 2 => 256
  | 4 => 65536
  | _ => 4294967296

/-- One head: major type, argument, and the offset after it. -/
def readHead (data : Bytes) (offset : Nat) : Except AgentError (Nat × Nat × Nat) :=
  match data[offset]? with
  | none => .error .truncated
  | some initial =>
    let major := initial.val >>> 5
    let info := initial.val &&& 31
    if info < 24 then .ok (major, info, offset + 1)
    else if 28 ≤ info then .error (.reservedAdditionalInfo info)
    else
      let width := 1 <<< (info - 24)
      if data.length ≤ offset + width then .error .truncated
      else
        -- Eight bytes at most, so no shift loses one.
        let value := ((data.drop (offset + 1)).take width).foldl
          (fun value byte => value <<< 8 ||| byte.val) 0
        if value < minimum width then .error .nonCanonicalInteger
        else .ok (major, value, offset + 1 + width)

/-- A head of this major type that announces no more than the bytes that are left. -/
def counted (major : Nat) (name : String) (data : Bytes) (offset : Nat) :
    Except AgentError (Nat × Nat) := do
  let (found, argument, next) ← readHead data offset
  if found ≠ major then .error (.typeMismatch name)
  else if data.length - next < argument then .error .truncated
  else .ok (argument, next)

def readUint (data : Bytes) (offset : Nat) : Except AgentError (Nat × Nat) := do
  let (major, value, next) ← readHead data offset
  if major ≠ 0 then .error (.typeMismatch "unsigned integer") else .ok (value, next)

def readBytes (data : Bytes) (offset : Nat) : Except AgentError (Bytes × Nat) := do
  let (length, start) ← counted 2 "byte string" data offset
  .ok ((data.drop start).take length, start + length)

def arrayCount : Bytes → Nat → Except AgentError (Nat × Nat) := counted 4 "array"

/-- Both refuse, or both answer one value and stop at one place. -/
def Agree {α : Type} (data : Bytes) :
    Except AgentError (α × Nat) → Except CborError (α × Bytes) → Prop
  | .error _, .error _ => True
  | .ok (value, next), .ok (other, rest) =>
    value = other ∧ rest = data.drop next ∧ next ≤ data.length
  | _, _ => False

theorem head_eq (major value : Nat) : head major value = Cbor.head major value := by
  have htag : ∀ low < 32, major <<< 5 ||| low = major * 32 + low := by
    intro low hlow
    rw [← Nat.shiftLeft_add_eq_or_of_lt hlow, Nat.shiftLeft_eq]
  rw [head, Cbor.head]
  split
  next h => rw [htag value (by omega)]
  · simp only [htag _ (by decide : 24 < 32), htag _ (by decide : 25 < 32),
      htag _ (by decide : 26 < 32), htag _ (by decide : 27 < 32)]

variable (data : Bytes) (offset : Nat)

theorem foldl_eq_beValue :
    data.foldl (fun value byte => value <<< 8 ||| byte.val) 0 = beValue data := by
  have hpush : (fun (value : Nat) (byte : Byte) => value <<< 8 ||| byte.val) =
      fun value byte => value * 256 + byte.val := by
    funext value byte
    rw [← Nat.shiftLeft_add_eq_or_of_lt byte.isLt, Nat.shiftLeft_eq]
  rw [hpush, beValue]

theorem width_eq {info : Nat} (hlow : 24 ≤ info) (hhigh : info < 28) :
    1 <<< (info - 24) = Reader.widthOf info ∧
      minimum (Reader.widthOf info) = Reader.minimumOf (Reader.widthOf info) := by
  obtain rfl | rfl | rfl | rfl : info = 24 ∨ info = 25 ∨ info = 26 ∨ info = 27 := by omega
  all_goals exact ⟨rfl, rfl⟩

/-- The relay's reader on what is left refuses the head too, or reads the same one. -/
theorem readHead_cases : (∃ error refusal, readHead data offset = .error error ∧
      Reader.readHead (data.drop offset) = .error refusal) ∨
    ∃ major value next, readHead data offset = .ok (major, value, next) ∧
      Reader.readHead (data.drop offset) = .ok ((major, value), data.drop next) ∧
        next ≤ data.length := by
  rw [readHead]
  cases hget : data[offset]? with
  | none =>
    rw [drop_eq_nil_of_le (getElem?_eq_none_iff.mp hget)]
    exact .inl ⟨_, _, rfl, rfl⟩
  | some initial =>
    obtain ⟨hlt, rfl⟩ := List.getElem?_eq_some_iff.mp hget
    have hinfo : data[offset].val &&& 31 = data[offset].val % 32 :=
      Nat.and_two_pow_sub_one_eq_mod _ 5
    have hmajor : data[offset].val >>> 5 = data[offset].val / 32 := Nat.shiftRight_eq_div_pow _ 5
    rw [drop_eq_getElem_cons hlt]
    simp only [Reader.readHead, hinfo, hmajor, foldl_eq_beValue, length_drop]
    by_cases hsmall : data[offset].val % 32 < 24
    · simp only [if_pos hsmall]
      exact .inr ⟨_, _, _, rfl, rfl, hlt⟩
    by_cases hreserved : 28 ≤ data[offset].val % 32
    · simp only [if_neg hsmall, if_pos hreserved]
      exact .inl ⟨_, _, rfl, rfl⟩
    obtain ⟨hwidth, hminimum⟩ := width_eq (not_lt.mp hsmall) (not_le.mp hreserved)
    simp only [if_neg hsmall, if_neg hreserved, hwidth, hminimum]
    have hshort : data.length ≤ offset + Reader.widthOf (data[offset].val % 32) ↔
        data.length - (offset + 1) < Reader.widthOf (data[offset].val % 32) := by omega
    simp only [← hshort, drop_drop]
    split_ifs
    · exact .inl ⟨_, _, rfl, rfl⟩
    · exact .inl ⟨_, _, rfl, rfl⟩
    · exact .inr ⟨_, _, _, rfl, rfl, by omega⟩

theorem agree_uint : Agree data (readUint data offset) (Reader.uint (data.drop offset)) := by
  rw [readUint, Reader.uint, Reader.argument]
  rcases readHead_cases data offset with
    ⟨_, _, hagent, hrelay⟩ | ⟨major, value, next, hagent, hrelay, hle⟩
  · rw [hagent, hrelay]
    trivial
  · rw [hagent, hrelay]
    by_cases hmajor : major = 0
    · subst hmajor
      exact ⟨rfl, rfl, hle⟩
    · simp only [bind, Except.bind, majorUint, ne_eq, hmajor]
      trivial

/-- After a head whose count the bytes that are left allow, the two reads go on alike. -/
theorem agree_counted {α : Type} (major : Nat) (name : String) (item : Item)
    (agent : Nat × Nat → α × Nat) (relay : Nat × Bytes → α × Bytes)
    (h : ∀ n next, next + n ≤ data.length →
      Agree data (.ok (agent (n, next))) (.ok (relay (n, data.drop next)))) :
    Agree data ((counted major name data offset).bind fun (n, next) => .ok (agent (n, next)))
      ((Reader.argument major item (data.drop offset)).bind fun (n, rest) =>
        if rest.length < n then .error .truncated else .ok (relay (n, rest))) := by
  rw [counted, Reader.argument]
  rcases readHead_cases data offset with
    ⟨_, _, hagent, hrelay⟩ | ⟨found, n, next, hagent, hrelay, hle⟩
  · rw [hagent, hrelay]
    trivial
  · rw [hagent, hrelay]
    simp only [bind, Except.bind]
    by_cases hmajor : found = major
    · by_cases hshort : data.length - next < n
      · simp only [hmajor, ne_eq, not_true_eq_false, if_false, length_drop, hshort, if_true]
        trivial
      · simp only [hmajor, ne_eq, not_true_eq_false, if_false, length_drop, hshort]
        exact h n next (by omega)
    · simp only [hmajor, ne_eq, not_false_eq_true, if_true]
      trivial

theorem agree_bytes : Agree data (readBytes data offset) (Reader.bytes (data.drop offset)) :=
  agree_counted data offset 2 "byte string" .byteString
    (fun (length, start) => ((data.drop start).take length, start + length))
    (fun (n, rest) => (rest.take n, rest.drop n)) fun _ _ hle => ⟨rfl, drop_drop, hle⟩

theorem agree_arrayCount :
    Agree data (arrayCount data offset) (Reader.arrayHeader (data.drop offset)) := by
  have hcounted := agree_counted data offset 4 "array" .array id id fun _ _ hle =>
    ⟨rfl, rfl, Nat.le_of_add_right_le hle⟩
  rw [arrayCount]
  cases hread : counted 4 "array" data offset <;> rwa [hread] at hcounted

/-- The two codecs are one language: their writers write the same bytes, and on every message
and at every offset their readers refuse together, or accept one value and stop at one place. -/
theorem codecs_agree :
    (∀ value, uint value = Cbor.uint value) ∧ (∀ value, bytes value = Cbor.bytes value) ∧
    (∀ value, text value = Cbor.text value) ∧ (∀ items, array items = Cbor.array items) ∧
    ∀ data offset, Agree data (readUint data offset) (Reader.uint (data.drop offset)) ∧
      Agree data (readBytes data offset) (Reader.bytes (data.drop offset)) ∧
      Agree data (arrayCount data offset) (Reader.arrayHeader (data.drop offset)) := by
  refine ⟨head_eq 0, ?_, ?_, ?_, ?_⟩
  · exact fun value => congrArg (· ++ value) (head_eq 2 value.length)
  · exact fun value => congrArg (· ++ value.bytes) (head_eq 3 value.bytes.length)
  · exact fun items => congrArg (· ++ items.flatten) (head_eq 4 items.length)
  · exact fun data offset => ⟨agree_uint data offset, agree_bytes data offset,
      agree_arrayCount data offset⟩

end WealdRelay.Cbor.Agent
