import WealdRelay.Cbor.Reader
import WealdRelay.Lib.Parser

/-!
# Deterministic CBOR, one encoding per value

What the readers of `cbor.rs` accept is what its writers put out and nothing else. Each
reader is taken as a parser, with the two rules of `Lib.Parser` for it: it reads what its
writer wrote, and the bytes it consumed are what its writer writes for the value it
returned. The second rests on `readHead_ok`: a head that was accepted is in its shortest
form, so it is the head of its own major type and argument.
-/

namespace WealdRelay.Cbor

open Lib Lib.Parser List

/-! ## Heads -/

theorem beBytes_beValue (data : Bytes) : beBytes data.length (beValue data) = data := by
  induction data using reverseRecOn with
  | nil => rfl
  | append_singleton data byte ih =>
    have hbyte := byte.isLt
    have hhigh : (beValue data * 256 + byte.val) / 256 = beValue data := by omega
    have hlow : Fin.ofNat 256 (beValue data * 256 + byte.val) = byte := by
      apply Fin.ext
      show (beValue data * 256 + byte.val) % 256 = byte.val
      omega
    rw [beValue_snoc, length_append, length_singleton, beBytes, hhigh, hlow, ih]

/-- A byte is the sum of its three high bits and its five low bits. -/
theorem initial_eq (initial : Byte) :
    Fin.ofNat 256 (initial.val / 32 * 32 + initial.val % 32) = initial := by
  have hlt := initial.isLt
  apply Fin.ext
  show (initial.val / 32 * 32 + initial.val % 32) % 256 = initial.val
  omega

namespace Reader

variable {major v : Nat}

/-- An argument that fills its width and did not fit a shorter one is written in it. -/
theorem head_wide {info} (hinfo : 24 ≤ info) (hlt : info < 28)
    (hlow : minimumOf (widthOf info) ≤ v) (hfits : v < 256 ^ widthOf info) :
    head major v = Fin.ofNat 256 (major * 32 + info) :: beBytes (widthOf info) v := by
  have hcases : info = 24 ∨ info = 25 ∨ info = 26 ∨ info = 27 := by omega
  unfold head
  rcases hcases with rfl | rfl | rfl | rfl
  · simp only [widthOf, minimumOf] at hlow hfits
    rw [if_neg (by omega), if_pos (by omega)]
    rfl
  · simp only [widthOf, minimumOf] at hlow hfits
    rw [if_neg (by omega), if_neg (by omega), if_pos (by omega)]
    rfl
  · simp only [widthOf, minimumOf] at hlow hfits
    rw [if_neg (by omega), if_neg (by omega), if_neg (by omega), if_pos (by omega)]
    rfl
  · simp only [widthOf, minimumOf] at hlow
    rw [if_neg (by omega), if_neg (by omega), if_neg (by omega), if_neg (by omega)]
    rfl

variable {data rest : Bytes}

/-- A head that was read is the head of what was read. -/
theorem readHead_ok (h : readHead data = .ok ((major, v), rest)) : data = head major v ++ rest := by
  cases data with
  | nil => cases h
  | cons initial data =>
    simp only [readHead] at h
    by_cases h24 : initial.val % 32 < 24
    · rw [if_pos h24] at h
      cases h
      rw [head, if_pos h24, initial_eq]
      rfl
    rw [if_neg h24] at h
    obtain ⟨h28, h⟩ := guard_ok h
    obtain ⟨hlong, h⟩ := guard_ok h
    obtain ⟨hlow, h⟩ := guard_ok h
    cases h
    have htaken : (data.take (widthOf (initial.val % 32))).length = widthOf (initial.val % 32) := by
      rw [length_take]
      omega
    have hfits := beValue_lt (data.take (widthOf (initial.val % 32)))
    have hback := beBytes_beValue (data.take (widthOf (initial.val % 32)))
    rw [htaken] at hfits hback
    rw [head_wide (by omega) (by omega) (not_lt.mp hlow) hfits, hback, initial_eq,
      cons_append, take_append_drop]

theorem argument_eq {expected item} (h : argument expected item data = .ok (v, rest)) :
    v < 2 ^ 64 ∧ data = head expected v ++ rest :=
  ⟨readHead_lt (argument_ok h), readHead_ok (argument_ok h)⟩

/-! ## Numbers -/

theorem accepts_uint : Accepts uint fun v w =>
    v < 2 ^ 64 ∧ w = Cbor.uint v := by
  intro data v rest h
  obtain ⟨hvalue, hdata⟩ := argument_eq h
  exact ⟨Cbor.uint v, hdata, hvalue, rfl⟩

/-- The narrow readers are `uint` with a ceiling. -/
theorem accepts_narrow (ceiling : Nat) : Accepts (fun data => do
        let (v, rest) ← uint data
        if ceiling < v then .error (.outOfRange v) else .ok (v, rest))
      fun v w => v ≤ ceiling ∧ w = Cbor.uint v := by
  intro data v rest h
  obtain ⟨⟨got, left⟩, hgot, h⟩ := bind_ok h
  obtain ⟨hsmall, h⟩ := guard_ok h
  cases h
  obtain ⟨w, hdata, -, rfl⟩ := accepts_uint hgot
  exact ⟨_, hdata, not_lt.mp hsmall, rfl⟩

theorem accepts_u8 : Accepts u8 fun v w => v ≤ 255 ∧ w = Cbor.uint v :=
  accepts_narrow 255

theorem accepts_u16 : Accepts u16 fun v w =>
    v ≤ 65535 ∧ w = Cbor.uint v :=
  accepts_narrow 65535

theorem accepts_u32 : Accepts u32 fun v w =>
    v ≤ 4294967295 ∧ w = Cbor.uint v :=
  accepts_narrow 4294967295

theorem reads_uint (h : v < 2 ^ 64) : Reads uint (Cbor.uint v) v :=
  uint_uint h

theorem reads_u8 (h : v ≤ 255) : Reads u8 (Cbor.uint v) v :=
  u8_uint (by omega)

theorem reads_u16 (h : v ≤ 65535) : Reads u16 (Cbor.uint v) v := by
  intro tail
  have hsmall : ¬ 65535 < v := by omega
  simp [u16, uint_uint (show v < 2 ^ 64 by omega), bind, Except.bind, hsmall]

theorem reads_u32 (h : v ≤ 4294967295) : Reads u32 (Cbor.uint v) v := by
  intro tail
  have hsmall : ¬ 4294967295 < v := by omega
  simp [u32, uint_uint (show v < 2 ^ 64 by omega), bind, Except.bind, hsmall]

/-! ## Strings -/

/-- A length that was met splits what follows its head into the string and the rest. -/
theorem head_take_drop (major : Nat) {length left} (h : ¬ left.length < length) :
    (left.take length).length = length ∧ head major length ++ left =
      head major (left.take length).length ++ left.take length ++ left.drop length := by
  have htaken : (left.take length).length = length := by
    rw [length_take]
    omega
  exact ⟨htaken, by rw [htaken, append_assoc, take_append_drop]⟩

theorem accepts_bytes : Accepts bytes fun v w =>
    v.length < 2 ^ 64 ∧ w = Cbor.bytes v := by
  intro data v rest h
  obtain ⟨⟨length, left⟩, hlen, h⟩ := bind_ok h
  obtain ⟨hlong, h⟩ := guard_ok h
  cases h
  obtain ⟨hlt, hdata⟩ := argument_eq hlen
  obtain ⟨htaken, hsplit⟩ := head_take_drop majorBytes hlong
  exact ⟨Cbor.bytes (left.take length), hdata.trans hsplit, htaken.symm ▸ hlt, rfl⟩

variable (n : Nat) (items : List Bytes)

theorem accepts_bytesOf : Accepts (bytesOf n) fun v w =>
    v.length = n ∧ w = Cbor.bytes v := by
  intro data v rest h
  obtain ⟨⟨got, left⟩, hgot, h⟩ := bind_ok h
  obtain ⟨hlen, h⟩ := guard_ok h
  cases h
  obtain ⟨w, hdata, -, rfl⟩ := accepts_bytes hgot
  exact ⟨_, hdata, not_not.mp hlen, rfl⟩

theorem accepts_text : Accepts text fun v w =>
    v.bytes.length < 2 ^ 64 ∧ w = Cbor.text v := by
  intro data v rest h
  obtain ⟨⟨length, left⟩, hlen, h⟩ := bind_ok h
  obtain ⟨hlong, h⟩ := guard_ok h
  obtain ⟨hlt, hdata⟩ := argument_eq hlen
  obtain ⟨htaken, hsplit⟩ := head_take_drop majorText hlong
  split at h
  · cases h
    exact ⟨_, hdata.trans hsplit, htaken.symm ▸ hlt, rfl⟩
  · cases h

theorem accepts_boolean : Accepts boolean fun v w => w = Cbor.boolean v := by
  intro data v rest h
  obtain ⟨⟨got, left⟩, hgot, h⟩ := bind_ok h
  obtain ⟨-, hdata⟩ := argument_eq hgot
  dsimp only at h
  split at h
  · cases h
    exact ⟨Cbor.boolean false, hdata, rfl⟩
  · cases h
    exact ⟨Cbor.boolean true, hdata, rfl⟩
  · cases h

theorem readHead_major {initial}
    (h : readHead (initial :: data) = .ok ((major, v), rest)) : initial.val / 32 = major := by
  simp only [readHead] at h
  split_ifs at h
  · cases h
    rfl
  · cases h
    rfl

theorem accepts_optionalBytes : Accepts optionalBytes fun v w =>
    w = Cbor.optionalBytes v := by
  intro data v rest h
  cases data with
  | nil => cases h
  | cons initial data =>
    simp only [optionalBytes] at h
    by_cases hmajor : initial.val / 32 = majorSimple
    · rw [if_neg (not_not.mpr hmajor)] at h
      obtain ⟨⟨⟨major, got⟩, left⟩, hread, h⟩ := bind_ok h
      obtain ⟨hgot, h⟩ := guard_ok h
      cases h
      have hvalue : got = 22 := not_not.mp hgot
      have hdata := readHead_ok hread
      rw [← readHead_major hread, hmajor, hvalue] at hdata
      exact ⟨Cbor.null, hdata, rfl⟩
    · rw [if_pos hmajor] at h
      cases hread : bytes (initial :: data) with
      | error e =>
        rw [hread] at h
        cases h
      | ok got =>
        rw [hread] at h
        cases h
        obtain ⟨w, hdata, -, rfl⟩ := accepts_bytes hread
        exact ⟨_, hdata, rfl⟩

theorem reads_bytes {v} (h : v.length < 2 ^ 64) : Reads bytes (Cbor.bytes v) v :=
  bytes_bytes h

theorem reads_bytesOf {n v} (h : v.length = n)
    (hn : n < 2 ^ 64 := by decide) : Reads (bytesOf n) (Cbor.bytes v) v :=
  bytesOf_bytes h hn

theorem reads_text {v} (h : v.bytes.length < 2 ^ 64) : Reads text (Cbor.text v) v := by
  intro tail
  rw [Cbor.text, append_assoc]
  simp [text, argument_head (show majorText < 8 by decide) h, bind, Except.bind, v.valid]

theorem reads_boolean (v : Bool) : Reads boolean (Cbor.boolean v) v := by
  intro tail
  cases v <;> rfl

theorem reads_null : Reads optionalBytes Cbor.null none := by
  intro tail
  rfl

/-! ## Arrays -/

theorem accepts_arrayHeader : Accepts arrayHeader fun n w =>
    n < 2 ^ 64 ∧ w = head majorArray n := by
  intro data n rest h
  obtain ⟨⟨got, left⟩, hgot, h⟩ := bind_ok h
  obtain ⟨-, h⟩ := guard_ok h
  cases h
  obtain ⟨hlt, hdata⟩ := argument_eq hgot
  exact ⟨_, hdata, hlt, rfl⟩

@[simp]
theorem array_ne_nil : Cbor.array items ≠ [] := by
  refine ne_nil_of_length_pos ?_
  have hhead := length_head_pos majorArray items.length
  rw [Cbor.array, length_append]
  omega

theorem accepts_array : Accepts (array n) fun _ w =>
    w = head majorArray n := by
  intro data v rest h
  obtain ⟨⟨got, left⟩, hgot, h⟩ := bind_ok h
  obtain ⟨hn, h⟩ := guard_ok h
  cases h
  obtain ⟨w, hdata, -, rfl⟩ := accepts_arrayHeader hgot
  exact ⟨_, hdata, by rw [not_not.mp hn]⟩

variable {ε α : Type}

section Fields

variable {β : Type} {Q : β → Bytes → Prop} {f : CborError → ε}

theorem accepts_record {p n} (h : Accepts p fun b rest => Q b (head majorArray n ++ rest)) :
    Accepts (do mapErr f (array n); p) Q := by
  refine ((accepts_array n).mapErr f).bind ?_
  rintro _ _ rfl
  exact h

theorem accepts_field {read} {valid : α → Prop} {write : α → Bytes} {k : α → Parser ε Byte β}
    (h : Accepts read fun a w => valid a ∧ w = write a)
    (hk : ∀ a, valid a → Accepts (k a) fun b rest => Q b (write a ++ rest)) :
    Accepts (mapErr f read >>= k) Q := by
  refine (h.mapErr f).bind ?_
  rintro a _ ⟨ha, rfl⟩
  exact hk a ha

theorem reads_field {read} {k : α → Parser ε Byte β} {a b first rest} (h : Reads read first a)
    (hk : Reads (k a) rest b) : Reads (mapErr f read >>= k) (first ++ rest) b :=
  (h.mapErr f).bind hk

end Fields

/-- A struct: the header of its field count, then its fields, each of a byte or more. -/
theorem reads_record {a : α} {p : Parser ε Byte α} (f : CborError → ε) (h : Reads p items.flatten a)
    (hn : items.length < 2 ^ 64 := by simp) (hitems : ∀ item ∈ items, item ≠ [] := by simp) :
    Reads (do mapErr f (array items.length); p) (Cbor.array items) a := by
  intro tail
  rw [bind_apply, mapErr, array_array items tail hn hitems]
  exact h tail

/-- A counted sequence: the header of its length, then its items, each of a byte or more. -/
theorem reads_counted {k : Nat → Parser ε Byte α} {items a} (f : CborError → ε)
    (hn : items.length < 2 ^ 64) (hitems : ∀ item ∈ items, item ≠ [])
    (h : Reads (k items.length) items.flatten a) :
    Reads (do let n ← mapErr f arrayHeader; k n) (Cbor.array items) a := by
  intro tail
  rw [bind_apply, mapErr, arrayHeader_array items tail hn hitems]
  exact h tail

theorem reads_list {p} {write : α → Bytes} {vs} (f : CborError → ε)
    (hn : vs.length < 2 ^ 64) (hne : ∀ a, write a ≠ []) (h : ∀ a ∈ vs, Reads p (write a) a) :
    Reads (do let n ← mapErr f arrayHeader; p.many n) (Cbor.array (vs.map write)) vs := by
  refine reads_counted f (by simpa using hn) (by simpa using fun a _ => hne a) ?_
  rw [length_map]
  exact .many h

theorem accepts_list {p} {write : α → Bytes} {valid : α → Prop}
    (f : CborError → ε) (h : Accepts p fun a w => valid a ∧ w = write a) :
    Accepts (do let n ← mapErr f arrayHeader; p.many n) fun vs w =>
      vs.length < 2 ^ 64 ∧ (∀ a ∈ vs, valid a) ∧ w = Cbor.array (vs.map write) := by
  refine (accepts_arrayHeader.mapErr f).bind ?_
  rintro n first ⟨hn, rfl⟩
  refine (Accepts.many h n).mono ?_
  rintro vs w ⟨rfl, hvalid, rfl⟩
  exact ⟨hn, hvalid, by rw [Cbor.array, length_map]⟩

theorem finish_ok (h : finish data = .ok ()) : data = [] := by
  by_contra hne
  rw [finish, if_neg hne] at h
  cases h

end Reader
end WealdRelay.Cbor
