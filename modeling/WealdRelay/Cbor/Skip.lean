import WealdRelay.Cbor.Agent
import WealdRelay.Cbor.Canonical

/-!
# Skipping an item

`skip_item_bounded` and `schema_map` of `agent_cbor.rs`, as parsers of the bytes that are left.
An item is walked by its structure, one level of nesting for each recursion, and a declared
count is only the bound of a loop that ends where the bytes do.
-/

namespace WealdRelay.Cbor.Agent

open Lib Lib.Parser
open List hiding head

abbrev Skip := Parser AgentError Byte

/-- A read at the cursor. -/
def cursor {α : Type} (read : Bytes → Nat → Except AgentError (α × Nat)) : Skip α := fun left =>
  (read left 0).map fun (value, next) => (value, left.drop next)

/-- The head at the cursor. -/
def headAt : Skip (Nat × Nat) := cursor fun left offset => do
  let (major, argument, next) ← readHead left offset
  .ok ((major, argument), next)

/-- `MAX_SKIP_DEPTH`. -/
def maxSkipDepth : Nat := 32

/-- The same walk a number of times. -/
def times (walk : Skip Unit) : Nat → Skip Unit
  | 0 => pure ()
  | count + 1 => do
    walk
    times walk count

/-- The bytes of a string. -/
def pass (length : Nat) : Skip Unit := fun left =>
  if left.length < length then .error .truncated else .ok ((), left.drop length)

/-- `skip_item_bounded`, by the levels it may still go down. -/
def skipLevels : Nat → Skip Unit
  | 0 => throw .tooDeep
  | levels + 1 => do
    let (major, argument) ← headAt
    match major with
    | 0 => pure ()
    | 2 | 3 => pass argument
    | 4 => times (skipLevels levels) argument
    | 5 => times (do skipLevels levels; skipLevels levels) argument
    | 7 => refuse (argument ≠ 22) (.unsupportedSimple argument)
    | other => throw (.unsupportedMajor other)

def skipItem : Skip Unit := skipLevels (maxSkipDepth + 1)

def rawValue : Skip Bytes := fun left => do
  let (_, rest) ← skipItem left
  .ok (left.take (left.length - rest.length), rest)

/-- The loop of `schema_map`. -/
def slots (schema : List Nat) : Option Nat → Nat → Skip (List (Nat × Bytes))
  | _, 0 => pure []
  | previous, count + 1 => do
    let key ← cursor readUint
    refuse (previous.any (fun bound => key ≤ bound)) (.mapKeysNotAscending (previous.getD 0) key)
    refuse (key ∉ schema) (.unknownKey key)
    let value ← rawValue
    let others ← slots schema (some key) count
    pure ((key, value) :: others)

def schemaMap (schema : List Nat) : Skip (List (Nat × Bytes)) := do
  let pairs ← cursor (counted 5 "map")
  slots schema none pairs

/-- One item of the subset in shortest form, nested in at most this many levels. -/
def IsItem : Nat → Bytes → Prop
  | 0, _ => False
  | levels + 1, w => (∃ v < 2 ^ 64, w = Cbor.head 0 v) ∨
    (∃ major payload, (major = 2 ∨ major = 3) ∧ payload.length < 2 ^ 64 ∧
      w = Cbor.head major payload.length ++ payload) ∨
    (∃ items : List Bytes, items.length < 2 ^ 64 ∧ (∀ item ∈ items, IsItem levels item) ∧
      w = Cbor.head 4 items.length ++ items.flatten) ∨
    (∃ pairs : List Bytes, pairs.length < 2 ^ 64 ∧
      (∀ pair ∈ pairs, ∃ key value, IsItem levels key ∧ IsItem levels value ∧
        pair = key ++ value) ∧ w = Cbor.head 5 pairs.length ++ pairs.flatten) ∨
    w = Cbor.head 7 22

/-- The keys rise and are the schema's, and each value is one item. -/
def FillsSchema (schema : List Nat) (read : List (Nat × Bytes)) : Prop :=
  read.Pairwise (fun a b => a.1 < b.1) ∧
    ∀ slot ∈ read, slot.1 ∈ schema ∧ IsItem (maxSkipDepth + 1) slot.2

/-- What a slot writes. -/
def slotBytes (slot : Nat × Bytes) : Bytes := Cbor.uint slot.1 ++ slot.2

/-! ## Heads and loops -/

variable {major v n : Nat} {walk : Skip Unit} {P : Bytes → Prop} {left w : Bytes}

/-- A read of one head consumes the head of what it read. -/
theorem accepts_cursor {α : Type} {read : Bytes → Nat → Except AgentError (α × Nat)}
    {Q : α → Bytes → Prop}
    (h : ∀ left a next, read left 0 = .ok (a, next) → ∃ major v,
      readHead left 0 = .ok (major, v, next) ∧ (v < 2 ^ 64 → Q a (Cbor.head major v))) :
    Accepts (cursor read) Q := by
  rintro left a rest hread
  cases hcursor : read left 0 with
  | error => simp [cursor, hcursor, Except.map] at hread
  | ok answer =>
    simp only [cursor, hcursor, Except.map, Except.ok.injEq, Prod.mk.injEq] at hread
    obtain ⟨rfl, rfl⟩ := hread
    obtain ⟨major, v, hhead, hQ⟩ := h left _ _ hcursor
    rcases readHead_cases left 0 with ⟨_, _, hagent, -⟩ | ⟨_, _, _, hagent, hrelay, -⟩
    · cases hhead.symm.trans hagent
    · cases hhead.symm.trans hagent
      exact ⟨_, Reader.readHead_ok hrelay, hQ (Reader.readHead_lt hrelay)⟩

theorem accepts_headAt : Accepts headAt fun head w =>
    head.2 < 2 ^ 64 ∧ w = Cbor.head head.1 head.2 := by
  refine accepts_cursor fun left head next h => ?_
  obtain ⟨⟨major, v, _⟩, hhead, h⟩ := bind_ok h
  cases h
  exact ⟨major, v, hhead, fun hv => ⟨hv, rfl⟩⟩

theorem accepts_readUint : Accepts (cursor readUint) fun v w =>
    v < 2 ^ 64 ∧ w = Cbor.uint v := by
  refine accepts_cursor fun left v next h => ?_
  obtain ⟨⟨major, _, _⟩, hhead, h⟩ := bind_ok h
  obtain ⟨hmajor, h⟩ := require_ok h
  cases h
  exact ⟨0, v, hmajor ▸ hhead, fun hv => ⟨hv, rfl⟩⟩

theorem accepts_counted (name : String) : Accepts (cursor (counted major name)) fun n w =>
    w = Cbor.head major n := by
  refine accepts_cursor fun left n next h => ?_
  obtain ⟨⟨found, _, _⟩, hhead, h⟩ := bind_ok h
  obtain ⟨hmajor, h⟩ := require_ok h
  obtain ⟨-, h⟩ := guard_ok h
  cases h
  exact ⟨major, n, hmajor ▸ hhead, fun _ => rfl⟩

theorem reads_headAt (hmajor : major < 8) (hv : v < 2 ^ 64) :
    Reads headAt (Cbor.head major v) (major, v) := by
  intro tail
  have hhead := Reader.readHead_head hmajor hv tail
  rcases readHead_cases (Cbor.head major v ++ tail) 0 with
    ⟨_, _, -, hrelay⟩ | ⟨_, _, _, hagent, hrelay, -⟩
  · cases hhead.symm.trans hrelay
  · rw [drop_zero, hhead, Except.ok.injEq, Prod.mk.injEq, Prod.mk.injEq] at hrelay
    obtain ⟨⟨rfl, rfl⟩, htail⟩ := hrelay
    simp [headAt, cursor, hagent, bind, Except.bind, Except.map, ← htail]

theorem accepts_pass : Accepts (pass n) fun _ w => w.length = n := by
  rintro left _ rest h
  obtain ⟨hlong, h⟩ := guard_ok h
  cases h
  exact ⟨left.take n, (take_append_drop n left).symm, length_take_of_le (not_lt.mp hlong)⟩

theorem accepts_times (h : Accepts walk fun _ w => P w) (n : Nat) :
    Accepts (times walk n) fun _ w =>
      ∃ items : List Bytes, items.length = n ∧ (∀ item ∈ items, P item) ∧ w = items.flatten := by
  induction n with
  | zero => exact .pure ⟨[], rfl, by simp, rfl⟩
  | succ n ih =>
    refine h.bind fun _ first hfirst => ih.mono ?_
    rintro _ _ ⟨items, rfl, hitems, rfl⟩
    exact ⟨first :: items, rfl, forall_mem_cons.mpr ⟨hfirst, hitems⟩, rfl⟩

theorem reads_times {items : List Bytes} (h : ∀ item ∈ items, Reads walk item ()) :
    Reads (times walk items.length) items.flatten () := by
  induction items with
  | nil => exact .pure ()
  | cons item items ih =>
    obtain ⟨hitem, hrest⟩ := forall_mem_cons.mp h
    exact hitem.bind (ih hrest)

/-! ## One item -/

theorem accepts_skipLevels (levels : Nat) :
    Accepts (skipLevels levels) fun _ w => IsItem levels w := by
  induction levels with
  | zero => exact .throw
  | succ levels ih =>
    refine accepts_headAt.bind ?_
    rintro ⟨major, v⟩ _ ⟨hv, rfl⟩
    dsimp only at hv ⊢
    split
    · refine .pure (.inl ⟨v, hv, append_nil _⟩)
    · refine accepts_pass.mono ?_
      rintro _ payload rfl
      exact .inr (.inl ⟨2, payload, .inl rfl, hv, rfl⟩)
    · refine accepts_pass.mono ?_
      rintro _ payload rfl
      exact .inr (.inl ⟨3, payload, .inr rfl, hv, rfl⟩)
    · refine (accepts_times ih v).mono ?_
      rintro _ _ ⟨items, rfl, hitems, rfl⟩
      exact .inr (.inr (.inl ⟨items, hv, hitems, rfl⟩))
    · have hpair : Accepts (do skipLevels levels; skipLevels levels) fun _ pair =>
          ∃ key value, IsItem levels key ∧ IsItem levels value ∧ pair = key ++ value :=
        ih.bind fun _ key hkey => ih.mono fun _ value hvalue => ⟨key, value, hkey, hvalue, rfl⟩
      refine (accepts_times hpair v).mono ?_
      rintro _ _ ⟨pairs, rfl, hpairs, rfl⟩
      exact .inr (.inr (.inr (.inl ⟨pairs, hv, hpairs, rfl⟩)))
    · refine Accepts.refuse.mono ?_
      rintro _ _ ⟨hnull, rfl⟩
      rw [Classical.not_not.mp hnull, append_nil]
      exact .inr (.inr (.inr (.inr rfl)))
    · exact .throw

theorem reads_skipLevels {levels : Nat} (h : IsItem levels w) : Reads (skipLevels levels) w () := by
  induction levels generalizing w with
  | zero => exact h.elim
  | succ levels ih =>
    have hpass (payload : Bytes) : Reads (pass payload.length) payload () := by
      intro tail
      simp [pass]
    rcases h with ⟨v, hv, rfl⟩ | ⟨major, payload, rfl | rfl, hlen, rfl⟩ |
      ⟨items, hlen, hitems, rfl⟩ | ⟨pairs, hlen, hpairs, rfl⟩ | rfl
    · exact append_nil (Cbor.head 0 v) ▸ (reads_headAt (by decide) hv).bind (.pure ())
    · exact (reads_headAt (by decide) hlen).bind (hpass payload)
    · exact (reads_headAt (by decide) hlen).bind (hpass payload)
    · refine (reads_headAt (by decide) hlen).bind (reads_times fun item hitem => ?_)
      exact ih (hitems item hitem)
    · refine (reads_headAt (by decide) hlen).bind (reads_times ?_)
      intro pair hpair
      obtain ⟨key, value, hkey, hvalue, rfl⟩ := hpairs pair hpair
      exact (ih hkey).bind (ih hvalue)
    · exact append_nil (Cbor.head 7 22) ▸
        (reads_headAt (by decide) (by decide)).bind (.refuse (by decide))

theorem IsItem.mono {levels more : Nat} (h : IsItem levels w) (hle : levels ≤ more) :
    IsItem more w := by
  induction levels generalizing w more with
  | zero => exact h.elim
  | succ levels ih =>
    obtain ⟨more, rfl⟩ := Nat.exists_eq_add_of_le' (Nat.one_le_of_lt hle)
    have hdeep {item} (hitem : IsItem levels item) : IsItem more item :=
      ih hitem (Nat.le_of_succ_le_succ hle)
    refine h.imp_right (.imp_right (.imp ?_ (.imp_left ?_)))
    · rintro ⟨items, hlen, hitems, rfl⟩
      exact ⟨items, hlen, fun item hitem => hdeep (hitems item hitem), rfl⟩
    · rintro ⟨pairs, hlen, hpairs, rfl⟩
      refine ⟨pairs, hlen, fun pair hpair => ?_, rfl⟩
      obtain ⟨key, value, hkey, hvalue, rfl⟩ := hpairs pair hpair
      exact ⟨key, value, hdeep hkey, hdeep hvalue, rfl⟩

/-- Bytes begin with one item at most. -/
theorem IsItem.unique {levels more : Nat} {item rest rest' : Bytes} (h : IsItem levels w)
    (hitem : IsItem more item) (heq : w ++ rest = item ++ rest') : w = item := by
  have hread := reads_skipLevels (h.mono (le_max_left levels more)) rest
  have hother := reads_skipLevels (hitem.mono (le_max_right levels more)) rest'
  rw [heq, hother] at hread
  cases hread
  exact append_cancel_right heq

/-! ## Maps of a schema -/

theorem accepts_rawValue : Accepts rawValue fun value w =>
    IsItem (maxSkipDepth + 1) value ∧ w = value := by
  rintro left value rest h
  obtain ⟨⟨_, _⟩, hskip, h⟩ := bind_ok h
  cases h
  obtain ⟨w, rfl, hw⟩ := accepts_skipLevels _ hskip
  have htake : (w ++ rest).take ((w ++ rest).length - rest.length) = w := by simp
  exact ⟨w, rfl, by rwa [htake], htake.symm⟩

theorem accepts_slots (schema : List Nat) (n : Nat) : ∀ previous : Option Nat,
    Accepts (slots schema previous n) fun read w => read.length = n ∧
      (∀ bound ∈ previous, ∀ slot ∈ read, bound < slot.1) ∧ FillsSchema schema read ∧
      w = (read.map slotBytes).flatten := by
  induction n with
  | zero => exact fun _ => .pure ⟨rfl, by simp, ⟨.nil, by simp⟩, rfl⟩
  | succ n ih =>
    intro previous
    refine accepts_readUint.bind ?_
    rintro key _ ⟨-, rfl⟩
    refine Accepts.refuse.bind ?_
    rintro _ _ ⟨hrises, rfl⟩
    refine Accepts.refuse.bind ?_
    rintro _ _ ⟨hschema, rfl⟩
    refine accepts_rawValue.bind ?_
    rintro value _ ⟨hvalue, rfl⟩
    refine (ih (some key)).bind ?_
    rintro read _ ⟨rfl, habove, ⟨hread, hslots⟩, rfl⟩
    have hlow : ∀ bound ∈ previous, bound < key := by
      rintro bound rfl
      simpa using hrises
    refine .pure ⟨rfl, fun bound hbound => ?_, ⟨?_, ?_⟩, by simp [slotBytes]⟩
    · refine forall_mem_cons.mpr ⟨hlow bound hbound, fun slot hslot => ?_⟩
      exact (hlow bound hbound).trans (habove key rfl slot hslot)
    · exact pairwise_cons.mpr ⟨habove key rfl, hread⟩
    · exact forall_mem_cons.mpr ⟨⟨Classical.not_not.mp hschema, hvalue⟩, hslots⟩

theorem accepts_schemaMap (schema : List Nat) : Accepts (schemaMap schema) fun read w =>
    FillsSchema schema read ∧ w = Cbor.head 5 read.length ++ (read.map slotBytes).flatten := by
  refine (accepts_counted "map").bind ?_
  rintro _ _ rfl
  refine (accepts_slots schema _ none).mono ?_
  rintro read _ ⟨rfl, -, hfills, rfl⟩
  exact ⟨hfills, rfl⟩

/-- Skipping is exact: it accepts what begins with one item of at most 33 levels, and consumes
that item. An item with more levels is refused. A map that is accepted fills the schema with such
items, and is consumed whole. -/
theorem skip_exact
    (data : Bytes)
    (offset : Nat) :
    (∀ rest, skipItem (data.drop offset) = .ok ((), rest) ↔
      ∃ item, data.drop offset = item ++ rest ∧ IsItem (maxSkipDepth + 1) item) ∧
    (∀ levels item rest, data.drop offset = item ++ rest → IsItem levels item →
      ¬ IsItem (maxSkipDepth + 1) item → ∃ error, skipItem (data.drop offset) = .error error) ∧
    ∀ schema read rest, schemaMap schema (data.drop offset) = .ok (read, rest) →
      ∃ w, data.drop offset = w ++ rest ∧ FillsSchema schema read ∧
        w = Cbor.head 5 read.length ++ (read.map slotBytes).flatten := by
  refine ⟨fun rest => ⟨fun h => accepts_skipLevels _ h, ?_⟩, ?_, fun schema _ _ h => ?_⟩
  · rintro ⟨item, hdata, hitem⟩
    rw [hdata]
    exact reads_skipLevels hitem rest
  · intro levels item rest hdata hitem hdeep
    cases hskip : skipItem (data.drop offset) with
    | error error => exact ⟨error, rfl⟩
    | ok read =>
      obtain ⟨w, hw, hlevels⟩ := accepts_skipLevels _ hskip
      have hone := hlevels.unique hitem (hw.symm.trans hdata)
      exact absurd (hone ▸ hlevels) hdeep
  · exact accepts_schemaMap schema h

end WealdRelay.Cbor.Agent
