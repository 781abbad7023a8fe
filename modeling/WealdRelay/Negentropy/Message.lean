import Mathlib.Data.Prod.Lex
import WealdRelay.Lib.Cover
import WealdRelay.Lib.SortDedup

/-!
# Reconciliation messages

The data of `negentropy/mod.rs`: items, ranges and messages, and the two readings of an
item slice both roles use, the items inside a span (`items_in`) and their ids (`ids_of`).

The fingerprint is a parameter. A message carries values of a type `F`, and both roles
take the function that computes them; what is proved about an exchange assumes that it
tells item lists apart. A content address is the number its 32 bytes spell, most
significant byte first, so that the order of numbers is the order of `[u8; 32]`. A
sequence number is a natural number; `infinity` is the largest `u64`.
-/

namespace WealdRelay.Negentropy

open Lib List

/-- `INFINITY`, the open end of the last range. -/
def infinity : Nat := 18446744073709551615

/-- `IDLIST_LIMIT`. -/
def idlistLimit : Nat := 16

/-- `SPLIT_FACTOR`. -/
def splitFactor : Nat := 8

/-- `MAX_RANGES`. -/
def maxRanges : Nat := 1024

/-- `MAX_IDS_PER_RANGE`. -/
def maxIdsPerRange : Nat := 4096

/-- How many content addresses there are. -/
def idCount : Nat := Nat.pow 256 32

/-- A content address. -/
abbrev Id := Fin idCount

instance idLawfulBEq : LawfulBEq Id := inferInstance

/-- One envelope: a cursor and a content address. -/
structure Item where
  seq : Nat
  id : Id
  deriving DecidableEq

namespace Item

/-- What items compare by. -/
def key (item : Item) : Nat ×ₗ Id := toLex (item.seq, item.id)

theorem key_injective : Function.Injective key := by
  rintro ⟨seq, id⟩ ⟨seq', id'⟩ h
  simpa [key] using h

instance linearOrder : LinearOrder Item := LinearOrder.lift' key key_injective

theorem seq_le_of_le {a b : Item} (h : a ≤ b) : a.seq ≤ b.seq := by
  rcases Prod.Lex.le_iff.mp (show a.key ≤ b.key from h) with hlt | ⟨heq, -⟩
  · exact le_of_lt hlt
  · exact le_of_eq heq

end Item

/-- What one range says. -/
inductive Mode (F : Type)
  | skip
  | fingerprint (value : F)
  | idList (ids : List Id)
  deriving DecidableEq

/-- One range of the sequence space, from the upper bound of the range before it. -/
structure Range (F : Type) where
  upper : Nat
  mode : Mode F
  deriving DecidableEq

/-- One message: a cover of the sequence space. -/
structure Message (F : Type) where
  ranges : List (Range F)
  deriving DecidableEq

/-- The ranges with their lower bounds (`Message::spans`). -/
def Message.spans {F : Type} (message : Message F) : List (Nat × Range F) :=
  Lib.spans Range.upper 0 message.ranges

/-- The items inside `[lower, upper)` of a list sorted by `seq`. -/
def itemsIn (items : List Item) (lower upper : Nat) : List Item :=
  (items.dropWhile (fun item => item.seq < lower)).takeWhile (fun item => item.seq < upper)

/-- Every id of a list of items, ascending, deduplicated. -/
def idsOf (items : List Item) : List Id := sortDedup (items.map (·.id))

/-! ### Sorted item lists -/

/-- Sorted by `seq`. -/
def Sorted (items : List Item) : Prop := items.Pairwise (fun a b => a.seq ≤ b.seq)

/-- Sorted by `seq`, no two items at one. -/
def Ascending (items : List Item) : Prop := items.Pairwise (fun a b => a.seq < b.seq)

section Items

variable {xs chunk rest : List Item} {lo mid hi : Nat} {item : Item}

theorem Ascending.sorted (h : Ascending xs) : Sorted xs :=
  h.imp (le_of_lt ·)

theorem Ascending.nodup (h : Ascending xs) : xs.Nodup := by
  refine h.imp ?_
  rintro a b hlt rfl
  exact lt_irrefl _ hlt

theorem Ascending.eq_of_seq_eq (h : Ascending xs) {a b : Item} (ha : a ∈ xs)
    (hb : b ∈ xs) (heq : a.seq = b.seq) : a = b :=
  inj_on_of_nodup_map (pairwise_map.mpr (h.imp (ne_of_lt ·))) ha hb heq

theorem itemsIn_sublist (xs : List Item) (lo hi : Nat) : (itemsIn xs lo hi).Sublist xs :=
  (takeWhile_sublist _).trans (dropWhile_sublist _)

variable (h : Sorted xs)
include h

theorem dropWhile_eq_filter (lo : Nat) : xs.dropWhile (·.seq < lo) = xs.filter (lo ≤ ·.seq) := by
  induction xs with
  | nil => rfl
  | cons first rest ih =>
    obtain ⟨hfirst, hr⟩ := pairwise_cons.mp h
    by_cases hlt : first.seq < lo
    · simp [hlt, ih hr, not_le.mpr hlt]
    · have hall : ∀ item ∈ first :: rest, lo ≤ item.seq := by
        intro item hi
        rcases mem_cons.mp hi with rfl | hi
        · exact not_lt.mp hlt
        · exact le_trans (not_lt.mp hlt) (hfirst item hi)
      rw [filter_eq_self.mpr (by simpa using hall)]
      simp [hlt]

theorem takeWhile_eq_filter (hi : Nat) : xs.takeWhile (·.seq < hi) = xs.filter (·.seq < hi) := by
  induction xs with
  | nil => rfl
  | cons first rest ih =>
    obtain ⟨hfirst, hr⟩ := pairwise_cons.mp h
    by_cases hlt : first.seq < hi
    · simp [hlt, ih hr]
    · have hnone : ∀ item ∈ first :: rest, ¬ item.seq < hi := by
        intro item hitem
        rcases mem_cons.mp hitem with rfl | hitem
        · exact hlt
        · exact not_lt.mpr (le_trans (not_lt.mp hlt) (hfirst item hitem))
      rw [filter_eq_nil_iff.mpr (by simpa using hnone)]
      simp [hlt]

theorem itemsIn_eq_filter (lo hi : Nat) :
    itemsIn xs lo hi = xs.filter (fun item => lo ≤ item.seq ∧ item.seq < hi) := by
  have hsub : Sorted (xs.filter (lo ≤ ·.seq)) :=
    .sublist filter_sublist h
  rw [itemsIn, dropWhile_eq_filter h, takeWhile_eq_filter hsub, filter_filter]
  refine filter_congr fun item _ => ?_
  rw [← Bool.decide_and, decide_eq_decide, and_comm]

theorem mem_itemsIn : item ∈ itemsIn xs lo hi ↔ item ∈ xs ∧ lo ≤ item.seq ∧ item.seq < hi := by
  rw [itemsIn_eq_filter h, mem_filter, decide_eq_true_iff]

theorem itemsIn_eq_self
    (hbounds : ∀ item ∈ xs, lo ≤ item.seq ∧ item.seq < hi) : itemsIn xs lo hi = xs := by
  rw [itemsIn_eq_filter h, filter_eq_self]
  simpa using hbounds

/-- A bound between two parts of a span's items cuts the span at them. -/
theorem itemsIn_cut (hlo : lo ≤ mid) (hhi : mid ≤ hi)
    (hparts : itemsIn xs lo hi = chunk ++ rest) (hchunk : ∀ item ∈ chunk, item.seq < mid)
    (hr : ∀ item ∈ rest, mid ≤ item.seq) :
    itemsIn xs lo mid = chunk ∧ itemsIn xs mid hi = rest := by
  have hbelow : itemsIn xs lo mid = (itemsIn xs lo hi).filter (·.seq < mid) := by
    rw [itemsIn_eq_filter h, itemsIn_eq_filter h, filter_filter]
    refine filter_congr fun item _ => ?_
    rw [← Bool.decide_and, decide_eq_decide]
    omega
  have habove : itemsIn xs mid hi = (itemsIn xs lo hi).filter (mid ≤ ·.seq) := by
    rw [itemsIn_eq_filter h, itemsIn_eq_filter h, filter_filter]
    refine filter_congr fun item _ => ?_
    rw [← Bool.decide_and, decide_eq_decide]
    omega
  rw [hbelow, habove, hparts, filter_append, filter_append]
  constructor
  · rw [filter_eq_self.mpr (by simpa using hchunk),
      filter_eq_nil_iff.mpr (by simpa using hr), append_nil]
  · rw [filter_eq_nil_iff.mpr (by simpa using hchunk),
      filter_eq_self.mpr (by simpa using hr), nil_append]

omit h

@[simp] theorem mem_idsOf {id : Id} : id ∈ idsOf xs ↔ ∃ item ∈ xs, item.id = id := by
  simp [idsOf]

end Items

/-- Two holders have the same items in a span. -/
def Agree (first second : List Item) (lo hi : Nat) : Prop :=
  ∀ item : Item, lo ≤ item.seq → item.seq < hi → (item ∈ first ↔ item ∈ second)

section Agreement

variable {first second : List Item} {lo hi : Nat}

theorem Agree.symm (h : Agree first second lo hi) : Agree second first lo hi :=
  fun item hlo hhi => (h item hlo hhi).symm

theorem agree_of_itemsIn_eq (hfirst : Sorted first) (hsecond : Sorted second)
    (h : itemsIn first lo hi = itemsIn second lo hi) : Agree first second lo hi := by
  intro item hlo hhi
  have hmem : item ∈ itemsIn first lo hi ↔ item ∈ itemsIn second lo hi := by rw [h]
  rw [mem_itemsIn hfirst, mem_itemsIn hsecond] at hmem
  simpa [hlo, hhi] using hmem

/-- A list sorted by `seq` with the members of an ascending one is that list. -/
theorem eq_of_ascending (hfirst : Ascending first) (hsecond : Sorted second)
    (hnd : second.Nodup) (hmem : ∀ item, item ∈ first ↔ item ∈ second) : first = second := by
  have hstrict : Ascending second := by
    refine (List.Pairwise.and hsecond hnd).imp_of_mem ?_
    intro a b ha hb hab
    refine lt_of_le_of_ne hab.1 fun heq => hab.2 ?_
    exact hfirst.eq_of_seq_eq ((hmem a).mpr ha) ((hmem b).mpr hb) heq
  have hirrefl : Std.Irrefl (fun a b : Item => a.seq < b.seq) := ⟨fun _ => lt_irrefl _⟩
  have hasymm : Std.Asymm (fun a b : Item => a.seq < b.seq) := ⟨fun _ _ => lt_asymm⟩
  exact List.Pairwise.eq_of_mem_iff hfirst hstrict hmem

theorem itemsIn_eq_of_agree (hfirst : Ascending first) (hsecond : Sorted second)
    (hnd : second.Nodup) (h : Agree first second lo hi) :
    itemsIn first lo hi = itemsIn second lo hi := by
  refine eq_of_ascending (hfirst.sublist (itemsIn_sublist _ _ _))
    (hsecond.sublist (itemsIn_sublist _ _ _)) (hnd.sublist (itemsIn_sublist _ _ _)) ?_
  intro item
  rw [mem_itemsIn hfirst.sorted, mem_itemsIn hsecond]
  constructor
  · rintro ⟨hmem, hlo, hhi⟩
    exact ⟨(h item hlo hhi).mp hmem, hlo, hhi⟩
  · rintro ⟨hmem, hlo, hhi⟩
    exact ⟨(h item hlo hhi).mpr hmem, hlo, hhi⟩

end Agreement

end WealdRelay.Negentropy
