import Mathlib.Algebra.Group.Action.Defs
import Mathlib.Algebra.Order.BigOperators.Group.List
import WealdRelay.Negentropy.Covers
import WealdRelay.Wire.Codec

/-!
# The size of an answer

An id list is bounded by `MAX_IDS_PER_RANGE` for each range, a message by `MAX_RANGES`, and
a frame by `MAX_FRAME_BYTES`; nothing bounds the ids of a whole message. A message that
fills up leaves its spans a budget of one range, and a budget of one answers a span of up
to 4096 items with all their ids.

`listedIds` adds up the ids an answer can name, from the message and the items the relay
holds in each of its spans. `recon_readable_of_listedIds` says that the `RECON` frame that
carries the answer can be read if there is room for them, and cannot if a full message has
more of them than a frame holds. An answer to fewer than 128 ranges always fits, if no two
items share a sequence number (`recon_fits_of_few_ranges`).
-/

namespace WealdRelay.Negentropy

open Lib Cbor Cbor.Reader
open List hiding head

/-! ## Encoded lengths -/

/-- The bytes of a head with this argument. -/
def headWidth (value : Nat) : Nat :=
  if value < 24 then 1
  else if value ≤ 255 then 2
  else if value ≤ 65535 then 3
  else if value ≤ 4294967295 then 5
  else 9

theorem length_head (major v : Nat) : (head major v).length = headWidth v := by
  unfold head headWidth
  split_ifs <;> simp

variable (fp : List Item → Id) (v : Nat)

theorem headWidth_le : headWidth v ≤ 9 := by
  unfold headWidth
  split_ifs <;> decide

@[simp] theorem length_uint : (Cbor.uint v).length = headWidth v :=
  length_head _ _

@[simp] theorem length_bytes (v : Bytes) :
    (Cbor.bytes v).length = headWidth v.length + v.length := by
  rw [Cbor.bytes, length_append, length_head]

@[simp] theorem length_array (xs : List Bytes) :
    (Cbor.array xs).length = headWidth xs.length + (xs.map List.length).sum := by
  rw [Cbor.array, length_append, length_head, length_flatten]

/-- The bytes of a mode's payload. -/
def Mode.width {F : Type} : Mode F → Nat
  | .skip => 1
  | .fingerprint _ => 34
  | .idList ids => headWidth ids.length + 34 * ids.length

/-- The bytes of a range: the header, its bound, its mode and the payload. -/
def Range.width {F : Type} (range : Range F) : Nat :=
  2 + headWidth range.upper + range.mode.width

theorem length_idBytes (id : Id) : (Cbor.bytes (idBytes id)).length = 34 := by
  rw [length_bytes, idBytes, length_beBytes]
  rfl

theorem Mode.length_payload (mode : Mode Id) : mode.payload.length = mode.width := by
  cases mode with
  | skip => rfl
  | fingerprint v => rw [payload, width, length_idBytes]
  | idList ids =>
    have hlen : (length ∘ fun id => Cbor.bytes (idBytes id)) = fun _ => 34 := by
      funext id
      rw [Function.comp_apply, length_idBytes]
    rw [payload, length_array, map_map, hlen, length_map, width]
    simp [Nat.mul_comm]

theorem Range.length_encode (r : Range Id) : r.encode.length = r.width := by
  have htag : headWidth r.mode.tag = 1 := by
    cases r.mode <;> rfl
  rw [encode, length_array]
  simp only [map_cons, map_nil, sum_cons, sum_nil, length_uint, htag,
    Mode.length_payload, length_cons, length_nil]
  rw [width, show headWidth (0 + 1 + 1 + 1) = 1 from rfl]
  omega

/-- The bytes of a payload with this many ranges of this total width. -/
def payloadBytes (count width : Nat) : Nat := 2 + headWidth count + width

theorem Message.length_encode (msg : Message Id) : msg.encode.length =
      payloadBytes msg.ranges.length (msg.ranges.map Range.width).sum := by
  have hlen : length ∘ Range.encode = Range.width := funext Range.length_encode
  rw [encode, length_array]
  simp only [map_cons, map_nil, sum_cons, sum_nil, length_uint,
    length_array, length_cons, length_nil, length_map, map_map, hlen]
  rw [payloadBytes, show headWidth (0 + 1 + 1) = 1 from rfl,
    show headWidth reconVersion = 1 from rfl]
  omega

/-- The bytes of a `RECON` frame around a payload of this length. -/
def frameBytes (payload : Nat) : Nat := 37 + headWidth payload + payload

variable {g : Bytes}

theorem length_recon {p} (hg : g.length = 32) :
    (Wire.Frame.recon g p).encode.length = frameBytes p.length := by
  simp only [Wire.Frame.encode, Wire.Frame.encodeBody, Wire.Frame.tag, length_array,
    map_cons, map_nil, sum_cons, sum_nil, length_uint, length_bytes, hg,
    length_cons, length_nil, frameBytes]
  rw [show headWidth (0 + 1 + 1) = 1 from rfl, show headWidth 32 = 2 from rfl,
    show headWidth Wire.FrameTag.recon.toU16 = 1 from rfl]
  omega

/-! ## The ids of an answer -/

section Listed

variable {F : Type} (fp : List Item → F) {items : List Item}

/-- Can an open span of these items be answered with their ids? One of few items is, and one
that fits an id list if it is left a single range, or if its items may not be cut apart. -/
def Listable (tight : Prop) (mine : List Item) : Prop :=
  mine.length ≤ idlistLimit ∨ mine.length ≤ maxIdsPerRange ∧ (tight ∨ ¬ Ascending mine)

instance (tight : Prop) [Decidable tight] (mine : List Item) : Decidable (Listable tight mine) :=
  inferInstanceAs (Decidable (mine.length ≤ idlistLimit ∨ mine.length ≤ maxIdsPerRange ∧
    (tight ∨ ¬ mine.Pairwise (fun a b => a.seq < b.seq))))

/-- The bytes of ranges. -/
def widthOf (ranges : List (Range F)) : Nat := (ranges.map Range.width).sum

/-- A span that is not settled is answered with its ids or with fingerprints. -/
theorem narrow_cases (mine : List Item) (hi b : Nat) :
    narrow fp mine hi b = [⟨hi, .idList (idsOf mine)⟩] ∧ Listable (b < 2) mine ∨
      ∀ r ∈ narrow fp mine hi b, ∃ v, r.mode = .fingerprint v := by
  rw [narrow]
  split_ifs with hfew
  · exact .inl ⟨rfl, .inl hfew⟩
  by_cases hcut : 2 ≤ b ∧ Ascending mine
  · have hmany : 1 < mine.length := by
      simp only [idlistLimit] at hfew
      omega
    exact .inr (two_le_length_splitBounded fp hcut.2 hmany hi hcut.1).2
  have hlists : mine.length ≤ maxIdsPerRange → Listable (b < 2) mine := by
    rw [not_and_or, not_le] at hcut
    exact fun hshort => .inr ⟨hshort, hcut⟩
  simp only [splitBounded]
  split_ifs with hone hshort hsingle
  · exact .inl ⟨rfl, hlists hshort⟩
  · exact .inr (by simp)
  · exact .inl ⟨rfl, hlists hsingle.2.2⟩
  · exact .inr fun r hr => mode_of_mem_splitLoop fp hi _ hr

theorem widthOf_narrow_le (mine : List Item) (hi b : Nat) :
    widthOf (narrow fp mine hi b) ≤ 45 * (narrow fp mine hi b).length +
      34 * if Listable (b < 2) mine then (idsOf mine).length else 0 := by
  rcases narrow_cases fp mine hi b with ⟨hids, hlists⟩ | hfingerprints
  · have hupper := headWidth_le hi
    have hcount := headWidth_le (idsOf mine).length
    rw [hids, if_pos hlists]
    simp only [widthOf, map_cons, map_nil, sum_cons, sum_nil, Range.width, Mode.width,
      length_singleton]
    omega
  · have hwidth : ∀ w ∈ (narrow fp mine hi b).map Range.width, w ≤ 45 := by
      simp only [mem_map, forall_exists_index, and_imp]
      rintro _ r hr rfl
      obtain ⟨v, hmode⟩ := hfingerprints r hr
      have hupper := headWidth_le r.upper
      rw [Range.width, hmode, Mode.width]
      omega
    have hsum := sum_le_card_nsmul _ 45 hwidth
    rw [length_map, smul_eq_mul] at hsum
    rw [widthOf]
    omega

theorem length_narrow_le_factor (hsort : Sorted items) (lo hi b : Nat) :
    (narrow fp (itemsIn items lo hi) hi b).length ≤
      if (itemsIn items lo hi).length ≤ idlistLimit then 1 else splitFactor := by
  rw [narrow]
  split_ifs
  · exact le_refl 1
  · exact le_trans (length_splitBounded_le_factor fp (hsort.sublist (itemsIn_sublist _ _ _)) _ _)
      (min_le_left _ _)

variable [DecidableEq F]

instance (lower : Nat) (range : Range F) :
    Decidable (RelaySettles fp items lower range) :=
  match range with
  | ⟨_, .skip⟩ => isTrue trivial
  | ⟨upper, .fingerprint theirs⟩ =>
    inferInstanceAs (Decidable (fp (itemsIn items lower upper) = theirs))
  | ⟨upper, .idList theirs⟩ => List.decidableBAll (· ∈ idsOf (itemsIn items lower upper)) theirs

/-- The ids in the open spans of a message of `count` ranges that can be answered with ids.
A span before them takes one range, or up to `splitFactor` if it is one of the `wide` open
ones of many items, so a span can be left a single range only if these fill a message. -/
def listedIds (fingerprint : List Item → F) (items : List Item) (count wide : Nat) :
    List (Nat × Range F) → Nat
  | [] => 0
  | (lower, range) :: rest =>
    let mine := itemsIn items lower range.upper
    if RelaySettles fingerprint items lower range then listedIds fingerprint items count wide rest
    else
      (if Listable (maxRanges ≤ count + (splitFactor - 1) * wide) mine then (idsOf mine).length
        else 0) +
        listedIds fingerprint items count
          (if mine.length ≤ idlistLimit then wide else wide + 1) rest

/-- An answer is as wide as its ids and a fingerprint for each of its ranges, at most. -/
theorem widthOf_overSpans_le (hsort : Sorted items) (count : Nat) :
    ∀ (spans : List (Nat × Range F)) (built wide : Nat),
      built + spans.length ≤ count + (splitFactor - 1) * wide →
      widthOf (overSpans (respondSpan fp items) built spans).1 ≤
        45 * (overSpans (respondSpan fp items) built spans).1.length +
          34 * listedIds fp items count wide spans
  | [], _, _, _ => Nat.zero_le _
  | (lo, r) :: rest, built, wide, hbuilt => by
      have hupper := headWidth_le r.upper
      rw [length_cons] at hbuilt
      simp only [overSpans, listedIds, widthOf, map_append, sum_append, length_append]
      by_cases hset : RelaySettles fp items lo r
      · have hrest := widthOf_overSpans_le hsort count rest (built + 1) wide (by omega)
        simp only [respondSpan_settled hset, if_pos hset, map_cons, map_nil, sum_cons, sum_nil,
          length_singleton, Range.width, Mode.width, widthOf] at hrest ⊢
        omega
      · -- A span that was left one range counts as such, since those before it took no more
        -- than they are counted for.
        have hmine := widthOf_narrow_le fp (itemsIn items lo r.upper) r.upper
          (spanBudget built (rest.length + 1))
        have hparts := length_narrow_le_factor fp hsort lo r.upper
          (spanBudget built (rest.length + 1))
        have htight : spanBudget built (rest.length + 1) < 2 →
            maxRanges ≤ count + (splitFactor - 1) * wide := by
          simp only [spanBudget, Nat.add_sub_cancel]
          omega
        have hlisted : (if Listable (spanBudget built (rest.length + 1) < 2)
            (itemsIn items lo r.upper) then (idsOf (itemsIn items lo r.upper)).length else 0) ≤
            if Listable (maxRanges ≤ count + (splitFactor - 1) * wide) (itemsIn items lo r.upper)
              then (idsOf (itemsIn items lo r.upper)).length else 0 := by
          split_ifs with hhere hthere
          · exact le_refl _
          · exact absurd (hhere.imp_right fun h => ⟨h.1, h.2.imp_left htight⟩) hthere
          · exact Nat.zero_le _
          · exact le_refl _
        rw [respondSpan_narrows hset, if_neg hset]
        have hrest := widthOf_overSpans_le hsort count rest
          (built + (narrow fp (itemsIn items lo r.upper) r.upper
            (spanBudget built (rest.length + 1))).length)
          (if (itemsIn items lo r.upper).length ≤ idlistLimit then wide else wide + 1) (by
            split_ifs at hparts ⊢ <;> simp only [splitFactor] at hparts hbuilt ⊢ <;> omega)
        simp only [widthOf] at hmine hrest
        omega

/-- In the answer to a message of `MAX_RANGES` ranges every span has a single one to spend,
and names all the ids it can. -/
theorem listedIds_le_widthOf : ∀ (spans : List (Nat × Range F)) (built wide : Nat),
      built + spans.length = maxRanges →
      34 * listedIds fp items maxRanges wide spans ≤
        widthOf (overSpans (respondSpan fp items) built spans).1
  | [], _, _, _ => Nat.zero_le _
  | (lo, r) :: rest, built, wide, hbuilt => by
      have hbudget : spanBudget built (rest.length + 1) = 1 := by
        rw [length_cons] at hbuilt
        simp only [spanBudget, Nat.add_sub_cancel]
        omega
      have hrest := fun wide => listedIds_le_widthOf rest (built + 1) wide (by
        rw [length_cons] at hbuilt
        omega)
      simp only [overSpans, listedIds, hbudget, widthOf, map_append, sum_append]
      by_cases hset : RelaySettles fp items lo r
      · rw [respondSpan_settled hset, if_pos hset]
        exact le_trans (hrest wide) (Nat.le_add_left _ _)
      rw [respondSpan_narrows hset, if_neg hset]
      have hone : ∃ mode : Mode F, narrow fp (itemsIn items lo r.upper) r.upper 1 =
          [⟨r.upper, mode⟩] ∧ 34 * (if Listable (maxRanges ≤ maxRanges + (splitFactor - 1) * wide)
            (itemsIn items lo r.upper) then (idsOf (itemsIn items lo r.upper)).length else 0) ≤
              mode.width := by
        rw [narrow]
        split_ifs with hfew hlists hlists
        · exact ⟨_, rfl, Nat.le_add_left _ _⟩
        · exact absurd (.inl hfew) hlists
        · rw [splitBounded_of_le_one fp _ _ (le_refl 1),
            if_pos (hlists.resolve_left hfew).1]
          exact ⟨_, rfl, Nat.le_add_left _ _⟩
        · rw [splitBounded_of_le_one fp _ _ (le_refl 1)]
          split_ifs <;> exact ⟨_, rfl, Nat.zero_le _⟩
      obtain ⟨mode, heq, hwidth⟩ := hone
      have hlater := hrest
        (if (itemsIn items lo r.upper).length ≤ idlistLimit then wide else wide + 1)
      rw [heq]
      simp only [length_singleton, map_cons, map_nil, sum_cons, sum_nil, Range.width, widthOf]
        at hlater ⊢
      omega

end Listed

/-- The relay's answer in a frame, as the writer encodes it. -/
def reconFrame (fingerprint : List Item → Id) (group : Bytes) (items : List Item)
    (incoming : Message Id) : Wire.Frame :=
  .recon group (respond fingerprint items incoming).reply.encode

/-- The peer can read the answer: its frame keeps the limit, the writer does not refuse it,
and its payload decodes to the reply. -/
structure Readable (fingerprint : List Item → Id) (group : Bytes) (items : List Item)
    (incoming : Message Id) : Prop where
  fits : (reconFrame fingerprint group items incoming).encode.length ≤ Wire.maxFrameBytes
  encodes : Wire.encodeBounded (reconFrame fingerprint group items incoming) =
    .ok (reconFrame fingerprint group items incoming).encode
  decodes : Message.decode (respond fingerprint items incoming).reply.encode =
    .ok (respond fingerprint items incoming).reply

theorem length_reconFrame (hg : g.length = 32) (xs : List Item) (inc : Message Id) :
    (reconFrame fp g xs inc).encode.length = frameBytes (payloadBytes
      (respond fp xs inc).reply.ranges.length (widthOf (respond fp xs inc).reply.ranges)) := by
  rw [reconFrame, length_recon hg, Message.length_encode, widthOf]

/-- Room for the ids of an answer and a fingerprint in each of its ranges is enough. -/
theorem length_reconFrame_le (hg : g.length = 32) {xs} (hsort : Sorted xs) (inc : Message Id) :
    (reconFrame fp g xs inc).encode.length ≤
      57 + 45 * (respond fp xs inc).reply.ranges.length +
        34 * listedIds fp xs inc.ranges.length 0 inc.spans := by
  have hrefines : inc.spans.length = inc.ranges.length := length_spans _ _ _
  have hwidth := widthOf_overSpans_le fp hsort inc.ranges.length inc.spans 0 0 (by omega)
  have hpayload := headWidth_le (payloadBytes
    (respond fp xs inc).reply.ranges.length (widthOf (respond fp xs inc).reply.ranges))
  have hranges := headWidth_le (respond fp xs inc).reply.ranges.length
  rw [length_reconFrame fp hg, frameBytes, payloadBytes] at *
  simp only [respond] at *
  omega

/-- Where no span can be left a single range and no two items share a sequence number, only
spans of few items are answered with ids. -/
theorem listedIds_le_of_few {F : Type} [DecidableEq F] (fp : List Item → F) {xs : List Item}
    (hasc : Ascending xs) (count : Nat) : ∀ (spans : List (Nat × Range F)) (wide : Nat),
      count + (splitFactor - 1) * (wide + spans.length) < maxRanges + (splitFactor - 1) →
      listedIds fp xs count wide spans ≤ idlistLimit * spans.length
  | [], _, _ => Nat.zero_le _
  | (lo, r) :: rest, wide, hfew => by
      have hlater := fun wide' (hwide : wide' ≤ wide + 1) =>
        listedIds_le_of_few fp hasc count rest wide' (by
          rw [length_cons] at hfew
          simp only [splitFactor] at hfew ⊢
          omega)
      have hhere : (if Listable (maxRanges ≤ count + (splitFactor - 1) * wide)
          (itemsIn xs lo r.upper) then (idsOf (itemsIn xs lo r.upper)).length else 0) ≤
            idlistLimit := by
        split_ifs with hlists
        · rcases hlists with hshort | ⟨-, htight | hties⟩
          · have hids := length_sortDedup_le ((itemsIn xs lo r.upper).map (·.id))
            rw [length_map] at hids
            exact le_trans hids hshort
          · rw [length_cons] at hfew
            simp only [splitFactor] at hfew htight
            omega
          · exact absurd (hasc.sublist (itemsIn_sublist _ _ _)) hties
        · exact Nat.zero_le _
      simp only [listedIds, length_cons, Nat.mul_add_one]
      by_cases hset : RelaySettles fp xs lo r
      · rw [if_pos hset]
        exact le_trans (hlater wide (Nat.le_succ _)) (Nat.le_add_right _ _)
      · have hrest := hlater
          (if (itemsIn xs lo r.upper).length ≤ idlistLimit then wide else wide + 1) (by
            split_ifs <;> omega)
        rw [if_neg hset]
        omega

/-- The answer to fewer than 128 ranges fits, if no two items share a sequence number: no
span is then left a single range to spend. -/
theorem recon_fits_of_few_ranges
    (fingerprint : List Item → Id)
    {group : Bytes}
    (hgroup : group.length = 32)
    {items : List Item}
    (hascending : Ascending items)
    {incoming : Message Id}
    (hfew : incoming.ranges.length < 128) :
    (reconFrame fingerprint group items incoming).encode.length ≤ Wire.maxFrameBytes := by
  have hrefines : incoming.spans.length = incoming.ranges.length := length_spans _ _ _
  have hranges : (respond fingerprint items incoming).reply.ranges.length ≤
      8 * incoming.ranges.length := by
    refine (respond_refines fingerprint items incoming).length_le_mul ?_
    rintro lo r part ⟨b, _, _, _, rfl⟩
    by_cases hset : RelaySettles fingerprint items lo r
    · rw [respondSpan_settled hset]
      exact (by decide : 1 ≤ 8)
    · rw [respondSpan_narrows hset]
      refine le_trans (length_narrow_le_factor fingerprint hascending.sorted lo r.upper b) ?_
      split_ifs <;> decide
  have hlisted := listedIds_le_of_few fingerprint hascending incoming.ranges.length
    incoming.spans 0 (by
      simp only [splitFactor, maxRanges]
      omega)
  have hlength := length_reconFrame_le fingerprint hgroup hascending.sorted incoming
  simp only [idlistLimit, Wire.maxFrameBytes] at *
  omega

theorem recon_fits_of_few_ranges_mixedMessage :
    (reconFrame (fun _ => fixed []) (id32 0) (denseItems 40)
      mixedMessage).encode.length ≤ Wire.maxFrameBytes :=
  recon_fits_of_few_ranges _ rfl (pairwise_map.mpr pairwise_lt_range) (by decide)

/-! ## A full message -/

/-- `MAX_ITEMS_PER_RECONCILE`. -/
def maxItemsPerReconcile : Nat := 100000

/-- The relay's items: eight blocks of as many as an id list holds. -/
def fullItems : List Item := denseItems 32768

/-- A message of `MAX_RANGES` ranges: the client names an id in each of the eight blocks,
and the rest is settled. -/
def fullMessage : Message Id :=
  ⟨(List.range 8).map (fun block => ⟨4096 * (block + 1), .idList [absent]⟩) ++
    (List.range 1015).map (fun step => ⟨32769 + step, .skip⟩) ++ [⟨infinity, .skip⟩]⟩

/-- A range of `fullMessage`: settled, or one block with the absent id. -/
def FullRange (lower : Nat) (range : Range Id) : Prop :=
  range.mode = .skip ∨
    range.mode = .idList [absent] ∧ lower + 4096 = range.upper ∧ range.upper ≤ 32768

instance (lower : Nat) (range : Range Id) : Decidable (FullRange lower range) :=
  inferInstanceAs (Decidable (_ ∨ _))

theorem covers_fullMessage : Covers Range.upper FullRange 0 fullMessage.ranges infinity :=
  covers_of_spans (by decide +kernel) (by decide +kernel)

theorem wellFormed_fullMessage : fullMessage.WellFormed := by
  have hrises := covers_fullMessage.rises (by decide)
  refine ⟨by decide +kernel, by decide +kernel, hrises.ascending, hrises.last, ?_⟩
  intro r hrange
  obtain ⟨lo, hspan⟩ := exists_mem_spans Range.upper hrange 0
  rcases (covers_fullMessage.of_mem_spans hspan).2.2.2 with hm | ⟨hm, -⟩
  · rw [hm]
    trivial
  · rw [hm]
    exact ⟨pairwise_singleton _ _, by decide⟩

variable {lower : Nat}

/-- The items of a block. -/
theorem itemsIn_fullItems (h : lower + 4096 ≤ 32768) :
    itemsIn fullItems lower (lower + 4096) = (List.range' lower 4096).map denseItem := by
  have hsort : Sorted fullItems := (ascending_denseItems 32768).sorted
  refine (eq_of_ascending ?_ (hsort.sublist (itemsIn_sublist _ _ _))
    ((ascending_denseItems 32768).nodup.sublist (itemsIn_sublist _ _ _)) ?_).symm
  · exact pairwise_map.mpr ((pairwise_lt_range' 1).imp fun h => h)
  · intro item
    rw [mem_itemsIn hsort, fullItems, denseItems, mem_map, mem_map]
    constructor
    · rintro ⟨seq, hseq, rfl⟩
      rw [mem_range'_1] at hseq
      exact ⟨⟨seq, mem_range.mpr (by omega), rfl⟩, hseq.1, hseq.2⟩
    · rintro ⟨⟨seq, -, rfl⟩, hlow, hhigh⟩
      exact ⟨seq, mem_range'_1.mpr ⟨hlow, hhigh⟩, rfl⟩

theorem id_denseItem {seq} (h : seq < 32768) : (denseItem seq).id.val = seq :=
  Nat.mod_eq_of_lt (lt_of_lt_of_le h (by decide))

/-- A block holds as many ids as an id list may, and the absent one is not among them. -/
theorem idsOf_block (h : lower + 4096 ≤ 32768) :
    (itemsIn fullItems lower (lower + 4096)).length = 4096 ∧
      (idsOf (itemsIn fullItems lower (lower + 4096))).length = 4096 ∧
      absent ∉ idsOf (itemsIn fullItems lower (lower + 4096)) := by
  rw [itemsIn_fullItems h]
  have hid : ∀ seq ∈ range' lower 4096, (denseItem seq).id.val = seq := fun seq hseq =>
    id_denseItem (by rw [mem_range'_1] at hseq; omega)
  have hnd : (((range' lower 4096).map denseItem).map (·.id)).Nodup := by
    rw [map_map]
    refine .map_on ?_ nodup_range'
    intro a ha b hb heq
    rw [← hid a ha, ← hid b hb]
    exact congrArg Fin.val heq
  refine ⟨by simp, ?_, ?_⟩
  · rw [idsOf, length_sortDedup_of_nodup hnd]
    simp
  · rw [mem_idsOf]
    rintro ⟨item, hi, heq⟩
    obtain ⟨seq, hseq, rfl⟩ := mem_map.mp hi
    have hval := hid seq hseq
    rw [heq] at hval
    rw [mem_range'_1] at hseq
    have habs : absent.val = 32768 := rfl
    omega

/-- What a range of `fullMessage` adds to the answer at least. -/
def blockWeight (range : Range Id) : Nat :=
  match range.mode with
  | .skip => 0
  | _ => 139000

theorem blockWeight_le {r} (h : FullRange lower r) :
    blockWeight r ≤ ((respondSpan fp fullItems 1 lower r).1.map Range.width).sum := by
  rcases h with hm | ⟨hm, hupper, hle⟩
  · simp [blockWeight, hm]
  · rw [← hupper] at hle
    obtain ⟨hlen, hids, habs⟩ := idsOf_block hle
    have hopen : ¬ RelaySettles fp fullItems lower r := by
      simp only [RelaySettles, hm, ← hupper]
      exact fun hall => habs (hall absent mem_cons_self)
    rw [respondSpan_narrows hopen, ← hupper, narrow, hlen,
      if_neg (by decide), splitBounded_of_le_one fp _ _ (le_refl 1), hlen,
      if_pos (by decide)]
    simp only [blockWeight, hm, map_cons, map_nil, sum_cons, sum_nil, Range.width, Mode.width, hids]
    omega

end WealdRelay.Negentropy
