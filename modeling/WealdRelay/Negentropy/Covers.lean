import WealdRelay.Negentropy.Codec

/-!
# Both roles send covers

Whatever items a role holds, sorted by sequence number, the message it opens with and the
message it answers a decoded one with are well formed, so the peer's decoder gives them
back. An answer keeps every bound of the message it answers.

The loop over the spans puts in place of each range a list whose bounds rise to that
range's (`rises_narrow`), and `Refines.rises` puts the lists together. The first span of a
message may be empty, since its bound may be zero, so a list starts above the lower bound
of its span only where the span is not.
-/

namespace WealdRelay.Negentropy

open Lib List

section Narrow

variable {F : Type} (fp : List Item → F) {xs : List Item} {lo hi : Nat}

theorem itemsIn_eq_nil (hsort : Sorted xs) (hle : hi ≤ lo) : itemsIn xs lo hi = [] := by
  rw [eq_nil_iff_forall_not_mem]
  intro item hitem
  obtain ⟨-, hlo, hhi⟩ := (mem_itemsIn hsort).mp hitem
  omega

theorem rises_narrow (hsort : Sorted xs) (lo hi b : Nat) :
    Rises Range.upper (narrow fp (itemsIn xs lo hi) hi b) hi ∧
      (lo < hi → ∀ r ∈ narrow fp (itemsIn xs lo hi) hi b, lo < r.upper) := by
  rcases lt_or_ge lo hi with hlt | hle
  · have hcover := covers_narrow fp hsort hlt b
    exact ⟨hcover.rises (narrow_ne_nil fp _ _ _), fun _ => hcover.above⟩
  · rw [itemsIn_eq_nil hsort hle]
    exact ⟨.single _, fun hlt => absurd hlt (not_lt.mpr hle)⟩

theorem wellFormed_idList (h : xs.length ≤ maxIdsPerRange) :
    (Mode.idList (idsOf xs) : Mode F).WellFormed := by
  have hlen := length_sortDedup_le (xs.map (·.id))
  rw [length_map] at hlen
  exact ⟨sortDedup_pairwise _, le_trans hlen h⟩

variable {b : Nat} {r : Range F}

theorem wellFormed_splitBounded (h : r ∈ splitBounded fp xs hi b) : r.mode.WellFormed := by
  simp only [splitBounded] at h
  split_ifs at h with hone hshort hwide
  · rw [mem_singleton.mp h]
    exact wellFormed_idList hshort
  · rw [mem_singleton.mp h]
    trivial
  · rw [mem_singleton.mp h]
    exact wellFormed_idList hwide.2.2
  · obtain ⟨v, hm⟩ := mode_of_mem_splitLoop fp hi _ h
    rw [hm]
    trivial

theorem wellFormed_narrow (h : r ∈ narrow fp xs hi b) : r.mode.WellFormed := by
  rw [narrow] at h
  split_ifs at h with hfew
  · rw [mem_singleton.mp h]
    exact wellFormed_idList (le_trans hfew (by decide))
  · exact wellFormed_splitBounded fp h

end Narrow

section Parts

variable {F : Type} (fp : List Item → F) {xs : List Item} {inc : Message F}

/-- What either role puts in place of a range: bounds that rise to it, and modes the
decoder accepts. -/
def Carries (lo : Nat) (range : Range F) (part : List (Range F)) : Prop :=
  Rises Range.upper part range.upper ∧ (lo < range.upper → ∀ piece ∈ part, lo < piece.upper) ∧
    ∀ piece ∈ part, piece.mode.WellFormed

theorem carries_skip (lo : Nat) (r : Range F) : Carries lo r [⟨r.upper, .skip⟩] := by
  refine ⟨.single (⟨r.upper, .skip⟩ : Range F), ?_, ?_⟩
  · intro hlt p hpiece
    rwa [mem_singleton.mp hpiece]
  · intro p hpiece
    rw [mem_singleton.mp hpiece]
    trivial

theorem carries_narrow (hsort : Sorted xs) (lo b : Nat) (r : Range F) :
    Carries lo r (narrow fp (itemsIn xs lo r.upper) r.upper b) := by
  obtain ⟨hrises, habove⟩ := rises_narrow fp hsort lo r.upper b
  exact ⟨hrises, habove, fun p hpiece => wellFormed_narrow fp hpiece⟩

/-- Every bound of `incoming` is a bound of `answer`. -/
def KeepsBounds (incoming answer : Message F) : Prop :=
  ∀ range ∈ incoming.ranges, ∃ piece ∈ answer.ranges, piece.upper = range.upper

/-- A refinement of a well-formed message into carried parts. -/
theorem wellFormed_of_refines {A : Nat → Range F → List (Range F) → Prop} {ans}
    (hin : inc.WellFormed) (hn : ans.ranges.length ≤ maxRanges)
    (h : Refines Range.upper A 0 inc.ranges ans.ranges)
    (hp : ∀ lo r part, A lo r part → Carries lo r part) : ans.WellFormed ∧ KeepsBounds inc ans := by
  have hrises := (h.rises hin.rises fun lo r part hA =>
    ⟨(hp lo r part hA).1, (hp lo r part hA).2.1⟩).1
  refine ⟨⟨?_, hn, hrises.ascending, hrises.last, ?_⟩, ?_⟩
  · obtain ⟨p, hpiece, -⟩ := hrises.exists_last
    exact length_pos_of_mem hpiece
  · exact h.forall_mem fun lo r part _ hA => (hp lo r part hA).2.2
  · exact h.upper_mem fun lo r part hA => (hp lo r part hA).1

end Parts

section Roles

variable {F : Type} {fp : List Item → F} {xs : List Item} {inc : Message F}
  {α : Type} {arm : Nat → Nat → Range F → List (Range F) × α}

theorem Narrows.carries (h : Narrows fp xs arm) (hsort : Sorted xs)
    (b lo : Nat) (r : Range F) : Carries lo r (arm b lo r).1 := by
  rcases h b lo r with hskip | hnarrow
  · rw [hskip]
    exact carries_skip lo r
  · rw [hnarrow]
    exact carries_narrow fp hsort lo b r

theorem Narrows.wellFormed (h : Narrows fp xs arm) (hsort : Sorted xs) (hin : inc.WellFormed) {ans}
    (hans : ans.ranges = (overSpans arm 0 inc.spans).1) : ans.WellFormed ∧ KeepsBounds inc ans := by
  refine wellFormed_of_refines hin (hans ▸ h.length_le hsort hin.count) (hans ▸ h.refines inc) ?_
  rintro lo r part ⟨b, -, -, -, rfl⟩
  exact h.carries hsort b lo r

variable (fp) [DecidableEq F]

theorem respond_wellFormed (hsort : Sorted xs) (hin : inc.WellFormed) :
    (respond fp xs inc).reply.WellFormed ∧ KeepsBounds inc (respond fp xs inc).reply :=
  (narrows_respondSpan fp xs).wellFormed hsort hin rfl

theorem advance_wellFormed (hsort : Sorted xs) (hin : inc.WellFormed)
    {msg} (h : (advance fp xs inc).reply = some msg) : msg.WellFormed ∧ KeepsBounds inc msg :=
  (narrows_advanceSpan fp xs).wellFormed hsort hin (eq_of_advance_reply h)

end Roles

/-- The opening message covers what the client holds. -/
theorem initiate_wellFormed {F : Type} (fp : List Item → F) {xs}
    (hsort : Sorted xs) (hseq : ∀ item ∈ xs, item.seq < infinity) :
    (initiate fp xs).WellFormed := by
  rw [initiate]
  split_ifs with hfew
  · refine ⟨le_refl 1, by simp [maxRanges], pairwise_singleton _ _, rfl, ?_⟩
    intro r hrange
    rw [mem_singleton.mp hrange]
    exact wellFormed_idList (le_trans hfew (by decide))
  · have hne : xs ≠ [] := by
      rintro rfl
      exact hfew (Nat.zero_le _)
    have hall : itemsIn xs 0 infinity = xs :=
      itemsIn_eq_self hsort fun item hi => ⟨Nat.zero_le _, hseq item hi⟩
    have hcover := covers_splitBounded fp hsort (show 0 < infinity by decide)
      (hall.symm ▸ hne) splitFactor
    rw [hall] at hcover
    have hran := splitBounded_ne_nil fp hne infinity splitFactor
    have hrises := hcover.rises hran
    have hlen := length_splitBounded_le fp hsort infinity splitFactor
    refine ⟨?_, le_trans hlen (by decide), hrises.ascending, hrises.last, ?_⟩
    · exact length_pos_iff.mpr hran
    · intro r hrange
      have hmem : r ∈ splitBounded fp xs infinity splitFactor := hrange
      exact wellFormed_splitBounded fp hmem

/-- A message the peer's decoder gives back. -/
def Delivered (message : Message Id) : Prop :=
  message.WellFormed ∧ Message.decode message.encode = .ok message

theorem delivered_of_wellFormed {msg} (h : msg.WellFormed) : Delivered msg :=
  ⟨h, Message.decode_encode h⟩

/-- Whatever a role holds, what it opens with and what it answers a decoded message with is
a cover the peer reads back, and an answer keeps every bound of what it answers. -/
theorem roles_send_covers
    (fingerprint : List Item → Id)
    {items : List Item}
    (hsorted : Sorted items)
    (hseq : ∀ item ∈ items, item.seq < infinity)
    {payload : Bytes}
    {incoming : Message Id}
    (hin : Message.decode payload = .ok incoming) :
    Delivered (initiate fingerprint items) ∧ (Delivered (respond fingerprint items incoming).reply ∧
        KeepsBounds incoming (respond fingerprint items incoming).reply) ∧
      ∀ message, (advance fingerprint items incoming).reply = some message →
        Delivered message ∧ KeepsBounds incoming message := by
  have hformed := (wellFormed_of_decode hin).1
  refine ⟨delivered_of_wellFormed (initiate_wellFormed fingerprint hsorted hseq), ?_, ?_⟩
  · obtain ⟨hreply, hkeeps⟩ := respond_wellFormed fingerprint hsorted hformed
    exact ⟨delivered_of_wellFormed hreply, hkeeps⟩
  · intro message hmessage
    obtain ⟨hreply, hkeeps⟩ := advance_wellFormed fingerprint hsorted hformed hmessage
    exact ⟨delivered_of_wellFormed hreply, hkeeps⟩

/-- The items with the first sequence numbers. -/
def denseItems (count : Nat) : List Item := (List.range count).map denseItem

theorem ascending_denseItems (count : Nat) : Ascending (denseItems count) :=
  pairwise_map.mpr (pairwise_lt_range.imp fun h => h)

theorem roles_send_covers_mixedMessage : ∃ message,
    (advance (fun _ => fixed []) (denseItems 40) mixedMessage).reply = some message ∧
      Delivered message ∧ KeepsBounds mixedMessage message ∧
      Delivered (initiate (fun _ => fixed []) (denseItems 40)) ∧
      Delivered (respond (fun _ => fixed []) (denseItems 40) mixedMessage).reply ∧
      KeepsBounds mixedMessage
        (respond (fun _ => fixed []) (denseItems 40) mixedMessage).reply := by
  obtain ⟨hinitiate, ⟨hrespond, hbounds⟩, hadvance⟩ := roles_send_covers (fun _ => fixed [])
    (ascending_denseItems 40).sorted (by decide +kernel) decode_mixedMessage
  obtain ⟨message, hmessage⟩ := Option.isSome_iff_exists.mp
    (show (advance (fun _ => fixed []) (denseItems 40) mixedMessage).reply.isSome by decide +kernel)
  obtain ⟨hdelivered, hkeeps⟩ := hadvance message hmessage
  exact ⟨message, hmessage, hdelivered, hkeeps, hinitiate, hrespond, hbounds⟩

end WealdRelay.Negentropy
