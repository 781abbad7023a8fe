import Mathlib.Data.Finset.SymmDiff
import Mathlib.Data.Finset.Card
import WealdRelay.Lib.Run
import WealdRelay.Negentropy.Reconcile

/-!
# The exchange

A client drives rounds against a relay until it has nothing left to say, as the frames
of one socket order them: the relay answers a message, its pushes reach the client before
the answer does, the client's sends are numbered by the relay and renumbered by the client
before it answers, and its next message describes what it holds then.

The sides are item lists, as the functions of a round take them. `WellHeld` is what the
exchange assumes of a relay's and a client's list and keeps, and `Sound` adds that the
message on its way covers the sequence space and tells the truth about both
(`sound_round`). Along the way every transfer is one of an id that only one side has
(`difference_round`).
-/

namespace WealdRelay.Negentropy

open Lib List

/-! ### The model -/

/-- A side takes an item whose id it does not hold yet, and stays sorted. -/
def insert (held : List Item) (item : Item) : List Item :=
  if held.any (fun other => other.id == item.id) then held
  else (held ++ [item]).insertionSort (· ≤ ·)

/-- The item a side holds under an id. -/
def find (held : List Item) (id : Id) : Option Item :=
  held.find? (fun item => item.id == id)

/-- The client takes the pushed envelopes, at the relay's sequence numbers. -/
def applyPushes (relay client : List Item) (push : List Id) : List Item :=
  push.foldl (fun client id =>
    match find relay id with
    | some item => insert client item
    | none => client) client

/-- The highest sequence number assigned so far. -/
def maxSeq (held : List Item) : Nat := held.foldl (fun top item => max top item.seq) 0

/-- What the relay and the client hold. -/
structure Sides where
  relay : List Item
  client : List Item
  deriving DecidableEq

/-- One `SEND`: the relay numbers the envelope, and the client renumbers it. -/
def sendOne (sides : Sides) (id : Id) : Sides :=
  let item : Item := ⟨maxSeq sides.relay + 1, id⟩
  { relay := insert sides.relay item
    client := insert (sides.client.filter (fun held => held.id ≠ id)) item }

def applySends (sides : Sides) (send : List Id) : Sides := send.foldl sendOne sides

/-- The sides, the client's message, which is absent once it has nothing left to say, and
the transfers so far. -/
structure Exchange (F : Type) where
  sides : Sides
  message : Option (Message F)
  moved : Nat
  deriving DecidableEq

section Driver

variable {F : Type} [DecidableEq F] (fingerprint : List Item → F)

/-- What the client holds once the pushes of a round have arrived. -/
def received (sides : Sides) (message : Message F) : List Item :=
  applyPushes sides.relay sides.client (respond fingerprint sides.relay message).push

/-- What the client sends on the relay's answer. -/
def sends (sides : Sides) (message : Message F) : List Id :=
  (advance fingerprint (received fingerprint sides message)
    (respond fingerprint sides.relay message).reply).send

/-- The sides at the end of a round. -/
def exchanged (sides : Sides) (message : Message F) : Sides :=
  applySends ⟨sides.relay, received fingerprint sides message⟩ (sends fingerprint sides message)

/-- What the client says at the end of a round. -/
def nextMessage (sides : Sides) (message : Message F) : Option (Message F) :=
  (advance fingerprint (exchanged fingerprint sides message).client
    (respond fingerprint sides.relay message).reply).reply

/-- One round. The client answers from what it holds after its sends; with nothing to
send, that answer is the one that told it so. -/
def round (exchange : Exchange F) : Exchange F :=
  match exchange.message with
  | none => exchange
  | some message =>
    let response := respond fingerprint exchange.sides.relay message
    let after := exchanged fingerprint exchange.sides message
    { sides := after
      message := (advance fingerprint after.client response.reply).reply
      moved := exchange.moved + response.push.length +
        (sends fingerprint exchange.sides message).length }

/-- The exchange before its first round. -/
def opening (sides : Sides) : Exchange F := ⟨sides, some (initiate fingerprint sides.client), 0⟩

/-- The exchange after some rounds. -/
def rounds (sides : Sides) (n : Nat) : Exchange F :=
  (round fingerprint)^[n] (opening fingerprint sides)

end Driver

/-! ### Transfers -/

section Transfers

variable {held r cl : List Item} {item : Item} {id : Id}

theorem insert_of_new (h : item.id ∉ held.map (·.id)) :
    insert held item = (held ++ [item]).insertionSort (· ≤ ·) := by
  rw [insert, if_neg]
  intro hany
  obtain ⟨x, ho, heq⟩ := any_eq_true.mp hany
  exact h (mem_map.mpr ⟨x, ho, beq_iff_eq.mp heq⟩)

/-- A list with one more item, whose id it does not hold. -/
theorem insert_spec (item : Item) (h : item.id ∉ held.map (·.id)) (hids : (held.map (·.id)).Nodup) :
    (∀ x, x ∈ insert held item ↔ x ∈ held ∨ x = item) ∧
      Sorted (insert held item) ∧ ((insert held item).map (·.id)).Nodup := by
  have hperm := perm_insertionSort (· ≤ ·) (held ++ [item])
  rw [insert_of_new h]
  refine ⟨?_, ?_, ?_⟩
  · intro x
    simp
  · exact (pairwise_insertionSort (· ≤ ·) _).imp Item.seq_le_of_le
  · rw [(hperm.map _).nodup_iff, map_append, nodup_append]
    refine ⟨hids, by simp, ?_⟩
    rintro a ha b hb rfl
    rw [map_singleton, mem_singleton] at hb
    exact h (hb ▸ ha)

theorem find_eq_some (hids : (r.map (·.id)).Nodup) (hi : item ∈ r) :
    find r item.id = some item := by
  cases hfind : find r item.id with
  | none =>
    have hnone := find?_eq_none.mp hfind item hi
    simp at hnone
  | some x =>
    have ho := mem_of_find?_eq_some hfind
    have hid := find?_some hfind
    rw [inj_on_of_nodup_map hids ho hi (beq_iff_eq.mp hid)]

/-- Ids that the giver holds and the taker does not, each once. -/
structure Missing (giver taker : List Item) (ids : List Id) : Prop where
  nodup : ids.Nodup
  held : ∀ id ∈ ids, id ∈ giver.map (·.id)
  absent : ∀ id ∈ ids, id ∉ taker.map (·.id)

/-- The client's items after the pushes. -/
structure Pushed (relay client : List Item) (push : List Id) (after : List Item) : Prop where
  mem : ∀ item, item ∈ after ↔ item ∈ client ∨ item ∈ relay ∧ item.id ∈ push
  sorted : Sorted after
  ids : (after.map (·.id)).Nodup

theorem pushed_applyPushes {push} (hrelay : (r.map (·.id)).Nodup)
    (hsort : Sorted cl) (hids : (cl.map (·.id)).Nodup) (hmissing : Missing r cl push) :
    Pushed r cl push (applyPushes r cl push) := by
  obtain ⟨hpush, hheld, hnew⟩ := hmissing
  induction push generalizing cl with
  | nil => exact ⟨by simp [applyPushes], hsort, hids⟩
  | cons id rest ih =>
    obtain ⟨item, hi, hid⟩ := mem_map.mp (hheld id mem_cons_self)
    have hfind : find r id = some item := hid ▸ find_eq_some hrelay hi
    obtain ⟨hmem, hsorted', hids'⟩ :=
      insert_spec item (hid.symm ▸ hnew id mem_cons_self) hids
    obtain ⟨hid_rest, hr⟩ := nodup_cons.mp hpush
    have hnext : Pushed r (insert cl item) rest (applyPushes r (insert cl item) rest) := by
      refine ih hsorted' hids' hr (fun x ho => hheld x (mem_cons_of_mem _ ho)) ?_
      intro x ho hin
      obtain ⟨holder, hholder, heq⟩ := mem_map.mp hin
      rcases (hmem holder).mp hholder with hold | rfl
      · exact hnew x (mem_cons_of_mem _ ho) (mem_map.mpr ⟨holder, hold, heq⟩)
      · exact hid_rest (hid ▸ heq ▸ ho)
    have hs : applyPushes r cl (id :: rest) = applyPushes r (insert cl item) rest := by
      simp only [applyPushes, foldl_cons, hfind]
    rw [hs]
    refine ⟨?_, hnext.sorted, hnext.ids⟩
    intro x
    rw [hnext.mem, hmem, mem_cons, or_assoc]
    refine or_congr .rfl ?_
    constructor
    · rintro (rfl | ⟨ho, hin⟩)
      · exact ⟨hi, .inl hid⟩
      · exact ⟨ho, .inr hin⟩
    · rintro ⟨ho, heq | hin⟩
      · exact .inl (inj_on_of_nodup_map hrelay ho hi (heq.trans hid.symm))
      · exact .inr ⟨ho, hin⟩

theorem foldl_maxSeq (held : List Item) :
    ∀ top, top ≤ held.foldl (fun top item => max top item.seq) top ∧
      ∀ item ∈ held, item.seq ≤ held.foldl (fun top item => max top item.seq) top := by
  induction held with
  | nil => intro top; simp
  | cons first rest ih =>
    intro top
    obtain ⟨htop, hr⟩ := ih (max top first.seq)
    refine ⟨le_trans (le_max_left _ _) htop, ?_⟩
    intro item hi
    rcases mem_cons.mp hi with rfl | hi
    · exact le_trans (le_max_right _ _) htop
    · exact hr item hi

theorem le_maxSeq (hi : item ∈ held) : item.seq ≤ maxSeq held :=
  (foldl_maxSeq held 0).2 item hi

theorem maxSeq_append_of_lt (h : maxSeq held < item.seq) : maxSeq (held ++ [item]) = item.seq := by
  simp only [maxSeq, foldl_append, foldl_cons, foldl_nil]
  exact max_eq_right (le_of_lt h)

/-- A new highest sequence number goes to the end of the list. -/
theorem insert_last (item : Item) (hasc : Ascending held) (hid : item.id ∉ held.map (·.id))
    (hseq : maxSeq held < item.seq) :
    insert held item = held ++ [item] ∧ Ascending (held ++ [item]) := by
  have hlast : Ascending (held ++ [item]) :=
    pairwise_snoc hasc fun a ha => lt_of_le_of_lt (le_maxSeq ha) hseq
  refine ⟨?_, hlast⟩
  rw [insert_of_new hid]
  refine List.Pairwise.insertionSort_eq (hlast.imp ?_)
  intro a b hlt
  exact le_of_lt (Prod.Lex.lt_iff.mpr (.inl hlt) : a.key < b.key)

/-- The sides after some sends: the relay has the sent envelopes as new items at its end,
and the client has those items in place of its own. -/
structure Sent (relay client : List Item) (send : List Id) (new : List Item) (after : Sides) :
    Prop where
  appended : after.relay = relay ++ new
  ascending : Ascending after.relay
  mem : ∀ item, item ∈ after.client ↔ item ∈ new ∨ item ∈ client ∧ item.id ∉ send
  sorted : Sorted after.client
  ids : (after.client.map (·.id)).Nodup
  sent : new.map (·.id) = send
  top : maxSeq after.relay ≤ maxSeq relay + send.length

theorem sent_applySends {send} (hrelay : Ascending r) (hsort : Sorted cl)
    (hids : (cl.map (·.id)).Nodup) (hsend : send.Nodup) (hnew : ∀ id ∈ send, id ∉ r.map (·.id)) :
    ∃ new, Sent r cl send new (applySends ⟨r, cl⟩ send) := by
  induction send generalizing r cl with
  | nil =>
    exact ⟨[], by simp [applySends], hrelay, by simp [applySends], hsort, hids, rfl, le_refl _⟩
  | cons id rest ih =>
    obtain ⟨hid_rest, hr⟩ := nodup_cons.mp hsend
    obtain ⟨hinsert, hasc⟩ := insert_last ⟨maxSeq r + 1, id⟩ hrelay
      (hnew id mem_cons_self) (Nat.lt_succ_self _)
    have hk : ((cl.filter (·.id ≠ id)).map (·.id)).Nodup :=
      hids.sublist (filter_sublist.map _)
    have hgone : id ∉ (cl.filter (·.id ≠ id)).map (·.id) := by
      simp
    obtain ⟨hmem, hsorted', hids'⟩ := insert_spec ⟨maxSeq r + 1, id⟩ hgone hk
    obtain ⟨new, hsent⟩ := ih hasc hsorted' hids' hr (by
      intro x ho hin
      rw [map_append, mem_append] at hin
      rcases hin with hin | hin
      · exact hnew x (mem_cons_of_mem _ ho) hin
      · rw [map_singleton, mem_singleton] at hin
        subst hin
        exact hid_rest ho)
    have hs : applySends ⟨r, cl⟩ (id :: rest) = applySends ⟨r ++ [⟨maxSeq r + 1, id⟩],
          insert (cl.filter (·.id ≠ id)) ⟨maxSeq r + 1, id⟩⟩ rest := by
      simp only [applySends, foldl_cons, sendOne, hinsert]
    have htop : maxSeq (r ++ [⟨maxSeq r + 1, id⟩]) = maxSeq r + 1 :=
      maxSeq_append_of_lt (Nat.lt_succ_self _)
    rw [hs]
    refine ⟨⟨maxSeq r + 1, id⟩ :: new, ?_, hsent.ascending, ?_, hsent.sorted, hsent.ids, ?_, ?_⟩
    · rw [hsent.appended, append_assoc]
      rfl
    · intro item
      rw [hsent.mem, hmem, mem_cons, mem_filter, decide_eq_true_iff, mem_cons]
      constructor
      · rintro (hin | ⟨⟨hin, hne⟩ | rfl, hnot⟩)
        · exact .inl (.inr hin)
        · exact .inr ⟨hin, fun h => h.elim hne hnot⟩
        · exact .inl (.inl rfl)
      · rintro ((rfl | hin) | ⟨hin, hnot⟩)
        · exact .inr ⟨.inr rfl, hid_rest⟩
        · exact .inl hin
        · exact .inr ⟨.inl ⟨hin, fun h => hnot (.inl h)⟩, fun h => hnot (.inr h)⟩
    · rw [map_cons, hsent.sent]
    · have hlater := hsent.top
      rw [htop] at hlater
      rw [length_cons]
      omega

end Transfers

/-! ### The sides -/

/-- The ids a side holds. -/
def idSet (held : List Item) : Finset Id := (held.map (·.id)).toFinset

/-- How many ids only one side holds. -/
def difference (relay client : List Item) : Nat :=
  (symmDiff (idSet relay) (idSet client)).card

/-- What an exchange keeps of the two sides. The last field leaves the relay sequence
numbers for what it may still be sent. -/
structure WellHeld (relay client : List Item) : Prop where
  ascending : Ascending relay
  sorted : Sorted client
  relayIds : (relay.map (·.id)).Nodup
  clientIds : (client.map (·.id)).Nodup
  shared : ∀ a ∈ relay, ∀ b ∈ client, a.id = b.id → a = b
  bounded : ∀ item ∈ client, item.seq < infinity
  room : maxSeq relay + difference relay client < infinity

section Sides

variable {r cl t : List Item} {push send : List Id} {new : List Item} {s : Sides}

@[simp] theorem mem_idSet {held id} : id ∈ idSet held ↔ ∃ item ∈ held, item.id = id := by
  simp [idSet]

/-- Ids that reach the side they are missing from are no longer in the difference. -/
theorem card_symmDiff_union {α : Type} [DecidableEq α] {giver taker moved : Finset α}
    (hheld : moved ⊆ giver) (habs : ∀ x ∈ moved, x ∉ taker) :
    (symmDiff giver (taker ∪ moved)).card + moved.card = (symmDiff giver taker).card := by
  have heq : symmDiff giver (taker ∪ moved) = symmDiff giver taker \ moved := by
    ext x
    by_cases hx : x ∈ moved
    · simp [Finset.mem_symmDiff, hx, hheld hx]
    · simp [Finset.mem_symmDiff, hx]
  rw [heq]
  refine Finset.card_sdiff_add_card_eq_card ?_
  intro x hx
  exact Finset.mem_symmDiff.mpr (.inl ⟨hheld hx, habs x hx⟩)

theorem Missing.card {giver taker : List Item} {ids : List Id} (h : Missing giver taker ids) :
    (symmDiff (idSet giver) (idSet taker ∪ ids.toFinset)).card + ids.length =
      (symmDiff (idSet giver) (idSet taker)).card := by
  rw [← toFinset_card_of_nodup h.nodup]
  refine card_symmDiff_union ?_ ?_
  · intro id hid
    exact mem_toFinset.mpr (h.held id (mem_toFinset.mp hid))
  · intro id hid hin
    exact h.absent id (mem_toFinset.mp hid) (mem_toFinset.mp hin)

section Pushed

variable (hmissing : Missing r cl push) (hpushed : Pushed r cl push t)
include hmissing hpushed

theorem idSet_pushed : idSet t = idSet cl ∪ push.toFinset := by
  ext id
  simp only [mem_idSet, Finset.mem_union, mem_toFinset, hpushed.mem]
  constructor
  · rintro ⟨item, hi | ⟨-, hin⟩, rfl⟩
    · exact .inl ⟨item, hi, rfl⟩
    · exact .inr hin
  · rintro (⟨item, hi, rfl⟩ | hin)
    · exact ⟨item, .inl hi, rfl⟩
    · obtain ⟨item, hi, rfl⟩ := mem_map.mp (hmissing.held id hin)
      exact ⟨item, .inr ⟨hi, hin⟩, rfl⟩

theorem difference_pushed : difference r t + push.length = difference r cl := by
  rw [difference, idSet_pushed hmissing hpushed]
  exact hmissing.card

theorem WellHeld.pushed (h : WellHeld r cl) : WellHeld r t where
  ascending := h.ascending
  sorted := hpushed.sorted
  relayIds := h.relayIds
  clientIds := hpushed.ids
  shared := by
    intro a ha b hb heq
    rcases (hpushed.mem b).mp hb with hb | ⟨hb, -⟩
    · exact h.shared a ha b hb heq
    · exact inj_on_of_nodup_map h.relayIds ha hb heq
  bounded := by
    intro item hi
    rcases (hpushed.mem item).mp hi with hi | ⟨hi, -⟩
    · exact h.bounded item hi
    · have htop := le_maxSeq hi
      have hroom := h.room
      omega
  room := by
    have hdiff := difference_pushed hmissing hpushed
    have hroom := h.room
    omega

end Pushed

variable {item : Item} (hmissing : Missing cl r send)
  (hsent : Sent r cl send new s)
include hsent

theorem Sent.mem_relay : item ∈ s.relay ↔ item ∈ r ∨ item ∈ new := by
  rw [hsent.appended, mem_append]

theorem Sent.id_mem (h : item ∈ new) : item.id ∈ send := by
  rw [← hsent.sent]
  exact mem_map.mpr ⟨item, h, rfl⟩

theorem idSet_relay_sent : idSet s.relay = idSet r ∪ send.toFinset := by
  rw [idSet, hsent.appended, map_append, hsent.sent, toFinset_append]
  rfl

include hmissing

theorem idSet_client_sent : idSet s.client = idSet cl := by
  ext id
  simp only [mem_idSet, hsent.mem]
  constructor
  · rintro ⟨item, hi | ⟨hi, -⟩, rfl⟩
    · exact mem_map.mp (hmissing.held _ (hsent.id_mem hi))
    · exact ⟨item, hi, rfl⟩
  · rintro ⟨item, hi, rfl⟩
    by_cases hin : item.id ∈ send
    · have hnew := hin
      rw [← hsent.sent] at hnew
      obtain ⟨fresh, hfresh, heq⟩ := mem_map.mp hnew
      exact ⟨fresh, .inl hfresh, heq⟩
    · exact ⟨item, .inr ⟨hi, hin⟩, rfl⟩

theorem difference_sent : difference s.relay s.client + send.length = difference r cl := by
  rw [difference, difference, idSet_relay_sent hsent, idSet_client_sent hmissing hsent,
    symmDiff_comm, symmDiff_comm (idSet r)]
  exact hmissing.card

theorem Sent.relayIds (h : (r.map (·.id)).Nodup) : (s.relay.map (·.id)).Nodup := by
  rw [hsent.appended, map_append, hsent.sent, nodup_append]
  refine ⟨h, hmissing.nodup, ?_⟩
  rintro id hid x ho rfl
  exact hmissing.absent id ho hid

theorem WellHeld.sent (h : WellHeld r cl) : WellHeld s.relay s.client where
  ascending := hsent.ascending
  sorted := hsent.sorted
  relayIds := hsent.relayIds hmissing h.relayIds
  clientIds := hsent.ids
  shared := by
    intro a ha b hb heq
    rcases (hsent.mem b).mp hb with hb | ⟨hb, hk⟩
    · -- The relay has the new item too, and holds an id once.
      exact inj_on_of_nodup_map (hsent.relayIds hmissing h.relayIds) ha
        (hsent.mem_relay.mpr (.inr hb)) heq
    · rcases hsent.mem_relay.mp ha with ha | ha
      · exact h.shared a ha b hb heq
      · exact absurd (heq ▸ hsent.id_mem ha) hk
  bounded := by
    intro item hi
    rcases (hsent.mem item).mp hi with hi | ⟨hi, -⟩
    · have htop := le_maxSeq (hsent.mem_relay.mpr (.inr hi))
      have hmax := hsent.top
      have hroom := h.room
      have hdiff := difference_sent hmissing hsent
      omega
    · exact h.bounded item hi
  room := by
    have hmax := hsent.top
    have hroom := h.room
    have hdiff := difference_sent hmissing hsent
    omega

end Sides

/-! ### Messages -/

/-- A range is settled where the sides agree, or tells what its sender holds. -/
def Says {F : Type} (fingerprint : List Item → F) (sender other : List Item) (lo : Nat)
    (range : Range F) : Prop :=
  range.mode = .skip ∧ Agree sender other lo range.upper ∨ Describes fingerprint sender lo range

section Messages

variable {F : Type} {fp : List Item → F} {relay cl t : List Item}
  {push send : List Id} {new : List Item} {s : Sides} {lo : Nat} {r : Range F}
  {tx x : List Item}

theorem says_skip (hm : r.mode = .skip) : Says fp tx x lo r ↔ Agree tx x lo r.upper := by
  simp [Says, Describes, hm]

theorem says_fingerprint {v} (hm : r.mode = .fingerprint v) :
    Says fp tx x lo r ↔ v = fp (itemsIn tx lo r.upper) := by
  simp [Says, Describes, hm]

theorem says_idList {ids} (hm : r.mode = .idList ids) :
    Says fp tx x lo r ↔ ids = idsOf (itemsIn tx lo r.upper) := by
  simp [Says, Describes, hm]

/-- An id that a list of the other side leaves out is one the other side does not hold. -/
theorem absent_of_unnamed {holder} (hholder : Sorted holder) (ho : Sorted x)
    (hshared : ∀ a ∈ holder, ∀ b ∈ x, a.id = b.id → a = b)
    (htold : Says fp x holder lo r) {id} (h : id ∈ unnamed holder lo r) :
    id ∈ holder.map (·.id) ∧ id ∉ x.map (·.id) := by
  obtain ⟨theirs, hm, hnot, item, hi, hlo, hhi, rfl⟩ := (mem_unnamed hholder).mp h
  refine ⟨mem_map.mpr ⟨item, hi, rfl⟩, ?_⟩
  intro hin
  obtain ⟨held, hheld, heq⟩ := mem_map.mp hin
  have hsame := hshared item hi held hheld heq.symm
  subst hsame
  rw [(says_idList hm).mp htold, mem_idsOf] at hnot
  exact hnot ⟨item, (mem_itemsIn ho).mpr ⟨hheld, hlo, hhi⟩, rfl⟩

theorem Agree.pushed (h : Agree relay cl lo r.upper)
    (hpushed : Pushed relay cl push t) : Agree relay t lo r.upper := by
  intro item hlo hhi
  rw [hpushed.mem]
  constructor
  · intro hi
    exact .inl ((h item hlo hhi).mp hi)
  · rintro (hi | ⟨hi, -⟩)
    · exact (h item hlo hhi).mpr hi
    · exact hi

/-- What the relay settles, the sides agree on once the pushes have arrived. -/
theorem agree_of_relaySettles (hinj : Function.Injective fp)
    (h : WellHeld relay cl) (hpushed : Pushed relay cl push t)
    (hnamed : ∀ id ∈ unnamed relay lo r, id ∈ push) (htold : Says fp cl relay lo r)
    (hset : RelaySettles fp relay lo r) : Agree relay t lo r.upper := by
  cases hm : r.mode with
  | skip => exact ((says_skip hm).mp htold).symm.pushed hpushed
  | fingerprint v =>
    simp only [RelaySettles, hm] at hset
    have hsame := hinj (hset.trans ((says_fingerprint hm).mp htold))
    exact (agree_of_itemsIn_eq h.ascending.sorted h.sorted hsame).pushed hpushed
  | idList theirs =>
    have htheirs := (says_idList hm).mp htold
    simp only [RelaySettles, hm, mem_idsOf, mem_itemsIn h.ascending.sorted] at hset
    intro item hlo hhi
    rw [hpushed.mem]
    constructor
    · intro hi
      by_cases hin : item.id ∈ theirs
      · rw [htheirs, mem_idsOf] at hin
        obtain ⟨held, hheld, heq⟩ := hin
        have hclient := ((mem_itemsIn h.sorted).mp hheld).1
        exact .inl (h.shared item hi held hclient heq.symm ▸ hclient)
      · refine .inr ⟨hi, hnamed _ ?_⟩
        exact (mem_unnamed h.ascending.sorted).mpr ⟨theirs, hm, hin, item, hi, hlo, hhi, rfl⟩
    · rintro (hi | ⟨hi, -⟩)
      · have hin : item.id ∈ theirs := by
          rw [htheirs, mem_idsOf]
          exact ⟨item, (mem_itemsIn h.sorted).mpr ⟨hi, hlo, hhi⟩, rfl⟩
        obtain ⟨held, ⟨hrelay, -⟩, heq⟩ := hset item.id hin
        exact h.shared held hrelay item hi heq ▸ hrelay
      · exact hi

/-- What the client settles after its sends, the sides agree on. -/
theorem agree_of_clientSettles (hinj : Function.Injective fp)
    (h : WellHeld relay cl) (hmissing : Missing cl relay send)
    (hsent : Sent relay cl send new s) (htold : Says fp relay cl lo r)
    (hset : ClientSettles fp s.client lo r) : Agree s.client s.relay lo r.upper := by
  have ha := h.sent hmissing hsent
  intro item hlo hhi
  rw [hsent.mem_relay]
  -- A new item is on both sides, and an old one of the relay was never sent.
  suffices hold : item ∉ new → (item ∈ s.client ↔ item ∈ relay) by
    by_cases hnew : item ∈ new
    · exact ⟨fun _ => .inr hnew, fun _ => (hsent.mem item).mpr (.inl hnew)⟩
    · rw [hold hnew]
      exact ⟨.inl, fun hi => hi.resolve_right hnew⟩
  intro hnew
  cases hm : r.mode with
  | skip =>
    have hagree := (says_skip hm).mp htold
    rw [hsent.mem, ← hagree item hlo hhi]
    constructor
    · rintro (hi | ⟨hi, -⟩)
      · exact absurd hi hnew
      · exact hi
    · intro hi
      refine .inr ⟨hi, fun hin => hmissing.absent _ hin ?_⟩
      exact mem_map.mpr ⟨item, hi, rfl⟩
  | fingerprint v =>
    simp only [ClientSettles, hm] at hset
    have hsame := hinj (hset.trans ((says_fingerprint hm).mp htold))
    exact agree_of_itemsIn_eq ha.sorted h.ascending.sorted hsame item hlo hhi
  | idList theirs =>
    simp only [ClientSettles, hm, (says_idList hm).mp htold, mem_idsOf,
      mem_itemsIn ha.sorted, mem_itemsIn h.ascending.sorted] at hset
    constructor
    · intro hi
      obtain ⟨held, ⟨hrelay, -⟩, heq⟩ := (hset item.id).mp ⟨item, ⟨hi, hlo, hhi⟩, rfl⟩
      exact ha.shared held (hsent.mem_relay.mpr (.inl hrelay)) item hi heq ▸ hrelay
    · intro hi
      obtain ⟨held, ⟨hclient, -⟩, heq⟩ := (hset item.id).mpr ⟨item, ⟨hi, hlo, hhi⟩, rfl⟩
      exact ha.shared item (hsent.mem_relay.mpr (.inl hi)) held hclient heq.symm ▸ hclient

end Messages

/-! ### A round -/

/-- The message covers the sequence space and says the truth about well held sides. -/
structure Sound {F : Type} (fingerprint : List Item → F) (sides : Sides) (message : Message F) :
    Prop where
  held : WellHeld sides.relay sides.client
  cover : Covers Range.upper (Says fingerprint sides.client sides.relay) 0 message.ranges infinity
  length : message.ranges.length ≤ maxRanges

variable {F : Type} (fp : List Item → F)

theorem initiate_ranges (xs : List Item) :
    (initiate fp xs).ranges = narrow fp xs infinity splitFactor := by
  simp only [initiate, narrow, split]
  split <;> rfl

theorem sound_opening {s} (h : WellHeld s.relay s.client) : Sound fp s (initiate fp s.client) := by
  have hall : itemsIn s.client 0 infinity = s.client :=
    itemsIn_eq_self h.sorted (fun item hi => ⟨Nat.zero_le _, h.bounded item hi⟩)
  have hcover := (covers_narrow fp h.sorted (by decide : 0 < infinity) splitFactor).mono
    (fun l r _ hdescribes =>
      (.inr hdescribes : Says fp s.client s.relay l r))
  have hlen := length_narrow_le fp h.sorted infinity splitFactor
  rw [hall] at hcover
  refine ⟨h, ?_, ?_⟩
  · rw [initiate_ranges]
    exact hcover
  · rw [initiate_ranges]
    exact le_trans hlen (by decide)

section Rounds

variable {F : Type} [DecidableEq F] {fp : List Item → F} {s : Sides}
  {msg : Message F}

/-- What a round moves, and what holds between its steps. -/
structure Transfers (fingerprint : List Item → F) (sides : Sides) (message : Message F)
    (new : List Item) : Prop where
  push : Missing sides.relay sides.client (respond fingerprint sides.relay message).push
  pushed : Pushed sides.relay sides.client (respond fingerprint sides.relay message).push
    (received fingerprint sides message)
  between : WellHeld sides.relay (received fingerprint sides message)
  answer : Covers Range.upper (Says fingerprint sides.relay (received fingerprint sides message))
    0 (respond fingerprint sides.relay message).reply.ranges infinity
  send : Missing (received fingerprint sides message) sides.relay (sends fingerprint sides message)
  sent : Sent sides.relay (received fingerprint sides message) (sends fingerprint sides message)
    new (exchanged fingerprint sides message)
  after : WellHeld (exchanged fingerprint sides message).relay
    (exchanged fingerprint sides message).client

theorem Sound.push_missing (h : Sound fp s msg) :
    Missing s.relay s.client (respond fp s.relay msg).push := by
  have honly : ∀ id ∈ (respond fp s.relay msg).push,
      id ∈ s.relay.map (·.id) ∧ id ∉ s.client.map (·.id) := by
    intro id hid
    obtain ⟨lo, r, hspan, hunnamed⟩ := mem_push.mp hid
    exact absent_of_unnamed h.held.ascending.sorted h.held.sorted h.held.shared
      (h.cover.of_mem_spans hspan).2.2.2 hunnamed
  exact ⟨sortDedup_nodup _, fun id hid => (honly id hid).1, fun id hid => (honly id hid).2⟩

variable (hinj : Function.Injective fp) (h : Sound fp s msg)
include hinj h

theorem Sound.answer (hpushed : Pushed s.relay s.client (respond fp s.relay msg).push
      (received fp s msg)) :
    Covers Range.upper (Says fp s.relay (received fp s msg)) 0
      (respond fp s.relay msg).reply.ranges infinity := by
  have hspans : Covers Range.upper (fun lo r =>
      Says fp s.client s.relay lo r ∧ ∀ id ∈ unnamed s.relay lo r,
          id ∈ (respond fp s.relay msg).push) 0 msg.ranges infinity :=
    h.cover.of_spans (fun lo r hspan htold =>
      ⟨htold, fun id hid => mem_push.mpr ⟨lo, r, hspan, hid⟩⟩)
  refine (respond_refines fp s.relay msg).covers hspans ?_
  rintro lo r part hlt ⟨htold, hnamed⟩ ⟨b, -, -, -, rfl⟩
  by_cases hset : RelaySettles fp s.relay lo r
  · rw [respondSpan_settled hset]
    have hagree := agree_of_relaySettles hinj h.held hpushed hnamed htold hset
    exact Covers.single hlt (.inl ⟨rfl, hagree⟩)
  · rw [respondSpan_narrows hset]
    exact (covers_narrow fp h.held.ascending.sorted hlt b).mono
      (fun _ _ _ hdescribes => .inr hdescribes)

theorem Sound.transfers : ∃ new, Transfers fp s msg new := by
  have hpush := h.push_missing
  have hpushed := pushed_applyPushes h.held.relayIds h.held.sorted h.held.clientIds hpush
  have hbetween := h.held.pushed hpush hpushed
  have hans := h.answer hinj hpushed
  have honly : ∀ id ∈ sends fp s msg,
      id ∈ (received fp s msg).map (·.id) ∧ id ∉ s.relay.map (·.id) := by
    intro id hid
    obtain ⟨lo, r, hspan, hunnamed⟩ := mem_send.mp hid
    exact absent_of_unnamed hbetween.sorted hbetween.ascending.sorted
      (fun a ha b hb heq => (hbetween.shared b hb a ha heq.symm).symm)
      (hans.of_mem_spans hspan).2.2.2 hunnamed
  have hsend : Missing (received fp s msg) s.relay (sends fp s msg) :=
    ⟨sortDedup_nodup _, fun id hid => (honly id hid).1, fun id hid => (honly id hid).2⟩
  obtain ⟨new, hsent⟩ := sent_applySends hbetween.ascending hbetween.sorted hbetween.clientIds
    hsend.nodup hsend.absent
  exact ⟨new, hpush, hpushed, hbetween, hans, hsend, hsent, hbetween.sent hsend hsent⟩

variable {new : List Item}

omit h in
/-- The client's answer covers the space again and says the truth about the new sides. -/
theorem Transfers.next (h : Transfers fp s msg new) :
    Covers Range.upper (Says fp (exchanged fp s msg).client (exchanged fp s msg).relay) 0
      (advanceRanges fp (exchanged fp s msg).client (respond fp s.relay msg).reply) infinity := by
  refine (advance_refines fp _ _).covers h.answer ?_
  rintro lo r part hlt htold ⟨b, -, -, -, rfl⟩
  by_cases hset : ClientSettles fp (exchanged fp s msg).client lo r
  · rw [advanceSpan_settled hset b]
    have hagree := agree_of_clientSettles hinj h.between h.send h.sent htold hset
    exact .single hlt (.inl ⟨rfl, hagree⟩)
  · rw [advanceSpan_narrows hset b]
    exact (covers_narrow fp h.after.sorted hlt b).mono (fun _ _ _ hdescribes => .inr hdescribes)

theorem Sound.next {next} (hreply : nextMessage fp s msg = some next) :
    Sound fp (exchanged fp s msg) next := by
  obtain ⟨new, htrans⟩ := h.transfers hinj
  refine ⟨htrans.after, ?_, ?_⟩
  · rw [eq_of_advance_reply hreply]
    exact htrans.next hinj
  · rw [eq_of_advance_reply hreply]
    exact (narrows_advanceSpan fp _).length_le htrans.after.sorted
      ((narrows_respondSpan fp _).length_le h.held.ascending.sorted h.length)

/-- With nothing left to say, the sides hold the same items. -/
theorem Sound.eq_of_done (hdone : nextMessage fp s msg = none) :
    (exchanged fp s msg).relay = (exchanged fp s msg).client := by
  obtain ⟨new, htrans⟩ := h.transfers hinj
  have ha := htrans.after
  refine eq_of_ascending ha.ascending ha.sorted (.of_map _ ha.clientIds) ?_
  intro item
  by_cases hbounded : item.seq < infinity
  · obtain ⟨lo, r, hspan, hlo, hhi⟩ :=
      htrans.answer.exists_span (Nat.zero_le item.seq) hbounded
    have hset := advance_reply_eq_none_iff.mp hdone lo r hspan
    exact (agree_of_clientSettles hinj htrans.between htrans.send htrans.sent
      (htrans.answer.of_mem_spans hspan).2.2.2 hset item hlo hhi).symm
  · constructor
    · intro hi
      have htop := le_maxSeq hi
      have hroom := ha.room
      omega
    · intro hi
      exact absurd (ha.bounded item hi) hbounded

omit hinj h

/-- What a round moves is what it takes off the difference. -/
theorem Transfers.difference (h : Transfers fp s msg new) : difference (exchanged fp s msg).relay
          (exchanged fp s msg).client +
        (respond fp s.relay msg).push.length +
        (sends fp s msg).length =
      Negentropy.difference s.relay s.client := by
  have hpushed := difference_pushed h.push h.pushed
  have hsent := difference_sent h.send h.sent
  omega

/-- No id is lost or made up. -/
theorem Transfers.union (h : Transfers fp s msg new) :
    idSet (exchanged fp s msg).relay ∪ idSet (exchanged fp s msg).client =
      idSet s.relay ∪ idSet s.client := by
  rw [idSet_relay_sent h.sent, idSet_client_sent h.send h.sent, idSet_pushed h.push h.pushed]
  have hpush : (respond fp s.relay msg).push.toFinset ⊆ idSet s.relay :=
    fun id hid => mem_toFinset.mpr (h.push.held id (mem_toFinset.mp hid))
  have hsend : (sends fp s msg).toFinset ⊆
      idSet s.client ∪ (respond fp s.relay msg).push.toFinset := by
    rw [← idSet_pushed h.push h.pushed]
    exact fun id hid => mem_toFinset.mpr (h.send.held id (mem_toFinset.mp hid))
  calc idSet s.relay ∪ (sends fp s msg).toFinset ∪
          (idSet s.client ∪ (respond fp s.relay msg).push.toFinset)
      = idSet s.relay ∪ (idSet s.client ∪ (respond fp s.relay msg).push.toFinset) := by
        rw [Finset.union_assoc, Finset.union_eq_right.mpr hsend]
    _ = idSet s.relay ∪ idSet s.client := by
        rw [Finset.union_comm (idSet s.client), ← Finset.union_assoc,
          Finset.union_eq_left.mpr hpush]

end Rounds

end WealdRelay.Negentropy
