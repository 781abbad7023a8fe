import WealdRelay.Hub.Registry
import WealdRelay.Log.Serve
import WealdRelay.Negentropy.Size

/-!
# A reconciliation round at the relay

`sync::reconcile` answers one `RECON` frame: it reads a window of the group's log, lets
`respond` answer the message from that window, cuts the pushes to what the connection's
queue has room for, and opens every span again that lost a push to the cut.

The window is the first `MAX_ITEMS_PER_RECONCILE` rows at or above the first span that the
client has not settled. `respond` cannot know of a row above the window, so a span that
agrees with the window is answered with a skip although the log may hold more of it.
`skips_are_honest_iff` says which messages and logs this does not happen to.
-/

namespace WealdRelay.Sync

open Lib Negentropy List Log

/-! ## Room in the queue -/

/-- `SYNC_PUSH_LIMIT`. -/
def syncPushLimit : Nat := Hub.sendQueueBound - 1

/-- `SYNC_PUSH_BYTES`. -/
def syncPushBytes : Nat := Hub.sendQueueByteBudget - Wire.maxFrameBytes

/-- `free_slots`: the frames that can still be queued. -/
def freeSlots (sender : Hub.OutboundSender) : Nat := Hub.sendQueueBound - sender.queue.length

def pushFrameAllowance (sender : Hub.OutboundSender) : Nat :=
  min (freeSlots sender - 1) syncPushLimit

def pushByteAllowance (sender : Hub.OutboundSender) : Nat :=
  min (Hub.sendQueueByteBudget - sender.queuedBytes - Wire.maxFrameBytes) syncPushBytes

/-- The loop of `fits_in_budget`. -/
def fitsLoop {α : Type} (allowance : Nat) (cost : α → Nat) : Nat → Nat → List α → Nat
  | _, taken, [] => taken
  | spent, taken, item :: rest =>
    let next := spent + cost item
    if 0 < taken ∧ allowance < next then taken
    else fitsLoop allowance cost next (taken + 1) rest

/-- `fits_in_budget`: how many of the items fit, at least one if there is any room. -/
def fitsInBudget {α : Type} (items : List α) (allowance : Nat) (cost : α → Nat) : Nat :=
  if allowance = 0 then 0 else fitsLoop allowance cost 0 0 items

/-- The connection's queue at the three moments a round looks at it. Other connections
push into it and its writer empties it in between. -/
structure Readings where
  beforeRead : Hub.OutboundSender
  atBytes : Hub.OutboundSender
  atSlots : Hub.OutboundSender

/-- How many of the envelopes that were read are sent. -/
def sendable (queue : Readings) (envelopes : List (Bytes × Bytes)) : Nat :=
  min (fitsInBudget envelopes (pushByteAllowance queue.atBytes)
      (fun entry => (Hub.Frame.push []).queuedBytes + entry.2.length))
    (pushFrameAllowance queue.atSlots)

/-! ## The window -/

/-- The rows of a group at or above a number, ascending. -/
def rowsFrom (db : Log.Db) (group : Bytes) (fromSeq : Nat) : List Log.EnvelopeRow :=
  (db.envelopes.filter (fun row =>
    row.groupId = group ∧ min fromSeq (Log.bigintBound - 1) ≤ row.seq)).insertionSort
      (fun a b => a.seq ≤ b.seq)

def rowToItem (row : Log.EnvelopeRow) : Item := ⟨row.seq, fixed row.hash⟩

theorem rowToItem_id (row : Log.EnvelopeRow) : (rowToItem row).id = fixed row.hash := rfl

/-- `log::items`. -/
def items (db : Log.Db) (group : Bytes) (fromSeq : Nat) : List Item :=
  ((rowsFrom db group fromSeq).take maxItemsPerReconcile).map rowToItem

/-- The loop of `unsettled_floor`. -/
def floorLoop {F : Type} : Nat → List (Range F) → Nat
  | lower, [] => lower
  | lower, range :: rest =>
    match range.mode with
    | .skip => floorLoop range.upper rest
    | _ => lower

/-- `unsettled_floor`. -/
def unsettledFloor {F : Type} (incoming : Message F) : Nat := floorLoop 0 incoming.ranges

/-- What one round reads of the log. -/
def window {F : Type} (db : Log.Db) (group : Bytes) (incoming : Message F) : List Item :=
  items db group (unsettledFloor incoming)

/-! ## The answer -/

section Reopen

variable {F : Type} (fingerprint : List Item → F)

/-- One turn of the loop of `reopen_omitted`. -/
def reopenSpan (items : List Item) (omitted : List Id) (ranges : List (Range F))
    (span : Nat × Range F) : List (Range F) :=
  let mine := itemsIn items span.1 span.2.upper
  if mine.any (fun item => omitted.contains item.id) then
    ranges.map (fun range =>
      if range.upper = span.2.upper then ⟨span.2.upper, .fingerprint (fingerprint mine)⟩
      else range)
  else ranges

def reopenOmitted (reply incoming : Message F) (items : List Item) (omitted : List Id) :
    Message F :=
  if omitted.isEmpty then reply
  else ⟨incoming.spans.foldl (reopenSpan fingerprint items omitted) reply.ranges⟩

end Reopen

/-- `ReconError::code`. -/
def codeOf : ReconError → Wire.ErrorCode
  | .cbor _ => .noncanonicalCbor
  | _ => .malformedHeader

def errorFrame (code : Wire.ErrorCode) : Wire.Frame := .error ⟨code, none, none⟩

/-- The frames of an answer once everything is read. -/
def answer (fingerprint : List Item → Id) (queue : Readings) (group : Bytes)
    (incoming : Message Id) (items : List Item) (envelopes : List (Bytes × Bytes)) :
    List Wire.Frame :=
  let response := respond fingerprint items incoming
  let count := sendable queue envelopes
  let omitted := response.push.drop (pushFrameAllowance queue.beforeRead) ++
    (envelopes.drop count).map (fun entry => fixed entry.1)
  let reply := reopenOmitted fingerprint response.reply incoming items omitted
  (envelopes.take count).map (fun entry => .push entry.2) ++ [.recon group reply.encode]

/-- The database as a round finds it; either of its two reads may fail. -/
structure Database where
  db : Log.Db
  itemsFail : Bool
  envelopesFail : Bool

/-- `reconcile`: the run of frames that it hands to `queue_all`, which queues them in order
and ends the connection at the first one that does not fit. -/
def reconcile (fingerprint : List Item → Id) (queue : Readings) (database : Option Database)
    (group payload : Bytes) : List Wire.Frame :=
  match Message.decode payload with
  | .error error => [errorFrame (codeOf error)]
  | .ok incoming =>
    match database with
    | none => [errorFrame .backpressure]
    | some ⟨db, itemsFail, envelopesFail⟩ =>
      if itemsFail then [errorFrame .backpressure]
      else
        let items := window db group incoming
        let push := (respond fingerprint items incoming).push.take
          (pushFrameAllowance queue.beforeRead)
        if envelopesFail then [errorFrame .backpressure]
        else answer fingerprint queue group incoming items
          (Log.envelopesFor db group (push.map idBytes))

/-! ## The rows of a group -/

/-- What the schema and its writers keep of the rows of one group: values that fit the
envelope they are sent as, and the two unique indexes. -/
structure Kept (db : Log.Db) (group : Bytes) : Prop where
  fits : ∀ row ∈ db.envelopes, row.groupId = group → (Log.rowEnvelope row).Fits
  unique : (db.envelopes.filter (fun row => row.groupId = group)).Pairwise
    (fun a b => a.hash ≠ b.hash ∧ a.seq ≠ b.seq)

/-- Everything the log holds of a group. -/
def logItems (db : Log.Db) (group : Bytes) : List Item := (rowsFrom db group 0).map rowToItem

section Rows

variable {db : Log.Db} {g : Bytes} {fromSeq : Nat} {row x : Log.EnvelopeRow}

theorem mem_rowsFrom : row ∈ rowsFrom db g fromSeq ↔
    row ∈ db.envelopes ∧ row.groupId = g ∧ min fromSeq (bigintBound - 1) ≤ row.seq := by
  rw [rowsFrom, mem_insertionSort, mem_filter, decide_eq_true_iff]

theorem sorted_rowsFrom (db : Log.Db) (g : Bytes) (fromSeq : Nat) :
    (rowsFrom db g fromSeq).Pairwise (fun a b => a.seq ≤ b.seq) := by
  have htotal : Std.Total (fun a b : Log.EnvelopeRow => a.seq ≤ b.seq) :=
    ⟨fun a b => Nat.le_total a.seq b.seq⟩
  have htrans : IsTrans Log.EnvelopeRow (fun a b => a.seq ≤ b.seq) :=
    ⟨fun _ _ _ => Nat.le_trans⟩
  exact pairwise_insertionSort _ _

theorem sorted_items (db : Log.Db) (g : Bytes) (fromSeq : Nat) : Sorted (items db g fromSeq) :=
  pairwise_map.mpr ((sorted_rowsFrom db g fromSeq).sublist (take_sublist _ _))

theorem sorted_window {F : Type} (db : Log.Db) (g : Bytes) (inc : Message F) :
    Sorted (window db g inc) :=
  sorted_items db g _

theorem sorted_logItems (db : Log.Db) (g : Bytes) : Sorted (logItems db g) :=
  pairwise_map.mpr (sorted_rowsFrom db g 0)

theorem exists_of_mem_items {item} (h : item ∈ items db g fromSeq) :
    ∃ row ∈ db.envelopes, row.groupId = g ∧ rowToItem row = item := by
  obtain ⟨row, hrow, rfl⟩ := mem_map.mp h
  obtain ⟨hmem, hg, -⟩ := mem_rowsFrom.mp (mem_of_mem_take hrow)
  exact ⟨row, hmem, hg, rfl⟩

theorem mem_logItems (hrow : row ∈ db.envelopes) (hg : row.groupId = g) :
    rowToItem row ∈ logItems db g :=
  mem_map.mpr ⟨row, mem_rowsFrom.mpr ⟨hrow, hg, by simp⟩, rfl⟩

namespace Kept

variable (h : Kept db g) (hrow : row ∈ db.envelopes) (hg : row.groupId = g)
include h hrow hg

theorem idBytes_id : idBytes (rowToItem row).id = row.hash :=
  idBytes_fixed (h.fits row hrow hg).hash

variable (ho : x ∈ db.envelopes) (hgroup' : x.groupId = g)
include ho hgroup'

theorem eq_of_hash (hh : row.hash = x.hash) : row = x := by
  have hnd : ((db.envelopes.filter (·.groupId = g)).map
      (·.hash)).Nodup := pairwise_map.mpr (h.unique.imp fun hne => hne.1)
  refine inj_on_of_nodup_map hnd ?_ ?_ hh
  · exact mem_filter.mpr ⟨hrow, decide_eq_true hg⟩
  · exact mem_filter.mpr ⟨ho, decide_eq_true hgroup'⟩

theorem eq_of_id (hid : (rowToItem row).id = (rowToItem x).id) : row = x := by
  refine h.eq_of_hash hrow hg ho hgroup' ?_
  rw [← h.idBytes_id hrow hg, ← h.idBytes_id ho hgroup', hid]

theorem eq_of_encodeRow (hbytes : encodeRow row = encodeRow x) : row = x := by
  have hdec := Envelope.decode_encode (h.fits row hrow hg)
  rw [show (rowEnvelope row).encode = (rowEnvelope x).encode from hbytes,
    Envelope.decode_encode (h.fits x ho hgroup')] at hdec
  exact h.eq_of_hash hrow hg ho hgroup' (congrArg Envelope.hash (Except.ok.inj hdec)).symm

omit hrow hg ho hgroup'

theorem ascending_rowsFrom (fromSeq : Nat) : Ascending ((rowsFrom db g fromSeq).map rowToItem) := by
  have hsub : (db.envelopes.filter (fun row =>
      row.groupId = g ∧ min fromSeq (bigintBound - 1) ≤ row.seq)).Pairwise
        (fun a b => a.seq ≠ b.seq) := by
    refine (h.unique.imp fun hne => hne.2).sublist ?_
    refine monotone_filter_right _ fun row hrow => ?_
    exact decide_eq_true (of_decide_eq_true hrow).1
  have hdistinct : (rowsFrom db g fromSeq).Pairwise (fun a b => a.seq ≠ b.seq) :=
    (perm_insertionSort _ _).symm.pairwise hsub (Ne.symm ·)
  refine pairwise_map.mpr (((sorted_rowsFrom db g fromSeq).and hdistinct).imp ?_)
  exact fun hab => lt_of_le_of_ne hab.1 hab.2

theorem ascending_logItems : Ascending (logItems db g) := h.ascending_rowsFrom 0

variable {F : Type} {inc : Message F}

theorem ascending_window (inc : Message F) : Ascending (window db g inc) := by
  rw [window, items, map_take]
  exact (h.ascending_rowsFrom _).sublist (take_sublist _ _)

/-- A span whose rows are all in the window is read as the log holds it. -/
theorem itemsIn_logItems {lo hi}
    (hall : ∀ row ∈ db.envelopes, row.groupId = g → lo ≤ row.seq → row.seq < hi →
      rowToItem row ∈ window db g inc) :
    itemsIn (logItems db g) lo hi = itemsIn (window db g inc) lo hi := by
  refine itemsIn_eq_of_agree h.ascending_logItems (sorted_window _ _ _)
    (h.ascending_window _).nodup ?_
  intro item hlo hhi
  constructor
  · intro hitem
    obtain ⟨row, hrow, rfl⟩ := mem_map.mp hitem
    obtain ⟨hmem, hg, -⟩ := mem_rowsFrom.mp hrow
    exact hall row hmem hg hlo hhi
  · intro hitem
    obtain ⟨row, hrow, hg, rfl⟩ := exists_of_mem_items hitem
    exact mem_logItems hrow hg

theorem mem_window_of_id {item} (hi : item ∈ window db g inc)
    (hrow : row ∈ db.envelopes) (hg : row.groupId = g)
    (hid : item.id = (rowToItem row).id) : rowToItem row ∈ window db g inc := by
  obtain ⟨x, ho, hgroup', rfl⟩ := exists_of_mem_items hi
  rwa [h.eq_of_id hrow hg ho hgroup' hid.symm]

end Kept

end Rows

/-! ## The skips of an answer -/

section Skips

variable {F : Type} (fp : List Item → F) {items : List Item} {inc reply : Message F}
  {lower hi : Nat} {r : Range F}

theorem mode_of_mem_narrow {b} (h : r ∈ narrow fp items hi b) : r.mode ≠ .skip := by
  simp only [narrow, splitBounded] at h
  split_ifs at h with hfew hone hshort hwide
  · simp [mem_singleton.mp h]
  · simp [mem_singleton.mp h]
  · simp [mem_singleton.mp h]
  · simp [mem_singleton.mp h]
  · obtain ⟨v, hm⟩ := mode_of_mem_splitLoop fp hi _ h
    simp [hm]

theorem mem_spans_respond_skip [DecidableEq F] (hsort : Sorted items) :
    (lower, ⟨hi, .skip⟩) ∈ (respond fp items inc).reply.spans ↔
      ∃ mode, (lower, ⟨hi, mode⟩) ∈ inc.spans ∧ RelaySettles fp items lower ⟨hi, mode⟩ := by
  have hrefines := respond_refines fp items inc
  have hends : ∀ lo r part, Answers (respondSpan fp items) inc.ranges.length
      (respond fp items inc).reply.ranges.length lo r part →
        part.getLast?.map Range.upper = some r.upper := by
    rintro lo r part ⟨b, -, -, -, rfl⟩
    exact ((narrows_respondSpan fp items).carries hsort b lo r).1.last
  constructor
  · intro hspan
    obtain ⟨lo, r, part, hmem, ⟨b, -, -, -, rfl⟩, hp⟩ :=
      hrefines.exists_of_mem_spans hends hspan
    by_cases hset : RelaySettles fp items lo r
    · rw [respondSpan_settled hset] at hp
      obtain ⟨rfl, hrange⟩ := Prod.mk.inj (mem_singleton.mp hp)
      obtain rfl : hi = r.upper := congrArg Range.upper hrange
      exact ⟨r.mode, hmem, hset⟩
    · rw [respondSpan_narrows hset] at hp
      exact absurd rfl (mode_of_mem_narrow fp (mem_of_mem_spans _ hp))
  · rintro ⟨mode, hmem, hset⟩
    obtain ⟨part, ⟨b, -, -, -, rfl⟩, hsub⟩ := hrefines.spans_subset hends hmem
    rw [respondSpan_settled hset] at hsub
    exact hsub mem_cons_self

/-- A span with an id that was left out. -/
def Cut (items : List Item) (omitted : List Id) (span : Nat × Range F) : Prop :=
  ∃ item ∈ itemsIn items span.1 span.2.upper, item.id ∈ omitted

/-- The ranges that end at a bound, opened as one fingerprint. -/
def opened (upper : Nat) (value : F) (range : Range F) : Range F :=
  if range.upper = upper then ⟨upper, .fingerprint value⟩ else range

theorem upper_opened (hi : Nat) (v : F) (r : Range F) : (opened hi v r).upper = r.upper := by
  rw [opened]
  split_ifs with heq
  · exact heq.symm
  · rfl

theorem opened_eq_skip {v bound} :
    opened bound v r = ⟨hi, .skip⟩ ↔ r = ⟨hi, .skip⟩ ∧ bound ≠ hi := by
  rw [opened]
  split_ifs with heq
  · constructor
    · intro h
      cases congrArg Range.mode h
    · rintro ⟨rfl, hne⟩
      exact absurd heq.symm hne
  · constructor
    · rintro rfl
      exact ⟨rfl, fun h => heq h.symm⟩
    · exact fun h => h.1

theorem reopenSpan_eq (items : List Item) (omitted : List Id) (rs : List (Range F))
    (span : Nat × Range F) :
    Cut items omitted span ∧ reopenSpan fp items omitted rs span =
        rs.map (opened span.2.upper (fp (itemsIn items span.1 span.2.upper))) ∨
      ¬ Cut items omitted span ∧ reopenSpan fp items omitted rs span = rs := by
  have hcut : (itemsIn items span.1 span.2.upper).any
      (omitted.contains ·.id) = true ↔ Cut items omitted span := by
    simp [Cut]
  rw [reopenSpan]
  split_ifs with hany
  · exact .inl ⟨hcut.mp hany, rfl⟩
  · exact .inr ⟨fun h => hany (hcut.mpr h), rfl⟩

theorem mem_spans_reopenSpan (omitted : List Id) (rs : List (Range F)) (span : Nat × Range F) :
    (lower, ⟨hi, .skip⟩) ∈ spans Range.upper 0 (reopenSpan fp items omitted rs span) ↔
      (lower, ⟨hi, .skip⟩) ∈ spans Range.upper 0 rs ∧
        ¬ (span.2.upper = hi ∧ Cut items omitted span) := by
  rcases reopenSpan_eq fp items omitted rs span with ⟨hcut, heq⟩ | ⟨hcut, heq⟩
  · rw [heq, spans_map _ (upper_opened _ _), mem_map]
    constructor
    · rintro ⟨⟨l, r⟩, hmem, hspan⟩
      obtain ⟨rfl, hrange⟩ := Prod.mk.inj hspan
      obtain ⟨rfl, hne⟩ := opened_eq_skip.mp hrange
      exact ⟨hmem, fun h => hne h.1⟩
    · rintro ⟨hmem, hnot⟩
      refine ⟨_, hmem, Prod.ext rfl (opened_eq_skip.mpr ⟨rfl, fun h => hnot ⟨h, hcut⟩⟩)⟩
  · rw [heq]
    exact ⟨fun hmem => ⟨hmem, fun h => hcut h.2⟩, fun h => h.1⟩

/-- Of the skips of a reply those stay whose span lost no id. -/
theorem mem_spans_reopenOmitted (reply inc : Message F) (omitted : List Id) :
    (lower, ⟨hi, .skip⟩) ∈ (reopenOmitted fp reply inc items omitted).spans ↔
      (lower, ⟨hi, .skip⟩) ∈ reply.spans ∧
        ∀ span ∈ inc.spans, ¬ (span.2.upper = hi ∧ Cut items omitted span) := by
  have hloop : ∀ (turns : List (Nat × Range F)) (rs : List (Range F)),
      (lower, ⟨hi, .skip⟩) ∈ spans Range.upper 0 (turns.foldl (reopenSpan fp items omitted) rs) ↔
        (lower, ⟨hi, .skip⟩) ∈ spans Range.upper 0 rs ∧
          ∀ span ∈ turns, ¬ (span.2.upper = hi ∧ Cut items omitted span) := by
    intro turns
    induction turns with
    | nil => simp
    | cons span turns ih =>
      intro rs
      rw [foldl_cons, ih, mem_spans_reopenSpan, forall_mem_cons, and_assoc]
  rw [reopenOmitted]
  split_ifs with hempty
  · obtain rfl := isEmpty_iff.mp hempty
    simp [Cut]
  · exact hloop inc.spans reply.ranges

theorem wellFormed_map {f : Range F → Range F} (hupper : ∀ r, (f r).upper = r.upper)
    (hm : ∀ r, r.mode.WellFormed → (f r).mode.WellFormed)
    (hreply : reply.WellFormed) : (⟨reply.ranges.map f⟩ : Message F).WellFormed where
  nonempty := by simpa using hreply.nonempty
  count := by simpa using hreply.count
  ascending := pairwise_map.mpr (hreply.ascending.imp (by simp [hupper]))
  complete := by
    have hcomp : Range.upper ∘ f = Range.upper := funext hupper
    simpa [getLast?_map, hcomp] using hreply.complete
  modes := forall_mem_map.mpr fun r hrange => hm r (hreply.modes r hrange)

theorem wellFormed_reopenSpan (items : List Item) (omitted : List Id) (span : Nat × Range F)
    (hreply : reply.WellFormed) :
    (⟨reopenSpan fp items omitted reply.ranges span⟩ : Message F).WellFormed := by
  rcases reopenSpan_eq fp items omitted reply.ranges span with
    ⟨-, heq⟩ | ⟨-, heq⟩
  · rw [heq]
    refine wellFormed_map (upper_opened _ _) (fun r hrange => ?_) hreply
    rw [opened]
    split_ifs
    · trivial
    · exact hrange
  · rw [heq]
    exact hreply

theorem wellFormed_reopenOmitted (items : List Item) (omitted : List Id)
    (hreply : reply.WellFormed) : (reopenOmitted fp reply inc items omitted).WellFormed := by
  have hloop : ∀ (turns : List (Nat × Range F)) (msg : Message F), msg.WellFormed →
      (⟨turns.foldl (reopenSpan fp items omitted) msg.ranges⟩ : Message F).WellFormed := by
    intro turns
    induction turns with
    | nil => exact fun msg hmsg => hmsg
    | cons span turns ih =>
      exact fun msg hmsg => ih ⟨_⟩ (wellFormed_reopenSpan fp items omitted span hmsg)
  rw [reopenOmitted]
  split_ifs
  · exact hreply
  · exact hloop inc.spans reply hreply

end Skips

/-! ## The pushes of an answer -/

section Pushes

/-- Wanted addresses that are all there are served as they were asked for. -/
theorem serve_ids {ids found} (hnd : ids.Nodup) (hf : ∀ id ∈ ids, ∃ entry ∈ found, entry.1 = id) :
    (serve ids found).map Prod.fst = ids := by
  induction ids generalizing found with
  | nil => rfl
  | cons id ids ih =>
    obtain ⟨hnot, hr⟩ := nodup_cons.mp hnd
    cases hfind : found.find? (·.1 = id) with
    | none =>
      obtain ⟨entry, he, heq⟩ := hf id mem_cons_self
      exact absurd heq (by simpa using find?_eq_none.mp hfind entry he)
    | some entry =>
      have hid : entry.1 = id := by simpa using find?_some hfind
      rw [serve, hfind, map_cons, hid, ih hr]
      intro x ho
      obtain ⟨kept, hk, rfl⟩ := hf x (mem_cons_of_mem _ ho)
      refine ⟨kept, mem_filter.mpr ⟨hk, ?_⟩, rfl⟩
      exact decide_eq_true fun heq => hnot (heq ▸ ho)

variable {α : Type} {id : Id} {row : Log.EnvelopeRow}

theorem mem_take_or_drop {l : List α} {x : α} (k : Nat) (h : x ∈ l) : x ∈ l.take k ∨ x ∈ l.drop k :=
  mem_append.mp (by rwa [take_append_drop])

theorem mem_drop_append_drop_take (l : List α) (k c : Nat) (x : α) :
    x ∈ l.drop k ++ (l.take k).drop c ↔ x ∈ l.drop (min k c) := by
  rcases le_total k c with hle | hle
  · have hnil : (l.take k).drop c = [] :=
      drop_eq_nil_of_le (le_trans (length_take_le _ _) hle)
    rw [hnil, append_nil, min_eq_left hle]
  · have hparts : l.drop c = (l.take k).drop c ++ l.drop k := by
      have hlast : (l.drop c).drop (k - c) = l.drop k := by
        rw [drop_drop, Nat.add_sub_of_le hle]
      rw [drop_take, ← hlast, take_append_drop]
    rw [min_eq_right hle, hparts, mem_append, mem_append, or_comm]

variable (fingerprint : List Item → Id) (queue : Readings) (db : Log.Db) (group : Bytes)
  (incoming : Message Id)

/-- The ids a round has to push. -/
def wanted : List Id := (respond fingerprint (window db group incoming) incoming).push

/-- The envelopes a round reads: as many of the wanted ones as the queue had slots. -/
def envelopes : List (Bytes × Bytes) :=
  Log.envelopesFor db group (((wanted fingerprint db group incoming).take
      (pushFrameAllowance queue.beforeRead)).map idBytes)

/-- The envelopes that are sent. -/
def pushed : List Bytes :=
  ((envelopes fingerprint queue db group incoming).take
    (sendable queue (envelopes fingerprint queue db group incoming))).map Prod.snd

/-- The ids that are not, as `reconcile` collects them. -/
def omitted : List Id :=
  (wanted fingerprint db group incoming).drop (pushFrameAllowance queue.beforeRead) ++
    ((envelopes fingerprint queue db group incoming).drop
      (sendable queue (envelopes fingerprint queue db group incoming))).map
        (fun entry => fixed entry.1)

/-- The reply as it is sent. -/
def sentReply : Message Id :=
  reopenOmitted fingerprint (respond fingerprint (window db group incoming) incoming).reply
    incoming (window db group incoming) (omitted fingerprint queue db group incoming)

/-- The wanted ids the queue has no room for. -/
def leftOut : List Id :=
  (wanted fingerprint db group incoming).drop (min (pushFrameAllowance queue.beforeRead)
      (sendable queue (envelopes fingerprint queue db group incoming)))

variable {fingerprint queue db group incoming}

theorem exists_row_of_mem_wanted (h : id ∈ wanted fingerprint db group incoming) :
    ∃ row ∈ db.envelopes, row.groupId = group ∧ (rowToItem row).id = id ∧
      rowToItem row ∈ window db group incoming := by
  obtain ⟨lo, r, -, hunnamed⟩ := mem_push.mp h
  obtain ⟨item, hi, rfl⟩ := exists_of_mem_unnamed hunnamed
  have hwindow := (itemsIn_sublist _ _ _).subset hi
  obtain ⟨row, hrow, hg, rfl⟩ := exists_of_mem_items hwindow
  exact ⟨row, hrow, hg, rfl, hwindow⟩

variable (hk : Kept db group)
include hk

theorem envelopes_ids : (envelopes fingerprint queue db group incoming).map Prod.fst =
      ((wanted fingerprint db group incoming).take
        (pushFrameAllowance queue.beforeRead)).map idBytes := by
  have hinj : Function.Injective idBytes := fun a b h => by
    rw [← fixed_idBytes a, ← fixed_idBytes b, h]
  have hnd : (wanted fingerprint db group incoming).Nodup := sortDedup_nodup _
  refine serve_ids ((hnd.sublist (take_sublist _ _)).map hinj) ?_
  intro hash hh
  obtain ⟨id, hid, rfl⟩ := mem_map.mp hh
  obtain ⟨row, hrow, hg, rfl, -⟩ := exists_row_of_mem_wanted (mem_of_mem_take hid)
  have heq := hk.idBytes_id hrow hg
  refine ⟨(row.hash, encodeRow row), mem_map.mpr ⟨row, ?_, rfl⟩, heq.symm⟩
  exact mem_filter.mpr ⟨hrow, decide_eq_true ⟨hg, heq ▸ hh⟩⟩

/-- What a round omits is what the queue has no room for. -/
theorem mem_omitted : id ∈ omitted fingerprint queue db group incoming ↔
      id ∈ leftOut fingerprint queue db group incoming := by
  have hfixed : (envelopes fingerprint queue db group incoming).map (fixed ·.1) =
      (wanted fingerprint db group incoming).take (pushFrameAllowance queue.beforeRead) := by
    rw [← Function.comp_def, ← map_map, envelopes_ids hk, map_map]
    exact map_id'' fixed_idBytes _
  rw [omitted, map_drop, hfixed, mem_drop_append_drop_take]
  rfl

variable (hrow : row ∈ db.envelopes) (hg : row.groupId = group)
include hrow hg

/-- A wanted row that the queue has room for is pushed. -/
theorem push_mem_of_wanted (hwanted : (rowToItem row).id ∈ wanted fingerprint db group incoming)
    (hroom : (rowToItem row).id ∉ leftOut fingerprint queue db group incoming) :
    encodeRow row ∈ pushed fingerprint queue db group incoming := by
  rw [← mem_omitted hk, omitted, mem_append, not_or] at hroom
  have htaken : (rowToItem row).id ∈
      (wanted fingerprint db group incoming).take (pushFrameAllowance queue.beforeRead) :=
    (mem_take_or_drop _ hwanted).resolve_right hroom.1
  have hserved : idBytes (rowToItem row).id ∈
      (envelopes fingerprint queue db group incoming).map Prod.fst :=
    envelopes_ids hk ▸ mem_map_of_mem htaken
  obtain ⟨⟨hash, bytes⟩, he, heq⟩ := mem_map.mp hserved
  obtain ⟨x, ho, hgroup', rfl, rfl⟩ := row_of_mem_envelopesFor he
  have hh : x.hash = row.hash :=
    heq.trans (hk.idBytes_id hrow hg)
  obtain rfl := hk.eq_of_hash ho hgroup' hrow hg hh
  rcases mem_take_or_drop (sendable queue (envelopes fingerprint queue db group incoming))
    he with hsent | hdropped
  · exact mem_map_of_mem (f := Prod.snd) hsent
  · rw [rowToItem_id] at hroom
    have homitted := mem_map_of_mem (f := fun entry => fixed entry.1) hdropped
    exact absurd homitted hroom.2

/-- Only rows of the window are pushed. -/
theorem mem_window_of_push (hpush : encodeRow row ∈ pushed fingerprint queue db group incoming) :
    rowToItem row ∈ window db group incoming := by
  obtain ⟨⟨hash, bytes⟩, htaken, heq⟩ := mem_map.mp hpush
  have he := mem_of_mem_take htaken
  have hh := mem_map_of_mem (f := Prod.fst) he
  rw [envelopes_ids hk] at hh
  obtain ⟨id, hid, hidBytes⟩ := mem_map.mp hh
  obtain ⟨x, ho, hgroup', rfl, rfl⟩ := row_of_mem_envelopesFor he
  obtain rfl := hk.eq_of_encodeRow ho hgroup' hrow hg heq
  obtain ⟨wantedRow, hwantedRow, hgroup'', rfl, hwindow⟩ :=
    exists_row_of_mem_wanted (mem_of_mem_take hid)
  have hsame : wantedRow.hash = x.hash := by
    rw [← hk.idBytes_id hwantedRow hgroup'', hidBytes]
  rwa [hk.eq_of_hash hwantedRow hgroup'' ho hgroup' hsame] at hwindow

end Pushes

/-! ## Which skips are honest -/

section Honest

variable (fingerprint : List Item → Id) (queue : Readings) (db : Log.Db) (group : Bytes)
  (incoming : Message Id)

/-- Why a row of a skipped span needs no other answer: the client names it, or has told the
fingerprint of the whole span, or is pushed the row. -/
def Accounted (frames : List Wire.Frame) (lower upper : Nat) (row : Log.EnvelopeRow) : Prop :=
  (∃ ids, (lower, ⟨upper, .idList ids⟩) ∈ incoming.spans ∧ (rowToItem row).id ∈ ids) ∨
    (lower, ⟨upper, .fingerprint (fingerprint (itemsIn (logItems db group) lower upper))⟩) ∈
      incoming.spans ∨
    Wire.Frame.push (Log.encodeRow row) ∈ frames

/-- Every row in a span that an answer skips and the client did not is accounted for. -/
def Honest (frames : List Wire.Frame) : Prop :=
  ∀ payload reply, Wire.Frame.recon group payload ∈ frames → Message.decode payload = .ok reply →
    ∀ lower upper, (lower, ⟨upper, .skip⟩) ∈ reply.spans →
      (lower, ⟨upper, .skip⟩) ∉ incoming.spans →
      ∀ row ∈ db.envelopes, row.groupId = group → lower ≤ row.seq → row.seq < upper →
        Accounted fingerprint db group incoming frames lower upper row

/-- A span of the message that agrees with the window, and of which the queue leaves no id
out, lies within the window. -/
def WindowSuffices : Prop :=
  ∀ lower range, (lower, range) ∈ incoming.spans → range.mode ≠ .skip →
    RelaySettles fingerprint (window db group incoming) lower range →
    ¬ Cut (window db group incoming) (leftOut fingerprint queue db group incoming) (lower, range) →
    ∀ row ∈ db.envelopes, row.groupId = group → lower ≤ row.seq → row.seq < range.upper →
      rowToItem row ∈ window db group incoming

/-- What was read of a span and what the log holds of it have different fingerprints, unless
they are the same. -/
def NoCollision : Prop :=
  ∀ lower range, (lower, range) ∈ incoming.spans →
    fingerprint (itemsIn (window db group incoming) lower range.upper) =
      fingerprint (itemsIn (logItems db group) lower range.upper) →
    itemsIn (window db group incoming) lower range.upper =
      itemsIn (logItems db group) lower range.upper

variable {fingerprint queue db group incoming}

/-- The frames of a round whose reads succeed. -/
theorem reconcile_eq (fingerprint : List Item → Id) (queue : Readings) (db : Log.Db)
    (group : Bytes) {p} (hin : Message.decode p = .ok incoming) :
    reconcile fingerprint queue (some ⟨db, false, false⟩) group p =
      (pushed fingerprint queue db group incoming).map Wire.Frame.push ++
        [.recon group (sentReply fingerprint queue db group incoming).encode] := by
  rw [reconcile, hin, pushed, map_map]
  rfl

variable {payload : Bytes} {lower upper : Nat} {mode : Mode Id} {row : Log.EnvelopeRow}

theorem push_mem_reconcile (hin : Message.decode payload = .ok incoming) {bytes} :
    Wire.Frame.push bytes ∈ reconcile fingerprint queue (some ⟨db, false, false⟩) group payload ↔
      bytes ∈ pushed fingerprint queue db group incoming := by
  rw [reconcile_eq fingerprint queue db group hin]
  simp

theorem recon_mem_reconcile (hin : Message.decode payload = .ok incoming) {sent} :
    Wire.Frame.recon group sent ∈
        reconcile fingerprint queue (some ⟨db, false, false⟩) group payload ↔
      sent = (sentReply fingerprint queue db group incoming).encode := by
  rw [reconcile_eq fingerprint queue db group hin]
  simp

theorem decode_sentReply (hin : incoming.WellFormed) :
    Message.decode (sentReply fingerprint queue db group incoming).encode =
      .ok (sentReply fingerprint queue db group incoming) :=
  Message.decode_encode (wellFormed_reopenOmitted fingerprint _ _
    (respond_wellFormed fingerprint (sorted_window _ _ _) hin).1)

variable (hk : Kept db group)
include hk

/-- What the client finds skipped: the spans that agree with the window and lost no id. -/
theorem mem_spans_sentReply (hin : incoming.WellFormed) :
    (lower, ⟨upper, .skip⟩) ∈ (sentReply fingerprint queue db group incoming).spans ↔
      ∃ mode, (lower, ⟨upper, mode⟩) ∈ incoming.spans ∧
        RelaySettles fingerprint (window db group incoming) lower ⟨upper, mode⟩ ∧
        ¬ Cut (window db group incoming) (leftOut fingerprint queue db group incoming)
          (lower, (⟨upper, mode⟩ : Range Id)) := by
  have hcut : ∀ span : Nat × Range Id,
      Cut (window db group incoming) (omitted fingerprint queue db group incoming) span ↔
        Cut (window db group incoming) (leftOut fingerprint queue db group incoming) span := by
    intro span
    simp only [Cut, mem_omitted hk]
  rw [sentReply, mem_spans_reopenOmitted,
    mem_spans_respond_skip fingerprint (sorted_window db group incoming)]
  constructor
  · rintro ⟨⟨mode, hspan, hset⟩, hwhole⟩
    exact ⟨mode, hspan, hset, fun h => hwhole _ hspan ⟨rfl, (hcut _).mpr h⟩⟩
  · rintro ⟨mode, hspan, hset, hwhole⟩
    refine ⟨⟨mode, hspan, hset⟩, ?_⟩
    rintro ⟨l, r⟩ ho ⟨heq, h⟩
    rw [span_eq_of_upper hin.ascending ho hspan heq] at h
    exact hwhole ((hcut _).mp h)

variable (hin : Message.decode payload = .ok incoming)
include hin

variable (hspan : (lower, ⟨upper, mode⟩) ∈ incoming.spans)
  (hsettles : RelaySettles fingerprint (window db group incoming) lower ⟨upper, mode⟩)
  (hrow : row ∈ db.envelopes) (hgroup : row.groupId = group) (hlower : lower ≤ row.seq)
  (hupper : row.seq < upper)
include hspan hsettles hrow hgroup hlower hupper

/-- Within the window every row of a skipped span is accounted for. -/
theorem accounted_of_suffices (hopen : mode ≠ .skip)
    (hwhole : ¬ Cut (window db group incoming) (leftOut fingerprint queue db group incoming)
      (lower, (⟨upper, mode⟩ : Range Id)))
    (hsuffices : ∀ row ∈ db.envelopes, row.groupId = group → lower ≤ row.seq →
      row.seq < upper → rowToItem row ∈ window db group incoming) :
    Accounted fingerprint db group incoming
      (reconcile fingerprint queue (some ⟨db, false, false⟩) group payload) lower upper row := by
  have hsort := sorted_window db group incoming
  cases mode with
  | skip => exact absurd rfl hopen
  | fingerprint v =>
    refine .inr (.inl ?_)
    have hvalue : fingerprint (itemsIn (logItems db group) lower upper) = v := by
      rw [hk.itemsIn_logItems hsuffices]
      exact hsettles
    rwa [hvalue]
  | idList ids =>
    by_cases hnamed : (rowToItem row).id ∈ ids
    · exact .inl ⟨ids, hspan, hnamed⟩
    · have hwindow := hsuffices row hrow hgroup hlower hupper
      have hwanted : (rowToItem row).id ∈ wanted fingerprint db group incoming :=
        mem_push.mpr ⟨lower, _, hspan, (mem_unnamed hsort).mpr
          ⟨ids, rfl, hnamed, rowToItem row, hwindow, hlower, hupper, rfl⟩⟩
      have hroom : (rowToItem row).id ∉ leftOut fingerprint queue db group incoming :=
        fun hleft => hwhole ⟨rowToItem row, (mem_itemsIn hsort).mpr
          ⟨hwindow, hlower, hupper⟩, hleft⟩
      exact .inr (.inr ((push_mem_reconcile hin).mpr
        (push_mem_of_wanted hk hrow hgroup hwanted hroom)))

/-- A row above the window is not accounted for in a span that agrees with it. -/
theorem mem_window_of_accounted (hfree : NoCollision fingerprint db group incoming)
    (hacc : Accounted fingerprint db group incoming
      (reconcile fingerprint queue (some ⟨db, false, false⟩) group payload) lower upper row) :
    rowToItem row ∈ window db group incoming := by
  have hasc := (wellFormed_of_decode hin).1.ascending
  rcases hacc with ⟨ids, ho, hnamed⟩ | ho | hpush
  · obtain ⟨-, hrange⟩ := Prod.mk.inj (span_eq_of_upper hasc hspan ho rfl)
    obtain rfl : mode = .idList ids := congrArg Range.mode hrange
    obtain ⟨item, hi, hid⟩ := mem_idsOf.mp (hsettles _ hnamed)
    exact hk.mem_window_of_id ((itemsIn_sublist _ _ _).subset hi) hrow hgroup hid
  · obtain ⟨-, hrange⟩ := Prod.mk.inj (span_eq_of_upper hasc hspan ho rfl)
    obtain rfl := congrArg Range.mode hrange
    have heq := hfree lower _ hspan hsettles
    have hmem : rowToItem row ∈ itemsIn (logItems db group) lower upper :=
      (mem_itemsIn (sorted_logItems db group)).mpr ⟨mem_logItems hrow hgroup, hlower, hupper⟩
    rw [← heq] at hmem
    exact (itemsIn_sublist _ _ _).subset hmem
  · exact mem_window_of_push hk hrow hgroup ((push_mem_reconcile hin).mp hpush)

theorem mem_window_of_honest (hfree : NoCollision fingerprint db group incoming)
    (hhonest : Honest fingerprint db group incoming
      (reconcile fingerprint queue (some ⟨db, false, false⟩) group payload)) (hopen : mode ≠ .skip)
    (hwhole : ¬ Cut (window db group incoming) (leftOut fingerprint queue db group incoming)
      (lower, (⟨upper, mode⟩ : Range Id))) : rowToItem row ∈ window db group incoming := by
  have hformed := (wellFormed_of_decode hin).1
  have hskipped : (lower, ⟨upper, .skip⟩) ∈ (sentReply fingerprint queue db group incoming).spans :=
    (mem_spans_sentReply hk hformed).mpr ⟨mode, hspan, hsettles, hwhole⟩
  have hnot : (lower, ⟨upper, .skip⟩) ∉ incoming.spans := by
    intro hskip
    obtain ⟨-, hrange⟩ := Prod.mk.inj (span_eq_of_upper hformed.ascending hspan hskip rfl)
    exact hopen (congrArg Range.mode hrange)
  have hacc := hhonest _ _ ((recon_mem_reconcile hin).mpr rfl) (decode_sentReply hformed)
    lower upper hskipped hnot row hrow hgroup hlower hupper
  exact mem_window_of_accounted hk hin hspan hsettles hrow hgroup hlower hupper hfree hacc

omit hk hin hspan hsettles hrow hgroup hlower hupper

/-- The spans an answer skips are settled exactly when each span that agrees with the window
and loses no id to the queue lies within the window. -/
theorem skips_are_honest_iff
    (queue : Readings)
    (hkept : Kept db group)
    (hin : Message.decode payload = .ok incoming)
    (hfree : NoCollision fingerprint db group incoming) :
    Honest fingerprint db group incoming
        (reconcile fingerprint queue (some ⟨db, false, false⟩) group payload) ↔
      WindowSuffices fingerprint queue db group incoming := by
  have hformed := (wellFormed_of_decode hin).1
  constructor
  · rintro hhonest lower ⟨upper, mode⟩ hspan hopen hsettles hwhole row hrow hgroup hlower hupper
    exact mem_window_of_honest hkept hin hspan hsettles hrow hgroup hlower hupper hfree hhonest
      hopen hwhole
  · intro hsuffices sent reply hsent hdecode lower upper hskip hopen row hrow hgroup hlower hupper
    rw [(recon_mem_reconcile hin).mp hsent, decode_sentReply hformed] at hdecode
    cases hdecode
    obtain ⟨mode, hspan, hsettles, hwhole⟩ := (mem_spans_sentReply hkept hformed).mp hskip
    have hnotSkip : mode ≠ .skip := by
      rintro rfl
      exact hopen hspan
    exact accounted_of_suffices hkept hin hspan hsettles hrow hgroup hlower hupper hnotSkip hwhole
      (hsuffices lower _ hspan hnotSkip hsettles hwhole)

end Honest

/-! ## A log that fits the window -/

section Few

variable {F : Type} {db : Log.Db} {g : Bytes} {inc : Message F} {range : Range F}

theorem floorLoop_le {rs lo l} (hasc : rs.Pairwise (fun a b => a.upper < b.upper))
    (hlo : ∀ range ∈ rs, lo ≤ range.upper) (hmem : (l, range) ∈ spans Range.upper lo rs)
    (hopen : range.mode ≠ .skip) : floorLoop lo rs ≤ l := by
  induction rs generalizing lo with
  | nil => cases hmem
  | cons first rest ih =>
    obtain ⟨hfirst, hr⟩ := pairwise_cons.mp hasc
    rw [floorLoop]
    split
    next hskip =>
      rcases mem_cons.mp hmem with heq | hmem
      · cases heq
        exact absurd hskip hopen
      · exact ih hr (fun range hrange => le_of_lt (hfirst range hrange)) hmem
    · exact le_of_mem_spans hasc hlo hmem

variable {lower : Nat}

/-- A span the client has not settled starts at or above the floor. -/
theorem unsettledFloor_le (hin : inc.WellFormed) (hspan : (lower, range) ∈ inc.spans)
    (hopen : range.mode ≠ .skip) : unsettledFloor inc ≤ lower :=
  floorLoop_le hin.ascending (fun _ _ => Nat.zero_le _) hspan hopen

/-- The arms of two loops that agree on every span. -/
theorem overSpans_congr {α : Type} {arm arm' : Nat → Nat → Range F → List (Range F) × α} {spans}
    (built : Nat) (h : ∀ span ∈ spans, ∀ b, arm b span.1 span.2 = arm' b span.1 span.2) :
    overSpans arm built spans = overSpans arm' built spans := by
  induction spans generalizing built with
  | nil => rfl
  | cons first rest ih =>
    have hr := fun built => ih built (fun span hspan => h span (mem_cons_of_mem _ hspan))
    simp only [overSpans, h first mem_cons_self, hr]

/-- An answer from the items at or above the floor is the answer from all of them. -/
theorem respond_above_floor
    (fingerprint : List Item → Id)
    {items : List Item}
    (hsorted : Sorted items)
    {payload : Bytes}
    {incoming : Message Id}
    (hin : Message.decode payload = .ok incoming) :
    respond fingerprint (items.filter (fun item => unsettledFloor incoming ≤ item.seq)) incoming =
      respond fingerprint items incoming := by
  rw [respond, respond]
  rw [overSpans_congr 0 fun span hspan budget => ?_]
  obtain ⟨lower, range⟩ := span
  by_cases hopen : range.mode = .skip
  · simp only [respondSpan, hopen]
  · have hfloor := unsettledFloor_le (wellFormed_of_decode hin).1 hspan hopen
    have hmine : itemsIn (items.filter (fun item => unsettledFloor incoming ≤ item.seq)) lower
        range.upper = itemsIn items lower range.upper := by
      rw [itemsIn_eq_filter (List.Pairwise.filter _ hsorted), itemsIn_eq_filter hsorted,
        filter_filter]
      refine filter_congr fun item _ => ?_
      rw [Bool.eq_iff_iff]
      simp only [Bool.and_eq_true, decide_eq_true_eq]
      omega
    simp only [respondSpan, hmine]

/-- Ten of forty items are below the floor. -/
theorem respond_above_floor_mixedMessage :
    ((denseItems 40).filter (fun item => unsettledFloor mixedMessage ≤ item.seq)).length = 30 ∧
      respond (fun _ => fixed [])
        ((denseItems 40).filter (fun item => unsettledFloor mixedMessage ≤ item.seq)) mixedMessage =
        respond (fun _ => fixed []) (denseItems 40) mixedMessage :=
  ⟨by decide +kernel, respond_above_floor _ (ascending_denseItems 40).sorted decode_mixedMessage⟩

/-- Where the log has no more rows above the floor than the window holds, the window has all
of every span that is not settled. -/
theorem mem_window_of_few (hin : inc.WellFormed)
    (hfew : (rowsFrom db g (unsettledFloor inc)).length ≤ maxItemsPerReconcile)
    (hspan : (lower, range) ∈ inc.spans) (hopen : range.mode ≠ .skip) {row}
    (hrow : row ∈ db.envelopes) (hg : row.groupId = g) (hlow : lower ≤ row.seq) :
    rowToItem row ∈ window db g inc := by
  have hfloor := unsettledFloor_le hin hspan hopen
  have hmem : row ∈ rowsFrom db g (unsettledFloor inc) :=
    mem_rowsFrom.mpr ⟨hrow, hg, le_trans (min_le_left _ _) (le_trans hfloor hlow)⟩
  rw [window, items, take_of_length_le hfew]
  exact mem_map_of_mem hmem

theorem windowSuffices_of_few (fp : List Item → Id) (queue : Readings)
    {inc} (hin : inc.WellFormed)
    (hfew : (rowsFrom db g (unsettledFloor inc)).length ≤ maxItemsPerReconcile) :
    WindowSuffices fp queue db g inc :=
  fun _ _ hspan hopen _ _ _ hrow hg hlow _ =>
    mem_window_of_few hin hfew hspan hopen hrow hg hlow

/-- The rows of every log that sends and compactions leave are kept. -/
theorem kept_of_log {c config others s}
    (hcons : Log.Consistent others s) (horiginates : Log.Originates c config s) (g : Bytes) :
    Kept s.db g where
  fits := by
    intro row hrow _
    obtain ⟨e, seq, now, hvalid, hseq, rfl⟩ := horiginates row hrow
    rw [rowEnvelope_rowOf (Envelope.validate_ok hvalid.2).1]
    exact
      { hvalid.fits with
        epoch := toU64_asI64_lt _
        seq := lt_trans hseq (by decide)
        ts := toU64_asI64_lt _ }
  unique := by
    have hg : ∀ row ∈ s.db.envelopes.filter (·.groupId = g),
        row.groupId = g := fun row hrow => of_decide_eq_true (mem_filter.mp hrow).2
    refine ((hcons.hashes.and hcons.seqs).sublist filter_sublist).imp_of_mem ?_
    intro a b ha hb hab
    have heq : a.groupId = b.groupId := (hg a ha).trans (hg b hb).symm
    exact ⟨fun hh => hab.1 ⟨heq, hh⟩, ne_of_lt (hab.2 heq)⟩

end Few

/-! ## A log one row longer than the window -/

section Sample

def denseGroup : Bytes := List.replicate 32 0

def denseRow (seq : Nat) : Log.EnvelopeRow where
  groupId := denseGroup
  hash := idBytes (denseItem seq).id
  v := envelopeVersion
  enc := 1
  epoch := 0
  seq := seq
  ts := 0
  ct := [0]

/-- A group of `count` envelopes, nothing compacted. -/
def denseLog (count : Nat) : Log.Db where
  groups := fun _ => none
  envelopes := (List.range' 1 count).map denseRow
  used := fun _ => 0
  anchors := []

/-- A fingerprint that tells lists of different lengths apart. -/
def countItems (list : List Item) : Id := (denseItem list.length).id

/-- A connection that has nothing queued. -/
def idleQueue : Readings := ⟨.fresh, .fresh, .fresh⟩

theorem denseItem_id_inj {a b} (ha : a < idCount) (hb : b < idCount)
    (h : (denseItem a).id = (denseItem b).id) : a = b := by
  have hval := congrArg Fin.val h
  simpa only [denseItem, Nat.mod_eq_of_lt ha, Nat.mod_eq_of_lt hb] using hval

theorem rowToItem_denseRow (seq : Nat) : rowToItem (denseRow seq) = denseItem seq := by
  rw [rowToItem, denseRow, fixed_idBytes]
  rfl

theorem rowsFrom_denseLog (n : Nat) :
    rowsFrom (denseLog n) denseGroup 0 = (range' 1 n).map denseRow := by
  have hall : (denseLog n).envelopes.filter (fun row =>
      row.groupId = denseGroup ∧ min 0 (bigintBound - 1) ≤ row.seq) =
        (range' 1 n).map denseRow := by
    refine filter_eq_self.mpr (forall_mem_map.mpr fun seq _ => ?_)
    simp [denseRow]
  rw [rowsFrom, hall]
  refine List.Pairwise.insertionSort_eq (pairwise_map.mpr ?_)
  exact (pairwise_lt_range' 1).imp fun hlt => le_of_lt hlt

variable {n : Nat}

theorem kept_denseLog (hn : n < bigintBound) : Kept (denseLog n) denseGroup where
  fits := by
    refine forall_mem_map.mpr fun seq hseq _ => ?_
    have hlt : seq < 2 ^ 64 := by
      have := (mem_range'_1.mp hseq).2
      simp only [bigintBound] at hn
      omega
    refine ⟨?_, ?_, ?_, hlt, ?_, ?_, ?_⟩ <;>
      simp [rowEnvelope, denseRow, denseGroup, groupBytes, envelopeVersion, idBytes,
        envelopeHashBytes, toU64]
  unique := by
    refine .sublist filter_sublist (pairwise_map.mpr ?_)
    refine (pairwise_lt_range' 1).imp_of_mem fun {a b} ha hb hlt => ?_
    have hsmall : ∀ seq ∈ range' 1 n, seq < idCount := fun seq hseq => by
      have hle := (mem_range'_1.mp hseq).2
      exact lt_of_lt_of_le (by omega) (show bigintBound ≤ idCount by decide)
    refine ⟨fun hh => ?_, ne_of_lt hlt⟩
    have hid : (denseItem a).id = (denseItem b).id := by
      rw [← fixed_idBytes (denseItem a).id, ← fixed_idBytes (denseItem b).id]
      exact congrArg fixed hh
    exact absurd (denseItem_id_inj (hsmall a ha) (hsmall b hb) hid) (ne_of_lt hlt)

/-- The client has told the fingerprint of everything it holds. -/
def holdsMessage (count : Nat) : Message Id :=
  ⟨[⟨infinity, .fingerprint (denseItem count).id⟩]⟩

theorem wellFormed_holdsMessage (n : Nat) : (holdsMessage n).WellFormed :=
  ⟨le_refl 1, by simp [holdsMessage, maxRanges], pairwise_singleton _ _, rfl, by
    simp [holdsMessage, Mode.WellFormed]⟩

theorem window_denseLog (hn : maxItemsPerReconcile ≤ n) (held : Nat) :
    window (denseLog n) denseGroup (holdsMessage held) =
      (range' 1 maxItemsPerReconcile).map denseItem := by
  rw [window, show unsettledFloor (holdsMessage held) = 0 from rfl, items, rowsFrom_denseLog,
    ← map_take, take_range'_of_length_ge hn, map_map]
  exact map_congr_left fun seq _ => rowToItem_denseRow seq

theorem logItems_denseLog (n : Nat) :
    logItems (denseLog n) denseGroup = (range' 1 n).map denseItem := by
  rw [logItems, rowsFrom_denseLog, map_map]
  exact map_congr_left fun seq _ => rowToItem_denseRow seq

theorem itemsIn_dense (hn : n < infinity) :
    itemsIn ((range' 1 n).map denseItem) 0 infinity = (range' 1 n).map denseItem := by
  refine itemsIn_eq_self ?_ (forall_mem_map.mpr fun seq hseq => ⟨Nat.zero_le _, ?_⟩)
  · exact pairwise_map.mpr ((pairwise_lt_range' 1).imp fun hlt => le_of_lt hlt)
  · have hle := (mem_range'_1.mp hseq).2
    exact lt_of_le_of_lt (show seq ≤ n by omega) hn

/-- A log one row longer than the window. -/
def longLog : Log.Db := denseLog (maxItemsPerReconcile + 1)

/-- The client holds the first `MAX_ITEMS_PER_RECONCILE` rows of it. -/
def longMessage : Message Id := holdsMessage maxItemsPerReconcile

theorem window_longLog : window longLog denseGroup longMessage =
    (range' 1 maxItemsPerReconcile).map denseItem :=
  window_denseLog (Nat.le_succ _) _

theorem settles_longLog : RelaySettles countItems (window longLog denseGroup longMessage) 0
      ⟨infinity, .fingerprint (denseItem maxItemsPerReconcile).id⟩ := by
  have hn : countItems ((range' 1 maxItemsPerReconcile).map denseItem) =
      (denseItem maxItemsPerReconcile).id := by
    rw [countItems, length_map, length_range']
  rw [window_longLog, RelaySettles, itemsIn_dense (by decide)]
  exact hn

theorem noCollision_longLog : NoCollision countItems longLog denseGroup longMessage := by
  intro lo r hspan heq
  obtain ⟨rfl, rfl⟩ := Prod.mk.inj (mem_singleton.mp hspan)
  rw [window_longLog, longLog, logItems_denseLog, itemsIn_dense (by decide),
    itemsIn_dense (by decide), countItems, countItems] at heq
  simp only [length_map, length_range'] at heq
  exact absurd (denseItem_id_inj (by decide) (by decide) heq) (by decide)

/-- A client that holds all of the window is told that it holds all of the log. -/
theorem last_row_never_named :
    Kept longLog denseGroup ∧ Message.decode longMessage.encode = .ok longMessage ∧
      ¬ Honest countItems longLog denseGroup longMessage
        (reconcile countItems idleQueue (some ⟨longLog, false, false⟩) denseGroup
          longMessage.encode) := by
  have hk : Kept longLog denseGroup := kept_denseLog (by decide)
  have hin : Message.decode longMessage.encode = .ok longMessage :=
    Message.decode_encode (wellFormed_holdsMessage maxItemsPerReconcile)
  refine ⟨hk, hin, fun hhonest => ?_⟩
  have hnothing : wanted countItems longLog denseGroup longMessage = [] := by
    refine eq_nil_iff_forall_not_mem.mpr fun id hid => ?_
    obtain ⟨lower, range, hspan, hunnamed⟩ := mem_push.mp hid
    obtain ⟨rfl, rfl⟩ := Prod.mk.inj (mem_singleton.mp hspan)
    cases hunnamed
  have hwhole : ¬ Cut (window longLog denseGroup longMessage)
      (leftOut countItems idleQueue longLog denseGroup longMessage)
      (0, (⟨infinity, .fingerprint (denseItem maxItemsPerReconcile).id⟩ : Range Id)) := by
    rintro ⟨item, -, hleft⟩
    rw [leftOut, hnothing, drop_nil] at hleft
    cases hleft
  have hlast : denseRow (maxItemsPerReconcile + 1) ∈ longLog.envelopes :=
    mem_map_of_mem (mem_range'_1.mpr (by omega))
  have hwindow := mem_window_of_honest hk hin mem_cons_self settles_longLog hlast rfl
    (Nat.zero_le _) (by decide) noCollision_longLog hhonest nofun hwhole
  rw [window_longLog, rowToItem_denseRow] at hwindow
  obtain ⟨seq, hseq, heq⟩ := mem_map.mp hwindow
  have hsame : seq = maxItemsPerReconcile + 1 := congrArg Item.seq heq
  have hle := (mem_range'_1.mp hseq).2
  omega

/-- A client that holds all of a short log is told so. -/
theorem skips_are_honest_three_rows :
    RelaySettles countItems (window (denseLog 3) denseGroup (holdsMessage 3)) 0
        ⟨infinity, .fingerprint (denseItem 3).id⟩ ∧
      Honest countItems (denseLog 3) denseGroup (holdsMessage 3)
        (reconcile countItems idleQueue (some ⟨denseLog 3, false, false⟩) denseGroup
          (holdsMessage 3).encode) := by
  have hformed := wellFormed_holdsMessage 3
  have hfew : (rowsFrom (denseLog 3) denseGroup (unsettledFloor (holdsMessage 3))).length ≤
      maxItemsPerReconcile := by
    rw [show unsettledFloor (holdsMessage 3) = 0 from rfl, rowsFrom_denseLog]
    decide
  have hwindow : window (denseLog 3) denseGroup (holdsMessage 3) =
      logItems (denseLog 3) denseGroup :=
    congrArg (List.map rowToItem) (take_of_length_le hfew)
  have hfree : NoCollision countItems (denseLog 3) denseGroup (holdsMessage 3) := by
    intro lower range _ _
    rw [hwindow]
  refine ⟨?_, (skips_are_honest_iff idleQueue (kept_denseLog (by decide))
    (Message.decode_encode hformed) hfree).mpr (windowSuffices_of_few _ _ hformed hfew)⟩
  rw [hwindow, logItems_denseLog, RelaySettles, itemsIn_dense (by decide)]
  exact rfl

end Sample

end WealdRelay.Sync
