import WealdRelay.Sync.Reconcile

/-!
# The backfill of a subscription

`subscribe` passes its frame and byte allowances down to `log::since`, which stops after the row
that crosses the bytes, and then cuts what it read by the allowances as they stand by now. The
read is meant to stop only where it cannot change that answer. It can when the writer has
emptied the queue in between: `backfill_eq_unbounded` says when it does not, and that it never
does while the byte allowance has not grown.
-/

namespace WealdRelay.Sync

open List

/-- What the filters of `subscribe` leave of the envelopes that were read: `slots` is the queue
before the read, the other two are the queue after it. -/
def cutToFit (slots bytesNow slotsNow : Hub.OutboundSender) (read : List Bytes) : List Bytes :=
  let envelopes := read.take (pushFrameAllowance slots)
  envelopes.take (min
    (fitsInBudget envelopes (pushByteAllowance bytesNow)
      (fun envelope => (Hub.Frame.push []).queuedBytes + envelope.length))
    (pushFrameAllowance slotsNow))

section Cuts

variable (slots bytes bytesNow slotsNow : Hub.OutboundSender)
variable (db : Log.Db) (group : Bytes) (fromSeq : Nat)

/-- The envelopes `subscribe` queues. -/
def backfill : List Bytes :=
  cutToFit slots bytesNow slotsNow
    (Log.since db group fromSeq (pushFrameAllowance slots) (pushByteAllowance bytes))

/-- The same filters over all rows beyond the cursor. -/
def unboundedBackfill : List Bytes :=
  cutToFit slots bytesNow slotsNow ((rowsFrom db group fromSeq).map Log.encodeRow)

end Cuts

section Loop

variable {α : Type} {cost : α → Nat} {allowance spent : Nat}

theorem le_fitsLoop (taken : Nat) (items : List α) :
    taken ≤ fitsLoop allowance cost spent taken items := by
  induction items generalizing spent taken with
  | nil => exact le_rfl
  | cons item rest ih =>
    rw [fitsLoop]
    split
    · exact le_rfl
    · exact (Nat.le_succ _).trans (ih _)

/-- Of a front the filter takes what it takes of the whole, as far as the front goes. -/
theorem fitsLoop_front (taken : Nat) (front rest : List α) :
    fitsLoop allowance cost spent taken front =
      min (fitsLoop allowance cost spent taken (front ++ rest)) (taken + front.length) := by
  induction front generalizing spent taken with
  | nil => exact (min_eq_right (le_fitsLoop taken rest)).symm
  | cons item front ih =>
    simp only [cons_append, fitsLoop, length_cons]
    split
    · exact (min_eq_left (Nat.le_add_right _ _)).symm
    · rw [ih, Nat.succ_add_eq_add_succ]

theorem take_front {front items : List α} (h : front <+: items) {count : Nat}
    (hcount : count ≤ front.length) : items.take count = front.take count := by
  obtain ⟨rest, rfl⟩ := h
  exact take_append_of_le_length hcount

theorem take_min_length {front items : List α} (h : front <+: items) (count most : Nat) :
    front.take (min (min count front.length) most) =
      (items.take (min count most)).take front.length := by
  rw [← take_front h ((min_le_left _ _).trans (min_le_right _ _)), take_take]
  exact congrArg items.take (by omega)

theorem fitsInBudget_front {front items : List α} (h : front <+: items) :
    fitsInBudget front allowance cost = min (fitsInBudget items allowance cost) front.length := by
  obtain ⟨rest, rfl⟩ := h
  simp only [fitsInBudget]
  split
  · exact (Nat.zero_min _).symm
  · rw [fitsLoop_front 0 front rest, Nat.zero_add]

/-- The read reaches as many rows as there are before its bytes are spent, and one more. -/
theorem le_length_cutAt {maxBytes read : Nat} (hread : read ≤ maxBytes) {count : Nat}
    {rows : List Log.EnvelopeRow} (hcount : count ≤ rows.length) :
    count ≤ (Log.cutAt maxBytes read rows).length ↔
      read + (((rows.map Log.encodeRow).take (count - 1)).map length).sum ≤ maxBytes := by
  induction rows generalizing read count with
  | nil => simpa [Nat.le_zero.mp hcount] using hread
  | cons row rows ih =>
    rcases count with _ | _ | count
    · simpa using hread
    · simp only [Log.cutAt]
      split <;> simpa using hread
    · simp only [Log.cutAt, Nat.add_sub_cancel, map_cons, take_succ_cons, sum_cons,
        ← Nat.add_assoc]
      split
      next hcross => simp only [length_singleton]; omega
      next hmore =>
        rw [length_cons, Nat.add_le_add_iff_right, ih (not_lt.mp hmore)
          (Nat.le_of_succ_le_succ hcount), Nat.add_sub_cancel]

theorem fitsLoop_of_lt (h : allowance < spent) (taken : Nat) (items : List α) :
    fitsLoop allowance cost spent (taken + 1) items = taken + 1 := by
  cases items with
  | nil => rfl
  | cons item rest =>
    rw [fitsLoop, if_pos ⟨Nat.succ_pos taken, Nat.lt_add_right _ h⟩]

/-- The read goes as far as a filter with no more room than it: a frame costs more than the
envelope in it. -/
theorem fitsLoop_cutAt {maxBytes read extra} (hroom : allowance ≤ maxBytes)
    (hread : read ≤ spent) (taken : Nat) (rows : List Log.EnvelopeRow) :
    fitsLoop allowance (extra + ·.length) spent taken
        ((Log.cutAt maxBytes read rows).map Log.encodeRow) =
      fitsLoop allowance (extra + ·.length) spent taken (rows.map Log.encodeRow) := by
  induction rows generalizing read spent taken with
  | nil => rfl
  | cons row rows ih =>
    simp only [Log.cutAt]
    split
    next hcross =>
      simp only [map_cons, map_nil, fitsLoop]
      rw [fitsLoop_of_lt (by omega)]
    next =>
      simp only [map_cons, fitsLoop]
      rw [ih (by omega)]

end Loop

section Agreement

variable (slots bytes bytesNow slotsNow : Hub.OutboundSender)
variable (db : Log.Db) (group : Bytes) (fromSeq : Nat)

/-- What `subscribe` queues is the unbounded batch as far as the read went. -/
theorem backfill_eq_take :
    backfill slots bytes bytesNow slotsNow db group fromSeq =
      (unboundedBackfill slots bytesNow slotsNow db group fromSeq).take
        (Log.cutAt (pushByteAllowance bytes) 0
          ((rowsFrom db group fromSeq).take (pushFrameAllowance slots))).length := by
  have hframes : min (pushFrameAllowance slots) Log.maxBackfill = pushFrameAllowance slots :=
    min_eq_left ((min_le_right _ _).trans (by decide))
  have hcut := Log.cutAt_front (pushByteAllowance bytes) 0
    ((rowsFrom db group fromSeq).take (pushFrameAllowance slots))
  have hread : (Log.since db group fromSeq (pushFrameAllowance slots)
      (pushByteAllowance bytes)).take (pushFrameAllowance slots) =
        (Log.cutAt (pushByteAllowance bytes) 0
          ((rowsFrom db group fromSeq).take (pushFrameAllowance slots))).map Log.encodeRow := by
    rw [Log.since, Log.sinceRows, hframes]
    exact take_of_length_le
      ((length_map _).trans_le (hcut.length_le.trans (length_take_le _ _)))
  have hfront := hcut.map Log.encodeRow
  rw [map_take] at hfront
  simp only [backfill, unboundedBackfill, cutToFit, hread]
  rw [fitsInBudget_front hfront, take_min_length hfront, length_map]

/-- What `subscribe` queues is a front of the rows beyond the cursor. It is the one an
unbounded read gives exactly when that one, without its last envelope, is within the byte
allowance that bounded the read, and so whenever the allowance did not grow during it. -/
theorem backfill_eq_unbounded :
    backfill slots bytes bytesNow slotsNow db group fromSeq <+:
        (rowsFrom db group fromSeq).map Log.encodeRow ∧
      (backfill slots bytes bytesNow slotsNow db group fromSeq =
          unboundedBackfill slots bytesNow slotsNow db group fromSeq ↔
        ((unboundedBackfill slots bytesNow slotsNow db group fromSeq).dropLast.map length).sum ≤
          pushByteAllowance bytes) ∧
      (pushByteAllowance bytesNow ≤ pushByteAllowance bytes →
        backfill slots bytes bytesNow slotsNow db group fromSeq =
          unboundedBackfill slots bytesNow slotsNow db group fromSeq) := by
  have hfront : unboundedBackfill slots bytesNow slotsNow db group fromSeq <+:
      ((rowsFrom db group fromSeq).take (pushFrameAllowance slots)).map Log.encodeRow := by
    rw [map_take]
    exact take_prefix _ _
  have hlength := hfront.length_le
  rw [length_map] at hlength
  have hiff := le_length_cutAt (Nat.zero_le (pushByteAllowance bytes)) hlength
  rw [Nat.zero_add, take_front hfront (Nat.sub_le _ _), ← dropLast_eq_take] at hiff
  rw [backfill_eq_take]
  refine ⟨?_, ?_, ?_⟩
  · refine List.IsPrefix.trans ?_ (hfront.trans (.map _ ?_)) <;> exact take_prefix _ _
  · rw [take_eq_self_iff, hiff]
  · intro hroom
    refine take_of_length_le ((length_take_le _ _).trans ((min_le_left _ _).trans ?_))
    have hcut : fitsInBudget _ (pushByteAllowance bytesNow)
        (fun row : Bytes => (Hub.Frame.push []).queuedBytes + row.length) = _ :=
      fitsInBudget_front ((Log.cutAt_front (pushByteAllowance bytes) 0
        ((rowsFrom db group fromSeq).take (pushFrameAllowance slots))).map Log.encodeRow)
    rw [fitsInBudget, fitsLoop_cutAt hroom le_rfl, length_map, map_take] at hcut
    exact min_eq_left_iff.mp hcut.symm

/-- Seven envelopes of a mebibyte, not yet written. -/
def busyQueue : Hub.OutboundSender :=
  { Hub.OutboundSender.fresh with queue := replicate 7 (.frame (.other 1048576)) }

/-- The writer empties the queue during the read: one row was read, and two fit. -/
theorem drained_queue_reads_short :
    (backfill busyQueue busyQueue .fresh .fresh (denseLog 2) denseGroup 0).length = 1 ∧
      (unboundedBackfill busyQueue .fresh .fresh (denseLog 2) denseGroup 0).length = 2 := by
  decide +kernel

end Agreement

end WealdRelay.Sync
