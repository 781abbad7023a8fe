import WealdRelay.Media.Quota

/-!
# What each transaction does alone

One lemma for each function of the media store says what it leaves when it commits with
nobody else about: which rows were there, what became of them and of the quota row.
`Call.perform` is a call as one step, and a refused call leaves everything as it was.
-/

namespace WealdRelay.Media

open Lib List Function Write

namespace Call

/-- The workspace a call is about. -/
def workspace : Call → Bytes
  | ensureQuotaRow workspace _ => workspace
  | setQuotaLimit workspace _ => workspace
  | reserve workspace _ _ _ _ _ _ _ => workspace
  | claim workspace _ _ _ => workspace
  | release workspace _ => workspace
  | sweepUnclaimed workspace _ _ _ => workspace
  | finishDeletion workspace _ => workspace

/-- A call as one step. -/
def perform (call : Call) (tables : Tables) : Tables :=
  match call.program.alone Write.apply tables with
  | .ok (_, after) => after
  | .error _ => tables

end Call

section Alone

variable {α : Type} {out : α × Tables} {ts t : Tables} {ws g hash : Bytes}
  {row : Reservation} {q : Quota}

theorem alone_updateQuota (q : Quota) {clamps : Quota → Bool} {g : Quota → Quota}
    {f : Unit → Tx α} (h : ((updateQuota ws clamps g).bind f).alone apply ts = .ok out)
    (hq : (ts ws).quota = some q) :
    (f ()).alone apply (update ts ws
      { ts ws with quota := some (g q) }) = .ok out := by
  simp only [updateQuota, Prog.bind, Prog.alone, hq] at h
  cases hall : (g q).allowed with
  | false => simp [hall, Prog.alone] at h
  | true => simpa [hall, apply] using h

/-- Deleting the rows a clause names leaves the rows it does not name. -/
theorem delete_matching {l : Ledger} (hids : (l.rows.map (·.reservationId)).Nodup)
    (p : Reservation → Bool) :
    ((l.rows.filter p).map (deleteRow ws ·.reservationId)).foldl
      (fun l write => write.onLedger l) l = { l with rows := l.rows.filter (!p ·) } := by
  have hfold : ∀ (gone : List Reservation) (l : Ledger),
      (gone.map (deleteRow ws ·.reservationId)).foldl
        (fun l write => write.onLedger l) l = ⟨l.quota, l.rows.filter
            (fun row => !(gone.map (·.reservationId)).contains row.reservationId)⟩ := by
    intro gone
    induction gone with
    | nil => simp
    | cons first gone ih =>
      intro l
      rw [map_cons, foldl_cons, ih]
      simp only [onLedger, Table.remove, filter_filter]
      congr 1
      refine filter_congr fun row _ => ?_
      by_cases heq : row.reservationId = first.reservationId
      · simp [heq]
      · simp [heq]
  rw [hfold]
  congr 1
  refine filter_congr fun row hrow => ?_
  cases hp : p row with
  | true => simpa using ⟨row, ⟨hrow, hp⟩, rfl⟩
  | false =>
    simp only [Bool.not_false, Bool.not_eq_true', contains_eq_mem, decide_eq_false_iff_not,
      mem_map, mem_filter, not_exists, not_and, and_imp]
    intro x ho hpo hid
    rw [inj_on_of_nodup_map hids ho hrow hid, hp] at hpo
    cases hpo

theorem settle_delete_matching (hids : ((ts ws).rows.map (·.reservationId)).Nodup)
    (p : Reservation → Bool) :
    Prog.settle apply ((matching ws p ts).map (deleteRow ws ·.reservationId)) ts = update ts ws
          { ts ws with rows := (ts ws).rows.filter (!p ·) } := by
  funext x
  by_cases ho : x = ws
  · subst ho
    rw [settle_at (by simp), matching, delete_matching hids, update_self]
  · rw [settle_of_untouched (by simpa using fun _ _ h => ho h.symm), update_of_ne ho]

variable {now : Int}

variable (hbal : (ts ws).Balanced)
include hbal

/-- `claim_in`: the one row in flight becomes final, or there is none. -/
theorem claimIn_ok {out} (h : (claimIn ws g hash now).alone apply ts = .ok (out, t)) :
    (∃ row q, row ∈ (ts ws).rows ∧ row.inFlight g hash = true ∧
      (ts ws).quota = some q ∧ out = .claimed ∧
      t = update ts ws ⟨some { q with
            reservedBytes := q.reservedBytes - row.bytes
            storedBytes := q.storedBytes + row.bytes },
          Table.put Reservation.reservationId (ts ws).rows (row.claimedAt now)⟩) ∨
    ((ts ws).rows.filter (·.inFlight g hash) = [] ∧ t = ts ∧
      out = if ((ts ws).rows.filter (·.isFor g hash)).isEmpty
        then .noReservation else .alreadyClaimed) := by
  rcases matching_cases (hbal.inFlight_at_most_one g hash) with
    hmatch | ⟨row, hrow, hin, hmatch⟩
  · right
    simp only [claimIn, updateRows, selectRows, Prog.bind_eq, Prog.bind, Prog.alone, hmatch,
      map_nil, Prog.settle_nil, head?_nil, Prog.pure_eq, Except.ok.injEq,
      Prod.mk.injEq] at h
    exact ⟨hmatch, h.2.symm, h.1.symm⟩
  · left
    have hopen := Reservation.open_of_inFlight hin
    obtain ⟨q, hq⟩ := hbal.quota_of_mem hrow
    have hle := bytes_le_reserved hbal hrow hopen hq
    refine ⟨row, q, hrow, hin, hq, ?_⟩
    simp only [claimIn, updateRows, Prog.bind_eq, Prog.bind, Prog.alone, hmatch,
      map_cons, map_nil, Prog.settle_cons, Prog.settle_nil, head?_cons] at h
    have hend := alone_updateQuota q h (by simp [apply, hq])
    simp only [Prog.pure_eq, Prog.alone, Except.ok.injEq, Prod.mk.injEq] at hend
    refine ⟨hend.1.symm, ?_⟩
    rw [← hend.2, max_eq_left (by omega)]
    simp [apply]

variable {id : Nat}

/-- What is left when one reservation has gone with its bytes. -/
theorem deleteOne_ok {p : Reservation → Bool} {clamps : Reservation → Quota → Bool}
    {g : Reservation → Quota → Quota} {none'} {some' : Reservation → α} {ans}
    (h : ((deleteRows ws (fun row => row.reservationId = id && p row)).bind (fun gone =>
      match gone.head? with
      | none => .done none'
      | some row => (updateQuota ws (clamps row) (g row)).bind
          (fun _ => .done (some' row)))).alone apply ts = .ok (ans, t)) :
    (∃ row q, row ∈ (ts ws).rows ∧ row.reservationId = id ∧ p row = true ∧
      (ts ws).quota = some q ∧ ans = some' row ∧
      t = update ts ws ⟨some (g row q),
        (ts ws).rows.filter (fun row => !(row.reservationId = id && p row))⟩) ∨
    ((ts ws).rows.filter (fun row => row.reservationId = id && p row) = [] ∧
      t = ts ∧ ans = none') := by
  rcases matching_cases (hbal.id_at_most_one id p) with hmatch | ⟨row, hrow, hin, hmatch⟩
  · right
    simp only [deleteRows, Prog.bind, Prog.alone, hmatch, map_nil, Prog.settle_nil,
      head?_nil, Except.ok.injEq, Prod.mk.injEq] at h
    exact ⟨hmatch, h.2.symm, h.1.symm⟩
  · left
    simp only [Bool.and_eq_true, decide_eq_true_eq] at hin
    obtain ⟨q, hq⟩ := hbal.quota_of_mem hrow
    refine ⟨row, q, hrow, hin.1, hin.2, hq, ?_⟩
    simp only [deleteRows, Prog.bind, Prog.alone] at h
    rw [settle_delete_matching hbal.ids] at h
    simp only [hmatch, head?_cons] at h
    have hend := alone_updateQuota q h (by simp [hq])
    simp only [Prog.alone, Except.ok.injEq, Prod.mk.injEq] at hend
    refine ⟨hend.1.symm, ?_⟩
    rw [← hend.2]
    simp

/-- `release_in`: a row in flight leaves with its promise, or there is none. -/
theorem releaseIn_ok {ans} (h : (releaseIn ws id).alone apply ts = .ok (ans, t)) :
    (∃ row q, row ∈ (ts ws).rows ∧ row.reservationId = id ∧
      row.finalized = false ∧ (ts ws).quota = some q ∧ ans = some row.bytes ∧
      t = update ts ws
        ⟨some { q with reservedBytes := q.reservedBytes - row.bytes }, (ts ws).rows.filter
            (fun row => !(row.reservationId = id && !row.finalized))⟩) ∨
    ((ts ws).rows.filter (fun row => row.reservationId = id && !row.finalized) = [] ∧
      t = ts ∧ ans = none) := by
  rcases deleteOne_ok hbal h with ⟨row, q, hrow, hid, hopen, hq, hans, ha⟩ | hnone
  · left
    simp only [Bool.not_eq_true'] at hopen
    have hle := bytes_le_reserved hbal hrow hopen hq
    rw [max_eq_left (by omega)] at ha
    exact ⟨row, q, hrow, hid, hopen, hq, hans, ha⟩
  · exact .inr hnone

/-- `finish_deletion`: a final row leaves with its bytes, or there is none. -/
theorem finishDeletion_ok (h : (finishDeletion ws id).alone apply ts = .ok ((), t)) :
    (∃ row q, row ∈ (ts ws).rows ∧ row.reservationId = id ∧
      row.finalized = true ∧ (ts ws).quota = some q ∧
      t = update ts ws ⟨some { q with storedBytes := q.storedBytes - row.bytes },
          (ts ws).rows.filter (fun row => !(row.reservationId = id && row.finalized))⟩) ∨
    ((ts ws).rows.filter (fun row => row.reservationId = id && row.finalized) = [] ∧ t = ts) := by
  rcases deleteOne_ok hbal h with ⟨row, q, hrow, hid, hfinal, hq, -, ha⟩ | hnone
  · left
    have hle := bytes_le_stored hbal hrow hfinal hq
    rw [max_eq_left (by omega)] at ha
    exact ⟨row, q, hrow, hid, hfinal, hq, ha⟩
  · exact .inr ⟨hnone.1, hnone.2.1⟩

variable {grace : Int}

omit hbal in
/-- `lock_unclaimed` changes nothing, and what it holds is stale. -/
theorem lockUnclaimed_ok {held}
    (h : (lockUnclaimed ws id grace now).alone apply ts = .ok (held, t)) :
    t = ts ∧ (held = true → ∃ row ∈ (ts ws).rows, row.reservationId = id ∧
      row.stale grace now = true) := by
  simp only [lockUnclaimed, selectQuotaForUpdate, selectRowsForUpdate, Prog.bind_eq, Prog.bind,
    Prog.pure_eq, Prog.alone, Prog.settle_nil, Except.ok.injEq, Prod.mk.injEq] at h
  obtain ⟨rfl, rfl⟩ := h
  refine ⟨rfl, fun hheld => ?_⟩
  simp only [Bool.not_eq_true'] at hheld
  obtain ⟨row, hstale⟩ := isEmpty_eq_false_iff_exists_mem.mp hheld
  obtain ⟨hrow, hclause⟩ := mem_filter.mp hstale
  simp only [Bool.and_eq_true, decide_eq_true_eq] at hclause
  exact ⟨row, hrow, hclause⟩

/-- The unclaimed collector's transaction: a stale row leaves with its promise. -/
theorem sweepUnclaimed_ok (h : (sweepUnclaimed ws id grace now).alone apply ts = .ok ((), t)) :
    ∃ row q, row ∈ (ts ws).rows ∧ row.reservationId = id ∧
      row.stale grace now = true ∧ (ts ws).quota = some q ∧
      t = update ts ws
        ⟨some { q with reservedBytes := q.reservedBytes - row.bytes }, (ts ws).rows.filter
            (fun row => !(row.reservationId = id && !row.finalized))⟩ := by
  obtain ⟨held, middle, hlock, h⟩ := Prog.of_alone_bind h
  obtain ⟨rfl, hstale⟩ := lockUnclaimed_ok hlock
  cases held with
  | false => cases h
  | true =>
    obtain ⟨row, hrow, hid, hstale⟩ := hstale rfl
    obtain ⟨ans, released, hrel, h⟩ := Prog.of_alone_bind h
    rcases releaseIn_ok hbal hrel with
      ⟨x, q, ho, heq, -, hq, rfl, rfl⟩ | ⟨-, -, rfl⟩
    · obtain rfl : x = row :=
        inj_on_of_nodup_map hbal.ids ho hrow (heq.trans hid.symm)
      cases h
      exact ⟨x, q, hrow, hid, hstale, hq, rfl⟩
    · cases h

omit hbal in
/-- A row whose window has passed is not a final one. -/
theorem filter_lapsed_unsettled (rows : List Reservation) (g hash : Bytes) (now : Int) :
    (rows.filter (!·.settled g hash)).filter (·.lapsed now) = rows.filter (·.lapsed now) := by
  rw [filter_filter]
  refine filter_congr fun row _ => ?_
  cases hfinal : row.finalized with
  | true => simp [Reservation.lapsed, hfinal]
  | false => simp [Reservation.lapsed, Reservation.settled, hfinal]

variable {ans : Reserved} {lim : Option Int} {bytes stored ttl : Int}

/-- Retiring the final rows of an object returns their bytes. -/
theorem retire_ok (hq : (ts ws).quota = some q)
    (h : (retire ws g hash q).alone apply ts = .ok (stored, t)) :
    stored = q.storedBytes - totalBytes ((ts ws).rows.filter (·.settled g hash)) ∧
      t = update ts ws ⟨some { q with storedBytes := stored },
        (ts ws).rows.filter (!·.settled g hash)⟩ := by
  simp only [retire, deleteRows, Prog.bind_eq, Prog.bind, Prog.alone] at h
  rw [settle_delete_matching hbal.ids] at h
  generalize hstale : matching ws (·.settled g hash) ts = stale at h
  have hfilter : (ts ws).rows.filter (·.settled g hash) = stale := hstale
  have hsub : stale.Sublist (ts ws).rows := by
    rw [← hfilter]
    exact filter_sublist
  have hfinal : ∀ row ∈ stale, row.finalized = true := by
    intro row hrow
    rw [← hfilter] at hrow
    exact Reservation.final_of_settled (of_mem_filter hrow)
  rw [hfilter]
  cases hempty : stale.isEmpty with
  | true =>
    have hnil := isEmpty_iff.mp hempty
    subst hnil
    simp only [reclaim, isEmpty_nil, if_true, Prog.alone, Except.ok.injEq, Prod.mk.injEq] at h
    obtain ⟨rfl, rfl⟩ := h
    refine ⟨by simp [totalBytes], ?_⟩
    rw [← hq]
  | false =>
    have hle := totalBytes_le_stored hbal hsub hfinal hq
    have hall := hbal.allowed q hq
    simp only [Quota.allowed, Bool.and_eq_true, decide_eq_true_eq] at hall
    have htotal := saturating_total (fun row hrow => hbal.positive row (hsub.subset hrow))
      (le_refl 0)
      (by omega : (0 : Int) + totalBytes stale ≤ maxI64)
    rw [zero_add] at htotal
    rw [reclaim, hempty, htotal] at h
    have hend := alone_updateQuota q h (by simp [hq])
    simp only [Prog.alone, Except.ok.injEq, Prod.mk.injEq] at hend
    obtain ⟨rfl, rfl⟩ := hend
    exact ⟨max_eq_left (by omega), by simp⟩

omit hbal in
/-- Charging a new upload adds its row and its promise. -/
theorem charge_ok (current : Quota) (hcur : (ts ws).quota = some current)
    (hle : totalBytes ((ts ws).rows.filter (·.lapsed now)) ≤ q.reservedBytes)
    (h : (charge ws g hash bytes ttl id now q stored).alone apply ts = .ok (ans, t)) :
    ans = .active id ∧ overLimit q.limitBytes stored (q.reservedBytes -
        totalBytes ((ts ws).rows.filter (·.lapsed now))) bytes = false ∧
      insertable (newReservation g hash bytes ttl id now) (ts ws) = true ∧
      t = update ts ws ⟨some { current with reservedBytes := current.reservedBytes + bytes },
          (ts ws).rows ++ [newReservation g hash bytes ttl id now]⟩ := by
  simp only [charge, liveReserved, insertRow, Prog.bind_eq, Prog.bind, Prog.alone,
    Prog.settle_nil, matching] at h
  rw [max_eq_left (by omega)] at h
  cases hover : overLimit q.limitBytes stored (q.reservedBytes -
      totalBytes ((ts ws).rows.filter (·.lapsed now))) bytes with
  | true => simp [hover, Prog.alone] at h
  | false =>
    cases hinsert : insertable (newReservation g hash bytes ttl id now) (ts ws) with
    | false => simp [hover, Prog.alone, hinsert] at h
    | true =>
      simp only [hover, Bool.false_eq_true, if_false, Prog.alone, hinsert, if_true,
        Prog.settle_cons, Prog.settle_nil, Prog.done_bind] at h
      have hend := alone_updateQuota current h (by simp [apply, hcur])
      simp only [Prog.pure_eq, Prog.alone, Except.ok.injEq, Prod.mk.injEq] at hend
      refine ⟨hend.1.symm, rfl, rfl, ?_⟩
      rw [← hend.2]
      simp [apply]

/-- `reserve` for an object that is not in the store: renew the row in flight, or retire
what is stale and charge a new one. -/
theorem reserve_ok (h : (reserve ws g hash bytes false ttl id now).alone apply ts = .ok (ans, t)) :
    (∃ row, row ∈ (ts ws).rows ∧ row.inFlight g hash = true ∧ ans = .active row.reservationId ∧
      t = update ts ws
        { ts ws with
          rows := Table.put Reservation.reservationId (ts ws).rows (refreshed ttl now row) }) ∨
    ((ts ws).rows.filter (·.inFlight g hash) = [] ∧ ans = .active id ∧
      ∃ q stored, (ts ws).quota = some q ∧ stored = q.storedBytes -
          totalBytes ((ts ws).rows.filter (·.settled g hash)) ∧
        overLimit q.limitBytes stored (q.reservedBytes -
          totalBytes ((ts ws).rows.filter (·.lapsed now))) bytes = false ∧
        insertable (newReservation g hash bytes ttl id now)
          ⟨some q, (ts ws).rows.filter (!·.settled g hash)⟩ = true ∧
        t = update ts ws ⟨some { q with
              storedBytes := stored
              reservedBytes := q.reservedBytes + bytes },
            (ts ws).rows.filter (!·.settled g hash) ++
              [newReservation g hash bytes ttl id now]⟩) := by
  simp only [reserve, selectQuotaForUpdate, selectRowsForUpdate, Prog.bind_eq, Prog.bind,
    Prog.alone, Prog.settle_nil, Bool.false_eq_true, if_false] at h
  cases hq : (ts ws).quota with
  | none => simp [hq, Prog.alone] at h
  | some q =>
    simp only [hq, Prog.alone, Prog.settle_nil] at h
    rcases matching_cases (hbal.inFlight_at_most_one g hash) with
      hmatch | ⟨row, hrow, hin, hmatch⟩
    · right
      simp only [hmatch, head?_nil] at h
      obtain ⟨stored, middle, hretire, h⟩ := Prog.of_alone_bind h
      obtain ⟨hstored, rfl⟩ := retire_ok hbal hq hretire
      have hlapsed := filter_lapsed_unsettled (ts ws).rows g hash now
      have hle : totalBytes ((ts ws).rows.filter (·.lapsed now)) ≤
          q.reservedBytes := lapsed_le_reserved hbal hq now
      obtain ⟨hans, hover, hinsert, rfl⟩ := charge_ok
        { q with storedBytes := stored } (by simp)
        (by simpa [hlapsed] using hle) h
      simp only [update_self, hlapsed, update_idem] at hover hinsert ⊢
      exact ⟨hmatch, hans, q, stored, rfl, hstored, hover, hinsert, rfl⟩
    · left
      have honly : matching ws (·.reservationId = row.reservationId) ts = [row] :=
        hbal.only_row hrow
      simp only [hmatch, head?_cons, updateRows, Prog.bind, Prog.alone, honly,
        map_cons, map_nil, Prog.settle_cons, Prog.settle_nil, Prog.pure_eq,
        Except.ok.injEq, Prod.mk.injEq] at h
      exact ⟨row, hrow, hin, h.1.symm, h.2.symm⟩

omit hbal

theorem ensureQuotaRow_ok (h : (ensureQuotaRow ws lim).alone apply ts = .ok ((), t)) :
    t = update ts ws
      { ts ws with
        quota := some (match (ts ws).quota with
          | none => ⟨0, 0, lim⟩
          | some q => { q with limitBytes := q.limitBytes.or lim }) } := by
  simp only [ensureQuotaRow, Prog.alone, Except.ok.injEq, Prod.mk.injEq, true_and] at h
  rw [← h]
  cases hq : (ts ws).quota with
  | none | some => simp [apply]

theorem setQuotaLimit_ok (h : (setQuotaLimit ws lim).alone apply ts = .ok ((), t)) :
    t = update ts ws
      { ts ws with
        quota := some (match (ts ws).quota with
          | none => ⟨0, 0, lim⟩
          | some q => { q with limitBytes := lim }) } := by
  simp only [setQuotaLimit, Prog.alone, Except.ok.injEq, Prod.mk.injEq, true_and] at h
  rw [← h]
  cases hq : (ts ws).quota with
  | none | some => simp [apply]

end Alone

variable {ts : Tables} (call : Call) {after : Tables} {x : Bytes}

/-- A program that can commit wherever it began to, keeps the books alone. -/
theorem alone_conserved {α : Type} {p : Tx α} {ans : α}
    (hvalid : Clean [] [] ts → isolation.Valid (fun _ => Clean) p [] [] ts)
    (h : Conserved ts) (hrun : p.alone apply ts = .ok (ans, after)) : Conserved after := by
  have hclean : Clean [] [] ts :=
    ⟨fun t ht => ht.conserved, fun write hwrite => by cases hwrite⟩
  obtain ⟨held, wr, ha, hend⟩ := Isolation.Valid.alone (hvalid hclean) h hrun
  rw [ha]
  exact hend.balanced ts (isolation.rely_refl h)

theorem claimAll_of_ne {ws g : Bytes} {now : Int} {hashes : List Bytes}
    (hcons : Conserved ts) (ho : x ≠ ws)
    (h : (claimAll ws g now hashes).alone apply ts = .ok ((), after)) : after x = ts x := by
  induction hashes generalizing ts with
  | nil =>
    cases h
    rfl
  | cons hash hashes ih =>
    obtain ⟨out, middle, hclaim, h⟩ := Prog.of_alone_bind h
    have hk : Conserved middle :=
      alone_conserved (claimIn_clean · now) hcons hclaim
    have heq : middle x = ts x := by
      rcases claimIn_ok (hcons ws) hclaim with
        ⟨row, q, -, -, -, -, rfl⟩ | ⟨-, rfl, -⟩
      · exact update_of_ne ho _ _
      · rfl
    cases out with
    | claimed | alreadyClaimed => exact (ih hk h).trans heq
    | noReservation => cases h

theorem Call.perform_of_ne (hcons : Conserved ts) (ho : x ≠ call.workspace) :
    call.perform ts x = ts x := by
  have hbal := hcons call.workspace
  rw [perform]
  cases hrun : call.program.alone apply ts with
  | error reason => rfl
  | ok out =>
    obtain ⟨⟨⟩, after⟩ := out
    cases call with
    | ensureQuotaRow ws lim =>
      rw [ensureQuotaRow_ok hrun]
      exact update_of_ne ho _ _
    | setQuotaLimit ws lim =>
      rw [setQuotaLimit_ok hrun]
      exact update_of_ne ho _ _
    | reserve ws g hash bytes alreadyStored ttl id now =>
      obtain ⟨ans, middle, hreserve, hdone⟩ := Prog.of_alone_bind hrun
      cases hdone
      cases alreadyStored with
      | true =>
        cases hreserve
        rfl
      | false =>
        rcases reserve_ok hbal hreserve with
          ⟨row, -, -, -, hupdate⟩ | ⟨-, -, q, stored, -, -, -, -, hupdate⟩
        · rw [hupdate]
          exact update_of_ne ho _ _
        · rw [hupdate]
          exact update_of_ne ho _ _
    | claim ws g hashes now => exact claimAll_of_ne hcons ho hrun
    | release ws id =>
      obtain ⟨ans, middle, hrel, hdone⟩ := Prog.of_alone_bind hrun
      cases hdone
      rcases releaseIn_ok hbal hrel with
        ⟨row, q, -, -, -, -, -, hupdate⟩ | ⟨-, heq, -⟩
      · rw [hupdate]
        exact update_of_ne ho _ _
      · rw [heq]
    | sweepUnclaimed ws id grace now =>
      obtain ⟨row, q, -, -, -, -, rfl⟩ := sweepUnclaimed_ok hbal hrun
      exact update_of_ne ho _ _
    | finishDeletion ws id =>
      rcases finishDeletion_ok hbal hrun with
        ⟨row, q, -, -, -, -, hupdate⟩ | ⟨-, heq⟩
      · rw [hupdate]
        exact update_of_ne ho _ _
      · rw [heq]

theorem Call.perform_conserved (h : Conserved ts) : Conserved (call.perform ts) := by
  rw [perform]
  cases hrun : call.program.alone apply ts with
  | error reason => exact h
  | ok out =>
    obtain ⟨ans, after⟩ := out
    obtain ⟨held, wr, ha, hcomm⟩ := Isolation.Valid.alone (call.sound ts) h hrun
    have hk : Conserved after := by
      rw [ha]
      exact (hcomm ts (isolation.rely_refl h)).1
    exact hk

end WealdRelay.Media
