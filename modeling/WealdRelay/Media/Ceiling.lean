import WealdRelay.Media.Effects

/-!
# The ceiling of a workspace

A reservation whose upload window has passed no longer counts against the next one, but
its row stays: it can still be renewed by a repeated request and claimed by a manifest.
So a workspace can be promised more than its ceiling, and then claim all of it:
`stored_past_limit` is the run.

As long as no reservation is renewed or claimed after its window, the stored bytes never
exceed the ceiling: `stored_within_limit`. What every step keeps is that the stored bytes
and the promises still in their window fit together.
-/

namespace WealdRelay.Media

open Lib List Function Ledger

/-! ## Calls in the order of the clock -/

namespace Call

/-- The moment a call begins, where it reads the clock. -/
def moment : Call → Option Int
  | reserve _ _ _ _ _ _ _ now => some now
  | claim _ _ _ now => some now
  | sweepUnclaimed _ _ _ now => some now
  | _ => none

/-- The call does not renew or claim a reservation of the workspace after its window. -/
def Timely (workspace : Bytes) (ledger : Ledger) : Call → Prop
  | reserve workspace' group hash _ alreadyStored _ _ now =>
    workspace' = workspace → alreadyStored = false →
      ∀ row ∈ ledger.rows, row.inFlight group hash = true → now ≤ row.expiresAt
  | claim workspace' group hashes now =>
    workspace' = workspace → ∀ hash ∈ hashes,
      ∀ row ∈ ledger.rows, row.inFlight group hash = true → now ≤ row.expiresAt
  | _ => True

/-- The call does not set the ceiling of the workspace. -/
def KeepsLimit (workspace : Bytes) : Call → Prop
  | setQuotaLimit workspace' _ => workspace' ≠ workspace
  | _ => True

end Call

/-- The tables and the latest moment seen. -/
structure Clocked where
  tables : Tables
  clock : Int

/-- One call, not before the latest moment seen. -/
def Clocked.step (before : Clocked) (call : Call) (after : Clocked) : Prop :=
  before.clock ≤ call.moment.getD before.clock ∧
    after = ⟨call.perform before.tables, call.moment.getD before.clock⟩

/-! ## Promises still in their window -/

namespace Ledger

/-- The row is in flight and its window has not passed. -/
def inWindow (now : Int) (row : Reservation) : Bool := !row.finalized && now ≤ row.expiresAt

/-- The promises still in their window. -/
def liveBytes (ledger : Ledger) (now : Int) : Int :=
  totalBytes (ledger.rows.filter (inWindow now))

variable {l : Ledger} {quota : Quota} {lim now later : Int} {row : Reservation}

theorem liveBytes_eq (l : Ledger) (now : Int) :
    l.liveBytes now = (l.rows.map (weight (inWindow now))).sum :=
  totalBytes_filter _ _

/-- The promises are those in their window and those past it. -/
theorem live_add_lapsed (rows : List Reservation) (now : Int) :
    totalBytes (rows.filter (inWindow now)) + totalBytes (rows.filter (·.lapsed now)) =
      totalBytes (rows.filter (!·.finalized)) := by
  simp only [totalBytes_filter]
  induction rows with
  | nil => rfl
  | cons row rows ih =>
    have hrow : weight (inWindow now) row + weight (·.lapsed now) row =
        weight (!·.finalized) row := by
      cases hfinal : row.finalized with
      | true => simp [weight, inWindow, Reservation.lapsed, hfinal]
      | false =>
        by_cases hnow : now ≤ row.expiresAt
        · simp [weight, inWindow, Reservation.lapsed, hfinal, hnow]
        · simp [weight, inWindow, Reservation.lapsed, hfinal, hnow, not_le.mp hnow]
    simp only [map_cons, sum_cons]
    omega

theorem live_eq_reserved_sub (h : l.Balanced) (hq : l.quota = some quota) (now : Int) :
    l.liveBytes now = quota.reservedBytes - totalBytes (l.rows.filter (·.lapsed now)) := by
  have hsplit := live_add_lapsed l.rows now
  have hreserved := h.reservedBytes quota hq
  simp only [liveBytes, unclaimedBytes] at hsplit hreserved ⊢
  omega

/-- What was stored and what is still promised fit under the ceiling. -/
structure Under (limit now : Int) (ledger : Ledger) : Prop where
  balanced : ledger.Balanced
  fits : ∃ quota, ledger.quota = some quota ∧ quota.limitBytes = some limit ∧
    quota.storedBytes + ledger.liveBytes now ≤ limit

theorem liveBytes_mono (hpos : ∀ row ∈ l.rows, 0 < row.bytes) (hle : now ≤ later) :
    l.liveBytes later ≤ l.liveBytes now := by
  refine totalBytes_sublist (monotone_filter_right _ (fun row hrow => ?_))
    (fun x ho => hpos x (mem_of_mem_filter ho))
  simp only [inWindow, Bool.and_eq_true, decide_eq_true_eq] at hrow ⊢
  exact ⟨hrow.1, hle.trans hrow.2⟩

/-- Time passing takes promises out of their window. -/
theorem Under.at_later (h : l.Under lim now) (hle : now ≤ later) : l.Under lim later := by
  obtain ⟨quota, hq, hlimit, hfits⟩ := h.fits
  have hmono := liveBytes_mono h.balanced.positive hle
  exact ⟨h.balanced, quota, hq, hlimit, by omega⟩

/-- Rows that leave take their promises with them. -/
theorem liveBytes_filter_le (hpos : ∀ row ∈ l.rows, 0 < row.bytes)
    (p : Reservation → Bool) (quota : Option Quota) (now : Int) :
    liveBytes ⟨quota, l.rows.filter p⟩ now ≤ l.liveBytes now :=
  totalBytes_sublist (filter_sublist.filter _) (fun x ho => hpos x (mem_of_mem_filter ho))

/-- A row written over another changes the live promises by their difference. -/
theorem liveBytes_put {old} (row : Reservation) (hids : (l.rows.map (·.reservationId)).Nodup)
    (hold : old ∈ l.rows) (hid : old.reservationId = row.reservationId)
    (quota : Option Quota) (now : Int) :
    liveBytes ⟨quota, Table.put Reservation.reservationId l.rows row⟩ now =
      l.liveBytes now + weight (inWindow now) row - weight (inWindow now) old := by
  have hsum := sum_weight_put (inWindow now) hids hold hid
  rw [liveBytes_eq, liveBytes_eq]
  simp only
  omega

end Ledger

/-! ## What each call keeps -/

section Steps

variable {ts t : Tables} {ws g hash : Bytes} {lim now : Int}

/-- A sum that stays in range does not wrap around. -/
theorem wrappingAdd_eq {a b} (hlow : 0 ≤ a + b) (hhigh : a + b ≤ maxI64) :
    wrappingAdd a b = a + b := by
  simp only [maxI64] at hhigh
  exact Int.bmod_eq_of_le (by omega) (by omega)

theorem liveBytes_nonneg {l : Ledger} (h : l.Balanced) (now : Int) : 0 ≤ l.liveBytes now :=
  totalBytes_nonneg (fun row hrow => h.positive row (mem_of_mem_filter hrow))

/-- A claim of a reservation in its window moves its bytes from promised to stored. -/
theorem claimIn_under {out} (hcons : Conserved ts) (hunder : (ts ws).Under lim now)
    (htimely : ∀ row ∈ (ts ws).rows, row.inFlight g hash = true → now ≤ row.expiresAt)
    (h : (claimIn ws g hash now).alone Write.apply ts = .ok (out, t)) :
    (t ws).Under lim now ∧ ∀ row ∈ (t ws).rows, row ∈ (ts ws).rows ∨ row.finalized = true := by
  have ha : Conserved t := alone_conserved (claimIn_clean · now) hcons h
  obtain ⟨q, hq, hlimit, hfits⟩ := hunder.fits
  rcases claimIn_ok hunder.balanced h with
    ⟨row, quota', hrow, hin, hquota', -, hupdate⟩ | ⟨-, rfl, -⟩
  · have heq : quota' = q := Option.some.inj (hquota'.symm.trans hq)
    subst heq
    have hnow := htimely row hrow hin
    have hopen := Reservation.open_of_inFlight hin
    have hledger := congrFun hupdate ws
    rw [update_self] at hledger
    refine ⟨⟨ha ws, ?_⟩, ?_⟩
    · rw [hledger]
      refine ⟨_, rfl, hlimit, ?_⟩
      rw [liveBytes_put (row.claimedAt now) hunder.balanced.ids hrow rfl]
      have hnew : weight (inWindow now) (row.claimedAt now) = 0 := by
        simp [weight, inWindow, Reservation.claimedAt, Reservation.finalized]
      have hold : weight (inWindow now) row = row.bytes := by
        simp [weight, inWindow, hopen, hnow]
      simp only [hnew, hold]
      omega
    · intro x ho
      rw [hledger] at ho
      rcases Table.mem_put ho with rfl | hmem
      · exact .inr rfl
      · exact .inl hmem
  · exact ⟨hunder, fun row hrow => .inl hrow⟩

theorem claimAll_under {hashes} (hcons : Conserved ts) (hunder : (ts ws).Under lim now)
    (htimely : ∀ hash ∈ hashes, ∀ row ∈ (ts ws).rows,
      row.inFlight g hash = true → now ≤ row.expiresAt)
    (h : (claimAll ws g now hashes).alone Write.apply ts = .ok ((), t)) : (t ws).Under lim now := by
  induction hashes generalizing ts with
  | nil =>
    cases h
    exact hunder
  | cons hash hashes ih =>
    obtain ⟨out, middle, hclaim, h⟩ := Prog.of_alone_bind h
    obtain ⟨hmiddle, hrows⟩ := claimIn_under hcons hunder (htimely hash mem_cons_self) hclaim
    have hk : Conserved middle :=
      alone_conserved (claimIn_clean · now) hcons hclaim
    have hr : ∀ hash ∈ hashes, ∀ row ∈ (middle ws).rows,
        row.inFlight g hash = true → now ≤ row.expiresAt := by
      intro x ho row hrow hin
      rcases hrows row hrow with hb | hfinal
      · exact htimely x (mem_cons_of_mem _ ho) row hb hin
      · simp [Reservation.inFlight, hfinal] at hin
    cases out with
    | claimed | alreadyClaimed => exact ih hk hmiddle hr h
    | noReservation => cases h

/-- A reservation renewed in its window, or one that was compared with the ceiling. -/
theorem reserve_under {ans : Reserved} {bytes ttl : Int} {id : Nat}
    (hsmall : lim + blobLimit ≤ maxI64) (hcons : Conserved ts) (hunder : (ts ws).Under lim now)
    (htimely : ∀ row ∈ (ts ws).rows, row.inFlight g hash = true → now ≤ row.expiresAt)
    (h : (reserve ws g hash bytes false ttl id now).alone Write.apply ts =
      .ok (ans, t)) : (t ws).Under lim now := by
  have ha : Conserved t := alone_conserved (reserve_clean · bytes false ttl id now) hcons h
  have hbal := hunder.balanced
  obtain ⟨q, hq, hlimit, hfits⟩ := hunder.fits
  refine ⟨ha ws, ?_⟩
  rcases reserve_ok hbal h with
    ⟨row, hrow, hin, -, hupdate⟩ | ⟨-, -, quota', stored, hquota', hstored, hover, hinsert, hupdate⟩
  · have hnow := htimely row hrow hin
    have hopen := Reservation.open_of_inFlight hin
    have hold : weight (inWindow now) row = row.bytes := by
      simp [weight, inWindow, hopen, hnow]
    have hnew : weight (inWindow now) (refreshed ttl now row) ≤ row.bytes := by
      have hpos := hbal.positive row hrow
      rw [weight]
      split
      · exact le_rfl
      · omega
    rw [congrFun hupdate ws, update_self]
    refine ⟨q, hq, hlimit, ?_⟩
    rw [liveBytes_put (refreshed ttl now row) hbal.ids hrow rfl, hold]
    omega
  · have heq : quota' = q := Option.some.inj (hquota'.symm.trans hq)
    subst heq
    rw [congrFun hupdate ws, update_self]
    refine ⟨_, rfl, hlimit, ?_⟩
    obtain ⟨-, -, hbytes, hblob, -⟩ := Ledger.Off.of_insertable hinsert
    simp only [newReservation] at hbytes hblob
    have hl := live_eq_reserved_sub hbal hq now
    have hliveNonneg := liveBytes_nonneg hbal now
    have hretired := liveBytes_filter_le hbal.positive (!·.settled g hash) none now
    have hstale : 0 ≤ totalBytes ((ts ws).rows.filter (·.settled g hash)) :=
      totalBytes_nonneg (fun row hrow => hbal.positive row (mem_of_mem_filter hrow))
    have hstaleLe : totalBytes ((ts ws).rows.filter (·.settled g hash)) ≤ quota'.storedBytes := by
      refine totalBytes_le_stored hbal filter_sublist (fun row hrow => ?_) hq
      exact Reservation.final_of_settled (of_mem_filter hrow)
    have hsum : stored + ((ts ws).liveBytes now + bytes) ≤ lim := by
      rw [overLimit, hlimit, ← hl, Option.any_some, decide_eq_false_iff_not, not_lt] at hover
      rw [wrappingAdd_eq (a := stored) (by omega) (by omega),
        wrappingAdd_eq (by omega) (by omega)] at hover
      omega
    have hnew : liveBytes ⟨some { quota' with
          storedBytes := stored, reservedBytes := quota'.reservedBytes + bytes },
        (ts ws).rows.filter (!·.settled g hash) ++ [newReservation g hash bytes ttl id now]⟩ now ≤
        liveBytes ⟨none, (ts ws).rows.filter (!·.settled g hash)⟩ now + bytes := by
      rw [liveBytes_eq, liveBytes_eq]
      simp only [map_append, sum_append, map_cons, map_nil, sum_cons,
        sum_nil, weight, newReservation]
      split
      · omega
      · omega
    simp only at hnew ⊢
    omega

/-- A row of a workspace that leaves, with a quota row that promises or stores no more
than before. -/
theorem filter_under {p : Reservation → Bool} {q quota'}
    (hunder : (ts ws).Under lim now) (ha : Conserved t)
    (hq : (ts ws).quota = some q) (hupdate : t = update ts ws
      ⟨some quota', (ts ws).rows.filter p⟩) (hlimit : quota'.limitBytes = q.limitBytes)
    (hstored : quota'.storedBytes ≤ q.storedBytes) : (t ws).Under lim now := by
  refine ⟨ha ws, ?_⟩
  obtain ⟨current, hcur, hceiling, hfits⟩ := hunder.fits
  have heq : current = q := Option.some.inj (hcur.symm.trans hq)
  subst heq
  have hle := liveBytes_filter_le hunder.balanced.positive p (some quota') now
  rw [congrFun hupdate ws, update_self]
  exact ⟨quota', rfl, hlimit.trans hceiling, by omega⟩

end Steps

namespace Call

variable {ts : Tables} {lim now : Int}

theorem perform_under (call : Call) (hsmall : lim + blobLimit ≤ maxI64)
    (hcons : Conserved ts) (hunder : (ts call.workspace).Under lim now)
    (hnow : ∀ moment, call.moment = some moment → moment = now)
    (htimely : call.Timely call.workspace (ts call.workspace))
    (hkeeps : call.KeepsLimit call.workspace) : (call.perform ts call.workspace).Under lim now := by
  have ha := call.perform_conserved hcons
  have hbal := hunder.balanced
  rw [perform] at ha ⊢
  cases hrun : call.program.alone Write.apply ts with
  | error reason => exact hunder
  | ok out =>
    obtain ⟨⟨⟩, t⟩ := out
    rw [hrun] at ha
    cases call with
    | ensureQuotaRow ws ceiling =>
      obtain ⟨q, hq, hlimit, hfits⟩ := hunder.fits
      have hquota' : (ts ws).quota = some q := hq
      refine ⟨ha ws, q, ?_, hlimit, ?_⟩
      · have hledger := congrFun (ensureQuotaRow_ok hrun) ws
        simp only [update_self, hquota', hlimit, Option.some_or] at hledger
        simp only [Call.workspace, hledger, ← hlimit]
      · have hledger := congrFun (ensureQuotaRow_ok hrun) ws
        simp only [update_self] at hledger
        simpa [Call.workspace, hledger, liveBytes] using hfits
    | setQuotaLimit ws ceiling => exact absurd rfl hkeeps
    | reserve ws g hash bytes alreadyStored ttl id moment =>
      obtain rfl := hnow moment rfl
      obtain ⟨ans, middle, hreserve, hdone⟩ := Prog.of_alone_bind hrun
      cases hdone
      cases alreadyStored with
      | true =>
        cases hreserve
        exact hunder
      | false => exact reserve_under hsmall hcons hunder (htimely rfl rfl) hreserve
    | claim ws g hashes moment =>
      obtain rfl := hnow moment rfl
      exact claimAll_under hcons hunder (htimely rfl) hrun
    | release ws id =>
      obtain ⟨ans, middle, hrel, hdone⟩ := Prog.of_alone_bind hrun
      cases hdone
      rcases releaseIn_ok hbal hrel with
        ⟨row, q, -, -, -, hq, -, hupdate⟩ | ⟨-, heq, -⟩
      · exact filter_under hunder ha hq hupdate rfl le_rfl
      · rw [heq]
        exact hunder
    | sweepUnclaimed ws id grace moment =>
      obtain ⟨row, q, -, -, -, hq, hupdate⟩ := sweepUnclaimed_ok hbal hrun
      exact filter_under hunder ha hq hupdate rfl le_rfl
    | finishDeletion ws id =>
      rcases finishDeletion_ok hbal hrun with
        ⟨row, q, hrow, -, -, hq, hupdate⟩ | ⟨-, heq⟩
      · have hpos := hbal.positive row hrow
        exact filter_under hunder ha hq hupdate rfl (by simp only; omega)
      · rw [heq]
        exact hunder

end Call

/-! ## Runs -/

/-- A call that neither sets the ceiling of the workspace nor renews or claims one of its
reservations after its window. -/
def Clocked.timelyStep (workspace : Bytes) (before : Clocked) (call : Call) (after : Clocked) :
    Prop :=
  before.step call after ∧ call.Timely workspace (before.tables workspace) ∧
    call.KeepsLimit workspace

theorem Clocked.under_step {ws : Bytes} {lim : Int} {b t : Clocked}
    {call : Call} (hsmall : lim + blobLimit ≤ maxI64)
    (h : Conserved b.tables ∧ (b.tables ws).Under lim b.clock) (hs : b.timelyStep ws call t) :
    Conserved t.tables ∧ (t.tables ws).Under lim t.clock := by
  obtain ⟨hcons, hunder⟩ := h
  obtain ⟨⟨hclock, rfl⟩, htimely, hkeeps⟩ := hs
  have hlater := hunder.at_later hclock
  refine ⟨call.perform_conserved hcons, ?_⟩
  by_cases heq : ws = call.workspace
  · subst heq
    refine call.perform_under hsmall hcons hlater ?_ htimely hkeeps
    intro moment hmoment
    simp [hmoment]
  · simpa only [call.perform_of_ne hcons heq] using hlater

/-- In every run that renews and claims reservations only in their window, the stored bytes
of a workspace with a fixed ceiling never exceed it. -/
theorem stored_within_limit
    {workspace : Bytes}
    {limit : Int}
    {start quota : Quota}
    {before after : Clocked}
    {calls : List Call}
    (hconserved : Conserved before.tables)
    (hstart : (before.tables workspace).quota = some start)
    (hlimit : start.limitBytes = some limit)
    (hsmall : limit + blobLimit ≤ maxI64)
    (hfits : start.storedBytes + start.reservedBytes ≤ limit)
    (hrun : Run (Clocked.timelyStep workspace) before calls after)
    (hquota : (after.tables workspace).quota = some quota) :
    quota.storedBytes ≤ limit := by
  have hbalanced := hconserved workspace
  have hl := Ledger.live_eq_reserved_sub hbalanced hstart before.clock
  have hlapsed : 0 ≤ totalBytes ((before.tables workspace).rows.filter (·.lapsed before.clock)) :=
    totalBytes_nonneg (fun row hrow => hbalanced.positive row (mem_of_mem_filter hrow))
  have hbegin : Conserved before.tables ∧ (before.tables workspace).Under limit before.clock :=
    ⟨hconserved, hbalanced, start, hstart, hlimit, by omega⟩
  obtain ⟨-, hend⟩ := Run.invariant (I := _)
    (fun _ _ _ hk hs => Clocked.under_step hsmall hk hs) hrun hbegin
  obtain ⟨current, hcurrent, -, hunder⟩ := hend.fits
  have heq : current = quota := Option.some.inj (hcurrent.symm.trans hquota)
  subst heq
  have hnonneg := liveBytes_nonneg hend.balanced after.clock
  omega

/-- An empty workspace with a ceiling of one hundred bytes. -/
def smallWorkspace : Clocked :=
  ⟨update noTables (id32 1) ⟨some ⟨0, 0, some 100⟩, []⟩, 0⟩

theorem conserved_smallWorkspace : Conserved smallWorkspace.tables := by
  refine conserved_update ⟨nodup_nil, nodup_nil, nofun, ?_, ?_, ?_, nofun⟩ <;> rintro _ ⟨⟩ <;> rfl

/-- The call a clocked state takes next, at its own moment. -/
def Clocked.after (before : Clocked) (call : Call) : Clocked :=
  ⟨call.perform before.tables, call.moment.getD before.clock⟩

/-- An upload of a hundred bytes at the start. -/
def firstUpload : Call := .reserve (id32 1) (id32 2) (id32 3) 100 false 900 7 0

/-- Another one, after the window of the first. -/
def secondUpload : Call := .reserve (id32 1) (id32 2) (id32 4) 100 false 900 8 (seconds 1000)

/-- A manifest that names both. -/
def claimBoth : Call := .claim (id32 1) (id32 2) [id32 3, id32 4] (seconds 1001)

/-- The second upload is compared with a ceiling that no longer counts the first, and
then the manifest claims both: two hundred bytes under a ceiling of one hundred. -/
theorem stored_past_limit :
    ∃ after, Run Clocked.step smallWorkspace [firstUpload, secondUpload, claimBoth] after ∧
      Conserved smallWorkspace.tables ∧
      (smallWorkspace.tables (id32 1)).quota = some ⟨0, 0, some 100⟩ ∧
      (after.tables (id32 1)).quota = some ⟨200, 0, some 100⟩ := by
  refine ⟨((smallWorkspace.after firstUpload).after secondUpload).after claimBoth, ?_,
    conserved_smallWorkspace, by decide, by decide +kernel⟩
  refine .cons ⟨by decide, rfl⟩ (.cons ⟨by decide, rfl⟩ (.cons ⟨by decide, rfl⟩ ?_))
  exact .nil _

/-- A manifest that names the first upload in its window. -/
def claimFirst : Call := .claim (id32 1) (id32 2) [id32 3] (seconds 10)

/-- With the first upload claimed in its window the second one is refused. -/
theorem stored_within_limit_small : ∃ after quota, Run (Clocked.timelyStep (id32 1)) smallWorkspace
        [firstUpload, claimFirst, secondUpload] after ∧
      (after.tables (id32 1)).quota = some quota ∧ quota.storedBytes ≤ 100 := by
  have hrun : Run (Clocked.timelyStep (id32 1)) smallWorkspace
      [firstUpload, claimFirst, secondUpload]
      (((smallWorkspace.after firstUpload).after claimFirst).after secondUpload) := by
    refine Run.cons ⟨⟨by decide, rfl⟩, fun _ _ => by decide +kernel, trivial⟩
      (Run.cons ⟨⟨by decide, rfl⟩, fun _ => by decide +kernel, trivial⟩
        (Run.cons ⟨⟨by decide, rfl⟩, fun _ _ => by decide +kernel, trivial⟩ ?_))
    exact Run.nil _
  have hend : ((((smallWorkspace.after firstUpload).after claimFirst).after
      secondUpload).tables (id32 1)).quota = some ⟨100, 0, some 100⟩ := by decide +kernel
  have hstart : (smallWorkspace.tables (id32 1)).quota = some ⟨0, 0, some 100⟩ := by decide
  refine ⟨_, _, hrun, hend, ?_⟩
  exact stored_within_limit conserved_smallWorkspace hstart rfl (by decide) (by decide) hrun hend

end WealdRelay.Media
