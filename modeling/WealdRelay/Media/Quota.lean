import WealdRelay.Media.Ledger

/-!
# The quota is conserved

Bytes move between two counters and a table: a reservation adds a row and a promise, a
claim turns the promise into stored bytes, a release and a finished deletion take a row
and its bytes away, and a new upload may first retire several rows at once.

`quota_conserved` says, for every interleaving of the statements of any number of
transactions, that the counters of a workspace are the sums over its rows after every
commit, that no object has two uploads in flight, and that no `greatest` is about to take
effect. A transaction proves its part under `Steady`, what it can rely on while it holds
its locks: one rule for each statement, then one for each function of the store.
-/

namespace WealdRelay.Media

open Lib List Write

/-! ## What a transaction relies on -/

/-- The counters of every workspace are the sums over its rows. -/
def Conserved (tables : Tables) : Prop := ∀ workspace, (tables workspace).Balanced

/-- While a transaction holds these locks others may commit, but not to a row it holds,
and not to a workspace whose quota row it holds. -/
structure Steady (held : List Lock) (before after : Tables) : Prop where
  conserved : Conserved after
  row : ∀ workspace id, Lock.row workspace id ∈ held →
    (after workspace).row id = (before workspace).row id
  quota : ∀ workspace, Lock.quota workspace ∈ held → after workspace = before workspace

/-- Balanced books between transactions, and steady ones during them. -/
def isolation : Isolation Tables Write Lock where
  apply := Write.apply
  inv := Conserved
  rely := Steady
  rely_refl := fun hconserved => ⟨hconserved, fun _ _ _ => rfl, fun _ _ => rfl⟩
  rely_trans := fun h₁ h₂ =>
    ⟨h₂.conserved, fun workspace id hlock =>
      (h₂.row workspace id hlock).trans (h₁.row workspace id hlock),
      fun workspace hlock => (h₂.quota workspace hlock).trans (h₁.quota workspace hlock)⟩
  inv_of_rely := fun h => h.conserved

theorem Steady.mono {held more s t} (h : Steady more s t)
    (hsub : ∀ lock ∈ held, lock ∈ more) : Steady held s t :=
  ⟨h.conserved, fun ws id hlock => h.row ws id (hsub _ hlock),
    fun ws hlock => h.quota ws (hsub _ hlock)⟩

/-- The transaction could commit here: its writes balance, it holds what they are about,
and the quota row of every workspace they touch. -/
structure Clean (held : List Lock) (writes : List Write) (s : Tables) : Prop where
  balanced : ∀ t, Steady held s t → Conserved (Prog.settle Write.apply writes t)
  covered : ∀ write ∈ writes, write.lock ∈ held ∧ Lock.quota write.workspace ∈ held

namespace Clean

variable {held held' : List Lock} {wr more : List Write} {s t : Tables} {ws : Bytes}

theorem committable (h : Clean held wr s) : isolation.Committable held wr s := by
  intro t ht
  have hcons := h.balanced t ht
  refine ⟨hcons, fun os hothers => ⟨hcons, ?_, ?_⟩⟩
  · intro ws id hlock
    refine row_settle_of_unlocked fun write hwrite heq => ?_
    exact hothers _ (h.covered write hwrite).1 (heq ▸ hlock)
  · intro ws hlock
    refine settle_of_untouched fun write hwrite heq => ?_
    exact hothers _ (h.covered write hwrite).2 (heq ▸ hlock)

theorem mono (h : Clean held wr s) (hsub : ∀ lock ∈ held, lock ∈ held')
    (ht : Steady held s t) : Clean held' wr t :=
  ⟨fun v hv => h.balanced v (isolation.rely_trans ht (hv.mono hsub)),
    fun write hwrite => ⟨hsub _ (h.covered write hwrite).1, hsub _ (h.covered write hwrite).2⟩⟩

/-- More writes to one workspace, under its quota row, that leave it balanced. -/
theorem extend (ws : Bytes) (h : Clean held wr s) (ht : Steady held s t)
    (hsub : ∀ lock ∈ held, lock ∈ held') (hq : Lock.quota ws ∈ held')
    (hmore : ∀ write ∈ more, write.workspace = ws ∧ write.lock ∈ held')
    (hbal : (Prog.settle apply more (Prog.settle apply wr t)
      ws).Balanced) : Clean held' (wr ++ more) t := by
  refine ⟨fun v hv x => ?_, fun write hwrite => ?_⟩
  · rw [Prog.settle_append]
    by_cases ho : x = ws
    · subst ho
      have hsame : Prog.settle apply wr v x =
          Prog.settle apply wr t x := settle_congr (hv.quota x hq)
      rw [settle_congr hsame]
      exact hbal
    · rw [settle_of_untouched (fun write hwrite heq =>
        ho (heq.symm.trans (hmore write hwrite).1))]
      exact h.balanced v (isolation.rely_trans ht (hv.mono hsub)) x
  · rcases mem_append.mp hwrite with hold | hnew
    · exact ⟨hsub _ (h.covered write hold).1, hsub _ (h.covered write hold).2⟩
    · obtain ⟨hws, hlock⟩ := hmore write hnew
      rw [hws]
      exact ⟨hlock, hq⟩

/-- Writes to one workspace and then its quota row, by what they moved. -/
theorem thenQuota {l reserved stored q new} (h : Clean held wr s)
    (ht : Steady held s t) (hsub : ∀ lock ∈ held, lock ∈ held')
    (hmore : ∀ write ∈ more, write.workspace = ws ∧ write.lock ∈ held')
    (hledger : Prog.settle apply (wr ++ more) t ws = l)
    (hoff : l.Off reserved stored) (hq : l.quota = some q)
    (hall : new.allowed = true) (hreserved : new.reservedBytes = q.reservedBytes - reserved)
    (hstored : new.storedBytes = q.storedBytes - stored) :
    Clean (held' ++ [.quota ws]) ((wr ++ more) ++ [.putQuota ws new]) t := by
  rw [append_assoc]
  refine h.extend ws ht (fun lock hheld => mem_append_left _ (hsub lock hheld)) (by simp)
    (forall_mem_snoc (fun write hwrite => (hmore write hwrite).imp_right (mem_append_left _))
      ⟨rfl, by simp [lock]⟩) ?_
  have hend := hoff.putQuota ws new hq hall
  have hzero : reserved + new.reservedBytes - q.reservedBytes = 0 ∧
      stored + new.storedBytes - q.storedBytes = 0 := by omega
  rw [hzero.1, hzero.2, ← hledger] at hend
  rwa [← Prog.settle_append, ← append_assoc, Prog.settle_append, settle_at (by simp)]

end Clean

/-! ## One rule for each statement -/

/-- The tables as a transaction with these writes sees them. -/
abbrev view (writes : List Write) (tables : Tables) : Tables :=
  Prog.settle Write.apply writes tables

section Statements

variable {α : Type} {Q : α → List Lock → List Write → Tables → Prop} {held : List Lock}
  {wr : List Write} {s : Tables} {ws : Bytes} {p : Reservation → Bool}

theorem valid_selectQuotaForUpdate {f : Option Quota → Tx α}
    (h : ∀ t, Steady held s t → isolation.Valid Q (f (view wr t ws).quota)
      (held ++ quotaLock ws (view wr t)) wr t) :
    isolation.Valid Q ((selectQuotaForUpdate ws).bind f) held wr s := by
  refine fun t ht => ⟨rfl, ?_⟩
  rw [append_nil]
  exact h t ht

theorem valid_updateQuota {clamps : Quota → Bool} {g : Quota → Quota} {f : Unit → Tx α}
    (hnone : ∀ t, Steady held s t → (view wr t ws).quota = none →
      isolation.Valid Q (f ()) held wr t)
    (hsome : ∀ t q, Steady held s t → (view wr t ws).quota = some q →
      clamps q = false ∧ ((g q).allowed = true → isolation.Valid Q (f ()) (held ++ [.quota ws])
          (wr ++ [.putQuota ws (g q)]) t)) :
    isolation.Valid Q ((updateQuota ws clamps g).bind f) held wr s := by
  intro t ht
  simp only [quotaLock]
  cases hq : (view wr t ws).quota with
  | none =>
    refine ⟨by simp [isolation, hq], ?_⟩
    simpa [isolation, hq] using hnone t ht hq
  | some q =>
    obtain ⟨hclamps, hvalid⟩ := hsome t q ht hq
    refine ⟨by simp [isolation, hq, hclamps], ?_⟩
    cases hall : (g q).allowed with
    | false => simp [isolation, hq, hall, Isolation.Valid]
    | true => simpa [isolation, hq, hall] using hvalid hall

variable {f : List Reservation → Tx α}

theorem valid_selectRows (h : ∀ t, Steady held s t →
      isolation.Valid Q (f (matching ws p (view wr t))) held wr t) :
    isolation.Valid Q ((selectRows ws p).bind f) held wr s := by
  refine fun t ht => ⟨rfl, ?_⟩
  rw [append_nil, append_nil]
  exact h t ht

theorem valid_selectRowsForUpdate
    (h : ∀ t, Steady held s t → isolation.Valid Q (f (matching ws p (view wr t)))
      (held ++ rowLocks ws p (view wr t)) wr t) :
    isolation.Valid Q ((selectRowsForUpdate ws p).bind f) held wr s := by
  refine fun t ht => ⟨rfl, ?_⟩
  rw [append_nil]
  exact h t ht

theorem valid_updateRows {g : Reservation → Reservation}
    (h : ∀ t, Steady held s t → isolation.Valid Q (f (matching ws p (view wr t)))
      (held ++ rowLocks ws p (view wr t))
      (wr ++ (matching ws p (view wr t)).map (fun row => .putRow ws (g row))) t) :
    isolation.Valid Q ((updateRows ws p g).bind f) held wr s :=
  fun t ht => ⟨rfl, h t ht⟩

theorem valid_deleteRows
    (h : ∀ t, Steady held s t → isolation.Valid Q (f (matching ws p (view wr t)))
      (held ++ rowLocks ws p (view wr t))
      (wr ++ (matching ws p (view wr t)).map (.deleteRow ws ·.reservationId)) t) :
    isolation.Valid Q ((deleteRows ws p).bind f) held wr s :=
  fun t ht => ⟨rfl, h t ht⟩

theorem valid_insertRow {row} {f : Unit → Tx α}
    (h : ∀ t, Steady held s t → insertable row (view wr t ws) = true →
      isolation.Valid Q (f ()) (held ++ [.row ws row.reservationId])
        (wr ++ [.insertRow ws row]) t) :
    isolation.Valid Q ((insertRow ws row).bind f) held wr s := by
  intro t ht
  refine ⟨rfl, ?_⟩
  cases hinsert : insertable row (view wr t ws) with
  | false => simp [isolation, hinsert, Isolation.Valid]
  | true => simpa [isolation, hinsert] using h t ht hinsert

theorem valid_liveReserved {q now} {f : Int → Tx α} (h : ∀ t, Steady held s t →
      totalBytes (matching ws (·.lapsed now) (view wr t)) ≤ q.reservedBytes ∧
        isolation.Valid Q (f (max (q.reservedBytes -
          totalBytes (matching ws (·.lapsed now) (view wr t))) 0)) held wr t) :
    isolation.Valid Q ((liveReserved ws q now).bind f) held wr s := by
  intro t ht
  obtain ⟨hle, hvalid⟩ := h t ht
  refine ⟨decide_eq_false (not_lt.mpr hle), ?_⟩
  rw [append_nil, append_nil]
  exact hvalid

end Statements

/-! ## One rule for each function of the store -/

section Functions

variable {held : List Lock} {wr : List Write} {s t : Tables} {ws group hash : Bytes}
  {row : Reservation}

/-- A `where` clause that names at most one row names none, or one that is there. -/
theorem matching_cases {p : Reservation → Bool} (h : (s ws).rows.filter p = [] ∨
      ∃ row, (s ws).rows.filter p = [row]) : matching ws p s = [] ∨
    ∃ row ∈ (s ws).rows, p row = true ∧ matching ws p s = [row] := by
  rcases h with hnone | ⟨row, hone⟩
  · exact .inl hnone
  · have hf : row ∈ (s ws).rows.filter p := by simp [hone]
    obtain ⟨hrow, hp⟩ := mem_filter.mp hf
    exact .inr ⟨row, hrow, hp, hone⟩

/-- A row that is held is still there when others have committed. -/
theorem mem_of_held (hmem : row ∈ (view wr s ws).rows) (hb : (view wr s ws).Balanced)
    (hheld : Lock.row ws row.reservationId ∈ held) (ht : Steady held s t) :
    row ∈ (view wr t ws).rows := by
  have heq : (view wr t ws).row row.reservationId = some row := by
    rw [row_settle_congr (ht.row ws _ hheld)]
    exact hb.row_of_mem hmem
  exact Table.mem_of_lookup heq

variable {α : Type} {rows : List Reservation} {clamps : Quota → Bool} {g : Quota → Quota}
  {f : Unit → Tx α}

/-- One row written and then the quota row, by the same bytes: the transaction could
commit again. -/
theorem clean_row_then_quota {write} (reserved stored : Int) {ans}
    (h : Clean held wr s) (ht : Steady held s t) (hmem : row ∈ (view wr t ws).rows)
    (hws : write.workspace = ws) (hlock : write.lock = .row ws row.reservationId)
    (hoff : ∀ l : Ledger, l.Balanced → row ∈ l.rows →
      (write.onLedger l).Off reserved stored ∧ (write.onLedger l).quota = l.quota)
    (hg : ∀ (l : Ledger) q, l.Balanced → row ∈ l.rows →
      l.quota = some q → clamps q = false ∧ (g q).reservedBytes = q.reservedBytes - reserved ∧
        (g q).storedBytes = q.storedBytes - stored) (hf : f () = .done ans) :
    isolation.Valid (fun _ => Clean) ((updateQuota ws clamps g).bind f)
      (held ++ [.row ws row.reservationId]) (wr ++ [write]) t := by
  subst hws
  have hb := h.balanced t ht write.workspace
  -- What the quota statement sees: the row written, the rest balanced.
  have hseen : ∀ v, Steady (held ++ [.row write.workspace row.reservationId]) t v →
      Steady held t v ∧ row ∈ (view wr v write.workspace).rows ∧
        view (wr ++ [write]) v write.workspace = write.onLedger (view wr v write.workspace) := by
    intro v hv
    refine ⟨hv.mono (fun lock hlock => mem_append_left _ hlock),
      mem_of_held hmem hb (by simp) hv, ?_⟩
    rw [view, Prog.settle_append, Prog.settle_cons, Prog.settle_nil, apply_self]
  refine valid_updateQuota ?_ ?_
  · intro v hv hq
    obtain ⟨hheld, hrow, hview⟩ := hseen v hv
    have hledger := h.balanced v (isolation.rely_trans ht hheld) write.workspace
    obtain ⟨q, hsome⟩ := hledger.quota_of_mem hrow
    rw [hview, (hoff _ hledger hrow).2, hsome] at hq
    cases hq
  · intro v q hv hq
    obtain ⟨hheld, hrow, hview⟩ := hseen v hv
    have hsteady := isolation.rely_trans ht hheld
    have hledger := h.balanced v hsteady write.workspace
    obtain ⟨hwritten, heq⟩ := hoff _ hledger hrow
    rw [hview, heq] at hq
    obtain ⟨hclamps, hreserved, hstored⟩ := hg _ q hledger hrow hq
    refine ⟨hclamps, fun hall => ?_⟩
    rw [hf]
    exact h.thenQuota hsteady (fun _ hlock => mem_append_left _ hlock) (by simp [hlock]) hview
      hwritten (heq.trans hq) hall hreserved hstored

variable {l : Ledger} {q : Quota}

theorem bytes_le_reserved (h : l.Balanced) (hrow : row ∈ l.rows)
    (hopen : row.finalized = false) (hq : l.quota = some q) : row.bytes ≤ q.reservedBytes := by
  rw [h.reservedBytes q hq, Ledger.unclaimedBytes, add_zero]
  exact bytes_le_totalBytes (fun x ho => h.positive x (mem_of_mem_filter ho))
    (mem_filter.mpr ⟨hrow, by simp [hopen]⟩)

theorem bytes_le_stored (h : l.Balanced) (hrow : row ∈ l.rows)
    (hfinal : row.finalized = true) (hq : l.quota = some q) : row.bytes ≤ q.storedBytes := by
  rw [h.storedBytes q hq, Ledger.claimedBytes, add_zero]
  exact bytes_le_totalBytes (fun x ho => h.positive x (mem_of_mem_filter ho))
    (mem_filter.mpr ⟨hrow, hfinal⟩)

theorem claimIn_clean (h : Clean held wr s) (now : Int) :
    isolation.Valid (fun _ => Clean) (claimIn ws group hash now) held wr s := by
  refine valid_updateRows fun t ht => ?_
  rcases matching_cases ((h.balanced t ht ws).inFlight_at_most_one group hash) with
    hmatch | ⟨row, hmem, hin, hmatch⟩
  · simp only [rowLocks, hmatch, map_nil, append_nil, head?_nil]
    refine valid_selectRows fun v hv => ?_
    exact h.mono (fun lock hlock => hlock) (isolation.rely_trans ht hv)
  · have hopen := Reservation.open_of_inFlight hin
    simp only [rowLocks, hmatch, map_cons, map_nil, head?_cons]
    refine clean_row_then_quota row.bytes (-row.bytes) h ht hmem rfl rfl ?_ ?_ rfl
    · intro l hledger hrow
      have hoff := hledger.putRow ws (row.claimedAt now) hrow rfl rfl rfl (fun _ => rfl)
      have hfinal : (row.claimedAt now).finalized = true := rfl
      have hbytes : (row.claimedAt now).bytes = row.bytes := rfl
      refine ⟨?_, rfl⟩
      simpa [weight, hopen, hfinal, hbytes] using hoff
    · intro l q hledger hrow hq
      have hle := bytes_le_reserved hledger hrow hopen hq
      refine ⟨decide_eq_false (not_lt.mpr hle), ?_, ?_⟩
      · exact max_eq_left (by omega)
      · exact (sub_neg_eq_add _ _).symm

theorem claimAll_clean (hashes : List Bytes) (h : Clean held wr s) (now : Int) :
    isolation.Valid (fun _ => Clean) (claimAll ws group now hashes) held wr s := by
  induction hashes generalizing held wr s with
  | nil => exact h
  | cons hash hashes ih =>
    refine .bind ((claimIn_clean h now).weaken ?_)
    intro out held wr s hclean
    cases out with
    | claimed | alreadyClaimed => exact ih hclean
    | noReservation => trivial

theorem clean_deleteById {f : List Reservation → Tx α} (p : Reservation → Bool) (id : Nat)
    (h : Clean held wr s) (hnone : ∃ ans, f [] = .done ans)
    (hone : ∀ t row, Steady held s t → row ∈ (view wr t ws).rows → p row = true →
      isolation.Valid (fun _ => Clean) (f [row]) (held ++ [.row ws row.reservationId])
        (wr ++ [.deleteRow ws row.reservationId]) t) :
    isolation.Valid (fun _ => Clean)
      ((deleteRows ws (fun row => row.reservationId = id && p row)).bind f)
      held wr s := by
  refine valid_deleteRows fun t ht => ?_
  rcases matching_cases ((h.balanced t ht ws).id_at_most_one id p) with
    hmatch | ⟨row, hmem, hp, hmatch⟩
  · obtain ⟨ans, hans⟩ := hnone
    simp only [rowLocks, hmatch, map_nil, append_nil, hans]
    exact h.mono (fun lock hlock => hlock) ht
  · rw [Bool.and_eq_true] at hp
    simp only [rowLocks, hmatch, map_cons, map_nil]
    exact hone t row ht hmem hp.2

theorem releaseIn_clean (h : Clean held wr s) (id : Nat) :
    isolation.Valid (fun _ => Clean) (releaseIn ws id) held wr s := by
  refine clean_deleteById (!·.finalized) id h ⟨_, rfl⟩ fun t row ht hmem hin => ?_
  have hopen : row.finalized = false := by simpa using hin
  refine clean_row_then_quota row.bytes 0 h ht hmem rfl rfl ?_ ?_ rfl
  · intro l hledger hrow
    refine ⟨?_, rfl⟩
    simpa [weight, hopen] using hledger.deleteRow ws hrow
  · intro l q hledger hrow hq
    have hle := bytes_le_reserved hledger hrow hopen hq
    refine ⟨decide_eq_false (not_lt.mpr hle), ?_, ?_⟩
    · exact max_eq_left (by omega)
    · exact (sub_zero _).symm

theorem finishDeletion_clean (h : Clean held wr s) (id : Nat) :
    isolation.Valid (fun _ => Clean) (finishDeletion ws id) held wr s := by
  refine clean_deleteById (·.finalized) id h ⟨_, rfl⟩ fun t row ht hmem hfinal => ?_
  refine clean_row_then_quota 0 row.bytes h ht hmem rfl rfl ?_ ?_ rfl
  · intro l hledger hrow
    refine ⟨?_, rfl⟩
    simpa [weight, hfinal] using hledger.deleteRow ws hrow
  · intro l q hledger hrow hq
    have hle := bytes_le_stored hledger hrow hfinal hq
    refine ⟨decide_eq_false (not_lt.mpr hle), ?_, ?_⟩
    · exact (sub_zero _).symm
    · exact max_eq_left (by omega)

theorem lockUnclaimed_clean (h : Clean held wr s) (id : Nat) (grace now : Int) :
    isolation.Valid (fun _ => Clean) (lockUnclaimed ws id grace now) held wr s := by
  refine valid_selectQuotaForUpdate fun t ht => ?_
  refine valid_selectRowsForUpdate fun v hv => ?_
  refine h.mono (fun lock hlock => by simp [hlock]) ?_
  exact isolation.rely_trans ht (hv.mono (fun lock hlock => mem_append_left _ hlock))

theorem sweepUnclaimed_clean (h : Clean held wr s) (id : Nat) (grace now : Int) :
    isolation.Valid (fun _ => Clean) (sweepUnclaimed ws id grace now) held wr s := by
  refine .bind ((lockUnclaimed_clean h id grace now).weaken ?_)
  intro stillStale held wr s hclean
  cases stillStale with
  | false => trivial
  | true =>
    refine .bind ((releaseIn_clean hclean id).weaken ?_)
    intro released held wr s hrel
    cases released with
    | none => trivial
    | some bytes => exact hrel

theorem quota_deleteRows (gone : List Reservation) (l : Ledger) :
    ((gone.map (deleteRow ws ·.reservationId)).foldl
      (fun l write => write.onLedger l) l).quota = l.quota := by
  induction gone generalizing l with
  | nil => rfl
  | cons row gone ih => exact ih _

/-- The saturating sum is the sum, as long as the total is a number the column holds. -/
theorem saturating_total {start} (hpos : ∀ row ∈ rows, 0 < row.bytes)
    (hstart : 0 ≤ start) (hfits : start + totalBytes rows ≤ maxI64) :
    rows.foldl (fun total row => saturatingAdd total row.bytes) start =
      start + totalBytes rows := by
  induction rows generalizing start with
  | nil => simp [totalBytes]
  | cons row rows ih =>
    have hrow := hpos row mem_cons_self
    have hr := fun x ho => hpos x (mem_cons_of_mem row ho)
    have hnonneg := totalBytes_nonneg hr
    have hsplit : totalBytes (row :: rows) = row.bytes + totalBytes rows := by
      simp [totalBytes]
    have hadd : saturatingAdd start row.bytes = start + row.bytes := by
      rw [saturatingAdd, min_eq_left (by omega), max_eq_right (by simp [maxI64]; omega)]
    rw [foldl_cons, hadd, ih hr (by omega) (by omega), hsplit, add_assoc]

/-- While the quota row is held, the rows of its workspace do not change. -/
theorem view_steady (wr : List Write) (hq : Lock.quota ws ∈ held)
    (ht : Steady held s t) : view wr t ws = view wr s ws :=
  settle_congr (ht.quota ws hq)

/-- What holds inside `reserve` once it has the quota row: it could commit, and the row
it read still has the promises it read. -/
structure Holding (workspace : Bytes) (quota : Quota) (held : List Lock) (writes : List Write)
    (s : Tables) : Prop where
  clean : Clean held writes s
  lock : Lock.quota workspace ∈ held
  current : ∃ current, (view writes s workspace).quota = some current ∧
    current.reservedBytes = quota.reservedBytes

theorem Holding.mono (h : Holding ws q held wr s) (ht : Steady held s t) : Holding ws q held wr t :=
  ⟨h.clean.mono (fun _ hlock => hlock) ht, h.lock, by
    rw [view_steady wr h.lock ht]
    exact h.current⟩

theorem Holding.balanced (h : Holding ws q held wr s) (hs : Conserved s) :
    (view wr s ws).Balanced :=
  h.clean.balanced s (isolation.rely_refl hs) ws

theorem totalBytes_le_stored (h : l.Balanced) (hsub : rows.Sublist l.rows)
    (hfinal : ∀ row ∈ rows, row.finalized = true) (hq : l.quota = some q) :
    totalBytes rows ≤ q.storedBytes := by
  rw [h.storedBytes q hq, Ledger.claimedBytes, add_zero]
  refine totalBytes_sublist ?_ fun x ho => h.positive x (mem_of_mem_filter ho)
  have hfiltered := hsub.filter (·.finalized)
  rwa [filter_eq_self.mpr hfinal] at hfiltered

/-- Writes to a workspace whose quota row is held, and then the quota row by what they
moved: the transaction could commit again. -/
theorem clean_then_quota {Q : α → List Lock → List Write → Tables → Prop}
    {held' more reserved stored} (h : Clean held wr s)
    (hlock : Lock.quota ws ∈ held) (hsub : ∀ lock ∈ held, lock ∈ held')
    (hmore : ∀ write ∈ more, write.workspace = ws ∧ write.lock ∈ held')
    (hoff : (more.foldl (fun l write => write.onLedger l)
      (view wr s ws)).Off reserved stored) (hq : (more.foldl (fun l write => write.onLedger l)
      (view wr s ws)).quota = some q) (hclamps : clamps q = false)
    (hreserved : (g q).reservedBytes = q.reservedBytes - reserved)
    (hstored : (g q).storedBytes = q.storedBytes - stored)
    (hf : ∀ held'' writes' v, Clean held'' writes' v → Lock.quota ws ∈ held'' →
      (view writes' v ws).quota = some (g q) → isolation.Valid Q (f ()) held'' writes' v) :
    isolation.Valid Q ((updateQuota ws clamps g).bind f) held' (wr ++ more) s := by
  -- The quota row is held, so every later view of the workspace is this one.
  have hview : ∀ v, Steady held' s v → view (wr ++ more) v ws =
      more.foldl (fun l write => write.onLedger l) (view wr s ws) := by
    intro v hv
    rw [view, Prog.settle_append, settle_at (fun write hwrite => (hmore write hwrite).1),
      ← view_steady _ hlock (hv.mono hsub)]
  refine valid_updateQuota ?_ ?_
  · intro v hv hnone
    rw [hview v hv, hq] at hnone
    cases hnone
  · intro v current hv hcur
    rw [hview v hv, hq] at hcur
    cases hcur
    refine ⟨hclamps, fun hall => ?_⟩
    refine hf _ _ v (h.thenQuota (hv.mono hsub) hsub hmore (hview v hv) hoff hq hall
      hreserved hstored) (by simp) ?_
    rw [view, Prog.settle_append, settle_at (by simp)]
    rfl

variable (h : Holding ws q held wr s)
include h

theorem reclaim_holding {stale} (hs : Conserved s) (hq : (view wr s ws).quota = some q)
    (hsub : stale.Sublist (view wr s ws).rows) (hfinal : ∀ row ∈ stale, row.finalized = true) :
    isolation.Valid (fun _ => Holding ws q) (reclaim ws q stale)
      (held ++ stale.map (.row ws ·.reservationId))
      (wr ++ stale.map (.deleteRow ws ·.reservationId)) s := by
  cases hempty : stale.isEmpty with
  | true =>
    rw [isEmpty_iff.mp hempty]
    simpa [reclaim, Isolation.Valid] using h
  | false =>
    have hledger := h.balanced hs
    have hpos : ∀ row ∈ stale, 0 < row.bytes := fun row hrow =>
      hledger.positive row (hsub.subset hrow)
    have hle := totalBytes_le_stored hledger hsub hfinal hq
    have hall := hledger.allowed q hq
    simp only [Quota.allowed, Bool.and_eq_true, decide_eq_true_eq] at hall
    have htotal : stale.foldl (fun total row => saturatingAdd total row.bytes) 0 =
        totalBytes stale := by
      have hsum := saturating_total hpos (le_refl 0) (by omega)
      omega
    have hoff := hledger.deleteRows ws
      (fun row hrow => hsub.subset hrow) (hledger.ids.sublist (hsub.map _)) hfinal
    rw [reclaim, hempty, htotal]
    refine clean_then_quota h.clean h.lock (fun _ hlock => mem_append_left _ hlock) ?_
      hoff ((quota_deleteRows stale _).trans hq) (decide_eq_false (not_lt.mpr hle))
      (sub_zero _).symm ?_ ?_
    · intro write hwrite
      obtain ⟨row, hrow, rfl⟩ := mem_map.mp hwrite
      refine ⟨rfl, mem_append_right _ ?_⟩
      exact mem_map.mpr ⟨row, hrow, rfl⟩
    · rw [zero_add]
      exact max_eq_left (by omega)
    · intro held' writes' v hclean hlock hcur
      exact ⟨hclean, hlock, _, hcur, rfl⟩

theorem retire_holding (hq : (view wr s ws).quota = some q) :
    isolation.Valid (fun _ => Holding ws q) (retire ws group hash q) held wr s := by
  refine valid_deleteRows fun t ht => ?_
  have hthere : (view wr t ws).quota = some q := by
    rw [view_steady wr h.lock ht]
    exact hq
  refine reclaim_holding (h.mono ht) ht.conserved hthere filter_sublist ?_
  exact fun row hrow => Reservation.final_of_settled (of_mem_filter hrow)

omit h in
theorem lapsed_le_reserved (h : l.Balanced) (hq : l.quota = some q) (now : Int) :
    totalBytes (l.rows.filter (·.lapsed now)) ≤ q.reservedBytes := by
  rw [h.reservedBytes q hq, Ledger.unclaimedBytes, add_zero]
  refine totalBytes_sublist (monotone_filter_right _ (fun row hrow => ?_))
    (fun x ho => h.positive x (mem_of_mem_filter ho))
  simp only [Reservation.lapsed, Bool.and_eq_true] at hrow
  exact hrow.1

theorem charge_clean (bytes ttl : Int) (id : Nat) (now stored : Int) :
    isolation.Valid (fun _ => Clean)
      (charge ws group hash bytes ttl id now q stored) held wr s := by
  refine valid_liveReserved fun t ht => ?_
  have hthere := h.mono ht
  have hledger := hthere.balanced ht.conserved
  obtain ⟨current, hcur, hreserved⟩ := hthere.current
  refine ⟨?_, ?_⟩
  · rw [← hreserved]
    exact lapsed_le_reserved hledger hcur now
  · split
    · trivial
    · refine valid_insertRow fun v hv hinsert => ?_
      have hlater := hthere.mono hv
      have hoff := (hlater.balanced hv.conserved).insertRow ws
        (newReservation group hash bytes ttl id now) rfl hinsert
      obtain ⟨current, hcur, -⟩ := hlater.current
      refine clean_then_quota hlater.clean hlater.lock
        (fun _ hlock => mem_append_left _ hlock) ?_ hoff hcur rfl ?_ (sub_zero _).symm
        (fun _ _ _ hclean _ _ => hclean)
      · intro write hwrite
        rw [mem_singleton.mp hwrite]
        exact ⟨rfl, by simp [lock]⟩
      · simp [newReservation]

theorem refresh_clean (hledger : (view wr s ws).Balanced) (hmem : row ∈ (view wr s ws).rows)
    (ttl now : Int) :
    isolation.Valid (fun _ => Clean) ((updateRows ws (·.reservationId = row.reservationId)
        (refreshed ttl now)).bind (fun _ => .done (Reserved.active row.reservationId)))
      (held ++ [.row ws row.reservationId]) wr s := by
  refine valid_updateRows fun t ht => ?_
  have hheld := ht.mono (fun lock hlock => mem_append_left _ hlock)
  have heq := view_steady wr h.lock hheld
  rw [← heq] at hledger hmem
  have hone : matching ws (·.reservationId = row.reservationId) (view wr t) = [row] :=
    hledger.only_row hmem
  simp only [rowLocks, hone, map_cons, map_nil]
  refine h.clean.extend ws hheld (fun lock hlock => by simp [hlock])
    (by simp [h.lock]) (by simp [lock, refreshed]) ?_
  rw [settle_at (by simp)]
  have hoff := hledger.putRow ws (refreshed ttl now row) hmem rfl rfl rfl id
  have hreserved : weight (!·.finalized) (refreshed ttl now row) = weight (!·.finalized) row := rfl
  have hstored : weight (·.finalized) (refreshed ttl now row) = weight (·.finalized) row := rfl
  rw [hreserved, hstored, add_sub_cancel_right, add_sub_cancel_right] at hoff
  exact hoff

omit h

theorem reserve_clean (h : Clean held wr s) (bytes : Int) (alreadyStored : Bool)
    (ttl : Int) (id : Nat) (now : Int) :
    isolation.Valid (fun _ => Clean)
      (reserve ws group hash bytes alreadyStored ttl id now) held wr s := by
  cases alreadyStored with
  | true => exact h
  | false =>
    refine valid_selectQuotaForUpdate fun t ht => ?_
    cases hq : (view wr t ws).quota with
    | none => trivial
    | some q =>
      have hlock : quotaLock ws (view wr t) = [.quota ws] := by
        simp [quotaLock, hq]
      have hholding : Holding ws q (held ++ [.quota ws]) wr t :=
        ⟨h.mono (fun _ hlock => mem_append_left _ hlock) ht, by simp, q, hq, rfl⟩
      rw [hlock]
      refine valid_selectRowsForUpdate fun v hv => ?_
      have hthere := hholding.mono hv
      have hledger := hthere.balanced hv.conserved
      have heq : (view wr v ws).quota = some q := by
        rw [view_steady _ hholding.lock hv]
        exact hq
      rcases matching_cases (hledger.inFlight_at_most_one group hash) with
        hmatch | ⟨row, hmem, -, hmatch⟩
      · simp only [rowLocks, hmatch, map_nil, append_nil, head?_nil]
        refine .bind ((retire_holding hthere heq).weaken ?_)
        intro stored held wr s hholding
        exact charge_clean hholding bytes ttl id now stored
      · simp only [rowLocks, hmatch, map_cons, map_nil, head?_cons]
        exact refresh_clean hthere hledger hmem ttl now

theorem putLimit_clean (h : Clean held wr s) (ht : Steady held s t)
    (ceiling : Quota → Option Int) (lim : Option Int) :
    Clean (held ++ [.quota ws]) (wr ++ match (view wr t ws).quota with
      | none => [.putQuota ws ⟨0, 0, lim⟩]
      | some q => [.putQuota ws { q with limitBytes := ceiling q }]) t := by
  have hledger := h.balanced t ht ws
  refine h.extend ws ht (fun _ hlock => mem_append_left _ hlock) (by simp) ?_ ?_
  · intro write hwrite
    split at hwrite
    · rw [mem_singleton.mp hwrite]
      exact ⟨rfl, by simp [lock]⟩
    · rw [mem_singleton.mp hwrite]
      exact ⟨rfl, by simp [lock]⟩
  · cases hq : (view wr t ws).quota with
    | none =>
      rw [settle_at (by simp)]
      have hrows := hledger.charged hq
      refine ⟨hledger.ids, hledger.slots, hledger.positive, ?_, ?_, ?_, ?_⟩
      · rintro _ ⟨⟩
        simp [Ledger.unclaimedBytes, hrows, totalBytes]
      · rintro _ ⟨⟩
        simp [Ledger.claimedBytes, hrows, totalBytes]
      · rintro _ ⟨⟩
        simp [Quota.allowed, maxI64]
      · rintro ⟨⟩
    | some q =>
      rw [settle_at (by simp)]
      have hall := hledger.allowed q hq
      have hoff := hledger.putQuota ws
        { q with limitBytes := ceiling q } hq hall
      simpa using hoff

theorem ensureQuotaRow_clean (h : Clean held wr s) (lim : Option Int) :
    isolation.Valid (fun _ => Clean) (ensureQuotaRow ws lim) held wr s := by
  intro t ht
  refine ⟨rfl, ?_⟩
  exact putLimit_clean h ht (·.limitBytes.or lim) lim

theorem setQuotaLimit_clean (h : Clean held wr s) (lim : Option Int) :
    isolation.Valid (fun _ => Clean) (setQuotaLimit ws lim) held wr s := by
  intro t ht
  refine ⟨rfl, ?_⟩
  exact putLimit_clean h ht (fun _ => lim) lim

end Functions

/-! ## Every interleaving -/

/-- A transaction of the relay on the media tables, with the moment it began. -/
inductive Call where
  | ensureQuotaRow (workspace : Bytes) (limit : Option Int)
  | setQuotaLimit (workspace : Bytes) (limit : Option Int)
  | reserve (workspace group hash : Bytes) (bytes : Int) (alreadyStored : Bool)
      (ttlSeconds : Int) (id : Nat) (now : Int)
  | claim (workspace group : Bytes) (hashes : List Bytes) (now : Int)
  | release (workspace : Bytes) (id : Nat)
  | sweepUnclaimed (workspace : Bytes) (id : Nat) (graceSeconds now : Int)
  | finishDeletion (workspace : Bytes) (id : Nat)
deriving DecidableEq

/-- The program of a transaction. -/
def Call.program : Call → Tx Unit
  | ensureQuotaRow workspace limit => Media.ensureQuotaRow workspace limit
  | setQuotaLimit workspace limit => Media.setQuotaLimit workspace limit
  | reserve workspace group hash bytes alreadyStored ttlSeconds id now =>
    (Media.reserve workspace group hash bytes alreadyStored ttlSeconds id now).bind
      (fun _ => .done ())
  | claim workspace group hashes now => claimAll workspace group now hashes
  | release workspace id => (releaseIn workspace id).bind (fun _ => .done ())
  | sweepUnclaimed workspace id graceSeconds now =>
    Media.sweepUnclaimed workspace id graceSeconds now
  | finishDeletion workspace id => Media.finishDeletion workspace id

/-- The transactions of the media tables, interleaved statement by statement. -/
abbrev interleaving : Machine Tables (Stage Tables Write Lock Refusal) (Turn Call) Lock :=
  machine Write.apply Call.program

theorem Call.sound (call : Call) (s : Tables) : isolation.Sound call.program [] [] s := by
  have hclean : Clean [] [] s :=
    ⟨fun t ht => ht.conserved, fun write hwrite => by cases hwrite⟩
  have hvalid : isolation.Valid (fun _ => Clean) call.program [] [] s := by
    cases call with
    | ensureQuotaRow ws lim => exact ensureQuotaRow_clean hclean lim
    | setQuotaLimit ws lim => exact setQuotaLimit_clean hclean lim
    | reserve ws group hash bytes alreadyStored ttl id now =>
      exact .bind (reserve_clean hclean bytes alreadyStored ttl id now)
    | claim ws group hashes now => exact claimAll_clean hashes hclean now
    | release ws id => exact .bind (releaseIn_clean hclean id)
    | sweepUnclaimed ws id grace now =>
      exact sweepUnclaimed_clean hclean id grace now
    | finishDeletion ws id => exact finishDeletion_clean hclean id
  exact hvalid.weaken fun _ _ _ _ h => h.committable

theorem conserved_noTables : Conserved noTables := fun _ =>
  ⟨nodup_nil, nodup_nil, by simp [noTables], nofun, nofun, nofun, fun _ => rfl⟩

/-- One workspace, and nothing beside it. -/
theorem conserved_update {ws l} (h : Ledger.Balanced l) :
    Conserved (Function.update noTables ws l) := by
  intro other
  by_cases heq : other = ws
  · rwa [heq, Function.update_self]
  · rw [Function.update_of_ne heq]
    exact conserved_noTables other

/-- Nobody has begun, on empty tables. -/
def fresh (π : Type) : World π Tables (Stage Tables Write Lock Refusal) :=
  ⟨noTables, fun _ => .idle⟩

/-- The statement a process is about to run holds a `greatest`, or a `max` with zero, that
would take effect. -/
def Clamps {π : Type} (world : World π Tables (Stage Tables Write Lock Refusal)) (p : π) : Prop :=
  (world.phase p).trips Write.apply world.store = true

/-- After every interleaving, in every workspace: the promised bytes are the sum over the
rows in flight, the stored bytes the sum over the final rows, no object has two rows in
flight, and no clamp is about to take effect. -/
theorem quota_conserved
    {π : Type}
    [DecidableEq π]
    {labels : List (π × Turn Call)}
    {world : World π Tables (Stage Tables Write Lock Refusal)}
    (hrun : Run interleaving.Step (fresh π) labels world)
    (workspace : Bytes) :
    (∀ quota, (world.store workspace).quota = some quota →
      quota.reservedBytes = (world.store workspace).unclaimedBytes ∧
        quota.storedBytes = (world.store workspace).claimedBytes) ∧
      ((world.store workspace).quota = none → (world.store workspace).rows = []) ∧
      (∀ group hash, ((world.store workspace).rows.filter (·.inFlight group hash)).length ≤ 1) ∧
      ∀ p, ¬ Clamps world p := by
  have hstart : isolation.inv (fresh π).store := conserved_noTables
  obtain ⟨hconserved, htrips⟩ := Isolation.run (fun call s _ => Call.sound call s) hstart
    (fun _ => rfl) hrun
  have hledger : (world.store workspace).Balanced := hconserved workspace
  refine ⟨fun quota hq => ⟨?_, ?_⟩, hledger.charged, fun group hash => ?_, fun p hp => ?_⟩
  · rw [hledger.reservedBytes quota hq, add_zero]
  · rw [hledger.storedBytes quota hq, add_zero]
  · rcases hledger.inFlight_at_most_one group hash with hnone | ⟨row, hone⟩
    · simp [hnone]
    · simp [hone]
  · have hquiet : (world.phase p).trips Write.apply world.store = false := htrips p
    rw [Clamps, hquiet] at hp
    cases hp

/-- Begin a transaction and run this many of its statements, the commit included. -/
def attempt (p : Caller) (call : Call) (n : Nat) : List (Caller × Turn Call) :=
  (p, .begin call) :: List.replicate n (p, .next)

/-- A claim and a new reservation at once: the claim has the row and waits for the quota
row, which the reservation holds. -/
def crossedTurns : List (Caller × Turn Call) :=
  List.flatten [attempt .first (.ensureQuotaRow (id32 1) (some 100)) 2,
      attempt .first (.reserve (id32 1) (id32 2) (id32 3) 60 false 900 7 0) 7,
      attempt .second (.claim (id32 1) (id32 2) [id32 3] 5) 1,
      attempt .first (.reserve (id32 1) (id32 2) (id32 4) 30 false 900 8 10) 7,
      [(.second, .next), (.second, .next)]]

theorem quota_conserved_crossed : ∃ world, Run interleaving.Step (fresh Caller) crossedTurns world ∧
      (world.store (id32 1)).quota = some ⟨60, 30, some 100⟩ ∧
      (world.store (id32 1)).unclaimedBytes = 30 ∧ (world.store (id32 1)).claimedBytes = 60 := by
  have hexec : ((interleaving.exec (fun _ _ _ _ => True) (fresh Caller) crossedTurns).map
      (fun world => (world.store (id32 1)).quota)) = some (some ⟨60, 30, some 100⟩) := by
    decide +kernel
  obtain ⟨world, hworld, hq⟩ := Option.map_eq_some_iff.mp hexec
  have hrun := Machine.run_of_exec hworld
  obtain ⟨hsums, -⟩ := quota_conserved hrun (id32 1)
  obtain ⟨hreserved, hstored⟩ := hsums _ hq
  exact ⟨world, hrun, hq, hreserved.symm, hstored.symm⟩

end WealdRelay.Media
