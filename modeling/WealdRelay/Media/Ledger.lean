import WealdRelay.Media.Store

/-!
# The books of a workspace

`Ledger.Off` says by how much the two counters of a workspace are ahead of its rows. Each
write moves it by the bytes it is about: `Ledger.Off.deleteRow`, `insertRow`, `putRow` and
`putQuota` say by how much, and `Ledger.Balanced` is the case where both are nothing.

The second part says what writes leave alone: other workspaces, rows under other ids, and
how a view of the tables depends on what is below it.
-/

namespace WealdRelay.Media

open Lib List Table Reservation

/-! ## The counters and the rows -/

section Sums

/-- The bytes of a row, if it is one of these. -/
def weight (p : Reservation → Bool) (row : Reservation) : Int := if p row then row.bytes else 0

variable (p : Reservation → Bool) {row : Reservation}

theorem totalBytes_filter (rows : List Reservation) :
    totalBytes (rows.filter p) = (rows.map (weight p)).sum := by
  induction rows with
  | nil => rfl
  | cons row rows ih =>
    rw [totalBytes] at ih
    cases hrow : p row with
    | false | true => simp [totalBytes, weight, hrow, ih]

variable {rows : List Reservation}

theorem totalBytes_sublist {more} (hsub : rows.Sublist more)
    (h : ∀ row ∈ more, 0 < row.bytes) : totalBytes rows ≤ totalBytes more := by
  induction hsub with
  | slnil => exact le_rfl
  | @cons rows more row hsub ih =>
    have hrow := h row mem_cons_self
    have hr := ih (fun x ho => h x (mem_cons_of_mem _ ho))
    simp only [totalBytes, map_cons, sum_cons] at hr ⊢
    omega
  | @cons_cons rows more row hsub ih =>
    have hr := ih (fun x ho => h x (mem_cons_of_mem _ ho))
    simp only [totalBytes, map_cons, sum_cons] at hr ⊢
    omega

theorem totalBytes_nonneg (h : ∀ row ∈ rows, 0 < row.bytes) : 0 ≤ totalBytes rows :=
  totalBytes_sublist (nil_sublist rows) h

theorem bytes_le_totalBytes (h : ∀ row ∈ rows, 0 < row.bytes) (hrow : row ∈ rows) :
    row.bytes ≤ totalBytes rows := by
  have hsub := totalBytes_sublist (singleton_sublist.mpr hrow) h
  simpa [totalBytes] using hsub

theorem sum_weight_remove (hids : (rows.map (·.reservationId)).Nodup) (hrow : row ∈ rows) :
    ((remove reservationId rows row.reservationId).map (weight p)).sum +
      weight p row = (rows.map (weight p)).sum :=
  sum_remove (weight p) hids hrow

theorem sum_weight_put {old} (hids : (rows.map (·.reservationId)).Nodup)
    (hold : old ∈ rows) (hid : old.reservationId = row.reservationId) :
    ((put reservationId rows row).map (weight p)).sum + weight p old =
      (rows.map (weight p)).sum + weight p row :=
  sum_put (weight p) hids hold hid

end Sums

namespace Ledger

/-- The bytes of the rows that no manifest has named. -/
def unclaimedBytes (ledger : Ledger) : Int :=
  totalBytes (ledger.rows.filter (fun row => !row.finalized))

/-- The bytes of the rows that a manifest has named. -/
def claimedBytes (ledger : Ledger) : Int :=
  totalBytes (ledger.rows.filter (fun row => row.finalized))

/-- The counters are ahead of the rows by these amounts. -/
structure Off (reserved stored : Int) (ledger : Ledger) : Prop where
  ids : (ledger.rows.map (·.reservationId)).Nodup
  slots : ((ledger.rows.filter (fun row => !row.finalized)).map (·.slot)).Nodup
  positive : ∀ row ∈ ledger.rows, 0 < row.bytes
  reservedBytes : ∀ quota, ledger.quota = some quota →
    quota.reservedBytes = ledger.unclaimedBytes + reserved
  storedBytes : ∀ quota, ledger.quota = some quota →
    quota.storedBytes = ledger.claimedBytes + stored
  allowed : ∀ quota, ledger.quota = some quota → quota.allowed
  charged : ledger.quota = none → ledger.rows = []

/-- The counters are the sums over the rows. -/
abbrev Balanced (ledger : Ledger) : Prop := ledger.Off 0 0

variable {l : Ledger} {reserved stored : Int} {row : Reservation} {ws : Bytes}

theorem unclaimedBytes_eq (l : Ledger) :
    l.unclaimedBytes = (l.rows.map (weight (!·.finalized))).sum :=
  totalBytes_filter _ _

theorem claimedBytes_eq (l : Ledger) : l.claimedBytes = (l.rows.map (weight (·.finalized))).sum :=
  totalBytes_filter _ _

/-- Writing over a row of the same object, final only if it was not before, leaves no
slot that was not there. -/
theorem slots_put_sublist {rows old} (hids : (rows.map (·.reservationId)).Nodup) (hold : old ∈ rows)
    (hid : old.reservationId = row.reservationId) (hslot : old.slot = row.slot)
    (hfinal : old.finalized = true → row.finalized = true) :
    (((put reservationId rows row).filter (!·.finalized)).map (·.slot)).Sublist
      ((rows.filter (!·.finalized)).map (·.slot)) := by
  obtain ⟨a, b, hrows, ha⟩ := exists_modify_eq hids hold (fun _ => row)
  rw [put, ← hid, ha, hrows]
  simp only [filter_append, map_append]
  refine (Sublist.refl _).append ?_
  cases hold' : old.finalized with
  | true => simp [hold', hfinal hold']
  | false =>
    cases hrow : row.finalized with
    | true => simp [hold', hrow]
    | false => simp [hold', hrow, hslot]

namespace Off

theorem quota_of_mem (h : l.Off reserved stored) (hrow : row ∈ l.rows) : ∃ q, l.quota = some q := by
  cases hq : l.quota with
  | none =>
    rw [h.charged hq] at hrow
    cases hrow
  | some q => exact ⟨q, rfl⟩

theorem deleteRow (ws : Bytes) (h : l.Off reserved stored) (hrow : row ∈ l.rows) :
    (Write.onLedger (.deleteRow ws row.reservationId) l).Off (reserved + weight (!·.finalized) row)
      (stored + weight (·.finalized) row) := by
  have hrows : ∀ x ∈ remove reservationId l.rows row.reservationId,
      x ∈ l.rows := fun x ho => (mem_remove.mp ho).1
  refine ⟨nodup_remove h.ids, ?_, fun x ho => h.positive x (hrows x ho), ?_, ?_, h.allowed, ?_⟩
  · exact h.slots.sublist ((filter_sublist.filter _).map _)
  · intro q hq
    have hsum := sum_weight_remove (!·.finalized) h.ids hrow
    rw [h.reservedBytes q hq, unclaimedBytes_eq, unclaimedBytes_eq]
    simp only [Write.onLedger]
    omega
  · intro q hq
    have hsum := sum_weight_remove (·.finalized) h.ids hrow
    rw [h.storedBytes q hq, claimedBytes_eq, claimedBytes_eq]
    simp only [Write.onLedger]
    omega
  · intro hq
    simp [h.charged hq, remove]

/-- What the constraints of the table say of a row they let in. -/
theorem of_insertable (h : insertable row l = true) :
    (∃ q, l.quota = some q) ∧ l.row row.reservationId = none ∧
      0 < row.bytes ∧ row.bytes ≤ blobLimit ∧
      l.rows.filter (·.inFlight row.group row.hash) = [] := by
  simp only [insertable, Bool.and_eq_true, decide_eq_true_eq, List.isEmpty_iff,
    Option.isNone_iff_eq_none, Option.isSome_iff_exists] at h
  obtain ⟨⟨⟨⟨hq, hid⟩, hbytes⟩, hblob⟩, hslot⟩ := h
  exact ⟨hq, hid, hbytes, hblob, hslot⟩

theorem insertRow (ws : Bytes) (row : Reservation) (h : l.Off reserved stored)
    (hopen : row.finalized = false) (hinsert : insertable row l = true) :
    (Write.onLedger (.insertRow ws row) l).Off (reserved - row.bytes) stored := by
  obtain ⟨⟨q, hq⟩, hid, hbytes, -, hslot⟩ := of_insertable hinsert
  have hnewSlot : row.slot ∉ (l.rows.filter (!·.finalized)).map (·.slot) := by
    intro hmem
    obtain ⟨x, ho, heq⟩ := mem_map.mp hmem
    obtain ⟨ho, hunclaimed⟩ := mem_filter.mp ho
    have hfor : x.isFor row.group row.hash = true := decide_eq_true heq
    have hin : x ∈ l.rows.filter (·.inFlight row.group row.hash) :=
      mem_filter.mpr ⟨ho, by simpa [inFlight, hfor] using hunclaimed⟩
    rw [hslot] at hin
    cases hin
  refine ⟨?_, ?_, ?_, ?_, ?_, h.allowed, ?_⟩
  · exact Table.nodup_map_snoc h.ids fun x ho => ne_of_lookup_eq_none hid ho
  · have hslots := h.slots.concat hnewSlot
    simpa [hopen] using hslots
  · exact forall_mem_snoc h.positive hbytes
  · intro q hq
    rw [h.reservedBytes q hq, unclaimedBytes_eq, unclaimedBytes_eq]
    simp [weight, hopen]
  · intro q hq
    rw [h.storedBytes q hq, claimedBytes_eq, claimedBytes_eq]
    simp [weight, hopen]
  · intro hnone
    simp only [Write.onLedger] at hnone
    rw [hnone] at hq
    cases hq

/-- A row written over one of the same object moves the counters by their difference. -/
theorem putRow (ws : Bytes) (row : Reservation) {old}
    (h : l.Off reserved stored) (hold : old ∈ l.rows)
    (hid : old.reservationId = row.reservationId) (hslot : old.slot = row.slot)
    (hbytes : old.bytes = row.bytes) (hfinal : old.finalized = true → row.finalized = true) :
    (Write.onLedger (.putRow ws row) l).Off
      (reserved + weight (!·.finalized) old - weight (!·.finalized) row)
      (stored + weight (·.finalized) old - weight (·.finalized) row) := by
  refine ⟨?_, ?_, ?_, ?_, ?_, h.allowed, ?_⟩
  · rw [Write.onLedger, map_key_put]
    exact h.ids
  · refine h.slots.sublist ?_
    exact slots_put_sublist h.ids hold hid hslot hfinal
  · intro x ho
    rcases mem_put ho with rfl | hmem
    · rw [← hbytes]
      exact h.positive old hold
    · exact h.positive x hmem
  · intro q hq
    have hsum := sum_weight_put (!·.finalized) h.ids hold hid
    rw [h.reservedBytes q hq, unclaimedBytes_eq, unclaimedBytes_eq]
    simp only [Write.onLedger]
    omega
  · intro q hq
    have hsum := sum_weight_put (·.finalized) h.ids hold hid
    rw [h.storedBytes q hq, claimedBytes_eq, claimedBytes_eq]
    simp only [Write.onLedger]
    omega
  · intro hq
    simp [h.charged hq, put, Table.modify]

theorem putQuota (ws : Bytes) {q} (quota' : Quota) (h : l.Off reserved stored)
    (hq : l.quota = some q) (hall : quota'.allowed = true) :
    (Write.onLedger (.putQuota ws quota') l).Off (reserved + quota'.reservedBytes - q.reservedBytes)
      (stored + quota'.storedBytes - q.storedBytes) := by
  refine ⟨h.ids, h.slots, h.positive, ?_, ?_, ?_, nofun⟩
  · rintro _ ⟨⟩
    have hreserved := h.reservedBytes q hq
    simp only [Write.onLedger, unclaimedBytes] at hreserved ⊢
    omega
  · rintro _ ⟨⟩
    have hstored := h.storedBytes q hq
    simp only [Write.onLedger, claimedBytes] at hstored ⊢
    omega
  · rintro _ ⟨⟩
    exact hall

/-- The rows a clause names are at most one, when it fixes something no two rows share. -/
theorem filter_at_most_one {κ : Type} {rows : List Reservation} {p : Reservation → Bool}
    (key : Reservation → κ) (k : κ) (hnd : ((rows.filter p).map key).Nodup)
    (hp : ∀ row ∈ rows, p row = true → key row = k) :
    rows.filter p = [] ∨ ∃ row, rows.filter p = [row] := by
  match hf : rows.filter p with
  | [] => exact .inl rfl
  | [row] => exact .inr ⟨row, rfl⟩
  | first :: second :: rest =>
    have hkey : ∀ row ∈ rows.filter p, key row = k := fun row hrow =>
      hp row (mem_of_mem_filter hrow) (of_mem_filter hrow)
    have hfirst := hkey first (by simp [hf])
    have hsecond := hkey second (by simp [hf])
    rw [hf] at hnd
    simp [hfirst, hsecond] at hnd

variable (h : l.Off reserved stored)
include h

theorem inFlight_at_most_one (g hash : Bytes) : l.rows.filter (·.inFlight g hash) = [] ∨
      ∃ row, l.rows.filter (·.inFlight g hash) = [row] := by
  refine filter_at_most_one slot (g, hash) ?_ ?_
  · refine h.slots.sublist (.map _ ?_)
    refine monotone_filter_right _ fun row hrow => ?_
    simp only [inFlight, Bool.and_eq_true] at hrow
    exact hrow.2
  · intro row _ hrow
    simp only [inFlight, isFor, Bool.and_eq_true, decide_eq_true_eq] at hrow
    exact hrow.1

theorem id_at_most_one (id : Nat) (p : Reservation → Bool) :
    l.rows.filter (fun row => row.reservationId = id && p row) = [] ∨
      ∃ row, l.rows.filter (fun row => row.reservationId = id && p row) = [row] := by
  refine filter_at_most_one reservationId id ?_ ?_
  · exact h.ids.sublist (filter_sublist.map _)
  · intro row _ hrow
    simp only [Bool.and_eq_true, decide_eq_true_eq] at hrow
    exact hrow.1

theorem only_row (hrow : row ∈ l.rows) :
    l.rows.filter (·.reservationId = row.reservationId) = [row] := by
  have hf : row ∈ l.rows.filter (·.reservationId = row.reservationId) :=
    mem_filter.mpr ⟨hrow, decide_eq_true rfl⟩
  have hids : ((l.rows.filter (·.reservationId = row.reservationId)).map
      (·.reservationId)).Nodup := h.ids.sublist (filter_sublist.map _)
  have hone := filter_at_most_one reservationId row.reservationId hids
    (fun x _ ho => of_decide_eq_true ho)
  rcases hone with hnone | ⟨x, ho⟩
  · rw [hnone] at hf
    cases hf
  · rw [ho] at hf ⊢
    rw [mem_singleton.mp hf]

omit h in
/-- Many final rows that are gone leave their bytes on the counter. -/
theorem deleteRows (ws : Bytes) {gone : List Reservation} (h : l.Off reserved stored)
    (hmem : ∀ row ∈ gone, row ∈ l.rows) (hids : (gone.map (·.reservationId)).Nodup)
    (hfinal : ∀ row ∈ gone, row.finalized = true) :
    ((gone.map (Write.deleteRow ws ·.reservationId)).foldl
      (fun l write => write.onLedger l) l).Off reserved (stored + totalBytes gone) := by
  induction gone generalizing l stored with
  | nil => simpa [totalBytes] using h
  | cons row gone ih =>
    obtain ⟨hnew, hids⟩ := nodup_cons.mp hids
    have hrow := hfinal row mem_cons_self
    have hfirst := h.deleteRow ws (hmem row mem_cons_self)
    simp only [weight, hrow, Bool.not_true, Bool.false_eq_true, if_false, if_true,
      add_zero] at hfirst
    have hr := ih hfirst (fun x ho => ?_) hids (fun x ho => hfinal x (mem_cons_of_mem _ ho))
    · simpa [totalBytes, add_assoc] using hr
    · refine mem_remove.mpr ⟨hmem x (mem_cons_of_mem _ ho), fun heq => ?_⟩
      exact hnew (mem_map.mpr ⟨x, ho, heq⟩)

theorem row_of_mem (hrow : row ∈ l.rows) : l.row row.reservationId = some row :=
  lookup_of_mem h.ids hrow rfl

end Off
end Ledger

/-! ## What a write leaves alone -/

namespace Write

variable {write : Write} {ts tables' : Tables} {ws : Bytes} {id : Nat}

theorem apply_of_ne (h : write.workspace ≠ ws) : write.apply ts ws = ts ws :=
  Function.update_of_ne (Ne.symm h) _ _

theorem apply_self (write : Write) (ts : Tables) :
    write.apply ts write.workspace = write.onLedger (ts write.workspace) :=
  Function.update_self _ _ _

/-- What a select by id finds after a write is fixed by what it found before. -/
theorem row_onLedger_congr {l ledger'} (h : l.row id = ledger'.row id) :
    (write.onLedger l).row id = (write.onLedger ledger').row id := by
  simp only [Ledger.row] at h ⊢
  cases write with
  | putQuota ws q => exact h
  | insertRow ws row =>
    simp only [onLedger, Table.lookup_append]
    rw [h]
  | putRow ws row =>
    simp only [onLedger, lookup_put]
    rw [h]
  | deleteRow ws gone =>
    simp only [onLedger, lookup_remove]
    rw [h]

theorem row_onLedger_of_ne {l} (h : write.lock ≠ .row write.workspace id) :
    (write.onLedger l).row id = l.row id := by
  simp only [Ledger.row]
  cases write with
  | putQuota ws q => rfl
  | insertRow ws row =>
    exact Table.lookup_snoc_of_ne fun heq => h (by simp [lock, heq])
  | putRow ws row =>
    have hne : id ≠ row.reservationId := fun heq => h (by simp [lock, heq])
    simp [onLedger, lookup_put, hne]
  | deleteRow ws gone =>
    have hne : id ≠ gone := fun heq => h (by simp [lock, heq])
    simp [onLedger, lookup_remove, hne]

end Write

section Settle

variable {ts tables' : Tables} {ws : Bytes} {id : Nat} {wr : List Write}

theorem settle_congr (h : ts ws = tables' ws) :
    Prog.settle Write.apply wr ts ws = Prog.settle Write.apply wr tables' ws := by
  induction wr generalizing ts tables' with
  | nil => exact h
  | cons write wr ih =>
    rw [Prog.settle_cons, Prog.settle_cons]
    refine ih ?_
    by_cases hw : write.workspace = ws
    · subst hw
      rw [Write.apply_self, Write.apply_self, h]
    · rw [Write.apply_of_ne hw, Write.apply_of_ne hw, h]

/-- Writes to one workspace are made on its rows. -/
theorem settle_at (h : ∀ write ∈ wr, write.workspace = ws) : Prog.settle Write.apply wr ts ws =
      wr.foldl (fun l write => write.onLedger l) (ts ws) := by
  induction wr generalizing ts with
  | nil => rfl
  | cons write wr ih =>
    have hfirst := h write mem_cons_self
    rw [Prog.settle_cons, ih (fun x ho => h x (mem_cons_of_mem _ ho)), foldl_cons]
    subst hfirst
    rw [Write.apply_self]

theorem row_settle_congr (h : (ts ws).row id = (tables' ws).row id) :
    (Prog.settle Write.apply wr ts ws).row id = (Prog.settle Write.apply wr tables' ws).row id := by
  induction wr generalizing ts tables' with
  | nil => exact h
  | cons write wr ih =>
    rw [Prog.settle_cons, Prog.settle_cons]
    refine ih ?_
    by_cases hw : write.workspace = ws
    · subst hw
      rw [Write.apply_self, Write.apply_self]
      exact Write.row_onLedger_congr h
    · rw [Write.apply_of_ne hw, Write.apply_of_ne hw, h]

theorem settle_of_untouched (h : ∀ write ∈ wr, write.workspace ≠ ws) :
    Prog.settle Write.apply wr ts ws = ts ws := by
  induction wr generalizing ts with
  | nil => rfl
  | cons write wr ih =>
    rw [Prog.settle_cons, ih (fun x ho => h x (mem_cons_of_mem _ ho)),
      Write.apply_of_ne (h write mem_cons_self)]

theorem row_settle_of_unlocked (h : ∀ write ∈ wr, write.lock ≠ .row ws id) :
    (Prog.settle Write.apply wr ts ws).row id = (ts ws).row id := by
  induction wr generalizing ts with
  | nil => rfl
  | cons write wr ih =>
    rw [Prog.settle_cons, ih (fun x ho => h x (mem_cons_of_mem _ ho))]
    by_cases hw : write.workspace = ws
    · subst hw
      rw [Write.apply_self]
      exact Write.row_onLedger_of_ne (h write mem_cons_self)
    · rw [Write.apply_of_ne hw]

end Settle

end WealdRelay.Media
