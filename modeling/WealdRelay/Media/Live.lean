import WealdRelay.Media.Sweeps
import WealdRelay.Retention.OneChain

/-!
# Live media

No collector deletes an object that the newest manifest names, however the steps of the
collectors, of PUTs and of manifests follow each other, on two conditions:

* no reservation is taken for a named object that was not found in the store;
* no manifest is applied while a collector has decided on one of its objects.

The row of a named object is final from the manifest on. The unclaimed collector deletes
under the lock of a row that is not, and a manifest that claims the row waits for it. The
other two collectors act on a decision that nothing protects: a manifest that names the
object again is accepted in between, and the object is deleted all the same.
-/

namespace WealdRelay.Media.Sweeps

open Lib Retention List

namespace Depot

/-- The newest manifest names the object. -/
def Names (s : Depot) (hash : Bytes) : Prop :=
  ∃ latest ∈ s.records.latestManifest, hash ∈ latest.blobs

instance (s : Depot) (hash : Bytes) : Decidable (s.Names hash) :=
  inferInstanceAs (Decidable (∃ latest ∈ s.records.latestManifest, hash ∈ latest.blobs))

end Depot

section Rows

variable {c : Access.Crypto} {ws group : Bytes} {s s' : Depot} {phase phase' : Phase}

variable (group) in
/-- What a step makes of the row of one object. -/
inductive RowMove (s s' : Depot) (phase : Phase) (inside hash : Bytes) :
    Option Reservation → Option Reservation → Prop where
  | kept (row : Option Reservation) : RowMove s s' phase inside hash row row
  | renewed (row row' : Reservation) (hid : row'.reservationId = row.reservationId)
      (hopen : row.finalized = false) (hopen' : row'.finalized = false) :
      RowMove s s' phase inside hash (some row) (some row')
  | inserted (row : Option Reservation) (row' : Reservation) (len : Nat) (limit : Option Int)
      (hid : row'.reservationId = s.nextId) (hnext : s.nextId < s'.nextId)
      (hold : ∀ old ∈ row, old.finalized = true) (hinside : inside = group)
      (hphase : phase = .putReserve hash len limit false) :
      RowMove s s' phase inside hash row (some row')
  | claimed (row row' : Reservation) (record : RetentionManifest)
      (hid : row'.reservationId = row.reservationId) (hfinal : row'.finalized = true)
      (hphase : phase = .manifestApply record) (hinside : inside = record.group)
      (hhash : hash ∈ record.blobs) : RowMove s s' phase inside hash (some row) (some row')
  | released (row listed : Reservation) (graceSeconds : Int) (rows : List Reservation)
      (hphase : phase = .unclaimedRelease graceSeconds listed rows)
      (hid : row.reservationId = listed.reservationId) (hopen : row.finalized = false) :
      RowMove s s' phase inside hash (some row) none
  | finished (row listed : Reservation) (nowMs : Nat) (rows : List Reservation)
      (hphase : phase = .retentionFinish nowMs listed rows)
      (hid : row.reservationId = listed.reservationId) (hfinal : row.finalized = true) :
      RowMove s s' phase inside hash (some row) none

/-- A deletion that takes one row or none. -/
theorem RowMove.of_filter {w hash : Bytes} {row : Option Reservation} {p : Reservation → Bool}
    (h : ∀ old, row = some old → p old = false → RowMove group s s' phase w hash (some old) none) :
    RowMove group s s' phase w hash row (row.filter p) := by
  cases row with
  | none => exact .kept none
  | some old =>
    cases hp : p old with
    | true =>
      rw [Option.filter_some_pos hp]
      exact .kept _
    | false =>
      have hnone : (some old).filter p = none := by simp [Option.filter, hp]
      rw [hnone]
      exact h old rfl hp

theorem Effect.rowMove (h : Effect c ws group s phase s') (ht : Tidy s.tables) :
    Tidy s'.tables ∧ s.nextId ≤ s'.nextId ∧
    ∀ w hash, RowMove group s s' phase w hash
      ((s.tables ws).rowOf w hash) ((s'.tables ws).rowOf w hash) := by
  cases h with
  | reads _ _ hquiet =>
    refine ⟨hquiet.tables ▸ ht, hquiet.nextId.ge, fun w hash => ?_⟩
    rw [hquiet.tables]
    exact .kept _
  | collects | deletes => exact ⟨ht, le_rfl, fun w hash => .kept _⟩
  | reserves hash len lim alreadyStored =>
    rcases takeReservation_cases ws group hash len lim alreadyStored s.nextId s.clock
        ht with ⟨ans, t, ha, hrows, htake, -⟩ |
      ⟨row, t, ha, rfl, hrow, hrewrites, htake⟩
    · rw [htake]
      refine ⟨ha, Nat.le_succ _, fun w hash' => ?_⟩
      simp only [hrows]
      exact .kept _
    · rw [htake]
      refine ⟨ha, Nat.le_succ _, fun w hash' => ?_⟩
      simp only [hrewrites ws w hash']
      split
      next heq =>
        obtain ⟨rfl, rfl⟩ := Prod.mk.inj (Prod.mk.inj heq).2
        rcases Reservation.requested_cases group hash len presignTtlSeconds s.nextId s.clock
            ((s.tables ws).rowOf group hash) with
          ⟨old, hold, hopen, hrenewed⟩ | ⟨hfinal, hnew⟩
        · rw [hrow, hrenewed, hold]
          exact .renewed old _ rfl hopen hopen
        · rw [hrow, hnew]
          exact .inserted _ _ len lim rfl (Nat.lt_succ_self _) hfinal rfl rfl
      · exact .kept _
  | applies rec out rs ts happly =>
    rcases applyManifest_cases happly with ⟨rfl, rfl⟩ | ⟨-, -, hclaims⟩
    · exact ⟨ht, le_rfl, fun w hash => .kept _⟩
    · obtain ⟨ha, -, hrows⟩ := claimAll_rowOf ht hclaims
      refine ⟨ha, le_rfl, fun w hash => ?_⟩
      simp only [hrows]
      split
      next hnamed =>
        cases hrow : (s.tables ws).rowOf w hash with
        | none => exact .kept none
        | some row =>
          refine .claimed row (row.claimed s.clock) rec ?_ (row.finalized_claimed s.clock) rfl
            hnamed.2.1.symm hnamed.2.2
          rw [Reservation.claimed]
          split <;> rfl
      · exact .kept _
  | releases grace row rows bytes ts hrel =>
    obtain ⟨ha, hrows⟩ := releaseIn_rowOf ht hrel
    refine ⟨ha, le_rfl, fun w hash => ?_⟩
    simp only [hrows]
    refine .of_filter fun old hold hgone => ?_
    simp only [decide_true, Bool.true_and, Bool.not_eq_false', Bool.and_eq_true,
      decide_eq_true_eq, Bool.not_eq_true'] at hgone
    exact .released old row grace rows rfl hgone.1 hgone.2
  | finishes nowMs row rows ts hfinish =>
    obtain ⟨ha, hrows⟩ := finishDeletion_rowOf ht hfinish
    refine ⟨ha, le_rfl, fun w hash => ?_⟩
    simp only [hrows]
    refine .of_filter fun old hold hgone => ?_
    simp only [decide_true, Bool.true_and, Bool.not_eq_false', Bool.and_eq_true,
      decide_eq_true_eq] at hgone
    exact .finished old row nowMs rows rfl hgone.1 hgone.2

/-- What is named after a step was named before it, or it has been claimed by it. -/
theorem Effect.names (h : Effect c ws group s phase s') (ht : Tidy s.tables)
    {hash : Bytes} (hnames : s'.Names hash) :
    s.Names hash ∨ ∃ rec, phase = .manifestApply rec ∧ hash ∈ rec.blobs ∧
      ∃ row, (s'.tables ws).rowOf rec.group hash = some row ∧ row.finalized = true := by
  cases h with
  | applies rec out rs ts happly =>
    rcases applyManifest_cases happly with ⟨rfl, rfl⟩ | ⟨hseq, hrecords, hclaims⟩
    · exact .inl hnames
    · obtain ⟨latest, hlatest, hh⟩ := hnames
      simp only [hrecords, latestManifest_append hseq, Option.mem_some] at hlatest
      subst hlatest
      obtain ⟨-, hhave, hrows⟩ := claimAll_rowOf ht hclaims
      obtain ⟨row, hrow⟩ := hhave hash hh
      refine .inr ⟨rec, rfl, hh, row.claimed s.clock, ?_, row.finalized_claimed s.clock⟩
      simp only [hrows, hh, and_self, if_true, hrow, Option.map_some]
  | reads _ _ hquiet =>
    left
    rw [Depot.Names, Records.latestManifest, hquiet.manifests] at hnames
    exact hnames
  | _ => exact .inl hnames

end Rows

section Invariant

variable {c : Access.Crypto} {workspace group : Bytes} {s s' : Depot} {phase phase' other : Phase}
  {action : Action} {row : Reservation} {hash : Bytes}

/-! ## What is kept -/

variable (workspace group) in
/-- Ids are not used again, and the row of a named object is final. -/
structure Sound (s : Depot) : Prop where
  tidy : Tidy s.tables
  used : ∀ inside hash row, (s.tables workspace).rowOf inside hash = some row →
    row.reservationId < s.nextId
  final : ∀ hash, s.Names hash →
    ∃ row, (s.tables workspace).rowOf group hash = some row ∧ row.finalized = true

variable (workspace) in
/-- The row was in the tables: its id is used, and for no other object. -/
def Traced (s : Depot) (row : Reservation) : Prop :=
  row.reservationId < s.nextId ∧ ∀ inside hash current,
    (s.tables workspace).rowOf inside hash = some current →
      current.reservationId = row.reservationId → (inside, hash) = row.slot

variable (workspace) in
/-- The row is in the tables and is not final. -/
def Pending (s : Depot) (row : Reservation) : Prop :=
  ∃ current, (s.tables workspace).rowOf row.group row.hash = some current ∧
    current.reservationId = row.reservationId ∧ current.finalized = false

variable (workspace group) in
/-- What a process relies on: the rows it has listed, the row it holds, and that what it has
decided to delete is not named. -/
def Relies (s : Depot) : Phase → Prop
  | .manifestHead record _ | .manifestApply record => record.group = group
  | .unclaimedNext _ rows | .retentionNext _ rows | .unclaimedRelease _ _ rows =>
    ∀ row ∈ rows, Traced workspace s row
  | .unclaimedDelete _ row rows => Pending workspace s row ∧ ∀ row ∈ rows, Traced workspace s row
  | .retentionDelete _ row rows | .retentionFinish _ row rows =>
    (row.group = group → ¬ s.Names row.hash) ∧ ∀ listed ∈ row :: rows, Traced workspace s listed
  | .unreferencedNext doomed => ∀ hash, .blob workspace group hash ∈ doomed → ¬ s.Names hash
  | _ => True

/-- No reservation is taken for a named object that was not found in the store. -/
def seen : Action → Depot → Phase → Bool
  | .turn, s, .putReserve hash _ _ false => !decide (s.Names hash)
  | _, _, _ => true

variable (workspace group) in
/-- No manifest is applied while another process has decided on one of its objects. -/
def undecided : Action → Depot → Phase → Phase → Bool
  | .turn, _, .manifestApply record, other =>
    record.blobs.all (fun hash =>
      !(condemned workspace other).contains (.blob workspace group hash))
  | _, _, _, _ => true

theorem Sound.traced (h : Sound workspace group s) (hrow : row ∈ (s.tables workspace).rows) :
    Traced workspace s row := by
  have hf := Ledger.rowOf_of_mem (h.tidy.single workspace) hrow
  refine ⟨h.used _ _ _ hf, fun w hash current hcur hid => ?_⟩
  obtain rfl : current = row := inj_on_of_nodup_map (h.tidy.conserved workspace).ids
    (Ledger.mem_of_rowOf hcur) hrow hid
  exact (Ledger.slot_of_rowOf hcur).symm

/-! ## One step -/

theorem Traced.step (ht : Tidy s.tables) (h : Traced workspace s row)
    (heffect : Effect c workspace group s phase s') : Traced workspace s' row := by
  obtain ⟨-, hnext, hmove⟩ := heffect.rowMove ht
  refine ⟨lt_of_lt_of_le h.1 hnext, fun w hash current hcur hid => ?_⟩
  have hrow := hmove w hash
  rw [hcur] at hrow
  generalize hb : (s.tables workspace).rowOf w hash = b at hrow
  cases hrow with
  | kept => exact h.2 w hash current hb hid
  | renewed old _ heq _ _ => exact h.2 w hash old hb (heq.symm.trans hid)
  | inserted _ _ len lim hnew _ _ _ _ =>
    have hused := h.1
    omega
  | claimed old _ rec heq _ _ _ _ =>
    exact h.2 w hash old hb (heq.symm.trans hid)

/-- A row that is held stays as it is. -/
theorem Pending.step (ht : Tidy s.tables) (h : Pending workspace s row)
    (heffect : Effect c workspace group s phase s')
    (hfree : Lock.row workspace row.reservationId ∉ locks workspace phase ∧
      Lock.row workspace row.reservationId ∉ needs workspace .turn s phase) :
    Pending workspace s' row := by
  obtain ⟨current, hcur, hid, hopen⟩ := h
  have hrow := (heffect.rowMove ht).2.2 row.group row.hash
  rw [hcur] at hrow
  generalize ha : (s'.tables workspace).rowOf row.group row.hash = t at hrow
  cases hrow with
  | kept => exact ⟨current, ha, hid, hopen⟩
  | renewed _ next heq _ hopen' => exact ⟨next, ha, heq.trans hid, hopen'⟩
  | inserted _ next len lim _ _ hold _ _ =>
    have hfinal := hold current rfl
    rw [hopen] at hfinal
    cases hfinal
  | claimed _ next rec _ _ hphase hinside hh =>
    -- The manifest would have to wait for the row.
    refine absurd ?_ hfree.2
    subst hphase
    have hmine : current ∈ (s.tables workspace).rows.filter (fun row =>
        !row.finalized && row.group = rec.group && rec.blobs.contains row.hash) := by
      obtain ⟨hg, hhash'⟩ := Prod.mk.inj (Ledger.slot_of_rowOf hcur)
      refine mem_filter.mpr ⟨Ledger.mem_of_rowOf hcur, ?_⟩
      simp [hopen, hg, hhash', hinside, hh]
    refine mem_flatMap.mpr ⟨current, hmine, ?_⟩
    simp [hid]
  | released _ listed grace rows hphase hlisted _ =>
    refine absurd ?_ hfree.1
    subst hphase
    simp [locks, ← hlisted, hid]
  | finished _ listed nowMs rows _ _ hfinal =>
    rw [hopen] at hfinal
    cases hfinal

/-- What a step leaves unnamed, it leaves so unless it applies a manifest that names it. -/
theorem Effect.unnamed (ht : Tidy s.tables) (h : ¬ s.Names hash)
    (heffect : Effect c workspace group s phase s')
    (ho : ∀ rec, phase = .manifestApply rec → hash ∉ rec.blobs) : ¬ s'.Names hash := by
  intro hnames
  rcases heffect.names ht hnames with hb | ⟨rec, hphase, hh, -⟩
  · exact h hb
  · exact ho rec hphase hh

variable (h : Sound workspace group s)
include h

/-- The final row of a named object is still there after a step. -/
theorem Sound.rowOf_step (hrel : Relies workspace group s phase)
    (hseen : seen .turn s phase = true) (heffect : Effect c workspace group s phase s')
    (hnames : s.Names hash) :
    ∃ row, (s'.tables workspace).rowOf group hash = some row ∧ row.finalized = true := by
  obtain ⟨row, hrow, hfinal⟩ := h.final hash hnames
  have hmove := (heffect.rowMove h.tidy).2.2 group hash
  rw [hrow] at hmove
  generalize ha : (s'.tables workspace).rowOf group hash = t at hmove
  cases hmove with
  | kept => exact ⟨row, rfl, hfinal⟩
  | renewed _ next _ hopen | released _ listed grace rows _ _ hopen =>
    rw [hfinal] at hopen
    cases hopen
  | inserted _ next len lim _ _ _ _ hphase =>
    subst hphase
    simp [seen, hnames] at hseen
  | claimed _ next rec _ hfinal' _ _ _ => exact ⟨next, rfl, hfinal'⟩
  | finished _ listed nowMs rows hphase hid _ =>
    -- The row that goes is of an object that is not named.
    subst hphase
    obtain ⟨hunnamed, htraced⟩ := hrel
    have hslot := (htraced listed mem_cons_self).2 group hash row hrow hid
    obtain ⟨hg, rfl⟩ := Prod.mk.inj hslot
    exact absurd hnames (hunnamed hg.symm)

theorem Sound.step (hrel : Relies workspace group s phase)
    (hseen : seen .turn s phase = true) (heffect : Effect c workspace group s phase s') :
    Sound workspace group s' := by
  obtain ⟨ht, hnext, hmove⟩ := heffect.rowMove h.tidy
  refine ⟨ht, fun w hash row hrow => ?_, fun hash hnames => ?_⟩
  · have hrow' := hmove w hash
    rw [hrow] at hrow'
    generalize hb : (s.tables workspace).rowOf w hash = b at hrow'
    cases hrow' with
    | kept => exact lt_of_lt_of_le (h.used w hash row hb) hnext
    | renewed old _ hid | claimed old _ rec hid =>
      rw [hid]
      exact lt_of_lt_of_le (h.used w hash old hb) hnext
    | inserted _ _ len lim hid hlt _ _ _ =>
      rw [hid]
      exact hlt
  · rcases heffect.names h.tidy hnames with hb | ⟨rec, hphase, -, hrow⟩
    · exact h.rowOf_step hrel hseen heffect hb
    · subst hphase
      rw [← show rec.group = group from hrel]
      exact hrow

omit h in
/-- What a process has decided to delete is not named. -/
theorem Relies.unnamed (h : Relies workspace group s phase)
    (hcondemned : .blob workspace group hash ∈ condemned workspace phase) : ¬ s.Names hash := by
  cases phase with
  | retentionDelete | retentionFinish =>
    obtain ⟨-, rfl, rfl⟩ := Key.blob.inj (mem_singleton.mp hcondemned)
    exact h.1 rfl
  | unreferencedNext doomed => exact h hash hcondemned
  | _ => cases hcondemned

theorem Relies.step (hrel : Relies workspace group s phase)
    (hs : statement c workspace group s phase = some (s', phase')) :
    Relies workspace group s' phase' := by
  have heffect := (statement_effect hs).1
  cases phase with
  | idle => cases hs
  | putHead | putReserve | unreferencedList =>
    cases hs
    trivial
  | manifestHead rec hashes =>
    cases hashes with
    | nil =>
      cases hs
      exact hrel
    | cons hash hashes =>
      simp only [statement] at hs
      split at hs
      · cases hs
        trivial
      · cases hs
        exact hrel
  | manifestApply rec =>
    simp only [statement] at hs
    split at hs
    · cases hs
      trivial
    · cases hs
      trivial
  | unclaimedList | retentionList =>
    cases hs
    exact fun row hrow => h.traced (mem_filter.mp hrow).1
  | unclaimedNext grace rows =>
    cases rows with
    | nil =>
      cases hs
      trivial
    | cons row rows =>
      have hr : ∀ listed ∈ rows, Traced workspace s listed := fun listed hlisted =>
        hrel listed (mem_cons_of_mem row hlisted)
      simp only [statement] at hs
      split at hs
      next t hlock =>
        cases hs
        obtain ⟨current, hcur, hid, hstale⟩ := (lockUnclaimed_ok hlock).2 rfl
        have hf := Ledger.rowOf_of_mem (h.tidy.single workspace) hcur
        have hslot := (hrel row mem_cons_self).2 _ _ current hf hid
        obtain ⟨hg, hh⟩ := Prod.mk.inj hslot
        rw [hg, hh] at hf
        simp only [Reservation.stale, Bool.and_eq_true, Bool.not_eq_true'] at hstale
        exact ⟨⟨current, hf, hid, hstale.1⟩, hr⟩
      · cases hs
        exact hr
  | unclaimedDelete grace row rows =>
    cases hs
    exact hrel.2
  | unclaimedRelease grace row rows =>
    have hr : ∀ listed ∈ rows, Traced workspace s' listed := fun listed hlisted =>
      (hrel listed hlisted).step h.tidy heffect
    simp only [statement] at hs
    split at hs
    · cases hs
      exact hr
    · cases hs
      exact hr
  | retentionNext nowMs rows =>
    cases rows with
    | nil =>
      cases hs
      trivial
    | cons row rows =>
      simp only [statement] at hs
      split at hs
      next heligible =>
        cases hs
        exact ⟨fun _ hnames => not_eligible_of_named hnames _ _ heligible, hrel⟩
      · cases hs
        exact fun listed hlisted => hrel listed (mem_cons_of_mem row hlisted)
  | retentionDelete nowMs row rows =>
    cases hs
    exact hrel
  | retentionFinish nowMs row rows =>
    have hr : ∀ listed ∈ rows, Traced workspace s' listed := fun listed hlisted =>
      (hrel.2 listed (mem_cons_of_mem row hlisted)).step h.tidy heffect
    simp only [statement] at hs
    split at hs
    · cases hs
      exact hr
    · cases hs
      exact hr
  | unreferencedRows nowMs minAgeSeconds listed =>
    cases hs
    intro hash hdoomed hnames
    -- A named object has a row, and the sweep passes over what has one.
    obtain ⟨row, hrow, -⟩ := h.final hash hnames
    obtain ⟨_, hkey, hnone⟩ := rowOf_of_unreferenced hdoomed
    obtain ⟨-, -, rfl⟩ := Key.blob.inj hkey
    rw [hnone] at hrow
    cases hrow
  | unreferencedNext doomed =>
    cases doomed with
    | nil =>
      cases hs
      trivial
    | cons key doomed =>
      cases hs
      exact fun hash hh => hrel hash (mem_cons_of_mem key hh)

theorem Relies.beside (hrel : Relies workspace group s other)
    (heffect : Effect c workspace group s phase s')
    (hundecided : undecided workspace group .turn s phase other = true)
    (hfree : ∀ row ∈ locks workspace other, row ∉ locks workspace phase ∧
      row ∉ needs workspace .turn s phase) : Relies workspace group s' other := by
  have hspared : ∀ hash, .blob workspace group hash ∈ condemned workspace other →
      ¬ s.Names hash → ¬ s'.Names hash := by
    intro hash hcondemned hunnamed
    refine heffect.unnamed h.tidy hunnamed fun rec hphase hh => ?_
    subst hphase
    have hfree := all_eq_true.mp hundecided hash hh
    simp [hcondemned] at hfree
  have htraced : ∀ {rows : List Reservation}, (∀ row ∈ rows, Traced workspace s row) →
      ∀ row ∈ rows, Traced workspace s' row := fun hrows row hrow =>
    (hrows row hrow).step h.tidy heffect
  cases other with
  | manifestHead | manifestApply => exact hrel
  | unclaimedNext | retentionNext | unclaimedRelease => exact htraced hrel
  | unclaimedDelete grace row rows =>
    exact ⟨hrel.1.step h.tidy heffect (hfree _ (by simp [locks])), htraced hrel.2⟩
  | retentionDelete nowMs row | retentionFinish nowMs row =>
    exact ⟨fun hg => hspared row.hash (by simp [condemned, hg]) (hrel.1 hg), htraced hrel.2⟩
  | unreferencedNext doomed =>
    exact fun hash hdoomed => hspared hash hdoomed (hrel hash hdoomed)
  | _ => trivial

omit h in
theorem relies_opening (h : opening group phase) : Relies workspace group s phase := by
  cases phase with
  | idle | putHead | unclaimedList | retentionList | unreferencedList => trivial
  | manifestHead rec hashes => exact h
  | _ => cases h

theorem relies_self (hrel : Relies workspace group s phase) (hseen : seen action s phase = true)
    (hact : (machine c workspace group).act action s phase = some (s', phase')) :
    Sound workspace group s' ∧ Relies workspace group s' phase' := by
  rcases act_cases hact with ⟨rfl, hs⟩ | ⟨hquiet, hopening⟩
  · exact ⟨h.step hrel hseen (statement_effect hs).1, hrel.step h hs⟩
  · have heffect : Effect c workspace group s .idle s' := .reads _ _ hquiet
    have hidle : Relies workspace group s .idle := trivial
    exact ⟨h.step hidle rfl heffect, relies_opening hopening⟩

omit h in
theorem relies_other
    (h : (machine c workspace group).Beside (Sound workspace group) (Relies workspace group)
      (fun _ _ => True) (fun action s phase other =>
        undecided workspace group action s phase other = true) action s phase other)
    (hact : (machine c workspace group).act action s phase = some (s', phase')) :
    Relies workspace group s' other ∧ True := by
  refine ⟨?_, trivial⟩
  rcases act_cases hact with ⟨rfl, hs⟩ | ⟨hquiet, -⟩
  · exact h.other.beside h.store (statement_effect hs).1 h.allowed
      (fun row hrow => ⟨fun hheld => h.held row hheld hrow, fun hneed => h.needed row hneed hrow⟩)
  · have heffect : Effect c workspace group s .idle s' := .reads _ _ hquiet
    exact h.other.beside h.store heffect rfl fun row hrow => ⟨by simp [locks], by simp [needs]⟩

/-- A step takes nothing that is named. -/
theorem Effect.get_named (hrel : Relies workspace group s phase)
    (heffect : Effect c workspace group s phase s') (hnames : s.Names hash)
    (hstored : (s.objects.get (.blob workspace group hash)).isSome) :
    (s'.objects.get (.blob workspace group hash)).isSome := by
  obtain ⟨row, hrow, hfinal⟩ := h.final hash hnames
  cases heffect with
  | reads _ _ hquiet => exact hquiet.objects _ hstored
  | collects grace listed rows =>
    rw [Storage.get_delete]
    split
    next hkey =>
      obtain ⟨-, rfl, rfl⟩ := Key.blob.inj hkey
      obtain ⟨⟨current, hcur, -, hopen⟩, -⟩ := hrel
      cases hrow.symm.trans hcur
      rw [hfinal] at hopen
      cases hopen
    · exact hstored
  | deletes _ key hkey =>
    rw [Storage.get_delete]
    split
    next heq =>
      subst heq
      exact absurd hnames (hrel.unnamed hkey)
    · exact hstored
  | _ => exact hstored

omit h

/-! ## Every run -/

/-- A group without media: no row, no manifest, and whatever is in the store. -/
def newDepot (objects : Storage) (chain : Chain) (policies : List Policy)
    (destructions : List Destruction) (clock : Int) : Depot :=
  ⟨⟨noTables, objects⟩, ⟨chain, [], policies, destructions⟩, 0, clock⟩

theorem sound_newDepot (objects : Storage) (chain : Chain) (policies : List Policy)
    (destructions : List Destruction) (clock : Int) :
    Sound workspace group (newDepot objects chain policies destructions clock) := by
  refine ⟨⟨conserved_noTables, fun _ => nodup_nil⟩, fun w hash row hrow => ?_,
    fun hash hnames => ?_⟩
  · cases hrow
  · obtain ⟨latest, hlatest, -⟩ := hnames
    cases hlatest

/-- In every run in which no reservation is taken for a named object that was not found and
no manifest is applied while a collector has decided on one of its objects, no step deletes
an object that the newest manifest names. -/
theorem named_object_stays
    {π : Type}
    [DecidableEq π]
    {w w' : World π Depot Phase}
    {labels : List (π × Action)}
    {label : π × Action}
    {objects : Storage}
    {chain : Chain}
    {policies : List Policy}
    {destructions : List Destruction}
    {clock : Int}
    (hrun : Run ((machine c workspace group).StepWhen (fun action s phase => seen action s phase)
      (fun action s phase other => undecided workspace group action s phase other))
      ⟨newDepot objects chain policies destructions clock, fun _ => .idle⟩ labels w)
    (hstep : (machine c workspace group).Step w label w')
    (hnames : w.store.Names hash)
    (hstored : (w.store.objects.get (.blob workspace group hash)).isSome) :
    (w'.store.objects.get (.blob workspace group hash)).isSome := by
  have hstart : (machine c workspace group).Holds (Sound workspace group) (Relies workspace group)
      (fun _ _ => True) (⟨newDepot objects chain policies destructions clock, fun _ => .idle⟩ :
        World π Depot Phase) :=
    .of_idle (fun _ => rfl) rfl (sound_newDepot objects chain policies destructions clock) trivial
      trivial
  have hholds := hstart.runWhen (fun _ _ _ => trivial) relies_self relies_other hrun
  obtain ⟨s', phase', hact, -, rfl⟩ := hstep
  rcases act_cases hact with ⟨-, hstatement⟩ | ⟨hquiet, -⟩
  · exact (statement_effect hstatement).1.get_named hholds.store (hholds.phase label.1) hnames
      hstored
  · exact hquiet.objects _ hstored

end Invariant
section Sample

/-- A manifest of the group, signed in epoch 0. -/
def signedManifest (sequence : Nat) (prev : Option RetentionManifest) (blobs : List Bytes) :
    RetentionManifest :=
  ⟨room, 0, sequence, prev.map (·.digest plainCrypto), blobs, id32 1⟩

def naming : RetentionManifest := signedManifest 1 none [photo]

def omitting : RetentionManifest := signedManifest 2 (some naming) []

def namingAgain : RetentionManifest := signedManifest 3 (some omitting) [photo]

/-- Group 1 keeps what it no longer names for 30 days. -/
def monthly : Depot := newDepot [] ⟨[genesisControl], [], false⟩ [⟨1, 30, 0, 0⟩] [] 0

/-- An object is uploaded and named, and then omitted. -/
def nameAndOmit : List (Caller × Action) :=
  [(.first, .put photo 5 none), (.first, .turn), (.first, .turn), (.first, .upload photo 5),
    (.first, .manifest naming), (.first, .turn), (.first, .turn), (.first, .turn),
    (.first, .manifest omitting), (.first, .turn), (.first, .turn)]

/-- Forty days later the retention collector lists what was claimed. -/
def listLater : List (Caller × Action) :=
  [(.first, .tick (seconds (40 * 24 * 60 * 60))),
    (.second, .sweepRetention (40 * 24 * 60 * 60 * 1000)), (.second, .turn)]

/-- A manifest names the object again. -/
def nameAgain : List (Caller × Action) :=
  [(.first, .manifest namingAgain), (.first, .turn), (.first, .turn), (.first, .turn)]

/-- The manifest is applied between the collector's decision and its delete. -/
theorem named_object_deleted :
    ∃ w w', Run (machine plainCrypto home room).Step ⟨monthly, fun _ => .idle⟩
        (nameAndOmit ++ listLater ++ [(.second, .turn)] ++ nameAgain) w ∧
      (machine plainCrypto home room).Step w (.second, .turn) w' ∧
      w.store.Names photo ∧
      w.store.objects.get (.blob home room photo) = some ⟨.blob home room photo, 5, some 0⟩ ∧
      w'.store.objects.get (.blob home room photo) = none := by
  have hb : ((machine plainCrypto home room).exec (fun _ _ _ _ => True)
      ⟨monthly, fun _ => .idle⟩ (nameAndOmit ++ listLater ++ [(.second, .turn)] ++ nameAgain)).map
        (fun w => (decide (w.store.Names photo), w.store.objects.get (.blob home room photo))) =
      some (true, some ⟨.blob home room photo, 5, some 0⟩) := by
    decide +kernel
  have ha : ((machine plainCrypto home room).exec (fun _ _ _ _ => True)
      ⟨monthly, fun _ => .idle⟩
      (nameAndOmit ++ listLater ++ [(.second, .turn)] ++ nameAgain ++ [(.second, .turn)])).map
        (fun w => w.store.objects.get (.blob home room photo)) = some none := by
    decide +kernel
  obtain ⟨w', hw', hgone⟩ := Option.map_eq_some_iff.mp ha
  obtain ⟨w, hw, hrun, hs⟩ := Machine.exec_snoc hw'
  rw [hw] at hb
  obtain ⟨hnames, hstored⟩ := Prod.mk.inj (Option.some.inj hb)
  exact ⟨w, w', Machine.run_of_under hrun, hs.1, of_decide_eq_true hnames, hstored, hgone⟩

/-- The manifest is applied before the collector decides. -/
theorem named_object_kept : ∃ w w', Run ((machine plainCrypto home room).StepWhen
        (fun action s phase => seen action s phase)
        (fun action s phase other => undecided home room action s phase other))
        ⟨monthly, fun _ => .idle⟩ (nameAndOmit ++ listLater ++ nameAgain) w ∧
      (machine plainCrypto home room).Step w (Caller.second, .turn) w' ∧
      w.store.Names photo ∧ (w'.store.objects.get (.blob home room photo)).isSome = true := by
  have hb : ((machine plainCrypto home room).exec (fun action s phase other =>
      seen action s phase = true ∧ undecided home room action s phase other = true)
      ⟨monthly, fun _ => .idle⟩ (nameAndOmit ++ listLater ++ nameAgain)).map
        (fun w => (decide (w.store.Names photo),
          (w.store.objects.get (.blob home room photo)).isSome)) = some (true, true) := by
    decide +kernel
  have ha : ((machine plainCrypto home room).exec (fun action s phase other =>
      seen action s phase = true ∧ undecided home room action s phase other = true)
      ⟨monthly, fun _ => .idle⟩ (nameAndOmit ++ listLater ++ nameAgain ++
        [(Caller.second, .turn)])).isSome = true := by
    decide +kernel
  obtain ⟨w', hw'⟩ := Option.isSome_iff_exists.mp ha
  obtain ⟨w, hw, hrun, hs⟩ := Machine.exec_snoc hw'
  rw [hw] at hb
  obtain ⟨hnames, hstored⟩ := Prod.mk.inj (Option.some.inj hb)
  have hnames := of_decide_eq_true hnames
  exact ⟨w, w', Machine.run_when hrun, hs.1, hnames,
    named_object_stays (Machine.run_when hrun) hs.1 hnames hstored⟩

end Sample
end WealdRelay.Media.Sweeps
