import WealdRelay.Invite.Attempts

/-!
# The guess budget

A row's failures are the charges to it that were not given back (`Tallied.counted`). That
is an invariant while no sweep takes a row that a call in flight was charged to: then the
refund of a right code finds the row it charged. From it, a wrong code that may go on to
the verifier finds at most `maxFailures` charges on its row, its own among them, so no more
than that many wrong codes get there in the row's life.

A right code that a ceiling refuses is never verified, and keeps its charge.
-/

namespace WealdRelay.Invite.Attempts

open Lib Access List Table Bool

/-! ## What was charged to a row -/

/-- The charges to a row that were not given back. -/
def openOn (charges : List Charge) (id : Nat) : Nat :=
  charges.countP (fun c => decide (c.row = id) && !c.refunded)

/-- The wrong codes charged to a row that reach the verifier. -/
def wrongVerified (charges : List Charge) (id : Nat) : Nat :=
  charges.countP (fun c => decide (c.row = id) && (decide (c.guess = .wrong) && c.passed))

/-- The wrong codes charged to a row. -/
def wrongCharged (charges : List Charge) (id : Nat) : Nat :=
  charges.countP (fun c => decide (c.row = id) && decide (c.guess ≠ .right))

/-- The right codes charged to a row that a ceiling refused. -/
def rightRefused (charges : List Charge) (id : Nat) : Nat :=
  charges.countP (fun c => decide (c.row = id) && (decide (c.guess = .right) && !c.passed))

/-- What the rows and the charges keep. -/
structure Tallied (s : State) : Prop where
  ids : (s.rows.map Row.id).Nodup
  keys : (s.rows.map Row.key).Nodup
  rows : ∀ row ∈ s.rows, row.id < s.created
  charges : ∀ c ∈ s.charges, c.row < s.created
  serials : (s.charges.map Charge.serial).Nodup
  recent : ∀ c ∈ s.charges, c.serial < s.charges.length
  honest : ∀ c ∈ s.charges, c.refunded = true → c.guess = .right ∧ c.passed = true
  counted : ∀ row ∈ s.rows, row.failures = openOn s.charges row.id
  bounded : ∀ id, wrongVerified s.charges id ≤ maxFailures

/-- The charge of a call in flight is open, and its row is there. -/
def Owes (s : State) (q : Call) (serial : Nat) : Prop :=
  ∃ c ∈ s.charges, c.serial = serial ∧ c.refunded = false ∧ c.passed = true ∧
    c.guess = q.guess ∧ ∃ row ∈ s.rows, row.id = c.row ∧ row.key = q.key

/-- What a call relies on until its next statement. -/
def Relies (s : State) : Phase → Prop
  | .verify q serial => Owes s q serial
  | .refund q serial => Owes s q serial ∧ q.guess = .right
  | _ => True

/-- Two calls were not charged together. -/
def Apart (a b : Phase) : Prop := ∀ serial, a.serial = some serial → b.serial ≠ some serial

/-- The rows a turn deletes. -/
def swept (i : Action) (s : State) : Phase → List Nat
  | .sweeping q found =>
    if i = .turn then
      (s.rows.filter (fun row => decide (row.id ∈ found) && row.stale q.now)).map Row.id
    else []
  | _ => []

/-- The row a call in flight was charged to. -/
def chargedRow (s : State) (a : Phase) : List Nat :=
  match a.serial with
  | some serial => (s.charges.filter (fun c => c.serial = serial)).map Charge.row
  | none => []

/-- No sweep takes a row that another call in flight was charged to. -/
def Unswept (i : Action) (s : State) (a b : Phase) : Prop :=
  ∀ id ∈ chargedRow s b, id ∉ swept i s a

instance (i : Action) (s : State) (a b : Phase) : Decidable (Unswept i s a b) :=
  inferInstanceAs (Decidable (∀ id ∈ chargedRow s b, id ∉ swept i s a))

section Counts

variable {chs : List Charge} {c : Charge} {id serial : Nat}

theorem openOn_append : openOn (chs ++ [c]) id =
      openOn chs id + if c.row = id ∧ c.refunded = false then 1 else 0 := by
  simp [openOn, countP_append, countP_singleton]

theorem wrongVerified_append : wrongVerified (chs ++ [c]) id = wrongVerified chs id +
      if c.row = id ∧ c.guess = .wrong ∧ c.passed = true then 1 else 0 := by
  simp [wrongVerified, countP_append, countP_singleton]

theorem openOn_eq_zero (h : ∀ c ∈ chs, c.row ≠ id) : openOn chs id = 0 := by
  refine countP_eq_zero.mpr fun c hc hopen => ?_
  exact h c hc (of_decide_eq_true (and_eq_true_iff.mp hopen).1)

variable (honest : ∀ c ∈ chs, c.refunded = true → c.guess = .right ∧ c.passed = true)
include honest

/-- A wrong code's charge is never given back. -/
theorem wrongVerified_le_openOn : wrongVerified chs id ≤ openOn chs id := by
  refine countP_mono_left fun c hc hwrong => ?_
  simp only [and_eq_true, decide_eq_true_eq] at hwrong
  have hk : c.refunded = false := by
    refine eq_false_iff.mpr fun hrefunded => ?_
    have hright := (honest c hc hrefunded).1
    rw [hwrong.2.1] at hright
    cases hright
  simp [hwrong.1, hk]

/-- Without a right code in flight, the open charges are the wrong codes and the right
ones that a ceiling refused. -/
theorem openOn_eq (hset : ∀ c ∈ chs, c.guess = .right → c.passed = true → c.refunded = true) :
    openOn chs id = wrongCharged chs id + rightRefused chs id := by
  induction chs with
  | nil => rfl
  | cons c chs ih =>
    have hr := ih (fun d hd => honest d (mem_cons_of_mem _ hd))
      (fun d hd => hset d (mem_cons_of_mem _ hd))
    have hhonest := honest c mem_cons_self
    have hdone := hset c mem_cons_self
    simp only [openOn, wrongCharged, rightRefused, countP_cons] at hr ⊢
    rw [hr]
    by_cases hright : c.guess = .right
    · cases hpassed : c.passed with
      | true =>
        have hrefunded := hdone hright hpassed
        simp [hright, hrefunded]
      | false =>
        have hk : c.refunded = false :=
          eq_false_iff.mpr (fun h => by simp [hpassed] at hhonest; simp [hhonest] at h)
        simp [hright, hk]
        omega
    · have hk : c.refunded = false :=
        eq_false_iff.mpr (fun h => hright (hhonest h).1)
      simp [hright, hk]
      omega

end Counts

/-! ## Statements keep the tally -/

section Statements

variable {s s' : State} {q q' : Call} {a a' b : Phase} {serial os : Nat}

theorem tallied_sweep (hs : Tallied s) (found : List Nat) (now : Nat) :
    Tallied { s with rows := sweep s.rows found now } where
  ids := hs.ids.sublist ((filter_sublist).map _)
  keys := hs.keys.sublist ((filter_sublist).map _)
  rows := fun row hrow => hs.rows row (mem_of_mem_filter hrow)
  charges := hs.charges
  serials := hs.serials
  recent := hs.recent
  honest := hs.honest
  counted := fun row hrow => hs.counted row (mem_of_mem_filter hrow)
  bounded := hs.bounded

/-- The rows of one table are in another, with the same numbers and keys. -/
def Kept (rows rows' : List Row) : Prop :=
  ∀ row ∈ rows, ∃ row' ∈ rows', row'.id = row.id ∧ row'.key = row.key

variable {rows : List Row} {i : Action} {k : Bytes × Bytes} {row : Row} {f : Row → Row}

theorem Kept.modify (hid : ∀ row, (f row).id = row.id) (hkey : ∀ row, (f row).key = row.key) :
    Kept rows (Table.modify Row.key rows k f) := by
  intro row hrow
  refine ⟨if row.key = k then f row else row, mem_modify.mpr ⟨row, hrow, rfl⟩, ?_, ?_⟩
  · split
    · exact hid row
    · rfl
  · split
    · exact hkey row
    · rfl

theorem Owes.mono (h : Owes s q serial)
    (hcharges : ∀ c ∈ s.charges, c.serial = serial → c ∈ s'.charges)
    (hk : Kept s.rows s'.rows) : Owes s' q serial := by
  obtain ⟨c, hc, hserial, hopen, hpassed, hguess, row, hrow, hid, hkey⟩ := h
  obtain ⟨row', hrow', hid', hkey'⟩ := hk row hrow
  exact ⟨c, hcharges c hc hserial, hserial, hopen, hpassed, hguess, row', hrow',
    hid'.trans hid, hkey'.trans hkey⟩

variable (hs : Tallied s)
include hs

/-- The one row under a key has the only number it has. -/
theorem Tallied.id_ne {x} (hrow : row ∈ s.rows)
    (ho : x ∈ s.rows) (hkey : x.key ≠ row.key) : x.id ≠ row.id := by
  intro hid
  obtain rfl := inj_on_of_nodup_map hs.ids ho hrow hid
  exact hkey rfl

omit hs in
/-- What the charging statement did, and what was charged before to the row it took. -/
structure Took (s : State) (q : Call) (taken : Taken) : Prop where
  ids : (taken.rows.map Row.id).Nodup
  keys : (taken.rows.map Row.key).Nodup
  created : s.created ≤ taken.created
  rows : ∀ row ∈ taken.rows, row.id < taken.created
  known : taken.row < taken.created
  failures : taken.failures = openOn s.charges taken.row + 1
  counted : ∀ row ∈ taken.rows, row.failures =
    openOn s.charges row.id + if taken.row = row.id then 1 else 0
  present : ∃ row ∈ taken.rows, row.id = taken.row ∧ row.key = q.key
  kept : Kept s.rows taken.rows

theorem took_fresh (hnone : lookup Row.key s.rows q.key = none) :
    Took s q ⟨s.rows ++ [freshRow s.created q], s.created + 1, s.created, 1⟩ := by
  have hzero : openOn s.charges s.created = 0 :=
    openOn_eq_zero (fun c hc => Nat.ne_of_lt (hs.charges c hc))
  refine
    { ids := ?_, keys := ?_, created := Nat.le_succ _, rows := ?_, known := Nat.lt_succ_self _,
      failures := by simp [hzero], counted := ?_, present := ?_, kept := ?_ }
  · exact nodup_map_snoc hs.ids fun row hrow => Nat.ne_of_lt (hs.rows row hrow)
  · exact nodup_map_snoc hs.keys fun row hrow => ne_of_lookup_eq_none hnone hrow
  · exact forall_mem_snoc (fun row hrow => Nat.lt_succ_of_lt (hs.rows row hrow))
      (Nat.lt_succ_self _)
  · intro row hrow
    rcases mem_snoc.mp hrow with hrow | rfl
    · have hne : s.created ≠ row.id := Nat.ne_of_gt (hs.rows row hrow)
      simp [hne, hs.counted row hrow]
    · simp [freshRow, hzero]
  · exact ⟨_, mem_append_right _ (mem_singleton.mpr rfl), rfl, rfl⟩
  · exact fun row hrow => ⟨row, mem_append_left _ hrow, rfl, rfl⟩

theorem took_again (hf : lookup Row.key s.rows q.key = some row) :
    Took s q ⟨Table.modify Row.key s.rows q.key (·.charge q.now), s.created, row.id,
      row.failures + 1⟩ := by
  have hrow := mem_of_lookup hf
  have hkey : row.key = q.key := key_of_lookup hf
  have hk : Kept s.rows (Table.modify Row.key s.rows q.key (·.charge q.now)) :=
    .modify (fun _ => rfl) (fun _ => rfl)
  refine
    { ids := ?_, keys := ?_, created := Nat.le_refl _, rows := ?_, known := hs.rows row hrow,
      failures := by simp [hs.counted row hrow], counted := ?_, present := ?_, kept := hk }
  · exact nodup_map_modify (fun _ => rfl) hs.ids
  · exact nodup_map_modify (fun _ => rfl) hs.keys
  · exact forall_mem_modify hs.rows fun old hold _ => hs.rows old hold
  · intro new hnew
    obtain ⟨old, hold, rfl⟩ := mem_modify.mp hnew
    by_cases h : old.key = q.key
    · have hsame : old = row :=
        Option.some.inj ((lookup_of_mem hs.keys hold h).symm.trans hf)
      subst hsame
      simp [h, Row.charge, hs.counted old hold]
    · have hne : row.id ≠ old.id := (hs.id_ne hrow hold (fun heq => h (heq.trans hkey))).symm
      simp [h, hne, hs.counted old hold]
  · obtain ⟨new, hnew, hid, hsame⟩ := hk row hrow
    exact ⟨new, hnew, hid, hsame.trans hkey⟩

theorem took_of_take {taken} (h : take s q = some taken) : Took s q taken := by
  unfold take at h
  split at h
  next hnone =>
    cases h
    exact took_fresh hs hnone
  next row hf =>
    split at h
    · cases h
    · cases h
      exact took_again hs hf

omit hs in
theorem charged_cases (s : State) (q : Call) (os : Nat) :
    charged s q os = (s, .answered false) ∨ ∃ taken, take s q = some taken ∧
        charged s q os = ({ s with
              rows := taken.rows
              created := taken.created
              charges := s.charges ++
                [⟨s.charges.length, taken.row, q.guess, proceeds taken.failures os, false⟩] },
            afterClaim q s.charges.length (proceeds taken.failures os)) := by
  unfold charged
  cases h : take s q with
  | none => exact .inl rfl
  | some taken => exact .inr ⟨taken, rfl, rfl⟩

/-- A charge keeps the tally: a wrong code that may go on is among the first few. -/
theorem tallied_charged : Tallied (charged s q os).1 := by
  obtain h | ⟨taken, htake, h⟩ := charged_cases s q os
  · rw [h]
    exact hs
  · have took := took_of_take hs htake
    rw [h]
    have hopen : ∀ id, openOn (s.charges ++ [⟨s.charges.length, taken.row, q.guess,
        proceeds taken.failures os, false⟩]) id =
          openOn s.charges id + if taken.row = id then 1 else 0 := by
      intro id
      rw [openOn_append]
      simp
    have honest : ∀ c ∈ s.charges ++ [⟨s.charges.length, taken.row, q.guess,
        proceeds taken.failures os, false⟩],
          c.refunded = true → c.guess = .right ∧ c.passed = true := by
      exact forall_mem_snoc hs.honest fun h => by cases h
    refine
      { ids := took.ids, keys := took.keys, rows := took.rows, charges := ?_, serials := ?_,
        recent := ?_, honest := honest, counted := ?_, bounded := ?_ }
    · exact forall_mem_snoc (fun c hc => Nat.lt_of_lt_of_le (hs.charges c hc) took.created)
        took.known
    · exact nodup_map_snoc hs.serials fun c hc => Nat.ne_of_lt (hs.recent c hc)
    · simp only [length_append, length_singleton]
      exact forall_mem_snoc (fun c hc => Nat.lt_succ_of_lt (hs.recent c hc)) (Nat.lt_succ_self _)
    · intro row hrow
      rw [took.counted row hrow, hopen]
    · intro id
      by_cases hcounts : taken.row = id ∧ q.guess = .wrong ∧ proceeds taken.failures os = true
      · -- The row's open charges, this one among them, are within the ceiling.
        obtain ⟨rfl, -, hproceeds⟩ := hcounts
        have hceiling : taken.failures ≤ maxFailures :=
          of_decide_eq_true (and_eq_true_iff.mp hproceeds).1
        calc wrongVerified _ taken.row ≤ openOn _ taken.row := wrongVerified_le_openOn honest
          _ = taken.failures := by rw [hopen, took.failures]; simp
          _ ≤ maxFailures := hceiling
      · rw [wrongVerified_append, if_neg hcounts]
        exact hs.bounded id

theorem tallied_refunded (howes : Owes s q serial) (hright : q.guess = .right) :
    Tallied (refunded s q serial) := by
  obtain ⟨c, hc, rfl, hopen, hpassed, hguess, row, hrow, hid, hkey⟩ := howes
  have hcharge : ∀ d ∈ s.charges, d.serial = c.serial → d = c := fun d hd hserial =>
    inj_on_of_nodup_map hs.serials hd hc hserial
  refine
    { ids := ?_, keys := ?_, rows := ?_, charges := ?_, serials := ?_, recent := ?_,
      honest := ?_, counted := ?_, bounded := ?_ }
  · exact nodup_map_modify (fun _ => rfl) hs.ids
  · exact nodup_map_modify (fun _ => rfl) hs.keys
  · exact forall_mem_modify hs.rows fun old hold _ => hs.rows old hold
  · exact forall_mem_modify hs.charges fun old hold _ => hs.charges old hold
  · exact nodup_map_modify (fun _ => rfl) hs.serials
  · have hlen : (refunded s q c.serial).charges.length = s.charges.length := length_map _
    rw [hlen]
    exact forall_mem_modify hs.recent fun old hold _ => hs.recent old hold
  · refine forall_mem_modify hs.honest fun old hold hserial _ => ?_
    obtain rfl := hcharge old hold hserial
    exact ⟨hguess.trans hright, hpassed⟩
  · intro new hnew
    obtain ⟨old, hold, rfl⟩ := mem_modify.mp hnew
    by_cases h : old.key = q.key
    · obtain rfl : old = row := Option.some.inj
        ((lookup_of_mem hs.keys hold h).symm.trans (lookup_of_mem hs.keys hrow hkey))
      have hone : openOn (refunded s q c.serial).charges old.id + 1 = openOn s.charges old.id :=
        countP_modify_pred _ hs.serials hc rfl (by simp [hid, hopen]) (by simp)
      have hcounted := hs.counted old hold
      simp only [if_pos h, Row.refund]
      omega
    · have hne : c.row ≠ old.id := by
        rw [← hid]
        exact (hs.id_ne hrow hold (fun heq => h (heq.trans hkey))).symm
      have hsame : openOn (refunded s q c.serial).charges old.id = openOn s.charges old.id := by
        refine countP_modify_of_eq _ fun d hd hserial => ?_
        obtain rfl := hcharge d hd hserial
        simp [hne]
      simp only [if_neg h]
      rw [hsame]
      exact hs.counted old hold
  · intro id
    have hsame : wrongVerified (refunded s q c.serial).charges id = wrongVerified s.charges id :=
      countP_modify_of_eq _ (fun _ _ _ => rfl)
    rw [hsame]
    exact hs.bounded id

/-- A call that may go on has its charge on record and its row there. -/
theorem relies_charged : Relies (charged s q os).1 (charged s q os).2 := by
  obtain h | ⟨taken, htake, h⟩ := charged_cases s q os
  · rw [h]
    trivial
  · rw [h]
    unfold afterClaim
    split
    next hpassed =>
      obtain ⟨row, hrow, hid, hkey⟩ := (took_of_take hs htake).present
      exact ⟨_, mem_append_right _ (mem_singleton.mpr rfl), rfl, rfl, hpassed.1,
        rfl, row, hrow, hid, hkey⟩
    · trivial

/-- A turn keeps the tally, and leaves its call with what it then relies on. -/
theorem tallied_turn (ha : Relies s a) (h : Turn i s a s' a') : Tallied s' ∧ Relies s' a' := by
  cases h with
  | start q hclock =>
    exact ⟨⟨hs.ids, hs.keys, hs.rows, hs.charges, hs.serials, hs.recent, hs.honest,
      hs.counted, hs.bounded⟩, trivial⟩
  | read hreads =>
    refine ⟨hs, ?_⟩
    cases hreads with
    | right q serial hright => exact ⟨ha, hright⟩
    | _ => trivial
  | sweep q found => exact ⟨tallied_sweep hs found q.now, trivial⟩
  | charge q os => exact ⟨tallied_charged hs, relies_charged hs⟩
  | refund q serial => exact ⟨tallied_refunded hs ha.1 ha.2, trivial⟩

omit hs

/-! ## The other calls -/

theorem Relies.mono (hb : Relies s b)
    (h : ∀ q serial, b.serial = some serial → Owes s q serial → Owes s' q serial) :
    Relies s' b := by
  cases b with
  | verify q serial => exact h q serial rfl hb
  | refund q serial => exact ⟨h q serial rfl hb.1, hb.2⟩
  | _ => trivial

/-- A sweep that spares the row of a charge leaves the call its row. -/
theorem owes_sweep {found} (hserial : b.serial = some serial)
    (hunswept : Unswept .turn s (.sweeping q found) b) (h : Owes s q' serial) :
    Owes { s with rows := sweep s.rows found q.now } q' serial := by
  obtain ⟨c, hc, rfl, hopen, hpassed, hguess, row, hrow, hid, hkey⟩ := h
  refine ⟨c, hc, rfl, hopen, hpassed, hguess, row, mem_filter.mpr ⟨hrow, ?_⟩, hid, hkey⟩
  have hcharged : c.row ∈ chargedRow s b := by
    simp only [chargedRow, hserial]
    exact mem_map_of_mem (mem_filter.mpr ⟨hc, by simp⟩)
  refine not_eq_true' _ ▸ eq_false_iff.mpr (fun hgone => ?_)
  refine hunswept c.row hcharged ?_
  simp only [swept, if_true, ← hid]
  exact mem_map_of_mem (mem_filter.mpr ⟨hrow, hgone⟩)

theorem relies_other (hs : Tallied s) (hb : Relies s b) (hapart : Apart a b)
    (hunswept : Unswept i s a b) (h : Turn i s a s' a') : Relies s' b := by
  cases h with
  | start q hclock => exact hb.mono (fun _ _ _ howes => howes)
  | read hreads => exact hb
  | sweep q found => exact hb.mono (fun _ _ hserial howes => owes_sweep hserial hunswept howes)
  | charge q os =>
    obtain h | ⟨taken, htake, h⟩ := charged_cases s q os
    · rw [h]
      exact hb
    · rw [h]
      exact hb.mono (fun _ _ _ howes => howes.mono
        (fun c hc _ => mem_append_left _ hc) (took_of_take hs htake).kept)
  | refund q serial =>
    refine hb.mono (fun q' serial' hserial howes => howes.mono ?_
      (.modify (fun _ => rfl) (fun _ => rfl)))
    intro c hc heq
    have hne : c.serial ≠ serial := by
      rintro rfl
      exact hapart c.serial rfl (hserial.trans (congrArg some heq.symm))
    exact mem_modify.mpr ⟨c, hc, by rw [if_neg hne]⟩

theorem Relies.serial_lt (hs : Tallied s) (hb : Relies s b) (hserial : b.serial = some serial) :
    serial < s.charges.length := by
  have hlt : ∀ q, Owes s q serial → serial < s.charges.length := by
    rintro q ⟨c, hc, rfl, -⟩
    exact hs.recent c hc
  cases b with
  | verify q n =>
    cases hserial
    exact hlt q hb
  | refund q n =>
    cases hserial
    exact hlt q hb.1
  | _ => cases hserial

theorem serial_charged (h : (charged s q os).2.serial = some serial) :
    serial = s.charges.length := by
  obtain h' | ⟨taken, -, h'⟩ := charged_cases s q os
  · rw [h'] at h
    cases h
  · rw [h'] at h
    unfold afterClaim at h
    split at h
    · exact (Option.some.inj h).symm
    · cases h

theorem apart_turn (hs : Tallied s) (hb : Relies s b) (hapart : Apart a b) (h : Turn i s a s' a') :
    Apart a' b := by
  cases h with
  | start | sweep | refund => exact fun _ hserial => by cases hserial
  | read hreads =>
    cases hreads with
    | right q serial hright => exact hapart
    | _ => exact fun _ hserial => by cases hserial
  | charge q os =>
    intro serial hserial ho
    have hlt := hb.serial_lt hs ho
    rw [serial_charged hserial] at hlt
    exact Nat.lt_irrefl _ hlt

end Statements

/-! ## Runs -/

section Runs

variable {π : Type} [DecidableEq π] {w w' : World π State Phase} {labels : List (π × Action)}

/-- The tally is kept, and every call in flight has its charge and its row. -/
abbrev Sound (w : World π State Phase) : Prop := machine.Holds Tallied Relies Apart w

/-- A right code that may go on and was not given back is in flight. -/
def Pending (w : World π State Phase) : Prop :=
  ∀ c ∈ w.store.charges, c.guess = .right → c.passed = true → c.refunded = false →
    ∃ p, (w.phase p).serial = some c.serial

variable {label : π × Action} {i : Action}

theorem Sound.step (h : Sound w) (hstep : machine.StepUnder Unswept w label w') : Sound w' := by
  refine Machine.Holds.step (fun a b hab serial hb ha => hab serial ha hb) ?_ ?_ h hstep
  · exact fun hs ha hact => tallied_turn hs ha (turn_of_act hact)
  · intro i s a s' a' b hbeside hact
    have hturn := turn_of_act hact
    exact ⟨relies_other hbeside.store hbeside.other hbeside.apart hbeside.allowed hturn,
      apart_turn hbeside.store hbeside.other hbeside.apart hturn⟩

theorem turn_of_step {p} (h : machine.Step w (p, i) w') :
    Turn i w.store (w.phase p) w'.store (w'.phase p) := by
  obtain ⟨s', a', hact, -, rfl⟩ := h
  rw [World.move_phase_self]
  exact turn_of_act hact

/-- A charge that is still open after a turn is held by somebody else, was held by the
mover and still is, or was made in this turn. -/
theorem pending_turn {s s' a a'} (hs : Tallied s) (ha : Relies s a)
    (h : Turn i s a s' a') {c} (hc : c ∈ s'.charges) (hright : c.guess = .right)
    (hpassed : c.passed = true) (hopen : c.refunded = false) :
    a'.serial = some c.serial ∨ (c ∈ s.charges ∧ a.serial ≠ some c.serial) := by
  cases h with
  | start | sweep => exact .inr ⟨hc, fun h => by cases h⟩
  | read hreads =>
    cases hreads with
    | right q serial hguess =>
      by_cases hserial : some serial = some c.serial
      · exact .inl hserial
      · exact .inr ⟨hc, hserial⟩
    | wrong q serial hguess =>
      refine .inr ⟨hc, fun hserial => hguess ?_⟩
      obtain ⟨d, hd, heq, -, -, hdguess, -⟩ := ha
      cases hserial
      obtain rfl := inj_on_of_nodup_map hs.serials hd hc heq
      exact hdguess.symm.trans hright
    | _ => exact .inr ⟨hc, fun h => by cases h⟩
  | charge q os =>
    obtain h | ⟨taken, -, h⟩ := charged_cases s q os
    · rw [h] at hc
      exact .inr ⟨hc, fun h => by cases h⟩
    · rw [h] at hc ⊢
      rcases mem_snoc.mp hc with hc | rfl
      · exact .inr ⟨hc, fun h => by cases h⟩
      · refine .inl ?_
        have hguess : q.guess = .right := hright
        have hproceeds : proceeds taken.failures os = true := hpassed
        simp [afterClaim, hguess, hproceeds, Phase.serial]
  | refund q serial =>
    obtain ⟨d, hd, rfl⟩ := mem_modify.mp hc
    split at hopen
    · cases hopen
    next hne =>
      rw [if_neg hne]
      exact .inr ⟨hd, fun h => hne (Option.some.inj h).symm⟩

theorem pending_step (hsound : Sound w) (h : Pending w) (hs : machine.Step w label w') :
    Pending w' := by
  obtain ⟨s', a', hact, -, rfl⟩ := hs
  obtain ⟨p, i⟩ := label
  intro c hc hright hpassed hopen
  rcases pending_turn hsound.store (hsound.phase p) (turn_of_act hact) hc hright hpassed hopen
    with hmine | ⟨hold, hnot⟩
  · exact ⟨p, by rw [World.move_phase_self]; exact hmine⟩
  · obtain ⟨q, hq⟩ := h c hold hright hpassed hopen
    have hne : q ≠ p := by
      rintro rfl
      exact hnot hq
    exact ⟨q, by rw [World.move_phase_of_ne w hne]; exact hq⟩

theorem sound_run (hsound : Sound w) (hpend : Pending w)
    (hrun : Run (machine.StepUnder Unswept) w labels w') : Sound w' ∧ Pending w' := by
  refine Run.invariant ?_ hrun ⟨hsound, hpend⟩
  rintro v label v' ⟨hv, hp⟩ hs
  exact ⟨hv.step hs, pending_step hv hp hs.1⟩

/-- No call is under way and nothing was charged. -/
structure Fresh (w : World π State Phase) : Prop where
  idle : ∀ p, w.phase p = .idle
  rows : w.store.rows = []
  charges : w.store.charges = []

omit [DecidableEq π] in
theorem Fresh.sound (h : Fresh w) : Sound w := by
  refine .of_idle h.idle rfl ?_ trivial fun _ hserial => by cases hserial
  constructor <;> simp [h.rows, h.charges, wrongVerified]

omit [DecidableEq π] in
theorem Fresh.pending (h : Fresh w) : Pending w := by
  intro c hc
  rw [h.charges] at hc
  cases hc

end Runs

/-! ## Cooldowns -/

/-- Is the cooldown of the call's pair running? -/
def pairCooling (rows : List Row) (q : Call) : Bool :=
  rows.any (fun row => row.key = q.key && row.cooling q.now)

section Cooldowns

variable {i : Action} {s s' : State} {a a' : Phase} {q : Call} {serial : Nat}

theorem pairCooling_of_take (hs : Tallied s) {taken} (h : take s q = some taken) :
    pairCooling s.rows q = false := by
  refine any_eq_false.mpr fun row hrow hboth => ?_
  obtain ⟨hkey, hcooling⟩ := and_eq_true_iff.mp hboth
  have hf := lookup_of_mem hs.keys hrow (of_decide_eq_true hkey)
  simp [take, hf, hcooling] at h

/-- The one way to the verifier is a charge, and it is closed while the pair cools down. -/
theorem verify_of_turn (h : Turn i s a s' a') (hver : a' = .verify q serial) :
    (∃ os, a = .charging q os) ∧ ∃ taken, take s q = some taken := by
  cases h with
  | start | sweep | refund => cases hver
  | read hreads => cases hreads <;> cases hver
  | charge q' os =>
    obtain h' | ⟨taken, htake, h'⟩ := charged_cases s q' os
    · rw [h'] at hver
      cases hver
    · rw [h'] at hver
      unfold afterClaim at hver
      split at hver
      · obtain ⟨rfl, -⟩ := Phase.verify.inj hver
        exact ⟨⟨os, rfl⟩, taken, htake⟩
      · cases hver

theorem answered_of_cooling (h : Turn i s (.check q) s' a') (hcooling : pairCooling s.rows q) :
    a' = .answered false := by
  cases h with
  | read hreads =>
    cases hreads with
    | cooled => rfl
    | clear _ hclear =>
      simp only [cooledDown, or_eq_false_iff] at hclear
      rw [pairCooling, hclear.1] at hcooling
      cases hcooling

end Cooldowns

/-! ## One call after another -/

/-- Every other call is over or has not begun. -/
def Alone (_ : Action) (_ : State) (_ b : Phase) : Prop := b.resting = true

instance (i : Action) (s : State) (a b : Phase) : Decidable (Alone i s a b) :=
  inferInstanceAs (Decidable (b.resting = true))

/-- The wrong codes charged to the rows of a token that are still there. -/
def wrongOn (s : State) (token : Bytes) : Nat :=
  s.charges.countP (fun c => decide (c.guess ≠ .right) &&
    s.rows.any (fun row => decide (row.id = c.row) && decide (row.token = token)))

/-- What a call that has passed `cooled_down` knows of the token's failures. -/
def Within (s : State) : Phase → Prop
  | .fetch q | .sweep q =>
    failuresOf s.rows (fun row => row.token = q.token && row.inWindow q.now) < maxTokenFailures
  | .sweeping q found =>
    failuresOf s.rows (fun row => row.token = q.token && row.inWindow q.now) <
      maxTokenFailures ∧ found = staleRows s.rows q
  | .charge q | .charging q _ =>
    failuresOf s.rows (fun row => row.token = q.token) < maxTokenFailures
  | _ => True

section Sums

variable {rows : List Row} {p p' : Row → Bool}

theorem failuresOf_mono (h : ∀ row ∈ rows, p row = true → p' row = true) :
    failuresOf rows p ≤ failuresOf rows p' := by
  induction rows with
  | nil => exact Nat.le_refl _
  | cons row rows ih =>
    have hr := ih (fun x ho => h x (mem_cons_of_mem _ ho))
    have hrow := h row mem_cons_self
    simp only [failuresOf, filter_cons] at hr ⊢
    cases hp : p row with
    | true =>
      simp only [hrow hp, if_true, map_cons, sum_cons]
      omega
    | false =>
      cases hp' : p' row with
      | true =>
        simp only [false_eq_true, if_false, if_true, map_cons, sum_cons]
        omega
      | false => simpa using hr

/-- What a sweep leaves of a token counts in its sum. -/
theorem failuresOf_sweep (q : Call) :
    failuresOf (sweep rows (staleRows rows q) q.now) (·.token = q.token) ≤
      failuresOf rows (fun row => row.token = q.token && row.inWindow q.now) := by
  have hfilter : failuresOf (sweep rows (staleRows rows q) q.now)
      (·.token = q.token) = failuresOf rows (fun row =>
        decide (row.token = q.token) &&
          !(decide (row.id ∈ staleRows rows q) && row.stale q.now)) := by
    simp only [failuresOf, sweep, filter_filter]
  rw [hfilter]
  refine failuresOf_mono fun row hrow h => ?_
  obtain ⟨htok, hleft⟩ := and_eq_true_iff.mp h
  cases hstale : row.stale q.now with
  | true =>
    have hf : row.id ∈ staleRows rows q :=
      mem_map_of_mem (mem_filter.mpr ⟨hrow, by rw [htok, hstale]; rfl⟩)
    simp [hf, hstale] at hleft
  | false =>
    have hwindow : row.inWindow q.now = true := by
      simp only [Row.stale, and_eq_false_iff, not_eq_false', decide_eq_false_iff_not,
        Nat.not_le] at hstale
      simp only [Row.inWindow, or_eq_true, decide_eq_true_eq]
      exact hstale.symm
    simp [htok, hwindow]

variable {chs : List Charge}

theorem countP_or_le (f g : Charge → Bool) :
    chs.countP (fun c => f c || g c) ≤ chs.countP f + chs.countP g := by
  induction chs with
  | nil => simp
  | cons c chs ih =>
    simp only [countP_cons]
    cases f c <;> cases g c <;> simp <;> omega

/-- The wrong codes on some rows are among the open charges of those rows. -/
theorem countP_any_le
    (honest : ∀ c ∈ chs, c.refunded = true → c.guess = .right ∧ c.passed = true) :
    chs.countP (fun c => decide (c.guess ≠ .right) &&
        rows.any (fun row => decide (row.id = c.row) && p row)) ≤
      ((rows.filter p).map (openOn chs ·.id)).sum := by
  induction rows with
  | nil => simp
  | cons row rows ih =>
    have hsplit : chs.countP (fun c => decide (c.guess ≠ .right) &&
        (row :: rows).any (fun row => decide (row.id = c.row) && p row)) ≤
          chs.countP (fun c => decide (c.guess ≠ .right) &&
            (decide (row.id = c.row) && p row)) +
          chs.countP (fun c => decide (c.guess ≠ .right) &&
            rows.any (fun row => decide (row.id = c.row) && p row)) := by
      refine Nat.le_trans (Nat.le_of_eq ?_) (countP_or_le _ _)
      refine countP_congr fun c _ => ?_
      simp only [any_cons, and_or_distrib_left]
    cases hp : p row with
    | false =>
      have hzero : chs.countP (fun c => decide (c.guess ≠ .right) &&
          (decide (row.id = c.row) && p row)) = 0 := by
        simp [hp]
      rw [filter_cons_of_neg (by simp [hp])]
      omega
    | true =>
      have hopen : chs.countP (fun c => decide (c.guess ≠ .right) &&
          (decide (row.id = c.row) && p row)) ≤ openOn chs row.id := by
        refine countP_mono_left fun c hc h => ?_
        simp only [and_eq_true, decide_eq_true_eq] at h
        have hk : c.refunded = false :=
          eq_false_iff.mpr (fun hrefunded => h.1 (honest c hc hrefunded).1)
        simp [h.2.1, hk]
      rw [filter_cons_of_pos hp, map_cons, sum_cons]
      omega

end Sums

theorem wrongOn_le {s} (hs : Tallied s) (tok : Bytes) :
    wrongOn s tok ≤ failuresOf s.rows (·.token = tok) := by
  have heq : (s.rows.filter (fun row => decide (row.token = tok))).map Row.failures =
      (s.rows.filter (fun row => decide (row.token = tok))).map (openOn s.charges ·.id) :=
    map_congr_left (fun row hrow => hs.counted row (mem_of_mem_filter hrow))
  rw [failuresOf, heq]
  exact countP_any_le hs.honest

section Sequential

variable {i : Action} {s s' : State} {a a' b : Phase}

/-- A call carries what it has read of the token's failures to its charge. -/
theorem within_turn (ha : Within s a) (h : Turn i s a s' a') : Within s' a' := by
  cases h with
  | start | refund => trivial
  | read hreads =>
    cases hreads with
    | clear q hclear =>
      simp only [cooledDown, or_eq_false_iff, decide_eq_false_iff_not] at hclear
      exact Nat.lt_of_not_le hclear.2
    | listed q => exact ha
    | finds q => exact ⟨ha, rfl⟩
    | sums q => exact ha
    | cooled | unlisted | right | wrong => trivial
  | sweep q found =>
    obtain ⟨hsum, rfl⟩ := ha
    exact Nat.lt_of_le_of_lt (failuresOf_sweep q) hsum
  | charge q os =>
    obtain h' | ⟨taken, -, h'⟩ := charged_cases s q os
    · rw [h']
      trivial
    · rw [h']
      unfold afterClaim
      split <;> trivial

theorem within_of_resting (h : b.resting = true) : Within s b := by
  cases b with
  | idle | answered => trivial
  | _ => cases h

theorem unswept_of_resting (h : b.resting = true) : Unswept i s a b := by
  cases b with
  | idle | answered => exact fun _ hid => by cases hid
  | _ => cases h

variable {π : Type} [DecidableEq π] {w w' : World π State Phase} {labels : List (π × Action)}

theorem unswept_run (h : Run (machine.StepUnder Alone) w labels w') :
    Run (machine.StepUnder Unswept) w labels w' :=
  h.mono (fun _ _ _ hs => ⟨hs.1, fun q hq => unswept_of_resting (hs.2 q hq)⟩)

theorem within_run (hfresh : Fresh w) (hrun : Run (machine.StepUnder Alone) w labels w') :
    ∀ p, Within w'.store (w'.phase p) := by
  have hstart : machine.Holds (fun _ => True) Within (fun _ _ => True) w :=
    .of_idle hfresh.idle rfl trivial trivial trivial
  refine (Machine.Holds.run (fun _ _ _ => trivial) ?_ ?_ hstart hrun).phase
  · exact fun _ ha hact => ⟨trivial, within_turn ha (turn_of_act hact)⟩
  · exact fun hbeside _ => ⟨within_of_resting hbeside.allowed, trivial⟩

end Sequential

/-! ## The budget -/

section Budget

variable {π : Type} [DecidableEq π] {w : World π State Phase}

/-- What the budget comes to: how many wrong codes a row lets through, that a cooldown
closes the way to the verifier, and what a row says when every call has ended. -/
structure Budgeted (w : World π State Phase) : Prop where
  guesses : ∀ id, wrongVerified w.store.charges id ≤ maxFailures
  cooled : ∀ p q serial w', machine.Step w (p, .turn) w' → w'.phase p = .verify q serial →
    pairCooling w.store.rows q = false
  refused : ∀ p q w', machine.Step w (p, .turn) w' → w.phase p = .check q →
    pairCooling w.store.rows q = true → w'.phase p = .answered false
  settled : (∀ p, (w.phase p).resting = true) → ∀ row ∈ w.store.rows,
    row.failures = wrongCharged w.store.charges row.id + rightRefused w.store.charges row.id

theorem Sound.budgeted (h : Sound w) (hpend : Pending w) : Budgeted w where
  guesses := h.store.bounded
  cooled := by
    intro p q serial w' hs hver
    obtain ⟨-, taken, htake⟩ := verify_of_turn (turn_of_step hs) hver
    exact pairCooling_of_take h.store htake
  refused := by
    intro p q w' hs hcheck hcooling
    have hturn := turn_of_step hs
    rw [hcheck] at hturn
    exact answered_of_cooling hturn hcooling
  settled := by
    intro hresting row hrow
    rw [h.store.counted row hrow]
    refine openOn_eq h.store.honest fun c hc hright hpassed => ?_
    by_contra hopen
    obtain ⟨p, hp⟩ := hpend c hc hright hpassed (eq_false_iff.mpr hopen)
    have hr := hresting p
    cases hphase : w.phase p with
    | verify | refund =>
      rw [hphase] at hr
      cases hr
    | _ =>
      rw [hphase] at hp
      cases hp

/-- While no sweep takes a row that a call in flight was charged to, the budget holds; and
when calls run one after another, none reaches the verifier once the wrong codes on the
token's rows have used up the token's budget. -/
theorem guess_budget (hfresh : Fresh w) :
    (∀ labels w', Run (machine.StepUnder Unswept) w labels w' → Budgeted w') ∧
      ∀ labels w', Run (machine.StepUnder Alone) w labels w' →
        ∀ p q serial w'', machine.StepUnder Alone w' (p, .turn) w'' →
          w''.phase p = .verify q serial → wrongOn w'.store q.token < maxTokenFailures := by
  refine ⟨fun labels w' hrun => ?_, fun labels w' hrun p q serial w'' hs hver => ?_⟩
  · obtain ⟨hsound, hpending⟩ := sound_run hfresh.sound hfresh.pending hrun
    exact hsound.budgeted hpending
  · have hsound := (sound_run hfresh.sound hfresh.pending (unswept_run hrun)).1
    have hin := within_run hfresh hrun p
    obtain ⟨⟨others, hphase⟩, -⟩ := verify_of_turn (turn_of_step hs.1) hver
    rw [hphase] at hin
    exact Nat.lt_of_le_of_lt (wrongOn_le hsound.store q.token) hin

end Budget

section Sample

def sampleStart : World (Fin 26) State Phase := ⟨⟨[], 0, 0, []⟩, fun _ => .idle⟩

theorem fresh_sampleStart : Fresh sampleStart :=
  ⟨fun _ => rfl, rfl, rfl⟩

/-- A wrong code from one of five sources, from start to end. -/
def wrongCode (p : Fin 26) : List (Fin 26 × Action) :=
  (p, .reserve ⟨id16 1, id32 (Fin.ofNat 256 (p.val / 5)), .wrong, true, 0⟩) ::
    List.replicate 7 (p, .turn)

/-- Twenty-four wrong codes use up all but one of the token's failures. -/
def wrongCodes : List (Fin 26 × Action) :=
  ((List.finRange 26).filter (fun p => p.val < 24)).flatMap wrongCode

/-- The right code and another wrong one, from two more sources: both are past
`cooled_down` when the wrong one takes the last slot. -/
def rightCodeLate : List (Fin 26 × Action) :=
  [(24, .reserve ⟨id16 1, id32 10, .right, true, 0⟩), (24, .turn),
    (25, .reserve ⟨id16 1, id32 11, .wrong, true, 0⟩)] ++ List.replicate 7 (25, .turn) ++
  List.replicate 5 (24, .turn)

theorem exec_rightCodeLate :
    (machine.exec Unswept sampleStart (wrongCodes ++ rightCodeLate)).map (fun w =>
        (decide (∀ p, (w.phase p).resting = true),
          (lookup Row.key w.store.rows (id16 1, id32 10)).map (fun row =>
            (row.failures, wrongCharged w.store.charges row.id)))) =
      some (true, some (1, 0)) := by
  decide +kernel

/-- The right code was charged and refused, and its row says one failure when no wrong
code was charged to it. -/
theorem refused_right_code_keeps_its_charge :
    ∃ w', Run (machine.StepUnder Unswept) sampleStart (wrongCodes ++ rightCodeLate) w' ∧
      (∀ p, (w'.phase p).resting = true) ∧
      ∃ row ∈ w'.store.rows, row.failures = 1 ∧ wrongCharged w'.store.charges row.id = 0 := by
  obtain ⟨w', hexec, hw'⟩ := Option.map_eq_some_iff.mp exec_rightCodeLate
  obtain ⟨hresting, hrow⟩ := Prod.mk.inj hw'
  obtain ⟨row, hf, hcounts⟩ := Option.map_eq_some_iff.mp hrow
  obtain ⟨hfailures, hwrong⟩ := Prod.mk.inj hcounts
  exact ⟨w', Machine.exec_run hexec, of_decide_eq_true hresting, row,
    mem_of_lookup hf, hfailures, hwrong⟩

/-- One wrong code, up to its charge. -/
def firstCode : List (Fin 26 × Action) :=
  (0, .reserve ⟨id16 1, id32 10, .wrong, true, 0⟩) :: List.replicate 5 (0, .turn)

theorem exec_firstCode : ((machine.exec Alone sampleStart firstCode).bind fun w =>
        (machine.exec Alone w [(0, .turn)]).map fun w' => w'.phase 0) =
      some (.verify ⟨id16 1, id32 10, .wrong, true, 0⟩ 0) := by
  decide +kernel

/-- The budget holds after a wrong code, which reached the verifier. -/
theorem firstCode_budgeted :
    ∃ w' w'', Run (machine.StepUnder Alone) sampleStart firstCode w' ∧ Budgeted w' ∧
      w''.phase 0 = .verify ⟨id16 1, id32 10, .wrong, true, 0⟩ 0 ∧
      machine.StepUnder Alone w' (0, .turn) w'' ∧ wrongOn w'.store (id16 1) < maxTokenFailures := by
  obtain ⟨w', hexec, hlast⟩ := Option.bind_eq_some_iff.mp exec_firstCode
  obtain ⟨w'', hexec', hver⟩ := Option.map_eq_some_iff.mp hlast
  have hrun := Machine.exec_run hexec
  have hs := (Machine.exec_run hexec').single
  obtain ⟨hbudget, htok⟩ := guess_budget fresh_sampleStart
  exact ⟨w', w'', hrun, hbudget _ _ (unswept_run hrun), hver, hs,
    htok _ _ hrun 0 _ _ _ hs hver⟩

end Sample

end WealdRelay.Invite.Attempts
