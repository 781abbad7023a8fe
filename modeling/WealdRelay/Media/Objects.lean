import WealdRelay.Media.Effects

/-!
# The row of one object

At most one reservation is kept for an object: a new one is only inserted when none is in
flight and the final ones have been retired. So what the store knows of an object is a
single row or none, `Ledger.rowOf`, and each call changes it in one way; the lemmas give
the row after a call as a function of the row before it.
-/

namespace WealdRelay.Media

open Lib Table Function Reservation Ledger

namespace Ledger

/-- The row of an object. -/
def rowOf (ledger : Ledger) (group hash : Bytes) : Option Reservation :=
  lookup Reservation.slot ledger.rows (group, hash)

/-- No object has two rows. -/
def Single (ledger : Ledger) : Prop := (ledger.rows.map Reservation.slot).Nodup

variable {l : Ledger} {row old : Reservation} {g hash : Bytes}

theorem mem_of_rowOf (h : l.rowOf g hash = some row) : row ∈ l.rows :=
  mem_of_lookup h

theorem slot_of_rowOf (h : l.rowOf g hash = some row) : row.slot = (g, hash) :=
  key_of_lookup h

theorem rowOf_of_mem (hsingle : l.Single) (hrow : row ∈ l.rows) :
    l.rowOf row.group row.hash = some row :=
  lookup_of_mem hsingle hrow rfl

theorem isFor_iff : row.isFor g hash = true ↔ row.slot = (g, hash) := by
  simp [isFor]

theorem rowOf_of_inFlight (hsingle : l.Single) (hrow : row ∈ l.rows)
    (hin : row.inFlight g hash = true) :
    l.rowOf g hash = some row ∧ row.slot = (g, hash) ∧ row.finalized = false := by
  simp only [inFlight, Bool.and_eq_true, Bool.not_eq_true'] at hin
  have hslot := isFor_iff.mp hin.1
  exact ⟨lookup_of_mem hsingle hrow hslot, hslot, hin.2⟩

theorem rowOf_eq_none : l.rowOf g hash = none ↔ l.rows.filter (·.isFor g hash) = [] := by
  rw [rowOf, lookup, List.find?_eq_none, List.filter_eq_nil_iff]
  simp [isFor]

/-- No row of the object is in flight: it has none, or a final one. -/
theorem finalized_of_rowOf (hnone : l.rows.filter (·.inFlight g hash) = [])
    (h : l.rowOf g hash = some row) : row.finalized = true := by
  have hrow := List.filter_eq_nil_iff.mp hnone row (mem_of_rowOf h)
  simpa [inFlight, isFor, slot_of_rowOf h] using hrow

theorem rowOf_filter (hsingle : l.Single) (q : Option Quota) (p : Reservation → Bool) :
    rowOf ⟨q, l.rows.filter p⟩ g hash = (l.rowOf g hash).filter p :=
  lookup_filter hsingle p (g, hash)

theorem single_filter (hsingle : l.Single) (q : Option Quota) (p : Reservation → Bool) :
    Single ⟨q, l.rows.filter p⟩ :=
  hsingle.sublist (List.filter_sublist.map _)

section Put

variable (row) (hids : (l.rows.map (·.reservationId)).Nodup) (hsingle : l.Single)
  (hold : old ∈ l.rows) (hid : old.reservationId = row.reservationId) (hslot : old.slot = row.slot)
include hids hsingle hold hid hslot

/-- Writing a row under its id writes the row of its object. -/
theorem put_eq : put reservationId l.rows row = put slot l.rows row := by
  refine List.map_congr_left fun x ho => ?_
  have heq : x.reservationId = row.reservationId ↔ x.slot = row.slot := by
    rw [← hid, ← hslot]
    constructor
    · intro h
      rw [List.inj_on_of_nodup_map hids ho hold h]
    · intro h
      rw [List.inj_on_of_nodup_map hsingle ho hold h]
  by_cases h : x.slot = row.slot
  · rw [if_pos h, if_pos (heq.mpr h)]
  · rw [if_neg h, if_neg (fun ho => h (heq.mp ho))]

theorem rowOf_put (q : Option Quota) : rowOf ⟨q, put reservationId l.rows row⟩ g hash =
    if row.slot = (g, hash) then some row else l.rowOf g hash := by
  rw [rowOf, put_eq row hids hsingle hold hid hslot, lookup_put]
  by_cases h : row.slot = (g, hash)
  · have hf : lookup slot l.rows (g, hash) = some old :=
      lookup_of_mem hsingle hold (hslot.trans h)
    simp [hf, h]
  · have hne : (g, hash) ≠ row.slot := fun heq => h heq.symm
    simp [hne, h, rowOf]

theorem single_put (q : Option Quota) : Single ⟨q, put reservationId l.rows row⟩ := by
  rw [Single, put_eq row hids hsingle hold hid hslot, map_key_put]
  exact hsingle

end Put

theorem rowOf_append (l : Ledger) (row : Reservation) (q : Option Quota)
    (hfree : l.rowOf row.group row.hash = none) :
    rowOf ⟨q, l.rows ++ [row]⟩ g hash =
      if row.slot = (g, hash) then some row else l.rowOf g hash := by
  by_cases h : row.slot = (g, hash)
  · obtain ⟨rfl, rfl⟩ := Prod.mk.inj h
    rw [if_pos h]
    exact lookup_snoc_self hfree rfl
  · rw [if_neg h]
    exact lookup_snoc_of_ne h

theorem single_append (hsingle : l.Single) (q : Option Quota)
    (hfree : l.rowOf row.group row.hash = none) : Single ⟨q, l.rows ++ [row]⟩ := by
  exact Table.nodup_map_snoc hsingle fun x ho => ne_of_lookup_eq_none hfree ho

end Ledger

/-- Balanced books, and no object with two rows. -/
structure Tidy (tables : Tables) : Prop where
  conserved : Conserved tables
  single : ∀ workspace, (tables workspace).Single

/-- The row once a manifest has named its object, for the first time or again. -/
def Reservation.claimed (now : Int) (row : Reservation) : Reservation :=
  if row.finalized then row else row.claimedAt now

section Calls

variable {ts t : Tables} {ws x g hash group' hash' : Bytes} {now : Int}
  {l : Ledger} (row : Reservation) {id : Nat}

/-- Two workspaces, one of which was written to. -/
theorem single_update (h : ∀ ws, (ts ws).Single) (hledger : l.Single)
    (x : Bytes) : (update ts ws l x).Single := by
  by_cases ho : x = ws
  · subst ho
    simpa using hledger
  · rw [update_of_ne ho]
    exact h x

/-- The row of one object is this one and the others are as before. -/
def Rewrites (before after : Tables) (workspace group hash : Bytes) (row : Option Reservation) :
    Prop :=
  ∀ inside group' hash', (after inside).rowOf group' hash' =
    if (workspace, group, hash) = (inside, group', hash') then row
    else (before inside).rowOf group' hash'

/-- One workspace was written to, and only the row of one object changed. -/
theorem rowOf_update_at {row} (h : ∀ group' hash', l.rowOf group' hash' =
      if (g, hash) = (group', hash') then row else (ts ws).rowOf group' hash') :
    Rewrites ts (update ts ws l) ws g hash row := by
  intro w group' hash'
  by_cases hinside : w = ws
  · subst hinside
    simp only [update_self, h, Prod.mk.injEq, true_and]
  · have hne : ws ≠ w := fun heq => hinside heq.symm
    simp [update_of_ne hinside, hne]

theorem claimIn_rowOf {out} (ht : Tidy ts)
    (h : (claimIn ws g hash now).alone Write.apply ts = .ok (out, t)) :
    Tidy t ∧
    (out ≠ .noReservation → ∃ row, (ts ws).rowOf g hash = some row) ∧
    Rewrites ts t ws g hash (((ts ws).rowOf g hash).map (·.claimed now)) := by
  have hbal := ht.conserved ws
  have hsingle := ht.single ws
  have hcons := alone_conserved (claimIn_clean · now) ht.conserved h
  rcases claimIn_ok hbal h with ⟨row, q, hrow, hin, -, -, rfl⟩ | ⟨hnone, rfl, houtcome⟩
  · obtain ⟨hf, hslot, hopen⟩ := rowOf_of_inFlight hsingle hrow hin
    refine ⟨⟨hcons, fun x => single_update ht.single ?_ x⟩,
      fun _ => ⟨row, hf⟩, rowOf_update_at (fun group' hash' => ?_)⟩
    · exact single_put (row.claimedAt now) hbal.ids hsingle hrow rfl rfl _
    · have hslot' : (row.claimedAt now).slot = (g, hash) := hslot
      rw [rowOf_put (row.claimedAt now) hbal.ids hsingle hrow rfl rfl, hslot']
      simp [hf, Reservation.claimed, hopen]
  · refine ⟨⟨hcons, ht.single⟩, fun hf => ?_, fun w group' hash' => ?_⟩
    · cases hrow : (t ws).rowOf g hash with
      | none =>
        rw [rowOf_eq_none] at hrow
        simp [houtcome, hrow] at hf
      | some row => exact ⟨row, rfl⟩
    · split
      next heq =>
        obtain ⟨rfl, rfl, rfl⟩ : ws = w ∧ g = group' ∧ hash = hash' := by
          simpa using heq
        cases hrow : (t ws).rowOf g hash with
        | none => rfl
        | some row => simp [Reservation.claimed, finalized_of_rowOf hnone hrow]
      · rfl

theorem Reservation.finalized_claimed (now : Int) : (row.claimed now).finalized = true := by
  rw [claimed]
  split
  next hfinal => exact hfinal
  · rfl

theorem Reservation.claimed_claimed : (row.claimed now).claimed now = row.claimed now := by
  rw [claimed, if_pos (row.finalized_claimed now)]

/-- A manifest makes the row of every object it names final, and all of them have one. -/
theorem claimAll_rowOf {hashes} (ht : Tidy ts)
    (h : (claimAll ws g now hashes).alone Write.apply ts = .ok ((), t)) :
    Tidy t ∧
    (∀ hash ∈ hashes, ∃ row, (ts ws).rowOf g hash = some row) ∧
    ∀ w group' hash', (t w).rowOf group' hash' = if ws = w ∧ g = group' ∧ hash' ∈ hashes
      then ((ts w).rowOf group' hash').map (·.claimed now)
      else (ts w).rowOf group' hash' := by
  induction hashes generalizing ts with
  | nil =>
    simp only [claimAll, Prog.alone, Except.ok.injEq, Prod.mk.injEq] at h
    obtain ⟨-, rfl⟩ := h
    exact ⟨ht, by simp, by simp⟩
  | cons hash hashes ih =>
    simp only [claimAll, Prog.bind_eq] at h
    obtain ⟨out, middle, hclaim, h⟩ := Prog.of_alone_bind h
    obtain ⟨hmiddle, hfirst, hrows⟩ := claimIn_rowOf ht hclaim
    have hr : (claimAll ws g now hashes).alone Write.apply middle =
        .ok ((), t) ∧ out ≠ .noReservation := by
      cases out with
      | noReservation => cases h
      | claimed | alreadyClaimed => exact ⟨h, by simp⟩
    obtain ⟨ha, hothers, hend⟩ := ih hmiddle hr.1
    refine ⟨ha, fun wanted hwanted => ?_, fun w group' hash' => ?_⟩
    · rcases List.mem_cons.mp hwanted with rfl | hwanted
      · exact hfirst hr.2
      · obtain ⟨row, hrow⟩ := hothers wanted hwanted
        rw [hrows] at hrow
        split at hrow
        next heq =>
          obtain ⟨-, rfl⟩ := Prod.mk.inj (Prod.mk.inj heq).2
          exact hfirst hr.2
        · exact ⟨row, hrow⟩
    · rw [hend, hrows]
      by_cases hhere : ws = w ∧ g = group'
      · obtain ⟨rfl, rfl⟩ := hhere
        by_cases hh : hash = hash'
        · subst hh
          by_cases hagain : hash ∈ hashes
          · cases (ts ws).rowOf g hash with
            | none => simp [hagain]
            | some row => simp [hagain, claimed_claimed]
          · simp [hagain]
        · have hne : hash' ≠ hash := fun heq => hh heq.symm
          simp [hh, hne]
      · have ho : (ws, g, hash) ≠ (w, group', hash') := fun heq =>
          hhere ⟨(Prod.mk.inj heq).1, (Prod.mk.inj (Prod.mk.inj heq).2).1⟩
        rw [if_neg ho, if_neg (fun h => hhere ⟨h.1, h.2.1⟩), if_neg (fun h => hhere ⟨h.1, h.2.1⟩)]

/-- The row of an object after a PUT that found it absent: a row in flight has its window
renewed, and otherwise a new row takes the place of the final one or of none. -/
def Reservation.requested (group hash : Bytes) (bytes ttlSeconds : Int) (id : Nat) (now : Int) :
    Option Reservation → Reservation
  | some row =>
    if row.finalized then newReservation group hash bytes ttlSeconds id now
    else refreshed ttlSeconds now row
  | none => newReservation group hash bytes ttlSeconds id now

/-- A row in flight is renewed, and a new one is made where there is none. -/
theorem Reservation.requested_cases (g hash : Bytes) (bytes ttl : Int) (id : Nat)
    (now : Int) (row : Option Reservation) :
    (∃ old, row = some old ∧ old.finalized = false ∧
      requested g hash bytes ttl id now row = refreshed ttl now old) ∨
    ((∀ old, row = some old → old.finalized = true) ∧ requested g hash bytes ttl id now row =
        newReservation g hash bytes ttl id now) := by
  cases row with
  | none => exact .inr ⟨by simp, rfl⟩
  | some old =>
    cases hfinal : old.finalized with
    | false => exact .inl ⟨old, rfl, hfinal, by simp [requested, hfinal]⟩
    | true =>
      refine .inr ⟨fun x ho => ?_, by simp [requested, hfinal]⟩
      exact Option.some.inj ho ▸ hfinal

/-- `reserve` on an object that is not in the store. -/
theorem reserve_rowOf {ans bytes ttl} (ht : Tidy ts)
    (h : (reserve ws g hash bytes false ttl id now).alone Write.apply ts = .ok (ans, t)) :
    Tidy t ∧
    (ans = .active (Reservation.requested g hash bytes ttl id now
      ((ts ws).rowOf g hash)).reservationId) ∧
    Rewrites ts t ws g hash (some (Reservation.requested g hash bytes ttl id now
        ((ts ws).rowOf g hash))) := by
  have hbal := ht.conserved ws
  have hsingle := ht.single ws
  have hcons := alone_conserved (reserve_clean · bytes false ttl id now) ht.conserved h
  rcases reserve_ok hbal h with ⟨row, hrow, hin, hans, rfl⟩ |
    ⟨hnone, hans, q, stored, -, -, -, -, rfl⟩
  · obtain ⟨hf, hslot, hopen⟩ := rowOf_of_inFlight hsingle hrow hin
    have hrequested : .requested g hash bytes ttl id now
        ((ts ws).rowOf g hash) = refreshed ttl now row := by
      simp [hf, Reservation.requested, hopen]
    have hslot' : (refreshed ttl now row).slot = (g, hash) := hslot
    refine ⟨⟨hcons, fun x => single_update ht.single ?_ x⟩, ?_,
      rowOf_update_at (fun group' hash' => ?_)⟩
    · exact single_put (refreshed ttl now row) hbal.ids hsingle hrow rfl rfl _
    · rw [hans, hrequested]
      rfl
    · rw [rowOf_put (refreshed ttl now row) hbal.ids hsingle hrow rfl rfl, hslot', hrequested]
  · have hrequested : .requested g hash bytes ttl id now
        ((ts ws).rowOf g hash) = newReservation g hash bytes ttl id now := by
      cases hrow : (ts ws).rowOf g hash with
      | none => rfl
      | some row => simp [Reservation.requested, finalized_of_rowOf hnone hrow]
    -- The final row of the object is gone before the new one comes.
    have hk : ∀ group' hash', rowOf ⟨(ts ws).quota,
        (ts ws).rows.filter (!·.settled g hash)⟩ group' hash' =
          if (g, hash) = (group', hash') then none
          else (ts ws).rowOf group' hash' := by
      intro group' hash'
      rw [rowOf_filter hsingle]
      cases hrow : (ts ws).rowOf group' hash' with
      | none => simp
      | some row =>
        have hslot := slot_of_rowOf hrow
        split
        next hsame =>
          obtain ⟨rfl, rfl⟩ := Prod.mk.inj hsame
          have hfinal := finalized_of_rowOf hnone hrow
          simp [Option.filter, settled, isFor, hslot, hfinal]
        next ho =>
          have hne : (group', hash') ≠ (g, hash) := fun heq => ho heq.symm
          simp [Option.filter, settled, isFor, hslot, hne]
    have hfree : rowOf ⟨(ts ws).quota, (ts ws).rows.filter (!·.settled g hash)⟩ g hash = none := by
      rw [hk, if_pos rfl]
    refine ⟨⟨hcons, fun x => single_update ht.single ?_ x⟩, ?_,
      rowOf_update_at (fun group' hash' => ?_)⟩
    · exact single_append (single_filter hsingle (ts ws).quota _) _ hfree
    · rw [hans, hrequested]
      rfl
    · have hslot : (newReservation g hash bytes ttl id now).slot = (g, hash) := rfl
      rw [rowOf_append ⟨(ts ws).quota, _⟩ _ _ hfree, hk, hslot, hrequested]
      split <;> rfl

theorem ensureQuotaRow_rowOf (ws : Bytes) (lim : Option Int) (ht : Tidy ts) :
    Tidy ((Call.ensureQuotaRow ws lim).perform ts) ∧
    ∀ w group' hash', ((Call.ensureQuotaRow ws lim).perform ts w).rowOf group' hash' =
        (ts w).rowOf group' hash' := by
  have hrows : ∀ w, ((Call.ensureQuotaRow ws lim).perform ts w).rows = (ts w).rows := by
    intro w
    rw [Call.perform]
    cases hrun : (Call.ensureQuotaRow ws lim).program.alone Write.apply ts with
    | error reason => rfl
    | ok out =>
      obtain ⟨⟨⟩, t⟩ := out
      rw [ensureQuotaRow_ok hrun]
      by_cases hinside : w = ws
      · subst hinside
        simp
      · simp [update_of_ne hinside]
  refine ⟨⟨Call.perform_conserved _ ht.conserved, fun w => ?_⟩, fun w _ _ => ?_⟩
  · rw [Ledger.Single, hrows]
    exact ht.single w
  · rw [rowOf, hrows]
    rfl

/-- What is left of each object when the rows of a clause are gone. -/
theorem deleted_rowOf {p : Reservation → Bool} (ht : Tidy ts) (hcons : Conserved t)
    (h : (∃ q, t = update ts ws ⟨q, (ts ws).rows.filter (!p ·)⟩) ∨
      ((ts ws).rows.filter p = [] ∧ t = ts)) :
    Tidy t ∧ ∀ w group' hash', (t w).rowOf group' hash' =
      ((ts w).rowOf group' hash').filter (fun row => !(w = ws && p row)) := by
  have hsingle := ht.single ws
  rcases h with ⟨q, rfl⟩ | ⟨hnone, rfl⟩
  · refine ⟨⟨hcons, fun x => single_update ht.single ?_ x⟩, fun w group' hash' => ?_⟩
    · exact single_filter hsingle _ _
    · by_cases hinside : w = ws
      · subst hinside
        simp [rowOf_filter hsingle]
      · rw [update_of_ne hinside]
        cases (ts w).rowOf group' hash' with
        | none => rfl
        | some row => simp [Option.filter, hinside]
  · refine ⟨⟨hcons, ht.single⟩, fun w group' hash' => ?_⟩
    cases hrow : (t w).rowOf group' hash' with
    | none => rfl
    | some row =>
      have hk : (w = ws && p row) = false := by
        by_cases hinside : w = ws
        · subst hinside
          simpa using List.filter_eq_nil_iff.mp hnone row (mem_of_rowOf hrow)
        · simp [hinside]
      simp only [Option.filter, hk, Bool.not_false, if_true]

theorem releaseIn_rowOf {ans} (ht : Tidy ts)
    (h : (releaseIn ws id).alone Write.apply ts = .ok (ans, t)) :
    Tidy t ∧ ∀ w group' hash', (t w).rowOf group' hash' = ((ts w).rowOf group' hash').filter
        (fun row => !(w = ws && (row.reservationId = id && !row.finalized))) := by
  refine deleted_rowOf ht (alone_conserved (releaseIn_clean · id) ht.conserved h) ?_
  rcases releaseIn_ok (ht.conserved ws) h with
    ⟨row, q, -, -, -, -, -, hupdate⟩ | ⟨hnone, heq, -⟩
  · exact .inl ⟨_, hupdate⟩
  · exact .inr ⟨hnone, heq⟩

theorem finishDeletion_rowOf (ht : Tidy ts)
    (h : (finishDeletion ws id).alone Write.apply ts = .ok ((), t)) :
    Tidy t ∧ ∀ w group' hash', (t w).rowOf group' hash' = ((ts w).rowOf group' hash').filter
        (fun row => !(w = ws && (row.reservationId = id && row.finalized))) := by
  refine deleted_rowOf ht (alone_conserved (finishDeletion_clean · id) ht.conserved h) ?_
  rcases finishDeletion_ok (ht.conserved ws) h with
    ⟨row, q, -, -, -, -, hupdate⟩ | ⟨hnone, heq⟩
  · exact .inl ⟨_, hupdate⟩
  · exact .inr ⟨hnone, heq⟩

end Calls
end WealdRelay.Media
