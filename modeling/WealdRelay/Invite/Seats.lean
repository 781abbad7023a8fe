import WealdRelay.Invite.Joins

/-!
# Seats are conserved

What the invite tables keep along every run (`Sane`) and what a call relies on between
two of its statements (`Relies`). A commit touches the rows it has locked or needs and
nothing else: `LeavesAlone` says which lookups stay as they were, each commit proves it once,
and that a commit disturbs no other process follows from it for all of them together.

The seats: while an invite is live, what remains of it and what its reservations hold
add up to what it was issued with.
-/

namespace WealdRelay.Invite

open Lib Access List Table

/-- Seats taken and not given back. -/
def held (reservations : List ReservationRow) (token : Bytes) : Nat :=
  reservations.countP (fun row => decide (row.token = token) && !row.released)

/-- Seats that were spent. -/
def spentSeats (reservations : List ReservationRow) (token : Bytes) : Nat :=
  reservations.countP (fun row => decide (row.token = token) && row.consumed)

/-- An invite that was ended and cannot be used again. -/
structure Closed (t : Tables) (token : Bytes) : Prop where
  state : ∀ invite, inviteOf t.invites token = some invite → invite.state ≠ .live
  seats : ∀ row ∈ t.reservations, row.token = token → outstanding row = false
  grants : ∀ row ∈ t.reservations, row.token = token → ∀ grant ∈ t.grants,
    grant.deviceHash = row.deviceHash → grant.voided ≠ none

/-- What the tables keep. -/
structure Sane (t : Tables) : Prop where
  keys : (t.reservations.map reservationKey).Nodup
  granted : ∀ row ∈ t.reservations, ∃ grant ∈ t.grants, grant.deviceHash = row.deviceHash
  apart : ∀ row ∈ t.reservations, ¬ (row.consumed = true ∧ row.released = true)
  seats : ∀ token invite, inviteOf t.invites token = some invite → invite.state = .live →
    invite.remaining + held t.reservations token = invite.uses
  closed : ∀ token, tombstoned t.tombstones token = true → Closed t token

/-- A live invite with a seat left. -/
def OnSale (t : Tables) (token : Bytes) : Prop :=
  ∃ invite, inviteOf t.invites token = some invite ∧ invite.state = .live ∧ 0 < invite.remaining

/-- A reservation that is neither spent nor given back. -/
def HoldsSeat (t : Tables) (token nonce : Bytes) : Prop :=
  ∃ row, reservationOf t.reservations token nonce = some row ∧ outstanding row = true

/-- The devices that hold or held a seat of this invite are among these. -/
def Covers (t : Tables) (token : Bytes) (hashes : List Bytes) : Prop :=
  ∀ row ∈ t.reservations, row.token = token → row.deviceHash ∈ hashes

/-- These are exactly the outstanding reservations of the invite. -/
structure ClosesAll (t : Tables) (token : Bytes) (closed : List (Bytes × Bytes)) : Prop where
  all : ∀ row ∈ t.reservations, row.token = token → outstanding row = true →
    reservationKey row ∈ closed
  only : ∀ key ∈ closed, key.1 = token
  still : ∀ row ∈ t.reservations, reservationKey row ∈ closed → outstanding row = true

/-- What a process relies on until its next statement. -/
def Relies (t : Tables) : Phase → Prop
  | .grantSeat q _ | .commitSeat q _ =>
    OnSale t q.token ∧ reservationOf t.reservations q.token q.nonce = none
  | .extendGrant token nonce _ _ | .commitExtend token nonce _ _ _ => HoldsSeat t token nonce
  | .promote k | .survey k | .surveyed k _ | .decided k _ => HoldsSeat t k.token k.nonce
  | .closeSeats e => Covers t e.token e.hashes
  | .voidGrants e closed _ _ => Covers t e.token e.hashes ∧ ClosesAll t e.token closed
  | _ => True

/-! ## What a commit leaves alone -/

/-- A reservation was there before, for the same device, and if it is outstanding it was. -/
def CameFrom (reservations : List ReservationRow) (row' : ReservationRow) : Prop :=
  ∃ row ∈ reservations, reservationKey row = reservationKey row' ∧
    row.deviceHash = row'.deviceHash ∧ (outstanding row' = true → outstanding row = true)

/-- The lookups that a commit which touches these rows leaves as they were. -/
structure LeavesAlone (touched : List Row) (t t' : Tables) : Prop where
  invite : ∀ token, .invite token ∉ touched → inviteOf t'.invites token = inviteOf t.invites token
  reservation : ∀ token nonce row, .reservation token nonce ∉ touched →
    reservationOf t.reservations token nonce = some row →
    reservationOf t'.reservations token nonce = some row
  rows : ∀ token, .invite token ∉ touched → ∀ row' ∈ t'.reservations, row'.token = token →
    CameFrom t.reservations row'

section LeftAlone

variable {t t' : Tables} {ts : List Row} {a b : Phase}

theorem LeavesAlone.none (h : LeavesAlone ts t t') {tok nonce}
    (htouched : .invite tok ∉ ts) (hnone : reservationOf t.reservations tok nonce = none) :
    reservationOf t'.reservations tok nonce = none := by
  cases hf : reservationOf t'.reservations tok nonce with
  | none => rfl
  | some row' =>
    have hkey := key_of_lookup hf
    obtain ⟨row, hrow, heq, -⟩ := h.rows tok htouched row' (mem_of_lookup hf)
      (congrArg Prod.fst hkey)
    exact absurd (heq.trans hkey) (ne_of_lookup_eq_none hnone hrow)

/-- Another process relies on nothing that a commit changes, because what it relies on
is about rows it holds. -/
theorem relies_of_frame (h : LeavesAlone ts t t') (hs : Sane t) (hs' : Sane t')
    (hb : Relies t b) (hfree : ∀ row ∈ ts, row ∉ b.locks) : Relies t' b := by
  have hinv : ∀ {tok}, .invite tok ∈ b.locks → .invite tok ∉ ts :=
    fun hlock htouched => hfree _ htouched hlock
  have hseat : ∀ {tok nonce}, .reservation tok nonce ∈ b.locks →
      HoldsSeat t tok nonce → HoldsSeat t' tok nonce := by
    rintro tok nonce hlock ⟨row, hrow, hout⟩
    exact ⟨row, h.reservation _ _ row (hfree _ · hlock) hrow, hout⟩
  have hsale : ∀ {tok nonce}, .invite tok ∈ b.locks →
      OnSale t tok ∧ reservationOf t.reservations tok nonce = none →
      OnSale t' tok ∧ reservationOf t'.reservations tok nonce = none := by
    rintro tok nonce hlock ⟨⟨inv, hf, hr⟩, hnone⟩
    exact ⟨⟨inv, (h.invite _ (hinv hlock)).trans hf, hr⟩, h.none (hinv hlock) hnone⟩
  have hcovers : ∀ {tok hashes}, .invite tok ∈ b.locks → Covers t tok hashes →
      Covers t' tok hashes := by
    intro tok hashes hlock hcovers row' hrow' htok
    obtain ⟨row, hrow, hkey, hh, -⟩ := h.rows _ (hinv hlock) row' hrow' htok
    exact hh ▸ hcovers row hrow ((congrArg Prod.fst hkey).trans htok)
  cases b with
  | grantSeat | commitSeat => exact hsale (by simp) hb
  | extendGrant | commitExtend | promote | survey | surveyed | decided => exact hseat (by simp) hb
  | closeSeats e => exact hcovers (by simp) hb
  | voidGrants e closed voided rest =>
    have hlock : Row.invite e.token ∈ (Phase.voidGrants e closed voided rest).locks := by
      simp
    refine ⟨hcovers hlock hb.1, ?_, hb.2.only, ?_⟩
    · intro row' hrow' htok hout
      obtain ⟨row, hrow, hkey, -, hold⟩ := h.rows _ (hinv hlock) row' hrow' htok
      exact hkey ▸ hb.2.all row hrow ((congrArg Prod.fst hkey).trans htok) (hold hout)
    · intro row' hrow' hclosed
      have htok := hb.2.only _ hclosed
      obtain ⟨row, hrow, hkey, -⟩ := h.rows _ (hinv hlock) row' hrow' htok
      have hlocked : Row.reservation row.token row.joinNonce ∈
          (Phase.voidGrants e closed voided rest).locks :=
        mem_cons_of_mem _
          (mem_append_left _ (mem_map.mpr ⟨reservationKey row, hkey ▸ hclosed, rfl⟩))
      have hk := h.reservation row.token row.joinNonce row (hfree _ · hlocked)
        (lookup_of_mem hs.keys hrow rfl)
      have heq : row' = row := by
        have hf := lookup_of_mem hs'.keys hrow' hkey.symm
        exact Option.some.inj (hf.symm.trans hk)
      exact heq ▸ hb.2.still row hrow (hkey ▸ hclosed)
  | idle | fetch | checkGrant | checkSeat | takeSeat | extend | extending | judge | checkScope
  | record | count | mark | recheck | release | releasing | lockInvite | readHashes
  | answered => trivial

end LeftAlone

/-! ## Grants -/

/-- What every statement on the grants keeps: the devices, and their voids. -/
structure Keeps (grants grants' : List GrantRow) : Prop where
  present : ∀ grant ∈ grants, ∃ grant' ∈ grants', grant'.deviceHash = grant.deviceHash
  void : ∀ grant' ∈ grants', grant'.voided = none →
    (∃ grant ∈ grants, grant.deviceHash = grant'.deviceHash ∧ grant.voided = none) ∨
      ∀ grant ∈ grants, grant.deviceHash ≠ grant'.deviceHash

section Grants

variable {grants grants' : List GrantRow} {hash : Bytes} {exp : Nat}

theorem Keeps.map {f : GrantRow → GrantRow} (hh : ∀ g, (f g).deviceHash = g.deviceHash)
    (hvoid : ∀ g, (f g).voided = none → g.voided = none) : Keeps grants (grants.map f) where
  present := fun g hg => ⟨f g, mem_map_of_mem hg, hh g⟩
  void := by
    intro g' hg' hnone
    obtain ⟨g, hg, rfl⟩ := mem_map.mp hg'
    exact .inl ⟨g, hg, (hh g).symm, hvoid g hnone⟩

theorem Keeps.refl (grants : List GrantRow) : Keeps grants grants where
  present := fun g hg => ⟨g, hg, rfl⟩
  void := fun g hg hnone => .inl ⟨g, hg, rfl, hnone⟩

theorem keeps_grantRows : Keeps grants (grantRows grants hash exp) := by
  unfold grantRows
  split
  · refine .map (fun g => ?_) (fun g => ?_)
    · split <;> rfl
    · split
      next h => exact fun _ => h.2
      · exact id
  next habs =>
    refine ⟨fun g hg => ⟨g, mem_append_left _ hg, rfl⟩, ?_⟩
    intro g' hg' hnone
    rcases mem_snoc.mp hg' with hg' | rfl
    · exact .inl ⟨g', hg', rfl, hnone⟩
    · refine .inr fun g hg heq => habs ?_
      exact any_eq_true.mpr ⟨g, hg, by simpa using heq⟩

theorem keeps_extendGrantRows : Keeps grants (extendGrantRows grants hash exp) := by
  refine .map (fun g => ?_) (fun g => ?_)
  · split <;> rfl
  · split
    next h => exact fun _ => h.2
    · exact id

variable {hashes : List Bytes}

theorem keeps_voidGrantRows : Keeps grants (voidGrantRows grants hashes) := by
  refine .map (fun g => ?_) (fun g => ?_)
  · split <;> rfl
  · split
    · exact fun h => by cases h
    · exact id

theorem mem_grantRows_self : ∃ gr ∈ grantRows grants hash exp, gr.deviceHash = hash := by
  unfold grantRows
  split
  next hany =>
    obtain ⟨g, hg, heq⟩ := any_eq_true.mp hany
    refine ⟨_, mem_map_of_mem hg, ?_⟩
    split <;> simpa using heq
  · exact ⟨_, mem_append_right _ (mem_singleton.mpr rfl), rfl⟩

theorem voided_voidGrantRows {gr} (hgrant : gr ∈ voidGrantRows grants hashes)
    (hh : gr.deviceHash ∈ hashes) : gr.voided ≠ none := by
  obtain ⟨g, -, rfl⟩ := mem_map.mp hgrant
  split at hh
  next h => simp [h]
  next h =>
    rw [if_neg h]
    exact fun hnone => h ⟨hh, hnone⟩

end Grants

/-! ## Counts -/

section Counts

variable {res : List ReservationRow} {tok nonce : Bytes}

theorem held_append (row : ReservationRow) : held (res ++ [row]) tok =
      held res tok + if row.token = tok ∧ row.released = false then 1 else 0 := by
  simp [held, countP_append, countP_singleton]

variable {token' : Bytes}

theorem held_markExtended {exp} : held (markExtended res token' nonce exp) tok = held res tok :=
  countP_modify_of_eq _ (fun _ _ _ => rfl)

theorem held_markConsumed : held (markConsumed res token' nonce) tok = held res tok :=
  countP_modify_of_eq _ (fun _ _ _ => rfl)

theorem held_release (res : List ReservationRow) (tok : Bytes)
    {hit : ReservationRow → Bool} (hhit : ∀ row, hit row = true → row.released = false) :
    held (release res hit) tok + freed res hit tok = held res tok := by
  induction res with
  | nil => rfl
  | cons row rows ih =>
    simp only [held, freed, release, map_cons, countP_cons] at ih ⊢
    cases h : hit row with
    | false =>
      simp only [Bool.false_eq_true, if_false, Bool.false_and]
      omega
    | true =>
      simp only [if_true, hhit row h, Bool.not_true, Bool.not_false, Bool.and_true,
        Bool.and_false, Bool.true_and, Bool.false_eq_true, if_false]
      omega

/-- A release that hits no seat of this invite leaves its count. -/
theorem held_release_of_ne {hit : ReservationRow → Bool}
    (h : ∀ row, hit row = true → row.token ≠ tok) : held (release res hit) tok = held res tok := by
  rw [held, held, release, countP_map]
  refine countP_congr fun row _ => ?_
  cases hhit : hit row with
  | false => simp [hhit]
  | true => simp [hhit, h row hhit]

theorem outstanding_of_hits {now cs row} (h : hits now cs row = true) : outstanding row = true :=
  (Bool.and_eq_true_iff.mp (Bool.and_eq_true_iff.mp h).2).1

/-- Spent seats are held: nothing is both spent and given back. -/
theorem spentSeats_le_held (hapart : ∀ row ∈ res, ¬ (row.consumed = true ∧ row.released = true)) :
    spentSeats res tok ≤ held res tok := by
  refine countP_mono_left fun row hrow hspent => ?_
  obtain ⟨htok, hconsumed⟩ := Bool.and_eq_true_iff.mp hspent
  have hrel : row.released = false :=
    Bool.eq_false_iff.mpr (fun hrel => hapart row hrow ⟨hconsumed, hrel⟩)
  simp [htok, hrel]

end Counts

/-! ## Commits -/

section Commits

variable {c : Crypto} {t t' : Tables} {res : List ReservationRow}
  {hit : ReservationRow → Bool} {tok nonce : Bytes}

theorem reservationOf_release :
    reservationOf (release res hit) tok nonce = (reservationOf res tok nonce).map
        (fun row => if hit row then { row with released := true } else row) := by
  refine lookup_map fun row => ?_
  split <;> rfl

variable {row' : ReservationRow}

theorem mem_release (h : row' ∈ release res hit) :
    ∃ row ∈ res, row' = if hit row then { row with released := true } else row := by
  obtain ⟨row, hrow, rfl⟩ := mem_map.mp h
  exact ⟨row, hrow, rfl⟩

/-- A release leaves keys and devices, and nothing becomes outstanding. -/
theorem rows_release (h : row' ∈ release res hit) : CameFrom res row' := by
  obtain ⟨row, hrow, rfl⟩ := mem_release h
  refine ⟨row, hrow, ?_, ?_, ?_⟩
  · split <;> rfl
  · split <;> rfl
  · split
    · exact fun h => by simp [outstanding] at h
    · exact id

theorem rows_modify {key} {f : ReservationRow → ReservationRow}
    (h : row' ∈ Table.modify reservationKey res key f)
    (hkey : ∀ row, reservationKey (f row) = reservationKey row)
    (hh : ∀ row, (f row).deviceHash = row.deviceHash)
    (hold : ∀ row, outstanding (f row) = true → outstanding row = true) : CameFrom res row' := by
  obtain ⟨row, hrow, rfl⟩ := mem_modify.mp h
  refine ⟨row, hrow, ?_, ?_, ?_⟩
  · split
    · exact (hkey row).symm
    · rfl
  · split
    · exact (hh row).symm
    · rfl
  · split
    · exact hold row
    · exact id

variable {exp : Nat}

theorem rows_markExtended (h : row' ∈ markExtended res tok nonce exp) : CameFrom res row' :=
  rows_modify h (fun _ => rfl) (fun _ => rfl) (fun _ => id)

theorem rows_markConsumed (h : row' ∈ markConsumed res tok nonce) : CameFrom res row' :=
  rows_modify h (fun _ => rfl) (fun _ => rfl) (fun _ h => by simp [outstanding] at h)

/-- No reservation of this token is hit, so none is freed. -/
theorem freed_eq_zero (h : ∀ row ∈ res, hit row = true → row.token ≠ tok) :
    freed res hit tok = 0 := by
  refine countP_eq_zero.mpr fun row hrow hboth => ?_
  obtain ⟨hhit, htok⟩ := Bool.and_eq_true_iff.mp hboth
  exact h row hrow hhit (of_decide_eq_true htok)

theorem inviteOf_returnSeats {invites} :
    inviteOf (returnSeats invites res hit) tok = (inviteOf invites tok).map (fun inv =>
        if freed res hit inv.token = 0 then inv
        else
          { inv with
            remaining := min (inv.remaining + freed res hit inv.token) inv.uses }) := by
  refine lookup_map fun inv => ?_
  split <;> rfl

variable {a : Phase} {e : Ending} {closed : List (Bytes × Bytes)}

/-- Each commit leaves alone what it did not lock. -/
theorem frame_of_commits (h : a.commits c t = some t') :
    LeavesAlone (a.locks ++ needs .turn t a) t t' := by
  cases commit_of_commits h with
  | seat q exp =>
    refine ⟨fun tok hfree => ?_, fun tok nonce row _ hrow => ?_, ?_⟩
    · have hne : tok ≠ q.token := by
        rintro rfl
        simp at hfree
      exact inviteOf_takeSeat_of_ne hne
    · exact (lookup_append _ _ _).trans ((congrArg (Option.or · _) hrow).trans rfl)
    · intro tok hfree row' hrow' htok
      have hne : tok ≠ q.token := by
        rintro rfl
        simp at hfree
      rcases mem_snoc.mp hrow' with hrow' | rfl
      · exact ⟨row', hrow', rfl, rfl, id⟩
      · exact absurd htok.symm hne
  | extend tok nonce hash exp moved =>
    refine ⟨fun _ _ => rfl, fun token' nonce' row hfree hrow => ?_,
      fun _ _ row' hrow' _ => rows_markExtended hrow'⟩
    have hne : (token', nonce') ≠ (tok, nonce) := by
      rintro heq
      obtain ⟨rfl, rfl⟩ := Prod.mk.inj heq
      simp at hfree
    exact (reservationOf_markExtended_of_ne hne).trans hrow
  | record q judged =>
    exact ⟨fun _ _ => rfl, fun _ _ _ _ hrow => hrow,
      fun _ _ row' hrow' _ => ⟨row', hrow', rfl, rfl, id⟩⟩
  | consume k exh =>
    refine ⟨fun tok hfree => ?_, fun token' nonce' row hfree hrow => ?_,
      fun _ _ row' hrow' _ => rows_markConsumed hrow'⟩
    · by_cases hexh : exh = some true
      · have hne : tok ≠ k.token := by
          rintro rfl
          simp [hexh] at hfree
        simpa [afterConsume, hexh] using inviteOf_markSpent_of_ne hne
      · simp [afterConsume, hexh]
    · have hne : (token', nonce') ≠ (k.token, k.nonce) := by
        rintro heq
        obtain ⟨rfl, rfl⟩ := Prod.mk.inj heq
        simp at hfree
      exact (reservationOf_markConsumed_of_ne hne).trans hrow
  | release now cs =>
    refine ⟨fun tok hfree => ?_, fun tok nonce row hfree hrow => ?_,
      fun _ _ row' hrow' _ => rows_release hrow'⟩
    · have hnone : freed t.reservations (hits now cs) tok = 0 := by
        refine freed_eq_zero fun row hrow hhit htok => hfree ?_
        refine mem_append_right _ (mem_flatMap.mpr ⟨row, ?_, ?_⟩)
        · exact mem_filter.mpr ⟨hrow, hhit⟩
        · simp [htok]
      show inviteOf (returnSeats _ _ _) tok = _
      rw [inviteOf_returnSeats]
      cases hf : inviteOf t.invites tok with
      | none => rfl
      | some inv =>
        have htok : inv.token = tok := key_of_lookup hf
        simp [htok, hnone]
    · have hmiss : hits now cs row = false := by
        refine Bool.eq_false_iff.mpr fun hhit => hfree ?_
        have hkey := key_of_lookup hrow
        obtain ⟨htok, hnonce⟩ := Prod.mk.inj hkey
        refine mem_append_right _ (mem_flatMap.mpr ⟨row, ?_, ?_⟩)
        · exact mem_filter.mpr ⟨mem_of_lookup hrow, hhit⟩
        · simp [htok, hnonce]
      show reservationOf (release _ _) tok nonce = _
      rw [reservationOf_release, hrow]
      simp [hmiss]
  | ending e closed voided =>
    refine ⟨fun tok hfree => ?_, fun tok nonce row hfree hrow => ?_,
      fun _ _ row' hrow' _ => rows_release hrow'⟩
    · have hne : tok ≠ e.token := by
        rintro rfl
        simp at hfree
      exact inviteOf_markTerminal_of_ne hne
    · have hmiss : reservationKey row ∉ closed := by
        intro hclosed
        refine hfree (mem_append_left _ (mem_cons_of_mem _
          (mem_append_left _ (mem_map.mpr ⟨reservationKey row, hclosed, ?_⟩))))
        exact congrArg reservationRow (key_of_lookup hrow)
      show reservationOf (release _ _) tok nonce = _
      rw [reservationOf_release, hrow]
      simp [hmiss]

/-- A closed invite stays closed while its state does not come back to live, none of its
reservations becomes outstanding, and no void is cleared. -/
theorem Closed.step (h : Closed t tok) (hs : Sane t) (hgrants : Keeps t.grants t'.grants)
    (hstate : ∀ invite', inviteOf t'.invites tok = some invite' → invite'.state = .live →
      ∃ inv, inviteOf t.invites tok = some inv ∧ inv.state = .live)
    (hrows : ∀ row' ∈ t'.reservations, row'.token = tok → CameFrom t.reservations row') :
    Closed t' tok := by
  refine ⟨fun invite' hf hl => ?_, fun row' hrow' htok => ?_, ?_⟩
  · obtain ⟨inv, hinv, hold⟩ := hstate invite' hf hl
    exact h.state inv hinv hold
  · obtain ⟨row, hrow, hkey, -, hold⟩ := hrows row' hrow' htok
    have hclosed := h.seats row hrow ((congrArg Prod.fst hkey).trans htok)
    exact Bool.eq_false_iff.mpr fun hout => by rw [hold hout] at hclosed; cases hclosed
  · intro row' hrow' htok grant' hgrant' hh hnone
    obtain ⟨row, hrow, hkey, hdevice, -⟩ := hrows row' hrow' htok
    have heq : grant'.deviceHash = row.deviceHash := hh.trans hdevice.symm
    rcases hgrants.void grant' hgrant' hnone with ⟨gr, hgrant, hdev, hunvoided⟩ | habs
    · exact h.grants row hrow ((congrArg Prod.fst hkey).trans htok) gr hgrant
        (hdev.trans heq) hunvoided
    · obtain ⟨gr, hgrant, hdev⟩ := hs.granted row hrow
      exact habs gr hgrant (hdev.trans heq.symm)

theorem granted_of_keeps (hs : Sane t) (hgrants : Keeps t.grants t'.grants)
    (h : CameFrom t.reservations row') : ∃ gr ∈ t'.grants, gr.deviceHash = row'.deviceHash := by
  obtain ⟨row, hrow, -, hdevice, -⟩ := h
  obtain ⟨gr, hgrant, hdev⟩ := hs.granted row hrow
  obtain ⟨grant', hgrant', hdev'⟩ := hgrants.present gr hgrant
  exact ⟨grant', hgrant', (hdev'.trans hdev).trans hdevice⟩

theorem flags_of_outstanding {row} (h : outstanding row = true) :
    row.consumed = false ∧ row.released = false := by
  simpa only [outstanding, Bool.and_eq_true, Bool.not_eq_true'] using h

theorem apart_release (hs : Sane t)
    (hhit : ∀ row ∈ t.reservations, hit row = true → outstanding row = true) :
    ∀ row ∈ release t.reservations hit, ¬ (row.consumed = true ∧ row.released = true) := by
  intro row' hrow'
  obtain ⟨row, hrow, rfl⟩ := mem_release hrow'
  split
  next h => simp [(flags_of_outstanding (hhit row hrow h)).1]
  · exact hs.apart row hrow

theorem map_key_release : (release res hit).map reservationKey = res.map reservationKey := by
  simp only [release, map_map]
  refine map_congr_left fun row _ => ?_
  by_cases h : hit row = true
  · simp only [Function.comp_apply, if_pos h]
    rfl
  · simp only [Function.comp_apply, if_neg h]

theorem sane_afterSeat (hs : Sane t) {q} (hsale : OnSale t q.token)
    (hnone : reservationOf t.reservations q.token q.nonce = none) : Sane (afterSeat t q exp) := by
  obtain ⟨inv, hinv, hl, hrem⟩ := hsale
  have hkeeps : Keeps t.grants (afterSeat t q exp).grants := keeps_grantRows
  refine { keys := ?_, granted := ?_, apart := ?_, seats := ?_, closed := ?_ }
  · exact nodup_map_snoc hs.keys fun row hrow => ne_of_lookup_eq_none hnone hrow
  · refine forall_mem_snoc (fun row hrow => ?_) mem_grantRows_self
    exact granted_of_keeps hs hkeeps ⟨row, hrow, rfl, rfl, id⟩
  · exact forall_mem_snoc hs.apart (by simp)
  · intro tok found hf hstate
    simp only [afterSeat, held_append] at hf ⊢
    by_cases htok : tok = q.token
    · subst htok
      rw [inviteOf_takeSeat_self, hinv] at hf
      cases hf
      have hold := hs.seats _ inv hinv hl
      simp only [and_self, if_true]
      omega
    · rw [inviteOf_takeSeat_of_ne htok] at hf
      have hold := hs.seats tok found hf hstate
      simp only [Ne.symm htok, false_and, if_false]
      omega
  · intro tok htomb
    have hclosed := hs.closed tok htomb
    have hne : tok ≠ q.token := by
      rintro rfl
      exact hclosed.state inv hinv hl
    refine hclosed.step hs hkeeps (fun invite' hf hlive' => ?_) ?_
    · exact ⟨invite', (inviteOf_takeSeat_of_ne hne).symm.trans hf, hlive'⟩
    · intro row' hrow' htok
      rcases mem_snoc.mp hrow' with hrow' | rfl
      · exact ⟨row', hrow', rfl, rfl, id⟩
      · exact absurd htok.symm hne

theorem sane_afterExtend (hs : Sane t) {hash moved} :
    Sane (afterExtend t tok nonce hash exp moved) := by
  have hkeeps : Keeps t.grants (afterExtend t tok nonce hash exp moved).grants := by
    unfold afterExtend
    cases moved
    · exact .refl _
    · exact keeps_extendGrantRows
  refine { keys := ?_, granted := ?_, apart := ?_, seats := ?_, closed := ?_ }
  · exact nodup_map_modify (fun _ => rfl) hs.keys
  · exact fun row' hrow' => granted_of_keeps hs hkeeps (rows_markExtended hrow')
  · exact forall_mem_modify hs.apart fun row hrow _ => hs.apart row hrow
  · intro x inv hinv hl
    simpa only [afterExtend, held_markExtended] using hs.seats x inv hinv hl
  · intro x htomb
    exact (hs.closed x htomb).step hs hkeeps (fun inv hinv hl => ⟨inv, hinv, hl⟩)
      (fun row' hrow' _ => rows_markExtended hrow')

theorem sane_afterConsume (hs : Sane t) {k exh}
    (hseat : HoldsSeat t k.token k.nonce) : Sane (afterConsume t k exh) := by
  obtain ⟨own, hown, hout⟩ := hseat
  have hkeeps : Keeps t.grants (afterConsume t k exh).grants := keeps_grantRows
  have hstate : ∀ tok invite', inviteOf (afterConsume t k exh).invites tok =
      some invite' → invite'.state = .live → inviteOf t.invites tok = some invite' := by
    intro tok invite' hf hl
    cases exh with
    | false => exact hf
    | true =>
      by_cases htok : tok = k.token
      · subst htok
        simp only [afterConsume, if_true, inviteOf_markSpent_self, Option.map_eq_some_iff] at hf
        obtain ⟨inv, -, rfl⟩ := hf
        cases hl
      · simpa [afterConsume, inviteOf_markSpent_of_ne htok] using hf
  refine { keys := ?_, granted := ?_, apart := ?_, seats := ?_, closed := ?_ }
  · exact nodup_map_modify (fun _ => rfl) hs.keys
  · exact fun row' hrow' => granted_of_keeps hs hkeeps (rows_markConsumed hrow')
  · refine forall_mem_modify hs.apart fun row hrow hkey => ?_
    obtain rfl : row = own :=
      Option.some.inj ((lookup_of_mem hs.keys hrow hkey).symm.trans hown)
    simp [(flags_of_outstanding hout).2]
  · intro tok inv hinv hl
    have hold := hs.seats tok inv (hstate tok inv hinv hl) hl
    simpa only [afterConsume, held_markConsumed] using hold
  · intro tok htomb
    exact (hs.closed tok htomb).step hs hkeeps
      (fun inv hinv hl => ⟨inv, hstate tok inv hinv hl, hl⟩)
      (fun row' hrow' _ => rows_markConsumed hrow')

/-- The clamp does nothing: what a live invite gets back it had sold. -/
theorem remaining_add_freed_le (hs : Sane t) {inv}
    (hhit : ∀ row, hit row = true → outstanding row = true)
    (hinv : inviteOf t.invites tok = some inv) (hl : inv.state = .live) :
    inv.remaining + freed t.reservations hit tok ≤ inv.uses := by
  have hseats := hs.seats tok inv hinv hl
  have hrel := held_release t.reservations tok (fun row h => (flags_of_outstanding (hhit row h)).2)
  omega

theorem sane_afterRelease (hs : Sane t) (hhit : ∀ row, hit row = true → outstanding row = true) :
    Sane (afterRelease t hit) := by
  have hstate : ∀ tok invite', inviteOf (afterRelease t hit).invites tok = some invite' →
      ∃ inv, inviteOf t.invites tok = some inv ∧ invite'.state = inv.state ∧
        invite'.uses = inv.uses ∧
        invite'.remaining = if freed t.reservations hit tok = 0 then inv.remaining
          else min (inv.remaining + freed t.reservations hit tok) inv.uses := by
    intro tok invite' hf
    rw [afterRelease, inviteOf_returnSeats, Option.map_eq_some_iff] at hf
    obtain ⟨inv, hinv, rfl⟩ := hf
    have htok : inv.token = tok := key_of_lookup hinv
    refine ⟨inv, hinv, ?_, ?_, ?_⟩ <;> rw [htok] <;> split <;> rfl
  refine { keys := ?_, granted := ?_, apart := ?_, seats := ?_, closed := ?_ }
  · simpa only [afterRelease, map_key_release] using hs.keys
  · exact fun row' hrow' => granted_of_keeps hs (.refl _) (rows_release hrow')
  · exact apart_release hs fun row _ => hhit row
  · intro tok invite' hf hl
    obtain ⟨inv, hinv, heq, huses, hrem⟩ := hstate tok invite' hf
    rw [heq] at hl
    have hseats := hs.seats tok inv hinv hl
    have hclamp := remaining_add_freed_le hs hhit hinv hl
    have hrel := held_release t.reservations tok
      (fun row h => (flags_of_outstanding (hhit row h)).2)
    simp only [afterRelease]
    rw [huses, hrem]
    split <;> omega
  · intro tok htomb
    refine (hs.closed tok htomb).step hs (.refl _) ?_ (fun row' hrow' _ => rows_release hrow')
    intro invite' hf hl
    obtain ⟨inv, hinv, heq, -⟩ := hstate tok invite' hf
    exact ⟨inv, hinv, heq ▸ hl⟩

theorem tombstoned_bury {tombstones stone} : tombstoned (bury tombstones stone) tok = true ↔
      tok = stone.token ∨ tombstoned tombstones tok = true := by
  have hmem : ∀ stones, tombstoned stones tok = true ↔ tok ∈ stones.map (·.token) := by
    intro stones
    simp [tombstoned]
  rw [hmem, hmem, bury]
  split
  next hany =>
    have hsame : (Table.modify TombstoneRow.token tombstones stone.token
        (fun _ => stone)).map (·.token) = tombstones.map (·.token) := by
      simp only [Table.modify, map_map]
      refine map_congr_left fun row _ => ?_
      by_cases h : row.token = stone.token <;> simp [h]
    obtain ⟨row, hrow, htok⟩ := any_eq_true.mp hany
    rw [hsame]
    refine ⟨.inr, fun h => h.elim (fun heq => ?_) id⟩
    exact mem_map.mpr ⟨row, hrow, (of_decide_eq_true htok).trans heq.symm⟩
  · simp [or_comm]

/-- A revocation closes its invite, whatever the tables were. -/
theorem closed_afterEnding (hcovers : Covers t e.token e.hashes)
    (hcloses : ClosesAll t e.token closed) : Closed (afterEnding t e closed) e.token := by
  refine ⟨fun inv hf => ?_, fun row' hrow' htok => ?_, ?_⟩
  · rw [afterEnding, inviteOf_markTerminal_self, Option.map_eq_some_iff] at hf
    obtain ⟨old, -, rfl⟩ := hf
    exact e.terminal.state_ne_live
  · obtain ⟨row, hrow, rfl⟩ := mem_release hrow'
    by_cases hclosed : reservationKey row ∈ closed
    · simp [hclosed, outstanding]
    · simp only [hclosed, decide_false, Bool.false_eq_true, if_false] at htok ⊢
      exact Bool.eq_false_iff.mpr fun hout => hclosed (hcloses.all row hrow htok hout)
  · intro row' hrow' htok gr hgrant hdev
    obtain ⟨row, hrow, hkey, heq, -⟩ := rows_release hrow'
    refine voided_voidGrantRows hgrant ?_
    rw [hdev, ← heq]
    exact hcovers row hrow ((congrArg Prod.fst hkey).trans htok)

theorem sane_afterEnding (hs : Sane t) (hcovers : Covers t e.token e.hashes)
    (hcloses : ClosesAll t e.token closed) : Sane (afterEnding t e closed) := by
  have hkeeps : Keeps t.grants (afterEnding t e closed).grants := keeps_voidGrantRows
  refine { keys := ?_, granted := ?_, apart := ?_, seats := ?_, closed := ?_ }
  · simpa only [afterEnding, map_key_release] using hs.keys
  · exact fun row' hrow' => granted_of_keeps hs hkeeps (rows_release hrow')
  · exact apart_release hs fun row hrow h => hcloses.still row hrow (of_decide_eq_true h)
  · intro tok inv hinv hl
    have hne : tok ≠ e.token := by
      rintro rfl
      exact (closed_afterEnding hcovers hcloses).state inv hinv hl
    have ho : held (afterEnding t e closed).reservations tok = held t.reservations tok :=
      held_release_of_ne (fun row hclosed =>
        (hcloses.only _ (of_decide_eq_true hclosed)).trans_ne hne.symm)
    rw [ho]
    exact hs.seats tok inv ((inviteOf_markTerminal_of_ne hne).symm.trans hinv) hl
  · intro tok htomb
    by_cases htok : tok = e.token
    · exact htok ▸ closed_afterEnding hcovers hcloses
    · have hold := (tombstoned_bury.mp htomb).resolve_left htok
      exact (hs.closed tok hold).step hs hkeeps (fun inv hinv hl =>
          ⟨inv, (inviteOf_markTerminal_of_ne htok).symm.trans hinv, hl⟩)
        (fun row' hrow' _ => rows_release hrow')

theorem sane_of_commits (hs : Sane t) (ha : Relies t a) (h : a.commits c t = some t') :
    Sane t' := by
  cases commit_of_commits h with
  | seat q exp =>
    exact sane_afterSeat hs ha.1 ha.2
  | extend tok nonce hash exp moved =>
    exact sane_afterExtend hs
  | record q judged =>
    exact ⟨hs.keys, hs.granted, hs.apart, hs.seats, fun tok htomb => ⟨(hs.closed tok htomb).state,
        (hs.closed tok htomb).seats, (hs.closed tok htomb).grants⟩⟩
  | consume k exh =>
    exact sane_afterConsume hs ha
  | release now cs =>
    exact sane_afterRelease hs fun row hhit => outstanding_of_hits hhit
  | ending e closed voided =>
    exact sane_afterEnding hs ha.1 ha.2

end Commits

/-! ## Runs -/

section Runs

variable {c : Crypto} {i : Action} {t t' : Tables} {a a' : Phase}

theorem relies_start (h : i.start = some a') : Relies t a' := by
  cases i <;> simp only [Action.start, Option.some.injEq, reduceCtorEq] at h <;> (subst h; trivial)

theorem relies_fetched (q : Reserve) : Relies t (fetched t q) := by
  unfold fetched
  split
  · trivial
  · split_ifs <;> trivial

/-- The seat's statement wrote a live invite with a seat left, under a fresh nonce. -/
theorem relies_seated (q : Reserve) (exp : Nat) : Relies t (seated t q exp) := by
  unfold seated
  split
  · trivial
  next inv hinv =>
    split
    next hfree =>
      split
      · trivial
      next hnone =>
        obtain ⟨hl, hrem, -⟩ := of_decide_eq_true hfree
        exact ⟨⟨inv, hinv, hl, hrem⟩, hnone⟩
    · trivial

variable {token : Bytes} {nonce : Bytes}

theorem holdsSeat_of_extendable {snapshot found}
    (h : extendable t.reservations token nonce snapshot = some found) :
    HoldsSeat t token nonce := by
  unfold extendable at h
  split at h
  next row inv hrow =>
    split at h
    next hall => exact ⟨row, hrow, hall.2.1⟩
    · cases h
  · cases h

theorem holdsSeat_of_spendable (h : spendable t.reservations token nonce = true) :
    HoldsSeat t token nonce := by
  unfold spendable at h
  split at h
  next row hrow => exact ⟨row, hrow, h⟩
  · cases h

theorem covers_readHashes (t : Tables) (token : Bytes) : Covers t token
      ((t.reservations.filter (·.token = token)).map (·.deviceHash)).dedup := by
  intro row hrow htok
  refine mem_dedup.mpr (mem_map_of_mem (mem_filter.mpr ⟨hrow, ?_⟩))
  exact decide_eq_true htok

theorem closesAll_openSeats (hkeys : (t.reservations.map reservationKey).Nodup)
    (token : Bytes) : ClosesAll t token (openSeats t.reservations token) := by
  refine ⟨fun row hrow htok hout => ?_, fun key hkey => ?_, fun row hrow hkey => ?_⟩
  · exact mem_map_of_mem (mem_filter.mpr ⟨hrow, by simp [htok, hout]⟩)
  · obtain ⟨row, hrow, rfl⟩ := mem_map.mp hkey
    have hfilter := (mem_filter.mp hrow).2
    exact of_decide_eq_true (Bool.and_eq_true_iff.mp hfilter).1
  · obtain ⟨row', hrow', heq⟩ := mem_map.mp hkey
    obtain ⟨hmem, hfilter⟩ := mem_filter.mp hrow'
    obtain rfl := inj_on_of_nodup_map hkeys hmem hrow heq
    exact (Bool.and_eq_true_iff.mp hfilter).2

theorem relies_statement (hs : Sane t) (ha : Relies t a)
    (h : statement c t a = some (t', a')) : Relies t' a' := by
  cases a with
  | idle | answered => cases h
  | fetch q =>
    cases h
    exact relies_fetched q
  | takeSeat q exp =>
    cases h
    exact relies_seated q exp
  | checkGrant | checkSeat | judge | checkScope | count | lockInvite =>
    simp only [statement] at h
    split at h <;> (obtain ⟨rfl, rfl⟩ := by simpa using h) <;> trivial
  | grantSeat q exp =>
    simp only [statement] at h
    split at h <;> cases h
    · trivial
    · exact ha
  | extending token nonce snapshot =>
    simp only [statement] at h
    split at h
    next hf =>
      cases h
      exact holdsSeat_of_extendable hf
    · cases h
      trivial
  | mark k =>
    simp only [statement] at h
    split at h
    next hspendable =>
      cases h
      exact holdsSeat_of_spendable hspendable
    · cases h
      trivial
  | extendGrant | promote | survey | surveyed =>
    cases h
    exact ha
  | readHashes token terminal =>
    cases h
    exact covers_readHashes _ token
  | closeSeats e =>
    cases h
    exact ⟨ha, closesAll_openSeats hs.keys e.token⟩
  | voidGrants e closed voided rest =>
    cases rest with
    | nil =>
      cases h
      trivial
    | cons hash rest =>
      cases h
      exact ha
  | commitSeat | extend | commitExtend | record | recheck | decided | release | releasing =>
    cases h
    trivial

theorem sane_act (hs : Sane t) (ha : Relies t a) (h : act c i t a = some (t', a')) :
    Sane t' ∧ Relies t' a' := by
  have hsane : Sane t' := by
    rcases act_tables h with rfl | ⟨-, hcomm⟩
    · exact hs
    · exact sane_of_commits hs ha hcomm
  refine ⟨hsane, ?_⟩
  obtain ⟨-, -, hstart⟩ | ⟨-, -, rfl⟩ | ⟨-, hstmt⟩ := act_cases h
  · exact relies_start hstart
  · trivial
  · exact relies_statement hs ha hstmt

/-- A turn leaves alone every lookup of rows it neither held nor needed. -/
theorem frame_act (h : act c i t a = some (t', a')) :
    LeavesAlone (a.locks ++ needs i t a) t t' := by
  rcases act_tables h with rfl | ⟨rfl, hcomm⟩
  · exact ⟨fun _ _ => rfl, fun _ _ _ _ hrow => hrow,
      fun _ _ row hrow _ => ⟨row, hrow, rfl, rfl, id⟩⟩
  · exact frame_of_commits hcomm

variable {π : Type} [DecidableEq π] {w w' : World π Tables Phase} {labels : List (π × Action)}

/-- The tables are sane and every process has what it relies on. -/
abbrev Sound (c : Crypto) (w : World π Tables Phase) : Prop :=
  (machine c).Holds Sane Relies (fun _ _ => True) w

theorem Sound.step {label} (h : Sound c w) (hs : (machine c).Step w label w') : Sound c w' := by
  refine Machine.Holds.step (fun _ _ _ => trivial) sane_act ?_ h hs.under
  intro i t a t' a' b hbeside hact
  have hfree : ∀ row ∈ a.locks ++ needs i t a, row ∉ b.locks := by
    intro row hrow
    exact (mem_append.mp hrow).elim (hbeside.held row) (hbeside.needed row)
  have hsane := (sane_act hbeside.store hbeside.mover hact).1
  exact ⟨relies_of_frame (frame_act hact) hbeside.store hsane hbeside.other hfree, trivial⟩

theorem Sound.run (h : Sound c w) (hrun : Run (machine c).Step w labels w') : Sound c w' :=
  Run.invariant (fun _ _ _ hs hstep => hs.step hstep) hrun h

/-- Nothing is under way, nobody has joined, and every live invite has all its seats. -/
structure Fresh (w : World π Tables Phase) : Prop where
  idle : ∀ p, w.phase p = .idle
  empty : w.store.reservations = []
  full : ∀ token invite, inviteOf w.store.invites token = some invite →
    invite.state = .live → invite.remaining = invite.uses
  buried : ∀ token, tombstoned w.store.tombstones token = true →
    ∀ invite, inviteOf w.store.invites token = some invite → invite.state ≠ .live

omit [DecidableEq π] in
theorem Fresh.sound (h : Fresh w) : Sound c w :=
  .of_idle h.idle rfl
    { keys := by simp [h.empty]
      granted := by simp [h.empty]
      apart := by simp [h.empty]
      seats := by
        intro token inv hinv hl
        simp [h.empty, held, h.full token inv hinv hl]
      closed := fun token htomb =>
        { state := h.buried token htomb
          seats := by simp [h.empty]
          grants := by simp [h.empty] } }
    trivial trivial

/-- The seats of an invite are all accounted for. -/
structure Conserved (t : Tables) (invite : InviteRow) : Prop where
  seats : invite.remaining + held t.reservations invite.token = invite.uses
  bound : invite.remaining ≤ invite.uses
  spent : spentSeats t.reservations invite.token ≤ invite.uses
  apart : ∀ row ∈ t.reservations, row.token = invite.token →
    ¬ (row.consumed = true ∧ row.released = true)

theorem Sane.conserved (hs : Sane t) {inv}
    (hinv : inviteOf t.invites token = some inv) (hl : inv.state = .live) : Conserved t inv := by
  have htok : inv.token = token := key_of_lookup hinv
  have hseats := hs.seats token inv hinv hl
  have hspent : spentSeats t.reservations token ≤ held t.reservations token :=
    spentSeats_le_held hs.apart
  subst htok
  exact ⟨hseats, by omega, by omega, fun row hrow _ => hs.apart row hrow⟩

/-- Along every run the seats of a live invite are accounted for, and a release gives back
no more than was sold. -/
theorem seats_conserved
    (hfresh : Fresh w)
    (hrun : Run (machine c).Step w labels w')
    {token : Bytes}
    {invite : InviteRow}
    (hinvite : inviteOf w'.store.invites token = some invite)
    (hlive : invite.state = .live) :
    Conserved w'.store invite ∧ ∀ p now candidates, w'.phase p = .releasing now candidates →
        min (invite.remaining + freed w'.store.reservations (hits now candidates) token)
            invite.uses =
          invite.remaining + freed w'.store.reservations (hits now candidates) token := by
  have hsane : Sane w'.store := (hfresh.sound.run hrun).store
  refine ⟨hsane.conserved hinvite hlive, fun p now candidates _ => ?_⟩
  exact Nat.min_eq_left
    (remaining_add_freed_le hsane (fun row hhit => outstanding_of_hits hhit) hinvite hlive)

end Runs

section Sample

/-- An invite with two seats. -/
def sampleInvite : InviteRow :=
  { token := id16 1, uses := 2, expiresAt := 5000000, bootstrap := false, state := .live,
    remaining := 2 }

def sampleTables : Tables :=
  { invites := [sampleInvite], reservations := [], grants := [], tombstones := [],
    bundles := [⟨id16 1, id32 7, 0, [9], 0⟩], scopes := [⟨id16 1, id32 7⟩], scopeCommits := [] }

def sampleStart : World Caller Tables Phase := ⟨sampleTables, fun _ => .idle⟩

theorem fresh_sampleStart : Fresh sampleStart where
  idle := fun _ => rfl
  empty := rfl
  full := by
    intro tok inv hinv _
    obtain rfl : inv = sampleInvite :=
      mem_singleton.mp (mem_of_lookup hinv)
    rfl
  buried := by
    intro tok h
    cases h

/-- Two devices reserve; one of them is late, and its seat is about to be given back. -/
def sampleLabels : List (Caller × Action) :=
  [(.first, .reserve ⟨id16 1, id16 10, id32 20, 0, true⟩)] ++ List.replicate 6 (.first, .turn) ++
  [(.second, .reserve ⟨id16 1, id16 11, id32 21, 900000, true⟩)] ++
    List.replicate 6 (.second, .turn) ++
  [(.third, .releaseExpired 1000000), (.third, .turn)]

theorem exec_sampleLabels :
    ((machine sampleCrypto).exec (fun _ _ _ _ => True) sampleStart sampleLabels).map
        (fun w => (inviteOf w.store.invites (id16 1), w.phase .third)) =
      some (some { sampleInvite with remaining := 0 }, .releasing 1000000 [(id16 1, id16 10)]) := by
  decide +kernel

/-- The seats of the sample invite are accounted for while one is being given back. -/
theorem sampleLabels_conserved : ∃ w', Run (machine sampleCrypto).Step sampleStart sampleLabels w' ∧
      Conserved w'.store { sampleInvite with remaining := 0 } ∧
      freed w'.store.reservations (hits 1000000 [(id16 1, id16 10)]) (id16 1) ≤ 2 := by
  obtain ⟨w', hexec, hw'⟩ := Option.map_eq_some_iff.mp exec_sampleLabels
  obtain ⟨hinv, hphase⟩ := Prod.mk.inj hw'
  have hrun := Machine.run_of_exec hexec
  obtain ⟨hconserved, hclamp⟩ := seats_conserved fresh_sampleStart hrun hinv rfl
  have hfreed := hclamp .third _ _ hphase
  refine ⟨w', hrun, hconserved, ?_⟩
  simp only [sampleInvite, Nat.zero_add] at hfreed
  omega

end Sample

end WealdRelay.Invite
