import WealdRelay.Admission
import WealdRelay.Invite.Genesis

/-!
# How a provisional grant ends

The grants of one workspace under every operation that writes them: publications, the
calls of a join, and revocations, each committed before the next one starts.

A publication marks the grants whose device its set carries, and voids the marked ones
whose device it does not carry. A void is never cleared. What clears the mark is a new
grant for the same device: `reserve` issues one with the seat it takes and `consume` with
the seat it spends, and the next set is then the first one the grant has met. So a device
that a set carried and a later set drops loses its grant for good, unless a seat was taken
or spent for it in between.
-/

namespace WealdRelay.Grants

open Lib Access Invite.Genesis List Invite

/-! ## The operations -/

/-- One committed operation. -/
inductive Operation where
  | publish (candidate : AccessSet) (now : Nat)
  | call (i : Invite.Action)
  | revokeGrant (hash : Bytes)
deriving DecidableEq

/-- What a device is admitted on. -/
inductive Verdict where
  | inSet
  | provisional
  | refused
deriving DecidableEq

/-- `access::store::admits`: the newest set is asked first, then the grants. -/
def admits (db : Db) (hash : Bytes) (now : Nat) : Verdict :=
  if Admission.inNewestSet db hash then .inSet
  else if Admission.liveGrant db hash now then .provisional
  else .refused

section Perform

variable (c : Crypto) (salt : Bytes)

/-- Run an operation by itself; a call has this many turns to end in. -/
def perform (turns : Nat) (s : Store) : Operation → Option Store
  | .publish candidate now =>
    match Access.publish c s.db candidate salt now with
    | .ok (_, _, next) => some (s.withDb next)
    | .error _ => none
  | .call i =>
    match i.start with
    | none => none
    | some a =>
      match (Invite.machine c).solo .turn turns s.tables a with
      | (t, .answered _) => some (s.withTables t)
      | _ => none
  | .revokeGrant hash =>
    some (s.withDb { s.db with grants := Invite.voidGrantRows s.db.grants [hash] })

/-- The operation ends, and these are the rows it leaves. -/
def Commits (s : Store) (operation : Operation) (s' : Store) : Prop :=
  ∃ turns, perform c salt turns s operation = some s'

end Perform

/-- The device that a call issues a grant to, if it issues one. -/
def Operation.grantee : Operation → Option Bytes
  | .call (.reserve q) => some q.hash
  | .call (.scopeCommit q) => some q.hash
  | .call (.consume _ _ hash _) => some hash
  | _ => none

/-- A seat was taken or spent for this device, and with it a grant issued. -/
def Reissues (hash : Bytes) (s : Store) (operation : Operation) (s' : Store) : Prop :=
  operation.grantee = some hash ∧ s'.db.reservations ≠ s.db.reservations

/-- An operation that does not take or spend a seat for this device. -/
def CommitsApart (c : Crypto) (salt : Bytes) (hash : Bytes) (s : Store)
    (operation : Operation) (s' : Store) : Prop :=
  Commits c salt s operation s' ∧ ¬ Reissues hash s operation s'

/-! ## The grants of one device -/

/-- There is a grant for this device, and this is true of it. -/
structure Grant (hash : Bytes) (P : GrantRow → Prop) (grants : List GrantRow) : Prop where
  exists_row : ∃ grant ∈ grants, grant.deviceHash = hash
  all : ∀ grant ∈ grants, grant.deviceHash = hash → P grant

def Void (grant : GrantRow) : Prop := grant.voided ≠ none

/-- A set has carried the device since the grant was issued, or the grant is void. -/
def Met (grant : GrantRow) : Prop := grant.voided ≠ none ∨ grant.seenVersion ≠ none

section Rows

variable {hash x : Bytes} {P Q : GrantRow → Prop} {grants : List GrantRow}
variable {ver exp : Nat} {es : List Bytes}

/-- An update that keeps the devices and what is true of one device's rows. -/
theorem Grant.map {f : GrantRow → GrantRow} (h : Grant hash P grants)
    (hdev : ∀ gr, (f gr).deviceHash = gr.deviceHash)
    (hrow : ∀ gr, gr.deviceHash = hash → P gr → Q (f gr)) : Grant hash Q (grants.map f) where
  exists_row := by
    obtain ⟨gr, hmem, hh⟩ := h.exists_row
    exact ⟨f gr, mem_map_of_mem hmem, (hdev gr).trans hh⟩
  all := by
    intro grant' hmem hh
    obtain ⟨gr, hgrant, rfl⟩ := mem_map.mp hmem
    have hold : gr.deviceHash = hash := (hdev gr).symm.trans hh
    exact hrow gr hold (h.all gr hgrant hold)

theorem Grant.not_live {db} (h : Grant hash Void db.grants) (now : Nat) :
    Admission.liveGrant db hash now = false := by
  refine any_eq_false.mpr fun gr hmem hl => ?_
  simp only [Bool.and_eq_true, beq_iff_eq] at hl
  exact h.all gr hmem hl.1.1 hl.1.2

theorem Grant.grantIsVoided (h : Grant hash Void grants) :
    Invite.grantIsVoided grants hash = true := by
  obtain ⟨gr, hmem, hh⟩ := h.exists_row
  obtain ⟨found, hf⟩ : ∃ found, Table.lookup GrantRow.deviceHash grants hash = some found :=
    Table.lookup_isSome_of_mem hmem hh
  have hvoid := h.all found (Table.mem_of_lookup hf) (Table.key_of_lookup hf)
  unfold Invite.grantIsVoided Invite.grantOf
  rw [hf]
  exact decide_eq_true hvoid

theorem deviceHash_markSeen (gr : GrantRow) : (markSeen ver es gr).deviceHash = gr.deviceHash := by
  unfold markSeen
  split <;> rfl

theorem deviceHash_voidSuperseded (gr : GrantRow) :
    (voidSuperseded es gr).deviceHash = gr.deviceHash := by
  unfold voidSuperseded
  split <;> rfl

theorem voided_markSeen (gr : GrantRow) : (markSeen ver es gr).voided = gr.voided := by
  unfold markSeen
  split <;> rfl

variable {gr : GrantRow}

theorem met_markSeen (h : Met gr) : Met (markSeen ver es gr) := by
  unfold markSeen
  split
  · exact .inr (Option.some_ne_none ver)
  · exact h

theorem met_markSeen_of_mem (hmem : gr.deviceHash ∈ es) : Met (markSeen ver es gr) := by
  unfold markSeen
  split
  · exact .inr (Option.some_ne_none ver)
  next hskip => exact .inl (fun hopen => hskip ⟨hopen, hmem⟩)

theorem void_voidSuperseded (h : Void gr) : Void (voidSuperseded es gr) := by
  unfold voidSuperseded
  split
  · exact Option.some_ne_none _
  · exact h

theorem met_voidSuperseded (h : Met gr) : Met (voidSuperseded es gr) := by
  unfold voidSuperseded
  split
  · exact .inl (Option.some_ne_none _)
  · exact h

/-- A marked grant whose device the set does not carry is void. -/
theorem void_voidSuperseded_of_not_mem (h : Met gr) (hmem : gr.deviceHash ∉ es) :
    Void (voidSuperseded es gr) := by
  unfold voidSuperseded
  split
  · exact Option.some_ne_none _
  next hskip =>
    intro hopen
    rcases h with hvoid | hseen
    · exact hvoid hopen
    · exact hskip ⟨hopen, hseen, hmem⟩

/-- What one publication makes of a device's grant. -/
theorem Grant.publication (h : Grant hash P grants)
    (hrow : ∀ gr, gr.deviceHash = hash → P gr → Q (voidSuperseded es (markSeen ver es gr))) :
    Grant hash Q ((grants.map (markSeen ver es)).map (voidSuperseded es)) := by
  rw [map_map]
  refine h.map (fun gr => ?_) hrow
  rw [Function.comp_apply, deviceHash_voidSuperseded, deviceHash_markSeen]

theorem Grant.grantRows_of_ne (h : Grant hash P grants) (hne : x ≠ hash) :
    Grant hash P (grantRows grants x exp) := by
  unfold grantRows
  split
  · refine h.map (fun gr => ?_) (fun gr hh hP => ?_)
    · split <;> rfl
    · rw [if_neg (fun hboth => hne (hboth.1.symm.trans hh))]
      exact hP
  · constructor
    · obtain ⟨gr, hmem, hh⟩ := h.exists_row
      exact ⟨gr, mem_append_left _ hmem, hh⟩
    · intro gr hmem hh
      rcases mem_snoc.mp hmem with hold | rfl
      · exact h.all gr hold hh
      · exact absurd hh hne

theorem Grant.void_grantRows (h : Grant hash Void grants) :
    Grant hash Void (grantRows grants x exp) := by
  by_cases ho : x = hash
  · subst ho
    obtain ⟨gr, hmem, hh⟩ := h.exists_row
    have hany : grants.any (·.deviceHash == x) = true :=
      any_eq_true.mpr ⟨gr, hmem, beq_iff_eq.mpr hh⟩
    unfold grantRows
    rw [if_pos hany]
    refine h.map (fun gr => ?_) (fun gr _ hvoid => ?_)
    · split <;> rfl
    · rw [if_neg (hvoid ·.2)]
      exact hvoid
  · exact h.grantRows_of_ne ho

/-- What neither an extension nor a revocation takes from a grant. -/
structure Lasting (P : GrantRow → Prop) : Prop where
  extend : ∀ (grant : GrantRow) (expiresAt : Nat), P grant → P { grant with expiresAt := expiresAt }
  revoke : ∀ grant : GrantRow, P { grant with voided := some .revoked }

theorem lasting_void : Lasting Void where
  extend := fun _ _ hvoid => hvoid
  revoke := fun _ => Option.some_ne_none _

theorem lasting_met : Lasting Met where
  extend := fun _ _ hmet => hmet
  revoke := fun _ => .inl (Option.some_ne_none _)

theorem Grant.extendGrantRows (h : Grant hash P grants) (hP : Lasting P) :
    Grant hash P (extendGrantRows grants x exp) := by
  refine h.map (fun gr => ?_) (fun gr _ hrow => ?_)
  · split <;> rfl
  · split
    · exact hP.extend gr exp hrow
    · exact hrow

theorem Grant.voidGrantRows {hashes} (h : Grant hash P grants) (hP : Lasting P) :
    Grant hash P (voidGrantRows grants hashes) := by
  refine h.map (fun gr => ?_) (fun gr _ hrow => ?_)
  · split <;> rfl
  · split
    · exact hP.revoke gr
    · exact hrow

end Rows

/-! ## The calls of a join -/

section Calls

variable {c : Crypto} {hash : Bytes} {t t' : Invite.Tables} {a a' : Invite.Phase}

/-- The device a call is for, in the calls that issue grants. -/
def grantee : Invite.Phase → Option Bytes
  | .fetch q | .checkGrant q _ | .checkSeat q _ | .takeSeat q _ | .grantSeat q _
  | .commitSeat q _ => some q.hash
  | .judge q | .checkScope q _ | .record q _ | .count q _ => some q.hash
  | .mark k | .recheck k | .promote k | .survey k | .surveyed k _ | .decided k _ =>
    some k.hash
  | _ => none

/-- A call is for one device from its first statement to its answer. -/
theorem grantee_statement (h : Invite.statement c t a = some (t', a')) :
    grantee a' = grantee a ∨ ∃ ans, a' = .answered ans := by
  cases a with
  | idle | answered => cases h
  | fetch q =>
    cases h
    unfold fetched
    split
    · exact .inr ⟨_, rfl⟩
    · split_ifs
      · exact .inr ⟨_, rfl⟩
      · exact .inl rfl
      · exact .inr ⟨_, rfl⟩
  | takeSeat q exp =>
    cases h
    unfold Invite.seated
    split
    · exact .inr ⟨_, rfl⟩
    · split
      · split
        · exact .inr ⟨_, rfl⟩
        · exact .inl rfl
      · exact .inr ⟨_, rfl⟩
  | checkGrant | grantSeat | checkSeat | extending | judge | checkScope | count | mark
  | lockInvite =>
    simp only [Invite.statement] at h
    split at h <;> (obtain ⟨-, rfl⟩ := by simpa using h) <;> first
        | exact .inl rfl
        | exact .inr ⟨_, rfl⟩
  | voidGrants e closed voided rest =>
    cases rest <;> (obtain ⟨-, rfl⟩ := by simpa [Invite.statement] using h) <;> exact .inl rfl
  | extend | extendGrant | record | promote | survey | surveyed | release | readHashes
  | closeSeats =>
    cases h
    exact .inl rfl
  | commitSeat | commitExtend | recheck | decided | releasing =>
    cases h
    exact .inr ⟨_, rfl⟩

/-- What a commit leaves true of a device's grant, if a grant issued by it does. -/
theorem Grant.of_commits {P : GrantRow → Prop} (h : Grant hash P t.grants) (hP : Lasting P)
    (hissue : ∀ x exp, grantee a = some x → Grant hash P (grantRows t.grants x exp))
    (hcomm : a.commits c t = some t') : Grant hash P t'.grants := by
  cases commit_of_commits hcomm with
  | seat | consume =>
    exact hissue _ _ rfl
  | extend tok nonce x exp moved =>
    show Grant hash P (if moved then _ else _)
    split
    · exact h.extendGrantRows hP
    · exact h
  | ending e closed voided =>
    exact h.voidGrantRows hP
  | record | release =>
    exact h

/-- A turn of a call runs its next statement, which changes the tables if it commits. -/
theorem turn_tables (h : (Invite.machine c).act .turn t a = some (t', a')) :
    t' = t ∨ a.commits c t = some t' := by
  have hact : Invite.act c .turn t a = some (t', a') := h
  exact (Invite.act_tables hact).imp_right And.right

theorem void_solo (h : Grant hash Void t.grants) (n : Nat) :
    Grant hash Void ((Invite.machine c).solo .turn n t a).1.grants := by
  refine Machine.solo_keeps (P := fun (t : Invite.Tables) _ => Grant hash Void t.grants) ?_ h n
  intro t a t' a' hvoid hact
  rcases turn_tables hact with rfl | hcomm
  · exact hvoid
  · exact hvoid.of_commits lasting_void (fun _ _ _ => hvoid.void_grantRows) hcomm

theorem met_solo_of_ne (ho : grantee a ≠ some hash) (h : Grant hash Met t.grants) (n : Nat) :
    Grant hash Met ((Invite.machine c).solo .turn n t a).1.grants := by
  refine (Machine.solo_keeps
    (P := fun (t : Invite.Tables) a => grantee a ≠ some hash ∧ Grant hash Met t.grants) ?_
    ⟨ho, h⟩ n).2
  rintro t a t' a' ⟨ho, hmet⟩ hact
  constructor
  · rcases grantee_statement hact with hsame | ⟨ans, rfl⟩
    · rw [hsame]
      exact ho
    · nofun
  · rcases turn_tables hact with rfl | hcomm
    · exact hmet
    · refine hmet.of_commits lasting_met (fun x exp hgrantee => ?_) hcomm
      exact hmet.grantRows_of_ne fun heq => ho (hgrantee.trans (congrArg some heq))

/-- The seat that a call is spending. -/
def spending : Invite.Phase → Option Invite.Consume
  | .promote k | .survey k | .surveyed k _ | .decided k _ => some k
  | _ => none

/-- A seat that is being spent is there to be spent. -/
def Ready (t : Invite.Tables) (a : Invite.Phase) : Prop :=
  ∀ k, spending a = some k → Invite.spendable t.reservations k.token k.nonce = true

theorem ready_of_none (h : spending a = none) : Ready t a := by
  intro k hk
  rw [h] at hk
  cases hk

/-- A call starts to spend a seat only if it finds it unspent. -/
theorem ready_statement (h : Ready t a) (hstmt : Invite.statement c t a = some (t', a'))
    (heq : t'.reservations = t.reservations) : Ready t' a' := by
  cases a with
  | idle | answered => cases hstmt
  | mark k =>
    simp only [Invite.statement] at hstmt
    split at hstmt
    next hspendable =>
      cases hstmt
      intro k' hk'
      cases hk'
      exact hspendable
    · cases hstmt
      exact ready_of_none rfl
  | promote k | survey k | surveyed k noneLeft =>
    cases hstmt
    exact h
  | fetch q =>
    cases hstmt
    refine ready_of_none ?_
    unfold fetched
    split
    · rfl
    · split_ifs <;> rfl
  | takeSeat q exp =>
    cases hstmt
    refine ready_of_none ?_
    unfold Invite.seated
    split
    · rfl
    · split
      · split <;> rfl
      · rfl
  | checkGrant | grantSeat | checkSeat | extending | judge | checkScope | lockInvite | count =>
    simp only [Invite.statement] at hstmt
    split at hstmt <;> (obtain ⟨-, rfl⟩ := by simpa using hstmt) <;>
      exact ready_of_none rfl
  | voidGrants e closed voided rest =>
    cases rest <;> (obtain ⟨-, rfl⟩ := by simpa [Invite.statement] using hstmt) <;>
      exact ready_of_none rfl
  | extend | extendGrant | record | release | readHashes | closeSeats | commitSeat
  | commitExtend | recheck | decided | releasing =>
    cases hstmt
    exact ready_of_none rfl

/-- Spending a seat shows in the reservations. -/
theorem markConsumed_ne {res tok nonce} (h : spendable res tok nonce = true) :
    markConsumed res tok nonce ≠ res := by
  intro heq
  have hlookup : reservationOf (markConsumed res tok nonce) tok nonce =
      (reservationOf res tok nonce).map (fun row =>
        { row with consumed := true }) := Table.lookup_modify_self (fun _ => rfl)
  rw [heq] at hlookup
  unfold spendable at h
  split at h
  next row hrow =>
    rw [hrow, Option.map_some] at hlookup
    have hspent : row.consumed = true := congrArg ReservationRow.consumed (Option.some.inj hlookup)
    simp [outstanding, hspent] at h
  · cases h

/-- A call that issues a grant takes or spends a seat. -/
def Unissued (t₀ t : Invite.Tables) (a : Invite.Phase) : Prop :=
  (t.grants = t₀.grants ∧ t.reservations = t₀.reservations ∧ Ready t a ∧
      (grantee a).isSome = true) ∨
    ∃ answer, a = .answered answer ∧ (t.reservations = t₀.reservations → t.grants = t₀.grants)

theorem unissued_turn {t₀} (h : Unissued t₀ t a)
    (hact : (Invite.machine c).act .turn t a = some (t', a')) : Unissued t₀ t' a' := by
  have hstmt : Invite.statement c t a = some (t', a') := hact
  rcases h with ⟨hgrants, hrows, hready, hissues⟩ | ⟨ans, rfl, -⟩
  · rcases turn_tables hact with rfl | hcomm
    · rcases grantee_statement hstmt with heq | ⟨ans, rfl⟩
      · exact .inl ⟨hgrants, hrows, ready_statement hready hstmt rfl, heq ▸ hissues⟩
      · exact .inr ⟨ans, rfl, fun _ => hgrants⟩
    · cases commit_of_commits hcomm with
      | seat q exp =>
        obtain rfl := by simpa [Invite.statement] using hstmt
        refine .inr ⟨_, rfl, fun heq => ?_⟩
        rw [← hrows] at heq
        simp [afterSeat] at heq
      | consume k exh =>
        obtain rfl := by simpa [Invite.statement] using hstmt
        refine .inr ⟨_, rfl, fun heq => ?_⟩
        rw [← hrows] at heq
        exact absurd heq (markConsumed_ne (hready k rfl))
      | record q judged =>
        obtain rfl := by simpa [Invite.statement] using hstmt
        exact .inl ⟨hgrants, hrows, ready_of_none rfl, hissues⟩
      | extend | release | ending => cases hissues
  · cases hstmt

/-- Without a seat taken or spent, such a call leaves the grants alone. -/
theorem grants_solo_of_same (hissues : (grantee a).isSome = true) (hspending : spending a = none)
    {n} (heq : ((Invite.machine c).solo .turn n t a).1.reservations = t.reservations) :
    ((Invite.machine c).solo .turn n t a).1.grants = t.grants := by
  have hstart : Unissued t t a := .inl ⟨rfl, rfl, ready_of_none hspending, hissues⟩
  have hend : Unissued t ((Invite.machine c).solo .turn n t a).1
      ((Invite.machine c).solo .turn n t a).2 :=
    Machine.solo_keeps (fun hk hact => unissued_turn hk hact) hstart n
  rcases hend with ⟨hgrants, -⟩ | ⟨-, -, hgrants⟩
  · exact hgrants
  · exact hgrants heq

end Calls

/-! ## Whole histories -/

section Histories

variable {c : Crypto} {salt : Bytes} {hash : Bytes} {s s' : Store}
variable {op : Operation} {cand : AccessSet} {now : Nat}

theorem grants_of_publish (h : Commits c salt s (.publish cand now) s') :
    s'.db.grants = (s.db.grants.map (markSeen cand.version cand.entries)).map
      (voidSuperseded cand.entries) := by
  obtain ⟨turns, h⟩ := h
  simp only [perform, Access.publish] at h
  split at h
  next signedAs eff next hpub =>
    cases h
    split at hpub
    · cases hpub
    · split at hpub
      · cases hpub
      next hcomm =>
        obtain ⟨rfl, rfl, rfl⟩ := by simpa using hpub
        obtain ⟨-, -, hrows⟩ := commit_ok hcomm
        exact hrows.grants
  · cases h

theorem solo_of_call {i} (h : Commits c salt s (.call i) s') : ∃ a turns, i.start = some a ∧
      s' = s.withTables ((Invite.machine c).solo .turn turns s.tables a).1 := by
  obtain ⟨turns, h⟩ := h
  simp only [perform] at h
  split at h
  · cases h
  next a hstart =>
    split at h
    next t ans hsolo =>
      cases h
      exact ⟨a, turns, hstart, by rw [hsolo]⟩
    · cases h

theorem start_grantee {i a} (h : i.start = some a) :
    grantee a = (Operation.call i).grantee ∧ spending a = none := by
  cases i with
  | turn | fail => cases h
  | reserve | extend | scopeCommit | consume | releaseExpired | terminate =>
    cases h
    exact ⟨rfl, rfl⟩

theorem void_commits (hvoid : Grant hash Void s.db.grants) (h : Commits c salt s op s') :
    Grant hash Void s'.db.grants := by
  cases op with
  | publish cand now =>
    rw [grants_of_publish h]
    refine hvoid.publication fun gr _ hrow => void_voidSuperseded ?_
    show (markSeen cand.version cand.entries gr).voided ≠ none
    rw [voided_markSeen]
    exact hrow
  | call i =>
    obtain ⟨a, turns, -, rfl⟩ := solo_of_call h
    have htables : Grant hash Void s.tables.grants := hvoid
    exact void_solo htables turns
  | revokeGrant x =>
    obtain ⟨turns, h⟩ := h
    cases h
    exact hvoid.voidGrantRows lasting_void

/-- Only a seat that is taken or spent for the device clears its mark. -/
theorem met_commits (hmet : Grant hash Met s.db.grants)
    (h : CommitsApart c salt hash s op s') : Grant hash Met s'.db.grants := by
  obtain ⟨h, happart⟩ := h
  cases op with
  | publish cand now =>
    rw [grants_of_publish h]
    exact hmet.publication fun gr _ hrow => met_voidSuperseded (met_markSeen hrow)
  | call i =>
    obtain ⟨a, turns, hstart, rfl⟩ := solo_of_call h
    obtain ⟨hgrantee, hspending⟩ := start_grantee hstart
    have htables : Grant hash Met s.tables.grants := hmet
    by_cases ho : grantee a = some hash
    · have heq : ((Invite.machine c).solo .turn turns s.tables a).1.reservations =
          s.tables.reservations := by
        by_contra hchanged
        exact happart ⟨hgrantee.symm.trans ho, hchanged⟩
      have hissues : (grantee a).isSome = true := by
        rw [ho]
        rfl
      show Grant hash Met ((Invite.machine c).solo .turn turns s.tables a).1.grants
      rw [grants_solo_of_same hissues hspending heq]
      exact htables
    · exact met_solo_of_ne ho htables turns
  | revokeGrant x =>
    obtain ⟨turns, h⟩ := h
    cases h
    exact hmet.voidGrantRows lasting_met

/-- A set that carries the device marks its grant. -/
theorem met_of_carried (hrow : ∃ gr ∈ s.db.grants, gr.deviceHash = hash)
    (hmem : hash ∈ cand.entries) (h : Commits c salt s (.publish cand now) s') :
    Grant hash Met s'.db.grants := by
  have hany : Grant hash (fun _ => True) s.db.grants := ⟨hrow, fun _ _ _ => trivial⟩
  rw [grants_of_publish h]
  refine hany.publication fun gr hh _ => met_voidSuperseded (met_markSeen_of_mem ?_)
  rw [hh]
  exact hmem

/-- A set that drops the device voids the grant of a device that was carried. -/
theorem void_of_dropped (hmet : Grant hash Met s.db.grants) (hmem : hash ∉ cand.entries)
    (h : Commits c salt s (.publish cand now) s') : Grant hash Void s'.db.grants := by
  rw [grants_of_publish h]
  refine hmet.publication (fun gr hh hrow =>
    void_voidSuperseded_of_not_mem (met_markSeen hrow) ?_)
  rw [deviceHash_markSeen, hh]
  exact hmem

/-- A device with a grant that an accepted set carries and a later one does not, with no
seat taken or spent for it in between, has lost the grant in every later state: it is void,
and no admission rests on it. -/
theorem removal_voids_the_grant
    {before carried dropping after later : Store}
    {carrying removing : AccessSet}
    {carriedAt removedAt : Nat}
    {between afterwards : List Operation}
    (hrow : ∃ grant ∈ before.db.grants, grant.deviceHash = hash)
    (hcarry : Commits c salt before (.publish carrying carriedAt) carried)
    (hin : hash ∈ carrying.entries)
    (hbetween : Run (CommitsApart c salt hash) carried between dropping)
    (hremove : Commits c salt dropping (.publish removing removedAt) after)
    (hout : hash ∉ removing.entries)
    (hafter : Run (Commits c salt) after afterwards later) :
    Invite.grantIsVoided later.db.grants hash = true ∧
      ∀ now, admits later.db hash now ≠ .provisional := by
  have hmet : Grant hash Met dropping.db.grants :=
    Run.invariant (fun _ _ _ hmet hs => met_commits hmet hs) hbetween
      (met_of_carried hrow hin hcarry)
  have hvoid : Grant hash Void later.db.grants :=
    Run.invariant (fun _ _ _ hvoid hs => void_commits hvoid hs) hafter
      (void_of_dropped hmet hout hremove)
  refine ⟨hvoid.grantIsVoided, fun now => ?_⟩
  unfold admits
  rw [hvoid.not_live now]
  split
  · nofun
  · nofun

end Histories

/-! ## A device that comes back -/

section Sample

/-- An invite with two seats, in a workspace without a set. -/
def sampleWorkspace : Store where
  db :=
    { sets := [], entries := [], principals := [], quorums := [], probations := [],
      rotations := [], grants := [], pushHandles := [], genesis := none, reservations := [],
      invites := [{ token := id16 1, uses := 2, expiresAt := 5000000, bootstrap := false,
                    state := .live, remaining := 2 }]
      handoff := none, log := [] }
  tombstones := []
  bundles := []
  scopes := []
  scopeCommits := []

/-- The device of the samples takes a seat. -/
def sampleReserve (nonce : Bytes) : Operation :=
  .call (.reserve ⟨id16 1, nonce, sampleEntry 3, 0, true⟩)

/-- The first set carries the device. -/
def sampleCarrying : AccessSet := sampleSet none [1] [10] [sampleEntry 3] none [] 1

/-- The second set does not. -/
def sampleRemoving : AccessSet := sampleSet (some sampleCarrying) [1] [10] [] none [] 1

def samplePerform (s : Store) (operation : Operation) : Option Store :=
  perform sampleCrypto sampleSalt 6 s operation

theorem commits_of_samplePerform {s s' op}
    (h : samplePerform s op = some s') : Commits sampleCrypto sampleSalt s op s' :=
  ⟨6, h⟩

/-- The device takes the second seat after a set carried it, and keeps its grant when the
next set drops it. -/
theorem second_seat_outlives_removal : ∃ before carried seated after,
      (∃ grant ∈ before.db.grants, grant.deviceHash = sampleEntry 3) ∧
      Commits sampleCrypto sampleSalt before (.publish sampleCarrying 1) carried ∧
      sampleEntry 3 ∈ sampleCarrying.entries ∧
      Commits sampleCrypto sampleSalt carried (sampleReserve (id16 11)) seated ∧
      Commits sampleCrypto sampleSalt seated (.publish sampleRemoving 2) after ∧
      sampleEntry 3 ∉ sampleRemoving.entries ∧
      Invite.grantIsVoided after.db.grants (sampleEntry 3) = false ∧
      admits after.db (sampleEntry 3) 0 = .provisional := by
  have hperform : ((samplePerform sampleWorkspace (sampleReserve (id16 10))).bind (fun before =>
      (samplePerform before (.publish sampleCarrying 1)).bind (fun carried =>
        (samplePerform carried (sampleReserve (id16 11))).bind (fun seated =>
          (samplePerform seated (.publish sampleRemoving 2)).map (fun after =>
            (before.db.grants.map (·.deviceHash),
              Invite.grantIsVoided after.db.grants (sampleEntry 3),
              admits after.db (sampleEntry 3) 0)))))) =
      some ([sampleEntry 3], false, .provisional) := by
    decide +kernel
  obtain ⟨before, -, hperform⟩ := Option.bind_eq_some_iff.mp hperform
  obtain ⟨carried, hcarried, hperform⟩ := Option.bind_eq_some_iff.mp hperform
  obtain ⟨seated, hseated, hperform⟩ := Option.bind_eq_some_iff.mp hperform
  obtain ⟨after, ha, hend⟩ := Option.map_eq_some_iff.mp hperform
  obtain ⟨hdevices, hend⟩ := Prod.mk.inj hend
  obtain ⟨hvoided, hadmits⟩ := Prod.mk.inj hend
  have hrow : ∃ grant ∈ before.db.grants, grant.deviceHash = sampleEntry 3 :=
    mem_map.mp (hdevices ▸ mem_singleton_self _)
  exact ⟨before, carried, seated, after, hrow, commits_of_samplePerform hcarried,
    by decide +kernel, commits_of_samplePerform hseated, commits_of_samplePerform ha,
    by decide +kernel, hvoided, hadmits⟩

/-- Without the second seat the device loses its grant, and a seat taken later does not
bring it back. -/
theorem removed_device_stays_out : ∃ before carried after later,
      Commits sampleCrypto sampleSalt before (.publish sampleCarrying 1) carried ∧
      Commits sampleCrypto sampleSalt carried (.publish sampleRemoving 2) after ∧
      Commits sampleCrypto sampleSalt after (sampleReserve (id16 11)) later ∧
      Invite.grantIsVoided later.db.grants (sampleEntry 3) = true ∧
      ∀ now, admits later.db (sampleEntry 3) now ≠ .provisional := by
  have hperform : ((samplePerform sampleWorkspace (sampleReserve (id16 10))).bind (fun before =>
      (samplePerform before (.publish sampleCarrying 1)).bind (fun carried =>
        (samplePerform carried (.publish sampleRemoving 2)).bind (fun after =>
          (samplePerform after (sampleReserve (id16 11))).map (fun _ =>
            before.db.grants.map (·.deviceHash)))))) = some [sampleEntry 3] := by
    decide +kernel
  obtain ⟨before, -, hperform⟩ := Option.bind_eq_some_iff.mp hperform
  obtain ⟨carried, hcarried, hperform⟩ := Option.bind_eq_some_iff.mp hperform
  obtain ⟨after, ha, hperform⟩ := Option.bind_eq_some_iff.mp hperform
  obtain ⟨later, hlater, hdevices⟩ := Option.map_eq_some_iff.mp hperform
  have hrow : ∃ grant ∈ before.db.grants, grant.deviceHash = sampleEntry 3 :=
    mem_map.mp (hdevices ▸ mem_singleton_self _)
  have hcarry := commits_of_samplePerform hcarried
  have hremove := commits_of_samplePerform ha
  have hreturn := commits_of_samplePerform hlater
  obtain ⟨hvoided, hadmits⟩ := removal_voids_the_grant hrow hcarry (by decide +kernel)
    (.nil carried) hremove (by decide +kernel) (.cons hreturn (.nil later))
  exact ⟨before, carried, after, later, hcarry, hremove, hreturn, hvoided, hadmits⟩

end Sample

end WealdRelay.Grants
