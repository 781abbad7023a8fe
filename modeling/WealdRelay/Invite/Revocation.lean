import WealdRelay.Invite.Seats

/-!
# A revocation is final

The tombstone is written in the transaction that ends the invite, and no statement takes
it away. So everything is read off the tables that have it: the invite is closed
(`Sane.closed`), a process that is about to commit a seat, an extension or a consumption
of this invite would rely on what a closed invite does not have, and a join that starts
now is turned away by its first read.
-/

namespace WealdRelay.Invite

open Lib Access

/-- The reservations under one token. -/
def seatsOf (t : Tables) (token : Bytes) : List ReservationRow :=
  t.reservations.filter (fun row => row.token = token)

/-- The token a join names. -/
def Action.joins : Action → Option Bytes
  | .reserve q => some q.token
  | .scopeCommit q => some q.token
  | _ => none

/-- Is this a seat or a receipt? -/
def Answer.admits : Answer → Bool
  | .reserved _ | .receipt _ => true
  | _ => false

/-- A join of this token that has not been answered yet, or was turned away. -/
def TurnedAway (token : Bytes) : Phase → Prop
  | .fetch q => q.token = token
  | .judge q => q.token = token
  | .answered answer => answer.admits = false
  | _ => False

/-- Every reservation is still there, under its key and for its device. -/
def Persists (reservations reservations' : List ReservationRow) : Prop :=
  ∀ row ∈ reservations, ∃ row' ∈ reservations', reservationKey row' = reservationKey row ∧
    row'.deviceHash = row.deviceHash

section Commits

variable {c : Crypto} {t t' : Tables} {a a' : Phase} {tok : Bytes}
  {res : List ReservationRow} {f : ReservationRow → ReservationRow} {nonce : Bytes}

theorem Persists.map (hkey : ∀ row, reservationKey (f row) = reservationKey row)
    (hdev : ∀ row, (f row).deviceHash = row.deviceHash) : Persists res (res.map f) :=
  fun row hrow => ⟨f row, List.mem_map_of_mem hrow, hkey row, hdev row⟩

theorem persists_of_commits (h : a.commits c t = some t') :
    Persists t.reservations t'.reservations := by
  cases commit_of_commits h with
  | seat q exp =>
    exact fun row hrow => ⟨row, List.mem_append_left _ hrow, rfl, rfl⟩
  | record q judged =>
    exact fun row hrow => ⟨row, hrow, rfl, rfl⟩
  | extend | consume | release | ending =>
    refine .map (fun row => ?_) (fun row => ?_) <;> split <;> rfl

/-- A closed invite holds no seat that could be spent or extended. -/
theorem Closed.not_holdsSeat (h : Closed t tok) : ¬ HoldsSeat t tok nonce := by
  rintro ⟨row, hrow, hout⟩
  have htok : row.token = tok := congrArg Prod.fst (Table.key_of_lookup hrow)
  rw [h.seats row (Table.mem_of_lookup hrow) htok] at hout
  cases hout

theorem Closed.not_onSale (h : Closed t tok) : ¬ OnSale t tok := by
  rintro ⟨inv, hinv, hl, -⟩
  exact h.state inv hinv hl

theorem seatsOf_modify {key}
    (hkey : ∀ row, reservationKey (f row) = reservationKey row) (hne : key.1 ≠ tok) :
    (Table.modify reservationKey res key f).filter (·.token = tok) =
      res.filter (·.token = tok) := by
  refine Table.filter_map_of_fixed fun row _ => ?_
  by_cases h : reservationKey row = key
  · have hrow : row.token ≠ tok := fun htok => hne (h ▸ htok)
    have hf : (f row).token ≠ tok :=
      fun htok => hrow ((congrArg Prod.fst (hkey row)).symm.trans htok)
    simp [h, hrow, hf]
  · simp [h]

theorem seatsOf_release {hit : ReservationRow → Bool}
    (hmiss : ∀ row ∈ res, row.token = tok → hit row = false) :
    (release res hit).filter (·.token = tok) = res.filter (·.token = tok) := by
  refine Table.filter_map_of_fixed fun row hrow => ?_
  by_cases htok : row.token = tok
  · simp [hmiss row hrow htok]
  · cases hit row <;> simp [htok]

/-- A commit leaves the reservations of a closed invite as they are. -/
theorem seatsOf_of_commits (hclosed : Closed t tok) (ha : Relies t a)
    (h : a.commits c t = some t') : seatsOf t' tok = seatsOf t tok := by
  cases commit_of_commits h with
  | seat q exp =>
    have hne : q.token ≠ tok := by
      rintro rfl
      exact hclosed.not_onSale ha.1
    simp [seatsOf, afterSeat, List.filter_append, hne]
  | extend token' nonce hash exp moved =>
    have hne : token' ≠ tok := by
      rintro rfl
      exact hclosed.not_holdsSeat ha
    exact seatsOf_modify (fun _ => rfl) hne
  | record q judged =>
    rfl
  | consume k exh =>
    have hne : k.token ≠ tok := by
      rintro rfl
      exact hclosed.not_holdsSeat ha
    exact seatsOf_modify (fun _ => rfl) hne
  | release now cs =>
    refine seatsOf_release fun row hrow htok => Bool.eq_false_iff.mpr (fun hhit => ?_)
    have hout := outstanding_of_hits hhit
    rw [hclosed.seats row hrow htok] at hout
    cases hout
  | ending e closed voided =>
    refine seatsOf_release fun row hrow htok => decide_eq_false (fun hmem => ?_)
    have hout := ha.2.still row hrow hmem
    rw [hclosed.seats row hrow htok] at hout
    cases hout

theorem tombstoned_of_commits (htomb : tombstoned t.tombstones tok = true)
    (h : a.commits c t = some t') : tombstoned t'.tombstones tok = true := by
  cases commit_of_commits h with
  | seat | extend | record | consume | release =>
    exact htomb
  | ending e closed voided =>
    exact tombstoned_bury.mpr (.inr htomb)

/-! ## Joins that come too late -/

theorem turnedAway_fetched (hclosed : Closed t tok) {q} (hq : q.token = tok) :
    TurnedAway tok (fetched t q) := by
  unfold fetched
  split
  · rfl
  next inv hinv =>
    rw [if_pos (.inl (hclosed.state inv (hq ▸ hinv)))]
    rfl

theorem judgeCommit_of_tombstoned (htomb : tombstoned t.tombstones tok = true)
    {hash now} : judgeCommit t tok nonce hash now = none := by
  unfold judgeCommit
  split
  · split_ifs <;> rfl
  · rfl

theorem turnedAway_statement (hclosed : Closed t tok)
    (htomb : tombstoned t.tombstones tok = true) (ha : TurnedAway tok a)
    (h : statement c t a = some (t', a')) : TurnedAway tok a' := by
  cases a with
  | fetch q =>
    cases h
    exact turnedAway_fetched hclosed ha
  | judge q =>
    have hq : q.token = tok := ha
    simp only [statement, hq, judgeCommit_of_tombstoned htomb] at h
    cases h
    rfl
  | idle | answered => cases h
  | _ => cases ha

theorem turnedAway_act {i} (hclosed : Closed t tok)
    (htomb : tombstoned t.tombstones tok = true) (ha : TurnedAway tok a)
    (h : act c i t a = some (t', a')) : TurnedAway tok a' := by
  obtain ⟨-, rfl, -⟩ | ⟨-, -, rfl⟩ | ⟨-, hstmt⟩ := act_cases h
  · cases ha
  · rfl
  · exact turnedAway_statement hclosed htomb ha hstmt

end Commits

/-! ## Runs -/

section Runs

variable {c : Crypto} {π : Type} [DecidableEq π] {w w' v₁ v₂ v₃ v₄ : World π Tables Phase}
  {labels before between after : List (π × Action)} {token : Bytes} {p : π}

/-- Process `p` commits a revocation of this token. -/
def Revokes (c : Crypto) (w : World π Tables Phase) (p : π) (token : Bytes)
    (w' : World π Tables Phase) : Prop :=
  (∃ e closed voided, w.phase p = .voidGrants e closed voided [] ∧ e.token = token) ∧
    (machine c).Step w (p, .turn) w'

theorem Revokes.tombstoned (h : Revokes c w p token w') :
    tombstoned w'.store.tombstones token = true := by
  obtain ⟨⟨e, closed, voided, hphase, rfl⟩, s', a', hact, -, rfl⟩ := h
  have hstmt : statement c w.store (w.phase p) = some (s', a') := hact
  rw [hphase] at hstmt
  cases hstmt
  exact tombstoned_bury.mpr (.inl rfl)

/-- The invite was revoked. -/
structure Over (c : Crypto) (token : Bytes) (w : World π Tables Phase) : Prop where
  sound : Sound c w
  tombstoned : tombstoned w.store.tombstones token = true

omit [DecidableEq π] in
theorem Over.closed (h : Over c token w) : Closed w.store token :=
  h.sound.store.closed token h.tombstoned

variable {label : π × Action}

theorem Over.step (h : Over c token w) (hs : (machine c).Step w label w') :
    Over c token w' ∧ seatsOf w'.store token = seatsOf w.store token := by
  have hsound := h.sound.step hs
  obtain ⟨s', a', hact, -, rfl⟩ := hs
  rcases act_tables hact with heq | ⟨-, hcomm⟩
  · exact ⟨⟨hsound, by simpa [heq] using h.tombstoned⟩, by simp [heq]⟩
  · exact ⟨⟨hsound, tombstoned_of_commits h.tombstoned hcomm⟩,
      seatsOf_of_commits h.closed (h.sound.phase label.1) hcomm⟩

theorem Over.run (h : Over c token w) (hrun : Run (machine c).Step w labels w') :
    Over c token w' ∧ seatsOf w'.store token = seatsOf w.store token := by
  refine Run.invariant ?_ hrun ⟨h, rfl⟩
  rintro v label v' ⟨hover, heq⟩ hs
  obtain ⟨hover', hsame'⟩ := hover.step hs
  exact ⟨hover', hsame'.trans heq⟩

theorem Over.turnedAway (h : Over c token w) (hp : TurnedAway token (w.phase p))
    (hrun : Run (machine c).Step w labels w') : TurnedAway token (w'.phase p) := by
  refine (Run.invariant (I := fun v => Over c token v ∧ TurnedAway token (v.phase p)) ?_ hrun
    ⟨h, hp⟩).2
  rintro v ⟨q, i⟩ v' ⟨hover, haway⟩ hs
  refine ⟨(hover.step hs).1, ?_⟩
  obtain ⟨s', a', hact, -, rfl⟩ := hs
  by_cases hq : p = q
  · subst hq
    rw [World.move_phase_self]
    exact turnedAway_act hover.closed hover.tombstoned haway hact
  · rw [World.move_phase_of_ne v hq]
    exact haway

theorem persists_step (hs : (machine c).Step w label w') :
    Persists w.store.reservations w'.store.reservations := by
  obtain ⟨s', a', hact, -, rfl⟩ := hs
  rcases act_tables hact with heq | ⟨-, hcomm⟩
  · exact fun row hrow => ⟨row, by simpa [heq] using hrow, rfl, rfl⟩
  · exact persists_of_commits hcomm

theorem persists_run (hrun : Run (machine c).Step w labels w') :
    Persists w.store.reservations w'.store.reservations := by
  refine Run.invariant ?_ hrun fun row hrow => ⟨row, hrow, rfl, rfl⟩
  intro v label v' hpersists hs row hrow
  obtain ⟨row', hrow', hkey, hdev⟩ := hpersists row hrow
  obtain ⟨row'', hrow'', hkey', hdevice'⟩ := persists_step hs row' hrow'
  exact ⟨row'', hrow'', hkey'.trans hkey, hdevice'.trans hdev⟩

/-- A join starts where it can be turned away. -/
theorem turnedAway_of_joins {i} (hi : i.joins = some token)
    (hs : (machine c).Step w (p, i) w') : TurnedAway token (w'.phase p) := by
  obtain ⟨s', a', hact, -, rfl⟩ := hs
  rw [World.move_phase_self]
  obtain ⟨-, -, hstart⟩ | ⟨-, -, rfl⟩ | ⟨hturn, -⟩ := act_cases hact
  · cases i with
    | reserve q | scopeCommit q =>
      cases hstart
      exact Option.some.inj hi
    | extend | consume | releaseExpired | terminate | turn | fail => cases hi
  · rfl
  · obtain rfl : i = .turn := hturn
    cases hi

/-- After a revocation commits, every device that ever held a seat of the invite has its
grant voided for good, no reservation of the invite is created or changed, and no join
that starts gets a seat or a receipt. -/
theorem revocation_is_final
    (hfresh : Fresh w)
    (hbefore : Run (machine c).Step w before v₁)
    (hbetween : Run (machine c).Step v₁ between v₂)
    (hrevokes : Revokes c v₂ p token v₃)
    (hafter : Run (machine c).Step v₃ after v₄) :
    (∀ row ∈ v₁.store.reservations, row.token = token → ∀ grant ∈ v₄.store.grants,
        grant.deviceHash = row.deviceHash → grant.voided ≠ none) ∧
      seatsOf v₄.store token = seatsOf v₃.store token ∧
      ∀ q i, (q, i) ∈ after → i.joins = some token →
        ∀ answer, v₄.phase q = .answered answer → answer.admits = false := by
  have hover : Over c token v₃ :=
    ⟨((hfresh.sound.run hbefore).run hbetween).step hrevokes.2, hrevokes.tombstoned⟩
  obtain ⟨hover', hseats⟩ := hover.run hafter
  refine ⟨fun row hrow htok grant hgrant hdev => ?_, hseats, ?_⟩
  · have hlater : Run (machine c).Step v₁ (between ++ (p, .turn) :: after) v₄ :=
      hbetween.append (.cons hrevokes.2 hafter)
    obtain ⟨row', hrow', hkey, heq⟩ := persists_run hlater row hrow
    exact hover'.closed.grants row' hrow' ((congrArg Prod.fst hkey).trans htok) grant hgrant
      (hdev.trans heq.symm)
  · intro q i hlabel hi answer hanswer
    obtain ⟨_, _, v, v', -, hto, hs, hfrom⟩ := hafter.at_label hlabel
    have haway := ((hover.run hto).1.step hs).1.turnedAway (turnedAway_of_joins hi hs) hfrom
    rw [hanswer] at haway
    exact haway

end Runs

section Sample

/-- A device takes a seat. -/
def sampleJoin : List (Caller × Action) :=
  (.first, .reserve ⟨id16 1, id16 10, id32 20, 0, true⟩) :: List.replicate 6 (.first, .turn)

/-- A revocation, up to its commit. -/
def sampleRevocation : List (Caller × Action) :=
  (.second, .terminate (id16 1) .revoked) :: List.replicate 4 (.second, .turn)

/-- The same device asks again. -/
def sampleReturn : List (Caller × Action) :=
  [(.third, .reserve ⟨id16 1, id16 10, id32 20, 1000, true⟩), (.third, .turn)]

/-- Take these turns without a condition. -/
def sampleExec (labels : List (Caller × Action)) (w : World Caller Tables Phase) :
    Option (World Caller Tables Phase) :=
  (machine sampleCrypto).exec (fun _ _ _ _ => True) w labels

theorem run_of_sampleExec {labels w w'}
    (h : sampleExec labels w = some w') : Run (machine sampleCrypto).Step w labels w' :=
  Machine.run_of_exec h

theorem exec_sampleRevocation : ((sampleExec sampleJoin sampleStart).bind fun v₁ =>
      (sampleExec sampleRevocation v₁).bind fun v₂ =>
      (sampleExec [(.second, .turn)] v₂).bind fun v₃ =>
      (sampleExec sampleReturn v₃).map fun v₄ =>
        (seatsOf v₁.store (id16 1), v₂.phase .second, v₄.phase .third)) =
      some ([⟨id16 1, id16 10, id32 20, 600000, false, false, false⟩],
        .voidGrants ⟨id16 1, .revoked, [id32 20]⟩ [(id16 1, id16 10)] [id32 20] [],
        .answered .unavailable) := by
  decide +kernel

/-- The device that had taken a seat has no grant left and gets no seat back. -/
theorem sampleRevocation_final : ∃ v₁ v₄ : World Caller Tables Phase,
      seatsOf v₁.store (id16 1) = [⟨id16 1, id16 10, id32 20, 600000, false, false, false⟩] ∧
      v₄.phase .third = .answered .unavailable ∧
      ∀ grant ∈ v₄.store.grants, grant.deviceHash = id32 20 → grant.voided ≠ none := by
  obtain ⟨v₁, hjoin, h₁⟩ := Option.bind_eq_some_iff.mp exec_sampleRevocation
  obtain ⟨v₂, hrevoke, h₂⟩ := Option.bind_eq_some_iff.mp h₁
  obtain ⟨v₃, hcommit, h₃⟩ := Option.bind_eq_some_iff.mp h₂
  obtain ⟨v₄, hreturn, h₄⟩ := Option.map_eq_some_iff.mp h₃
  obtain ⟨hseats, hr⟩ := Prod.mk.inj h₄
  obtain ⟨hphase, hanswer⟩ := Prod.mk.inj hr
  have hs := (run_of_sampleExec hcommit).single
  have hfinal := revocation_is_final fresh_sampleStart (run_of_sampleExec hjoin)
    (run_of_sampleExec hrevoke) ⟨⟨_, _, _, hphase, rfl⟩, hs⟩ (run_of_sampleExec hreturn)
  have hrow : ⟨id16 1, id16 10, id32 20, 600000, false, false, false⟩ ∈ seatsOf v₁.store (id16 1) :=
    hseats ▸ List.mem_singleton.mpr rfl
  exact ⟨v₁, v₄, hseats, hanswer, hfinal.1 _ (List.mem_of_mem_filter hrow) rfl⟩

end Sample

end WealdRelay.Invite
