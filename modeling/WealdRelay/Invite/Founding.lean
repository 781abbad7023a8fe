import WealdRelay.Invite.Genesis

/-!
# One bootstrap invite, and the end of the genesis key

A bootstrap invite is committed together with the genesis row that names it, and a
workspace has one genesis row; so there is never a second bootstrap invite, live or not.

The genesis set is the version 0 set whose one authorizer is the device that holds the
bootstrap seat. Its transaction destroys the secret and spends the invite, and nothing
brings either back. Any other set leaves both as they are, and that includes a version 0
set of another device, which the last section runs.
-/

namespace WealdRelay.Invite.Genesis

open Lib Access List

/-- The live bootstrap invites of a workspace. -/
def liveBootstraps (db : Db) : List InviteRow :=
  db.invites.filter (fun invite => invite.bootstrap && decide (invite.state = .live))

/-- The genesis key is there without its secret, and its invite is not live. -/
structure Redeemed (db : Db) : Prop where
  secret : db.genesis.map (·.secretKey) = some none
  invite : liveBootstraps db = []

/-- Tokens are unique, and a bootstrap invite is the one its genesis row names. -/
structure Founded (db : Db) : Prop where
  tokens : (db.invites.map InviteRow.token).Nodup
  bootstrap : ∀ invite ∈ db.invites, invite.bootstrap = true →
    ∃ genesis, db.genesis = some genesis ∧ genesis.token = invite.token

/-- What each phase may rely on: a mint that found no genesis row, and a seat whose key
was unspent when it was locked. -/
def Relies (s : Store) : Phase → Prop
  | .commitMint _ mint =>
    s.db.genesis = none ∧ mint.token ∉ s.db.invites.map InviteRow.token
  | .retire _ _ seat | .commitGenesis _ _ seat =>
    s.db.genesis = some seat.genesis ∧ seat.genesis.secretKey ≠ none ∧
      seat.reservation.token = seat.genesis.token
  | _ => True

/-! ## What the commits do to the invites -/

/-- No row comes or goes, and none becomes live or a bootstrap invite. -/
def Fades (invites invites' : List InviteRow) : Prop :=
  ∃ f : InviteRow → InviteRow, invites' = invites.map f ∧
    ∀ invite, (f invite).token = invite.token ∧ (f invite).bootstrap = invite.bootstrap ∧
      ((f invite).state = .live → invite.state = .live)

section Fading

variable {invites invites' : List InviteRow} {tok : Bytes}

theorem Fades.refl (invites : List InviteRow) : Fades invites invites :=
  ⟨id, (map_id invites).symm, fun _ => ⟨rfl, rfl, id⟩⟩

theorem Fades.tokens (h : Fades invites invites') :
    invites'.map InviteRow.token = invites.map InviteRow.token := by
  obtain ⟨f, rfl, hf⟩ := h
  rw [map_map]
  exact map_congr_left fun inv _ => (hf inv).1

theorem Fades.mem (h : Fades invites invites') {invite'} (hmem : invite' ∈ invites') :
    ∃ inv ∈ invites, invite'.token = inv.token ∧ invite'.bootstrap = inv.bootstrap ∧
      (invite'.state = .live → inv.state = .live) := by
  obtain ⟨f, rfl, hf⟩ := h
  obtain ⟨inv, hinv, rfl⟩ := mem_map.mp hmem
  exact ⟨inv, hinv, hf inv⟩

theorem fades_modify {f : InviteRow → InviteRow} (hf : ∀ inv, (f inv).token = inv.token ∧
      (f inv).bootstrap = inv.bootstrap ∧
      ((f inv).state = .live → inv.state = .live)) :
    Fades invites (Table.modify InviteRow.token invites tok f) := by
  refine ⟨fun inv => if inv.token = tok then f inv else inv, rfl, ?_⟩
  intro inv
  dsimp only
  split
  · exact hf inv
  · exact ⟨rfl, rfl, id⟩

/-- A join takes seats, gives them back, and ends invites. -/
theorem fades_of_commits {c : Crypto} {t t' : Tables} {a : Invite.Phase}
    (h : a.commits c t = some t') : Fades t.invites t'.invites := by
  cases commit_of_commits h with
  | seat q exp =>
    exact fades_modify fun _ => ⟨rfl, rfl, id⟩
  | consume k exh =>
    show Fades t.invites (if decide (exh = some true) then _ else _)
    split
    · exact fades_modify fun _ => ⟨rfl, rfl, fun hl => InviteState.noConfusion hl⟩
    · exact .refl _
  | release now cs =>
    refine ⟨_, rfl, fun inv => ?_⟩
    split
    · exact ⟨rfl, rfl, id⟩
    · exact ⟨rfl, rfl, id⟩
  | ending e closed voided =>
    exact fades_modify (fun _ =>
      ⟨rfl, rfl, fun hl => absurd hl e.terminal.state_ne_live⟩)
  | extend | record =>
    exact .refl _

/-- The genesis set ends the invite of its seat. -/
theorem fades_afterRetire (c : Crypto) (db : Db) (seat : Seat) :
    Fades db.invites (afterRetire c db seat).invites := by
  refine ⟨_, rfl, fun inv => ?_⟩
  split
  · exact ⟨rfl, rfl, fun hl => InviteState.noConfusion hl⟩
  · exact ⟨rfl, rfl, id⟩

end Fading

section Founded

variable {db db' : Db}

/-- Rows that only fade keep the invariant while the genesis row keeps its token. -/
theorem Founded.of_fades (h : Founded db) (hfades : Fades db.invites db'.invites)
    (hgenesis : ∀ genesis, db.genesis = some genesis →
      ∃ genesis', db'.genesis = some genesis' ∧ genesis'.token = genesis.token) : Founded db' where
  tokens := by
    rw [hfades.tokens]
    exact h.tokens
  bootstrap := by
    intro invite' hmem hboot
    obtain ⟨inv, hinv, htok, heq, -⟩ := hfades.mem hmem
    obtain ⟨genesis, hg, hnamed⟩ := h.bootstrap inv hinv (heq ▸ hboot)
    obtain ⟨genesis', hg', hk⟩ := hgenesis genesis hg
    exact ⟨genesis', hg', hk.trans (hnamed.trans htok.symm)⟩

/-- A mint that finds no genesis row adds the first bootstrap invite. -/
theorem founded_afterMint (h : Founded db) {issuedAt mint}
    (hnone : db.genesis = none) (hfresh : mint.token ∉ db.invites.map InviteRow.token) :
    Founded (afterMint db issuedAt mint) where
  tokens := by
    show (List.map InviteRow.token (db.invites ++ [_])).Nodup
    rw [map_append, map_singleton]
    exact .append h.tokens (nodup_singleton _) (by simpa using hfresh)
  bootstrap := by
    intro inv hmem hboot
    rcases mem_snoc.mp hmem with hold | rfl
    · obtain ⟨genesis, hsome, -⟩ := h.bootstrap inv hold hboot
      rw [hnone] at hsome
      cases hsome
    · exact ⟨_, rfl, rfl⟩

/-- There are never two live bootstrap invites. -/
theorem Founded.live_le_one (h : Founded db) : (liveBootstraps db).length ≤ 1 := by
  have hnd : ((liveBootstraps db).map InviteRow.token).Nodup :=
    h.tokens.sublist (filter_sublist.map _)
  have hnamed : ∀ inv ∈ liveBootstraps db, db.genesis.map (·.token) = some inv.token := by
    intro inv hinv
    obtain ⟨hrow, hl⟩ := mem_filter.mp hinv
    obtain ⟨genesis, hg, htok⟩ := h.bootstrap inv hrow (by simp_all)
    rw [hg, Option.map_some, htok]
  match hlist : liveBootstraps db with
  | [] => exact Nat.zero_le 1
  | [_] => exact le_rfl
  | first :: second :: rest =>
    rw [hlist] at hnd hnamed
    have hfirst := hnamed first (by simp)
    have hsecond := hnamed second (by simp)
    have htok : first.token = second.token :=
      Option.some.inj (hfirst.symm.trans hsecond)
    simp [htok] at hnd

end Founded

/-! ## What a turn does to the key and its invite -/

section Turns

variable {c : Crypto} {salt : Bytes} {i : Action} {s s' : Store} {a a' b : Phase} {now : Nat}
variable {db : Db}

/-- The genesis row stays as it is and the invites only fade. -/
structure Leaves (db db' : Db) : Prop where
  genesis : db'.genesis = db.genesis
  invites : Fades db.invites db'.invites

/-- Only the commit of a mint and that of a genesis set do more than fade invites. -/
theorem act_effect (h : act c salt i s a = some (s', a')) : Leaves s.db s'.db ∨
      (∃ issuedAt mint, a = .commitMint issuedAt mint ∧ s'.db = afterMint s.db issuedAt mint) ∨
      ∃ p ts seat, a = .commitGenesis p ts seat ∧
        s'.db = afterRetire c (afterSet c s.db p ts) seat := by
  rcases act_cases h with ⟨j, b, t, b', -, -, hjoin, rfl, -⟩ | ⟨rfl, -⟩ | ⟨now, -, hstmt⟩
  · refine .inl ⟨rfl, ?_⟩
    rcases act_tables hjoin with rfl | ⟨-, hcomm⟩
    · exact .refl _
    · exact fades_of_commits hcomm
  · exact .inl ⟨rfl, .refl _⟩
  · have hstore := statement_store hstmt
    cases a with
    | commitMint issuedAt mint =>
      subst hstore
      exact .inr (.inl ⟨issuedAt, mint, rfl, rfl⟩)
    | commitGenesis p ts seat =>
      subst hstore
      exact .inr (.inr ⟨p, ts, seat, rfl, rfl⟩)
    | join | read | insert | ensured | vanished | publish | inserted | marked | seatsRead
    | retire | commitSet =>
      subst hstore
      exact .inl ⟨rfl, .refl _⟩

/-- A seat that was locked belongs to the genesis row, whose secret was there. -/
theorem seatFound_some {cs genesis reservation}
    (h : seatFound db cs = some (genesis, reservation)) :
    db.genesis = some genesis ∧ genesis.secretKey ≠ none ∧ reservation.token = genesis.token := by
  unfold seatFound at h
  split at h
  · cases h
  next held hgenesis =>
    split at h
    · cases h
    next hsecret =>
      obtain ⟨row, hfind, heq⟩ := Option.map_eq_some_iff.mp h
      obtain ⟨rfl, rfl⟩ := Prod.mk.inj heq
      have hrow := find?_some hfind
      simp only [Bool.and_eq_true, decide_eq_true_eq] at hrow
      exact ⟨hgenesis, hsecret, hrow.1.2⟩

/-- After its statement a process may rely on what its new phase says. -/
theorem relies_statement (h : Relies s a) (hstmt : statement c salt now s a = some (s', a')) :
    Relies s' a' := by
  cases a with
  | join | ensured | vanished => cases hstmt
  | read issuedAt mint attempted =>
    cases hstmt
    unfold readGenesis
    split
    · trivial
    · split <;> trivial
  | insert issuedAt mint =>
    cases hstmt
    unfold insertGenesis
    split
    · trivial
    next hunused =>
      split
      · trivial
      next hnone =>
        refine ⟨hnone, fun hmem => hunused ?_⟩
        obtain ⟨inv, hinv, htok⟩ := mem_map.mp hmem
        exact any_eq_true.mpr ⟨inv, hinv, decide_eq_true htok⟩
  | publish b =>
    cases b with
    | idle | stored | refused => cases hstmt
    | commit cand prior prs recent =>
      cases hstmt
      unfold insertSet
      split
      · trivial
      · split_ifs <;> trivial
    | readHead | readEntries | readPrincipals | readQuorum | readProbations
    | readRotations =>
      cases hstmt
      trivial
  | marked p ts =>
    cases hstmt
    unfold readSeats
    split
    · trivial
    · split <;> trivial
  | seatsRead p ts trustRoot cs =>
    cases hstmt
    unfold lockSeat
    split
    · trivial
    next genesis reservation hf =>
      split
      · trivial
      · exact seatFound_some hf
  | retire p ts seat =>
    simp only [statement] at hstmt
    split at hstmt
    · cases hstmt
      trivial
    · cases hstmt
      exact h
  | inserted | commitMint | commitSet | commitGenesis =>
    cases hstmt
    trivial

/-- A phase that relies on anything holds the genesis row. -/
theorem relies_or_mem_locks (c : Crypto) (a : Phase) :
    (∀ s, Relies s a) ∨ Row.genesis ∈ locks c a := by
  cases a with
  | commitMint | retire | commitGenesis =>
    refine .inr ?_
    simp [locks, Seat.rows]
  | join | read | insert | ensured | vanished | publish | inserted | marked | seatsRead
  | commitSet => exact .inl (fun _ => trivial)

theorem relies_of_locks_nil (h : locks c a = []) : Relies s a := by
  rcases relies_or_mem_locks c a with hrel | hmem
  · exact hrel s
  · rw [h] at hmem
    cases hmem

theorem Relies.of_leaves (h : Relies s a) (hleaves : Leaves s.db s'.db) : Relies s' a := by
  cases a with
  | commitMint issuedAt mint =>
    show s'.db.genesis = none ∧ mint.token ∉ s'.db.invites.map InviteRow.token
    rw [hleaves.genesis, hleaves.invites.tokens]
    exact h
  | retire p ts seat | commitGenesis p ts seat =>
    show s'.db.genesis = some seat.genesis ∧ _
    rw [hleaves.genesis]
    exact h
  | join | read | insert | ensured | vanished | publish | inserted | marked | seatsRead
  | commitSet => trivial

theorem relies_act (h : Relies s a) (hact : act c salt i s a = some (s', a')) : Relies s' a' := by
  rcases act_cases hact with ⟨j, b, t, b', -, -, -, -, rfl⟩ | ⟨-, hnil⟩ | ⟨now, -, hstmt⟩
  · trivial
  · exact relies_of_locks_nil hnil
  · exact relies_statement h hstmt

/-- A turn keeps what another process relies on, because the genesis row has one
holder. -/
theorem relies_beside (h : Relies s b) (hheld : ∀ row ∈ locks c a, row ∉ locks c b)
    (hact : act c salt i s a = some (s', a')) : Relies s' b := by
  have hwriter : .genesis ∈ locks c a → Relies s' b := by
    intro hmine
    rcases relies_or_mem_locks c b with hrel | htheirs
    · exact hrel s'
    · exact absurd htheirs (hheld _ hmine)
  rcases act_effect hact with hleaves | ⟨issuedAt, mint, rfl, -⟩ | ⟨p, ts, seat, rfl, -⟩
  · exact h.of_leaves hleaves
  · exact hwriter (by simp [locks])
  · exact hwriter (by simp [locks, Seat.rows])

theorem founded_act (hfounded : Founded s.db) (h : Relies s a)
    (hact : act c salt i s a = some (s', a')) : Founded s'.db := by
  rcases act_effect hact with hleaves | ⟨issuedAt, mint, rfl, hdb⟩ | ⟨p, ts, seat, rfl, hdb⟩
  · refine hfounded.of_fades hleaves.invites fun genesis hgenesis => ?_
    exact ⟨genesis, hleaves.genesis.trans hgenesis, rfl⟩
  · rw [hdb]
    exact founded_afterMint hfounded h.1 h.2
  · rw [hdb]
    refine hfounded.of_fades (fades_afterRetire c (afterSet c s.db p ts) seat) ?_
    intro genesis hgenesis
    obtain rfl : seat.genesis = genesis := Option.some.inj (h.1.symm.trans hgenesis)
    exact ⟨_, rfl, rfl⟩

theorem redeemed_act (hredeemed : Redeemed s.db) (h : Relies s a)
    (hact : act c salt i s a = some (s', a')) : Redeemed s'.db := by
  have hsecret := hredeemed.secret
  rcases act_effect hact with hleaves | ⟨issuedAt, mint, rfl, -⟩ | ⟨p, ts, seat, rfl, -⟩
  · constructor
    · rw [hleaves.genesis]
      exact hsecret
    · refine filter_eq_nil_iff.mpr fun invite' hmem hl => ?_
      obtain ⟨inv, hinv, -, heq, hstate⟩ := hleaves.invites.mem hmem
      refine filter_eq_nil_iff.mp hredeemed.invite inv hinv ?_
      simp_all
  · rw [h.1] at hsecret
    cases hsecret
  · rw [h.1] at hsecret
    exact absurd (Option.some.inj hsecret) h.2.1

theorem redeemed_afterRetire {p ts seat}
    (hfounded : Founded s.db) (h : Relies s (.commitGenesis p ts seat)) :
    Redeemed (afterRetire c (afterSet c s.db p ts) seat) where
  secret := rfl
  invite := by
    refine filter_eq_nil_iff.mpr fun invite' hmem hl => ?_
    obtain ⟨inv, hinv, rfl⟩ := mem_map.mp hmem
    obtain ⟨hgenesis, -, hseat⟩ := h
    simp only [Bool.and_eq_true, decide_eq_true_eq] at hl
    obtain ⟨hboot, hstate⟩ := hl
    split at hstate
    · cases hstate
    next htok =>
      rw [if_neg htok] at hboot
      obtain ⟨genesis, hg, hnamed⟩ := hfounded.bootstrap inv hinv hboot
      obtain rfl : seat.genesis = genesis := Option.some.inj (hgenesis.symm.trans hg)
      exact htok (hnamed.symm.trans hseat.symm)

end Turns

/-! ## Whole runs -/

section Runs

variable {π : Type} [DecidableEq π] {c : Crypto} {salt : Bytes} {p : π}
variable {w w' start : World π Store Phase} {labels : List (π × Action)}

/-- The invariant of every run. -/
abbrev Sound (c : Crypto) (salt : Bytes) (w : World π Store Phase) : Prop :=
  (machine c salt).Holds (fun s => Founded s.db) Relies (fun _ _ => True) w

theorem Sound.step {label} (h : Sound c salt w)
    (hs : (machine c salt).Step w label w') : Sound c salt w' := by
  refine Machine.Holds.step (fun _ _ _ => trivial) ?_ ?_ h hs.under
  · intro i s a s' a' hfounded hrel hact
    exact ⟨founded_act hfounded hrel hact, relies_act hrel hact⟩
  · intro i s a s' a' b hbeside hact
    exact ⟨relies_beside hbeside.other hbeside.held hact, trivial⟩

theorem Sound.run (h : Sound c salt w) (hrun : Run (machine c salt).Step w labels w') :
    Sound c salt w' :=
  Run.invariant (fun _ _ _ hs hstep => step hs hstep) hrun h

/-- No call is under way, and the rows are in order. -/
structure Begins (w : World π Store Phase) : Prop where
  founded : Founded w.store.db
  idle : ∀ p, w.phase p = .join .idle

omit [DecidableEq π] in
theorem Begins.sound (h : Begins w) : Sound c salt w :=
  .of_idle h.idle rfl h.founded trivial trivial

/-- The process is about to end the key, or has been refused, or the key is redeemed. -/
def Closing (p : π) (w : World π Store Phase) : Prop :=
  (∃ q touched seat, w.phase p = .retire q touched seat ∨
      w.phase p = .commitGenesis q touched seat) ∨
    (∃ error, w.phase p = .publish (.refused error)) ∨ Redeemed w.store.db

theorem Closing.step {label} (h : Closing p w) (hsound : Sound c salt w)
    (hs : (machine c salt).Step w label w') : Closing p w' := by
  obtain ⟨s', a', hact, -, rfl⟩ := hs
  obtain ⟨q, i⟩ := label
  by_cases hq : p = q
  · subst hq
    rcases h with ⟨pub, ts, seat, hretire | hcomm⟩ | ⟨error, hrefused⟩ | hredeemed
    · rw [hretire] at hact
      cases i with
      | join | ensure | publish => cases hact
      | turn now =>
        simp only [machine, act, statement] at hact
        split at hact
        · obtain ⟨-, rfl⟩ := by simpa using hact
          exact .inr (.inl ⟨_, World.move_phase_self w p s' _⟩)
        · obtain ⟨-, rfl⟩ := by simpa using hact
          exact .inl ⟨pub, ts, seat, .inr (World.move_phase_self w p s' _)⟩
      | fail =>
        obtain ⟨-, rfl⟩ := by simpa [machine, act, Phase.failed] using hact
        exact .inr (.inl ⟨_, World.move_phase_self w p s' _⟩)
    · rw [hcomm] at hact
      cases i with
      | join | ensure | publish => cases hact
      | turn now =>
        cases hact
        have hrel := hsound.phase p
        rw [hcomm] at hrel
        exact .inr (.inr (redeemed_afterRetire hsound.store hrel))
      | fail =>
        obtain ⟨-, rfl⟩ := by simpa [machine, act, Phase.failed] using hact
        exact .inr (.inl ⟨_, World.move_phase_self w p s' _⟩)
    · rw [hrefused] at hact
      cases i <;> cases hact
    · exact .inr (.inr (redeemed_act hredeemed (hsound.phase p) hact))
  · rcases h with ⟨pub, ts, seat, hphase⟩ | ⟨error, hrefused⟩ | hredeemed
    · refine .inl ⟨pub, ts, seat, ?_⟩
      rw [World.move_phase_of_ne w hq]
      exact hphase
    · refine .inr (.inl ⟨error, ?_⟩)
      rw [World.move_phase_of_ne w hq]
      exact hrefused
    · exact .inr (.inr (redeemed_act hredeemed (hsound.phase q) hact))

theorem Closing.run (h : Closing p w) (hsound : Sound c salt w)
    (hrun : Run (machine c salt).Step w labels w') : Sound c salt w' ∧ Closing p w' :=
  Run.invariant (fun _ _ _ hv hs => ⟨hv.1.step hs, hv.2.step hv.1 hs⟩) hrun ⟨hsound, h⟩

theorem Redeemed.run (h : Redeemed w.store.db) (hsound : Sound c salt w)
    (hrun : Run (machine c salt).Step w labels w') : Redeemed w'.store.db := by
  have hboth : Sound c salt w' ∧ Redeemed w'.store.db := by
    refine Run.invariant ?_ hrun ⟨hsound, h⟩
    rintro v ⟨q, i⟩ v' ⟨hv, hredeemed⟩ hs
    refine ⟨hv.step hs, ?_⟩
    obtain ⟨s', a', hact, -, rfl⟩ := hs
    exact redeemed_act hredeemed (hv.phase q) hact
  exact hboth.2

/-- The genesis set: version 0, one authorizer, and the seat that the process is about to
lock is held for that device. -/
def genesisSet (c : Crypto) (salt : Bytes) (s : Store) : Phase → Option Judgement
  | .seatsRead q _ trustRoot candidates =>
    match seatFound s.db candidates with
    | some (_, reservation) =>
      if q.candidate.version = 0 ∧ q.candidate.authorizers = [trustRoot] ∧
          entryHash c trustRoot salt = reservation.deviceHash then
        some q.judgement
      else none
    | none => none
  | _ => none

/-- The seat of a genesis set is locked to be retired. -/
theorem lockSeat_of_genesisSet {s a judgement}
    (h : genesisSet c salt s a = some judgement) (now : Nat) :
    ∃ q ts seat, statement c salt now s a = some (s, .retire q ts seat) := by
  unfold genesisSet at h
  split at h
  next q ts trustRoot cs =>
    split at h
    next genesis reservation hf =>
      split at h
      next hgenesis =>
        refine ⟨q, ts, ⟨trustRoot, genesis, reservation⟩, ?_⟩
        have hlock : lockSeat c salt s.db q ts trustRoot cs =
            .retire q ts ⟨trustRoot, genesis, reservation⟩ := by
          rw [lockSeat, hf]
          exact if_neg (not_not_intro hgenesis.2.2)
        rw [statement, hlock]
      · cases h
    · cases h
  · cases h

/-- Process `p` has stored the genesis set in a run that began at `start`. -/
def StoredGenesis (c : Crypto) (salt : Bytes) (start : World π Store Phase) (p : π)
    (accepted : World π Store Phase) : Prop :=
  ∃ before reading now locked between judgement, Run (machine c salt).Step start before reading ∧
      genesisSet c salt reading.store (reading.phase p) = some judgement ∧
      (machine c salt).Step reading (p, .turn now) locked ∧
      Run (machine c salt).Step locked between accepted ∧
      accepted.phase p = .publish (.stored judgement)

/-- Once the genesis set is stored its key has no secret and its invite is not live, in
every later state; and at no time is there a second live bootstrap invite. -/
theorem genesis_key_ends_with_its_set (hstart : Begins start) :
    (∀ labels w, Run (machine c salt).Step start labels w →
        (liveBootstraps w.store.db).length ≤ 1) ∧
      ∀ p accepted labels later, StoredGenesis c salt start p accepted →
        Run (machine c salt).Step accepted labels later → Redeemed later.store.db := by
  constructor
  · intro labels w hrun
    exact (Sound.run hstart.sound hrun).store.live_le_one
  · rintro p accepted labels later
      ⟨before, reading, now, locked, between, judgement, hb, hset, hlocks, hbetween,
        hstored⟩ ha
    have hsound : Sound c salt reading := .run hstart.sound hb
    have hlocked : Closing p locked := by
      obtain ⟨s', a', hact, -, rfl⟩ := hlocks
      obtain ⟨q, touched, seat, hretire⟩ := lockSeat_of_genesisSet hset now
      cases hretire.symm.trans hact
      exact .inl ⟨q, touched, seat, .inl (World.move_phase_self _ _ _ _)⟩
    obtain ⟨hsound', hclosing⟩ := hlocked.run (hsound.step hlocks) hbetween
    have hredeemed : Redeemed accepted.store.db := by
      rcases hclosing with ⟨_, _, _, hphase | hphase⟩ | ⟨_, hphase⟩ | hredeemed
      · simp [hstored] at hphase
      · simp [hstored] at hphase
      · simp [hstored] at hphase
      · exact hredeemed
    exact hredeemed.run hsound' ha

end Runs

/-! ## Two first sets -/

section Sample

def emptyDb : Db :=
  { sets := [], entries := [], principals := [], quorums := [], probations := [],
    rotations := [], grants := [], pushHandles := [], genesis := none, reservations := [],
    invites := [], handoff := none, log := [] }

/-- A workspace that nobody has minted a key for. -/
def emptyWorkspace : World Caller Store Phase :=
  ⟨⟨emptyDb, [], [], [], []⟩, fun _ => .join .idle⟩

theorem begins_emptyWorkspace : Begins emptyWorkspace where
  founded := ⟨nodup_nil, fun _ hmem => absurd hmem not_mem_nil⟩
  idle := fun _ => rfl

def sampleMint : Mint := ⟨id32 4, id32 5, id16 6⟩

/-- The relay mints, a device takes the seat, and device 1 publishes a first set, up to
the statement that locks the seat. -/
def sampleOpening (holder : Bytes) : List (Caller × Action) :=
  [(.first, .ensure 0 sampleMint)] ++ List.replicate 3 (.first, .turn 0) ++
  [(.second, .join (.reserve ⟨id16 6, id16 10, holder, 0, true⟩))] ++
    List.replicate 6 (.second, .join .turn) ++
  [(.third, .publish sampleGenesis)] ++ List.replicate 6 (.third, .turn 0)

def sampleExec (labels : List (Caller × Action)) (w : World Caller Store Phase) :
    Option (World Caller Store Phase) :=
  (machine sampleCrypto sampleSalt).exec (fun _ _ _ _ => True) w labels

/-- The seat is held for another device, so the first set of device 1 is stored and the
key keeps its secret and the invite its seat. -/
theorem first_set_of_another_device_leaves_the_key : ∃ labels w, Begins emptyWorkspace ∧
      Run (machine sampleCrypto sampleSalt).Step emptyWorkspace labels w ∧
      w.store.db.sets.map (·.version) = [0] ∧
      w.store.db.genesis.map (·.secretKey) = some (some (id32 4)) ∧
      (liveBootstraps w.store.db).map (·.token) = [id16 6] := by
  have hexec : (sampleExec (sampleOpening (id32 20) ++ [(.third, .turn 0), (.third, .turn 0)])
      emptyWorkspace).map (fun w =>
        (w.store.db.sets.map (·.version), w.store.db.genesis.map (·.secretKey),
          (liveBootstraps w.store.db).map (·.token))) =
        some ([0], some (some (id32 4)), [id16 6]) := by
    decide +kernel
  obtain ⟨w, hw, hend⟩ := Option.map_eq_some_iff.mp hexec
  obtain ⟨hsets, hend⟩ := Prod.mk.inj hend
  obtain ⟨hsecret, hl⟩ := Prod.mk.inj hend
  exact ⟨_, w, begins_emptyWorkspace, Machine.run_of_exec hw, hsets,
    hsecret, hl⟩

/-- The seat is held for device 1, so its first set redeems the key. -/
theorem first_set_of_the_holder_redeems :
    ∃ accepted, StoredGenesis sampleCrypto sampleSalt emptyWorkspace .third accepted ∧
      accepted.store.db.genesis.map (·.secretKey) = some none ∧
      liveBootstraps accepted.store.db = [] := by
  have hexec : ((sampleExec (sampleOpening (sampleEntry 1)) emptyWorkspace).bind
      (fun reading => (sampleExec [(.third, .turn 0)] reading).bind
        (fun locked => (sampleExec (List.replicate 2 (.third, .turn 0)) locked).map
          (fun accepted => decide
            ((genesisSet sampleCrypto sampleSalt reading.store (reading.phase .third)).map
              (fun judgement => Phase.publish (.stored judgement)) =
                some (accepted.phase .third)))))) = some true := by
    decide +kernel
  obtain ⟨reading, hreading, hexec⟩ := Option.bind_eq_some_iff.mp hexec
  obtain ⟨locked, hlocked, hexec⟩ := Option.bind_eq_some_iff.mp hexec
  obtain ⟨accepted, haccepted, hcheck⟩ := Option.map_eq_some_iff.mp hexec
  obtain ⟨judgement, hset, hphase⟩ := Option.map_eq_some_iff.mp (of_decide_eq_true hcheck)
  have hb := Machine.run_of_exec hreading
  have hs := (Machine.run_of_exec hlocked).single
  have hbetween := Machine.run_of_exec haccepted
  have hstored : StoredGenesis sampleCrypto sampleSalt emptyWorkspace .third accepted :=
    ⟨_, reading, 0, locked, _, judgement, hb, hset, hs, hbetween, hphase.symm⟩
  have hredeemed : Redeemed accepted.store.db :=
    (genesis_key_ends_with_its_set begins_emptyWorkspace).2 .third accepted [] accepted hstored
      (Run.nil accepted)
  exact ⟨accepted, hstored, hredeemed.secret, hredeemed.invite⟩

end Sample

end WealdRelay.Invite.Genesis
