import WealdRelay.Invite.Seats

/-!
# The last seat and the end of the invite

`consume` ends the invite when no seat is left to sell and none is held unspent. It
decides the second half from the snapshot its statement takes, which does not have the
marks of transactions that are still open. Two joins that finish the last two seats at
once can both find the other's seat unspent, and the invite stays live with its bundles.

While no two of them are between their snapshot and their commit at once, the decision
is right: the one that commits last has seen all the others (`Sees`), so the tables never
have a fully redeemed invite that is live (`Ended`).
-/

namespace WealdRelay.Invite

open Lib Access List

/-- The invite whose exhaustion a process has judged and not yet committed. -/
def Phase.judging : Phase → Option Bytes
  | .surveyed k _ | .decided k _ => some k.token
  | _ => none

/-- The invite whose exhaustion a process judges next. -/
def Phase.surveying : Phase → Option Bytes
  | .survey k => some k.token
  | _ => none

/-- No process takes its snapshot of an invite that another one has judged and not yet
committed. -/
def TakesTurns (i : Action) (_ : Tables) (a b : Phase) : Prop :=
  i = .turn → a.surveying.isSome → b.judging ≠ a.surveying

instance (i : Action) (t : Tables) (a b : Phase) : Decidable (TakesTurns i t a b) :=
  inferInstanceAs (Decidable (i = .turn → a.surveying.isSome → b.judging ≠ a.surveying))

/-- Two processes have not both judged one invite. -/
def Apart (a b : Phase) : Prop := ∀ token, a.judging = some token → b.judging ≠ some token

/-- The invite is live, and one more spent seat is its last. -/
def LastSeat (t : Tables) (token : Bytes) : Prop :=
  ∃ invite, inviteOf t.invites token = some invite ∧ invite.state = .live ∧
    spentSeats t.reservations token + 1 = invite.uses

/-- Whoever spends the last seat knows it. -/
def Sees (t : Tables) : Phase → Prop
  | .surveyed k noneLeft => LastSeat t k.token → noneLeft = true
  | .decided k exhausted => LastSeat t k.token → exhausted = some true
  | _ => True

/-- A fully redeemed invite is over, and an invite that is over has no bundles. -/
structure Ended (t : Tables) : Prop where
  closes : ∀ token invite, inviteOf t.invites token = some invite →
    spentSeats t.reservations token = invite.uses → invite.state ≠ .live
  bare : ∀ token invite, inviteOf t.invites token = some invite → invite.state ≠ .live →
    ∀ bundle ∈ t.bundles, bundle.token ≠ token

/-! ## Counting spent seats -/

section Counts

variable {res : List ReservationRow} {tok nonce : Bytes} {token' : Bytes}
  {row : ReservationRow}

theorem spentSeats_markConsumed_self (hkeys : (res.map reservationKey).Nodup)
    (hrow : reservationOf res tok nonce = some row) (hout : outstanding row = true) :
    spentSeats (markConsumed res tok nonce) tok = spentSeats res tok + 1 := by
  have hkey : reservationKey row = (tok, nonce) := Table.key_of_lookup hrow
  have htok : row.token = tok := congrArg Prod.fst hkey
  simp only [outstanding, Bool.and_eq_true, Bool.not_eq_true'] at hout
  refine Table.countP_modify_succ _ hkeys (Table.mem_of_lookup hrow) hkey ?_ ?_
  · simp [hout.1]
  · simp [htok]

theorem spentSeats_markConsumed_of_ne (hne : token' ≠ tok) :
    spentSeats (markConsumed res token' nonce) tok = spentSeats res tok := by
  refine Table.countP_modify_of_eq _ fun row _ hkey => ?_
  have htok : row.token ≠ tok := fun h => hne ((congrArg Prod.fst hkey).symm.trans h)
  simp [htok]

theorem spentSeats_markExtended {exp} :
    spentSeats (markExtended res token' nonce exp) tok = spentSeats res tok :=
  Table.countP_modify_of_eq _ (fun _ _ _ => rfl)

theorem spentSeats_release {hit : ReservationRow → Bool} :
    spentSeats (release res hit) tok = spentSeats res tok := by
  rw [spentSeats, release, countP_map]
  refine countP_congr fun row _ => ?_
  cases h : hit row <;> simp [h]

theorem spentSeats_append (h : row.consumed = false) :
    spentSeats (res ++ [row]) tok = spentSeats res tok := by
  simp [spentSeats, countP_append, h]

/-- If every held seat is spent, none is outstanding. -/
theorem noneOutstanding_of_held_le
    (hapart : ∀ row ∈ res, ¬ (row.consumed = true ∧ row.released = true))
    (h : held res tok ≤ spentSeats res tok) : noneOutstanding res tok = true := by
  have hsplit : res.countP (fun row => decide (row.token = tok) && outstanding row) +
      spentSeats res tok = held res tok := by
    clear h
    induction res with
    | nil => rfl
    | cons row rows ih =>
      have hr := ih (fun x ho => hapart x (mem_cons_of_mem _ ho))
      have hrow := hapart row mem_cons_self
      simp only [spentSeats, held, countP_cons, outstanding] at hr ⊢
      cases hconsumed : row.consumed <;> cases hrel : row.released <;> simp_all <;> omega
  have hzero : res.countP (fun row => decide (row.token = tok) && outstanding row) = 0 := by omega
  refine all_eq_true.mpr fun row hrow => ?_
  have hnot := countP_eq_zero.mp hzero row hrow
  cases htok : decide (row.token = tok) <;> simp_all

end Counts

/-! ## Commits -/

/-- What a commit does to an invite that its process has not judged. -/
structure Steady (t t' : Tables) (token : Bytes) : Prop where
  spent : spentSeats t'.reservations token = spentSeats t.reservations token
  live : ∀ invite', inviteOf t'.invites token = some invite' → invite'.state = .live →
    ∃ invite, inviteOf t.invites token = some invite ∧ invite.state = .live ∧
      invite'.uses = invite.uses
  bare : ∀ invite', inviteOf t'.invites token = some invite' → invite'.state ≠ .live →
    (∀ bundle ∈ t'.bundles, bundle.token ≠ token) ∨
      (∃ invite, inviteOf t.invites token = some invite ∧ invite.state ≠ .live) ∧
        ∀ bundle ∈ t'.bundles, bundle ∈ t.bundles

section Commits

variable {c : Crypto} {t t' : Tables} {a a' b : Phase} {tok : Bytes}

variable (hspent : spentSeats t'.reservations tok = spentSeats t.reservations tok)
include hspent

/-- A change of the invites that leaves their states and their uses. -/
theorem Steady.of_map {f : InviteRow → InviteRow}
    (hinv : inviteOf t'.invites tok = (inviteOf t.invites tok).map f)
    (hstate : ∀ inv, (f inv).state = inv.state)
    (huses : ∀ inv, (f inv).uses = inv.uses) (hbundles : t'.bundles = t.bundles) :
    Steady t t' tok := by
  refine ⟨hspent, fun invite' hf hl => ?_, fun invite' hf hover => .inr ⟨?_, ?_⟩⟩
  · rw [hinv, Option.map_eq_some_iff] at hf
    obtain ⟨inv, hold, rfl⟩ := hf
    exact ⟨inv, hold, (hstate inv).symm.trans hl, huses inv⟩
  · rw [hinv, Option.map_eq_some_iff] at hf
    obtain ⟨inv, hold, rfl⟩ := hf
    exact ⟨inv, hold, fun h => hover ((hstate inv).trans h)⟩
  · exact fun bundle hbundle => hbundles ▸ hbundle

theorem Steady.of_eq (hinv : inviteOf t'.invites tok = inviteOf t.invites tok)
    (hbundles : ∀ bundle ∈ t'.bundles, bundle ∈ t.bundles) : Steady t t' tok :=
  ⟨hspent, fun inv hf hl => ⟨inv, hinv ▸ hf, hl, rfl⟩,
    fun inv hf hover => .inr ⟨⟨inv, hinv ▸ hf, hover⟩, hbundles⟩⟩

omit hspent

theorem mem_dropBundles {bundles bundle} :
    bundle ∈ dropBundles bundles tok ↔ bundle ∈ bundles ∧ bundle.token ≠ tok := by
  simp [dropBundles]

/-- A commit is steady about every invite its process has not judged. -/
theorem steady_of_commits (hne : a.judging ≠ some tok) (h : a.commits c t = some t') :
    Steady t t' tok := by
  cases commit_of_commits h with
  | seat q exp =>
    by_cases htok : tok = q.token
    · subst htok
      exact .of_map (spentSeats_append rfl) inviteOf_takeSeat_self (fun _ => rfl) (fun _ => rfl) rfl
    · exact .of_eq (spentSeats_append rfl) (inviteOf_takeSeat_of_ne htok) fun _ => id
  | extend token' nonce hash exp moved =>
    exact .of_eq spentSeats_markExtended rfl fun _ => id
  | record q judged =>
    exact .of_eq rfl rfl fun _ => id
  | consume k exh =>
    have htok : k.token ≠ tok := fun heq => hne (congrArg some heq)
    refine .of_eq (spentSeats_markConsumed_of_ne htok) ?_ ?_
    · simp only [afterConsume]
      split
      · exact inviteOf_markSpent_of_ne htok.symm
      · rfl
    · simp only [afterConsume]
      split
      · exact fun bundle hbundle => (mem_dropBundles.mp hbundle).1
      · exact fun _ => id
  | release now cs =>
    refine .of_map spentSeats_release inviteOf_returnSeats (fun inv => ?_) (fun inv => ?_) rfl
    · split <;> rfl
    · split <;> rfl
  | ending e closed voided =>
    by_cases htok : tok = e.token
    · subst htok
      refine ⟨spentSeats_release, fun invite' hf hl => ?_,
        fun _ _ _ => .inl (fun bundle hbundle => (mem_dropBundles.mp hbundle).2)⟩
      rw [afterEnding, inviteOf_markTerminal_self, Option.map_eq_some_iff] at hf
      obtain ⟨inv, -, rfl⟩ := hf
      exact absurd hl e.terminal.state_ne_live
    · exact .of_eq spentSeats_release (inviteOf_markTerminal_of_ne htok)
        (fun bundle hbundle => (mem_dropBundles.mp hbundle).1)

theorem Steady.lastSeat (h : Steady t t' tok) (hlast : LastSeat t' tok) : LastSeat t tok := by
  obtain ⟨invite', hf, hl, hn⟩ := hlast
  obtain ⟨inv, hinv, hold, huses⟩ := h.live invite' hf hl
  exact ⟨inv, hinv, hold, by rw [← h.spent, hn, huses]⟩

variable {invite' : InviteRow}

/-- What a steady commit leaves of `Ended` at one token. -/
theorem Steady.closes (h : Steady t t' tok) (he : Ended t)
    (hf : inviteOf t'.invites tok = some invite')
    (hn : spentSeats t'.reservations tok = invite'.uses) : invite'.state ≠ .live := by
  intro hl
  obtain ⟨inv, hinv, hold, huses⟩ := h.live invite' hf hl
  exact he.closes tok inv hinv (by rw [← h.spent, hn, huses]) hold

theorem Steady.no_bundles (h : Steady t t' tok) (he : Ended t)
    (hf : inviteOf t'.invites tok = some invite') (hover : invite'.state ≠ .live) :
    ∀ bundle ∈ t'.bundles, bundle.token ≠ tok := by
  rcases h.bare invite' hf hover with hgone | ⟨⟨inv, hinv, hold⟩, hsub⟩
  · exact hgone
  · exact fun bundle hbundle => he.bare tok inv hinv hold bundle (hsub bundle hbundle)

variable {k : Consume}

theorem ended_afterConsume (hs : Sane t) (he : Ended t) {exh}
    (hseat : HoldsSeat t k.token k.nonce) (hsees : Sees t (.decided k exh)) {t'}
    (ht' : t' = afterConsume t k (exh = some true))
    (hf : inviteOf t'.invites k.token = some invite') :
    (spentSeats t'.reservations k.token = invite'.uses → invite'.state ≠ .live) ∧
      (invite'.state ≠ .live → ∀ bundle ∈ t'.bundles, bundle.token ≠ k.token) := by
  subst ht'
  by_cases hexh : exh = some true
  · simp only [afterConsume, hexh, decide_true, if_true, inviteOf_markSpent_self,
      Option.map_eq_some_iff] at hf ⊢
    obtain ⟨inv, -, rfl⟩ := hf
    exact ⟨fun _ => InviteState.noConfusion, fun _ bundle hbundle => (mem_dropBundles.mp hbundle).2⟩
  · simp only [afterConsume, hexh, decide_false, Bool.false_eq_true, if_false] at hf ⊢
    refine ⟨fun hn hl => hexh (hsees ⟨invite', hf, hl, ?_⟩), he.bare _ invite' hf⟩
    obtain ⟨row, hrow, hout⟩ := hseat
    rw [← hn, spentSeats_markConsumed_self hs.keys hrow hout]

theorem decided_of_judging (hjudging : a.judging = some tok) (h : a.commits c t = some t') :
    ∃ k exh, a = .decided k exh ∧ k.token = tok ∧
      t' = afterConsume t k (exh = some true) := by
  cases commit_of_commits h with
  | consume k exh => exact ⟨k, exh, rfl, Option.some.inj hjudging, rfl⟩
  | seat | extend | record | release | ending => cases hjudging

theorem ended_of_commits (hs : Sane t) (he : Ended t) (ha : Relies t a) (hsees : Sees t a)
    (h : a.commits c t = some t') : Ended t' := by
  refine ⟨fun tok invite' hf hn => ?_, fun tok invite' hf hover => ?_⟩
  · by_cases hjudging : a.judging = some tok
    · obtain ⟨k, exh, rfl, rfl, ht'⟩ := decided_of_judging hjudging h
      exact (ended_afterConsume hs he ha hsees ht' hf).1 hn
    · exact (steady_of_commits hjudging h).closes he hf hn
  · by_cases hjudging : a.judging = some tok
    · obtain ⟨k, exh, rfl, rfl, ht'⟩ := decided_of_judging hjudging h
      exact (ended_afterConsume hs he ha hsees ht' hf).2 hover
    · exact (steady_of_commits hjudging h).no_bundles he hf hover

/-! ## Statements -/

/-- Only the exhaustion test makes a process one that has judged. -/
theorem judging_statement (h : statement c t a = some (t', a')) : a'.judging = none ∨
      (∃ k, a = .survey k ∧ t' = t ∧ a' = .surveyed k
        (noneOutstanding (markConsumed t.reservations k.token k.nonce) k.token)) ∨
      ∃ k noneLeft, a = .surveyed k noneLeft ∧ t' = t ∧
        a' = .decided k ((liveInvite t.invites k.token).map (fun inv =>
          decide (inv.remaining = 0) && noneLeft)) := by
  cases a with
  | survey k =>
    cases h
    exact .inr (.inl ⟨k, rfl, rfl, rfl⟩)
  | surveyed k noneLeft =>
    cases h
    exact .inr (.inr ⟨k, noneLeft, rfl, rfl, rfl⟩)
  | idle | answered => cases h
  | fetch q =>
    cases h
    unfold fetched
    split
    · exact .inl rfl
    · split_ifs <;> exact .inl rfl
  | takeSeat q exp =>
    cases h
    unfold seated
    split
    · exact .inl rfl
    · split
      · split <;> exact .inl rfl
      · exact .inl rfl
  | checkGrant | grantSeat | checkSeat | extending | judge | checkScope | count | mark
  | lockInvite =>
    simp only [statement] at h
    split at h <;> (obtain ⟨-, rfl⟩ := by simpa using h) <;> exact .inl rfl
  | voidGrants e closed voided rest =>
    cases rest <;> (obtain ⟨-, rfl⟩ := by simpa [statement] using h) <;> exact .inl rfl
  | commitSeat | extend | extendGrant | commitExtend | record | recheck | promote | decided
  | release | releasing | readHashes | closeSeats =>
    cases h
    exact .inl rfl

theorem sees_of_judging (h : a.judging = none) : Sees t a := by
  cases a with
  | surveyed | decided => cases h
  | _ => trivial

/-- With the last seat marked, the snapshot has no outstanding one, and none is left to
sell. -/
theorem lastSeat_marked (hs : Sane t) (hseat : HoldsSeat t k.token k.nonce)
    (hlast : LastSeat t k.token) :
    noneOutstanding (markConsumed t.reservations k.token k.nonce) k.token = true ∧
      ∃ inv, liveInvite t.invites k.token = some inv ∧ inv.remaining = 0 := by
  have hmarked : Sane (afterConsume t k false) := sane_afterConsume hs hseat
  obtain ⟨inv, hinv, hl, hn⟩ := hlast
  obtain ⟨row, hrow, hout⟩ := hseat
  have hspent := spentSeats_markConsumed_self hs.keys hrow hout
  have hle : spentSeats (markConsumed t.reservations k.token k.nonce) k.token ≤
      held (markConsumed t.reservations k.token k.nonce) k.token :=
    spentSeats_le_held hmarked.apart
  have hseats := hs.seats k.token inv hinv hl
  have hheld : held (markConsumed t.reservations k.token k.nonce) k.token =
      held t.reservations k.token := held_markConsumed
  refine ⟨noneOutstanding_of_held_le hmarked.apart ?_, inv, ?_, by omega⟩
  · omega
  · simp [liveInvite, hinv, hl]

theorem sees_statement (hs : Sane t) (ha : Relies t a) (hsees : Sees t a)
    (h : statement c t a = some (t', a')) : Sees t' a' := by
  obtain hnone | ⟨k, rfl, rfl, rfl⟩ | ⟨k, noneLeft, rfl, rfl, rfl⟩ := judging_statement h
  · exact sees_of_judging hnone
  · exact fun hlast => (lastSeat_marked hs ha hlast).1
  · intro hlast
    obtain ⟨-, inv, hl, hrem⟩ := lastSeat_marked hs ha hlast
    simp [hl, hrem, hsees hlast]

/-- What another process has judged stays right while the invite is left alone. -/
theorem sees_of_steady (hb : Sees t b)
    (h : ∀ tok, b.judging = some tok → Steady t t' tok) : Sees t' b := by
  cases b with
  | surveyed k | decided k => exact fun hlast => hb ((h k.token rfl).lastSeat hlast)
  | _ => trivial

theorem apart_act {i} (hapart : Apart a b) (hturns : TakesTurns i t a b)
    (h : act c i t a = some (t', a')) : Apart a' b := by
  obtain ⟨-, -, hstart⟩ | ⟨-, -, rfl⟩ | ⟨rfl, hstmt⟩ := act_cases h
  · intro tok hjudging
    cases i <;> simp only [Action.start, Option.some.injEq, reduceCtorEq] at hstart <;>
      (subst hstart; cases hjudging)
  · exact fun tok hjudging => by cases hjudging
  · obtain hnone | ⟨k, rfl, -, rfl⟩ | ⟨k, noneLeft, rfl, -, rfl⟩ :=
      judging_statement hstmt
    · exact fun tok hjudging => by rw [hnone] at hjudging; cases hjudging
    · intro tok hjudging
      cases hjudging
      exact hturns rfl rfl
    · exact hapart

end Commits

/-! ## Runs -/

section Runs

variable {c : Crypto} {π : Type} [DecidableEq π] {w w' : World π Tables Phase}
  {labels : List (π × Action)}

/-- What a run keeps while its processes take turns. -/
abbrev Orderly (c : Crypto) (w : World π Tables Phase) : Prop :=
  (machine c).Holds (fun t => Sane t ∧ Ended t) (fun t a => Relies t a ∧ Sees t a) Apart w

theorem Orderly.run (h : Orderly c w)
    (hrun : Run ((machine c).StepUnder TakesTurns) w labels w') : Orderly c w' := by
  refine Machine.Holds.run (fun a b hab tok hb ha => hab tok ha hb) ?_ ?_ h hrun
  · rintro i t a t' a' ⟨hs, he⟩ ⟨ha, hsees⟩ hact
    obtain ⟨hs', ha'⟩ := sane_act hs ha hact
    refine ⟨⟨hs', ?_⟩, ha', ?_⟩
    · rcases act_tables hact with rfl | ⟨-, hcomm⟩
      · exact he
      · exact ended_of_commits hs he ha hsees hcomm
    · obtain ⟨-, -, hstart⟩ | ⟨-, -, rfl⟩ | ⟨-, hstmt⟩ := act_cases hact
      · cases i <;> simp only [Action.start, Option.some.injEq, reduceCtorEq] at hstart <;>
          (subst hstart; trivial)
      · trivial
      · exact sees_statement hs ha hsees hstmt
  · intro i t a t' a' b hbeside hact
    have hs' := (sane_act hbeside.store.1 hbeside.mover.1 hact).1
    refine ⟨⟨?_, ?_⟩, apart_act hbeside.apart hbeside.allowed hact⟩
    · refine relies_of_frame (frame_act hact) hbeside.store.1 hs' hbeside.other.1 ?_
      intro row hrow
      exact (mem_append.mp hrow).elim (hbeside.held row) (hbeside.needed row)
    · refine sees_of_steady hbeside.other.2 fun tok hjudging => ?_
      rcases act_tables hact with rfl | ⟨-, hcomm⟩
      · exact .of_eq rfl rfl fun _ => id
      · exact steady_of_commits (hbeside.apart tok · hjudging) hcomm

/-- Every invite was issued with a seat, and the ones that are over have no bundles. -/
structure Issued (w : World π Tables Phase) : Prop extends Fresh w where
  uses : ∀ token invite, inviteOf w.store.invites token = some invite → 0 < invite.uses
  bare : ∀ token invite, inviteOf w.store.invites token = some invite →
    invite.state ≠ .live → ∀ bundle ∈ w.store.bundles, bundle.token ≠ token

omit [DecidableEq π] in
theorem Issued.orderly (h : Issued w) : Orderly c w := by
  refine .of_idle h.idle rfl ⟨(h.toFresh.sound (c := c)).store, fun tok inv hinv hn => ?_,
    h.bare⟩ ⟨trivial, trivial⟩ (fun tok hjudging => by cases hjudging)
  have huses := h.uses tok inv hinv
  simp only [h.empty, spentSeats, countP_nil] at hn
  omega

/-- While no two processes have judged one invite at once, an invite with all its seats
spent is not live and has no bundles. -/
theorem redeemed_invite_is_over
    (hissued : Issued w)
    (hrun : Run ((machine c).StepUnder TakesTurns) w labels w')
    {token : Bytes}
    {invite : InviteRow}
    (hinvite : inviteOf w'.store.invites token = some invite)
    (hspent : spentSeats w'.store.reservations token = invite.uses) :
    invite.state ≠ .live ∧ ∀ bundle ∈ w'.store.bundles, bundle.token ≠ token := by
  have hend : Ended w'.store := (hissued.orderly.run hrun).store.2
  have hover := hend.closes token invite hinvite hspent
  exact ⟨hover, hend.bare token invite hinvite hover⟩

end Runs

section Sample

/-- Two devices take the two seats. -/
def twoJoins : List (Caller × Action) :=
  [(.first, .reserve ⟨id16 1, id16 10, id32 20, 0, true⟩)] ++ List.replicate 6 (.first, .turn) ++
  [(.second, .reserve ⟨id16 1, id16 11, id32 21, 0, true⟩)] ++ List.replicate 6 (.second, .turn)

/-- Both finish at once: each takes its snapshot before the other commits. -/
def racingFinish : List (Caller × Action) :=
  [(.third, .consume (id16 1) (id16 10) (id32 20) 5000000)] ++ List.replicate 3 (.third, .turn) ++
  [(.fourth, .consume (id16 1) (id16 11) (id32 21) 5000000)] ++ List.replicate 3 (.fourth, .turn) ++
  List.replicate 2 (.third, .turn) ++ List.replicate 2 (.fourth, .turn)

/-- One finishes after the other. -/
def orderlyFinish : List (Caller × Action) :=
  [(.third, .consume (id16 1) (id16 10) (id32 20) 5000000)] ++ List.replicate 5 (.third, .turn) ++
  [(.fourth, .consume (id16 1) (id16 11) (id32 21) 5000000)] ++ List.replicate 5 (.fourth, .turn)

theorem exec_racingFinish : ((machine sampleCrypto).exec (fun _ _ _ _ => True) sampleStart
        (twoJoins ++ racingFinish)).map (fun w =>
          (decide (∀ p, (w.phase p).running = false), inviteOf w.store.invites (id16 1),
            spentSeats w.store.reservations (id16 1), w.store.bundles)) =
      some (true, some { sampleInvite with remaining := 0 }, 2, [⟨id16 1, id32 7, 0, [9], 0⟩]) := by
  decide +kernel

/-- Two joins finish the last two seats at once; when nothing is under way any more, the
invite is live and still has its bundle. -/
theorem racing_joins_leave_it_live :
    ∃ w', Run (machine sampleCrypto).Step sampleStart (twoJoins ++ racingFinish) w' ∧
      (∀ p, (w'.phase p).running = false) ∧
      ∃ invite, inviteOf w'.store.invites (id16 1) = some invite ∧
        spentSeats w'.store.reservations (id16 1) = invite.uses ∧ invite.state = .live ∧
        ∃ bundle ∈ w'.store.bundles, bundle.token = id16 1 := by
  obtain ⟨w', hexec, hw'⟩ := Option.map_eq_some_iff.mp exec_racingFinish
  obtain ⟨hr, hw'⟩ := Prod.mk.inj hw'
  obtain ⟨hinv, hw'⟩ := Prod.mk.inj hw'
  obtain ⟨hspent, hbundles⟩ := Prod.mk.inj hw'
  refine ⟨w', Machine.run_of_exec hexec, of_decide_eq_true hr, _,
    hinv, hspent, rfl, ⟨id16 1, id32 7, 0, [9], 0⟩, ?_, rfl⟩
  rw [hbundles]
  exact mem_singleton.mpr rfl

theorem issued_sampleStart : Issued sampleStart where
  toFresh := fresh_sampleStart
  uses := by
    intro tok inv hinv
    obtain rfl : inv = sampleInvite :=
      mem_singleton.mp (Table.mem_of_lookup hinv)
    decide
  bare := by
    intro tok inv hinv hover
    obtain rfl : inv = sampleInvite :=
      mem_singleton.mp (Table.mem_of_lookup hinv)
    exact absurd rfl hover

theorem exec_orderlyFinish :
    ((machine sampleCrypto).exec TakesTurns sampleStart (twoJoins ++ orderlyFinish)).map
        (fun w => (inviteOf w.store.invites (id16 1), spentSeats w.store.reservations (id16 1))) =
      some (some { sampleInvite with remaining := 0, state := .spent }, 2) := by
  decide +kernel

/-- The same joins, one after the other, end the invite. -/
theorem orderlyFinish_ends :
    ∃ w' invite, Run ((machine sampleCrypto).StepUnder TakesTurns) sampleStart
        (twoJoins ++ orderlyFinish) w' ∧
      inviteOf w'.store.invites (id16 1) = some invite ∧ invite.state ≠ .live ∧
      ∀ bundle ∈ w'.store.bundles, bundle.token ≠ id16 1 := by
  obtain ⟨w', hexec, hw'⟩ := Option.map_eq_some_iff.mp exec_orderlyFinish
  obtain ⟨hinv, hspent⟩ := Prod.mk.inj hw'
  have hrun := Machine.exec_run hexec
  exact ⟨w', _, hrun, hinv, redeemed_invite_is_over issued_sampleStart hrun hinv hspent⟩

end Sample

end WealdRelay.Invite
