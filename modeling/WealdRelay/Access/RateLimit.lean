import WealdRelay.Access.Publisher

/-!
# One rotation per window

`rotated_recently` looks a rotation up by the key that signed it, and a rotation
retires that key. The limit therefore binds a key that signs twice, and says nothing
about the key that took its place. This file follows a recovery key through its
successors over a run of publications at non-decreasing times: what the limiter gives,
and what has to be added for the window to hold along the whole line.
-/

namespace WealdRelay.Access

open Lib List

/-- One accepted publication with its time and what it was judged against. -/
structure Dated where
  candidate : AccessSet
  time : Nat
  prior : Option Prior
  signedAs : SignedAs
deriving DecidableEq

/-- The tables and the time of the last publication. -/
structure StoreState where
  db : Db
  clock : Nat

/-- One accepted `publish`, no earlier than the one before it. -/
def Publishes (c : Crypto) (salt : Bytes) (s : StoreState) (p : Dated) (t : StoreState) : Prop :=
  s.clock ≤ p.time ∧ p.prior = readPrior s.db ∧
    ∃ effects next, publish c s.db p.candidate salt p.time = .ok (p.signedAs, effects, next) ∧
      t = ⟨next, p.time⟩

/-- The recovery keys a publication lists that the set before it did not. -/
def Dated.introduced (p : Dated) : List Bytes :=
  match p.prior with
  | some prior => p.candidate.recovery.filter (fun key => key ∉ prior.recovery)
  | none => []

/-- A recovery rotation. -/
def Dated.Rotates (p : Dated) : Prop := p.signedAs = .recovery

/-- Along a line: the same key again, or the key that took its place. -/
def Dated.Succeeds (earlier later : Dated) : Prop :=
  later.candidate.signer = earlier.candidate.signer ∨ later.candidate.signer ∈ earlier.introduced

/-- Two rotations of a run, the second signed further along the first one's line. -/
inductive OnLine (ps : List Dated) : Nat → Nat → Prop
  | next {i j p q} :
      i < j → ps[i]? = some p → ps[j]? = some q → p.Rotates → q.Rotates →
      p.Succeeds q → OnLine ps i j
  | trans {i j k} : OnLine ps i j → OnLine ps j k → OnLine ps i k

/-- Any two rotations along one line are a window apart. -/
def LineSpaced (ps : List Dated) : Prop :=
  ∀ (i j : Nat) (p q : Dated), OnLine ps i j → ps[i]? = some p → ps[j]? = some q →
    p.time + rotationWindow ≤ q.time

/-- A key that a rotation brought in waits a window before it rotates itself. -/
def SuccessorsWait (ps : List Dated) : Prop :=
  ∀ (i j : Nat) (p q : Dated), i < j → ps[i]? = some p → ps[j]? = some q → p.Rotates →
    q.Rotates → q.candidate.signer ∈ p.introduced → p.time + rotationWindow ≤ q.time

/-- A rotation of the run that put key `y` in the place of key `x`. -/
def Replaces (ps : List Dated) (x y : Bytes) : Prop :=
  ∃ p ∈ ps, p.Rotates ∧ p.candidate.signer = x ∧ y ∈ p.introduced

/-- A key that has signed a rotation is not listed again: a phrase is one-shot. -/
def StayRetired (ps : List Dated) : Prop :=
  ∀ (i j : Nat) (p q : Dated), i < j → ps[i]? = some p → ps[j]? = some q → p.Rotates →
    p.candidate.signer ∉ q.candidate.recovery

/-- Any two rotations signed by keys that one key leads to are a window apart. -/
def KeyLineSpaced (ps : List Dated) : Prop :=
  ∀ (r : Bytes) (i j : Nat) (p q : Dated), i < j → ps[i]? = some p → ps[j]? = some q →
    p.Rotates → q.Rotates →
    Relation.ReflTransGen (Replaces ps) r p.candidate.signer →
    Relation.ReflTransGen (Replaces ps) r q.candidate.signer →
    p.time + rotationWindow ≤ q.time

section Publish

variable {c : Crypto} {salt : Bytes} {db next : Db} {now : Nat} {cand : AccessSet}
variable {signedAs : SignedAs} {eff : Effects}

/-- An accepted `publish` is a judgement on the tables and a transaction. -/
theorem publish_ok (h : publish c db cand salt now = .ok (signedAs, eff, next)) :
    judge c cand (readPrior db) salt (readProbations db.probations)
        (recently db (readPrior db) cand.signer now) = .ok (signedAs, eff) ∧
      commit c db cand signedAs eff salt now = .ok next := by
  unfold publish at h
  dsimp only at h
  split at h
  next => cases h
  next hjudge =>
    split at h
    next => cases h
    next hcomm =>
      cases h
      exact ⟨hjudge, hcomm⟩

/-- What one accepted `publish` leaves in the tables. -/
structure Published (c : Crypto) (db : Db) (candidate : AccessSet) (signedAs : SignedAs)
    (now : Nat) (next : Db) : Prop where
  consistent : Consistent c next
  newest : readPrior next = some (candidate.toPrior c)
  rotations : ∀ row ∈ db.rotations, row ∈ next.rotations
  recorded : signedAs = .recovery → (⟨candidate.signer, now⟩ : RotationRow) ∈ next.rotations

theorem published_of_publish (hok : Consistent c db)
    (h : publish c db cand salt now = .ok (signedAs, eff, next)) :
    Published c db cand signedAs now next := by
  obtain ⟨hjudge, hcomm⟩ := publish_ok h
  have hprior : PriorStored c db (readPrior db) := by
    intro p hp
    rw [readPrior_eq hok, Option.map_eq_some_iff] at hp
    obtain ⟨row, hrow, rfl⟩ := hp
    exact ⟨row, mem_of_getLast? hrow, rfl⟩
  have hset : Settles c salt db now ⟨cand, _, _, _, signedAs, eff⟩ next :=
    ⟨hprior, fun _ => rfl, hjudge, hcomm⟩
  have hnext := hset.consistent hok
  obtain ⟨-, -, hrows⟩ := commit_ok hcomm
  refine ⟨hnext, ?_, ?_, ?_⟩
  · rw [readPrior_eq hnext, hrows.sets]
    simp [applySet]
  · intro row hrow
    rw [hrows.rotations]
    cases signedAs with
    | authorizer => exact hrow
    | recovery => exact mem_append_left _ hrow
  · rintro rfl
    rw [hrows.rotations]
    exact mem_append_right _ (mem_singleton.mpr rfl)

/-- An accepted rotation: its shape, and the limiter's answer about its signer. -/
theorem rotation_of_publish (h : publish c db cand salt now = .ok (.recovery, eff, next)) :
    ∃ prior successor rep, readPrior db = some prior ∧ RotationOk c salt cand prior successor rep ∧
      ∀ row ∈ db.rotations, row.recoveryKey = cand.signer →
        row.attemptedAt + rotationWindow ≤ now := by
  obtain ⟨hjudge, -⟩ := publish_ok h
  obtain ⟨-, hjudged⟩ := judge_ok hjudge
  cases hprior : readPrior db with
  | none =>
    rw [hprior] at hjudged
    cases hjudged
  | some prior =>
    rw [hprior] at hjudged
    generalize hrecent : recently db (some prior) cand.signer now = recent at hjudged
    cases hjudged with
    | rotation _ successor rep _ hnot hok =>
      refine ⟨prior, successor, rep, rfl, hok, ?_⟩
      intro row hrow hkey
      rw [hnot] at hrecent
      by_contra hlt
      have hrow' : row ∈ db.rotations.filter (fun row =>
          row.recoveryKey = cand.signer ∧ now < row.attemptedAt + rotationWindow) :=
        mem_filter.mpr ⟨hrow, by simp [hkey]; omega⟩
      have hpos := length_pos_of_mem hrow'
      simp only [recently, hok.signer, if_true, rotatedRecently] at hrecent
      exact absurd hpos (of_decide_eq_false hrecent)

end Publish

section Lines

variable {c : Crypto} {salt : Bytes} {s t : StoreState} {ps : List Dated}

variable (hok : Consistent c s.db) (h : Run (Publishes c salt) s ps t)
include hok h

theorem run_recorded : Consistent c t.db ∧ (∀ p ∈ ps, p.time ≤ t.clock) ∧
      (∀ p ∈ ps, p.Rotates → (⟨p.candidate.signer, p.time⟩ : RotationRow) ∈ t.db.rotations) ∧
      ∀ p, ps.getLast? = some p → readPrior t.db = some (p.candidate.toPrior c) := by
  refine Run.history ?_ ?_ h
  · exact ⟨hok, by simp, by simp, by simp⟩
  · rintro ps m p _ - ⟨hm, hclock, hrecorded, -⟩ ⟨htime, -, eff, next, hpublish, rfl⟩
    have hpub := published_of_publish hm hpublish
    refine ⟨hpub.consistent, ?_, ?_, ?_⟩
    · intro q hq
      rcases mem_append.mp hq with hq | hq
      · exact le_trans (hclock q hq) htime
      · rw [mem_singleton.mp hq]
    · intro q hq hrot
      rcases mem_append.mp hq with hq | hq
      · exact hpub.rotations _ (hrecorded q hq hrot)
      · rw [mem_singleton.mp hq] at hrot ⊢
        exact hpub.recorded hrot
    · intro q hq
      rw [getLast?_append] at hq
      simp only [getLast?_singleton, Option.some_or, Option.some.injEq] at hq
      rw [← hq]
      exact hpub.newest

variable {i j : Nat}

omit hok h in
theorem onLine_left (h : OnLine ps i j) : ∃ p, ps[i]? = some p := by
  induction h with
  | next _ hp _ _ _ _ => exact ⟨_, hp⟩
  | trans _ _ ih _ => exact ih

variable {p q : Dated}

/-- The limiter: one key's rotations are a window apart. -/
theorem same_key_spaced
    (hij : i < j) (hp : ps[i]? = some p) (hq : ps[j]? = some q) (hrp : p.Rotates)
    (hrq : q.Rotates) (hkey : q.candidate.signer = p.candidate.signer) :
    p.time + rotationWindow ≤ q.time := by
  obtain ⟨m, u, hb, ⟨-, -, eff, next, hpub, -⟩, -⟩ := h.at_index hq
  have hmem : p ∈ ps.take j :=
    mem_of_getElem? (by rw [getElem?_take_of_lt hij]; exact hp)
  have hrow := (run_recorded hok hb).2.2.1 p hmem hrp
  rw [hrq] at hpub
  obtain ⟨_, _, _, -, -, hlimit⟩ := rotation_of_publish hpub
  exact hlimit _ hrow hkey.symm

/-- The window holds along every line exactly when successors wait it out. -/
theorem lineSpaced_iff : LineSpaced ps ↔ SuccessorsWait ps := by
  constructor
  · intro hspaced i j p q hij hp hq hrp hrq hsucc
    exact hspaced i j p q (.next hij hp hq hrp hrq (.inr hsucc)) hp hq
  · intro hwait i j p q hline
    induction hline generalizing p q with
    | @next i j p' q' hij hp' hq' hrp hrq hsucc =>
      intro hp hq
      obtain rfl : p' = p := Option.some.inj (hp'.symm.trans hp)
      obtain rfl : q' = q := Option.some.inj (hq'.symm.trans hq)
      rcases hsucc with heq | hnew
      · exact same_key_spaced hok h hij hp hq hrp hrq heq
      · exact hwait i j _ _ hij hp hq hrp hrq hnew
    | @trans i j k hfirst hsecond ih₁ ih₂ =>
      intro hp hq
      obtain ⟨r, hr⟩ := onLine_left hsecond
      have h₁ := ih₁ p r hp hr
      have h₂ := ih₂ r q hr hq
      omega

omit hok in
theorem rotation_shape (hp : ps[i]? = some p) (hrp : p.Rotates) :
    ∃ prior successor rep, p.prior = some prior ∧
      RotationOk c salt p.candidate prior successor rep ∧
      p.introduced = [successor] := by
  obtain ⟨m, u, -, ⟨-, hprior, eff, next, hpub, -⟩, -⟩ := h.at_index hp
  rw [hrp] at hpub
  obtain ⟨prior, successor, rep, hread, hok, -⟩ := rotation_of_publish hpub
  have hsome : p.prior = some prior := hprior.trans hread
  refine ⟨prior, successor, rep, hsome, hok, ?_⟩
  unfold Dated.introduced
  rw [hsome]
  exact hok.newRecovery

theorem signer_listed (hp : ps[j]? = some p) (hq : ps[j + 1]? = some q) (hrq : q.Rotates) :
    q.candidate.signer ∈ p.candidate.recovery := by
  obtain ⟨m, u, hb, ⟨-, -, eff, next, hpub, -⟩, -⟩ := h.at_index hq
  have hlast : (ps.take (j + 1)).getLast? = some p := by
    rw [getLast?_take, if_neg (Nat.succ_ne_zero j), Nat.add_sub_cancel, hp, Option.some_or]
  have hnew := (run_recorded hok hb).2.2.2 p hlast
  rw [hrq] at hpub
  obtain ⟨prior, _, _, hread, hrot, -⟩ := rotation_of_publish hpub
  rw [hnew, Option.some.injEq] at hread
  subst hread
  exact hrot.signer

/-- While retired keys stay retired, a key signs one rotation. -/
theorem signs_once
    (hretired : StayRetired ps) (hp : ps[i]? = some p) (hq : ps[j]? = some q) (hrp : p.Rotates)
    (hrq : q.Rotates) (hkey : p.candidate.signer = q.candidate.signer) : i = j := by
  have hless : ∀ {i j : Nat} {p q : Dated}, ps[i]? = some p → ps[j]? = some q → p.Rotates →
      q.Rotates → p.candidate.signer = q.candidate.signer → ¬ i < j := by
    intro i j p q hp hq hrp hrq hkey hij
    obtain ⟨k, rfl⟩ : ∃ k, j = k + 1 := ⟨j - 1, by omega⟩
    obtain ⟨r, hr⟩ := getElem?_before hq
    have hlisted := signer_listed hok h hr hq hrq
    rw [← hkey] at hlisted
    rcases Nat.lt_or_ge i k with hik | hik
    · exact hretired i k p _ hik hp hr hrp hlisted
    · obtain rfl : i = k := by omega
      obtain ⟨_, _, _, -, hrot, -⟩ := rotation_shape h hp hrp
      obtain rfl : r = p := Option.some.inj (hr.symm.trans hp)
      exact hrot.retired hlisted
  rcases Nat.lt_trichotomy i j with hlt | heq | hgt
  · exact absurd hlt (hless hp hq hrp hrq hkey)
  · exact heq
  · exact absurd hgt (hless hq hp hrq hrp hkey.symm)

omit hok in
/-- A key that a rotation brought in rotates only after it. -/
theorem rotates_after (hretired : StayRetired ps) {k r} (hp : ps[i]? = some p)
    (hr : ps[k]? = some r) (hrp : p.Rotates) (hrr : r.Rotates)
    (hnew : r.candidate.signer ∈ p.introduced) : i < k := by
  obtain ⟨prior, successor, _, hprior, hrot, hone⟩ := rotation_shape h hp hrp
  have hlisted : r.candidate.signer ∈ p.candidate.recovery := by
    unfold Dated.introduced at hnew
    rw [hprior] at hnew
    exact (mem_filter.mp hnew).1
  rcases Nat.lt_trichotomy i k with hlt | rfl | hgt
  · exact hlt
  · obtain rfl : p = r := Option.some.inj (hp.symm.trans hr)
    exact absurd hlisted hrot.retired
  · exact absurd hlisted (hretired k i r p hgt hr hp hrr)

/-- From a rotation to any other one further along its key's line. -/
theorem spaced_of_line
    (hwait : SuccessorsWait ps) (hretired : StayRetired ps) {x} (hq : ps[j]? = some q)
    (hrq : q.Rotates) (hline : Relation.ReflTransGen (Replaces ps) x q.candidate.signer) :
    ∀ (i : Nat) (p : Dated), ps[i]? = some p → p.Rotates → p.candidate.signer = x →
      i = j ∨ (i < j ∧ p.time + rotationWindow ≤ q.time) := by
  induction hline using Relation.ReflTransGen.head_induction_on with
  | refl =>
    intro i p hp hrp hkey
    exact .inl (signs_once hok h hretired hp hq hrp hrq hkey)
  | @head a b hab hrest ih =>
    intro i p hp hrp hkey
    obtain ⟨p', hp'mem, hrp', hkey', hb⟩ := hab
    obtain ⟨i', hp'⟩ := getElem?_of_mem hp'mem
    obtain rfl := signs_once hok h hretired hp hp' hrp hrp' (hkey.trans hkey'.symm)
    obtain rfl : p = p' := Option.some.inj (hp.symm.trans hp')
    -- The next key signs a rotation too: the line's last one, or the one it continues by.
    obtain ⟨k, r, hr, hrr, hrb⟩ : ∃ (k : Nat) (r : Dated), ps[k]? = some r ∧ r.Rotates ∧
        r.candidate.signer = b := by
      rcases Relation.ReflTransGen.cases_head hrest with heq | ⟨_, ⟨r, hmem, hrr, hrb, -⟩, -⟩
      · exact ⟨j, q, hq, hrq, heq.symm⟩
      · obtain ⟨k, hr⟩ := getElem?_of_mem hmem
        exact ⟨k, r, hr, hrr, hrb⟩
    have hnew : r.candidate.signer ∈ p.introduced := hrb ▸ hb
    have hik := rotates_after h hretired hp hr hrp hrr hnew
    have hgap := hwait i k p r hik hp hr hrp hrr hnew
    rcases ih k r hr hrr hrb with rfl | ⟨hkj, hrest⟩
    · obtain rfl : r = q := Option.some.inj (hr.symm.trans hq)
      exact .inr ⟨hik, hgap⟩
    · exact .inr ⟨by omega, by omega⟩

theorem replaces_rightUnique (hretired : StayRetired ps) : Relator.RightUnique (Replaces ps) := by
  rintro x y z ⟨p, hp, hrp, hpx, hy⟩ ⟨q, hq, hrq, hqx, hz⟩
  obtain ⟨i, hpi⟩ := getElem?_of_mem hp
  obtain ⟨j, hqj⟩ := getElem?_of_mem hq
  obtain rfl := signs_once hok h hretired hpi hqj hrp hrq (hpx.trans hqx.symm)
  obtain rfl : p = q := Option.some.inj (hpi.symm.trans hqj)
  obtain ⟨_, _, _, -, -, hone⟩ := rotation_shape h hpi hrp
  rw [hone, mem_singleton] at hy hz
  rw [hy, hz]

omit hok h

/--
The window holds along every line of rotations exactly when each successor key waits
it out, and, if retired keys moreover stay retired, between any two rotations signed
by keys that one key leads to.
-/
theorem rotation_window_along_lines
    (hok : Consistent c s.db)
    (h : Run (Publishes c salt) s ps t) :
    (LineSpaced ps ↔ SuccessorsWait ps) ∧
      (SuccessorsWait ps → StayRetired ps → KeyLineSpaced ps) := by
  refine ⟨lineSpaced_iff hok h, ?_⟩
  intro hwait hretired r i j p q hij hp hq hrp hrq hlp hlq
  rcases Relation.ReflTransGen.total_of_right_unique (replaces_rightUnique hok h hretired)
    hlp hlq with hpq | hqp
  · rcases spaced_of_line hok h hwait hretired hq hrq hpq i p hp hrp rfl with heq | ⟨-, hgap⟩
    · omega
    · exact hgap
  · rcases spaced_of_line hok h hwait hretired hp hrp hqp j q hq hrq rfl with heq | ⟨hji, -⟩
    · omega
    · omega

end Lines

/-- Publish candidates in order, each at its time; `none` if one is refused or early. -/
def publishAll (c : Crypto) (salt : Bytes) (s : StoreState) :
    List (AccessSet × Nat) → Option (List Dated × StoreState)
  | [] => some ([], s)
  | (candidate, time) :: rest =>
    if time < s.clock then none
    else
      match publish c s.db candidate salt time with
      | .error _ => none
      | .ok (signedAs, _, next) =>
        (publishAll c salt ⟨next, time⟩ rest).map (fun answer =>
          (⟨candidate, time, readPrior s.db, signedAs⟩ :: answer.1, answer.2))

theorem run_of_publishAll {c salt} : ∀ {cs s t ps},
      publishAll c salt s cs = some (ps, t) → Run (Publishes c salt) s ps t
  | [], s, t, ps, h => by
      cases h
      exact Run.nil s
  | (cand, time) :: rest, s, t, ps, h => by
      unfold publishAll at h
      split at h
      next => cases h
      next hclock =>
        split at h
        next => cases h
        next signedAs eff next hpub =>
          obtain ⟨⟨qs, u⟩, hr, heq⟩ := Option.map_eq_some_iff.mp h
          cases heq
          exact Run.cons ⟨Nat.le_of_not_lt hclock, rfl, eff, next, hpub, rfl⟩ (run_of_publishAll hr)

/-- Key 11, which took key 10's place, rotates in its turn. -/
def sampleSecondRotation : AccessSet :=
  sampleSet (some sampleRotation) [1, 2, 3] [12] [] none [] 11

theorem consistent_emptyDb (c : Crypto) : Consistent c emptyDb := by
  refine ⟨?_, ?_, ?_, ?_, ?_, ?_⟩ <;> simp [emptyDb]

/-- The three sample publications, the two rotations at times 1 and `later`. -/
def sampleDated (later : Nat) : Option (List Dated × StoreState) :=
  publishAll sampleCrypto sampleSalt ⟨emptyDb, 0⟩
    [(sampleGenesis, 0), (sampleRotation, 1), (sampleSecondRotation, later)]

/-- Two rotations a window apart, which the store accepts. -/
theorem rotation_window_along_lines_sample :
    ∃ ps t, Run (Publishes sampleCrypto sampleSalt) ⟨emptyDb, 0⟩ ps t ∧ ps.length = 3 ∧
      (LineSpaced ps ↔ SuccessorsWait ps) := by
  have hsome : (sampleDated (rotationWindow + 1)).isSome = true := by decide +kernel
  obtain ⟨⟨ps, t⟩, hall⟩ := Option.isSome_iff_exists.mp hsome
  have hlength : ((sampleDated (rotationWindow + 1)).map (·.1.length)) = some 3 := by
    decide +kernel
  rw [hall, Option.map_some, Option.some.injEq] at hlength
  have hrun := run_of_publishAll hall
  exact ⟨ps, t, hrun, hlength,
    (rotation_window_along_lines (consistent_emptyDb sampleCrypto) hrun).1⟩

/-- The third publication is a rotation by a key that the second one brought in, one unit
of time after it. -/
def succeedsAtOnce (ps : List Dated) : Bool :=
  match ps[1]?, ps[2]? with
  | some p, some q => p.signedAs = .recovery ∧ q.signedAs = .recovery ∧
      q.candidate.signer ∈ p.introduced ∧ q.time = p.time + 1
  | _, _ => false

/-- The successor rotates one tick after the rotation that brought it in. -/
theorem successor_rotates_at_once :
    ∃ ps t, Run (Publishes sampleCrypto sampleSalt) ⟨emptyDb, 0⟩ ps t ∧
      ∃ p q : Dated, ps[1]? = some p ∧ ps[2]? = some q ∧ OnLine ps 1 2 ∧
        q.time = p.time + 1 ∧ q.time < p.time + rotationWindow := by
  have hcheck : ((sampleDated 2).any (fun answer => succeedsAtOnce answer.1)) = true := by
    decide +kernel
  cases hall : sampleDated 2 with
  | none =>
    rw [hall] at hcheck
    cases hcheck
  | some answer =>
    obtain ⟨ps, t⟩ := answer
    rw [hall, Option.any_some, succeedsAtOnce] at hcheck
    split at hcheck
    next p q hp hq =>
      obtain ⟨hrp, hrq, hnew, htime⟩ := of_decide_eq_true hcheck
      refine ⟨ps, t, run_of_publishAll hall, p, q, hp, hq,
        .next (by decide) hp hq hrp hrq (.inr hnew), htime, ?_⟩
      rw [htime]
      exact Nat.add_lt_add_left (by decide) _
    next => cases hcheck

end WealdRelay.Access
