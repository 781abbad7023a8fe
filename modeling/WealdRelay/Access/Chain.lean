import WealdRelay.Access.Judge
import WealdRelay.Lib.Run

/-!
# Accepted chains

`judge` applied publication after publication, with the probation table the
accepted effects leave behind. A `Publication` records what one publication was
judged against and what the relay answered; a chain is a run of `Accepts`.

The rate limiter is a free input at this level: a publication carries whatever the
limiter said, so what is proved here holds for every limiter.
-/

namespace WealdRelay.Access

open Lib List

/-- One row of `relay_access_probation`; a row is open until it has a cleared version. -/
structure ProbationRow extends Probation where
  clearedVersion : Option Nat
deriving DecidableEq

/-- `read_probations`: the open rows, in the order of their devices. -/
def readProbations (table : List ProbationRow) : List Probation :=
  ((table.filter (fun row => row.clearedVersion = none)).insertionSort
    (fun a b => a.device ≤ b.device)).map (·.toProbation)

/-- The upsert that opens a probation, and reopens a cleared one. -/
def openProbation (probation : Probation) (table : List ProbationRow) : List ProbationRow :=
  if ∃ row ∈ table, row.device = probation.device then
    table.map (fun row => if row.device = probation.device then ⟨probation, none⟩ else row)
  else table ++ [⟨probation, none⟩]

/-- The update that clears one device's open probation. -/
def clearProbation (version : Nat) (table : List ProbationRow) (device : Bytes) :
    List ProbationRow :=
  table.map (fun row =>
    if row.device = device ∧ row.clearedVersion = none then
      { row with clearedVersion := some version }
    else row)

/-- What accepting `effects` at `version` does to the probation table. -/
def applyEffects (version : Nat) (effects : Effects) (table : List ProbationRow) :
    List ProbationRow :=
  let opened :=
    match effects.opensProbation with
    | some probation => openProbation probation table
    | none => table
  effects.clearsProbation.foldl (clearProbation version) opened

/-- The newest accepted set and the probation table beside it. -/
structure ChainState where
  head : Option AccessSet
  table : List ProbationRow
deriving DecidableEq

/-- A workspace that has accepted nothing. -/
def ChainState.empty : ChainState := ⟨none, []⟩

/-- One accepted publication, with everything it was judged against. -/
structure Publication where
  prior : Option AccessSet
  probations : List Probation
  rotatedRecently : Bool
  candidate : AccessSet
  signedAs : SignedAs
  effects : Effects
deriving DecidableEq

section Chain

variable (c : Crypto) (salt : Bytes)

/-- The quorum a set configures, without the signatures it happens to carry. -/
def AccessSet.configuredQuorum (s : AccessSet) : Option RecoveryQuorum :=
  s.quorum.map (fun quorum => { quorum with sigs := [] })

/-- An accepted set as the next one is judged against it: its signatures are not kept. -/
def AccessSet.toPrior (s : AccessSet) : Prior where
  workspace := s.workspace
  version := s.version
  digest := s.digest c
  entries := s.entries
  authorizers := s.authorizers
  recovery := s.recovery
  quorum := s.configuredQuorum

/-- Judge one candidate against the newest set, and take its effects if it holds. -/
def accept (s : ChainState) (candidate : AccessSet) (rotatedRecently : Bool) :
    Except AccessError (Publication × ChainState) :=
  let probations := readProbations s.table
  match judge c candidate (s.head.map (AccessSet.toPrior c)) salt probations rotatedRecently with
  | .error e => .error e
  | .ok (signedAs, effects) =>
    .ok (⟨s.head, probations, rotatedRecently, candidate, signedAs, effects⟩,
      ⟨some candidate, applyEffects candidate.version effects s.table⟩)

/-- One step of a chain. -/
def Accepts (s : ChainState) (p : Publication) (t : ChainState) : Prop :=
  accept c salt s p.candidate p.rotatedRecently = .ok (p, t)

/-- Judge a list of candidates in order; the first refusal ends it. -/
def acceptAll (s : ChainState) :
    List (AccessSet × Bool) → Except AccessError (List Publication × ChainState)
  | [] => .ok ([], s)
  | (candidate, rotatedRecently) :: rest =>
    match accept c salt s candidate rotatedRecently with
    | .error e => .error e
    | .ok (p, t) =>
      match acceptAll t rest with
      | .error e => .error e
      | .ok (ps, u) => .ok (p :: ps, u)

end Chain

section Steps

variable {c : Crypto} {salt : Bytes} {s t : ChainState} {p : Publication}

/-- Everything one step of a chain has established. -/
structure Accepted (c : Crypto) (salt : Bytes) (s : ChainState) (p : Publication)
    (t : ChainState) : Prop where
  prior : p.prior = s.head
  probations : p.probations = readProbations s.table
  head : t.head = some p.candidate
  table : t.table = applyEffects p.candidate.version p.effects s.table
  answer : judge c p.candidate (p.prior.map (AccessSet.toPrior c)) salt p.probations
    p.rotatedRecently = .ok (p.signedAs, p.effects)
  shaped : WellShaped c salt p.candidate
  judged : Judged c salt p.candidate p.probations p.rotatedRecently
    (p.prior.map (AccessSet.toPrior c)) p.signedAs p.effects

theorem accepted_of_accepts (h : Accepts c salt s p t) : Accepted c salt s p t := by
  unfold Accepts accept at h
  dsimp only at h
  split at h
  next => cases h
  next signedAs eff hjudge =>
    obtain ⟨hshaped, hjudged⟩ := judge_ok hjudge
    simp only [Except.ok.injEq, Prod.mk.injEq] at h
    obtain ⟨hp, rfl⟩ := h
    rw [← hp]
    exact ⟨rfl, rfl, rfl, rfl, hjudge, hshaped, hjudged⟩

variable {recent : Bool} {cand : AccessSet}

theorem accepts_of_judge {signedAs eff}
    (h : judge c cand (s.head.map (AccessSet.toPrior c)) salt (readProbations s.table)
      recent = .ok (signedAs, eff)) :
    Accepts c salt s ⟨s.head, readProbations s.table, recent, cand, signedAs, eff⟩
      ⟨some cand, applyEffects cand.version eff s.table⟩ := by
  simp [Accepts, accept, h]

theorem accepts_of_accept (h : accept c salt s cand recent = .ok (p, t)) :
    Accepts c salt s p t := by
  have hcopy := h
  unfold accept at hcopy
  dsimp only at hcopy
  split at hcopy
  next => cases hcopy
  next =>
    simp only [Except.ok.injEq, Prod.mk.injEq] at hcopy
    obtain ⟨rfl, -⟩ := hcopy
    exact h

theorem run_of_acceptAll :
    ∀ {cs s t ps}, acceptAll c salt s cs = .ok (ps, t) → Run (Accepts c salt) s ps t
  | [], s, t, ps, h => by
      simp only [acceptAll, Except.ok.injEq, Prod.mk.injEq] at h
      obtain ⟨rfl, rfl⟩ := h
      exact Run.nil s
  | (cand, recent) :: rest, s, t, ps, h => by
      unfold acceptAll at h
      split at h
      next => cases h
      next p m hs =>
        split at h
        next => cases h
        next qs u hr =>
          simp only [Except.ok.injEq, Prod.mk.injEq] at h
          obtain ⟨rfl, rfl⟩ := h
          exact Run.cons (accepts_of_accept hs) (run_of_acceptAll hr)

end Steps

/-! ## The probation table -/

variable {table : List ProbationRow} {probation : Probation}

theorem mem_readProbations :
    probation ∈ readProbations table ↔ (⟨probation, none⟩ : ProbationRow) ∈ table := by
  unfold readProbations
  simp only [mem_map, mem_insertionSort, mem_filter, decide_eq_true_eq]
  constructor
  · rintro ⟨⟨row, cleared⟩, ⟨hmem, hopen⟩, rfl⟩
    dsimp only at hopen
    subst hopen
    exact hmem
  · intro hmem
    exact ⟨_, ⟨hmem, rfl⟩, rfl⟩

theorem mem_openProbation {opened} :
    (⟨probation, none⟩ : ProbationRow) ∈ openProbation opened table ↔ probation = opened ∨
        ((⟨probation, none⟩ : ProbationRow) ∈ table ∧ probation.device ≠ opened.device) := by
  unfold openProbation
  by_cases hheld : ∃ row ∈ table, row.device = opened.device
  · rw [if_pos hheld, mem_map]
    constructor
    · rintro ⟨row, hrow, heq⟩
      by_cases hdev : row.device = opened.device
      · rw [if_pos hdev] at heq
        cases heq
        exact .inl rfl
      · rw [if_neg hdev] at heq
        subst heq
        exact .inr ⟨hrow, hdev⟩
    · rintro (rfl | ⟨hmem, hdev⟩)
      · obtain ⟨row, hrow, hdev⟩ := hheld
        exact ⟨row, hrow, if_pos hdev⟩
      · exact ⟨_, hmem, if_neg hdev⟩
  · rw [if_neg hheld, mem_append, mem_singleton]
    constructor
    · rintro (hmem | heq)
      · exact .inr ⟨hmem, fun hdev => hheld ⟨_, hmem, hdev⟩⟩
      · cases heq
        exact .inl rfl
    · rintro (rfl | ⟨hmem, -⟩)
      · exact .inr rfl
      · exact .inl hmem

variable {version : Nat}

theorem mem_clearProbation {device} :
    (⟨probation, none⟩ : ProbationRow) ∈ clearProbation version table device ↔
      (⟨probation, none⟩ : ProbationRow) ∈ table ∧ probation.device ≠ device := by
  unfold clearProbation
  rw [mem_map]
  constructor
  · rintro ⟨row, hrow, heq⟩
    by_cases hdev : row.device = device ∧ row.clearedVersion = none
    · rw [if_pos hdev] at heq
      cases heq
    · rw [if_neg hdev] at heq
      subst heq
      exact ⟨hrow, fun h => hdev ⟨h, rfl⟩⟩
  · rintro ⟨hmem, hdev⟩
    exact ⟨_, hmem, if_neg (hdev ·.1)⟩

theorem mem_foldl_clearProbation : ∀ {devices : List Bytes} {table : List ProbationRow},
      (⟨probation, none⟩ : ProbationRow) ∈ devices.foldl (clearProbation version) table ↔
        (⟨probation, none⟩ : ProbationRow) ∈ table ∧ probation.device ∉ devices
  | [], table => by simp
  | device :: rest, table => by
      rw [foldl_cons, mem_foldl_clearProbation, mem_clearProbation, mem_cons]
      tauto

/-- The probations open after a publication: what it opened, what it left open. -/
theorem mem_readProbations_applyEffects {eff : Effects} :
    probation ∈ readProbations (applyEffects version eff table) ↔
      (eff.opensProbation = some probation ∨ (probation ∈ readProbations table ∧
          ∀ opened, eff.opensProbation = some opened → probation.device ≠ opened.device)) ∧
        probation.device ∉ eff.clearsProbation := by
  rw [mem_readProbations, mem_readProbations, applyEffects, mem_foldl_clearProbation]
  cases hopens : eff.opensProbation with
  | none => simp
  | some opened =>
    simp only [mem_openProbation, Option.some.injEq, forall_eq']
    rw [eq_comm]

/-! ## Consecutive publications -/

section Linked

variable {c : Crypto} {salt : Bytes} {s t : ChainState} {ps : List Publication}

variable (h : Run (Accepts c salt) s ps t)
include h

/-- Each publication of a run was judged against the one before it. -/
theorem run_linked : (∀ p, ps[0]? = some p → p.prior = s.head) ∧
      ∀ i p q, ps[i]? = some p → ps[i + 1]? = some q → q.prior = some p.candidate := by
  induction h with
  | nil s => simp
  | @cons s m t a as hs _ ih =>
    obtain ⟨hfirst, hnext⟩ := ih
    have hacc := accepted_of_accepts hs
    refine ⟨?_, ?_⟩
    · intro p hp
      simp only [getElem?_cons_zero, Option.some.injEq] at hp
      subst hp
      exact hacc.prior
    · intro i p q hp hq
      cases i with
      | zero =>
        simp only [getElem?_cons_zero, Option.some.injEq] at hp
        subst hp
        rw [hfirst q (by simpa using hq), hacc.head]
      | succ i => exact hnext i p q (by simpa using hp) (by simpa using hq)

theorem run_judged : ∀ p ∈ ps, WellShaped c salt p.candidate ∧
      Judged c salt p.candidate p.probations p.rotatedRecently
        (p.prior.map (AccessSet.toPrior c)) p.signedAs p.effects := by
  intro p hp
  obtain ⟨_, _, _, _, -, -, hs, -⟩ := h.at_label hp
  have hacc := accepted_of_accepts hs
  exact ⟨hacc.shaped, hacc.judged⟩

variable {p : Publication}

theorem run_judged_later (hp : p ∈ ps) {prior} (hprior : p.prior = some prior) :
    Judged c salt p.candidate p.probations p.rotatedRecently (some (prior.toPrior c)) p.signedAs
      p.effects := by
  obtain ⟨-, hjudged⟩ := run_judged h p hp
  rwa [hprior, Option.map_some] at hjudged

omit h in
theorem getElem?_before {α : Type} {l : List α} {i : Nat} {q : α} (hq : l[i + 1]? = some q) :
    ∃ p, l[i]? = some p := by
  have hlt := (List.getElem?_eq_some_iff.mp hq).1
  exact ⟨_, List.getElem?_eq_getElem (Nat.lt_of_succ_lt hlt)⟩

omit h in
/-- Versions of a chain that starts from nothing count up from zero. -/
theorem run_version (h : Run (Accepts c salt) ChainState.empty ps t) :
    ∀ i p, ps[i]? = some p → p.candidate.version = i ∧ (p.prior = none ↔ i = 0)
  | 0, p, hp => by
      obtain ⟨hfirst, -⟩ := run_linked h
      have hprior : p.prior = none := hfirst p hp
      obtain ⟨-, hjudged⟩ := run_judged h p (mem_of_getElem? hp)
      rw [hprior, Option.map_none] at hjudged
      exact ⟨hjudged.first.1.version, by simp [hprior]⟩
  | i + 1, q, hq => by
      obtain ⟨p, hp⟩ := getElem?_before hq
      have hprior := (run_linked h).2 i _ q hp hq
      have hfollows := (run_judged_later h (mem_of_getElem? hq) hprior).later.1
      refine ⟨?_, by simp [hprior]⟩
      rw [hfollows.version]
      exact congrArg (· + 1) (run_version h i _ hp).1

/-- Every open probation was open before the run or opened by a rotation of it. -/
theorem run_probation : ∀ probation ∈ readProbations t.table,
      probation ∈ readProbations s.table ∨ ∃ p ∈ ps, p.effects.opensProbation = some probation := by
  refine Run.history (fun probation hopen => .inl hopen) ?_ h
  intro ps t p u _ ih hstep probation hopen
  rw [(accepted_of_accepts hstep).table] at hopen
  obtain ⟨hsource, -⟩ := mem_readProbations_applyEffects.mp hopen
  rcases hsource with hnew | ⟨hold, -⟩
  · exact .inr ⟨p, by simp, hnew⟩
  · rcases ih probation hold with hs | ⟨q, hq, hqopen⟩
    · exact .inl hs
    · exact .inr ⟨q, mem_append_left _ hq, hqopen⟩

/-- Only a rotation opens a probation, and it opens it for the device it brings in. -/
theorem run_opens (hp : p ∈ ps) {probation} (hopens : p.effects.opensProbation = some probation) :
    ∃ prior successor, p.prior = some prior ∧ p.signedAs = .recovery ∧
        RotationOk c salt p.candidate (prior.toPrior c) successor probation.device ∧
        probation.introducedAt = p.candidate.version ∧
        probation.pending = p.candidate.pending := by
  obtain ⟨-, hjudged⟩ := run_judged h p hp
  cases hprior : p.prior with
  | none =>
    rw [hprior, Option.map_none] at hjudged
    rw [hjudged.first.2] at hopens
    cases hopens
  | some prior =>
    rcases (run_judged_later h hp hprior).later.2 with
      ⟨-, -, heffects⟩ | ⟨hsig, successor, rep, hok, heffects⟩ <;>
      rw [heffects] at hopens <;> cases hopens
    exact ⟨prior, successor, rfl, hsig, hok, rfl, rfl⟩

end Linked

/-! ## Every chain is well formed -/

/--
A well-formed chain `ps` with the open probations it has left behind. Positions
count from the genesis set, which is the only one without a predecessor.
-/
structure WellFormedChain (c : Crypto) (salt : Bytes) (ps : List Publication)
    (probations : List Probation) : Prop where
  version : ∀ (i : Nat) (p : Publication), ps[i]? = some p → p.candidate.version = i
  genesis : ∀ p : Publication, ps[0]? = some p → p.candidate.prevHash = List.replicate hashBytes 0 ∧
      p.candidate.signer ∈ p.candidate.authorizers
  prevHash : ∀ (i : Nat) (p q : Publication), ps[i]? = some p → ps[i + 1]? = some q →
    q.candidate.prevHash = p.candidate.digest c
  workspace : ∀ p ∈ ps, ∀ q ∈ ps, p.candidate.workspace = q.candidate.workspace
  nonempty : ∀ p ∈ ps, p.candidate.entries ≠ [] ∧ p.candidate.authorizers ≠ [] ∧
    p.candidate.recovery ≠ []
  sorted : ∀ p ∈ ps, p.candidate.entries.Pairwise (· < ·) ∧
    p.candidate.authorizers.Pairwise (· < ·) ∧ p.candidate.recovery.Pairwise (· < ·)
  principals : ∀ p ∈ ps, ∀ key, key ∈ p.candidate.authorizers ∨ key ∈ p.candidate.recovery →
      entryHash c key salt ∈ p.candidate.entries
  signature : ∀ p ∈ ps, p.candidate.signatureVerifies c = true
  signer : ∀ (i : Nat) (p q : Publication), ps[i]? = some p → ps[i + 1]? = some q →
    q.candidate.signer ∈ p.candidate.authorizers ∨ q.candidate.signer ∈ p.candidate.recovery
  ordinary : ∀ (i : Nat) (p q : Publication), ps[i]? = some p → ps[i + 1]? = some q →
    q.signedAs = .authorizer →
    (∃ key ∈ p.candidate.authorizers, key ∈ q.candidate.authorizers) ∧
      ∃ key ∈ p.candidate.recovery, key ∈ q.candidate.recovery
  rotation : ∀ (i : Nat) (p q : Publication), ps[i]? = some p → ps[i + 1]? = some q →
    q.signedAs = .recovery →
    ∀ key ∈ p.candidate.authorizers, key ∈ q.candidate.authorizers
  probation : ∀ probation ∈ probations, ∃ (i : Nat) (p q : Publication),
    ps[i]? = some p ∧ ps[i + 1]? = some q ∧ q.signedAs = .recovery ∧
      probation.introducedAt = i + 1 ∧
      probation.device ∉ p.candidate.authorizers ∧
      probation.device ∈ q.candidate.authorizers

section WellFormed

variable {c : Crypto} {salt : Bytes} {t : ChainState} {ps : List Publication} {q : Publication}

theorem run_successor (h : Run (Accepts c salt) ChainState.empty ps t) {i p}
    (hp : ps[i]? = some p) (hq : ps[i + 1]? = some q) :
    Judged c salt q.candidate q.probations q.rotatedRecently (some (p.candidate.toPrior c))
      q.signedAs q.effects :=
  run_judged_later h (mem_of_getElem? hq) ((run_linked h).2 i p q hp hq)

theorem run_workspace (h : Run (Accepts c salt) ChainState.empty ps t) {p₀}
    (hp₀ : ps[0]? = some p₀) :
    ∀ (i : Nat) (p : Publication), ps[i]? = some p → p.candidate.workspace = p₀.candidate.workspace
  | 0, p, hp => by
      rw [hp₀, Option.some.injEq] at hp
      rw [hp]
  | i + 1, q, hq => by
      obtain ⟨p, hp⟩ := getElem?_before hq
      rw [(run_successor h hp hq).later.1.workspace]
      exact run_workspace h hp₀ i _ hp

theorem run_predecessor (h : Run (Accepts c salt) ChainState.empty ps t) (hq : q ∈ ps)
    {prior} (hprior : q.prior = some prior) :
    ∃ (i : Nat) (p : Publication), ps[i]? = some p ∧ ps[i + 1]? = some q ∧ p.candidate = prior := by
  obtain ⟨j, hj⟩ := getElem?_of_mem hq
  cases j with
  | zero =>
    have hnone := (run_version h 0 q hj).2.mpr rfl
    rw [hprior] at hnone
    cases hnone
  | succ i =>
    obtain ⟨p, hp⟩ := getElem?_before hj
    have hlink := (run_linked h).2 i _ q hp hj
    rw [hprior, Option.some.injEq] at hlink
    exact ⟨i, _, hp, hj, hlink.symm⟩

/-- Every chain the relay accepts from nothing is well formed. -/
theorem wellFormedChain_of_run (h : Run (Accepts c salt) ChainState.empty ps t) :
    WellFormedChain c salt ps (readProbations t.table) where
  version := fun i p hp => (run_version h i p hp).1
  genesis := by
    intro p hp
    obtain ⟨-, hjudged⟩ := run_judged h p (mem_of_getElem? hp)
    rw [(run_version h 0 p hp).2.mpr rfl, Option.map_none] at hjudged
    exact ⟨hjudged.first.1.prevHash, hjudged.first.1.signer⟩
  prevHash := fun i p q hp hq => (run_successor h hp hq).later.1.prevHash
  workspace := by
    intro p hp q hq
    obtain ⟨i, hi⟩ := List.getElem?_of_mem hp
    obtain ⟨j, hj⟩ := List.getElem?_of_mem hq
    have hlt : 0 < ps.length := length_pos_of_mem hp
    have h₀ : ps[0]? = some ps[0] := List.getElem?_eq_getElem hlt
    rw [run_workspace h h₀ i p hi, run_workspace h h₀ j q hj]
  nonempty := by
    intro p hp
    obtain ⟨hshaped, -⟩ := run_judged h p hp
    exact ⟨hshaped.entries_ne, hshaped.authorizers_ne, hshaped.recovery_ne⟩
  sorted := by
    intro p hp
    obtain ⟨hshaped, -⟩ := run_judged h p hp
    exact ⟨hshaped.entries_sorted, hshaped.authorizers_sorted, hshaped.recovery_sorted⟩
  principals := by
    intro p hp key hkey
    obtain ⟨hshaped, -⟩ := run_judged h p hp
    rcases hkey with hkey | hkey
    · exact hshaped.authorizer_entry key hkey
    · exact hshaped.recovery_entry key hkey
  signature := by
    intro p hp
    obtain ⟨-, hjudged⟩ := run_judged h p hp
    cases hprior : p.prior with
    | none =>
      rw [hprior, Option.map_none] at hjudged
      exact hjudged.first.1.signature
    | some => exact (run_judged_later h hp hprior).later.1.signature
  signer := by
    intro i p q hp hq
    rcases (run_successor h hp hq).later.2 with ⟨-, hok, -⟩ | ⟨-, _, _, hok, -⟩
    · exact .inl hok.signer
    · exact .inr hok.signer
  ordinary := by
    intro i p q hp hq hsigned
    rcases (run_successor h hp hq).later.2 with ⟨-, hok, -⟩ | ⟨hrotation, -⟩
    · exact ⟨hok.authorizer, hok.recovery⟩
    · rw [hsigned] at hrotation
      cases hrotation
  rotation := by
    intro i p q hp hq hsigned
    rcases (run_successor h hp hq).later.2 with ⟨hordinary, -⟩ | ⟨-, _, _, hok, -⟩
    · rw [hsigned] at hordinary
      cases hordinary
    · exact hok.keeps
  probation := by
    intro probation hopen
    rcases run_probation h probation hopen with hempty | ⟨q, hq, hopens⟩
    · simp [readProbations, ChainState.empty] at hempty
    · obtain ⟨prior, successor, hpredecessor, hsigned, hok, hat, -⟩ := run_opens h hq hopens
      obtain ⟨i, p, hp, hqi, rfl⟩ := run_predecessor h hq hpredecessor
      obtain ⟨hin, hout⟩ := (eq_of_filter_eq_singleton hok.newAuthorizer _).mpr rfl
      refine ⟨i, p, q, hp, hqi, hsigned, ?_, hout, hin⟩
      rw [hat, (run_version h (i + 1) q hqi).1]

end WellFormed

/-! ## A concrete instance

Primitives that compute, to run chains on: a polynomial hash of the right width, and
a signature that is the hash of the key and the message. -/

def sampleHash (width : Nat) (input : Bytes) : Bytes :=
  Cbor.beBytes width (input.foldl (fun acc b => (acc * 257 + b.val + 1) % Nat.pow 256 width) 0)

def sampleCrypto : Crypto where
  blake3 := sampleHash hashBytes
  verifyStrict key message signature := signature = sampleHash sigBytes (key ++ message)

def sampleKey (n : Byte) : Bytes := List.replicate 31 0 ++ [n]

def sampleSalt : Bytes := id32 7

/-- The entry hash of a sample key. -/
def sampleEntry (n : Byte) : Bytes := entryHash sampleCrypto (sampleKey n) sampleSalt

/-- The signed successor of `prior`: its principals' entries, and `extra` ones. -/
def sampleSet (prior : Option AccessSet) (authorizers recovery : List Byte)
    (extra : List Bytes) (quorum : Option RecoveryQuorum) (pending : List Bytes)
    (signer : Byte) : AccessSet :=
  let unsigned : AccessSet :=
    { workspace := id32 1
      version := match prior with
        | none => 0
        | some prior => prior.version + 1
      prevHash := match prior with
        | none => List.replicate hashBytes 0
        | some prior => prior.digest sampleCrypto
      issuedAt := 0
      entries := sortDedup ((authorizers ++ recovery).map sampleEntry ++ extra)
      authorizers := authorizers.map sampleKey
      recovery := recovery.map sampleKey
      quorum := quorum
      pending := pending
      signer := sampleKey signer
      sig := [] }
  { unsigned with sig := sampleHash sigBytes (unsigned.signer ++ unsigned.digestInput) }

/-- Whether the sample relay accepts the candidates in order and `check` then holds. -/
def sampleRun (s : ChainState) (candidates : List AccessSet)
    (check : List Publication → ChainState → Bool) : Bool :=
  match acceptAll sampleCrypto sampleSalt s (candidates.map (·, false)) with
  | .ok (ps, t) => check ps t
  | .error _ => false

theorem run_of_sampleRun {s cs} {check : List Publication → ChainState → Bool}
    (h : sampleRun s cs check = true) :
    ∃ ps t, Run (Accepts sampleCrypto sampleSalt) s ps t ∧ check ps t = true := by
  unfold sampleRun at h
  split at h
  next ps t hall => exact ⟨ps, t, run_of_acceptAll hall, h⟩
  next => cases h

def sampleGenesis : AccessSet := sampleSet none [1] [10] [] none [] 1

/-- A rotation of the sample recovery key: device 2 comes in, key 11 succeeds key 10. -/
def sampleRotation : AccessSet := sampleSet (some sampleGenesis) [1, 2] [11] [] none [] 10

/-- A genesis set and a rotation, with the replacement device on probation. -/
theorem wellFormedChain_of_run_sample :
    ∃ ps t, Run (Accepts sampleCrypto sampleSalt) ChainState.empty ps t ∧
      ps.length = 2 ∧ readProbations t.table = [⟨sampleKey 2, 1, []⟩] ∧
      WellFormedChain sampleCrypto sampleSalt ps (readProbations t.table) := by
  have hsample : sampleRun .empty [sampleGenesis, sampleRotation]
      (fun ps t => ps.length = 2 ∧ readProbations t.table = [⟨sampleKey 2, 1, []⟩]) = true := by
    decide +kernel
  obtain ⟨ps, t, hrun, hcheck⟩ := run_of_sampleRun hsample
  obtain ⟨hlength, hopen⟩ := of_decide_eq_true hcheck
  exact ⟨ps, t, hrun, hlength, hopen, wellFormedChain_of_run hrun⟩

end WealdRelay.Access
