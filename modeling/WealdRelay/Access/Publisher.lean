import WealdRelay.Access.Store

/-!
# Publications that run at once

`publish` with its statements pulled apart: four unlocked reads for the prior set, one
for the probations, one for the recent rotations, then the judgement and the
transaction. Any number of processes take turns, one statement at a time, and a
process may fail at any point.

A torn read is harmless. What a process read about a stored version stays true,
because stored rows never change; and if its transaction goes through, no version was
stored since it read the newest one, so the probations it read are still the table.
-/

namespace WealdRelay.Access

open Lib List

/-- What one publication was judged on and what came of it. -/
structure Judgement where
  candidate : AccessSet
  prior : Option Prior
  probations : List Probation
  rotatedRecently : Bool
  signedAs : SignedAs
  effects : Effects
deriving DecidableEq

/-- Where a process stands; a phase names the statement it runs next. -/
inductive Phase where
  | idle
  | readHead (candidate : AccessSet)
  | readEntries (candidate : AccessSet) (row : SetRow)
  | readPrincipals (candidate : AccessSet) (row : SetRow) (entries : List Bytes)
  | readQuorum (candidate : AccessSet) (row : SetRow) (entries : List Bytes)
      (principals : List PrincipalRow)
  | readProbations (candidate : AccessSet) (prior : Option Prior)
  | readRotations (candidate : AccessSet) (prior : Option Prior)
      (probations : List Probation)
  | commit (candidate : AccessSet) (prior : Option Prior) (probations : List Probation)
      (rotatedRecently : Bool)
  | stored (judgement : Judgement)
  | refused (error : StoreError)
deriving DecidableEq

section Statement

variable (c : Crypto) (salt : Bytes)

/-- The judgement and the transaction. -/
def settle (db : Db) (now : Nat) (candidate : AccessSet) (prior : Option Prior)
    (probations : List Probation) (rotatedRecently : Bool) : Phase × Db :=
  match judge c candidate prior salt probations rotatedRecently with
  | .error error => (.refused (.refused error), db)
  | .ok (signedAs, effects) =>
    match commit c db candidate signedAs effects salt now with
    | .error error => (.refused error, db)
    | .ok next =>
      (.stored ⟨candidate, prior, probations, rotatedRecently, signedAs, effects⟩, next)

/-- One statement of `publish` against the database as it stands. -/
def statement (db : Db) (now : Nat) : Phase → Phase × Db
  | .idle => (.idle, db)
  | .readHead candidate =>
    match newestSet db with
    | none => (.readProbations candidate none, db)
    | some row => (.readEntries candidate row, db)
  | .readEntries candidate row =>
    (.readPrincipals candidate row (readEntries db row.version), db)
  | .readPrincipals candidate row entries =>
    (.readQuorum candidate row entries (readPrincipals db row.version), db)
  | .readQuorum candidate row entries principals =>
    (.readProbations candidate
      (some (assemblePrior row entries principals (readThreshold db row.version))), db)
  | .readProbations candidate prior =>
    (.readRotations candidate prior (readProbations db.probations), db)
  | .readRotations candidate prior probations =>
    (.commit candidate prior probations (recently db prior candidate.signer now), db)
  | .commit candidate prior probations rotatedRecently =>
    settle c salt db now candidate prior probations rotatedRecently
  | .stored judgement => (.stored judgement, db)
  | .refused error => (.refused error, db)

end Statement

/-- What a process does with its turn. -/
inductive Turn where
  | start (candidate : AccessSet)
  | statement (now : Nat)
  | fail
deriving DecidableEq

/-- The database, the processes, and every judgement that was stored, oldest first. -/
structure Publishers where
  db : Db
  phase : Nat → Phase
  log : List Judgement

/-- The judgement a phase ends with, if its set was stored. -/
def Phase.judgement : Phase → List Judgement
  | .stored judgement => [judgement]
  | _ => []

/-- Whether a publication is under way. -/
def Phase.inProgress : Phase → Bool
  | .idle | .stored _ | .refused _ => false
  | _ => true

/-- One turn of process `pid`. A failed process leaves the database as it found it. -/
def Publishers.turn (c : Crypto) (salt : Bytes) (s : Publishers) (pid : Nat) : Turn → Publishers
  | .start candidate =>
    if (s.phase pid).inProgress then s
    else { s with phase := Function.update s.phase pid (.readHead candidate) }
  | .statement now =>
    let result := statement c salt s.db now (s.phase pid)
    { db := result.2
      phase := Function.update s.phase pid result.1
      log := if (s.phase pid).inProgress then s.log ++ result.1.judgement else s.log }
  | .fail =>
    if (s.phase pid).inProgress then
      { s with phase := Function.update s.phase pid (.refused .database) }
    else s

/-- Any process may take a turn at any time. -/
def TakesTurn (c : Crypto) (salt : Bytes) (s : Publishers) (label : Nat × Turn)
    (t : Publishers) : Prop :=
  t = s.turn c salt label.1 label.2

/-! ## What a process knows -/

/-- How many sets were stored when this prior was read. -/
def storedCount : Option Prior → Nat
  | none => 0
  | some prior => prior.version + 1

/-- The prior a process holds is one of the stored sets, or none was stored. -/
def PriorStored (c : Crypto) (db : Db) (prior : Option Prior) : Prop :=
  ∀ p, prior = some p → ∃ row ∈ db.sets, p = row.body.toPrior c

/-- The probations a process holds are the table, unless a set was stored since. -/
def ProbationsCurrent (db : Db) (prior : Option Prior) (probations : List Probation) : Prop :=
  db.sets.length = storedCount prior → probations = readProbations db.probations

/-- What each phase may rely on. -/
def PhaseOk (c : Crypto) (db : Db) : Phase → Prop
  | .readEntries _ row => row ∈ db.sets
  | .readPrincipals _ row entries => row ∈ db.sets ∧ entries = row.body.entries
  | .readQuorum _ row entries principals =>
    row ∈ db.sets ∧ entries = row.body.entries ∧ PrincipalsOf row.body principals
  | .readProbations _ prior => PriorStored c db prior
  | .readRotations _ prior probations =>
    PriorStored c db prior ∧ ProbationsCurrent db prior probations
  | .commit _ prior probations _ =>
    PriorStored c db prior ∧ ProbationsCurrent db prior probations
  | _ => True

/-- The row a judgement was stored as. -/
def Judgement.row (c : Crypto) (j : Judgement) : SetRow :=
  ⟨j.candidate.version, j.candidate.digest c, j.signedAs, j.candidate⟩

/-- A publication that goes through: what it read is what it may rely on, it was judged on
that, and its transaction found these tables. -/
structure Settles (c : Crypto) (salt : Bytes) (db : Db) (now : Nat) (j : Judgement) (next : Db) :
    Prop where
  prior : PriorStored c db j.prior
  probations : ProbationsCurrent db j.prior j.probations
  judged : judge c j.candidate j.prior salt j.probations j.rotatedRecently =
    .ok (j.signedAs, j.effects)
  committed : commit c db j.candidate j.signedAs j.effects salt now = .ok next

section Knowledge

variable {c : Crypto} {salt : Bytes} {db next : Db} {now : Nat} {prior : Option Prior}

theorem storedCount_le (hok : Consistent c db) (hprior : PriorStored c db prior) :
    storedCount prior ≤ db.sets.length := by
  cases prior with
  | none => exact Nat.zero_le _
  | some p =>
    obtain ⟨row, hrow, rfl⟩ := hprior p rfl
    have hlt := hok.version_lt hrow
    have hver : (row.body.toPrior c).version = row.version := (hok.body row hrow).1
    show (row.body.toPrior c).version + 1 ≤ _
    omega

variable {recent : Bool} {cand : AccessSet} {prs : List Probation}
  {phase : Phase} {j : Judgement}

/-- The judgement and the transaction refuse and change nothing, or store. -/
theorem settle_cases (hprior : PriorStored c db prior) (hcur : ProbationsCurrent db prior prs) :
    (∃ error, settle c salt db now cand prior prs recent = (.refused error, db)) ∨
      ∃ j next, Settles c salt db now j next ∧
        settle c salt db now cand prior prs recent = (.stored j, next) := by
  unfold settle
  cases hjudge : judge c cand prior salt prs recent with
  | error error => exact .inl ⟨_, rfl⟩
  | ok ans =>
    obtain ⟨signedAs, eff⟩ := ans
    cases hcomm : commit c db cand signedAs eff salt now with
    | error error => exact .inl ⟨error, by simp [hcomm]⟩
    | ok next =>
      exact .inr ⟨⟨cand, prior, prs, recent, signedAs, eff⟩, next,
        ⟨hprior, hcur, hjudge, hcomm⟩, by simp [hcomm]⟩

/-- A statement leaves the database alone unless it is a transaction that went through. -/
theorem statement_cases (salt : Bytes) (now : Nat) (h : PhaseOk c db phase) :
    ((statement c salt db now phase).2 = db ∧
        (phase.inProgress = true → (statement c salt db now phase).1.judgement = [])) ∨
      ∃ j next, phase.inProgress = true ∧ Settles c salt db now j next ∧
        statement c salt db now phase = (.stored j, next) := by
  cases phase with
  | readHead cand =>
    refine .inl ?_
    unfold statement
    cases newestSet db with
    | none | some => exact ⟨rfl, fun _ => rfl⟩
  | commit cand prior prs recent =>
    rcases settle_cases h.1 h.2 with ⟨error, hrefused⟩ | ⟨j, next, hset, hstored⟩
    · refine .inl ?_
      rw [statement, hrefused]
      exact ⟨rfl, fun _ => rfl⟩
    · exact .inr ⟨j, next, rfl, hset, hstored⟩
  | stored judgement => exact .inl ⟨rfl, nofun⟩
  | _ => exact .inl ⟨rfl, fun _ => rfl⟩

/-- A transaction that goes through was judged against the tables it found. -/
theorem Settles.current (h : Settles c salt db now j next) (hok : Consistent c db) :
    j.candidate.version = db.sets.length ∧ j.prior = db.sets.getLast?.map (·.body.toPrior c) ∧
      j.probations = readProbations db.probations := by
  obtain ⟨cand, prior, prs, recent, signedAs, eff⟩ := j
  obtain ⟨hprior, hcur, hjudge, hcomm⟩ := h
  dsimp only at hprior hcur hjudge hcomm ⊢
  obtain ⟨-, hjudged⟩ := judge_ok hjudge
  have hver : cand.version = storedCount prior := by
    cases hjudged with
    | genesis hok => exact hok.version
    | ordinary _ hfollows | rotation _ _ _ hfollows => exact hfollows.version
  -- The version was absent and the stored ones are an initial segment.
  have hge : db.sets.length ≤ cand.version := by
    by_contra hlt
    rw [Nat.not_le] at hlt
    have hrow : db.sets[cand.version]? = some db.sets[cand.version] :=
      getElem?_eq_getElem hlt
    exact (commit_ok hcomm).1 _ (mem_of_getElem? hrow) (hok.versions _ _ hrow)
  have hle := storedCount_le hok hprior
  have hn : db.sets.length = storedCount prior := by omega
  refine ⟨by omega, ?_, hcur hn⟩
  cases prior with
  | none =>
    rw [eq_nil_of_length_eq_zero hn]
    rfl
  | some p =>
    obtain ⟨row, hrow, rfl⟩ := hprior p rfl
    obtain ⟨i, hi⟩ := getElem?_of_mem hrow
    have hlast : i = db.sets.length - 1 := by
      have hat := hok.versions i row hi
      have hbody : (row.body.toPrior c).version = row.version := (hok.body row hrow).1
      have : storedCount (some (row.body.toPrior c)) = (row.body.toPrior c).version + 1 := rfl
      omega
    rw [List.getLast?_eq_getElem?, ← hlast, hi, Option.map_some]

theorem Settles.consistent (h : Settles c salt db now j next) (hok : Consistent c db) :
    Consistent c next :=
  consistent_commit hok (judge_ok h.judged).1 (h.current hok).1 h.committed

theorem Settles.sets (h : Settles c salt db now j next) : next.sets = db.sets ++ [j.row c] :=
  (commit_ok h.committed).2.2.sets

/-- After its statement a process may rely on what its new phase says. -/
theorem phaseOk_statement (hok : Consistent c db) (h : PhaseOk c db phase) :
    PhaseOk c db (statement c salt db now phase).1 := by
  cases phase with
  | idle | stored | refused => trivial
  | readHead cand =>
    unfold statement
    cases hnew : newestSet db with
    | none =>
      intro p hp
      cases hp
    | some row =>
      rw [newestSet_eq hok] at hnew
      exact mem_of_getLast? hnew
  | readEntries cand row => exact ⟨h, (hok.holds row h).entries⟩
  | readPrincipals cand row es => exact ⟨h.1, h.2, (hok.holds row h.1).principals⟩
  | readQuorum cand row es principals =>
    obtain ⟨hrow, rfl, hprin⟩ := h
    intro p hp
    exact ⟨row, hrow, by rw [← Option.some.inj hp, assemblePrior_eq hok hrow hprin]⟩
  | readProbations cand prior => exact ⟨h, fun _ => rfl⟩
  | readRotations cand prior prs => exact h
  | commit cand prior prs recent =>
    show PhaseOk c db (settle c salt db now cand prior prs recent).1
    rcases settle_cases h.1 h.2 with ⟨_, hrefused⟩ | ⟨_, _, -, hstored⟩
    · rw [hrefused]
      trivial
    · rw [hstored]
      trivial

/-- Storing one more set takes nothing from what the other processes rely on. -/
theorem phaseOk_commit (hok : Consistent c db) (hset : Settles c salt db now j next)
    (h : PhaseOk c db phase) : PhaseOk c next phase := by
  have hsub : ∀ row ∈ db.sets, row ∈ next.sets := fun row hrow => by
    rw [hset.sets]
    exact mem_append_left _ hrow
  have hstored : ∀ {prior : Option Prior}, PriorStored c db prior → PriorStored c next prior := by
    intro prior hprior p hp
    obtain ⟨row, hrow, heq⟩ := hprior p hp
    exact ⟨row, hsub row hrow, heq⟩
  -- The count has moved past every prior a process may hold.
  have hcur : ∀ {prior : Option Prior} {prs : List Probation},
      PriorStored c db prior → ProbationsCurrent next prior prs := by
    intro prior prs hprior hn
    have := storedCount_le hok hprior
    rw [hset.sets, length_append, length_singleton] at hn
    omega
  cases phase with
  | readEntries cand row => exact hsub row h
  | readPrincipals cand row es => exact ⟨hsub row h.1, h.2⟩
  | readQuorum cand row es principals =>
    exact ⟨hsub row h.1, h.2⟩
  | readProbations cand prior => exact hstored h
  | readRotations | commit => exact ⟨hstored h.1, hcur h.1⟩
  | _ => trivial

end Knowledge

/-! ## The order of the stored sets is a chain -/

/-- A step of a chain, as a process that judged the same would have recorded it. -/
def Publication.judgement (c : Crypto) (p : Publication) : Judgement :=
  ⟨p.candidate, p.prior.map (AccessSet.toPrior c), p.probations, p.rotatedRecently,
    p.signedAs, p.effects⟩

/-- The probation table after the judgements of `log` have taken effect, oldest first. -/
def tableAfter (log : List Judgement) : List ProbationRow :=
  log.foldl (fun table j => applyEffects j.candidate.version j.effects table) []

/-- The tables are those of one chain, and the processes know what they rely on. -/
structure RefinesChain (c : Crypto) (salt : Bytes) (s : Publishers) : Prop where
  consistent : Consistent c s.db
  phases : ∀ pid, PhaseOk c s.db (s.phase pid)
  chain : ∃ ps t, Run (Accepts c salt) ChainState.empty ps t ∧
    s.log = ps.map (Publication.judgement c) ∧ s.db.sets = s.log.map (Judgement.row c) ∧
    s.db.probations = t.table

section Refinement

variable {c : Crypto} {salt : Bytes} {s t : Publishers} {ps : List Publication}

theorem run_head {t} (h : Run (Accepts c salt) ChainState.empty ps t) :
    t.head = ps.getLast?.map (·.candidate) := by
  refine Run.history rfl ?_ h
  intro ps m p u _ _ hs
  rw [(accepted_of_accepts hs).head, getLast?_append]
  rfl

theorem run_tableAfter {t} (h : Run (Accepts c salt) ChainState.empty ps t) :
    t.table = tableAfter (ps.map (Publication.judgement c)) := by
  refine Run.history rfl ?_ h
  intro ps m p u _ ih hs
  rw [(accepted_of_accepts hs).table, ih, map_append, tableAfter, tableAfter, foldl_append]
  rfl

theorem phaseOk_update {phase : Nat → Phase} {db} (h : ∀ pid, PhaseOk c db (phase pid))
    (pid : Nat) {new} (hnew : PhaseOk c db new) :
    ∀ x, PhaseOk c db (Function.update phase pid new x) := by
  intro x
  by_cases heq : x = pid
  · subst heq
    rw [Function.update_self]
    exact hnew
  · rw [Function.update_of_ne heq]
    exact h x

theorem consistent_turn (salt : Bytes) (hok : Consistent c s.db)
    (hphases : ∀ pid, PhaseOk c s.db (s.phase pid)) (pid : Nat) (turn : Turn) :
    Consistent c (s.turn c salt pid turn).db ∧ ∀ x, PhaseOk c (s.turn c salt pid turn).db
        ((s.turn c salt pid turn).phase x) := by
  cases turn with
  | start cand =>
    simp only [Publishers.turn]
    split
    next => exact ⟨hok, hphases⟩
    next => exact ⟨hok, phaseOk_update hphases pid trivial⟩
  | fail =>
    simp only [Publishers.turn]
    split
    next => exact ⟨hok, phaseOk_update hphases pid trivial⟩
    next => exact ⟨hok, hphases⟩
  | statement now =>
    have hphase : PhaseOk c s.db (statement c salt s.db now (s.phase pid)).1 :=
      phaseOk_statement hok (hphases pid)
    simp only [Publishers.turn]
    rcases statement_cases salt now (hphases pid) with ⟨hdb, -⟩ | ⟨j, next, -, hset, hresult⟩
    · rw [hdb]
      exact ⟨hok, phaseOk_update hphases pid hphase⟩
    · rw [hresult]
      exact ⟨hset.consistent hok,
        phaseOk_update (fun x => phaseOk_commit hok hset (hphases x)) pid trivial⟩

theorem chain_stored (h : RefinesChain c salt s) {now j next}
    (hset : Settles c salt s.db now j next) :
    ∃ ps t, Run (Accepts c salt) ChainState.empty ps t ∧
      s.log ++ [j] = ps.map (Publication.judgement c) ∧
      next.sets = (s.log ++ [j]).map (Judgement.row c) ∧ next.probations = t.table := by
  obtain ⟨ps, m, hrun, hlog, hsets, htable⟩ := h.chain
  obtain ⟨-, hnew, hopen⟩ := hset.current h.consistent
  obtain ⟨-, -, hrows⟩ := commit_ok hset.committed
  have hmprior : j.prior = m.head.map (AccessSet.toPrior c) := by
    rw [hnew, run_head hrun, hsets, hlog, getLast?_map, getLast?_map]
    cases ps.getLast? <;> rfl
  have hmopen : j.probations = readProbations m.table := by rw [hopen, htable]
  have hjudge := hset.judged
  rw [hmprior, hmopen] at hjudge
  refine ⟨_, _, hrun.snoc (accepts_of_judge hjudge), ?_, ?_, ?_⟩
  · rw [map_append, ← hlog, map_singleton, Publication.judgement, ← hmprior, ← hmopen]
  · rw [hset.sets, map_append, ← hsets]
    rfl
  · rw [hrows.probations, ← htable]
    rfl

theorem refinesChain_turn (h : RefinesChain c salt s) (pid : Nat) (turn : Turn) :
    RefinesChain c salt (s.turn c salt pid turn) := by
  obtain ⟨hcons, hphases⟩ := consistent_turn salt h.consistent h.phases pid turn
  refine ⟨hcons, hphases, ?_⟩
  cases turn with
  | start | fail =>
    simp only [Publishers.turn]
    split
    next => exact h.chain
    next => exact h.chain
  | statement now =>
    simp only [Publishers.turn]
    rcases statement_cases salt now (h.phases pid) with
      ⟨hdb, hlog⟩ | ⟨j, next, hprog, hset, hresult⟩
    · have heq : (if (s.phase pid).inProgress = true then
          s.log ++ (statement c salt s.db now (s.phase pid)).1.judgement else s.log) =
          s.log := by
        split
        next hprog => rw [hlog hprog, append_nil]
        next => rfl
      rw [hdb, heq]
      exact h.chain
    · rw [hresult, if_pos hprog]
      exact chain_stored h hset

/-- A workspace that has published nothing; its other rows may hold anything. -/
structure Unpublished (s : Publishers) : Prop where
  sets : s.db.sets = []
  entries : s.db.entries = []
  principals : s.db.principals = []
  quorums : s.db.quorums = []
  probations : s.db.probations = []
  log : s.log = []
  phases : ∀ pid, s.phase pid = .idle

theorem refinesChain_unpublished (h : Unpublished s) : RefinesChain c salt s := by
  refine ⟨⟨?_, ?_, ?_, ?_, ?_, ?_⟩, ?_, ?_⟩
  · simp [h.sets]
  · simp [h.sets]
  · simp [h.sets]
  · simp [h.entries]
  · simp [h.principals]
  · simp [h.quorums]
  · intro pid
    rw [h.phases pid]
    trivial
  · exact ⟨[], .empty, .nil _, h.log, by rw [h.sets, h.log]; rfl, h.probations⟩

theorem refinesChain_run {s₀} (h₀ : Unpublished s₀) {labels}
    (hrun : Run (TakesTurn c salt) s₀ labels s) : RefinesChain c salt s := by
  refine Run.invariant ?_ hrun (refinesChain_unpublished h₀)
  intro s label t h hs
  rw [hs]
  exact refinesChain_turn h label.1 label.2

end Refinement

/--
The stored sets in the order they were stored: one per version, each judged against
the stored set before it and the probations as that set left them.
-/
structure Linearises (c : Crypto) (salt : Bytes) (s : Publishers) : Prop where
  oneEach : (s.db.sets.map (·.version)).Nodup
  stored : s.db.sets = s.log.map (Judgement.row c)
  judged : ∀ j ∈ s.log, judge c j.candidate j.prior salt j.probations j.rotatedRecently =
      .ok (j.signedAs, j.effects)
  genesis : ∀ j : Judgement, s.log[0]? = some j → j.prior = none
  predecessor : ∀ (i : Nat) (row : SetRow) (j : Judgement),
    s.db.sets[i]? = some row → s.log[i + 1]? = some j → j.prior = some (row.body.toPrior c)
  probations : ∀ (i : Nat) (j : Judgement), s.log[i]? = some j →
    j.probations = readProbations (tableAfter (s.log.take i))
  table : s.db.probations = tableAfter s.log

section Linearisation

variable {c : Crypto} {salt : Bytes} {s s₀ : Publishers}

theorem linearises_of_refinesChain (h : RefinesChain c salt s) : Linearises c salt s := by
  obtain ⟨ps, t, hrun, hlog, hsets, htable⟩ := h.chain
  have hat : ∀ (i : Nat) (j : Judgement), s.log[i]? = some j →
      ∃ p, ps[i]? = some p ∧ p.judgement c = j := by
    intro i j hj
    rw [hlog, getElem?_map, Option.map_eq_some_iff] at hj
    exact hj
  refine ⟨?_, hsets, ?_, ?_, ?_, ?_, ?_⟩
  · have hrange : s.db.sets.map (·.version) = List.range s.db.sets.length := by
      refine ext_getElem? fun i => ?_
      rw [getElem?_map]
      by_cases hlt : i < s.db.sets.length
      · have hrow := getElem?_eq_getElem hlt
        rw [hrow, Option.map_some, h.consistent.versions i _ hrow, getElem?_range hlt]
      · rw [getElem?_eq_none (Nat.le_of_not_lt hlt), Option.map_none,
          getElem?_eq_none (by simpa using Nat.le_of_not_lt hlt)]
    rw [hrange]
    exact nodup_range
  · intro j hj
    obtain ⟨i, hi⟩ := getElem?_of_mem hj
    obtain ⟨p, hp, rfl⟩ := hat i j hi
    obtain ⟨m, u, -, hs, -⟩ := hrun.at_index hp
    exact (accepted_of_accepts hs).answer
  · intro j hj
    obtain ⟨p, hp, rfl⟩ := hat 0 j hj
    show p.prior.map _ = none
    rw [(run_version hrun 0 p hp).2.mpr rfl, Option.map_none]
  · intro i row j hrow hj
    obtain ⟨q, hq, rfl⟩ := hat (i + 1) j hj
    rw [hsets, getElem?_map, Option.map_eq_some_iff] at hrow
    obtain ⟨k, hk, rfl⟩ := hrow
    obtain ⟨p, hp, rfl⟩ := hat i k hk
    show q.prior.map _ = some _
    rw [(run_linked hrun).2 i p q hp hq]
    rfl
  · intro i j hj
    obtain ⟨p, hp, rfl⟩ := hat i j hj
    obtain ⟨m, u, hb, hs, -⟩ := hrun.at_index hp
    rw [hlog, ← map_take, ← run_tableAfter hb]
    exact (accepted_of_accepts hs).probations
  · rw [htable, hlog, run_tableAfter hrun]

/--
However any number of publications interleave, the stored sets linearise, and a turn
changes a row only by storing the set of the process that takes it.
-/
theorem publications_linearise
    (h₀ : Unpublished s₀)
    {labels : List (Nat × Turn)}
    (hrun : Run (TakesTurn c salt) s₀ labels s) :
    Linearises c salt s ∧ ∀ pid turn, (s.turn c salt pid turn).db = s.db ∨
        ∃ j, (s.turn c salt pid turn).phase pid = .stored j ∧
          (s.turn c salt pid turn).db.sets = s.db.sets ++ [j.row c] := by
  have hrefines := refinesChain_run h₀ hrun
  refine ⟨linearises_of_refinesChain hrefines, ?_⟩
  intro pid turn
  cases turn with
  | start | fail =>
    refine .inl ?_
    simp only [Publishers.turn]
    split <;> rfl
  | statement now =>
    rcases statement_cases salt now (hrefines.phases pid)
      with ⟨hdb, -⟩ | ⟨j, next, -, hset, hresult⟩
    · exact .inl hdb
    · refine .inr ⟨j, ?_, ?_⟩
      · simp only [Publishers.turn, Function.update_self, hresult]
      · simp only [Publishers.turn, hresult]
        exact hset.sets

end Linearisation

/-- The turns taken in order. -/
def Publishers.takeTurns (c : Crypto) (salt : Bytes) (s : Publishers) :
    List (Nat × Turn) → Publishers
  | [] => s
  | (pid, turn) :: rest => (s.turn c salt pid turn).takeTurns c salt rest

theorem run_takeTurns (c : Crypto) (salt : Bytes) : ∀ (labels : List (Nat × Turn)) (s : Publishers),
      Run (TakesTurn c salt) s labels (s.takeTurns c salt labels)
  | [], s => Run.nil s
  | (_, _) :: rest, _ => Run.cons rfl (run_takeTurns c salt rest _)

def emptyDb : Db := ⟨[], [], [], [], [], [], [], [], none, [], [], none, []⟩

def idlePublishers : Publishers := ⟨emptyDb, fun _ => .idle, []⟩

/-- The ordinary successor of the sample genesis set, by its own authorizer. -/
def sampleOrdinary : AccessSet := sampleSet (some sampleGenesis) [1] [10] [] none [] 1

/-- Two processes publish version 1 at once, statement by statement. -/
def raceTurns : List (Nat × Turn) :=
  let turns (pid n : Nat) : List (Nat × Turn) := List.replicate n (pid, .statement 0)
  [(0, .start sampleGenesis)] ++ turns 0 4 ++
    [(0, .start sampleRotation), (1, .start sampleOrdinary)] ++
    turns 0 3 ++ turns 1 5 ++ turns 0 4 ++ turns 1 2

/-- The race is lost by the second process, whose transaction finds the version taken. -/
theorem publications_linearise_race :
    (idlePublishers.takeTurns sampleCrypto sampleSalt raceTurns).phase 1 =
        .refused (.refused (.versionNotNext 1 1)) ∧
      (idlePublishers.takeTurns sampleCrypto sampleSalt raceTurns).log.length = 2 ∧
      Linearises sampleCrypto sampleSalt
        (idlePublishers.takeTurns sampleCrypto sampleSalt raceTurns) := by
  refine ⟨by decide +kernel, by decide +kernel, ?_⟩
  exact (publications_linearise ⟨rfl, rfl, rfl, rfl, rfl, rfl, fun _ => rfl⟩
    (run_takeTurns sampleCrypto sampleSalt raceTurns idlePublishers)).1

end WealdRelay.Access
