import WealdRelay.Access.Set

/-!
# The transition rules

`access::judge` and its two halves, as the code orders the checks, and what an
accepted publication has established. Later files never unfold `judge`: they use
`judge_ok`, which says that an accepted publication is a genesis, an ordinary
publication by a prior authorizer, or a recovery rotation, with everything each
one had to pass.
-/

namespace WealdRelay.Access

open Lib

/-- The prior state a transition is judged against. -/
structure Prior where
  workspace : Bytes
  version : Nat
  digest : Bytes
  entries : List Bytes
  authorizers : List Bytes
  recovery : List Bytes
  quorum : Option RecoveryQuorum
deriving DecidableEq

/-- A probationary authorizer and what it may remove. -/
structure Probation where
  device : Bytes
  introducedAt : Nat
  pending : List Bytes
deriving DecidableEq

/-- What accepting a transition does beyond storing it. -/
structure Effects where
  opensProbation : Option Probation
  clearsProbation : List Bytes
  removed : List Bytes
deriving DecidableEq

/-- `Effects::default`. -/
def Effects.none : Effects := ⟨Option.none, [], []⟩

/-- The entries the prior set carried and the candidate does not. -/
def removedEntries (candidate : AccessSet) (prior : Prior) : List Bytes :=
  prior.entries.filter (fun entry => entry ∉ candidate.entries)

section Rules

variable (c : Crypto)

/-- One turn of the clearing loop: does this publication clear `probation`? -/
def clears (candidate : AccessSet) (prior : Prior) (salt : Bytes)
    (probations : List Probation) (probation : Probation) : Bool :=
  if probation.device = candidate.signer then false
  else
    let entry := entryHash c probation.device salt
    if entry ∉ candidate.entries then false
    -- A signer that is not itself on probation is taken to predate every rotation.
    else if ¬ ∃ other ∈ probations, other.device = candidate.signer then true
    else
      match prior.quorum with
      | some configured => candidate.quorumConfirms c configured entry
      | Option.none => false

/-- The devices one ordinary publication clears, in the order of the probations. -/
def clearedBy (candidate : AccessSet) (prior : Prior) (salt : Bytes)
    (probations : List Probation) : List Bytes :=
  (probations.filter (clears c candidate prior salt probations)).map (·.device)

/-- An ordinary publication by a prior authorizer. -/
def judgeOrdinary (candidate : AccessSet) (prior : Prior) (salt : Bytes)
    (probations : List Probation) (removed : List Bytes) :
    Except AccessError (SignedAs × Effects) :=
  if ¬ ∃ key ∈ prior.authorizers, key ∈ candidate.authorizers then
    .error (.wouldStrandAuthority "authorizer")
  else if ¬ ∃ key ∈ prior.recovery, key ∈ candidate.recovery then
    .error (.wouldStrandAuthority "recovery principal")
  else if candidate.pending ≠ [] then
    .error (.rotationShape "name pending entries")
  else
    let accepted : Except AccessError (SignedAs × Effects) :=
      .ok (.authorizer, ⟨Option.none, clearedBy c candidate prior salt probations, removed⟩)
    match probations.find? (fun p => p.device = candidate.signer) with
    | some probation =>
      if ¬ ∀ entry ∈ removed, entry ∈ probation.pending then .error .probationExceeded
      -- A probationary signer sheds no authorizer that predates it ...
      else if ¬ ∀ key ∈ prior.authorizers, key ∈ candidate.authorizers then
        .error .probationExceeded
      -- ... and introduces none.
      else if ¬ ∀ key ∈ candidate.authorizers, key ∈ prior.authorizers then
        .error .probationExceeded
      else accepted
    | Option.none => accepted

/-- The pinned removals: entries the prior set carried, none of them an authorizer's. -/
def checkPending (prior : Prior) (salt : Bytes) : List Bytes → Except AccessError Unit
  | [] => .ok ()
  | entry :: rest =>
    if entry ∉ prior.entries then
      .error (.rotationShape "pin only entries the prior set carried")
    else if ∃ key ∈ prior.authorizers, entryHash c key salt = entry then
      .error (.rotationShape "pin no prior authorizer")
    else checkPending prior salt rest

/-- The one narrow transition a recovery principal may take. -/
def judgeRotation (candidate : AccessSet) (prior : Prior) (salt : Bytes)
    (removed : List Bytes) (rotatedRecently : Bool) :
    Except AccessError (SignedAs × Effects) :=
  if rotatedRecently then .error .rotationRateLimited
  else if candidate.signer ∈ candidate.recovery then
    .error (.rotationShape "rotate the signer's own recovery key")
  else
    let newRecovery := candidate.recovery.filter (fun key => key ∉ prior.recovery)
    match newRecovery with
    | [successor] =>
      let droppedRecovery := prior.recovery.filter (fun key => key ∉ candidate.recovery)
      if droppedRecovery ≠ [candidate.signer] then
        .error (.rotationShape "replace its own recovery key and no other")
      else if ¬ ∀ entry ∈ removed, entry = entryHash c candidate.signer salt then
        .error (.rotationShape "remove nothing but its own entry")
      else
        let added := candidate.entries.filter (fun entry => entry ∉ prior.entries)
        let addedAuthorizers :=
          candidate.authorizers.filter (fun key => key ∉ prior.authorizers)
        match addedAuthorizers with
        | [replacement] =>
          let permitted := [entryHash c successor salt, entryHash c replacement salt]
          if sortDedup added ≠ sortDedup permitted then
            .error (.rotationShape
              "add exactly the replacement device and the successor recovery key")
          else if ¬ ∀ key ∈ prior.authorizers, key ∈ candidate.authorizers then
            .error (.rotationShape "remove no authorizer")
          else
            match checkPending c prior salt candidate.pending with
            | .error e => .error e
            | .ok () =>
              .ok (.recovery,
                ⟨some ⟨replacement, candidate.version, candidate.pending⟩, [], removed⟩)
        | _ =>
          .error (.rotationShape "add exactly the replacement device as an authorizer")
    | _ =>
      .error (.rotationShape "replace its own recovery key with exactly one successor")

/-- Judge one publication against the prior state. -/
def judge (candidate : AccessSet) (prior : Option Prior) (salt : Bytes)
    (probations : List Probation) (recoveryRotatedRecently : Bool) :
    Except AccessError (SignedAs × Effects) := do
  candidate.checkShape
  candidate.principalsAreEntries c salt
  match prior with
  | Option.none =>
    if candidate.version ≠ 0 then .error (.versionNotNext 0 candidate.version)
    else if candidate.prevHash ≠ List.replicate hashBytes 0 then .error .prevHashMismatch
    else if candidate.signer ∉ candidate.authorizers then .error .signerNotPermitted
    else if ¬ candidate.signatureVerifies c then .error .badSignature
    else if candidate.pending ≠ [] then .error (.rotationShape "name pending entries")
    else .ok (.authorizer, Effects.none)
  | some prior =>
    if candidate.version ≠ prior.version + 1 then
      .error (.versionNotNext (prior.version + 1) candidate.version)
    else if candidate.prevHash ≠ prior.digest then .error .prevHashMismatch
    else if candidate.workspace ≠ prior.workspace then .error .workspaceMismatch
    else if candidate.signer ∉ prior.authorizers ∧ candidate.signer ∉ prior.recovery then
      .error .signerNotPermitted
    else if ¬ candidate.signatureVerifies c then .error .badSignature
    else
      let removed := removedEntries candidate prior
      if candidate.signer ∈ prior.authorizers then
        judgeOrdinary c candidate prior salt probations removed
      else judgeRotation c candidate prior salt removed recoveryRotatedRecently

end Rules

/-! ## What an accepted publication has passed -/

/-- The place in the chain every successor has to take. -/
structure Follows (c : Crypto) (candidate : AccessSet) (prior : Prior) : Prop where
  version : candidate.version = prior.version + 1
  prevHash : candidate.prevHash = prior.digest
  workspace : candidate.workspace = prior.workspace
  signature : candidate.signatureVerifies c = true

/-- A genesis set names its own signer and nothing pending. -/
structure GenesisOk (c : Crypto) (candidate : AccessSet) : Prop where
  version : candidate.version = 0
  prevHash : candidate.prevHash = List.replicate hashBytes 0
  signer : candidate.signer ∈ candidate.authorizers
  signature : candidate.signatureVerifies c = true
  pending : candidate.pending = []

/-- What probation allows its device: removals it pinned, and the same authorizers. -/
structure WithinProbation (candidate : AccessSet) (prior : Prior) (probation : Probation) :
    Prop where
  removes : ∀ entry ∈ removedEntries candidate prior, entry ∈ probation.pending
  keeps : ∀ key ∈ prior.authorizers, key ∈ candidate.authorizers
  adds : ∀ key ∈ candidate.authorizers, key ∈ prior.authorizers

/-- An ordinary publication by a prior authorizer. -/
structure OrdinaryOk (candidate : AccessSet) (prior : Prior) (probations : List Probation) :
    Prop where
  signer : candidate.signer ∈ prior.authorizers
  authorizer : ∃ key ∈ prior.authorizers, key ∈ candidate.authorizers
  recovery : ∃ key ∈ prior.recovery, key ∈ candidate.recovery
  pending : candidate.pending = []
  probation : ∀ probation,
    probations.find? (fun p => p.device = candidate.signer) = some probation →
      WithinProbation candidate prior probation

/-- A recovery rotation, with the two keys it brings in. -/
structure RotationOk (c : Crypto) (salt : Bytes) (candidate : AccessSet) (prior : Prior)
    (successor replacement : Bytes) : Prop where
  notAuthorizer : candidate.signer ∉ prior.authorizers
  signer : candidate.signer ∈ prior.recovery
  retired : candidate.signer ∉ candidate.recovery
  newRecovery : candidate.recovery.filter (fun key => key ∉ prior.recovery) = [successor]
  droppedRecovery : prior.recovery.filter (fun key => key ∉ candidate.recovery) = [candidate.signer]
  removes : ∀ entry ∈ removedEntries candidate prior, entry = entryHash c candidate.signer salt
  newAuthorizer : candidate.authorizers.filter (fun key => key ∉ prior.authorizers) = [replacement]
  added : sortDedup (candidate.entries.filter (fun entry => entry ∉ prior.entries)) =
      sortDedup [entryHash c successor salt, entryHash c replacement salt]
  keeps : ∀ key ∈ prior.authorizers, key ∈ candidate.authorizers
  pendingCarried : ∀ entry ∈ candidate.pending, entry ∈ prior.entries
  pendingSpares : ∀ entry ∈ candidate.pending, ∀ key ∈ prior.authorizers,
    entryHash c key salt ≠ entry

section Inversion

variable {c : Crypto} {cand : AccessSet} {salt : Bytes}
variable {signedAs : SignedAs} {eff : Effects} {prior : Prior}

theorem mem_removedEntries {e : Bytes} :
    e ∈ removedEntries cand prior ↔ e ∈ prior.entries ∧ e ∉ cand.entries := by
  simp [removedEntries]

/-- The one key of `new` that `old` lacks. -/
theorem eq_of_filter_eq_singleton {new old : List Bytes} {only : Bytes}
    (h : new.filter (· ∉ old) = [only]) (key : Bytes) : key ∈ new ∧ key ∉ old ↔ key = only := by
  rw [← List.mem_singleton, ← h, List.mem_filter, decide_eq_true_iff]

namespace RotationOk

variable {successor rep : Bytes}
variable (hok : RotationOk c salt cand prior successor rep)
include hok

theorem mem_recovery (key : Bytes) : key ∈ cand.recovery ↔
    key ∈ prior.recovery ∧ key ≠ cand.signer ∨ key = successor := by
  have hnew := eq_of_filter_eq_singleton hok.newRecovery key
  have hdropped := eq_of_filter_eq_singleton hok.droppedRecovery key
  tauto

theorem mem_authorizers (key : Bytes) :
    key ∈ cand.authorizers ↔ key ∈ prior.authorizers ∨ key = rep := by
  have hnew := eq_of_filter_eq_singleton hok.newAuthorizer key
  have hkeeps := hok.keeps key
  tauto

theorem mem_added (e : Bytes) : e ∈ cand.entries ∧ e ∉ prior.entries ↔
    e = entryHash c successor salt ∨ e = entryHash c rep salt := by
  have hadded := (sortDedup_eq_iff _ _).mp hok.added e
  simpa using hadded

end RotationOk

theorem checkPending_ok :
    ∀ {pending : List Bytes}, checkPending c prior salt pending = .ok () → ∀ entry ∈ pending,
        entry ∈ prior.entries ∧ ∀ key ∈ prior.authorizers, entryHash c key salt ≠ entry
  | [], _ => by simp
  | entry :: rest, h => by
      unfold checkPending at h
      split_ifs at h with hcarried hauthorizer
      intro e he
      rcases List.mem_cons.mp he with rfl | he
      · refine ⟨hcarried, ?_⟩
        intro key hkey heq
        exact hauthorizer ⟨key, hkey, heq⟩
      · exact checkPending_ok h e he

variable {prs : List Probation}

theorem mem_clearedBy {device : Bytes} :
    device ∈ clearedBy c cand prior salt prs ↔ (∃ pr ∈ prs, pr.device = device) ∧
        device ≠ cand.signer ∧ entryHash c device salt ∈ cand.entries ∧
        ((∀ x ∈ prs, x.device ≠ cand.signer) ∨ ∃ conf, prior.quorum = some conf ∧
            cand.quorumConfirms c conf (entryHash c device salt) = true) := by
  have hclears : ∀ pr : Probation, clears c cand prior salt prs pr = true ↔
        pr.device ≠ cand.signer ∧ entryHash c pr.device salt ∈ cand.entries ∧
          ((∀ x ∈ prs, x.device ≠ cand.signer) ∨
            ∃ conf, prior.quorum = some conf ∧ cand.quorumConfirms c conf
                (entryHash c pr.device salt) = true) := by
    intro pr
    unfold clears
    by_cases hown : pr.device = cand.signer
    · simp [hown]
    by_cases he : entryHash c pr.device salt ∈ cand.entries
    · cases hq : prior.quorum with
      | none | some => simp [hown, he]
    · simp [hown, he]
  constructor
  · intro h
    obtain ⟨pr, hmem, rfl⟩ := List.mem_map.mp h
    obtain ⟨hin, hc⟩ := List.mem_filter.mp hmem
    exact ⟨⟨pr, hin, rfl⟩, (hclears pr).mp hc⟩
  · rintro ⟨⟨pr, hin, rfl⟩, hr⟩
    exact List.mem_map.mpr ⟨pr, List.mem_filter.mpr ⟨hin, (hclears pr).mpr hr⟩, rfl⟩

theorem judgeOrdinary_ok {removed : List Bytes} (hsig : cand.signer ∈ prior.authorizers)
    (hrem : removed = removedEntries cand prior)
    (h : judgeOrdinary c cand prior salt prs removed = .ok (signedAs, eff)) :
    OrdinaryOk cand prior prs ∧ signedAs = .authorizer ∧
      eff = ⟨none, clearedBy c cand prior salt prs, removed⟩ := by
  unfold judgeOrdinary at h
  obtain ⟨hauth, h⟩ := require_ok h
  obtain ⟨hrec, h⟩ := require_ok h
  obtain ⟨hpend, h⟩ := require_ok h
  cases hfind : prs.find? (·.device = cand.signer) with
  | none =>
    simp only [hfind, Except.ok.injEq, Prod.mk.injEq] at h
    refine ⟨⟨hsig, hauth, hrec, hpend, ?_⟩, h.1.symm, h.2.symm⟩
    intro pr hsome
    rw [hfind] at hsome
    cases hsome
  | some found =>
    simp only [hfind] at h
    obtain ⟨hremoves, h⟩ := require_ok h
    obtain ⟨hkeeps, h⟩ := require_ok h
    obtain ⟨hadds, h⟩ := require_ok h
    simp only [Except.ok.injEq, Prod.mk.injEq] at h
    refine ⟨⟨hsig, hauth, hrec, hpend, ?_⟩, h.1.symm, h.2.symm⟩
    intro pr hsome
    rw [hfind] at hsome
    cases hsome
    exact ⟨hrem ▸ hremoves, hkeeps, hadds⟩

variable {recent : Bool}

theorem judgeRotation_ok {removed : List Bytes} (hnot : cand.signer ∉ prior.authorizers)
    (hsig : cand.signer ∈ prior.recovery) (hrem : removed = removedEntries cand prior)
    (h : judgeRotation c cand prior salt removed recent = .ok (signedAs, eff)) :
    recent = false ∧ signedAs = .recovery ∧ ∃ successor rep,
        RotationOk c salt cand prior successor rep ∧
          eff = ⟨some ⟨rep, cand.version, cand.pending⟩, [], removed⟩ := by
  unfold judgeRotation at h
  obtain ⟨hrecent, h⟩ := guard_ok h
  obtain ⟨hretired, h⟩ := guard_ok h
  dsimp only at h
  split at h
  next successor hnew =>
    obtain ⟨hdropped, h⟩ := require_ok h
    obtain ⟨hremoves, h⟩ := require_ok h
    split at h
    next rep hadded =>
      obtain ⟨hes, h⟩ := require_ok h
      obtain ⟨hkeeps, h⟩ := require_ok h
      cases hpend : checkPending c prior salt cand.pending with
      | error e => simp [hpend] at h
      | ok u =>
        simp only [hpend, Except.ok.injEq, Prod.mk.injEq] at h
        have hpins := checkPending_ok hpend
        refine ⟨by simpa using hrecent, h.1.symm, successor, rep, ?_, h.2.symm⟩
        exact
          { notAuthorizer := hnot
            signer := hsig
            retired := hretired
            newRecovery := hnew
            droppedRecovery := hdropped
            removes := hrem ▸ hremoves
            newAuthorizer := hadded
            added := hes
            keeps := hkeeps
            pendingCarried := fun entry he => (hpins entry he).1
            pendingSpares := fun entry he => (hpins entry he).2 }
    next => cases h
  next => cases h

/-- An accepted publication, by the kind of transition it is. -/
inductive Judged (c : Crypto) (salt : Bytes) (candidate : AccessSet) (probations : List Probation)
    (rotatedRecently : Bool) : Option Prior → SignedAs → Effects → Prop where
  | genesis :
      GenesisOk c candidate →
      Judged c salt candidate probations rotatedRecently none .authorizer Effects.none
  | ordinary (prior : Prior) :
      Follows c candidate prior →
      OrdinaryOk candidate prior probations →
      Judged c salt candidate probations rotatedRecently (some prior) .authorizer
        ⟨none, clearedBy c candidate prior salt probations, removedEntries candidate prior⟩
  | rotation (prior : Prior) (successor replacement : Bytes) :
      Follows c candidate prior →
      rotatedRecently = false →
      RotationOk c salt candidate prior successor replacement →
      Judged c salt candidate probations rotatedRecently (some prior) .recovery
        ⟨some ⟨replacement, candidate.version, candidate.pending⟩, [],
          removedEntries candidate prior⟩

/-- Everything an accepted publication has passed. -/
theorem judge_ok {prior : Option Prior}
    (h : judge c cand prior salt prs recent = .ok (signedAs, eff)) :
    WellShaped c salt cand ∧ Judged c salt cand prs recent prior signedAs eff := by
  unfold judge at h
  obtain ⟨_, hshape, h⟩ := bind_ok h
  obtain ⟨_, hes, h⟩ := bind_ok h
  refine ⟨wellShaped_of_checks hshape hes, ?_⟩
  cases prior with
  | none =>
    dsimp only at h
    obtain ⟨hver, h⟩ := require_ok h
    obtain ⟨hprev, h⟩ := require_ok h
    obtain ⟨hsigner, h⟩ := require_ok h
    obtain ⟨hsig, h⟩ := require_ok h
    obtain ⟨hpend, h⟩ := require_ok h
    cases h
    exact .genesis ⟨hver, hprev, hsigner, hsig, hpend⟩
  | some prior =>
    dsimp only at h
    obtain ⟨hver, h⟩ := require_ok h
    obtain ⟨hprev, h⟩ := require_ok h
    obtain ⟨hws, h⟩ := require_ok h
    obtain ⟨hpermitted, h⟩ := guard_ok h
    obtain ⟨hsig, h⟩ := require_ok h
    have hfollows : Follows c cand prior := ⟨hver, hprev, hws, hsig⟩
    by_cases hauth : cand.signer ∈ prior.authorizers
    · rw [if_pos hauth] at h
      obtain ⟨hok, rfl, rfl⟩ := judgeOrdinary_ok hauth rfl h
      exact .ordinary prior hfollows hok
    · rw [if_neg hauth] at h
      have hrecovery : cand.signer ∈ prior.recovery := by
        by_contra hnot
        exact hpermitted ⟨hauth, hnot⟩
      obtain ⟨hrecent, rfl, successor, rep, hok, rfl⟩ :=
        judgeRotation_ok hauth hrecovery rfl h
      exact .rotation prior successor rep hfollows hrecent hok

theorem Judged.first (h : Judged c salt cand prs recent none signedAs eff) :
    GenesisOk c cand ∧ eff = .none := by
  cases h with
  | genesis hok => exact ⟨hok, rfl⟩

/-- The two kinds of publication on top of a prior set, with their effects. -/
theorem Judged.later (h : Judged c salt cand prs recent (some prior) signedAs eff) :
    Follows c cand prior ∧ ((signedAs = .authorizer ∧ OrdinaryOk cand prior prs ∧
          eff = ⟨none, clearedBy c cand prior salt prs, removedEntries cand prior⟩) ∨
        (signedAs = .recovery ∧ ∃ successor rep, RotationOk c salt cand prior successor rep ∧
            eff = ⟨some ⟨rep, cand.version, cand.pending⟩, [], removedEntries cand prior⟩)) := by
  cases h with
  | ordinary _ hfollows hok => exact ⟨hfollows, .inl ⟨rfl, hok, rfl⟩⟩
  | rotation _ successor rep hfollows _ hok =>
    exact ⟨hfollows, .inr ⟨rfl, successor, rep, hok, rfl⟩⟩

end Inversion

end WealdRelay.Access
