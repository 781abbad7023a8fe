import WealdRelay.Access.Probation

/-!
# The recovery quorum beside the set it confirms

The quorum rides inside every publication. The transition rules check its own shape
and nothing about how it relates to the lists next to it or to the quorum before it,
so its independence is exactly as good as what the publishers put there. This file
says what each publication has to respect for the quorum to stay independent over a
whole chain, and that nothing less will do.
-/

namespace WealdRelay.Access

open Lib

/-- The keys a set configures as its quorum. -/
def AccessSet.quorumKeys (s : AccessSet) : List Bytes :=
  match s.quorum with
  | some quorum => quorum.keys
  | none => []

/-- No quorum key is a principal of the set, nor hashes to one of its entries. -/
def QuorumApart (c : Crypto) (salt : Bytes) (s : AccessSet) : Prop :=
  ∀ key ∈ s.quorumKeys, key ∉ s.authorizers ∧ key ∉ s.recovery ∧ entryHash c key salt ∉ s.entries

/-- The quorum changes only under a prior authorizer's signature and stays apart. -/
structure QuorumIndependent (c : Crypto) (salt : Bytes) (ps : List Publication) : Prop where
  changes : ∀ p ∈ ps, ∀ prior, p.prior = some prior →
    p.candidate.configuredQuorum ≠ prior.configuredQuorum → p.signedAs = .authorizer
  apart : ∀ p ∈ ps, QuorumApart c salt p.candidate

/--
What one publication has to respect, given the set before it: a signer that is no
prior authorizer repeats the quorum, and a quorum key meets an entry only if the two
had already met.
-/
structure RespectsQuorum (c : Crypto) (salt : Bytes) (p : Publication) : Prop where
  repeats : ∀ prior, p.prior = some prior → p.candidate.signer ∉ prior.authorizers →
    p.candidate.configuredQuorum = prior.configuredQuorum
  meets : ∀ key ∈ p.candidate.quorumKeys, entryHash c key salt ∈ p.candidate.entries →
    ∃ prior, p.prior = some prior ∧ key ∈ prior.quorumKeys ∧ entryHash c key salt ∈ prior.entries

section Independence

variable {c : Crypto} {salt : Bytes} {s t : ChainState} {p : Publication}
variable {ps : List Publication}

/-- Principals hash to entries, so a key apart from the entries is apart from them too. -/
theorem quorumApart_of_entries {cur : AccessSet} (hshaped : WellShaped c salt cur)
    (h : ∀ key ∈ cur.quorumKeys, entryHash c key salt ∉ cur.entries) : QuorumApart c salt cur := by
  intro key hkey
  refine ⟨?_, ?_, h key hkey⟩
  · exact fun hin => h key hkey (hshaped.authorizer_entry key hin)
  · exact fun hin => h key hkey (hshaped.recovery_entry key hin)

/-- A rotation is exactly a publication whose signer is no prior authorizer. -/
theorem signedAs_eq_authorizer_iff (h : Accepted c salt s p t) {cur : AccessSet}
    (hcur : s.head = some cur) :
    p.signedAs = .authorizer ↔ p.candidate.signer ∈ cur.authorizers := by
  rcases (h.judged_on hcur).later.2 with ⟨hsig, hok, -⟩ | ⟨hsig, _, _, hok, -⟩
  · exact ⟨fun _ => hok.signer, fun _ => hsig⟩
  · constructor
    · intro hord
      rw [hord] at hsig
      cases hsig
    · exact fun hin => absurd hin hok.notAuthorizer

theorem quorumApart_step (h : Accepted c salt s p t)
    (hapart : ∀ cur, s.head = some cur → QuorumApart c salt cur)
    (hrespects : RespectsQuorum c salt p) : QuorumApart c salt p.candidate := by
  refine quorumApart_of_entries h.shaped ?_
  intro key hkey he
  obtain ⟨prior, hprior, hold, hmet⟩ := hrespects.meets key hkey he
  rw [h.prior] at hprior
  exact (hapart prior hprior key hold).2.2 hmet

/-- Over a whole chain the quorum is independent exactly when each publication respects it. -/
theorem quorumIndependent_iff (hrun : Run (Accepts c salt) ChainState.empty ps t) :
    QuorumIndependent c salt ps ↔ ∀ p ∈ ps, RespectsQuorum c salt p := by
  constructor
  · intro hind p hp
    obtain ⟨_, _, s, _, -, -, hs, -⟩ := hrun.at_label hp
    have hacc := accepted_of_accepts hs
    refine ⟨?_, ?_⟩
    · intro prior hprior hsig
      by_contra hchanged
      have hsigned := hind.changes p hp prior hprior hchanged
      rw [hacc.prior] at hprior
      exact hsig ((signedAs_eq_authorizer_iff hacc hprior).mp hsigned)
    · intro key hkey he
      exact absurd he (hind.apart p hp key hkey).2.2
  · intro hall
    refine ⟨?_, ?_⟩
    · intro p hp prior hprior hchanged
      obtain ⟨_, _, s, _, -, -, hs, -⟩ := hrun.at_label hp
      have hacc := accepted_of_accepts hs
      by_contra hsigned
      refine hchanged ((hall p hp).repeats prior hprior ?_)
      rw [hacc.prior] at hprior
      exact fun hin => hsigned ((signedAs_eq_authorizer_iff hacc hprior).mpr hin)
    · refine (Run.labels (I := fun s => ∀ cur, s.head = some cur → QuorumApart c salt cur)
        ?_ hrun ?_ hall).2
      · intro s p t hapart hrespects hs
        have hacc := accepted_of_accepts hs
        have hnext := quorumApart_step hacc hapart hrespects
        refine ⟨?_, hnext⟩
        intro cur hcur
        rw [hacc.head, Option.some.injEq] at hcur
        exact hcur ▸ hnext
      · intro cur hcur
        cases hcur

end Independence

/-- A rotation that repeats a quorum kept apart. -/
theorem quorumIndependent_iff_sample :
    ∃ ps t, Run (Accepts sampleCrypto sampleSalt) ChainState.empty ps t ∧ ps.length = 2 ∧
      (QuorumIndependent sampleCrypto sampleSalt ps ↔
        ∀ p ∈ ps, RespectsQuorum sampleCrypto sampleSalt p) := by
  have hsample : sampleRun .empty [guardedGenesis, guardedRotation 90]
      (fun ps _ => ps.length = 2) = true := by
    decide +kernel
  obtain ⟨ps, t, hrun, hlength⟩ := run_of_sampleRun hsample
  exact ⟨ps, t, hrun, of_decide_eq_true hlength, quorumIndependent_iff hrun⟩

/-- The sole authorizer registers its own key as the quorum. -/
def selfQuorum : AccessSet := sampleSet none [1] [10] [] (some (sampleQuorum 1)) [] 1

/-- A rotation changes the quorum, and a set names its own authorizer as one. -/
theorem quorum_not_independent :
    (∃ ps t, Run (Accepts sampleCrypto sampleSalt) ChainState.empty ps t ∧
      ∃ p ∈ ps, p.signedAs = .recovery ∧ ∃ prior, p.prior = some prior ∧
        p.candidate.configuredQuorum ≠ prior.configuredQuorum) ∧
      ∃ ps t, Run (Accepts sampleCrypto sampleSalt) ChainState.empty ps t ∧
        ∃ p ∈ ps, ∃ key ∈ p.candidate.quorumKeys, key ∈ p.candidate.authorizers ∧
            entryHash sampleCrypto key sampleSalt ∈ p.candidate.entries := by
  refine ⟨?_, ?_⟩
  · have hsample : sampleRun .empty [guardedGenesis, guardedRotation 91]
        (fun ps _ => ∃ p ∈ ps, p.signedAs = .recovery ∧ p.prior = some guardedGenesis ∧
          p.candidate.configuredQuorum ≠ guardedGenesis.configuredQuorum) = true := by
      decide +kernel
    obtain ⟨ps, t, hrun, hcheck⟩ := run_of_sampleRun hsample
    obtain ⟨p, hp, hsigned, hprior, hchanged⟩ := of_decide_eq_true hcheck
    exact ⟨ps, t, hrun, p, hp, hsigned, guardedGenesis, hprior, hchanged⟩
  · have hsample : sampleRun .empty [selfQuorum]
        (fun ps _ => ∃ p ∈ ps, ∃ key ∈ p.candidate.quorumKeys, key ∈ p.candidate.authorizers ∧
            entryHash sampleCrypto key sampleSalt ∈ p.candidate.entries) = true := by
      decide +kernel
    obtain ⟨ps, t, hrun, hcheck⟩ := run_of_sampleRun hsample
    exact ⟨ps, t, hrun, of_decide_eq_true hcheck⟩

end WealdRelay.Access
