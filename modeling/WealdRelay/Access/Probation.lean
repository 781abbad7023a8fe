import WealdRelay.Access.Chain

/-!
# What a leaked recovery phrase can do

A recovery rotation brings in a replacement device, and the device is on probation
until somebody who predates it, or the configured quorum, says otherwise. This file
follows a continuation of a chain that only newcomers sign: the leaked recovery key
and keys the base set does not list as authorizers.

The invariant is `Contained`: the base set's authorizers are all still there, and
every other authorizer has an open probation. A signer the base set does not list is
therefore on probation whenever it publishes at all, which is what bounds it.
-/

namespace WealdRelay.Access

open Lib List

section Step

variable {c : Crypto} {salt : Bytes} {s t : ChainState} {p : Publication}

theorem Accepted.judged_on (h : Accepted c salt s p t) {cur} (hcur : s.head = some cur) :
    Judged c salt p.candidate p.probations p.rotatedRecently (some (cur.toPrior c)) p.signedAs
      p.effects := by
  have hjudged := h.judged
  rwa [h.prior, hcur, Option.map_some] at hjudged

variable {cand : AccessSet} {prior : Prior}

theorem withinProbation_of_open {prs} (hok : OrdinaryOk cand prior prs)
    (hopen : ∃ pr ∈ prs, pr.device = cand.signer) :
    ∃ pr ∈ prs, pr.device = cand.signer ∧ WithinProbation cand prior pr := by
  cases hfind : prs.find? (·.device = cand.signer) with
  | none =>
    obtain ⟨pr, hmem, hdev⟩ := hopen
    have hnot := find?_eq_none.mp hfind pr hmem
    simp [hdev] at hnot
  | some found =>
    have hdevice := find?_some hfind
    exact ⟨found, mem_of_find?_eq_some hfind, of_decide_eq_true hdevice, hok.probation found hfind⟩

end Step

/-- The base set's authorizers are intact and everybody else is on probation. -/
structure Contained (base : AccessSet) (cur : AccessSet) (probations : List Probation) :
    Prop where
  keeps : ∀ key ∈ base.authorizers, key ∈ cur.authorizers
  gains : ∀ key ∈ cur.authorizers,
    key ∈ base.authorizers ∨ ∃ probation ∈ probations, probation.device = key

theorem contained_refl (base : AccessSet) (prs : List Probation) : Contained base base prs :=
  ⟨fun _ hkey => hkey, fun _ hkey => .inl hkey⟩

section Containment

variable {c : Crypto} {salt : Bytes} {s t : ChainState} {p : Publication}
variable {base cur : AccessSet}

/-- Whoever signs an ordinary publication from outside the base set is on probation. -/
theorem probation_of_signer (h : Accepted c salt s p t)
    (hcont : Contained base cur (readProbations s.table))
    (hsig : p.candidate.signer ∉ base.authorizers)
    (hok : OrdinaryOk p.candidate (cur.toPrior c) p.probations) :
    ∃ pr ∈ p.probations, pr.device = p.candidate.signer := by
  rw [h.probations]
  rcases hcont.gains _ hok.signer with hbase | hopen
  · exact absurd hbase hsig
  · exact hopen

/-- A publication from outside the base set that clears nothing keeps it contained. -/
theorem contained_step (h : Accepted c salt s p t) (hcur : s.head = some cur)
    (hcont : Contained base cur (readProbations s.table))
    (hsig : p.candidate.signer ∉ base.authorizers) (hclears : p.effects.clearsProbation = []) :
    Contained base p.candidate (readProbations t.table) := by
  have hopen : ∀ pr, pr ∈ readProbations t.table ↔
      p.effects.opensProbation = some pr ∨ (pr ∈ readProbations s.table ∧
          ∀ opened, p.effects.opensProbation = some opened → pr.device ≠ opened.device) := by
    intro pr
    rw [h.table, mem_readProbations_applyEffects, hclears]
    simp
  rcases (h.judged_on hcur).later.2 with
    ⟨-, hok, heffects⟩ | ⟨-, successor, rep, hok, heffects⟩
  · obtain ⟨_, -, -, hin⟩ :=
      withinProbation_of_open hok (probation_of_signer h hcont hsig hok)
    refine ⟨fun key hkey => hin.keeps key (hcont.keeps key hkey), ?_⟩
    intro key hkey
    rcases hcont.gains key (hin.adds key hkey) with hbase | ⟨pr, hmem, hdev⟩
    · exact .inl hbase
    · refine .inr ⟨pr, (hopen pr).mpr (.inr ⟨hmem, ?_⟩), hdev⟩
      simp [heffects]
  · refine ⟨fun key hkey => hok.keeps key (hcont.keeps key hkey), ?_⟩
    intro key hkey
    have hnew : ∃ pr ∈ readProbations t.table, pr.device = rep :=
      ⟨_, (hopen _).mpr (.inl (by rw [heffects])), rfl⟩
    by_cases hrep : key = rep
    · exact .inr (hrep ▸ hnew)
    · rcases (hok.mem_authorizers key).mp hkey with hprior | heq
      · rcases hcont.gains key hprior with hbase | ⟨pr, hmem, hdev⟩
        · exact .inl hbase
        · refine .inr ⟨pr, (hopen pr).mpr (.inr ⟨hmem, ?_⟩), hdev⟩
          intro opened hopened hsame
          rw [heffects, Option.some.injEq] at hopened
          rw [← hopened, hdev] at hsame
          exact hrep hsame
      · exact absurd heq hrep

/-- From outside the base set, only the quorum of the current set clears anybody. -/
theorem quorum_of_clears (h : Accepted c salt s p t) (hcur : s.head = some cur)
    (hcont : Contained base cur (readProbations s.table))
    (hsig : p.candidate.signer ∉ base.authorizers) {device}
    (hdevice : device ∈ p.effects.clearsProbation) :
    (∃ pr ∈ p.probations, pr.device = device) ∧
      ∃ conf, (cur.toPrior c).quorum = some conf ∧
        p.candidate.CarriesConfirmation c conf (entryHash c device salt) := by
  rcases (h.judged_on hcur).later.2 with ⟨-, hok, heffects⟩ | ⟨-, _, _, -, heffects⟩
  · rw [heffects] at hdevice
    obtain ⟨hopen, -, -, hword⟩ := mem_clearedBy.mp hdevice
    refine ⟨hopen, ?_⟩
    rcases hword with hnone | ⟨conf, hquorum, hconfirms⟩
    · obtain ⟨pr, hmem, hdev⟩ := probation_of_signer h hcont hsig hok
      exact absurd hdev (hnone pr hmem)
    · exact ⟨conf, hquorum, carriesConfirmation_of_quorumConfirms hconfirms⟩
  · rw [heffects] at hdevice
    simp at hdevice

end Containment

/-! ## No way out of probation -/

section NoWayOut

variable {c : Crypto} {salt : Bytes} {s t : ChainState} {ps : List Publication}
variable {base : AccessSet} {quorum : RecoveryQuorum} {k : Bytes}

/--
A continuation signed by one recovery key of the base set and by keys it does not
list, which repeats the base set's quorum and never carries that quorum's
confirmation of a device on probation, clears nobody.
-/
theorem clearsProbation_eq_nil_of_newcomers
    (hbase : s.head = some base)
    (hquorum : base.configuredQuorum = some quorum)
    (hk : k ∉ base.authorizers)
    (hrun : Run (Accepts c salt) s ps t)
    (hsigners : ∀ p ∈ ps, p.candidate.signer = k ∨
      (p.candidate.signer ∉ base.authorizers ∧ p.candidate.signer ∉ base.recovery))
    (hrepeats : ∀ p ∈ ps, p.candidate.configuredQuorum = some quorum)
    (hunconfirmed : ∀ p ∈ ps, ∀ probation ∈ p.probations,
      ¬ p.candidate.CarriesConfirmation c quorum (entryHash c probation.device salt)) :
    ∀ p ∈ ps, p.effects.clearsProbation = [] := by
  have houtside : ∀ p ∈ ps, p.candidate.signer ∉ base.authorizers := by
    intro p hp
    rcases hsigners p hp with heq | ⟨hnew, -⟩
    · rw [heq]
      exact hk
    · exact hnew
  -- The quorum of the current set is carried next to containment.
  refine (Run.labels (I := fun s => ∃ cur, s.head = some cur ∧ cur.configuredQuorum = some quorum ∧
      Contained base cur (readProbations s.table))
    (C := fun p => p.candidate.signer ∉ base.authorizers ∧
      p.candidate.configuredQuorum = some quorum ∧
      ∀ probation ∈ p.probations,
        ¬ p.candidate.CarriesConfirmation c quorum (entryHash c probation.device salt))
    ?_ hrun ⟨base, hbase, hquorum, contained_refl base _⟩
    (fun p hp => ⟨houtside p hp, hrepeats p hp, hunconfirmed p hp⟩)).2
  rintro s p t ⟨cur, hcur, hcurq, hcontained⟩ ⟨hsig, hq, hun⟩ hs
  have hacc := accepted_of_accepts hs
  have hclears : p.effects.clearsProbation = [] := by
    rw [eq_nil_iff_forall_not_mem]
    intro device hdev
    obtain ⟨⟨probation, hmem, rfl⟩, configured, hconf, hcarries⟩ :=
      quorum_of_clears hacc hcur hcontained hsig hdev
    have hsame : configured = quorum := by
      have : some configured = some quorum := by rw [← hconf, ← hcurq]; rfl
      exact Option.some.inj this
    exact hun probation hmem (hsame ▸ hcarries)
  exact ⟨⟨p.candidate, hacc.head, hq, contained_step hacc hcur hcontained hsig hclears⟩, hclears⟩

end NoWayOut

/-- A sample quorum of one key. -/
def sampleQuorum (n : Byte) : RecoveryQuorum := ⟨1, [sampleKey n], []⟩

/-- A genesis set that registers key 90 as its quorum. -/
def guardedGenesis : AccessSet :=
  sampleSet none [1] [10] [] (some (sampleQuorum 90)) [] 1

/-- A rotation of key 10 that configures `quorum`. -/
def guardedRotation (quorum : Byte) : AccessSet :=
  sampleSet (some guardedGenesis) [1, 2] [11] [] (some (sampleQuorum quorum)) [] 10

/-- The replacement device publishes while it is on probation. -/
def guardedFollowUp : AccessSet :=
  sampleSet (some (guardedRotation 90)) [1, 2] [11] [] (some (sampleQuorum 90)) [] 2

/-- Whether no set of a run carries a signature by a key of `quorum`. -/
def unsignedBy (quorum : RecoveryQuorum) (ps : List Publication) : Bool :=
  ps.all (fun p => (p.candidate.quorum.all (fun carried =>
    carried.sigs.all (fun signature => signature.key ∉ quorum.keys))))

variable {c : Crypto} {ps : List Publication}

theorem not_confirmed_of_unsignedBy {quorum} (hthreshold : 0 < quorum.threshold)
    (h : unsignedBy quorum ps = true) {p} (hp : p ∈ ps) (e : Bytes) :
    ¬ p.candidate.CarriesConfirmation c quorum e := by
  refine not_carriesConfirmation hthreshold ?_
  intro carried hcarried signature hsig
  have hset := all_eq_true.mp h p hp
  rw [hcarried, Option.all_some] at hset
  exact of_decide_eq_true (all_eq_true.mp hset signature hsig)

theorem clearsProbation_eq_nil_of_newcomers_sample : ∃ s ps t, s.head = some guardedGenesis ∧
      Run (Accepts sampleCrypto sampleSalt) s ps t ∧ ps.length = 2 ∧
      ∀ p ∈ ps, p.effects.clearsProbation = [] := by
  have hsample : sampleRun ⟨some guardedGenesis, []⟩ [guardedRotation 90, guardedFollowUp]
      (fun ps _ => ps.length = 2 ∧ (∀ p ∈ ps, p.candidate.signer = sampleKey 10 ∨
          (p.candidate.signer ∉ guardedGenesis.authorizers ∧
            p.candidate.signer ∉ guardedGenesis.recovery)) ∧
        (∀ p ∈ ps, p.candidate.configuredQuorum = some (sampleQuorum 90)) ∧
        unsignedBy (sampleQuorum 90) ps = true) = true := by
    decide +kernel
  obtain ⟨ps, t, hrun, hcheck⟩ := run_of_sampleRun hsample
  obtain ⟨hlength, hsigners, hrepeats, hunsigned⟩ := of_decide_eq_true hcheck
  refine ⟨_, ps, t, rfl, hrun, hlength, ?_⟩
  exact clearsProbation_eq_nil_of_newcomers rfl rfl (by decide +kernel) hrun hsigners hrepeats
    (fun p hp probation _ => not_confirmed_of_unsignedBy (by decide) hunsigned hp _)

/-- The successor phrase rotates again, under the quorum the first rotation put in place. -/
def secondRotation : AccessSet :=
  sampleSet (some (guardedRotation 91)) [1, 2, 3] [12] [] (some (sampleQuorum 91)) [] 11

/-- Device 3 carries key 91's signature over the entry of device 2. -/
def selfConfirmed : AccessSet :=
  let plain :=
    sampleSet (some secondRotation) [1, 2, 3] [12] [] (some (sampleQuorum 91)) [] 3
  let message := quorumMessage sampleCrypto (plain.digest sampleCrypto) (sampleEntry 2)
  { plain with
    quorum := some { sampleQuorum 91 with
      sigs := [⟨sampleKey 91, sampleHash sigBytes (sampleKey 91 ++ message)⟩] } }

/--
A rotation replaces the quorum, so the phrase's own key confirms the phrase's own
device. The base set's quorum signs nothing and every signer is the leaked key or a
key whose entry the base set does not carry.
-/
theorem leaked_phrase_clears_itself :
    ∃ ps₀ s ps t, Run (Accepts sampleCrypto sampleSalt) ChainState.empty ps₀ s ∧
      s.head = some guardedGenesis ∧ readProbations s.table = [] ∧
      guardedGenesis.configuredQuorum = some (sampleQuorum 90) ∧
      sampleKey 10 ∈ guardedGenesis.recovery ∧ sampleKey 10 ∉ guardedGenesis.authorizers ∧
      Run (Accepts sampleCrypto sampleSalt) s ps t ∧
      (∀ p ∈ ps, p.candidate.signer = sampleKey 10 ∨
        entryHash sampleCrypto p.candidate.signer sampleSalt ∉ guardedGenesis.entries) ∧
      (∀ p ∈ ps, ∀ probation ∈ p.probations,
        ¬ p.candidate.CarriesConfirmation sampleCrypto (sampleQuorum 90)
          (entryHash sampleCrypto probation.device sampleSalt)) ∧
      ∃ p ∈ ps, p.effects.clearsProbation = [sampleKey 2] := by
  have hbase : sampleRun .empty [guardedGenesis]
      (fun _ t => t = ⟨some guardedGenesis, []⟩) = true := by
    decide +kernel
  have hattack : sampleRun ⟨some guardedGenesis, []⟩
      [guardedRotation 91, secondRotation, selfConfirmed]
      (fun ps _ =>
        (∀ p ∈ ps, p.candidate.signer = sampleKey 10 ∨
          entryHash sampleCrypto p.candidate.signer sampleSalt ∉ guardedGenesis.entries) ∧
        unsignedBy (sampleQuorum 90) ps = true ∧
        ∃ p ∈ ps, p.effects.clearsProbation = [sampleKey 2]) = true := by
    decide +kernel
  obtain ⟨ps₀, s, hrun₀, hs⟩ := run_of_sampleRun hbase
  obtain ⟨ps, t, hrun, hcheck⟩ := run_of_sampleRun hattack
  obtain ⟨hsigners, hunsigned, hclears⟩ := of_decide_eq_true hcheck
  obtain rfl := of_decide_eq_true hs
  refine ⟨ps₀, _, ps, t, hrun₀, rfl, rfl, rfl, by decide +kernel, by decide +kernel, hrun,
    hsigners, ?_, hclears⟩
  intro p hp probation _
  exact not_confirmed_of_unsignedBy (by decide) hunsigned hp _

/-! ## Nobody else loses authority -/

theorem head_wellShaped {salt s}
    (h : Run (Accepts c salt) ChainState.empty ps s) {cur} (hcur : s.head = some cur) :
    WellShaped c salt cur := by
  refine Run.invariant ?_ h ?_ cur hcur
  · intro s p t _ hs cur hcur
    have hacc := accepted_of_accepts hs
    rw [hacc.head, Option.some.injEq] at hcur
    exact hcur ▸ hacc.shaped
  · intro cur hcur
    cases hcur

section Survival

variable {c : Crypto} {salt : Bytes} {s t : ChainState} {p : Publication}
variable {base cur last : AccessSet} {k : Bytes}

/-- Why an entry of the base set may be missing after the publications `ps`. -/
def EntryGone (c : Crypto) (salt k : Bytes) (ps : List Publication) (entry : Bytes) : Prop :=
  entry = entryHash c k salt ∨ ∃ p ∈ ps, p.signedAs = .recovery ∧ entry ∈ p.candidate.pending

/-- A device on probation published a set that leaves out the recovery key. -/
def RecoveryShed (ps : List Publication) (key : Bytes) : Prop :=
  ∃ p ∈ ps, p.signedAs = .authorizer ∧
    (∃ probation ∈ p.probations, probation.device = p.candidate.signer) ∧
    (∃ prior, p.prior = some prior ∧ key ∈ prior.recovery) ∧ key ∉ p.candidate.recovery

variable {ps : List Publication}

theorem EntryGone.mono {e} (h : EntryGone c salt k ps e) (p : Publication) :
    EntryGone c salt k (ps ++ [p]) e := by
  rcases h with hown | ⟨q, hq, hr⟩
  · exact .inl hown
  · exact .inr ⟨q, mem_append_left _ hq, hr⟩

theorem RecoveryShed.mono {key} (h : RecoveryShed ps key) (p : Publication) :
    RecoveryShed (ps ++ [p]) key := by
  obtain ⟨q, hq, hr⟩ := h
  exact ⟨q, mem_append_left _ hq, hr⟩

/-- What is left of the base set after the publications `ps`. -/
structure Survives (c : Crypto) (salt k : Bytes) (base cur : AccessSet)
    (ps : List Publication) : Prop where
  entries : ∀ entry ∈ base.entries, entry ∈ cur.entries ∨ EntryGone c salt k ps entry
  recovery : ∀ key ∈ base.recovery, key ≠ k → key ∈ cur.recovery ∨ RecoveryShed ps key

/-- One publication by the leaked key or by a key the base set does not carry. -/
theorem survives_step (h : Accepted c salt s p t) (hcur : s.head = some cur)
    (hshaped : WellShaped c salt base) (hcont : Contained base cur (readProbations s.table))
    (hopened : ∀ pr ∈ p.probations, ∃ q ∈ ps,
      q.signedAs = .recovery ∧ pr.pending = q.candidate.pending) (hk : k ∉ base.authorizers)
    (hsigner : p.candidate.signer = k ∨ entryHash c p.candidate.signer salt ∉ base.entries)
    (hsurvives : Survives c salt k base cur ps) :
    Survives c salt k base p.candidate (ps ++ [p]) := by
  have houtside : p.candidate.signer ∉ base.authorizers := by
    rcases hsigner with heq | hnew
    · exact heq ▸ hk
    · exact fun hin => hnew (hshaped.authorizer_entry _ hin)
  rcases (h.judged_on hcur).later.2 with ⟨hsig, hok, -⟩ | ⟨-, successor, rep, hok, -⟩
  · have hon := probation_of_signer h hcont houtside hok
    obtain ⟨pr, hmem, -, hwithin⟩ := withinProbation_of_open hok hon
    refine ⟨?_, ?_⟩
    · intro e he
      rcases hsurvives.entries e he with hin | hgone
      · by_cases hkept : e ∈ p.candidate.entries
        · exact .inl hkept
        · -- Removed by the device on probation, so pinned by the rotation that opened it.
          obtain ⟨q, hq, hrot, hpend⟩ := hopened pr hmem
          have hpinned := hwithin.removes e (mem_removedEntries.mpr ⟨hin, hkept⟩)
          exact .inr (.inr ⟨q, mem_append_left _ hq, hrot, hpend ▸ hpinned⟩)
      · exact .inr (hgone.mono p)
    · intro key hkey hne
      rcases hsurvives.recovery key hkey hne with hin | hshed
      · by_cases hkept : key ∈ p.candidate.recovery
        · exact .inl hkept
        · exact .inr ⟨p, by simp, hsig, hon, ⟨cur, by rw [h.prior, hcur], hin⟩, hkept⟩
      · exact .inr (hshed.mono p)
  · refine ⟨?_, ?_⟩
    · intro e he
      rcases hsurvives.entries e he with hin | hgone
      · by_cases hkept : e ∈ p.candidate.entries
        · exact .inl hkept
        · have hown := hok.removes e (mem_removedEntries.mpr ⟨hin, hkept⟩)
          rcases hsigner with heq | hnew
          · exact .inr (.inl (heq ▸ hown))
          · exact absurd (hown ▸ he) hnew
      · exact .inr (hgone.mono p)
    · intro key hkey hne
      rcases hsurvives.recovery key hkey hne with hin | hshed
      · by_cases hkept : key ∈ p.candidate.recovery
        · exact .inl hkept
        · have hdropped := (eq_of_filter_eq_singleton hok.droppedRecovery key).mp ⟨hin, hkept⟩
          rcases hsigner with heq | hnew
          · exact absurd (hdropped.trans heq) hne
          · exact absurd (hshaped.recovery_entry key hkey) (hdropped ▸ hnew)
      · exact .inr (hshed.mono p)

/--
While nobody is cleared, a continuation signed by the leaked key and by keys whose
entries the base set does not carry leaves every authorizer of the base set in place,
removes of its entries only the leaked key's own and those the continuation's
rotations pinned, and sheds another recovery principal only by an ordinary
publication of a device on probation, each of which keeps one of the recovery
principals it found.
-/
theorem authority_survives_newcomers
    {ps₀ ps : List Publication}
    (hreach : Run (Accepts c salt) ChainState.empty ps₀ s)
    (hbase : s.head = some base)
    (hopen : readProbations s.table = [])
    (hk : k ∉ base.authorizers)
    (hrun : Run (Accepts c salt) s ps t)
    (hsigners : ∀ p ∈ ps, p.candidate.signer = k ∨
      entryHash c p.candidate.signer salt ∉ base.entries)
    (hclears : ∀ p ∈ ps, p.effects.clearsProbation = [])
    (hlast : t.head = some last) :
    (∀ key ∈ base.authorizers, key ∈ last.authorizers) ∧
      (∀ entry ∈ base.entries, entry ∈ last.entries ∨ EntryGone c salt k ps entry) ∧
      (∀ key ∈ base.recovery, key ≠ k → key ∈ last.recovery ∨ RecoveryShed ps key) ∧
      ∀ p ∈ ps, p.signedAs = .authorizer →
        ∃ prior, p.prior = some prior ∧ ∃ key ∈ prior.recovery, key ∈ p.candidate.recovery := by
  have hshaped := head_wellShaped hreach hbase
  have hinv : (∀ p ∈ ps, (p.candidate.signer = k ∨
        entryHash c p.candidate.signer salt ∉ base.entries) ∧
        p.effects.clearsProbation = []) →
      ∃ cur, t.head = some cur ∧ Contained base cur (readProbations t.table) ∧
        Survives c salt k base cur ps ∧
        ∀ p ∈ ps, p.signedAs = .authorizer → ∃ prior, p.prior = some prior ∧
            ∃ key ∈ prior.recovery, key ∈ p.candidate.recovery := by
    refine Run.history ?_ ?_ hrun
    · intro _
      exact ⟨base, hbase, contained_refl base _, ⟨fun _ h => .inl h, fun _ h _ => .inl h⟩, by simp⟩
    · intro ps m p u hpre ih hs hall
      obtain ⟨cur, hcur, hcontained, hsurvives, hkeep⟩ :=
        ih (fun q hq => hall q (mem_append_left _ hq))
      obtain ⟨hsig, hclear⟩ := hall p (by simp)
      have hacc := accepted_of_accepts hs
      have houtside : p.candidate.signer ∉ base.authorizers := by
        rcases hsig with heq | hnew
        · exact heq ▸ hk
        · exact fun hin => hnew (hshaped.authorizer_entry _ hin)
      -- Nothing was open at the base set, so every open probation is the run's own.
      have hopened : ∀ probation ∈ p.probations, ∃ q ∈ ps,
          q.signedAs = .recovery ∧ probation.pending = q.candidate.pending := by
        intro probation hmem
        rw [hacc.probations] at hmem
        rcases run_probation hpre probation hmem with hold | ⟨q, hq, hopens⟩
        · rw [hopen] at hold
          cases hold
        · obtain ⟨_, _, -, hrotation, -, -, hpending⟩ := run_opens hpre hq hopens
          exact ⟨q, hq, hrotation, hpending⟩
      refine ⟨p.candidate, hacc.head, contained_step hacc hcur hcontained houtside hclear,
        survives_step hacc hcur hshaped hcontained hopened hk hsig hsurvives, ?_⟩
      intro q hq hsigned
      rcases mem_snoc.mp hq with hq | rfl
      · exact hkeep q hq hsigned
      · rcases (hacc.judged_on hcur).later.2 with ⟨-, hok, -⟩ | ⟨hrotation, -⟩
        · exact ⟨cur, by rw [hacc.prior, hcur], hok.recovery⟩
        · rw [hsigned] at hrotation
          cases hrotation
  obtain ⟨cur, hcur, hcontained, hsurvives, hkeep⟩ :=
    hinv (fun p hp => ⟨hsigners p hp, hclears p hp⟩)
  rw [hlast, Option.some.injEq] at hcur
  subst hcur
  exact ⟨hcontained.keeps, hsurvives.entries, hsurvives.recovery, hkeep⟩

end Survival

/-- Two recovery principals, 10 and 20, and a member device 5. -/
def twoPhrases : AccessSet :=
  sampleSet none [1] [10, 20] [sampleEntry 5] none [] 1

/-- Key 10 rotates and pins the member device. -/
def firstPhraseRotates : AccessSet :=
  sampleSet (some twoPhrases) [1, 2] [11, 20] [sampleEntry 5] none [sampleEntry 5] 10

/-- The replacement device removes what was pinned and drops recovery key 20. -/
def otherPhraseShed : AccessSet :=
  sampleSet (some firstPhraseRotates) [1, 2] [11] [sampleEntry 20] none [] 2

/-- The two publications above, from a chain that has accepted only `twoPhrases`. -/
theorem run_shed : ∃ ps₀ ps t, Run (Accepts sampleCrypto sampleSalt) ChainState.empty ps₀
        ⟨some twoPhrases, []⟩ ∧
      Run (Accepts sampleCrypto sampleSalt) ⟨some twoPhrases, []⟩ ps t ∧
      ps.length = 2 ∧ t.head = some otherPhraseShed ∧
      (∀ p ∈ ps, p.candidate.signer = sampleKey 10 ∨
        entryHash sampleCrypto p.candidate.signer sampleSalt ∉ twoPhrases.entries) ∧
      ∀ p ∈ ps, p.effects.clearsProbation = [] := by
  have hbase : sampleRun .empty [twoPhrases] (fun _ t => t = ⟨some twoPhrases, []⟩) = true := by
    decide +kernel
  have hshed : sampleRun ⟨some twoPhrases, []⟩ [firstPhraseRotates, otherPhraseShed]
      (fun ps t => ps.length = 2 ∧ t.head = some otherPhraseShed ∧
        (∀ p ∈ ps, p.candidate.signer = sampleKey 10 ∨
          entryHash sampleCrypto p.candidate.signer sampleSalt ∉ twoPhrases.entries) ∧
        ∀ p ∈ ps, p.effects.clearsProbation = []) = true := by
    decide +kernel
  obtain ⟨ps₀, s, hrun₀, hs⟩ := run_of_sampleRun hbase
  obtain ⟨ps, t, hrun, hcheck⟩ := run_of_sampleRun hshed
  obtain rfl := of_decide_eq_true hs
  exact ⟨ps₀, ps, t, hrun₀, hrun, of_decide_eq_true hcheck⟩

theorem authority_survives_newcomers_sample :
    (∀ key ∈ twoPhrases.authorizers, key ∈ otherPhraseShed.authorizers) ∧
      ∃ ps : List Publication, ps.length = 2 ∧
        ∀ entry ∈ twoPhrases.entries, entry ∈ otherPhraseShed.entries ∨
          EntryGone sampleCrypto sampleSalt (sampleKey 10) ps entry := by
  obtain ⟨ps₀, ps, t, hreach, hrun, hlength, hlast, hsigners, hclears⟩ := run_shed
  obtain ⟨hkeeps, hes, -, -⟩ :=
    authority_survives_newcomers hreach rfl rfl (by decide +kernel) hrun hsigners hclears hlast
  exact ⟨hkeeps, ps, hlength, hes⟩

/-- The recovery list is not held: a device on probation sheds another phrase. -/
theorem other_phrase_is_shed :
    ∃ ps₀ ps t, Run (Accepts sampleCrypto sampleSalt) ChainState.empty ps₀ ⟨some twoPhrases, []⟩ ∧
      Run (Accepts sampleCrypto sampleSalt) ⟨some twoPhrases, []⟩ ps t ∧
      (∀ p ∈ ps, p.candidate.signer = sampleKey 10 ∨
        entryHash sampleCrypto p.candidate.signer sampleSalt ∉ twoPhrases.entries) ∧
      (∀ p ∈ ps, p.effects.clearsProbation = []) ∧
      sampleKey 10 ∈ twoPhrases.recovery ∧ sampleKey 10 ∉ twoPhrases.authorizers ∧
      sampleKey 20 ∈ twoPhrases.recovery ∧ sampleKey 20 ≠ sampleKey 10 ∧
      ∃ last, t.head = some last ∧ sampleKey 20 ∉ last.recovery := by
  obtain ⟨ps₀, ps, t, hreach, hrun, -, hlast, hsigners, hclears⟩ := run_shed
  exact ⟨ps₀, ps, t, hreach, hrun, hsigners, hclears, by decide +kernel, by decide +kernel,
    by decide +kernel, by decide +kernel, otherPhraseShed, hlast, by decide +kernel⟩

/-! ## What one rotation changes -/

/-- A rotation puts one successor in its own phrase's place and brings in one device: the other
phrases and the authorizers stay, and the entries change by these keys' own. -/
theorem rotation_changes_own_phrase
    {c : Crypto}
    {candidate : AccessSet}
    {prior : Prior}
    {salt : Bytes}
    {probations : List Probation}
    {rotatedRecently : Bool}
    {effects : Effects}
    (h : judge c candidate (some prior) salt probations rotatedRecently =
      .ok (.recovery, effects)) :
    candidate.signer ∈ prior.recovery ∧ ∃ successor replacement,
      (successor ∉ prior.recovery ∧ ∀ key, key ∈ candidate.recovery ↔
        key ∈ prior.recovery ∧ key ≠ candidate.signer ∨ key = successor) ∧
      (replacement ∉ prior.authorizers ∧ ∀ key, key ∈ candidate.authorizers ↔
        key ∈ prior.authorizers ∨ key = replacement) ∧
      (entryHash c successor salt ∉ prior.entries ∧ entryHash c replacement salt ∉ prior.entries ∧
        ∀ entry, entry ∈ candidate.entries ↔ entry ∈ prior.entries ∧ entry ∉ effects.removed ∨
          entry = entryHash c successor salt ∨ entry = entryHash c replacement salt) ∧
      (∀ entry, entry ∈ effects.removed ↔ entry ∈ prior.entries ∧ entry ∉ candidate.entries) ∧
      (∀ entry ∈ effects.removed, entry = entryHash c candidate.signer salt) ∧
      (∀ entry ∈ candidate.pending, entry ∈ prior.entries ∧
        ∀ key ∈ prior.authorizers, entry ≠ entryHash c key salt) ∧
      effects.opensProbation = some ⟨replacement, candidate.version, candidate.pending⟩ ∧
      effects.clearsProbation = [] := by
  obtain ⟨-, hjudged⟩ := judge_ok h
  cases hjudged with
  | rotation _ successor replacement _ _ hok =>
    have hsuccessor := (hok.mem_added (entryHash c successor salt)).mpr (.inl rfl)
    have hreplacement := (hok.mem_added (entryHash c replacement salt)).mpr (.inr rfl)
    refine ⟨hok.signer, successor, replacement,
      ⟨((eq_of_filter_eq_singleton hok.newRecovery successor).mpr rfl).2, hok.mem_recovery⟩,
      ⟨((eq_of_filter_eq_singleton hok.newAuthorizer replacement).mpr rfl).2, hok.mem_authorizers⟩,
      ⟨hsuccessor.2, hreplacement.2, fun entry => ?_⟩, fun _ => mem_removedEntries, hok.removes,
      fun entry he => ⟨hok.pendingCarried entry he, fun key hkey heq => ?_⟩, rfl, rfl⟩
    · rw [← hok.mem_added, mem_removedEntries]
      tauto
    · exact hok.pendingSpares entry he key hkey heq.symm

/-- Key 11 succeeds key 10 and device 2 comes in. -/
theorem rotation_changes_own_phrase_sample : ∃ effects,
    judge sampleCrypto firstPhraseRotates (some (twoPhrases.toPrior sampleCrypto)) sampleSalt []
        false = .ok (.recovery, effects) ∧
      ∀ entry ∈ effects.removed, entry = sampleEntry 10 := by
  have hjudge : judge sampleCrypto firstPhraseRotates (some (twoPhrases.toPrior sampleCrypto))
      sampleSalt [] false = .ok (.recovery,
        ⟨some ⟨sampleKey 2, 1, [sampleEntry 5]⟩, [], [sampleEntry 10]⟩) := by
    decide +kernel
  obtain ⟨-, _, _, -, -, -, -, hrem, -⟩ := rotation_changes_own_phrase hjudge
  exact ⟨_, hjudge, hrem⟩

/-! ## Nothing is delegated -/

section Delegation

variable {c : Crypto} {salt : Bytes} {s t : ChainState} {base last : AccessSet}
variable {ps₀ ps : List Publication}

/-- What an ordinary publication of a device on probation may change. -/
def Undelegated (p : Publication) : Prop :=
  ∃ prior probation, p.prior = some prior ∧ probation ∈ p.probations ∧
      probation.device = p.candidate.signer ∧
      p.candidate.authorizers = prior.authorizers ∧
      (∀ entry ∈ prior.entries, entry ∈ p.candidate.entries ∨ entry ∈ probation.pending) ∧
      (∃ key ∈ prior.recovery, key ∈ p.candidate.recovery) ∧ p.candidate.pending = []

/-- The keys a rotation brings in, and the only entries it adds. -/
def Introduces (c : Crypto) (salt : Bytes) (p : Publication) : Prop :=
  ∃ prior successor replacement, p.prior = some prior ∧ successor ∈ p.candidate.recovery ∧
      p.effects.opensProbation = some ⟨replacement, p.candidate.version, p.candidate.pending⟩ ∧
      ∀ entry ∈ p.candidate.entries, entry ∈ prior.entries ∨
        entry = entryHash c successor salt ∨ entry = entryHash c replacement salt

variable {p : Publication} {cur : AccessSet}

theorem undelegated_step (h : Accepted c salt s p t) (hcur : s.head = some cur)
    (hshaped : WellShaped c salt cur) (hsig : p.signedAs = .authorizer)
    (hon : ∃ pr ∈ p.probations, pr.device = p.candidate.signer) : Undelegated p := by
  rcases (h.judged_on hcur).later.2 with ⟨-, hok, -⟩ | ⟨hrot, -⟩
  · obtain ⟨pr, hmem, hdev, hin⟩ := withinProbation_of_open hok hon
    have heq : p.candidate.authorizers = cur.authorizers := by
      refine h.shaped.authorizers_sorted.eq_of_mem_iff hshaped.authorizers_sorted ?_
      exact fun key => ⟨hin.adds key, hin.keeps key⟩
    have hes : ∀ e ∈ cur.entries, e ∈ p.candidate.entries ∨ e ∈ pr.pending := by
      intro e he
      by_cases hk : e ∈ p.candidate.entries
      · exact .inl hk
      · exact .inr (hin.removes e (mem_removedEntries.mpr ⟨he, hk⟩))
    exact ⟨cur, pr, by rw [h.prior, hcur], hmem, hdev, heq, hes, hok.recovery, hok.pending⟩
  · rw [hsig] at hrot
    cases hrot

theorem introduces_step (h : Accepted c salt s p t) (hcur : s.head = some cur)
    (hsig : p.signedAs = .recovery) : Introduces c salt p := by
  rcases (h.judged_on hcur).later.2 with ⟨hord, -⟩ | ⟨-, successor, rep, hok, heffects⟩
  · rw [hsig] at hord
    cases hord
  · have hsuccessor : successor ∈ p.candidate.recovery :=
      (hok.mem_recovery successor).mpr (.inr rfl)
    refine ⟨cur, successor, rep, by rw [h.prior, hcur], hsuccessor, by rw [heffects], ?_⟩
    intro e he
    by_cases hold : e ∈ cur.entries
    · exact .inl hold
    · exact .inr ((hok.mem_added e).mp ⟨he, hold⟩)

/-- A publication that is a rotation or signed on probation gains one authorizer at most. -/
theorem gained_step (h : Accepted c salt s p t) (hcur : s.head = some cur)
    (hon : p.signedAs = .authorizer → ∃ pr ∈ p.probations, pr.device = p.candidate.signer) {key}
    (hkey : key ∈ p.candidate.authorizers) :
    key ∈ cur.authorizers ∨ ∃ pr, p.effects.opensProbation = some pr ∧ pr.device = key := by
  rcases (h.judged_on hcur).later.2 with ⟨hsig, hok, -⟩ | ⟨-, _, rep, hok, heffects⟩
  · obtain ⟨_, -, -, hin⟩ := withinProbation_of_open hok (hon hsig)
    exact .inl (hin.adds key hkey)
  · rcases (hok.mem_authorizers key).mp hkey with hold | rfl
    · exact .inl hold
    · exact .inr ⟨_, by rw [heffects], rfl⟩

theorem gained_run (hbase : s.head = some base) (hrun : Run (Accepts c salt) s ps t) :
    (∀ p ∈ ps, p.signedAs = .authorizer → ∃ pr ∈ p.probations, pr.device = p.candidate.signer) →
    ∃ cur, t.head = some cur ∧ ∀ key ∈ cur.authorizers, key ∈ base.authorizers ∨
      ∃ p ∈ ps, ∃ pr, p.effects.opensProbation = some pr ∧ pr.device = key := by
  refine Run.history ?_ ?_ hrun
  · intro _
    exact ⟨base, hbase, fun key hkey => .inl hkey⟩
  · intro ps m p u _ ih hs hall
    obtain ⟨cur, hcur, hgained⟩ := ih (fun q hq => hall q (mem_append_left _ hq))
    have hacc := accepted_of_accepts hs
    refine ⟨p.candidate, hacc.head, ?_⟩
    intro key hkey
    rcases gained_step hacc hcur (hall p (by simp)) hkey with hold | hnew
    · rcases hgained key hold with hin | ⟨q, hq, hopens⟩
      · exact .inl hin
      · exact .inr ⟨q, mem_append_left _ hq, hopens⟩
    · exact .inr ⟨p, by simp, hnew⟩

/--
Over any number of publications that are rotations or signed by a device on
probation: each ordinary one repeats the authorizers it found, removes only what the
signer's own rotation pinned and keeps a recovery principal; each rotation adds the
entries of its successor key and its replacement device; and the only authorizers the
run gains are replacement devices.
-/
theorem probation_delegates_nothing
    (hreach : Run (Accepts c salt) ChainState.empty ps₀ s)
    (hbase : s.head = some base)
    (hrun : Run (Accepts c salt) s ps t)
    (hprobation : ∀ p ∈ ps, p.signedAs = .authorizer →
      ∃ probation ∈ p.probations, probation.device = p.candidate.signer)
    (hlast : t.head = some last) :
    (∀ p ∈ ps, p.signedAs = .authorizer → Undelegated p) ∧
      (∀ p ∈ ps, p.signedAs = .recovery → Introduces c salt p) ∧
      ∀ key ∈ last.authorizers, key ∈ base.authorizers ∨
        ∃ p ∈ ps, ∃ probation, p.effects.opensProbation = some probation ∧
          probation.device = key := by
  have hsteps : ∀ p ∈ ps, (p.signedAs = .authorizer → Undelegated p) ∧
      (p.signedAs = .recovery → Introduces c salt p) := by
    refine (Run.labels (I := fun s => ∃ cur, s.head = some cur ∧ WellShaped c salt cur)
      ?_ hrun ⟨base, hbase, head_wellShaped hreach hbase⟩ hprobation).2
    rintro s p t ⟨cur, hcur, hshaped⟩ hon hs
    have hacc := accepted_of_accepts hs
    exact ⟨⟨p.candidate, hacc.head, hacc.shaped⟩,
      fun hsigned => undelegated_step hacc hcur hshaped hsigned (hon hsigned),
      introduces_step hacc hcur⟩
  obtain ⟨cur, hcur, hgained⟩ := gained_run hbase hrun hprobation
  rw [hlast, Option.some.injEq] at hcur
  subst hcur
  exact ⟨fun p hp => (hsteps p hp).1, fun p hp => (hsteps p hp).2, hgained⟩

end Delegation

/-- Device 2, on probation, admits an outsider and lists two more recovery keys. -/
def recruits : AccessSet :=
  sampleSet (some sampleRotation) [1, 2] [11, 12, 13] [sampleEntry 50] none [] 2

theorem probation_delegates_nothing_sample : ∃ ps : List Publication, ps.length = 2 ∧
      (∀ p ∈ ps, p.signedAs = .authorizer → Undelegated p) ∧
      (∀ p ∈ ps, p.signedAs = .recovery → Introduces sampleCrypto sampleSalt p) ∧
      ∀ key ∈ recruits.authorizers, key ∈ sampleGenesis.authorizers ∨
        ∃ p ∈ ps, ∃ probation, p.effects.opensProbation = some probation ∧
          probation.device = key := by
  have hbase : sampleRun .empty [sampleGenesis]
      (fun _ t => t = ⟨some sampleGenesis, []⟩) = true := by
    decide +kernel
  have hsample : sampleRun ⟨some sampleGenesis, []⟩ [sampleRotation, recruits]
      (fun ps t => ps.length = 2 ∧ t.head = some recruits ∧ ∀ p ∈ ps, p.signedAs = .authorizer →
          ∃ probation ∈ p.probations, probation.device = p.candidate.signer) = true := by
    decide +kernel
  obtain ⟨_, s, hreach, hs⟩ := run_of_sampleRun hbase
  obtain ⟨ps, t, hrun, hcheck⟩ := run_of_sampleRun hsample
  obtain rfl := of_decide_eq_true hs
  obtain ⟨hlength, hlast, hprobation⟩ := of_decide_eq_true hcheck
  exact ⟨ps, hlength, probation_delegates_nothing hreach rfl hrun hprobation hlast⟩

/--
A device on probation adds an entry that is no recovery key's, and two recovery keys
of its choosing: only the authorizer list is held.
-/
theorem probation_admits_and_recruits :
    ∃ ps₀ s p t, Run (Accepts sampleCrypto sampleSalt) ChainState.empty ps₀ s ∧
      Accepts sampleCrypto sampleSalt s p t ∧ p.signedAs = .authorizer ∧
      (∃ probation ∈ p.probations, probation.device = p.candidate.signer) ∧
      ∃ prior, p.prior = some prior ∧
        (sampleEntry 50 ∈ p.candidate.entries ∧ sampleEntry 50 ∉ prior.entries ∧
          ∀ key ∈ p.candidate.recovery, entryHash sampleCrypto key sampleSalt ≠ sampleEntry 50) ∧
        sampleKey 12 ∈ p.candidate.recovery ∧ sampleKey 12 ∉ prior.recovery ∧
        sampleKey 13 ∈ p.candidate.recovery ∧ sampleKey 13 ∉ prior.recovery := by
  have hsample : sampleRun .empty [sampleGenesis, sampleRotation, recruits]
      (fun ps t => t.head = some recruits ∧ ∃ p ∈ ps, p.candidate = recruits ∧
        p.prior = some sampleRotation ∧ p.signedAs = .authorizer ∧
        ∃ probation ∈ p.probations, probation.device = p.candidate.signer) = true := by
    decide +kernel
  obtain ⟨ps, t, hrun, hcheck⟩ := run_of_sampleRun hsample
  obtain ⟨-, p, hp, hcandidate, hprior, hsigned, hon⟩ := of_decide_eq_true hcheck
  obtain ⟨ps₀, _, s, u, -, hreach, hs, -⟩ := hrun.at_label hp
  refine ⟨ps₀, s, p, u, hreach, hs, hsigned, hon, sampleRotation, hprior, ?_⟩
  rw [hcandidate]
  decide +kernel

end WealdRelay.Access
