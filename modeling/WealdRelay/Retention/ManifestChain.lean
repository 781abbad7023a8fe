import WealdRelay.Media.Objects
import WealdRelay.Retention.Race

/-!
# One chain of manifests

`apply_manifest` compares a manifest with the newest one in a read of its own and inserts it in
a later transaction, where only the key on the sequence number is checked. That is enough:
what the read has found stays true of the manifests below it, and the key it needs is free only
at the end of the chain.
-/

namespace WealdRelay.Retention.Race

open Lib List

/-- The manifest names the digest of the one below its sequence number. -/
def Names (c : Access.Crypto) (manifests : List RetentionManifest) (record : RetentionManifest) :
    Prop :=
  record.prevManifestHash = (manifests.take (record.sequence - 1)).getLast?.map (·.digest c)

/-- Sequence numbers from one on, and each manifest names the one before it. -/
structure Linked (c : Access.Crypto) (manifests : List RetentionManifest) : Prop where
  sequences : manifests.map (·.sequence) = List.range' 1 manifests.length
  links : ∀ record ∈ manifests, Names c manifests record

section Chain

variable {c : Access.Crypto} {manifests : List RetentionManifest}
  {rec x : RetentionManifest} {rs : Records}

/-- What a manifest names is below the end, where the chain grows. -/
theorem Names.append (h : Names c manifests rec) (hle : rec.sequence ≤ manifests.length + 1) :
    Names c (manifests ++ [x]) rec := by
  rw [Names, take_append_of_le_length (by omega)]
  exact h

theorem Linked.sequence_mem (h : Linked c manifests) {n : Nat} :
    (∃ rec ∈ manifests, rec.sequence = n) ↔ 1 ≤ n ∧ n ≤ manifests.length := by
  rw [← mem_map, h.sequences, List.mem_range'_1]
  omega

theorem Linked.sequence_le (h : Linked c manifests) (hrecord : rec ∈ manifests) :
    1 ≤ rec.sequence ∧ rec.sequence ≤ manifests.length :=
  h.sequence_mem.mp ⟨rec, hrecord, rfl⟩

theorem Linked.append (h : Linked c manifests) (hnext : rec.sequence = manifests.length + 1)
    (hnames : Names c manifests rec) : Linked c (manifests ++ [rec]) := by
  refine ⟨?_, fun old hold => ?_⟩
  · simp [List.range'_concat, h.sequences, hnext, Nat.add_comm]
  · rcases mem_append.mp hold with hold | hold
    · exact (h.links old hold).append (Nat.le_succ_of_le (h.sequence_le hold).2)
    · rw [mem_singleton.mp hold]
      exact hnames.append hnext.le

/-- The newest manifest is the last of the chain, so the next one has the next number. -/
theorem Linked.of_latest (h : Linked c rs.manifests)
    (hlatest : refusedByLatest c rec rs.latestManifest = none) :
    rec.sequence = rs.manifests.length + 1 ∧ Names c rs.manifests rec := by
  obtain ⟨hnext, hprev⟩ := refusedByLatest_eq_none.mp hlatest
  have hlast : rs.latestManifest = rs.manifests.getLast? ∧
      expectedSequence rs.manifests.getLast? = rs.manifests.length + 1 := by
    rcases eq_nil_or_concat rs.manifests with hnil | ⟨b, last, hlast⟩
    · simp [Records.latestManifest, hnil, Table.newest, expectedSequence, firstManifestSequence]
    · have hseq := h.sequences
      simp only [hlast, concat_eq_append, map_append, map_cons, map_nil,
        length_append, length_singleton, List.range'_concat] at hseq
      obtain ⟨hb, hend⟩ := append_inj' hseq rfl
      have hend : last.sequence = b.length + 1 := by simpa [Nat.add_comm] using hend
      have hnew : Table.newest RetentionManifest.sequence (b ++ [last]) = some last := by
        refine Table.newest_append fun row hrow => ?_
        have hmem : row.sequence ∈ range' 1 b.length := by
          rw [← hb]
          exact mem_map_of_mem hrow
        rw [List.mem_range'_1] at hmem
        omega
      simp [Records.latestManifest, hlast, hnew, expectedSequence, hend]
  rw [hlast.1] at hnext hprev
  have hlen := hnext.trans hlast.2
  refine ⟨hlen, ?_⟩
  rw [Names, hlen, Nat.add_sub_cancel, take_length]
  exact hprev

/-- A sequence number up to the next one is free only if it is the next one. -/
theorem Linked.next_of_insertable (h : Linked c rs.manifests)
    (hle : rec.sequence ≤ rs.manifests.length + 1) (hins : insertableManifest rec rs = true) :
    rec.sequence = rs.manifests.length + 1 := by
  simp only [insertableManifest, Bool.and_eq_true, decide_eq_true_eq, Option.isNone_iff_eq_none]
    at hins
  obtain ⟨⟨hpos, -⟩, hfree⟩ := hins
  by_contra hne
  obtain ⟨row, hrow, hseq⟩ := h.sequence_mem.mpr ⟨hpos, by omega⟩
  exact Table.ne_of_lookup_eq_none hfree hrow hseq

end Chain

/-- The manifest that a call has been told is accepted. -/
def Phase.accepted : Phase → Option RetentionManifest
  | .manifestAnswered record (.accepted _) => some record
  | _ => none

/-- Other writes leave the media tables in order. -/
def Tidies : Action → Prop
  | .others _ _ tables _ => Media.Tidy tables
  | _ => True

/-- What a manifest relies on once it was compared with the newest one, and what it has
reached once it is accepted. -/
structure InChain (c : Access.Crypto) (s : Shared) (phase : Phase) : Prop where
  waiting : ∀ {record now}, phase = .manifestCommit record now →
    record.sequence ≤ s.records.manifests.length + 1 ∧ Names c s.records.manifests record
  accepted : ∀ {record}, phase.accepted = some record → record ∈ s.records.manifests

/-- Two accepted manifests have different numbers. -/
def Apart (phase other : Phase) : Prop :=
  ∀ {record record'}, phase.accepted = some record → other.accepted = some record' →
    record.sequence ≠ record'.sequence

section Steps

variable {c : Access.Crypto} {ws g : Bytes} {s s' : Shared}
  {phase phase' : Phase} {a : Action}

/-- The commit of an accepted manifest puts it at the end of the chain, with a final row for
every object it names. -/
theorem committed {rec : RetentionManifest} {now : Int} {digest rs ts}
    (hlinked : Linked c s.records.manifests) (ht : Media.Tidy s.tables)
    (hwaiting : rec.sequence ≤ s.records.manifests.length + 1)
    (h : commitManifest c ws now rec s.records s.tables = some (.accepted digest, rs, ts)) :
    rec.sequence = s.records.manifests.length + 1 ∧
      rs.manifests = s.records.manifests ++ [rec] ∧ Media.Tidy ts ∧
      ∀ hash ∈ rec.blobs, ∃ row,
        (ts ws).rowOf rec.group hash = some row ∧ row.finalized = true := by
  obtain ⟨hins, -, hrecords, ⟨⟩, hclaims⟩ := commitManifest_accepted h
  obtain ⟨ha, hf, hrows⟩ := Media.claimAll_rowOf ht hclaims
  refine ⟨hlinked.next_of_insertable hwaiting hins, by rw [hrecords], ha, fun hash hh => ?_⟩
  obtain ⟨row, hrow⟩ := hf hash hh
  exact ⟨row.claimed now, by simp [hrows, hh, hrow], row.finalized_claimed now⟩

/-- What the tables keep. -/
def Sound (c : Access.Crypto) (s : Shared) : Prop :=
  Linked c s.records.manifests ∧ Media.Tidy s.tables

theorem sound_self (hsound : Sound c s) (hphase : InChain c s phase) (htidies : Tidies a)
    (h : act c ws g a s phase = some (s', phase')) : Sound c s' ∧ InChain c s' phase' := by
  obtain ⟨hlinked, ht⟩ := hsound
  cases turn_of_act h with
  | others => exact ⟨⟨hlinked, htidies⟩, nofun, nofun⟩
  | manifestLatest hlatest =>
    obtain ⟨hsequence, hnames⟩ := hlinked.of_latest hlatest
    refine ⟨⟨hlinked, ht⟩, ?_, nofun⟩
    rintro _ _ ⟨⟩
    exact ⟨hsequence.le, hnames⟩
  | manifestCommit hcommit hafter =>
    obtain ⟨hle, hnames⟩ := hphase.waiting rfl
    obtain ⟨hnext, hmanifests, ha, -⟩ := committed hlinked ht hle hcommit
    refine ⟨⟨?_, ha⟩, fun heq => ?_, fun heq => ?_⟩
    · rw [hmanifests]
      exact hlinked.append hnext hnames
    · rcases hafter with ⟨-, rfl⟩ | ⟨-, rfl⟩ <;> cases heq
    · rcases hafter with ⟨-, rfl⟩ | ⟨-, rfl⟩ <;> cases heq
      simp [hmanifests]
  | dropCommit hafter =>
    rcases hafter with ⟨-, rfl⟩ | ⟨-, rfl⟩ <;> exact ⟨⟨hlinked, ht⟩, nofun, nofun⟩
  | _ => exact ⟨⟨hlinked, ht⟩, nofun, nofun⟩

theorem sound_other {x : Phase} (hsound : Sound c s) (hphase : InChain c s phase)
    (ho : InChain c s x) (hapart : Apart phase x)
    (h : act c ws g a s phase = some (s', phase')) : InChain c s' x ∧ Apart phase' x := by
  have hsame : s'.records.manifests = s.records.manifests → phase'.accepted = none →
      InChain c s' x ∧ Apart phase' x := by
    intro hsame hnone
    refine ⟨⟨fun heq => ?_, fun heq => ?_⟩, by simp [Apart, hnone]⟩
    · rw [hsame]
      exact ho.waiting heq
    · rw [hsame]
      exact ho.accepted heq
  cases turn_of_act h with
  | manifestCommit hcommit hafter =>
    obtain ⟨hnext, hmanifests, -⟩ := committed hsound.1 hsound.2 (hphase.waiting rfl).1 hcommit
    refine ⟨⟨fun heq => ?_, fun heq => ?_⟩, fun heq heq' => ?_⟩
    · obtain ⟨hle, hnames⟩ := ho.waiting heq
      rw [hmanifests]
      exact ⟨by simp; omega, hnames.append hle⟩
    · rw [hmanifests]
      exact mem_append_left _ (ho.accepted heq)
    · rcases hafter with ⟨-, rfl⟩ | ⟨-, rfl⟩ <;> cases heq
      have hle := hsound.1.sequence_le (ho.accepted heq')
      omega
  | dropCommit hafter =>
    refine hsame rfl ?_
    rcases hafter with ⟨-, rfl⟩ | ⟨-, rfl⟩ <;> rfl
  | _ => exact hsame rfl rfl

end Steps

/-- In every interleaving the accepted manifests are one chain, each of them was accepted
once, with a final row for every object it names, and a manifest that is not accepted changes
nothing, unless it is committed and its answer lost. -/
theorem manifest_chain_is_one
    {π : Type}
    [DecidableEq π]
    {c : Access.Crypto}
    {workspace group : Bytes}
    {start w : World π Shared Phase}
    {labels : List (π × Action)}
    (hidle : ∀ p, start.phase p = .idle)
    (hnone : start.store.records.manifests = [])
    (htidy : Media.Tidy start.store.tables)
    (hrun : Run ((machine c workspace group).StepWhen (fun action _ _ => Tidies action)
      (fun _ _ _ _ => True)) start labels w) :
    Linked c w.store.records.manifests ∧
    (∀ p record, (w.phase p).accepted = some record → record ∈ w.store.records.manifests) ∧
    (∀ p q record record', p ≠ q → (w.phase p).accepted = some record →
      (w.phase q).accepted = some record' → record.sequence ≠ record'.sequence) ∧
    ∀ p action w', (machine c workspace group).Step w (p, action) w' →
      (∀ record, (w'.phase p).accepted = some record →
        w'.store.records.manifests = w.store.records.manifests ++ [record] ∧
        ∀ hash ∈ record.blobs, ∃ row,
          (w'.store.tables workspace).rowOf record.group hash = some row ∧
          row.finalized = true) ∧
      (w.phase p ≠ .idle → (w'.phase p).accepted = none →
        w'.store.records = w.store.records ∧ w'.store.tables = w.store.tables ∨
        action = .lose ∧ w'.phase p = .failed ∧ ∃ record now digest,
          w.phase p = .manifestCommit record now ∧
          commitManifest c workspace now record w.store.records w.store.tables =
            some (.accepted digest, w'.store.records, w'.store.tables)) := by
  have hstart : (machine c workspace group).Holds (Sound c) (InChain c) Apart start := by
    refine .of_idle hidle rfl ⟨by rw [hnone]; exact ⟨rfl, by simp⟩, htidy⟩ ?_ ?_
    · exact ⟨by simp, by simp [Phase.accepted]⟩
    · simp [Apart, Phase.accepted]
  have hholds := hstart.runWhen (fun _ _ h _ _ ha hb => (h hb ha).symm)
    (fun hsound hphase hwhen hact => sound_self hsound hphase hwhen hact) ?_ hrun
  · refine ⟨hholds.store.1, fun p record heq => (hholds.phase p).accepted heq,
      fun p q record record' hne heq heq' => hholds.apart p q hne heq heq', ?_⟩
    rintro p action w' ⟨s', phase', hact, -, rfl⟩
    rw [World.move_phase_self, World.move_store]
    have hturn := turn_of_act hact
    generalize hphase : w.phase p = phase at hturn
    cases hturn with
    | chain | others | manifest | drop => exact ⟨nofun, fun hbusy => absurd rfl hbusy⟩
    | manifestCommit hcommit hafter =>
      rcases hafter with ⟨-, rfl⟩ | ⟨rfl, rfl⟩
      · refine ⟨fun record' heq => ?_, nofun⟩
        cases heq
        have hwaiting := (hholds.phase p).waiting hphase
        exact (committed hholds.store.1 hholds.store.2 hwaiting.1 hcommit).2.imp_right (·.2)
      · exact ⟨nofun, fun _ _ => .inr ⟨rfl, rfl, _, _, _, rfl, hcommit⟩⟩
    | dropCommit hafter =>
      rcases hafter with ⟨-, rfl⟩ | ⟨-, rfl⟩ <;> exact ⟨nofun, fun _ _ => .inl ⟨rfl, rfl⟩⟩
    | _ => exact ⟨nofun, fun _ _ => .inl ⟨rfl, rfl⟩⟩
  · exact fun hbeside hact =>
      sound_other hbeside.store hbeside.mover hbeside.other hbeside.apart hact

section Sample

/-- A call of the group, and no other write. -/
def Action.calls : Action → Bool
  | .others _ _ _ _ => false
  | _ => true

/-- A workspace that has promised five bytes to one upload. -/
def oneUpload : Media.Tables :=
  Function.update Media.noTables home ⟨some ⟨0, 5, none⟩, [⟨0, room, photo, 5, 0, 900, none⟩]⟩

theorem tidy_oneUpload : Media.Tidy oneUpload where
  conserved := by
    refine Media.conserved_update ⟨nodup_singleton _, nodup_singleton _, by simp, ?_, ?_, ?_, nofun⟩
      <;> rintro _ ⟨⟩ <;> rfl
  single ws := by
    rw [oneUpload, Function.update_apply]
    split
    · exact nodup_singleton _
    · exact nodup_nil

/-- The first manifest, which names it. -/
def namesUpload : RetentionManifest := { firstManifest with blobs := [photo] }

/-- Two manifests are found to follow the empty chain. -/
def manifestRace : List (Caller × Action) :=
  [(.first, .control genesisControl), (.first, .control firstSuccessor),
    (.second, .manifest namesUpload 0), (.third, .manifest firstManifest 0),
    (.second, .turn), (.third, .turn), (.second, .turn), (.third, .turn)]

/-- Nothing has begun, and the upload is promised. -/
def beforeRace : World Caller Shared Phase :=
  ⟨{ quietGroup.store with tables := oneUpload }, fun _ => .idle⟩

theorem named_upload_in_chain :
    ∃ w w' row, Run ((machine plainCrypto home room).StepWhen (fun action _ _ => Tidies action)
        (fun _ _ _ _ => True)) beforeRace manifestRace w ∧
      (machine plainCrypto home room).Step w (.second, .turn) w' ∧
      w.phase .third = .manifestCommit firstManifest 0 ∧
      Linked plainCrypto w.store.records.manifests ∧
      w'.store.records.manifests = w.store.records.manifests ++ [namesUpload] ∧
      (w'.store.tables home).rowOf room photo = some row ∧ row.finalized = true := by
  have hexec : ((machine plainCrypto home room).exec
      (fun action _ _ _ => action.calls = true ∧ True) beforeRace
      (manifestRace ++ [(.second, .turn)])).map (fun w => (w.phase .second, w.phase .third)) =
      some (.manifestAnswered namesUpload (.accepted (namesUpload.digest plainCrypto)),
        .manifestCommit firstManifest 0) := by
    decide +kernel
  obtain ⟨w', hw', hend⟩ := Option.map_eq_some_iff.mp hexec
  obtain ⟨hsecond, hthird⟩ := Prod.mk.inj hend
  obtain ⟨w, -, hcalled, hstep, -⟩ := Machine.exec_snoc hw'
  have hrun : Run ((machine plainCrypto home room).StepWhen (fun action _ _ => Tidies action)
      (fun _ _ _ _ => True)) beforeRace manifestRace w := by
    refine (Machine.run_when hcalled).mono fun _ label _ hs => ⟨hs.1, ?_⟩
    have hcalls := hs.2
    cases haction : label.2 <;> simp_all [Action.calls, Tidies]
  obtain ⟨hlinked, -, -, hsteps⟩ := manifest_chain_is_one (fun _ => rfl) rfl tidy_oneUpload hrun
  obtain ⟨hmanifests, hfinal⟩ :=
    (hsteps .second .turn w' hstep).1 namesUpload (by rw [hsecond]; rfl)
  obtain ⟨row, hrow, hdone⟩ := hfinal photo mem_cons_self
  refine ⟨w, w', row, hrun, hstep, ?_, hlinked, hmanifests, hrow, hdone⟩
  obtain ⟨_, _, -, -, rfl⟩ := hstep
  rwa [World.move_phase_of_ne w (by decide)] at hthird

end Sample

end WealdRelay.Retention.Race
