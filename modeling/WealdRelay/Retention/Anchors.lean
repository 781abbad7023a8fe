import WealdRelay.Log.Answers
import WealdRelay.Retention.Race

/-!
# Anchors of a compaction

A drop checks that the log holds its checkpoint and its snapshots, reads its barrier, and
records and spares them as anchors in a transaction of its own. From that commit on no drop
deletes them. Before it they are no anchors, and another drop with a higher barrier may
delete them under a drop that has already found them there.
-/

namespace WealdRelay.Retention.Race

open Lib Lifecycle List

/-- The log holds every envelope the drop requires. -/
def Held (db : Log.Db) (record : DropBefore) : Prop :=
  ∀ hash ∈ record.required, ¬ Log.Absent db record.group hash

/-- Every one of them is recorded as an anchor. -/
def Anchored (db : Log.Db) (record : DropBefore) : Prop :=
  ∀ hash ∈ record.required, ⟨record.group, record.manifestHash, hash⟩ ∈ db.anchors

/-- What a drop relies on once it has looked, and what it has reached once it is accepted. -/
def Upheld (s : Shared) : Phase → Prop
  | .dropBarrier record | .dropCommit record _ => Held s.db record
  | .dropAnswered record (.ok _) => Held s.db record ∧ Anchored s.db record
  | _ => True

/-- Does this commit delete an envelope that another drop requires? -/
def deletesFor (d : Log.Drop) (db : Log.Db) (other : DropBefore) : Bool :=
  (d.doomed db).any (fun row => row.groupId = other.group && other.required.contains row.hash)

/-- A commit deletes nothing that a drop past its check requires, and beside the drops the
log only takes in envelopes. -/
def spares : Action → Shared → Phase → Phase → Bool
  | .others _ _ _ db, s, _, _ =>
    s.db.envelopes.isPrefixOf db.envelopes && db.anchors = s.db.anchors
  | _, s, .dropCommit record barrier, .dropBarrier other
  | _, s, .dropCommit record barrier, .dropCommit other _ =>
    !deletesFor (record.at barrier) s.db other
  | _, _, _, _ => true

section Steps

variable {c : Access.Crypto} {ws g : Bytes} {db db' : Log.Db} {s s' : Shared}
  {phase phase' : Phase} {a : Action} {record x : DropBefore} {barrier : Nat}

theorem held_of_refusedByLog (h : refusedByLog record db = none) : Held db record := by
  intro hash hh habs
  have hnone : missingEnvelopes db record.group record.required = [] := by
    simpa [refusedByLog] using h
  have hf := filter_eq_nil_iff.mp hnone hash hh
  simp only [Bool.not_eq_true', Bool.not_eq_false, any_eq_true, Bool.and_eq_true,
    decide_eq_true_eq] at hf
  obtain ⟨row, hrow, hmatch⟩ := hf
  exact habs row hrow hmatch

/-- Rows that stay keep their addresses held. -/
theorem Held.of_kept (h : Held db record) (hk : ∀ row ∈ db.envelopes,
      row.groupId = record.group → row.hash ∈ record.required → row ∈ db'.envelopes) :
    Held db' record := by
  intro hash hh habs
  refine h hash hh fun row hrow hmatch => ?_
  exact habs row (hk row hrow hmatch.1 (hmatch.2 ▸ hh)) hmatch

/-- What a commit deletes is not among its anchors or those of an earlier drop. -/
theorem mem_compact {row d} (hrow : row ∈ db.envelopes)
    (hk : row ∉ d.doomed db) : row ∈ (compact d db).1.envelopes :=
  mem_filter.mpr ⟨hrow, decide_eq_true hk⟩

theorem not_doomed {row : Log.EnvelopeRow} {d : Log.Drop} {anchor : Log.AnchorRow}
    (hanchor : anchor ∈ db.anchors ++ d.anchors) (hg : anchor.groupId = row.groupId)
    (hh : anchor.hash = row.hash) : row ∉ d.doomed db := by
  intro hdoomed
  have hfree := (mem_filter.mp hdoomed).2
  simp only [Log.Drop.anchored, Bool.and_eq_true, Bool.not_eq_true', any_eq_false] at hfree
  exact hfree.2 anchor hanchor (by simp [hg, hh])

theorem Anchored.compact (h : Anchored db x) (d : Log.Drop) : Anchored (compact d db).1 x :=
  fun hash hh => mem_append_left _ (h hash hh)

/-- The commit of a drop keeps what it requires and anchors it. -/
theorem upheld_compact (h : Held db record) : Held (compact (record.at barrier) db).1 record ∧
      Anchored (compact (record.at barrier) db).1 record := by
  have hmem : ∀ hash ∈ record.required,
      ⟨record.group, record.manifestHash, hash⟩ ∈ (record.at barrier).anchors :=
    fun hash hh => mem_map.mpr ⟨hash, hh, rfl⟩
  refine ⟨h.of_kept fun row hrow hg hh => mem_compact hrow ?_, fun hash hh => ?_⟩
  · exact not_doomed (mem_append_right _ (hmem _ hh)) hg.symm rfl
  · by_cases hold : ⟨record.group, record.manifestHash, hash⟩ ∈ db.anchors
    · exact mem_append_left _ hold
    · exact mem_append_right _ (mem_filter.mpr ⟨hmem hash hh, by simpa using hold⟩)

/-- A log that only takes in envelopes disturbs no drop. -/
theorem Upheld.of_log (hrows : s.db.envelopes ⊆ s'.db.envelopes)
    (hanchors : s'.db.anchors = s.db.anchors) (h : Upheld s phase) : Upheld s' phase := by
  have hheld : ∀ {record}, Held s.db record → Held s'.db record :=
    fun hheld => hheld.of_kept fun row hrow _ _ => hrows hrow
  cases phase with
  | dropBarrier | dropCommit => exact hheld h
  | dropAnswered record out =>
    cases out with
    | error => trivial
    | ok =>
      refine ⟨hheld h.1, fun hash hh => ?_⟩
      rw [hanchors]
      exact h.2 hash hh
  | _ => trivial

/-- The commit of a drop disturbs no accepted one, and none past its check that it spares. -/
theorem Upheld.of_compact (hdb : s'.db = (compact (record.at barrier) s.db).1)
    (ha : a = .turn ∨ a = .lose) (hspares : spares a s (.dropCommit record barrier) phase = true)
    (h : Upheld s phase) : Upheld s' phase := by
  have hheld : ∀ {x}, deletesFor (record.at barrier) s.db x = false →
      Held s.db x → Held s'.db x := by
    intro x hfree hheld
    rw [hdb]
    refine hheld.of_kept fun row hrow hg hh => mem_compact hrow fun hdoomed => ?_
    exact any_eq_false.mp hfree row hdoomed (by simp [hg, hh])
  cases phase with
  | dropBarrier | dropCommit =>
    refine hheld ?_ h
    rcases ha with rfl | rfl <;> simpa [spares] using hspares
  | dropAnswered x out =>
    cases out with
    | error => trivial
    | ok =>
      rw [Upheld, hdb]
      refine ⟨h.1.of_kept fun row hrow hg hh => mem_compact hrow ?_, h.2.compact _⟩
      exact not_doomed (mem_append_left _ (h.2 _ hh)) hg.symm rfl
  | _ => trivial

/-- A turn reaches what its next phase relies on, and leaves the others what they rely on. -/
theorem upheld_act (hupheld : Upheld s phase) (h : act c ws g a s phase = some (s', phase')) :
    Upheld s' phase' ∧ ∀ x, spares a s phase x = true → Upheld s x → Upheld s' x := by
  have heq : s'.db = s.db → ∀ x, spares a s phase x = true → Upheld s x → Upheld s' x :=
    fun hdb x _ => .of_log (by rw [hdb]; exact List.Subset.refl _) (by rw [hdb])
  cases turn_of_act h with
  | others =>
    refine ⟨trivial, fun x hspares => ?_⟩
    simp only [spares, Bool.and_eq_true, isPrefixOf_iff_prefix, decide_eq_true_eq] at hspares
    exact .of_log hspares.1.subset hspares.2
  | dropMissing hlog => exact ⟨held_of_refusedByLog hlog, heq rfl⟩
  | dropBarrier => exact ⟨hupheld, heq rfl⟩
  | dropCommit hafter =>
    refine ⟨?_, fun x => .of_compact rfl (hafter.imp And.left And.left)⟩
    rcases hafter with ⟨-, rfl⟩ | ⟨-, rfl⟩
    · exact upheld_compact hupheld
    · trivial
  | manifestCommit _ hafter =>
    rcases hafter with ⟨-, rfl⟩ | ⟨-, rfl⟩ <;> exact ⟨trivial, heq rfl⟩
  | _ => exact ⟨trivial, heq rfl⟩

end Steps

/-- In every run of drops and accepts in which no drop deletes an envelope that another one,
past its check, requires, the log holds all that any accepted drop has named. -/
theorem anchors_stay
    {π : Type}
    [DecidableEq π]
    {c : Access.Crypto}
    {workspace group : Bytes}
    {start w : World π Shared Phase}
    {labels : List (π × Action)}
    {p : π}
    {record : DropBefore}
    {outcome : Log.DropOutcome}
    (hidle : ∀ p, start.phase p = .idle)
    (hrun : Run ((machine c workspace group).StepUnder
      (fun action s phase other => spares action s phase other)) start labels w)
    (hp : w.phase p = .dropAnswered record (.ok outcome)) :
    Held w.store.db record := by
  have hstart : (machine c workspace group).Holds (fun _ => True) Upheld (fun _ _ => True) start :=
    .of_idle hidle rfl trivial trivial trivial
  have hholds := hstart.run (fun _ _ _ => trivial)
    (fun _ hk hact => ⟨trivial, (upheld_act hk hact).1⟩) (fun hbeside hact => ⟨?_, trivial⟩) hrun
  · have hend := hholds.phase p
    rw [hp] at hend
    exact hend.1
  · exact (upheld_act hbeside.mover hact).2 _ hbeside.allowed hbeside.other

section Sample

/-- A checkpoint of the group, signed in epoch 0 under its policy. -/
def checkpoint (hash : Byte) : DropBefore :=
  ⟨room, id32 hash, [], 0, some 1, none, id32 1⟩

/-- Two checkpoints, in this order. -/
def twoCheckpoints : World Caller Shared Phase :=
  ⟨⟨⟨⟨[genesisControl], [], false⟩, [], [⟨1, 30, 0, 0⟩], []⟩, Media.noTables,
    ⟨fun _ => none, [⟨room, id32 5, 1, 1, 0, 1, 0, [0]⟩, ⟨room, id32 6, 1, 1, 0, 2, 0, [0]⟩],
      fun _ => 0, []⟩⟩, fun _ => .idle⟩

/-- A drop up to its commit. -/
def dropTurns (p : Caller) (hash : Byte) : List (Caller × Action) :=
  (p, .drop (checkpoint hash) 0) :: List.replicate 5 (p, .turn)

/-- The later checkpoint commits while the earlier one stands before its transaction. -/
theorem anchor_deleted_before_commit :
    ∃ w outcome, Run (machine plainCrypto home room).Step twoCheckpoints
        (dropTurns .first 5 ++ dropTurns .second 6 ++ [(.second, .turn), (.first, .turn)]) w ∧
      w.phase .first = .dropAnswered (checkpoint 5) (.ok outcome) ∧
      ¬ Held w.store.db (checkpoint 5) := by
  have hexec : ((machine plainCrypto home room).exec (fun _ _ _ _ => True) twoCheckpoints
      (dropTurns .first 5 ++ dropTurns .second 6 ++ [(.second, .turn), (.first, .turn)])).map
        (fun w => (w.phase .first, w.store.db.envelopes)) =
      some (.dropAnswered (checkpoint 5) (.ok ⟨0, 0, 0⟩),
        [⟨room, id32 6, 1, 1, 0, 2, 0, [0]⟩]) := by
    decide +kernel
  obtain ⟨w, hw, hend⟩ := Option.map_eq_some_iff.mp hexec
  obtain ⟨hphase, hrows⟩ := Prod.mk.inj hend
  refine ⟨w, _, Machine.run_of_exec hw, hphase, fun hheld => ?_⟩
  refine hheld (id32 5) (by simp [checkpoint, DropBefore.required]) ?_
  simp [Log.Absent, hrows, id32]

/-- The earlier checkpoint commits first, and both are held. -/
theorem anchors_held_in_turn :
    ∃ w outcome, Run ((machine plainCrypto home room).StepUnder
        (fun action s phase other => spares action s phase other)) twoCheckpoints
        (dropTurns .first 5 ++ [(.first, .turn)] ++ dropTurns .second 6 ++ [(.second, .turn)]) w ∧
      w.phase .first = .dropAnswered (checkpoint 5) (.ok outcome) ∧
      Held w.store.db (checkpoint 5) := by
  have hexec : ((machine plainCrypto home room).exec
      (fun action s phase other => spares action s phase other = true) twoCheckpoints
      (dropTurns .first 5 ++ [(.first, .turn)] ++ dropTurns .second 6 ++ [(.second, .turn)])).map
        (fun w => w.phase .first) = some (.dropAnswered (checkpoint 5) (.ok ⟨0, 0, 0⟩)) := by
    decide +kernel
  obtain ⟨w, hw, hphase⟩ := Option.map_eq_some_iff.mp hexec
  exact ⟨w, _, Machine.exec_run hw, hphase,
    anchors_stay (fun _ => rfl) (Machine.exec_run hw) hphase⟩

end Sample

/-! ## A drop alone -/

section Alone

variable (c : Access.Crypto)

/-- Logs, with the drops that were accepted on them. Nothing but a drop writes an anchor. -/
inductive Ran : List DropBefore → Log.Db → Prop
  | start {db} (h : db.anchors = []) : Ran [] db
  | other {runs db db'} (hran : Ran runs db)
      (h : db'.anchors = db.anchors) : Ran runs db'
  | drop {runs db record now records outcome} (hran : Ran runs db)
      (h : (dropBefore c record now records db).2 = .ok outcome) :
      Ran (record :: runs) (dropBefore c record now records db).1

/-- What a drop may delete below a number: envelopes of its group that no run has named. -/
def Deletes (runs : List DropBefore) (group : Bytes) (barrier : Nat) (row : Log.EnvelopeRow) :
    Prop :=
  row.groupId = group ∧ row.seq < barrier ∧
    ¬ ∃ run ∈ runs, run.group = row.groupId ∧ row.hash ∈ run.required

instance (runs : List DropBefore) (group : Bytes) (barrier : Nat) :
    DecidablePred (Deletes runs group barrier) :=
  fun _ => inferInstanceAs (Decidable (_ ∧ _ ∧ ¬ _))

/-- The policy or destruction record that a drop names is in force and due. -/
def InForce (record : DropBefore) (now : Nat) (records : Records) : Prop :=
  (∃ policy, records.activePolicy = some policy ∧ record.policyVersion = some policy.version ∧
      policy.notBeforeSecs ≤ now) ∨
    ∃ digest destruction, record.policyVersion = none ∧ record.destructionDigest = some digest ∧
      records.activeDestruction .dropBefore digest = some destruction ∧
      destruction.notBeforeSecs ≤ now

variable {c} {record : DropBefore} {now : Nat} {rs : Records} {db : Log.Db}
  {outcome : Log.DropOutcome} {runs : List DropBefore}

theorem inForce_of_authorization (h : authorization record now rs = none) :
    InForce record now rs := by
  have hdue : ∀ {notBefore}, refusedBefore now notBefore = none → notBefore ≤ now := by
    intro notBefore h
    simpa [refusedBefore] using h
  rw [authorization] at h
  split at h
  next ver hver =>
    split at h
    · cases h
    next policy hpolicy =>
      split_ifs at h with heq
      rw [not_not] at heq
      exact .inl ⟨policy, hpolicy, heq ▸ hver, hdue h⟩
  next hver =>
    split at h
    · cases h
    next digest hdigest =>
      split at h
      · cases h
      next destruction hf =>
        exact .inr ⟨digest, destruction, hver, hdigest, hf, hdue h⟩

/-- A drop is refused and changes nothing, or passes every check and is carried out. -/
theorem dropBefore_cases (c : Access.Crypto) (record : DropBefore) (now : Nat) (rs : Records)
    (db : Log.Db) : (∃ refusal, dropBefore c record now rs db = (db, .error refusal)) ∨
      (SignedUnder c rs.chain.latestControl record.epoch record.signingBytes record.sig ∧
        InForce record now rs ∧ Held db record ∧ dropBefore c record now rs db =
          ((compact (record.at (record.barrier db)) db).1,
            .ok (compact (record.at (record.barrier db)) db).2)) := by
  rw [dropBefore]
  split
  · exact .inl ⟨_, rfl⟩
  split
  · exact .inl ⟨_, rfl⟩
  next hctrl =>
    split
    · exact .inl ⟨_, rfl⟩
    next hauthorized =>
      split
      · exact .inl ⟨_, rfl⟩
      next hlog =>
        exact .inr ⟨Lifecycle.refusedByControl_eq_none.mp hctrl,
          inForce_of_authorization hauthorized, held_of_refusedByLog hlog, rfl⟩

/-- One more accepted run. -/
theorem exists_anchor_iff (record : DropBefore) (barrier : Nat) {g hash}
    (h : (∃ anchor ∈ db.anchors, anchor.groupId = g ∧ anchor.hash = hash) ↔
      ∃ run ∈ runs, run.group = g ∧ hash ∈ run.required) :
    (∃ anchor ∈ db.anchors ++ (record.at barrier).anchors,
        anchor.groupId = g ∧ anchor.hash = hash) ↔
      ∃ run ∈ record :: runs, run.group = g ∧ hash ∈ run.required := by
  simp only [mem_append, or_and_right, exists_or, h, mem_cons, exists_eq_left]
  rw [or_comm]
  refine or_congr_left ⟨?_, fun ⟨hg, hh⟩ => ?_⟩
  · rintro ⟨anchor, hanchor, rfl, rfl⟩
    obtain ⟨hash, hh, rfl⟩ := mem_map.mp hanchor
    exact ⟨rfl, hh⟩
  · exact ⟨_, mem_map.mpr ⟨hash, hh, rfl⟩, hg, rfl⟩

/-- The anchors are what the accepted runs have named. -/
theorem Ran.anchors (h : Ran c runs db) (g hash : Bytes) :
    (∃ anchor ∈ db.anchors, anchor.groupId = g ∧ anchor.hash = hash) ↔
      ∃ run ∈ runs, run.group = g ∧ hash ∈ run.required := by
  induction h with
  | start h => simp [h]
  | other hran h ih => rwa [h]
  | @drop runs db record now rs outcome hran h ih =>
    rcases dropBefore_cases c record now rs db with ⟨refusal, heq⟩ | ⟨-, -, -, heq⟩
    · rw [heq] at h
      cases h
    · rw [← exists_anchor_iff record (record.barrier db) ih, heq]
      have hmem : ∀ anchor, anchor ∈ (compact (record.at (record.barrier db)) db).1.anchors ↔
          anchor ∈ db.anchors ++ (record.at (record.barrier db)).anchors := by
        intro anchor
        simp only [compact, Log.remove, Log.record, mem_append, mem_filter, decide_eq_true_eq]
        tauto
      simp only [hmem]

/-- A drop that is refused changes nothing. One that is accepted was signed under the newest
control by an authorization in force, with all it names in the log, and it deletes below the
checkpoint what neither it nor an earlier run has named. -/
theorem dropBefore_exact
    (hran : Ran c runs db)
    (hseq : ∀ row ∈ db.envelopes, row.seq < Log.bigintBound)
    (record : DropBefore)
    (now : Nat)
    (records : Records) :
    (∀ refusal, (dropBefore c record now records db).2 = .error refusal →
      (dropBefore c record now records db).1 = db) ∧
    ∀ outcome, (dropBefore c record now records db).2 = .ok outcome →
      SignedUnder c records.chain.latestControl record.epoch record.signingBytes record.sig ∧
      InForce record now records ∧ Held db record ∧
      ∃ barrier gone, Log.existingSeq db record.group record.manifestHash = some barrier ∧
        gone = db.envelopes.filter (Deletes (record :: runs) record.group barrier) ∧
        (dropBefore c record now records db).1.envelopes = db.envelopes.filter (· ∉ gone) ∧
        (∀ row ∈ db.envelopes, row.groupId ≠ record.group →
          row ∈ (dropBefore c record now records db).1.envelopes) ∧
        outcome.deleted = gone.length ∧ outcome.bytes = Log.ctBytes gone := by
  rcases dropBefore_cases c record now records db with
    ⟨refusal, heq⟩ | ⟨hsigned, hforce, hheld, heq⟩
  · rw [heq]
    exact ⟨fun _ _ => rfl, nofun⟩
  rw [heq]
  refine ⟨nofun, ?_⟩
  rintro _ ⟨⟩
  have hpresent := hheld record.manifestHash List.mem_cons_self
  simp only [Log.Absent, not_forall, not_not] at hpresent
  obtain ⟨row, hrow, hg, hh⟩ := hpresent
  obtain ⟨barrier, hbarrier⟩ := Log.existingSeq_isSome hrow hg hh
  have hplace : record.barrier db = barrier := by rw [DropBefore.barrier, hbarrier]; rfl
  have hwide : Log.asI64 barrier = barrier := by
    obtain ⟨first, hfirst, hmark⟩ := Log.mark_of_existingSeq hbarrier
    have hlt := hseq first hfirst
    rw [show first.seq = barrier from congrArg Log.Mark.seq hmark, Log.bigintBound] at hlt
    simp only [Log.asI64, Log.bigintBound]
    split_ifs <;> omega
  have hgone : (record.at (record.barrier db)).doomed db =
      db.envelopes.filter (Deletes (record :: runs) record.group barrier) := by
    refine List.filter_congr fun row _ => ?_
    have hanchored := exists_anchor_iff record (record.barrier db)
      (hran.anchors row.groupId row.hash)
    rw [Bool.eq_iff_iff, decide_eq_true_iff, Deletes, ← hanchored]
    simp only [Log.Drop.below, Log.Drop.anchored, DropBefore.at, hplace, hwide, Nat.cast_lt,
      Bool.and_eq_true, decide_eq_true_eq, ← Bool.not_eq_true, Bool.not_eq_true', List.any_eq_true,
      and_assoc]
  refine ⟨hsigned, hforce, hheld, barrier, _, hbarrier, hgone, rfl, ?_, rfl, rfl⟩
  intro row hrow ho
  refine mem_compact hrow fun hdoomed => ho ?_
  rw [hgone] at hdoomed
  exact (of_decide_eq_true (List.mem_filter.mp hdoomed).2).1

/-- The later of two checkpoints deletes the earlier one. -/
theorem dropBefore_exact_second : ∃ barrier gone,
    (dropBefore plainCrypto (checkpoint 6) 0 twoCheckpoints.store.records
      twoCheckpoints.store.db).2 = .ok ⟨1, 1, 0⟩ ∧
    gone = twoCheckpoints.store.db.envelopes.filter (Deletes [checkpoint 6] room barrier) ∧
    gone.length = 1 := by
  have hok : (dropBefore plainCrypto (checkpoint 6) 0 twoCheckpoints.store.records
      twoCheckpoints.store.db).2 = .ok ⟨1, 1, 0⟩ := by
    decide +kernel
  obtain ⟨-, -, -, barrier, gone, -, hgone, -, -, hdeleted, -⟩ :=
    (dropBefore_exact (.start rfl) (by decide +kernel) (checkpoint 6) 0 _).2 _ hok
  exact ⟨barrier, gone, hok, hgone, hdeleted.symm⟩

end Alone

end WealdRelay.Retention.Race
