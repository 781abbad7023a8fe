import WealdRelay.Lifecycle.Drop
import WealdRelay.Retention.OneChain

/-!
# Manifests and drops against controls

`apply_manifest` and `lifecycle::drop_before` read the freeze flag and the newest control
first and write in a transaction of their own later; `apply_control` and `resolve_freeze`
are one step here. Between the reads and the transaction anything may happen. A statement may
fail, and the answer of a commit may be lost after the commit has happened.

* A manifest that is accepted was signed under the newest control at its read, and it does
  not look at the freeze at all.
* A drop that is accepted was so too, and the group was not frozen at its own read of the
  flag.
* Both still hold at the commit if no control was settled, and no rival recorded, since.
-/

namespace WealdRelay.Retention.Race

open Lib Lifecycle

/-- What the calls of one group share: its retention tables, the media tables of every
workspace and the log. -/
structure Shared where
  records : Records
  tables : Media.Tables
  db : Log.Db

/-- Where a call stands: the statement it runs next, or its answer. -/
inductive Phase where
  | idle
  | manifestControl (record : RetentionManifest) (now : Int)
  | manifestLatest (record : RetentionManifest) (now : Int)
  | manifestCommit (record : RetentionManifest) (now : Int)
  | manifestAnswered (record : RetentionManifest) (outcome : ManifestOutcome)
  | dropFrozen (record : DropBefore) (now : Nat)
  | dropControl (record : DropBefore) (now : Nat)
  | dropAuthorize (record : DropBefore) (now : Nat)
  | dropMissing (record : DropBefore)
  | dropBarrier (record : DropBefore)
  | dropCommit (record : DropBefore) (barrier : Nat)
  | dropAnswered (record : DropBefore) (outcome : Except Refusal Log.DropOutcome)
  | failed
deriving DecidableEq

/-- What a process does with its turn: carry out a control or a resolution whole, take up
a manifest or a drop, run its next statement, have it fail or lose its answer. `others` is
what the rest of the relay writes to the tables that the two calls also read. -/
inductive Action where
  | control (record : RetentionControl)
  | resolve (record : RetentionResolution)
  | manifest (record : RetentionManifest) (now : Int)
  | drop (record : DropBefore) (now : Nat)
  | turn
  | fail
  | lose
  | others (policies : List Policy) (destructions : List Destruction) (tables : Media.Tables)
      (db : Log.Db)

section Calls

variable (c : Access.Crypto) (workspace group : Bytes)

/-- `apply_control` with nothing else running. -/
def applyControl (record : RetentionControl) (chain : Chain) : Chain × Retention.Phase :=
  (Retention.machine c group).solo .turn 6 chain (receive c record)

/-- `resolve_freeze` with nothing else running. -/
def resolveFreeze (record : RetentionResolution) (chain : Chain) : Chain × Retention.Phase :=
  (Retention.machine c group).solo .turn 3 chain (receiveResolution c record)

/-- The same tables with another chain. -/
def Shared.withChain (s : Shared) (chain : Chain) : Shared :=
  { s with records := { s.records with chain } }

/-- One statement of a manifest or a drop. -/
def statement (s : Shared) : Phase → Option (Shared × Phase)
  | .manifestControl record now =>
    match Retention.refusedByControl c record s.records.chain.latestControl with
    | some reason => some (s, .manifestAnswered record (.invalid reason))
    | none => some (s, .manifestLatest record now)
  | .manifestLatest record now =>
    match refusedByLatest c record s.records.latestManifest with
    | some reason => some (s, .manifestAnswered record (.invalid reason))
    | none => some (s, .manifestCommit record now)
  | .manifestCommit record now =>
    match commitManifest c workspace now record s.records s.tables with
    | some (outcome, records, tables) =>
      some ({ s with records, tables }, .manifestAnswered record outcome)
    | none => some (s, .failed)
  | .dropFrozen record now =>
    if s.records.chain.frozen then some (s, .dropAnswered record (.error .groupFrozen))
    else some (s, .dropControl record now)
  | .dropControl record now =>
    match Lifecycle.refusedByControl c record s.records.chain.latestControl with
    | some refusal => some (s, .dropAnswered record (.error refusal))
    | none => some (s, .dropAuthorize record now)
  | .dropAuthorize record now =>
    match authorization record now s.records with
    | some refusal => some (s, .dropAnswered record (.error refusal))
    | none => some (s, .dropMissing record)
  | .dropMissing record =>
    match refusedByLog record s.db with
    | some refusal => some (s, .dropAnswered record (.error refusal))
    | none => some (s, .dropBarrier record)
  | .dropBarrier record => some (s, .dropCommit record (record.barrier s.db))
  | .dropCommit record barrier =>
    let (db, outcome) := compact (record.at barrier) s.db
    some ({ s with db }, .dropAnswered record (.ok outcome))
  | .idle | .manifestAnswered _ _ | .dropAnswered _ _ | .failed => none

def act : Action → Shared → Phase → Option (Shared × Phase)
  | .control record, s, .idle =>
    if record.group = group then
      some (s.withChain (applyControl c group record s.records.chain).1, .idle)
    else none
  | .resolve record, s, .idle =>
    if record.group = group then
      some (s.withChain (resolveFreeze c group record s.records.chain).1, .idle)
    else none
  | .manifest record now, s, .idle =>
    if record.group = group then some (s, .manifestControl record now) else none
  | .drop record now, s, .idle =>
    if record.group = group then some (s, .dropFrozen record now) else none
  | .others policies destructions tables db, s, .idle =>
    some (⟨{ s.records with policies, destructions }, tables, db⟩, .idle)
  | .turn, s, phase => statement c workspace s phase
  | .fail, s, phase => (statement c workspace s phase).map (fun _ => (s, .failed))
  | .lose, s, phase => (statement c workspace s phase).map (fun next => (next.1, .failed))
  | _, _, _ => none

/-- The calls of one group. Their transactions are one turn each. -/
def machine : Machine Shared Phase Action Unit where
  act := act c workspace group
  needs := fun _ _ _ => []
  locks := fun _ => []
  locks_act := fun _ _ hrow => by cases hrow

end Calls

/-! ## What a turn does to the chain -/

section Chain

variable {c : Access.Crypto} {ws g : Bytes} {chain : Chain} {s s' : Shared}
  {phase phase' : Phase} {a : Action}

/-- A chain that has grown out of another; where no rival was added, no freeze was. -/
structure Grown (before after : Chain) : Prop where
  extends_ : before.Extends after
  freeze : after.conflicts = before.conflicts → after.frozen = true → before.frozen = true

theorem Grown.refl (chain : Chain) : Grown chain chain :=
  ⟨.refl chain, fun _ h => h⟩

theorem Grown.trans {first second third} (h : Grown first second)
    (h' : Grown second third) : Grown first third := by
  refine ⟨h.extends_.trans h'.extends_, fun heq hfrozen => ?_⟩
  -- The rivals grew twice and are as they were, so they were never anything else.
  have hmiddle : second.conflicts = first.conflicts := by
    have hle := h'.extends_.conflicts.length_le
    rw [heq] at hle
    exact (h.extends_.conflicts.eq_of_length_le hle).symm
  exact h.freeze hmiddle (h'.freeze (heq.trans hmiddle.symm) hfrozen)

/-- What is true of a call of `apply_control` or `resolve_freeze` that runs alone: it
freezes only after it recorded a rival. -/
def Alone (before chain : Chain) (phase : Retention.Phase) : Prop :=
  Grown before chain ∧ ∀ record, phase = .freeze record → chain.conflicts ≠ before.conflicts

theorem Alone.turn {b chain chain' phase phase'} (h : Alone b chain phase)
    (hturn : Retention.statement c chain phase = some (chain', phase')) :
    Alone b chain' phase' := by
  obtain ⟨hgrown, hfreeze⟩ := h
  cases effect_of_statement hturn with
  | none hpassive =>
    refine ⟨hgrown, ?_⟩
    rintro record rfl
    cases hpassive
  | settle =>
    exact ⟨⟨hgrown.extends_.trans ⟨List.prefix_append _ _, List.prefix_rfl⟩, hgrown.freeze⟩, nofun⟩
  | @rival record =>
    have hlonger : b.conflicts.length < (chain.recordConflict record).conflicts.length := by
      have hle := hgrown.extends_.conflicts.length_le
      simp only [Chain.recordConflict, List.length_append, List.length_singleton]
      omega
    have hdiffers : (chain.recordConflict record).conflicts ≠ b.conflicts := fun heq => by
      rw [heq] at hlonger
      omega
    exact ⟨⟨hgrown.extends_.trans ⟨List.prefix_rfl, List.prefix_append _ _⟩,
      fun heq => absurd heq hdiffers⟩, fun _ _ => hdiffers⟩
  | @freeze record =>
    have hdiffers := hfreeze record rfl
    exact ⟨⟨⟨hgrown.extends_.controls, hgrown.extends_.conflicts⟩,
      fun heq => absurd heq hdiffers⟩, nofun⟩
  | thaw => exact ⟨⟨⟨hgrown.extends_.controls, hgrown.extends_.conflicts⟩, nofun⟩, nofun⟩

theorem grown_solo {n phase} (hpassive : phase.passive = true) :
    Grown chain ((Retention.machine c g).solo .turn n chain phase).1 := by
  have hstart : Alone chain chain phase := by
    refine ⟨.refl chain, ?_⟩
    rintro record rfl
    cases hpassive
  exact (Machine.solo_keeps (P := Alone chain) (fun h hact => h.turn hact) hstart n).1

end Chain

/-! ## What a turn does -/

/-- Every way a turn can go: a whole call on the chain or a write to the other tables, the
start of a manifest or a drop, a statement of one, or its refusal or failure. The answer of a
commit may be lost. -/
inductive Turn (c : Access.Crypto) (workspace : Bytes) (s : Shared) :
    Action → Phase → Shared → Phase → Prop
  | chain {action chain} : Grown s.records.chain chain →
      Turn c workspace s action .idle (s.withChain chain) .idle
  | others {policies destructions tables db} :
      Turn c workspace s (.others policies destructions tables db) .idle
        ⟨{ s.records with policies, destructions }, tables, db⟩ .idle
  | manifest {record now} :
      Turn c workspace s (.manifest record now) .idle s (.manifestControl record now)
  | drop {record now} : Turn c workspace s (.drop record now) .idle s (.dropFrozen record now)
  | manifestControl {record now} :
      SignedUnder c s.records.chain.latestControl record.epoch record.signingBytes record.sig →
      Turn c workspace s .turn (.manifestControl record now) s (.manifestLatest record now)
  | manifestLatest {record now} : refusedByLatest c record s.records.latestManifest = none →
      Turn c workspace s .turn (.manifestLatest record now) s (.manifestCommit record now)
  | manifestCommit {action record now digest records tables after} :
      commitManifest c workspace now record s.records s.tables =
        some (.accepted digest, records, tables) →
      action = .turn ∧ after = .manifestAnswered record (.accepted digest) ∨
        action = .lose ∧ after = .failed →
      Turn c workspace s action (.manifestCommit record now) { s with records, tables } after
  | dropFrozen {record now} : s.records.chain.frozen = false →
      Turn c workspace s .turn (.dropFrozen record now) s (.dropControl record now)
  | dropControl {record now} :
      SignedUnder c s.records.chain.latestControl record.epoch record.signingBytes record.sig →
      Turn c workspace s .turn (.dropControl record now) s (.dropAuthorize record now)
  | dropAuthorize {record now} : Turn c workspace s .turn (.dropAuthorize record now) s
      (.dropMissing record)
  | dropMissing {record} : refusedByLog record s.db = none →
      Turn c workspace s .turn (.dropMissing record) s (.dropBarrier record)
  | dropBarrier {record} : Turn c workspace s .turn (.dropBarrier record) s
      (.dropCommit record (record.barrier s.db))
  | dropCommit {action record barrier after} :
      action = .turn ∧ after = .dropAnswered record (.ok (compact (record.at barrier) s.db).2) ∨
        action = .lose ∧ after = .failed →
      Turn c workspace s action (.dropCommit record barrier)
        { s with db := (compact (record.at barrier) s.db).1 } after
  | invalid {phase record reason} :
      Turn c workspace s .turn phase s (.manifestAnswered record (.invalid reason))
  | error {phase record refusal} :
      Turn c workspace s .turn phase s (.dropAnswered record (.error refusal))
  | failed {action phase} : Turn c workspace s action phase s .failed

section Turns

variable {c : Access.Crypto} {ws g : Bytes} {s s' : Shared} {phase phase' : Phase}
  {a : Action}

theorem turn_of_statement (h : statement c ws s phase = some (s', phase')) :
    Turn c ws s .turn phase s' phase' := by
  cases phase with
  | manifestControl record now =>
    simp only [statement] at h
    split at h <;> cases h
    · exact .invalid
    next hctrl => exact .manifestControl (Retention.refusedByControl_eq_none.mp hctrl)
  | manifestLatest record now =>
    simp only [statement] at h
    split at h <;> cases h
    · exact .invalid
    next hlatest => exact .manifestLatest hlatest
  | manifestCommit record now =>
    simp only [statement] at h
    split at h <;> cases h
    next out rs ts hcomm =>
      cases out with
      | accepted digest => exact .manifestCommit hcomm (.inl ⟨rfl, rfl⟩)
      | invalid reason =>
        obtain ⟨rfl, rfl⟩ := commitManifest_invalid hcomm
        exact .invalid
    · exact .failed
  | dropFrozen record now =>
    simp only [statement] at h
    split at h <;> cases h
    · exact .error
    next hfrozen => exact .dropFrozen (by simpa using hfrozen)
  | dropControl record now =>
    simp only [statement] at h
    split at h <;> cases h
    · exact .error
    next hctrl => exact .dropControl (Lifecycle.refusedByControl_eq_none.mp hctrl)
  | dropAuthorize record now =>
    simp only [statement] at h
    split at h <;> cases h
    · exact .error
    · exact .dropAuthorize
  | dropMissing record =>
    simp only [statement] at h
    split at h <;> cases h
    · exact .error
    next hlog => exact .dropMissing hlog
  | dropBarrier record =>
    cases h
    exact .dropBarrier
  | dropCommit record barrier =>
    cases h
    exact .dropCommit (.inl ⟨rfl, rfl⟩)
  | idle | manifestAnswered | dropAnswered | failed => cases h

variable (h : act c ws g a s phase = some (s', phase'))
include h

theorem turn_of_act : Turn c ws s a phase s' phase' := by
  cases a with
  | turn => exact turn_of_statement h
  | fail =>
    obtain ⟨-, -, hfailed⟩ := Option.map_eq_some_iff.mp h
    cases hfailed
    exact .failed
  | lose =>
    obtain ⟨⟨after, answer⟩, hstatement, hlost⟩ := Option.map_eq_some_iff.mp h
    cases hlost
    cases turn_of_statement hstatement with
    | chain => cases hstatement
    | manifestCommit hcommit => exact .manifestCommit hcommit (.inr ⟨rfl, rfl⟩)
    | dropCommit => exact .dropCommit (.inr ⟨rfl, rfl⟩)
    | _ => exact .failed
  | others policies destructions ts db =>
    cases phase <;> cases h
    exact .others
  | control | resolve | manifest | drop =>
    cases phase <;> simp only [act, reduceCtorEq, Option.ite_none_right_eq_some] at h
    cases h.2
    first
      | exact .manifest
      | exact .drop
      | exact .chain (grown_solo passive_receive)
      | exact .chain (grown_solo (passive_receiveResolution _))

theorem grown_act : Grown s.records.chain s'.records.chain := by
  cases turn_of_act h with
  | chain hgrown => exact hgrown
  | manifestCommit hcomm =>
    obtain ⟨-, -, rfl, -⟩ := commitManifest_accepted hcomm
    exact .refl _
  | _ => exact .refl _

end Turns

/-! ## What a call has read -/

section Origins

variable {π : Type} [DecidableEq π] {c : Access.Crypto} {workspace group : Bytes}
  {start w w' : World π Shared Phase} {labels : List (π × Action)}

/-- The moment at which a call reads the newest control, and finds its record signed
under it. -/
def ReadsControl (c : Access.Crypto) (epoch : Nat) (message sig : Bytes) (reading : Phase → Prop)
    (p : π) (v : World π Shared Phase) : Prop :=
  reading (v.phase p) ∧ SignedUnder c v.store.records.chain.latestControl epoch message sig

/-- A manifest reads the newest control. -/
def ManifestRead (c : Access.Crypto) (record : RetentionManifest) (p : π)
    (v : World π Shared Phase) : Prop :=
  ReadsControl c record.epoch record.signingBytes record.sig
    (fun phase => ∃ now, phase = .manifestControl record now) p v

/-- A drop reads the newest control. -/
def DropRead (c : Access.Crypto) (record : DropBefore) (p : π)
    (v : World π Shared Phase) : Prop :=
  ReadsControl c record.epoch record.signingBytes record.sig
    (fun phase => ∃ now, phase = .dropControl record now) p v

/-- A drop reads the freeze flag, and finds it down. -/
def DropUnfrozen (record : DropBefore) (p : π) (v : World π Shared Phase) : Prop :=
  (∃ now, v.phase p = .dropFrozen record now) ∧ v.store.records.chain.frozen = false

/-- What lies behind a call that stands at this phase. -/
def Origin (past : (World π Shared Phase → Prop) → Prop) (c : Access.Crypto) (p : π) :
    Phase → Prop
  | .manifestLatest record _ | .manifestCommit record _ => past (ManifestRead c record p)
  | .dropControl record _ => past (DropUnfrozen record p)
  | .dropAuthorize record _ | .dropMissing record | .dropBarrier record | .dropCommit record _ =>
    past (DropUnfrozen record p) ∧ past (DropRead c record p)
  | _ => True

variable {past past' : (World π Shared Phase → Prop) → Prop} {p : π}

omit [DecidableEq π] in
theorem Origin.mono {phase} (hpast : ∀ F, past F → past' F) (h : Origin past c p phase) :
    Origin past' c p phase := by
  cases phase with
  | manifestLatest record now | manifestCommit record now | dropControl record now =>
    exact hpast _ h
  | dropAuthorize record now | dropMissing record | dropBarrier record
  | dropCommit record barrier => exact ⟨hpast _ h.1, hpast _ h.2⟩
  | idle | manifestControl record now | manifestAnswered record out | dropFrozen record now
  | dropAnswered record out | failed => trivial

omit [DecidableEq π] in
/-- A turn leads to a phase with the right past, if this moment becomes part of it. -/
theorem origin_act {a s' phase'} (hpast : ∀ F, past F → past' F)
    (hnow : ∀ F : World π Shared Phase → Prop, F w → past' F) (h : Origin past c p (w.phase p))
    (hact : act c workspace group a w.store (w.phase p) = some (s', phase')) :
    Origin past' c p phase' := by
  generalize hphase : w.phase p = phase at h hact
  cases turn_of_act hact with
  | manifestControl hsig => exact hnow _ ⟨⟨_, hphase⟩, hsig⟩
  | manifestLatest => exact hpast _ h
  | dropFrozen hfrozen => exact hnow _ ⟨⟨_, hphase⟩, hfrozen⟩
  | dropControl hsig => exact ⟨hpast _ h, hnow _ ⟨⟨_, hphase⟩, hsig⟩⟩
  | dropAuthorize | dropMissing | dropBarrier => exact ⟨hpast _ h.1, hpast _ h.2⟩
  | manifestCommit _ hafter | dropCommit hafter =>
    rcases hafter with ⟨-, rfl⟩ | ⟨-, rfl⟩ <;> trivial
  | _ => trivial

theorem origin_run (hidle : ∀ p, start.phase p = .idle)
    (hrun : Run (machine c workspace group).Step start labels w) (p : π) :
    Origin (Run.Past (machine c workspace group).Step start labels w) c p (w.phase p) := by
  refine Run.history (fun p => by simp [hidle p, Origin]) ?_ hrun p
  rintro taken v ⟨q, a⟩ v' htaken horigin hs p
  have hpast : ∀ F, Run.Past (machine c workspace group).Step start taken v F →
      Run.Past (machine c workspace group).Step start (taken ++ [(q, a)]) v' F :=
    fun F h => h.snoc hs
  obtain ⟨s', phase', hact, -, rfl⟩ := hs
  by_cases hp : p = q
  · subst hp
    rw [World.move_phase_self]
    exact origin_act hpast (fun F hF => hpast F (.now htaken hF)) (horigin p) hact
  · rw [World.move_phase_of_ne v hp]
    exact (horigin p).mono hpast

theorem grown_run (hrun : Run (machine c workspace group).Step w labels w') :
    Grown w.store.records.chain w'.store.records.chain := by
  refine Run.invariant ?_ hrun (Grown.refl _)
  rintro v label v' hv ⟨s', phase', hact, -, rfl⟩
  exact hv.trans (grown_act hact)

/-- In every interleaving, a manifest that is accepted was signed under the newest control
when it read it, and still is at its commit if no control was settled since; a drop that
is accepted was so too, and the group was not frozen when it read the flag, and still is
not at its commit if no rival was recorded since. -/
theorem accepted_under_control_read
    {p : π}
    {action : Action}
    (hidle : ∀ p, start.phase p = .idle)
    (hrun : Run (machine c workspace group).Step start labels w)
    (hstep : (machine c workspace group).Step w (p, action) w') :
    (∀ record now digest, w.phase p = .manifestCommit record now →
      w'.phase p = .manifestAnswered record (.accepted digest) →
      Run.Past (machine c workspace group).Step start labels w (fun v =>
        ManifestRead c record p v ∧
        (w.store.records.chain.controls = v.store.records.chain.controls →
          SignedUnder c w'.store.records.chain.latestControl record.epoch record.signingBytes
            record.sig))) ∧
    (∀ record barrier outcome, w.phase p = .dropCommit record barrier →
      w'.phase p = .dropAnswered record (.ok outcome) →
      Run.Past (machine c workspace group).Step start labels w (fun v =>
        DropUnfrozen record p v ∧
        (w.store.records.chain.conflicts = v.store.records.chain.conflicts →
          w'.store.records.chain.frozen = false)) ∧
      Run.Past (machine c workspace group).Step start labels w (fun v =>
        DropRead c record p v ∧
        (w.store.records.chain.controls = v.store.records.chain.controls →
          SignedUnder c w'.store.records.chain.latestControl record.epoch record.signingBytes
            record.sig))) := by
  have horigin := origin_run hidle hrun p
  obtain ⟨s', phase', hact, -, rfl⟩ := hstep
  rw [World.move_phase_self, World.move_store]
  -- An answer is given by a statement, which leaves the chain as it is.
  have hchain : (∃ record outcome, phase' = .manifestAnswered record outcome) ∨
      (∃ record outcome, phase' = .dropAnswered record outcome) →
      s'.records.chain = w.store.records.chain := by
    intro hanswer
    have hturn := turn_of_act hact
    generalize w.phase p = phase at hturn
    cases hturn with
    | chain => simp at hanswer
    | manifestCommit hcommit =>
      obtain ⟨-, -, rfl, -⟩ := commitManifest_accepted hcommit
      rfl
    | _ => rfl
  have hlatest : ∀ {v : World π Shared Phase} {epoch message sig},
      s'.records.chain = w.store.records.chain →
      SignedUnder c v.store.records.chain.latestControl epoch message sig →
      w.store.records.chain.controls = v.store.records.chain.controls →
      SignedUnder c s'.records.chain.latestControl epoch message sig := by
    intro v epoch message sig heq hsigned hcontrols
    rw [heq, Chain.latestControl, hcontrols]
    exact hsigned
  refine ⟨?_, ?_⟩
  · intro record now digest hphase hanswer
    rw [hphase] at horigin
    refine .mono horigin fun before after v _ _ _ hread => ⟨hread, fun hcontrols => ?_⟩
    exact hlatest (hchain (.inl ⟨_, _, hanswer⟩)) hread.2 hcontrols
  · intro record barrier outcome hphase hanswer
    rw [hphase] at horigin
    have heq := hchain (.inr ⟨_, _, hanswer⟩)
    refine ⟨?_, ?_⟩
    · refine .mono horigin.1
        (fun before after v _ _ hsince hread => ⟨hread, fun hconflicts => ?_⟩)
      rw [heq]
      by_contra hfrozen
      have hwas := (grown_run hsince).freeze hconflicts (by simpa using hfrozen)
      rw [hread.2] at hwas
      cases hwas
    · refine .mono horigin.2
        (fun before after v _ _ _ hread => ⟨hread, fun hcontrols => ?_⟩)
      exact hlatest heq hread.2 hcontrols

end Origins

/-! ## A manifest for a frozen group -/

section Sample

/-- Empty tables, and nothing begun. -/
def quietGroup : World Caller Shared Phase :=
  ⟨⟨Records.empty, Media.noTables, ⟨fun _ => none, [], fun _ => 0, []⟩⟩, fun _ => .idle⟩

/-- The first manifest, of nothing, signed in epoch 1. -/
def firstManifest : RetentionManifest := ⟨room, 1, 1, none, [], id32 2⟩

/-- Two successors are presented, so the group is frozen, and then a manifest. -/
def manifestWhenFrozen : List (Caller × Action) :=
  [(.first, .control genesisControl), (.first, .control firstSuccessor),
    (.first, .control secondSuccessor), (.second, .manifest firstManifest 0),
    (.second, .turn), (.second, .turn)]

/-- The same without the second successor. -/
def manifestAfterControl : List (Caller × Action) :=
  [(.first, .control genesisControl), (.first, .control firstSuccessor),
    (.second, .manifest firstManifest 0), (.second, .turn), (.second, .turn)]

theorem manifest_accepted_when_frozen :
    ∃ w w', Run (machine plainCrypto home room).Step quietGroup manifestWhenFrozen w ∧
      (machine plainCrypto home room).Step w (.second, .turn) w' ∧
      w'.phase .second =
        .manifestAnswered firstManifest (.accepted (firstManifest.digest plainCrypto)) ∧
      w'.store.records.chain.frozen = true := by
  have hexec : ((machine plainCrypto home room).exec (fun _ _ _ _ => True) quietGroup
      (manifestWhenFrozen ++ [(.second, .turn)])).map
        (fun w => (w.phase .second, w.store.records.chain.frozen)) =
      some (.manifestAnswered firstManifest (.accepted (firstManifest.digest plainCrypto)),
        true) := by
    decide +kernel
  obtain ⟨w', hw', hend⟩ := Option.map_eq_some_iff.mp hexec
  obtain ⟨hanswer, hfrozen⟩ := Prod.mk.inj hend
  obtain ⟨w, -, hrun, hs⟩ := Machine.exec_snoc hw'
  exact ⟨w, w', Machine.run_of_under hrun, hs.1, hanswer, hfrozen⟩

/-- With one successor the manifest is signed under the newest control at its commit. -/
theorem accepted_under_first_successor :
    ∃ w w', Run (machine plainCrypto home room).Step quietGroup manifestAfterControl w ∧
      (machine plainCrypto home room).Step w (.second, .turn) w' ∧
      Run.Past (machine plainCrypto home room).Step quietGroup manifestAfterControl w (fun v =>
        ManifestRead plainCrypto firstManifest Caller.second v ∧
        (w.store.records.chain.controls = v.store.records.chain.controls →
          SignedUnder plainCrypto w'.store.records.chain.latestControl firstManifest.epoch
            firstManifest.signingBytes firstManifest.sig)) := by
  have hready : ((machine plainCrypto home room).exec (fun _ _ _ _ => True) quietGroup
      manifestAfterControl).map (fun w => w.phase .second) =
      some (.manifestCommit firstManifest 0) := by
    decide +kernel
  have hexec : ((machine plainCrypto home room).exec (fun _ _ _ _ => True) quietGroup
      (manifestAfterControl ++ [(.second, .turn)])).map (fun w => w.phase .second) =
      some (.manifestAnswered firstManifest (.accepted (firstManifest.digest plainCrypto))) := by
    decide +kernel
  obtain ⟨w', hw', hanswer⟩ := Option.map_eq_some_iff.mp hexec
  obtain ⟨w, hw, hrun, hs⟩ := Machine.exec_snoc hw'
  have hphase : w.phase .second = .manifestCommit firstManifest 0 := by
    rw [hw] at hready
    exact Option.some.inj hready
  have hboth := accepted_under_control_read (fun _ => rfl) (Machine.run_of_under hrun) hs.1
  exact ⟨w, w', Machine.run_of_under hrun, hs.1, hboth.1 _ _ _ hphase hanswer⟩

end Sample
end WealdRelay.Retention.Race
