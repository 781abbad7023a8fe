import Mathlib.Data.List.Range
import WealdRelay.Retention.Control

/-!
# The settled controls are one chain

Whatever calls of `apply_control` and `resolve_freeze` interleave on a group, its settled
controls are numbered from the genesis one without a gap, each named and signed by the one
before it, and neither they nor the recorded rivals ever change.

A process relies on what it has checked. The tables only grow (`Chain.Extends`), so what
was found in them once is there for every later statement; the insert is the one
statement whose premise can have gone stale, and it looks at the key again itself.
-/

namespace WealdRelay.Retention

open Lib List Table

/-! ## Chains -/

section Rows

variable (c : Access.Crypto)

/-- One row for each epoch from 0 on; the first is signed by the verifier it brings, each
later one names the digest of the one before it and is signed by that one's verifier. -/
structure OneChain (group : Bytes) (rows : List RetentionControl) : Prop where
  epochs : rows.map RetentionControl.epoch = List.range rows.length
  groups : ∀ row ∈ rows, row.group = group
  root : ∀ row ∈ rows, row.epoch = 0 → row.prevControlHash = none ∧
    c.verifyStrict row.verifier row.signingBytes row.sig = true
  linked : ∀ prior ∈ rows, ∀ row ∈ rows, row.epoch = prior.epoch + 1 →
    row.prevControlHash = some (prior.digest c) ∧
      c.verifyStrict prior.verifier row.signingBytes row.sig = true

/-- A record is valid against these rows: a genesis control, or one that names a row of
the epoch before it and is signed by its verifier. -/
def Follows (rows : List RetentionControl) (record : RetentionControl) : Prop :=
  (record.epoch = 0 ∧ record.prevControlHash = none ∧
    c.verifyStrict record.verifier record.signingBytes record.sig = true) ∨
  ∃ prior ∈ rows, record.epoch = prior.epoch + 1 ∧ record.prevControlHash = some (prior.digest c) ∧
      c.verifyStrict prior.verifier record.signingBytes record.sig = true

/-- Another control is settled for the record's epoch, which is not the first. -/
def Rival (rows : List RetentionControl) (record : RetentionControl) : Prop :=
  1 ≤ record.epoch ∧ ∃ settled ∈ rows, settled.epoch = record.epoch ∧ settled ≠ record

variable {c} {g : Bytes} {rows rows' : List RetentionControl}
  {record row prior : RetentionControl}

theorem OneChain.nil : OneChain c g [] :=
  ⟨rfl, by simp, by simp, by simp⟩

variable (h : OneChain c g rows)
include h

theorem OneChain.nodup : (rows.map RetentionControl.epoch).Nodup := by
  rw [h.epochs]
  exact nodup_range

theorem OneChain.mem_epochs {epoch} : (∃ row ∈ rows, row.epoch = epoch) ↔ epoch < rows.length := by
  rw [← mem_range, ← h.epochs, mem_map]

/-- One epoch, one row. -/
theorem OneChain.unique (hrow : row ∈ rows) (hprior : prior ∈ rows)
    (hepoch : row.epoch = prior.epoch) : row = prior :=
  inj_on_of_nodup_map h.nodup hrow hprior hepoch

/-- A settled control is valid against the chain it is part of. -/
theorem OneChain.follows (hrow : row ∈ rows) : Follows c rows row := by
  rcases Nat.eq_zero_or_pos row.epoch with hzero | hpos
  · exact .inl ⟨hzero, h.root row hrow hzero⟩
  · have hlt : row.epoch - 1 < rows.length := by
      have := h.mem_epochs.mp ⟨row, hrow, rfl⟩
      omega
    obtain ⟨prior, hprior, hepoch⟩ := h.mem_epochs.mpr hlt
    have hnext : row.epoch = prior.epoch + 1 := by omega
    exact .inr ⟨prior, hprior, hnext, h.linked prior hprior row hrow hnext⟩

/-- A valid record of an epoch that is not settled is of the next one. -/
theorem OneChain.epoch_of_follows (hrecord : Follows c rows record)
    (hfree : ∀ row ∈ rows, row.epoch ≠ record.epoch) : record.epoch = rows.length := by
  have hge : rows.length ≤ record.epoch := by
    by_contra hlt
    obtain ⟨row, hrow, hepoch⟩ := h.mem_epochs.mpr (Nat.lt_of_not_le hlt)
    exact hfree row hrow hepoch
  rcases hrecord with ⟨hzero, -⟩ | ⟨prior, hprior, hnext, -⟩
  · omega
  · have := h.mem_epochs.mp ⟨prior, hprior, rfl⟩
    omega

/-- A valid record of an epoch that is not settled makes the chain one longer. -/
theorem OneChain.snoc (hg : record.group = g)
    (hrecord : Follows c rows record) (hfree : ∀ row ∈ rows, row.epoch ≠ record.epoch) :
    OneChain c g (rows ++ [record]) := by
  have hlast := h.epoch_of_follows hrecord hfree
  have hbelow : ∀ row ∈ rows, row.epoch < record.epoch := by
    intro row hrow
    rw [hlast]
    exact h.mem_epochs.mp ⟨row, hrow, rfl⟩
  refine ⟨?_, ?_, ?_, ?_⟩
  · simp [h.epochs, hlast, range_succ]
  · exact forall_mem_snoc h.groups hg
  · intro row hrow hzero
    rcases mem_snoc.mp hrow with hold | rfl
    · exact h.root row hold hzero
    · rcases hrecord with ⟨-, hroot⟩ | ⟨prior, -, hnext, -⟩
      · exact hroot
      · omega
  · intro prior hprior row hrow hnext
    rcases mem_snoc.mp hprior with hpriorOld | rfl
    · rcases mem_snoc.mp hrow with hrowOld | rfl
      · exact h.linked prior hpriorOld row hrowOld hnext
      · rcases hrecord with ⟨hzero, -⟩ | ⟨found, hf, hfoundNext, hfacts⟩
        · omega
        · obtain rfl := h.unique hf hpriorOld (by omega)
          exact hfacts
    · -- Nothing follows the row that was just added.
      rcases mem_snoc.mp hrow with hrowOld | rfl
      · have := hbelow row hrowOld
        omega
      · omega

omit h

theorem Follows.mono (hsub : rows ⊆ rows') (h : Follows c rows record) :
    Follows c rows' record := by
  rcases h with hroot | ⟨prior, hprior, hfacts⟩
  · exact .inl hroot
  · exact .inr ⟨prior, hsub hprior, hfacts⟩

theorem Rival.mono (hsub : rows ⊆ rows') (h : Rival rows record) : Rival rows' record := by
  obtain ⟨hepoch, settled, hset, hdiffers⟩ := h
  exact ⟨hepoch, settled, hsub hset, hdiffers⟩

/-- A settled control has no rival among the settled ones. -/
theorem OneChain.not_rival (h : OneChain c g rows) (hrow : row ∈ rows) : ¬ Rival rows row := by
  rintro ⟨-, settled, hset, hepoch, hdiffers⟩
  exact hdiffers (h.unique hset hrow hepoch)

end Rows

/-! ## What a statement does to the tables -/

/-- Neither about to freeze the group nor the answer that it is frozen. -/
def Phase.passive : Phase → Bool
  | .freeze _ => false
  | .answered _ outcome => !outcome.conflict
  | _ => true

/-- What a statement does to the tables: nothing, or it writes one control, one rival or the
freeze. -/
inductive Effect (chain : Chain) : Phase → Chain → Phase → Prop
  | none {phase phase'} : phase'.passive = true → Effect chain phase chain phase'
  | settle {record} : chain.controlAt record.epoch = .none →
      Effect chain (.insert record) (chain.settle record) (.answered record .accepted)
  | rival {record} : Effect chain (.conflict record) (chain.recordConflict record) (.freeze record)
  | freeze {record} : Effect chain (.freeze record) { chain with frozen := true }
      (.answered record (if chain.frozen then .conflictAlreadyFrozen else .conflictFroze))
  | thaw {record} :
      Effect chain (.clear record) { chain with frozen := false } (.resolved record .cleared)

/-- A turn begins a call, runs a statement, or ends in a failure with or without the
effect of one. -/
inductive Turn (c : Access.Crypto) (group : Bytes) (chain : Chain) :
    Action → Phase → Chain → Phase → Prop
  | control {record} : record.group = group →
      Turn c group chain (.control record) .idle chain (receive c record)
  | resolve {record} :
      Turn c group chain (.resolve record) .idle chain (receiveResolution c record)
  | turn {phase chain' phase'} : statement c chain phase = some (chain', phase') →
      Turn c group chain .turn phase chain' phase'
  | fail {phase} : Turn c group chain .fail phase chain .failed
  | lost {phase chain' next} : statement c chain phase = some (chain', next) →
      Turn c group chain .lost phase chain' .failed

section Effects

variable {c : Access.Crypto} {g : Bytes} {chain chain' : Chain} {phase phase' : Phase}
  {record : RetentionControl} {a : Action}

theorem passive_judgeSignature (authority : Bytes) :
    (judgeSignature c record authority).passive = true := by
  rw [judgeSignature]
  split <;> rfl

theorem passive_receive : (receive c record).passive = true := by
  rw [receive]
  split
  · split
    · rfl
    · exact passive_judgeSignature _
  · rfl

theorem passive_judgePrior (prior : Option RetentionControl) :
    (judgePrior c record prior).passive = true := by
  cases prior with
  | none => rfl
  | some prior =>
    rw [judgePrior]
    split
    · rfl
    · split
      · exact passive_judgeSignature _
      · rfl

theorem passive_judgeExisting (existing : RetentionControl) :
    (judgeExisting record existing).passive = true := by
  rw [judgeExisting]
  split
  · rfl
  · split <;> rfl

theorem passive_receiveResolution (record : RetentionResolution) :
    (receiveResolution c record).passive = true := by
  rw [receiveResolution]
  split <;> rfl

theorem effect_of_statement (h : statement c chain phase = some (chain', phase')) :
    Effect chain phase chain' phase' := by
  cases phase with
  | prior record =>
    cases h
    exact .none (passive_judgePrior _)
  | candidate record | conflicting record =>
    cases h
    refine .none ?_
    split <;> rfl
  | existing record | winner record =>
    simp only [statement] at h
    split at h <;> cases h
    · exact .none (passive_judgeExisting _)
    · exact .none rfl
  | insert record =>
    simp only [statement] at h
    split at h
    · cases h
      exact .none rfl
    · split at h <;> cases h
      · exact .none rfl
      next hnone => exact .settle hnone
  | conflict record =>
    cases h
    exact .rival
  | freeze record =>
    cases h
    exact .freeze
  | clear record =>
    cases h
    exact .thaw
  | idle | answered | resolved | failed => cases h

theorem turn_of_act (h : act c g a chain phase = some (chain', phase')) :
    Turn c g chain a phase chain' phase' := by
  cases a with
  | control record =>
    cases phase <;> simp only [act, reduceCtorEq] at h
    split at h <;> cases h
    next hg => exact .control hg
  | resolve record =>
    cases phase <;> simp only [act, reduceCtorEq] at h
    split at h <;> cases h
    exact .resolve
  | turn => exact .turn h
  | fail =>
    simp only [act] at h
    split at h <;> cases h
    exact .fail
  | lost =>
    simp only [act, Option.map_eq_some_iff, Prod.mk.injEq] at h
    obtain ⟨⟨chain'', next⟩, hnext, rfl, rfl⟩ := h
    exact .lost hnext

/-- A turn leaves the tables alone or has the effect of a statement. -/
theorem act_chain (h : act c g a chain phase = some (chain', phase')) :
    chain' = chain ∨ (∀ record, a ≠ .control record) ∧ ∃ next, Effect chain phase chain' next := by
  cases turn_of_act h with
  | control | resolve | fail => exact .inl rfl
  | turn hturn => exact .inr ⟨nofun, phase', effect_of_statement hturn⟩
  | lost hlost => exact .inr ⟨nofun, _, effect_of_statement hlost⟩

/-- No row ever leaves either table. -/
structure Chain.Extends (before after : Chain) : Prop where
  controls : before.controls <+: after.controls
  conflicts : before.conflicts <+: after.conflicts

theorem Chain.Extends.refl (chain : Chain) : chain.Extends chain :=
  ⟨prefix_rfl, prefix_rfl⟩

theorem Chain.Extends.trans {first second third : Chain} (h : first.Extends second)
    (h' : second.Extends third) : first.Extends third :=
  ⟨h.controls.trans h'.controls, h.conflicts.trans h'.conflicts⟩

theorem Effect.extends_ (h : Effect chain phase chain' phase') : chain.Extends chain' := by
  cases h with
  | none => exact .refl chain
  | settle => exact ⟨prefix_append _ _, prefix_rfl⟩
  | rival => exact ⟨prefix_rfl, prefix_append _ _⟩
  | freeze | thaw => exact ⟨prefix_rfl, prefix_rfl⟩

theorem act_extends (h : act c g a chain phase = some (chain', phase')) : chain.Extends chain' := by
  rcases act_chain h with rfl | ⟨-, next, heffect⟩
  · exact .refl chain'
  · exact heffect.extends_

end Effects

/-! ## What a process relies on -/

section Relies

variable (c : Access.Crypto) (group : Bytes)

/-- A resolution is signed by the verifier it names, which is that of the settled control
of its epoch or of a recorded rival. -/
def Known (chain : Chain) (record : RetentionResolution) : Prop :=
  c.verifyStrict record.verifier record.signingBytes record.sig = true ∧
    ∃ row ∈ chain.controls ++ chain.conflicts,
      row.epoch = record.epoch ∧ row.verifier = record.verifier

/-- What a process at this phase has found in the tables. -/
def Relies (chain : Chain) : Phase → Prop
  | .prior record => record.group = group ∧ 1 ≤ record.epoch
  | .existing record | .insert record | .winner record =>
    record.group = group ∧ Follows c chain.controls record
  | .conflict record => Follows c chain.controls record ∧ Rival chain.controls record
  | .freeze record => Follows c chain.controls record ∧ Rival chain.controls record ∧
      record ∈ chain.conflicts
  | .answered record .accepted => record ∈ chain.controls
  | .answered record .conflictFroze | .answered record .conflictAlreadyFrozen =>
    Follows c chain.controls record ∧ Rival chain.controls record ∧ record ∈ chain.conflicts
  | .candidate record | .conflicting record =>
    c.verifyStrict record.verifier record.signingBytes record.sig = true
  | .clear record | .resolved record .cleared => Known c chain record
  | _ => True

variable {c group} {chain chain' : Chain} {phase phase' : Phase} {record : RetentionControl}
  {a : Action}

theorem Known.mono (h : chain.Extends chain') {record}
    (hknown : Known c chain record) : Known c chain' record := by
  obtain ⟨hsig, row, hrow, hfacts⟩ := hknown
  refine ⟨hsig, row, ?_, hfacts⟩
  rcases mem_append.mp hrow with hctrl | hconf
  · exact mem_append_left _ (h.controls.subset hctrl)
  · exact mem_append_right _ (h.conflicts.subset hconf)

/-- What was found in the tables stays there. -/
theorem Relies.mono (h : chain.Extends chain') (hrel : Relies c group chain phase) :
    Relies c group chain' phase := by
  have hcontrols := h.controls.subset
  have hconflicts := h.conflicts.subset
  cases phase with
  | prior record | candidate record | conflicting record => exact hrel
  | existing record | insert record | winner record =>
    exact ⟨hrel.1, hrel.2.mono hcontrols⟩
  | conflict record => exact ⟨hrel.1.mono hcontrols, hrel.2.mono hcontrols⟩
  | freeze record =>
    exact ⟨hrel.1.mono hcontrols, hrel.2.1.mono hcontrols, hconflicts hrel.2.2⟩
  | answered record out =>
    cases out with
    | accepted => exact hcontrols hrel
    | conflictFroze | conflictAlreadyFrozen =>
      exact ⟨hrel.1.mono hcontrols, hrel.2.1.mono hcontrols, hconflicts hrel.2.2⟩
    | invalid reason => trivial
  | clear record => exact .mono h hrel
  | resolved record out =>
    cases out with
    | cleared => exact .mono h hrel
    | badSignature | unknownVerifier => trivial
  | idle | failed => trivial

variable {existing : RetentionControl}

/-- A record of the same group and epoch that compares equal is the same record. -/
theorem eq_of_isTheSameControl (hg : existing.group = record.group)
    (hepoch : existing.epoch = record.epoch) (h : isTheSameControl existing record = true) :
    existing = record := by
  simp only [isTheSameControl, Bool.and_eq_true, decide_eq_true_eq] at h
  obtain ⟨⟨hverifier, hprev⟩, hsig⟩ := h
  cases existing
  cases record
  simp_all

theorem isTheSameControl_self (record : RetentionControl) :
    isTheSameControl record record = true := by
  simp [isTheSameControl]

theorem relies_judgeSignature {authority} (hg : record.group = group)
    (hfollows : c.verifyStrict authority record.signingBytes record.sig = true →
      Follows c chain.controls record) :
    Relies c group chain (judgeSignature c record authority) := by
  rw [judgeSignature]
  split
  next hsig => exact ⟨hg, hfollows hsig⟩
  · trivial

theorem relies_receive (hg : record.group = group) : Relies c group chain (receive c record) := by
  rw [receive]
  split
  next hzero =>
    split
    · trivial
    next hnone =>
      refine relies_judgeSignature hg fun hsig => .inl ⟨hzero, ?_, hsig⟩
      simpa using hnone
  next hpos => exact ⟨hg, Nat.pos_of_ne_zero hpos⟩

theorem relies_judgePrior (hg : record.group = group) (hpos : 1 ≤ record.epoch) :
    Relies c group chain (judgePrior c record (chain.controlAt (record.epoch - 1))) := by
  cases hf : chain.controlAt (record.epoch - 1) with
  | none => trivial
  | some prior =>
    have hmem : prior ∈ chain.controls := mem_of_lookup hf
    have hepoch : prior.epoch = record.epoch - 1 := key_of_lookup hf
    rw [judgePrior]
    split
    · trivial
    next named hnamed =>
      split
      next hdigest =>
        refine relies_judgeSignature hg fun hsig => ?_
        refine .inr ⟨prior, hmem, by omega, ?_, hsig⟩
        rw [hnamed, hdigest]
      · trivial

variable (hchain : OneChain c group chain.controls)
include hchain

theorem relies_judgeExisting (hg : record.group = group)
    (hfollows : Follows c chain.controls record)
    (hf : chain.controlAt record.epoch = some existing) :
    Relies c group chain (judgeExisting record existing) := by
  have hmem : existing ∈ chain.controls := mem_of_lookup hf
  have hepoch : existing.epoch = record.epoch := key_of_lookup hf
  have heq : existing.group = record.group := (hchain.groups existing hmem).trans hg.symm
  rw [judgeExisting]
  split
  next hequal =>
    obtain rfl := eq_of_isTheSameControl heq hepoch hequal
    exact hmem
  next hdiffers =>
    split
    · trivial
    next hpos =>
      refine ⟨hfollows, Nat.pos_of_ne_zero hpos, existing, hmem, hepoch, ?_⟩
      rintro rfl
      exact hdiffers (isTheSameControl_self existing)

/-- A statement keeps the chain and leads to a phase that relies on what is there. -/
theorem statement_keeps
    (hrel : Relies c group chain phase) (h : statement c chain phase = some (chain', phase')) :
    OneChain c group chain'.controls ∧ Relies c group chain' phase' := by
  cases phase with
  | prior record =>
    cases h
    exact ⟨hchain, relies_judgePrior hrel.1 hrel.2⟩
  | existing record =>
    simp only [statement] at h
    split at h
    next existing hf =>
      cases h
      exact ⟨hchain, relies_judgeExisting hchain hrel.1 hrel.2 hf⟩
    · cases h
      exact ⟨hchain, hrel⟩
  | insert record =>
    simp only [statement] at h
    split at h
    · cases h
      exact ⟨hchain, trivial⟩
    · split at h
      · cases h
        exact ⟨hchain, hrel⟩
      next hnone =>
        -- The key is free at the insert itself, whatever was read before it.
        cases h
        refine ⟨hchain.snoc hrel.1 hrel.2 ?_, mem_append_right _ ?_⟩
        · exact fun row hrow => ne_of_lookup_eq_none hnone hrow
        · exact mem_singleton_self record
  | winner record =>
    simp only [statement] at h
    split at h
    next winner hf =>
      cases h
      exact ⟨hchain, relies_judgeExisting hchain hrel.1 hrel.2 hf⟩
    · cases h
      exact ⟨hchain, trivial⟩
  | conflict record =>
    cases h
    exact ⟨hchain, hrel.1, hrel.2, mem_append_right _ (mem_singleton_self record)⟩
  | freeze record =>
    cases h
    refine ⟨hchain, ?_⟩
    split
    · exact hrel
    · exact hrel
  | candidate record =>
    cases h
    refine ⟨hchain, ?_⟩
    split
    next hknown =>
      rw [controlKnown] at hknown
      cases hf : chain.controlAt record.epoch with
      | none => simp [hf] at hknown
      | some row =>
        rw [hf] at hknown
        exact ⟨hrel, row, mem_append_left _ (mem_of_lookup hf),
          key_of_lookup hf, of_decide_eq_true hknown⟩
    · exact hrel
  | conflicting record =>
    cases h
    refine ⟨hchain, ?_⟩
    split
    next hknown =>
      obtain ⟨row, hrow, hfacts⟩ := any_eq_true.mp hknown
      simp only [Bool.and_eq_true, decide_eq_true_eq] at hfacts
      exact ⟨hrel, row, mem_append_right _ hrow, hfacts⟩
    · trivial
  | clear record =>
    cases h
    exact ⟨hchain, hrel⟩
  | idle | answered record out | resolved record out | failed =>
    simp [statement] at h

theorem act_keeps (hrel : Relies c group chain phase)
    (h : act c group a chain phase = some (chain', phase')) :
    OneChain c group chain'.controls ∧ Relies c group chain' phase' := by
  cases turn_of_act h with
  | control hg => exact ⟨hchain, relies_receive hg⟩
  | resolve =>
    refine ⟨hchain, ?_⟩
    rw [receiveResolution]
    split
    next hsig => exact hsig
    · trivial
  | turn hturn => exact statement_keeps hchain hrel hturn
  | fail => exact ⟨hchain, trivial⟩
  | lost hlost => exact ⟨(statement_keeps hchain hrel hlost).1, trivial⟩

end Relies

/-! ## Calls with a known record -/

/-- The control a process is judging. -/
def Phase.control : Phase → Option RetentionControl
  | .prior record | .existing record | .insert record | .winner record | .conflict record
  | .freeze record | .answered record _ => some record
  | _ => none

/-- How many statements a process can still run. -/
@[simp]
def Phase.rank : Phase → Nat
  | .prior _ => 6
  | .existing _ => 5
  | .insert _ => 4
  | .winner _ => 3
  | .conflict _ => 2
  | .freeze _ => 1
  | .candidate _ => 3
  | .conflicting _ => 2
  | .clear _ => 1
  | .idle | .answered _ _ | .resolved _ _ | .failed => 0

section Calls

variable {c : Access.Crypto} {g : Bytes} {chain chain' : Chain} {phase phase' : Phase}
  {record : RetentionControl} {a : Action}

/-- A process that has begun and not ended can run its next statement, and has one less
to run after it. -/
theorem statement_progress (c : Access.Crypto) (chain : Chain) (h : phase.running = true) :
    ∃ chain' phase', statement c chain phase = some (chain', phase') ∧
      phase'.rank < phase.rank := by
  have hexisting : ∀ record existing, (judgeExisting record existing).rank < 3 := by
    intro record existing
    rw [judgeExisting]
    split
    · simp
    · split <;> simp [refuse]
  have hsig : ∀ record authority, (judgeSignature c record authority).rank < 6 := by
    intro record authority
    rw [judgeSignature]
    split <;> simp [refuse]
  cases phase with
  | prior record =>
    refine ⟨chain, _, rfl, ?_⟩
    cases chain.controlAt (record.epoch - 1) with
    | none => simp [judgePrior, refuse]
    | some prior =>
      simp only [judgePrior]
      split
      · simp [refuse]
      · split
        · exact hsig record prior.verifier
        · simp [refuse]
  | existing record =>
    simp only [statement]
    split
    next existing _ => exact ⟨chain, _, rfl, (hexisting record existing).trans (by simp)⟩
    · exact ⟨chain, _, rfl, by simp⟩
  | insert record =>
    simp only [statement]
    split
    · exact ⟨chain, _, rfl, by simp⟩
    · split
      · exact ⟨chain, _, rfl, by simp⟩
      · exact ⟨_, _, rfl, by simp⟩
  | winner record =>
    simp only [statement]
    split
    next winner _ => exact ⟨chain, _, rfl, hexisting record winner⟩
    · exact ⟨chain, _, rfl, by simp⟩
  | conflict | freeze | clear => exact ⟨_, _, rfl, by simp⟩
  | candidate | conflicting =>
    refine ⟨chain, _, rfl, ?_⟩
    split <;> simp
  | idle | answered record out | resolved record out | failed => cases h

/-- A call with a control that is settled, or of the first epoch, neither records a rival
nor freezes the group; if it is settled, the call leaves the tables alone. -/
theorem Effect.of_control (hchain : OneChain c g chain.controls)
    (hrel : Relies c g chain phase) (hctrl : phase.control = some record)
    (h : Effect chain phase chain' phase') :
    (record ∈ chain.controls → chain' = chain) ∧
      (record.epoch = 0 → chain'.conflicts = chain.conflicts ∧ chain'.frozen = chain.frozen) := by
  cases h with
  | none => exact ⟨fun _ => rfl, fun _ => ⟨rfl, rfl⟩⟩
  | settle hfree =>
    cases hctrl
    refine ⟨fun hmem => ?_, fun _ => ⟨rfl, rfl⟩⟩
    exact absurd rfl (ne_of_lookup_eq_none hfree hmem)
  | rival =>
    cases hctrl
    refine ⟨fun hmem => absurd hrel.2 (hchain.not_rival hmem), fun hzero => ?_⟩
    have := hrel.2.1
    omega
  | freeze =>
    cases hctrl
    refine ⟨fun hmem => absurd hrel.2.1 (hchain.not_rival hmem), fun hzero => ?_⟩
    have := hrel.2.1.1
    omega
  | thaw => cases hctrl

/-- The judgement of a record that is valid against the tables gets to the settled control
of its own epoch. -/
theorem judgePrior_of_follows (hchain : OneChain c g chain.controls)
    (hfollows : Follows c chain.controls record) (hpos : 1 ≤ record.epoch) :
    judgePrior c record (chain.controlAt (record.epoch - 1)) = .existing record := by
  rcases hfollows with ⟨hzero, -⟩ | ⟨prior, hprior, hnext, hnamed, hsig⟩
  · omega
  · have hf : chain.controlAt (record.epoch - 1) = some prior :=
      lookup_of_mem hchain.nodup hprior (by omega)
    simp [hf, judgePrior, hnamed, judgeSignature, hsig]

theorem receive_of_follows (hfollows : Follows c chain.controls record) :
    receive c record = .prior record ∨ receive c record = .existing record := by
  rw [receive]
  rcases hfollows with ⟨hzero, hnone, hsig⟩ | ⟨prior, -, hnext, -⟩
  · right
    simp [hzero, hnone, judgeSignature, hsig]
  · left
    rw [if_neg (by omega)]

/-- Where a call with a settled control can stand. -/
def Repeats (record : RetentionControl) (phase : Phase) : Prop :=
  phase = .prior record ∨ phase = .existing record ∨ phase = .answered record .accepted ∨
    phase = .failed

/-- Where a call with a rival of a settled control can stand. -/
def Contests (record : RetentionControl) (phase : Phase) : Prop :=
  phase = .prior record ∨ phase = .existing record ∨ phase = .conflict record ∨
    phase = .freeze record ∨ phase = .answered record .conflictFroze ∨
    phase = .answered record .conflictAlreadyFrozen ∨ phase = .failed

theorem statement_repeats (hchain : OneChain c g chain.controls)
    (hset : record ∈ chain.controls) (hrel : Relies c g chain phase) (hphase : Repeats record phase)
    (h : statement c chain phase = some (chain', phase')) : Repeats record phase' := by
  rcases hphase with rfl | rfl | rfl | rfl
  · cases h
    rw [judgePrior_of_follows hchain (hchain.follows hset) hrel.2]
    exact .inr (.inl rfl)
  · have hf : chain.controlAt record.epoch = some record :=
      lookup_of_mem hchain.nodup hset rfl
    simp only [statement, hf] at h
    cases h
    rw [judgeExisting, if_pos (isTheSameControl_self record)]
    exact .inr (.inr (.inl rfl))
  · simp [statement] at h
  · simp [statement] at h

theorem statement_contests (hchain : OneChain c g chain.controls)
    (hfollows : Follows c chain.controls record) (hrival : Rival chain.controls record)
    (hg : record.group = g) (hphase : Contests record phase)
    (h : statement c chain phase = some (chain', phase')) : Contests record phase' := by
  rcases hphase with rfl | rfl | rfl | rfl | rfl | rfl | rfl
  · cases h
    rw [judgePrior_of_follows hchain hfollows hrival.1]
    exact .inr (.inl rfl)
  · obtain ⟨hpos, settled, hset, hepoch, hdiffers⟩ := hrival
    have hf : chain.controlAt record.epoch = some settled :=
      lookup_of_mem hchain.nodup hset hepoch
    simp only [statement, hf] at h
    cases h
    have hnotSame : ¬ isTheSameControl settled record = true := fun heq =>
      hdiffers (eq_of_isTheSameControl ((hchain.groups settled hset).trans hg.symm) hepoch heq)
    rw [judgeExisting, if_neg hnotSame, if_neg (by omega)]
    exact .inr (.inr (.inl rfl))
  · cases h
    exact .inr (.inr (.inr (.inl rfl)))
  · cases h
    split
    · exact .inr (.inr (.inr (.inr (.inr (.inl rfl)))))
    · exact .inr (.inr (.inr (.inr (.inl rfl))))
  · simp [statement] at h
  · simp [statement] at h
  · simp [statement] at h

/-- The answer that a conflict was recorded is given when the group is frozen. -/
theorem frozen_of_conflict {out} (h : act c g a chain phase = some (chain', .answered record out))
    (hconf : out.conflict = true) : chain'.frozen = true := by
  have hact : (Phase.answered record out).passive ≠ true := by
    simp [Phase.passive, hconf]
  generalize hphase : Phase.answered record out = phase' at h hact
  cases turn_of_act h with
  | control => exact absurd passive_receive hact
  | resolve => exact absurd (passive_receiveResolution _) hact
  | fail | lost => cases hphase
  | turn hturn =>
    cases effect_of_statement hturn with
    | none hpassive => exact absurd hpassive hact
    | settle => exact absurd rfl hact
    | freeze => rfl
    | rival | thaw => cases hphase

end Calls

/-! ## Whole runs -/

section Runs

variable {π : Type} {c : Access.Crypto} {group : Bytes}
  {w w' : World π Chain Phase} {labels : List (π × Action)}

/-- A group nothing was published for, and no call begun. -/
def unpublished (π : Type) : World π Chain Phase := ⟨Chain.empty, fun _ => .idle⟩

/-- The chain is one chain and every process relies on what is there. -/
def Sound (c : Access.Crypto) (group : Bytes) (w : World π Chain Phase) : Prop :=
  OneChain c group w.store.controls ∧ ∀ p, Relies c group w.store (w.phase p)

theorem sound_unpublished : Sound c group (unpublished π) :=
  ⟨.nil, fun _ => trivial⟩

variable [DecidableEq π] {label : π × Action}

theorem Sound.step (h : Sound c group w) (hs : (machine c group).Step w label w') :
    Sound c group w' := by
  obtain ⟨chain', phase', hact, -, rfl⟩ := hs
  obtain ⟨hchain, hmover⟩ := act_keeps h.1 (h.2 label.1) hact
  refine ⟨hchain, fun q => ?_⟩
  by_cases hq : q = label.1
  · subst hq
    simpa using hmover
  · rw [World.move_phase_of_ne w hq]
    exact (h.2 q).mono (act_extends hact)

theorem Sound.run (h : Sound c group w) (hrun : Run (machine c group).Step w labels w') :
    Sound c group w' :=
  Run.invariant (fun _ _ _ hs hstep => step hs hstep) hrun h

theorem step_extends (hs : (machine c group).Step w label w') : w.store.Extends w'.store := by
  obtain ⟨chain', phase', hact, -, rfl⟩ := hs
  exact act_extends hact

theorem run_extends (hrun : Run (machine c group).Step w labels w') : w.store.Extends w'.store :=
  Run.invariant (fun _ _ _ hv hs => hv.trans (step_extends hs)) hrun (Chain.Extends.refl _)

/-- A freeze ends where a resolution that names a known verifier is accepted. -/
theorem thawed_by_resolution (h : Sound c group w)
    (hrun : Run (machine c group).Step w labels w') (hfrozen : w.store.frozen = true)
    (hthawed : w'.store.frozen = false) :
    ∃ b p a t v record, labels = b ++ (p, a) :: t ∧
      Run (machine c group).Step w b v ∧ v.phase p = .clear record ∧
      Known c v.store record := by
  induction hrun with
  | nil w =>
    rw [hfrozen] at hthawed
    cases hthawed
  | @cons w v w' label labels hs hr ih =>
    by_cases hstill : v.store.frozen = true
    · obtain ⟨b, p, a, t, u, record, rfl, hb, hphase, hknown⟩ :=
        ih (h.step hs) hstill hthawed
      exact ⟨label :: b, p, a, t, u, record, rfl, .cons hs hb, hphase, hknown⟩
    · -- This step took the freeze away, and only `clear_freeze` does.
      obtain ⟨chain', phase', hact, -, rfl⟩ := hs
      obtain ⟨p, a⟩ := label
      have hphase : ∃ record, w.phase p = .clear record := by
        rcases act_chain hact with rfl | ⟨-, next, heffect⟩
        · exact absurd hfrozen hstill
        generalize w.phase p = phase at heffect
        cases heffect with
        | none | settle | rival => exact absurd hfrozen hstill
        | freeze => exact absurd rfl hstill
        | thaw => exact ⟨_, rfl⟩
      obtain ⟨record, hphase⟩ := hphase
      have hknown := h.2 p
      rw [hphase] at hknown
      exact ⟨[], p, a, labels, w, record, rfl, .nil w, hphase, hknown⟩

variable {p : π} {record : RetentionControl}

theorem begun (hs : (machine c group).Step w (p, .control record) w') :
    record.group = group ∧ w'.store = w.store ∧ w'.phase p = receive c record := by
  obtain ⟨chain', phase', hact, -, rfl⟩ := hs
  generalize w.phase p = phase at hact
  cases turn_of_act hact with
  | control hg => exact ⟨hg, rfl, by simp⟩

variable (h : Sound c group w)
  (hrun : Run (machine c group).Step w ((p, .control record) :: labels) w')
include h hrun

/-- The call of a valid record stays where the record allows it to be, as long as each of
its statements keeps it there and what it needs of the tables is not lost. -/
theorem call_stays (needs : Chain → Prop) {P : Phase → Prop}
    (hneeds : ∀ {chain chain'}, chain.Extends chain' → needs chain → needs chain')
    (hfailed : P .failed) (hbegun : ¬ P .idle) (hprior : P (.prior record))
    (hexisting : P (.existing record))
    (hkeep : ∀ {chain chain' phase phase'}, record.group = group →
      OneChain c group chain.controls → Relies c group chain phase → needs chain → P phase →
      statement c chain phase = some (chain', phase') → P phase')
    (hfollows : Follows c w.store.controls record) (hneed : needs w.store) : P (w'.phase p) := by
  cases hrun with
  | @cons _ first _ _ _ hs hr =>
  obtain ⟨hg, hstore, hphase⟩ := begun hs
  have hbegin : P (first.phase p) := by
    rw [hphase]
    rcases receive_of_follows hfollows with heq | heq
    · exact heq ▸ hprior
    · exact heq ▸ hexisting
  refine (Run.invariant (I := fun v => Sound c group v ∧ needs v.store ∧ P (v.phase p)) ?_ hr
    ⟨h.step hs, hstore ▸ hneed, hbegin⟩).2.2
  clear hs hr
  rintro v ⟨q, a⟩ v' ⟨hv, hvneed, hvp⟩ hs
  refine ⟨hv.step hs, hneeds (step_extends hs) hvneed, ?_⟩
  obtain ⟨chain', phase', hact, -, rfl⟩ := hs
  by_cases hq : p = q
  · subst hq
    rw [World.move_phase_self]
    have hrel := hv.2 p
    generalize v.phase p = phase at hact hvp hrel
    cases turn_of_act hact with
    | control | resolve => exact absurd hvp hbegun
    | turn hturn => exact hkeep hg hv.1 hrel hvneed hvp hturn
    | fail | lost => exact hfailed
  · rw [World.move_phase_of_ne v hq]
    exact hvp

variable {outcome : ControlOutcome} {other : RetentionControl}

/-- A rival of a settled control is answered as a conflict, if its call is answered. -/
theorem rival_answered
    (hfollows : Follows c w.store.controls record) (hrival : Rival w.store.controls record)
    (hans : w'.phase p = .answered other outcome) : other = record ∧ outcome.conflict = true := by
  have hend : Contests record (w'.phase p) :=
    call_stays h hrun (fun chain => Follows c chain.controls record ∧ Rival chain.controls record)
      (fun hext hneed => ⟨hneed.1.mono hext.controls.subset, hneed.2.mono hext.controls.subset⟩)
      (by simp [Contests]) (by simp [Contests]) (.inl rfl) (.inr (.inl rfl))
      (fun hg hchain _ hneed hp hturn =>
        statement_contests hchain hneed.1 hneed.2 hg hp hturn)
      hfollows ⟨hfollows, hrival⟩
  rw [hans] at hend
  simp only [Contests, Phase.answered.injEq, reduceCtorEq, or_false, false_or] at hend
  rcases hend with ⟨rfl, rfl⟩ | ⟨rfl, rfl⟩
  · exact ⟨rfl, rfl⟩
  · exact ⟨rfl, rfl⟩

/-- A settled control presented again is accepted, if its call is answered. -/
theorem repeat_answered
    (hset : record ∈ w.store.controls) (hans : w'.phase p = .answered other outcome) :
    other = record ∧ outcome = .accepted := by
  have hend : Repeats record (w'.phase p) :=
    call_stays h hrun (record ∈ ·.controls) (fun hext hneed => hext.controls.subset hneed)
      (by simp [Repeats]) (by simp [Repeats]) (.inl rfl) (.inr (.inl rfl))
      (fun _ hchain hrel hneed hp hturn => statement_repeats hchain hneed hrel hp hturn)
      (h.1.follows hset) hset
  rw [hans] at hend
  simpa [Repeats] using hend

omit hrun

/-- The step that answers a conflict leaves the group frozen, with both records kept. -/
theorem conflict_answered (hs : (machine c group).Step w label w')
    (hans : w'.phase label.1 = .answered record outcome) (hconf : outcome.conflict = true) :
    w'.store.frozen = true ∧ record ∈ w'.store.conflicts ∧ Rival w'.store.controls record := by
  have hrel := (h.step hs).2 label.1
  rw [hans] at hrel
  have hk : Rival w'.store.controls record ∧ record ∈ w'.store.conflicts := by
    cases outcome with
    | conflictFroze | conflictAlreadyFrozen => exact hrel.2
    | accepted | invalid reason => cases hconf
  refine ⟨?_, hk.2, hk.1⟩
  obtain ⟨chain', phase', hact, -, rfl⟩ := hs
  rw [World.move_phase_self] at hans
  subst hans
  exact frozen_of_conflict hact hconf

/-- A step of a call with a settled control leaves the tables alone, and one with a
genesis control neither records a rival nor touches the freeze. -/
theorem step_of_control {a} (hs : (machine c group).Step w (p, a) w')
    (hctrl : (w.phase p).control = some record ∨ a = .control record) :
    (record ∈ w.store.controls → w'.store = w.store) ∧ (record.epoch = 0 →
        w'.store.conflicts = w.store.conflicts ∧ w'.store.frozen = w.store.frozen) := by
  obtain ⟨chain', phase', hact, -, rfl⟩ := hs
  rcases act_chain hact with rfl | ⟨ho, next, heffect⟩
  · exact ⟨fun _ => rfl, fun _ => ⟨rfl, rfl⟩⟩
  · exact heffect.of_control h.1 (h.2 p) (hctrl.resolve_right (ho record))

omit h

/-- Whatever calls of `apply_control` and `resolve_freeze` have interleaved on a group:
its settled controls are one chain; neither they nor the recorded rivals are ever lost,
and a freeze lasts until a resolution is accepted; a valid rival of a settled control is
answered as a conflict, which leaves the group frozen and both records kept; a settled
control presented again changes nothing and is accepted; a genesis control never freezes;
and every call that has begun gets on with its statements, of which there are at most
six. -/
theorem control_chain_is_one (hrun : Run (machine c group).Step (unpublished π) labels w) :
    OneChain c group w.store.controls ∧
    (∀ more w', Run (machine c group).Step w more w' → w.store.Extends w'.store ∧
      (w.store.frozen = true → w'.store.frozen = false →
        ∃ before p action after v record, more = before ++ (p, action) :: after ∧
          Run (machine c group).Step w before v ∧ v.phase p = .clear record ∧
          Known c v.store record)) ∧
    (∀ p record more w', Run (machine c group).Step w ((p, .control record) :: more) w' →
      Follows c w.store.controls record → Rival w.store.controls record →
      ∀ other outcome, w'.phase p = .answered other outcome →
        other = record ∧ outcome.conflict = true) ∧
    (∀ p action record outcome w', (machine c group).Step w (p, action) w' →
      w'.phase p = .answered record outcome → outcome.conflict = true →
        w'.store.frozen = true ∧ record ∈ w'.store.conflicts ∧ Rival w'.store.controls record) ∧
    (∀ p record more w', Run (machine c group).Step w ((p, .control record) :: more) w' →
      record ∈ w.store.controls → ∀ other outcome, w'.phase p = .answered other outcome →
        other = record ∧ outcome = .accepted) ∧
    (∀ p action record w', (machine c group).Step w (p, action) w' →
      (w.phase p).control = some record ∨ action = .control record →
        (record ∈ w.store.controls → w'.store = w.store) ∧
        (record.epoch = 0 → w'.store.conflicts = w.store.conflicts ∧
          w'.store.frozen = w.store.frozen)) ∧
    (∀ p, (w.phase p).rank ≤ 6 ∧ ((w.phase p).running = true →
      ∃ w', (machine c group).Step w (p, .turn) w' ∧ (w'.phase p).rank < (w.phase p).rank)) := by
  have hsound := Sound.run sound_unpublished hrun
  refine ⟨hsound.1, ?_, ?_, ?_, ?_, ?_, ?_⟩
  · intro more w' hmore
    exact ⟨run_extends hmore, thawed_by_resolution hsound hmore⟩
  · intro p record more w' hmore hfollows hrival other outcome hanswer
    exact rival_answered hsound hmore hfollows hrival hanswer
  · intro p action record outcome w' hs hanswer hconflict
    exact conflict_answered hsound hs hanswer hconflict
  · intro p record more w' hmore hset other outcome hanswer
    exact repeat_answered hsound hmore hset hanswer
  · intro p action record w' hs hcontrol
    exact step_of_control hsound hs hcontrol
  · intro p
    refine ⟨by cases w.phase p <;> simp, fun hrn => ?_⟩
    obtain ⟨chain', phase', hturn, hrank⟩ := statement_progress c w.store hrn
    refine ⟨w.move p chain' phase', ⟨chain', phase', hturn, ?_, rfl⟩, by simpa using hrank⟩
    intro row hrow
    cases hrow

end Runs

/-! ## A race for the first successor -/

section Sample

/-- Signatures that are the key itself, and digests that are the bytes. -/
def plainCrypto : Access.Crypto := ⟨id, fun key _ sig => sig = key⟩

/-- A sample workspace, a group of it and a blob of the group. -/
def home : Bytes := id32 9

def room : Bytes := id32 1

def photo : Bytes := id32 7

/-- A control of the group whose verifier and signature repeat one byte. -/
def plainControl (epoch : Nat) (verifier signer : Byte) (prev : Option RetentionControl) :
    RetentionControl :=
  ⟨room, epoch, id32 verifier, prev.map (·.digest plainCrypto), id32 signer⟩

def genesisControl : RetentionControl := plainControl 0 1 1 none

def firstSuccessor : RetentionControl := plainControl 1 2 1 (some genesisControl)

def secondSuccessor : RetentionControl := plainControl 1 3 1 (some genesisControl)

/-- Both successors find epoch 1 free; the second loses the insert. -/
def successorRace : List (Caller × Action) :=
  List.flatten [[(.first, .control genesisControl), (.first, .turn), (.first, .turn)],
      [(.second, .control firstSuccessor), (.third, .control secondSuccessor)],
      [(.second, .turn), (.third, .turn), (.second, .turn), (.third, .turn)],
      [(.second, .turn), (.third, .turn), (.third, .turn), (.third, .turn), (.third, .turn)]]

theorem control_chain_of_race :
    ∃ w, Run (machine plainCrypto room).Step (unpublished Caller) successorRace w ∧
      w.store = ⟨[genesisControl, firstSuccessor], [secondSuccessor], true⟩ ∧
      OneChain plainCrypto room [genesisControl, firstSuccessor] := by
  have hexec : (((machine plainCrypto room).exec (fun _ _ _ _ => True) (unpublished Caller)
      successorRace).map (fun w => w.store)) =
        some ⟨[genesisControl, firstSuccessor], [secondSuccessor], true⟩ := by
    decide +kernel
  obtain ⟨w, hw, hstore⟩ := Option.map_eq_some_iff.mp hexec
  have hrun := Machine.run_of_exec hw
  have hchain := (control_chain_is_one hrun).1
  rw [hstore] at hchain
  exact ⟨w, hrun, hstore, hchain⟩

end Sample
end WealdRelay.Retention
