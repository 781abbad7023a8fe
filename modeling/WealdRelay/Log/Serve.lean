import WealdRelay.Log.Answers

/-!
# What was accepted is served back

An accepted envelope passes through a row of signed columns and is encoded again on
three paths: the live delivery, the backfill of a subscription and the pushes of a
reconciliation. Every stored row is the row of an envelope that was decoded and
validated (`originates_run`), so what a row turns into is a question about
`rowEnvelope (rowOf e seq now)`: every field but `seq` and `ts`, which are the relay's,
comes back, except that an epoch whose top bit is set comes back as zero.
-/

namespace WealdRelay.Log

open Lib List Cbor Envelope

/-! ## Through the row and back -/

section Row

variable {e : Envelope} {seq now : Nat} {v : Nat}

theorem toU64_asI64_of_lt (h : v < bigintBound) : toU64 (asI64 v) = v := by
  unfold toU64 asI64 bigintBound at *
  dsimp only
  split_ifs <;> omega

theorem toU64_asI64_of_le (h : bigintBound ≤ v) (hlt : v < 2 ^ 64) : toU64 (asI64 v) = 0 := by
  unfold toU64 asI64 bigintBound at *
  dsimp only
  split_ifs <;> omega

theorem toU64_asI64_lt (v : Nat) : toU64 (asI64 v) < 2 ^ 64 := by
  unfold toU64 asI64 bigintBound
  dsimp only
  split_ifs <;> omega

/-- A row that was stored gives back every field but the epoch and the time. -/
theorem rowEnvelope_rowOf (hv : e.v = envelopeVersion) : rowEnvelope (rowOf e seq now) = { e with
        epoch := toU64 (asI64 e.epoch)
        seq := seq
        ts := toU64 (asI64 now) } := by
  have hver : e.v < 256 := by
    rw [hv]
    decide
  have henc : e.enc.toNat < 256 := lt_trans e.enc.toNat_lt (by decide)
  simp [rowEnvelope, rowOf, hver, henc]

theorem encodeRow_rowOf (h : e.Fits) (hv : e.v = envelopeVersion) (hseq : seq < bigintBound) :
    decode (encodeRow (rowOf e seq now)) = .ok { e with
        epoch := toU64 (asI64 e.epoch)
        seq := seq
        ts := toU64 (asI64 now) } := by
  have hwide : seq < 2 ^ 64 := lt_trans hseq (by decide)
  rw [encodeRow, rowEnvelope_rowOf hv]
  exact decode_encode
    { h with
      epoch := toU64_asI64_lt _
      seq := hwide
      ts := toU64_asI64_lt _ }

end Row

/-! ## What the reads select -/

section Reads

variable {db : Db} {g : Bytes} {row : EnvelopeRow} {ids : List Bytes} {maxBytes : Nat}

theorem cutAt_front (maxBytes spent : Nat) (rows : List EnvelopeRow) :
    cutAt maxBytes spent rows <+: rows := by
  induction rows generalizing spent with
  | nil => exact prefix_refl _
  | cons row rows ih =>
    simp only [cutAt]
    split
    · exact ⟨rows, rfl⟩
    · exact cons_prefix_cons.mpr ⟨rfl, ih _⟩

theorem mem_of_mem_sinceRows {fromSeq maxRows} (h : row ∈ sinceRows db g fromSeq maxRows maxBytes) :
    row ∈ db.envelopes ∧ row.groupId = g := by
  have hsort := mem_of_mem_take ((cutAt_front _ _ _).subset h)
  obtain ⟨hrow, hmatch⟩ := mem_filter.mp ((mem_insertionSort _).mp hsort)
  exact ⟨hrow, (of_decide_eq_true hmatch).1⟩

theorem mem_of_mem_serve {found e} (h : e ∈ serve ids found) : e ∈ found := by
  induction ids generalizing found with
  | nil => cases h
  | cons id ids ih =>
    simp only [serve] at h
    split at h
    · exact ih h
    next first hfind =>
      rcases mem_cons.mp h with rfl | h
      · exact mem_of_find?_eq_some hfind
      · exact mem_of_mem_filter (ih h)

theorem row_of_mem_envelopesFor {hash bytes} (h : (hash, bytes) ∈ envelopesFor db g ids) :
    ∃ row ∈ db.envelopes, row.groupId = g ∧ row.hash = hash ∧ bytes = encodeRow row := by
  obtain ⟨row, hrow, heq⟩ := mem_map.mp (mem_of_mem_serve h)
  obtain ⟨hmem, hmatch⟩ := mem_filter.mp hrow
  obtain ⟨hh, hbytes⟩ := Prod.mk.inj heq
  exact ⟨row, hmem, (of_decide_eq_true hmatch).1, hh, hbytes.symm⟩

/-- An address that is stored is served when it is asked for. -/
theorem envelopesFor_singleton (hrow : row ∈ db.envelopes) :
    ∃ bytes, (row.hash, bytes) ∈ envelopesFor db row.groupId [row.hash] := by
  set found := (db.envelopes.filter (fun x =>
    x.groupId = row.groupId ∧ x.hash ∈ [row.hash])).map (fun x => (x.hash, encodeRow x)) with hf
  have hmem : (row.hash, encodeRow row) ∈ found :=
    mem_map.mpr ⟨row, mem_filter.mpr ⟨hrow, by simp⟩, rfl⟩
  cases hfind : found.find? (·.1 = row.hash) with
  | none =>
    have hnone := find?_eq_none.mp hfind _ hmem
    simp at hnone
  | some e =>
    have hh : e.1 = row.hash := by simpa using find?_some hfind
    refine ⟨e.2, ?_⟩
    rw [envelopesFor, ← hf, serve, hfind]
    exact mem_cons.mpr (.inl (by rw [← hh]))

end Reads

/-! ## Where a row comes from -/

section Origin

variable {c : Access.Crypto} {config : Config}

/-- Every stored row is the row of a valid envelope. -/
def Originates (c : Access.Crypto) (config : Config) (s : State) : Prop :=
  ∀ row ∈ s.db.envelopes, ∃ e seq now, Valid c config e ∧ seq < bigintBound ∧ row = rowOf e seq now

/-- The envelope a send carries is valid, and its number fits a `bigint`. -/
def Carries (c : Access.Crypto) (config : Config) (_ : State) : Phase → Prop
  | .lookup e _ | .claim e _ | .lookAgain e _ | .answered e _ => Valid c config e
  | .insert e _ seq _ | .judge e _ seq _ | .commit e _ seq _ =>
    Valid c config e ∧ seq < bigintBound
  | _ => True

theorem Originates.storeEnvelope {s e now seq workspace} (hs : Originates c config s)
    (h : Valid c config e ∧ seq < bigintBound) :
    Originates c config (Log.storeEnvelope s e now seq workspace) := by
  intro row hrow
  rcases mem_append.mp hrow with hrow | hnew
  · exact hs row hrow
  · exact ⟨_, _, _, h.1, h.2, mem_singleton.mp hnew⟩

theorem carries_act {i s s' a a'} (hs : Originates c config s)
    (ha : Carries c config s a) (h : act c config i s a = some (s', a')) :
    Originates c config s' ∧ Carries c config s' a' := by
  cases turn_of_act h with
  | send hvalid => exact ⟨hs, hvalid⟩
  | claim _ hbound => exact ⟨hs, ha, by omega⟩
  | conflict => exact ⟨hs, ha.1⟩
  | commit => exact ⟨hs.storeEnvelope ha, ha.1⟩
  | commitLost => exact ⟨hs.storeEnvelope ha, trivial⟩
  | deleted | deletedLost => exact ⟨fun row hrow => hs row (mem_of_mem_filter hrow), trivial⟩
  | duplicate | lookup | insert | judge | lookAgain => exact ⟨hs, ha⟩
  | _ => exact ⟨hs, trivial⟩

variable {e : Envelope} {x y : Bytes}

theorem Valid.fits (h : Valid c config e) : e.Fits := by
  obtain ⟨⟨data, hdec⟩, hvalid⟩ := h
  have hct := (validate_ok hvalid).2.1
  exact fits_of_decode hdec (lt_of_le_of_lt hct (by decide))

theorem uint_append_inj {a b} (ha : a < 2 ^ 64) (hb : b < 2 ^ 64)
    (h : uint a ++ x = uint b ++ y) : a = b ∧ x = y := by
  have hread := Reader.uint_uint ha x
  rw [h, Reader.uint_uint hb y] at hread
  simpa [eq_comm] using hread

theorem bytes_append_inj {a b} (ha : a.length < 2 ^ 64) (hb : b.length < 2 ^ 64)
    (h : bytes a ++ x = bytes b ++ y) : a = b ∧ x = y := by
  have hread := Reader.bytes_bytes ha x
  rw [h, Reader.bytes_bytes hb y] at hread
  simpa [eq_comm] using hread

/-- Without collisions, an address is the address of one content. -/
theorem Valid.content_eq (hfree : Function.Injective c.blake3) {e'}
    (h : Valid c config e) (h' : Valid c config e') (hh : e.hash = e'.hash) :
    e' = { e with seq := e'.seq, ts := e'.ts } := by
  have hcontent : e.computedHash c = e'.computedHash c := by
    rw [(validate_ok h.2).2.2, (validate_ok h'.2).2.2, hh]
  have hbytes := hfree hcontent
  simp only [append_assoc] at hbytes
  have hwide : ∀ enc : Encryption, enc.toNat < 2 ^ 64 := fun enc =>
    lt_trans enc.toNat_lt (by decide)
  have hg : ∀ {e : Envelope}, e.Fits → e.group.length < 2 ^ 64 := fun hfits => by
    rw [hfits.group]
    decide
  obtain ⟨hv, hbytes⟩ := uint_append_inj (lt_trans h.fits.v (by decide))
    (lt_trans h'.fits.v (by decide)) hbytes
  obtain ⟨henc, hbytes⟩ := uint_append_inj (hwide _) (hwide _) hbytes
  obtain ⟨hg, hbytes⟩ := bytes_append_inj (hg h.fits) (hg h'.fits) hbytes
  obtain ⟨hepoch, hbytes⟩ := uint_append_inj h.fits.epoch h'.fits.epoch hbytes
  have hct := (bytes_append_inj (x := []) (y := []) h.fits.ct h'.fits.ct (by simpa using hbytes)).1
  have henc : e.enc = e'.enc := by
    have hback := Encryption.fromU8_toNat e.enc
    rw [henc, Encryption.fromU8_toNat] at hback
    exact (Option.some.inj hback).symm
  cases e
  cases e'
  simp_all

end Origin

/-! ## The three paths -/

section Paths

variable {π : Type} [DecidableEq π] {c : Access.Crypto} {config : Config}
  {w w' : World π State Phase} {labels : List (π × Action)}

/-- Bytes the relay produces for one envelope: fanned out live with the number and the
time of its accept, read by a subscription's backfill, or pushed by a reconciliation. -/
inductive Served (db : Db) (e : Envelope) : Bytes → Prop
  | live {seq now} :
      seq < 2 ^ 64 → now < 2 ^ 64 → Served db e (deliver e seq now)
  | backfill {row fromSeq maxRows maxBytes} :
      row ∈ sinceRows db e.group fromSeq maxRows maxBytes →
      row.hash = e.hash → Served db e (encodeRow row)
  | push {ids bytes} :
      (e.hash, bytes) ∈ envelopesFor db e.group ids → Served db e bytes

/-- The bytes decode to the envelope, with the relay's number and time, and its address
is still the hash of its content. -/
def Verifies (c : Access.Crypto) (e : Envelope) (bytes : Bytes) : Prop :=
  ∃ seq ts, Envelope.decode bytes = .ok { e with seq := seq, ts := ts } ∧
    { e with seq := seq, ts := ts }.computedHash c = e.hash

theorem originates_run (hfresh : Fresh w) (hrun : Run (machine c config).Step w labels w') :
    (machine c config).Holds (Originates c config) (Carries c config) (fun _ _ => True) w' := by
  have hstart : (machine c config).Holds (Originates c config) (Carries c config)
      (fun _ _ => True) w :=
    .of_idle hfresh.idle rfl (by simp [Originates, hfresh.envelopes]) trivial trivial
  refine Machine.Holds.run (fun _ _ _ => trivial) (fun hs ha hact => carries_act hs ha hact)
    ?_ hstart (Machine.run_under hrun)
  intro i s a s' a' b hbeside _
  exact ⟨hbeside.other, trivial⟩

/-- What a stored row is served as, for the envelope whose address it has. -/
theorem decode_encodeRow (hfree : Function.Injective c.blake3) {s}
    (hs : Originates c config s) {e} (he : Valid c config e) {row}
    (hrow : row ∈ s.db.envelopes) (hh : row.hash = e.hash) :
    ∃ seq ts, decode (encodeRow row) =
      .ok { e with epoch := toU64 (asI64 e.epoch), seq := seq, ts := ts } := by
  obtain ⟨origin, seq, now, horigin, hseq, rfl⟩ := hs row hrow
  have heq := he.content_eq hfree horigin hh.symm
  have hv := (validate_ok horigin.2).1
  refine ⟨seq, toU64 (asI64 now), ?_⟩
  rw [encodeRow_rowOf horigin.fits hv hseq, heq]

/-- An accepted envelope that is still stored is served verifiably on every path exactly
when its epoch is below `2 ^ 63`. -/
theorem served_verifies_iff
    (hfree : Function.Injective c.blake3)
    (hfresh : Fresh w)
    (hrun : Run (machine c config).Step w labels w')
    {p : π}
    {e : Envelope}
    {seq : Nat}
    (hp : w'.phase p = .answered e (.stored seq))
    (hstill : ¬ Absent w'.store.db e.group e.hash) :
    (∀ bytes, Served w'.store.db e bytes → Verifies c e bytes) ↔ e.epoch < bigintBound := by
  have hholds := originates_run hfresh hrun
  have he : Valid c config e := by
    have hcarries := hholds.phase p
    rw [hp] at hcarries
    exact hcarries
  have hverified := (Envelope.validate_ok he.2).2.2
  constructor
  · intro hserved
    by_contra hlarge
    obtain ⟨row, hrow, hg, hh⟩ : ∃ row ∈ w'.store.db.envelopes,
        row.groupId = e.group ∧ row.hash = e.hash := by
      simpa [Absent] using hstill
    obtain ⟨bytes, hbytes⟩ := envelopesFor_singleton hrow
    rw [hg, hh] at hbytes
    obtain ⟨found, hf, -, hfoundHash, rfl⟩ := row_of_mem_envelopesFor hbytes
    obtain ⟨seq', ts', hdecode, -⟩ := hserved _ (.push hbytes)
    obtain ⟨seq'', ts'', hactual⟩ :=
      decode_encodeRow hfree hholds.store he hf hfoundHash
    rw [hdecode] at hactual
    have hepoch : e.epoch = toU64 (asI64 e.epoch) :=
      congrArg Envelope.epoch (Except.ok.inj hactual)
    rw [toU64_asI64_of_le (not_lt.mp hlarge) he.fits.epoch] at hepoch
    rw [hepoch] at hlarge
    exact hlarge (by decide)
  · intro hsmall bytes hserved
    have hback := toU64_asI64_of_lt hsmall
    cases hserved with
    | @live seq now hseq hnow =>
      exact ⟨seq, now, Envelope.decode_encode { he.fits with seq := hseq, ts := hnow }, hverified⟩
    | @backfill row fromSeq maxRows maxBytes hrow hh =>
      obtain ⟨seq', ts', hdecode⟩ :=
        decode_encodeRow hfree hholds.store he (mem_of_mem_sinceRows hrow).1 hh
      rw [hback] at hdecode
      exact ⟨seq', ts', hdecode, hverified⟩
    | @push ids bytes hbytes =>
      obtain ⟨row, hrow, -, hh, rfl⟩ := row_of_mem_envelopesFor hbytes
      obtain ⟨seq', ts', hdecode⟩ := decode_encodeRow hfree hholds.store he hrow hh
      rw [hback] at hdecode
      exact ⟨seq', ts', hdecode, hverified⟩

end Paths

/-! ## An epoch on either side of the bound -/

section Sample

def epochEnvelope (epoch : Nat) : Envelope := { sampleEnvelope with epoch := epoch }

/-- A hash without collisions under which this envelope's address is its `hash`. -/
def addressing (e : Envelope) : Access.Crypto where
  blake3 := Equiv.swap (uint e.v ++ uint e.enc.toNat ++ bytes e.group ++
    uint e.epoch ++ bytes e.ct) e.hash
  verifyStrict := fun _ _ _ => false

theorem injective_addressing (e : Envelope) : Function.Injective (addressing e).blake3 :=
  (Equiv.swap _ _).injective

/-- One send of this envelope, to its end. -/
def epochLabels (epoch : Nat) : List (Caller × Action) :=
  (.first, .send (epochEnvelope epoch).encode 0) :: List.replicate 5 (.first, .turn)

def runEpoch (epoch : Nat) : Option (World Caller State Phase) :=
  (machine (addressing (epochEnvelope epoch)) sampleConfig).exec (fun _ _ _ _ => True)
    sampleStart (epochLabels epoch)

theorem run_of_runEpoch {epoch w'} (h : runEpoch epoch = some w') :
    Run (machine (addressing (epochEnvelope epoch)) sampleConfig).Step sampleStart
      (epochLabels epoch) w' :=
  Machine.run_of_exec h

theorem runEpoch_zero : (runEpoch 0).map (fun w => (w.phase .first, w.store.db.envelopes)) =
      some (.answered (epochEnvelope 0) (.stored 1), [rowOf (epochEnvelope 0) 1 0]) := by
  decide +kernel

theorem runEpoch_large :
    (runEpoch bigintBound).map (fun w => (w.phase .first, w.store.db.envelopes)) =
      some (.answered (epochEnvelope bigintBound) (.stored 1),
        [rowOf (epochEnvelope bigintBound) 1 0]) := by
  decide +kernel

/-- An envelope of epoch zero is served back as it was accepted. -/
theorem epoch_zero_verifies : ∃ w' : World Caller State Phase,
      w'.phase .first = .answered (epochEnvelope 0) (.stored 1) ∧
      ∀ bytes, Served w'.store.db (epochEnvelope 0) bytes →
        Verifies (addressing (epochEnvelope 0)) (epochEnvelope 0) bytes := by
  obtain ⟨w', hexec, hw'⟩ := Option.map_eq_some_iff.mp runEpoch_zero
  obtain ⟨hphase, hrows⟩ := Prod.mk.inj hw'
  have hstill : ¬ Absent w'.store.db (epochEnvelope 0).group (epochEnvelope 0).hash := by
    intro habsent
    exact habsent _ (hrows ▸ mem_singleton.mpr rfl) ⟨rfl, rfl⟩
  exact ⟨w', hphase,
    (served_verifies_iff (injective_addressing _) fresh_sampleStart (run_of_runEpoch hexec)
      hphase hstill).mpr (by decide)⟩

/-- An envelope of epoch `2 ^ 63` is stored, and pushed as one of epoch zero. -/
theorem epoch_large_pushed_as_zero : ∃ w' : World Caller State Phase, Fresh sampleStart ∧
      Run (machine (addressing (epochEnvelope bigintBound)) sampleConfig).Step sampleStart
        (epochLabels bigintBound) w' ∧
      w'.phase .first = .answered (epochEnvelope bigintBound) (.stored 1) ∧
      ∃ bytes, Served w'.store.db (epochEnvelope bigintBound) bytes ∧
        ¬ Verifies (addressing (epochEnvelope bigintBound)) (epochEnvelope bigintBound)
          bytes := by
  obtain ⟨w', hexec, hw'⟩ := Option.map_eq_some_iff.mp runEpoch_large
  obtain ⟨hphase, hrows⟩ := Prod.mk.inj hw'
  have hstored : rowOf (epochEnvelope bigintBound) 1 0 ∈ w'.store.db.envelopes :=
    hrows ▸ mem_singleton.mpr rfl
  obtain ⟨bytes, hbytes⟩ := envelopesFor_singleton hstored
  refine ⟨w', fresh_sampleStart, run_of_runEpoch hexec, hphase, bytes, .push hbytes, ?_⟩
  obtain ⟨row, hrow, -, -, rfl⟩ := row_of_mem_envelopesFor hbytes
  rw [hrows] at hrow
  obtain rfl := mem_singleton.mp hrow
  rintro ⟨seq, ts, hdecode, -⟩
  have hepoch : (Envelope.decode (encodeRow (rowOf (epochEnvelope bigintBound) 1 0))).map
      Envelope.epoch = .ok 0 := by
    decide +kernel
  rw [hdecode] at hepoch
  have hzero : bigintBound = 0 := Except.ok.inj hepoch
  exact absurd hzero (by decide)

end Sample

end WealdRelay.Log
