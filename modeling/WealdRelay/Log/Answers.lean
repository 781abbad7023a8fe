import WealdRelay.Log.Accept

/-!
# What a send is told

Along every run of sends and compactions the tables stay `Consistent`: addresses and
numbers are unique in a group, numbers rise in the order of the commits, and a
workspace's counter is the sum of its ciphertexts and of what it held before, which
counts the handshakes. What a process relies on between
two of its statements is `Relies`; the locks protect all of it but one fact. A send
that found its address taken relies on the row until it has looked the number up, and
holds no lock on it. `Undisturbed` is the condition that no compaction commits its
removal in between.
-/

namespace WealdRelay.Log

open Lib List

/-- No stored envelope has this address. -/
def Absent (db : Db) (group hash : Bytes) : Prop :=
  ∀ row ∈ db.envelopes, ¬ (row.groupId = group ∧ row.hash = hash)

/-- The group's counter stands at the number this send has claimed. -/
def Claimed (db : Db) (e : Envelope) (seq : Nat) (workspace : Bytes) : Prop :=
  ∃ row, db.groups e.group = some row ∧ row.nextSeq = seq ∧ row.workspaceId = workspace

/-- The envelopes of one workspace. -/
def envelopesOf (db : Db) (workspace : Bytes) : List EnvelopeRow :=
  db.envelopes.filter (fun row => workspaceOf db row.groupId = some workspace)

/-- What the tables and the marks have in common after any number of commits, with the
bytes a workspace's counter holds for other things than envelopes. -/
structure Consistent (others : Bytes → Nat) (s : State) : Prop where
  hashes : s.db.envelopes.Pairwise (fun a b => ¬ (a.groupId = b.groupId ∧ a.hash = b.hash))
  seqs : s.db.envelopes.Pairwise (fun a b => a.groupId = b.groupId → a.seq < b.seq)
  marked : ∀ row ∈ s.db.envelopes, row.mark ∈ s.stored
  rising : s.stored.Pairwise (fun a b => a.group = b.group → a.seq < b.seq)
  below : ∀ mark ∈ s.stored, ∃ row, s.db.groups mark.group = some row ∧ mark.seq < row.nextSeq
  charged : ∀ workspace,
    s.db.used workspace = others workspace + ctBytes (envelopesOf s.db workspace)

/-- What a process relies on until its next statement. -/
def Relies (config : Config) (s : State) : Phase → Prop
  | .insert e _ seq workspace => Claimed s.db e seq workspace
  | .judge e _ seq workspace =>
    Claimed s.db e seq workspace ∧ Absent s.db e.group e.hash
  | .commit e _ seq workspace =>
    Claimed s.db e seq workspace ∧ Absent s.db e.group e.hash ∧
      overBudget (s.db.used workspace + e.ct.length) config.limitBytes = false
  | .lookAgain e _ => ∃ row ∈ s.db.envelopes, row.groupId = e.group ∧ row.hash = e.hash
  | .answered e accepted => ⟨e.group, e.hash, accepted.seq⟩ ∈ s.stored
  | .deleting d _ _ doomed => doomed.Nodup ∧ ∀ row ∈ doomed, row.groupId = d.group
  | .deleted d _ _ workspace gone =>
    gone.Nodup ∧ (∀ row ∈ gone, row ∈ s.db.envelopes ∧ row.groupId = d.group) ∧
      workspace = workspaceOf s.db d.group
  | _ => True

/-- Is this a compaction about to remove an envelope that this send is to look up? -/
def disturbs : Phase → Phase → Bool
  | .deleted _ _ _ _ gone, .lookAgain e _ =>
    gone.any (fun row => row.groupId = e.group ∧ row.hash = e.hash)
  | _, _ => false

/-- A compaction's commit does not remove an envelope that a send is about to look up. -/
def Undisturbed (_ : Action) (_ : State) (a b : Phase) : Prop := disturbs a b = false

instance undisturbedDecidable (i : Action) (s : State) (a b : Phase) :
    Decidable (Undisturbed i s a b) :=
  inferInstanceAs (Decidable (disturbs a b = false))

/-! ## The tables -/

section Tables

variable {db : Db} {g hash ws : Bytes} {row : EnvelopeRow}

@[simp] theorem workspaceOf_advance (db : Db) (g x : Bytes) :
    workspaceOf (advance db g) x = workspaceOf db x := by
  by_cases h : x = g
  · subst h
    simp [workspaceOf, advance, Function.comp_def]
  · simp [workspaceOf, advance, h]

@[simp] theorem workspaceOf_insert (db : Db) (ws : Bytes) (row : EnvelopeRow) :
    workspaceOf (insert db ws row) = workspaceOf db := rfl

@[simp] theorem workspaceOf_remove (db : Db) (ws : Option Bytes)
    (gone : List EnvelopeRow) : workspaceOf (remove db ws gone) = workspaceOf db := rfl

@[simp] theorem workspaceOf_record (db : Db) (anchors : List AnchorRow) :
    workspaceOf (record db anchors) = workspaceOf db := rfl

theorem ctBytes_append (rows more : List EnvelopeRow) :
    ctBytes (rows ++ more) = ctBytes rows + ctBytes more := by
  simp [ctBytes]

theorem ctBytes_perm {rows more} (h : rows.Perm more) : ctBytes rows = ctBytes more :=
  (h.map _).sum_nat

theorem ctBytes_partition (p : EnvelopeRow → Bool) (rows : List EnvelopeRow) :
    ctBytes rows = ctBytes (rows.filter p) + ctBytes (rows.filter (!p ·)) := by
  rw [← ctBytes_append]
  exact ctBytes_perm (filter_append_perm p rows).symm

variable {seq : Nat}

theorem mark_of_existingSeq (h : existingSeq db g hash = some seq) :
    ∃ row ∈ db.envelopes, row.mark = ⟨g, hash, seq⟩ := by
  obtain ⟨row, hfind, rfl⟩ := Option.map_eq_some_iff.mp h
  have hmatch := find?_some hfind
  simp only [decide_eq_true_eq] at hmatch
  exact ⟨row, mem_of_find?_eq_some hfind, by simp [EnvelopeRow.mark, hmatch.1, hmatch.2]⟩

theorem existingSeq_isSome (hrow : row ∈ db.envelopes) (hg : row.groupId = g)
    (hh : row.hash = hash) : ∃ seq, existingSeq db g hash = some seq := by
  cases hfind : db.envelopes.find? (fun row => row.groupId = g ∧ row.hash = hash) with
  | none =>
    have hnone := find?_eq_none.mp hfind row hrow
    simp [hg, hh] at hnone
  | some found => exact ⟨found.seq, congrArg (Option.map EnvelopeRow.seq) hfind⟩

theorem absent_of_not_conflicts (h : ¬ conflicts db g hash seq = true) : Absent db g hash := by
  rintro row hrow ⟨hg, hh⟩
  exact h (any_eq_true.mpr ⟨row, hrow, by simp [hg, hh]⟩)

end Tables

namespace Consistent

variable {others : Bytes → Nat} {s : State}

variable (h : Consistent others s)
include h

theorem nodup : s.db.envelopes.Nodup :=
  h.hashes.imp (fun hne heq => hne ⟨by rw [heq], by rw [heq]⟩)

/-- Every stored number of a group is below its counter. -/
theorem seq_lt {row} (hrow : row ∈ s.db.envelopes)
    {g} (hg : s.db.groups row.groupId = some g) : row.seq < g.nextSeq := by
  obtain ⟨found, hf, hlt⟩ := h.below _ (h.marked row hrow)
  have : found = g := Option.some.inj (hf.symm.trans hg)
  exact this ▸ hlt

variable {e : Envelope} {seq : Nat} {ws : Bytes}

/-- A conflict is on the address: the claimed number is new. -/
theorem conflict_address (hclaimed : Claimed s.db e seq ws)
    (hconf : conflicts s.db e.group e.hash seq = true) :
    ∃ row ∈ s.db.envelopes, row.groupId = e.group ∧ row.hash = e.hash := by
  obtain ⟨row, hrow, hmatch⟩ := any_eq_true.mp hconf
  obtain ⟨hg, hkey⟩ := of_decide_eq_true hmatch
  refine ⟨row, hrow, hg, ?_⟩
  rcases hkey with hh | hseq
  · exact hh
  · obtain ⟨g, hf, hnext, -⟩ := hclaimed
    have hlt := h.seq_lt hrow (hg ▸ hf)
    omega

theorem storeEnvelope {now} (hclaimed : Claimed s.db e seq ws) (habs : Absent s.db e.group e.hash) :
    Consistent others (Log.storeEnvelope s e now seq ws) := by
  obtain ⟨g, hg, hnext, hws⟩ := hclaimed
  have hold : ∀ mark ∈ s.stored, mark.group = e.group → mark.seq < seq := by
    intro mark hmark heq
    obtain ⟨found, hf, hlt⟩ := h.below mark hmark
    rw [heq, hg] at hf
    cases hf
    omega
  refine
    { hashes := ?_, seqs := ?_, marked := ?_, rising := ?_, below := ?_, charged := ?_ }
  · exact pairwise_snoc h.hashes habs
  · exact pairwise_snoc h.seqs fun row hrow => hold row.mark (h.marked row hrow)
  · intro row hrow
    rcases mem_snoc.mp hrow with hrow | rfl
    · exact mem_append_left _ (h.marked row hrow)
    · exact mem_append_right _ (mem_singleton.mpr rfl)
  · exact pairwise_snoc h.rising hold
  · intro mark hmark
    have hbumped : (Log.storeEnvelope s e now seq ws).db.groups e.group =
        some { g with nextSeq := g.nextSeq + 1 } := by
      simp [Log.storeEnvelope, insert, advance, hg]
    by_cases hsame : mark.group = e.group
    · refine ⟨_, hsame ▸ hbumped, ?_⟩
      rcases mem_snoc.mp hmark with hmark | rfl
      · have hlt := hold mark hmark hsame
        show mark.seq < g.nextSeq + 1
        omega
      · show seq < g.nextSeq + 1
        omega
    · rcases mem_append.mp hmark with hmark | hnew
      · obtain ⟨found, hf, hlt⟩ := h.below mark hmark
        exact ⟨found, by simpa [Log.storeEnvelope, insert, advance, hsame] using hf, hlt⟩
      · exact absurd (congrArg Mark.group (mem_singleton.mp hnew)) hsame
  · intro x
    have hown : workspaceOf s.db e.group = some ws := by
      simp [workspaceOf, hg, hws]
    have hfilter : envelopesOf (Log.storeEnvelope s e now seq ws).db x =
        envelopesOf s.db x ++ if ws = x then [rowOf e seq now] else [] := by
      simp only [envelopesOf, Log.storeEnvelope, workspaceOf_insert, workspaceOf_advance]
      simp [insert, advance, filter_append, filter_cons, rowOf, hown]
    rw [hfilter, ctBytes_append, ← Nat.add_assoc, ← h.charged x]
    by_cases hsame : ws = x
    · subst hsame
      simp [Log.storeEnvelope, insert, advance, rowOf, ctBytes]
    · simp [Log.storeEnvelope, insert, advance, hsame, Ne.symm hsame, ctBytes]

theorem dropEnvelopes {d gone} (hnd : gone.Nodup)
    (hgone : ∀ row ∈ gone, row ∈ s.db.envelopes ∧ row.groupId = d.group) :
    Consistent others (Log.dropEnvelopes s d (workspaceOf s.db d.group) gone) := by
  refine
    { hashes := h.hashes.filter _
      seqs := h.seqs.filter _
      marked := fun row hrow => h.marked row (mem_of_mem_filter hrow)
      rising := h.rising
      below := h.below
      charged := ?_ }
  intro ws
  -- What is left of the workspace's envelopes, and what of them is gone.
  have hleft : envelopesOf (Log.dropEnvelopes s d (workspaceOf s.db d.group) gone).db ws =
      (envelopesOf s.db ws).filter (fun row => !decide (row ∈ gone)) := by
    simp only [envelopesOf, Log.dropEnvelopes, workspaceOf_remove, workspaceOf_record]
    simp only [remove, record, filter_filter]
    refine filter_congr fun row _ => ?_
    by_cases hmem : row ∈ gone <;>
      by_cases hown : workspaceOf s.db row.groupId = some ws <;> simp [hmem, hown]
  have hcharged := h.charged ws
  have hsplit := ctBytes_partition (fun row => decide (row ∈ gone)) (envelopesOf s.db ws)
  rw [← hleft] at hsplit
  by_cases hown : workspaceOf s.db d.group = some ws
  · have hperm : ((envelopesOf s.db ws).filter (fun row => decide (row ∈ gone))).Perm gone := by
      refine (perm_ext_iff_of_nodup ((h.nodup.filter _).filter _) hnd).mpr ?_
      intro row
      simp only [mem_filter, decide_eq_true_eq]
      refine ⟨fun hrow => hrow.2, fun hrow => ⟨⟨(hgone row hrow).1, ?_⟩, hrow⟩⟩
      rw [(hgone row hrow).2, hown]
    rw [ctBytes_perm hperm] at hsplit
    have hused : (Log.dropEnvelopes s d (workspaceOf s.db d.group) gone).db.used ws =
        s.db.used ws - ctBytes gone := by
      simp [Log.dropEnvelopes, remove, record, hown]
    omega
  · have hnone : (envelopesOf s.db ws).filter (fun row => decide (row ∈ gone)) = [] := by
      refine filter_eq_nil_iff.mpr ?_
      intro row hrow hmem
      have hws := of_decide_eq_true (mem_filter.mp hrow).2
      exact hown ((hgone row (of_decide_eq_true hmem)).2 ▸ hws)
    have hused : (Log.dropEnvelopes s d (workspaceOf s.db d.group) gone).db.used ws =
        s.db.used ws := by
      cases ho : workspaceOf s.db d.group with
      | none => simp [Log.dropEnvelopes, remove, record]
      | some x =>
        have hne : ws ≠ x := fun heq => hown (heq ▸ ho)
        simp [Log.dropEnvelopes, remove, record, hne]
    rw [hnone] at hsplit
    have hempty : ctBytes [] = 0 := rfl
    omega

end Consistent

/-! ## The processes -/

section Processes

variable {c : Access.Crypto} {config : Config} {i : Action} {s s' : State} {a a' b : Phase}
  {others : Bytes → Nat}

/-- A process keeps the tables consistent and reaches what its next phase relies on. -/
theorem relies_act (hs : Consistent others s) (ha : Relies config s a)
    (h : act c config i s a = some (s', a')) : Consistent others s' ∧ Relies config s' a' := by
  cases turn_of_act h with
  | duplicate hf =>
    obtain ⟨row, hrow, hmark⟩ := mark_of_existingSeq hf
    have hstored := hs.marked row hrow
    rw [hmark] at hstored
    exact ⟨hs, hstored⟩
  | claim hrow => exact ⟨hs, _, hrow, rfl, rfl⟩
  | conflict hconf => exact ⟨hs, hs.conflict_address ha hconf⟩
  | insert hfree => exact ⟨hs, ha, absent_of_not_conflicts hfree⟩
  | judge hin => exact ⟨hs, ha.1, ha.2, hin⟩
  | commit => exact ⟨hs.storeEnvelope ha.1 ha.2.1, mem_append_right _ (mem_singleton.mpr rfl)⟩
  | commitLost => exact ⟨hs.storeEnvelope ha.1 ha.2.1, trivial⟩
  | lookAgain =>
    obtain ⟨row, hrow, hg, hh⟩ := ha
    obtain ⟨found, hf⟩ := existingSeq_isSome hrow hg hh
    obtain ⟨first, hfirst, hmark⟩ := mark_of_existingSeq hf
    refine ⟨hs, ?_⟩
    simp only [Relies, hf, Option.getD_some, Accepted.seq]
    exact hmark ▸ hs.marked first hfirst
  | delete =>
    refine ⟨hs, hs.nodup.filter _, ?_⟩
    intro row hrow
    have hdoomed := (mem_filter.mp hrow).2
    simp only [Bool.and_eq_true, Drop.below, decide_eq_true_eq] at hdoomed
    exact hdoomed.1.1
  | deleting =>
    refine ⟨hs, ha.1.filter _, ?_, rfl⟩
    intro row hrow
    obtain ⟨hdoomed, hthere⟩ := mem_filter.mp hrow
    exact ⟨of_decide_eq_true hthere, ha.2 row hdoomed⟩
  | deleted | deletedLost =>
    obtain ⟨hnd, hgone, rfl⟩ := ha
    exact ⟨hs.dropEnvelopes hnd hgone, trivial⟩
  | _ => exact ⟨hs, trivial⟩

variable {e : Envelope} {seq : Nat} {ws : Bytes}

/-- A number that was claimed stays claimed while another group's counter moves. -/
theorem claimed_advance {db g} (h : Claimed db e seq ws)
    (hne : e.group ≠ g) : Claimed (advance db g) e seq ws := by
  obtain ⟨row, hrow, hr⟩ := h
  exact ⟨row, by simpa [advance, hne] using hrow, hr⟩

/-- The commit of a send disturbs nobody: the rows it wrote were its own. -/
theorem relies_storeEnvelope {now} (hb : Relies config s b)
    (hlocks : ∀ row ∈ (Phase.commit e now seq ws).locks, row ∉ b.locks) :
    Relies config (storeEnvelope s e now seq ws) b := by
  have hne : ∀ g, .group g ∈ b.locks → g ≠ e.group := by
    rintro _ hmem rfl
    exact hlocks _ (by simp) hmem
  have hbudget : .budget ws ∉ b.locks := hlocks _ (by simp)
  have hrows : ∀ x : Envelope, x.group ≠ e.group → Absent s.db x.group x.hash →
      Absent (storeEnvelope s e now seq ws).db x.group x.hash := by
    intro x hne habs row hrow
    rcases mem_snoc.mp hrow with hrow | rfl
    · exact habs row hrow
    · exact fun heq => hne heq.1.symm
  cases b with
  | insert => exact claimed_advance hb (hne _ (by simp))
  | judge x _ _ _ =>
    have hne := hne x.group (by simp)
    exact ⟨claimed_advance hb.1 hne, hrows x hne hb.2⟩
  | commit x _ _ ours =>
    have hne := hne x.group (by simp)
    have hours : ours ≠ ws := by
      rintro rfl
      simp at hbudget
    refine ⟨claimed_advance hb.1 hne, hrows x hne hb.2.1, ?_⟩
    simpa [storeEnvelope, insert, advance, hours] using hb.2.2
  | lookAgain x _ =>
    obtain ⟨row, hrow, hr⟩ := hb
    exact ⟨row, mem_append_left _ hrow, hr⟩
  | answered x _ => exact mem_append_left _ hb
  | deleting => exact hb
  | deleted d below bytes ours gone =>
    obtain ⟨hnd, hgone, rfl⟩ := hb
    refine ⟨hnd, fun row hrow => ?_, ?_⟩
    · exact ⟨mem_append_left _ (hgone row hrow).1, (hgone row hrow).2⟩
    · simp [storeEnvelope]
  | idle | lookup | claim | refused | checkpoint | count | measure | delete | dropped
  | dropFailed => trivial

/-- The commit of a compaction disturbs nobody but a send that is about to look up an
address it removes. -/
theorem relies_dropEnvelopes {d below bytes gone ws} (hb : Relies config s b)
    (hlocks : ∀ row ∈ (Phase.deleted d below bytes ws gone).locks, row ∉ b.locks)
    (hall : Undisturbed i s (.deleted d below bytes ws gone) b) :
    Relies config (dropEnvelopes s d ws gone) b := by
  have habs : ∀ {g hash : Bytes}, Absent s.db g hash →
      Absent (dropEnvelopes s d ws gone).db g hash :=
    fun h row hrow => h row (mem_of_mem_filter hrow)
  have hk : ∀ {row : EnvelopeRow}, row ∈ s.db.envelopes → row ∉ gone →
      row ∈ (dropEnvelopes s d ws gone).db.envelopes :=
    fun hrow hgone => mem_filter.mpr ⟨hrow, decide_eq_true hgone⟩
  cases b with
  | insert | answered | deleting => exact hb
  | judge => exact ⟨hb.1, habs hb.2⟩
  | commit x _ _ ours =>
    refine ⟨hb.1, habs hb.2.1, ?_⟩
    -- The counter is credited only if envelopes go, and then its row is held.
    have hused : (dropEnvelopes s d ws gone).db.used ours = s.db.used ours := by
      cases ws with
      | none => rfl
      | some theirs =>
        by_cases hempty : gone = []
        · subst hempty
          by_cases heq : ours = theirs
          · simp [dropEnvelopes, remove, record, heq, ctBytes]
          · simp [dropEnvelopes, remove, record, heq]
        · have hne : ours ≠ theirs := by
            rintro rfl
            refine hlocks (.budget ours) ?_ (by simp)
            simp [removalRows, hempty]
          simp [dropEnvelopes, remove, record, hne]
    rw [hused]
    exact hb.2.2
  | lookAgain x _ =>
    obtain ⟨row, hrow, heq⟩ := hb
    refine ⟨row, hk hrow ?_, heq⟩
    intro hgone
    have hnone := any_eq_false.mp hall row hgone
    simp [heq.1, heq.2] at hnone
  | deleted x _ _ ours theirs =>
    obtain ⟨hnd, htheirs, hws⟩ := hb
    refine ⟨hnd, fun row hrow => ⟨hk (htheirs row hrow).1 ?_, (htheirs row hrow).2⟩, hws⟩
    intro hgone
    refine hlocks (.envelope row.groupId row.hash) ?_ ?_
    · exact mem_cons_of_mem _ (mem_append_left _ (mem_map.mpr ⟨row, hgone, rfl⟩))
    · exact mem_cons_of_mem _ (mem_append_left _ (mem_map.mpr ⟨row, hrow, rfl⟩))
  | idle | lookup | claim | refused | checkpoint | count | measure | delete | dropped
  | dropFailed => trivial

end Processes

/-! ## Runs -/

section Runs

variable {π : Type} [DecidableEq π] {c : Access.Crypto} {config : Config}
  {w w' : World π State Phase} {labels : List (π × Action)} {others : Bytes → Nat}

/-- No process has started and no envelope was ever stored; the counters may already hold
handshakes. -/
structure Fresh (w : World π State Phase) : Prop where
  idle : ∀ p, w.phase p = .idle
  envelopes : w.store.db.envelopes = []
  stored : w.store.stored = []

/-- The invariant of sends and compactions. -/
def Sound (c : Access.Crypto) (config : Config) (others : Bytes → Nat)
    (w : World π State Phase) : Prop :=
  (machine c config).Holds (Consistent others) (Relies config) (fun _ _ => True) w

omit [DecidableEq π] in
theorem Fresh.sound (h : Fresh w) : Sound c config w.store.db.used w :=
  Machine.Holds.of_idle h.idle rfl
    { hashes := by simp [h.envelopes]
      seqs := by simp [h.envelopes]
      marked := by simp [h.envelopes]
      rising := by simp [h.stored]
      below := by simp [h.stored]
      charged := fun ws => by simp [envelopesOf, h.envelopes, ctBytes] }
    trivial trivial

theorem Sound.run (h : Sound c config others w)
    (hrun : Run ((machine c config).StepUnder Undisturbed) w labels w') :
    Sound c config others w' := by
  refine Machine.Holds.run (fun _ _ _ => trivial) (fun hs ha hact => relies_act hs ha hact)
    ?_ h hrun
  intro i s a s' a' b hbeside hact
  refine ⟨?_, trivial⟩
  obtain ⟨rfl, -⟩ | ⟨e, now, seq, ws, rfl, rfl, -⟩ | ⟨d, below, bytes, ws, gone, rfl, rfl, -⟩ :=
    act_cases hact
  · exact hbeside.other
  · exact relies_storeEnvelope hbeside.other hbeside.held
  · exact relies_dropEnvelopes hbeside.other hbeside.held hbeside.allowed

/-- What the log promises about the envelopes it holds and the answers it gave. -/
structure Truthful (others : Bytes → Nat) (w : World π State Phase) : Prop where
  hashes : w.store.db.envelopes.Pairwise (fun a b => ¬ (a.groupId = b.groupId ∧ a.hash = b.hash))
  seqs : w.store.db.envelopes.Pairwise (fun a b => ¬ (a.groupId = b.groupId ∧ a.seq = b.seq))
  rising : w.store.stored.Pairwise (fun a b => a.group = b.group → a.seq < b.seq)
  charged : ∀ workspace,
    w.store.db.used workspace = others workspace + ctBytes (envelopesOf w.store.db workspace)
  answers : ∀ p e accepted, w.phase p = .answered e accepted →
    ⟨e.group, e.hash, accepted.seq⟩ ∈ w.store.stored

omit [DecidableEq π] in
theorem Sound.truthful (h : Sound c config others w) : Truthful others w where
  hashes := h.store.hashes
  seqs := h.store.seqs.imp (fun hlt heq => absurd (hlt heq.1) (by omega))
  rising := h.store.rising
  charged := h.store.charged
  answers := fun p e accepted hp => by
    have hrel := h.phase p
    rw [hp] at hrel
    exact hrel

variable {x y : World π State Phase} {p : π} {i : Action}

/-- A process that changed the log was not refused, then or later, unless its commit was
lost. -/
theorem store_eq_of_refused {error} (hs : (machine c config).Step x (p, i) y)
    (hrun : Run (machine c config).Step y labels w') (hp : w'.phase p = .refused error) :
    y.store = x.store ∨ i = .lose ∧ error = .backpressure := by
  obtain ⟨s', a', hact, -, rfl⟩ := hs
  have hstays : (∀ i s, act c config i s a' = none) → a' = .refused error := by
    intro hend
    have hlast := Machine.phase_of_ended (m := machine c config) (p := p)
      (fun i s => by rw [World.move_phase_self]; exact hend i s) hrun
    rwa [hp, World.move_phase_self, eq_comm] at hlast
  obtain ⟨rfl, -⟩ | ⟨e, now, seq, ws, -, -, rfl | ⟨rfl, rfl⟩⟩ |
    ⟨d, below, bytes, ws, gone, -, -, ⟨out, rfl⟩ | rfl⟩ := act_cases hact
  · exact .inl rfl
  · cases hstays fun i s => (act_ended i s).1 e (.stored seq)
  · cases hstays fun i s => (act_ended i s).2.1 .backpressure
    exact .inr ⟨rfl, rfl⟩
  · cases hstays fun i s => (act_ended i s).2.2.1 out
  · cases hstays fun i s => (act_ended i s).2.2.2

theorem Sound.used_le (h : Sound c config others x) (hs : (machine c config).Step x (p, i) y)
    {e seq lim ws} (hp : y.phase p = .answered e (.stored seq))
    (hown : workspaceOf y.store.db e.group = some ws)
    (hlimit : config.limitBytes = some lim) : y.store.db.used ws ≤ lim := by
  obtain ⟨s', a', hact, -, rfl⟩ := hs
  rw [World.move_phase_self] at hp
  subst hp
  have hrel := h.phase p
  obtain ⟨-, hnot⟩ | ⟨e', now, seq', workspace', hphase, rfl, heq | ⟨-, heq⟩⟩ |
    ⟨d, below, bytes, workspace', gone, -, -, ⟨out, heq⟩ | heq⟩ := act_cases hact
  · exact absurd rfl (hnot e seq)
  · obtain ⟨rfl, hseq⟩ := by simpa using heq
    have hphase : x.phase p = .commit e now seq' workspace' := hphase
    rw [hphase] at hrel
    obtain ⟨⟨row, hrow, -, hws⟩, -, hbudget⟩ := hrel
    have hours : workspaceOf x.store.db e.group = some ws := by
      simpa [storeEnvelope] using hown
    obtain rfl : workspace' = ws := by
      simpa [workspaceOf, hrow, hws] using hours
    have hin : x.store.db.used workspace' + e.ct.length ≤ lim := by
      simpa [hlimit, overBudget] using hbudget
    simpa [storeEnvelope, insert, advance, rowOf] using hin
  all_goals cases heq

/-- Every run in which no compaction commits the removal of an envelope between a
send's conflict on it and that send's lookup: addresses and numbers are unique, numbers
rise in commit order, every answer names a number its address was stored at, a refused
send changed nothing unless the answer of its commit was lost, and no stored envelope takes
its workspace over the limit. -/
theorem sends_answered_truly
    (hfresh : Fresh w)
    (hrun : Run ((machine c config).StepUnder Undisturbed) w labels w') :
    Truthful w.store.db.used w' ∧ ∀ before p i after x y, labels = before ++ (p, i) :: after →
        Run ((machine c config).StepUnder Undisturbed) w before x →
        (machine c config).Step x (p, i) y →
        Run ((machine c config).StepUnder Undisturbed) y after w' →
        (∀ error, w'.phase p = .refused error →
          y.store = x.store ∨ i = .lose ∧ error = .backpressure) ∧
          ∀ e seq workspace limit, y.phase p = .answered e (.stored seq) →
            workspaceOf y.store.db e.group = some workspace →
            config.limitBytes = some limit →
            y.store.db.used workspace ≤ limit := by
  have hsound : Sound c config w.store.db.used w := hfresh.sound
  refine ⟨(hsound.run hrun).truthful, ?_⟩
  intro before p i after x y _ hb hs ha
  refine ⟨fun error hp => store_eq_of_refused hs (Machine.run_of_under ha) hp, ?_⟩
  intro e seq workspace limit hp hown hlimit
  exact (hsound.run hb).used_le hs hp hown hlimit

end Runs

/-! ## An answer that was never true -/

section Sample

/-- Every content has the same address. -/
def sampleCrypto : Access.Crypto where
  blake3 := fun _ => List.replicate envelopeHashBytes 7
  verifyStrict := fun _ _ _ => false

def sampleConfig : Config := ⟨false, .none, some 10⟩

def sampleGroup : Bytes := id32 1

def sampleEnvelope : Envelope where
  v := 1
  enc := .mls
  group := sampleGroup
  epoch := 0
  seq := 0
  ts := 0
  hash := List.replicate envelopeHashBytes 7
  ct := [5]

/-- One group, no envelopes, and three bytes of handshakes. -/
def sampleStart : World Caller State Phase where
  store :=
    { db :=
        { groups := fun group => if group = sampleGroup then some ⟨id32 9, 1, false⟩ else none
          envelopes := []
          used := fun _ => 3
          anchors := [] }
      stored := [] }
  phase := fun _ => .idle

/-- Two sends of one envelope, and a compaction that takes it away between the second
one's conflict and its lookup. -/
def sampleLabels : List (Caller × Action) :=
  [(.second, .send sampleEnvelope.encode 0), (.second, .turn),
    (.first, .send sampleEnvelope.encode 0), (.first, .turn), (.first, .turn), (.first, .turn),
    (.first, .turn), (.first, .turn), (.second, .turn), (.second, .turn),
    (.third, .drop ⟨sampleGroup, [], 2, []⟩), (.third, .turn), (.third, .turn), (.third, .turn),
    (.third, .turn), (.third, .turn), (.third, .turn), (.second, .turn)]

theorem fresh_sampleStart : Fresh sampleStart :=
  ⟨fun _ => rfl, rfl, rfl⟩

theorem exec_sampleLabels :
    ((machine sampleCrypto sampleConfig).exec (fun _ _ _ _ => True) sampleStart
        sampleLabels).map (fun w => (w.phase .second, w.store.stored)) =
      some (.answered sampleEnvelope (.duplicate 2), [⟨sampleGroup, sampleEnvelope.hash, 1⟩]) := by
  decide +kernel

/-- The second send is told the number it had claimed and given back. -/
theorem duplicate_never_stored : ∃ w', Fresh sampleStart ∧
      Run (machine sampleCrypto sampleConfig).Step sampleStart sampleLabels w' ∧
      ¬ Truthful sampleStart.store.db.used w' := by
  obtain ⟨w', hexec, hw'⟩ := Option.map_eq_some_iff.mp exec_sampleLabels
  obtain ⟨hphase, hstored⟩ := Prod.mk.inj hw'
  refine ⟨w', fresh_sampleStart, Machine.run_of_exec hexec, ?_⟩
  intro htrue
  have hmark := htrue.answers .second sampleEnvelope (.duplicate 2) hphase
  rw [hstored] at hmark
  exact absurd hmark (by decide)

theorem exec_sampleSends : (((machine sampleCrypto sampleConfig).exec Undisturbed sampleStart
        (sampleLabels.take 10 ++ [(.second, .turn)])).map (fun w =>
    (w.phase .first, w.phase .second))) =
      some (.answered sampleEnvelope (.stored 1), .answered sampleEnvelope (.duplicate 1)) := by
  decide +kernel

/-- The same two sends without the compaction are both told number one. -/
theorem sampleSends_truthful :
    ∃ w' : World Caller State Phase, w'.phase .first = .answered sampleEnvelope (.stored 1) ∧
      w'.phase .second = .answered sampleEnvelope (.duplicate 1) ∧
      Truthful sampleStart.store.db.used w' := by
  obtain ⟨w', hexec, hw'⟩ := Option.map_eq_some_iff.mp exec_sampleSends
  obtain ⟨hfirst, hsecond⟩ := Prod.mk.inj hw'
  exact ⟨w', hfirst, hsecond, (sends_answered_truly fresh_sampleStart (Machine.exec_run hexec)).1⟩

end Sample

end WealdRelay.Log
