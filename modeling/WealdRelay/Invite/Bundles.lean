import WealdRelay.Invite.Redeem
import WealdRelay.Negentropy.Size

/-!
# The bundles of an invite

`refresh_bundle` in `invite/store.rs` on an invite that stays live: one statement writes a
bundle under its group and epoch, unless the issuer's own stands there, and another keeps the
newest refreshed bundles of the group. Nothing ties the two together.
-/

namespace WealdRelay.Invite.Bundles

open Lib Negentropy
open List hiding head

def maxBundleBytes : Nat := 256 * 1024

def retainedBundles : Nat := 3

/-- A row, and whether it came in the signed record. -/
structure Candidate extends BundleRow where
  issued : Bool
deriving DecidableEq

section Statements

variable (rows : List Candidate) (group : Bytes)

/-- The row of a bundle. -/
def candidate (token : Bytes) (now : Nat) (issued : Bool) (bundle : EncBundle) : Candidate :=
  ⟨⟨token, bundle.group, min bundle.epoch (2 ^ 63 - 1), bundle.ct, now⟩, issued⟩

/-- The primary key, within one invite. -/
def key (row : Candidate) : Nat × Bytes := (row.epoch, row.group)

/-- The insert of a refresh: an issued row stays as it is. -/
def write (row : Candidate) : List Candidate :=
  match Table.lookup key rows (key row) with
  | none => rows ++ [row]
  | some old => if old.issued then rows else Table.put key rows row

def refreshed (row : Candidate) : Bool := row.group = group && !row.issued

/-- What the prune orders by. -/
def stamp (row : BundleRow) : Nat × Nat := (row.uploadedAt, row.epoch)

/-- The stamps of the newest refreshed rows of a group. -/
def newest : List (Nat × Nat) :=
  ((((rows.filter (refreshed group)).map Candidate.toBundleRow).insertionSort
    newerBundle).take retainedBundles).map stamp

/-- The prune of a refresh. -/
def prune : List Candidate := rows.filter (fun row =>
  !refreshed group row || (newest rows group).contains (stamp row.toBundleRow))

end Statements

/-- A signed record that passed `check_shape`: one bundle for a scope. -/
structure Issue where
  token : Bytes
  issuedAt : Nat
  bundles : List EncBundle
  nodup : (bundles.map EncBundle.group).Nodup
  bounded : ∀ bundle ∈ bundles, bundle.group.length = 32 ∧ bundle.ct.length ≤ maxBundleBytes

def Issue.rows (issue : Issue) : List Candidate :=
  issue.bundles.map (candidate issue.token issue.issuedAt true)

/-- The rows of the invite, and the groups written to since their last prune. -/
structure State where
  rows : List Candidate
  unpruned : List Bytes

inductive Statement where
  | write (bundle : EncBundle) (now : Nat)
  | prune (group : Bytes)

def Issue.start (issue : Issue) : State := ⟨issue.rows, []⟩

/-- Any refreshes, interleaved in any way; one that dies leaves its prune out. -/
inductive Step (issue : Issue) : State → Statement → State → Prop
  | write {s} (bundle now) (hscope : bundle.group ∈ issue.bundles.map EncBundle.group)
      (hct : bundle.ct ≠ [] ∧ bundle.ct.length ≤ maxBundleBytes) :
      Step issue s (.write bundle now) ⟨write s.rows (candidate issue.token now false bundle),
        bundle.group :: s.unpruned⟩
  | prune {s} (group) :
      Step issue s (.prune group) ⟨prune s.rows group, s.unpruned.filter (· ≠ group)⟩

variable {issue : Issue} {rows : List Candidate} {row : Candidate} {g : Bytes}

/-! ## What the statements keep -/

/-- The insert leaves the issued rows, and what counts the refreshed rows of other groups. -/
theorem write_keeps (hnd : (rows.map key).Nodup) (hrow : row.issued = false) :
    (write rows row).filter (·.issued) = rows.filter (·.issued) ∧
      ((write rows row).map key).Nodup ∧ (∀ new ∈ write rows row, new = row ∨ new ∈ rows) ∧
        (row.group ≠ g → (write rows row).countP (refreshed g) = rows.countP (refreshed g)) := by
  rw [write]
  split
  next hnone =>
    refine ⟨by simp [hrow], Table.nodup_map_snoc hnd fun _ => Table.ne_of_lookup_eq_none hnone,
      by simp [or_comm], fun hne => ?_⟩
    simp [refreshed, hne]
  next old hfound =>
    split_ifs with hissued
    · exact ⟨rfl, hnd, fun _ => .inr, fun _ => rfl⟩
    · refine ⟨Table.filter_map_of_fixed fun x ho => ?_, ?_, fun _ => Table.mem_put, ?_⟩
      · split
        next hkey =>
          rw [Table.lookup_of_mem hnd ho hkey] at hfound
          cases hfound
          simp [hrow, hissued]
        · exact ⟨rfl, fun _ => rfl⟩
      · rwa [Table.map_key_put]
      · refine fun hne => Table.countP_modify_of_eq _ fun x _ hkey => ?_
        have hgroup : x.group = row.group := congrArg Prod.snd hkey
        simp [refreshed, hgroup, hne]

/-- The prune leaves as many refreshed rows of its group as are retained. -/
theorem countP_prune_le (hnd : (rows.map key).Nodup) :
    (prune rows g).countP (refreshed g) ≤ retainedBundles := by
  rw [countP_eq_length_filter]
  generalize hleft : (prune rows g).filter (refreshed g) = left
  have hmem : ∀ row ∈ left, row.group = g ∧ stamp row.toBundleRow ∈ newest rows g := by
    intro row hrow
    rw [← hleft, mem_filter, prune, mem_filter] at hrow
    obtain ⟨⟨-, hk⟩, hrefreshed⟩ := hrow
    rw [hrefreshed] at hk
    rw [refreshed, Bool.and_eq_true] at hrefreshed
    exact ⟨of_decide_eq_true hrefreshed.1, by simpa using hk⟩
  have hkeys : (left.map key).Nodup := by
    rw [← hleft]
    exact hnd.sublist ((filter_sublist.trans filter_sublist).map key)
  -- Within the group the epoch alone is the key.
  have hepochs : left.map key = left.map (fun row => (row.epoch, g)) :=
    map_congr_left fun row hrow => Prod.ext rfl (hmem row hrow).1
  have hstamps : (left.map (stamp ·.toBundleRow)).Nodup := by
    refine Nodup.of_map (fun st => (st.2, g)) ?_
    rw [map_map]
    exact hepochs ▸ hkeys
  have hsub : left.map (stamp ·.toBundleRow) ⊆ newest rows g := by
    rintro _ h
    obtain ⟨row, hrow, rfl⟩ := mem_map.mp h
    exact (hmem row hrow).2
  have hle := (hstamps.subperm hsub).length_le
  rw [length_map, newest, length_map] at hle
  exact hle.trans (length_take_le _ _)

/-- The issued rows are those of the record, and a group that is pruned has few others. -/
structure Sound (issue : Issue) (s : State) : Prop where
  issued : s.rows.filter (·.issued) = issue.rows
  bounded : ∀ row ∈ s.rows, row.group.length = 32 ∧ row.ct.length ≤ maxBundleBytes
  nodup : (s.rows.map key).Nodup
  few : ∀ g ∉ s.unpruned, s.rows.countP (refreshed g) ≤ retainedBundles

theorem Sound.step {s s' : State} {statement : Statement} (hs : Sound issue s)
    (hstep : Step issue s statement s') : Sound issue s' := by
  cases hstep with
  | write new now hscope hct =>
    obtain ⟨bundle, hbundle, hgroup⟩ := mem_map.mp hscope
    have hkeeps : ∀ g, _ := fun g =>
      write_keeps (g := g) hs.nodup (rfl : (candidate issue.token now false new).issued = false)
    obtain ⟨hissued, hnd, hmem, -⟩ := hkeeps []
    refine ⟨hissued.trans hs.issued, fun new hnew => ?_, hnd, fun g hg => ?_⟩
    · rcases hmem new hnew with rfl | hold
      · exact ⟨(congrArg length hgroup).symm.trans (issue.bounded bundle hbundle).1, hct.2⟩
      · exact hs.bounded new hold
    · rw [mem_cons, not_or] at hg
      rw [(hkeeps g).2.2.2 (Ne.symm hg.1)]
      exact hs.few g hg.2
  | prune group =>
    refine ⟨?_, fun row hrow => hs.bounded row (mem_of_mem_filter hrow),
      hs.nodup.sublist (filter_sublist.map key), fun g hg => ?_⟩
    · rw [← hs.issued, prune, filter_filter]
      refine filter_congr fun row _ => ?_
      cases h : row.issued <;> simp [refreshed, h]
    · rcases eq_or_ne g group with rfl | hne
      · exact countP_prune_le hs.nodup
      · refine (filter_sublist.countP_le).trans (hs.few g fun h => hg ?_)
        exact mem_filter.mpr ⟨h, decide_eq_true hne⟩

theorem Issue.sound (issue : Issue) : Sound issue issue.start := by
  rw [Issue.start]
  refine ⟨filter_eq_self.mpr ?_, ?_, ?_, fun g _ => ?_⟩
  · simp [Issue.rows, candidate]
  · rintro _ h
    obtain ⟨bundle, hbundle, rfl⟩ := mem_map.mp h
    exact issue.bounded bundle hbundle
  · refine Nodup.of_map Prod.snd ?_
    rw [map_map, Issue.rows, map_map]
    exact issue.nodup
  · have hnone : issue.rows.countP (refreshed g) = 0 := by
      simp [countP_eq_zero, Issue.rows, candidate, refreshed]
    exact hnone.le.trans (Nat.zero_le _)

/-- A group that is pruned has one row more than are retained at most. -/
theorem Sound.count_le {s : State} (hs : Sound issue s) (hg : g ∉ s.unpruned) :
    s.rows.countP (·.group = g) ≤ retainedBundles + 1 := by
  have hone : (s.rows.filter (·.issued)).countP (·.group = g) ≤ 1 := by
    rw [hs.issued, Issue.rows, countP_map]
    have hcount := nodup_iff_count_le_one.mp issue.nodup g
    rw [count, countP_map] at hcount
    exact (countP_congr fun _ _ => decide_eq_true_iff.trans beq_iff_eq.symm).trans_le hcount
  have hfew := hs.few g hg
  have hsplit := countP_eq_countP_filter_add s.rows (·.group = g) (·.issued)
  have hothers : (s.rows.filter (!·.issued)).countP (·.group = g) =
      s.rows.countP (refreshed g) := by
    rw [countP_filter]
    exact countP_congr fun row _ => by simp [refreshed]
  omega

/-! ## The frame -/

/-- The JOIN frame with bundles. -/
def frame (served : List EncBundle) : Bytes :=
  (Wire.Frame.join (Response.bundles served).encode).encode

theorem length_frame (served : List EncBundle) :
    (served.map (·.encode.length)).sum ≤ (frame served).length ∧
      (frame served).length ≤ 63 + (served.map (·.encode.length)).sum := by
  simp only [frame, Wire.Frame.encode, Wire.Frame.encodeBody, Response.encode, length_array,
    length_uint, length_bytes, map_cons, map_nil, sum_cons, sum_nil, map_map, length_map,
    length_cons, length_nil, Function.comp_def]
  grind [headWidth_le]

theorem length_bundle (bundle : EncBundle) (hgroup : bundle.group.length = 32) :
    bundle.ct.length ≤ bundle.encode.length ∧ bundle.encode.length ≤ 68 + bundle.ct.length := by
  simp only [EncBundle.encode, length_array, length_uint, length_bytes, map_cons, map_nil,
    sum_cons, sum_nil, length_cons, length_nil, hgroup]
  grind [headWidth_le]

/-- What is served are rows of the group. -/
theorem bundlesFor_cases {t : Tables} {token : Bytes} {now : Nat} {served : List EncBundle}
    (h : bundlesFor { t with bundles := rows.map Candidate.toBundleRow } token g now = served) :
    served.length ≤ rows.countP (·.group = g) ∧
      ∀ bundle ∈ served, ∃ row ∈ rows, bundle = ⟨row.group, row.epoch, row.ct⟩ := by
  rw [← h, bundlesFor]
  split
  · refine ⟨?_, fun bundle hbundle => ?_⟩
    · rw [length_map, length_insertionSort, filter_map, length_map, ← countP_eq_length_filter]
      exact countP_mono_left fun row _ hrow => by simp_all
    · simp only [mem_map, mem_insertionSort, mem_filter] at hbundle
      obtain ⟨_, ⟨⟨row, hrow, rfl⟩, -⟩, rfl⟩ := hbundle
      exact ⟨row, hrow, rfl⟩
  · exact ⟨Nat.zero_le _, fun _ h => absurd h not_mem_nil⟩

/-- Whatever refreshes there are, the issued bundles stay; and the frame that answers with the
bundles of a group can be sent unless one was written since the group was last pruned. -/
theorem bundles_deliverable
    (issue : Issue)
    {statements s}
    (hrun : Run (Step issue) issue.start statements s) :
    (∀ row ∈ issue.rows, row ∈ s.rows) ∧ ∀ group ∉ s.unpruned, ∀ (t : Tables) (now : Nat),
      (frame (bundlesFor { t with bundles := s.rows.map Candidate.toBundleRow } issue.token
        group now)).length ≤ Wire.maxFrameBytes := by
  have hs : Sound issue s := hrun.invariant (fun _ _ _ h hstep => h.step hstep) issue.sound
  refine ⟨fun row hrow => mem_of_mem_filter (hs.issued ▸ hrow), fun group hg t now => ?_⟩
  generalize h : bundlesFor _ issue.token group now = served
  obtain ⟨hn, hrows⟩ := bundlesFor_cases h
  have hbundle : ∀ len ∈ served.map (·.encode.length), len ≤ 68 + maxBundleBytes := by
    intro len hlen
    obtain ⟨bundle, hbundle, rfl⟩ := mem_map.mp hlen
    obtain ⟨row, hrow, rfl⟩ := hrows bundle hbundle
    obtain ⟨hg, hct⟩ := hs.bounded row hrow
    exact (length_bundle _ hg).2.trans (Nat.add_le_add_left hct _)
  have hsum := sum_le_card_nsmul _ _ hbundle
  have hfour : served.length ≤ 4 := hn.trans (hs.count_le hg)
  have hframe := (length_frame served).2
  rw [length_map, smul_eq_mul] at hsum
  have := Nat.mul_le_mul_right (68 + maxBundleBytes) hfour
  simp only [maxBundleBytes, Wire.maxFrameBytes] at *
  omega

/-- An invite for one group. -/
def sample (group ct : Bytes) (h : group.length = 32 ∧ ct.length ≤ maxBundleBytes) : Issue where
  token := id16 1
  issuedAt := 0
  bundles := [⟨group, 0, ct⟩]
  nodup := nodup_singleton _
  bounded := forall_mem_singleton.mpr h

/-- The tables beside the bundles. -/
def tables : Tables := ⟨[⟨id16 1, 2, 9, false, .live, 2⟩], [], [], [], [], [], []⟩

/-- A refresh that has written and pruned. -/
theorem bundles_deliverable_pruned : ∃ s : State, s.rows.length = 2 ∧
    (frame (bundlesFor { tables with bundles := s.rows.map Candidate.toBundleRow } (id16 1)
      (id32 0) 5)).length ≤ Wire.maxFrameBytes := by
  let issue := sample (id32 0) [5] (by decide)
  have hrun : Run (Step issue) issue.start _ _ := .cons (.write ⟨id32 0, 1, [6]⟩ 1
    mem_cons_self (by decide)) (.cons (.prune (id32 0)) (.nil _))
  exact ⟨_, by decide +kernel, (bundles_deliverable issue hrun).2 _ (by decide) _ _⟩

/-- Four refreshes of the largest size have written and none has pruned. -/
theorem bundles_undeliverable : ∃ (issue : Issue) (statements : List Statement) (s : State)
    (group : Bytes), Run (Step issue) issue.start statements s ∧
      Wire.maxFrameBytes < (frame (bundlesFor { tables with
        bundles := s.rows.map Candidate.toBundleRow } issue.token group 5)).length := by
  obtain ⟨ct, hct⟩ : ∃ ct : Bytes, ct.length = maxBundleBytes := ⟨replicate _ 0, length_replicate⟩
  obtain ⟨g, hg⟩ : ∃ g : Bytes, g.length = 32 := ⟨replicate _ 0, length_replicate⟩
  have hs : ∀ s epoch, Step (sample g ct ⟨hg, hct.le⟩) s _ _ := fun s epoch =>
    .write ⟨g, epoch, ct⟩ epoch mem_cons_self ⟨ne_nil_of_length_pos (hct ▸ by decide), hct.le⟩
  refine ⟨_, _, _, g, .cons (hs _ 1) (.cons (hs _ 2) (.cons (hs _ 3)
    (.cons (hs _ 4) (.nil _)))), lt_of_lt_of_le ?_ (length_frame _).1⟩
  have hle : ∀ epoch, 2 ^ 18 ≤ (⟨g, epoch, ct⟩ : EncBundle).encode.length := fun epoch =>
    hct.ge.trans (length_bundle ⟨g, epoch, ct⟩ hg).1
  have hsum : Wire.maxFrameBytes <
      ([4, 3, 2, 1, 0].map fun epoch => (⟨g, epoch, ct⟩ : EncBundle).encode.length).sum := by
    simp only [map_cons, map_nil, sum_cons, sum_nil, Wire.maxFrameBytes]
    grind
  simpa [sample, Issue.start, Issue.rows, candidate, write, Table.lookup, key, bundlesFor,
    inviteOf, tables, stillOpen, newerBundle] using hsum

end WealdRelay.Invite.Bundles
