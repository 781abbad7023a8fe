import WealdRelay.Negentropy.Exchange

/-!
# Progress of an exchange

A round either moves an id, or every span that is not settled outweighs itself in the
client's next message: it comes back settled, divided, or with the ids named where it had
a fingerprint. A fingerprint weighs least and a settled span most, and a message has at
most `maxRanges` spans, so rounds without a transfer cannot go on.

There is one exception. A message that has `maxRanges` ranges leaves no span a budget to
divide, and where both sides hold more than `maxIdsPerRange` items neither names them:
the fingerprints are exchanged again (`Stuck`, `weight_lt_or_stuck`).
-/

namespace WealdRelay.Negentropy

open Lib List

/-- A span on which the sides differ, and that a full message can neither divide nor
name. -/
structure Stuck {F : Type} (sides : Sides) (lo : Nat) (range : Range F) : Prop where
  fingerprinted : ∃ value, range.mode = .fingerprint value
  relay : maxIdsPerRange < (itemsIn sides.relay lo range.upper).length
  client : maxIdsPerRange < (itemsIn sides.client lo range.upper).length
  differ : ¬ Agree sides.client sides.relay lo range.upper

/-- The exchange cannot go on: its message is full, and a span of it is stuck. -/
def Wedged {F : Type} (sides : Sides) (message : Message F) : Prop :=
  maxRanges ≤ message.ranges.length ∧
    ∃ lower range, (lower, range) ∈ message.spans ∧ Stuck sides lower range

/-- How near to settled a range is. -/
def weight {F : Type} (range : Range F) : Nat :=
  match range.mode with
  | .fingerprint _ => 2
  | .idList _ => 3
  | .skip => 4

section Weights

variable {F : Type} {r : Range F}

theorem two_le_weight (r : Range F) : 2 ≤ weight r := by
  cases hm : r.mode <;> simp [weight, hm]

theorem weight_le_four (r : Range F) : weight r ≤ 4 := by
  cases hm : r.mode <;> simp [weight, hm]

theorem weight_le_three (h : r.mode ≠ .skip) : weight r ≤ 3 := by
  cases hm : r.mode with
  | skip => exact absurd hm h
  | fingerprint | idList => simp [weight, hm]

variable (rs : List (Range F))

theorem two_mul_length_le_sum : 2 * rs.length ≤ (rs.map weight).sum := by
  induction rs with
  | nil => simp
  | cons r rest ih =>
    have hrange := two_le_weight r
    simp only [length_cons, map_cons, sum_cons]
    omega

theorem sum_le_four_mul_length : (rs.map weight).sum ≤ 4 * rs.length := by
  induction rs with
  | nil => simp
  | cons r rest ih =>
    have hrange := weight_le_four r
    simp only [length_cons, map_cons, sum_cons]
    omega

end Weights

section Spans

variable {F : Type} {fp : List Item → F} {s : Sides} {lo : Nat} {r : Range F}

/-- A side that holds every id of some items holds as many items. -/
theorem length_le_of_ids {few many : List Item} (hids : (few.map (·.id)).Nodup)
    (h : ∀ item ∈ few, item.id ∈ idsOf many) : few.length ≤ many.length := by
  have hsub : few.map (·.id) ⊆ many.map (·.id) := by
    intro id hid
    obtain ⟨item, hi, rfl⟩ := mem_map.mp hid
    exact mem_map.mpr (mem_idsOf.mp (h item hi))
  simpa using (subperm_of_subset hids hsub).length_le

/-- A list that names every id of the holder's there leaves nothing unnamed. -/
theorem mem_of_unnamed_eq_nil {holder theirs}
    (hm : r.mode = .idList theirs) (h : unnamed holder lo r = []) {id}
    (hid : id ∈ idsOf (itemsIn holder lo r.upper)) : id ∈ theirs := by
  by_contra hnot
  have hin : id ∈ unnamed holder lo r := by
    simp only [unnamed, hm, mem_filter, decide_eq_true_eq]
    exact ⟨hid, hnot⟩
  rw [h] at hin
  cases hin

variable [DecidableEq F] {full : Prop} {budget : Nat}

/-- The client's answer to ids of the relay's, when it has nothing to send: it names its
own, unless both have the same. -/
theorem three_le_of_named (hheld : WellHeld s.relay s.client)
    (hm : r.mode = .idList (idsOf (itemsIn s.relay lo r.upper)))
    (hfew : (itemsIn s.relay lo r.upper).length ≤ idlistLimit ∨
      full ∧ (itemsIn s.relay lo r.upper).length ≤ maxIdsPerRange)
    (hbudget : full → budget = 1) (hsend : unnamed s.client lo r = []) :
    3 ≤ ((advanceSpan fp s.client budget lo r).1.map weight).sum := by
  by_cases hset : ClientSettles fp s.client lo r
  · rw [advanceSpan_settled hset budget]
    simp [weight]
  · have hfewer : (itemsIn s.client lo r.upper).length ≤ (itemsIn s.relay lo r.upper).length := by
      refine length_le_of_ids (hheld.clientIds.sublist ((itemsIn_sublist _ _ _).map _)) ?_
      intro item hi
      exact mem_of_unnamed_eq_nil hm hsend (mem_idsOf.mpr ⟨item, hi, rfl⟩)
    rw [advanceSpan_narrows hset budget, narrow]
    split_ifs with hlimit
    · simp [weight]
    · rcases hfew with hfew | ⟨hfull, hfew⟩
      · exact absurd (le_trans hfewer hfew) hlimit
      · rw [splitBounded_of_le_one _ _ _ (le_of_eq (hbudget hfull)), if_pos (le_trans hfewer hfew)]
        simp [weight]

/-- The client's answer to a fingerprint it cannot divide: it settles the span, names its
ids, or repeats its own fingerprint over too many items to name. -/
theorem answer_of_fingerprint (fp : List Item → F) (s : Sides) (lo : Nat)
    (r : Range F) {v} (hm : r.mode = .fingerprint v) :
    4 ≤ ((advanceSpan fp s.client 1 lo r).1.map weight).sum ∨
      3 ≤ ((advanceSpan fp s.client 1 lo r).1.map weight).sum ∧
        (itemsIn s.client lo r.upper).length ≤ maxIdsPerRange ∨
      fp (itemsIn s.client lo r.upper) ≠ v ∧ maxIdsPerRange < (itemsIn s.client lo r.upper).length ∧
        (advanceSpan fp s.client 1 lo r).1 =
          [⟨r.upper, .fingerprint (fp (itemsIn s.client lo r.upper))⟩] := by
  by_cases hset : ClientSettles fp s.client lo r
  · rw [advanceSpan_settled hset 1]
    exact .inl (by simp [weight])
  · refine .inr ?_
    have hdiffer : fp (itemsIn s.client lo r.upper) ≠ v := by
      simpa only [ClientSettles, hm] using hset
    rw [advanceSpan_narrows hset 1, narrow]
    split_ifs with hlimit
    · exact .inl ⟨by simp [weight], le_trans hlimit (by decide)⟩
    · rw [splitBounded_of_le_one _ _ _ (le_refl 1)]
      split_ifs with hids
      · exact .inl ⟨by simp [weight], hids⟩
      · exact .inr ⟨hdiffer, not_le.mp hids, rfl⟩

/-- The relay's pass over a span of the client's message in a round without transfers. -/
def QuietRespond (fingerprint : List Item → F) (sides : Sides) (full : Prop) (lo : Nat)
    (range : Range F) (part : List (Range F)) : Prop :=
  lo < range.upper ∧ Says fingerprint sides.client sides.relay lo range ∧
    unnamed sides.relay lo range = [] ∧
    ∃ budget, 1 ≤ budget ∧ (budget = 1 → full) ∧
      part = (respondSpan fingerprint sides.relay budget lo range).1

/-- The client's pass over a span of the relay's answer. -/
def QuietAdvance (fingerprint : List Item → F) (sides : Sides) (full : Prop) (lo : Nat)
    (range : Range F) (out : List (Range F)) : Prop :=
  lo < range.upper ∧ unnamed sides.client lo range = [] ∧
    ∃ budget, (full → budget = 1) ∧ out = (advanceSpan fingerprint sides.client budget lo range).1

/-- The two passes over a span of the client's message. -/
def QuietRound (fingerprint : List Item → F) (sides : Sides) (full : Prop) (lo : Nat)
    (range : Range F) (result : List (Range F)) : Prop :=
  ∃ part, QuietRespond fingerprint sides full lo range part ∧
    Refines Range.upper (QuietAdvance fingerprint sides full) lo part result

theorem QuietAdvance.ne_nil {out} (h : QuietAdvance fp s full lo r out) : out ≠ [] := by
  obtain ⟨-, -, budget, -, rfl⟩ := h
  exact (narrows_advanceSpan fp s.client).ne_nil budget lo r

variable {result : List (Range F)}

variable (hheld : WellHeld s.relay s.client)
include hheld

/-- Where the relay named its ids and the client has none to send, the span had a
fingerprint, and it comes back named or settled. -/
theorem weight_lt_of_named (htold : Says fp s.client s.relay lo r)
    (hset : ¬ RelaySettles fp s.relay lo r)
    (hfew : (itemsIn s.relay lo r.upper).length ≤ idlistLimit ∨
      full ∧ (itemsIn s.relay lo r.upper).length ≤ maxIdsPerRange)
    (hresult : QuietAdvance fp s full lo
      ⟨r.upper, .idList (idsOf (itemsIn s.relay lo r.upper))⟩ result) :
    weight r < (result.map weight).sum := by
  obtain ⟨-, hsend, budget, hbudget, hout⟩ := hresult
  rw [hout]
  have hthree : 3 ≤ ((advanceSpan fp s.client budget lo
      ⟨r.upper, .idList (idsOf (itemsIn s.relay lo r.upper))⟩).1.map weight).sum :=
    three_le_of_named hheld rfl hfew hbudget hsend
  cases hm : r.mode with
  | skip => simp [RelaySettles, hm] at hset
  | fingerprint v =>
    have htwo : weight r = 2 := by simp [weight, hm]
    omega
  | idList theirs =>
    refine absurd ?_ hset
    simp only [RelaySettles, hm]
    intro id hid
    rw [(says_idList hm).mp htold] at hid
    exact mem_of_unnamed_eq_nil rfl hsend hid

/-- Where the relay repeats a fingerprint over too many items to name, the span is stuck
or comes back nearer to settled. -/
theorem weight_lt_or_stuck_of_fingerprint
    (htold : Says fp s.client s.relay lo r) (hm : r.mode ≠ .skip)
    (hpush : unnamed s.relay lo r = []) (hfull : full)
    (hmany : maxIdsPerRange < (itemsIn s.relay lo r.upper).length)
    (hresult : QuietAdvance fp s full lo
      ⟨r.upper, .fingerprint (fp (itemsIn s.relay lo r.upper))⟩ result) :
    weight r < (result.map weight).sum ∨ ∃ v, result = [⟨r.upper, .fingerprint v⟩] ∧
        Stuck s lo (⟨r.upper, .fingerprint v⟩ : Range F) := by
  obtain ⟨-, -, budget, hbudget, rfl⟩ := hresult
  have hthree := weight_le_three hm
  rw [hbudget hfull]
  rcases answer_of_fingerprint fp s lo
    ⟨r.upper, .fingerprint (fp (itemsIn s.relay lo r.upper))⟩ rfl with
    hfour | ⟨hnamed, hfew⟩ | ⟨hdiffer, hclient, hrepeat⟩
  · exact .inl (by omega)
  · refine .inl ?_
    -- Had the client named its ids before, it would hold all of the relay's.
    cases hkind : r.mode with
    | skip => exact absurd hkind hm
    | fingerprint v =>
      have htwo : weight r = 2 := by simp [weight, hkind]
      omega
    | idList theirs =>
      have hmore : (itemsIn s.relay lo r.upper).length ≤ (itemsIn s.client lo r.upper).length := by
        refine length_le_of_ids (hheld.relayIds.sublist ((itemsIn_sublist _ _ _).map _)) ?_
        intro item hi
        rw [← (says_idList hkind).mp htold]
        exact mem_of_unnamed_eq_nil hkind hpush (mem_idsOf.mpr ⟨item, hi, rfl⟩)
      simp only at hfew
      omega
  · refine .inr ⟨_, hrepeat, ⟨_, rfl⟩, hmany, hclient, ?_⟩
    intro hagree
    refine hdiffer (congrArg fp ?_)
    exact (itemsIn_eq_of_agree hheld.ascending hheld.sorted (.of_map _ hheld.clientIds)
      hagree.symm).symm

omit hheld in
theorem four_le_of_settled (hset : RelaySettles fp s.relay lo r)
    (hresult : Refines Range.upper (QuietAdvance fp s full) lo
      (respondSpan fp s.relay budget lo r).1 result) : 4 ≤ (result.map weight).sum := by
  rw [respondSpan_settled hset] at hresult
  obtain ⟨-, -, budget, -, rfl⟩ := hresult.of_single
  simp [advanceSpan, weight]

/-- A span that is not settled, in a round without transfers. -/
theorem weight_lt_or_stuck (hm : r.mode ≠ .skip) (hround : QuietRound fp s full lo r result) :
    weight r < (result.map weight).sum ∨ full ∧ ∃ v, result = [⟨r.upper, .fingerprint v⟩] ∧
        Stuck s lo (⟨r.upper, .fingerprint v⟩ : Range F) := by
  obtain ⟨part, ⟨-, htold, hpush, budget, hbudget, hfull, rfl⟩, hresult⟩ := hround
  have hthree := weight_le_three hm
  by_cases hset : RelaySettles fp s.relay lo r
  · have hfour := four_le_of_settled hset hresult
    exact .inl (by omega)
  · rw [respondSpan_narrows hset, narrow] at hresult
    split_ifs at hresult with hlimit
    · exact .inl (weight_lt_of_named hheld htold hset (.inl hlimit) hresult.of_single)
    · rcases Nat.lt_or_ge 1 budget with htwo | hone
      · have hasc : Ascending (itemsIn s.relay lo r.upper) :=
          hheld.ascending.sublist (itemsIn_sublist _ _ _)
        have hmany : 1 < (itemsIn s.relay lo r.upper).length := by
          have hsixteen : idlistLimit = 16 := rfl
          omega
        have hdivides := (two_le_length_splitBounded fp hasc hmany r.upper htwo).1
        have hlen := hresult.length_le (fun _ _ _ h => h.ne_nil)
        have hsum := two_mul_length_le_sum result
        exact .inl (by omega)
      · have hfull' := hfull (le_antisymm hone hbudget)
        rw [splitBounded_of_le_one _ _ _ hone] at hresult
        split_ifs at hresult with hids
        · exact .inl (weight_lt_of_named hheld htold hset (.inr ⟨hfull', hids⟩) hresult.of_single)
        · rcases weight_lt_or_stuck_of_fingerprint hheld htold hm hpush hfull'
            (not_le.mp hids) hresult.of_single with hlt | hstuck
          · exact .inl hlt
          · exact .inr ⟨hfull', hstuck⟩

omit hheld

theorem weight_le_of_skip (hm : r.mode = .skip) (hround : QuietRound fp s full lo r result) :
    weight r ≤ (result.map weight).sum := by
  obtain ⟨part, ⟨-, -, -, budget, -, -, rfl⟩, hresult⟩ := hround
  refine le_trans (weight_le_four r) (four_le_of_settled ?_ hresult)
  simp [RelaySettles, hm]

end Spans

section Rounds

variable {F : Type} [DecidableEq F] {fp : List Item → F} {s : Sides}
  {msg next : Message F} {full : Prop} {r : Range F} {lo : Nat} {part : List (Range F)}

theorem QuietRespond.covers (hsort : Sorted s.relay) (h : QuietRespond fp s full lo r part) :
    Covers Range.upper (fun _ _ => True) lo part r.upper := by
  obtain ⟨hlt, -, -, b, -, -, rfl⟩ := h
  exact (narrows_respondSpan fp s.relay).covers hsort hlt b

theorem QuietAdvance.covers (hsort : Sorted s.client) (h : QuietAdvance fp s full lo r part) :
    Covers Range.upper (fun _ _ => True) lo part r.upper := by
  obtain ⟨hlt, -, b, -, rfl⟩ := h
  exact (narrows_advanceSpan fp s.client).covers hsort hlt b

theorem QuietRound.covers {result} (hheld : WellHeld s.relay s.client)
    (h : QuietRound fp s full lo r result) :
    Covers Range.upper (fun _ _ => True) lo result r.upper := by
  obtain ⟨part, hp, hresult⟩ := h
  exact hresult.covers (hp.covers hheld.ascending.sorted)
    (fun _ _ _ _ _ hout => hout.covers hheld.sorted)

variable (h : Sound fp s msg)
include h

/-- Settled spans stay settled: a message of them ends the exchange. -/
theorem exists_unsettled (hreply : (advance fp s.client
      (respond fp s.relay msg).reply).reply = some next) : ∃ r ∈ msg.ranges, r.mode ≠ .skip := by
  by_contra hall
  push Not at hall
  have hskips : Covers Range.upper (fun _ r => r.mode = .skip) 0 msg.ranges infinity :=
    h.cover.of_spans (fun _ r hspan _ => hall r (mem_of_mem_spans _ hspan))
  have hans : Covers Range.upper (fun _ r => r.mode = .skip) 0
      (respond fp s.relay msg).reply.ranges infinity := by
    refine (respond_refines fp s.relay msg).covers hskips ?_
    rintro lo r part hlt hskip ⟨b, -, -, -, rfl⟩
    have hset : RelaySettles fp s.relay lo r := by
      simp [RelaySettles, hskip]
    rw [respondSpan_settled hset]
    exact .single hlt rfl
  have hnone := advance_reply_eq_none_iff.mpr (fun lo r hspan => by
    have hskip := (hans.of_mem_spans hspan).2.2.2
    simp [ClientSettles, hskip] :
    ∀ lo r, (lo, r) ∈ (respond fp s.relay msg).reply.spans → ClientSettles fp s.client lo r)
  rw [hnone] at hreply
  cases hreply

/-- A round without transfers, span by span. -/
theorem refines_quietRound (hpush : (respond fp s.relay msg).push = [])
    (hsend : (advance fp s.client (respond fp s.relay msg).reply).send = []) :
    Refines Range.upper (QuietRound fp s (maxRanges ≤ (respond fp s.relay msg).reply.ranges.length))
      0 msg.ranges
      (advanceRanges fp s.client (respond fp s.relay msg).reply) := by
  have hincoming : Covers Range.upper (fun lo r =>
      Says fp s.client s.relay lo r ∧ unnamed s.relay lo r = []) 0 msg.ranges infinity :=
    h.cover.of_spans (fun _ _ hspan htold => ⟨htold, unnamed_eq_nil mem_push hpush hspan⟩)
  have hrelay : Refines Range.upper (QuietRespond fp s
        (maxRanges ≤ (respond fp s.relay msg).reply.ranges.length))
      0 msg.ranges (respond fp s.relay msg).reply.ranges := by
    refine ((respond_refines fp s.relay msg).along hincoming).mono ?_
    rintro lo r part ⟨⟨b, hone, hfull, -, hp⟩, hlt, htold, hnamed⟩
    exact ⟨hlt, htold, hnamed, b, hone, hfull, hp⟩
  have hans := hrelay.covers hincoming (fun _ _ _ _ _ hp => hp.covers h.held.ascending.sorted)
  have hquiet : Covers Range.upper (fun lo r => unnamed s.client lo r = []) 0
      (respond fp s.relay msg).reply.ranges infinity :=
    hans.of_spans (fun _ _ hspan _ => unnamed_eq_nil mem_send hsend hspan)
  refine hrelay.comp (fun _ _ _ hp => hp.covers h.held.ascending.sorted) ?_
  refine ((advance_refines fp s.client _).along hquiet).mono ?_
  rintro lo r part ⟨⟨b, -, -, htight, hp⟩, hlt, hnamed⟩
  exact ⟨hlt, hnamed, b, htight, hp⟩

/-- A round without transfers brings every span nearer to settled, unless it ends wedged. -/
theorem sum_weight_lt (hpush : (respond fp s.relay msg).push = []) (hsend : (advance fp s.client
      (respond fp s.relay msg).reply).send = []) (hreply : (advance fp s.client
      (respond fp s.relay msg).reply).reply = some next) (hnot : ¬ Wedged s next) :
    (msg.ranges.map weight).sum < (next.ranges.map weight).sum := by
  have hround := refines_quietRound h hpush hsend
  have hlonger : (respond fp s.relay msg).reply.ranges.length ≤ next.ranges.length := by
    rw [eq_of_advance_reply hreply]
    exact (narrows_advanceSpan fp s.client).le_length _
  rw [← eq_of_advance_reply hreply] at hround
  have hfree : ∀ span ∈ spans Range.upper 0 next.ranges,
      maxRanges ≤ (respond fp s.relay msg).reply.ranges.length → ¬ Stuck s span.1 span.2 := by
    intro span hspan hfull hstuck
    exact hnot ⟨le_trans hfull hlonger, span.1, span.2, hspan, hstuck⟩
  have hrises : Refines Range.upper (fun _ r part =>
      weight r ≤ (part.map weight).sum ∧ (r.mode ≠ .skip → weight r < (part.map weight).sum))
      0 msg.ranges next.ranges := by
    refine (hround.localise (fun _ _ _ hp => hp.covers h.held) hfree).mono ?_
    rintro lo r part ⟨hp, hspans⟩
    by_cases hskip : r.mode = .skip
    · exact ⟨weight_le_of_skip hskip hp, fun hm => absurd hskip hm⟩
    · -- A span that stayed stuck would be one of the next message.
      have hlt : weight r < (part.map weight).sum := by
        rcases weight_lt_or_stuck h.held hskip hp with hlt | ⟨hfull, v, rfl, hstuck⟩
        · exact hlt
        · exact absurd hstuck (hspans _ mem_cons_self hfull)
      exact ⟨le_of_lt hlt, fun _ => hlt⟩
  obtain ⟨r, hrange, hm⟩ := exists_unsettled h hreply
  exact hrises.sum_lt (fun _ _ _ hp => hp.1) hrange (fun _ _ hp => hp.2 hm)

end Rounds

end WealdRelay.Negentropy
