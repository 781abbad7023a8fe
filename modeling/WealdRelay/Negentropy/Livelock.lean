import WealdRelay.Negentropy.Converge

/-!
# An exchange that never ends

Two sides that hold different envelopes at the same sequence numbers (`Twins`), 12288 of
them. The client opens with 8 fingerprints. Every span differs and is divided by 8, by
the relay and again by the client (`Twins.round_even`), so that the second message has 512
spans of 24 items. The relay cannot divide all of those: its first spans take what the
message has left, and the others come back as lists of 24 ids (`fills_overSpans`). The
client sends the envelopes it has in the named spans, some ten thousand, and the relay
numbers them after its highest sequence number: all of them fall in the last span. The
message is full by now. Its last span can neither be divided nor, with so many items, be
named, and the 24 envelopes of the relay's in it have not reached the client
(`Twins.wedged_of_last`).

The lemmas on passes and rounds are about any twins and any injective fingerprint;
`lines` is a pair of sides they apply to.
-/

namespace WealdRelay.Negentropy

open Lib List

/-- Different envelopes at the same sequence numbers. -/
structure Twins (sides : Sides) : Prop where
  relay : Ascending sides.relay
  client : Ascending sides.client
  seqs : sides.relay.map (·.seq) = sides.client.map (·.seq)
  apart : ∀ a ∈ sides.relay, ∀ b ∈ sides.client, a.id ≠ b.id

/-- A fingerprinted span in which the sender holds a number of items. -/
def Counts {F : Type} (fingerprint : List Item → F) (sender : List Item) (count lo : Nat)
    (range : Range F) : Prop :=
  range.mode = .fingerprint (fingerprint (itemsIn sender lo range.upper)) ∧
    (itemsIn sender lo range.upper).length = count

section Even

variable {F : Type} {fp : List Item → F} {holder : List Item} {n lo hi : Nat}

theorem itemsIn_append (hholder : Sorted holder) {mid} (hlo : lo ≤ mid) (hhi : mid ≤ hi) :
    itemsIn holder lo hi = itemsIn holder lo mid ++ itemsIn holder mid hi := by
  have hsort : Sorted (itemsIn holder lo hi) := hholder.sublist (itemsIn_sublist _ _ _)
  have hparts := takeWhile_append_dropWhile (p := fun item : Item => item.seq < mid)
    (l := itemsIn holder lo hi)
  obtain ⟨hhere, hlater⟩ := itemsIn_cut hholder hlo hhi hparts.symm
    (fun item hitem => by simpa using mem_takeWhile_imp hitem)
    (fun item hitem => by
      rw [dropWhile_eq_filter hsort, mem_filter] at hitem
      simpa using hitem.2)
  rw [hhere, hlater, hparts]

theorem length_itemsIn (hholder : Sorted holder) (lo hi : Nat) : (itemsIn holder lo hi).length =
      (holder.map (·.seq)).countP (fun seq => lo ≤ seq ∧ seq < hi) := by
  rw [itemsIn_eq_filter hholder, ← countP_eq_length_filter, countP_map]
  rfl

variable {s : Sides}

theorem Twins.length_eq (h : Twins s) (lo hi : Nat) :
    (itemsIn s.relay lo hi).length = (itemsIn s.client lo hi).length := by
  rw [length_itemsIn h.relay.sorted, length_itemsIn h.client.sorted, h.seqs]

theorem Twins.itemsIn_ne (h : Twins s) (hne : itemsIn s.relay lo hi ≠ []) :
    itemsIn s.relay lo hi ≠ itemsIn s.client lo hi := by
  intro heq
  obtain ⟨item, hitem⟩ := exists_mem_of_ne_nil _ hne
  have hrelay := ((mem_itemsIn h.relay.sorted).mp hitem).1
  have hclient := ((mem_itemsIn h.client.sorted).mp (heq ▸ hitem)).1
  exact h.apart item hrelay item hclient rfl

/-- A whole number of buckets is cut into them. -/
theorem covers_splitLoop_even (fp : List Item → F) (hi : Nat) (hn : 0 < n)
    (hholder : Ascending holder) :
    ∀ (more fuel : Nat) {lo}, (itemsIn holder lo hi).length = (more + 1) * n →
      (more + 1) * n ≤ fuel → lo < hi →
      Covers Range.upper (Counts fp holder n) lo
          (splitLoop fp n hi fuel (itemsIn holder lo hi)) hi ∧
        (splitLoop fp n hi fuel (itemsIn holder lo hi)).length = more + 1 := by
  intro more fuel
  induction fuel generalizing more with
  | zero =>
    intro lo hlen hfuel
    have hpos : 0 < (more + 1) * n := Nat.mul_pos (Nat.succ_pos _) hn
    omega
  | succ fuel ih =>
    intro lo hlen hfuel hlt
    have hne : itemsIn holder lo hi ≠ [] := by
      intro hnil
      rw [hnil] at hlen
      have hpos : 0 < (more + 1) * n := Nat.mul_pos (Nat.succ_pos _) hn
      rw [length_nil] at hlen
      omega
    rcases splitLoop_cut fp hn hholder.sorted fuel hne with
      ⟨hleast, hall⟩ | ⟨mid, hlow, hhigh, hr, hparts, hfilled, hleast, hpass⟩
    · have hsingle := hleast hholder
      have hzero : more = 0 := by
        by_contra hmore
        have htwo : 2 * n ≤ (more + 1) * n := Nat.mul_le_mul_right _ (by omega)
        omega
      subst hzero
      rw [hall]
      exact ⟨.single hlt ⟨rfl, by rw [hlen, Nat.zero_add, Nat.one_mul]⟩, rfl⟩
    · have hlengths := congrArg List.length hparts
      rw [length_append] at hlengths
      have hbucket := hleast hholder
      have hpos := length_pos_iff.mpr hr
      cases more with
      | zero => omega
      | succ more =>
        rw [Nat.add_mul (more + 1) 1 n, Nat.one_mul] at hlen hfuel
        obtain ⟨hcover, hnum⟩ := ih more (by omega) (by omega) hhigh
        rw [hpass]
        exact ⟨.cons hlow ⟨rfl, le_antisymm hbucket hfilled⟩ hcover, by simp [hnum]⟩

/-- A span with eight times more than two items is divided into eight. -/
theorem covers_narrow_even (fp : List Item → F) (hholder : Ascending holder)
    (hn : 2 < n) (hlen : (itemsIn holder lo hi).length = splitFactor * n)
    (hlt : lo < hi) {b} (hbudget : splitFactor ≤ b) :
    Covers Range.upper (Counts fp holder n) lo (narrow fp (itemsIn holder lo hi) hi b) hi ∧
      (narrow fp (itemsIn holder lo hi) hi b).length = splitFactor := by
  have hfactor : min splitFactor (max b 1) = splitFactor :=
    min_eq_left (le_trans hbudget (le_max_left _ _))
  have hbucket : bucketSize (itemsIn holder lo hi).length splitFactor = n := by
    rw [hlen]
    simp only [bucketSize, splitFactor]
    omega
  obtain ⟨hcover, hnum⟩ := covers_splitLoop_even fp hi (by omega : 0 < n)
    hholder 7 _ hlen (le_of_eq hlen.symm) hlt
  have hmany : ¬ (itemsIn holder lo hi).length ≤ idlistLimit := by
    rw [hlen]
    simp only [splitFactor, idlistLimit]
    omega
  have hdiv : narrow fp (itemsIn holder lo hi) hi b =
      splitLoop fp n hi (itemsIn holder lo hi).length (itemsIn holder lo hi) := by
    rw [narrow, if_neg hmany]
    simp only [splitBounded, hfactor, hbucket]
    rw [if_neg (by decide), if_neg (by omega)]
  rw [hdiv]
  exact ⟨hcover, hnum⟩

end Even

section Passes

variable {F α : Type} {fp : List Item → F} {holder : List Item}
  {P : Nat → Range F → Prop} {n : Nat}

/-- A pass that divides every span by eight, in a message that has room for it. -/
theorem covers_overSpans_even (fp : List Item → F)
    (arm : Nat → Nat → Range F → List (Range F) × α) (hholder : Ascending holder) (hn : 2 < n)
    (hlen : ∀ lo r, P lo r → (itemsIn holder lo r.upper).length = splitFactor * n)
    (harm : ∀ b lo r, P lo r → (arm b lo r).1 = narrow fp (itemsIn holder lo r.upper) r.upper b) :
    ∀ {rs lo hi} (built : Nat),
      Covers Range.upper P lo rs hi → built + splitFactor * rs.length ≤ maxRanges →
      Covers Range.upper (Counts fp holder n) lo
          (overSpans arm built (spans Range.upper lo rs)).1 hi ∧
        (overSpans arm built (spans Range.upper lo rs)).1.length = splitFactor * rs.length := by
  intro rs lo hi built hcover hfits
  induction hcover generalizing built with
  | nil lo => exact ⟨.nil lo, rfl⟩
  | @cons lo hi r rest hlt hrange _ ih =>
    rw [length_cons, Nat.mul_succ] at hfits
    have hbudget : splitFactor ≤ spanBudget built (rest.length + 1) := by
      simp only [spanBudget, splitFactor, maxRanges] at hfits ⊢
      omega
    obtain ⟨hcover, hnum⟩ := covers_narrow_even fp hholder hn (hlen lo r hrange) hlt hbudget
    obtain ⟨hlater, hmore⟩ := ih (built + splitFactor) (by omega)
    simp only [spans, overSpans, length_spans, harm _ _ _ hrange, hnum, length_append,
      length_cons, hmore]
    exact ⟨hcover.append hlater, by rw [Nat.mul_succ, Nat.add_comm]⟩

/-- Whether a range names ids. -/
def isNamed (range : Range F) : Bool :=
  match range.mode with
  | .idList _ => true
  | _ => false

/-- Seven times as many spans as can be divided with so many ranges to spare. -/
def spared (spare : Nat) : Nat := min (7 * spare) (spare + 36)

variable {lo hi : Nat}

/-- What a span of a multiple of eight items is answered with, by budget. -/
theorem narrow_by_budget (fp : List Item → F) (hholder : Ascending holder)
    (hn : 2 < n) (hlen : (itemsIn holder lo hi).length = splitFactor * n)
    (hlt : lo < hi) (hnames : splitFactor * n ≤ maxIdsPerRange) {b part}
    (hbudget : 1 ≤ b) (hp : narrow fp (itemsIn holder lo hi) hi b = part) :
    b = 1 ∧ part = [⟨hi, .idList (idsOf (itemsIn holder lo hi))⟩] ∨
      (∀ r ∈ part, isNamed r = false) ∧ 2 ≤ part.length ∧ part.length ≤ b ∧
        (splitFactor ≤ b → part.length = splitFactor) := by
  subst hp
  have hin : Ascending (itemsIn holder lo hi) := hholder.sublist (itemsIn_sublist _ _ _)
  have hmany : idlistLimit < (itemsIn holder lo hi).length := by
    rw [hlen]
    simp only [splitFactor, idlistLimit]
    omega
  have hsplit : narrow fp (itemsIn holder lo hi) hi b =
      splitBounded fp (itemsIn holder lo hi) hi b := if_neg (not_le.mpr hmany)
  rcases Nat.eq_or_lt_of_le hbudget with hone | htwo
  · refine .inl ⟨hone.symm, ?_⟩
    rw [hsplit, splitBounded_of_le_one fp _ _ (le_of_eq hone.symm),
      if_pos (by rw [hlen]; exact hnames)]
  · obtain ⟨hdiv, hmodes⟩ := two_le_length_splitBounded fp hin
      (lt_trans (by decide) hmany) hi htwo
    have hle := length_narrow_le fp hin.sorted hi b
    rw [max_eq_left hbudget] at hle
    refine .inr ⟨?_, hsplit ▸ hdiv, hle, ?_⟩
    · intro r hrange
      obtain ⟨v, hvalue⟩ := hmodes r (hsplit ▸ hrange)
      simp [isNamed, hvalue]
    · intro height
      exact (covers_narrow_even fp hholder hn hlen hlt height).2

/-- The answer to a number of spans that fills the message and ends in a list of ids, with
all but some of the spans named. -/
structure Fills (built number spare : Nat) (out : List (Range F)) : Prop where
  full : built + out.length = maxRanges
  many : 7 * number ≤ 7 * out.countP isNamed + spared spare
  last : ∃ init last, out = init ++ [last] ∧ isNamed last = true

theorem Fills.cons {built n spare left : Nat} {part out : List (Range F)}
    (h : Fills (built + part.length) n left out)
    (hused : spared left + 7 ≤ 7 * part.countP isNamed + spared spare) :
    Fills built (n + 1) spare (part ++ out) := by
  obtain ⟨hfull, hmany, init, last, hout, hlast⟩ := h
  refine ⟨?_, ?_, part ++ init, last, ?_, hlast⟩
  · rw [length_append]
    omega
  · rw [countP_append]
    omega
  · rw [hout, append_assoc]

/-- A pass over more spans than the message has room to divide: it fills the message, and
names the ids of the spans that come last. -/
theorem fills_overSpans (fp : List Item → F)
    (arm : Nat → Nat → Range F → List (Range F) × α) (hholder : Ascending holder) (hn : 2 < n)
    (hnames : splitFactor * n ≤ maxIdsPerRange) (hlen : ∀ lo r, P lo r →
      (itemsIn holder lo r.upper).length = splitFactor * n)
    (harm : ∀ b lo r, P lo r → (arm b lo r).1 = narrow fp (itemsIn holder lo r.upper) r.upper b) :
    ∀ {rs : List (Range F)} {lo hi : Nat} (built : Nat),
      Covers Range.upper P lo rs hi → built + rs.length ≤ maxRanges →
      spared (maxRanges - built - rs.length) < 7 * rs.length →
      Fills built rs.length (maxRanges - built - rs.length)
        (overSpans arm built (spans Range.upper lo rs)).1 := by
  intro rs lo hi built hcover hfits hcrowded
  induction hcover generalizing built with
  | nil lo => simp at hcrowded
  | @cons lo hi r rest hlt hrange hr ih =>
    rw [length_cons] at hfits hcrowded
    have hbudget : spanBudget built (rest.length + 1) = maxRanges - built - rest.length := by
      simp only [spanBudget]
      omega
    simp only [spans, overSpans, length_spans, harm _ _ _ hrange, length_cons, hbudget]
    generalize hp : narrow fp (itemsIn holder lo r.upper) r.upper
      (maxRanges - built - rest.length) = part
    rcases narrow_by_budget fp hholder hn (hlen _ _ hrange) hlt hnames (by omega)
      hp with ⟨hone, rfl⟩ | ⟨hnone, htwo, hle, height⟩
    · have hspare : maxRanges - (built + 1) - rest.length = 0 := by omega
      cases hr with
      | nil upper =>
        refine ⟨?_, ?_, [], _, rfl, rfl⟩
        · simp only [length_nil] at hone
          simp only [spans, overSpans, append_nil, length_singleton]
          omega
        · simp [spans, overSpans, isNamed]
      | @cons _ _ next later _ _ _ =>
        have hlater := ih (built + 1) (by omega) (by rw [hspare]; simp [spared])
        rw [hspare] at hlater
        exact .cons hlater (by simp [spared, isNamed])
    · have hn : part.countP isNamed = 0 := by
        rw [countP_eq_zero]
        intro p hpiece
        rw [hnone p hpiece]
        exact Bool.false_ne_true
      have hused : spared (maxRanges - (built + part.length) - rest.length) + 7 ≤
          spared (maxRanges - built - (rest.length + 1)) := by
        simp only [spared, splitFactor] at height ⊢
        omega
      exact .cons (ih (built + part.length) (by omega) (by omega)) (by omega)

/-- The items in named spans of a cover are found among all of them. -/
theorem countP_isNamed_le {S : Item → Bool} (hholder : Sorted holder) {rs : List (Range F)}
    (hcover : Covers Range.upper (fun l r => isNamed r = true →
      (itemsIn holder l r.upper).length = n ∧
        ∀ item ∈ itemsIn holder l r.upper, S item = true) lo rs hi) :
    n * rs.countP isNamed ≤ (itemsIn holder lo hi).countP S := by
  induction hcover with
  | nil _ => simp
  | @cons lo hi r rest hlt hrange hr ih =>
    rw [itemsIn_append hholder (le_of_lt hlt) hr.le, countP_append, countP_cons]
    by_cases hnamed : isNamed r = true
    · obtain ⟨hlen, hall⟩ := hrange hnamed
      rw [if_pos hnamed, Nat.mul_succ, countP_eq_length.mpr hall, hlen]
      omega
    · rw [if_neg hnamed, Nat.add_zero]
      omega

end Passes

section Twins

variable {F : Type} {fp : List Item → F} {s : Sides} {msg : Message F}
  {n : Nat} {tx : List Item} {lo : Nat} {r : Range F}

theorem unnamed_eq_nil_of_counts {holder} (h : Counts fp tx n lo r) : unnamed holder lo r = [] := by
  simp [unnamed, h.1]

theorem Twins.not_relaySettles (h : Twins s) (hinj : Function.Injective fp)
    (hn : 0 < n) (hspan : Counts fp s.client n lo r) : ¬ RelaySettles fp s.relay lo r := by
  intro hset
  simp only [RelaySettles, hspan.1] at hset
  refine h.itemsIn_ne ?_ (hinj hset)
  rw [← length_pos_iff, h.length_eq, hspan.2]
  exact hn

theorem Twins.not_clientSettles (h : Twins s) (hinj : Function.Injective fp)
    (hn : 0 < n) (hspan : Counts fp s.relay n lo r) : ¬ ClientSettles fp s.client lo r := by
  intro hset
  simp only [ClientSettles, hspan.1] at hset
  refine h.itemsIn_ne ?_ (hinj hset).symm
  rw [← length_pos_iff, hspan.2]
  exact hn

variable {new : List Item} {hi : Nat}

/-- Fingerprints make neither role send anything. -/
theorem eq_nil_of_counts {xs ids} (hmem : ∀ {id}, id ∈ ids ↔
      ∃ lo r, (lo, r) ∈ msg.spans ∧ id ∈ unnamed xs lo r)
    (h : Covers Range.upper (Counts fp tx n) 0 msg.ranges hi) : ids = [] := by
  refine eq_nil_iff_forall_not_mem.mpr fun id hid => ?_
  obtain ⟨lo, r, hspan, hin⟩ := hmem.mp hid
  rw [unnamed_eq_nil_of_counts (h.of_mem_spans hspan).2.2.2] at hin
  cases hin

variable [DecidableEq F]

theorem received_of_counts (h : Covers Range.upper (Counts fp tx n) 0 msg.ranges hi) :
    received fp s msg = s.client := by
  rw [received, eq_nil_of_counts mem_push h]
  rfl

variable (h : Twins s)
include h

/-- A round in which both sides divide every span moves nothing. -/
theorem Twins.round_even (hinj : Function.Injective fp) (hn : 2 < n) (hcover : Covers Range.upper
      (Counts fp s.client (splitFactor * (splitFactor * n)))
      0 msg.ranges infinity)
    (hfits : splitFactor * (splitFactor * msg.ranges.length) ≤ maxRanges) (moved : Nat) :
    ∃ next, round fp ⟨s, some msg, moved⟩ = ⟨s, some next, moved⟩ ∧
      Covers Range.upper (Counts fp s.client n) 0 next.ranges infinity ∧
      next.ranges.length = splitFactor * (splitFactor * msg.ranges.length) := by
  have hmore : 2 < splitFactor * n := by
    simp only [splitFactor]
    omega
  obtain ⟨hans, hnum⟩ : Covers Range.upper (Counts fp s.relay (splitFactor * n)) 0
        (respond fp s.relay msg).reply.ranges infinity ∧
      (respond fp s.relay msg).reply.ranges.length = splitFactor * msg.ranges.length := by
    refine covers_overSpans_even fp (respondSpan fp s.relay) h.relay hmore
      ?_ ?_ 0 hcover (by simp only [splitFactor] at hfits ⊢; omega)
    · intro lo r hspan
      rw [h.length_eq, hspan.2]
    · intro b lo r hspan
      exact respondSpan_narrows
        (h.not_relaySettles hinj (Nat.mul_pos (by decide) (by omega)) hspan) b
  obtain ⟨hnext, hlen⟩ : Covers Range.upper (Counts fp s.client n) 0 (advanceRanges fp s.client
          (respond fp s.relay msg).reply) infinity ∧
      (advanceRanges fp s.client (respond fp s.relay msg).reply).length =
        splitFactor * (respond fp s.relay msg).reply.ranges.length := by
    refine covers_overSpans_even fp (advanceSpan fp s.client) h.client hn
      ?_ ?_ 0 hans (by rw [hnum]; omega)
    · intro lo r hspan
      rw [← h.length_eq, hspan.2]
    · intro b lo r hspan
      exact advanceSpan_narrows (h.not_clientSettles hinj (by omega) hspan) b
  have hstill : exchanged fp s msg = s := by
    rw [exchanged, sends, received_of_counts hcover, eq_nil_of_counts mem_send hans]
    rfl
  cases hreply : (advance fp s.client (respond fp s.relay msg).reply).reply with
  | none =>
    obtain ⟨lo, r, hspan, -⟩ := hans.exists_span (Nat.zero_le 0) (by decide)
    exact absurd (advance_reply_eq_none_iff.mp hreply lo r hspan)
      (h.not_clientSettles hinj (by omega) (hans.of_mem_spans hspan).2.2.2)
  | some next =>
    rw [← eq_of_advance_reply hreply] at hnext hlen
    refine ⟨next, ?_, hnext, by rw [hlen, hnum]⟩
    rw [round_of_some rfl]
    simp only [nextMessage, hstill, hreply, eq_nil_of_counts mem_push hcover, sends,
      received_of_counts hcover, eq_nil_of_counts mem_send hans, length_nil, Nat.add_zero]

/-- The spans that the relay names hold as many of the client's items. -/
theorem Twins.covers_respond (hinj : Function.Injective fp)
    (hn : 2 < n) (hnames : splitFactor * n ≤ maxIdsPerRange)
    (hcover : Covers Range.upper (Counts fp s.client (splitFactor * n)) 0 msg.ranges infinity) :
    Covers Range.upper (fun lo r => isNamed r = true →
        (itemsIn s.client lo r.upper).length = splitFactor * n)
      0 (respond fp s.relay msg).reply.ranges infinity := by
  refine (respond_refines fp s.relay msg).covers hcover ?_
  rintro lower r part hlt hspan ⟨b, hbudget, -, -, rfl⟩
  have hlen : (itemsIn s.relay lower r.upper).length = splitFactor * n := by
    rw [h.length_eq, hspan.2]
  rw [respondSpan_narrows (h.not_relaySettles hinj (Nat.mul_pos (by decide) (by omega)) hspan)]
  rcases narrow_by_budget fp h.relay hn hlen hlt hnames hbudget rfl with
    ⟨-, hnamed⟩ | ⟨hnone, -⟩
  · rw [hnamed]
    exact .single hlt fun _ => hspan.2
  · refine (covers_narrow fp h.relay.sorted hlt b).of_spans ?_
    intro l p hpiece _ hnamed
    rw [hnone p (mem_of_mem_spans _ hpiece)] at hnamed
    cases hnamed

/-- The client sends all it holds in the spans that the relay names. -/
theorem Twins.le_length_sends (hids : (s.client.map (·.id)).Nodup)
    (hrecv : received fp s msg = s.client) (htold : Covers Range.upper (Says fp s.relay s.client) 0
      (respond fp s.relay msg).reply.ranges infinity)
    (hans : Covers Range.upper (fun lo r => isNamed r = true →
        (itemsIn s.client lo r.upper).length = n)
      0 (respond fp s.relay msg).reply.ranges infinity) :
    n * (respond fp s.relay msg).reply.ranges.countP isNamed ≤ (sends fp s msg).length := by
  have hsent : Covers Range.upper (fun lo r => isNamed r = true →
        (itemsIn s.client lo r.upper).length = n ∧ ∀ item ∈ itemsIn s.client lo r.upper,
            decide (item.id ∈ sends fp s msg) = true)
      0 (respond fp s.relay msg).reply.ranges infinity := by
    refine hans.of_spans fun lo r hspan hnum hnamed => ⟨hnum hnamed, ?_⟩
    intro item hi
    obtain ⟨hclient, hlo, hhi⟩ := (mem_itemsIn h.client.sorted).mp hi
    cases hm : r.mode with
    | skip | fingerprint => simp [isNamed, hm] at hnamed
    | idList theirs =>
      have hnot : item.id ∉ theirs := by
        rw [(says_idList hm).mp (htold.of_mem_spans hspan).2.2.2, mem_idsOf]
        rintro ⟨x, ho, heq⟩
        exact h.apart x ((mem_itemsIn h.relay.sorted).mp ho).1 item hclient heq
      refine decide_eq_true (mem_send.mpr ⟨lo, r, hspan, ?_⟩)
      rw [hrecv, mem_unnamed h.client.sorted]
      exact ⟨theirs, hm, hnot, item, hclient, hlo, hhi, rfl⟩
  have hle := countP_isNamed_le h.client.sorted hsent
  refine le_trans hle (le_trans ((itemsIn_sublist _ _ _).countP_le) ?_)
  rw [countP_eq_length_filter, ← length_map (f := fun item : Item => item.id)]
  refine (subperm_of_subset (hids.sublist (filter_sublist.map _)) ?_).length_le
  intro id hid
  obtain ⟨item, hi, rfl⟩ := mem_map.mp hid
  exact of_decide_eq_true (mem_filter.mp hi).2

omit h in
/-- What was sent lies in any span that reaches from below it to the end, on both sides. -/
theorem Transfers.length_new_le (ht : Transfers fp s msg new) (hlow : ∀ item ∈ new, lo ≤ item.seq) :
    new.length ≤ (itemsIn (exchanged fp s msg).relay lo infinity).length ∧
      new.length ≤ (itemsIn (exchanged fp s msg).client lo infinity).length := by
  have hnd : new.Nodup := .of_map (·.id) (ht.sent.sent ▸ ht.send.nodup)
  have hclient : ∀ item ∈ new, item ∈ (exchanged fp s msg).client :=
    fun item hi => (ht.sent.mem item).mpr (.inl hi)
  have hrelay : ∀ item ∈ new, item ∈ (exchanged fp s msg).relay :=
    fun item hi => ht.sent.mem_relay.mpr (.inr hi)
  have hhigh : ∀ item ∈ new, item.seq < infinity :=
    fun item hi => ht.after.bounded item (hclient item hi)
  constructor
  · refine (subperm_of_subset hnd (fun item hi => ?_)).length_le
    exact (mem_itemsIn ht.after.ascending.sorted).mpr ⟨hrelay item hi, hlow item hi, hhigh item hi⟩
  · refine (subperm_of_subset hnd (fun item hi => ?_)).length_le
    exact (mem_itemsIn ht.after.sorted).mpr ⟨hclient item hi, hlow item hi, hhigh item hi⟩

/-- Without pushes the client has none of the relay's items after its sends. -/
theorem Twins.absent_client (ht : Transfers fp s msg new)
    (hrecv : received fp s msg = s.client) {item} (hi : item ∈ s.relay) :
    item.id ∉ (exchanged fp s msg).client.map (·.id) := by
  intro hin
  have hset : item.id ∈ idSet (exchanged fp s msg).client :=
    mem_toFinset.mpr hin
  rw [idSet_client_sent ht.send ht.sent, hrecv, mem_idSet] at hset
  obtain ⟨x, ho, heq⟩ := hset
  exact h.apart item hi x ho heq.symm

/-- The client's answer to the last span of a full message, after it sent more than a list
may name: a fingerprint of a stuck span. -/
theorem Twins.wedged_of_last (ht : Transfers fp s msg new) (hrecv : received fp s msg = s.client)
    (hfull : maxRanges ≤ (respond fp s.relay msg).reply.ranges.length)
    {last} (hspan : (lo, last) ∈ (respond fp s.relay msg).reply.spans)
    (hlast : last.upper = infinity) (hnamed : isNamed last = true)
    (hheld : itemsIn s.relay lo infinity ≠ []) (hmany : maxIdsPerRange < new.length) :
    ∃ next, nextMessage fp s msg = some next ∧ Wedged (exchanged fp s msg) next := by
  obtain ⟨item, hi⟩ := exists_mem_of_ne_nil _ hheld
  obtain ⟨hrelay, hlo, hhi⟩ := (mem_itemsIn h.relay.sorted).mp hi
  have habs := h.absent_client ht hrecv hrelay
  have hlow : ∀ x ∈ new, lo ≤ x.seq := by
    intro x ho
    have hasc := ht.sent.ascending
    rw [ht.sent.appended] at hasc
    exact le_trans hlo (le_of_lt ((pairwise_append.mp hasc).2.2 item hrelay x ho))
  obtain ⟨hrelays, hclients⟩ := ht.length_new_le hlow
  -- The list of the last span names an item that did not reach the client.
  have hopen : ¬ ClientSettles fp (exchanged fp s msg).client lo last := by
    intro hset
    cases hm : last.mode with
    | skip | fingerprint => simp [isNamed, hm] at hnamed
    | idList theirs =>
      have htheirs : item.id ∈ theirs := by
        rw [(says_idList hm).mp (ht.answer.of_mem_spans hspan).2.2.2, mem_idsOf]
        exact ⟨item, hlast.symm ▸ hi, rfl⟩
      simp only [ClientSettles, hm] at hset
      obtain ⟨x, ho, heq⟩ := mem_idsOf.mp ((hset item.id).mpr htheirs)
      exact habs (mem_map.mpr ⟨x, ((mem_itemsIn ht.after.sorted).mp ho).1, heq⟩)
  have hans : ∀ span ∈ spans Range.upper lo (advanceSpan fp
        (exchanged fp s msg).client 1 lo last).1,
      span ∈ spans Range.upper 0 (advanceRanges fp (exchanged fp s msg).client
        (respond fp s.relay msg).reply) :=
    (narrows_advanceSpan fp _).at_span ht.after.sorted ht.answer hspan hfull
  rw [advanceSpan_narrows hopen 1, hlast, narrow,
    if_neg (by simp only [idlistLimit, maxIdsPerRange] at hmany ⊢; omega),
    splitBounded_of_le_one fp _ _ (le_refl 1), if_neg (by omega)] at hans
  cases hreply : nextMessage fp s msg with
  | none => exact absurd (advance_reply_eq_none_iff.mp hreply lo last hspan) hopen
  | some next =>
    have hlen := (narrows_advanceSpan fp (exchanged fp s msg).client).le_length
      (respond fp s.relay msg).reply
    rw [← eq_of_advance_reply hreply] at hans
    refine ⟨next, rfl, le_trans hfull (eq_of_advance_reply hreply ▸ hlen), lo, _,
      hans _ mem_cons_self, ⟨_, rfl⟩, lt_of_lt_of_le hmany hrelays,
      lt_of_lt_of_le hmany hclients, ?_⟩
    intro hagree
    have ha := ht.sent.mem_relay.mpr (.inl hrelay)
    exact habs (mem_map.mpr ⟨item, (hagree item hlo hhi).mpr ha, rfl⟩)

/-- A round whose message has no room to divide its spans, and in which the client sends
more than a list may name. -/
theorem Twins.round_crowded (hinj : Function.Injective fp) (hsound : Sound fp s msg) (hn : 2 < n)
    (hnames : splitFactor * n ≤ maxIdsPerRange)
    (hcover : Covers Range.upper (Counts fp s.client (splitFactor * n)) 0 msg.ranges infinity)
    (hcrowded : spared (maxRanges - msg.ranges.length) < 7 * msg.ranges.length)
    (hmany : ∀ named, 7 * msg.ranges.length ≤ 7 * named + spared (maxRanges - msg.ranges.length) →
      maxIdsPerRange < splitFactor * n * named) :
    ∃ next, nextMessage fp s msg = some next ∧ Wedged (exchanged fp s msg) next := by
  have hpos : 0 < splitFactor * n := Nat.mul_pos (by decide) (by omega)
  have hrecv : received fp s msg = s.client := received_of_counts hcover
  obtain ⟨new, ht⟩ := hsound.transfers hinj
  have hfills : Fills 0 msg.ranges.length (maxRanges - 0 - msg.ranges.length)
      (respond fp s.relay msg).reply.ranges := by
    refine fills_overSpans fp (respondSpan fp s.relay) h.relay hn hnames ?_ ?_ 0
      hcover (by rw [Nat.zero_add]; exact hsound.length) hcrowded
    · intro lower r hspan
      rw [h.length_eq, hspan.2]
    · intro b lower r hspan
      exact respondSpan_narrows (h.not_relaySettles hinj hpos hspan) b
  have hans := h.covers_respond hinj hn hnames hcover
  have hsends := h.le_length_sends hsound.held.clientIds hrecv (hrecv ▸ ht.answer) hans
  have hnew : maxIdsPerRange < new.length := by
    rw [← length_map (f := fun item : Item => item.id), ht.sent.sent]
    exact lt_of_lt_of_le (hmany _ hfills.many) hsends
  obtain ⟨init, last, hran, hnamed⟩ := hfills.last
  have hupper : last.upper = infinity := Covers.upper_last (hran ▸ hans)
  obtain ⟨lo, hspan⟩ := exists_mem_spans Range.upper
    (show last ∈ (respond fp s.relay msg).reply.ranges by rw [hran]; simp) 0
  have hheld : itemsIn s.relay lo infinity ≠ [] := by
    rw [← length_pos_iff, h.length_eq, ← hupper, (hans.of_mem_spans hspan).2.2.2 hnamed]
    exact hpos
  have hfull := hfills.full
  exact h.wedged_of_last ht hrecv (by omega) hspan hupper hnamed hheld hnew

/-- Two sides that hold different envelopes at the same 12288 sequence numbers never have
nothing left to say. -/
theorem Twins.never_done (hinj : Function.Injective fp) (hheld : WellHeld s.relay s.client)
    (hlen : s.client.length = splitFactor * (splitFactor * (splitFactor * 24))) (k : Nat) :
    (rounds fp s k).message ≠ none := by
  have hall : itemsIn s.client 0 infinity = s.client :=
    itemsIn_eq_self h.client.sorted (fun item hi => ⟨Nat.zero_le _, hheld.bounded item hi⟩)
  obtain ⟨hopening, hfew⟩ := covers_narrow_even fp h.client (by decide)
    (hall.symm ▸ hlen) (by decide : 0 < infinity) (le_refl splitFactor)
  rw [hall, ← initiate_ranges] at hopening hfew
  obtain ⟨second, hround, hcover, hnum⟩ := h.round_even hinj (by decide) hopening
    (by rw [hfew]; decide) 0
  rw [hfew] at hnum
  have hone : rounds fp s 1 = ⟨s, some second, 0⟩ := hround
  have hsound := (tracks_rounds hinj hheld 1).sound second (by rw [hone])
  rw [hone] at hsound
  obtain ⟨third, hreply, hwedged⟩ := h.round_crowded hinj hsound (by decide : 2 < 3)
    (by decide) hcover (by rw [hnum]; decide) (by
      intro named hmost
      rw [hnum] at hmost
      simp only [spared, splitFactor, maxRanges, maxIdsPerRange] at hmost ⊢
      omega)
  have htwo := rounds_succ fp s 1
  rw [hone, round_of_some rfl] at htwo
  have hmsg : (rounds fp s 2).message = some third := by
    rw [htwo]
    exact hreply
  exact never_done_of_wedged hinj hheld hmsg (htwo ▸ hwedged) k

end Twins

/-! ### A pair of sides -/

/-- One envelope at each of some sequence numbers, with even or odd content addresses. -/
def line (count parity : Nat) : List Item :=
  (List.range count).map (fun seq => itemOf seq (2 * seq + parity))

section Line

variable {n parity : Nat} {item : Item}

theorem mem_line : item ∈ line n parity ↔ ∃ seq < n, itemOf seq (2 * seq + parity) = item := by
  simp [line]

theorem map_seq_line (n parity : Nat) : (line n parity).map (·.seq) = List.range n := by
  rw [line, map_map]
  exact map_id _

theorem seq_lt_of_mem_line (h : item ∈ line n parity) : item.seq < n := by
  obtain ⟨seq, hseq, rfl⟩ := mem_line.mp h
  exact hseq

theorem ascending_line (n parity : Nat) : Ascending (line n parity) := by
  refine pairwise_map.mpr ?_
  exact pairwise_lt_range

theorem itemOf_id {seq address} (h : address < idCount) :
    (itemOf seq address).id.val = address := Nat.mod_eq_of_lt h

theorem nodup_line_ids (hparity : parity < 2) (hfits : 2 * n ≤ idCount) :
    ((line n parity).map (·.id)).Nodup := by
  rw [line, map_map]
  refine .map_on ?_ nodup_range
  intro a ha b hb heq
  rw [mem_range] at ha hb
  have hval := congrArg Fin.val heq
  simp only [Function.comp_apply] at hval
  rw [itemOf_id (by omega), itemOf_id (by omega)] at hval
  omega

/-- The relay holds the even addresses and the client the odd ones, numbered alike. -/
def lines (count : Nat) : Sides := ⟨line count 0, line count 1⟩

theorem twins_lines (hfits : 2 * n ≤ idCount) : Twins (lines n) where
  relay := ascending_line n 0
  client := ascending_line n 1
  seqs := by rw [lines, map_seq_line, map_seq_line]
  apart := by
    intro a ha b hb heq
    obtain ⟨seq, hseq, rfl⟩ := mem_line.mp ha
    obtain ⟨seq', hseq', rfl⟩ := mem_line.mp hb
    have hval := congrArg Fin.val heq
    rw [itemOf_id (by omega), itemOf_id (by omega)] at hval
    omega

theorem seq_lt_of_mem_lines (h : item ∈ (lines n).client) : item.seq < n :=
  seq_lt_of_mem_line h

theorem nodup_lines_relay (hfits : 2 * n ≤ idCount) : ((lines n).relay.map (·.id)).Nodup :=
  nodup_line_ids (by decide) hfits

theorem legal_lines (hn : 2 * n ≤ 100000) (hfits : 2 * n ≤ idCount) : Legal (lines n) where
  relaySorted := ascending_line n 0
  relaySeqs item hi := lt_of_lt_of_le (seq_lt_of_mem_line hi) (by omega)
  clientSorted := (ascending_line n 1).sorted
  clientSeqs item hi := by
    have hseq := seq_lt_of_mem_lines hi
    simp only [infinity]
    omega
  clientIds := nodup_line_ids (by decide) hfits
  shared a ha b hb heq := absurd heq ((twins_lines hfits).apart a ha b hb)
  total := by
    simp only [lines, line, length_map, length_range]
    omega

end Line

theorem lines_fit : 2 * 12288 ≤ idCount := by decide +kernel

/-- 12288 envelopes of the relay's and as many others of the client's: the relay holds no id
twice, the client no item at the end of the sequence space, and still the exchange never
ends. -/
theorem lines_never_reconcile :
    Legal (lines 12288) ∧ (∀ item ∈ (lines 12288).client, item.seq < infinity) ∧
      ((lines 12288).relay.map (·.id)).Nodup ∧
      ¬ Reconciles (fun items => items) (lines 12288) := by
  have hlegal := legal_lines (by decide) lines_fit
  have hids := nodup_lines_relay lines_fit
  have hseqs : ∀ item ∈ (lines 12288).client, item.seq < infinity :=
    fun item hi => lt_trans (seq_lt_of_mem_lines hi) (by decide)
  refine ⟨hlegal, hseqs, hids, ?_⟩
  rintro ⟨n, hdone, -⟩
  have hlength : (lines 12288).client.length =
      splitFactor * (splitFactor * (splitFactor * 24)) := by
    simp [lines, line, splitFactor]
  exact (twins_lines lines_fit).never_done (fun _ _ heq => heq) (hlegal.wellHeld hseqs hids)
    hlength n hdone

end WealdRelay.Negentropy
