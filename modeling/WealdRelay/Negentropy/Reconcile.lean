import Mathlib.Data.List.TakeWhile
import WealdRelay.Negentropy.Message

/-!
# The two roles of a round

`negentropy/reconcile.rs`: the opening message (`initiate`), the relay's answer to a round
(`respond`) and the client's (`advance`). Both answers run one loop over the spans of the
incoming message, in which every span spends some ranges of the message budget
(`span_budget`); they differ in when a span is settled and in the ids they collect.

What the loop does to a cover is stated as a refinement of it: `refines_overSpans` says
which budgets the spans get, and the lemmas on `splitBounded` and `narrow` what a span is
answered with.
-/

namespace WealdRelay.Negentropy

open Lib List

/-- `span_budget`: the ranges a span may spend, after reserving one for each span after it. -/
def spanBudget (built spansRemaining : Nat) : Nat :=
  max (maxRanges - built - (spansRemaining - 1)) 1

/-- The items a range of a split takes, `len.div_ceil(factor).max(1)`. -/
def bucketSize (count factor : Nat) : Nat := max ((count + factor - 1) / factor) 1

/-- The next chunk of a split: a bucket of items, widened over those that share the last
one's sequence number; and the items after it. -/
def nextChunk (bucket : Nat) (items : List Item) : List Item × List Item :=
  let taken := items.take bucket
  let rest := items.drop bucket
  let shares (item : Item) : Bool := (taken.getLast?.map (·.seq)) == some item.seq
  (taken ++ rest.takeWhile shares, rest.dropWhile shares)

section Roles

variable {F : Type} [DecidableEq F] (fingerprint : List Item → F)

/-- The loop of `split_bounded`. Every pass takes an item, so as much fuel as items is
enough. -/
def splitLoop (bucket upper : Nat) : Nat → List Item → List (Range F)
  | 0, _ => []
  | _ + 1, [] => []
  | fuel + 1, first :: rest =>
    let (chunk, after) := nextChunk bucket (first :: rest)
    let bound := match after with
      | [] => upper
      | next :: _ => next.seq
    ⟨bound, .fingerprint (fingerprint chunk)⟩ :: splitLoop bucket upper fuel after

/-- `split_bounded`. -/
def splitBounded (items : List Item) (upper budget : Nat) : List (Range F) :=
  let factor := min splitFactor (max budget 1)
  if factor = 1 then
    if items.length ≤ maxIdsPerRange then [⟨upper, .idList (idsOf items)⟩]
    else [⟨upper, .fingerprint (fingerprint items)⟩]
  else
    let bucket := bucketSize items.length factor
    let ranges := splitLoop fingerprint bucket upper items.length items
    if ranges.length = 1 ∧ idlistLimit < items.length ∧ items.length ≤ maxIdsPerRange then
      [⟨upper, .idList (idsOf items)⟩]
    else ranges

/-- `split`. -/
def split (items : List Item) (upper : Nat) : List (Range F) :=
  splitBounded fingerprint items upper splitFactor

/-- `initiate`: the client's opening message. -/
def initiate (items : List Item) : Message F :=
  if items.length ≤ idlistLimit then ⟨[⟨infinity, .idList (idsOf items)⟩]⟩
  else ⟨split fingerprint items infinity⟩

/-- How either role answers a span that is not settled: by its ids if it holds few items
there, and by splitting it otherwise. -/
def narrow (mine : List Item) (upper budget : Nat) : List (Range F) :=
  if mine.length ≤ idlistLimit then [⟨upper, .idList (idsOf mine)⟩]
  else splitBounded fingerprint mine upper budget

/-- The loop over the spans of a message. An arm answers one span within a budget, with
ranges and with what it found there. -/
def overSpans {α : Type} (arm : Nat → Nat → Range F → List (Range F) × α) (built : Nat) :
    List (Nat × Range F) → List (Range F) × List α
  | [] => ([], [])
  | (lower, range) :: rest =>
    let here := arm (spanBudget built (rest.length + 1)) lower range
    let later := overSpans arm (built + here.1.length) rest
    (here.1 ++ later.1, here.2 :: later.2)

/-- What the relay decided about one round. -/
structure Response (F : Type) where
  reply : Message F
  push : List Id
  deriving DecidableEq

/-- One span of the relay's answer, and the ids to push. -/
def respondSpan (items : List Item) (budget lower : Nat) (range : Range F) :
    List (Range F) × List Id :=
  let mine := itemsIn items lower range.upper
  match range.mode with
  | .skip => ([⟨range.upper, .skip⟩], [])
  | .fingerprint theirs =>
    if fingerprint mine = theirs then ([⟨range.upper, .skip⟩], [])
    else (narrow fingerprint mine range.upper budget, [])
  | .idList theirs =>
    let ours := idsOf mine
    let push := ours.filter (fun id => id ∉ theirs)
    if theirs.all (fun id => id ∈ ours) then ([⟨range.upper, .skip⟩], push)
    else (narrow fingerprint mine range.upper budget, push)

/-- `respond`: the relay's answer to one round. -/
def respond (items : List Item) (incoming : Message F) : Response F :=
  let answer := overSpans (respondSpan fingerprint items) 0 incoming.spans
  ⟨⟨answer.1⟩, sortDedup answer.2.flatten⟩

/-- What the client decided about one round. -/
structure ClientStep (F : Type) where
  reply : Option (Message F)
  want : List Id
  send : List Id
  deriving DecidableEq

/-- What the client finds in one span. -/
structure Found where
  want : List Id
  send : List Id
  saysSomething : Bool
  deriving DecidableEq

/-- One span of the client's answer. -/
def advanceSpan (items : List Item) (budget lower : Nat) (range : Range F) :
    List (Range F) × Found :=
  let mine := itemsIn items lower range.upper
  match range.mode with
  | .skip => ([⟨range.upper, .skip⟩], ⟨[], [], false⟩)
  | .fingerprint theirs =>
    if fingerprint mine = theirs then ([⟨range.upper, .skip⟩], ⟨[], [], false⟩)
    else (narrow fingerprint mine range.upper budget, ⟨[], [], true⟩)
  | .idList theirs =>
    let ours := idsOf mine
    let want := theirs.filter (fun id => id ∉ ours)
    let send := ours.filter (fun id => id ∉ theirs)
    if ours.all (fun id => id ∈ theirs) ∧ theirs.all (fun id => id ∈ ours) then
      ([⟨range.upper, .skip⟩], ⟨want, send, false⟩)
    else (narrow fingerprint mine range.upper budget, ⟨want, send, true⟩)

/-- `advance`: the client's answer to one round. -/
def advance (items : List Item) (incoming : Message F) : ClientStep F :=
  let answer := overSpans (advanceSpan fingerprint items) 0 incoming.spans
  { reply := if answer.2.any (·.saysSomething) then some ⟨answer.1⟩ else none
    want := sortDedup (answer.2.flatMap (·.want))
    send := sortDedup (answer.2.flatMap (·.send)) }

end Roles

/-! ### Splitting -/

/-- A nonempty first part of the items, full unless it is all of them, that shares no
sequence number with what follows; and not more than full if no two items share one. -/
structure IsChunk (bucket : Nat) (items chunk after : List Item) : Prop where
  parts : items = chunk ++ after
  nonempty : chunk ≠ []
  filled : after ≠ [] → bucket ≤ chunk.length
  apart : ∀ a ∈ chunk, ∀ b ∈ after, a.seq < b.seq
  least : Ascending items → chunk.length ≤ bucket

section Split

variable {xs : List Item} {bk : Nat}

/-- No item widens a bucket where no two share a sequence number. -/
theorem nextChunk_of_ascending (bk : Nat) (h : Ascending xs) :
    nextChunk bk xs = (xs.take bk, xs.drop bk) := by
  have hnone : ∀ item ∈ xs.drop bk,
      ((xs.take bk).getLast?.map (·.seq) == some item.seq) = false := by
    intro item hi
    cases hlast : (xs.take bk).getLast? with
    | none => rfl
    | some last =>
      rw [← take_append_drop bk xs] at h
      have hlt := (pairwise_append.mp h).2.2 last (mem_of_getLast? hlast) item hi
      simpa using ne_of_lt hlt
  cases hdrop : xs.drop bk with
  | nil => simp [nextChunk, hdrop]
  | cons next tail =>
    have hnext := hnone next (by rw [hdrop]; exact mem_cons_self)
    simp [nextChunk, hdrop, hnext]

theorem isChunk_nextChunk (hbucket : 0 < bk) (hne : xs ≠ []) (hsort : Sorted xs) :
    IsChunk bk xs (nextChunk bk xs).1 (nextChunk bk xs).2 := by
  have htaken : xs.take bk ≠ [] := by
    rw [Ne, take_eq_nil_iff, not_or]
    exact ⟨Nat.pos_iff_ne_zero.mp hbucket, hne⟩
  have hsplit : xs.take bk ++ xs.drop bk = xs := take_append_drop _ _
  obtain ⟨last, hlast⟩ := Option.isSome_iff_exists.mp (getLast?_isSome.mpr htaken)
  obtain ⟨init, hinit⟩ := getLast?_eq_some_iff.mp hlast
  have hacross := hsort
  rw [← hsplit] at hacross
  obtain ⟨hfirst, hr, hcross⟩ := pairwise_append.mp hacross
  have hmem : last ∈ xs.take bk := mem_of_getLast? hlast
  have htop : ∀ a ∈ xs.take bk, a.seq ≤ last.seq := by
    intro a ha
    rw [hinit] at hfirst ha
    rcases mem_append.mp ha with ha | ha
    · exact (pairwise_append.mp hfirst).2.2 a ha last mem_cons_self
    · rw [mem_singleton.mp ha]
  have hleast : Ascending xs → (nextChunk bk xs).1.length ≤ bk := by
    intro hasc
    rw [nextChunk_of_ascending bk hasc]
    exact length_take_le _ _
  simp only [nextChunk, hlast, Option.map_some] at hleast ⊢
  refine ⟨?_, ?_, ?_, ?_, hleast⟩
  · rw [append_assoc, takeWhile_append_dropWhile, hsplit]
  · simp [htaken]
  · intro hafter
    have hlonger : xs.drop bk ≠ [] := by
      intro hnil
      rw [hnil] at hafter
      exact hafter rfl
    have hlen : bk ≤ xs.length := by
      by_contra hlt
      exact hlonger (drop_eq_nil_iff.mpr (by omega))
    rw [length_append, length_take_of_le hlen]
    omega
  · intro a ha b hb
    have hbelow : a.seq ≤ last.seq := by
      rcases mem_append.mp ha with ha | ha
      · exact htop a ha
      · have hshares := mem_takeWhile_imp ha
        simp only [beq_iff_eq, Option.some.injEq] at hshares
        exact le_of_eq hshares.symm
    -- The first item after the chunk does not share the last sequence number, and the
    -- others come after it.
    refine lt_of_le_of_lt hbelow ?_
    cases hdrop : (xs.drop bk).dropWhile (some last.seq == some ·.seq) with
    | nil =>
      rw [hdrop] at hb
      cases hb
    | cons next tail =>
      have hhead : ¬ (some last.seq == some next.seq) = true := by
        have hnot := head?_dropWhile_not
          (fun item : Item => some last.seq == some item.seq) (xs.drop bk)
        rw [hdrop] at hnot
        simpa using hnot
      have hsub : (next :: tail).Sublist (xs.drop bk) :=
        hdrop ▸ dropWhile_sublist _
      have hnext : last.seq < next.seq := by
        refine lt_of_le_of_ne (hcross last hmem next (hsub.subset mem_cons_self)) ?_
        simpa using hhead
      rw [hdrop] at hb
      rcases mem_cons.mp hb with rfl | hb
      · exact hnext
      · exact lt_of_lt_of_le hnext ((pairwise_cons.mp (hr.sublist hsub)).1 b hb)

end Split

/-- The range tells what the holder has in the span. -/
def Describes {F : Type} (fingerprint : List Item → F) (holder : List Item) (lo : Nat)
    (range : Range F) : Prop :=
  match range.mode with
  | .skip => False
  | .fingerprint value => value = fingerprint (itemsIn holder lo range.upper)
  | .idList ids => ids = idsOf (itemsIn holder lo range.upper)

section Loops

variable {F : Type} {fp : List Item → F} {holder : List Item} {bk lo hi : Nat}

/-- One pass of the splitting loop. -/
theorem splitLoop_pass (fp : List Item → F) (hi : Nat) (hbucket : 0 < bk)
    (fuel : Nat) {xs : List Item} (hne : xs ≠ []) (hsort : Sorted xs) :
    ∃ chunk t bound, IsChunk bk xs chunk t ∧
      (t = [] ∧ bound = hi ∨ ∃ next tail, t = next :: tail ∧ bound = next.seq) ∧
      splitLoop fp bk hi (fuel + 1) xs = ⟨bound, .fingerprint (fp chunk)⟩ ::
          splitLoop fp bk hi fuel t := by
  have hchunk := isChunk_nextChunk hbucket hne hsort
  cases xs with
  | nil => exact absurd rfl hne
  | cons first rest =>
    cases ha : (nextChunk bk (first :: rest)).2 with
    | nil =>
      refine ⟨_, _, hi, hchunk, .inl ⟨ha, rfl⟩, ?_⟩
      simp only [splitLoop, ha]
    | cons next tail =>
      refine ⟨_, _, next.seq, hchunk, .inr ⟨next, tail, ha, rfl⟩, ?_⟩
      simp only [splitLoop, ha]

@[simp] theorem splitLoop_nil (fuel : Nat) : splitLoop fp bk hi fuel [] = [] := by
  cases fuel <;> rfl

/-- A pass over the items of a span takes all of them, or cuts the span after a bucket. -/
theorem splitLoop_cut (fp : List Item → F) (hbucket : 0 < bk)
    (hholder : Sorted holder) (fuel : Nat) (hne : itemsIn holder lo hi ≠ []) :
    (Ascending holder → (itemsIn holder lo hi).length ≤ bk) ∧
        splitLoop fp bk hi (fuel + 1) (itemsIn holder lo hi) =
          [⟨hi, .fingerprint (fp (itemsIn holder lo hi))⟩] ∨
      ∃ mid, lo < mid ∧ mid < hi ∧ itemsIn holder mid hi ≠ [] ∧
        itemsIn holder lo hi = itemsIn holder lo mid ++ itemsIn holder mid hi ∧
        bk ≤ (itemsIn holder lo mid).length ∧
        (Ascending holder → (itemsIn holder lo mid).length ≤ bk) ∧
        splitLoop fp bk hi (fuel + 1) (itemsIn holder lo hi) =
          ⟨mid, .fingerprint (fp (itemsIn holder lo mid))⟩ ::
            splitLoop fp bk hi fuel (itemsIn holder mid hi) := by
  have hsort : Sorted (itemsIn holder lo hi) := hholder.sublist (itemsIn_sublist _ _ _)
  obtain ⟨chunk, t, bound, hchunk, hbound, hpass⟩ :=
    splitLoop_pass fp hi hbucket fuel hne hsort
  have hparts := hchunk.parts
  have hleast : Ascending holder → chunk.length ≤ bk :=
    fun hasc => hchunk.least (hasc.sublist (itemsIn_sublist _ _ _))
  rcases hbound with ⟨rfl, rfl⟩ | ⟨next, tail, rfl, rfl⟩
  · rw [append_nil] at hparts
    rw [hpass, hparts, splitLoop_nil]
    exact .inl ⟨hleast, rfl⟩
  · have hbounds : ∀ item ∈ itemsIn holder lo hi, lo ≤ item.seq ∧ item.seq < hi :=
      fun item hitem => ((mem_itemsIn hholder).mp hitem).2
    have hnext := hbounds next (by rw [hparts]; simp)
    obtain ⟨first, hfirst⟩ := exists_mem_of_ne_nil chunk hchunk.nonempty
    have hlow : lo < next.seq :=
      lt_of_le_of_lt (hbounds first (by rw [hparts]; exact mem_append_left _ hfirst)).1
        (hchunk.apart first hfirst next mem_cons_self)
    have ha : ∀ item ∈ next :: tail, next.seq ≤ item.seq := by
      rw [hparts] at hsort
      intro item hitem
      rcases mem_cons.mp hitem with rfl | hitem
      · exact le_refl _
      · exact (pairwise_cons.mp (pairwise_append.mp hsort).2.1).1 item hitem
    obtain ⟨hhere, hlater⟩ := itemsIn_cut hholder (le_of_lt hlow) (le_of_lt hnext.2) hparts
      (fun item hitem => hchunk.apart item hitem next mem_cons_self) ha
    refine .inr ⟨next.seq, hlow, hnext.2, ?_⟩
    rw [hhere, hlater]
    exact ⟨cons_ne_nil _ _, hparts, hchunk.filled (cons_ne_nil _ _), hleast, hpass⟩

/-- The loop covers the span it divides, with the fingerprints of what is held there. -/
theorem covers_splitLoop (fp : List Item → F) (hbucket : 0 < bk) (hholder : Sorted holder) :
    ∀ (fuel : Nat) {lo : Nat}, itemsIn holder lo hi ≠ [] →
      (itemsIn holder lo hi).length ≤ fuel → lo < hi →
      Covers Range.upper (fun l r => r.mode = .fingerprint (fp (itemsIn holder l r.upper)))
        lo (splitLoop fp bk hi fuel (itemsIn holder lo hi)) hi
  | 0, _, hne, hfuel, _ => absurd (length_eq_zero_iff.mp (by omega)) hne
  | fuel + 1, lo, hne, hfuel, hlt => by
      rcases splitLoop_cut fp hbucket hholder fuel hne with
        ⟨-, hall⟩ | ⟨mid, hlow, hhigh, hr, hparts, hfilled, -, hpass⟩
      · rw [hall]
        exact Covers.single hlt rfl
      · have hlen := congrArg List.length hparts
        rw [length_append] at hlen
        have hlater := covers_splitLoop fp hbucket hholder fuel hr (by omega) hhigh
        rw [hpass]
        exact Covers.cons hlow rfl hlater

theorem mode_of_mem_splitLoop (fp : List Item → F) (hi : Nat) :
    ∀ (fuel : Nat) {xs : List Item} {r : Range F},
      r ∈ splitLoop fp bk hi fuel xs → ∃ v, r.mode = .fingerprint v
  | 0, _, _, h => by cases h
  | _ + 1, [], _, h => by cases h
  | fuel + 1, _ :: _, _, h => by
      rcases mem_cons.mp h with rfl | h
      · exact ⟨_, rfl⟩
      · exact mode_of_mem_splitLoop fp hi fuel h

/-- Every chunk but the last one is a full bucket. -/
theorem length_splitLoop_le (fp : List Item → F) (hi : Nat) (hbucket : 0 < bk) :
    ∀ (fuel : Nat) {xs : List Item}, Sorted xs →
      (splitLoop fp bk hi fuel xs).length * bk ≤ xs.length + (bk - 1)
  | 0, xs, _ => by simp [splitLoop]
  | fuel + 1, xs, hsort => by
      by_cases hne : xs = []
      · simp [hne]
      · obtain ⟨chunk, t, bound, hchunk, -, hpass⟩ :=
          splitLoop_pass fp hi hbucket fuel hne hsort
        have hpos := length_pos_iff.mpr hchunk.nonempty
        have hparts := hchunk.parts
        subst hparts
        rw [hpass, length_cons, Nat.add_mul, Nat.one_mul, length_append]
        by_cases ha : t = []
        · rw [ha, splitLoop_nil]
          simp only [length_nil]
          omega
        · have hr := length_splitLoop_le fp hi hbucket fuel (pairwise_append.mp hsort).2.1
          have hfull := hchunk.filled ha
          omega

/-- Where no two items share a sequence number, no chunk is more than a bucket. -/
theorem length_le_splitLoop (fp : List Item → F) (hi : Nat) (hbucket : 0 < bk) :
    ∀ (fuel : Nat) {xs : List Item}, Ascending xs → xs.length ≤ fuel →
      xs.length ≤ (splitLoop fp bk hi fuel xs).length * bk
  | 0, xs, _, hfuel => by omega
  | fuel + 1, [], _, _ => by simp
  | fuel + 1, first :: rest, hasc, hfuel => by
      have hchunk := nextChunk_of_ascending bk hasc
      have hlater := length_le_splitLoop fp hi hbucket fuel
        (hasc.sublist (drop_sublist bk (first :: rest)))
        (by rw [length_drop]; omega)
      simp only [splitLoop, hchunk, length_cons, Nat.add_mul, Nat.one_mul]
      rw [length_drop, length_cons] at hlater
      omega

end Loops

section Buckets

variable (n : Nat) {factor : Nat}

theorem bucketSize_pos (factor : Nat) : 0 < bucketSize n factor :=
  lt_of_lt_of_le Nat.one_pos (le_max_right _ _)

theorem le_mul_bucketSize (hfactor : 0 < factor) : n ≤ factor * bucketSize n factor := by
  have hdiv : n ≤ factor * ((n + factor - 1) / factor) := by
    have hmod := Nat.mod_lt (n + factor - 1) hfactor
    have hsplit := Nat.div_add_mod (n + factor - 1) factor
    omega
  exact le_trans hdiv (Nat.mul_le_mul_left _ (le_max_left _ _))

theorem bucketSize_lt {n : Nat} (hn : 1 < n) (hfactor : 2 ≤ factor) : bucketSize n factor < n := by
  refine max_lt ?_ hn
  rw [Nat.div_lt_iff_lt_mul (by omega)]
  obtain ⟨more, rfl⟩ := Nat.exists_eq_add_of_le hfactor
  have hmore : more ≤ n * more := Nat.le_mul_of_pos_left more (by omega)
  rw [Nat.mul_add]
  omega

end Buckets

section SplitBounded

variable {F : Type} (fp : List Item → F) {holder xs : List Item} {lo hi : Nat}

theorem covers_splitBounded (hholder : Sorted holder) (hlt : lo < hi)
    (hne : itemsIn holder lo hi ≠ []) (b : Nat) :
    Covers Range.upper (Describes fp holder) lo
      (splitBounded fp (itemsIn holder lo hi) hi b) hi := by
  have hids : Covers Range.upper (Describes fp holder) lo
      [⟨hi, .idList (idsOf (itemsIn holder lo hi))⟩] hi := .single hlt rfl
  simp only [splitBounded]
  split_ifs
  · exact hids
  · exact .single hlt rfl
  · exact hids
  · refine (covers_splitLoop fp (bucketSize_pos _ _) hholder _ hne (le_refl _) hlt).mono ?_
    intro l r _ hm
    simp only [Describes, hm]

/-- A split has no more ranges than the factor it divides by. -/
theorem length_splitBounded_le_factor (hsort : Sorted xs) (hi b : Nat) :
    (splitBounded fp xs hi b).length ≤ min splitFactor (max b 1) := by
  have hfactor : 1 ≤ min splitFactor (max b 1) := le_min (by decide) (le_max_right _ _)
  simp only [splitBounded]
  generalize min splitFactor (max b 1) = factor at hfactor ⊢
  split_ifs
  · exact hfactor
  · exact hfactor
  · exact hfactor
  · have hn := length_splitLoop_le fp hi (bucketSize_pos xs.length factor) xs.length hsort
    have hitems := le_mul_bucketSize xs.length hfactor
    have hpos := bucketSize_pos xs.length factor
    refine Nat.le_of_lt_succ (Nat.lt_of_mul_lt_mul_right (lt_of_le_of_lt hn ?_))
    rw [Nat.succ_mul]
    omega

theorem length_splitBounded_le (hsort : Sorted xs) (hi b : Nat) :
    (splitBounded fp xs hi b).length ≤ max b 1 :=
  le_trans (length_splitBounded_le_factor fp hsort hi b) (min_le_right _ _)

theorem splitBounded_of_le_one (xs : List Item) (hi : Nat) {b : Nat} (hbudget : b ≤ 1) :
    splitBounded fp xs hi b = if xs.length ≤ maxIdsPerRange then [⟨hi, .idList (idsOf xs)⟩]
      else [⟨hi, .fingerprint (fp xs)⟩] := by
  have hfactor : min splitFactor (max b 1) = 1 := by
    rw [max_eq_right hbudget]
    rfl
  simp only [splitBounded, hfactor, if_true]

/-- A split of more than one item, no two at one sequence number, divides them. -/
theorem two_le_length_splitBounded (hasc : Ascending xs) (hmany : 1 < xs.length)
    (hi : Nat) {b : Nat} (hbudget : 2 ≤ b) :
    2 ≤ (splitBounded fp xs hi b).length ∧
      ∀ r ∈ splitBounded fp xs hi b, ∃ v, r.mode = .fingerprint v := by
  have hfactor : 2 ≤ min splitFactor (max b 1) :=
    le_min (by decide) (le_trans hbudget (le_max_left _ _))
  simp only [splitBounded]
  generalize min splitFactor (max b 1) = factor at hfactor ⊢
  have hn := length_le_splitLoop fp hi (bucketSize_pos xs.length factor) xs.length hasc (le_refl _)
  have hbucket := bucketSize_lt hmany hfactor
  have htwo : 2 ≤ (splitLoop fp (bucketSize xs.length factor) hi xs.length xs).length := by
    by_contra hless
    have hsmall : (splitLoop fp (bucketSize xs.length factor) hi xs.length
        xs).length * bucketSize xs.length factor ≤ 1 * bucketSize xs.length factor :=
      Nat.mul_le_mul_right _ (by omega)
    omega
  rw [if_neg (by omega), if_neg (by omega)]
  exact ⟨htwo, fun r hrange => mode_of_mem_splitLoop fp hi _ hrange⟩

theorem splitBounded_ne_nil (hne : xs ≠ []) (hi b : Nat) : splitBounded fp xs hi b ≠ [] := by
  simp only [splitBounded]
  split_ifs
  · exact cons_ne_nil _ _
  · exact cons_ne_nil _ _
  · exact cons_ne_nil _ _
  · cases xs with
    | nil => exact absurd rfl hne
    | cons first rest => exact cons_ne_nil _ _

theorem covers_narrow (hholder : Sorted holder) (hlt : lo < hi) (b : Nat) :
    Covers Range.upper (Describes fp holder) lo (narrow fp (itemsIn holder lo hi) hi b) hi := by
  rw [narrow]
  split_ifs with hfew
  · exact .single hlt rfl
  · refine covers_splitBounded fp hholder hlt ?_ b
    intro hnil
    exact hfew (by rw [hnil]; exact Nat.zero_le _)

theorem length_narrow_le (hsort : Sorted xs) (hi b : Nat) :
    (narrow fp xs hi b).length ≤ max b 1 := by
  rw [narrow]
  split_ifs
  · exact le_max_right _ _
  · exact length_splitBounded_le fp hsort hi b

theorem narrow_ne_nil (xs : List Item) (hi b : Nat) : narrow fp xs hi b ≠ [] := by
  rw [narrow]
  split_ifs with hfew
  · exact cons_ne_nil _ _
  · refine splitBounded_ne_nil fp ?_ hi b
    rintro rfl
    exact hfew (Nat.zero_le _)

end SplitBounded

/-! ### One span -/

section Spans

variable {F : Type} (fingerprint : List Item → F) (items : List Item) (lower : Nat)
  (range : Range F)

/-- The relay holds everything the client says it has in the span. -/
def RelaySettles : Prop :=
  match range.mode with
  | .skip => True
  | .fingerprint theirs => fingerprint (itemsIn items lower range.upper) = theirs
  | .idList theirs => ∀ id ∈ theirs, id ∈ idsOf (itemsIn items lower range.upper)

/-- The client holds exactly what the relay says it has in the span. -/
def ClientSettles : Prop :=
  match range.mode with
  | .skip => True
  | .fingerprint theirs => fingerprint (itemsIn items lower range.upper) = theirs
  | .idList theirs => ∀ id, id ∈ idsOf (itemsIn items lower range.upper) ↔ id ∈ theirs

/-- The ids of the span that a list in the range does not name; either role sends them. -/
def unnamed : List Id :=
  match range.mode with
  | .idList theirs => (idsOf (itemsIn items lower range.upper)).filter (fun id => id ∉ theirs)
  | _ => []

variable {fingerprint items lower range} {id : Id} (b : Nat)

theorem exists_of_mem_unnamed (h : id ∈ unnamed items lower range) :
    ∃ item ∈ itemsIn items lower range.upper, item.id = id := by
  cases hm : range.mode with
  | skip | fingerprint => simp [unnamed, hm] at h
  | idList theirs =>
    simp only [unnamed, hm, mem_filter, mem_idsOf] at h
    exact h.1

theorem mem_unnamed (hsort : Sorted items) :
    id ∈ unnamed items lower range ↔ ∃ theirs, range.mode = .idList theirs ∧ id ∉ theirs ∧
      ∃ item ∈ items, lower ≤ item.seq ∧ item.seq < range.upper ∧ item.id = id := by
  cases hm : range.mode with
  | skip | fingerprint => simp [unnamed, hm]
  | idList theirs =>
    simp only [unnamed, hm, mem_filter, mem_idsOf, mem_itemsIn hsort,
      decide_eq_true_eq, Mode.idList.injEq, exists_eq_left']
    constructor
    · rintro ⟨⟨item, ⟨hi, hlo, hhi⟩, hid⟩, hnot⟩
      exact ⟨hnot, item, hi, hlo, hhi, hid⟩
    · rintro ⟨hnot, item, hi, hlo, hhi, hid⟩
      exact ⟨⟨item, ⟨hi, hlo, hhi⟩, hid⟩, hnot⟩

variable [DecidableEq F]

@[simp] theorem respondSpan_push :
    (respondSpan fingerprint items b lower range).2 = unnamed items lower range := by
  cases hm : range.mode with
  | skip => simp only [respondSpan, unnamed, hm]
  | fingerprint | idList =>
    simp only [respondSpan, unnamed, hm]
    split <;> rfl

open Classical in
theorem respondSpan_fst : (respondSpan fingerprint items b lower range).1 =
    if RelaySettles fingerprint items lower range then [⟨range.upper, .skip⟩]
    else narrow fingerprint (itemsIn items lower range.upper) range.upper b := by
  cases hm : range.mode with
  | skip | fingerprint | idList => simp [respondSpan, RelaySettles, hm, apply_ite Prod.fst]

theorem respondSpan_settled (h : RelaySettles fingerprint items lower range) (b : Nat) :
    (respondSpan fingerprint items b lower range).1 = [⟨range.upper, .skip⟩] := by
  rw [respondSpan_fst, if_pos h]

theorem respondSpan_narrows (h : ¬ RelaySettles fingerprint items lower range) (b : Nat) :
    (respondSpan fingerprint items b lower range).1 =
      narrow fingerprint (itemsIn items lower range.upper) range.upper b := by
  rw [respondSpan_fst, if_neg h]

@[simp] theorem advanceSpan_send :
    (advanceSpan fingerprint items b lower range).2.send = unnamed items lower range := by
  cases hm : range.mode with
  | skip => simp only [advanceSpan, unnamed, hm]
  | fingerprint | idList =>
    simp only [advanceSpan, unnamed, hm]
    split <;> rfl

/-- Each side lists the other's ids when the two have the same. -/
theorem all_mem_iff {ours theirs : List Id} :
    (ours.all (· ∈ theirs) = true ∧ theirs.all (· ∈ ours) = true) ↔
      ∀ id, id ∈ ours ↔ id ∈ theirs := by
  simp [iff_def, forall_and]

open Classical in
theorem advanceSpan_fst : (advanceSpan fingerprint items b lower range).1 =
    if ClientSettles fingerprint items lower range then [⟨range.upper, .skip⟩]
    else narrow fingerprint (itemsIn items lower range.upper) range.upper b := by
  cases hm : range.mode with
  | skip | fingerprint => simp [advanceSpan, ClientSettles, hm, apply_ite Prod.fst]
  | idList => simp only [advanceSpan, ClientSettles, hm, all_mem_iff, apply_ite Prod.fst]

theorem advanceSpan_settled (h : ClientSettles fingerprint items lower range) (b : Nat) :
    (advanceSpan fingerprint items b lower range).1 = [⟨range.upper, .skip⟩] := by
  rw [advanceSpan_fst, if_pos h]

theorem advanceSpan_narrows (h : ¬ ClientSettles fingerprint items lower range) (b : Nat) :
    (advanceSpan fingerprint items b lower range).1 =
      narrow fingerprint (itemsIn items lower range.upper) range.upper b := by
  rw [advanceSpan_fst, if_neg h]

theorem saysSomething_eq_false_iff :
    (advanceSpan fingerprint items b lower range).2.saysSomething = false ↔
      ClientSettles fingerprint items lower range := by
  cases hm : range.mode with
  | skip => simp [advanceSpan, ClientSettles, hm]
  | fingerprint | idList =>
    simp only [advanceSpan, ClientSettles, hm, all_mem_iff]
    split
    next h => exact ⟨fun _ => h, fun _ => rfl⟩
    next h => exact ⟨nofun, fun hall => absurd hall h⟩

end Spans

/-! ### The loop over the spans -/

section OverSpans

variable {F α : Type} {arm : Nat → Nat → Range F → List (Range F) × α}

/-- The part is what an arm made of a span, within a budget. A message that fills up
leaves its last spans a budget of one, and a full message gives no span more. -/
def Answers (arm : Nat → Nat → Range F → List (Range F) × α) (incoming total lower : Nat)
    (range : Range F) (part : List (Range F)) : Prop :=
  ∃ budget, 1 ≤ budget ∧ (budget = 1 → maxRanges ≤ total) ∧
    (maxRanges ≤ incoming → budget = 1) ∧ part = (arm budget lower range).1

theorem length_le_overSpans (hne : ∀ b lo r, (arm b lo r).1 ≠ []) :
    ∀ (spans : List (Nat × Range F)) (built : Nat),
      spans.length ≤ (overSpans arm built spans).1.length
  | [], _ => Nat.zero_le _
  | (lo, r) :: rest, built => by
      simp only [overSpans, length_append, length_cons]
      have hhere := length_pos_iff.mpr (hne (spanBudget built (rest.length + 1)) lo r)
      have hlater := length_le_overSpans hne rest
        (built + (arm (spanBudget built (rest.length + 1)) lo r).1.length)
      omega

theorem overSpans_length_le (hle : ∀ b lo r, (arm b lo r).1.length ≤ max b 1) :
    ∀ (spans : List (Nat × Range F)) (built : Nat), built + spans.length ≤ maxRanges →
      built + (overSpans arm built spans).1.length ≤ maxRanges
  | [], _, hfits => hfits
  | (lo, r) :: rest, built, hfits => by
      rw [length_cons] at hfits
      have hhere := hle (spanBudget built (rest.length + 1)) lo r
      have hlater := overSpans_length_le hle rest
        (built + (arm (spanBudget built (rest.length + 1)) lo r).1.length)
        (by simp only [spanBudget] at hhere ⊢; omega)
      simp only [overSpans, length_append]
      omega

theorem refines_overSpans (hne : ∀ b lo r, (arm b lo r).1 ≠ []) :
    ∀ (rs : List (Range F)) (lo built : Nat), Refines Range.upper (Answers arm (built + rs.length)
          (built + (overSpans arm built (spans Range.upper lo rs)).1.length))
        lo rs (overSpans arm built (spans Range.upper lo rs)).1
  | [], lo, _ => Refines.nil lo
  | r :: rest, lo, built => by
      simp only [spans, overSpans, length_spans, length_append, length_cons]
      have hpos := length_pos_iff.mpr (hne (spanBudget built (rest.length + 1)) lo r)
      have hmore := length_le_overSpans hne (spans Range.upper r.upper rest)
        (built + (arm (spanBudget built (rest.length + 1)) lo r).1.length)
      rw [length_spans] at hmore
      refine Refines.cons ⟨spanBudget built (rest.length + 1), le_max_right _ _, ?_, ?_, rfl⟩ ?_
      · simp only [spanBudget] at *
        omega
      · simp only [spanBudget]
        omega
      · refine (refines_overSpans hne rest r.upper _).mono ?_
        rintro l p part ⟨b, hone, hfull, htight, hp⟩
        exact ⟨b, hone, fun h => by have := hfull h; omega, fun h => htight (by omega), hp⟩

theorem overSpans_found (found : Nat → Range F → α) (hf : ∀ b lo r, (arm b lo r).2 = found lo r) :
    ∀ (spans : List (Nat × Range F)) (built : Nat),
      (overSpans arm built spans).2 = spans.map (fun span => found span.1 span.2)
  | [], _ => rfl
  | (lo, r) :: rest, built => by
      simp only [overSpans, map_cons, hf, overSpans_found found hf rest]

end OverSpans

/-- Either role's arm skips the spans it settles and narrows the others. -/
def Narrows {F α : Type} (fingerprint : List Item → F) (items : List Item)
    (arm : Nat → Nat → Range F → List (Range F) × α) : Prop :=
  ∀ budget lower range, (arm budget lower range).1 = [⟨range.upper, .skip⟩] ∨
    (arm budget lower range).1 =
      narrow fingerprint (itemsIn items lower range.upper) range.upper budget

section Narrowing

variable {F α : Type} {fp : List Item → F} {xs : List Item}
  {arm : Nat → Nat → Range F → List (Range F) × α} {inc : Message F} {lo : Nat}
  {r : Range F}

variable (h : Narrows fp xs arm)
include h

theorem Narrows.ne_nil (b lo : Nat) (r : Range F) : (arm b lo r).1 ≠ [] := by
  rcases h b lo r with hskip | hnarrow
  · rw [hskip]
    exact cons_ne_nil _ _
  · rw [hnarrow]
    exact narrow_ne_nil fp _ _ _

theorem Narrows.refines (inc : Message F) : Refines Range.upper
      (Answers arm inc.ranges.length (overSpans arm 0 inc.spans).1.length)
      0 inc.ranges (overSpans arm 0 inc.spans).1 := by
  have hall := refines_overSpans h.ne_nil inc.ranges 0 0
  rw [Nat.zero_add, Nat.zero_add] at hall
  exact hall

theorem Narrows.le_length (inc : Message F) :
    inc.ranges.length ≤ (overSpans arm 0 inc.spans).1.length := by
  refine (h.refines inc).length_le ?_
  rintro lo r part ⟨b, -, -, -, rfl⟩
  exact h.ne_nil b lo r

theorem Narrows.length_le (hsort : Sorted xs) (hlen : inc.ranges.length ≤ maxRanges) :
    (overSpans arm 0 inc.spans).1.length ≤ maxRanges := by
  have hle : ∀ b lo r, (arm b lo r).1.length ≤ max b 1 := by
    intro b lo r
    rcases h b lo r with hskip | hnarrow
    · rw [hskip]
      exact le_max_right _ _
    · rw [hnarrow]
      exact length_narrow_le fp (hsort.sublist (itemsIn_sublist _ _ _)) _ _
  have hall := overSpans_length_le hle inc.spans 0 (by simpa [Message.spans] using hlen)
  rw [Nat.zero_add] at hall
  exact hall

theorem Narrows.covers (hsort : Sorted xs) (hlt : lo < r.upper) (b : Nat) :
    Covers Range.upper (fun _ _ => True) lo (arm b lo r).1 r.upper := by
  rcases h b lo r with hskip | hnarrow
  · rw [hskip]
    exact .single hlt trivial
  · rw [hnarrow]
    exact (covers_narrow fp hsort hlt b).mono fun _ _ _ _ => trivial

/-- The answer to one span of a full message, in its place in the reply. -/
theorem Narrows.at_span (hsort : Sorted xs)
    {P : Nat → Range F → Prop} {hi : Nat} (hcover : Covers Range.upper P 0 inc.ranges hi)
    (hspan : (lo, r) ∈ inc.spans) (hfull : maxRanges ≤ inc.ranges.length) :
    ∀ span ∈ spans Range.upper lo (arm 1 lo r).1,
      span ∈ spans Range.upper 0 (overSpans arm 0 inc.spans).1 := by
  have hrefines := ((h.refines inc).along hcover).localise
    (S := fun span => span ∈ spans Range.upper 0 (overSpans arm 0 inc.spans).1)
    (P := fun _ _ => True) ?_ (fun _ hmem => hmem)
  · obtain ⟨part, ⟨⟨b, -, -, htight, rfl⟩, -⟩, hspans⟩ := hrefines.at_span hspan
    rw [htight hfull] at hspans
    exact hspans
  · rintro l p part ⟨⟨b, -, -, -, rfl⟩, hlt, -⟩
    exact h.covers hsort hlt b

end Narrowing

section Rounds

variable {F : Type} [DecidableEq F] (fingerprint : List Item → F) (items : List Item)
  (incoming : Message F)

theorem narrows_respondSpan : Narrows fingerprint items (respondSpan fingerprint items) := by
  intro b lo r
  by_cases h : RelaySettles fingerprint items lo r
  · exact .inl (respondSpan_settled h b)
  · exact .inr (respondSpan_narrows h b)

theorem narrows_advanceSpan : Narrows fingerprint items (advanceSpan fingerprint items) := by
  intro b lo r
  by_cases h : ClientSettles fingerprint items lo r
  · exact .inl (advanceSpan_settled h b)
  · exact .inr (advanceSpan_narrows h b)

/-- The ranges of the client's answer, sent or not. -/
def advanceRanges : List (Range F) :=
  (overSpans (advanceSpan fingerprint items) 0 incoming.spans).1

theorem respond_refines : Refines Range.upper
      (Answers (respondSpan fingerprint items) incoming.ranges.length
        (respond fingerprint items incoming).reply.ranges.length)
      0 incoming.ranges (respond fingerprint items incoming).reply.ranges :=
  (narrows_respondSpan fingerprint items).refines incoming

theorem advance_refines : Refines Range.upper
      (Answers (advanceSpan fingerprint items) incoming.ranges.length
        (advanceRanges fingerprint items incoming).length)
      0 incoming.ranges (advanceRanges fingerprint items incoming) :=
  (narrows_advanceSpan fingerprint items).refines incoming

variable {fingerprint items incoming} {id : Id}

theorem mem_push : id ∈ (respond fingerprint items incoming).push ↔
      ∃ lo r, (lo, r) ∈ incoming.spans ∧ id ∈ unnamed items lo r := by
  have hf : (overSpans (respondSpan fingerprint items) 0 incoming.spans).2 =
      incoming.spans.map (fun span => unnamed items span.1 span.2) :=
    overSpans_found (unnamed items) (fun b _ _ => respondSpan_push b) _ _
  simp [respond, hf]

/-- A span's client answer, apart from the ranges, does not depend on its budget. -/
theorem advance_found : (overSpans (advanceSpan fingerprint items) 0 incoming.spans).2 =
      incoming.spans.map (fun span => (advanceSpan fingerprint items 1 span.1 span.2).2) := by
  refine overSpans_found (fun lo r => (advanceSpan fingerprint items 1 lo r).2) ?_ _ _
  intro b lo r
  cases hm : r.mode with
  | skip => simp only [advanceSpan, hm]
  | fingerprint | idList =>
    simp only [advanceSpan, hm]
    split <;> rfl

theorem mem_send : id ∈ (advance fingerprint items incoming).send ↔
      ∃ lo r, (lo, r) ∈ incoming.spans ∧ id ∈ unnamed items lo r := by
  simp [advance, advance_found]

omit [DecidableEq F] in
/-- Where a role has nothing to send, no span leaves an id of its own unnamed. -/
theorem unnamed_eq_nil {ids : List Id} (hmem : ∀ {id}, id ∈ ids ↔
      ∃ lo r, (lo, r) ∈ incoming.spans ∧ id ∈ unnamed items lo r)
    (h : ids = []) {lo : Nat} {r : Range F} (hspan : (lo, r) ∈ incoming.spans) :
    unnamed items lo r = [] := by
  refine eq_nil_iff_forall_not_mem.mpr fun id hid => ?_
  have hin := hmem.mpr ⟨lo, r, hspan, hid⟩
  rw [h] at hin
  cases hin

theorem advance_reply_eq_none_iff : (advance fingerprint items incoming).reply = none ↔
      ∀ lo r, (lo, r) ∈ incoming.spans → ClientSettles fingerprint items lo r := by
  simp only [advance, advance_found, any_map]
  constructor
  · intro hnone lo r hspan
    rw [← saysSomething_eq_false_iff 1]
    by_contra htold
    have hany : incoming.spans.any ((fun found : Found => found.saysSomething) ∘
        fun span => (advanceSpan fingerprint items 1 span.1 span.2).2) = true :=
      any_eq_true.mpr ⟨(lo, r), hspan, by simpa using htold⟩
    rw [if_pos hany] at hnone
    cases hnone
  · intro hall
    rw [if_neg]
    intro hany
    obtain ⟨⟨lo, r⟩, hspan, htold⟩ := any_eq_true.mp hany
    have hsilent := (saysSomething_eq_false_iff 1).mpr (hall lo r hspan)
    rw [Function.comp_apply, hsilent] at htold
    cases htold

theorem eq_of_advance_reply {msg : Message F}
    (h : (advance fingerprint items incoming).reply = some msg) :
    msg.ranges = advanceRanges fingerprint items incoming := by
  simp only [advance] at h
  split at h
  · cases h
    rfl
  · cases h

end Rounds

end WealdRelay.Negentropy
