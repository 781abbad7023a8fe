import Mathlib.Data.List.Range
import WealdRelay.Lib.Run

/-!
# The handshake feed of one subscription, in numbers

What one connection receives of one group's handshakes depends on the numbers only: how many
are committed, which publishers have committed and not yet fanned out, what the hub holds back,
and where the replay stands. `Feed` is that state and `Feed.Step` says what may happen to it.
`Handshakes/Delivery.lean` shows that the relay's own state moves so.

A publisher commits and fans out in two steps; the subscriber's own publication is not fanned
out to it but acknowledged with the same frame. A replay reads pages from number zero on while
the hub holds back live frames, and its release queues what is held past the replay's cursor.

* `Feed.Complete`: under what condition nothing committed is left out;
* `Feed.Ordered`: under what condition the numbers ascend;
* `Feed.Unbroken`: under what condition every number comes after all lower ones.
-/

namespace WealdRelay.Handshakes

open Lib List Function

/-- The hub's entry: none, one that holds live frames back, or one that queues them. -/
inductive Entry
  | absent
  | holding (held : List Nat)
  | live
  deriving DecidableEq

/-- Where the subscriber's `SUB` stands. `queueing` has the rest of a page and says whether the
page was short; `releasing` says whether the connection goes on. -/
inductive Position
  | idle
  | reading (cursor : Nat)
  | queueing (cursor : Nat) (rest : List Nat) (short : Bool)
  | releasing (cursor : Nat) (goesOn : Bool)
  | subscribed
  | ended
  deriving DecidableEq

/-- A number that is committed and still to be fanned out or acknowledged; `fresh` unless the
append answered `Duplicate`. -/
structure Pending where
  seq : Nat
  fresh : Bool
  deriving DecidableEq

/-- The feed: the numbers `0, …, count - 1` are committed, `sent` is what was queued. -/
@[ext]
structure Feed (π : Type) where
  count : Nat
  pending : π → Option Pending
  entry : Entry
  sent : List Nat
  position : Position

/-- What a release queues of the numbers it finds held. -/
def released : List Nat → Nat → List Nat
  | [], _ => []
  | seq :: rest, next =>
    if seq < next then released rest next else seq :: released rest (seq + 1)

/-- `HANDSHAKE_REPLAY_PAGE`. -/
def handshakeReplayPage : Nat := 256

/-- Where a replay stands with this much of its page left to queue. -/
def Position.within (cursor : Nat) (rest : List Nat) (short : Bool) : Position :=
  if rest = [] then if short then .releasing cursor true else .reading cursor
  else .queueing cursor rest short

/-- What happens: a publisher's two steps, the answer to the subscriber's own publication, which
is queued or finds no room, a step of its `SUB`, or anything else the relay does. -/
inductive Event (π : Type)
  | commit (p : π) (fresh : Bool)
  | fanout (p : π)
  | acknowledge (p : π) (queued : Bool)
  | register
  | read
  | failRead
  | queue
  | timeOut
  | release
  | elsewhere
  deriving DecidableEq

namespace Feed

variable {π : Type} [DecidableEq π]

/-- The steps of a feed. -/
inductive Step : Feed π → Event π → Feed π → Prop
  | stored {f p} (hidle : f.pending p = none) :
      Step f (.commit p true)
        { f with
          count := f.count + 1
          pending := update f.pending p (some ⟨f.count, true⟩) }
  | resent {f p seq} (hidle : f.pending p = none) (hseq : seq < f.count) :
      Step f (.commit p false)
        { f with pending := update f.pending p (some ⟨seq, false⟩) }
  | fanoutAbsent {f p next} (hpending : f.pending p = some next)
      (hentry : f.entry = .absent) :
      Step f (.fanout p) { f with pending := update f.pending p none }
  | fanoutHeld {f p next held}
      (hpending : f.pending p = some next) (hentry : f.entry = .holding held) :
      Step f (.fanout p)
        { f with
          pending := update f.pending p none
          entry := .holding (held ++ [next.seq]) }
  | fanoutLive {f p next} (hpending : f.pending p = some next)
      (hentry : f.entry = .live) :
      Step f (.fanout p)
        { f with
          pending := update f.pending p none
          sent := f.sent ++ [next.seq] }
  | fanoutEnds {f p next} (hpending : f.pending p = some next) :
      Step f (.fanout p)
        { f with pending := update f.pending p none, entry := .absent }
  | acknowledged {f p next} (hpending : f.pending p = some next) :
      Step f (.acknowledge p true)
        { f with
          pending := update f.pending p none
          sent := f.sent ++ [next.seq] }
  | unacknowledged {f p next} (hpending : f.pending p = some next) :
      Step f (.acknowledge p false)
        { f with pending := update f.pending p none, position := .ended }
  | registerFirst {f} (hposition : f.position = .idle ∨ f.position = .subscribed)
      (hentry : f.entry = .absent) :
      Step f .register { f with entry := .holding [], position := .reading 0 }
  | registerAgain {f} (hposition : f.position = .idle ∨ f.position = .subscribed)
      (hentry : f.entry ≠ .absent) :
      Step f .register { f with position := .reading 0 }
  | read {f cursor size} (hposition : f.position = .reading cursor)
      (hsize : size = min handshakeReplayPage (f.count - cursor)) :
      Step f .read
        { f with
          position := .within (cursor + size) (List.range' cursor size)
            (size < handshakeReplayPage) }
  | failRead {f cursor goesOn} (hposition : f.position = .reading cursor) :
      Step f .failRead { f with position := .releasing cursor goesOn }
  | queue {f cursor seq rest short}
      (hposition : f.position = .queueing cursor (seq :: rest) short) :
      Step f .queue
        { f with
          sent := f.sent ++ [seq]
          position := .within cursor rest short }
  | timeOut {f cursor rest short}
      (hposition : f.position = .queueing cursor rest short) :
      Step f .timeOut { f with position := .releasing cursor false }
  | releaseNothing {f cursor goesOn}
      (hposition : f.position = .releasing cursor goesOn)
      (hentry : ∀ held, f.entry ≠ .holding held) :
      Step f .release { f with position := if goesOn then .subscribed else .ended }
  | releaseAll {f cursor goesOn held}
      (hposition : f.position = .releasing cursor goesOn) (hentry : f.entry = .holding held) :
      Step f .release
        { f with
          entry := .live
          sent := f.sent ++ released held cursor
          position := if goesOn then .subscribed else .ended }
  | releaseEnds {f cursor goesOn held sent}
      (hposition : f.position = .releasing cursor goesOn) (hentry : f.entry = .holding held)
      (hsent : sent <+: released held cursor) :
      Step f .release
        { f with
          entry := .absent
          sent := f.sent ++ sent
          position := if goesOn then .subscribed else .ended }
  | elsewhere {f} : Step f .elsewhere f
  | ends {f} : Step f .elsewhere { f with entry := .absent }

/-! ### What every step keeps -/

end Feed

/-- The cursor of a replay that is under way. -/
def Position.cursor : Position → Option Nat
  | .reading cursor => some cursor
  | .queueing cursor _ _ => some cursor
  | .releasing cursor _ => some cursor
  | _ => none

/-- What is read and still to be queued. -/
def Position.rest : Position → List Nat
  | .queueing _ rest _ => rest
  | _ => []

/-- The replay is among its pages. -/
def Position.paging : Position → Bool
  | .reading _ => true
  | .queueing _ _ _ => true
  | _ => false

/-- The replay has read the log to its end. -/
def Position.caughtUp : Position → Bool
  | .queueing _ _ short => short
  | .releasing _ _ => true
  | .subscribed => true
  | _ => false

section Within

variable (cur : Nat) (rest : List Nat) (short : Bool)

@[simp]
theorem Position.cursor_within : (within cur rest short).cursor = some cur := by
  rw [within]
  split_ifs <;> rfl

@[simp]
theorem Position.rest_within : (within cur rest short).rest = rest := by
  rw [within]
  split_ifs with hrest
  · exact hrest.symm
  · exact hrest.symm
  · rfl

@[simp]
theorem Position.caughtUp_within : (within cur rest short).caughtUp = short := by
  rw [within]
  split_ifs with _ hshort
  · exact hshort.symm
  · exact (Bool.eq_false_iff.mpr hshort).symm
  · rfl

theorem Position.within_ne {x} (h : x.cursor = none) : within cur rest short ≠ x := by
  rintro rfl
  rw [cursor_within] at h
  cases h

end Within

/-- What the hub holds back. -/
def Entry.held : Entry → List Nat
  | .holding held => held
  | _ => []

namespace Feed

open Position

variable {π : Type} [DecidableEq π] {f g : Feed π} {e : Event π}

/-- Only committed numbers stand anywhere. -/
structure Bounded (f : Feed π) : Prop where
  cursor : ∀ cursor, f.position.cursor = some cursor → cursor ≤ f.count
  pending : ∀ p next, f.pending p = some next → next.seq < f.count
  held : ∀ seq ∈ f.entry.held, seq < f.count
  sent : ∀ seq ∈ f.sent, seq < f.count
  rest : ∀ seq ∈ f.position.rest, seq < f.count

variable {held : List Nat} {next seq : Nat}

theorem mem_released (h : seq ∈ released held next) : seq ∈ held ∧ next ≤ seq := by
  induction held generalizing next with
  | nil => cases h
  | cons first rest ih =>
    simp only [released] at h
    split_ifs at h with hlt
    · exact ⟨mem_cons_of_mem _ (ih h).1, (ih h).2⟩
    · rcases mem_cons.mp h with rfl | hr
      · exact ⟨mem_cons_self, not_lt.mp hlt⟩
      · have hnext := (ih hr).2
        exact ⟨mem_cons_of_mem _ (ih hr).1, by omega⟩

variable {p : π}

theorem pending_update {q next a} (h : update f.pending p next q = some a) :
    q = p ∧ next = some a ∨ q ≠ p ∧ f.pending q = some a := by
  by_cases hq : q = p
  · subst hq
    exact .inl ⟨rfl, by simpa using h⟩
  · exact .inr ⟨hq, by simpa [hq] using h⟩

theorem Bounded.step (hf : f.Bounded) (hs : Step f e g) : g.Bounded := by
  have hpend : ∀ p q next, update f.pending p none q = some next → next.seq < f.count := by
    intro p q next h
    rcases pending_update h with ⟨-, hnone⟩ | ⟨-, hold⟩
    · cases hnone
    · exact hf.pending q next hold
  cases hs with
  | stored hidle =>
    refine ⟨fun cur h => Nat.le_succ_of_le (hf.cursor cur h), ?_,
      fun seq h => Nat.lt_succ_of_lt (hf.held seq h),
      fun seq h => Nat.lt_succ_of_lt (hf.sent seq h),
      fun seq h => Nat.lt_succ_of_lt (hf.rest seq h)⟩
    intro q next h
    rcases pending_update h with ⟨-, hnew⟩ | ⟨-, hold⟩
    · cases hnew
      exact Nat.lt_succ_self _
    · exact Nat.lt_succ_of_lt (hf.pending q next hold)
  | resent hidle hseq =>
    refine ⟨hf.cursor, ?_, hf.held, hf.sent, hf.rest⟩
    intro q next h
    rcases pending_update h with ⟨-, hnew⟩ | ⟨-, hold⟩
    · cases hnew
      exact hseq
    · exact hf.pending q next hold
  | fanoutAbsent => exact ⟨hf.cursor, hpend _, hf.held, hf.sent, hf.rest⟩
  | @fanoutHeld p next held hp he =>
    refine ⟨hf.cursor, hpend _, ?_, hf.sent, hf.rest⟩
    have hheld := hf.held
    rw [he] at hheld
    exact forall_mem_snoc hheld (hf.pending p next hp)
  | @fanoutLive p next hp he =>
    exact ⟨hf.cursor, hpend _, hf.held, forall_mem_snoc hf.sent (hf.pending p next hp), hf.rest⟩
  | fanoutEnds =>
    exact ⟨hf.cursor, hpend _, nofun, hf.sent, hf.rest⟩
  | @acknowledged p next hp =>
    exact ⟨hf.cursor, hpend _, hf.held, forall_mem_snoc hf.sent (hf.pending p next hp), hf.rest⟩
  | unacknowledged => exact ⟨nofun, hpend _, hf.held, hf.sent, nofun⟩
  | registerFirst =>
    refine ⟨?_, hf.pending, nofun, hf.sent, nofun⟩
    rintro cur ⟨⟩
    exact Nat.zero_le _
  | registerAgain =>
    refine ⟨?_, hf.pending, hf.held, hf.sent, nofun⟩
    rintro cur ⟨⟩
    exact Nat.zero_le _
  | failRead hpos | timeOut hpos =>
    refine ⟨?_, hf.pending, hf.held, hf.sent, nofun⟩
    rintro _ ⟨⟩
    exact hf.cursor _ (by rw [hpos]; rfl)
  | @read cur size hpos hsize =>
    have hcur := hf.cursor cur (by rw [hpos]; rfl)
    refine ⟨?_, hf.pending, hf.held, hf.sent, ?_⟩
    · intro next h
      cases (cursor_within _ _ _).symm.trans h
      show cur + size ≤ f.count
      omega
    · intro seq hseq
      rw [rest_within] at hseq
      have hmem := mem_range'_1.mp hseq
      show seq < f.count
      omega
  | @queue cur seq rest short hpos =>
    have hr := hf.rest
    rw [hpos] at hr
    have hcur := hf.cursor cur (by rw [hpos]; rfl)
    refine ⟨?_, hf.pending, hf.held, ?_, ?_⟩
    · intro next h
      rw [cursor_within] at h
      cases h
      exact hcur
    · exact forall_mem_snoc hf.sent (hr seq mem_cons_self)
    · intro x ho
      rw [rest_within] at ho
      exact hr x (mem_cons_of_mem _ ho)
  | @releaseNothing cur goesOn hpos he =>
    cases goesOn <;> exact ⟨nofun, hf.pending, hf.held, hf.sent, nofun⟩
  | @releaseAll cur goesOn held hpos he =>
    have hheld := hf.held
    rw [he] at hheld
    have hsent : ∀ seq ∈ f.sent ++ released held cur, seq < f.count := fun seq hseq =>
      (mem_append.mp hseq).elim (hf.sent seq) fun h => hheld seq (mem_released h).1
    cases goesOn <;> exact ⟨nofun, hf.pending, nofun, hsent, nofun⟩
  | @releaseEnds cur goesOn held sent hpos he hsent =>
    have hheld := hf.held
    rw [he] at hheld
    have hsent : ∀ seq ∈ f.sent ++ sent, seq < f.count := fun seq hseq =>
      (mem_append.mp hseq).elim (hf.sent seq) fun h => hheld seq (mem_released (hsent.subset h)).1
    cases goesOn <;> exact ⟨nofun, hf.pending, nofun, hsent, nofun⟩
  | elsewhere => exact hf
  | ends => exact ⟨hf.cursor, hf.pending, nofun, hf.sent, hf.rest⟩

/-! ### Nothing is left out -/

/-- No number past the cursor is held behind a higher one. -/
def InOrder (held : List Nat) (cursor : Nat) : Prop :=
  ∀ a seq b, held = a ++ seq :: b → cursor ≤ seq → seq ∉ a → ∀ other ∈ a, other < seq

theorem InOrder.of_pairwise (h : held.Pairwise (· < ·)) (cur : Nat) : InOrder held cur := by
  rintro a seq b rfl - - x ho
  exact (pairwise_append.mp h).2.2 x ho seq mem_cons_self

variable {cursor : Nat}

theorem InOrder.tail {first rest} (h : InOrder (first :: rest) cursor)
    (hnext : cursor ≤ next) (hfirst : first < next) : InOrder rest next := by
  intro a seq b hsplit hseq hnot x ho
  have hne : seq ≠ first := by omega
  refine h (first :: a) seq b (by rw [hsplit, cons_append]) (by omega) ?_ x (mem_cons_of_mem _ ho)
  simp [hne, hnot]

/-- A release in order queues everything it finds past the cursor. -/
theorem mem_released_of_inOrder (horder : InOrder held cursor) (hseq : seq ∈ held)
    (hcur : cursor ≤ seq) : seq ∈ released held cursor := by
  induction held generalizing cursor with
  | nil => cases hseq
  | cons first rest ih =>
    simp only [released]
    split_ifs with hlt
    · rcases mem_cons.mp hseq with rfl | hr
      · omega
      · exact ih (horder.tail le_rfl hlt) hr hcur
    · by_cases heq : seq = first
      · exact heq ▸ mem_cons_self
      have hr := (mem_cons.mp hseq).resolve_left heq
      obtain ⟨a, b, hsplit, hnot⟩ := eq_append_cons_of_mem hr
      have hfirst := horder (first :: a) seq b (by rw [hsplit, cons_append]) hcur
        (by simp [heq, hnot]) first mem_cons_self
      exact mem_cons_of_mem _ (ih (horder.tail (by omega) (Nat.lt_succ_self _)) hr hfirst)

/-- A number that some publisher is still to fan out. -/
def IsPending (f : Feed π) (seq : Nat) : Prop :=
  ∃ p next, f.pending p = some next ∧ next.seq = seq

/-- A number that was queued, or is read, held or pending. -/
def Accounted (f : Feed π) (seq : Nat) : Prop :=
  seq ∈ f.sent ∨ seq ∈ f.position.rest ∨ seq ∈ f.entry.held ∨ f.IsPending seq

/-- The condition: the replay neither fails nor runs out of its wait, and no release finds a
number held behind a higher one. -/
def Lossless (f : Feed π) : Event π → Prop
  | .failRead => False
  | .timeOut => False
  | .release => ∀ cursor goesOn held, f.position = .releasing cursor goesOn →
      f.entry = .holding held → InOrder held cursor
  | _ => True

/-- While the entry lasts, the replay has queued or read everything below its cursor, and once
it has read to the end everything is accounted for. -/
structure Complete (f : Feed π) : Prop where
  idle : f.position = .idle → f.entry = .absent
  live : f.position = .subscribed → ∀ held, f.entry ≠ .holding held
  read : f.entry ≠ .absent → ∀ cursor, f.position.cursor = some cursor →
    ∀ seq < cursor, seq ∈ f.sent ∨ seq ∈ f.position.rest
  caught : f.entry ≠ .absent → f.position.caughtUp = true → ∀ seq < f.count, f.Accounted seq

theorem isPending_of_update_none {next} (hp : f.pending p = some next) (h : f.IsPending seq) :
    seq = next.seq ∨ ∃ q x, update f.pending p none q = some x ∧ x.seq = seq := by
  obtain ⟨q, x, hq, rfl⟩ := h
  by_cases heq : q = p
  · subst heq
    exact .inl (congrArg Pending.seq (Option.some.inj (hq.symm.trans hp)))
  · exact .inr ⟨q, x, by rw [update_of_ne heq, hq], rfl⟩

theorem isPending_of_update_some {next} (hp : f.pending p = none) (h : f.IsPending seq) :
    ∃ q x, update f.pending p (some next) q = some x ∧ x.seq = seq := by
  obtain ⟨q, x, hq, rfl⟩ := h
  have hne : q ≠ p := by
    rintro rfl
    rw [hp] at hq
    cases hq
  exact ⟨q, x, by rw [update_of_ne hne, hq], rfl⟩

/-- A number that is queued as its publisher is done is still accounted for. -/
theorem Accounted.announce {next} (hp : f.pending p = some next) (h : f.Accounted seq) :
    Accounted { f with
      pending := update f.pending p none
      sent := f.sent ++ [next.seq] } seq := by
  rcases h with h | h | h | h
  · exact .inl (mem_append_left _ h)
  · exact .inr (.inl h)
  · exact .inr (.inr (.inl h))
  · rcases isPending_of_update_none hp h with rfl | h
    · exact .inl (mem_append_right _ mem_cons_self)
    · exact .inr (.inr (.inr h))

omit [DecidableEq π] in
/-- What leaves the page enters `sent`. -/
theorem Accounted.queue {first rest short}
    (hpos : f.position = .queueing cursor (first :: rest) short) (h : f.Accounted seq) :
    Accounted { f with
      sent := f.sent ++ [first]
      position := .within cursor rest short } seq := by
  simp only [Accounted, hpos] at h
  simp only [Accounted, rest_within]
  rcases h with h | h | h | h
  · exact .inl (mem_append_left _ h)
  · rcases mem_cons.mp h with rfl | h
    · exact .inl (mem_append_right _ mem_cons_self)
    · exact .inr (.inl h)
  · exact .inr (.inr (.inl h))
  · exact .inr (.inr (.inr h))

omit [DecidableEq π] in
/-- A release in order queues everything but what is pending. -/
theorem Complete.release (hf : f.Complete) {goesOn}
    (hpos : f.position = .releasing cursor goesOn) (he : f.entry = .holding held)
    (horder : InOrder held cursor) (hseq : seq < f.count) :
    seq ∈ f.sent ++ released held cursor ∨ f.IsPending seq := by
  have hne : f.entry ≠ .absent := by simp [he]
  by_cases hlow : seq < cursor
  · have hread := hf.read hne cursor (by rw [hpos]; rfl) seq hlow
    rw [hpos] at hread
    exact .inl (mem_append_left _ (hread.resolve_right not_mem_nil))
  have hold := hf.caught hne (by rw [hpos]; rfl) seq hseq
  simp only [Accounted, hpos, he] at hold
  rcases hold with hold | hold | hold | hold
  · exact .inl (mem_append_left _ hold)
  · cases hold
  · exact .inl (mem_append_right _ (mem_released_of_inOrder horder hold (not_lt.mp hlow)))
  · exact .inr hold

theorem Complete.step (hf : f.Complete) (hcond : f.Lossless e) (hs : Step f e g) : g.Complete := by
  cases hs with
  | @stored p hidle =>
    refine ⟨hf.idle, hf.live, hf.read, fun he hcaught seq hseq => ?_⟩
    rcases Nat.lt_succ_iff_lt_or_eq.mp hseq with hold | rfl
    · exact (hf.caught he hcaught seq hold).imp_right
        (.imp_right (.imp_right (isPending_of_update_some hidle)))
    · exact .inr (.inr (.inr ⟨p, _, update_self _ _ _, rfl⟩))
  | resent hidle hseq =>
    refine ⟨hf.idle, hf.live, hf.read, fun he hcaught seq hseq => ?_⟩
    exact (hf.caught he hcaught seq hseq).imp_right
      (.imp_right (.imp_right (isPending_of_update_some hidle)))
  | fanoutAbsent hp he =>
    exact ⟨hf.idle, hf.live, fun h => absurd he h, fun h => absurd he h⟩
  | @fanoutHeld p next held hp he =>
    have hne : f.entry ≠ .absent := by simp [he]
    refine ⟨fun h => absurd (hf.idle h) hne, fun h => absurd he (hf.live h held),
      fun _ => hf.read hne, fun _ hcaught seq hseq => ?_⟩
    rcases hf.caught hne hcaught seq hseq with h | h | h | h
    · exact .inl h
    · exact .inr (.inl h)
    · rw [he] at h
      exact .inr (.inr (.inl (mem_append_left _ h)))
    · rcases isPending_of_update_none hp h with rfl | h
      · exact .inr (.inr (.inl (mem_append_right _ mem_cons_self)))
      · exact .inr (.inr (.inr h))
  | fanoutLive hp | acknowledged hp =>
    refine ⟨hf.idle, hf.live, fun he cursor hcur seq hseq => ?_, fun he hcaught seq hseq => ?_⟩
    · exact (hf.read he cursor hcur seq hseq).imp_left (mem_append_left _)
    · exact (hf.caught he hcaught seq hseq).announce hp
  | unacknowledged => exact ⟨nofun, nofun, fun _ _ => nofun, fun _ => nofun⟩
  | fanoutEnds | ends =>
    exact ⟨fun _ => rfl, fun _ held => nofun, fun h => absurd rfl h, fun h => absurd rfl h⟩
  | registerFirst | registerAgain =>
    refine ⟨nofun, nofun, ?_, fun _ => nofun⟩
    rintro - _ ⟨⟩ seq hseq
    exact absurd hseq (Nat.not_lt_zero seq)
  | @read cursor size hpos hsize =>
    have hread : f.entry ≠ .absent → ∀ seq < cursor + size,
        seq ∈ f.sent ∨ seq ∈ range' cursor size := by
      intro he seq hseq
      by_cases hold : seq < cursor
      · have h := hf.read he cursor (by rw [hpos]; rfl) seq hold
        rw [hpos] at h
        exact .inl (h.resolve_right not_mem_nil)
      · exact .inr (mem_range'_1.mpr (by omega))
    refine ⟨fun h => absurd h (within_ne _ _ _ rfl), fun h => absurd h (within_ne _ _ _ rfl),
      ?_, ?_⟩
    · intro he next h
      cases (cursor_within _ _ _).symm.trans h
      rw [rest_within]
      exact hread he
    · intro he hshort seq hseq
      rw [caughtUp_within, decide_eq_true_eq] at hshort
      have hcur : seq < cursor + size := by
        have : seq < f.count := hseq
        omega
      rw [Accounted, rest_within]
      exact (hread he seq hcur).imp_right .inl
  | failRead | timeOut => exact hcond.elim
  | @queue cursor seq rest short hpos =>
    refine ⟨fun h => absurd h (within_ne _ _ _ rfl),
      fun h => absurd h (within_ne _ _ _ rfl), ?_, ?_⟩
    · intro he next hnext x ho
      rw [cursor_within] at hnext
      cases hnext
      have hold := hf.read he cursor (by rw [hpos]; rfl) x ho
      rw [hpos] at hold
      rw [rest_within]
      rcases hold with hold | hold
      · exact .inl (mem_append_left _ hold)
      · rcases mem_cons.mp hold with rfl | hold
        · exact .inl (mem_append_right _ mem_cons_self)
        · exact .inr hold
    · intro he hshort x ho
      rw [caughtUp_within] at hshort
      exact (hf.caught he (by rw [hpos]; exact hshort) x ho).queue hpos
  | @releaseNothing cursor goesOn hpos he =>
    cases goesOn with
    | false =>
      exact ⟨nofun, nofun, fun _ _ => nofun, fun _ => nofun⟩
    | true =>
      refine ⟨nofun, fun _ => he, fun _ _ => nofun, fun hne _ seq hseq => ?_⟩
      have hold := hf.caught hne (by rw [hpos]; rfl) seq hseq
      rw [Accounted, hpos] at hold
      exact hold
  | @releaseAll cursor goesOn held hpos he =>
    have horder := hcond cursor goesOn held hpos he
    cases goesOn with
    | false =>
      exact ⟨nofun, nofun, fun _ _ => nofun, fun _ => nofun⟩
    | true =>
      refine ⟨nofun, fun _ _ => nofun, fun _ _ => nofun, fun _ _ seq hseq => ?_⟩
      exact (hf.release hpos he horder hseq).imp_right fun h => .inr (.inr h)
  | @releaseEnds cursor goesOn held sent hpos he hsent =>
    cases goesOn with
    | false => exact ⟨nofun, nofun, fun h => absurd rfl h, fun h => absurd rfl h⟩
    | true => exact ⟨nofun, fun _ _ => nofun, fun h => absurd rfl h, fun h => absurd rfl h⟩
  | elsewhere => exact hf

/-! ### In order, once -/

/-- What a publisher is to announce is a number it stored itself, and no lower one is pending. -/
def Lowest (f : Feed π) (p : π) : Prop :=
  ∀ next, f.pending p = some next → next.fresh = true ∧
    ∀ q other, f.pending q = some other → other.fresh = true → next.seq ≤ other.seq

/-- The condition: one `SUB`; a live fanout is of a number its publisher stored itself, and no
lower number is still to be fanned out; an acknowledgement likewise, and the entry is live; at a
release no number below the cursor or below a held one is pending. -/
def InStep (f : Feed π) : Event π → Prop
  | .register => f.position = .idle
  | .fanout p => f.entry = .live → f.Lowest p
  | .acknowledge p true => f.entry = .live ∧ f.Lowest p
  | .release => ∀ cursor goesOn held, f.position = .releasing cursor goesOn →
      f.entry = .holding held → ∀ q other, f.pending q = some other → other.fresh = true →
        cursor ≤ other.seq ∧ ∀ seq ∈ held, seq < other.seq
  | _ => True

/-- The numbers ascend; a replay queues `0, 1, …`; and once frames go out live, every number
still to be fanned out is above everything queued. -/
structure Ordered (f : Feed π) : Prop where
  ascending : f.sent.Pairwise (· < ·)
  idle : f.position = .idle → f.sent = [] ∧ f.entry = .absent
  paging : ∀ cursor, f.position.cursor = some cursor → f.position.paging = true →
    f.sent ++ f.position.rest = List.range cursor
  below : ∀ cursor, f.position.cursor = some cursor → ∀ seq ∈ f.sent, seq < cursor
  live : f.entry = .live → f.position.cursor = none
  distinct : ∀ p q a b, f.pending p = some a → f.pending q = some b → a.fresh = true →
    b.fresh = true → a.seq = b.seq → p = q
  ahead : f.entry = .live → ∀ p a, f.pending p = some a → a.fresh = true →
    ∀ seq ∈ f.sent, seq < a.seq

theorem pairwise_released (held : List Nat) (next : Nat) :
    (released held next).Pairwise (· < ·) := by
  induction held generalizing next with
  | nil => exact .nil
  | cons first rest ih =>
    simp only [released]
    split_ifs
    · exact ih next
    · exact .cons (fun seq h => (mem_released h).2) (ih _)

variable {sent : List Nat}

/-- What a release queues stands above what the replay queued. -/
theorem pairwise_append_released {more} (hsent : sent.Pairwise (· < ·))
    (hbelow : ∀ seq ∈ sent, seq < cursor) (hmore : more <+: released held cursor) :
    (sent ++ more).Pairwise (· < ·) := by
  refine pairwise_append.mpr ⟨hsent, (pairwise_released held cursor).sublist hmore.sublist, ?_⟩
  intro low hlow high hhigh
  exact lt_of_lt_of_le (hbelow low hlow) (mem_released (hmore.subset hhigh)).2

omit [DecidableEq π] in
/-- While a replay is under way no frame goes out live. -/
theorem Ordered.not_live (hf : f.Ordered) (hcur : f.position.cursor = some cursor) :
    f.entry ≠ .live := by
  intro hl
  rw [hf.live hl] at hcur
  cases hcur

/-- A publisher that is done takes one number away from `pending`. -/
theorem Ordered.distinct_done (hf : f.Ordered) (p : π) :
    ∀ q r a b, update f.pending p none q = some a → update f.pending p none r = some b →
      a.fresh = true → b.fresh = true → a.seq = b.seq → q = r := by
  intro q r a b hq hr
  obtain ⟨-, ⟨⟩⟩ | ⟨-, hq⟩ := pending_update hq
  obtain ⟨-, ⟨⟩⟩ | ⟨-, hr⟩ := pending_update hr
  exact hf.distinct q r a b hq hr

theorem Ordered.announce {next} (hf : f.Ordered) (hp : f.pending p = some next)
    (he : f.entry = .live) (hlow : f.Lowest p) :
    Ordered { f with
      pending := update f.pending p none
      sent := f.sent ++ [next.seq] } := by
  obtain ⟨hframe, hlowest⟩ := hlow next hp
  refine ⟨pairwise_snoc hf.ascending (hf.ahead he p next hp hframe), fun h => ?_,
    fun cursor h => absurd he (hf.not_live h), fun cursor h => absurd he (hf.not_live h), hf.live,
    hf.distinct_done p, ?_⟩
  · exact absurd (hf.idle h).2 (by simp [he])
  · intro _ q a hq ha seq hseq
    obtain ⟨-, ⟨⟩⟩ | ⟨hne, hq⟩ := pending_update hq
    rcases mem_snoc.mp hseq with hseq | rfl
    · exact hf.ahead he q a hq ha seq hseq
    · refine lt_of_le_of_ne (hlowest q a hq ha) fun heq => hne ?_
      exact (hf.distinct p q next a hp hq hframe ha heq).symm

omit [DecidableEq π] in
/-- A step of the replay: no frame goes out live. -/
theorem Ordered.replay (hf : f.Ordered) (hcur : f.position.cursor = some cursor) {sent position}
    (hasc : sent.Pairwise (· < ·)) (hidle : position ≠ .idle)
    (hpaging : ∀ next, position.cursor = some next → position.paging = true →
      sent ++ position.rest = List.range next)
    (hbelow : ∀ next, position.cursor = some next → ∀ seq ∈ sent, seq < next) :
    Ordered { f with sent, position } :=
  ⟨hasc, fun h => absurd h hidle, hpaging, hbelow, fun h => absurd h (hf.not_live hcur),
    hf.distinct, fun h => absurd h (hf.not_live hcur)⟩

theorem Ordered.step (hf : f.Ordered) (hbound : f.Bounded) (hcond : f.InStep e)
    (hs : Step f e g) : g.Ordered := by
  have hahead : ∀ p, f.entry = .live → ∀ q a, update f.pending p none q = some a →
      a.fresh = true → ∀ seq ∈ f.sent, seq < a.seq := by
    intro p hl q a hq
    obtain ⟨-, ⟨⟩⟩ | ⟨-, hq⟩ := pending_update hq
    exact hf.ahead hl q a hq
  cases hs with
  | @stored p hidle =>
    refine ⟨hf.ascending, hf.idle, hf.paging, hf.below, hf.live, ?_, ?_⟩
    · intro q r a b hq hr ha hb hseq
      rcases pending_update hq with ⟨rfl, ⟨⟩⟩ | ⟨-, hold⟩ <;>
        rcases pending_update hr with ⟨rfl, ⟨⟩⟩ | ⟨-, ho⟩
      · rfl
      · exact absurd hseq (ne_of_gt (hbound.pending r b ho))
      · exact absurd hseq (ne_of_lt (hbound.pending q a hold))
      · exact hf.distinct q r a b hold ho ha hb hseq
    · intro hl q a hq ha
      rcases pending_update hq with ⟨rfl, ⟨⟩⟩ | ⟨-, hq⟩
      · exact hbound.sent
      · exact hf.ahead hl q a hq ha
  | @resent p seq hidle hseq =>
    refine ⟨hf.ascending, hf.idle, hf.paging, hf.below, hf.live, ?_, ?_⟩
    · intro q r a b hq hr ha hb
      rcases pending_update hq with ⟨rfl, ⟨⟩⟩ | ⟨-, hq⟩
      · cases ha
      rcases pending_update hr with ⟨rfl, ⟨⟩⟩ | ⟨-, hr⟩
      · cases hb
      exact hf.distinct q r a b hq hr ha hb
    · intro hl q a hq ha
      rcases pending_update hq with ⟨rfl, ⟨⟩⟩ | ⟨-, hq⟩
      · cases ha
      · exact hf.ahead hl q a hq ha
  | @fanoutAbsent p next hp he =>
    exact ⟨hf.ascending, hf.idle, hf.paging, hf.below, hf.live, hf.distinct_done p, hahead p⟩
  | @fanoutHeld p next held hp he =>
    refine ⟨hf.ascending, fun h => ?_, hf.paging, hf.below, nofun, hf.distinct_done p, nofun⟩
    exact absurd (hf.idle h).2 (by simp [he])
  | fanoutLive hp he => exact hf.announce hp he (hcond he)
  | acknowledged hp => exact hf.announce hp hcond.1 hcond.2
  | @unacknowledged p next hp =>
    exact ⟨hf.ascending, nofun, fun _ => nofun, fun _ => nofun, fun _ => rfl, hf.distinct_done p,
      hahead p⟩
  | @fanoutEnds p next hp =>
    exact ⟨hf.ascending, fun h => ⟨(hf.idle h).1, rfl⟩, hf.paging, hf.below, nofun,
      hf.distinct_done p, nofun⟩
  | registerFirst hpos he =>
    have hnone : f.sent = [] := (hf.idle hcond).1
    refine ⟨hf.ascending, nofun, ?_, ?_, nofun, hf.distinct, nofun⟩
    · rintro _ ⟨⟩ -
      exact (append_nil _).trans hnone
    · rintro _ - seq hseq
      simp [hnone] at hseq
  | registerAgain hpos he => exact absurd (hf.idle hcond).2 he
  | @read cursor size hpos hsize =>
    have hcur : f.position.cursor = some cursor := congrArg Position.cursor hpos
    have hpage := hf.paging cursor hcur (by rw [hpos]; rfl)
    rw [hpos] at hpage
    refine hf.replay hcur hf.ascending (within_ne _ _ _ rfl) ?_ ?_
    · intro next h _
      cases (cursor_within _ _ _).symm.trans h
      rw [rest_within, ← append_nil f.sent, show f.sent ++ [] = List.range cursor from hpage,
        range_eq_range', range_eq_range', ← range'_append_1, Nat.zero_add]
    · intro next h seq hseq
      cases (cursor_within _ _ _).symm.trans h
      exact Nat.lt_add_right size (hf.below cursor hcur seq hseq)
  | @failRead cursor goesOn hpos | @timeOut cursor rest short hpos =>
    have hcur : f.position.cursor = some cursor := congrArg Position.cursor hpos
    refine hf.replay hcur hf.ascending nofun (fun _ _ => nofun) ?_
    rintro _ ⟨⟩
    exact hf.below cursor hcur
  | @queue cursor seq rest short hpos =>
    have hcur : f.position.cursor = some cursor := congrArg Position.cursor hpos
    have hpage := hf.paging cursor hcur (by rw [hpos]; rfl)
    rw [hpos] at hpage
    have hsent : (f.sent ++ [seq]) ++ rest = List.range cursor := by
      rw [← hpage, append_assoc, singleton_append]
      rfl
    have hpart : (f.sent ++ [seq]).Sublist (List.range cursor) := hsent ▸ sublist_append_left _ _
    refine hf.replay hcur (pairwise_lt_range.sublist hpart) (within_ne _ _ _ rfl) ?_ ?_
    · intro next h _
      cases (cursor_within _ _ _).symm.trans h
      rw [rest_within]
      exact hsent
    · intro next h x hx
      cases (cursor_within _ _ _).symm.trans h
      exact mem_range.mp (hpart.subset hx)
  | @releaseNothing cursor goesOn hpos he =>
    cases goesOn <;>
      exact hf.replay (congrArg Position.cursor hpos) hf.ascending nofun (fun _ => nofun)
        fun _ => nofun
  | @releaseAll cursor goesOn held hpos he =>
    have hbelow := hf.below cursor (congrArg Position.cursor hpos)
    have hascending := pairwise_append_released hf.ascending hbelow
      (prefix_refl (released held cursor))
    have hahead : ∀ p a, f.pending p = some a → a.fresh = true →
        ∀ seq ∈ f.sent ++ released held cursor, seq < a.seq := by
      intro p a hp ha seq hseq
      obtain ⟨hcur, hheld⟩ := hcond cursor goesOn held hpos he p a hp ha
      rcases mem_append.mp hseq with hseq | hseq
      · exact lt_of_lt_of_le (hbelow seq hseq) hcur
      · exact hheld seq (mem_released hseq).1
    cases goesOn <;>
      exact ⟨hascending, nofun, fun _ => nofun, fun _ => nofun, fun _ => rfl,
        hf.distinct, fun _ => hahead⟩
  | @releaseEnds cursor goesOn held sent hpos he hpart =>
    have hascending := pairwise_append_released hf.ascending
      (hf.below cursor (congrArg Position.cursor hpos)) hpart
    cases goesOn <;>
      exact ⟨hascending, nofun, fun _ => nofun, fun _ => nofun, nofun, hf.distinct, nofun⟩
  | elsewhere => exact hf
  | ends =>
    exact ⟨hf.ascending, fun h => ⟨(hf.idle h).1, rfl⟩, hf.paging, hf.below, nofun, hf.distinct,
      nofun⟩

/-! ### Without a gap -/

/-- Every number comes after all lower ones. -/
def Gapless (sent : List Nat) : Prop :=
  ∀ a seq b, sent = a ++ seq :: b → ∀ lower < seq, lower ∈ a

/-- Every held number comes after all lower ones from a base on. -/
def Contiguous (base : Nat) (held : List Nat) : Prop :=
  ∀ a seq b, held = a ++ seq :: b → ∀ lower < seq, base ≤ lower → lower ∈ a

theorem Gapless.nil : Gapless [] := by
  intro a seq b h
  simp at h

theorem Contiguous.nil (base : Nat) : Contiguous base [] := by
  intro a seq b h
  simp at h

theorem Gapless.snoc (h : Gapless sent) (hlow : ∀ lower < seq, lower ∈ sent) :
    Gapless (sent ++ [seq]) := by
  intro a x b hsplit lower hlt
  rcases snoc_split hsplit with ⟨rfl, rfl⟩ | ⟨b', -, rfl⟩
  · exact hlow lower hlt
  · exact h a x b' rfl lower hlt

variable {base : Nat}

theorem Contiguous.snoc (h : Contiguous base held)
    (hlow : ∀ lower < seq, base ≤ lower → lower ∈ held) : Contiguous base (held ++ [seq]) := by
  intro a x b hsplit lower hlt hbase
  rcases snoc_split hsplit with ⟨rfl, rfl⟩ | ⟨b', -, rfl⟩
  · exact hlow lower hlt hbase
  · exact h a x b' rfl lower hlt hbase

theorem Gapless.of_front {more all} (h : Gapless (sent ++ all)) (hmore : more <+: all) :
    Gapless (sent ++ more) := by
  obtain ⟨rest, rfl⟩ := hmore
  intro a seq b hsplit
  refine h a seq (b ++ rest) ?_
  rw [← append_assoc, hsplit, append_assoc, cons_append]

/-- Numbers held in a row from the cursor on are released in a row: `gone` is the part of the
held list that is behind the release. -/
theorem gapless_released (gone : List Nat) (hsent : Gapless sent)
    (hbelow : ∀ seq < next, seq ∈ sent) (hheld : Contiguous base (gone ++ held))
    (hbase : base ≤ next) (hgone : ∀ seq ∈ gone, seq < next) :
    Gapless (sent ++ released held next) := by
  induction held generalizing gone sent next with
  | nil => simpa [released] using hsent
  | cons first rest ih =>
    have hr : Contiguous base ((gone ++ [first]) ++ rest) := by
      rwa [append_assoc, singleton_append]
    simp only [released]
    split_ifs with hlt
    · exact ih _ hsent hbelow hr hbase (forall_mem_snoc hgone hlt)
    · -- `next` itself is not behind the release, so nothing between it and `first` is missing.
      have hfirst : first = next := by
        by_contra hne
        have hmem := hheld gone first rest rfl next (by omega) hbase
        exact absurd (hgone next hmem) (lt_irrefl next)
      subst hfirst
      rw [show sent ++ first :: released rest (first + 1) =
        (sent ++ [first]) ++ released rest (first + 1) by simp]
      refine ih _ (hsent.snoc hbelow) ?_ hr (by omega) ?_
      · intro seq hseq
        rcases Nat.lt_succ_iff_lt_or_eq.mp hseq with hold | rfl
        · exact mem_append_left _ (hbelow seq hold)
        · exact mem_append_right _ mem_cons_self
      · exact forall_mem_snoc (fun seq hseq => Nat.lt_succ_of_lt (hgone seq hseq))
          (Nat.lt_succ_self _)

theorem Contiguous.inOrder (h : Contiguous base held) (hbase : base ≤ cursor) :
    InOrder held cursor := by
  intro a seq b hsplit hcur hnot x ho
  by_contra hge
  have hne : x ≠ seq := fun heq => hnot (heq ▸ ho)
  obtain ⟨c, d, rfl⟩ := append_of_mem ho
  have hmem := h c x (d ++ seq :: b) (by rw [hsplit]; simp) seq (by omega) (by omega)
  exact hnot (mem_append_left _ hmem)

/-- Numbers held in order, with none from the cursor on missing, are held in a row. -/
theorem Contiguous.of_inOrder {n} (horder : InOrder held cursor) (hheld : ∀ seq ∈ held, seq < n)
    (hall : ∀ seq, cursor ≤ seq → seq + 1 < n → seq ∈ held) : Contiguous cursor held := by
  intro a seq b hsplit lower hlt hcur
  by_contra hnot
  have hseq : seq < n := hheld seq (hsplit ▸ mem_append_right _ mem_cons_self)
  have hmem : lower ∈ held := hall lower hcur (by omega)
  have hlater : lower ∈ b := by
    rw [hsplit] at hmem
    rcases mem_append.mp hmem with h | h
    · exact absurd h hnot
    · exact (mem_cons.mp h).resolve_left (by omega)
  obtain ⟨c, d, hb, hc⟩ := eq_append_cons_of_mem hlater
  have hfirst := horder (a ++ seq :: c) lower d (by rw [hsplit, hb]; simp) hcur
    (by simp [hnot, hc]; omega) seq (by simp)
  omega

/-- A number that its own publisher is still to fan out. -/
def Unannounced (f : Feed π) (seq : Nat) : Prop :=
  ∃ p next, f.pending p = some next ∧ next.fresh = true ∧ next.seq = seq

/-- Publishers fan out before the group's next commit. -/
def Prompt (f : Feed π) : Event π → Prop
  | .commit _ true => ∀ seq, ¬ f.Unannounced seq
  | _ => True

/-- Publishers fan out, and the subscriber's own publications are answered, before the group's
next commit; an answer is queued while the entry is live or, without an entry, after all lower
numbers, and finds no room only without one; a page read fails under a hold only when everything
from the cursor on that was fanned out is held, in order; and no wait for room runs out under a
hold. -/
def Careful (f : Feed π) : Event π → Prop
  | .commit _ true => ∀ seq, ¬ f.Unannounced seq
  | .acknowledge p true => f.entry = .live ∨ f.entry = .absent ∧
      ∀ next, f.pending p = some next → ∀ lower < next.seq, lower ∈ f.sent
  | .acknowledge _ false => f.entry = .absent
  | .failRead => ∀ cursor held, f.position = .reading cursor → f.entry = .holding held →
      InOrder held cursor ∧ ∀ seq, cursor ≤ seq → seq < f.count → seq ∈ held ∨ f.Unannounced seq
  | .timeOut => ∀ held, f.entry ≠ .holding held
  | _ => True

/-- What is held under a replay: the numbers from some base on, in a row, and none of them
missing. A replay that has read the log to its end is past the base. -/
def Backed (f : Feed π) (held : List Nat) : Prop :=
  ∃ base ≤ f.count, Contiguous base held ∧
    (∀ seq, base ≤ seq → seq < f.count → seq ∈ held ∨ f.Unannounced seq) ∧
      ∀ cursor, f.position.cursor = some cursor → f.position.caughtUp = true → base ≤ cursor

/-- Nothing was queued before a lower number, and nothing can be: a live entry has all that was
fanned out, a replay all below its cursor, and a hold all from there on. -/
structure Unbroken (f : Feed π) : Prop where
  gapless : Gapless f.sent
  last : ∀ seq, f.Unannounced seq → seq + 1 = f.count
  live : f.entry = .live → ∀ seq < f.count, seq ∈ f.sent ∨ f.Unannounced seq
  replay : ∀ cursor, f.position.cursor = some cursor →
    f.position.paging = true ∨ (∃ held, f.entry = .holding held) →
      ∃ start size, f.position.rest = List.range' start size ∧ start + size = cursor ∧
        ∀ seq < start, seq ∈ f.sent
  holding : ∀ held, f.entry = .holding held → f.Backed held

theorem unannounced_of_done
    (h : ({ f with pending := update f.pending p none } : Feed π).Unannounced seq) :
    f.Unannounced seq := by
  obtain ⟨q, next, hq, hfresh, rfl⟩ := h
  obtain ⟨-, ⟨⟩⟩ | ⟨-, hq⟩ := pending_update hq
  exact ⟨q, next, hq, hfresh, rfl⟩

theorem unannounced_cases {next} (hp : f.pending p = some next) (h : f.Unannounced seq) :
    seq = next.seq ∨ ({ f with pending := update f.pending p none } : Feed π).Unannounced seq := by
  obtain ⟨q, x, hq, hfresh, rfl⟩ := h
  by_cases heq : q = p
  · subst heq
    exact .inl (congrArg Pending.seq (Option.some.inj (hq.symm.trans hp)))
  · exact .inr ⟨q, x, by simp [heq, hq], hfresh, rfl⟩

theorem unannounced_stored (h : ∀ seq, ¬ f.Unannounced seq) :
    ({ f with
      count := f.count + 1
      pending := update f.pending p (some ⟨f.count, true⟩) } : Feed π).Unannounced seq ↔
        seq = f.count := by
  constructor
  · rintro ⟨q, next, hq, hfresh, rfl⟩
    rcases pending_update hq with ⟨-, ⟨⟩⟩ | ⟨-, hq⟩
    · rfl
    · exact absurd ⟨q, next, hq, hfresh, rfl⟩ (h next.seq)
  · rintro rfl
    exact ⟨p, _, update_self _ _ _, rfl, rfl⟩

theorem unannounced_resent {other} (hidle : f.pending p = none) :
    ({ f with pending := update f.pending p (some ⟨other, false⟩) } : Feed π).Unannounced seq ↔
      f.Unannounced seq := by
  constructor
  · rintro ⟨q, next, hq, hfresh, rfl⟩
    rcases pending_update hq with ⟨-, ⟨⟩⟩ | ⟨-, hq⟩
    · cases hfresh
    · exact ⟨q, next, hq, hfresh, rfl⟩
  · rintro ⟨q, next, hq, hfresh, rfl⟩
    have hne : q ≠ p := by
      rintro rfl
      rw [hidle] at hq
      cases hq
    exact ⟨q, next, by simp [hne, hq], hfresh, rfl⟩

omit [DecidableEq π] in
theorem Unbroken.below_sent (hf : f.Unbroken) (hcur : f.position.cursor = some cursor)
    (hreplay : f.position.paging = true ∨ ∃ held, f.entry = .holding held)
    (hrest : f.position.rest = []) : ∀ seq < cursor, seq ∈ f.sent := by
  obtain ⟨start, size, hpage, rfl, hsent⟩ := hf.replay cursor hcur hreplay
  obtain rfl : size = 0 := by simpa [hrest] using hpage.symm
  exact hsent

omit [DecidableEq π] in
/-- A release under a hold leaves no gap, and queues all that was fanned out. -/
theorem Unbroken.release (hf : f.Unbroken) {goesOn}
    (hpos : f.position = .releasing cursor goesOn) (he : f.entry = .holding held) :
    Gapless (f.sent ++ released held cursor) ∧
      ∀ seq < f.count, seq ∈ f.sent ++ released held cursor ∨ f.Unannounced seq := by
  obtain ⟨base, -, hrow, hall, hcaught⟩ := hf.holding held he
  have hcur : base ≤ cursor := hcaught cursor (by rw [hpos]; rfl) (by rw [hpos]; rfl)
  have hsent := hf.below_sent (by rw [hpos]; rfl) (.inr ⟨held, he⟩) (by rw [hpos]; rfl)
  refine ⟨gapless_released [] hf.gapless hsent hrow hcur nofun, fun seq hseq => ?_⟩
  by_cases hlow : seq < cursor
  · exact .inl (mem_append_left _ (hsent seq hlow))
  have hlow := not_lt.mp hlow
  refine (hall seq (hcur.trans hlow) hseq).imp_left fun hheld => ?_
  exact mem_append_right _ (mem_released_of_inOrder (hrow.inOrder hcur) hheld hlow)

theorem Unbroken.announce {next} (hf : f.Unbroken) (hp : f.pending p = some next)
    (hlow : ∀ lower < next.seq, lower ∈ f.sent) (he : ∀ held, f.entry ≠ .holding held) :
    Unbroken { f with
      pending := update f.pending p none
      sent := f.sent ++ [next.seq] } := by
  refine ⟨hf.gapless.snoc hlow, fun seq h => hf.last seq (unannounced_of_done h), ?_, ?_,
    fun held h => absurd h (he held)⟩
  · intro hl seq hn
    rcases hf.live hl seq hn with h | h
    · exact .inl (mem_append_left _ h)
    · rcases unannounced_cases hp h with rfl | h
      · exact .inl (mem_append_right _ mem_cons_self)
      · exact .inr h
  · intro cursor hcur hreplay
    obtain ⟨start, size, hrest, hsum, hsent⟩ := hf.replay cursor hcur hreplay
    exact ⟨start, size, hrest, hsum, fun seq hlt => mem_append_left _ (hsent seq hlt)⟩

theorem Unbroken.step (hf : f.Unbroken) (hbound : f.Bounded) (hcond : f.Careful e)
    (hs : Step f e g) : g.Unbroken := by
  -- All numbers below a committed one that a live entry or a hold lacks are not pending: only
  -- the last number is.
  have hbelow : ∀ seq lower, seq < f.count → lower < seq → ¬ f.Unannounced lower := by
    intro seq lower hseq hlt hpend
    have := hf.last lower hpend
    omega
  have hlive : f.entry = .live → ∀ {p next}, f.pending p = some next →
      ∀ lower < next.seq, lower ∈ f.sent := by
    intro he p next hp lower hlt
    have hseq := hbound.pending p next hp
    exact (hf.live he lower (hlt.trans hseq)).resolve_right (hbelow next.seq lower hseq hlt)
  cases hs with
  | @stored p hidle =>
    refine ⟨hf.gapless, ?_, ?_, hf.replay, ?_⟩
    · intro seq hseq
      rw [(unannounced_stored hcond).mp hseq]
    · intro hl seq hseq
      rcases Nat.lt_succ_iff_lt_or_eq.mp hseq with hold | hlast
      · exact .inl ((hf.live hl seq hold).resolve_right (hcond seq))
      · exact .inr ((unannounced_stored hcond).mpr hlast)
    · intro held he
      obtain ⟨base, hbase, hrow, hall, hcaught⟩ := hf.holding held he
      refine ⟨base, Nat.le_succ_of_le hbase, hrow, fun seq hlow hseq => ?_, hcaught⟩
      rcases Nat.lt_succ_iff_lt_or_eq.mp hseq with hold | hlast
      · exact .inl ((hall seq hlow hold).resolve_right (hcond seq))
      · exact .inr ((unannounced_stored hcond).mpr hlast)
  | @resent p other hidle hother =>
    refine ⟨hf.gapless, fun seq h => hf.last seq ((unannounced_resent hidle).mp h),
      fun hl seq hseq => ?_, hf.replay, fun held he => ?_⟩
    · exact (hf.live hl seq hseq).imp_right (unannounced_resent hidle).mpr
    · obtain ⟨base, hbase, hrow, hall, hcaught⟩ := hf.holding held he
      refine ⟨base, hbase, hrow, fun seq hlow hseq => ?_, hcaught⟩
      exact (hall seq hlow hseq).imp_right (unannounced_resent hidle).mpr
  | @fanoutAbsent p next hp he =>
    exact ⟨hf.gapless, fun seq h => hf.last seq (unannounced_of_done h),
      fun h => absurd (he.symm.trans h) nofun, hf.replay,
      fun held h => absurd (he.symm.trans h) nofun⟩
  | @fanoutEnds p next hp =>
    exact ⟨hf.gapless, fun seq h => hf.last seq (unannounced_of_done h), nofun,
      fun cursor hcur h => hf.replay cursor hcur (.inl (h.resolve_right nofun)),
      fun _ => nofun⟩
  | @fanoutHeld p next held hp he =>
    refine ⟨hf.gapless, fun seq h => hf.last seq (unannounced_of_done h), nofun,
      fun cursor hcur _ => hf.replay cursor hcur (.inr ⟨held, he⟩), ?_⟩
    rintro _ ⟨⟩
    obtain ⟨base, hbase, hrow, hall, hcaught⟩ := hf.holding held he
    have hseq := hbound.pending p next hp
    refine ⟨base, hbase, hrow.snoc fun lower hlt hlow => ?_, fun seq hlow hn => ?_, hcaught⟩
    · exact (hall lower hlow (hlt.trans hseq)).resolve_right (hbelow next.seq lower hseq hlt)
    · rcases hall seq hlow hn with h | h
      · exact .inl (mem_append_left _ h)
      · rcases unannounced_cases hp h with rfl | h
        · exact .inl (mem_append_right _ mem_cons_self)
        · exact .inr h
  | fanoutLive hp he => exact hf.announce hp (hlive he hp) (by simp [he])
  | acknowledged hp =>
    rcases hcond with he | ⟨he, hlow⟩
    · exact hf.announce hp (hlive he hp) (by simp [he])
    · exact hf.announce hp (hlow _ hp) (by simp [he])
  | unacknowledged hp =>
    have he : f.entry = .absent := hcond
    exact ⟨hf.gapless, fun seq h => hf.last seq (unannounced_of_done h),
      fun h => absurd (he.symm.trans h) nofun, fun _ => nofun,
      fun held h => absurd (he.symm.trans h) nofun⟩
  | registerFirst hpos he =>
    refine ⟨hf.gapless, hf.last, nofun, ?_, ?_⟩
    · rintro _ ⟨⟩ -
      exact ⟨0, 0, rfl, rfl, nofun⟩
    · rintro _ ⟨⟩
      exact ⟨f.count, le_rfl, .nil _, fun seq hlow hseq => absurd hseq (not_lt.mpr hlow),
        fun _ _ => nofun⟩
  | registerAgain hpos he =>
    refine ⟨hf.gapless, hf.last, hf.live, ?_, fun held h => ?_⟩
    · rintro _ ⟨⟩ -
      exact ⟨0, 0, rfl, rfl, nofun⟩
    · obtain ⟨base, hbase, hrow, hall, -⟩ := hf.holding held h
      exact ⟨base, hbase, hrow, hall, fun _ _ => nofun⟩
  | @read cursor size hpos hsize =>
    have hcur : f.position.cursor = some cursor := congrArg Position.cursor hpos
    have hsent := hf.below_sent hcur (.inl (by rw [hpos]; rfl)) (by rw [hpos]; rfl)
    have hle := hbound.cursor cursor hcur
    refine ⟨hf.gapless, hf.last, hf.live, fun next h _ => ?_, fun held h => ?_⟩
    · cases (cursor_within _ _ _).symm.trans h
      exact ⟨cursor, size, rest_within _ _ _, rfl, hsent⟩
    · obtain ⟨base, hbase, hrow, hall, -⟩ := hf.holding held h
      refine ⟨base, hbase, hrow, hall, fun next h hshort => ?_⟩
      cases (cursor_within _ _ _).symm.trans h
      rw [caughtUp_within, decide_eq_true_eq] at hshort
      omega
  | @failRead cursor goesOn hpos =>
    have hcur : f.position.cursor = some cursor := congrArg Position.cursor hpos
    refine ⟨hf.gapless, hf.last, hf.live, ?_, fun held h => ?_⟩
    · rintro _ ⟨⟩ -
      exact ⟨cursor, 0, rfl, rfl, hf.below_sent hcur (.inl (by rw [hpos]; rfl)) (by rw [hpos]; rfl)⟩
    · obtain ⟨horder, hall⟩ := hcond cursor held hpos h
      have hheld := hbound.held
      rw [h] at hheld
      refine ⟨cursor, hbound.cursor cursor hcur, .of_inOrder horder hheld fun seq hlow hlt => ?_,
        hall, ?_⟩
      · refine (hall seq hlow (by omega)).resolve_right fun hpend => ?_
        have := hf.last seq hpend
        omega
      · rintro _ ⟨⟩ -
        exact le_rfl
  | @queue cursor seq rest short hpos =>
    obtain ⟨start, size, hpage, hsum, hsent⟩ :=
      hf.replay cursor (congrArg Position.cursor hpos) (.inl (by rw [hpos]; rfl))
    rw [hpos] at hpage
    obtain ⟨size, rfl⟩ : ∃ k, size = k + 1 := by
      cases size with
      | zero => cases hpage
      | succ k => exact ⟨k, rfl⟩
    obtain ⟨rfl, rfl⟩ := List.cons.inj (hpage.trans range'_succ)
    refine ⟨hf.gapless.snoc hsent, hf.last, fun h x hx => ?_, fun next h _ => ?_, fun held he => ?_⟩
    · exact (hf.live h x hx).imp_left (mem_append_left _)
    · cases (cursor_within _ _ _).symm.trans h
      refine ⟨seq + 1, size, rest_within _ _ _, by omega, fun x hx => ?_⟩
      rcases Nat.lt_succ_iff_lt_or_eq.mp hx with hold | rfl
      · exact mem_append_left _ (hsent x hold)
      · exact mem_append_right _ mem_cons_self
    · obtain ⟨base, hbase, hrow, hall, hcaught⟩ := hf.holding held he
      refine ⟨base, hbase, hrow, hall, fun next h hshort => ?_⟩
      rw [cursor_within] at h
      rw [caughtUp_within] at hshort
      rw [hpos] at hcaught
      exact hcaught next h hshort
  | @timeOut cursor rest short hpos =>
    refine ⟨hf.gapless, hf.last, hf.live, ?_, fun held h => absurd h (hcond held)⟩
    exact fun _ _ h => h.elim nofun fun ⟨held, hheld⟩ => absurd hheld (hcond held)
  | @releaseNothing cursor goesOn hpos he =>
    cases goesOn <;>
      exact ⟨hf.gapless, hf.last, hf.live, fun _ => nofun, fun held h => absurd h (he held)⟩
  | @releaseAll cursor goesOn held hpos he =>
    obtain ⟨hgapless, hlive⟩ := hf.release hpos he
    cases goesOn <;> exact ⟨hgapless, hf.last, fun _ => hlive, fun _ => nofun, fun _ => nofun⟩
  | @releaseEnds cursor goesOn held sent hpos he hpart =>
    have hgapless := (hf.release hpos he).1.of_front hpart
    cases goesOn <;> exact ⟨hgapless, hf.last, nofun, fun _ => nofun, fun _ => nofun⟩
  | elsewhere => exact hf
  | ends =>
    exact ⟨hf.gapless, hf.last, nofun,
      fun cursor hcur h => hf.replay cursor hcur (.inl (h.resolve_right nofun)),
      fun _ => nofun⟩

end Feed

end WealdRelay.Handshakes
