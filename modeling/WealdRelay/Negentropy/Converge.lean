import WealdRelay.Negentropy.Progress

/-!
# When reconciliation converges

The exchange reaches a round in which the client has nothing left to say, with both sides
holding the union at equal sequence numbers after exactly as many transfers as ids were on
one side only, if and only if

* no item of the client's stands at the open end of the sequence space, which no range
  reaches;
* the relay holds no id twice;
* the exchange never gets wedged (`reconciles_iff`).

A wedged exchange stays wedged (`wedged_round`): the messages go back and forth unchanged
in the stuck span. The measure that falls in every other round is the number of ids on
one side only and, in rounds that move none, what the message still lacks in weight.
-/

namespace WealdRelay.Negentropy

open Lib List Function

/-! ### A wedged exchange -/

section Wedge

variable {F : Type} {s : Sides} {lo : Nat} {r : Range F}

/-- An id in a fingerprinted span is not one that a list of another span left out. -/
theorem not_unnamed_of_fingerprint {holder rs} {P : Nat → Range F → Prop} {hi v}
    (hsort : Sorted holder) (hids : (holder.map (·.id)).Nodup)
    (hcover : Covers Range.upper P 0 rs hi)
    (hspan : (lo, r) ∈ spans Range.upper 0 rs)
    (hm : r.mode = .fingerprint v) {item} (hitem : item ∈ holder)
    (hin : lo ≤ item.seq ∧ item.seq < r.upper) {lo' range'}
    (hspan' : (lo', range') ∈ spans Range.upper 0 rs) : item.id ∉ unnamed holder lo' range' := by
  intro hunnamed
  obtain ⟨theirs, hmode', -, x, ho, hlo, hhi, heq⟩ := (mem_unnamed hsort).mp hunnamed
  have hsame := inj_on_of_nodup_map hids ho hitem heq
  subst hsame
  have hspans := hcover.span_unique hspan hin hspan' ⟨hlo, hhi⟩
  cases hspans
  rw [hm] at hmode'
  cases hmode'

theorem Stuck.exists_differing (h : Stuck s lo r) :
    ∃ item : Item, lo ≤ item.seq ∧ item.seq < r.upper ∧
      (item ∈ s.client ∧ item ∉ s.relay ∨ item ∉ s.client ∧ item ∈ s.relay) := by
  have hdiffer := h.differ
  simp only [Agree, not_forall] at hdiffer
  obtain ⟨item, hlo, hhi, hnot⟩ := hdiffer
  rcases not_iff.mp hnot with hiff
  by_cases hclient : item ∈ s.client
  · exact ⟨item, hlo, hhi, .inl ⟨hclient, fun hrelay => hiff.mpr hrelay hclient⟩⟩
  · exact ⟨item, hlo, hhi, .inr ⟨hclient, hiff.mp hclient⟩⟩

variable [DecidableEq F] {fp : List Item → F} {msg : Message F}

/-- What a round does to a span that the client and the relay both fingerprint: neither
side loses an item there, and where they differed they still do. -/
theorem Transfers.keeps_stuck {new} (h : Sound fp s msg) (ht : Transfers fp s msg new)
    (hspan : (lo, r) ∈ msg.spans) (hstuck : Stuck s lo r)
    {ans v} (hans : (lo, ans) ∈ (respond fp s.relay msg).reply.spans)
    (hupper : ans.upper = r.upper) (hm : ans.mode = .fingerprint v) :
    maxIdsPerRange < (itemsIn (exchanged fp s msg).relay lo r.upper).length ∧ maxIdsPerRange <
        (itemsIn (exchanged fp s msg).client lo r.upper).length ∧
      ¬ Agree (exchanged fp s msg).client s.relay lo r.upper ∧
      ¬ Agree (exchanged fp s msg).client (exchanged fp s msg).relay lo r.upper := by
  obtain ⟨theirs, htheirs⟩ := hstuck.fingerprinted
  have hnotPushed : ∀ item ∈ s.relay, lo ≤ item.seq → item.seq < r.upper →
      item.id ∉ (respond fp s.relay msg).push := by
    intro item hi hlo hhi hpush
    obtain ⟨lo', range', hspan', hunnamed⟩ := mem_push.mp hpush
    exact not_unnamed_of_fingerprint h.held.ascending.sorted h.held.relayIds h.cover hspan htheirs
      hi ⟨hlo, hhi⟩ hspan' hunnamed
  have hnotSent : ∀ item ∈ received fp s msg, lo ≤ item.seq →
      item.seq < r.upper → item.id ∉ sends fp s msg := by
    intro item hi hlo hhi hsend
    obtain ⟨lo', range', hspan', hunnamed⟩ := mem_send.mp hsend
    exact not_unnamed_of_fingerprint ht.between.sorted ht.between.clientIds ht.answer hans hm
      hi ⟨hlo, hupper.symm ▸ hhi⟩ hspan' hunnamed
  have hkeeps : ∀ item ∈ s.client, lo ≤ item.seq → item.seq < r.upper →
      item ∈ (exchanged fp s msg).client := by
    intro item hi hlo hhi
    have hrecv := (ht.pushed.mem item).mpr (.inl hi)
    exact (ht.sent.mem item).mpr (.inr ⟨hrecv, hnotSent item hrecv hlo hhi⟩)
  obtain ⟨item, hlo, hhi, hside⟩ := hstuck.exists_differing
  -- The differing item is on the same side as before.
  have hstill : item ∈ (exchanged fp s msg).client ∧ item ∉ s.relay ∧
        item ∉ (exchanged fp s msg).relay ∨
      item ∉ (exchanged fp s msg).client ∧ item ∈ s.relay ∧ item ∈ (exchanged fp s msg).relay := by
    rcases hside with ⟨hclient, hrelay⟩ | ⟨hclient, hrelay⟩
    · refine .inl ⟨hkeeps item hclient hlo hhi, hrelay, ?_⟩
      intro hin
      rcases ht.sent.mem_relay.mp hin with hin | hin
      · exact hrelay hin
      · exact hnotSent item ((ht.pushed.mem item).mpr (.inl hclient)) hlo hhi (ht.sent.id_mem hin)
    · refine .inr ⟨?_, hrelay, ht.sent.mem_relay.mpr (.inl hrelay)⟩
      intro hin
      rcases (ht.sent.mem item).mp hin with hin | ⟨hin, -⟩
      · exact ht.send.absent _ (ht.sent.id_mem hin) (mem_map.mpr ⟨item, hrelay, rfl⟩)
      · rcases (ht.pushed.mem item).mp hin with hin | ⟨-, hin⟩
        · exact hclient hin
        · exact hnotPushed item hrelay hlo hhi hin
  refine ⟨lt_of_lt_of_le hstuck.relay ?_, lt_of_lt_of_le hstuck.client ?_, ?_, ?_⟩
  · refine (subperm_of_subset ?_ ?_).length_le
    · exact h.held.ascending.nodup.sublist (itemsIn_sublist _ _ _)
    · intro x ho
      obtain ⟨hin, hbounds⟩ := (mem_itemsIn h.held.ascending.sorted).mp ho
      exact (mem_itemsIn ht.after.ascending.sorted).mpr ⟨ht.sent.mem_relay.mpr (.inl hin), hbounds⟩
  · refine (subperm_of_subset ?_ ?_).length_le
    · exact (List.Nodup.of_map _ h.held.clientIds).sublist (itemsIn_sublist _ _ _)
    · intro x ho
      obtain ⟨hin, hbounds⟩ := (mem_itemsIn h.held.sorted).mp ho
      exact (mem_itemsIn ht.after.sorted).mpr ⟨hkeeps x hin hbounds.1 hbounds.2, hbounds⟩
  · intro hagree
    rcases hstill with ⟨hclient, hrelay, -⟩ | ⟨hclient, hrelay, -⟩
    · exact hrelay ((hagree item hlo hhi).mp hclient)
    · exact hclient ((hagree item hlo hhi).mpr hrelay)
  · intro hagree
    rcases hstill with ⟨hclient, -, hrelay⟩ | ⟨hclient, -, hrelay⟩
    · exact hrelay ((hagree item hlo hhi).mp hclient)
    · exact hclient ((hagree item hlo hhi).mpr hrelay)

/-- A wedged exchange has another round, and is wedged after it. -/
theorem wedged_round (hinj : Injective fp) (h : Sound fp s msg) (hwedged : Wedged s msg) :
    ∃ next, nextMessage fp s msg = some next ∧ Wedged (exchanged fp s msg) next := by
  obtain ⟨hfull, lo, r, hspan, hstuck⟩ := hwedged
  obtain ⟨new, ht⟩ := h.transfers hinj
  obtain ⟨theirs, htheirs⟩ := hstuck.fingerprinted
  have htold := (says_fingerprint htheirs).mp (h.cover.of_mem_spans hspan).2.2.2
  -- The relay repeats its own fingerprint in place of the client's.
  have hans : (lo, ⟨r.upper, .fingerprint (fp (itemsIn s.relay lo r.upper))⟩) ∈
      (respond fp s.relay msg).reply.spans := by
    have hset : ¬ RelaySettles fp s.relay lo r := by
      simp only [RelaySettles, htheirs]
      intro heq
      exact hstuck.differ (agree_of_itemsIn_eq h.held.ascending.sorted h.held.sorted
        (hinj (heq.trans htold))).symm
    have hlimit : ¬ (itemsIn s.relay lo r.upper).length ≤ idlistLimit :=
      not_le.mpr (lt_of_le_of_lt (by decide) hstuck.relay)
    have hspans := (narrows_respondSpan fp _).at_span h.held.ascending.sorted h.cover hspan hfull
    rw [respondSpan_narrows hset, narrow, if_neg hlimit,
      splitBounded_of_le_one _ _ _ (le_refl 1), if_neg (not_le.mpr hstuck.relay)] at hspans
    exact hspans _ mem_cons_self
  obtain ⟨hrelay, hclient, hb, ha⟩ := ht.keeps_stuck h hspan hstuck hans rfl rfl
  have hfull' := le_trans hfull ((narrows_respondSpan fp s.relay).le_length msg)
  have hset : ¬ ClientSettles fp (exchanged fp s msg).client lo
      ⟨r.upper, .fingerprint (fp (itemsIn s.relay lo r.upper))⟩ := by
    simp only [ClientSettles]
    intro heq
    exact hb (agree_of_itemsIn_eq ht.after.sorted h.held.ascending.sorted (hinj heq))
  have hlimit : ¬ (itemsIn (exchanged fp s msg).client lo r.upper).length ≤
      idlistLimit := not_le.mpr (lt_of_le_of_lt (by decide) hclient)
  have hspans := (narrows_advanceSpan fp _).at_span ht.after.sorted ht.answer hans hfull'
  rw [advanceSpan_narrows hset 1, narrow, if_neg hlimit,
    splitBounded_of_le_one _ _ _ (le_refl 1), if_neg (not_le.mpr hclient)] at hspans
  cases hreply : nextMessage fp s msg with
  | none => exact absurd (advance_reply_eq_none_iff.mp hreply lo _ hans) hset
  | some next =>
    refine ⟨next, rfl, ?_, lo, ⟨r.upper, .fingerprint (fp
      (itemsIn (exchanged fp s msg).client lo r.upper))⟩, ?_,
      ⟨⟨_, rfl⟩, hrelay, hclient, ha⟩⟩
    · rw [eq_of_advance_reply hreply]
      exact le_trans hfull' ((narrows_advanceSpan fp _).le_length (respond fp s.relay msg).reply)
    · rw [Message.spans, eq_of_advance_reply hreply]
      exact hspans _ mem_cons_self

end Wedge

/-! ### Runs of rounds -/

/-- What every round keeps from the opening on. -/
structure Tracks {F : Type} (fingerprint : List Item → F) (start : Sides)
    (exchange : Exchange F) : Prop where
  sound : ∀ message, exchange.message = some message → Sound fingerprint exchange.sides message
  done : exchange.message = none → exchange.sides.relay = exchange.sides.client
  union : idSet exchange.sides.relay ∪ idSet exchange.sides.client =
    idSet start.relay ∪ idSet start.client
  moved : exchange.moved + difference exchange.sides.relay exchange.sides.client =
    difference start.relay start.client

theorem tracks_opening {F : Type} {fp : List Item → F} {start}
    (h : WellHeld start.relay start.client) : Tracks fp start (opening fp start) where
  sound := by
    intro msg hmsg
    cases hmsg
    exact sound_opening fp h
  done h := by cases h
  union := rfl
  moved := Nat.zero_add _

/-- What an exchange still has to do: ids to move, then weight to gain. -/
def remaining {F : Type} (exchange : Exchange F) : Nat :=
  match exchange.message with
  | none => 0
  | some message =>
    difference exchange.sides.relay exchange.sides.client * (4 * maxRanges + 1) +
      (4 * maxRanges - (message.ranges.map weight).sum) + 1

section Runs

variable {F : Type} [DecidableEq F] {fp : List Item → F} {start : Sides}
  {ex : Exchange F} {msg : Message F}

theorem round_of_some (h : ex.message = some msg) : round fp ex =
      { sides := exchanged fp ex.sides msg
        message := nextMessage fp ex.sides msg
        moved := ex.moved + (respond fp ex.sides.relay msg).push.length +
          (sends fp ex.sides msg).length } := by
  simp only [round, h, nextMessage]

theorem round_of_none (h : ex.message = none) : round fp ex = ex := by
  simp only [round, h]

variable (hinj : Injective fp)
include hinj

theorem tracks_round (h : Tracks fp start ex) : Tracks fp start (round fp ex) := by
  cases hmsg : ex.message with
  | none =>
    rw [round_of_none hmsg]
    exact h
  | some msg =>
    have hsound := h.sound msg hmsg
    obtain ⟨new, ht⟩ := hsound.transfers hinj
    have hunion := ht.union
    have hdiff := ht.difference
    have hmoved := h.moved
    rw [round_of_some hmsg]
    exact
      { sound := fun next hnext => hsound.next hinj hnext
        done := fun hdone => hsound.eq_of_done hinj hdone
        union := hunion.trans h.union
        moved := by dsimp only; omega }

omit hinj in
theorem rounds_succ (fp : List Item → F) (start : Sides) (n : Nat) :
    rounds fp start (n + 1) = round fp (rounds fp start n) :=
  iterate_succ_apply' _ _ _

theorem tracks_rounds (h : WellHeld start.relay start.client) (n : Nat) :
    Tracks fp start (rounds fp start n) := by
  induction n with
  | zero => exact tracks_opening h
  | succ n ih =>
    rw [rounds_succ]
    exact tracks_round hinj ih

/-- A round that does not end wedged leaves less to do. -/
theorem remaining_round_lt (h : Tracks fp start ex) (hmsg : ex.message = some msg)
    (hnot : ∀ next, (round fp ex).message = some next → ¬ Wedged (round fp ex).sides next) :
    remaining (round fp ex) < remaining ex := by
  have hsound := h.sound msg hmsg
  obtain ⟨new, ht⟩ := hsound.transfers hinj
  have hdiff := ht.difference
  rw [round_of_some hmsg] at hnot ⊢
  simp only [remaining, hmsg]
  dsimp only at hnot
  cases hreply : nextMessage fp ex.sides msg with
  | none => exact Nat.succ_pos _
  | some next =>
    have hlen := (hsound.next hinj hreply).length
    have hweight := sum_le_four_mul_length next.ranges
    by_cases hquiet : (respond fp ex.sides.relay msg).push.length +
        (sends fp ex.sides msg).length = 0
    · -- Nothing moved, so the sides are the same and the message gained weight.
      have hpush : (respond fp ex.sides.relay msg).push = [] :=
        length_eq_zero_iff.mp (by omega)
      have hsend : sends fp ex.sides msg = [] :=
        length_eq_zero_iff.mp (by omega)
      have hrecv : received fp ex.sides msg = ex.sides.client := by
        rw [received, hpush]
        rfl
      have hsides : exchanged fp ex.sides msg = ex.sides := by
        rw [exchanged, hsend, hrecv]
        rfl
      have hnotWedged := hnot next hreply
      rw [sends, hrecv] at hsend
      rw [nextMessage, hsides] at hreply
      rw [hsides] at hnotWedged ⊢
      have hgain := sum_weight_lt hsound hpush hsend hreply hnotWedged
      dsimp only
      omega
    · have hfewer : difference (exchanged fp ex.sides msg).relay
          (exchanged fp ex.sides msg).client + 1 ≤
          difference ex.sides.relay ex.sides.client := by omega
      have hscaled := Nat.mul_le_mul_right (4 * maxRanges + 1) hfewer
      rw [Nat.add_mul, Nat.one_mul] at hscaled
      dsimp only
      omega

theorem exists_done (h : WellHeld start.relay start.client)
    (hnot : ∀ n msg, (rounds fp start n).message = some msg →
      ¬ Wedged (rounds fp start n).sides msg) : ∃ n, (rounds fp start n).message = none := by
  by_contra hnever
  push Not at hnever
  have hfalls : ∀ n, remaining (rounds fp start n) + n ≤ remaining (rounds fp start 0) := by
    intro n
    induction n with
    | zero => exact le_refl _
    | succ n ih =>
      obtain ⟨msg, hmsg⟩ := Option.ne_none_iff_exists'.mp (hnever n)
      have hlt := remaining_round_lt hinj (tracks_rounds hinj h n) hmsg
        (by rw [← rounds_succ]; exact hnot (n + 1))
      rw [← rounds_succ] at hlt
      omega
  have hlast := hfalls (remaining (rounds fp start 0) + 1)
  omega

omit hinj in
theorem done_of_le {n k} (hle : n ≤ k) (hdone : (rounds fp start n).message = none) :
    (rounds fp start k).message = none := by
  induction k, hle using Nat.le_induction with
  | base => exact hdone
  | succ k _ ih =>
    rw [rounds_succ, round_of_none ih]
    exact ih

/-- An exchange that got wedged never ends. -/
theorem never_done_of_wedged (h : WellHeld start.relay start.client) {n}
    (hmsg : (rounds fp start n).message = some msg)
    (hwedged : Wedged (rounds fp start n).sides msg) (k : Nat) :
    (rounds fp start k).message ≠ none := by
  have hlater : ∀ more, ∃ next, (rounds fp start (n + more)).message = some next ∧
      Wedged (rounds fp start (n + more)).sides next := by
    intro more
    induction more with
    | zero => exact ⟨msg, hmsg, hwedged⟩
    | succ more ih =>
      obtain ⟨next, hnext, hstill⟩ := ih
      have hsound := (tracks_rounds hinj h (n + more)).sound next hnext
      rw [← Nat.add_assoc, rounds_succ, round_of_some hnext]
      exact wedged_round hinj hsound hstill
  intro hdone
  obtain ⟨next, hnext, -⟩ := hlater k
  rw [done_of_le (Nat.le_add_left k n) hdone] at hnext
  cases hnext

end Runs

/-! ### What holds of any sides -/

section Raw

variable {held r cl : List Item} {item : Item}

theorem subperm_insert (held : List Item) (item : Item) : held.Subperm (insert held item) := by
  rw [insert]
  split
  · exact List.Subperm.refl _
  · refine List.Subperm.trans ?_ (perm_insertionSort (· ≤ ·) _).symm.subperm
    exact (sublist_append_left held [item]).subperm

theorem mem_insert {x} (h : x ∈ insert held item) : x ∈ held ∨ x = item := by
  rw [insert] at h
  split at h
  · exact .inl h
  · simpa using h

theorem nodup_insert (h : (held.map (·.id)).Nodup) (item : Item) :
    ((insert held item).map (·.id)).Nodup := by
  by_cases hin : item.id ∈ held.map (·.id)
  · obtain ⟨x, ho, heq⟩ := mem_map.mp hin
    have hany : held.any (·.id == item.id) = true :=
      any_eq_true.mpr ⟨x, ho, by simpa using heq⟩
    rw [insert, if_pos hany]
    exact h
  · exact (insert_spec item hin h).2.2

/-- Pushes leave the client what it has, and no id twice. -/
theorem applyPushes_raw (r : List Item) (push : List Id) (h : (cl.map (·.id)).Nodup) :
    cl.Subperm (applyPushes r cl push) ∧ ((applyPushes r cl push).map (·.id)).Nodup := by
  induction push generalizing cl with
  | nil => exact ⟨List.Subperm.refl _, h⟩
  | cons id rest ih =>
    simp only [applyPushes, foldl_cons]
    cases find r id with
    | none => exact ih h
    | some pushed =>
      obtain ⟨hsub, hnd⟩ := ih (nodup_insert h pushed)
      exact ⟨(subperm_insert cl pushed).trans hsub, hnd⟩

/-- Sends leave the relay what it has and the client what it did not send. -/
theorem applySends_raw (send : List Id) (h : (cl.map (·.id)).Nodup) :
    r.Subperm (applySends ⟨r, cl⟩ send).relay ∧
      ((applySends ⟨r, cl⟩ send).client.map (·.id)).Nodup ∧
      (∀ item ∈ cl, item.id ∉ send → item ∈ (applySends ⟨r, cl⟩ send).client) ∧
      ∀ item ∈ (applySends ⟨r, cl⟩ send).relay, item ∈ r ∨ item.id ∈ send := by
  induction send generalizing r cl with
  | nil => exact ⟨List.Subperm.refl _, h, fun _ hi _ => hi, fun _ hi => .inl hi⟩
  | cons id rest ih =>
    have hk : ((cl.filter (·.id ≠ id)).map (·.id)).Nodup :=
      h.sublist (filter_sublist.map _)
    obtain ⟨hrelay, hids, hstays, honly⟩ :=
      @ih (insert r ⟨maxSeq r + 1, id⟩) _ (nodup_insert hk ⟨maxSeq r + 1, id⟩)
    refine ⟨(subperm_insert r _).trans hrelay, hids, ?_, ?_⟩
    · intro item hi hnot
      rw [mem_cons, not_or] at hnot
      refine hstays item ((subperm_insert _ _).subset ?_) hnot.2
      simpa using ⟨hi, hnot.1⟩
    · intro item hi
      rcases honly item hi with hi | hin
      · rcases mem_insert hi with hi | rfl
        · exact .inl hi
        · exact .inr mem_cons_self
      · exact .inr (mem_cons_of_mem _ hin)

end Raw

section Bounds

variable {F : Type} (fp : List Item → F) {xs : List Item} {hi : Nat} {item : Item}

theorem of_mem_itemsIn {lo} (h : item ∈ itemsIn xs lo hi) : item ∈ xs ∧ item.seq < hi := by
  refine ⟨(itemsIn_sublist _ _ _).subset h, ?_⟩
  simpa using mem_takeWhile_imp h

theorem upper_le_of_mem_splitLoop {bk} : ∀ (fuel : Nat) {xs r}, (∀ item ∈ xs, item.seq ≤ hi) →
      r ∈ splitLoop fp bk hi fuel xs → r.upper ≤ hi
  | 0, _, _, _, h => by cases h
  | _ + 1, [], _, _, h => by cases h
  | fuel + 1, first :: rest, r, hitems, h => by
      have ha : ∀ item ∈ (nextChunk bk (first :: rest)).2, item.seq ≤ hi := by
        intro item hitem
        refine hitems item (((dropWhile_sublist _).trans (drop_sublist _ _)).subset hitem)
      simp only [splitLoop, mem_cons] at h
      rcases h with rfl | h
      · dsimp only
        split
        next => exact le_refl _
        next next tail hnext => exact ha next (hnext ▸ mem_cons_self)
      · exact upper_le_of_mem_splitLoop fuel ha h

theorem upper_le_of_mem_narrow {b r}
    (hitems : ∀ item ∈ xs, item.seq ≤ hi) (h : r ∈ narrow fp xs hi b) : r.upper ≤ hi := by
  have hsingle : ∀ mode, r ∈ [(⟨hi, mode⟩ : Range F)] → r.upper ≤ hi := by
    intro mode hrange
    rw [mem_singleton.mp hrange]
  simp only [narrow, splitBounded] at h
  split_ifs at h
  · exact hsingle _ h
  · exact hsingle _ h
  · exact hsingle _ h
  · exact hsingle _ h
  · exact upper_le_of_mem_splitLoop fp _ hitems h

variable {fp}

theorem Narrows.upper_le {α : Type} {arm : Nat → Nat → Range F → List (Range F) × α}
    (h : Narrows fp xs arm) {inc : Message F} (hincoming : ∀ r ∈ inc.ranges, r.upper ≤ hi) :
    ∀ r ∈ (overSpans arm 0 inc.spans).1, r.upper ≤ hi := by
  refine (h.refines inc).forall_mem ?_
  rintro lo r part hrange ⟨b, -, -, -, rfl⟩ ans hans
  refine le_trans ?_ (hincoming r hrange)
  rcases h b lo r with hskip | hnarrow
  · rw [hskip, mem_singleton] at hans
    rw [hans]
  · rw [hnarrow] at hans
    exact upper_le_of_mem_narrow fp (fun item hitem => le_of_lt (of_mem_itemsIn hitem).2) hans

variable [DecidableEq F] {start : Sides} {ex : Exchange F}

/-- The relay loses nothing and the client holds no id twice. -/
structure Kept (start : Sides) (exchange : Exchange F) : Prop where
  grown : start.relay.Subperm exchange.sides.relay
  ids : (exchange.sides.client.map (·.id)).Nodup

theorem kept_round (h : Kept start ex) : Kept start (round fp ex) := by
  cases hmsg : ex.message with
  | none =>
    rw [round_of_none hmsg]
    exact h
  | some msg =>
    have hrecv := (applyPushes_raw ex.sides.relay (respond fp ex.sides.relay msg).push h.ids).2
    obtain ⟨hrelay, hids, -⟩ := @applySends_raw ex.sides.relay _ (sends fp ex.sides msg) hrecv
    rw [round_of_some hmsg]
    exact ⟨h.grown.trans hrelay, hids⟩

theorem kept_rounds (fp : List Item → F) (h : (start.client.map (·.id)).Nodup) (n : Nat) :
    Kept start (rounds fp start n) := by
  induction n with
  | zero => exact ⟨List.Subperm.refl _, h⟩
  | succ n ih =>
    rw [rounds_succ]
    exact kept_round ih

/-- An item of the client's that no range reaches, and whose id the relay does not hold. -/
structure Unreached (item : Item) (exchange : Exchange F) : Prop where
  held : item ∈ exchange.sides.client
  absent : item.id ∉ exchange.sides.relay.map (·.id)
  uppers : ∀ message, exchange.message = some message →
    ∀ range ∈ message.ranges, range.upper ≤ infinity

theorem unreached_round (hseq : infinity ≤ item.seq) (hk : Kept start ex)
    (h : Unreached item ex) : Unreached item (round fp ex) := by
  cases hmsg : ex.message with
  | none =>
    rw [round_of_none hmsg]
    exact h
  | some msg =>
    have hans := (narrows_respondSpan fp ex.sides.relay).upper_le (h.uppers msg hmsg)
    obtain ⟨hsub, hids⟩ := applyPushes_raw ex.sides.relay
      (respond fp ex.sides.relay msg).push hk.ids
    have hrecv := hsub.subset h.held
    -- A sent id is one of a span, which ends below the item.
    have hnot : item.id ∉ sends fp ex.sides msg := by
      intro hin
      obtain ⟨lo, r, hspan, hunnamed⟩ := mem_send.mp hin
      obtain ⟨x, ho, heq⟩ := exists_of_mem_unnamed hunnamed
      obtain ⟨hheld, hlt⟩ := of_mem_itemsIn ho
      have hsame := inj_on_of_nodup_map hids hheld hrecv heq
      have hupper := hans r (mem_of_mem_spans _ hspan)
      rw [hsame] at hlt
      omega
    obtain ⟨-, -, hstays, honly⟩ := @applySends_raw ex.sides.relay _ (sends fp ex.sides msg) hids
    rw [round_of_some hmsg]
    refine ⟨hstays item hrecv hnot, ?_, ?_⟩
    · intro hin
      obtain ⟨x, ho, heq⟩ := mem_map.mp hin
      rcases honly x ho with hold | hsent
      · exact h.absent (mem_map.mpr ⟨x, hold, heq⟩)
      · exact hnot (heq ▸ hsent)
    · intro next hnext r hrange
      rw [eq_of_advance_reply hnext] at hrange
      exact (narrows_advanceSpan fp _).upper_le hans r hrange

theorem unreached_rounds (fp : List Item → F) (hseq : infinity ≤ item.seq)
    (hids : (start.client.map (·.id)).Nodup) (hheld : item ∈ start.client)
    (habs : item.id ∉ start.relay.map (·.id))
    (hbounded : ∀ x ∈ start.client, x.seq ≤ infinity) (n : Nat) :
    Unreached item (rounds fp start n) := by
  induction n with
  | zero =>
    refine ⟨hheld, habs, ?_⟩
    intro msg hmsg r hrange
    cases hmsg
    rw [initiate_ranges] at hrange
    exact upper_le_of_mem_narrow fp hbounded hrange
  | succ n ih =>
    rw [rounds_succ]
    exact unreached_round hseq (kept_rounds fp hids n) ih

end Bounds

/-! ### The theorem -/

/-- What an exchange starts from: the relay's items sorted, at distinct sequence numbers
that a `bigint` holds; the client's sorted, with no id twice; an id of both at one sequence
number; and no more items than a group may have. -/
structure Legal (sides : Sides) : Prop where
  relaySorted : Ascending sides.relay
  relaySeqs : ∀ item ∈ sides.relay, item.seq < 9223372036854775808
  clientSorted : Sorted sides.client
  clientSeqs : ∀ item ∈ sides.client, item.seq ≤ infinity
  clientIds : (sides.client.map (·.id)).Nodup
  shared : ∀ a ∈ sides.relay, ∀ b ∈ sides.client, a.id = b.id → a.seq = b.seq
  total : sides.relay.length + sides.client.length ≤ 100000

/-- The exchange ends, with the union of the ids on both sides at equal sequence numbers,
and moved exactly the ids that only one side had. -/
def Reconciles {F : Type} [DecidableEq F] (fingerprint : List Item → F) (sides : Sides) : Prop :=
  ∃ n, (rounds fingerprint sides n).message = none ∧
    (rounds fingerprint sides n).sides.relay = (rounds fingerprint sides n).sides.client ∧
    idSet (rounds fingerprint sides n).sides.relay = idSet sides.relay ∪ idSet sides.client ∧
    (rounds fingerprint sides n).moved = difference sides.relay sides.client

section Convergence

variable {sides : Sides}

theorem maxSeq_lt {held bound} (hpos : 0 < bound)
    (h : ∀ item ∈ held, item.seq < bound) : maxSeq held < bound := by
  suffices hfold : ∀ top < bound, held.foldl (fun top item => max top item.seq) top < bound from
    hfold 0 hpos
  induction held with
  | nil => exact fun top htop => htop
  | cons first rest ih =>
    intro top htop
    exact ih (fun item hi => h item (mem_cons_of_mem _ hi)) _ (max_lt htop (h first mem_cons_self))

theorem difference_le (r cl : List Item) : difference r cl ≤ r.length + cl.length := by
  have hunion : (symmDiff (idSet r) (idSet cl)).card ≤
      (idSet r ∪ idSet cl).card := Finset.card_le_card Finset.symmDiff_subset_union
  have hcards := Finset.card_union_le (idSet r) (idSet cl)
  have hrelay := toFinset_card_le (r.map (·.id))
  have hclient := toFinset_card_le (cl.map (·.id))
  rw [length_map] at hrelay hclient
  exact le_trans hunion (le_trans hcards (Nat.add_le_add hrelay hclient))

theorem Legal.wellHeld (h : Legal sides) (hseqs : ∀ item ∈ sides.client, item.seq < infinity)
    (hids : (sides.relay.map (·.id)).Nodup) : WellHeld sides.relay sides.client where
  ascending := h.relaySorted
  sorted := h.clientSorted
  relayIds := hids
  clientIds := h.clientIds
  shared := by
    rintro ⟨seq, id⟩ ha ⟨seq', id'⟩ hb heq
    have hseq := h.shared _ ha _ hb heq
    dsimp only at heq hseq
    rw [heq, hseq]
  bounded := hseqs
  room := by
    have htop := maxSeq_lt (by decide) h.relaySeqs
    have hdiff := difference_le sides.relay sides.client
    have htotal := h.total
    have hinfinity : infinity = 18446744073709551615 := rfl
    omega

variable {F : Type} [DecidableEq F] {fingerprint : List Item → F}

theorem Legal.clientSeqs_lt_of_reconciles (h : Legal sides)
    (hreconciles : Reconciles fingerprint sides) : ∀ item ∈ sides.client, item.seq < infinity := by
  intro item hi
  by_contra hge
  obtain ⟨n, -, hsame, -⟩ := hreconciles
  have habs : item.id ∉ sides.relay.map (·.id) := by
    intro hin
    obtain ⟨x, ho, heq⟩ := mem_map.mp hin
    have hseq := h.shared x ho item hi heq
    have hlt := h.relaySeqs x ho
    have hinfinity : infinity = 18446744073709551615 := rfl
    omega
  have hunreached := unreached_rounds fingerprint (not_lt.mp hge) h.clientIds hi habs h.clientSeqs n
  exact hunreached.absent (hsame ▸ mem_map.mpr ⟨item, hunreached.held, rfl⟩)

theorem Legal.relayIds_of_reconciles (h : Legal sides)
    (hreconciles : Reconciles fingerprint sides) : (sides.relay.map (·.id)).Nodup := by
  obtain ⟨n, -, heq, -⟩ := hreconciles
  have hk := kept_rounds fingerprint h.clientIds n
  obtain ⟨part, hperm, hsub⟩ := hk.grown
  rw [← (hperm.map _).nodup_iff]
  exact (heq ▸ hk.ids).sublist (hsub.map _)

/--
The exchange reconciles the sides exactly if no range misses an item of the client's, the
relay holds no id twice, and no round leaves a full message with a stuck span.
-/
theorem reconciles_iff
    (hinjective : Injective fingerprint)
    (h : Legal sides) :
    Reconciles fingerprint sides ↔
      (∀ item ∈ sides.client, item.seq < infinity) ∧ (sides.relay.map (·.id)).Nodup ∧
        ∀ n message, (rounds fingerprint sides n).message = some message →
          ¬ Wedged (rounds fingerprint sides n).sides message := by
  constructor
  · intro hreconciles
    have hseqs := h.clientSeqs_lt_of_reconciles hreconciles
    have hids := h.relayIds_of_reconciles hreconciles
    refine ⟨hseqs, hids, ?_⟩
    intro n message hmessage hwedged
    obtain ⟨k, hdone, -⟩ := hreconciles
    exact never_done_of_wedged hinjective (h.wellHeld hseqs hids) hmessage hwedged k hdone
  · rintro ⟨hseqs, hids, hnot⟩
    have hheld := h.wellHeld hseqs hids
    obtain ⟨n, hdone⟩ := exists_done hinjective hheld hnot
    have htracks := tracks_rounds hinjective hheld n
    have heq := htracks.done hdone
    refine ⟨n, hdone, heq, ?_, ?_⟩
    · have hunion := htracks.union
      rw [← heq, Finset.union_self] at hunion
      exact hunion
    · have hmoved := htracks.moved
      rw [← heq, difference, symmDiff_self] at hmoved
      exact hmoved

end Convergence

theorem idCount_pos : 0 < idCount := Nat.pow_pos (by decide)

/-- The item of an envelope with this content address. -/
def itemOf (seq address : Nat) : Item := ⟨seq, ⟨address % idCount, Nat.mod_lt _ idCount_pos⟩⟩

/-- Two envelopes only the relay has, one only the client has, and one they share. -/
def sampleSides : Sides :=
  ⟨[itemOf 1 1, itemOf 2 2, itemOf 4 4], [itemOf 2 2, itemOf 3 3]⟩

/-- The sample reconciles in two rounds, so none of its rounds is wedged. -/
theorem sample_reconciles : Reconciles (fun items => items) sampleSides ∧
      ∀ n message, (rounds (fun items => items) sampleSides n).message = some message →
        ¬ Wedged (rounds (fun items => items) sampleSides n).sides message := by
  have hlegal : Legal sampleSides :=
    { relaySorted := (by decide +kernel : sampleSides.relay.Pairwise (fun a b => a.seq < b.seq))
      relaySeqs := by decide +kernel
      clientSorted := (by decide +kernel : sampleSides.client.Pairwise (fun a b => a.seq ≤ b.seq))
      clientSeqs := by decide +kernel
      clientIds := by decide +kernel
      shared := by decide +kernel
      total := by decide +kernel }
  have hreconciles : Reconciles (fun items => items) sampleSides :=
    ⟨2, by decide +kernel, by decide +kernel, by decide +kernel, by decide +kernel⟩
  exact ⟨hreconciles, ((reconciles_iff injective_id hlegal).mp hreconciles).2.2⟩

end WealdRelay.Negentropy
