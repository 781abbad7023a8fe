import WealdRelay.Media.Steps

/-!
# Multipart sessions

What events do to the sessions. A session is opened under a number of its own and revised
in place after that; one that is completed is not touched again.
-/

namespace WealdRelay.Media

open Lib Retention List Session

namespace Relay

/-- The sessions after some of them were revised: each keeps its number and its reservation,
and a completed one stays as it is. -/
def Revised (before after : List Session) : Prop :=
  ∃ f : Session → Session, after = before.map f ∧ ∀ session ∈ before,
    (f session).sessionId = session.sessionId ∧ (f session).workspace = session.workspace ∧
    (f session).reservationId = session.reservationId ∧
    (session.completed = true → f session = session)

/-- The sessions have numbers of their own, all of them used up. -/
structure Numbered (relay : Relay) : Prop where
  nodup : (relay.sessions.map Session.sessionId).Nodup
  lt : ∀ session ∈ relay.sessions, session.sessionId < relay.nextId

section Revised

variable {b t : List Session} {old new : Session}

theorem Revised.refl (sessions : List Session) : Revised sessions sessions :=
  ⟨id, (map_id sessions).symm, fun _ _ => ⟨rfl, rfl, rfl, fun _ => rfl⟩⟩

/-- A session that is not completed is written under its number. -/
theorem Revised.put (new : Session) (hrevised : Revised b t)
    (hnd : (b.map sessionId).Nodup) (hold : old ∈ b)
    (hundone : old.completed = false) (hid : new.sessionId = old.sessionId)
    (hws : new.workspace = old.workspace)
    (hres : new.reservationId = old.reservationId) :
    Revised b (Table.put sessionId t new) := by
  obtain ⟨f, rfl, hf⟩ := hrevised
  refine ⟨fun sess => if (f sess).sessionId = new.sessionId then new else f sess, ?_,
    fun sess hsess => ?_⟩
  · rw [Table.put, Table.modify, map_map]
    rfl
  · obtain ⟨hk, hr⟩ := hf sess hsess
    dsimp only
    split
    next heq =>
      -- Numbers are not shared, so this is the session that is written.
      obtain rfl : sess = old := inj_on_of_nodup_map hnd hsess hold (hk.symm.trans (heq.trans hid))
      exact ⟨hid, hws, hres, fun hdone => by simp [hundone] at hdone⟩
    · exact ⟨hk, hr⟩

theorem Revised.ids (h : Revised b t) : t.map sessionId = b.map sessionId := by
  obtain ⟨f, rfl, hf⟩ := h
  rw [map_map]
  exact map_congr_left fun sess hsess => (hf sess hsess).1

theorem Revised.completed (h : Revised b t) (hold : old ∈ b)
    (hdone : old.completed = true) : old ∈ t := by
  obtain ⟨f, rfl, hf⟩ := h
  exact mem_map.mpr ⟨old, hold, (hf old hold).2.2.2 hdone⟩

theorem Revised.origin (h : Revised b t) (hnew : new ∈ t) :
    ∃ old ∈ b, new.sessionId = old.sessionId := by
  obtain ⟨f, rfl, hf⟩ := h
  obtain ⟨old, hold, rfl⟩ := mem_map.mp hnew
  exact ⟨old, hold, (hf old hold).1⟩

end Revised

section Requests

variable {r : Relay}

/-- A request for a part changes nothing, or issues the URL of a part that was recorded
with this length, before or now. -/
theorem handleMultipartPart_cases (id n : Nat) (len : Int) :
    (r.handleMultipartPart id n len).1 = r ∨
    (∃ sess row parts, r.findMultipart id = some (sess, row) ∧ sess.completed = false ∧ n ≠ 0 ∧
      (r.expectedLenOf id n = some len ∧ parts = r.parts ∨
        r.expectedLenOf id n = none ∧ len ≤ sess.partSize ∧ parts = r.parts ++ [⟨id, n, len⟩]) ∧
      r.handleMultipartPart id n len = { r with parts }.issuePart sess row n len) := by
  rw [handleMultipartPart]
  split
  · exact .inl rfl
  next sess row hf =>
    split
    · exact .inl rfl
    next hopen =>
      simp only [Bool.or_eq_true, decide_eq_true_eq, not_or, Bool.not_eq_true] at hopen
      obtain ⟨⟨⟨hundone, -⟩, hnum⟩, -⟩ := hopen
      split
      · exact .inl rfl
      · split
        · exact .inl rfl
        · split
          next old hexisting =>
            split
            · exact .inl rfl
            next heq =>
              simp only [ne_eq, not_not] at heq
              subst heq
              exact .inr ⟨sess, row, r.parts, hf, hundone, hnum, .inl ⟨hexisting, rfl⟩, rfl⟩
          next hnone =>
            split
            · exact .inl rfl
            next hlen =>
              exact .inr ⟨sess, row, _, hf, hundone, hnum, .inr ⟨hnone, by omega, rfl⟩, rfl⟩

/-- The janitor revises sessions. -/
theorem abortStaleSessions_sessions (clears : Key → Bool) (hnd : (r.sessions.map sessionId).Nodup) :
    Revised r.sessions (r.abortStaleSessions clears).sessions ∧
      (r.abortStaleSessions clears).backend = r.backend ∧
      (r.abortStaleSessions clears).urls = r.urls ∧
      (r.abortStaleSessions clears).nextId = r.nextId ∧
      (r.abortStaleSessions clears).clock = r.clock := by
  rw [abortStaleSessions]
  refine foldlRecOn (motive := fun t : Relay => Revised r.sessions t.sessions ∧
    t.backend = r.backend ∧ t.urls = r.urls ∧ t.nextId = r.nextId ∧
    t.clock = r.clock) _ _
    ⟨.refl _, rfl, rfl, rfl, rfl⟩ (fun t h sess hsess => ?_)
  obtain ⟨hrevised, hr⟩ := h
  simp only [staleSessions, mem_filter, Bool.and_eq_true, Bool.not_eq_true'] at hsess
  rw [abortStale]
  split
  · exact ⟨hrevised.put _ hnd hsess.1 hsess.2.1.1 rfl rfl rfl, hr⟩
  · exact ⟨hrevised, hr⟩

variable (c : Access.Crypto) (workspaceOf : Bytes → Bytes)

theorem revised_write {id : Nat} {sess : Session} {row : Reservation} (new : Session)
    (ht : Tidy r.tables) (hnd : (r.sessions.map sessionId).Nodup)
    (hf : r.findMultipart id = some (sess, row)) (hundone : sess.completed = false)
    (hid : new.sessionId = sess.sessionId) (hws : new.workspace = sess.workspace)
    (hres : new.reservationId = sess.reservationId) :
    Revised r.sessions (Table.put sessionId r.sessions new) := by
  obtain ⟨hsess, -, -⟩ := findMultipart_some ht hf
  exact (Revised.refl _).put new hnd (Table.mem_of_lookup hsess) hundone hid hws hres

/-- A PUT or a request for a part. -/
def Event.issues : Event → Bool
  | .put _ _ _ _ _ => true
  | .part _ _ _ => true
  | _ => false

/-- Only a PUT and a request for a part issue anything. -/
theorem after_books (event : Event) (hquiet : event.issues = false) (ht : Tidy r.tables)
    (hnd : (r.sessions.map sessionId).Nodup) :
    Revised r.sessions (r.after c workspaceOf event).sessions ∧
      (r.after c workspaceOf event).backend = r.backend ∧
      (r.after c workspaceOf event).urls = r.urls ∧
      (r.after c workspaceOf event).nextId = r.nextId ∧
      (r.Possible event → r.clock ≤ (r.after c workspaceOf event).clock) := by
  have heq : Revised r.sessions r.sessions ∧ r.backend = r.backend ∧
      r.urls = r.urls ∧ r.nextId = r.nextId ∧
      (r.Possible event → r.clock ≤ r.clock) :=
    ⟨.refl _, rfl, rfl, rfl, fun _ => Int.le_refl _⟩
  cases event with
  | put | part => cases hquiet
  | complete id ns fs clears =>
    rw [after, answer]
    rcases handleMultipartComplete_cases id ns fs clears with
      ⟨ans, hcomplete, -⟩ | ⟨sess, row, hf, -, hundone, hcomplete⟩
    · rw [hcomplete]
      exact heq
    · rw [hcomplete]
      exact ⟨revised_write _ ht hnd hf hundone rfl rfl rfl, heq.2⟩
  | abort id clears =>
    rw [after, answer, Prod.map_fst, id_eq]
    rcases handleMultipartAbort_cases id clears with
      habort | ⟨sess, row, hf, hundone, -, habort⟩
    · rw [habort]
      exact heq
    · rw [habort]
      exact ⟨revised_write _ ht hnd hf hundone rfl rfl rfl, heq.2⟩
  | manifest rec fs =>
    rw [after, answer, Prod.map_fst, id_eq]
    rcases handleManifest_cases c workspaceOf rec fs ht with
      hmanifest | ⟨ts, -, -, -, -, hmanifest⟩
    · rw [hmanifest]
      exact heq
    · rw [hmanifest]
      exact heq
  | tick clock => exact ⟨heq.1, heq.2.1, rfl, rfl, fun hpos => hpos⟩
  | govern | upload | sweepUnclaimed | sweepUnreferenced | sweepRetention => exact heq
  | abortStaleSessions clears =>
    obtain ⟨hrevised, hbackend, hurls, hnext, hclock⟩ := abortStaleSessions_sessions clears hnd
    exact ⟨hrevised, hbackend, hurls, hnext, fun _ => Int.le_of_eq hclock.symm⟩

/-- The sessions are revised, or one is opened under the next free number. -/
theorem after_sessions (event : Event) (ht : Tidy r.tables)
    (hnd : (r.sessions.map sessionId).Nodup) :
    (Revised r.sessions (r.after c workspaceOf event).sessions ∧
      r.nextId ≤ (r.after c workspaceOf event).nextId) ∨
    (∃ sess, (r.after c workspaceOf event).sessions = r.sessions ++ [sess] ∧
      r.nextId ≤ sess.sessionId ∧
      sess.sessionId < (r.after c workspaceOf event).nextId) := by
  cases hissues : event.issues with
  | false =>
    obtain ⟨hrevised, -, -, hnext, -⟩ := after_books c workspaceOf event hissues ht hnd
    exact .inl ⟨hrevised, Nat.le_of_eq hnext.symm⟩
  | true =>
    cases event with
    | put g hash len lim headFails =>
      rw [after, answer]
      rcases handlePut_cases (len : Int) lim headFails ht with
        ⟨ts, ans, -, -, hput, -⟩ | ⟨ts, row, -, -, -, -, -, hput⟩
      · rw [hput]
        exact .inl ⟨.refl _, Nat.le_refl _⟩
      · rw [hput, issue]
        split
        · exact .inr ⟨_, rfl, Nat.le_succ _, Nat.lt_succ_self _⟩
        · exact .inl ⟨.refl _, Nat.le_succ _⟩
    | part id n len =>
      rw [after, answer, Prod.map_fst, id_eq]
      left
      rcases handleMultipartPart_cases id n len with
        hp | ⟨sess, row, parts, hf, hundone, -, -, hp⟩
      · rw [hp]
        exact ⟨.refl _, Nat.le_refl _⟩
      · rw [hp]
        exact ⟨revised_write _ ht hnd hf hundone rfl rfl rfl, Nat.le_refl _⟩
    | _ => cases hissues

theorem Numbered.step (event : Event) (ht : Tidy r.tables) (h : Numbered r) :
    Numbered (r.after c workspaceOf event) := by
  rcases after_sessions c workspaceOf event ht h.nodup with
    ⟨hrevised, hnext⟩ | ⟨sess, hopened, hfresh, hnext⟩
  · refine ⟨hrevised.ids ▸ h.nodup, fun new hnew => ?_⟩
    obtain ⟨old, hold, hid⟩ := hrevised.origin hnew
    have hlt := h.lt old hold
    omega
  · refine ⟨?_, fun x ho => ?_⟩
    · rw [hopened]
      exact Table.nodup_map_snoc h.nodup fun old hold => ((h.lt old hold).trans_le hfresh).ne
    · rw [hopened] at ho
      rcases mem_snoc.mp ho with hold | rfl
      · have hlt := h.lt x hold
        omega
      · exact hnext

theorem numbered_run {backend : Backend} {clock : Int} {events : List Event}
    (hrun : Run (step c workspaceOf) (unused backend clock) events r) :
    Tidy r.tables ∧ Numbered r := by
  refine Run.invariant (fun r event t h hs => ?_) hrun
    ⟨tidy_unused backend clock, nodup_nil, by simp [unused]⟩
  obtain ⟨ht, hnum⟩ := h
  obtain ⟨-, rfl⟩ := hs
  exact ⟨(after_local c workspaceOf event ht).1, hnum.step c workspaceOf event ht⟩

end Requests
end Relay
end WealdRelay.Media
