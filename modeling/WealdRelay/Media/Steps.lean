import WealdRelay.Media.Uploads

/-!
# What one event changes

The media of a relay seen object by object. `RowStep` lists what an event can do to the
row of an object and `ObjectStep` what it can do to the object itself; each event does one
of these things to each object, and keeps the books balanced.
-/

namespace WealdRelay.Media

open Lib Retention

namespace Relay

/-- The row of an object. -/
def rowOf (relay : Relay) (workspace group hash : Bytes) : Option Reservation :=
  (relay.tables workspace).rowOf group hash

/-- The object that is stored. -/
def blob (relay : Relay) (workspace group hash : Bytes) : Option StoredObject :=
  relay.objects.get (.blob workspace group hash)

/-- Whether a PUT learns that the object is there. -/
def alreadyStored (relay : Relay) (workspace group hash : Bytes) (headFails : Bool) : Bool :=
  !headFails && (relay.blob workspace group hash).isSome

section Parts

variable {r : Relay} {objects : Storage} {sess : Nat} {clears : Key → Bool}
  {ns : List Nat}

/-- Under each name the store holds what it held, unless it is a part and is gone. -/
def LosesParts (before after : Storage) : Prop :=
  ∀ key, after.get key = before.get key ∨ (∃ id n, key = .part id n) ∧ after.get key = none

theorem LosesParts.trans {first second third : Storage} (h : LosesParts first second)
    (hnext : LosesParts second third) : LosesParts first third := by
  intro key
  rcases hnext key with heq | hgone
  · exact heq ▸ h key
  · exact .inr hgone

theorem LosesParts.blob {before after : Storage} (h : LosesParts before after)
    (ws g hash : Bytes) : after.get (.blob ws g hash) = before.get (.blob ws g hash) :=
  (h _).resolve_right (by rintro ⟨⟨id, n, hkey⟩, -⟩; cases hkey)

theorem losesParts_deleteParts : LosesParts objects (deleteParts objects sess clears ns) := by
  rw [deleteParts]
  refine List.foldlRecOn (motive := LosesParts objects) _ _ (fun _ => .inl rfl)
    (fun t h n _ => h.trans fun key => ?_)
  split
  · rw [Storage.get_delete]
    split
    next hkey => exact .inr ⟨⟨sess, n, hkey⟩, rfl⟩
    · exact .inl rfl
  · exact .inl rfl

/-- The parts that go are not the object. -/
theorem get_deleteParts (ws g hash : Bytes) :
    (deleteParts objects sess clears ns).get (.blob ws g hash) = objects.get (.blob ws g hash) :=
  losesParts_deleteParts.blob ws g hash

/-- The janitor touches neither the tables nor the objects that are whole. -/
theorem abortStaleSessions_keeps (r : Relay) (clears : Key → Bool) :
    (r.abortStaleSessions clears).tables = r.tables ∧
      (r.abortStaleSessions clears).records = r.records ∧
      LosesParts r.objects (r.abortStaleSessions clears).objects := by
  rw [abortStaleSessions]
  refine List.foldlRecOn (motive := fun t : Relay => t.tables = r.tables ∧
    t.records = r.records ∧ LosesParts r.objects t.objects) _ _
    ⟨rfl, rfl, fun _ => .inl rfl⟩ (fun t h sess _ => ?_)
  obtain ⟨htables, hrecords, hloses⟩ := h
  rw [abortStale]
  split <;> exact ⟨htables, hrecords, hloses.trans losesParts_deleteParts⟩

end Parts

/-! ## Requests -/

section Requests

variable {r : Relay} {ws g hash : Bytes}

/-- A PUT leaves every row as it is and issues nothing, or takes a reservation for an
object it did not see and issues a URL or a session for it. -/
theorem handlePut_cases (len : Int) (lim : Option Int) (headFails : Bool) (ht : Tidy r.tables) :
    (∃ ts ans, Tidy ts ∧ (∀ w group' hash', (ts w).rowOf group' hash' = r.rowOf w group' hash') ∧
      r.handlePut ws g hash len lim headFails = ({ r with tables := ts }, ans) ∧
      ∀ url, ans ≠ .upload url) ∨
    (∃ ts row, Tidy ts ∧ len ≠ 0 ∧ r.alreadyStored ws g hash headFails = false ∧
      row = Reservation.requested g hash len presignTtlSeconds r.nextId r.clock
        (r.rowOf ws g hash) ∧
      Rewrites r.tables ts ws g hash (some row) ∧
      r.handlePut ws g hash len lim headFails =
        { r with tables := ts, nextId := r.nextId + 1 }.issue ws g hash len row.reservationId) := by
  rw [handlePut]
  split
  · exact .inl ⟨r.tables, _, ht, fun _ _ _ => rfl, rfl, by simp⟩
  next hlen =>
    simp only [Bool.or_eq_true, decide_eq_true_eq, not_or] at hlen
    rcases takeReservation_cases ws g hash len lim
      (r.alreadyStored ws g hash headFails) r.nextId r.clock ht with
      ⟨ans, ts, htables, hrows, htake, hans⟩ |
        ⟨row, ts, htables, habs, hrow, hrows, htake⟩
    · simp only [alreadyStored, blob] at htake
      simp only [htake]
      cases ans with
      | error reason => cases reason <;> exact .inl ⟨ts, _, htables, hrows, rfl, by simp⟩
      | ok reserved =>
        cases reserved with
        | alreadyStored => exact .inl ⟨ts, _, htables, hrows, rfl, by simp⟩
        | active id => exact absurd rfl (hans id)
    · refine .inr ⟨ts, row, htables, hlen.1, habs, hrow, hrows, ?_⟩
      simp only [alreadyStored, blob] at htake
      simp only [htake]

/-- The reservation a session spends is the row of its object. -/
theorem findMultipart_some {id sess row}
    (ht : Tidy r.tables) (h : r.findMultipart id = some (sess, row)) :
    r.session id = some sess ∧ row.reservationId = sess.reservationId ∧
      r.rowOf sess.workspace row.group row.hash = some row := by
  rw [findMultipart] at h
  split at h
  · cases h
  next found hf =>
    obtain ⟨row', hrow, heq⟩ := Option.map_eq_some_iff.mp h
    obtain ⟨rfl, rfl⟩ := Prod.mk.inj heq
    exact ⟨hf, Table.key_of_lookup hrow,
      Ledger.rowOf_of_mem (ht.single _) (Table.mem_of_lookup hrow)⟩

/-- The parts could not be measured. -/
theorem measure_error {id} {fs : Key → Option Fault} {ns ans}
    (h : r.measure id fs ns = .error ans) : ans = .backpressure ∨ ans = .malformedHeader := by
  induction ns with
  | nil => cases h
  | cons n ns ih =>
    rw [measure] at h
    split at h
    · exact .inl (Except.error.inj h).symm
    · exact .inr (Except.error.inj h).symm
    · exact .inr (Except.error.inj h).symm
    next object _ _ =>
      cases hr : r.measure id fs ns with
      | error reason =>
        rw [hr] at h
        obtain rfl := Except.error.inj h
        exact ih hr
      | ok rest =>
        rw [hr] at h
        cases h

/-- A COMPLETE changes nothing, or writes the object and closes the session. -/
theorem handleMultipartComplete_cases (id : Nat) (ns : List Nat)
    (fs : Key → Option Fault) (clears : Key → Bool) :
    (∃ ans, r.handleMultipartComplete id ns fs clears = (r, ans) ∧
      (ans = .multipartCompleted → ∃ sess row,
        r.findMultipart id = some (sess, row) ∧ sess.completed = true)) ∨
    (∃ sess row, r.findMultipart id = some (sess, row) ∧ sess.aborted = false ∧
      sess.completed = false ∧
      r.handleMultipartComplete id ns fs clears = ({ r with
            objects := deleteParts (r.objects.put ⟨.blob sess.workspace row.group row.hash,
              row.bytes, some r.nowMs⟩) id clears (ns.insertionSort (· ≤ ·))
            sessions := Table.put Session.sessionId r.sessions
              { sess with completed := true } }, .multipartCompleted)) := by
  rw [handleMultipartComplete]
  split
  · exact .inl ⟨_, rfl, by simp⟩
  next sess row hf =>
    split
    · exact .inl ⟨_, rfl, by simp⟩
    next hopen =>
      split
      next hdone => exact .inl ⟨_, rfl, fun _ => ⟨sess, row, hf, hdone⟩⟩
      next hundone =>
        split
        · exact .inl ⟨_, rfl, by simp⟩
        · split
          · exact .inl ⟨_, rfl, by simp⟩
          · dsimp only
            split
            next ans hans =>
              refine .inl ⟨_, rfl, fun heq => ?_⟩
              rcases measure_error hans with rfl | rfl <;> cases heq
            next measured hmeasured =>
              split
              · exact .inl ⟨_, rfl, by simp⟩
              next hlen =>
                simp only [ne_eq, not_not] at hlen
                subst hlen
                exact .inr ⟨sess, row, hf, by simpa using hopen, by simpa using hundone, rfl⟩

/-- An ABORT changes nothing, or drops the parts and releases the reservation. -/
theorem handleMultipartAbort_cases (id : Nat) (clears : Key → Bool) :
    (r.handleMultipartAbort id clears).1 = r ∨
    (∃ sess row, r.findMultipart id = some (sess, row) ∧ sess.completed = false ∧
      sess.aborted = false ∧
      (r.handleMultipartAbort id clears).1 = { r with
          objects := deleteParts r.objects id clears (r.recordedParts id)
          sessions := Table.put Session.sessionId r.sessions { sess with aborted := true }
          tables := (Call.release sess.workspace sess.reservationId).perform r.tables }) := by
  rw [handleMultipartAbort]
  split
  · split
    · exact .inl rfl
    · exact .inl rfl
  next sess row hf =>
    split
    · exact .inl rfl
    next hundone =>
      split
      · exact .inl rfl
      next hopen =>
        exact .inr ⟨sess, row, hf, by simpa using hundone, by simpa using hopen, rfl⟩

theorem release_rowOf (ws : Bytes) (id : Nat) (ht : Tidy r.tables) :
    Tidy ((Call.release ws id).perform r.tables) ∧ ∀ w g hash,
      ((Call.release ws id).perform r.tables w).rowOf g hash = r.rowOf w g hash ∨
      ∃ row, w = ws ∧ r.rowOf w g hash = some row ∧ row.reservationId = id ∧ row.finalized = false ∧
        ((Call.release ws id).perform r.tables w).rowOf g hash = none := by
  rw [Call.perform]
  cases hrun : (Call.release ws id).program.alone Write.apply r.tables with
  | error reason => exact ⟨ht, fun _ _ _ => .inl rfl⟩
  | ok out =>
    obtain ⟨⟨⟩, t⟩ := out
    obtain ⟨ans, middle, hrel, hdone⟩ := Prog.of_alone_bind hrun
    cases hdone
    obtain ⟨ha, hrows⟩ := releaseIn_rowOf ht hrel
    refine ⟨ha, fun w g hash => ?_⟩
    rw [hrows, rowOf]
    cases hrow : (r.tables w).rowOf g hash with
    | none => exact .inl rfl
    | some row =>
      cases hgone : (w = ws && (row.reservationId = id && !row.finalized)) with
      | false => exact .inl (by simp only [Option.filter, hgone, Bool.not_false, if_true])
      | true =>
        right
        simp only [Bool.and_eq_true, decide_eq_true_eq, Bool.not_eq_true'] at hgone
        exact ⟨row, hgone.1, rfl, hgone.2.1, hgone.2.2, by simp [Option.filter, hgone]⟩

variable (c : Access.Crypto) (workspaceOf : Bytes → Bytes)

/-- A manifest changes nothing, or becomes the newest of its group and claims every object
it names. -/
theorem handleManifest_cases (rec : RetentionManifest) (fs : Key → Option Fault)
    (ht : Tidy r.tables) :
    (r.handleManifest c workspaceOf rec fs).1 = r ∨
    (∃ ts, Tidy ts ∧ rec.sequence = expectedSequence (r.records rec.group).latestManifest ∧
      (∀ hash ∈ rec.blobs, ∃ row, r.rowOf (workspaceOf rec.group) rec.group hash = some row) ∧
      (∀ w g hash, (ts w).rowOf g hash =
        if workspaceOf rec.group = w ∧ rec.group = g ∧ hash ∈ rec.blobs
        then (r.rowOf w g hash).map (·.claimed r.clock)
        else r.rowOf w g hash) ∧
      (r.handleManifest c workspaceOf rec fs).1 = { r with
          tables := ts
          records := Function.update r.records rec.group
            { r.records rec.group with
              manifests := (r.records rec.group).manifests ++ [rec] } }) := by
  rw [handleManifest]
  split
  · exact .inl rfl
  · cases happly : Retention.applyManifest c (workspaceOf rec.group) r.clock rec
        (r.records rec.group) r.tables with
    | none => exact .inl rfl
    | some out =>
      obtain ⟨outcome, rs, ts⟩ := out
      rcases applyManifest_cases happly with ⟨rfl, rfl⟩ | ⟨hseq, rfl, hclaims⟩
      · left
        simp
      · obtain ⟨ha, hnamed, hrows⟩ := claimAll_rowOf ht hclaims
        exact .inr ⟨ts, ha, hseq, hnamed, hrows, rfl⟩

end Requests

/-! ## Events -/

section Events

/-- What an event can do to the row of an object. -/
inductive RowStep (workspaceOf : Bytes → Bytes) (relay : Relay) (workspace group hash : Bytes) :
    Event → Option Reservation → Option Reservation → Prop where
  | kept (event : Event) (row : Option Reservation) :
      RowStep workspaceOf relay workspace group hash event row row
  | requested (row : Option Reservation) (len : Nat) (limit : Option Int) (headFails : Bool)
      (hworkspace : workspaceOf group = workspace) (hlen : len ≠ 0)
      (habsent : relay.alreadyStored workspace group hash headFails = false) :
      RowStep workspaceOf relay workspace group hash (.put group hash len limit headFails) row
        (some (Reservation.requested group hash len presignTtlSeconds relay.nextId relay.clock row))
  | claimed (row : Reservation) (record : RetentionManifest) (faults : Key → Option Fault)
      (hworkspace : workspaceOf group = workspace) (hgroup : record.group = group)
      (hnamed : hash ∈ record.blobs) :
      RowStep workspaceOf relay workspace group hash (.manifest record faults) (some row)
        (some (row.claimed relay.clock))
  | released (session : Session) (row : Reservation) (clears : Key → Bool)
      (hsession : relay.session session.sessionId = some session)
      (hworkspace : session.workspace = workspace)
      (hundone : session.completed = false) (hopen : session.aborted = false)
      (hid : row.reservationId = session.reservationId) (hfinal : row.finalized = false) :
      RowStep workspaceOf relay workspace group hash (.abort session.sessionId clears) (some row)
        none
  | swept (row : Reservation) (graceSeconds : Int) (clears : Key → Bool)
      (hstale : row.stale graceSeconds relay.clock = true) :
      RowStep workspaceOf relay workspace group hash
        (.sweepUnclaimed workspace graceSeconds clears) (some row) none
  | retired (row : Reservation) (clears : Key → Bool) (hworkspace : workspaceOf group = workspace)
      (hfinal : row.finalized = true)
      (heligible : eligible (relay.records group) hash (claimedAtMs (row.finalizedAt.getD 0))
        relay.nowMs = .eligible) :
      RowStep workspaceOf relay workspace group hash (.sweepRetention group clears) (some row) none

/-- What an event can do to an object, given its row. -/
inductive ObjectStep (workspaceOf : Bytes → Bytes) (relay : Relay) (workspace group hash : Bytes)
    (row : Option Reservation) :
    Event → Option StoredObject → Option StoredObject → Prop where
  | kept (event : Event) (object : Option StoredObject) :
      ObjectStep workspaceOf relay workspace group hash row event object object
  | uploaded (object : Option StoredObject) (url : Url) (len : Int) (written : StoredObject)
      (hkey : url.key = .blob workspace group hash) :
      ObjectStep workspaceOf relay workspace group hash row (.upload url len) object (some written)
  | completed (object : Option StoredObject) (written : StoredObject) (session : Nat)
      (numbers : List Nat) (faults : Key → Option Fault) (clears : Key → Bool) :
      ObjectStep workspaceOf relay workspace group hash row
        (.complete session numbers faults clears) object (some written)
  | swept (object : Option StoredObject) (old : Reservation) (graceSeconds : Int)
      (clears : Key → Bool) (hrow : row = some old)
      (hstale : old.stale graceSeconds relay.clock = true) :
      ObjectStep workspaceOf relay workspace group hash row
        (.sweepUnclaimed workspace graceSeconds clears) object none
  | unknown (object : Option StoredObject) (minAgeSeconds : Nat) (suppressed listFails : Bool)
      (clears : Key → Bool) (hworkspace : workspaceOf group = workspace) (hrow : row = none) :
      ObjectStep workspaceOf relay workspace group hash row
        (.sweepUnreferenced group minAgeSeconds suppressed listFails clears) object none
  | retired (object : Option StoredObject) (old : Reservation) (clears : Key → Bool)
      (hworkspace : workspaceOf group = workspace) (hrow : row = some old)
      (hfinal : old.finalized = true)
      (heligible : eligible (relay.records group) hash (claimedAtMs (old.finalizedAt.getD 0))
        relay.nowMs = .eligible) :
      ObjectStep workspaceOf relay workspace group hash row (.sweepRetention group clears) object
        none

/-- An event that does one of these things to each object. -/
def Local (workspaceOf : Bytes → Bytes) (relay : Relay) (event : Event) (after : Relay) : Prop :=
  Tidy after.tables ∧ ∀ workspace group hash,
    RowStep workspaceOf relay workspace group hash event (relay.rowOf workspace group hash)
      (after.rowOf workspace group hash) ∧
    ObjectStep workspaceOf relay workspace group hash (relay.rowOf workspace group hash) event
      (relay.blob workspace group hash) (after.blob workspace group hash)

variable {c : Access.Crypto} {workspaceOf : Bytes → Bytes} {r t : Relay} {event : Event}

theorem local_of_same (ht : Tidy t.tables) (hrows : ∀ ws g hash,
      t.rowOf ws g hash = r.rowOf ws g hash)
    (hblobs : ∀ ws g hash, t.blob ws g hash = r.blob ws g hash) : Local workspaceOf r event t := by
  refine ⟨ht, fun ws g hash => ?_⟩
  rw [hrows, hblobs]
  exact ⟨.kept _ _, .kept _ _⟩

theorem Local.of_shelf {middle} (h : Local workspaceOf r event middle)
    (hshelf : t.toShelf = middle.toShelf) : Local workspaceOf r event t := by
  simp only [Local, rowOf, blob, hshelf]
  exact h

theorem issue_keeps (r : Relay) (ws g hash : Bytes) (len : Int) (id : Nat) :
    (r.issue ws g hash len id).1.toShelf = r.toShelf ∧
      (r.issue ws g hash len id).1.records = r.records := by
  rw [issue]
  split
  · exact ⟨rfl, rfl⟩
  · exact ⟨rfl, rfl⟩

theorem handleMultipartPart_keeps (r : Relay) (id n : Nat) (len : Int) :
    (r.handleMultipartPart id n len).1.toShelf = r.toShelf ∧
      (r.handleMultipartPart id n len).1.records = r.records := by
  rw [handleMultipartPart]
  repeat' split
  all_goals exact ⟨rfl, rfl⟩

variable (rec : RetentionManifest) (ws : Bytes) (id : Nat) (g : Bytes)
  (ns : List Nat) (fs : Key → Option Fault) (hash : Bytes) (clears : Key → Bool)
  (len : Int)

theorem local_put (len : Nat) (lim : Option Int) (headFails : Bool) (ht : Tidy r.tables) :
    Local workspaceOf r (.put g hash len lim headFails)
      (r.handlePut (workspaceOf g) g hash len lim headFails).1 := by
  rcases handlePut_cases (len : Int) lim headFails ht with
    ⟨ts, ans, htables, hrows, hput, -⟩ | ⟨ts, row, htables, hlen, habs, rfl, hrows, hput⟩
  · rw [hput]
    exact local_of_same htables hrows fun _ _ _ => rfl
  · rw [hput]
    refine .of_shelf ?_ (issue_keeps _ (workspaceOf g) g hash len _).1
    refine ⟨htables, fun w group' hash' => ⟨?_, .kept _ _⟩⟩
    simp only [rowOf, hrows w group' hash']
    split
    next heq =>
      obtain ⟨rfl, rfl, rfl⟩ : workspaceOf g = w ∧ g = group' ∧ hash = hash' := by
        simpa using heq
      exact .requested _ len lim headFails rfl (by simpa using hlen) habs
    · exact .kept _ _

theorem local_complete (ht : Tidy r.tables) : Local workspaceOf r (.complete id ns fs clears)
      (r.handleMultipartComplete id ns fs clears).1 := by
  rcases handleMultipartComplete_cases id ns fs clears with
    ⟨ans, heq, -⟩ | ⟨sess, row, -, -, -, hdone⟩
  · rw [heq]
    exact local_of_same ht (fun _ _ _ => rfl) (fun _ _ _ => rfl)
  · rw [hdone]
    refine ⟨ht, fun ws g hash => ⟨.kept _ _, ?_⟩⟩
    simp only [blob, get_deleteParts, Storage.get_put]
    split
    · exact .completed _ _ id ns fs clears
    · exact .kept _ _

theorem local_abort (ht : Tidy r.tables) :
    Local workspaceOf r (.abort id clears) (r.handleMultipartAbort id clears).1 := by
  rcases handleMultipartAbort_cases id clears with
    heq | ⟨sess, row, hf, hundone, hopen, habort⟩
  · rw [heq]
    exact local_of_same ht (fun _ _ _ => rfl) (fun _ _ _ => rfl)
  · obtain ⟨hsess, -, -⟩ := findMultipart_some ht hf
    obtain rfl : sess.sessionId = id := Table.key_of_lookup hsess
    obtain ⟨htables, hrows⟩ := release_rowOf sess.workspace sess.reservationId ht
    rw [habort]
    refine ⟨htables, fun ws g hash => ⟨?_, ?_⟩⟩
    · rcases hrows ws g hash with heq | ⟨old, rfl, hold, hid, hfinal, hnone⟩
      · simp only [rowOf, heq]
        exact .kept _ _
      · rw [hold]
        simp only [rowOf, hnone]
        exact .released sess old clears hsess rfl hundone hopen hid hfinal
    · simp only [blob, get_deleteParts]
      exact .kept _ _

theorem local_manifest (ht : Tidy r.tables) : Local workspaceOf r (.manifest rec fs)
      (r.handleManifest c workspaceOf rec fs).1 := by
  rcases handleManifest_cases c workspaceOf rec fs ht with
    heq | ⟨ts, htables, -, -, hrows, hacc⟩
  · rw [heq]
    exact local_of_same ht (fun _ _ _ => rfl) (fun _ _ _ => rfl)
  · rw [hacc]
    refine ⟨htables, fun ws g hash => ⟨?_, .kept _ _⟩⟩
    simp only [rowOf, hrows]
    split
    next hnamed =>
      cases hrow : (r.tables ws).rowOf g hash with
      | none => exact .kept _ _
      | some row =>
        obtain ⟨rfl, rfl, hnamed⟩ := hnamed
        exact .claimed row rec fs rfl rfl hnamed
    · exact .kept _ _

/-- A collector does to each blob what it may do to it, or nothing. -/
theorem local_of_takes {may : Bytes → Bytes → Bytes → Prop}
    (htakes : Shelf.Takes may r.toShelf t.toShelf) (hmay : ∀ ws g hash, may ws g hash →
      RowStep workspaceOf r ws g hash event (r.rowOf ws g hash) none ∧
      ObjectStep workspaceOf r ws g hash (r.rowOf ws g hash) event
        (r.blob ws g hash) none) : Local workspaceOf r event t := by
  refine ⟨htakes.tidy, fun ws g hash => ⟨?_, ?_⟩⟩
  · rcases htakes.rows ws g hash with heq | ⟨htaken, hnone⟩
    · rw [show t.rowOf ws g hash = r.rowOf ws g hash from heq]
      exact .kept _ _
    · rw [show t.rowOf ws g hash = none from hnone]
      exact (hmay ws g hash htaken).1
  · rcases htakes.objects (.blob ws g hash) with heq | ⟨⟨_, _, _, hkey, htaken⟩, hnone⟩
    · rw [show t.blob ws g hash = r.blob ws g hash from heq]
      exact .kept _ _
    · obtain ⟨rfl, rfl, rfl⟩ := Key.blob.inj hkey
      rw [show t.blob ws g hash = none from hnone]
      exact (hmay ws g hash htaken).2

variable (c workspaceOf)

/-- One event, object by object. -/
theorem after_local (event : Event) (ht : Tidy r.tables) :
    Local workspaceOf r event (r.after c workspaceOf event) := by
  cases event with
  | put g hash len lim headFails => exact local_put g hash len lim headFails ht
  | part sess n len =>
    obtain ⟨hshelf, -⟩ := handleMultipartPart_keeps r sess n len
    exact .of_shelf ⟨ht, fun _ _ _ => ⟨.kept _ _, .kept _ _⟩⟩ hshelf
  | complete sess ns fs clears =>
    exact local_complete sess ns fs clears ht
  | abort sess clears => exact local_abort sess clears ht
  | upload url len =>
    refine ⟨ht, fun ws g hash => ⟨.kept _ _, ?_⟩⟩
    simp only [after, answer, blob, Storage.get_put]
    split
    next hkey => exact .uploaded _ url len _ hkey
    · exact .kept _ _
  | manifest rec fs => exact local_manifest rec fs ht
  | govern g chain policies destructions =>
    exact ⟨ht, fun _ _ _ => ⟨.kept _ _, .kept _ _⟩⟩
  | tick clock => exact ⟨ht, fun _ _ _ => ⟨.kept _ _, .kept _ _⟩⟩
  | sweepUnclaimed ws grace clears =>
    refine local_of_takes (Shelf.takes_sweepUnclaimedAfter ws grace r.clock clears ht) ?_
    rintro w g hash ⟨rfl, row, hrow, hstale⟩
    rw [rowOf, hrow]
    exact ⟨.swept row grace clears hstale, .swept _ row grace clears rfl hstale⟩
  | sweepUnreferenced g minAgeSeconds suppressed listFails clears =>
    refine local_of_takes (Shelf.takes_sweepUnreferencedStorage (workspaceOf g) g
      r.nowMs minAgeSeconds suppressed listFails clears ht) ?_
    rintro w wanted hash ⟨rfl, rfl, hrow⟩
    rw [rowOf, hrow]
    exact ⟨.kept _ _, .unknown _ minAgeSeconds suppressed listFails clears rfl rfl⟩
  | sweepRetention g clears =>
    refine local_of_takes (Shelf.takes_sweepRetention (workspaceOf g) g
      (r.records g) r.nowMs clears ht) ?_
    rintro w wanted hash ⟨rfl, rfl, row, hrow, hfinal, heligible⟩
    rw [rowOf, hrow]
    exact ⟨.retired row clears rfl hfinal heligible, .retired _ row clears rfl rfl hfinal heligible⟩
  | abortStaleSessions clears =>
    obtain ⟨htables, -, hloses⟩ := r.abortStaleSessions_keeps clears
    refine local_of_same ?_ (fun ws g hash => ?_) hloses.blob
    · exact htables ▸ ht
    · exact congrArg (fun ts : Tables => (ts ws).rowOf g hash) htables

/-- The requests for objects leave the retention tables alone. -/
theorem handlePut_records (lim : Option Int) (headFails : Bool) (ht : Tidy r.tables) :
    (r.handlePut ws g hash len lim headFails).1.records = r.records := by
  rcases handlePut_cases len lim headFails ht with
    ⟨ts, ans, -, -, hput, -⟩ | ⟨ts, row, -, -, -, -, -, hput⟩
  · rw [hput]
  · rw [hput]
    exact (issue_keeps _ ws g hash len _).2

theorem handleMultipartComplete_records :
    (r.handleMultipartComplete id ns fs clears).1.records = r.records := by
  rcases handleMultipartComplete_cases id ns fs clears with
    ⟨ans, heq, -⟩ | ⟨sess, row, -, -, -, hdone⟩
  · rw [heq]
  · rw [hdone]

theorem handleMultipartAbort_records :
    (r.handleMultipartAbort id clears).1.records = r.records := by
  rcases handleMultipartAbort_cases id clears with heq | ⟨sess, row, -, -, -, habort⟩
  · rw [heq]
  · rw [habort]

/-- The newest manifest of a group stays, or an accepted one takes its place and makes the
row of each object it names final. -/
theorem after_latestManifest (event : Event) (ht : Tidy r.tables) (g : Bytes) :
    ((r.after c workspaceOf event).records g).latestManifest = (r.records g).latestManifest ∨
    ∃ rec, ((r.after c workspaceOf event).records g).latestManifest = some rec ∧
      ∀ hash ∈ rec.blobs, ∃ row : Reservation,
        (r.after c workspaceOf event).rowOf (workspaceOf g) g hash =
          some (row.claimed r.clock) := by
  have hk : ∀ {t : Relay}, t.records = r.records →
      (t.records g).latestManifest = (r.records g).latestManifest := by
    intro t h
    rw [h]
  cases event with
  | put group' hash len lim headFails =>
    exact .inl (hk (handlePut_records _ group' hash len lim headFails ht))
  | part sess n len =>
    exact .inl (hk (handleMultipartPart_keeps r sess n len).2)
  | complete sess ns fs clears =>
    exact .inl (hk (handleMultipartComplete_records sess ns fs clears))
  | abort sess clears => exact .inl (hk (handleMultipartAbort_records sess clears))
  | manifest rec fs =>
    rcases handleManifest_cases c workspaceOf rec fs ht with
      heq | ⟨ts, -, hseq, hnamed, hrows, hacc⟩
    · exact .inl (hk (congrArg records heq))
    · rw [show r.after c workspaceOf (.manifest rec fs) = _ from hacc]
      by_cases hg : g = rec.group
      · subst hg
        refine .inr ⟨rec, ?_, fun hash hh => ?_⟩
        · simp only [Function.update_self]
          exact latestManifest_append hseq
        · obtain ⟨row, hrow⟩ := hnamed hash hh
          refine ⟨row, ?_⟩
          simp only [rowOf, hrows, hh, and_self, if_true]
          rw [show (r.tables (workspaceOf rec.group)).rowOf rec.group hash = some row from hrow]
          rfl
      · left
        simp only [Function.update_of_ne hg]
  | govern group' chain policies destructions =>
    left
    simp only [after, answer]
    by_cases hg : g = group'
    · subst hg
      simp only [Function.update_self]
      rfl
    · simp only [Function.update_of_ne hg]
  | upload | tick | sweepUnclaimed | sweepUnreferenced | sweepRetention => exact .inl rfl
  | abortStaleSessions clears => exact .inl (hk (r.abortStaleSessions_keeps clears).2.1)

/-! ## Running a list of events -/

/-- A relay that nobody has used. -/
def unused (backend : Backend) (clock : Int) : Relay :=
  ⟨⟨noTables, []⟩, backend, fun _ => Records.empty, [], [], [], 0, clock⟩

theorem tidy_unused (backend : Backend) (clock : Int) : Tidy (unused backend clock).tables :=
  ⟨conserved_noTables, fun _ => List.nodup_nil⟩

/-- The events one after another. -/
def afterAll (relay : Relay) : List Event → Relay
  | [] => relay
  | event :: events => afterAll (relay.after c workspaceOf event) events

instance (relay : Relay) : (event : Event) → Decidable (relay.Possible event)
  | .upload url len => inferInstanceAs (Decidable
      (url ∈ relay.urls ∧ relay.clock < url.expiresAt ∧ url.len.all (· = len)))
  | .tick clock => inferInstanceAs (Decidable (relay.clock ≤ clock))
  | .put _ _ _ _ _ => .isTrue trivial
  | .part _ _ _ => .isTrue trivial
  | .complete _ _ _ _ => .isTrue trivial
  | .abort _ _ => .isTrue trivial
  | .manifest _ _ => .isTrue trivial
  | .govern _ _ _ _ => .isTrue trivial
  | .sweepUnclaimed _ _ _ => .isTrue trivial
  | .sweepUnreferenced _ _ _ _ _ => .isTrue trivial
  | .sweepRetention _ _ => .isTrue trivial
  | .abortStaleSessions _ => .isTrue trivial

/-- The events can happen one after another, each with this property. -/
def playable (p : Relay → Event → Bool) (relay : Relay) : List Event → Bool
  | [] => true
  | event :: events =>
    decide (relay.Possible event) && p relay event &&
      playable p (relay.after c workspaceOf event) events

variable {c workspaceOf}

theorem run_afterAll {p : Relay → Event → Bool} {events}
    (h : playable c workspaceOf p r events = true) :
    Run (fun r event t => r.step c workspaceOf event t ∧ p r event = true)
      r events (afterAll c workspaceOf r events) := by
  induction events generalizing r with
  | nil => exact .nil r
  | cons event events ih =>
    simp only [playable, Bool.and_eq_true, decide_eq_true_eq] at h
    exact .cons ⟨⟨h.1.1, rfl⟩, h.1.2⟩ (ih h.2)

end Events
end Relay
end WealdRelay.Media
