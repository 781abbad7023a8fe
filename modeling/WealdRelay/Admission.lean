import WealdRelay.Access.Publisher
import WealdRelay.Hub.Sockets

/-!
# Admission and revocation

`AUTH` against the tables of one workspace, while sets are published and grants are
revoked. An `AUTH` reads its admission, registers the connection with the hub, reads
its admission again and only then makes the session ready. Each admission is two
statements (`access::store::admits`): one for the newest accepted set, one for a
provisional grant. A publication evicts what it removed after its transaction, and a
revocation evicts what it voided after its own.

The sockets and the publishers are those of `Hub.Sockets` and `Access.Publisher`. A
confirmed admission stays supported: by the newest set, by a grant that is not void, or
by an eviction that is still to come and that will find the connection in the index.
-/

namespace WealdRelay.Admission

open Access List Function
open Hub
open Lib

/-! ### The statements -/

/-- The newest accepted set carries the hash. -/
def inNewestSet (db : Db) (hash : Bytes) : Bool :=
  match newestSet db with
  | none => false
  | some row =>
    db.entries.any (fun entry => entry.version == row.version && entry.entryHash == hash)

/-- A grant for the hash that is neither void nor out of time. -/
def liveGrant (db : Db) (hash : Bytes) (now : Nat) : Bool :=
  db.grants.any (fun grant =>
    grant.deviceHash == hash && grant.voided == none && decide (now < grant.expiresAt))

/-- A grant for the hash that is not void, whether or not its time ran out. -/
def unvoidedGrant (db : Db) (hash : Bytes) : Bool :=
  db.grants.any (fun grant => grant.deviceHash == hash && grant.voided == none)

/-- `access::store::grant`: a void is never cleared. -/
def upsertGrant (db : Db) (hash : Bytes) (expiresAt : Nat) : Db :=
  if db.grants.any (fun grant => grant.deviceHash == hash) then
    { db with
      grants := db.grants.map (fun grant =>
        if grant.deviceHash = hash ∧ grant.voided = none then
          { grant with expiresAt := expiresAt, seenVersion := none }
        else grant) }
  else
    { db with grants := db.grants ++
        [{ deviceHash := hash, expiresAt := expiresAt, seenVersion := none, voided := none }] }

/-- The extension of a reservation: the grant's time moves, nothing else. -/
def extendGrant (db : Db) (hash : Bytes) (expiresAt : Nat) : Db :=
  { db with
    grants := db.grants.map (fun grant =>
      if grant.deviceHash = hash ∧ grant.voided = none then
        { grant with expiresAt := expiresAt }
      else grant) }

/-- `access::store::revoke_grant_in`. -/
def revokeGrant (db : Db) (hash : Bytes) : Db :=
  { db with
    grants := db.grants.map (fun grant =>
      if grant.deviceHash = hash ∧ grant.voided = none then
        { grant with voided := some .revoked }
      else grant) }

/-! ### The system -/

/-- How far a connection's `AUTH` has come with its two admissions. A phase names the
statement that runs next, or the answer. -/
inductive Reading
  | unread
  | firstSet (entry : Bytes)
  | firstGrant (entry : Bytes)
  | admitted (entry : Bytes)
  | secondSet (entry : Bytes)
  | secondGrant (entry : Bytes)
  | confirmed (entry : Bytes)
  | refused
  deriving DecidableEq

/-- The hash of an admission from the registration on. -/
def Reading.registered : Reading → Option Bytes
  | .secondSet entry => some entry
  | .secondGrant entry => some entry
  | .confirmed entry => some entry
  | _ => none

/-- One statement of an admission. -/
def Reading.query (db : Db) (now : Nat) : Reading → Reading
  | .firstSet entry => if inNewestSet db entry then .admitted entry else .firstGrant entry
  | .firstGrant entry => if liveGrant db entry now then .admitted entry else .refused
  | .secondSet entry => if inNewestSet db entry then .confirmed entry else .secondGrant entry
  | .secondGrant entry => if liveGrant db entry now then .confirmed entry else .refused
  | reading => reading

/-- The relay on one workspace: its sockets, its publishers and their tables, the
admissions under way, and the evictions that publications and revocations still owe. -/
structure Relay where
  sockets : Sockets
  publishers : Publishers
  reading : ConnectionId → Reading
  removing : Nat → List Bytes
  revoking : Nat → List Bytes

/-- What may happen next. -/
inductive Event
  | socket (operation : Operation)
  | verify (id : ConnectionId) (deviceKey : Bytes)
  | query (id : ConnectionId) (now : Nat)
  | publish (pid : Nat) (turn : Access.Turn)
  | evictRemoved (pid : Nat)
  | void (pid : Nat) (hash : Bytes)
  | evictVoided (pid : Nat)
  | grant (hash : Bytes) (expiresAt : Nat)
  | extend (hash : Bytes) (expiresAt : Nat)
  deriving DecidableEq

namespace Relay

/-- The tables with one statement applied. -/
def onDb (relay : Relay) (db : Db) : Relay :=
  { relay with publishers := { relay.publishers with db := db } }

/-- Evict a hash from the hub. -/
def evict (relay : Relay) (hash : Bytes) : Relay :=
  { relay with sockets := relay.sockets.onHub (relay.sockets.hub.evict hash) }

/-- The socket operations an `AUTH` performs only on the answers it read. Evictions have
events of their own. -/
def permits (relay : Relay) : Operation → Bool
  | .identify id entry => relay.reading id == .admitted entry
  | .authenticated id =>
    match relay.reading id with
    | .confirmed _ => true
    | _ => false
  | .evict _ => false
  | _ => true

/-- What an operation does to the admissions: a new connection has read nothing, and a
registered one reads again. -/
def readingAfter (relay : Relay) : Operation → ConnectionId → Reading
  | .connect => update relay.reading relay.sockets.hub.nextId .unread
  | .identify id entry => update relay.reading id (.secondSet entry)
  | _ => relay.reading

/-- The entries a turn of this process has just made it owe an eviction for. -/
def removedBy (c : Crypto) (salt : Bytes) (publishers : Publishers) (pid : Nat)
    (turn : Access.Turn) : List Bytes :=
  if (publishers.phase pid).inProgress then
    ((publishers.turn c salt pid turn).phase pid).judgement.flatMap (·.effects.removed)
  else []

section Step

variable (c : Crypto) (salt : Bytes)

/-- One event. -/
def step (relay : Relay) : Event → Option Relay
  | .socket operation =>
    if relay.permits operation then
      (relay.sockets.step operation).map (fun sockets =>
        { relay with sockets := sockets, reading := relay.readingAfter operation })
    else none
  -- The signature over the challenge held: the first admission begins.
  | .verify id deviceKey =>
    if (relay.sockets.connections id).reader = .working .authenticate ∧
        relay.reading id = .unread then
      some { relay with
        reading := update relay.reading id (.firstSet (entryHash c deviceKey salt)) }
    else none
  | .query id now =>
    if (relay.sockets.connections id).reader = .ended then none
    else
      some { relay with
        reading := update relay.reading id
          ((relay.reading id).query relay.publishers.db now) }
  | .publish pid turn =>
    -- A process that still owes evictions has not answered its publication.
    if relay.removing pid = [] then
      some { relay with
        publishers := relay.publishers.turn c salt pid turn
        removing := update relay.removing pid
          (removedBy c salt relay.publishers pid turn) }
    else none
  | .evictRemoved pid =>
    match relay.removing pid with
    | [] => none
    | hash :: rest =>
      some { relay.evict hash with removing := update relay.removing pid rest }
  | .void pid hash =>
    if unvoidedGrant relay.publishers.db hash then
      some { relay.onDb (revokeGrant relay.publishers.db hash) with
        revoking := update relay.revoking pid (relay.revoking pid ++ [hash]) }
    else some relay
  | .evictVoided pid =>
    match relay.revoking pid with
    | [] => none
    | hash :: rest =>
      some { relay.evict hash with revoking := update relay.revoking pid rest }
  | .grant hash expiresAt =>
    some (relay.onDb (upsertGrant relay.publishers.db hash expiresAt))
  | .extend hash expiresAt =>
    some (relay.onDb (extendGrant relay.publishers.db hash expiresAt))

end Step

/-- A step in which no fanout drops a live connection from the hub, so that hub entries go
by an eviction or at the end of their connection. -/
def Steps (c : Crypto) (salt : Bytes) (relay : Relay) (event : Event) (after : Relay) : Prop :=
  relay.step c salt event = some after ∧
    ∀ operation, event = .socket operation → relay.sockets.Spares operation

end Relay

/-! ### The tables -/

section Tables

variable {c : Crypto} {salt : Bytes} {db next : Db} {hash : Bytes}

theorem inNewestSet_iff (hok : Consistent c db) : inNewestSet db hash = true ↔
      ∃ row, db.sets.getLast? = some row ∧ hash ∈ row.body.entries := by
  simp only [inNewestSet, newestSet_eq hok]
  cases hlast : db.sets.getLast? with
  | none => simp
  | some row =>
    have hes := (hok.holds row (mem_of_getLast? hlast)).entries
    simp only [Option.some.injEq, exists_eq_left', ← hes, readEntries,
      mem_insertionSort, mem_map, mem_filter, any_eq_true,
      Bool.and_eq_true, beq_iff_eq, decide_eq_true_eq, and_assoc]

/-- What a publication that went through did to the tables an admission reads. -/
structure Stored (c : Crypto) (db next : Db) (removed : List Bytes) : Prop where
  consistent : Consistent c next
  removed : ∀ hash, inNewestSet db hash = true → inNewestSet next hash = false → hash ∈ removed
  grants : ∃ version entries, (∀ hash, inNewestSet next hash = true ↔ hash ∈ entries) ∧
    next.grants = (db.grants.map (markSeen version entries)).map (voidSuperseded entries)

variable {removed : List Bytes} {now : Nat}

theorem stored_of_commit (hok : Consistent c db) {j} (hset : Settles c salt db now j next) :
    Stored c db next j.effects.removed := by
  obtain ⟨-, hnew, -⟩ := hset.current hok
  have hnext := hset.consistent hok
  have hsets := hset.sets
  obtain ⟨-, hjudged⟩ := judge_ok hset.judged
  obtain ⟨-, -, hrows⟩ := commit_ok hset.committed
  obtain ⟨cand, prior, prs, recent, signedAs, eff⟩ := j
  dsimp only at hnew hjudged hrows ⊢
  have hnow : ∀ hash, inNewestSet next hash = true ↔ hash ∈ cand.entries := by
    intro hash
    rw [inNewestSet_iff hnext, hsets]
    simp [Judgement.row]
  refine ⟨hnext, ?_, cand.version, cand.entries, hnow, hrows.grants⟩
  intro hash hin hout
  obtain ⟨row, hlast, he⟩ := (inNewestSet_iff hok).mp hin
  have hdropped : hash ∉ cand.entries := by
    rw [← hnow hash, hout]
    simp
  rw [hlast] at hnew
  cases hjudged with
  | genesis _ => cases hnew
  | ordinary | rotation =>
    cases hnew
    exact mem_removedEntries.mpr ⟨he, hdropped⟩

/-- A turn of a publisher leaves the tables alone and owes nothing, or stores a set and
owes the evictions of what the set removed. -/
theorem turn_stores (salt : Bytes) {pubs} (hok : Consistent c pubs.db)
    (hphases : ∀ pid, PhaseOk c pubs.db (pubs.phase pid)) (pid : Nat)
    (turn : Access.Turn) :
    (pubs.turn c salt pid turn).db = pubs.db ∧
        Relay.removedBy c salt pubs pid turn = [] ∨
      Stored c pubs.db (pubs.turn c salt pid turn).db
        (Relay.removedBy c salt pubs pid turn) := by
  cases turn with
  | start cand =>
    refine .inl ?_
    simp only [Relay.removedBy, Publishers.turn]
    split_ifs with hprog
    · cases hphase : pubs.phase pid <;> simp_all [Phase.inProgress, Phase.judgement]
    · exact ⟨rfl, rfl⟩
  | fail =>
    refine .inl ?_
    simp only [Relay.removedBy, Publishers.turn]
    split_ifs with hprog
    · exact ⟨rfl, by simp [Phase.judgement]⟩
    · exact ⟨rfl, rfl⟩
  | statement now =>
    rcases statement_cases salt now (hphases pid) with ⟨hdb, hlog⟩ | ⟨j, next, hprog, hset, hresult⟩
    · refine .inl ⟨hdb, ?_⟩
      simp only [Relay.removedBy, Publishers.turn, update_self]
      split_ifs with hprog
      · rw [hlog hprog]
        rfl
      · rfl
    · refine .inr ?_
      have hrem : Relay.removedBy c salt pubs pid (.statement now) = j.effects.removed := by
        simp only [Relay.removedBy, Publishers.turn, update_self, hresult]
        simp [hprog, Phase.judgement]
      rw [hrem]
      simp only [Publishers.turn, hresult]
      exact stored_of_commit hok hset

/-- A grant that an accepted set has carried is void once the newest set does not. -/
def SeenCarried (db : Db) : Prop :=
  ∀ grant ∈ db.grants, grant.voided = none → grant.seenVersion ≠ none →
    inNewestSet db grant.deviceHash = true

theorem unvoidedGrant_iff : unvoidedGrant db hash = true ↔
      ∃ gr ∈ db.grants, gr.deviceHash = hash ∧ gr.voided = none := by
  simp [unvoidedGrant]

theorem liveGrant_unvoided (h : liveGrant db hash now = true) : unvoidedGrant db hash = true := by
  simp only [liveGrant, unvoidedGrant, any_eq_true, Bool.and_eq_true] at h ⊢
  obtain ⟨gr, hmem, hf, -⟩ := h
  exact ⟨gr, hmem, hf⟩

/-- A statement of the second admission keeps its hash or refuses it. -/
theorem Reading.query_registered {reading : Reading} (h : reading.registered = some hash) :
    reading.query db now = .refused ∨ (reading.query db now).registered = some hash := by
  cases reading with
  | secondSet held =>
    refine .inr ?_
    simp only [query]
    split_ifs <;> exact h
  | secondGrant held =>
    simp only [query]
    split_ifs
    · exact .inr h
    · exact .inl rfl
  | confirmed held => exact .inr h
  | _ => cases h

/-- What the two grant statements of a publication do to one row. -/
theorem supersede_cases (ver : Nat) (es : List Bytes) (gr : GrantRow) :
    (voidSuperseded es (markSeen ver es gr)).deviceHash = gr.deviceHash ∧
      ((voidSuperseded es (markSeen ver es gr)).voided = none → gr.voided = none ∧
          ((voidSuperseded es (markSeen ver es gr)).seenVersion ≠ none → gr.deviceHash ∈ es)) ∧
      (gr.voided = none → (voidSuperseded es (markSeen ver es gr)).voided = none ∨
          gr.seenVersion ≠ none ∧ gr.deviceHash ∉ es) := by
  simp only [markSeen, voidSuperseded]
  split_ifs with hmarked hvoid hvoid
  · exact absurd hmarked.2 hvoid.2.2
  · exact ⟨rfl, fun _ => ⟨hmarked.1, fun _ => hmarked.2⟩, fun h => .inl h⟩
  · exact ⟨rfl, fun h => absurd h (by simp), fun _ => .inr hvoid.2⟩
  · refine ⟨rfl, fun h => ⟨h, fun hseen => ?_⟩, fun h => .inl h⟩
    by_contra hout
    exact hvoid ⟨h, hseen, hout⟩

/-- Storing a set keeps grants and the newest set in step. -/
theorem Stored.seenCarried (h : Stored c db next removed) : SeenCarried next := by
  obtain ⟨ver, es, hes, hgrants⟩ := h.grants
  intro gr hgrant hvoided hseen
  rw [hgrants, map_map] at hgrant
  obtain ⟨old, -, rfl⟩ := mem_map.mp hgrant
  obtain ⟨hh, hk, -⟩ := supersede_cases ver es old
  rw [hes, comp_apply, hh]
  exact (hk hvoided).2 hseen

/-- A hash that loses its last support to a publication is one the publication removed. -/
theorem Stored.supported (h : Stored c db next removed) (hseen : SeenCarried db)
    (hsupport : inNewestSet db hash = true ∨ unvoidedGrant db hash = true) :
    inNewestSet next hash = true ∨ unvoidedGrant next hash = true ∨ hash ∈ removed := by
  cases hnow : inNewestSet next hash with
  | true => exact .inl rfl
  | false =>
    refine .inr ?_
    rcases hsupport with hset | hgrant
    · exact .inr (h.removed hash hset hnow)
    · obtain ⟨gr, hmem, rfl, hvoided⟩ := unvoidedGrant_iff.mp hgrant
      obtain ⟨ver, es, hes, hgrants⟩ := h.grants
      obtain ⟨hh, -, hlost⟩ := supersede_cases ver es gr
      rcases hlost hvoided with hk | ⟨hmarked, -⟩
      · refine .inl (unvoidedGrant_iff.mpr ⟨_, ?_, hh, hk⟩)
        rw [hgrants, map_map]
        exact mem_map_of_mem hmem
      · exact .inr (h.removed _ (hseen gr hmem hvoided hmarked) hnow)

end Tables

/-! ### The invariant -/

namespace Relay

/-- What keeps an admission good: the newest set, a grant, or an eviction to come. -/
def Supported (relay : Relay) (entry : Bytes) : Prop :=
  inNewestSet relay.publishers.db entry = true ∨ unvoidedGrant relay.publishers.db entry = true ∨
    (∃ pid, entry ∈ relay.removing pid) ∨ ∃ pid, entry ∈ relay.revoking pid

/-- The chain tables are consistent and the publishers know what they rely on. -/
structure Tables (c : Crypto) (publishers : Publishers) : Prop where
  consistent : Consistent c publishers.db
  phases : ∀ pid, PhaseOk c publishers.db (publishers.phase pid)
  seen : SeenCarried publishers.db

/-- A running connection that has an entry hash is at its second admission for that hash or
past it, a ready one was confirmed, and a confirmed one that is not flagged is
supported. -/
structure Admissions (relay : Relay) : Prop where
  reading : ∀ id entry, (relay.sockets.connections id).reader ≠ .ended →
    (relay.sockets.connections id).entry = some entry →
      relay.reading id = .refused ∨ (relay.reading id).registered = some entry
  ready : ∀ id entry, (relay.sockets.connections id).reader ≠ .ended →
    (relay.sockets.connections id).session = .ready entry → relay.reading id = .confirmed entry
  supported : ∀ id entry, (relay.sockets.connections id).reader ≠ .ended →
    (relay.sockets.connections id).entry = some entry →
      relay.sockets.hub.isEvicted id = false → relay.reading id = .confirmed entry →
        relay.Supported entry

/-- Everything that holds along a run. -/
structure Sound (c : Crypto) (relay : Relay) : Prop where
  tidy : relay.sockets.Tidy
  registered : relay.sockets.Registered
  tables : Tables c relay.publishers
  admissions : relay.Admissions

section Steps

variable {c : Crypto} {salt : Bytes} {r : Relay}

theorem Tables.of_grants {pubs} (h : Tables c pubs)
    {grants} (hseen : ∀ gr ∈ grants, gr.voided = none → gr.seenVersion ≠ none →
      inNewestSet pubs.db gr.deviceHash = true) :
    Tables c { pubs with db := { pubs.db with grants := grants } } where
  consistent :=
    { versions := h.consistent.versions
      body := h.consistent.body
      holds := fun row hrow =>
        ⟨(h.consistent.holds row hrow).entries, (h.consistent.holds row hrow).principals,
          (h.consistent.holds row hrow).threshold⟩
      entries_lt := h.consistent.entries_lt
      principals_lt := h.consistent.principals_lt
      quorums_lt := h.consistent.quorums_lt }
  phases pid := by
    have hphase := h.phases pid
    revert hphase
    cases pubs.phase pid <;> exact id
  seen := hseen

/-- What `Admissions` says of one running connection. -/
structure Admitted (connection : Connection) (read : Reading) (flagged : Bool)
    (support : Bytes → Prop) : Prop where
  reading : ∀ entry, connection.entry = some entry → read = .refused ∨ read.registered = some entry
  ready : ∀ entry, connection.session = .ready entry → read = .confirmed entry
  supported : ∀ entry, connection.entry = some entry → flagged = false → read = .confirmed entry →
    support entry

theorem admissions_iff : r.Admissions ↔ ∀ id, (r.sockets.connections id).reader ≠ .ended →
      Admitted (r.sockets.connections id) (r.reading id) (r.sockets.hub.isEvicted id) r.Supported :=
  ⟨fun h id hrn => ⟨fun e => h.reading id e hrn,
      fun e => h.ready id e hrn, fun e => h.supported id e hrn⟩,
    fun h => ⟨fun id e hrn => (h id hrn).reading e, fun id e hrn => (h id hrn).ready e,
      fun id e hrn => (h id hrn).supported e⟩⟩

variable {t : Relay}

/-- A change of the tables or of what is owed, under which support is kept. -/
theorem Admissions.of_support (h : r.Admissions) (hsockets : t.sockets = r.sockets)
    (hreading : t.reading = r.reading)
    (hsupport : ∀ e, r.Supported e → t.Supported e) : t.Admissions := by
  rw [admissions_iff, hsockets, hreading]
  intro id hrn
  have hid := admissions_iff.mp h id hrn
  exact ⟨hid.reading, hid.ready, fun e he hflag hconfirmed =>
    hsupport e (hid.supported e he hflag hconfirmed)⟩

variable {hash : Bytes}

/-- An eviction that was owed: it flags whoever it was the support of. -/
theorem Admissions.of_evict (h : r.Admissions) (hreg : r.sockets.Registered)
    (hsockets : t.sockets = r.sockets.onHub (r.sockets.hub.evict hash))
    (hreading : t.reading = r.reading) (hsupport : ∀ e, e ≠ hash → r.Supported e → t.Supported e) :
    t.Admissions := by
  rw [admissions_iff, hsockets, hreading]
  intro id hrn
  have hid := admissions_iff.mp h id hrn
  refine ⟨hid.reading, hid.ready, fun e he hflag hconfirmed => ?_⟩
  have hb := (Registry.narrows_evict r.sockets.hub hash).unflagged hflag
  have hne : e ≠ hash := by
    rintro rfl
    exact absurd (Registry.isEvicted_evict (hreg id e hrn he hb)) (Bool.eq_false_iff.mp hflag)
  exact hsupport e hne (hid.supported e he hb hconfirmed)

variable {op : Operation} {id : ConnectionId} {pid : Nat} {e : Bytes}

/-- An operation leaves a connection's admission alone, unless it registers it. -/
theorem readingAfter_cases (op : Operation) (hid : id ≠ r.sockets.hub.nextId) :
    (∀ e, op ≠ .identify id e) ∧ r.readingAfter op id = r.reading id ∨ ∃ e, op = .identify id e ∧
        r.readingAfter op id = .secondSet e := by
  cases op with
  | connect => exact .inl ⟨by simp, update_of_ne hid _ _⟩
  | identify x e =>
    by_cases ho : id = x
    · subst ho
      exact .inr ⟨e, rfl, update_self _ _ _⟩
    · refine .inl ⟨?_, update_of_ne ho _ _⟩
      simp [Ne.symm ho]
  | _ => exact .inl ⟨by simp, rfl⟩

variable {sockets : Sockets}

/-- A connection about to be registered has no entry hash and is not ready. -/
theorem entry_of_identify {t} (ht : sockets.Tidy) (hs : sockets.Steps (.identify id e) t) :
    (sockets.connections id).entry = none ∧ ∀ x, (sockets.connections id).session ≠ .ready x := by
  simp only [Sockets.Steps, Sockets.step] at hs
  split_ifs at hs with hreader
  simp [Connection.entry, ht.challenged hreader, hreader]

theorem Admissions.of_connect (h : r.Admissions) : Admissions { r with
      sockets := r.sockets.connected, reading := r.readingAfter .connect } := by
  refine admissions_iff.mpr fun id hrn => ?_
  by_cases hid : id = r.sockets.hub.nextId
  · subst hid
    have hnew : r.sockets.connected.connections r.sockets.hub.nextId = .opened := update_self _ _ _
    simp only [hnew]
    refine ⟨?_, ?_, ?_⟩ <;> simp [Connection.entry, Connection.opened]
  · obtain ⟨hconnection, heq⟩ := Sockets.connected_of_ne hid
    have hreading : r.readingAfter .connect id = r.reading id := update_of_ne hid _ _
    simp only [hconnection, hreading, heq] at hrn ⊢
    exact admissions_iff.mp h id hrn

theorem Admissions.of_ordinary (h : r.Admissions) (ht : r.sockets.Tidy)
    (hpermits : r.permits op = true) (hs : r.sockets.Steps op sockets)
    (hord : r.sockets.Ordinary op sockets) :
    Admissions { r with sockets := sockets, reading := r.readingAfter op } := by
  -- A connection that runs after the step ran before it, so its id is in use.
  have hused : ∀ {id}, (sockets.connections id).reader ≠ .ended → id ≠ r.sockets.hub.nextId := by
    rintro id hrn rfl
    refine (hord.keeps _).running hrn ?_
    rw [ht.unused _ (le_refl _)]
    rfl
  refine admissions_iff.mpr fun id hrn => ?_
  have hkeeps := hord.keeps id
  have hb := admissions_iff.mp h id (hkeeps.running hrn)
  rcases readingAfter_cases op (hused hrn) with ⟨hnot, heq⟩ | ⟨x, rfl, hsecond⟩
  · have he : ∀ {e}, (sockets.connections id).entry = some e →
        (r.sockets.connections id).entry = some e := fun {e} he =>
      (hkeeps.entry e hrn he).resolve_right (hnot e)
    simp only [heq]
    refine ⟨fun e h => hb.reading e (he h), fun e hready => ?_,
      fun e h hflag => hb.supported e (he h) (hord.hub.unflagged hflag)⟩
    rcases hkeeps.granted e hrn hready with hold | rfl
    · exact hb.ready e hold
    · -- Only a confirmed admission becomes ready, and under the hash it confirmed.
      have hreg := hb.reading e (he (Connection.entry_of_ready hready))
      simp only [permits] at hpermits
      split at hpermits
      next confirmed hconfirmed =>
        rw [hconfirmed] at hreg ⊢
        simpa [Reading.registered] using hreg
      next => cases hpermits
  · obtain ⟨hnone, hnotReady⟩ := entry_of_identify ht hs
    simp only [hsecond]
    refine ⟨fun e he => .inr ?_, fun e hready => ?_, fun _ _ _ => nofun⟩
    · rcases hkeeps.entry e hrn he with hold | hnew
      · cases hnone.symm.trans hold
      · cases hnew
        rfl
    · rcases hkeeps.granted e hrn hready with hold | hnew
      · exact absurd hold (hnotReady e)
      · cases hnew

/-- An operation of the sockets under the answers the admissions have read. -/
theorem Admissions.of_socket (h : r.Admissions) (ht : r.sockets.Tidy)
    (hpermits : r.permits op = true) (hs : r.sockets.Steps op sockets) :
    Admissions { r with sockets := sockets, reading := r.readingAfter op } := by
  rcases ht.step_cases hs with
    ⟨rfl, rfl⟩ | ⟨x, g, ver, rfl, hreader, rfl⟩ | hord
  · exact h.of_connect
  · have hsenders := (Registry.subscribeWith_rest (some []) r.sockets.hub g x ver).2.1
    refine ⟨h.reading, h.ready, ?_⟩
    intro id e hrn he hflag hconfirmed
    refine h.supported id e hrn he ?_ hconfirmed
    simpa only [Registry.isEvicted, Sockets.onHub, Registry.subscribeHoldingHandshakes,
      hsenders] using hflag
  · exact h.of_ordinary ht hpermits hs hord

theorem Admissions.of_reading (h : r.Admissions) {reading}
    (hreg : ∀ e, (r.sockets.connections id).entry = some e →
      (r.reading id = .refused ∨ (r.reading id).registered = some e) →
        reading = .refused ∨ reading.registered = some e)
    (hk : ∀ e, r.reading id = .confirmed e → reading = .confirmed e)
    (hconfirmed : ∀ e, reading = .confirmed e → r.reading id = .confirmed e ∨ r.Supported e) :
    Admissions { r with reading := update r.reading id reading } := by
  refine admissions_iff.mpr fun x hrn => ?_
  have hold := admissions_iff.mp h x hrn
  by_cases ho : x = id
  · subst ho
    simp only [update_self]
    refine ⟨fun e he => hreg e he (hold.reading e he),
      fun e hready => hk e (hold.ready e hready), fun e he hflag hread => ?_⟩
    rcases hconfirmed e hread with hb | hnow
    · exact hold.supported e he hflag hb
    · exact hnow
  · simp only [update_of_ne ho]
    exact hold

theorem Admissions.of_query (h : r.Admissions) (id : ConnectionId) (now : Nat) : Admissions { r with
      reading := update r.reading id ((r.reading id).query r.publishers.db now) } := by
  refine h.of_reading ?_ ?_ ?_
  · rintro e - (hrefused | hread)
    · exact .inl (by rw [hrefused]; rfl)
    · exact Reading.query_registered hread
  · intro e hread
    rw [hread]
    rfl
  · intro e hread
    cases hreading : r.reading id with
    | secondSet held =>
      simp only [hreading, Reading.query] at hread
      split_ifs at hread with hset
      cases hread
      exact .inr (.inl hset)
    | secondGrant held =>
      simp only [hreading, Reading.query] at hread
      split_ifs at hread with hl
      cases hread
      exact .inr (.inr (.inl (liveGrant_unvoided hl)))
    | confirmed held =>
      rw [hreading] at hread
      exact .inl hread
    | firstSet | firstGrant =>
      simp only [hreading, Reading.query] at hread
      split_ifs at hread
    | unread | admitted | refused => simp [hreading, Reading.query] at hread

variable (h : r.Sound c)
include h

theorem Sound.of_publish (turn : Access.Turn) (hfree : r.removing pid = []) : Sound c { r with
      publishers := r.publishers.turn c salt pid turn
      removing := update r.removing pid (removedBy c salt r.publishers pid turn) } := by
  obtain ⟨hcons, hphases⟩ :=
    consistent_turn salt h.tables.consistent h.tables.phases pid turn
  -- The process owed nothing, so the update takes nothing from what the others owe.
  have howed : ∀ {e x}, e ∈ r.removing x → e ∈ update r.removing pid
        (removedBy c salt r.publishers pid turn) x := by
    intro e x he
    have ho : x ≠ pid := by
      rintro rfl
      simp [hfree] at he
    rwa [update_of_ne ho]
  rcases turn_stores salt h.tables.consistent h.tables.phases pid turn with
    ⟨hdb, -⟩ | hstored
  · refine ⟨h.tidy, h.registered, ⟨hcons, hphases, by rw [hdb]; exact h.tables.seen⟩,
      h.admissions.of_support rfl rfl ?_⟩
    intro e hsupp
    simp only [Supported, hdb]
    refine hsupp.imp_right (.imp_right (.imp_left ?_))
    rintro ⟨x, he⟩
    exact ⟨x, howed he⟩
  · refine ⟨h.tidy, h.registered, ⟨hcons, hphases, hstored.seenCarried⟩,
      h.admissions.of_support rfl rfl ?_⟩
    intro e hsupp
    rcases or_assoc.mpr hsupp with hheld | ⟨x, he⟩ | hrevoking
    · rcases hstored.supported h.tables.seen hheld with hset | hgrant | hrem
      · exact .inl hset
      · exact .inr (.inl hgrant)
      · refine .inr (.inr (.inl ⟨pid, ?_⟩))
        simpa using hrem
    · exact .inr (.inr (.inl ⟨x, howed he⟩))
    · exact .inr (.inr (.inr hrevoking))

omit h in
theorem mem_update_of_tail {owed : Nat → List Bytes} {x rest}
    (howed : owed pid = hash :: rest) (hne : e ≠ hash) (he : e ∈ owed x) :
    e ∈ update owed pid rest x := by
  by_cases ho : x = pid
  · subst ho
    rw [howed] at he
    simpa using (mem_cons.mp he).resolve_left hne
  · rwa [update_of_ne ho]

/-- An eviction that was owed keeps the invariant, whoever owed it. -/
theorem Sound.of_evict (hsockets : t.sockets = r.sockets.onHub (r.sockets.hub.evict hash))
    (hpub : t.publishers = r.publishers) (hreading : t.reading = r.reading)
    (hrem : ∀ pid e, e ≠ hash → e ∈ r.removing pid → e ∈ t.removing pid)
    (hrevoking : ∀ pid e, e ≠ hash → e ∈ r.revoking pid → e ∈ t.revoking pid) : t.Sound c := by
  have hs : r.sockets.Steps (.evict hash) t.sockets := by
    rw [hsockets]
    rfl
  have hspares : r.sockets.Spares (.evict hash) := trivial
  refine ⟨Sockets.tidy_step h.tidy hs, Sockets.registered_step h.tidy h.registered hspares hs, ?_,
    h.admissions.of_evict h.registered hsockets hreading ?_⟩
  · rw [hpub]
    exact h.tables
  · intro e hne hsupp
    simp only [Supported, hpub]
    rcases hsupp with hset | hgrant | ⟨pid, he⟩ | ⟨pid, he⟩
    · exact .inl hset
    · exact .inr (.inl hgrant)
    · exact .inr (.inr (.inl ⟨pid, hrem pid e hne he⟩))
    · exact .inr (.inr (.inr ⟨pid, hrevoking pid e hne he⟩))

/-- A statement on the grants: no void is cleared or set but for hashes the relay now owes
an eviction for. -/
theorem Sound.of_grants (grants : List GrantRow) (revoking : Nat → List Bytes) (ha : t = { r with
      publishers := { r.publishers with
        db := { r.publishers.db with grants := grants } }
      revoking := revoking })
    (hseen : ∀ gr ∈ grants, gr.voided = none → gr.seenVersion ≠ none → gr ∈ r.publishers.db.grants ∨
        ∃ old ∈ r.publishers.db.grants, old.voided = none ∧ old.seenVersion ≠ none ∧
          old.deviceHash = gr.deviceHash) (hk : ∀ old ∈ r.publishers.db.grants, old.voided = none →
      (∃ gr ∈ grants, gr.deviceHash = old.deviceHash ∧ gr.voided = none) ∨
        ∃ pid, old.deviceHash ∈ revoking pid)
    (hrevoking : ∀ pid e, e ∈ r.revoking pid → e ∈ revoking pid) : t.Sound c := by
  subst ha
  refine ⟨h.tidy, h.registered, h.tables.of_grants ?_, h.admissions.of_support rfl rfl ?_⟩
  · intro gr hgrant hvoided hmarked
    rcases hseen gr hgrant hvoided hmarked with hold | ⟨old, hold, hopen, hsaw, hh⟩
    · exact h.tables.seen gr hold hvoided hmarked
    · exact hh ▸ h.tables.seen old hold hopen hsaw
  · intro e hsupp
    rcases hsupp with hset | hgrant | hrem | ⟨pid, he⟩
    · exact .inl hset
    · obtain ⟨old, hold, rfl, hopen⟩ := unvoidedGrant_iff.mp hgrant
      rcases hk old hold hopen with ⟨gr, hnew, hh, hvoided⟩ | hrevoked
      · exact .inr (.inl (unvoidedGrant_iff.mpr ⟨gr, hnew, hh, hvoided⟩))
      · exact .inr (.inr (.inr hrevoked))
    · exact .inr (.inr (.inl hrem))
    · exact .inr (.inr (.inr ⟨pid, hrevoking pid e he⟩))

theorem Sound.of_upsert (hash : Bytes) (exp : Nat) :
    Sound c (r.onDb (upsertGrant r.publishers.db hash exp)) := by
  simp only [upsertGrant]
  split_ifs
  · refine h.of_grants _ r.revoking rfl ?_ ?_ fun _ _ he => he
    · intro gr hgrant hvoided hmarked
      obtain ⟨old, hold, rfl⟩ := mem_map.mp hgrant
      split_ifs at hmarked ⊢ with hrow
      · exact absurd rfl hmarked
      · exact .inl hold
    · intro old hold hopen
      refine .inl ⟨_, mem_map_of_mem hold, ?_⟩
      split_ifs
      · exact ⟨rfl, hopen⟩
      · exact ⟨rfl, hopen⟩
  · refine h.of_grants _ r.revoking rfl ?_ ?_ fun _ _ he => he
    · intro gr hgrant hvoided hmarked
      rcases mem_snoc.mp hgrant with hold | rfl
      · exact .inl hold
      · exact absurd rfl hmarked
    · intro old hold hopen
      exact .inl ⟨old, mem_append_left _ hold, rfl, hopen⟩

theorem Sound.of_extend (hash : Bytes) (exp : Nat) :
    Sound c (r.onDb (extendGrant r.publishers.db hash exp)) := by
  refine h.of_grants _ r.revoking rfl ?_ ?_ fun _ _ he => he
  · intro gr hgrant hvoided hmarked
    obtain ⟨old, hold, rfl⟩ := mem_map.mp hgrant
    split_ifs at hvoided hmarked ⊢ with hrow
    · exact .inr ⟨old, hold, hvoided, hmarked, rfl⟩
    · exact .inl hold
  · intro old hold hopen
    refine .inl ⟨_, mem_map_of_mem hold, ?_⟩
    split_ifs
    · exact ⟨rfl, hopen⟩
    · exact ⟨rfl, hopen⟩

/-- A revocation's commit: what it voids it owes an eviction for. -/
theorem Sound.of_revoke (pid : Nat) (hash : Bytes) :
    Sound c { r.onDb (revokeGrant r.publishers.db hash) with
      revoking := update r.revoking pid (r.revoking pid ++ [hash]) } := by
  have hmore : ∀ x e, e ∈ r.revoking x →
      e ∈ update r.revoking pid (r.revoking pid ++ [hash]) x := by
    intro x e he
    by_cases ho : x = pid
    · subst ho
      simp [he]
    · rwa [update_of_ne ho]
  refine h.of_grants _ _ rfl ?_ ?_ hmore
  · intro gr hgrant hvoided hmarked
    obtain ⟨old, hold, rfl⟩ := mem_map.mp hgrant
    split_ifs at hvoided ⊢
    exact .inl hold
  · intro old hold hopen
    by_cases hh : old.deviceHash = hash
    · exact .inr ⟨pid, by simp [hh]⟩
    · refine .inl ⟨_, mem_map_of_mem hold, ?_⟩
      simp [hh, hopen]

theorem sound_step {event} (hs : r.Steps c salt event t) : t.Sound c := by
  obtain ⟨hs, hspares⟩ := hs
  cases event with
  | socket op =>
    simp only [step] at hs
    split_ifs at hs with hpermits
    obtain ⟨sockets, hsockets, rfl⟩ := Option.map_eq_some_iff.mp hs
    exact ⟨Sockets.tidy_step h.tidy hsockets,
      Sockets.registered_step h.tidy h.registered (hspares op rfl) hsockets,
      h.tables, h.admissions.of_socket h.tidy hpermits hsockets⟩
  | verify id deviceKey =>
    simp only [step] at hs
    split_ifs at hs with hready
    cases hs
    refine ⟨h.tidy, h.registered, h.tables, h.admissions.of_reading ?_ ?_ ?_⟩
    · intro e he
      simp [Connection.entry, h.tidy.challenged hready.1, hready.1] at he
    · intro e hread
      rw [hready.2] at hread
      cases hread
    · intro e hread
      cases hread
  | query id now =>
    simp only [step] at hs
    split_ifs at hs
    cases hs
    exact ⟨h.tidy, h.registered, h.tables, h.admissions.of_query id now⟩
  | publish pid turn =>
    simp only [step] at hs
    split_ifs at hs with hfree
    cases hs
    exact h.of_publish turn hfree
  | evictRemoved pid =>
    simp only [step] at hs
    split at hs
    next => cases hs
    next hash rest howed =>
      cases hs
      refine h.of_evict rfl rfl rfl ?_ fun _ _ _ he => he
      exact fun x e => mem_update_of_tail howed
  | void pid hash =>
    simp only [step] at hs
    split_ifs at hs
    · cases hs
      exact h.of_revoke pid hash
    · cases hs
      exact h
  | evictVoided pid =>
    simp only [step] at hs
    split at hs
    next => cases hs
    next hash rest howed =>
      cases hs
      refine h.of_evict rfl rfl rfl (fun _ _ _ he => he) ?_
      exact fun x e => mem_update_of_tail howed
  | grant hash exp =>
    cases hs
    exact h.of_upsert hash exp
  | extend hash exp =>
    cases hs
    exact h.of_extend hash exp

end Steps

/-! ### The race -/

/-- A relay that has accepted no connection yet, over these publishers and tables. -/
def start (publishers : Publishers) : Relay where
  sockets := Sockets.start
  publishers := publishers
  reading := fun _ => .unread
  removing := fun _ => []
  revoking := fun _ => []

/-- No publication and no revocation stands between its commit and one of its evictions. -/
def NothingOwed (relay : Relay) : Prop :=
  ∀ pid, relay.removing pid = [] ∧ relay.revoking pid = []

variable {c : Crypto}

theorem sound_start {pubs} (h : Unpublished pubs)
    (hgrants : ∀ gr ∈ pubs.db.grants, gr.voided = none → gr.seenVersion = none) :
    (start pubs).Sound c where
  tidy := Sockets.tidy_start
  registered _ _ hrn := absurd rfl hrn
  tables :=
    have hrefines : RefinesChain c [] pubs := refinesChain_unpublished h
    { consistent := hrefines.consistent
      phases := hrefines.phases
      seen := fun gr hgrant hvoided hseen => absurd (hgrants gr hgrant hvoided) hseen }
  admissions := admissions_iff.mpr fun _ hrn => absurd rfl hrn

/--
However any number of authentications, publications, revocations and grants interleave,
once no eviction is owed there is no ready, open, unflagged connection of a device that
the newest accepted set does not carry and that holds no grant but void ones.
-/
theorem revoked_device_keeps_no_connection
    {c : Crypto}
    {salt : Bytes}
    {publishers : Publishers}
    {events : List Event}
    {relay : Relay}
    (h : Unpublished publishers)
    (hgrants : ∀ grant ∈ publishers.db.grants, grant.voided = none → grant.seenVersion = none)
    (run : Run (Steps c salt) (start publishers) events relay)
    (hdone : relay.NothingOwed)
    (id : ConnectionId)
    (entry : Bytes) :
    ¬ ((relay.sockets.connections id).session = .ready entry ∧
      (relay.sockets.connections id).reader ≠ .ended ∧
      relay.sockets.hub.isEvicted id = false ∧
      inNewestSet relay.publishers.db entry = false ∧
      unvoidedGrant relay.publishers.db entry = false) := by
  rintro ⟨hready, hrn, hflag, hset, hgrant⟩
  have hsound : relay.Sound c :=
    Run.invariant (fun _ _ _ hsound hs => sound_step hsound hs) run
      (sound_start h hgrants)
  have hsupported := hsound.admissions.supported id entry hrn
    (Connection.entry_of_ready hready) hflag (hsound.admissions.ready id entry hrn hready)
  rcases hsupported with hin | hheld | ⟨pid, howed⟩ | ⟨pid, howed⟩
  · rw [hset] at hin
    cases hin
  · rw [hgrant] at hheld
    cases hheld
  · rw [(hdone pid).1] at howed
    cases howed
  · rw [(hdone pid).2] at howed
    cases howed

/-- Take events in order. -/
def takeAll (c : Crypto) (salt : Bytes) (relay : Relay) : List Event → Option Relay
  | [] => some relay
  | event :: rest => (relay.step c salt event).bind (fun after => after.takeAll c salt rest)

/-- A fanout, the one operation that may drop a live connection. -/
def isFanout : Event → Bool
  | .socket (.fanout _ _ _ _) => true
  | _ => false

variable {salt : Bytes} {r t : Relay} {events : List Event} {pid : Nat}

theorem run_of_takeAll (h : r.takeAll c salt events = some t)
    (hquiet : ∀ event ∈ events, isFanout event = false) : Run (Steps c salt) r events t := by
  induction events generalizing r with
  | nil =>
    cases h
    exact .nil _
  | cons event rest ih =>
    obtain ⟨next, hs, hr⟩ := Option.bind_eq_some_iff.mp h
    refine .cons ⟨hs, ?_⟩ (ih hr (fun x ho =>
      hquiet x (mem_cons_of_mem _ ho)))
    rintro op rfl
    have hfirst := hquiet _ mem_cons_self
    cases op with
    | fanout _ _ _ _ => cases hfirst
    | _ => trivial

/-- An event of one of the publications and revocations other than the process's own. -/
def sparesProcess (pid : Nat) : Event → Bool
  | .publish other _ => other != pid
  | .evictRemoved other => other != pid
  | .void other _ => other != pid
  | .evictVoided other => other != pid
  | _ => true

theorem owes_step {event} (hs : r.step c salt event = some t)
    (ho : sparesProcess pid event = true) :
    t.removing pid = r.removing pid ∧ t.revoking pid = r.revoking pid := by
  cases event with
  | socket op =>
    simp only [step] at hs
    split at hs
    · obtain ⟨_, _, rfl⟩ := Option.map_eq_some_iff.mp hs
      exact ⟨rfl, rfl⟩
    · cases hs
  | verify _ _ | query _ _ =>
    simp only [step] at hs
    split at hs <;> cases hs
    exact ⟨rfl, rfl⟩
  | publish x _ | evictRemoved x | void x _ | evictVoided x =>
    have hne : pid ≠ x := Ne.symm (bne_iff_ne.mp ho)
    simp only [step] at hs
    split at hs <;> cases hs <;> simp [evict, onDb, update_of_ne hne]
  | grant _ _ | extend _ _ =>
    cases hs
    exact ⟨rfl, rfl⟩

theorem owes_run (run : Run (Steps c salt) r events t)
    (ho : ∀ event ∈ events, sparesProcess pid event = true) :
    t.removing pid = r.removing pid ∧ t.revoking pid = r.revoking pid := by
  induction run with
  | nil _ => exact ⟨rfl, rfl⟩
  | cons hs _ ih =>
    have hfirst := owes_step hs.1 (ho _ mem_cons_self)
    have hr := ih (fun event hevent => ho event (mem_cons_of_mem _ hevent))
    exact ⟨hr.1.trans hfirst.1, hr.2.trans hfirst.2⟩

/-- One connection's `AUTH` up to its registration. -/
def admits (id : ConnectionId) (device : Byte) : List Event :=
  [.socket .connect, .socket (.challenge id), .socket (.receive id .authenticate),
    .socket (.perform id), .verify id (sampleKey device), .query id 0]

/-- The rest of it, where the set carries the device. -/
def confirms (id : ConnectionId) (device : Byte) : List Event :=
  [.socket (.identify id (sampleEntry device)), .query id 0, .socket (.authenticated id)]

/-- A set with a member, and its successor without. -/
def memberGenesis : AccessSet := sampleSet none [1] [10] [sampleEntry 5] none [] 1

def memberRemoved : AccessSet := sampleSet (some memberGenesis) [1] [10] [] none [] 1

/-- Two connections of the member and one of the authorizer. The set without the member
commits after the member's second connection was admitted and before it registers. -/
def raceEvents : List Event :=
  let publish (candidate : AccessSet) (statements : Nat) : List Event :=
    .publish 0 (.start candidate) :: List.replicate statements (.publish 0 (.statement 0))
  publish memberGenesis 4 ++ admits 0 5 ++ confirms 0 5 ++ admits 1 1 ++ confirms 1 1 ++
    admits 2 5 ++ publish memberRemoved 7 ++
    [.socket (.identify 2 (sampleEntry 5)), .evictRemoved 0, .query 2 0, .query 2 0,
      .socket (.rejected 2)]

/-- The relay after the race. -/
def raced : Relay :=
  ((start idlePublishers).takeAll sampleCrypto sampleSalt raceEvents).getD (start idlePublishers)

theorem raced_run : Run (Steps sampleCrypto sampleSalt) (start idlePublishers) raceEvents raced :=
  run_of_takeAll (Option.getD_of_ne_none (by decide +kernel) _).symm (by decide +kernel)

theorem raced_owes_nothing : raced.NothingOwed := by
  intro pid
  cases pid with
  | zero => decide +kernel
  | succ pid => exact owes_run raced_run (by simp [raceEvents, admits, confirms, sparesProcess])

/-- The removed member's first connection is flagged, its second one was refused, and the
authorizer's is still served. -/
theorem removed_member_keeps_no_connection : raced.sockets.hub.isEvicted 0 = true ∧
      (raced.sockets.connections 1).session = .ready (sampleEntry 1) ∧
      raced.sockets.hub.isEvicted 1 = false ∧
      (raced.sockets.connections 2).session = .closed ∧
      ∀ id entry, ¬ ((raced.sockets.connections id).session = .ready entry ∧
        (raced.sockets.connections id).reader ≠ .ended ∧
        raced.sockets.hub.isEvicted id = false ∧
        inNewestSet raced.publishers.db entry = false ∧
        unvoidedGrant raced.publishers.db entry = false) :=
  ⟨by decide +kernel, by decide +kernel, by decide +kernel, by decide +kernel,
    revoked_device_keeps_no_connection ⟨rfl, rfl, rfl, rfl, rfl, rfl, fun _ => rfl⟩
      (by decide) raced_run raced_owes_nothing⟩

end Relay

end WealdRelay.Admission
