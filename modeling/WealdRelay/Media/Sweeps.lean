import WealdRelay.Media.Uploads

/-!
# Collectors, uploads and manifests side by side

The three collectors of one group, step by step, with any number of PUTs, uploads and
manifests in between. A step is one listing, one decision, one call of the store or one
transaction; the store answers correctly.

* A PUT asks the store for the object and then takes its reservation.
* A manifest has each object it claims measured and is then applied.
* The unclaimed collector lists the stale rows. For each it holds the row and the quota,
  checks the row again, deletes the object and releases the row.
* The retention collector lists the final rows. For each it decides, deletes the object,
  and deletes the row.
* The storage sweep lists the objects, then the rows, and deletes the objects without one.

Nothing keeps the second and the third from acting on what is no longer so. What writes an
object is one step at any moment, whether or not a URL for it is still good.
-/

namespace WealdRelay.Media.Sweeps

open Lib Retention

/-- What the processes share: the media tables and the store, the retention tables of the
group, the next id and the clock. -/
structure Depot extends Shelf where
  records : Records
  nextId : Nat
  clock : Int

/-- Where a process stands: the step it takes next. -/
inductive Phase where
  | idle
  | putHead (hash : Bytes) (len : Nat) (limit : Option Int)
  | putReserve (hash : Bytes) (len : Nat) (limit : Option Int) (alreadyStored : Bool)
  | manifestHead (record : RetentionManifest) (hashes : List Bytes)
  | manifestApply (record : RetentionManifest)
  | unclaimedList (graceSeconds : Int)
  | unclaimedNext (graceSeconds : Int) (rows : List Reservation)
  | unclaimedDelete (graceSeconds : Int) (row : Reservation) (rows : List Reservation)
  | unclaimedRelease (graceSeconds : Int) (row : Reservation) (rows : List Reservation)
  | retentionList (nowMs : Nat)
  | retentionNext (nowMs : Nat) (rows : List Reservation)
  | retentionDelete (nowMs : Nat) (row : Reservation) (rows : List Reservation)
  | retentionFinish (nowMs : Nat) (row : Reservation) (rows : List Reservation)
  | unreferencedList (nowMs minAgeSeconds : Nat)
  | unreferencedRows (nowMs minAgeSeconds : Nat) (listed : Storage)
  | unreferencedNext (doomed : List Key)

/-- What a process does with its turn: take up a request or a pass, take its next step or
give up. An upload, a tick of the clock, and what becomes of the group's controls, policies
and destruction records are one step. -/
inductive Action where
  | put (hash : Bytes) (len : Nat) (limit : Option Int)
  | manifest (record : RetentionManifest)
  | sweepUnclaimed (graceSeconds : Int)
  | sweepRetention (nowMs : Nat)
  | sweepUnreferenced (nowMs minAgeSeconds : Nat)
  | upload (hash : Bytes) (len : Nat)
  | govern (chain : Chain) (policies : List Policy) (destructions : List Destruction)
  | tick (clock : Int)
  | turn
  | quit

section Machine

variable (c : Access.Crypto) (workspace group : Bytes)

/-- One step of a request or a pass. -/
def statement (s : Depot) : Phase → Option (Depot × Phase)
  | .idle => none
  | .putHead hash len limit =>
    some (s, .putReserve hash len limit (s.objects.get (.blob workspace group hash)).isSome)
  | .putReserve hash len limit alreadyStored =>
    let tables := (takeReservation workspace group hash len limit alreadyStored s.nextId s.clock
      s.tables).2
    some ({ s with tables, nextId := s.nextId + 1 }, .idle)
  | .manifestHead record [] => some (s, .manifestApply record)
  | .manifestHead record (hash :: hashes) =>
    match s.toShelf.refusedObject workspace group (fun _ => none) hash with
    | some _ => some (s, .idle)
    | none => some (s, .manifestHead record hashes)
  | .manifestApply record =>
    match applyManifest c workspace s.clock record s.records s.tables with
    | some (_, records, tables) => some ({ s with tables, records }, .idle)
    | none => some (s, .idle)
  | .unclaimedList graceSeconds =>
    some (s, .unclaimedNext graceSeconds (staleUnclaimed workspace graceSeconds s.clock s.tables))
  | .unclaimedNext _ [] => some (s, .idle)
  | .unclaimedNext graceSeconds (row :: rows) =>
    match (lockUnclaimed workspace row.reservationId graceSeconds s.clock).alone Write.apply
        s.tables with
    | .ok (true, _) => some (s, .unclaimedDelete graceSeconds row rows)
    | _ => some (s, .unclaimedNext graceSeconds rows)
  | .unclaimedDelete graceSeconds row rows =>
    some ({ s with objects := s.objects.delete (.blob workspace row.group row.hash) },
      .unclaimedRelease graceSeconds row rows)
  | .unclaimedRelease graceSeconds row rows =>
    match (releaseIn workspace row.reservationId).alone Write.apply s.tables with
    | .ok (some _, tables) => some ({ s with tables }, .unclaimedNext graceSeconds rows)
    | _ => some (s, .unclaimedNext graceSeconds rows)
  | .retentionList nowMs =>
    some (s, .retentionNext nowMs (finalizedReservations workspace group s.tables))
  | .retentionNext _ [] => some (s, .idle)
  | .retentionNext nowMs (row :: rows) =>
    if eligible s.records row.hash (claimedAtMs (row.finalizedAt.getD 0)) nowMs = .eligible
    then some (s, .retentionDelete nowMs row rows)
    else some (s, .retentionNext nowMs rows)
  | .retentionDelete nowMs row rows =>
    some ({ s with objects := s.objects.delete (.blob workspace row.group row.hash) },
      .retentionFinish nowMs row rows)
  | .retentionFinish nowMs row rows =>
    match (finishDeletion workspace row.reservationId).alone Write.apply s.tables with
    | .ok (_, tables) => some ({ s with tables }, .retentionNext nowMs rows)
    | .error _ => some (s, .retentionNext nowMs rows)
  | .unreferencedList nowMs minAgeSeconds =>
    some (s, .unreferencedRows nowMs minAgeSeconds s.objects)
  | .unreferencedRows nowMs minAgeSeconds listed =>
    some (s, .unreferencedNext (unreferenced workspace group
      (min (minAgeSeconds * 1000) maxU64) nowMs (claimedHashes workspace group s.tables)
      listed))
  | .unreferencedNext [] => some (s, .idle)
  | .unreferencedNext (key :: doomed) =>
    some ({ s with objects := s.objects.delete key }, .unreferencedNext doomed)

def act : Action → Depot → Phase → Option (Depot × Phase)
  | .put hash len limit, s, .idle =>
    if len = 0 || blobLimit < len then some (s, .idle) else some (s, .putHead hash len limit)
  | .manifest record, s, .idle =>
    if record.group = group then some (s, .manifestHead record record.blobs) else none
  | .sweepUnclaimed graceSeconds, s, .idle => some (s, .unclaimedList graceSeconds)
  | .sweepRetention nowMs, s, .idle => some (s, .retentionList nowMs)
  | .sweepUnreferenced nowMs minAgeSeconds, s, .idle =>
    some (s, .unreferencedList nowMs minAgeSeconds)
  | .upload hash len, s, .idle =>
    some ({ s with
      objects := s.objects.put ⟨.blob workspace group hash, len,
        some (s.clock / 1000).toNat⟩ }, .idle)
  | .govern chain policies destructions, s, .idle =>
    some ({ s with records := ⟨chain, s.records.manifests, policies, destructions⟩ }, .idle)
  | .tick clock, s, .idle => if s.clock ≤ clock then some ({ s with clock }, .idle) else none
  | .turn, s, phase => statement c workspace group s phase
  | .quit, s, phase => (statement c workspace group s phase).map (fun _ => (s, .idle))
  | _, _, _ => none

/-- The locks a manifest takes: those of the rows it claims, and the quota for them. -/
def claimLocks (record : RetentionManifest) (tables : Tables) : List Lock :=
  ((tables workspace).rows.filter (fun row =>
    !row.finalized && row.group = record.group && record.blobs.contains row.hash)).flatMap
      (fun row => [.quota workspace, .row workspace row.reservationId])

/-- The rows a step needs for itself. `finish_deletion` waits for the quota row too; here
it does not, which only allows it more. -/
def needs : Action → Depot → Phase → List Lock
  | .turn, _, .putReserve _ _ _ _ => [.quota workspace]
  | .turn, s, .manifestApply record => claimLocks workspace record s.tables
  | .turn, _, .unclaimedNext _ (row :: _) =>
    [.quota workspace, .row workspace row.reservationId]
  | _, _, _ => []

/-- The rows a transaction holds between two steps: only the unclaimed collector's does. -/
def locks : Phase → List Lock
  | .unclaimedDelete _ row _ => [.quota workspace, .row workspace row.reservationId]
  | .unclaimedRelease _ row _ => [.quota workspace, .row workspace row.reservationId]
  | _ => []

/-- The objects a process has decided to delete and nothing holds for it. One that is
deleted still has its row to go. -/
def condemned : Phase → List Key
  | .retentionDelete _ row _ => [.blob workspace row.group row.hash]
  | .retentionFinish _ row _ => [.blob workspace row.group row.hash]
  | .unreferencedNext doomed => doomed
  | _ => []

/-- Nothing of the tables or the manifests changes, and no object goes. -/
structure Quiet (s s' : Depot) : Prop where
  tables : s'.tables = s.tables
  nextId : s'.nextId = s.nextId
  manifests : s'.records.manifests = s.records.manifests
  objects : ∀ key, (s.objects.get key).isSome → (s'.objects.get key).isSome

theorem Quiet.refl (s : Depot) : Quiet s s := ⟨rfl, rfl, rfl, fun _ h => h⟩

/-- What a step leaves of the tables, the store and the records. -/
inductive Effect (s : Depot) : Phase → Depot → Prop where
  | reads (phase : Phase) (s' : Depot) (h : Quiet s s') : Effect s phase s'
  | reserves (hash : Bytes) (len : Nat) (limit : Option Int) (alreadyStored : Bool) :
      Effect s (.putReserve hash len limit alreadyStored)
        { s with
          tables := (takeReservation workspace group hash len limit alreadyStored s.nextId s.clock
            s.tables).2
          nextId := s.nextId + 1 }
  | applies (record : RetentionManifest) (outcome : ManifestOutcome) (records : Records)
      (tables : Tables)
      (h : applyManifest c workspace s.clock record s.records s.tables =
        some (outcome, records, tables)) :
      Effect s (.manifestApply record) { s with tables, records }
  | collects (graceSeconds : Int) (row : Reservation) (rows : List Reservation) :
      Effect s (.unclaimedDelete graceSeconds row rows)
        { s with objects := s.objects.delete (.blob workspace row.group row.hash) }
  | releases (graceSeconds : Int) (row : Reservation) (rows : List Reservation) (bytes : Int)
      (tables : Tables)
      (h : (releaseIn workspace row.reservationId).alone Write.apply s.tables =
        .ok (some bytes, tables)) :
      Effect s (.unclaimedRelease graceSeconds row rows) { s with tables }
  | deletes (phase : Phase) (key : Key) (h : key ∈ condemned workspace phase) :
      Effect s phase { s with objects := s.objects.delete key }
  | finishes (nowMs : Nat) (row : Reservation) (rows : List Reservation) (tables : Tables)
      (h : (finishDeletion workspace row.reservationId).alone Write.apply s.tables =
        .ok ((), tables)) :
      Effect s (.retentionFinish nowMs row rows) { s with tables }

/-- The effect of a step, and the rows its process holds after it. -/
def Moves (s : Depot) (phase : Phase) (s' : Depot) (phase' : Phase) : Prop :=
  Effect c workspace group s phase s' ∧ ∀ row ∈ locks workspace phase',
    row ∈ locks workspace phase ∨ row ∈ needs workspace .turn s phase

variable {c workspace group} {s s' middle : Depot} {phase phase' next : Phase} {action : Action}

/-- A step that leaves its process without locks. -/
theorem effect_frees (h : some (middle, next) = some (s', phase'))
    (heffect : Effect c workspace group s phase middle) (hfree : locks workspace next = []) :
    Moves c workspace group s phase s' phase' := by
  cases h
  refine ⟨heffect, fun row hrow => ?_⟩
  rw [hfree] at hrow
  cases hrow

theorem effect_reads (h : some (s, next) = some (s', phase')) (hfree : locks workspace next = []) :
    Moves c workspace group s phase s' phase' :=
  effect_frees h (.reads _ _ (.refl s)) hfree

theorem statement_effect (h : statement c workspace group s phase = some (s', phase')) :
    Moves c workspace group s phase s' phase' := by
  cases phase with
  | idle => cases h
  | putHead | unclaimedList | retentionList | unreferencedList | unreferencedRows =>
    exact effect_reads h rfl
  | putReserve hash len lim alreadyStored =>
    exact effect_frees h (.reserves hash len lim alreadyStored) rfl
  | manifestHead rec hashes =>
    cases hashes with
    | nil => exact effect_reads h rfl
    | cons hash hashes =>
      simp only [statement] at h
      split at h
      · exact effect_reads h rfl
      · exact effect_reads h rfl
  | manifestApply rec =>
    simp only [statement] at h
    split at h
    next out rs ts happly =>
      exact effect_frees h (.applies rec out rs ts happly) rfl
    · exact effect_reads h rfl
  | unclaimedNext grace rows =>
    cases rows with
    | nil => exact effect_reads h rfl
    | cons row rows =>
      simp only [statement] at h
      split at h
      · cases h
        exact ⟨.reads _ _ (.refl _), fun held hheld => .inr hheld⟩
      · exact effect_reads h rfl
  | unclaimedDelete grace row rows =>
    cases h
    exact ⟨.collects grace row rows, fun held hheld => .inl hheld⟩
  | unclaimedRelease grace row rows =>
    simp only [statement] at h
    split at h
    next bytes ts hrel =>
      exact effect_frees h (.releases grace row rows bytes ts hrel) rfl
    · exact effect_reads h rfl
  | retentionNext nowMs rows =>
    cases rows with
    | nil => exact effect_reads h rfl
    | cons row rows =>
      simp only [statement] at h
      split at h
      · exact effect_reads h rfl
      · exact effect_reads h rfl
  | retentionDelete nowMs row rows =>
    exact effect_frees h (.deletes _ _ List.mem_cons_self) rfl
  | retentionFinish nowMs row rows =>
    simp only [statement] at h
    split at h
    next ts hfinish =>
      exact effect_frees h (.finishes nowMs row rows ts hfinish) rfl
    · exact effect_reads h rfl
  | unreferencedNext doomed =>
    cases doomed with
    | nil => exact effect_reads h rfl
    | cons key doomed => exact effect_frees h (.deletes _ _ List.mem_cons_self) rfl

variable (group) in
/-- A process has asked for something at most. -/
def opening : Phase → Prop
  | .idle | .putHead _ _ _ | .unclaimedList _ | .retentionList _ | .unreferencedList _ _ => True
  | .manifestHead record _ => record.group = group
  | _ => False

theorem locks_opening (h : opening group phase) : locks workspace phase = [] := by
  cases phase with
  | unclaimedDelete | unclaimedRelease => cases h
  | _ => rfl

theorem opening_of_eq (h : some (s, next) = some (s', phase')) (hopening : opening group next) :
    Quiet s s' ∧ opening group phase' := by
  cases h
  exact ⟨.refl _, hopening⟩

/-- A process takes its next step or only asks. -/
theorem act_cases (h : act c workspace group action s phase = some (s', phase')) :
    (action = .turn ∧ statement c workspace group s phase = some (s', phase')) ∨
      (Quiet s s' ∧ opening group phase') := by
  rw [act.eq_def] at h
  split at h
  · split at h
    · exact .inr (opening_of_eq h trivial)
    · exact .inr (opening_of_eq h trivial)
  · split at h
    next hg => exact .inr (opening_of_eq h hg)
    · cases h
  · exact .inr (opening_of_eq h trivial)
  · exact .inr (opening_of_eq h trivial)
  · exact .inr (opening_of_eq h trivial)
  · cases h
    refine .inr ⟨⟨rfl, rfl, rfl, fun key hkey => ?_⟩, trivial⟩
    rw [Storage.get_put]
    split
    · rfl
    · exact hkey
  · cases h
    exact .inr ⟨⟨rfl, rfl, rfl, fun _ h => h⟩, trivial⟩
  · split at h
    · cases h
      exact .inr ⟨⟨rfl, rfl, rfl, fun _ h => h⟩, trivial⟩
    · cases h
  · exact .inl ⟨rfl, h⟩
  · obtain ⟨-, -, h⟩ := Option.map_eq_some_iff.mp h
    exact .inr (opening_of_eq (congrArg some h) trivial)
  · cases h

variable (c workspace group) in
/-- The processes of one group. -/
def machine : Machine Depot Phase Action Lock where
  act := act c workspace group
  needs := needs workspace
  locks := locks workspace
  locks_act := by
    intro action s phase s' phase' h row hrow
    rcases act_cases h with ⟨rfl, h⟩ | h
    · exact (statement_effect h).2 row hrow
    · rw [locks_opening h.2] at hrow
      cases hrow

end Machine
end WealdRelay.Media.Sweeps
