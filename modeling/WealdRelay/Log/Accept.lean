import WealdRelay.Lib.Procs
import WealdRelay.Log.Store

/-!
# Sends and compactions that run at once

`accept.rs` and `drop_before` of `lifecycle/store.rs` as processes over one database.
A phase names the statement a process runs next and carries what its transaction has
read and written so far; `Phase.locks` are the rows the transaction has written, which
nobody else can write before it ends.

The log keeps, beside its tables, a mark for every envelope that was ever stored, in
the order of the commits.

* A send claims a number by writing the group's row, inserts under the address and the
  workspace's counter, reads the counter back and commits.
* A send whose address is taken rolls back and looks the address up again. If a
  compaction has removed the row by then, the send answers with the number it had
  claimed itself.
* A compaction deletes what was under its barrier when its delete began and is still
  there.
* A statement may fail, which rolls its transaction back, and the answer of a commit may
  be lost after the commit has happened.
-/

namespace WealdRelay.Log

open Lib

/-- What accepting one envelope did. -/
inductive Accepted where
  | stored (seq : Nat)
  | duplicate (seq : Nat)
deriving DecidableEq

def Accepted.seq : Accepted → Nat
  | .stored seq => seq
  | .duplicate seq => seq

/-- Why an envelope was not accepted. -/
inductive AcceptError where
  | envelope (error : EnvelopeError)
  | groupUnknown
  | groupFrozen
  | readOnly
  | logBudgetExhausted (limit : Nat)
  | backpressure
deriving DecidableEq

/-- The settings `accept` reads. -/
structure Config where
  readOnly : Bool
  minEncryption : MinEncryption
  limitBytes : Option Nat

/-- An envelope that was stored, and its number. -/
structure Mark where
  group : Bytes
  hash : Bytes
  seq : Nat
deriving DecidableEq

def EnvelopeRow.mark (row : EnvelopeRow) : Mark := ⟨row.groupId, row.hash, row.seq⟩

/-- The tables, and a mark for each commit of an envelope, oldest first. -/
structure State where
  db : Db
  stored : List Mark

/-- The rows a transaction can hold. -/
inductive Row where
  | group (id : Bytes)
  | envelope (group hash : Bytes)
  | budget (workspace : Bytes)
  | checkpoint (group manifestHash : Bytes)
deriving DecidableEq

/-- Where a process stands. -/
inductive Phase where
  | idle
  | lookup (e : Envelope) (now : Nat)
  | claim (e : Envelope) (now : Nat)
  | insert (e : Envelope) (now seq : Nat) (workspace : Bytes)
  | judge (e : Envelope) (now seq : Nat) (workspace : Bytes)
  | commit (e : Envelope) (now seq : Nat) (workspace : Bytes)
  | lookAgain (e : Envelope) (seq : Nat)
  | answered (e : Envelope) (accepted : Accepted)
  | refused (error : AcceptError)
  | checkpoint (d : Drop)
  | count (d : Drop)
  | measure (d : Drop) (below : Nat)
  | delete (d : Drop) (below bytes : Nat)
  | deleting (d : Drop) (below bytes : Nat) (doomed : List EnvelopeRow)
  | deleted (d : Drop) (below bytes : Nat) (workspace : Option Bytes)
      (gone : List EnvelopeRow)
  | dropped (outcome : DropOutcome)
  | dropFailed
deriving DecidableEq

/-- What a process does with its turn. -/
inductive Action where
  | send (data : Bytes) (now : Nat)
  | drop (d : Drop)
  | turn
  | fail
  | lose
deriving DecidableEq

def workspaceOf (db : Db) (group : Bytes) : Option Bytes :=
  (db.groups group).map (·.workspaceId)

/-- The rows a delete writes: the envelopes, and the counter if there are any. -/
def removalRows (workspace : Option Bytes) (gone : List EnvelopeRow) : List Row :=
  gone.map (fun row => .envelope row.groupId row.hash) ++
    if gone = [] then [] else workspace.toList.map .budget

@[simp]
def Phase.locks : Phase → List Row
  | .insert e _ _ _ => [.group e.group]
  | .judge e _ _ workspace | .commit e _ _ workspace =>
    [.group e.group, .envelope e.group e.hash, .budget workspace]
  | .count d | .measure d _ | .delete d _ _ | .deleting d _ _ _ =>
    [.checkpoint d.group d.manifestHash]
  | .deleted d _ _ workspace gone =>
    .checkpoint d.group d.manifestHash :: removalRows workspace gone
  | _ => []

/-- The doomed rows nobody has deleted in the meantime. -/
def stillThere (db : Db) (doomed : List EnvelopeRow) : List EnvelopeRow :=
  doomed.filter (fun row => row ∈ db.envelopes)

/-- The rows a statement writes. -/
def needs : Action → State → Phase → List Row
  | .turn, _, .claim e _ => [.group e.group]
  | .turn, s, .insert e _ seq workspace =>
    .envelope e.group e.hash ::
      if conflicts s.db e.group e.hash seq then [] else [.budget workspace]
  | .turn, _, .checkpoint d => [.checkpoint d.group d.manifestHash]
  | .turn, s, .deleting d _ _ doomed =>
    removalRows (workspaceOf s.db d.group) (stillThere s.db doomed)
  | _, _, _ => []

section Statement

variable (c : Access.Crypto) (config : Config)

/-- What a send is checked for before the database is asked anything: the decoding in
`ws.rs`, then the checks at the head of `accept`. -/
def receive (data : Bytes) (now : Nat) : Phase :=
  match Envelope.decode data with
  | .error error => .refused (.envelope error)
  | .ok e =>
    if config.readOnly then .refused .readOnly
    else
      match e.validate c config.minEncryption with
      | .error error => .refused (.envelope error)
      | .ok () => .lookup e now

/-- An envelope that was decoded and passed every check. -/
def Valid (e : Envelope) : Prop :=
  (∃ data, Envelope.decode data = .ok e) ∧ e.validate c config.minEncryption = .ok ()

/-- `update relay_group`: the claimed number, or why there is none. -/
def claimed (db : Db) (e : Envelope) (now : Nat) : Phase :=
  match db.groups e.group with
  | none => .refused .groupUnknown
  | some row =>
    -- The update fails on a counter that a `bigint` cannot hold.
    if bigintBound ≤ row.nextSeq + 1 then .refused .backpressure
    else if row.frozen then .refused .groupFrozen
    else .insert e now row.nextSeq row.workspaceId

/-- The counter read back after the insert. -/
def judged (db : Db) (e : Envelope) (now seq : Nat) (workspace : Bytes) : Phase :=
  match config.limitBytes with
  | none => .commit e now seq workspace
  | some limit =>
    if overBudget (db.used workspace + e.ct.length) (some limit) then
      .refused (.logBudgetExhausted limit)
    else .commit e now seq workspace

/-- What the commit of a send leaves. -/
def storeEnvelope (s : State) (e : Envelope) (now seq : Nat) (workspace : Bytes) : State where
  db := insert (advance s.db e.group) workspace (rowOf e seq now)
  stored := s.stored ++ [⟨e.group, e.hash, seq⟩]

/-- What the commit of a compaction leaves. -/
def dropEnvelopes (s : State) (d : Drop) (workspace : Option Bytes)
    (gone : List EnvelopeRow) : State :=
  { s with db := remove (record s.db d.anchors) workspace gone }

/-- One statement against the database as it stands. -/
def statement (s : State) : Phase → Option (State × Phase)
  | .lookup e now =>
    match existingSeq s.db e.group e.hash with
    | some seq => some (s, .answered e (.duplicate seq))
    | none => some (s, .claim e now)
  | .claim e now => some (s, claimed s.db e now)
  | .insert e now seq workspace =>
    if conflicts s.db e.group e.hash seq then some (s, .lookAgain e seq)
    else some (s, .judge e now seq workspace)
  | .judge e now seq workspace => some (s, judged config s.db e now seq workspace)
  | .commit e now seq workspace =>
    some (storeEnvelope s e now seq workspace, .answered e (.stored seq))
  | .lookAgain e seq =>
    some (s, .answered e (.duplicate ((existingSeq s.db e.group e.hash).getD seq)))
  | .checkpoint d => some (s, .count d)
  | .count d => some (s, .measure d (s.db.envelopes.filter d.below).length)
  | .measure d below => some (s, .delete d below (ctBytes (d.doomed s.db)))
  | .delete d below bytes => some (s, .deleting d below bytes (d.doomed s.db))
  | .deleting d below bytes doomed =>
    some (s, .deleted d below bytes (workspaceOf s.db d.group) (stillThere s.db doomed))
  | .deleted d below bytes workspace gone =>
    some (dropEnvelopes s d workspace gone,
      .dropped ⟨gone.length, bytes, (below : Int) - gone.length⟩)
  | .idle | .answered _ _ | .refused _ | .dropped _ | .dropFailed => none

/-- Where a failed statement leaves its process; its transaction is rolled back. -/
def Phase.failed : Phase → Option Phase
  | .lookup _ _ | .claim _ _ | .insert _ _ _ _ | .judge _ _ _ _ | .commit _ _ _ _
  | .lookAgain _ _ => some (.refused .backpressure)
  | .checkpoint _ | .count _ | .measure _ _ | .delete _ _ _ | .deleting _ _ _ _
  | .deleted _ _ _ _ _ => some .dropFailed
  | .idle | .answered _ _ | .refused _ | .dropped _ | .dropFailed => none

def act : Action → State → Phase → Option (State × Phase)
  | .send data now, s, .idle => some (s, receive c config data now)
  | .drop d, s, .idle => some (s, .checkpoint d)
  | .turn, s, a => statement config s a
  | .fail, s, a => a.failed.map (fun b => (s, b))
  -- The commit happens and the process never hears of it.
  | .lose, s, .commit e now seq workspace =>
    some (storeEnvelope s e now seq workspace, .refused .backpressure)
  | .lose, s, .deleted d _ _ workspace gone =>
    some (dropEnvelopes s d workspace gone, .dropFailed)
  | _, _, _ => none

end Statement

/-! ## What a turn can do -/

/-- Everything one turn can do. -/
inductive Turn (c : Access.Crypto) (config : Config) : Action → State → Phase → State → Phase → Prop
  | refuse {i s a} (error : AcceptError) : Turn c config i s a s (.refused error)
  | fail {i s a} : Turn c config i s a s .dropFailed
  | send {s data now e} (hvalid : Valid c config e) :
      Turn c config (.send data now) s .idle s (.lookup e now)
  | drop {s} (d : Drop) : Turn c config (.drop d) s .idle s (.checkpoint d)
  | duplicate {s e now seq} (hfound : existingSeq s.db e.group e.hash = some seq) :
      Turn c config .turn s (.lookup e now) s (.answered e (.duplicate seq))
  | lookup {s e now} : Turn c config .turn s (.lookup e now) s (.claim e now)
  | claim {s e now row} (hrow : s.db.groups e.group = some row)
      (hbound : row.nextSeq + 1 < bigintBound) :
      Turn c config .turn s (.claim e now) s (.insert e now row.nextSeq row.workspaceId)
  | conflict {s e now seq workspace} (hconflict : conflicts s.db e.group e.hash seq = true) :
      Turn c config .turn s (.insert e now seq workspace) s (.lookAgain e seq)
  | insert {s e now seq workspace} (hfree : ¬ conflicts s.db e.group e.hash seq = true) :
      Turn c config .turn s (.insert e now seq workspace) s (.judge e now seq workspace)
  | judge {s e now seq workspace}
      (hwithin : overBudget (s.db.used workspace + e.ct.length) config.limitBytes = false) :
      Turn c config .turn s (.judge e now seq workspace) s (.commit e now seq workspace)
  | commit {s e now seq workspace} : Turn c config .turn s (.commit e now seq workspace)
      (storeEnvelope s e now seq workspace) (.answered e (.stored seq))
  | commitLost {s e now seq workspace} : Turn c config .lose s (.commit e now seq workspace)
      (storeEnvelope s e now seq workspace) (.refused .backpressure)
  | lookAgain {s e seq} : Turn c config .turn s (.lookAgain e seq) s
      (.answered e (.duplicate ((existingSeq s.db e.group e.hash).getD seq)))
  | checkpoint {s d} : Turn c config .turn s (.checkpoint d) s (.count d)
  | count {s d below} : Turn c config .turn s (.count d) s (.measure d below)
  | measure {s d below bytes} : Turn c config .turn s (.measure d below) s (.delete d below bytes)
  | delete {s d below bytes} : Turn c config .turn s (.delete d below bytes) s
      (.deleting d below bytes (d.doomed s.db))
  | deleting {s d below bytes doomed} : Turn c config .turn s (.deleting d below bytes doomed) s
      (.deleted d below bytes (workspaceOf s.db d.group) (stillThere s.db doomed))
  | deleted {s d below bytes workspace gone outcome} :
      Turn c config .turn s (.deleted d below bytes workspace gone)
        (dropEnvelopes s d workspace gone) (.dropped outcome)
  | deletedLost {s d below bytes workspace gone} :
      Turn c config .lose s (.deleted d below bytes workspace gone)
        (dropEnvelopes s d workspace gone) .dropFailed

section Turns

variable {c : Access.Crypto} {config : Config} {i : Action} {s s' : State} {a a' : Phase}

theorem turn_of_act (h : act c config i s a = some (s', a')) : Turn c config i s a s' a' := by
  cases i with
  | send data now =>
    cases a <;> cases h
    unfold receive
    split
    · exact .refuse _
    next e hdec =>
      split_ifs
      · exact .refuse _
      · split
        · exact .refuse _
        next hvalid => exact .send ⟨⟨data, hdec⟩, hvalid⟩
  | drop d =>
    cases a <;> cases h
    exact .drop d
  | fail =>
    simp only [act, Option.map_eq_some_iff, Prod.mk.injEq] at h
    obtain ⟨b, hb, rfl, rfl⟩ := h
    cases a <;> cases hb <;> constructor
  | lose =>
    cases a with
    | commit =>
      cases h
      exact .commitLost
    | deleted =>
      cases h
      exact .deletedLost
    | _ => cases h
  | turn =>
    cases a with
    | idle | answered | refused | dropped | dropFailed => cases h
    | lookup e now =>
      simp only [act, statement] at h
      split at h <;> cases h
      next hf => exact .duplicate hf
      · exact .lookup
    | claim e now =>
      cases h
      unfold claimed
      split
      · exact .refuse _
      next row hrow =>
        split_ifs with hbound
        · exact .refuse _
        · exact .refuse _
        · exact .claim hrow (Nat.lt_of_not_le hbound)
    | insert e now seq ws =>
      simp only [act, statement] at h
      split at h <;> cases h
      next hconf => exact .conflict hconf
      next hfree => exact .insert hfree
    | judge e now seq ws =>
      cases h
      unfold judged
      split
      next hlimit => exact .judge (by rw [hlimit]; rfl)
      next lim hlimit =>
        split_ifs with hover
        · exact .refuse _
        · exact .judge (by rw [hlimit]; exact Bool.eq_false_iff.mpr hover)
    | commit | lookAgain | checkpoint | count | measure | delete | deleting | deleted =>
      cases h
      constructor

/-- A turn leaves the log alone and stores nothing, or it is the commit of a send or of
a compaction. -/
theorem act_cases (h : act c config i s a = some (s', a')) :
    (s' = s ∧ ∀ e seq, a' ≠ .answered e (.stored seq)) ∨
      (∃ e now seq ws, a = .commit e now seq ws ∧ s' = storeEnvelope s e now seq ws ∧
        (a' = .answered e (.stored seq) ∨ i = .lose ∧ a' = .refused .backpressure)) ∨
      ∃ d below bytes ws gone, a = .deleted d below bytes ws gone ∧
        s' = dropEnvelopes s d ws gone ∧ ((∃ out, a' = .dropped out) ∨ a' = .dropFailed) := by
  cases turn_of_act h with
  | commit => exact .inr (.inl ⟨_, _, _, _, rfl, rfl, .inl rfl⟩)
  | commitLost => exact .inr (.inl ⟨_, _, _, _, rfl, rfl, .inr ⟨rfl, rfl⟩⟩)
  | deleted => exact .inr (.inr ⟨_, _, _, _, _, rfl, rfl, .inl ⟨_, rfl⟩⟩)
  | deletedLost => exact .inr (.inr ⟨_, _, _, _, _, rfl, rfl, .inr rfl⟩)
  | _ => exact .inl ⟨rfl, fun _ _ heq => by cases heq⟩

/-- A process that was answered or refused, or whose compaction ended, takes no further
turn. -/
theorem act_ended (i : Action) (s : State) :
    (∀ e accepted, act c config i s (.answered e accepted) = none) ∧
      (∀ error, act c config i s (.refused error) = none) ∧
      (∀ out, act c config i s (.dropped out) = none) ∧
      act c config i s .dropFailed = none := by
  cases i <;> exact ⟨fun _ _ => rfl, fun _ => rfl, fun _ => rfl, rfl⟩

/-- A turn holds only rows that it held or wrote. -/
theorem locks_act (h : act c config i s a = some (s', a')) :
    ∀ row ∈ a'.locks, row ∈ a.locks ∨ row ∈ needs i s a := by
  intro row hrow
  cases turn_of_act h with
  | claim | checkpoint => exact .inr hrow
  | insert hfree =>
    simp only [Phase.locks, needs, hfree] at hrow ⊢
    simpa using hrow
  | judge | count | measure | delete => exact .inl hrow
  | deleting =>
    rcases List.mem_cons.mp hrow with rfl | hrow
    · exact .inl (by simp)
    · exact .inr hrow
  | _ => cases hrow

end Turns

/-- Sends and compactions, with the rows they hold. -/
def machine (c : Access.Crypto) (config : Config) : Machine State Phase Action Row where
  act := act c config
  needs := needs
  locks := Phase.locks
  locks_act := locks_act

end WealdRelay.Log
