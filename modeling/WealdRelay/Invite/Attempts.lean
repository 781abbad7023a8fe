import Mathlib.Algebra.GroupWithZero.Nat
import WealdRelay.Access.Set
import WealdRelay.Lib.Procs
import WealdRelay.Lib.Table

/-!
# The attempt budget of `reserve`

The steps of `reserve` up to the answer of the code check, as a process over the table of
attempts: the read of `cooled_down`, the fetch of the record, `sweep_attempts`, the
charging statement of `claim_attempt`, `code::verify`, and `refund_attempt` after a right
code. Every statement commits by itself, so no lock outlives a turn. The sweep and the
charge decide from their snapshot and from the rows as they find them, and each takes two
turns: the sweep deletes rows of its snapshot that are still stale, and the charge adds the
other sources' failures of its snapshot to the row it takes.

A call carries what its code is worth and what the fetch says of the record, and the time
it was started at. Calls start in the order of their times.

A row has a number, which tells it from another row for the same source after a sweep, and
`charges` is what was charged to which row. The relay stores neither and no statement
reads them.
-/

namespace WealdRelay.Invite.Attempts

open Lib Access

/-- `MAX_FAILURES`: wrong codes a source has for a token. -/
def maxFailures : Nat := 5

/-- `MAX_TOKEN_FAILURES`: wrong codes all sources together have for a token. -/
def maxTokenFailures : Nat := 25

/-- `COOLDOWN_SECONDS`, fifteen minutes, in milliseconds. -/
def cooldownMs : Nat := 15 * 60 * 1000

/-- What a typed code is: no code at all, a wrong one, or the right one. -/
inductive Guess where
  | malformed
  | wrong
  | right
deriving DecidableEq

/-- A call of `reserve`; `listed` says that the record is there, live and not expired. -/
structure Call where
  token : Bytes
  source : Bytes
  guess : Guess
  listed : Bool
  now : Nat
deriving DecidableEq

/-- A row of `relay_invite_attempt`. -/
structure Row where
  id : Nat
  token : Bytes
  source : Bytes
  failures : Nat
  windowStarted : Nat
  cooldownUntil : Option Nat
deriving DecidableEq

/-- One charge: the row it went to, what the code was, whether the call could go on to
the verifier, and whether it was given back. -/
structure Charge where
  serial : Nat
  row : Nat
  guess : Guess
  passed : Bool
  refunded : Bool
deriving DecidableEq

structure State where
  rows : List Row
  created : Nat
  clock : Nat
  charges : List Charge
deriving DecidableEq

/-- The primary key of a row. -/
def Row.key (row : Row) : Bytes × Bytes := (row.token, row.source)

def Call.key (q : Call) : Bytes × Bytes := (q.token, q.source)

/-! ## Statements -/

/-- Is the row's cooldown running? -/
def Row.cooling (row : Row) (now : Nat) : Bool :=
  match row.cooldownUntil with
  | some cooldown => now < cooldown
  | none => false

/-- The rows the token-wide sum counts. -/
def Row.inWindow (row : Row) (now : Nat) : Bool :=
  decide (now < row.windowStarted + cooldownMs) || row.cooling now

/-- The rows `sweep_attempts` removes. -/
def Row.stale (row : Row) (now : Nat) : Bool :=
  !row.cooling now && decide (row.windowStarted + cooldownMs ≤ now)

/-- The failures of some of the rows. -/
def failuresOf (rows : List Row) (p : Row → Bool) : Nat :=
  ((rows.filter p).map Row.failures).sum

/-- `cooled_down`. -/
def cooledDown (rows : List Row) (q : Call) : Bool :=
  rows.any (fun row => row.key = q.key && row.cooling q.now) || decide (maxTokenFailures ≤
      failuresOf rows (fun row => row.token = q.token && row.inWindow q.now))

/-- The rows a sweep finds in its snapshot. -/
def staleRows (rows : List Row) (q : Call) : List Nat :=
  (rows.filter (fun row => row.token = q.token && row.stale q.now)).map Row.id

/-- What a sweep leaves of the rows: those it did not find, or that are not stale now. -/
def sweep (rows : List Row) (found : List Nat) (now : Nat) : List Row :=
  rows.filter (fun row => !(decide (row.id ∈ found) && row.stale now))

/-- The failures of the other sources, for the token-wide ceiling. -/
def otherFailures (rows : List Row) (q : Call) : Nat :=
  failuresOf rows (fun row =>
    row.token = q.token && decide (row.source ≠ q.source) && row.inWindow q.now)

/-- One failure more, and a cooldown if that reaches the ceiling. -/
def Row.charge (row : Row) (now : Nat) : Row :=
  { row with
    failures := row.failures + 1
    cooldownUntil :=
      if maxFailures ≤ row.failures + 1 then some (now + cooldownMs) else row.cooldownUntil }

/-- One failure less, and no cooldown below the ceiling. -/
def Row.refund (row : Row) : Row :=
  { row with
    failures := row.failures - 1
    cooldownUntil := if maxFailures ≤ row.failures - 1 then row.cooldownUntil else none }

def freshRow (id : Nat) (q : Call) : Row :=
  { id := id, token := q.token, source := q.source, failures := 1, windowStarted := q.now,
    cooldownUntil := none }

/-- What the charging statement did. -/
structure Taken where
  rows : List Row
  created : Nat
  row : Nat
  failures : Nat

/-- The upsert of `claim_attempt`; nothing if the pair is cooled down. -/
def take (s : State) (q : Call) : Option Taken :=
  match Table.lookup Row.key s.rows q.key with
  | none => some ⟨s.rows ++ [freshRow s.created q], s.created + 1, s.created, 1⟩
  | some row =>
    if row.cooling q.now then none
    else
      some ⟨Table.modify Row.key s.rows q.key (·.charge q.now), s.created, row.id, row.failures + 1⟩

/-- May the caller proceed to the verifier? -/
def proceeds (failures others : Nat) : Bool :=
  decide (failures ≤ maxFailures) && decide (failures + others ≤ maxTokenFailures)

/-! ## Turns -/

/-- Where a call stands. -/
inductive Phase where
  | idle
  | check (q : Call)
  | fetch (q : Call)
  | sweep (q : Call)
  | sweeping (q : Call) (found : List Nat)
  | charge (q : Call)
  | charging (q : Call) (others : Nat)
  | verify (q : Call) (serial : Nat)
  | refund (q : Call) (serial : Nat)
  | answered (accepted : Bool)
deriving DecidableEq

inductive Action where
  | reserve (q : Call)
  | turn
deriving DecidableEq

/-- A code that does not parse never reaches the verifier. -/
def afterClaim (q : Call) (serial : Nat) (passed : Bool) : Phase :=
  if passed ∧ q.guess ≠ .malformed then .verify q serial else .answered false

/-- The charging statement, with what it leaves on record. -/
def charged (s : State) (q : Call) (others : Nat) : State × Phase :=
  match take s q with
  | none => (s, .answered false)
  | some taken =>
    ({ s with
        rows := taken.rows
        created := taken.created
        charges := s.charges ++
          [⟨s.charges.length, taken.row, q.guess, proceeds taken.failures others, false⟩] },
      afterClaim q s.charges.length (proceeds taken.failures others))

/-- `refund_attempt`: it gives the slot back to the row that is there now. -/
def refunded (s : State) (q : Call) (serial : Nat) : State :=
  { s with
    rows := Table.modify Row.key s.rows q.key Row.refund
    charges := Table.modify Charge.serial s.charges serial (fun c => { c with refunded := true }) }

/-- The next statement of a call. -/
def statement (s : State) : Phase → Option (State × Phase)
  | .check q =>
    if cooledDown s.rows q then some (s, .answered false) else some (s, .fetch q)
  | .fetch q => if q.listed then some (s, .sweep q) else some (s, .answered false)
  | .sweep q => some (s, .sweeping q (staleRows s.rows q))
  | .sweeping q found => some ({ s with rows := Attempts.sweep s.rows found q.now }, .charge q)
  | .charge q => some (s, .charging q (otherFailures s.rows q))
  | .charging q others => some (charged s q others)
  | .verify q serial =>
    if q.guess = .right then some (s, .refund q serial) else some (s, .answered false)
  | .refund q serial => some (refunded s q serial, .answered true)
  | .idle | .answered _ => none

/-- A call starts no earlier than those before it, and then takes its turns. -/
def act (i : Action) (s : State) (a : Phase) : Option (State × Phase) :=
  match i with
  | .reserve q =>
    if a = .idle ∧ s.clock ≤ q.now then some ({ s with clock := q.now }, .check q) else none
  | .turn => statement s a

/-- The calls of `reserve`; no statement leaves a lock behind. -/
def machine : Machine State Phase Action Unit where
  act := act
  needs := fun _ _ _ => []
  locks := fun _ => []
  locks_act := by
    intro i s a s' a' _ row hrow
    cases hrow

/-- The call is over, or has not begun. -/
def Phase.resting : Phase → Bool
  | .idle | .answered _ => true
  | _ => false

/-- The charge a call has not given back yet. -/
def Phase.serial : Phase → Option Nat
  | .verify _ serial | .refund _ serial => some serial
  | _ => none

/-- The statements that write nothing. -/
inductive Reads (s : State) : Phase → Phase → Prop
  | cooled (q : Call) : cooledDown s.rows q = true → Reads s (.check q) (.answered false)
  | clear (q : Call) : cooledDown s.rows q = false → Reads s (.check q) (.fetch q)
  | listed (q : Call) : q.listed = true → Reads s (.fetch q) (.sweep q)
  | unlisted (q : Call) : q.listed = false → Reads s (.fetch q) (.answered false)
  | finds (q : Call) : Reads s (.sweep q) (.sweeping q (staleRows s.rows q))
  | sums (q : Call) : Reads s (.charge q) (.charging q (otherFailures s.rows q))
  | right (q : Call) (serial : Nat) : q.guess = .right →
      Reads s (.verify q serial) (.refund q serial)
  | wrong (q : Call) (serial : Nat) : q.guess ≠ .right →
      Reads s (.verify q serial) (.answered false)

/-- What a turn can do. -/
inductive Turn : Action → State → Phase → State → Phase → Prop
  | start {s} (q : Call) : s.clock ≤ q.now →
      Turn (.reserve q) s .idle { s with clock := q.now } (.check q)
  | read {s a a'} : Reads s a a' → Turn .turn s a s a'
  | sweep {s} (q : Call) (found : List Nat) :
      Turn .turn s (.sweeping q found) { s with rows := sweep s.rows found q.now } (.charge q)
  | charge {s} (q : Call) (others : Nat) :
      Turn .turn s (.charging q others) (charged s q others).1 (charged s q others).2
  | refund {s} (q : Call) (serial : Nat) :
      Turn .turn s (.refund q serial) (refunded s q serial) (.answered true)

theorem turn_of_statement {s s' : State} {a a' : Phase}
    (h : statement s a = some (s', a')) : Turn .turn s a s' a' := by
  cases a with
  | check q =>
    simp only [statement] at h
    split at h <;> (obtain ⟨rfl, rfl⟩ := by simpa using h)
    next hcooled => exact .read (.cooled q hcooled)
    next hclear => exact .read (.clear q (Bool.eq_false_iff.mpr hclear))
  | fetch q =>
    simp only [statement] at h
    split at h <;> (obtain ⟨rfl, rfl⟩ := by simpa using h)
    next hlisted => exact .read (.listed q hlisted)
    next hunlisted => exact .read (.unlisted q (Bool.eq_false_iff.mpr hunlisted))
  | sweep q =>
    cases h
    exact .read (.finds q)
  | sweeping q found =>
    cases h
    exact .sweep q found
  | charge q =>
    cases h
    exact .read (.sums q)
  | charging q os =>
    obtain ⟨rfl, rfl⟩ := Prod.mk.inj (Option.some.inj h)
    exact .charge q os
  | verify q serial =>
    simp only [statement] at h
    split at h <;> (obtain ⟨rfl, rfl⟩ := by simpa using h)
    next hright => exact .read (.right q serial hright)
    next hwrong => exact .read (.wrong q serial hwrong)
  | refund q serial =>
    cases h
    exact .refund q serial
  | idle | answered => cases h

theorem turn_of_act {i : Action} {s s' : State} {a a' : Phase}
    (h : act i s a = some (s', a')) : Turn i s a s' a' := by
  cases i with
  | turn => exact turn_of_statement h
  | reserve q =>
    simp only [act] at h
    split at h
    next hstart =>
      obtain ⟨rfl, hclock⟩ := hstart
      cases h
      exact .start q hclock
    · cases h

end WealdRelay.Invite.Attempts
