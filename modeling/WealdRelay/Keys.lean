import Mathlib.Data.Multiset.Filter
import Mathlib.Data.Multiset.Bind
import Mathlib.Data.Multiset.Range
import WealdRelay.Lib.Run

/-!
# The shelf of one-time key packages

One device's shelf (`keys/store.rs`). `publish` counts the shelf and inserts its packages in one
transaction, under an advisory lock; `fetch_served` deletes the rows it hands out; and where the
answer could not be queued (`ws.rs`, `key_packages`), `restore` inserts them again, without the
lock and without a count. Any number of these calls overlap.
-/

namespace WealdRelay.Keys

open Multiset Lib

/-- `MAX_OUTSTANDING`. -/
def maxOutstanding : Nat := 100

/-- A second of the database's clock. -/
def second : Nat := 1000000

/-- `LIFETIME_DAYS`. -/
def lifetime : Nat := 90 * 24 * 60 * 60 * second

/-- A package, numbered in the order of publication, and the end of its life. -/
structure Row where
  package : Nat
  expiresAt : Nat
  deriving DecidableEq

structure Served where
  package : Nat
  ttlSeconds : Nat

/-- The shelf, the fetches whose answer is neither queued nor given up, and where the other
packages went. `publishing` is the publish that holds the lock and has found room: its `now()`
and the number of its packages. -/
structure Shelf where
  now : Nat
  rows : Multiset Row
  flights : Multiset (Multiset Served)
  answers : Multiset (Multiset Nat)
  expired : Multiset Nat
  dropped : Multiset Nat
  publishing : Option (Nat × Nat)
  next : Nat

/-- A statement or a transaction of one of the calls, or the clock. -/
inductive Action where
  | tick
  | publish (began incoming : Nat)
  | commit
  | rollback
  | fetch (count : Nat)
  | queue
  | restore
  | failRestore
  | sweepExpired

def outstanding (now : Nat) (rows : Multiset Row) : Nat := rows.countP (now < ·.expiresAt)

def served (now : Nat) (row : Row) : Served := ⟨row.package, (row.expiresAt - now) / second⟩

/-- The rows `restore` inserts: none that had less than a second to live. -/
def restored (now : Nat) (batch : Multiset Served) : Multiset Row :=
  (batch.filter (0 < ·.ttlSeconds)).map fun row => ⟨row.package, now + row.ttlSeconds * second⟩

inductive Step : Shelf → Action → Shelf → Prop
  | tick {s} (time : Nat) : Step s .tick { s with now := s.now + time }
  | overCap {s began incoming} (hfree : s.publishing = none) (hbegan : began ≤ s.now)
      (hover : maxOutstanding < outstanding began s.rows + incoming) :
      Step s (.publish began incoming) s
  | publish {s began incoming} (hfree : s.publishing = none) (hbegan : began ≤ s.now)
      (hroom : outstanding began s.rows + incoming ≤ maxOutstanding) :
      Step s (.publish began incoming) { s with publishing := some (began, incoming) }
  | commit {s began incoming} (hpublishing : s.publishing = some (began, incoming)) :
      Step s .commit { s with
        rows := s.rows + (range incoming).map fun n => ⟨s.next + n, began + lifetime⟩
        publishing := none
        next := s.next + incoming }
  | rollback {s} : Step s .rollback { s with publishing := none }
  | fetch {s taken rest count} (hrows : s.rows = taken + rest) (hcount : card taken ≤ count)
      (hlive : ∀ row ∈ taken, s.now < row.expiresAt) :
      Step s (.fetch count)
        { s with rows := rest, flights := taken.map (served s.now) ::ₘ s.flights }
  | queue {s batch rest} (hflights : s.flights = batch ::ₘ rest) :
      Step s .queue
        { s with flights := rest, answers := batch.map (·.package) ::ₘ s.answers }
  | restore {s batch rest} (hflights : s.flights = batch ::ₘ rest) :
      Step s .restore { s with
        rows := s.rows + restored s.now batch
        flights := rest
        dropped := s.dropped + (batch.filter (¬ 0 < ·.ttlSeconds)).map (·.package) }
  | failRestore {s batch rest} (hflights : s.flights = batch ::ₘ rest) :
      Step s .failRestore
        { s with flights := rest, dropped := s.dropped + batch.map (·.package) }
  | sweepExpired {s} :
      Step s .sweepExpired { s with
        rows := s.rows.filter (s.now < ·.expiresAt)
        expired := s.expired + (s.rows.filter (¬ s.now < ·.expiresAt)).map (·.package) }

/-- Nothing published yet. -/
def bare (now : Nat) : Shelf := ⟨now, 0, 0, 0, 0, 0, none, 0⟩

variable {s t : Shelf} {action : Action} {actions : List Action}

/-! ### Every package is in one place -/

/-- The packages on the shelf, in flight, in queued answers, expired and dropped. -/
def places (s : Shelf) : Multiset Nat :=
  s.rows.map (·.package) + s.flights.join.map (·.package) + s.answers.join + s.expired + s.dropped

theorem places_step (hs : places s = range s.next) (hstep : Step s action t) :
    places t = range t.next := by
  cases hstep with
  | tick | overCap | publish | rollback => exact hs
  | @commit began incoming =>
    rw [range_add, ← hs]
    simp [places, add_assoc, add_comm, add_left_comm]
  | fetch hrows =>
    rw [← hs]
    simp [places, hrows, served, Function.comp_def, add_assoc, add_left_comm]
  | queue hflights | failRestore hflights =>
    rw [← hs]
    simp [places, hflights, add_assoc, add_left_comm, add_comm]
  | @restore batch rest hflights =>
    rw [← hs]
    have hbatch := congrArg (map Served.package) (filter_add_not (0 < ·.ttlSeconds) batch)
    simp [places, hflights, restored, ← hbatch, add_assoc, add_left_comm, add_comm]
  | sweepExpired =>
    have hrows := congrArg (map Row.package) (filter_add_not (s.now < ·.expiresAt) s.rows)
    rw [← hs]
    simp [places, ← hrows, add_assoc, add_left_comm, add_comm]

/-- In every run each package that was published stands in one place, once. -/
theorem package_in_one_place
    {now : Nat}
    (h : Run Step (bare now) actions s) :
    places s = range s.next :=
  Run.invariant (fun _ _ _ => places_step) h rfl

/-- One package, fetched when it has half a second to live, and a queue that is full. -/
theorem dropped_before_its_end :
    ∃ s, Run Step (bare 0) [.publish 0 1, .commit, .tick, .fetch 1, .restore] s ∧
      s.now < lifetime ∧ s.rows = 0 ∧ s.flights = 0 ∧ s.answers = 0 ∧ s.expired = 0 ∧
      s.dropped = {0} :=
  ⟨_, .cons (.publish rfl (Nat.le_refl 0) (by decide)) (.cons (.commit rfl)
    (.cons (.tick (lifetime - 500000))
    (.cons (@Step.fetch _ {⟨0, lifetime⟩} 0 1 rfl (by decide) (by decide))
    (.cons (.restore rfl) (.nil _))))), by decide, by decide, rfl, rfl, rfl, by decide⟩

/-- Three packages: one is in an answer, one was fetched and put back, one stayed. -/
theorem three_packages_in_one_place :
    ∃ s, Run Step (bare 0) [.publish 0 3, .commit, .fetch 1, .queue, .fetch 1, .restore] s ∧
      s.answers = {{0}} ∧ s.rows.map (·.package) = {1, 2} ∧ places s = range 3 := by
  have hrun : Run Step (bare 0) [.publish 0 3, .commit, .fetch 1, .queue, .fetch 1, .restore] _ :=
    .cons (.publish rfl (Nat.le_refl 0) (by decide)) (.cons (.commit rfl)
      (.cons (@Step.fetch _ {⟨0, lifetime⟩} {⟨1, lifetime⟩, ⟨2, lifetime⟩} 1 (by decide) (by decide)
        (by decide))
      (.cons (@Step.queue _ (({⟨0, lifetime⟩} : Multiset Row).map (served 0)) 0 rfl)
      (.cons (@Step.fetch _ {⟨1, lifetime⟩} {⟨2, lifetime⟩} 1 rfl (by decide) (by decide))
      (.cons (@Step.restore _ (({⟨1, lifetime⟩} : Multiset Row).map (served 0)) 0 rfl)
      (.nil _))))))
  exact ⟨_, hrun, rfl, by decide, package_in_one_place hrun⟩

/-! ### The bound -/

/-- What is alive on the shelf, may come back to it, or is about to be put on it. -/
def load (s : Shelf) : Nat :=
  outstanding s.now s.rows + card s.flights.join + (s.publishing.map (·.2)).getD 0

/-- A publish that finds room finds it beside the packages in flight. -/
def Roomy (s : Shelf) : Action → Prop
  | .publish began incoming => outstanding began s.rows + incoming ≤ maxOutstanding →
      outstanding began s.rows + incoming + card s.flights.join ≤ maxOutstanding
  | _ => True

theorem outstanding_le {began now : Nat} (rows : Multiset Row) (h : began ≤ now) :
    outstanding now rows ≤ outstanding began rows := by
  simp only [outstanding, countP_eq_card_filter]
  exact card_le_card (monotone_filter_right _ fun row => h.trans_lt)

theorem outstanding_add_le (now : Nat) (rows more : Multiset Row) :
    outstanding now (rows + more) ≤ outstanding now rows + card more := by
  rw [outstanding, countP_add]
  exact Nat.add_le_add_left (countP_le_card _ _) _

theorem load_step (hs : load s ≤ maxOutstanding) (hroomy : Roomy s action)
    (hstep : Step s action t) : load t ≤ maxOutstanding := by
  cases hstep with
  | tick time =>
    have hle := outstanding_le s.rows (Nat.le_add_right s.now time)
    simp only [load] at hs ⊢
    omega
  | overCap => exact hs
  | publish _ hbegan hroom =>
    have hle := outstanding_le s.rows hbegan
    have hall := hroomy hroom
    simp only [load, Option.map_some, Option.getD_some]
    omega
  | @commit began incoming hpublishing =>
    have hle := outstanding_add_le s.now s.rows
      ((range incoming).map fun n => ⟨s.next + n, began + lifetime⟩)
    simp only [load, hpublishing, card_map, card_range, Option.map_some, Option.getD_some,
      Option.map_none, Option.getD_none] at hs hle ⊢
    omega
  | rollback => exact (Nat.le_add_right _ _).trans hs
  | @fetch taken rest _ hrows _ hlive =>
    have hall : outstanding s.now taken = card taken := countP_eq_card.mpr hlive
    simp only [load, hrows, outstanding, countP_add, join_cons, card_add, card_map] at hs hall ⊢
    omega
  | queue hflights | failRestore hflights =>
    simp only [load, hflights, join_cons, card_add] at hs ⊢
    omega
  | @restore batch rest hflights =>
    have hle := outstanding_add_le s.now s.rows (restored s.now batch)
    have hback := card_le_card (filter_le (0 < ·.ttlSeconds) batch)
    simp only [load, hflights, restored, join_cons, card_add, card_map] at hs hle ⊢
    omega
  | sweepExpired =>
    have hle := countP_le_of_le (s.now < ·.expiresAt) (filter_le (s.now < ·.expiresAt) s.rows)
    simp only [load, outstanding] at hs ⊢
    omega

/-- Where every publish that finds room has it beside the packages in flight, no more than
`MAX_OUTSTANDING` packages are ever alive on the shelf; and a publish that is more than the shelf
has room for stores nothing. -/
theorem shelf_bounded
    {now : Nat}
    (h : Run (fun s action t => Step s action t ∧ Roomy s action) (bare now) actions s) :
    outstanding s.now s.rows ≤ maxOutstanding ∧ ∀ began incoming t,
      Step s (.publish began incoming) t →
        maxOutstanding < outstanding s.now s.rows + incoming → t = s := by
  have hload : load s ≤ maxOutstanding :=
    Run.invariant (fun _ _ _ hs hstep => load_step hs hstep.2 hstep.1) h (Nat.zero_le _)
  refine ⟨(Nat.le_add_right _ _).trans ((Nat.le_add_right _ _).trans hload), ?_⟩
  intro began incoming t hstep hover
  cases hstep with
  | overCap => rfl
  | publish _ hbegan hroom =>
    have hle := outstanding_le s.rows hbegan
    omega

/-- A full shelf, eight packages in flight, eight new ones, and the eight come back. -/
theorem restored_over_the_cap :
    ∃ s, Run Step (bare 0)
        [.publish 0 100, .commit, .fetch 8, .publish 0 8, .commit, .restore] s ∧
      outstanding s.now s.rows = 108 := by
  refine ⟨_, .cons (.publish rfl (Nat.le_refl 0) (by decide)) (.cons (.commit rfl)
    (.cons (@Step.fetch _ ((range 8).map (⟨·, lifetime⟩))
      ((range 92).map fun n => ⟨8 + n, lifetime⟩) 8 (by decide +kernel) (by decide) (by decide))
    (.cons (.publish rfl (Nat.le_refl 0) (by decide +kernel)) (.cons (.commit rfl)
    (.cons (@Step.restore _ (((range 8).map (⟨·, lifetime⟩)).map (served 0)) 0 rfl)
    (.nil _)))))), ?_⟩
  decide +kernel

theorem shelf_bounded_filled :
    outstanding 0 (0 + (range 100).map fun n => ⟨0 + n, lifetime⟩) ≤ maxOutstanding :=
  (shelf_bounded (.cons ⟨.publish rfl (Nat.le_refl 0) (by decide), fun _ => by decide⟩
    (.cons ⟨.commit rfl, trivial⟩ (.nil _)))).1

end WealdRelay.Keys
