import Mathlib.Data.Fintype.Basic
import WealdRelay.Lib.Run

/-!
# Processes over a shared store, with row locks

Any number of processes take turns on one store. Where a process stands is its phase;
a turn is one statement, which reads and writes the store and moves its process to the
next phase. A phase may hold locks on rows, which are its process's alone until it
leaves that phase, and a statement may need rows, which it can only have while no other
process holds them. That is how read-committed transactions behave when each statement
sees the committed store: a transaction's writes are kept in its phase and reach the
store at its commit, and the locks keep others from the rows in between.

A statement that works from an older snapshot is two turns: the first remembers the
snapshot in the phase, the second writes.

* `Machine.Step` is one turn and `Machine.StepUnder` one that also keeps to a relation
  between the mover and the others; `Machine.exec` takes turns on a finite set of
  processes, such as `Caller`, and `Machine.exec_run` makes a run of them;
* `Machine.solo` lets one process take its turns alone;
* `Machine.Exclusive` is the invariant that no row has two holders;
* `Machine.Holds.run` is the proof rule: what the store keeps, what each phase relies
  on, and what two phases at once rule out; `Machine.Holds.runWhen` is the same for turns
  that also ask something of the mover.
-/

namespace WealdRelay.Lib

universe u

/-- A store and the place each process has reached. -/
structure World (π σ φ : Type u) where
  store : σ
  phase : π → φ

namespace World

variable {π σ φ : Type u} [DecidableEq π]

/-- Process `p` moves on and leaves this store. -/
def move (w : World π σ φ) (p : π) (store : σ) (phase : φ) : World π σ φ :=
  ⟨store, Function.update w.phase p phase⟩

variable (w : World π σ φ) (p : π) (store : σ) (phase : φ)

@[simp] theorem move_store : (w.move p store phase).store = store := rfl

@[simp] theorem move_phase_self : (w.move p store phase).phase p = phase := by
  simp [move]

theorem move_phase_of_ne {p q : π} (h : q ≠ p) (store : σ) (phase : φ) :
    (w.move p store phase).phase q = w.phase q := by
  simp [move, h]

end World

/-- The program a process runs: what a turn does, the rows it needs while it does it,
and the rows each phase holds. A turn holds nothing that it did not hold or need. -/
structure Machine (σ φ ι ρ : Type u) where
  act : ι → σ → φ → Option (σ × φ)
  needs : ι → σ → φ → List ρ
  locks : φ → List ρ
  locks_act : ∀ {i s a s' a'}, act i s a = some (s', a') →
    ∀ row ∈ locks a', row ∈ locks a ∨ row ∈ needs i s a

namespace Machine

variable {π σ φ ι ρ : Type u} [DecidableEq π] (m : Machine σ φ ι ρ)

/-- No process other than `p` holds this row. -/
def Free (w : World π σ φ) (p : π) (row : ρ) : Prop :=
  ∀ q, q ≠ p → row ∉ m.locks (w.phase q)

/-- One turn of one process. -/
def Step (w : World π σ φ) (label : π × ι) (w' : World π σ φ) : Prop :=
  ∃ s' a', m.act label.2 w.store (w.phase label.1) = some (s', a') ∧
    (∀ row ∈ m.needs label.2 w.store (w.phase label.1), m.Free w label.1 row) ∧
    w' = w.move label.1 s' a'

/-- A relation between a process that moves and another one, which is asked of every
other process. -/
def Meets (R : ι → σ → φ → φ → Prop) (w : World π σ φ) (label : π × ι) : Prop :=
  ∀ q, q ≠ label.1 → R label.2 w.store (w.phase label.1) (w.phase q)

/-- A turn at which every other process stands where `R` allows it to. -/
def StepUnder (R : ι → σ → φ → φ → Prop) (w : World π σ φ) (label : π × ι)
    (w' : World π σ φ) : Prop :=
  m.Step w label w' ∧ Meets R w label

/-- Such a turn of a mover that itself stands where `Q` allows it to. -/
def StepWhen (Q : ι → σ → φ → Prop) (R : ι → σ → φ → φ → Prop) (w : World π σ φ)
    (label : π × ι) (w' : World π σ φ) : Prop :=
  m.StepUnder R w label w' ∧ Q label.2 w.store (w.phase label.1)

/-- No row has two holders. -/
def Exclusive (w : World π σ φ) : Prop :=
  ∀ p q, p ≠ q → ∀ row ∈ m.locks (w.phase p), row ∉ m.locks (w.phase q)

variable {m} {w w' : World π σ φ} {label : π × ι}

theorem Step.under (h : m.Step w label w') : m.StepUnder (fun _ _ _ _ => True) w label w' :=
  ⟨h, fun _ _ => trivial⟩

theorem Exclusive.step (h : m.Exclusive w) (hs : m.Step w label w') : m.Exclusive w' := by
  obtain ⟨s', a', hact, hfree, rfl⟩ := hs
  obtain ⟨p, i⟩ := label
  -- The mover's rows are its old ones or the ones it needed, and both were its alone.
  have hmover : ∀ q, q ≠ p → ∀ row ∈ m.locks a', row ∉ m.locks (w.phase q) := by
    intro q hq row hrow
    rcases m.locks_act hact row hrow with hold | hnew
    · exact h p q (Ne.symm hq) row hold
    · exact hfree row hnew q hq
  intro q r hqr row hrow
  by_cases hq : q = p
  · subst hq
    rw [World.move_phase_self] at hrow
    rw [World.move_phase_of_ne w (Ne.symm hqr)]
    exact hmover r (Ne.symm hqr) row hrow
  · rw [World.move_phase_of_ne w hq] at hrow
    by_cases hr : r = p
    · subst hr
      rw [World.move_phase_self]
      exact fun hmine => hmover q hq row hmine hrow
    · rw [World.move_phase_of_ne w hr]
      exact h q r hqr row hrow

/-- What holds of a world whose processes keep to the three parts of an invariant:
`I` of the store, `K` of the store and each phase, `A` of any two phases. -/
structure Holds (m : Machine σ φ ι ρ) (I : σ → Prop) (K : σ → φ → Prop) (A : φ → φ → Prop)
    (w : World π σ φ) : Prop where
  store : I w.store
  phase : ∀ p, K w.store (w.phase p)
  apart : ∀ p q, p ≠ q → A (w.phase p) (w.phase q)
  exclusive : m.Exclusive w

/-- What another process may be told when one takes a turn: what both rely on, that they
are apart, and that the other holds none of the rows the turn holds or needs. -/
structure Beside (m : Machine σ φ ι ρ) (I : σ → Prop) (K : σ → φ → Prop)
    (A : φ → φ → Prop) (R : ι → σ → φ → φ → Prop) (i : ι) (s : σ) (a b : φ) : Prop where
  store : I s
  mover : K s a
  other : K s b
  apart : A a b
  held : ∀ row ∈ m.locks a, row ∉ m.locks b
  needed : ∀ row ∈ m.needs i s a, row ∉ m.locks b
  allowed : R i s a b

variable {I : σ → Prop} {K : σ → φ → Prop} {A : φ → φ → Prop} {R : ι → σ → φ → φ → Prop}
  {Q : ι → σ → φ → Prop}

omit [DecidableEq π] in
/-- A world in which every process stands at one phase that holds nothing. -/
theorem Holds.of_idle {idle} (hidle : ∀ p, w.phase p = idle) (hlocks : m.locks idle = [])
    (hstore : I w.store) (hphase : K w.store idle) (hapart : A idle idle) : m.Holds I K A w where
  store := hstore
  phase := fun p => by rw [hidle p]; exact hphase
  apart := fun p q _ => by rw [hidle p, hidle q]; exact hapart
  exclusive := fun p q _ row hrow => by
    rw [hidle p, hlocks] at hrow
    cases hrow

variable (hsymm : ∀ a b, A a b → A b a)
  (hself : ∀ {i s a s' a'}, I s → K s a → Q i s a → m.act i s a = some (s', a') → I s' ∧ K s' a')
  (hplain : ∀ {i s a s' a'}, I s → K s a → m.act i s a = some (s', a') → I s' ∧ K s' a')
  (ho : ∀ {i s a s' a' b}, m.Beside I K A R i s a b → m.act i s a = some (s', a') →
    K s' b ∧ A a' b)
include hsymm hself ho

/-- The proof rule for one turn: the mover keeps the store's part and its own, and
disturbs nobody else's. -/
theorem Holds.stepWhen (h : m.Holds I K A w) (hs : m.StepWhen Q R w label w') :
    m.Holds I K A w' := by
  obtain ⟨hs, hwhen⟩ := hs
  have hexclusive := h.exclusive.step hs.1
  obtain ⟨⟨s', a', hact, hfree, rfl⟩, hmeets⟩ := hs
  obtain ⟨p, i⟩ := label
  obtain ⟨hstore, hphase⟩ := hself h.store (h.phase p) hwhen hact
  have hbeside : ∀ q, q ≠ p → K s' (w.phase q) ∧ A a' (w.phase q) := by
    intro q hq
    exact ho
      { store := h.store
        mover := h.phase p
        other := h.phase q
        apart := h.apart p q (Ne.symm hq)
        held := h.exclusive p q (Ne.symm hq)
        needed := fun row hrow => hfree row hrow q hq
        allowed := hmeets q hq } hact
  refine ⟨hstore, ?_, ?_, hexclusive⟩
  · intro q
    by_cases hq : q = p
    · subst hq
      simpa using hphase
    · simpa [World.move_phase_of_ne w hq] using (hbeside q hq).1
  · intro q r hqr
    by_cases hq : q = p
    · subst hq
      simpa [World.move_phase_of_ne w (Ne.symm hqr)] using (hbeside r (Ne.symm hqr)).2
    · by_cases hr : r = p
      · subst hr
        simpa [World.move_phase_of_ne w hq] using hsymm _ _ (hbeside q hq).2
      · simpa [World.move_phase_of_ne w hq, World.move_phase_of_ne w hr] using h.apart q r hqr

variable {labels : List (π × ι)}

theorem Holds.runWhen (h : m.Holds I K A w) (hrun : Run (m.StepWhen Q R) w labels w') :
    m.Holds I K A w' :=
  Run.invariant (fun _ _ _ hs hst => hs.stepWhen hsymm hself ho hst) hrun h

omit hself
include hplain

theorem Holds.step (h : m.Holds I K A w) (hs : m.StepUnder R w label w') : m.Holds I K A w' :=
  h.stepWhen (Q := fun _ _ _ => True) hsymm (fun hi hk _ hact => hplain hi hk hact) ho ⟨hs, trivial⟩

theorem Holds.run (h : m.Holds I K A w) (hrun : Run (m.StepUnder R) w labels w') :
    m.Holds I K A w' :=
  Run.invariant (fun _ _ _ hs hst => hs.step hsymm hplain ho hst) hrun h

omit hsymm hplain ho

theorem run_under (h : Run m.Step w labels w') :
    Run (m.StepUnder (fun _ _ _ _ => True)) w labels w' :=
  h.mono (fun _ _ _ hs => hs.under)

theorem run_of_under (h : Run (m.StepUnder R) w labels w') : Run m.Step w labels w' :=
  h.mono (fun _ _ _ hs => hs.1)

/-- Where there are two processes, what is asked of the mover can be asked beside each of
the others. -/
theorem run_when [Nontrivial π]
    (h : Run (m.StepUnder (fun i s a b => Q i s a ∧ R i s a b)) w labels w') :
    Run (m.StepWhen Q R) w labels w' := by
  refine h.mono fun v label v' hs => ?_
  obtain ⟨q, hq⟩ := exists_ne label.1
  exact ⟨⟨hs.1, fun p hp => (hs.2 p hp).2⟩, (hs.2 q hq).1⟩

/-- A process in a phase it cannot leave is still there after any run. -/
theorem phase_of_ended {p : π} (hend : ∀ i s, m.act i s (w.phase p) = none)
    (h : Run m.Step w labels w') : w'.phase p = w.phase p := by
  refine Run.invariant ?_ h rfl
  rintro v ⟨q, i⟩ v' hv ⟨s', a', hact, -, rfl⟩
  by_cases hq : p = q
  · subst hq
    rw [hv, hend] at hact
    cases hact
  · rw [World.move_phase_of_ne v hq]
    exact hv

/-! ## One process alone -/

section Solo

variable (m) (i : ι)

/-- Take the same turn again and again, as long as there is one to take. -/
def solo : Nat → σ → φ → σ × φ
  | 0, s, a => (s, a)
  | n + 1, s, a =>
    match m.act i s a with
    | none => (s, a)
    | some (s', a') => solo n s' a'

variable {m i} {s : σ} {a : φ}

theorem solo_turn {s' : σ} {a' : φ} (h : m.act i s a = some (s', a')) (n : Nat) :
    m.solo i (n + 1) s a = m.solo i n s' a' := by
  rw [solo, h]

theorem solo_ended (h : m.act i s a = none) (n : Nat) : m.solo i n s a = (s, a) := by
  cases n with
  | zero => rfl
  | succ n => rw [solo, h]

/-- What every turn keeps holds at the end. -/
theorem solo_keeps {P : σ → φ → Prop}
    (hkeep : ∀ {s a s' a'}, P s a → m.act i s a = some (s', a') → P s' a') (h : P s a) (n : Nat) :
    P (m.solo i n s a).1 (m.solo i n s a).2 := by
  induction n generalizing s a with
  | zero => exact h
  | succ n ih =>
    rw [solo]
    cases hact : m.act i s a with
    | none => exact h
    | some next => exact ih (hkeep h hact)

end Solo

/-! ## Running turns on finitely many processes -/

section Exec

variable [Fintype π] [DecidableEq ρ] (m)

instance freeDecidable (w : World π σ φ) (p : π) (row : ρ) : Decidable (m.Free w p row) :=
  inferInstanceAs (Decidable (∀ q, q ≠ p → row ∉ m.locks (w.phase q)))

variable (R) [∀ i s a b, Decidable (R i s a b)]

instance meetsDecidable (w : World π σ φ) (label : π × ι) : Decidable (Meets R w label) :=
  inferInstanceAs (Decidable (∀ q, q ≠ label.1 → R label.2 w.store (w.phase label.1) (w.phase q)))

/-- Take these turns, as far as the locks and the relation allow. -/
def exec (w : World π σ φ) : List (π × ι) → Option (World π σ φ)
  | [] => some w
  | label :: labels =>
    match m.act label.2 w.store (w.phase label.1) with
    | none => none
    | some (s', a') =>
      if (∀ row ∈ m.needs label.2 w.store (w.phase label.1), m.Free w label.1 row) ∧
          Meets R w label then
        exec (w.move label.1 s' a') labels
      else none

variable {m R}

theorem exec_run {w w' : World π σ φ} {labels : List (π × ι)}
    (h : m.exec R w labels = some w') : Run (m.StepUnder R) w labels w' := by
  induction labels generalizing w with
  | nil =>
    cases h
    exact .nil _
  | cons label labels ih =>
    rw [exec] at h
    split at h
    · cases h
    next s' a' hact =>
      split at h
      next hall =>
        exact .cons ⟨⟨s', a', hact, hall.1, rfl⟩, hall.2⟩ (ih h)
      · cases h

theorem run_of_exec {w w' : World π σ φ} {labels : List (π × ι)}
    (h : m.exec R w labels = some w') : Run m.Step w labels w' :=
  run_of_under (exec_run h)

theorem exec_append (w : World π σ φ) (labels more : List (π × ι)) :
    m.exec R w (labels ++ more) = (m.exec R w labels).bind (m.exec R · more) := by
  induction labels generalizing w with
  | nil => rfl
  | cons label labels ih =>
    simp only [List.cons_append, exec]
    split
    · rfl
    · split
      · exact ih _
      · rfl

/-- Turns and one more: the run of the first, and the step of the last. -/
theorem exec_snoc {w w' : World π σ φ} {labels : List (π × ι)} {label : π × ι}
    (h : m.exec R w (labels ++ [label]) = some w') :
    ∃ v, m.exec R w labels = some v ∧ Run (m.StepUnder R) w labels v ∧
      m.StepUnder R v label w' := by
  rw [exec_append, Option.bind_eq_some_iff] at h
  obtain ⟨v, hv, hlast⟩ := h
  exact ⟨v, hv, exec_run hv, Run.single (exec_run hlast)⟩

end Exec

end Machine

/-- Four processes, for runs that are computed. -/
inductive Caller where
  | first
  | second
  | third
  | fourth
deriving DecidableEq

instance : Nontrivial Caller := ⟨.first, .second, by decide⟩

instance : Fintype Caller where
  elems := ⟨([.first, .second, .third, .fourth] : List Caller), by decide⟩
  complete := by
    intro p
    cases p <;> decide

end WealdRelay.Lib
