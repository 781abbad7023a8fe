import Mathlib.Logic.Basic

/-!
# Peeling checks off an accepted computation

A validator in `Except` is a chain of guards. These lemmas take an accepted chain
apart one guard at a time, so a proof names the facts it gets in the order the
validator established them and never splits a branch that ended in an error.
-/

namespace WealdRelay.Lib

universe u v

variable {ε : Type u} {α β : Type v} {p : Prop} [Decidable p] {x rest : Except ε α} {a : α}

/-- A guard that refuses when its test holds has been passed. -/
theorem guard_ok {e : ε} (h : (if p then .error e else rest) = .ok a) : ¬ p ∧ rest = .ok a := by
  by_cases hp : p
  · rw [if_pos hp] at h
    cases h
  · rw [if_neg hp] at h
    exact ⟨hp, h⟩

/-- A guard that refuses unless its test holds has been passed. -/
theorem require_ok {e : ε} (h : (if ¬ p then .error e else rest) = .ok a) : p ∧ rest = .ok a := by
  obtain ⟨hp, hr⟩ := guard_ok h
  exact ⟨not_not.mp hp, hr⟩

/-- Both halves of an accepted bind were accepted. -/
theorem bind_ok {f : α → Except ε β} {b : β} (h : (x >>= f) = .ok b) :
    ∃ a, x = .ok a ∧ f a = .ok b := by
  cases x with
  | error e => cases h
  | ok a => exact ⟨a, rfl, h⟩

/-- Renaming refusals accepts nothing new. -/
theorem mapError_ok {ε' : Type u} {f : ε → ε'} (h : x.mapError f = .ok a) : x = .ok a := by
  cases x with
  | error e => cases h
  | ok b => cases h; rfl

end WealdRelay.Lib
