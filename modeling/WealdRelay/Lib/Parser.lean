import Mathlib.Order.Lattice
import WealdRelay.Lib.Except

/-!
# Parsers and what they accept

A parser consumes symbols from the front of a list: it refuses, or it returns a value and
leaves the rest. Two relations say what one does. `Reads p w a` is about values that were
written: from `w`, whatever follows it, `p` returns `a` and leaves what follows.
`Accepts p Q` is about values that were read: whenever `p` returns `a`, what it consumed
stands in `Q` with `a`.

Both follow the parser's text, one rule for each way to build one, so a format is proved
canonical field by field: `Accepts` with "the consumed symbols are the encoding of `a`"
gives one encoding per value, `Reads` gives it back.
-/

namespace WealdRelay.Lib

open List

/-- Consume symbols of type `σ` from the front, or refuse with an `ε`. -/
abbrev Parser (ε σ : Type) (α : Type) := StateT (List σ) (Except ε) α

namespace Parser

variable {ε ε' σ α β : Type}

/-- Refuse when a test holds. -/
def refuse (p : Prop) [Decidable p] (e : ε) : Parser ε σ Unit :=
  fun data => if p then .error e else .ok ((), data)

/-- Refuse with `e` where there is no value. -/
def require (value : Option α) (e : ε) : Parser ε σ α :=
  fun data => match value with
    | some a => .ok (a, data)
    | none => .error e

/-- The same parser, its refusals renamed. -/
def mapErr (f : ε → ε') (p : Parser ε σ α) : Parser ε' σ α :=
  fun data => (p data).mapError f

/-- The same parser a fixed number of times. -/
def many (p : Parser ε σ α) : Nat → Parser ε σ (List α)
  | 0 => pure []
  | count + 1 => do
      let first ← p
      let others ← many p count
      pure (first :: others)

/-- The same parser a fixed number of times, refusing a value whose key does not rise
above the one before it. -/
def ascending {κ : Type} [LinearOrder κ] (p : Parser ε σ α) (key : α → κ) (e : ε) :
    Option κ → Nat → Parser ε σ (List α)
  | _, 0 => pure []
  | previous, count + 1 => do
      let first ← p
      refuse (previous.any fun bound => key first ≤ bound) e
      let others ← ascending p key e (some (key first)) count
      pure (first :: others)

/-- From `written`, whatever follows it, the parser returns `a` and leaves what follows. -/
def Reads (p : Parser ε σ α) (written : List σ) (a : α) : Prop :=
  ∀ tail, p (written ++ tail) = .ok (a, tail)

/-- Whatever the parser returns stands in `Q` with the symbols it consumed. -/
def Accepts (p : Parser ε σ α) (Q : α → List σ → Prop) : Prop :=
  ∀ ⦃data a rest⦄, p data = .ok (a, rest) → ∃ written, data = written ++ rest ∧ Q a written

theorem bind_apply (p : Parser ε σ α) (k : α → Parser ε σ β) (data : List σ) :
    (p >>= k) data = (p data >>= fun r => k r.1 r.2) := rfl

namespace Reads

theorem pure (a : α) : Reads (pure a : Parser ε σ α) [] a :=
  fun _ => rfl

variable {p : Parser ε σ α} {a : α} {k : α → Parser ε σ β} {e : ε} {write : α → List σ} {b : β}
  {vs : List α}

theorem bind {first second : List σ} (hp : Reads p first a) (hk : Reads (k a) second b) :
    Reads (p >>= k) (first ++ second) b := by
  intro tail
  rw [bind_apply, append_assoc, hp]
  exact hk tail

variable {w : List σ}

/-- A step that consumes nothing. -/
theorem skip (hp : Reads p [] a) (hk : Reads (k a) w b) : Reads (p >>= k) w b :=
  hp.bind hk

/-- The last field, after which nothing is consumed. -/
theorem map {f : α → β} (hp : Reads p w a) : Reads (p >>= fun a => Pure.pure (f a)) w (f a) := by
  have hread := hp.bind (k := fun a => Pure.pure (f a)) (.pure (f a))
  rwa [append_nil] at hread

theorem refuse {p : Prop} [Decidable p] (h : ¬ p) :
    Reads (Parser.refuse p e : Parser ε σ Unit) [] () := by
  intro tail
  simp [Parser.refuse, h]

theorem require {v : Option α} (h : v = some a) :
    Reads (Parser.require v e : Parser ε σ α) [] a := by
  intro tail
  simp [Parser.require, h]

theorem mapErr (f : ε → ε') (hp : Reads p w a) : Reads (p.mapErr f) w a := by
  intro tail
  rw [Parser.mapErr, hp tail]
  rfl

theorem many (h : ∀ a ∈ vs, Reads p (write a) a) :
    Reads (p.many vs.length) (vs.map write).flatten vs := by
  induction vs with
  | nil => exact .pure []
  | cons a vs ih =>
    have hr := ih (fun b hb => h b (mem_cons_of_mem a hb))
    exact (h a mem_cons_self).bind hr.map

theorem ascending {κ : Type} [LinearOrder κ] {key : α → κ} (e : ε)
    (h : ∀ a ∈ vs, Reads p (write a) a) :
    ∀ {previous : Option κ}, (∀ bound ∈ previous, ∀ a ∈ vs, bound < key a) →
      vs.Pairwise (fun a b => key a < key b) →
        Reads (p.ascending key e previous vs.length) (vs.map write).flatten vs := by
  induction vs with
  | nil => intro previous _ _; exact .pure []
  | cons a vs ih =>
    intro previous habove hrise
    obtain ⟨hfirst, hr⟩ := pairwise_cons.mp hrise
    have hpasses : ¬ (previous.any fun bound => key a ≤ bound) = true := by
      cases previous with
      | none => simp
      | some bound => simpa using habove bound rfl a mem_cons_self
    have habove' : ∀ bound ∈ some (key a), ∀ b ∈ vs, bound < key b := by
      simpa using hfirst
    have hlater := ih (fun b hb => h b (mem_cons_of_mem a hb)) habove' hr
    exact (h a mem_cons_self).bind ((Reads.refuse hpasses).skip hlater.map)

end Reads

namespace Accepts

variable {p : Parser ε σ α} {Q : α → List σ → Prop}

theorem mono {R : α → List σ → Prop} (h : Accepts p Q)
    (hQR : ∀ a w, Q a w → R a w) : Accepts p R := by
  intro data a rest hp
  obtain ⟨w, hdata, hQ⟩ := h hp
  exact ⟨w, hdata, hQR a w hQ⟩

theorem pure {a : α} (h : Q a []) : Accepts (pure a : Parser ε σ α) Q := by
  intro data b rest hp
  cases hp
  exact ⟨[], rfl, h⟩

variable {R : β → List σ → Prop} {e : ε} {write : α → List σ} {valid : α → Prop}

theorem bind {k : α → Parser ε σ β} (hp : Accepts p Q)
    (hk : ∀ a first, Q a first → Accepts (k a) fun b second => R b (first ++ second)) :
    Accepts (p >>= k) R := by
  intro data b rest h
  obtain ⟨⟨a, mid⟩, ha, hb⟩ := bind_ok h
  obtain ⟨first, hdata, hQ⟩ := hp ha
  obtain ⟨second, hmid, hR⟩ := hk a first hQ hb
  refine ⟨first ++ second, ?_, hR⟩
  rw [hdata, hmid, append_assoc]

/-- The last field, after which nothing is consumed. -/
theorem map {f : α → β} (hp : Accepts p fun a w => R (f a) w) :
    Accepts (p >>= fun a => Pure.pure (f a)) R := by
  refine hp.bind fun a first hR => .pure ?_
  rwa [append_nil]

theorem refuse {p : Prop} [Decidable p] :
    Accepts (Parser.refuse p e : Parser ε σ Unit) fun _ w => ¬ p ∧ w = [] := by
  intro data a rest h
  obtain ⟨hp, h⟩ := guard_ok h
  cases h
  exact ⟨[], rfl, hp, rfl⟩

theorem require {v : Option α} : Accepts (Parser.require v e : Parser ε σ α) fun a w =>
      v = some a ∧ w = [] := by
  intro data a rest h
  cases v with
  | none => cases h
  | some b =>
    cases h
    exact ⟨[], rfl, rfl, rfl⟩

theorem throw : Accepts (throw e : Parser ε σ α) Q := by
  intro data a rest h
  cases h

theorem mapErr (f : ε → ε') (h : Accepts p Q) : Accepts (p.mapErr f) Q :=
  fun _ _ _ hp => h (mapError_ok hp)

theorem many (h : Accepts p fun a w => valid a ∧ w = write a) (n : Nat) :
    Accepts (p.many n) fun vs w => vs.length = n ∧
      (∀ a ∈ vs, valid a) ∧ w = (vs.map write).flatten := by
  induction n with
  | zero => exact .pure ⟨rfl, by simp, rfl⟩
  | succ n ih =>
    refine h.bind ?_
    rintro a first ⟨ha, rfl⟩
    refine ih.bind ?_
    rintro vs second ⟨hlen, hvalues, rfl⟩
    exact .pure ⟨by simp [hlen], by simpa using ⟨ha, hvalues⟩, by simp⟩

theorem ascending {κ : Type} [LinearOrder κ] {key : α → κ} (e : ε)
    (h : Accepts p fun a w => valid a ∧ w = write a) (n : Nat) :
    ∀ previous : Option κ, Accepts (p.ascending key e previous n) fun vs w =>
      vs.length = n ∧ (∀ bound ∈ previous, ∀ a ∈ vs, bound < key a) ∧
        vs.Pairwise (fun a b => key a < key b) ∧ (∀ a ∈ vs, valid a) ∧
          w = (vs.map write).flatten := by
  induction n with
  | zero =>
    intro previous
    exact .pure ⟨rfl, by simp, .nil, by simp, rfl⟩
  | succ n ih =>
    intro previous
    refine h.bind ?_
    rintro a first ⟨ha, rfl⟩
    refine Accepts.refuse.bind ?_
    rintro _ _ ⟨hpasses, rfl⟩
    refine (ih (some (key a))).bind ?_
    rintro vs second ⟨hlen, habove, hrise, hvalues, rfl⟩
    have habove' : ∀ b ∈ vs, key a < key b := habove (key a) rfl
    refine .pure ⟨by simp [hlen], ?_, pairwise_cons.mpr ⟨habove', hrise⟩,
      by simpa using ⟨ha, hvalues⟩, by simp⟩
    rintro bound rfl b hb
    have hfirst : bound < key a := by simpa using hpasses
    rcases mem_cons.mp hb with rfl | hb
    · exact hfirst
    · exact lt_trans hfirst (habove' b hb)

end Accepts

end Parser
end WealdRelay.Lib
