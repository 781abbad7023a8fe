import Mathlib.Algebra.BigOperators.Group.List.Basic
import Mathlib.Algebra.GroupWithZero.Nat
import Mathlib.Data.List.Nodup
import Mathlib.Data.List.Pairwise
import Mathlib.Order.Lattice

/-!
# Covers of an interval

A list of pieces, each with an upper bound, read as consecutive half-open spans: the
first starts at a given lower bound and every other one where the piece before it ends.
Nothing here says what a piece is.

* `spans` gives each piece its lower bound;
* `Covers P lo pieces hi`: the spans ascend from `lo` to `hi` and each satisfies `P`.
  Every point between lies in exactly one of them (`Covers.exists_span`,
  `Covers.span_unique`);
* `Refines A lo pieces out`: in `out` a list stands in place of every piece, in a
  relation `A` to it. Covers pass along (`Refines.covers`), two refinements compose
  (`Refines.comp`), and a weight that no replacement lowers does not fall
  (`Refines.sum_le`, `Refines.sum_lt`);
* `Rises pieces hi`: the bounds ascend strictly to `hi`, from wherever they start. That
  passes along a refinement like a cover does (`Refines.rises`).
-/

namespace WealdRelay.Lib

open List

universe u v

section Covers

variable {β : Type u} {ρ : Type v} (upper : ρ → β)

/-- The pieces, each with its lower bound. -/
def spans : β → List ρ → List (β × ρ)
  | _, [] => []
  | lo, piece :: rest => (lo, piece) :: spans (upper piece) rest

theorem map_snd_spans (ps : List ρ) : ∀ lo, (spans upper lo ps).map Prod.snd = ps := by
  induction ps with
  | nil => intro lo; rfl
  | cons p rest ih =>
    intro lo
    simp [spans, ih]

@[simp] theorem length_spans (ps : List ρ) (lo : β) : (spans upper lo ps).length = ps.length := by
  simpa using congrArg length (map_snd_spans upper ps lo)

variable {ps : List ρ} {p : ρ} {x l l₁ l₂ : β} {piece₁ piece₂ : ρ}

theorem mem_of_mem_spans {lo : β} (h : (l, p) ∈ spans upper lo ps) : p ∈ ps := by
  have hmem := mem_map_of_mem (f := Prod.snd) h
  rwa [map_snd_spans] at hmem

theorem exists_mem_spans (h : p ∈ ps) (lo : β) : ∃ l, (l, p) ∈ spans upper lo ps := by
  rw [← map_snd_spans upper ps lo] at h
  obtain ⟨⟨l, p⟩, hspan, rfl⟩ := mem_map.mp h
  exact ⟨l, hspan⟩

theorem spans_append {mid : β} (h : ps.getLast?.map upper = some mid) (lo : β) (out : List ρ) :
    spans upper lo (ps ++ out) = spans upper lo ps ++ spans upper mid out := by
  induction ps generalizing lo with
  | nil => cases h
  | cons p rest ih =>
    cases rest with
    | nil =>
      obtain rfl : upper p = mid := by simpa using h
      rfl
    | cons next rest =>
      exact congrArg ((lo, p) :: ·) (ih (by simpa using h) (upper p))

theorem spans_map {f : ρ → ρ} (hf : ∀ p, upper (f p) = upper p) (ps : List ρ) :
    ∀ lo, spans upper lo (ps.map f) = (spans upper lo ps).map (Prod.map (fun l => l) f) := by
  induction ps with
  | nil => intro lo; rfl
  | cons p rest ih =>
    intro lo
    simp [spans, hf, ih]

variable [LinearOrder β]

/-- Ascending spans from `lo` to `hi`, each with a property. -/
inductive Covers (P : β → ρ → Prop) : β → List ρ → β → Prop
  | nil (lo : β) : Covers P lo [] lo
  | cons {lo hi : β} {piece : ρ} {rest : List ρ} :
      lo < upper piece → P lo piece → Covers P (upper piece) rest hi →
        Covers P lo (piece :: rest) hi

variable {upper} {P Q : β → ρ → Prop} {lo mid hi : β} {ps out : List ρ}

theorem Covers.single (hlt : lo < upper p) (h : P lo p) : Covers upper P lo [p] (upper p) :=
  cons hlt h (nil _)

theorem Covers.append (h : Covers upper P lo ps mid) (hout : Covers upper P mid out hi) :
    Covers upper P lo (ps ++ out) hi := by
  induction h with
  | nil _ => exact hout
  | cons hlt hpiece _ ih => exact .cons hlt hpiece (ih hout)

theorem Covers.mono (himp : ∀ l p, l < upper p → P l p → Q l p)
    (h : Covers upper P lo ps hi) : Covers upper Q lo ps hi := by
  induction h with
  | nil lo => exact .nil lo
  | cons hlt hpiece _ ih => exact .cons hlt (himp _ _ hlt hpiece) ih

/-- The spans leave nothing out below the last bound. -/
theorem exists_span_of_lt (hlast : ps.getLast?.map upper = some hi) (hlo : lo ≤ x)
    (hx : x < hi) : ∃ span ∈ spans upper lo ps, span.1 ≤ x ∧ x < upper span.2 := by
  induction ps generalizing lo with
  | nil => cases hlast
  | cons first rest ih =>
    rcases lt_or_ge x (upper first) with hbelow | habove
    · exact ⟨(lo, first), mem_cons_self, hlo, hbelow⟩
    cases rest with
    | nil =>
      obtain rfl : upper first = hi := by simpa using hlast
      exact absurd hx (not_lt.mpr habove)
    | cons next rest =>
      obtain ⟨span, hspan, hin⟩ := ih (by simpa using hlast) habove
      exact ⟨span, mem_cons_of_mem _ hspan, hin⟩

/-- Where the bounds ascend, no span starts below the first. -/
theorem le_of_mem_spans (h : ps.Pairwise (fun a b => upper a < upper b))
    (hlo : ∀ p ∈ ps, lo ≤ upper p) (hmem : (l, p) ∈ spans upper lo ps) : lo ≤ l := by
  induction ps generalizing lo with
  | nil => cases hmem
  | cons first rest ih =>
    obtain ⟨hfirst, hr⟩ := pairwise_cons.mp h
    rcases mem_cons.mp hmem with heq | hmem
    · cases heq
      exact le_refl _
    · exact le_trans (hlo first mem_cons_self)
        (ih hr (fun p hpiece => le_of_lt (hfirst p hpiece)) hmem)

/-- Where the bounds ascend, the spans follow one another. -/
theorem pairwise_spans (h : ps.Pairwise (fun a b => upper a < upper b)) (lo : β) :
    (spans upper lo ps).Pairwise (fun a b => upper a.2 ≤ b.1) := by
  induction ps generalizing lo with
  | nil => exact .nil
  | cons first rest ih =>
    obtain ⟨hfirst, hr⟩ := pairwise_cons.mp h
    refine pairwise_cons.mpr ⟨fun span hspan => ?_, ih hr _⟩
    exact le_of_mem_spans hr (fun p hpiece => le_of_lt (hfirst p hpiece)) hspan

variable (h : Covers upper P lo ps hi)
include h

theorem Covers.le : lo ≤ hi := by
  induction h with
  | nil lo => exact le_refl lo
  | cons hlt _ _ ih => exact le_trans (le_of_lt hlt) ih

/-- What a cover says of each of its spans. -/
theorem Covers.of_mem_spans (hmem : (l, p) ∈ spans upper lo ps) :
    lo ≤ l ∧ l < upper p ∧ upper p ≤ hi ∧ P l p := by
  induction h with
  | nil _ => cases hmem
  | cons hlt hfirst hr ih =>
    rcases mem_cons.mp hmem with heq | hmem
    · cases heq
      exact ⟨le_refl _, hlt, hr.le, hfirst⟩
    · obtain ⟨hle, hspan⟩ := ih hmem
      exact ⟨le_trans (le_of_lt hlt) hle, hspan⟩

/-- What follows at each span of a cover. -/
theorem Covers.of_spans (himp : ∀ l p, (l, p) ∈ spans upper lo ps → P l p → Q l p) :
    Covers upper Q lo ps hi := by
  induction h with
  | nil lo => exact .nil lo
  | cons hlt hpiece _ ih =>
    exact .cons hlt (himp _ _ mem_cons_self hpiece)
      (ih (fun l x hmem => himp l x (mem_cons_of_mem _ hmem)))

theorem Covers.above : ∀ p ∈ ps, lo < upper p := by
  intro p hpiece
  obtain ⟨l, hspan⟩ := exists_mem_spans upper hpiece lo
  obtain ⟨hle, hlt, -⟩ := h.of_mem_spans hspan
  exact lt_of_le_of_lt hle hlt

theorem Covers.pairwise : ps.Pairwise (fun a b => upper a < upper b) := by
  induction h with
  | nil _ => exact .nil
  | cons _ _ hr ih => exact pairwise_cons.mpr ⟨hr.above, ih⟩

theorem Covers.getLast (hne : ps ≠ []) : ps.getLast?.map upper = some hi := by
  induction h with
  | nil _ => exact absurd rfl hne
  | @cons lo hi p rest _ _ hr ih =>
    cases rest with
    | nil =>
      cases hr
      rfl
    | cons next rest => simpa using ih (cons_ne_nil next rest)

omit h in
theorem Covers.upper_last (h : Covers upper P lo (ps ++ [p]) hi) : upper p = hi := by
  simpa using h.getLast (by simp)

theorem Covers.exists_span (hlo : lo ≤ x) (hhi : x < hi) :
    ∃ l p, (l, p) ∈ spans upper lo ps ∧ l ≤ x ∧ x < upper p := by
  have hne : ps ≠ [] := by
    rintro rfl
    cases h
    exact absurd hhi (not_lt.mpr hlo)
  obtain ⟨⟨l, p⟩, hspan⟩ := exists_span_of_lt (h.getLast hne) hlo hhi
  exact ⟨l, p, hspan⟩

theorem Covers.span_unique (h₁ : (l₁, piece₁) ∈ spans upper lo ps) (hx₁ : l₁ ≤ x ∧ x < upper piece₁)
    (h₂ : (l₂, piece₂) ∈ spans upper lo ps) (hx₂ : l₂ ≤ x ∧ x < upper piece₂) :
    (l₁, piece₁) = (l₂, piece₂) := by
  -- A point of one span is below the start of every later one.
  have hapart : (spans upper lo ps).Pairwise (fun a b =>
      (a.1 ≤ x ∧ x < upper a.2) → (b.1 ≤ x ∧ x < upper b.2) → a = b) :=
    (pairwise_spans h.pairwise lo).imp (fun hle ha hb =>
      absurd (lt_of_lt_of_le ha.2 hle) (not_lt.mpr hb.1))
  have : Std.Symm (fun a b : β × ρ =>
      (a.1 ≤ x ∧ x < upper a.2) → (b.1 ≤ x ∧ x < upper b.2) → a = b) :=
    ⟨fun _ _ hab hb ha => (hab ha hb).symm⟩
  exact Pairwise.forall_of_forall (fun _ _ _ _ => rfl) hapart h₁ h₂ hx₁ hx₂

omit h in
/-- Pieces whose bounds ascend strictly to `hi`. -/
structure Rises (upper : ρ → β) (pieces : List ρ) (hi : β) : Prop where
  ascending : pieces.Pairwise (fun a b => upper a < upper b)
  last : pieces.getLast?.map upper = some hi

theorem Covers.rises (hne : ps ≠ []) : Rises upper ps hi :=
  ⟨h.pairwise, h.getLast hne⟩

omit h

theorem Rises.single (p : ρ) : Rises upper [p] (upper p) :=
  ⟨pairwise_singleton _ _, rfl⟩

theorem Rises.exists_last (h : Rises upper ps hi) : ∃ p ∈ ps, upper p = hi := by
  obtain ⟨last, hlast, heq⟩ := Option.map_eq_some_iff.mp h.last
  exact ⟨last, mem_of_getLast? hlast, heq⟩

theorem Rises.le (h : Rises upper ps hi) : ∀ p ∈ ps, upper p ≤ hi := by
  obtain ⟨last, hlast, rfl⟩ := Option.map_eq_some_iff.mp h.last
  obtain ⟨init, rfl⟩ := getLast?_eq_some_iff.mp hlast
  obtain ⟨-, -, hbelow⟩ := pairwise_append.mp h.ascending
  intro p hpiece
  rcases mem_append.mp hpiece with hpiece | hpiece
  · exact le_of_lt (hbelow p hpiece last mem_cons_self)
  · rw [mem_singleton.mp hpiece]

theorem Rises.tail (h : Rises upper (p :: ps) hi) (hne : ps ≠ []) : Rises upper ps hi := by
  refine ⟨(pairwise_cons.mp h.ascending).2, ?_⟩
  cases ps with
  | nil => exact absurd rfl hne
  | cons next ps => simpa using h.last

theorem Rises.append (h : Rises upper ps mid) (hout : Rises upper out hi)
    (habove : ∀ x ∈ out, mid < upper x) : Rises upper (ps ++ out) hi := by
  refine ⟨pairwise_append.mpr ⟨h.ascending, hout.ascending, fun a ha b hb =>
    lt_of_le_of_lt (h.le a ha) (habove b hb)⟩, ?_⟩
  obtain ⟨last, hlast, heq⟩ := Option.map_eq_some_iff.mp hout.last
  rw [getLast?_append, hlast]
  exact congrArg some heq

/-- Spans that are nowhere empty and all satisfy `P` cover what they span. -/
theorem covers_of_spans (hlast : ps.getLast?.map upper = some hi)
    (h : ∀ span ∈ spans upper lo ps, span.1 < upper span.2 ∧ P span.1 span.2) :
    Covers upper P lo ps hi := by
  induction ps generalizing lo with
  | nil => cases hlast
  | cons p rest ih =>
    obtain ⟨hlt, hpiece⟩ := h (lo, p) mem_cons_self
    refine .cons hlt hpiece ?_
    cases rest with
    | nil =>
      obtain rfl : upper p = hi := by simpa using hlast
      exact .nil _
    | cons next rest =>
      exact ih (by simpa using hlast) fun span hspan => h span (mem_cons_of_mem _ hspan)

theorem Covers.spans_append (h : Covers upper P lo ps mid) :
    spans upper lo (ps ++ out) = spans upper lo ps ++ spans upper mid out := by
  induction h with
  | nil _ => rfl
  | cons _ _ _ ih => simp only [cons_append, spans, ih]

/-- Where the bounds ascend, a span is known by its bound. -/
theorem span_eq_of_upper (h : ps.Pairwise (fun a b => upper a < upper b))
    (h₁ : (l₁, piece₁) ∈ spans upper lo ps) (h₂ : (l₂, piece₂) ∈ spans upper lo ps)
    (heq : upper piece₁ = upper piece₂) : (l₁, piece₁) = (l₂, piece₂) := by
  rw [← map_snd_spans upper ps lo, pairwise_map] at h
  have hnd : ((spans upper lo ps).map (upper ·.2)).Nodup :=
    pairwise_map.mpr (h.imp ne_of_lt)
  exact inj_on_of_nodup_map hnd h₁ h₂ heq

end Covers

section Refines

variable {β : Type u} {ρ : Type v} (upper : ρ → β)

/-- In place of each piece stands a list that `A` relates to it and its lower bound. -/
inductive Refines (A : β → ρ → List ρ → Prop) : β → List ρ → List ρ → Prop
  | nil (lo : β) : Refines A lo [] []
  | cons {lo : β} {piece : ρ} {rest part out : List ρ} :
      A lo piece part → Refines A (upper piece) rest out →
        Refines A lo (piece :: rest) (part ++ out)

namespace Refines

variable {upper} {A B : β → ρ → List ρ → Prop} {P Q : β → ρ → Prop} {lo hi : β}
  {ps middle out : List ρ}

theorem mono (himp : ∀ l p part, A l p part → B l p part)
    (h : Refines upper A lo ps out) : Refines upper B lo ps out := by
  induction h with
  | nil lo => exact nil lo
  | cons hp _ ih => exact cons (himp _ _ _ hp) ih

variable {p : ρ}

variable (h : Refines upper A lo ps out)
include h

theorem at_span {l : β} (hmem : (l, p) ∈ spans upper lo ps) : ∃ part, A l p part := by
  induction h with
  | nil _ => cases hmem
  | cons hp _ ih =>
    rcases mem_cons.mp hmem with heq | hmem
    · cases heq
      exact ⟨_, hp⟩
    · exact ih hmem

omit h in
theorem of_single (h : Refines upper A lo [p] out) : A lo p out := by
  cases h with
  | cons hp hr =>
    cases hr
    rw [append_nil]
    exact hp

theorem length_le (hp : ∀ l p part, A l p part → part ≠ []) : ps.length ≤ out.length := by
  induction h with
  | nil _ => exact Nat.le_refl _
  | cons hfirst _ ih =>
    have hpos := length_pos_iff.mpr (hp _ _ _ hfirst)
    rw [length_cons, length_append]
    omega

/-- What holds of every replacement's pieces holds of the result's. -/
theorem forall_mem {S : ρ → Prop} (hp : ∀ l p part, p ∈ ps → A l p part → ∀ x ∈ part, S x) :
    ∀ x ∈ out, S x := by
  induction h with
  | nil _ => intro x hx; cases hx
  | cons hfirst _ ih =>
    intro x hx
    rcases mem_append.mp hx with hx | hx
    · exact hp _ _ _ mem_cons_self hfirst x hx
    · exact ih (fun l p part hmem => hp l p part (mem_cons_of_mem _ hmem)) x hx

omit h

section Ends

variable (hends : ∀ l p part, A l p part → part.getLast?.map upper = some (upper p))
include hends

/-- A span of the result lies in the replacement of a span of the pieces. -/
theorem exists_of_mem_spans (h : Refines upper A lo ps out) {l : β} {x : ρ}
    (hmem : (l, x) ∈ spans upper lo out) :
    ∃ l' p part, (l', p) ∈ spans upper lo ps ∧ A l' p part ∧ (l, x) ∈ spans upper l' part := by
  induction h with
  | nil _ => cases hmem
  | @cons lo p rest part out hfirst _ ih =>
    rw [spans_append upper (hends _ _ _ hfirst)] at hmem
    rcases mem_append.mp hmem with hmem | hmem
    · exact ⟨lo, p, part, mem_cons_self, hfirst, hmem⟩
    · obtain ⟨l', other, part', hspan, ho, hmem⟩ := ih hmem
      exact ⟨l', other, part', mem_cons_of_mem _ hspan, ho, hmem⟩

/-- The spans of a replacement are spans of the result. -/
theorem spans_subset (h : Refines upper A lo ps out) {l : β} {p : ρ}
    (hmem : (l, p) ∈ spans upper lo ps) :
    ∃ part, A l p part ∧ spans upper l part ⊆ spans upper lo out := by
  induction h with
  | nil _ => cases hmem
  | cons hfirst _ ih =>
    rw [spans_append upper (hends _ _ _ hfirst)]
    rcases mem_cons.mp hmem with heq | hmem
    · cases heq
      exact ⟨_, hfirst, subset_append_left _ _⟩
    · obtain ⟨part, hp, hsub⟩ := ih hmem
      exact ⟨part, hp, subset_append_of_subset_right _ hsub⟩

end Ends

section Weights

variable {v w : ρ → Nat}

variable (h : Refines upper A lo ps out)
include h

/-- What each replacement weighs at least, the result weighs at least. -/
theorem sum_le (hp : ∀ l p part, A l p part → v p ≤ (part.map w).sum) :
    (ps.map v).sum ≤ (out.map w).sum := by
  induction h with
  | nil _ => exact Nat.le_refl _
  | cons hfirst _ ih =>
    have hle := hp _ _ _ hfirst
    simp only [map_cons, sum_cons, map_append, sum_append]
    omega

theorem length_le_mul {most : Nat} (hp : ∀ l p part, A l p part → part.length ≤ most) :
    out.length ≤ most * ps.length := by
  induction h with
  | nil _ => exact Nat.zero_le _
  | cons hfirst _ ih =>
    have hle := hp _ _ _ hfirst
    rw [length_append, length_cons, Nat.mul_succ]
    omega

/-- The weight rises when one piece's replacement outweighs it. -/
theorem sum_lt (hp : ∀ l p part, A l p part → w p ≤ (part.map w).sum) {p : ρ}
    (hmem : p ∈ ps) (hlt : ∀ l part, A l p part → w p < (part.map w).sum) :
    (ps.map w).sum < (out.map w).sum := by
  induction h with
  | nil _ => cases hmem
  | cons hfirst hr ih =>
    simp only [map_cons, sum_cons, map_append, sum_append]
    rcases mem_cons.mp hmem with rfl | hmem
    · have hhead := hlt _ _ hfirst
      have htail := hr.sum_le hp
      omega
    · have hhead := hp _ _ _ hfirst
      have htail := ih hmem
      omega

end Weights

section Ordered

variable [LinearOrder β]

variable (h : Refines upper A lo ps out)
include h

/-- The pieces of a cover bring what the cover says of them. -/
theorem along (hcover : Covers upper P lo ps hi) :
    Refines upper (fun l p part => A l p part ∧ l < upper p ∧ P l p) lo ps out := by
  induction h with
  | nil lo => exact nil lo
  | cons hp _ ih =>
    cases hcover with
    | cons hlt hpiece hr => exact cons ⟨hp, hlt, hpiece⟩ (ih hr)

theorem covers (hcover : Covers upper P lo ps hi)
    (hp : ∀ l p part, l < upper p → P l p → A l p part →
      Covers upper Q l part (upper p)) : Covers upper Q lo out hi := by
  induction h with
  | nil _ =>
    cases hcover
    exact .nil _
  | cons hfirst _ ih =>
    cases hcover with
    | cons hlt hpiece hr => exact (hp _ _ _ hlt hpiece hfirst).append (ih hr)

/-- Bounds that rise, each span replaced by bounds that rise to its own, and above the
span's lower bound unless the span is empty. -/
theorem rises (hpieces : Rises upper ps hi)
    (hp : ∀ l p part, A l p part → Rises upper part (upper p) ∧
      (l < upper p → ∀ x ∈ part, l < upper x)) :
    Rises upper out hi ∧ ((∀ p ∈ ps, lo < upper p) → ∀ x ∈ out, lo < upper x) := by
  induction h with
  | nil _ => exact ⟨hpieces, fun _ x hx => absurd hx (by simp)⟩
  | @cons lo p rest part out hfirst hr ih =>
    obtain ⟨hhere, habove⟩ := hp _ _ _ hfirst
    cases hr with
    | nil _ =>
      obtain rfl : upper p = hi := by simpa using hpieces.last
      rw [append_nil]
      exact ⟨hhere, fun hlo => habove (hlo p mem_cons_self)⟩
    | @cons _ next rest part' out' hnext hlater =>
      obtain ⟨hout, hrises⟩ := ih (hpieces.tail (cons_ne_nil next rest))
      have hbeyond := hrises (pairwise_cons.mp hpieces.ascending).1
      refine ⟨hhere.append hout hbeyond, fun hlo x hx => ?_⟩
      have hpiece := hlo p mem_cons_self
      rcases mem_append.mp hx with hx | hx
      · exact habove hpiece x hx
      · exact lt_trans hpiece (hbeyond x hx)

/-- Every bound of the pieces is a bound of the result. -/
theorem upper_mem (hp : ∀ l p part, A l p part → Rises upper part (upper p)) :
    ∀ p ∈ ps, ∃ x ∈ out, upper x = upper p := by
  induction h with
  | nil _ => intro p hpiece; cases hpiece
  | cons hfirst _ ih =>
    intro p hpiece
    rcases mem_cons.mp hpiece with rfl | hpiece
    · obtain ⟨last, hlast, heq⟩ := (hp _ _ _ hfirst).exists_last
      exact ⟨last, mem_append_left _ hlast, heq⟩
    · obtain ⟨x, hx, heq⟩ := ih p hpiece
      exact ⟨x, mem_append_right _ hx, heq⟩

omit h

/-- A refinement of a concatenation comes apart where its first part ends. -/
theorem append_left {part : List ρ} {mid : β} (hcover : Covers upper P lo part mid)
    (h : Refines upper A lo (part ++ ps) out) :
    ∃ out₁ out₂, out = out₁ ++ out₂ ∧ Refines upper A lo part out₁ ∧
      Refines upper A mid ps out₂ := by
  induction hcover generalizing out with
  | nil lo => exact ⟨[], out, rfl, nil lo, h⟩
  | cons _ _ _ ih =>
    cases h with
    | cons hfirst hr =>
      obtain ⟨out₁, out₂, rfl, h₁, h₂⟩ := ih hr
      exact ⟨_ ++ out₁, out₂, (append_assoc _ _ _).symm, cons hfirst h₁, h₂⟩

theorem comp (h : Refines upper A lo ps middle)
    (hends : ∀ l p part, A l p part → Covers upper P l part (upper p))
    (hnext : Refines upper B lo middle out) :
    Refines upper (fun l p result => ∃ part, A l p part ∧
      Refines upper B l part result) lo ps out := by
  induction h generalizing out with
  | nil lo =>
    cases hnext
    exact nil lo
  | cons hp _ ih =>
    obtain ⟨out₁, out₂, rfl, h₁, h₂⟩ := append_left (hends _ _ _ hp) hnext
    exact cons ⟨_, hp, h₁⟩ (ih h₂)

/-- What holds of every span of the result holds of the spans of each replacement. -/
theorem localise {S : β × ρ → Prop} (h : Refines upper A lo ps out)
    (hends : ∀ l p part, A l p part → Covers upper P l part (upper p))
    (hspans : ∀ span ∈ spans upper lo out, S span) :
    Refines upper (fun l p part => A l p part ∧ ∀ span ∈ spans upper l part, S span) lo ps out := by
  induction h with
  | nil lo => exact nil lo
  | cons hp _ ih =>
    rw [(hends _ _ _ hp).spans_append] at hspans
    refine cons ⟨hp, fun span hspan => hspans span (mem_append_left _ hspan)⟩ ?_
    exact ih fun span hspan => hspans span (mem_append_right _ hspan)

end Ordered

end Refines

end Refines

end WealdRelay.Lib
