import Mathlib.Data.List.Induction

/-!
# Runs of a labelled transition system

A system is a step relation `step : σ → ι → σ → Prop`: from a state, under a
label, to a state. A run lists the labels taken, oldest first. Nothing here
mentions a particular system.

The rules used elsewhere are

* `Run.append`, `Run.split` and `Run.single`: runs compose and come apart;
* `Run.at_label` and `Run.at_index`: a label of a run is the label of a step between
  two parts of it;
* `Run.mono`: a run of one relation is a run of a wider one;
* `Run.invariant`: what every step keeps, every run keeps;
* `Run.history`: the same for a property of the labels taken so far and the state
  they led to;
* `Run.Past`: the run passed through a state with a property;
* `Run.labels`: an invariant that is kept under a condition on the labels, and
  that lets each step promise something about its own label, makes the promise
  hold of every label of the run.
-/

namespace WealdRelay.Lib

universe u v

theorem mem_snoc {α : Type u} {a last : α} {l : List α} : a ∈ l ++ [last] ↔ a ∈ l ∨ a = last := by
  simp

theorem forall_mem_snoc {α : Type u} {p : α → Prop} {l : List α} {last : α} (h : ∀ a ∈ l, p a)
    (hlast : p last) : ∀ a ∈ l ++ [last], p a :=
  List.forall_mem_append.mpr ⟨h, List.forall_mem_singleton.mpr hlast⟩

theorem pairwise_snoc {α : Type u} {r : α → α → Prop} {l : List α} {last : α}
    (h : l.Pairwise r) (hlast : ∀ a ∈ l, r a last) : (l ++ [last]).Pairwise r :=
  List.pairwise_append.mpr ⟨h, List.pairwise_singleton _ _, by simpa using hlast⟩

/-- A split of a list with one more element is at its end or splits the list. -/
theorem snoc_split {α : Type u} {l a b : List α} {last x : α} (h : l ++ [last] = a ++ x :: b) :
    (a = l ∧ x = last) ∨ ∃ b', b = b' ++ [last] ∧ l = a ++ x :: b' := by
  rcases List.eq_nil_or_concat b with rfl | ⟨b', y, rfl⟩
  · obtain ⟨rfl, hx⟩ := List.append_inj' h rfl
    exact .inl ⟨rfl, (List.singleton_inj.mp hx).symm⟩
  · rw [List.concat_eq_append, ← List.cons_append, ← List.append_assoc] at h
    obtain ⟨hl, hlast⟩ := List.append_inj' h rfl
    exact .inr ⟨b', by rw [hlast, List.concat_eq_append], hl⟩

section Runs

variable {σ : Type u} {ι : Type v}

/-- The run from one state to another, with its labels oldest first. -/
inductive Run (step : σ → ι → σ → Prop) : σ → List ι → σ → Prop
  | nil (s : σ) : Run step s [] s
  | cons {s t u : σ} {a : ι} {as : List ι} :
      step s a t → Run step t as u → Run step s (a :: as) u

namespace Run

variable {step : σ → ι → σ → Prop} {s t u : σ} {as bs : List ι}

theorem append (h₁ : Run step s as t) (h₂ : Run step t bs u) : Run step s (as ++ bs) u := by
  induction h₁ with
  | nil _ => exact h₂
  | cons hs _ ih => exact .cons hs (ih h₂)

variable {a : ι}

theorem snoc (h : Run step s as t) (hs : step t a u) : Run step s (as ++ [a]) u :=
  h.append (.cons hs (.nil u))

theorem single (h : Run step s [a] t) : step s a t := by
  cases h with
  | cons hs hnil =>
    cases hnil
    exact hs

/-- A run over a concatenation passes through a middle state. -/
theorem split (h : Run step s (as ++ bs) u) : ∃ t, Run step s as t ∧ Run step t bs u := by
  induction as generalizing s with
  | nil => exact ⟨s, .nil s, h⟩
  | cons a as ih =>
    cases h with
    | cons hs hr =>
      obtain ⟨t, h₁, h₂⟩ := ih hr
      exact ⟨t, .cons hs h₁, h₂⟩

theorem unsnoc (h : Run step s (as ++ [a]) u) : ∃ t, Run step s as t ∧ step t a u := by
  obtain ⟨t, h₁, h₂⟩ := split h
  cases h₂ with
  | cons hs hnil =>
    cases hnil
    exact ⟨t, h₁, hs⟩

/-- Every label of a run is the label of one of its steps. -/
theorem at_label (h : Run step s as u) (ha : a ∈ as) :
    ∃ bs ds t t', as = bs ++ a :: ds ∧ Run step s bs t ∧ step t a t' ∧ Run step t' ds u := by
  obtain ⟨bs, ds, rfl⟩ := List.append_of_mem ha
  obtain ⟨t, h₁, h₂⟩ := split h
  cases h₂ with
  | cons hs hr => exact ⟨bs, ds, t, _, rfl, h₁, hs, hr⟩

/-- The step at one position of a run, between the labels before it and after it. -/
theorem at_index {i : Nat} (h : Run step s as u) (ha : as[i]? = some a) :
    ∃ t t', Run step s (as.take i) t ∧ step t a t' ∧ Run step t' (as.drop (i + 1)) u := by
  obtain ⟨hlt, rfl⟩ := List.getElem?_eq_some_iff.mp ha
  have hsplit : as = as.take i ++ as[i] :: as.drop (i + 1) := by
    rw [List.getElem_cons_drop, List.take_append_drop]
  rw [hsplit] at h
  obtain ⟨t, h₁, h₂⟩ := split h
  cases h₂ with
  | cons hs hr => exact ⟨t, _, h₁, hs, hr⟩

variable {I F : σ → Prop}

/--
The general rule. `C` restricts the labels a run may take, `I` is kept by every
permitted step, and each permitted step establishes `P` of its label.
-/
theorem labels {C P : ι → Prop} (hstep : ∀ s a t, I s → C a → step s a t → I t ∧ P a)
    (h : Run step s as t) (hs : I s) (hc : ∀ a ∈ as, C a) : I t ∧ ∀ a ∈ as, P a := by
  induction h with
  | nil _ => exact ⟨hs, by simp⟩
  | @cons s t u a as hst _ ih =>
    obtain ⟨ht, hp⟩ := hstep s a t hs (hc a (by simp)) hst
    obtain ⟨hu, hps⟩ := ih ht (fun b hb => hc b (List.mem_cons_of_mem _ hb))
    refine ⟨hu, ?_⟩
    intro b hb
    rcases List.mem_cons.mp hb with rfl | hb
    · exact hp
    · exact hps b hb

/-- A run of steps that are also steps of another relation. -/
theorem mono {step' : σ → ι → σ → Prop} (hs : ∀ s a t, step s a t → step' s a t)
    (h : Run step s as t) : Run step' s as t := by
  induction h with
  | nil s => exact .nil s
  | cons hst _ ih => exact .cons (hs _ _ _ hst) ih

/-- What every step keeps, every run keeps. -/
@[elab_as_elim]
theorem invariant (hstep : ∀ s a t, I s → step s a t → I t) (h : Run step s as t) (hs : I s) :
    I t :=
  (labels (C := fun _ => True) (P := fun _ => True)
    (fun s a t hi _ hst => ⟨hstep s a t hi hst, trivial⟩) h hs (fun _ _ => trivial)).1

/-- Induction from the start of a run, with the labels taken so far in view. -/
@[elab_as_elim]
theorem history {P : List ι → σ → Prop} (hnil : P [] s)
    (hsnoc : ∀ as t a u, Run step s as t → P as t → step t a u → P (as ++ [a]) u)
    (h : Run step s as t) : P as t := by
  induction as using List.reverseRecOn generalizing t with
  | nil =>
    cases h
    exact hnil
  | append_singleton as a ih =>
    obtain ⟨m, h₁, hs⟩ := unsnoc h
    exact hsnoc as m a t h₁ (ih h₁) hs

/-- The run passed through a state with this property. -/
def Past (step : σ → ι → σ → Prop) (s : σ) (as : List ι) (t : σ) (F : σ → Prop) : Prop :=
  ∃ before after v, as = before ++ after ∧ Run step s before v ∧ Run step v after t ∧ F v

theorem Past.now (h : Run step s as t) (ht : F t) : Past step s as t F :=
  ⟨as, [], t, (List.append_nil as).symm, h, .nil t, ht⟩

theorem Past.snoc (h : Past step s as t F) (hs : step t a u) : Past step s (as ++ [a]) u F := by
  obtain ⟨b, after, v, rfl, hb, ha, hv⟩ := h
  exact ⟨b, after ++ [a], v, List.append_assoc _ _ _, hb, ha.snoc hs, hv⟩

theorem Past.mono {G : σ → Prop} (h : Past step s as t F)
    (hF : ∀ b after v, as = b ++ after → Run step s b v → Run step v after t →
      F v → G v) : Past step s as t G := by
  obtain ⟨b, after, v, has, hb, ha, hv⟩ := h
  exact ⟨b, after, v, has, hb, ha, hF b after v has hb ha hv⟩

end Run

end Runs

end WealdRelay.Lib
