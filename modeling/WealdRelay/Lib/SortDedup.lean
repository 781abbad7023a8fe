import Mathlib.Data.List.Sort

/-!
# Sorting and deduplicating a list

The pair `sort` then `dedup` on a vector, over any linear order: insertion sort,
then the removal of an element equal to the one before it. The result is the
strictly ascending list with the members of the input (`sortDedup_pairwise`,
`mem_sortDedup`), and it depends on those members alone (`sortDedup_eq_iff`).

Sorting by a key and then keeping some of the elements reads an ascending list back
from any arrangement of it (`filter_map_sortByKey`).
-/

namespace WealdRelay.Lib

open List

universe u v

section SortDedup

variable {α : Type u} [LinearOrder α]

/-- Drop every element that equals the element before it. -/
def dedupAdjacent : List α → List α
  | [] => []
  | [x] => [x]
  | x :: y :: rest =>
    if x = y then dedupAdjacent (y :: rest)
    else x :: dedupAdjacent (y :: rest)

/-- Sort ascending, then drop repeats. -/
def sortDedup (l : List α) : List α :=
  dedupAdjacent (l.insertionSort (· ≤ ·))

theorem mem_dedupAdjacent (x : α) : ∀ l : List α, x ∈ dedupAdjacent l ↔ x ∈ l
  | [] => by simp [dedupAdjacent]
  | [y] => by simp [dedupAdjacent]
  | y :: z :: rest => by
      have ih := mem_dedupAdjacent x (z :: rest)
      by_cases h : y = z
      · subst h
        simp [dedupAdjacent, ih]
      · rw [dedupAdjacent, if_neg h, mem_cons, ih]
        exact mem_cons.symm

/-- On an ascending list the removal of repeats leaves a strictly ascending one. -/
theorem dedupAdjacent_pairwise :
    ∀ l : List α, l.Pairwise (· ≤ ·) → (dedupAdjacent l).Pairwise (· < ·)
  | [], _ => by simp [dedupAdjacent]
  | [y], _ => by simp [dedupAdjacent]
  | y :: z :: rest, h => by
      obtain ⟨hy, hr⟩ := pairwise_cons.mp h
      have ih := dedupAdjacent_pairwise (z :: rest) hr
      by_cases hyz : y = z
      · rw [dedupAdjacent, if_pos hyz]
        exact ih
      · rw [dedupAdjacent, if_neg hyz, pairwise_cons]
        refine ⟨?_, ih⟩
        intro w hw
        rw [mem_dedupAdjacent] at hw
        -- `y < z` and `z` is below everything that follows it.
        have hlt : y < z := lt_of_le_of_ne (hy z (by simp)) hyz
        rcases mem_cons.mp hw with rfl | hw
        · exact hlt
        · exact lt_of_lt_of_le hlt ((pairwise_cons.mp hr).1 w hw)

@[simp] theorem mem_sortDedup (x : α) (l : List α) : x ∈ sortDedup l ↔ x ∈ l := by
  rw [sortDedup, mem_dedupAdjacent, mem_insertionSort]

variable (l : List α)

theorem sortDedup_pairwise : (sortDedup l).Pairwise (· < ·) :=
  dedupAdjacent_pairwise _ (pairwise_insertionSort (· ≤ ·) l)

theorem sortDedup_nodup : (sortDedup l).Nodup :=
  (sortDedup_pairwise l).imp (ne_of_lt ·)

theorem length_sortDedup_le : (sortDedup l).length ≤ l.length :=
  (subperm_of_subset (sortDedup_nodup l) fun x hx => (mem_sortDedup x l).mp hx).length_le

theorem length_sortDedup_of_nodup {l : List α} (h : l.Nodup) : (sortDedup l).length = l.length :=
  ((perm_ext_iff_of_nodup (sortDedup_nodup l) h).mpr fun x => mem_sortDedup x l).length_eq

/-- Two lists sort and deduplicate to one list exactly when they share members. -/
theorem sortDedup_eq_iff (l₁ l₂ : List α) : sortDedup l₁ = sortDedup l₂ ↔ ∀ x, x ∈ l₁ ↔ x ∈ l₂ := by
  constructor
  · intro h x
    rw [← mem_sortDedup x l₁, h, mem_sortDedup]
  · intro h
    refine (sortDedup_pairwise l₁).eq_of_mem_iff (sortDedup_pairwise l₂) ?_
    intro x
    rw [mem_sortDedup, mem_sortDedup]
    exact h x

end SortDedup

section SortByKey

variable {α : Type u} {β : Type v} [LinearOrder β]

/-- Elements sorted by a key ascend in that key. -/
theorem sortByKey_pairwise (f : α → β) (l : List α) :
    (l.insertionSort (fun a b => f a ≤ f b)).Pairwise (fun a b => f a ≤ f b) := by
  have hmap : (l.insertionSort (fun a b => f a ≤ f b)).map f = (l.map f).insertionSort (· ≤ ·) :=
    map_insertionSort _ _ f l (fun _ _ _ _ => .rfl)
  rw [← pairwise_map, hmap]
  exact pairwise_insertionSort (· ≤ ·) (l.map f)

/-- The keys kept from a list sorted by key, when they are those of an ascending list. -/
theorem filter_map_sortByKey {f : α → β} {p : α → Bool} {l : List α} {target : List β}
    (hperm : ((l.filter p).map f).Perm target) (htarget : target.Pairwise (· ≤ ·)) :
    ((l.insertionSort (fun a b => f a ≤ f b)).filter p).map f = target := by
  have hsort : (((l.insertionSort (fun a b => f a ≤ f b)).filter p).map f).Pairwise (· ≤ ·) :=
    pairwise_map.mpr ((sortByKey_pairwise f l).sublist filter_sublist)
  refine List.Perm.eq_of_pairwise' hsort htarget (List.Perm.trans ?_ hperm)
  exact (((perm_insertionSort _ l).filter p).map f)

end SortByKey

end WealdRelay.Lib
