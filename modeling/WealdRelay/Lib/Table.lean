import Mathlib.Algebra.BigOperators.Group.List.Basic
import Mathlib.Data.List.Nodup

/-!
# Tables with a key

A table is the list of its rows, in insertion order, and one of its columns is the key.
`lookup` is a select by key, `modify` an update by key, `put` writes a row under its own
key and `remove` deletes by key. The lemmas say what a select finds after each of them,
that an update keeps the keys, and how each changes a count or a sum over the rows.
`newest` is the first row of an `order by … desc`.
-/

namespace WealdRelay.Lib.Table

open List

universe u v

variable {α : Type u} {κ : Type v} [DecidableEq κ] (key : α → κ)

/-- The row under a key. -/
def lookup (rows : List α) (k : κ) : Option α := rows.find? (fun row => key row = k)

/-- Update the rows under a key. -/
def modify (rows : List α) (k : κ) (f : α → α) : List α :=
  rows.map (fun row => if key row = k then f row else row)

variable {key} {rows : List α} {k k' : κ} {f : α → α} {row : α}

theorem mem_of_lookup (h : lookup key rows k = some row) : row ∈ rows :=
  mem_of_find?_eq_some h

theorem key_of_lookup (h : lookup key rows k = some row) : key row = k := by
  simpa using find?_some h

theorem ne_of_lookup_eq_none (h : lookup key rows k = none) (hrow : row ∈ rows) : key row ≠ k := by
  simpa using find?_eq_none.mp h row hrow

theorem lookup_isSome_of_mem (hrow : row ∈ rows) (hkey : key row = k) :
    ∃ found, lookup key rows k = some found := by
  cases h : lookup key rows k with
  | none => exact absurd hkey (ne_of_lookup_eq_none h hrow)
  | some found => exact ⟨found, rfl⟩

/-- Under distinct keys a select finds the one row there is. -/
theorem lookup_of_mem (hnd : (rows.map key).Nodup) (hrow : row ∈ rows)
    (hkey : key row = k) : lookup key rows k = some row := by
  obtain ⟨found, hf⟩ := lookup_isSome_of_mem hrow hkey
  have heq : key found = key row := (key_of_lookup hf).trans hkey.symm
  rw [hf, inj_on_of_nodup_map hnd (mem_of_lookup hf) hrow heq]

variable (hf : ∀ row, key (f row) = key row)
include hf

/-- An update of every row that keeps the keys is an update of the row that is found. -/
theorem lookup_map : lookup key (rows.map f) k = (lookup key rows k).map f := by
  rw [lookup, find?_map]
  refine congrArg (Option.map f) (congrArg (find? · rows) (funext fun row => ?_))
  show decide (key (f row) = k) = _
  rw [hf]

theorem lookup_modify : lookup key (modify key rows k f) k' =
      (lookup key rows k').map (fun row => if k' = k then f row else row) := by
  have hmap : ∀ row, key (if key row = k then f row else row) = key row := by
    intro row
    split
    · exact hf row
    · rfl
  rw [modify, lookup_map hmap]
  cases hfound : lookup key rows k' with
  | none => rfl
  | some row => simp [key_of_lookup hfound]

theorem lookup_modify_self : lookup key (modify key rows k f) k = (lookup key rows k).map f := by
  simp [lookup_modify hf]

theorem lookup_modify_of_ne (hne : k' ≠ k) :
    lookup key (modify key rows k f) k' = lookup key rows k' := by
  simp [lookup_modify hf, hne]

omit hf in
theorem lookup_append (rows more : List α) (k : κ) :
    lookup key (rows ++ more) k = (lookup key rows k).or (lookup key more k) :=
  find?_append

omit hf

/-- A new row under a key that had none is what a select finds. -/
theorem lookup_snoc_self (h : lookup key rows k = none) (hkey : key row = k) :
    lookup key (rows ++ [row]) k = some row := by
  rw [lookup_append, h]
  simp [lookup, hkey]

theorem lookup_snoc_of_ne (hne : key row ≠ k) :
    lookup key (rows ++ [row]) k = lookup key rows k := by
  rw [lookup_append]
  simp [lookup, hne]

section Columns

variable {γ : Type*} {g : α → γ} (hg : ∀ row, g (f row) = g row)
include hg

/-- A column that an update leaves alone. -/
theorem map_modify : (modify key rows k f).map g = rows.map g := by
  simp only [modify, map_map]
  refine map_congr_left fun row _ => ?_
  by_cases h : key row = k
  · simp [h, hg]
  · simp [h]

theorem nodup_map_modify (h : (rows.map g).Nodup) : ((modify key rows k f).map g).Nodup := by
  rwa [map_modify hg]

omit [DecidableEq κ] hg in
theorem nodup_map_snoc (h : (rows.map g).Nodup) (hnew : ∀ x ∈ rows, g x ≠ g row) :
    ((rows ++ [row]).map g).Nodup := by
  rw [map_append]
  exact .append h (nodup_singleton _) (by simpa using hnew)

end Columns

theorem mem_modify {row : α} : row ∈ modify key rows k f ↔
      ∃ old ∈ rows, row = if key old = k then f old else old := by
  simp [modify, eq_comm]

theorem forall_mem_modify {P : α → Prop} (h : ∀ row ∈ rows, P row)
    (hf : ∀ row ∈ rows, key row = k → P (f row)) : ∀ row ∈ modify key rows k f, P row := by
  intro row hrow
  obtain ⟨old, hold, rfl⟩ := mem_modify.mp hrow
  split
  next hkey => exact hf old hold hkey
  · exact h old hold

variable {old : α} (p : α → Bool)

/-- Counting rows is unchanged by an update that does not change whether they count. -/
theorem countP_modify_of_eq (hp : ∀ row ∈ rows, key row = k → p (f row) = p row) :
    (modify key rows k f).countP p = rows.countP p := by
  rw [modify, countP_map]
  refine countP_congr fun row hrow => ?_
  by_cases h : key row = k
  · simp [h, hp row hrow h]
  · simp [h]

/-- A selection is unchanged by a change of rows outside it that stay outside it. -/
theorem filter_map_of_fixed {p : α → Bool} {g : α → α}
    (h : ∀ row ∈ rows, p (g row) = p row ∧ (p row = true → g row = row)) :
    (rows.map g).filter p = rows.filter p := by
  induction rows with
  | nil => rfl
  | cons row rows ih =>
    have hr := ih (fun x ho => h x (mem_cons_of_mem _ ho))
    obtain ⟨heq, hfixed⟩ := h row mem_cons_self
    cases hrow : p row with
    | false => simpa [heq, hrow] using hr
    | true => simpa [heq, hrow, hfixed hrow] using hr

theorem modify_of_forall_ne (h : ∀ row ∈ rows, key row ≠ k) : modify key rows k f = rows := by
  have heq : rows.map (fun row => if key row = k then f row else row) = rows.map id :=
    map_congr_left (fun row hrow => if_neg (h row hrow))
  rw [modify, heq, map_id]

omit [DecidableEq κ] in
/-- The one row under a key, between the others. -/
theorem exists_split (hnd : (rows.map key).Nodup) (hrow : row ∈ rows) :
    ∃ a b, rows = a ++ row :: b ∧ ∀ x ∈ a ++ b, key x ≠ key row := by
  obtain ⟨a, b, rfl⟩ := append_of_mem hrow
  refine ⟨a, b, rfl, fun x ho heq => ?_⟩
  have hfirst : ((row :: (a ++ b)).map key).Nodup := (perm_middle.map key).nodup_iff.mp hnd
  exact (nodup_cons.mp hfirst).1 (heq ▸ mem_map_of_mem ho)

theorem exists_modify_eq (hnd : (rows.map key).Nodup) (hrow : row ∈ rows) (f : α → α) :
    ∃ a b, rows = a ++ row :: b ∧ modify key rows (key row) f = a ++ f row :: b := by
  obtain ⟨a, b, rfl, hne⟩ := exists_split hnd hrow
  obtain ⟨ha, hb⟩ := forall_mem_append.mp hne
  refine ⟨a, b, rfl, ?_⟩
  rw [modify, map_append, map_cons, if_pos rfl]
  exact congrArg₂ (· ++ f row :: ·) (modify_of_forall_ne ha) (modify_of_forall_ne hb)

/-- An update that makes the one row under a key count adds one. -/
theorem countP_modify_succ (hnd : (rows.map key).Nodup) (hrow : row ∈ rows)
    (hkey : key row = k) (hold : p row = false) (hnew : p (f row) = true) :
    (modify key rows k f).countP p = rows.countP p + 1 := by
  obtain ⟨a, b, hrows, ha⟩ := exists_modify_eq hnd hrow f
  rw [← hkey, ha, hrows]
  simp [hold, hnew, add_assoc]

/-- An update that makes the one row under a key stop counting takes one away. -/
theorem countP_modify_pred (hnd : (rows.map key).Nodup) (hrow : row ∈ rows)
    (hkey : key row = k) (hold : p row = true) (hnew : p (f row) = false) :
    (modify key rows k f).countP p + 1 = rows.countP p := by
  have hn := countP_modify_succ (decide ¬ p · = true) hnd hrow hkey
    (f := f) (by simp [hold]) (by simp [hnew])
  have hlen : (modify key rows k f).length = rows.length := by simp [modify]
  have ha := length_eq_countP_add_countP p (l := modify key rows k f)
  have hb := length_eq_countP_add_countP p (l := rows)
  omega

/-! ## Writing and deleting one row -/

variable (key) in
/-- Write a row in place of the one under its key. -/
def put (rows : List α) (row : α) : List α := modify key rows (key row) (fun _ => row)

variable (key) in
/-- Delete the rows under a key. -/
def remove (rows : List α) (k : κ) : List α := rows.filter (fun row => key row ≠ k)

theorem map_key_put (row : α) : (put key rows row).map key = rows.map key := by
  simp only [put, modify, map_map]
  refine map_congr_left fun old _ => ?_
  by_cases h : key old = key row
  · simp [h]
  · simp [h]

theorem mem_put : old ∈ put key rows row → old = row ∨ old ∈ rows := by
  intro h
  obtain ⟨b, hb, rfl⟩ := mem_modify.mp h
  split
  · exact .inl rfl
  · exact .inr hb

theorem mem_remove : old ∈ remove key rows k ↔ old ∈ rows ∧ key old ≠ k := by
  simp [remove]

theorem lookup_put (row : α) : lookup key (put key rows row) k =
      (lookup key rows k).map (fun old => if k = key row then row else old) := by
  have hmap : ∀ old, key (if key old = key row then row else old) = key old := by
    intro old
    split
    next h => exact h.symm
    · rfl
  rw [put, modify, lookup_map hmap]
  cases hf : lookup key rows k with
  | none => rfl
  | some old => simp [key_of_lookup hf]

theorem lookup_remove (k k' : κ) :
    lookup key (remove key rows k) k' = if k' = k then none else lookup key rows k' := by
  rw [lookup, remove, find?_filter]
  split_ifs with h
  · subst h
    simp
  · refine congrArg (rows.find? ·) (funext fun row => ?_)
    by_cases hrow : key row = k'
    · simp [hrow, h]
    · simp [hrow]

/-- Among distinct keys, a deletion leaves the row of a key or takes it. -/
theorem lookup_filter (hnd : (rows.map key).Nodup) (p : α → Bool) (k : κ) :
    lookup key (rows.filter p) k = (lookup key rows k).filter p := by
  cases hf : lookup key rows k with
  | none =>
    cases hleft : lookup key (rows.filter p) k with
    | none => rfl
    | some row =>
      exact absurd (key_of_lookup hleft)
        (ne_of_lookup_eq_none hf (mem_of_mem_filter (mem_of_lookup hleft)))
  | some row =>
    have hkeys : ((rows.filter p).map key).Nodup := hnd.sublist (filter_sublist.map key)
    cases hrow : p row with
    | true =>
      have hmem : row ∈ rows.filter p := mem_filter.mpr ⟨mem_of_lookup hf, hrow⟩
      simp [lookup_of_mem hkeys hmem (key_of_lookup hf), Option.filter, hrow]
    | false =>
      cases hleft : lookup key (rows.filter p) k with
      | none => simp [Option.filter, hrow]
      | some x =>
        have ho := mem_filter.mp (mem_of_lookup hleft)
        have heq := lookup_of_mem hnd ho.1 (key_of_lookup hleft)
        rw [hf] at heq
        cases heq
        rw [hrow] at ho
        cases ho.2

theorem nodup_remove (h : (rows.map key).Nodup) : ((remove key rows k).map key).Nodup :=
  h.sublist (filter_sublist.map key)

section Sums

variable {M : Type*} [AddCommMonoid M] (weight : α → M)

theorem sum_put {old : α} (hnd : (rows.map key).Nodup) (hold : old ∈ rows)
    (hkey : key old = key row) :
    ((put key rows row).map weight).sum + weight old = (rows.map weight).sum + weight row := by
  obtain ⟨a, b, hrows, ha⟩ := exists_modify_eq hnd hold (fun _ => row)
  rw [put, ← hkey, ha, hrows]
  simp only [map_append, map_cons, sum_append, sum_cons]
  ac_rfl

theorem sum_remove (hnd : (rows.map key).Nodup) (hrow : row ∈ rows) :
    ((remove key rows (key row)).map weight).sum + weight row = (rows.map weight).sum := by
  obtain ⟨a, b, rfl, hne⟩ := exists_split hnd hrow
  have ha : remove key (a ++ row :: b) (key row) = a ++ b := by
    rw [remove, filter_append, filter_cons_of_neg (by simp), ← filter_append]
    exact filter_eq_self.mpr fun x ho => decide_eq_true (hne x ho)
  rw [ha]
  simp only [map_append, map_cons, sum_append, sum_cons]
  ac_rfl

end Sums

/-! ## The newest row -/

section Newest

variable {rank : α → Nat} {best : α}

variable (rank) in
/-- `order by … desc limit 1`. -/
def newest : List α → Option α
  | [] => none
  | row :: rows =>
    match newest rows with
    | none => some row
    | some best => if rank best < rank row then some row else some best

theorem newest_eq_none : newest rank rows = none ↔ rows = [] := by
  cases rows with
  | nil => simp [newest]
  | cons row rows =>
    simp only [newest, reduceCtorEq, iff_false]
    split
    · simp
    · split <;> simp

theorem newest_append (hlt : ∀ row ∈ rows, rank row < rank best) :
    newest rank (rows ++ [best]) = some best := by
  induction rows with
  | nil => rfl
  | cons row rows ih =>
    have hrow := hlt row mem_cons_self
    rw [cons_append, newest, ih (fun x ho => hlt x (mem_cons_of_mem row ho))]
    exact if_neg (by omega)

theorem le_newest (h : newest rank rows = some best) (hrow : row ∈ rows) :
    rank row ≤ rank best := by
  induction rows generalizing best with
  | nil => cases hrow
  | cons first rows ih =>
    rw [newest] at h
    split at h
    next hnone =>
      cases h
      rw [newest_eq_none.mp hnone, mem_singleton] at hrow
      exact Nat.le_of_eq (congrArg rank hrow)
    next x ho =>
      rcases mem_cons.mp hrow with rfl | hr
      · split at h
        · cases h
          exact Nat.le_refl _
        · cases h
          omega
      · have hle := ih ho hr
        split at h
        · cases h
          omega
        · cases h
          exact hle

end Newest

end WealdRelay.Lib.Table
