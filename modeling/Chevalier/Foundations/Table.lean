import Mathlib

/-!
# Tables

A table holds rows under distinct keys. A row is read by its key (`get`), written under a key
(`set`), and the rows that satisfy a condition are listed (`select`), counted (`count`), changed
(`modify`) or deleted (`delete`). Each operation is known by what `get` returns afterwards.
-/

namespace Chevalier

open List

/-- Under distinct keys, an item is found by its key. -/
theorem find?_key {α κ : Type*} [DecidableEq κ] (key : α → κ) {l : List α} {a : α}
    (hu : (l.map key).Nodup) (ha : a ∈ l) :
    (l.find? fun b => decide (key b = key a)) = some a := by
  induction l with
  | nil => simp at ha
  | cons b _ ih =>
    rw [map_cons, nodup_cons] at hu
    rcases List.mem_cons.1 ha with rfl | ha
    · simp
    · have hne : key b ≠ key a := fun h => hu.1 (h ▸ mem_map_of_mem ha)
      simpa [hne] using ih hu.2 ha

/-- Rows under distinct keys. -/
structure Table (κ ρ : Type*) where
  rows : List (κ × ρ)
  unique : (rows.map Prod.fst).Nodup

namespace Table

variable {κ ρ : Type*} [DecidableEq κ] {t : Table κ ρ} {k k' : κ} {r : ρ}

/-- The table with no row. -/
def empty : Table κ ρ := ⟨[], List.nodup_nil⟩

/-- The row under a key. -/
def get (t : Table κ ρ) (k : κ) : Option ρ :=
  (t.rows.find? fun row => row.1 = k).map Prod.snd

theorem mem_rows_iff : (k, r) ∈ t.rows ↔ t.get k = some r := by
  obtain ⟨rows, hu⟩ := t
  simp only [get]
  induction rows with
  | nil => simp
  | cons row rows ih =>
    obtain ⟨k₀, _⟩ := row
    simp only [map_cons, nodup_cons] at hu
    by_cases hk : k₀ = k
    · subst hk
      have ha : (k₀, r) ∉ rows := fun h => hu.1 (mem_map_of_mem h)
      simp [ha, eq_comm]
    · simpa [hk, Ne.symm hk] using ih hu.2

theorem forall_get_of_rows {P : κ → ρ → Prop} (h : ∀ row ∈ t.rows, P row.1 row.2) {k : κ} {r : ρ}
    (hg : t.get k = some r) : P k r :=
  h (k, r) (mem_rows_iff.2 hg)

@[simp] theorem get_empty : (empty : Table κ ρ).get k = none := rfl

/-! ## Writing -/

/-- The row under a key is replaced, or added. -/
def set (t : Table κ ρ) (k : κ) (r : ρ) : Table κ ρ where
  rows := (k, r) :: t.rows.filter fun row => row.1 ≠ k
  unique := by
    rw [List.map_cons, List.nodup_cons]
    refine ⟨?_, t.unique.sublist (List.filter_sublist.map _)⟩
    simp

theorem rows_set : (t.set k r).rows = (k, r) :: t.rows.filter fun row => row.1 ≠ k := rfl

theorem get_set : (t.set k r).get k' = if k' = k then some r else t.get k' := by
  ext r'
  rw [← mem_rows_iff]
  split
  · next h => subst h; simp [set, eq_comm]
  · next h => simp [set, h, mem_rows_iff]

@[simp] theorem get_set_self : (t.set k r).get k = some r := by simp [get_set]

theorem get_set_of_ne (h : k' ≠ k) : (t.set k r).get k' = t.get k' := by simp [get_set, h]

/-- Several rows are written, in turn. -/
def setAll (t : Table κ ρ) : List (κ × ρ) → Table κ ρ
  | [] => t
  | row :: rows => (t.set row.1 row.2).setAll rows

theorem get_setAll_of_notMem {rows : List (κ × ρ)} (h : k ∉ rows.map Prod.fst) :
    (t.setAll rows).get k = t.get k := by
  induction rows generalizing t with
  | nil => rfl
  | cons _ _ ih =>
    rw [map_cons, mem_cons, not_or] at h
    rw [setAll, ih h.2, get_set_of_ne h.1]

theorem get_setAll_of_mem {rows : List (κ × ρ)} (hu : (rows.map Prod.fst).Nodup)
    (h : (k, r) ∈ rows) : (t.setAll rows).get k = some r := by
  induction rows generalizing t with
  | nil => simp at h
  | cons _ _ ih =>
    rw [map_cons, nodup_cons] at hu
    rcases List.mem_cons.1 h with rfl | h
    · rw [setAll, get_setAll_of_notMem hu.1, get_set_self]
    · exact ih hu.2 h

/-! ## Changing and deleting the rows of a condition -/

/-- Every row is replaced by what `f` makes of it. -/
def modify (t : Table κ ρ) (f : κ → ρ → ρ) : Table κ ρ where
  rows := t.rows.map fun row => (row.1, f row.1 row.2)
  unique := by simpa [Function.comp_def] using t.unique

@[simp] theorem get_modify {f : κ → ρ → ρ} : (t.modify f).get k = (t.get k).map (f k) := by
  ext r'
  rw [← mem_rows_iff, Option.map_eq_some_iff]
  simp only [modify, mem_map, Prod.mk.injEq, Prod.exists, ← mem_rows_iff]
  constructor
  · rintro ⟨_, r₀, hmem, rfl, rfl⟩
    exact ⟨r₀, hmem, rfl⟩
  · rintro ⟨r₀, hmem, rfl⟩
    exact ⟨k, r₀, hmem, rfl, rfl⟩

/-- The rows that satisfy `p` are deleted. -/
def delete (t : Table κ ρ) (p : κ → ρ → Bool) : Table κ ρ where
  rows := t.rows.filter fun row => !p row.1 row.2
  unique := t.unique.sublist (List.filter_sublist.map _)

variable {p : κ → ρ → Bool}

@[simp] theorem get_delete :
    (t.delete p).get k = (t.get k).filter fun r => !p k r := by
  ext r'
  rw [← mem_rows_iff, Option.filter_eq_some_iff, ← mem_rows_iff]
  simp [delete]

/-! ## Listing and counting -/

/-- The keys of the rows that satisfy `p`. -/
def select (t : Table κ ρ) (p : κ → ρ → Bool) : List κ :=
  (t.rows.filter fun row => p row.1 row.2).map Prod.fst

theorem mem_select : k ∈ t.select p ↔ ∃ r, t.get k = some r ∧ p k r = true := by
  simp [select, mem_rows_iff]

omit [DecidableEq κ] in
theorem nodup_select : (t.select p).Nodup :=
  t.unique.sublist (List.filter_sublist.map _)

/-- The number of rows that satisfy `p`. -/
def count (t : Table κ ρ) (p : κ → ρ → Bool) : Nat := (t.select p).length

omit [DecidableEq κ] in
theorem count_eq_countP : t.count p = t.rows.countP fun row => p row.1 row.2 := by
  rw [count, select, length_map, countP_eq_length_filter]

/-- A row that is written is counted at most once more. -/
theorem count_set_le : (t.set k r).count p ≤ t.count p + (p k r).toNat := by
  rw [count_eq_countP, count_eq_countP, rows_set, countP_cons]
  have hle := List.Sublist.countP_le (p := fun row : κ × ρ => p row.1 row.2)
    (filter_sublist (p := fun row : κ × ρ => decide (row.1 ≠ k)) (l := t.rows))
  cases p k r <;> simp only [Bool.toNat_false, Bool.toNat_true, if_true, Bool.false_eq_true,
    if_false] <;> omega

/-- A new row is counted. -/
theorem count_set_of_get_eq_none (h : t.get k = none) :
    (t.set k r).count p = t.count p + (p k r).toNat := by
  have ho : t.rows.filter (fun row => decide (row.1 ≠ k)) = t.rows := by
    refine List.filter_eq_self.2 fun row hr => decide_eq_true ?_
    rintro rfl
    cases h.symm.trans (mem_rows_iff.1 hr)
  rw [count_eq_countP, count_eq_countP, rows_set, ho, countP_cons]
  cases p k r <;> rfl

omit [DecidableEq κ] in
theorem count_delete_le {q : κ → ρ → Bool} : (t.delete q).count p ≤ t.count p := by
  rw [count_eq_countP, count_eq_countP]
  exact List.Sublist.countP_le filter_sublist

end Table

end Chevalier
