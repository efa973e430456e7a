import Chevalier.Foundations.Table

/-!
# Transactions of a key-value store

A transaction compares keys of the store with what it expects there and, if every comparison holds,
performs its operations; if not, it changes nothing. It takes effect at one moment.
-/

namespace Chevalier.KeyValue

open List

variable {κ ν : Type*} [DecidableEq κ]

/-- What a transaction expects under a key. -/
inductive Compare (κ ν : Type*)
  /-- The key has this value. -/
  | value (key : κ) (value : ν)
  /-- The key has no value. -/
  | absent (key : κ)
deriving DecidableEq

/-- An operation of a transaction. -/
inductive Op (κ ν : Type*)
  | put (key : κ) (value : ν)
  | delete (key : κ)
deriving DecidableEq

/-- Comparisons, and the operations to perform if they hold. -/
structure Txn (κ ν : Type*) where
  compares : List (Compare κ ν)
  operations : List (Op κ ν)
deriving DecidableEq

variable {store s : Table κ ν}

def Compare.Holds (store : Table κ ν) : Compare κ ν → Prop
  | .value key expected => store.get key = some expected
  | .absent key => store.get key = none

instance [DecidableEq ν] (compare : Compare κ ν) : Decidable (compare.Holds store) :=
  match compare with
  | .value key expected => inferInstanceAs (Decidable (store.get key = some expected))
  | .absent key => inferInstanceAs (Decidable (store.get key = none))

/-- The store after an operation. -/
def Op.apply (store : Table κ ν) : Op κ ν → Table κ ν
  | .put key value => store.set key value
  | .delete key => store.delete fun other _ => other = key

/-- The transaction may go through. -/
def Txn.Succeeds (txn : Txn κ ν) (store : Table κ ν) : Prop :=
  ∀ compare ∈ txn.compares, compare.Holds store

instance [DecidableEq ν] (txn : Txn κ ν) : Decidable (txn.Succeeds store) :=
  inferInstanceAs (Decidable (∀ compare ∈ txn.compares, compare.Holds store))

/-- The store after the operations of a transaction that goes through. -/
def Txn.apply (txn : Txn κ ν) (store : Table κ ν) : Table κ ν :=
  txn.operations.foldl Op.apply store

/-! ## What operations leave under a key -/

section

variable {ops : List (Op κ ν)} {k : κ}

/-- The key that an operation writes. -/
def Op.key : Op κ ν → κ
  | .put key _ | .delete key => key

theorem get_apply_of_ne {op : Op κ ν} (h : op.key ≠ k) : (op.apply s).get k = s.get k := by
  cases op with
  | put => exact Table.get_set_of_ne (Ne.symm h)
  | delete key =>
    have hne : k ≠ key := Ne.symm h
    cases hg : s.get k <;> simp [Op.apply, hg, hne]

theorem get_apply_delete : ((Op.delete k).apply s).get k = none := by
  simp [Op.apply]

/-- A key that is not written keeps its value. -/
theorem get_foldl_of_ne (h : ∀ op ∈ ops, op.key ≠ k) :
    (ops.foldl Op.apply s).get k = s.get k := by
  induction ops generalizing s with
  | nil => rfl
  | cons op _ ih =>
    rw [foldl_cons, ih fun other ho => h other (mem_cons_of_mem _ ho),
      get_apply_of_ne (h op mem_cons_self)]

/-- A key that is only deleted has no value afterwards. -/
theorem get_foldl_of_delete (hmem : .delete k ∈ ops) (h : ∀ v, .put k v ∉ ops) :
    (ops.foldl Op.apply s).get k = none := by
  induction ops generalizing s with
  | nil => exact absurd hmem not_mem_nil
  | cons op ops ih =>
    have hr : ∀ v, .put k v ∉ ops := fun v hv =>
      h v (mem_cons_of_mem _ hv)
    by_cases hl : .delete k ∈ ops
    · exact ih hl hr
    · obtain rfl : op = .delete k := ((List.mem_cons.1 hmem).resolve_right hl).symm
      rw [foldl_cons, get_foldl_of_ne, get_apply_delete]
      rintro (⟨key, v⟩ | key) hop rfl
      · exact hr v hop
      · exact hl hop

/-- A key that is written and not deleted has one of the values written. -/
theorem get_foldl_of_put {v : ν} (hmem : .put k v ∈ ops) (h : .delete k ∉ ops) :
    ∃ last, .put k last ∈ ops ∧ (ops.foldl Op.apply s).get k = some last := by
  induction ops generalizing s v with
  | nil => exact absurd hmem not_mem_nil
  | cons op ops ih =>
    have hr : .delete k ∉ ops := fun hd => h (mem_cons_of_mem _ hd)
    by_cases hl : ∃ o, .put k o ∈ ops
    · obtain ⟨o, ho⟩ := hl
      obtain ⟨last, hla, hg⟩ : ∃ last, .put k last ∈ ops ∧
          (ops.foldl Op.apply (op.apply s)).get k = some last := ih ho hr
      exact ⟨last, mem_cons_of_mem _ hla, hg⟩
    · rw [not_exists] at hl
      obtain rfl : op = .put k v :=
        ((List.mem_cons.1 hmem).resolve_right (hl v)).symm
      refine ⟨v, mem_cons_self, ?_⟩
      rw [foldl_cons, get_foldl_of_ne]
      · exact Table.get_set_self
      · rintro (⟨key, o⟩ | key) hop rfl
        · exact hl o hop
        · exact hr hop

end

end Chevalier.KeyValue
