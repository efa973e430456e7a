import Mathlib

/-!
# Records addressed by place

A list of records that are known by their place. A record is replaced by `List.set`, and added at
the end by an append; what stands at a place afterwards is what stood there, or the record that was
written.
-/

namespace Chevalier

open List

variable {α : Type*} {l m : List α} {x y : α} {i j : Nat}

theorem mem_concat : y ∈ l ++ [x] ↔ y ∈ l ∨ y = x := by
  rw [mem_append, mem_singleton]

theorem lt_of_getElem? (h : l[i]? = some x) : i < l.length := (List.getElem?_eq_some_iff.1 h).1

/-- The record that is replaced. -/
theorem getElem?_set_of_some (h : l[i]? = some y) : (l.set i x)[i]? = some x :=
  getElem?_set_self (lt_of_getElem? h)

/-- After a record is replaced: its place, or another one that is as it was. -/
theorem getElem?_set_cases (h : (l.set i x)[j]? = some y) :
    j = i ∧ y = x ∨ j ≠ i ∧ l[j]? = some y := by
  by_cases hij : j = i
  · subst hij
    have hlt := lt_of_getElem? h
    rw [length_set] at hlt
    rw [getElem?_set_self hlt] at h
    exact .inl ⟨rfl, (Option.some.inj h).symm⟩
  · rw [getElem?_set_ne (Ne.symm hij)] at h
    exact .inr ⟨hij, h⟩

/-- The records that were there keep their places. -/
theorem getElem?_append_of_some (h : l[i]? = some x) : (l ++ m)[i]? = some x :=
  (getElem?_append_left (lt_of_getElem? h)).trans h

/-- After a record is added: one that was there, or the new one in the last place. -/
theorem getElem?_concat_cases (h : (l ++ [x])[i]? = some y) :
    l[i]? = some y ∨ i = l.length ∧ y = x := by
  by_cases hlt : i < l.length
  · exact .inl ((getElem?_append_left hlt).symm.trans h)
  · have hle := lt_of_getElem? h
    rw [length_append, length_singleton] at hle
    obtain rfl : i = l.length := by omega
    rw [getElem?_concat_length] at h
    exact .inr ⟨rfl, (Option.some.inj h).symm⟩

/-- Paths are lists of names, and are compared as such. -/
instance lawfulBEq_names : LawfulBEq (List String) := List.instLawfulBEq

end Chevalier
