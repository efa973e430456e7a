import Mathlib

/-!
# Folds that may fail

A reader of a log folds a step that may fail over a list. The rules below take a successful fold
apart at any point of the list, and carry an invariant or a simulation along it.
-/

namespace Chevalier.Fold

open List

universe u

variable {ε α : Type*} {σ τ : Type u}

theorem bind_eq_ok {x : Except ε σ} {f : σ → Except ε τ} {t : τ} :
    (x >>= f) = .ok t ↔ ∃ s, x = .ok s ∧ f s = .ok t := by
  cases x with
  | error | ok => simp [bind, Except.bind]

theorem pure_eq_ok {s t : σ} : (pure s : Except ε σ) = .ok t ↔ s = t := by
  simp [pure, Except.pure]

theorem bind_pure_eq_ok {x : Except ε σ} {f : σ → τ} {t : τ} :
    (x >>= fun s => pure (f s)) = .ok t ↔ ∃ s, x = .ok s ∧ f s = t := by
  simp only [bind_eq_ok, pure_eq_ok]

/-- A check before the rest of a computation. -/
theorem checked_eq_ok {β : Type} {c : Prop} [Decidable c] {e : ε} {k : Unit → Except ε β} {b : β} :
    (if c then throw e >>= k else k ()) = .ok b ↔ ¬ c ∧ k () = .ok b := by
  split_ifs with h
  · simp [h, throw, throwThe, MonadExceptOf.throw, bind, Except.bind]
  · simp [h]

theorem toOption_eq_some {x : Except ε α} {a : α} : x.toOption = some a ↔ x = .ok a := by
  cases x <;> simp [Except.toOption]

/-- A loop of checks succeeds if every check does. -/
theorem forIn_check_eq_ok {c : α → Except ε PUnit} {l : List α} :
    (forIn l PUnit.unit fun a _ => do
      c a
      pure (ForInStep.yield PUnit.unit) : Except ε PUnit) = .ok PUnit.unit ↔
      ∀ a ∈ l, c a = .ok PUnit.unit := by
  induction l with
  | nil => exact ⟨(nofun), fun _ => rfl⟩
  | cons head _ ih =>
    rw [forIn_cons, forall_mem_cons, ← ih]
    cases hh : c head with
    | error => exact ⟨(nofun), (fun hall => nomatch hall.1)⟩
    | ok => exact ⟨fun hall => ⟨rfl, hall⟩, fun hall => hall.2⟩

variable {f : σ → α → Except ε σ} {s t : σ} {l l' : List α}

theorem foldlM_append_ok : (l ++ l').foldlM f s = .ok t ↔
    ∃ u, l.foldlM f s = .ok u ∧ l'.foldlM f u = .ok t := by
  rw [foldlM_append, bind_eq_ok]

theorem foldlM_concat_ok {a : α} : (l ++ [a]).foldlM f s = .ok t ↔
    ∃ u, l.foldlM f s = .ok u ∧ f u a = .ok t := by
  simp only [foldlM_append_ok, foldlM_cons, foldlM_nil, bind_pure]

/-- A loop whose rounds keep an invariant and lower a measure, or return, returns in some round. -/
theorem exists_return {ω : Type*} {run : Nat → Except ω σ} {r : Nat → σ → Except ω σ}
    (hrun : ∀ n, run (n + 1) = run n >>= r n) {P : σ → Prop} {Q : σ → ω → Prop}
    (m : σ → Nat)
    (hr : ∀ n s, P s → (∃ t, r n s = .ok t ∧ P t ∧ m t < m s) ∨ ∃ o, r n s = .error o ∧ Q s o)
    {n : Nat} {s : σ} (hn : run n = .ok s) (hs : P s) :
    ∃ n s o, run n = .ok s ∧ r n s = .error o ∧ Q s o := by
  induction hm : m s using Nat.strong_induction_on generalizing s n with
  | _ _ ih =>
    subst hm
    rcases hr n s hs with ⟨t, hst, ht, hlt⟩ | ⟨o, hst, ho⟩
    · exact ih (m t) hlt (by rw [hrun, hn]; exact hst) ht rfl
    · exact ⟨n, s, o, hn, hst, ho⟩

/-- What holds of every result holds of the result. -/
theorem holds_of_ok {ε α : Type} {r : Except ε α} {P : α → Prop} [DecidablePred P]
    (hall : r.toOption.all (fun a => decide (P a)) = true) {a : α} (h : r = .ok a) :
    P a := by
  subst h
  exact of_decide_eq_true hall

end Chevalier.Fold
