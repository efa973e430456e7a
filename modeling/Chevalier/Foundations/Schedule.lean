import Mathlib

/-!
# Schedules of partial operations

An operation is a partial function on states and a schedule is a list of operations. A schedule
`l'` *covers* a schedule `l` when every state `l` reaches, `l'` reaches too from the same start:
the order of `l'` may be used in place of the order of `l`. The rules below move an operation past
operations it commutes with, permute pairwise commuting operations, and split a schedule into the
operations chosen first and the operations left for later.

`run_invariant` is the induction over a run; `guarded` restricts a step to the states that allow it.
-/

namespace Chevalier.Schedule

variable {α σ : Type*} (step : α → σ → Option σ)

/-- Run a schedule; a failing operation fails the whole run. -/
def run : List α → σ → Option σ
  | [], s => some s
  | a :: l, s => (step a s).bind (run l)

@[simp] theorem run_nil (s : σ) : run step [] s = some s := rfl

@[simp] theorem run_cons (a : α) (l : List α) (s : σ) :
    run step (a :: l) s = (step a s).bind (run step l) := rfl

theorem run_append (l l' : List α) (s : σ) :
    run step (l ++ l') s = (run step l s).bind (run step l') := by
  induction l generalizing s with
  | nil => rfl
  | cons a _ ih => cases h : step a s <;> simp [h, ih]

/-- `l'` reaches every state that `l` reaches. -/
def Covers (l l' : List α) : Prop :=
  ∀ s t, run step l s = some t → run step l' s = some t

/-- Whatever `a` before `b` reaches, `b` before `a` reaches. -/
def Swaps (a b : α) : Prop :=
  ∀ s u t, step a s = some u → step b u = some t → ∃ v, step b s = some v ∧ step a v = some t

variable {step} {a b : α} {l l' l₁ l₂ : List α}

theorem Covers.refl (l : List α) : Covers step l l := fun _ _ h => h

theorem Covers.trans (h₁ : Covers step l l') (h₂ : Covers step l' l₁) : Covers step l l₁ :=
  fun s t h => h₂ s t (h₁ s t h)

theorem Covers.append (h₁ : Covers step l l₁) (h₂ : Covers step l' l₂) :
    Covers step (l ++ l') (l₁ ++ l₂) := by
  intro s t h
  rw [run_append, Option.bind_eq_some_iff] at h ⊢
  obtain ⟨u, hu, ht⟩ := h
  exact ⟨u, h₁ s u hu, h₂ u t ht⟩

theorem Covers.append_left (p : List α) (h : Covers step l l') :
    Covers step (p ++ l) (p ++ l') :=
  (Covers.refl p).append h

theorem Covers.append_right (q : List α) (h : Covers step l l') :
    Covers step (l ++ q) (l' ++ q) :=
  h.append (Covers.refl q)

theorem Covers.cons (a : α) (h : Covers step l l') : Covers step (a :: l) (a :: l') :=
  h.append_left [a]

/-- Two operations that one operation does the work of. -/
theorem Covers.of_pair {c : α}
    (h : ∀ s u t, step a s = some u → step b u = some t → step c s = some t) :
    Covers step [a, b] [c] := by
  intro s t hrun
  simp only [run_cons, run_nil, Option.bind_eq_some_iff, Option.some.injEq] at hrun ⊢
  obtain ⟨u, hu, w, hw, rfl⟩ := hrun
  exact ⟨w, h s u w hu hw, rfl⟩

/-- An operation that changes nothing may be left out. -/
theorem Covers.drop (h : ∀ s t, step a s = some t → t = s) : Covers step [a] [] := by
  intro s t hrun
  simp only [run_cons, run_nil, Option.bind_eq_some_iff] at hrun ⊢
  obtain ⟨u, hu, hut⟩ := hrun
  rw [← h s u hu]
  exact hut

theorem Swaps.covers (h : Swaps step a b) : Covers step [a, b] [b, a] := by
  intro s t hrun
  simp only [run_cons, run_nil, Option.bind_eq_some_iff, Option.some.injEq] at hrun ⊢
  obtain ⟨u, hu, w, hw, rfl⟩ := hrun
  obtain ⟨v, hv, hw'⟩ := h s u w hu hw
  exact ⟨v, hv, w, hw', rfl⟩

/-- Delay an operation past a list of operations it swaps with. -/
theorem covers_delay (h : ∀ x ∈ l, Swaps step a x) : Covers step (a :: l) (l ++ [a]) := by
  induction l with
  | nil => exact Covers.refl _
  | cons x l ih =>
    have hx : Covers step (a :: x :: l) (x :: a :: l) :=
      ((h x (by simp)).covers).append_right l
    exact hx.trans ((ih fun y hy => h y (by simp [hy])).cons x)

/-- Advance an operation in front of a list of operations that swap with it. -/
theorem covers_advance (h : ∀ x ∈ l, Swaps step x a) : Covers step (l ++ [a]) (a :: l) := by
  induction l with
  | nil => exact Covers.refl _
  | cons x l ih =>
    have hl : Covers step (x :: (l ++ [a])) (x :: a :: l) :=
      (ih fun y hy => h y (by simp [hy])).cons x
    exact hl.trans (((h x (by simp)).covers).append_right l)

/-- Pairwise swapping operations may run in any order. -/
theorem covers_of_perm (hp : l.Perm l')
    (hl : l.Pairwise fun a b => Swaps step a b ∧ Swaps step b a) : Covers step l l' := by
  have hs : ∀ {a b : α}, (Swaps step a b ∧ Swaps step b a) →
      (Swaps step b a ∧ Swaps step a b) := And.symm
  induction hp with
  | nil => exact Covers.refl _
  | cons a _ ih => exact (ih (List.pairwise_cons.1 hl).2).cons a
  | swap a _ l =>
    have hba := (List.pairwise_cons.1 hl).1 a (by simp)
    exact hba.1.covers.append_right l
  | trans h₁ _ ih₁ ih₂ => exact (ih₁ hl).trans (ih₂ ((h₁.pairwise_iff hs).1 hl))

/-- **Selection.** `Selects l chosen rest`: `l` is split, order kept on both sides, so that every
chosen operation swaps with the operations left behind in front of it. -/
inductive Selects (step : α → σ → Option σ) : List α → List α → List α → Prop
  | nil : Selects step [] [] []
  | choose {l chosen rest} (a : α) (h : Selects step l chosen rest) :
      Selects step (a :: l) (a :: chosen) rest
  | leave {l chosen rest} (a : α) (hswap : ∀ x ∈ chosen, Swaps step a x)
      (h : Selects step l chosen rest) : Selects step (a :: l) chosen (a :: rest)

/-- The chosen operations may run before everything left behind. -/
theorem Selects.covers {c rest : List α} (h : Selects step l c rest) :
    Covers step l (c ++ rest) := by
  induction h with
  | nil => exact Covers.refl _
  | choose a _ ih => exact ih.cons a
  | leave a hs _ ih =>
    rename_i c rest _
    refine (ih.cons a).trans ?_
    have hm := (covers_delay hs).append_right rest
    simpa using hm

theorem Selects.mem {c rest : List α} (h : Selects step l c rest) (x : α)
    (hx : x ∈ c ∨ x ∈ rest) : x ∈ l := by
  induction h with
  | nil => simp at hx
  | choose | leave =>
    rw [List.mem_cons] at hx ⊢
    tauto

variable {s t : σ}

/-- Every operation of a run that succeeds succeeds somewhere. -/
theorem exists_step_of_run (h : run step l s = some t) :
    ∀ a ∈ l, ∃ u v, step a u = some v := by
  induction l generalizing s with
  | nil => simp
  | cons _ _ ih =>
    obtain ⟨u, hu, hr⟩ := Option.bind_eq_some_iff.1 h
    exact List.forall_mem_cons.2 ⟨⟨s, u, hu⟩, ih hr⟩

/-- A run may be replayed with another step function that agrees on its operations. -/
theorem run_mono {β : Type*} {step' : β → σ → Option σ} (f : α → β)
    (hs : ∀ a ∈ l, ∀ u v, step a u = some v → step' (f a) u = some v)
    (h : run step l s = some t) : run step' (l.map f) s = some t := by
  induction l generalizing s with
  | nil => exact h
  | cons a _ ih =>
    obtain ⟨u, hu, hr⟩ := Option.bind_eq_some_iff.1 h
    rw [List.map_cons, run_cons, hs a (by simp) s u hu]
    exact ih (fun b hb => hs b (by simp [hb])) hr

/-! ## Invariants of runs -/

/-- The step, taken only from the states that allow it. -/
def guarded (allowed : α → σ → Prop) [∀ a s, Decidable (allowed a s)] (step : α → σ → Option σ)
    (a : α) (s : σ) : Option σ :=
  if allowed a s then step a s else none

theorem guarded_eq_some {al : α → σ → Prop} [∀ a s, Decidable (al a s)] :
    guarded al step a s = some t ↔ al a s ∧ step a s = some t := by
  simp [guarded]

/-- A run can be evaluated. -/
theorem exists_of_run {p : σ → Prop} [DecidablePred p]
    (h : (run step l s).any (fun t => decide (p t)) = true) : ∃ t, run step l s = some t ∧ p t := by
  obtain ⟨hs, hp⟩ := (Option.any_eq_true_iff_get _ _).1 h
  exact ⟨_, (Option.some_get hs).symm, of_decide_eq_true hp⟩

/-- What can be evaluated of a run, with what is known of it. -/
theorem exists_of_run_and {p q : σ → Prop} [DecidablePred p]
    (h : (run step l s).any (fun t => decide (p t)) = true)
    (hq : ∀ t, run step l s = some t → p t → q t) : ∃ t, run step l s = some t ∧ p t ∧ q t := by
  obtain ⟨t, hrun, hp⟩ := exists_of_run h
  exact ⟨t, hrun, hp, hq t hrun hp⟩

theorem exists_of_run_any {p : σ → Bool} (h : (run step l s).any p = true) :
    ∃ t, run step l s = some t ∧ p t = true := by
  obtain ⟨hs, hp⟩ := (Option.any_eq_true_iff_get _ _).1 h
  exact ⟨_, (Option.some_get hs).symm, hp⟩

/-- What every step keeps, every run keeps. -/
theorem run_invariant {P : σ → Prop} (hst : ∀ a s t, P s → step a s = some t → P t)
    (h : run step l s = some t) (hs : P s) : P t := by
  induction l generalizing s with
  | nil => exact Option.some.inj h ▸ hs
  | cons a _ ih =>
    obtain ⟨u, hu, hr⟩ := Option.bind_eq_some_iff.1 h
    exact ih hr (hst a s u hs hu)

/-- What every allowed step keeps, every guarded run keeps. -/
theorem guarded_invariant {al : α → σ → Prop} [∀ a s, Decidable (al a s)] {P : σ → Prop}
    (hst : ∀ a s t, P s → al a s → step a s = some t → P t)
    (h : run (guarded al step) l s = some t) (hs : P s) : P t :=
  run_invariant (fun a s t hs h => hst a s t hs (guarded_eq_some.1 h).1 (guarded_eq_some.1 h).2)
    h hs

end Chevalier.Schedule
