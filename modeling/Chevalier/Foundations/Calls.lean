import Mathlib

/-!
# Calls that keep what they did before an error

A call reads and changes a state, and may fail; what it changed before it failed stays changed. Such
a call is an `EStateM` program, built from reads (`inspect`), steps that may fail (`perform`) and
steps whose failure is ignored (`attempt`). The rules take a successful call apart (`bind_eq_ok`),
and run a call forward over a part whose outcome is known (`bind_of_ok` and the `run_*_bind` lemmas).
-/

namespace Chevalier.Calls

variable {ε ι σ α β : Type}

/-- Look at the state. -/
def inspect (f : σ → Except ε α) : EStateM ε σ α := fun s =>
  match f s with
  | .ok a => .ok a s
  | .error error => .error error s

/-- A step that changes the state or fails and changes nothing. -/
def perform (step : σ → Except ι σ) (onError : ι → ε) : EStateM ε σ Unit := fun s =>
  match step s with
  | .ok next => .ok () next
  | .error error => .error (onError error) s

/-- A step that returns a value and changes the state, or fails and changes nothing. -/
def transact (step : σ → Except ε (σ × α)) : EStateM ε σ α := fun s =>
  match step s with
  | .ok (next, a) => .ok a next
  | .error error => .error error s

/-- A step whose failure is ignored. -/
def attempt (step : σ → Except ι σ) : EStateM ε σ Unit := fun s =>
  match step s with
  | .ok next => .ok () next
  | .error _ => .ok () s

variable {s s' : σ} {a : α} {b : β}

theorem run_bind (m : EStateM ε σ α) (f : α → EStateM ε σ β) :
    (m >>= f).run s = match m.run s with
      | .ok a mid => (f a).run mid
      | .error e mid => .error e mid := rfl

@[simp] theorem run_pure : (pure a : EStateM ε σ α).run s = .ok a s := rfl

variable {m : EStateM ε σ α}

theorem bind_eq_ok {f : α → EStateM ε σ β} :
    (m >>= f).run s = .ok b s' ↔ ∃ a mid, m.run s = .ok a mid ∧ (f a).run mid = .ok b s' := by
  rw [run_bind]
  cases m.run s with
  | ok => simp [and_assoc]
  | error => simp

theorem bind_of_ok (f : α → EStateM ε σ β) (h : m.run s = .ok a s') :
    (m >>= f).run s = (f a).run s' := by
  rw [run_bind, h]

theorem bind_of_error (f : α → EStateM ε σ β) {e : ε}
    (h : m.run s = .error e s') : (m >>= f).run s = .error e s' := by
  rw [run_bind, h]

/-- A read of something that is there. -/
@[simp] theorem run_inspect_ok (g : σ → α) :
    (inspect fun s => (.ok (g s) : Except ε α)).run s = .ok (g s) s := rfl

theorem run_inspect (f : σ → Except ε α) : (inspect f).run s = match f s with
    | .ok a => .ok a s
    | .error e => .error e s := rfl

theorem run_perform (step : σ → Except ι σ) (oe : ι → ε) :
    (perform step oe).run s = match step s with
      | .ok next => .ok () next
      | .error e => .error (oe e) s := rfl

theorem run_transact (step : σ → Except ε (σ × α)) :
    (transact step).run s = match step s with
      | .ok (next, a) => .ok a next
      | .error e => .error e s := rfl

theorem run_inspect_bind (f : σ → Except ε α) (k : α → EStateM ε σ β) :
    (inspect f >>= k).run s = match f s with
      | .ok a => (k a).run s
      | .error e => .error e s := by
  rw [run_bind, run_inspect]
  cases f s <;> rfl

theorem inspect_eq_ok {f : σ → Except ε α} :
    (inspect f).run s = .ok a s' ↔ f s = .ok a ∧ s' = s := by
  rw [run_inspect]
  cases f s with
  | ok => simp [eq_comm]
  | error => simp

variable {oe : ι → ε} {step : σ → Except ι σ}

theorem perform_of_ok (h : step s = .ok s') :
    (perform step oe).run s = .ok () s' := by
  rw [run_perform, h]

theorem run_perform_bind (step : σ → Except ι σ) (oe : ι → ε) (k : Unit → EStateM ε σ β) :
    (perform step oe >>= k).run s = match step s with
      | .ok next => (k ()).run next
      | .error e => .error (oe e) s := by
  rw [run_bind, run_perform]
  cases step s <;> rfl

theorem perform_eq_ok {u : Unit} :
    (perform step oe).run s = .ok u s' ↔ step s = .ok s' := by
  rw [run_perform]
  cases step s with
  | ok => simp
  | error => simp

theorem inspect_bind_eq_ok {f : σ → Except ε α} {k : α → EStateM ε σ β} :
    (inspect f >>= k).run s = .ok b s' ↔ ∃ a, f s = .ok a ∧ (k a).run s = .ok b s' := by
  rw [run_inspect_bind]
  cases f s <;> simp

theorem perform_bind_eq_ok {k : Unit → EStateM ε σ β} :
    (perform step oe >>= k).run s = .ok b s' ↔
      ∃ mid, step s = .ok mid ∧ (k ()).run mid = .ok b s' := by
  rw [run_perform_bind]
  cases step s <;> simp

/-! ## What a call keeps, whether it returns or fails -/

/-- The state a call leaves. -/
def last : EStateM.Result ε σ α → σ
  | .ok _ s | .error _ s => s

section

variable {R : σ → σ → Prop} [IsPreorder σ R]

theorem last_bind {m : EStateM ε σ α}
    {f : α → EStateM ε σ β} (hm : R s (last (m.run s)))
    (hf : ∀ a mid, m.run s = .ok a mid → R mid (last ((f a).run mid))) :
    R s (last ((m >>= f).run s)) := by
  rw [run_bind]
  cases hrun : m.run s with
  | ok a mid =>
    rw [hrun] at hm
    exact trans_of R hm (hf a mid hrun)
  | error =>
    rw [hrun] at hm
    exact hm

theorem last_inspect (f : σ → Except ε α) : last ((inspect f).run s) = s := by
  rw [run_inspect]
  cases f s <;> rfl

theorem last_inspect_bind {f : σ → Except ε α} {k : α → EStateM ε σ β}
    (hk : ∀ a, f s = .ok a → R s (last ((k a).run s))) :
    R s (last ((inspect f >>= k).run s)) := by
  rw [run_inspect_bind]
  cases hf : f s with
  | ok a => exact hk a hf
  | error => exact refl_of R s

theorem last_perform {step : σ → Except ι σ} {oe : ι → ε}
    (hst : ∀ next, step s = .ok next → R s next) :
    R s (last ((perform step oe).run s)) := by
  rw [run_perform]
  cases hs : step s with
  | ok next => exact hst next hs
  | error => exact refl_of R s

theorem last_attempt {step : σ → Except ι σ}
    (hst : ∀ next, step s = .ok next → R s next) :
    R s (last ((attempt step : EStateM ε σ Unit).run s)) := by
  change R s (last (match step s with
    | .ok next => .ok () next
    | .error _ => .ok () s : EStateM.Result ε σ Unit))
  cases hs : step s with
  | ok next => exact hst next hs
  | error => exact refl_of R s

end

/-! ## Running a call on a concrete state -/

/-- The call fails, and its error and last state pass a test. -/
def failsWith (P : ε → σ → Prop) [∀ error s, Decidable (P error s)] :
    EStateM.Result ε σ α → Bool
  | .error error s => decide (P error s)
  | .ok _ _ => false

/-- The call returns, and its result and last state pass a test. -/
def returnsWith (P : α → σ → Prop) [∀ a s, Decidable (P a s)] : EStateM.Result ε σ α → Bool
  | .error _ _ => false
  | .ok a s => decide (P a s)

theorem exists_of_failsWith {P : ε → σ → Prop} [∀ error s, Decidable (P error s)]
    {r : EStateM.Result ε σ α} (h : failsWith P r = true) :
    ∃ error s, r = .error error s ∧ P error s := by
  cases r with
  | ok => cases h
  | error error s => exact ⟨error, s, rfl, of_decide_eq_true h⟩

theorem exists_of_returnsWith {P : α → σ → Prop} [∀ a s, Decidable (P a s)]
    {r : EStateM.Result ε σ α} (h : returnsWith P r = true) :
    ∃ a s, r = .ok a s ∧ P a s := by
  cases r with
  | ok a s => exact ⟨a, s, rfl, of_decide_eq_true h⟩
  | error => cases h

end Chevalier.Calls
