import Mathlib

/-!
# Streams

A parser reads the events of a stream one by one, keeps a state, and emits output at each event.
`run_induction` is the induction over the events read so far.
-/

namespace Chevalier.Stream

variable {ε σ ω : Type*} (step : ε → σ → List ω × σ)

/-- What is emitted at each event, and the state after the last. -/
def run : List ε → σ → List (List ω) × σ
  | [], s => ([], s)
  | event :: events, s =>
    ((step event s).1 :: (run events (step event s).2).1, (run events (step event s).2).2)

theorem run_concat (e : List ε) (ev : ε) (s : σ) : run step (e ++ [ev]) s =
    ((run step e s).1 ++ [(step ev (run step e s).2).1], (step ev (run step e s).2).2) := by
  induction e generalizing s with
  | nil => rfl
  | cons first e ih => simp [run, ih]

/-- What every event keeps holds after every stream. -/
theorem run_induction {P : List ε → List (List ω) → σ → Prop} {s : σ} (nil : P [] [] s)
    (c : ∀ e outs t ev, P e outs t →
      P (e ++ [ev]) (outs ++ [(step ev t).1]) (step ev t).2) (e : List ε) :
    P e (run step e s).1 (run step e s).2 := by
  induction e using List.reverseRecOn with
  | nil => exact nil
  | append_singleton e ev ih =>
    rw [run_concat]
    exact c _ _ _ _ ih

end Chevalier.Stream
