import Mathlib

/-!
# Shared and exclusive locks on a tree

A lock is held on a key, shared (`read`) or exclusive (`write`). The keys are the nodes of a tree: who
works at a node holds it exclusively and everything above it shared, so that two holders whose locks
do not exclude each other work at nodes neither of which lies above the other
(`Apart.not_prefix`).
-/

namespace Chevalier.Locks

/-- How a lock is held. -/
inductive Mode
  | read
  | write
deriving DecidableEq, Repr

variable {κ α : Type*}

/-- A lock may be taken beside the ones another holder has. -/
def Free [DecidableEq κ] (lock : κ × Mode) (held : List (κ × Mode)) : Prop :=
  ∀ other ∈ held, other.1 = lock.1 → other.2 = .read ∧ lock.2 = .read

instance [DecidableEq κ] (lock : κ × Mode) (held : List (κ × Mode)) :
    Decidable (Free lock held) :=
  inferInstanceAs (Decidable (∀ _ ∈ _, _))

/-- Two holders do not exclude each other. -/
def Apart (held held' : List (κ × Mode)) : Prop :=
  ∀ lock ∈ held, ∀ other ∈ held', other.1 = lock.1 → other.2 = .read ∧ lock.2 = .read

variable {held held' : List (κ × Mode)}

theorem Apart.symm (h : Apart held held') : Apart held' held :=
  fun o ho lock hl heq => (h lock hl o ho heq.symm).symm

theorem Apart.nil : Apart [] held := nofun

theorem Apart.cons [DecidableEq κ] {lock : κ × Mode} (h : Apart held held')
    (hf : Free lock held') : Apart (lock :: held) held' := by
  intro mine hm o ho heq
  rcases List.mem_cons.1 hm with rfl | hm
  · exact hf o ho heq
  · exact h mine hm o ho heq

/-- Two holders of one key hold it shared. -/
theorem Apart.not_write (h : Apart held held') {key : κ} {mode : Mode}
    (hw : (key, Mode.write) ∈ held) : (key, mode) ∉ held' :=
  fun ho => nomatch (h _ hw _ ho rfl).2

/-- A holder works at the nodes of a list. -/
def Covers (held : List (List α × Mode)) (targets : List (List α)) : Prop :=
  ∀ target ∈ targets, (target, Mode.write) ∈ held ∧
    ∀ above, above <+: target → ∃ mode, (above, mode) ∈ held

theorem Covers.mono {held held' : List (List α × Mode)} {ta : List (List α)}
    (h : Covers held ta) (hs : held ⊆ held') : Covers held' ta :=
  fun t ht => ⟨hs (h t ht).1, fun a ha =>
    ((h t ht).2 a ha).imp fun _ hl => hs hl⟩

/-- **Who works at a node does not work above one where another holder works.** -/
theorem Apart.not_prefix {held held' : List (List α × Mode)} {ta ta' : List (List α)}
    (h : Apart held held') (hc : Covers held ta) (hc' : Covers held' ta')
    {t t' : List α} (ht : t ∈ ta) (ht' : t' ∈ ta') :
    ¬ t <+: t' := by
  intro hi
  obtain ⟨_, hm⟩ := (hc' t' ht').2 t hi
  exact h.not_write (hc t ht).1 hm

/-- **Ascending locks do not deadlock.** Where every holder waits for a lock that ranks above those it
has, one of them waits for a lock that none of them has. -/
theorem exists_free {ι τ : Type*} [DecidableEq κ] [LinearOrder τ] (rank : κ → τ)
    (held : ι → List (κ × Mode)) (next : ι → κ × Mode) {W : Finset ι} (hne : W.Nonempty)
    (h : ∀ i ∈ W, ∀ lock ∈ held i, rank lock.1 < rank (next i).1) :
    ∃ i ∈ W, ∀ j ∈ W, Free (next i) (held j) := by
  obtain ⟨i, hi, hmax⟩ := W.exists_max_image (fun i => rank (next i).1) hne
  refine ⟨i, hi, fun j hj lock hl heq => ?_⟩
  have hlt := (h j hj lock hl).trans_le (hmax j hj)
  rw [heq] at hlt
  exact absurd hlt (lt_irrefl _)

end Chevalier.Locks
