import Chevalier.Foundations.Places

/-!
# Remote requests

A request that a client sends to a server takes effect there once, at some later moment, or never.
The client may stop waiting at any time: that it saw no answer says nothing about the request. Only
an answer says that the request took effect. A request is known by its place among the requests that
were sent (`Remote.sent`), and what the server answered is kept with it (`Remote.executed`).
-/

namespace Chevalier

open List

/-- The requests that were sent, and the answers to those that took effect. -/
structure Remote (ρ β : Type*) where
  sent : List ρ
  executed : List (Nat × β)
deriving DecidableEq

namespace Remote

variable {ρ β : Type*} {q : Remote ρ β} {request r : ρ} {k : Nat} {b : β}

/-- No request was sent. -/
def empty : Remote ρ β := ⟨[], []⟩

/-- A request is sent, under the number `q.sent.length`. -/
def send (q : Remote ρ β) (request : ρ) : Remote ρ β := { q with sent := q.sent ++ [request] }

@[simp] theorem executed_send : (q.send r).executed = q.executed := rfl

theorem getElem?_send : (q.send r).sent[q.sent.length]? = some r := by simp [send]

theorem getElem?_send_of_lt (h : k < q.sent.length) :
    (q.send r).sent[k]? = q.sent[k]? := by
  rw [send, getElem?_append_left h]

theorem getElem?_send_of_some {e : ρ} (h : q.sent[k]? = some e) :
    (q.send r).sent[k]? = some e :=
  getElem?_append_of_some h

/-- What was sent is what had been sent before, or the new request. -/
theorem of_getElem?_send {f : ρ} (h : (q.send r).sent[k]? = some f) :
    q.sent[k]? = some f ∨ f = r := by
  exact (getElem?_concat_cases h).imp id And.right

/-- The request that is to take effect, if it did not do so before. -/
def pending (q : Remote ρ β) (k : Nat) : Option ρ :=
  if k ∈ q.executed.map Prod.fst then none else q.sent[k]?

theorem pending_eq_some :
    q.pending k = some r ↔ k ∉ q.executed.map Prod.fst ∧ q.sent[k]? = some r := by
  simp [pending]

/-- A request takes effect and is answered. -/
def answer (q : Remote ρ β) (k : Nat) (b : β) : Remote ρ β :=
  { q with executed := (k, b) :: q.executed }

@[simp] theorem sent_answer : (q.answer k b).sent = q.sent := rfl

@[simp] theorem mem_executed_answer {k' : Nat} {b' : β} :
    (k', b') ∈ (q.answer k b).executed ↔ k' = k ∧ b' = b ∨ (k', b') ∈ q.executed := by
  simp [answer]

/-- What was executed was sent, and was executed once. -/
structure Orderly (q : Remote ρ β) : Prop where
  sent : ∀ k b, (k, b) ∈ q.executed → k < q.sent.length
  once : (q.executed.map Prod.fst).Nodup

theorem Orderly.empty : (Remote.empty : Remote ρ β).Orderly :=
  ⟨fun _ _ h => absurd h not_mem_nil, nodup_nil⟩

theorem Orderly.send (h : q.Orderly) : (q.send r).Orderly where
  sent k b hk := Nat.lt_of_lt_of_le (h.sent k b hk) (by simp [Remote.send])
  once := h.once

theorem Orderly.answer (h : q.Orderly) (hp : q.pending k = some r) :
    (q.answer k b).Orderly where
  sent k' b' hk' := by
    rcases mem_executed_answer.1 hk' with ⟨rfl, -⟩ | hk'
    · exact (List.getElem?_eq_some_iff.1 (pending_eq_some.1 hp).2).1
    · exact h.sent k' b' hk'
  once := List.nodup_cons.2 ⟨(pending_eq_some.1 hp).1, h.once⟩

/-- A request has one answer. -/
theorem Orderly.answer_unique (h : q.Orderly) {b b' : β} (hb : (k, b) ∈ q.executed)
    (hb' : (k, b') ∈ q.executed) : b = b' :=
  congrArg Prod.snd (inj_on_of_nodup_map h.once hb hb' rfl)

end Remote

end Chevalier
