import Chevalier.LocalView.Publish.Isolate

/-!
# Isolating rejected namespace events

A namespace request that the gateway rejects is bisected: its halves are submitted in turn, the left
one first, and an event that is rejected alone is looked up at the gateway and repaired if it did not
land. At any time the events that are settled, followed by the pending groups, are the run.

* **`namespace_isolation`**: for every sequence of answers the loop returns, a request submits events
  that follow all settled ones, and the loop returns when all events are settled, or at the first one
  that is not.
-/

namespace Chevalier.LocalView.IsolateNamespace

open List

open Isolate (Answer RunOutcome)

/-- What the calls of one round return. -/
structure World where
  /-- The namespace request of the round. -/
  namespaceBatch : Answer
  /-- `event_landed`, and the newest revision of its reads. -/
  landed : MountEvent → Except String Bool
  readRevision : Nat
  /-- The kind of a path in the local tree, if there is a source for it. -/
  authoritativePaths : Option (MountPath → Except String (Option LocalKind))
  observedNamespaceRevision : Nat
  removeRemoteSubtree : MountPath → Except String Nat
  /-- The request that submits an event again behind a repair. -/
  retried : Answer

/-- The path that a repair clears, and whether the event is submitted again afterwards. -/
def repairTarget : MountMutation → Option (MountPath × Bool)
  | .removeFile path _ | .removeDirectory path => some (path, false)
  | .createDirectory path _ | .createFile path _ | .createSymlink path _
  | .createHardLink _ path | .rename _ path _ => some (path, true)
  | _ => none

/-- Force an accepted namespace event onto a stale replica. -/
def repairRejectedNamespace (w : World) (event : MountEvent) : Except String (Option Nat) :=
  match event.mutation, repairTarget event.mutation with
  | .setMode path _, _ =>
    match w.authoritativePaths with
    | none => .error "cannot reconcile rejected set-mode without authoritative path state"
    | some kind => do
      if (← kind path).isNone then return some w.observedNamespaceRevision
      throw "set-mode target remains live locally but the replica rejected it"
  | _, none => .ok none
  | _, some (path, retryEvent) => do
    let revision ← w.removeRemoteSubtree path
    if retryEvent then return some (max revision (← w.retried.result)) else return some revision

/-- How an event is accounted for. -/
inductive Ending
  | accepted
  | landed
  | repaired
deriving DecidableEq, Repr

/-- The loop variables. A group with a reason was just rejected, one without is to be submitted; the
next group is in front. -/
structure Isolation where
  pending : List (List MountEvent × Option String)
  revision : Nat
  settled : List (MountEvent × Ending)
deriving DecidableEq

def Isolation.start (events : List MountEvent) (reason : String) (revision : Nat) : Isolation :=
  ⟨[(events, some reason)], revision, []⟩

/-- The event is accounted for. -/
def Isolation.settle (s : Isolation) (event : MountEvent) (ending : Ending) (revision : Nat) :
    Isolation :=
  { s with revision := max s.revision revision, settled := s.settled ++ [(event, ending)] }

/-- An event that was rejected alone. -/
def isolateEvent (w : World) (event : MountEvent) (reason : String) (s : Isolation) :
    Except RunOutcome Isolation :=
  match w.landed event with
  | .ok true => .ok (s.settle event .landed w.readRevision)
  | .ok false =>
    match repairRejectedNamespace w event with
    | .ok (some revision) => .ok (s.settle event .repaired revision)
    | .ok none => .error (.failed event.sequence (reason ++ "; no namespace repair adapter " ++
        "matched; retaining the accepted WAL event for retry"))
    | .error error =>
      .error (.failed event.sequence (reason ++ "; namespace repair failed: " ++ error))
  | .error error =>
    .error (.failed event.sequence (reason ++ "; reconciliation read failed: " ++ error))

/-- One round of the loop. -/
def iterate (w : World) (s : Isolation) : Except RunOutcome Isolation :=
  match s.pending with
  | [] => .error (.complete s.revision)
  | ([event], some reason) :: rest => isolateEvent w event reason { s with pending := rest }
  | (events, some _) :: rest => .ok { s with pending :=
      (events.take (events.length / 2), none) :: (events.drop (events.length / 2), none) :: rest }
  | (events, none) :: rest =>
    match w.namespaceBatch with
    | .accepted revision =>
      .ok ⟨rest, max s.revision revision, s.settled ++ events.map (·, .accepted)⟩
    | .rejected reason => .ok { s with pending := (events, some reason) :: rest }
    | .failed reason =>
      .error (.failed ((events.head?.map MountEvent.sequence).getD 0) reason)

/-- The groups that a round may submit. -/
def submits (s : Isolation) : List (List MountEvent) :=
  match s.pending with
  | (events, none) :: _ => [events]
  | ([event], some _) :: _ => [[event]]
  | _ => []

/-- The first rounds of the loop. -/
def isolate (worlds : Nat → World) (s : Isolation) : Nat → Except RunOutcome Isolation
  | 0 => .ok s
  | n + 1 => isolate worlds s n >>= iterate (worlds n)

/-! ## Order -/

/-- The settled events, followed by the pending groups, are the run. -/
structure Isolation.Sound (events : List MountEvent) (s : Isolation) : Prop where
  order : s.settled.map Prod.fst ++ (s.pending.map Prod.fst).flatten = events
  groups : ∀ group ∈ s.pending, group.1 ≠ []

/-- The rounds that a group may take: one that is to be submitted takes one more than one that was
rejected, and the halves of a rejected group together take less. -/
def weight (group : List MountEvent × Option String) : Nat :=
  4 * group.1.length - 2 - group.2.isSome.toNat

def Isolation.measure (s : Isolation) : Nat := (s.pending.map weight).sum

/-- What the loop reports: all events are settled, or it failed at the first one that is not. -/
def Reported (events : List MountEvent) (s : Isolation) : RunOutcome → Prop
  | .complete _ => s.settled.map Prod.fst = events
  | .failed sequence _ => ∃ event later, event.sequence = sequence ∧
      events = s.settled.map Prod.fst ++ event :: later

variable {w : World} {eve : List MountEvent} {s : Isolation}

theorem isolateEvent_spec {ev : MountEvent} {r : String} (w : World) (s : Isolation) :
    (∃ e re, isolateEvent w ev r s = .ok (s.settle ev e re)) ∨
      ∃ er, isolateEvent w ev r s = .error (.failed ev.sequence er) := by
  unfold isolateEvent
  split
  · exact .inl ⟨_, _, rfl⟩
  · split
    · exact .inl ⟨_, _, rfl⟩
    · exact .inr ⟨_, rfl⟩
    · exact .inr ⟨_, rfl⟩
  · exact .inr ⟨_, rfl⟩

/-- A round keeps the order and lowers the measure, or reports the events. -/
theorem iterate_spec (w : World) (hs : s.Sound eve) :
    (∃ t, iterate w s = .ok t ∧ t.Sound eve ∧ t.measure < s.measure) ∨
      ∃ o, iterate w s = .error o ∧ Reported eve s o := by
  obtain ⟨ho, hg⟩ := hs
  obtain ⟨p, r, se⟩ := s
  match p with
  | [] => exact .inr ⟨_, rfl, by simpa [Reported] using ho⟩
  | ([e], some reason) :: rest =>
    rcases isolateEvent_spec w ⟨rest, r, se⟩ with ⟨_, _, hst⟩ | ⟨_, hst⟩
    · refine .inl ⟨_, hst, ⟨?_, fun g hgr => hg g (.tail _ hgr)⟩, ?_⟩
      · simpa [Isolation.settle] using ho
      · simp [Isolation.settle, Isolation.measure, weight]
    · exact .inr ⟨_, hst, e, (rest.map Prod.fst).flatten, rfl, by simpa using ho.symm⟩
  | ([], _) :: _ => exact absurd rfl (hg _ mem_cons_self)
  | (first :: second :: more, some _) :: rest =>
    have hl : 2 ≤ (first :: second :: more).length := by simp
    refine .inl ⟨_, rfl, ?_⟩
    generalize first :: second :: more = g at *
    refine ⟨⟨?_, fun pi hp => ?_⟩, ?_⟩
    · simp only [map_cons, flatten_cons]
      rw [← append_assoc (List.take _ _), take_append_drop]
      exact ho
    · rcases List.mem_cons.1 hp with rfl | hp
      · exact ne_nil_of_length_pos (by simp; omega)
      · rcases List.mem_cons.1 hp with rfl | hp
        · exact ne_nil_of_length_pos (by simp; omega)
        · exact hg pi (.tail _ hp)
    · simp only [Isolation.measure, weight, map_cons, sum_cons, length_take,
        length_drop, Option.isSome_none, Option.isSome_some, Bool.toNat_false,
        Bool.toNat_true]
      omega
  | (e :: more, none) :: rest =>
    have hr : ∀ g ∈ rest, g.1 ≠ [] := fun g hgr =>
      hg g (.tail _ hgr)
    simp only [iterate]
    cases w.namespaceBatch with
    | accepted =>
      refine .inl ⟨_, rfl, ⟨by simpa [Function.comp_def] using ho, hr⟩, ?_⟩
      simp only [Isolation.measure, weight, map_cons, sum_cons, length_cons,
        Option.isSome_none, Bool.toNat_false]
      omega
    | rejected =>
      refine .inl ⟨_, rfl, ⟨ho, List.forall_mem_cons.2 ⟨cons_ne_nil _ _, hr⟩⟩, ?_⟩
      simp only [Isolation.measure, weight, map_cons, sum_cons, length_cons,
        Option.isSome_none, Option.isSome_some, Bool.toNat_false, Bool.toNat_true]
      omega
    | failed =>
      exact .inr ⟨_, rfl, e, more ++ (rest.map Prod.fst).flatten, rfl, by simpa using ho.symm⟩

theorem sound_of_isolate {wo : Nat → World} {st : Isolation} (hst : st.Sound eve)
    {n : Nat} (h : isolate wo st n = .ok s) : s.Sound eve := by
  induction n generalizing s with
  | zero =>
    cases h
    exact hst
  | succ n ih =>
    obtain ⟨b, hb, h⟩ := Fold.bind_eq_ok.1 h
    rcases iterate_spec (wo n) (ih hb) with ⟨t, hs, ht, -⟩ | ⟨_, hs, -⟩
    · rw [hs] at h
      cases h
      exact ht
    · rw [hs] at h
      cases h

/-- **Isolating rejected namespace events keeps their order and loses none.** For every sequence of
answers the loop returns, and then all events are settled, once each and in order, or it failed at
the first event that is not. Every request submits events that follow all settled ones. -/
theorem namespace_isolation (worlds : Nat → World) (first : MountEvent) (others : List MountEvent)
    (reason : String) (revision : Nat) :
    (∃ n s outcome,
      isolate worlds (.start (first :: others) reason revision) n = .ok s ∧
      iterate (worlds n) s = .error outcome ∧ Reported (first :: others) s outcome) ∧
    ∀ n s, isolate worlds (.start (first :: others) reason revision) n = .ok s →
      ∀ group ∈ submits s, ∃ later,
        first :: others = s.settled.map Prod.fst ++ (group ++ later) := by
  have hs : (Isolation.start (first :: others) reason revision).Sound (first :: others) :=
    ⟨by simp [Isolation.start], by simp [Isolation.start]⟩
  refine ⟨Fold.exists_return (n := 0) (fun _ => rfl) Isolation.measure
    (fun n _ => iterate_spec (worlds n)) rfl hs, fun n s hn group hg => ?_⟩
  obtain ⟨ho, -⟩ := sound_of_isolate hs hn
  unfold submits at hg
  split at hg
  · next rest hp =>
    obtain rfl := List.mem_singleton.1 hg
    exact ⟨(rest.map Prod.fst).flatten, by simpa [hp] using ho.symm⟩
  · next rest hp =>
    obtain rfl := List.mem_singleton.1 hg
    exact ⟨(rest.map Prod.fst).flatten, by simpa [hp] using ho.symm⟩
  · cases hg

/-- A directory is created. -/
def creates (sequence : Nat) (name : String) : MountEvent :=
  ⟨1, "e", sequence, "k", .createDirectory [name] 493, none, ⟨[]⟩, none⟩

/-- The gateway cannot be reached. -/
def unreachable : World where
  namespaceBatch := .failed "connection refused"
  landed _ := .error "connection refused"
  readRevision := 0
  authoritativePaths := none
  observedNamespaceRevision := 0
  removeRemoteSubtree _ := .error "connection refused"
  retried := .failed "connection refused"

/-- When the loop fails, the events behind the one it failed at are neither settled nor its cause. -/
theorem later_event_unaccounted : ∃ s,
    isolate (fun _ => unreachable) (.start [creates 1 "a", creates 2 "b"] "409 Conflict" 0) 1 =
      .ok s ∧
    iterate unreachable s = .error (.failed 1 "connection refused") ∧
    creates 2 "b" ∉ s.settled.map Prod.fst := by
  refine ⟨_, rfl, ?_⟩
  decide

end Chevalier.LocalView.IsolateNamespace
