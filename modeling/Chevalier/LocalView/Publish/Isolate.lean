import Chevalier.Foundations.Fold
import Chevalier.LocalView.Publish.Gateway

/-!
# Isolating rejected content

A content request that the gateway rejects is bisected: the events that landed are dropped, the
others are retried in two halves, and an event that is alone is repaired (`iterate`). What the
gateway, the local tree and the log answer in one round of the loop is a `World`.

A write that creates its path and whose path is gone by now is not repaired: its remote remains are
removed and it is retried, as often as it is rejected (`isolation_loops`). If no such write is among
the events the loop ends for every sequence of answers, and reports each event (`isolation_ends`).
-/

namespace Chevalier.LocalView.Isolate

open List

/-- How a content request ends: accepted at a revision, rejected with one of the statuses of
`rejected_request_status`, or failed in another way. -/
inductive Answer
  | accepted (revision : Nat)
  | rejected (reason : String)
  | failed (reason : String)
deriving DecidableEq, Repr

def Answer.result : Answer → Except String Nat
  | accepted revision => .ok revision
  | rejected reason | failed reason => .error reason

/-- Where the bytes of a generation are now. -/
inductive ContentSuccessor
  | at (path : MountPath)
  | superseded (aliased : Bool)
deriving DecidableEq, Repr

inductive RunOutcome
  | complete (revision : Nat)
  | failed (sequence : Nat) (reason : String)
deriving DecidableEq, Repr

/-- What the calls of one round return. -/
structure World where
  /-- The content request of the round. -/
  content : Answer
  /-- `event_landed`, and the newest revision of its reads. -/
  landed : PublishEvent → Except String Bool
  readRevision : Nat
  /-- The kind of a path in the local tree, if there is a source for it. -/
  authoritativePaths : Option (MountPath → Except String (Option LocalKind))
  committedSuccessorRemovesPrimaryPath : PublishEvent → Except String Bool
  contentSuccessor : PublishEvent → Except String ContentSuccessor
  /-- The backing file at a path holds the bytes of the generation. -/
  generations : Option (MountPath → Except String Bool)
  /-- The revision and, of an entry that is there, the kind if it is known. -/
  stat : MountPath → Except String (Nat × Option (Option LocalKind))
  removeRemoteSubtree : MountPath → Except String Nat
  observedRevision : Nat
  /-- The write without preconditions. -/
  forced : Answer

/-! ## Repairs -/

section

variable (w : World) (event : PublishEvent)

/-- The remains of a creation whose path is gone by now are removed. -/
def repairStaleFoldedCreation : Except String (Option Nat) :=
  match event.mutation, w.authoritativePaths with
  | .replaceFile path _ _ (some base), some kind =>
    if base = absentPrecondition then do
      if (← kind path).isSome then return none
      if !(← w.committedSuccessorRemovesPrimaryPath event) then return none
      return some (← w.removeRemoteSubtree path)
    else .ok none
  | _, _ => .ok none

/-- A path is written without preconditions; what stands in the way is removed first. -/
def forceContent (path : MountPath) (clear : Bool) : Except String Nat := do
  let (revision, entry) ← w.stat path
  let revision := max w.observedRevision revision
  let wrongKind := entry.any fun kind => kind ≠ some .file
  let revision ← if wrongKind || clear then
      (max revision ·) <$> w.removeRemoteSubtree path
    else pure revision
  return max revision (← w.forced.result)

def repairRejectedAppend (path : MountPath) : Except String Nat :=
  match event.publishedContent with
  | none => .error ("append event " ++ toString event.sequence ++ " has no published content")
  | some (size, _) => do
    match ← w.contentSuccessor event with
    | .superseded false => return w.observedRevision
    | .superseded true =>
      .error ("append to " ++ path.render ++ " was rejected and its bytes were hard-linked " ++
        "before being superseded; retaining it for retry")
    | .at location =>
      match w.generations with
      | none => .error ("append to " ++ path.render ++
          " was rejected and no generation source can recover it")
      | some snapshot =>
        if ← snapshot location then forceContent w path false
        else .error ("append to " ++ path.render ++ " was rejected and the backing file at " ++
          location.render ++ " no longer holds that generation's " ++ toString size ++
          " bytes; retaining it for retry")

def repairRejectedContent : Except String (Option Nat) :=
  match event.mutation with
  | .appendFile path .. => some <$> repairRejectedAppend w event path
  | .replaceFile path _ _ base => some <$> forceContent w path (base = some absentPrecondition)
  | _ => .ok none

end

/-! ## The loop -/

/-- The loop variables. A group with a reason was just rejected, one without is to be retried; the
next group is in front. `settled` are the events that landed or were repaired. -/
structure Isolation where
  pending : List (List PublishEvent × Option String)
  revision : Nat
  settled : List PublishEvent

def Isolation.start (events : List PublishEvent) (reason : String) (revision : Nat) : Isolation :=
  ⟨[(events, some reason)], revision, []⟩

/-- The events of a rejected group that did not land. -/
def unlanded (w : World) (reason : String) :
    List PublishEvent → Except RunOutcome (List PublishEvent)
  | [] => .ok []
  | event :: events =>
    match w.landed event with
    | .ok true => unlanded w reason events
    | .ok false => (event :: ·) <$> unlanded w reason events
    | .error error =>
      .error (.failed event.sequence (reason ++ "; reconciliation read failed: " ++ error))

/-- An event that is alone in its group. -/
def repair (w : World) (reason : String) (event : PublishEvent) (s : Isolation) :
    Except RunOutcome Isolation :=
  match repairStaleFoldedCreation w event with
  | .ok (some revision) =>
    .ok { s with pending := ([event], none) :: s.pending, revision := max s.revision revision }
  | .ok none =>
    match repairRejectedContent w event with
    | .ok (some revision) =>
      .ok { s with revision := max s.revision revision, settled := event :: s.settled }
    | .ok none => .error (.failed event.sequence (reason ++ "; no content repair adapter " ++
        "matched; retaining the accepted WAL event for retry"))
    | .error error =>
      .error (.failed event.sequence (reason ++ "; content repair failed: " ++ error))
  | .error error =>
    .error (.failed event.sequence
      (reason ++ "; stale folded-creation repair failed: " ++ error))

/-- One round of the loop. -/
def iterate (w : World) (s : Isolation) : Except RunOutcome Isolation :=
  match s.pending with
  | [] => .error (.complete s.revision)
  | (events, none) :: rest =>
    match w.content with
    | .accepted revision =>
      .ok ⟨rest, max s.revision revision, events ++ s.settled⟩
    | .rejected reason => .ok { s with pending := (events, some reason) :: rest }
    | .failed reason =>
      .error (.failed ((events.head?.map PublishEvent.sequence).getD 0) reason)
  | (events, some reason) :: rest => do
    let left ← unlanded w reason events
    let s : Isolation :=
      ⟨rest, max s.revision w.readRevision, events.filter (· ∉ left) ++ s.settled⟩
    match left with
    | [] => return s
    | [event] =>
      if events.length = 1 then repair w reason event s
      else return { s with pending := ([event], none) :: rest }
    | _ => return { s with pending :=
        (left.take (left.length / 2), none) :: (left.drop (left.length / 2), none) :: rest }

/-- The first rounds of the loop. -/
def isolate (worlds : Nat → World) (s : Isolation) : Nat → Except RunOutcome Isolation
  | 0 => .ok s
  | n + 1 => isolate worlds s n >>= iterate (worlds n)

/-! ## The loop ends -/

/-- The write creates its path, the local tree has nothing there by now, and the next conflicting
event of the log removes it. -/
def World.Stale (w : World) (event : PublishEvent) : Prop :=
  ∃ path mode fileId kind,
    event.mutation = .replaceFile path mode fileId (some absentPrecondition) ∧
      w.authoritativePaths = some kind ∧ kind path = .ok none ∧
      w.committedSuccessorRemovesPrimaryPath event = .ok true

/-- Each event is settled or in a group, and the groups have no other events. -/
structure Isolation.Sound (events : List PublishEvent) (s : Isolation) : Prop where
  kept : ∀ event ∈ events, event ∈ s.settled ∨ ∃ group ∈ s.pending, event ∈ group.1
  groups : ∀ group ∈ s.pending, group.1 ⊆ events ∧ (group.2 = none → group.1 ≠ [])

/-- The rounds that a group may take: one that is to be retried takes one more than one that was
rejected, and the halves of a rejected group together take less. -/
def weight (group : List PublishEvent × Option String) : Nat :=
  max 1 (4 * group.1.length - 2 - group.2.isSome.toNat)

def Isolation.measure (s : Isolation) : Nat := (s.pending.map weight).sum

/-- What the loop reports: all events are settled, or it failed at one of them. -/
def Reported (events : List PublishEvent) (s : Isolation) : RunOutcome → Prop
  | .complete _ => ∀ event ∈ events, event ∈ s.settled
  | .failed sequence _ => ∃ event ∈ events, event.sequence = sequence

/-- The loop goes on as `P` says or returns as `Q` says. -/
def Yields (P : Isolation → Prop) (Q : RunOutcome → Prop) : Except RunOutcome Isolation → Prop
  | .ok s => P s
  | .error outcome => Q outcome

section

variable {w : World} {rea : String} {ev g left : List PublishEvent}
  {event : PublishEvent} {rest : List (List PublishEvent × Option String)} {s t : Isolation}
  {o : RunOutcome}

theorem stale_of_repair {re : Nat}
    (h : repairStaleFoldedCreation w event = .ok (some re)) : w.Stale event := by
  unfold repairStaleFoldedCreation at h
  split at h
  · next path mode fi base kind hm hk =>
    split at h
    · next hb =>
      subst hb
      refine ⟨path, mode, fi, kind, hm, hk, ?_⟩
      cases hl : kind path with
      | error => simp [hl, bind, Except.bind] at h
      | ok f =>
        cases f with
        | some => simp [hl, bind, Except.bind, pure, Except.pure] at h
        | none =>
          refine ⟨rfl, ?_⟩
          cases hr : w.committedSuccessorRemovesPrimaryPath event with
          | error => simp [hl, hr, bind, Except.bind] at h
          | ok r =>
            cases r with
            | false => simp [hl, hr, bind, Except.bind, pure, Except.pure] at h
            | true => rfl
    · cases h
  · cases h

/-- The events of a group are read in turn: some are left, or the loop fails at one. -/
theorem unlanded_spec (w : World) (rea : String) (g : List PublishEvent) :
    match unlanded w rea g with
    | .ok left => left.Sublist g
    | .error o => ∃ event ∈ g, ∃ error, o = .failed event.sequence error := by
  induction g with
  | nil => exact .slnil
  | cons event g ih =>
    simp only [unlanded]
    cases w.landed event with
    | error => exact ⟨event, mem_cons_self, _, rfl⟩
    | ok l =>
      cases ht : unlanded w rea g with
      | error =>
        rw [ht] at ih
        obtain ⟨f, hf, he⟩ := ih
        cases l <;> exact ⟨f, mem_cons_of_mem _ hf, he⟩
      | ok =>
        rw [ht] at ih
        cases l
        · exact ih.cons_cons _
        · exact ih.cons _

/-- The first group gives way to some pieces that weigh less. -/
theorem Isolation.Sound.next {g : List PublishEvent × Option String} (hs : s.Sound ev)
    (p : List (List PublishEvent × Option String))
    (hpe : s.pending = g :: rest) (hn : t.pending = p ++ rest)
    (hse : s.settled ⊆ t.settled)
    (hk : ∀ event ∈ g.1, event ∈ t.settled ∨ ∃ pi ∈ p, event ∈ pi.1)
    (hpi : ∀ pi ∈ p, pi.1 ⊆ g.1 ∧ (pi.2 = none → pi.1 ≠ []))
    (hw : (p.map weight).sum < weight g) :
    t.Sound ev ∧ t.measure < s.measure := by
  have hg := (hs.groups g (by simp [hpe])).1
  refine ⟨⟨fun event he => ?_, fun pi hp => ?_⟩, ?_⟩
  · rcases hs.kept event he with h | ⟨f, hf, hmem⟩
    · exact .inl (hse h)
    rw [hpe] at hf
    rw [hn]
    rcases List.mem_cons.1 hf with rfl | hf
    · exact (hk event hmem).imp id fun ⟨pi, hp, hmem⟩ =>
        ⟨pi, mem_append_left _ hp, hmem⟩
    · exact .inr ⟨f, mem_append_right _ hf, hmem⟩
  · rw [hn] at hp
    rcases List.mem_append.1 hp with hp | hp
    · exact ⟨fun event h => hg ((hpi pi hp).1 h), (hpi pi hp).2⟩
    · exact hs.groups pi (by simp [hpe, hp])
  · simp only [Isolation.measure, hpe, hn, map_append, sum_append, map_cons, sum_cons]
    omega

/-- An event that is alone is settled, or the loop fails at it. -/
theorem repair_spec (rea : String) (hs : ¬ w.Stale event) :
    Yields (fun t => t.pending = s.pending ∧ t.settled = event :: s.settled)
      (fun o => ∃ e, o = .failed event.sequence e)
      (repair w rea event s) := by
  unfold repair
  split
  · next r hr => exact absurd (stale_of_repair hr) hs
  · split
    · exact ⟨rfl, rfl⟩
    · exact ⟨_, rfl⟩
    · exact ⟨_, rfl⟩
  · exact ⟨_, rfl⟩

/-- A group that is retried. -/
theorem iterate_retry (hs : s.Sound ev) (hp : s.pending = (g, none) :: rest) :
    Yields (fun t => t.Sound ev ∧ t.measure < s.measure) (Reported ev s) (iterate w s) := by
  obtain ⟨hg, hne⟩ := hs.groups (g, none) (by simp [hp])
  have hpos : 0 < g.length := length_pos_of_ne_nil (hne rfl)
  simp only [iterate, hp]
  cases w.content with
  | accepted =>
    exact hs.next (t := ⟨rest, _, g ++ s.settled⟩) [] hp rfl
      (subset_append_right _ _) (fun event he => .inl (mem_append_left _ he))
      nofun (by simp [weight])
  | rejected rea =>
    refine hs.next [(g, some rea)] hp rfl (List.Subset.refl _)
      (fun event he => .inr ⟨_, mem_singleton_self _, he⟩) (by simp) ?_
    simp [weight]
    omega
  | failed =>
    obtain ⟨event, _, rfl⟩ := exists_cons_of_ne_nil (hne rfl)
    exact ⟨event, hg mem_cons_self, rfl⟩

/-- A group that was rejected. -/
theorem iterate_rejected (hs : s.Sound ev) (hst : ∀ event ∈ ev, ¬ w.Stale event)
    (hp : s.pending = (g, some rea) :: rest) :
    Yields (fun t => t.Sound ev ∧ t.measure < s.measure) (Reported ev s) (iterate w s) := by
  have hg := (hs.groups (g, some rea) (by simp [hp])).1
  have hl := unlanded_spec w rea g
  simp only [iterate, hp]
  cases hu : unlanded w rea g with
  | error =>
    rw [hu] at hl
    obtain ⟨event, he, error, rfl⟩ := hl
    exact ⟨event, hg he, rfl⟩
  | ok left =>
    rw [hu] at hl
    have hlen := hl.length_le
    -- The events that landed are settled.
    have hk : ∀ event ∈ g, event ∈ g.filter (· ∉ left) ++ s.settled ∨ event ∈ left := by
      intro event he
      by_cases hmem : event ∈ left
      · exact .inr hmem
      · exact .inl (mem_append_left _ (List.mem_filter.2 ⟨he, by simpa using hmem⟩))
    match left, hl, hlen, hk with
    | [], _, _, hk =>
      exact hs.next (t := ⟨rest, _, _⟩) [] hp rfl (subset_append_right _ _)
        (fun event he => .inl ((hk event he).resolve_right nofun)) nofun
        (by simp [weight])
    | [event], hl, _, hk =>
      have he : event ∈ g := hl.subset mem_cons_self
      have ha : ∀ f ∈ [event], f = event := fun _ => List.mem_singleton.1
      simp only [bind, Except.bind]
      split
      · have hr := repair_spec rea
          (s := ⟨rest, max s.revision w.readRevision, g.filter (· ∉ [event]) ++ s.settled⟩)
          (hst event (hg he))
        revert hr
        cases repair w rea event _ with
        | error =>
          rintro ⟨error, rfl⟩
          exact ⟨event, hg he, rfl⟩
        | ok =>
          rintro ⟨hn, hse⟩
          refine hs.next [] hp hn (fun f h => ?_) (fun f h => .inl ?_) nofun (by simp [weight])
          · rw [hse]
            exact mem_cons_of_mem _ (mem_append_right _ h)
          · rw [hse]
            rcases hk f h with h | h
            · exact mem_cons_of_mem _ h
            · exact ha f h ▸ mem_cons_self
      · next hle =>
        refine hs.next (t := ⟨([event], none) :: rest, _, _⟩) [([event], none)] hp rfl
          (subset_append_right _ _)
          (fun f h => (hk f h).imp id fun h => ⟨_, mem_singleton_self _, h⟩)
          (by simpa using he) ?_
        have hpos := length_pos_of_mem he
        simp [weight]
        omega
    | event :: other :: more, hl, hlen, hk =>
      simp only [bind, Except.bind, pure, Except.pure]
      generalize hall : event :: other :: more = left at hl hlen hk ⊢
      have ht : 2 ≤ left.length := by simp [← hall]
      refine hs.next (t := ⟨_ :: _ :: rest, _, _⟩)
        [(left.take (left.length / 2), none), (left.drop (left.length / 2), none)] hp rfl
        (subset_append_right _ _) (fun f h => (hk f h).imp id fun h => ?_)
        (fun p hpi => ?_) ?_
      · rw [← take_append_drop (left.length / 2) left] at h
        rcases List.mem_append.1 h with h | h
        · exact ⟨_, mem_cons_self, h⟩
        · exact ⟨_, mem_cons_of_mem _ mem_cons_self, h⟩
      · have hpi : p.1 ⊆ left ∧ p.1 ≠ [] := by
          rcases List.mem_pair.1 hpi with rfl | rfl
          · exact ⟨take_subset _ _, ne_nil_of_length_pos (by simp; omega)⟩
          · exact ⟨drop_subset _ _, ne_nil_of_length_pos (by simp; omega)⟩
        exact ⟨fun f h => hl.subset (hpi.1 h), fun _ => hpi.2⟩
      · simp only [weight, map_cons, map_nil, sum_cons, sum_nil,
          length_take, length_drop, Option.isSome_none, Option.isSome_some,
          Bool.toNat_false, Bool.toNat_true]
        omega

end

/-- Some round returns, and reports the events. -/
theorem iterate_spec {ev : List PublishEvent} {s : Isolation} (w : World)
    (hst : ∀ event ∈ ev, ¬ w.Stale event) (hs : s.Sound ev) :
    Yields (fun t => t.Sound ev ∧ t.measure < s.measure) (Reported ev s) (iterate w s) := by
  match hp : s.pending with
  | [] =>
    simp only [iterate, hp]
    intro event he
    simpa [hp] using hs.kept event he
  | (g, none) :: rest => exact iterate_retry hs hp
  | (g, some rea) :: rest => exact iterate_rejected hs hst hp

/-- **Isolating rejected content ends.** If no event of the run is a creation whose path is gone by
now, then for every sequence of answers the loop returns after finitely many rounds, and then every
event has landed or is repaired, or the loop failed at one of them. -/
theorem isolation_ends (worlds : Nat → World) (events : List PublishEvent) (reason : String)
    (revision : Nat) (hstale : ∀ k, ∀ event ∈ events, ¬ (worlds k).Stale event) :
    ∃ n s outcome, isolate worlds (.start events reason revision) n = .ok s ∧
      iterate (worlds n) s = .error outcome ∧ Reported events s outcome := by
  have hst : (Isolation.start events reason revision).Sound events :=
    ⟨fun _ he => .inr ⟨_, List.mem_singleton_self _, he⟩,
      fun group hg => by simp [List.mem_singleton.1 hg]⟩
  refine Fold.exists_return (n := 0) (fun _ => rfl) Isolation.measure (fun n s hs => ?_) rfl hst
  have hr := iterate_spec (worlds n) (hstale n) hs
  cases hi : iterate (worlds n) s with
  | ok t =>
    rw [hi] at hr
    exact .inl ⟨t, rfl, hr⟩
  | error outcome =>
    rw [hi] at hr
    exact .inr ⟨outcome, rfl, hr⟩

/-- A write of the path `f`. -/
def writes (base : Option String) : PublishEvent :=
  MountEvent.toPublish ⟨1, "e", 4, "k", .replaceFile ["f"] 420 none base,
    some ⟨.dedicatedFile "p", 1, "sha256", "h"⟩, ⟨[]⟩, none⟩

/-- The gateway has nothing at a path and answers every write with a conflict; the local tree has
nothing there either, and a later event of the log has removed it. -/
def conflicts : World where
  content := .rejected "409 Conflict"
  landed _ := .ok false
  readRevision := 0
  authoritativePaths := some fun _ => .ok none
  committedSuccessorRemovesPrimaryPath _ := .ok true
  contentSuccessor _ := .ok (.superseded false)
  generations := none
  stat _ := .ok (0, none)
  removeRemoteSubtree _ := .ok 0
  observedRevision := 0
  forced := .rejected "409 Conflict"

/-- An overwrite that is always refused is reported as failed. -/
theorem isolation_ends_conflict :
    ∃ n s outcome, isolate (fun _ => conflicts) (.start [writes none] "409 Conflict" 0) n = .ok s ∧
      iterate conflicts s = .error outcome ∧ Reported [writes none] s outcome :=
  isolation_ends (fun _ => conflicts) [writes none] "409 Conflict" 0 fun _ event he => by
    obtain rfl := List.mem_singleton.1 he
    rintro ⟨_, _, _, _, hm, -⟩
    cases hm

/-- A creation whose path is gone is retried in every second round: the loop does not end. -/
theorem isolation_loops : ¬ ∃ n s outcome,
    isolate (fun _ => conflicts) (.start [writes (some absentPrecondition)] "409 Conflict" 0) n =
      .ok s ∧ iterate conflicts s = .error outcome := by
  have hro : ∀ n, ∃ reason, isolate (fun _ => conflicts)
      (.start [writes (some absentPrecondition)] "409 Conflict" 0) n =
        .ok ⟨[([writes (some absentPrecondition)], reason)], 0, []⟩ := by
    intro n
    induction n with
    | zero => exact ⟨some "409 Conflict", rfl⟩
    | succ _ ih =>
      obtain ⟨reason, hn⟩ := ih
      rw [isolate, hn]
      cases reason with
      | none => exact ⟨some "409 Conflict", rfl⟩
      | some => exact ⟨none, rfl⟩
  rintro ⟨n, s, outcome, hn, hr⟩
  obtain ⟨reason, hre⟩ := hro n
  cases hn.symm.trans hre
  cases reason with
  | none => cases hr
  | some => cases hr

end Chevalier.LocalView.Isolate
