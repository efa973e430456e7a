import Chevalier.LocalView.Publish.Fate
import Chevalier.LocalView.Wal.PayloadSync

/-!
# The acknowledgement cursor

The publisher takes a batch under the append lock, issues its runs with the lock dropped, and then
acknowledges the sequence the batch reaches; meanwhile callers go on preparing, committing and
aborting. `Publisher` is the log with the round the publisher has under way. What the log has
committed is read off its records (`CommittedIn`), because the index forgets what the cursor passes.

* `Recorded.takes`: the index stands for the records above the cursor.
* `Publisher.Sound.steps`: every round under way, and every published one, accounts for what it
  covers.
* `cursor_skips_nothing`: the cursor only advances, over a resolved prefix, and no committed event
  is left behind.
-/

namespace Chevalier.LocalView

open Fold MountWal List

/-! ## What the records say -/

/-- Every record appended to the log, in order. -/
def WalLog.records (log : WalLog) : List WalRecord := log.history.map LogEntry.record

def SettledIn (records : List WalRecord) (sequence : Nat) : Prop :=
  (∃ epoch identity, .committed epoch sequence identity ∈ records) ∨
    ∃ epoch reason, .aborted epoch sequence reason ∈ records

/-- The event as it was prepared, before a commit filled in its backing identity. -/
def MountEvent.asPrepared (event : MountEvent) : MountEvent := { event with localIdentity := none }

theorem MountEvent.eq_of_asPrepared {e o : MountEvent}
    (h : e.asPrepared = o.asPrepared)
    (hi : e.localIdentity = o.localIdentity) : e = o := by
  cases e
  cases o
  cases h
  cases hi
  rfl

/-- The log has committed the event: it holds its prepare, and a commit that filled in the backing
identity. -/
def CommittedIn (records : List WalRecord) (event : MountEvent) : Prop :=
  .prepared event.asPrepared ∈ records ∧
    ∃ epoch, .committed epoch event.sequence event.localIdentity ∈ records

/-- What the index holds is what the records above the cursor say. -/
structure Recorded (records : List WalRecord) (index : IndexView) : Prop where
  prepared : ∀ event, .prepared event ∈ records →
    0 < event.sequence ∧ event.sequence < index.nextSequence ∧
      (index.acknowledgedSequence < event.sequence →
        ∃ record ∈ index.prepared, record.event.asPrepared = event)
  committed : ∀ epoch sequence identity, .committed epoch sequence identity ∈ records →
    sequence < index.nextSequence ∧ (index.acknowledgedSequence < sequence →
      sequence ∈ index.committed ∧
        ∀ record ∈ index.prepared, record.sequence = sequence →
          record.event.localIdentity = identity)
  aborted : ∀ epoch sequence reason, .aborted epoch sequence reason ∈ records →
    sequence < index.nextSequence ∧
      (index.acknowledgedSequence < sequence → sequence ∈ index.aborted)
  resolved : ∀ sequence, index.Resolved sequence → SettledIn records sequence
  passed : ∀ sequence, 0 < sequence → sequence ≤ index.acknowledgedSequence →
    SettledIn records sequence

/-- A record behind a commit is the one it filled in, or an old one. -/
theorem mem_setLocalIdentity {s : Nat} {i : Option String}
    {p : List PreparedRecord} {r : PreparedRecord}
    (h : r ∈ setLocalIdentity s i p) :
    (r.sequence = s ∧ r.event.localIdentity = i) ∨ r.sequence ≠ s ∧ r ∈ p := by
  obtain ⟨_, hold, rfl⟩ := List.mem_map.1 h
  split_ifs with heq
  · exact .inl ⟨heq, rfl⟩
  · exact .inr ⟨heq, hold⟩

theorem SettledIn.append {rec a : List WalRecord} {s : Nat}
    (h : SettledIn rec s) : SettledIn (rec ++ a) s :=
  h.imp (fun ⟨e, i, hmem⟩ => ⟨e, i, mem_append_left _ hmem⟩)
    fun ⟨e, r, hmem⟩ => ⟨e, r, mem_append_left _ hmem⟩

namespace Recorded

variable {rec : List WalRecord} {ind next : IndexView} (h : Recorded rec ind)
include h

theorem resolved_of_settled {s : Nat} (hs : SettledIn rec s)
    (hl : ind.acknowledgedSequence < s) : ind.Resolved s := by
  rcases hs with ⟨e, i, hmem⟩ | ⟨e, r, hmem⟩
  · exact .inl ((h.committed e s i hmem).2 hl).1
  · exact .inr ((h.aborted e s r hmem).2 hl)

/-- A record that is no prepare and no terminal one says nothing new. -/
theorem of_append {r : WalRecord}
    (hp : ∀ ev, r ≠ .prepared ev)
    (hc : ∀ e s i, r ≠ .committed e s i)
    (ha : ∀ e s re, r ≠ .aborted e s re) :
    Recorded (rec ++ [r]) ind := by
  have hold : ∀ {o : WalRecord}, o ∈ rec ++ [r] → o ≠ r →
      o ∈ rec := by
    intro o hmem hne
    rcases List.mem_append.1 hmem with hmem | hmem
    · exact hmem
    · exact absurd (List.mem_singleton.1 hmem) hne
  exact
    { prepared := fun ev hmem => h.prepared ev (hold hmem (hp ev).symm)
      committed := fun e s i hmem =>
        h.committed e s i (hold hmem (hc e s i).symm)
      aborted := fun e s re hmem =>
        h.aborted e s re (hold hmem (ha e s re).symm)
      resolved := fun s hr => (h.resolved s hr).append
      passed := fun s hpos hle => (h.passed s hpos hle).append }

/-- A prepare is indexed under a new sequence. -/
theorem prepare {ev : MountEvent} {g of : Nat} (hin : ind.WellFormed)
    (hs : ev.sequence = ind.nextSequence) (hi : ev.localIdentity = none) :
    Recorded (rec ++ [.prepared ev]) (ind.prepare ⟨ev, g, of⟩) := by
  have hlt := hin.acknowledged_lt
  refine ⟨fun o hmem => ?_, fun e s i hmem => ?_,
    fun e s re hmem => ?_, fun s hre => (h.resolved s hre).append,
    fun s hpos hle => (h.passed s hpos hle).append⟩
  · rcases mem_concat.1 hmem with hmem | hmem
    · obtain ⟨hpos, hn, hf⟩ := h.prepared o hmem
      refine ⟨hpos, Nat.lt_succ_of_lt hn, fun hl => ?_⟩
      obtain ⟨r, hr, heq⟩ := hf hl
      refine ⟨r, mem_insertPrepared_of_ne hr ?_, heq⟩
      have := (hin.mem_range hr).2
      show r.sequence ≠ ev.sequence
      omega
    · cases hmem
      refine ⟨by omega, ?_, fun _ => ⟨_, mem_insertPrepared_self _ _, ?_⟩⟩
      · show ev.sequence < ind.nextSequence + 1
        omega
      · exact MountEvent.eq_of_asPrepared rfl hi.symm
  · rcases List.mem_append.1 hmem with hmem | hmem
    · obtain ⟨hn, hf⟩ := h.committed e s i hmem
      refine ⟨Nat.lt_succ_of_lt hn, fun hl => ⟨(hf hl).1, fun r hr heq => ?_⟩⟩
      rcases mem_insertPrepared hr with rfl | hr
      · have he' : ev.sequence = s := heq
        omega
      · exact (hf hl).2 r hr heq
    · cases List.mem_singleton.1 hmem
  · rcases List.mem_append.1 hmem with hmem | hmem
    · obtain ⟨hn, hf⟩ := h.aborted e s re hmem
      exact ⟨Nat.lt_succ_of_lt hn, hf⟩
    · cases List.mem_singleton.1 hmem

/-- A commit resolves an unresolved sequence and fills in its identity. -/
theorem commit {s : Nat} {i : Option String} {re : PreparedRecord}
    (hin : ind.WellFormed) (hr : re ∈ ind.prepared)
    (hs : re.sequence = s) (hu : ¬ ind.Resolved s) :
    Recorded (rec ++ [.committed ind.epoch s i]) (ind.commit s i) := by
  refine ⟨fun ev hmem => ?_, fun e o i' hmem => ?_,
    fun e o r hmem => ?_, fun o hre => ?_,
    fun o hpos hle => (h.passed o hpos hle).append⟩
  · rcases List.mem_append.1 hmem with hmem | hmem
    · obtain ⟨hpos, hn, hf⟩ := h.prepared ev hmem
      refine ⟨hpos, hn, fun hl => ?_⟩
      obtain ⟨f, hm, heq⟩ := hf hl
      refine ⟨_, mem_map_of_mem hm, ?_⟩
      split_ifs
      · exact heq
      · exact heq
    · cases List.mem_singleton.1 hmem
  · rcases List.mem_append.1 hmem with hmem | hmem
    · obtain ⟨hn, hf⟩ := h.committed e o i' hmem
      refine ⟨hn, fun hl => ⟨Finset.mem_insert_of_mem (hf hl).1, fun f hmem heq => ?_⟩⟩
      rcases mem_setLocalIdentity hmem with ⟨hsa, -⟩ | ⟨-, hold⟩
      · exact absurd (.inl (hsa.symm.trans heq ▸ (hf hl).1)) hu
      · exact (hf hl).2 f hold heq
    · cases List.mem_singleton.1 hmem
      refine ⟨hs ▸ (hin.mem_range hr).2, fun _ =>
        ⟨Finset.mem_insert_self _ _, fun f hmem heq => ?_⟩⟩
      rcases mem_setLocalIdentity hmem with ⟨-, hi⟩ | ⟨hne, -⟩
      · exact hi
      · exact absurd heq hne
  · rcases List.mem_append.1 hmem with hmem | hmem
    · exact h.aborted e o r hmem
    · cases List.mem_singleton.1 hmem
  · rcases hre with hc | ha
    · rcases Finset.mem_insert.1 hc with rfl | hmem
      · exact .inl ⟨ind.epoch, i, mem_append_right _ (mem_singleton_self _)⟩
      · exact (h.resolved o (.inl hmem)).append
    · exact (h.resolved o (.inr ha)).append

/-- An abort resolves an unresolved sequence. -/
theorem abort {s : Nat} {r : String} {re : PreparedRecord}
    (hi : ind.WellFormed) (hr : re ∈ ind.prepared)
    (hs : re.sequence = s) :
    Recorded (rec ++ [.aborted ind.epoch s r]) (ind.abort s) := by
  refine ⟨fun ev hmem => ?_, fun e o i hmem => ?_,
    fun e o r' hmem => ?_, fun o hre => ?_,
    fun o hpos hle => (h.passed o hpos hle).append⟩
  · rcases List.mem_append.1 hmem with hmem | hmem
    · exact h.prepared ev hmem
    · cases List.mem_singleton.1 hmem
  · rcases List.mem_append.1 hmem with hmem | hmem
    · exact h.committed e o i hmem
    · cases List.mem_singleton.1 hmem
  · rcases mem_concat.1 hmem with hmem | hmem
    · obtain ⟨hn, hf⟩ := h.aborted e o r' hmem
      exact ⟨hn, fun hl => Finset.mem_insert_of_mem (hf hl)⟩
    · cases hmem
      exact ⟨hs ▸ (hi.mem_range hr).2, fun _ => Finset.mem_insert_self _ _⟩
  · rcases hre with hc | ha
    · exact (h.resolved o (.inl hc)).append
    · rcases Finset.mem_insert.1 ha with rfl | hmem
      · exact .inr ⟨ind.epoch, r, mem_append_right _ (mem_singleton_self _)⟩
      · exact (h.resolved o (.inr hmem)).append

/-- The index may forget what a new cursor passes. -/
theorem acknowledge {ts : Nat} (rr : Nat)
    (hle : ind.acknowledgedSequence ≤ ts)
    (hre : ∀ s, ind.acknowledgedSequence < s → s ≤ ts → ind.Resolved s) :
    Recorded rec (ind.acknowledge ts rr) := by
  refine ⟨fun ev hmem => ?_, fun e s i hmem => ?_,
    fun e s re hmem => ?_, fun s hres => ?_, fun s hpos hp => ?_⟩
  · obtain ⟨hpos, hn, hf⟩ := h.prepared ev hmem
    refine ⟨hpos, hn, fun hl => ?_⟩
    obtain ⟨r, hr, rfl⟩ := hf (hle.trans_lt hl)
    exact ⟨r, List.mem_filter.2 ⟨hr, decide_eq_true hl⟩, rfl⟩
  · obtain ⟨hn, hf⟩ := h.committed e s i hmem
    refine ⟨hn, fun hl => ⟨Finset.mem_filter.2 ⟨(hf (hle.trans_lt hl)).1, hl⟩,
      fun r hr => (hf (hle.trans_lt hl)).2 r (List.mem_filter.1 hr).1⟩⟩
  · obtain ⟨hn, hf⟩ := h.aborted e s re hmem
    exact ⟨hn, fun hl => Finset.mem_filter.2 ⟨hf (hle.trans_lt hl), hl⟩⟩
  · refine h.resolved s ?_
    exact hres.imp (fun hmem => (Finset.mem_filter.1 hmem).1) fun hmem => (Finset.mem_filter.1 hmem).1
  · by_cases hold : s ≤ ind.acknowledgedSequence
    · exact h.passed s hpos hold
    · exact h.resolved s (hre s (Nat.lt_of_not_le hold) hp)

/-- Appending a record keeps the index in line with the records. -/
theorem takes {r : WalRecord} {g o : Nat} {e : List DirtyEffect}
    (hi : ind.WellFormed) (ht : ind.Takes g o r next e) :
    Recorded (rec ++ [r]) next := by
  cases ht with
  | prepare _ _ _ hs hid => exact h.prepare hi hs hid
  | commit _ _ _ hr hu =>
    exact h.commit hi (mem_of_find?_eq_some hr) (by simpa using find?_some hr) hu
  | abort _ _ _ hr => exact h.abort hi (mem_of_find?_eq_some hr) (by simpa using find?_some hr)
  | acknowledge _ rr hle _ hre => exact (h.acknowledge rr hle hre).of_append (nofun) (nofun) nofun
  | contentDirty | checkpointed | header => exact h.of_append (nofun) (nofun) nofun

end Recorded

/-- A committed event above the cursor is one the index holds as committed. -/
theorem CommittedIn.mem_coveredEvents {rec : List WalRecord} {a : AppendState}
    {ev : MountEvent} (h : CommittedIn rec ev)
    (hre : Recorded rec a.index) (hin : a.index.WellFormed) {t : Nat}
    (hl : a.acknowledgedSequence < ev.sequence) (hle : ev.sequence ≤ t) :
    ev ∈ a.coveredEvents t := by
  obtain ⟨hp, e, hc⟩ := h
  obtain ⟨-, -, hfi⟩ := hre.prepared _ hp
  obtain ⟨r, hr, heq⟩ := hfi hl
  have hs : r.event.asPrepared.sequence = ev.asPrepared.sequence :=
    congrArg MountEvent.sequence heq
  change r.sequence = ev.sequence at hs
  obtain ⟨hmem, hi⟩ := (hre.committed e _ _ hc).2 hl
  have he : r.event = ev :=
    MountEvent.eq_of_asPrepared heq (hi r hr hs)
  refine AppendState.mem_coveredEvents.2 ⟨hl, hle, hmem, r, ?_, he⟩
  have hso : (a.preparedAt ev.sequence).isSome = true :=
    List.find?_isSome.2 ⟨r, hr, decide_eq_true hs⟩
  obtain ⟨f, hf⟩ := Option.isSome_iff_exists.1 hso
  have hsa : f = r := inj_on_of_nodup_map hin.nodup
    (AppendState.preparedAt_mem hf) hr
    ((AppendState.preparedAt_sequence hf).trans hs.symm)
  exact hsa ▸ hf

/-! ## The records grow -/

/-- The records grow, and what is newly committed had not been settled. -/
structure Grows (records next : List WalRecord) : Prop where
  settled : ∀ sequence, SettledIn records sequence → SettledIn next sequence
  fresh : ∀ event, CommittedIn next event →
    CommittedIn records event ∨ 0 < event.sequence ∧ ¬ SettledIn records event.sequence

theorem Grows.refl (rec : List WalRecord) : Grows rec rec :=
  ⟨fun _ h => h, fun _ h => .inl h⟩

theorem Recorded.grows {rec : List WalRecord} {ind next : IndexView} {r : WalRecord}
    {g o : Nat} {ef : List DirtyEffect} (h : Recorded rec ind)
    (hi : ind.WellFormed) (ht : ind.Takes g o r next ef) :
    Grows rec (rec ++ [r]) := by
  refine ⟨fun s hs => hs.append, fun ev hc => ?_⟩
  obtain ⟨hp, e, hco⟩ := hc
  rcases mem_concat.1 hco with hold | rfl
  · rcases List.mem_append.1 hp with hp | hp
    · exact .inl ⟨hp, e, hold⟩
    · -- a new prepare takes a sequence no terminal record has
      obtain rfl := List.mem_singleton.1 hp
      cases ht with
      | prepare _ _ _ hse _ =>
        have hlt := (h.committed e _ _ hold).1
        exact absurd hse hlt.ne
  · cases ht with
    | commit _ _ f hr hu =>
      have hf := hi.mem_range (mem_of_find?_eq_some hr)
      have hse : f.sequence = ev.sequence := by simpa using find?_some hr
      refine .inr ⟨by omega, fun hs => hu ?_⟩
      exact h.resolved_of_settled hs (by omega)

/-- Every step of the log lets its records grow in line with the index. -/
theorem LogStep.recorded {fr : Framing} {log next : WalLog} (hs : LogStep fr log next)
    (hl : Laid fr log.view log.append.index) (h : Recorded log.records log.append.index) :
    Grows log.records next.records ∧ Recorded next.records next.append.index := by
  have hsa : next.view.history = log.view.history → next.append.index = log.append.index →
      Grows log.records next.records ∧ Recorded next.records next.append.index := by
    intro hh hi
    have hr : next.records = log.records := congrArg (List.map LogEntry.record) hh
    rw [hr, hi]
    exact ⟨Grows.refl _, h⟩
  have hne : ∀ {r g o e},
      next.records = log.records ++ [r] →
      log.append.index.Takes g o r next.append.index e →
      Grows log.records next.records ∧ Recorded next.records next.append.index := by
    intro r g o e hr ht
    rw [hr]
    exact ⟨h.grows hl.wellFormed ht, h.takes hl.wellFormed ht⟩
  cases hs with
  | append hs =>
    cases hs with
    | quiet hv hi => exact hsa (congrArg LogView.history hv) hi
    | append _ _ _ hv ht =>
      refine hne ?_ ht
      refine (congrArg (fun view => view.history.map LogEntry.record) hv).trans ?_
      exact map_append
  | stage _ _ _ hv hi | remove _ _ hv hi => exact hsa (hv ▸ rfl) hi
  | swap hn hv hi =>
    obtain ⟨fs, hr, -⟩ := hl.stored.nextRecords_eq hn
    have ht : log.append.index.Takes (log.append.generation + 1) 0
        (log.view.header (log.append.generation + 1) fs) next.append.index [] := by
      rw [hi, LogView.header, hl.epoch]
      exact .header fs
    refine hne ?_ ht
    refine (congrArg (fun view => view.history.map LogEntry.record) hv).trans ?_
    show (log.history ++ fr.entries _ 0 log.view.nextRecords).map LogEntry.record = _
    rw [hr, map_append]
    rfl

/-! ## The publisher -/

/-- Only an acknowledgement moves the cursor, and only to its sequence. -/
theorem MountWal.Steps.cursor {fr : Framing} {wal next : MountWal} {a : WalAction}
    (h : wal.Steps fr a next) :
    next.log.append.acknowledgedSequence = wal.log.append.acknowledgedSequence ∨
      ∃ ts rr tg,
        a = .record (.acknowledge ts rr tg) ∧ next.log.append.acknowledgedSequence = ts := by
  cases h with
  | record _ h => exact .inl h.frame.2
  | prepareCapture _ _ _ _ _ h =>
    obtain ⟨-, rfl⟩ := WalLog.prepare_eq_ok.1 h
    exact .inl rfl
  | acknowledge ts rr tg h =>
    obtain ⟨-, -, -, -, heq⟩ := WalLog.acknowledge_eq_some h
    obtain ⟨rfl, -⟩ := Prod.mk.inj heq
    exact .inr ⟨ts, rr, tg, rfl, rfl⟩
  | sync _ h => cases h <;> exact .inl rfl
  | rotate _ h =>
    obtain ⟨-, -, rfl⟩ := WalLog.rotateCreate_eq_some h
    exact .inl rfl
  | compact _ h =>
    obtain ⟨rfl, -⟩ := WalLog.compactBegin_eq_some h
    exact .inl rfl
  | advance _ _ h =>
    cases h with
    | mark c _ _ h =>
      obtain ⟨-, rfl⟩ := WalLog.appendFramed_eq_ok.1 h
      cases c <;> exact .inl rfl
    | rotateSwap _ h =>
      obtain ⟨rfl, rfl⟩ := WalLog.rotateSwap_eq_true h
      exact .inl rfl
    | rotateLost _ h =>
      unfold WalLog.rotateSwap at h
      split_ifs at h
      · obtain ⟨rfl, -⟩ := Prod.mk.inj h
        exact .inl rfl
      · cases h
    | _ => exact .inl rfl
  | _ => exact .inl rfl

/-- The step is an acknowledgement. -/
def WalAction.acknowledges : WalAction → Bool
  | .record (.acknowledge ..) => true
  | _ => false

/-- The log with its publisher: the batch of the round under way, and the batches whose runs have
all completed, which nothing reads. -/
structure Publisher where
  wal : MountWal
  round : Option PublishBatch
  published : List PublishBatch

/-- A step of a caller of the log or of the publisher. -/
inductive PublisherAction
  | wal (action : WalAction)
  | begin (limits : BatchLimits)
  | finish (revision treeGeneration : Nat)
  | stall

namespace Publisher

variable (framing fr : Framing) (publisher : Publisher)

def cursor : Nat := publisher.wal.log.append.acknowledgedSequence

/-- Take the next batch and plan its runs; without a batch or without runs the publisher is idle. -/
def beginRound (limits : BatchLimits) : Except String Publisher :=
  match publisher.round with
  | some _ => .error "a round is under way"
  | none => do
    match ← publisher.wal.log.append.nextPublishBatch limits with
    | none => return publisher
    | some batch =>
      let runs ← planRuns batch
      return if runs.isEmpty then publisher else { publisher with round := some batch }

/-- Advance the cursor; a sequence it has passed is not acknowledged again. -/
def acknowledge (throughSequence revision treeGeneration : Nat) : Except String MountWal :=
  if throughSequence ≤ publisher.cursor then .ok publisher.wal
  else publisher.wal.acknowledge framing throughSequence
    (max revision publisher.wal.log.append.remoteRevision) treeGeneration

/-- Every run of the round has completed, at a revision. -/
def finishRound (revision treeGeneration : Nat) : Except String Publisher :=
  match publisher.round with
  | none => .error "no round is under way"
  | some batch => do
    let wal ← publisher.acknowledge framing batch.throughSequence revision treeGeneration
    return { wal := wal, round := none, published := publisher.published ++ [batch] }

/-- Take a step. Nobody but the publisher acknowledges, and a round that meets a failure is given
up. -/
def exec (action : PublisherAction) (publisher : Publisher) : Option Publisher :=
  match action with
  | .wal action =>
    if action.acknowledges then none
    else (publisher.wal.exec framing action).map fun wal => { publisher with wal := wal }
  | .begin limits => (publisher.beginRound limits).toOption
  | .finish revision treeGeneration =>
    (publisher.finishRound framing revision treeGeneration).toOption
  | .stall => some { publisher with round := none }

/-- A publisher on an open log. -/
def start (wal : MountWal) : Publisher where
  wal := wal
  round := none
  published := []

variable {framing fr : Framing} {publisher next : Publisher}

/-- Every way a step succeeds. -/
inductive Steps (framing : Framing) (publisher : Publisher) : Publisher → Prop
  | idle : Steps framing publisher publisher
  | wal (action : WalAction) {wal : MountWal} (hstep : publisher.wal.Steps framing action wal)
      (hcursor : wal.log.append.acknowledgedSequence = publisher.cursor) :
      Steps framing publisher { publisher with wal := wal }
  | begin (limits : BatchLimits) (batch : PublishBatch)
      (hbatch : publisher.wal.log.append.nextPublishBatch limits = .ok (some batch)) :
      Steps framing publisher { publisher with round := some batch }
  | finish (batch : PublishBatch) (action : WalAction) {wal : MountWal}
      (hround : publisher.round = some batch) (hstep : publisher.wal.Steps framing action wal)
      (hcursor : wal.log.append.acknowledgedSequence = publisher.cursor ∨
        wal.log.append.acknowledgedSequence = batch.throughSequence) :
      Steps framing publisher
        { wal := wal, round := none, published := publisher.published ++ [batch] }
  | passed (batch : PublishBatch) (hround : publisher.round = some batch) :
      Steps framing publisher
        { publisher with round := none, published := publisher.published ++ [batch] }
  | stall : Steps framing publisher { publisher with round := none }

theorem acknowledge_steps {ts r tg : Nat} {wal : MountWal}
    (h : publisher.acknowledge fr ts r tg = .ok wal) :
    wal = publisher.wal ∨ ∃ a, publisher.wal.Steps fr a wal ∧
      (wal.log.append.acknowledgedSequence = publisher.cursor ∨
        wal.log.append.acknowledgedSequence = ts) := by
  unfold acknowledge at h
  split_ifs at h with hp
  · exact .inl (Except.ok.inj h).symm
  · have he : publisher.wal.exec fr (.record (.acknowledge ts
        (max r publisher.wal.log.append.remoteRevision) tg)) = some wal := by
      show Except.toOption _ = _
      exact congrArg Except.toOption h
    have hs := steps_of_exec he
    refine .inr ⟨_, hs, hs.cursor.imp_right ?_⟩
    rintro ⟨_, _, _, hsa, hc⟩
    cases hsa
    exact hc

theorem steps_of_exec {a : PublisherAction} (h : exec fr a publisher = some next) :
    publisher.Steps fr next := by
  cases a with
  | wal a =>
    unfold exec at h
    simp only at h
    split_ifs at h with ha
    obtain ⟨wal, hw, rfl⟩ := Option.map_eq_some_iff.1 h
    have hs := steps_of_exec hw
    refine .wal a hs (hs.cursor.resolve_right ?_)
    rintro ⟨_, _, _, rfl, -⟩
    exact ha rfl
  | begin l =>
    have hb : publisher.beginRound l = .ok next := toOption_eq_some.1 h
    unfold beginRound at hb
    split at hb
    · cases hb
    · obtain ⟨f, hfo, hb⟩ := bind_eq_ok.1 hb
      cases f with
      | none =>
        obtain rfl := pure_eq_ok.1 hb
        exact .idle
      | some ba =>
        obtain ⟨_, -, rfl⟩ := bind_pure_eq_ok.1 hb
        split_ifs
        · exact .idle
        · exact .begin l ba hfo
  | finish r tg =>
    have hf : publisher.finishRound fr r tg = .ok next :=
      toOption_eq_some.1 h
    unfold finishRound at hf
    split at hf
    · cases hf
    · rename_i ba hr
      obtain ⟨wal, hw, rfl⟩ := bind_pure_eq_ok.1 hf
      rcases acknowledge_steps hw with rfl | ⟨a, hs, hc⟩
      · exact .passed ba hr
      · exact .finish ba a hr hs hc
  | stall =>
    cases h
    exact .stall

end Publisher

/-! ## The invariant -/

/-- The batch reaches over settled sequences only, and its events are among them. -/
structure PublishBatch.Closed (records : List WalRecord) (batch : PublishBatch) : Prop where
  settled : ∀ sequence, 0 < sequence → sequence ≤ batch.throughSequence →
    SettledIn records sequence
  bounded : ∀ target ∈ batch.events, target.sequence ≤ batch.throughSequence

/-- The batch covers the event and says what became of it. -/
structure PublishBatch.Accounts (records : List WalRecord) (batch : PublishBatch)
    (event : MountEvent) : Prop where
  covered : event.sequence ≤ batch.throughSequence
  fate : Fate (CommittedIn records) batch.events event

section Growth

variable {rec next : List WalRecord} {ba : PublishBatch}

theorem PublishBatch.Closed.grows (h : ba.Closed rec) (hg : Grows rec next) :
    ba.Closed next :=
  ⟨fun s hpos hle => hg.settled s (h.settled s hpos hle), h.bounded⟩

/-- What a closed batch covers was committed when it was taken. -/
theorem PublishBatch.Closed.committed (h : ba.Closed rec) (hg : Grows rec next)
    {e : MountEvent} (hc : CommittedIn next e)
    (hle : e.sequence ≤ ba.throughSequence) : CommittedIn rec e := by
  rcases hg.fresh e hc with hold | ⟨hpos, hu⟩
  · exact hold
  · exact absurd (h.settled e.sequence hpos hle) hu

theorem PublishBatch.Accounts.grows {e : MountEvent} (h : ba.Accounts rec e)
    (hc : ba.Closed rec) (hg : Grows rec next) :
    ba.Accounts next e := by
  refine ⟨h.covered, h.fate.mono ⟨Nat.zero_le _, Nat.lt_succ_of_le h.covered⟩ ?_ ?_⟩
  · exact fun t ht =>
      ⟨Nat.zero_le _, Nat.lt_succ_of_le (hc.bounded t ht)⟩
  · exact fun o ho _ hlt => hc.committed hg ho (Nat.le_of_lt_succ hlt)

end Growth

namespace Publisher

/-- The round under way accounts for what it covers above a cursor of the past, and the published
batches for everything the cursor has passed. -/
structure Sound (framing : Framing) (publisher : Publisher) : Prop where
  consistent : publisher.wal.Consistent framing
  recorded : Recorded publisher.wal.log.records publisher.wal.log.append.index
  round : ∀ batch, publisher.round = some batch → batch.Closed publisher.wal.log.records ∧
    ∃ start ≤ publisher.cursor, ∀ event, CommittedIn publisher.wal.log.records event →
      start < event.sequence → event.sequence ≤ batch.throughSequence →
      batch.Accounts publisher.wal.log.records event
  closed : ∀ batch ∈ publisher.published, batch.Closed publisher.wal.log.records
  published : ∀ event, CommittedIn publisher.wal.log.records event →
    event.sequence ≤ publisher.cursor →
    ∃ batch ∈ publisher.published, batch.Accounts publisher.wal.log.records event

variable {framing fr : Framing} {publisher next : Publisher}

/-- A step of the log, with what the publisher makes of it. -/
theorem Sound.walStep (h : publisher.Sound fr) {a : WalAction}
    (hst : publisher.wal.Steps fr a next.wal) (hcu : publisher.cursor ≤ next.cursor)
    (hs : ∀ se, 0 < se → se ≤ next.cursor → SettledIn publisher.wal.log.records se)
    (hro : ∀ ba, next.round = some ba → publisher.round = some ba)
    (hcl : ∀ ba ∈ next.published, ba.Closed publisher.wal.log.records)
    (ha : ∀ e, CommittedIn publisher.wal.log.records e →
      e.sequence ≤ next.cursor →
      ∃ ba ∈ next.published, ba.Accounts publisher.wal.log.records e) :
    next.Sound fr := by
  obtain ⟨hg, hr⟩ := (hst.logStep h.consistent).recorded h.consistent.laid h.recorded
  refine ⟨h.consistent.steps hst, hr, fun ba hb => ?_, fun ba hb =>
    (hcl ba hb).grows hg, fun e hc hle => ?_⟩
  · obtain ⟨ho, s, hsta, hall⟩ := h.round ba (hro ba hb)
    refine ⟨ho.grows hg, s, hsta.trans hcu, fun e hc hl hle => ?_⟩
    exact (hall e (ho.committed hg hc hle) hl hle).grows ho hg
  · -- nothing at or below the cursor is newly committed
    have hold : CommittedIn publisher.wal.log.records e := by
      rcases hg.fresh e hc with hold | ⟨hpos, hu⟩
      · exact hold
      · exact absurd (hs e.sequence hpos hle) hu
    obtain ⟨ba, hb, ho⟩ := ha e hold hle
    exact ⟨ba, hb, ho.grows (hcl ba hb) hg⟩

/-- The batch taken from the index accounts for everything above the cursor it reaches. -/
theorem Sound.begin (h : publisher.Sound fr) {l : BatchLimits} {ba : PublishBatch}
    (hb : publisher.wal.log.append.nextPublishBatch l = .ok (some ba)) :
    Sound fr { publisher with round := some ba } := by
  have hi := h.consistent.laid.wellFormed
  obtain ⟨hr, hf⟩ := nextPublishBatch_fates hi.disjoint hb
  have hq : ∀ t ∈ ba.events, publisher.cursor < t.sequence ∧
      t.sequence ≤ ba.throughSequence := by
    intro t ht
    have hmem := hf.sublist.subset (mem_map_of_mem ht)
    obtain ⟨hl, hle, -⟩ := AppendState.mem_coveredEvents.1 hmem
    exact ⟨hl, hle⟩
  refine ⟨h.consistent, h.recorded, fun ta hta => ?_, h.closed, h.published⟩
  cases hta
  refine ⟨⟨fun s hpos hle => ?_, fun t ht => (hq t ht).2⟩,
    publisher.cursor, le_rfl, fun e hc hl hle => ⟨hle, ?_⟩⟩
  · by_cases hp : s ≤ publisher.cursor
    · exact h.recorded.passed s hpos hp
    · exact h.recorded.resolved s (hr s (Nat.lt_of_not_le hp) hle)
  · have hmem := hc.mem_coveredEvents h.recorded hi hl hle
    refine (hf.fate e hmem).mono ⟨hl.le, Nat.lt_succ_of_le hle⟩ ?_ ?_
    · exact fun t ht =>
        ⟨(hq t ht).1.le, Nat.lt_succ_of_le (hq t ht).2⟩
    · exact fun o ho hl hlt =>
        ho.mem_coveredEvents h.recorded hi hl (Nat.le_of_lt_succ hlt)

/-- Every step keeps the accounts. -/
theorem Sound.steps (h : publisher.Sound fr) (hs : publisher.Steps fr next) :
    publisher.cursor ≤ next.cursor ∧ next.Sound fr := by
  cases hs with
  | idle => exact ⟨le_rfl, h⟩
  | wal _ hs hcu =>
    refine ⟨hcu.ge, h.walStep hs hcu.ge (fun s hpos hle => ?_)
      (fun _ hr => hr) h.closed fun e hc hle => ?_⟩
    · exact h.recorded.passed s hpos (hle.trans hcu.le)
    · exact h.published e hc (hle.trans hcu.le)
  | begin _ _ hb => exact ⟨le_rfl, h.begin hb⟩
  | finish ba _ hr hs hcu =>
    obtain ⟨hcl, _, hst, hall⟩ := h.round ba hr
    have hle := (hs.logStep h.consistent).acknowledgedSequence_le
    refine ⟨hle, h.walStep hs hle (fun s hpos hp => ?_) (nofun) (fun o ho => ?_) fun e hc hp => ?_⟩
    · rcases hcu with hsa | ht
      · exact h.recorded.passed s hpos (hp.trans hsa.le)
      · exact hcl.settled s hpos (hp.trans ht.le)
    · rcases mem_concat.1 ho with hold | rfl
      · exact h.closed o hold
      · exact hcl
    · by_cases hold : e.sequence ≤ publisher.cursor
      · obtain ⟨o, ho, ha⟩ := h.published e hc hold
        exact ⟨o, mem_append_left _ ho, ha⟩
      · have ht : e.sequence ≤ ba.throughSequence := by
          rcases hcu with hsa | ht
          · exact absurd (hp.trans hsa.le) hold
          · exact hp.trans ht.le
        exact ⟨ba, mem_append_right _ (mem_singleton_self _),
          hall e hc (hst.trans_lt (Nat.lt_of_not_le hold)) ht⟩
  | passed ba hr =>
    obtain ⟨hcl, -⟩ := h.round ba hr
    refine ⟨le_rfl, h.consistent, h.recorded, (nofun), fun o ho => ?_, fun e hc hle => ?_⟩
    · rcases mem_concat.1 ho with hold | rfl
      · exact h.closed o hold
      · exact hcl
    · obtain ⟨o, ho, ha⟩ := h.published e hc hle
      exact ⟨o, mem_append_left _ ho, ha⟩
  | stall => exact ⟨le_rfl, h.consistent, h.recorded, (nofun), h.closed, h.published⟩

theorem sound_start {ep : String} (hs : Startable fr ep) :
    (start (fresh fr ep)).Sound fr := by
  have hr : Recorded (fresh fr ep).log.records
      (fresh fr ep).log.append.index := by
    have hre : (fresh fr ep).log.records = [freshHeader ep, .checkpointed ep 0 0] := rfl
    rw [hre]
    refine ⟨fun e hmem => ?_, fun _ s i hmem => ?_,
      fun _ s r hmem => ?_, fun s hres => ?_, fun s hpos hle => ?_⟩
    · simp [freshHeader] at hmem
    · simp [freshHeader] at hmem
    · simp [freshHeader] at hmem
    · rcases hres with hmem | hmem <;> cases hmem
    · exact absurd hpos (Nat.not_lt.2 hle)
  refine ⟨consistent_fresh hs, hr, (nofun), (nofun), fun e hc hle => ?_⟩
  exact absurd (hr.prepared _ hc.1).1 (Nat.not_lt.2 hle)

/-- **The cursor skips nothing.** It never moves back, everything it has passed is committed or
aborted, and every committed event it has passed is in a published batch, folded onto a generation
of its file there, or superseded by a later one there. -/
theorem cursor_skips_nothing {epoch : String} {initial : MountWal}
    (hcreate : create framing epoch = .ok initial) {actions : List PublisherAction}
    (hrun : Schedule.run (exec framing) actions (start initial) = some publisher) :
    (∀ more later, Schedule.run (exec framing) more publisher = some later →
      publisher.cursor ≤ later.cursor) ∧
    (∀ sequence, 0 < sequence → sequence ≤ publisher.cursor →
      SettledIn publisher.wal.log.records sequence) ∧
    ∀ event, CommittedIn publisher.wal.log.records event →
      event.sequence ≤ publisher.cursor →
      ∃ batch ∈ publisher.published,
        Fate (CommittedIn publisher.wal.log.records) batch.events event := by
  obtain ⟨hsta, rfl⟩ := create_eq_ok hcreate
  have hs : publisher.Sound framing := by
    refine Schedule.run_invariant (fun a b af hb hst => ?_) hrun (sound_start hsta)
    exact (hb.steps (steps_of_exec hst)).2
  refine ⟨fun more later hm => ?_, hs.recorded.passed, fun event hc hle => ?_⟩
  · have hl : publisher.cursor ≤ later.cursor ∧ later.Sound framing := by
      refine Schedule.run_invariant (P := fun s => publisher.cursor ≤ s.cursor ∧
        s.Sound framing) (fun a b af hb hst => ?_) hm ⟨le_rfl, hs⟩
      obtain ⟨hle, haf⟩ := hb.2.steps (steps_of_exec hst)
      exact ⟨hb.1.trans hle, haf⟩
    exact hl.1
  · obtain ⟨batch, hba, ha⟩ := hs.published event hc hle
    exact ⟨batch, hba, ha.fate⟩

/-- The event of one of two generations of a small file, packed into the first segment. -/
def smallGeneration (sequence offset : Nat) (contentHash : String) : MountEvent where
  formatVersion := walFormatVersion
  epoch := "epoch"
  sequence := sequence
  idempotencyKey := "epoch:" ++ toString sequence
  mutation := smallWrite
  payload := some ⟨.segment (segmentName 0) offset, 4, payloadHashAlgorithm, contentHash⟩
  preImage := smallWriteImage
  localIdentity := none

/-- Capture, prepare and commit a generation. -/
def writeGeneration (sequence offset : Nat) (contentHash : String) : List PublisherAction :=
  [.wal (.capture (.reserveSegment smallWrite smallWriteImage 4 contentHash)),
    .wal (.capture (.write 0)), .wal (.record (.prepareCapture 0)),
    .wal (.record (.commit (smallGeneration sequence offset contentHash) none))]

/-- A file is written twice and published in one round. -/
def rewritten : List PublisherAction :=
  writeGeneration 1 0 "9f86d081" ++ writeGeneration 2 4 "60303ae2" ++
    [.begin ⟨16, 1024, 1024⟩, .finish 7 0]

/-- Of the two generations, the published batch holds the second one; the first one is superseded
by it. -/
theorem cursor_skips_nothing_rewritten : ∃ initial publisher,
    create smallFrames "epoch" = .ok initial ∧
      Schedule.run (exec smallFrames) rewritten (start initial) = some publisher ∧
      publisher.cursor = 2 ∧ publisher.published.map (fun batch => batch.events.length) = [1] ∧
      SettledIn publisher.wal.log.records 1 ∧
      ∃ batch ∈ publisher.published, Fate (CommittedIn publisher.wal.log.records) batch.events
        (smallGeneration 1 0 "9f86d081") := by
  have hrun : (Schedule.run (exec smallFrames) rewritten
      (start (fresh smallFrames "epoch"))).any (fun publisher =>
        publisher.cursor = 2 ∧ publisher.published.map (fun batch => batch.events.length) = [1] ∧
        .prepared (smallGeneration 1 0 "9f86d081") ∈ publisher.wal.log.records ∧
        .committed "epoch" 1 none ∈ publisher.wal.log.records) = true := by
    decide +kernel
  obtain ⟨publisher, hp, hf⟩ := Schedule.exists_of_run_any hrun
  obtain ⟨hcu, hl, hpr, hco⟩ := of_decide_eq_true hf
  have hc := create_eq startable_smallFrames
  obtain ⟨-, hs, ha⟩ := cursor_skips_nothing hc hp
  exact ⟨_, publisher, hc, hp, hcu, hl,
    hs 1 Nat.one_pos (by omega),
    ha _ ⟨hpr, "epoch", hco⟩ (by rw [hcu]; decide)⟩

end Publisher

end Chevalier.LocalView
