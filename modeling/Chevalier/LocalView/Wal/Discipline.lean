import Chevalier.LocalView.Publish.Cursor

/-!
# The order of the log's records

The log is written by any number of callers, under one lock. `Disciplined` says in which order their
records can stand in it, over all generations.

* `records_disciplined`: the records of every run are in such an order.
-/

namespace Chevalier.LocalView

open Fold MountWal

/-- What may be appended to the records. -/
def Follows (earlier : List WalRecord) : WalRecord → Prop
  | .prepared event => event.sequence = (earlier.filterMap WalRecord.event?).length + 1
  | .committed _ sequence _ | .aborted _ sequence _ =>
    (∃ event, .prepared event ∈ earlier ∧ event.sequence = sequence) ∧ ¬ SettledIn earlier sequence
  | .remoteAcknowledged _ throughSequence _ =>
    ∀ sequence, 0 < sequence → sequence ≤ throughSequence → SettledIn earlier sequence
  | .logHeader .. | .contentDirty .. | .checkpointed .. => True

/-- Each record follows those before it. -/
inductive Disciplined : List WalRecord → Prop
  | nil : Disciplined []
  | append {records : List WalRecord} {record : WalRecord} (h : Disciplined records)
      (hf : Follows records record) : Disciplined (records ++ [record])

/-- The index knows how many prepares there are, beside what the records above the cursor say. -/
structure Counted (records : List WalRecord) (index : IndexView) : Prop extends
    Recorded records index where
  count : index.nextSequence = (records.filterMap WalRecord.event?).length + 1
  disciplined : Disciplined records

theorem Counted.takes {rec : List WalRecord} {ind next : IndexView} {r : WalRecord} {g o : Nat}
    {e : List DirtyEffect} (h : Counted rec ind) (hi : ind.WellFormed)
    (hp : ∀ record ∈ ind.prepared, ∃ event, .prepared event ∈ rec ∧ event.sequence = record.sequence)
    (ht : ind.Takes g o r next e) : Counted (rec ++ [r]) next := by
  -- a terminal record is appended to an unresolved prepare above the cursor
  have hterminal : ∀ {s : Nat} {record : PreparedRecord},
      ind.prepared.find? (fun record => record.sequence = s) = some record → ¬ ind.Resolved s →
      (∃ event, .prepared event ∈ rec ∧ event.sequence = s) ∧ ¬ SettledIn rec s := by
    intro s record hr hu
    have hmem := List.mem_of_find?_eq_some hr
    obtain rfl : record.sequence = s := by simpa using List.find?_some hr
    exact ⟨hp record hmem, fun hs => hu (h.resolved_of_settled hs (hi.mem_range hmem).1)⟩
  refine ⟨h.toRecorded.takes hi ht, ?_, .append h.disciplined ?_⟩
  · have hc := h.count
    cases ht <;> simp_all [WalRecord.event?, IndexView.prepare, IndexView.commit, IndexView.abort,
      IndexView.acknowledge]
  · cases ht with
    | prepare _ _ _ hs => exact hs.trans h.count
    | commit _ _ _ hr hu | abort _ _ _ hr hu => exact hterminal hr hu
    | acknowledge _ _ _ _ hres =>
      intro s hpos hle
      by_cases hc : s ≤ ind.acknowledgedSequence
      · exact h.passed s hpos hc
      · exact h.resolved s (hres s (Nat.lt_of_not_le hc) hle)
    | contentDirty | checkpointed | header => trivial

/-- A step of the log appends a record that the index takes, or none. -/
theorem LogStep.records_cases {fr : Framing} {log next : WalLog} (hs : LogStep fr log next)
    (hl : Laid fr log.view log.append.index) :
    (next.records = log.records ∧ next.append.index = log.append.index) ∨
      ∃ r g o e, next.records = log.records ++ [r] ∧
        log.append.index.Takes g o r next.append.index e := by
  have hr : ∀ {view : LogView}, next.view = view →
      next.records = view.history.map LogEntry.record := by
    rintro _ rfl
    rfl
  cases hs with
  | append hs =>
    cases hs with
    | quiet hv hi => exact .inl ⟨hr hv, hi⟩
    | append r e _ hv ht => exact .inr ⟨r, _, _, e, (hr hv).trans List.map_append, ht⟩
  | stage _ _ _ hv hi | remove _ _ hv hi => exact .inl ⟨hr hv, hi⟩
  | swap hn hv hi =>
    obtain ⟨first, hnext, -⟩ := hl.stored.nextRecords_eq hn
    refine .inr ⟨log.view.header (log.append.generation + 1) first, log.append.generation + 1, 0, [],
      ?_, ?_⟩
    · rw [hr hv, LogView.swapped, hnext, List.map_append]
      rfl
    · rw [hi, LogView.header, hl.epoch]
      exact .header first

/-- **The records of every run stand in order**: whatever the callers do, prepares are numbered from
one on, each sequence has at most one terminal record, behind its prepare, and the log acknowledges
settled sequences only. -/
theorem records_disciplined {framing : Framing} {epoch : String} {initial wal : MountWal}
    {actions : List WalAction} (hcreate : create framing epoch = .ok initial)
    (hrun : Schedule.run (exec framing) actions initial = some wal) :
    Disciplined wal.log.records := by
  obtain ⟨hst, rfl⟩ := create_eq_ok hcreate
  have hinv : wal.Consistent framing ∧ Counted wal.log.records wal.log.append.index := by
    refine Schedule.run_invariant (P := fun wal => wal.Consistent framing ∧
      Counted wal.log.records wal.log.append.index) ?_ hrun
      ⟨consistent_fresh hst, (Publisher.sound_start hst).recorded, rfl, ?_⟩
    · intro action _ _ ⟨hc, hd⟩ hexec
      have hs := steps_of_exec hexec
      refine ⟨hc.steps hs, ?_⟩
      obtain ⟨hr, hi⟩ | ⟨r, g, o, e, hr, ht⟩ := (hs.logStep hc).records_cases hc.laid
      · rw [hr, hi]
        exact hd
      · rw [hr]
        refine hd.takes hc.laid.wellFormed (fun record hmem => ?_) ht
        obtain ⟨entry, he, -, -, event, hrec, hseq, -⟩ := hc.laid.placed record hmem
        exact ⟨event, List.mem_map.2 ⟨entry, he, hrec⟩, hseq⟩
    · have hheader : Disciplined ([] ++ [freshHeader epoch]) := .append .nil trivial
      exact hheader.append trivial
  exact hinv.2.disciplined

/-- A capture is prepared and synced. -/
theorem records_disciplined_orderedRound : ∃ initial wal,
    create smallFrames "epoch" = .ok initial ∧
      Schedule.run (exec smallFrames) orderedRound initial = some wal ∧
      Disciplined wal.log.records := by
  have hrun : (Schedule.run (exec smallFrames) orderedRound (fresh smallFrames "epoch")).isSome =
      true := by decide +kernel
  obtain ⟨wal, hw⟩ := Option.isSome_iff_exists.1 hrun
  exact ⟨_, wal, create_eq startable_smallFrames, hw,
    records_disciplined (create_eq startable_smallFrames) hw⟩

end Chevalier.LocalView
