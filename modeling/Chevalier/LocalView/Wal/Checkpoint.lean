import Chevalier.LocalView.Wal.Fresh

/-!
# What a checkpoint describes

A checkpoint is written from the index at one moment and read back at a later one, after more
records, rotations and deletions. `Described` says that replay from the checkpoint still works: its
replay point is a place of the log, the generations it declares are the ones up to some later
generation, and the records from the replay point on lead to the index as it stands.

* `Described.logStep`: a checkpoint keeps describing the log, whatever a step does to it.
* `Described.checkpointNow`: the checkpoint a section writes describes the log, because the one
  before it does.
-/

namespace Chevalier.LocalView

open List

/-! ## Entries from a point on -/

/-- A list that is sorted by a relation splits at a predicate that the relation closes downwards. -/
theorem filter_append_filter_not {α : Type*} {r : α → α → Prop} {p : α → Prop} [DecidablePred p]
    {l : List α} (hs : l.Pairwise r) (hc : ∀ a b, r a b → p b → p a) :
    l = l.filter (fun a => p a) ++ l.filter fun a => ¬ p a := by
  induction l with
  | nil => rfl
  | cons head rest ih =>
    obtain ⟨hh, hr⟩ := List.pairwise_cons.1 hs
    by_cases h : p head
    · rw [filter_cons_of_pos (by simpa using h), filter_cons_of_neg (by simpa using h),
        cons_append, ← ih hr]
    · have hn : rest.filter (fun a => p a) = [] := by
        refine List.filter_eq_nil_iff.2 fun a ha hpa => h ?_
        exact hc head a (hh a ha) (by simpa using hpa)
      have hall : (rest.filter fun a => ¬ p a) = rest := by
        refine List.filter_eq_self.2 fun a ha => ?_
        by_contra hpa
        exact h (hc head a (hh a ha) (by simpa using hpa))
      rw [filter_cons_of_neg (by simpa using h), filter_cons_of_pos (by simpa using h),
        hn, hall, nil_append]

namespace LogView

variable {f : Framing} {view : LogView} {point po la : Nat × Nat}

/-- The end of the log is not before the point. -/
def Reaches (view : LogView) (point : Nat × Nat) : Prop :=
  point.1 < view.generation ∨ point.1 = view.generation ∧ point.2 ≤ view.generationLen

theorem entriesFrom_appended (r : WalRecord) (hr : view.Reaches po) :
    (view.appended f r).entriesFrom po =
      view.entriesFrom po ++ [⟨view.generation, view.generationLen, r⟩] := by
  have hn : ¬ (⟨view.generation, view.generationLen, r⟩ : LogEntry).Before po := by
    rintro (hlt | ⟨heq, hlt⟩)
    · rcases hr with h | ⟨h, -⟩ <;> simp only at hlt <;> omega
    · rcases hr with h | ⟨h, hle⟩ <;> simp only at heq hlt <;> omega
  unfold entriesFrom appended
  rw [filter_append, filter_cons_of_pos (by simpa using hn), filter_nil]

theorem entriesFrom_swapped (hle : po.1 ≤ view.generation) :
    (view.swapped f).entriesFrom po =
      view.entriesFrom po ++ f.entries (view.generation + 1) 0 view.nextRecords := by
  have hn : (f.entries (view.generation + 1) 0 view.nextRecords).filter
      (fun e => ¬ e.Before po) = f.entries (view.generation + 1) 0 view.nextRecords := by
    refine List.filter_eq_self.2 fun e he => ?_
    have hg := (f.mem_entries he).1
    have hnot : ¬ e.Before po := by
      rintro (hlt | ⟨heq, -⟩) <;> omega
    simpa using hnot
  unfold entriesFrom swapped
  rw [filter_append, hn]

/-- From an earlier point on, the entries are those up to a later one and those from it on. -/
theorem Stored.entriesFrom_split (h : view.Stored f)
    (hle : ∀ e : LogEntry, e.Before po → e.Before la) :
    view.entriesFrom po =
      (view.entriesFrom po).filter (fun e => e.Before la) ++ view.entriesFrom la := by
  have hs : (view.entriesFrom po).Pairwise fun a b => a.Before (b.generation, b.offset) :=
    h.sorted.filter _
  have hc : ∀ a b : LogEntry, a.Before (b.generation, b.offset) → b.Before la →
      a.Before la := by
    rintro a b (hab | ⟨hab, ho⟩) (hb | ⟨hb, hlt⟩) <;> unfold LogEntry.Before <;>
      simp only at * <;> omega
  have hr : ((view.entriesFrom po).filter fun e => ¬ e.Before la) =
      view.entriesFrom la := by
    unfold entriesFrom
    rw [filter_filter]
    refine filter_congr fun e _ => ?_
    by_cases hl : e.Before la
    · simp [hl]
    · have hp : ¬ e.Before po := fun hbe => hl (hle e hbe)
      simp [hl, hp]
  exact hr ▸ filter_append_filter_not hs hc

/-- A place of the log is not beyond its end. -/
theorem Stored.reaches (h : view.Stored f) (hb : view.Boundary f po)
    (hle : po.1 ≤ view.generation) : view.Reaches po := by
  rcases Nat.lt_or_eq_of_le hle with hlt | heq
  · exact .inl hlt
  · refine .inr ⟨heq, ?_⟩
    rcases hb with ⟨e, he, _, ho⟩ | hen
    · rcases h.behind e he with hlt | ⟨-, hlt⟩
      · omega
      · exact ho ▸ hlt.le
    · rw [hen, heq, h.length_eq]

theorem Boundary.appended (h : view.Boundary f po) (r : WalRecord)
    (hs : view.Stored f) : (view.appended f r).Boundary f po := by
  rcases h with ⟨e, he, hp⟩ | hen
  · exact .inl ⟨e, mem_append_left _ he, hp⟩
  · by_cases hg : view.generation = po.1
    · refine .inl ⟨_, mem_append_right _ (mem_singleton_self _), hg, ?_⟩
      rw [hen, ← hg, hs.length_eq]
    · refine .inr ?_
      rw [lengthOf_appended, if_neg hg, Nat.add_zero]
      exact hen

theorem Boundary.swapped (h : view.Boundary f po) (hle : po.1 ≤ view.generation) :
    (view.swapped f).Boundary f po := by
  rcases h with ⟨e, he, hp⟩ | hen
  · exact .inl ⟨e, mem_append_left _ he, hp⟩
  · refine .inr ?_
    rw [lengthOf, entriesOf_swapped_of_le hle]
    exact hen

end LogView

/-! ## Checkpoints -/

namespace MountCheckpoint

/-- Where replay from the checkpoint starts. -/
def replayPoint (checkpoint : MountCheckpoint) : Nat × Nat :=
  (checkpoint.replayLogGeneration, checkpoint.replayLogOffset)

def anchor (checkpoint : MountCheckpoint) : ScanAnchor :=
  ⟨checkpoint.firstUnprunedSequence, checkpoint.acknowledgedSequence, checkpoint.remoteRevision⟩

end MountCheckpoint

/-- Replay from the checkpoint leads to the index. -/
structure Described (framing : Framing) (view : LogView) (index : IndexView)
    (checkpoint : MountCheckpoint) : Prop where
  valid : checkpoint.validate = .ok ()
  epoch : checkpoint.epoch = index.epoch
  first : checkpoint.firstUnprunedSequence = checkpoint.acknowledgedSequence + 1
  boundary : view.Boundary framing checkpoint.replayPoint
  replay_le : checkpoint.replayLogGeneration ≤ view.generation
  declared : ∃ top ≤ view.generation, ∀ generation, generation ∈ checkpoint.declared ↔
    checkpoint.replayLogGeneration ≤ generation ∧ generation ≤ top
  paths : ∀ path ∈ checkpoint.dirtyContentPaths, validateMountPath path = .ok ()
  anchored : ∃ effects, Anchored framing index checkpoint.anchor
    (view.entriesFrom checkpoint.replayPoint) effects

namespace Described

variable {f : Framing} {view : LogView} {i next : IndexView}
  {ch : MountCheckpoint}

theorem reaches (h : Described f view i ch) (hs : view.Stored f) :
    view.Reaches ch.replayPoint :=
  hs.reaches h.boundary h.replay_le

/-- A record appended in lockstep with the index extends the replay. -/
theorem append (h : Described f view i ch) (hlaid : Laid f view i)
    {record : WalRecord} {e : List DirtyEffect}
    (hs : f.bytes record ≤ maxRecordBytes)
    (ht : i.Takes view.generation view.generationLen record next e) :
    Described f (view.appended f record) next ch := by
  obtain ⟨met, ha⟩ := h.anchored
  refine ⟨h.valid, h.epoch.trans ht.epoch_eq.symm, h.first,
    h.boundary.appended record hlaid.stored, h.replay_le, h.declared, h.paths, e ++ met, ?_⟩
  rw [LogView.entriesFrom_appended record (h.reaches hlaid.stored)]
  exact ha.extend hlaid.wellFormed ⟨view.generation, view.generationLen, record⟩ hs ht

/-- Switching to the next generation extends the replay by its header. -/
theorem swapped (h : Described f view i ch) (hlaid : Laid f view i)
    (hn : view.generation + 1 ∈ view.files.map LogFile.generation) :
    Described f (view.swapped f) i ch := by
  obtain ⟨met, ha⟩ := h.anchored
  obtain ⟨fs, hr, hs⟩ := hlaid.stored.nextRecords_eq hn
  obtain ⟨top, htop, hd⟩ := h.declared
  refine ⟨h.valid, h.epoch, h.first, h.boundary.swapped h.replay_le, Nat.le_succ_of_le h.replay_le,
    ⟨top, Nat.le_succ_of_le htop, hd⟩, h.paths, [] ++ met, ?_⟩
  rw [LogView.entriesFrom_swapped h.replay_le, hr]
  refine ha.extend hlaid.wellFormed
    ⟨view.generation + 1, 0, view.header (view.generation + 1) fs⟩ hs ?_
  show i.Takes _ _ (.logHeader walFormatVersion view.epoch _ _) _ _
  rw [hlaid.epoch]
  exact .header fs

/-- Files do not matter to what a checkpoint describes. -/
theorem of_history {view' : LogView} (h : Described f view i ch)
    (hg : view'.generation = view.generation) (hh : view'.history = view.history) :
    Described f view' i ch := by
  obtain ⟨top, htop, hd⟩ := h.declared
  have he : view'.entriesFrom ch.replayPoint =
      view.entriesFrom ch.replayPoint := by
    unfold LogView.entriesFrom
    rw [hh]
  have hb : view'.Boundary f ch.replayPoint := by
    have hb := h.boundary
    unfold LogView.Boundary LogView.lengthOf LogView.entriesOf at hb ⊢
    rwa [hh]
  exact ⟨h.valid, h.epoch, h.first, hb, hg ▸ h.replay_le,
    ⟨top, hg ▸ htop, hd⟩, h.paths, he ▸ h.anchored⟩

section

variable {log : WalLog} (h : Described f log.view log.append.index ch)
  (hlaid : Laid f log.view log.append.index)
include h hlaid

/-- **A checkpoint keeps describing the log**, whatever a step does to it. -/
theorem logStep {next : WalLog} (hs : LogStep f log next) :
    Described f next.view next.append.index ch := by
  cases hs with
  | append hs =>
    cases hs with
    | quiet hv hi =>
      rw [hv, hi]
      exact h
    | append _ _ hsm hv ht =>
      rw [hv]
      exact h.append hlaid hsm ht
  | stage _ _ _ hv hi | remove _ _ hv hi =>
    rw [hv, hi]
    exact h.of_history rfl rfl
  | swap hn hv hi =>
    rw [hv, hi]
    exact h.swapped hlaid hn

/-- The checkpoint's replay point is not behind the current one. -/
theorem point_le :
    ch.replayLogGeneration < log.replayPoint.1 ∨
      ch.replayLogGeneration = log.replayPoint.1 ∧ ch.replayLogOffset ≤ log.replayPoint.2 := by
  unfold WalLog.replayPoint
  split
  · rename_i r hh
    -- the scan from the checkpoint on has collected the oldest retained prepare
    obtain ⟨_, ha⟩ := h.anchored
    obtain ⟨_, hs, ht⟩ := ha.whole
    have hmem : r ∈ log.append.index.prepared := mem_of_mem_head? hh
    rw [← ht.prepared] at hmem
    obtain ⟨e, he, -, -, -, _, _⟩ := hs.exists_entry (List.mem_filter.1 hmem).1
    have haf : ¬ e.Before ch.replayPoint := by
      simpa using (List.mem_filter.1 he).2
    unfold LogEntry.Before MountCheckpoint.replayPoint at haf
    simp only
    omega
  · exact h.reaches hlaid.stored

/-- The records from the current replay point on lead to the index, with everything the cursor
covers pruned. -/
theorem now :
    ∃ ef, Anchored f log.append.index
      ⟨log.append.acknowledgedSequence + 1, log.append.acknowledgedSequence,
        log.append.remoteRevision⟩ (log.view.entriesFrom log.replayPoint) ef := by
  have hle := h.point_le hlaid
  have hb : ∀ e : LogEntry, e.Before ch.replayPoint →
      e.Before log.replayPoint := by
    intro e hb
    unfold LogEntry.Before MountCheckpoint.replayPoint at *
    simp only at hb
    omega
  obtain ⟨ef, ha⟩ := h.anchored
  rw [hlaid.stored.entriesFrom_split hb] at ha
  obtain ⟨kept, -, hk⟩ := ha.rebase fun e hen ev hev => by
    obtain ⟨hfr, hb⟩ := List.mem_filter.1 hen
    have hb : e.Before log.replayPoint := by simpa using hb
    rcases hlaid.complete e (List.mem_filter.1 hfr).1 ev hev with
      hc | ⟨record, hr, hg, hof, -⟩
    · exact hc
    · -- a retained prepare does not stand before the oldest one
      exfalso
      unfold WalLog.replayPoint at hb
      cases hp : log.append.prepared with
      | nil =>
        have he : record ∈ log.append.prepared := hr
        rw [hp] at he
        cases he
      | cons o rest =>
        simp only [hp, head?_cons] at hb
        have hmem : record ∈ o :: rest := hp ▸ hr
        have ho : (o :: rest).Pairwise PreparedRecord.Before := hp ▸ hlaid.ordered
        unfold LogEntry.Before at hb
        rcases List.mem_cons.1 hmem with rfl | hl
        · simp only at hb
          omega
        · have hf := (List.pairwise_cons.1 ho).1 record hl
          unfold PreparedRecord.Before at hf
          simp only at hb
          omega
  exact ⟨kept, hk⟩

/-- **The checkpoint a section writes describes the log**, because the one before it does. -/
theorem checkpointNow (tg : Nat)
    (hv : (log.checkpointNow tg).validate = .ok ())
    (hu : ∀ g ∈ log.append.activeGenerations, g ≤ log.append.generation)
    (hl : ∀ g, log.replayPoint.1 ≤ g → g ≤ log.append.generation → g ∈ log.append.activeGenerations)
    (hp : ∀ path ∈ log.append.dirtyContent, validateMountPath path = .ok ()) :
    Described f log.view log.append.index (log.checkpointNow tg) := by
  have hf : max log.append.firstUnprunedSequence 1 = log.append.acknowledgedSequence + 1 := by
    have : log.append.firstUnprunedSequence = log.append.acknowledgedSequence + 1 :=
      hlaid.wellFormed.first_eq
    omega
  have hle := hlaid.replayPoint_le
  refine ⟨hv, rfl, hf, ?_, hle, ⟨log.append.generation, le_rfl, fun g => ?_⟩, hp, ?_⟩
  · show log.view.Boundary f log.replayPoint
    unfold WalLog.replayPoint
    split
    · rename_i r hh
      obtain ⟨en, he, hg, ho, -⟩ := hlaid.placed r (mem_of_mem_head? hh)
      exact .inl ⟨en, he, hg, ho⟩
    · exact .inr hlaid.stored.length_eq.symm
  · rw [MountCheckpoint.declared, Finset.mem_filter]
    show g ∈ insert _ (insert _ (Finset.filter _ _)) ∧ _ ↔ _
    rw [Finset.mem_insert, Finset.mem_insert, Finset.mem_filter]
    constructor
    · rintro ⟨rfl | rfl | ⟨hmem, -⟩, hge⟩
      · exact ⟨le_rfl, hle⟩
      · exact ⟨hge, le_rfl⟩
      · exact ⟨hge, hu g hmem⟩
    · rintro ⟨hge, hle⟩
      exact ⟨.inr (.inr ⟨hl g hge hle, hge⟩), hge⟩
  · obtain ⟨e, ha⟩ := h.now hlaid
    refine ⟨e, ?_⟩
    have han : (log.checkpointNow tg).anchor =
        ⟨log.append.acknowledgedSequence + 1, log.append.acknowledgedSequence,
          log.append.remoteRevision⟩ := by
      unfold MountCheckpoint.anchor WalLog.checkpointNow
      simp only [hf]
    rw [han]
    exact ha

end

end Described

end Chevalier.LocalView
