import Chevalier.LocalView.Wal.Checkpoint

/-!
# Opening a described log

`openWal` on the files of a log, with a checkpoint that describes it and no file missing from the
checkpoint's replay point on, succeeds and rebuilds the index.

* `openScan_eq`: the generations from the replay point on scan to the index as it stands.
* `openWal_described`: the whole of `open`, its own checkpoint included.
-/

namespace Chevalier.LocalView

open Fold List

/-! ## Scanning whole files -/

namespace ScanState

variable {fr : Framing} {scan next : ScanState} {file : LogFile}

/-- A scan from the start of a record, or from the end of the file, reads the records from there. -/
theorem scanGeneration_eq {so : Nat} (hu : file.torn = 0)
    (hp : (∃ e ∈ fr.entries file.generation 0 file.records,
      e.offset = so) ∨ so = fr.length file.records)
    (hs : scan.scanEntries fr ((fr.entries file.generation 0 file.records).filter
      (so ≤ ·.offset)) = .ok next) :
    scan.scanGeneration fr file so = .ok (next, fr.length file.records) := by
  have hle : so ≤ fr.length file.records := by
    rcases hp with ⟨e, he, rfl⟩ | rfl
    · have := (fr.mem_entries he).2.2
      omega
    · exact le_rfl
  unfold scanGeneration
  simp only
  rw [if_neg (by omega), if_neg (by omega), if_neg, hs]
  · rfl
  · rintro ⟨hne, hnot⟩
    rcases hp with ⟨e, he, heq⟩ | heq
    · exact hnot (List.mem_map.2 ⟨e, List.mem_filter.2 ⟨he, by simpa using heq.ge⟩, heq⟩)
    · exact hne heq

theorem scanGeneration_zero (hu : file.torn = 0)
    (hs : scan.scanEntries fr (fr.entries file.generation 0 file.records) = .ok next) :
    scan.scanGeneration fr file 0 = .ok (next, fr.length file.records) := by
  refine scanGeneration_eq hu ?_ ?_
  · cases hr : file.records with
    | nil => exact .inr rfl
    | cons => exact .inl ⟨_, mem_cons_self, rfl⟩
  · rw [List.filter_eq_self.2 fun entry _ => by simp]
    exact hs

/-- What a scan from the start collects is not below the pruning point. -/
theorem Scans.first_le {first : Nat} {d : DirtySet} {en : List LogEntry}
    {e : List DirtyEffect} (h : Scans fr (.start first d) en next e)
    {prepared : PreparedRecord} (hp : prepared ∈ next.prepared) :
    first ≤ prepared.sequence := by
  induction h generalizing prepared with
  | nil => cases hp
  | @snoc _ _ _ _ _ entry hsc _ hs ih =>
    have hf := hsc.firstUnprunedSequence
    obtain ⟨_, _, _⟩ := entry
    simp only at hs
    cases hs with
    | prepared _ _ _ hk =>
      rcases mem_insertPrepared hp with rfl | hold
      · rw [hf] at hk
        exact hk
      · exact ih hold
    | committed =>
      obtain ⟨_, hso, rfl⟩ := List.mem_map.1 hp
      rw [identified_sequence]
      exact ih hso
    | _ => exact ih hp

end ScanState

/-- Whole generations behind the replay point are scanned one after the other. -/
theorem scanPlan_eq {fr : Framing} {rg ro : Nat}
    {f : List LogFile} {scan next : ScanState} (hu : ∀ file ∈ f, file.torn = 0)
    (hot : ∀ file ∈ f, file.generation ≠ rg)
    (hs : scan.scanEntries fr (f.flatMap fun file =>
      fr.entries file.generation 0 file.records) = .ok next) :
    scanPlan fr rg ro f scan = .ok (next, f) := by
  induction f generalizing scan with
  | nil =>
    cases hs
    rfl
  | cons file _ ih =>
    rw [flatMap_cons] at hs
    obtain ⟨_, hf, hr⟩ := foldlM_append_ok.1 hs
    have hz := hu file mem_cons_self
    have hg := ScanState.scanGeneration_zero hz hf
    have ht := ih (fun o ho => hu o (mem_cons_of_mem _ ho))
      (fun o ho => hot o (mem_cons_of_mem _ ho)) hr
    simp only [scanPlan, if_neg (hot file mem_cons_self), hg, ht, hz, bind,
      Except.bind, Nat.add_zero, lt_irrefl, if_false]
    rfl

/-- The replay generation is scanned from the replay offset, the later ones from their start. -/
theorem scanPlan_cons {fr : Framing} {ro : Nat} {file : LogFile}
    {rest : List LogFile} {scan next : ScanState}
    (hu : ∀ o ∈ file :: rest, o.torn = 0)
    (hl : ∀ o ∈ rest, file.generation < o.generation)
    (hp : (∃ e ∈ fr.entries file.generation 0 file.records,
      e.offset = ro) ∨ ro = fr.length file.records)
    (hs : scan.scanEntries fr (((fr.entries file.generation 0 file.records).filter
      (ro ≤ ·.offset)) ++ rest.flatMap fun file =>
        fr.entries file.generation 0 file.records) = .ok next) :
    scanPlan fr file.generation ro (file :: rest) scan = .ok (next, file :: rest) := by
  obtain ⟨mid, hf, hr⟩ := foldlM_append_ok.1 hs
  have hz := hu file mem_cons_self
  have hg := ScanState.scanGeneration_eq hz hp hf
  have ht : scanPlan fr file.generation ro rest mid = .ok (next, rest) :=
    scanPlan_eq (fun o ho => hu o (mem_cons_of_mem _ ho)) (fun o ho => (hl o ho).ne') hr
  simp only [scanPlan, if_true, hg, ht, hz, bind, Except.bind, Nat.add_zero, lt_irrefl, if_false]
  rfl

/-! ## Files and history -/

namespace LogView.Stored

variable {fr : Framing} {view : LogView} (h : view.Stored fr)
include h

/-- Files in ascending order hold the history of their generations. -/
theorem flatMap_entries {f : List LogFile} (hsu : ∀ file ∈ f, file ∈ view.files)
    (hle : ∀ file ∈ f, file.generation ≤ view.generation)
    (ha : f.Pairwise fun a b => a.generation < b.generation) :
    (f.flatMap fun file => fr.entries file.generation 0 file.records) =
      view.history.filter fun e => e.generation ∈ f.map LogFile.generation := by
  induction f with
  | nil => simp
  | cons file rest ih =>
    obtain ⟨hf, hr⟩ := List.pairwise_cons.1 ha
    have hs : (view.history.filter fun e =>
        e.generation ∈ (file :: rest).map LogFile.generation).Pairwise
        fun a b => a.Before (b.generation, b.offset) := h.sorted.filter _
    have hc : ∀ a b : LogEntry, a.Before (b.generation, b.offset) →
        b.generation ≤ file.generation → a.generation ≤ file.generation := by
      rintro a b (hlt | ⟨heq, -⟩) hb <;> simp only at * <;> omega
    have hl : ∀ g ∈ rest.map LogFile.generation, file.generation < g := by
      intro g hmem
      obtain ⟨other, hot, rfl⟩ := List.mem_map.1 hmem
      exact hf other hot
    rw [flatMap_cons, filter_append_filter_not hs hc, filter_filter,
      filter_filter, h.contents file (hsu file mem_cons_self)
        (hle file mem_cons_self), ih (fun other ho => hsu other (mem_cons_of_mem _ ho))
        (fun other ho => hle other (mem_cons_of_mem _ ho)) hr]
    congr 1
    · refine filter_congr fun e _ => ?_
      rw [← Bool.decide_and]
      refine decide_eq_decide.2 ⟨fun heq => ⟨heq.le, List.mem_cons.2 (.inl heq)⟩, ?_⟩
      rintro ⟨hle, hmem⟩
      rcases List.mem_cons.1 hmem with heq | hmem
      · exact heq
      · exact absurd hle (Nat.not_le.2 (hl _ hmem))
    · refine filter_congr fun e _ => ?_
      rw [← Bool.decide_and]
      refine decide_eq_decide.2 ⟨fun hmem => ⟨Nat.not_le.2 (hl _ hmem), mem_cons_of_mem _ hmem⟩, ?_⟩
      rintro ⟨hgt, hmem⟩
      rcases List.mem_cons.1 hmem with heq | hmem
      · exact absurd heq.le hgt
      · exact hmem

/-- The files from a generation on, when that generation has one. -/
theorem files_from {file : LogFile} (hf : file ∈ view.files) :
    (view.files.filter fun o => file.generation ≤ o.generation) =
      file :: view.files.filter fun o => file.generation < o.generation := by
  have hs := h.ascending.filter fun o => file.generation ≤ o.generation
  have hc : ∀ a b : LogFile, a.generation < b.generation →
      b.generation ≤ file.generation → a.generation ≤ file.generation := fun a b hlt hle =>
    (hlt.trans_le hle).le
  rw [filter_append_filter_not hs hc, filter_filter, filter_filter]
  have ho : (view.files.filter fun o => decide (o.generation ≤ file.generation) &&
      decide (file.generation ≤ o.generation)) = [file] := by
    rw [← h.filter_generation hf]
    refine filter_congr fun o _ => ?_
    rw [← Bool.decide_and]
    exact decide_eq_decide.2 ⟨fun hle => le_antisymm hle.1 hle.2, fun heq => ⟨heq.le, heq.ge⟩⟩
  have hl : (view.files.filter fun o => decide (¬ o.generation ≤ file.generation) &&
      decide (file.generation ≤ o.generation)) =
      view.files.filter fun o => file.generation < o.generation := by
    refine filter_congr fun o _ => ?_
    rw [← Bool.decide_and]
    exact decide_eq_decide.2 ⟨fun hlt => Nat.not_le.1 hlt.1, fun hlt => ⟨Nat.not_le.2 hlt, hlt.le⟩⟩
  rw [ho, hl]
  rfl

end LogView.Stored

/-- Every generation from a point on has its file, and no file is beyond the active one. -/
structure LogView.Whole (view : LogView) (generation : Nat) : Prop where
  present : ∀ other, generation ≤ other → other ≤ view.generation →
    other ∈ view.files.map LogFile.generation
  bounded : ∀ file ∈ view.files, file.generation ≤ view.generation

/-- The records from a point on are those of its generation's file and of the later files. -/
theorem LogView.Stored.entriesFrom_eq {fr : Framing} {view : LogView} {file : LogFile}
    {o : Nat} (h : view.Stored fr) (hw : view.Whole file.generation)
    (hf : file ∈ view.files) :
    view.entriesFrom (file.generation, o) =
      ((fr.entries file.generation 0 file.records).filter (o ≤ ·.offset)) ++
        (view.files.filter fun ot => file.generation < ot.generation).flatMap
          fun file => fr.entries file.generation 0 file.records := by
  have hs : (view.entriesFrom (file.generation, o)).Pairwise
      fun a b => a.Before (b.generation, b.offset) := h.sorted.filter _
  have hc : ∀ a b : LogEntry, a.Before (b.generation, b.offset) →
      b.generation ≤ file.generation → a.generation ≤ file.generation := by
    rintro a b (hlt | ⟨heq, -⟩) hb <;> simp only at * <;> omega
  have hl : ((view.files.filter fun ot => file.generation < ot.generation).flatMap
      fun file => fr.entries file.generation 0 file.records) = _ :=
    h.flatMap_entries (fun ot ho => (List.mem_filter.1 ho).1)
      (fun ot ho => hw.bounded ot (List.mem_filter.1 ho).1) (h.ascending.filter _)
  rw [hl, h.contents file hf (hw.bounded file hf), filter_append_filter_not hs hc]
  unfold LogView.entriesFrom LogView.entriesOf
  rw [filter_filter, filter_filter, filter_filter]
  congr 1
  · refine filter_congr fun e _ => ?_
    rw [← Bool.decide_and, ← Bool.decide_and]
    refine decide_eq_decide.2 ?_
    unfold LogEntry.Before
    simp only
    omega
  · refine filter_congr fun e he => ?_
    rw [← Bool.decide_and]
    refine decide_eq_decide.2 ⟨fun hbo => ?_, fun hmem => ?_⟩
    · have hgt := hbo.1
      have hmem := hw.present e.generation (by omega) (h.generation_le he)
      obtain ⟨ot, hot, heq⟩ := List.mem_map.1 hmem
      exact List.mem_map.2 ⟨ot, List.mem_filter.2 ⟨hot, by simp; omega⟩, heq⟩
    · obtain ⟨ot, hot, heq⟩ := List.mem_map.1 hmem
      have hgt : file.generation < ot.generation := by simpa using (List.mem_filter.1 hot).2
      refine ⟨by omega, ?_⟩
      rintro (hlt | ⟨he', -⟩) <;> simp only at * <;> omega

/-! ## The replay plan -/

namespace Described

variable {fr : Framing} {view : LogView} {i : IndexView} {ch : MountCheckpoint}

/-- The generations to open are those from the replay point on. -/
theorem replayPlan_eq (h : Described fr view i ch)
    (hw : view.Whole ch.replayLogGeneration) :
    replayPlan (some ch) view.files =
      .ok (view.files.filter fun file => ch.replayLogGeneration ≤ file.generation) := by
  obtain ⟨top, htop, hd⟩ := h.declared
  have hmem : ch.replayLogGeneration ∈ ch.declared := by
    have hv := h.valid
    unfold MountCheckpoint.validate at hv
    split_ifs at hv with hf he hac hfi
    exact Finset.mem_filter.2 ⟨by simpa using hac, by simp⟩
  have hle : ch.replayLogGeneration ≤ top := ((hd _).1 hmem).2
  have hs : ch.declared.sup id = top := by
    refine le_antisymm (Finset.sup_le fun g hg => ((hd g).1 hg).2) ?_
    exact Finset.le_sup (f := id) ((hd top).2 ⟨hle, le_rfl⟩)
  have hm : (List.range (top + 1)).find? (fun g =>
      g ∈ ch.declared ∧ g ∉ view.files.map LogFile.generation) = none := by
    refine List.find?_eq_none.2 fun g _ hb => ?_
    obtain ⟨hg, ha⟩ := of_decide_eq_true hb
    obtain ⟨hl, hh⟩ := (hd g).1 hg
    exact ha (hw.present g hl (hh.trans htop))
  unfold replayPlan
  simp only [if_neg (Finset.ne_empty_of_mem hmem), hs, hm]
  refine congrArg _ (filter_congr fun file _ => decide_eq_decide.2 ?_)
  rw [hd]
  omega

/-- The scan a checkpoint starts. -/
theorem seedScan_eq (h : Described fr view i ch) :
    ∃ d, seedScan (some ch) = .ok (.start ch.firstUnprunedSequence d) := by
  have hf : max ch.firstUnprunedSequence 1 = ch.firstUnprunedSequence := by
    have := h.first
    omega
  refine ⟨ch.dirtyContentPaths.foldl (fun d path => DirtySet.insertPath path d) [], ?_⟩
  unfold seedScan
  simp only [Option.map_some, Option.getD_some, forIn_check_eq_ok.2 h.paths, hf]
  rfl

/-- **The generations from the replay point on scan to the index as it stands.** -/
theorem openScan_eq (h : Described fr view i ch) (hs : view.Stored fr)
    (hw : view.Whole ch.replayLogGeneration) {dir : StateDir}
    (hfi : dir.files = view.files) :
    ∃ scan file rest, openScan fr dir (some ch) = .ok (scan, file :: rest) ∧
      Tracks i ch.anchor scan ∧
      ∀ p ∈ scan.prepared, ch.firstUnprunedSequence ≤ p.sequence := by
  obtain ⟨d, hse⟩ := h.seedScan_eq
  obtain ⟨ef, ha⟩ := h.anchored
  obtain ⟨scan, hsc, ht⟩ := ha.whole
  have hd := hsc.withDirty d
  obtain ⟨file, hf, hg⟩ :=
    List.mem_map.1 (hw.present ch.replayLogGeneration le_rfl h.replay_le)
  have he : view.entriesFrom (file.generation, ch.replayLogOffset) = _ :=
    hs.entriesFrom_eq (hg ▸ hw) hf
  have hpla : (∃ e ∈ fr.entries file.generation 0 file.records,
      e.offset = ch.replayLogOffset) ∨
      ch.replayLogOffset = fr.length file.records := by
    have hb := hw.bounded file hf
    rw [hs.contents file hf hb, hs.length_file hf hb, hg]
    rcases h.boundary with ⟨e, hen, hge, hof⟩ | hend
    · exact .inl ⟨e, List.mem_filter.2 ⟨hen, decide_eq_true hge⟩, hof⟩
    · exact .inr hend
  refine ⟨{ scan with dirtyContent := applyEffects ef d }, file,
    view.files.filter fun o => file.generation < o.generation, ?_, ?_, ?_⟩
  · have hpl := h.replayPlan_eq hw
    rw [← hg, hs.files_from hf] at hpl
    unfold openScan
    simp only [hse, hfi, hpl, bind, Except.bind, Option.map_some, Option.getD_some]
    rw [← hg]
    refine scanPlan_cons (fun o ho => ?_) (fun o ho => ?_) hpla ?_
    · rcases List.mem_cons.1 ho with rfl | ho
      · exact hs.untorn _ hf
      · exact hs.untorn _ (List.mem_filter.1 ho).1
    · simpa using (List.mem_filter.1 ho).2
    · rw [← he, hg]
      exact hd.scanEntries
  · exact { ht with }
  · exact fun p hp => hsc.first_le hp

end Described

/-! ## The index of a finished scan -/

def IndexView.committedBytes (index : IndexView) : Nat :=
  ((index.prepared.filter fun record => record.sequence ∈ index.committed).map
    fun record => record.event.payloadLength).sum

def ScanState.atCursor (scan : ScanState) (index : IndexView) : ScanState :=
  { scan with
    acknowledgedSequence := index.acknowledgedSequence
    remoteRevision := index.remoteRevision }

def ScanState.pruned (scan : ScanState) (index : IndexView) : ScanState :=
  { scan.atCursor index with
    prepared := index.prepared
    committed := index.committed
    aborted := index.aborted
    firstUnprunedSequence := index.acknowledgedSequence + 1 }

namespace Tracks

variable {i : IndexView} {an : ScanAnchor} {scan : ScanState}

theorem reconcileCursor {ch : MountCheckpoint} (h : Tracks i ch.anchor scan) :
    scan.reconcileCursor (some ch) = scan.atCursor i := by
  have hac : max scan.acknowledgedSequence ch.acknowledgedSequence =
    i.acknowledgedSequence := h.acknowledged
  have hr : i.remoteRevision =
      if scan.acknowledgedSequence < ch.acknowledgedSequence then ch.remoteRevision
      else if ch.acknowledgedSequence = scan.acknowledgedSequence then
        max scan.remoteRevision ch.remoteRevision
      else scan.remoteRevision := h.revision
  unfold ScanState.reconcileCursor ScanState.atCursor
  simp only
  split_ifs at hr ⊢ with ha hs
  · rw [hr, ← hac, max_eq_right ha.le]
  · rw [hr, ← hac, hs, max_self]
  · rw [hr, ← hac, max_eq_left (Nat.not_lt.1 ha)]

theorem validate (h : Tracks i an scan) : (scan.atCursor i).validate = .ok () := by
  have hp : ∀ set : Finset Nat, (∀ s ∈ set, scan.Resolved s) →
      (scan.atCursor i).firstWithoutPrepare set = none := by
    intro set hse
    refine List.find?_eq_none.2 fun s _ hb => ?_
    obtain ⟨hmem, hn⟩ := of_decide_eq_true hb
    have hs := h.sound.terminal_prepared s (hse s hmem)
    have hn' : scan.preparedAt s = none := hn
    rw [hn'] at hs
    cases hs
  have hr : (scan.atCursor i).firstUnresolved = none := by
    refine List.find?_eq_none.2 fun s hmem hb => ?_
    have hra := List.mem_range'_1.1 hmem
    simp only [ScanState.atCursor, h.first_eq] at hra
    refine of_decide_eq_true hb (h.resolved s ?_ ?_) <;> omega
  unfold ScanState.validate
  have hc := hp scan.committed fun s hmem => .inl hmem
  have ha := hp scan.aborted fun s hmem => .inr hmem
  simp only [show (scan.atCursor i).committed = scan.committed from rfl,
    show (scan.atCursor i).aborted = scan.aborted from rfl, hc, ha,
    Option.orElse_none, hr]

theorem pruneAcknowledged (h : Tracks i an scan)
    (hl : ∀ p ∈ scan.prepared, an.first ≤ p.sequence) :
    (scan.atCursor i).pruneAcknowledged = scan.pruned i := by
  have hf := h.first_le
  unfold ScanState.pruneAcknowledged ScanState.pruned
  simp only [show (scan.atCursor i).acknowledgedSequence = i.acknowledgedSequence from rfl,
    show (scan.atCursor i).prepared = scan.prepared from rfl,
    show (scan.atCursor i).committed = scan.committed from rfl,
    show (scan.atCursor i).aborted = scan.aborted from rfl, h.prepared, h.committed, h.aborted]
  split_ifs with hpr
  · rfl
  · -- nothing was pruned since the anchor, and a scan collects nothing from before it
    have heq : scan.firstUnprunedSequence = i.acknowledgedSequence + 1 := by
      have hge : ¬ scan.firstUnprunedSequence < i.acknowledgedSequence + 1 := hpr
      have := h.first_eq
      omega
    have ha : an.first = i.acknowledgedSequence + 1 := h.first_eq.symm.trans heq
    have hall : ∀ set : Finset Nat, (∀ sequence ∈ set, scan.Resolved sequence) →
        set.filter (i.acknowledgedSequence + 1 ≤ ·) = set := by
      intro set hs
      refine Finset.filter_eq_self.2 fun sequence hmem => ?_
      exact ha ▸ (h.terminal sequence (hs sequence hmem)).1
    have hp : scan.prepared = i.prepared := by
      rw [← h.prepared]
      refine (List.filter_eq_self.2 fun p hp => ?_).symm
      exact decide_eq_true (ha ▸ hl p hp)
    have hc : scan.committed = i.committed := by
      rw [← h.committed, hall scan.committed fun sequence hmem => .inl hmem]
    have hab : scan.aborted = i.aborted := by
      rw [← h.aborted, hall scan.aborted fun sequence hmem => .inr hmem]
    unfold ScanState.atCursor
    rw [hp, hc, hab, heq]

end Tracks

namespace IndexView.WellFormed

variable {i : IndexView} (h : i.WellFormed)
include h

/-- The next sequence is the one after the last retained prepare, or after the cursor. -/
theorem nextSequence_eq : i.nextSequence = max
    ((i.prepared.getLast?.map PreparedRecord.sequence).getD i.acknowledgedSequence)
    i.acknowledgedSequence + 1 := by
  have hlt := h.acknowledged_lt
  have hl : i.prepared.getLast?.map PreparedRecord.sequence =
      (List.range' (i.acknowledgedSequence + 1)
        (i.nextSequence - (i.acknowledgedSequence + 1))).getLast? := by
    rw [← h.sequences, getLast?_map]
  rw [hl, getLast?_range']
  split_ifs with he
  · simp only [Option.getD_none, max_self]
    omega
  · simp only [Option.getD_some]
    omega

/-- The index a finished scan leaves is the one it followed. -/
theorem indexOf_eq (scan : ScanState) (ch : Option MountCheckpoint)
    (ge gl : Nat) (g : Finset Nat) (pf : Finset String) :
    (indexOf ch (scan.pruned i) i.epoch ge gl g pf).index = i := by
  have hf : max (i.acknowledgedSequence + 1) 1 = i.firstUnprunedSequence := by
    rw [h.first_eq]
    omega
  have hn := h.nextSequence_eq
  unfold AppendState.index indexOf ScanState.pruned ScanState.atCursor
  simp only [hf, ← hn]

end IndexView.WellFormed

/-! ## The whole of `open` -/

namespace WalLog

variable {log : WalLog}

/-- A checkpoint of a well-formed index validates. -/
theorem checkpointNow_validate (tg : Nat) (he : log.append.epoch ≠ "")
    (hi : log.append.index.WellFormed) :
    (log.checkpointNow tg).validate = .ok () := by
  have hf : log.append.firstUnprunedSequence = log.append.acknowledgedSequence + 1 :=
    hi.first_eq
  unfold MountCheckpoint.validate
  rw [if_neg (by simp [checkpointNow, readableWalFormat, minReadableWalFormatVersion,
      walFormatVersion]), if_neg (by exact he), if_neg (by simp [checkpointNow]), if_neg]
  simp only [checkpointNow, hf]
  omega

/-- The checkpoint `open` publishes changes neither the index nor the pending bytes. -/
theorem openCheckpoint_eq (fr : Framing) (dir : StateDir) (he : log.append.epoch ≠ "")
    (hi : log.append.index.WellFormed)
    (hf : fr.bytes (.checkpointed log.append.epoch log.append.acknowledgedSequence
      log.append.treeGeneration) ≤ maxRecordBytes) :
    ∃ o dir', openCheckpoint fr dir log = .ok (o, dir') ∧
      o.append.index = log.append.index ∧
      o.append.pendingPayloadBytes = log.append.pendingPayloadBytes := by
  unfold openCheckpoint checkpointIndex
  simp only [checkpointNow_validate log.append.treeGeneration he hi]
  have hm : ∀ m : WalLog, m.append.epoch = log.append.epoch →
      m.markCheckpoint fr (log.checkpointNow log.append.treeGeneration)
        log.append.treeGeneration = .ok (m.appended fr (.checkpointed log.append.epoch
          log.append.acknowledgedSequence log.append.treeGeneration)) := by
    intro m hs
    refine appendFramed_eq_ok.2 ⟨?_, ?_⟩
    · rw [hs]
      exact hf
    · rw [hs]
      rfl
  simp only [bind, Except.bind]
  rw [hm _ (by rfl)]
  exact ⟨_, _, rfl, rfl, rfl⟩

end WalLog

namespace Described

variable {fr : Framing} {view : LogView} {i : IndexView} {ch : MountCheckpoint}

theorem epoch_ne (h : Described fr view i ch) : i.epoch ≠ "" := by
  have hv := h.valid
  unfold MountCheckpoint.validate at hv
  split_ifs at hv with hf he
  exact h.epoch ▸ he

/-- The log, the checkpoint and the caller agree on the epoch. -/
theorem reconcileEpoch_eq (h : Described fr view i ch) {scan : ScanState}
    (ht : Tracks i ch.anchor scan) {e : Option String}
    (he : e = none ∨ e = some i.epoch) (m : String) :
    reconcileEpoch scan.epoch (some ch) e m = .ok i.epoch := by
  have hep := h.epoch
  rcases ht.admits with hn | hs
  · rcases he with rfl | rfl <;>
      simp [reconcileEpoch, hn, hep, bind, Except.bind, pure, Except.pure]
  · rcases he with rfl | rfl <;>
      simp [reconcileEpoch, hs, hep, bind, Except.bind, pure, Except.pure]

theorem openLog_eq (h : Described fr view i ch) (hl : Laid fr view i)
    (hw : view.Whole ch.replayLogGeneration) {dir : StateDir}
    (hf : dir.files = view.files) (hc : dir.checkpoint = some ch)
    {e : Option String} (he : e = none ∨ e = some i.epoch)
    (minted : String) :
    ∃ log, openLog fr dir e minted = .ok log ∧ log.append.index = i ∧
      log.append.pendingPayloadBytes = i.committedBytes ∧
      log.append.treeGeneration = ch.treeGeneration := by
  obtain ⟨scan, file, rest, hs, ht, hlow⟩ := h.openScan_eq hl.stored hw hf
  have hlo : loadCheckpoint dir = .ok (some ch) := by
    unfold loadCheckpoint
    rw [hc]
    simp only [Option.orElse_some, h.valid]
    rfl
  obtain ⟨a, ha⟩ : ∃ a, (file :: rest).getLast? = some a :=
    ⟨_, getLast?_eq_some_getLast (cons_ne_nil _ _)⟩
  unfold openLog
  simp only [hlo, hs, h.reconcileEpoch_eq ht he minted, bind, Except.bind,
    ht.reconcileCursor, ht.validate, ht.pruneAcknowledged hlow, ha]
  exact ⟨_, rfl, hl.wellFormed.indexOf_eq scan _ _ _ _ _, rfl, rfl⟩

/-- **Opening the files of a log with a checkpoint that describes it rebuilds the index.** -/
theorem openWal_eq (h : Described fr view i ch) (hl : Laid fr view i)
    (hw : view.Whole ch.replayLogGeneration) {dir : StateDir}
    (hf : dir.files = view.files) (hc : dir.checkpoint = some ch)
    {e : Option String} (hexp : e = none ∨ e = some i.epoch)
    (m : String)
    (hfi : fr.bytes (.checkpointed i.epoch i.acknowledgedSequence
      ch.treeGeneration) ≤ maxRecordBytes) :
    ∃ o dir', openWal fr dir e m = .ok (o, dir') ∧
      o.append.index = i ∧
      o.append.pendingPayloadBytes = i.committedBytes := by
  obtain ⟨log, hlo, hi, hp, ht⟩ :=
    h.openLog_eq hl hw hf hc hexp m
  have he : log.append.epoch = i.epoch := congrArg IndexView.epoch hi
  have ha : log.append.acknowledgedSequence = i.acknowledgedSequence :=
    congrArg IndexView.acknowledgedSequence hi
  obtain ⟨o, dir', ho, hs, hb⟩ := log.openCheckpoint_eq fr dir
    (he ▸ h.epoch_ne) (hi ▸ hl.wellFormed) (by rw [he, ha, ht]; exact hfi)
  refine ⟨o, dir', ?_, hs.trans hi, hb.trans hp⟩
  unfold openWal
  simp only [hlo, bind, Except.bind]
  exact ho

end Described

end Chevalier.LocalView
