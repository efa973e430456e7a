import Chevalier.Foundations.Fold
import Chevalier.LocalView.Wal.Replay

/-!
# What a scan collects

Inversion lemmas for the scan of a log, and the two facts about it that recovery rests on.

* `scanEntry_rebased`: a scan that starts later and ignores the sequences below a higher pruning
  point collects exactly what the longer scan collected from that point on.
* The dirty set a scan leaves is the list of `DirtyEffect`s it met, applied to the set it was seeded
  with; `Stable` says which paths survive that.
-/

namespace Chevalier.LocalView

open Fold List

/-! ## Prepared indexes -/

theorem find?_filter_le (l : List PreparedRecord) {b s : Nat} (h : b ≤ s) :
    (l.filter fun record => b ≤ record.sequence).find? (fun r => r.sequence = s) =
      l.find? fun r => r.sequence = s := by
  rw [find?_filter]
  congr 1
  funext record
  by_cases heq : record.sequence = s
  · simp [heq, h]
  · simp [heq]

theorem filter_insertPrepared (record : PreparedRecord) (l : List PreparedRecord) (b : Nat) :
    (insertPrepared record l).filter (fun r => b ≤ r.sequence) =
      if b ≤ record.sequence then insertPrepared record (l.filter fun r => b ≤ r.sequence)
      else l.filter fun r => b ≤ r.sequence := by
  induction l with
  | nil => by_cases h : b ≤ record.sequence <;> simp [insertPrepared, h]
  | cons head =>
    rw [insertPrepared]
    by_cases hr : b ≤ record.sequence <;> by_cases hh : b ≤ head.sequence
    · split_ifs with hlt heq <;> simp_all [insertPrepared]
    · rw [if_neg (by omega), if_neg (by omega)]
      simp_all
    · rw [if_pos (by omega)]
      simp [hr, hh]
    · split_ifs with hlt heq <;> simp_all

theorem identified_sequence (record : PreparedRecord) (i : Option String) (p : Prop)
    [Decidable p] :
    (if p then ({ record with event := { record.event with localIdentity := i } } :
      PreparedRecord) else record).sequence = record.sequence := by
  split_ifs <;> rfl

@[simp] theorem setLocalIdentity_map_sequence (s : Nat) (i : Option String)
    (l : List PreparedRecord) :
    (setLocalIdentity s i l).map PreparedRecord.sequence = l.map PreparedRecord.sequence := by
  rw [setLocalIdentity, map_map]
  exact map_congr_left fun record _ => identified_sequence record i _

theorem filter_setLocalIdentity (s : Nat) (i : Option String)
    (l : List PreparedRecord) (b : Nat) :
    (setLocalIdentity s i l).filter (fun r => b ≤ r.sequence) =
      setLocalIdentity s i (l.filter fun r => b ≤ r.sequence) := by
  rw [setLocalIdentity, filter_map, setLocalIdentity]
  congr 1
  refine filter_congr fun record _ => ?_
  rw [Function.comp_apply, identified_sequence]

theorem mem_insertPrepared {record o : PreparedRecord} {l : List PreparedRecord}
    (h : o ∈ insertPrepared record l) : o = record ∨ o ∈ l := by
  induction l with
  | nil => exact .inl (List.mem_singleton.1 h)
  | cons _ _ ih =>
    rw [insertPrepared] at h
    split_ifs at h
    · exact List.mem_cons.1 h
    · exact (List.mem_cons.1 h).imp_right (mem_cons_of_mem _)
    · rcases List.mem_cons.1 h with rfl | h
      · exact .inr mem_cons_self
      · exact (ih h).imp_right (mem_cons_of_mem _)

theorem mem_insertPrepared_self (record : PreparedRecord) (l : List PreparedRecord) :
    record ∈ insertPrepared record l := by
  induction l with
  | nil => exact mem_singleton_self _
  | cons _ _ ih =>
    rw [insertPrepared]
    split_ifs
    · exact mem_cons_self
    · exact mem_cons_self
    · exact mem_cons_of_mem _ ih

theorem mem_insertPrepared_of_ne {record o : PreparedRecord} {l : List PreparedRecord}
    (ho : o ∈ l) (hne : o.sequence ≠ record.sequence) :
    o ∈ insertPrepared record l := by
  induction l with
  | nil => cases ho
  | cons _ _ ih =>
    rw [insertPrepared]
    split_ifs with hlt heq
    · exact mem_cons_of_mem _ ho
    · rcases List.mem_cons.1 ho with rfl | ho
      · exact absurd heq.symm hne
      · exact mem_cons_of_mem _ ho
    · rcases List.mem_cons.1 ho with rfl | ho
      · exact mem_cons_self
      · exact mem_cons_of_mem _ (ih ho)

theorem find?_insertPrepared (record : PreparedRecord) (l : List PreparedRecord) (s : Nat)
    (hf : l.find? (fun r => r.sequence = record.sequence) = none) :
    (insertPrepared record l).find? (fun r => r.sequence = s) =
      if record.sequence = s then some record
      else l.find? fun r => r.sequence = s := by
  induction l with
  | nil => by_cases h : record.sequence = s <;> simp [insertPrepared, h]
  | cons head _ ih =>
    rw [find?_eq_none] at hf
    have hne : ¬ record.sequence = head.sequence := fun h =>
      hf head mem_cons_self (by simp [h])
    replace ih := ih (List.find?_eq_none.2 fun r hr => hf r (mem_cons_of_mem _ hr))
    rw [insertPrepared]
    by_cases heq : record.sequence = s
    · have hh' : ¬ head.sequence = s := fun h => hne (heq.trans h.symm)
      split_ifs <;> simp_all
    · split_ifs with hlt <;> simp_all [find?_cons]

theorem find?_setLocalIdentity (s : Nat) (i : Option String)
    (l : List PreparedRecord) (o : Nat) :
    (setLocalIdentity s i l).find? (fun r => r.sequence = o) =
      (l.find? fun r => r.sequence = o).map fun record =>
        if record.sequence = s then
          { record with event := { record.event with localIdentity := i } }
        else record := by
  rw [setLocalIdentity, find?_map]
  congr 2
  funext record
  rw [Function.comp_apply, identified_sequence]

/-! ## Effects on the dirty set -/

/-- What a record of the log does to the dirty set. -/
inductive DirtyEffect
  | mark (path : MountPath)
  | commit (mutation : MountMutation)
deriving DecidableEq, Repr

def DirtyEffect.apply : DirtyEffect → DirtySet → DirtySet
  | mark path, dirty => DirtySet.insertPath path dirty
  | commit mutation, dirty => DirtySet.applyCommittedDirtyEffect dirty mutation

/-- Apply effects, the newest at the head of the list. -/
def applyEffects : List DirtyEffect → DirtySet → DirtySet
  | [], dirty => dirty
  | effect :: older, dirty => effect.apply (applyEffects older dirty)

theorem applyEffects_append (n o : List DirtyEffect) (d : DirtySet) :
    applyEffects (n ++ o) d = applyEffects n (applyEffects o d) := by
  induction n with
  | nil => rfl
  | cons _ _ ih => rw [cons_append, applyEffects, ih, applyEffects]

/-- The second list is what a later scan, which skips some commits, keeps of the first. -/
inductive Thins : List DirtyEffect → List DirtyEffect → Prop
  | start (effects) : Thins effects []
  | keep (effect) {effects kept} (h : Thins effects kept) :
      Thins (effect :: effects) (effect :: kept)
  | skip (mutation) {effects kept} (h : Thins effects kept) :
      Thins (.commit mutation :: effects) kept

/-! ## What one record does to a scan -/

/-- A prepared event replay accepts. -/
structure MountEvent.Replayable (event : MountEvent) : Prop where
  readable : readableWalFormat event.formatVersion = true
  valid : event.mutation.validate = .ok ()
  validPayload : event.mutation.validatePayload event.payload = .ok ()

namespace ScanState

/-- A scan that has collected nothing yet. -/
def start (first : Nat) (dirty : DirtySet) : ScanState := ⟨none, [], ∅, ∅, 0, 0, dirty, first⟩

/-- Records of the epoch can be collected. -/
def Admits (scan : ScanState) (epoch : String) : Prop :=
  scan.epoch = none ∨ scan.epoch = some epoch

/-- The scan after a record of the epoch. -/
def seen (scan : ScanState) (epoch : String) : ScanState := { scan with epoch := some epoch }

variable {scan next : ScanState}

theorem observeEpoch_eq_ok {epoch : String} :
    scan.observeEpoch epoch = .ok next ↔ scan.Admits epoch ∧ next = scan.seen epoch := by
  unfold observeEpoch Admits seen
  cases h : scan.epoch with
  | none => simp [eq_comm]
  | some c =>
    by_cases heq : c = epoch
    · subst heq
      have hs : { scan with epoch := some c } = scan := by rw [← h]
      simp [hs, eq_comm]
    · simp [heq]

/-- Every way a record can be collected, with its effect on the dirty set. -/
inductive Collects (scan : ScanState) (generation offset : Nat) :
    WalRecord → ScanState → List DirtyEffect → Prop
  | header (version epoch firstSequence)
      (hreadable : readableWalFormat version = true) (hepoch : scan.Admits epoch) :
      Collects scan generation offset (.logHeader version epoch generation firstSequence)
        (scan.seen epoch) []
  | skippedPrepare (event) (hevent : event.Replayable)
      (hepoch : scan.Admits event.epoch) (hskip : event.sequence < scan.firstUnprunedSequence) :
      Collects scan generation offset (.prepared event) (scan.seen event.epoch) []
  | prepared (event) (hevent : event.Replayable) (hepoch : scan.Admits event.epoch)
      (hkeep : scan.firstUnprunedSequence ≤ event.sequence)
      (hfresh : scan.preparedAt event.sequence = none) :
      Collects scan generation offset (.prepared event)
        { scan.seen event.epoch with
          prepared := insertPrepared ⟨event, generation, offset⟩ scan.prepared } []
  | skippedCommit (epoch sequence identity)
      (hepoch : scan.Admits epoch) (hskip : sequence < scan.firstUnprunedSequence) :
      Collects scan generation offset (.committed epoch sequence identity) (scan.seen epoch) []
  | committed (epoch sequence identity record) (hepoch : scan.Admits epoch)
      (hkeep : scan.firstUnprunedSequence ≤ sequence) (haborted : sequence ∉ scan.aborted)
      (hcommitted : sequence ∉ scan.committed) (hrecord : scan.preparedAt sequence = some record) :
      Collects scan generation offset (.committed epoch sequence identity)
        { scan.seen epoch with
          committed := insert sequence scan.committed
          prepared := setLocalIdentity sequence identity scan.prepared
          dirtyContent := DirtySet.applyCommittedDirtyEffect scan.dirtyContent
            record.event.mutation }
        [.commit record.event.mutation]
  | orphanCommit (epoch sequence identity)
      (hepoch : scan.Admits epoch) (hkeep : scan.firstUnprunedSequence ≤ sequence)
      (haborted : sequence ∉ scan.aborted) (hcommitted : sequence ∉ scan.committed)
      (hrecord : scan.preparedAt sequence = none) :
      Collects scan generation offset (.committed epoch sequence identity)
        { scan.seen epoch with committed := insert sequence scan.committed } []
  | skippedAbort (epoch sequence reason)
      (hepoch : scan.Admits epoch) (hskip : sequence < scan.firstUnprunedSequence) :
      Collects scan generation offset (.aborted epoch sequence reason) (scan.seen epoch) []
  | aborted (epoch sequence reason)
      (hepoch : scan.Admits epoch) (hkeep : scan.firstUnprunedSequence ≤ sequence)
      (hcommitted : sequence ∉ scan.committed) (haborted : sequence ∉ scan.aborted) :
      Collects scan generation offset (.aborted epoch sequence reason)
        { scan.seen epoch with aborted := insert sequence scan.aborted } []
  | contentDirty (epoch path) (hepoch : scan.Admits epoch)
      (hpath : validateMountPath path = .ok ()) :
      Collects scan generation offset (.contentDirty epoch path)
        { scan.seen epoch with dirtyContent := DirtySet.insertPath path scan.dirtyContent }
        [.mark path]
  | acknowledged (epoch throughSequence remoteRevision)
      (hepoch : scan.Admits epoch) (hthrough : scan.acknowledgedSequence ≤ throughSequence)
      (hrevision : scan.remoteRevision ≤ remoteRevision) :
      Collects scan generation offset (.remoteAcknowledged epoch throughSequence remoteRevision)
        { scan.seen epoch with
          acknowledgedSequence := throughSequence
          remoteRevision := remoteRevision } []
  | checkpointed (epoch throughSequence treeGeneration)
      (hepoch : scan.Admits epoch) :
      Collects scan generation offset (.checkpointed epoch throughSequence treeGeneration)
        (scan.seen epoch) []

variable {g of : Nat} {record : WalRecord} {effects ef : List DirtyEffect}

@[simp] theorem seen_preparedAt (e : String) (s : Nat) :
    (scan.seen e).preparedAt s = scan.preparedAt s := rfl

section

variable (h : Collects scan g of record next ef)
include h

theorem Collects.firstUnprunedSequence :
    next.firstUnprunedSequence = scan.firstUnprunedSequence := by
  cases h <;> rfl

theorem Collects.applyScannedRecord :
    scan.applyScannedRecord record g of = .ok next := by
  have ho : ∀ {e : String}, scan.Admits e →
      scan.observeEpoch e = .ok (scan.seen e) :=
    fun he => observeEpoch_eq_ok.2 ⟨he, rfl⟩
  cases h with
  | header _ _ _ hre he =>
    simp [ScanState.applyScannedRecord, hre, ho he, bind, Except.bind, pure, Except.pure]
  | skippedPrepare _ hev he hs =>
    simp [ScanState.applyScannedRecord, scanPrepared, hev.readable, hev.valid,
      hev.validPayload, ho he, bind, Except.bind, pure, Except.pure, seen, hs]
  | prepared _ hev he hk hfr =>
    simp [ScanState.applyScannedRecord, scanPrepared, hev.readable, hev.valid,
      hev.validPayload, ho he, bind, Except.bind, pure, Except.pure,
      seen_preparedAt, hfr]
    simp [seen, Nat.not_lt.2 hk]
  | skippedCommit _ _ _ he hs =>
    simp [ScanState.applyScannedRecord, scanCommitted, ho he, bind, Except.bind, pure,
      Except.pure, seen, hs]
  | committed e s _ record he hk ha hc hr =>
    have hf : ({ scan.seen e with committed := insert s scan.committed } :
        ScanState).preparedAt s = some record := hr
    simp [ScanState.applyScannedRecord, scanCommitted, ho he, bind, Except.bind, pure,
      Except.pure, seen, Nat.not_lt.2 hk, ha, hc]
    simp only [seen] at hf
    rw [hf]
  | orphanCommit e s _ he hk ha hc hr =>
    have hf : ({ scan.seen e with committed := insert s scan.committed } :
        ScanState).preparedAt s = none := hr
    simp [ScanState.applyScannedRecord, scanCommitted, ho he, bind, Except.bind, pure,
      Except.pure, seen, Nat.not_lt.2 hk, ha, hc]
    simp only [seen] at hf
    rw [hf]
  | skippedAbort _ _ _ he hs =>
    simp [ScanState.applyScannedRecord, scanAborted, ho he, bind, Except.bind, pure,
      Except.pure, seen, hs]
  | aborted _ _ _ he hk hc ha =>
    simp [ScanState.applyScannedRecord, scanAborted, ho he, bind, Except.bind, pure,
      Except.pure, seen, Nat.not_lt.2 hk, ha, hc]
  | contentDirty _ _ he hp =>
    simp [ScanState.applyScannedRecord, ho he, hp, bind, Except.bind, pure, Except.pure, seen]
  | acknowledged _ _ _ he ht hrev =>
    simp [ScanState.applyScannedRecord, ho he, bind, Except.bind, pure, Except.pure,
      seen, Nat.not_lt.2 ht, Nat.not_lt.2 hrev]
  | checkpointed _ _ _ he => exact ho he

/-- The dirty set a scan was seeded with decides nothing but the dirty set. -/
theorem Collects.withDirty
    (d : DirtySet) :
    Collects { scan with dirtyContent := d } g of record
      { next with dirtyContent := applyEffects ef d } ef := by
  cases h with
  | header _ _ _ hre he => exact .header _ _ _ hre he
  | skippedPrepare e hev he hs => exact .skippedPrepare e hev he hs
  | prepared e hev he hk hf => exact .prepared e hev he hk hf
  | skippedCommit _ _ _ he hs => exact .skippedCommit _ _ _ he hs
  | committed _ _ _ prepared he hk ha hc hr => exact .committed _ _ _ prepared he hk ha hc hr
  | orphanCommit _ _ _ he hk ha hc hr => exact .orphanCommit _ _ _ he hk ha hc hr
  | skippedAbort _ _ _ he hs => exact .skippedAbort _ _ _ he hs
  | aborted _ _ _ he hk hc ha => exact .aborted _ _ _ he hk hc ha
  | contentDirty _ _ he hp => exact .contentDirty _ _ he hp
  | acknowledged _ _ _ he ht hrev => exact .acknowledged _ _ _ he ht hrev
  | checkpointed _ _ _ he => exact .checkpointed _ _ _ he

/-- A collected prepare was collected before, or is the record at hand. -/
theorem Collects.prepared_origin
    {kept : PreparedRecord} (hk : kept ∈ next.prepared) :
    (∃ prepared ∈ scan.prepared, prepared.sequence = kept.sequence ∧
      prepared.generation = kept.generation ∧ prepared.offset = kept.offset) ∨
    record = .prepared kept.event ∧ kept.generation = g ∧ kept.offset = of := by
  cases h with
  | prepared =>
    rcases mem_insertPrepared hk with rfl | hold
    · exact .inr ⟨rfl, rfl, rfl⟩
    · exact .inl ⟨kept, hold, rfl, rfl, rfl⟩
  | committed =>
    obtain ⟨prepared, hp, rfl⟩ := List.mem_map.1 hk
    refine .inl ⟨prepared, hp, (identified_sequence _ _ _).symm, ?_, ?_⟩ <;>
      split_ifs <;> rfl
  | _ => exact .inl ⟨kept, hk, rfl, rfl, rfl⟩

end

/-! ## Scans of many records -/

/-- A scan of entries, with the effects on the dirty set it met, the newest first. -/
inductive Scans (framing : Framing) (scan : ScanState) :
    List LogEntry → ScanState → List DirtyEffect → Prop
  | nil : Scans framing scan [] scan []
  | snoc {entries mid next effects added}
      (entry) (h : Scans framing scan entries mid effects)
      (hsmall : framing.bytes entry.record ≤ maxRecordBytes)
      (hstep : Collects mid entry.generation entry.offset entry.record next added) :
      Scans framing scan (entries ++ [entry]) next (added ++ effects)

variable {fr : Framing} {en : List LogEntry}

theorem Scans.scanEntries (h : Scans fr scan en next ef) :
    scan.scanEntries fr en = .ok next := by
  induction h with
  | nil => rfl
  | snoc _ _ hs hst ih =>
    refine foldlM_concat_ok.2 ⟨_, ih, ?_⟩
    rw [scanEntry, if_neg (Nat.not_lt.2 hs), hst.applyScannedRecord]

theorem Scans.firstUnprunedSequence (h : Scans fr scan en next ef) :
    next.firstUnprunedSequence = scan.firstUnprunedSequence := by
  induction h with
  | nil => rfl
  | snoc _ _ _ hs ih => rw [hs.firstUnprunedSequence, ih]

theorem Scans.withDirty (h : Scans fr scan en next ef) (d : DirtySet) :
    Scans fr { scan with dirtyContent := d } en
      { next with dirtyContent := applyEffects ef d } ef := by
  induction h with
  | nil => exact .nil
  | snoc e _ hs hst ih =>
    rw [applyEffects_append]
    exact ih.snoc e hs (hst.withDirty _)

/-- A scan can be taken apart at any point. -/
theorem Scans.split {f rest : List LogEntry}
    (h : Scans fr scan (f ++ rest) next ef) :
    ∃ mid o n, Scans fr scan f mid o ∧ Scans fr mid rest next n ∧ ef = n ++ o := by
  generalize hall : f ++ rest = en at h
  induction h generalizing rest with
  | nil =>
    obtain ⟨rfl, rfl⟩ := List.append_eq_nil_iff.1 hall
    exact ⟨scan, [], [], .nil, .nil, rfl⟩
  | @snoc _ _ next ef a e h hs hst ih =>
    rcases eq_nil_or_concat rest with rfl | ⟨rest, last, rfl⟩
    · rw [append_nil] at hall
      exact ⟨next, a ++ ef, [], hall ▸ h.snoc e hs hst, .nil, rfl⟩
    · rw [concat_eq_append, ← append_assoc] at hall
      obtain ⟨hi, hl⟩ := append_inj' hall rfl
      obtain rfl : last = e := by simpa using hl
      obtain ⟨mid', o, n, hf, hr, rfl⟩ := ih hi
      refine ⟨mid', o, a ++ n, hf, ?_, (append_assoc _ _ _).symm⟩
      rw [concat_eq_append]
      exact hr.snoc last hs hst

/-- Every collected prepare is one of the scanned entries. -/
theorem Scans.exists_entry {first : Nat} {d : DirtySet}
    (h : Scans fr (.start first d) en next ef) {p : PreparedRecord}
    (hp : p ∈ next.prepared) :
    ∃ e ∈ en, ∃ ev, e.record = .prepared ev ∧
      ev.sequence = p.sequence ∧ e.generation = p.generation ∧
      e.offset = p.offset := by
  induction h generalizing p with
  | nil => cases hp
  | snoc e _ _ hst ih =>
    rcases hst.prepared_origin hp with ⟨_, hold, hse, hge, hof⟩ | ⟨hr, hge, hof⟩
    · obtain ⟨f, hf, ev, he, hs, hg, ho⟩ := ih hold
      exact ⟨f, mem_append_left _ hf, ev, he, hs.trans hse, hg.trans hge, ho.trans hof⟩
    · exact ⟨e, mem_append_right _ (mem_singleton_self _), p.event, hr, rfl, hge.symm, hof.symm⟩

/-! ## Starting later -/

/-- `short` holds what `long` holds from the sequence `first` on. -/
structure Rebased (first : Nat) (long short : ScanState) : Prop where
  first_le : long.firstUnprunedSequence ≤ first
  first_eq : short.firstUnprunedSequence = first
  prepared : short.prepared = long.prepared.filter fun record => first ≤ record.sequence
  committed : short.committed = long.committed.filter (first ≤ ·)
  aborted : short.aborted = long.aborted.filter (first ≤ ·)
  acknowledged_le : short.acknowledgedSequence ≤ long.acknowledgedSequence
  revision_le : short.remoteRevision ≤ long.remoteRevision
  epoch : short.epoch = none ∨ short.epoch = long.epoch

namespace Rebased

variable {first : Nat} {long sh : ScanState}

theorem admits (h : Rebased first long sh) {e : String} (he : long.Admits e) :
    sh.Admits e := by
  rcases h.epoch with hn | heq
  · exact .inl hn
  · unfold Admits
    rwa [heq]

theorem seen (h : Rebased first long sh) (e : String) :
    Rebased first (long.seen e) (sh.seen e) :=
  ⟨h.first_le, h.first_eq, h.prepared, h.committed, h.aborted, h.acknowledged_le, h.revision_le,
    .inr rfl⟩

theorem preparedAt (h : Rebased first long sh) {s : Nat} (hle : first ≤ s) :
    sh.preparedAt s = long.preparedAt s := by
  unfold ScanState.preparedAt
  rw [h.prepared, find?_filter_le _ hle]

theorem filter_insert_of_le {set : Finset Nat} {s : Nat} (h : first ≤ s) :
    (insert s set).filter (first ≤ ·) = insert s (set.filter (first ≤ ·)) := by
  rw [Finset.filter_insert, if_pos h]

theorem filter_insert_of_lt {set : Finset Nat} {s : Nat} (h : s < first) :
    (insert s set).filter (first ≤ ·) = set.filter (first ≤ ·) := by
  rw [Finset.filter_insert, if_neg (Nat.not_le.2 h)]

theorem notMem_committed (h : Rebased first long sh) {s : Nat}
    (hnot : s ∉ long.committed) : s ∉ sh.committed := by
  rw [h.committed]
  exact fun hmem => hnot (Finset.mem_of_mem_filter _ hmem)

theorem notMem_aborted (h : Rebased first long sh) {s : Nat}
    (hnot : s ∉ long.aborted) : s ∉ sh.aborted := by
  rw [h.aborted]
  exact fun hmem => hnot (Finset.mem_of_mem_filter _ hmem)

/-- Collecting one more record keeps the relation; the later scan may skip a commit. -/
theorem step {next : ScanState} (h : Rebased first long sh)
    (hst : Collects long g of record next ef) :
    ∃ next' kept, Collects sh g of record next' kept ∧ Rebased first next next' ∧
      ∀ o ok, Thins o ok → Thins (ef ++ o) (kept ++ ok) := by
  have hf := h.first_eq
  have hsk : ∀ {s}, s < long.firstUnprunedSequence →
      s < sh.firstUnprunedSequence := by
    have := h.first_le
    omega
  cases hst with
  | header _ _ _ hrea he => exact ⟨_, _, .header _ _ _ hrea (h.admits he), h.seen _, fun _ _ => id⟩
  | skippedPrepare ev hev he hs =>
    exact ⟨_, _, .skippedPrepare ev hev (h.admits he) (hsk hs), h.seen _, fun _ _ => id⟩
  | prepared ev hev he =>
    by_cases hle : first ≤ ev.sequence
    · refine ⟨_, _, .prepared ev hev (h.admits he) (by omega)
        (by rwa [h.preparedAt hle]), { h.seen ev.epoch with prepared := ?_ }, fun _ _ => id⟩
      have hk : first ≤ (⟨ev, g, of⟩ : PreparedRecord).sequence := hle
      rw [filter_insertPrepared, if_pos hk, h.prepared]
    · refine ⟨_, _, .skippedPrepare ev hev (h.admits he) (by omega),
        { h.seen ev.epoch with prepared := ?_ }, fun _ _ => id⟩
      have hski : ¬ first ≤ (⟨ev, g, of⟩ : PreparedRecord).sequence := hle
      rw [filter_insertPrepared, if_neg hski]
      exact h.prepared
  | skippedCommit _ _ _ he hs =>
    exact ⟨_, _, .skippedCommit _ _ _ (h.admits he) (hsk hs), h.seen _, fun _ _ => id⟩
  | committed e s i prepared he _ ha hc hre =>
    by_cases hle : first ≤ s
    · refine ⟨_, _, .committed e s i prepared (h.admits he) (by omega)
        (h.notMem_aborted ha) (h.notMem_committed hc)
        (by rw [h.preparedAt hle, hre]),
        { h.seen e with prepared := ?_, committed := ?_ }, fun _ _ ht => ht.keep _⟩
      · simp only [filter_setLocalIdentity, h.prepared]
      · simp only [filter_insert_of_le hle, h.committed]
    · refine ⟨_, _, .skippedCommit _ _ _ (h.admits he) (by omega),
        { h.seen e with prepared := ?_, committed := ?_ }, fun _ _ ht => ht.skip _⟩
      · -- the identity changes on a sequence the later scan does not hold
        rw [filter_setLocalIdentity]
        refine h.prepared.trans (Eq.symm ?_)
        rw [setLocalIdentity]
        refine (map_congr_left fun r hr => ?_).trans (map_id _)
        have hmem := (List.mem_filter.1 hr).2
        rw [if_neg fun heq => hle (by simpa [heq] using hmem)]
        rfl
      · rw [filter_insert_of_lt (Nat.not_le.1 hle)]
        exact h.committed
  | orphanCommit e s i he _ ha hc hre =>
    by_cases hle : first ≤ s
    · refine ⟨_, _, .orphanCommit e s i (h.admits he) (by omega)
        (h.notMem_aborted ha) (h.notMem_committed hc)
        (by rw [h.preparedAt hle, hre]), { h.seen e with committed := ?_ }, fun _ _ => id⟩
      simp only [filter_insert_of_le hle, h.committed]
    · refine ⟨_, _, .skippedCommit _ _ _ (h.admits he) (by omega),
        { h.seen e with committed := ?_ }, fun _ _ => id⟩
      rw [filter_insert_of_lt (Nat.not_le.1 hle)]
      exact h.committed
  | skippedAbort _ _ _ he hs =>
    exact ⟨_, _, .skippedAbort _ _ _ (h.admits he) (hsk hs), h.seen _, fun _ _ => id⟩
  | aborted e s re he _ hc ha =>
    by_cases hle : first ≤ s
    · refine ⟨_, _, .aborted e s re (h.admits he) (by omega)
        (h.notMem_committed hc) (h.notMem_aborted ha),
        { h.seen e with aborted := ?_ }, fun _ _ => id⟩
      simp only [filter_insert_of_le hle, h.aborted]
    · refine ⟨_, _, .skippedAbort _ _ _ (h.admits he) (by omega),
        { h.seen e with aborted := ?_ }, fun _ _ => id⟩
      rw [filter_insert_of_lt (Nat.not_le.1 hle)]
      exact h.aborted
  | contentDirty e _ he hp =>
    exact ⟨_, _, .contentDirty _ _ (h.admits he) hp, { h.seen e with }, fun _ _ ht => ht.keep _⟩
  | acknowledged e _ _ he hth hrev =>
    exact ⟨_, _, .acknowledged _ _ _ (h.admits he) (h.acknowledged_le.trans hth)
      (h.revision_le.trans hrev),
      { h.seen e with acknowledged_le := le_rfl, revision_le := le_rfl }, fun _ _ => id⟩
  | checkpointed _ _ _ he =>
    exact ⟨_, _, .checkpointed _ _ _ (h.admits he), h.seen _, fun _ _ => id⟩

/-- Scanning on keeps the relation. -/
theorem scans {next : ScanState} (h : Rebased first long sh)
    (hs : Scans fr long en next ef) :
    ∃ next' kept, Scans fr sh en next' kept ∧ Rebased first next next' ∧
      ∀ o ok, Thins o ok → Thins (ef ++ o) (kept ++ ok) := by
  induction hs with
  | nil => exact ⟨sh, [], .nil, h, fun _ _ ht => ht⟩
  | snoc e _ hsm hst ih =>
    obtain ⟨_, kept, hm, hr, ht⟩ := ih
    obtain ⟨next', a, hn, hr', ht'⟩ := hr.step hst
    refine ⟨next', a ++ kept, hm.snoc e hsm hn, hr', fun o ok ho => ?_⟩
    rw [append_assoc, append_assoc]
    exact ht' _ _ (ht _ _ ho)

end Rebased

end ScanState

end Chevalier.LocalView
