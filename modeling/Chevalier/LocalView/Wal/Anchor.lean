import Chevalier.LocalView.Wal.Scan

/-!
# A scan follows the index

The index of an open log and the scan of its records move in lockstep: whatever a critical section
does to the index when it appends a record, collecting that record does to the scan. `Tracks` is the
relation they keep, `Tracks.prepare`, `Tracks.commit`, `Tracks.abort` and `Tracks.acknowledge` are
its steps, and `Anchored` says it of all the entries from a checkpoint on: every prefix of them scans
without an error, and the whole of them leads to the index as it stands.

`Anchored.rebase` moves the anchor forward when an acknowledgement prunes the index.
-/

namespace Chevalier.LocalView

open List

/-! ## The index -/

/-- The part of the append state that replay rebuilds. -/
structure IndexView where
  epoch : String
  nextSequence : Nat
  prepared : List PreparedRecord
  committed : Finset Nat
  aborted : Finset Nat
  acknowledgedSequence : Nat
  remoteRevision : Nat
  firstUnprunedSequence : Nat

/-- The part of the append state that replay rebuilds. -/
def AppendState.index (append : AppendState) : IndexView where
  epoch := append.epoch
  nextSequence := append.nextSequence
  prepared := append.prepared
  committed := append.committed
  aborted := append.aborted
  acknowledgedSequence := append.acknowledgedSequence
  remoteRevision := append.remoteRevision
  firstUnprunedSequence := append.firstUnprunedSequence

namespace IndexView

variable (index : IndexView)

/-- The sequence has a terminal record. -/
def Resolved (sequence : Nat) : Prop := sequence ∈ index.committed ∨ sequence ∈ index.aborted

def prepare (record : PreparedRecord) : IndexView :=
  { index with
    prepared := insertPrepared record index.prepared
    nextSequence := index.nextSequence + 1 }

def commit (sequence : Nat) (identity : Option String) : IndexView :=
  { index with
    committed := insert sequence index.committed
    prepared := setLocalIdentity sequence identity index.prepared }

def abort (sequence : Nat) : IndexView := { index with aborted := insert sequence index.aborted }

/-- Advance the cursor and drop what it covers. -/
def acknowledge (throughSequence remoteRevision : Nat) : IndexView :=
  { index with
    acknowledgedSequence := throughSequence
    remoteRevision := remoteRevision
    prepared := index.prepared.filter fun record => throughSequence + 1 ≤ record.sequence
    committed := index.committed.filter (throughSequence + 1 ≤ ·)
    aborted := index.aborted.filter (throughSequence + 1 ≤ ·)
    firstUnprunedSequence := throughSequence + 1 }

/-- The index holds the prepares above the cursor, one for each sequence handed out, and terminal
records only of those. -/
structure WellFormed : Prop where
  acknowledged_lt : index.acknowledgedSequence < index.nextSequence
  sequences : index.prepared.map PreparedRecord.sequence =
    List.range' (index.acknowledgedSequence + 1)
      (index.nextSequence - (index.acknowledgedSequence + 1))
  first_eq : index.firstUnprunedSequence = index.acknowledgedSequence + 1
  range : ∀ sequence, index.Resolved sequence →
    index.acknowledgedSequence < sequence ∧ sequence < index.nextSequence
  disjoint : Disjoint index.committed index.aborted
  identity : ∀ record ∈ index.prepared, ¬ index.Resolved record.sequence →
    record.event.localIdentity = none

namespace WellFormed

variable {index} (h : index.WellFormed)
include h

theorem mem_range {re : PreparedRecord} (hr : re ∈ index.prepared) :
    index.acknowledgedSequence < re.sequence ∧ re.sequence < index.nextSequence := by
  have hmem := mem_map_of_mem (f := PreparedRecord.sequence) hr
  rw [h.sequences, mem_range'_1] at hmem
  have := h.acknowledged_lt
  omega

theorem exists_prepared {se : Nat} (hl : index.acknowledgedSequence < se)
    (hh : se < index.nextSequence) :
    ∃ re ∈ index.prepared, re.sequence = se := by
  have hmem : se ∈ index.prepared.map PreparedRecord.sequence := by
    rw [h.sequences, mem_range'_1]
    omega
  exact List.mem_map.1 hmem

theorem nodup : (index.prepared.map PreparedRecord.sequence).Nodup := by
  rw [h.sequences]
  exact nodup_range'

end WellFormed

end IndexView

theorem insertPrepared_of_lt {re : PreparedRecord} {l : List PreparedRecord}
    (h : ∀ other ∈ l, other.sequence < re.sequence) : insertPrepared re l = l ++ [re] := by
  induction l with
  | nil => rfl
  | cons head _ ih =>
    have hh := h head mem_cons_self
    rw [insertPrepared, if_neg (by omega), if_neg (by omega),
      ih fun other ho => h other (mem_cons_of_mem _ ho), cons_append]

theorem setLocalIdentity_of_none {se : Nat} {l : List PreparedRecord}
    (h : ∀ re ∈ l, re.sequence = se → re.event.localIdentity = none) :
    setLocalIdentity se none l = l := by
  rw [setLocalIdentity]
  refine (map_congr_left fun re hr => ?_).trans (map_id _)
  split_ifs with heq
  · have hn := h re hr heq
    obtain ⟨⟨_, _, _, _, _, _, _, _⟩, _, _⟩ := re
    simp only at hn
    rw [hn]
    rfl
  · rfl

namespace IndexView.WellFormed

variable {index : IndexView} (h : index.WellFormed)
include h

theorem prepare {re : PreparedRecord} (hs : re.sequence = index.nextSequence)
    (hi : re.event.localIdentity = none) : (index.prepare re).WellFormed := by
  have hlt := h.acknowledged_lt
  have hl : insertPrepared re index.prepared = index.prepared ++ [re] :=
    insertPrepared_of_lt fun o ho => by
      have := h.mem_range ho
      omega
  refine ⟨?_, ?_, h.first_eq, fun se hr => ?_, h.disjoint, fun o ho hr => ?_⟩
  · show index.acknowledgedSequence < index.nextSequence + 1
    omega
  · show (insertPrepared re index.prepared).map PreparedRecord.sequence =
      List.range' (index.acknowledgedSequence + 1)
        (index.nextSequence + 1 - (index.acknowledgedSequence + 1))
    rw [hl, map_append, h.sequences, map_singleton, hs,
      show index.nextSequence + 1 - (index.acknowledgedSequence + 1) =
        index.nextSequence - (index.acknowledgedSequence + 1) + 1 by omega, range'_1_concat]
    congr 2
    omega
  · have := h.range se hr
    exact ⟨this.1, Nat.lt_succ_of_lt this.2⟩
  · rcases mem_insertPrepared ho with rfl | ho
    · exact hi
    · exact h.identity o ho hr

variable {se : Nat}

theorem commit (i : Option String) {re : PreparedRecord}
    (hr : re ∈ index.prepared) (hs : re.sequence = se)
    (hu : ¬ index.Resolved se) : (index.commit se i).WellFormed := by
  have hra := h.mem_range hr
  refine ⟨h.acknowledged_lt, ?_, h.first_eq, fun o hre => ?_, ?_, fun o ho hre => ?_⟩
  · exact (setLocalIdentity_map_sequence _ _ _).trans h.sequences
  · rcases hre with hc | ha
    · rcases Finset.mem_insert.1 hc with rfl | hc
      · rwa [hs] at hra
      · exact h.range o (.inl hc)
    · exact h.range o (.inr ha)
  · exact Finset.disjoint_insert_left.2 ⟨fun hmem => hu (.inr hmem), h.disjoint⟩
  · obtain ⟨s, hso, rfl⟩ := List.mem_map.1 ho
    have hne : s.sequence ≠ se := by
      intro heq
      refine hre (.inl ?_)
      rw [identified_sequence, heq]
      exact Finset.mem_insert_self _ _
    rw [if_neg hne] at hre ⊢
    refine h.identity s hso fun hold => hre ?_
    exact hold.imp_left Finset.mem_insert_of_mem

/-- A commit that reports no identity changes no prepare. -/
theorem commit_none (hu : ¬ index.Resolved se) :
    index.commit se none = { index with committed := insert se index.committed } := by
  have hs : setLocalIdentity se none index.prepared = index.prepared :=
    setLocalIdentity_of_none fun re hr heq =>
      h.identity re hr (heq ▸ hu)
  rw [IndexView.commit, hs]

theorem abort {re : PreparedRecord} (hr : re ∈ index.prepared)
    (hs : re.sequence = se) (hu : ¬ index.Resolved se) :
    (index.abort se).WellFormed := by
  have hra := h.mem_range hr
  refine ⟨h.acknowledged_lt, h.sequences, h.first_eq, fun o hre => ?_, ?_, fun o ho hre => ?_⟩
  · rcases hre with hc | ha
    · exact h.range o (.inl hc)
    · rcases Finset.mem_insert.1 ha with rfl | ha
      · rwa [hs] at hra
      · exact h.range o (.inr ha)
  · exact Finset.disjoint_insert_right.2 ⟨fun hmem => hu (.inl hmem), h.disjoint⟩
  · exact h.identity o ho fun hold => hre (hold.imp_right Finset.mem_insert_of_mem)

theorem acknowledge {throughSequence : Nat} (rr : Nat)
    (hle : index.acknowledgedSequence ≤ throughSequence)
    (hr : ∀ se, index.acknowledgedSequence < se → se ≤ throughSequence → index.Resolved se) :
    (index.acknowledge throughSequence rr).WellFormed := by
  have hlt : throughSequence < index.nextSequence := by
    rcases Nat.eq_or_lt_of_le hle with heq | hlt
    · exact heq ▸ h.acknowledged_lt
    · exact (h.range _ (hr throughSequence hlt le_rfl)).2
  have hk : ∀ {se}, (index.acknowledge throughSequence rr).Resolved se →
      index.Resolved se ∧ throughSequence + 1 ≤ se := by
    intro se hres
    rcases hres with hmem | hmem
    · exact ⟨.inl (Finset.mem_filter.1 hmem).1, (Finset.mem_filter.1 hmem).2⟩
    · exact ⟨.inr (Finset.mem_filter.1 hmem).1, (Finset.mem_filter.1 hmem).2⟩
  refine ⟨hlt, ?_, rfl, fun se hres => ?_, ?_, fun re hre hres => ?_⟩
  · show (index.prepared.filter fun re => throughSequence + 1 ≤ re.sequence).map
      PreparedRecord.sequence =
        List.range' (throughSequence + 1) (index.nextSequence - (throughSequence + 1))
    have hf : (index.prepared.filter fun re =>
        throughSequence + 1 ≤ re.sequence).map PreparedRecord.sequence =
        (index.prepared.map PreparedRecord.sequence).filter (throughSequence + 1 ≤ ·) := by
      rw [filter_map]
      rfl
    rw [hf, h.sequences]
    obtain ⟨d, _⟩ := Nat.exists_eq_add_of_le hle
    rw [show index.nextSequence - (index.acknowledgedSequence + 1) =
      d + (index.nextSequence - (throughSequence + 1)) by omega, ← range'_append_1,
      filter_append, List.filter_eq_nil_iff.2, List.filter_eq_self.2, nil_append,
      show index.acknowledgedSequence + 1 + d = throughSequence + 1 by omega]
    · intro se hmem
      rw [mem_range'_1] at hmem
      simp only [decide_eq_true_eq]
      omega
    · intro se hmem
      rw [mem_range'_1] at hmem
      simp only [decide_eq_true_eq]
      omega
  · exact ⟨(hk hres).2, (h.range se (hk hres).1).2⟩
  · exact h.disjoint.mono (Finset.filter_subset _ _) (Finset.filter_subset _ _)
  · obtain ⟨hmem, hge⟩ := List.mem_filter.1 hre
    have hg' : throughSequence + 1 ≤ re.sequence := by simpa using hge
    refine h.identity re hmem fun hold => hres ?_
    exact hold.imp (fun hc => Finset.mem_filter.2 ⟨hc, hg'⟩)
      (fun ha => Finset.mem_filter.2 ⟨ha, hg'⟩)

end IndexView.WellFormed

/-! ## Lockstep -/

/-- What an anchor fixes for the scans that start at it: the sequence it pruned to and its cursor. -/
structure ScanAnchor where
  first : Nat
  acknowledgedSequence : Nat
  remoteRevision : Nat

/-- The scan of the records from an anchor on stands where the index stands. -/
structure Tracks (index : IndexView) (anchor : ScanAnchor) (scan : ScanState) : Prop where
  admits : scan.Admits index.epoch
  first_eq : scan.firstUnprunedSequence = anchor.first
  first_le : anchor.first ≤ index.acknowledgedSequence + 1
  prepared : (scan.prepared.filter fun record =>
    index.acknowledgedSequence + 1 ≤ record.sequence) = index.prepared
  prepared_lt : ∀ record ∈ scan.prepared, record.sequence < index.nextSequence
  prepared_all : ∀ sequence, anchor.first ≤ sequence → sequence < index.nextSequence →
    (scan.preparedAt sequence).isSome = true
  committed : scan.committed.filter (index.acknowledgedSequence + 1 ≤ ·) = index.committed
  aborted : scan.aborted.filter (index.acknowledgedSequence + 1 ≤ ·) = index.aborted
  terminal : ∀ sequence, scan.Resolved sequence →
    anchor.first ≤ sequence ∧ sequence < index.nextSequence
  resolved : ∀ sequence, anchor.first ≤ sequence → sequence ≤ index.acknowledgedSequence →
    scan.Resolved sequence
  acknowledged : max scan.acknowledgedSequence anchor.acknowledgedSequence =
    index.acknowledgedSequence
  revision_le : scan.remoteRevision ≤ index.remoteRevision
  anchor_revision_le : anchor.remoteRevision ≤ index.remoteRevision
  revision : index.remoteRevision =
    if scan.acknowledgedSequence < anchor.acknowledgedSequence then anchor.remoteRevision
    else if anchor.acknowledgedSequence = scan.acknowledgedSequence then
      max scan.remoteRevision anchor.remoteRevision
    else scan.remoteRevision

/-- What `open` checks of a scan. -/
structure ScanState.Sound (scan : ScanState) : Prop where
  terminal_prepared : ∀ sequence, scan.Resolved sequence →
    (scan.preparedAt sequence).isSome = true
  acknowledged_resolved : ∀ sequence, scan.firstUnprunedSequence ≤ sequence →
    sequence ≤ scan.acknowledgedSequence → scan.Resolved sequence

namespace Tracks

variable {index : IndexView} {a : ScanAnchor} {scan : ScanState}
  {g of : Nat}

theorem sound (h : Tracks index a scan) : scan.Sound where
  terminal_prepared se hr :=
    h.prepared_all se (h.terminal se hr).1 (h.terminal se hr).2
  acknowledged_resolved se hf hle := by
    refine h.resolved se (h.first_eq ▸ hf) (hle.trans ?_)
    rw [← h.acknowledged]
    exact le_max_left _ _

theorem seen (h : Tracks index a scan) : Tracks index a (scan.seen index.epoch) :=
  { h with admits := .inr rfl }

variable {se : Nat}

section

variable (h : Tracks index a scan)
include h

theorem preparedAt
    (hl : index.acknowledgedSequence < se) :
    scan.preparedAt se = index.prepared.find? fun re => re.sequence = se := by
  rw [← h.prepared, find?_filter_le _ hl]
  rfl

theorem mem_committed
    (hl : index.acknowledgedSequence < se) :
    se ∈ scan.committed ↔ se ∈ index.committed := by
  rw [← h.committed, Finset.mem_filter]
  exact ⟨fun hmem => ⟨hmem, hl⟩, fun hmem => hmem.1⟩

theorem mem_aborted
    (hl : index.acknowledgedSequence < se) :
    se ∈ scan.aborted ↔ se ∈ index.aborted := by
  rw [← h.aborted, Finset.mem_filter]
  exact ⟨fun hmem => ⟨hmem, hl⟩, fun hmem => hmem.1⟩

/-- The scan collects a prepare the index took. -/
theorem prepare (hi : index.WellFormed) {e : MountEvent}
    (hev : e.Replayable) (he : e.epoch = index.epoch)
    (hs : e.sequence = index.nextSequence) :
    ∃ next, scan.Collects g of (.prepared e) next [] ∧
      Tracks (index.prepare ⟨e, g, of⟩) a next := by
  have hlt := hi.acknowledged_lt
  have hfir := h.first_le
  have hn : index.acknowledgedSequence + 1 ≤ e.sequence := by omega
  have hf : scan.preparedAt e.sequence = none := by
    refine List.find?_eq_none.2 fun re hr heq => ?_
    have := h.prepared_lt re hr
    simp only [decide_eq_true_eq] at heq
    omega
  refine ⟨_, .prepared e hev (he ▸ h.admits) (by rw [h.first_eq]; omega) hf, ?_⟩
  refine { h.seen with
    admits := .inr (by rw [he]; rfl)
    prepared := ?_
    prepared_lt := ?_
    prepared_all := ?_
    terminal := ?_ }
  · refine (filter_insertPrepared _ _ _).trans ((if_pos ?_).trans (congrArg _ h.prepared))
    exact hn
  · intro re hr
    rcases mem_insertPrepared hr with rfl | hr
    · exact Nat.lt_succ_of_le hs.le
    · exact Nat.lt_succ_of_lt (h.prepared_lt re hr)
  · intro se hl hh
    have hfi := find?_insertPrepared ⟨e, g, of⟩ scan.prepared se hf
    refine (congrArg Option.isSome hfi).trans ?_
    split_ifs with heq
    · rfl
    · refine h.prepared_all se hl ?_
      have hne : e.sequence ≠ se := heq
      have : se < index.nextSequence + 1 := hh
      omega
  · intro se hre
    have := h.terminal se hre
    exact ⟨this.1, Nat.lt_succ_of_lt this.2⟩

/-- The scan collects a commit the index took, and meets its effect. -/
theorem commit (hi : index.WellFormed)
    (identity : Option String) {re : PreparedRecord}
    (hr : index.prepared.find? (fun re => re.sequence = se) = some re)
    (hu : ¬ index.Resolved se) :
    ∃ next, scan.Collects g of (.committed index.epoch se identity) next
        [.commit re.event.mutation] ∧
      Tracks (index.commit se identity) a next := by
  have hmem := mem_of_find?_eq_some hr
  have hse : re.sequence = se := by simpa using find?_some hr
  obtain ⟨hl, hh⟩ := hi.mem_range hmem
  rw [hse] at hl hh
  have hf := h.first_le
  refine ⟨_, .committed index.epoch se identity re h.admits
    (by rw [h.first_eq]; omega)
    (fun hab => hu (.inr ((h.mem_aborted hl).1 hab)))
    (fun hcm => hu (.inl ((h.mem_committed hl).1 hcm)))
    ((h.preparedAt hl).trans hr), ?_⟩
  refine { h.seen with
    prepared := ?_
    prepared_lt := ?_
    prepared_all := ?_
    committed := ?_
    terminal := ?_
    resolved := ?_ }
  · refine (filter_setLocalIdentity _ _ _ _).trans ?_
    exact congrArg _ h.prepared
  · intro o ho
    obtain ⟨s, hs, rfl⟩ := List.mem_map.1 ho
    rw [identified_sequence]
    exact h.prepared_lt s hs
  · intro o hl' hh'
    refine (congrArg Option.isSome (find?_setLocalIdentity _ _ _ o)).trans ?_
    rw [Option.isSome_map]
    exact h.prepared_all o hl' hh'
  · refine (Finset.filter_insert _ _ _).trans ?_
    rw [if_pos (show (index.commit se identity).acknowledgedSequence + 1 ≤ se from hl)]
    exact congrArg _ h.committed
  · rintro o (hcm | hab)
    · rcases Finset.mem_insert.1 hcm with rfl | hcm
      · exact ⟨by omega, hh⟩
      · exact h.terminal o (.inl hcm)
    · exact h.terminal o (.inr hab)
  · intro o hl' hle
    exact (h.resolved o hl' hle).imp_left Finset.mem_insert_of_mem

/-- The scan collects an abort the index took. -/
theorem abort (hi : index.WellFormed)
    (r : String) {re : PreparedRecord}
    (hr : index.prepared.find? (fun re => re.sequence = se) = some re)
    (hu : ¬ index.Resolved se) :
    ∃ next, scan.Collects g of (.aborted index.epoch se r) next [] ∧
      Tracks (index.abort se) a next := by
  have hmem := mem_of_find?_eq_some hr
  have hs : re.sequence = se := by simpa using find?_some hr
  obtain ⟨hl, hh⟩ := hi.mem_range hmem
  rw [hs] at hl hh
  have hf := h.first_le
  refine ⟨_, .aborted index.epoch se r h.admits (by rw [h.first_eq]; omega)
    (fun hcm => hu (.inl ((h.mem_committed hl).1 hcm)))
    (fun hab => hu (.inr ((h.mem_aborted hl).1 hab))), ?_⟩
  refine { h.seen with
    aborted := ?_
    terminal := ?_
    resolved := ?_ }
  · refine (Finset.filter_insert _ _ _).trans ?_
    rw [if_pos (show (index.abort se).acknowledgedSequence + 1 ≤ se from hl)]
    exact congrArg _ h.aborted
  · rintro o (hcm | hab)
    · exact h.terminal o (.inl hcm)
    · rcases Finset.mem_insert.1 hab with rfl | hab
      · exact ⟨by omega, hh⟩
      · exact h.terminal o (.inr hab)
  · intro o hl' hle
    exact (h.resolved o hl' hle).imp_right Finset.mem_insert_of_mem

/-- The scan collects an acknowledgement the index took. -/
theorem acknowledge {ts rr : Nat}
    (hle : index.acknowledgedSequence ≤ ts)
    (hr : index.remoteRevision ≤ rr)
    (hre : ∀ se, index.acknowledgedSequence < se → se ≤ ts → index.Resolved se) :
    ∃ next, scan.Collects g of
        (.remoteAcknowledged index.epoch ts rr) next [] ∧
      Tracks (index.acknowledge ts rr) a next := by
  have hmax := h.acknowledged
  have hs : scan.acknowledgedSequence ≤ ts := by omega
  have ha : a.acknowledgedSequence ≤ ts := by omega
  refine ⟨_, .acknowledged index.epoch ts rr h.admits hs (h.revision_le.trans hr), ?_⟩
  have hf : ∀ set : Finset Nat, (set.filter (index.acknowledgedSequence + 1 ≤ ·)).filter
      (ts + 1 ≤ ·) = set.filter (ts + 1 ≤ ·) := by
    intro set
    ext se
    simp only [Finset.mem_filter]
    exact ⟨fun hmem => ⟨hmem.1.1, hmem.2⟩, fun hmem => ⟨⟨hmem.1, by omega⟩, hmem.2⟩⟩
  refine { h.seen with
    first_le := ?_
    prepared := ?_
    committed := ?_
    aborted := ?_
    resolved := ?_
    acknowledged := max_eq_left ha
    revision_le := le_rfl
    anchor_revision_le := h.anchor_revision_le.trans hr
    revision := ?_ }
  · have := h.first_le
    show a.first ≤ ts + 1
    omega
  · show (scan.prepared.filter fun re => ts + 1 ≤ re.sequence) =
      index.prepared.filter fun re => ts + 1 ≤ re.sequence
    rw [← h.prepared, filter_filter]
    refine filter_congr fun re _ => ?_
    rw [← Bool.decide_and]
    refine decide_eq_decide.2 ⟨fun hge => ⟨hge, by omega⟩, fun hge => hge.1⟩
  · show scan.committed.filter (ts + 1 ≤ ·) = index.committed.filter (ts + 1 ≤ ·)
    rw [← h.committed, hf]
  · show scan.aborted.filter (ts + 1 ≤ ·) = index.aborted.filter (ts + 1 ≤ ·)
    rw [← h.aborted, hf]
  · intro se hl hh
    by_cases hold : se ≤ index.acknowledgedSequence
    · exact h.resolved se hl hold
    · rw [Nat.not_le] at hold
      exact (hre se hold hh).imp (h.mem_committed hold).2 (h.mem_aborted hold).2
  · show rr = _
    have hl' := h.anchor_revision_le.trans hr
    rw [if_neg (Nat.not_lt.2 ha)]
    split_ifs
    · exact (max_eq_left hl').symm
    · rfl

/-- The scan collects a record that leaves the index as it is. -/
theorem checkpointed (ts tg : Nat) :
    ∃ next, scan.Collects g of
        (.checkpointed index.epoch ts tg) next [] ∧
      Tracks index a next :=
  ⟨_, .checkpointed _ _ _ h.admits, h.seen⟩

theorem contentDirty {path : MountPath}
    (hp : validateMountPath path = .ok ()) :
    ∃ next, scan.Collects g of (.contentDirty index.epoch path) next [.mark path] ∧
      Tracks index a next :=
  ⟨_, .contentDirty _ _ h.admits hp, { h.seen with }⟩

theorem header (fs : Nat) :
    ∃ next, scan.Collects g of
        (.logHeader walFormatVersion index.epoch g fs) next [] ∧
      Tracks index a next :=
  ⟨_, .header _ _ _ rfl h.admits, h.seen⟩

end

end Tracks

/-- What appending a record at a place of the log does to the index, with the effect on the dirty
set that a scan of the record meets. -/
inductive IndexView.Takes (index : IndexView) (generation offset : Nat) :
    WalRecord → IndexView → List DirtyEffect → Prop
  | prepare (event : MountEvent) (hevent : event.Replayable) (hepoch : event.epoch = index.epoch)
      (hsequence : event.sequence = index.nextSequence) (hidentity : event.localIdentity = none) :
      Takes index generation offset (.prepared event)
        (index.prepare ⟨event, generation, offset⟩) []
  | commit (sequence : Nat) (identity : Option String) (record : PreparedRecord)
      (hrecord : index.prepared.find? (fun record => record.sequence = sequence) = some record)
      (hunresolved : ¬ index.Resolved sequence) :
      Takes index generation offset (.committed index.epoch sequence identity)
        (index.commit sequence identity) [.commit record.event.mutation]
  | abort (sequence : Nat) (reason : String) (record : PreparedRecord)
      (hrecord : index.prepared.find? (fun record => record.sequence = sequence) = some record)
      (hunresolved : ¬ index.Resolved sequence) :
      Takes index generation offset (.aborted index.epoch sequence reason) (index.abort sequence) []
  | acknowledge (throughSequence remoteRevision : Nat)
      (hle : index.acknowledgedSequence ≤ throughSequence)
      (hrevision : index.remoteRevision ≤ remoteRevision)
      (hresolved : ∀ sequence, index.acknowledgedSequence < sequence →
        sequence ≤ throughSequence → index.Resolved sequence) :
      Takes index generation offset
        (.remoteAcknowledged index.epoch throughSequence remoteRevision)
        (index.acknowledge throughSequence remoteRevision) []
  | contentDirty (path : MountPath) (hpath : validateMountPath path = .ok ()) :
      Takes index generation offset (.contentDirty index.epoch path) index [.mark path]
  | checkpointed (throughSequence treeGeneration : Nat) :
      Takes index generation offset (.checkpointed index.epoch throughSequence treeGeneration)
        index []
  | header (firstSequence : Nat) :
      Takes index generation offset
        (.logHeader walFormatVersion index.epoch generation firstSequence) index []

namespace IndexView.Takes

variable {index next : IndexView} {g of : Nat} {re : WalRecord}
  {ef : List DirtyEffect} (h : index.Takes g of re next ef)
include h

theorem epoch_eq : next.epoch = index.epoch := by
  cases h <;> rfl

theorem nextSequence_le : index.nextSequence ≤ next.nextSequence := by
  cases h with
  | prepare => exact Nat.le_succ _
  | _ => exact le_rfl

theorem acknowledgedSequence_le : index.acknowledgedSequence ≤ next.acknowledgedSequence := by
  cases h with
  | acknowledge _ _ hle => exact hle
  | _ => exact le_rfl

theorem wellFormed (hi : index.WellFormed) : next.WellFormed := by
  cases h with
  | prepare _ _ _ hs hid => exact hi.prepare hs hid
  | commit _ i _ hr hu =>
    exact hi.commit i (mem_of_find?_eq_some hr) (by simpa using find?_some hr) hu
  | abort _ _ _ hr hu => exact hi.abort (mem_of_find?_eq_some hr) (by simpa using find?_some hr) hu
  | acknowledge _ rr hle _ hre => exact hi.acknowledge rr hle hre
  | contentDirty | checkpointed | header => exact hi

/-- A scan that stands where the index stands collects the record and stands there again. -/
theorem tracks {a : ScanAnchor} {scan : ScanState} (hi : index.WellFormed)
    (ht : Tracks index a scan) :
    ∃ scan', scan.Collects g of re scan' ef ∧ Tracks next a scan' := by
  cases h with
  | prepare _ hev he hs => exact ht.prepare hi hev he hs
  | commit _ i _ hr hu => exact ht.commit hi i hr hu
  | abort _ r _ hr hu => exact ht.abort hi r hr hu
  | acknowledge _ _ hle hrev hre => exact ht.acknowledge hle hrev hre
  | contentDirty _ hp => exact ht.contentDirty hp
  | checkpointed => exact ht.checkpointed _ _
  | header fs => exact ht.header fs

end IndexView.Takes

/-- What a later scan keeps is sound. -/
theorem ScanState.Rebased.sound {first : Nat} {long s : ScanState}
    (h : ScanState.Rebased first long s) (hs : long.Sound) : s.Sound := by
  have hr : ∀ {se}, s.Resolved se ↔ long.Resolved se ∧ first ≤ se := by
    intro se
    unfold ScanState.Resolved
    rw [h.committed, h.aborted, Finset.mem_filter, Finset.mem_filter]
    tauto
  refine ⟨fun se hsh => ?_, fun se hlo hle => ?_⟩
  · obtain ⟨hl, hge⟩ := hr.1 hsh
    rw [h.preparedAt hge]
    exact hs.terminal_prepared se hl
  · rw [h.first_eq] at hlo
    exact hr.2 ⟨hs.acknowledged_resolved se (h.first_le.trans hlo)
      (hle.trans h.acknowledged_le), hlo⟩

/-- The scan from the cursor on stands where the index stands. -/
theorem Tracks.rebased {index : IndexView} {a : ScanAnchor} {long s : ScanState}
    (ht : Tracks index a long)
    (h : ScanState.Rebased (index.acknowledgedSequence + 1) long s) :
    Tracks index ⟨index.acknowledgedSequence + 1, index.acknowledgedSequence,
      index.remoteRevision⟩ s := by
  have ha : s.acknowledgedSequence ≤ index.acknowledgedSequence := by
    refine h.acknowledged_le.trans ?_
    rw [← ht.acknowledged]
    exact le_max_left _ _
  have hrev := h.revision_le.trans ht.revision_le
  have hp : s.prepared = index.prepared := h.prepared.trans ht.prepared
  have hc : s.committed = index.committed := h.committed.trans ht.committed
  have hab : s.aborted = index.aborted := h.aborted.trans ht.aborted
  have hf : ∀ set : Finset Nat, (set.filter (index.acknowledgedSequence + 1 ≤ ·)).filter
      (index.acknowledgedSequence + 1 ≤ ·) = set.filter (index.acknowledgedSequence + 1 ≤ ·) := by
    intro set
    rw [Finset.filter_filter]
    simp only [and_self]
  refine ⟨h.admits ht.admits, h.first_eq, le_rfl, ?_, fun re hr => ?_,
    fun se hl hh => ?_, ?_, ?_, fun se hre => ?_, fun se hl hle => ?_,
    max_eq_right ha, hrev, le_rfl, ?_⟩
  · rw [h.prepared, filter_filter]
    simp only [Bool.and_self]
    exact ht.prepared
  · rw [h.prepared] at hr
    exact ht.prepared_lt re (List.mem_filter.1 hr).1
  · rw [h.preparedAt hl]
    exact ht.prepared_all se (ht.first_le.trans hl) hh
  · rw [h.committed, hf]
    exact ht.committed
  · rw [h.aborted, hf]
    exact ht.aborted
  · unfold ScanState.Resolved at hre
    rw [h.committed, h.aborted, Finset.mem_filter, Finset.mem_filter] at hre
    rcases hre with ⟨hmem, hge⟩ | ⟨hmem, hge⟩
    · exact ⟨hge, (ht.terminal se (.inl hmem)).2⟩
    · exact ⟨hge, (ht.terminal se (.inr hmem)).2⟩
  · exact absurd hl (Nat.not_le.2 (Nat.lt_succ_of_le hle))
  · simp only
    split_ifs
    · rfl
    · exact (max_eq_right hrev).symm
    · omega

/-! ## Anchors -/

/-- Every prefix of the entries from an anchor on scans without an error into a sound scan, and all
of them lead to the index as it stands, by way of the given effects on the dirty set. -/
structure Anchored (framing : Framing) (index : IndexView) (anchor : ScanAnchor)
    (entries : List LogEntry) (effects : List DirtyEffect) : Prop where
  prefixes : ∀ front, front <+: entries → ∃ scan met,
    ScanState.Scans framing (.start anchor.first []) front scan met ∧ scan.Sound
  whole : ∃ scan, ScanState.Scans framing (.start anchor.first []) entries scan effects ∧
    Tracks index anchor scan

namespace Anchored

variable {fr : Framing} {index next : IndexView} {a : ScanAnchor}
  {entries : List LogEntry} {ef ad : List DirtyEffect}

/-- Appending a record extends the anchored entries. -/
theorem extend (h : Anchored fr index a entries ef) (hi : index.WellFormed)
    (e : LogEntry) (hsm : fr.bytes e.record ≤ maxRecordBytes)
    (hta : index.Takes e.generation e.offset e.record next ad) :
    Anchored fr next a (entries ++ [e]) (ad ++ ef) := by
  obtain ⟨_, hs, ht⟩ := h.whole
  obtain ⟨scan', hc, ht'⟩ := hta.tracks hi ht
  have hn := hs.snoc e hsm hc
  refine ⟨fun f hf => ?_, scan', hn, ht'⟩
  rcases List.prefix_concat_iff.1 hf with rfl | hold
  · exact ⟨scan', _, hn, ht'.sound⟩
  · exact h.prefixes f hold

/-- **Moving the anchor forward.** Once no prepare above the cursor stands before a point of the
log, replay may start at that point with everything the cursor covers pruned. -/
theorem rebase {f : List LogEntry} (h : Anchored fr index a (f ++ entries) ef)
    (hfr : ∀ en ∈ f, ∀ e, en.record = .prepared e → e.sequence ≤ index.acknowledgedSequence) :
    ∃ kept, Thins ef kept ∧ Anchored fr index
      ⟨index.acknowledgedSequence + 1, index.acknowledgedSequence, index.remoteRevision⟩
      entries kept := by
  obtain ⟨_, hsc, htr⟩ := h.whole
  obtain ⟨mid, o, n, hmi, hre, rfl⟩ := hsc.split
  have hl : ∀ p ∈ mid.prepared, p.sequence ≤ index.acknowledgedSequence := by
    intro p hp
    obtain ⟨en, he, e, hrec, hs, -⟩ := hmi.exists_entry hp
    exact hs ▸ hfr en he e hrec
  -- the scan of the front has collected nothing above the cursor
  have ht : ∀ se, mid.Resolved se → se ≤ index.acknowledgedSequence := by
    intro se hres
    obtain ⟨scan', met, hs', hso⟩ := h.prefixes f (prefix_append _ _)
    obtain rfl : scan' = mid := by
      have := hs'.scanEntries.symm.trans hmi.scanEntries
      exact Except.ok.inj this
    obtain ⟨p, hf⟩ := Option.isSome_iff_exists.1 (hso.terminal_prepared se hres)
    have hs : p.sequence = se := by simpa using find?_some hf
    exact hs ▸ hl p (mem_of_find?_eq_some hf)
  have hst : ScanState.Rebased (index.acknowledgedSequence + 1) mid
      (.start (index.acknowledgedSequence + 1) []) := by
    refine ⟨?_, rfl, ?_, ?_, ?_, Nat.zero_le _, Nat.zero_le _, .inl rfl⟩
    · rw [hmi.firstUnprunedSequence]
      exact htr.first_le
    · refine (List.filter_eq_nil_iff.2 fun p hp => ?_).symm
      have := hl p hp
      simp only [decide_eq_true_eq]
      omega
    · refine (Finset.filter_eq_empty_iff.2 fun se hmem => ?_).symm
      have := ht se (.inl hmem)
      omega
    · refine (Finset.filter_eq_empty_iff.2 fun se hmem => ?_).symm
      have := ht se (.inr hmem)
      omega
  obtain ⟨s, kept, hsh, hr, hth⟩ := hst.scans hre
  have hk : Thins (n ++ o) kept := by
    simpa using hth o [] (.start o)
  refine ⟨kept, hk, fun f' hf' => ?_, s, hsh, ?_⟩
  · obtain ⟨_, rfl⟩ := hf'
    obtain ⟨mid', _, _, hm', -, -⟩ := hre.split
    obtain ⟨s', kept', hsh', hr', -⟩ := hst.scans hm'
    obtain ⟨scan', met, hs', hso⟩ := h.prefixes (f ++ f')
      (by rw [← append_assoc]; exact prefix_append _ _)
    obtain ⟨mid₂, _, _, hm, hrest, -⟩ := hs'.split
    obtain rfl : mid₂ = mid := Except.ok.inj (hm.scanEntries.symm.trans hmi.scanEntries)
    obtain rfl : scan' = mid' := Except.ok.inj (hrest.scanEntries.symm.trans hm'.scanEntries)
    exact ⟨s', kept', hsh', hr'.sound hso⟩
  · exact htr.rebased hr

end Anchored

end Chevalier.LocalView
