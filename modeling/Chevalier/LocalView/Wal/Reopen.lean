import Chevalier.LocalView.Wal.Open
import Chevalier.LocalView.Wal.Reclaim

/-!
# Reopening a log

What the whole system keeps so that its state directory can be opened again: the books of the index
(`Accounted`), and the checkpoints in memory and on disk, each of which describes the log
(`Recoverable`). A compaction must not run ahead of the checkpoint on disk (`CompactsPublished`);
where no maintenance call fails it never does (`Published`).

* `Recoverable.steps`: every such step keeps the directory recoverable.
* `compaction_keeps_needed`: under that condition what the checkpoint on disk needs is there.
* `replay_eq_live`: reopening rebuilds the live index.
-/

namespace Chevalier.LocalView

open Fold WalLog List

/-! ## The books of the index -/

namespace IndexView

variable {ind : IndexView} {record : PreparedRecord}

/-- Committing one more sequence adds the bytes of its prepare. -/
theorem sum_filter_insert {p : List PreparedRecord} {c : Finset Nat} (hn : (p.map PreparedRecord.sequence).Nodup)
    (hr : record ∈ p) (hnew : record.sequence ∉ c) :
    ((p.filter fun o => o.sequence ∈ insert record.sequence c).map
      fun o => o.event.payloadLength).sum =
    ((p.filter fun o => o.sequence ∈ c).map
      fun o => o.event.payloadLength).sum + record.event.payloadLength := by
  obtain ⟨before, after, rfl⟩ := append_of_mem hr
  rw [map_append, map_cons, nodup_append, nodup_cons] at hn
  obtain ⟨-, ⟨ha, -⟩, hb⟩ := hn
  have hs : ∀ l : List PreparedRecord, (∀ o ∈ l, o.sequence ≠ record.sequence) →
      (l.filter fun o => o.sequence ∈ insert record.sequence c) =
        l.filter fun o => o.sequence ∈ c := by
    intro l hne
    refine filter_congr fun o ho => decide_eq_decide.2 ?_
    rw [Finset.mem_insert]
    exact or_iff_right (hne o ho)
  rw [filter_append, filter_append, hs before, filter_cons_of_pos, filter_cons_of_neg, hs after]
  · simp only [map_append, map_cons, sum_append, sum_cons]
    omega
  · exact fun o ho heq => ha (List.mem_map.2 ⟨o, ho, heq⟩)
  · simpa using hnew
  · simp
  · exact fun o ho heq =>
      hb _ (List.mem_map.2 ⟨o, ho, rfl⟩) _ mem_cons_self heq

theorem committedBytes_prepare (h : ind.WellFormed)
    (hs : record.sequence = ind.nextSequence) :
    (ind.prepare record).committedBytes = ind.committedBytes := by
  have hl : insertPrepared record ind.prepared = ind.prepared ++ [record] :=
    insertPrepared_of_lt fun o ho => by
      have := h.mem_range ho
      omega
  have hn : record.sequence ∉ ind.committed := by
    intro hmem
    have := (h.range _ (.inl hmem)).2
    omega
  unfold committedBytes prepare
  simp only [hl]
  rw [filter_append, filter_cons_of_neg (by simpa using hn), filter_nil, append_nil]

/-- Reporting an identity changes neither sequences nor payloads. -/
theorem sum_setLocalIdentity (s : Nat) (i : Option String)
    (p : List PreparedRecord) (c : Finset Nat) :
    (((setLocalIdentity s i p).filter
        fun o => o.sequence ∈ c).map
      fun o => o.event.payloadLength).sum =
    ((p.filter fun o => o.sequence ∈ c).map fun o => o.event.payloadLength).sum := by
  unfold setLocalIdentity
  rw [filter_map, map_map]
  have hf : (p.filter ((fun o : PreparedRecord => decide (o.sequence ∈ c)) ∘
      fun record => if record.sequence = s then
        ({ record with event := { record.event with localIdentity := i } } : PreparedRecord)
        else record)) = p.filter fun o => o.sequence ∈ c := by
    refine filter_congr fun o _ => ?_
    rw [Function.comp_apply, identified_sequence]
  rw [hf]
  refine congrArg List.sum (map_congr_left fun o _ => ?_)
  rw [Function.comp_apply]
  split_ifs <;> rfl

theorem committedBytes_commit (h : ind.WellFormed) {s : Nat} (i : Option String)
    (hr : ind.prepared.find? (fun record => record.sequence = s) = some record)
    (hu : ¬ ind.Resolved s) :
    (ind.commit s i).committedBytes = ind.committedBytes + record.event.payloadLength := by
  have hs : record.sequence = s := by simpa using find?_some hr
  subst hs
  unfold committedBytes commit
  simp only
  rw [sum_setLocalIdentity]
  exact sum_filter_insert h.nodup (mem_of_find?_eq_some hr) fun hmem => hu (.inl hmem)

/-- What the cursor drops of the committed prepares, their bytes drop. -/
theorem committedBytes_acknowledge (ts rr : Nat) :
    (ind.acknowledge ts rr).committedBytes =
      ind.committedBytes - (((ind.prepared.filter fun record =>
        record.sequence < ts + 1).filter fun record =>
          record.sequence ∈ ind.committed).map fun record => record.event.payloadLength).sum := by
  have hp := (filter_append_perm (fun record : PreparedRecord =>
    decide (record.sequence < ts + 1)) ind.prepared).filter
      fun record => decide (record.sequence ∈ ind.committed)
  have hsum := (hp.map fun record => record.event.payloadLength).sum_eq
  rw [filter_append, map_append, sum_append] at hsum
  have hk : ((ind.acknowledge ts rr).prepared.filter fun record =>
      record.sequence ∈ (ind.acknowledge ts rr).committed) =
      (ind.prepared.filter fun record =>
        !decide (record.sequence < ts + 1)).filter
          fun record => record.sequence ∈ ind.committed := by
    unfold acknowledge
    simp only [filter_filter]
    refine filter_congr fun record _ => ?_
    by_cases hle : ts + 1 ≤ record.sequence
    · have hlt : ts < record.sequence := hle
      simp [hle, hlt]
    · simp [hle, Nat.not_le.1 hle]
  unfold committedBytes
  rw [hk, ← hsum]
  omega

end IndexView

/-- The prepares are of valid mutations, the dirty paths are valid, and the pending bytes are those
of the committed prepares. -/
structure AppendState.Accounted (append : AppendState) : Prop where
  mutations : ∀ record ∈ append.prepared, record.event.mutation.validate = .ok ()
  paths : ∀ path ∈ append.dirtyContent, validateMountPath path = .ok ()
  pending : append.pendingPayloadBytes = append.index.committedBytes

/-- A path moved below a valid one is valid. -/
theorem validateMountPath_append {path new : MountPath} (hp : validateMountPath path = .ok ())
    (hn : validateMountPath new = .ok ()) (c : Nat) :
    validateMountPath (new ++ path.drop c) = .ok () := by
  unfold validateMountPath at *
  split_ifs at hp hn with he hb he' hb'
  cases new with
  | nil => exact absurd rfl he'
  | cons =>
    rw [if_neg (by simp), if_neg]
    rw [not_or, not_or] at hb hb' ⊢
    refine ⟨hb'.1, hb'.2.1, fun hmem => ?_⟩
    rcases List.mem_append.1 hmem with hold | hs
    · exact hb'.2.2 hold
    · exact hb.2.2 (mem_of_mem_drop hs)

/-- A mutation that passes its shape check has valid paths. -/
theorem MountMutation.validate_paths {m : MountMutation}
    (h : m.validate = .ok ()) :
    ∀ path ∈ m.affectedPaths, validateMountPath path = .ok () := by
  obtain ⟨_, hp, -⟩ := bind_eq_ok.1 h
  exact forIn_check_eq_ok.1 hp

namespace AppendState.Accounted

variable {append : AppendState} (h : append.Accounted)
include h

/-- What a committed mutation leaves dirty is valid. -/
theorem effect {m : MountMutation} (hv : m.validate = .ok ()) :
    ∀ path ∈ DirtySet.applyCommittedDirtyEffect append.dirtyContent m,
      validateMountPath path = .ok () := by
  intro path hp
  rcases DirtySet.origin hp with ⟨hmem, -⟩ | ⟨_, new, _, rfl, s, hs, -, rfl⟩
  · exact h.paths path hmem
  · exact validateMountPath_append (h.paths s hs)
      (MountMutation.validate_paths hv new (by simp [MountMutation.affectedPaths])) _

end AppendState.Accounted

namespace WalLog

variable {fr : Framing} {log next : WalLog} (h : log.append.Accounted)
  (hindex : log.append.index.WellFormed)
include h hindex

theorem accounted_prepare {m : MountMutation} {p : Option PayloadRef}
    {pi : MountPreImage} (hv : m.validate = .ok ())
    (hp : log.prepare fr m p pi = .ok next) :
    next.append.Accounted := by
  obtain ⟨-, rfl⟩ := prepare_eq_ok.1 hp
  refine ⟨fun record hr => ?_, h.paths, ?_⟩
  · rcases mem_insertPrepared hr with rfl | hold
    · exact hv
    · exact h.mutations record hold
  · have hs : (log.append.index.prepare ⟨log.nextEvent m p pi,
        log.append.generation, log.append.generationLen⟩).committedBytes =
        log.append.index.committedBytes := IndexView.committedBytes_prepare hindex rfl
    exact h.pending.trans hs.symm

theorem accounted_records {ac : RecordAction} (hr : log.Records fr ac next) :
    next.append.Accounted := by
  cases hr with
  | prepare _ _ hp _ hpr =>
    obtain ⟨_, hv, -⟩ := bind_eq_ok.1 hp
    exact accounted_prepare h hindex hv hpr
  | commit e i hc =>
    rcases commit_cases hc with rfl | ⟨s, hs, he, hu, -, rfl⟩
    · exact h
    · have hv := h.mutations s (mem_of_find?_eq_some hs)
      have hb : (log.append.index.commit e.sequence i).committedBytes =
          log.append.index.committedBytes + s.event.payloadLength :=
        IndexView.committedBytes_commit hindex i hs hu
      rw [he] at hv hb
      refine ⟨fun record hrec => ?_, h.effect hv, ?_⟩
      · obtain ⟨so, hso, rfl⟩ := List.mem_map.1 hrec
        have hm := h.mutations so hso
        split_ifs <;> exact hm
      · exact (congrArg (· + e.payloadLength) h.pending).trans hb.symm
  | abort _ _ ha =>
    rcases abort_cases ha with rfl | ⟨_, _, _, _, rfl⟩
    · exact h
    · exact ⟨h.mutations, h.paths, h.pending⟩
  | resolveRecovered se _ hre =>
    obtain ⟨s, hs, hu, ⟨-, -, rfl⟩ | ⟨-, -, rfl⟩⟩ :=
      resolveRecovered_cases hre
    · have hv := h.mutations s (mem_of_find?_eq_some hs)
      have hb : (log.append.index.commit se none).committedBytes =
          log.append.index.committedBytes + s.event.payloadLength :=
        IndexView.committedBytes_commit hindex none hs hu
      rw [hindex.commit_none hu] at hb
      refine ⟨h.mutations, h.effect hv, ?_⟩
      exact (congrArg (· + s.event.payloadLength) h.pending).trans hb.symm
    · exact ⟨h.mutations, h.paths, h.pending⟩
  | recordContentDirty _ hd =>
    obtain ⟨hv, rfl | ⟨-, -, rfl⟩⟩ := recordContentDirty_cases hd
    · exact h
    · refine ⟨h.mutations, fun o ho => ?_, h.pending⟩
      rcases DirtySet.mem_insertPath.1 ho with rfl | hold
      · exact hv
      · exact h.paths o hold
  | clearContentDirty =>
    exact ⟨h.mutations, fun o ho => h.paths o (DirtySet.mem_removePath.1 ho).1, h.pending⟩
  | renameContentDirty _ _ hren =>
    obtain ⟨-, hn, rfl⟩ := renameContentDirty_eq_ok hren
    refine ⟨h.mutations, fun o ho => ?_, h.pending⟩
    rcases DirtySet.origin_of_mem_retarget_loop _ ho with ⟨hmem, -⟩ | ⟨so, hso, rfl⟩
    · exact h.paths o hmem
    · exact validateMountPath_append (h.paths so (List.mem_filter.1 hso).1) hn _

omit hindex in
theorem accounted_acknowledge {ts rr : Nat} {n : Finset String}
    (ha : log.acknowledge fr ts rr = .ok (some (next, n))) :
    next.append.Accounted := by
  obtain ⟨-, -, -, -, heq⟩ := acknowledge_eq_some ha
  obtain ⟨rfl, -⟩ := Prod.mk.inj heq
  refine ⟨fun record hr => h.mutations record (List.mem_filter.1 hr).1, h.paths, ?_⟩
  have hb := log.append.index.committedBytes_acknowledge ts rr
  refine Eq.trans ?_ hb.symm
  show log.append.pendingPayloadBytes - _ = _
  rw [h.pending]
  rfl

end WalLog

namespace MountWal

/-- The books of every reachable state. -/
structure Booked (framing : Framing) (wal : MountWal) : Prop where
  consistent : wal.Consistent framing
  accounted : wal.log.append.Accounted

variable {fr : Framing} {wal next : MountWal}

theorem Booked.steps {ac : WalAction} (h : wal.Booked fr)
    (hst : wal.Steps fr ac next) : next.Booked fr := by
  refine ⟨h.consistent.steps hst, ?_⟩
  have hindex := h.consistent.laid.wellFormed
  obtain ⟨hc, hm, hpa, hp⟩ := h
  cases hst with
  | record _ hr => exact accounted_records ⟨hm, hpa, hp⟩ hindex hr
  | prepareCapture _ c hca _ _ hpr =>
    obtain ⟨_, hv, -⟩ :=
      bind_eq_ok.1 (hc.admitted c (mem_of_getElem? hca))
    exact accounted_prepare ⟨hm, hpa, hp⟩ hindex hv hpr
  | acknowledge _ _ _ hac => exact accounted_acknowledge ⟨hm, hpa, hp⟩ hac
  | sync _ hsy => cases hsy <;> exact ⟨hm, hpa, hp⟩
  | rotate _ hcr =>
    obtain ⟨-, -, rfl⟩ := rotateCreate_eq_some hcr
    exact ⟨hm, hpa, hp⟩
  | compact _ hb =>
    obtain ⟨rfl, -⟩ := compactBegin_eq_some hb
    exact ⟨hm, hpa, hp⟩
  | advance _ hh ha =>
    cases ha with
    | mark ca _ _ hma =>
      obtain ⟨-, rfl⟩ := appendFramed_eq_ok.1 hma
      cases ca <;> exact ⟨hm, hpa, hp⟩
    | rotateSwap _ hs =>
      obtain ⟨rfl, rfl⟩ := rotateSwap_eq_true hs
      exact ⟨hm, hpa, hp⟩
    | rotateLost _ hs => exact absurd (hc.held _ hh).1.symm (rotateSwap_eq_false hs)
    | _ => exact ⟨hm, hpa, hp⟩
  | _ => exact ⟨hm, hpa, hp⟩

end MountWal

/-! ## Checkpoints in memory and on disk -/

/-- Where the holder of the maintenance lock stands with the checkpoints: the one it writes is the
last one described, and a compaction keeps what the one on disk and the last one need. -/
def Maintenance.Keeping (disk last : Option MountCheckpoint) : Maintenance → Prop
  | .writePrevious _ _ checkpoint _ | .writeCurrent _ _ checkpoint => last = some checkpoint
  | .removeLogs plan _ =>
    (∀ checkpoint, disk = some checkpoint →
      plan.floorGeneration ≤ checkpoint.replayLogGeneration) ∧
    ∀ checkpoint, last = some checkpoint → plan.floorGeneration ≤ checkpoint.replayLogGeneration
  | _ => True

/-- The holder is writing a checkpoint it has described. -/
def Maintenance.writing : Maintenance → Bool
  | .writePrevious .. | .writeCurrent .. => true
  | _ => false

theorem LogStep.epoch_eq {fr : Framing} {log next : WalLog} (h : LogStep fr log next) :
    next.append.epoch = log.append.epoch := by
  cases h with
  | append h =>
    cases h with
    | quiet _ hindex => exact congrArg IndexView.epoch hindex
    | append _ _ _ _ ht => exact ht.epoch_eq
  | stage _ _ _ _ hindex | swap _ _ hindex | remove _ _ _ hindex =>
    exact congrArg IndexView.epoch hindex

namespace MountWal

/-- What the system keeps so that its state directory can be opened. -/
structure Recoverable (framing : Framing) (epoch : String) (wal : MountWal) : Prop where
  consistent : wal.Consistent framing
  accounted : wal.log.append.Accounted
  epoch_eq : wal.log.append.epoch = epoch
  disk_some : wal.checkpoint.isSome = true
  last_some : wal.log.append.lastCheckpoint.isSome = true
  described : ∀ checkpoint, wal.checkpoint = some checkpoint ∨
    wal.log.append.lastCheckpoint = some checkpoint →
      Described framing wal.log.view wal.log.append.index checkpoint
  present : ∀ checkpoint, wal.checkpoint = some checkpoint → ∀ generation,
    checkpoint.replayLogGeneration ≤ generation → generation ≤ wal.log.append.generation →
      generation ∈ wal.log.files.map LogFile.generation
  order : ∀ checkpoint last, wal.checkpoint = some checkpoint →
    wal.log.append.lastCheckpoint = some last →
      checkpoint.replayLogGeneration ≤ last.replayLogGeneration
  upper : ∀ generation ∈ wal.log.append.activeGenerations, generation ≤ wal.log.append.generation
  lower : ∀ last, wal.log.append.lastCheckpoint = some last → ∀ generation,
    last.replayLogGeneration ≤ generation → generation ≤ wal.log.append.generation →
      generation ∈ wal.log.append.activeGenerations
  held : ∀ held, wal.maintenance = some held →
    held.Keeping wal.checkpoint wal.log.append.lastCheckpoint

/-- A compaction begins only while the checkpoint on disk is the last one described. -/
def CompactsPublished (action : WalAction) (wal : MountWal) : Prop :=
  match action with
  | .maintenance .compact => wal.checkpoint = wal.log.append.lastCheckpoint
  | _ => True

variable {framing fr : Framing} {epoch ep : String} {wal next : MountWal}

/-- A step that appends, or leaves the log as it is, and leaves the checkpoints as they are. -/
theorem Recoverable.append (h : wal.Recoverable fr ep) (hb : next.Booked fr)
    (hs : AppendStep fr wal.log next.log)
    (ha : next.log.append.activeGenerations = wal.log.append.activeGenerations)
    (hl : next.log.append.lastCheckpoint = wal.log.append.lastCheckpoint)
    (hd : next.checkpoint = wal.checkpoint)
    (hh : ∀ held, next.maintenance = some held →
      held.Keeping wal.checkpoint wal.log.append.lastCheckpoint) :
    next.Recoverable fr ep := by
  have hg := hs.generation_eq
  have hlo : LogStep fr wal.log next.log := .append hs
  refine ⟨hb.1, hb.2, hlo.epoch_eq.trans h.epoch_eq, hd ▸ h.disk_some,
    hl ▸ h.last_some, fun c hc => ?_, ?_, ?_, ?_, ?_, ?_⟩
  · rw [hd, hl] at hc
    exact (h.described c hc).logStep h.consistent.laid hlo
  · rw [hd, hg, hs.generations_eq]
    exact h.present
  · rw [hd, hl]
    exact h.order
  · rw [ha, hg]
    exact h.upper
  · rw [hl, ha, hg]
    exact h.lower
  · rw [hd, hl]
    exact hh

/-- A checkpoint file that becomes visible is the last checkpoint described. -/
theorem Recoverable.publish {c : MountCheckpoint} (h : wal.Recoverable fr ep)
    (hl : wal.log.append.lastCheckpoint = some c)
    (hb : next.Booked fr) (hlo : next.log = wal.log)
    (hd : next.checkpoint = some c)
    (hh : ∀ held, next.maintenance = some held → held.Keeping (some c) (some c)) :
    next.Recoverable fr ep := by
  obtain ⟨old, hold⟩ := Option.isSome_iff_exists.1 h.disk_some
  have ho := h.order old c hold hl
  refine ⟨hb.1, hb.2, hlo ▸ h.epoch_eq, by rw [hd]; rfl,
    hlo ▸ h.last_some, fun f hf => ?_, fun f hf g hge hle => ?_,
    fun f last hf hl' => ?_, hlo ▸ h.upper, hlo ▸ h.lower, ?_⟩
  · rw [hd, hlo, hl, or_self, Option.some.injEq] at hf
    rw [hlo]
    exact h.described f (.inr (hf ▸ hl))
  · rw [hd, Option.some.injEq] at hf
    rw [hlo] at hle ⊢
    exact h.present old hold g (ho.trans (hf ▸ hge)) hle
  · rw [hd, Option.some.injEq] at hf
    rw [hlo, hl, Option.some.injEq] at hl'
    rw [← hf, ← hl']
  · rw [hd, hlo, hl]
    exact hh

/-- A section of a checkpoint describes the log and makes the description the last checkpoint. -/
theorem Recoverable.describe {tg : Nat} (h : wal.Recoverable fr ep)
    (hva : (wal.log.checkpointNow tg).validate = .ok ())
    (hb : next.Booked fr) (hv : next.log.view = wal.log.view)
    (hindex : next.log.append.index = wal.log.append.index)
    (ha : next.log.append.activeGenerations = (wal.log.checkpointNow tg).activeLogGenerations)
    (hl : next.log.append.lastCheckpoint = some (wal.log.checkpointNow tg))
    (hdi : next.checkpoint = wal.checkpoint)
    (hh : ∀ held, next.maintenance = some held →
      held.Keeping wal.checkpoint (some (wal.log.checkpointNow tg))) :
    next.Recoverable fr ep := by
  have hla := h.consistent.laid
  obtain ⟨p, hp⟩ := Option.isSome_iff_exists.1 h.last_some
  have hd := h.described p (.inr hp)
  have hpo : p.replayLogGeneration ≤ wal.log.replayPoint.1 := by
    have := hd.point_le hla
    omega
  have hlo : ∀ g, wal.log.replayPoint.1 ≤ g →
      g ≤ wal.log.append.generation → g ∈ wal.log.append.activeGenerations := fun g hge hle =>
    h.lower p hp g (hpo.trans hge) hle
  have hno := hd.checkpointNow hla tg hva h.upper hlo h.accounted.paths
  have hg : next.log.append.generation = wal.log.append.generation :=
    congrArg LogView.generation hv
  have hf : next.log.files = wal.log.files := congrArg LogView.files hv
  have hmem : ∀ g, g ∈ (wal.log.checkpointNow tg).activeLogGenerations ↔
      g = wal.log.replayPoint.1 ∨ g = wal.log.append.generation ∨
        g ∈ wal.log.append.activeGenerations ∧ wal.log.replayPoint.1 ≤ g := by
    intro g
    show g ∈ insert _ (insert _ (Finset.filter _ _)) ↔ _
    rw [Finset.mem_insert, Finset.mem_insert, Finset.mem_filter]
  refine ⟨hb.1, hb.2, (congrArg IndexView.epoch hindex).trans h.epoch_eq,
    hdi ▸ h.disk_some, by rw [hl]; rfl, fun c hc => ?_, ?_,
    fun c last hc hl' => ?_, fun g hgen => ?_,
    fun last hl' g hge hle => ?_, ?_⟩
  · rw [hv, hindex]
    rcases hc with hold | hn
    · exact h.described c (.inl (hdi ▸ hold))
    · rw [hl, Option.some.injEq] at hn
      exact hn ▸ hno
  · rw [hdi, hg, hf]
    exact h.present
  · rw [hdi] at hc
    rw [hl, Option.some.injEq] at hl'
    rw [← hl']
    exact (h.order c p hc hp).trans hpo
  · rw [hg]
    rw [ha, hmem] at hgen
    rcases hgen with rfl | rfl | ⟨hgen, -⟩
    · exact hla.replayPoint_le
    · exact le_rfl
    · exact h.upper g hgen
  · rw [hl, Option.some.injEq] at hl'
    rw [← hl'] at hge
    rw [hg] at hle
    rw [ha, hmem]
    exact .inr (.inr ⟨hlo g hge hle, hge⟩)
  · rw [hdi, hl]
    exact hh

/-- A step of the maintenance lock's holder keeps the directory recoverable. -/
theorem Recoverable.advance {held : Maintenance} (h : wal.Recoverable fr ep)
    (hh : wal.maintenance = some held) (hste : wal.Advances fr held next) :
    next.Recoverable fr ep := by
  have hst := Steps.advance held hh hste
  have hb := Booked.steps ⟨h.consistent, h.accounted⟩ hst
  have hd := fun c hc =>
    (h.described c hc).logStep h.consistent.laid (hst.logStep h.consistent)
  have hk := h.held held hh
  have hso := h.consistent.held held hh
  cases hste with
  | described _ _ _ hv =>
    refine h.describe hv hb rfl rfl rfl rfl rfl fun held' hh' => ?_
    cases hh'
    rfl
  | writePrevious =>
    refine h.append hb (.quiet rfl rfl) rfl rfl rfl fun held' hh' => ?_
    cases hh'
    exact hk
  | writeCurrent =>
    refine h.publish hk hb rfl rfl fun held' hh' => ?_
    cases hh'
    trivial
  | mark ca _ _ hm =>
    have ha := appendStep_of_markCheckpoint hm
    obtain ⟨-, rfl⟩ := appendFramed_eq_ok.1 hm
    cases ca <;>
      exact h.append hb ha rfl rfl rfl fun _ hh' => nomatch hh'
  | rotateSwap g hs =>
    obtain ⟨-, hn⟩ := hso
    obtain ⟨rfl, rfl⟩ := rotateSwap_eq_true hs
    refine ⟨hb.1, hb.2, h.epoch_eq, h.disk_some, h.last_some, hd,
      fun c hc f hge hle => ?_, h.order, fun f hf => ?_,
      fun last hl f hge hle => ?_, fun held' hh' => ?_⟩
    · rcases Nat.lt_or_eq_of_le hle with hlt | rfl
      · exact h.present c hc f hge (Nat.le_of_lt_succ hlt)
      · exact hn
    · rcases Finset.mem_insert.1 hf with rfl | hold
      · exact le_rfl
      · exact Nat.le_succ_of_le (h.upper f hold)
    · rcases Nat.lt_or_eq_of_le hle with hlt | rfl
      · exact Finset.mem_insert_of_mem (h.lower last hl f hge (Nat.le_of_lt_succ hlt))
      · exact Finset.mem_insert_self _ _
    · cases hh'
      trivial
  | rotateLost _ hs => exact absurd hso.1.symm (rotateSwap_eq_false hs)
  | removeLog _ _ file _ hbe =>
    refine ⟨hb.1, hb.2, h.epoch_eq, h.disk_some, h.last_some, hd,
      fun c hc f hge hle => ?_, h.order, h.upper, h.lower,
      fun held' hh' => ?_⟩
    · -- what is deleted lies below the floor, and the checkpoint on disk does not need it
      obtain ⟨kept, hke, heq⟩ := List.mem_map.1 (h.present c hc f hge hle)
      have hfl := hk.1 c hc
      have hne : kept.generation ≠ file.generation := by omega
      exact List.mem_map.2 ⟨kept, List.mem_filter.2 ⟨hke, by simpa using hne⟩, heq⟩
    · cases hh'
      exact hk
  | removedLogs =>
    refine ⟨hb.1, hb.2, h.epoch_eq, h.disk_some, h.last_some, hd, h.present,
      h.order, fun f hf => ?_, fun last hl f hge hle => ?_, fun held' hh' => ?_⟩
    · exact h.upper f (Finset.mem_filter.1 hf).1
    · exact Finset.mem_filter.2 ⟨h.lower last hl f hge hle, (hk.2 last hl).trans hge⟩
    · cases hh'
      trivial
  | deferCandidates =>
    refine h.append hb (.quiet rfl rfl) rfl rfl rfl fun held' hh' => ?_
    unfold splitCandidates at hh'
    simp only at hh'
    split_ifs at hh'
    cases hh'
    trivial
  | refused | reclaimed => exact h.append hb (.quiet rfl rfl) rfl rfl rfl fun _ hh' => nomatch hh'
  | _ =>
    refine h.append hb (.quiet rfl rfl) rfl rfl rfl fun held' hh' => ?_
    cases hh'
    trivial

variable {action ac : WalAction}

/-- **Every step that compacts behind a published checkpoint keeps the directory recoverable.** -/
theorem Recoverable.steps (h : wal.Recoverable fr ep)
    (hal : CompactsPublished ac wal) (hs : wal.Steps fr ac next) :
    next.Recoverable fr ep := by
  have hb := Booked.steps ⟨h.consistent, h.accounted⟩ hs
  have hlo := hs.logStep h.consistent
  cases hs with
  | record _ hr =>
    have hbo := hr.frame.1
    exact h.append hb (appendStep_of_records h.consistent.laid.wellFormed hr)
      (congrArg LogBooks.activeGenerations hbo) (congrArg LogBooks.lastCheckpoint hbo) rfl
      h.held
  | prepareCapture _ c hca _ hpa hp =>
    have hbo := prepare_books hp
    obtain ⟨_, hv, -⟩ :=
      bind_eq_ok.1 (h.consistent.admitted c (mem_of_getElem? hca))
    exact h.append hb (appendStep_of_prepare hv hpa hp)
      (congrArg LogBooks.activeGenerations hbo) (congrArg LogBooks.lastCheckpoint hbo) rfl
      h.held
  | acknowledge _ _ _ hac =>
    have hbo := acknowledge_books hac
    exact h.append hb (appendStep_of_acknowledge hac)
      (congrArg LogBooks.activeGenerations hbo) (congrArg LogBooks.lastCheckpoint hbo) rfl
      h.held
  | rotate _ hcr =>
    obtain ⟨_, _, rfl⟩ := rotateCreate_eq_some hcr
    refine ⟨hb.1, hb.2, h.epoch_eq, h.disk_some, h.last_some,
      fun checkpoint hc => ?_, fun checkpoint hc f hge hle => ?_, h.order,
      h.upper, h.lower, fun held' hh' => ?_⟩
    · exact (h.described checkpoint hc).logStep h.consistent.laid hlo
    · have hmem := h.present checkpoint hc f hge hle
      show f ∈ List.map _ (_ ++ _)
      rw [map_append]
      exact mem_append_left _ hmem
    · cases hh'
      trivial
  | compact _ hbe =>
    obtain ⟨rfl, rfl⟩ := compactBegin_eq_some hbe
    have hpu : wal.checkpoint = wal.log.append.lastCheckpoint := hal
    refine h.append hb (.quiet rfl rfl) rfl rfl rfl fun held' hh' => ?_
    cases hh'
    have hf : ∀ checkpoint, wal.log.append.lastCheckpoint = some checkpoint →
        (wal.log.append.lastCheckpoint.map MountCheckpoint.replayLogGeneration).getD
          wal.log.append.generation ≤ checkpoint.replayLogGeneration := by
      intro checkpoint hl
      rw [hl]
      exact le_rfl
    exact ⟨fun checkpoint hd => hf checkpoint (hpu ▸ hd), hf⟩
  | advance _ hh ha => exact h.advance hh ha
  | checkpoint | acknowledgedCheckpoint | reclaimFile =>
    refine h.append hb (.quiet rfl rfl) rfl rfl rfl fun held' hh' => ?_
    cases hh'
    trivial
  | failVisible _ _ _ hh => exact h.publish (h.held _ hh) hb rfl rfl fun _ hh' => nomatch hh'
  | failVisiblePrevious | fail =>
    exact h.append hb (.quiet rfl rfl) rfl rfl rfl fun _ hh' => nomatch hh'
  | sync _ hsy => cases hsy <;> exact h.append hb (.quiet rfl rfl) rfl rfl rfl h.held
  | _ => exact h.append hb (.quiet rfl rfl) rfl rfl rfl h.held

/-! ## The first state -/

theorem tracks_fresh (fr : Framing) (ep : String) :
    Tracks (described fr ep).append.index ⟨1, 0, 0⟩ (.start 1 []) := by
  refine ⟨.inl rfl, rfl, le_rfl, rfl, fun _ hr => ?_, fun s hl hh => ?_, rfl, rfl,
    fun s hre => ?_, fun s hl hle => ?_, rfl, le_rfl, le_rfl, rfl⟩
  · cases hr
  · have hlt : s < 1 := hh
    exact absurd hl (Nat.not_le.2 hlt)
  · rcases hre with hmem | hmem <;> cases hmem
  · have hz : s ≤ 0 := hle
    exact absurd hl (Nat.not_le.2 (Nat.lt_succ_of_le hz))

/-- The first checkpoint describes the log it was written for. -/
theorem described_fresh (hs : Startable fr ep) :
    Described fr (described fr ep).view (described fr ep).append.index (freshCheckpoint fr ep) := by
  have he : (described fr ep).view.entriesFrom
      (freshCheckpoint fr ep).replayPoint = [] := by
    refine List.filter_eq_nil_iff.2 fun e hen ha => ?_
    obtain rfl := List.mem_singleton.1 hen
    refine of_decide_eq_true ha (.inr ⟨rfl, ?_⟩)
    exact fr.bytes_pos _
  refine ⟨?_, rfl, rfl, .inr ?_, le_rfl, ⟨0, le_rfl, fun g => ?_⟩, fun path hp => ?_, [], ?_⟩
  · exact (freshCheckpoint_validate fr ep).trans (if_neg hs.epoch_ne)
  · exact (fr.length_singleton _).symm
  · show g ∈ Finset.filter _ {0} ↔ 0 ≤ g ∧ g ≤ 0
    rw [Finset.mem_filter, Finset.mem_singleton]
    exact ⟨fun hmem => ⟨Nat.zero_le _, hmem.1.le⟩, fun hle => ⟨Nat.le_zero.1 hle.2, Nat.zero_le _⟩⟩
  · cases hp
  · rw [he]
    refine ⟨fun f hf => ?_, _, .nil, tracks_fresh fr ep⟩
    obtain rfl := List.prefix_nil.1 hf
    exact ⟨_, [], .nil, (tracks_fresh fr ep).sound⟩

theorem recoverable_fresh (hs : Startable fr ep) :
    (fresh fr ep).Recoverable fr ep := by
  have hd := (described_fresh hs).append (laid_fresh hs) hs.checkpointed (.checkpointed 0 0)
  refine ⟨consistent_fresh hs, ⟨fun _ hr => ?_, fun _ hp => ?_, rfl⟩, rfl, rfl, rfl,
    fun c hc => ?_, fun c hc g _ hle => ?_,
    fun c last hc hl => ?_, fun g hmem => ?_,
    fun last _ g _ hle => ?_, (nofun)⟩
  · cases hr
  · cases hp
  · have heq : freshCheckpoint fr ep = c := by
      rcases hc with heq | heq <;> exact Option.some.inj heq
    exact heq ▸ hd
  · obtain rfl : g = 0 := Nat.le_zero.1 hle
    exact mem_cons_self
  · rw [← Option.some.inj hc, ← Option.some.inj hl]
  · exact (Finset.mem_singleton.1 hmem).le
  · exact Finset.mem_singleton.2 (Nat.le_zero.1 hle)

/-! ## Reopening -/

/-- **A recoverable directory opens, and opening rebuilds the live index.** -/
theorem Recoverable.openWal_eq (h : wal.Recoverable fr ep)
    (hfi : ∀ ts tg, fr.bytes (.checkpointed ep ts tg) ≤ maxRecordBytes)
    {e : Option String} (he : e = none ∨ e = some ep)
    (m : String) :
    ∃ o dir, openWal fr wal.dir e m = .ok (o, dir) ∧
      o.append.index = wal.log.append.index ∧
      o.append.pendingPayloadBytes = wal.log.append.pendingPayloadBytes := by
  obtain ⟨c, hdi⟩ := Option.isSome_iff_exists.1 h.disk_some
  have hd := h.described c (.inl hdi)
  have hl := h.consistent.laid
  have hep : wal.log.append.index.epoch = ep := h.epoch_eq
  rw [← hep] at he hfi
  rw [h.accounted.pending]
  by_cases hs : wal.log.append.generation + 1 ∈ wal.log.files.map LogFile.generation
  · -- a rotation has created the next generation; it holds nothing but its header
    have hsw : Laid fr (wal.log.view.swapped fr) wal.log.append.index := by
      have hlo : LogStep fr wal.log { wal.log with
          append := { wal.log.append with
            generation := wal.log.append.generation + 1
            generationLen := fr.length wal.log.view.nextRecords }
          history := (wal.log.view.swapped fr).history } := .swap hs rfl rfl
      exact hl.logStep hlo
    refine (hd.swapped hl hs).openWal_eq hsw ⟨fun generation hge hle => ?_,
      fun file hf => ?_⟩ rfl hdi he m (hfi _ _)
    · rcases Nat.lt_or_eq_of_le hle with hlt | rfl
      · exact h.present c hdi generation hge (Nat.le_of_lt_succ hlt)
      · exact hs
    · by_contra hgt
      have hlt : wal.log.append.generation < file.generation := by
        have : ¬ file.generation ≤ wal.log.append.generation + 1 := hgt
        omega
      exact hgt (hl.stored.staged file hf hlt).1.le
  · refine hd.openWal_eq hl ⟨h.present c hdi, fun file hf => ?_⟩ rfl hdi he m (hfi _ _)
    by_contra hgt
    have hlt := Nat.not_le.1 hgt
    exact hs (List.mem_map.2 ⟨file, hf, (hl.stored.staged file hf hlt).1⟩)

/-! ## Runs in which no maintenance call fails -/

/-- The step is not the failure of a maintenance call. -/
def Succeeds (action : WalAction) (_ : MountWal) : Prop :=
  match action with
  | .maintenance (.fail _) => False
  | _ => True

instance (action : WalAction) (wal : MountWal) : Decidable (Succeeds action wal) := by
  unfold Succeeds
  split <;> infer_instance

/-- The checkpoint on disk is the last one described, unless that one is being written. -/
def Published (wal : MountWal) : Prop :=
  wal.maintenance.any Maintenance.writing = false →
    wal.checkpoint = wal.log.append.lastCheckpoint

theorem Published.steps (h : wal.Published)
    (hwa : wal.Recoverable fr ep) (hal : Succeeds ac wal)
    (hst : wal.Steps fr ac next) : next.Published := by
  -- a step that begins while the lock is free, or whose holder is not writing
  have hi : ∀ {held}, wal.maintenance = some held → held.writing = false →
      wal.checkpoint = wal.log.append.lastCheckpoint := by
    intro held hh hw
    refine h ?_
    rw [hh]
    exact hw
  have hf : wal.maintenance = none → wal.checkpoint = wal.log.append.lastCheckpoint := by
    intro hn
    refine h ?_
    rw [hn]
    rfl
  cases hst with
  | record _ hr =>
    intro hw
    exact (h hw).trans (congrArg LogBooks.lastCheckpoint hr.frame.1).symm
  | prepareCapture _ _ _ _ _ hp =>
    intro hw
    exact (h hw).trans (congrArg LogBooks.lastCheckpoint (prepare_books hp)).symm
  | acknowledge _ _ _ hac =>
    intro hw
    exact (h hw).trans (congrArg LogBooks.lastCheckpoint (acknowledge_books hac)).symm
  | sync _ hsy => cases hsy <;> exact h
  | checkpoint _ hn | acknowledgedCheckpoint _ _ _ hn => exact fun _ => hf hn
  | rotate hn hc =>
    obtain ⟨-, -, rfl⟩ := rotateCreate_eq_some hc
    exact fun _ => hf hn
  | compact hn hb =>
    obtain ⟨rfl, -⟩ := compactBegin_eq_some hb
    exact fun _ => hf hn
  | advance _ hh ha =>
    cases ha with
    | described => exact nofun
    | writePrevious => exact nofun
    | writeCurrent => exact fun _ => (hwa.held _ hh).symm
    | mark c _ _ hm =>
      have hbo := congrArg LogBooks.lastCheckpoint (markCheckpoint_books hm)
      cases c <;> exact fun _ => (hi hh rfl).trans hbo.symm
    | rotateSwap _ hs =>
      obtain ⟨rfl, rfl⟩ := rotateSwap_eq_true hs
      exact fun _ => hi hh rfl
    | rotateLost _ hs => exact absurd (hwa.consistent.held _ hh).1.symm (rotateSwap_eq_false hs)
    | _ => exact fun _ => hi hh rfl
  | reclaimFile _ _ _ hh => exact fun _ => hi hh rfl
  | capture | acknowledgeNothing | release | sealSegment | rotateNothing | compactNothing => exact h
  | _ => exact hal.elim

/-- Where no maintenance call fails, a compaction never runs ahead of the checkpoint on disk. -/
theorem Published.compacts (h : wal.Published)
    (hs : wal.Steps fr ac next) : CompactsPublished ac wal ∨ next = wal := by
  cases hs with
  | compact hn =>
    refine .inl (h ?_)
    rw [hn]
    rfl
  | compactNothing => exact .inr rfl
  | _ => exact .inl trivial

/-- The invariant of runs in which no maintenance call fails. -/
structure Faultless (framing : Framing) (epoch : String) (wal : MountWal) : Prop where
  recoverable : wal.Recoverable framing epoch
  published : wal.Published

theorem Faultless.steps (h : wal.Faultless fr ep)
    (ha : Succeeds ac wal) (hs : wal.Steps fr ac next) :
    next.Faultless fr ep := by
  rcases h.published.compacts hs with hc | rfl
  · exact ⟨h.recoverable.steps hc hs, h.published.steps h.recoverable ha hs⟩
  · exact h

/-! ## What the checkpoint on disk needs -/

/-- The generations from the replay point of the checkpoint on disk on are there. -/
def GenerationsKept (wal : MountWal) : Prop :=
  ∀ checkpoint, wal.checkpoint = some checkpoint → ∀ generation,
    checkpoint.replayLogGeneration ≤ generation → generation ≤ wal.log.append.generation →
      generation ∈ wal.log.files.map LogFile.generation

instance (action : WalAction) (wal : MountWal) : Decidable (CompactsPublished action wal) := by
  cases action with
  | maintenance action => cases action <;> dsimp only [CompactsPublished] <;> infer_instance
  | _ => exact inferInstanceAs (Decidable True)

/-- **A compaction removes nothing that the checkpoint on disk needs**, in every run whose
compactions begin while that checkpoint is the last one described and apart from the captures under
way, whatever maintenance calls fail. -/
theorem compaction_keeps_needed {initial : MountWal} {actions : List WalAction}
    {expected : Option String} (hcreate : create framing epoch = .ok initial)
    (hfits : ∀ throughSequence treeGeneration,
      framing.bytes (.checkpointed epoch throughSequence treeGeneration) ≤ maxRecordBytes)
    (hrun : Schedule.run (Schedule.guarded (fun action wal => CompactsPublished action wal ∧
      CompactsApart action wal) (exec framing)) actions initial = some wal)
    (hexpected : expected = none ∨ expected = some epoch) (minted : String) :
    wal.GenerationsKept ∧ ∃ opened dir,
      openWal framing wal.dir expected minted = .ok (opened, dir) ∧
      ∀ record ∈ opened.append.prepared, ∀ payload ∈ record.event.payload,
        payload.file ∈ wal.payloads.disk.files := by
  obtain ⟨hst, rfl⟩ := create_eq_ok hcreate
  obtain ⟨hr, hs⟩ : wal.Recoverable framing epoch ∧ wal.Spared framing := by
    refine Schedule.run_invariant (P := fun wal => wal.Recoverable framing epoch ∧
      wal.Spared framing) (fun action b a hb hs => ?_) hrun
      ⟨recoverable_fresh hst, spared_fresh hst⟩
    obtain ⟨⟨hp, ha⟩, he⟩ := Schedule.guarded_eq_some.1 hs
    exact ⟨hb.1.steps hp (steps_of_exec he), hb.2.steps ha (steps_of_exec he)⟩
  obtain ⟨opened, dir, ho, hi, -⟩ := hr.openWal_eq hfits hexpected minted
  refine ⟨hr.present, opened, dir, ho, fun record hre payload hp => ?_⟩
  have hl := hr.consistent.laid
  have hm : record ∈ wal.log.append.index.prepared := hi ▸ hre
  exact hs.carried _ payload (hl.carried_of_prepared hm hp) (hl.wellFormed.mem_range hm).1

/-- The segment of a retained prepare outlives a compaction. -/
theorem compaction_keeps_needed_givenUp : ∃ initial wal opened dir,
    create smallFrames "epoch" = .ok initial ∧
      Schedule.run (Schedule.guarded (fun action wal => CompactsPublished action wal ∧
        CompactsApart action wal) (exec smallFrames))
        (givenUp ++ [.record (.prepareCapture 0), .maintenance .compact] ++ advances 2)
        initial = some wal ∧ wal.GenerationsKept ∧
      openWal smallFrames wal.dir none "other" = .ok (opened, dir) ∧
      ∀ record ∈ opened.append.prepared, ∀ payload ∈ record.event.payload,
        payload.file ∈ wal.payloads.disk.files := by
  have hrun : (Schedule.run (Schedule.guarded (fun action wal => CompactsPublished action wal ∧
      CompactsApart action wal) (exec smallFrames))
      (givenUp ++ [.record (.prepareCapture 0), .maintenance .compact] ++ advances 2)
      (fresh smallFrames "epoch")).any (fun _ => true) = true := by decide +kernel
  obtain ⟨wal, hw, -⟩ := Schedule.exists_of_run_any hrun
  have hc := create_eq startable_smallFrames
  obtain ⟨hg, opened, dir, ho, hp⟩ := compaction_keeps_needed hc
    (fun _ _ => (by decide : 512 ≤ maxRecordBytes)) hw (.inl rfl) "other"
  exact ⟨_, wal, opened, dir, hc, hw, hg, ho, hp⟩

def largeFrames : Framing := .fixed maxRecordBytes (by decide)

/-- A generation is filled and rotated; the checkpoint that follows is described and its file is not
written; a compaction takes the description for its floor. -/
def compactsAhead : List WalAction :=
  ((List.range 62).map fun i => .record (.recordContentDirty [toString i])) ++
    [.maintenance .rotate] ++ advances 4 ++
    [.sync .begin, .sync .takeDirty, .sync .syncLog, .sync .syncLog, .sync .finish] ++ advances 3 ++
    [.maintenance (.fail false), .maintenance .compact] ++ advances 1

/-- A compaction after a failed checkpoint deletes the generation that the checkpoint on disk is
replayed from. -/
theorem generation_lost : ∃ initial wal, create largeFrames "epoch" = .ok initial ∧
    Schedule.run (exec largeFrames) compactsAhead initial = some wal ∧ ¬ wal.GenerationsKept := by
  have hrun : (Schedule.run (exec largeFrames) compactsAhead (fresh largeFrames "epoch")).any
      (fun wal => wal.checkpoint.any (·.replayLogGeneration = 0) ∧
        0 ∉ wal.log.files.map LogFile.generation) = true := by decide +kernel
  obtain ⟨wal, hw, hl⟩ := Schedule.exists_of_run_any hrun
  obtain ⟨hc, hn⟩ := of_decide_eq_true hl
  refine ⟨_, wal, create_eq ⟨by decide, by decide, by decide⟩, hw, fun hk => hn ?_⟩
  obtain ⟨c, hd, hz⟩ := (Option.any_eq_true _ _).1 hc
  exact hk c hd 0 (of_decide_eq_true hz).le (Nat.zero_le _)

end MountWal

/-! ## Replay equals the live state -/

/-- Terminal records are of retained prepares, all above the cursor, none twice, and the pending
bytes are those of the committed prepares. -/
structure AppendState.Balanced (append : AppendState) : Prop where
  disjoint : Disjoint append.committed append.aborted
  committed : ∀ sequence ∈ append.committed,
    ∃ record ∈ append.prepared, record.sequence = sequence
  aborted : ∀ sequence ∈ append.aborted, ∃ record ∈ append.prepared, record.sequence = sequence
  above : ∀ record ∈ append.prepared, append.acknowledgedSequence < record.sequence
  pending : append.pendingPayloadBytes =
    ((append.prepared.filter fun record => record.sequence ∈ append.committed).map
      fun record => record.event.payloadLength).sum

/-- The opened state is the live one, as far as replay is to rebuild it. -/
structure AppendState.Rebuilds (opened live : AppendState) : Prop where
  acknowledgedSequence : opened.acknowledgedSequence = live.acknowledgedSequence
  remoteRevision : opened.remoteRevision = live.remoteRevision
  nextSequence : opened.nextSequence = live.nextSequence
  prepared : opened.prepared = live.prepared
  committed : opened.committed = live.committed
  aborted : opened.aborted = live.aborted
  pendingPayloadBytes : opened.pendingPayloadBytes = live.pendingPayloadBytes

namespace MountWal

variable {framing fr : Framing} {epoch : String} {wal : MountWal}

theorem Booked.balanced (h : wal.Booked fr) : wal.log.append.Balanced := by
  have hindex := h.consistent.laid.wellFormed
  refine ⟨hindex.disjoint, fun s hmem => ?_, fun s hmem => ?_,
    fun record hr => (hindex.mem_range hr).1, h.accounted.pending⟩
  · obtain ⟨hl, hh⟩ := hindex.range s (.inl hmem)
    exact hindex.exists_prepared hl hh
  · obtain ⟨hl, hh⟩ := hindex.range s (.inr hmem)
    exact hindex.exists_prepared hl hh

/-- **Replay equals the live state.** Every reachable state is balanced, and a state reached without
a failed maintenance call, reopened with nothing lost, opens and is rebuilt exactly. -/
theorem replay_eq_live {initial : MountWal} (hcreate : create framing epoch = .ok initial)
    (hfits : ∀ throughSequence treeGeneration,
      framing.bytes (.checkpointed epoch throughSequence treeGeneration) ≤ maxRecordBytes) :
    (∀ actions wal, Schedule.run (exec framing) actions initial = some wal →
      wal.log.append.Balanced) ∧
    ∀ actions wal expected minted,
      Schedule.run (Schedule.guarded Succeeds (exec framing)) actions initial = some wal →
      expected = none ∨ expected = some epoch →
        ∃ opened dir, openWal framing wal.dir expected minted = .ok (opened, dir) ∧
          opened.append.Rebuilds wal.log.append := by
  obtain ⟨hst, rfl⟩ := create_eq_ok hcreate
  have hf := recoverable_fresh hst
  constructor
  · intro actions wal hrun
    have hinv : wal.Booked framing := by
      refine Schedule.run_invariant (fun action b a hb hs => ?_) hrun ⟨hf.consistent, hf.accounted⟩
      exact hb.steps (steps_of_exec hs)
    exact hinv.balanced
  · intro actions wal expected minted hrun he
    have hinv : wal.Faultless framing epoch := by
      refine Schedule.run_invariant (fun action b a hb hs => ?_) hrun ⟨hf, fun _ => rfl⟩
      obtain ⟨ha, hexe⟩ := Schedule.guarded_eq_some.1 hs
      exact hb.steps ha (steps_of_exec hexe)
    obtain ⟨opened, dir, ho, hindex, hp⟩ :=
      hinv.recoverable.openWal_eq hfits he minted
    exact ⟨opened, dir, ho, congrArg IndexView.acknowledgedSequence hindex,
      congrArg IndexView.remoteRevision hindex, congrArg IndexView.nextSequence hindex,
      congrArg IndexView.prepared hindex, congrArg IndexView.committed hindex,
      congrArg IndexView.aborted hindex, hp⟩

/-- The run of two writes, one of them acknowledged, checkpointed and compacted, reopens with the
other one retained. -/
theorem replay_eq_live_givenUp : ∃ initial wal opened dir,
    create smallFrames "epoch" = .ok initial ∧
      Schedule.run (Schedule.guarded Succeeds (exec smallFrames))
        (givenUp ++ [.record (.prepareCapture 0), .maintenance .compact] ++ advances 2)
        initial = some wal ∧
      wal.log.append.acknowledgedSequence = 1 ∧ wal.log.append.prepared ≠ [] ∧
      wal.log.append.Balanced ∧
      openWal smallFrames wal.dir (some "epoch") "other" = .ok (opened, dir) ∧
      opened.append.Rebuilds wal.log.append := by
  have hrun : (Schedule.run (Schedule.guarded Succeeds (exec smallFrames))
      (givenUp ++ [.record (.prepareCapture 0), .maintenance .compact] ++ advances 2)
      (fresh smallFrames "epoch")).any (fun wal =>
        wal.log.append.acknowledgedSequence = 1 ∧ wal.log.append.prepared ≠ []) = true := by
    decide +kernel
  obtain ⟨wal, hw, hf⟩ := Schedule.exists_of_run_any hrun
  obtain ⟨ha, hpr⟩ := of_decide_eq_true hf
  have hc : create smallFrames "epoch" = .ok (fresh smallFrames "epoch") :=
    create_eq startable_smallFrames
  have hp := Schedule.run_mono id (fun action _ b a h => (Schedule.guarded_eq_some.1 h).2) hw
  rw [List.map_id] at hp
  obtain ⟨hb, hre⟩ := replay_eq_live hc (fun _ _ => (by decide : 512 ≤ maxRecordBytes))
  obtain ⟨opened, dir, ho, hr⟩ := hre _ wal _ "other" hw (.inr rfl)
  exact ⟨_, wal, opened, dir, hc, hw, ha, hpr, hb _ wal hp, ho, hr⟩

end MountWal

end Chevalier.LocalView
