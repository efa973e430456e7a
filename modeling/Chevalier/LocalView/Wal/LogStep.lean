import Chevalier.LocalView.Wal.Layout

/-!
# What a step does to the log

Seen from the log, a step of the system appends one record in lockstep with the index, creates,
activates or deletes a generation's file, or changes neither the files nor the index. `LogStep` is
that list and `MountWal.Consistent` the invariant that makes it complete: the layout of the log, and
where the holder of the maintenance lock stands with a rotation or a compaction.

* `Steps.logStep`: every step of the system is one of these.
* `Consistent.steps`: the layout is kept along every run.
-/

namespace Chevalier.LocalView

open Fold WalLog List

/-- A critical section appends one record in lockstep with the index, or leaves both alone. -/
inductive AppendStep (framing : Framing) (log next : WalLog) : Prop
  | quiet (hview : next.view = log.view) (hindex : next.append.index = log.append.index)
  | append (record : WalRecord) (effects : List DirtyEffect)
      (hsmall : framing.bytes record ≤ maxRecordBytes)
      (hview : next.view = log.view.appended framing record)
      (htakes : log.append.index.Takes log.append.generation log.append.generationLen record
        next.append.index effects)

/-- What a step can do to the files and the index of the log. -/
inductive LogStep (framing : Framing) (log next : WalLog) : Prop
  | append (h : AppendStep framing log next)
  | stage (firstSequence : Nat)
      (hfresh : log.append.generation + 1 ∉ log.files.map LogFile.generation)
      (hsmall : framing.bytes (log.view.header (log.append.generation + 1) firstSequence) ≤
        maxRecordBytes)
      (hview : next.view = log.view.stagedNext firstSequence)
      (hindex : next.append.index = log.append.index)
  | swap (hnext : log.append.generation + 1 ∈ log.files.map LogFile.generation)
      (hview : next.view = log.view.swapped framing)
      (hindex : next.append.index = log.append.index)
  | remove (generation : Nat) (hlt : generation < log.append.generation)
      (hview : next.view = log.view.removed generation)
      (hindex : next.append.index = log.append.index)

namespace WalLog

variable {fr : Framing} {log next : WalLog}

theorem appendStep_of_prepare {m : MountMutation} {p : Option PayloadRef}
    {pi : MountPreImage} (hv : m.validate = .ok ())
    (hp : m.validatePayload p = .ok ())
    (h : log.prepare fr m p pi = .ok next) : AppendStep fr log next := by
  obtain ⟨hs, rfl⟩ := prepare_eq_ok.1 h
  exact .append _ [] hs rfl (.prepare (log.nextEvent m p pi) ⟨rfl, hv, hp⟩ rfl rfl rfl)

theorem appendStep_of_commit {e : MountEvent} {i : Option String}
    (h : log.commit fr e i = .ok next) : AppendStep fr log next := by
  rcases commit_cases h with rfl | ⟨s, hs, _, hu, hsm, rfl⟩
  · exact .quiet rfl rfl
  · exact .append _ _ hsm rfl (.commit e.sequence i s hs hu)

theorem appendStep_of_abort {e : MountEvent} {r : String}
    (h : log.abort fr e r = .ok next) : AppendStep fr log next := by
  rcases abort_cases h with rfl | ⟨s, hs, hu, hsm, rfl⟩
  · exact .quiet rfl rfl
  · exact .append _ _ hsm rfl (.abort e.sequence r s hs hu)

theorem appendStep_of_resolveRecovered (hi : log.append.index.WellFormed) {se : Nat}
    {r : Resolution} (h : log.resolveRecovered fr se r = .ok next) :
    AppendStep fr log next := by
  obtain ⟨s, hst, hu, ⟨-, hs, rfl⟩ | ⟨-, hs, rfl⟩⟩ :=
    resolveRecovered_cases h
  · refine .append _ [.commit s.event.mutation] hs rfl ?_
    have ht : log.append.index.Takes log.append.generation log.append.generationLen
        (.committed log.append.epoch se none) (log.append.index.commit se none)
        [.commit s.event.mutation] := .commit se none s hst hu
    rwa [hi.commit_none hu] at ht
  · exact .append _ _ hs rfl (.abort se _ s hst hu)

theorem appendStep_of_recordContentDirty {path : MountPath}
    (h : log.recordContentDirty fr path = .ok next) : AppendStep fr log next := by
  obtain ⟨hv, rfl | ⟨-, hs, rfl⟩⟩ := recordContentDirty_cases h
  · exact .quiet rfl rfl
  · exact .append _ _ hs rfl (.contentDirty path hv)

theorem appendStep_of_acknowledge {ts rr : Nat} {n : Finset String}
    (h : log.acknowledge fr ts rr = .ok (some (next, n))) :
    AppendStep fr log next := by
  obtain ⟨hle, hre, hr, hs, heq⟩ := acknowledge_eq_some h
  obtain ⟨rfl, -⟩ := Prod.mk.inj heq
  exact .append _ _ hs rfl (.acknowledge ts rr hle hre hr)

theorem appendStep_of_markCheckpoint {c : MountCheckpoint} {tg : Nat}
    (h : log.markCheckpoint fr c tg = .ok next) :
    AppendStep fr log next := by
  obtain ⟨hs, rfl⟩ := appendFramed_eq_ok.1 h
  exact .append _ _ hs rfl (.checkpointed _ _)

theorem appendStep_of_records (hi : log.append.index.WellFormed) {a : RecordAction}
    (h : log.Records fr a next) : AppendStep fr log next := by
  cases h with
  | prepare _ _ hp hpa h =>
    obtain ⟨_, hv, -⟩ := bind_eq_ok.1 hp
    exact appendStep_of_prepare hv hpa h
  | commit _ _ h => exact appendStep_of_commit h
  | abort _ _ h => exact appendStep_of_abort h
  | resolveRecovered _ _ h => exact appendStep_of_resolveRecovered hi h
  | recordContentDirty _ h => exact appendStep_of_recordContentDirty h
  | clearContentDirty => exact .quiet rfl rfl
  | renameContentDirty _ _ h =>
    obtain ⟨-, -, rfl⟩ := renameContentDirty_eq_ok h
    exact .quiet rfl rfl

theorem rotateSwap_eq_true {generation : Nat}
    (h : log.rotateSwap fr generation = (next, true)) :
    log.append.generation + 1 = generation ∧ next = { log with
      append := { log.append with
        pendingSync := log.append.pendingSync ++ [log.append.generation]
        generation := log.append.generation + 1
        generationLen := fr.length log.view.nextRecords
        activeGenerations := insert (log.append.generation + 1) log.append.activeGenerations
        compactionPending := true }
      history := log.history ++
        fr.entries (log.append.generation + 1) 0 log.view.nextRecords } := by
  unfold rotateSwap at h
  split_ifs at h with hl
  · cases h
  · obtain rfl : log.append.generation + 1 = generation := by simpa using hl
    obtain ⟨rfl, -⟩ := Prod.mk.inj h
    exact ⟨rfl, rfl⟩

theorem rotateSwap_eq_false {g : Nat}
    (h : log.rotateSwap fr g = (next, false)) :
    log.append.generation + 1 ≠ g := by
  unfold rotateSwap at h
  split_ifs at h with hl
  · exact hl
  · cases h

end WalLog

/-! ## What a section leaves alone -/

/-- The part of the append state that checkpoints, rotation and compaction keep. -/
structure LogBooks where
  pendingSync : List Nat
  treeGeneration : Nat
  checkpointId : Nat
  activeGenerations : Finset Nat
  lastCheckpoint : Option MountCheckpoint
  reclaimCandidates : Finset String
  compactionPending : Bool

/-- The part of the append state that checkpoints, rotation and compaction keep. -/
def AppendState.books (append : AppendState) : LogBooks where
  pendingSync := append.pendingSync
  treeGeneration := append.treeGeneration
  checkpointId := append.checkpointId
  activeGenerations := append.activeGenerations
  lastCheckpoint := append.lastCheckpoint
  reclaimCandidates := append.reclaimCandidates
  compactionPending := append.compactionPending

namespace WalLog

variable {fr : Framing} {log next : WalLog}

theorem prepare_books {m : MountMutation} {p : Option PayloadRef}
    {pi : MountPreImage} (h : log.prepare fr m p pi = .ok next) :
    next.append.books = log.append.books := by
  obtain ⟨-, rfl⟩ := prepare_eq_ok.1 h
  rfl

theorem acknowledge_books {ts rr : Nat} {n : Finset String}
    (h : log.acknowledge fr ts rr = .ok (some (next, n))) :
    next.append.books = log.append.books := by
  obtain ⟨-, -, -, -, heq⟩ := acknowledge_eq_some h
  obtain ⟨rfl, -⟩ := Prod.mk.inj heq
  rfl

theorem markCheckpoint_books {c : MountCheckpoint} {tg : Nat}
    (h : log.markCheckpoint fr c tg = .ok next) :
    next.append.books = log.append.books := by
  obtain ⟨-, rfl⟩ := appendFramed_eq_ok.1 h
  rfl

theorem Records.frame {a : RecordAction} (h : log.Records fr a next) :
    next.append.books = log.append.books ∧
      next.append.acknowledgedSequence = log.append.acknowledgedSequence := by
  cases h with
  | prepare _ _ _ _ h =>
    obtain ⟨-, rfl⟩ := prepare_eq_ok.1 h
    exact ⟨rfl, rfl⟩
  | commit _ _ h =>
    rcases commit_cases h with rfl | ⟨_, _, _, _, _, rfl⟩ <;> exact ⟨rfl, rfl⟩
  | abort _ _ h =>
    rcases abort_cases h with rfl | ⟨_, _, _, _, rfl⟩ <;> exact ⟨rfl, rfl⟩
  | resolveRecovered _ _ h =>
    obtain ⟨_, _, _, ⟨_, _, rfl⟩ | ⟨_, _, rfl⟩⟩ := resolveRecovered_cases h <;> exact ⟨rfl, rfl⟩
  | recordContentDirty _ h =>
    obtain ⟨_, rfl | ⟨_, _, rfl⟩⟩ := recordContentDirty_cases h <;> exact ⟨rfl, rfl⟩
  | clearContentDirty => exact ⟨rfl, rfl⟩
  | renameContentDirty _ _ h =>
    obtain ⟨-, -, rfl⟩ := renameContentDirty_eq_ok h
    exact ⟨rfl, rfl⟩

end WalLog

theorem PayloadStore.Captures.admitted {s next : PayloadStore} {a : CaptureAction}
    (h : s.Captures a next)
    (hs : ∀ c ∈ s.captures, preflight c.mutation true = .ok ()) :
    ∀ c ∈ next.captures, preflight c.mutation true = .ok () := by
  -- a step that replaces a capture keeps its mutation
  have hse : ∀ {ind : Nat} {old new : Capture}, s.captures[ind]? = some old →
      new.mutation = old.mutation → ∀ c ∈ s.captures.set ind new,
        preflight c.mutation true = .ok () := by
    intro ind old new hold hsa c hc
    rcases mem_or_eq_of_mem_set hc with hmem | rfl
    · exact hs c hmem
    · rw [hsa]
      exact hs old (mem_of_getElem? hold)
  intro c hc
  cases h with
  | pack _ _ _ _ _ hp | packNew _ _ _ _ hp | mint _ _ _ _ _ hp =>
    rcases mem_concat.1 hc with hold | rfl
    · exact hs c hold
    · exact hp
  | writeRange _ _ _ _ _ _ hold | writeFile _ _ _ _ _ hold | register _ _ _ _ hold =>
    exact hse hold (by rfl) c hc
  | discardFile | discard => exact hs c (mem_of_mem_eraseIdx hc)

/-! ## The layout of a log and its index -/

/-- The position of a prepare is before that of another one. -/
def PreparedRecord.Before (record other : PreparedRecord) : Prop :=
  record.generation < other.generation ∨
    record.generation = other.generation ∧ record.offset < other.offset

/-- The record lies where the index says it does. -/
def PreparedRecord.At (record : PreparedRecord) (entry : LogEntry) : Prop :=
  entry.generation = record.generation ∧ entry.offset = record.offset ∧
    ∃ event, entry.record = .prepared event ∧ event.sequence = record.sequence ∧
      event.payload = record.event.payload

/-- The log is laid out on disk and the index knows where its prepares are: each of them lies at an
entry, in order, and every prepare above the cursor is indexed. -/
structure Laid (framing : Framing) (view : LogView) (index : IndexView) : Prop where
  stored : view.Stored framing
  wellFormed : index.WellFormed
  epoch : view.epoch = index.epoch
  placed : ∀ record ∈ index.prepared, ∃ entry ∈ view.history, record.At entry
  ordered : index.prepared.Pairwise PreparedRecord.Before
  complete : ∀ entry ∈ view.history, ∀ event, entry.record = .prepared event →
    event.sequence ≤ index.acknowledgedSequence ∨ ∃ record ∈ index.prepared, record.At entry

namespace Laid

variable {fr : Framing} {view : LogView} {ind next : IndexView} (h : Laid fr view ind)
include h

theorem prepared_generation_le {r : PreparedRecord} (hr : r ∈ ind.prepared) :
    r.generation ≤ view.generation := by
  obtain ⟨_, he, hg, -⟩ := h.placed r hr
  exact hg ▸ h.stored.generation_le he

/-- Files may change as long as the history does not. -/
theorem of_history {view' : LogView} (hs : view'.Stored fr)
    (he : view'.epoch = view.epoch) (hh : view'.history = view.history) :
    Laid fr view' ind :=
  ⟨hs, h.wellFormed, he.trans h.epoch, hh ▸ h.placed, h.ordered, hh ▸ h.complete⟩

/-- The history may grow by entries that are not prepares. -/
theorem of_append {view' : LogView} {a : List LogEntry} (hs : view'.Stored fr)
    (hep : view'.epoch = view.epoch) (hh : view'.history = view.history ++ a)
    (ha : ∀ e ∈ a, ∀ ev, e.record ≠ .prepared ev) :
    Laid fr view' ind := by
  refine ⟨hs, h.wellFormed, hep.trans h.epoch, fun r hr => ?_, h.ordered, fun e he ev hev => ?_⟩
  · obtain ⟨e, he, hat⟩ := h.placed r hr
    exact ⟨e, hh ▸ mem_append_left _ he, hat⟩
  · rw [hh] at he
    rcases List.mem_append.1 he with hold | hn
    · exact h.complete e hold ev hev
    · exact absurd hev (ha e hn ev)

/-- A new prepare comes last. -/
theorem prepare {ev : MountEvent}
    (hsm : fr.bytes (.prepared ev) ≤ maxRecordBytes)
    (hs : ev.sequence = ind.nextSequence) (hi : ev.localIdentity = none) :
    Laid fr (view.appended fr (.prepared ev))
      (ind.prepare ⟨ev, view.generation, view.generationLen⟩) := by
  have hl : insertPrepared ⟨ev, view.generation, view.generationLen⟩ ind.prepared =
      ind.prepared ++ [⟨ev, view.generation, view.generationLen⟩] :=
    insertPrepared_of_lt fun o ho => by
      have := (h.wellFormed.mem_range ho).2
      show o.sequence < ev.sequence
      omega
  have hse : (⟨view.generation, view.generationLen, .prepared ev⟩ : LogEntry) ∈
      (view.appended fr (.prepared ev)).history :=
    mem_append_right _ (mem_singleton_self _)
  refine ⟨h.stored.appended hsm, h.wellFormed.prepare hs hi, h.epoch, ?_, ?_, ?_⟩
  · intro r hr
    rcases mem_insertPrepared hr with rfl | hr
    · exact ⟨_, hse, rfl, rfl, ev, rfl, rfl, rfl⟩
    · obtain ⟨e, he, hat⟩ := h.placed r hr
      exact ⟨e, mem_append_left _ he, hat⟩
  · show (insertPrepared _ ind.prepared).Pairwise _
    rw [hl]
    refine List.pairwise_append.2 ⟨h.ordered, pairwise_singleton _ _, fun a ha b hb => ?_⟩
    obtain rfl := List.mem_singleton.1 hb
    obtain ⟨e, he, hg, hof, -⟩ := h.placed a ha
    have := h.stored.behind e he
    unfold LogEntry.Before at this
    rwa [hg, hof] at this
  · intro e he f hf
    rcases mem_concat.1 he with hold | rfl
    · refine (h.complete e hold f hf).imp_right fun ⟨r, hr, hat⟩ => ?_
      refine ⟨r, mem_insertPrepared_of_ne hr ?_, hat⟩
      have := (h.wellFormed.mem_range hr).2
      show r.sequence ≠ ev.sequence
      omega
    · exact .inr ⟨_, mem_insertPrepared_self _ _, rfl, rfl, ev, rfl, rfl, rfl⟩

/-- The index may drop prepares the cursor covers, as long as the others stay where they are. -/
theorem of_index (hw : next.WellFormed) (hep : next.epoch = ind.epoch)
    (ha : ind.acknowledgedSequence ≤ next.acknowledgedSequence)
    (ho : next.prepared.Pairwise PreparedRecord.Before)
    (hke : ∀ r ∈ next.prepared, ∃ old ∈ ind.prepared, ∀ en, old.At en → r.At en)
    (hall : ∀ old ∈ ind.prepared, old.sequence ≤ next.acknowledgedSequence ∨
      ∃ r ∈ next.prepared, ∀ en, old.At en → r.At en) :
    Laid fr view next := by
  refine ⟨h.stored, hw, h.epoch.trans hep.symm, fun r hr => ?_, ho, fun en he e hev => ?_⟩
  · obtain ⟨old, hold, hat⟩ := hke r hr
    obtain ⟨en, he, hp⟩ := h.placed old hold
    exact ⟨en, he, hat en hp⟩
  · rcases h.complete en he e hev with hle | ⟨old, hold, hat⟩
    · exact .inl (hle.trans ha)
    · rcases hall old hold with hle | ⟨r, hr, hk⟩
      · obtain ⟨-, -, f, hf, hs, -⟩ := hat
        obtain rfl : e = f := WalRecord.prepared.inj (hev.symm.trans hf)
        exact .inl (hs ▸ hle)
      · exact .inr ⟨r, hr, hk en hat⟩

/-- A commit changes the identity of a prepare and nothing else of it. -/
theorem commit {s : Nat} {i : Option String}
    (hw : (ind.commit s i).WellFormed) :
    Laid fr view (ind.commit s i) := by
  have hat : ∀ (record : PreparedRecord) (e : LogEntry), record.At e →
      (if record.sequence = s then
        ({ record with event := { record.event with localIdentity := i } } :
          PreparedRecord) else record).At e := by
    intro record e hr
    split_ifs <;> exact hr
  refine h.of_index hw rfl le_rfl ?_ (fun record hr => ?_) fun old hold => ?_
  · refine List.pairwise_map.2 (h.ordered.imp fun hb => ?_)
    split_ifs <;> exact hb
  · obtain ⟨old, hold, rfl⟩ := List.mem_map.1 hr
    exact ⟨old, hold, hat old⟩
  · exact .inr ⟨_, mem_map_of_mem hold, hat old⟩

theorem acknowledge {ts rr : Nat}
    (hle : ind.acknowledgedSequence ≤ ts)
    (hw : (ind.acknowledge ts rr).WellFormed) :
    Laid fr view (ind.acknowledge ts rr) := by
  refine h.of_index hw rfl hle (h.ordered.filter _)
    (fun r hr => ⟨r, (List.mem_filter.1 hr).1, fun _ hat => hat⟩)
    fun old hold => ?_
  by_cases hc : old.sequence ≤ ts
  · exact .inl hc
  · refine .inr ⟨old, List.mem_filter.2 ⟨hold, ?_⟩, fun _ hat => hat⟩
    simpa using Nat.not_le.1 hc

/-- Appending a record in lockstep with the index keeps the layout. -/
theorem append {r : WalRecord} {ef : List DirtyEffect}
    (hsm : fr.bytes r ≤ maxRecordBytes)
    (ht : ind.Takes view.generation view.generationLen r next ef) :
    Laid fr (view.appended fr r) next := by
  have hw := ht.wellFormed h.wellFormed
  have ho : (∀ e, r ≠ .prepared e) →
      Laid fr (view.appended fr r) ind := fun hne =>
    h.of_append (h.stored.appended hsm) rfl rfl fun en he e => by
      obtain rfl := List.mem_singleton.1 he
      exact hne e
  cases ht with
  | prepare _ _ _ hs hi => exact h.prepare hsm hs hi
  | commit => exact (ho (by simp)).commit hw
  | abort _ _ r hr =>
    exact (ho (by simp)).of_index hw rfl le_rfl h.ordered
      (fun r hr => ⟨r, hr, fun _ hat => hat⟩)
      fun old hold => .inr ⟨old, hold, fun _ hat => hat⟩
  | acknowledge _ _ hle => exact (ho (by simp)).acknowledge hle hw
  | contentDirty | checkpointed | header => exact ho (by simp)

end Laid

theorem Laid.appendStep {fr : Framing} {log next : WalLog}
    (h : Laid fr log.view log.append.index) (hst : AppendStep fr log next) :
    Laid fr next.view next.append.index := by
  cases hst with
  | quiet hv hi =>
    rw [hv, hi]
    exact h
  | append _ _ hs hv ht =>
    rw [hv]
    exact h.append hs ht

/-- Every step of the log keeps its layout. -/
theorem Laid.logStep {fr : Framing} {log next : WalLog}
    (h : Laid fr log.view log.append.index) (hs : LogStep fr log next) :
    Laid fr next.view next.append.index := by
  cases hs with
  | append hs => exact h.appendStep hs
  | stage _ hf hsm hv hi =>
    rw [hv, hi]
    exact h.of_history (h.stored.stagedNext hf hsm) rfl rfl
  | swap hn hv hi =>
    rw [hv, hi]
    refine h.of_append (h.stored.swapped hn) rfl rfl fun e he ev hev => ?_
    obtain ⟨_, hr, -⟩ := h.stored.nextRecords_eq hn
    rw [hr] at he
    obtain rfl := List.mem_singleton.1 he
    cases hev
  | remove _ hlt hv hi =>
    rw [hv, hi]
    exact h.of_history (h.stored.removed hlt) rfl rfl

namespace AppendStep

variable {fr : Framing} {log next : WalLog} (h : AppendStep fr log next)
include h

theorem generation_eq : next.append.generation = log.append.generation := by
  cases h with
  | quiet hv | append _ _ _ hv => exact congrArg LogView.generation hv

theorem generations_eq : next.files.map LogFile.generation = log.files.map LogFile.generation := by
  cases h with
  | quiet hv => exact congrArg (fun view => view.files.map LogFile.generation) hv
  | append _ _ _ hv =>
    refine (congrArg (fun view => view.files.map LogFile.generation) hv).trans ?_
    show (List.map _ log.files).map LogFile.generation = _
    rw [map_map]
    refine map_congr_left fun file _ => ?_
    show (if _ then _ else file).generation = file.generation
    split_ifs <;> rfl

end AppendStep

variable {framing fr : Framing} {log next : WalLog}

/-- The index takes a record or stays as it is. -/
theorem LogStep.index_cases (h : LogStep fr log next) :
    next.append.index = log.append.index ∨ ∃ r e,
      log.append.index.Takes log.append.generation log.append.generationLen r
        next.append.index e := by
  cases h with
  | append h =>
    cases h with
    | quiet _ hi => exact .inl hi
    | append r e _ _ ht => exact .inr ⟨r, e, ht⟩
  | stage _ _ _ _ hi | swap _ _ hi | remove _ _ _ hi => exact .inl hi

/-- Sequences are only handed out. -/
theorem LogStep.nextSequence_le (h : LogStep fr log next) :
    log.append.index.nextSequence ≤ next.append.index.nextSequence := by
  rcases h.index_cases with hi | ⟨_, _, ht⟩
  · rw [hi]
  · exact ht.nextSequence_le

/-- The cursor never regresses. -/
theorem LogStep.acknowledgedSequence_le (h : LogStep fr log next) :
    log.append.index.acknowledgedSequence ≤ next.append.index.acknowledgedSequence := by
  rcases h.index_cases with hi | ⟨_, _, ht⟩
  · rw [hi]
  · exact ht.acknowledgedSequence_le

/-- Replay never starts behind the active generation. -/
theorem Laid.replayPoint_le
    (h : Laid fr log.view log.append.index) :
    log.replayPoint.1 ≤ log.append.generation := by
  unfold replayPoint
  split
  · rename_i r hh
    exact h.prepared_generation_le (mem_of_mem_head? hh)
  · exact le_rfl

/-! ## The system -/

/-- Where the holder of the maintenance lock stands with the log: a rotation has created the next
generation, and a compaction spares the active one. -/
def Maintenance.Sound (log : WalLog) : Maintenance → Prop
  | .rotateSync next | .rotateSyncDirectory next | .rotateSwap next =>
    next = log.append.generation + 1 ∧ next ∈ log.files.map LogFile.generation
  | .removeLogs plan _ | .deferCandidates plan => plan.floorGeneration ≤ log.append.generation
  | _ => True

/-- What the holder relies on does not change when records are appended. -/
theorem Maintenance.Sound.of_append {held : Maintenance}
    (h : held.Sound log) (hg : next.append.generation = log.append.generation)
    (hge : next.files.map LogFile.generation = log.files.map LogFile.generation) :
    held.Sound next := by
  cases held with
  | removeLogs | deferCandidates =>
    unfold Sound
    rwa [hg]
  | checkpointStart | checkpointSync | checkpointSeal | checkpointIndex | writePrevious |
    writeCurrent | mark | reclaimSnapshot | reclaim => trivial
  | _ =>
    unfold Sound
    rwa [hg, hge]

namespace MountWal

/-- The log is laid out, captures are of admitted mutations, and the last checkpoint and the holder
of the maintenance lock agree with the log. -/
structure Consistent (framing : Framing) (wal : MountWal) : Prop where
  laid : Laid framing wal.log.view wal.log.append.index
  admitted : ∀ capture ∈ wal.payloads.captures,
    PayloadStore.preflight capture.mutation true = .ok ()
  held : ∀ held, wal.maintenance = some held → held.Sound wal.log
  last : ∀ checkpoint, wal.log.append.lastCheckpoint = some checkpoint →
    checkpoint.replayLogGeneration ≤ wal.log.append.generation

variable {fr : Framing} {wal next : MountWal}

/-- Every step of the system is a step of the log. -/
theorem Steps.logStep {a : WalAction} (h : wal.Steps fr a next)
    (hw : wal.Consistent fr) : LogStep fr wal.log next.log := by
  cases h with
  | record _ h => exact .append (appendStep_of_records hw.laid.wellFormed h)
  | prepareCapture _ c hc _ hp h =>
    obtain ⟨_, hv, -⟩ := bind_eq_ok.1 (hw.admitted c (mem_of_getElem? hc))
    exact .append (appendStep_of_prepare hv hp h)
  | acknowledge _ _ _ h => exact .append (appendStep_of_acknowledge h)
  | sync _ h => cases h <;> exact .append (.quiet rfl rfl)
  | rotate _ h =>
    obtain ⟨hf, hs, rfl⟩ := rotateCreate_eq_some h
    exact .stage _ hf hs rfl rfl
  | compact _ h =>
    obtain ⟨rfl, -⟩ := compactBegin_eq_some h
    exact .append (.quiet rfl rfl)
  | advance _ hh h =>
    cases h with
    | mark ca _ _ h => cases ca <;> exact .append (appendStep_of_markCheckpoint h)
    | rotateSwap _ h =>
      obtain ⟨-, hn⟩ := hw.held _ hh
      obtain ⟨rfl, rfl⟩ := rotateSwap_eq_true h
      exact .swap hn rfl rfl
    | rotateLost _ h => exact absurd (hw.held _ hh).1.symm (rotateSwap_eq_false h)
    | removeLog _ _ file _ hb => exact .remove file.generation (hb.trans_le (hw.held _ hh)) rfl rfl
    | _ => exact .append (.quiet rfl rfl)
  | _ => exact .append (.quiet rfl rfl)

/-- A section that only appends keeps the state consistent. -/
theorem Consistent.append (h : wal.Consistent fr)
    (hs : AppendStep fr wal.log next.log)
    (hb : next.log.append.books = wal.log.append.books)
    (hc : ∀ ca ∈ next.payloads.captures, PayloadStore.preflight ca.mutation true = .ok ())
    (hh : ∀ held, next.maintenance = some held → held.Sound wal.log) :
    next.Consistent fr := by
  refine ⟨h.laid.appendStep hs, hc, fun held heq => ?_, fun c hl => ?_⟩
  · exact (hh held heq).of_append hs.generation_eq hs.generations_eq
  · rw [hs.generation_eq]
    exact h.last c ((congrArg LogBooks.lastCheckpoint hb).symm.trans hl)

/-- A step of the maintenance lock's holder keeps the state consistent. -/
theorem Consistent.advance {held : Maintenance} (h : wal.Consistent fr)
    (hh : wal.maintenance = some held) (hs : wal.Advances fr held next) :
    next.Consistent fr := by
  have hlo := (Steps.advance held hh hs).logStep h
  have hso := h.held held hh
  have hl := h.laid.logStep hlo
  cases hs with
  | rotateSync | rotateSyncDirectory | keptLogs | removedLogs | removeLog =>
    refine ⟨hl, h.admitted, fun held' hh' => ?_, h.last⟩
    cases hh'
    exact hso
  | reclaimed r =>
    refine ⟨hl, ?_, (fun held' hh' => nomatch hh'), h.last⟩
    intro ca hc
    refine h.admitted ca ?_
    cases r <;> exact hc
  | refused => exact ⟨hl, h.admitted, (fun _ hh' => nomatch hh'), h.last⟩
  | described =>
    refine ⟨hl, h.admitted, fun held' hh' => ?_, fun c hla => ?_⟩
    · cases hh'
      trivial
    · cases hla
      exact h.laid.replayPoint_le
  | mark cal _ _ hm =>
    have hs := appendStep_of_markCheckpoint hm
    have hb := markCheckpoint_books hm
    cases cal <;> exact h.append hs hb h.admitted fun _ hh' => nomatch hh'
  | rotateSwap _ hsw =>
    obtain ⟨rfl, rfl⟩ := rotateSwap_eq_true hsw
    refine ⟨hl, h.admitted, fun held' hh' => ?_, fun c hla => ?_⟩
    · cases hh'
      trivial
    · exact Nat.le_succ_of_le (h.last c hla)
  | rotateLost _ hsw => exact absurd hso.1.symm (rotateSwap_eq_false hsw)
  | deferCandidates =>
    refine ⟨hl, h.admitted, fun held' hh' => ?_, h.last⟩
    unfold splitCandidates at hh'
    simp only at hh'
    split_ifs at hh'
    cases hh'
    trivial
  | _ =>
    refine ⟨hl, h.admitted, fun held' hh' => ?_, h.last⟩
    cases hh'
    trivial

/-- Every step keeps the state consistent. -/
theorem Consistent.steps {a : WalAction} (h : wal.Consistent fr)
    (hs : wal.Steps fr a next) : next.Consistent fr := by
  have hl := h.laid.logStep (hs.logStep h)
  cases hs with
  | capture _ hc => exact ⟨hl, hc.admitted h.admitted, h.held, h.last⟩
  | record _ hr =>
    exact h.append (appendStep_of_records h.laid.wellFormed hr) hr.frame.1 h.admitted h.held
  | prepareCapture _ capture hc _ hpa hp =>
    obtain ⟨_, hv, -⟩ := bind_eq_ok.1 (h.admitted capture (mem_of_getElem? hc))
    exact h.append (appendStep_of_prepare hv hpa hp)
      (prepare_books hp)
      (fun o ho => h.admitted o (mem_of_mem_eraseIdx ho)) h.held
  | acknowledge _ _ _ hac =>
    exact h.append (appendStep_of_acknowledge hac) (acknowledge_books hac) h.admitted h.held
  | sync _ hsy =>
    cases hsy with
    | syncPayload _ _ _ _ hf =>
      unfold PayloadStore.syncFile at hf
      split_ifs at hf
      cases hf
      exact ⟨hl, h.admitted, h.held, h.last⟩
    | _ => exact ⟨hl, h.admitted, h.held, h.last⟩
  | rotate _ hcr =>
    obtain ⟨_, _, rfl⟩ := rotateCreate_eq_some hcr
    refine ⟨hl, h.admitted, fun held hh => ?_, h.last⟩
    cases hh
    refine ⟨rfl, ?_⟩
    simp
  | compact _ hb =>
    obtain ⟨rfl, rfl⟩ := compactBegin_eq_some hb
    refine ⟨hl, h.admitted, fun held hh => ?_, h.last⟩
    cases hh
    show (wal.log.append.lastCheckpoint.map _).getD _ ≤ wal.log.append.generation
    cases hla : wal.log.append.lastCheckpoint with
    | none => exact le_rfl
    | some checkpoint => exact h.last checkpoint hla
  | advance _ hh ha => exact h.advance hh ha
  | checkpoint | acknowledgedCheckpoint | reclaimFile _ _ _ hh =>
    refine ⟨hl, h.admitted, fun held hh => ?_, h.last⟩
    cases hh
    trivial
  | acknowledgeNothing | rotateNothing | compactNothing => exact h
  | release | sealSegment => exact ⟨hl, h.admitted, h.held, h.last⟩
  | _ => exact ⟨hl, h.admitted, (nofun), h.last⟩

end MountWal

end Chevalier.LocalView
