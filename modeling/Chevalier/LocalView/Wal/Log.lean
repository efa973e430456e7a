import Chevalier.Foundations.Fold
import Chevalier.LocalView.Wal.DirtySet
import Chevalier.LocalView.Wal.Index

/-!
# The append lock's critical sections

A log generation is a file of framed records. `WalLog` is what the append lock protects together
with the files it appends to, and every critical section that runs under that lock is a function on
it: appending one record and updating the index in the same step. A section that returns an error
leaves the log as it was. How many bytes a record takes is the parameter `Framing`; a write that
fails half-way is not modelled.

`WalLog.history` is a history variable that no section reads: every record appended so far, with
the place it was written to.
-/

namespace Chevalier.LocalView

/-! ## Files and framing -/

/-- The largest record a log accepts. -/
def maxRecordBytes : Nat := 1024 * 1024

/-- The size at which a log generation is rotated. -/
def logTargetBytes : Nat := 64 * 1024 * 1024

/-- The bytes one record takes in the log, its newline included. -/
structure Framing where
  bytes : WalRecord → Nat
  bytes_pos : ∀ record, 0 < bytes record

/-- One log generation on disk: its complete records, and the bytes of a torn one behind them. -/
structure LogFile where
  generation : Nat
  records : List WalRecord
  torn : Nat
deriving DecidableEq

/-- A record with the place it was written to. -/
structure LogEntry where
  generation : Nat
  offset : Nat
  record : WalRecord
deriving DecidableEq

namespace Framing

variable (framing : Framing)

def length (records : List WalRecord) : Nat := (records.map framing.bytes).sum

/-- The records of a file from a byte offset on, each with its place. -/
def entries (generation : Nat) : Nat → List WalRecord → List LogEntry
  | _, [] => []
  | offset, record :: records =>
    ⟨generation, offset, record⟩ :: entries generation (offset + framing.bytes record) records

end Framing

/-! ## The log under its lock -/

/-- The index the append lock protects, the files it appends to, and everything appended so far. -/
structure WalLog where
  append : AppendState
  files : List LogFile
  history : List LogEntry

def insertPrepared (record : PreparedRecord) : List PreparedRecord → List PreparedRecord
  | [] => [record]
  | head :: rest =>
    if record.sequence < head.sequence then record :: head :: rest
    else if record.sequence = head.sequence then record :: rest
    else head :: insertPrepared record rest

/-- Set the identity a commit reports on the prepare it terminates. -/
def setLocalIdentity (sequence : Nat) (localIdentity : Option String)
    (prepared : List PreparedRecord) : List PreparedRecord :=
  prepared.map fun record =>
    if record.sequence = sequence then
      { record with event := { record.event with localIdentity := localIdentity } }
    else record

def payloadNames (prepared : List PreparedRecord) : Finset String :=
  ((prepared.filterMap fun record => record.event.payload).map
    fun payload => payload.storage.file).toFinset

namespace WalLog

variable (framing fr : Framing) (log : WalLog)

def appended (record : WalRecord) : WalLog where
  append := { log.append with
    generationLen := log.append.generationLen + framing.bytes record
    appendedBytes := log.append.appendedBytes + framing.bytes record }
  files := log.files.map fun file =>
    if file.generation = log.append.generation then
      { file with records := file.records ++ [record] }
    else file
  history := log.history ++ [⟨log.append.generation, log.append.generationLen, record⟩]

/-- Append one record to the active generation. -/
def appendFramed (record : WalRecord) : Except String WalLog :=
  if maxRecordBytes < framing.bytes record then
    .error ("mount WAL record of " ++ toString (framing.bytes record) ++ " bytes exceeds the " ++
      toString maxRecordBytes ++ " byte limit")
  else .ok (log.appended framing record)

/-- The event a prepare appends: it takes the next sequence. -/
def nextEvent (mutation : MountMutation) (payload : Option PayloadRef)
    (preImage : MountPreImage) : MountEvent where
  formatVersion := walFormatVersion
  epoch := log.append.epoch
  sequence := log.append.nextSequence
  idempotencyKey := log.append.epoch ++ ":" ++ toString log.append.nextSequence
  mutation := mutation
  payload := payload
  preImage := preImage
  localIdentity := none

/-- The append section of `prepare`: assign the sequence, append, index. -/
def prepare (mutation : MountMutation) (payload : Option PayloadRef) (preImage : MountPreImage) :
    Except String WalLog := do
  let event := log.nextEvent mutation payload preImage
  let next ← log.appendFramed framing (.prepared event)
  return { next with append := { next.append with
    prepared := insertPrepared ⟨event, log.append.generation, log.append.generationLen⟩
      next.append.prepared
    nextSequence := event.sequence + 1 } }

/-- The stored prepare a terminal call is about. -/
def storedPrepare (event : MountEvent) : Except String PreparedRecord :=
  match log.append.preparedAt event.sequence with
  | none => .error ("unknown prepared mount sequence " ++ toString event.sequence)
  | some stored =>
    if stored.event ≠ event then
      .error ("prepared mount event " ++ toString event.sequence ++
        " does not match the durable record")
    else .ok stored

/-- Make an applied mutation eligible for replay and publication. -/
def commit (event : MountEvent) (localIdentity : Option String) : Except String WalLog := do
  let _ ← log.storedPrepare event
  let sequence := event.sequence
  if sequence ∈ log.append.aborted then
    .error ("mount sequence " ++ toString sequence ++ " is already aborted")
  else if sequence ∈ log.append.committed then return log
  else
    let next ← log.appendFramed framing (.committed log.append.epoch sequence localIdentity)
    return { next with append := { next.append with
      committed := insert sequence next.append.committed
      eventsSinceCheckpoint := next.append.eventsSinceCheckpoint + 1
      pendingPayloadBytes := next.append.pendingPayloadBytes + event.payloadLength
      prepared := setLocalIdentity sequence localIdentity next.append.prepared
      dirtyContent := DirtySet.applyCommittedDirtyEffect next.append.dirtyContent
        event.mutation } }

/-- Terminate a mutation whose local apply failed. -/
def abort (event : MountEvent) (reason : String) : Except String WalLog := do
  let _ ← log.storedPrepare event
  let sequence := event.sequence
  if sequence ∈ log.append.committed then
    .error ("mount sequence " ++ toString sequence ++ " is already committed")
  else if sequence ∈ log.append.aborted then return log
  else
    let next ← log.appendFramed framing (.aborted log.append.epoch sequence reason)
    return { next with append := { next.append with
      aborted := insert sequence next.append.aborted
      eventsSinceCheckpoint := next.append.eventsSinceCheckpoint + 1 } }

/-- What recovery decides about an unresolved prepare. -/
inductive Resolution
  | commit
  | abort
deriving DecidableEq, Repr

def resolveRecovered (sequence : Nat) (resolution : Resolution) : Except String WalLog :=
  match log.append.preparedAt sequence with
  | none => .error ("unknown recovered mount sequence " ++ toString sequence)
  | some record =>
    if log.append.Resolved sequence then
      .error ("recovered mount sequence " ++ toString sequence ++ " is already resolved")
    else
      match resolution with
      | .commit => do
        let next ← log.appendFramed framing (.committed log.append.epoch sequence none)
        return { next with append := { next.append with
          committed := insert sequence next.append.committed
          pendingPayloadBytes := next.append.pendingPayloadBytes + record.event.payloadLength
          dirtyContent := DirtySet.applyCommittedDirtyEffect next.append.dirtyContent
            record.event.mutation
          eventsSinceCheckpoint := next.append.eventsSinceCheckpoint + 1 } }
      | .abort => do
        let next ← log.appendFramed framing (.aborted log.append.epoch sequence
          "recovery proved the mutation was never applied")
        return { next with append := { next.append with
          aborted := insert sequence next.append.aborted
          eventsSinceCheckpoint := next.append.eventsSinceCheckpoint + 1 } }

/-! ## The dirty set -/

/-- Record that a path's content diverged; nothing is appended for a path already dirty. -/
def recordContentDirty (path : MountPath) : Except String WalLog := do
  validateMountPath path
  if path ∈ log.append.dirtyContent then return log
  else
    let next ← log.appendFramed framing (.contentDirty log.append.epoch path)
    return { next with append := { next.append with
      dirtyContent := DirtySet.insertPath path next.append.dirtyContent } }

/-- Clear a path from the dirty set, in memory only. -/
def clearContentDirty (path : MountPath) : WalLog :=
  { log with append := { log.append with
    dirtyContent := DirtySet.removePath log.append.dirtyContent path } }

/-- Retarget dirty entries across a rename, in memory only. -/
def renameContentDirty (oldPath newPath : MountPath) : Except String WalLog := do
  validateMountPath oldPath
  validateMountPath newPath
  return { log with append := { log.append with
    dirtyContent := DirtySet.retargetSubtree log.append.dirtyContent oldPath newPath } }

/-! ## The remote cursor -/

/-- Drop every resolved sequence at or below the cursor; the payload files of the dropped prepares
are returned. -/
def pruneResolved (append : AppendState) (throughSequence : Nat) : AppendState × Finset String :=
  let retain := throughSequence + 1
  let removed := append.prepared.filter fun record => record.sequence < retain
  let released := (removed.filter fun record => record.sequence ∈ append.committed).map
    fun record => record.event.payloadLength
  ({ append with
      committed := append.committed.filter (retain ≤ ·)
      aborted := append.aborted.filter (retain ≤ ·)
      prepared := append.prepared.filter fun record => retain ≤ record.sequence
      pendingPayloadBytes := append.pendingPayloadBytes - released.sum
      firstUnprunedSequence := retain },
    payloadNames removed)

/-- The first sequence after the cursor and up to `throughSequence` without a terminal record. -/
def firstUnresolved (append : AppendState) (throughSequence : Nat) : Option Nat :=
  (List.range' (append.acknowledgedSequence + 1)
    (throughSequence - append.acknowledgedSequence)).find? fun sequence =>
      ¬ append.Resolved sequence

/-- The append section of `acknowledge`; `none` when there is nothing to advance. -/
def acknowledge (throughSequence remoteRevision : Nat) :
    Except String (Option (WalLog × Finset String)) := do
  if throughSequence < log.append.acknowledgedSequence then
    .error ("mount acknowledgement regressed from " ++ toString log.append.acknowledgedSequence ++
      " to " ++ toString throughSequence)
  else if remoteRevision < log.append.remoteRevision then
    .error ("mount remote revision regressed from " ++ toString log.append.remoteRevision ++
      " to " ++ toString remoteRevision)
  else if throughSequence = log.append.acknowledgedSequence ∧
      remoteRevision = log.append.remoteRevision then return none
  else
    match firstUnresolved log.append throughSequence with
    | some sequence =>
      .error ("cannot acknowledge unresolved mount sequence " ++ toString sequence)
    | none =>
      let next ← log.appendFramed framing
        (.remoteAcknowledged log.append.epoch throughSequence remoteRevision)
      let (append, names) := pruneResolved { next.append with
        acknowledgedSequence := throughSequence
        remoteRevision := remoteRevision } throughSequence
      return some ({ next with append := append }, names)

/-- Record the payload files an acknowledgement released, once its checkpoint is written. -/
def releaseCandidates (names : Finset String) : WalLog :=
  { log with append := { log.append with
    reclaimCandidates := log.append.reclaimCandidates ∪ names
    compactionPending := true } }

/-! ## Checkpoints, rotation and compaction -/

/-- Where replay would start now: the oldest retained prepare, or the end of the log. -/
def replayPoint : Nat × Nat :=
  match log.append.prepared.head? with
  | some record => (record.generation, record.offset)
  | none => (log.append.generation, log.append.generationLen)

/-- The checkpoint that describes the index as it stands. -/
def checkpointNow (treeGeneration : Nat) : MountCheckpoint where
  formatVersion := walFormatVersion
  epoch := log.append.epoch
  checkpointId := log.append.checkpointId + 1
  acknowledgedSequence := log.append.acknowledgedSequence
  remoteRevision := log.append.remoteRevision
  treeGeneration := treeGeneration
  firstUnprunedSequence := max log.append.firstUnprunedSequence 1
  replayLogGeneration := log.replayPoint.1
  replayLogOffset := log.replayPoint.2
  activeLogGenerations :=
    insert log.replayPoint.1 (insert log.append.generation
      (log.append.activeGenerations.filter (log.replayPoint.1 ≤ ·)))
  activeSegments := payloadNames log.append.prepared
  dirtyContentPaths := log.append.dirtyContent

/-- The append section of a checkpoint: describe the index, make the files the last checkpoint
stopped naming candidates, and install the description as the last checkpoint. The file is written
later. -/
def checkpointIndex (treeGeneration : Nat) :
    WalLog × Except String (MountCheckpoint × Option MountCheckpoint) :=
  let checkpoint := log.checkpointNow treeGeneration
  let numbered := { log.append with
    treeGeneration := treeGeneration
    checkpointId := log.append.checkpointId + 1 }
  match checkpoint.validate with
  | .error message => ({ log with append := numbered }, .error message)
  | .ok () =>
    let stale := (log.append.lastCheckpoint.map fun previous =>
      previous.activeSegments \ checkpoint.activeSegments).getD ∅
    ({ log with append := { numbered with
        reclaimCandidates := log.append.reclaimCandidates ∪ stale
        activeGenerations := checkpoint.activeLogGenerations
        eventsSinceCheckpoint := 0
        lastCheckpoint := some checkpoint } },
      .ok (checkpoint, log.append.lastCheckpoint))

/-- The record appended once the checkpoint file is written. -/
def markCheckpoint (checkpoint : MountCheckpoint) (treeGeneration : Nat) : Except String WalLog :=
  log.appendFramed framing
    (.checkpointed log.append.epoch checkpoint.acknowledgedSequence treeGeneration)

def header (generation firstSequence : Nat) : WalRecord :=
  .logHeader walFormatVersion log.append.epoch generation firstSequence

/-- Create the file of the next generation, with its header; `none` below the rotation threshold. -/
def rotateCreate : Except String (Option WalLog) :=
  let next := log.append.generation + 1
  let record := log.header next log.append.nextSequence
  if log.append.generationLen < logTargetBytes then .ok none
  else if next ∈ log.files.map LogFile.generation then
    .error ("create mount WAL generation " ++ toString next)
  else if maxRecordBytes < framing.bytes record then
    .error ("mount WAL record of " ++ toString (framing.bytes record) ++ " bytes exceeds the " ++
      toString maxRecordBytes ++ " byte limit")
  else .ok (some { log with files := log.files ++ [⟨next, [record], 0⟩] })

/-- Make the created generation `next` the active one; `false` when another rotation got there
first, and then the created file is removed. -/
def rotateSwap (next : Nat) : WalLog × Bool :=
  if log.append.generation + 1 ≠ next then
    ({ log with files := log.files.filter (·.generation ≠ next) }, false)
  else
    let records := (log.files.filter (·.generation = next)).flatMap LogFile.records
    ({ log with
        append := { log.append with
          pendingSync := log.append.pendingSync ++ [log.append.generation]
          generation := next
          generationLen := framing.length records
          activeGenerations := insert next log.append.activeGenerations
          compactionPending := true }
        history := log.history ++ framing.entries next 0 records },
      true)

/-- What a compaction pass read under the append lock. -/
structure CompactionPlan where
  floorGeneration : Nat
  candidates : Finset String
  referenced : Finset String
  protectedNames : Finset String
deriving DecidableEq

/-- The append section of `compact`; `none` when nothing became unreachable. -/
def compactBegin : Option (WalLog × CompactionPlan) :=
  if log.append.compactionPending = false ∧ log.append.reclaimCandidates = ∅ then none
  else some (
    { log with append := { log.append with
      compactionPending := false
      reclaimCandidates := ∅ } },
    { floorGeneration :=
        (log.append.lastCheckpoint.map MountCheckpoint.replayLogGeneration).getD
          log.append.generation
      candidates := log.append.reclaimCandidates
      referenced := payloadNames log.append.prepared
      protectedNames := (log.append.lastCheckpoint.map MountCheckpoint.activeSegments).getD ∅ })

def removeGeneration (generation : Nat) : WalLog :=
  { log with files := log.files.filter (·.generation ≠ generation) }

/-- Forget the deleted generations. -/
def retainGenerations (floorGeneration : Nat) : WalLog :=
  { log with append := { log.append with
    activeGenerations := log.append.activeGenerations.filter (floorGeneration ≤ ·) } }

/-- Put candidates that are still referenced or protected back. -/
def deferCandidates (names : Finset String) : WalLog :=
  { log with append := { log.append with
    reclaimCandidates := log.append.reclaimCandidates ∪ names } }

/-! ## What a section that succeeds has done -/

open Fold

variable {fr : Framing} {log next : WalLog}

theorem appendFramed_eq_ok {r : WalRecord} : log.appendFramed fr r = .ok next ↔
    fr.bytes r ≤ maxRecordBytes ∧ next = log.appended fr r := by
  unfold appendFramed
  split_ifs with h
  · simp [Nat.not_le.2 h]
  · simp [Nat.not_lt.1 h, eq_comm]

/-- A section that ends with an append and an update of the log. -/
theorem appendFramed_bind_eq_ok {α : Type} {r : WalRecord} {u : WalLog → α} {re : α}
    (h : (do return u (← log.appendFramed fr r)) = Except.ok re) :
    fr.bytes r ≤ maxRecordBytes ∧ re = u (log.appended fr r) := by
  obtain ⟨_, hm, h⟩ := bind_eq_ok.1 h
  obtain ⟨hs, rfl⟩ := appendFramed_eq_ok.1 hm
  exact ⟨hs, (pure_eq_ok.1 h).symm⟩

theorem prepare_eq_ok {m : MountMutation} {p : Option PayloadRef}
    {pi : MountPreImage} : log.prepare fr m p pi = .ok next ↔
      fr.bytes (.prepared (log.nextEvent m p pi)) ≤ maxRecordBytes ∧
      next = { log.appended fr (.prepared (log.nextEvent m p pi)) with
        append := { (log.appended fr
            (.prepared (log.nextEvent m p pi))).append with
          prepared := insertPrepared ⟨log.nextEvent m p pi,
            log.append.generation, log.append.generationLen⟩ log.append.prepared
          nextSequence := log.append.nextSequence + 1 } } := by
  simp only [prepare, bind_eq_ok, appendFramed_eq_ok, pure_eq_ok]
  constructor
  · rintro ⟨_, ⟨hs, rfl⟩, rfl⟩
    exact ⟨hs, rfl⟩
  · rintro ⟨hs, rfl⟩
    exact ⟨_, ⟨hs, rfl⟩, rfl⟩

theorem storedPrepare_eq_ok {e : MountEvent} {s : PreparedRecord} :
    log.storedPrepare e = .ok s ↔ log.append.preparedAt e.sequence = some s ∧ s.event = e := by
  unfold storedPrepare
  cases h : log.append.preparedAt e.sequence with
  | none => simp
  | some f =>
    by_cases heq : f.event = e
    · simp only [ne_eq, heq, not_true_eq_false, if_false, Except.ok.injEq, Option.some.injEq]
      exact ⟨fun hf => ⟨hf, hf ▸ heq⟩, fun hf => hf.1⟩
    · simp only [ne_eq, heq, not_false_eq_true, if_true, reduceCtorEq, Option.some.injEq, false_iff]
      rintro ⟨rfl, he⟩
      exact heq he

/-- A commit that succeeds was made before, or appends its record to an unresolved prepare. -/
theorem commit_cases {e : MountEvent} {i : Option String}
    (h : log.commit fr e i = .ok next) :
    next = log ∨ ∃ s, log.append.preparedAt e.sequence = some s ∧
      s.event = e ∧ ¬ log.append.Resolved e.sequence ∧
      fr.bytes (.committed log.append.epoch e.sequence i) ≤ maxRecordBytes ∧
      next = { log.appended fr (.committed log.append.epoch e.sequence i) with
        append := { (log.appended fr
            (.committed log.append.epoch e.sequence i)).append with
          committed := insert e.sequence log.append.committed
          eventsSinceCheckpoint := log.append.eventsSinceCheckpoint + 1
          pendingPayloadBytes := log.append.pendingPayloadBytes + e.payloadLength
          prepared := setLocalIdentity e.sequence i log.append.prepared
          dirtyContent := DirtySet.applyCommittedDirtyEffect log.append.dirtyContent
            e.mutation } } := by
  simp only [commit, bind_eq_ok, storedPrepare_eq_ok] at h
  obtain ⟨s, ⟨hs, he⟩, h⟩ := h
  split_ifs at h with ha hc
  · exact .inl (pure_eq_ok.1 h).symm
  · exact .inr ⟨s, hs, he, fun hr => hr.elim hc ha, appendFramed_bind_eq_ok h⟩

/-- An abort that succeeds was made before, or appends its record to an unresolved prepare. -/
theorem abort_cases {e : MountEvent} {r : String}
    (h : log.abort fr e r = .ok next) :
    next = log ∨ ∃ s, log.append.preparedAt e.sequence = some s ∧
      ¬ log.append.Resolved e.sequence ∧
      fr.bytes (.aborted log.append.epoch e.sequence r) ≤ maxRecordBytes ∧
      next = { log.appended fr (.aborted log.append.epoch e.sequence r) with
        append := { (log.appended fr
            (.aborted log.append.epoch e.sequence r)).append with
          aborted := insert e.sequence log.append.aborted
          eventsSinceCheckpoint := log.append.eventsSinceCheckpoint + 1 } } := by
  simp only [abort, bind_eq_ok, storedPrepare_eq_ok] at h
  obtain ⟨s, ⟨hs, _⟩, h⟩ := h
  split_ifs at h with hc ha
  · exact .inl (pure_eq_ok.1 h).symm
  · exact .inr ⟨s, hs, fun hr => hr.elim hc ha, appendFramed_bind_eq_ok h⟩

/-- A recovered resolution that succeeds appends the terminal record of an unresolved prepare. -/
theorem resolveRecovered_cases {s : Nat} {r : Resolution}
    (h : log.resolveRecovered fr s r = .ok next) :
    ∃ st, log.append.preparedAt s = some st ∧ ¬ log.append.Resolved s ∧
      ((r = .commit ∧
        fr.bytes (.committed log.append.epoch s none) ≤ maxRecordBytes ∧
        next = { log.appended fr (.committed log.append.epoch s none) with
          append := { (log.appended fr
              (.committed log.append.epoch s none)).append with
            committed := insert s log.append.committed
            pendingPayloadBytes := log.append.pendingPayloadBytes + st.event.payloadLength
            dirtyContent := DirtySet.applyCommittedDirtyEffect log.append.dirtyContent
              st.event.mutation
            eventsSinceCheckpoint := log.append.eventsSinceCheckpoint + 1 } }) ∨
      (r = .abort ∧
        fr.bytes (.aborted log.append.epoch s
          "recovery proved the mutation was never applied") ≤ maxRecordBytes ∧
        next = { log.appended fr (.aborted log.append.epoch s
            "recovery proved the mutation was never applied") with
          append := { (log.appended fr (.aborted log.append.epoch s
              "recovery proved the mutation was never applied")).append with
            aborted := insert s log.append.aborted
            eventsSinceCheckpoint := log.append.eventsSinceCheckpoint + 1 } })) := by
  unfold resolveRecovered at h
  cases hst : log.append.preparedAt s with
  | none => rw [hst] at h; cases h
  | some st =>
    simp only [hst] at h
    split_ifs at h with hr
    refine ⟨st, rfl, hr, ?_⟩
    cases r with
    | commit => exact .inl ⟨rfl, appendFramed_bind_eq_ok h⟩
    | abort => exact .inr ⟨rfl, appendFramed_bind_eq_ok h⟩

theorem recordContentDirty_cases {path : MountPath}
    (h : log.recordContentDirty fr path = .ok next) :
    validateMountPath path = .ok () ∧ (next = log ∨ path ∉ log.append.dirtyContent ∧
      fr.bytes (.contentDirty log.append.epoch path) ≤ maxRecordBytes ∧
      next = { log.appended fr (.contentDirty log.append.epoch path) with
        append := { (log.appended fr (.contentDirty log.append.epoch path)).append with
          dirtyContent := DirtySet.insertPath path log.append.dirtyContent } }) := by
  obtain ⟨_, hv, h⟩ := bind_eq_ok.1 h
  refine ⟨hv, ?_⟩
  split_ifs at h with hmem
  · exact .inl (pure_eq_ok.1 h).symm
  · exact .inr ⟨hmem, appendFramed_bind_eq_ok h⟩

theorem renameContentDirty_eq_ok {op np : MountPath}
    (h : log.renameContentDirty op np = .ok next) :
      validateMountPath op = .ok () ∧ validateMountPath np = .ok () ∧
      next = { log with append := { log.append with
        dirtyContent := DirtySet.retargetSubtree log.append.dirtyContent op np } } := by
  obtain ⟨_, hold, h⟩ := bind_eq_ok.1 h
  obtain ⟨_, hn, h⟩ := bind_eq_ok.1 h
  exact ⟨hold, hn, (pure_eq_ok.1 h).symm⟩

theorem firstUnresolved_eq_none {a : AppendState} {ts : Nat} :
    firstUnresolved a ts = none ↔ ∀ s, a.acknowledgedSequence < s → s ≤ ts → a.Resolved s := by
  simp only [firstUnresolved, List.find?_eq_none, List.mem_range'_1, decide_not, Bool.not_eq_eq_eq_not,
    Bool.not_true, Bool.not_eq_false, decide_eq_true_eq]
  exact ⟨fun h s hlt hle => h s (by omega), fun h s hmem =>
    h s (by omega) (by omega)⟩

/-- An acknowledgement that advances appends its record and prunes the index. -/
theorem acknowledge_eq_some {ts remoteRevision : Nat} {n : Finset String}
    (h : log.acknowledge fr ts remoteRevision = .ok (some (next, n))) :
    log.append.acknowledgedSequence ≤ ts ∧
      log.append.remoteRevision ≤ remoteRevision ∧
      (∀ s, log.append.acknowledgedSequence < s → s ≤ ts → log.append.Resolved s) ∧
      fr.bytes (.remoteAcknowledged log.append.epoch ts remoteRevision) ≤ maxRecordBytes ∧
      (next, n) =
        let advanced := log.appended fr (.remoteAcknowledged log.append.epoch ts remoteRevision)
        let p := pruneResolved { advanced.append with
          acknowledgedSequence := ts
          remoteRevision := remoteRevision } ts
        ({ advanced with append := p.1 }, p.2) := by
  unfold acknowledge at h
  split_ifs at h with hr hre hsa
  · cases h
  · cases hf : firstUnresolved log.append ts with
    | some => simp only [hf, reduceCtorEq] at h
    | none =>
      simp only [hf] at h
      obtain ⟨hs, heq⟩ := appendFramed_bind_eq_ok h
      exact ⟨Nat.not_lt.1 hr, Nat.not_lt.1 hre, firstUnresolved_eq_none.1 hf, hs,
        Option.some.inj heq⟩

theorem rotateCreate_eq_some (h : log.rotateCreate fr = .ok (some next)) :
    let header := log.header (log.append.generation + 1) log.append.nextSequence
    log.append.generation + 1 ∉ log.files.map LogFile.generation ∧
      fr.bytes header ≤ maxRecordBytes ∧
      next = { log with files := log.files ++ [⟨log.append.generation + 1, [header], 0⟩] } := by
  simp only [rotateCreate] at h
  split_ifs at h with hs he hb
  · cases h
  · simp only [Except.ok.injEq, Option.some.injEq] at h
    exact ⟨he, Nat.not_lt.1 hb, h.symm⟩

/-- The append section of a checkpoint leaves the log's index and files as they are. -/
theorem compactBegin_eq_some {plan : CompactionPlan} (h : log.compactBegin = some (next, plan)) :
    next = { log with append := { log.append with
        compactionPending := false
        reclaimCandidates := ∅ } } ∧
      plan = {
        floorGeneration :=
          (log.append.lastCheckpoint.map MountCheckpoint.replayLogGeneration).getD
            log.append.generation
        candidates := log.append.reclaimCandidates
        referenced := payloadNames log.append.prepared
        protectedNames :=
          (log.append.lastCheckpoint.map MountCheckpoint.activeSegments).getD ∅ } := by
  unfold compactBegin at h
  split_ifs at h
  obtain ⟨rfl, rfl⟩ := Prod.mk.inj (Option.some.inj h)
  exact ⟨rfl, rfl⟩

theorem checkpointIndex_cases (log : WalLog) (treeGeneration : Nat) :
    (∃ m, log.checkpointIndex treeGeneration =
      ({ log with append := { log.append with
        treeGeneration := treeGeneration
        checkpointId := log.append.checkpointId + 1 } }, .error m)) ∨
    ((log.checkpointNow treeGeneration).validate = .ok () ∧
      ∃ c, log.append.reclaimCandidates ⊆ c ∧
        c ⊆ log.append.reclaimCandidates ∪
          (log.append.lastCheckpoint.map MountCheckpoint.activeSegments).getD ∅ \
            payloadNames log.append.prepared ∧
        log.checkpointIndex treeGeneration =
          ({ log with append := { log.append with
            treeGeneration := treeGeneration
            checkpointId := log.append.checkpointId + 1
            reclaimCandidates := c
            activeGenerations := (log.checkpointNow treeGeneration).activeLogGenerations
            eventsSinceCheckpoint := 0
            lastCheckpoint := some (log.checkpointNow treeGeneration) } },
          .ok (log.checkpointNow treeGeneration, log.append.lastCheckpoint))) := by
  cases hv : (log.checkpointNow treeGeneration).validate with
  | error m => exact .inl ⟨m, by simp only [checkpointIndex, hv]⟩
  | ok _ =>
    refine .inr ⟨rfl, _, Finset.subset_union_left, ?_, by simp only [checkpointIndex, hv]; rfl⟩
    cases log.append.lastCheckpoint with
    | none => simp
    | some => exact subset_rfl

end WalLog

end Chevalier.LocalView
