import Chevalier.LocalView.Wal.Log

/-!
# Opening a log

What `MountWal::open` does before it publishes its own checkpoint: read the checkpoint, choose the
generations to replay, scan their records from the replay point, cut a torn tail off the last
generation, check the scan and build the index from it.

A state directory is `StateDir`. A checkpoint file is written with an atomic rename, so it is absent
or complete; `none` stands for an absent or unreadable one.
-/

namespace Chevalier.LocalView

/-- The durable files of a mount: log generations in ascending order, the two checkpoint files, and
the names in the payload directory. -/
structure StateDir where
  files : List LogFile
  checkpoint : Option MountCheckpoint
  previousCheckpoint : Option MountCheckpoint
  payloadFiles : Finset String

/-! ## Scanning -/

/-- What a scan has collected so far. -/
structure ScanState where
  epoch : Option String
  prepared : List PreparedRecord
  committed : Finset Nat
  aborted : Finset Nat
  acknowledgedSequence : Nat
  remoteRevision : Nat
  dirtyContent : DirtySet
  firstUnprunedSequence : Nat
deriving DecidableEq

namespace ScanState

variable (scan : ScanState)

/-- Every record carries the epoch of the first one. -/
def observeEpoch (epoch : String) : Except String ScanState :=
  match scan.epoch with
  | none => .ok { scan with epoch := some epoch }
  | some current =>
    if current ≠ epoch then .error "mount WAL contains multiple ownership epochs" else .ok scan

def preparedAt (sequence : Nat) : Option PreparedRecord :=
  scan.prepared.find? fun record => record.sequence = sequence

/-- Collect a prepare. -/
def scanPrepared (event : MountEvent) (generation offset : Nat) : Except String ScanState := do
  if readableWalFormat event.formatVersion = false then
    .error ("unsupported mount WAL event format " ++ toString event.formatVersion)
  else
    event.mutation.validate
    event.mutation.validatePayload event.payload
    let scan ← scan.observeEpoch event.epoch
    if event.sequence < scan.firstUnprunedSequence then return scan
    else if (scan.preparedAt event.sequence).isSome then
      .error ("duplicate mount WAL prepare for sequence " ++ toString event.sequence)
    else return { scan with prepared := insertPrepared ⟨event, generation, offset⟩ scan.prepared }

/-- Collect a commit, with its effect on the dirty set if its prepare was collected. -/
def scanCommitted (epoch : String) (sequence : Nat) (localIdentity : Option String) :
    Except String ScanState := do
  let scan ← scan.observeEpoch epoch
  if sequence < scan.firstUnprunedSequence then return scan
  else if sequence ∈ scan.aborted then
    .error ("mount WAL commits already aborted sequence " ++ toString sequence)
  else if sequence ∈ scan.committed then
    .error ("duplicate mount WAL commit for sequence " ++ toString sequence)
  else
    let scan := { scan with committed := insert sequence scan.committed }
    match scan.preparedAt sequence with
    | none => return scan
    | some record =>
      return { scan with
        prepared := setLocalIdentity sequence localIdentity scan.prepared
        dirtyContent := DirtySet.applyCommittedDirtyEffect scan.dirtyContent
          record.event.mutation }

/-- Collect an abort. -/
def scanAborted (epoch : String) (sequence : Nat) : Except String ScanState := do
  let scan ← scan.observeEpoch epoch
  if sequence < scan.firstUnprunedSequence then return scan
  else if sequence ∈ scan.committed then
    .error ("mount WAL aborts already committed sequence " ++ toString sequence)
  else if sequence ∈ scan.aborted then
    .error ("duplicate mount WAL abort for sequence " ++ toString sequence)
  else return { scan with aborted := insert sequence scan.aborted }

/-- Collect one record. -/
def applyScannedRecord (record : WalRecord) (generation offset : Nat) : Except String ScanState :=
  match record with
  | .logHeader formatVersion epoch recorded _ => do
    if readableWalFormat formatVersion = false then
      .error ("unsupported mount WAL header format " ++ toString formatVersion)
    else
      let scan ← scan.observeEpoch epoch
      if recorded ≠ generation then
        .error ("mount WAL generation " ++ toString generation ++
          " carries a header for generation " ++ toString recorded)
      else return scan
  | .prepared event => scan.scanPrepared event generation offset
  | .committed epoch sequence localIdentity => scan.scanCommitted epoch sequence localIdentity
  | .aborted epoch sequence _ => scan.scanAborted epoch sequence
  | .contentDirty epoch path => do
    let scan ← scan.observeEpoch epoch
    validateMountPath path
    return { scan with dirtyContent := DirtySet.insertPath path scan.dirtyContent }
  | .remoteAcknowledged epoch throughSequence remoteRevision => do
    let scan ← scan.observeEpoch epoch
    if throughSequence < scan.acknowledgedSequence ∨ remoteRevision < scan.remoteRevision then
      .error "mount WAL acknowledgement regressed"
    else return { scan with
      acknowledgedSequence := throughSequence
      remoteRevision := remoteRevision }
  | .checkpointed epoch _ _ => scan.observeEpoch epoch

/-- Collect the record of an entry, unless it is too long. -/
def scanEntry (framing : Framing) (entry : LogEntry) : Except String ScanState :=
  if maxRecordBytes < framing.bytes entry.record then
    .error ("mount WAL record at byte " ++ toString entry.offset ++ " exceeds " ++
      toString maxRecordBytes ++ " bytes")
  else scan.applyScannedRecord entry.record entry.generation entry.offset

/-- Collect entries in order. -/
def scanEntries (framing : Framing) (entries : List LogEntry) : Except String ScanState :=
  entries.foldlM (fun scan entry => scan.scanEntry framing entry) scan

/-- Scan one generation from a byte offset. The second component is the end of the last complete
record; bytes behind it are torn. -/
def scanGeneration (framing : Framing) (file : LogFile) (startOffset : Nat) :
    Except String (ScanState × Nat) :=
  let complete := framing.length file.records
  let entries := (framing.entries file.generation 0 file.records).filter (startOffset ≤ ·.offset)
  if complete + file.torn < startOffset then
    .error ("mount checkpoint replay offset " ++ toString startOffset ++
      " is past the end of generation " ++ toString file.generation)
  -- from inside the torn tail on, no record is complete
  else if complete < startOffset then .ok (scan, startOffset)
  -- from inside a record on, the first line does not decode
  else if startOffset ≠ complete ∧ startOffset ∉ entries.map LogEntry.offset then
    .error ("decode mount WAL generation " ++ toString file.generation ++ " at byte " ++
      toString startOffset)
  else do
    let scan ← scan.scanEntries framing entries
    return (scan, complete)

/-- The sequence has a collected terminal record. -/
def Resolved (sequence : Nat) : Prop := sequence ∈ scan.committed ∨ sequence ∈ scan.aborted

instance (sequence : Nat) : Decidable (scan.Resolved sequence) :=
  inferInstanceAs (Decidable (_ ∨ _))

def firstWithoutPrepare (sequences : Finset Nat) : Option Nat :=
  (List.range (sequences.sup id + 1)).find? fun sequence =>
    sequence ∈ sequences ∧ scan.preparedAt sequence = none

/-- The first sequence from the pruning point up to the cursor without a terminal record. -/
def firstUnresolved : Option Nat :=
  let first := max scan.firstUnprunedSequence 1
  (List.range' first (scan.acknowledgedSequence + 1 - first)).find? fun sequence =>
    ¬ scan.Resolved sequence

/-- Every terminal record has its prepare, and every acknowledged sequence that was not pruned is
resolved. -/
def validate : Except String Unit :=
  match (scan.firstWithoutPrepare scan.committed).orElse
      fun _ => scan.firstWithoutPrepare scan.aborted with
  | some sequence =>
    .error ("mount WAL terminal record has no prepare for sequence " ++ toString sequence)
  | none =>
    match scan.firstUnresolved with
    | some sequence =>
      .error ("mount WAL acknowledged unresolved sequence " ++ toString sequence)
    | none => .ok ()

/-- The cursor a checkpoint and the log agree on: the further one. -/
def reconcileCursor (checkpoint : Option MountCheckpoint) : ScanState :=
  match checkpoint with
  | none => scan
  | some checkpoint =>
    if scan.acknowledgedSequence < checkpoint.acknowledgedSequence then
      { scan with
        acknowledgedSequence := checkpoint.acknowledgedSequence
        remoteRevision := checkpoint.remoteRevision }
    else if checkpoint.acknowledgedSequence = scan.acknowledgedSequence then
      { scan with remoteRevision := max scan.remoteRevision checkpoint.remoteRevision }
    else scan

/-- Keep what the cursor does not cover. -/
def pruneAcknowledged : ScanState :=
  let retain := scan.acknowledgedSequence + 1
  if scan.firstUnprunedSequence < retain then
    { scan with
      prepared := scan.prepared.filter fun record => retain ≤ record.sequence
      committed := scan.committed.filter (retain ≤ ·)
      aborted := scan.aborted.filter (retain ≤ ·)
      firstUnprunedSequence := retain }
  else scan

end ScanState

/-! ## Choosing what to replay -/

/-- The current checkpoint, or else the previous one; a checkpoint must validate. -/
def loadCheckpoint (dir : StateDir) : Except String (Option MountCheckpoint) :=
  match dir.checkpoint.orElse fun _ => dir.previousCheckpoint with
  | none => .ok none
  | some checkpoint => do
    checkpoint.validate
    return some checkpoint

/-- The generations a checkpoint declares from its replay point on. -/
def MountCheckpoint.declared (checkpoint : MountCheckpoint) : Finset Nat :=
  checkpoint.activeLogGenerations.filter (checkpoint.replayLogGeneration ≤ ·)

/-- The generations replay must open, ascending: the declared ones, which must exist, and those
created after the checkpoint. -/
def replayPlan (checkpoint : Option MountCheckpoint) (files : List LogFile) :
    Except String (List LogFile) :=
  match checkpoint with
  | none => .ok files
  | some checkpoint =>
    let highest :=
      if checkpoint.declared = ∅ then checkpoint.replayLogGeneration
      else checkpoint.declared.sup id
    let missing := (List.range (highest + 1)).find? fun generation =>
      generation ∈ checkpoint.declared ∧ generation ∉ files.map LogFile.generation
    match missing with
    | some generation =>
      .error ("mount WAL generation " ++ toString generation ++
        " named by the checkpoint is missing")
    | none =>
      .ok (files.filter fun file =>
        file.generation ∈ checkpoint.declared ∨ highest < file.generation)

/-- Scan the planned generations in order. A torn record is tolerated, and cut off, only in the
last one. -/
def scanPlan (framing : Framing) (replayGeneration replayOffset : Nat) :
    List LogFile → ScanState → Except String (ScanState × List LogFile)
  | [], scan => .ok (scan, [])
  | file :: rest, scan => do
    let startOffset := if file.generation = replayGeneration then replayOffset else 0
    let (scan, complete) ← scan.scanGeneration framing file startOffset
    if complete < framing.length file.records + file.torn then
      if rest ≠ [] then
        .error ("mount WAL generation " ++ toString file.generation ++
          " has a torn record at byte " ++ toString complete ++ " but is not the final generation")
      else return (scan, [{ file with torn := complete - framing.length file.records }])
    else
      let (scan, files) ← scanPlan framing replayGeneration replayOffset rest scan
      return (scan, file :: files)

/-- The ownership epoch the log, the checkpoint and the caller agree on; `minted` is a fresh one. -/
def reconcileEpoch (scanned : Option String) (checkpoint : Option MountCheckpoint)
    (expected : Option String) (minted : String) : Except String String := do
  let durable ←
    match scanned, checkpoint with
    | some scanned, some checkpoint =>
      if scanned ≠ checkpoint.epoch then
        .error ("mount WAL epoch " ++ scanned ++ " does not match checkpoint epoch " ++
          checkpoint.epoch)
      else .ok (some scanned)
    | some scanned, none => .ok (some scanned)
    | none, some checkpoint => .ok (some checkpoint.epoch)
    | none, none => .ok none
  match durable, expected with
  | some durable, some expected =>
    if durable ≠ expected then
      .error ("mount state directory carries epoch " ++ durable ++ " but the caller holds " ++
        expected)
    else return durable
  | some durable, none => return durable
  | none, some expected => return if expected ≠ "" then expected else minted
  | none, none => return minted

/-! ## Building the index -/

/-- The scan a checkpoint starts: its dirty paths, and the sequence it pruned to. -/
def seedScan (checkpoint : Option MountCheckpoint) : Except String ScanState := do
  let paths := (checkpoint.map MountCheckpoint.dirtyContentPaths).getD []
  for path in paths do
    validateMountPath path
  return {
    epoch := none
    prepared := []
    committed := ∅
    aborted := ∅
    acknowledgedSequence := 0
    remoteRevision := 0
    dirtyContent := paths.foldl (fun dirty path => DirtySet.insertPath path dirty) []
    firstUnprunedSequence :=
      (checkpoint.map fun checkpoint => max checkpoint.firstUnprunedSequence 1).getD 1 }

/-- The index a finished scan leaves, on an active generation of a given length. -/
def indexOf (checkpoint : Option MountCheckpoint) (scan : ScanState) (epoch : String)
    (generation generationLen : Nat) (activeGenerations : Finset Nat)
    (payloadFiles : Finset String) : AppendState :=
  let candidates := payloadFiles \ payloadNames scan.prepared
  let last := (scan.prepared.getLast?.map PreparedRecord.sequence).getD scan.acknowledgedSequence
  { epoch := epoch
    pendingSync := []
    generation := generation
    generationLen := generationLen
    appendedBytes := 0
    nextSequence := max last scan.acknowledgedSequence + 1
    prepared := scan.prepared
    committed := scan.committed
    aborted := scan.aborted
    acknowledgedSequence := scan.acknowledgedSequence
    remoteRevision := scan.remoteRevision
    firstUnprunedSequence := max scan.firstUnprunedSequence 1
    treeGeneration := (checkpoint.map MountCheckpoint.treeGeneration).getD 0
    checkpointId := (checkpoint.map MountCheckpoint.checkpointId).getD 0
    activeGenerations := insert generation activeGenerations
    dirtyContent := scan.dirtyContent
    pendingPayloadBytes := ((scan.prepared.filter fun record =>
      record.sequence ∈ scan.committed).map fun record => record.event.payloadLength).sum
    eventsSinceCheckpoint := 0
    lastCheckpoint := checkpoint
    reclaimCandidates := candidates
    compactionPending := decide (candidates ≠ ∅) }

/-- The scan `open` builds its index from, and the planned generations after the torn tail was
cut. -/
def openScan (framing : Framing) (dir : StateDir) (checkpoint : Option MountCheckpoint) :
    Except String (ScanState × List LogFile) := do
  let seed ← seedScan checkpoint
  let plan ← replayPlan checkpoint dir.files
  let replayGeneration := (checkpoint.map MountCheckpoint.replayLogGeneration).getD
    ((plan.head?.map LogFile.generation).getD 0)
  let replayOffset := (checkpoint.map MountCheckpoint.replayLogOffset).getD 0
  scanPlan framing replayGeneration replayOffset plan seed

/-- Open a log up to the checkpoint `open` publishes at its end. -/
def openLog (framing : Framing) (dir : StateDir) (expectedEpoch : Option String)
    (minted : String) : Except String WalLog := do
  let checkpoint ← loadCheckpoint dir
  let (scan, plan) ← openScan framing dir checkpoint
  let epoch ← reconcileEpoch scan.epoch checkpoint expectedEpoch minted
  let scan := scan.reconcileCursor checkpoint
  scan.validate
  let scan := scan.pruneAcknowledged
  let generations := (plan.map LogFile.generation).toFinset
  match plan.getLast? with
  | some active =>
    -- the active generation is the last one planned; only its torn tail changed on disk
    let files := dir.files.map fun file =>
      if file.generation = active.generation then active else file
    return {
      append := indexOf checkpoint scan epoch active.generation
        (framing.length active.records + active.torn) generations dir.payloadFiles
      files := files
      history := files.flatMap fun file => framing.entries file.generation 0 file.records }
  | none =>
    let append := indexOf checkpoint scan epoch 0 0 generations dir.payloadFiles
    let header : WalRecord := .logHeader walFormatVersion epoch 0 append.nextSequence
    if maxRecordBytes < framing.bytes header then
      .error ("mount WAL record of " ++ toString (framing.bytes header) ++ " bytes exceeds the " ++
        toString maxRecordBytes ++ " byte limit")
    else return {
      append := { append with generationLen := framing.bytes header }
      files := ⟨0, [header], 0⟩ :: dir.files
      history := [⟨0, 0, header⟩] }

/-- The checkpoint `open` publishes at its end. The watermark already covers what was read, so
nothing is synced first. -/
def openCheckpoint (framing : Framing) (dir : StateDir) (log : WalLog) :
    Except String (WalLog × StateDir) := do
  let treeGeneration := log.append.treeGeneration
  let (log, described) := log.checkpointIndex treeGeneration
  let (checkpoint, previous) ← described
  let log ← log.markCheckpoint framing checkpoint treeGeneration
  return (log, { dir with
    files := log.files
    checkpoint := some checkpoint
    previousCheckpoint := previous.orElse fun _ => dir.previousCheckpoint })

/-- `MountWal::open`: the recovered log and the state directory it leaves. -/
def openWal (framing : Framing) (dir : StateDir) (expectedEpoch : Option String)
    (minted : String) : Except String (WalLog × StateDir) := do
  let log ← openLog framing dir expectedEpoch minted
  openCheckpoint framing dir log

/-- A state directory that has never been opened. -/
def StateDir.empty : StateDir := ⟨[], none, none, ∅⟩

end Chevalier.LocalView
