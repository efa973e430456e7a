import Chevalier.Foundations.Schedule
import Chevalier.LocalView.Wal.Payload
import Chevalier.LocalView.Wal.Replay

/-!
# A mount's log with all of its callers

`MountWal` is the shared state of an open log and of every call on it that is under way: captures
whose prepare is not appended, the group-commit round, the maintenance pass that holds the
maintenance lock, callers that wait for a watermark, and acknowledgements on their way to their
checkpoint. `WalAction` is one step of one of them: one critical section, or one file operation
outside the locks. `MountWal.exec` takes a step, and a run is a list of steps in any order, so runs
are the interleavings of any number of callers.

`syncedBytes` and `syncedEntries` say what of the log reached the device, and `answered` which sync
calls returned; nothing reads them.
-/

namespace Chevalier.LocalView

/-! ## The parties -/

/-- The group-commit watermark. -/
structure SyncState where
  durableSequence : Nat
  durableBytes : Nat
deriving DecidableEq, Repr

/-- A call that waits for a watermark. `appended` and `appendedBytes` record how much the log held
when the call was made. -/
structure SyncRequest where
  sequence : Nat
  bytes : Nat
  appended : Nat
  appendedBytes : Nat
deriving DecidableEq, Repr

def SyncState.Covers (sync : SyncState) (request : SyncRequest) : Prop :=
  request.sequence ≤ sync.durableSequence ∧ request.bytes ≤ sync.durableBytes

instance (sync : SyncState) (request : SyncRequest) : Decidable (sync.Covers request) :=
  inferInstanceAs (Decidable (_ ∧ _))

/-- The round a leader is running: the watermark it will publish, the log handles it still has to
sync, and once it took the dirty payloads, the ones it still has to sync. `appended` records how
many records the log held at its snapshot. -/
structure SyncRound where
  sequence : Nat
  bytes : Nat
  appended : Nat
  handles : List Nat
  taken : Option DirtyPayloads
  files : Finset String
  directory : Bool
deriving DecidableEq

/-- Who a checkpoint is written for. -/
inductive CheckpointCaller
  | maintenance
  | acknowledgement (names : Finset String)
deriving DecidableEq

/-- Where the holder of the maintenance lock is. -/
inductive Maintenance
  | checkpointStart (caller : CheckpointCaller) (treeGeneration : Nat)
  | checkpointSync (caller : CheckpointCaller) (treeGeneration : Nat) (request : SyncRequest)
  | checkpointSeal (caller : CheckpointCaller) (treeGeneration : Nat)
  | checkpointIndex (caller : CheckpointCaller) (treeGeneration : Nat)
  | writePrevious (caller : CheckpointCaller) (treeGeneration : Nat)
      (checkpoint : MountCheckpoint) (previous : Option MountCheckpoint)
  | writeCurrent (caller : CheckpointCaller) (treeGeneration : Nat) (checkpoint : MountCheckpoint)
  | mark (caller : CheckpointCaller) (treeGeneration : Nat) (checkpoint : MountCheckpoint)
  | rotateSync (next : Nat)
  | rotateSyncDirectory (next : Nat)
  | rotateSwap (next : Nat)
  | removeLogs (plan : WalLog.CompactionPlan) (removed : Bool)
  | deferCandidates (plan : WalLog.CompactionPlan)
  | reclaimSnapshot (names : Finset String)
  | reclaim (names : Finset String) (removed : Bool)
deriving DecidableEq

/-- An acknowledgement that is appended and waits for its sync. -/
structure PendingAcknowledgement where
  names : Finset String
  treeGeneration : Nat
  request : SyncRequest
deriving DecidableEq

/-- An open log and everything under way on it. -/
structure MountWal where
  log : WalLog
  payloads : PayloadStore
  checkpoint : Option MountCheckpoint
  previousCheckpoint : Option MountCheckpoint
  sync : SyncState
  round : Option SyncRound
  maintenance : Option Maintenance
  waiting : List SyncRequest
  answered : List SyncRequest
  acknowledging : List PendingAcknowledgement
  released : List (Finset String)
  syncedBytes : Nat → Nat
  syncedEntries : Finset Nat

/-! ## The steps -/

/-- Steps of a payload capture. -/
inductive CaptureAction
  | reserveSegment (mutation : MountMutation) (preImage : MountPreImage) (length : Nat)
      (contentHash : String)
  | reserveDedicated (mutation : MountMutation) (preImage : MountPreImage) (uuid : String)
      (length : Nat) (contentHash : String)
  | write (index : Nat)
  | register (index : Nat)
  | discard (index : Nat)

/-- Critical sections that append records or change the dirty set. -/
inductive RecordAction
  | prepare (mutation : MountMutation) (preImage : MountPreImage)
  | prepareCapture (index : Nat)
  | commit (event : MountEvent) (localIdentity : Option String)
  | abort (event : MountEvent) (reason : String)
  | resolveRecovered (sequence : Nat) (resolution : WalLog.Resolution)
  | recordContentDirty (path : MountPath)
  | clearContentDirty (path : MountPath)
  | renameContentDirty (oldPath newPath : MountPath)
  | acknowledge (throughSequence remoteRevision treeGeneration : Nat)
  | release (index : Nat)

/-- Steps of the group commit: calls, their answers, and the round of the leader. -/
inductive SyncAction
  | syncThrough (sequence : Nat)
  | syncLocal
  | answer (index : Nat)
  | begin
  | takeDirty
  | syncPayload (name : String)
  | syncDirectory
  | syncLog
  | finish
  | fail

/-- Steps under the maintenance lock. -/
inductive MaintenanceAction
  | sealSegment
  | checkpoint (treeGeneration : Nat)
  | acknowledgedCheckpoint (index : Nat)
  | rotate
  | compact
  | advance
  | reclaimFile (name : String)
  | fail (visible : Bool)

/-- One step of one caller. -/
inductive WalAction
  | capture (action : CaptureAction)
  | record (action : RecordAction)
  | sync (action : SyncAction)
  | maintenance (action : MaintenanceAction)

namespace MountWal

variable (framing : Framing) (wal : MountWal)

/-! ### Captures -/

/-- Take a capture step. -/
def execCapture (action : CaptureAction) : Except String MountWal := do
  let payloads ←
    match action with
    | .reserveSegment mutation preImage length contentHash =>
      wal.payloads.reserveSegment mutation preImage length contentHash
    | .reserveDedicated mutation preImage uuid length contentHash =>
      wal.payloads.reserveDedicated mutation preImage uuid length contentHash
    | .write index => wal.payloads.writeCapture index
    | .register index => wal.payloads.registerDedicated index
    | .discard index => wal.payloads.discardCapture index
  return { wal with payloads := payloads }

/-! ### Records -/

/-- A sync request made now for a sequence and a byte watermark. -/
def requestNow (sequence bytes : Nat) : SyncRequest where
  sequence := sequence
  bytes := bytes
  appended := wal.log.history.length
  appendedBytes := wal.log.append.appendedBytes

/-- The request of `sync_local`: everything appended so far. -/
def localRequest : SyncRequest :=
  wal.requestNow (wal.log.append.nextSequence - 1) wal.log.append.appendedBytes

def prepareCapture (index : Nat) : Except String MountWal :=
  match wal.payloads.captures[index]? with
  | some ⟨mutation, preImage, payload, .ready⟩ => do
    mutation.validatePayload (some payload)
    let log ← wal.log.prepare framing mutation (some payload) preImage
    return { wal with
      log := log
      payloads := { wal.payloads with captures := wal.payloads.captures.eraseIdx index } }
  | _ => .error "no finished capture"

/-- Append an acknowledgement; its caller then waits for a sync of everything appended. -/
def acknowledge (throughSequence remoteRevision treeGeneration : Nat) :
    Except String MountWal := do
  match ← wal.log.acknowledge framing throughSequence remoteRevision with
  | none => return wal
  | some (log, names) =>
    let next := { wal with log := log }
    return { next with
      acknowledging := wal.acknowledging ++ [⟨names, treeGeneration, next.localRequest⟩] }

/-- Take a record step. -/
def execRecord : RecordAction → Except String MountWal
  | .prepare mutation preImage => do
    PayloadStore.preflight mutation false
    mutation.validatePayload none
    let log ← wal.log.prepare framing mutation none preImage
    return { wal with log := log }
  | .prepareCapture index => wal.prepareCapture framing index
  | .commit event localIdentity => do
    let log ← wal.log.commit framing event localIdentity
    return { wal with log := log }
  | .abort event reason => do
    let log ← wal.log.abort framing event reason
    return { wal with log := log }
  | .resolveRecovered sequence resolution => do
    let log ← wal.log.resolveRecovered framing sequence resolution
    return { wal with log := log }
  | .recordContentDirty path => do
    let log ← wal.log.recordContentDirty framing path
    return { wal with log := log }
  | .clearContentDirty path => .ok { wal with log := wal.log.clearContentDirty path }
  | .renameContentDirty oldPath newPath => do
    let log ← wal.log.renameContentDirty oldPath newPath
    return { wal with log := log }
  | .acknowledge throughSequence remoteRevision treeGeneration =>
    wal.acknowledge framing throughSequence remoteRevision treeGeneration
  | .release index =>
    match wal.released[index]? with
    | none => .error "no checkpointed acknowledgement"
    | some names => .ok { wal with
        log := wal.log.releaseCandidates names
        released := wal.released.eraseIdx index }

/-! ### Group commit -/

def fileLength (generation : Nat) : Nat :=
  ((wal.log.files.filter (·.generation = generation)).map fun file =>
    framing.length file.records + file.torn).sum

def syncGeneration (generation : Nat) : MountWal :=
  { wal with syncedBytes := fun other =>
      if other = generation then max (wal.syncedBytes other) (wal.fileLength framing other)
      else wal.syncedBytes other }

def syncLogDirectory : MountWal :=
  { wal with
    syncedEntries := wal.syncedEntries ∪ (wal.log.files.map LogFile.generation).toFinset }

/-- Put rotated-away handles back; the last one is the active generation's, which the index owns. -/
def restorePendingSync (handles : List Nat) : MountWal :=
  { wal with log := { wal.log with append := { wal.log.append with
    pendingSync := handles.dropLast ++ wal.log.append.pendingSync } } }

/-- The leader's snapshot under the append lock. -/
def beginRound : Except String MountWal :=
  match wal.round with
  | some _ => .error "a round is in flight"
  | none => .ok { wal with
      round := some {
        sequence := wal.log.append.nextSequence - 1
        bytes := wal.log.append.appendedBytes
        appended := wal.log.history.length
        handles := wal.log.append.pendingSync ++ [wal.log.append.generation]
        taken := none
        files := ∅
        directory := false }
      log := { wal.log with append := { wal.log.append with pendingSync := [] } } }

/-- The leader takes the dirty payloads. -/
def takeDirtyRound : Except String MountWal :=
  match wal.round with
  | some round =>
    match round.taken with
    | none =>
      let (payloads, dirty) := wal.payloads.takeDirty
      .ok { wal with
        payloads := payloads
        round := some { round with
          taken := some dirty
          files := dirty.files
          directory := dirty.directoryDirty } }
    | some _ => .error "the dirty payloads are taken"
  | none => .error "no round is in flight"

def syncPayloadRound (name : String) : Except String MountWal :=
  match wal.round with
  | some round =>
    if name ∈ round.files then do
      let payloads ← wal.payloads.syncFile name
      return { wal with
        payloads := payloads
        round := some { round with files := round.files.erase name } }
    else .error "not a file of this round"
  | none => .error "no round is in flight"

/-- After the payload files, the leader syncs their directory. -/
def syncDirectoryRound : Except String MountWal :=
  match wal.round with
  | some round =>
    if round.files = ∅ ∧ round.directory = true then .ok { wal with
      payloads := wal.payloads.syncDirectory
      round := some { round with directory := false } }
    else .error "the directory is not due"
  | none => .error "no round is in flight"

def SyncRound.PayloadsDone (round : SyncRound) : Prop :=
  round.taken.isSome = true ∧ round.files = ∅ ∧ round.directory = false

instance (round : SyncRound) : Decidable (SyncRound.PayloadsDone round) :=
  inferInstanceAs (Decidable (_ ∧ _ ∧ _))

/-- After the payloads, the leader syncs the log generations, oldest first. -/
def syncLogRound : Except String MountWal :=
  match wal.round with
  | some round =>
    match round.handles with
    | generation :: rest =>
      if SyncRound.PayloadsDone round then
        let synced := wal.syncGeneration framing generation
        .ok { synced with round := some { round with handles := rest } }
      else .error "the payloads are not synced"
    | [] => .error "every generation is synced"
  | none => .error "no round is in flight"

/-- A finished round publishes its watermark. -/
def finishRound : Except String MountWal :=
  match wal.round with
  | some round =>
    if SyncRound.PayloadsDone round ∧ round.handles = [] then .ok { wal with
      round := none
      sync := {
        durableSequence := max wal.sync.durableSequence round.sequence
        durableBytes := max wal.sync.durableBytes round.bytes } }
    else .error "the round is not finished"
  | none => .error "no round is in flight"

/-- A failed round puts what it did not sync back: all it took while the payloads were not synced,
afterwards only the remaining log handles. -/
def failRound : Except String MountWal :=
  match wal.round with
  | some round =>
    match round.taken with
    | none => .error "nothing to sync yet"
    | some dirty =>
      let restored := { wal with round := none }.restorePendingSync round.handles
      if SyncRound.PayloadsDone round then .ok restored
      else .ok { restored with payloads := wal.payloads.restoreDirty dirty }
  | none => .error "no round is in flight"

/-- Take a group-commit step. -/
def execSync : SyncAction → Except String MountWal
  | .syncThrough sequence =>
    if sequence < wal.log.append.nextSequence then
      .ok { wal with waiting := wal.waiting ++ [wal.requestNow sequence 0] }
    else .error "sequence is not appended"
  | .syncLocal => .ok { wal with waiting := wal.waiting ++ [wal.localRequest] }
  | .answer index =>
    match wal.waiting[index]? with
    | none => .error "no such call"
    | some request =>
      if wal.sync.Covers request then .ok { wal with
        waiting := wal.waiting.eraseIdx index
        answered := wal.answered ++ [request] }
      else .error "the watermark does not cover the call"
  | .begin => wal.beginRound
  | .takeDirty => wal.takeDirtyRound
  | .syncPayload name => wal.syncPayloadRound name
  | .syncDirectory => wal.syncDirectoryRound
  | .syncLog => wal.syncLogRound framing
  | .finish => wal.finishRound
  | .fail => wal.failRound

/-! ### Maintenance -/

def acquire (maintenance : Maintenance) : Except String MountWal :=
  match wal.maintenance with
  | some _ => .error "the maintenance lock is held"
  | none => .ok { wal with maintenance := some maintenance }

/-- Begin the checkpoint of an acknowledgement whose sync has returned. -/
def acknowledgedCheckpoint (index : Nat) : Except String MountWal :=
  match wal.acknowledging[index]? with
  | none => .error "no such acknowledgement"
  | some pending =>
    if wal.sync.Covers pending.request then do
      let next ← wal.acquire (.checkpointStart (.acknowledgement pending.names)
        pending.treeGeneration)
      return { next with acknowledging := wal.acknowledging.eraseIdx index }
    else .error "the watermark does not cover the acknowledgement"

/-- Begin a rotation; nothing happens below the threshold. -/
def rotateIfNeeded : Except String MountWal := do
  let next ← wal.acquire (.rotateSync (wal.log.append.generation + 1))
  match ← wal.log.rotateCreate framing with
  | none => return wal
  | some log => return { next with log := log }

/-- Begin a compaction; nothing happens when nothing became unreachable. -/
def compact : Except String MountWal :=
  match wal.log.compactBegin with
  | none => .ok wal
  | some (log, plan) => do
    let next ← wal.acquire (.removeLogs plan false)
    return { next with log := log }

def finishCheckpoint : CheckpointCaller → MountWal
  | .maintenance => { wal with maintenance := none }
  | .acknowledgement names =>
    { wal with maintenance := none, released := wal.released ++ [names] }

/-- The append section of the checkpoint under way. -/
def describeCheckpoint (caller : CheckpointCaller) (treeGeneration : Nat) : MountWal :=
  match wal.log.checkpointIndex treeGeneration with
  | (log, .ok (checkpoint, previous)) => { wal with
      log := log
      maintenance := some (.writePrevious caller treeGeneration checkpoint previous) }
  | (log, .error _) => { wal with log := log, maintenance := none }

/-- Delete the oldest generation below the floor, or go on to the payloads. -/
def removeOldestLog (plan : WalLog.CompactionPlan) (removed : Bool) : MountWal :=
  match wal.log.files.find? (·.generation < plan.floorGeneration) with
  | some file => { wal with
      log := wal.log.removeGeneration file.generation
      maintenance := some (.removeLogs plan true) }
  | none =>
    if removed = true then
      let synced := wal.syncLogDirectory
      { synced with
        log := wal.log.retainGenerations plan.floorGeneration
        maintenance := some (.deferCandidates plan) }
    else { wal with maintenance := some (.deferCandidates plan) }

/-- Split the candidates into those that are still needed and those to delete. -/
def splitCandidates (plan : WalLog.CompactionPlan) : MountWal :=
  let needed := plan.candidates ∩ (plan.referenced ∪ plan.protectedNames)
  let reclaimable := plan.candidates \ (plan.referenced ∪ plan.protectedNames)
  { wal with
    log := wal.log.deferCandidates needed
    maintenance := if reclaimable = ∅ then none else some (.reclaimSnapshot reclaimable) }

/-- The holder of the maintenance lock takes its next step. -/
def advance : Except String MountWal :=
  match wal.maintenance with
  | none => .error "the maintenance lock is free"
  | some (.checkpointStart caller treeGeneration) => .ok { wal with
      maintenance := some (.checkpointSync caller treeGeneration wal.localRequest) }
  | some (.checkpointSync caller treeGeneration request) =>
    if wal.sync.Covers request then
      .ok { wal with maintenance := some (.checkpointSeal caller treeGeneration) }
    else .error "the watermark does not cover the checkpoint"
  | some (.checkpointSeal caller treeGeneration) => .ok { wal with
      payloads := wal.payloads.sealActiveSegment
      maintenance := some (.checkpointIndex caller treeGeneration) }
  | some (.checkpointIndex caller treeGeneration) =>
    .ok (wal.describeCheckpoint caller treeGeneration)
  | some (.writePrevious caller treeGeneration checkpoint previous) => .ok { wal with
      previousCheckpoint := previous.orElse fun _ => wal.previousCheckpoint
      maintenance := some (.writeCurrent caller treeGeneration checkpoint) }
  | some (.writeCurrent caller treeGeneration checkpoint) => .ok { wal with
      checkpoint := some checkpoint
      maintenance := some (.mark caller treeGeneration checkpoint) }
  | some (.mark caller treeGeneration checkpoint) => do
    let log ← wal.log.markCheckpoint framing checkpoint treeGeneration
    return { wal with log := log }.finishCheckpoint caller
  | some (.rotateSync next) =>
    let synced := wal.syncGeneration framing next
    .ok { synced with maintenance := some (.rotateSyncDirectory next) }
  | some (.rotateSyncDirectory next) =>
    let synced := wal.syncLogDirectory
    .ok { synced with maintenance := some (.rotateSwap next) }
  | some (.rotateSwap next) =>
    match wal.log.rotateSwap framing next with
    | (log, true) => .ok { wal with
        log := log
        maintenance := some (.checkpointStart .maintenance log.append.treeGeneration) }
    | (log, false) => .ok { wal with log := log, maintenance := none }
  | some (.removeLogs plan removed) => .ok (wal.removeOldestLog plan removed)
  | some (.deferCandidates plan) => .ok (wal.splitCandidates plan)
  | some (.reclaimSnapshot names) => .ok { wal with
      maintenance := some (.reclaim (names \ wal.payloads.unreclaimable) false) }
  | some (.reclaim names removed) =>
    if names = ∅ then .ok { wal with
      payloads := if removed = true then wal.payloads.syncDirectory else wal.payloads
      maintenance := none }
    else .error "files are left to reclaim"

def reclaimFile (name : String) : Except String MountWal :=
  match wal.maintenance with
  | some (.reclaim names removed) =>
    if name ∈ names then .ok { wal with
      payloads := wal.payloads.removeFile name
      maintenance := some (.reclaim (names.erase name)
        (removed || decide (name ∈ wal.payloads.disk.files))) }
    else .error "not a reclaimable file"
  | _ => .error "no reclamation is under way"

/-- The holder of the maintenance lock gives up on an error. A checkpoint file whose write failed
may be `visible` all the same: the rename happened and the sync after it failed. -/
def failMaintenance (visible : Bool) : Except String MountWal :=
  match wal.maintenance with
  | none => .error "the maintenance lock is free"
  | some (.writePrevious _ _ _ (some previous)) => .ok { wal with
      previousCheckpoint := if visible = true then some previous else wal.previousCheckpoint
      maintenance := none }
  | some (.writeCurrent _ _ checkpoint) => .ok { wal with
      checkpoint := if visible = true then some checkpoint else wal.checkpoint
      maintenance := none }
  | some _ => .ok { wal with maintenance := none }

/-- Take a maintenance step. -/
def execMaintenance : MaintenanceAction → Except String MountWal
  | .sealSegment => .ok { wal with payloads := wal.payloads.sealActiveSegment }
  | .checkpoint treeGeneration => wal.acquire (.checkpointStart .maintenance treeGeneration)
  | .acknowledgedCheckpoint index => wal.acknowledgedCheckpoint index
  | .rotate => wal.rotateIfNeeded framing
  | .compact => wal.compact
  | .advance => wal.advance framing
  | .reclaimFile name => wal.reclaimFile name
  | .fail visible => wal.failMaintenance visible

/-! ### Runs -/

/-- Take one step of one caller. -/
def exec (framing : Framing) (action : WalAction) (wal : MountWal) : Option MountWal :=
  match action with
  | .capture action => (wal.execCapture action).toOption
  | .record action => (wal.execRecord framing action).toOption
  | .sync action => (wal.execSync framing action).toOption
  | .maintenance action => (wal.execMaintenance framing action).toOption

/-- The state directory as it stands. -/
def dir : StateDir where
  files := wal.log.files
  checkpoint := wal.checkpoint
  previousCheckpoint := wal.previousCheckpoint
  payloadFiles := wal.payloads.disk.files

/-- A log opened on a state directory that was never used. -/
def create (framing : Framing) (epoch : String) : Except String MountWal := do
  let (log, dir) ← openWal framing StateDir.empty none epoch
  return {
    log := log
    payloads := {
      state := ⟨0, none, ⟨∅, false⟩, ∅⟩
      disk := ⟨∅, ∅, ∅, ∅⟩
      captures := []
      minted := ∅ }
    checkpoint := dir.checkpoint
    previousCheckpoint := dir.previousCheckpoint
    sync := ⟨log.append.nextSequence - 1, 0⟩
    round := none
    maintenance := none
    waiting := []
    answered := []
    acknowledging := []
    released := []
    -- only the header was synced; the record of the first checkpoint was appended after it
    syncedBytes := fun generation =>
      if generation = 0 then
        framing.bytes (.logHeader walFormatVersion epoch 0 log.append.nextSequence)
      else 0
    syncedEntries := {0} }

end MountWal

end Chevalier.LocalView
