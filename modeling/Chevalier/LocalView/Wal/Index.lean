import Chevalier.LocalView.Types

/-!
# The write-ahead log's records and its in-memory index

The records a mount appends to its log, the checkpoint that anchors replay, and `AppendState`, what
the append lock protects. Ordered maps and sets of the source are kept as lists in their iteration
order where the order matters (the prepared index, the dirty paths) and as finite sets where it does
not. File handles are named by the log generation they are open on.
-/

namespace Chevalier.LocalView

/-! ## Records and checkpoints -/

/-- The format this build writes. -/
def walFormatVersion : Nat := 3

/-- The oldest format this build replays. -/
def minReadableWalFormatVersion : Nat := 2

/-- Durable state of this format can be replayed. -/
def readableWalFormat (version : Nat) : Bool :=
  decide (minReadableWalFormatVersion ≤ version ∧ version ≤ walFormatVersion)

/-- The log vocabulary. -/
inductive WalRecord
  | logHeader (formatVersion : Nat) (epoch : String) (generation firstSequence : Nat)
  | prepared (event : MountEvent)
  | committed (epoch : String) (sequence : Nat) (localIdentity : Option String)
  | aborted (epoch : String) (sequence : Nat) (reason : String)
  | contentDirty (epoch : String) (path : MountPath)
  | remoteAcknowledged (epoch : String) (throughSequence remoteRevision : Nat)
  | checkpointed (epoch : String) (throughSequence treeGeneration : Nat)
deriving DecidableEq, Repr

/-- The durable anchor replay starts from. -/
structure MountCheckpoint where
  formatVersion : Nat
  epoch : String
  checkpointId : Nat
  acknowledgedSequence : Nat
  remoteRevision : Nat
  treeGeneration : Nat
  firstUnprunedSequence : Nat
  replayLogGeneration : Nat
  replayLogOffset : Nat
  activeLogGenerations : Finset Nat
  activeSegments : Finset String
  dirtyContentPaths : List MountPath
deriving DecidableEq

/-- The shape check of a checkpoint. -/
def MountCheckpoint.validate (checkpoint : MountCheckpoint) : Except String Unit :=
  if readableWalFormat checkpoint.formatVersion = false then
    .error ("unsupported mount checkpoint format " ++ toString checkpoint.formatVersion ++
      " (this build reads " ++ toString minReadableWalFormatVersion ++ "..=" ++
      toString walFormatVersion ++ ")")
  else if checkpoint.epoch = "" then .error "mount checkpoint has no ownership epoch"
  else if checkpoint.replayLogGeneration ∉ checkpoint.activeLogGenerations then
    .error ("mount checkpoint replay generation " ++ toString checkpoint.replayLogGeneration ++
      " is not in its active set")
  else if checkpoint.firstUnprunedSequence > checkpoint.acknowledgedSequence + 1 then
    .error ("mount checkpoint pruned sequence " ++ toString checkpoint.firstUnprunedSequence ++
      " past its acknowledged cursor " ++ toString checkpoint.acknowledgedSequence)
  else .ok ()

/-! ## The index -/

/-- A prepare as the index holds it: the event and where its record lives. -/
structure PreparedRecord where
  event : MountEvent
  generation : Nat
  offset : Nat
deriving DecidableEq, Repr

/-- The sequence an index entry is filed under. -/
def PreparedRecord.sequence (record : PreparedRecord) : Nat := record.event.sequence

/-- What the append critical section touches. -/
structure AppendState where
  epoch : String
  pendingSync : List Nat
  generation : Nat
  generationLen : Nat
  appendedBytes : Nat
  nextSequence : Nat
  prepared : List PreparedRecord
  committed : Finset Nat
  aborted : Finset Nat
  acknowledgedSequence : Nat
  remoteRevision : Nat
  firstUnprunedSequence : Nat
  treeGeneration : Nat
  checkpointId : Nat
  activeGenerations : Finset Nat
  dirtyContent : List MountPath
  pendingPayloadBytes : Nat
  eventsSinceCheckpoint : Nat
  lastCheckpoint : Option MountCheckpoint
  reclaimCandidates : Finset String
  compactionPending : Bool
deriving DecidableEq

namespace AppendState

variable (state : AppendState)

/-- The index entry of a sequence. -/
def preparedAt (sequence : Nat) : Option PreparedRecord :=
  state.prepared.find? fun record => record.sequence = sequence

/-- The sequence has a terminal record. -/
def Resolved (sequence : Nat) : Prop := sequence ∈ state.committed ∨ sequence ∈ state.aborted

instance (sequence : Nat) : Decidable (state.Resolved sequence) :=
  inferInstanceAs (Decidable (_ ∨ _))

end AppendState

end Chevalier.LocalView
