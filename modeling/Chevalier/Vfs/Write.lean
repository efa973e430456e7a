import Chevalier.Vfs.Storage

/-!
# Writes

`writeManyAtomic` splits a batch into writes that are still to be made and exact replays of writes
that were made before, and installs the first kind (`installWritesWithOptions`): every write is
staged in a file next to its destination, the preconditions are checked again, and the staged files
are installed one after the other. A destination that is a regular file keeps its inode.
-/

namespace Chevalier.Vfs

open Posix Calls

variable (host : Host)

/-! ## Replays -/

/-- A write whose bytes are at its path already. -/
structure ExactWriteReplay where
  path : LogicalPath
  destination : Path
  contentHash : String
  requestedOptions : Option WriteOptions
deriving DecidableEq, Repr

/-- A fingerprint precondition may have been met by the write's first attempt. -/
def preconditionAllowsExactReplay (precondition : Option WritePrecondition) : Bool :=
  match precondition.bind WritePrecondition.effectivePredicate with
  | some (.contentFingerprint _) => true
  | _ => false

/-- An earlier call published this very file and failed before it was durable. -/
def permitsIncompleteAbsentReplay (fs : FileSystem) (path : Path) (contentHash : String)
    (options : Option WriteOptions) : Except VfsStorageError Bool :=
  match host.incompleteAbsentWrites path with
  | none => .ok false
  | some record =>
    match fs.lstat path with
    | .ok (.file inode) =>
      .ok (record.contentHash = contentHash ∧ record.fileId = host.fileId inode ∧
        record.options = options)
    | .ok _ => .ok false
    | .error .noEntry => .ok false
    | .error errno => .error (internalError errno)

/-- The regular file at the destination of a replay holds its bytes. -/
def exactWriteReplayTarget (fs : FileSystem) (replay : ExactWriteReplay) :
    Except VfsStorageError Bool := do
  assertNoSymlinkAncestor fs replay.destination
  match fs.lstat replay.destination with
  | .ok (.file inode) => return host.hash (fs.data inode).bytes = replay.contentHash
  | .ok _ => return false
  | .error .noEntry => return false
  | .error errno => .error (internalError errno)

/-- A write with the options its call gives it. -/
abbrev RequestedWrite := VfsStorageWrite × Option WriteOptions

/-- The path names the inode the precondition expects, if there is a precondition. -/
def assertOptionalFileId (fs : FileSystem) (path : LogicalPath) :
    Option WritePrecondition → Except VfsStorageError Unit
  | none => .ok ()
  | some precondition => assertExpectedFileId host fs path precondition

def permitsReplay (fs : FileSystem) (destination : Path) (write : VfsStorageWrite)
    (options : Option WriteOptions) : Except VfsStorageError Bool :=
  if preconditionAllowsExactReplay write.precondition then .ok true
  else permitsIncompleteAbsentReplay host fs destination (host.hash write.bytes) options

def exactWriteReplay (fs : FileSystem) (write : VfsStorageWrite) (options : Option WriteOptions)
    (message : String) : Except VfsStorageError ExactWriteReplay := do
  assertOptionalFileId host fs write.path write.precondition
  let destination ← absPath write.path
  let permitted ← permitsReplay host fs destination write options
  if permitted = false then .error (.conflict message)
  else
    let replay : ExactWriteReplay := ⟨write.path, destination, host.hash write.bytes, options⟩
    let found ← exactWriteReplayTarget host fs replay
    if found = false then .error (.conflict message) else .ok replay

/-- Whether a write is still to be made; an error when its precondition fails and it is no
replay. -/
def classifyWrite (fs : FileSystem) (write : VfsStorageWrite) (options : Option WriteOptions) :
    Except VfsStorageError (RequestedWrite ⊕ ExactWriteReplay) :=
  match assertPrecondition host fs write.path write.precondition with
  | .ok () => .ok (.inl (write, options))
  | .error (.conflict message) => do
    let replay ← exactWriteReplay host fs write options message
    return .inr replay
  | .error error => .error error

/-- Two writes of one batch may not be spelled the same. -/
def duplicateError (path : LogicalPath) : VfsStorageError :=
  .badRequest ("duplicate vfs write path: " ++ path.text)

/-- Split a batch into writes to be made and exact replays. -/
def partitionConditionalWriteReplays (fs : FileSystem) (seen : List LogicalPath) :
    List RequestedWrite → Except VfsStorageError (List RequestedWrite × List ExactWriteReplay)
  | [] => .ok ([], [])
  | (write, options) :: rest =>
    if write.path ∈ seen then .error (duplicateError write.path)
    else do
      let outcome ← classifyWrite host fs write options
      let (pending, replays) ← partitionConditionalWriteReplays fs (write.path :: seen) rest
      return match outcome with
        | .inl pendingWrite => (pendingWrite :: pending, replays)
        | .inr replay => (pending, replay :: replays)

/-- What a write reports. -/
structure VfsStorageWriteResult where
  path : LogicalPath
  contentHash : String
  previousHash : Option String
  changed : Bool
deriving DecidableEq, Repr

/-- A file has the mode its options ask for. -/
def writeOptionsMatch (mode : Nat) (options : WriteOptions) : Bool :=
  match options.mode with
  | some wanted => normalizeVfsMode mode = normalizeVfsMode wanted
  | none => decide (mode &&& 0o111 ≠ 0) = options.executable

def ExactWriteReplay.result (replay : ExactWriteReplay) : VfsStorageWriteResult where
  path := replay.path
  contentHash := replay.contentHash
  previousHash := some replay.contentHash
  changed := false

def completeExactWriteReplay (replay : ExactWriteReplay) : VfsM VfsStorageWriteResult := do
  let found ← inspect fun fs => exactWriteReplayTarget host fs replay
  if found = false then
    throw (.conflict ("local vfs write precondition failed for " ++ replay.path.text))
  match replay.requestedOptions with
  | none => pure ()
  | some options =>
    let previousMode ← inspect fun fs => existingRegularFileMode fs replay.destination
    applyWriteOptions host replay.destination (some options) previousMode
    let mode ← inspect fun fs => existingRegularFileMode fs replay.destination
    if writeOptionsMatch (mode.getD 0) options = false then
      throw (.internal ("local VFS mode did not converge for " ++ replay.path.text))
  return replay.result

/-- Bring the replayed files of a batch to the modes their options ask for. -/
def completeExactWriteReplays : List ExactWriteReplay → VfsM (List VfsStorageWriteResult)
  | [] => return []
  | replay :: rest => do
    let result ← completeExactWriteReplay host replay
    let results ← completeExactWriteReplays rest
    return result :: results

/-! ## Staging -/

/-- What the staging of a write has found out before it changes anything. -/
structure WritePlan where
  path : LogicalPath
  destination : Path
  contentHash : String
  previousHash : Option String
  options : Option WriteOptions
  precondition : Option WritePrecondition
  previousMode : Option Nat
  durabilityDirectories : List Path
deriving DecidableEq, Repr

/-- A write whose bytes are staged. -/
structure StagedWrite extends WritePlan where
  temporary : Path
  temporaryInode : Nat
deriving DecidableEq, Repr

/-- A write that creates its path gives it the write's own mode, unless its call asks for one. -/
def stagedOptions (requested : Option WriteOptions) (mode existingMode : Option Nat) :
    Option WriteOptions :=
  match requested, mode with
  | some options, _ => some options
  | none, some mode =>
    if existingMode.isNone then some ⟨mode &&& 0o111 ≠ 0, some mode⟩ else none
  | none, none => none

/-- The directories whose entries a new file in `directory` changes: the missing ones, and the first
one that exists. -/
def filePublicationDurabilityDirectories (fs : FileSystem) (directory : Path) : List Path :=
  let fronts := directory.inits.reverse
  fronts.takeWhile (fun front => (fs.node front).isNone) ++
    (fronts.dropWhile fun front => (fs.node front).isNone).take 1

def planWrite (fs : FileSystem) (request : RequestedWrite) : Except VfsStorageError WritePlan := do
  let (write, requested) := request
  let destination ← absPath write.path
  assertNoSymlinkAncestor fs destination
  let metadata ← metadataForAbs host fs destination
  let existingMode ← existingRegularFileMode fs destination
  let options := stagedOptions requested write.mode existingMode
  if destination = [] then
    .error (.internal ("local VFS durability path " ++ host.rootParent ++ " escaped root " ++
      host.root ++ ": prefix not found"))
  else
    return {
      path := write.path
      destination := destination
      contentHash := host.hash write.bytes
      previousHash := metadata.bind Metadata.contentHash
      options := options
      precondition := write.precondition
      previousMode := if options.isSome then existingMode else none
      durabilityDirectories := filePublicationDurabilityDirectories fs destination.dropLast }

def newFileMode : Nat := 0o666 &&& (0o7777 - host.umask)

def stageWrite (avoid : List Path) (request : RequestedWrite) : VfsM StagedWrite := do
  let plan ← inspect fun fs => planWrite host fs request
  createDirAll host plan.destination.dropLast internalError
  let temporary ← inspect fun fs =>
    .ok (stagingPath plan.destination (host.uuid fs avoid plan.destination))
  let inode ← inspect fun fs => .ok fs.fresh
  perform (fun fs => fs.createFile temporary ⟨request.1.bytes, newFileMode host⟩) internalError
  applyWriteOptions host temporary plan.options plan.previousMode
  return { plan with temporary := temporary, temporaryInode := inode }

/-- Stage the writes of a batch in order. An error leaves what is staged where it is. -/
def stageWrites (avoid : List Path) (seen : List LogicalPath) :
    List RequestedWrite → VfsM (List StagedWrite)
  | [] => return []
  | request :: rest => do
    if request.1.path ∈ seen then throw (duplicateError request.1.path)
    let staged ← stageWrite host avoid request
    let later ← stageWrites avoid (request.1.path :: seen) rest
    return staged :: later

/-- Remove the staged files. -/
def discardStaged : List StagedWrite → VfsM Unit
  | [] => return ()
  | staged :: rest => do
    attempt fun fs => fs.unlink staged.temporary
    discardStaged rest

/-- Check the preconditions of the staged writes. -/
def assertPreconditions (fs : FileSystem) : List StagedWrite → Except VfsStorageError Unit
  | [] => .ok ()
  | staged :: rest => do
    assertPrecondition host fs staged.path staged.precondition
    assertPreconditions fs rest

/-! ## Installing -/

/-- Install a staged file. An existing regular file is rewritten in place; `true` then. -/
def installStagedFilePreservingIdentity (staged : StagedWrite) : VfsM Bool := do
  match ← inspect fun fs => .ok (fs.lstat staged.destination) with
  | .ok (.file inode) =>
    perform (fun fs => .ok (fs.rewrite inode (fs.data staged.temporaryInode).bytes)) internalError
    perform (fun fs => fs.unlink staged.temporary) internalError
    return true
  | .ok _ | .error .noEntry =>
    perform (fun fs => fs.rename staged.temporary staged.destination) internalError
    return false
  | .error errno => throw (internalError errno)

/-- Install a staged file; one that was rewritten in place is brought to its mode. -/
def installStagedWrite (staged : StagedWrite) : VfsM Unit := do
  if ← installStagedFilePreservingIdentity staged then
    applyWriteOptions host staged.destination staged.options staged.previousMode

/-- Install the staged files in order. An error leaves what is installed and staged where it is. -/
def installStaged : List StagedWrite → VfsM Unit
  | [] => return ()
  | staged :: rest => do
    installStagedWrite host staged
    installStaged rest

/-- Deeper directories come first. -/
def deepestFirst (left right : Path) : Bool :=
  right.length < left.length || (right.length = left.length && decide (left ≤ right))

/-- Sync directories in order; one that is gone is skipped, one that is no directory is an error. -/
def syncInOrder (fs : FileSystem) : List Path → Except VfsStorageError Unit
  | [] => .ok ()
  | directory :: rest =>
    match fs.lstat directory with
    | .ok (.directory _) => syncInOrder fs rest
    | .ok _ => .error (.internal ("local VFS durability path " ++ display host directory ++
        " is not a directory"))
    | .error .noEntry => syncInOrder fs rest
    | .error errno => .error (internalError errno)

def syncDirectoriesDeepestFirst (fs : FileSystem) (touched : List Path) :
    Except VfsStorageError Unit :=
  syncInOrder host fs (touched.insertionSort fun left right => deepestFirst left right)

/-- The names the staging files of a batch must not take. -/
def writtenNames (writes : List RequestedWrite) : List Path :=
  writes.flatMap fun request =>
    match absPath request.1.path with
    | .ok destination => destination.inits
    | .error _ => []

/-- What an installed write reports. -/
def StagedWrite.result (staged : StagedWrite) : VfsStorageWriteResult where
  path := staged.path
  contentHash := staged.contentHash
  previousHash := staged.previousHash
  changed := true

/-- Stage a batch, check its preconditions, and install it. -/
def installWritesWithOptions (writes : List RequestedWrite) :
    VfsM (List VfsStorageWriteResult) := do
  let staged ← stageWrites host (writtenNames writes) [] writes
  match ← inspect fun fs => .ok (assertPreconditions host fs staged) with
  | .error error =>
    discardStaged staged
    throw error
  | .ok () =>
    installStaged host staged
    inspect fun fs =>
      syncDirectoriesDeepestFirst host fs (staged.flatMap fun staged => staged.durabilityDirectories)
    return staged.map StagedWrite.result

def writeResultsInOrder (order : List LogicalPath) (results : List VfsStorageWriteResult) :
    Except VfsStorageError (List VfsStorageWriteResult) :=
  order.mapM fun path =>
    match results.find? fun result => result.path = path with
    | some result => .ok result
    | none => .error (.internal ("write returned no result for " ++ path.text))

/-- Write a batch of files. -/
def writeManyAtomic (writes : List VfsStorageWrite) : VfsM (List VfsStorageWriteResult) := do
  let (pending, replays) ← inspect fun fs =>
    partitionConditionalWriteReplays host fs [] (writes.map fun write => (write, none))
  let replayed ← completeExactWriteReplays host replays
  let installed ← installWritesWithOptions host pending
  inspect fun _ =>
    writeResultsInOrder (writes.map VfsStorageWrite.path) (replayed ++ installed)

end Chevalier.Vfs
