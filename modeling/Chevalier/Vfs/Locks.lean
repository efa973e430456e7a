import Chevalier.Foundations.Locks
import Chevalier.Foundations.Schedule
import Chevalier.Vfs.Namespace

/-!
# Concurrent calls

A call that changes the storage looks up its lock keys, takes the locks one after the other in lexical
order, checks its preconditions, installs its change and lets go of its locks. Calls are interleaved
at these steps (`exec`).

The keys of a call are its paths, component by component as they are spelled, and the identities of
the inodes the paths name at that moment: the one the file system reports and the one the hash cache
remembers. Both are looked up before the first lock is taken.
-/

namespace Chevalier.Vfs

open Posix Calls Locks

/-! ## Lock keys -/

/-- The components of a path that locks are taken for, as they are spelled. -/
def lockParts (path : LogicalPath) : Path := path.filter fun part => part ≠ ""

def inodeKey (id : String) : LogicalPath := ["\x00inode:" ++ id]

/-- The locks of a mutation: exclusive ones for its keys, shared ones for what lies above them, in
lexical order. -/
def lockWithTargetMode (keys : List LogicalPath) : List (Path × Mode) :=
  let targets := keys.map lockParts
  ((targets.flatMap List.inits).dedup.insertionSort fun left right =>
    "/".intercalate left ≤ "/".intercalate right).map fun key =>
      (key, if key ∈ targets then .write else .read)

/-- The identity of the regular file a path names. -/
def liveFileId (host : Host) (fs : FileSystem) (abs : Path) : Option String :=
  match fs.lstat abs with
  | .ok (.file inode) => host.fileId inode
  | _ => none

/-- The lock keys of a path; the hash cache may remember the identity of another file. -/
def lockKeys (host : Host) (cached : Path → Option String) (fs : FileSystem)
    (path : LogicalPath) : List LogicalPath :=
  match absPath path with
  | .error _ => [path]
  | .ok abs =>
    let live := (liveFileId host fs abs).filter fun id => cached abs ≠ some id
    (cached abs).toList.map inodeKey ++ live.toList.map inodeKey ++ [path]

/-- The locks of a mutation of some paths. -/
def lockPaths (host : Host) (cached : Path → Option String) (fs : FileSystem)
    (paths : List LogicalPath) : List (Path × Mode) :=
  lockWithTargetMode (paths.flatMap (lockKeys host cached fs))

/-! ## Calls -/

/-- An append of a staged tail. -/
structure AppendRequest where
  path : LogicalPath
  tail : Bytes
  offset : Nat
  expectedContentHash : String
  precondition : WritePrecondition
  options : Option WriteOptions
deriving DecidableEq, Repr

/-- The calls that change files and names. -/
inductive Call
  | write (path : LogicalPath) (bytes : Bytes) (precondition : Option WritePrecondition)
      (options : Option WriteOptions)
  | writeManyAtomic (writes : List VfsStorageWrite)
  | appendFromLocalFile (request : AppendRequest)
  | createHardLink (source destination : LogicalPath)
  | rename (source target : LogicalPath)
  | deleteFile (path : LogicalPath) (precondition : Option WritePrecondition)
deriving DecidableEq, Repr

namespace Call

def requests : Call → List RequestedWrite
  | .write path bytes precondition options => [(⟨path, bytes, precondition, none⟩, options)]
  | .writeManyAtomic writes => writes.map fun write => (write, none)
  | _ => []

def paths : Call → List LogicalPath
  | .write path _ _ _ => [path]
  | .writeManyAtomic writes => writes.map VfsStorageWrite.path
  | .appendFromLocalFile request => [request.path]
  | .createHardLink source destination => [source, destination]
  | .rename source target => [source, target]
  | .deleteFile path _ => [path]

def conditions : Call → List (LogicalPath × Option WritePrecondition)
  | .write path _ precondition _ => [(path, precondition)]
  | .writeManyAtomic writes => writes.map fun write => (write.path, write.precondition)
  | .appendFromLocalFile request => [(request.path, some request.precondition)]
  | .deleteFile path precondition => [(path, precondition)]
  | .createHardLink _ _ | .rename _ _ => []

end Call

/-- A call whose preconditions were checked. -/
inductive Prepared
  | writes (staged : List StagedWrite)
  | append (request : AppendRequest) (destination : Path) (inode : Nat)
      (previousMode : Option Nat)
  | createHardLink (source destination : LogicalPath)
  | rename (source target : LogicalPath)
  | deleteFile (path : LogicalPath) (precondition : Option WritePrecondition)
deriving DecidableEq, Repr

/-- What a checked call has found to hold. -/
def Prepared.conditions : Prepared → List (LogicalPath × Option WritePrecondition)
  | .writes staged => staged.map fun write => (write.path, write.precondition)
  | .append request _ _ _ => [(request.path, some request.precondition)]
  | .deleteFile path precondition => [(path, precondition)]
  | .createHardLink _ _ | .rename _ _ => []

section

variable (host : Host)

/-- Sort out replays, stage the rest, and check the preconditions. `none` if nothing is left to
install. -/
def prepareWrites (avoid : List RequestedWrite → List Path) (requests : List RequestedWrite) :
    VfsM (Option Prepared) := do
  let (pending, replays) ← inspect fun fs => partitionConditionalWriteReplays host fs [] requests
  let _ ← completeExactWriteReplays host replays
  let staged ← stageWrites host (avoid pending) [] pending
  match ← inspect fun fs => .ok (assertPreconditions host fs staged) with
  | .error error =>
    discardStaged staged
    throw error
  | .ok () => return if staged = [] then none else some (.writes staged)

/-- The base an append is computed against. -/
def appendBaseFingerprint (path : LogicalPath) (precondition : WritePrecondition) :
    Except VfsStorageError String :=
  match precondition.effectivePredicate with
  | some (.contentFingerprint fingerprint) => .ok fingerprint
  | _ => .error (.badRequest ("append to " ++ path.text ++
      " requires a content_fingerprint precondition naming the base content hash"))

/-- The stored file is not as long as the base. -/
def appendBaseMismatch (path : LogicalPath) (storedSize offset : Nat) : VfsStorageError :=
  .conflict ("append base mismatch for " ++ path.text ++ ": stored size " ++ toString storedSize ++
    " does not equal append offset " ++ toString offset)

/-- What an append finds at its path: the file to extend, or the file it has extended before. -/
def checkAppend (fs : FileSystem) (request : AppendRequest) (abs : Path) (baseHash : String) :
    Except VfsStorageError (Nat ⊕ ExactWriteReplay) :=
  let failed : VfsStorageError :=
    .conflict ("local vfs append precondition failed for " ++ request.path.text)
  let replay : ExactWriteReplay := ⟨request.path, abs, request.expectedContentHash, request.options⟩
  if 2 ^ 64 ≤ request.offset + request.tail.length then
    .error (.badRequest ("append to " ++ request.path.text ++ " overflows the file size"))
  else
    match fs.lstat abs with
    | .ok (.file inode) =>
      let bytes := (fs.data inode).bytes
      if bytes.length ≠ request.offset then
        if bytes.length = request.offset + request.tail.length ∧
            host.hash bytes = request.expectedContentHash then .ok (.inr replay)
        else if host.hash bytes = baseHash then
          .error (appendBaseMismatch request.path bytes.length request.offset)
        else .error failed
      else if host.hash bytes ≠ baseHash then
        if request.tail = [] ∧ host.hash bytes = request.expectedContentHash then .ok (.inr replay)
        else .error failed
      else if host.hash (bytes ++ request.tail) ≠ request.expectedContentHash then
        .error (.conflict ("append content hash mismatch for " ++ request.path.text))
      else .ok (.inl inode)
    | .ok _ | .error .noEntry => .error failed
    | .error errno => .error (internalError errno)

def prepareAppend (request : AppendRequest) : VfsM (Option Prepared) := do
  let baseHash ← inspect fun _ => appendBaseFingerprint request.path request.precondition
  let abs ← inspect fun _ => absPath request.path
  inspect fun fs => assertNoSymlinkAncestor fs abs
  inspect fun fs => assertExpectedFileId host fs request.path request.precondition
  match ← inspect fun fs => checkAppend host fs request abs baseHash with
  | .inr replay =>
    let _ ← completeExactWriteReplays host [replay]
    return none
  | .inl inode =>
    let previousMode ← inspect fun fs =>
      if request.options.isSome then existingRegularFileMode fs abs else .ok none
    return some (.append request abs inode previousMode)

/-- Check a deletion; what is gone need not be deleted. -/
def prepareDelete (path : LogicalPath) (precondition : Option WritePrecondition) :
    VfsM (Option Prepared) := do
  let abs ← inspect fun _ => absPath path
  match ← inspect fun fs => metadataForAbs host fs abs with
  | none =>
    let chain ← inspect fun _ => parentChain host abs
    inspect fun fs => syncDirectoriesDeepestFirst host fs chain
    return none
  | some metadata =>
    inspect fun fs => assertPrecondition host fs path precondition
    match metadata.entry with
    | .directory _ => throw (.badRequest ("vfs path " ++ path.text ++ " is not a file"))
    | _ => return some (.deleteFile path precondition)

/-- Check the preconditions of a call. `none` if there is nothing to install. -/
def check (avoid : List RequestedWrite → List Path) : Call → VfsM (Option Prepared)
  | .write path bytes precondition options =>
    prepareWrites host avoid (Call.write path bytes precondition options).requests
  | .writeManyAtomic writes => prepareWrites host avoid (Call.writeManyAtomic writes).requests
  | .appendFromLocalFile request => prepareAppend host request
  | .createHardLink source destination => return some (.createHardLink source destination)
  | .rename source target => return some (.rename source target)
  | .deleteFile path precondition => prepareDelete host path precondition

def installAppend (request : AppendRequest) (destination : Path) (inode : Nat)
    (previousMode : Option Nat) : VfsM Unit := do
  match ← inspect fun fs => .ok (fs.lstat destination) with
  | .ok (.file opened) =>
    if host.fileId opened ≠ host.fileId inode then
      throw (.conflict ("local VFS write target changed before open: " ++ display host destination))
    perform (fun fs =>
      let bytes := (fs.data opened).bytes
      .ok (fs.rewrite opened (bytes.take request.offset ++ request.tail ++
        bytes.drop (request.offset + request.tail.length)))) internalError
    applyWriteOptions host destination request.options previousMode
  | .ok (.directory _) => throw (internalError .isDirectory)
  | .ok (.symlink _) => throw (internalError .loop)
  | .error errno => throw (internalError errno)

/-- Rename what a path names, if it names anything. -/
def renameWithMetadata (source target : LogicalPath) : VfsM Unit := do
  let sourceAbs ← inspect fun _ => absPath source
  inspect fun fs => assertNoSymlinkAncestor fs sourceAbs
  let targetAbs ← inspect fun _ => absPath target
  inspect fun fs => assertNoSymlinkAncestor fs targetAbs
  let previous ← inspect fun fs => metadataForAbs host fs sourceAbs
  if previous.isSome then
    createDirAll host targetAbs.dropLast internalError
    perform (fun fs => fs.rename sourceAbs targetAbs) internalError
  let sourceChain ← inspect fun _ => parentChain host sourceAbs
  let targetChain ← inspect fun _ => parentChain host targetAbs
  inspect fun fs => syncDirectoriesDeepestFirst host fs (sourceChain ++ targetChain)
  let _ ← inspect fun fs => metadataForAbs host fs targetAbs

/-- Remove a file that passed its check. -/
def installDelete (path : LogicalPath) : VfsM Unit := do
  let abs ← inspect fun _ => absPath path
  inspect fun fs => assertNoSymlinkAncestor fs abs
  perform (fun fs =>
    match fs.unlink abs with
    | .error .noEntry => .ok fs
    | result => result) internalError
  let chain ← inspect fun _ => parentChain host abs
  inspect fun fs => syncDirectoriesDeepestFirst host fs chain

/-- Install what was checked. -/
def install : Prepared → VfsM Unit
  | .writes staged => do
    installStaged host staged
    inspect fun fs => syncDirectoriesDeepestFirst host fs
      (staged.flatMap fun write => write.durabilityDirectories)
  | .append request destination inode previousMode =>
    installAppend host request destination inode previousMode
  | .createHardLink source destination => do
    let sourceAbs ← inspect fun _ => absPath source
    let destinationAbs ← inspect fun _ => absPath destination
    createHardLinkLocked host source destination sourceAbs destinationAbs
  | .rename source target => renameWithMetadata host source target
  | .deleteFile path _ => installDelete host path

end

/-! ## Interleavings -/

/-- How far a call is. A finished call says whether it took effect, or why it failed. -/
inductive Phase
  | ready
  | locking (held waiting : List (Path × Mode))
  | checked (held : List (Path × Mode)) (prepared : Prepared)
  | finished (outcome : Except VfsStorageError Bool)

/-- The locks a call holds. -/
def Phase.held : Phase → List (Path × Mode)
  | .locking held _ | .checked held _ => held
  | .ready | .finished _ => []

/-- The storage and the calls that are under way. -/
structure Traffic where
  fs : FileSystem
  phase : Nat → Phase

/-- Nothing is under way. -/
def Traffic.start (fs : FileSystem) : Traffic := ⟨fs, fun _ => .ready⟩

/-- A step of one of the calls. The keys are looked up beside whatever the hash cache remembers. -/
inductive Move
  | keys (call : Nat) (cached : Path → Option String)
  | acquire (call : Nat)
  | check (call : Nat)
  | install (call : Nat)

/-- The call that takes effect with a step. -/
def Move.installed : Move → Option Nat
  | .install call => some call
  | .keys _ _ | .acquire _ | .check _ => none

/-- Every name that some call uses, and every name above one. A fresh UUID makes none of them. -/
def usedNames (calls : List Call) : List Path :=
  calls.flatMap fun call => call.paths.flatMap fun path => path.parts.inits

def Traffic.next (s : Traffic) (call : Nat) (fs : FileSystem) (phase : Phase) : Traffic :=
  ⟨fs, Function.update s.phase call phase⟩

/-- One step. -/
def exec (host : Host) (calls : List Call) : Move → Traffic → Option Traffic
  | .keys c cached, s =>
    match calls[c]?, s.phase c with
    | some call, .ready =>
      some (s.next c s.fs (.locking [] (lockPaths host cached s.fs call.paths)))
    | _, _ => none
  | .acquire c, s =>
    match s.phase c with
    | .locking held (lock :: waiting) =>
      if ∀ other < calls.length, other ≠ c → Free lock (s.phase other).held then
        some (s.next c s.fs (.locking (lock :: held) waiting))
      else none
    | _ => none
  | .check c, s =>
    match calls[c]?, s.phase c with
    | some call, .locking held [] =>
      match (check host (fun _ => usedNames calls) call).run s.fs with
      | .ok (some prepared) fs => some (s.next c fs (.checked held prepared))
      | .ok none fs => some (s.next c fs (.finished (.ok false)))
      | .error error fs => some (s.next c fs (.finished (.error error)))
    | _, _ => none
  | .install c, s =>
    match s.phase c with
    | .checked _ prepared =>
      match (install host prepared).run s.fs with
      | .ok () fs => some (s.next c fs (.finished (.ok true)))
      | .error error fs => some (s.next c fs (.finished (.error error)))
    | _ => none

end Chevalier.Vfs
