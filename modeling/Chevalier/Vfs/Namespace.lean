import Chevalier.Vfs.Write

/-!
# Namespace batches

`applyNamespaceBatch` checks the deletions of a batch against the tree it finds, applies the
mutations one after the other, and syncs the directories they touched. Which directories those are
depends on the mutations alone (`touch`).

A rename whose destination holds the same contents as its source is taken for the replay of one that
was made before: the destination gets the modes of the source, and the source is removed.
-/

namespace Chevalier.Vfs

open Posix Calls

/-- A change of the namespace. -/
inductive NamespaceMutation
  | createFile (path : LogicalPath) (mode : Option Nat)
  | createDirectory (path : LogicalPath) (mode : Option Nat)
  | createSymlink (path : LogicalPath) (target : String)
  | createHardLink (sourcePath destinationPath : LogicalPath)
  | deleteFile (path : LogicalPath) (precondition : Option WritePrecondition)
  | removeDirectory (path : LogicalPath)
  | setMode (path : LogicalPath) (mode : Nat)
  | rename (source target : LogicalPath)
deriving DecidableEq, Repr

variable (host : Host)

/-! ## Deletions are checked first -/

/-- A deletion finds a file that meets its precondition, or nothing. -/
def preflightDelete (fs : FileSystem) (path : LogicalPath)
    (precondition : Option WritePrecondition) : Except VfsStorageError Unit := do
  let abs ← absPath path
  let current ← metadataForAbs host fs abs
  match current with
  | none => return ()
  | some metadata => do
    assertPrecondition host fs path precondition
    match metadata.entry with
    | .directory _ => .error (.badRequest ("vfs path " ++ path.text ++ " is not a file"))
    | _ => return ()

/-- Every deletion of a batch finds a file that meets its precondition, or nothing. -/
def preflight (fs : FileSystem) : List NamespaceMutation → Except VfsStorageError Unit
  | [] => .ok ()
  | .deleteFile path precondition :: rest => do
    preflightDelete host fs path precondition
    preflight fs rest
  | _ :: rest => preflight fs rest

/-! ## Touched directories -/

/-- The directories from the root to the one a path lies in. -/
def parentChain (path : Path) : Except VfsStorageError (List Path) :=
  if path = [] then
    .error (.internal ("local VFS durability path " ++ host.rootParent ++ " escaped root " ++
      host.root ++ ": prefix not found"))
  else .ok path.dropLast.inits

/-- Touched directories move along with a rename. -/
def remapTouched (source target : Path) (touched : List Path) : List Path :=
  touched.map fun path =>
    if source <+: path then FileSystem.movedFrom target source path else path

/-! ## Renames that were made before -/

def allNames (check : String → Except VfsStorageError Bool) :
    List String → Except VfsStorageError Bool
  | [] => .ok true
  | name :: rest => do
    let same ← check name
    if same then allNames check rest else return false

/-- Two names hold the same contents: equal link texts, files of equal length and hash, or
directories of the same names with the same contents. The depth bounds the descent. -/
def pathsHaveEquivalentContents (fs : FileSystem) :
    Nat → Path → Path → Except VfsStorageError Bool
  | 0, _, _ => .ok false
  | depth + 1, left, right =>
    match fs.lstat left, fs.lstat right with
    | .error errno, _ => .error (internalError errno)
    | _, .error errno => .error (internalError errno)
    | .ok (.symlink text), .ok (.symlink text') => .ok (text = text')
    | .ok (.file inode), .ok (.file inode') =>
      .ok ((fs.data inode).bytes.length = (fs.data inode').bytes.length ∧
        host.hash (fs.data inode).bytes = host.hash (fs.data inode').bytes)
    | .ok (.directory _), .ok (.directory _) =>
      let names := (host.readDir fs left).insertionSort (· ≤ ·)
      if names = (host.readDir fs right).insertionSort (· ≤ ·) then
        allNames (fun name => pathsHaveEquivalentContents fs depth (left ++ [name])
          (right ++ [name])) names
      else .ok false
    | _, _ => .ok false

/-- No path is longer. -/
def depthBound (fs : FileSystem) : Nat := fs.names.sup List.length + 1

def forNames (call : String → VfsM Unit) : List String → VfsM Unit
  | [] => return ()
  | name :: rest => do
    call name
    forNames call rest

/-- Give the destination the modes of the source, all the way down. -/
def syncPathPermissions : Nat → Path → Path → VfsM Unit
  | 0, _, _ => return ()
  | depth + 1, source, destination => do
    match ← inspect fun fs => .ok (fs.lstat source) with
    | .error errno => throw (internalError errno)
    | .ok (.symlink _) => return ()
    | .ok (.file inode) =>
      perform (fun fs => fs.chmod destination (fs.data inode).mode) internalError
    | .ok (.directory mode) =>
      perform (fun fs => fs.chmod destination mode) internalError
      let names ← inspect fun fs => .ok (host.readDir fs source)
      forNames (fun name => syncPathPermissions depth (source ++ [name]) (destination ++ [name]))
        names

/-- Remove the source of a rename that was made before. -/
def removePathForReplayedRename (path : Path) : VfsM Unit := do
  match ← inspect fun fs => .ok (fs.lstat path) with
  | .error errno => throw (internalError errno)
  | .ok (.directory _) => perform (fun fs => fs.removeTree path) internalError
  | .ok _ => perform (fun fs => fs.unlink path) internalError

/-! ## Mutations -/

/-- Create an empty file where nothing is. -/
def createFile (path : LogicalPath) (mode : Option Nat) : VfsM Unit := do
  let _ ← installWritesWithOptions host
    [(⟨path, [], some .absent, none⟩, some ⟨mode.any fun mode => mode &&& 0o111 ≠ 0, mode⟩)]

/-- A file where a directory is to be made is a conflict. -/
def blockedError (path : LogicalPath) (errno : Errno) : VfsStorageError :=
  match errno with
  | .entryExists | .notDirectory =>
    .conflict ("vfs path " ++ path.text ++ " is blocked by a non-directory: " ++ errnoText errno)
  | _ => internalError errno

/-- Create a directory and the missing ones above it. -/
def createDirectory (path : LogicalPath) (abs : Path) (mode : Option Nat) : VfsM Unit := do
  inspect fun fs => assertNoSymlinkAncestor fs abs
  createDirAll host abs (blockedError path)
  match mode with
  | none => return ()
  | some mode => let _ ← applyExactMode host abs mode false

/-- Make a link with the text its target is served as. -/
def createSymlinkImpl (abs : Path) (target : String) : VfsM Unit := do
  inspect fun fs => assertNoSymlinkAncestor fs abs
  createDirAll host abs.dropLast internalError
  let text ← inspect fun fs => validateSymlinkTargetText host fs abs target
  perform (fun fs => fs.symlink text abs) internalError

/-- Create a symbolic link, unless it is there. -/
def createSymlink (path : LogicalPath) (abs : Path) (target : String) : VfsM Unit := do
  let canonical ← inspect fun fs => validateSymlinkTargetText host fs abs target
  match ← inspect fun fs => metadataForAbs host fs abs with
  | some metadata =>
    if metadata.linkTarget = some canonical then return ()
    else throw (.conflict ("vfs path " ++ path.text ++ " already exists"))
  | none => createSymlinkImpl host abs target

/-- What a failing `link` means. -/
def linkError (source destination : LogicalPath) : Errno → VfsStorageError
  | .entryExists => .conflict ("vfs hard-link destination already exists: " ++ destination.text)
  | .noEntry => .notFound source.text
  | errno => internalError errno

/-- Create a hard link, unless it is there. -/
def createHardLinkLocked (source destination : LogicalPath) (sourceAbs destinationAbs : Path) :
    VfsM Unit := do
  inspect fun fs => assertNoSymlinkAncestor fs sourceAbs
  inspect fun fs => assertNoSymlinkAncestor fs destinationAbs
  match ← inspect fun fs => .ok (fs.lstat sourceAbs) with
  | .error .noEntry => throw (.notFound source.text)
  | .error errno => throw (internalError errno)
  | .ok (.directory _) | .ok (.symlink _) =>
    throw (.badRequest ("vfs hard-link source " ++ source.text ++ " is not a regular file"))
  | .ok (.file inode) =>
    match ← inspect fun fs => .ok (fs.node destinationAbs) with
    | some (.file inode') =>
      if host.fileId inode ≠ host.fileId inode' ∨ host.fileId inode = none then
        throw (linkError source destination .entryExists)
      else inspect fun fs => syncDirectoriesDeepestFirst host fs destinationAbs.dropLast.inits
    | some _ => throw (linkError source destination .entryExists)
    | none =>
      createDirAll host destinationAbs.dropLast internalError
      perform (fun fs => fs.link sourceAbs destinationAbs) (linkError source destination)
      inspect fun fs => syncDirectoriesDeepestFirst host fs destinationAbs.dropLast.inits

/-- Remove a file, unless it is gone. -/
def deleteFile (path : LogicalPath) (abs : Path) : VfsM Unit := do
  inspect fun fs => assertNoSymlinkAncestor fs abs
  let _ ← inspect fun _ => parentChain host abs
  perform (fun fs =>
    match fs.unlink abs with
    | .error .noEntry => .ok fs
    | result => result) fun errno =>
      match errno with
      | .isDirectory => .conflict ("vfs path " ++ path.text ++ " is a directory, not a file")
      | errno => internalError errno

/-- Remove a directory, unless it is gone. -/
def removeDirectory (path : LogicalPath) (abs : Path) : VfsM Unit := do
  inspect fun fs => assertNoSymlinkAncestor fs abs
  let _ ← inspect fun _ => parentChain host abs
  perform (fun fs =>
    match fs.rmdir abs with
    | .error .noEntry => .ok fs
    | result => result) fun errno =>
      match errno with
      | .notEmpty => .conflict ("vfs directory " ++ path.text ++ " is not empty")
      | .notDirectory => .conflict ("vfs path " ++ path.text ++ " is not a directory")
      | errno => internalError errno

/-- Set the mode of what a path names, if it names anything. -/
def setMode (abs : Path) (mode : Nat) : VfsM Unit := do
  inspect fun fs => assertNoSymlinkAncestor fs abs
  let _ ← applyExactMode host abs mode true

/-- What a failing `rename` means. -/
def renameError (source target : LogicalPath) (errno : Errno) : VfsStorageError :=
  match errno with
  | .notEmpty | .notDirectory | .isDirectory =>
    .conflict ("cannot replay rename " ++ source.text ++ " -> " ++ target.text ++
      ": destination kind conflicts (" ++ errnoText errno ++ ")")
  | errno => internalError errno

/-- The destination of a rename exists, its links followed, and holds the same contents. -/
def renameWasMade (fs : FileSystem) (source target : Path) : Except VfsStorageError Bool :=
  match host.follow fs target with
  | .found _ _ => pathsHaveEquivalentContents host fs (depthBound fs) source target
  | .missing | .unreadable => .ok false

/-- Rename what a path names, if it names anything. -/
def rename (source target : LogicalPath) (sourceAbs targetAbs : Path) : VfsM Unit := do
  inspect fun fs => assertNoSymlinkAncestor fs sourceAbs
  inspect fun fs => assertNoSymlinkAncestor fs targetAbs
  let _ ← inspect fun _ => parentChain host sourceAbs
  let _ ← inspect fun _ => parentChain host targetAbs
  match ← inspect fun fs => .ok (fs.lstat sourceAbs) with
  | .error .noEntry => return ()
  | .error errno => throw (internalError errno)
  | .ok _ =>
    let made ← inspect fun fs => renameWasMade host fs sourceAbs targetAbs
    if made then
      let depth ← inspect fun fs => .ok (depthBound fs)
      syncPathPermissions host depth sourceAbs targetAbs
      removePathForReplayedRename sourceAbs
    else
      createDirAll host targetAbs.dropLast internalError
      perform (fun fs => fs.rename sourceAbs targetAbs) (renameError source target)

def applyMutation : NamespaceMutation → VfsM Unit
  | .createFile path mode => createFile host path mode
  | .createDirectory path mode => do
    let abs ← inspect fun _ => absPath path
    createDirectory host path abs mode
  | .createSymlink path target => do
    let abs ← inspect fun _ => absPath path
    createSymlink host path abs target
  | .createHardLink source destination => do
    let sourceAbs ← inspect fun _ => absPath source
    let destinationAbs ← inspect fun _ => absPath destination
    createHardLinkLocked host source destination sourceAbs destinationAbs
  | .deleteFile path _ => do
    let abs ← inspect fun _ => absPath path
    deleteFile host path abs
  | .removeDirectory path => do
    let abs ← inspect fun _ => absPath path
    removeDirectory host path abs
  | .setMode path mode => do
    let abs ← inspect fun _ => absPath path
    setMode host abs mode
  | .rename source target => do
    let sourceAbs ← inspect fun _ => absPath source
    let targetAbs ← inspect fun _ => absPath target
    rename host source target sourceAbs targetAbs

def touch (touched : List Path) : NamespaceMutation → Except VfsStorageError (List Path)
  | .createFile path _ => do
    let abs ← absPath path
    let chain ← parentChain host abs
    return touched ++ chain
  | .createDirectory path mode => do
    let abs ← absPath path
    match mode with
    | none => return touched ++ abs.inits
    | some _ =>
      let chain ← parentChain host abs
      return touched ++ chain
  | .createSymlink path _ => do
    let abs ← absPath path
    let chain ← parentChain host abs
    return touched.filter (fun directory => ¬ abs <+: directory) ++ chain
  | .createHardLink _ destination => do
    let abs ← absPath destination
    let chain ← parentChain host abs
    return touched ++ chain
  | .deleteFile path _ | .removeDirectory path => do
    let abs ← absPath path
    let chain ← parentChain host abs
    return touched ++ chain
  | .setMode _ _ => return touched
  | .rename source target => do
    let sourceAbs ← absPath source
    let targetAbs ← absPath target
    let sourceChain ← parentChain host sourceAbs
    let targetChain ← parentChain host targetAbs
    return remapTouched sourceAbs targetAbs (touched ++ sourceChain ++ targetChain)

/-- Apply mutations in order; the result is what they touched. -/
def applyMutations (touched : List Path) : List NamespaceMutation → VfsM (List Path)
  | [] => return touched
  | mutation :: rest => do
    applyMutation host mutation
    let touched ← inspect fun _ => touch host touched mutation
    applyMutations touched rest

def applyNamespaceBatch (mutations : List NamespaceMutation) : VfsM Unit := do
  inspect fun fs => preflight host fs mutations
  let touched ← applyMutations host [] mutations
  inspect fun fs => syncDirectoriesDeepestFirst host fs touched

end Chevalier.Vfs
