import Chevalier.Foundations.Calls
import Chevalier.Foundations.Posix

/-!
# Local storage

`LocalVfsStorage` keeps a tree of entries in a directory of the host. A caller's path is the list of
its slash-separated parts, as it was spelled: empty and `.` parts are skipped when the path is
resolved, and `..` is refused. `VfsM` is a call on the storage: it reads and changes the file system
under the root, and an error keeps the changes made before it.

The process is taken to be privileged (no permission check fails), and the host to be free of
faults: a call fails only for a reason that lies in the tree and the request. `Host` collects what
the storage takes from elsewhere: the content hash, the file mode mask, where the links of a tree
lead, the order of a directory's names, the identities of inodes, and names for staging files.
-/

namespace Chevalier.Vfs

open Posix

/-! ## Requests and errors -/

/-- A caller's path, part by part, as it was spelled. -/
abbrev LogicalPath := List String

def LogicalPath.text (path : LogicalPath) : String := "/".intercalate path

/-- What a storage call fails with. -/
inductive VfsStorageError
  | badRequest (message : String)
  | notFound (message : String)
  | conflict (message : String)
  | internal (message : String)
deriving DecidableEq, Repr

/-- What a write expects at its path. -/
inductive CasPredicate
  | absent
  | contentFingerprint (fingerprint : String)
deriving DecidableEq, Repr

/-- The precondition of a write. The version of an index-backed store is not looked at here. -/
structure WritePrecondition where
  predicate : Option CasPredicate
  fingerprint : Option String
  secondaryFingerprint : Option String
  expectedFileId : Option String
deriving DecidableEq, Repr

namespace WritePrecondition

/-- The path names nothing yet. -/
def absent : WritePrecondition where
  predicate := some .absent
  fingerprint := none
  secondaryFingerprint := none
  expectedFileId := none

/-- The typed predicate, or the one the older fields spell. A precondition that names neither a
fingerprint nor an identity asks for an absent path, as it did before there was a typed predicate. -/
def effectivePredicate (precondition : WritePrecondition) : Option CasPredicate :=
  precondition.predicate <|>
    ((precondition.fingerprint <|> precondition.secondaryFingerprint).map fun fingerprint =>
      if fingerprint = "absent" then .absent else .contentFingerprint fingerprint) <|>
    (if precondition.expectedFileId.isNone then some .absent else none)

end WritePrecondition

/-- The mode a write asks for. -/
structure WriteOptions where
  executable : Bool
  mode : Option Nat
deriving DecidableEq, Repr

/-- One write of a batch; its mode is used only if the write creates the path. -/
structure VfsStorageWrite where
  path : LogicalPath
  bytes : Bytes
  precondition : Option WritePrecondition
  mode : Option Nat
deriving DecidableEq, Repr

/-! ## The host -/

/-- What a path leads to when its links are followed; in scope is a file or directory below the
root. -/
inductive Referent
  | found (isDirectory inScope : Bool)
  | missing
  | unreadable
deriving DecidableEq, Repr

/-- A write of a new file whose directory was not synced when its call failed. -/
structure IncompleteAbsentWrite where
  contentHash : String
  fileId : Option String
  options : Option WriteOptions
deriving DecidableEq, Repr

def stagingName (name uuid : String) : String := "." ++ name ++ "." ++ uuid ++ ".tmp"

def stagingPath (destination : Path) (uuid : String) : Path :=
  destination.dropLast ++ [stagingName (destination.getLast?.getD "vfs") uuid]

/-- What the storage takes from elsewhere. A fresh UUID makes a name that is neither in use nor one
of the names it is to avoid. -/
structure Host where
  root : String
  rootParts : List String
  rootParent : String
  umask : Nat
  hash : Bytes → String
  hash_ne_absent : ∀ bytes, hash bytes ≠ "absent"
  follow : FileSystem → Path → Referent
  fileId : Nat → Option String
  entryId : FileSystem → Path → Option String
  fileId_inj : ∀ inode other id, fileId inode = some id → fileId other = some id → inode = other
  readDir : FileSystem → Path → List String
  mem_readDir : ∀ (fs : FileSystem) path name,
    name ∈ readDir fs path ↔ (fs.node (path ++ [name])).isSome
  uuid : FileSystem → List Path → Path → String
  uuid_fresh : ∀ (fs : FileSystem) avoid destination,
    fs.node (stagingPath destination (uuid fs avoid destination)) = none
  uuid_avoids : ∀ fs avoid destination,
    stagingPath destination (uuid fs avoid destination) ∉ avoid
  incompleteAbsentWrites : Path → Option IncompleteAbsentWrite

def errnoText : Errno → String
  | .noEntry => "No such file or directory (os error 2)"
  | .entryExists => "File exists (os error 17)"
  | .notDirectory => "Not a directory (os error 20)"
  | .isDirectory => "Is a directory (os error 21)"
  | .notEmpty => "Directory not empty (os error 39)"
  | .invalidArgument => "Invalid argument (os error 22)"
  | .notPermitted => "Operation not permitted (os error 1)"
  | .busy => "Device or resource busy (os error 16)"
  | .loop => "Too many levels of symbolic links (os error 40)"

/-- An error of the host that has no meaning of its own. -/
def internalError (errno : Errno) : VfsStorageError := .internal (errnoText errno)

/-- A symbolic link where none is served. -/
def unsupportedSymlinkError : VfsStorageError := .badRequest "unsupported file type: symlink"

/-! ## Calls -/

/-- A call on the storage. What it changed before an error stays changed. -/
abbrev VfsM := EStateM VfsStorageError FileSystem

open Calls

/-- The path without the slashes around it. -/
def LogicalPath.trimSlashes (path : LogicalPath) : LogicalPath :=
  ((path.dropWhile (· = "")).reverse.dropWhile (· = "")).reverse

/-- The parts of a path that name something. -/
def LogicalPath.parts (path : LogicalPath) : Path := path.filter fun part => part ≠ "" ∧ part ≠ "."

/-- Resolve a caller's path below the root. -/
def absPath (path : LogicalPath) : Except VfsStorageError Path :=
  if ".." ∈ path then .error (.badRequest ("invalid vfs path: " ++ path.trimSlashes.text))
  else .ok path.parts

/-- The names strictly between the root and a path. -/
def properFronts (path : Path) : List Path := path.inits.tail.dropLast

/-- Refuse a symbolic link among the names; the first one that does not exist ends the walk. -/
def refuseSymlinks (fs : FileSystem) : List Path → Except VfsStorageError Unit
  | [] => .ok ()
  | front :: rest =>
    match fs.lstat front with
    | .ok (.symlink _) => .error unsupportedSymlinkError
    | .ok _ => refuseSymlinks fs rest
    | .error .noEntry => .ok ()
    | .error errno => .error (internalError errno)

/-- No name above the path is a symbolic link. -/
def assertNoSymlinkAncestor (fs : FileSystem) (path : Path) : Except VfsStorageError Unit :=
  refuseSymlinks fs (properFronts path)

/-- The permission bits of a mode. -/
def normalizeVfsMode (mode : Nat) : Nat := mode &&& 0o7777

def withoutExecute (mode : Nat) : Nat := mode &&& (0o7777 - 0o111)

section

variable (host : Host)

/-- The parts of a path that is given as text. -/
def textParts (text : String) : List String := (text.toList.splitOn '/').map String.ofList

/-- Resolve `.` and `..` without looking at the file system. -/
def lexicalNormalize (parts : List String) : List String :=
  parts.foldl (fun out part =>
    if part = "" ∨ part = "." then out
    else if part = ".." then out.dropLast
    else out ++ [part]) []

/-- The number of leading parts two paths share. -/
def commonParts : List String → List String → Nat
  | part :: rest, part' :: rest' => if part = part' then commonParts rest rest' + 1 else 0
  | _, _ => 0

/-- The relative text that leads from a directory to a target. -/
def relativePathBetween (fromDir target : Path) : String :=
  let common := commonParts fromDir target
  let parts := List.replicate (fromDir.length - common) ".." ++ target.drop common
  if parts = [] then "." else "/".intercalate parts

/-- The text a link's target is served as: relative and normal if it leads to something in scope, as
authored otherwise. -/
def linkText (fs : FileSystem) (path : Path) (target : String) : String :=
  let linkParent := path.dropLast
  let resolved :=
    if target.toList.head? = some '/' then lexicalNormalize (textParts target)
    else lexicalNormalize (host.rootParts ++ linkParent ++ textParts target)
  if host.rootParts <+: resolved then
    let resolvedRel := resolved.drop host.rootParts.length
    match host.follow fs resolvedRel with
    | .found _ true | .missing => relativePathBetween linkParent resolvedRel
    | .found _ false | .unreadable => target
  else target

/-- The text a link's target is served as; an empty one is refused. -/
def validateSymlinkTargetText (fs : FileSystem) (path : Path) (target : String) :
    Except VfsStorageError String :=
  if target = "" then .error unsupportedSymlinkError else .ok (linkText host fs path target)

/-- What a path names, with the served text of a link and the hash of a file. -/
structure Metadata where
  entry : Node
  linkTarget : Option String
  contentHash : Option String
deriving DecidableEq, Repr

/-- What a path names, if anything. -/
def metadataForAbs (fs : FileSystem) (path : Path) :
    Except VfsStorageError (Option Metadata) := do
  assertNoSymlinkAncestor fs path
  match fs.lstat path with
  | .ok (.symlink target) =>
    let text ← validateSymlinkTargetText host fs path target
    return some ⟨.symlink target, some text, none⟩
  | .ok (.file inode) => return some ⟨.file inode, none, some (host.hash (fs.data inode).bytes)⟩
  | .ok (.directory mode) => return some ⟨.directory mode, none, none⟩
  | .error .noEntry => return none
  | .error errno => .error (internalError errno)

/-- The identity of what a path names. -/
def localFileId (fs : FileSystem) (path : Path) : Option String :=
  match fs.node path with
  | some (.file inode) => host.fileId inode
  | _ => host.entryId fs path

/-- The fingerprint of what a path names; a directory counts as absent. -/
def fingerprintOf (fs : FileSystem) (path : Path) : Except VfsStorageError String := do
  assertNoSymlinkAncestor fs path
  match fs.lstat path with
  | .ok (.symlink target) =>
    let text ← validateSymlinkTargetText host fs path target
    return "symlink:" ++ host.hash text.toUTF8.toList
  | .ok (.file inode) => return host.hash (fs.data inode).bytes
  | .ok (.directory _) => return "absent"
  | .error .noEntry => return "absent"
  | .error errno => .error (internalError errno)

/-- The predicate that holds of a path now. -/
def writePrecondition (fs : FileSystem) (path : LogicalPath) :
    Except VfsStorageError CasPredicate := do
  let abs ← absPath path
  let fingerprint ← fingerprintOf host fs abs
  return if fingerprint = "absent" then .absent else .contentFingerprint fingerprint

def assertExpectedFileId (fs : FileSystem) (path : LogicalPath) (precondition : WritePrecondition) :
    Except VfsStorageError Unit :=
  match precondition.expectedFileId with
  | none => .ok ()
  | some expected => do
    let abs ← absPath path
    assertNoSymlinkAncestor fs abs
    let actual ← match fs.lstat abs with
      | .ok _ => pure (localFileId host fs abs)
      | .error .noEntry => pure none
      | .error errno => .error (internalError errno)
    if actual = some expected then .ok ()
    else .error (.conflict ("local vfs write identity precondition failed for " ++ path.text))

/-- The precondition holds. -/
def assertPrecondition (fs : FileSystem) (path : LogicalPath) :
    Option WritePrecondition → Except VfsStorageError Unit
  | none => .ok ()
  | some precondition => do
    assertExpectedFileId host fs path precondition
    match precondition.effectivePredicate with
    | none => .ok ()
    | some expected =>
      let actual ← writePrecondition host fs path
      if actual = expected then .ok ()
      else .error (.conflict ("local vfs write precondition failed for " ++ path.text))

def existingRegularFileMode (fs : FileSystem) (path : Path) :
    Except VfsStorageError (Option Nat) :=
  match fs.lstat path with
  | .ok (.file inode) => .ok (some (normalizeVfsMode (fs.data inode).mode))
  | .ok _ => .ok none
  | .error .noEntry => .ok none
  | .error errno => .error (internalError errno)

def display (path : Path) : String := "/".intercalate (host.root :: path)

/-- Set the mode of a file or directory; `false` when there is none and none is needed. -/
def applyExactMode (path : Path) (mode : Nat) (allowMissing : Bool) : VfsM Bool := do
  match ← inspect fun fs => .ok (fs.lstat path) with
  | .error .noEntry =>
    if allowMissing then return false else throw (.notFound (display host path))
  | .error errno => throw (internalError errno)
  | .ok (.symlink _) =>
    throw (.badRequest ("POSIX mode changes require a regular file or directory: " ++
      display host path))
  | .ok _ =>
    perform (fun fs => fs.chmod path (normalizeVfsMode mode)) internalError
    return true

/-- The mode options ask for, given the mode now and the mode before the write. -/
def WriteOptions.targetMode (options : WriteOptions) (previousMode : Option Nat)
    (currentMode : Nat) : Nat :=
  match options.mode with
  | some mode => normalizeVfsMode mode
  | none =>
    match previousMode, options.executable with
    | some mode, true => mode ||| 0o111
    | some mode, false => withoutExecute mode
    | none, true => 0o755
    | none, false => withoutExecute currentMode

def entryMode (fs : FileSystem) : Node → Nat
  | .directory mode => mode
  | .file inode => (fs.data inode).mode
  | .symlink _ => 0o777

def currentMode (fs : FileSystem) (path : Path) : Except VfsStorageError Nat :=
  match fs.lstat path with
  | .ok entry => .ok (normalizeVfsMode (entryMode fs entry))
  | .error errno => .error (internalError errno)

/-- Give a written file the mode its options ask for. -/
def applyWriteOptions (path : Path) (options : Option WriteOptions) (previousMode : Option Nat) :
    VfsM Unit :=
  match options with
  | none => return ()
  | some options => do
    let mode ← inspect fun fs => currentMode fs path
    let _ ← applyExactMode host path (options.targetMode previousMode mode) false

def newDirectoryMode : Nat := 0o777 &&& (0o7777 - host.umask)

/-- `mkdir -p`: create a directory and the missing ones above it. A link to a directory will do. -/
def mkdirAll (fs : FileSystem) (path : Path) : Except Errno FileSystem :=
  match fs.node path, host.follow fs path with
  | some (.symlink _), .found true _ => .ok fs
  | _, _ => fs.createDirAll path (newDirectoryMode host)

/-- Create a directory and the missing ones above it. -/
def createDirAll (path : Path) (onError : Errno → VfsStorageError) : VfsM Unit :=
  perform (fun fs => mkdirAll host fs path) onError

end

/-! ## A reference host -/

/-- The number of characters of a path. -/
def weight (path : Path) : Nat := (path.map String.length).sum

/-- The names in a directory, in order. -/
def childNames (fs : FileSystem) (path : Path) : List String :=
  ((fs.names.filter fun other => other ≠ [] ∧ other.dropLast = path).image
    fun other => other.getLastD "").sort (· ≤ ·)

theorem mem_childNames (fs : FileSystem) (path : Path) (name : String) :
    name ∈ childNames fs path ↔ (fs.node (path ++ [name])).isSome := by
  unfold childNames
  rw [Finset.mem_sort, Finset.mem_image, ← fs.mem_names]
  constructor
  · rintro ⟨o, ho, rfl⟩
    obtain ⟨hmem, hne, rfl⟩ := Finset.mem_filter.1 ho
    obtain ⟨_, _, rfl⟩ := (List.eq_nil_or_concat o).resolve_left hne
    simpa using hmem
  · intro hmem
    exact ⟨path ++ [name], Finset.mem_filter.2 ⟨hmem, by simp, by simp⟩, by simp⟩

/-- A name part that is longer than every path in use or to be avoided. -/
def longUuid (fs : FileSystem) (avoid : List Path) : String :=
  String.ofList (List.replicate (fs.names.sup weight + (avoid.map weight).sum + 1) '0')

theorem weight_lt_stagingPath (fs : FileSystem) (a : List Path) (d : Path) :
    fs.names.sup weight + (a.map weight).sum < weight (stagingPath d (longUuid fs a)) := by
  simp [weight, stagingPath, stagingName, longUuid]
  omega

/-- A host whose links lead nowhere. -/
def Host.reference : Host where
  root := "/srv/vfs"
  rootParts := ["srv", "vfs"]
  rootParent := "/srv"
  umask := 0o022
  hash bytes := "#" ++ String.ofList (bytes.map fun byte => Char.ofNat (byte.toNat + 256))
  hash_ne_absent bytes heq := by
    have hlist := congrArg String.toList heq
    rw [String.toList_append] at hlist
    exact absurd (List.head_eq_of_cons_eq hlist) (by decide)
  follow fs path := match fs.node path with
    | some (.directory _) => .found true true
    | some (.file _) => .found false true
    | _ => .missing
  fileId inode := some (String.ofList (List.replicate inode '1'))
  entryId _ _ := none
  fileId_inj inode other id hinode hother := by
    have heq := congrArg String.length (Option.some.inj (hinode.trans hother.symm))
    simpa using heq
  readDir := childNames
  mem_readDir := mem_childNames
  uuid fs avoid _ := longUuid fs avoid
  uuid_fresh fs avoid destination := by
    by_contra hne
    have hmem := (fs.mem_names _).2 (Option.isSome_iff_ne_none.2 hne)
    have hle := Finset.le_sup (f := weight) hmem
    have hlt := weight_lt_stagingPath fs avoid destination
    omega
  uuid_avoids fs avoid destination hmem := by
    have hle : weight (stagingPath destination (longUuid fs avoid)) ≤ (avoid.map weight).sum :=
      List.single_le_sum (fun _ _ => Nat.zero_le _) _ (List.mem_map_of_mem hmem)
    have hlt := weight_lt_stagingPath fs avoid destination
    omega
  incompleteAbsentWrites _ := none

end Chevalier.Vfs
