import Chevalier.LocalView.Types
import Chevalier.Foundations.LinkedStore

/-!
# Publication requests and the replica they change

`PublishEvent` is an event as the publisher holds it, with the append generations folded onto it.
`namespaceMutationFor` and `contentWriteFor` are the requests the publisher sends for one.

The replica behind the gateway is outside the repository. Its tree is a `LinkedStore` of files,
directories and symbolic links in which several names may be links to one file, and a request acts
on it as the gateway contract says: a write applies its mode only when it creates the file, an
append needs its base, a creation needs the name to be free, and a write or a mode change through
one name is seen through every link. What the gateway decides by itself (content fingerprints, file
ids) and the payload bytes it is sent are parameters, collected in `PublishEnv`.
-/

namespace Chevalier.LocalView

/-! ## Events as the publisher holds them -/

/-- An event together with the append generations folded onto it, oldest first. -/
structure PublishEvent where
  event : MountEvent
  foldedAppends : List MountEvent
deriving DecidableEq, Repr

/-- An event read from the log carries no folded appends. -/
def MountEvent.toPublish (event : MountEvent) : PublishEvent := ⟨event, []⟩

namespace PublishEvent

def mutation (event : PublishEvent) : MountMutation := event.event.mutation

/-- The log sequence of the event itself. -/
def sequence (event : PublishEvent) : Nat := event.event.sequence

def dependencyKeys (event : PublishEvent) : List DependencyKey := event.mutation.dependencyKeys

/-- Own payload followed by every folded append's, in upload order. -/
def payloadChain (event : PublishEvent) : List PayloadRef :=
  event.event.payload.toList ++ event.foldedAppends.filterMap MountEvent.payload

/-- Bytes the event uploads. -/
def wirePayloadLength (event : PublishEvent) : Nat :=
  (event.payloadChain.map PayloadRef.length).sum

/-- Size and hash of the file once this content event is published. -/
def publishedContent (event : PublishEvent) : Option (Nat × String) :=
  let last := event.foldedAppends.getLast?.getD event.event
  match last.mutation with
  | .appendFile _ _ _ _ size contentHash => some (size, contentHash)
  | .replaceFile .. => last.payload.map fun payload => (payload.length, payload.contentHash)
  | _ => none

end PublishEvent

/-! ## The replica -/

/-- One entry of the replica. -/
inductive RemoteNode
  | directory (mode : Nat)
  | file (mode : Nat) (bytes : List UInt8)
  | symlink (target : String)
deriving DecidableEq, Repr

namespace RemoteNode

/-- The entry is a directory. -/
def isDirectory : RemoteNode → Bool
  | directory _ => true
  | _ => false

/-- The entry is a regular file. -/
def isFile : RemoteNode → Bool
  | file .. => true
  | _ => false

/-- Change the permission bits. -/
def setMode (mode : Nat) : RemoteNode → RemoteNode
  | directory _ => directory mode
  | file _ bytes => file mode bytes
  | symlink target => symlink target

/-- Replace the bytes of a file; its mode stays. -/
def setBytes (bytes : List UInt8) : RemoteNode → RemoteNode
  | file mode _ => file mode bytes
  | node => node

def appendBytes (bytes : List UInt8) : RemoteNode → RemoteNode
  | file mode old => file mode (old ++ bytes)
  | node => node

end RemoteNode

/-- The replica's tree. -/
abbrev RemoteTree := LinkedStore MountPath RemoteNode

namespace RemoteTree

variable (tree : RemoteTree) (path : MountPath)

/-- The mount root is a directory; any other path is one when its entry is. -/
def IsDirectory : Prop := path = [] ∨ (tree.node path).any RemoteNode.isDirectory = true

/-- Nothing exists at the path or below it. -/
def Vacant : Prop := ∀ k ∈ tree.names, ¬ path <+: k

/-- Nothing exists strictly below the path. -/
def VacantBelow : Prop := ∀ k ∈ tree.names, path <+: k → k = path

instance : Decidable (IsDirectory tree path) := inferInstanceAs (Decidable (_ ∨ _))
instance : Decidable (Vacant tree path) := inferInstanceAs (Decidable (∀ k ∈ _, _))
instance : Decidable (VacantBelow tree path) := inferInstanceAs (Decidable (∀ k ∈ _, _))

/-- A name that can be created: free, in an existing directory. -/
def Creatable : Prop := Vacant tree path ∧ IsDirectory tree path.dropLast

instance : Decidable (Creatable tree path) := inferInstanceAs (Decidable (_ ∧ _))

end RemoteTree

/-- What the publisher and the gateway take from elsewhere. -/
structure PublishEnv where
  /-- The bytes the payload store holds for a reference. -/
  payloadBytes : PayloadRef → List UInt8
  /-- The gateway's content fingerprint. -/
  fingerprint : List UInt8 → String
  /-- The gateway's file identity of a name is the given one. -/
  fileIdIs : RemoteTree → MountPath → String → Bool

/-- One mutation of a `namespace-many` request. -/
inductive VfsNamespaceMutation
  | createFile (path : MountPath) (mode : Nat)
  | createDirectory (path : MountPath) (mode : Nat)
  | createSymlink (path : MountPath) (target : String)
  | createHardLink (sourcePath destinationPath : MountPath)
  | deleteFile (path : MountPath) (expectedFileId : Option String)
  | removeDirectory (path : MountPath)
  | rename (fromPath toPath : MountPath)
  | setMode (path : MountPath) (mode : Nat)
deriving DecidableEq, Repr

/-- One content upload: a whole-file write or an append. -/
inductive ContentWrite
  | replace (path : MountPath) (mode : Nat) (bytes : List UInt8)
      (baseContentHash expectedFileId : Option String)
  | append (path : MountPath) (mode : Nat) (bytes : List UInt8) (baseSize : Nat)
      (baseContentHash : String)
deriving DecidableEq, Repr

/-! ## The requests the publisher sends -/

/-- The precondition a folded creation moves onto its write. -/
def absentPrecondition : String := "absent"

/-- The permission bits the gateway takes. -/
def permissionBits (mode : Nat) : Nat := mode &&& 0o7777

/-- A value of the form `dev:ino`, this mount's own identity of an entry. -/
def isLocalIdentity (value : String) : Bool :=
  match value.toList.span (· != ':') with
  | (device, _ :: inode) =>
    !device.isEmpty && !inode.isEmpty && device.all Char.isDigit && inode.all Char.isDigit
  | (_, []) => false

/-- Only a value that is not a local identity is forwarded to the gateway. -/
def remoteFileId (candidate : Option String) : Option String :=
  candidate.filter fun value => !isLocalIdentity value

/-- The namespace request of an event. A hard link to a symbolic link is published as a second
symbolic link. -/
def namespaceMutationFor (event : MountEvent) : Except String VfsNamespaceMutation :=
  match event.mutation with
  | .createDirectory path mode => .ok (.createDirectory path (permissionBits mode))
  | .createFile path mode => .ok (.createFile path (permissionBits mode))
  | .createSymlink path target => .ok (.createSymlink path target)
  | .createHardLink existingPath newPath =>
    match event.preImage.stateOf existingPath with
    | some (.present .symlink _ _ _ _ (some target)) => .ok (.createSymlink newPath target)
    | _ => .ok (.createHardLink existingPath newPath)
  | .rename oldPath newPath _ => .ok (.rename oldPath newPath)
  | .removeFile path expectedFileId => .ok (.deleteFile path (remoteFileId expectedFileId))
  | .removeDirectory path => .ok (.removeDirectory path)
  | .setMode path mode => .ok (.setMode path (permissionBits mode))
  | .replaceFile .. | .appendFile .. =>
    .error ("vfs mount event " ++ toString event.sequence ++
      " is a content generation and cannot be published as a namespace mutation")
  | .setTimes .. | .setOwner .. =>
    .error ("vfs mount event " ++ toString event.sequence ++
      " is local-only and must advance the cursor without a request")

namespace PublishEnv

variable (env : PublishEnv)

/-- The upload body of an event. -/
def chainBytes (event : PublishEvent) : List UInt8 :=
  event.payloadChain.flatMap env.payloadBytes

/-- The content request of an event, batched or streamed. -/
def contentWriteFor (event : PublishEvent) : Except String ContentWrite :=
  match event.mutation with
  | .replaceFile path mode expectedFileId baseContentHash =>
    .ok (.replace path (permissionBits mode) (env.chainBytes event) baseContentHash
      (remoteFileId expectedFileId))
  | .appendFile path mode baseSize baseContentHash _ _ =>
    .ok (.append path (permissionBits mode) (env.chainBytes event) baseSize baseContentHash)
  | _ => .error ("vfs mount event " ++ toString event.sequence ++ " is not a content generation")

/-! ## What the requests do -/

/-- The expected file identity holds, if one is expected. -/
def fileIdHolds (tree : RemoteTree) (path : MountPath) (expectedFileId : Option String) : Bool :=
  expectedFileId.all (env.fileIdIs tree path)

/-- Move the entry at `old`, with everything below it, to `new`. -/
def moveSubtree (old new : MountPath) : Rewrite MountPath RemoteNode :=
  Rewrite.move
    (fun x =>
      if new <+: x then some (old ++ x.drop new.length) else if old <+: x then none else some x)
    (fun x => if old <+: x then new ++ x.drop old.length else x)
    (by
      intro x j h
      split_ifs at h with hnew hold
      · obtain ⟨rest, rfl⟩ := hnew
        cases h
        simp
      · cases h
        exact Or.inl rfl)

/-- A rename may put the entry `moved` over the entry at its destination. -/
def replaceable (moved : RemoteNode) : Option RemoteNode → Bool
  | none => true
  | some target => moved.isDirectory == target.isDirectory

def applyNamespace (mutation : VfsNamespaceMutation) (tree : RemoteTree) : Option RemoteTree :=
  match mutation with
  | .createFile path mode =>
    if RemoteTree.Creatable tree path then some ((Rewrite.put path (.file mode [])).apply tree)
    else none
  | .createDirectory path mode =>
    if RemoteTree.Creatable tree path then some ((Rewrite.put path (.directory mode)).apply tree)
    else none
  | .createSymlink path target =>
    if RemoteTree.Creatable tree path then some ((Rewrite.put path (.symlink target)).apply tree)
    else none
  | .createHardLink sourcePath destinationPath =>
    if (tree.node sourcePath).any RemoteNode.isFile ∧
        RemoteTree.Creatable tree destinationPath then
      some ((Rewrite.link sourcePath destinationPath).apply tree)
    else none
  | .deleteFile path expectedFileId =>
    match tree.node path with
    | some entry =>
      if entry.isDirectory = false ∧ env.fileIdHolds tree path expectedFileId then
        some ((Rewrite.erase path).apply tree)
      else none
    | none => none
  | .removeDirectory path =>
    match tree.node path with
    | some entry =>
      if entry.isDirectory ∧ RemoteTree.VacantBelow tree path then
        some ((Rewrite.erase path).apply tree)
      else none
    | none => none
  | .rename fromPath toPath =>
    match tree.node fromPath with
    | some entry =>
      if fromPath = toPath ∨ tree.linked fromPath toPath then some tree
      else if ¬ fromPath <+: toPath ∧ RemoteTree.IsDirectory tree toPath.dropLast ∧
          RemoteTree.VacantBelow tree toPath ∧ replaceable entry (tree.node toPath) then
        some ((moveSubtree fromPath toPath).apply tree)
      else none
    | none => none
  | .setMode path mode =>
    match tree.node path with
    | some (.symlink _) | none => none
    | some _ => some ((Rewrite.modify (tree.group path) (RemoteNode.setMode mode)).apply tree)

/-- One content upload on the replica. -/
def applyContent (write : ContentWrite) (tree : RemoteTree) : Option RemoteTree :=
  match write with
  | .replace path mode bytes baseContentHash expectedFileId =>
    if env.fileIdHolds tree path expectedFileId then
      match tree.node path with
      | some (.file _ old) =>
        if baseContentHash.all fun base => base ≠ absentPrecondition ∧ base = env.fingerprint old
        then some ((Rewrite.modify (tree.group path) (RemoteNode.setBytes bytes)).apply tree)
        else none
      | some _ => none
      | none =>
        if baseContentHash.all (· = absentPrecondition) ∧ RemoteTree.Creatable tree path then
          some ((Rewrite.put path (.file mode bytes)).apply tree)
        else none
    else none
  | .append path _ bytes baseSize baseContentHash =>
    match tree.node path with
    | some (.file _ old) =>
      if old.length = baseSize ∧ env.fingerprint old = baseContentHash then
        some ((Rewrite.modify (tree.group path) (RemoteNode.appendBytes bytes)).apply tree)
      else none
    | _ => none

/-- Publish one event: its request, applied to the replica. -/
def publish (event : PublishEvent) (tree : RemoteTree) : Option RemoteTree :=
  if event.mutation.isContent then
    (env.contentWriteFor event).toOption.bind fun write => env.applyContent write tree
  else
    (namespaceMutationFor event.event).toOption.bind fun mutation =>
      env.applyNamespace mutation tree

/-- One event of the log on the replica; a local-only event has no request. -/
def applyEvent (event : MountEvent) (tree : RemoteTree) : Option RemoteTree :=
  if event.mutation.isLocalOnly then some tree else env.publish event.toPublish tree

end PublishEnv

/-! ## The histories a mount commits -/

def MountMutation.ForwardsNoFileId : MountMutation → Prop
  | .replaceFile _ _ expectedFileId _ => remoteFileId expectedFileId = none
  | .removeFile _ expectedFileId => remoteFileId expectedFileId = none
  | _ => True

/-- A whole-file generation as sealing emits it: no base. -/
def MountMutation.SealedWithoutBase : MountMutation → Prop
  | .replaceFile _ _ _ baseContentHash => baseContentHash = none
  | _ => True

instance : DecidablePred MountMutation.ForwardsNoFileId
  | .replaceFile _ _ expectedFileId _ =>
    inferInstanceAs (Decidable (remoteFileId expectedFileId = none))
  | .removeFile _ expectedFileId =>
    inferInstanceAs (Decidable (remoteFileId expectedFileId = none))
  | .createDirectory .. | .createFile .. | .appendFile .. | .createSymlink .. |
    .createHardLink .. | .rename .. | .removeDirectory .. | .setMode .. | .setTimes .. |
    .setOwner .. => .isTrue trivial

instance : DecidablePred MountMutation.SealedWithoutBase
  | .replaceFile _ _ _ baseContentHash => inferInstanceAs (Decidable (baseContentHash = none))
  | .createDirectory .. | .createFile .. | .appendFile .. | .createSymlink .. |
    .createHardLink .. | .rename .. | .removeFile .. | .removeDirectory .. | .setMode .. |
    .setTimes .. | .setOwner .. => .isTrue trivial

/-- What the mount guarantees of an event it commits on a tree: the paths it changes have no
second link, and a content generation is sealed from an existing regular file, without a base and
without a gateway file identity. -/
structure Admissible (tree : RemoteTree) (event : MountEvent) : Prop where
  unaliased : ∀ p ∈ event.mutation.changedPaths, tree.Unaliased p
  forwardsNoFileId : event.mutation.ForwardsNoFileId
  sealedWithoutBase : event.mutation.SealedWithoutBase
  sealedFile : event.mutation.isContent = true →
    (tree.node event.mutation.primaryPath).any RemoteNode.isFile = true

instance (tree : RemoteTree) (event : MountEvent) : Decidable (Admissible tree event) :=
  decidable_of_iff
    ((∀ p ∈ event.mutation.changedPaths, tree.Unaliased p) ∧ event.mutation.ForwardsNoFileId ∧
      event.mutation.SealedWithoutBase ∧ (event.mutation.isContent = true →
        (tree.node event.mutation.primaryPath).any RemoteNode.isFile = true))
    ⟨fun ⟨h₁, h₂, h₃, h₄⟩ => ⟨h₁, h₂, h₃, h₄⟩, fun ⟨h₁, h₂, h₃, h₄⟩ => ⟨h₁, h₂, h₃, h₄⟩⟩

/-- One event of a mount's own history on the replica. -/
def PublishEnv.commitEvent (env : PublishEnv) (event : MountEvent) (tree : RemoteTree) :
    Option RemoteTree :=
  if event.mutation.isLocalOnly = true ∨ Admissible tree event then env.applyEvent event tree
  else none

end Chevalier.LocalView
