import Chevalier.Foundations.Table
import Chevalier.Vfs.Storage

/-!
# The manifest index

The index of an object-backed storage keeps the namespace of a scope in tables: an entry for each
path, a manifest for each version of a file, which names a slot of a pack, and a record for each
pack. Paths that name one file carry one file identity.

The functions below are the transactions of the index, each as a function of the tables it finds;
an error rolls the transaction back. `commitPackedFiles` publishes a batch of written files: it
compares the alias sets with those the batch was built from (`validateFileAliasSnapshot`), checks
the preconditions (`resolveCommitPreconditions`), writes the entries (`upsertEntriesBatch`) and the
manifests, and makes the new versions the current ones (`batchPromoteManifestVersions`).
-/

namespace Chevalier.ObjectStore

open Vfs

/-! ## Tables -/

/-- The columns of an entry that only files use. The manifest is that of the current version. -/
structure FileRow where
  fileId : Option String
  contentHash : Option String
  currentVersion : Option String
  manifest : Option String
deriving DecidableEq, Repr

/-- What a path names. -/
inductive Entry
  | directory
  | file (row : FileRow)
deriving DecidableEq, Repr

/-- The columns of a file. -/
def Entry.row : Entry → Option FileRow
  | .directory => none
  | .file row => some row

/-- Where a pack holds the content of a file. -/
structure PackSlotRef where
  packKey : String
  offset : Nat
  length : Nat
  compression : Nat
deriving DecidableEq, Repr

/-- A version of a file and the slot that holds its content. -/
structure FileManifest where
  logicalPath : LogicalPath
  contentHash : String
  slot : PackSlotRef
deriving DecidableEq, Repr

/-- A pack, with the number of manifests counted on it and the time of the last change. -/
structure PackRecord where
  totalSlotCount : Nat
  referenceCount : Nat
  totalBytes : Nat
  updatedAt : Nat
deriving DecidableEq, Repr

/-- The tables of a scope. -/
structure Index where
  entries : Table LogicalPath Entry
  manifests : Table String FileManifest
  packs : Table String PackRecord

namespace Index

/-- The columns of the file a path names. -/
def row (ix : Index) (path : LogicalPath) : Option FileRow := (ix.entries.get path).bind Entry.row

/-- The identity of the file a path names. -/
def fileId (ix : Index) (path : LogicalPath) : Option String := (ix.row path).bind (·.fileId)

def currentVersion (ix : Index) (path : LogicalPath) : Option String :=
  (ix.row path).bind (·.currentVersion)

/-- The manifest of the current version. -/
def manifest (ix : Index) (path : LogicalPath) : Option FileManifest :=
  ((ix.row path).bind (·.manifest)).bind ix.manifests.get

/-- The paths that name the file of an identity. -/
def listFileAliasPaths (ix : Index) (fileId : String) : List LogicalPath :=
  ix.entries.select fun _ entry => decide ((entry.row.bind (·.fileId)) = some fileId)

def linkCount (ix : Index) (path : LogicalPath) : Nat :=
  match ix.fileId path with
  | none => 1
  | some fileId => (ix.listFileAliasPaths fileId).length

/-- The number of manifests that name a pack. -/
def liveCount (ix : Index) (packKey : String) : Nat :=
  ix.manifests.count fun _ manifest => decide (manifest.slot.packKey = packKey)

/-- Set the reference count of a pack to the number of manifests that name it. -/
def updatePackReferenceCount (now : Nat) (ix : Index) (packKey : String) : Index :=
  { ix with packs := ix.packs.modify fun key record =>
      if key = packKey then
        { record with referenceCount := ix.liveCount packKey, updatedAt := now }
      else record }

@[simp] theorem entries_updatePackReferenceCount {now : Nat} {ix : Index} {pk : String} :
    (updatePackReferenceCount now ix pk).entries = ix.entries := rfl

@[simp] theorem entries_foldl_updatePackReferenceCount {now : Nat} {ix : Index}
    {pk : List String} :
    (pk.foldl (updatePackReferenceCount now) ix).entries = ix.entries := by
  induction pk generalizing ix with
  | nil => rfl
  | cons _ _ ih => exact ih

@[simp] theorem manifests_foldl_updatePackReferenceCount {now : Nat} {ix : Index}
    {pk : List String} :
    (pk.foldl (updatePackReferenceCount now) ix).manifests = ix.manifests := by
  induction pk generalizing ix with
  | nil => rfl
  | cons _ _ ih => exact ih

theorem mem_listFileAliasPaths {ix : Index} {fi : String} {path : LogicalPath} :
    path ∈ ix.listFileAliasPaths fi ↔ ix.fileId path = some fi := by
  simp only [listFileAliasPaths, Table.mem_select, decide_eq_true_eq, Index.fileId, row]
  cases ix.entries.get path <;> simp

/-- The packs that hold the versions of a path. -/
def packKeysOf (ix : Index) (path : LogicalPath) : List String :=
  ((ix.manifests.rows.filter fun row => row.2.logicalPath = path).map
    fun row => row.2.slot.packKey).dedup

end Index

/-! ## Publishing a batch -/

/-- A file of a batch. The identity is the one its path had when the batch was built. -/
structure PackedFileCommit where
  logicalPath : LogicalPath
  manifest : FileManifest
  fileId : Option String
  expectedFileId : Option String
  contentPredicate : Option CasPredicate
  expectedCurrentVersion : Option String
deriving DecidableEq, Repr

/-- A batch and the pack that holds its content. -/
structure PackedCommit where
  packKey : String
  totalSlotCount : Nat
  referenceCount : Nat
  totalBytes : Nat
  files : List PackedFileCommit
deriving DecidableEq, Repr

/-- The identifiers that are drawn for a file of a batch. -/
structure Draw where
  fileId : String
  manifestId : String
  versionId : String
deriving DecidableEq, Repr

/-- The paths of a batch that had an identity when the batch was built. -/
def snapshotPaths (files : List PackedFileCommit) (fileId : String) : List LogicalPath :=
  (files.filter fun file => file.fileId = some fileId).map (·.logicalPath)

/-- Each identity of the batch still has the paths that the batch knows of. -/
def AliasSnapshot (ix : Index) (files : List PackedFileCommit) : Prop :=
  ∀ file ∈ files, ∀ fileId ∈ file.fileId,
    ix.listFileAliasPaths fileId ⊆ snapshotPaths files fileId ∧
      snapshotPaths files fileId ⊆ ix.listFileAliasPaths fileId

instance (ix : Index) (files : List PackedFileCommit) : Decidable (AliasSnapshot ix files) :=
  inferInstanceAs (Decidable (∀ file ∈ files, ∀ fileId ∈ file.fileId,
    ix.listFileAliasPaths fileId ⊆ snapshotPaths files fileId ∧
      snapshotPaths files fileId ⊆ ix.listFileAliasPaths fileId))

def validateFileAliasSnapshot (ix : Index) (files : List PackedFileCommit) :
    Except VfsStorageError Unit :=
  if AliasSnapshot ix files then .ok ()
  else .error (.conflict "VFS hard-link alias set changed during write")

/-- The content at a path is the expected one. -/
def ContentMatches (entry : Option Entry) : Option CasPredicate → Prop
  | none => True
  | some .absent => entry = none
  | some (.contentFingerprint fingerprint) =>
    (entry.bind Entry.row).bind (·.contentHash) = some fingerprint

instance (entry : Option Entry) : (predicate : Option CasPredicate) →
    Decidable (ContentMatches entry predicate)
  | none => .isTrue trivial
  | some .absent => inferInstanceAs (Decidable (entry = none))
  | some (.contentFingerprint _) => inferInstanceAs (Decidable (_ = _))

/-- What a file of a batch is refused with, if the entry at its path does not meet its
precondition. -/
def commitRefusal (ix : Index) (file : PackedFileCommit) : Option VfsStorageError :=
  let entry := ix.entries.get file.logicalPath
  if entry = some .directory then
    some (.conflict ("vfs write destination is not a file: " ++ file.logicalPath.text))
  else if file.expectedFileId.isSome ∧ ix.fileId file.logicalPath ≠ file.expectedFileId then
    some (.conflict ("vfs write identity precondition failed for " ++ file.logicalPath.text))
  else if ¬ ContentMatches entry file.contentPredicate then
    some (.conflict ("vfs content precondition failed for " ++ file.logicalPath.text))
  else none

/-- Check the preconditions of a batch, and return the version each path has. -/
def resolveCommitPreconditions (ix : Index) (files : List PackedFileCommit) :
    Except VfsStorageError (LogicalPath → Option String) :=
  match files.findSome? (commitRefusal ix) with
  | some error => .error error
  | none => .ok ix.currentVersion

/-- The entry that a batch writes under a path. -/
structure EntryBatchRow where
  logicalPath : LogicalPath
  fileId : String
  contentHash : String
  expectedFileId : Option String
  contentPredicate : Option CasPredicate
deriving DecidableEq, Repr

/-- The row is written only under a condition. -/
def EntryBatchRow.Guarded (row : EntryBatchRow) : Prop :=
  row.expectedFileId ≠ none ∨ row.contentPredicate ≠ none

instance (row : EntryBatchRow) : Decidable row.Guarded :=
  inferInstanceAs (Decidable (_ ∨ _))

/-- The condition under which the guarded statement updates the columns of a file. -/
def EntryBatchRow.Updates (row : EntryBatchRow) (current : FileRow) : Prop :=
  (row.expectedFileId = none ∨ current.fileId = row.expectedFileId) ∧
    (row.contentPredicate = none ∨
      ∃ hash ∈ current.contentHash, row.contentPredicate = some (.contentFingerprint hash))

instance (row : EntryBatchRow) (current : FileRow) : Decidable (row.Updates current) :=
  inferInstanceAs (Decidable (_ ∧ (_ ∨ ∃ hash ∈ current.contentHash, _)))

/-- What the guarded statement makes of the entry at its path; `none` if it leaves it alone. -/
def EntryBatchRow.guardedEntry (row : EntryBatchRow) : Option Entry → Option Entry
  | some .directory => none
  | some (.file current) =>
    if row.Updates current then some (.file { current with contentHash := some row.contentHash })
    else none
  | none =>
    if row.contentPredicate = some .absent ∧ row.expectedFileId = none then
      some (.file ⟨some row.fileId, some row.contentHash, none, none⟩)
    else none

/-- What the unguarded statement makes of the entry at its path. -/
def EntryBatchRow.unguardedEntry (row : EntryBatchRow) (entry : Option Entry) : Entry :=
  match entry.bind Entry.row with
  | some current =>
    .file { current with
      fileId := current.fileId <|> some row.fileId
      contentHash := some row.contentHash }
  | none => .file ⟨some row.fileId, some row.contentHash, none, none⟩

/-- Write the guarded rows; all of them, or the batch is refused. -/
def upsertGuardedEntriesBatch (entries : Table LogicalPath Entry) (rows : List EntryBatchRow) :
    Except VfsStorageError (Table LogicalPath Entry) :=
  let written := rows.filterMap fun row =>
    (row.guardedEntry (entries.get row.logicalPath)).map (row.logicalPath, ·)
  let committed := written.map Prod.fst
  if committed.dedup.length = rows.length then .ok (entries.setAll written)
  else
    let conflict := rows.find? fun row => row.logicalPath ∉ committed
    .error (.conflict ("vfs write precondition failed for " ++
      (conflict.map (·.logicalPath.text)).getD ""))

def upsertEntriesBatch (entries : Table LogicalPath Entry) (rows : List EntryBatchRow) :
    Except VfsStorageError (Table LogicalPath Entry) := do
  let entries ← upsertGuardedEntriesBatch entries (rows.filter fun row => row.Guarded)
  let unguarded := rows.filter fun row => ¬ row.Guarded
  if (unguarded.map (·.logicalPath)).Nodup then
    return entries.setAll (unguarded.map fun row =>
      (row.logicalPath, row.unguardedEntry (entries.get row.logicalPath)))
  else
    throw (.internal "ON CONFLICT DO UPDATE command cannot affect row a second time")

/-- Add the manifests of a batch under the identifiers drawn for them. -/
def insertManifestsBatch (manifests : Table String FileManifest)
    (rows : List (String × FileManifest)) : Except VfsStorageError (Table String FileManifest) :=
  if (rows.map Prod.fst).Nodup ∧ ∀ row ∈ rows, manifests.get row.1 = none then
    .ok (manifests.setAll rows)
  else .error (.internal "duplicate key value violates unique constraint")

/-- A version to be made the current one of its path. -/
structure PromoteItem where
  logicalPath : LogicalPath
  versionId : String
  manifestId : String
  expectedCurrentVersion : Option String
deriving DecidableEq, Repr

def PromoteItem.promoted (item : PromoteItem) : Entry → Entry
  | .directory => .directory
  | .file row =>
    .file { row with currentVersion := some item.versionId, manifest := some item.manifestId }

/-- Make the versions the current ones, of the paths whose version is the expected one; all of
them, or the batch is refused. -/
def batchPromoteManifestVersions (entries : Table LogicalPath Entry) (items : List PromoteItem) :
    Except VfsStorageError (Table LogicalPath Entry) :=
  if (items.map (·.logicalPath)).Nodup then
    match items.find? fun item => decide (
        (((entries.get item.logicalPath).bind Entry.row).bind (·.currentVersion)) ≠
          item.expectedCurrentVersion ∨ entries.get item.logicalPath = none) with
    | some item =>
      .error (.conflict ("vfs write precondition failed for " ++ item.logicalPath.text))
    | none => .ok (entries.modify fun path entry =>
        match items.find? fun item => item.logicalPath = path with
        | some item => item.promoted entry
        | none => entry)
  else .error (.internal "duplicate key value violates unique constraint")

def PackedFileCommit.entryRow (draw : LogicalPath → Draw) (file : PackedFileCommit) :
    EntryBatchRow where
  logicalPath := file.logicalPath
  fileId := file.fileId.getD (draw file.logicalPath).fileId
  contentHash := file.manifest.contentHash
  expectedFileId := file.expectedFileId
  contentPredicate := file.contentPredicate

/-- The version of a file of a batch. The version found with the preconditions goes before the one
that the writer expects. -/
def PackedFileCommit.promoteItem (draw : LogicalPath → Draw)
    (expectedVersions : LogicalPath → Option String) (file : PackedFileCommit) : PromoteItem where
  logicalPath := file.logicalPath
  versionId := (draw file.logicalPath).versionId
  manifestId := (draw file.logicalPath).manifestId
  expectedCurrentVersion := expectedVersions file.logicalPath <|> file.expectedCurrentVersion

/-- A batch whose alias sets were validated is checked and written. -/
def publishPackedFiles (now : Nat) (draw : LogicalPath → Draw) (commit : PackedCommit)
    (ix : Index) : Except VfsStorageError Index := do
  let expectedVersions ← resolveCommitPreconditions ix commit.files
  let entries ← upsertEntriesBatch ix.entries (commit.files.map (·.entryRow draw))
  let packs := if (ix.packs.get commit.packKey).isSome then ix.packs
    else ix.packs.set commit.packKey
      ⟨commit.totalSlotCount, commit.referenceCount, commit.totalBytes, now⟩
  let manifests ← insertManifestsBatch ix.manifests
    (commit.files.map fun file => ((draw file.logicalPath).manifestId, file.manifest))
  let entries ← batchPromoteManifestVersions entries
    (commit.files.map (·.promoteItem draw expectedVersions))
  return { entries, manifests, packs }

/-- Publish a batch. -/
def commitPackedFiles (now : Nat) (draw : LogicalPath → Draw) (commit : PackedCommit)
    (ix : Index) : Except VfsStorageError Index := do
  if commit.files = [] then return ix
  validateFileAliasSnapshot ix commit.files
  publishPackedFiles now draw commit ix

/-! ## Directories -/

/-- A directory is at a path afterwards, unless a file is there. -/
def createDirectory (path : LogicalPath) (ix : Index) : Except VfsStorageError Index :=
  match ix.entries.get path with
  | some (.file _) => .error (.conflict ("vfs file already exists at directory path: " ++ path.text))
  | some .directory => .ok ix
  | none => .ok { ix with entries := ix.entries.set path .directory }

/-- A directory without children is gone. -/
def removeEmptyDirectory (path : LogicalPath) (ix : Index) : Except VfsStorageError Index :=
  match ix.entries.get path with
  | none => .ok ix
  | some (.file _) => .error (.badRequest ("vfs path " ++ path.text ++ " is not a directory"))
  | some .directory =>
    if ix.entries.rows.any fun row => decide (row.1.trimSlashes.dropLast = path) then
      .error (.conflict ("vfs directory " ++ path.text ++ " is not empty"))
    else .ok { ix with
      entries := ix.entries.delete fun other entry => decide (other = path ∧ entry = .directory) }

/-! ## Deleting -/

/-- The versions and the entry of a file are gone. -/
def removeFile (path : LogicalPath) (ix : Index) : Index where
  entries := ix.entries.delete fun other entry => decide (other = path ∧ entry ≠ .directory)
  manifests := ix.manifests.delete fun _ manifest => decide (manifest.logicalPath = path)
  packs := ix.packs

def deleteRefusal (path : LogicalPath) (lockedId : Option String)
    (expectedCurrentVersion : Option String) (previous : FileRow) : Option VfsStorageError :=
  if previous.fileId ≠ lockedId then
    some (.conflict ("vfs identity changed before unlink for " ++ path.text))
  else if expectedCurrentVersion.isSome ∧ previous.currentVersion ≠ expectedCurrentVersion then
    some (.conflict ("vfs write precondition failed for " ++ path.text))
  else none

def unlinkFile (now : Nat) (path : LogicalPath) (ix : Index) : Index :=
  (ix.packKeysOf path).foldl (Index.updatePackReferenceCount now) (removeFile path ix)

def deleteFileEntry (now : Nat) (path : LogicalPath) (expectedCurrentVersion : Option String)
    (ix : Index) : Except VfsStorageError (Index × Option FileRow) :=
  match ix.entries.get path with
  | none => .ok (ix, none)
  | some .directory => .error (.badRequest ("vfs path " ++ path.text ++ " is not a file"))
  | some (.file row) =>
    match deleteRefusal path row.fileId expectedCurrentVersion row with
    | some error => .error error
    | none => .ok (unlinkFile now path ix, some row)

def deleteFileEntryWithPrecondition (now : Nat) (path : LogicalPath)
    (contentPredicate : Option CasPredicate) (expectedFileId : Option String)
    (expectedCurrentVersion : Option String) (ix : Index) :
    Except VfsStorageError (Index × Option FileRow) :=
  if ¬ ContentMatches (ix.entries.get path) contentPredicate then
    .error (.conflict ("vfs content precondition failed for " ++ path.text))
  else if ∃ expected ∈ expectedCurrentVersion,
      ix.currentVersion path ≠ if expected = "none" then none else some expected then
    .error (.conflict ("vfs version precondition failed for " ++ path.text))
  else if expectedFileId.isSome ∧ ix.fileId path ≠ expectedFileId then
    .error (.conflict ("vfs identity precondition failed for " ++ path.text))
  else if ix.entries.get path = none then .ok (ix, none)
  else deleteFileEntry now path (ix.currentVersion path) ix

/-! ## Hard links -/

/-- What a hard link takes over from its source. -/
structure LinkSource where
  contentHash : Option String
  manifest : FileManifest
deriving DecidableEq, Repr

/-- The source of a link, when its identity is locked. An entry that has no identity yet gets the
one in `ownId`. -/
def linkSource (source : LogicalPath) (ownId lockedId : String) (ix : Index) :
    Except VfsStorageError LinkSource :=
  match ix.entries.get source with
  | none => .error (.notFound source.text)
  | some .directory =>
    .error (.badRequest ("vfs hard-link source " ++ source.text ++ " is not a file"))
  | some (.file row) =>
    if row.fileId.getD ownId ≠ lockedId then
      .error (.conflict ("vfs hard-link source identity changed for " ++ source.text))
    else match ix.manifest source with
      | none => .error (.internal
          "no rows returned by a query that expected to return at least one row")
      | some manifest => .ok ⟨row.contentHash, manifest⟩

def identifySource (source : LogicalPath) (lockedId : String) (ix : Index) : Index :=
  { ix with entries := ix.entries.modify fun path entry =>
      match entry with
      | .file row =>
        if path = source ∧ row.fileId = none then .file { row with fileId := some lockedId }
        else entry
      | .directory => entry }

/-- The destination of a link becomes another path of its source's file. -/
def linkFile (now : Nat) (draw : Draw) (source destination : LogicalPath) (lockedId : String)
    (copied : LinkSource) (ix : Index) : Except VfsStorageError Index :=
  if (ix.entries.get destination).isSome then
    .error (.conflict ("vfs hard-link destination already exists: " ++ destination.text))
  else if (ix.manifests.get draw.manifestId).isSome then
    .error (.internal "duplicate key value violates unique constraint")
  else
    let identified := identifySource source lockedId ix
    .ok (Index.updatePackReferenceCount now
      { identified with
        entries := identified.entries.set destination
          (.file ⟨some lockedId, copied.contentHash, some draw.versionId, some draw.manifestId⟩)
        manifests := ix.manifests.set draw.manifestId
          { copied.manifest with logicalPath := destination } }
      copied.manifest.slot.packKey)

/-! ## Renames -/

/-- Why a file is not renamed when the identities of both paths are locked; `some none` when both
paths name one file, and nothing is to be done. -/
def renameRefusal (source destination : LogicalPath) (lockedSource : Option String)
    (snapshot : Option (Option String)) (allowReplace : Bool) (ix : Index) :
    Option (Option VfsStorageError) :=
  let target := ix.entries.get destination
  match ix.entries.get source with
  | none => some (some (.notFound source.text))
  | some previous =>
    if previous.row.bind (·.fileId) ≠ lockedSource then
      some (some (.conflict ("vfs source identity changed before rename for " ++ source.text)))
    else if (snapshot = none ∧ target ≠ none) ∨
        ∃ locked ∈ snapshot, target ≠ none ∧ locked ≠ ix.fileId destination then
      some (some (.conflict
        ("vfs destination identity changed before rename for " ++ destination.text)))
    else if target = some .directory then
      some (some (.conflict
        ("vfs cannot replace non-file destination: " ++ destination.text)))
    else if lockedSource ≠ none ∧ target ≠ none ∧ ix.fileId destination = lockedSource then
      some none
    else if ¬ allowReplace ∧ target ≠ none then
      some (some (.conflict ("vfs destination already exists: " ++ destination.text)))
    else none

def moveFile (source destination : LogicalPath) (ix : Index) : Except VfsStorageError Index :=
  match ix.row source with
  | none => .ok ix
  | some row =>
    if (ix.entries.get destination).isSome then
      .error (.internal "duplicate key value violates unique constraint")
    else .ok {
      entries := (ix.entries.delete fun path _ => decide (path = source)).set destination (.file row)
      manifests := ix.manifests.modify fun _ manifest =>
        if manifest.logicalPath = source then { manifest with logicalPath := destination }
        else manifest
      packs := ix.packs }

/-- A file moves to a path, in place of the file that was found there. -/
def renameFile (now : Nat) (source destination : LogicalPath) (replaces : Bool) (ix : Index) :
    Except VfsStorageError Index := do
  let cleared := if replaces then removeFile destination ix else ix
  let moved ← moveFile source destination cleared
  return (ix.packKeysOf destination).foldl (Index.updatePackReferenceCount now) moved

end Chevalier.ObjectStore
