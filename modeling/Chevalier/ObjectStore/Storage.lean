import Chevalier.ObjectStore.Index
import Chevalier.ObjectStore.Pack

/-!
# Object-backed storage

`ObjectBackedVfsStorage` keeps the content of files in packs and their names in the index. A batch
of writes (`writeManyAtomic`) reads the entries of its paths, adds a write for every further path of
a file with several names (`expandIdentity`), reads the entries of all its paths again, packs the
contents, and publishes the batch in one transaction. The content predicate of a file of the batch
is the caller's, or what the second read has found (`commitFile`).

An `IndexM` program is a call: an error keeps the changes made before it.
-/

namespace Chevalier.ObjectStore

open Posix Vfs Calls List

/-! ## Requests -/

/-- What a writer expects at a path, with the version that it has seen there. -/
structure VersionedPrecondition extends WritePrecondition where
  expectedCurrentVersion : Option String
deriving DecidableEq, Repr

/-- One write of a batch. -/
structure StorageWrite where
  path : LogicalPath
  bytes : Bytes
  precondition : Option VersionedPrecondition
deriving DecidableEq, Repr

/-- What a write answers. -/
structure WriteResult where
  path : LogicalPath
  contentHash : String
  previousHash : Option String
  changed : Bool
deriving DecidableEq, Repr

/-- A call on the storage. -/
abbrev IndexM := EStateM VfsStorageError Index

/-- What a read of the entries returns for a path. -/
structure EntryView where
  fileId : Option String
  linkCount : Nat
  contentHash : Option String
deriving DecidableEq, Repr

/-- What a read finds, path by path. -/
abbrev EntryViews := LogicalPath → Option EntryView

/-- The entry of a path, as a read returns it. -/
def Index.view (ix : Index) : EntryViews := fun path =>
  (ix.entries.get path).map fun entry =>
    ⟨ix.fileId path, ix.linkCount path, entry.row.bind (·.contentHash)⟩

/-- The identity that a read has found at a path. -/
def EntryViews.fileId (views : EntryViews) (path : LogicalPath) : Option String :=
  (views path).bind (·.fileId)

theorem view_fileId {ix : Index} {path : LogicalPath} :
    EntryViews.fileId ix.view path = ix.fileId path := by
  simp only [EntryViews.fileId, Index.view, Index.fileId, Index.row]
  cases ix.entries.get path <;> rfl

/-! ## Parent directories -/

def parentDirectories (path : LogicalPath) : List LogicalPath :=
  (path.trimSlashes.dropLast.filter (· ≠ "")).inits.tail

/-- Create directories, in turn. -/
def createDirectories : List LogicalPath → IndexM Unit
  | [] => pure ()
  | path :: paths => do
    perform (createDirectory path) id
    createDirectories paths

/-- Create the directories above the paths of a batch, from the top. -/
def createParentDirectoriesForWrites (writes : List StorageWrite) : IndexM Unit :=
  createDirectories <|
    ((writes.flatMap fun write => parentDirectories write.path).dedup).insertionSort
      fun left right => left.length < right.length ∨
        left.length = right.length ∧ left.text ≤ right.text

/-! ## The paths of a file -/

/-- The first path of a batch that was there before. -/
def duplicatePath : (seen paths : List LogicalPath) → Option LogicalPath
  | _, [] => none
  | seen, path :: paths =>
    if path ∈ seen then some path else duplicatePath (path :: seen) paths

/-- The files with several names that a batch writes, each with a path that the batch writes it
through. The order of the files is the batch's here; it is arbitrary. -/
def explicitByIdentity (requestedPrevious : EntryViews) (requested : List LogicalPath) :
    List (String × LogicalPath) :=
  (requested.filterMap fun path => (requestedPrevious path).bind fun view =>
    if 1 < view.linkCount then view.fileId.map (·, path) else none).pwFilter
      fun left right => left.1 ≠ right.1

/-- The identities that the writers of a file expect. -/
def expectedFileIds (requestedPrevious : EntryViews) (writes : List StorageWrite)
    (fileId : String) : List String :=
  ((writes.filter fun write => requestedPrevious.fileId write.path = some fileId).filterMap
    fun write => write.precondition.bind (·.expectedFileId)).dedup

def aliasWrite (representative : StorageWrite) (expectedFileId : Option String)
    (path : LogicalPath) : StorageWrite where
  path := path
  bytes := representative.bytes
  precondition := expectedFileId.map fun fileId =>
    { predicate := none
      fingerprint := none
      secondaryFingerprint := none
      expectedFileId := some fileId
      expectedCurrentVersion := none }

/-- Add the writes of the further paths of a file. Paths that the batch names itself must get the
same content. -/
def expandIdentity (requestedPrevious : EntryViews) (requested : List LogicalPath)
    (fileId : String) (representativePath : LogicalPath) (aliases : List LogicalPath)
    (writes : List StorageWrite) : Except VfsStorageError (List StorageWrite) :=
  let expected := expectedFileIds requestedPrevious writes fileId
  if 1 < expected.length then
    .error (.conflict ("one atomic batch carries conflicting expected identities for " ++
      "hard-link identity " ++ fileId))
  else match writes.find? fun write => write.path = representativePath with
    | none => .error (.internal ("missing write for hard-link identity " ++ fileId))
    | some representative =>
      match aliases.find? fun path => decide (path ∈ requested) &&
          (writes.find? fun write => write.path = path).any fun write =>
            write.bytes ≠ representative.bytes with
      | some path =>
        .error (.conflict ("one atomic batch writes different content through hard-link " ++
          "aliases " ++ representativePath.text ++ " and " ++ path.text))
      | none => .ok (writes ++ (aliases.filter fun path => path ∉ requested).map
          (aliasWrite representative expected.head?))

def expandIdentities (requestedPrevious : EntryViews) (requested : List LogicalPath) :
    List (String × LogicalPath) → List StorageWrite → IndexM (List StorageWrite)
  | [], writes => pure writes
  | (fileId, representativePath) :: rest, writes => do
    let aliases ← inspect fun ix => .ok (ix.listFileAliasPaths fileId)
    let writes ← inspect fun _ =>
      expandIdentity requestedPrevious requested fileId representativePath aliases writes
    expandIdentities requestedPrevious requested rest writes

/-! ## Packing the contents -/

/-- Writes of one file share their content in the pack. -/
inductive IdentityKey
  | inode (fileId : String)
  | path (path : LogicalPath)
deriving DecidableEq, Repr

def identityKey (previous : EntryViews) (write : StorageWrite) : IdentityKey :=
  match previous.fileId write.path with
  | some fileId => .inode fileId
  | none => .path write.path

def uniqueWrites (key : StorageWrite → IdentityKey) :
    List IdentityKey → List StorageWrite → List StorageWrite
  | _, [] => []
  | seen, write :: writes =>
    if key write ∈ seen then uniqueWrites key seen writes
    else write :: uniqueWrites key (key write :: seen) writes

variable (codec co : Codec)

def slotManifest (packKey : String) (input : PackInput) (slot : BuiltSlot) : FileManifest where
  logicalPath := input.logicalPath
  contentHash := codec.hexHash input.bytes
  slot := ⟨packKey, slot.offset, slot.length, slot.compression.algoByte.toNat⟩

/-- Pack files, and describe where they are. -/
def buildPackManifest (packKey : String) (inputs : List PackInput) :
    Except VfsStorageError (BuiltPack × List FileManifest) := do
  if inputs = [] then throw (.badRequest "cannot build vfs pack with no files")
  let built ← buildPack codec inputs
  return (built, List.zipWith (slotManifest codec packKey) inputs built.slots)

/-- The file of a batch that a write becomes. -/
def commitFile (previous : EntryViews) (write : StorageWrite) (manifest : FileManifest) :
    PackedFileCommit where
  logicalPath := write.path
  manifest := { manifest with logicalPath := write.path }
  fileId := previous.fileId write.path
  expectedFileId := write.precondition.bind (·.expectedFileId)
  contentPredicate :=
    (write.precondition.bind (·.effectivePredicate)) <|>
      -- the version is to be checked in place of the content
      if (write.precondition.bind (·.expectedCurrentVersion)).isSome then none
      else some (match (previous write.path).bind (·.contentHash) with
        | some fingerprint => .contentFingerprint fingerprint
        | none => .absent)
  expectedCurrentVersion := write.precondition.bind (·.expectedCurrentVersion)

def packInputs (previous : EntryViews) (writes : List StorageWrite) : List PackInput :=
  (uniqueWrites (identityKey previous) [] writes).map fun write => ⟨write.path, write.bytes, .zstd⟩

def manifestFor (previous : EntryViews) (packed : List (StorageWrite × FileManifest))
    (write : StorageWrite) : Option FileManifest :=
  (packed.find? fun pair => identityKey previous pair.1 = identityKey previous write).map Prod.snd

def prepareCommit (packKey : String) (previous : EntryViews) (writes : List StorageWrite) :
    Except VfsStorageError PackedCommit := do
  let (built, manifests) ← buildPackManifest codec packKey (packInputs previous writes)
  let packed := (uniqueWrites (identityKey previous) [] writes).zip manifests
  match writes.find? fun write => (manifestFor previous packed write).isNone with
  | some write => throw (.internal ("missing packed content for " ++ write.path.text))
  | none =>
    return {
      packKey := packKey
      totalSlotCount := built.slots.length
      referenceCount := writes.length
      totalBytes := built.packBytes.length
      files := writes.filterMap fun write =>
        (manifestFor previous packed write).map (commitFile previous write) }

/-! ## Calls -/

def writeManyAtomic (now : Nat) (packKey : String) (draw : LogicalPath → Draw)
    (writes : List StorageWrite) : IndexM (List WriteResult) := do
  if writes = [] then return []
  let requested := writes.map (·.path)
  match duplicatePath [] requested with
  | some path => throw (.badRequest ("duplicate vfs write path: " ++ path.text))
  | none =>
    createParentDirectoriesForWrites writes
    let requestedPrevious ← inspect fun ix => .ok ix.view
    let writes ← expandIdentities requestedPrevious requested
      (explicitByIdentity requestedPrevious requested) writes
    let previous ← inspect fun ix => .ok ix.view
    let commit ← inspect fun _ => prepareCommit codec packKey previous writes
    perform (commitPackedFiles now draw commit) id
    return (commit.files.map fun file => (⟨file.logicalPath, file.manifest.contentHash,
      (previous file.logicalPath).bind (·.contentHash), true⟩ : WriteResult)).filter
        fun result => result.path ∈ requested

/-- Write one file. -/
def write (now : Nat) (packKey : String) (draw : LogicalPath → Draw) (path : LogicalPath)
    (bytes : Bytes) (precondition : Option VersionedPrecondition) : IndexM WriteResult := do
  match ← writeManyAtomic codec now packKey draw [⟨path, bytes, precondition⟩] with
  | result :: _ => return result
  | [] => throw (.internal "write returned no result")

def deleteFileWithMetadata (now : Nat) (path : LogicalPath)
    (precondition : Option VersionedPrecondition) : IndexM (Option FileRow) :=
  transact (deleteFileEntryWithPrecondition now path
    (precondition.bind (·.effectivePredicate)) (precondition.bind (·.expectedFileId))
    (precondition.bind (·.expectedCurrentVersion)))

/-! ## What a batch is prepared as -/

variable {codec co} {packKey : String} {previous p : EntryViews} {writes wr : List StorageWrite}

theorem mem_of_mem_uniqueWrites {key : StorageWrite → IdentityKey} {seen : List IdentityKey}
    {w : StorageWrite} (h : w ∈ uniqueWrites key seen wr) : w ∈ wr := by
  induction wr generalizing seen with
  | nil => exact h
  | cons _ _ ih =>
    rw [uniqueWrites] at h
    split at h
    · exact mem_cons_of_mem _ (ih h)
    · rcases List.mem_cons.1 h with rfl | h
      · exact mem_cons_self
      · exact mem_cons_of_mem _ (ih h)

/-- Every key that was not seen before has a write. -/
theorem exists_mem_uniqueWrites (key : StorageWrite → IdentityKey) {seen : List IdentityKey}
    {w : StorageWrite} (hw : w ∈ wr) (hs : key w ∉ seen) :
    ∃ first ∈ uniqueWrites key seen wr, key first = key w := by
  induction wr generalizing seen with
  | nil => simp at hw
  | cons head wr ih =>
    rw [uniqueWrites]
    by_cases hk : key w = key head
    · rw [if_neg (hk ▸ hs)]
      exact ⟨head, mem_cons_self, hk.symm⟩
    · have hw : w ∈ wr :=
        (List.mem_cons.1 hw).resolve_left fun h => hk (h ▸ rfl)
      split
      · exact ih hw hs
      · obtain ⟨first, hf, heq⟩ := ih hw (not_mem_cons_of_ne_of_not_mem hk hs)
        exact ⟨first, mem_cons_of_mem _ hf, heq⟩

/-- A manifest describes the content of a write of the same file, in the batch's pack. -/
def Describes (codec : Codec) (packKey : String) (previous : EntryViews)
    (writes : List StorageWrite) (write : StorageWrite) (manifest : FileManifest) : Prop :=
  manifest.slot.packKey = packKey ∧ ∃ first ∈ writes,
    identityKey previous first = identityKey previous write ∧
      manifest.contentHash = codec.hexHash first.bytes

/-- Every write of a batch is described by a manifest of its pack. -/
theorem exists_manifestFor {b : BuiltPack}
    (hb : buildPack co (packInputs p wr) = .ok b) {w : StorageWrite}
    (hw : w ∈ wr) :
    ∃ ma, manifestFor p ((uniqueWrites (identityKey p) [] wr).zip
        (List.zipWith (slotManifest co packKey) (packInputs p wr) b.slots))
          w = some ma ∧ Describes co packKey p wr w ma := by
  set u := uniqueWrites (identityKey p) [] wr with hu
  set m := List.zipWith (slotManifest co packKey) (packInputs p wr) b.slots with hm
  have hl : u.length = m.length := by
    have hs := (extractSlot_build hb).length_eq
    rw [hm, length_zipWith, ← hs, Nat.min_self, packInputs, length_map]
  -- the manifests are made for the writes they are paired with
  have hp : ∀ pair ∈ u.zip m, pair.1 ∈ wr ∧ pair.2.slot.packKey = packKey ∧
      pair.2.contentHash = co.hexHash pair.1.bytes := by
    intro pair hp
    refine ⟨mem_of_mem_uniqueWrites (of_mem_zip hp).1, ?_⟩
    obtain ⟨i, hi, rfl⟩ := List.mem_iff_getElem.1 hp
    simp [hm, packInputs, slotManifest, hu]
  obtain ⟨_, hfi, hk⟩ :=
    exists_mem_uniqueWrites (identityKey p) hw not_mem_nil
  obtain ⟨i, hi, rfl⟩ := List.mem_iff_getElem.1 hfi
  have hz : (u.get ⟨i, hi⟩, m.get ⟨i, hl ▸ hi⟩) ∈ u.zip m := by
    refine List.mem_iff_getElem.2 ⟨i, ?_, getElem_zip⟩
    rw [length_zip, ← hl, Nat.min_self]
    exact hi
  cases hf : (u.zip m).find? fun pair =>
      decide (identityKey p pair.1 = identityKey p w) with
  | none =>
    rw [find?_eq_none] at hf
    exact absurd (decide_eq_true hk) (hf _ hz)
  | some pair =>
    obtain ⟨hmem, hpa, hh⟩ := hp pair (mem_of_find?_eq_some hf)
    refine ⟨pair.2, by rw [manifestFor, hf, Option.map_some], hpa, pair.1, hmem, ?_, hh⟩
    simpa using find?_some hf

theorem packInputs_ne_nil (hw : wr ≠ []) : packInputs p wr ≠ [] := by
  obtain ⟨_, hwr⟩ := exists_mem_of_ne_nil wr hw
  obtain ⟨_, hf, -⟩ :=
    exists_mem_uniqueWrites (identityKey p) hwr not_mem_nil
  exact ne_nil_of_mem (mem_map_of_mem hf)

/-- When the pack is built, every write of the batch becomes a file. -/
theorem prepareCommit_of_built (packKey : String) {b : BuiltPack} (hwr : wr ≠ [])
    (hb : buildPack co (packInputs p wr) = .ok b) :
    ∃ (c : PackedCommit) (mo : StorageWrite → FileManifest),
      prepareCommit co packKey p wr = .ok c ∧ c.packKey = packKey ∧
      c.files = wr.map (fun w => commitFile p w (mo w)) ∧
      ∀ w ∈ wr, Describes co packKey p wr w (mo w) := by
  set packed := (uniqueWrites (identityKey p) [] wr).zip
    (List.zipWith (slotManifest co packKey) (packInputs p wr) b.slots) with hpa
  have hm : ∀ w ∈ wr, ∃ m, manifestFor p packed w = some m ∧
      Describes co packKey p wr w m :=
    fun w hw => exists_manifestFor hb hw
  have hn : wr.find? (fun w => (manifestFor p packed w).isNone) = none := by
    simp only [find?_eq_none, Bool.not_eq_true, Option.isNone_eq_false_iff]
    intro w hw
    obtain ⟨m, hs, -⟩ := hm w hw
    simp [hs]
  have hi : packInputs p wr ≠ [] := packInputs_ne_nil hwr
  have hp : prepareCommit co packKey p wr = .ok {
      packKey := packKey
      totalSlotCount := b.slots.length
      referenceCount := wr.length
      totalBytes := b.packBytes.length
      files := wr.filterMap fun w =>
        (manifestFor p packed w).map (commitFile p w) } := by
    simp only [prepareCommit, buildPackManifest, hb, if_neg hi, bind, Except.bind, pure,
      Except.pure]
    rw [← hpa, hn]
  refine ⟨_, fun w => (manifestFor p packed w).getD ⟨[], "", ⟨"", 0, 0, 0⟩⟩, hp, rfl, ?_, ?_⟩
  · rw [← filterMap_eq_map]
    refine filterMap_congr fun w hw => ?_
    obtain ⟨m, hs, -⟩ := hm w hw
    simp [hs]
  · intro w hw
    obtain ⟨m, hs, hd⟩ := hm w hw
    simpa [hs] using hd

/-- A batch is prepared only if its pack is built. -/
theorem built_of_prepareCommit {c : PackedCommit} (hw : wr ≠ [])
    (h : prepareCommit co packKey p wr = .ok c) :
    ∃ b, buildPack co (packInputs p wr) = .ok b := by
  cases hb : buildPack co (packInputs p wr) with
  | ok b => exact ⟨b, rfl⟩
  | error =>
    simp [prepareCommit, buildPackManifest, hb, packInputs_ne_nil hw, bind, Except.bind] at h

end Chevalier.ObjectStore
