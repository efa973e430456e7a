import Chevalier.ObjectStore.Index

/-!
# What publishing a batch does

`publishPackedFiles` checks the preconditions of a batch, writes its entries and manifests, and
promotes its versions, in statements that each see what the ones before have written. Here it is
described by the tables it finds and the tables it leaves.

* `publishPackedFiles_eq_ok`: a published batch met its preconditions, and every file of it has the
  new content and version; no other entry differs.
* `publishPackedFiles_of_accepted`: a batch that meets its preconditions is published, unless a
  path has another version than the expected one.
-/

namespace Chevalier.ObjectStore

open Vfs List

variable {ix ix' : Index} {file : PackedFileCommit} {files fi : List PackedFileCommit}
  {draw : LogicalPath → Draw} {commit co : PackedCommit} {now : Nat}

/-! ## Preconditions -/

/-- The preconditions of a file of a batch hold. -/
structure PackedFileCommit.Accepted (ix : Index) (file : PackedFileCommit) : Prop where
  /-- no directory is in the way -/
  notDirectory : ix.entries.get file.logicalPath ≠ some .directory
  /-- the path names the expected file -/
  identity : file.expectedFileId = none ∨ ix.fileId file.logicalPath = file.expectedFileId
  /-- the content is the expected one -/
  content : ContentMatches (ix.entries.get file.logicalPath) file.contentPredicate

theorem commitRefusal_eq_none : commitRefusal ix file = none ↔ file.Accepted ix := by
  simp only [commitRefusal]
  constructor
  · intro h
    split_ifs at h with hd hi hc
    refine ⟨hd, ?_, hc⟩
    rw [not_and_or, Option.not_isSome_iff_eq_none, not_not] at hi
    exact hi
  · intro h
    have hi : ¬ (file.expectedFileId.isSome ∧
        ix.fileId file.logicalPath ≠ file.expectedFileId) := by
      rw [not_and_or, Option.not_isSome_iff_eq_none, not_not]
      exact h.identity
    rw [if_neg h.notDirectory, if_neg hi, if_neg (not_not.2 h.content)]

/-- A refusal is a conflict. -/
theorem commitRefusal_eq_some {e : VfsStorageError} (h : commitRefusal ix file = some e) :
    ∃ m, e = .conflict m := by
  simp only [commitRefusal] at h
  split_ifs at h <;> exact ⟨_, (Option.some.inj h).symm⟩

/-- The file is written only under a condition. -/
def PackedFileCommit.Guarded (file : PackedFileCommit) : Prop :=
  file.expectedFileId ≠ none ∨ file.contentPredicate ≠ none

/-! ## Entries -/

@[simp] theorem logicalPath_entryRow : (file.entryRow draw).logicalPath = file.logicalPath := rfl

@[simp] theorem logicalPath_promoteItem {v : LogicalPath → Option String} :
    (file.promoteItem draw v).logicalPath = file.logicalPath := rfl

theorem guarded_entryRow : (file.entryRow draw).Guarded ↔ file.Guarded := Iff.rfl

/-- The columns a file of a batch has when it is written and not yet promoted. -/
def PackedFileCommit.writtenRow (draw : LogicalPath → Draw) (ix : Index)
    (file : PackedFileCommit) : FileRow :=
  match ix.row file.logicalPath with
  | some current => { current with contentHash := some file.manifest.contentHash }
  | none => ⟨some (file.fileId.getD (draw file.logicalPath).fileId),
      some file.manifest.contentHash, none, none⟩

/-- The columns a file of a batch has when it is published. -/
def PackedFileCommit.committedRow (draw : LogicalPath → Draw) (ix : Index)
    (file : PackedFileCommit) : FileRow where
  fileId := match ix.row file.logicalPath with
    | some current => current.fileId
    | none => some (file.fileId.getD (draw file.logicalPath).fileId)
  contentHash := some file.manifest.contentHash
  currentVersion := some (draw file.logicalPath).versionId
  manifest := some (draw file.logicalPath).manifestId

theorem guardedEntry_of_accepted (draw : LogicalPath → Draw) (hg : file.Guarded)
    (h : file.Accepted ix) :
    (file.entryRow draw).guardedEntry (ix.entries.get file.logicalPath) =
      some (.file (file.writtenRow draw ix)) := by
  obtain ⟨hd, hi, hc⟩ := h
  simp only [PackedFileCommit.writtenRow, Index.fileId, Index.row] at hi ⊢
  cases he : ix.entries.get file.logicalPath with
  | none =>
    have hexp : file.expectedFileId = none := by
      rcases hi with h | h
      · exact h
      · rw [← h, he]; rfl
    have ha : file.contentPredicate = some .absent := by
      rw [he] at hc
      cases hp : file.contentPredicate with
      | none => exact absurd hg (by simp [PackedFileCommit.Guarded, hexp, hp])
      | some p =>
        cases p with
        | absent => rfl
        | contentFingerprint => simp [ContentMatches, hp] at hc
    simp [EntryBatchRow.guardedEntry, PackedFileCommit.entryRow, hexp, ha]
  | some e =>
    cases e with
    | directory => exact absurd he hd
    | file c =>
      have hu : (file.entryRow draw).Updates c := by
        refine ⟨hi.imp_right fun h => ?_, ?_⟩
        · rw [he] at h
          exact h
        · rw [he] at hc
          simp only [PackedFileCommit.entryRow]
          cases hp : file.contentPredicate with
          | none => exact .inl rfl
          | some p =>
            cases p with
            | absent => simp [ContentMatches, hp] at hc
            | contentFingerprint f =>
              rw [hp] at hc
              exact .inr ⟨f, hc, rfl⟩
      rw [EntryBatchRow.guardedEntry, if_pos hu]
      rfl

/-- The entries of a batch that is written and not yet promoted. -/
def writtenEntries (draw : LogicalPath → Draw) (files : List PackedFileCommit) (ix : Index) :
    Table LogicalPath Entry :=
  ix.entries.setAll (files.map fun file => (file.logicalPath, .file (file.writtenRow draw ix)))

/-- The guarded statement writes all the files of a batch that meets its preconditions, if their
paths are distinct. -/
theorem upsertGuardedEntriesBatch_eq (hg : ∀ file ∈ fi, file.Guarded)
    (ha : ∀ file ∈ fi, file.Accepted ix) :
    upsertGuardedEntriesBatch ix.entries (fi.map (·.entryRow draw)) =
      if (fi.map (·.logicalPath)).Nodup then .ok (writtenEntries draw fi ix)
      else .error (.conflict "vfs write precondition failed for ") := by
  have hw : (fi.map (·.entryRow draw)).filterMap (fun row =>
      (row.guardedEntry (ix.entries.get row.logicalPath)).map (row.logicalPath, ·)) =
        fi.map fun file => (file.logicalPath, .file (file.writtenRow draw ix)) := by
    rw [filterMap_map, ← filterMap_eq_map]
    refine filterMap_congr fun file hf => ?_
    have he := guardedEntry_of_accepted draw (hg file hf) (ha file hf)
    simp only [Function.comp_apply, logicalPath_entryRow, he, Option.map_some]
  have hc : (fi.map fun file =>
      (file.logicalPath, Entry.file (file.writtenRow draw ix))).map Prod.fst =
        fi.map (·.logicalPath) := by simp [Function.comp_def]
  have hl : (fi.map (·.logicalPath)).dedup.length = (fi.map (·.entryRow draw)).length ↔
      (fi.map (·.logicalPath)).Nodup := by
    rw [← dedup_eq_self, length_map]
    constructor
    · intro h
      exact (dedup_sublist _).eq_of_length (by simpa using h)
    · intro h
      rw [h, length_map]
  have hn : (fi.map (·.entryRow draw)).find? (fun row =>
      decide (row.logicalPath ∉ fi.map (·.logicalPath))) = none := by
    simp only [find?_eq_none, mem_map, forall_exists_index, and_imp]
    rintro _ file hf rfl
    simpa using ⟨file, hf, rfl⟩
  simp only [upsertGuardedEntriesBatch, hw, hc, hl, hn]
  rfl

/-- Every file of the batch is guarded, so that nothing is left to the unguarded statement. -/
theorem upsertEntriesBatch_eq (hg : ∀ file ∈ fi, file.Guarded)
    (ha : ∀ file ∈ fi, file.Accepted ix) :
    upsertEntriesBatch ix.entries (fi.map (·.entryRow draw)) =
      if (fi.map (·.logicalPath)).Nodup then .ok (writtenEntries draw fi ix)
      else .error (.conflict "vfs write precondition failed for ") := by
  have hall : (fi.map (·.entryRow draw)).filter (fun row => decide row.Guarded) =
      fi.map (·.entryRow draw) := by
    simp only [filter_eq_self, mem_map, forall_exists_index, and_imp]
    rintro _ file hf rfl
    exact decide_eq_true (hg file hf)
  have hr : (fi.map (·.entryRow draw)).filter (fun row => decide (¬ row.Guarded)) = [] := by
    simp only [filter_eq_nil_iff, mem_map, forall_exists_index, and_imp]
    rintro _ file hf rfl
    simpa [guarded_entryRow] using hg file hf
  rw [upsertEntriesBatch, hall, hr, upsertGuardedEntriesBatch_eq hg ha]
  split <;> rfl

/-! ## Versions -/

/-- The version that a file of a batch must find to be promoted: the one found with the
preconditions, or the one its writer expects. -/
def PackedFileCommit.promotedOver (ix : Index) (file : PackedFileCommit) : Option String :=
  ix.currentVersion file.logicalPath <|> file.expectedCurrentVersion

theorem get_writtenEntries (hp : (fi.map (·.logicalPath)).Nodup) (hf : file ∈ fi) :
    (writtenEntries draw fi ix).get file.logicalPath = some (.file (file.writtenRow draw ix)) := by
  refine Table.get_setAll_of_mem ?_ (mem_map_of_mem hf)
  simpa [Function.comp_def] using hp

theorem get_writtenEntries_of_notMem {path : LogicalPath}
    (hp : path ∉ fi.map (·.logicalPath)) :
    (writtenEntries draw fi ix).get path = ix.entries.get path := by
  refine Table.get_setAll_of_notMem ?_
  simpa [Function.comp_def] using hp

theorem currentVersion_writtenRow :
    (file.writtenRow draw ix).currentVersion = ix.currentVersion file.logicalPath := by
  rw [PackedFileCommit.writtenRow, Index.currentVersion]
  split
  · next h => rw [h]; rfl
  · next h => rw [h]; rfl

/-- The entries of a published batch. -/
def committedEntries (draw : LogicalPath → Draw) (files : List PackedFileCommit) (ix : Index) :
    Table LogicalPath Entry :=
  (writtenEntries draw files ix).modify fun path entry =>
    match (files.map (·.promoteItem draw ix.currentVersion)).find?
        fun item => item.logicalPath = path with
    | some item => item.promoted entry
    | none => entry

/-- Versions are promoted if every path has the version it is to be promoted over. -/
theorem batchPromoteManifestVersions_eq (hp : (fi.map (·.logicalPath)).Nodup) :
    batchPromoteManifestVersions (writtenEntries draw fi ix)
        (fi.map (·.promoteItem draw ix.currentVersion)) =
      match fi.find? fun file =>
          decide (ix.currentVersion file.logicalPath ≠ file.promotedOver ix) with
      | some file =>
        .error (.conflict ("vfs write precondition failed for " ++ file.logicalPath.text))
      | none => .ok (committedEntries draw fi ix) := by
  have hn : ((fi.map (·.promoteItem draw ix.currentVersion)).map
      (·.logicalPath)).Nodup := by
    rw [map_map]
    exact hp
  have hfi : (fi.map (·.promoteItem draw ix.currentVersion)).find? (fun item => decide (
      ((((writtenEntries draw fi ix).get item.logicalPath).bind Entry.row).bind
        (·.currentVersion)) ≠ item.expectedCurrentVersion ∨
          (writtenEntries draw fi ix).get item.logicalPath = none)) =
      (fi.find? fun file =>
        decide (ix.currentVersion file.logicalPath ≠ file.promotedOver ix)).map
          (·.promoteItem draw ix.currentVersion) := by
    rw [find?_map, ← head?_filter, ← head?_filter]
    congr 2
    refine filter_congr fun file hf => ?_
    simp only [Function.comp_apply, logicalPath_promoteItem, get_writtenEntries hp hf]
    simp [Entry.row, currentVersion_writtenRow, PackedFileCommit.promoteItem,
      PackedFileCommit.promotedOver]
  rw [batchPromoteManifestVersions, if_pos hn, hfi]
  cases fi.find? fun file =>
    decide (ix.currentVersion file.logicalPath ≠ file.promotedOver ix) <;> rfl

theorem get_committedEntries (hp : (fi.map (·.logicalPath)).Nodup) (hf : file ∈ fi) :
    (committedEntries draw fi ix).get file.logicalPath =
      some (.file (file.committedRow draw ix)) := by
  have hfi : (fi.map (·.promoteItem draw ix.currentVersion)).find?
      (fun item => decide (item.logicalPath = file.logicalPath)) =
        some (file.promoteItem draw ix.currentVersion) := by
    have hn : ((fi.map (·.promoteItem draw ix.currentVersion)).map
        PromoteItem.logicalPath).Nodup := by
      rw [map_map]
      exact hp
    exact find?_key PromoteItem.logicalPath hn (mem_map_of_mem hf)
  rw [committedEntries, Table.get_modify, get_writtenEntries hp hf, hfi, Option.map_some]
  congr 1
  simp only [PromoteItem.promoted, PackedFileCommit.writtenRow, PackedFileCommit.committedRow,
    PackedFileCommit.promoteItem]
  split <;> rfl

theorem get_committedEntries_of_notMem {path : LogicalPath}
    (hp : path ∉ fi.map (·.logicalPath)) :
    (committedEntries draw fi ix).get path = ix.entries.get path := by
  have hfi : (fi.map (·.promoteItem draw ix.currentVersion)).find?
      (fun item => decide (item.logicalPath = path)) = none := by
    simp only [find?_eq_none, mem_map, forall_exists_index, and_imp]
    rintro _ _ hf rfl
    rw [logicalPath_promoteItem, decide_eq_true_eq]
    exact fun h => hp (h ▸ mem_map_of_mem hf)
  rw [committedEntries, Table.get_modify, get_writtenEntries_of_notMem hp, hfi]
  simp

/-! ## The whole batch -/

def manifestRows (draw : LogicalPath → Draw) (files : List PackedFileCommit) :
    List (String × FileManifest) :=
  files.map fun file => ((draw file.logicalPath).manifestId, file.manifest)

/-- The identifiers drawn for the manifests of a batch are new. -/
def FreshManifests (draw : LogicalPath → Draw) (files : List PackedFileCommit) (ix : Index) : Prop :=
  ((manifestRows draw files).map Prod.fst).Nodup ∧
    ∀ row ∈ manifestRows draw files, ix.manifests.get row.1 = none

/-- The tables after a batch was published. -/
def published (now : Nat) (draw : LogicalPath → Draw) (commit : PackedCommit) (ix : Index) :
    Index where
  entries := committedEntries draw commit.files ix
  manifests := ix.manifests.setAll (manifestRows draw commit.files)
  packs := if (ix.packs.get commit.packKey).isSome then ix.packs
    else ix.packs.set commit.packKey
      ⟨commit.totalSlotCount, commit.referenceCount, commit.totalBytes, now⟩

/-- A batch that meets its preconditions is published, unless a path has another version than the
one it is to be promoted over. -/
theorem publishPackedFiles_of_accepted (hg : ∀ file ∈ co.files, file.Guarded)
    (ha : ∀ file ∈ co.files, file.Accepted ix)
    (hp : (co.files.map (·.logicalPath)).Nodup)
    (hf : FreshManifests draw co.files ix) :
    publishPackedFiles now draw co ix =
      match co.files.find? fun file =>
          decide (ix.currentVersion file.logicalPath ≠ file.promotedOver ix) with
      | some file =>
        .error (.conflict ("vfs write precondition failed for " ++ file.logicalPath.text))
      | none => .ok (published now draw co ix) := by
  have hr : resolveCommitPreconditions ix co.files = .ok ix.currentVersion := by
    have hn : co.files.findSome? (commitRefusal ix) = none := by
      rw [findSome?_eq_none_iff]
      exact fun file hfi => commitRefusal_eq_none.2 (ha file hfi)
    rw [resolveCommitPreconditions, hn]
  have hm : insertManifestsBatch ix.manifests (manifestRows draw co.files) =
      .ok (ix.manifests.setAll (manifestRows draw co.files)) := if_pos hf
  have hro : (co.files.map fun file =>
      ((draw file.logicalPath).manifestId, file.manifest)) = manifestRows draw co.files := rfl
  simp only [publishPackedFiles, hr, upsertEntriesBatch_eq hg ha,
    if_pos hp, hro, hm, batchPromoteManifestVersions_eq hp, bind, Except.bind]
  cases co.files.find? fun file =>
    decide (ix.currentVersion file.logicalPath ≠ file.promotedOver ix) <;> rfl

/-- A batch is refused because of a file that does not meet its preconditions. -/
theorem publishPackedFiles_of_refused (now : Nat) (draw : LogicalPath → Draw)
    (hf : file ∈ co.files) (h : ¬ file.Accepted ix) :
    ∃ m, publishPackedFiles now draw co ix = .error (.conflict m) := by
  cases hr : co.files.findSome? (commitRefusal ix) with
  | none =>
    rw [findSome?_eq_none_iff] at hr
    exact absurd (commitRefusal_eq_none.1 (hr file hf)) h
  | some =>
    obtain ⟨_, -, he⟩ := exists_of_findSome?_eq_some hr
    obtain ⟨m, rfl⟩ := commitRefusal_eq_some he
    exact ⟨m, by simp [publishPackedFiles, resolveCommitPreconditions, hr, bind, Except.bind]⟩

/-- **A published batch met its preconditions**, and what it leaves is known. -/
theorem publishPackedFiles_eq_ok (hg : ∀ file ∈ co.files, file.Guarded)
    (h : publishPackedFiles now draw co ix = .ok ix') :
    (∀ file ∈ co.files, file.Accepted ix) ∧ (co.files.map (·.logicalPath)).Nodup ∧
      FreshManifests draw co.files ix ∧ ix' = published now draw co ix := by
  have ha : ∀ file ∈ co.files, file.Accepted ix := by
    intro file hfi
    by_contra hr
    obtain ⟨_, he⟩ := publishPackedFiles_of_refused now draw hfi hr
    rw [h] at he
    cases he
  have hn : co.files.findSome? (commitRefusal ix) = none := by
    rw [findSome?_eq_none_iff]
    exact fun file hfi => commitRefusal_eq_none.2 (ha file hfi)
  have hp : (co.files.map (·.logicalPath)).Nodup := by
    by_contra hp
    simp [publishPackedFiles, resolveCommitPreconditions, hn,
      upsertEntriesBatch_eq hg ha, hp, bind, Except.bind] at h
  have hf : FreshManifests draw co.files ix := by
    by_contra hf
    have hm : insertManifestsBatch ix.manifests (co.files.map fun file =>
        ((draw file.logicalPath).manifestId, file.manifest)) =
          .error (.internal "duplicate key value violates unique constraint") := if_neg hf
    simp [publishPackedFiles, resolveCommitPreconditions, hn,
      upsertEntriesBatch_eq hg ha, hp, hm, bind, Except.bind] at h
  refine ⟨ha, hp, hf, ?_⟩
  rw [publishPackedFiles_of_accepted hg ha hp hf] at h
  split at h
  · cases h
  · exact (Except.ok.inj h).symm

end Chevalier.ObjectStore
