import Chevalier.ObjectStore.Transactions

/-!
# Locked identities

A transaction holds the advisory locks of the identities that it relies on. What it has seen with
the locks stays so until its commit, because every other transaction changes only the paths of
identities that it has locked itself, and gives new files identities that were never in use
(`Transaction.Effect`).

* **`System.Sound.step`**: one step keeps what the calls rely on.
-/

namespace Chevalier.ObjectStore

open Vfs Transaction

variable {codec co : Codec} {ix ix' : Index} {path : LogicalPath} {now : Nat}
  {draw : LogicalPath → Draw} {id : String}

/-! ## Identities in the index -/

theorem fileId_eq : ix.fileId path = ((ix.entries.get path).bind Entry.row).bind (·.fileId) := rfl

/-- Files have an identity. -/
def Index.Identified (ix : Index) : Prop :=
  ∀ path row, ix.entries.get path = some (.file row) → row.fileId ≠ none

/-- The paths of an identity are the same. -/
def Keeps (ix ix' : Index) (id : String) : Prop :=
  ∀ path, ix'.fileId path = some id ↔ ix.fileId path = some id

/-- What a transaction does to the identities: only the paths of identities that it has locked
change, and new identities are drawn ones. -/
structure Transaction.Effect (ix ix' : Index) (draw : LogicalPath → Draw)
    (transaction : Transaction) : Prop where
  /-- other identities keep their paths -/
  keeps : ∀ id, .identity id ∉ transaction.keys → id ∉ transaction.newIds draw → Keeps ix ix' id
  /-- files have an identity -/
  identified : ix'.Identified
  /-- an identity was there before, or was drawn -/
  known : ∀ path id, ix'.fileId path = some id →
    (∃ other, ix.fileId other = some id) ∨ id ∈ transaction.newIds draw

theorem Keeps.refl (ix : Index) (id : String) : Keeps ix ix id := fun _ => Iff.rfl

theorem exists_row_of_fileId (h : ix.fileId path = some id) :
    ∃ row, ix.entries.get path = some (.file row) ∧ row.fileId = some id := by
  rw [fileId_eq] at h
  cases he : ix.entries.get path with
  | none => simp [he] at h
  | some e =>
    cases e with
    | directory => simp [he, Entry.row] at h
    | file row => exact ⟨row, rfl, by simpa [he, Entry.row] using h⟩

variable {row : FileRow}

theorem Index.Identified.fileId_ne_none (h : ix.Identified)
    (hr : ix.entries.get path = some (.file row)) : ix.fileId path ≠ none := by
  rw [fileId_eq, hr]
  exact h path row hr

theorem Index.Identified.row_fileId_ne_none (h : ix.Identified)
    (hr : ix.row path = some row) : row.fileId ≠ none := by
  cases he : ix.entries.get path with
  | none => simp [Index.row, he] at hr
  | some e =>
    cases e with
    | directory => simp [Index.row, he, Entry.row] at hr
    | file o =>
      obtain rfl : o = row := by simpa [Index.row, he, Entry.row] using hr
      exact h path o he

theorem fileId_eq_join : ix.fileId path = ((ix.row path).map (·.fileId)).join := by
  rw [Index.fileId]
  cases ix.row path <;> rfl

theorem row_of_get (h : ix.entries.get path = some (.file row)) :
    ix.row path = some row := by
  rw [Index.row, h]
  rfl

/-- Without an identity, a path names no file. -/
theorem Index.Identified.row_eq_none (h : ix.Identified) (hid : ix.fileId path = none) :
    ix.row path = none := by
  cases he : ix.entries.get path with
  | none => simp [Index.row, he]
  | some e =>
    cases e with
    | directory => simp [Index.row, he, Entry.row]
    | file => exact absurd hid (h.fileId_ne_none he)

/-! ## Hard links, deletes and renames -/

variable {other o : LogicalPath}

theorem get_removeFile : (removeFile path ix).entries.get o =
    if o = path ∧ ix.entries.get o ≠ some .directory then none
    else ix.entries.get o := by
  rw [removeFile, Table.get_delete]
  cases he : ix.entries.get o with
  | none => simp
  | some e => by_cases h : o = path ∧ e ≠ .directory <;> simp [h, Option.filter]

/-- What a transaction may do at a path: the identity before is a locked one, and the identity after
is locked and was there before, or is a drawn one. -/
structure Transaction.Touches (ix ix' : Index) (draw : LogicalPath → Draw)
    (transaction : Transaction) (path : LogicalPath) : Prop where
  before : ∀ id, ix.fileId path = some id → .identity id ∈ transaction.keys
  after : ∀ row, ix'.entries.get path = some (.file row) → ∃ id, row.fileId = some id ∧
    (.identity id ∈ transaction.keys ∧ (∃ other, ix.fileId other = some id) ∨
      id ∈ transaction.newIds draw)

/-- A transaction that keeps the identity of every path or touches it has its effect. -/
theorem Transaction.Effect.of_touches {tr : Transaction} (hi : ix.Identified)
    (h : ∀ path, (ix'.row path).map (·.fileId) = (ix.row path).map (·.fileId) ∨
      tr.Touches ix ix' draw path) : tr.Effect ix ix' draw where
  keeps := by
    intro id hk hn path
    rcases h path with heq | ht
    · rw [fileId_eq_join, fileId_eq_join, heq]
    · constructor
      · intro hid
        obtain ⟨row, hr, hid⟩ := exists_row_of_fileId hid
        obtain ⟨id', hi', hc⟩ := ht.after row hr
        obtain rfl : id' = id := Option.some.inj (hi'.symm.trans hid)
        exact (hc.elim (fun h => hk h.1) hn).elim
      · exact fun hid => absurd (ht.before id hid) hk
  identified := by
    intro path row hr
    rcases h path with heq | ht
    · rw [row_of_get hr, Option.map_some] at heq
      obtain ⟨_, hold, hid⟩ := Option.map_eq_some_iff.1 heq.symm
      exact hid ▸ hi.row_fileId_ne_none hold
    · obtain ⟨id, hid, -⟩ := ht.after row hr
      simp [hid]
  known := by
    intro path id hid
    rcases h path with heq | ht
    · exact .inl ⟨path, by rwa [fileId_eq_join, heq, ← fileId_eq_join] at hid⟩
    · obtain ⟨row, hr, hid⟩ := exists_row_of_fileId hid
      obtain ⟨id', hi', hc⟩ := ht.after row hr
      obtain rfl : id' = id := Option.some.inj (hi'.symm.trans hid)
      exact hc.imp_left (·.2)

theorem same_of_get_eq (h : ix'.entries.get path = ix.entries.get path) :
    (ix'.row path).map (·.fileId) = (ix.row path).map (·.fileId) := by
  rw [Index.row, Index.row, h]

theorem get_unlinkFile' : (unlinkFile now path ix).entries.get o =
    if o = path ∧ ix.entries.get o ≠ some .directory then none
    else ix.entries.get o := by
  rw [unlinkFile, Index.entries_foldl_updatePackReferenceCount, get_removeFile]

theorem effect_unlink {fi ecv : Option String}
    (hi : ix.Identified) (hc : ix.fileId path = fi) :
    (unlink path fi ecv).Effect ix (unlinkFile now path ix) draw := by
  refine .of_touches hi fun o => ?_
  by_cases h : o = path ∧ ix.entries.get o ≠ some .directory
  · refine .inr ⟨fun id hid => ?_, fun row hr => ?_⟩
    · simp [keys, ← hc, ← h.1, hid]
    · rw [get_unlinkFile', if_pos h] at hr
      cases hr
  · exact .inl (same_of_get_eq (by rw [get_unlinkFile', if_neg h]))

/-- Files have their identity already when they are linked. -/
theorem get_identifySource (hi : ix.Identified) :
    (identifySource path id ix).entries.get o = ix.entries.get o := by
  rw [identifySource, Table.get_modify]
  cases he : ix.entries.get o with
  | none => rfl
  | some e =>
    cases e with
    | directory => rfl
    | file row => simp [hi o row he]

variable {source so : LogicalPath}

/-- The source of a link has the locked identity. -/
theorem fileId_of_linkSource {oi fi : String} {c : LinkSource}
    (hi : ix.Identified) (h : linkSource so oi fi ix = .ok c) :
    ix.fileId so = some fi := by
  simp only [linkSource] at h
  cases he : ix.entries.get so with
  | none => simp [he] at h
  | some e =>
    cases e with
    | directory => simp [he] at h
    | file row =>
      simp only [he] at h
      split at h
      · cases h
      · next hs =>
        obtain ⟨_, hid⟩ := Option.ne_none_iff_exists'.1 (hi so row he)
        rw [hid, Option.getD_some, not_not] at hs
        rw [fileId_eq, he, ← hs]
        exact hid

variable {destination de : LogicalPath}

/-- What a link leaves. -/
theorem linkFile_eq_ok {fi : String} {c : LinkSource}
    {d : Draw} (hi : ix.Identified)
    (h : linkFile now d so de fi c ix = .ok ix') :
    ix.entries.get de = none ∧ ix.manifests.get d.manifestId = none ∧
      (∀ path, ix'.entries.get path = if path = de then
          some (.file ⟨some fi, c.contentHash, some d.versionId, some d.manifestId⟩)
        else ix.entries.get path) ∧
      ix'.manifests = ix.manifests.set d.manifestId { c.manifest with logicalPath := de } := by
  simp only [linkFile] at h
  split at h
  · cases h
  · next hf =>
    split at h
    · cases h
    · next hn =>
      cases h
      refine ⟨by simpa using hf, by simpa using hn, fun path => ?_, rfl⟩
      rw [Index.entries_updatePackReferenceCount, Table.get_set, get_identifySource hi]

theorem effect_link {oi fi : String}
    {c : Option (String × LinkSource)} (hi : ix.Identified)
    (hl : ix.fileId so = some fi)
    (hc : (link so de oi fi c).commit now draw ix = .ok ix') :
    (link so de oi fi c).Effect ix ix' draw := by
  cases c with
  | none =>
    cases hc
    exact .of_touches hi fun path => .inl rfl
  | some =>
    obtain ⟨hn, -, hg, -⟩ := linkFile_eq_ok hi hc
    refine .of_touches hi fun path => ?_
    by_cases h : path = de
    · subst h
      refine .inr ⟨fun id hid => ?_, fun row hr => ⟨fi, ?_, .inl ⟨?_, so, hl⟩⟩⟩
      · simp [fileId_eq, hn] at hid
      · rw [hg, if_pos rfl, Option.some.injEq, Entry.file.injEq] at hr
        rw [← hr]
      · simp [keys]
    · exact .inl (same_of_get_eq (by rw [hg, if_neg h]))

/-- What a rename leaves: the row of the source, at the destination. -/
theorem get_renameFile {r : Bool}
    (hne : so ≠ de) (hro : ix.entries.get so = some (.file row))
    (hr : renameFile now so de r ix = .ok ix') :
    (r = false → ix.entries.get de = none) ∧
      ∀ path, ix'.entries.get path = if path = de then some (.file row)
        else if path = so then none else ix.entries.get path := by
  set cleared := if r then removeFile de ix else ix with hc
  have hg : ∀ path, path ≠ de → cleared.entries.get path = ix.entries.get path := by
    intro path hp
    rw [hc]
    split
    · rw [get_removeFile, if_neg fun h => hp h.1]
    · rfl
  have hs : cleared.row so = some row := by
    rw [Index.row, hg so hne, hro]
    rfl
  simp only [renameFile, ← hc, moveFile, hs] at hr
  split at hr
  · cases hr
  · next hf =>
    cases hr
    constructor
    · intro hre
      simpa [hc, hre] using hf
    · intro path
      rw [Index.entries_foldl_updatePackReferenceCount, Table.get_set]
      split
      · rfl
      · next hp =>
        rw [Table.get_delete, hg path hp]
        split
        · next h =>
          subst h
          simp [hro]
        · next h => cases ix.entries.get path <;> simp [h]

theorem effect_rename {fi : Option String}
    {sn : Option (Option String)} {ar r : Bool}
    (hi : ix.Identified) (hne : so ≠ de) (hso : fi ≠ none)
    (hs : ix.fileId so = fi)
    (hd : r = true → sn = some (ix.fileId de))
    (hc : renameFile now so de r ix = .ok ix') :
    (rename so de fi sn ar r).Effect ix ix' draw := by
  obtain ⟨id, rfl⟩ := Option.ne_none_iff_exists'.1 hso
  obtain ⟨_, hro, hid⟩ := exists_row_of_fileId hs
  obtain ⟨hf, hg⟩ := get_renameFile hne hro hc
  refine .of_touches hi fun path => ?_
  by_cases hp : path = de
  · subst hp
    refine .inr ⟨fun o ho => ?_, fun m hm => ⟨id, ?_, .inl ⟨?_, so, hs⟩⟩⟩
    · cases hr : r with
      | false => simp [fileId_eq, hf hr] at ho
      | true => simp [keys, hd hr, ho]
    · rw [hg, if_pos rfl, Option.some.injEq, Entry.file.injEq] at hm
      rw [← hm, hid]
    · simp [keys]
  · by_cases hp' : path = so
    · subst hp'
      refine .inr ⟨fun o ho => ?_, fun m hm => ?_⟩
      · obtain rfl : id = o := Option.some.inj (hs.symm.trans ho)
        simp [keys]
      · rw [hg, if_neg hp, if_pos rfl] at hm
        cases hm
    · exact .inl (same_of_get_eq (by rw [hg, if_neg hp, if_neg hp']))

/-! ## Batches -/

variable {requested re : List StorageWrite} {commit : PackedCommit}

/-- The identity that a validated file was built with is the one it has. -/
theorem AliasSnapshot.fileId {f : List PackedFileCommit} (h : AliasSnapshot ix f)
    {file : PackedFileCommit} (hf : file ∈ f) (hid : file.fileId = some id) :
    ix.fileId file.logicalPath = some id := by
  refine Index.mem_listFileAliasPaths.1 ((h file hf id hid).2 ?_)
  exact List.mem_map_of_mem (List.mem_filter.2 ⟨hf, decide_eq_true hid⟩)

/-- A path of an identity of a validated batch is in the batch. -/
theorem AliasSnapshot.exists_file {f : List PackedFileCommit} (h : AliasSnapshot ix f)
    {file : PackedFileCommit} (hf : file ∈ f) (hid : file.fileId = some id)
    (hp : ix.fileId path = some id) :
    ∃ o ∈ f, o.logicalPath = path ∧ o.fileId = some id := by
  obtain ⟨o, ho, rfl⟩ :=
    List.mem_map.1 ((h file hf id hid).1 (Index.mem_listFileAliasPaths.2 hp))
  obtain ⟨ho, hid⟩ := List.mem_filter.1 ho
  exact ⟨o, ho, rfl, of_decide_eq_true hid⟩

theorem effect_publish (hi : ix.Identified)
    (hg : ∀ file ∈ commit.files, file.Guarded) (hs : AliasSnapshot ix commit.files)
    (hp : publishPackedFiles now draw commit ix = .ok ix') :
    (publish re commit).Effect ix ix' draw := by
  obtain ⟨_, hpat, -, rfl⟩ := publishPackedFiles_eq_ok hg hp
  refine .of_touches hi fun path => ?_
  by_cases hpa : path ∈ commit.files.map (·.logicalPath)
  · obtain ⟨file, hf, rfl⟩ := List.mem_map.1 hpa
    have hge : (published now draw commit ix).entries.get file.logicalPath =
        some (.file (file.committedRow draw ix)) := get_committedEntries hpat hf
    have ha : (published now draw commit ix).row file.logicalPath =
        some (file.committedRow draw ix) := row_of_get hge
    cases hr : ix.row file.logicalPath with
    | some =>
      rw [ha]
      exact .inl (by simp [PackedFileCommit.committedRow, hr])
    | none =>
      have hn : file.fileId = none := by
        by_contra hso
        obtain ⟨id, hid⟩ := Option.ne_none_iff_exists'.1 hso
        have hfo := hs.fileId hf hid
        simp [Index.fileId, hr] at hfo
      refine .inr ⟨fun id hid => by simp [Index.fileId, hr] at hid, fun row hr' => ?_⟩
      obtain rfl : file.committedRow draw ix = row := by
        simpa using hge.symm.trans hr'
      refine ⟨(draw file.logicalPath).fileId, ?_, .inr ?_⟩
      · simp [PackedFileCommit.committedRow, hr, hn]
      · refine List.mem_append_left _ (List.mem_map.2 ⟨file, ?_, rfl⟩)
        exact List.mem_filter.2 ⟨hf, decide_eq_true hn⟩
  · exact .inl (same_of_get_eq (get_committedEntries_of_notMem hpa))

/-! ## What a transaction relies on -/

theorem fileId_of_deleteRefusal {li ecv : Option String}
    {p : FileRow} (h : deleteRefusal path li ecv p = none) :
    p.fileId = li := by
  rw [deleteRefusal] at h
  split at h
  · cases h
  · next hid => exact not_not.1 hid

theorem renameRefusal_eq_none {ls : Option String}
    {sn : Option (Option String)} {ar : Bool}
    (h : renameRefusal so de ls sn ar ix = none) :
    ix.fileId so = ls ∧
      (ix.entries.get de ≠ none → sn = some (ix.fileId de)) ∧
      ix.entries.get de ≠ some .directory := by
  simp only [renameRefusal] at h
  cases he : ix.entries.get so with
  | none => simp [he] at h
  | some =>
    simp only [he] at h
    split_ifs at h with hid hs hd hsa hr
    refine ⟨?_, fun ht => ?_, hd⟩
    · rw [fileId_eq, he]
      exact not_not.1 hid
    · cases sn with
      | none => exact absurd (.inl ⟨rfl, ht⟩) hs
      | some l =>
        by_contra hne
        exact hs (.inr ⟨l, rfl, ht, fun heq => hne (heq ▸ rfl)⟩)

namespace Transaction

/-- What holds of a transaction from the start. -/
def Planned : Transaction → Prop
  | .publish _ commit => ∀ file ∈ commit.files, file.Guarded
  | .link .. => True
  | .unlink _ fileId _ => fileId ≠ none
  | .rename source destination fileId _ _ _ => source ≠ destination ∧ fileId ≠ none

/-- What a transaction has seen with its locks. -/
def Checked (ix : Index) : Transaction → Prop
  | .publish _ commit => AliasSnapshot ix commit.files
  | .link source _ _ fileId _ => ix.fileId source = some fileId
  | .unlink path fileId _ => ix.fileId path = fileId
  | .rename source destination fileId snapshot _ replaces => ix.fileId source = fileId ∧
      (replaces = true → snapshot = some (ix.fileId destination) ∧ ix.fileId destination ≠ none)

variable {tr t' : Transaction}

theorem checked_of_check (hi : ix.Identified) (hp : tr.Planned)
    (h : tr.check ix = some t') :
    t'.Planned ∧ t'.Checked ix ∧ t'.keys = tr.keys := by
  cases tr with
  | publish =>
    simp only [check, validateFileAliasSnapshot] at h
    split at h
    · next hv =>
      split at hv
      · next hsn =>
        cases h
        exact ⟨hp, hsn, rfl⟩
      · cases hv
    · cases h
  | link =>
    simp only [check] at h
    split at h
    · next hs =>
      cases h
      exact ⟨trivial, fileId_of_linkSource hi hs, rfl⟩
    · cases h
  | unlink path =>
    simp only [check] at h
    cases he : ix.entries.get path with
    | none => simp [he] at h
    | some e =>
      simp only [he] at h
      split at h
      · cases h
      · next hr =>
        cases h
        have hid := fileId_of_deleteRefusal hr
        refine ⟨hp, ?_, rfl⟩
        cases e with
        | directory => exact absurd hid.symm hp
        | file => exact (fileId_eq.trans (by rw [he]; rfl)).trans hid
  | rename =>
    simp only [check] at h
    split at h
    · cases h
    · next hr =>
      cases h
      obtain ⟨hs, ht, hf⟩ := renameRefusal_eq_none hr
      refine ⟨hp, ⟨hs, fun hre => ?_⟩, rfl⟩
      obtain ⟨e, he⟩ := Option.isSome_iff_exists.1 hre
      refine ⟨ht (by simp [he]), ?_⟩
      cases e with
      | directory => exact absurd he hf
      | file => exact hi.fileId_ne_none he

/-- What was seen stays so while the locked identities keep their paths. -/
theorem Checked.mono (hp : tr.Planned) (h : tr.Checked ix)
    (hk : ∀ id path, .identity id ∈ tr.keys → ix.fileId path = some id →
      Keeps ix ix' id) : tr.Checked ix' := by
  cases tr with
  | publish re commit =>
    intro file hf id hid
    have hkey : .identity id ∈ (publish re commit).keys :=
      List.mem_flatMap.2 ⟨file, hf, by simp [show file.fileId = some id from hid]⟩
    have hke := hk id file.logicalPath hkey (AliasSnapshot.fileId h hf hid)
    have hmem : ∀ path, path ∈ ix'.listFileAliasPaths id ↔ path ∈ ix.listFileAliasPaths id := by
      intro path
      rw [Index.mem_listFileAliasPaths, Index.mem_listFileAliasPaths, hke]
    exact ⟨fun path hpa => (h file hf id hid).1 ((hmem path).1 hpa),
      fun path hpa => (hmem path).2 ((h file hf id hid).2 hpa)⟩
  | link so _ _ fi => exact (hk fi so (by simp [keys]) h so).2 h
  | unlink path =>
    obtain ⟨id, rfl⟩ := Option.ne_none_iff_exists'.1 hp
    exact (hk id path (by simp [keys]) h path).2 h
  | rename so de =>
    obtain ⟨id, rfl⟩ := Option.ne_none_iff_exists'.1 hp.2
    refine ⟨(hk id so (by simp [keys]) h.1 so).2 h.1, fun hr => ?_⟩
    obtain ⟨hs, hso⟩ := h.2 hr
    obtain ⟨ta, ht⟩ := Option.ne_none_iff_exists'.1 hso
    have hke : ix'.fileId de = some ta :=
      (hk ta de (by simp [keys, hs, ht]) ht de).2 ht
    rw [hke, ← ht]
    exact ⟨hs, hso⟩

/-- What a checked transaction commits has its effect. -/
theorem effect_of_commit (hi : ix.Identified) (hp : tr.Planned)
    (hc : tr.Checked ix) (h : tr.commit now draw ix = .ok ix') :
    tr.Effect ix ix' draw := by
  cases tr with
  | publish => exact effect_publish hi hp hc h
  | link => exact effect_link hi hc h
  | unlink =>
    cases h
    exact effect_unlink hi hc
  | rename => exact effect_rename hi hp.1 hp.2 hc.1 (fun hr => (hc.2 hr).1) h

end Transaction

/-! ## The invariant -/

variable {writes w : List StorageWrite} {write : StorageWrite} {ma : FileManifest}

/-- Every file of a batch is written under a condition. -/
theorem guarded_commitFile : (commitFile ix.view write ma).Guarded := by
  cases hp : write.precondition with
  | none => exact .inr (by simp [commitFile, hp])
  | some p =>
    cases hpr : p.effectivePredicate with
    | some => exact .inr (by simp [commitFile, hp, hpr])
    | none =>
      have hid : p.expectedFileId ≠ none := by
        intro hn
        simp [WritePrecondition.effectivePredicate, hn] at hpr
      exact .inl (by simpa [commitFile, hp] using hid)

theorem guarded_of_prepareCommit {pk : String} (hne : w ≠ [])
    (h : prepareCommit co pk ix.view w = .ok commit) :
    ∀ file ∈ commit.files, file.Guarded := by
  obtain ⟨_, hb⟩ := built_of_prepareCommit hne h
  obtain ⟨c', _, hp, -, hfi, -⟩ :=
    prepareCommit_of_built pk hne hb
  obtain rfl : c' = commit := Except.ok.inj (hp.symm.trans h)
  intro file hf
  rw [hfi, List.mem_map] at hf
  obtain ⟨_, -, rfl⟩ := hf
  exact guarded_commitFile


/-- What holds of a call in progress. -/
def Call.Sound (call : Nat) (locks : LockKey → Option Nat) (ix : Index) :
    Call → Prop
  | .expanding requested _ _ writes => requested ≠ [] ∧ requested ⊆ writes
  | .renameRead source destination fileId _ => source ≠ destination ∧ fileId ≠ none
  | .ready transaction => transaction.Planned
  | .locked transaction => transaction.Planned ∧ ∀ key ∈ transaction.keys, locks key = some call
  | .checked transaction => transaction.Planned ∧
      (∀ key ∈ transaction.keys, locks key = some call) ∧ transaction.Checked ix

/-- What holds of every state: files have identities, which were drawn, and each call can rely on
what it has seen. -/
structure System.Sound (s : System) : Prop where
  identified : s.index.Identified
  drawn : ∀ path id, s.index.fileId path = some id → id ∈ s.uuids
  calls : ∀ call phase, s.calls call = some phase → phase.Sound call s.locks s.index

/-- A call can rely on what it has seen while its locks are respected. -/
theorem Call.Sound.mono {call : Nat} {p : Call} {l l' : LockKey → Option Nat}
    (h : p.Sound call l ix)
    (hl : ∀ key, l key = some call → l' key = some call)
    (hk : ∀ id path, l (.identity id) = some call → ix.fileId path = some id →
      Keeps ix ix' id) : p.Sound call l' ix' := by
  cases p with
  | expanding => exact h
  | renameRead => exact h
  | ready => exact h
  | locked => exact ⟨h.1, fun key hke => hl key (h.2 key hke)⟩
  | checked =>
    obtain ⟨hp, hh, hc⟩ := h
    exact ⟨hp, fun key hke => hl key (hh key hke),
      hc.mono hp fun id path hke hid => hk id path (hh _ hke) hid⟩

variable {s t : System} {call : Nat}

/-- A step of one call keeps the invariant if it leaves the locks of the others and the paths of the
identities that they have locked. -/
theorem System.Sound.step_call (h : s.Sound) {p : Option Call}
    (hc : t.calls = Function.update s.calls call p)
    (hl : ∀ key o, o ≠ call → s.locks key = some o → t.locks key = some o)
    (hk : ∀ id path o, o ≠ call → s.locks (.identity id) = some o →
      s.index.fileId path = some id → Keeps s.index t.index id)
    (hi : t.index.Identified)
    (hd : ∀ path id, t.index.fileId path = some id → id ∈ t.uuids)
    (hp : ∀ next ∈ p, next.Sound call t.locks t.index) : t.Sound where
  identified := hi
  drawn := hd
  calls := by
    intro o next hn
    rw [hc] at hn
    by_cases heq : o = call
    · subst heq
      rw [Function.update_self] at hn
      exact hp next hn
    · rw [Function.update_of_ne heq] at hn
      exact (h.calls o next hn).mono (fun key => hl key o heq) fun id path => hk id path o heq

/-- The call goes on, and nothing else changes. -/
theorem System.Sound.set (h : s.Sound) {p : Call}
    (hp : p.Sound call s.locks s.index) : (s.set call p).Sound :=
  h.step_call rfl (fun _ _ _ hk => hk) (fun id _ _ _ _ _ => Keeps.refl s.index id)
    h.identified h.drawn fun _ hn => Option.some.inj hn ▸ hp

/-- An identifier is drawn. -/
theorem System.Sound.drawId (h : s.Sound) (id : String) :
    System.Sound { s with uuids := id :: s.uuids } :=
  ⟨h.identified, fun path o hid => List.mem_cons_of_mem _ (h.drawn path o hid), h.calls⟩

theorem locks_finish {key : LockKey} {o : Nat} (hne : o ≠ call)
    (h : s.locks key = some o) : (s.finish call).locks key = some o := by
  simp [System.finish, h, hne]

/-- The call ends. -/
theorem System.Sound.finish (h : s.Sound) : (s.finish call).Sound :=
  h.step_call rfl (fun _ _ hne hk => locks_finish hne hk)
    (fun id _ _ _ _ _ => Keeps.refl s.index id) h.identified h.drawn nofun

/-- The call takes its locks. -/
theorem System.Sound.lock (h : s.Sound) {tr : Transaction}
    (hp : s.calls call = some (.ready tr)) (hf : Free s call tr.keys) :
    ((s.acquire call tr.keys).set call (.locked tr)).Sound := by
  refine h.step_call rfl ?_ (fun id _ _ _ _ _ => Keeps.refl s.index id) h.identified h.drawn ?_
  · intro key o hne hk
    have hnot : key ∉ tr.keys := by
      intro hmem
      rcases hf key hmem with hno | ho
      · simp [hk] at hno
      · exact hne (Option.some.inj (hk.symm.trans ho))
    simp [System.set, System.acquire, hnot, hk]
  · intro next hn
    cases hn
    refine ⟨h.calls call _ hp, fun key hk => ?_⟩
    simp [System.set, System.acquire, hk]

/-- The call commits its transaction. -/
theorem System.Sound.committed (h : s.Sound) {tr : Transaction} {index : Index}
    (hph : s.calls call = some (.checked tr))
    (hf : FreshIds s.uuids (tr.newIds draw))
    (hco : tr.commit now draw s.index = .ok index) :
    System.Sound { (s.finish call) with
      index := index
      uuids := tr.newIds draw ++ s.uuids } := by
  obtain ⟨hp, hh, hc⟩ := h.calls call _ hph
  have he := effect_of_commit h.identified hp hc hco
  refine h.step_call rfl (fun _ _ hne hk => locks_finish hne hk) ?_ he.identified ?_ nofun
  · intro id path o hne hl hid
    refine he.keeps id (fun hk => ?_) fun hn => hf.2 id hn (h.drawn path id hid)
    exact hne (Option.some.inj (hl.symm.trans (hh _ hk)))
  · intro path id hid
    rcases he.known path id hid with ⟨o, ho⟩ | hn
    · exact List.mem_append_right _ (h.drawn o id ho)
    · exact List.mem_append_left _ hn

/-- Only the directory at one path comes or goes. -/
def DirectoryStep (ix ix' : Index) : Prop :=
  (∀ path, ix'.row path = ix.row path) ∧ ix'.manifests = ix.manifests

theorem directoryStep_createDirectory (h : createDirectory path ix = .ok ix') :
    DirectoryStep ix ix' := by
  simp only [createDirectory] at h
  split at h
  · cases h
  · cases h
    exact ⟨fun _ => rfl, rfl⟩
  · next he =>
    cases h
    refine ⟨fun o => ?_, rfl⟩
    by_cases heq : o = path
    · subst heq
      simp [Index.row, he, Entry.row]
    · rw [Index.row, Table.get_set_of_ne heq, ← Index.row]

theorem directoryStep_removeEmptyDirectory (h : removeEmptyDirectory path ix = .ok ix') :
    DirectoryStep ix ix' := by
  simp only [removeEmptyDirectory] at h
  split at h
  · cases h
    exact ⟨fun _ => rfl, rfl⟩
  · cases h
  · split at h
    · cases h
    · cases h
      refine ⟨fun o => ?_, rfl⟩
      rw [Index.row, Index.row, Table.get_delete]
      cases he : ix.entries.get o with
      | none => rfl
      | some e => cases e <;> by_cases heq : o = path <;> simp [heq, Entry.row, Option.filter]

theorem get_of_row (h : ix.row path = some row) :
    ix.entries.get path = some (.file row) := by
  obtain ⟨e, he, hr⟩ := Option.bind_eq_some_iff.1 h
  cases e with
  | directory => cases hr
  | file =>
    cases hr
    exact he

theorem System.Sound.directory (h : s.Sound) (hs : DirectoryStep s.index ix') :
    System.Sound { s with index := ix' } := by
  have hid : ∀ o, ix'.fileId o = s.index.fileId o := by
    intro o
    rw [Index.fileId, hs.1, ← Index.fileId]
  refine ⟨fun o row hr => ?_, fun o id ho => ?_, fun call p hp => ?_⟩
  · exact h.identified o row (get_of_row ((hs.1 o).symm.trans (row_of_get hr)))
  · exact h.drawn o id ((hid o).symm.trans ho)
  · exact (h.calls call p hp).mono (fun _ hk => hk) fun id path _ _ o => by
      rw [hid]

theorem subset_of_expandIdentity {p : EntryViews} {pa a : List LogicalPath}
    {fi : String} {r : LogicalPath} {e : List StorageWrite}
    (h : expandIdentity p pa fi r a w = .ok e) :
    w ⊆ e := by
  simp only [expandIdentity] at h
  split at h
  · cases h
  · split at h
    · cases h
    · split at h
      · cases h
      · cases h
        exact List.subset_append_left _ _

/-- What a step does. -/
inductive Moves (codec : Codec) (s : System) : Action → System → Prop
  | write {call writes explicit} (hne : writes ≠ []) : Moves codec s (.write call writes explicit)
      (s.set call (.expanding writes s.index.view explicit writes))
  | listAliases {call requested previous fileId representative todo writes expanded}
      (hphase : s.calls call =
        some (.expanding requested previous ((fileId, representative) :: todo) writes))
      (hexpand : expandIdentity previous (requested.map (·.path)) fileId representative
        (s.index.listFileAliasPaths fileId) writes = .ok expanded) :
      Moves codec s (.listAliases call) (s.set call (.expanding requested previous todo expanded))
  | prepare {call packKey requested previous writes commit}
      (hphase : s.calls call = some (.expanding requested previous [] writes))
      (hnew : packKey ∉ s.uuids)
      (hprepare : prepareCommit codec packKey s.index.view writes = .ok commit) :
      Moves codec s (.prepare call packKey)
        { (s.set call (.ready (.publish requested commit))) with uuids := packKey :: s.uuids }
  | link {call source destination ownId fileId} : Moves codec s (.link call source destination ownId)
      (s.set call (.ready (.link source destination ownId fileId none)))
  | unlink {call path expected row} (hrow : s.index.row path = some row) :
      Moves codec s (.unlink call path expected)
        (s.set call (.ready (.unlink path row.fileId expected)))
  | rename {call source destination allowReplace row} (hrow : s.index.row source = some row)
      (hne : source ≠ destination) : Moves codec s (.rename call source destination allowReplace)
        (s.set call (.renameRead source destination row.fileId allowReplace))
  | snapshot {call source destination fileId allowReplace snapshot}
      (hphase : s.calls call = some (.renameRead source destination fileId allowReplace)) :
      Moves codec s (.snapshot call)
        (s.set call (.ready (.rename source destination fileId snapshot allowReplace false)))
  | lock {call transaction} (hphase : s.calls call = some (.ready transaction))
      (hfree : Free s call transaction.keys) : Moves codec s (.lock call)
        ((s.acquire call transaction.keys).set call (.locked transaction))
  | check {call transaction checked} (hphase : s.calls call = some (.locked transaction))
      (hcheck : transaction.check s.index = some checked) :
      Moves codec s (.check call) (s.set call (.checked checked))
  | commit {call now draw transaction index}
      (hphase : s.calls call = some (.checked transaction))
      (hfresh : FreshIds s.uuids (transaction.newIds draw))
      (hcommit : transaction.commit now draw s.index = .ok index) :
      Moves codec s (.commit call now draw)
        { (s.finish call) with index := index, uuids := transaction.newIds draw ++ s.uuids }
  | finish {action call} : Moves codec s action (s.finish call)
  | directory {action index} (hstep : DirectoryStep s.index index) :
      Moves codec s action { s with index := index }

theorem moves_of_exec {a : Action} (h : exec co a s = some t) :
    Moves co s a t := by
  have hs : DirectoryStep s.index s.index := ⟨fun _ => rfl, rfl⟩
  cases a <;> simp only [exec] at h
  case write =>
    obtain ⟨hst, ⟨⟩⟩ := Option.ite_none_right_eq_some.1 h
    exact .write hst.2.1
  case listAliases =>
    split at h
    · next hp =>
      split at h <;> cases h
      · next he => exact .listAliases hp he
      · exact .finish
    · cases h
  case prepare =>
    split at h
    · next hp =>
      obtain ⟨hn, h⟩ := Option.ite_none_left_eq_some.1 h
      split at h <;> cases h
      · next hpr => exact .prepare hp hn hpr
      · exact .finish
    · cases h
  case link =>
    split at h <;> cases h
    exact .link
  case unlink =>
    split at h <;> cases h
    next hro => exact .unlink hro
  case rename =>
    split at h
    · next hro =>
      obtain ⟨hne, ⟨⟩⟩ := Option.ite_none_right_eq_some.1 h
      exact .rename hro hne
    · cases h
  case snapshot =>
    split at h <;> cases h
    next hp => exact .snapshot hp
  case lock =>
    split at h
    · next hp =>
      obtain ⟨hfr, ⟨⟩⟩ := Option.ite_none_right_eq_some.1 h
      exact .lock hp hfr
    · cases h
  case check =>
    split at h
    · next hp =>
      split at h <;> cases h
      · next hch => exact .check hp hch
      · exact .finish
    · cases h
  case commit =>
    split at h
    · next hp =>
      obtain ⟨hf, h⟩ := Option.ite_none_right_eq_some.1 h
      split at h <;> cases h
      · next hc => exact .commit hp hf hc
      · exact .finish
    · cases h
  case abandon =>
    cases h
    exact .finish
  case createDirectory =>
    split at h <;> cases h
    · next hcr => exact .directory (directoryStep_createDirectory hcr)
    · exact .directory hs
  case removeEmptyDirectory =>
    split at h <;> cases h
    · next hr => exact .directory (directoryStep_removeEmptyDirectory hr)
    · exact .directory hs

/-- **One step keeps the invariant.** -/
theorem System.Sound.step {a : Action} (h : s.Sound)
    (hexe : exec co a s = some t) : t.Sound := by
  cases moves_of_exec hexe with
  | write hne => exact h.set ⟨hne, List.Subset.refl _⟩
  | listAliases hp he =>
    obtain ⟨hne, hr⟩ := h.calls _ _ hp
    exact h.set ⟨hne, List.Subset.trans hr (subset_of_expandIdentity he)⟩
  | @prepare call packKey re _ w commit hp _ hpr =>
    obtain ⟨hne, hr⟩ := h.calls _ _ hp
    have hw : w ≠ [] := fun hnil => hne (List.subset_nil.1 (hnil ▸ hr))
    have hre : (Call.ready (.publish re commit)).Sound call s.locks s.index :=
      guarded_of_prepareCommit hw hpr
    exact (h.set hre).drawId packKey
  | link => exact h.set trivial
  | unlink hro => exact h.set (h.identified.row_fileId_ne_none hro)
  | rename hro hne => exact h.set ⟨hne, h.identified.row_fileId_ne_none hro⟩
  | snapshot hp =>
    have hrea := h.calls _ _ hp
    exact h.set hrea
  | lock hp hfr => exact h.lock hp hfr
  | check hp hch =>
    obtain ⟨hpl, hh⟩ := h.calls _ _ hp
    obtain ⟨hpl, hc, hk⟩ := checked_of_check h.identified hpl hch
    exact h.set ⟨hpl, hk ▸ hh, hc⟩
  | commit hp hf hco => exact h.committed hp hf hco
  | finish => exact h.finish
  | directory hs => exact h.directory hs

end Chevalier.ObjectStore
