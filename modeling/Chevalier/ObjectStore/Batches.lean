import Chevalier.ObjectStore.Manifests

/-!
# Batches of writes serialize

The order of the commits is a serial order of the batches: a batch finds its predicates fulfilled
when it commits, and leaves the new content at all the paths of the files it was asked to write and
at no other path (`Written`).

* **`batches_serialize`**: so it is in every run in which each batch is settled at its second read.
* **`batches_restore_deleted_name`**: without that, a name that was deleted between the reads of a
  batch is created again.
-/

namespace Chevalier.ObjectStore

open Vfs List

variable {codec co : Codec} {ix ix' : Index} {path : LogicalPath} {now : Nat}
  {draw : LogicalPath → Draw} {requested r : List StorageWrite} {commit : PackedCommit}
  {tr : Transaction} {s t : System} {call : Nat}

/-! ## Plans -/

/-- A file of a batch that had no identity when the batch was built is a new one. -/
structure Plan (codec : Codec) (requested : List StorageWrite) (commit : PackedCommit) : Prop where
  /-- every file is written under a condition -/
  guarded : ∀ file ∈ commit.files, file.Guarded
  /-- a file without identity is a requested one, and its path is to be absent -/
  unnamed : ∀ file ∈ commit.files, file.fileId = none →
    file.contentPredicate = some .absent ∧ ∃ write ∈ requested, write.path = file.logicalPath
  /-- a file with an identity is one that was requested -/
  named : ∀ file ∈ commit.files, ∀ id ∈ file.fileId, ∃ write ∈ requested,
    ∃ other ∈ commit.files, other.logicalPath = write.path ∧ other.fileId = some id
  /-- a requested write is a file with its guards and its content -/
  covers : ∀ write ∈ requested, ∃ file ∈ commit.files, file.logicalPath = write.path ∧
    file.expectedFileId = write.precondition.bind (·.expectedFileId) ∧
    (∀ predicate ∈ write.precondition.bind (·.effectivePredicate),
      file.contentPredicate = some predicate) ∧
    file.manifest.contentHash = codec.hexHash write.bytes
  /-- the files of one identity have one content -/
  same : ∀ file ∈ commit.files, ∀ other ∈ commit.files, file.fileId ≠ none →
    file.fileId = other.fileId → file.manifest.contentHash = other.manifest.contentHash
  /-- the contents are in the pack of the batch -/
  packed : ∀ file ∈ commit.files, file.manifest.slot.packKey = commit.packKey

variable {file : PackedFileCommit}

/-- What a published batch has found and left at the path of one of its files. -/
theorem Plan.cases_file (hpl : Plan co r commit)
    (hs : AliasSnapshot ix commit.files)
    (hp : publishPackedFiles now draw commit ix = .ok ix')
    (hf : file ∈ commit.files) :
    ix'.entries.get file.logicalPath = some (.file (file.committedRow draw ix)) ∧
      ((∃ id, file.fileId = some id ∧ ix.fileId file.logicalPath = some id ∧
          (file.committedRow draw ix).fileId = some id) ∨
        (file.fileId = none ∧ ix.entries.get file.logicalPath = none ∧
          (file.committedRow draw ix).fileId = some (draw file.logicalPath).fileId)) := by
  obtain ⟨hac, hpa, -, rfl⟩ := publishPackedFiles_eq_ok hpl.guarded hp
  refine ⟨get_committedEntries hpa hf, ?_⟩
  cases hid : file.fileId with
  | some id =>
    have hfo := hs.fileId hf hid
    obtain ⟨_, hro, hr⟩ := exists_row_of_fileId hfo
    refine .inl ⟨id, rfl, hfo, ?_⟩
    simp [PackedFileCommit.committedRow, Index.row, hro, Entry.row, hr]
  | none =>
    have ha : ix.entries.get file.logicalPath = none := by
      have hc := (hac file hf).content
      rwa [(hpl.unnamed file hf hid).1] at hc
    refine .inr ⟨rfl, ha, ?_⟩
    simp [PackedFileCommit.committedRow, Index.row, ha, hid]

/-- Other paths are left alone. -/
theorem Plan.get_of_notMem (hpl : Plan co r commit)
    (hp : publishPackedFiles now draw commit ix = .ok ix')
    (hpa : path ∉ commit.files.map (·.logicalPath)) :
    ix'.entries.get path = ix.entries.get path := by
  obtain ⟨-, -, -, rfl⟩ := publishPackedFiles_eq_ok hpl.guarded hp
  exact get_committedEntries_of_notMem hpa

/-! ## Second reads -/

/-- A batch finds at its second read what it was built for: a path that was added names a file that
the batch was asked to write; writes of one path, or of one file, carry the same bytes; and a path
that names no file is not guarded by an identity or by a content. -/
structure Settled (requested writes : List StorageWrite) (ix : Index) : Prop where
  added : ∀ write ∈ writes, (∃ own ∈ requested, own.path = write.path) ∨
    ∃ own ∈ requested, ix.fileId own.path ≠ none ∧ ix.fileId write.path = ix.fileId own.path
  alike : ∀ write ∈ writes, ∀ other ∈ writes, (write.path = other.path ∨
    ix.fileId write.path ≠ none ∧ ix.fileId write.path = ix.fileId other.path) →
      write.bytes = other.bytes
  unguarded : ∀ write ∈ writes, ix.fileId write.path = none →
    write.precondition.bind (·.expectedFileId) = none ∧
      ∀ predicate ∈ write.precondition.bind (·.effectivePredicate), predicate = .absent

variable {writes w : List StorageWrite} {write : StorageWrite} {manifest m : FileManifest}

/-- A path that names no file is to be absent. -/
theorem contentPredicate_commitFile (hi : ix.Identified)
    (hs : Settled r w ix) (hw : write ∈ w)
    (hid : ix.fileId write.path = none) :
    (commitFile ix.view write m).contentPredicate = some .absent := by
  obtain ⟨hexp, hpr⟩ := hs.unguarded write hw hid
  cases hp : write.precondition with
  | none =>
    have hh : (ix.view write.path).bind (·.contentHash) = none := by
      have hr := hi.row_eq_none hid
      rw [Index.row] at hr
      cases hen : ix.entries.get write.path with
      | none => simp [Index.view, hen]
      | some entry =>
        rw [hen] at hr
        simp [Index.view, hen, show entry.row = none from hr]
    simp [commitFile, hp, hh]
  | some p =>
    rw [hp] at hexp hpr
    cases he : p.effectivePredicate with
    | some predicate =>
      rw [← hpr predicate he]
      simp [commitFile, hp, he]
    | none =>
      have hn : p.expectedFileId = none := hexp
      simp [WritePrecondition.effectivePredicate, hn] at he

/-- Writes of one key carry the same bytes. -/
theorem Settled.bytes_eq (hs : Settled r w ix) {o : StorageWrite}
    (hwr : write ∈ w) (hot : o ∈ w)
    (hk : identityKey ix.view write = identityKey ix.view o) :
    write.bytes = o.bytes := by
  refine hs.alike write hwr o hot ?_
  simp only [identityKey, view_fileId] at hk
  cases hw : ix.fileId write.path with
  | none =>
    cases ho : ix.fileId o.path with
    | none =>
      rw [hw, ho] at hk
      exact .inl (IdentityKey.path.inj hk)
    | some => simp [hw, ho] at hk
  | some =>
    cases ho : ix.fileId o.path with
    | none => simp [hw, ho] at hk
    | some =>
      rw [hw, ho] at hk
      exact .inr ⟨by simp, congrArg some (IdentityKey.inode.inj hk)⟩

/-- A batch that is settled at its second read is a plan of what was requested. -/
theorem plan_of_prepareCommit {pk : String} (hi : ix.Identified)
    (hr : r ⊆ w) (hne : w ≠ [])
    (hs : Settled r w ix)
    (h : prepareCommit co pk ix.view w = .ok commit) :
    Plan co r commit := by
  obtain ⟨_, hb⟩ := built_of_prepareCommit hne h
  obtain ⟨c', mo, hpre, hk, hfil, hd⟩ :=
    prepareCommit_of_built pk hne hb
  obtain rfl : c' = commit := Except.ok.inj (hpre.symm.trans h)
  have hmem : ∀ file, file ∈ c'.files ↔
      ∃ write ∈ w, commitFile ix.view write (mo write) = file := by
    intro file
    rw [hfil, mem_map]
  have hh : ∀ write ∈ w,
      (mo write).contentHash = co.hexHash write.bytes := by
    intro write hw
    obtain ⟨-, _, hfir, hsa, hh⟩ := hd write hw
    rw [hh, hs.bytes_eq hfir hw hsa]
  have hid : ∀ write, (commitFile ix.view write (mo write)).fileId =
      ix.fileId write.path := fun write => view_fileId
  refine ⟨?_, ?_, ?_, ?_, ?_, ?_⟩
  · intro file hf
    obtain ⟨write, -, rfl⟩ := (hmem file).1 hf
    exact guarded_commitFile
  · intro file hf hn
    obtain ⟨write, hw, rfl⟩ := (hmem file).1 hf
    rw [hid] at hn
    refine ⟨contentPredicate_commitFile hi hs hw hn, ?_⟩
    rcases hs.added write hw with ⟨own, how, hp⟩ | ⟨own, -, hso, hsa⟩
    · exact ⟨own, how, hp⟩
    · exact absurd (hsa.symm.trans hn) hso
  · intro file hf id hfi
    obtain ⟨write, hw, rfl⟩ := (hmem file).1 hf
    have hwr : ix.fileId write.path = some id := (hid write).symm.trans hfi
    rcases hs.added write hw with ⟨own, how, hp⟩ | ⟨own, how, -, hsa⟩
    · exact ⟨own, how, _, hf, hp.symm, hfi⟩
    · refine ⟨own, how, _, (hmem _).2 ⟨own, hr how, rfl⟩, rfl, ?_⟩
      rw [hid, ← hsa, hwr]
  · intro write hw
    refine ⟨_, (hmem _).2 ⟨write, hr hw, rfl⟩, rfl, rfl, fun p hpr => ?_, hh write (hr hw)⟩
    have he : write.precondition.bind (·.effectivePredicate) = some p := hpr
    simp [commitFile, he]
  · intro file hf o ho hso hsa
    obtain ⟨write, hw, rfl⟩ := (hmem file).1 hf
    obtain ⟨w', hw', rfl⟩ := (hmem o).1 ho
    rw [hid] at hso
    rw [hid, hid] at hsa
    change (mo write).contentHash = (mo w').contentHash
    rw [hh write hw, hh w' hw', hs.alike write hw w' hw' (.inr ⟨hso, hsa⟩)]
  · intro file hf
    obtain ⟨write, hw, rfl⟩ := (hmem file).1 hf
    exact (hd write hw).1.trans hk.symm

/-- A batch reads its entries for the second time only when it finds there what it was built for. -/
def Orderly : Action → System → Prop
  | .prepare call _, s =>
    match s.calls call with
    | some (.expanding requested _ _ writes) => Settled requested writes s.index
    | _ => True
  | _, _ => True

instance (requested writes : List StorageWrite) (ix : Index) :
    Decidable (Settled requested writes ix) :=
  decidable_of_iff
    ((∀ write ∈ writes, (∃ own ∈ requested, own.path = write.path) ∨
      ∃ own ∈ requested, ix.fileId own.path ≠ none ∧ ix.fileId write.path = ix.fileId own.path) ∧
    (∀ write ∈ writes, ∀ other ∈ writes, (write.path = other.path ∨
      ix.fileId write.path ≠ none ∧ ix.fileId write.path = ix.fileId other.path) →
        write.bytes = other.bytes) ∧
    ∀ write ∈ writes, ix.fileId write.path = none →
      write.precondition.bind (·.expectedFileId) = none ∧
        ∀ predicate ∈ write.precondition.bind (·.effectivePredicate), predicate = .absent)
    ⟨fun h => ⟨h.1, h.2.1, h.2.2⟩, fun h => ⟨h.added, h.alike, h.unguarded⟩⟩

instance : (action : Action) → (s : System) → Decidable (Orderly action s)
  | .prepare call _, s =>
    match hcall : s.calls call with
    | some (.expanding requested _ _ writes) =>
      decidable_of_iff (Settled requested writes s.index) (by simp [Orderly, hcall])
    | some (.renameRead ..) | some (.ready _) | some (.locked _) | some (.checked _) | none =>
      .isTrue (by simp [Orderly, hcall])
  | .write .., _ | .listAliases _, _ | .link .., _ | .unlink .., _ | .rename .., _
  | .snapshot _, _ | .lock _, _ | .check _, _ | .commit .., _ | .abandon _, _
  | .createDirectory _, _ | .removeEmptyDirectory _, _ => .isTrue trivial

/-! ## Plans of the batches in progress -/

/-- Every batch in progress is a plan of what was requested. -/
def System.Plans (codec : Codec) (s : System) : Prop :=
  ∀ call requested commit, s.pending call = some (.publish requested commit) →
    Plan codec requested commit

/-- A call that goes on keeps its plan, makes one, or is no batch. -/
theorem System.Plans.step_call (h : s.Plans co) {p : Option Call}
    (hc : t.calls = Function.update s.calls call p)
    (hp : ∀ r commit, p.bind Call.pending = some (.publish r commit) →
      s.pending call = some (.publish r commit) ∨ Plan co r commit) :
    t.Plans co := by
  intro o r commit ho
  by_cases heq : o = call
  · subst heq
    rw [System.pending, hc, Function.update_self] at ho
    exact (hp r commit ho).elim (h o r commit) id
  · rw [System.pending, hc, Function.update_of_ne heq] at ho
    exact h o r commit ho

theorem System.Plans.set (h : s.Plans co) {p : Call}
    (hp : ∀ r commit, p.pending = some (.publish r commit) →
      s.pending call = some (.publish r commit)) : (s.set call p).Plans co :=
  h.step_call rfl fun r commit hn => .inl (hp r commit hn)

theorem System.Plans.finish (h : s.Plans co) : (s.finish call).Plans co :=
  h.step_call rfl nofun

theorem publish_of_check {c : Transaction} (h : tr.check ix = some c)
    (hc : c = .publish r commit) : tr = .publish r commit := by
  subst hc
  cases tr <;> simp only [Transaction.check] at h <;> split at h <;>
    (try split at h) <;> first | exact Option.some.inj h | cases h

/-- **One step keeps the plans**, if the batch is settled at its second read. -/
theorem System.Plans.step {a : Action} (h : s.Plans co) (hs : s.Sound)
    (ho : Orderly a s) (he : exec co a s = some t) : t.Plans co := by
  cases moves_of_exec he with
  | write | listAliases | link | unlink | rename | snapshot => exact h.set nofun
  | @prepare _ _ _ _ w _ hp _ hpr =>
    obtain ⟨hne, hr⟩ := hs.calls _ _ hp
    simp only [Orderly, hp] at ho
    have hw : w ≠ [] := fun hnil => hne (List.subset_nil.1 (hnil ▸ hr))
    have hpl := plan_of_prepareCommit hs.identified hr hw ho hpr
    refine h.step_call rfl fun r' c' hn => .inr ?_
    cases hn
    exact hpl
  | lock hp =>
    refine h.step_call rfl fun r commit hn => .inl ?_
    rw [System.pending, hp]
    exact hn
  | check hp hc =>
    refine h.set fun r commit hn => ?_
    rw [System.pending, hp]
    exact congrArg some (publish_of_check hc (Option.some.inj hn))
  | commit => exact h.step_call rfl (by simp)
  | finish => exact h.finish
  | directory => exact h

/-! ## The serial order -/

/-- What a batch of writes has found and left: its predicates held, the paths of the files that were
asked for have the new content in the batch's pack, and every other path is as it was. -/
structure Written (codec : Codec) (requested : List StorageWrite) (commit : PackedCommit)
    (ix ix' : Index) : Prop where
  /-- the predicates of every file of the batch held -/
  accepted : ∀ file ∈ commit.files, file.Accepted ix
  /-- the expected identities held -/
  identity : ∀ write ∈ requested, ∀ fileId ∈ write.precondition.bind (·.expectedFileId),
    ix.fileId write.path = some fileId
  /-- the expected contents held -/
  content : ∀ write ∈ requested, ∀ predicate ∈ write.precondition.bind (·.effectivePredicate),
    ContentMatches (ix.entries.get write.path) (some predicate)
  /-- what was asked for is a file -/
  named : ∀ write ∈ requested, ix'.fileId write.path ≠ none
  /-- every path of such a file has the new content, in the batch's pack -/
  aliases : ∀ write ∈ requested, ∀ path, ix'.fileId path = ix'.fileId write.path →
    (ix'.row path).bind (·.contentHash) = some (codec.hexHash write.bytes) ∧
      ∃ manifest, ix'.manifest path = some manifest ∧
        manifest.contentHash = codec.hexHash write.bytes ∧
        manifest.slot.packKey = commit.packKey
  /-- no other path changes, or has a manifest in the batch's pack -/
  others : ∀ path, (∀ write ∈ requested, ix'.fileId path ≠ ix'.fileId write.path) →
    ix'.entries.get path = ix.entries.get path ∧ ix'.manifest path = ix.manifest path ∧
      ∀ manifest ∈ ix'.manifest path, manifest.slot.packKey ≠ commit.packKey

/-- The identity of a file of a published batch. -/
theorem Plan.fileId_eq (hpl : Plan co r commit)
    (hs : AliasSnapshot ix commit.files)
    (hp : publishPackedFiles now draw commit ix = .ok ix')
    (hf : file ∈ commit.files) :
    ix'.fileId file.logicalPath = some (file.fileId.getD (draw file.logicalPath).fileId) := by
  obtain ⟨hg, hc⟩ := hpl.cases_file hs hp hf
  rw [ObjectStore.fileId_eq, hg]
  rcases hc with ⟨_, hid, -, hr⟩ | ⟨hid, -, hr⟩
  · rw [hid]
    exact hr
  · rw [hid]
    exact hr

/-- Paths of one file of a published batch are in the batch, with one content. -/
theorem Plan.exists_alias (hpl : Plan co r commit)
    (hs : AliasSnapshot s.index commit.files)
    (hpu : publishPackedFiles now draw commit s.index = .ok ix') (hso : s.Sound)
    (hfr : FreshIds s.uuids ((Transaction.publish r commit).newIds draw)) (hf : file ∈ commit.files)
    (hp : ix'.fileId path = ix'.fileId file.logicalPath) :
    ∃ o ∈ commit.files, o.logicalPath = path ∧
      o.manifest.contentHash = file.manifest.contentHash := by
  have hne : ∀ o ∈ commit.files, o.fileId = none →
      (draw o.logicalPath).fileId ∉ s.uuids := by
    intro o hot hn
    refine hfr.2 _ (mem_append_left _ (List.mem_map.2 ⟨o, ?_, rfl⟩))
    exact List.mem_filter.2 ⟨hot, decide_eq_true hn⟩
  have hold : ∀ o ∈ commit.files, ∀ id, o.fileId = some id → id ∈ s.uuids :=
    fun o hot id hid => hso.drawn _ id (hs.fileId hot hid)
  rw [hpl.fileId_eq hs hpu hf] at hp
  by_cases hmem : path ∈ commit.files.map (·.logicalPath)
  · obtain ⟨o, hot, rfl⟩ := List.mem_map.1 hmem
    rw [hpl.fileId_eq hs hpu hot, Option.some.injEq] at hp
    refine ⟨o, hot, rfl, ?_⟩
    cases hid : file.fileId with
    | some id =>
      cases ho : o.fileId with
      | some =>
        rw [hid, ho, Option.getD_some, Option.getD_some] at hp
        have hsa : o.fileId = file.fileId := by rw [hid, ho, hp]
        exact hpl.same o hot file hf (by simp [ho]) hsa
      | none =>
        rw [hid, ho, Option.getD_some, Option.getD_none] at hp
        exact absurd (hold file hf id hid) (hp ▸ hne o hot ho)
    | none =>
      cases ho : o.fileId with
      | some oi =>
        rw [hid, ho, Option.getD_some, Option.getD_none] at hp
        exact absurd (hold o hot oi ho) (hp ▸ hne file hf hid)
      | none =>
        rw [hid, ho] at hp
        have hsa : o = file := inj_on_of_nodup_map (List.Nodup.of_append_left hfr.1)
          (List.mem_filter.2 ⟨hot, decide_eq_true ho⟩)
          (List.mem_filter.2 ⟨hf, decide_eq_true hid⟩) hp
        rw [hsa]
  · have hb : s.index.fileId path =
        some (file.fileId.getD (draw file.logicalPath).fileId) := by
      rw [← hp, ObjectStore.fileId_eq, ObjectStore.fileId_eq, hpl.get_of_notMem hpu hmem]
    cases hid : file.fileId with
    | some =>
      rw [hid] at hb
      obtain ⟨o, hot, hp, -⟩ := hs.exists_file hf hid hb
      exact absurd (List.mem_map.2 ⟨o, hot, hp⟩) hmem
    | none =>
      rw [hid] at hb
      exact absurd (hso.drawn path _ hb) (hne file hf hid)

/-- The content of a file of a published batch. -/
theorem Plan.manifest_eq (hpl : Plan co r commit)
    (hp : publishPackedFiles now draw commit ix = .ok ix')
    (hf : file ∈ commit.files) :
    (ix'.row file.logicalPath).bind (·.contentHash) = some file.manifest.contentHash ∧
      ix'.manifest file.logicalPath = some file.manifest := by
  obtain ⟨-, hpa, hfr, rfl⟩ := publishPackedFiles_eq_ok hpl.guarded hp
  have hr : (published now draw commit ix).row file.logicalPath =
      some (file.committedRow draw ix) := by
    rw [Index.row, published, get_committedEntries hpa hf]
    rfl
  have hg := Table.get_setAll_of_mem (t := ix.manifests) hfr.1
    (List.mem_map.2 ⟨file, hf, rfl⟩ : (_, file.manifest) ∈ manifestRows draw commit.files)
  rw [Index.manifest, hr]
  exact ⟨rfl, hg⟩

/-- A path whose entry stays has its manifest. -/
theorem Plan.manifest_of_notMem (hpl : Plan co r commit)
    (hp : publishPackedFiles now draw commit s.index = .ok ix') (hpa : s.Packed)
    (hf : FreshIds s.uuids ((Transaction.publish r commit).newIds draw))
    (hpat : path ∉ commit.files.map (·.logicalPath)) :
    ix'.manifest path = s.index.manifest path := by
  have hg := hpl.get_of_notMem hp hpat
  obtain ⟨-, -, -, rfl⟩ := publishPackedFiles_eq_ok hpl.guarded hp
  rw [Index.manifest, Index.manifest, Index.row, hg, ← Index.row]
  refine Option.bind_congr fun id hid => Table.get_setAll_of_notMem fun hmem => ?_
  obtain ⟨row, hr, hid⟩ := Option.bind_eq_some_iff.1 hid
  have hd : id ∈ s.uuids := hpa.rows path row hr id hid
  rw [manifestRows, map_map] at hmem
  exact hf.2 id (mem_append_right _ hmem) hd

/-- A planned and checked batch is published as a whole. -/
theorem written_of_publish (hso : s.Sound) (hpac : s.Packed) (hpl : s.Plans co)
    (hph : s.calls call = some (.checked (.publish r commit)))
    (hfr : FreshIds s.uuids ((Transaction.publish r commit).newIds draw))
    (hpu : publishPackedFiles now draw commit s.index = .ok ix') :
    Written co r commit s.index ix' := by
  obtain ⟨-, -, hs⟩ := hso.calls call _ hph
  have hpe : s.pending call = some (.publish r commit) := by
    rw [System.pending, hph]
    rfl
  have hp := hpl call r commit hpe
  have ha := (publishPackedFiles_eq_ok hp.guarded hpu).1
  refine ⟨ha, ?_, ?_, ?_, ?_, ?_⟩
  · intro write hw fileId he
    obtain ⟨file, hf, hpa, hid, -⟩ := hp.covers write hw
    rcases (ha file hf).identity with hn | hi
    · rw [hid, show _ = some fileId from he] at hn
      cases hn
    · rwa [hpa, hid, show write.precondition.bind _ = some fileId from he] at hi
  · intro write hw predicate hpr
    obtain ⟨file, hf, hpa, -, hc, -⟩ := hp.covers write hw
    have hma := (ha file hf).content
    rwa [hpa, hc predicate hpr] at hma
  · intro write hw
    obtain ⟨file, hf, hpa, -⟩ := hp.covers write hw
    rw [← hpa, hp.fileId_eq hs hpu hf]
    simp
  · intro write hw path hpa
    obtain ⟨file, hf, how, -, -, hh⟩ := hp.covers write hw
    rw [← how] at hpa
    obtain ⟨o, ho, rfl, hsa⟩ :=
      hp.exists_alias hs hpu hso hfr hf hpa
    obtain ⟨hr, hm⟩ := hp.manifest_eq hpu ho
    rw [hsa, hh] at hr
    exact ⟨hr, o.manifest, hm, hsa.trans hh, hp.packed o ho⟩
  · intro path hpa
    have hmem : path ∉ commit.files.map (·.logicalPath) := by
      intro hmem
      obtain ⟨file, hf, rfl⟩ := List.mem_map.1 hmem
      cases hid : file.fileId with
      | none =>
        obtain ⟨-, write, hw, how⟩ := hp.unnamed file hf hid
        exact hpa write hw (by rw [how])
      | some id =>
        obtain ⟨write, hw, o, ho, how, hot⟩ := hp.named file hf id hid
        refine hpa write hw ?_
        rw [← how, hp.fileId_eq hs hpu hf, hp.fileId_eq hs hpu ho, hid, hot]
        rfl
    have hm := hp.manifest_of_notMem hpu hpac hfr hmem
    refine ⟨hp.get_of_notMem hpu hmem, hm, fun m hg => ?_⟩
    rw [hm] at hg
    obtain ⟨id, -, hg⟩ := Option.bind_eq_some_iff.1 hg
    exact hpac.unnamed call _ hpe _ rfl id m hg

/-- Nothing is in progress, files have identities, and what is named was drawn. -/
structure System.Start (s : System) : Prop where
  calls : ∀ call, s.calls call = none
  identified : s.index.Identified
  identities : ∀ path id, s.index.fileId path = some id → id ∈ s.uuids
  rows : ∀ path row, s.index.row path = some row → ∀ id ∈ row.manifest, id ∈ s.uuids
  manifests : ∀ id manifest, s.index.manifests.get id = some manifest →
    id ∈ s.uuids ∧ manifest.slot.packKey ∈ s.uuids

theorem System.Start.sound (h : s.Start) : s.Sound :=
  ⟨h.identified, h.identities, fun call _ hp => by simp [h.calls call] at hp⟩

theorem System.Start.pending_eq_none (h : s.Start) (call : Nat) : s.pending call = none := by
  rw [System.pending, h.calls]
  rfl

theorem System.Start.packed (h : s.Start) : s.Packed := by
  refine ⟨h.rows, h.manifests, fun call => ?_, fun call => ?_, fun call => ?_, fun call => ?_⟩ <;>
    simp [h.pending_eq_none call]

theorem System.Start.plans (h : s.Start) : s.Plans co := by
  intro call
  simp [h.pending_eq_none call]

/-- Every state of an orderly run. -/
theorem reached_of_orderly_run {ac : List Action} {st : System} (hst : st.Start)
    (hrun : Schedule.run (Schedule.guarded Orderly (exec co)) ac st = some s) :
    s.Sound ∧ s.Packed ∧ s.Plans co := by
  refine Schedule.run_invariant (P := fun s => s.Sound ∧ s.Packed ∧ s.Plans co)
    (fun a s t h hste => ?_) hrun ⟨hst.sound, hst.packed, hst.plans⟩
  obtain ⟨hs, hp, hpl⟩ := h
  obtain ⟨ho, he⟩ := Schedule.guarded_eq_some.1 hste
  exact ⟨hs.step he, hp.step hs he, hpl.step hs ho he⟩

/-- **Batches of writes serialize**: in every orderly run, what a batch commits is the batch applied
to the tables as they are at its commit. -/
theorem batches_serialize (codec : Codec) (start s t : System) (actions : List Action)
    (hstart : start.Start)
    (hrun : Schedule.run (Schedule.guarded Orderly (exec codec)) actions start = some s)
    (call now : Nat) (draw : LogicalPath → Draw) (requested : List StorageWrite)
    (commit : PackedCommit) (hphase : s.calls call = some (.checked (.publish requested commit)))
    (hcommit : exec codec (.commit call now draw) s = some t) :
    (∃ error, publishPackedFiles now draw commit s.index = .error error ∧ t.index = s.index) ∨
      Written codec requested commit s.index t.index := by
  obtain ⟨hs, hpa, hpl⟩ := reached_of_orderly_run hstart hrun
  simp only [exec, hphase] at hcommit
  split at hcommit
  · next hf =>
    split at hcommit
    · next i hp =>
      cases hcommit
      exact .inr (written_of_publish hs hpa hpl hphase hf hp)
    · next error he =>
      cases hcommit
      exact .inl ⟨error, he, rfl⟩
  · cases hcommit

/-! ## A file with two names -/

def twoNames : System where
  index :=
    { entries := (Table.empty.set ["p"] (.file ⟨some "f", some "h", some "v/p", some "m/p"⟩)).set
        ["q"] (.file ⟨some "f", some "h", some "v/q", some "m/q"⟩)
      manifests := (Table.empty.set "m/p" ⟨["p"], "h", ⟨"k", 14, 51, 1⟩⟩).set
        "m/q" ⟨["q"], "h", ⟨"k", 14, 51, 1⟩⟩
      packs := Table.empty.set "k" ⟨1, 2, 65, 0⟩ }
  locks _ := none
  calls _ := none
  uuids := ["f", "m/p", "m/q", "k"]

theorem start_twoNames : twoNames.Start where
  calls _ := rfl
  identified := by
    intro path row hr
    refine Table.forall_get_of_rows (P := fun _ e => ∀ row, e = .file row → row.fileId ≠ none)
      ?_ hr row rfl
    simp [twoNames, Table.set, Table.empty]
  identities := by
    intro path id hid
    obtain ⟨row, hr, hid⟩ := exists_row_of_fileId hid
    refine Table.forall_get_of_rows (P := fun _ e => ∀ row, e = .file row →
      ∀ id ∈ row.fileId, id ∈ twoNames.uuids) ?_ hr row rfl id hid
    simp [twoNames, Table.set, Table.empty]
  rows := by
    intro path row hr
    refine Table.forall_get_of_rows (P := fun _ e => ∀ row, e = .file row →
      ∀ id ∈ row.manifest, id ∈ twoNames.uuids) ?_ (get_of_row hr) row rfl
    simp [twoNames, Table.set, Table.empty]
  manifests := by
    intro id m hg
    refine Table.forall_get_of_rows (P := fun (id : String) (m : FileManifest) =>
      id ∈ twoNames.uuids ∧ m.slot.packKey ∈ twoNames.uuids) ?_ hg
    decide +kernel

/-- A write of the first name, without a condition. -/
def firstName : List StorageWrite := [⟨["p"], [7], none⟩]

/-- Identifiers that are not in use. -/
def freshDraw (path : LogicalPath) : Draw :=
  ⟨"f1/" ++ path.text, "m1/" ++ path.text, "v1/" ++ path.text⟩

def System.batch (s : System) (call : Nat) : Option (List StorageWrite × PackedCommit) :=
  match s.calls call with
  | some (.checked (.publish requested commit)) => some (requested, commit)
  | _ => none

theorem System.calls_of_batch (h : s.batch call = some (r, commit)) :
    s.calls call = some (.checked (.publish r commit)) := by
  rw [System.batch] at h
  split at h
  · next hp =>
    cases h
    exact hp
  · cases h

/-- The commit of a batch at the end of a run, found by evaluation. -/
theorem exists_commit_of_run_any (co : Codec) (call now : Nat) (draw : LogicalPath → Draw)
    (step : Action → System → Option System) (a : List Action) (s : System)
    (p : List StorageWrite → System → System → Bool)
    (h : ((Schedule.run step a s).any fun s => (s.batch call).any fun b =>
      (exec co (.commit call now draw) s).any (p b.1 s)) = true) :
    ∃ s' t r commit, Schedule.run step a s = some s' ∧
      s'.calls call = some (.checked (.publish r commit)) ∧
      exec co (.commit call now draw) s' = some t ∧ p r s' t = true := by
  obtain ⟨s', hrun, h⟩ := Schedule.exists_of_run_any h
  obtain ⟨hb, h⟩ := (Option.any_eq_true_iff_get _ _).1 h
  obtain ⟨hc, h⟩ := (Option.any_eq_true_iff_get _ _).1 h
  exact ⟨s', _, _, _, hrun, System.calls_of_batch (Option.some_get hb).symm,
    (Option.some_get hc).symm, h⟩

/-- A batch that nobody disturbs, up to its commit. -/
def undisturbed : List Action :=
  [.write 0 firstName [("f", ["p"])], .listAliases 0, .prepare 0 "k1", .lock 0, .check 0]

/-- The second name is deleted after the batch has listed the names and before it reads their
entries. -/
def deletedBetween : List Action :=
  [.write 0 firstName [("f", ["p"])], .listAliases 0, .unlink 1 ["q"] none, .lock 1, .check 1,
    .commit 1 0 freshDraw, .prepare 0 "k1", .lock 0, .check 0]

theorem batches_serialize_aliases : ∃ s t commit,
    Schedule.run (Schedule.guarded Orderly (exec plainCodec)) undisturbed twoNames = some s ∧
    s.calls 0 = some (.checked (.publish firstName commit)) ∧
    exec plainCodec (.commit 0 1 freshDraw) s = some t ∧
    t.index.fileId ["q"] = t.index.fileId ["p"] ∧
    t.index.manifest ["q"] ≠ s.index.manifest ["q"] ∧
    Written plainCodec firstName commit s.index t.index := by
  obtain ⟨s, t, requested, commit, hrun, hp, hco, hs⟩ :=
    exists_commit_of_run_any plainCodec 0 1 freshDraw
      (Schedule.guarded Orderly (exec plainCodec)) undisturbed twoNames
      (fun requested s t => decide (requested = firstName ∧
        t.index.fileId ["q"] = t.index.fileId ["p"] ∧
        t.index.manifest ["q"] ≠ s.index.manifest ["q"])) (by decide +kernel)
  obtain ⟨rfl, hid, hc⟩ := of_decide_eq_true hs
  refine ⟨s, t, commit, hrun, hp, hco, hid, hc, ?_⟩
  rcases batches_serialize plainCodec twoNames s t _ start_twoNames hrun 0 1 freshDraw firstName
    commit hp hco with ⟨-, -, hsa⟩ | hw
  · exact absurd (by rw [hsa]) hc
  · exact hw

/-- **A deleted name comes back**: one name of a file is deleted between the reads of a batch, and
the batch creates it again, as another file. -/
theorem batches_restore_deleted_name : ∃ s t commit, twoNames.Start ∧
    Schedule.run (exec plainCodec) deletedBetween twoNames = some s ∧
    s.calls 0 = some (.checked (.publish firstName commit)) ∧
    exec plainCodec (.commit 0 1 freshDraw) s = some t ∧
    s.index.entries.get ["q"] = none ∧ t.index.entries.get ["q"] ≠ none ∧
    t.index.fileId ["q"] ≠ t.index.fileId ["p"] ∧
    ¬ Written plainCodec firstName commit s.index t.index := by
  obtain ⟨s, t, requested, commit, hrun, hp, hc, hs⟩ :=
    exists_commit_of_run_any plainCodec 0 1 freshDraw
      (exec plainCodec) deletedBetween twoNames
      (fun requested s t => decide (requested = firstName ∧
        s.index.entries.get ["q"] = none ∧ t.index.entries.get ["q"] ≠ none ∧
        t.index.fileId ["q"] ≠ t.index.fileId ["p"])) (by decide +kernel)
  obtain ⟨rfl, hd, hr, ho⟩ := of_decide_eq_true hs
  refine ⟨s, t, commit, start_twoNames, hrun, hp, hc, hd, hr, ho, ?_⟩
  intro hw
  refine hr ((hw.others ["q"] fun write hwr => ?_).1.trans hd)
  obtain rfl : write = ⟨["p"], [7], none⟩ := by simpa [firstName] using hwr
  exact ho

end Chevalier.ObjectStore
