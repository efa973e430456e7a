import Chevalier.Vfs.Lookup
import Chevalier.Foundations.Fold

/-!
# Batches of writes that fail

`writeManyAtomic` undoes what it staged only when a precondition fails on the second look. A batch
whose paths all name files or nothing, below directories or nothing, and of which no path lies below
another one (`Writable`), cannot fail once its preconditions have held on the first look.

* `writeManyAtomic_error_unchanged`: such a batch fails only before it has changed anything.
-/

namespace Chevalier.Vfs

open Posix Calls List

/-! ## Batches that can be written -/

/-- A write can be made at its path: it lies below directories or nothing, and names a file, nothing,
or a link that the write does not look at. -/
structure Target (fs : FileSystem) (write : VfsStorageWrite) (destination : Path) : Prop where
  resolved : absPath write.path = .ok destination
  ne_root : destination ≠ []
  extensible : fs.Extensible destination.dropLast
  entry : fs.node destination = none ∨ (∃ inode, fs.node destination = some (.file inode)) ∨
    write.precondition = none ∧
      ∃ target, target ≠ "" ∧ fs.node destination = some (.symlink target)

/-- Every write of a batch can be made at its path, and no path lies below another one. -/
structure Writable (fs : FileSystem) (writes : List VfsStorageWrite) : Prop where
  target : ∀ write ∈ writes, ∃ destination, Target fs write destination
  apart : ∀ write ∈ writes, ∀ other ∈ writes, ∀ destination below,
    absPath write.path = .ok destination → absPath other.path = .ok below →
    destination <+: below → destination = below

theorem Writable.subset {fs : FileSystem} {w o : List VfsStorageWrite}
    (h : Writable fs w) (hs : o ⊆ w) : Writable fs o where
  target wr hw := h.target wr (hs hw)
  apart wr hw other ho := h.apart wr (hs hw) other (hs ho)

section

variable {fs : FileSystem} {wr : VfsStorageWrite} {destination : Path}

theorem Target.not_isDirectory (h : Target fs wr destination) :
    ¬ fs.IsDirectory destination := by
  rintro ⟨_, _⟩
  rcases h.entry with hn | ⟨i, hf⟩ | ⟨-, t, -, hl⟩ <;> simp_all

theorem Target.metadataForAbs_eq_ok (host : Host) (h : Target fs wr destination) :
    ∃ m, metadataForAbs host fs destination = .ok m := by
  unfold metadataForAbs
  rw [assertNoSymlinkAncestor_of_extensible h.extensible]
  rcases h.entry with hn | ⟨_, hf⟩ | ⟨-, _, hne, hl⟩
  · rw [lstat_eq_noEntry h.extensible hn]
    exact ⟨none, rfl⟩
  · rw [FileSystem.lstat_eq_ok.2 hf]
    exact ⟨_, rfl⟩
  · rw [FileSystem.lstat_eq_ok.2 hl]
    simp only [validateSymlinkTargetText, if_neg hne]
    exact ⟨_, rfl⟩

theorem Target.existingRegularFileMode_eq_ok (h : Target fs wr destination) :
    ∃ mode, existingRegularFileMode fs destination = .ok mode := by
  unfold existingRegularFileMode
  rcases h.entry with hn | ⟨_, hf⟩ | ⟨-, _, -, hl⟩
  · rw [lstat_eq_noEntry h.extensible hn]
    exact ⟨none, rfl⟩
  · rw [FileSystem.lstat_eq_ok.2 hf]
    exact ⟨_, rfl⟩
  · rw [FileSystem.lstat_eq_ok.2 hl]
    exact ⟨_, rfl⟩

theorem prefix_of_mem_durabilityDirectories {d o : Path}
    (h : o ∈ filePublicationDurabilityDirectories fs d) : o <+: d := by
  rcases List.mem_append.1 h with h | h
  · exact (mem_inits _ _).1 (List.mem_reverse.1 ((takeWhile_sublist _).subset h))
  · exact (mem_inits _ _).1 (List.mem_reverse.1
      ((dropWhile_sublist _).subset ((take_sublist _ _).subset h)))

/-- What the plan of a write that can be made says. -/
structure Plans (request : RequestedWrite) (destination : Path) (plan : WritePlan) : Prop where
  path_eq : plan.path = request.1.path
  precondition_eq : plan.precondition = request.1.precondition
  destination_eq : plan.destination = destination
  directories : ∀ directory ∈ plan.durabilityDirectories, directory <+: destination.dropLast

theorem Target.planWrite_eq_ok (host : Host) {req : RequestedWrite}
    (h : Target fs req.1 destination) :
    ∃ plan, planWrite host fs req = .ok plan ∧ Plans req destination plan := by
  obtain ⟨_, hm⟩ := h.metadataForAbs_eq_ok host
  obtain ⟨_, hmo⟩ := h.existingRegularFileMode_eq_ok
  unfold planWrite
  simp only [h.resolved, assertNoSymlinkAncestor_of_extensible h.extensible, hm, hmo,
    bind, Except.bind, if_neg h.ne_root]
  exact ⟨_, rfl, ⟨rfl, rfl, rfl, fun _ => prefix_of_mem_durabilityDirectories⟩⟩

end

/-! ## Staging -/

/-- What staging writes of a batch does to a tree: it adds directories above the batch's paths, and
names the batch does not use. -/
structure Staging (writes : List RequestedWrite) (before fs : FileSystem) : Prop where
  kept : ∀ path entry, before.node path = some entry → fs.node path = some entry
  made : ∀ path ∈ writtenNames writes, before.node path = none → fs.node path = none ∨
    fs.IsDirectory path ∧ ∃ request ∈ writes, ∃ destination,
      absPath request.1.path = .ok destination ∧ path <+: destination.dropLast
  data : ∀ inode < before.fresh, fs.data inode = before.data inode
  fresh : before.fresh ≤ fs.fresh

theorem mem_writtenNames {w : List RequestedWrite} {path : Path} :
    path ∈ writtenNames w ↔ ∃ req ∈ w, ∃ destination,
      absPath req.1.path = .ok destination ∧ path <+: destination := by
  unfold writtenNames
  rw [mem_flatMap]
  refine exists_congr fun req => and_congr_right fun _ => ?_
  cases absPath req.1.path <;> simp

namespace Staging

variable {w : List RequestedWrite} {be mid fs : FileSystem}

theorem refl : Staging w fs fs where
  kept _ _ h := h
  made _ _ h := .inl h
  data _ _ := rfl
  fresh := le_rfl

theorem trans (h : Staging w be mid) (h' : Staging w mid fs) :
    Staging w be fs where
  kept path entry he := h'.kept path entry (h.kept path entry he)
  made path hp hn := by
    rcases h.made path hp hn with hmi | ⟨⟨mode, hm⟩, hb⟩
    · exact h'.made path hp hmi
    · exact .inr ⟨⟨mode, h'.kept path _ hm⟩, hb⟩
  data inode hi := by
    rw [h'.data inode (hi.trans_le h.fresh), h.data inode hi]
  fresh := h.fresh.trans h'.fresh

variable {req : RequestedWrite}

variable {destination : Path}

theorem of_createDirAll (hre : req ∈ w) (hr : absPath req.1.path = .ok destination) {mode : Nat}
    (h : be.createDirAll destination.dropLast mode = .ok fs) : Staging w be fs := by
  obtain ⟨-, hn, hd, hf⟩ := FileSystem.createDirAll_eq_ok.1 h
  refine ⟨fun path e he => ?_, fun path _ hno => ?_, fun _ _ => by rw [hd], hf.ge⟩
  · rw [hn, if_neg fun hne => by simp [he] at hne, he]
  · rw [hn]
    split_ifs with hne
    · exact .inr ⟨⟨mode, by rw [hn, if_pos hne]⟩, req, hre, destination, hr, hne.2⟩
    · exact .inl hno

theorem of_newFile {temporary : Path} {i : Nat} (hfr : be.node temporary = none)
    (ha : temporary ∉ writtenNames w)
    (hn : ∀ o, fs.node o = if o = temporary then some (.file i) else be.node o)
    (hd : ∀ i < be.fresh, fs.data i = be.data i)
    (hf : be.fresh ≤ fs.fresh) : Staging w be fs := by
  refine ⟨fun path e he => ?_, fun path hp hno => ?_, hd, hf⟩
  · rw [hn, if_neg fun heq => by simp [heq, hfr] at he, he]
  · rw [hn, if_neg (fun heq : path = temporary => ha (heq ▸ hp))]
    exact .inl hno

/-- A batch whose paths do not lie below one another leaves its own paths alone. -/
theorem node_eq (h : Staging w be fs)
    (ha : Writable be (w.map Prod.fst))
    (hr : req ∈ w)
    (ht : Target be req.1 destination) :
    fs.node destination = be.node destination := by
  cases hn : be.node destination with
  | some e => exact h.kept destination e hn
  | none =>
    have hmem : destination ∈ writtenNames w :=
      mem_writtenNames.2 ⟨req, hr, destination, ht.resolved, prefix_rfl⟩
    rcases h.made destination hmem hn with hno | ⟨-, o, ho, b, hb, hi⟩
    · exact hno
    · -- a directory above another path of the batch is not one of its paths
      have hlt : b.dropLast.length < b.length := by
        have hne : b ≠ [] := by
          rintro rfl
          exact ht.ne_root (List.prefix_nil.1 hi)
        rw [length_dropLast]
        have := List.length_pos_iff.2 hne
        omega
      have heq := ha.apart req.1 (mem_map_of_mem hr) o.1
        (mem_map_of_mem ho) destination b ht.resolved hb
        (hi.trans (List.dropLast_prefix b))
      have hle := hi.length_le
      rw [heq] at hle
      omega

theorem target (h : Staging w be fs) (ha : Writable be (w.map Prod.fst)) (hr : req ∈ w)
    (ht : Target be req.1 destination) : Target fs req.1 destination where
  resolved := ht.resolved
  ne_root := ht.ne_root
  extensible := by
    refine FileSystem.extensible_iff.2 fun f hf => ?_
    rcases FileSystem.extensible_iff.1 ht.extensible f hf with hn | ⟨mode, hm⟩
    · have hmem : f ∈ writtenNames w :=
        mem_writtenNames.2 ⟨req, hr, destination, ht.resolved,
          hf.trans (List.dropLast_prefix destination)⟩
      exact (h.made f hmem hn).imp_right And.left
    · exact .inr ⟨mode, h.kept f _ hm⟩
  entry := by
    rw [h.node_eq ha hr ht]
    exact ht.entry

theorem writable (h : Staging w be fs) (hb : Writable be (w.map Prod.fst)) :
    Writable fs (w.map Prod.fst) where
  target wr hw := by
    obtain ⟨_, hr, rfl⟩ := List.mem_map.1 hw
    obtain ⟨destination, ht⟩ := hb.target _ hw
    exact ⟨destination, h.target hb hr ht⟩
  apart := hb.apart

end Staging

/-- A staged file can be installed. -/
structure Installable (fs : FileSystem) (staged : StagedWrite) : Prop where
  temporary : fs.node staged.temporary = some (.file staged.temporaryInode)
  apart : staged.temporary ≠ staged.destination
  ne_root : staged.destination ≠ []
  directory : fs.IsDirectory staged.destination.dropLast
  destination : ¬ fs.IsDirectory staged.destination
  directories : ∀ directory ∈ staged.durabilityDirectories, fs.IsDirectory directory

section

variable (host : Host) {fs fs' : FileSystem} {w : List RequestedWrite}

theorem applyWriteOptions_file {path : Path} {i : Nat} (o : Option WriteOptions)
    (pm : Option Nat) (h : fs.node path = some (.file i)) :
    ∃ fs', (applyWriteOptions host path o pm).run fs = .ok () fs' ∧
      (∀ ot, fs'.node ot = fs.node ot) ∧ fs'.fresh = fs.fresh ∧
      ∀ ot ≠ i, fs'.data ot = fs.data ot := by
  cases o with
  | none => exact ⟨fs, rfl, fun _ => rfl, rfl, fun _ _ => rfl⟩
  | some => exact ⟨_, applyWriteOptions_some host h, fun _ => rfl, rfl, fun ot ho => if_neg ho⟩

/-- **One write that can be made is staged.** -/
theorem stageWrite_of_target {req : RequestedWrite} (hr : req ∈ w)
    {destination : Path} (hta : Target fs req.1 destination) :
    ∃ s fs', (stageWrite host (writtenNames w) req).run fs = .ok s fs' ∧
      Staging w fs fs' ∧ Plans req destination s.toWritePlan ∧
      fs.node s.temporary = none ∧ s.temporary ∉ writtenNames w ∧
      fs'.node s.temporary = some (.file s.temporaryInode) ∧
      fs'.IsDirectory destination.dropLast := by
  obtain ⟨plan, hpla, hpl⟩ := hta.planWrite_eq_ok host
  obtain rfl := hpl.destination_eq
  -- the missing directories above the destination
  obtain ⟨made, hma⟩ : ∃ made,
      fs.createDirAll plan.destination.dropLast (newDirectoryMode host) = .ok made :=
    ⟨_, dif_pos hta.extensible⟩
  have hm := Staging.of_createDirAll hr hta.resolved hma
  have hp := FileSystem.isDirectory_of_createDirAll hma
  -- the staging file
  obtain ⟨temporary, ht⟩ : ∃ temporary, stagingPath plan.destination
      (host.uuid made (writtenNames w) plan.destination) = temporary := ⟨_, rfl⟩
  have hfr : made.node temporary = none := ht ▸ host.uuid_fresh made _ _
  have ha : temporary ∉ writtenNames w := ht ▸ host.uuid_avoids made _ _
  have hv : made.Vacant temporary := by
    refine ⟨ht ▸ stagingPath_ne_nil _ _, hfr, ?_⟩
    rw [← ht, dropLast_stagingPath]
    exact hp
  obtain ⟨file, hfile⟩ : ∃ file,
      made.createFile temporary ⟨req.1.bytes, newFileMode host⟩ = .ok file :=
    ⟨_, dif_pos hv⟩
  obtain ⟨-, hfi, hfil, _⟩ := FileSystem.createFile_eq_ok.1 hfile
  have hte : file.node temporary = some (.file made.fresh) := by rw [hfi, if_pos rfl]
  obtain ⟨fs', ho, hn, _, hd⟩ :=
    applyWriteOptions_file host plan.options plan.previousMode hte
  have hf : Staging w made fs' := by
    refine Staging.of_newFile hfr ha (fun o => by rw [hn, hfi]) (fun inode hi => ?_) (by omega)
    rw [hd inode hi.ne, hfil]
    exact if_neg hi.ne
  refine ⟨{ plan with temporary := temporary, temporaryInode := made.fresh }, fs', ?_,
    hm.trans hf, hpl, ?_, ha, ?_, ?_⟩
  · simp only [stageWrite, run_inspect_bind, hpla,
      bind_of_ok _ (createDirAll_of_ok host _ hma), ht, run_perform_bind, hfile,
      bind_of_ok _ ho, run_pure]
  · cases hno : fs.node temporary with
    | none => rfl
    | some =>
      rw [hm.kept _ _ hno] at hfr
      cases hfr
  · rw [hn]
    exact hte
  · obtain ⟨mode, hmo⟩ := hp
    exact ⟨mode, hf.kept _ _ hmo⟩

/-- The staged files of a batch can be installed, whatever their order. -/
structure Ready (fs : FileSystem) (staged : List StagedWrite) : Prop where
  installable : ∀ write ∈ staged, Installable fs write
  distinct : staged.Pairwise fun write other => write.temporary ≠ other.temporary

def StagedWrite.For (staged : StagedWrite) (request : RequestedWrite) : Prop :=
  staged.path = request.1.path ∧ staged.precondition = request.1.precondition

theorem Installable.of_staging {s : StagedWrite} {req : RequestedWrite}
    (hr : req ∈ w) {destination : Path} (ht : Target fs' req.1 destination)
    (hs : Staging w fs fs') (hpl : Plans req destination s.toWritePlan)
    (ha : s.temporary ∉ writtenNames w)
    (hte : fs.node s.temporary = some (.file s.temporaryInode))
    (hd : fs.IsDirectory destination.dropLast) : Installable fs' s := by
  obtain rfl := hpl.destination_eq
  obtain ⟨mode, hm⟩ := hd
  have hp : fs'.IsDirectory s.destination.dropLast := ⟨mode, hs.kept _ _ hm⟩
  refine ⟨hs.kept _ _ hte, fun heq => ha ?_, ht.ne_root, hp, ht.not_isDirectory, fun d hmem => ?_⟩
  · rw [heq]
    exact mem_writtenNames.2 ⟨req, hr, _, ht.resolved, prefix_rfl⟩
  · by_cases heq : d = s.destination.dropLast
    · exact heq ▸ hp
    · obtain ⟨mode, hm⟩ := hp
      exact FileSystem.isDirectory_of_front (hpl.directories d hmem) heq hm

/-- **A batch that can be written is staged.** -/
theorem stageWrites_of_writable (hb : Writable fs (w.map Prod.fst))
    {r : List RequestedWrite} (hsu : r ⊆ w) {seen : List LogicalPath}
    (hse : ∀ req ∈ r, req.1.path ∉ seen)
    (hn : (r.map fun req => req.1.path).Nodup) :
    ∃ s fs', (stageWrites host (writtenNames w) seen r).run fs =
        .ok s fs' ∧
      Staging w fs fs' ∧ List.Forall₂ StagedWrite.For s r ∧
      Ready fs' s ∧ ∀ wr ∈ s, fs.node wr.temporary = none := by
  induction r generalizing fs seen with
  | nil => exact ⟨[], fs, rfl, Staging.refl, .nil, ⟨(nofun), .nil⟩, (nofun)⟩
  | cons req rest ih =>
    have hr := hsu mem_cons_self
    obtain ⟨_, hta⟩ := hb.target _ (mem_map_of_mem hr)
    obtain ⟨s, _, hst, hs, hp, hf, ha, ht, hd⟩ :=
      stageWrite_of_target host hr hta
    rw [map_cons, nodup_cons] at hn
    have hu : ∀ other ∈ rest, other.1.path ∉ req.1.path :: seen := by
      intro other ho hmem
      rcases List.mem_cons.1 hmem with heq | hmem
      · exact hn.1 (heq ▸ mem_map_of_mem ho)
      · exact hse other (mem_cons_of_mem _ ho) hmem
    obtain ⟨l, fs', hl, hs', hfo, hre, hf'⟩ :=
      ih (hs.writable hb) (fun other ho => hsu (mem_cons_of_mem _ ho)) hu hn.2
    refine ⟨s :: l, fs', ?_, hs.trans hs', .cons ⟨hp.path_eq, hp.precondition_eq⟩ hfo, ⟨?_, ?_⟩, ?_⟩
    · rw [stageWrites, if_neg (hse req mem_cons_self)]
      simp only [bind_of_ok _ hst, bind_of_ok _ hl, run_pure]
    · refine List.forall_mem_cons.2 ⟨?_, hre.installable⟩
      exact .of_staging hr ((hs.trans hs').target hb hr hta) hs' hp ha ht hd
    · refine List.pairwise_cons.2 ⟨fun other ho heq => ?_, hre.distinct⟩
      -- a later staging file is made where nothing stands
      have hno := hf' other ho
      rw [← heq, ht] at hno
      cases hno
    · refine List.forall_mem_cons.2 ⟨hf, fun other ho => ?_⟩
      cases hnod : fs.node other.temporary with
      | none => rfl
      | some =>
        have hso := hs.kept _ _ hnod
        rw [hf' other ho] at hso
        cases hso

end

/-! ## Installing -/

section

variable (host : Host) {fs fs' : FileSystem}

/-- What installing one staged file leaves alone: the directories, and the files other than the
staged one. -/
structure Installs (fs fs' : FileSystem) (staged : StagedWrite) : Prop where
  directory : ∀ path, fs'.IsDirectory path ↔ fs.IsDirectory path
  file : ∀ path inode, fs.node path = some (.file inode) → path ≠ staged.temporary →
    fs'.node path = some (.file inode)

variable {s : StagedWrite}

theorem Installable.installs {o : StagedWrite} (h : Installable fs o)
    (hs : Installs fs fs' s) (hne : s.temporary ≠ o.temporary) :
    Installable fs' o where
  temporary := hs.file _ _ h.temporary (Ne.symm hne)
  apart := h.apart
  ne_root := h.ne_root
  directory := (hs.directory _).2 h.directory
  destination := fun hd => h.destination ((hs.directory _).1 hd)
  directories := fun directory hmem => (hs.directory _).2 (h.directories directory hmem)

theorem Installable.rename_eq_ok (h : Installable fs s)
    (hf : ∀ i, fs.node s.destination ≠ some (.file i)) :
    ∃ fs', fs.rename s.temporary s.destination = .ok fs' ∧
      FileSystem.Moved fs fs' s.temporary s.destination := by
  have ht : ¬ fs.IsDirectory s.temporary :=
    fun ⟨mode, hmo⟩ => by simp [h.temporary] at hmo
  have hne : s.temporary ≠ [] := by
    intro heq
    exact ht (heq ▸ fs.root)
  have ha : ¬ s.temporary <+: s.destination := by
    intro hin
    rcases FileSystem.extensible_iff.1 (FileSystem.extensible_of_isDirectory h.directory) _
      (FileSystem.prefix_dropLast hin h.apart) with hno | hd
    · rw [h.temporary] at hno
      cases hno
    · exact ht hd
  have hs : ¬ (s.temporary = s.destination ∨
      fs.SameFile s.temporary s.destination) := by
    rintro (heq | ⟨i, -, hi⟩)
    · exact h.apart heq
    · exact hf i hi
  have hr : fs.replaceable (.file s.temporaryInode) s.destination = .ok () := by
    unfold FileSystem.replaceable
    cases hn : fs.node s.destination with
    | none => rfl
    | some e =>
      cases e with
      | directory mode => exact absurd ⟨mode, hn⟩ h.destination
      | file i => exact absurd hn (hf i)
      | symlink => rfl
  have hm : FileSystem.Moved fs (fs.move s.temporary s.destination hne ha
      h.directory h.ne_root) s.temporary s.destination :=
    ⟨hne, h.ne_root, h.directory, ha, fun _ => rfl, rfl, rfl⟩
  exact ⟨_, FileSystem.rename_eq_ok.2 ⟨_, h.temporary, hne, h.ne_root, .inr ⟨hs, hr, hm⟩⟩, hm⟩

/-- A staged file that was renamed into place. -/
theorem Installable.installs_of_moved (h : Installable fs s)
    (hf : ∀ i, fs.node s.destination ≠ some (.file i))
    (hmo : FileSystem.Moved fs fs' s.temporary s.destination) :
    Installs fs fs' s := by
  have ht : ¬ fs.IsDirectory s.temporary :=
    fun ⟨mode, hm⟩ => by simp [h.temporary] at hm
  -- what stood before, apart from the staged file and a replaced link, stands where it stood
  have hk : ∀ path e, fs.node path = some e → path ≠ s.temporary →
      path ≠ s.destination → fs'.node path = some e := by
    intro path e he hne hn'
    rw [hmo.node, if_neg, if_neg, he]
    · intro hi
      rw [FileSystem.node_below_eq_none hi (Ne.symm hne) ht] at he
      cases he
    · intro hi
      rw [FileSystem.node_below_eq_none hi (Ne.symm hn') h.destination] at he
      cases he
  refine ⟨fun path => ⟨?_, ?_⟩, fun path i hin hne => ?_⟩
  · rintro ⟨mode, hm⟩
    rw [hmo.node] at hm
    split_ifs at hm with hto hfr
    · by_cases heq : path = s.destination
      · subst heq
        simp [FileSystem.movedFrom, h.temporary] at hm
      · have hlen : s.temporary ≠
            FileSystem.movedFrom s.temporary s.destination path := by
          obtain ⟨_, rfl⟩ := hto
          simpa [FileSystem.movedFrom, eq_comm] using heq
        rw [FileSystem.node_below_eq_none (FileSystem.prefix_movedFrom _ _ _) hlen ht] at hm
        cases hm
    · exact ⟨mode, hm⟩
  · rintro ⟨mode, hm⟩
    refine ⟨mode, hk path _ hm ?_ ?_⟩
    · rintro rfl
      exact ht ⟨mode, hm⟩
    · rintro rfl
      exact h.destination ⟨mode, hm⟩
  · refine hk path _ hin hne ?_
    rintro rfl
    exact hf i hin

/-- A staged file whose bytes were copied into the file at its destination. -/
theorem Installs.of_unlink {i : Nat}
    (ht : fs.node s.temporary = some (.file i))
    (hn : ∀ o, fs'.node o = if o = s.temporary then none else fs.node o) :
    Installs fs fs' s := by
  refine ⟨fun path => ?_, fun path i hi hne => by rw [hn, if_neg hne, hi]⟩
  unfold FileSystem.IsDirectory
  rw [hn]
  split_ifs with heq
  · simp [heq, ht]
  · rfl

/-- **A staged file that can be installed is installed.** -/
theorem Installable.install (h : Installable fs s) :
    ∃ fs', (installStagedWrite host s).run fs = .ok () fs' ∧ Installs fs fs' s := by
  by_cases hf : ∃ i, fs.node s.destination = some (.file i)
  · obtain ⟨i, hin⟩ := hf
    have ht : (fs.rewrite i (fs.data s.temporaryInode).bytes).node
        s.temporary = some (.file s.temporaryInode) := h.temporary
    obtain ⟨mid, hu⟩ := FileSystem.exists_unlink ht (fun ⟨mode, hmo⟩ => by simp [ht] at hmo)
    obtain ⟨-, -, hn, -, -⟩ := FileSystem.unlink_eq_ok hu
    have hd : mid.node s.destination = some (.file i) := by
      rw [hn, if_neg (Ne.symm h.apart)]
      exact hin
    obtain ⟨fs', ho, hn', -, -⟩ :=
      applyWriteOptions_file host s.options s.previousMode hd
    refine ⟨fs', ?_, .of_unlink h.temporary fun o => by rw [hn', hn]; rfl⟩
    have hi : (installStagedFilePreservingIdentity s).run fs = .ok true mid := by
      simp only [installStagedFilePreservingIdentity, run_inspect_bind,
        FileSystem.lstat_eq_ok.2 hin, run_perform_bind, hu, run_pure]
    rw [installStagedWrite, bind_of_ok _ hi]
    exact ho
  · have hf' : ∀ i, fs.node s.destination ≠ some (.file i) :=
      fun i hin => hf ⟨i, hin⟩
    obtain ⟨fs', hr, hm⟩ := h.rename_eq_ok hf'
    refine ⟨fs', ?_, h.installs_of_moved hf' hm⟩
    have hi : (installStagedFilePreservingIdentity s).run fs = .ok false fs' := by
      unfold installStagedFilePreservingIdentity
      rw [run_inspect_bind]
      cases hn : fs.node s.destination with
      | none =>
        simp only [lstat_eq_noEntry (FileSystem.extensible_of_isDirectory h.directory) hn,
          run_perform_bind, hr, run_pure]
      | some e =>
        cases e with
        | file i => exact absurd hn (hf' i)
        | directory mode => exact absurd ⟨mode, hn⟩ h.destination
        | symlink => simp only [FileSystem.lstat_eq_ok.2 hn, run_perform_bind, hr, run_pure]
    rw [installStagedWrite, bind_of_ok _ hi]
    rfl

/-- **The staged files of a batch are installed.** -/
theorem installStaged_of_ready {s : List StagedWrite} (h : Ready fs s) :
    ∃ fs', (installStaged host s).run fs = .ok () fs' ∧
      ∀ path, fs'.IsDirectory path ↔ fs.IsDirectory path := by
  induction s generalizing fs with
  | nil => exact ⟨fs, rfl, fun _ => Iff.rfl⟩
  | cons first rest ih =>
    obtain ⟨mid, hf, hs⟩ := (h.installable first mem_cons_self).install host
    obtain ⟨hne, hdi⟩ := List.pairwise_cons.1 h.distinct
    have hr : Ready mid rest := ⟨fun o ho =>
      (h.installable o (mem_cons_of_mem _ ho)).installs hs (hne o ho),
      hdi⟩
    obtain ⟨fs', hre, hd⟩ := ih hr
    refine ⟨fs', ?_, fun path => (hd path).trans (hs.directory path)⟩
    rw [installStaged, bind_of_ok _ hf, hre]

/-! ## Preconditions -/

variable {wr : VfsStorageWrite} {destination : Path}

theorem fingerprintOf_congr
    (h : Target fs wr destination) (h' : Target fs' wr destination)
    (hl : wr.precondition ≠ none) (hn : fs'.node destination = fs.node destination)
    (hd : ∀ inode, fs.node destination = some (.file inode) → fs'.data inode = fs.data inode) :
    fingerprintOf host fs' destination = fingerprintOf host fs destination := by
  unfold fingerprintOf
  rw [assertNoSymlinkAncestor_of_extensible h.extensible,
    assertNoSymlinkAncestor_of_extensible h'.extensible]
  rcases h.entry with hno | ⟨inode, hi⟩ | ⟨ha, -⟩
  · rw [lstat_eq_noEntry h.extensible hno, lstat_eq_noEntry h'.extensible (hn.trans hno)]
  · rw [FileSystem.lstat_eq_ok.2 hi, FileSystem.lstat_eq_ok.2 (hn.trans hi)]
    simp only [hd inode hi]
  · exact absurd ha hl

theorem assertExpectedFileId_congr
    (h : Target fs wr destination) (h' : Target fs' wr destination)
    (hl : wr.precondition ≠ none) (hn : fs'.node destination = fs.node destination)
    (p : WritePrecondition) :
    assertExpectedFileId host fs' wr.path p = assertExpectedFileId host fs wr.path p := by
  unfold assertExpectedFileId
  cases p.expectedFileId with
  | none => rfl
  | some =>
    simp only [h.resolved, bind, Except.bind, assertNoSymlinkAncestor_of_extensible h.extensible,
      assertNoSymlinkAncestor_of_extensible h'.extensible]
    rcases h.entry with hno | ⟨_, hi⟩ | ⟨ha, -⟩
    · rw [lstat_eq_noEntry h.extensible hno, lstat_eq_noEntry h'.extensible (hn.trans hno)]
    · rw [FileSystem.lstat_eq_ok.2 hi, FileSystem.lstat_eq_ok.2 (hn.trans hi)]
      simp only [localFileId, hi, hn.trans hi]
    · exact absurd ha hl

/-- A precondition that looks at a file or at nothing depends on that file only. -/
theorem assertPrecondition_congr
    (h : Target fs wr destination) (h' : Target fs' wr destination)
    (hn : fs'.node destination = fs.node destination)
    (hd : ∀ i, fs.node destination = some (.file i) → fs'.data i = fs.data i) :
    assertPrecondition host fs' wr.path wr.precondition =
      assertPrecondition host fs wr.path wr.precondition := by
  cases hp : wr.precondition with
  | none => rfl
  | some =>
    have hl : wr.precondition ≠ none := by simp [hp]
    simp only [assertPrecondition, writePrecondition, h.resolved,
      assertExpectedFileId_congr host h h' hl hn,
      fingerprintOf_congr host h h' hl hn hd, bind, Except.bind]

theorem assertPreconditions_of_staging {w : List RequestedWrite}
    (hb : Writable fs (w.map Prod.fst)) (hs : Staging w fs fs')
    (hh : ∀ req ∈ w, assertPrecondition host fs req.1.path req.1.precondition = .ok ())
    {s : List StagedWrite} {r : List RequestedWrite} (hsu : r ⊆ w)
    (hfo : List.Forall₂ StagedWrite.For s r) :
    assertPreconditions host fs' s = .ok () := by
  induction hfo with
  | nil => rfl
  | @cons wr req _ _ hw _ ih =>
    have hr := hsu mem_cons_self
    obtain ⟨_, ht⟩ := hb.target _ (mem_map_of_mem hr)
    have hf : assertPrecondition host fs' wr.path wr.precondition = .ok () := by
      rw [hw.1, hw.2, assertPrecondition_congr host ht
        (hs.target hb hr ht) (hs.node_eq hb hr ht)
        (fun inode hi => hs.data inode (fs.inode_lt _ _ hi))]
      exact hh req hr
    rw [assertPreconditions, hf]
    exact ih fun o ho => hsu (mem_cons_of_mem _ ho)

/-- **A batch that can be written, and whose preconditions hold, is written.** -/
theorem installWritesWithOptions_of_writable {w : List RequestedWrite}
    (hb : Writable fs (w.map Prod.fst))
    (hh : ∀ req ∈ w, assertPrecondition host fs req.1.path req.1.precondition = .ok ())
    (hn : (w.map fun req => req.1.path).Nodup) :
    ∃ r fs', (installWritesWithOptions host w).run fs = .ok r fs' ∧
      r.map VfsStorageWriteResult.path = w.map fun req => req.1.path := by
  obtain ⟨s, _, hst, hs, hf, hr, -⟩ :=
    stageWrites_of_writable host hb (List.Subset.refl w) (fun _ _ => not_mem_nil) hn
  obtain ⟨fs', hi, hd⟩ := installStaged_of_ready host hr
  have hsy : syncDirectoriesDeepestFirst host fs'
      (s.flatMap fun s => s.durabilityDirectories) = .ok () := by
    refine syncInOrder_of_isDirectory host fun d hmem => ?_
    obtain ⟨wr, hw, hmem⟩ := List.mem_flatMap.1 ((mem_insertionSort _).1 hmem)
    exact (hd _).2 ((hr.installable wr hw).directories d hmem)
  refine ⟨s.map StagedWrite.result, fs', ?_, ?_⟩
  · simp only [installWritesWithOptions, bind_of_ok _ hst, run_inspect_bind,
      assertPreconditions_of_staging host hb hs hh (List.Subset.refl w) hf,
      bind_of_ok _ hi, hsy, run_pure]
  · clear hst hr hi hsy hs hn hh hb
    induction hf with
    | nil => rfl
    | cons hw _ ih => exact congrArg₂ List.cons hw.1 ih

end

/-! ## The whole call -/

section

variable {host : Host} {fs fs' : FileSystem}

open Fold in
theorem exactWriteReplay_eq_ok {wr : VfsStorageWrite} {o : Option WriteOptions}
    {m : String} {r : ExactWriteReplay}
    (h : exactWriteReplay host fs wr o m = .ok r) :
    r.path = wr.path ∧ r.requestedOptions = o ∧ exactWriteReplayTarget host fs r = .ok true := by
  obtain ⟨-, -, h⟩ := bind_eq_ok.1 h
  obtain ⟨_, -, h⟩ := bind_eq_ok.1 h
  obtain ⟨_, -, h⟩ := bind_eq_ok.1 h
  split_ifs at h
  obtain ⟨_, hfo, h⟩ := bind_eq_ok.1 h
  split_ifs at h with hf
  cases h
  rw [Bool.not_eq_false] at hf
  exact ⟨rfl, rfl, hf ▸ hfo⟩

open Fold in
theorem classifyWrite_eq_ok {wr : VfsStorageWrite} {o : Option WriteOptions}
    {ou : RequestedWrite ⊕ ExactWriteReplay}
    (h : classifyWrite host fs wr o = .ok ou) :
    (ou = .inl (wr, o) ∧ assertPrecondition host fs wr.path wr.precondition = .ok ()) ∨
    ∃ r, ou = .inr r ∧ r.path = wr.path ∧
      r.requestedOptions = o ∧ exactWriteReplayTarget host fs r = .ok true := by
  unfold classifyWrite at h
  split at h
  · rename_i hh
    cases h
    exact .inl ⟨rfl, hh⟩
  · obtain ⟨r, hr, h⟩ := bind_eq_ok.1 h
    cases h
    exact .inr ⟨r, rfl, exactWriteReplay_eq_ok hr⟩
  · cases h

/-- What a batch was split into. -/
structure Partitioned (host : Host) (fs : FileSystem) (writes pending : List RequestedWrite)
    (replays : List ExactWriteReplay) : Prop where
  sublist : pending.Sublist writes
  holds : ∀ request ∈ pending,
    assertPrecondition host fs request.1.path request.1.precondition = .ok ()
  nodup : (writes.map fun request => request.1.path).Nodup
  replay : ∀ replay ∈ replays, exactWriteReplayTarget host fs replay = .ok true ∧
    ∃ request ∈ writes, replay.requestedOptions = request.2
  covers : ∀ request ∈ writes, request ∈ pending ∨
    ∃ replay ∈ replays, replay.path = request.1.path

variable {rep : List ExactWriteReplay}

open Fold in
theorem partitioned_of_eq_ok {seen : List LogicalPath} {w p : List RequestedWrite}
    (h : partitionConditionalWriteReplays host fs seen w = .ok (p, rep)) :
    Partitioned host fs w p rep ∧ ∀ req ∈ w, req.1.path ∉ seen := by
  induction w generalizing seen p rep with
  | nil =>
    cases h
    exact ⟨⟨.slnil, (nofun), .nil, (nofun), (nofun)⟩, (nofun)⟩
  | cons req rest ih =>
    obtain ⟨wr, op⟩ := req
    rw [partitionConditionalWriteReplays] at h
    split_ifs at h with hs
    obtain ⟨_, hc, h⟩ := bind_eq_ok.1 h
    obtain ⟨⟨_, _⟩, hre, h⟩ := bind_eq_ok.1 h
    obtain ⟨hp, hu⟩ := ih hre
    have hn : (((wr, op) :: rest).map fun req => req.1.path).Nodup := by
      refine List.nodup_cons.2 ⟨fun hmem => ?_, hp.nodup⟩
      obtain ⟨o, ho, heq⟩ := List.mem_map.1 hmem
      exact hu o ho (heq ▸ mem_cons_self)
    refine ⟨?_, List.forall_mem_cons.2 ⟨hs, fun o ho hmem =>
      hu o ho (mem_cons_of_mem _ hmem)⟩⟩
    rcases classifyWrite_eq_ok hc with
      ⟨rfl, hh⟩ | ⟨first, rfl, hpa, hop, ht⟩
    · cases h
      refine ⟨hp.sublist.cons_cons _, List.forall_mem_cons.2 ⟨hh, hp.holds⟩, hn,
        fun r hr => ?_, List.forall_mem_cons.2 ⟨.inl mem_cons_self,
          fun o ho => (hp.covers o ho).imp_left (mem_cons_of_mem _)⟩⟩
      obtain ⟨ht, o, ho, heq⟩ := hp.replay r hr
      exact ⟨ht, o, mem_cons_of_mem _ ho, heq⟩
    · cases h
      refine ⟨hp.sublist.cons _, hp.holds, hn,
        List.forall_mem_cons.2 ⟨⟨ht, _, mem_cons_self, hop⟩, fun r hr => ?_⟩,
        List.forall_mem_cons.2 ⟨.inr ⟨first, mem_cons_self, hpa⟩,
          fun o ho => (hp.covers o ho).imp_right fun ⟨r, hmem, heq⟩ =>
            ⟨r, mem_cons_of_mem _ hmem, heq⟩⟩⟩
      obtain ⟨ht, o, ho, heq⟩ := hp.replay r hr
      exact ⟨ht, o, mem_cons_of_mem _ ho, heq⟩

/-- Exact replays that ask for no mode change nothing. -/
theorem completeExactWriteReplays_of_none
    (h : ∀ r ∈ rep, exactWriteReplayTarget host fs r = .ok true ∧ r.requestedOptions = none) :
    ∃ re, (completeExactWriteReplays host rep).run fs = .ok re fs ∧
      re.map VfsStorageWriteResult.path = rep.map ExactWriteReplay.path := by
  induction rep with
  | nil => exact ⟨[], rfl, rfl⟩
  | cons r _ ih =>
    obtain ⟨ht, ho⟩ := h r mem_cons_self
    obtain ⟨re, hr, hp⟩ := ih fun o hot => h o (mem_cons_of_mem _ hot)
    have hf : (completeExactWriteReplay host r).run fs =
        .ok r.result fs := by
      simp only [completeExactWriteReplay, run_inspect_bind, ht, ho]
      rfl
    refine ⟨r.result :: re, ?_, ?_⟩
    · rw [completeExactWriteReplays, bind_of_ok _ hf, bind_of_ok _ hr, run_pure]
    · exact congrArg (List.cons r.path) hp

theorem writeResultsInOrder_of_covered {order : List LogicalPath}
    {re : List VfsStorageWriteResult}
    (h : ∀ path ∈ order, path ∈ re.map VfsStorageWriteResult.path) :
    ∃ ord, writeResultsInOrder order re = .ok ord := by
  unfold writeResultsInOrder
  induction order with
  | nil => exact ⟨[], rfl⟩
  | cons path _ ih =>
    obtain ⟨ord, ho⟩ := ih fun o hot => h o (mem_cons_of_mem _ hot)
    obtain ⟨r, hr, hp⟩ := List.mem_map.1 (h path mem_cons_self)
    cases hf : re.find? fun r => r.path = path with
    | none => exact absurd hp (by simpa using List.find?_eq_none.1 hf r hr)
    | some =>
      rw [mapM_cons, hf, ho]
      exact ⟨_, rfl⟩

/-- A batch that can be written does not fail once it has been split. -/
theorem writeManyAtomic_of_partitioned {w : List VfsStorageWrite} (hb : Writable fs w)
    {p : List RequestedWrite}
    (h : partitionConditionalWriteReplays host fs [] (w.map fun wr => (wr, none)) = .ok (p, rep)) :
    ∃ res fs', (writeManyAtomic host w).run fs = .ok res fs' := by
  obtain ⟨hp, -⟩ := partitioned_of_eq_ok h
  have hrepla : ∀ r ∈ rep, exactWriteReplayTarget host fs r = .ok true ∧
      r.requestedOptions = none := by
    intro r hre
    obtain ⟨ht, req, hr, ho⟩ := hp.replay r hre
    obtain ⟨wr, -, rfl⟩ := List.mem_map.1 hr
    exact ⟨ht, ho⟩
  have hpe : p.map Prod.fst ⊆ w := by
    intro wr hw
    obtain ⟨req, hr, rfl⟩ := List.mem_map.1 hw
    obtain ⟨wr, hmem, rfl⟩ := List.mem_map.1 (hp.sublist.subset hr)
    exact hmem
  obtain ⟨re, hrepl, hrep⟩ := completeExactWriteReplays_of_none hrepla
  obtain ⟨i, last, hin, hi⟩ :=
    installWritesWithOptions_of_writable host (hb.subset hpe) hp.holds
      (hp.nodup.sublist (hp.sublist.map _))
  have hc : ∀ path ∈ w.map VfsStorageWrite.path,
      path ∈ (re ++ i).map VfsStorageWriteResult.path := by
    intro path hpa
    obtain ⟨wr, hw, rfl⟩ := List.mem_map.1 hpa
    rw [map_append, mem_append, hrep, hi]
    rcases hp.covers (wr, none) (mem_map_of_mem hw) with
      hmem | ⟨r, hre, heq⟩
    · exact .inr (List.mem_map.2 ⟨_, hmem, rfl⟩)
    · exact .inl (List.mem_map.2 ⟨r, hre, heq⟩)
  obtain ⟨o, hor⟩ := writeResultsInOrder_of_covered hc
  refine ⟨o, last, ?_⟩
  simp only [writeManyAtomic, run_inspect_bind, h, bind_of_ok _ hrepl,
    bind_of_ok _ hin, run_inspect, hor]

end

def fileAndDirectory : FileSystem :=
  (FileSystem.bare 0o755).after [
    fun fs => fs.createFile ["f"] ⟨[1], 0o644⟩,
    fun fs => fs.mkdir ["d"] 0o755]

/-- A batch that wants a file to be absent that is there, and makes a new one. -/
def conflictingWrites : List VfsStorageWrite := [
  ⟨["new", "x"], [3], some .absent, none⟩,
  ⟨["f"], [2], some .absent, none⟩]

theorem conflictingWrites_writable : Writable fileAndDirectory conflictingWrites where
  target := by
    refine List.forall_mem_cons.2 ⟨⟨["new", "x"], rfl, by decide, by decide +kernel,
      .inl (by decide +kernel)⟩, List.forall_mem_singleton.2 ⟨["f"], rfl, by decide,
      by decide +kernel, .inr (.inl ⟨0, by decide +kernel⟩)⟩⟩
  apart := by
    intro wr hw o ho destination b hd hb
    simp only [conflictingWrites, mem_cons, not_mem_nil, or_false] at hw ho
    rcases hw with rfl | rfl <;> rcases ho with rfl | rfl <;> cases hd <;>
      cases hb <;> decide

/-- A batch that writes a file and then a directory. -/
def writeFileAndDirectory : List VfsStorageWrite := [
  ⟨["f"], [2], none, none⟩,
  ⟨["d"], [3], none, none⟩]

end Chevalier.Vfs
