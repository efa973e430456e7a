import Chevalier.Foundations.Places
import Chevalier.Vfs.Meaning

/-!
# Batches that go forward

`Replayable` collects when a batch can be applied again to the tree a part of it has left. A name is
used in one direction only: what a mutation introduces stands neither at or above a name an earlier
one used, nor at or below one that was removed.

In such a batch every mutation leaves a trace that the later ones keep (`Lasting`): what it made is
still there or has been removed, and what it removed stays removed.

* `framed_of_posix`: a mutation changes only what it names.
* `lasting_of_run`: after a run of a batch every mutation of it has left its trace.
-/

namespace Chevalier.Vfs

open Posix Calls FileSystem List

/-! ## What a mutation uses -/

namespace NamespaceMutation

/-- Every name a mutation mentions. -/
def paths : NamespaceMutation → List Path
  | .createFile path _ | .createDirectory path _ | .createSymlink path _ | .deleteFile path _
  | .removeDirectory path | .setMode path _ => [path.parts]
  | .createHardLink source destination => [source.parts, destination.parts]
  | .rename source target => [source.parts, target.parts]

/-- The names that stand for something new afterwards. -/
def introduces : NamespaceMutation → List Path
  | .createFile path _ | .createDirectory path _ | .createSymlink path _ => [path.parts]
  | .createHardLink _ destination => [destination.parts]
  | .rename _ target => [target.parts]
  | .deleteFile _ _ | .removeDirectory _ | .setMode _ _ => []

/-- The names that stand for nothing afterwards. -/
def removes : NamespaceMutation → List Path
  | .deleteFile path _ | .removeDirectory path => [path.parts]
  | .rename source _ => [source.parts]
  | .createFile _ _ | .createDirectory _ _ | .createSymlink _ _ | .createHardLink _ _
  | .setMode _ _ => []

def links : NamespaceMutation → List Path
  | .createSymlink path _ => [path.parts]
  | .createHardLink _ destination => [destination.parts]
  | _ => []

/-- The names a replay makes again if they are gone. -/
def creates : NamespaceMutation → List Path
  | .createDirectory path _ => [path.parts]
  | mutation => mutation.links

def setsMode : NamespaceMutation → List Path
  | .setMode path _ => [path.parts]
  | .createDirectory path (some _) => [path.parts]
  | _ => []

/-- The names of the files that get another name. -/
def linkSources : NamespaceMutation → List Path
  | .createHardLink source _ => [source.parts]
  | _ => []

theorem introduces_subset_paths (mu : NamespaceMutation) :
    mu.introduces ⊆ mu.paths := by
  cases mu <;> simp [introduces, paths]

theorem creates_subset_introduces (mu : NamespaceMutation) :
    mu.creates ⊆ mu.introduces := by
  cases mu <;> simp [creates, links, introduces]

end NamespaceMutation

/-- What a mutation needs besides names that are used in one direction: there is no `CreateFile`, a
new directory is not a link, a hard link is to a file with an identity, a mode is set on something
other than a link of the batch, and what is renamed was not made by the batch. -/
def Repeatable (host : Host) (earlier : List NamespaceMutation) (fs : FileSystem) :
    NamespaceMutation → Prop
  | .createFile _ _ => False
  | .createDirectory path _ => ∀ target, fs.node path.parts ≠ some (.symlink target)
  | .createHardLink source _ =>
    ∀ inode, fs.node source.parts = some (.file inode) → host.fileId inode ≠ none
  | .setMode path _ => fs.node path.parts ≠ none ∧ ∀ other ∈ earlier, path.parts ∉ other.links
  | .rename source _ => fs.node source.parts ≠ none ∧
    ∀ other ∈ earlier, ∀ path ∈ other.creates, ¬ source.parts <+: path
  | .createSymlink _ _ | .deleteFile _ _ | .removeDirectory _ => True

/-- A mutation goes forward from what the earlier ones of its batch have done. -/
structure Forward (host : Host) (earlier : List NamespaceMutation) (fs : FileSystem)
    (mutation : NamespaceMutation) : Prop where
  literal : Literal host fs mutation
  introduced : ∀ path ∈ mutation.introduces, ∀ other ∈ earlier,
    (∀ used ∈ other.paths, ¬ path <+: used) ∧ ∀ removed ∈ other.removes, ¬ removed <+: path
  linked : ∀ path ∈ mutation.removes, ∀ other ∈ earlier, ∀ source ∈ other.linkSources,
    ¬ path <+: source
  modes : ∀ path ∈ mutation.setsMode, ∀ other ∈ earlier, ∀ set ∈ other.setsMode,
    set ≠ path ∧ ¬ fs.SameFile set path
  repeatable : Repeatable host earlier fs mutation

/-- Every mutation goes forward from the tree the mutations before it leave. -/
def ForwardRun (host : Host) (done : List NamespaceMutation) (fs : FileSystem)
    (rest : List NamespaceMutation) : Prop :=
  ∀ earlier mutation later, rest = earlier ++ mutation :: later →
    ∀ mid, posixRun host fs earlier = .ok mid → Forward host (done ++ earlier) mid mutation

/-- A batch can be replayed after its front: each mutation of the front goes forward, and each
deletion behind it passes its check in the tree the front leaves. -/
structure Replayable (host : Host) (fs : FileSystem) (front back : List NamespaceMutation) :
    Prop where
  forward : ForwardRun host [] fs front
  deletable : ∀ mid, posixRun host fs front = .ok mid →
    ∀ path precondition, .deleteFile path precondition ∈ back →
    preflightDelete host mid path precondition = .ok ()

/-! ## What a mutation leaves alone -/

section

variable {host : Host} {fs fs' : FileSystem} {mutation mu : NamespaceMutation}

/-- What a mutation does to the names that do not lie at or below what it introduces, and to
inodes. -/
structure Framed (fs fs' : FileSystem) (mutation : NamespaceMutation) : Prop where
  node : ∀ path, (∀ introduced ∈ mutation.introduces, ¬ introduced <+: path) →
    fs'.node path = fs.node path ∨
    (fs'.node path = none ∧ ∃ removed ∈ mutation.removes, removed <+: path) ∨
    (fs.node path = none ∧ fs'.IsDirectory path ∧
      ∃ introduced ∈ mutation.introduces, path <+: introduced) ∨
    (fs.IsDirectory path ∧ fs'.IsDirectory path ∧ path ∈ mutation.setsMode)
  data : ∀ inode, fs'.data inode = fs.data inode ∨
    ∃ path ∈ mutation.setsMode, fs.node path = some (.file inode)
  fresh : fs'.fresh = fs.fresh

variable {path : Path}

theorem mkdirAll_eq_ok (h : mkdirAll host fs path = .ok fs') :
    (∃ t, fs.node path = some (.symlink t) ∧ fs' = fs) ∨
      fs.createDirAll path (newDirectoryMode host) = .ok fs' := by
  unfold mkdirAll at h
  split at h
  · rename_i t _ hn _
    cases h
    exact .inl ⟨t, hn, rfl⟩
  · exact .inr h

theorem mkdirAll_node (h : mkdirAll host fs path = .ok fs') (o : Path) :
    fs'.node o = fs.node o ∨ fs.node o = none ∧ fs'.IsDirectory o ∧ o <+: path := by
  rcases mkdirAll_eq_ok h with ⟨-, -, rfl⟩ | h
  · exact .inl rfl
  · obtain ⟨-, hn, -⟩ := createDirAll_eq_ok.1 h
    by_cases hne : fs.node o = none ∧ o <+: path
    · exact .inr ⟨hne.1, ⟨_, by rw [hn, if_pos hne]⟩, hne.2⟩
    · exact .inl (by rw [hn, if_neg hne])

theorem mkdirAll_data (h : mkdirAll host fs path = .ok fs') :
    fs'.data = fs.data ∧ fs'.fresh = fs.fresh := by
  rcases mkdirAll_eq_ok h with ⟨-, -, rfl⟩ | h
  · exact ⟨rfl, rfl⟩
  · exact (createDirAll_eq_ok.1 h).2.2

/-- The directory of a name that was made lies below directories. -/
theorem extensible_of_mkdirAll (h : mkdirAll host fs path = .ok fs')
    (hd : fs'.IsDirectory path) : fs.Extensible path := by
  rcases mkdirAll_eq_ok h with ⟨_, ht, rfl⟩ | h
  · obtain ⟨_, hm⟩ := hd
    rw [ht] at hm
    cases hm
  · exact (createDirAll_eq_ok.1 h).1

variable {made : FileSystem}

/-- What making a new name, and the missing directories above it, does. -/
theorem framed_of_withParents {e : Node}
    (hm : mkdirAll host fs path.dropLast = .ok made)
    (hn : ∀ o, fs'.node o = if o = path then some e else made.node o)
    (hd : fs'.data = made.data) (hf : fs'.fresh = made.fresh)
    (hi : path ∈ mu.introduces) : Framed fs fs' mu where
  node o hother := by
    have hne : o ≠ path := by
      rintro rfl
      exact hother _ hi prefix_rfl
    rw [hn, if_neg hne]
    rcases mkdirAll_node hm o with hs | ⟨hno, ⟨mode, hmo⟩, hin⟩
    · exact .inl hs
    · refine .inr (.inr (.inl ⟨hno, ⟨mode, ?_⟩, path, hi, hin.trans (List.dropLast_prefix path)⟩))
      rw [hn, if_neg hne, hmo]
  data inode := .inl (by rw [hd, (mkdirAll_data hm).1])
  fresh := by rw [hf, (mkdirAll_data hm).2]

theorem Framed.of_eq (h : fs' = fs) : Framed fs fs' mu := by
  subst h
  exact ⟨fun _ _ => .inl rfl, fun _ => .inl rfl, rfl⟩

theorem Framed.of_removed (h : Removed fs fs' path)
    (hr : path ∈ mu.removes) : Framed fs fs' mu where
  node o _ := by
    rw [h.node]
    split_ifs with heq
    · exact .inr (.inl ⟨rfl, path, hr, heq ▸ prefix_rfl⟩)
    · exact .inl rfl
  data _ := .inl (by rw [h.data])
  fresh := h.fresh

theorem unlessMissing_eq_ok {r : Except Errno FileSystem}
    (h : unlessMissing fs r = .ok fs') :
    r = .ok fs' ∨ r = .error .noEntry ∧ fs' = fs := by
  unfold unlessMissing at h
  split at h
  · cases h
    exact .inr ⟨rfl, rfl⟩
  · exact .inl h

theorem sameEntry_refl (e : Option Node) : SameEntry host fs e e := by
  rcases e with _ | (_ | _ | _) <;> simp [SameEntry]

theorem sameContents_of_sameFile {left right : Path} (h : fs.SameFile left right) :
    SameContents host fs left right := by
  obtain ⟨_, hl, hr⟩ := h
  refine sameContents_of_leaves (not_isDirectory_of_node hl (nofun))
    (not_isDirectory_of_node hr (nofun)) ?_
  rw [hl, hr]
  exact sameEntry_refl _

/-- A rename that is taken literally moves its source. -/
theorem moved_of_rename {s t : Path}
    (hl : ¬ SameContents host fs s t)
    (hma : mkdirAll host fs t.dropLast = .ok made)
    (h : made.rename s t = .ok fs') : Moved made fs' s t := by
  obtain ⟨_, -, -, -, ⟨heq | ⟨i, hs, ht⟩, -⟩ | ⟨-, -, hmo⟩⟩ :=
    rename_eq_ok.1 h
  · exact absurd (heq ▸ fun rest => sameEntry_refl _) hl
  · -- no file was made above the destination
    have hf : ∀ path, made.node path = some (.file i) →
        fs.node path = some (.file i) := by
      intro path hp
      rcases mkdirAll_node hma path with hsa | ⟨-, ⟨_, hm⟩, -⟩
      · rw [← hsa, hp]
      · rw [hp] at hm
        cases hm
    exact absurd (sameContents_of_sameFile ⟨i, hf _ hs, hf _ ht⟩) hl
  · exact hmo

theorem createDirAll_of_mkdirAll (h : mkdirAll host fs path = .ok fs')
    (hl : ∀ t, fs.node path ≠ some (.symlink t)) :
    fs.createDirAll path (newDirectoryMode host) = .ok fs' :=
  (mkdirAll_eq_ok h).resolve_left fun ⟨t, ht, _⟩ => hl t ht

theorem framed_of_setDirectoryMode {mode : Nat}
    (hm : Framed fs made mu) (hd : made.IsDirectory path)
    (hi : path ∈ mu.introduces ∨ fs = made ∧ path ∈ mu.setsMode) :
    Framed fs (made.setDirectoryMode path mode hd) mu where
  node o hother := by
    rw [node_setDirectoryMode]
    split_ifs with heq
    · subst heq
      rcases hi with hi | ⟨rfl, hse⟩
      · exact absurd prefix_rfl (hother _ hi)
      · exact .inr (.inr (.inr ⟨hd, ⟨mode, by simp⟩, hse⟩))
    · rcases hm.node o hother with hs | hn | ⟨hn, ⟨old, hold⟩, hb⟩ |
        ⟨hold, ⟨mode', hm'⟩, hse⟩
      · exact .inl hs
      · exact .inr (.inl hn)
      · exact .inr (.inr (.inl ⟨hn, ⟨old, by simp [heq, hold]⟩, hb⟩))
      · exact .inr (.inr (.inr ⟨hold, ⟨mode', by simp [heq, hm']⟩, hse⟩))
  data := hm.data
  fresh := hm.fresh

theorem chmod_eq_ok {mode : Nat} (h : fs.chmod path mode = .ok fs') :
    (∃ hd : fs.IsDirectory path, fs' = fs.setDirectoryMode path mode hd) ∨
      ∃ i, fs.node path = some (.file i) ∧ fs' = fs.setData i { fs.data i with mode := mode } := by
  unfold chmod at h
  split at h
  · cases h
  · rename_i old hold
    cases h
    exact .inl ⟨⟨old, hold⟩, rfl⟩
  · rename_i i hi
    cases h
    exact .inr ⟨i, hi, rfl⟩
  · cases h

/-- **A mutation changes only what it names.** -/
theorem framed_of_posix {ea : List NamespaceMutation}
    (hl : Literal host fs mu) (hr : Repeatable host ea fs mu)
    (h : posixMutation host fs mu = .ok fs') : Framed fs fs' mu := by
  cases mu with
  | createFile => exact hr.elim
  | createDirectory path mode =>
    obtain ⟨made, hm, h⟩ := Fold.bind_eq_ok.1 h
    have hi : path.parts ∈ (NamespaceMutation.createDirectory path mode).introduces :=
      mem_singleton_self _
    have hframed : Framed fs made (.createDirectory path mode) := by
      refine ⟨fun o _ => ?_, fun _ => .inl (by rw [(mkdirAll_data hm).1]), (mkdirAll_data hm).2⟩
      rcases mkdirAll_node hm o with hs | ⟨hno, hd, hini⟩
      · exact .inl hs
      · exact .inr (.inr (.inl ⟨hno, hd, _, hi, hini⟩))
    cases mode with
    | none =>
      cases h
      exact hframed
    | some =>
      have hd := isDirectory_of_createDirAll (createDirAll_of_mkdirAll hm hr)
      rcases chmod_eq_ok h with ⟨hdi, rfl⟩ | ⟨i, hin, -⟩
      · exact framed_of_setDirectoryMode hframed hdi (.inl hi)
      · exact absurd hd (not_isDirectory_of_node hin (nofun))
  | createSymlink =>
    rw [posixMutation] at h
    split_ifs at h with hth
    · cases h
      exact .of_eq rfl
    · obtain ⟨made, hm, h⟩ := Fold.bind_eq_ok.1 h
      obtain ⟨-, hn, hda, hf⟩ := createEntry_eq_ok.1 h
      exact framed_of_withParents hm hn hda hf (mem_singleton_self _)
  | createHardLink =>
    rw [posixMutation] at h
    split_ifs at h with hth
    · cases h
      exact .of_eq rfl
    · obtain ⟨made, hm, h⟩ := Fold.bind_eq_ok.1 h
      obtain ⟨_, hn, hda, hf⟩ := link_eq_ok h
      exact framed_of_withParents hm hn hda hf (mem_singleton_self _)
  | deleteFile =>
    rcases unlessMissing_eq_ok h with h | ⟨-, rfl⟩
    · exact .of_removed (unlink_eq_ok h).2.2 (mem_singleton_self _)
    · exact .of_eq rfl
  | removeDirectory =>
    rcases unlessMissing_eq_ok h with h | ⟨-, rfl⟩
    · exact .of_removed (rmdir_eq_ok h).2.2.2 (mem_singleton_self _)
    · exact .of_eq rfl
  | setMode path mode =>
    have hse : path.parts ∈ (NamespaceMutation.setMode path mode).setsMode :=
      mem_singleton_self _
    rcases unlessMissing_eq_ok h with h | ⟨-, rfl⟩
    · rcases chmod_eq_ok h with ⟨hd, rfl⟩ | ⟨i, hin, rfl⟩
      · exact framed_of_setDirectoryMode (.of_eq rfl) hd (.inr ⟨rfl, hse⟩)
      · refine ⟨fun _ _ => .inl rfl, fun o => ?_, rfl⟩
        by_cases heq : o = i
        · exact .inr ⟨_, hse, heq ▸ hin⟩
        · exact .inl (if_neg heq)
    · exact .of_eq rfl
  | rename s t =>
    rw [posixMutation] at h
    split_ifs at h with hmi
    · cases h
      exact .of_eq rfl
    · obtain ⟨made, hm, h⟩ := Fold.bind_eq_ok.1 h
      have hmo := moved_of_rename hl hm h
      have ht : t.parts ∈ (NamespaceMutation.rename s t).introduces :=
        mem_singleton_self _
      refine ⟨fun o hother => ?_, fun _ => .inl (by
        rw [hmo.data, (mkdirAll_data hm).1]), hmo.fresh.trans (mkdirAll_data hm).2⟩
      have hn := hmo.node o
      rw [if_neg (hother _ ht)] at hn
      split_ifs at hn with hfr
      · exact .inr (.inl ⟨hn, s.parts, mem_singleton_self _, hfr⟩)
      · rcases mkdirAll_node hm o with hs | ⟨hno, ⟨mode, hmod⟩, hini⟩
        · exact .inl (hn.trans hs)
        · exact .inr (.inr (.inl ⟨hno, ⟨mode, hn.trans hmod⟩, _, ht,
            hini.trans (List.dropLast_prefix _)⟩))

end

/-! ## What later mutations keep -/

section

variable (host : Host) (earlier : List NamespaceMutation) (fs : FileSystem)

/-- The name was removed, or something above it was. -/
def Gone (path : Path) : Prop :=
  fs.node path = none ∧ ∃ other ∈ earlier, ∃ removed ∈ other.removes, removed <+: path

/-- What is still to be seen of a mutation. -/
def Lasting : NamespaceMutation → Prop
  | .createFile _ _ => False
  | .createDirectory path mode => fs.Extensible path.parts ∧
    ((∃ found, fs.node path.parts = some (.directory found) ∧
      ∀ set, mode = some set → found = normalizeVfsMode set) ∨ Gone earlier fs path.parts)
  | .createSymlink path target => fs.Extensible path.parts.dropLast ∧
    (fs.node path.parts = some (.symlink target) ∨ Gone earlier fs path.parts)
  | .createHardLink source destination => fs.Extensible destination.parts.dropLast ∧
    ∃ inode, fs.node source.parts = some (.file inode) ∧ host.fileId inode ≠ none ∧
      (fs.node destination.parts = some (.file inode) ∨ Gone earlier fs destination.parts)
  | .deleteFile path _ | .removeDirectory path =>
    fs.Extensible path.parts ∧ Gone earlier fs path.parts
  | .setMode path mode =>
    fs.node path.parts = some (.directory (normalizeVfsMode mode)) ∨
    (∃ inode, fs.node path.parts = some (.file inode) ∧
      (fs.data inode).mode = normalizeVfsMode mode) ∨
    fs.Extensible path.parts.dropLast ∧ Gone earlier fs path.parts
  | .rename source target => fs.Extensible source.parts ∧ fs.Extensible target.parts.dropLast ∧
    Gone earlier fs source.parts

end

section

variable {host : Host} {ea : List NamespaceMutation} {fs fs' : FileSystem}
  {mu o : NamespaceMutation}

namespace Forward

variable {path : Path}

theorem not_above (h : Forward host ea fs mu) (hother : o ∈ ea)
    {used : Path} (hu : used ∈ o.paths) (hp : path <+: used) :
    ∀ i ∈ mu.introduces, ¬ i <+: path :=
  fun i hi ha =>
    (h.introduced i hi o hother).1 used hu (ha.trans hp)

section

variable (h : Forward host ea fs mu) (hframed : Framed fs fs' mu) (hother : o ∈ ea)
include h hframed hother

/-- Directories above a used name stay directories. -/
theorem extensible {used : Path} (hu : used ∈ o.paths)
    (hp : path <+: used) (he : fs.Extensible path) : fs'.Extensible path := by
  refine extensible_iff.2 fun f hf => ?_
  rcases hframed.node f (h.not_above hother hu (hf.trans hp)) with
    hs | ⟨hn, -⟩ | ⟨-, hd, -⟩ | ⟨-, hd, -⟩
  · rcases extensible_iff.1 he f hf with hn | ⟨mode, hm⟩
    · exact .inl (hs.trans hn)
    · exact .inr ⟨mode, hs.trans hm⟩
  · exact .inl hn
  · exact .inr hd
  · exact .inr hd

/-- What was removed stays removed. -/
theorem gone (hu : path ∈ o.paths)
    (hg : Gone ea fs path) : Gone (ea ++ [mu]) fs' path := by
  obtain ⟨hn, re, hre, r, hr, hb⟩ := hg
  refine ⟨?_, re, mem_append_left _ hre, r, hr, hb⟩
  rcases hframed.node path (h.not_above hother hu prefix_rfl) with
    hs | ⟨hn, -⟩ | ⟨-, -, introduced, hi, ha⟩ | ⟨⟨mode, hm⟩, -⟩
  · exact hs.trans hn
  · exact hn
  · exact absurd (hb.trans ha) ((h.introduced introduced hi re hre).2 r hr)
  · rw [hn] at hm
    cases hm

/-- A used name keeps what it stands for until it is removed, apart from the mode of a directory. -/
theorem node_or_gone (hu : path ∈ o.paths) {e : Node}
    (he : fs.node path = some e) :
    fs'.node path = some e ∨ Gone (ea ++ [mu]) fs' path ∨
      fs.IsDirectory path ∧ fs'.IsDirectory path ∧ path ∈ mu.setsMode := by
  rcases hframed.node path (h.not_above hother hu prefix_rfl) with
    hs | ⟨hn, removed, hr, hb⟩ | ⟨hn, -⟩ | hm
  · exact .inl (hs.trans he)
  · exact .inr (.inl ⟨hn, mu, by simp, removed, hr, hb⟩)
  · rw [he] at hn
    cases hn
  · exact .inr (.inr hm)

/-- A used name that is no directory keeps what it stands for until it is removed. -/
theorem leaf_or_gone (hu : path ∈ o.paths) {e : Node}
    (he : fs.node path = some e) (hl : ∀ mode, e ≠ .directory mode) :
    fs'.node path = some e ∨ Gone (ea ++ [mu]) fs' path := by
  rcases h.node_or_gone hframed hother hu he with hs | hg | ⟨hd, -⟩
  · exact .inl hs
  · exact .inr hg
  · exact absurd hd (not_isDirectory_of_node he hl)

/-- A mode that was set stays set on a directory. -/
theorem directory_or_gone
    (hu : path ∈ o.paths) {mode : Nat} (hse : path ∈ o.setsMode)
    (he : fs.node path = some (.directory mode)) :
    fs'.node path = some (.directory mode) ∨ Gone (ea ++ [mu]) fs' path := by
  rcases h.node_or_gone hframed hother hu he with hs | hg | ⟨-, -, ha⟩
  · exact .inl hs
  · exact .inr hg
  · exact absurd rfl (h.modes path ha o hother path hse).1

/-- The source of a link stays. -/
theorem linkSource (hu : path ∈ o.paths)
    (hs : path ∈ o.linkSources) {i : Nat}
    (he : fs.node path = some (.file i)) : fs'.node path = some (.file i) := by
  rcases hframed.node path (h.not_above hother hu prefix_rfl) with
    hsa | ⟨-, removed, hr, hb⟩ | ⟨hn, -⟩ | ⟨hd, -⟩
  · exact hsa.trans he
  · exact absurd hb (h.linked removed hr o hother path hs)
  · rw [he] at hn
    cases hn
  · exact absurd hd (not_isDirectory_of_node he (nofun))

/-- **A mutation keeps the traces of the earlier ones.** -/
theorem lasting (hl : Lasting host ea fs o) :
    Lasting host (ea ++ [mu]) fs' o := by
  cases o with
  | createFile => exact hl.elim
  | createDirectory path mode =>
    obtain ⟨he, hf⟩ := hl
    have hu : path.parts ∈ (NamespaceMutation.createDirectory path mode).paths :=
      mem_singleton_self _
    refine ⟨h.extensible hframed hother hu prefix_rfl he, ?_⟩
    rcases hf with ⟨f, hf, hm⟩ | hg
    · cases mode with
      | none =>
        rcases h.node_or_gone hframed hother hu hf with hs | hg | ⟨-, ⟨new, hn⟩, -⟩
        · exact .inl ⟨f, hs, (nofun)⟩
        · exact .inr hg
        · exact .inl ⟨new, hn, (nofun)⟩
      | some =>
        rcases h.directory_or_gone hframed hother hu (mem_singleton_self _) hf with
          hs | hg
        · exact .inl ⟨f, hs, hm⟩
        · exact .inr hg
    · exact .inr (h.gone hframed hother hu hg)
  | createSymlink path t =>
    obtain ⟨he, hf⟩ := hl
    have hu : path.parts ∈ (NamespaceMutation.createSymlink path t).paths :=
      mem_singleton_self _
    refine ⟨h.extensible hframed hother hu (List.dropLast_prefix _) he, ?_⟩
    rcases hf with hf | hg
    · exact h.leaf_or_gone hframed hother hu hf (nofun)
    · exact .inr (h.gone hframed hother hu hg)
  | createHardLink s d =>
    obtain ⟨he, i, hso, hid, hf⟩ := hl
    have hsou : s.parts ∈ (NamespaceMutation.createHardLink s d).paths := mem_cons_self
    have hu : d.parts ∈
        (NamespaceMutation.createHardLink s d).paths :=
      mem_cons_of_mem _ (mem_singleton_self _)
    refine ⟨h.extensible hframed hother hu (List.dropLast_prefix _) he, i,
      h.linkSource hframed hother hsou (mem_singleton_self _) hso, hid, ?_⟩
    rcases hf with hf | hg
    · exact h.leaf_or_gone hframed hother hu hf (nofun)
    · exact .inr (h.gone hframed hother hu hg)
  | deleteFile | removeDirectory =>
    obtain ⟨he, hg⟩ := hl
    exact ⟨h.extensible hframed hother (mem_singleton_self _) prefix_rfl he,
      h.gone hframed hother (mem_singleton_self _) hg⟩
  | setMode path mode =>
    have hu : path.parts ∈ (NamespaceMutation.setMode path mode).paths :=
      mem_singleton_self _
    have hse : path.parts ∈ (NamespaceMutation.setMode path mode).setsMode :=
      mem_singleton_self _
    have ha : ∀ e, fs.node path.parts = some e →
        fs'.Extensible path.parts.dropLast := fun e hen =>
      h.extensible hframed hother hu (List.dropLast_prefix _) (extensible_dropLast hen)
    rcases hl with hf | ⟨i, hf, hm⟩ | ⟨he, hg⟩
    · rcases h.directory_or_gone hframed hother hu hse hf with hs | hg
      · exact .inl hs
      · exact .inr (.inr ⟨ha _ hf, hg⟩)
    · rcases h.leaf_or_gone hframed hother hu hf (nofun) with hs | hg
      · refine .inr (.inl ⟨i, hs, ?_⟩)
        rcases hframed.data i with hd | ⟨a, hag, hfi⟩
        · rw [hd, hm]
        · exact absurd ⟨i, hf, hfi⟩ (h.modes a hag _ hother _ hse).2
      · exact .inr (.inr ⟨ha _ hf, hg⟩)
    · exact .inr (.inr ⟨h.extensible hframed hother hu (List.dropLast_prefix _) he,
        h.gone hframed hother hu hg⟩)
  | rename =>
    obtain ⟨hso, ht, hg⟩ := hl
    exact ⟨h.extensible hframed hother mem_cons_self prefix_rfl hso,
      h.extensible hframed hother (mem_cons_of_mem _ (mem_singleton_self _))
        (List.dropLast_prefix _) ht,
      h.gone hframed hother mem_cons_self hg⟩

end

end Forward

/-! ## The trace of a mutation -/

variable {path : Path}

theorem gone_of_removed (h : Removed fs fs' path)
    (hr : path ∈ mu.removes) : Gone (ea ++ [mu]) fs' path :=
  ⟨by rw [h.node, if_pos rfl], mu, by simp, path, hr, prefix_rfl⟩

/-- Only directories lie above a name that was removed. -/
theorem extensible_of_removed {e : Node} (he : fs.node path = some e)
    (h : Removed fs fs' path) : fs'.Extensible path := by
  refine extensible_iff.2 fun f hf => ?_
  rw [IsDirectory, h.node]
  split_ifs with heq
  · exact .inl rfl
  · exact .inr (isDirectory_of_front hf heq he)

theorem gone_of_missing (h : fs.lstat path = .error .noEntry)
    (hr : path ∈ mu.removes) :
    fs.Extensible path ∧ Gone (ea ++ [mu]) fs path := by
  obtain ⟨hn, hm⟩ := lstat_eq_error.1 h
  exact ⟨extensible_of_missing hn hm, hn, mu, by simp, path, hr, prefix_rfl⟩

theorem lstat_of_unlink (h : fs.unlink path = .error .noEntry) :
    fs.lstat path = .error .noEntry := by
  unfold unlink at h
  split at h
  · rename_i hn
    exact lstat_eq_error.2 ⟨hn, Except.error.inj h⟩
  · cases h
  · split_ifs at h
    cases h

theorem lstat_of_rmdir (h : fs.rmdir path = .error .noEntry) :
    fs.lstat path = .error .noEntry := by
  unfold rmdir at h
  split at h
  · rename_i hn
    exact lstat_eq_error.2 ⟨hn, Except.error.inj h⟩
  · split_ifs at h
    cases h
  · cases h

/-- Nothing is moved to a name above it. -/
theorem not_prefix_of_rename {s t : Path} (h : fs.rename s t = .ok fs')
    (hm : Moved fs fs' s t) : ¬ t <+: s := by
  intro hi
  obtain ⟨m, hs, -, -, ⟨heq | ⟨_, -, ht⟩, -⟩ | ⟨-, hr, -⟩⟩ :=
    rename_eq_ok.1 h
  · exact hm.apart (heq ▸ prefix_rfl)
  · have hne : t ≠ s := fun heq => hm.apart (heq ▸ prefix_rfl)
    exact not_isDirectory_of_node ht (nofun) (isDirectory_of_front hi hne hs)
  · have hne : t ≠ s := fun heq => hm.apart (heq ▸ prefix_rfl)
    obtain ⟨_, hmo⟩ := isDirectory_of_front hi hne hs
    have hch : ¬ fs.Childless t := fun hc => by
      have hn := childless_iff.1 hc s hi (Ne.symm hne)
      rw [hs] at hn
      cases hn
    unfold replaceable at hr
    cases m <;> simp [hmo, hch] at hr

/-- What a rename leaves of its source and of the way to its target. -/
theorem lasting_of_moved {s t : Path} (hm : Moved fs fs' s t)
    (ha : ¬ t <+: s) {e : Node} (hs : fs.node s = some e) :
    fs'.node s = none ∧ fs'.Extensible s ∧ fs'.Extensible t.dropLast := by
  have hg : fs'.node s = none := by
    rw [hm.node, if_neg ha, if_pos prefix_rfl]
  refine ⟨hg, extensible_iff.2 fun f hf => ?_, extensible_iff.2 fun f hf => .inr ?_⟩
  · by_cases heq : f = s
    · exact .inl (heq ▸ hg)
    · obtain ⟨mode, hmo⟩ := isDirectory_of_front hf heq hs
      refine .inr ⟨mode, ?_⟩
      rw [hm.node, if_neg fun hto => ha (hto.trans hf),
        if_neg fun hfr => heq (hf.eq_of_length_le hfr.length_le), hmo]
  · have hd : fs.IsDirectory f := by
      by_cases heq : f = t.dropLast
      · exact heq ▸ hm.directory
      · obtain ⟨mode, hmo⟩ := hm.directory
        exact isDirectory_of_front hf heq hmo
    obtain ⟨mode, hmo⟩ := hd
    have hsh : ¬ t <+: f := fun hto => by
      have hle := (hto.trans hf).length_le
      have hpos := List.length_pos_iff.2 hm.target_ne
      rw [length_dropLast] at hle
      omega
    refine ⟨mode, ?_⟩
    rw [hm.node, if_neg hsh, if_neg fun hfr => hm.apart
      ((hfr.trans hf).trans (List.dropLast_prefix _)), hmo]

/-- The source of a hard link is a file. -/
theorem file_of_createHardLink {s d : LogicalPath} {u : Unit}
    (h : (applyMutation host (.createHardLink s d)).run fs = .ok u fs') :
    ∃ i, fs.node s.parts = some (.file i) := by
  obtain ⟨-, h⟩ := absPath_bind_eq_ok h
  obtain ⟨-, h⟩ := absPath_bind_eq_ok h
  obtain ⟨-, -, h⟩ := inspect_bind_eq_ok.1 h
  obtain ⟨-, -, h⟩ := inspect_bind_eq_ok.1 h
  obtain ⟨_, hl, h⟩ := inspect_bind_eq_ok.1 h
  cases hl
  split at h
  · cases h
  · cases h
  · cases h
  · cases h
  · rename_i i hi
    exact ⟨i, lstat_eq_ok.1 hi⟩

/-- What a `CreateDirectory` needs, and what it makes. -/
theorem createDirectory_made {path : LogicalPath} {mode : Option Nat}
    (hl : ∀ t, fs.node path.parts ≠ some (.symlink t))
    (h : posixMutation host fs (.createDirectory path mode) = .ok fs') :
    fs.Extensible path.parts ∧ ∃ f, fs'.node path.parts = some (.directory f) ∧
      ∀ set, mode = some set → f = normalizeVfsMode set := by
  obtain ⟨_, hm, h⟩ := Fold.bind_eq_ok.1 h
  have hc := createDirAll_of_mkdirAll hm hl
  obtain ⟨old, hold⟩ := isDirectory_of_createDirAll hc
  refine ⟨(createDirAll_eq_ok.1 hc).1, ?_⟩
  cases mode with
  | none =>
    cases h
    exact ⟨old, hold, (nofun)⟩
  | some =>
    rcases chmod_eq_ok h with ⟨_, rfl⟩ | ⟨_, hi, -⟩
    · refine ⟨_, if_pos rfl, fun set' heq => ?_⟩
      cases heq
      rfl
    · rw [hold] at hi
      cases hi

/-- What a `CreateSymlink` needs, and what it makes. -/
theorem createSymlink_made {path : LogicalPath} {t : String}
    (h : posixMutation host fs (.createSymlink path t) = .ok fs') :
    fs.Extensible path.parts.dropLast ∧ fs'.node path.parts = some (.symlink t) := by
  rw [posixMutation] at h
  split_ifs at h with ht
  · cases h
    exact ⟨extensible_dropLast ht, ht⟩
  · obtain ⟨_, hm, h⟩ := Fold.bind_eq_ok.1 h
    obtain ⟨hv, hn, -⟩ := createEntry_eq_ok.1 h
    exact ⟨extensible_of_mkdirAll hm hv.2.2, by rw [hn, if_pos rfl]⟩

/-- What a `CreateHardLink` of a file needs, and what it makes. -/
theorem createHardLink_made {s d : LogicalPath} {i : Nat}
    (hs : fs.node s.parts = some (.file i))
    (h : posixMutation host fs (.createHardLink s d) = .ok fs') :
    fs.Extensible d.parts.dropLast ∧ fs'.node s.parts = some (.file i) ∧
      fs'.node d.parts = some (.file i) := by
  rw [posixMutation] at h
  split_ifs at h with ht
  · cases h
    obtain ⟨f, hf, hd⟩ := ht
    obtain rfl : i = f := Node.file.inj (Option.some.inj (hs.symm.trans hf))
    exact ⟨extensible_dropLast hd, hs, hd⟩
  · obtain ⟨_, hm, h⟩ := Fold.bind_eq_ok.1 h
    have hk := mkdirAll_kept hm hs
    obtain ⟨hv, hn, -⟩ := (link_file_eq_ok hk).1 h
    have hne : s.parts ≠ d.parts := fun heq => by
      rw [heq, hv.2.1] at hk
      cases hk
    exact ⟨extensible_of_mkdirAll hm hv.2.2, by rw [hn, if_neg hne, hk], by rw [hn, if_pos rfl]⟩

/-- **A mutation leaves its trace.** -/
theorem lasting_of_posix (hfo : Forward host ea fs mu) {u : Unit}
    (h : (applyMutation host mu).run fs = .ok u fs') :
    Lasting host (ea ++ [mu]) fs' mu := by
  have hp := applyMutation_posix hfo.literal h
  have hr := hfo.repeatable
  have hl := hfo.literal
  cases mu with
  | createFile => exact hr.elim
  | createDirectory =>
    obtain ⟨-, f, hf, hmo⟩ := createDirectory_made hr hp
    exact ⟨extensible_of_isDirectory ⟨f, hf⟩, .inl ⟨f, hf, hmo⟩⟩
  | createSymlink =>
    obtain ⟨-, hf⟩ := createSymlink_made hp
    exact ⟨extensible_dropLast hf, .inl hf⟩
  | createHardLink =>
    obtain ⟨i, hs⟩ := file_of_createHardLink h
    obtain ⟨-, hk, hf⟩ := createHardLink_made hs hp
    exact ⟨extensible_dropLast hf, i, hk, hr i hs, .inl hf⟩
  | deleteFile path p =>
    have hrem : path.parts ∈ (NamespaceMutation.deleteFile path p).removes :=
      mem_singleton_self _
    rcases unlessMissing_eq_ok hp with hu | ⟨hm, rfl⟩
    · obtain ⟨⟨e, he⟩, -, hre⟩ := unlink_eq_ok hu
      exact ⟨extensible_of_removed he hre, gone_of_removed hre hrem⟩
    · exact gone_of_missing (lstat_of_unlink hm) hrem
  | removeDirectory path =>
    have hrem : path.parts ∈ (NamespaceMutation.removeDirectory path).removes :=
      mem_singleton_self _
    rcases unlessMissing_eq_ok hp with hrm | ⟨hm, rfl⟩
    · obtain ⟨⟨_, hmo⟩, -, -, hre⟩ := rmdir_eq_ok hrm
      exact ⟨extensible_of_removed hmo hre, gone_of_removed hre hrem⟩
    · exact gone_of_missing (lstat_of_rmdir hm) hrem
  | setMode =>
    rcases unlessMissing_eq_ok hp with hc | ⟨hm, rfl⟩
    · rcases chmod_eq_ok hc with ⟨_, rfl⟩ | ⟨i, hi, rfl⟩
      · exact .inl (by simp)
      · exact .inr (.inl ⟨i, hi, by simp [setData]⟩)
    · unfold chmod at hm
      split at hm
      · rename_i hn
        exact absurd hn hr.1
      · cases hm
      · cases hm
      · cases hm
  | rename s t =>
    rw [posixMutation] at hp
    split_ifs at hp with hm
    · exact absurd (lstat_eq_error.1 hm).1 hr.1
    · obtain ⟨_, hma, hp⟩ := Fold.bind_eq_ok.1 hp
      have hmov := moved_of_rename hl hma hp
      obtain ⟨e, he⟩ := Option.ne_none_iff_exists'.1 hr.1
      obtain ⟨hn, hs, ht⟩ := lasting_of_moved hmov
        (not_prefix_of_rename hp hmov) (mkdirAll_kept hma he)
      exact ⟨hs, ht, hn, .rename s t, by simp, s.parts, mem_singleton_self _, prefix_rfl⟩

/-! ## Runs -/

variable {done rest : List NamespaceMutation}

theorem ForwardRun.nil : ForwardRun host done fs [] := by
  intro ea mu l hs
  simp at hs

theorem ForwardRun.cons (h : Forward host done fs mu)
    (hr : ∀ fs', posixMutation host fs mu = .ok fs' → ForwardRun host (done ++ [mu]) fs' rest) :
    ForwardRun host done fs (mu :: rest) := by
  intro ea next l hs mid hm
  rcases ea with _ | ⟨_, ea⟩
  · obtain ⟨rfl, -⟩ := List.cons_eq_cons.1 hs
    cases hm
    simpa using h
  · obtain ⟨rfl, ht⟩ := List.cons_eq_cons.1 hs
    obtain ⟨fs', hf, hm⟩ := Fold.bind_eq_ok.1 hm
    simpa using hr fs' hf ea next l ht mid hm

theorem ForwardRun.head (h : ForwardRun host done fs (mu :: rest)) :
    Forward host done fs mu := by
  simpa using h [] mu rest rfl fs rfl

theorem ForwardRun.tail (h : ForwardRun host done fs (mu :: rest))
    (hm : posixMutation host fs mu = .ok fs') :
    ForwardRun host (done ++ [mu]) fs' rest := by
  rintro ea next l rfl mid hmi
  simpa using h (mu :: ea) next l rfl mid (Fold.bind_eq_ok.2 ⟨fs', hm, hmi⟩)

/-- **After a run every mutation of it has left its trace.** -/
theorem lasting_of_run {t t' : List Path} (hrun : ForwardRun host done fs rest)
    (hd : ∀ o ∈ done, Lasting host done fs o)
    (h : (applyMutations host t rest).run fs = .ok t' fs') :
    ∀ o ∈ done ++ rest, Lasting host (done ++ rest) fs' o := by
  induction rest generalizing done fs t with
  | nil =>
    cases h
    simpa using hd
  | cons mu _ ih =>
    obtain ⟨⟨⟩, mid, hm, h⟩ := bind_eq_ok.1 h
    obtain ⟨_, -, h⟩ := inspect_bind_eq_ok.1 h
    have hf := hrun.head
    have hp := applyMutation_posix hf.literal hm
    have hframed := framed_of_posix hf.literal hf.repeatable hp
    have hs : ∀ o ∈ done ++ [mu], Lasting host (done ++ [mu]) mid o := by
      intro o hother
      rcases mem_concat.1 hother with hother | rfl
      · exact hf.lasting hframed hother (hd o hother)
      · exact lasting_of_posix hf hm
    simpa using ih (hrun.tail hp) hs h

end

end Chevalier.Vfs
