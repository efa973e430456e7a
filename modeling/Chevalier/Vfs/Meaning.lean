import Chevalier.Vfs.Lookup
import Chevalier.Vfs.Namespace
import Chevalier.Foundations.Fold

/-!
# What a namespace batch means

`posixMutation` says what a mutation is for, in system calls: missing directories above a new name are
made first, what is gone need not be removed again, and a link that is there need not be made again.
A batch means its mutations one after the other (`posixRun`).

* `applyNamespaceBatch_posix`: a batch that is applied leaves the tree its meaning leaves, inode by
  inode, if no rename of it finds the contents of its source at its destination, and the targets of
  its links are spelled as the storage serves them.
-/

namespace Chevalier.Vfs

open Posix Calls FileSystem List

/-! ## The meaning of a mutation -/

section

variable (host : Host)

/-- Make the missing directories above a new name first. -/
def withParents (fs : FileSystem) (path : Path)
    (call : FileSystem → Except Errno FileSystem) : Except Errno FileSystem := do
  let fs ← mkdirAll host fs path.dropLast
  call fs

/-- What is not there need not be changed. -/
def unlessMissing (fs : FileSystem) (result : Except Errno FileSystem) :
    Except Errno FileSystem :=
  match result with
  | .error .noEntry => .ok fs
  | result => result

def posixMutation (fs : FileSystem) : NamespaceMutation → Except Errno FileSystem
  | .createFile path mode =>
    withParents host fs path.parts fun fs =>
      fs.createFile path.parts ⟨[], mode.elim (newFileMode host) normalizeVfsMode⟩
  | .createDirectory path mode => do
    let fs ← mkdirAll host fs path.parts
    match mode with
    | none => return fs
    | some mode => fs.chmod path.parts (normalizeVfsMode mode)
  | .createSymlink path target =>
    if fs.node path.parts = some (.symlink target) then .ok fs
    else withParents host fs path.parts fun fs => fs.symlink target path.parts
  | .createHardLink source destination =>
    if fs.SameFile source.parts destination.parts then .ok fs
    else withParents host fs destination.parts fun fs => fs.link source.parts destination.parts
  | .deleteFile path _ => unlessMissing fs (fs.unlink path.parts)
  | .removeDirectory path => unlessMissing fs (fs.rmdir path.parts)
  | .setMode path mode => unlessMissing fs (fs.chmod path.parts (normalizeVfsMode mode))
  | .rename source target =>
    if fs.lstat source.parts = .error .noEntry then .ok fs
    else withParents host fs target.parts fun fs => fs.rename source.parts target.parts

/-- Mutations one after the other. -/
def posixRun (fs : FileSystem) (mutations : List NamespaceMutation) : Except Errno FileSystem :=
  mutations.foldlM (posixMutation host) fs

/-! ## Same contents -/

/-- Two entries hold the same contents as far as they themselves go. -/
def SameEntry (fs : FileSystem) : Option Node → Option Node → Prop
  | none, none => True
  | some (.directory _), some (.directory _) => True
  | some (.symlink text), some (.symlink text') => text = text'
  | some (.file inode), some (.file inode') =>
    (fs.data inode).bytes.length = (fs.data inode').bytes.length ∧
      host.hash (fs.data inode).bytes = host.hash (fs.data inode').bytes
  | _, _ => False

/-- Two names hold the same contents, all the way down. -/
def SameContents (fs : FileSystem) (left right : Path) : Prop :=
  ∀ rest, SameEntry host fs (fs.node (left ++ rest)) (fs.node (right ++ rest))

/-- A mutation that the storage takes literally: the destination of a rename does not hold the
contents of its source, and the target of a link is spelled as it is served. -/
def Literal (fs : FileSystem) : NamespaceMutation → Prop
  | .createSymlink path target =>
    (∀ fs, linkText host fs path.parts target = target) ∧
      ∀ text, fs.node path.parts = some (.symlink text) → text = target
  | .rename source target => ¬ SameContents host fs source.parts target.parts
  | _ => True

/-- Every mutation of a batch is taken literally in the tree the mutations before it leave. -/
def LiteralRun (fs : FileSystem) (mutations : List NamespaceMutation) : Prop :=
  ∀ earlier mutation later, mutations = earlier ++ mutation :: later →
    ∀ mid, posixRun host fs earlier = .ok mid → Literal host mid mutation

end

section

variable {host : Host} {fs fs' : FileSystem}

theorem absPath_eq_ok {path : LogicalPath} {abs : Path} :
    absPath path = .ok abs ↔ ".." ∉ path ∧ abs = path.parts := by
  unfold absPath
  split_ifs with h
  · simp [h]
  · simp [h, eq_comm]

theorem run_absPath_bind {α : Type} {path : LogicalPath} {k : Path → VfsM α} (h : ".." ∉ path) :
    ((inspect fun _ => absPath path) >>= k).run fs = (k path.parts).run fs := by
  rw [run_inspect_bind, absPath_eq_ok.2 ⟨h, rfl⟩]

theorem absPath_bind_eq_ok {α : Type} {path : LogicalPath} {k : Path → VfsM α} {a : α}
    (h : ((inspect fun _ => absPath path) >>= k).run fs = .ok a fs') :
    ".." ∉ path ∧ (k path.parts).run fs = .ok a fs' := by
  obtain ⟨_, ha, h⟩ := inspect_bind_eq_ok.1 h
  obtain ⟨hd, rfl⟩ := absPath_eq_ok.1 ha
  exact ⟨hd, h⟩

theorem allNames_eq_true {c : String → Except VfsStorageError Bool} {n : List String}
    (h : allNames c n = .ok true) : ∀ name ∈ n, c name = .ok true := by
  induction n with
  | nil => exact (nofun)
  | cons _ _ ih =>
    obtain ⟨same, hs, h⟩ := Fold.bind_eq_ok.1 h
    cases same with
    | false => cases h
    | true => exact List.forall_mem_cons.2 ⟨hs, ih h⟩

variable {path : Path}

theorem not_isDirectory_of_node {e : Node} (h : fs.node path = some e)
    (he : ∀ mode, e ≠ .directory mode) : ¬ fs.IsDirectory path := by
  rintro ⟨mode, hm⟩
  exact he mode (Option.some.inj (h.symm.trans hm))

theorem not_isDirectory_of_none (h : fs.node path = none) : ¬ fs.IsDirectory path := by
  rintro ⟨mode, hm⟩
  cases h.symm.trans hm

variable {left right : Path}

theorem sameContents_of_leaves (hl : ¬ fs.IsDirectory left)
    (hr : ¬ fs.IsDirectory right)
    (h : SameEntry host fs (fs.node left) (fs.node right)) : SameContents host fs left right := by
  intro rest
  cases rest with
  | nil => simpa using h
  | cons =>
    rw [node_below_eq_none (prefix_append _ _) (by simp) hl,
      node_below_eq_none (prefix_append _ _) (by simp) hr]
    trivial

theorem sameContents_of_children (hl : fs.IsDirectory left)
    (hr : fs.IsDirectory right)
    (hna : ∀ name, (fs.node (left ++ [name])).isSome ↔ (fs.node (right ++ [name])).isSome)
    (h : ∀ name, (fs.node (left ++ [name])).isSome →
      SameContents host fs (left ++ [name]) (right ++ [name])) :
    SameContents host fs left right := by
  intro rest
  cases rest with
  | nil =>
    obtain ⟨mode, hm⟩ := hl
    obtain ⟨_, hm'⟩ := hr
    rw [append_nil, append_nil, hm, hm']
    trivial
  | cons name rest =>
    by_cases hn : (fs.node (left ++ [name])).isSome
    · simpa using h name hn rest
    · have hno : ∀ path, ¬ (fs.node (path ++ [name])).isSome →
          fs.node (path ++ name :: rest) = none := by
        intro path hp
        rw [Option.not_isSome_iff_eq_none] at hp
        cases rest with
        | nil => exact hp
        | cons more rest =>
          have hb : path ++ [name] <+: path ++ name :: more :: rest := by simp
          exact node_below_eq_none hb (by simp) fun ⟨mode, hm⟩ => by simp [hp] at hm
      rw [hno left hn, hno right fun hs => hn ((hna name).2 hs)]
      trivial

/-- What is taken for the same contents is the same contents. -/
theorem sameContents_of_equivalent {d : Nat}
    (h : pathsHaveEquivalentContents host fs d left right = .ok true) :
    SameContents host fs left right := by
  induction d generalizing left right with
  | zero => cases h
  | succ _ ih =>
    unfold pathsHaveEquivalentContents at h
    split at h
    · cases h
    · cases h
    · rename_i text text' hl hr
      rw [lstat_eq_ok] at hl hr
      refine sameContents_of_leaves (not_isDirectory_of_node hl (nofun))
        (not_isDirectory_of_node hr (nofun)) ?_
      rw [hl, hr]
      simpa [SameEntry] using h
    · rename_i i i' hl hr
      rw [lstat_eq_ok] at hl hr
      refine sameContents_of_leaves (not_isDirectory_of_node hl (nofun))
        (not_isDirectory_of_node hr (nofun)) ?_
      rw [hl, hr]
      simpa [SameEntry] using h
    · rename_i mode mode' hl hr
      rw [lstat_eq_ok] at hl hr
      simp only at h
      split_ifs at h with hn
      · have hmem : ∀ name, name ∈ host.readDir fs left ↔ name ∈ host.readDir fs right := by
          intro name
          rw [← mem_insertionSort (· ≤ ·), hn, mem_insertionSort]
        refine sameContents_of_children ⟨mode, hl⟩ ⟨mode', hr⟩ (fun name => ?_)
          fun name hna => ih (allNames_eq_true h name ?_)
        · rw [← host.mem_readDir, ← host.mem_readDir, hmem]
        · rw [mem_insertionSort, host.mem_readDir]
          exact hna
      · cases h
    · cases h

/-! ## Mutations and their meanings -/

theorem applyExactMode_eq_ok {mode : Nat} {am c : Bool}
    (h : (applyExactMode host path mode am).run fs = .ok c fs') :
    fs.chmod path (normalizeVfsMode mode) = .ok fs' ∨
      am = true ∧ fs.lstat path = .error .noEntry ∧ fs' = fs := by
  unfold applyExactMode at h
  rw [run_inspect_bind] at h
  simp only at h
  split at h
  · rename_i hm
    split_ifs at h with ha
    · cases h
      exact .inr ⟨ha, hm, rfl⟩
    · cases h
  · cases h
  · cases h
  · obtain ⟨_, hmi, h⟩ := perform_bind_eq_ok.1 h
    cases h
    exact .inl hmi

theorem chmod_of_missing {mode : Nat} (h : fs.lstat path = .error .noEntry) :
    fs.chmod path mode = .error .noEntry := by
  obtain ⟨_, _⟩ := lstat_eq_error.1 h
  unfold chmod
  split <;> simp_all

/-- What the metadata of a path says. -/
theorem metadataForAbs_eq_ok {m : Option Metadata}
    (h : metadataForAbs host fs path = .ok m) :
    assertNoSymlinkAncestor fs path = .ok () ∧
      (m = none ∧ fs.lstat path = .error .noEntry ∨
        ∃ f, m = some f ∧ fs.node path = some f.entry ∧
          ∀ text, f.linkTarget = some text →
            ∃ t, f.entry = .symlink t ∧ text = linkText host fs path t) := by
  obtain ⟨⟨⟩, hc, h⟩ := Fold.bind_eq_ok.1 h
  refine ⟨hc, ?_⟩
  split at h
  · rename_i t hl
    obtain ⟨text, ht, h⟩ := Fold.bind_eq_ok.1 h
    unfold validateSymlinkTargetText at ht
    split_ifs at ht
    cases h
    cases ht
    exact .inr ⟨_, rfl, lstat_eq_ok.1 hl, fun text ht => by
      cases ht
      exact ⟨t, rfl, rfl⟩⟩
  · rename_i i hf
    cases h
    exact .inr ⟨_, rfl, lstat_eq_ok.1 hf, (nofun)⟩
  · rename_i mode hd
    cases h
    exact .inr ⟨_, rfl, lstat_eq_ok.1 hd, (nofun)⟩
  · rename_i hm
    cases h
    exact .inl ⟨rfl, hm⟩
  · cases h

theorem validateSymlinkTargetText_eq_ok {t text : String}
    (h : validateSymlinkTargetText host fs path t = .ok text) :
    t ≠ "" ∧ text = linkText host fs path t := by
  unfold validateSymlinkTargetText at h
  split_ifs at h with he
  cases h
  exact ⟨he, rfl⟩

variable {u : Unit} {mode : Option Nat}

theorem createDirectory_posix {path : LogicalPath}
    (h : (createDirectory host path path.parts mode).run fs = .ok u fs') :
    posixMutation host fs (.createDirectory path mode) = .ok fs' := by
  obtain ⟨-, -, h⟩ := inspect_bind_eq_ok.1 h
  obtain ⟨made, hma, h⟩ := perform_bind_eq_ok.1 h
  refine Fold.bind_eq_ok.2 ⟨made, hma, ?_⟩
  cases mode with
  | none =>
    cases h
    rfl
  | some =>
    obtain ⟨_, _, hmo, h⟩ := bind_eq_ok.1 h
    cases h
    exact (applyExactMode_eq_ok hmo).resolve_right fun hm => nomatch hm.1

theorem createSymlink_posix {path : LogicalPath} {t : String}
    (hl : Literal host fs (.createSymlink path t))
    (h : (createSymlink host path path.parts t).run fs = .ok u fs') :
    posixMutation host fs (.createSymlink path t) = .ok fs' := by
  obtain ⟨hc, ht⟩ := hl
  obtain ⟨_, hv, h⟩ := inspect_bind_eq_ok.1 h
  obtain ⟨_, hm, h⟩ := inspect_bind_eq_ok.1 h
  obtain ⟨-, rfl⟩ := validateSymlinkTargetText_eq_ok hv
  rw [hc] at h
  rw [posixMutation]
  rcases (metadataForAbs_eq_ok hm).2 with ⟨rfl, hmi⟩ | ⟨_, rfl, hn, hli⟩
  · obtain ⟨hno, -⟩ := lstat_eq_error.1 hmi
    rw [if_neg (by simp [hno])]
    obtain ⟨-, -, h⟩ := inspect_bind_eq_ok.1 h
    obtain ⟨made, hma, h⟩ := perform_bind_eq_ok.1 h
    obtain ⟨text, ht, h⟩ := inspect_bind_eq_ok.1 h
    obtain ⟨-, rfl⟩ := validateSymlinkTargetText_eq_ok ht
    rw [hc] at h
    exact Fold.bind_eq_ok.2 ⟨made, hma, perform_eq_ok.1 h⟩
  · simp only at h
    split_ifs at h with hs
    · obtain ⟨text, he, -⟩ := hli _ hs
      rw [he] at hn
      cases h
      rw [if_pos (by rw [hn, ht text hn])]
    · cases h

theorem createHardLink_posix {s d : LogicalPath}
    (h : (createHardLinkLocked host s d s.parts d.parts).run fs = .ok u fs') :
    posixMutation host fs (.createHardLink s d) = .ok fs' := by
  obtain ⟨-, -, h⟩ := inspect_bind_eq_ok.1 h
  obtain ⟨-, -, h⟩ := inspect_bind_eq_ok.1 h
  obtain ⟨_, hlo, h⟩ := inspect_bind_eq_ok.1 h
  cases hlo
  rw [posixMutation]
  split at h
  · cases h
  · cases h
  · cases h
  · cases h
  · rename_i inode hs
    rw [lstat_eq_ok] at hs
    obtain ⟨_, hf, h⟩ := inspect_bind_eq_ok.1 h
    cases hf
    split at h
    · rename_i i' hd
      split_ifs at h with hi
      · cases h
      · obtain ⟨-, rfl⟩ := inspect_eq_ok.1 h
        rw [not_or, not_not] at hi
        obtain ⟨id, hid⟩ := Option.ne_none_iff_exists'.1 hi.2
        have heq := host.fileId_inj inode i' id hid (hi.1 ▸ hid)
        rw [if_pos ⟨inode, hs, heq ▸ hd⟩]
    · cases h
    · rename_i hn
      rw [if_neg (by rintro ⟨_, -, ha⟩; simp [hn] at ha)]
      obtain ⟨made, hm, h⟩ := perform_bind_eq_ok.1 h
      obtain ⟨_, hl, h⟩ := perform_bind_eq_ok.1 h
      obtain ⟨-, rfl⟩ := inspect_eq_ok.1 h
      exact Fold.bind_eq_ok.2 ⟨made, hm, hl⟩

theorem deleteFile_posix {path : LogicalPath} {p : Option WritePrecondition}
    (h : (deleteFile host path path.parts).run fs = .ok u fs') :
    posixMutation host fs (.deleteFile path p) = .ok fs' := by
  obtain ⟨-, -, h⟩ := inspect_bind_eq_ok.1 h
  obtain ⟨-, -, h⟩ := inspect_bind_eq_ok.1 h
  exact perform_eq_ok.1 h

theorem removeDirectory_posix {path : LogicalPath}
    (h : (removeDirectory host path path.parts).run fs = .ok u fs') :
    posixMutation host fs (.removeDirectory path) = .ok fs' := by
  obtain ⟨-, -, h⟩ := inspect_bind_eq_ok.1 h
  obtain ⟨-, -, h⟩ := inspect_bind_eq_ok.1 h
  exact perform_eq_ok.1 h

theorem setMode_posix {path : LogicalPath} {mode : Nat}
    (h : (setMode host path.parts mode).run fs = .ok u fs') :
    posixMutation host fs (.setMode path mode) = .ok fs' := by
  obtain ⟨-, -, h⟩ := inspect_bind_eq_ok.1 h
  obtain ⟨_, _, hmo, h⟩ := bind_eq_ok.1 h
  cases h
  rw [posixMutation]
  rcases applyExactMode_eq_ok hmo with hc | ⟨-, hm, rfl⟩
  · rw [hc]
    rfl
  · rw [chmod_of_missing hm]
    rfl

theorem rename_posix {s t : LogicalPath}
    (hl : Literal host fs (.rename s t))
    (h : (rename host s t s.parts t.parts).run fs = .ok u fs') :
    posixMutation host fs (.rename s t) = .ok fs' := by
  obtain ⟨-, -, h⟩ := inspect_bind_eq_ok.1 h
  obtain ⟨-, -, h⟩ := inspect_bind_eq_ok.1 h
  obtain ⟨-, -, h⟩ := inspect_bind_eq_ok.1 h
  obtain ⟨-, -, h⟩ := inspect_bind_eq_ok.1 h
  obtain ⟨_, hlo, h⟩ := inspect_bind_eq_ok.1 h
  cases hlo
  rw [posixMutation]
  split at h
  · rename_i hmi
    cases h
    rw [if_pos hmi]
  · cases h
  · rename_i e hs
    rw [if_neg (by simp [hs])]
    obtain ⟨made, hm, h⟩ := inspect_bind_eq_ok.1 h
    cases made with
    | true =>
      unfold renameWasMade at hm
      split at hm
      · exact absurd (sameContents_of_equivalent hm) hl
      · cases hm
      · cases hm
    | false =>
      obtain ⟨made, hm, h⟩ := perform_bind_eq_ok.1 h
      exact Fold.bind_eq_ok.2 ⟨made, hm, perform_eq_ok.1 h⟩

/-! ### Creating a file -/

variable {re : RequestedWrite}

theorem planWrite_eq_ok {plan : WritePlan}
    (h : planWrite host fs re = .ok plan) :
    plan.path = re.1.path ∧ plan.precondition = re.1.precondition ∧
      plan.destination = re.1.path.parts ∧ plan.destination ≠ [] ∧
      ∃ e, existingRegularFileMode fs plan.destination = .ok e ∧
        plan.options = stagedOptions re.2 re.1.mode e ∧
        plan.previousMode = if plan.options.isSome then e else none := by
  obtain ⟨_, hd, h⟩ := Fold.bind_eq_ok.1 h
  obtain ⟨-, -, h⟩ := Fold.bind_eq_ok.1 h
  obtain ⟨_, -, h⟩ := Fold.bind_eq_ok.1 h
  obtain ⟨e, he, h⟩ := Fold.bind_eq_ok.1 h
  split_ifs at h with hr
  cases h
  exact ⟨rfl, rfl, (absPath_eq_ok.1 hd).2, hr, e, he, rfl, rfl⟩

/-- What a successful staging did. -/
theorem stageWrite_eq_ok {a : List Path} {s : StagedWrite}
    (h : (stageWrite host a re).run fs = .ok s fs') :
    planWrite host fs re = .ok s.toWritePlan ∧
      ∃ made file, mkdirAll host fs s.destination.dropLast = .ok made ∧
        made.createFile s.temporary ⟨re.1.bytes, newFileMode host⟩ = .ok file ∧
        s.temporaryInode = made.fresh ∧
        (applyWriteOptions host s.temporary s.options s.previousMode).run file = .ok () fs' := by
  obtain ⟨_, hp, h⟩ := inspect_bind_eq_ok.1 h
  obtain ⟨made, hm, h⟩ := perform_bind_eq_ok.1 h
  obtain ⟨_, _, h⟩ := inspect_bind_eq_ok.1 h
  obtain ⟨_, hi, h⟩ := inspect_bind_eq_ok.1 h
  obtain ⟨file, hf, h⟩ := perform_bind_eq_ok.1 h
  obtain ⟨⟨⟩, _, ho, h⟩ := bind_eq_ok.1 h
  cases h
  exact ⟨hp, made, file, hm, hf, (Except.ok.inj hi).symm, ho⟩

theorem fingerprintOf_eq_absent (h : fingerprintOf host fs path = .ok "absent") :
    fs.lstat path = .error .noEntry ∨ fs.IsDirectory path := by
  obtain ⟨-, -, h⟩ := Fold.bind_eq_ok.1 h
  split at h
  · obtain ⟨_, -, h⟩ := Fold.bind_eq_ok.1 h
    have hl := congrArg String.toList (Fold.pure_eq_ok.1 h)
    rw [String.toList_append] at hl
    exact absurd (head_eq_of_cons_eq hl) (by decide)
  · exact absurd (Fold.pure_eq_ok.1 h) (host.hash_ne_absent _)
  · rename_i mode hmo
    exact .inr ⟨mode, lstat_eq_ok.1 hmo⟩
  · rename_i hm
    exact .inl hm
  · cases h

/-- A path that is to be absent names nothing, or a directory. -/
theorem assertPrecondition_absent {path : LogicalPath}
    (h : assertPrecondition host fs path (some .absent) = .ok ()) :
    fs.lstat path.parts = .error .noEntry ∨ fs.IsDirectory path.parts := by
  obtain ⟨-, -, h⟩ := Fold.bind_eq_ok.1 h
  obtain ⟨_, ha, h⟩ := Fold.bind_eq_ok.1 h
  split_ifs at h with heq
  obtain ⟨_, habs, ha⟩ := Fold.bind_eq_ok.1 ha
  obtain ⟨f, hf, hc⟩ := Fold.bind_eq_ok.1 ha
  obtain rfl := (absPath_eq_ok.1 habs).2
  subst heq
  have hab : f = "absent" := by
    by_contra hne
    rw [if_neg hne] at hc
    cases hc
  exact fingerprintOf_eq_absent (hab ▸ hf)

theorem newFileMode_masked (mask : Nat) (h : 0o666 &&& mask = 0o666) :
    newFileMode host &&& mask = newFileMode host := by
  unfold newFileMode
  rw [Nat.and_assoc, Nat.and_comm (0o7777 - host.umask), ← Nat.and_assoc, h]

/-- The mode a new file is given. -/
theorem appliedMode_new :
    appliedMode ⟨mode.any fun mode => mode &&& 0o111 ≠ 0, mode⟩ none (newFileMode host) =
      mode.elim (newFileMode host) normalizeVfsMode := by
  cases mode with
  | none =>
    simp only [appliedMode, WriteOptions.targetMode, Option.any_none, normalizeVfsMode,
      withoutExecute, Option.elim_none]
    rw [newFileMode_masked _ (by decide), newFileMode_masked _ (by decide),
      newFileMode_masked _ (by decide)]
  | some =>
    simp only [appliedMode, WriteOptions.targetMode, normalizeVfsMode, Option.elim_some]
    rw [Nat.and_assoc]
    rfl

/-- A file that is made under another name and moved to a free one might as well have been made
there. -/
theorem createFile_of_moved {made file : FileSystem} {t : Path}
    {c s : FileData} (hfi : made.createFile t s = .ok file)
    {w : FileSystem} (hno : ∀ o, w.node o = file.node o)
    (hd : w.data = fun o => if o = made.fresh then c else made.data o)
    (hfres : w.fresh = made.fresh + 1) (hn : w.node path = none)
    (hm : Moved w fs' t path) :
    made.createFile path c = .ok fs' := by
  obtain ⟨⟨_, hfre, -⟩, hf, -, -⟩ := createFile_eq_ok.1 hfi
  have ht : w.node t = some (.file made.fresh) := by
    rw [hno, hf, if_pos rfl]
  have hl : ¬ w.IsDirectory t :=
    not_isDirectory_of_node ht (nofun)
  have hfr : ¬ made.IsDirectory t := not_isDirectory_of_none hfre
  have hk : ∀ o, o ≠ t → w.node o = made.node o := by
    intro o ho
    rw [hno, hf, if_neg ho]
  have hne : path ≠ t := by
    rintro rfl
    rw [ht] at hn
    cases hn
  have hma : made.node path = none := by rw [← hk path hne, hn]
  refine createFile_eq_ok.2 ⟨⟨hm.target_ne, hma, ?_⟩, fun o => ?_,
    hm.data.trans hd, hm.fresh.trans hfres⟩
  · obtain ⟨mode, hmo⟩ := hm.directory
    have hp : path.dropLast ≠ t := by
      intro heq
      exact hl ⟨mode, heq ▸ hmo⟩
    exact ⟨mode, by rw [← hk _ hp, hmo]⟩
  · rw [hm.node]
    by_cases heq : o = path
    · rw [heq, if_pos prefix_rfl, if_pos rfl]
      simpa [movedFrom] using ht
    · rw [if_neg heq]
      split_ifs with hto hfro
      · -- nothing lies below the moved file, and nothing lay below the free name
        have hb : t ≠ movedFrom t path o := by
          obtain ⟨_, rfl⟩ := hto
          simpa [movedFrom, eq_comm] using heq
        rw [node_below_eq_none (prefix_movedFrom _ _ _) hb hl,
          node_below_eq_none hto (Ne.symm heq) (not_isDirectory_of_none hma)]
      · by_cases hte : o = t
        · rw [hte, hfre]
        · rw [node_below_eq_none hfro (Ne.symm hte) hfr]
      · refine hk o ?_
        rintro rfl
        exact hfro prefix_rfl

theorem stageWrites_singleton {a : List Path}
    {s : List StagedWrite}
    (h : (stageWrites host a [] [re]).run fs = .ok s fs') :
    ∃ w, s = [w] ∧ (stageWrite host a re).run fs = .ok w fs' := by
  rw [stageWrites, if_neg not_mem_nil] at h
  obtain ⟨w, _, hw, h⟩ := bind_eq_ok.1 h
  cases h
  exact ⟨w, rfl, hw⟩

/-- A staged file whose destination is to be absent is moved there. -/
theorem installStaged_absent {s : StagedWrite}
    (hf : fs.node s.temporary = some (.file s.temporaryInode))
    (ha : fs.lstat s.destination = .error .noEntry ∨ fs.IsDirectory s.destination)
    (h : (installStaged host [s]).run fs = .ok u fs') :
    fs.lstat s.destination = .error .noEntry ∧ Moved fs fs' s.temporary s.destination := by
  obtain ⟨⟨⟩, _, hin, h⟩ := bind_eq_ok.1 h
  cases h
  obtain ⟨r, m, hm, ho⟩ := bind_eq_ok.1 hin
  obtain ⟨_, hlo, hm⟩ := inspect_bind_eq_ok.1 hm
  cases hlo
  have hr : fs.rename s.temporary s.destination = .ok m ∧
      r = false := by
    rcases ha with hmi | ⟨mode, hmo⟩
    · rw [hmi] at hm
      obtain ⟨last, hl, hd⟩ := perform_bind_eq_ok.1 hm
      cases hd
      exact ⟨hl, rfl⟩
    · rw [lstat_eq_ok.2 hmo] at hm
      obtain ⟨last, hl, hd⟩ := perform_bind_eq_ok.1 hm
      cases hd
      exact ⟨hl, rfl⟩
  obtain ⟨hr, rfl⟩ := hr
  cases ho
  obtain ⟨e, he, -, -, hc⟩ := rename_eq_ok.1 hr
  obtain rfl : Node.file s.temporaryInode = e :=
    Option.some.inj (hf.symm.trans he)
  rcases ha with hmi | ⟨mode, hmo⟩
  · obtain ⟨hn, -⟩ := lstat_eq_error.1 hmi
    rcases hc with ⟨heq | ⟨i, -, hi⟩, -⟩ | ⟨-, -, hm⟩
    · rw [heq, hn] at hf
      cases hf
    · rw [hn] at hi
      cases hi
    · exact ⟨hmi, hm⟩
  · -- a file does not replace a directory
    rcases hc with ⟨heq | ⟨i, -, hi⟩, -⟩ | ⟨-, hre, -⟩
    · rw [heq, hmo] at hf
      cases hf
    · rw [hmo] at hi
      cases hi
    · simp only [replaceable, hmo] at hre
      cases hre

theorem mkdirAll_kept (h : mkdirAll host fs path = .ok fs') {o : Path}
    {e : Node} (he : fs.node o = some e) : fs'.node o = some e := by
  unfold mkdirAll at h
  split at h
  · cases h
    exact he
  · obtain ⟨-, hn, -⟩ := createDirAll_eq_ok.1 h
    rw [hn, if_neg fun hne => by simp [he] at hne, he]

theorem existingRegularFileMode_of_none
    (hn : fs.node path = none) (h : existingRegularFileMode fs path = .ok mode) :
    mode = none := by
  unfold existingRegularFileMode at h
  split at h
  · rename_i hf
    rw [lstat_eq_ok, hn] at hf
    cases hf
  · cases h
    rfl
  · cases h
    rfl
  · cases h

theorem createFile_posix {path : LogicalPath}
    (h : (createFile host path mode).run fs = .ok u fs') :
    posixMutation host fs (.createFile path mode) = .ok fs' := by
  obtain ⟨_, _, h, hl⟩ := bind_eq_ok.1 h
  cases hl
  obtain ⟨_, _, hst, h⟩ := bind_eq_ok.1 h
  obtain ⟨s, rfl, hsta⟩ := stageWrites_singleton hst
  obtain ⟨hpl, made, file, hma, hfile, hin, ho⟩ := stageWrite_eq_ok hsta
  obtain ⟨hpa, hpr, hd, -, _, he, hs, hp⟩ :=
    planWrite_eq_ok hpl
  rw [hd] at hma he
  obtain ⟨-, hfi, hf, hfil⟩ := createFile_eq_ok.1 hfile
  have ht : file.node s.temporary = some (.file made.fresh) := by
    rw [hfi, if_pos rfl]
  -- the staged file has its mode
  rw [hs] at ho hp
  have hw := (applyWriteOptions_some host ht).symm.trans ho
  injection hw with _ hw
  subst hw
  -- its destination is free
  obtain ⟨_, hc, h⟩ := inspect_bind_eq_ok.1 h
  cases hc
  split at h
  · obtain ⟨_, _, -, h⟩ := bind_eq_ok.1 h
    cases h
  rename_i hc
  obtain ⟨⟨⟩, hh, -⟩ := Fold.bind_eq_ok.1 hc
  rw [hpa, hpr] at hh
  have ha := assertPrecondition_absent hh
  obtain ⟨⟨⟩, _, hi, h⟩ := bind_eq_ok.1 h
  obtain ⟨-, -, h⟩ := inspect_bind_eq_ok.1 h
  cases h
  rw [← hd] at ha
  obtain ⟨hm, hmo⟩ := installStaged_absent (hin ▸ ht) ha hi
  rw [hd] at hm hmo
  obtain ⟨hn, -⟩ := lstat_eq_error.1 hm
  have hfr : fs.node path.parts = none := by
    cases hno : fs.node path.parts with
    | none => rfl
    | some =>
      have hk := mkdirAll_kept hma hno
      change file.node path.parts = none at hn
      rw [hfi] at hn
      split_ifs at hn
      rw [hk] at hn
      cases hn
  obtain rfl := existingRegularFileMode_of_none hfr he
  have hco : (⟨(file.data made.fresh).bytes,
      appliedMode ⟨mode.any fun mode => mode &&& 0o111 ≠ 0, mode⟩ none
        (file.data made.fresh).mode⟩ : FileData) =
      ⟨[], mode.elim (newFileMode host) normalizeVfsMode⟩ := by
    rw [hf]
    simp only [if_true, appliedMode_new]
  rw [hp, ite_self, hco] at hmo
  rw [posixMutation]
  refine Fold.bind_eq_ok.2 ⟨made, hma, createFile_of_moved hfile ?_ ?_ ?_ ?_ hmo⟩
  · exact fun _ => rfl
  · funext other
    by_cases hot : other = made.fresh
    · simp [setData, hot]
    · simp [setData, hot, hf]
  · exact hfil
  · exact hn

/-! ## Batches -/

variable {mu : NamespaceMutation}

/-- **A mutation that is applied literally does what it means.** -/
theorem applyMutation_posix
    (hl : Literal host fs mu)
    (h : (applyMutation host mu).run fs = .ok u fs') :
    posixMutation host fs mu = .ok fs' := by
  cases mu with
  | createFile => exact createFile_posix h
  | createDirectory =>
    obtain ⟨-, h⟩ := absPath_bind_eq_ok h
    exact createDirectory_posix h
  | createSymlink =>
    obtain ⟨-, h⟩ := absPath_bind_eq_ok h
    exact createSymlink_posix hl h
  | createHardLink =>
    obtain ⟨-, h⟩ := absPath_bind_eq_ok h
    obtain ⟨-, h⟩ := absPath_bind_eq_ok h
    exact createHardLink_posix h
  | deleteFile =>
    obtain ⟨-, h⟩ := absPath_bind_eq_ok h
    exact deleteFile_posix h
  | removeDirectory =>
    obtain ⟨-, h⟩ := absPath_bind_eq_ok h
    exact removeDirectory_posix h
  | setMode =>
    obtain ⟨-, h⟩ := absPath_bind_eq_ok h
    exact setMode_posix h
  | rename =>
    obtain ⟨-, h⟩ := absPath_bind_eq_ok h
    obtain ⟨-, h⟩ := absPath_bind_eq_ok h
    exact rename_posix hl h

theorem LiteralRun.head {rest : List NamespaceMutation}
    (h : LiteralRun host fs (mu :: rest)) : Literal host fs mu :=
  h [] mu rest rfl fs rfl

theorem LiteralRun.tail {rest : List NamespaceMutation}
    (h : LiteralRun host fs (mu :: rest)) (hm : posixMutation host fs mu = .ok fs') :
    LiteralRun host fs' rest := by
  rintro e next l rfl mid hmi
  refine h (mu :: e) next l rfl mid ?_
  exact Fold.bind_eq_ok.2 ⟨fs', hm, hmi⟩

theorem applyMutations_posix {m : List NamespaceMutation} {t t' : List Path}
    (hl : LiteralRun host fs m)
    (h : (applyMutations host t m).run fs = .ok t' fs') :
    posixRun host fs m = .ok fs' := by
  induction m generalizing fs t with
  | nil =>
    cases h
    rfl
  | cons _ _ ih =>
    obtain ⟨⟨⟩, mid, hm, h⟩ := bind_eq_ok.1 h
    obtain ⟨_, -, h⟩ := inspect_bind_eq_ok.1 h
    have hp := applyMutation_posix hl.head hm
    exact Fold.bind_eq_ok.2 ⟨mid, hp, ih (hl.tail hp) h⟩

end

/-- A tree with two files of the same bytes. -/
def equalFiles : FileSystem :=
  (bare 0o755).after [
    fun fs => fs.createFile ["a"] ⟨[1], 0o644⟩,
    fun fs => fs.createFile ["b"] ⟨[1], 0o644⟩]

/-- A file is moved, and then given another mode. -/
def moveAndSetMode : List NamespaceMutation := [.rename ["a"] ["c"], .setMode ["c"] 0o600]

theorem moveAndSetMode_literal : LiteralRun Host.reference equalFiles moveAndSetMode := by
  intro e mu l hs mid hm
  rcases e with _ | ⟨_, _ | ⟨_, e⟩⟩
  · obtain ⟨rfl, -⟩ := List.cons_eq_cons.1 hs.symm
    cases hm
    intro hsa
    have he := hsa []
    have hso : equalFiles.node (LogicalPath.parts ["a"] ++ []) = some (.file 0) := by
      decide +kernel
    have ht : equalFiles.node (LogicalPath.parts ["c"] ++ []) = none := by decide +kernel
    rw [hso, ht] at he
    exact he
  · obtain ⟨-, hr⟩ := List.cons_eq_cons.1 hs.symm
    obtain ⟨rfl, -⟩ := List.cons_eq_cons.1 hr
    trivial
  · simp [moveAndSetMode] at hs

end Chevalier.Vfs
