import Chevalier.LocalView.Publish.Gateway

/-!
# Published events as local operations

On paths without a second link a published event is a `LocalOp`: it reads its own paths and their
ancestors, and writes at or below the paths whose keys it holds exclusively. So two events whose
dependency keys do not conflict have independent footprints and may be exchanged
(`swaps_of_not_conflict`), and the rewrites the publisher makes (a generation superseding an
earlier one, an append folded onto a generation, a creation and its mode folded into the first
write) each do the work of the two operations they replace.

`opStep_of_commit` and `publish_of_opStep` connect the operations with what the gateway does.
-/

namespace Chevalier.LocalView

open Chevalier MountMutation RemoteNode LocalOp

/-! ## Footprints of paths -/

/-- Everything at or below one of the paths. -/
def subtrees (paths : List MountPath) : Set MountPath := {k | ∃ p ∈ paths, p <+: k}

def lineage (paths : List MountPath) : Set MountPath := {k | ∃ p ∈ paths, k <+: p}

theorem subtrees_disjoint_lineage {c a : List MountPath}
    (h : ∀ p ∈ c, ∀ q ∈ a, ¬ p <+: q) :
    ∀ k ∈ subtrees c, k ∉ lineage a := by
  rintro k ⟨p, hp, hpk⟩ ⟨q, hq, hkq⟩
  exact h p hp q hq (hpk.trans hkq)

theorem subtrees_disjoint_subtrees {changed₁ changed₂ : List MountPath}
    (h₁ : ∀ p ∈ changed₁, ∀ q ∈ changed₂, ¬ p <+: q)
    (h₂ : ∀ p ∈ changed₂, ∀ q ∈ changed₁, ¬ p <+: q) :
    ∀ k ∈ subtrees changed₁, k ∉ subtrees changed₂ := by
  rintro k ⟨p, hp, hpk⟩ ⟨q, hq, hqk⟩
  rcases List.prefix_or_prefix_of_prefix hpk hqk with h | h
  · exact h₁ p hp q hq h
  · exact h₂ q hq p hp h

namespace RemoteTree

theorem vacant_iff {tree : RemoteTree} {path : MountPath} :
    Vacant tree path ↔ ∀ k, path <+: k → tree.node k = none := by
  constructor
  · intro h k hk
    by_contra hne
    exact h k ((tree.mem_names k).2 (Option.isSome_iff_ne_none.2 hne)) hk
  · intro h k hk hp
    have := (tree.mem_names k).1 hk
    simp [h k hp] at this

theorem vacantBelow_iff {tree : RemoteTree} {path : MountPath} :
    VacantBelow tree path ↔ ∀ k, path <+: k → k ≠ path → tree.node k = none := by
  constructor
  · intro h k hk hne
    by_contra hn
    exact hne (h k ((tree.mem_names k).2 (Option.isSome_iff_ne_none.2 hn)) hk)
  · intro h k hk hp
    by_contra hne
    have := (tree.mem_names k).1 hk
    simp [h k hp hne] at this

variable {s t : RemoteTree} {path : MountPath}

theorem Vacant.congr (h : ∀ k, path <+: k → s.node k = t.node k) (hs : Vacant s path) :
    Vacant t path := by
  rw [vacant_iff] at hs ⊢
  intro k hk
  rw [← h k hk, hs k hk]

theorem VacantBelow.congr (h : ∀ k, path <+: k → s.node k = t.node k) (hs : VacantBelow s path) :
    VacantBelow t path := by
  rw [vacantBelow_iff] at hs ⊢
  intro k hk hne
  rw [← h k hk, hs k hk hne]

theorem Creatable.congr (h : ∀ k, path <+: k → s.node k = t.node k)
    (hp : s.node path.dropLast = t.node path.dropLast) (hs : Creatable s path) :
    Creatable t path :=
  ⟨hs.1.congr h, by have := hs.2; rwa [IsDirectory, hp] at this⟩

end RemoteTree

open RemoteTree

theorem mem_lineage_self {pa : List MountPath} {p : MountPath} (h : p ∈ pa) :
    p ∈ lineage pa := ⟨p, h, List.prefix_rfl⟩

theorem mem_lineage_parent {pa : List MountPath} {p : MountPath} (h : p ∈ pa) :
    p.dropLast ∈ lineage pa := ⟨p, h, List.dropLast_prefix p⟩

/-! ## The operations -/

def createOp (path : MountPath) (entry : RemoteNode) : LocalOp MountPath RemoteNode where
  rewrite := Rewrite.put path entry
  pre tree := Creatable tree path
  reads := lineage [path] ∪ subtrees [path]
  writes := subtrees [path]
  owns := {path}
  writes_reads := Set.subset_union_right
  owns_writes := by rintro k rfl; exact ⟨k, by simp, List.prefix_rfl⟩
  src_frame k hk := by
    have : k ≠ path := by rintro rfl; exact hk ⟨k, by simp, List.prefix_rfl⟩
    simp [Rewrite.put, this]
  edit_frame _ _ _ := rfl
  src_reads k hk j h := by
    simp only [Rewrite.put] at h
    split_ifs at h
    cases h
    exact .inr hk
  pre_local s t h hs :=
    hs.congr (fun k hk => h k (.inr ⟨path, by simp, hk⟩))
      (h _ (.inl (mem_lineage_parent (by simp))))
  kept s hs k hk hsome := by
    obtain ⟨p, hp, hpk⟩ := hk
    obtain rfl : p = path := by simpa using hp
    simp [vacant_iff.1 hs.1 k hpk] at hsome

def editOp (path : MountPath) (edit : RemoteNode → RemoteNode) (pre : RemoteNode → Prop) :
    LocalOp MountPath RemoteNode where
  rewrite := Rewrite.modify {path} edit
  pre tree := ∃ entry, tree.node path = some entry ∧ pre entry
  reads := lineage [path] ∪ subtrees [path]
  writes := subtrees [path]
  owns := {path}
  writes_reads := Set.subset_union_right
  owns_writes := by rintro k rfl; exact ⟨k, by simp, List.prefix_rfl⟩
  src_frame _ _ := rfl
  edit_frame k hk v := by
    have : k ≠ path := by rintro rfl; exact hk ⟨k, by simp, List.prefix_rfl⟩
    simp [Rewrite.modify, this]
  src_reads k hk j h := by cases h; exact .inr hk
  pre_local s t h := by
    rintro ⟨entry, hentry, hpre⟩
    exact ⟨entry, by rw [← h path (.inl (mem_lineage_self (by simp))), hentry], hpre⟩
  kept _ _ k _ _ := .inr ⟨k, rfl⟩

/-- Remove an entry, a directory only when nothing is below it. -/
def removeOp (path : MountPath) (directory : Bool) : LocalOp MountPath RemoteNode where
  rewrite := Rewrite.erase path
  pre tree := ∃ entry, tree.node path = some entry ∧ entry.isDirectory = directory ∧
    (directory = true → VacantBelow tree path)
  reads := lineage [path] ∪ subtrees [path]
  writes := subtrees [path]
  owns := {path}
  writes_reads := Set.subset_union_right
  owns_writes := by rintro k rfl; exact ⟨k, by simp, List.prefix_rfl⟩
  src_frame k hk := by
    have : k ≠ path := by rintro rfl; exact hk ⟨k, by simp, List.prefix_rfl⟩
    simp [Rewrite.erase, this]
  edit_frame _ _ _ := rfl
  src_reads k hk j h := by
    simp only [Rewrite.erase] at h
    split_ifs at h
    cases h
    exact .inr hk
  pre_local s t h := by
    rintro ⟨entry, hentry, hkind, hvacant⟩
    refine ⟨entry, ?_, hkind, fun hd => (hvacant hd).congr fun k hk => ?_⟩
    · rw [← h path (.inl (mem_lineage_self (by simp))), hentry]
    · exact h k (.inr ⟨path, by simp, hk⟩)
  kept _ _ k _ _ := by
    by_cases hk : k = path
    · exact .inl hk
    · exact .inr ⟨k, by simp [Rewrite.erase, hk]⟩

/-- Give a file a second name. -/
def linkOp (existingPath newPath : MountPath) : LocalOp MountPath RemoteNode where
  rewrite := Rewrite.link existingPath newPath
  pre tree := (∃ entry, tree.node existingPath = some entry ∧ entry.isFile = true) ∧
    Creatable tree newPath
  reads := lineage [existingPath, newPath] ∪ subtrees [newPath]
  writes := subtrees [newPath]
  owns := {newPath}
  writes_reads := Set.subset_union_right
  owns_writes := by rintro k rfl; exact ⟨k, by simp, List.prefix_rfl⟩
  src_frame k hk := by
    have : k ≠ newPath := by rintro rfl; exact hk ⟨k, by simp, List.prefix_rfl⟩
    simp [Rewrite.link, this]
  edit_frame _ _ _ := rfl
  src_reads k hk j h := by
    simp only [Rewrite.link] at h
    split_ifs at h
    · cases h; exact .inl (mem_lineage_self (by simp))
    · cases h; exact .inr hk
  pre_local s t h := by
    rintro ⟨⟨entry, hentry, hfile⟩, hcreatable⟩
    refine ⟨⟨entry, ?_, hfile⟩, hcreatable.congr (fun k hk => h k (.inr ⟨newPath, by simp, hk⟩))
      (h _ (.inl (mem_lineage_parent (by simp))))⟩
    rw [← h existingPath (.inl (mem_lineage_self (by simp))), hentry]
  kept s hs k hk hsome := by
    obtain ⟨p, hp, hpk⟩ := hk
    obtain rfl : p = newPath := by simpa using hp
    simp [vacant_iff.1 hs.2.1 k hpk] at hsome

def moveOp (oldPath newPath : MountPath) : LocalOp MountPath RemoteNode where
  rewrite := PublishEnv.moveSubtree oldPath newPath
  pre tree := ∃ entry, tree.node oldPath = some entry ∧
    (oldPath ≠ newPath → ¬ oldPath <+: newPath ∧ IsDirectory tree newPath.dropLast ∧
      VacantBelow tree newPath ∧ PublishEnv.replaceable entry (tree.node newPath) = true)
  reads := lineage [oldPath, newPath] ∪ subtrees [oldPath, newPath]
  writes := subtrees [oldPath, newPath]
  owns := {oldPath, newPath}
  writes_reads := Set.subset_union_right
  owns_writes := by rintro k (rfl | rfl) <;> exact ⟨k, by simp, List.prefix_rfl⟩
  src_frame k hk := by
    have hold : ¬ oldPath <+: k := fun h => hk ⟨oldPath, by simp, h⟩
    have hnew : ¬ newPath <+: k := fun h => hk ⟨newPath, by simp, h⟩
    simp [PublishEnv.moveSubtree, Rewrite.move, hold, hnew]
  edit_frame _ _ _ := rfl
  src_reads k hk j h := by
    simp only [PublishEnv.moveSubtree, Rewrite.move] at h
    split_ifs at h
    · cases h; exact .inr ⟨oldPath, by simp, List.prefix_append _ _⟩
    · cases h; exact .inr hk
  pre_local s t h := by
    rintro ⟨entry, hentry, hmove⟩
    refine ⟨entry, ?_, fun hne => ?_⟩
    · rw [← h oldPath (.inl (mem_lineage_self (by simp))), hentry]
    obtain ⟨hinto, hparent, hvacant, hreplace⟩ := hmove hne
    refine ⟨hinto, ?_, hvacant.congr fun k hk => h k (.inr ⟨newPath, by simp, hk⟩), ?_⟩
    · rwa [IsDirectory, h _ (.inl (mem_lineage_parent (by simp)))] at hparent
    · rwa [← h newPath (.inl (mem_lineage_self (by simp)))]
  kept s := by
    rintro ⟨entry, -, hmove⟩ k ⟨p, hp, hpk⟩ hsome
    by_cases hold : oldPath <+: k
    · -- the entry lives on at the same place below the new path
      obtain ⟨rest, rfl⟩ := hold
      exact .inr ⟨newPath ++ rest, by simp [PublishEnv.moveSubtree, Rewrite.move]⟩
    · have hnew : newPath <+: k := by
        rcases List.mem_pair.1 hp with rfl | rfl
        · exact absurd hpk hold
        · exact hpk
      have hne : oldPath ≠ newPath := by rintro rfl; exact hold hnew
      obtain ⟨-, -, hvacant, -⟩ := hmove hne
      exact .inl (.inr (hvacant k ((s.mem_names k).2 hsome) hnew))

/-- Change nothing. -/
def idleOp : LocalOp MountPath RemoteNode where
  rewrite := Rewrite.modify ∅ id
  pre _ := True
  reads := ∅
  writes := ∅
  owns := ∅
  writes_reads := Set.empty_subset _
  owns_writes := Set.empty_subset _
  src_frame _ _ := rfl
  edit_frame _ _ _ := by simp [Rewrite.modify]
  src_reads _ h := h.elim
  pre_local _ _ _ _ := trivial
  kept _ _ _ h := h.elim

namespace PublishEnv

variable (env : PublishEnv)

/-- The operation of a published event on paths without a second link. -/
def opOf (event : PublishEvent) : LocalOp MountPath RemoteNode :=
  match event.mutation with
  | .createDirectory path mode => createOp path (.directory (permissionBits mode))
  | .createFile path mode => createOp path (.file (permissionBits mode) [])
  | .createSymlink path target => createOp path (.symlink target)
  | .createHardLink existingPath newPath =>
    match event.event.preImage.stateOf existingPath with
    | some (.present .symlink _ _ _ _ (some target)) => createOp newPath (.symlink target)
    | _ => linkOp existingPath newPath
  | .replaceFile path mode _ baseContentHash =>
    if baseContentHash = some absentPrecondition then
      createOp path (.file (permissionBits mode) (env.chainBytes event))
    else
      editOp path (setBytes (env.chainBytes event)) fun entry =>
        ∃ mode old, entry = .file mode old ∧ ∀ base ∈ baseContentHash, base = env.fingerprint old
  | .appendFile path _ baseSize baseContentHash _ _ =>
    editOp path (appendBytes (env.chainBytes event)) fun entry =>
      ∃ mode old, entry = .file mode old ∧ old.length = baseSize ∧
        env.fingerprint old = baseContentHash
  | .rename oldPath newPath _ => moveOp oldPath newPath
  | .removeFile path _ => removeOp path false
  | .removeDirectory path => removeOp path true
  | .setMode path mode =>
    editOp path (setMode (permissionBits mode)) fun entry =>
      ∀ target, entry ≠ .symlink target
  | .setTimes .. => idleOp
  | .setOwner .. => idleOp

/-- Run the operation of a published event. -/
noncomputable def opStep (event : PublishEvent) (tree : RemoteTree) : Option RemoteTree :=
  (env.opOf event).step tree

/-! ## Independence follows the dependency keys -/

theorem opOf_writes (ev : PublishEvent) :
    (env.opOf ev).writes ⊆ subtrees ev.mutation.changedPaths := by
  intro k hk
  unfold opOf at hk
  split at hk <;> rename_i hm <;> rw [hm]
  case h_4 => split at hk <;> exact hk
  case h_5 => split_ifs at hk <;> exact hk
  all_goals first | exact hk | exact hk.elim

theorem opOf_reads (ev : PublishEvent) :
    (env.opOf ev).reads ⊆
      lineage ev.mutation.affectedPaths ∪ subtrees ev.mutation.changedPaths := by
  intro k hk
  unfold opOf at hk
  split at hk <;> rename_i hm <;> rw [hm]
  case h_4 =>
    split at hk
    · rcases hk with ⟨p, hp, hkp⟩ | hk
      · exact .inl ⟨p, by simp at hp; simp [affectedPaths, hp], hkp⟩
      · exact .inr hk
    · exact hk
  case h_5 => split_ifs at hk <;> exact hk
  all_goals first | exact hk | exact hk.elim

theorem opOf_localOnly (ev : PublishEvent) (h : ev.mutation.isLocalOnly = true) :
    env.opOf ev = idleOp := by
  unfold opOf
  split <;> rename_i hm <;> simp [hm, isLocalOnly] at h ⊢

/-- The publisher's test: one of the two is local-only, or their keys do not conflict. -/
def Orderless (left right : PublishEvent) : Prop :=
  left.mutation.isLocalOnly = true ∨ right.mutation.isLocalOnly = true ∨
    dependencySetsConflict left.dependencyKeys right.dependencyKeys = false

variable {left right : PublishEvent}

theorem Orderless.symm (h : Orderless left right) :
    Orderless right left := by
  rcases h with h | h | h
  · exact .inr (.inl h)
  · exact .inl h
  · refine .inr (.inr ?_)
    rw [PublishEvent.dependencyKeys, PublishEvent.dependencyKeys, conflict_symm]
    exact h

theorem independent_of_orderless (h : Orderless left right) :
    (env.opOf left).Independent (env.opOf right) := by
  rcases h with h | h | h
  · rw [env.opOf_localOnly _ h]
    exact ⟨fun _ hk => hk.elim, fun _ _ hk => hk.elim⟩
  · rw [env.opOf_localOnly _ h]
    exact ⟨fun _ _ hk => hk.elim, fun _ hk => hk.elim⟩
  obtain ⟨h₁, h₂⟩ := (not_conflict_iff _ _).1 h
  have hs := changedPaths_sub_affectedPaths
  constructor
  · intro k hk hr
    have hw := env.opOf_writes left hk
    rcases env.opOf_reads right hr with hr | hr
    · exact subtrees_disjoint_lineage h₁ k hw hr
    · exact subtrees_disjoint_subtrees (fun p hp q hq => h₁ p hp q (hs _ q hq))
        (fun p hp q hq => h₂ p hp q (hs _ q hq)) k hw hr
  · intro k hk hr
    have hw := env.opOf_writes right hk
    rcases env.opOf_reads left hr with hr | hr
    · exact subtrees_disjoint_lineage h₂ k hw hr
    · exact subtrees_disjoint_subtrees (fun p hp q hq => h₂ p hp q (hs _ q hq))
        (fun p hp q hq => h₁ p hp q (hs _ q hq)) k hw hr

/-- **Events without an ordering boundary between them may be exchanged.** -/
theorem swaps_of_orderless (h : Orderless left right) :
    Schedule.Swaps env.opStep left right :=
  (env.independent_of_orderless h).swaps

/-! ## One operation for two -/

section Fusion

variable {env} {event ev first se : PublishEvent} {path : MountPath} {mode : Nat}

theorem opOf_createFile (h : ev.mutation = .createFile path mode) :
    env.opOf ev = createOp path (.file (permissionBits mode) []) := by
  simp [opOf, h]

theorem opOf_setMode (h : ev.mutation = .setMode path mode) :
    env.opOf ev = editOp path (setMode (permissionBits mode)) fun e =>
      ∀ ta, e ≠ .symlink ta := by
  simp [opOf, h]

variable {fileId fi : Option String}

theorem opOf_replaceFile_absent
    (h : ev.mutation = .replaceFile path mode fi (some absentPrecondition)) :
    env.opOf ev = createOp path (.file (permissionBits mode) (env.chainBytes ev)) := by
  simp [opOf, h]

theorem opOf_replaceFile
    (h : ev.mutation = .replaceFile path mode fi none) :
    env.opOf ev = editOp path (setBytes (env.chainBytes ev)) fun e =>
      ∃ mode old, e = .file mode old := by
  simp [opOf, h]

theorem opOf_appendFile {bs size : Nat} {bh hash : String}
    (h : ev.mutation = .appendFile path mode bs bh size hash) :
    env.opOf ev = editOp path (appendBytes (env.chainBytes ev)) fun e =>
      ∃ mode old, e = .file mode old ∧ old.length = bs ∧ env.fingerprint old = bh := by
  simp [opOf, h]

/-- A creation takes on an edit made right after it, a mode or the first whole-file generation. -/
theorem create_edit {e : RemoteNode} {edit : RemoteNode → RemoteNode} {pre : RemoteNode → Prop}
    {both : PublishEvent} (hf : env.opOf first = createOp path e)
    (hs : env.opOf se = editOp path edit pre)
    (hb : env.opOf both = createOp path (edit e)) :
    Schedule.Covers env.opStep [first, se] [both] := by
  refine Schedule.Covers.of_pair fun s u t hu ht => ?_
  rw [opStep, hf] at hu
  rw [opStep, hs] at ht
  rw [opStep, hb]
  obtain ⟨⟨hp, ho⟩, rfl⟩ := step_eq_some.1 hu
  obtain ⟨-, rfl⟩ := step_eq_some.1 ht
  exact step_eq_some.2 ⟨⟨hp, ho⟩, (Rewrite.modify_put path e edit s).symm⟩

/-- An edit and the edit right after it are one edit. -/
theorem edit_edit {f g : RemoteNode → RemoteNode} {pre₁ pre₂ pre : RemoteNode → Prop}
    {both : PublishEvent} (hf : env.opOf first = editOp path f pre₁)
    (hs : env.opOf se = editOp path g pre₂)
    (hb : env.opOf both = editOp path (g ∘ f) pre) (hp : ∀ e, pre₁ e → pre e) :
    Schedule.Covers env.opStep [first, se] [both] := by
  refine Schedule.Covers.of_pair fun s u t hu ht => ?_
  rw [opStep, hf] at hu
  rw [opStep, hs] at ht
  rw [opStep, hb]
  obtain ⟨⟨⟨e, he, h₁⟩, ho⟩, rfl⟩ := step_eq_some.1 hu
  obtain ⟨-, rfl⟩ := step_eq_some.1 ht
  exact step_eq_some.2 ⟨⟨⟨e, he, hp e h₁⟩, ho⟩, (Rewrite.modify_modify path f g s).symm⟩

theorem setBytes_comp_setBytes (b c : List UInt8) :
    setBytes c ∘ setBytes b = setBytes c := by
  funext entry; cases entry <;> rfl

theorem setBytes_comp_appendBytes (b c : List UInt8) :
    setBytes c ∘ appendBytes b = setBytes c := by
  funext entry; cases entry <;> rfl

theorem appendBytes_comp_setBytes (b c : List UInt8) :
    appendBytes c ∘ setBytes b = setBytes (b ++ c) := by
  funext entry; cases entry <;> rfl

theorem appendBytes_comp_appendBytes (b c : List UInt8) :
    appendBytes c ∘ appendBytes b = appendBytes (b ++ c) := by
  funext entry
  cases entry <;> simp [appendBytes]

/-- A content generation of a mount's own history, on its path. -/
def IsGeneration (event : PublishEvent) (path : MountPath) : Prop :=
  (∃ mode fileId, event.mutation = .replaceFile path mode fileId none) ∨
    ∃ mode baseSize baseHash size hash,
      event.mutation = .appendFile path mode baseSize baseHash size hash

/-- A whole-file generation supersedes the generation before it. -/
theorem generation_replace (hf : IsGeneration first path)
    (hs : se.mutation = .replaceFile path mode fi none) :
    Schedule.Covers env.opStep [first, se] [se] := by
  have hr : env.opOf se = _ := opOf_replaceFile hs
  rcases hf with ⟨_, _, hf⟩ | ⟨_, _, _, _, _, hf⟩
  · exact edit_edit (opOf_replaceFile hf) hr (by rw [hr, setBytes_comp_setBytes]) fun e h => h
  · refine edit_edit (opOf_appendFile hf) hr (by rw [hr, setBytes_comp_appendBytes]) ?_
    exact fun e ⟨mode, old, h, _⟩ => ⟨mode, old, h⟩

/-- An append folds onto the generation before it. -/
theorem generation_append (f : PublishEvent) {bs size : Nat}
    {bh hash : String} (hf : IsGeneration first path)
    (hs : se.mutation = .appendFile path mode bs bh size hash)
    (hm : f.mutation = first.mutation)
    (hb : env.chainBytes f = env.chainBytes first ++ env.chainBytes se) :
    Schedule.Covers env.opStep [first, se] [f] := by
  rcases hf with ⟨_, _, hf⟩ | ⟨_, _, _, _, _, hf⟩
  · refine edit_edit (opOf_replaceFile hf) (opOf_appendFile hs) ?_ fun e h => h
    rw [opOf_replaceFile (hm.trans hf), hb, appendBytes_comp_setBytes]
  · refine edit_edit (opOf_appendFile hf) (opOf_appendFile hs) ?_ fun e h => h
    rw [opOf_appendFile (hm.trans hf), hb, appendBytes_comp_appendBytes]

end Fusion

/-! ## The operations are what the gateway does -/

section Bridge

variable {env} {tree r : RemoteTree}

theorem idleOp_apply (tree : RemoteTree) : idleOp.rewrite.apply tree = tree :=
  Rewrite.modify_empty id tree

variable {path : MountPath}

theorem createOp_step_iff {e : RemoteNode} (hu : tree.Unaliased path) :
    (createOp path e).step tree = some r ↔
      (if Creatable tree path then some ((Rewrite.put path e).apply tree) else none) = some r := by
  rw [step_eq_some]
  simp [Enabled, createOp, hu]

theorem editOp_step_iff {edit : RemoteNode → RemoteNode}
    {pre : RemoteNode → Prop} (hu : tree.Unaliased path) :
    (editOp path edit pre).step tree = some r ↔
      (∃ e, tree.node path = some e ∧ pre e) ∧
        (Rewrite.modify (tree.group path) edit).apply tree = r := by
  rw [step_eq_some, LinkedStore.group_of_unaliased hu]
  simp [Enabled, editOp, hu]

theorem linkOp_step_iff {ep np : MountPath} (hu : tree.Unaliased np) :
    (linkOp ep np).step tree = some r ↔
      env.applyNamespace (.createHardLink ep np) tree = some r := by
  rw [step_eq_some]
  simp only [Enabled, linkOp, Set.mem_singleton_iff, forall_eq, hu, and_true, applyNamespace]
  cases h : tree.node ep <;> simp

theorem deleteFile_iff (hu : tree.Unaliased path) :
    (removeOp path false).step tree = some r ↔
      env.applyNamespace (.deleteFile path none) tree = some r := by
  rw [step_eq_some]
  simp only [Enabled, removeOp, Set.mem_singleton_iff, forall_eq, hu, and_true,
    applyNamespace, fileIdHolds]
  cases h : tree.node path <;> simp

theorem removeDirectory_iff (hu : tree.Unaliased path) :
    (removeOp path true).step tree = some r ↔
      env.applyNamespace (.removeDirectory path) tree = some r := by
  rw [step_eq_some]
  simp only [Enabled, removeOp, Set.mem_singleton_iff, forall_eq, hu, and_true, applyNamespace]
  cases h : tree.node path <;> simp

theorem moveSubtree_self (path : MountPath) (tree : RemoteTree) :
    (moveSubtree path path).apply tree = tree := by
  have hs : (moveSubtree path path).src = some := by
    funext x
    by_cases hx : path <+: x
    · obtain ⟨_, rfl⟩ := hx
      simp [moveSubtree, Rewrite.move]
    · simp [moveSubtree, Rewrite.move, hx]
  refine LinkedStore.ext_node (fun k => ?_) (fun x y => ?_)
  · have he : (moveSubtree path path).edit k = id := rfl
    simp [Rewrite.apply_node, Rewrite.nodeAt, hs, he]
  · rw [Bool.eq_iff_iff, Rewrite.apply_linked, Rewrite.linkedAt_eq_true, hs]
    by_cases hxy : x = y <;> simp [hxy, tree.linked_irrefl]

theorem rename_iff {op np : MountPath} (hold : tree.Unaliased op)
    (hn : tree.Unaliased np) :
    (moveOp op np).step tree = some r ↔ env.applyNamespace (.rename op np) tree = some r := by
  have hl : tree.linked op np = false := by
    by_cases h : np = op
    · rw [h, tree.linked_irrefl]
    · exact hold np h
  rw [step_eq_some]
  simp only [Enabled, moveOp, Set.mem_insert_iff, Set.mem_singleton_iff, forall_eq_or_imp,
    forall_eq, hold, hn, and_true, applyNamespace, hl]
  cases h : tree.node op with
  | none => simp
  | some =>
    by_cases hne : op = np
    · simp [hne, moveSubtree_self]
    · simp [hne]

variable {mode : Nat}

theorem setMode_iff (hu : tree.Unaliased path) :
    (editOp path (setMode mode) fun e => ∀ ta, e ≠ .symlink ta).step
        tree = some r ↔ env.applyNamespace (.setMode path mode) tree = some r := by
  rw [editOp_step_iff hu]
  simp only [applyNamespace]
  rcases h : tree.node path with - | (- | - | -) <;> simp

variable {byt : List UInt8}

theorem creatingWrite_iff
    (hu : tree.Unaliased path) :
    (createOp path (.file mode byt)).step tree = some r ↔
      env.applyContent (.replace path mode byt (some absentPrecondition) none) tree = some r := by
  rw [createOp_step_iff hu]
  simp only [applyContent, fileIdHolds]
  cases h : tree.node path with
  | none => simp
  | some e =>
    have hcr : ¬ Creatable tree path := fun hc => by
      simp [vacant_iff.1 hc.1 path List.prefix_rfl] at h
    cases e <;> simp [hcr]

theorem replace_iff {base : Option String}
    (hu : tree.Unaliased path) (hb : base ≠ some absentPrecondition)
    (hf : base = none → (tree.node path).any isFile = true) :
    (editOp path (setBytes byt) fun e =>
        ∃ mode old, e = .file mode old ∧ ∀ b ∈ base, b = env.fingerprint old).step
        tree = some r ↔
      env.applyContent (.replace path mode byt base none) tree = some r := by
  rw [editOp_step_iff hu]
  simp only [applyContent, fileIdHolds]
  rcases h : tree.node path with - | (- | ⟨_, old⟩ | -)
  · cases base with
    | none => simp [h] at hf
    | some => simp_all
  · simp
  · cases base <;> simp_all
  · simp

theorem append_iff {bs : Nat}
    {bh : String} (hu : tree.Unaliased path) :
    (editOp path (appendBytes byt) fun e =>
        ∃ mode old, e = .file mode old ∧ old.length = bs ∧
          env.fingerprint old = bh).step tree = some r ↔
      env.applyContent (.append path mode byt bs bh) tree = some r := by
  rw [editOp_step_iff hu]
  simp only [applyContent]
  rcases h : tree.node path with - | (- | ⟨m, old⟩ | -) <;> simp

theorem publish_namespace {ev : PublishEvent} {m : VfsNamespaceMutation}
    (hc : ev.mutation.isContent = false)
    (h : namespaceMutationFor ev.event = .ok m) :
    env.publish ev tree = env.applyNamespace m tree := by
  simp [publish, hc, h, Except.toOption]

theorem publish_content {ev : PublishEvent} {w : ContentWrite}
    (hc : ev.mutation.isContent = true) (h : env.contentWriteFor ev = .ok w) :
    env.publish ev tree = env.applyContent w tree := by
  simp [publish, hc, h, Except.toOption]

/-- **The gateway does what the operation does**, where the changed paths have no second link and
a generation without a base is written over an existing file. -/
theorem publish_iff_opStep (ev : PublishEvent) (hid : ev.mutation.ForwardsNoFileId)
    (hl : ev.mutation.isLocalOnly = false)
    (hu : ∀ p ∈ ev.mutation.changedPaths, tree.Unaliased p)
    (hf : ev.mutation.SealedWithoutBase → ev.mutation.isContent = true →
      (tree.node ev.mutation.primaryPath).any isFile = true) :
    env.publish ev tree = some r ↔ env.opStep ev tree = some r := by
  have hm' : ev.event.mutation = ev.mutation := rfl
  unfold opStep opOf
  cases hm : ev.mutation with
  | createDirectory path mode | createFile path mode | createSymlink path ta =>
    rw [hm] at hu hm'
    rw [publish_namespace (by rw [hm]; rfl) (by simp only [namespaceMutationFor, hm']; rfl)]
    exact (createOp_step_iff (hu path (by simp [changedPaths, affectedPaths, primaryPath]))).symm
  | replaceFile path _ fi base =>
    rw [hm] at hu hid hf
    have hu' : tree.Unaliased path := hu path (by simp [changedPaths, affectedPaths, primaryPath])
    rw [publish_content (by rw [hm]; rfl) (by simp only [contentWriteFor, hm]; rfl)]
    change remoteFileId fi = none at hid
    rw [hid]
    by_cases hb : base = some absentPrecondition
    · simp only [hb, if_true]
      exact (creatingWrite_iff hu').symm
    · simp only [hb, if_false]
      exact (replace_iff hu' hb fun h => hf h rfl).symm
  | appendFile path =>
    rw [hm] at hu
    rw [publish_content (by rw [hm]; rfl) (by simp only [contentWriteFor, hm]; rfl)]
    exact (append_iff (hu path (by simp [changedPaths, affectedPaths, primaryPath]))).symm
  | createHardLink _ np =>
    rw [hm] at hu hm'
    have hu' : tree.Unaliased np := hu np (by simp [changedPaths])
    have hc : ev.mutation.isContent = false := by rw [hm]; rfl
    dsimp only
    split
    · rename_i hp
      rw [publish_namespace hc (by simp only [namespaceMutationFor, hm', hp]; rfl)]
      exact (createOp_step_iff hu').symm
    · rename_i hp
      rw [publish_namespace hc]
      · exact (linkOp_step_iff hu').symm
      · simp only [namespaceMutationFor, hm']
  | rename =>
    rw [hm] at hu hm'
    rw [publish_namespace (by rw [hm]; rfl) (by simp only [namespaceMutationFor, hm']; rfl)]
    refine (rename_iff (hu _ ?_) (hu _ ?_)).symm <;>
      simp [changedPaths, affectedPaths]
  | removeFile path fi =>
    rw [hm] at hu hid hm'
    rw [publish_namespace (by rw [hm]; rfl) (by simp only [namespaceMutationFor, hm']; rfl)]
    change remoteFileId fi = none at hid
    rw [hid]
    exact (deleteFile_iff (hu path (by simp [changedPaths, affectedPaths, primaryPath]))).symm
  | removeDirectory path =>
    rw [hm] at hu hm'
    rw [publish_namespace (by rw [hm]; rfl) (by simp only [namespaceMutationFor, hm']; rfl)]
    exact (removeDirectory_iff (hu path (by simp [changedPaths, affectedPaths, primaryPath]))).symm
  | setMode path =>
    rw [hm] at hu hm'
    rw [publish_namespace (by rw [hm]; rfl) (by simp only [namespaceMutationFor, hm']; rfl)]
    exact (setMode_iff (hu path (by simp [changedPaths, affectedPaths, primaryPath]))).symm
  | setTimes path a m | setOwner path uid gid => simp [hm, isLocalOnly] at hl

/-- A step of a mount's own history is the operation of its event. -/
theorem opStep_of_commitEvent {ev : MountEvent}
    (h : env.commitEvent ev tree = some r) :
    env.opStep ev.toPublish tree = some r := by
  unfold commitEvent applyEvent at h
  split_ifs at h with ha hl
  · cases h
    rw [opStep, opOf_localOnly env ev.toPublish hl, step_eq_some]
    exact ⟨⟨trivial, fun _ hk => hk.elim⟩, idleOp_apply tree⟩
  · have ha' : Admissible tree ev := ha.resolve_left hl
    have hl' : ev.mutation.isLocalOnly = false := by simpa using hl
    exact (publish_iff_opStep ev.toPublish ha'.forwardsNoFileId hl' ha'.unaliased
      fun _ => ha'.sealedFile).1 h

theorem opOf_owns (ev : PublishEvent) (hl : ev.mutation.isLocalOnly = false) :
    ∀ p ∈ ev.mutation.changedPaths, p ∈ (env.opOf ev).owns := by
  intro p hp
  unfold opOf
  split <;> rename_i hm <;> rw [hm] at hp hl
  case h_4 =>
    split <;> simpa [changedPaths, createOp, linkOp] using hp
  case h_5 =>
    split_ifs <;>
      simpa [changedPaths, affectedPaths, primaryPath, createOp, editOp] using hp
  case h_7 => simpa [changedPaths, affectedPaths, moveOp] using hp
  case h_11 => simp [isLocalOnly] at hl
  case h_12 => simp [isLocalOnly] at hl
  all_goals simpa [changedPaths, affectedPaths, primaryPath, createOp, editOp, removeOp] using hp

theorem opStep_sealedFile (ev : PublishEvent) (h : env.opStep ev tree = some r)
    (hs : ev.mutation.SealedWithoutBase) (hc : ev.mutation.isContent = true) :
    (tree.node ev.mutation.primaryPath).any isFile = true := by
  cases hm : ev.mutation with
  | replaceFile path _ _ base =>
    rw [hm] at hs
    obtain rfl : base = none := hs
    rw [opStep, opOf_replaceFile hm, step_eq_some] at h
    obtain ⟨⟨⟨e, he, m, old, rfl⟩, -⟩, -⟩ := h
    change (tree.node path).any isFile = true
    rw [he]
    rfl
  | appendFile path =>
    rw [opStep, opOf_appendFile hm, step_eq_some] at h
    obtain ⟨⟨⟨e, he, m, old, rfl, -⟩, -⟩, -⟩ := h
    change (tree.node path).any isFile = true
    rw [he]
    rfl
  | _ => simp [hm, isContent] at hc

/-- What an operation does, the gateway does. -/
theorem publish_of_opStep (ev : PublishEvent) (hid : ev.mutation.ForwardsNoFileId)
    (hl : ev.mutation.isLocalOnly = false) (h : env.opStep ev tree = some r) :
    env.publish ev tree = some r :=
  (publish_iff_opStep ev hid hl
    (fun p hp => (step_eq_some.1 h).1.2 p (opOf_owns ev hl p hp))
    (opStep_sealedFile ev h)).2 h

end Bridge

end PublishEnv

end Chevalier.LocalView
