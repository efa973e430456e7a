import Chevalier.Vfs.Confined

/-!
# Compare-and-swap under locks

A precondition that was found to hold is to hold until the call that found it has taken effect. The
locks of a call see to that as long as they stand for what the call works on: the paths are spelled
one way (`.` is not used), the inodes the paths name are the ones whose keys were looked up, and what
a precondition looks at is a regular file or nothing (`Steady`). Then no other call can change what it
has seen (`Secured.of_confined`).

* `install_preconditions_hold`: in every run whose steps are steady, the calls take effect one after
  the other, each while its preconditions hold.
-/

namespace Chevalier.Vfs

open Posix Calls Locks Function FileSystem Schedule List

/-! ## What a precondition looks at -/

/-- The name, the way to it and the bytes it stands for stay. -/
structure Kept (fs fs' : FileSystem) (path : Path) : Prop where
  node : fs'.node path = fs.node path
  above : fs.Extensible path.dropLast → fs'.Extensible path.dropLast
  bytes : ∀ inode, fs.node path = some (.file inode) →
    (fs'.data inode).bytes = (fs.data inode).bytes

def namedInode (fs : FileSystem) (path : Path) : Option Nat :=
  match fs.node path with
  | some (.file inode) => some inode
  | _ => none

theorem mem_namedInode {fs : FileSystem} {path : Path} {i : Nat} :
    i ∈ namedInode fs path ↔ fs.node path = some (.file i) := by
  unfold namedInode
  split
  · rename_i o ho
    rw [ho, Option.mem_some_iff, Option.some.injEq, Node.file.injEq]
  · rename_i ho
    exact ⟨(nofun), fun h => absurd h (ho i)⟩

def Plain (fs : FileSystem) (path : LogicalPath) : Prop :=
  fs.node path.parts = none ∨ (namedInode fs path.parts).isSome

instance (fs : FileSystem) (path : LogicalPath) : Decidable (Plain fs path) :=
  inferInstanceAs (Decidable (_ ∨ _))

section

variable {host : Host} {fs fs' : FileSystem} {path : LogicalPath}

theorem Plain.of_node (h : Plain fs path) (hn : fs'.node path.parts = fs.node path.parts) :
    Plain fs' path := by
  unfold Plain namedInode at h ⊢
  rwa [hn]

theorem Plain.cases (h : Plain fs path) :
    fs.node path.parts = none ∨ ∃ i, fs.node path.parts = some (.file i) := by
  refine h.imp_right fun hs => ?_
  obtain ⟨i, hi⟩ := Option.isSome_iff_exists.1 hs
  exact ⟨i, mem_namedInode.1 hi⟩

/-- What the look-ups of a precondition find stays. -/
theorem lookup_of_kept (hp : Plain fs path) (hk : Kept fs fs' path.parts) :
    (fs.lstat path.parts = .error .noEntry ∧ fs'.lstat path.parts = .error .noEntry ∧
      assertNoSymlinkAncestor fs' path.parts = .ok ()) ∨
    (∃ i, fs.node path.parts = some (.file i) ∧
      fs'.node path.parts = some (.file i) ∧
      assertNoSymlinkAncestor fs' path.parts = .ok ()) ∨
    ∃ e, e ≠ .noEntry ∧ fs.lstat path.parts = .error e := by
  rcases hp.cases with hn | ⟨i, hi⟩
  · by_cases hm : fs.missing path.parts = .noEntry
    · have he := hk.above (extensible_above (extensible_of_missing hn hm) (List.dropLast_prefix _))
      exact .inl ⟨lstat_eq_error.2 ⟨hn, hm⟩,
        lstat_eq_noEntry he (hk.node.trans hn),
        assertNoSymlinkAncestor_of_extensible he⟩
    · exact .inr (.inr ⟨_, hm, lstat_eq_error.2 ⟨hn, rfl⟩⟩)
  · have hi' := hk.node.trans hi
    exact .inr (.inl ⟨i, hi, hi', assertNoSymlinkAncestor_of_extensible (extensible_dropLast hi')⟩)

theorem assertExpectedFileId_of_kept {p : WritePrecondition} (hp : Plain fs path)
    (hk : Kept fs fs' path.parts)
    (h : assertExpectedFileId host fs path p = .ok ()) :
    assertExpectedFileId host fs' path p = .ok () := by
  unfold assertExpectedFileId at h ⊢
  cases hid : p.expectedFileId with
  | none => rfl
  | some =>
    rw [hid] at h
    obtain ⟨_, ha, h⟩ := Fold.bind_eq_ok.1 h
    obtain ⟨-, -, h⟩ := Fold.bind_eq_ok.1 h
    obtain ⟨-, rfl⟩ := absPath_eq_ok.1 ha
    rcases lookup_of_kept hp hk with
      ⟨hm, hm', hc⟩ | ⟨inode, hi, hi', hc⟩ | ⟨errno, hne, he⟩
    · refine Fold.bind_eq_ok.2 ⟨_, ha, Fold.bind_eq_ok.2 ⟨(), hc, ?_⟩⟩
      rw [hm] at h
      rw [hm']
      exact h
    · refine Fold.bind_eq_ok.2 ⟨_, ha, Fold.bind_eq_ok.2 ⟨(), hc, ?_⟩⟩
      have hs : localFileId host fs' path.parts = localFileId host fs path.parts := by
        simp only [localFileId, hi, hi']
      rw [lstat_eq_ok.2 hi] at h
      rw [lstat_eq_ok.2 hi', hs]
      exact h
    · rw [he] at h
      cases errno <;> first | exact absurd rfl hne | cases h

theorem fingerprintOf_of_kept {f : String} (hp : Plain fs path)
    (hk : Kept fs fs' path.parts) (h : fingerprintOf host fs path.parts = .ok f) :
    fingerprintOf host fs' path.parts = .ok f := by
  obtain ⟨-, -, h⟩ := Fold.bind_eq_ok.1 h
  rcases lookup_of_kept hp hk with
    ⟨hm, hm', hc⟩ | ⟨inode, hi, hi', hc⟩ | ⟨errno, hne, he⟩
  · refine Fold.bind_eq_ok.2 ⟨(), hc, ?_⟩
    rw [hm] at h
    rw [hm']
    exact h
  · refine Fold.bind_eq_ok.2 ⟨(), hc, ?_⟩
    rw [lstat_eq_ok.2 hi] at h
    rw [lstat_eq_ok.2 hi']
    simp only [hk.bytes inode hi]
    exact h
  · rw [he] at h
    cases errno <;> first | exact absurd rfl hne | cases h

/-- **A precondition that looks at a file or at nothing goes on to hold as long as these stay.** -/
theorem assertPrecondition_of_kept {p : Option WritePrecondition}
    (hp : p ≠ none → Plain fs path) (hk : Kept fs fs' path.parts)
    (h : assertPrecondition host fs path p = .ok ()) :
    assertPrecondition host fs' path p = .ok () := by
  cases p with
  | none => rfl
  | some p =>
    have hp := hp (Option.some_ne_none _)
    obtain ⟨⟨⟩, hid, h⟩ := Fold.bind_eq_ok.1 h
    refine Fold.bind_eq_ok.2 ⟨(), assertExpectedFileId_of_kept hp hk hid, ?_⟩
    cases hpr : p.effectivePredicate with
    | none => rfl
    | some =>
      rw [hpr] at h
      obtain ⟨a, ha, hs⟩ := Fold.bind_eq_ok.1 h
      obtain ⟨_, hab, hr⟩ := Fold.bind_eq_ok.1 ha
      obtain ⟨f, hf, hc⟩ := Fold.bind_eq_ok.1 hr
      obtain ⟨-, rfl⟩ := absPath_eq_ok.1 hab
      exact Fold.bind_eq_ok.2 ⟨a, Fold.bind_eq_ok.2 ⟨_, hab, Fold.bind_eq_ok.2
        ⟨f, fingerprintOf_of_kept hp hk hf, hc⟩⟩, hs⟩

end

/-! ## Locks that stand for what a call works on -/

def Known (host : Host) (held : List (Path × Mode)) (fs : FileSystem) (path : LogicalPath) : Prop :=
  ∀ inode ∈ namedInode fs path.parts,
    ∃ id ∈ host.fileId inode, (lockParts (inodeKey id), Mode.write) ∈ held

instance (host : Host) (held : List (Path × Mode)) (fs : FileSystem) (path : LogicalPath) :
    Decidable (Known host held fs path) :=
  inferInstanceAs (Decidable (∀ _ ∈ _, ∃ _ ∈ _, _))

/-- A call is checked under locks that stand for what it works on. -/
def Steady (host : Host) (calls : List Call) : Move → Traffic → Prop
  | .check c, s => ∀ call ∈ calls[c]?, call.Spread ∧
    (∀ path ∈ call.paths, "." ∉ path ∧ Known host (s.phase c).held s.fs path) ∧
    ∀ condition ∈ call.conditions, condition.2 ≠ none → Plain s.fs condition.1
  | .keys _ _, _ | .acquire _, _ | .install _, _ => True

instance (host : Host) (calls : List Call) (move : Move) (s : Traffic) :
    Decidable (Steady host calls move s) :=
  match move with
  | .check _ => inferInstanceAs (Decidable (∀ _ ∈ _, _ ∧ _ ∧ _))
  | .keys _ _ | .acquire _ | .install _ => inferInstanceAs (Decidable True)

theorem lockParts_eq_parts {path : LogicalPath} (h : "." ∉ path) : lockParts path = path.parts := by
  refine filter_congr fun part hp => ?_
  have hne : part ≠ "." := fun heq => h (heq ▸ hp)
  simp [hne]

theorem covers_lockWithTargetMode (keys : List LogicalPath) :
    Covers (lockWithTargetMode keys) (keys.map lockParts) := by
  have hmem : ∀ ta ∈ keys.map lockParts, ∀ a, a <+: ta →
      (a, if a ∈ keys.map lockParts then Mode.write else Mode.read) ∈ lockWithTargetMode keys := by
    intro ta ht a ha
    refine List.mem_map.2 ⟨a, (mem_insertionSort _).2 (List.mem_dedup.2
      (List.mem_flatMap.2 ⟨ta, ht, (mem_inits _ _).2 ha⟩)), rfl⟩
  intro ta ht
  have hs := hmem ta ht ta prefix_rfl
  rw [if_pos ht] at hs
  exact ⟨hs, fun a ha => ⟨_, hmem ta ht a ha⟩⟩

theorem mem_lockKeys (host : Host) (ca : Path → Option String) (fs : FileSystem)
    (path : LogicalPath) : path ∈ lockKeys host ca fs path := by
  unfold lockKeys
  split
  · exact mem_singleton_self _
  · simp

theorem covers_lockPaths (host : Host) (ca : Path → Option String) (fs : FileSystem)
    (p : List LogicalPath) :
    Covers (lockPaths host ca fs p) (p.map lockParts) := by
  intro ta ht
  obtain ⟨path, hp, rfl⟩ := List.mem_map.1 ht
  exact covers_lockWithTargetMode _ _ (mem_map_of_mem
    (List.mem_flatMap.2 ⟨path, hp, mem_lockKeys host ca fs path⟩))

theorem prefix_mem_usedNames {cal : List Call} :
    ∀ path ∈ usedNames cal, ∀ f, f <+: path → f ∈ usedNames cal := by
  intro path hp f hf
  obtain ⟨call, hc, hp⟩ := List.mem_flatMap.1 hp
  obtain ⟨used, hu, hp⟩ := List.mem_flatMap.1 hp
  exact List.mem_flatMap.2 ⟨call, hc, List.mem_flatMap.2 ⟨used, hu,
    (mem_inits _ _).2 (hf.trans ((mem_inits _ _).1 hp))⟩⟩

theorem parts_mem_usedNames {cal : List Call} {call : Call} (hc : call ∈ cal)
    {path : LogicalPath} (hp : path ∈ call.paths) : path.parts ∈ usedNames cal :=
  List.mem_flatMap.2 ⟨call, hc, List.mem_flatMap.2 ⟨path, hp, (mem_inits _ _).2 prefix_rfl⟩⟩

/-- A checked call under locks that stand for what it works on. -/
structure Secured (host : Host) (calls : List Call) (fs : FileSystem) (held : List (Path × Mode))
    (prepared : Prepared) (call : Call) : Prop where
  prepares : prepared.For (usedNames calls) call
  spread : call.Spread
  spelled : ∀ path ∈ call.paths, "." ∉ path
  covers : Covers held (call.paths.map lockParts)
  known : ∀ path ∈ call.paths, Known host held fs path
  plain : ∀ condition ∈ prepared.conditions, condition.2 ≠ none → Plain fs condition.1
  holds : prepared.Holds host fs

section

variable {host : Host} {cal : List Call} {fs fs' : FileSystem}
  {held held' : List (Path × Mode)} {pr : Prepared} {call call' : Call}

theorem Prepared.For.conditions_subset {n : List Path} (h : pr.For n call) :
    pr.conditions ⊆ call.conditions := by
  cases pr with
  | writes =>
    intro co hc
    obtain ⟨w, hw, rfl⟩ := List.mem_map.1 hc
    obtain ⟨_, hr, hpa, hp⟩ := (h.2.2 w hw).request
    rw [hpa, hp]
    exact mem_conditions_of_mem_requests hr
  | append => exact h.1 ▸ List.Subset.refl _
  | createHardLink => exact (nofun)
  | rename => exact (nofun)
  | deleteFile =>
    obtain rfl := h
    exact List.Subset.refl _

/-- A write that is prepared has found its precondition to hold. -/
theorem Prepared.For.condition_of_write {n : List Path} {path : LogicalPath} {b : Bytes}
    {p : Option WritePrecondition} {o : Option WriteOptions}
    (h : pr.For n (.write path b p o)) :
    (path, p) ∈ pr.conditions := by
  cases pr with
  | writes =>
    obtain ⟨hne, -, hof⟩ := h
    obtain ⟨w, hw⟩ := exists_mem_of_ne_nil _ hne
    obtain ⟨_, hr, hpa, hp⟩ := (hof w hw).request
    obtain rfl := List.mem_singleton.1 hr
    exact List.mem_map.2 ⟨w, hw, Prod.ext hpa hp⟩
  | append => cases h.1
  | createHardLink => cases h
  | rename => cases h
  | deleteFile => cases h

theorem path_mem_of_mem_conditions {co : LogicalPath × Option WritePrecondition}
    (h : co ∈ call.conditions) : co.1 ∈ call.paths := by
  cases call with
  | write | appendFromLocalFile | deleteFile =>
    obtain rfl := List.mem_singleton.1 h
    exact mem_singleton_self _
  | writeManyAtomic =>
    obtain ⟨write, hw, rfl⟩ := List.mem_map.1 h
    exact mem_map_of_mem hw
  | createHardLink => cases h
  | rename => cases h

/-- If a call expects something of one of its paths, it does so of all of them. -/
theorem exists_condition {co : LogicalPath × Option WritePrecondition}
    (h : co ∈ call.conditions) {path : LogicalPath} (hp : path ∈ call.paths) :
    ∃ p, (path, p) ∈ call.conditions := by
  cases call with
  | write _ _ p | deleteFile _ p =>
    obtain rfl := List.mem_singleton.1 hp
    exact ⟨p, mem_singleton_self _⟩
  | writeManyAtomic =>
    obtain ⟨write, hw, rfl⟩ := List.mem_map.1 hp
    exact ⟨write.precondition, List.mem_map.2 ⟨write, hw, rfl⟩⟩
  | appendFromLocalFile r =>
    obtain rfl := List.mem_singleton.1 hp
    exact ⟨some r.precondition, mem_singleton_self _⟩
  | createHardLink => cases h
  | rename => cases h

/-- What a call keeps that works elsewhere. -/
theorem kept_of_confined {b above : List Path} {i : Nat → Prop} {path : Path}
    (h : Confined (usedNames cal) b above i fs fs') (hp : path ∈ usedNames cal)
    (hb : ∀ ch ∈ b, ¬ ch <+: path) (ha : ∀ ta ∈ above, ¬ path <+: ta)
    (hino : ∀ ino, fs.node path = some (.file ino) → ¬ i ino) :
    Kept fs fs' path where
  node := by
    rcases h.node path hp hb with hs | ⟨-, -, ta, ht, hi⟩
    · exact hs
    · exact absurd hi (ha ta ht)
  above he := by
    refine extensible_iff.2 fun f hf => ?_
    have hi := hf.trans (List.dropLast_prefix _)
    rcases h.node f (prefix_mem_usedNames path hp f hi)
      (fun ch hch hc =>
        hb ch hch (hc.trans hi)) with
      hs | ⟨-, hd, -⟩
    · rcases extensible_iff.1 he f hf with hn | ⟨mode, hm⟩
      · exact .inl (hs.trans hn)
      · exact .inr ⟨mode, hs.trans hm⟩
    · exact .inr hd
  bytes ino hin :=
    (h.bytes ino (fs.inode_lt _ _ hin)).resolve_right (hino ino hin)

/-- **A checked call stays secured while another call works elsewhere.** -/
theorem Secured.of_kept (h : Secured host cal fs held pr call)
    (hk : ∀ path ∈ call.paths, Kept fs fs' path.parts) :
    Secured host cal fs' held pr call where
  prepares := h.prepares
  spread := h.spread
  spelled := h.spelled
  covers := h.covers
  known path hp inode hi := by
    refine h.known path hp inode (mem_namedInode.2 ?_)
    rw [← (hk path hp).node, mem_namedInode.1 hi]
  plain condition hc hs :=
    (h.plain condition hc hs).of_node
      (hk _ (path_mem_of_mem_conditions (h.prepares.conditions_subset hc))).node
  holds condition hc :=
    assertPrecondition_of_kept (h.plain condition hc)
      (hk _ (path_mem_of_mem_conditions (h.prepares.conditions_subset hc)))
      (h.holds condition hc)

/-- Two calls whose locks do not exclude each other work at places apart. -/
theorem not_prefix_of_apart (ha : Apart held held')
    (hs : ∀ path ∈ call.paths, "." ∉ path) (hs' : ∀ path ∈ call'.paths, "." ∉ path)
    (hc : Covers held (call.paths.map lockParts))
    (hc' : Covers held' (call'.paths.map lockParts)) {path path' : LogicalPath}
    (hp : path ∈ call.paths) (hp' : path' ∈ call'.paths) :
    ¬ path.parts <+: path'.parts := by
  rw [← lockParts_eq_parts (hs path hp), ← lockParts_eq_parts (hs' path' hp')]
  exact ha.not_prefix hc hc' (mem_map_of_mem hp) (mem_map_of_mem hp')

/-- Two calls whose locks do not exclude each other work on different inodes. -/
theorem not_named_of_apart (ha : Apart held held') {path path' : LogicalPath}
    (hk : Known host held fs path) (hk' : Known host held' fs path') {i : Nat}
    (hi : fs.node path.parts = some (.file i)) :
    fs.node path'.parts ≠ some (.file i) := by
  intro hi'
  obtain ⟨_, hid, hl⟩ := hk i (mem_namedInode.2 hi)
  obtain ⟨_, hid', hl'⟩ := hk' i (mem_namedInode.2 hi')
  obtain rfl := Option.mem_unique hid hid'
  exact ha.not_write hl hl'

/-- A checked call stays secured while another call is confined to its own places. -/
theorem Secured.of_confined (h : Secured host cal fs held pr call) (hca : call ∈ cal)
    (ha : Apart held' held) (hs : ∀ path ∈ call'.paths, "." ∉ path)
    (hc : Covers held' (call'.paths.map lockParts))
    (hk : ∀ path ∈ call'.paths, Known host held' fs path)
    (hco : Confined (usedNames cal) (call'.paths.map LogicalPath.parts) call'.directories
      (fun i => ∃ path ∈ call'.paths, fs.node path.parts = some (.file i)) fs fs') :
    Secured host cal fs' held pr call := by
  refine h.of_kept fun path hp => kept_of_confined hco (parts_mem_usedNames hca hp)
    (fun ch hch => ?_) (fun ta ht hin => ?_)
    fun i hi ⟨path', hp', hi'⟩ => ?_
  · obtain ⟨path', hp', rfl⟩ := List.mem_map.1 hch
    exact not_prefix_of_apart ha hs h.spelled hc h.covers hp' hp
  · obtain ⟨path', hp', rfl⟩ := List.mem_map.1 ht
    exact not_prefix_of_apart ha.symm h.spelled hs h.covers hc hp hp'
      (hin.trans (List.dropLast_prefix _))
  · exact not_named_of_apart ha (hk path' hp') (h.known path hp) hi' hi

end

/-! ## Steps -/

section

variable {host : Host} {calls cal : List Call} {s t : Traffic} {c : Nat}

theorem exec_keys_eq_some {ca : Path → Option String}
    (h : exec host cal (.keys c ca) s = some t) :
    ∃ call, cal[c]? = some call ∧ s.phase c = .ready ∧
      t = s.next c s.fs (.locking [] (lockPaths host ca s.fs call.paths)) := by
  simp only [exec] at h
  split at h
  · rename_i call hc hp
    exact ⟨call, hc, hp, (Option.some.inj h).symm⟩
  · cases h

theorem exec_acquire_eq_some (h : exec host cal (.acquire c) s = some t) :
    ∃ held lock w, s.phase c = .locking held (lock :: w) ∧
      (∀ o < cal.length, o ≠ c → Free lock (s.phase o).held) ∧
      t = s.next c s.fs (.locking (lock :: held) w) := by
  simp only [exec] at h
  split at h
  · rename_i held lock w hp
    split_ifs at h with hf
    exact ⟨held, lock, w, hp, hf, (Option.some.inj h).symm⟩
  · cases h

theorem exec_check_eq_some (h : exec host cal (.check c) s = some t) :
    ∃ call held, cal[c]? = some call ∧ s.phase c = .locking held [] ∧
      t.fs = last ((check host (fun _ => usedNames cal) call).run s.fs) ∧
      ((∃ pr, (check host (fun _ => usedNames cal) call).run s.fs =
          .ok (some pr) t.fs ∧ t.phase = update s.phase c (.checked held pr)) ∨
        ∃ o, o ≠ .ok true ∧ t.phase = update s.phase c (.finished o)) := by
  simp only [exec] at h
  split at h
  · rename_i call held hc hp
    refine ⟨call, held, hc, hp, ?_⟩
    split at h
    · rename_i pr fs hrun
      cases h
      exact ⟨by rw [hrun]; rfl, .inl ⟨pr, hrun, rfl⟩⟩
    · rename_i fs hrun
      cases h
      exact ⟨by rw [hrun]; rfl, .inr ⟨_, by simp, rfl⟩⟩
    · rename_i e fs hrun
      cases h
      exact ⟨by rw [hrun]; rfl, .inr ⟨_, by simp, rfl⟩⟩
  · cases h

theorem exec_install_eq_some (h : exec host cal (.install c) s = some t) :
    ∃ held pr o, s.phase c = .checked held pr ∧
      t = s.next c (last ((install host pr).run s.fs)) (.finished o) := by
  simp only [exec] at h
  split at h
  · rename_i held pr hp
    split at h
    · rename_i fs hrun
      cases h
      exact ⟨held, pr, _, hp, by rw [hrun]; rfl⟩
    · rename_i e fs hrun
      cases h
      exact ⟨held, pr, _, hp, by rw [hrun]; rfl⟩
  · cases h

/-! ## The invariant -/

/-- Locks exclude each other, every call under way works under its locks, and what a call has found
to hold holds. -/
structure Sound (host : Host) (calls : List Call) (s : Traffic) : Prop where
  known : ∀ c, s.phase c ≠ .ready → c < calls.length
  apart : ∀ c d, c ≠ d → Apart (s.phase c).held (s.phase d).held
  locking : ∀ c held waiting call, s.phase c = .locking held waiting → calls[c]? = some call →
    Covers (held ++ waiting) (call.paths.map lockParts)
  checked : ∀ c held prepared, s.phase c = .checked held prepared →
    ∃ call, calls[c]? = some call ∧ Secured host calls s.fs held prepared call

theorem Sound.start (fs : FileSystem) : Sound host cal (.start fs) where
  known _ h := absurd rfl h
  apart _ _ _ := .nil
  locking _ _ _ _ h := nomatch h
  checked _ _ _ h := nomatch h

variable {ph : Phase}

/-- What stays of the locks when one call goes on. -/
theorem Sound.apart_update (h : Sound host cal s)
    (hp : ∀ o, o ≠ c → Apart ph.held (s.phase o).held) :
    ∀ d e, d ≠ e → Apart (update s.phase c ph d).held (update s.phase c ph e).held := by
  intro d e hne
  by_cases hd : d = c
  · subst hd
    rw [update_self, update_of_ne hne.symm]
    exact hp e hne.symm
  · by_cases he : e = c
    · subst he
      rw [update_self, update_of_ne hne]
      exact (hp d hne).symm
    · rw [update_of_ne hd, update_of_ne he]
      exact h.apart d e hne

theorem Sound.known_update (h : Sound host cal s) (hc : c < cal.length) :
    ∀ d, update s.phase c ph d ≠ .ready → d < cal.length := by
  intro d hd
  by_cases heq : d = c
  · exact heq ▸ hc
  · rw [update_of_ne heq] at hd
    exact h.known d hd

theorem Sound.keys (h : Sound host cal s) {ca : Path → Option String}
    (hs : exec host cal (.keys c ca) s = some t) : Sound host cal t := by
  obtain ⟨call, hc, -, rfl⟩ := exec_keys_eq_some hs
  refine ⟨h.known_update (List.getElem?_eq_some_iff.1 hc).1, h.apart_update fun _ _ => .nil,
    fun d held w call' hd hc' => ?_, fun d held pr hd => ?_⟩
  · by_cases heq : d = c
    · subst heq
      simp only [Traffic.next, update_self, Phase.locking.injEq] at hd
      obtain ⟨rfl, rfl⟩ := hd
      cases hc.symm.trans hc'
      exact covers_lockPaths host ca s.fs call.paths
    · simp only [Traffic.next, update_of_ne heq] at hd
      exact h.locking d held w call' hd hc'
  · by_cases heq : d = c
    · subst heq
      simp [Traffic.next] at hd
    · simp only [Traffic.next, update_of_ne heq] at hd
      exact h.checked d held pr hd

theorem Sound.acquire (h : Sound host cal s) (hs : exec host cal (.acquire c) s = some t) :
    Sound host cal t := by
  obtain ⟨held, _, _, hp, hf, rfl⟩ := exec_acquire_eq_some hs
  refine ⟨h.known_update (h.known c (by simp [hp])), h.apart_update fun o ho => ?_,
    fun d held' w' call hd hc => ?_, fun d held' pr hd => ?_⟩
  · have hh := h.apart c o ho.symm
    rw [hp] at hh
    by_cases hr : s.phase o = .ready
    · rw [hr]
      exact Apart.nil.symm
    · exact hh.cons (hf o (h.known o hr) ho)
  · by_cases heq : d = c
    · subst heq
      simp only [Traffic.next, update_self, Phase.locking.injEq] at hd
      obtain ⟨rfl, rfl⟩ := hd
      refine (h.locking d held _ call hp hc).mono fun o ho => ?_
      simpa [or_left_comm, or_assoc] using ho
    · simp only [Traffic.next, update_of_ne heq] at hd
      exact h.locking d held' w' call hd hc
  · by_cases heq : d = c
    · subst heq
      simp [Traffic.next] at hd
    · simp only [Traffic.next, update_of_ne heq] at hd
      exact h.checked d held' pr hd

/-- Checking a call leaves its own paths as they are. -/
theorem kept_of_check {call : Call} {fs fs' : FileSystem} {path : LogicalPath}
    (hca : call ∈ cal) (hs : call.Spread)
    (h : Confined (usedNames cal) [] call.directories (fun _ => False) fs fs')
    {co : LogicalPath × Option WritePrecondition} (hc : co ∈ call.conditions)
    (hp : co.1 = path) : fs'.node path.parts = fs.node path.parts := by
  subst hp
  have hu := path_mem_of_mem_conditions hc
  rcases h.node _ (parts_mem_usedNames hca hu) (nofun) with
    hsa | ⟨hn, -, target, ht, hi⟩
  · exact hsa
  · obtain ⟨o, ho, rfl⟩ := List.mem_map.1 ht
    by_cases heq : co.1 = o
    · subst heq
      exact absurd hi (not_prefix_dropLast (ne_nil_of_node hn))
    · obtain ⟨p, hmem⟩ := exists_condition hc ho
      exact absurd (hi.trans (List.dropLast_prefix _)) (hs co hc (o, p) hmem heq)

/-- A call goes on to the last of its phases, while the others stay secured. -/
theorem Sound.proceed (h : Sound host cal s) {fs : FileSystem}
    (hc : c < cal.length) (hh : ph.held = [] ∨ ph.held = (s.phase c).held)
    (hl : ∀ held w, ph ≠ .locking held w)
    (how : ∀ held pr, ph = .checked held pr →
      ∃ call, cal[c]? = some call ∧ Secured host cal fs held pr call)
    (ho : ∀ d, d ≠ c → ∀ held pr call, s.phase d = .checked held pr →
      cal[d]? = some call → Secured host cal s.fs held pr call →
      Secured host cal fs held pr call) :
    Sound host cal (s.next c fs ph) := by
  refine ⟨h.known_update hc, h.apart_update fun o hot => ?_,
    fun d held w call hd hca => ?_, fun d held pr hd => ?_⟩
  · rcases hh with hh | hh
    · rw [hh]
      exact .nil
    · rw [hh]
      exact h.apart c o hot.symm
  · by_cases heq : d = c
    · subst heq
      simp only [Traffic.next, update_self] at hd
      exact absurd hd (hl held w)
    · simp only [Traffic.next, update_of_ne heq] at hd
      exact h.locking d held w call hd hca
  · by_cases heq : d = c
    · subst heq
      simp only [Traffic.next, update_self] at hd
      exact how held pr hd
    · simp only [Traffic.next, update_of_ne heq] at hd
      obtain ⟨call, hca, hs⟩ := h.checked d held pr hd
      exact ⟨call, hca, ho d heq held pr call hd hca hs⟩

/-- The other calls stay secured while a call is confined to what its locks stand for. -/
theorem Sound.secured_of_confined (h : Sound host cal s) {fs : FileSystem} {call : Call}
    (hsp : ∀ path ∈ call.paths, "." ∉ path)
    (hco : Covers (s.phase c).held (call.paths.map lockParts))
    (hk : ∀ path ∈ call.paths, Known host (s.phase c).held s.fs path)
    (hc : Confined (usedNames cal) (call.paths.map LogicalPath.parts) call.directories
      (fun i => ∃ path ∈ call.paths, s.fs.node path.parts = some (.file i)) s.fs fs) :
    ∀ d, d ≠ c → ∀ held pr o, s.phase d = .checked held pr →
      cal[d]? = some o → Secured host cal s.fs held pr o →
      Secured host cal fs held pr o := by
  intro d hne held pr o hp ho hs
  have ha := h.apart c d hne.symm
  rw [hp] at ha
  exact hs.of_confined (mem_of_getElem? ho) ha hsp hco hk hc

theorem Sound.check (h : Sound host cal s) (hst : Steady host cal (.check c) s)
    (hste : exec host cal (.check c) s = some t) : Sound host cal t := by
  obtain ⟨call, held, hca, hph, hfs, hcas⟩ := exec_check_eq_some hste
  obtain ⟨hsp, hpa, hpl⟩ := hst call hca
  have hmem := mem_of_getElem? hca
  have hh : (s.phase c).held = held := by rw [hph]; rfl
  have hcov : Covers held (call.paths.map lockParts) := by
    simpa using h.locking c held [] call hph hca
  have hs : ∀ path ∈ call.paths, "." ∉ path := fun path hp => (hpa path hp).1
  have hk : ∀ path ∈ call.paths, Known host held s.fs path :=
    fun path hp => hh ▸ (hpa path hp).2
  -- what the call has staged and made lies beside its own paths
  have hco : ∀ b ino,
      Confined (usedNames cal) b call.directories ino s.fs t.fs := by
    intro b ino
    rw [hfs]
    exact check_confined call
  have ho := h.secured_of_confined (c := c) hs (hh ▸ hcov) (hh ▸ hk) (hco _ _)
  have hc := (List.getElem?_eq_some_iff.1 hca).1
  obtain ⟨fs, _⟩ := t
  rcases hcas with ⟨_, hrun, rfl⟩ | ⟨_, -, rfl⟩
  · refine h.proceed hc (.inr hh.symm) (nofun) (fun held' p' heq => ?_) ho
    obtain ⟨rfl, rfl⟩ := Phase.checked.inj heq
    obtain ⟨hf, hho⟩ := check_eq_some hrun
    have hsa : ∀ path ∈ call.paths, ∀ i, fs.node path.parts = some (.file i) →
        s.fs.node path.parts = some (.file i) := by
      intro path hp i hi
      rcases (hco [] fun _ => False).node _ (parts_mem_usedNames hmem hp)
        (nofun) with hsa | ⟨-, ⟨mode, hm⟩, -⟩
      · rwa [← hsa]
      · rw [hm] at hi
        cases hi
    exact ⟨call, hca, hf, hsp, hs, hcov, fun path hp i hi =>
      hk path hp i (mem_namedInode.2 (hsa path hp i (mem_namedInode.1 hi))),
      fun co hcon hso => (hpl co (hf.conditions_subset hcon)
        hso).of_node (kept_of_check hmem hsp (hco _ _) (hf.conditions_subset hcon) rfl), hho⟩
  · exact h.proceed hc (.inl rfl) (nofun) (nofun) ho

theorem Sound.install (h : Sound host cal s) (hst : exec host cal (.install c) s = some t) :
    Sound host cal t := by
  obtain ⟨held, pr, _, hp, rfl⟩ := exec_install_eq_some hst
  obtain ⟨_, hc, hs⟩ := h.checked c held pr hp
  have hmem := mem_of_getElem? hc
  have hh : (s.phase c).held = held := by rw [hp]; rfl
  refine h.proceed (List.getElem?_eq_some_iff.1 hc).1 (.inl rfl) (nofun)
    (nofun) (h.secured_of_confined hs.spelled (hh ▸ hs.covers)
      (hh ▸ hs.known) (install_confined hs.prepares hs.spread
        prefix_mem_usedNames fun path hpa => parts_mem_usedNames hmem hpa))

variable {move : Move}

/-- **Steady steps keep what every call has found to hold.** -/
theorem Sound.step
    (h : Sound host cal s)
    (hs : guarded (Steady host cal) (exec host cal) move s = some t) :
    Sound host cal t := by
  obtain ⟨hst, hs⟩ := guarded_eq_some.1 hs
  cases move with
  | keys => exact h.keys hs
  | acquire => exact h.acquire hs
  | check => exact h.check hst hs
  | install => exact h.install hs

variable {moves m : List Move}

theorem Sound.run {fs : FileSystem}
    (hrun : run (guarded (Steady host cal) (exec host cal)) m
      (.start fs) = some s) : Sound host cal s :=
  run_invariant (fun _ _ _ h hs => h.step hs) hrun (.start fs)

/-! ## Taking effect -/

/-- The calls that have taken effect, in order. -/
structure Logged (done : List Nat) (s : Traffic) : Prop where
  finished : ∀ c ∈ done, ∃ outcome, s.phase c = .finished outcome
  nodup : done.Nodup
  effect : ∀ c, s.phase c = .finished (.ok true) → c ∈ done

variable {done : List Nat}

theorem Logged.of_update {fs : FileSystem}
    (h : Logged done s) (hb : ∀ o, s.phase c ≠ .finished o)
    (ha : ph ≠ .finished (.ok true)) : Logged done (s.next c fs ph) where
  finished d hd := by
    obtain ⟨o, ho⟩ := h.finished d hd
    have hne : d ≠ c := fun heq => hb o (heq ▸ ho)
    exact ⟨o, by simpa only [Traffic.next, update_of_ne hne] using ho⟩
  nodup := h.nodup
  effect d hd := by
    by_cases heq : d = c
    · subst heq
      simp only [Traffic.next, update_self] at hd
      exact absurd hd ha
    · simp only [Traffic.next, update_of_ne heq] at hd
      exact h.effect d hd

theorem Logged.step (h : Logged done s)
    (hs : exec host cal move s = some t) : Logged (done ++ move.installed.toList) t := by
  cases move with
  | keys =>
    obtain ⟨call, -, hp, rfl⟩ := exec_keys_eq_some hs
    simpa [Move.installed] using h.of_update (by simp [hp]) (by simp)
  | acquire =>
    obtain ⟨held, _, _, hp, -, rfl⟩ := exec_acquire_eq_some hs
    simpa [Move.installed] using h.of_update (by simp [hp]) (by simp)
  | check =>
    obtain ⟨call, held, -, hp, -, hc⟩ := exec_check_eq_some hs
    obtain ⟨_, _⟩ := t
    rcases hc with ⟨pr, -, rfl⟩ | ⟨o, hne, rfl⟩
    · simpa [Move.installed, Traffic.next] using h.of_update (by simp [hp]) (by simp)
    · simpa [Move.installed, Traffic.next] using h.of_update (by simp [hp]) (by simpa using hne)
  | install c =>
    obtain ⟨held, pr, o, hp, rfl⟩ := exec_install_eq_some hs
    have hnot : c ∉ done := fun hdo => by
      obtain ⟨o, ho⟩ := h.finished c hdo
      rw [hp] at ho
      cases ho
    refine ⟨fun d hd => ?_, ?_, fun d hd => ?_⟩
    · by_cases heq : d = c
      · exact ⟨o, by simp [Traffic.next, heq]⟩
      · simp only [Move.installed, Option.toList_some, mem_append, mem_singleton] at hd
        obtain ⟨o, ho⟩ := h.finished d (hd.resolve_right heq)
        exact ⟨o, by simpa only [Traffic.next, update_of_ne heq] using ho⟩
    · exact List.nodup_append.2 ⟨h.nodup, nodup_singleton c, fun d hd e he heq =>
        hnot (List.mem_singleton.1 he ▸ heq ▸ hd)⟩
    · by_cases heq : d = c
      · simp [Move.installed, heq]
      · simp only [Traffic.next, update_of_ne heq] at hd
        exact mem_append_left _ (h.effect d hd)

theorem Logged.run (h : Logged done s)
    (hrun : run (guarded (Steady host cal) (exec host cal)) m s =
      some t) : Logged (done ++ m.filterMap Move.installed) t := by
  induction m generalizing s done with
  | nil =>
    cases hrun
    simpa using h
  | cons move _ ih =>
    obtain ⟨_, hs, hr⟩ := Option.bind_eq_some_iff.1 hrun
    have hn := ih (h.step (guarded_eq_some.1 hs).2) hr
    cases hi : move.installed with
    | none | some => simpa [hi] using hn

/-- A precondition that names the content of a file or of nothing names what the path has. -/
theorem hash_of_assertPrecondition {fs : FileSystem} {path : LogicalPath}
    {p : WritePrecondition} {f : String}
    (hp : p.effectivePredicate = some (.contentFingerprint f))
    (hpl : Plain fs path)
    (h : assertPrecondition host fs path (some p) = .ok ()) :
    ∃ i, fs.node path.parts = some (.file i) ∧ host.hash (fs.data i).bytes = f := by
  obtain ⟨-, -, h⟩ := Fold.bind_eq_ok.1 h
  rw [hp] at h
  obtain ⟨a, ha, hs⟩ := Fold.bind_eq_ok.1 h
  obtain ⟨_, hab, hr⟩ := Fold.bind_eq_ok.1 ha
  obtain ⟨_, hf, hc⟩ := Fold.bind_eq_ok.1 hr
  obtain ⟨-, rfl⟩ := absPath_eq_ok.1 hab
  obtain ⟨-, -, hf⟩ := Fold.bind_eq_ok.1 hf
  have ha : a = .contentFingerprint f := by
    by_contra hne
    rw [if_neg hne] at hs
    cases hs
  subst ha
  rcases hpl.cases with hn | ⟨i, hi⟩
  · rw [lstat_eq_error.2 ⟨hn, rfl⟩] at hf
    cases hm : fs.missing path.parts <;> rw [hm] at hf <;> cases hf
    cases hc
  · rw [lstat_eq_ok.2 hi] at hf
    cases hf
    refine ⟨i, hi, ?_⟩
    split at hc
    · cases hc
    · exact CasPredicate.contentFingerprint.inj (Except.ok.inj hc)

/-- A step that installs nothing leaves the files at the paths of the calls as they are. -/
theorem file_of_step (hmo : move.installed = none)
    (hs : exec host cal move s = some t) {path : Path} (hp : path ∈ usedNames cal)
    {i : Nat} (hi : t.fs.node path = some (.file i)) :
    s.fs.node path = some (.file i) ∧ (t.fs.data i).bytes = (s.fs.data i).bytes := by
  cases move with
  | keys =>
    obtain ⟨call, -, -, rfl⟩ := exec_keys_eq_some hs
    exact ⟨hi, rfl⟩
  | acquire =>
    obtain ⟨held, _, _, -, -, rfl⟩ := exec_acquire_eq_some hs
    exact ⟨hi, rfl⟩
  | check =>
    obtain ⟨call, held, -, -, hfs, -⟩ := exec_check_eq_some hs
    have hc : Confined (usedNames cal) [] call.directories (fun _ => False) s.fs t.fs :=
      hfs ▸ check_confined call
    have hn : s.fs.node path = some (.file i) := by
      rcases hc.node path hp (nofun) with hsa | ⟨-, ⟨_, hm⟩, -⟩
      · rwa [← hsa]
      · rw [hm] at hi
        cases hi
    exact ⟨hn, (hc.bytes i (s.fs.inode_lt _ _ hn)).resolve_right id⟩
  | install => cases hmo

theorem file_of_run (hm : ∀ move ∈ m, move.installed = none)
    (hrun : run (guarded (Steady host cal) (exec host cal)) m s = some t)
    {path : Path} (hp : path ∈ usedNames cal) {i : Nat}
    (hi : t.fs.node path = some (.file i)) :
    s.fs.node path = some (.file i) ∧ (t.fs.data i).bytes = (s.fs.data i).bytes := by
  induction m generalizing s with
  | nil =>
    cases hrun
    exact ⟨hi, rfl⟩
  | cons move _ ih =>
    obtain ⟨_, hs, hr⟩ := Option.bind_eq_some_iff.1 hrun
    obtain ⟨hmi, hb⟩ := ih (fun o ho => hm o (mem_cons_of_mem _ ho)) hr
    obtain ⟨hn, hb'⟩ := file_of_step (hm move mem_cons_self) (guarded_eq_some.1 hs).2 hp hmi
    exact ⟨hn, hb.trans hb'⟩

/-- **Calls take effect one after the other, each while its preconditions hold.** In a run whose
checks are made under locks that stand for what the calls work on, a call takes effect once, at its
install; what it expects of its paths holds at that moment. So a write that expects the content of a
file takes effect after another call only if that call has left the file with that content. -/
theorem install_preconditions_hold {fs : FileSystem} {moves : List Move}
    (hrun : run (guarded (Steady host calls) (exec host calls)) moves (.start fs) = some s) :
    ((moves.filterMap Move.installed).Nodup ∧
      ∀ c, s.phase c = .finished (.ok true) → c ∈ moves.filterMap Move.installed) ∧
    (∀ front c rest, moves = front ++ .install c :: rest →
      ∃ mid held prepared call,
        run (exec host calls) front (.start fs) = some mid ∧ calls[c]? = some call ∧
        mid.phase c = .checked held prepared ∧ prepared.For (usedNames calls) call ∧
        prepared.Holds host mid.fs) ∧
    ∀ front c middle d rest, moves = front ++ .install c :: (middle ++ .install d :: rest) →
      (∀ move ∈ middle, move.installed = none) →
      ∀ path bytes precondition options fingerprint,
        calls[d]? = some (.write path bytes (some precondition) options) →
        precondition.effectivePredicate = some (.contentFingerprint fingerprint) →
        ∃ mid, run (exec host calls) (front ++ [.install c]) (.start fs) = some mid ∧
          ∃ inode, mid.fs.node path.parts = some (.file inode) ∧
            host.hash (mid.fs.data inode).bytes = fingerprint := by
  -- a call that is installed is secured
  have hi : ∀ front c rest, moves = front ++ .install c :: rest →
      ∃ mid held prepared call,
        run (guarded (Steady host calls) (exec host calls)) front (.start fs) =
          some mid ∧ calls[c]? = some call ∧ mid.phase c = .checked held prepared ∧
        Secured host calls mid.fs held prepared call := by
    rintro front c rest rfl
    rw [run_append] at hrun
    obtain ⟨mid, hf, hr⟩ := Option.bind_eq_some_iff.1 hrun
    obtain ⟨_, hst, -⟩ := Option.bind_eq_some_iff.1 hr
    obtain ⟨held, prepared, -, hp, -⟩ :=
      exec_install_eq_some (guarded_eq_some.1 hst).2
    obtain ⟨call, hc, hs⟩ := (Sound.run hf).checked c held prepared hp
    exact ⟨mid, held, prepared, call, hf, hc, hp, hs⟩
  have hu : ∀ {front : List Move} {mid : Traffic},
      run (guarded (Steady host calls) (exec host calls)) front (.start fs) =
        some mid → run (exec host calls) front (.start fs) = some mid := by
    intro front mid hf
    simpa using run_mono id (fun _ _ _ _ hst => (guarded_eq_some.1 hst).2) hf
  have hsta : Logged [] (.start fs) :=
    ⟨(nofun), List.nodup_nil, (nofun)⟩
  have hl := hsta.run hrun
  refine ⟨⟨hl.nodup, hl.effect⟩, fun front c rest hm => ?_,
    fun front c middle d rest hm hmidd path bytes precondition options fingerprint hc hpr => ?_⟩
  · obtain ⟨mid, held, prepared, call, hf, hc, hp, hs⟩ :=
      hi front c rest hm
    exact ⟨mid, held, prepared, call, hu hf, hc, hp, hs.prepares, hs.holds⟩
  · obtain ⟨_, held, prepared, call, hf, hc', -, hs⟩ :=
      hi (front ++ [.install c] ++ middle) d rest (by simp [hm])
    cases hc'.symm.trans hc
    rw [run_append] at hf
    obtain ⟨mid, hmid, hmi⟩ := Option.bind_eq_some_iff.1 hf
    have hco := hs.prepares.condition_of_write
    obtain ⟨inode, hin, hh⟩ := hash_of_assertPrecondition hpr
      (hs.plain _ hco (Option.some_ne_none _)) (hs.holds _ hco)
    obtain ⟨hn, hb⟩ := file_of_run hmidd hmi (parts_mem_usedNames
      (List.mem_of_getElem? hc) (List.mem_singleton_self _)) hin
    exact ⟨mid, hu hmid, inode, hn, hb ▸ hh⟩

end

/-! ## Two writers -/

/-- A write that wants the bytes of the file to be `[1]`. -/
def expectOne (path : LogicalPath) (bytes : Bytes) : Call :=
  .write path bytes (some ⟨some (.contentFingerprint (Host.reference.hash [1])), none, none, none⟩)
    none

/-- The call has taken effect. -/
def Traffic.tookEffect (s : Traffic) (c : Nat) : Bool :=
  match s.phase c with
  | .finished (.ok true) => true
  | _ => false

theorem Traffic.tookEffect_iff {s : Traffic} {c : Nat} :
    s.tookEffect c = true ↔ s.phase c = .finished (.ok true) := by
  unfold Traffic.tookEffect
  split <;> simp_all

/-- Two writers of one file, the second one waiting for the first. -/
def writersInTurn : List Move :=
  [.keys 0 fun _ => none, .keys 1 fun _ => none, .acquire 0, .acquire 1, .acquire 0, .acquire 0,
    .check 0, .install 0, .acquire 1, .acquire 1, .check 1]

/-- The first writer takes effect, and what it expects holds then; the second one does not. -/
theorem install_preconditions_hold_inTurn :
    ∃ s, run (guarded
        (Steady Host.reference [expectOne ["f"] [2], expectOne ["f"] [3]])
        (exec Host.reference [expectOne ["f"] [2], expectOne ["f"] [3]])) writersInTurn
        (.start fileAndDirectory) = some s ∧
      s.phase 0 = .finished (.ok true) ∧ s.tookEffect 1 = false ∧
      0 ∈ writersInTurn.filterMap Move.installed ∧
      ∃ mid held prepared call,
        run (exec Host.reference [expectOne ["f"] [2], expectOne ["f"] [3]])
          (writersInTurn.take 7) (.start fileAndDirectory) = some mid ∧
        [expectOne ["f"] [2], expectOne ["f"] [3]][0]? = some call ∧
        mid.phase 0 = .checked held prepared ∧
        prepared.For (usedNames [expectOne ["f"] [2], expectOne ["f"] [3]]) call ∧
        prepared.Holds Host.reference mid.fs := by
  obtain ⟨s, hrun, hp⟩ : ∃ s, run (guarded
        (Steady Host.reference [expectOne ["f"] [2], expectOne ["f"] [3]])
        (exec Host.reference [expectOne ["f"] [2], expectOne ["f"] [3]])) writersInTurn
        (.start fileAndDirectory) = some s ∧ (s.tookEffect 0 && !s.tookEffect 1) = true :=
    exists_of_run_any (p := fun s : Traffic => s.tookEffect 0 && !s.tookEffect 1)
      (by decide +kernel)
  simp only [Bool.and_eq_true, Bool.not_eq_true'] at hp
  have he := Traffic.tookEffect_iff.1 hp.1
  have ht := install_preconditions_hold hrun
  exact ⟨s, hrun, he, hp.2, ht.1.2 0 he, ht.2.1 (writersInTurn.take 7) 0 (writersInTurn.drop 8) rfl⟩

/-- Two writers of one file under two names. The keys of the second are looked up before the second
name is linked. -/
def writersOfAlias : List Call :=
  [expectOne ["f"] [2], .createHardLink ["f"] ["g"], expectOne ["g"] [3]]

/-- The second writer holds no lock that the first one waits for. -/
def writersAtOnce : List Move :=
  [.keys 2 fun _ => none,
    .keys 1 fun _ => none, .acquire 1, .acquire 1, .acquire 1, .acquire 1, .check 1, .install 1,
    .keys 0 fun _ => none, .acquire 0, .acquire 0, .acquire 0, .acquire 2, .acquire 2,
    .check 0, .check 2, .install 0, .install 2]

/-- Two writes of one file that expect the same content both take effect, though neither of them
leaves that content behind. -/
theorem writers_overtake :
    ∃ s, run (exec Host.reference writersOfAlias) writersAtOnce
        (.start fileAndDirectory) = some s ∧
      s.phase 0 = .finished (.ok true) ∧ s.phase 2 = .finished (.ok true) ∧
      s.fs.node ["f"] = some (.file 0) ∧ s.fs.node ["g"] = some (.file 0) ∧
      (s.fs.data 0).bytes = [3] ∧
      Host.reference.hash [2] ≠ Host.reference.hash [1] ∧
      Host.reference.hash [3] ≠ Host.reference.hash [1] := by
  obtain ⟨s, hrun, hp⟩ : ∃ s, run (exec Host.reference writersOfAlias) writersAtOnce
        (.start fileAndDirectory) = some s ∧
      s.tookEffect 0 ∧ s.tookEffect 2 ∧ s.fs.node ["f"] = some (.file 0) ∧
        s.fs.node ["g"] = some (.file 0) ∧ (s.fs.data 0).bytes = [3] :=
    exists_of_run (by decide +kernel)
  obtain ⟨hfi, hs, hf, hg, hb⟩ := hp
  exact ⟨s, hrun, Traffic.tookEffect_iff.1 hfi, Traffic.tookEffect_iff.1 hs, hf, hg, hb, by decide +kernel, by decide +kernel⟩

end Chevalier.Vfs
