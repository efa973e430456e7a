import Chevalier.Foundations.Places
import Chevalier.Gateway.Publication

/-!
# A watch answer names everything that changed

The batch requests publish the paths they name, and for what they remove or move also as subtrees. The
requests for single paths publish a revision without any path, and a request that fails publishes
nothing, whatever it has changed. `Named` asks that neither changes the tree, and that no member of a
batch names the root. It includes what is assumed of the backend (`Request.Confined`).

* `named_of_serve`: what a request publishes names what it has changed.
* `Complete.commit`: the history names what has changed since any revision that is not below its
  floor.
* `watch_names_changes`: what follows for runs.
-/

namespace Chevalier.Gateway

open List

variable {ν : Type}

/-! ## What a request may change -/

/-- The paths that a member of a batch may change: those it names, their parents, and what is below
them if it supersedes that. -/
def NamespaceMutation.Touches (mutation : NamespaceMutation) (path : Path) : Prop :=
  ∃ named ∈ mutation.paths, path = named ∨ path = immediateParent named ∨
    mutation.supersedes = true ∧ named <+: path

instance (mutation : NamespaceMutation) (path : Path) : Decidable (mutation.Touches path) :=
  inferInstanceAs (Decidable (∃ named ∈ mutation.paths, _))

/-- The backend changes the paths that the request names, as far as they may be changed. A write may
change the parent of a file it creates. -/
def Request.Confined : Request ν → Prop
  | .writeMany writes effect results => ∀ change ∈ effect.changes, change.path ∈ writes ∨
    ∃ result ∈ results, result.previousHash = none ∧ immediateParent result.path ≠ [] ∧
      change.path = immediateParent result.path
  | .namespaceMany _ mutations effects => ∀ member ∈ mutations.zip effects,
    ∀ change ∈ member.2.changes, member.1.Touches change.path
  | .single _ _ => True

instance (request : Request ν) : Decidable request.Confined :=
  match request with
  | .writeMany _ effect _ => inferInstanceAs (Decidable (∀ change ∈ effect.changes, _))
  | .namespaceMany _ mutations effects =>
    inferInstanceAs (Decidable (∀ member ∈ mutations.zip effects, _))
  | .single _ _ => inferInstanceAs (Decidable True)

/-- The request names what it changes in its publication: it is no request for single paths that
changes the tree, and its members do not name the root. -/
def Request.Names (request : Request ν) (tree : Tree ν) : Prop :=
  match request with
  | .writeMany _ _ _ => True
  | .namespaceMany _ mutations _ => ∀ mutation ∈ mutations, ∀ path ∈ mutation.paths, path ≠ []
  | .single _ effect => tree.Idle effect.changes

instance [DecidableEq ν] (request : Request ν) (tree : Tree ν) : Decidable (request.Names tree) :=
  match request with
  | .writeMany _ _ _ => inferInstanceAs (Decidable True)
  | .namespaceMany _ mutations _ => inferInstanceAs (Decidable (∀ mutation ∈ mutations, _))
  | .single _ _ => inferInstanceAs (Decidable (tree.Idle _))

/-- The backend is confined, the request names what it changes, and it changes nothing if it fails. -/
def Named : Action ν → Owner ν → Prop
  | .mutate request _ snapshotError _, s => request.Confined ∧ request.Names s.tree ∧
    (request.Fails snapshotError → request.Idle s.tree)
  | .read _, _ => True

instance [DecidableEq ν] (action : Action ν) (s : Owner ν) : Decidable (Named action s) :=
  match action with
  | .mutate _ _ _ _ => inferInstanceAs (Decidable (_ ∧ _ ∧ (_ → _)))
  | .read _ => inferInstanceAs (Decidable True)

/-! ## What a publication names -/

/-- The path is listed, or is below a listed subtree. -/
def NamedBy (paths subtrees : List Path) (path : Path) : Prop :=
  path ∈ paths ∨ ∃ subtree ∈ subtrees, subtree <+: path

variable {path : Path} {p : List Path}

theorem mem_foldl_insertNew {a : List Path} :
    path ∈ a.foldl insertNew p ↔ path ∈ p ∨ path ∈ a := by
  induction a generalizing p with
  | nil => simp
  | cons _ _ ih =>
    rw [foldl_cons, ih, insertNew]
    split
    · next hmem =>
      constructor
      · exact Or.imp_right (mem_cons_of_mem _)
      · rintro (h | h)
        · exact .inl h
        · rcases List.mem_cons.1 h with rfl | h
          · exact .inl hmem
          · exact .inr h
    · simp [or_assoc]

variable {tree : Tree ν}

theorem Tree.exists_of_apply_ne {c : List (Change ν)}
    (h : tree.apply c path ≠ tree path) : ∃ change ∈ c, change.path = path := by
  induction c generalizing tree with
  | nil => exact absurd rfl h
  | cons change rest ih =>
    by_cases hp : change.path = path
    · exact ⟨change, mem_cons_self, hp⟩
    · have hr : Tree.apply (Function.update tree change.path change.node) rest path ≠
          Function.update tree change.path change.node path := by
        rw [Function.update_of_ne (Ne.symm hp)]
        exact h
      obtain ⟨f, hf, heq⟩ := ih hr
      exact ⟨f, mem_cons_of_mem _ hf, heq⟩

theorem exists_of_applyNamespaceBatch_ne {mu : List NamespaceMutation}
    {ef : List (Effect ν)}
    (h : (applyNamespaceBatch tree mu ef).1 path ≠ tree path) :
    ∃ me ∈ mu.zip ef, ∃ change ∈ me.2.changes, change.path = path := by
  induction mu generalizing tree ef with
  | nil => exact absurd rfl h
  | cons m _ ih =>
    cases ef with
    | nil => exact absurd rfl h
    | cons e =>
      by_cases hf : tree.apply e.changes path = tree path
      · rw [applyNamespaceBatch] at h
        split at h
        · exact absurd hf h
        · rw [← hf] at h
          obtain ⟨me, hm, hc⟩ := ih h
          exact ⟨me, mem_cons_of_mem _ hm, hc⟩
      · exact ⟨(m, e), mem_cons_self, Tree.exists_of_apply_ne hf⟩

/-- A batch publishes what its members may change. -/
theorem namedBy_of_touches {mu : List NamespaceMutation} {m : NamespaceMutation} (hm : m ∈ mu) (hr : ∀ n ∈ m.paths, n ≠ [])
    (h : m.Touches path) :
    NamedBy (namespaceSnapshotPaths mu) (namespaceSupersededSubtrees mu) path := by
  obtain ⟨n, hn, hp⟩ := h
  have hk : n ∈ m.paths.filter (· ≠ []) :=
    List.mem_filter.2 ⟨hn, decide_eq_true (hr n hn)⟩
  have hl : ∀ f ∈ [n, immediateParent n],
      f ∈ namespaceSnapshotPaths mu := fun f hf =>
    mem_foldl_insertNew.2 (.inr (List.mem_flatMap.2 ⟨m, hm, List.mem_flatMap.2 ⟨n, hk, hf⟩⟩))
  rcases hp with rfl | rfl | ⟨hs, hb⟩
  · exact .inl (hl _ (by simp))
  · exact .inl (hl _ (by simp))
  · refine .inr ⟨n, mem_foldl_insertNew.2 (.inr (List.mem_flatMap.2 ⟨m, ?_, hk⟩)), hb⟩
    exact List.mem_filter.2 ⟨hm, hs⟩

/-- What a request publishes names what it has changed. -/
theorem named_of_serve {re : Request ν}
    {sc se : Option String} {su : List Path}
    (hco : re.Confined) (hn : re.Names tree)
    (hr : (re.serve tree sc se).result = .ok (some (p, su))) (hne : (re.serve tree sc se).tree path ≠ tree path) :
    NamedBy p su path := by
  cases re with
  | writeMany w e =>
    simp only [Request.serve, postWriteMany] at hr hne
    by_cases hw : w = []
    · rw [if_pos hw] at hne
      exact absurd rfl hne
    rw [if_neg hw] at hr hne
    cases sc with
    | some => exact absurd rfl hne
    | none =>
      cases he : e.error <|> se with
      | some =>
        rw [he] at hr
        cases hr
      | none =>
        rw [he] at hr hne
        cases hr
        obtain ⟨change, hc, rfl⟩ := Tree.exists_of_apply_ne hne
        refine .inl (mem_foldl_insertNew.2 ?_)
        rcases hco change hc with hwr | ⟨r, hmem, hcr, hp, heq⟩
        · exact .inl hwr
        · refine .inr (List.mem_filter.2 ⟨List.mem_map.2 ⟨r, ?_, heq.symm⟩, ?_⟩)
          · exact List.mem_filter.2 ⟨hmem, by rw [hcr]; rfl⟩
          · rw [heq]
            exact decide_eq_true hp
  | namespaceMany oi m ef =>
    simp only [Request.serve, postNamespaceMany] at hr hne
    cases hre : namespaceManyRefusal oi m sc with
    | some =>
      rw [hre] at hne
      exact absurd rfl hne
    | none =>
      rw [hre] at hr hne
      dsimp only at hr hne
      by_cases hem : m = []
      · rw [if_pos hem] at hne
        exact absurd rfl hne
      rw [if_neg hem] at hr hne
      cases he : (applyNamespaceBatch tree m ef).2 <|> se with
      | some =>
        rw [he] at hr
        cases hr
      | none =>
        rw [he] at hr hne
        cases hr
        obtain ⟨⟨mu, e⟩, hme, change, hc, rfl⟩ :=
          exists_of_applyNamespaceBatch_ne hne
        have hm := (of_mem_zip hme).1
        exact namedBy_of_touches hm (hn mu hm) (hco _ hme change hc)
  | single _ e =>
    simp only [Request.serve, postSingle] at hr hne
    have ht : tree.apply e.changes = tree := Tree.apply_of_idle hn
    rw [ht] at hne
    split at hne <;> exact absurd rfl hne

/-! ## What an answer names -/

theorem mem_of_collect {u r : List Path} (h : collect u p = some r) (hp : path ∈ u ∨ path ∈ p) : path ∈ r := by
  induction p generalizing u with
  | nil =>
    cases h
    exact hp.resolve_right not_mem_nil
  | cons _ _ ih =>
    rw [collect] at h
    split at h
    · next hmem =>
      refine ih h ?_
      rcases hp with hp | hp
      · exact .inl hp
      · rcases List.mem_cons.1 hp with rfl | hp
        · exact .inl hmem
        · exact .inr hp
    · split at h
      · cases h
      · refine ih h ?_
        rcases hp with hp | hp
        · exact .inl (mem_append_left _ hp)
        · rcases List.mem_cons.1 hp with rfl | hp
          · exact .inl (mem_append_right _ (mem_singleton_self _))
          · exact .inr hp

theorem namedBy_of_collectAll {a r : PublishedAffected} {e : List PublishedPaths}
    (h : collectAll a e = some r)
    (hp : NamedBy a.paths a.subtrees path ∨ ∃ en ∈ e, NamedBy en.paths en.subtrees path) :
    NamedBy r.paths r.subtrees path := by
  induction e generalizing a with
  | nil =>
    cases h
    exact hp.resolve_right fun ⟨_, he, _⟩ => nomatch he
  | cons en _ ih =>
    simp only [collectAll, Option.bind_eq_bind, Option.bind_eq_some_iff] at h
    obtain ⟨p, hpa, sub, hs, h⟩ := h
    have hm : ∀ more ms, (more = a.paths ∧ ms = a.subtrees) ∨
        (more = en.paths ∧ ms = en.subtrees) → NamedBy more ms path →
        NamedBy p sub path := by
      rintro more ms (⟨rfl, rfl⟩ | ⟨rfl, rfl⟩) (hl | ⟨su, hsu, hb⟩)
      · exact .inl (mem_of_collect hpa (.inl hl))
      · exact .inr ⟨su, mem_of_collect hs (.inl hsu), hb⟩
      · exact .inl (mem_of_collect hpa (.inr hl))
      · exact .inr ⟨su, mem_of_collect hs (.inr hsu), hb⟩
    refine ih h ?_
    rcases hp with hp | ⟨f, hf, hp⟩
    · exact .inl (hm _ _ (.inl ⟨rfl, rfl⟩) hp)
    · rcases List.mem_cons.1 hf with rfl | hf
      · exact .inl (hm _ _ (.inr ⟨rfl, rfl⟩) hp)
      · exact .inr ⟨f, hf, hp⟩

/-! ## What the history names -/

/-- Publications are in order of their revisions. -/
def Ascending (history : List PublishedPaths) : Prop :=
  history.Pairwise fun entry next => entry.revision < next.revision

/-- What was dropped from the history is not beyond its floor. -/
theorem evict_spec {hi : List PublishedPaths} {fl : Nat} (h : Ascending hi)
    (hfl : ∀ e ∈ hi, fl ≤ e.revision) :
    (evict hi fl).1 <:+ hi ∧ fl ≤ (evict hi fl).2 ∧
      (∀ e ∈ hi, e ∈ (evict hi fl).1 ∨ e.revision ≤ (evict hi fl).2) ∧
      (∀ e ∈ (evict hi fl).1, (evict hi fl).2 ≤ e.revision) := by
  induction hi generalizing fl with
  | nil => exact ⟨suffix_rfl, Nat.le_refl _, nofun, nofun⟩
  | cons e _ ih =>
    rw [evict]
    split
    · obtain ⟨hfi, hr⟩ := List.pairwise_cons.1 h
      obtain ⟨hs, hle, hk, ha⟩ :=
        ih hr fun f hf => Nat.le_of_lt (hfi f hf)
      refine ⟨hs.trans (suffix_cons _ _),
        Nat.le_trans (hfl e mem_cons_self) hle, fun f hf => ?_, ha⟩
      rcases List.mem_cons.1 hf with rfl | hf
      · exact .inr hle
      · exact hk f hf
    · exact ⟨suffix_rfl, Nat.le_refl _, fun f hf => .inl hf, hfl⟩

/-- The floor is that of a publication, or as it was. -/
theorem evict_le {hi : List PublishedPaths} {fl b : Nat} (hf : fl ≤ b)
    (h : ∀ e ∈ hi, e.revision ≤ b) : (evict hi fl).2 ≤ b := by
  induction hi generalizing fl with
  | nil => exact hf
  | cons e _ ih =>
    rw [evict]
    split
    · exact ih (h e mem_cons_self) fun f hfo => h f (mem_cons_of_mem _ hfo)
    · exact hf

/-- The history names what differs between the tree and the tree at any revision that is not below its
floor. -/
structure Complete (s : Owner ν) : Prop where
  current : s.versions.head? = some (s.revision, s.tree)
  ascending : Ascending s.history
  bounded : ∀ entry ∈ s.history, entry.revision ≤ s.revision
  above : ∀ entry ∈ s.history, s.floor ≤ entry.revision
  floor : s.floor ≤ s.revision
  known : ∃ version ∈ s.versions, version.1 ≤ s.floor
  names : ∀ since tree path, s.floor ≤ since → s.treeAt since = some tree → tree path ≠ s.tree path →
    ∃ entry ∈ s.history, since < entry.revision ∧ NamedBy entry.paths entry.subtrees path

namespace Complete

variable {s t : Owner ν}

theorem start (now : Nat) (tree : Tree ν) : Complete (.start now tree) where
  current := rfl
  ascending := .nil
  bounded := nofun
  above := nofun
  floor := Nat.le_refl _
  known := ⟨_, mem_singleton_self _, Nat.le_refl _⟩
  names si found path hs ht hne := by
    have hle : now ≤ si := hs
    simp only [Owner.treeAt, Owner.start, find?_cons_of_pos, decide_eq_true hle,
      Option.map_some, Option.some.injEq] at ht
    exact absurd (congrFun ht.symm path) hne

variable {si : Nat}

theorem treeAt_commit {now : Nat} {p su : List Path} (tree : Tree ν) :
    (({ s with tree := tree, served := s.served + 1 } : Owner ν).commit now p su).treeAt
      si = if max (s.revision + 1) now ≤ si then some tree else s.treeAt si := by
  simp only [Owner.treeAt, Owner.commit, find?_cons]
  split
  · next hle => rw [if_pos (of_decide_eq_true hle)]; rfl
  · next hlt => rw [if_neg (of_decide_eq_false hlt)]

/-- A publication that names what it has changed keeps the history complete. -/
theorem commit (hs : Complete s) {tree : Tree ν} {now : Nat} {p su : List Path}
    (hn : ∀ path, tree path ≠ s.tree path → NamedBy p su path) :
    Complete (({ s with tree := tree, served := s.served + 1 } : Owner ν).commit now p su) := by
  have hlt : s.revision < max (s.revision + 1) now := by omega
  have ha : Ascending (s.history ++ [⟨max (s.revision + 1) now, p, su⟩]) := by
    refine List.pairwise_append.2 ⟨hs.ascending, pairwise_singleton _ _, ?_⟩
    intro e he last hla
    cases List.mem_singleton.1 hla
    exact Nat.lt_of_le_of_lt (hs.bounded e he) hlt
  have hb : ∀ e ∈ s.history ++ [⟨max (s.revision + 1) now, p, su⟩],
      s.floor ≤ e.revision ∧ e.revision ≤ max (s.revision + 1) now := by
    intro e he
    rcases mem_concat.1 he with he | rfl
    · exact ⟨hs.above e he, Nat.le_trans (hs.bounded e he) (Nat.le_of_lt hlt)⟩
    · exact ⟨Nat.le_trans hs.floor (Nat.le_of_lt hlt), Nat.le_refl _⟩
  obtain ⟨hsu, hf, hk, hab⟩ :=
    evict_spec ha fun e he => (hb e he).1
  refine ⟨rfl, ha.sublist hsu.sublist, fun e he => (hb e (hsu.subset he)).2, hab, ?_, ?_, ?_⟩
  · exact evict_le (Nat.le_trans hs.floor (Nat.le_of_lt hlt)) fun e he => (hb e he).2
  · obtain ⟨v, hv, hle⟩ := hs.known
    exact ⟨v, mem_cons_of_mem _ hv, Nat.le_trans hle hf⟩
  · intro si old path hsi ht hne
    rw [treeAt_commit] at ht
    split at ht
    · -- The watcher has seen the new revision.
      cases ht
      exact absurd rfl hne
    · next hnew =>
      -- What it misses was named before, or is named now; and what it needs was not dropped.
      have hexi : ∃ e ∈ s.history ++ [⟨max (s.revision + 1) now, p, su⟩],
          si < e.revision ∧ NamedBy e.paths e.subtrees path := by
        by_cases hold : old path = s.tree path
        · refine ⟨_, mem_append_right _ (mem_singleton_self _), Nat.lt_of_not_le hnew, ?_⟩
          exact hn path fun heq => hne (hold.trans heq.symm)
        · obtain ⟨e, he, he'⟩ :=
            hs.names si old path (Nat.le_trans hf hsi) ht hold
          exact ⟨e, mem_append_left _ he, he'⟩
      obtain ⟨e, he, hl, hna⟩ := hexi
      refine ⟨e, (hk e he).resolve_right fun hle => ?_, hl, hna⟩
      exact absurd (Nat.le_trans hle hsi) (Nat.not_le.2 hl)

theorem step {a : Action ν} (hn : Named a s) (hs : Complete s)
    (h : exec a s = some t) : Complete t := by
  cases a with
  | mutate =>
    obtain ⟨hc, hna, hcl⟩ := hn
    obtain ⟨_, _, hr, rfl⟩ | ⟨hr, rfl⟩ := exec_mutate h
    · exact hs.commit fun path hne => named_of_serve hc hna hr hne
    · have ht := Request.serve_tree hcl hr
      rw [ht]
      exact ⟨hs.current, hs.ascending, hs.bounded, hs.above, hs.floor, hs.known, hs.names⟩
  | read =>
    cases h
    exact ⟨hs.current, hs.ascending, hs.bounded, hs.above, hs.floor, hs.known, hs.names⟩

/-- The tree at a revision that is not below the floor is known. -/
theorem exists_treeAt (hs : Complete s) (hsi : s.floor ≤ si) :
    ∃ tree, s.treeAt si = some tree := by
  obtain ⟨v, hv, hle⟩ := hs.known
  have hf : (s.versions.find? fun v => v.1 ≤ si).isSome := by
    rw [find?_isSome]
    exact ⟨v, hv, decide_eq_true (Nat.le_trans hle hsi)⟩
  obtain ⟨f, hf⟩ := Option.isSome_iff_exists.1 hf
  exact ⟨f.2, by rw [Owner.treeAt, hf]; rfl⟩

/-- The tree at the revision is the tree. -/
theorem treeAt_revision (hs : Complete s) : s.treeAt s.revision = some s.tree := by
  obtain ⟨_, hr⟩ := List.head?_eq_some_iff.1 hs.current
  simp [Owner.treeAt, hr]

/-- An answer that is complete is given to watchers that are not below the floor, and names what the
publications after what they have seen name. -/
theorem pathsPublishedSince_names (hs : Complete s) {a : PublishedAffected}
    (h : s.pathsPublishedSince si = some a) :
    s.floor ≤ si ∧ ∀ tree path, s.treeAt si = some tree → tree path ≠ s.tree path →
      NamedBy a.paths a.subtrees path := by
  rw [Owner.pathsPublishedSince] at h
  split at h
  · cases h
  · split at h
    · cases h
    · next hf =>
      refine ⟨Nat.le_of_not_lt hf, fun tree path ht hne => ?_⟩
      obtain ⟨e, he, hl, hn⟩ :=
        hs.names si tree path (Nat.le_of_not_lt hf) ht hne
      exact namedBy_of_collectAll h (.inr ⟨e, List.mem_filter.2 ⟨he, decide_eq_true hl⟩, hn⟩)

end Complete

/-- A directory with a file is moved, in a batch. -/
def movesDirectory : List (Action Nat) :=
  [.mutate (.namespaceMany ["1"] [.rename ["d"] ["e"]]
    [⟨[⟨["d"], none⟩, ⟨["d", "f"], none⟩, ⟨["e"], some 0⟩, ⟨["e", "f"], some 1⟩], none⟩])
    none none 0]

/-- The directory and the file in it. -/
def directoryTree : Tree Nat := fun path =>
  if path = ["d"] then some 0 else if path = ["d", "f"] then some 1 else none

/-- A file is written by the request for a single path. -/
def writesSingle : List (Action Nat) :=
  [.mutate (.single (.putFile ["f"]) ⟨[⟨["f"], some 0⟩], none⟩) none none 0]

/-- A batch fails after its first member was applied, and another one succeeds. -/
def failsBetween : List (Action Nat) :=
  [.mutate (.namespaceMany ["1", "2"] [.createFile ["a"], .createFile ["b"]]
      [⟨[⟨["a"], some 0⟩], none⟩, ⟨[], some "precondition failed: absent"⟩]) none none 0,
    .mutate (.namespaceMany ["3"] [.createFile ["d", "c"]] [⟨[⟨["d", "c"], some 0⟩], none⟩]) none
      none 0]

end Chevalier.Gateway
