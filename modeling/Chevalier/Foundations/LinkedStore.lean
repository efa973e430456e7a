import Chevalier.Foundations.Schedule

/-!
# Stores whose names may share a value

A `LinkedStore` maps finitely many names to values and records which names are links to one and the
same value. A `Rewrite` says of every name where its new value comes from: from the value an old
name had, edited, or from nothing. Creating, editing, removing, linking and renaming names (whole
subtrees of them) are all rewrites.

A `LocalOp` is a guarded rewrite together with its footprint: the names it reads, the names it
writes, and among them the names it owns, which must have no second link. `LocalOp.swaps` is the
frame argument: two operations neither of which writes what the other reads may be exchanged.
-/

namespace Chevalier

variable {K V : Type*} [DecidableEq K]

/-- A finite store of named values with a record of which names are links to one value. -/
structure LinkedStore (K V : Type*) [DecidableEq K] where
  node : K → Option V
  names : Finset K
  mem_names : ∀ k, k ∈ names ↔ (node k).isSome
  linked : K → K → Bool
  linked_irrefl : ∀ a, linked a a = false
  linked_symm : ∀ a b, linked a b = linked b a
  linked_names : ∀ a b, linked a b = true → a ∈ names

namespace LinkedStore

/-- The nodes and the links determine a store. -/
theorem ext_node {s t : LinkedStore K V} (hn : ∀ k, s.node k = t.node k)
    (hl : ∀ a b, s.linked a b = t.linked a b) : s = t := by
  obtain ⟨n₁, N₁, hN₁, l₁, _, _, _⟩ := s
  obtain ⟨n₂, N₂, hN₂, l₂, _, _, _⟩ := t
  obtain rfl : n₁ = n₂ := funext hn
  obtain rfl : l₁ = l₂ := funext fun a => funext (hl a)
  obtain rfl : N₁ = N₂ := Finset.ext fun k => by rw [hN₁, hN₂]
  rfl

/-- No other name is a link to the value of `k`. -/
def Unaliased (s : LinkedStore K V) (k : K) : Prop := ∀ x, x ≠ k → s.linked k x = false

theorem unaliased_iff {s : LinkedStore K V} {k : K} :
    s.Unaliased k ↔ ∀ x ∈ s.names, x ≠ k → s.linked k x = false := by
  refine ⟨fun h x _ => h x, fun h x hx => ?_⟩
  by_contra hl
  have hl' : s.linked x k = true := by rw [s.linked_symm]; simpa using hl
  exact hl (h x (s.linked_names _ _ hl') hx)

instance (s : LinkedStore K V) (k : K) : Decidable (s.Unaliased k) :=
  decidable_of_iff _ unaliased_iff.symm

/-- The names that are links to the value of `k`, with `k` itself. -/
def group (s : LinkedStore K V) (k : K) : Finset K :=
  insert k (s.names.filter fun x => s.linked k x = true)

theorem group_of_unaliased {s : LinkedStore K V} {k : K} (h : s.Unaliased k) :
    s.group k = {k} := by
  ext x
  simp only [group, Finset.mem_insert, Finset.mem_filter, Finset.mem_singleton]
  refine ⟨fun hx => hx.elim id fun hx => ?_, .inl⟩
  by_contra hne
  simp [h x hne] at hx

/-- The store without any name. -/
def empty : LinkedStore K V where
  node _ := none
  names := ∅
  mem_names := by simp
  linked _ _ := false
  linked_irrefl _ := rfl
  linked_symm _ _ := rfl
  linked_names _ _ h := by simp at h

end LinkedStore

/-- Where the value of every name comes from: the value `src` names, edited, or `fresh`. -/
structure Rewrite (K V : Type*) [DecidableEq K] where
  src : K → Option K
  edit : K → V → V
  fresh : K → Option V
  /-- A finite set that holds every name the rewritten store can have. -/
  reach : Finset K → Finset K
  reach_src : ∀ N k j, src k = some j → j ∈ N → k ∈ reach N
  reach_fresh : ∀ N k, src k = none → (fresh k).isSome → k ∈ reach N

namespace Rewrite

/-- The value of `k` after the rewrite. -/
def nodeAt (r : Rewrite K V) (s : LinkedStore K V) (k : K) : Option V :=
  match r.src k with
  | some j => (s.node j).map (r.edit k)
  | none => r.fresh k

/-- Two names are links after the rewrite when their values come from links, or from one value. -/
def linkedAt (r : Rewrite K V) (s : LinkedStore K V) (x y : K) : Bool :=
  match r.src x, r.src y with
  | some a, some b => decide (x ≠ y) && (decide (a = b ∧ a ∈ s.names) || s.linked a b)
  | _, _ => false

theorem linkedAt_eq_true {r : Rewrite K V} {s : LinkedStore K V} {x y : K} :
    r.linkedAt s x y = true ↔ x ≠ y ∧ ∃ a b, r.src x = some a ∧ r.src y = some b ∧
      ((a = b ∧ a ∈ s.names) ∨ s.linked a b = true) := by
  unfold linkedAt
  cases r.src x <;> cases r.src y <;> simp

theorem nodeAt_isSome_of_src {r : Rewrite K V} {s : LinkedStore K V} {k j : K}
    (h : r.src k = some j) : (r.nodeAt s k).isSome = (s.node j).isSome := by
  simp [nodeAt, h]

def apply (r : Rewrite K V) (s : LinkedStore K V) : LinkedStore K V where
  node := r.nodeAt s
  names := (r.reach s.names).filter fun k => (r.nodeAt s k).isSome
  mem_names k := by
    simp only [Finset.mem_filter, and_iff_right_iff_imp]
    intro hk
    cases hsrc : r.src k with
    | some j =>
      rw [nodeAt_isSome_of_src hsrc] at hk
      exact r.reach_src _ _ _ hsrc ((s.mem_names j).2 hk)
    | none => exact r.reach_fresh _ _ hsrc (by simpa [nodeAt, hsrc] using hk)
  linked := r.linkedAt s
  linked_irrefl x := by
    by_contra h
    exact (linkedAt_eq_true.1 (by simpa using h)).1 rfl
  linked_symm x y := by
    rw [Bool.eq_iff_iff, linkedAt_eq_true, linkedAt_eq_true]
    constructor
    all_goals
      rintro ⟨hne, a, b, ha, hb, hab⟩
      refine ⟨hne.symm, b, a, hb, ha, ?_⟩
      rcases hab with ⟨rfl, hmem⟩ | hl
      · exact .inl ⟨rfl, hmem⟩
      · exact .inr (by rwa [s.linked_symm])
  linked_names x y h := by
    obtain ⟨-, a, b, ha, -, hab⟩ := linkedAt_eq_true.1 h
    have hmem : a ∈ s.names := by
      rcases hab with ⟨-, hmem⟩ | hl
      · exact hmem
      · exact s.linked_names _ _ hl
    have hsome : (s.node a).isSome := (s.mem_names a).1 hmem
    exact Finset.mem_filter.2 ⟨r.reach_src _ _ _ ha hmem, by rwa [nodeAt_isSome_of_src ha]⟩

theorem apply_node (r : Rewrite K V) (s : LinkedStore K V) (k : K) :
    (r.apply s).node k = r.nodeAt s k := rfl

theorem apply_linked (r : Rewrite K V) (s : LinkedStore K V) (x y : K) :
    (r.apply s).linked x y = r.linkedAt s x y := rfl

/-! ## The rewrites a tree of names needs -/

/-- Bind the unbound name `k` to a fresh value. -/
def put (k : K) (v : V) : Rewrite K V where
  src x := if x = k then none else some x
  edit _ v := v
  fresh x := if x = k then some v else none
  reach N := insert k N
  reach_src N x j h hj := by
    split_ifs at h
    cases h
    exact Finset.mem_insert_of_mem hj
  reach_fresh N x h _ := by
    split_ifs at h with hx
    simp [hx]

/-- Edit the values of a set of names in place. -/
def modify (S : Finset K) (f : V → V) : Rewrite K V where
  src := some
  edit x v := if x ∈ S then f v else v
  fresh _ := none
  reach N := N
  reach_src N x j h hj := by cases h; exact hj
  reach_fresh _ _ h _ := by cases h

/-- Unbind a name. -/
def erase (k : K) : Rewrite K V where
  src x := if x = k then none else some x
  edit _ v := v
  fresh _ := none
  reach N := N
  reach_src N x j h hj := by
    split_ifs at h
    cases h
    exact hj
  reach_fresh _ _ _ h := by simp at h

def link (old new : K) : Rewrite K V where
  src x := if x = new then some old else some x
  edit _ v := v
  fresh _ := none
  reach N := insert new N
  reach_src N x j h hj := by
    split_ifs at h with hx
    · simp [hx]
    · cases h; exact Finset.mem_insert_of_mem hj
  reach_fresh _ _ _ h := by simp at h

/-- Move names: the value of `x` comes from `back x`, and `forth` finds where a name went. -/
def move (back : K → Option K) (forth : K → K)
    (hback : ∀ x j, back x = some j → j = x ∨ forth j = x) : Rewrite K V where
  src := back
  edit _ v := v
  fresh _ := none
  reach N := N ∪ N.image forth
  reach_src N x j h hj := by
    rcases hback x j h with rfl | rfl
    · exact Finset.mem_union_left _ hj
    · exact Finset.mem_union_right _ (Finset.mem_image_of_mem _ hj)
  reach_fresh _ _ _ h := by simp at h

theorem modify_node (S : Finset K) (f : V → V) (s : LinkedStore K V) (k : K) :
    ((modify S f).apply s).node k = (s.node k).map fun v => if k ∈ S then f v else v := rfl

/-- Editing in place keeps the links. -/
theorem modify_linked (S : Finset K) (f : V → V) (s : LinkedStore K V) (x y : K) :
    ((modify S f).apply s).linked x y = s.linked x y := by
  rw [Bool.eq_iff_iff, apply_linked, linkedAt_eq_true]
  simp only [modify, Option.some.injEq, exists_and_left, exists_eq_left']
  by_cases hxy : x = y <;> simp [hxy, s.linked_irrefl]

/-- Editing no name changes nothing. -/
theorem modify_empty (f : V → V) (s : LinkedStore K V) : (modify ∅ f).apply s = s :=
  LinkedStore.ext_node (fun k => by simp [modify_node]) (modify_linked ∅ f s)

/-- Editing one name twice edits it once. -/
theorem modify_modify (k : K) (f g : V → V) (s : LinkedStore K V) :
    (modify {k} g).apply ((modify {k} f).apply s) = (modify {k} (g ∘ f)).apply s := by
  refine LinkedStore.ext_node (fun x => ?_) (fun x y => ?_)
  · simp only [modify_node, Option.map_map, Finset.mem_singleton]
    by_cases hx : x = k <;> simp [hx, Function.comp_def]
  · simp [modify_linked]

/-- Editing a fresh value binds the edited value. -/
theorem modify_put (k : K) (v : V) (f : V → V) (s : LinkedStore K V) :
    (modify {k} f).apply ((put k v).apply s) = (put k (f v)).apply s := by
  refine LinkedStore.ext_node (fun x => ?_) (fun x y => ?_)
  · rw [modify_node]
    by_cases hx : x = k <;> simp [apply_node, nodeAt, put, hx]
  · rw [modify_linked]
    rfl

end Rewrite

/-- A guarded rewrite with its footprint. -/
structure LocalOp (K V : Type*) [DecidableEq K] where
  rewrite : Rewrite K V
  pre : LinkedStore K V → Prop
  reads : Set K
  writes : Set K
  owns : Set K
  writes_reads : writes ⊆ reads
  owns_writes : owns ⊆ writes
  src_frame : ∀ k, k ∉ writes → rewrite.src k = some k
  edit_frame : ∀ k, k ∉ writes → ∀ v, rewrite.edit k v = v
  src_reads : ∀ k ∈ writes, ∀ j, rewrite.src k = some j → j ∈ reads
  pre_local : ∀ s t : LinkedStore K V, (∀ k ∈ reads, s.node k = t.node k) → pre s → pre t
  /-- A written name that is bound is owned, or its value lives on under some name. -/
  kept : ∀ s, pre s → ∀ k ∈ writes, (s.node k).isSome → k ∈ owns ∨ ∃ j, rewrite.src j = some k

namespace LocalOp

/-- The operation may run: its guard holds and the names it owns have no second link. -/
def Enabled (a : LocalOp K V) (s : LinkedStore K V) : Prop :=
  a.pre s ∧ ∀ k ∈ a.owns, s.Unaliased k

open Classical in
/-- Run the operation where it is enabled. -/
noncomputable def step (a : LocalOp K V) (s : LinkedStore K V) : Option (LinkedStore K V) :=
  if a.Enabled s then some (a.rewrite.apply s) else none

theorem step_eq_some {a : LocalOp K V} {s t : LinkedStore K V} :
    a.step s = some t ↔ a.Enabled s ∧ a.rewrite.apply s = t := by
  unfold step
  split_ifs with h <;> simp [h]

variable {a b : LocalOp K V} {s t : LinkedStore K V}

theorem node_frame (a : LocalOp K V) (s : LinkedStore K V) {k : K} (hk : k ∉ a.writes) :
    (a.rewrite.apply s).node k = s.node k := by
  have he : a.rewrite.edit k = id := funext (a.edit_frame k hk)
  simp [Rewrite.apply_node, Rewrite.nodeAt, a.src_frame k hk, he]

/-- Inside the footprint the new values are a function of the values read. -/
theorem node_congr (a : LocalOp K V) (h : ∀ k ∈ a.reads, s.node k = t.node k) {k : K}
    (hk : k ∈ a.writes) : (a.rewrite.apply s).node k = (a.rewrite.apply t).node k := by
  simp only [Rewrite.apply_node, Rewrite.nodeAt]
  cases hs : a.rewrite.src k with
  | none => rfl
  | some j => simp only [h j (a.src_reads k hk j hs)]

/-- Neither operation writes what the other reads. -/
structure Independent (a b : LocalOp K V) : Prop where
  left : ∀ k ∈ a.writes, k ∉ b.reads
  right : ∀ k ∈ b.writes, k ∉ a.reads

theorem Independent.symm (h : Independent a b) : Independent b a := ⟨h.right, h.left⟩

theorem Independent.node_eq (h : Independent a b) (s : LinkedStore K V) {k : K}
    (hk : k ∈ b.reads) : (a.rewrite.apply s).node k = s.node k :=
  a.node_frame s fun hw => h.left k hw hk

/-- The two orders trace every name to the same origin. -/
theorem Independent.src_comm (h : Independent a b) (k : K) :
    (b.rewrite.src k).bind a.rewrite.src = (a.rewrite.src k).bind b.rewrite.src := by
  have key : ∀ {a b : LocalOp K V}, Independent a b → k ∈ b.writes →
      (b.rewrite.src k).bind a.rewrite.src = (a.rewrite.src k).bind b.rewrite.src := by
    intro a b h hk
    have ha : k ∉ a.writes := fun hw => h.left k hw (b.writes_reads hk)
    rw [a.src_frame k ha]
    cases hs : b.rewrite.src k with
    | none => simp [hs]
    | some j =>
      have hj : j ∉ a.writes := fun hw => h.left j hw (b.src_reads k hk j hs)
      simp [a.src_frame j hj, hs]
  by_cases hb : k ∈ b.writes
  · exact key h hb
  · by_cases ha : k ∈ a.writes
    · exact (key h.symm ha).symm
    · rw [a.src_frame k ha, b.src_frame k hb]
      simp [a.src_frame k ha, b.src_frame k hb]

/-- Links after both operations, in terms of the origins of the two names. -/
theorem Independent.linked_iff (h : Independent a b) (s : LinkedStore K V) (x y : K) :
    (b.rewrite.apply (a.rewrite.apply s)).linked x y = true ↔
      x ≠ y ∧ ∃ p q, (b.rewrite.src x).bind a.rewrite.src = some p ∧
        (b.rewrite.src y).bind a.rewrite.src = some q ∧
        ((p = q ∧ p ∈ s.names) ∨ s.linked p q = true) := by
  have hn : ∀ {j p}, a.rewrite.src j = some p → p ∈ s.names →
      j ∈ (a.rewrite.apply s).names := by
    intro j p hj hp
    rw [LinkedStore.mem_names, Rewrite.apply_node, Rewrite.nodeAt_isSome_of_src hj]
    exact (s.mem_names p).1 hp
  simp only [Rewrite.apply_linked, Rewrite.linkedAt_eq_true, Option.bind_eq_some_iff]
  constructor
  · rintro ⟨hne, j, k, hj, hk, hjk⟩
    refine ⟨hne, ?_⟩
    rcases hjk with ⟨rfl, hmem⟩ | ⟨-, p, q, hp, hq, hpq⟩
    · -- one value under two names: one of them was written by `b`, which therefore read it
      have hjr : j ∈ b.reads := by
        by_contra hjr
        have hx : x ∉ b.writes := fun hw => hjr (b.src_reads x hw j hj)
        have hy : y ∉ b.writes := fun hw => hjr (b.src_reads y hw j hk)
        rw [b.src_frame x hx] at hj
        rw [b.src_frame y hy] at hk
        exact hne ((Option.some.inj hj).trans (Option.some.inj hk).symm)
      have hsr := a.src_frame j fun hw => h.left j hw hjr
      have hs : j ∈ s.names := by
        rw [LinkedStore.mem_names, h.node_eq s hjr] at hmem
        exact (s.mem_names j).2 hmem
      exact ⟨j, j, ⟨j, hj, hsr⟩, ⟨j, hk, hsr⟩, .inl ⟨rfl, hs⟩⟩
    · exact ⟨p, q, ⟨j, hj, hp⟩, ⟨k, hk, hq⟩, hpq⟩
  · rintro ⟨hne, p, q, ⟨j, hj, hp⟩, ⟨k, hk, hq⟩, hpq⟩
    refine ⟨hne, j, k, hj, hk, ?_⟩
    by_cases hjk : j = k
    · have hmem : p ∈ s.names := hpq.elim And.right (s.linked_names _ _)
      exact .inl ⟨hjk, hn hp hmem⟩
    · exact .inr ⟨hjk, p, q, hp, hq, hpq⟩

/-- Independent rewrites commute. -/
theorem Independent.apply_comm (h : Independent a b) (s : LinkedStore K V) :
    b.rewrite.apply (a.rewrite.apply s) = a.rewrite.apply (b.rewrite.apply s) := by
  refine LinkedStore.ext_node (fun k => ?_) (fun x y => ?_)
  · by_cases hb : k ∈ b.writes
    · have ha : k ∉ a.writes := fun hw => h.left k hw (b.writes_reads hb)
      rw [a.node_frame _ ha]
      exact b.node_congr (fun j hj => h.node_eq s hj) hb
    · rw [b.node_frame _ hb]
      by_cases ha : k ∈ a.writes
      · exact (a.node_congr (fun j hj => h.symm.node_eq s hj) ha).symm
      · rw [a.node_frame _ ha, a.node_frame _ ha, b.node_frame _ hb]
  · rw [Bool.eq_iff_iff, h.linked_iff, h.symm.linked_iff]
    simp only [h.src_comm]

/-- What `b` owns has no second link after `b`'s neighbour ran only if it had none before. -/
theorem Independent.unaliased_before (h : Independent a b) (ha : a.Enabled s)
    {k : K} (hk : k ∈ b.owns) (hu : (a.rewrite.apply s).Unaliased k) : s.Unaliased k := by
  have hkr : k ∈ b.reads := b.writes_reads (b.owns_writes hk)
  have hka : a.rewrite.src k = some k := a.src_frame k fun hw => h.left k hw hkr
  intro x hx
  by_contra hl
  replace hl : s.linked k x = true := by simpa using hl
  -- a second link survives `a` under the name `j` that `x` is moved to
  have survives : ∀ j, a.rewrite.src j = some x → False := by
    intro j hj
    have hjk : j ≠ k := by
      rintro rfl
      exact hx (Option.some.inj (hj.symm.trans hka))
    have := hu j hjk
    rw [Rewrite.apply_linked] at this
    have ht : a.rewrite.linkedAt s k j = true :=
      Rewrite.linkedAt_eq_true.2 ⟨hjk.symm, k, x, hka, hj, .inr hl⟩
    simp [ht] at this
  by_cases hxw : x ∈ a.writes
  · have hxl : s.linked x k = true := by rwa [s.linked_symm]
    have hxn : (s.node x).isSome := (s.mem_names x).1 (s.linked_names _ _ hxl)
    rcases a.kept s ha.1 x hxw hxn with ho | ⟨j, hj⟩
    · simp [ha.2 x ho k hx.symm] at hxl
    · exact survives j hj
  · exact survives x (a.src_frame x hxw)

/-- `b` gives no second link to what `a` owns. -/
theorem Independent.unaliased_after (h : Independent a b) {k : K} (hk : k ∈ a.owns)
    (hu : s.Unaliased k) : (b.rewrite.apply s).Unaliased k := by
  have hkw : k ∈ a.writes := a.owns_writes hk
  have hkb : b.rewrite.src k = some k :=
    b.src_frame k fun hw => h.right k hw (a.writes_reads hkw)
  intro x hx
  by_contra hl
  rw [Bool.not_eq_false, Rewrite.apply_linked, Rewrite.linkedAt_eq_true] at hl
  obtain ⟨-, k', y, hk', hy, hky⟩ := hl
  obtain rfl : k = k' := Option.some.inj (hkb.symm.trans hk')
  have hyk : y ≠ k := by
    rintro rfl
    by_cases hxw : x ∈ b.writes
    · exact h.left _ hkw (b.src_reads x hxw _ hy)
    · exact hx (Option.some.inj ((b.src_frame x hxw).symm.trans hy))
  rcases hky with ⟨rfl, -⟩ | hli
  · exact hyk rfl
  · simp [hu y hyk] at hli

/-- **Independent operations may be exchanged.** -/
theorem Independent.swaps (h : Independent a b) : Schedule.Swaps step a b := by
  intro s u t hu ht
  obtain ⟨ha, rfl⟩ := step_eq_some.1 hu
  obtain ⟨hb, rfl⟩ := step_eq_some.1 ht
  refine ⟨b.rewrite.apply s, step_eq_some.2 ⟨⟨?_, fun k hk => ?_⟩, rfl⟩,
    step_eq_some.2 ⟨⟨?_, fun k hk => ?_⟩, (h.apply_comm s).symm⟩⟩
  · exact b.pre_local _ _ (fun k hk => h.node_eq s hk) hb.1
  · exact h.unaliased_before ha hk (hb.2 k hk)
  · exact a.pre_local _ _ (fun k hk => (h.symm.node_eq s hk).symm) ha.1
  · exact h.unaliased_after hk (ha.2 k hk)

end LocalOp

end Chevalier
