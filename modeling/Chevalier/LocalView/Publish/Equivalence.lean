import Chevalier.LocalView.Publish.Plan

/-!
# Publication planning is equivalent to log order

`foldCreations_covers` treats the first pass of the planner and `scheduleRuns_covers` the second;
each rewrite moves an event only past events it is independent of. Together with the invariant of
the batch loop they give `planRuns_publishes_walOrder`: the runs planned for the next batch, with
the members of a content run uploaded in any order, leave the replica in the state that applying
every covered event in log order leaves it in.
-/

namespace Chevalier.LocalView

open PublishEnv Schedule PlanSlot MountMutation List

/-! ## Slots of the first pass -/

namespace PlanSlot

/-- The planned event differs from the batch's event at most in a creation moved onto it. -/
def Faithful (slot : PlanSlot) : Prop :=
  slot.planned.mutation = slot.event.mutation ∨
    ∃ path mode fileId base mode', slot.event.mutation = .replaceFile path mode fileId base ∧
      slot.planned.mutation = .replaceFile path mode' fileId (some absentPrecondition)

/-- Nothing has been planned for the slot yet. -/
def Untouched (slot : PlanSlot) : Prop := slot.planned = slot.event ∧ slot.folded = false

theorem untouched_ofEvent (e : PublishEvent) : (ofEvent e).Untouched := ⟨rfl, rfl⟩

variable {slot : PlanSlot}

theorem Faithful.keys (h : slot.Faithful) :
    slot.planned.dependencyKeys = slot.event.dependencyKeys := by
  unfold PublishEvent.dependencyKeys
  rcases h with h | ⟨_, _, _, _, _, he, hp⟩
  · rw [h]
  · rw [he, hp]
    rfl

theorem Faithful.isLocalOnly (h : slot.Faithful) :
    slot.planned.mutation.isLocalOnly = slot.event.mutation.isLocalOnly := by
  rcases h with h | ⟨_, _, _, _, _, he, hp⟩
  · rw [h]
  · rw [he, hp]
    rfl

theorem Faithful.forwardsNoFileId (h : slot.Faithful)
    (hid : slot.event.mutation.ForwardsNoFileId) : slot.planned.mutation.ForwardsNoFileId := by
  rcases h with h | ⟨_, _, _, _, _, he, hp⟩
  · rwa [h]
  · rw [he] at hid
    rw [hp]
    exact hid

theorem modeSetOn_eq_some {path : MountPath} {mode : Nat} (h : slot.modeSetOn path = some mode) :
    slot.event.mutation = .setMode path mode := by
  unfold modeSetOn at h
  split at h
  · rename_i c mode' hm
    split_ifs at h with hp
    cases h
    rw [hm, hp]
  · cases h

theorem wire_of_untouched (h : slot.Untouched) (hl : slot.event.mutation.isLocalOnly = false) :
    slot.wire = some slot.event := by
  rw [wire, h.1, h.2, hl]
  simp

/-- The wire item of a slot that sets the path's mode is that event. -/
theorem wire_setMode {path : MountPath} {mode : Nat}
    (h : slot.event.mutation.primaryPath = path → slot.Untouched)
    (hmo : slot.modeSetOn path = some mode) : slot.wire = some slot.event := by
  have hm := modeSetOn_eq_some hmo
  exact wire_of_untouched (h (by rw [hm]; rfl)) (by rw [hm]; rfl)

theorem wire_eq_some {e : PublishEvent} :
    slot.wire = some e ↔ (slot.folded = false ∧ slot.planned.mutation.isLocalOnly = false) ∧
      slot.planned = e := by
  unfold wire
  split_ifs with h <;> simp [h]

end PlanSlot

def wireItems (slots : List PlanSlot) : List PublishEvent := slots.filterMap wire

@[simp] theorem wireItems_nil : wireItems [] = [] := rfl

theorem wireItems_cons (slot : PlanSlot) (s : List PlanSlot) :
    wireItems (slot :: s) = slot.wire.toList ++ wireItems s := by
  cases h : slot.wire <;> simp [wireItems, h]

theorem wireItems_append (l l' : List PlanSlot) :
    wireItems (l ++ l') = wireItems l ++ wireItems l' := filterMap_append

theorem wire_folded (slot : PlanSlot) : ({ slot with folded := true } : PlanSlot).wire = none := by
  simp [wire]

/-! ## Moving a creation to its write -/

section Fold

variable {env : PublishEnv} {path : MountPath} {keys : List DependencyKey}

/-- The slot does not stand in the way of an event on the path: it carries no wire item, sets the
path's own mode and is still untouched, or does not conflict. -/
def Passable (path : MountPath) (keys : List DependencyKey) (slot : PlanSlot) : Prop :=
  slot.Faithful ∧ (slot.event.mutation.primaryPath = path → slot.Untouched) ∧
    (slot.modeSetOn path = none →
      slot.event.mutation.isLocalOnly = true ∨
        dependencySetsConflict keys slot.event.dependencyKeys = false)

/-- An event with the keys swaps with the wire item of a passable slot. -/
theorem Passable.orderless {slot : PlanSlot} {e item : PublishEvent}
    (h : Passable path keys slot) (hk : e.dependencyKeys = keys)
    (hm : slot.modeSetOn path = none) (hi : slot.wire = some item) :
    Orderless e item := by
  obtain ⟨⟨-, -⟩, rfl⟩ := wire_eq_some.1 hi
  rcases h.2.2 hm with hl | hc
  · exact .inr (.inl (by rw [h.1.isLocalOnly, hl]))
  · exact .inr (.inr (by rw [hk, h.1.keys, hc]))

/-- A creation moves past the slots between it and its write, taking on their modes. -/
theorem absorbModes_covers {c : Nat → PublishEvent}
    (hc : ∀ mode, (c mode).mutation = .createFile path mode)
    (hk : ∀ mode, (c mode).dependencyKeys = keys) (sl : List PlanSlot) :
    ∀ mode, (∀ slot ∈ sl, Passable path keys slot) →
      Covers env.opStep (c mode :: wireItems sl)
        (wireItems (absorbModes path mode sl).2 ++ [c (absorbModes path mode sl).1]) := by
  induction sl with
  | nil => intro mode _; exact Covers.refl _
  | cons slot rest ih =>
    intro mode hp
    have hsl := hp slot (by simp)
    have hr := fun m => ih m fun s hs => hp s (by simp [hs])
    rw [wireItems_cons, absorbModes]
    cases hm : slot.modeSetOn path with
    | some mode' =>
      rw [wire_setMode hsl.2.1 hm]
      simp only [wireItems_cons, wire_folded, Option.toList_none, nil_append,
        Option.toList_some, singleton_append]
      have hf : Covers env.opStep [c mode, slot.event] [c mode'] :=
        create_edit (opOf_createFile (hc mode)) (opOf_setMode (modeSetOn_eq_some hm))
          (opOf_createFile (hc mode'))
      exact (hf.append_right _).trans (hr mode')
    | none =>
      simp only [wireItems_cons]
      cases hw : slot.wire with
      | none => simpa using hr mode
      | some item =>
        have hsw := env.swaps_of_orderless (hsl.orderless (hk mode) hm hw)
        have hmo : Covers env.opStep (c mode :: item :: wireItems rest)
            (item :: c mode :: wireItems rest) := hsw.covers.append_right _
        simpa using hmo.trans ((hr mode).cons item)

/-- A creating write takes on the modes set after it, up to the next conflict. -/
theorem absorbTrailingModes_covers {write : Nat → PublishEvent} {fi : Option String}
    {b : List UInt8}
    (hw : ∀ mode, (write mode).mutation = .replaceFile path mode fi (some absentPrecondition))
    (hk : ∀ mode, (write mode).dependencyKeys = keys)
    (hb : ∀ mode, env.chainBytes (write mode) = b) (sl : List PlanSlot) :
    ∀ mode, (∀ slot ∈ sl,
        slot.Faithful ∧ (slot.event.mutation.primaryPath = path → slot.Untouched)) →
      Covers env.opStep (write mode :: wireItems sl)
        (write (absorbTrailingModes path keys mode sl).1 ::
          wireItems (absorbTrailingModes path keys mode sl).2) := by
  induction sl with
  | nil => intro mode _; exact Covers.refl _
  | cons slot rest ih =>
    intro mode hsl
    have hr := fun m => ih m fun s hs => hsl s (by simp [hs])
    obtain ⟨hf, hu⟩ := hsl slot (by simp)
    rw [wireItems_cons, absorbTrailingModes]
    cases hm : slot.modeSetOn path with
    | some mode' =>
      rw [wire_setMode hu hm]
      simp only [wireItems_cons, wire_folded, Option.toList_none, nil_append,
        Option.toList_some, singleton_append]
      have hfu : Covers env.opStep [write mode, slot.event] [write mode'] :=
        create_edit (opOf_replaceFile_absent (hw mode))
          (opOf_setMode (modeSetOn_eq_some hm))
          (by rw [opOf_replaceFile_absent (hw mode'), hb, hb]; rfl)
      exact (hfu.append_right _).trans (hr mode')
    | none =>
      split_ifs with hbr
      · rw [wireItems_cons]
        exact Covers.refl _
      · simp only [wireItems_cons]
        cases hwi : slot.wire with
        | none => simpa using hr mode
        | some item =>
          have hp : Passable path keys slot := by
            refine ⟨hf, hu, fun _ => ?_⟩
            by_cases hl : slot.event.mutation.isLocalOnly = true
            · exact .inl hl
            · exact .inr (by simpa [hl] using hbr)
          -- the write steps over the item, takes on the later modes, and steps back
          have ho : ∀ m, Swaps env.opStep (write m) item ∧
              Swaps env.opStep item (write m) := fun m =>
            have h := hp.orderless (hk m) hm hwi
            ⟨env.swaps_of_orderless h, env.swaps_of_orderless h.symm⟩
          have hfo : Covers env.opStep (write mode :: item :: wireItems rest)
              (item :: write mode :: wireItems rest) := (ho mode).1.covers.append_right _
          have hba : ∀ m (l : List PublishEvent),
              Covers env.opStep (item :: write m :: l) (write m :: item :: l) :=
            fun m l => (ho m).2.covers.append_right l
          exact (hfo.trans ((hr mode).cons item)).trans (hba _ _)

end Fold

/-! ## What folding leaves for later creations -/

/-- A slot whose event is kept and whose plan changed only where it is about the path. -/
def Retouched (path : MountPath) (slot slot' : PlanSlot) : Prop :=
  slot'.event = slot.event ∧ (slot.event.mutation.primaryPath = path ∨ slot' = slot) ∧
    (slot.Faithful → slot'.Faithful)

theorem Retouched.refl (path : MountPath) (slot : PlanSlot) : Retouched path slot slot :=
  ⟨rfl, .inr rfl, id⟩

variable {path : MountPath} {slot head : PlanSlot} {mode : Nat}

theorem retouched_fold
    (h : slot.modeSetOn path = some mode) :
    Retouched path slot { slot with folded := true } :=
  ⟨rfl, .inl (by rw [modeSetOn_eq_some h]; rfl), id⟩

theorem absorbModes_retouched (path : MountPath) (s : List PlanSlot) :
    ∀ mode, List.Forall₂ (Retouched path) s (absorbModes path mode s).2 := by
  induction s with
  | nil => intro _; exact List.Forall₂.nil
  | cons slot _ ih =>
    intro mode
    rw [absorbModes]
    cases hm : slot.modeSetOn path with
    | some mode' => exact List.Forall₂.cons (retouched_fold hm) (ih mode')
    | none => exact List.Forall₂.cons (Retouched.refl path slot) (ih mode)

theorem retouched_events {s s' : List PlanSlot}
    (h : List.Forall₂ (Retouched path) s s') :
    s'.map event = s.map event := by
  induction h with
  | nil => rfl
  | cons hh _ ih => rw [map_cons, map_cons, hh.1, ih]

def Creates (path : MountPath) (slot : PlanSlot) : Prop :=
  ∃ mode, slot.event.mutation = .createFile path mode

theorem not_creates_of_modeSetOn
    (h : slot.modeSetOn path = some mode) : ¬ Creates path slot := by
  rintro ⟨_, hm⟩
  rw [modeSetOn_eq_some h] at hm
  cases hm

theorem not_creates_of_not_conflict (mode : Nat)
    (h : slot.event.mutation.isLocalOnly = true ∨
      dependencySetsConflict (createFile path mode).dependencyKeys
        slot.event.dependencyKeys = false) : ¬ Creates path slot := by
  rintro ⟨_, hm⟩
  rcases h with h | h
  · rw [hm] at h
    cases h
  · rw [PublishEvent.dependencyKeys, hm, not_conflict_iff] at h
    exact h.1 path (by simp [changedPaths, affectedPaths,
      primaryPath]) path (by simp [affectedPaths,
      primaryPath]) prefix_rfl

/-- Absorbing trailing modes changes a stretch of slots without a creation of the path, and leaves
the rest alone. -/
theorem absorbTrailingModes_retouched (path : MountPath) (c : Nat)
    (s : List PlanSlot) :
    ∀ mode, ∃ f f' back, s = f ++ back ∧
      (absorbTrailingModes path (createFile path c).dependencyKeys mode s).2 = f' ++ back ∧
      List.Forall₂ (Retouched path) f f' ∧ ∀ slot ∈ f, ¬ Creates path slot := by
  induction s with
  | nil => intro _; exact ⟨[], [], [], rfl, rfl, List.Forall₂.nil, by simp⟩
  | cons slot rest ih =>
    intro mode
    rw [absorbTrailingModes]
    cases hm : slot.modeSetOn path with
    | some mode' =>
      obtain ⟨f, f', back, hre, hr, hf, hnot⟩ := ih mode'
      exact ⟨slot :: f, { slot with folded := true } :: f', back, by simp [hre],
        by simp [hr], List.Forall₂.cons (retouched_fold hm) hf,
        List.forall_mem_cons.2 ⟨not_creates_of_modeSetOn hm, hnot⟩⟩
    | none =>
      split_ifs with hb
      · exact ⟨[], [], slot :: rest, rfl, rfl, List.Forall₂.nil, by simp⟩
      · obtain ⟨f, f', back, hre, hr, hf, hnot⟩ := ih mode
        refine ⟨slot :: f, slot :: f', back, by simp [hre], by simp [hr],
          List.Forall₂.cons (Retouched.refl path slot) hf,
          List.forall_mem_cons.2 ⟨not_creates_of_not_conflict c ?_, hnot⟩⟩
        by_cases hl : slot.event.mutation.isLocalOnly = true
        · exact .inl hl
        · exact .inr (by simpa [hl] using hb)

/-- A creation still to be processed finds every later slot of its path untouched. -/
def Pending (slot later : PlanSlot) : Prop :=
  Creates later.event.mutation.primaryPath slot → later.Untouched

/-- What the folding loop keeps of the slots it has not reached. -/
structure TodoInv (slots : List PlanSlot) : Prop where
  faithful : ∀ slot ∈ slots, slot.Faithful
  sealedWithoutBase : ∀ slot ∈ slots, slot.event.mutation.SealedWithoutBase
  creation : ∀ slot ∈ slots, ∀ path, Creates path slot → slot.Untouched
  pending : slots.Pairwise Pending

variable {rest : List PlanSlot}

theorem TodoInv.tail (h : TodoInv (head :: rest)) :
    TodoInv rest where
  faithful slot hs := h.faithful slot (by simp [hs])
  sealedWithoutBase slot hs := h.sealedWithoutBase slot (by simp [hs])
  creation slot hs := h.creation slot (by simp [hs])
  pending := (List.pairwise_cons.1 h.pending).2

/-- A retouched slot of another path is the slot itself. -/
theorem Retouched.pending {slot' l l' : PlanSlot}
    (hs : Retouched path slot slot') (hl : Retouched path l l')
    (hnot : ¬ Creates path slot) (h : Pending slot l) : Pending slot' l' := by
  intro hc
  rw [hl.1] at hc
  have hc' : Creates l.event.mutation.primaryPath slot := by
    obtain ⟨mode, hm⟩ := hc
    exact ⟨mode, by rw [← hm, hs.1]⟩
  rcases hl.2.1 with hp | rfl
  · rw [hp] at hc'
    exact absurd hc' hnot
  · exact h hc'

variable {f f' : List PlanSlot}

/-- A slot of a list with a retouched front comes from a slot, which is the slot itself or creates
no path that was retouched. -/
theorem exists_retouched (h : List.Forall₂ (Retouched path) f f')
    (hnot : ∀ slot ∈ f, ¬ Creates path slot) {back : List PlanSlot} {slot' : PlanSlot}
    (hmem : slot' ∈ f' ++ back) :
    ∃ slot ∈ f ++ back, Retouched path slot slot' ∧ (slot' = slot ∨ ¬ Creates path slot) := by
  induction h with
  | nil => exact ⟨slot', hmem, Retouched.refl path slot', .inl rfl⟩
  | cons hh _ ih =>
    rcases List.mem_cons.1 hmem with rfl | hmem
    · exact ⟨_, mem_cons_self, hh, .inr (hnot _ mem_cons_self)⟩
    · obtain ⟨slot, hsl, hr⟩ := ih (fun s hs => hnot s (mem_cons_of_mem _ hs)) hmem
      exact ⟨slot, mem_cons_of_mem _ hsl, hr⟩

theorem pairwise_pending_of_retouched
    (hf : List.Forall₂ (Retouched path) f f')
    (hnot : ∀ slot ∈ f, ¬ Creates path slot) (back : List PlanSlot)
    (h : (f ++ back).Pairwise Pending) : (f' ++ back).Pairwise Pending := by
  induction hf with
  | nil => exact h
  | cons hsl hr ih =>
    rename_i slot slot' rest rest'
    rw [cons_append, pairwise_cons] at h ⊢
    have hn' : ∀ slot ∈ rest, ¬ Creates path slot := fun s hs => hnot s (by simp [hs])
    refine ⟨fun l' hl' => ?_, ih hn' h.2⟩
    obtain ⟨l, hl, hre, -⟩ := exists_retouched hr hn' hl'
    exact hsl.pending hre (hnot slot (by simp)) (h.1 l hl)

/-- Retouching a stretch without a creation of the path keeps the invariant. -/
theorem TodoInv.retouch {back : List PlanSlot}
    (h : TodoInv (f ++ back)) (hf : List.Forall₂ (Retouched path) f f')
    (hnot : ∀ slot ∈ f, ¬ Creates path slot) : TodoInv (f' ++ back) where
  faithful slot' hs' := by
    obtain ⟨slot, hs, hr, -⟩ := exists_retouched hf hnot hs'
    exact hr.2.2 (h.faithful slot hs)
  sealedWithoutBase slot' hs' := by
    obtain ⟨slot, hs, hr, -⟩ := exists_retouched hf hnot hs'
    rw [hr.1]
    exact h.sealedWithoutBase slot hs
  creation slot' hs' p hc := by
    obtain ⟨slot, hs, hr, hk⟩ := exists_retouched hf hnot hs'
    obtain ⟨mode, hm⟩ := hc
    rw [hr.1] at hm
    have hsa : slot' = slot := by
      -- a creation is about the path it creates
      refine hr.2.1.elim (fun hp => hk.resolve_right fun ho => ho ⟨mode, ?_⟩) id
      rw [hm, ← hp, hm]
      rfl
    exact hsa ▸ h.creation slot hs p ⟨mode, hm⟩
  pending := pairwise_pending_of_retouched hf hnot back h.pending

/-! ## The folding loop -/

theorem withMutation_self (e : PublishEvent) : e.withMutation e.mutation = e := rfl

/-- One creation folded, or nothing done. -/
structure HeadFolded (env : PublishEnv) (head : PlanSlot) (rest : List PlanSlot)
    (head' : PlanSlot) (rest' : List PlanSlot) : Prop where
  result : foldHead head rest = head' :: rest'
  events : (head' :: rest').map event = (head :: rest).map event
  faithful : head'.Faithful
  todo : TodoInv rest'
  covers : Covers env.opStep (wireItems (head :: rest)) (wireItems (head' :: rest'))

theorem HeadFolded.unchanged {env : PublishEnv}
    (h : TodoInv (head :: rest)) (hr : foldHead head rest = head :: rest) :
    HeadFolded env head rest head rest :=
  ⟨hr, rfl, h.faithful head (by simp), h.tail, Covers.refl _⟩

/-- What the fold test says about the slots between a creation and its write. -/
theorem between_passable {write : PlanSlot} {be af : List PlanSlot} (hinv : TodoInv (head :: (be ++ write :: af)))
    (hm : head.event.mutation = .createFile path mode)
    (hf : creationFoldsIntoWrite head.event write.event (be.map event) = true) :
    ∀ slot ∈ be, Passable path head.event.dependencyKeys slot := by
  intro slot hs
  have hmem : slot ∈ be ++ write :: af := mem_append_left _ hs
  refine ⟨hinv.faithful slot (mem_cons_of_mem _ hmem), fun hpa => ?_, fun hmo => ?_⟩
  · have hp := (List.pairwise_cons.1 hinv.pending).1 slot hmem
    exact hp ⟨mode, by rw [hm, hpa]⟩
  · unfold creationFoldsIntoWrite at hf
    rw [hm] at hf
    split at hf
    · rename_i cr mode' w mode'' fi base heq hw
      cases heq
      split_ifs at hf
      simp only [Bool.not_eq_true', any_eq_false, mem_map, forall_exists_index, and_imp,
        forall_apply_eq_imp_iff₂] at hf
      have hs' := hf slot hs
      by_cases hl : slot.event.mutation.isLocalOnly = true
      · exact .inl hl
      · refine .inr ?_
        rw [if_neg hl] at hs'
        unfold modeSetOn at hmo
        split at hs'
        · rename_i c m hse
          rw [hse] at hmo
          have hne : c ≠ path := by
            intro heq
            simp [heq] at hmo
          simpa [hne] using hs'
        · simpa using hs'
    · cases hf

theorem PlanSlot.writes_eq_true
    (h : slot.writes path = true) :
    ∃ mode fi base, slot.event.mutation = .replaceFile path mode fi base := by
  unfold writes at h
  split at h
  · rename_i w mode fi base hm
    obtain rfl : w = path := by simpa using h
    exact ⟨mode, fi, base, hm⟩
  · cases h

section FoldHead

variable {head write : PlanSlot} {be af : List PlanSlot} {path : MountPath} {mode : Nat}

/-- The slots behind a folded creation still satisfy the invariant. -/
theorem fold_todo (hinv : TodoInv (head :: (be ++ write :: af)))
    (hm : head.event.mutation = .createFile path mode) (hwr : write.writes path = true)
    (hpa : ∀ slot ∈ be, Passable path head.event.dependencyKeys slot)
    (b' : List PlanSlot) (hb : List.Forall₂ (Retouched path) be b')
    (fm mode' : Nat) :
    TodoInv (b' ++ { write with planned := write.planned.withCreation fm } ::
      (absorbTrailingModes path head.event.dependencyKeys mode' af).2) := by
  obtain ⟨m, fi, base, hw⟩ := writes_eq_true hwr
  have hk : head.event.dependencyKeys = (createFile path mode).dependencyKeys := by
    rw [PublishEvent.dependencyKeys, hm]
  obtain ⟨f, _, back, ha, hr, hfr, hnot⟩ :=
    absorbTrailingModes_retouched path mode af mode'
  have hwri : Retouched path write
      { write with planned := write.planned.withCreation fm } := by
    refine ⟨rfl, .inl (by rw [hw]; rfl), fun hf => ?_⟩
    rcases hf with h | ⟨p, m₁, i, b, _, he, hp⟩
    · rw [hw] at h
      refine .inr ⟨path, m, fi, base, fm, hw, ?_⟩
      simp only [PublishEvent.withCreation, h]
      rfl
    · refine .inr ⟨p, m₁, i, b, fm, he, ?_⟩
      simp only [PublishEvent.withCreation, hp]
      rfl
  have hi' : TodoInv ((be ++ write :: f) ++ back) := by
    have := hinv.tail
    rw [ha] at this
    simpa using this
  have hall := rel_append hb (List.Forall₂.cons hwri hfr)
  rw [hk, hr]
  have hg := hi'.retouch hall fun slot hs => ?_
  · simpa using hg
  rcases List.mem_append.1 hs with hmem | hmem
  · rintro ⟨m', hc⟩
    have hs' := (hpa slot hmem).2.2 (by simp [modeSetOn, hc])
    rw [hk] at hs'
    exact not_creates_of_not_conflict mode hs' ⟨m', hc⟩
  · rcases List.mem_cons.1 hmem with rfl | hmem
    · rintro ⟨m', hc⟩
      rw [hw] at hc
      cases hc
    · exact hnot slot hmem

/-- A creation, the slots up to its write and the slots behind it, folded. -/
theorem fold_covers (env : PublishEnv) (hinv : TodoInv (head :: (be ++ write :: af)))
    (hm : head.event.mutation = .createFile path mode) (hwrit : write.writes path = true)
    (hpa : ∀ slot ∈ be, Passable path head.event.dependencyKeys slot) :
    Covers env.opStep (wireItems (head :: (be ++ write :: af)))
      (wireItems ((absorbModes path mode be).2 ++
        { write with
          planned := write.planned.withCreation (absorbTrailingModes path
            head.event.dependencyKeys (absorbModes path mode be).1 af).1 } ::
        (absorbTrailingModes path head.event.dependencyKeys
          (absorbModes path mode be).1 af).2)) := by
  obtain ⟨m, fi, base, hw⟩ := writes_eq_true hwrit
  have hwri : write ∈ head :: (be ++ write :: af) := by simp
  have hse := hinv.sealedWithoutBase write hwri
  rw [hw] at hse
  obtain rfl : base = none := hse
  have hp := (List.pairwise_cons.1 hinv.pending).1
  have hu : ∀ slot ∈ be ++ write :: af,
      slot.event.mutation.primaryPath = path → slot.Untouched := fun slot hs hpat =>
    hp slot hs ⟨mode, by rw [hm, hpat]⟩
  have hwr : write.Untouched := hu write (by simp) (by rw [hw]; rfl)
  have hh : head.Untouched := hinv.creation head (by simp) path ⟨mode, hm⟩
  -- the three events the creation is carried through
  set c : Nat → PublishEvent := fun m => head.event.withMutation (.createFile path m) with hcr
  set creating : Nat → PublishEvent := fun m => write.event.withCreation m with hc
  have hcreating_mutation : ∀ m, (creating m).mutation =
      .replaceFile path m fi (some absentPrecondition) := by
    intro m
    simp only [hc, PublishEvent.withCreation, hw]
    rfl
  have hcreating_bytes : ∀ m, env.chainBytes (creating m) = env.chainBytes write.event := by
    intro m
    simp only [hc, PublishEvent.withCreation, hw]
    rfl
  have hk : head.event.dependencyKeys = (createFile path mode).dependencyKeys := by
    rw [PublishEvent.dependencyKeys, hm]
  have hst : c mode = head.event := by
    simp only [hcr, ← hm, withMutation_self]
  have hcreating_keys : ∀ m, (creating m).dependencyKeys = head.event.dependencyKeys := by
    intro m
    rw [hk, PublishEvent.dependencyKeys, hcreating_mutation]
    rfl
  set first := absorbModes path mode be with hfi
  set last := absorbTrailingModes path head.event.dependencyKeys first.1 af with hl
  have hmo : Covers env.opStep (c mode :: wireItems be)
      (wireItems first.2 ++ [c first.1]) :=
    absorbModes_covers (fun _ => rfl) (fun _ => by rw [hk]; rfl) be mode hpa
  have hf : Covers env.opStep [c first.1, write.event] [creating first.1] :=
    create_edit (opOf_createFile rfl) (opOf_replaceFile hw)
      (by rw [opOf_replaceFile_absent (hcreating_mutation _), hcreating_bytes]; rfl)
  have ht : Covers env.opStep (creating first.1 :: wireItems af)
      (creating last.1 :: wireItems last.2) :=
    absorbTrailingModes_covers hcreating_mutation hcreating_keys hcreating_bytes af first.1
      fun slot hs => ⟨hinv.faithful slot (by simp [hs]), hu slot (by simp [hs])⟩
  have hwi : ({ write with planned := write.planned.withCreation last.1 } : PlanSlot).wire =
      some (creating last.1) := by
    rw [wire_eq_some]
    refine ⟨⟨hwr.2, ?_⟩, by rw [hwr.1]⟩
    rw [hwr.1]
    change (creating last.1).mutation.isLocalOnly = false
    rw [hcreating_mutation]
    rfl
  rw [wireItems_cons, wireItems_append, wireItems_cons,
    wire_of_untouched hh (by rw [hm]; rfl),
    wire_of_untouched hwr (by rw [hw]; rfl), wireItems_append, wireItems_cons, hwi,
    ← hst]
  have hch := ((hmo.append_right (write.event :: wireItems af)).trans
    (by simpa using (hf.append_right (wireItems af)).append_left (wireItems first.2))).trans
    (ht.append_left (wireItems first.2))
  simpa using hch

end FoldHead

/-- Folding the creation at the head keeps what the loop needs and covers the events before. -/
theorem foldHead_spec (env : PublishEnv) {head : PlanSlot}
    (hinv : TodoInv (head :: rest)) : ∃ head' rest', HeadFolded env head rest head' rest' := by
  by_cases hc : ∃ path, Creates path head
  swap
  · refine ⟨head, rest, HeadFolded.unchanged hinv ?_⟩
    unfold foldHead
    split
    · rename_i path mode hm
      exact absurd ⟨path, mode, hm⟩ hc
    · rfl
  obtain ⟨path, mode, hm⟩ := hc
  rcases hs : rest.span fun slot => !slot.writes path with ⟨be, _ | ⟨write, af⟩⟩
  · exact ⟨head, rest, HeadFolded.unchanged hinv (by simp only [foldHead, hm, hs])⟩
  by_cases hf : creationFoldsIntoWrite head.event write.event (be.map event) = true
  swap
  · exact ⟨head, rest, HeadFolded.unchanged hinv (by
      simp only [foldHead, hm, hs]
      exact if_neg hf)⟩
  -- the split the span found
  have hsp : rest = be ++ write :: af ∧ write.writes path = true := by
    rw [span_eq_takeWhile_dropWhile, Prod.mk.injEq] at hs
    have hh := head?_dropWhile_not (fun slot : PlanSlot => !slot.writes path) rest
    rw [hs.2] at hh
    exact ⟨by rw [← hs.1, ← hs.2, takeWhile_append_dropWhile], by simpa using hh⟩
  obtain ⟨hr, hw⟩ := hsp
  rw [hr] at hinv
  have hp := between_passable hinv hm hf
  set first := absorbModes path mode be with hfi
  set last := absorbTrailingModes path head.event.dependencyKeys first.1 af with hl
  have hb := absorbModes_retouched path be mode
  refine ⟨{ head with folded := true },
    first.2 ++ { write with planned := write.planned.withCreation last.1 } :: last.2, ?_, ?_, ?_,
    fold_todo hinv hm hw hp _ hb _ _, ?_⟩
  · simp only [foldHead, hm, hs, hf, if_true]
    rfl
  · obtain ⟨_, f', back, ha, hre, hfr, -⟩ :=
      absorbTrailingModes_retouched path mode af first.1
    have hl' : last.2 = f' ++ back := by
      rw [hl, ← hre, PublishEvent.dependencyKeys, hm]
    rw [hr, hl', ha]
    simp [retouched_events hb, retouched_events hfr, hfi]
  · exact hinv.faithful head (by simp)
  · rw [hr, wireItems_cons _ (_ ++ _ :: last.2), wire_folded]
    exact fold_covers env hinv hm hw hp

/-- The invariant of the folding loop at an index. -/
structure FoldInv (env : PublishEnv) (events : List PublishEvent) (index : Nat)
    (slots : List PlanSlot) : Prop where
  events_eq : slots.map event = events
  faithful : ∀ slot ∈ slots, slot.Faithful
  todo : TodoInv (slots.drop index)
  covers : Covers env.opStep (wireItems (events.map ofEvent)) (wireItems slots)

theorem foldInv_start (env : PublishEnv) (e : List PublishEvent)
    (hse : ∀ ev ∈ e, ev.mutation.SealedWithoutBase) :
    FoldInv env e 0 (e.map ofEvent) where
  events_eq := by simp [ofEvent, Function.comp_def]
  faithful := by simp [ofEvent, Faithful]
  todo := by
    rw [drop_zero]
    refine ⟨by simp [ofEvent, Faithful], fun slot hs => ?_, fun slot hs _ _ => ?_, ?_⟩
    · obtain ⟨ev, he, rfl⟩ := List.mem_map.1 hs
      exact hse ev he
    · obtain ⟨ev, -, rfl⟩ := List.mem_map.1 hs
      exact untouched_ofEvent ev
    · refine pairwise_of_forall_mem_list fun slot _ l hl _ => ?_
      obtain ⟨ev, -, rfl⟩ := List.mem_map.1 hl
      exact untouched_ofEvent ev
  covers := Covers.refl _

variable {env : PublishEnv}

/-- One index of the folding loop. -/
theorem foldCreation_inv {e : List PublishEvent} {index : Nat}
    {slots : List PlanSlot} (h : FoldInv env e index slots) :
    FoldInv env e (index + 1) (foldCreation slots index) := by
  unfold foldCreation
  cases hd : slots.drop index with
  | nil =>
    have hta : slots.take index = slots := by
      rw [← take_append_drop index slots, hd]
      simp
    have hle : slots.length ≤ index := List.drop_eq_nil_iff.1 hd
    rw [hta, append_nil]
    have hnil : slots.drop (index + 1) = slots.drop index := by
      rw [hd, drop_eq_nil_iff]
      omega
    exact ⟨h.events_eq, h.faithful, by rw [hnil]; exact h.todo, h.covers⟩
  | cons head rest =>
    have ht := h.todo
    rw [hd] at ht
    obtain ⟨head', rest', hf⟩ := foldHead_spec env ht
    have hs : slots = slots.take index ++ head :: rest := by
      rw [← hd, take_append_drop]
    have hlen : (slots.take index).length = index := by
      rw [length_take]
      have : index < slots.length := by
        by_contra hle
        rw [List.drop_eq_nil_iff.2 (by omega)] at hd
        cases hd
      omega
    simp only [hf.result]
    refine ⟨?_, ?_, ?_, ?_⟩
    · rw [← h.events_eq]
      conv_rhs => rw [hs]
      rw [map_append, map_append, hf.events]
    · intro slot hsl
      rcases List.mem_append.1 hsl with hmem | hmem
      · exact h.faithful slot (mem_of_mem_take hmem)
      · rcases List.mem_cons.1 hmem with rfl | hmem
        · exact hf.faithful
        · exact hf.todo.faithful slot hmem
    · have hd' : (slots.take index ++ head' :: rest').drop (index + 1) = rest' := by
        rw [drop_append, drop_eq_nil_of_le (by omega), hlen]
        simp
      rw [hd']
      exact hf.todo
    · refine h.covers.trans ?_
      conv_lhs => rw [hs]
      rw [wireItems_append, wireItems_append]
      exact hf.covers.append_left _

/-- **The first pass covers the batch.** -/
theorem foldCreations_covers (env : PublishEnv) (e : List PublishEvent)
    (hs : ∀ ev ∈ e, ev.mutation.SealedWithoutBase) :
    FoldInv env e e.length (foldCreations e) := by
  unfold foldCreations
  generalize e.length = count
  induction count with
  | zero => exact foldInv_start env e hs
  | succ _ ih =>
    rw [range_succ, foldl_append]
    exact foldCreation_inv ih

/-! ## The second pass -/

def NoConflict (left right : PublishEvent) : Prop :=
  dependencySetsConflict left.dependencyKeys right.dependencyKeys = false

theorem NoConflict.swaps {left right : PublishEvent} (env : PublishEnv)
    (h : NoConflict left right) :
    Swaps env.opStep left right ∧ Swaps env.opStep right left := by
  have ho : Orderless left right := .inr (.inr h)
  exact ⟨env.swaps_of_orderless ho, env.swaps_of_orderless ho.symm⟩

/-- What one scheduling round selects. -/
structure RunSelected (env : PublishEnv) (runClass : RunClass)
    (selected waiting candidates chosen left : List PublishEvent) : Prop where
  result : selectRun runClass selected waiting candidates = (selected ++ chosen, waiting ++ left)
  selects : Selects env.opStep candidates chosen left
  clear : ∀ event ∈ chosen, ∀ predecessor ∈ waiting, NoConflict predecessor event
  independent : runClass = .content →
    (∀ event ∈ chosen, ∀ predecessor ∈ selected, NoConflict predecessor event) ∧
      chosen.Pairwise NoConflict
  length : chosen.length + left.length = candidates.length

theorem selectRun_spec (env : PublishEnv) (rc : RunClass) (ca : List PublishEvent) :
    ∀ s w, ∃ ch left, RunSelected env rc s w ca ch left := by
  induction ca with
  | nil =>
    intro s w
    exact ⟨[], [], by simp [selectRun], Selects.nil, by simp, fun _ => by simp, rfl⟩
  | cons c _ ih =>
    intro s w
    by_cases hpi : c.runClass = rc ∧
        (w.any fun pr => dependencySetsConflict pr.dependencyKeys c.dependencyKeys) = false ∧
        (rc = .content → (s.any fun pr =>
          dependencySetsConflict pr.dependencyKeys c.dependencyKeys) = false)
    · obtain ⟨ch, left, h⟩ := ih (s ++ [c]) w
      have hr := h.result
      refine ⟨c :: ch, left, ?_, h.selects.choose c, ?_, fun hc => ?_, ?_⟩
      · rw [selectRun, if_pos hpi, hr]
        simp
      · refine List.forall_mem_cons.2 ⟨fun pr hp => ?_, h.clear⟩
        exact List.any_eq_false.1 hpi.2.1 pr hp |> Bool.eq_false_iff.2
      · obtain ⟨hs, hpa⟩ := h.independent hc
        refine ⟨List.forall_mem_cons.2 ⟨fun pr hp => ?_, fun e he p hp => ?_⟩,
          List.pairwise_cons.2 ⟨fun e he => hs e he c (by simp), hpa⟩⟩
        · exact List.any_eq_false.1 (hpi.2.2 hc) pr hp |> Bool.eq_false_iff.2
        · exact hs e he p (by simp [hp])
      · have := h.length
        simp only [length_cons]
        omega
    · obtain ⟨ch, left, h⟩ := ih s (w ++ [c])
      have hr := h.result
      refine ⟨ch, c :: left, ?_, h.selects.leave c fun e he => ?_,
        fun e he p hp => h.clear e he p (by simp [hp]), h.independent, ?_⟩
      · rw [selectRun, if_neg hpi, hr]
        simp
      · exact ((h.clear e he c (by simp)).swaps env).1
      · have := h.length
        simp only [length_cons]
        omega

/-- The first waiting event is always selected. -/
theorem selectRun_head (env : PublishEnv) (first : PublishEvent) (rest : List PublishEvent) :
    ∃ c left, RunSelected env first.runClass [] [] (first :: rest) (first :: c) left := by
  obtain ⟨c, left, h⟩ := selectRun_spec env first.runClass rest [first] []
  have hr := h.result
  refine ⟨c, left, ?_, h.selects.choose first, by simp, fun hc => ?_, ?_⟩
  · rw [selectRun, if_pos (by simp), nil_append, hr]
    simp
  · obtain ⟨hs, hp⟩ := h.independent hc
    exact ⟨by simp, List.pairwise_cons.2 ⟨fun e he => hs e he first (by simp), hp⟩⟩
  · have := h.length
    simp only [length_cons]
    omega

/-- **The second pass covers its wire events**, in every order the runs may be applied. -/
theorem scheduleRuns_covers (env : PublishEnv) :
    ∀ (fuel : Nat) (e : List PublishEvent), e.length ≤ fuel →
      ∀ o, Linearizes (scheduleRuns fuel e) o → Covers env.opStep e o ∧ ∀ ev ∈ o, ev ∈ e := by
  intro fuel
  induction fuel with
  | zero =>
    intro e hlen o ho
    obtain rfl : e = [] := by simpa using hlen
    cases ho
    exact ⟨Covers.refl _, by simp⟩
  | succ _ ih =>
    intro e hlen o ho
    cases e with
    | nil =>
      cases ho
      exact ⟨Covers.refl _, by simp⟩
    | cons first rest =>
      obtain ⟨c, left, hs⟩ := selectRun_head env first rest
      have hle := hs.length
      simp only [length_cons] at hle hlen
      have hco := hs.selects.covers
      have hmem : ∀ ev, ev ∈ first :: c ∨ ev ∈ left → ev ∈ first :: rest :=
        hs.selects.mem
      rw [scheduleRuns, hs.result] at ho
      simp only [nil_append] at ho
      cases hc : first.runClass with
      | namespaceMany =>
        rw [hc, RunClass.run] at ho
        cases ho with
        | namespaceMany _ _ hr =>
          obtain ⟨hl, hsu⟩ := ih left (by omega) _ hr
          refine ⟨hco.trans (hl.append_left _), fun ev he => hmem ev ?_⟩
          exact (List.mem_append.1 he).imp id (hsu ev)
      | content =>
        rw [hc, RunClass.run] at ho
        cases ho with
        | content _ u _ hp hr =>
          obtain ⟨hl, hsu⟩ := ih left (by omega) _ hr
          have hu : Covers env.opStep (first :: c) u :=
            covers_of_perm hp ((hs.independent hc).2.imp fun h => h.swaps env)
          refine ⟨hco.trans (hu.append hl), fun ev he => hmem ev ?_⟩
          exact (List.mem_append.1 he).imp (fun h => hp.mem_iff.2 h) (hsu ev)

/-! ## The plan of the next batch -/

theorem checkIncreasing_of_pairwise {e : List PublishEvent}
    (h : e.Pairwise fun a b => a.sequence < b.sequence) : checkIncreasing e = .ok () := by
  induction e with
  | nil => rfl
  | cons _ rest ih =>
    cases rest with
    | nil => rfl
    | cons s =>
      obtain ⟨hf, hr⟩ := List.pairwise_cons.1 h
      rw [checkIncreasing, if_neg (by have := hf s (by simp); omega)]
      exact ih hr

/-- Dropping the local-only events covers a schedule. -/
theorem wireItems_ofEvent_covers (env : PublishEnv) (e : List PublishEvent) :
    Covers env.opStep e (wireItems (e.map ofEvent)) := by
  induction e with
  | nil => exact Covers.refl _
  | cons event _ ih =>
    rw [map_cons, wireItems_cons]
    by_cases hl : event.mutation.isLocalOnly = true
    · have hw : (ofEvent event).wire = none := by
        simp [wire, ofEvent, hl]
      have hd : Covers env.opStep [event] [] := by
        refine Covers.drop fun s t h => ?_
        rw [opStep, env.opOf_localOnly event hl] at h
        rw [← (LocalOp.step_eq_some.1 h).2, idleOp_apply]
      rw [hw]
      exact hd.append ih
    · rw [Bool.not_eq_true] at hl
      rw [wire_of_untouched (untouched_ofEvent event) hl]
      exact ih.cons event

/-- The planner accepts an increasing batch, and every order its runs may be applied in covers the
batch. -/
theorem planRuns_covers (env : PublishEnv) (ba : PublishBatch)
    (hi : ba.events.Pairwise fun a b => a.sequence < b.sequence)
    (ht : ∀ e ∈ ba.events, e.sequence ≤ ba.throughSequence)
    (hs : ∀ e ∈ ba.events, e.mutation.SealedWithoutBase) :
    ∃ runs, planRuns ba = .ok runs ∧ ∀ o, Linearizes runs o →
      Covers env.opStep ba.events o ∧
        ∀ e ∈ o, ∃ slot ∈ foldCreations ba.events, slot.wire = some e := by
  have hf := foldCreations_covers env ba.events hs
  have hwi : Covers env.opStep ba.events (wireItems (foldCreations ba.events)) :=
    (wireItems_ofEvent_covers env ba.events).trans hf.covers
  have hch : checkThrough ba = .ok () := by
    unfold checkThrough
    split
    · rename_i last hl
      have := ht last (mem_of_getLast? hl)
      rw [if_neg (by omega)]
    · rfl
  have hp : planRuns ba =
      if (wireItems (foldCreations ba.events)).isEmpty then
        .ok (if 0 < ba.throughSequence then [.cursor ba.throughSequence] else [])
      else .ok (scheduleRuns (wireItems (foldCreations ba.events)).length
        (wireItems (foldCreations ba.events))) := by
    unfold planRuns
    rw [checkIncreasing_of_pairwise hi, hch]
    rfl
  rw [hp]
  by_cases hem : (wireItems (foldCreations ba.events)).isEmpty = true
  · rw [if_pos hem]
    rw [List.isEmpty_iff] at hem
    rw [hem] at hwi
    refine ⟨_, rfl, fun o ho => ?_⟩
    obtain rfl : o = [] := by
      split_ifs at ho
      · cases ho with
        | cursor _ h => cases h; rfl
      · cases ho
        rfl
    exact ⟨hwi, by simp⟩
  · rw [if_neg hem]
    refine ⟨_, rfl, fun o ho => ?_⟩
    obtain ⟨hc, hsu⟩ := scheduleRuns_covers env _ _ le_rfl o ho
    refine ⟨hwi.trans hc, fun e he => ?_⟩
    obtain ⟨slot, hsl, hw⟩ := List.mem_filterMap.1 (hsu e he)
    exact ⟨slot, hsl, hw⟩

theorem admissible_shape {e : MountEvent} {tree r : RemoteTree}
    (h : env.commitEvent e tree = some r) :
    e.mutation.SealedWithoutBase ∧ e.mutation.ForwardsNoFileId := by
  unfold commitEvent at h
  split_ifs at h with ha
  rcases ha with hl | ha
  · cases hm : e.mutation <;> rw [hm] at hl <;>
      first | exact ⟨trivial, trivial⟩ | cases hl
  · exact ⟨ha.sealedWithoutBase, ha.forwardsNoFileId⟩

theorem applyEvent_of_commitEvent {e : MountEvent}
    {tree r : RemoteTree} (h : env.commitEvent e tree = some r) :
    env.applyEvent e tree = some r := by
  unfold commitEvent at h
  split_ifs at h
  exact h

/-- **Publication planning is equivalent to log order.** Whatever tree applying every committed
event the next batch covers, one by one in sequence order, leaves on the replica, the planner
accepts the batch and applying its runs in order, the members of a content run in any order, leaves
the same tree. -/
theorem planRuns_publishes_walOrder (env : PublishEnv) (state : AppendState)
    (limits : BatchLimits) (batch : PublishBatch) (tree result : RemoteTree)
    (hdisjoint : Disjoint state.committed state.aborted)
    (hbatch : state.nextPublishBatch limits = .ok (some batch))
    (hhistory : run env.commitEvent (state.coveredEvents batch.throughSequence) tree =
      some result) :
    run env.applyEvent (state.coveredEvents batch.throughSequence) tree = some result ∧
    ∃ runs, planRuns batch = .ok runs ∧ ∀ order, Linearizes runs order →
      run env.publish order tree = some result := by
  obtain ⟨-, hsu, hco⟩ := nextPublishBatch_inv env hdisjoint hbatch
  have hs : ∀ e ∈ state.coveredEvents batch.throughSequence,
      e.mutation.SealedWithoutBase ∧ e.mutation.ForwardsNoFileId := fun e he =>
    have ⟨_, _, h⟩ := exists_step_of_run hhistory e he
    admissible_shape h
  have hc : ∀ e ∈ batch.events,
      e.event ∈ state.coveredEvents batch.throughSequence := fun e he =>
    hsu.subset (List.mem_map_of_mem he)
  refine ⟨?_, ?_⟩
  · have ha : run env.applyEvent
        ((state.coveredEvents batch.throughSequence).map id) tree = some result :=
      run_mono id (fun e _ s t h => applyEvent_of_commitEvent h) hhistory
    rwa [List.map_id] at ha
  have hi : batch.events.Pairwise fun a b => a.sequence < b.sequence := by
    have h := (state.coveredEvents_pairwise batch.throughSequence).sublist hsu
    rwa [List.pairwise_map] at h
  obtain ⟨runs, hr, ho⟩ := planRuns_covers env batch hi
    (fun e he => (AppendState.mem_coveredEvents.1 (hc e he)).2.1)
    (fun e he => (hs e.event (hc e he)).1)
  refine ⟨runs, hr, fun order hor => ?_⟩
  obtain ⟨hpl, hslo⟩ := ho order hor
  have hops : run env.opStep
      ((state.coveredEvents batch.throughSequence).map MountEvent.toPublish) tree = some result :=
    run_mono MountEvent.toPublish (fun e _ s t h => opStep_of_commitEvent h) hhistory
  have hf := foldCreations_covers env batch.events fun e he => (hs e.event (hc e he)).1
  have ho' := hpl tree result (hco (fun e he => (hs e he).1) tree result hops)
  have hst : ∀ e ∈ order, ∀ s t, env.opStep e s = some t → env.publish e s = some t := by
    intro e he s t h
    obtain ⟨slot, hsl, hw⟩ := hslo e he
    obtain ⟨⟨-, hl⟩, rfl⟩ := wire_eq_some.1 hw
    have hev : slot.event ∈ batch.events := by
      rw [← hf.events_eq]
      exact List.mem_map_of_mem hsl
    exact publish_of_opStep slot.planned ((hf.faithful slot hsl).forwardsNoFileId
      (hs _ (hc _ hev)).2) hl h
  have hp : run env.publish (order.map id) tree = some result :=
    run_mono id hst ho'
  rwa [List.map_id] at hp

/-! ## A history with every rewrite -/

/-- A gateway over one packed segment that fingerprints a content by the content itself. -/
def segmentEnv (segment : List UInt8) : PublishEnv where
  payloadBytes payload :=
    match payload.storage with
    | .segment _ offset => (segment.drop offset).take payload.length
    | .dedicatedFile _ => []
  fingerprint bytes := String.ofList (bytes.map fun byte => Char.ofNat byte.toNat)
  fileIdIs _ _ _ := false

def historyEvent (sequence : Nat) (mutation : MountMutation) (payload : Option PayloadRef) :
    MountEvent :=
  ⟨walFormatVersion, "epoch", sequence, "key", mutation, payload, ⟨[]⟩, none⟩

def segmentPayload (offset length : Nat) (contentHash : String) : Option PayloadRef :=
  some ⟨.segment "segment-0" offset, length, "blake3", contentHash⟩

/-- Two files are created and written, one of them twice, the other extended and made private, and
one is renamed. -/
def foldingHistory : List MountEvent :=
  [historyEvent 1 (.createDirectory ["d"] 0o755) none,
   historyEvent 2 (.createFile ["d", "a"] 0o644) none,
   historyEvent 3 (.createFile ["b"] 0o644) none,
   historyEvent 4 (.replaceFile ["b"] 0o644 none none) (segmentPayload 0 1 "x"),
   historyEvent 5 (.replaceFile ["d", "a"] 0o644 none none) (segmentPayload 1 2 "hi"),
   historyEvent 6 (.appendFile ["d", "a"] 0o644 2 "hi" 3 "hi!") (segmentPayload 3 1 "!"),
   historyEvent 7 (.setMode ["d", "a"] 0o600) none,
   historyEvent 8 (.replaceFile ["b"] 0o644 none none) (segmentPayload 4 2 "yy"),
   historyEvent 9 (.rename ["b"] ["c"] 0) none]

/-- The index of a log that holds the history, committed and unacknowledged. -/
def foldingState : AppendState where
  epoch := "epoch"
  pendingSync := []
  generation := 0
  generationLen := 0
  appendedBytes := 0
  nextSequence := 10
  prepared := foldingHistory.map fun event => ⟨event, 0, 0⟩
  committed := {1, 2, 3, 4, 5, 6, 7, 8, 9}
  aborted := ∅
  acknowledgedSequence := 0
  remoteRevision := 0
  firstUnprunedSequence := 1
  treeGeneration := 0
  checkpointId := 0
  activeGenerations := {0}
  dirtyContent := []
  pendingPayloadBytes := 0
  eventsSinceCheckpoint := 9
  lastCheckpoint := none
  reclaimCandidates := ∅
  compactionPending := false

/-- A replica that holds nothing but its root directory. -/
def emptyReplica : RemoteTree := (Rewrite.put [] (.directory 0o755)).apply LinkedStore.empty

/-- The batch the folding history makes: the first write of `b` is superseded and the append of
`d/a` rides on its replacement. -/
theorem foldingState_nextPublishBatch :
    ∃ b, foldingState.nextPublishBatch ⟨64, 4096, 1024⟩ = .ok (some b) ∧
      b.throughSequence = 9 ∧
      b.events.map (fun e => (e.sequence, e.foldedAppends.length)) =
        [(1, 0), (2, 0), (3, 0), (5, 1), (7, 0), (8, 0), (9, 0)] :=
  ⟨_, rfl, rfl, rfl⟩

/-- The folding history is planned and published with the outcome of the log order. -/
theorem planRuns_publishes_foldingHistory :
    ∃ batch result, foldingState.nextPublishBatch ⟨64, 4096, 1024⟩ = .ok (some batch) ∧
      run (segmentEnv [120, 104, 105, 33, 121, 121]).applyEvent
        (foldingState.coveredEvents batch.throughSequence) emptyReplica = some result ∧
      ∃ runs, planRuns batch = .ok runs ∧ ∀ order, Linearizes runs order →
        run (segmentEnv [120, 104, 105, 33, 121, 121]).publish order emptyReplica =
          some result := by
  obtain ⟨batch, hb, ht, -⟩ := foldingState_nextPublishBatch
  have hs : (run (segmentEnv [120, 104, 105, 33, 121, 121]).commitEvent
      (foldingState.coveredEvents 9) emptyReplica).isSome = true := by decide +kernel
  obtain ⟨result, hr⟩ := Option.isSome_iff_exists.1 hs
  rw [← ht] at hr
  exact ⟨batch, result, hb, planRuns_publishes_walOrder _ _ _ batch _ result (by decide) hb hr⟩

end Chevalier.LocalView
