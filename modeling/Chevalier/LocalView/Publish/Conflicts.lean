import Chevalier.LocalView.Publish.Equivalence

/-!
# The plan respects conflicts

* `planRuns_respects_conflicts`: each wire event of a batch is issued once, and those that conflict
  are issued in the order of the batch.
-/

namespace Chevalier.LocalView

open List PlanSlot

variable {a b : PublishEvent} {events chosen left order uploads : List PublishEvent}

theorem NoConflict.symm (h : NoConflict a b) : NoConflict b a := by
  unfold NoConflict PublishEvent.dependencyKeys at *
  rwa [MountMutation.conflict_symm]

/-- The order has each event once, and leaves two that conflict as they are. -/
structure Respects (events order : List PublishEvent) : Prop where
  perm : order ~ events
  ordered : order.Pairwise fun a b => ¬ NoConflict a b → [a, b] <+ events

/-- What one scheduling round takes out, and what it leaves. -/
structure Picks (runClass : RunClass) (selected waiting events chosen left : List PublishEvent) :
    Prop where
  result : selectRun runClass selected waiting events = (selected ++ chosen, waiting ++ left)
  perm : chosen ++ left ~ events
  chosen_sublist : chosen <+ events
  left_sublist : left <+ events
  clear : ∀ a ∈ chosen, ∀ b ∈ waiting, NoConflict b a
  before : ∀ a ∈ chosen, ∀ b ∈ left, NoConflict b a ∨ [a, b] <+ events

theorem selectRun_picks (runClass : RunClass) (selected waiting events : List PublishEvent) :
    ∃ chosen left, Picks runClass selected waiting events chosen left := by
  fun_induction selectRun runClass selected waiting events with
  | case1 => exact ⟨[], [], by simp [selectRun], .refl _, .refl _, .refl _, nofun, nofun⟩
  | case2 selected waiting event events conflicts hpick ih =>
    obtain ⟨chosen, left, h⟩ := ih
    refine ⟨event :: chosen, left, ?_, h.perm.cons _, h.chosen_sublist.cons_cons _,
      h.left_sublist.cons _, forall_mem_cons.2 ⟨fun b hb => ?_, h.clear⟩,
      forall_mem_cons.2 ⟨fun b hb => .inr ?_, fun a ha b hb => ?_⟩⟩
    · rw [selectRun, if_pos hpick, h.result]
      simp
    · exact Bool.eq_false_iff.2 (any_eq_false.1 hpick.2.1 b hb)
    · exact (singleton_sublist.2 (h.left_sublist.subset hb)).cons_cons _
    · exact (h.before a ha b hb).imp_right (·.cons _)
  | case3 selected waiting event events conflicts hpick ih =>
    obtain ⟨chosen, left, h⟩ := ih
    refine ⟨chosen, event :: left, ?_, perm_middle.trans (h.perm.cons _), h.chosen_sublist.cons _,
      h.left_sublist.cons_cons _, fun a ha b hb => h.clear a ha b (by simp [hb]),
      fun a ha => forall_mem_cons.2 ⟨.inl (h.clear a ha event (by simp)), fun b hb => ?_⟩⟩
    · rw [selectRun, if_neg hpick, h.result]
      simp
    · exact (h.before a ha b hb).imp_right (·.cons _)

/-- A round before the others. -/
theorem Respects.append {runClass : RunClass} (hp : Picks runClass [] [] events chosen left)
    (hu : uploads ~ chosen) (ho : uploads.Pairwise fun a b => ¬ NoConflict a b → [a, b] <+ events)
    (h : Respects left order) : Respects events (uploads ++ order) where
  perm := (hu.append h.perm).trans hp.perm
  ordered := by
    refine pairwise_append.2 ⟨ho, h.ordered.imp fun hab hn => (hab hn).trans hp.left_sublist, ?_⟩
    intro a ha b hb hn
    exact (hp.before a (hu.subset ha) b (h.perm.subset hb)).resolve_left fun hc => hn hc.symm

theorem scheduleRuns_respects (env : PublishEnv) {fuel : Nat} (hlen : events.length ≤ fuel)
    (ho : Linearizes (scheduleRuns fuel events) order) : Respects events order := by
  induction fuel generalizing events order with
  | zero =>
    obtain rfl : events = [] := by simpa using hlen
    cases ho
    exact ⟨.refl _, .nil⟩
  | succ fuel ih =>
    cases events with
    | nil =>
      cases ho
      exact ⟨.refl _, .nil⟩
    | cons first rest =>
      obtain ⟨c, l, hs⟩ := selectRun_head env first rest
      obtain ⟨chosen, left, hp⟩ := selectRun_picks first.runClass [] [] (first :: rest)
      obtain ⟨rfl, rfl⟩ : chosen = first :: c ∧ left = l := by
        simpa [hs.result, eq_comm] using hp.result
      have hleft : left.length ≤ fuel := by
        have := hs.length
        simp only [length_cons] at this hlen
        omega
      rw [scheduleRuns, hp.result] at ho
      simp only [nil_append] at ho
      cases hc : first.runClass with
      | namespaceMany =>
        rw [hc, RunClass.run] at ho
        cases ho with
        | namespaceMany _ _ hr =>
          refine .append hp (.refl _) (pairwise_iff_forall_sublist.2 fun hab _ => ?_) (ih hleft hr)
          exact hab.trans hp.chosen_sublist
      | content =>
        rw [hc, RunClass.run] at ho
        cases ho with
        | content _ uploads _ hu hr =>
          refine .append hp hu.symm ?_ (ih hleft hr)
          have hi := (hu.pairwise_iff fun h => h.symm).1 (hs.independent hc).2
          exact hi.imp fun h hn => absurd h hn

/-- **The plan respects conflicts**, in whichever order its runs may be applied. -/
theorem planRuns_respects_conflicts {batch : PublishBatch} {runs : List PublishRun}
    (h : planRuns batch = .ok runs) (ho : Linearizes runs order) :
    Respects (wireItems (foldCreations batch.events)) order := by
  have hnil (he : (wireItems (foldCreations batch.events)).isEmpty = true) :
      Respects (wireItems (foldCreations batch.events)) [] := by
    rw [isEmpty_iff.1 he]
    exact ⟨.refl _, .nil⟩
  simp only [planRuns, bind, Except.bind] at h
  split at h
  · cases h
  split at h
  · cases h
  split_ifs at h with he hp <;> cases h
  · cases ho with
    | cursor _ ho =>
      cases ho
      exact hnil he
  · cases ho
    exact hnil he
  · exact scheduleRuns_respects ⟨fun _ => [], fun _ => "", fun _ _ _ => false⟩ le_rfl ho

theorem exists_linearizes (runs : List PublishRun) : ∃ order, Linearizes runs order := by
  induction runs with
  | nil => exact ⟨_, .nil⟩
  | cons run runs ih =>
    obtain ⟨order, h⟩ := ih
    cases run with
    | namespaceMany => exact ⟨_, .namespaceMany _ _ h⟩
    | content => exact ⟨_, .content _ _ _ (.refl _) h⟩
    | cursor => exact ⟨_, .cursor _ h⟩

theorem planRuns_respects_foldingHistory : ∃ batch runs order,
    foldingState.nextPublishBatch ⟨64, 4096, 1024⟩ = .ok (some batch) ∧ planRuns batch = .ok runs ∧
    Linearizes runs order ∧ Respects (wireItems (foldCreations batch.events)) order := by
  have ho := exists_linearizes
  exact ⟨_, _, _, rfl, rfl, (ho _).choose_spec, planRuns_respects_conflicts rfl (ho _).choose_spec⟩

end Chevalier.LocalView
