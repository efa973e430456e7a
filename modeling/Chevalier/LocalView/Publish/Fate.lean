import Chevalier.LocalView.Publish.Plan

/-!
# What becomes of an event in a batch

The batch scan drops and merges events while its end moves on. `Fate` lists what can have become of
an event the scan has passed: it is queued, it is folded onto a queued generation of its file, or a
queued later generation of its file superseded it. *Of its file* is more than the same path: what
the log committed between the two spares the path (`Undisturbed`).

* `Fates.place`: placing one more event settles it and unsettles none.
* `nextPublishBatch_fates`: every committed event a batch covers has its fate in it.
-/

namespace Chevalier.LocalView

open List

def contentKeys (path : MountPath) : List DependencyKey :=
  mergeDependencyKeys (MountMutation.pathKeys path true)

/-- The mutation is no ordering boundary for content of the path, or is content of the path itself. -/
def MountMutation.Spares (mutation : MountMutation) (path : MountPath) : Prop :=
  mutation.isLocalOnly = true ∨ (mutation.isContent = true ∧ mutation.primaryPath = path) ∨
    dependencySetsConflict mutation.dependencyKeys (contentKeys path) = false

/-- Of the events, those strictly between the two sequences spare the path. -/
def Undisturbed (events : MountEvent → Prop) (path : MountPath) (low high : Nat) : Prop :=
  ∀ event, events event → low < event.sequence → event.sequence < high →
    event.mutation.Spares path

def SamePath (event : MountEvent) (target : PublishEvent) : Prop :=
  event.mutation.isContent = true ∧ target.mutation.isContent = true ∧
    target.mutation.primaryPath = event.mutation.primaryPath

/-- What became of an event of the log in a queue. -/
inductive Fate (events : MountEvent → Prop) (queue : List PublishEvent) (event : MountEvent) : Prop
  | queued (target : PublishEvent) (htarget : target ∈ queue) (hevent : target.event = event)
  | folded (target : PublishEvent) (htarget : target ∈ queue) (hevent : event ∈ target.foldedAppends)
      (hpath : SamePath event target) (hlt : target.sequence < event.sequence)
      (hbetween : Undisturbed events event.mutation.primaryPath target.sequence event.sequence)
  | superseded (target : PublishEvent) (htarget : target ∈ queue) (hpath : SamePath event target)
      (hreplace : ∃ path mode expectedFileId base,
        target.mutation = .replaceFile path mode expectedFileId base)
      (hlt : event.sequence < target.sequence)
      (hbetween : Undisturbed events event.mutation.primaryPath event.sequence target.sequence)

variable {event e : MountEvent} {ev : MountEvent → Prop}

/-- A fate depends only on the events between the queue's bounds. -/
theorem Fate.mono {e' : MountEvent → Prop} {q : List PublishEvent} {f b : Nat} (h : Fate ev q e)
    (hr : f ≤ e.sequence ∧ e.sequence < b)
    (hq : ∀ t ∈ q, f ≤ t.sequence ∧ t.sequence < b)
    (hs : ∀ e, e' e → f < e.sequence → e.sequence < b → ev e) : Fate e' q e := by
  have hm : ∀ {path low high}, f ≤ low → high < b → Undisturbed ev path low high →
      Undisturbed e' path low high := by
    intro path low high hf hbo hb o ho hl hh
    exact hb o (hs o ho (hf.trans_lt hl) (hh.trans hbo)) hl hh
  cases h with
  | queued t ht he => exact .queued t ht he
  | folded t ht he hp hlt hb => exact .folded t ht he hp hlt (hm (hq t ht).1 hr.2 hb)
  | superseded t ht hp hre hlt hb => exact .superseded t ht hp hre hlt (hm hr.1 (hq t ht).2 hb)

/-- A fate is with one event of the queue. -/
theorem Fate.exists_target {q : List PublishEvent} (h : Fate ev q e) :
    ∃ t ∈ q, Fate ev [t] e := by
  cases h with
  | queued t ht he => exact ⟨t, ht, .queued t (mem_singleton_self _) he⟩
  | folded t ht he hp hlt hb => exact ⟨t, ht, .folded t (mem_singleton_self _) he hp hlt hb⟩
  | superseded t ht hp hr hlt hb => exact ⟨t, ht, .superseded t (mem_singleton_self _) hp hr hlt hb⟩

/-- A fate is with the same event of another queue, where it may carry more appends. -/
theorem Fate.of_target {q : List PublishEvent} {t o : PublishEvent} (h : Fate ev [t] e)
    (ho : o ∈ q) (he : o.event = t.event)
    (hf : t.foldedAppends ⊆ o.foldedAppends) : Fate ev q e := by
  obtain ⟨own, _⟩ := o
  obtain ⟨_, _⟩ := t
  obtain rfl : own = _ := he
  cases h with
  | queued _ ht heq =>
    obtain rfl := List.mem_singleton.1 ht
    exact .queued _ ho heq
  | folded _ ht hfo hp hlt hb =>
    obtain rfl := List.mem_singleton.1 ht
    exact .folded _ ho (hf hfo) hp hlt hb
  | superseded _ ht hp hr hlt hb =>
    obtain rfl := List.mem_singleton.1 ht
    exact .superseded _ ho hp hr hlt hb

/-! ## Placing an event -/

/-- Every event passed so far has its fate in the queue, and the queue is in log order. -/
structure Fates (covered : List MountEvent) (queue : List PublishEvent) : Prop where
  sublist : (queue.map PublishEvent.event).Sublist covered
  fate : ∀ event ∈ covered, Fate (· ∈ covered) queue event

variable {mu : MountMutation}

theorem MountMutation.keys_of_isContent
    (h : mu.isContent = true) :
    mu.dependencyKeys = contentKeys mu.primaryPath :=
  dependencyKeys_of_isContent h

theorem MountMutation.not_localOnly_of_isContent
    (h : mu.isContent = true) : mu.isLocalOnly = false := by
  cases mu <;> simp_all [isContent, isLocalOnly]

/-- Content that spares a path is spared by content of that path. -/
theorem MountMutation.Spares.symm {o : MountMutation}
    (h : mu.Spares o.primaryPath) (hm : mu.isContent = true)
    (ho : o.isContent = true) : o.Spares mu.primaryPath := by
  rcases h with hl | ⟨-, hp⟩ | hk
  · rw [not_localOnly_of_isContent hm] at hl
    exact absurd hl Bool.false_ne_true
  · exact .inr (.inl ⟨ho, hp.symm⟩)
  · refine .inr (.inr ?_)
    rw [← keys_of_isContent ho] at hk
    rw [← keys_of_isContent hm, conflict_symm]
    exact hk

/-- An event that is no ordering boundary for a generation spares its path. -/
theorem Orderless.spares {e : PublishEvent} {ca : MountEvent}
    (h : PublishEnv.Orderless e ca.toPublish)
    (hc : ca.mutation.isContent = true) :
    e.mutation.Spares ca.mutation.primaryPath := by
  rcases h with hl | hl | hk
  · exact .inl hl
  · change ca.mutation.isLocalOnly = true at hl
    rw [MountMutation.not_localOnly_of_isContent hc] at hl
    exact absurd hl Bool.false_ne_true
  · refine .inr (.inr ?_)
    rw [← MountMutation.keys_of_isContent hc]
    exact hk

/-- Events in log order are told apart by their sequences. -/
theorem eq_of_sequence_eq {ev : List MountEvent}
    (hs : ev.Pairwise fun a b => a.sequence < b.sequence) {o : MountEvent}
    (he : e ∈ ev) (ho : o ∈ ev) (heq : e.sequence = o.sequence) :
    e = o := by
  have hn : (ev.map MountEvent.sequence).Nodup :=
    (List.pairwise_map.2 hs).imp fun hlt => hlt.ne
  exact inj_on_of_nodup_map hn he ho heq

section Place

variable {co : List MountEvent} {q be af : List PublishEvent} {ca : MountEvent}
  {t : PublishEvent} {ind : Nat}

/-- In a queue in log order, an event is earlier than another one, the same, or behind it. -/
theorem before_or_after (hso : co.Pairwise fun a b => a.sequence < b.sequence)
    (hsu : (q.map PublishEvent.event).Sublist co)
    (hs : q = be ++ t :: af) {e : PublishEvent} (he : e ∈ q) :
    e.sequence < t.sequence ∨ e = t ∨ e ∈ af := by
  have hq := hso.sublist hsu
  rw [hs, map_append, map_cons, pairwise_append] at hq
  rw [hs, mem_append, mem_cons] at he
  refine he.imp_left fun hb => ?_
  exact hq.2.2 e.event (mem_map_of_mem hb) t.event mem_cons_self

/-- What was committed behind the generation a candidate is placed at spares the path. -/
theorem Fates.spares (h : Fates co q)
    (hso : co.Pairwise fun a b => a.sequence < b.sequence)
    (hp : PlacedAt q ca ca.mutation.primaryPath ind be t af)
    (hc : ca.mutation.isContent = true) {e : MountEvent} (he : e ∈ co)
    (hlt : t.sequence < e.sequence) :
    e.mutation.Spares ca.mutation.primaryPath := by
  -- a generation of the event's file that spares the candidate's path
  have hsa : ∀ o : PublishEvent, SamePath e o →
      o.mutation.Spares ca.mutation.primaryPath →
      e.mutation.Spares ca.mutation.primaryPath := by
    rintro o ⟨he, ho, hpa⟩ hs
    have hba := hs.symm ho hc
    rw [hpa] at hba
    exact hba.symm hc he
  have ha : ∀ o ∈ q, t.sequence < o.sequence →
      o.mutation.Spares ca.mutation.primaryPath := by
    intro o ho hl'
    rcases before_or_after hso h.sublist hp.split ho with hl | rfl | hmem
    · exact absurd hl hl'.not_gt
    · exact absurd hl' (lt_irrefl _)
    · exact Orderless.spares (hp.orderless o hmem) hc
  cases h.fate e he with
  | queued o ho heq =>
    subst heq
    exact ha o ho hlt
  | superseded o ho hpa _ hl' => exact hsa o hpa (ha o ho (hlt.trans hl'))
  | folded o ho _ hpa _ hb =>
    rcases before_or_after hso h.sublist hp.split ho with hl | rfl | hmem
    · -- the append moved in front of the placed generation, which spares its path
      have ht : t.event ∈ co :=
        h.sublist.subset (mem_map_of_mem (by rw [hp.split]; simp))
      have hs := (hb t.event ht hl hlt).symm hp.generation.1 hpa.1
      change e.mutation.Spares t.mutation.primaryPath at hs
      rwa [hp.generation.2] at hs
    · exact .inr (.inl ⟨hpa.1, hpa.2.2.symm.trans hp.generation.2⟩)
    · exact hsa o hpa (Orderless.spares (hp.orderless o hmem) hc)

/-- The generation a candidate supersedes hands everything it stands for to the candidate. -/
theorem Fates.supersede (h : Fates co q)
    (hs : (co ++ [ca]).Pairwise fun a b => a.sequence < b.sequence)
    (hp : PlacedAt q ca ca.mutation.primaryPath ind be t af)
    (hr : ∃ path mode efi base, ca.mutation = .replaceFile path mode efi base) {e : MountEvent}
    (he : e ∈ co) (hfa : Fate (· ∈ co ++ [ca]) [t] e) :
    Fate (· ∈ co ++ [ca]) [ca.toPublish] e := by
  obtain ⟨hco, -, hl⟩ := List.pairwise_append.1 hs
  have hlt : e.sequence < ca.sequence :=
    hl e he ca (mem_singleton_self _)
  have hc : ca.mutation.isContent = true := by
    obtain ⟨path, mode, efi, base, heq⟩ := hr
    rw [heq]
    rfl
  have hbe : ∀ o ∈ co ++ [ca], t.sequence < o.sequence →
      o.sequence < ca.sequence →
      o.mutation.Spares ca.mutation.primaryPath := by
    intro o ho hlo hh
    rcases mem_concat.1 ho with hmem | rfl
    · exact h.spares hco hp hc hmem hlo
    · exact absurd hh (lt_irrefl _)
  have ht : t.event.mutation.Spares ca.mutation.primaryPath :=
    .inr (.inl hp.generation)
  suffices hpa : e.mutation.isContent = true ∧
      e.mutation.primaryPath = ca.mutation.primaryPath ∧
      ∀ o ∈ co ++ [ca], e.sequence < o.sequence →
        o.sequence < t.sequence →
        o.mutation.Spares ca.mutation.primaryPath by
    obtain ⟨how, hpa, hf⟩ := hpa
    refine .superseded _ (mem_singleton_self _) ⟨how, hc, hpa.symm⟩ hr hlt ?_
    intro o ho hlo hh
    rw [hpa]
    rcases lt_trichotomy o.sequence t.sequence with hle | heq | hm
    · exact hf o ho hlo hle
    · have hmem : t.event ∈ co ++ [ca] := mem_append_left _
        (h.sublist.subset (mem_map_of_mem (by rw [hp.split]; simp)))
      rw [eq_of_sequence_eq hs ho hmem heq]
      exact ht
    · exact hbe o ho hm hh
  cases hfa with
  | queued _ ho heq =>
    obtain rfl := List.mem_singleton.1 ho
    subst heq
    exact ⟨hp.generation.1, hp.generation.2, fun _ _ hlo hh =>
      absurd hlo hh.not_gt⟩
  | folded _ ho _ hpa hl' =>
    obtain rfl := List.mem_singleton.1 ho
    exact ⟨hpa.1, hpa.2.2.symm.trans hp.generation.2, fun _ _ hlo hh =>
      absurd (hl'.trans hlo) hh.not_gt⟩
  | superseded o ho hpa _ _ hb =>
    obtain rfl := List.mem_singleton.1 ho
    have heq := hpa.2.2.symm.trans hp.generation.2
    exact ⟨hpa.1, heq, fun o ho hlo hh => heq ▸ hb o ho hlo hh⟩

/-- **Placing an event settles it and unsettles none.** -/
theorem Fates.place (h : Fates co q)
    (hs : (co ++ [ca]).Pairwise fun a b => a.sequence < b.sequence) :
    Fates (co ++ [ca]) (placeEvent q ca (placeContentGeneration q ca)) := by
  have hsu := (placeEvent_sublist q ca
    (placeContentGeneration q ca)).trans (h.sublist.append_right [ca])
  refine ⟨hsu, fun e he => ?_⟩
  obtain ⟨hco, -, hl⟩ := List.pairwise_append.1 hs
  have hbe : ∀ e ∈ co, e.sequence < ca.sequence :=
    fun e he => hl e he ca (mem_singleton_self _)
  -- the fates of the events before the candidate, with the candidate in sight
  have hold : ∀ e ∈ co,
      ∃ t ∈ q, Fate (· ∈ co ++ [ca]) [t] e := by
    intro e he
    refine Fate.exists_target ((h.fate e he).mono ⟨Nat.zero_le _, hbe e he⟩ ?_ ?_)
    · exact fun t ht =>
        ⟨Nat.zero_le _, hbe _ (h.sublist.subset (mem_map_of_mem ht))⟩
    · intro o ho _ hlt
      rcases mem_concat.1 ho with hmem | rfl
      · exact hmem
      · exact absurd hlt (lt_irrefl _)
  have hn : ∀ q', ca.toPublish ∈ q' →
      Fate (· ∈ co ++ [ca]) q' ca :=
    fun q' hmem => .queued _ hmem rfl
  rcases placeContentGeneration_cases q ca with hpu |
    ⟨path, ind, be, t, af, hp, ⟨hpl, m, i, b, hm⟩ |
      ⟨hpl, m, s, g, s', g', hm, -⟩⟩
  · rw [hpu]
    rcases mem_concat.1 he with hmem | rfl
    · obtain ⟨o, ho, hf⟩ := hold e hmem
      exact hf.of_target (mem_append_left _ ho) rfl (List.Subset.refl _)
    · exact hn _ (mem_append_right _ (mem_singleton_self _))
  · obtain rfl : ca.mutation.primaryPath = path := by rw [hm]; rfl
    rw [hpl, hp.placeEvent_supersede]
    rcases mem_concat.1 he with hmem | rfl
    · obtain ⟨o, ho, hf⟩ := hold e hmem
      rw [hp.split, mem_append, mem_cons] at ho
      rcases ho with hb | rfl | ha
      · exact hf.of_target (by simp [hb]) rfl (List.Subset.refl _)
      · exact (h.supersede hs hp ⟨_, m, i, b, hm⟩ hmem hf).of_target (by simp) rfl
          (List.Subset.refl _)
      · exact hf.of_target (by simp [ha]) rfl (List.Subset.refl _)
    · exact hn _ (by simp)
  · obtain rfl : ca.mutation.primaryPath = path := by rw [hm]; rfl
    have hc : ca.mutation.isContent = true := by rw [hm]; rfl
    have ht : t.event ∈ co :=
      h.sublist.subset (mem_map_of_mem (by rw [hp.split]; simp))
    rw [hpl, hp.placeEvent_fold]
    rcases List.mem_append.1 he with hmem | hmem
    · obtain ⟨o, ho, hf⟩ := hold e hmem
      rw [hp.split, mem_append, mem_cons] at ho
      rcases ho with hb | rfl | ha
      · exact hf.of_target (by simp [hb]) rfl (List.Subset.refl _)
      · exact hf.of_target (mem_append_right _ mem_cons_self) rfl (by simp)
      · exact hf.of_target (by simp [ha]) rfl (List.Subset.refl _)
    · obtain rfl := List.mem_singleton.1 hmem
      refine .folded _ (mem_append_right _ mem_cons_self) (by simp)
        ⟨hc, hp.generation⟩ (hbe _ ht) ?_
      intro o ho hlo hh
      rcases mem_concat.1 ho with hmem | rfl
      · exact h.spares hco hp hc hmem hlo
      · exact absurd hh (lt_irrefl _)

end Place

/-! ## The batch -/

/-- What the scan has passed is resolved, and its committed events have their fates. -/
structure ScanFates (state : AppendState) (scan : BatchScan) : Prop where
  sequence_eq : scan.sequence = scan.throughSequence + 1
  acknowledged_le : state.acknowledgedSequence ≤ scan.throughSequence
  resolved : ∀ sequence, state.acknowledgedSequence < sequence →
    sequence ≤ scan.throughSequence → state.Resolved sequence
  fates : Fates (state.coveredEvents scan.throughSequence) scan.events

theorem scanFates_start (st : AppendState) : ScanFates st st.batchStart := by
  have he : st.coveredEvents st.batchStart.throughSequence = [] := by
    simp [AppendState.batchStart, AppendState.coveredEvents]
  refine ⟨rfl, le_rfl, fun s hl hle => absurd hl hle.not_gt, ?_⟩
  rw [he]
  exact ⟨List.Sublist.refl _, fun e hev => absurd hev not_mem_nil⟩

/-- One round keeps the fates. -/
theorem batchRound_fates {st : AppendState} {l : BatchLimits} {scan next : BatchScan}
    (hd : Disjoint st.committed st.aborted) (hsc : ScanFates st scan)
    (h : batchRound st l scan = some next) : ScanFates st next := by
  have hle := hsc.acknowledged_le
  have hse := hsc.sequence_eq
  have hs := st.coveredEvents_succ hle
  have hr : st.Resolved scan.sequence → ∀ s,
      st.acknowledgedSequence < s → s ≤ scan.sequence →
      st.Resolved s := by
    intro hne s hl hh
    rcases Nat.eq_or_lt_of_le hh with rfl | _
    · exact hne
    · exact hsc.resolved s hl (by omega)
  rw [← hse] at hs
  rcases batchRound_cases h with ⟨ha, rfl⟩ | ⟨_, hre, -, hc, hn, ht, -, -, he⟩
  · have hnot : scan.sequence ∉ st.committed := fun hc =>
      Finset.disjoint_left.1 hd hc ha
    rw [if_neg hnot, append_nil] at hs
    refine ⟨rfl, ?_, hr (.inr ha), ?_⟩
    · show st.acknowledgedSequence ≤ scan.sequence
      omega
    · show Fates (st.coveredEvents scan.sequence) scan.events
      rw [hs]
      exact hsc.fates
  · rw [if_pos hc, hre] at hs
    refine ⟨by rw [hn, ht], by omega, ht ▸ hr (.inl hc), ?_⟩
    have hso := st.coveredEvents_pairwise scan.sequence
    rw [hs] at hso
    rw [ht, he, hs]
    exact hsc.fates.place hso

/-- **Every committed event a batch covers has its fate in it.** -/
theorem nextPublishBatch_fates {st : AppendState} {l : BatchLimits} {b : PublishBatch}
    (hd : Disjoint st.committed st.aborted)
    (h : st.nextPublishBatch l = .ok (some b)) :
    (∀ s, st.acknowledgedSequence < s → s ≤ b.throughSequence → st.Resolved s) ∧
    Fates (st.coveredEvents b.throughSequence) b.events := by
  obtain ⟨_, rfl, -, rfl⟩ := nextPublishBatch_eq h
  have hf : ScanFates st (scanBatch st l st.batchFuel st.batchStart) :=
    scanBatch_induct (fun _ _ hs hr => batchRound_fates hd hs hr) _ _ (scanFates_start st)
  exact ⟨hf.resolved, hf.fates⟩

end Chevalier.LocalView
