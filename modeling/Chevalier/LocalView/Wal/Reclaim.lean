import Chevalier.LocalView.Wal.PayloadSync

/-!
# Which payload files are deleted

A payload file is live while a capture whose prepare is not appended, or a prepare above the
acknowledged cursor, refers to it. A name becomes a candidate for deletion when an acknowledgement
or a checkpoint stops naming it, and a compaction dooms the candidates that no prepare and no
checkpoint names.

* `Steps.queued`, `Steps.unused`: every name that waits to become a candidate was handed out, and
  once it is a candidate its segment is closed, so no later capture uses it.
* `payloadsLive_of_run`: live payload files are there, in every run that begins a compaction only
  while no capture is in a file the compaction would doom.
* `deleted_under_capture`: without that condition a compaction deletes the file of a capture that
  is under way.
-/

namespace Chevalier.LocalView

open List

/-! ## Names that no later capture uses -/

namespace PayloadStore

def Handed (store : PayloadStore) (name : String) : Prop :=
  (∃ id < store.state.nextSegmentId, name = segmentName id) ∨ name ∈ store.minted

/-- The name was handed out and is not the active segment's. -/
def Retired (store : PayloadStore) (name : String) : Prop :=
  store.Handed name ∧
    ∀ segment, store.state.currentSegment = some segment → segment.name ≠ name

variable {store st next : PayloadStore} {carried : List (Nat × PayloadRef)} {name : String}

theorem Knows.handed {p : PayloadRef} (h : st.Knows p.storage) :
    st.Handed p.file := by
  unfold PayloadRef.file
  cases hs : p.storage with
  | segment =>
    rw [hs] at h
    exact .inl h
  | dedicatedFile =>
    rw [hs] at h
    exact .inr h

theorem Handed.mono (h : st.Handed name)
    (hs : st.state.nextSegmentId ≤ next.state.nextSegmentId)
    (hm : st.minted ⊆ next.minted) : next.Handed name := by
  rcases h with ⟨id, hid, hn⟩ | hmem
  · exact .inl ⟨id, hid.trans_le hs, hn⟩
  · exact .inr (hm hmem)

theorem Handed.ne_segment (h : st.Handed name) (hna : st.Named carried) :
    segmentName st.state.nextSegmentId ≠ name := by
  rintro rfl
  rcases h with ⟨_, hid, hn⟩ | hmem
  · exact hid.ne' (segmentName_injective hn)
  · obtain ⟨uuid, hn⟩ := hna.minted _ hmem
    exact segmentName_ne_dedicatedName _ uuid hn

variable {ac : CaptureAction}

theorem Handed.captures (h : st.Handed name)
    (hs : st.Captures ac next) : next.Handed name := by
  cases hs with
  | packNew => exact h.mono (Nat.le_succ _) subset_rfl
  | mint => exact h.mono le_rfl (Finset.subset_insert _ _)
  | _ => exact h

/-- A capture step opens no closed segment. -/
theorem Retired.captures (h : st.Retired name)
    (hn : st.Named carried) (hst : st.Captures ac next) : next.Retired name := by
  refine ⟨h.1.captures hst, fun a ha => ?_⟩
  cases hst with
  | pack _ _ _ _ s _ hs =>
    cases ha
    exact h.2 s hs
  | packNew =>
    cases ha
    exact h.1.ne_segment hn
  | _ => exact h.2 a ha

/-- A capture that begins uses no closed segment and no name handed out before. -/
theorem Captures.file_cases (hst : st.Captures ac next)
    (hn : st.Named carried) (c : Capture) (hc : c ∈ next.captures) :
    (∃ old ∈ st.captures, old.payload = c.payload) ∨ ¬ st.Retired c.payload.file := by
  have hse : ∀ {i : Nat} {old new : Capture}, st.captures[i]? = some old →
      new.payload = old.payload → c ∈ st.captures.set i new →
      ∃ old ∈ st.captures, old.payload = c.payload := by
    intro i old new hold hsa hmem
    rcases mem_or_eq_of_mem_set hmem with hmem | rfl
    · exact ⟨c, hmem, rfl⟩
    · exact ⟨old, mem_of_getElem? hold, hsa.symm⟩
  have ha : ∀ {new : Capture}, c ∈ st.captures ++ [new] →
      ¬ st.Retired new.payload.file →
      (∃ old ∈ st.captures, old.payload = c.payload) ∨ ¬ st.Retired c.payload.file := by
    intro new hmem hne
    rcases mem_concat.1 hmem with hold | rfl
    · exact .inl ⟨c, hold, rfl⟩
    · exact .inr hne
  cases hst with
  | pack _ _ _ _ s _ hs => exact ha hc fun hr => hr.2 s hs rfl
  | packNew => exact ha hc fun hr => hr.1.ne_segment hn rfl
  | mint _ _ uuid _ _ _ hf =>
    refine ha hc fun hr => ?_
    rcases hr.1 with ⟨id, -, hna⟩ | hmem
    · exact segmentName_ne_dedicatedName id uuid hna.symm
    · exact hf hmem
  | writeRange _ _ _ _ _ _ hold | writeFile _ _ _ _ _ hold | register _ _ _ _ hold =>
    exact .inl (hse hold (by rfl) hc)
  | discardFile | discard => exact .inl ⟨c, mem_of_mem_eraseIdx hc, rfl⟩

/-- The active segment has its file. So does a capture, a packed one from its reservation on and a
dedicated one from its write on. -/
structure Present (store : PayloadStore) : Prop where
  current : ∀ segment, store.state.currentSegment = some segment → segment.name ∈ store.disk.files
  captures : ∀ capture ∈ store.captures,
    (capture.stage = .reserved → capture.payload.storage.dedicated? = none) →
      capture.payload.file ∈ store.disk.files

/-- A capture step deletes at most the file of the capture it drops. -/
theorem Captures.files (hst : st.Captures ac next)
    (hf : name ∈ st.disk.files) :
    name ∈ next.disk.files ∨ ∃ i c, st.captures[i]? = some c ∧
      c.payload.storage = .dedicatedFile name ∧
      next.captures = st.captures.eraseIdx i ∧
      next.state.currentSegment = st.state.currentSegment := by
  cases hst with
  | packNew | writeFile => exact .inl (Finset.mem_insert_of_mem hf)
  | discardFile i c f hc hs =>
    by_cases heq : name = f
    · subst heq
      exact .inr ⟨i, c, hc, hs, rfl, rfl⟩
    · exact .inl (Finset.mem_erase.2 ⟨heq, hf⟩)
  | _ => exact .inl hf

/-- The file of a dedicated capture is not the active segment. -/
theorem Named.current_ne (h : st.Named carried) {c : Capture} {s : ActiveSegment}
    (hc : c ∈ st.captures)
    (hst : c.payload.storage = .dedicatedFile name)
    (hs : st.state.currentSegment = some s) : s.name ≠ name := by
  rintro rfl
  have hk := h.known _ (mem_append_left _ (mem_map_of_mem hc))
  rw [hst] at hk
  obtain ⟨uuid, hu⟩ := h.minted _ hk
  obtain ⟨id, -, hid⟩ := h.current s hs
  exact segmentName_ne_dedicatedName id uuid (hid.symm.trans hu)

theorem Present.captures_step (h : st.Present)
    (hn : st.Named carried) (hst : st.Captures ac next) : next.Present := by
  -- a capture or a segment of before keeps its file: what is deleted belongs to a dropped capture
  have hcu : ∀ s, st.state.currentSegment = some s →
      s.name ∈ next.disk.files := by
    intro s hse
    rcases hst.files (h.current s hse) with hf | ⟨i, c, hc, hs, -⟩
    · exact hf
    · exact absurd rfl (hn.current_ne (mem_of_getElem? hc) hs hse)
  have hk : ∀ c ∈ st.captures, c ∈ next.captures →
      (c.stage = .reserved → c.payload.storage.dedicated? = none) →
      c.payload.file ∈ next.disk.files := by
    intro c hold hc hp
    rcases hst.files (h.captures c hold hp) with
      hf | ⟨i, dropped, hd, hs, hr, -⟩
    · exact hf
    · rw [hr] at hc
      exact absurd rfl (hn.erased_ne hd hs hc)
  refine ⟨fun a ha => ?_, fun c hc hp => ?_⟩
  · cases hst with
    | pack _ _ _ _ s _ hse =>
      cases ha
      exact h.current s hse
    | packNew =>
      cases ha
      exact Finset.mem_insert_self _ _
    | _ => exact hcu a ha
  by_cases hold : c ∈ st.captures
  · exact hk c hold hc hp
  -- the step began the capture or moved it on
  cases hst with
  | pack _ _ _ _ s _ hse =>
    obtain rfl := (mem_concat.1 hc).resolve_left hold
    exact h.current s hse
  | packNew =>
    obtain rfl := (mem_concat.1 hc).resolve_left hold
    exact Finset.mem_insert_self _ _
  | mint =>
    obtain rfl := (mem_concat.1 hc).resolve_left hold
    cases hp rfl
  | writeRange _ _ _ _ _ _ hb hs =>
    obtain rfl := (mem_or_eq_of_mem_set hc).resolve_left hold
    have hf := h.captures _ (mem_of_getElem? hb) fun _ => by rw [hs]; rfl
    exact hf
  | writeFile _ _ _ p f _ hs =>
    obtain rfl := (mem_or_eq_of_mem_set hc).resolve_left hold
    refine Finset.mem_insert.2 (.inl ?_)
    show p.storage.file = f
    rw [hs]
    rfl
  | register _ _ _ _ hb =>
    obtain rfl := (mem_or_eq_of_mem_set hc).resolve_left hold
    have hf := h.captures _ (mem_of_getElem? hb) nofun
    exact hf
  | discardFile | discard => exact absurd (mem_of_mem_eraseIdx hc) hold

/-- What a step outside the captures keeps of the store: no name is handed out, no segment opened,
no capture begun or moved on, and only `removed` files go. -/
structure Keeps (store : PayloadStore) (removed : Finset String) (next : PayloadStore) : Prop where
  segments : next.state.nextSegmentId = store.state.nextSegmentId
  minted : next.minted = store.minted
  current : ∀ segment, next.state.currentSegment = some segment →
    store.state.currentSegment = some segment
  captures : next.captures ⊆ store.captures
  files : ∀ name ∈ store.disk.files, name ∉ removed → name ∈ next.disk.files

theorem Keeps.retired {r : Finset String} (hk : st.Keeps r next)
    (h : st.Retired name) : next.Retired name :=
  ⟨h.1.mono hk.segments.ge hk.minted.ge, fun s hs => h.2 s (hk.current s hs)⟩

end PayloadStore

/-! ## Names on their way to a compaction -/

/-- The names the last checkpoint protects. -/
def WalLog.lastSegments (log : WalLog) : Finset String :=
  (log.append.lastCheckpoint.map MountCheckpoint.activeSegments).getD ∅

/-- The names a finished checkpoint makes candidates. -/
def CheckpointCaller.names : CheckpointCaller → Finset String
  | .maintenance => ∅
  | .acknowledgement names => names

namespace Maintenance

/-- Names the holder will make candidates, before it has closed the active segment. -/
def unsealed : Maintenance → Finset String
  | .checkpointStart caller _ | .checkpointSync caller _ _ | .checkpointSeal caller _ =>
    caller.names
  | _ => ∅

/-- Names the holder makes candidates or deletes, with the active segment of their time closed.
`last` are the names of the checkpoint the one under way replaces. -/
def closed (last : Finset String) : Maintenance → Finset String
  | .checkpointIndex caller _ => caller.names ∪ last
  | .writePrevious caller _ _ _ | .writeCurrent caller _ _ | .mark caller _ _ => caller.names
  | .removeLogs plan _ | .deferCandidates plan => plan.candidates
  | .reclaimSnapshot names | .reclaim names _ => names
  | _ => ∅

/-- The files the compaction under way is going to delete. -/
def doomed : Maintenance → Finset String
  | .removeLogs plan _ | .deferCandidates plan =>
    plan.candidates \ (plan.referenced ∪ plan.protectedNames)
  | .reclaimSnapshot names | .reclaim names _ => names
  | _ => ∅

theorem doomed_subset_closed (last : Finset String) (held : Maintenance) :
    held.doomed ⊆ held.closed last := by
  cases held with
  | removeLogs | deferCandidates => exact Finset.sdiff_subset
  | reclaimSnapshot | reclaim => exact subset_rfl
  | _ => exact Finset.empty_subset _

end Maintenance

namespace MountWal

/-- The files the compaction under way is going to delete. -/
def doomed (wal : MountWal) : Finset String := (wal.maintenance.map Maintenance.doomed).getD ∅

/-- The name may become a candidate, and its segment may still be active. -/
def Queued (wal : MountWal) (name : String) : Prop :=
  (∃ pending ∈ wal.acknowledging, name ∈ pending.names) ∨
    name ∈ (wal.maintenance.map Maintenance.unsealed).getD ∅ ∨ name ∈ wal.log.lastSegments

/-- The name is a candidate, or is going to be one and its segment is closed. -/
def Unused (wal : MountWal) (name : String) : Prop :=
  name ∈ wal.log.append.reclaimCandidates ∨ (∃ names ∈ wal.released, name ∈ names) ∨
    name ∈ (wal.maintenance.map (Maintenance.closed wal.log.lastSegments)).getD ∅

variable {framing fr : Framing} {wal next : MountWal} {name : String}

theorem unused_of_doomed (h : name ∈ wal.doomed) : wal.Unused name := by
  refine .inr (.inr ?_)
  unfold doomed at h
  cases hh : wal.maintenance with
  | none =>
    rw [hh] at h
    cases h
  | some held =>
    rw [hh] at h
    exact held.doomed_subset_closed _ h

theorem queued_of_held {held : Maintenance} (hh : wal.maintenance = some held)
    (h : name ∈ held.unsealed) : wal.Queued name :=
  .inr (.inl (by rw [hh]; exact h))

theorem unused_of_held {held : Maintenance} (hh : wal.maintenance = some held)
    (h : name ∈ held.closed wal.log.lastSegments) : wal.Unused name :=
  .inr (.inr (by rw [hh]; exact h))

theorem lastSegments_of_books {log log' : WalLog} (h : log'.append.books = log.append.books) :
    log'.lastSegments = log.lastSegments :=
  congrArg (fun b => (b.lastCheckpoint.map MountCheckpoint.activeSegments).getD ∅) h

theorem queued_of_parts (h : next.Queued name) (ha : next.acknowledging ⊆ wal.acknowledging)
    (hh : name ∈ (next.maintenance.map Maintenance.unsealed).getD ∅ → wal.Queued name)
    (hl : next.log.lastSegments = wal.log.lastSegments) : wal.Queued name := by
  rcases h with ⟨p, hp, hn⟩ | hn | hn
  · exact .inl ⟨p, ha hp, hn⟩
  · exact hh hn
  · exact .inr (.inr (hl ▸ hn))

theorem unused_of_parts (h : next.Unused name)
    (hc : next.log.append.reclaimCandidates ⊆ wal.log.append.reclaimCandidates)
    (hr : next.released ⊆ wal.released)
    (hh : name ∈ (next.maintenance.map (Maintenance.closed next.log.lastSegments)).getD ∅ →
      wal.Unused name) : wal.Unused name := by
  rcases h with hn | ⟨n, hna, hn⟩ | hn
  · exact .inl (hc hn)
  · exact .inr (.inl ⟨n, hr hna, hn⟩)
  · exact hh hn

variable {action ac : WalAction}

/-- What waits to become a candidate waited before the step, or was the file of a prepare. -/
theorem Steps.queued (h : wal.Steps fr ac next)
    (hw : wal.Consistent fr) (hq : next.Queued name) :
    wal.Queued name ∨ name ∈ payloadNames wal.log.append.prepared := by
  -- the lock is free, or its holder queues nothing
  have hi : next.acknowledging ⊆ wal.acknowledging →
      (next.maintenance.map Maintenance.unsealed).getD ∅ = ∅ →
      next.log.lastSegments = wal.log.lastSegments → wal.Queued name := by
    intro ha he hl
    refine queued_of_parts hq ha (fun hn => ?_) hl
    rw [he] at hn
    cases hn
  cases h with
  | record _ h =>
    exact .inl (queued_of_parts hq (List.Subset.refl _)
      (fun hn => .inr (.inl hn)) (lastSegments_of_books h.frame.1))
  | prepareCapture _ _ _ _ _ h =>
    exact .inl (queued_of_parts hq (List.Subset.refl _)
      (fun hn => .inr (.inl hn)) (lastSegments_of_books (WalLog.prepare_books h)))
  | acknowledge _ _ _ h =>
    rcases hq with ⟨p, hp, hn⟩ | hn | hn
    · rcases mem_concat.1 hp with hold | rfl
      · exact .inl (.inl ⟨p, hold, hn⟩)
      · obtain ⟨-, -, -, -, heq⟩ := WalLog.acknowledge_eq_some h
        obtain ⟨-, rfl⟩ := Prod.mk.inj heq
        obtain ⟨record, hr, hpa⟩ := mem_payloadNames.1 hn
        exact .inr (mem_payloadNames.2 ⟨record, mem_of_mem_filter hr, hpa⟩)
    · exact .inl (.inr (.inl hn))
    · exact .inl (.inr (.inr (lastSegments_of_books (WalLog.acknowledge_books h) ▸ hn)))
  | sync _ h => cases h <;> exact .inl hq
  | acknowledgedCheckpoint _ p hp =>
    refine .inl (queued_of_parts hq (eraseIdx_subset ..) (fun hn => ?_) rfl)
    exact .inl ⟨p, mem_of_getElem? hp, hn⟩
  | rotate _ h =>
    obtain ⟨-, -, rfl⟩ := WalLog.rotateCreate_eq_some h
    exact .inl (hi (List.Subset.refl _) rfl rfl)
  | compact _ h =>
    obtain ⟨rfl, -⟩ := WalLog.compactBegin_eq_some h
    exact .inl (hi (List.Subset.refl _) rfl rfl)
  | advance _ hh h =>
    cases h with
    | checkpointStart | checkpointSync =>
      exact .inl (queued_of_parts hq (List.Subset.refl _) (queued_of_held hh) rfl)
    | described =>
      rcases hq with ha | hn | hn
      · exact .inl (.inl ha)
      · cases hn
      · exact .inr hn
    | mark c _ _ h =>
      have hl := lastSegments_of_books (WalLog.markCheckpoint_books h)
      cases c <;> exact .inl (hi (List.Subset.refl _) rfl hl)
    | rotateSwap _ h =>
      obtain ⟨rfl, rfl⟩ := WalLog.rotateSwap_eq_true h
      exact .inl (hi (List.Subset.refl _) rfl rfl)
    | rotateLost _ h => exact absurd (hw.held _ hh).1.symm (WalLog.rotateSwap_eq_false h)
    | deferCandidates =>
      refine .inl (hi (List.Subset.refl _) ?_ rfl)
      unfold splitCandidates
      simp only
      split_ifs <;> rfl
    | _ => exact .inl (hi (List.Subset.refl _) rfl rfl)
  | capture | acknowledgeNothing | release | sealSegment | rotateNothing | compactNothing =>
    exact .inl hq
  | _ => exact .inl (hi (List.Subset.refl _) rfl rfl)

/-- What is a candidate, or is going to be one, was so before the step, or the step closed the
active segment and the name waited. -/
theorem Steps.unused (h : wal.Steps fr ac next)
    (hw : wal.Consistent fr) (hu : next.Unused name) :
    wal.Unused name ∨ (wal.Queued name ∧ next.payloads = wal.payloads.sealActiveSegment) := by
  have hi : next.log.append.reclaimCandidates ⊆ wal.log.append.reclaimCandidates →
      next.released ⊆ wal.released →
      (next.maintenance.map (Maintenance.closed next.log.lastSegments)).getD ∅ = ∅ →
      wal.Unused name := by
    intro hc hr he
    refine unused_of_parts hu hc hr fun hn => ?_
    rw [he] at hn
    cases hn
  -- a section of the log, whoever holds the lock
  have hb : next.log.append.books = wal.log.append.books → next.released = wal.released →
      next.maintenance = wal.maintenance → wal.Unused name := by
    intro hb hr hh
    have hc : next.log.append.reclaimCandidates = wal.log.append.reclaimCandidates :=
      congrArg LogBooks.reclaimCandidates hb
    refine unused_of_parts hu hc.le (hr ▸ List.Subset.refl _) fun hn => ?_
    rw [hh, lastSegments_of_books hb] at hn
    exact .inr (.inr hn)
  cases h with
  | record _ h => exact .inl (hb h.frame.1 rfl rfl)
  | prepareCapture _ _ _ _ _ h => exact .inl (hb (WalLog.prepare_books h) rfl rfl)
  | acknowledge _ _ _ h => exact .inl (hb (WalLog.acknowledge_books h) rfl rfl)
  | release _ n h =>
    rcases hu with hn | ⟨o, ho, hn⟩ | hn
    · rcases Finset.mem_union.1 hn with hold | hnew
      · exact .inl (.inl hold)
      · exact .inl (.inr (.inl ⟨n, mem_of_getElem? h, hnew⟩))
    · exact .inl (.inr (.inl ⟨o, mem_of_mem_eraseIdx ho, hn⟩))
    · exact .inl (.inr (.inr hn))
  | sync _ h => cases h <;> exact .inl hu
  | rotate _ h =>
    obtain ⟨-, -, rfl⟩ := WalLog.rotateCreate_eq_some h
    exact .inl (hi subset_rfl (List.Subset.refl _) rfl)
  | compact _ h =>
    obtain ⟨rfl, rfl⟩ := WalLog.compactBegin_eq_some h
    refine .inl (unused_of_parts hu (Finset.empty_subset _) (List.Subset.refl _) ?_)
    exact fun hn => .inl hn
  | advance held hh h =>
    have hcl : next.log.append.reclaimCandidates ⊆ wal.log.append.reclaimCandidates →
        next.released ⊆ wal.released →
        (next.maintenance.map (Maintenance.closed next.log.lastSegments)).getD ∅ ⊆
          held.closed wal.log.lastSegments → wal.Unused name := by
      intro hc hr hs
      exact unused_of_parts hu hc hr fun hn =>
        unused_of_held hh (hs hn)
    cases h with
    | checkpointSeal =>
      rcases hu with hn | hn | hn
      · exact .inl (.inl hn)
      · exact .inl (.inr (.inl hn))
      · rcases Finset.mem_union.1 hn with hca | hl
        · exact .inr ⟨queued_of_held hh hca, rfl⟩
        · exact .inr ⟨.inr (.inr hl), rfl⟩
    | described _ _ _ _ _ ha =>
      rcases hu with hn | hn | hn
      · rcases Finset.mem_union.1 (ha hn) with hold | hst
        · exact .inl (.inl hold)
        · exact .inl (unused_of_held hh (Finset.mem_union_right _ (Finset.mem_sdiff.1 hst).1))
      · exact .inl (.inr (.inl hn))
      · exact .inl (unused_of_held hh (Finset.mem_union_left _ hn))
    | mark c _ _ h =>
      have hc := (congrArg LogBooks.reclaimCandidates (WalLog.markCheckpoint_books h)).le
      cases c with
      | maintenance => exact .inl (hi hc (List.Subset.refl _) rfl)
      | acknowledgement =>
        rcases hu with hn | ⟨o, ho, hn⟩ | hn
        · exact .inl (.inl (hc hn))
        · rcases mem_concat.1 ho with hold | rfl
          · exact .inl (.inr (.inl ⟨o, hold, hn⟩))
          · exact .inl (unused_of_held hh hn)
        · cases hn
    | rotateSwap _ h =>
      obtain ⟨rfl, rfl⟩ := WalLog.rotateSwap_eq_true h
      exact .inl (hi subset_rfl (List.Subset.refl _) rfl)
    | rotateLost _ h => exact absurd (hw.held _ hh).1.symm (WalLog.rotateSwap_eq_false h)
    | deferCandidates =>
      rcases hu with hn | hn | hn
      · rcases Finset.mem_union.1 hn with hold | hne
        · exact .inl (.inl hold)
        · exact .inl (unused_of_held hh (Finset.mem_inter.1 hne).1)
      · exact .inl (.inr (.inl hn))
      · refine .inl (unused_of_held hh ?_)
        unfold splitCandidates at hn
        simp only at hn
        split_ifs at hn
        · cases hn
        · exact (Finset.mem_sdiff.1 hn).1
    | reclaimSnapshot => exact .inl (hcl subset_rfl (List.Subset.refl _) Finset.sdiff_subset)
    | checkpointStart | checkpointSync | refused | rotateSync | rotateSyncDirectory | reclaimed =>
      exact .inl (hi subset_rfl (List.Subset.refl _) rfl)
    | _ => exact .inl (hcl subset_rfl (List.Subset.refl _) subset_rfl)
  | reclaimFile _ _ _ hh =>
    refine .inl (unused_of_parts hu subset_rfl (List.Subset.refl _) fun hle => ?_)
    exact unused_of_held hh (Finset.mem_of_mem_erase hle)
  | capture | acknowledgeNothing | sealSegment | rotateNothing | compactNothing => exact .inl hu
  | _ => exact .inl (hi subset_rfl (List.Subset.refl _) rfl)

/-! ## Live files -/

/-- A capture under way or a prepare above the cursor refers to the file. -/
def Live (wal : MountWal) (name : String) : Prop :=
  (∃ capture ∈ wal.payloads.captures, capture.payload.file = name) ∨
    ∃ sequence payload, (sequence, payload) ∈ wal.log.view.carried ∧
      wal.log.append.acknowledgedSequence < sequence ∧ payload.file = name

/-- A step outside the captures keeps the store, and deletes only what a compaction doomed. -/
theorem Steps.keeps (h : wal.Steps fr ac next) :
    (∃ capture, ac = .capture capture ∧ wal.payloads.Captures capture next.payloads) ∨
      wal.payloads.Keeps wal.doomed next.payloads := by
  have hs : next.payloads.state.nextSegmentId = wal.payloads.state.nextSegmentId →
      next.payloads.state.currentSegment = wal.payloads.state.currentSegment →
      next.payloads.minted = wal.payloads.minted → next.payloads.captures = wal.payloads.captures →
      next.payloads.disk.files = wal.payloads.disk.files →
      wal.payloads.Keeps wal.doomed next.payloads :=
    fun hse hcu hm hc hfi => ⟨hse, hm,
      fun _ h => hcu ▸ h, hc ▸ List.Subset.refl _, fun _ hf _ => hfi ▸ hf⟩
  cases h with
  | capture ac h => exact .inl ⟨ac, rfl, h⟩
  | prepareCapture _ _ _ _ _ h =>
    exact .inr ⟨rfl, rfl, fun _ h => h, eraseIdx_subset .., fun _ hf _ => hf⟩
  | sync _ h =>
    cases h with
    | syncPayload _ _ _ _ h =>
      unfold PayloadStore.syncFile at h
      split_ifs at h
      cases h
      exact .inr (hs rfl rfl rfl rfl rfl)
    | _ => exact .inr (hs rfl rfl rfl rfl rfl)
  | sealSegment => exact .inr ⟨rfl, rfl, (nofun), List.Subset.refl _, fun _ hf _ => hf⟩
  | advance _ _ h =>
    cases h with
    | checkpointSeal => exact .inr ⟨rfl, rfl, (nofun), List.Subset.refl _, fun _ hf _ => hf⟩
    | reclaimed r => cases r <;> exact .inr (hs rfl rfl rfl rfl rfl)
    | mark c => cases c <;> exact .inr (hs rfl rfl rfl rfl rfl)
    | _ => exact .inr (hs rfl rfl rfl rfl rfl)
  | reclaimFile _ _ _ hh hn =>
    refine .inr ⟨rfl, rfl, fun _ h => h, List.Subset.refl _, fun name hf hsp => ?_⟩
    refine Finset.mem_erase.2 ⟨?_, hf⟩
    rintro rfl
    unfold doomed at hsp
    rw [hh] at hsp
    exact hsp hn
  | _ => exact .inr (hs rfl rfl rfl rfl rfl)

/-- What is live was live before the step, or a capture began in it. -/
theorem Steps.live (h : wal.Steps fr ac next)
    (hw : wal.Consistent fr) (hn : wal.Named) (hl : next.Live name) :
    wal.Live name ∨ ¬ wal.payloads.Retired name := by
  rcases hl with ⟨c, hc, rfl⟩ | ⟨s, p, hmem, hlt, rfl⟩
  · rcases h.keeps with ⟨ac, -, hca⟩ | hk
    · rcases hca.file_cases hn c hc with ⟨old, hold, hs⟩ | hne
      · exact .inl (.inl ⟨old, hold, congrArg PayloadRef.file hs⟩)
      · exact .inr hne
    · exact .inl (.inl ⟨c, hk.captures hc, rfl⟩)
  · have hle := (h.logStep hw).acknowledgedSequence_le
    rcases h.carried hw with ⟨-, hs⟩ | ⟨_, c, -, hc, hm⟩
    · rw [hs] at hmem
      exact .inl (.inr ⟨s, p, hmem, hle.trans_lt hlt, rfl⟩)
    · rw [hm] at hmem
      rcases List.mem_append.1 hmem with hold | hne
      · exact .inl (.inr ⟨s, p, hold, hle.trans_lt hlt, rfl⟩)
      · obtain ⟨-, rfl⟩ := Prod.mk.inj (List.mem_singleton.1 hne)
        exact .inl (.inl ⟨c, mem_of_getElem? hc, rfl⟩)

/-- A file is doomed only by the snapshot of a compaction. -/
theorem Steps.doomed (h : wal.Steps fr ac next)
    (hn : name ∈ next.doomed) :
    name ∈ wal.doomed ∨ (ac = .maintenance .compact ∧
      name ∈ wal.log.append.reclaimCandidates ∧
      name ∉ payloadNames wal.log.append.prepared ∪ wal.log.lastSegments) := by
  have hi : next.doomed = ∅ → name ∈ wal.doomed := by
    intro he
    rw [he] at hn
    cases hn
  have hof : ∀ {held}, wal.maintenance = some held → name ∈ held.doomed → name ∈ wal.doomed := by
    intro held hh hmem
    unfold MountWal.doomed
    rw [hh]
    exact hmem
  cases h with
  | sync _ h => cases h <;> exact .inl hn
  | compact _ h =>
    obtain ⟨rfl, rfl⟩ := WalLog.compactBegin_eq_some h
    obtain ⟨hc, hne⟩ := Finset.mem_sdiff.1 hn
    exact .inr ⟨rfl, hc, hne⟩
  | advance _ hh h =>
    cases h with
    | mark c => cases c <;> exact .inl (hi rfl)
    | removeLog | removedLogs | keptLogs => exact .inl (hof hh hn)
    | deferCandidates =>
      refine .inl (hof hh ?_)
      unfold splitCandidates MountWal.doomed at hn
      simp only at hn
      split_ifs at hn
      · cases hn
      · exact hn
    | reclaimSnapshot => exact .inl (hof hh (Finset.mem_sdiff.1 hn).1)
    | _ => exact .inl (hi rfl)
  | reclaimFile _ _ _ hh => exact .inl (hof hh (Finset.mem_of_mem_erase hn))
  | capture | record | prepareCapture | acknowledgeNothing | acknowledge | release | sealSegment |
    rotateNothing | compactNothing => exact .inl hn
  | _ => exact .inl (hi rfl)

/-! ## Live files are kept -/

/-- Every payload of a prepare above the cursor has its file, and so has every capture that is not
appended: a packed one from its reservation on, a dedicated one from its write on. -/
def PayloadsLive (wal : MountWal) : Prop :=
  (∀ event ∈ wal.log.view.events, wal.log.append.acknowledgedSequence < event.sequence →
    ∀ payload ∈ event.payload, payload.file ∈ wal.payloads.disk.files) ∧
  ∀ capture ∈ wal.payloads.captures,
    (capture.stage = .reserved → capture.payload.storage.dedicated? = none) →
      capture.payload.file ∈ wal.payloads.disk.files

instance (wal : MountWal) : Decidable wal.PayloadsLive :=
  inferInstanceAs (Decidable ((∀ event ∈ wal.log.view.events, _ → _) ∧
    ∀ capture ∈ wal.payloads.captures, _ → _))

/-- A compaction begins only while no capture under way is in a candidate file that neither a
retained prepare nor the last checkpoint names. -/
def CompactsApart (action : WalAction) (wal : MountWal) : Prop :=
  match action with
  | .maintenance .compact => ∀ capture ∈ wal.payloads.captures,
      capture.payload.file ∈ wal.log.append.reclaimCandidates →
        capture.payload.file ∈ payloadNames wal.log.append.prepared ∪ wal.log.lastSegments
  | _ => True

instance (action : WalAction) (wal : MountWal) : Decidable (CompactsApart action wal) := by
  unfold CompactsApart
  split <;> infer_instance

/-- The invariant behind the deletion of payload files. -/
structure Spared (framing : Framing) (wal : MountWal) : Prop where
  consistent : wal.Consistent framing
  named : wal.Named
  handed : ∀ name, wal.Queued name → wal.payloads.Handed name
  retired : ∀ name, wal.Unused name → wal.payloads.Retired name
  spared : ∀ name, wal.Live name → name ∉ wal.doomed
  present : wal.payloads.Present
  carried : ∀ sequence payload, (sequence, payload) ∈ wal.log.view.carried →
    wal.log.append.acknowledgedSequence < sequence → payload.file ∈ wal.payloads.disk.files

theorem Spared.handed_prepared (h : wal.Spared fr)
    (hn : name ∈ payloadNames wal.log.append.prepared) : wal.payloads.Handed name := by
  obtain ⟨_, hr, p, hp, rfl⟩ := mem_payloadNames.1 hn
  have hmem := h.consistent.laid.carried_of_prepared hr hp
  exact (h.named.known p (mem_append_right _ (List.mem_map.2 ⟨_, hmem, rfl⟩))).handed

theorem Steps.handed (h : wal.Steps fr ac next)
    (hn : wal.payloads.Handed name) : next.payloads.Handed name := by
  rcases h.keeps with ⟨ac, -, hc⟩ | hk
  · exact hn.captures hc
  · exact hn.mono hk.segments.ge hk.minted.ge

theorem Spared.retired_step (h : wal.Spared fr)
    (hs : wal.Steps fr ac next) (hn : next.Unused name) :
    next.payloads.Retired name := by
  rcases hs.unused h.consistent hn with hold | ⟨hq, hse⟩
  · rcases hs.keeps with ⟨ac, -, hc⟩ | hk
    · exact (h.retired name hold).captures h.named hc
    · exact hk.retired (h.retired name hold)
  · refine ⟨hs.handed (h.handed name hq), ?_⟩
    rw [hse]
    exact nofun

/-- A compaction that begins apart from the captures dooms no live file, and what is doomed does
not come alive. -/
theorem Spared.spared_step (h : wal.Spared fr)
    (ha : CompactsApart ac wal) (hs : wal.Steps fr ac next)
    (hl : next.Live name) : name ∉ next.doomed := by
  intro hd
  rcases hs.doomed hd with hold | ⟨rfl, hc, hn⟩
  · rcases hs.live h.consistent h.named hl with hb | hne
    · exact h.spared name hb hold
    · exact hne (h.retired name (unused_of_doomed hold))
  · rcases hs.live h.consistent h.named hl with hb | hne
    · rcases hb with ⟨c, hca, rfl⟩ | ⟨_, p, hmem, hlt, rfl⟩
      · exact hn (ha c hca hc)
      · obtain ⟨r, hr, hp⟩ := h.consistent.laid.prepared_of_carried hmem hlt
        exact hn (Finset.mem_union_left _ (mem_payloadNames.2 ⟨r, hr, p, hp, rfl⟩))
    · exact hne (h.retired name (.inl hc))

theorem Spared.present_step (h : wal.Spared fr)
    (hst : wal.Steps fr ac next) : next.payloads.Present := by
  rcases hst.keeps with ⟨ac, -, hc⟩ | hk
  · exact h.present.captures_step h.named hc
  · refine ⟨fun s hs => ?_, fun c hca hp => ?_⟩
    · have ha := hk.current s hs
      exact hk.files _ (h.present.current s ha) fun hd =>
        (h.retired _ (unused_of_doomed hd)).2 s ha rfl
    · have hold := hk.captures hca
      exact hk.files _ (h.present.captures c hold hp) (h.spared _ (.inl ⟨c, hold, rfl⟩))

theorem Spared.carried_step {s : Nat} {p : PayloadRef}
    (h : wal.Spared fr) (hs : wal.Steps fr ac next)
    (hmem : (s, p) ∈ next.log.view.carried)
    (hlt : next.log.append.acknowledgedSequence < s) :
    p.file ∈ next.payloads.disk.files := by
  have hle := (hs.logStep h.consistent).acknowledgedSequence_le
  -- a prepare of before keeps its file
  have hk : (s, p) ∈ wal.log.view.carried →
      p.file ∈ next.payloads.disk.files := by
    intro hold
    have hf := h.carried s p hold (hle.trans_lt hlt)
    rcases hs.keeps with ⟨ac, -, hca⟩ | hke
    · rcases hca.files hf with hf | ⟨i, c, hc, hst, -⟩
      · exact hf
      · exact absurd rfl (h.named.carried_ne (mem_of_getElem? hc) hst hold)
    · exact hke.files _ hf (h.spared _ (.inr ⟨s, p, hold, hle.trans_lt hlt, rfl⟩))
  rcases hs.carried h.consistent with ⟨-, hsa⟩ | ⟨i, c, rfl, hc, hm⟩
  · exact hk (hsa ▸ hmem)
  · rw [hm] at hmem
    rcases List.mem_append.1 hmem with hold | hn
    · exact hk hold
    · obtain ⟨-, rfl⟩ := Prod.mk.inj (List.mem_singleton.1 hn)
      cases hs with
      | prepareCapture _ _ hrea hsta =>
        cases hc.symm.trans hrea
        exact h.present.captures c (mem_of_getElem? hc) fun hr =>
          nomatch hr.symm.trans hsta
      | record _ hre => cases hre

/-- Every step that compacts apart from the captures keeps the invariant. -/
theorem Spared.steps (h : wal.Spared fr)
    (ha : CompactsApart ac wal) (hs : wal.Steps fr ac next) :
    next.Spared fr where
  consistent := h.consistent.steps hs
  named := h.named.steps h.consistent hs
  handed name hq := by
    rcases hs.queued h.consistent hq with hold | hp
    · exact hs.handed (h.handed name hold)
    · exact hs.handed (h.handed_prepared hp)
  retired _ hu := h.retired_step hs hu
  spared _ hl := h.spared_step ha hs hl
  present := h.present_step hs
  carried _ _ hmem hlt := h.carried_step hs hmem hlt

theorem spared_fresh {e : String} (hs : Startable fr e) :
    (fresh fr e).Spared fr := by
  refine ⟨consistent_fresh hs, named_fresh e, fun name hq => ?_,
    fun name hu => ?_, fun name hl hd => ?_, ⟨fun _ h => ?_, fun _ h => ?_⟩,
    fun s p hmem => ?_⟩
  · rcases hq with ⟨_, hmem, -⟩ | hmem | hmem <;> cases hmem
  · rcases hu with hmem | ⟨_, hmem, -⟩ | hmem <;> cases hmem
  · cases hd
  · cases h
  · cases h
  · rw [carried_fresh] at hmem
    cases hmem

/-- **No live payload file is deleted**, in every run whose compactions begin apart from the
captures under way. -/
theorem payloadsLive_of_run {epoch : String} {initial : MountWal} {actions : List WalAction}
    (hcreate : create framing epoch = .ok initial)
    (hrun : Schedule.run (Schedule.guarded CompactsApart (exec framing)) actions initial =
      some wal) : wal.PayloadsLive := by
  obtain ⟨hs, rfl⟩ := create_eq_ok hcreate
  have hinv : wal.Spared framing := by
    refine Schedule.run_invariant (fun action b a hb hst => ?_) hrun (spared_fresh hs)
    obtain ⟨ha, hexe⟩ := Schedule.guarded_eq_some.1 hst
    exact hb.steps ha (steps_of_exec hexe)
  refine ⟨fun e he hlt p hp => ?_, hinv.present.captures⟩
  refine hinv.carried e.sequence p (List.mem_filterMap.2 ⟨e, he, ?_⟩) hlt
  rw [MountEvent.carries, Option.mem_def.1 hp]
  rfl

/-! ### A capture in a segment that is given up -/

/-- Another write of the same length. -/
def otherWrite : MountMutation := .replaceFile ["drafts"] 420 none none

def otherWriteImage : MountPreImage := ⟨[⟨["drafts"], .present .file 420 "8:2" 4 1 none⟩]⟩

/-- The event of `smallWrite`, packed behind four bytes of the first segment. -/
def packedEvent : MountEvent where
  formatVersion := walFormatVersion
  epoch := "epoch"
  sequence := 1
  idempotencyKey := "epoch:1"
  mutation := smallWrite
  payload := some ⟨.segment (segmentName 0) 4, 4, payloadHashAlgorithm, "9f86d081"⟩
  preImage := smallWriteImage
  localIdentity := none

/-- A second round, with nothing but the log to sync. -/
def logRound : List WalAction :=
  [.sync .begin, .sync .takeDirty, .sync .syncLog, .sync .finish]

/-- The holder of the maintenance lock takes some steps. -/
def advances (count : Nat) : List WalAction := List.replicate count (.maintenance .advance)

/-- Two calls pack into one segment; one of them appends its prepare, which is committed, synced,
acknowledged and checkpointed. -/
def givenUp : List WalAction :=
  [.capture (.reserveSegment otherWrite otherWriteImage 4 "60303ae2"), .capture (.write 0),
    .capture (.reserveSegment smallWrite smallWriteImage 4 "9f86d081"), .capture (.write 1),
    .record (.prepareCapture 1), .record (.commit packedEvent none)] ++ syncedRound ++
    [.record (.acknowledge 1 7 0)] ++ logRound ++ [.maintenance (.acknowledgedCheckpoint 0)] ++
    advances 7 ++ [.record (.release 0)]

/-- A compaction that runs to the deletion of the segment. -/
def compacted : List WalAction :=
  [.maintenance .compact] ++ advances 3 ++ [.maintenance (.reclaimFile (segmentName 0))]

/-- A compaction deletes the file of a capture whose prepare is not appended yet. -/
theorem deleted_under_capture : ∃ initial wal,
    create smallFrames "epoch" = .ok initial ∧
      Schedule.run (exec smallFrames) (givenUp ++ compacted) initial = some wal ∧
      ¬ wal.PayloadsLive := by
  have hrun : (Schedule.run (exec smallFrames) (givenUp ++ compacted)
      (fresh smallFrames "epoch")).any (fun wal => ¬ wal.PayloadsLive) = true := by decide +kernel
  obtain ⟨wal, hw, hl⟩ := Schedule.exists_of_run_any hrun
  exact ⟨_, wal, create_eq startable_smallFrames, hw, of_decide_eq_true hl⟩

/-- With the other prepare appended before the compaction, the same compaction keeps the segment,
which the new prepare names. -/
theorem payloadsLive_of_givenUp : ∃ initial wal,
    create smallFrames "epoch" = .ok initial ∧
      Schedule.run (Schedule.guarded CompactsApart (exec smallFrames))
        (givenUp ++ [.record (.prepareCapture 0), .maintenance .compact] ++ advances 2)
        initial = some wal ∧
      (∃ event ∈ wal.log.view.events,
        wal.log.append.acknowledgedSequence < event.sequence ∧ event.payload.isSome = true) ∧
      wal.PayloadsLive := by
  have hrun : (Schedule.run (Schedule.guarded CompactsApart (exec smallFrames))
      (givenUp ++ [.record (.prepareCapture 0), .maintenance .compact] ++ advances 2)
      (fresh smallFrames "epoch")).any (fun wal => ∃ event ∈ wal.log.view.events,
        wal.log.append.acknowledgedSequence < event.sequence ∧ event.payload.isSome = true) =
        true := by decide +kernel
  obtain ⟨wal, hw, he⟩ := Schedule.exists_of_run_any hrun
  exact ⟨_, wal, create_eq startable_smallFrames, hw, of_decide_eq_true he,
    payloadsLive_of_run (create_eq startable_smallFrames) hw⟩

end MountWal

end Chevalier.LocalView
