import Chevalier.LocalView.Publish.Footprint
import Chevalier.LocalView.Wal.Index

/-!
# Publish batches

`nextPublishBatch` collects the next contiguous committed prefix of the log. Content generations of
one path are collapsed on the way: a whole-file generation supersedes the queued generation of its
path, an append folds onto the queued generation it extends, as long as no event in between is an
ordering boundary for the path (`placeContentGeneration`).

`scanBatch_inv` is the loop invariant: applying the queued events covers applying every event of
the prefix in log order.
-/

namespace Chevalier.LocalView

open List

/-- Where a committed content generation goes in a batch's wire plan. -/
inductive ContentPlacement
  | push
  | supersede (index : Nat)
  | fold (index : Nat)
deriving DecidableEq, Repr

/-- The backward walk over the queued events, newest first; the index of the head is the number of
events behind it. -/
def placeBackward (candidate : MountEvent) (path : MountPath) :
    List PublishEvent → ContentPlacement
  | [] => .push
  | event :: earlier =>
    if event.mutation.isLocalOnly ||
        !dependencySetsConflict candidate.dependencyKeys event.dependencyKeys then
      placeBackward candidate path earlier
    else if event.mutation.isContent && event.mutation.primaryPath == path then
      match candidate.mutation with
      | .replaceFile .. => .supersede earlier.length
      | .appendFile _ _ baseSize baseContentHash _ _ =>
        if event.publishedContent = some (baseSize, baseContentHash) then .fold earlier.length
        else .push
      | _ => .push
    else .push

/-- Plan a candidate against the events already queued. -/
def placeContentGeneration (events : List PublishEvent) (candidate : MountEvent) :
    ContentPlacement :=
  match candidate.mutation with
  | .replaceFile path .. => placeBackward candidate path events.reverse
  | .appendFile path .. => placeBackward candidate path events.reverse
  | _ => .push

/-- Payload bytes an event, with `folding` more bytes folded onto it, holds in memory in a batched
request; streamed payloads hold none. -/
def batchedPayloadBytes (event : PublishEvent) (folding streamThresholdBytes : Nat) : Nat :=
  match event.mutation with
  | .appendFile .. => 0
  | _ =>
    let length := event.wirePayloadLength + folding
    if streamThresholdBytes ≤ length then 0 else length

/-- A contiguous committed prefix the publisher may reconcile. -/
structure PublishBatch where
  events : List PublishEvent
  throughSequence : Nat
deriving DecidableEq, Repr

/-- The bounds of one batch. -/
structure BatchLimits where
  maxEvents : Nat
  maxPayloadBytes : Nat
  streamThresholdBytes : Nat
deriving DecidableEq, Repr

/-- The loop variables of the batch scan. -/
structure BatchScan where
  sequence : Nat
  throughSequence : Nat
  payloadBytes : Nat
  scannedEvents : Nat
  events : List PublishEvent
deriving DecidableEq, Repr

/-- The queue once a committed event is placed. -/
def placeEvent (events : List PublishEvent) (event : MountEvent) :
    ContentPlacement → List PublishEvent
  | .push => events ++ [event.toPublish]
  | .supersede index => events.eraseIdx index ++ [event.toPublish]
  | .fold index =>
    events.modify index fun queued =>
      { queued with foldedAppends := queued.foldedAppends ++ [event] }

/-- The in-memory bytes of the queue once a committed event is placed. -/
def placedPayloadBytes (limits : BatchLimits) (scan : BatchScan) (event : MountEvent)
    (placement : ContentPlacement) : Nat :=
  let bytesAt (index folding : Nat) : Nat :=
    (scan.events[index]?.map fun queued =>
      batchedPayloadBytes queued folding limits.streamThresholdBytes).getD 0
  let (removedBytes, addedBytes) :=
    match placement with
    | .push => (0, batchedPayloadBytes event.toPublish 0 limits.streamThresholdBytes)
    | .supersede index =>
      (bytesAt index 0, batchedPayloadBytes event.toPublish 0 limits.streamThresholdBytes)
    | .fold index => (bytesAt index 0, bytesAt index event.payloadLength)
  scan.payloadBytes - removedBytes + addedBytes

/-- One round of the batch loop; `none` is a `break`. -/
def batchRound (state : AppendState) (limits : BatchLimits) (scan : BatchScan) :
    Option BatchScan :=
  if scan.sequence ∈ state.aborted then
    some { scan with throughSequence := scan.sequence, sequence := scan.sequence + 1 }
  else
    match state.preparedAt scan.sequence with
    | none => none
    | some record =>
      if scan.sequence ∉ state.committed then none
      else if limits.maxEvents ≤ scan.scannedEvents then none
      else
        let placement := placeContentGeneration scan.events record.event
        let nextPayloadBytes := placedPayloadBytes limits scan record.event placement
        if scan.events ≠ [] ∧ limits.maxPayloadBytes < nextPayloadBytes then none
        else
          some
            { sequence := scan.sequence + 1
              throughSequence := scan.sequence
              payloadBytes := nextPayloadBytes
              scannedEvents := scan.scannedEvents + 1
              events := placeEvent scan.events record.event placement }

/-- The batch loop. Every round passes one sequence that the index knows, so a fuel of one more
than their number always reaches a `break` (`scanBatch_batchFuel`). -/
def scanBatch (state : AppendState) (limits : BatchLimits) : Nat → BatchScan → BatchScan
  | 0, scan => scan
  | fuel + 1, scan =>
    match batchRound state limits scan with
    | none => scan
    | some next => scanBatch state limits fuel next

/-- The loop variables before the first round. -/
def AppendState.batchStart (state : AppendState) : BatchScan where
  sequence := state.acknowledgedSequence + 1
  throughSequence := state.acknowledgedSequence
  payloadBytes := 0
  scannedEvents := 0
  events := []

/-- The number of rounds after which the batch loop has stopped. -/
def AppendState.batchFuel (state : AppendState) : Nat :=
  state.aborted.card + state.prepared.length + 1

/-- The next contiguous committed prefix, bounded by event count and batched bytes. -/
def AppendState.nextPublishBatch (state : AppendState) (limits : BatchLimits) :
    Except String (Option PublishBatch) :=
  if limits.maxEvents = 0 then .error "mount publication batch must allow at least one event"
  else if limits.streamThresholdBytes = 0 then
    .error "mount publication stream threshold must be non-zero"
  else
    let scan := scanBatch state limits state.batchFuel state.batchStart
    if scan.throughSequence = state.acknowledgedSequence then .ok none
    else .ok (some { events := scan.events, throughSequence := scan.throughSequence })

/-- The committed events above the cursor and at or below `through`, in log order. -/
def AppendState.coveredEvents (state : AppendState) (through : Nat) : List MountEvent :=
  (List.range' (state.acknowledgedSequence + 1) (through - state.acknowledgedSequence)).filterMap
    fun sequence =>
      if sequence ∈ state.committed then (state.preparedAt sequence).map PreparedRecord.event
      else none

/-! ## The loop stops by itself -/

variable {state st : AppendState} {l : BatchLimits}

theorem AppendState.preparedAt_sequence {s : Nat}
    {r : PreparedRecord} (h : st.preparedAt s = some r) :
    r.event.sequence = s := by
  have h' := find?_some h
  exact of_decide_eq_true h'

theorem AppendState.preparedAt_mem {s : Nat}
    {r : PreparedRecord} (h : st.preparedAt s = some r) :
    r ∈ st.prepared := mem_of_find?_eq_some h

/-- What one round of the loop does. -/
theorem batchRound_cases {scan next : BatchScan}
    (h : batchRound st l scan = some next) :
    (scan.sequence ∈ st.aborted ∧
      next = { scan with throughSequence := scan.sequence, sequence := scan.sequence + 1 }) ∨
    ∃ r, st.preparedAt scan.sequence = some r ∧ scan.sequence ∉ st.aborted ∧
      scan.sequence ∈ st.committed ∧ next.sequence = scan.sequence + 1 ∧
      next.throughSequence = scan.sequence ∧
      next.payloadBytes = placedPayloadBytes l scan r.event
        (placeContentGeneration scan.events r.event) ∧
      (scan.events = [] ∨ next.payloadBytes ≤ l.maxPayloadBytes) ∧
      next.events = placeEvent scan.events r.event
        (placeContentGeneration scan.events r.event) := by
  unfold batchRound at h
  by_cases ha : scan.sequence ∈ st.aborted
  · simp only [ha, if_true, Option.some.injEq] at h
    exact .inl ⟨ha, h.symm⟩
  · simp only [ha, if_false] at h
    cases hr : st.preparedAt scan.sequence with
    | none => simp [hr] at h
    | some r =>
      simp only [hr] at h
      split_ifs at h with hc hmax hb
      cases h
      refine .inr ⟨r, rfl, ha, by simpa using hc, rfl, rfl, rfl, ?_, rfl⟩
      by_cases he : scan.events = []
      · exact .inl he
      · exact .inr (Nat.le_of_not_lt fun hlt => hb ⟨he, hlt⟩)

/-- What holds before the loop and is kept by its rounds holds when it has stopped. -/
theorem scanBatch_induct {P : BatchScan → Prop}
    (hr : ∀ scan next, P scan → batchRound st l scan = some next → P next) :
    ∀ fuel scan, P scan → P (scanBatch st l fuel scan) := by
  intro fuel
  induction fuel with
  | zero => exact fun scan h => h
  | succ _ ih =>
    intro scan h
    rw [scanBatch]
    cases hn : batchRound st l scan with
    | none => exact h
    | some next => exact ih next (hr scan next h hn)

theorem nextPublishBatch_eq {b : PublishBatch}
    (h : st.nextPublishBatch l = .ok (some b)) :
    ∃ scan, scan = scanBatch st l st.batchFuel st.batchStart ∧
      scan.throughSequence ≠ st.acknowledgedSequence ∧
      b = ⟨scan.events, scan.throughSequence⟩ := by
  unfold AppendState.nextPublishBatch at h
  split_ifs at h with hmax hth
  dsimp only at h
  split_ifs at h with ht
  · cases h
  · cases h
    exact ⟨_, rfl, ht, rfl⟩

/-! ## Placing an event covers the log order -/

open PublishEnv Schedule

/-- What placing a content generation has found: the queued generation of the same path behind
which nothing is an ordering boundary. -/
structure PlacedAt (events : List PublishEvent) (candidate : MountEvent) (path : MountPath)
    (index : Nat) (before : List PublishEvent) (queued : PublishEvent)
    (after : List PublishEvent) : Prop where
  split : events = before ++ queued :: after
  index_eq : index = before.length
  generation : queued.mutation.isContent = true ∧ queued.mutation.primaryPath = path
  orderless : ∀ event ∈ after, Orderless event candidate.toPublish

theorem placeBackward_cases (ca : MountEvent) (path : MountPath) :
    ∀ (r af : List PublishEvent),
      (∀ ev ∈ af, Orderless ev ca.toPublish) →
      placeBackward ca path r = .push ∨
      ∃ ind be queued a',
        PlacedAt (r.reverse ++ af) ca path ind be queued a' ∧
        ((placeBackward ca path r = .supersede ind ∧
            ∃ p m i b, ca.mutation = .replaceFile p m i b) ∨
          (placeBackward ca path r = .fold ind ∧
            ∃ p m s h s' h', ca.mutation = .appendFile p m s h s' h' ∧
              queued.publishedContent = some (s, h))) := by
  intro r
  induction r with
  | nil => intro af _; exact .inl rfl
  | cons ev e ih =>
    intro af ha
    rw [placeBackward]
    by_cases hs : (ev.mutation.isLocalOnly ||
        !dependencySetsConflict ca.dependencyKeys ev.dependencyKeys) = true
    · -- the walk continues past an event that is no ordering boundary
      rw [if_pos hs]
      have ho : Orderless ev ca.toPublish := by
        rcases Bool.or_eq_true_iff.1 hs with h | h
        · exact .inl h
        · have h' : dependencySetsConflict ca.dependencyKeys ev.dependencyKeys = false := by
            simpa using h
          have hc : Orderless ca.toPublish ev := .inr (.inr h')
          exact hc.symm
      simpa using ih (ev :: af) (List.forall_mem_cons.2 ⟨ho, ha⟩)
    · rw [if_neg hs]
      by_cases hg : (ev.mutation.isContent && ev.mutation.primaryPath == path) = true
      · rw [if_pos hg]
        have hp : PlacedAt ((ev :: e).reverse ++ af) ca path
            e.length e.reverse ev af :=
          ⟨by simp, by simp, by simpa using hg, ha⟩
        split
        · rename_i hm
          exact .inr ⟨_, _, _, _, hp, .inl ⟨rfl, _, _, _, _, hm⟩⟩
        · rename_i hm
          split_ifs with hb
          · exact .inr ⟨_, _, _, _, hp, .inr ⟨rfl, _, _, _, _, _, _, hm, hb⟩⟩
          · exact .inl rfl
        · exact .inl rfl
      · rw [if_neg hg]
        exact .inl rfl

theorem placeContentGeneration_cases (eve : List PublishEvent) (ca : MountEvent) :
    placeContentGeneration eve ca = .push ∨
    ∃ path ind be queued af, PlacedAt eve ca path ind be queued af ∧
      ((placeContentGeneration eve ca = .supersede ind ∧
          ∃ m i b, ca.mutation = .replaceFile path m i b) ∨
        (placeContentGeneration eve ca = .fold ind ∧
          ∃ m s h s' h', ca.mutation = .appendFile path m s h s' h' ∧
            queued.publishedContent = some (s, h))) := by
  unfold placeContentGeneration
  split
  · rename_i path mode fi base hm
    rcases placeBackward_cases ca path eve.reverse [] (by simp) with
      h | ⟨ind, be, queued, af, hp, ⟨h, -⟩ | ⟨-, p, m, s, h, s', h', hm', -⟩⟩
    · exact .inl h
    · rw [reverse_reverse, append_nil] at hp
      exact .inr ⟨path, ind, be, queued, af, hp, .inl ⟨h, _, _, _, hm⟩⟩
    · rw [hm] at hm'
      cases hm'
  · rename_i path mode bs bh size hash hm
    rcases placeBackward_cases ca path eve.reverse [] (by simp) with
      h | ⟨ind, be, queued, af, hp, ⟨-, p, m, i, b, hm'⟩ |
        ⟨h, p, m, s, g, s', g', hm', hb⟩⟩
    · exact .inl h
    · rw [hm] at hm'
      cases hm'
    · rw [reverse_reverse, append_nil] at hp
      rw [hm] at hm'
      cases hm'
      exact .inr ⟨path, ind, be, queued, af, hp, .inr ⟨h, _, _, _, _, _, hm, hb⟩⟩
  · exact .inl rfl

section

variable {eve : List PublishEvent} {ca : MountEvent} {path : MountPath}
  {ind : Nat} {be af : List PublishEvent} {queued : PublishEvent}

theorem PlacedAt.placeEvent_supersede
    (h : PlacedAt eve ca path ind be queued af) :
    placeEvent eve ca (.supersede ind) = be ++ af ++ [ca.toPublish] := by
  rw [placeEvent, h.split, h.index_eq, eraseIdx_append_of_length_le le_rfl]
  simp

theorem PlacedAt.placeEvent_fold (h : PlacedAt eve ca path ind be queued af) :
    placeEvent eve ca (.fold ind) =
      be ++ { queued with foldedAppends := queued.foldedAppends ++ [ca] } :: af := by
  rw [placeEvent, h.split, h.index_eq, modify_eq_take_cons_drop (by simp)]
  simp

end

theorem MountMutation.dependencyKeys_of_isContent {m : MountMutation}
    (h : m.isContent = true) :
    m.dependencyKeys = mergeDependencyKeys (pathKeys m.primaryPath true) := by
  cases m <;>
    simp_all [isContent, dependencyKeys, affectedPaths, primaryPath]

theorem isGeneration_of_isContent {e : PublishEvent} {path : MountPath}
    (h : e.mutation.isContent = true ∧ e.mutation.primaryPath = path)
    (hs : e.mutation.SealedWithoutBase) : IsGeneration e path := by
  obtain ⟨hc, rfl⟩ := h
  cases hm : e.mutation with
  | replaceFile _ mode fi base =>
    rw [hm] at hs
    obtain rfl : base = none := hs
    exact .inl ⟨mode, fi, hm⟩
  | appendFile _ mode bs bh size hash => exact .inr ⟨mode, bs, bh, size, hash, hm⟩
  | _ => simp [hm, MountMutation.isContent] at hc

/-- The queued generation of the candidate's path has the candidate's keys. -/
theorem PlacedAt.orderless_queued {eve : List PublishEvent} {ca : MountEvent}
    {path : MountPath} {ind : Nat} {be af : List PublishEvent} {queued : PublishEvent}
    (h : PlacedAt eve ca path ind be queued af)
    (hc : ca.mutation.isContent = true) (hp : ca.mutation.primaryPath = path) :
    ∀ e ∈ af, Orderless queued e := by
  intro e he
  have hke : queued.dependencyKeys = ca.toPublish.dependencyKeys := by
    change queued.mutation.dependencyKeys = ca.mutation.dependencyKeys
    rw [MountMutation.dependencyKeys_of_isContent h.generation.1,
      MountMutation.dependencyKeys_of_isContent hc, h.generation.2, hp]
  rcases h.orderless e he with hl | hl | hk
  · exact .inr (.inl hl)
  · change ca.mutation.isLocalOnly = true at hl
    cases hm : ca.mutation <;>
      simp [hm, MountMutation.isLocalOnly, MountMutation.isContent] at hl hc
  · have hs : Orderless e queued := .inr (.inr (by rw [hke]; exact hk))
    exact hs.symm

theorem chainBytes_fold (env : PublishEnv) (queued : PublishEvent) (e : MountEvent) :
    env.chainBytes { queued with foldedAppends := queued.foldedAppends ++ [e] } =
      env.chainBytes queued ++ env.chainBytes e.toPublish := by
  cases h : e.payload <;>
    simp [chainBytes, PublishEvent.payloadChain, MountEvent.toPublish, h, filterMap_append]

/-- **Placing an event covers applying it after the queue.** -/
theorem placeEvent_covers (env : PublishEnv) (eve : List PublishEvent) (e : MountEvent)
    (hq : ∀ queued ∈ eve, queued.mutation.SealedWithoutBase)
    (hs : e.mutation.SealedWithoutBase) :
    Covers env.opStep (eve ++ [e.toPublish]) (placeEvent eve e (placeContentGeneration eve e)) := by
  rcases placeContentGeneration_cases eve e with
    h | ⟨path, ind, be, queued, af, hp, ⟨h, m, i, b, hm⟩ |
      ⟨h, m, s, g, s', g', hm, -⟩⟩
  · rw [h]
    exact Covers.refl _
  all_goals
    have hg : IsGeneration queued path :=
      isGeneration_of_isContent hp.generation (hq queued (by simp [hp.split]))
    rw [h]
  · -- the queued generation is delayed to just before the one that supersedes it
    rw [hm] at hs
    obtain rfl : b = none := hs
    have hd : Covers env.opStep (queued :: af) (af ++ [queued]) :=
      covers_delay fun x hx => env.swaps_of_orderless
        (hp.orderless_queued (by rw [hm]; rfl) (by rw [hm]; rfl) x hx)
    have hf : Covers env.opStep [queued, e.toPublish] [e.toPublish] :=
      generation_replace hg hm
    have hmo := (hd.append_right [e.toPublish]).trans (by simpa using hf.append_left af)
    rw [hp.placeEvent_supersede, hp.split]
    simpa using hmo.append_left be
  · -- the append is advanced to just behind the generation it extends
    have ha : Covers env.opStep (af ++ [e.toPublish])
        (e.toPublish :: af) :=
      covers_advance fun x hx => env.swaps_of_orderless (hp.orderless x hx)
    have hf : Covers env.opStep [queued, e.toPublish]
        [{ queued with foldedAppends := queued.foldedAppends ++ [e] }] :=
      generation_append _ hg hm rfl (chainBytes_fold env queued e)
    have hmo := (ha.cons queued).trans (by simpa using hf.append_right af)
    rw [hp.placeEvent_fold, hp.split]
    simpa using hmo.append_left be

/-- Placing an event keeps the log events behind the queue in order. -/
theorem placeEvent_sublist (eve : List PublishEvent) (e : MountEvent)
    (p : ContentPlacement) :
    ((placeEvent eve e p).map PublishEvent.event).Sublist (eve.map PublishEvent.event ++ [e]) := by
  cases p with
  | push => simp [placeEvent, MountEvent.toPublish]
  | supersede ind =>
    have h := ((eraseIdx_sublist eve ind).map PublishEvent.event).append_right [e]
    simpa [placeEvent, MountEvent.toPublish] using h
  | fold ind =>
    have h : (placeEvent eve e (.fold ind)).map PublishEvent.event =
        eve.map PublishEvent.event := by
      apply ext_getElem? fun i => ?_
      simp only [placeEvent, getElem?_map, getElem?_modify]
      cases eve[i]? with
      | none => rfl
      | some =>
        simp only [Option.map_some]
        split <;> rfl
    rw [h]
    exact sublist_append_left _ _

/-! ## The loop invariant -/

namespace AppendState

variable {st : AppendState}

theorem coveredEvents_succ {t : Nat} (h : st.acknowledgedSequence ≤ t) :
    st.coveredEvents (t + 1) = st.coveredEvents t ++
      (if t + 1 ∈ st.committed then
        ((st.preparedAt (t + 1)).map PreparedRecord.event).toList else []) := by
  have hlen : t + 1 - st.acknowledgedSequence = t - st.acknowledgedSequence + 1 := by omega
  have hl : st.acknowledgedSequence + 1 + (t - st.acknowledgedSequence) = t + 1 := by omega
  unfold coveredEvents
  rw [hlen, range'_concat, filterMap_append, Nat.one_mul, hl]
  congr 1
  split_ifs with hc
  · cases hp : st.preparedAt (t + 1) <;> simp [hc, hp]
  · simp [hc]

theorem mem_coveredEvents {t : Nat} {e : MountEvent} :
    e ∈ st.coveredEvents t ↔
      st.acknowledgedSequence < e.sequence ∧ e.sequence ≤ t ∧
        e.sequence ∈ st.committed ∧
        ∃ r, st.preparedAt e.sequence = some r ∧ r.event = e := by
  simp only [coveredEvents, mem_filterMap, mem_range'_1]
  constructor
  · rintro ⟨_, _, h⟩
    split_ifs at h with hc
    obtain ⟨r, hr, rfl⟩ := Option.map_eq_some_iff.1 h
    have hs := preparedAt_sequence hr
    rw [hs]
    exact ⟨by omega, by omega, hc, r, hr, rfl⟩
  · rintro ⟨_, _, hc, r, hr, rfl⟩
    exact ⟨r.event.sequence, by omega, by simp [hc, hr]⟩

theorem coveredEvents_pairwise (st : AppendState) (t : Nat) :
    (st.coveredEvents t).Pairwise fun a b => a.sequence < b.sequence := by
  unfold coveredEvents
  refine List.Pairwise.filterMap _ (fun a b hab x hx y hy => ?_) pairwise_lt_range'
  have hs : ∀ (n : Nat) (e : MountEvent), (if n ∈ st.committed then
      (st.preparedAt n).map PreparedRecord.event else none) = some e → e.sequence = n := by
    intro n e h
    split_ifs at h
    obtain ⟨_, hr, rfl⟩ := Option.map_eq_some_iff.1 h
    exact preparedAt_sequence hr
  rw [hs a x hx, hs b y hy]
  exact hab

end AppendState

/-- The queue stands for the prefix scanned so far. -/
structure BatchInv (env : PublishEnv) (state : AppendState) (scan : BatchScan) : Prop where
  sequence_eq : scan.sequence = scan.throughSequence + 1
  acknowledged_le : state.acknowledgedSequence ≤ scan.throughSequence
  sublist : (scan.events.map PublishEvent.event).Sublist
    (state.coveredEvents scan.throughSequence)
  covers : (∀ event ∈ state.coveredEvents scan.throughSequence,
      event.mutation.SealedWithoutBase) →
    Covers env.opStep
      ((state.coveredEvents scan.throughSequence).map MountEvent.toPublish) scan.events

theorem batchInv_start (env : PublishEnv) (st : AppendState) :
    BatchInv env st st.batchStart where
  sequence_eq := rfl
  acknowledged_le := le_rfl
  sublist := by simp [AppendState.batchStart]
  covers _ := by
    simp only [AppendState.batchStart, AppendState.coveredEvents, Nat.sub_self, range'_zero,
      filterMap_nil, map_nil]
    exact Covers.refl _

variable {st : AppendState}

/-- One round keeps the invariant. -/
theorem batchRound_inv {env : PublishEnv} {l : BatchLimits}
    {scan next : BatchScan} (hd : Disjoint st.committed st.aborted)
    (hinv : BatchInv env st scan) (h : batchRound st l scan = some next) :
    BatchInv env st next := by
  have hs := st.coveredEvents_succ hinv.acknowledged_le
  rw [← hinv.sequence_eq] at hs
  have hle := hinv.acknowledged_le
  have hseq := hinv.sequence_eq
  rcases batchRound_cases h with ⟨ha, rfl⟩ | ⟨r, hr, -, hc, hn, ht, -, -, he⟩
  · -- an aborted sequence adds no event
    have hnot : scan.sequence ∉ st.committed := fun hc =>
      Finset.disjoint_left.1 hd hc ha
    rw [if_neg hnot, append_nil] at hs
    exact ⟨rfl, by simp only; omega, by simpa only [hs] using hinv.sublist,
      by simpa only [hs] using hinv.covers⟩
  · rw [if_pos hc, hr] at hs
    simp only [Option.map_some, Option.toList_some] at hs
    refine ⟨by rw [hn, ht], by rw [ht]; omega, ?_, ?_⟩
    · rw [ht, he, hs]
      exact (placeEvent_sublist _ _ _).trans (hinv.sublist.append_right _)
    · rw [ht, he, hs]
      intro hse
      have hold := hinv.covers fun e hev => hse e (by simp [hev])
      rw [map_append]
      refine (hold.append_right _).trans (placeEvent_covers env scan.events r.event ?_
        (hse r.event (by simp)))
      intro queued hq
      exact hse queued.event (mem_append_left _ (hinv.sublist.subset (mem_map_of_mem hq)))

/-- **The loop invariant holds whenever the loop stops.** -/
theorem scanBatch_inv (env : PublishEnv) (l : BatchLimits)
    (hd : Disjoint st.committed st.aborted) :
    ∀ (fuel : Nat) (scan : BatchScan), BatchInv env st scan →
      BatchInv env st (scanBatch st l fuel scan) :=
  scanBatch_induct fun _ _ h hr => batchRound_inv hd h hr

/-- What a batch stands for. -/
theorem nextPublishBatch_inv (env : PublishEnv) {l : BatchLimits}
    {b : PublishBatch} (hd : Disjoint st.committed st.aborted)
    (h : st.nextPublishBatch l = .ok (some b)) :
    st.acknowledgedSequence < b.throughSequence ∧
    (b.events.map PublishEvent.event).Sublist (st.coveredEvents b.throughSequence) ∧
    ((∀ e ∈ st.coveredEvents b.throughSequence, e.mutation.SealedWithoutBase) →
      Covers env.opStep
        ((st.coveredEvents b.throughSequence).map MountEvent.toPublish) b.events) := by
  obtain ⟨_, rfl, ht, rfl⟩ := nextPublishBatch_eq h
  have hinv := scanBatch_inv env l hd st.batchFuel st.batchStart (batchInv_start env st)
  exact ⟨lt_of_le_of_ne hinv.acknowledged_le (Ne.symm ht), hinv.sublist, hinv.covers⟩

end Chevalier.LocalView
