import Chevalier.LocalView.Publish.Equivalence

/-!
# Folded appends form a chain within the budget

An append is folded onto a queued event only if it extends what that event publishes, so the appends
of an event are linked (`PublishEvent.Linked`) and its payload chain makes the last generation of the
first base (`PublishEvent.Linked.makes`). The bytes that the batch loop counts are those of the
queued events, and only an event that is alone may exceed the limit (`BatchBudget`).
-/

namespace Chevalier.LocalView

open PublishEvent List

/-! ## Links -/

/-- Each folded append extends, at the path of the event, what the event publishes with the appends
before it. -/
def PublishEvent.Linked (event : PublishEvent) : Prop :=
  ∀ (k : Nat) folded, event.foldedAppends[k]? = some folded →
    ∃ mode baseSize baseContentHash size contentHash,
      folded.mutation = .appendFile event.mutation.primaryPath mode baseSize baseContentHash size
        contentHash ∧
      publishedContent ⟨event.event, event.foldedAppends.take k⟩ =
        some (baseSize, baseContentHash)

/-- `content` gives the bytes of a size and a hash, and the event says truly what it makes of them. -/
def MountEvent.Tells (env : PublishEnv) (content : Nat × String → List UInt8) (event : MountEvent) :
    Prop :=
  match event.mutation with
  | .appendFile _ _ baseSize baseContentHash size contentHash =>
    content (size, contentHash) =
      content (baseSize, baseContentHash) ++ env.chainBytes event.toPublish
  | .replaceFile .. => ∀ payload ∈ event.payload,
    content (payload.length, payload.contentHash) = env.payloadBytes payload
  | _ => True

instance (env : PublishEnv) (content : Nat × String → List UInt8) (event : MountEvent) :
    Decidable (event.Tells env content) := by
  unfold MountEvent.Tells
  split <;> infer_instance

/-- The bytes that the payload chain of an event is appended to. -/
def MountEvent.firstBase (content : Nat × String → List UInt8) (event : MountEvent) : List UInt8 :=
  match event.mutation with
  | .appendFile _ _ baseSize baseContentHash _ _ => content (baseSize, baseContentHash)
  | _ => []

/-- The event and its folded appends come from the log. -/
def PublishEvent.From (state : AppendState) (event : PublishEvent) : Prop :=
  ∀ found ∈ event.event :: event.foldedAppends, ∃ record ∈ state.prepared, record.event = found

section

variable {state s : AppendState} {limits l : BatchLimits} {scan next : BatchScan} {env : PublishEnv}
  {co : Nat × String → List UInt8} {event : PublishEvent} {ca : MountEvent}

theorem PublishEvent.linked_toPublish (ca : MountEvent) : ca.toPublish.Linked :=
  fun k f h => by simp [MountEvent.toPublish] at h

theorem PublishEvent.Linked.fold (h : event.Linked) {mode bs size : Nat}
    {bch ch : String}
    (hc : ca.mutation = .appendFile event.mutation.primaryPath mode bs bch size ch)
    (hb : event.publishedContent = some (bs, bch)) :
    Linked { event with foldedAppends := event.foldedAppends ++ [ca] } := by
  intro k f hf
  rcases getElem?_concat_cases hf with hold | ⟨rfl, rfl⟩
  · obtain ⟨mode, base, hash, size, hash', hm, _⟩ := h k f hold
    refine ⟨mode, base, hash, size, hash', hm, ?_⟩
    rwa [take_append_of_le_length (Nat.le_of_lt (lt_of_getElem? hold))]
  · exact ⟨_, _, _, _, _, hc, by rwa [take_left]⟩

/-- The payload chain of linked appends makes the last generation of the first base. -/
theorem PublishEvent.Linked.makes {first : MountEvent} {a : List MountEvent}
    (hl : Linked ⟨first, a⟩)
    (hte : ∀ fo ∈ first :: a, fo.Tells env co) {fo : Nat × String}
    (hf : publishedContent ⟨first, a⟩ = some fo) :
    first.firstBase co ++ env.chainBytes ⟨first, a⟩ = co fo := by
  induction a using List.reverseRecOn generalizing fo with
  | nil =>
    have ht := hte first mem_cons_self
    simp only [MountEvent.Tells, publishedContent] at ht hf
    simp only [MountEvent.firstBase]
    cases hm : first.mutation <;> simp [hm] at ht hf
    case replaceFile =>
      obtain ⟨payload, hpa, rfl⟩ := hf
      simp [PublishEnv.chainBytes, payloadChain, hpa, ht payload hpa]
    case appendFile =>
      subst hf
      exact ht.symm
  | append_singleton a last ih =>
    obtain ⟨_, _, _, size, hash', hm, hp⟩ :=
      hl a.length last (by simp)
    rw [take_left] at hp
    have hb : Linked ⟨first, a⟩ := by
      intro k f hfo
      have hlt := lt_of_getElem? hfo
      have hk := hl k f (getElem?_append_of_some hfo)
      rwa [take_append_of_le_length (Nat.le_of_lt hlt)] at hk
    have hc := ih hb (fun fo hmem => hte fo (by simp at hmem ⊢; tauto)) hp
    have ht := hte last (by simp)
    simp only [MountEvent.Tells, hm] at ht
    have hla : fo = (size, hash') := by
      simp [publishedContent, hm] at hf
      exact hf.symm
    have hch : env.chainBytes ⟨first, a ++ [last]⟩ =
        env.chainBytes ⟨first, a⟩ ++ env.chainBytes last.toPublish :=
      chainBytes_fold env ⟨first, a⟩ last
    rw [hch, ← append_assoc, hc, hla, ht]

/-! ## The budget -/

/-- The bytes that the queued events hold in memory. -/
def heldBytes (limits : BatchLimits) (events : List PublishEvent) : Nat :=
  (events.map fun event => batchedPayloadBytes event 0 limits.streamThresholdBytes).sum

/-- What the batch loop keeps about its queue. -/
structure BatchBudget (state : AppendState) (limits : BatchLimits) (scan : BatchScan) : Prop where
  events : ∀ event ∈ scan.events, event.Linked ∧ event.From state
  bytes : scan.payloadBytes = heldBytes limits scan.events
  within : scan.payloadBytes ≤ limits.maxPayloadBytes ∨ scan.events.length = 1

theorem batchedPayloadBytes_fold (event : PublishEvent) (ca : MountEvent) (t : Nat) :
    batchedPayloadBytes { event with foldedAppends := event.foldedAppends ++ [ca] } 0
        t =
      batchedPayloadBytes event ca.payloadLength t := by
  have hl : wirePayloadLength
      { event with foldedAppends := event.foldedAppends ++ [ca] } =
        event.wirePayloadLength + ca.payloadLength := by
    cases h : ca.payload <;>
      simp [wirePayloadLength, payloadChain, MountEvent.payloadLength, h,
        filterMap_append, Nat.add_assoc]
  simp only [batchedPayloadBytes, hl, Nat.add_zero]
  rfl

theorem BatchBudget.round (h : BatchBudget s l scan)
    (hro : batchRound s l scan = some next) : BatchBudget s l next := by
  rcases batchRound_cases hro with
    ⟨-, rfl⟩ | ⟨r, hr, -, -, -, -, hb, hw, he⟩
  · exact ⟨h.events, h.bytes, h.within⟩
  have hfr : r.event.toPublish.From s := fun f hf =>
    ⟨r, AppendState.preparedAt_mem hr, (List.mem_singleton.1 hf).symm⟩
  have hn := And.intro (linked_toPublish r.event) hfr
  rcases placeContentGeneration_cases scan.events r.event with
    hpl | ⟨path, index, before, queued, after, hp, ⟨hpl, -⟩ |
      ⟨hpl, mode, base, hash, size, hash', hm, hba⟩⟩
  · rw [hpl] at hb he
    refine ⟨fun event hev => ?_, ?_, hw.symm.imp id fun hem => by
      simp [he, placeEvent, hem]⟩
    · rw [he, placeEvent] at hev
      rcases List.mem_append.1 hev with hold | hl
      · exact h.events event hold
      · exact List.mem_singleton.1 hl ▸ hn
    · simp [hb, he, placeEvent, placedPayloadBytes, h.bytes, heldBytes]
  all_goals
    have hne : scan.events ≠ [] := by simp [hp.split]
    have hat : scan.events[index]? = some queued := by simp [hp.split, hp.index_eq]
    have hs : ∀ event, event ∈ before ∨ event ∈ after → event ∈ scan.events := by
      simp only [hp.split, mem_append, mem_cons]
      tauto
    have ht : scan.payloadBytes = heldBytes l before +
        (batchedPayloadBytes queued 0 l.streamThresholdBytes + heldBytes l after) := by
      simp [h.bytes, heldBytes, hp.split]
    rw [hpl] at hb he
  · rw [hp.placeEvent_supersede] at he
    refine ⟨fun event hev => ?_, ?_, .inl (hw.resolve_left hne)⟩
    · rw [he] at hev
      rcases List.mem_append.1 hev with hold | hl
      · exact h.events event (hs event (List.mem_append.1 hold))
      · exact List.mem_singleton.1 hl ▸ hn
    · simp [hb, he, placedPayloadBytes, hat, ht, heldBytes]
      omega
  · rw [hp.placeEvent_fold] at he
    obtain ⟨hli, hold⟩ := h.events queued (by simp [hp.split])
    refine ⟨fun event hev => ?_, ?_, .inl (hw.resolve_left hne)⟩
    · rw [he] at hev
      rcases List.mem_append.1 hev with hmem | hmem
      · exact h.events event (hs event (.inl hmem))
      rcases List.mem_cons.1 hmem with rfl | hmem
      · refine ⟨hli.fold (hp.generation.2 ▸ hm) hba, fun f hf => ?_⟩
        rcases List.mem_append.1 (cons_append ▸ hf) with hmem | hmem
        · exact hold f hmem
        · exact hfr f (List.mem_singleton.1 hmem ▸ mem_cons_self)
      · exact h.events event (hs event (.inr hmem))
    · simp [hb, he, placedPayloadBytes, hat, ht, heldBytes, batchedPayloadBytes_fold]
      omega

/-! ## The loop stops by itself -/

/-- The sequences from one on that the index knows. -/
def AppendState.knownFrom (state : AppendState) (sequence : Nat) : Finset Nat :=
  (state.aborted ∪ (state.prepared.map fun record => record.event.sequence).toFinset).filter
    (sequence ≤ ·)

theorem knownFrom_ssubset (h : batchRound s l scan = some next) :
    s.knownFrom next.sequence ⊂ s.knownFrom scan.sequence := by
  obtain ⟨hs, hk⟩ : next.sequence = scan.sequence + 1 ∧
      scan.sequence ∈ s.knownFrom scan.sequence := by
    rcases batchRound_cases h with ⟨ha, rfl⟩ | ⟨r, hr, -, -, hs, -⟩
    · exact ⟨rfl, by simp [AppendState.knownFrom, ha]⟩
    · have hmem := AppendState.preparedAt_mem hr
      have heq := AppendState.preparedAt_sequence hr
      simp only [AppendState.knownFrom, Finset.mem_filter, Finset.mem_union, mem_toFinset, mem_map]
      exact ⟨hs, .inr ⟨r, hmem, heq⟩, Nat.le_refl _⟩
  refine Finset.ssubset_iff_subset_ne.2 ⟨fun f hf => ?_, fun heq => ?_⟩
  · simp only [AppendState.knownFrom, Finset.mem_filter, hs] at hf ⊢
    exact ⟨hf.1, by omega⟩
  · rw [← heq, hs] at hk
    have hle := (Finset.mem_filter.1 hk).2
    omega

theorem scanBatch_stops : ∀ fuel scan, (s.knownFrom scan.sequence).card < fuel →
    batchRound s l (scanBatch s l fuel scan) = none := by
  intro fuel
  induction fuel with
  | zero => exact fun scan h => absurd h (Nat.not_lt_zero _)
  | succ _ ih =>
    intro scan h
    rw [scanBatch]
    cases hn : batchRound s l scan with
    | none => exact hn
    | some next =>
      have hlt := Finset.card_lt_card (knownFrom_ssubset hn)
      exact ih next (by omega)

theorem scanBatch_batchFuel :
    batchRound s l (scanBatch s l s.batchFuel s.batchStart) = none := by
  refine scanBatch_stops _ _ (Nat.lt_succ_of_le ?_)
  calc (s.knownFrom _).card
      ≤ (s.aborted ∪ (s.prepared.map fun r => r.event.sequence).toFinset).card :=
        Finset.card_filter_le _ _
    _ ≤ s.aborted.card + (s.prepared.map fun r => r.event.sequence).toFinset.card :=
        Finset.card_union_le _ _
    _ ≤ s.aborted.card + s.prepared.length :=
        Nat.add_le_add_left ((toFinset_card_le _).trans (by simp)) _

end

/-- **Folded appends form an exact chain within the budget.** The appends of every event of a batch
are linked, and if the log tells what its generations hold, then the payload chain of an event makes
the last generation of the first base. When the loop stops the bytes it counted are those of the
batch, and they are within the limit unless the batch has one event. -/
theorem batch_chains_within_budget {state : AppendState} {limits : BatchLimits}
    {batch : PublishBatch} (h : state.nextPublishBatch limits = .ok (some batch)) :
    (∀ event ∈ batch.events, event.Linked) ∧
    (∀ env content, (∀ record ∈ state.prepared, record.event.Tells env content) →
      ∀ event ∈ batch.events, ∀ found, event.publishedContent = some found →
        event.event.firstBase content ++ env.chainBytes event = content found) ∧
    ∃ scan, scan = scanBatch state limits state.batchFuel state.batchStart ∧
      batchRound state limits scan = none ∧ scan.events = batch.events ∧
      scan.payloadBytes =
        (batch.events.map fun event =>
          batchedPayloadBytes event 0 limits.streamThresholdBytes).sum ∧
      (scan.payloadBytes ≤ limits.maxPayloadBytes ∨ batch.events.length = 1) := by
  obtain ⟨scan, rfl, -, rfl⟩ := nextPublishBatch_eq h
  have hb : BatchBudget state limits (scanBatch state limits state.batchFuel state.batchStart) :=
    scanBatch_induct (fun _ _ h hro => h.round hro) _ _ ⟨nofun, rfl, .inl (Nat.zero_le _)⟩
  refine ⟨fun event he => (hb.events event he).1,
    fun env content ht event he found hf => ?_,
    _, rfl, scanBatch_batchFuel, rfl, hb.bytes, hb.within⟩
  obtain ⟨hl, hfr⟩ := hb.events event he
  refine hl.makes (fun g hmem => ?_) hf
  obtain ⟨record, hr, rfl⟩ := hfr g hmem
  exact ht record hr

/-- The contents of the folding history, by their hashes. -/
def foldingContents : Nat × String → List UInt8
  | (_, "x") => [120]
  | (_, "hi") => [104, 105]
  | (_, "hi!") => [104, 105, 33]
  | (_, "yy") => [121, 121]
  | _ => []

/-- In the folding history an append rides on the write that it extends. -/
theorem batch_chains_within_budget_foldingState :
    ∃ batch, foldingState.nextPublishBatch ⟨64, 4096, 1024⟩ = .ok (some batch) ∧
      ∃ event ∈ batch.events, event.foldedAppends.length = 1 ∧ event.Linked ∧
        (segmentEnv [120, 104, 105, 33, 121, 121]).chainBytes event = foldingContents (3, "hi!") := by
  obtain ⟨batch, hb, event, he, hf⟩ : ∃ batch,
      foldingState.nextPublishBatch ⟨64, 4096, 1024⟩ = .ok (some batch) ∧
      ∃ event ∈ batch.events, event.foldedAppends.length = 1 ∧
        event.publishedContent = some (3, "hi!") ∧ event.event.firstBase foldingContents = [] :=
    ⟨_, rfl, by decide⟩
  obtain ⟨hl, hc, -⟩ := batch_chains_within_budget hb
  refine ⟨batch, hb, event, he, hf.1, hl event he, ?_⟩
  have hby := hc (segmentEnv [120, 104, 105, 33, 121, 121]) foldingContents (by decide)
    event he _ hf.2.1
  rwa [hf.2.2, List.nil_append] at hby

end Chevalier.LocalView
