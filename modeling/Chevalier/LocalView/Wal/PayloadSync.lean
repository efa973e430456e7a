import Chevalier.LocalView.Wal.PayloadNames

/-!
# Payload bytes are durable before the log says so

A capture marks its segment dirty when it reserves its range, and writes the range afterwards. A
group-commit round takes the dirty marks, syncs those files and their directory, then the log, and
then publishes its watermark. `SyncView.Tracked` is what relates the two: a payload whose bytes are
written was synced after that, or its file is still due in the dirty marks or in the round under way.

A round that takes the marks while a range is reserved and not yet written breaks this: it syncs the
file too early and nothing marks the file again. `payloadsDurable_of_run` excludes that step;
`unsynced_payload_behind_watermark` is a run with it in which a sync call returns and the bytes were
never synced.
-/

namespace Chevalier.LocalView

open List

/-- What the durability of payloads depends on. -/
structure SyncView where
  store : PayloadStore
  round : Option SyncRound
  durableSequence : Nat
  nextSequence : Nat
  carried : List (Nat × PayloadRef)

namespace SyncView

variable (view : SyncView)

def withStore (store : PayloadStore) : SyncView := { view with store := store }

/-- The file is marked dirty, or the round under way still has to sync it. -/
def DueFile (name : String) : Prop :=
  name ∈ view.store.state.dirty.files ∨ ∃ round, view.round = some round ∧ name ∈ round.files

/-- The directory is marked dirty, or the round under way still has to sync it. -/
def DueDirectory : Prop :=
  view.store.state.dirty.directoryDirty = true ∨
    ∃ round, view.round = some round ∧ round.directory = true

/-- If the file exists, its directory entry was synced or will be. -/
def EntryDue (name : String) : Prop :=
  name ∈ view.store.disk.files → name ∈ view.store.disk.entries ∨ view.DueDirectory

/-- The bytes were written, and then synced or will be. -/
def BytesDue (payload : PayloadRef) : Prop :=
  payload ∈ view.store.disk.written ∧
    (payload ∈ view.store.disk.synced ∨ view.DueFile payload.file)

/-- The bytes were written and then synced, and the directory entry was synced if the file still
exists. -/
def Durable (payload : PayloadRef) : Prop :=
  payload ∈ view.store.disk.written ∧ payload ∈ view.store.disk.synced ∧
    (payload.file ∈ view.store.disk.files → payload.file ∈ view.store.disk.entries)

/-- What a round under way has synced of what it will publish. -/
structure RoundTracked (round : SyncRound) : Prop where
  idle : round.taken = none → round.files = ∅ ∧ round.directory = false
  part : ∀ dirty, round.taken = some dirty → round.files ⊆ dirty.files ∧
    (round.directory = true → dirty.directoryDirty = true)
  covers : round.taken.isSome = true → ∀ sequence payload, (sequence, payload) ∈ view.carried →
    sequence ≤ round.sequence →
      (payload ∈ view.store.disk.synced ∨ payload.file ∈ round.files) ∧
      (payload.file ∈ view.store.disk.files →
        payload.file ∈ view.store.disk.entries ∨ round.directory = true)
  sequence_lt : round.sequence < view.nextSequence

/-- The file of the capture exists, or will by its own steps: it is packed, or finished. -/
def Settled (capture : Capture) : Prop :=
  capture.stage = .ready ∨ capture.payload.storage.dedicated? = none

/-- What a capture can rely on at its stage. -/
structure CaptureTracked (capture : Capture) : Prop where
  reserved : capture.stage = .reserved → capture.payload.storage.dedicated? = none →
    capture.payload.file ∈ view.store.state.dirty.files
  written : capture.stage = .written → capture.payload ∈ view.store.disk.written
  ready : capture.stage = .ready → view.BytesDue capture.payload
  entry : Settled capture → view.EntryDue capture.payload.file

/-- No payload is forgotten between its capture and the watermark that covers it. -/
structure Tracked : Prop where
  captures : ∀ capture ∈ view.store.captures, view.CaptureTracked capture
  current : ∀ segment, view.store.state.currentSegment = some segment → view.EntryDue segment.name
  carried : ∀ sequence payload, (sequence, payload) ∈ view.carried →
    view.BytesDue payload ∧ view.EntryDue payload.file
  round : ∀ round, view.round = some round → view.RoundTracked round
  durable : ∀ sequence payload, (sequence, payload) ∈ view.carried →
    sequence ≤ view.durableSequence → view.Durable payload
  durable_lt : view.durableSequence < view.nextSequence

variable {view} {next : SyncView}

/-! ## Growing the store -/

/-- Whatever was due in a view is due in the next one, or was synced in between. -/
structure Marks (view next : SyncView) : Prop where
  bytes : ∀ payload ∈ view.store.disk.written, view.DueFile payload.file →
    payload ∈ next.store.disk.synced ∨ next.DueFile payload.file
  directory : view.DueDirectory → next.DueDirectory ∨
    view.store.disk.files ⊆ next.store.disk.entries
  written : view.store.disk.written ⊆ next.store.disk.written
  synced : view.store.disk.synced ⊆ next.store.disk.synced
  entries : view.store.disk.entries ⊆ next.store.disk.entries

theorem BytesDue.marks {p : PayloadRef} (h : view.BytesDue p) (hm : Marks view next) :
    next.BytesDue p :=
  ⟨hm.written h.1, h.2.elim (fun hs => .inl (hm.synced hs)) (hm.bytes p h.1)⟩

theorem EntryDue.marks {name : String} (h : view.EntryDue name) (hm : Marks view next)
    (hf : name ∈ next.store.disk.files → name ∈ view.store.disk.files) :
    next.EntryDue name := by
  intro hmem
  rcases h (hf hmem) with he | hd
  · exact .inl (hm.entries he)
  · exact (hm.directory hd).symm.imp_left fun hall => hall (hf hmem)

/-- What is due is marked, or the round under way has it. -/
theorem DueFile.cases {round : SyncRound} {name : String} (h : view.DueFile name)
    (hr : view.round = some round) :
    name ∈ view.store.state.dirty.files ∨ name ∈ round.files := by
  refine h.imp_right fun ⟨f, hf, hmem⟩ => ?_
  cases hr.symm.trans hf
  exact hmem

theorem DueDirectory.cases {round : SyncRound} (h : view.DueDirectory)
    (hr : view.round = some round) :
    view.store.state.dirty.directoryDirty = true ∨ round.directory = true := by
  refine h.imp_right fun ⟨f, hf, hmem⟩ => ?_
  cases hr.symm.trans hf
  exact hmem

variable {store : PayloadStore}

theorem marks_withStore
    (hdi : view.store.state.dirty.files ⊆ store.state.dirty.files)
    (hd : view.store.state.dirty.directoryDirty = true → store.state.dirty.directoryDirty = true)
    (hw : view.store.disk.written ⊆ store.disk.written)
    (hs : view.store.disk.synced ⊆ store.disk.synced)
    (he : view.store.disk.entries ⊆ store.disk.entries) :
    Marks view (view.withStore store) :=
  ⟨fun _ _ hdu => .inr (hdu.imp_left fun hmem => hdi hmem),
    fun hdu => .inl (hdu.imp_left hd), hw, hs, he⟩

/-- The store may change as long as the marks, the bytes and the entries grow and the files that
appear are not the files of payloads the log carries. -/
theorem Tracked.grow (h : view.Tracked)
    (hm : Marks view (view.withStore store))
    (hf : ∀ s p, (s, p) ∈ view.carried → p.file ∈ store.disk.files → p.file ∈ view.store.disk.files)
    (hcu : ∀ se, store.state.currentSegment = some se → (view.withStore store).EntryDue se.name)
    (hc : ∀ c ∈ store.captures, (view.withStore store).CaptureTracked c) :
    (view.withStore store).Tracked := by
  refine ⟨hc, hcu, fun s p hmem => ?_, fun round hr => ?_, fun s p hmem hle => ?_, h.durable_lt⟩
  · obtain ⟨hb, he⟩ := h.carried s p hmem
    exact ⟨hb.marks hm, he.marks hm (hf s p hmem)⟩
  · obtain ⟨hi, hp, hco, hlt⟩ := h.round round hr
    refine ⟨hi, hp, fun ht s p hmem hle => ?_, hlt⟩
    obtain ⟨hb, he⟩ := hco ht s p hmem hle
    refine ⟨hb.imp_left fun hm' => hm.synced hm', fun hfi => ?_⟩
    exact (he (hf s p hmem hfi)).imp_left fun hm' => hm.entries hm'
  · obtain ⟨hb, hb', he⟩ := h.durable s p hmem hle
    exact ⟨hm.written hb, hm.synced hb', fun hfi =>
      hm.entries (he (hf s p hmem hfi))⟩

theorem CaptureTracked.marks {c : Capture} (h : view.CaptureTracked c)
    (hm : Marks view next)
    (hd : view.store.state.dirty.files ⊆ next.store.state.dirty.files)
    (hf : Settled c → c.payload.file ∈ next.store.disk.files →
      c.payload.file ∈ view.store.disk.files) : next.CaptureTracked c where
  reserved hs hp := hd (h.reserved hs hp)
  written hs := hm.written (h.written hs)
  ready hs := (h.ready hs).marks hm
  entry hse := (h.entry hse).marks hm (hf hse)

/-- Where the directory is marked, every entry is due. -/
theorem entryDue_of_directory (h : view.store.state.dirty.directoryDirty = true) (name : String) :
    view.EntryDue name := fun _ => .inr (.inl h)

variable {ac : CaptureAction}

theorem dirty_of_captures
    (h : view.store.Captures ac store) :
    view.store.state.dirty.files ⊆ store.state.dirty.files := by
  cases h with
  | pack | packNew | register => exact Finset.subset_insert _ _
  | _ => exact subset_rfl

/-- A capture step takes no mark back. -/
theorem marks_of_captures
    (h : view.store.Captures ac store) : Marks view (view.withStore store) := by
  have hd := dirty_of_captures h
  cases h with
  | writeRange | writeFile =>
    exact marks_withStore hd id (Finset.subset_insert _ _) subset_rfl subset_rfl
  | packNew | register => exact marks_withStore hd (fun _ => rfl) subset_rfl subset_rfl subset_rfl
  | pack | mint | discardFile | discard =>
    exact marks_withStore hd id subset_rfl subset_rfl subset_rfl

/-- A capture step keeps every payload tracked. -/
theorem Tracked.capture (h : view.Tracked)
    (hn : view.store.Named view.carried) (hste : view.store.Captures ac store) :
    (view.withStore store).Tracked := by
  have hh : ∀ {se p}, (se, p) ∈ view.carried →
      p ∈ view.store.holders view.carried := fun hmem =>
    mem_append_right _ (List.mem_map.2 ⟨_, hmem, rfl⟩)
  have hm := marks_of_captures hste
  have hd := dirty_of_captures hste
  cases hste with
  | pack _ _ _ _ s _ hse =>
    have he := (h.current s hse).marks hm id
    refine h.grow hm (fun _ _ _ hmem => hmem) (fun a ha => ?_) fun c hc => ?_
    · cases ha
      exact he
    · rcases mem_concat.1 hc with hold | rfl
      · exact (h.captures c hold).marks hm hd fun _ hmem => hmem
      · exact ⟨fun _ _ => Finset.mem_insert_self _ _, (nofun), (nofun), fun _ => he⟩
  | packNew =>
    -- the directory is marked, so every entry is due
    refine h.grow hm (fun se p hmem hf => ?_)
      (fun a _ => entryDue_of_directory rfl _) fun c hc => ?_
    · exact Finset.mem_of_mem_insert_of_ne hf (hn.segment_ne (hh hmem))
    · rcases mem_concat.1 hc with hold | rfl
      · have hold := h.captures c hold
        exact ⟨fun hsta hp => Finset.mem_insert_of_mem (hold.reserved hsta hp),
          hold.written, fun hsta => (hold.ready hsta).marks hm,
          fun _ => entryDue_of_directory rfl _⟩
      · exact ⟨fun _ _ => Finset.mem_insert_self _ _, (nofun),
          (nofun), fun _ => entryDue_of_directory rfl _⟩
  | mint =>
    refine h.grow hm (fun _ _ _ hmem => hmem) h.current fun c hc => ?_
    rcases mem_concat.1 hc with hold | rfl
    · exact (h.captures c hold).marks hm hd fun _ hmem => hmem
    · exact ⟨(nofun), (nofun), (nofun), fun hset => by rcases hset with hs | hs <;> cases hs⟩
  | writeRange _ _ _ p _ _ hc hst =>
    have hold := h.captures _ (mem_of_getElem? hc)
    have hp : p.storage.dedicated? = none := by rw [hst]; rfl
    refine h.grow hm (fun _ _ _ hmem => hmem) h.current fun c hmem => ?_
    rcases mem_or_eq_of_mem_set hmem with hmem | rfl
    · exact (h.captures c hmem).marks hm hd fun _ hf => hf
    · refine ⟨(nofun), (nofun), fun _ => ?_, fun _ => ?_⟩
      · exact ⟨Finset.mem_insert_self _ _, .inr (.inl (hold.reserved rfl hp))⟩
      · exact (hold.entry (.inr hp)).marks hm id
  | writeFile _ _ _ _ name hc hst =>
    have hmi := mem_of_getElem? hc
    have hmin : name ∈ view.store.minted := by
      have := hn.known _ (mem_append_left _ (mem_map_of_mem hmi))
      rwa [hst] at this
    refine h.grow hm (fun se o hmem hf => ?_) (fun s hse => ?_) fun c hmem => ?_
    · exact Finset.mem_of_mem_insert_of_ne hf (hn.carried_ne hmi hst hmem)
    · refine (h.current s hse).marks hm fun hf => ?_
      refine Finset.mem_of_mem_insert_of_ne hf fun heq => ?_
      obtain ⟨id, -, hna⟩ := hn.current s hse
      obtain ⟨uuid, hn'⟩ := hn.minted name hmin
      exact segmentName_ne_dedicatedName id uuid (hna.symm.trans (heq.trans hn'))
    · rcases mem_or_eq_of_mem_set hmem with hmem | rfl
      · refine (h.captures c hmem).marks hm hd fun hset hf => ?_
        refine Finset.mem_of_mem_insert_of_ne hf fun heq => ?_
        -- the file is this capture's alone, and this capture is not settled
        obtain rfl := hn.capture_unique hmi hmem hst heq
        rcases hset with hs | hs
        · cases hs
        · rw [hst] at hs
          cases hs
      · refine ⟨(nofun), fun _ => Finset.mem_insert_self _ _, (nofun), fun hset => ?_⟩
        rcases hset with hs | hs
        · cases hs
        · rw [hst] at hs
          cases hs
  | register _ _ _ _ hc =>
    have hold := h.captures _ (mem_of_getElem? hc)
    refine h.grow hm (fun _ _ _ hmem => hmem) (fun _ _ => entryDue_of_directory rfl _)
      fun c hmem => ?_
    rcases mem_or_eq_of_mem_set hmem with hmem | rfl
    · exact (h.captures c hmem).marks hm hd fun _ hf => hf
    · exact ⟨(nofun), (nofun),
        fun _ => ⟨hold.written rfl, .inr (.inl (Finset.mem_insert_self _ _))⟩,
        fun _ => entryDue_of_directory rfl _⟩
  | discardFile =>
    refine h.grow hm (fun _ _ _ hmem => Finset.mem_of_mem_erase hmem)
      (fun s hse => (h.current s hse).marks hm Finset.mem_of_mem_erase)
      fun o hmem => ?_
    exact (h.captures o (mem_of_mem_eraseIdx hmem)).marks hm hd fun _ => Finset.mem_of_mem_erase
  | discard =>
    refine h.grow hm (fun _ _ _ hmem => hmem) h.current fun o hmem => ?_
    exact (h.captures o (mem_of_mem_eraseIdx hmem)).marks hm hd fun _ => id

/-! ## The other steps -/

/-- Sequences may be handed out. -/
theorem Tracked.handOut {s : Nat} (h : view.Tracked) (hle : view.nextSequence ≤ s) :
    ({ view with nextSequence := s } : SyncView).Tracked :=
  ⟨fun c hc => ⟨(h.captures c hc).reserved,
      (h.captures c hc).written, (h.captures c hc).ready,
      (h.captures c hc).entry⟩, h.current, h.carried,
    fun round hr => ⟨(h.round round hr).idle, (h.round round hr).part,
      (h.round round hr).covers, (h.round round hr).sequence_lt.trans_le hle⟩,
    h.durable, h.durable_lt.trans_le hle⟩

/-- A prepare takes over what its capture was promised; no watermark and no round covers it yet. -/
theorem Tracked.prepareCapture {i : Nat} {c : Capture} (h : view.Tracked)
    (hc : view.store.captures[i]? = some c) (hr : c.stage = .ready) :
    ({ view with
      store := { view.store with captures := view.store.captures.eraseIdx i }
      carried := view.carried ++ [(view.nextSequence, c.payload)]
      nextSequence := view.nextSequence + 1 } : SyncView).Tracked := by
  have hm := h.captures c (mem_of_getElem? hc)
  have hn : ∀ {s p}, (s, p) ∈ view.carried ++
      [(view.nextSequence, c.payload)] → (s, p) ∈ view.carried ∨
        s = view.nextSequence ∧ p = c.payload := by
    intro s p hmem
    exact (List.mem_append.1 hmem).imp_right fun hl => Prod.mk.inj (List.mem_singleton.1 hl)
  refine ⟨fun o hmem => ?_, h.current, fun s p hmem => ?_,
    fun round hro => ?_, fun s p hmem hle => ?_, Nat.lt_succ_of_lt h.durable_lt⟩
  · have hold := h.captures o (mem_of_mem_eraseIdx hmem)
    exact ⟨hold.reserved, hold.written, hold.ready, hold.entry⟩
  · rcases hn hmem with hold | ⟨-, rfl⟩
    · exact h.carried s p hold
    · exact ⟨hm.ready hr, hm.entry (.inl hr)⟩
  · obtain ⟨hi, hp, hco, hlt⟩ := h.round round hro
    refine ⟨hi, hp, fun ht s p hmem hle => ?_, Nat.lt_succ_of_lt hlt⟩
    rcases hn hmem with hold | ⟨rfl, -⟩
    · exact hco ht s p hold hle
    · exact absurd hle (Nat.not_le.2 hlt)
  · rcases hn hmem with hold | ⟨rfl, -⟩
    · exact h.durable s p hold hle
    · exact absurd hle (Nat.not_le.2 h.durable_lt)

/-- The payloads and their files are the same, and the marks of reserved ranges are there. -/
structure SamePayloads (view next : SyncView) : Prop where
  captures : next.store.captures = view.store.captures
  carried : next.carried = view.carried
  files : next.store.disk.files = view.store.disk.files
  current : next.store.state.currentSegment = view.store.state.currentSegment
  reserved : ∀ capture ∈ view.store.captures, capture.stage = .reserved →
    capture.payload.storage.dedicated? = none →
      capture.payload.file ∈ view.store.state.dirty.files →
        capture.payload.file ∈ next.store.state.dirty.files

/-- A step that brings no payload keeps everything tracked if it takes back no mark that was not
synced. -/
theorem Tracked.of_marks (h : view.Tracked) (hm : Marks view next) (hs : SamePayloads view next)
    (hr : ∀ round, next.round = some round → next.RoundTracked round)
    (hd : ∀ se p, (se, p) ∈ view.carried → se ≤ next.durableSequence → next.Durable p)
    (hlt : next.durableSequence < next.nextSequence) : next.Tracked := by
  refine ⟨fun c hc => ?_, fun s hse => ?_, fun se p hmem => ?_,
    hr, fun se p hmem => hd se p (hs.carried ▸ hmem), hlt⟩
  · have hmem : c ∈ view.store.captures := hs.captures ▸ hc
    have hold := h.captures c hmem
    exact ⟨fun hst hp => hs.reserved c hmem hst hp
        (hold.reserved hst hp),
      fun hst => hm.written (hold.written hst),
      fun hst => (hold.ready hst).marks hm,
      fun hset => (hold.entry hset).marks hm fun hf => hs.files ▸ hf⟩
  · exact (h.current s (hs.current ▸ hse)).marks hm fun hf =>
      hs.files ▸ hf
  · obtain ⟨hb, he⟩ := h.carried se p (hs.carried ▸ hmem)
    exact ⟨hb.marks hm, he.marks hm fun hf => hs.files ▸ hf⟩

end SyncView

namespace MountWal

/-- What the durability of payloads depends on. -/
def syncView (wal : MountWal) : SyncView where
  store := wal.payloads
  round := wal.round
  durableSequence := wal.sync.durableSequence
  nextSequence := wal.log.append.nextSequence
  carried := wal.log.view.carried

variable {framing fr : Framing} {wal next : MountWal}

open SyncView

def NoUnwrittenRange (wal : MountWal) : Prop :=
  ∀ capture ∈ wal.payloads.captures, capture.stage = .reserved →
    capture.payload.storage.dedicated? ≠ none

instance (wal : MountWal) : Decidable wal.NoUnwrittenRange :=
  inferInstanceAs (Decidable (∀ capture ∈ wal.payloads.captures, _ → _))

variable {round : SyncRound}

theorem tracked_begin (h : wal.syncView.Tracked) (hr : wal.round = none)
    (hse : round.sequence = wal.log.append.nextSequence - 1) (ht : round.taken = none)
    (hfi : round.files = ∅) (hd : round.directory = false) :
    ({ wal.syncView with round := some round } : SyncView).Tracked := by
  have hn : ∀ f, wal.syncView.round = some f → False := fun f hf => by
    rw [show wal.syncView.round = none from hr] at hf
    cases hf
  refine h.of_marks
    { bytes := fun _ _ hdu => .inr (hdu.imp_right fun ⟨f, hf, _⟩ =>
        (hn f hf).elim)
      directory := fun hdu => .inl (hdu.imp_right fun ⟨f, hf, _⟩ =>
        (hn f hf).elim)
      written := subset_rfl, synced := subset_rfl, entries := subset_rfl }
    ⟨rfl, rfl, rfl, rfl, fun _ _ _ _ => id⟩ (fun f hf => ?_) h.durable h.durable_lt
  cases hf
  refine ⟨fun _ => ⟨hfi, hd⟩, fun d hdi => ?_, fun hs => ?_, ?_⟩
  · rw [ht] at hdi
    cases hdi
  · rw [ht] at hs
    cases hs
  · show round.sequence < wal.log.append.nextSequence
    have : wal.sync.durableSequence < wal.log.append.nextSequence := h.durable_lt
    omega

/-- Taking the marks moves them into the round. -/
theorem tracked_takeDirty (h : wal.syncView.Tracked) (ha : wal.NoUnwrittenRange)
    (hr : wal.round = some round) (ht : round.taken = none) :
    ({ wal.syncView with
      store := wal.payloads.takeDirty.1
      round := some { round with
        taken := some wal.payloads.state.dirty
        files := wal.payloads.state.dirty.files
        directory := wal.payloads.state.dirty.directoryDirty } } : SyncView).Tracked := by
  have hold := h.round round hr
  -- the round had nothing to sync yet, so what is due is marked
  have hm : ∀ name, wal.syncView.DueFile name → name ∈ wal.payloads.state.dirty.files :=
    fun name hdu => (hdu.cases hr).resolve_right fun hmem => by
      rw [(hold.idle ht).1] at hmem
      exact absurd hmem (Finset.notMem_empty _)
  have hd : wal.syncView.DueDirectory → wal.payloads.state.dirty.directoryDirty = true :=
    fun hdu => (hdu.cases hr).resolve_right fun hmem => by
      rw [(hold.idle ht).2] at hmem
      cases hmem
  refine h.of_marks
    { bytes := fun _ _ hdu => .inr (.inr ⟨_, rfl, hm _ hdu⟩)
      directory := fun hdu => .inl (.inr ⟨_, rfl, hd hdu⟩)
      written := subset_rfl, synced := subset_rfl, entries := subset_rfl }
    ⟨rfl, rfl, rfl, rfl, fun c hc hs hp =>
      absurd hp (ha c hc hs)⟩
    (fun f hf => ?_) h.durable h.durable_lt
  cases hf
  refine ⟨(nofun), fun d hdi => ?_, fun _ s p hmem hle => ?_, hold.sequence_lt⟩
  · cases hdi
    exact ⟨subset_rfl, id⟩
  · obtain ⟨hb, he⟩ := h.carried s p hmem
    exact ⟨hb.2.imp_right (hm _), fun hfi => (he hfi).imp_right hd⟩

/-- Syncing a file of the round makes the bytes written to it durable. -/
theorem tracked_syncPayload (h : wal.syncView.Tracked) {name : String}
    {pa : PayloadStore} (hr : wal.round = some round)
    (hf : wal.payloads.syncFile name = .ok pa) :
    ({ wal.syncView with
      store := pa
      round := some { round with files := round.files.erase name } } : SyncView).Tracked := by
  have hold := h.round round hr
  unfold PayloadStore.syncFile at hf
  split_ifs at hf with hp
  cases hf
  have hs : ∀ p ∈ wal.payloads.disk.written, p.file = name →
      p ∈ wal.payloads.disk.synced ∪ wal.payloads.disk.written.filter (·.file = name) :=
    fun p hw heq =>
      Finset.mem_union_right _ (Finset.mem_filter.2 ⟨hw, heq⟩)
  refine h.of_marks
    { bytes := fun p hw hdu => ?_
      directory := fun hdu => .inl ((hdu.cases hr).imp_right fun hmem => ⟨_, rfl, hmem⟩)
      written := subset_rfl, synced := Finset.subset_union_left, entries := subset_rfl }
    ⟨rfl, rfl, rfl, rfl, fun _ _ _ _ => id⟩
    (fun f hfo => ?_) (fun s p hmem hle => ?_) h.durable_lt
  · rcases hdu.cases hr with hmem | hmem
    · exact .inr (.inl hmem)
    · by_cases heq : p.file = name
      · exact .inl (hs p hw heq)
      · exact .inr (.inr ⟨_, rfl, Finset.mem_erase.2 ⟨heq, hmem⟩⟩)
  · cases hfo
    refine ⟨fun hn => ⟨?_, (hold.idle hn).2⟩, fun d hd => ?_,
      fun hso s p hmem hle => ?_, hold.sequence_lt⟩
    · show round.files.erase name = ∅
      rw [(hold.idle hn).1, Finset.erase_empty]
    · exact ⟨(Finset.erase_subset _ _).trans (hold.part d hd).1, (hold.part d hd).2⟩
    · obtain ⟨hb, he⟩ := hold.covers hso s p hmem hle
      refine ⟨?_, he⟩
      rcases hb with hm' | hm'
      · exact .inl (Finset.mem_union_left _ hm')
      · by_cases heq : p.file = name
        · exact .inl (hs p (h.carried s p hmem).1.1 heq)
        · exact .inr (Finset.mem_erase.2 ⟨heq, hm'⟩)
  · obtain ⟨hw, hsy, he⟩ := h.durable s p hmem hle
    exact ⟨hw, Finset.mem_union_left _ hsy, he⟩

/-- Syncing the directory makes every entry durable. -/
theorem tracked_syncDirectory (h : wal.syncView.Tracked)
    (hr : wal.round = some round) :
    ({ wal.syncView with
      store := wal.payloads.syncDirectory
      round := some { round with directory := false } } : SyncView).Tracked := by
  have hold := h.round round hr
  refine h.of_marks
    { bytes := fun _ _ hdu => .inr ((hdu.cases hr).imp_right fun hmem => ⟨_, rfl, hmem⟩)
      directory := fun _ => .inr Finset.subset_union_right
      written := subset_rfl, synced := subset_rfl, entries := Finset.subset_union_left }
    ⟨rfl, rfl, rfl, rfl, fun _ _ _ _ => id⟩
    (fun f hfo => ?_) (fun s p hmem hle => ?_) h.durable_lt
  · cases hfo
    refine ⟨fun hn => ⟨(hold.idle hn).1, rfl⟩, fun d hd =>
      ⟨(hold.part d hd).1, (nofun)⟩,
      fun hs s p hmem hle => ?_, hold.sequence_lt⟩
    exact ⟨(hold.covers hs s p hmem hle).1, fun hf => .inl (Finset.mem_union_right _ hf)⟩
  · obtain ⟨hw, hsy, -⟩ := h.durable s p hmem hle
    exact ⟨hw, hsy, fun hf => Finset.mem_union_right _ hf⟩

/-- The handles of a round do not matter for payloads. -/
theorem tracked_syncLog (h : wal.syncView.Tracked) {handles : List Nat}
    (hr : wal.round = some round) :
    ({ wal.syncView with round := some { round with handles := handles } } : SyncView).Tracked := by
  have hold := h.round round hr
  refine h.of_marks
    { bytes := fun _ _ hd => .inr ((hd.cases hr).imp_right fun hmem => ⟨_, rfl, hmem⟩)
      directory := fun hd => .inl ((hd.cases hr).imp_right fun hmem => ⟨_, rfl, hmem⟩)
      written := subset_rfl, synced := subset_rfl, entries := subset_rfl }
    ⟨rfl, rfl, rfl, rfl, fun _ _ _ _ => id⟩
    (fun f hf => ?_) h.durable h.durable_lt
  cases hf
  exact ⟨hold.idle, hold.part, hold.covers, hold.sequence_lt⟩

/-- A round whose payloads are synced leaves nothing due behind. -/
theorem marks_of_payloadsDone {s : Nat} (hr : wal.round = some round)
    (hd : SyncRound.PayloadsDone round) :
    Marks wal.syncView { wal.syncView with round := none, durableSequence := s } := by
  refine { bytes := fun _ _ hdu => .inr (.inl ((hdu.cases hr).resolve_right fun hmem => ?_))
           directory := fun hdu => .inl (.inl ((hdu.cases hr).resolve_right fun hmem => ?_))
           written := subset_rfl, synced := subset_rfl, entries := subset_rfl }
  · rw [hd.2.1] at hmem
    exact absurd hmem (Finset.notMem_empty _)
  · rw [hd.2.2] at hmem
    cases hmem

/-- Publishing the watermark: everything it covers was synced by the round or before. -/
theorem tracked_finish (h : wal.syncView.Tracked)
    (hr : wal.round = some round) (hdo : SyncRound.PayloadsDone round) :
    ({ wal.syncView with
      round := none
      durableSequence := max wal.sync.durableSequence round.sequence } : SyncView).Tracked := by
  have hold := h.round round hr
  refine h.of_marks (marks_of_payloadsDone hr hdo) ⟨rfl, rfl, rfl, rfl, fun _ _ _ _ => id⟩ nofun
    (fun s p hmem hle => ?_) (max_lt h.durable_lt hold.sequence_lt)
  rcases le_max_iff.1 hle with hle | hle
  · exact h.durable s p hmem hle
  · obtain ⟨hb, he⟩ := hold.covers hdo.1 s p hmem hle
    refine ⟨(h.carried s p hmem).1.1, hb.resolve_right fun hf => ?_,
      fun hf => (he hf).resolve_right fun hd => ?_⟩
    · rw [hdo.2.1] at hf
      exact absurd hf (Finset.notMem_empty _)
    · rw [hdo.2.2] at hd
      cases hd

/-- A round that fails before its payloads are synced puts all its marks back. -/
theorem tracked_failPayloads (h : wal.syncView.Tracked) {d : DirtyPayloads}
    (hr : wal.round = some round) (ht : round.taken = some d) :
    ({ wal.syncView with
      store := wal.payloads.restoreDirty d
      round := none } : SyncView).Tracked := by
  have hold := h.round round hr
  refine h.of_marks
    { bytes := fun _ _ hd => .inr (.inl (Finset.mem_union.2 ((hd.cases hr).imp_right
        fun hmem => (hold.part d ht).1 hmem)))
      directory := fun hd => .inl (.inl ?_)
      written := subset_rfl, synced := subset_rfl, entries := subset_rfl }
    ⟨rfl, rfl, rfl, rfl, fun _ _ _ _ hmem => Finset.mem_union_left _ hmem⟩ nofun h.durable
    h.durable_lt
  rw [PayloadStore.restoreDirty, Bool.or_eq_true]
  exact (hd.cases hr).imp_right (hold.part d ht).2

/-- A step of the group commit keeps every payload tracked. -/
theorem tracked_syncs {ac : SyncAction} (h : wal.syncView.Tracked)
    (ha : ac = .takeDirty → wal.NoUnwrittenRange) (hs : wal.Syncs fr ac next) :
    next.syncView.Tracked := by
  cases hs with
  | begin hr => exact tracked_begin h hr rfl rfl rfl rfl
  | takeDirty _ hr ht => exact tracked_takeDirty h (ha rfl) hr ht
  | syncPayload _ _ hr _ hf => exact tracked_syncPayload h hr hf
  | syncDirectory _ hr => exact tracked_syncDirectory h hr
  | syncLog _ _ _ hr => exact tracked_syncLog h hr
  | finish _ hr hd => exact tracked_finish h hr hd
  | failLog _ hr hd =>
    exact h.of_marks (marks_of_payloadsDone hr hd) ⟨rfl, rfl, rfl, rfl, fun _ _ _ _ => id⟩ nofun
      h.durable h.durable_lt
  | failPayloads _ _ hr ht => exact tracked_failPayloads h hr ht
  | syncThrough | syncLocal | answer => exact h

/-- A change of the store that forgets no mark and brings neither files nor captures. -/
theorem tracked_store {store : PayloadStore} (h : wal.syncView.Tracked)
    (hd : store.state.dirty = wal.payloads.state.dirty)
    (hw : store.disk.written = wal.payloads.disk.written)
    (hsy : store.disk.synced = wal.payloads.disk.synced)
    (he : wal.payloads.disk.entries ⊆ store.disk.entries)
    (hf : store.disk.files ⊆ wal.payloads.disk.files)
    (hc : store.captures = wal.payloads.captures)
    (hcu : ∀ s, store.state.currentSegment = some s → wal.payloads.state.currentSegment = some s) :
    (wal.syncView.withStore store).Tracked := by
  have hm : Marks wal.syncView (wal.syncView.withStore store) :=
    marks_withStore (hd ▸ subset_rfl) (fun hdu => hd ▸ hdu) hw.ge hsy.ge he
  refine h.grow hm (fun _ _ _ hmem => hf hmem) (fun s hs =>
    (h.current s (hcu s hs)).marks hm fun hmem => hf hmem)
    fun c hca => ?_
  exact (h.captures c (hc ▸ hca)).marks hm (hd ▸ subset_rfl) fun _ hmem => hf hmem

/-- A log step that carries no payload keeps every payload tracked. -/
theorem tracked_log (h : wal.syncView.Tracked) (hs : next.payloads = wal.payloads)
    (hr : next.round = wal.round) (hsy : next.sync = wal.sync)
    (hle : wal.log.append.nextSequence ≤ next.log.append.nextSequence)
    (hc : next.log.view.carried = wal.log.view.carried) : next.syncView.Tracked := by
  unfold syncView
  rw [hs, hr, hsy, hc]
  exact h.handOut hle

/-- The dirty marks are taken only while no range is reserved and unwritten. -/
def TakesWrittenMarks : WalAction → MountWal → Prop
  | .sync .takeDirty, wal => wal.NoUnwrittenRange
  | _, _ => True

instance : ∀ action wal, Decidable (TakesWrittenMarks action wal)
  | .sync .takeDirty, wal => inferInstanceAs (Decidable wal.NoUnwrittenRange)
  | .sync (.syncThrough _), _ | .sync .syncLocal, _ | .sync (.answer _), _ | .sync .begin, _ |
    .sync (.syncPayload _), _ | .sync .syncDirectory, _ | .sync .syncLog, _ | .sync .finish, _ |
    .sync .fail, _ | .capture _, _ | .record _, _ | .maintenance _, _ => .isTrue trivial

/-- Every step that takes the marks when it may keeps every payload tracked. -/
theorem tracked_steps {ac : WalAction} (h : wal.syncView.Tracked)
    (hw : wal.Consistent fr) (hn : wal.Named) (hal : TakesWrittenMarks ac wal)
    (hst : wal.Steps fr ac next) : next.syncView.Tracked := by
  have hle := (hst.logStep hw).nextSequence_le
  rcases hst.carried hw with ⟨hne, hc⟩ | ⟨i, capture, rfl, hca, hc⟩
  · cases hst with
    | capture _ hca => exact h.capture hn hca
    | record | acknowledge | rotate | compact => exact tracked_log h rfl rfl rfl hle hc
    | prepareCapture i => exact absurd rfl (hne i)
    | sync _ hsy => exact tracked_syncs h (fun ht => by subst ht; exact hal) hsy
    | sealSegment => exact tracked_store h rfl rfl rfl subset_rfl subset_rfl rfl nofun
    | advance _ _ ha =>
      cases ha with
      | checkpointSeal => exact tracked_store h rfl rfl rfl subset_rfl subset_rfl rfl nofun
      | reclaimed r =>
        cases r with
        | true =>
          have he : wal.payloads.disk.entries ⊆ wal.payloads.syncDirectory.disk.entries :=
            Finset.subset_union_left
          exact tracked_store h rfl rfl rfl he subset_rfl rfl fun _ hs => hs
        | false => exact h
      | mark c => cases c <;> exact tracked_log h rfl rfl rfl hle hc
      | rotateSwap | rotateLost => exact tracked_log h rfl rfl rfl hle hc
      | _ => exact h
    | reclaimFile =>
      exact tracked_store h rfl rfl rfl subset_rfl (Finset.erase_subset _ _) rfl fun _ hs => hs
    | _ => exact h
  · cases hst with
    | prepareCapture _ _ hc' hre _ hp =>
      cases hca.symm.trans hc'
      obtain ⟨-, rfl⟩ := WalLog.prepare_eq_ok.1 hp
      unfold syncView
      rw [hc]
      exact h.prepareCapture hca hre
    | record _ hr => cases hr

theorem tracked_fresh (e : String) : (fresh fr e).syncView.Tracked := by
  have hca : (fresh fr e).log.view.carried = [] := carried_fresh e
  unfold syncView
  rw [hca]
  refine ⟨fun c hc => ?_, fun se hs => ?_, fun s p hmem => ?_,
    fun round hr => ?_, fun s p hmem => ?_, Nat.zero_lt_one⟩
  · cases hc
  · cases hs
  · cases hmem
  · cases hr
  · cases hmem

/-! ## The watermark -/

/-- When a sync call for a sequence has returned, the payload bytes of every prepared event up to
that sequence were written and then synced, and the directory entry of every such file that still
exists was synced. -/
def PayloadsDurable (wal : MountWal) : Prop :=
  ∀ request ∈ wal.answered, ∀ event ∈ wal.log.view.events, event.sequence ≤ request.sequence →
    ∀ payload ∈ event.payload, payload ∈ wal.payloads.disk.written ∧
      payload ∈ wal.payloads.disk.synced ∧
      (payload.file ∈ wal.payloads.disk.files → payload.file ∈ wal.payloads.disk.entries)

instance (wal : MountWal) : Decidable wal.PayloadsDurable :=
  inferInstanceAs (Decidable (∀ request ∈ wal.answered, ∀ event ∈ wal.log.view.events, _ → _))

/-- Every call that returned is covered by the watermark. -/
def AnswersCovered (wal : MountWal) : Prop :=
  ∀ request ∈ wal.answered, wal.sync.Covers request

/-- Watermarks never regress, and a call returns only when it is covered. -/
theorem answersCovered_steps {ac : WalAction} (h : wal.AnswersCovered)
    (hst : wal.Steps fr ac next) : next.AnswersCovered := by
  cases hst with
  | sync _ hsy =>
    cases hsy with
    | answer _ _ _ hc =>
      intro o hmem
      rcases mem_concat.1 hmem with hold | rfl
      · exact h o hold
      · exact hc
    | finish =>
      intro o hmem
      obtain ⟨hs, hb⟩ := h o hmem
      exact ⟨hs.trans (le_max_left _ _), hb.trans (le_max_left _ _)⟩
    | _ => exact h
  | advance _ _ ha =>
    cases ha with
    | mark c => cases c <;> exact h
    | _ => exact h
  | _ => exact h

/-- The invariant behind the watermark. -/
structure PayloadsTracked (framing : Framing) (wal : MountWal) : Prop where
  consistent : wal.Consistent framing
  named : wal.Named
  tracked : wal.syncView.Tracked
  answers : wal.AnswersCovered

/-- **Payload bytes are durable before the log says so**, in every run that takes the dirty marks
only while no reserved range is unwritten. -/
theorem payloadsDurable_of_run {epoch : String} {initial : MountWal} {actions : List WalAction}
    (hcreate : create framing epoch = .ok initial)
    (hrun : Schedule.run (Schedule.guarded TakesWrittenMarks (exec framing)) actions initial =
      some wal) : wal.PayloadsDurable := by
  obtain ⟨hst, rfl⟩ := create_eq_ok hcreate
  have hf : (fresh framing epoch).PayloadsTracked framing :=
    ⟨consistent_fresh hst, named_fresh epoch, tracked_fresh epoch, nofun⟩
  have hinv : wal.PayloadsTracked framing := by
    refine Schedule.run_invariant (fun action b a hb hste => ?_) hrun hf
    obtain ⟨ha, hexe⟩ := Schedule.guarded_eq_some.1 hste
    have hs := steps_of_exec hexe
    exact ⟨hb.consistent.steps hs, hb.named.steps hb.consistent hs,
      tracked_steps hb.tracked hb.consistent hb.named ha hs,
      answersCovered_steps hb.answers hs⟩
  intro r hr e he hle p hp
  refine hinv.tracked.durable e.sequence p ?_ (hle.trans (hinv.answers r hr).1)
  refine List.mem_filterMap.2 ⟨e, he, ?_⟩
  rw [MountEvent.carries, Option.mem_def.1 hp]
  rfl

/-! ### A round in between -/

/-- A whole generation of a small file. -/
def smallWrite : MountMutation := .replaceFile ["notes"] 420 none none

/-- What the backing tree showed before it. -/
def smallWriteImage : MountPreImage := ⟨[⟨["notes"], .present .file 420 "8:1" 4 1 none⟩]⟩

def syncedRound : List WalAction :=
  [.sync .begin, .sync .takeDirty, .sync (.syncPayload (segmentName 0)), .sync .syncDirectory,
    .sync .syncLog, .sync .finish]

/-- One caller reserves a range; another one runs a round before the range is written. -/
def earlyRound : List WalAction :=
  [.capture (.reserveSegment smallWrite smallWriteImage 4 "9f86d081")] ++ syncedRound ++
    [.capture (.write 0), .record (.prepareCapture 0), .sync (.syncThrough 1), .sync .begin,
      .sync .takeDirty, .sync .syncLog, .sync .finish, .sync (.answer 0)]

/-- The same calls with the range written first. -/
def orderedRound : List WalAction :=
  [.capture (.reserveSegment smallWrite smallWriteImage 4 "9f86d081"), .capture (.write 0),
    .record (.prepareCapture 0), .sync (.syncThrough 1)] ++ syncedRound ++ [.sync (.answer 0)]

/-- Frames of half a kilobyte. -/
def smallFrames : Framing := .fixed 512 (by decide)

theorem startable_smallFrames : Startable smallFrames "epoch" :=
  ⟨by decide, by decide, by decide⟩

/-- A sync call returns for a payload that was never synced. -/
theorem unsynced_payload_behind_watermark : ∃ initial wal,
    create smallFrames "epoch" = .ok initial ∧
      Schedule.run (exec smallFrames) earlyRound initial = some wal ∧ ¬ wal.PayloadsDurable := by
  have hrun : (Schedule.run (exec smallFrames) earlyRound (fresh smallFrames "epoch")).any
      (fun wal => ¬ wal.PayloadsDurable) = true := by decide +kernel
  obtain ⟨wal, hw, hl⟩ := Schedule.exists_of_run_any hrun
  exact ⟨_, wal, create_eq startable_smallFrames, hw, of_decide_eq_true hl⟩

/-- With the range written first, the call for the first sequence returns and the payload is
durable. -/
theorem payloadsDurable_of_orderedRound : ∃ initial wal,
    create smallFrames "epoch" = .ok initial ∧
      Schedule.run (Schedule.guarded TakesWrittenMarks (exec smallFrames)) orderedRound initial =
        some wal ∧
      (∃ request ∈ wal.answered, request.sequence = 1) ∧
      (∃ event ∈ wal.log.view.events, event.sequence = 1 ∧ event.payload.isSome = true) ∧
      wal.PayloadsDurable := by
  have hrun : (Schedule.run (Schedule.guarded TakesWrittenMarks (exec smallFrames)) orderedRound
      (fresh smallFrames "epoch")).any (fun wal =>
        (∃ request ∈ wal.answered, request.sequence = 1) ∧
          ∃ event ∈ wal.log.view.events, event.sequence = 1 ∧ event.payload.isSome = true) =
        true := by decide +kernel
  obtain ⟨wal, hw, hr⟩ := Schedule.exists_of_run_any hrun
  obtain ⟨ha, he⟩ := of_decide_eq_true hr
  exact ⟨_, wal, create_eq startable_smallFrames, hw, ha, he,
    payloadsDurable_of_run (create_eq startable_smallFrames) hw⟩

end MountWal

end Chevalier.LocalView
