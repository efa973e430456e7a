import Chevalier.LocalView.Wal.System

/-!
# What one step can do

The inversion of `MountWal.exec`. `PayloadStore.Captures`, `WalLog.Records` and `MountWal.Steps` list
every way a step of a capture, of a critical section and of the whole system can succeed, each with
what it checked and the state it leaves. Every invariant is proved by cases on them.
-/

namespace Chevalier.LocalView

open Fold

/-! ## Captures -/

namespace PayloadStore

/-- The store with a new, empty active segment. -/
def withSegment (store : PayloadStore) : PayloadStore :=
  { store with
    state := { store.state with
      nextSegmentId := store.state.nextSegmentId + 1
      currentSegment := some ⟨segmentName store.state.nextSegmentId, 0⟩
      dirty := { store.state.dirty with directoryDirty := true } }
    disk := { store.disk with
      files := insert (segmentName store.state.nextSegmentId) store.disk.files } }

/-- The reference of a capture that is packed into a segment. -/
def packedRef (segment : ActiveSegment) (length : Nat) (contentHash : String) : PayloadRef :=
  ⟨.segment segment.name segment.len, length, payloadHashAlgorithm, contentHash⟩

def packed (store : PayloadStore) (segment : ActiveSegment) (mutation : MountMutation)
    (preImage : MountPreImage) (length : Nat) (contentHash : String) : PayloadStore :=
  { store with
    state := { store.state with
      currentSegment := some ⟨segment.name, segment.len + length⟩
      dirty := { store.state.dirty with
        files := insert segment.name store.state.dirty.files } }
    captures := store.captures ++
      [⟨mutation, preImage, packedRef segment length contentHash, .reserved⟩] }

/-- The reference of a capture with a file of its own. -/
def dedicatedRef (uuid : String) (length : Nat) (contentHash : String) : PayloadRef :=
  ⟨.dedicatedFile (dedicatedName uuid), length, payloadHashAlgorithm, contentHash⟩

/-- Every way a capture step changes the store. -/
inductive Captures (store : PayloadStore) : CaptureAction → PayloadStore → Prop
  | pack (mutation preImage length contentHash segment) (hpreflight : preflight mutation true = .ok ())
      (hsegment : store.state.currentSegment = some segment) :
      Captures store (.reserveSegment mutation preImage length contentHash)
        (store.packed segment mutation preImage length contentHash)
  | packNew (mutation preImage length contentHash) (hpreflight : preflight mutation true = .ok ())
      (hfresh : segmentName store.state.nextSegmentId ∉ store.disk.files) :
      Captures store (.reserveSegment mutation preImage length contentHash)
        (store.withSegment.packed ⟨segmentName store.state.nextSegmentId, 0⟩ mutation preImage
          length contentHash)
  | mint (mutation preImage uuid length contentHash) (hpreflight : preflight mutation true = .ok ())
      (hfresh : dedicatedName uuid ∉ store.minted) :
      Captures store (.reserveDedicated mutation preImage uuid length contentHash)
        { store with
          state := { store.state with
            reserved := insert (dedicatedName uuid) store.state.reserved }
          captures := store.captures ++
            [⟨mutation, preImage, dedicatedRef uuid length contentHash, .reserved⟩]
          minted := insert (dedicatedName uuid) store.minted }
  | writeRange (index mutation preImage payload name offset)
      (hcapture : store.captures[index]? = some ⟨mutation, preImage, payload, .reserved⟩)
      (hstorage : payload.storage = .segment name offset) :
      Captures store (.write index)
        { store with
          disk := { store.disk with written := insert payload store.disk.written }
          captures := store.captures.set index ⟨mutation, preImage, payload, .ready⟩ }
  | writeFile (index mutation preImage payload name)
      (hcapture : store.captures[index]? = some ⟨mutation, preImage, payload, .reserved⟩)
      (hstorage : payload.storage = .dedicatedFile name) (hfresh : name ∉ store.disk.files) :
      Captures store (.write index)
        { store with
          disk := { store.disk with
            files := insert name store.disk.files
            written := insert payload store.disk.written }
          captures := store.captures.set index ⟨mutation, preImage, payload, .written⟩ }
  | register (index mutation preImage payload)
      (hcapture : store.captures[index]? = some ⟨mutation, preImage, payload, .written⟩) :
      Captures store (.register index)
        { store with
          state := { store.state with
            reserved := store.state.reserved.erase payload.file
            dirty := {
              files := insert payload.file store.state.dirty.files
              directoryDirty := true } }
          captures := store.captures.set index ⟨mutation, preImage, payload, .ready⟩ }
  | discardFile (index capture name)
      (hcapture : store.captures[index]? = some capture)
      (hstorage : capture.payload.storage = .dedicatedFile name)
      (hstage : capture.stage ≠ .ready) :
      Captures store (.discard index)
        { store with
          state := { store.state with reserved := store.state.reserved.erase name }
          disk := { store.disk with files := store.disk.files.erase name }
          captures := store.captures.eraseIdx index }
  | discard (index capture) (hcapture : store.captures[index]? = some capture) :
      Captures store (.discard index) { store with captures := store.captures.eraseIdx index }

variable {st next : PayloadStore}

theorem openSegment_cases {l : Nat} {s : ActiveSegment}
    (h : st.openSegment l = .ok (next, s)) :
    (next = st ∧ st.state.currentSegment = some s) ∨
      (segmentName st.state.nextSegmentId ∉ st.disk.files ∧ next = st.withSegment ∧
        s = ⟨segmentName st.state.nextSegmentId, 0⟩) := by
  unfold openSegment at h
  split at h
  · rename_i a ha _
    simp only [Except.ok.injEq, Prod.mk.injEq] at h
    obtain ⟨rfl, rfl⟩ := h
    exact Or.inl ⟨rfl, ha⟩
  · simp only at h
    split_ifs at h with hf
    simp only [Except.ok.injEq, Prod.mk.injEq] at h
    exact Or.inr ⟨hf, h.1.symm, h.2.symm⟩

theorem captures_of_reserveSegment {m : MountMutation} {pi : MountPreImage}
    {l : Nat} {ch : String}
    (h : st.reserveSegment m pi l ch = .ok next) :
    st.Captures (.reserveSegment m pi l ch) next := by
  obtain ⟨_, hp, h⟩ := bind_eq_ok.1 h
  split_ifs at h with hl
  obtain ⟨⟨_, s⟩, ho, rfl⟩ := bind_pure_eq_ok.1 h
  rcases openSegment_cases ho with ⟨rfl, hs⟩ | ⟨hf, rfl, rfl⟩
  · exact .pack _ _ _ _ s hp hs
  · exact .packNew _ _ _ _ hp hf

theorem captures_of_reserveDedicated {m : MountMutation} {pi : MountPreImage}
    {uuid : String} {l : Nat} {ch : String}
    (h : st.reserveDedicated m pi uuid l ch = .ok next) :
    st.Captures (.reserveDedicated m pi uuid l ch) next := by
  obtain ⟨_, hp, h⟩ := bind_eq_ok.1 h
  simp only at h
  split_ifs at h with hf
  obtain rfl := pure_eq_ok.1 h
  exact .mint _ _ _ _ _ hp hf

theorem captures_of_writeCapture {i : Nat} (h : st.writeCapture i = .ok next) :
    st.Captures (.write i) next := by
  unfold writeCapture at h
  split at h
  · rename_i m pi p hc
    simp only at h
    split at h
    · rename_i name o hs
      cases h
      exact .writeRange i m pi p name o hc hs
    · rename_i name hs
      split_ifs at h with hf
      cases h
      exact .writeFile i m pi p name hc hs hf
  · cases h

theorem captures_of_registerDedicated {i : Nat} (h : st.registerDedicated i = .ok next) :
    st.Captures (.register i) next := by
  unfold registerDedicated at h
  split at h
  · rename_i m pi p hc
    cases h
    exact .register i m pi p hc
  · cases h

theorem captures_of_discardCapture {i : Nat} (h : st.discardCapture i = .ok next) :
    st.Captures (.discard i) next := by
  unfold discardCapture at h
  split at h
  · cases h
  · rename_i c hc
    simp only at h
    split at h
    · rename_i name hs hst
      cases h
      exact .discardFile i c name hc hs (by rw [hst]; decide)
    · rename_i name hs hst
      cases h
      exact .discardFile i c name hc hs (by rw [hst]; decide)
    · cases h
      exact .discard i c hc

end PayloadStore

/-! ## Critical sections -/

/-- The critical sections that change nothing but the log. -/
inductive WalLog.Records (framing : Framing) (log : WalLog) : RecordAction → WalLog → Prop
  | prepare (mutation preImage) {next}
      (hpreflight : PayloadStore.preflight mutation false = .ok ())
      (hpayload : mutation.validatePayload none = .ok ())
      (h : log.prepare framing mutation none preImage = .ok next) :
      Records framing log (.prepare mutation preImage) next
  | commit (event identity) {next}
      (h : log.commit framing event identity = .ok next) :
      Records framing log (.commit event identity) next
  | abort (event reason) {next}
      (h : log.abort framing event reason = .ok next) :
      Records framing log (.abort event reason) next
  | resolveRecovered (sequence resolution) {next}
      (h : log.resolveRecovered framing sequence resolution = .ok next) :
      Records framing log (.resolveRecovered sequence resolution) next
  | recordContentDirty (path) {next}
      (h : log.recordContentDirty framing path = .ok next) :
      Records framing log (.recordContentDirty path) next
  | clearContentDirty (path) :
      Records framing log (.clearContentDirty path) (log.clearContentDirty path)
  | renameContentDirty (oldPath newPath) {next}
      (h : log.renameContentDirty oldPath newPath = .ok next) :
      Records framing log (.renameContentDirty oldPath newPath) next

/-! ## The whole system -/

namespace MountWal

/-- Every way a step of the maintenance lock's holder succeeds. -/
inductive Advances (framing : Framing) (wal : MountWal) : Maintenance → MountWal → Prop
  | checkpointStart (caller treeGeneration) :
      Advances framing wal (.checkpointStart caller treeGeneration)
        { wal with maintenance := some (.checkpointSync caller treeGeneration wal.localRequest) }
  | checkpointSync (caller treeGeneration request)
      (hcovers : wal.sync.Covers request) :
      Advances framing wal (.checkpointSync caller treeGeneration request)
        { wal with maintenance := some (.checkpointSeal caller treeGeneration) }
  | checkpointSeal (caller treeGeneration) :
      Advances framing wal (.checkpointSeal caller treeGeneration)
        { wal with
          payloads := wal.payloads.sealActiveSegment
          maintenance := some (.checkpointIndex caller treeGeneration) }
  | refused (caller treeGeneration) :
      Advances framing wal (.checkpointIndex caller treeGeneration)
        { wal with
          log := { wal.log with append := { wal.log.append with
            treeGeneration := treeGeneration
            checkpointId := wal.log.append.checkpointId + 1 } }
          maintenance := none }
  | described (caller treeGeneration candidates)
      (hvalid : (wal.log.checkpointNow treeGeneration).validate = .ok ())
      (hkeep : wal.log.append.reclaimCandidates ⊆ candidates)
      (hadd : candidates ⊆ wal.log.append.reclaimCandidates ∪
        (wal.log.append.lastCheckpoint.map MountCheckpoint.activeSegments).getD ∅ \
          payloadNames wal.log.append.prepared) :
      Advances framing wal (.checkpointIndex caller treeGeneration)
        { wal with
          log := { wal.log with append := { wal.log.append with
            treeGeneration := treeGeneration
            checkpointId := wal.log.append.checkpointId + 1
            reclaimCandidates := candidates
            activeGenerations := (wal.log.checkpointNow treeGeneration).activeLogGenerations
            eventsSinceCheckpoint := 0
            lastCheckpoint := some (wal.log.checkpointNow treeGeneration) } }
          maintenance := some (.writePrevious caller treeGeneration
            (wal.log.checkpointNow treeGeneration) wal.log.append.lastCheckpoint) }
  | writePrevious (caller treeGeneration checkpoint previous) :
      Advances framing wal (.writePrevious caller treeGeneration checkpoint previous)
        { wal with
          previousCheckpoint := previous.orElse fun _ => wal.previousCheckpoint
          maintenance := some (.writeCurrent caller treeGeneration checkpoint) }
  | writeCurrent (caller treeGeneration checkpoint) :
      Advances framing wal (.writeCurrent caller treeGeneration checkpoint)
        { wal with
          checkpoint := some checkpoint
          maintenance := some (.mark caller treeGeneration checkpoint) }
  | mark (caller treeGeneration checkpoint)
      {log} (h : wal.log.markCheckpoint framing checkpoint treeGeneration = .ok log) :
      Advances framing wal (.mark caller treeGeneration checkpoint)
        ({ wal with log := log }.finishCheckpoint caller)
  | rotateSync (next) :
      Advances framing wal (.rotateSync next)
        { wal.syncGeneration framing next with maintenance := some (.rotateSyncDirectory next) }
  | rotateSyncDirectory (next) :
      Advances framing wal (.rotateSyncDirectory next)
        { wal.syncLogDirectory with maintenance := some (.rotateSwap next) }
  | rotateSwap (next) {log} (h : wal.log.rotateSwap framing next = (log, true)) :
      Advances framing wal (.rotateSwap next)
        { wal with
          log := log
          maintenance := some (.checkpointStart .maintenance log.append.treeGeneration) }
  | rotateLost (next) {log} (h : wal.log.rotateSwap framing next = (log, false)) :
      Advances framing wal (.rotateSwap next) { wal with log := log, maintenance := none }
  | removeLog (plan removed file)
      (hfile : file ∈ wal.log.files) (hbelow : file.generation < plan.floorGeneration) :
      Advances framing wal (.removeLogs plan removed)
        { wal with
          log := wal.log.removeGeneration file.generation
          maintenance := some (.removeLogs plan true) }
  | removedLogs (plan) :
      Advances framing wal (.removeLogs plan true)
        { wal.syncLogDirectory with
          log := wal.log.retainGenerations plan.floorGeneration
          maintenance := some (.deferCandidates plan) }
  | keptLogs (plan) :
      Advances framing wal (.removeLogs plan false)
        { wal with maintenance := some (.deferCandidates plan) }
  | deferCandidates (plan) :
      Advances framing wal (.deferCandidates plan) (wal.splitCandidates plan)
  | reclaimSnapshot (names) :
      Advances framing wal (.reclaimSnapshot names)
        { wal with maintenance := some (.reclaim (names \ wal.payloads.unreclaimable) false) }
  | reclaimed (removed) :
      Advances framing wal (.reclaim ∅ removed)
        { wal with
          payloads := if removed = true then wal.payloads.syncDirectory else wal.payloads
          maintenance := none }

/-- Every way a step of the group commit succeeds. -/
inductive Syncs (framing : Framing) (wal : MountWal) : SyncAction → MountWal → Prop
  | syncThrough (sequence) (h : sequence < wal.log.append.nextSequence) :
      Syncs framing wal (.syncThrough sequence)
        { wal with waiting := wal.waiting ++ [wal.requestNow sequence 0] }
  | syncLocal :
      Syncs framing wal .syncLocal { wal with waiting := wal.waiting ++ [wal.localRequest] }
  | answer (index request) (hrequest : wal.waiting[index]? = some request)
      (hcovers : wal.sync.Covers request) :
      Syncs framing wal (.answer index)
        { wal with
          waiting := wal.waiting.eraseIdx index
          answered := wal.answered ++ [request] }
  | begin (hround : wal.round = none) :
      Syncs framing wal .begin
        { wal with
          round := some {
            sequence := wal.log.append.nextSequence - 1
            bytes := wal.log.append.appendedBytes
            appended := wal.log.history.length
            handles := wal.log.append.pendingSync ++ [wal.log.append.generation]
            taken := none
            files := ∅
            directory := false }
          log := { wal.log with append := { wal.log.append with pendingSync := [] } } }
  | takeDirty (round) (hround : wal.round = some round) (htaken : round.taken = none) :
      Syncs framing wal .takeDirty
        { wal with
          payloads := wal.payloads.takeDirty.1
          round := some { round with
            taken := some wal.payloads.state.dirty
            files := wal.payloads.state.dirty.files
            directory := wal.payloads.state.dirty.directoryDirty } }
  | syncPayload (name round) {payloads}
      (hround : wal.round = some round) (hname : name ∈ round.files)
      (h : wal.payloads.syncFile name = .ok payloads) :
      Syncs framing wal (.syncPayload name)
        { wal with
          payloads := payloads
          round := some { round with files := round.files.erase name } }
  | syncDirectory (round) (hround : wal.round = some round)
      (hfiles : round.files = ∅) (hdue : round.directory = true) :
      Syncs framing wal .syncDirectory
        { wal with
          payloads := wal.payloads.syncDirectory
          round := some { round with directory := false } }
  | syncLog (round generation rest)
      (hround : wal.round = some round) (hhandles : round.handles = generation :: rest)
      (hdone : SyncRound.PayloadsDone round) :
      Syncs framing wal .syncLog
        { wal.syncGeneration framing generation with round := some { round with handles := rest } }
  | finish (round) (hround : wal.round = some round)
      (hdone : SyncRound.PayloadsDone round) (hhandles : round.handles = []) :
      Syncs framing wal .finish
        { wal with
          round := none
          sync := {
            durableSequence := max wal.sync.durableSequence round.sequence
            durableBytes := max wal.sync.durableBytes round.bytes } }
  | failLog (round) (hround : wal.round = some round)
      (hdone : SyncRound.PayloadsDone round) :
      Syncs framing wal .fail ({ wal with round := none }.restorePendingSync round.handles)
  | failPayloads (round dirty) (hround : wal.round = some round)
      (htaken : round.taken = some dirty) :
      Syncs framing wal .fail
        { { wal with round := none }.restorePendingSync round.handles with
          payloads := wal.payloads.restoreDirty dirty }

/-- Every way a step succeeds. -/
inductive Steps (framing : Framing) (wal : MountWal) : WalAction → MountWal → Prop
  | capture (action) {payloads}
      (h : wal.payloads.Captures action payloads) :
      Steps framing wal (.capture action) { wal with payloads := payloads }
  | record (action) {log} (h : wal.log.Records framing action log) :
      Steps framing wal (.record action) { wal with log := log }
  | prepareCapture (index capture) {log}
      (hcapture : wal.payloads.captures[index]? = some capture) (hready : capture.stage = .ready)
      (hpayload : capture.mutation.validatePayload (some capture.payload) = .ok ())
      (h : wal.log.prepare framing capture.mutation (some capture.payload) capture.preImage =
        .ok log) :
      Steps framing wal (.record (.prepareCapture index))
        { wal with
          log := log
          payloads := { wal.payloads with captures := wal.payloads.captures.eraseIdx index } }
  | acknowledgeNothing (throughSequence remoteRevision treeGeneration) :
      Steps framing wal (.record (.acknowledge throughSequence remoteRevision treeGeneration)) wal
  | acknowledge (throughSequence remoteRevision treeGeneration) {log names}
      (h : wal.log.acknowledge framing throughSequence remoteRevision = .ok (some (log, names))) :
      Steps framing wal (.record (.acknowledge throughSequence remoteRevision treeGeneration))
        { wal with
          log := log
          acknowledging := wal.acknowledging ++
            [⟨names, treeGeneration, ({ wal with log := log } : MountWal).localRequest⟩] }
  | release (index names) (h : wal.released[index]? = some names) :
      Steps framing wal (.record (.release index))
        { wal with
          log := wal.log.releaseCandidates names
          released := wal.released.eraseIdx index }
  | sync (action) {next} (h : wal.Syncs framing action next) :
      Steps framing wal (.sync action) next
  | sealSegment :
      Steps framing wal (.maintenance .sealSegment)
        { wal with payloads := wal.payloads.sealActiveSegment }
  | checkpoint (treeGeneration) (hfree : wal.maintenance = none) :
      Steps framing wal (.maintenance (.checkpoint treeGeneration))
        { wal with maintenance := some (.checkpointStart .maintenance treeGeneration) }
  | acknowledgedCheckpoint (index pending)
      (hpending : wal.acknowledging[index]? = some pending) (hfree : wal.maintenance = none)
      (hcovers : wal.sync.Covers pending.request) :
      Steps framing wal (.maintenance (.acknowledgedCheckpoint index))
        { wal with
          maintenance := some (.checkpointStart (.acknowledgement pending.names)
            pending.treeGeneration)
          acknowledging := wal.acknowledging.eraseIdx index }
  | rotateNothing : Steps framing wal (.maintenance .rotate) wal
  | rotate {log} (hfree : wal.maintenance = none)
      (h : wal.log.rotateCreate framing = .ok (some log)) :
      Steps framing wal (.maintenance .rotate)
        { wal with
          maintenance := some (.rotateSync (wal.log.append.generation + 1))
          log := log }
  | compactNothing : Steps framing wal (.maintenance .compact) wal
  | compact {log plan} (hfree : wal.maintenance = none)
      (h : wal.log.compactBegin = some (log, plan)) :
      Steps framing wal (.maintenance .compact)
        { wal with maintenance := some (.removeLogs plan false), log := log }
  | advance (maintenance) {next}
      (hheld : wal.maintenance = some maintenance) (h : wal.Advances framing maintenance next) :
      Steps framing wal (.maintenance .advance) next
  | reclaimFile (name names removed)
      (hheld : wal.maintenance = some (.reclaim names removed)) (hname : name ∈ names) :
      Steps framing wal (.maintenance (.reclaimFile name))
        { wal with
          payloads := wal.payloads.removeFile name
          maintenance := some (.reclaim (names.erase name)
            (removed || decide (name ∈ wal.payloads.disk.files))) }
  | failVisiblePrevious (previous) :
      Steps framing wal (.maintenance (.fail true))
        { wal with previousCheckpoint := some previous, maintenance := none }
  | failVisible (caller treeGeneration checkpoint)
      (hheld : wal.maintenance = some (.writeCurrent caller treeGeneration checkpoint)) :
      Steps framing wal (.maintenance (.fail true))
        { wal with checkpoint := some checkpoint, maintenance := none }
  | fail (visible) : Steps framing wal (.maintenance (.fail visible))
      { wal with maintenance := none }

variable {f : Framing} {wal next : MountWal}

theorem steps_of_execCapture {a : CaptureAction} (h : wal.execCapture a = .ok next) :
    wal.Steps f (.capture a) next := by
  cases a <;> obtain ⟨_, hp, rfl⟩ := bind_pure_eq_ok.1 h <;> refine .capture _ ?_
  case reserveSegment => exact PayloadStore.captures_of_reserveSegment hp
  case reserveDedicated => exact PayloadStore.captures_of_reserveDedicated hp
  case write => exact PayloadStore.captures_of_writeCapture hp
  case register => exact PayloadStore.captures_of_registerDedicated hp
  case discard => exact PayloadStore.captures_of_discardCapture hp

theorem steps_of_prepareCapture {i : Nat} (h : wal.prepareCapture f i = .ok next) :
    wal.Steps f (.record (.prepareCapture i)) next := by
  unfold prepareCapture at h
  split at h
  · rename_i m pi p hc
    obtain ⟨_, hp, h⟩ := bind_eq_ok.1 h
    obtain ⟨_, hl, rfl⟩ := bind_pure_eq_ok.1 h
    exact .prepareCapture i ⟨m, pi, p, .ready⟩ hc rfl hp hl
  · cases h

theorem steps_of_acknowledge {ts rr tg : Nat}
    (h : wal.acknowledge f ts rr tg = .ok next) :
    wal.Steps f (.record (.acknowledge ts rr tg)) next := by
  obtain ⟨o, ho, h⟩ := bind_eq_ok.1 h
  cases o with
  | none =>
    obtain rfl := pure_eq_ok.1 h
    exact .acknowledgeNothing _ _ _
  | some =>
    obtain rfl := pure_eq_ok.1 h
    exact .acknowledge _ _ _ ho

theorem steps_of_execRecord {a : RecordAction} (h : wal.execRecord f a = .ok next) :
    wal.Steps f (.record a) next := by
  cases a with
  | prepare m pi =>
    obtain ⟨_, hp, h⟩ := bind_eq_ok.1 h
    obtain ⟨_, hpa, h⟩ := bind_eq_ok.1 h
    obtain ⟨log, hl, rfl⟩ := bind_pure_eq_ok.1 h
    exact .record _ (.prepare m pi hp hpa hl)
  | prepareCapture => exact steps_of_prepareCapture h
  | commit | abort | resolveRecovered | recordContentDirty | renameContentDirty =>
    obtain ⟨_, hl, rfl⟩ := bind_pure_eq_ok.1 h
    refine .record _ ?_
    constructor
    exact hl
  | clearContentDirty path =>
    cases h
    exact .record _ (.clearContentDirty path)
  | acknowledge => exact steps_of_acknowledge h
  | release i =>
    simp only [execRecord] at h
    split at h
    · cases h
    · rename_i n hn
      cases h
      exact .release i n hn

theorem syncs_of_execSync {a : SyncAction} (h : wal.execSync f a = .ok next) :
    wal.Syncs f a next := by
  cases a with
  | syncThrough s =>
    simp only [execSync] at h
    split_ifs at h with hlt
    cases h
    exact .syncThrough s hlt
  | syncLocal =>
    cases h
    exact .syncLocal
  | answer i =>
    simp only [execSync] at h
    split at h
    · cases h
    · rename_i re hre
      split_ifs at h with hc
      cases h
      exact .answer i re hre hc
  | begin =>
    simp only [execSync, beginRound] at h
    split at h
    · cases h
    · rename_i hr
      cases h
      exact .begin hr
  | takeDirty =>
    simp only [execSync, takeDirtyRound] at h
    split at h
    · rename_i r hr
      split at h
      · rename_i ht
        cases h
        exact .takeDirty r hr ht
      · cases h
    · cases h
  | syncPayload name =>
    simp only [execSync, syncPayloadRound] at h
    split at h
    · rename_i r hr
      split_ifs at h with hn
      obtain ⟨_, hp, rfl⟩ := bind_pure_eq_ok.1 h
      exact .syncPayload name r hr hn hp
    · cases h
  | syncDirectory =>
    simp only [execSync, syncDirectoryRound] at h
    split at h
    · rename_i r hr
      split_ifs at h with hdu
      cases h
      exact .syncDirectory r hr hdu.1 hdu.2
    · cases h
  | syncLog =>
    simp only [execSync, syncLogRound] at h
    split at h
    · rename_i r hr
      split at h
      · rename_i g rest hh
        split_ifs at h with hd
        cases h
        exact .syncLog r g rest hr hh hd
      · cases h
    · cases h
  | finish =>
    simp only [execSync, finishRound] at h
    split at h
    · rename_i r hr
      split_ifs at h with hd
      cases h
      exact .finish r hr hd.1 hd.2
    · cases h
  | fail =>
    simp only [execSync, failRound] at h
    split at h
    · rename_i r hr
      split at h
      · cases h
      · rename_i d ht
        split_ifs at h with hd
        · cases h
          exact .failLog r hr hd
        · cases h
          exact .failPayloads r d hr ht
    · cases h

theorem advances_of_describeCheckpoint (c : CheckpointCaller) (tg : Nat) :
    wal.Advances f (.checkpointIndex c tg) (wal.describeCheckpoint c tg) := by
  unfold describeCheckpoint
  rcases wal.log.checkpointIndex_cases tg with
    ⟨message, heq⟩ | ⟨hv, candidates, hk, ha, heq⟩
  · rw [heq]
    exact .refused c tg
  · rw [heq]
    exact .described c tg candidates hv hk ha

theorem advances_of_removeOldestLog (plan : WalLog.CompactionPlan) (r : Bool) :
    wal.Advances f (.removeLogs plan r) (wal.removeOldestLog plan r) := by
  unfold removeOldestLog
  split
  · rename_i file hf
    exact .removeLog plan r file (List.mem_of_find?_eq_some hf) (by simpa using List.find?_some hf)
  · cases r with
    | true => exact .removedLogs plan
    | false => exact .keptLogs plan

theorem steps_of_advance (h : wal.advance f = .ok next) :
    wal.Steps f (.maintenance .advance) next := by
  unfold advance at h
  cases hh : wal.maintenance with
  | none =>
    rw [hh] at h
    cases h
  | some m =>
    refine .advance m hh ?_
    rw [hh] at h
    cases m with
    | checkpointStart | checkpointSeal | writePrevious | writeCurrent | rotateSync
    | rotateSyncDirectory | deferCandidates | reclaimSnapshot =>
      cases h
      constructor
    | checkpointSync c tg re =>
      simp only at h
      split_ifs at h with hc
      cases h
      exact .checkpointSync c tg re hc
    | checkpointIndex c tg =>
      cases h
      exact advances_of_describeCheckpoint c tg
    | mark c tg ch =>
      obtain ⟨log, hl, rfl⟩ := bind_pure_eq_ok.1 h
      exact .mark c tg ch hl
    | rotateSwap g =>
      simp only at h
      split at h
      · rename_i log hs
        cases h
        exact .rotateSwap g hs
      · rename_i log hs
        cases h
        exact .rotateLost g hs
    | removeLogs plan r =>
      cases h
      exact advances_of_removeOldestLog plan r
    | reclaim n r =>
      by_cases he : n = ∅
      · simp only [if_pos he] at h
        cases h
        subst he
        exact .reclaimed r
      · simp only [if_neg he, reduceCtorEq] at h

theorem acquire_eq_ok {maintenance : Maintenance} (h : wal.acquire maintenance = .ok next) :
    wal.maintenance = none ∧ next = { wal with maintenance := some maintenance } := by
  unfold acquire at h
  split at h
  · cases h
  · rename_i hf
    exact ⟨hf, (Except.ok.inj h).symm⟩

theorem steps_of_execMaintenance {a : MaintenanceAction}
    (h : wal.execMaintenance f a = .ok next) :
    wal.Steps f (.maintenance a) next := by
  cases a with
  | sealSegment =>
    cases h
    exact .sealSegment
  | checkpoint tg =>
    obtain ⟨hf, rfl⟩ := acquire_eq_ok h
    exact .checkpoint tg hf
  | acknowledgedCheckpoint i =>
    simp only [execMaintenance, acknowledgedCheckpoint] at h
    split at h
    · cases h
    · rename_i pe hp
      split_ifs at h with hc
      obtain ⟨held, hh, h⟩ := bind_eq_ok.1 h
      obtain ⟨hf, rfl⟩ := acquire_eq_ok hh
      obtain rfl := pure_eq_ok.1 h
      exact .acknowledgedCheckpoint i pe hp hf hc
  | rotate =>
    obtain ⟨held, hh, h⟩ := bind_eq_ok.1 h
    obtain ⟨hf, rfl⟩ := acquire_eq_ok hh
    obtain ⟨o, ho, h⟩ := bind_eq_ok.1 h
    cases o with
    | none =>
      obtain rfl := pure_eq_ok.1 h
      exact .rotateNothing
    | some =>
      obtain rfl := pure_eq_ok.1 h
      exact .rotate hf ho
  | compact =>
    simp only [execMaintenance, MountWal.compact] at h
    split at h
    · cases h
      exact .compactNothing
    · rename_i log plan hpl
      obtain ⟨held, hh, h⟩ := bind_eq_ok.1 h
      obtain ⟨hf, rfl⟩ := acquire_eq_ok hh
      obtain rfl := pure_eq_ok.1 h
      exact .compact hf hpl
  | advance => exact steps_of_advance h
  | reclaimFile name =>
    simp only [execMaintenance, MountWal.reclaimFile] at h
    split at h
    · rename_i n r hh
      split_ifs at h with hn
      cases h
      exact .reclaimFile name n r hh hn
    · cases h
  | fail v =>
    simp only [execMaintenance, failMaintenance] at h
    split at h
    · cases h
    · rename_i p hh
      cases h
      cases v with
      | true => exact .failVisiblePrevious p
      | false => exact .fail false
    · rename_i c tg checkpoint hh
      cases h
      cases v with
      | true => exact .failVisible c tg checkpoint hh
      | false => exact .fail false
    · cases h
      exact .fail v

/-- **Inversion of a step.** -/
theorem steps_of_exec {a : WalAction} (h : exec f a wal = some next) :
    wal.Steps f a next := by
  cases a with
  | capture => exact steps_of_execCapture (toOption_eq_some.1 h)
  | record => exact steps_of_execRecord (toOption_eq_some.1 h)
  | sync a => exact .sync a (syncs_of_execSync (toOption_eq_some.1 h))
  | maintenance => exact steps_of_execMaintenance (toOption_eq_some.1 h)

end MountWal

end Chevalier.LocalView
