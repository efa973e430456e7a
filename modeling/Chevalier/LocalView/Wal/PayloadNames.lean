import Chevalier.LocalView.Wal.Fresh

/-!
# Who holds a payload file

A payload is held by the capture that is writing it and then by the prepare that carries it.
`WalLog.carried` are the payloads of the log's prepares and `Named` the invariant about their files:
every one is a segment handed out before or a minted name, and a dedicated file has one holder. So a
file that is created or thrown away by one capture is no other holder's file.
-/

namespace Chevalier.LocalView

open List

/-! ## Names -/

/-- The digits of a number, the least significant first, padded with zeros. -/
theorem ofDigits_padded (nu c : Nat) :
    Nat.ofDigits 10 (Nat.digits 10 nu ++ List.replicate c 0) = nu := by
  have hz : ∀ n, Nat.ofDigits 10 (List.replicate n 0) = 0 := by
    intro n
    induction n with
    | zero => rfl
    | succ _ ih => rw [replicate_succ, Nat.ofDigits_cons, ih, Nat.mul_zero]
  rw [Nat.ofDigits_append, hz, Nat.mul_zero, Nat.add_zero, Nat.ofDigits_digits]

theorem map_digitChar {l : List Nat} (h : ∀ d ∈ l, d < 10) :
    (l.map Nat.digitChar).map (fun char => char.toNat - 48) = l := by
  have hb : ∀ d < 10, (Nat.digitChar d).toNat - 48 = d := by decide
  rw [map_map]
  exact (map_congr_left fun d hd => hb d (h d hd)).trans (map_id _)

theorem paddedDecimal_injective : Function.Injective paddedDecimal := by
  intro m n h
  have hd : ∀ nu c, ∀ d ∈ Nat.digits 10 nu ++ List.replicate c 0,
      d < 10 := by
    intro nu c d hdi
    rcases List.mem_append.1 hdi with hmem | hmem
    · exact Nat.digits_lt_base (by omega) hmem
    · rw [eq_of_mem_replicate hmem]
      omega
  have hl := String.ofList_injective h
  rw [map_reverse, map_reverse, reverse_inj] at hl
  have heq := congrArg (List.map fun char => char.toNat - 48) hl
  rw [map_digitChar (hd _ _), map_digitChar (hd _ _)] at heq
  rw [← ofDigits_padded m (20 - (Nat.digits 10 m).length), heq, ofDigits_padded]

theorem segmentName_injective : Function.Injective segmentName := by
  intro m n h
  refine paddedDecimal_injective (String.toList_injective ?_)
  have hl := congrArg String.toList h
  simpa [segmentName] using hl

theorem segmentName_ne_dedicatedName (id : Nat) (uuid : String) :
    segmentName id ≠ dedicatedName uuid := by
  intro h
  have hl := congrArg String.toList h
  simp [segmentName, dedicatedName] at hl

/-! ## Payloads in the log -/

def WalRecord.event? : WalRecord → Option MountEvent
  | .prepared event => some event
  | _ => none

/-- The events of the log's prepares, oldest first. -/
def LogView.events (view : LogView) : List MountEvent :=
  view.history.filterMap fun entry => entry.record.event?

def MountEvent.carries (event : MountEvent) : Option (Nat × PayloadRef) :=
  event.payload.map fun payload => (event.sequence, payload)

/-- The payloads the log's prepares carry, each with its sequence. -/
def LogView.carried (view : LogView) : List (Nat × PayloadRef) :=
  view.events.filterMap MountEvent.carries

theorem LogView.events_appended (fr : Framing) (view : LogView) (r : WalRecord) :
    (view.appended fr r).events = view.events ++ r.event?.toList := by
  unfold events appended
  simp only [filterMap_append]
  cases he : r.event? <;> simp [he]

variable {view : LogView}

theorem LogView.carried_of_events {next : LogView} {e : MountEvent}
    (h : next.events = view.events ++ [e]) :
    next.carried = view.carried ++ e.carries.toList := by
  unfold carried
  rw [h, filterMap_append]
  cases he : e.carries <;> simp [he]

variable {payload pa : PayloadRef}

theorem LogView.mem_carried {s : Nat} :
    (s, pa) ∈ view.carried ↔ ∃ en ∈ view.history, ∃ e,
      en.record = .prepared e ∧ e.sequence = s ∧ e.payload = some pa := by
  constructor
  · intro hmem
    obtain ⟨e, hev, hc⟩ := List.mem_filterMap.1 hmem
    obtain ⟨en, he, hr⟩ := List.mem_filterMap.1 hev
    obtain ⟨_, hf, hpa⟩ := Option.map_eq_some_iff.1 hc
    obtain ⟨rfl, rfl⟩ := Prod.mk.inj hpa
    refine ⟨en, he, e, ?_, rfl, hf⟩
    cases hk : en.record with
    | prepared =>
      rw [hk] at hr
      exact congrArg _ (Option.some.inj hr)
    | _ =>
      rw [hk] at hr
      cases hr
  · rintro ⟨en, he, e, hr, rfl, hp⟩
    refine List.mem_filterMap.2 ⟨e, List.mem_filterMap.2 ⟨en, he, ?_⟩, ?_⟩
    · rw [hr]
      rfl
    · rw [MountEvent.carries, hp]
      rfl

/-- What an indexed prepare carries, the log carries. -/
theorem Laid.carried_of_prepared {fr : Framing} {ind : IndexView}
    (h : Laid fr view ind) {r : PreparedRecord}
    (hr : r ∈ ind.prepared) (hp : r.event.payload = some pa) :
    (r.sequence, pa) ∈ view.carried := by
  obtain ⟨e, he, -, -, ev, hev, hs, hsa⟩ := h.placed r hr
  exact LogView.mem_carried.2 ⟨e, he, ev, hev, hs, hsa.trans hp⟩

/-- What the log carries above the cursor is indexed. -/
theorem Laid.prepared_of_carried {fr : Framing} {ind : IndexView}
    (h : Laid fr view ind) {s : Nat}
    (hmem : (s, pa) ∈ view.carried) (hlt : ind.acknowledgedSequence < s) :
    ∃ r ∈ ind.prepared, r.event.payload = some pa := by
  obtain ⟨en, hen, e, he, rfl, hp⟩ := LogView.mem_carried.1 hmem
  rcases h.complete en hen e he with hle | ⟨r, hr, -, -, f, hf, -, hs⟩
  · exact absurd hlt (Nat.not_lt.2 hle)
  · obtain rfl : e = f := WalRecord.prepared.inj (he.symm.trans hf)
    exact ⟨r, hr, hs.symm.trans hp⟩

theorem mem_payloadNames {p : List PreparedRecord} {name : String} :
    name ∈ payloadNames p ↔ ∃ r ∈ p, ∃ pa, r.event.payload = some pa ∧ pa.file = name := by
  simp only [payloadNames, mem_toFinset, mem_map, mem_filterMap]
  constructor
  · rintro ⟨pa, ⟨r, hr, hp⟩, rfl⟩
    exact ⟨r, hr, pa, hp, rfl⟩
  · rintro ⟨r, hr, pa, hp, rfl⟩
    exact ⟨pa, ⟨r, hr, hp⟩, rfl⟩

/-- Switching to the next generation carries nothing. -/
theorem LogView.Stored.events_swapped {fr : Framing}
    (h : view.Stored fr)
    (hn : view.generation + 1 ∈ view.files.map LogFile.generation) :
    (view.swapped fr).events = view.events := by
  obtain ⟨_, hr, -⟩ := h.nextRecords_eq hn
  unfold events LogView.swapped
  simp only [filterMap_append, hr]
  simp [Framing.entries, WalRecord.event?, header]

namespace WalLog

variable {fr : Framing} {log next : WalLog}

theorem events_prepare {m : MountMutation} {pa : Option PayloadRef}
    {pi : MountPreImage} (h : log.prepare fr m pa pi = .ok next) :
    next.view.events = log.view.events ++ [log.nextEvent m pa pi] := by
  obtain ⟨-, rfl⟩ := prepare_eq_ok.1 h
  exact log.view.events_appended fr _

theorem events_acknowledge {ts rr : Nat} {n : Finset String}
    (h : log.acknowledge fr ts rr = .ok (some (next, n))) :
    next.view.events = log.view.events := by
  obtain ⟨-, -, -, -, heq⟩ := acknowledge_eq_some h
  obtain ⟨rfl, -⟩ := Prod.mk.inj heq
  exact (log.view.events_appended fr _).trans (append_nil _)

theorem events_markCheckpoint {c : MountCheckpoint} {tg : Nat}
    (h : log.markCheckpoint fr c tg = .ok next) :
    next.view.events = log.view.events := by
  obtain ⟨-, rfl⟩ := appendFramed_eq_ok.1 h
  exact (log.view.events_appended fr _).trans (append_nil _)

/-- A section on its own logs at most one event, and that one carries no payload. -/
theorem Records.events {a : RecordAction} (h : log.Records fr a next) :
    next.view.events = log.view.events ∨ ∃ e, e.payload = none ∧
      next.view.events = log.view.events ++ [e] := by
  have ho : ∀ r : WalRecord, r.event? = none →
      (log.view.appended fr r).events = log.view.events := by
    intro r hn
    rw [LogView.events_appended, hn]
    exact append_nil _
  cases h with
  | prepare _ _ _ _ h => exact .inr ⟨_, rfl, events_prepare h⟩
  | commit _ _ h =>
    rcases commit_cases h with rfl | ⟨_, _, _, _, _, rfl⟩
    · exact .inl rfl
    · exact .inl (ho _ rfl)
  | abort _ _ h =>
    rcases abort_cases h with rfl | ⟨_, _, _, _, rfl⟩
    · exact .inl rfl
    · exact .inl (ho _ rfl)
  | resolveRecovered _ _ h =>
    obtain ⟨_, _, _, ⟨_, _, rfl⟩ | ⟨_, _, rfl⟩⟩ := resolveRecovered_cases h
    · exact .inl (ho _ rfl)
    · exact .inl (ho _ rfl)
  | recordContentDirty _ h =>
    obtain ⟨_, rfl | ⟨_, _, rfl⟩⟩ := recordContentDirty_cases h
    · exact .inl rfl
    · exact .inl (ho _ rfl)
  | clearContentDirty => exact .inl rfl
  | renameContentDirty _ _ h =>
    obtain ⟨-, -, rfl⟩ := renameContentDirty_eq_ok h
    exact .inl rfl

theorem Records.carried {a : RecordAction} (h : log.Records fr a next) :
    next.view.carried = log.view.carried := by
  rcases h.events with heq | ⟨_, hn, heq⟩
  · exact congrArg (List.filterMap MountEvent.carries) heq
  · rw [LogView.carried_of_events heq, MountEvent.carries, hn]
    exact append_nil _

end WalLog

namespace MountWal

variable {fr : Framing} {wal next : MountWal}

/-- The payloads the log carries change only when the prepare of a capture is appended. -/
theorem Steps.carried {a : WalAction} (h : wal.Steps fr a next)
    (hw : wal.Consistent fr) :
    ((∀ ind, a ≠ .record (.prepareCapture ind)) ∧
        next.log.view.carried = wal.log.view.carried) ∨
      ∃ ind capture, a = .record (.prepareCapture ind) ∧
        wal.payloads.captures[ind]? = some capture ∧
        next.log.view.carried = wal.log.view.carried ++
          [(wal.log.append.nextSequence, capture.payload)] := by
  have he : next.log.view.events = wal.log.view.events →
      next.log.view.carried = wal.log.view.carried := congrArg (List.filterMap MountEvent.carries)
  cases h with
  | record _ h => exact .inl ⟨by cases h <;> simp, h.carried⟩
  | prepareCapture ind capture hc _ _ h =>
    exact .inr ⟨ind, capture, rfl, hc, LogView.carried_of_events (WalLog.events_prepare h)⟩
  | acknowledge _ _ _ h => exact .inl ⟨by simp, he (WalLog.events_acknowledge h)⟩
  | sync _ h => cases h <;> exact .inl ⟨by simp, rfl⟩
  | rotate _ h =>
    obtain ⟨-, -, rfl⟩ := WalLog.rotateCreate_eq_some h
    exact .inl ⟨by simp, rfl⟩
  | compact _ h =>
    obtain ⟨rfl, -⟩ := WalLog.compactBegin_eq_some h
    exact .inl ⟨by simp, rfl⟩
  | advance _ hh h =>
    cases h with
    | mark c _ _ h => cases c <;> exact .inl ⟨by simp, he (WalLog.events_markCheckpoint h)⟩
    | rotateSwap _ h =>
      obtain ⟨-, hn⟩ := hw.held _ hh
      obtain ⟨rfl, rfl⟩ := WalLog.rotateSwap_eq_true h
      exact .inl ⟨by simp, he (hw.laid.stored.events_swapped hn)⟩
    | rotateLost _ h => exact absurd (hw.held _ hh).1.symm (WalLog.rotateSwap_eq_false h)
    | _ => exact .inl ⟨by simp, rfl⟩
  | _ => exact .inl ⟨by simp, rfl⟩

end MountWal

/-! ## One holder for a file -/

def PayloadStorage.dedicated? : PayloadStorage → Option String
  | .segment _ _ => none
  | .dedicatedFile name => some name

namespace PayloadStore

/-- The file was handed out by the store. -/
def Knows (store : PayloadStore) : PayloadStorage → Prop
  | .segment name _ => ∃ id < store.state.nextSegmentId, name = segmentName id
  | .dedicatedFile name => name ∈ store.minted

/-- The payloads under capture, and those the log carries. -/
def holders (store : PayloadStore) (carried : List (Nat × PayloadRef)) : List PayloadRef :=
  store.captures.map Capture.payload ++ carried.map Prod.snd

/-- Every held file was handed out by the store, and a dedicated file has one holder. -/
structure Named (store : PayloadStore) (carried : List (Nat × PayloadRef)) : Prop where
  known : ∀ payload ∈ store.holders carried, store.Knows payload.storage
  current : ∀ segment, store.state.currentSegment = some segment →
    ∃ id < store.state.nextSegmentId, segment.name = segmentName id
  minted : ∀ name ∈ store.minted, ∃ uuid, name = dedicatedName uuid
  unique : ((store.holders carried).filterMap fun payload => payload.storage.dedicated?).Nodup

variable {store next : PayloadStore} {carried : List (Nat × PayloadRef)}

theorem Knows.mono {s : PayloadStorage} (h : store.Knows s)
    (hs : store.state.nextSegmentId ≤ next.state.nextSegmentId)
    (hm : store.minted ⊆ next.minted) : next.Knows s := by
  cases s with
  | segment =>
    obtain ⟨id, hid, hn⟩ := h
    exact ⟨id, hid.trans_le hs, hn⟩
  | dedicatedFile => exact hm h

/-- Holders may come and go, as long as a new one has a file of its own. -/
theorem Named.of_holders {c' : List (Nat × PayloadRef)} (h : store.Named carried)
    (kept a : List PayloadRef)
    (hse : store.state.nextSegmentId ≤ next.state.nextSegmentId)
    (hm : store.minted ⊆ next.minted)
    (hn : ∀ name ∈ next.minted, ∃ uuid, name = dedicatedName uuid)
    (hc : ∀ segment, next.state.currentSegment = some segment →
      ∃ id < next.state.nextSegmentId, segment.name = segmentName id)
    (hk : kept.Sublist (store.holders carried))
    (hpe : (next.holders c').Perm (a ++ kept))
    (ha : ∀ pa ∈ a, next.Knows pa.storage)
    (hf : (a.filterMap fun pa => pa.storage.dedicated?).Nodup)
    (hap : ∀ pa ∈ a, ∀ name, pa.storage.dedicated? = some name →
      name ∉ store.minted) : next.Named c' := by
  refine ⟨fun pa hp => ?_, hc, hn, ?_⟩
  · rcases List.mem_append.1 (hpe.mem_iff.1 hp) with hne | hold
    · exact ha pa hne
    · exact (h.known pa (hk.subset hold)).mono hse hm
  · refine ((hpe.filterMap _).nodup_iff).2 ?_
    rw [filterMap_append]
    refine hf.append (h.unique.sublist (hk.filterMap _)) fun name hne hold => ?_
    obtain ⟨pa, hp, hna⟩ := List.mem_filterMap.1 hne
    obtain ⟨o, ho, hn'⟩ := List.mem_filterMap.1 hold
    refine hap pa hp name hna ?_
    have hkn := h.known o (hk.subset ho)
    cases hs : o.storage with
    | segment => rw [hs] at hn'; cases hn'
    | dedicatedFile =>
      rw [hs] at hn' hkn
      cases hn'
      exact hkn

variable {ind : Nat}

/-- A step that replaces a capture keeps its payload. -/
theorem map_payload_set {l : List Capture} {old new : Capture}
    (hold : l[ind]? = some old) (hs : new.payload = old.payload) :
    (l.set ind new).map Capture.payload = l.map Capture.payload := by
  refine ext_getElem? fun i => ?_
  rw [getElem?_map, getElem?_map, getElem?_set]
  split_ifs with heq hlt
  · subst heq
    rw [hold]
    exact congrArg some hs
  · subst heq
    rw [getElem?_eq_none (Nat.not_lt.1 hlt)]
  · rfl

variable {pa : PayloadRef}

theorem holders_append
    (h : next.captures.map Capture.payload = store.captures.map Capture.payload ++ [pa]) :
    (next.holders carried).Perm ([pa] ++ store.holders carried) := by
  rw [holders, h, holders, ← append_assoc]
  exact List.perm_append_comm.append_right _

theorem Named.captures {ac : CaptureAction} (h : store.Named carried)
    (hst : store.Captures ac next) : next.Named carried := by
  -- a capture that moves on, or is dropped, brings no holder
  have hsa : next.holders carried = store.holders carried →
      next.state.nextSegmentId = store.state.nextSegmentId → next.minted = store.minted →
      next.state.currentSegment = store.state.currentSegment → next.Named carried := by
    intro hh hs hm hcu
    exact h.of_holders (store.holders carried) [] hs.ge hm.ge (hm ▸ h.minted)
      (by rw [hcu, hs]; exact h.current) (List.Sublist.refl _) (.of_eq hh)
      (by simp) (by simp) (by simp)
  have hd : ∀ ind, next.captures = store.captures.eraseIdx ind →
      next.state.nextSegmentId = store.state.nextSegmentId → next.minted = store.minted →
      next.state.currentSegment = store.state.currentSegment → next.Named carried := by
    intro ind hca hs hm hcu
    refine h.of_holders (next.holders carried) [] hs.ge hm.ge (hm ▸ h.minted)
      (by rw [hcu, hs]; exact h.current) ?_ (.refl _) (by simp) (by simp) (by simp)
    rw [holders, hca]
    exact ((eraseIdx_sublist _ _).map _).append_right _
  cases hst with
  | pack _ _ l ch s _ hse =>
    obtain ⟨id, hid, hn⟩ := h.current s hse
    refine h.of_holders (store.holders carried) [packedRef s l ch] le_rfl
      subset_rfl h.minted (fun a ha => ?_) (List.Sublist.refl _) (holders_append map_append)
      (fun pa hp => ?_) (nodup_nil) (fun pa hp name hde => ?_)
    · cases ha
      exact ⟨id, hid, hn⟩
    · obtain rfl := List.mem_singleton.1 hp
      exact ⟨id, hid, hn⟩
    · obtain rfl := List.mem_singleton.1 hp
      cases hde
  | packNew _ _ l ch =>
    refine h.of_holders (store.holders carried)
      [packedRef ⟨segmentName store.state.nextSegmentId, 0⟩ l ch] (Nat.le_succ _)
      subset_rfl h.minted (fun a ha => ?_) (List.Sublist.refl _) (holders_append map_append)
      (fun pa hp => ?_) (nodup_nil) (fun pa hp name hde => ?_)
    · cases ha
      exact ⟨_, Nat.lt_succ_self _, rfl⟩
    · obtain rfl := List.mem_singleton.1 hp
      exact ⟨_, Nat.lt_succ_self _, rfl⟩
    · obtain rfl := List.mem_singleton.1 hp
      cases hde
  | mint _ _ uuid l ch _ hf =>
    refine h.of_holders (store.holders carried) [dedicatedRef uuid l ch] le_rfl
      (Finset.subset_insert _ _) (fun name hn => ?_) h.current (List.Sublist.refl _)
      (holders_append map_append) (fun pa hp => ?_) (nodup_singleton _)
      (fun pa hp name hde => ?_)
    · rcases Finset.mem_insert.1 hn with rfl | hn
      · exact ⟨uuid, rfl⟩
      · exact h.minted name hn
    · obtain rfl := List.mem_singleton.1 hp
      exact Finset.mem_insert_self _ _
    · obtain rfl := List.mem_singleton.1 hp
      cases hde
      exact hf
  | writeRange _ _ _ _ _ _ hc | writeFile _ _ _ _ _ hc | register _ _ _ _ hc =>
    exact hsa (congrArg (· ++ _) (map_payload_set hc (by rfl))) rfl rfl rfl
  | discardFile ind | discard ind => exact hd ind rfl rfl rfl rfl

variable {capture : Capture}

/-- A prepare takes the payload over from its capture. -/
theorem Named.prepareCapture {s : Nat} (h : store.Named carried)
    (hc : store.captures[ind]? = some capture) :
    ({ store with captures := store.captures.eraseIdx ind } : PayloadStore).Named
      (carried ++ [(s, capture.payload)]) := by
  obtain ⟨hlt, heq⟩ := List.getElem?_eq_some_iff.1 hc
  refine h.of_holders (store.holders carried) [] le_rfl subset_rfl h.minted h.current
    (List.Sublist.refl _) ?_ (by simp) (by simp) (by simp)
  have hm : (store.captures.eraseIdx ind ++ [capture]).Perm store.captures := by
    rw [← heq]
    exact List.perm_append_comm.trans (getElem_cons_eraseIdx_perm hlt)
  have hmap := hm.map Capture.payload
  rw [map_append] at hmap
  simp only [holders, map_append, nil_append, map_singleton]
  have hs : (carried.map Prod.snd ++ [capture.payload]).Perm
      ([capture.payload] ++ carried.map Prod.snd) := perm_append_comm
  refine (hs.append_left _).trans ?_
  rw [← append_assoc]
  exact hmap.append_right _

/-- What the names depend on. -/
theorem Named.of_same (h : store.Named carried) (hc : next.captures = store.captures)
    (hse : next.state.nextSegmentId = store.state.nextSegmentId)
    (hm : next.minted = store.minted)
    (hcu : next.state.currentSegment = store.state.currentSegment ∨
      next.state.currentSegment = none) : next.Named carried := by
  refine h.of_holders (store.holders carried) [] hse.ge hm.ge (hm ▸ h.minted)
    (fun s hs => ?_) (List.Sublist.refl _) (.of_eq ?_) (by simp) (by simp) (by simp)
  · rw [hse]
    rcases hcu with hsa | hn
    · exact h.current s (hsa ▸ hs)
    · rw [hn] at hs
      cases hs
  · rw [holders, hc]
    rfl

/-- Two members of a list with one image under a function that is injective on it are equal. -/
theorem eq_of_nodup_filterMap {α β : Type} {f : α → Option β} {l : List α}
    (h : (l.filterMap f).Nodup) {a a' : α} {b : β} (ha : a ∈ l) (ha' : a' ∈ l) (hb : f a = some b)
    (hb' : f a' = some b) : a = a' := by
  induction l with
  | nil => cases ha
  | cons head rest ih =>
    cases hh : f head with
    | none =>
      rw [filterMap_cons_none hh] at h
      have hne : ∀ x, f x = some b → x ∈ head :: rest → x ∈ rest := by
        intro x hx hmem
        rcases List.mem_cons.1 hmem with rfl | hmem
        · rw [hh] at hx
          cases hx
        · exact hmem
      exact ih h (hne a hb ha) (hne a' hb' ha')
    | some i =>
      rw [filterMap_cons_some hh, nodup_cons] at h
      have hmem : ∀ x ∈ rest, f x = some b → i ≠ b := by
        rintro x hx hxb rfl
        exact h.1 (List.mem_filterMap.2 ⟨x, hx, hxb⟩)
      rcases List.mem_cons.1 ha with rfl | hr <;> rcases List.mem_cons.1 ha' with rfl | hr'
      · rfl
      · exact absurd (Option.some.inj (hh.symm.trans hb)) (hmem a' hr' hb')
      · exact absurd (Option.some.inj (hh.symm.trans hb')) (hmem a hr hb)
      · exact ih h.2 hr hr'

theorem dedicated?_of_file {uuid : String} (hk : store.Knows pa.storage)
    (hf : pa.file = dedicatedName uuid) :
    pa.storage.dedicated? = some (dedicatedName uuid) := by
  unfold PayloadRef.file at hf
  cases hs : pa.storage with
  | segment =>
    rw [hs] at hk hf
    obtain ⟨id, -, hn⟩ := hk
    exact absurd (hn.symm.trans hf) (segmentName_ne_dedicatedName id uuid)
  | dedicatedFile =>
    rw [hs] at hf
    exact congrArg some hf

variable {name : String}

/-- The file of a dedicated capture is no other capture's file. -/
theorem Named.capture_unique (h : store.Named carried) {o : Capture}
    (hca : capture ∈ store.captures) (ho : o ∈ store.captures)
    (hs : capture.payload.storage = .dedicatedFile name)
    (hf : o.payload.file = name) : capture = o := by
  have hmem : ∀ c ∈ store.captures, c.payload ∈ store.holders carried := fun c hc =>
    mem_append_left _ (mem_map_of_mem hc)
  have hm : name ∈ store.minted := by
    have := h.known _ (hmem capture hca)
    rwa [hs] at this
  obtain ⟨_, rfl⟩ := h.minted name hm
  have hu := h.unique
  rw [holders, filterMap_append, filterMap_map] at hu
  refine eq_of_nodup_filterMap hu.of_append_left hca ho ?_
    (dedicated?_of_file (h.known _ (hmem o ho)) hf)
  rw [Function.comp_apply, hs]
  rfl

/-- The file of a dedicated capture is no file of the captures that are left without it. -/
theorem Named.erased_ne (h : store.Named carried) {o : Capture} (hca : store.captures[ind]? = some capture)
    (hs : capture.payload.storage = .dedicatedFile name)
    (ho : o ∈ store.captures.eraseIdx ind) : o.payload.file ≠ name := by
  intro hf
  obtain ⟨hlt, heq⟩ := List.getElem?_eq_some_iff.1 hca
  have hh : ∀ c ∈ store.captures, store.Knows c.payload.storage := fun c hc =>
    h.known _ (mem_append_left _ (mem_map_of_mem hc))
  have hm : name ∈ store.minted := by
    have hk := hh capture (mem_of_getElem? hca)
    rwa [hs] at hk
  obtain ⟨uuid, rfl⟩ := h.minted name hm
  have hp : (capture :: store.captures.eraseIdx ind).Perm store.captures := by
    rw [← heq]
    exact getElem_cons_eraseIdx_perm hlt
  have hu := h.unique
  rw [holders, filterMap_append, filterMap_map] at hu
  have hn := ((hp.filterMap _).nodup_iff).2 hu.of_append_left
  have how : ((fun pa : PayloadRef => pa.storage.dedicated?) ∘ Capture.payload) capture =
      some (dedicatedName uuid) := by
    rw [Function.comp_apply, hs]
    rfl
  rw [filterMap_cons_some how] at hn
  refine (List.nodup_cons.1 hn).1 (List.mem_filterMap.2 ⟨o, ho, ?_⟩)
  exact dedicated?_of_file (hh o (mem_of_mem_eraseIdx ho)) hf

/-- The file of a dedicated capture is not the file of a payload the log carries. -/
theorem Named.carried_ne (h : store.Named carried)
    {s : Nat} (hc : capture ∈ store.captures)
    (hs : capture.payload.storage = .dedicatedFile name)
    (hp : (s, pa) ∈ carried) : pa.file ≠ name := by
  intro hf
  have hm : name ∈ store.minted := by
    have := h.known _ (mem_append_left _ (mem_map_of_mem hc))
    rwa [hs] at this
  obtain ⟨_, rfl⟩ := h.minted name hm
  have hmem : pa ∈ carried.map Prod.snd := List.mem_map.2 ⟨_, hp, rfl⟩
  have hu := h.unique
  rw [holders, filterMap_append] at hu
  refine (List.nodup_append.1 hu).2.2 _ (List.mem_filterMap.2
    ⟨capture.payload, mem_map_of_mem hc, ?_⟩) _ (List.mem_filterMap.2
    ⟨pa, hmem, dedicated?_of_file (h.known _ (mem_append_right _ hmem)) hf⟩) rfl
  rw [hs]
  rfl

/-- A new segment is nobody's file. -/
theorem Named.segment_ne (h : store.Named carried)
    (hp : pa ∈ store.holders carried) :
    pa.file ≠ segmentName store.state.nextSegmentId := by
  intro hf
  have hk := h.known pa hp
  unfold PayloadRef.file at hf
  cases hs : pa.storage with
  | segment =>
    rw [hs] at hk hf
    obtain ⟨_, hid, hn⟩ := hk
    exact absurd (segmentName_injective (hn.symm.trans hf)) hid.ne
  | dedicatedFile name =>
    rw [hs] at hk hf
    obtain ⟨uuid, hn⟩ := h.minted name hk
    exact segmentName_ne_dedicatedName _ uuid (hf.symm.trans hn)

end PayloadStore

namespace MountWal

variable {fr : Framing} {wal next : MountWal}

/-- The payload files of the system are named apart. -/
def Named (wal : MountWal) : Prop := wal.payloads.Named wal.log.view.carried

theorem carried_fresh (epoch : String) : (fresh fr epoch).log.view.carried = [] := by
  unfold LogView.carried
  rw [show (fresh fr epoch).log.view.events = [] from
    LogView.events_appended fr (WalLog.described fr epoch).view _]
  rfl

theorem named_fresh (e : String) : (fresh fr e).Named := by
  unfold Named
  rw [carried_fresh]
  refine ⟨fun _ hp => ?_, fun _ hs => ?_, fun _ hn => ?_, nodup_nil⟩
  · cases hp
  · cases hs
  · cases hn

/-- Every step keeps the payload files apart. -/
theorem Named.steps {a : WalAction} (h : wal.Named) (hw : wal.Consistent fr)
    (hs : wal.Steps fr a next) : next.Named := by
  unfold Named
  rcases hs.carried hw with ⟨hne, hsa⟩ | ⟨ind, capture, rfl, hc, hm⟩
  · rw [hsa]
    cases hs with
    | capture _ hc => exact PayloadStore.Named.captures h hc
    | prepareCapture ind => exact absurd rfl (hne ind)
    | sync _ hsy =>
      cases hsy with
      | syncPayload _ _ _ _ hf =>
        unfold PayloadStore.syncFile at hf
        split_ifs at hf
        cases hf
        exact h.of_same rfl rfl rfl (.inl rfl)
      | syncThrough | syncLocal | answer | begin | syncLog | finish | failLog => exact h
      | _ => exact h.of_same rfl rfl rfl (.inl rfl)
    | sealSegment => exact h.of_same rfl rfl rfl (.inr rfl)
    | advance _ _ ha =>
      cases ha with
      | checkpointSeal => exact h.of_same rfl rfl rfl (.inr rfl)
      | reclaimed r => cases r <;> exact h.of_same rfl rfl rfl (.inl rfl)
      | mark c => cases c <;> exact h
      | _ => exact h
    | reclaimFile => exact h.of_same rfl rfl rfl (.inl rfl)
    | _ => exact h
  · rw [hm]
    cases hs with
    | prepareCapture => exact PayloadStore.Named.prepareCapture h hc
    | record _ hr => cases hr

end MountWal

end Chevalier.LocalView
