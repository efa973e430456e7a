import Chevalier.LocalView.Wal.Reclaim

/-!
# The names of packed segments

The counter behind the names of packed segments is not stored. Each process that opens a state
directory rebuilds it from the names in the payload directory, as the successor of the greatest
number there. `Life` is a state directory over all of its processes: the log that is open on it, and
the segments that were begun so far.

* `segments_nodup`: no name is given to two segments, where a process is started only while the
  newest segment has its file.
-/

namespace Chevalier.LocalView

open List

/-! ## The counter after a restart -/

/-- A decimal number; a sign may stand before it. -/
def parseDecimal (raw : List Char) : Option Nat :=
  let digits := if raw.head? = some '+' then raw.tail else raw
  if digits ≠ [] ∧ digits.all Char.isDigit then
    some (Nat.ofDigits 10 (digits.map fun char => char.toNat - 48).reverse)
  else none

def segmentId (name : String) : Option Nat := do
  let body ← name.toList.dropPrefix? "segment-".toList
  let raw ← body.dropSuffix? ".bin".toList
  parseDecimal raw

def recoverNextSegmentId (files : Finset String) : Nat :=
  files.sup fun name => (segmentId name).elim 0 (· + 1)

theorem parseDecimal_digits {l : List Nat} (hn : l ≠ []) (hl : ∀ d ∈ l, d < 10) :
    parseDecimal (l.reverse.map Nat.digitChar) = some (Nat.ofDigits 10 l) := by
  have hd : ∀ d < 10, (Nat.digitChar d).isDigit = true ∧ Nat.digitChar d ≠ '+' := by decide
  have hh : (l.reverse.map Nat.digitChar).head? ≠ some '+' := by
    intro h
    obtain ⟨d, hm, he⟩ := mem_map.1 (mem_of_mem_head? h)
    exact (hd d (hl d (mem_reverse.1 hm))).2 he
  have ha : (l.reverse.map Nat.digitChar).all Char.isDigit = true := by
    rw [all_map, all_eq_true]
    exact fun d hm => (hd d (hl d (mem_reverse.1 hm))).1
  simp only [parseDecimal, if_neg hh]
  rw [if_pos ⟨by simpa using hn, ha⟩, map_digitChar fun d hm => hl d (mem_reverse.1 hm),
    reverse_reverse]

theorem segmentId_segmentName (id : Nat) : segmentId (segmentName id) = some id := by
  have hn : (segmentName id).toList = "segment-".toList ++ ((paddedDecimal id).toList ++
      ".bin".toList) := by
    simp [segmentName]
  have hl : Nat.digits 10 id ++ replicate (20 - (Nat.digits 10 id).length) 0 ≠ [] := by
    intro h
    obtain ⟨hd, hr⟩ := append_eq_nil_iff.1 h
    rw [hd] at hr
    cases hr
  have hr : ((paddedDecimal id).toList ++ ".bin".toList).dropSuffix? ".bin".toList =
      some (paddedDecimal id).toList := dropSuffix?_eq_some_iff.2 ⟨_, rfl, BEq.rfl⟩
  simp only [segmentId, hn, dropPrefix?_append_of_beq _ BEq.rfl, hr, bind, Option.bind]
  rw [paddedDecimal, String.toList_ofList]
  refine (parseDecimal_digits hl fun d hd => ?_).trans (congrArg some (ofDigits_padded _ _))
  obtain hd | hd := mem_append.1 hd
  · exact Nat.digits_lt_base (by omega) hd
  · rw [eq_of_mem_replicate hd]
    omega

theorem lt_recoverNextSegmentId {files : Finset String} {id : Nat} (h : segmentName id ∈ files) :
    id < recoverNextSegmentId files :=
  Finset.lt_sup_iff.2 ⟨_, h, by simp [segmentId_segmentName]⟩

/-! ## A state directory over its life -/

namespace MountWal

/-- The next process opens the state directory. -/
def reopen (framing : Framing) (wal : MountWal) (expectedEpoch : Option String)
    (minted : String) : Except String MountWal := do
  let (log, dir) ← openWal framing wal.dir expectedEpoch minted
  return { wal with
    log := log
    payloads := { wal.payloads with
      state := ⟨recoverNextSegmentId wal.payloads.disk.files, none, ⟨∅, false⟩, ∅⟩
      captures := [] }
    checkpoint := dir.checkpoint
    previousCheckpoint := dir.previousCheckpoint
    sync := ⟨log.append.nextSequence - 1, 0⟩
    round := none
    maintenance := none
    waiting := []
    acknowledging := []
    released := [] }

/-- The name of the segment that a step began, if it began one: the counter has moved. -/
def begun (wal next : MountWal) : List String :=
  if next.payloads.state.nextSegmentId = wal.payloads.state.nextSegmentId then []
  else (next.payloads.state.currentSegment.map ActiveSegment.name).toList

/-- A step begins no segment, or the one whose number is next. -/
theorem begun_cases {framing : Framing} {wal next : MountWal} {action : WalAction}
    (h : wal.Steps framing action next) :
    (next.payloads.state.nextSegmentId = wal.payloads.state.nextSegmentId ∧ begun wal next = []) ∨
    (next.payloads.state.nextSegmentId = wal.payloads.state.nextSegmentId + 1 ∧
      begun wal next = [segmentName wal.payloads.state.nextSegmentId]) := by
  rw [begun]
  obtain ⟨capture, -, hc⟩ | hk := h.keeps
  · generalize next.payloads = payloads at hc ⊢
    cases hc with
    | packNew => exact .inr ⟨rfl, if_neg (Nat.succ_ne_self _)⟩
    | _ => exact .inl ⟨rfl, if_pos rfl⟩
  · exact .inl ⟨hk.segments, if_pos hk.segments⟩

end MountWal

/-- A state directory: the log that is open on it, and the names that were given to its segments, in
the order in which they were begun. -/
structure Life where
  wal : MountWal
  segments : List String

/-- A step of a caller of the log that is open, or the next process. -/
inductive LifeAction
  | step (action : WalAction)
  | start (expectedEpoch : Option String) (minted : String)

namespace Life

def exec (framing : Framing) (action : LifeAction) (life : Life) : Option Life :=
  match action with
  | .step action => (life.wal.exec framing action).map fun next =>
      ⟨next, life.segments ++ life.wal.begun next⟩
  | .start expectedEpoch minted =>
    (life.wal.reopen framing expectedEpoch minted).toOption.map fun next =>
      { life with wal := next }

/-- A process is started only while the newest segment has its file. -/
def KeepsNewest (action : LifeAction) (life : Life) : Prop :=
  match action with
  | .step _ => True
  | .start _ _ => ∀ name ∈ life.segments.getLast?, name ∈ life.wal.payloads.disk.files

instance (action : LifeAction) (life : Life) : Decidable (KeepsNewest action life) :=
  match action with
  | .step _ => inferInstanceAs (Decidable True)
  | .start _ _ => inferInstanceAs (Decidable (∀ _ ∈ _, _))

/-- The segments have the names of ascending numbers below the counter. -/
def Numbered (life : Life) : Prop :=
  ∃ ids : List Nat, life.segments = ids.map segmentName ∧ ids.Pairwise (· < ·) ∧
    ∀ id ∈ ids, id < life.wal.payloads.state.nextSegmentId

variable {framing : Framing} {life : Life}

theorem Numbered.step {action : WalAction} {wal : MountWal} (h : life.Numbered)
    (hs : life.wal.Steps framing action wal) :
    Numbered ⟨wal, life.segments ++ life.wal.begun wal⟩ := by
  obtain ⟨ids, he, hp, hb⟩ := h
  obtain ⟨hn, hl⟩ | ⟨hn, hl⟩ := MountWal.begun_cases hs
  · exact ⟨ids, by rw [hl, append_nil, he], hp, fun id hm => (hb id hm).trans_eq hn.symm⟩
  · refine ⟨ids ++ [life.wal.payloads.state.nextSegmentId], by simp [hl, he], ?_, fun id hm => ?_⟩
    · exact pairwise_append.2 ⟨hp, pairwise_singleton _ _, fun id hm m hn =>
        (hb id hm).trans_eq (mem_singleton.1 hn).symm⟩
    · show id < wal.payloads.state.nextSegmentId
      rw [hn]
      obtain hm | rfl := mem_concat.1 hm
      · exact (hb id hm).trans (Nat.lt_succ_self _)
      · exact Nat.lt_succ_self _

theorem Numbered.start {expected : Option String} {minted : String} {wal : MountWal}
    (h : life.Numbered) (hn : KeepsNewest (.start expected minted) life)
    (hr : life.wal.reopen framing expected minted = .ok wal) :
    Numbered { life with wal := wal } := by
  obtain ⟨ids, he, hp, -⟩ := h
  obtain ⟨_, -, rfl⟩ := Fold.bind_pure_eq_ok.1 hr
  refine ⟨ids, he, hp, fun id hm => ?_⟩
  -- the newest segment has the greatest number, and its file is there
  have hne := ne_nil_of_mem hm
  have hf := lt_recoverNextSegmentId (hn (segmentName (ids.getLast hne))
    (by rw [he, getLast?_map, getLast?_eq_getLast_of_ne_nil hne]; rfl))
  obtain hm | heq := mem_concat.1 (dropLast_append_getLast hne ▸ hm)
  · rw [← dropLast_append_getLast hne] at hp
    exact ((pairwise_append.1 hp).2.2 id hm _ (mem_singleton_self _)).trans hf
  · exact heq ▸ hf

/-- **No name is given to two segments** of a state directory, whatever is captured, sealed,
reclaimed and opened again, where each process is started while the newest segment has its file. -/
theorem segments_nodup {initial : MountWal} {actions : List LifeAction}
    (hrun : Schedule.run (Schedule.guarded KeepsNewest (exec framing)) actions ⟨initial, []⟩ =
      some life) : life.segments.Nodup := by
  obtain ⟨ids, he, hp, -⟩ : life.Numbered := by
    refine Schedule.run_invariant (fun action s t hs ht => ?_) hrun ⟨[], rfl, .nil, nofun⟩
    obtain ⟨hk, he⟩ := Schedule.guarded_eq_some.1 ht
    cases action with
    | step =>
      obtain ⟨wal, hw, rfl⟩ := Option.map_eq_some_iff.1 he
      exact hs.step (MountWal.steps_of_exec hw)
    | start =>
      obtain ⟨wal, hw, rfl⟩ := Option.map_eq_some_iff.1 he
      exact hs.start hk (Fold.toOption_eq_some.1 hw)
  rw [he]
  exact List.Nodup.map segmentName_injective (hp.imp Nat.ne_of_lt)

open MountWal

/-- The next process begins a segment. -/
def restarted : List LifeAction :=
  [.start none "other", .step (.capture (.reserveSegment otherWrite otherWriteImage 4 "60303ae2"))]

/-- Two processes, with a segment each. -/
theorem segments_nodup_restart : ∃ initial life, create smallFrames "epoch" = .ok initial ∧
    Schedule.run (Schedule.guarded KeepsNewest (exec smallFrames)) (givenUp.map .step ++ restarted)
      ⟨initial, []⟩ = some life ∧ life.segments.length = 2 ∧ life.segments.Nodup := by
  have hrun : (Schedule.run (Schedule.guarded KeepsNewest (exec smallFrames))
      (givenUp.map .step ++ restarted) ⟨fresh smallFrames "epoch", []⟩).any
        (fun life => life.segments.length = 2) = true := by decide +kernel
  obtain ⟨life, hl, hs⟩ := Schedule.exists_of_run_any hrun
  exact ⟨_, life, create_eq startable_smallFrames, hl, of_decide_eq_true hs, segments_nodup hl⟩

-- The only segment is given up and deleted, and the next process gives its name again.
example : (Schedule.run (exec smallFrames) ((givenUp ++ compacted).map .step ++ restarted)
    ⟨fresh smallFrames "epoch", []⟩).any
      (fun life => life.segments = [segmentName 0, segmentName 0]) = true := by decide +kernel

end Life

end Chevalier.LocalView
