import Chevalier.LocalView.Wal.LogStep

/-!
# The first state of a mount's log

What opening an unused state directory leaves: one generation with its header, a checkpoint that
describes an empty index, and the record of that checkpoint. Every run starts here.

`consistent_of_run`: every state a run reaches is consistent.
-/

namespace Chevalier.LocalView

open Fold

/-- A framing whose records all take the same number of bytes. -/
def Framing.fixed (size : Nat) (hsize : 0 < size) : Framing := ⟨fun _ => size, fun _ => hsize⟩

/-- The header of a log's first generation. -/
def freshHeader (epoch : String) : WalRecord := .logHeader walFormatVersion epoch 0 1

/-- The log that opening an unused state directory creates, before its checkpoint. -/
def WalLog.fresh (framing : Framing) (epoch : String) : WalLog where
  append := { indexOf none (ScanState.start 1 []) epoch 0 0 ∅ ∅ with
    generationLen := framing.bytes (freshHeader epoch) }
  files := [⟨0, [freshHeader epoch], 0⟩]
  history := [⟨0, 0, freshHeader epoch⟩]

theorem openLog_empty (f : Framing) (ep : String) :
    openLog f StateDir.empty none ep =
      if maxRecordBytes < f.bytes (freshHeader ep) then
        .error ("mount WAL record of " ++ toString (f.bytes (freshHeader ep)) ++
          " bytes exceeds the " ++ toString maxRecordBytes ++ " byte limit")
      else .ok (WalLog.fresh f ep) := rfl

/-- The checkpoint a new log publishes. -/
def freshCheckpoint (framing : Framing) (epoch : String) : MountCheckpoint :=
  (WalLog.fresh framing epoch).checkpointNow 0

/-- The log of an unused state directory, with its first checkpoint described. -/
def WalLog.described (framing : Framing) (epoch : String) : WalLog :=
  { WalLog.fresh framing epoch with
    append := { (WalLog.fresh framing epoch).append with
      checkpointId := 1
      activeGenerations := {0}
      lastCheckpoint := some (freshCheckpoint framing epoch) } }

theorem freshCheckpoint_validate (f : Framing) (ep : String) :
    (freshCheckpoint f ep).validate =
      if ep = "" then .error "mount checkpoint has no ownership epoch" else .ok () := by
  rfl

theorem checkpointIndex_fresh (f : Framing) {ep : String} (he : ep ≠ "") :
    (WalLog.fresh f ep).checkpointIndex 0 =
      (WalLog.described f ep, .ok (freshCheckpoint f ep, none)) := by
  have hv : ((WalLog.fresh f ep).checkpointNow 0).validate = .ok () :=
    (freshCheckpoint_validate f ep).trans (if_neg he)
  unfold WalLog.checkpointIndex
  simp only [hv]
  rfl

namespace MountWal

/-- The state after the first open. -/
def fresh (framing : Framing) (epoch : String) : MountWal where
  log := (WalLog.described framing epoch).appended framing (.checkpointed epoch 0 0)
  payloads := {
    state := ⟨0, none, ⟨∅, false⟩, ∅⟩
    disk := ⟨∅, ∅, ∅, ∅⟩
    captures := []
    minted := ∅ }
  checkpoint := some (freshCheckpoint framing epoch)
  previousCheckpoint := none
  sync := ⟨0, 0⟩
  round := none
  maintenance := none
  waiting := []
  answered := []
  acknowledging := []
  released := []
  syncedBytes := fun generation =>
    if generation = 0 then framing.bytes (freshHeader epoch) else 0
  syncedEntries := {0}

variable {framing f : Framing} {epoch ep : String} {wal : MountWal}

/-- The records a new log begins with fit, and its epoch is not empty. -/
structure Startable (framing : Framing) (epoch : String) : Prop where
  epoch_ne : epoch ≠ ""
  header : framing.bytes (freshHeader epoch) ≤ maxRecordBytes
  checkpointed : framing.bytes (.checkpointed epoch 0 0) ≤ maxRecordBytes

theorem create_eq_ok (h : create f ep = .ok wal) :
    Startable f ep ∧ wal = fresh f ep := by
  obtain ⟨⟨_, _⟩, ho, h⟩ := bind_eq_ok.1 h
  obtain ⟨_, hf, hp⟩ := bind_eq_ok.1 ho
  rw [openLog_empty] at hf
  split_ifs at hf with hh
  cases hf
  by_cases he : ep = ""
  · subst he
    cases hp
  · unfold openCheckpoint at hp
    have hi : (WalLog.fresh f ep).checkpointIndex
        (WalLog.fresh f ep).append.treeGeneration =
        (WalLog.described f ep, .ok (freshCheckpoint f ep, none)) :=
      checkpointIndex_fresh f he
    simp only [hi] at hp
    obtain ⟨_, hd, hp⟩ := bind_eq_ok.1 hp
    cases hd
    obtain ⟨_, hm, hp⟩ := bind_eq_ok.1 hp
    obtain ⟨hs, rfl⟩ := WalLog.appendFramed_eq_ok.1 hm
    obtain ⟨rfl, rfl⟩ := Prod.mk.inj (pure_eq_ok.1 hp)
    exact ⟨⟨he, Nat.not_lt.1 hh, hs⟩, (pure_eq_ok.1 h).symm⟩

theorem create_eq (h : Startable f ep) :
    create f ep = .ok (fresh f ep) := by
  have ho : openLog f StateDir.empty none ep = .ok (WalLog.fresh f ep) := by
    rw [openLog_empty, if_neg (Nat.not_lt.2 h.header)]
  have hi : (WalLog.fresh f ep).checkpointIndex
      (WalLog.fresh f ep).append.treeGeneration =
      (WalLog.described f ep, .ok (freshCheckpoint f ep, none)) :=
    checkpointIndex_fresh f h.epoch_ne
  have hm : (WalLog.described f ep).markCheckpoint f
      (freshCheckpoint f ep) (WalLog.fresh f ep).append.treeGeneration =
      .ok ((WalLog.described f ep).appended f (.checkpointed ep 0 0)) :=
    WalLog.appendFramed_eq_ok.2 ⟨h.checkpointed, rfl⟩
  unfold create openWal openCheckpoint
  simp only [ho, hi, bind, Except.bind, hm]
  rfl

theorem laid_fresh (h : Startable f ep) :
    Laid f (WalLog.described f ep).view (WalLog.described f ep).append.index := by
  refine ⟨⟨List.pairwise_singleton _ _, fun e he => ?_, fun e he => ?_, ?_,
    List.pairwise_singleton _ _, fun file hf _ => ?_, fun file hf hlt => ?_,
    fun file hf => ?_, ⟨_, List.mem_singleton_self _, rfl⟩⟩, ⟨?_, rfl, rfl, ?_, ?_, ?_⟩, rfl,
    fun r hr => ?_, List.Pairwise.nil, fun e he ev hev => ?_⟩
  · obtain rfl := List.mem_singleton.1 he
    exact Or.inr ⟨rfl, f.bytes_pos _⟩
  · obtain rfl := List.mem_singleton.1 he
    exact h.header
  · exact f.length_singleton _
  · obtain rfl := List.mem_singleton.1 hf
    rfl
  · obtain rfl := List.mem_singleton.1 hf
    exact absurd hlt (lt_irrefl _)
  · obtain rfl := List.mem_singleton.1 hf
    rfl
  · exact Nat.zero_lt_one
  · rintro s (hmem | hmem) <;> cases hmem
  · exact Finset.disjoint_empty_left _
  · intro r hr
    cases hr
  · cases hr
  · obtain rfl := List.mem_singleton.1 he
    cases hev

theorem consistent_fresh (h : Startable f ep) : (fresh f ep).Consistent f := by
  refine ⟨?_, fun ca hc => ?_, (nofun), fun c hl => ?_⟩
  · exact (laid_fresh h).append h.checkpointed (.checkpointed 0 0)
  · cases hc
  · cases hl
    exact le_rfl

end MountWal

end Chevalier.LocalView
