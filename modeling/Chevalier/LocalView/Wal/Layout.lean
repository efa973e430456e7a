import Chevalier.LocalView.Wal.Anchor
import Chevalier.LocalView.Wal.Steps

/-!
# The log on disk

Where the records of a log are: the history is in the order of generations and offsets, every
generation's file holds exactly the records appended to it, and a file that a rotation has created
but not yet switched to holds nothing but its header. `Stored` is that invariant and the lemmas after
it show what appending, rotating and deleting do to it.

`LogView.entriesFrom` are the records from a point of the log on, the ones a replay reads.
-/

namespace Chevalier.LocalView

open List

/-- The part of a log that says where its records are. -/
structure LogView where
  epoch : String
  generation : Nat
  generationLen : Nat
  files : List LogFile
  history : List LogEntry

/-- The part of a log that says where its records are. -/
def WalLog.view (log : WalLog) : LogView where
  epoch := log.append.epoch
  generation := log.append.generation
  generationLen := log.append.generationLen
  files := log.files
  history := log.history

def LogEntry.Before (entry : LogEntry) (point : Nat × Nat) : Prop :=
  entry.generation < point.1 ∨ entry.generation = point.1 ∧ entry.offset < point.2

instance (entry : LogEntry) (point : Nat × Nat) : Decidable (entry.Before point) :=
  inferInstanceAs (Decidable (_ ∨ _))

namespace LogView

variable (framing : Framing) (view : LogView)

def entriesFrom (point : Nat × Nat) : List LogEntry :=
  view.history.filter fun entry => ¬ entry.Before point

def entriesOf (generation : Nat) : List LogEntry :=
  view.history.filter fun entry => entry.generation = generation

/-- The bytes of one generation. -/
def lengthOf (generation : Nat) : Nat :=
  framing.length ((view.entriesOf generation).map LogEntry.record)

/-- The point is the start of a record, or the end of its generation. -/
def Boundary (point : Nat × Nat) : Prop :=
  (∃ entry ∈ view.history, entry.generation = point.1 ∧ entry.offset = point.2) ∨
    point.2 = view.lengthOf framing point.1

def appended (record : WalRecord) : LogView :=
  { view with
    generationLen := view.generationLen + framing.bytes record
    files := view.files.map fun file =>
      if file.generation = view.generation then { file with records := file.records ++ [record] }
      else file
    history := view.history ++ [⟨view.generation, view.generationLen, record⟩] }

def header (generation firstSequence : Nat) : WalRecord :=
  .logHeader walFormatVersion view.epoch generation firstSequence

def stagedNext (firstSequence : Nat) : LogView :=
  { view with files := view.files ++
    [⟨view.generation + 1, [view.header (view.generation + 1) firstSequence], 0⟩] }

def nextRecords : List WalRecord :=
  (view.files.filter (·.generation = view.generation + 1)).flatMap LogFile.records

def swapped : LogView :=
  { view with
    generation := view.generation + 1
    generationLen := framing.length view.nextRecords
    history := view.history ++ framing.entries (view.generation + 1) 0 view.nextRecords }

/-- The log without the file of a generation. -/
def removed (generation : Nat) : LogView :=
  { view with files := view.files.filter (·.generation ≠ generation) }

/-- Where the records of the log are. -/
structure Stored : Prop where
  sorted : view.history.Pairwise fun a b => a.Before (b.generation, b.offset)
  behind : ∀ entry ∈ view.history, entry.Before (view.generation, view.generationLen)
  small : ∀ entry ∈ view.history, framing.bytes entry.record ≤ maxRecordBytes
  length_eq : view.lengthOf framing view.generation = view.generationLen
  ascending : view.files.Pairwise fun a b => a.generation < b.generation
  contents : ∀ file ∈ view.files, file.generation ≤ view.generation →
    framing.entries file.generation 0 file.records = view.entriesOf file.generation
  staged : ∀ file ∈ view.files, view.generation < file.generation →
    file.generation = view.generation + 1 ∧
      ∃ firstSequence, file.records = [view.header file.generation firstSequence] ∧
        framing.bytes (view.header file.generation firstSequence) ≤ maxRecordBytes
  untorn : ∀ file ∈ view.files, file.torn = 0
  active : ∃ file ∈ view.files, file.generation = view.generation

end LogView

/-! ## Offsets -/

namespace Framing

variable (f : Framing)

@[simp] theorem length_nil : f.length [] = 0 := rfl

@[simp] theorem length_append (l l' : List WalRecord) :
    f.length (l ++ l') = f.length l + f.length l' := by
  simp [length]

@[simp] theorem length_singleton (r : WalRecord) :
    f.length [r] = f.bytes r := by
  simp [length]

theorem entries_append (g o : Nat) (l l' : List WalRecord) :
    f.entries g o (l ++ l') = f.entries g o l ++ f.entries g (o + f.length l) l' := by
  induction l generalizing o with
  | nil => simp [entries]
  | cons _ _ ih =>
    rw [cons_append, entries, ih, entries, cons_append]
    simp [length, Nat.add_assoc]

theorem entries_map_record (g o : Nat) (l : List WalRecord) :
    (f.entries g o l).map LogEntry.record = l := by
  induction l generalizing o with
  | nil => rfl
  | cons _ _ ih => rw [entries, map_cons, ih]

theorem mem_entries {g o : Nat} {l : List WalRecord} {e : LogEntry}
    (h : e ∈ f.entries g o l) :
    e.generation = g ∧ o ≤ e.offset ∧ e.offset + f.bytes e.record ≤ o + f.length l := by
  induction l generalizing o with
  | nil => cases h
  | cons _ _ ih =>
    rcases List.mem_cons.1 h with rfl | h
    · exact ⟨rfl, le_rfl, by simp [length]⟩
    · obtain ⟨hg, _, hh⟩ := ih h
      refine ⟨hg, by omega, hh.trans ?_⟩
      simp [length, Nat.add_assoc]

end Framing

namespace LogView

variable {f : Framing} {view : LogView}

theorem entriesOf_appended (r : WalRecord) (g : Nat) :
    (view.appended f r).entriesOf g = view.entriesOf g ++
      if view.generation = g then [⟨view.generation, view.generationLen, r⟩]
      else [] := by
  unfold entriesOf appended
  simp only [filter_append]
  congr 1
  by_cases h : view.generation = g <;> simp [h]

theorem lengthOf_appended (r : WalRecord) (g : Nat) :
    (view.appended f r).lengthOf f g =
      view.lengthOf f g + if view.generation = g then f.bytes r else 0 := by
  unfold lengthOf
  rw [entriesOf_appended, map_append, Framing.length_append]
  by_cases h : view.generation = g <;> simp [h]

theorem entriesOf_swapped_of_le {g : Nat} (hle : g ≤ view.generation) :
    (view.swapped f).entriesOf g = view.entriesOf g := by
  have hn : (f.entries (view.generation + 1) 0 view.nextRecords).filter
      (·.generation = g) = [] := by
    refine List.filter_eq_nil_iff.2 fun e he => ?_
    have := (f.mem_entries he).1
    simp only [decide_eq_true_eq]
    omega
  unfold entriesOf swapped
  rw [filter_append, hn, append_nil]

namespace Stored

variable (h : view.Stored f)
include h

theorem generation_le {e : LogEntry} (he : e ∈ view.history) :
    e.generation ≤ view.generation := by
  rcases h.behind e he with hlt | ⟨heq, -⟩
  · exact hlt.le
  · exact heq.le

/-- A file holds the bytes of its generation. -/
theorem length_file {file : LogFile} (hf : file ∈ view.files)
    (hle : file.generation ≤ view.generation) :
    f.length file.records = view.lengthOf f file.generation := by
  rw [lengthOf, ← h.contents file hf hle, Framing.entries_map_record]

/-- Appending a record keeps the layout. -/
theorem appended {r : WalRecord} (hs : f.bytes r ≤ maxRecordBytes) :
    (view.appended f r).Stored f := by
  have hg : ∀ file : LogFile, (if file.generation = view.generation then
      { file with records := file.records ++ [r] } else file).generation = file.generation := by
    intro file
    split_ifs <;> rfl
  refine ⟨?_, ?_, ?_, ?_, ?_, ?_, ?_, ?_, ?_⟩
  · refine List.pairwise_append.2 ⟨h.sorted, pairwise_singleton _ _, fun a ha b hb => ?_⟩
    obtain rfl := List.mem_singleton.1 hb
    exact h.behind a ha
  · intro e he
    rcases mem_concat.1 he with hold | rfl
    · rcases h.behind e hold with hlt | ⟨heq, hlt⟩
      · exact .inl hlt
      · exact .inr ⟨heq, Nat.lt_add_right _ hlt⟩
    · exact .inr ⟨rfl, Nat.lt_add_of_pos_right (f.bytes_pos r)⟩
  · intro e he
    rcases mem_concat.1 he with hold | rfl
    · exact h.small e hold
    · exact hs
  · refine (lengthOf_appended r view.generation).trans ?_
    rw [if_pos rfl, h.length_eq]
    rfl
  · refine List.pairwise_map.2 (h.ascending.imp fun hlt => ?_)
    rwa [hg, hg]
  · intro file hf hle
    obtain ⟨old, hold, rfl⟩ := List.mem_map.1 hf
    rw [hg] at hle
    rw [hg, entriesOf_appended, ← h.contents old hold hle]
    split_ifs with heq he'
    · rw [Framing.entries_append, Nat.zero_add, h.length_file hold hle, heq, h.length_eq]
      rfl
    · exact absurd heq.symm he'
    · rename_i he'
      exact absurd he'.symm heq
    · rw [append_nil]
  · intro file hf hlt
    obtain ⟨old, hold, rfl⟩ := List.mem_map.1 hf
    rw [hg] at hlt ⊢
    obtain ⟨hn, hr⟩ := h.staged old hold hlt
    have ho : ¬ old.generation = view.generation := Nat.ne_of_gt hlt
    refine ⟨hn, ?_⟩
    rw [if_neg ho]
    exact hr
  · intro file hf
    obtain ⟨old, hold, rfl⟩ := List.mem_map.1 hf
    split_ifs <;> exact h.untorn old hold
  · obtain ⟨file, hf, heq⟩ := h.active
    exact ⟨_, mem_map_of_mem hf, (hg file).trans heq⟩

/-- Creating the next generation's file keeps the layout. -/
theorem stagedNext {fs : Nat}
    (hfr : view.generation + 1 ∉ view.files.map LogFile.generation)
    (hs : f.bytes (view.header (view.generation + 1) fs) ≤ maxRecordBytes) :
    (view.stagedNext fs).Stored f := by
  refine ⟨h.sorted, h.behind, h.small, h.length_eq, ?_, fun file hf hle => ?_,
    fun file hf hlt => ?_, fun file hf => ?_, ?_⟩
  · refine List.pairwise_append.2 ⟨h.ascending, pairwise_singleton _ _, fun a ha b hb => ?_⟩
    obtain rfl := List.mem_singleton.1 hb
    -- no file is beyond the next generation, and none is the next one
    by_contra hge
    have hg' : view.generation + 1 ≤ a.generation := Nat.not_lt.1 hge
    exact hfr (List.mem_map.2 ⟨a, ha, (h.staged a ha hg').1⟩)
  · rcases mem_concat.1 hf with hold | rfl
    · exact h.contents file hold hle
    · exact absurd hle (Nat.not_le.2 (Nat.lt_succ_self _))
  · rcases mem_concat.1 hf with hold | rfl
    · exact h.staged file hold hlt
    · exact ⟨rfl, fs, rfl, hs⟩
  · rcases mem_concat.1 hf with hold | rfl
    · exact h.untorn file hold
    · rfl
  · obtain ⟨file, hf, heq⟩ := h.active
    exact ⟨file, mem_append_left _ hf, heq⟩

/-- A generation has one file. -/
theorem filter_generation {file : LogFile} (hf : file ∈ view.files) :
    view.files.filter (·.generation = file.generation) = [file] := by
  obtain ⟨_, _, hs⟩ := append_of_mem hf
  have hp := h.ascending
  rw [hs, pairwise_append, pairwise_cons] at hp
  rw [hs, filter_append, filter_cons_of_pos (by simp), List.filter_eq_nil_iff.2,
    List.filter_eq_nil_iff.2, nil_append]
  · intro o hmem
    have := hp.2.1.1 o hmem
    simp only [decide_eq_true_eq]
    omega
  · intro o hmem
    have := hp.2.2 o hmem file mem_cons_self
    simp only [decide_eq_true_eq]
    omega

theorem nextRecords_of_mem {file : LogFile} (hf : file ∈ view.files)
    (heq : file.generation = view.generation + 1) : view.nextRecords = file.records := by
  rw [nextRecords, ← heq, h.filter_generation hf, flatMap_singleton]

/-- The next generation's file holds its header only. -/
theorem nextRecords_eq (hn : view.generation + 1 ∈ view.files.map LogFile.generation) :
    ∃ fs, view.nextRecords = [view.header (view.generation + 1) fs] ∧
      f.bytes (view.header (view.generation + 1) fs) ≤ maxRecordBytes := by
  obtain ⟨file, hf, heq⟩ := List.mem_map.1 hn
  obtain ⟨-, fs, hr, hs⟩ := h.staged file hf (by omega)
  rw [heq] at hr hs
  exact ⟨fs, (h.nextRecords_of_mem hf heq).trans hr, hs⟩

theorem entriesOf_swapped_next :
    (view.swapped f).entriesOf (view.generation + 1) =
      f.entries (view.generation + 1) 0 view.nextRecords := by
  unfold entriesOf swapped
  simp only [filter_append]
  rw [List.filter_eq_nil_iff.2, nil_append, List.filter_eq_self.2]
  · intro e he
    simpa using (f.mem_entries he).1
  · intro e he
    have := h.generation_le he
    simp only [decide_eq_true_eq]
    omega

/-- Switching to the next generation keeps the layout. -/
theorem swapped (hn : view.generation + 1 ∈ view.files.map LogFile.generation) :
    (view.swapped f).Stored f := by
  obtain ⟨_, hr, hs⟩ := h.nextRecords_eq hn
  refine ⟨?_, ?_, ?_, ?_, h.ascending, fun file hf hle => ?_, fun file hf hlt => ?_, h.untorn, ?_⟩
  · refine List.pairwise_append.2 ⟨h.sorted, ?_, fun a ha b hb => .inl ?_⟩
    · rw [hr]
      exact pairwise_singleton _ _
    · have := h.generation_le ha
      have := (f.mem_entries hb).1
      show a.generation < b.generation
      omega
  · intro e he
    rcases List.mem_append.1 he with hold | hne
    · exact .inl (Nat.lt_succ_of_le (h.generation_le hold))
    · obtain ⟨hg, -, _⟩ := f.mem_entries hne
      have := f.bytes_pos e.record
      refine .inr ⟨hg, ?_⟩
      show e.offset < f.length view.nextRecords
      omega
  · intro e he
    rcases List.mem_append.1 he with hold | hne
    · exact h.small e hold
    · rw [hr] at hne
      obtain rfl := List.mem_singleton.1 hne
      exact hs
  · show (view.swapped f).lengthOf f (view.generation + 1) = _
    rw [lengthOf, h.entriesOf_swapped_next, Framing.entries_map_record]
    rfl
  · rcases Nat.lt_or_ge view.generation file.generation with hlt | hl'
    · have heq : file.generation = view.generation + 1 := (h.staged file hf hlt).1
      rw [heq, h.entriesOf_swapped_next, h.nextRecords_of_mem hf heq]
    · rw [entriesOf_swapped_of_le hl']
      exact h.contents file hf hl'
  · have hgt : view.generation < file.generation := Nat.lt_of_succ_lt hlt
    have heq := (h.staged file hf hgt).1
    exact absurd hlt (Nat.not_lt.2 heq.le)
  · obtain ⟨file, hf, heq⟩ := List.mem_map.1 hn
    exact ⟨file, hf, heq⟩

/-- Deleting the file of an older generation keeps the layout. -/
theorem removed {g : Nat} (hlt : g < view.generation) :
    (view.removed g).Stored f := by
  refine ⟨h.sorted, h.behind, h.small, h.length_eq, h.ascending.filter _,
    fun file hf hle => h.contents file (List.mem_filter.1 hf).1 hle,
    fun file hf hgt => h.staged file (List.mem_filter.1 hf).1 hgt,
    fun file hf => h.untorn file (List.mem_filter.1 hf).1, ?_⟩
  obtain ⟨file, hf, heq⟩ := h.active
  exact ⟨file, List.mem_filter.2 ⟨hf, by simp; omega⟩, heq⟩

end Stored

end LogView

end Chevalier.LocalView
