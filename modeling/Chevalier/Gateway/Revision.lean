import Chevalier.Gateway.Publication

/-!
# The revision identifies the tree

A revision is published only when a request has succeeded, after its backend call and its reading back.
A request that fails may have changed the tree: the members of a batch before the one that fails were
applied, and so was all of a batch that cannot be read back. The revision then stands for two trees.
`Clean` asks that a request that fails has changed nothing.

* `Stamped.step`: in clean steps, the reads stamped with one revision have read one tree.
* `revision_identifies_tree`: what follows for runs.
-/

namespace Chevalier.Gateway

variable {ν : Type}

def Clean : Action ν → Owner ν → Prop
  | .mutate request _ snapshotError _, s => request.Fails snapshotError → request.Idle s.tree
  | .read _, _ => True

instance [DecidableEq ν] (action : Action ν) (s : Owner ν) : Decidable (Clean action s) :=
  match action with
  | .mutate request _ snapshotError _ =>
    inferInstanceAs (Decidable (request.Fails snapshotError → request.Idle s.tree))
  | .read _ => inferInstanceAs (Decidable True)

/-- Reads with one revision have read one tree, and reads with a larger revision came later. -/
structure Stamped (s : Owner ν) : Prop where
  revision : ∀ read ∈ s.reads, read.revision ≤ s.revision
  served : ∀ read ∈ s.reads, read.served ≤ s.served
  current : ∀ read ∈ s.reads, read.revision = s.revision → read.tree = s.tree
  same : ∀ read ∈ s.reads, ∀ other ∈ s.reads, read.revision = other.revision →
    read.tree = other.tree
  ordered : ∀ read ∈ s.reads, ∀ other ∈ s.reads, read.revision < other.revision →
    read.served ≤ other.served

namespace Stamped

variable {s t : Owner ν}

theorem start (now : Nat) (tree : Tree ν) : Stamped (.start now tree) :=
  ⟨nofun, nofun, nofun, nofun, nofun⟩

theorem read (hs : Stamped s) (path : Path) :
    Stamped { s with reads := ⟨path, s.revision, s.tree, s.served⟩ :: s.reads } := by
  refine ⟨fun read hr => ?_, fun read hr => ?_, fun read hr => ?_,
    fun read hr o ho => ?_, fun read hr o ho => ?_⟩
  · rcases List.mem_cons.1 hr with rfl | hr
    · exact Nat.le_refl _
    · exact hs.revision read hr
  · rcases List.mem_cons.1 hr with rfl | hr
    · exact Nat.le_refl _
    · exact hs.served read hr
  · rcases List.mem_cons.1 hr with rfl | hr
    · exact fun _ => rfl
    · exact hs.current read hr
  · rcases List.mem_cons.1 hr with rfl | hr <;> rcases List.mem_cons.1 ho with rfl | ho
    · exact fun _ => rfl
    · exact fun heq => (hs.current o ho heq.symm).symm
    · exact hs.current read hr
    · exact hs.same read hr o ho
  · rcases List.mem_cons.1 hr with rfl | hr <;> rcases List.mem_cons.1 ho with rfl | ho
    · exact fun _ => Nat.le_refl _
    · exact fun hlt => absurd (hs.revision o ho) (Nat.not_le.2 hlt)
    · exact fun _ => hs.served read hr
    · exact hs.ordered read hr o ho

/-- A new revision is larger than those of the reads. -/
theorem commit (hs : Stamped s) (tree : Tree ν) (now : Nat) (p su : List Path) :
    Stamped (({ s with tree := tree, served := s.served + 1 } : Owner ν).commit now p su) := by
  have hlt : s.revision < max (s.revision + 1) now := by omega
  refine ⟨fun read hr => ?_, fun read hr => ?_, fun read hr heq => ?_, hs.same, hs.ordered⟩
  · exact Nat.le_trans (hs.revision read hr) (Nat.le_of_lt hlt)
  · exact Nat.le_succ_of_le (hs.served read hr)
  · have hle := hs.revision read hr
    exact absurd (heq ▸ hlt) (Nat.not_lt.2 hle)

/-- Clean requests keep one tree for each revision. -/
theorem step {a : Action ν} (hc : Clean a s) (hs : Stamped s)
    (h : exec a s = some t) : Stamped t := by
  cases a with
  | mutate _ _ _ now =>
    obtain ⟨p, su, -, rfl⟩ | ⟨hre, rfl⟩ := exec_mutate h
    · exact hs.commit _ now p su
    · have ht := Request.serve_tree hc hre
      exact ⟨hs.revision, fun read hr => Nat.le_succ_of_le (hs.served read hr),
        fun read hr heq => (hs.current read hr heq).trans ht.symm, hs.same, hs.ordered⟩
  | read path =>
    cases h
    exact hs.read path

end Stamped

/-- **The revision identifies the tree.** If requests that fail change nothing, two reads of a path that
are stamped with one revision have the same result, whatever is read there, and a read that is stamped
with a larger revision than another was not served before it. -/
theorem revision_identifies_tree [DecidableEq ν] {α : Type} (observe : Path → Tree ν → α) (now : Nat)
    (tree : Tree ν) (actions : List (Action ν)) (s : Owner ν)
    (hrun : Schedule.run (Schedule.guarded Clean exec) actions (.start now tree) = some s) :
    ∀ read ∈ s.reads, ∀ other ∈ s.reads,
      (read.path = other.path → read.revision = other.revision →
        observe read.path read.tree = observe other.path other.tree) ∧
      (read.revision < other.revision → read.served ≤ other.served) := by
  have hs : Stamped s := Schedule.guarded_invariant (P := Stamped)
    (fun _ _ _ hs hc he => hs.step hc he) hrun (Stamped.start now tree)
  intro read hr other ho
  refine ⟨fun hp heq => ?_, hs.ordered read hr other ho⟩
  rw [hp, hs.same read hr other ho heq]

/-- A batch creates two files, between reads of the first. -/
def readsAround (effects : List (Effect Nat)) (snapshotError : Option String) : List (Action Nat) :=
  [.read ["a"],
    .mutate (.namespaceMany ["1", "2"] [.createFile ["a"], .createFile ["b"]] effects) none
      snapshotError 0,
    .read ["a"]]

/-- The backend creates a file. -/
def creates (path : Path) : Effect Nat := ⟨[⟨path, some 0⟩], none⟩

/-- The backend refuses to create a file that is there. -/
def refuses : Effect Nat := ⟨[], some "precondition failed: absent"⟩

/-- The batch succeeds: the second read has a larger revision, and was served later. -/
theorem revision_identifies_tree_readsAround :
    ∃ s, Schedule.run (Schedule.guarded Clean exec) (readsAround [creates ["a"], creates ["b"]] none)
        (.start 1 fun _ => none) = some s ∧ s.revision = 2 ∧
      ∀ read ∈ s.reads, ∀ other ∈ s.reads,
        (read.path = other.path → read.revision = other.revision →
          read.tree read.path = other.tree other.path) ∧
        (read.revision < other.revision → read.served ≤ other.served) := by
  exact Schedule.exists_of_run_and (by decide +kernel) fun s hrun _ =>
    revision_identifies_tree (fun path tree => tree path) 1 _ _ s hrun

/-- The second member of the batch fails, or all of it succeeds and cannot be read back. Either way the
first member was applied under the old revision, and the two reads of its path differ. -/
theorem batch_fails_under_revision :
    (∃ s, Schedule.run exec (readsAround [creates ["a"], refuses] none) (.start 1 fun _ => none) =
        some s ∧
      s.reads.map (fun read => (read.path, read.revision, read.tree read.path)) =
        [(["a"], 1, some 0), (["a"], 1, none)]) ∧
    ∃ s, Schedule.run exec
        (readsAround [creates ["a"], creates ["b"]] (some "metadata unavailable"))
        (.start 1 fun _ => none) = some s ∧
      s.reads.map (fun read => (read.path, read.revision, read.tree read.path)) =
        [(["a"], 1, some 0), (["a"], 1, none)] := by
  constructor
  · exact Schedule.exists_of_run (by decide +kernel)
  · exact Schedule.exists_of_run (by decide +kernel)

end Chevalier.Gateway
