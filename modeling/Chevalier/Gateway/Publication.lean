import Chevalier.Foundations.Schedule
import Chevalier.ControlBus.Command

/-!
# Publications of the gateway

The gateway serves the tree of an owner. A request that changes the tree holds the owner's publication
lock: it calls the backend, which may change the tree and fail nevertheless, reads back what it has
changed, and only then publishes a new revision, with the paths it names as affected. Requests that
read the tree hold the lock shared, so that each request is one step (`exec`). What the backend does
is the input of the step.

A bounded history of the publications answers watchers (`pathsPublishedSince`).
-/

namespace Chevalier.Gateway

open List

/-! ## Trees and what a backend does to them -/

/-- A path as its components; the root has none. -/
abbrev Path := List String

/-- What is there under each path. -/
abbrev Tree (ν : Type) := Path → Option ν

/-- A path gets a new node, or none. -/
structure Change (ν : Type) where
  path : Path
  node : Option ν
deriving DecidableEq, Repr

/-- What a call of the backend has changed, and the error it has returned, if any. -/
structure Effect (ν : Type) where
  changes : List (Change ν)
  error : Option String
deriving DecidableEq, Repr

/-- The tree after some changes. -/
def Tree.apply {ν : Type} (tree : Tree ν) (changes : List (Change ν)) : Tree ν :=
  changes.foldl (fun tree change => Function.update tree change.path change.node) tree

/-! ## Requests -/

/-- A member of a namespace batch. -/
inductive NamespaceMutation
  | createFile (path : Path)
  | createDirectory (path : Path)
  | createSymlink (path : Path)
  | createHardLink (source destination : Path)
  | deleteFile (path : Path)
  | removeDirectory (path : Path)
  | rename (source destination : Path)
  | setMode (path : Path)
deriving DecidableEq, Repr

/-- The paths that a member names. -/
def NamespaceMutation.paths : NamespaceMutation → List Path
  | .createFile path | .createDirectory path | .createSymlink path | .deleteFile path
  | .removeDirectory path | .setMode path => [path]
  | .createHardLink source destination | .rename source destination => [source, destination]

/-- The members that remove or move what is below their paths. -/
def NamespaceMutation.supersedes : NamespaceMutation → Bool
  | .removeDirectory _ | .rename _ _ => true
  | _ => false

/-- The requests for one path each, or two. -/
inductive SingleMutation
  | putFile (path : Path)
  | deleteFile (path : Path)
  | putDir (path : Path)
  | putSymlink (path : Path)
  | deleteDir (path : Path)
  | hardLink (source destination : Path)
  | rename (source destination : Path)
deriving DecidableEq, Repr

/-- What the backend says of a write. -/
structure VfsWriteManyResult where
  path : Path
  previousHash : Option String
deriving DecidableEq, Repr

/-- A request that changes the tree, with what the backend does. -/
inductive Request (ν : Type)
  | writeMany (writes : List Path) (effect : Effect ν) (results : List VfsWriteManyResult)
  | namespaceMany (operationIds : List String) (mutations : List NamespaceMutation)
      (effects : List (Effect ν))
  | single (mutation : SingleMutation) (effect : Effect ν)
deriving DecidableEq, Repr

/-! ## Affected paths -/

def immediateParent (path : Path) : Path := path.dropLast

/-- Add a path that is not there yet. -/
def insertNew (paths : List Path) (path : Path) : List Path :=
  if path ∈ paths then paths else paths ++ [path]

/-- The paths a batch names, each with its parent. -/
def namespaceSnapshotPaths (mutations : List NamespaceMutation) : List Path :=
  (mutations.flatMap fun mutation =>
    (mutation.paths.filter (· ≠ [])).flatMap fun path => [path, immediateParent path]).foldl
      insertNew []

/-- The paths a batch names whose whole subtree it supersedes. -/
def namespaceSupersededSubtrees (mutations : List NamespaceMutation) : List Path :=
  ((mutations.filter NamespaceMutation.supersedes).flatMap fun mutation =>
    mutation.paths.filter (· ≠ [])).foldl insertNew []

/-- The written paths, and the parents of those that were created. -/
def writeManySnapshotPaths (writes : List Path) (results : List VfsWriteManyResult) : List Path :=
  (((results.filter fun result => result.previousHash.isNone).map fun result =>
    immediateParent result.path).filter (· ≠ [])).foldl insertNew writes

/-! ## The history of publications -/

/-- A publication: the paths it affects, and among them those superseded with what is below. -/
structure PublishedPaths where
  revision : Nat
  paths : List Path
  subtrees : List Path
deriving DecidableEq, Repr

def publicationHistoryLimit : Nat := 256

def watchPathsLimit : Nat := 8192

/-- Drop the oldest publications beyond the limit; the floor is the last one dropped. -/
def evict : List PublishedPaths → Nat → List PublishedPaths × Nat
  | [], floor => ([], floor)
  | entry :: rest, floor =>
    if publicationHistoryLimit < (entry :: rest).length then evict rest entry.revision
    else (entry :: rest, floor)

/-- A successful read: the path, the revision stamped on the answer, and the tree that was read, with
the number of requests that had been served before. -/
structure Read (ν : Type) where
  path : Path
  revision : Nat
  tree : Tree ν
  served : Nat

/-- The state of an owner. The trees as they were when revisions were published, newest first, the
number of changing requests served and the reads are kept for what is said about them. -/
structure Owner (ν : Type) where
  tree : Tree ν
  revision : Nat
  history : List PublishedPaths
  floor : Nat
  versions : List (Nat × Tree ν)
  served : Nat
  reads : List (Read ν)

/-- What a watch answer names. -/
structure PublishedAffected where
  paths : List Path
  subtrees : List Path
deriving DecidableEq, Repr

/-- Add paths, unless they get too many. -/
def collect : List Path → List Path → Option (List Path)
  | union, [] => some union
  | union, path :: rest =>
    if path ∈ union then collect union rest
    else if watchPathsLimit < (union ++ [path]).length then none
    else collect (union ++ [path]) rest

/-- Add what the publications name, unless it gets too much. -/
def collectAll : PublishedAffected → List PublishedPaths → Option PublishedAffected
  | affected, [] => some affected
  | affected, entry :: rest => do
    let paths ← collect affected.paths entry.paths
    let subtrees ← collect affected.subtrees entry.subtrees
    collectAll ⟨paths, subtrees⟩ rest

namespace Owner

variable {ν : Type}

/-- An owner that nothing was published for. -/
def start (now : Nat) (tree : Tree ν) : Owner ν := ⟨tree, now, [], now, [(now, tree)], 0, []⟩

/-- The tree at a revision: as the last publication up to it has left it. -/
def treeAt (s : Owner ν) (revision : Nat) : Option (Tree ν) :=
  (s.versions.find? fun version => version.1 ≤ revision).map Prod.snd

/-- What was published after a revision, if that is known and not too much. -/
def pathsPublishedSince (s : Owner ν) (since : Nat) : Option PublishedAffected :=
  if s.history = [] then none
  else if since < s.floor then none
  else collectAll ⟨[], []⟩ (s.history.filter fun entry => since < entry.revision)

/-- Publish a new revision of the tree. -/
def commit (s : Owner ν) (now : Nat) (paths subtrees : List Path) : Owner ν :=
  let revision := max (s.revision + 1) now
  let recorded := evict (s.history ++ [⟨revision, paths, subtrees⟩]) s.floor
  { s with
    revision := revision
    history := recorded.1
    floor := recorded.2
    versions := (revision, s.tree) :: s.versions }

end Owner

/-- What a watcher gets: the revision, with what it names or the word that this is not known. -/
inductive WatchResponse
  | hit (revision : Nat) (affected : Option PublishedAffected)
  | idle (revision : Nat)
deriving DecidableEq, Repr

/-- The answer to a watcher. One that has seen the revision waits for another, or for its time. -/
def getWatch {ν : Type} (s : Owner ν) (since : Nat) : WatchResponse :=
  if since < s.revision then .hit s.revision (s.pathsPublishedSince since) else .idle s.revision

/-! ## Requests that change the tree -/

section

variable {ν : Type}

/-- Apply the members of a batch in turn, up to the first that fails. Where the backend's answers end,
the request is dropped. -/
def applyNamespaceBatch (tree : Tree ν) :
    List NamespaceMutation → List (Effect ν) → Tree ν × Option String
  | [], _ => (tree, none)
  | _ :: _, [] => (tree, some "request dropped")
  | _ :: mutations, effect :: effects =>
    match effect.error with
    | some error => (tree.apply effect.changes, some error)
    | none => applyNamespaceBatch (tree.apply effect.changes) mutations effects

/-- What a request leads to: the tree, and an error, or the affected paths and subtrees to publish. -/
structure Outcome (ν : Type) where
  tree : Tree ν
  result : Except String (Option (List Path × List Path))

/-- Write several files. -/
def postWriteMany (tree : Tree ν) (writes : List Path) (effect : Effect ν)
    (results : List VfsWriteManyResult) (scopeError snapshotError : Option String) : Outcome ν :=
  if writes = [] then ⟨tree, .ok none⟩
  else match scopeError with
    | some error => ⟨tree, .error error⟩
    | none =>
      match effect.error <|> snapshotError with
      | some error => ⟨tree.apply effect.changes, .error error⟩
      | none =>
        ⟨tree.apply effect.changes, .ok (some (writeManySnapshotPaths writes results, []))⟩

/-- What is wrong with a batch before it is applied. An empty one is not looked at any further. -/
def namespaceManyRefusal (operationIds : List String) (mutations : List NamespaceMutation)
    (scopeError : Option String) : Option String :=
  if operationIds.length ≠ mutations.length then
    some "namespace-many requires one operation_id per mutation"
  else if (operationIds.any fun id => ControlBus.trim id = "") ∨ ¬operationIds.Nodup then
    some "namespace-many operation_ids must be non-empty and unique"
  else if mutations = [] then none
  else if 4096 < mutations.length then some "namespace-many accepts at most 4096 mutations"
  else if mutations.head?.any fun first => first.paths.all (· = []) then
    some "namespace mutation has no path"
  else scopeError

def postNamespaceMany (tree : Tree ν) (operationIds : List String)
    (mutations : List NamespaceMutation) (effects : List (Effect ν))
    (scopeError snapshotError : Option String) : Outcome ν :=
  match namespaceManyRefusal operationIds mutations scopeError with
  | some error => ⟨tree, .error error⟩
  | none =>
    if mutations = [] then ⟨tree, .ok none⟩
    else
      let applied := applyNamespaceBatch tree mutations effects
      match applied.2 <|> snapshotError with
      | some error => ⟨applied.1, .error error⟩
      | none => ⟨applied.1, .ok (some
          (namespaceSnapshotPaths mutations, namespaceSupersededSubtrees mutations))⟩

/-- The requests for single paths publish no paths. -/
def postSingle (tree : Tree ν) (effect : Effect ν) (scopeError : Option String) : Outcome ν :=
  match scopeError, effect.error with
  | some error, _ => ⟨tree, .error error⟩
  | none, some error => ⟨tree.apply effect.changes, .error error⟩
  | none, none => ⟨tree.apply effect.changes, .ok (some ([], []))⟩

def Request.serve (request : Request ν) (tree : Tree ν) (scopeError snapshotError : Option String) :
    Outcome ν :=
  match request with
  | .writeMany writes effect results =>
    postWriteMany tree writes effect results scopeError snapshotError
  | .namespaceMany operationIds mutations effects =>
    postNamespaceMany tree operationIds mutations effects scopeError snapshotError
  | .single _ effect => postSingle tree effect scopeError

/-- A request to the gateway: one that changes the tree, with the errors of its scope and of its
reading back and with the time; or a read. -/
inductive Action (ν : Type)
  | mutate (request : Request ν) (scopeError snapshotError : Option String) (now : Nat)
  | read (path : Path)

def exec (action : Action ν) (s : Owner ν) : Option (Owner ν) :=
  match action with
  | .mutate request scopeError snapshotError now =>
    let outcome := request.serve s.tree scopeError snapshotError
    let s := { s with tree := outcome.tree, served := s.served + 1 }
    match outcome.result with
    | .ok (some (paths, subtrees)) => some (s.commit now paths subtrees)
    | .ok none | .error _ => some s
  | .read path => some { s with reads := ⟨path, s.revision, s.tree, s.served⟩ :: s.reads }

end

/-! ## Requests that leave the tree as it is -/

section

variable {ν : Type}

def Tree.Idle (tree : Tree ν) (changes : List (Change ν)) : Prop :=
  ∀ change ∈ changes, tree change.path = change.node

instance [DecidableEq ν] (tree : Tree ν) (changes : List (Change ν)) :
    Decidable (tree.Idle changes) :=
  inferInstanceAs (Decidable (∀ change ∈ changes, _))

/-- The backend fails, or the reading back does. -/
def Request.Fails (request : Request ν) (snapshotError : Option String) : Prop :=
  match request with
  | .writeMany _ effect _ => effect.error.isSome ∨ snapshotError.isSome
  | .namespaceMany _ mutations effects =>
    effects.length < mutations.length ∨ (∃ effect ∈ effects, effect.error.isSome) ∨
      snapshotError.isSome
  | .single _ effect => effect.error.isSome

instance (request : Request ν) (snapshotError : Option String) :
    Decidable (request.Fails snapshotError) :=
  match request with
  | .writeMany _ _ _ => inferInstanceAs (Decidable (_ ∨ _))
  | .namespaceMany _ _ effects =>
    inferInstanceAs (Decidable (_ ∨ (∃ effect ∈ effects, _) ∨ _))
  | .single _ _ => inferInstanceAs (Decidable (_ = _))

/-- What the backend does leaves the tree as it is. -/
def Request.Idle (request : Request ν) (tree : Tree ν) : Prop :=
  match request with
  | .writeMany _ effect _ | .single _ effect => tree.Idle effect.changes
  | .namespaceMany _ _ effects => ∀ effect ∈ effects, tree.Idle effect.changes

instance [DecidableEq ν] (request : Request ν) (tree : Tree ν) : Decidable (request.Idle tree) :=
  match request with
  | .writeMany _ _ _ | .single _ _ => inferInstanceAs (Decidable (tree.Idle _))
  | .namespaceMany _ _ effects => inferInstanceAs (Decidable (∀ effect ∈ effects, _))

theorem Tree.apply_of_idle {tree : Tree ν} {c : List (Change ν)} (h : tree.Idle c) :
    tree.apply c = tree := by
  induction c with
  | nil => rfl
  | cons change _ ih =>
    have hc : Function.update tree change.path change.node = tree := by
      rw [← h change mem_cons_self]
      exact Function.update_eq_self ..
    rw [Tree.apply, foldl_cons, hc]
    exact ih fun change hc => h change (mem_cons_of_mem _ hc)

theorem applyNamespaceBatch_of_idle {tree : Tree ν} {m : List NamespaceMutation}
    {e : List (Effect ν)} (h : ∀ effect ∈ e, tree.Idle effect.changes) :
    (applyNamespaceBatch tree m e).1 = tree := by
  induction m generalizing e with
  | nil => rfl
  | cons _ _ ih =>
    cases e with
    | nil => rfl
    | cons effect =>
      rw [applyNamespaceBatch, Tree.apply_of_idle (h effect mem_cons_self)]
      split
      · rfl
      · exact ih fun effect he => h effect (mem_cons_of_mem _ he)

/-- A batch fails when the backend does, for one of its members. -/
theorem applyNamespaceBatch_error {tree : Tree ν} {m : List NamespaceMutation}
    {e : List (Effect ν)} {er : String}
    (h : (applyNamespaceBatch tree m e).2 = some er) :
    e.length < m.length ∨ ∃ ef ∈ e, ef.error.isSome := by
  induction m generalizing tree e with
  | nil => cases h
  | cons _ _ ih =>
    cases e with
    | nil => exact .inl (Nat.zero_lt_succ _)
    | cons ef =>
      rw [applyNamespaceBatch] at h
      split at h
      · next he => exact .inr ⟨ef, mem_cons_self, by rw [he]; rfl⟩
      · rcases ih h with hlt | ⟨f, hf, he⟩
        · exact .inl (Nat.succ_lt_succ hlt)
        · exact .inr ⟨f, mem_cons_of_mem _ hf, he⟩

/-- A request that publishes nothing leaves the tree as it is, if it changes nothing when it fails. -/
theorem Request.serve_tree {r : Request ν} {tree : Tree ν}
    {s se : Option String}
    (hc : r.Fails se → r.Idle tree)
    (hr : ∀ a, (r.serve tree s se).result ≠ .ok (some a)) :
    (r.serve tree s se).tree = tree := by
  cases r with
  | writeMany w ef =>
    simp only [Request.serve, postWriteMany] at hr ⊢
    by_cases hw : w = []
    · rw [if_pos hw]
    rw [if_neg hw] at hr ⊢
    cases s with
    | some => rfl
    | none =>
      cases he : ef.error <|> se with
      | none =>
        rw [he] at hr
        exact absurd rfl (hr _)
      | some er =>
        refine Tree.apply_of_idle (hc ?_)
        cases hef : ef.error with
        | some => exact .inl (by rw [hef]; rfl)
        | none =>
          rw [hef] at he
          exact .inr (Option.isSome_iff_exists.2 ⟨er, he⟩)
  | namespaceMany oi m e =>
    simp only [Request.serve, postNamespaceMany] at hr ⊢
    cases hre : namespaceManyRefusal oi m s with
    | some => rfl
    | none =>
      rw [hre] at hr
      dsimp only at hr ⊢
      by_cases hem : m = []
      · rw [if_pos hem]
      rw [if_neg hem] at hr ⊢
      cases he : (applyNamespaceBatch tree m e).2 <|> se with
      | none =>
        rw [he] at hr
        exact absurd rfl (hr _)
      | some er =>
        refine applyNamespaceBatch_of_idle (hc ?_)
        cases hb : (applyNamespaceBatch tree m e).2 with
        | some => exact (applyNamespaceBatch_error hb).imp_right .inl
        | none =>
          rw [hb] at he
          exact .inr (.inr (Option.isSome_iff_exists.2 ⟨er, he⟩))
  | single =>
    simp only [Request.serve, postSingle] at hr ⊢
    split
    · rfl
    · next he => exact Tree.apply_of_idle (hc (by rw [Request.Fails, he]; rfl))
    · next he =>
      rw [he] at hr
      exact absurd rfl (hr _)

/-- A request publishes the tree it leads to, or leaves the revision as it is. -/
theorem exec_mutate {r : Request ν} {sc se : Option String} {now : Nat}
    {s t : Owner ν} (h : exec (.mutate r sc se now) s = some t) :
    (∃ p su,
      (r.serve s.tree sc se).result = .ok (some (p, su)) ∧
      t = ({ s with
        tree := (r.serve s.tree sc se).tree
        served := s.served + 1 } : Owner ν).commit now p su) ∨
    (∀ a,
      (r.serve s.tree sc se).result ≠ .ok (some a)) ∧
      t = { s with
        tree := (r.serve s.tree sc se).tree
        served := s.served + 1 } := by
  simp only [exec] at h
  split at h
  · next p su hr => exact .inl ⟨p, su, hr, (Option.some.inj h).symm⟩
  · next hr => exact .inr ⟨by rw [hr]; nofun, (Option.some.inj h).symm⟩
  · next e hr => exact .inr ⟨by rw [hr]; nofun, (Option.some.inj h).symm⟩

end

end Chevalier.Gateway
