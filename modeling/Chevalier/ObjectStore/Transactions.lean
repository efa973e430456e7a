import Chevalier.Foundations.Schedule
import Chevalier.ObjectStore.Publish
import Chevalier.ObjectStore.Storage

/-!
# Concurrent transactions of the index

Batches of writes, hard links, deletes and renames run side by side (`exec`). Each of them reads
entries first, without a lock; it then opens a transaction, takes the advisory locks of the paths
and identities that it has read (`Transaction.keys`), looks again (`Transaction.check`), and commits
(`Transaction.commit`). A statement sees what was committed before it. The statements that lock the
rows they read count as one step with the commit, since nobody else changes those rows in between.

A batch reads three times before its transaction: the entries of its paths (`Action.write`), the
paths of each file with several names (`Action.listAliases`), and the entries of all the paths
(`Action.prepare`).
-/

namespace Chevalier.ObjectStore

open Vfs

/-! ## Transactions -/

/-- What an advisory lock is taken for. -/
inductive LockKey
  | path (path : LogicalPath)
  | identity (fileId : String)
deriving DecidableEq, Repr

/-- A transaction, with what was read before it. -/
inductive Transaction
  /-- publish the batch that was made of the requested writes -/
  | publish (requested : List StorageWrite) (commit : PackedCommit)
  /-- `ownId` is the identity of a source that has none yet; `copied` is what was copied from the
  source, with the identifier of its manifest -/
  | link (source destination : LogicalPath) (ownId fileId : String)
      (copied : Option (String × LinkSource))
  | unlink (path : LogicalPath) (fileId : Option String) (expectedCurrentVersion : Option String)
  /-- `snapshot` is the identity found at the destination, if there was an entry; `replaces` is set
  when the destination is found again -/
  | rename (source destination : LogicalPath) (fileId : Option String)
      (snapshot : Option (Option String)) (allowReplace replaces : Bool)
deriving DecidableEq, Repr

namespace Transaction

def keys : Transaction → List LockKey
  | .publish _ commit => commit.files.flatMap fun file =>
      .path file.logicalPath :: (file.fileId.toList ++ file.expectedFileId.toList).map .identity
  | .link _ _ _ fileId _ => [.identity fileId]
  | .unlink _ fileId _ => fileId.toList.map .identity
  | .rename _ _ fileId snapshot _ _ =>
      (fileId.toList ++ (snapshot.bind id).toList).map .identity

/-- Look again, with the locks; `none` if the call ends here. A link copies its source. -/
def check (ix : Index) : Transaction → Option Transaction
  | .publish requested commit =>
    match validateFileAliasSnapshot ix commit.files with
    | .ok () => some (.publish requested commit)
    | .error _ => none
  | .link source destination ownId fileId _ =>
    match (ix.row source).bind (·.manifest), linkSource source ownId fileId ix with
    | some manifestId, .ok copied =>
      some (.link source destination ownId fileId (some (manifestId, copied)))
    | _, _ => none
  | .unlink path fileId expectedCurrentVersion =>
    match ix.entries.get path with
    | none => none
    | some entry =>
      match deleteRefusal path fileId expectedCurrentVersion
          (entry.row.getD ⟨none, none, none, none⟩) with
      | some _ => none
      | none => some (.unlink path fileId expectedCurrentVersion)
  | .rename source destination fileId snapshot allowReplace _ =>
    match renameRefusal source destination fileId snapshot allowReplace ix with
    | some _ => none
    | none => some (.rename source destination fileId snapshot allowReplace
        (ix.entries.get destination).isSome)

def commit (now : Nat) (draw : LogicalPath → Draw) (ix : Index) :
    Transaction → Except VfsStorageError Index
  | .publish _ commit => publishPackedFiles now draw commit ix
  | .link source destination _ fileId (some (_, copied)) =>
    linkFile now (draw destination) source destination fileId copied ix
  | .link _ _ _ _ none => .ok ix
  | .unlink path _ _ => .ok (unlinkFile now path ix)
  | .rename source destination _ _ _ replaces => renameFile now source destination replaces ix

/-- The identifiers that are drawn for the new files and the manifests of a transaction. -/
def newIds (draw : LogicalPath → Draw) : Transaction → List String
  | .publish _ commit =>
    (commit.files.filter fun file => file.fileId = none).map
        (fun file => (draw file.logicalPath).fileId) ++
      commit.files.map fun file => (draw file.logicalPath).manifestId
  | .link _ destination _ _ _ => [(draw destination).manifestId]
  | .unlink .. | .rename .. => []

end Transaction

/-! ## Calls -/

/-- How far a call is. -/
inductive Call
  /-- the entries were read, and the paths of the files in `todo` are to be looked up -/
  | expanding (requested : List StorageWrite) (requestedPrevious : EntryViews)
      (todo : List (String × LogicalPath)) (writes : List StorageWrite)
  /-- the source of a rename was read -/
  | renameRead (source destination : LogicalPath) (fileId : Option String) (allowReplace : Bool)
  | ready (transaction : Transaction)
  | locked (transaction : Transaction)
  | checked (transaction : Transaction)

/-- The committed tables, who holds which lock, the calls in progress, and the identifiers of files,
manifests and packs that were ever drawn. -/
structure System where
  index : Index
  locks : LockKey → Option Nat
  calls : Nat → Option Call
  uuids : List String

namespace System

/-- The call goes on. -/
def set (s : System) (call : Nat) (phase : Call) : System :=
  { s with calls := Function.update s.calls call (some phase) }

def acquire (s : System) (call : Nat) (keys : List LockKey) : System :=
  { s with locks := fun key => if key ∈ keys then some call else s.locks key }

/-- The call ends, and lets go of its locks. -/
def finish (s : System) (call : Nat) : System :=
  { s with
    locks := fun key => if s.locks key = some call then none else s.locks key
    calls := Function.update s.calls call none }

end System

/-- The files with several names among the requested paths. -/
def identitiesOf (views : EntryViews) (requested : List LogicalPath) :
    List (String × LogicalPath) :=
  requested.filterMap fun path => (views path).bind fun view =>
    if 1 < view.linkCount then view.fileId.map (·, path) else none

/-- The files with several names, each with one of the paths that the batch writes it through, in
some order. -/
def IsExplicit (views : EntryViews) (requested : List LogicalPath)
    (explicit : List (String × LogicalPath)) : Prop :=
  (explicit.map Prod.fst).Nodup ∧ explicit ⊆ identitiesOf views requested ∧
    (identitiesOf views requested).map Prod.fst ⊆ explicit.map Prod.fst

instance (views : EntryViews) (requested : List LogicalPath)
    (explicit : List (String × LogicalPath)) : Decidable (IsExplicit views requested explicit) :=
  inferInstanceAs (Decidable (_ ∧ explicit ⊆ identitiesOf views requested ∧
    (identitiesOf views requested).map Prod.fst ⊆ explicit.map Prod.fst))

/-! ## Steps -/

/-- A step of a call; directories come and go at any time. -/
inductive Action
  /-- start a batch: read the entries; `explicit` are its files with several names -/
  | write (call : Nat) (writes : List StorageWrite) (explicit : List (String × LogicalPath))
  /-- look up the paths of the next file -/
  | listAliases (call : Nat)
  /-- read the entries of all paths, and store the pack -/
  | prepare (call : Nat) (packKey : String)
  /-- start a link: read the identity of its source -/
  | link (call : Nat) (source destination : LogicalPath) (ownId : String)
  /-- start a delete: read the entry -/
  | unlink (call : Nat) (path : LogicalPath) (expectedCurrentVersion : Option String)
  /-- start a rename: read the source -/
  | rename (call : Nat) (source destination : LogicalPath) (allowReplace : Bool)
  /-- read the destination of a rename -/
  | snapshot (call : Nat)
  /-- open the transaction and take its locks -/
  | lock (call : Nat)
  /-- look again -/
  | check (call : Nat)
  /-- commit, or roll back with an error -/
  | commit (call : Nat) (now : Nat) (draw : LogicalPath → Draw)
  /-- a call is given up, with its transaction -/
  | abandon (call : Nat)
  | createDirectory (path : LogicalPath)
  | removeEmptyDirectory (path : LogicalPath)

/-- The locks can be taken: nobody else holds one of them. -/
def Free (s : System) (call : Nat) (keys : List LockKey) : Prop :=
  ∀ key ∈ keys, s.locks key = none ∨ s.locks key = some call

instance (s : System) (call : Nat) (keys : List LockKey) : Decidable (Free s call keys) :=
  inferInstanceAs (Decidable (∀ key ∈ keys, s.locks key = none ∨ s.locks key = some call))

/-- The identifiers were never drawn before. -/
def FreshIds (uuids ids : List String) : Prop := ids.Nodup ∧ ∀ id ∈ ids, id ∉ uuids

instance (uuids ids : List String) : Decidable (FreshIds uuids ids) :=
  inferInstanceAs (Decidable (_ ∧ ∀ id ∈ ids, id ∉ uuids))

/-- One step of the system. -/
def exec (codec : Codec) : Action → System → Option System
  | .write call writes explicit, s =>
    let requested := writes.map (·.path)
    if (s.calls call).isNone ∧ writes ≠ [] ∧ duplicatePath [] requested = none ∧
        IsExplicit s.index.view requested explicit then
      some (s.set call (.expanding writes s.index.view explicit writes))
    else none
  | .listAliases call, s =>
    match s.calls call with
    | some (.expanding requested previous ((fileId, representative) :: todo) writes) =>
      match expandIdentity previous (requested.map (·.path)) fileId representative
          (s.index.listFileAliasPaths fileId) writes with
      | .ok writes => some (s.set call (.expanding requested previous todo writes))
      | .error _ => some (s.finish call)
    | _ => none
  | .prepare call packKey, s =>
    match s.calls call with
    | some (.expanding requested _ [] writes) =>
      if packKey ∈ s.uuids then none
      else match prepareCommit codec packKey s.index.view writes with
        | .ok commit => some { (s.set call (.ready (.publish requested commit))) with
            uuids := packKey :: s.uuids }
        | .error _ => some (s.finish call)
    | _ => none
  | .link call source destination ownId, s =>
    match s.calls call, s.index.row source with
    | none, some row =>
      some (s.set call (.ready (.link source destination ownId (row.fileId.getD ownId) none)))
    | _, _ => none
  | .unlink call path expectedCurrentVersion, s =>
    match s.calls call, s.index.row path with
    | none, some row => some (s.set call (.ready (.unlink path row.fileId expectedCurrentVersion)))
    | _, _ => none
  | .rename call source destination allowReplace, s =>
    match s.calls call, s.index.row source with
    | none, some row =>
      if source ≠ destination then
        some (s.set call (.renameRead source destination row.fileId allowReplace))
      else none
    | _, _ => none
  | .snapshot call, s =>
    match s.calls call with
    | some (.renameRead source destination fileId allowReplace) =>
      some (s.set call (.ready (.rename source destination fileId
        ((s.index.entries.get destination).map fun _ => s.index.fileId destination)
        allowReplace false)))
    | _ => none
  | .lock call, s =>
    match s.calls call with
    | some (.ready transaction) =>
      if Free s call transaction.keys then
        some ((s.acquire call transaction.keys).set call (.locked transaction))
      else none
    | _ => none
  | .check call, s =>
    match s.calls call with
    | some (.locked transaction) =>
      match transaction.check s.index with
      | some transaction => some (s.set call (.checked transaction))
      | none => some (s.finish call)
    | _ => none
  | .commit call now draw, s =>
    match s.calls call with
    | some (.checked transaction) =>
      if FreshIds s.uuids (transaction.newIds draw) then
        match transaction.commit now draw s.index with
        | .ok index => some { (s.finish call) with
            index := index
            uuids := transaction.newIds draw ++ s.uuids }
        | .error _ => some (s.finish call)
      else none
    | _ => none
  | .abandon call, s => some (s.finish call)
  | .createDirectory path, s =>
    match createDirectory path s.index with
    | .ok index => some { s with index := index }
    | .error _ => some s
  | .removeEmptyDirectory path, s =>
    match removeEmptyDirectory path s.index with
    | .ok index => some { s with index := index }
    | .error _ => some s

end Chevalier.ObjectStore
