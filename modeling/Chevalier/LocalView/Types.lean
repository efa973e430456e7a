import Chevalier.Foundations.Places

/-!
# The mutation vocabulary of a mount-local view

The shared types of the mount-local view: the mutations the owning mount accepts, the dependency
keys that order them, payload references, pre-image witnesses and sequenced events. A mount path is
the list of its components, so the mount root is `[]`, a proper ancestor is a proper prefix, and
two paths are the same entry exactly when they are equal. Machine integers are natural numbers: no
function here wraps.

`not_conflict_iff` says what the publisher's and the callbacks' independence test decides.
-/

namespace Chevalier.LocalView

open List

/-- A mount-relative path, component by component; the mount root is `[]`. -/
abbrev MountPath := List String

namespace MountPath

/-- The path as the source spells it. -/
def render (path : MountPath) : String := "/".intercalate path

/-- The debug form of a path in an error message. -/
def quote (path : MountPath) : String := "\"" ++ path.render ++ "\""

end MountPath

/-- A wall-clock timestamp: seconds and nanoseconds. -/
structure LocalTimestamp where
  secs : Int
  nanos : Nat
deriving DecidableEq, Repr

/-- The three entry kinds the backing tree and the gateway both model. -/
inductive LocalKind
  | file
  | directory
  | symlink
deriving DecidableEq, Repr

/-- `RENAME_NOREPLACE` as the kernel defines it. -/
def renameNoreplace : Nat := 1

/-- One ordered mutation accepted by the owning mount; each applies to the backing tree with
exactly one system call. -/
inductive MountMutation
  | createDirectory (path : MountPath) (mode : Nat)
  | createFile (path : MountPath) (mode : Nat)
  | replaceFile (path : MountPath) (mode : Nat) (expectedFileId baseContentHash : Option String)
  | appendFile (path : MountPath) (mode baseSize : Nat) (baseContentHash : String) (size : Nat)
      (contentHash : String)
  | createSymlink (path : MountPath) (target : String)
  | createHardLink (existingPath newPath : MountPath)
  | rename (oldPath newPath : MountPath) (flags : Nat)
  | removeFile (path : MountPath) (expectedFileId : Option String)
  | removeDirectory (path : MountPath)
  | setMode (path : MountPath) (mode : Nat)
  | setTimes (path : MountPath) (atime mtime : Option LocalTimestamp)
  | setOwner (path : MountPath) (uid gid : Option Nat)
deriving DecidableEq, Repr

/-- One path-scoped ordering claim. -/
structure DependencyKey where
  path : MountPath
  exclusive : Bool
deriving DecidableEq, Repr

namespace DependencyKey

/-- Exclusive claims conflict with every claim on the same path, shared ones only with exclusive
ones. -/
def conflictsWith (key other : DependencyKey) : Bool :=
  key.path == other.path && (key.exclusive || other.exclusive)

/-- The order keys are acquired in: by path, a shared claim before an exclusive one. -/
def le (key other : DependencyKey) : Bool :=
  decide (key.path < other.path) ||
    (decide (key.path = other.path) && (!key.exclusive || other.exclusive))

end DependencyKey

/-- Two key sets may not be reordered relative to one another. -/
def dependencySetsConflict (left right : List DependencyKey) : Bool :=
  left.any fun key => right.any fun other => key.conflictsWith other

/-- Fold one sorted key onto the merged keys, newest first. -/
def mergeKey (merged : List DependencyKey) (key : DependencyKey) : List DependencyKey :=
  match merged with
  | last :: older =>
    if last.path = key.path then
      { last with exclusive := last.exclusive || key.exclusive } :: older
    else key :: last :: older
  | [] => [key]

/-- Sort, deduplicate, and let an exclusive claim absorb a shared one. -/
def mergeDependencyKeys (keys : List DependencyKey) : List DependencyKey :=
  ((keys.insertionSort fun a b => a.le b).foldl mergeKey []).reverse

/-- Every proper ancestor of a path, root first. -/
def ancestorsOf (path : MountPath) : List MountPath := path.dropLast.inits

def isAtOrBelow (path root : MountPath) : Bool := root.isPrefixOf path

/-- Reject the root, an absolute path and a path with a parent component. Like
`Path::components`, the check sees an empty or `.` part only in front. -/
def validateMountPath (path : MountPath) : Except String Unit :=
  if path = [] then .error "mount mutation path must not be empty"
  else if path.head? = some "" ∨ path.head? = some "." ∨ ".." ∈ path then
    .error ("mount mutation path must be normalized and relative: " ++ path.quote)
  else .ok ()

/-- Where a payload's bytes are stored. -/
inductive PayloadStorage
  | segment (file : String) (offset : Nat)
  | dedicatedFile (file : String)
deriving DecidableEq, Repr

def PayloadStorage.file : PayloadStorage → String
  | segment file _ => file
  | dedicatedFile file => file

/-- An immutable, content-addressed reference into the payload store. -/
structure PayloadRef where
  storage : PayloadStorage
  length : Nat
  hashAlgorithm : String
  contentHash : String
deriving DecidableEq, Repr

/-- The observed state of one affected path immediately before a mutation is applied. -/
inductive PreImageState
  | absent
  | present (kind : LocalKind) (mode : Nat) (localIdentity : String) (sizeBytes linkCount : Nat)
      (linkTarget : Option String)
deriving DecidableEq, Repr

namespace PreImageState

/-- The backing identity a state recorded. -/
def localIdentity : PreImageState → Option String
  | absent => none
  | present _ _ identity _ _ _ => some identity

end PreImageState

structure PreImageEntry where
  path : MountPath
  state : PreImageState
deriving DecidableEq, Repr

/-- The witness recovery uses to decide whether an unresolved prepare was applied. -/
structure MountPreImage where
  entries : List PreImageEntry
deriving DecidableEq, Repr

def MountPreImage.stateOf (image : MountPreImage) (path : MountPath) : Option PreImageState :=
  (image.entries.find? fun entry => entry.path = path).map PreImageEntry.state

namespace MountMutation

/-- The path the mutation is primarily about; for a rename and a link the new name. -/
def primaryPath : MountMutation → MountPath
  | createDirectory path _ => path
  | createFile path _ => path
  | replaceFile path _ _ _ => path
  | appendFile path _ _ _ _ _ => path
  | createSymlink path _ => path
  | createHardLink _ newPath => newPath
  | rename _ newPath _ => newPath
  | removeFile path _ => path
  | removeDirectory path => path
  | setMode path _ => path
  | setTimes path _ _ => path
  | setOwner path _ _ => path

/-- Every path the mutation touches, in the order the pre-image records them. -/
def affectedPaths : MountMutation → List MountPath
  | createHardLink existingPath newPath => [existingPath, newPath]
  | rename oldPath newPath _ => [oldPath, newPath]
  | mutation => [mutation.primaryPath]

/-- A content generation, published by a write rather than a namespace request. -/
def isContent : MountMutation → Bool
  | replaceFile .. => true
  | appendFile .. => true
  | _ => false

/-- The gateway contract cannot express the mutation; it is acknowledged without a request. -/
def isLocalOnly : MountMutation → Bool
  | setTimes .. => true
  | setOwner .. => true
  | _ => false

/-- Only a content generation carries payload bytes. -/
def requiresPayload (mutation : MountMutation) : Bool := mutation.isContent

/-- The shape check of a mutation. -/
def validate (mutation : MountMutation) : Except String Unit := do
  for path in mutation.affectedPaths do
    validateMountPath path
  match mutation with
  | rename _ _ flags =>
    if flags &&& (2 ^ 32 - 1 - renameNoreplace) ≠ 0 then
      .error ("unsupported rename flags 0x" ++ String.ofList (Nat.toDigits 16 flags) ++
        " in a mount mutation")
    else .ok ()
  | appendFile path _ baseSize baseContentHash size contentHash =>
    if baseSize = 0 ∨ size ≤ baseSize then
      .error ("append generation of " ++ path.quote ++ " must extend a non-empty base: base " ++
        toString baseSize ++ " bytes, result " ++ toString size ++ " bytes")
    else if baseContentHash = "" ∨ contentHash = "" then
      .error ("append generation of " ++ path.quote ++ " must name its base and result hashes")
    else .ok ()
  | _ => .ok ()

/-- Reject a payload that cannot be this mutation's bytes. -/
def validatePayload (mutation : MountMutation) (payload : Option PayloadRef) :
    Except String Unit :=
  if mutation.requiresPayload ≠ payload.isSome then
    .error ("mount mutation payload mismatch: operation requires_payload=" ++
      toString mutation.requiresPayload ++ " supplied=" ++ toString payload.isSome)
  else
    match mutation, payload with
    | appendFile path _ baseSize _ size _, some payload =>
      if payload.length ≠ size - baseSize then
        .error ("append generation of " ++ path.quote ++ " carries " ++ toString payload.length ++
          " payload bytes, expected " ++ toString (size - baseSize))
      else .ok ()
    | _, _ => .ok ()

/-- The keys of one path: shared on every proper ancestor, and the claim on the path itself. -/
def pathKeys (path : MountPath) (exclusive : Bool) : List DependencyKey :=
  (ancestorsOf path).map (fun ancestor => { path := ancestor, exclusive := false }) ++
    [{ path := path, exclusive := exclusive }]

/-- The dependency keys the mutation must hold. A hard link's source is only kept from
disappearing; every other affected path is claimed exclusively. -/
def dependencyKeys (mutation : MountMutation) : List DependencyKey :=
  mergeDependencyKeys <|
    match mutation with
    | createHardLink existingPath newPath =>
      pathKeys existingPath false ++ pathKeys newPath true
    | other => other.affectedPaths.flatMap fun path => pathKeys path true

end MountMutation

/-- One sequenced event of the log. -/
structure MountEvent where
  formatVersion : Nat
  epoch : String
  sequence : Nat
  idempotencyKey : String
  mutation : MountMutation
  payload : Option PayloadRef
  preImage : MountPreImage
  localIdentity : Option String
deriving DecidableEq, Repr

namespace MountEvent

/-- The number of payload bytes the event carries. -/
def payloadLength (event : MountEvent) : Nat := (event.payload.map PayloadRef.length).getD 0

def dependencyKeys (event : MountEvent) : List DependencyKey := event.mutation.dependencyKeys

end MountEvent

/-! ## What the independence test decides -/

/-- Some key of the set is on the path. -/
def Claims (keys : List DependencyKey) (path : MountPath) : Prop :=
  ∃ key ∈ keys, key.path = path

def ClaimsExclusively (keys : List DependencyKey) (path : MountPath) : Prop :=
  ∃ key ∈ keys, key.path = path ∧ key.exclusive = true

theorem conflict_iff (left right : List DependencyKey) :
    dependencySetsConflict left right = true ↔
      ∃ path, (ClaimsExclusively left path ∧ Claims right path) ∨
        (Claims left path ∧ ClaimsExclusively right path) := by
  simp only [dependencySetsConflict, DependencyKey.conflictsWith, any_eq_true,
    Bool.and_eq_true, Bool.or_eq_true, beq_iff_eq]
  constructor
  · rintro ⟨key, hk, o, hot, hp, hex | hex⟩
    · exact ⟨key.path, .inl ⟨⟨key, hk, rfl, hex⟩, ⟨o, hot, hp.symm⟩⟩⟩
    · exact ⟨key.path, .inr ⟨⟨key, hk, rfl⟩, ⟨o, hot, hp.symm, hex⟩⟩⟩
  · rintro ⟨path, ⟨⟨key, hk, rfl, hex⟩, ⟨o, hot, ho⟩⟩ |
      ⟨⟨key, hk, rfl⟩, ⟨o, hot, ho, hex⟩⟩⟩
    · exact ⟨key, hk, o, hot, ho.symm, .inl hex⟩
    · exact ⟨key, hk, o, hot, ho.symm, .inr hex⟩

theorem claims_cons (key : DependencyKey) (keys : List DependencyKey) (path : MountPath) :
    Claims (key :: keys) path ↔ key.path = path ∨ Claims keys path := by
  simp [Claims]

theorem claimsExclusively_cons (key : DependencyKey) (keys : List DependencyKey)
    (path : MountPath) :
    ClaimsExclusively (key :: keys) path ↔
      (key.path = path ∧ key.exclusive = true) ∨ ClaimsExclusively keys path := by
  simp [ClaimsExclusively]

theorem claims_mergeKey (m : List DependencyKey) (key : DependencyKey) (path : MountPath) :
    Claims (mergeKey m key) path ↔ Claims m path ∨ key.path = path := by
  cases m with
  | nil => simp [mergeKey, Claims]
  | cons =>
    simp only [mergeKey]
    split_ifs with h <;> simp only [claims_cons]
    · rw [← h]; tauto
    · tauto

theorem claimsExclusively_mergeKey (m : List DependencyKey) (key : DependencyKey)
    (path : MountPath) :
    ClaimsExclusively (mergeKey m key) path ↔
      ClaimsExclusively m path ∨ (key.path = path ∧ key.exclusive = true) := by
  cases m with
  | nil => simp [mergeKey, ClaimsExclusively]
  | cons =>
    simp only [mergeKey]
    split_ifs with h <;> simp only [claimsExclusively_cons, Bool.or_eq_true]
    · rw [← h]; tauto
    · tauto

theorem claims_foldl_mergeKey (keys m : List DependencyKey) (path : MountPath) :
    Claims (keys.foldl mergeKey m) path ↔ Claims m path ∨ Claims keys path := by
  induction keys generalizing m with
  | nil => simp [Claims]
  | cons _ _ ih => rw [foldl_cons, ih, claims_mergeKey, claims_cons, or_assoc]

theorem claimsExclusively_foldl_mergeKey (keys m : List DependencyKey) (path : MountPath) :
    ClaimsExclusively (keys.foldl mergeKey m) path ↔
      ClaimsExclusively m path ∨ ClaimsExclusively keys path := by
  induction keys generalizing m with
  | nil => simp [ClaimsExclusively]
  | cons _ _ ih => rw [foldl_cons, ih, claimsExclusively_mergeKey, claimsExclusively_cons, or_assoc]

/-- Merging keeps the set of claimed paths. -/
theorem claims_merge (keys : List DependencyKey) (path : MountPath) :
    Claims (mergeDependencyKeys keys) path ↔ Claims keys path := by
  have h := claims_foldl_mergeKey (keys.insertionSort fun a b => a.le b) [] path
  simpa [Claims, mergeDependencyKeys] using h

/-- Merging keeps the set of exclusively claimed paths. -/
theorem claimsExclusively_merge (keys : List DependencyKey) (path : MountPath) :
    ClaimsExclusively (mergeDependencyKeys keys) path ↔ ClaimsExclusively keys path := by
  have h := claimsExclusively_foldl_mergeKey (keys.insertionSort fun a b => a.le b) [] path
  simpa [ClaimsExclusively, mergeDependencyKeys] using h

theorem prefix_iff_dropLast {p q : MountPath} : p <+: q ↔ p <+: q.dropLast ∨ p = q := by
  rcases eq_nil_or_concat q with rfl | ⟨_, _, rfl⟩
  · simp
  · simp only [concat_eq_append, dropLast_concat, prefix_concat_iff]
    exact or_comm

theorem claims_pathKeys (path : MountPath) (e : Bool) (p : MountPath) :
    Claims (MountMutation.pathKeys path e) p ↔ p <+: path := by
  rw [prefix_iff_dropLast]
  simp [Claims, MountMutation.pathKeys, ancestorsOf, or_and_right, exists_or, eq_comm]

theorem claimsExclusively_pathKeys (path : MountPath) (e : Bool) (p : MountPath) :
    ClaimsExclusively (MountMutation.pathKeys path e) p ↔ e = true ∧ p = path := by
  simp only [ClaimsExclusively, MountMutation.pathKeys, mem_append, mem_map, mem_singleton]
  constructor
  · rintro ⟨_, ⟨_, -, rfl⟩ | rfl, hp, hex⟩
    · simp at hex
    · exact ⟨hex, hp.symm⟩
  · rintro ⟨hex, rfl⟩
    exact ⟨_, .inr rfl, rfl, hex⟩

namespace MountMutation

/-- The paths the mutation claims exclusively: those whose entry it may change. -/
def changedPaths : MountMutation → List MountPath
  | createHardLink _ newPath => [newPath]
  | mutation => mutation.affectedPaths

theorem changedPaths_sub_affectedPaths (m : MountMutation) :
    ∀ p ∈ m.changedPaths, p ∈ m.affectedPaths := by
  cases m <;> simp [changedPaths, affectedPaths]

theorem claims_dependencyKeys (m : MountMutation) (p : MountPath) :
    Claims m.dependencyKeys p ↔ ∃ q ∈ m.affectedPaths, p <+: q := by
  have ha : ∀ l l' : List DependencyKey, Claims (l ++ l') p ↔ Claims l p ∨ Claims l' p := by
    intro l l'; simp [Claims, or_and_right, exists_or]
  cases m <;> rw [dependencyKeys, claims_merge] <;>
    simp [affectedPaths, primaryPath, ha, claims_pathKeys]

theorem claimsExclusively_dependencyKeys (m : MountMutation) (p : MountPath) :
    ClaimsExclusively m.dependencyKeys p ↔ p ∈ m.changedPaths := by
  have ha : ∀ l l' : List DependencyKey,
      ClaimsExclusively (l ++ l') p ↔ ClaimsExclusively l p ∨ ClaimsExclusively l' p := by
    intro l l'; simp [ClaimsExclusively, or_and_right, exists_or]
  cases m <;> rw [dependencyKeys, claimsExclusively_merge] <;>
    simp [changedPaths, affectedPaths, primaryPath, ha, claimsExclusively_pathKeys]

/-- **Independence.** Two mutations do not conflict exactly when no path one of them changes is a
path of the other or an ancestor of one. -/
theorem not_conflict_iff (m₁ m₂ : MountMutation) :
    dependencySetsConflict m₁.dependencyKeys m₂.dependencyKeys = false ↔
      (∀ p ∈ m₁.changedPaths, ∀ q ∈ m₂.affectedPaths, ¬ p <+: q) ∧
      (∀ p ∈ m₂.changedPaths, ∀ q ∈ m₁.affectedPaths, ¬ p <+: q) := by
  rw [← Bool.not_eq_true, conflict_iff]
  simp only [claims_dependencyKeys, claimsExclusively_dependencyKeys]
  constructor
  · intro h
    exact ⟨fun p hp q hq hpq => h ⟨p, .inl ⟨hp, q, hq, hpq⟩⟩,
      fun p hp q hq hpq => h ⟨p, .inr ⟨⟨q, hq, hpq⟩, hp⟩⟩⟩
  · rintro ⟨h₁, h₂⟩ ⟨p, ⟨hp, q, hq, hpq⟩ | ⟨⟨q, hq, hpq⟩, hp⟩⟩
    · exact h₁ p hp q hq hpq
    · exact h₂ p hp q hq hpq

theorem conflict_symm (m₁ m₂ : MountMutation) :
    dependencySetsConflict m₁.dependencyKeys m₂.dependencyKeys =
      dependencySetsConflict m₂.dependencyKeys m₁.dependencyKeys := by
  rw [Bool.eq_iff_iff, ← not_iff_not, Bool.not_eq_true, Bool.not_eq_true, not_conflict_iff,
    not_conflict_iff, and_comm]

end MountMutation

end Chevalier.LocalView
