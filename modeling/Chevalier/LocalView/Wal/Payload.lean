import Chevalier.LocalView.Types

/-!
# The payload store

Captured generations are packed into shared segments or get a file of their own. The store's mutex
is held only to reserve a range or a name; the bytes are written, and files are synced, without it.
Each function below is one critical section or one file operation of `payload.rs`.

A capture is followed from its reservation until its prepare is appended. What reached the payload
directory and the device is `PayloadDisk`: the names present, the captures whose bytes were written,
those whose bytes were written before a completed sync of their file, and the names whose directory
entry was synced. The last three only grow; they say what happened, not what a file holds now.
-/

namespace Chevalier.LocalView

/-! ## Names -/

/-- The size at which a packed segment is closed. -/
def segmentTargetBytes : Nat := 16 * 1024 * 1024

/-- The largest payload that is packed into a segment. -/
def maxSegmentedPayloadBytes : Nat := 1024 * 1024

/-- The hash algorithm payloads are captured under by default. -/
def payloadHashAlgorithm : String := "sha256"

/-- A number in decimal, padded to twenty digits. -/
def paddedDecimal (number : Nat) : String :=
  let digits := Nat.digits 10 number
  String.ofList ((digits ++ List.replicate (20 - digits.length) 0).reverse.map Nat.digitChar)

def segmentName (segmentId : Nat) : String := "segment-" ++ paddedDecimal segmentId ++ ".bin"

def dedicatedName (uuid : String) : String := "payload-" ++ uuid ++ ".bin"

/-! ## The store -/

/-- Payload files that were written but not yet synced. -/
structure DirtyPayloads where
  files : Finset String
  directoryDirty : Bool
deriving DecidableEq

/-- The segment captures are packed into. -/
structure ActiveSegment where
  name : String
  len : Nat
deriving DecidableEq, Repr

/-- What the store's mutex protects. -/
structure StoreState where
  nextSegmentId : Nat
  currentSegment : Option ActiveSegment
  dirty : DirtyPayloads
  reserved : Finset String
deriving DecidableEq

/-- How far a capture has come. -/
inductive CaptureStage
  /-- A range or a name is reserved; no byte is written. -/
  | reserved
  /-- A dedicated file is written but not registered. -/
  | written
  /-- The payload reference was returned; its prepare is not appended yet. -/
  | ready
deriving DecidableEq, Repr

/-- A `prepare` call that has begun to capture its payload. -/
structure Capture where
  mutation : MountMutation
  preImage : MountPreImage
  payload : PayloadRef
  stage : CaptureStage
deriving DecidableEq, Repr

/-- What reached the payload directory and the device. -/
structure PayloadDisk where
  files : Finset String
  written : Finset PayloadRef
  synced : Finset PayloadRef
  entries : Finset String
deriving DecidableEq

/-- The store, its files, and the captures that are under way. `minted` holds every dedicated name
handed out so far. -/
structure PayloadStore where
  state : StoreState
  disk : PayloadDisk
  captures : List Capture
  minted : Finset String
deriving DecidableEq

def PayloadRef.file (payload : PayloadRef) : String := payload.storage.file

namespace PayloadStore

variable (store : PayloadStore)

/-! ## Capturing -/

/-- The checks of `prepare` that come before the capture. -/
def preflight (mutation : MountMutation) (supplied : Bool) : Except String Unit := do
  mutation.validate
  if mutation.requiresPayload ≠ supplied then
    .error ("mount mutation payload mismatch: operation requires_payload=" ++
      toString mutation.requiresPayload ++ " supplied=" ++ toString supplied)
  else .ok ()

/-- A reservation of `length` bytes starts a new segment. -/
def rotatesSegment (length : Nat) : Bool :=
  store.state.currentSegment.all fun segment =>
    0 < segment.len ∧ segmentTargetBytes < segment.len + length

/-- The segment a reservation of `length` bytes goes to, created if the active one is full. -/
def openSegment (length : Nat) : Except String (PayloadStore × ActiveSegment) :=
  match store.state.currentSegment, store.rotatesSegment length with
  | some segment, false => .ok (store, segment)
  | _, _ =>
    let name := segmentName store.state.nextSegmentId
    if name ∈ store.disk.files then .error ("create mount payload segment " ++ name)
    else
      let segment : ActiveSegment := ⟨name, 0⟩
      .ok ({ store with
        state := { store.state with
          nextSegmentId := store.state.nextSegmentId + 1
          currentSegment := some segment
          dirty := { store.state.dirty with directoryDirty := true } }
        disk := { store.disk with files := insert name store.disk.files } }, segment)

/-- Begin to capture a small generation: reserve its range of the active segment. The file is
marked dirty here, before its bytes are written. -/
def reserveSegment (mutation : MountMutation) (preImage : MountPreImage) (length : Nat)
    (contentHash : String) : Except String PayloadStore := do
  preflight mutation true
  if maxSegmentedPayloadBytes < length then .error "payload is not packed into a segment"
  else
    let (store, segment) ← store.openSegment length
    let payload : PayloadRef :=
      ⟨.segment segment.name segment.len, length, payloadHashAlgorithm, contentHash⟩
    return { store with
      state := { store.state with
        currentSegment := some ⟨segment.name, segment.len + length⟩
        dirty := { store.state.dirty with
          files := insert segment.name store.state.dirty.files } }
      captures := store.captures ++ [⟨mutation, preImage, payload, .reserved⟩] }

/-- Begin to capture into a dedicated file: mint its name. -/
def reserveDedicated (mutation : MountMutation) (preImage : MountPreImage) (uuid : String)
    (length : Nat) (contentHash : String) : Except String PayloadStore := do
  preflight mutation true
  let name := dedicatedName uuid
  if name ∈ store.minted then .error "minted payload name is not fresh"
  else
    let payload : PayloadRef := ⟨.dedicatedFile name, length, payloadHashAlgorithm, contentHash⟩
    return { store with
      state := { store.state with reserved := insert name store.state.reserved }
      captures := store.captures ++ [⟨mutation, preImage, payload, .reserved⟩]
      minted := insert name store.minted }

/-- Write the bytes of a capture: a segment range is then ready, a dedicated file still has to be
registered. -/
def writeCapture (index : Nat) : Except String PayloadStore :=
  match store.captures[index]? with
  | some ⟨mutation, preImage, payload, .reserved⟩ =>
    let written := insert payload store.disk.written
    match payload.storage with
    | .segment _ _ => .ok { store with
        disk := { store.disk with written := written }
        captures := store.captures.set index ⟨mutation, preImage, payload, .ready⟩ }
    | .dedicatedFile name =>
      if name ∈ store.disk.files then .error ("create mount payload " ++ name)
      else .ok { store with
        disk := { store.disk with files := insert name store.disk.files, written := written }
        captures := store.captures.set index ⟨mutation, preImage, payload, .written⟩ }
  | _ => .error "no reserved capture"

/-- Hand a written dedicated file to the next sync round. -/
def registerDedicated (index : Nat) : Except String PayloadStore :=
  match store.captures[index]? with
  | some ⟨mutation, preImage, payload, .written⟩ => .ok { store with
      state := { store.state with
        reserved := store.state.reserved.erase payload.file
        dirty := {
          files := insert payload.file store.state.dirty.files
          directoryDirty := true } }
      captures := store.captures.set index ⟨mutation, preImage, payload, .ready⟩ }
  | _ => .error "no written capture"

/-- A capture whose copy failed, or whose prepare was refused, is dropped. A dedicated file that
was never registered is removed. -/
def discardCapture (index : Nat) : Except String PayloadStore :=
  match store.captures[index]? with
  | none => .error "no such capture"
  | some capture =>
    let rest := store.captures.eraseIdx index
    match capture.payload.storage, capture.stage with
    | .dedicatedFile name, .reserved => .ok { store with
        state := { store.state with reserved := store.state.reserved.erase name }
        disk := { store.disk with files := store.disk.files.erase name }
        captures := rest }
    | .dedicatedFile name, .written => .ok { store with
        state := { store.state with reserved := store.state.reserved.erase name }
        disk := { store.disk with files := store.disk.files.erase name }
        captures := rest }
    | _, _ => .ok { store with captures := rest }

/-! ## Syncing and reclaiming -/

/-- Take the pending sync set. -/
def takeDirty : PayloadStore × DirtyPayloads :=
  ({ store with state := { store.state with dirty := ⟨∅, false⟩ } }, store.state.dirty)

/-- Put a set that a failed round did not sync back. -/
def restoreDirty (dirty : DirtyPayloads) : PayloadStore :=
  { store with state := { store.state with dirty := {
    files := store.state.dirty.files ∪ dirty.files
    directoryDirty := store.state.dirty.directoryDirty || dirty.directoryDirty } } }

/-- Sync one payload file; it is opened by its name. -/
def syncFile (name : String) : Except String PayloadStore :=
  if name ∉ store.disk.files then .error ("open mount payload " ++ name ++ " for sync")
  else .ok { store with disk := { store.disk with
    synced := store.disk.synced ∪ store.disk.written.filter (·.file = name) } }

def syncDirectory : PayloadStore :=
  { store with disk := { store.disk with entries := store.disk.entries ∪ store.disk.files } }

def sealActiveSegment : PayloadStore :=
  { store with state := { store.state with currentSegment := none } }

/-- What `reclaim` protects: the active segment, the dirty files and the reserved names. -/
def unreclaimable : Finset String :=
  store.state.dirty.files ∪ store.state.reserved ∪
    (store.state.currentSegment.map fun segment => ({segment.name} : Finset String)).getD ∅

/-- Delete one file. -/
def removeFile (name : String) : PayloadStore :=
  { store with disk := { store.disk with files := store.disk.files.erase name } }

end PayloadStore

end Chevalier.LocalView
