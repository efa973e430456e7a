import Chevalier.LocalView.Publish.Batch

/-!
# Publication planning

`planRuns` splits a publish batch into dependency-ordered route batches. Its first pass folds a
newly created file's mode and first content generation into one write that needs the name to be
free. Its second pass schedules the remaining events by their dependency keys: unrelated paths may
cross route-class boundaries, conflicting pairs keep log order, and the members of a content run
are mutually independent.

`Linearizes` lists the orders in which a plan may reach the gateway.
-/

namespace Chevalier.LocalView

open PublishEnv

/-! ## The first pass: folding creations -/

/-- The creation may be folded into the write, given everything between them. -/
def creationFoldsIntoWrite (create write : PublishEvent) (between : List PublishEvent) : Bool :=
  match create.mutation, write.mutation with
  | .createFile created _, .replaceFile written _ expectedFileId _ =>
    if created ≠ written ∨ write.sequence ≤ create.sequence then false
    else if (remoteFileId expectedFileId).isSome then false
    else
      !between.any fun event =>
        if event.mutation.isLocalOnly then false
        else
          match event.mutation with
          | .setMode path _ =>
            path ≠ created && dependencySetsConflict create.dependencyKeys event.dependencyKeys
          | _ => dependencySetsConflict create.dependencyKeys event.dependencyKeys
  | _, _ => false

/-- A place in the plan: the batch's event, the event planned for it, and whether another event
carries it. -/
structure PlanSlot where
  event : PublishEvent
  planned : PublishEvent
  folded : Bool
deriving DecidableEq, Repr

/-- The event planned as it is. -/
def PlanSlot.ofEvent (event : PublishEvent) : PlanSlot := ⟨event, event, false⟩

def PlanSlot.modeSetOn (slot : PlanSlot) (path : MountPath) : Option Nat :=
  match slot.event.mutation with
  | .setMode changed mode => if changed = path then some mode else none
  | _ => none

/-- The slot's event is a whole-file generation of the path. -/
def PlanSlot.writes (slot : PlanSlot) (path : MountPath) : Bool :=
  match slot.event.mutation with
  | .replaceFile written _ _ _ => written == path
  | _ => false

def absorbModes (path : MountPath) : Nat → List PlanSlot → Nat × List PlanSlot
  | mode, [] => (mode, [])
  | mode, slot :: rest =>
    match slot.modeSetOn path with
    | some mode' =>
      let (finalMode, rest') := absorbModes path mode' rest
      (finalMode, { slot with folded := true } :: rest')
    | none =>
      let (finalMode, rest') := absorbModes path mode rest
      (finalMode, slot :: rest')

/-- Absorb the mode changes of the path up to the next event that conflicts with its creation. -/
def absorbTrailingModes (path : MountPath) (creationKeys : List DependencyKey) :
    Nat → List PlanSlot → Nat × List PlanSlot
  | mode, [] => (mode, [])
  | mode, slot :: rest =>
    match slot.modeSetOn path with
    | some mode' =>
      let (finalMode, rest') := absorbTrailingModes path creationKeys mode' rest
      (finalMode, { slot with folded := true } :: rest')
    | none =>
      if slot.event.mutation.isLocalOnly = false ∧
          dependencySetsConflict creationKeys slot.event.dependencyKeys = true then
        (mode, slot :: rest)
      else
        let (finalMode, rest') := absorbTrailingModes path creationKeys mode rest
        (finalMode, slot :: rest')

def PublishEvent.withMutation (event : PublishEvent) (mutation : MountMutation) : PublishEvent :=
  { event with event := { event.event with mutation := mutation } }

/-- Move a creation's mode and its precondition onto a write. -/
def PublishEvent.withCreation (event : PublishEvent) (finalMode : Nat) : PublishEvent :=
  match event.mutation with
  | .replaceFile path _ expectedFileId _ =>
    event.withMutation (.replaceFile path finalMode expectedFileId (some absentPrecondition))
  | _ => event

/-- Fold the creation at the head of the slots into the first later write of its path. -/
def foldHead (head : PlanSlot) (rest : List PlanSlot) : List PlanSlot :=
  match head.event.mutation with
  | .createFile path createdMode =>
    match rest.span fun slot => !slot.writes path with
    | (between, write :: after) =>
      if creationFoldsIntoWrite head.event write.event (between.map PlanSlot.event) then
        let (mode, between') := absorbModes path createdMode between
        let (finalMode, after') :=
          absorbTrailingModes path head.event.dependencyKeys mode after
        { head with folded := true } :: between' ++
          { write with planned := write.planned.withCreation finalMode } :: after'
      else head :: rest
    | (_, []) => head :: rest
  | _ => head :: rest

/-- The body of the folding loop at one index. -/
def foldCreation (slots : List PlanSlot) (index : Nat) : List PlanSlot :=
  slots.take index ++
    match slots.drop index with
    | head :: rest => foldHead head rest
    | [] => []

/-- The folding loop over every index of the batch. -/
def foldCreations (events : List PublishEvent) : List PlanSlot :=
  (List.range events.length).foldl foldCreation (events.map PlanSlot.ofEvent)

/-- The wire item of a slot, if it has one. -/
def PlanSlot.wire (slot : PlanSlot) : Option PublishEvent :=
  if slot.folded = false ∧ slot.planned.mutation.isLocalOnly = false then some slot.planned
  else none

/-! ## The second pass: scheduling -/

/-- The route a wire event takes. -/
inductive RunClass
  | namespaceMany
  | content
deriving DecidableEq, Repr

/-- The route of an event. -/
def PublishEvent.runClass (event : PublishEvent) : RunClass :=
  if event.mutation.isContent then .content else .namespaceMany

/-- One issuable unit of a plan. -/
inductive PublishRun
  | namespaceMany (events : List PublishEvent) (throughSequence : Nat)
  | content (events : List PublishEvent) (throughSequence : Nat)
  | cursor (throughSequence : Nat)
deriving DecidableEq, Repr

/-- Pull every event of the class that no earlier waiting event conflicts with. A selected content
event blocks a conflicting later one too, because uploads of one run are concurrent. -/
def selectRun (runClass : RunClass) (selected waiting : List PublishEvent) :
    List PublishEvent → List PublishEvent × List PublishEvent
  | [] => (selected, waiting)
  | candidate :: rest =>
    let conflicts (predecessor : PublishEvent) : Bool :=
      dependencySetsConflict predecessor.dependencyKeys candidate.dependencyKeys
    if candidate.runClass = runClass ∧ waiting.any conflicts = false ∧
        (runClass = .content → selected.any conflicts = false) then
      selectRun runClass (selected ++ [candidate]) waiting rest
    else selectRun runClass selected (waiting ++ [candidate]) rest

def RunClass.run (runClass : RunClass) (events : List PublishEvent) : PublishRun :=
  let throughSequence := (events.map PublishEvent.sequence).foldl max 0
  match runClass with
  | .namespaceMany => .namespaceMany events throughSequence
  | .content => .content events throughSequence

/-- The scheduling loop; every run takes at least its first event, so the number of events is fuel
enough. -/
def scheduleRuns : Nat → List PublishEvent → List PublishRun
  | 0, _ => []
  | _ + 1, [] => []
  | fuel + 1, first :: rest =>
    let (selected, remaining) := selectRun first.runClass [] [] (first :: rest)
    first.runClass.run selected :: scheduleRuns fuel remaining

def checkIncreasing : List PublishEvent → Except String Unit
  | first :: second :: rest =>
    if second.sequence ≤ first.sequence then
      .error ("publish batch sequences are not strictly increasing (" ++
        toString first.sequence ++ " then " ++ toString second.sequence ++ ")")
    else checkIncreasing (second :: rest)
  | _ => .ok ()

def checkThrough (batch : PublishBatch) : Except String Unit :=
  match batch.events.getLast? with
  | some last =>
    if batch.throughSequence < last.sequence then
      .error ("publish batch through sequence " ++ toString batch.throughSequence ++
        " is behind its last event " ++ toString last.sequence)
    else .ok ()
  | none => .ok ()

/-- Split a contiguous committed prefix into dependency-ordered route batches. -/
def planRuns (batch : PublishBatch) : Except String (List PublishRun) := do
  checkIncreasing batch.events
  checkThrough batch
  let publishable := (foldCreations batch.events).filterMap PlanSlot.wire
  if publishable.isEmpty then
    return if 0 < batch.throughSequence then [.cursor batch.throughSequence] else []
  return scheduleRuns publishable.length publishable

/-- The orders in which a plan may be applied: runs in order, the members of a namespace run in
order, the members of a content run in any order. -/
inductive Linearizes : List PublishRun → List PublishEvent → Prop
  | nil : Linearizes [] []
  | namespaceMany {runs order} (events : List PublishEvent) (throughSequence : Nat)
      (h : Linearizes runs order) :
      Linearizes (.namespaceMany events throughSequence :: runs) (events ++ order)
  | content {runs order} (events uploads : List PublishEvent) (throughSequence : Nat)
      (hperm : events.Perm uploads) (h : Linearizes runs order) :
      Linearizes (.content events throughSequence :: runs) (uploads ++ order)
  | cursor {runs order} (throughSequence : Nat) (h : Linearizes runs order) :
      Linearizes (.cursor throughSequence :: runs) order

end Chevalier.LocalView
