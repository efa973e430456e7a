import Chevalier.Foundations.Places
import Chevalier.Foundations.Schedule

/-!
# The control command consumer

Commands are messages of a JetStream stream that all nodes consume through one durable consumer. A
delivery is worked on in steps: it is filtered by its target node and the partition gate, passes
through duplicate suppression, takes the in-flight locks where its type asks for a single owner,
checks the ownership fence, runs its handler, leaves completion markers, and is acknowledged. Every
step that waits for etcd, the broker or a lock of the process is one step of the model, so that
deliveries interleave there (`exec`). What the world answers is the `Input` of the step.

A message is delivered again until it is acknowledged or terminated, at most as often as the consumer
allows. A node that crashes forgets what its process held and stops its deliveries.
-/

namespace Chevalier.ControlBus

/-! ## Commands -/

/-- The characters a trimmed text does not start or end with. -/
def isWhiteSpace (c : Char) : Bool :=
  (0x09 ≤ c.val && c.val ≤ 0x0d) || c.val = 0x20 || c.val = 0x85 || c.val = 0xa0 ||
    c.val = 0x1680 || (0x2000 ≤ c.val && c.val ≤ 0x200a) || c.val = 0x2028 || c.val = 0x2029 ||
    c.val = 0x202f || c.val = 0x205f || c.val = 0x3000

def trim (text : String) : String :=
  String.ofList ((text.toList.dropWhile isWhiteSpace).reverse.dropWhile isWhiteSpace).reverse

/-- The trimmed text, if there is any. -/
def trimmed (text : Option String) : Option String :=
  (text.map trim).filter fun text => text ≠ ""

abbrev NodeId := String

/-- What a command asks for. Commands of other types are acknowledged without being handled. -/
inductive CommandType
  | reconcileRun
  | execRun
  | execStreamStart
  | execStreamInput
  | execStreamControl
  | other (text : String)
deriving DecidableEq, Repr

/-- Commands that one handler at a time works on. -/
def commandNeedsSingleOwner : CommandType → Bool
  | .execRun | .execStreamStart => true
  | .reconcileRun | .execStreamInput | .execStreamControl | .other _ => false

/-- A command. The session is a field of its payload. -/
structure CommandEnvelope where
  commandId : String
  idempotencyKey : String
  commandType : CommandType
  expectedFence : Option String
  targetNodeId : Option String
  sessionId : Option String
deriving DecidableEq, Repr

/-- What a message carries: a command, or bytes that are none, of which some are JSON. -/
inductive Payload
  | command (envelope : CommandEnvelope)
  | invalid (json : Bool)
deriving DecidableEq, Repr

/-- What a dead letter keeps of a message. Bytes that are no JSON are wrapped in an object, which
reads as a command with no fields. -/
def deadLetterPayload : Payload → Payload
  | .invalid false => .command ⟨"", "", .other "", none, none, none⟩
  | payload => payload

/-- The key of a command in the stores. A command that names none gets a new one with each
delivery, known by the delivery. -/
structure Key where
  text : String
  uuid : Option (Nat × Nat)
deriving DecidableEq, Repr

def CommandEnvelope.namedKey (envelope : CommandEnvelope) : Option Key :=
  if trim envelope.idempotencyKey ≠ "" then some ⟨trim envelope.idempotencyKey, none⟩
  else if trim envelope.commandId ≠ "" then some ⟨trim envelope.commandId, none⟩
  else none

/-- The key under which a delivery is deduplicated. -/
def dedupeKey (envelope : CommandEnvelope) (message attempt : Nat) : Key :=
  envelope.namedKey.getD ⟨"anon-", some (message, attempt)⟩

/-- The etcd key of the completion marker. -/
def completedKey (key : Key) : Key := { key with text := "completed/" ++ key.text }

/-- The etcd key of the in-flight lock. -/
def inflightKey (key : Key) : Key := { key with text := "inflight/" ++ key.text }

/-- The stored fence is the one the command expects. -/
def ownershipFenceAllowsTransition (current expected : Option String) : Bool :=
  match expected with
  | some expected => current = some expected
  | none => current = none

/-- The fence check of a command, given the fence that is stored for its session. -/
def checkSessionFence (envelope : CommandEnvelope) (current : Option String) : Bool :=
  match trimmed envelope.sessionId with
  | none => (trimmed envelope.expectedFence).isNone
  | some _ => ownershipFenceAllowsTransition current (trimmed envelope.expectedFence)

/-! ## Messages and deliveries -/

/-- The part of the configuration that counts here. A limit that is not positive is replaced when the
configuration is read. -/
structure ControlBusConfig where
  commandMaxDeliver : Nat
  maxDeliver_pos : 0 < commandMaxDeliver

/-- Commands are delivered as often as they are by default. -/
def ControlBusConfig.standard : ControlBusConfig := ⟨5, by decide⟩

/-- How a message left the queue. -/
inductive Settlement
  | acked
  | terminated
deriving DecidableEq, Repr

/-- A message with the number of its deliveries. -/
structure Message where
  payload : Payload
  delivered : Nat
  settlement : Option Settlement
deriving DecidableEq, Repr

/-- The next thing to do with a delivery. -/
inductive Phase
  /-- Filter it, and suppress duplicates with the etcd marker or the completion map. -/
  | received
  /-- A first delivery that left its etcd marker: suppress duplicates with the map of the process. -/
  | marked
  /-- A redelivery the process has not seen completed: look for the completion marker in etcd. -/
  | missed
  /-- Take the in-flight lock in etcd. -/
  | admitted
  /-- Take the in-flight lock of the process. -/
  | owning
  /-- Check the fence. -/
  | guarded
  /-- Start the handler. -/
  | cleared
  /-- Wait for the handler. -/
  | running
  /-- Publish the failure of a command that was run. -/
  | failedRun
  /-- Leave the completion marker in the process. -/
  | finished
  /-- Leave the completion marker in etcd. -/
  | noted
  /-- Acknowledge the message. -/
  | acking
  /-- Store the message as a dead letter if this was its last delivery. -/
  | rejected
  /-- Terminate the message. -/
  | terminating
  /-- Nothing. -/
  | done
deriving DecidableEq, Repr

/-- A delivery at a node, with the in-flight locks it is to release. -/
structure Delivery where
  node : NodeId
  phase : Phase
  owner : Bool
  active : Bool
deriving DecidableEq, Repr

/-- A stored dead letter. -/
structure DeadLetter where
  message : Nat
  payload : Payload
deriving DecidableEq, Repr

/-- A value in etcd: a marker, or the delivery that holds a lock. -/
inductive EtcdValue
  | one
  | owner (message attempt : Nat)
deriving DecidableEq, Repr

/-- The queue, its deliveries, the stores, and which messages had a handler run to completion. -/
structure Bus where
  messages : List Message
  delivery : Nat → Nat → Option Delivery
  deadLetters : List DeadLetter
  ran : List Nat
  etcd : Key → Option EtcdValue
  seen : NodeId → Key → Bool
  active : NodeId → Key → Bool
  completed : NodeId → Key → Bool

/-- Nothing was published. -/
def Bus.start : Bus :=
  ⟨[], fun _ _ => none, [], [], fun _ => none, fun _ _ => false, fun _ _ => false,
    fun _ _ => false⟩

namespace Bus

variable (s : Bus)

def envelope (message : Nat) : Option CommandEnvelope :=
  match s.messages[message]? with
  | some ⟨.command envelope, _, _⟩ => some envelope
  | _ => none

/-- The key a command names, as long as it names one. -/
def key (message : Nat) : Option Key :=
  (s.envelope message).bind CommandEnvelope.namedKey

def deliveryKey (message attempt : Nat) : Option Key :=
  (s.envelope message).map fun envelope => dedupeKey envelope message attempt

/-- Change a delivery. -/
def setDelivery (message attempt : Nat) (delivery : Delivery) : Bus :=
  { s with
    delivery := Function.update s.delivery message
      (Function.update (s.delivery message) attempt (some delivery)) }

def setEtcd (key : Key) (value : Option EtcdValue) : Bus :=
  { s with etcd := Function.update s.etcd key value }

def createEtcd (key : Key) (value : EtcdValue) : Bus :=
  if s.etcd key = none then s.setEtcd key (some value) else s

/-- Change an entry of a map that a process keeps. -/
def setMap (map : NodeId → Key → Bool) (node : NodeId) (key : Key) (value : Bool) :
    NodeId → Key → Bool :=
  Function.update map node (Function.update (map node) key value)

/-- Take a message off the queue, unless that was done before. -/
def settle (message : Nat) (settlement : Settlement) : Bus :=
  { s with
    messages := s.messages.modify message fun entry =>
      { entry with settlement := entry.settlement <|> some settlement } }

end Bus

/-! ## Steps -/

/-- What etcd does with a request: it answers, or the answer is lost, in which case the request may
have taken effect. -/
inductive Reply
  | answered
  | unanswered (applied : Bool)
deriving DecidableEq, Repr

/-- What the world answers to a step. `succeeds` is the outcome of the handler, of a publication, or
of an acknowledgement. -/
structure Input where
  gateOpen : Bool
  reply : Reply
  fence : Option String
  succeeds : Bool
deriving DecidableEq, Repr

/-- Everything works out. -/
def Input.fine : Input := ⟨true, .answered, none, true⟩

def targets (envelope : CommandEnvelope) (node : NodeId) : Bool :=
  match trimmed envelope.targetNodeId with
  | some target => target = node
  | none => true

section

variable (config : ControlBusConfig)

/-- The work on a message that carries a command, up to the handler. A message that is put back
(`Nak`) or kept back (`Progress`) stays on the queue. -/
def preflight (s : Bus) (message attempt : Nat) (delivery : Delivery) (envelope : CommandEnvelope)
    (input : Input) : Option Bus :=
  let key := dedupeKey envelope message attempt
  let next (s : Bus) (phase : Phase) := s.setDelivery message attempt { delivery with phase := phase }
  match delivery.phase with
  | .received =>
    if ¬ targets envelope delivery.node then some (next s .done)
    else if ¬ input.gateOpen then some (next s .done)
    else if attempt ≤ 1 then
      match input.reply with
      | .answered =>
        if (s.etcd key).isSome then some (next s .acking)
        else some (next (s.setEtcd key (some .one)) .marked)
      | .unanswered applied => some (next (if applied then s.createEtcd key .one else s) .marked)
    else if s.completed delivery.node key then some (next s .acking)
    else some (next s .missed)
  | .marked =>
    if s.seen delivery.node key then some (next s .acking)
    else some (next { s with seen := Bus.setMap s.seen delivery.node key true } .admitted)
  | .missed =>
    if input.reply = .answered ∧ (s.etcd (completedKey key)).isSome then some (next s .acking)
    else some (next s .admitted)
  | .admitted =>
    if commandNeedsSingleOwner envelope.commandType then
      match input.reply with
      | .answered =>
        if (s.etcd (inflightKey key)).isSome then some (next s .done)
        else some ((s.setEtcd (inflightKey key) (some (.owner message attempt))).setDelivery message
          attempt { delivery with phase := .owning, owner := true })
      | .unanswered applied =>
        some (next (if applied then s.createEtcd (inflightKey key) (.owner message attempt) else s)
          .owning)
    else some (next s .guarded)
  | .owning =>
    if s.active delivery.node key then some (next s .done)
    else some (Bus.setDelivery { s with active := Bus.setMap s.active delivery.node key true } message
      attempt { delivery with phase := .guarded, active := true })
  | .guarded =>
    if input.reply = .answered ∧ checkSessionFence envelope input.fence then some (next s .cleared)
    else some (next s .rejected)
  | _ => none

/-- The handler, and what comes after it. -/
def handle (s : Bus) (message attempt : Nat) (delivery : Delivery) (envelope : CommandEnvelope)
    (input : Input) : Option Bus :=
  let key := dedupeKey envelope message attempt
  let next (s : Bus) (phase : Phase) := s.setDelivery message attempt { delivery with phase := phase }
  let ran : Bus := { s with ran := message :: s.ran }
  match delivery.phase with
  | .cleared => some (next s .running)
  | .running =>
    match envelope.commandType with
    | .reconcileRun | .other _ => some (next ran .finished)
    | .execRun => if input.succeeds then some (next ran .finished) else some (next s .failedRun)
    | .execStreamStart | .execStreamInput | .execStreamControl =>
      if input.succeeds then some (next ran .finished) else some (next s .rejected)
  | .failedRun => if input.succeeds then some (next ran .finished) else some (next s .rejected)
  | .finished =>
    some (next { s with completed := Bus.setMap s.completed delivery.node key true } .noted)
  | .noted =>
    if input.reply = .unanswered false then some (next s .acking)
    else some (next (s.setEtcd (completedKey key) (some .one)) .acking)
  | _ => none

/-- Give a message up, or put it back if it can be delivered again. -/
def handleFailedCommandMessage (s : Bus) (message attempt : Nat) (delivery : Delivery)
    (payload : Payload) (input : Input) : Bus :=
  if config.commandMaxDeliver ≤ attempt then
    Bus.setDelivery
      (if input.succeeds then
        { s with deadLetters := ⟨message, deadLetterPayload payload⟩ :: s.deadLetters }
      else s)
      message attempt { delivery with phase := .terminating }
  else s.setDelivery message attempt { delivery with phase := .done }

def processCommandMessage (s : Bus) (message attempt : Nat) (delivery : Delivery)
    (payload : Payload) (input : Input) : Option Bus :=
  let next (s : Bus) (phase : Phase) := s.setDelivery message attempt { delivery with phase := phase }
  match delivery.phase, payload with
  | .done, _ => none
  | .acking, _ => some (next (if input.succeeds then s.settle message .acked else s) .done)
  | .rejected, payload =>
    some (handleFailedCommandMessage config s message attempt delivery payload input)
  | .terminating, _ =>
    some (next (if input.succeeds then s.settle message .terminated else s) .done)
  | .received, .invalid _ => some (next s .rejected)
  | .received, .command envelope | .marked, .command envelope | .missed, .command envelope
  | .admitted, .command envelope | .owning, .command envelope | .guarded, .command envelope =>
    preflight s message attempt delivery envelope input
  | .cleared, .command envelope | .running, .command envelope | .failedRun, .command envelope
  | .finished, .command envelope | .noted, .command envelope =>
    handle s message attempt delivery envelope input
  | _, .invalid _ => none

end

/-- The process of a node ends. -/
def Bus.crash (s : Bus) (node : NodeId) : Bus :=
  { s with
    delivery := fun message attempt => (s.delivery message attempt).map fun delivery =>
      if delivery.node = node then ⟨node, .done, false, false⟩ else delivery
    seen := Function.update s.seen node fun _ => false
    active := Function.update s.active node fun _ => false
    completed := Function.update s.completed node fun _ => false }

/-- What happens to the bus. -/
inductive Action
  /-- A command is published. -/
  | publish (payload : Payload)
  /-- A dead letter is published again. -/
  | replay (letter : Nat)
  /-- A message is delivered to a node, which may have no room for it. -/
  | deliver (message : Nat) (node : NodeId) (overloaded : Bool)
  /-- A delivery goes on. -/
  | step (message attempt : Nat) (input : Input)
  /-- The in-flight lock of a delivery that is over is released in etcd. -/
  | releaseOwner (message attempt : Nat) (reply : Reply)
  /-- The in-flight lock of a delivery that is over is released in the process. -/
  | releaseActive (message attempt : Nat)
  /-- A process ends. -/
  | crash (node : NodeId)
  /-- A lease of etcd runs out. -/
  | expireLease (key : Key)
  /-- A process drops the old entries of a key. -/
  | expireLocal (node : NodeId) (key : Key)

def exec (config : ControlBusConfig) : Action → Bus → Option Bus
  | .publish payload, s => some { s with messages := s.messages ++ [⟨payload, 0, none⟩] }
  | .replay letter, s =>
    match s.deadLetters[letter]? with
    | some letter => some { s with messages := s.messages ++ [⟨letter.payload, 0, none⟩] }
    | none => none
  | .deliver message node overloaded, s =>
    match s.messages[message]? with
    | some entry =>
      if entry.settlement = none ∧ entry.delivered < config.commandMaxDeliver then
        some (Bus.setDelivery
          { s with messages := s.messages.set message { entry with delivered := entry.delivered + 1 } }
          message (entry.delivered + 1)
          ⟨node, if overloaded then .done else .received, false, false⟩)
      else none
    | none => none
  | .step message attempt input, s =>
    match s.messages[message]?, s.delivery message attempt with
    | some entry, some delivery =>
      processCommandMessage config s message attempt delivery entry.payload input
    | _, _ => none
  | .releaseOwner message attempt reply, s =>
    match s.delivery message attempt, s.deliveryKey message attempt with
    | some delivery, some key =>
      if delivery.phase = .done ∧ delivery.owner then
        some (Bus.setDelivery
          (if reply ≠ .unanswered false ∧ s.etcd (inflightKey key) = some (.owner message attempt) then
            s.setEtcd (inflightKey key) none
          else s)
          message attempt { delivery with owner := false })
      else none
    | _, _ => none
  | .releaseActive message attempt, s =>
    match s.delivery message attempt, s.deliveryKey message attempt with
    | some delivery, some key =>
      if delivery.phase = .done ∧ delivery.active then
        some (Bus.setDelivery { s with active := Bus.setMap s.active delivery.node key false }
          message attempt { delivery with active := false })
      else none
    | _, _ => none
  | .crash node, s => some (s.crash node)
  | .expireLease key, s => some (s.setEtcd key none)
  | .expireLocal node key, s =>
    some { s with
      seen := Bus.setMap s.seen node key false
      active := Bus.setMap s.active node key false
      completed := Bus.setMap s.completed node key false }

end Chevalier.ControlBus
