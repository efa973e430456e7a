import Chevalier.ControlBus.Command

/-!
# The active exec streams of a node

A start command for an exec stream looks for an entry of its stream, starts the process in the guest
or attaches to it, claims its control, registers an entry, and leaves a producer behind that removes
the entry when it ends. Between these steps other handlers run (`exec`). Input for a stream is
checked against the registered entry (`handleExecStreamInputCommand`).

An entry is looked for and removed under the stream alone, whatever its epoch. `Orderly` asks that a
start looks for an entry only when no other start of its stream is about to register one, and that an
entry it finds is not older than it.

* `Sound.step`: in orderly steps, one start at a time works on a stream, and the entry is its own.
* `entry_follows_newest`: what follows for runs.
-/

namespace Chevalier.ControlBus.ExecStream

open Function Schedule

/-! ## Payloads -/

/-- What a start command carries. A positive resume point makes it a resume command. -/
structure ExecStreamStartPayload where
  streamId : String
  logicalStreamId : String
  producerEpoch : Nat
  resumeAfterEventSeq : Nat
  sessionId : String
  vmId : String
  command : String
deriving DecidableEq, Repr

def ExecStreamStartPayload.stream (payload : ExecStreamStartPayload) : String :=
  if trim payload.logicalStreamId = "" then trim payload.streamId else trim payload.logicalStreamId

def ExecStreamStartPayload.refusal (payload : ExecStreamStartPayload) : Option String :=
  if payload.stream = "" then
    some "exec.stream.start payload missing logical_stream_id/stream_id"
  else if trim payload.vmId = "" then
    some "exec.stream.start payload missing vm_id"
  else if trim payload.command = "" ∧ payload.resumeAfterEventSeq = 0 then
    some "exec.stream.start payload missing command"
  else none

/-- What a command with input for a stream carries. -/
structure ExecStreamInputPayload where
  streamId : String
  inputSeq : Nat
  inputKind : String
  producerEpoch : Option Nat
  sessionId : String
  vmId : String
  targetNodeId : String
  signal : Option Int
deriving DecidableEq, Repr

/-! ## The registry -/

/-- A registered stream. The channel to the process and the counter of its input belong to the start
that registered it, known by its number. -/
structure ActiveExecStream where
  producer : Nat
  sessionId : String
  vmId : String
  nodeId : NodeId
  producerEpoch : Nat
deriving DecidableEq, Repr

/-- How far the handler of a start command has come, and then its producer. -/
inductive Phase
  /-- Check the payload, and look for an entry. -/
  | received
  /-- Get the machine ready, and start the process or attach to it. -/
  | starting
  /-- Claim the control of the process. -/
  | claiming
  /-- Register the entry. -/
  | inserting
  /-- Publish the started event. -/
  | announcing
  /-- Take the entry back, since the started event was not published. -/
  | withdrawing (error : String)
  /-- The handler has returned, and its producer runs. -/
  | producing
  /-- The producer has ended. -/
  | ended
  /-- There was an entry, of this start. -/
  | ignored (producer : Nat)
  /-- A terminal error event was published in place of a producer. -/
  | gaveUp
  /-- The handler has returned an error. -/
  | failed (error : String)
deriving DecidableEq, Repr

/-- The starts that a node has received, what it has registered, and the input that each start's
channel has taken. -/
structure Registry where
  payloads : List ExecStreamStartPayload
  phase : Nat → Phase
  active : String → Option ActiveExecStream
  lastInputSeq : Nat → Nat

namespace Registry

/-- Nothing was received. -/
def start : Registry := ⟨[], fun _ => .received, fun _ => none, fun _ => 0⟩

/-- The handler goes on to a phase. -/
def enter (s : Registry) (i : Nat) (phase : Phase) : Registry :=
  { s with phase := update s.phase i phase }

/-- A start command arrives. -/
def receive (s : Registry) (payload : ExecStreamStartPayload) : Registry :=
  { s with
    payloads := s.payloads ++ [payload]
    phase := update s.phase s.payloads.length .received }

/-- The entry of a stream is removed, whichever it is. -/
def remove (s : Registry) (stream : String) : Registry :=
  { s with active := update s.active stream none }

/-- A start registers its entry, with a new channel. -/
def insert (s : Registry) (i : Nat) (stream : String) (entry : ActiveExecStream) : Registry :=
  { s with
    active := update s.active stream (some entry)
    lastInputSeq := update s.lastInputSeq i 0 }

end Registry

def ExecStreamStartPayload.entry (payload : ExecStreamStartPayload) (nodeId : NodeId) (i : Nat) :
    ActiveExecStream :=
  ⟨i, payload.sessionId, payload.vmId, nodeId, payload.producerEpoch⟩

/-! ## Input -/

/-- What the channel to the process makes of a request, or for a signal the guest. -/
inductive Forwarding
  | taken
  | busy
  | closed
deriving DecidableEq, Repr

/-- Addition of 64-bit numbers that stops at the largest. -/
def saturatingAdd (a b : Nat) : Nat := min (a + b) (2 ^ 64 - 1)

/-- The command names the owner that is registered. -/
def validateExecInputIdentity (active : ActiveExecStream) (payload : ExecStreamInputPayload) :
    Except String Unit :=
  if payload.producerEpoch ≠ some active.producerEpoch ∨ payload.sessionId ≠ active.sessionId ∨
      payload.vmId ≠ active.vmId ∨ payload.targetNodeId ≠ active.nodeId then
    .error "stale or mismatched exec stream owner"
  else .ok ()

/-- Input in order goes to the channel. -/
def forwardInput (payload : ExecStreamInputPayload) (forwarding : Forwarding) (last : Nat) :
    Except String Nat :=
  if payload.inputSeq = 0 then .error "input_seq must be positive"
  else if payload.inputSeq ≤ last then .ok last
  else if payload.inputSeq ≠ saturatingAdd last 1 then
    .error ("exec stream input out of order: got " ++ toString payload.inputSeq ++ ", expected " ++
      toString (saturatingAdd last 1))
  else match forwarding with
    | .taken => .ok payload.inputSeq
    | .busy => .error "exec stream stdin queue busy"
    | .closed => .error "exec stream stdin closed"

/-- Handle a command with input: the new count of the channel, with the start it belongs to. -/
def handleExecStreamInputCommand (payload : ExecStreamInputPayload) (forwarding : Forwarding)
    (s : Registry) : Except String (Nat × Nat) :=
  match s.active payload.streamId with
  | none => .error ("exec stream is not active: " ++ payload.streamId)
  | some active => do
    validateExecInputIdentity active payload
    let last := s.lastInputSeq active.producer
    if payload.inputKind = "signal" then
      match payload.signal, forwarding with
      | none, _ => .error "missing exec signal"
      | some _, .taken => .ok (active.producer, last)
      | some _, _ => .error "forward exec stream signal"
    else if payload.inputKind = "stdin" ∨ payload.inputKind = "eof" then
      return (active.producer, ← forwardInput payload forwarding last)
    else .error ("unsupported exec stream input kind: " ++ payload.inputKind)

/-! ## Steps -/

/-- How the start of the process came out. -/
inductive Startup
  | attached
  | gaveUp
  | failed (error : String)
deriving DecidableEq, Repr

/-- What the guest answers to a claim. -/
inductive ClaimReply
  | granted
  | exited
  | refused (error : String)
deriving DecidableEq, Repr

/-- A step of a handler, of a producer or of a command with input. -/
inductive Action
  | receive (payload : ExecStreamStartPayload)
  | check (i : Nat)
  | startup (i : Nat) (result : Startup)
  | claim (i : Nat) (reply : ClaimReply)
  | insert (i : Nat)
  | announce (i : Nat) (error : Option String)
  | withdraw (i : Nat)
  | finish (i : Nat)
  | input (payload : ExecStreamInputPayload) (forwarding : Forwarding)
deriving DecidableEq, Repr

/-- A handler's step, from the phase it must have reached. -/
def Registry.at (s : Registry) (i : Nat) (next : ExecStreamStartPayload → Phase → Option Registry) :
    Option Registry :=
  (s.payloads[i]?).bind fun payload => next payload (s.phase i)

/-- One step of a node. -/
def exec (nodeId : NodeId) : Action → Registry → Option Registry
  | .receive payload, s => some (s.receive payload)
  | .check i, s => s.at i fun payload phase =>
    match phase with
    | .received =>
      match payload.refusal with
      | some error => some (s.enter i (.failed error))
      | none =>
        -- The epoch of the entry is not looked at.
        match s.active payload.stream with
        | some active => some (s.enter i (.ignored active.producer))
        | none => some (s.enter i .starting)
    | _ => none
  | .startup i result, s => s.at i fun _ phase =>
    match phase, result with
    | .starting, .attached => some (s.enter i .claiming)
    | .starting, .gaveUp => some (s.enter i .gaveUp)
    | .starting, .failed error => some (s.enter i (.failed error))
    | _, _ => none
  | .claim i reply, s => s.at i fun _ phase =>
    match phase, reply with
    | .claiming, .granted | .claiming, .exited => some (s.enter i .inserting)
    | .claiming, .refused error =>
      some (s.enter i (.failed ("claim exec stream control: " ++ error)))
    | _, _ => none
  | .insert i, s => s.at i fun payload phase =>
    match phase with
    | .inserting =>
      some ((s.insert i payload.stream (payload.entry nodeId i)).enter i .announcing)
    | _ => none
  | .announce i error, s => s.at i fun _ phase =>
    match phase, error with
    | .announcing, none => some (s.enter i .producing)
    | .announcing, some error => some (s.enter i (.withdrawing error))
    | _, _ => none
  | .withdraw i, s => s.at i fun payload phase =>
    match phase with
    | .withdrawing error =>
      if (s.active payload.stream).any (·.producerEpoch = payload.producerEpoch) then
        some ((s.remove payload.stream).enter i (.failed error))
      else some (s.enter i (.failed error))
    | _ => none
  | .finish i, s => s.at i fun payload phase =>
    match phase with
    | .producing => some ((s.remove payload.stream).enter i .ended)
    | _ => none
  | .input payload forwarding, s =>
    match handleExecStreamInputCommand payload forwarding s with
    | .ok (producer, last) =>
      some { s with lastInputSeq := update s.lastInputSeq producer last }
    | .error _ => some s

/-! ## What a step does -/

/-- The start has found no entry, and has not registered its own. -/
def Phase.pending : Phase → Bool
  | .starting | .claiming | .inserting => true
  | _ => false

/-- The start has registered its entry, and has not taken it back. -/
def Phase.registered : Phase → Bool
  | .announcing | .withdrawing _ | .producing => true
  | _ => false

/-- The start is past its registration, or will not come to it. -/
def Phase.past : Phase → Bool
  | .received | .starting | .claiming | .inserting => false
  | _ => true

theorem not_registered_of_pending {ph : Phase} (h : ph.pending = true) :
    ph.registered = false ∧ ph.past = false := by
  cases ph <;> cases h <;> exact ⟨rfl, rfl⟩

theorem past_of_registered {ph : Phase} (h : ph.registered = true) : ph.past = true := by
  cases ph <;> cases h <;> rfl

/-- The steps of a node, by what they do to the registry. -/
inductive Transition (nodeId : NodeId) (s : Registry) : Action → Registry → Prop
  | receive (payload) : Transition nodeId s (.receive payload) (s.receive payload)
  | refuse {i payload error} (hpayload : s.payloads[i]? = some payload)
      (hphase : s.phase i = .received) : Transition nodeId s (.check i) (s.enter i (.failed error))
  | ignore {i payload active} (hpayload : s.payloads[i]? = some payload)
      (hphase : s.phase i = .received) (hactive : s.active payload.stream = some active) :
      Transition nodeId s (.check i) (s.enter i (.ignored active.producer))
  | pass {i payload} (hpayload : s.payloads[i]? = some payload) (hphase : s.phase i = .received)
      (hactive : s.active payload.stream = none) :
      Transition nodeId s (.check i) (s.enter i .starting)
  | prepare {action i payload phase} (hpayload : s.payloads[i]? = some payload)
      (hphase : (s.phase i).pending = true) (hnext : phase.pending = true) :
      Transition nodeId s action (s.enter i phase)
  | giveUp {action i payload phase} (hpayload : s.payloads[i]? = some payload)
      (hphase : (s.phase i).pending = true)
      (hnext : phase = .gaveUp ∨ ∃ error, phase = .failed error) :
      Transition nodeId s action (s.enter i phase)
  | insert {i payload} (hpayload : s.payloads[i]? = some payload) (hphase : s.phase i = .inserting) :
      Transition nodeId s (.insert i)
        ((s.insert i payload.stream (payload.entry nodeId i)).enter i .announcing)
  | announce {i payload error phase} (hpayload : s.payloads[i]? = some payload)
      (hphase : s.phase i = .announcing)
      (hnext : phase = .producing ∨ ∃ text, phase = .withdrawing text) :
      Transition nodeId s (.announce i error) (s.enter i phase)
  | withdraw {i payload error active} (hpayload : s.payloads[i]? = some payload)
      (hphase : s.phase i = .withdrawing error) (hactive : s.active payload.stream = some active)
      (hepoch : active.producerEpoch = payload.producerEpoch) :
      Transition nodeId s (.withdraw i) ((s.remove payload.stream).enter i (.failed error))
  | withdrawn {i payload error} (hpayload : s.payloads[i]? = some payload)
      (hphase : s.phase i = .withdrawing error)
      (hother : ∀ active, s.active payload.stream = some active →
        active.producerEpoch ≠ payload.producerEpoch) :
      Transition nodeId s (.withdraw i) (s.enter i (.failed error))
  | finish {i payload} (hpayload : s.payloads[i]? = some payload) (hphase : s.phase i = .producing) :
      Transition nodeId s (.finish i) ((s.remove payload.stream).enter i .ended)
  | input {payload forwarding} (counts : Nat → Nat) :
      Transition nodeId s (.input payload forwarding) { s with lastInputSeq := counts }

theorem Registry.at_eq_some {s t : Registry} {i : Nat}
    {next : ExecStreamStartPayload → Phase → Option Registry} :
    s.at i next = some t ↔ ∃ pa, s.payloads[i]? = some pa ∧ next pa (s.phase i) = some t := by
  simp [Registry.at, Option.bind_eq_some_iff]

section

variable {ni : NodeId} {s t : Registry} {i : Nat}

theorem transition_of_check (h : exec ni (.check i) s = some t) :
    Transition ni s (.check i) t := by
  simp only [exec, Registry.at_eq_some] at h
  obtain ⟨pa, hpayload, h⟩ := h
  cases hp : s.phase i with
  | received =>
    rw [hp] at h
    cases hr : pa.refusal with
    | some =>
      rw [hr] at h
      cases h
      exact .refuse hpayload hp
    | none =>
      cases ha : s.active pa.stream with
      | some =>
        simp only [hr, ha, Option.some.injEq] at h
        cases h
        exact .ignore hpayload hp ha
      | none =>
        simp only [hr, ha, Option.some.injEq] at h
        cases h
        exact .pass hpayload hp ha
  | _ =>
    rw [hp] at h
    cases h

theorem transition_of_withdraw (h : exec ni (.withdraw i) s = some t) :
    Transition ni s (.withdraw i) t := by
  simp only [exec, Registry.at_eq_some] at h
  obtain ⟨_, hpayload, h⟩ := h
  cases hp : s.phase i <;> rw [hp] at h <;> try cases h
  dsimp only at h
  split at h
  · next hsa =>
    obtain ⟨ac, ha, he⟩ := (Option.any_eq_true _ _).1 hsa
    cases h
    exact .withdraw hpayload hp ha (of_decide_eq_true he)
  · next ho =>
    cases h
    refine .withdrawn hpayload hp fun ac ha he => ho ?_
    simp [ha, he]

/-- What the steps of a node do. -/
theorem transition_of_exec {a : Action} (h : exec ni a s = some t) :
    Transition ni s a t := by
  cases a with
  | receive pa =>
    cases h
    exact .receive pa
  | check => exact transition_of_check h
  | startup i r =>
    simp only [exec, Registry.at_eq_some] at h
    obtain ⟨pa, hpayload, h⟩ := h
    cases hp : s.phase i <;> rw [hp] at h <;> try cases h
    have hpe : (s.phase i).pending = true := by rw [hp]; rfl
    cases r <;> cases h
    · exact .prepare hpayload hpe rfl
    · exact .giveUp hpayload hpe (.inl rfl)
    · exact .giveUp hpayload hpe (.inr ⟨_, rfl⟩)
  | claim i re =>
    simp only [exec, Registry.at_eq_some] at h
    obtain ⟨pa, hpayload, h⟩ := h
    cases hp : s.phase i <;> rw [hp] at h <;> try cases h
    have hpe : (s.phase i).pending = true := by rw [hp]; rfl
    cases re <;> cases h
    · exact .prepare hpayload hpe rfl
    · exact .prepare hpayload hpe rfl
    · exact .giveUp hpayload hpe (.inr ⟨_, rfl⟩)
  | insert i =>
    simp only [exec, Registry.at_eq_some] at h
    obtain ⟨pa, hpayload, h⟩ := h
    cases hp : s.phase i <;> rw [hp] at h <;> try cases h
    exact .insert hpayload hp
  | announce i e =>
    simp only [exec, Registry.at_eq_some] at h
    obtain ⟨pa, hpayload, h⟩ := h
    cases hp : s.phase i <;> rw [hp] at h <;> try cases h
    cases e <;> cases h
    · exact .announce hpayload hp (.inl rfl)
    · exact .announce hpayload hp (.inr ⟨_, rfl⟩)
  | withdraw => exact transition_of_withdraw h
  | finish i =>
    simp only [exec, Registry.at_eq_some] at h
    obtain ⟨pa, hpayload, h⟩ := h
    cases hp : s.phase i <;> rw [hp] at h <;> try cases h
    exact .finish hpayload hp
  | input =>
    simp only [exec] at h
    split at h <;> cases h
    · exact .input _
    · exact .input s.lastInputSeq

end

/-! ## One start at a time -/

/-- No start of the stream is between its look for an entry and its registration. -/
def Registry.Idle (s : Registry) (stream : String) : Prop :=
  ∀ j < s.payloads.length, ∀ other ∈ s.payloads[j]?, other.stream = stream →
    (s.phase j).pending = false

instance (s : Registry) (stream : String) : Decidable (s.Idle stream) :=
  inferInstanceAs (Decidable (∀ j < s.payloads.length, _))

/-- The start may be left to the owner that is registered: that is not older, and of the same session
and machine. -/
def ExecStreamStartPayload.LeftTo (payload : ExecStreamStartPayload) (active : ActiveExecStream) :
    Prop :=
  payload.producerEpoch ≤ active.producerEpoch ∧ active.sessionId = payload.sessionId ∧
    active.vmId = payload.vmId

instance (payload : ExecStreamStartPayload) (active : ActiveExecStream) :
    Decidable (payload.LeftTo active) :=
  inferInstanceAs (Decidable (_ ∧ _))

/-- A start looks for an entry while no start of its stream is about to register one. An entry that it
finds is one it may be left to, and has its epoch while the started event is outstanding. -/
def Orderly : Action → Registry → Prop
  | .check i, s => ∀ payload ∈ s.payloads[i]?, s.Idle payload.stream ∧
    ∀ active ∈ s.active payload.stream, payload.LeftTo active ∧
      (s.phase active.producer = .announcing → payload.producerEpoch = active.producerEpoch)
  | .receive _, _ | .startup _ _, _ | .claim _ _, _ | .insert _, _ | .announce _ _, _
  | .withdraw _, _ | .finish _, _ | .input _ _, _ => True

instance (action : Action) (s : Registry) : Decidable (Orderly action s) :=
  match action with
  | .check i => inferInstanceAs (Decidable (∀ payload ∈ s.payloads[i]?, _))
  | .receive _ | .startup _ _ | .claim _ _ | .insert _ | .announce _ _ | .withdraw _ | .finish _
  | .input _ _ => inferInstanceAs (Decidable True)

/-- The start was left to another one, which is past its registration. -/
def Registry.Left (nodeId : NodeId) (s : Registry) (payload : ExecStreamStartPayload)
    (producer : Nat) : Prop :=
  ∃ other, s.payloads[producer]? = some other ∧ other.stream = payload.stream ∧
    payload.LeftTo (other.entry nodeId producer) ∧ (s.phase producer).past = true ∧
    (s.phase producer = .announcing → payload.producerEpoch = other.producerEpoch)

/-- One start at a time works on a stream, and what is registered is its entry. -/
structure Sound (nodeId : NodeId) (s : Registry) : Prop where
  /-- An entry is that of a start which has registered it. -/
  entry : ∀ stream active, s.active stream = some active →
    ∃ payload, s.payloads[active.producer]? = some payload ∧ payload.stream = stream ∧
      active = payload.entry nodeId active.producer ∧ (s.phase active.producer).registered = true
  /-- A start that has registered its entry finds it registered. -/
  registered : ∀ (i : Nat) payload, s.payloads[i]? = some payload → (s.phase i).registered = true →
    s.active payload.stream = some (payload.entry nodeId i)
  /-- While a start is about to register its entry, no other start of its stream is, and none has. -/
  alone : ∀ (i j : Nat) payload other, s.payloads[i]? = some payload → s.payloads[j]? = some other →
    other.stream = payload.stream → (s.phase i).pending = true →
    (s.phase j).pending = true ∨ (s.phase j).registered = true → j = i
  /-- A start is left to one that is not older. -/
  ignored : ∀ (i : Nat) payload producer, s.payloads[i]? = some payload →
    s.phase i = .ignored producer → s.Left nodeId payload producer

namespace Registry

variable {s : Registry} {i j : Nat} {pa o : ExecStreamStartPayload}

theorem enter_phase_self (ph : Phase) : (s.enter i ph).phase i = ph :=
  update_self ..

theorem enter_phase_of_ne (s : Registry) (ph : Phase) (h : j ≠ i) :
    (s.enter i ph).phase j = s.phase j :=
  update_of_ne h ..

@[simp] theorem enter_active (s : Registry) (ph : Phase) : (s.enter i ph).active = s.active :=
  rfl

theorem remove_active_self (s : Registry) (st : String) :
    (s.remove st).active st = none :=
  update_self ..

theorem remove_active_of_ne (s : Registry) {st s' : String} (h : s' ≠ st) :
    (s.remove st).active s' = s.active s' :=
  update_of_ne h ..

theorem insert_active (s : Registry) (st : String) (e : ActiveExecStream) :
    (s.insert i st e).active = update s.active st (some e) :=
  rfl

theorem receive_of_mem (pa : ExecStreamStartPayload) (h : s.payloads[j]? = some o) :
    (s.receive pa).payloads[j]? = some o ∧ (s.receive pa).phase j = s.phase j := by
  have hlt := lt_of_getElem? h
  exact ⟨getElem?_append_of_some h, update_of_ne (by omega) ..⟩

/-- A start stays left to another one, since that goes on but does not go back. -/
theorem Left.turn {ni : NodeId} {t : Registry} {producer : Nat}
    (h : s.Left ni pa producer) (hpa : t.payloads = s.payloads)
    (hph : ∀ j, j ≠ i → t.phase j = s.phase j)
    (hpas : (s.phase i).past = true → (t.phase i).past = true ∧ t.phase i ≠ .announcing) :
    t.Left ni pa producer := by
  obtain ⟨o, ho, hst, hl, hp, he⟩ := h
  refine ⟨o, hpa ▸ ho, hst, hl, ?_⟩
  by_cases hi : producer = i
  · subst hi
    exact ⟨(hpas hp).1, fun h => absurd h (hpas hp).2⟩
  · rw [hph producer hi]
    exact ⟨hp, he⟩

/-- A start that has done something was there before. -/
theorem mem_of_receive (h : (s.receive pa).payloads[j]? = some o)
    (hp : (s.receive pa).phase j ≠ .received) :
    s.payloads[j]? = some o ∧ (s.receive pa).phase j = s.phase j := by
  have hne : j ≠ s.payloads.length := by
    rintro rfl
    exact hp (update_self ..)
  exact ⟨(getElem?_concat_cases h).resolve_right fun hn => hne hn.1, update_of_ne hne ..⟩

end Registry

namespace Sound

variable {ni : NodeId} {s t : Registry} {i : Nat} {pa : ExecStreamStartPayload}
  {ph : Phase}

theorem start : Sound ni .start where
  entry _ _ h := nomatch h
  registered _ _ h := nomatch h
  alone _ _ _ _ h := nomatch h
  ignored _ _ _ h := nomatch h

theorem receive (hs : Sound ni s) (pa : ExecStreamStartPayload) :
    Sound ni (s.receive pa) := by
  refine ⟨fun st ac ha => ?_, fun j o hj hp => ?_, fun j k o f hj hk hst hpe hp => ?_,
    fun j o p hj hp => ?_⟩
  · obtain ⟨f, hf, hst, he, hp⟩ := hs.entry st ac ha
    obtain ⟨hf', hp'⟩ := Registry.receive_of_mem pa hf
    exact ⟨f, hf', hst, he, by rw [hp', hp]⟩
  · obtain ⟨hj', hp'⟩ := Registry.mem_of_receive hj (by rintro h; rw [h] at hp; cases hp)
    exact hs.registered j o hj' (hp' ▸ hp)
  · obtain ⟨hj', hj''⟩ := Registry.mem_of_receive hj (by rintro h; rw [h] at hpe; cases hpe)
    obtain ⟨hk', hk''⟩ := Registry.mem_of_receive hk
      (by rintro h; rw [h] at hp; rcases hp with hp | hp <;> cases hp)
    exact hs.alone j k o f hj' hk' hst (hj'' ▸ hpe) (hk'' ▸ hp)
  · obtain ⟨hj', hp'⟩ := Registry.mem_of_receive hj (by rintro h; rw [h] at hp; cases hp)
    obtain ⟨f, hf, hst, hl, _⟩ := hs.ignored j o p hj' (hp' ▸ hp)
    obtain ⟨hf', hsa⟩ := Registry.receive_of_mem pa hf
    exact ⟨f, hf', hst, hl, by rwa [hsa]⟩

/-- No start works on a stream that is idle and has no entry. -/
theorem not_working (hs : Sound ni s) (hi : s.Idle pa.stream)
    (ha : s.active pa.stream = none) {j : Nat} {o : ExecStreamStartPayload}
    (hj : s.payloads[j]? = some o) (hst : o.stream = pa.stream) :
    ¬((s.phase j).pending = true ∨ (s.phase j).registered = true) := by
  rintro (hp | hr)
  · have := hi j (List.getElem?_eq_some_iff.1 hj).1 o hj hst
    rw [hp] at this
    cases this
  · have := hs.registered j o hj hr
    rw [hst, ha] at this
    cases this

section

variable (hs : Sound ni s) (hpayload : s.payloads[i]? = some pa)
include hs hpayload

/-- A start goes on: its entry is there while it is registered, and gone when it has taken it back. -/
theorem turn
    (hp : t.payloads = s.payloads) (hph : ∀ j, j ≠ i → t.phase j = s.phase j)
    (hot : ∀ stream, stream ≠ pa.stream → t.active stream = s.active stream)
    (how : t.active pa.stream =
      if (t.phase i).registered then some (pa.entry ni i)
      else if (s.phase i).registered then none else s.active pa.stream)
    (hr : (t.phase i).registered = true →
      (s.phase i).registered = true ∨ (s.phase i).pending = true)
    (hpe : (t.phase i).pending = true → (s.phase i).pending = true ∨
      s.Idle pa.stream ∧ s.active pa.stream = none)
    (hig : ∀ p, t.phase i = .ignored p → s.Left ni pa p)
    (hpa : (s.phase i).past = true → (t.phase i).past = true ∧ t.phase i ≠ .announcing) :
    Sound ni t := by
  refine ⟨fun stream ac ha => ?_, fun j o hj ho => ?_, fun j k o f hj hk hst ho hf => ?_,
    fun j o p hj ho => ?_⟩
  · rw [hp]
    -- The entry of another start is as it was.
    have hold : s.active stream = some ac → ac.producer ≠ i →
        ∃ pa, s.payloads[ac.producer]? = some pa ∧ pa.stream = stream ∧
          ac = pa.entry ni ac.producer ∧
          (t.phase ac.producer).registered = true := fun ha hne => by
      rw [hph _ hne]
      exact hs.entry stream ac ha
    by_cases hst : stream = pa.stream
    · subst hst
      rw [how] at ha
      split_ifs at ha with hno hb
      · cases ha
        exact ⟨pa, hpayload, rfl, rfl, hno⟩
      · refine hold ha fun heq => hb ?_
        obtain ⟨-, -, -, -, hre⟩ := hs.entry _ ac ha
        rwa [heq] at hre
    · rw [hot stream hst] at ha
      refine hold ha fun heq => hst ?_
      obtain ⟨f, hf, hfs, -⟩ := hs.entry stream ac ha
      rw [heq, hpayload] at hf
      cases hf
      exact hfs.symm
  · rw [hp] at hj
    by_cases hji : j = i
    · subst hji
      cases hpayload.symm.trans hj
      rw [how, if_pos ho]
    · rw [hph j hji] at ho
      have he := hs.registered j o hj ho
      by_cases hst : o.stream = pa.stream
      · -- No other start of its stream has registered an entry or is about to.
        have hnot : (s.phase i).registered = false := by
          refine Bool.eq_false_iff.2 fun hre => hji ?_
          have hm := hs.registered i pa hpayload hre
          rw [← hst, he] at hm
          exact congrArg ActiveExecStream.producer (Option.some.inj hm)
        rw [hst, how, if_neg, if_neg (by rw [hnot]; exact Bool.false_ne_true), ← hst, he]
        intro hre
        obtain hre | hpen := hr hre
        · rw [hnot] at hre
          cases hre
        · exact hji (hs.alone i j pa o hpayload hj hst hpen (.inr ho))
      · rw [hot _ hst, he]
  · rw [hp] at hj hk
    by_cases hji : j = i
    · subst hji
      cases hpayload.symm.trans hj
      by_contra hkj
      rw [hph k hkj] at hf
      rcases hpe ho with h | ⟨hi, hn⟩
      · exact hkj (hs.alone j k pa f hj hk hst h hf)
      · exact hs.not_working hi hn hk hst hf
    · rw [hph j hji] at ho
      by_cases hki : k = i
      · subst hki
        cases hpayload.symm.trans hk
        have hw : (s.phase k).pending = true ∨ (s.phase k).registered = true ∨
            s.Idle pa.stream ∧ s.active pa.stream = none :=
          hf.elim (fun h => (hpe h).imp_right .inr) fun h =>
            (hr h).symm.imp_right .inl
        rcases hw with h | h | ⟨hi, hn⟩
        · exact hs.alone j k o pa hj hk hst ho (.inl h)
        · exact hs.alone j k o pa hj hk hst ho (.inr h)
        · exact absurd (.inl ho) (hs.not_working hi hn hj hst.symm)
      · rw [hph k hki] at hf
        exact hs.alone j k o f hj hk hst ho hf
  · rw [hp] at hj
    by_cases hji : j = i
    · subst hji
      cases hpayload.symm.trans hj
      exact (hig p ho).turn hp hph hpa
    · rw [hph j hji] at ho
      exact (hs.ignored j o p hj ho).turn hp hph hpa

/-- A start goes on without touching the entries. -/
theorem enter
    (hr : ph.registered = (s.phase i).registered)
    (hp : ph.pending = true → (s.phase i).pending = true ∨
      s.Idle pa.stream ∧ s.active pa.stream = none)
    (hi : ∀ p, ph = .ignored p → s.Left ni pa p)
    (hpa : (s.phase i).past = true → ph.past = true ∧ ph ≠ .announcing) :
    Sound ni (s.enter i ph) := by
  refine hs.turn hpayload rfl (fun j hj => Registry.enter_phase_of_ne s ph hj) (fun _ _ => rfl)
    ?_ ?_ ?_ ?_ ?_ <;> rw [Registry.enter_phase_self]
  · rw [hr, Registry.enter_active]
    split_ifs with hre
    · exact hs.registered i pa hpayload hre
    · rfl
  · exact fun h => .inl (hr ▸ h)
  · exact hp
  · exact hi
  · exact hpa

/-- A start takes its entry back. -/
theorem remove
    (hph : (s.phase i).registered = true) (hp : ph.pending = false)
    (hr : ph.registered = false) (hi : ∀ p, ph ≠ .ignored p)
    (hpa : ph.past = true) :
    Sound ni ((s.remove pa.stream).enter i ph) := by
  refine hs.turn hpayload rfl
    (fun j hj => Registry.enter_phase_of_ne (s.remove pa.stream) ph hj)
    (fun _ hne => by rw [Registry.enter_active, Registry.remove_active_of_ne s hne])
    ?_ ?_ ?_ ?_ ?_ <;> rw [Registry.enter_phase_self]
  · rw [hr, hph, Registry.enter_active, Registry.remove_active_self]
    rfl
  · rw [hr]
    nofun
  · rw [hp]
    nofun
  · exact fun p h => absurd h (hi p)
  · refine fun _ => ⟨hpa, ?_⟩
    rintro rfl
    cases hr

/-- A start registers its entry. -/
theorem insert
    (hp : s.phase i = .inserting) :
    Sound ni ((s.insert i pa.stream (pa.entry ni i)).enter i .announcing) := by
  refine hs.turn hpayload rfl
    (fun j hj => Registry.enter_phase_of_ne (s.insert i pa.stream (pa.entry ni i)) _ hj)
    (fun _ hne => by rw [Registry.enter_active, Registry.insert_active, update_of_ne hne])
    ?_ ?_ ?_ ?_ ?_ <;> rw [Registry.enter_phase_self]
  · rw [Registry.enter_active, Registry.insert_active, update_self]
    rfl
  · exact fun _ => .inr (by rw [hp]; rfl)
  · nofun
  · nofun
  · rw [hp]
    nofun

end

/-- Orderly steps keep one start at a time on a stream. -/
theorem step {a : Action} (ho : Orderly a s) (hs : Sound ni s)
    (h : exec ni a s = some t) : Sound ni t := by
  cases transition_of_exec h with
  | receive pa => exact hs.receive pa
  | refuse hpayload hp => exact hs.enter hpayload (by rw [hp]; rfl) nofun nofun (by rw [hp]; nofun)
  | @ignore _ pa ac hpayload hp ha =>
    refine hs.enter hpayload (by rw [hp]; rfl) nofun (fun p hpr => ?_) (by rw [hp]; nofun)
    cases hpr
    obtain ⟨o, hot, hst, hen, hr⟩ := hs.entry _ ac ha
    obtain ⟨hl, he⟩ := (ho pa hpayload).2 ac ha
    rw [hen] at hl he
    exact ⟨o, hot, hst, hl, past_of_registered hr, he⟩
  | @pass _ pa hpayload hp ha =>
    exact hs.enter hpayload (by rw [hp]; rfl)
      (fun _ => .inr ⟨(ho pa hpayload).1, ha⟩) nofun (by rw [hp]; nofun)
  | @prepare _ _ _ _ hpayload hp hn =>
    obtain ⟨hr, hpa⟩ := not_registered_of_pending hp
    refine hs.enter hpayload ?_ (fun _ => .inl hp) (fun p hpr => ?_) ?_
    · rw [hr, (not_registered_of_pending hn).1]
    · rw [hpr] at hn
      cases hn
    · rw [hpa]
      nofun
  | @giveUp _ _ _ _ hpayload hp hn =>
    obtain ⟨hr, hpa⟩ := not_registered_of_pending hp
    obtain rfl | ⟨e, rfl⟩ := hn
    · exact hs.enter hpayload hr.symm nofun nofun (by rw [hpa]; nofun)
    · exact hs.enter hpayload hr.symm nofun nofun (by rw [hpa]; nofun)
  | insert hpayload hp => exact hs.insert hpayload hp
  | @announce _ _ _ _ hpayload hp hn =>
    obtain rfl | ⟨text, rfl⟩ := hn
    · exact hs.enter hpayload (by rw [hp]; rfl) nofun nofun fun _ => ⟨rfl, nofun⟩
    · exact hs.enter hpayload (by rw [hp]; rfl) nofun nofun fun _ => ⟨rfl, nofun⟩
  | withdraw hpayload hp | finish hpayload hp =>
    exact hs.remove hpayload (by rw [hp]; rfl) rfl rfl nofun rfl
  | @withdrawn i pa _ hpayload hp hot =>
    exact absurd rfl (hot _ (hs.registered i pa hpayload (by rw [hp]; rfl)))
  | input => exact ⟨hs.entry, hs.registered, hs.alone, hs.ignored⟩

theorem run {a : List Action}
    (h : run (guarded Orderly (exec ni)) a .start = some s) :
    Sound ni s :=
  guarded_invariant (P := Sound ni) (fun _ _ _ hs ho he => hs.step ho he) h start

end Sound

/-! ## The newest owner -/

/-- The start was handled without an error, and the producer that it started or was left to has not
ended. -/
def Registry.Live (s : Registry) (i : Nat) : Prop :=
  s.phase i = .producing ∨
    ∃ producer, s.phase i = .ignored producer ∧
      (s.phase producer = .announcing ∨ s.phase producer = .producing)

/-- No start of its stream with a live producer has a larger epoch. -/
def Registry.Newest (s : Registry) (payload : ExecStreamStartPayload) : Prop :=
  ∀ (j : Nat) other, s.payloads[j]? = some other → s.Live j → other.stream = payload.stream →
    other.producerEpoch ≤ payload.producerEpoch

/-- The command carries standard input for the stream of a start, under its epoch. -/
structure ExecStreamInputPayload.IsStdinFor (input : ExecStreamInputPayload)
    (payload : ExecStreamStartPayload) (nodeId : NodeId) : Prop where
  streamId : input.streamId = payload.stream
  inputKind : input.inputKind = "stdin"
  producerEpoch : input.producerEpoch = some payload.producerEpoch
  sessionId : input.sessionId = payload.sessionId
  vmId : input.vmId = payload.vmId
  targetNodeId : input.targetNodeId = nodeId

theorem forwardInput_ok {input : ExecStreamInputPayload} {last : Nat} (hpos : 0 < input.inputSeq)
    (hse : input.inputSeq ≤ saturatingAdd last 1) :
    ∃ c, forwardInput input .taken last = .ok c := by
  rw [forwardInput, if_neg (by omega)]
  by_cases hle : input.inputSeq ≤ last
  · exact ⟨last, if_pos hle⟩
  · have heq : input.inputSeq = saturatingAdd last 1 := by
      simp only [saturatingAdd] at hse ⊢
      omega
    rw [if_neg hle, if_neg (not_not_intro heq)]
    exact ⟨_, rfl⟩

section

variable {ni : NodeId} {s : Registry} {pa : ExecStreamStartPayload}
  {ac : ActiveExecStream} {input : ExecStreamInputPayload}

/-- Input in order under the registered owner's name is accepted. -/
theorem accepted_of_entry (ha : s.active pa.stream = some ac)
    (he : ac.producerEpoch = pa.producerEpoch)
    (hse : ac.sessionId = pa.sessionId) (hvm : ac.vmId = pa.vmId)
    (hn : ac.nodeId = ni) (hi : input.IsStdinFor pa ni)
    (hpos : 0 < input.inputSeq)
    (hseq : input.inputSeq ≤ saturatingAdd (s.lastInputSeq ac.producer) 1) :
    ∃ r, handleExecStreamInputCommand input .taken s = .ok r := by
  obtain ⟨c, hc⟩ := forwardInput_ok hpos hseq
  have hv : validateExecInputIdentity ac input = .ok () := by
    rw [validateExecInputIdentity, if_neg]
    simp [hi.producerEpoch, hi.sessionId, hi.vmId, hi.targetNodeId, he, hse, hvm, hn]
  refine ⟨(ac.producer, c), ?_⟩
  simp only [handleExecStreamInputCommand, hi.streamId, ha, hv]
  simp [hi.inputKind, hc, bind, Except.bind, pure, Except.pure]

/-- A live start finds an entry that is not older, and one that is as old if it is the newest. -/
theorem Sound.live (hs : Sound ni s) {i : Nat} (hpayload : s.payloads[i]? = some pa)
    (hli : s.Live i) :
    ∃ ac, s.active pa.stream = some ac ∧ pa.LeftTo ac ∧
      ac.nodeId = ni ∧
      (s.Newest pa → ac.producerEpoch = pa.producerEpoch) := by
  obtain hph | ⟨p, hph, hp⟩ := hli
  · have he := hs.registered i pa hpayload (by rw [hph]; rfl)
    exact ⟨_, he, ⟨Nat.le_refl _, rfl, rfl⟩, rfl, fun _ => rfl⟩
  · obtain ⟨o, ho, hst, hl, -, hep⟩ := hs.ignored i pa p hpayload hph
    have he := hs.registered p o ho (by rcases hp with h | h <;> rw [h] <;> rfl)
    rw [hst] at he
    refine ⟨_, he, hl, rfl, fun hn => ?_⟩
    obtain hp | hp := hp
    · exact (hep hp).symm
    · exact Nat.le_antisymm (hn p o ho (.inl hp) hst) hl.1

/-- A producer that ends removes its own entry. -/
theorem Sound.finish (hs : Sound ni s) {t : Registry} {i : Nat} {st : String}
    (h : exec ni (.finish i) s = some t) (hc : t.active st ≠ s.active st) :
    ∃ ac, s.active st = some ac ∧ ac.producer = i := by
  simp only [exec, Registry.at_eq_some] at h
  obtain ⟨pa, hpayload, h⟩ := h
  cases hp : s.phase i <;> rw [hp] at h <;> try cases h
  have hst : st = pa.stream := by
    by_contra hne
    rw [Registry.enter_active, Registry.remove_active_of_ne _ hne] at hc
    exact hc rfl
  rw [hst]
  exact ⟨_, hs.registered i pa hpayload (by rw [hp]; rfl), rfl⟩

end

/-- **The entry of a stream follows its newest owner.** In every orderly run, a start that was handled
without an error and whose producer has not ended finds an entry that is not older; standard input in
order under the epoch of the newest such start is accepted, if the channel takes it; and a producer
that ends removes no entry but its own. -/
theorem entry_follows_newest (nodeId : NodeId) (actions : List Action) (s : Registry)
    (hrun : run (guarded Orderly (exec nodeId)) actions .start = some s) :
    (∀ (i : Nat) payload, s.payloads[i]? = some payload → s.Live i →
      ∃ active, s.active payload.stream = some active ∧
        payload.producerEpoch ≤ active.producerEpoch ∧
        (s.Newest payload → ∀ input : ExecStreamInputPayload, input.IsStdinFor payload nodeId →
          0 < input.inputSeq → input.inputSeq ≤ saturatingAdd (s.lastInputSeq active.producer) 1 →
          ∃ result, handleExecStreamInputCommand input .taken s = .ok result)) ∧
    ∀ i t stream, exec nodeId (.finish i) s = some t → t.active stream ≠ s.active stream →
      ∃ active, s.active stream = some active ∧ active.producer = i := by
  have hs := Sound.run hrun
  refine ⟨fun i payload hpayload hl => ?_, fun i t stream h hc => hs.finish h hc⟩
  obtain ⟨active, ha, ⟨he, hse, hvm⟩, hno, hn⟩ := hs.live hpayload hl
  exact ⟨active, ha, he, fun hne input hi hpos hseq =>
    accepted_of_entry ha (hn hne) hse hvm hno hi hpos hseq⟩

def startAt (epoch resume : Nat) : ExecStreamStartPayload :=
  ⟨"stream-1", "stream-1", epoch, resume, "session-1", "vm-1", "make"⟩

def stdinAt (epoch seq : Nat) : ExecStreamInputPayload :=
  ⟨"stream-1", seq, "stdin", some epoch, "session-1", "vm-1", "node-1", none⟩

/-- The steps of a start from its look for an entry to its registration. -/
def registers (i : Nat) : List Action :=
  [.startup i .attached, .claim i .granted, .insert i, .announce i none]

/-- A start is handled, and delivered again. -/
def startsTwice : List Action :=
  [.receive (startAt 1 0), .check 0] ++ registers 0 ++ [.receive (startAt 1 0), .check 1]

/-- The second start is left to the first one, and input under their epoch is accepted. -/
theorem entry_follows_newest_startsTwice :
    ∃ s, run (guarded Orderly (exec "node-1")) startsTwice .start = some s ∧
      s.Live 1 ∧ (∃ active, s.active "stream-1" = some active ∧ 1 ≤ active.producerEpoch) ∧
      (∃ result, handleExecStreamInputCommand (stdinAt 1 1) .taken s = .ok result) ∧
      ∀ t, exec "node-1" (.finish 0) s = some t → t.active "stream-1" ≠ s.active "stream-1" →
        ∃ active, s.active "stream-1" = some active ∧ active.producer = 0 := by
  obtain ⟨s, hrun, hsta⟩ : ∃ s, run (guarded Orderly (exec "node-1")) startsTwice
        .start = some s ∧
      s.payloads = [startAt 1 0, startAt 1 0] ∧ s.phase 1 = .ignored 0 ∧ s.phase 0 = .producing :=
    exists_of_run (by decide +kernel)
  obtain ⟨hp, hph, hpr⟩ := hsta
  have hl : s.Live 1 := .inr ⟨0, hph, .inr hpr⟩
  have hn : s.Newest (startAt 1 0) := by
    intro j other hj _ _
    have hmem := List.mem_of_getElem? hj
    rw [hp] at hmem
    obtain rfl : other = startAt 1 0 := by simpa using hmem
    exact Nat.le_refl _
  obtain ⟨he, hf⟩ := entry_follows_newest "node-1" startsTwice s hrun
  obtain ⟨active, ha, hep, hstd⟩ :=
    he 1 (startAt 1 0) (by rw [hp]; rfl) hl
  have hst : (startAt 1 0).stream = "stream-1" := by decide +kernel
  have hac := hstd hn (stdinAt 1 1) ⟨hst.symm, rfl, rfl, rfl, rfl, rfl⟩
    (Nat.zero_lt_one) (by simp only [stdinAt, saturatingAdd]; omega)
  rw [hst] at ha
  exact ⟨s, hrun, hl, ⟨active, ha, hep⟩, hac, fun t => hf 0 t "stream-1"⟩

/-- Two starts look for an entry before either registers one. The producer of the older then ends. -/
def overlap : List Action :=
  [.receive (startAt 0 0), .receive (startAt 1 3), .check 0, .check 1] ++ registers 0 ++ registers 1 ++
    [.finish 0]

/-- The producer that ends removes the entry of the newer start. That was handled without an error and
its producer runs, but the stream has no entry, and input under its epoch is refused. -/
theorem overlap_loses_entry :
    ∃ s, run (exec "node-1") overlap .start = some s ∧ s.Live 1 ∧
      s.payloads[1]? = some (startAt 1 3) ∧ s.active "stream-1" = none ∧
      handleExecStreamInputCommand (stdinAt 1 1) .taken s =
        .error "exec stream is not active: stream-1" := by
  obtain ⟨s, hrun, hsta⟩ : ∃ s, run (exec "node-1") overlap .start = some s ∧
      s.phase 1 = .producing ∧ s.payloads[1]? = some (startAt 1 3) ∧ s.active "stream-1" = none :=
    exists_of_run (by decide +kernel)
  obtain ⟨hp, hpayload, ha⟩ := hsta
  refine ⟨s, hrun, .inl hp, hpayload, ha, ?_⟩
  have hst : (stdinAt 1 1).streamId = "stream-1" := rfl
  simp only [handleExecStreamInputCommand, hst, ha]
  rfl

end Chevalier.ControlBus.ExecStream
