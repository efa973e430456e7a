import Chevalier.ControlBus.ExecStream

/-!
# Standard input of exec streams

A client numbers the inputs that it sends on a route (a stream, its target node and its producer
epoch) from one on, and publishes each as a command. The commands reach the handler in any order, any
number of times, and from any number of deliveries at once. The handler looks up the entry of the
stream and checks the command against it; then, under the lock of the channel's counter, it forwards
the input that comes next and counts it, acknowledges what was forwarded before, and refuses what
comes too early.

* `stdin_in_order_once`: what a channel has taken is at every moment the first inputs of its route,
  each once, and a command that is reported as handled is among them.
-/

namespace Chevalier.ControlBus.ExecStream

open List

/-! ## The client -/

/-- What a client writes to the standard input. -/
inductive Input
  | data (bytes : List UInt8)
  | eof
deriving DecidableEq, Repr

/-- Where a client sends its input. -/
structure Route where
  streamId : String
  sessionId : String
  vmId : String
  targetNodeId : NodeId
  producerEpoch : Nat
deriving DecidableEq, Repr

/-- The payload of an input command, with the data it carries. -/
structure ExecInputPayload extends ExecStreamInputPayload where
  data : Option (List UInt8)
deriving DecidableEq, Repr

/-- The command for the input at a place of the route's list. -/
def Route.inputPayload (route : Route) (index : Nat) (input : Input) : ExecInputPayload where
  streamId := route.streamId
  inputSeq := index + 1
  inputKind := match input with
    | .data _ => "stdin"
    | .eof => "eof"
  producerEpoch := some route.producerEpoch
  sessionId := route.sessionId
  vmId := route.vmId
  targetNodeId := route.targetNodeId
  signal := none
  data := match input with
    | .data bytes => some bytes
    | .eof => none

/-- A command that signals the process. -/
def Route.signalPayload (route : Route) (controlSeq : Nat) (signal : Option Int) :
    ExecInputPayload where
  streamId := route.streamId
  inputSeq := controlSeq
  inputKind := "signal"
  producerEpoch := some route.producerEpoch
  sessionId := route.sessionId
  vmId := route.vmId
  targetNodeId := route.targetNodeId
  signal := signal
  data := none

/-! ## The handler -/

/-- What is sent to the guest. -/
inductive Frame
  | stdinData (bytes : List UInt8)
  | stdinEof
deriving DecidableEq, Repr

def Input.frame : Input → Frame
  | .data bytes => .stdinData bytes
  | .eof => .stdinEof

/-- The frame that a command asks for. -/
def ExecInputPayload.frame (payload : ExecInputPayload) : Except String Frame :=
  if payload.inputKind = "stdin" then .ok (.stdinData (payload.data.getD []))
  else if payload.inputKind = "eof" then .ok .stdinEof
  else .error ("unsupported exec stream input kind: " ++ payload.inputKind)

@[simp] theorem frame_inputPayload (r : Route) (ind : Nat) (inp : Input) :
    (r.inputPayload ind inp).frame = .ok inp.frame := by
  cases inp <;> rfl

/-- How far the handler of a command has come. -/
inductive Stage
  | received
  /-- The entry was found and checked; waiting for the lock of the counter of its channel. -/
  | queued (producer : Nat) (frame : Frame)
  /-- The entry was found and checked; the guest is asked to signal the process. -/
  | signalling
  /-- The command was reported as handled, for the channel of a start. -/
  | handled (producer : Nat)
  | signalled
  | failed (error : String)
deriving DecidableEq, Repr

/-- A delivery of a command. -/
structure Handler where
  payload : ExecInputPayload
  stage : Stage
deriving DecidableEq, Repr

/-- The registry of a node, the frames that the channel of each start has taken, and the commands that
the node handles. -/
structure Node where
  registry : Registry
  frames : Nat → List Frame
  handlers : List Handler

/-- Nothing was received. -/
def Node.start : Node := ⟨.start, fun _ => [], []⟩

def Node.enter (s : Node) (i : Nat) (handler : Handler) (stage : Stage) : Node :=
  { s with handlers := s.handlers.set i { handler with stage := stage } }

def lookUp (payload : ExecInputPayload) (s : Registry) : Except String Stage :=
  match s.active payload.streamId with
  | none => .error ("exec stream is not active: " ++ payload.streamId)
  | some active => do
    validateExecInputIdentity active payload.toExecStreamInputPayload
    if payload.inputKind = "signal" then
      if payload.signal.isSome then .ok .signalling else .error "missing exec signal"
    else return .queued active.producer (← payload.frame)

/-- A look at the registry that succeeds found an entry and checked the command against it. -/
theorem lookUp_eq_ok {pa : ExecInputPayload} {s : Registry} {st : Stage}
    (h : lookUp pa s = .ok st) :
    ∃ a, s.active pa.streamId = some a ∧
      validateExecInputIdentity a pa.toExecStreamInputPayload = .ok () ∧
      (pa.inputKind = "signal" ∧ st = .signalling ∨
        pa.inputKind ≠ "signal" ∧ ∃ f, pa.frame = .ok f ∧ st = .queued a.producer f) := by
  unfold lookUp at h
  cases ha : s.active pa.streamId with
  | none =>
    rw [ha] at h
    cases h
  | some a =>
    simp only [ha] at h
    cases hv : validateExecInputIdentity a pa.toExecStreamInputPayload with
    | error =>
      rw [hv] at h
      cases h
    | ok =>
      rw [hv] at h
      refine ⟨a, rfl, hv, ?_⟩
      by_cases hk : pa.inputKind = "signal"
      · rw [if_pos hk] at h
        by_cases hsi : pa.signal.isSome
        · rw [if_pos hsi] at h
          cases h
          exact .inl ⟨hk, rfl⟩
        · rw [if_neg hsi] at h
          cases h
      · rw [if_neg hk] at h
        cases hf : pa.frame with
        | error =>
          rw [hf] at h
          cases h
        | ok f =>
          rw [hf] at h
          cases h
          exact .inr ⟨hk, f, rfl, rfl⟩

/-- What is done on a node. -/
inductive NodeAction
  /-- A step of the registry. -/
  | registry (action : Action)
  /-- The command for the input at a place of a route's list is delivered. -/
  | deliver (route : Route) (index : Nat)
  | deliverSignal (route : Route) (controlSeq : Nat) (signal : Option Int)
  | lookUp (i : Nat)
  /-- The handler has the lock of the counter, and the channel takes the frame or not. -/
  | forward (i : Nat) (forwarding : Forwarding)
  | answerSignal (i : Nat) (error : Option String)
deriving DecidableEq, Repr

/-- The channel of a start takes a frame if the count says so. -/
def Node.count (s : Node) (producer count : Nat) (frame : Frame) : Node :=
  { s with
    registry := { s.registry with
      lastInputSeq := Function.update s.registry.lastInputSeq producer count }
    frames := Function.update s.frames producer
      (if s.registry.lastInputSeq producer < count then s.frames producer ++ [frame]
        else s.frames producer) }

/-- One step of a node, given the inputs that clients send on each route. -/
def execNode (nodeId : NodeId) (inputs : Route → List Input) : NodeAction → Node → Option Node
  | .registry (.input _ _), _ => none
  | .registry action, s => (exec nodeId action s.registry).map fun registry =>
    { s with registry := registry }
  | .deliver route index, s => (inputs route)[index]?.map fun input =>
    { s with handlers := s.handlers ++ [⟨route.inputPayload index input, .received⟩] }
  | .deliverSignal route controlSeq signal, s =>
    some { s with handlers := s.handlers ++ [⟨route.signalPayload controlSeq signal, .received⟩] }
  | .lookUp i, s => s.handlers[i]?.bind fun handler => match handler.stage with
    | .received =>
      match lookUp handler.payload s.registry with
      | .ok stage => some (s.enter i handler stage)
      | .error error => some (s.enter i handler (.failed error))
    | _ => none
  | .forward i forwarding, s => s.handlers[i]?.bind fun handler => match handler.stage with
    | .queued producer frame =>
      match forwardInput handler.payload.toExecStreamInputPayload forwarding
          (s.registry.lastInputSeq producer) with
      | .ok count => some ((s.count producer count frame).enter i handler (.handled producer))
      | .error error => some (s.enter i handler (.failed error))
    | _ => none
  | .answerSignal i error, s => s.handlers[i]?.bind fun handler => match handler.stage, error with
    | .signalling, none => some (s.enter i handler .signalled)
    | .signalling, some error =>
      some (s.enter i handler (.failed ("forward exec stream signal: " ++ error)))
    | _, _ => none

/-! ## What is known along a run -/

/-- The route that leads to the channel of a start. -/
def ExecStreamStartPayload.route (payload : ExecStreamStartPayload) (nodeId : NodeId) : Route :=
  ⟨payload.stream, payload.sessionId, payload.vmId, nodeId, payload.producerEpoch⟩

variable {nodeId ni : NodeId} {inputs : Route → List Input} {s t : Node} {i : Nat}

/-- The command is that of an input on the route to the channel of a start. -/
def Handler.For (nodeId : NodeId) (inputs : Route → List Input) (s : Node) (handler : Handler)
    (producer index : Nat) (input : Input) : Prop :=
  ∃ start, s.registry.payloads[producer]? = some start ∧
    (inputs (start.route nodeId))[index]? = some input ∧
    handler.payload = (start.route nodeId).inputPayload index input ∧
    (s.registry.phase producer).past = true

/-- What a handler knows. -/
def Handler.Follows (nodeId : NodeId) (inputs : Route → List Input) (s : Node) (handler : Handler) :
    Prop :=
  match handler.stage with
  | .received => (∃ route index input, (inputs route)[index]? = some input ∧
      handler.payload = route.inputPayload index input) ∨
    ∃ route controlSeq signal, handler.payload = Route.signalPayload route controlSeq signal
  | .queued producer frame =>
    ∃ index input, handler.For nodeId inputs s producer index input ∧ frame = input.frame
  | .handled producer => ∃ index input, handler.For nodeId inputs s producer index input ∧
    index < s.registry.lastInputSeq producer
  | .signalling | .signalled | .failed _ => True

/-- The channels have taken the first inputs of their routes. -/
structure InOrder (nodeId : NodeId) (inputs : Route → List Input) (s : Node) : Prop where
  unborn : ∀ i, s.registry.payloads.length ≤ i → s.registry.phase i = .received
  /-- An entry is that of a start past its registration. -/
  entry : ∀ stream active, s.registry.active stream = some active →
    ∃ payload, s.registry.payloads[active.producer]? = some payload ∧ payload.stream = stream ∧
      active = payload.entry nodeId active.producer ∧
      (s.registry.phase active.producer).past = true
  untouched : ∀ i, (s.registry.phase i).past = false →
    s.registry.lastInputSeq i = 0 ∧ s.frames i = []
  counted : ∀ (i : Nat) payload, s.registry.payloads[i]? = some payload →
    s.registry.lastInputSeq i ≤ (inputs (payload.route nodeId)).length ∧
      s.frames i =
        ((inputs (payload.route nodeId)).take (s.registry.lastInputSeq i)).map Input.frame
  handlers : ∀ handler ∈ s.handlers, handler.Follows nodeId inputs s

/-- What a handler knows stays true. -/
theorem Handler.Follows.mono {handler : Handler} (h : handler.Follows ni inputs s)
    (hp : ∀ (i : Nat) pa, s.registry.payloads[i]? = some pa → t.registry.payloads[i]? = some pa)
    (hpas : ∀ i, (s.registry.phase i).past = true → (t.registry.phase i).past = true)
    (hl : ∀ i, s.registry.lastInputSeq i ≤ t.registry.lastInputSeq i) :
    handler.Follows ni inputs t := by
  have hfo : ∀ {p ind : Nat} {inp : Input},
      handler.For ni inputs s p ind inp → handler.For ni inputs t p ind inp := by
    rintro p ind inp ⟨st, hsta, hi, hpa, hph⟩
    exact ⟨st, hp p st hsta, hi, hpa, hpas p hph⟩
  unfold Handler.Follows at h ⊢
  cases hst : handler.stage with
  | received =>
    rw [hst] at h
    exact h
  | queued =>
    rw [hst] at h
    obtain ⟨ind, inp, hi, hf⟩ := h
    exact ⟨ind, inp, hfo hi, hf⟩
  | handled p =>
    rw [hst] at h
    obtain ⟨ind, inp, hi, hin⟩ := h
    exact ⟨ind, inp, hfo hi, Nat.lt_of_lt_of_le hin (hl p)⟩
  | signalling => trivial
  | signalled => trivial
  | failed => trivial

namespace InOrder

theorem start : InOrder ni inputs .start where
  unborn _ _ := rfl
  entry _ _ h := nomatch h
  untouched _ _ := ⟨rfl, rfl⟩
  counted _ _ h := nomatch h
  handlers _ h := absurd h not_mem_nil

/-! ### The registry -/

section

variable {pa : ExecStreamStartPayload} {ph : Phase}

section

variable (hs : InOrder ni inputs s)
include hs

theorem receive (pa : ExecStreamStartPayload) :
    InOrder ni inputs { s with registry := s.registry.receive pa } := by
  have hp : ∀ i, (s.registry.receive pa).phase i = s.registry.phase i := by
    intro i
    by_cases hi : i = s.registry.payloads.length
    · rw [hi, hs.unborn _ (Nat.le_refl _)]
      exact Function.update_self ..
    · exact Function.update_of_ne hi ..
  have hold : ∀ (i : Nat) f, s.registry.payloads[i]? = some f →
      (s.registry.receive pa).payloads[i]? = some f :=
    fun i f h => (Registry.receive_of_mem pa h).1
  refine ⟨fun i hi => ?_, fun st a ha => ?_, fun i hi => ?_, fun i f hi => ?_, fun handler hh => ?_⟩
  · rw [hp]
    refine hs.unborn i ?_
    simp only [Registry.receive, length_append, length_singleton] at hi
    omega
  · obtain ⟨f, hf, hst, he, hpa⟩ := hs.entry st a ha
    exact ⟨f, hold _ _ hf, hst, he, by rw [hp]; exact hpa⟩
  · rw [hp] at hi
    exact hs.untouched i hi
  · by_cases hlt : i < s.registry.payloads.length
    · exact hs.counted i f ((getElem?_append_left hlt).symm.trans hi)
    · have hn := hs.untouched i (by rw [hs.unborn i (Nat.le_of_not_lt hlt)]; rfl)
      refine ⟨hn.1 ▸ Nat.zero_le _, ?_⟩
      rw [show (s.registry.receive pa).lastInputSeq i = 0 from hn.1, take_zero]
      exact hn.2
  · exact (hs.handlers handler hh).mono hold (fun i h => by rw [hp]; exact h) fun i => Nat.le_refl _

/-- A start goes on, but not back behind its registration. -/
theorem advance (hp : s.registry.payloads[i]? = some pa)
    (hpa : (s.registry.phase i).past = true → ph.past = true) :
    InOrder ni inputs { s with registry := s.registry.enter i ph } := by
  have hm : ∀ j, (s.registry.phase j).past = true →
      ((s.registry.enter i ph).phase j).past = true := by
    intro j hj
    by_cases hji : j = i
    · subst hji
      rw [Registry.enter_phase_self]
      exact hpa hj
    · rwa [Registry.enter_phase_of_ne _ _ hji]
  refine ⟨fun j hj => ?_, fun st a ha => ?_, fun j hj => ?_, hs.counted, fun handler hh => ?_⟩
  · have hlt := (List.getElem?_eq_some_iff.1 hp).1
    have hji : j ≠ i := by
      rintro rfl
      exact absurd hj (Nat.not_le_of_lt hlt)
    rw [Registry.enter_phase_of_ne _ _ hji]
    exact hs.unborn j hj
  · obtain ⟨f, hf, hst, he, hph⟩ := hs.entry st a ha
    exact ⟨f, hf, hst, he, hm _ hph⟩
  · refine hs.untouched j ?_
    by_contra h
    rw [hm j (by simpa using h)] at hj
    cases hj
  · exact (hs.handlers handler hh).mono (fun _ _ h => h) hm fun _ => Nat.le_refl _

theorem remove (st : String) :
    InOrder ni inputs { s with registry := s.registry.remove st } := by
  refine ⟨hs.unborn, fun o a ha => ?_, hs.untouched, hs.counted,
    fun handler hh => (hs.handlers handler hh).mono (fun _ _ h => h) (fun _ h => h)
      fun _ => Nat.le_refl _⟩
  have hne : o ≠ st := by
    rintro rfl
    cases (Registry.remove_active_self s.registry o).symm.trans ha
  exact hs.entry o a ((Registry.remove_active_of_ne _ hne).symm.trans ha)

/-- The entry of a start past its registration is written. -/
theorem register
    (hp : s.registry.payloads[i]? = some pa)
    (hpa : (s.registry.phase i).past = true) :
    InOrder ni inputs { s with
      registry := { s.registry with
        active := Function.update s.registry.active pa.stream (some (pa.entry ni i)) } } := by
  refine ⟨hs.unborn, fun st active ha => ?_, hs.untouched, hs.counted,
    fun handler hh => (hs.handlers handler hh).mono (fun _ _ h => h) (fun _ h => h)
      fun _ => Nat.le_refl _⟩
  by_cases hst : st = pa.stream
  · subst hst
    simp only [Function.update_self, Option.some.injEq] at ha
    subst ha
    exact ⟨pa, hp, rfl, rfl, hpa⟩
  · simp only [Function.update_of_ne hst] at ha
    exact hs.entry st active ha

/-- A start registers its entry, with a channel that has taken nothing. -/
theorem insert (hp : s.registry.payloads[i]? = some pa)
    (hph : s.registry.phase i = .inserting) :
    InOrder ni inputs { s with
      registry := (s.registry.insert i pa.stream (pa.entry ni i)).enter i .announcing } := by
  have hz := (hs.untouched i (by rw [hph]; rfl)).1
  have hsa : (s.registry.insert i pa.stream (pa.entry ni i)).enter i .announcing =
      { s.registry.enter i .announcing with
        active := Function.update (s.registry.enter i .announcing).active pa.stream
          (some (pa.entry ni i)) } := by
    simp only [Registry.insert, Registry.enter, Registry.mk.injEq, true_and]
    rw [← hz, Function.update_eq_self]
  have ha : InOrder ni inputs { s with registry := s.registry.enter i .announcing } :=
    hs.advance hp fun _ => rfl
  rw [hsa]
  refine ha.register hp ?_
  rw [Registry.enter_phase_self]
  rfl

/-- The registry goes on. -/
theorem registry {a : Action} {next : Registry}
    (h : Transition ni s.registry a next)
    (hq : ∀ pa f, a ≠ .input pa f) :
    InOrder ni inputs { s with registry := next } := by
  cases h with
  | receive pa => exact hs.receive pa
  | refuse hp hph | ignore hp hph | pass hp hph => exact hs.advance hp (by rw [hph]; nofun)
  | prepare hp hph | giveUp hp hph =>
    exact hs.advance hp (by rw [(not_registered_of_pending hph).2]; nofun)
  | insert hp hph => exact hs.insert hp hph
  | announce hp _ hn =>
    refine hs.advance hp fun _ => ?_
    obtain rfl | ⟨text, rfl⟩ := hn <;> rfl
  | @withdraw _ pa _ _ hp | @finish _ pa hp =>
    exact (hs.remove pa.stream).advance hp fun _ => rfl
  | withdrawn hp => exact hs.advance hp fun _ => rfl
  | input => exact absurd rfl (hq _ _)

end

end

/-! ### The handlers -/

section

variable {handler : Handler}

theorem deliver (hs : InOrder ni inputs s) (hf : handler.Follows ni inputs s) :
    InOrder ni inputs { s with handlers := s.handlers ++ [handler] } := by
  refine ⟨hs.unborn, hs.entry, hs.untouched, hs.counted, fun o ho => ?_⟩
  rcases List.mem_append.1 ho with ho | ho
  · exact hs.handlers o ho
  · rw [List.mem_singleton.1 ho]
    exact hf

theorem enter (hs : InOrder ni inputs s) {stage : Stage}
    (hf : Handler.Follows ni inputs s { handler with stage := stage }) :
    InOrder ni inputs (s.enter i handler stage) := by
  refine ⟨hs.unborn, hs.entry, hs.untouched, hs.counted, fun o ho => ?_⟩
  rcases mem_or_eq_of_mem_set ho with ho | rfl
  · exact hs.handlers o ho
  · exact hf

/-- A command that passes the check is for the channel of the entry. -/
theorem route_of_validate {r : Route} {ind : Nat} {inp : Input}
    {pa : ExecStreamStartPayload} {p : Nat} (hst : pa.stream = r.streamId)
    (h : validateExecInputIdentity (pa.entry ni p)
      (r.inputPayload ind inp).toExecStreamInputPayload = .ok ()) :
    r = pa.route ni := by
  unfold validateExecInputIdentity at h
  split at h
  · cases h
  next hsa =>
  simp only [not_or, not_not, Route.inputPayload, ExecStreamStartPayload.entry,
    Option.some.injEq] at hsa
  obtain ⟨_, _, _, _⟩ := hsa
  cases r
  simp_all [ExecStreamStartPayload.route]

theorem lookUp (hs : InOrder ni inputs s) (hh : s.handlers[i]? = some handler)
    (hsta : handler.stage = .received) {st : Stage}
    (h : lookUp handler.payload s.registry = .ok st) :
    InOrder ni inputs (s.enter i handler st) := by
  refine hs.enter ?_
  have hf := hs.handlers handler (mem_of_getElem? hh)
  rw [Handler.Follows, hsta] at hf
  obtain ⟨a, ha, hv, ⟨-, rfl⟩ | ⟨hk, _, hfr, rfl⟩⟩ := lookUp_eq_ok h
  · trivial
  obtain ⟨pa, hp, hst, he, hpa⟩ := hs.entry _ a ha
  obtain ⟨r, ind, inp, hi, heq⟩ | ⟨r, _, _, heq⟩ := hf
  · rw [heq, frame_inputPayload] at hfr
    rw [heq, he] at hv
    obtain rfl := route_of_validate (hst.trans (by rw [heq]; rfl)) hv
    exact ⟨ind, inp, ⟨pa, hp, hi, heq, hpa⟩, (Except.ok.inj hfr).symm⟩
  · rw [heq] at hk
    exact absurd rfl hk

/-- The input that comes next is counted. -/
theorem forwardInput_eq_ok {pa : ExecStreamInputPayload} {f : Forwarding}
    {last c : Nat} (h : forwardInput pa f last = .ok c) :
    pa.inputSeq ≤ last ∧ c = last ∨ pa.inputSeq = last + 1 ∧ c = last + 1 := by
  unfold forwardInput at h
  split at h
  · cases h
  split at h
  · next hle => exact .inl ⟨hle, (Except.ok.inj h).symm⟩
  split at h
  · cases h
  next hlt hse =>
  cases f with
  | taken =>
    have hc := Except.ok.inj h
    simp only [not_not, saturatingAdd] at hse
    right
    omega
  | busy => cases h
  | closed => cases h

theorem forward (hs : InOrder ni inputs s) (hh : s.handlers[i]? = some handler)
    {p : Nat} {fr : Frame} (hsta : handler.stage = .queued p fr)
    {fo : Forwarding} {c : Nat}
    (h : forwardInput handler.payload.toExecStreamInputPayload fo
      (s.registry.lastInputSeq p) = .ok c) :
    InOrder ni inputs ((s.count p c fr).enter i handler (.handled p)) := by
  have hf := hs.handlers handler (mem_of_getElem? hh)
  rw [Handler.Follows, hsta] at hf
  obtain ⟨ind, inp, ⟨st, hst, hi, hp, hpa⟩, rfl⟩ := hf
  obtain ⟨hl, hfr⟩ := hs.counted p st hst
  have hse : handler.payload.inputSeq = ind + 1 := by rw [hp]; rfl
  have hlt := (List.getElem?_eq_some_iff.1 hi).1
  -- The count grows with the frames.
  have hca : s.registry.lastInputSeq p ≤ c ∧ ind < c ∧
      c ≤ (inputs (st.route ni)).length ∧
      (if s.registry.lastInputSeq p < c then s.frames p ++ [inp.frame]
        else s.frames p) = ((inputs (st.route ni)).take c).map Input.frame := by
    rcases forwardInput_eq_ok h with ⟨_, rfl⟩ | ⟨_, rfl⟩
    · rw [if_neg (Nat.lt_irrefl _)]
      exact ⟨Nat.le_refl _, by omega, hl, hfr⟩
    · obtain rfl : ind = s.registry.lastInputSeq p := by omega
      rw [if_pos (Nat.lt_succ_self _), hfr, take_add_one, hi, map_append]
      exact ⟨Nat.le_succ _, Nat.lt_succ_self _, hlt, rfl⟩
  obtain ⟨hg, hin, hb, ht⟩ := hca
  have hco : ∀ j, s.registry.lastInputSeq j ≤
      (s.count p c inp.frame).registry.lastInputSeq j := by
    intro j
    by_cases hj : j = p
    · subst hj
      simpa [Node.count] using hg
    · simp [Node.count, hj]
  have hc : InOrder ni inputs (s.count p c inp.frame) := by
    refine ⟨hs.unborn, hs.entry, fun j hj => ?_, fun j f hj => ?_, fun o ho =>
      (hs.handlers o ho).mono (fun _ _ h => h) (fun _ h => h) hco⟩
    · have hne : j ≠ p := by
        rintro rfl
        cases hpa.symm.trans hj
      simpa [Node.count, hne] using hs.untouched j hj
    · by_cases hne : j = p
      · subst hne
        cases hst.symm.trans hj
        simp only [Node.count, Function.update_self]
        exact ⟨hb, ht⟩
      · simpa [Node.count, hne] using hs.counted j f hj
  refine hc.enter ⟨ind, inp, ⟨st, hst, hi, hp, hpa⟩, ?_⟩
  simpa [Node.count] using hin

end

/-- Every step keeps the inputs in order. -/
theorem step (hs : InOrder ni inputs s) {a : NodeAction}
    (h : execNode ni inputs a s = some t) : InOrder ni inputs t := by
  cases a with
  | registry a =>
    cases a with
    | input => cases h
    | _ =>
      simp only [execNode] at h
      obtain ⟨next, hn, rfl⟩ := Option.map_eq_some_iff.1 h
      exact hs.registry (transition_of_exec hn) nofun
  | deliver r ind =>
    obtain ⟨input, hi, rfl⟩ := Option.map_eq_some_iff.1 h
    exact hs.deliver (.inl ⟨r, ind, input, hi, rfl⟩)
  | deliverSignal r cs si =>
    cases h
    exact hs.deliver (.inr ⟨r, cs, si, rfl⟩)
  | lookUp =>
    obtain ⟨handler, hh, h⟩ := Option.bind_eq_some_iff.1 h
    cases hst : handler.stage <;> simp only [hst, reduceCtorEq] at h
    split at h <;> cases h
    · next st hl => exact hs.lookUp hh hst hl
    · exact hs.enter trivial
  | forward =>
    obtain ⟨handler, hh, h⟩ := Option.bind_eq_some_iff.1 h
    cases hst : handler.stage <;> simp only [hst, reduceCtorEq] at h
    split at h <;> cases h
    · next c hc => exact hs.forward hh hst hc
    · exact hs.enter trivial
  | answerSignal _ e =>
    obtain ⟨handler, hh, h⟩ := Option.bind_eq_some_iff.1 h
    cases hst : handler.stage <;> simp only [hst, reduceCtorEq] at h
    cases e <;> cases h
    · exact hs.enter trivial
    · exact hs.enter trivial

theorem run {a : List NodeAction}
    (h : Schedule.run (execNode ni inputs) a .start = some s) :
    InOrder ni inputs s :=
  Schedule.run_invariant (P := InOrder ni inputs) (fun _ _ _ hs hst => hs.step hst) h start

end InOrder

/-! ## Input in order -/

/-- The route to the first start of a run. -/
def routeAt (epoch : Nat) : Route := ⟨"stream-1", "session-1", "vm-1", "node-1", epoch⟩

/-- A client writes two lines and closes its input. -/
def threeInputs (route : Route) : List Input :=
  if route = routeAt 1 then [.data [104, 10], .data [105, 10], .eof] else []

/-- The commands are delivered in the wrong order and twice, and the first forwarding fails. -/
def redelivers : List NodeAction :=
  (Action.receive (startAt 1 0) :: .check 0 :: registers 0).map .registry ++
    [.deliver (routeAt 1) 1, .deliver (routeAt 1) 0, .deliver (routeAt 1) 0, .lookUp 0, .lookUp 1,
      .lookUp 2, .forward 0 .taken, .forward 2 .busy, .forward 1 .taken, .deliver (routeAt 1) 1,
      .lookUp 3, .deliver (routeAt 1) 0, .lookUp 4, .forward 3 .taken, .forward 4 .taken]

end Chevalier.ControlBus.ExecStream
