import Chevalier.Foundations.Schedule
import Chevalier.ControlBus.Command

/-!
# The events of an exec stream

Producers publish the events of an exec stream to a log that is kept, numbered from the resume point
of the command they were started with. The client reads the log through a subscription, which
replays it from its beginning and drops what is not beyond its resume point. The client drops once
more what is not beyond the last event it has committed, and hands the rest to its caller. When a
subscription is lost, ends or stays silent, the client binds itself to a new one; if the machine has
moved, it first asks for a new producer, with the next epoch, to go on after the last event it has
committed.

Neither filter looks at the epoch of an event. `Orderly` asks that only the newest producer publishes,
and that a new one is asked for when everything published was committed.

* `Reads.deliver`, `Reads.receive`: what a subscription has queued is complete up to where it has read.
* `Ordered.step`: in orderly steps, what was handed out is the log up to the last committed event.
* `events_in_order`: what follows for runs.
-/

namespace Chevalier.ControlBus.ExecEvents

open Schedule List

/-! ## Events -/

/-- The kind of an event, with what it carries. -/
inductive Kind
  | started
  | stdout (data : List UInt8)
  | stderr (data : List UInt8)
  | timeout
  | exit (exitCode : Option Int) (timedOut : Bool)
  | error (text : Option String)
deriving DecidableEq, Repr

structure ExecStreamEvent where
  producerEpoch : Nat
  eventSeq : Nat
  kind : Kind
deriving DecidableEq, Repr

/-- A subscription ends with such an event. -/
def Kind.terminal : Kind → Bool
  | .exit _ _ | .timeout | .error _ => true
  | .started | .stdout _ | .stderr _ => false

/-- The client ends with such an event. -/
def Kind.final : Kind → Bool
  | .exit _ _ | .error _ => true
  | .timeout | .started | .stdout _ | .stderr _ => false

/-- The event is an error. -/
def Kind.isError : Kind → Bool
  | .error _ => true
  | _ => false

/-- What the caller of the client gets. -/
inductive ExecEvent
  | stdout (data : List UInt8)
  | stderr (data : List UInt8)
  | timeout
  | exit (code : Int)
deriving DecidableEq, Repr

/-- How an event is handed to the caller. The started event is not. -/
def Kind.handed : Kind → Option (Except String ExecEvent)
  | .started => none
  | .stdout data => some (.ok (.stdout data))
  | .stderr data => some (.ok (.stderr data))
  | .timeout => some (.ok .timeout)
  | .exit exitCode timedOut =>
    match exitCode <|> (if timedOut then some 124 else none) with
    | some code => some (.ok (.exit code))
    | none => some (.error "distributed exec stream exit event missing exit code")
  | .error text =>
    some (.error ((text.filter fun text => trim text ≠ "").getD
      "distributed exec stream failed with unspecified error"))

/-! ## Producers and the client -/

/-- A start command, or with a positive resume point a resume command. -/
structure StartCommand where
  producerEpoch : Nat
  resumeAfterEventSeq : Nat
deriving DecidableEq, Repr

/-- A producer, with the number of its last event. -/
structure Producer where
  producerEpoch : Nat
  sequence : Nat
deriving DecidableEq, Repr

/-- What a subscription passes to the client. -/
inductive Item
  | event (event : ExecStreamEvent)
  | lost
deriving DecidableEq, Repr

/-- A subscription: how much of the log it has read, what the client has not taken yet, and what it
has said of the start it was to wait for. -/
structure ExecStreamSubscription where
  resumeAfterEventSeq : Nat
  expectStarted : Bool
  started : Option Bool
  position : Nat
  events : List Item
  isOpen : Bool
deriving DecidableEq, Repr

/-- A new subscription. -/
def subscribeExecStreamEvents (resumeAfterEventSeq : Nat) (expectStarted : Bool) :
    ExecStreamSubscription :=
  ⟨resumeAfterEventSeq, expectStarted, if expectStarted then none else some true, 0, [], true⟩

/-- What the client has handed out: an event, or a word on its own recovery, which the caller sees as
a timeout or as an error. -/
inductive Handed
  | event (event : ExecStreamEvent)
  | stalled
  | exhausted
deriving DecidableEq, Repr

/-- A binding under way: the new subscription, and whether a new producer was asked for. -/
structure Rebinding where
  subscription : ExecStreamSubscription
  needsCommandResume : Bool
deriving DecidableEq, Repr

/-- The log of a stream, those who write it, and the client. The newest command comes first. -/
structure Stream where
  log : List ExecStreamEvent
  commands : List StartCommand
  producers : List Producer
  subscription : ExecStreamSubscription
  rebinding : Option Rebinding
  producerEpoch : Nat
  lastCommittedEventSeq : Nat
  stallRecoveryAttempts : Nat
  handed : List Handed
  stopped : Bool
deriving DecidableEq, Repr

/-- The client has asked for the first producer. -/
def Stream.start : Stream :=
  ⟨[], [⟨0, 0⟩], [], subscribeExecStreamEvents 0 true, none, 0, 0, 0, [], false⟩

def maxStallRecoveryAttempts : Nat := 5

/-! ## Steps -/

def shouldDropReplayedEvent (eventSeq resumeAfterEventSeq : Nat) : Bool :=
  0 < resumeAfterEventSeq && 0 < eventSeq && eventSeq ≤ resumeAfterEventSeq

namespace ExecStreamSubscription

/-- The broker delivers an entry of the log: the next one, or one it has delivered before. -/
def deliver (subscription : ExecStreamSubscription) (log : List ExecStreamEvent) (n : Nat) :
    Option ExecStreamSubscription :=
  match log[n]? with
  | some event =>
    if subscription.isOpen ∧ n ≤ subscription.position then
      let read := { subscription with position := max subscription.position (n + 1) }
      if shouldDropReplayedEvent event.eventSeq subscription.resumeAfterEventSeq then some read
      else some { read with
        started := subscription.started <|>
          some (!(subscription.expectStarted && event.kind.isError))
        events := subscription.events ++ [.event event]
        isOpen := !event.kind.terminal }
    else none
  | none => none

/-- The subscription times out, or its consumer fails. -/
def lose (subscription : ExecStreamSubscription) : Option ExecStreamSubscription :=
  if subscription.isOpen then
    some { subscription with
      started := subscription.started <|> some false
      events := subscription.events ++ [.lost]
      isOpen := false }
  else none

end ExecStreamSubscription

namespace Stream

def publish (s : Stream) (event : ExecStreamEvent) : Stream := { s with log := s.log ++ [event] }

/-- The client takes an event. -/
def receive (s : Stream) (event : ExecStreamEvent) (rest : List Item) : Stream :=
  let s := { s with subscription := { s.subscription with events := rest } }
  if 0 < event.eventSeq ∧ event.eventSeq ≤ s.lastCommittedEventSeq then s
  else { s with
    lastCommittedEventSeq :=
      if 0 < event.eventSeq then event.eventSeq else s.lastCommittedEventSeq
    stallRecoveryAttempts := 0
    handed := if event.kind.handed.isSome then s.handed ++ [.event event] else s.handed
    stopped := event.kind.final }

/-- The client could not bind itself to a new subscription. -/
def stall (s : Stream) : Stream :=
  let attempts := s.stallRecoveryAttempts + 1
  let s := { s with rebinding := none, stallRecoveryAttempts := attempts }
  if maxStallRecoveryAttempts ≤ attempts then
    { s with handed := s.handed ++ [.exhausted], stopped := true }
  else { s with handed := s.handed ++ [.stalled] }

/-- The client looks for its machine, subscribes, and asks for a new producer if it has moved. -/
def tryRebind (s : Stream) (moved : Bool) : Stream :=
  { s with
    commands :=
      if moved then ⟨s.producerEpoch + 1, s.lastCommittedEventSeq⟩ :: s.commands else s.commands
    rebinding := some ⟨subscribeExecStreamEvents s.lastCommittedEventSeq moved, moved⟩ }

/-- The client goes on with the new subscription. -/
def bound (s : Stream) (rebinding : Rebinding) : Stream :=
  { s with
    subscription := rebinding.subscription
    rebinding := none
    producerEpoch := if rebinding.needsCommandResume then s.producerEpoch + 1 else s.producerEpoch
    stallRecoveryAttempts := 0 }

/-- The client is in its loop, and has nothing to take or finds its subscription lost. -/
def recovering (s : Stream) : Option Stream :=
  if s.stopped ∨ s.rebinding.isSome then none
  else match s.subscription.events with
    | [] => some s
    | .lost :: rest => some { s with subscription := { s.subscription with events := rest } }
    | .event _ :: _ => none

end Stream

/-- A step of a producer, of the broker or of the client. -/
inductive Action
  /-- A command is handled, and its producer starts. -/
  | produce (command : StartCommand)
  /-- A producer publishes its next event, or fails to. -/
  | publish (producer : Nat) (kind : Kind) (published : Bool)
  /-- A command is handled, and a terminal error is published in place of a producer. -/
  | giveUp (command : StartCommand) (text : String)
  /-- The handler of a command fails, and an error is published on its behalf. -/
  | fail (command : StartCommand) (text : String)
  /-- The broker delivers an entry of the log, to the new subscription or to the present one. -/
  | deliver (new : Bool) (n : Nat)
  /-- A subscription is lost. -/
  | lose (new : Bool)
  /-- The client takes an event. -/
  | receive
  /-- The client binds itself to a new subscription, or fails before it has one. -/
  | rebind (moved : Bool)
  | unreachable
  /-- The new subscription is good, or the client gives it up. -/
  | bound
  | abandon
deriving DecidableEq, Repr

/-- The event that a command's failed handler leaves. Its number does not depend on the command. -/
def handlerFailureEvent (command : StartCommand) (text : String) : ExecStreamEvent :=
  ⟨command.producerEpoch, 1, .error (some ("exec.stream.start handler failed: " ++ text))⟩

def giveUpEvent (command : StartCommand) (text : String) : ExecStreamEvent :=
  ⟨command.producerEpoch, command.resumeAfterEventSeq + 1, .error (some text)⟩

/-- One step. -/
def exec : Action → Stream → Option Stream
  | .produce command, s =>
    if command ∈ s.commands then
      some { s with
        producers := s.producers ++ [⟨command.producerEpoch, command.resumeAfterEventSeq⟩] }
    else none
  | .publish i kind published, s =>
    (s.producers[i]?).map fun producer =>
      let sequence := producer.sequence + 1
      let s := { s with producers := s.producers.set i { producer with sequence := sequence } }
      if published then s.publish ⟨producer.producerEpoch, sequence, kind⟩ else s
  | .giveUp command text, s =>
    if command ∈ s.commands then some (s.publish (giveUpEvent command text)) else none
  | .fail command text, s =>
    if command ∈ s.commands then some (s.publish (handlerFailureEvent command text)) else none
  | .deliver false n, s =>
    (s.subscription.deliver s.log n).map fun read => { s with subscription := read }
  | .deliver true n, s =>
    s.rebinding.bind fun rebinding =>
      (rebinding.subscription.deliver s.log n).map fun read =>
        { s with rebinding := some { rebinding with subscription := read } }
  | .lose false, s => s.subscription.lose.map fun lost => { s with subscription := lost }
  | .lose true, s =>
    s.rebinding.bind fun rebinding =>
      rebinding.subscription.lose.map fun lost =>
        { s with rebinding := some { rebinding with subscription := lost } }
  | .receive, s =>
    if s.stopped ∨ s.rebinding.isSome then none
    else match s.subscription.events with
      | .event event :: rest => some (s.receive event rest)
      | _ => none
  | .rebind moved, s => s.recovering.map (·.tryRebind moved)
  | .unreachable, s => s.recovering.map Stream.stall
  | .bound, s =>
    s.rebinding.bind fun rebinding =>
      if rebinding.subscription.started = some true then some (s.bound rebinding) else none
  | .abandon, s => s.rebinding.map fun _ => s.stall

/-! ## The owner of a number -/

namespace Stream

/-- The epoch of the newest command that goes on before the number. -/
def owner (s : Stream) (eventSeq : Nat) : Option Nat :=
  (s.commands.find? fun command => command.resumeAfterEventSeq < eventSeq).map
    StartCommand.producerEpoch

/-- The events that the owners of their numbers have published. -/
def reference (s : Stream) : List ExecStreamEvent :=
  s.log.filter fun event => s.owner event.eventSeq = some event.producerEpoch

def events (s : Stream) : List ExecStreamEvent :=
  s.handed.filterMap fun
    | .event event => some event
    | .stalled | .exhausted => none

/-- The client has ended, or waits for an event while its subscription has read everything. -/
def AtRest (s : Stream) : Prop :=
  s.stopped = true ∨ s.rebinding = none ∧ s.subscription.isOpen = true ∧
    s.subscription.events = [] ∧ s.log.length ≤ s.subscription.position

/-- The event is the newest producer's, beyond its resume point and beyond what has its epoch. -/
def Fresh (s : Stream) (event : ExecStreamEvent) : Prop :=
  ∀ command ∈ s.commands.head?, event.producerEpoch = command.producerEpoch ∧
    command.resumeAfterEventSeq < event.eventSeq ∧
    ∀ found ∈ s.log, found.producerEpoch = event.producerEpoch → found.eventSeq < event.eventSeq

instance (s : Stream) (event : ExecStreamEvent) : Decidable (s.Fresh event) :=
  inferInstanceAs (Decidable (∀ command ∈ s.commands.head?, _))

end Stream

/-- Only the newest producer publishes; a new one is asked for when everything published was
committed; and the client does not run out of attempts to recover. -/
def Orderly : Action → Stream → Prop
  | .publish i kind true, s => ∀ producer ∈ s.producers[i]?,
    s.Fresh ⟨producer.producerEpoch, producer.sequence + 1, kind⟩
  | .giveUp command text, s => s.Fresh (giveUpEvent command text)
  | .fail command text, s => s.Fresh (handlerFailureEvent command text)
  | .rebind true, s => ∀ event ∈ s.log, event.eventSeq ≤ s.lastCommittedEventSeq
  | .unreachable, s | .abandon, s => s.stallRecoveryAttempts + 1 < maxStallRecoveryAttempts
  | .publish _ _ false, _ | .produce _, _ | .deliver _ _, _ | .lose _, _ | .receive, _
  | .rebind false, _ | .bound, _ => True

instance (action : Action) (s : Stream) : Decidable (Orderly action s) :=
  match action with
  | .publish i _ true => inferInstanceAs (Decidable (∀ producer ∈ s.producers[i]?, _))
  | .giveUp _ _ | .fail _ _ => inferInstanceAs (Decidable (s.Fresh _))
  | .rebind true => inferInstanceAs (Decidable (∀ event ∈ s.log, _))
  | .unreachable | .abandon => inferInstanceAs (Decidable (_ < _))
  | .publish _ _ false | .produce _ | .deliver _ _ | .lose _ | .receive | .rebind false
  | .bound => inferInstanceAs (Decidable True)

/-- The step is not a failed attempt to recover. -/
def Action.recovers : Action → Bool
  | .unreachable | .abandon => false
  | _ => true

/-- Moreover every attempt to recover succeeds. -/
def Smooth (action : Action) (s : Stream) : Prop := action.recovers = true ∧ Orderly action s

instance (action : Action) (s : Stream) : Decidable (Smooth action s) :=
  inferInstanceAs (Decidable (_ ∧ _))

/-! ## Reading the log -/

/-- What a subscription has queued is complete: it holds what it has read beyond the committed events,
and before an event it holds all that come before it. -/
structure Reads (log : List ExecStreamEvent) (committed : Nat) (sub : ExecStreamSubscription) :
    Prop where
  position : sub.position ≤ log.length
  resume : sub.resumeAfterEventSeq ≤ committed
  known : ∀ event, Item.event event ∈ sub.events → event ∈ log
  queued : ∀ event ∈ log.take sub.position, committed < event.eventSeq →
    Item.event event ∈ sub.events
  ordered : ∀ earlier event later, sub.events = earlier ++ .event event :: later →
    ∀ found ∈ log, found.eventSeq < event.eventSeq → committed < found.eventSeq →
      Item.event found ∈ earlier

/-- The entries of the log are numbered in order. -/
def Sorted (log : List ExecStreamEvent) : Prop := log.Pairwise fun a b => a.eventSeq < b.eventSeq

theorem Sorted.mem_take {log : List ExecStreamEvent} (h : Sorted log) {n : Nat}
    {event f : ExecStreamEvent} (he : log[n]? = some event) (hf : f ∈ log)
    (hlt : f.eventSeq < event.eventSeq) : f ∈ log.take n := by
  obtain ⟨m, hm, rfl⟩ := getElem_of_mem hf
  obtain ⟨hn, rfl⟩ := List.getElem?_eq_some_iff.1 he
  have hmn : m < n := by
    by_contra hle
    rcases Nat.lt_or_eq_of_le (Nat.le_of_not_lt hle) with hl' | rfl
    · have := List.pairwise_iff_getElem.1 h n m hn hm hl'
      omega
    · omega
  exact List.mem_take_iff_getElem.2 ⟨m, by omega, rfl⟩

namespace Reads

variable {log : List ExecStreamEvent} {committed : Nat} {sub next : ExecStreamSubscription}

theorem subscribe (committed : Nat) (es : Bool) :
    Reads log committed (subscribeExecStreamEvents committed es) where
  position := Nat.zero_le _
  resume := Nat.le_refl _
  known _ h := nomatch h
  queued _ h := nomatch h
  ordered _ _ _ h := by simp [subscribeExecStreamEvents] at h

/-- What comes before an event that was queued does not change with another item behind it. -/
theorem ordered_concat (h : Reads log committed sub) {item last : Item}
    {e rest : List Item} {f o : ExecStreamEvent}
    (hs : sub.events ++ [item] = e ++ .event f :: rest.concat last)
    (ho : o ∈ log) (hlt : o.eventSeq < f.eventSeq)
    (hc : committed < o.eventSeq) : Item.event o ∈ e := by
  have hs' : sub.events ++ [item] = (e ++ .event f :: rest) ++ [last] := by
    simpa using hs
  exact h.ordered e f rest (append_inj' hs' rfl).1 o ho hlt hc

/-- An event is queued when all before it are queued or committed. -/
theorem push (h : Reads log committed sub) {event : ExecStreamEvent} (he : event ∈ log)
    (hb : ∀ f ∈ log, f.eventSeq < event.eventSeq → committed < f.eventSeq →
      Item.event f ∈ sub.events) :
    (∀ f, Item.event f ∈ sub.events ++ [.event event] → f ∈ log) ∧
      ∀ e f l, sub.events ++ [.event event] = e ++ .event f :: l →
        ∀ o ∈ log, o.eventSeq < f.eventSeq → committed < o.eventSeq → Item.event o ∈ e := by
  refine ⟨fun f hf => ?_, fun e f l hs o ho hlt hc => ?_⟩
  · rcases mem_concat.1 hf with hf | hf
    · exact h.known f hf
    · cases hf
      exact he
  · rcases eq_nil_or_concat l with rfl | ⟨_, _, rfl⟩
    · obtain ⟨rfl, heq⟩ := append_inj' hs rfl
      cases heq
      exact hb o ho hlt hc
    · exact h.ordered_concat hs ho hlt hc

theorem deliver (hlo : Sorted log) (h : Reads log committed sub) {n : Nat}
    (hd : sub.deliver log n = some next) : Reads log committed next := by
  simp only [ExecStreamSubscription.deliver] at hd
  split at hd
  · next event he =>
    split at hd
    · next hre =>
      have hmem := mem_of_getElem? he
      have hl : max sub.position (n + 1) ≤ log.length :=
        Nat.max_le.2 ⟨h.position, (List.getElem?_eq_some_iff.1 he).1⟩
      -- What has been read is what was read before, and this event.
      have hr : ∀ f ∈ log.take (max sub.position (n + 1)), f ∈ log.take sub.position ∨
          f = event := by
        intro f hf
        by_cases hn : n + 1 ≤ sub.position
        · rw [Nat.max_eq_left hn] at hf
          exact .inl hf
        · have hp : sub.position = n := by omega
          rw [Nat.max_eq_right (by omega), take_add_one, he] at hf
          rw [hp]
          simpa using hf
      split at hd
      · next hdr =>
        cases hd
        refine ⟨hl, h.resume, h.known, fun f hf hc => ?_, h.ordered⟩
        rcases hr f hf with hf | rfl
        · exact h.queued f hf hc
        · have hres := h.resume
          simp only [shouldDropReplayedEvent, Bool.and_eq_true, decide_eq_true_eq] at hdr
          omega
      · cases hd
        obtain ⟨hk, ho⟩ := h.push hmem fun f hf hlt hc => by
          have ht := hlo.mem_take he hf hlt
          exact h.queued f (take_subset_take_left _ hre.2 ht) hc
        refine ⟨hl, h.resume, hk, fun f hf hc => ?_, ho⟩
        rcases hr f hf with hf | rfl
        · exact mem_append_left _ (h.queued f hf hc)
        · exact mem_append_right _ (mem_singleton_self _)
    · cases hd
  · cases hd

theorem lose (h : Reads log committed sub) (hl : sub.lose = some next) :
    Reads log committed next := by
  simp only [ExecStreamSubscription.lose] at hl
  split at hl <;> cases hl
  refine ⟨h.position, h.resume, fun f hf => ?_, fun f hf hc => ?_, fun e f l hs o ho hlt hc => ?_⟩
  · rcases List.mem_append.1 hf with hf | hf
    · exact h.known f hf
    · cases List.mem_singleton.1 hf
  · exact mem_append_left _ (h.queued f hf hc)
  · rcases eq_nil_or_concat l with rfl | ⟨_, _, rfl⟩
    · cases (append_inj' hs rfl).2
    · exact h.ordered_concat hs ho hlt hc

/-- The first item is taken, and what it carries is committed. -/
theorem pop (h : Reads log committed sub) {item : Item} {rest : List Item} {c' : Nat}
    (hev : sub.events = item :: rest) (hle : committed ≤ c')
    (hi : ∀ event, item = .event event → event.eventSeq ≤ c') :
    Reads log c' { sub with events := rest } := by
  have hr : ∀ event, Item.event event ∈ item :: rest → c' < event.eventSeq →
      Item.event event ∈ rest := by
    intro event he hc
    rcases List.mem_cons.1 he with heq | he
    · have := hi event heq.symm
      omega
    · exact he
  refine ⟨h.position, Nat.le_trans h.resume hle,
    fun event he => h.known event (hev ▸ mem_cons_of_mem _ he),
    fun event he hc => ?_,
    fun e event l hs f hf hlt hc => ?_⟩
  · exact hr event (hev ▸ h.queued event he (by omega)) hc
  · have hs' : sub.events = (item :: e) ++ .event event :: l := by
      rw [hev]
      exact congrArg (item :: ·) hs
    have hmem := h.ordered _ event l hs' f hf hlt (by omega)
    rcases List.mem_cons.1 hmem with heq | hmem
    · have := hi f heq.symm
      omega
    · exact hmem

/-- An event is published, with a number beyond all others. -/
theorem publish (h : Reads log committed sub) {event : ExecStreamEvent}
    (hfr : ∀ f ∈ log, f.eventSeq < event.eventSeq) :
    Reads (log ++ [event]) committed sub := by
  refine ⟨by rw [length_append]; exact Nat.le_add_right_of_le h.position, h.resume,
    fun f hf => mem_append_left _ (h.known f hf),
    fun f hf => ?_,
    fun e f l hs o ho hlt hc => ?_⟩
  · rw [take_append_of_le_length h.position] at hf
    exact h.queued f hf
  · rcases mem_concat.1 ho with ho | rfl
    · exact h.ordered e f l hs o ho hlt hc
    · have := hfr f (h.known f (hs ▸ by simp))
      omega

end Reads

/-! ## What was handed out -/

section

variable {log : List ExecStreamEvent}

/-- Among entries numbered in order, those up to a number come first. -/
theorem Sorted.filter_prefix (h : Sorted log) (n : Nat) :
    log.filter (fun event => event.eventSeq ≤ n) <+: log := by
  induction log with
  | nil => exact prefix_rfl
  | cons event _ ih =>
    obtain ⟨hf, hr⟩ := List.pairwise_cons.1 h
    by_cases hle : event.eventSeq ≤ n
    · rw [filter_cons_of_pos (by simpa using hle)]
      exact List.cons_prefix_cons.2 ⟨rfl, ih hr⟩
    · rw [filter_cons_of_neg (by simpa using hle), List.filter_eq_nil_iff.2]
      · exact List.nil_prefix
      · intro f hfo hf'
        have := hf f hfo
        have := of_decide_eq_true hf'
        omega

/-- The next number that is committed adds its event alone. -/
theorem Sorted.filter_next (h : Sorted log) {event : ExecStreamEvent} {committed : Nat}
    (he : event ∈ log) (hlt : committed < event.eventSeq)
    (hne : ∀ f ∈ log, f.eventSeq < event.eventSeq → f.eventSeq ≤ committed) :
    log.filter (fun f => f.eventSeq ≤ event.eventSeq) =
      log.filter (fun f => f.eventSeq ≤ committed) ++ [event] := by
  obtain ⟨b, a, rfl⟩ := append_of_mem he
  obtain ⟨-, ha, hb⟩ := List.pairwise_append.1 h
  have hb' : ∀ f ∈ b, f.eventSeq ≤ committed := fun f hf =>
    hne f (mem_append_left _ hf) (hb f hf event mem_cons_self)
  have ha' : ∀ f ∈ a, event.eventSeq < f.eventSeq := (List.pairwise_cons.1 ha).1
  have hfi : ∀ n, committed ≤ n → b.filter (fun f => f.eventSeq ≤ n) = b :=
    fun n hn => List.filter_eq_self.2 fun f hf =>
      decide_eq_true (Nat.le_trans (hb' f hf) hn)
  have hl : ∀ n, n ≤ event.eventSeq → a.filter (fun f => f.eventSeq ≤ n) = [] :=
    fun n hn => List.filter_eq_nil_iff.2 fun f hf hf' => by
      have := ha' f hf
      have := of_decide_eq_true hf'
      omega
  rw [filter_append, filter_append, hfi _ (Nat.le_of_lt hlt), hfi _ (Nat.le_refl _),
    filter_cons_of_pos (by simp), filter_cons_of_neg (by simpa using hlt),
    hl _ (Nat.le_refl _), hl _ (Nat.le_of_lt hlt), append_nil]

end

/-- Numbers beyond the newest command's resume point are its producer's. -/
theorem Stream.owner_of_lt {s : Stream} {c : StartCommand} {e : List StartCommand}
    {es : Nat} (hc : s.commands = c :: e)
    (hlt : c.resumeAfterEventSeq < es) :
    s.owner es = some c.producerEpoch := by
  simp [Stream.owner, hc, hlt]

/-- The log is numbered in order, by the owners of the numbers, and what was handed out is the log up
to the last committed event. -/
structure Ordered (s : Stream) : Prop where
  sorted : Sorted s.log
  positive : ∀ event ∈ s.log, 0 < event.eventSeq
  owned : ∀ event ∈ s.log, s.owner event.eventSeq = some event.producerEpoch
  /-- The newest command goes on after what is committed, and the client has not ended before it. -/
  latest : ∃ command earlier, s.commands = command :: earlier ∧
    command.resumeAfterEventSeq ≤ s.lastCommittedEventSeq ∧
    (s.stopped = true → command.resumeAfterEventSeq < s.lastCommittedEventSeq)
  committed : s.lastCommittedEventSeq = 0 ∨
    ∃ event ∈ s.log, event.eventSeq = s.lastCommittedEventSeq
  events : s.events = (s.log.filter fun event => event.eventSeq ≤ s.lastCommittedEventSeq).filter
    fun event => event.kind.handed.isSome
  reads : Reads s.log s.lastCommittedEventSeq s.subscription
  rebinding : ∀ rebinding ∈ s.rebinding, Reads s.log s.lastCommittedEventSeq rebinding.subscription

namespace Ordered

variable {s t : Stream} {event : ExecStreamEvent}

theorem start : Ordered .start where
  sorted := .nil
  positive _ h := nomatch h
  owned _ h := nomatch h
  latest := ⟨_, _, rfl, Nat.le_refl _, nofun⟩
  committed := .inl rfl
  events := rfl
  reads := Reads.subscribe 0 true
  rebinding := nofun

/-- A fresh event is beyond all others. -/
theorem lt_of_fresh (hs : Ordered s) (hfr : s.Fresh event) :
    ∀ f ∈ s.log, f.eventSeq < event.eventSeq := by
  intro f hf
  obtain ⟨c, _, hc, -, -⟩ := hs.latest
  obtain ⟨he, _, hlt⟩ := hfr c (by rw [hc]; rfl)
  by_cases hold : f.eventSeq ≤ c.resumeAfterEventSeq
  · omega
  · have ho := hs.owned f hf
    rw [Stream.owner_of_lt hc (by omega)] at ho
    exact hlt f hf (by rw [he]; exact (Option.some.inj ho).symm)

/-- A fresh event is beyond what is committed. -/
theorem committed_lt (hs : Ordered s) (hf : s.Fresh event) :
    s.lastCommittedEventSeq < event.eventSeq := by
  rcases hs.committed with _ | ⟨f, hfo, _⟩
  · obtain ⟨c, _, hc, -, -⟩ := hs.latest
    have := (hf c (by rw [hc]; rfl)).2.1
    omega
  · have := hs.lt_of_fresh hf f hfo
    omega

theorem publish (hs : Ordered s) (hfr : s.Fresh event) : Ordered (s.publish event) := by
  have hlt := hs.lt_of_fresh hfr
  have hco := hs.committed_lt hfr
  obtain ⟨c, e, hc, hre, hst⟩ := hs.latest
  obtain ⟨he, hb, -⟩ := hfr c (by rw [hc]; rfl)
  refine ⟨?_, fun f hf => ?_, fun f hf => ?_,
    ⟨c, e, hc, hre, hst⟩, ?_, ?_, hs.reads.publish hlt,
    fun r hr => (hs.rebinding r hr).publish hlt⟩
  · refine List.pairwise_append.2 ⟨hs.sorted, pairwise_singleton _ _, ?_⟩
    intro f hf last hl
    cases List.mem_singleton.1 hl
    exact hlt f hf
  · rcases mem_concat.1 hf with hf | rfl
    · exact hs.positive f hf
    · omega
  · rcases mem_concat.1 hf with hf | rfl
    · exact hs.owned f hf
    · exact (Stream.owner_of_lt hc hb).trans (congrArg some he.symm)
  · exact hs.committed.imp_right fun ⟨f, hf, heq⟩ =>
      ⟨f, mem_append_left _ hf, heq⟩
  · have hlo : (s.publish event).log.filter (fun f =>
        f.eventSeq ≤ s.lastCommittedEventSeq) =
        s.log.filter fun f => f.eventSeq ≤ s.lastCommittedEventSeq := by
      rw [Stream.publish, filter_append, filter_cons_of_neg (by simpa using hco),
        filter_nil, append_nil]
    exact hs.events.trans (congrArg _ hlo.symm)

/-- The client takes the first item that is queued: the next event, or one that it has committed. -/
theorem receive (hs : Ordered s) {rest : List Item}
    (he : s.subscription.events = .event event :: rest) (hr : s.rebinding = none) :
    Ordered (s.receive event rest) := by
  have hmem := hs.reads.known event (he ▸ mem_cons_self)
  have hpos := hs.positive event hmem
  simp only [Stream.receive]
  split
  · next hold =>
    refine { hs with reads := hs.reads.pop he (Nat.le_refl _) fun f hf => ?_ }
    cases hf
    exact hold.2
  · next hne =>
    have hlt : s.lastCommittedEventSeq < event.eventSeq := by
      have := fun h => hne ⟨hpos, h⟩
      exact Nat.lt_of_not_le this
    obtain ⟨c, e, hc, _, -⟩ := hs.latest
    refine ⟨hs.sorted, hs.positive, hs.owned,
      ⟨c, e, hc, by dsimp only; omega, fun _ => by dsimp only; omega⟩,
      .inr ⟨event, hmem, rfl⟩, ?_, ?_, ?_⟩
    · -- Nothing of the log lies between the last committed event and this one.
      have hn := hs.sorted.filter_next hmem hlt fun f hf hf' => by
        by_contra hb
        have := hs.reads.ordered [] event rest he f hf hf' (by omega)
        cases this
      have hold := hs.events
      simp only [Stream.events] at hold ⊢
      rw [hn, filter_append, ← hold]
      by_cases hh : event.kind.handed.isSome = true
      · rw [if_pos hh, filterMap_append]
        simp [hh]
      · rw [if_neg hh]
        simp [hh]
    · refine hs.reads.pop he (Nat.le_of_lt hlt) fun f hf => ?_
      cases hf
      exact Nat.le_refl _
    · rw [hr]
      nofun

theorem recovering (hs : Ordered s) (h : s.recovering = some t) :
    Ordered t ∧ t.stopped = false ∧ t.log = s.log ∧
      t.lastCommittedEventSeq = s.lastCommittedEventSeq ∧
      t.stallRecoveryAttempts = s.stallRecoveryAttempts := by
  simp only [Stream.recovering] at h
  split at h
  · cases h
  · next hr =>
    have hst : s.stopped = false := by simpa using fun h => hr (.inl h)
    split at h
    · cases h
      exact ⟨hs, hst, rfl, rfl, rfl⟩
    · next rest he =>
      cases h
      exact ⟨{ hs with reads := hs.reads.pop he (Nat.le_refl _) nofun }, hst, rfl, rfl, rfl⟩
    · cases h

/-- The client asks for a new subscription, and for a new producer once everything is committed. -/
theorem tryRebind (hs : Ordered s) (hru : s.stopped = false) {m : Bool}
    (hm : m = true → ∀ event ∈ s.log, event.eventSeq ≤ s.lastCommittedEventSeq) :
    Ordered (s.tryRebind m) := by
  have hre : ∀ rebinding ∈ (s.tryRebind m).rebinding,
      Reads s.log s.lastCommittedEventSeq rebinding.subscription := by
    intro rebinding hr
    cases hr
    exact Reads.subscribe _ _
  cases m with
  | false => exact { hs with rebinding := hre }
  | true =>
    refine { hs with
      owned := fun event he => ?_
      latest := ⟨_, _, rfl, Nat.le_refl _, fun h => ?_⟩
      rebinding := hre }
    · -- The new command owns the numbers beyond all that were published.
      rw [Stream.owner, Stream.tryRebind, if_pos rfl,
        find?_cons_of_neg (by simpa using hm rfl event he)]
      exact hs.owned event he
    · exact absurd h (by rw [Stream.tryRebind, hru]; exact Bool.false_ne_true)

theorem stall (hs : Ordered s)
    (ha : s.stallRecoveryAttempts + 1 < maxStallRecoveryAttempts) : Ordered s.stall := by
  rw [Stream.stall, if_neg (by exact Nat.not_le.2 ha)]
  refine { hs with events := ?_, rebinding := nofun }
  have he : ({ s with handed := s.handed ++ [.stalled] } : Stream).events = s.events := by
    simp [Stream.events]
  exact he.trans hs.events

theorem bound (hs : Ordered s) {rebinding : Rebinding} (h : s.rebinding = some rebinding) :
    Ordered (s.bound rebinding) :=
  { hs with reads := hs.rebinding rebinding h, rebinding := nofun }

/-- Orderly steps keep the order. -/
theorem step {a : Action} (ho : Orderly a s) (hs : Ordered s)
    (h : exec a s = some t) : Ordered t := by
  cases a with
  | produce =>
    simp only [exec] at h
    split at h <;> cases h
    exact { hs with }
  | publish i _ p =>
    obtain ⟨producer, hp, rfl⟩ := Option.map_eq_some_iff.1 h
    have hs' : Ordered { s with
        producers := s.producers.set i { producer with sequence := producer.sequence + 1 } } :=
      { hs with }
    cases p with
    | false => exact hs'
    | true => exact hs'.publish (ho producer hp)
  | giveUp | fail =>
    simp only [exec] at h
    split at h <;> cases h
    exact hs.publish ho
  | deliver new =>
    cases new with
    | false =>
      obtain ⟨read, hre, rfl⟩ := Option.map_eq_some_iff.1 h
      exact { hs with reads := hs.reads.deliver hs.sorted hre }
    | true =>
      obtain ⟨rebinding, hr, h⟩ := Option.bind_eq_some_iff.1 h
      obtain ⟨read, hre, rfl⟩ := Option.map_eq_some_iff.1 h
      refine { hs with rebinding := fun f hf => ?_ }
      cases hf
      exact (hs.rebinding rebinding hr).deliver hs.sorted hre
  | lose new =>
    cases new with
    | false =>
      obtain ⟨lost, hl, rfl⟩ := Option.map_eq_some_iff.1 h
      exact { hs with reads := hs.reads.lose hl }
    | true =>
      obtain ⟨rebinding, hr, h⟩ := Option.bind_eq_some_iff.1 h
      obtain ⟨lost, hl, rfl⟩ := Option.map_eq_some_iff.1 h
      refine { hs with rebinding := fun f hf => ?_ }
      cases hf
      exact (hs.rebinding rebinding hr).lose hl
  | receive =>
    simp only [exec] at h
    split at h
    · cases h
    · next hrea =>
      split at h
      · next event rest he =>
        cases h
        exact hs.receive he (by simpa using fun h => hrea (.inr h))
      · cases h
  | rebind =>
    obtain ⟨u, hu, rfl⟩ := Option.map_eq_some_iff.1 h
    obtain ⟨hor, hru, hlo, hc, -⟩ := hs.recovering hu
    refine hor.tryRebind hru fun hm => ?_
    subst hm
    rw [hlo, hc]
    exact ho
  | unreachable =>
    obtain ⟨u, hu, rfl⟩ := Option.map_eq_some_iff.1 h
    obtain ⟨hor, -, -, -, ha⟩ := hs.recovering hu
    exact hor.stall (by rw [ha]; exact ho)
  | bound =>
    obtain ⟨rebinding, hr, h⟩ := Option.bind_eq_some_iff.1 h
    split at h <;> cases h
    exact hs.bound hr
  | abandon =>
    obtain ⟨rebinding, -, rfl⟩ := Option.map_eq_some_iff.1 h
    exact hs.stall ho

theorem run {a : List Action}
    (h : run (guarded Orderly exec) a .start = some s) : Ordered s :=
  guarded_invariant (P := Ordered) (fun _ _ _ hs ho he => hs.step ho he) h start

/-- Everything published is its owner's. -/
theorem reference_eq (hs : Ordered s) : s.reference = s.log :=
  List.filter_eq_self.2 fun event he => decide_eq_true (hs.owned event he)

/-- What is committed was handed out. -/
theorem mem_handed (hs : Ordered s) (he : event ∈ s.log)
    (hle : event.eventSeq ≤ s.lastCommittedEventSeq) (hh : event.kind.handed.isSome = true) :
    Handed.event event ∈ s.handed := by
  have hmem : event ∈ s.events := by
    rw [hs.events]
    exact List.mem_filter.2 ⟨List.mem_filter.2 ⟨he, decide_eq_true hle⟩, hh⟩
  obtain ⟨f, hf, heq⟩ := List.mem_filterMap.1 hmem
  cases f with
  | event =>
    cases heq
    exact hf
  | stalled => cases heq
  | exhausted => cases heq

/-- A client at rest has committed the first event after the newest resume point, if there is one. -/
theorem committed_of_atRest (hs : Ordered s) (hre : s.AtRest) {c : StartCommand}
    (hc : s.commands.head? = some c) (he : event ∈ s.log)
    (hse : event.eventSeq = c.resumeAfterEventSeq + 1) :
    event.eventSeq ≤ s.lastCommittedEventSeq := by
  rcases hre with hst | ⟨-, -, hd, hr⟩
  · obtain ⟨_, _, hco, -, hlt⟩ := hs.latest
    rw [hco] at hc
    cases hc
    have := hlt hst
    omega
  · by_contra hlt
    have hq := hs.reads.queued event (by rw [take_of_length_le hr]; exact he) (by omega)
    rw [hd] at hq
    cases hq

end Ordered

theorem Stream.recovering_handed {s t : Stream} (h : s.recovering = some t) : t.handed = s.handed := by
  simp only [Stream.recovering] at h
  split at h
  · cases h
  · split at h <;> cases h <;> rfl

/-- Unless an attempt to recover fails, a step hands out one event at most. -/
theorem handed_of_exec {a : Action} {s t : Stream} (hr : a.recovers = true)
    (h : exec a s = some t) :
    t.handed = s.handed ∨ ∃ event, t.handed = s.handed ++ [.event event] := by
  cases a with
  | receive =>
    simp only [exec] at h
    split at h
    · cases h
    · split at h
      · next event rest _ =>
        cases h
        simp only [Stream.receive]
        split
        · exact .inl rfl
        · by_cases hh : event.kind.handed.isSome = true
          · exact .inr ⟨event, if_pos hh⟩
          · exact .inl (if_neg hh)
      · cases h
  | produce | giveUp | fail =>
    simp only [exec] at h
    split at h <;> cases h
    exact .inl rfl
  | publish _ _ p =>
    obtain ⟨_, -, rfl⟩ := Option.map_eq_some_iff.1 h
    cases p <;> exact .inl rfl
  | deliver new =>
    cases new with
    | false =>
      obtain ⟨read, -, rfl⟩ := Option.map_eq_some_iff.1 h
      exact .inl rfl
    | true =>
      obtain ⟨r, -, h⟩ := Option.bind_eq_some_iff.1 h
      obtain ⟨read, -, rfl⟩ := Option.map_eq_some_iff.1 h
      exact .inl rfl
  | lose new =>
    cases new with
    | false =>
      obtain ⟨lost, -, rfl⟩ := Option.map_eq_some_iff.1 h
      exact .inl rfl
    | true =>
      obtain ⟨r, -, h⟩ := Option.bind_eq_some_iff.1 h
      obtain ⟨lost, -, rfl⟩ := Option.map_eq_some_iff.1 h
      exact .inl rfl
  | rebind =>
    obtain ⟨u, hu, rfl⟩ := Option.map_eq_some_iff.1 h
    have hh : u.handed = s.handed := Stream.recovering_handed hu
    exact .inl hh
  | bound =>
    obtain ⟨r, -, h⟩ := Option.bind_eq_some_iff.1 h
    split at h <;> cases h
    exact .inl rfl
  | unreachable => cases hr
  | abandon => cases hr

/-- If every attempt to recover succeeds, only events are handed out. -/
theorem handed_eq_events {ac : List Action} {s : Stream}
    (h : run (guarded Smooth exec) ac .start = some s) :
    s.handed = s.events.map .event := by
  refine run_invariant (P := fun s : Stream => s.handed = s.events.map .event)
    (fun a s t hs hst => ?_) h rfl
  obtain ⟨⟨hr, -⟩, he⟩ := guarded_eq_some.1 hst
  rcases handed_of_exec hr he with heq | ⟨event, heq⟩
  · rw [Stream.events, heq]
    exact hs
  · rw [Stream.events, heq, filterMap_append, map_append]
    exact congrArg (· ++ [Handed.event event]) hs

/-- **Events are handed out in order.** In every orderly run, the events that the client has handed
out are those of a part, from its beginning, of what the owners of the numbers have published, which is
numbered in order; and a client at rest has handed out the error that was published for the newest
resume. If every attempt to recover succeeds, the client hands out nothing else. -/
theorem events_in_order (actions : List Action) (s : Stream) :
    (run (guarded Orderly exec) actions .start = some s →
      (∃ delivered, delivered <+: s.reference ∧
        s.events = delivered.filter fun event => event.kind.handed.isSome) ∧
      (s.reference.Pairwise fun event next => event.eventSeq < next.eventSeq) ∧
      ∀ command event, s.commands.head? = some command → event ∈ s.log →
        event.kind.isError = true → event.producerEpoch = command.producerEpoch →
        event.eventSeq = command.resumeAfterEventSeq + 1 → s.AtRest →
        Handed.event event ∈ s.handed) ∧
    (run (guarded Smooth exec) actions .start = some s → s.handed = s.events.map .event) := by
  refine ⟨fun hrun => ?_, fun hrun => handed_eq_events hrun⟩
  have hs := Ordered.run hrun
  rw [hs.reference_eq]
  refine ⟨⟨_, hs.sorted.filter_prefix _, hs.events⟩, hs.sorted,
    fun command event hc hev he _ hse hr => ?_⟩
  refine hs.mem_handed hev (hs.committed_of_atRest hr hc hev hse) ?_
  cases hk : event.kind <;> rw [hk] at he <;> cases he
  rfl

/-- The first producer publishes some output, and the client takes it. -/
def begins : List Action :=
  [.produce ⟨0, 0⟩, .publish 0 .started true, .publish 0 (.stdout [104]) true, .deliver false 0,
    .deliver false 1, .receive, .receive]

/-- The machine moves, and the resume is given up. -/
def resumeFails : List Action :=
  begins ++ [.rebind true, .giveUp ⟨1, 2⟩ "attach target missing", .abandon, .deliver false 2,
    .receive]

/-- The machine moves, and a new producer goes on. -/
def resumes : List Action :=
  begins ++ [.rebind true, .produce ⟨1, 2⟩, .publish 1 .started true, .deliver true 0,
    .deliver true 1, .deliver true 2, .bound, .receive, .publish 1 (.exit (some 0) false) true,
    .deliver false 3, .receive]

/-- The error of a resume that was given up reaches the caller; and after a resume that succeeds, the
output of both producers was handed out, and nothing else. -/
theorem events_in_order_resumes :
    (∃ s, run (guarded Orderly exec) resumeFails .start = some s ∧
      Handed.event ⟨1, 3, .error (some "attach target missing")⟩ ∈ s.handed) ∧
    ∃ s, run (guarded Smooth exec) resumes .start = some s ∧
      s.handed = s.events.map .event ∧
      s.events = [⟨0, 2, .stdout [104]⟩, ⟨1, 4, .exit (some 0) false⟩] := by
  constructor
  · obtain ⟨s, hrun, hs⟩ : ∃ s, run (guarded Orderly exec) resumeFails .start =
          some s ∧
        s.commands.head? = some ⟨1, 2⟩ ∧
          ⟨1, 3, .error (some "attach target missing")⟩ ∈ s.log ∧ s.stopped = true :=
      exists_of_run (by decide +kernel)
    obtain ⟨hc, he, hst⟩ := hs
    exact ⟨s, hrun, ((events_in_order resumeFails s).1 hrun).2.2 ⟨1, 2⟩ _ hc he rfl rfl rfl
      (.inl hst)⟩
  · obtain ⟨s, hrun, hs⟩ : ∃ s, run (guarded Smooth exec) resumes .start =
          some s ∧
        s.events = [⟨0, 2, .stdout [104]⟩, ⟨1, 4, .exit (some 0) false⟩] :=
      exists_of_run (by decide +kernel)
    exact ⟨s, hrun, (events_in_order resumes s).2 hrun, hs⟩

/-- The machine moves, and the old producer goes on publishing beside the new one. -/
def mixes : List Action :=
  begins ++ [.rebind true, .produce ⟨1, 2⟩, .publish 1 .started true,
    .publish 0 (.stdout [120]) true, .publish 0 (.stdout [121]) true,
    .publish 1 (.stdout [105]) true, .deliver true 0, .deliver true 1, .deliver true 2,
    .deliver true 3, .deliver true 4, .deliver true 5, .bound, .receive, .receive, .receive,
    .receive]

/-- The machine moves, the handler of the resume command fails, and the client tries on. -/
def resumeLost : List Action :=
  begins ++ [.rebind true, .fail ⟨1, 2⟩ "guest not ready", .deliver true 0, .deliver true 1,
    .deliver true 2, .abandon, .deliver false 2, .receive] ++
    (List.replicate 4 [.rebind true, .abandon]).flatten

/-- After the rebind, output of the superseded producer is handed out, and for it the new producer's
output with the same number is dropped. And the error for a failed resume has the number of an event
that the client has committed: the client ends without having handed it out. -/
theorem events_mixed_and_lost :
    (∃ s, run exec mixes .start = some s ∧ s.producerEpoch = 1 ∧ s.owner 4 = some 1 ∧
      ⟨0, 4, .stdout [121]⟩ ∈ s.events ∧ ⟨0, 4, .stdout [121]⟩ ∉ s.reference ∧
      ⟨1, 4, .stdout [105]⟩ ∈ s.reference ∧ ⟨1, 4, .stdout [105]⟩ ∉ s.events ∧ s.AtRest) ∧
    ∃ s, run exec resumeLost .start = some s ∧ s.AtRest ∧
      s.commands.head? = some ⟨1, 2⟩ ∧ handlerFailureEvent ⟨1, 2⟩ "guest not ready" ∈ s.log ∧
      Handed.event (handlerFailureEvent ⟨1, 2⟩ "guest not ready") ∉ s.handed := by
  constructor
  · obtain ⟨s, hrun, hs⟩ : ∃ s, run exec mixes .start = some s ∧
        s.producerEpoch = 1 ∧ s.owner 4 = some 1 ∧
          ⟨0, 4, .stdout [121]⟩ ∈ s.events ∧ ⟨0, 4, .stdout [121]⟩ ∉ s.reference ∧
          ⟨1, 4, .stdout [105]⟩ ∈ s.reference ∧ ⟨1, 4, .stdout [105]⟩ ∉ s.events ∧
          s.rebinding = none ∧ s.subscription.isOpen = true ∧ s.subscription.events = [] ∧
          s.log.length ≤ s.subscription.position :=
      exists_of_run (by decide +kernel)
    obtain ⟨he, how, hm, hf, ho, hsk, hr⟩ := hs
    exact ⟨s, hrun, he, how, hm, hf, ho, hsk, .inr hr⟩
  · obtain ⟨s, hrun, hs⟩ : ∃ s, run exec resumeLost .start = some s ∧
        s.stopped = true ∧ s.commands.head? = some ⟨1, 2⟩ ∧
          handlerFailureEvent ⟨1, 2⟩ "guest not ready" ∈ s.log ∧
          Handed.event (handlerFailureEvent ⟨1, 2⟩ "guest not ready") ∉ s.handed :=
      exists_of_run (by decide +kernel)
    obtain ⟨hst, hc, hl, hlo⟩ := hs
    exact ⟨s, hrun, .inl hst, hc, hl, hlo⟩

end Chevalier.ControlBus.ExecEvents
