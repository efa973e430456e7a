import Chevalier.ControlBus.Steps

/-!
# No command is lost

A message stops being delivered when it is acknowledged, when it is terminated, and when its
deliveries are used up. Its command is served if a handler ran to completion for it or it was stored
as a dead letter.

A delivery can be used up without either: it reaches a node the command is not meant for, a node that
is overloaded or cut off, or a command that is in flight; its process crashes; or the dead letter
cannot be stored. And a message is acknowledged as a duplicate because another one came before it,
whatever becomes of that one. `Careful` excludes this for the last delivery of a message, and for
messages that are published while another one with their key is under way.

* `Sound.step`: careful steps keep what the stores say about served commands.
* `settled_served`: after careful steps, every message that is not delivered again was served.
-/

namespace Chevalier.ControlBus

open Schedule List

/-! ## Served commands -/

/-- A handler ran to completion for the command, or it was stored as a dead letter. -/
def Served (s : Bus) (message : Nat) : Prop :=
  ∃ other, Same s message other ∧
    (other ∈ s.ran ∨ ∃ letter ∈ s.deadLetters, letter.message = other)

/-- The message was acknowledged or terminated, or its deliveries are used up and over. -/
def Settled (config : ControlBusConfig) (s : Bus) (message : Nat) : Prop :=
  ∃ entry ∈ s.messages[message]?, entry.settlement ≠ none ∨
    (config.commandMaxDeliver ≤ entry.delivered ∧
      ∀ attempt ≤ entry.delivered, ∀ delivery ∈ s.delivery message attempt,
        delivery.phase = .done)

instance (config : ControlBusConfig) (s : Bus) (message : Nat) :
    Decidable (Settled config s message) :=
  inferInstanceAs (Decidable (∃ entry ∈ s.messages[message]?, _))

theorem payloadKey_deadLetterPayload {p : Payload} {key : Key}
    (h : payloadKey (deadLetterPayload p) = some key) : payloadKey p = some key := by
  cases p with
  | command => exact h
  | invalid json =>
    cases json with
    | true => exact h
    | false => cases h

section

variable {config co : ControlBusConfig} {s t u : Bus} {message m attempt : Nat}
  {delivery d next : Delivery}

theorem Served.mono (h : Served s m)
    (hk : ∀ m key, s.key m = some key → t.key m = some key)
    (hr : s.ran ⊆ t.ran) (hl : s.deadLetters ⊆ t.deadLetters) : Served t m := by
  obtain ⟨o, hsa, hs⟩ := h
  refine ⟨o, hsa.imp_right fun ⟨key, hm, ho⟩ =>
    ⟨key, hk _ _ hm, hk _ _ ho⟩, ?_⟩
  exact hs.imp (fun hmem => hr hmem) fun ⟨l, hle, heq⟩ => ⟨l, hl hle, heq⟩

theorem Served.of_same {o : Nat} (h : Served s o) (hsa : Same s m o) :
    Served s m := by
  obtain ⟨th, ho, hs⟩ := h
  exact ⟨th, hsa.trans ho, hs⟩

theorem served_of_ran (h : m ∈ s.ran) : Served s m :=
  ⟨m, .inl rfl, .inl h⟩

/-! ## Careful steps -/

/-- The last delivery of a message reaches a node it is meant for, which has room for it and is not
cut off; it finds the in-flight locks free; its process does not crash; and the dead letter is stored.
A command is published under a key that looks like no etcd key, and only while no message with its key
is going to be delivered. -/
def Careful (config : ControlBusConfig) : Action → Bus → Prop
  | .publish payload, s => ∀ key ∈ payloadKey payload, key.Plain ∧
    ∀ message < s.messages.length, s.key message = some key → Settled config s message
  | .deliver message _ overloaded, s => ∀ entry ∈ s.messages[message]?,
    config.commandMaxDeliver ≤ entry.delivered + 1 → overloaded = false
  | .step message attempt input, s => config.commandMaxDeliver ≤ attempt →
    ∀ delivery ∈ s.delivery message attempt, (delivery.phase = .rejected → input.succeeds) ∧
      ∀ envelope ∈ s.envelope message,
        (delivery.phase = .received → targets envelope delivery.node ∧ input.gateOpen) ∧
        (delivery.phase = .admitted →
          s.etcd (inflightKey (dedupeKey envelope message attempt)) = none) ∧
        (delivery.phase = .owning →
          s.active delivery.node (dedupeKey envelope message attempt) = false)
  | .crash node, s => ∀ message < s.messages.length, ∀ attempt ≤ config.commandMaxDeliver,
    config.commandMaxDeliver ≤ attempt → ∀ delivery ∈ s.delivery message attempt,
      delivery.node = node → delivery.phase = .done
  | .replay _, _ | .releaseOwner _ _ _, _ | .releaseActive _ _, _ | .expireLease _, _
  | .expireLocal _ _, _ => True

instance (config : ControlBusConfig) (action : Action) (s : Bus) :
    Decidable (Careful config action s) :=
  match action with
  | .publish _ => inferInstanceAs (Decidable (∀ _ ∈ _, _))
  | .deliver _ _ _ => inferInstanceAs (Decidable (∀ _ ∈ _, _))
  | .step _ _ _ => inferInstanceAs (Decidable (_ → _))
  | .crash _ => inferInstanceAs (Decidable (∀ _, _ → _))
  | .replay _ | .releaseOwner _ _ _ | .releaseActive _ _ | .expireLease _ | .expireLocal _ _ =>
    inferInstanceAs (Decidable True)

/-! ## The invariant -/

/-- Deliveries are numbered, commands that may not be delivered again were served, and the stores tell
the truth: a completion marker comes from a handler that ran, and a marker of the duplicate
suppression from a first delivery that went on. -/
structure Sound (config : ControlBusConfig) (s : Bus) : Prop where
  attempt : ∀ message attempt delivery, s.delivery message attempt = some delivery →
    ∃ entry, s.messages[message]? = some entry ∧ 0 < attempt ∧ attempt ≤ entry.delivered
  delivered : ∀ message entry, s.messages[message]? = some entry →
    entry.delivered ≤ config.commandMaxDeliver ∧
      ∀ attempt, 0 < attempt → attempt ≤ entry.delivered →
        (s.delivery message attempt).isSome
  settled : ∀ message entry, s.messages[message]? = some entry → entry.settlement ≠ none →
    Served s message
  first : ∀ message attempt delivery, s.delivery message attempt = some delivery →
    delivery.phase = .marked → attempt = 1
  handled : ∀ message attempt delivery, s.delivery message attempt = some delivery →
    delivery.phase = .finished ∨ delivery.phase = .noted → message ∈ s.ran
  leaving : ∀ message attempt delivery, s.delivery message attempt = some delivery →
    delivery.phase = .acking ∨ delivery.phase = .terminating → Served s message
  last : ∀ message attempt delivery, s.delivery message attempt = some delivery →
    config.commandMaxDeliver ≤ attempt → delivery.phase = .done → Served s message
  repeated : ∀ message other key, message ≠ other → s.key message = some key →
    s.key other = some key → Served s message
  plain : ∀ message key, s.key message = some key → key.Plain
  letter : ∀ letter ∈ s.deadLetters, ∀ key, payloadKey letter.payload = some key →
    s.key letter.message = some key
  completed : ∀ node key, s.completed node key = true →
    ∃ message ∈ s.ran, ∃ attempt, s.deliveryKey message attempt = some key
  etcdCompleted : ∀ key, (s.etcd (completedKey key)).isSome →
    ∃ message ∈ s.ran, ∃ attempt, s.deliveryKey message attempt = some key
  marker : ∀ key, key.Plain → (s.etcd key).isSome → ∃ message delivery,
    s.deliveryKey message 1 = some key ∧ s.delivery message 1 = some delivery ∧
      delivery.phase ≠ .received
  seen : ∀ node key, s.seen node key = true → ∃ message delivery,
    s.deliveryKey message 1 = some key ∧ s.delivery message 1 = some delivery ∧
      delivery.phase ≠ .received ∧ delivery.phase ≠ .marked

theorem Sound.start : Sound co .start where
  attempt _ _ _ h := nomatch h
  delivered _ _ h := nomatch h
  settled _ _ h := nomatch h
  first _ _ _ h := nomatch h
  handled _ _ _ h := nomatch h
  leaving _ _ _ h := nomatch h
  last _ _ _ h := nomatch h
  repeated _ _ _ _ h := nomatch h
  plain _ _ h := nomatch h
  letter _ h := nomatch h
  completed _ _ h := nomatch h
  etcdCompleted _ h := nomatch h
  marker _ _ h := nomatch h
  seen _ _ h := nomatch h

/-- A message that is not delivered again was served. -/
theorem Sound.served_of_settled (h : Sound co s) (hse : Settled co s m) :
    Served s m := by
  obtain ⟨e, he, hs | ⟨hsp, hdo⟩⟩ := hse
  · exact h.settled m e he hs
  · obtain ⟨d, hd⟩ := Option.isSome_iff_exists.1 ((h.delivered m e he).2 _ co.maxDeliver_pos hsp)
    exact h.last m _ d hd (Nat.le_refl _) (hdo _ hsp d hd)

/-- What is known of a delivery at its phase. -/
structure Reached (config : ControlBusConfig) (u : Bus) (message attempt : Nat)
    (delivery : Delivery) : Prop where
  first : delivery.phase = .marked → attempt = 1
  handled : delivery.phase = .finished ∨ delivery.phase = .noted → message ∈ u.ran
  leaving : delivery.phase = .acking ∨ delivery.phase = .terminating → Served u message
  last : config.commandMaxDeliver ≤ attempt → delivery.phase = .done → Served u message

/-- What a step may do, apart from the numbers of the deliveries: what is new is accounted for, and a
first delivery that has gone on stays one. -/
structure Evolves (config : ControlBusConfig) (s u : Bus) : Prop where
  envelope : ∀ message envelope, s.envelope message = some envelope →
    u.envelope message = some envelope
  keys : ∀ message key, u.key message = some key → s.key message = some key ∨
    key.Plain ∧ ∀ other, other ≠ message → u.key other = some key → Served u message
  ran : s.ran ⊆ u.ran
  deadLetters : s.deadLetters ⊆ u.deadLetters
  letter : ∀ letter ∈ u.deadLetters, letter ∈ s.deadLetters ∨
    ∀ key, payloadKey letter.payload = some key → u.key letter.message = some key
  settled : ∀ message entry, u.messages[message]? = some entry → entry.settlement ≠ none →
    Served u message ∨ ∃ old, s.messages[message]? = some old ∧ old.settlement ≠ none
  deliveries : ∀ message attempt delivery, u.delivery message attempt = some delivery →
    s.delivery message attempt = some delivery ∨ Reached config u message attempt delivery
  kept : ∀ message delivery, s.delivery message 1 = some delivery → delivery.phase ≠ .received →
    ∃ later, u.delivery message 1 = some later ∧ later.phase ≠ .received ∧
      (delivery.phase ≠ .marked → later.phase ≠ .marked)
  completed : ∀ node key, u.completed node key = true → s.completed node key = true ∨
    ∃ message ∈ u.ran, ∃ attempt, u.deliveryKey message attempt = some key
  etcdCompleted : ∀ key, (u.etcd (completedKey key)).isSome → (s.etcd (completedKey key)).isSome ∨
    ∃ message ∈ u.ran, ∃ attempt, u.deliveryKey message attempt = some key
  marker : ∀ key, key.Plain → (u.etcd key).isSome → (s.etcd key).isSome ∨
    ∃ message delivery, u.deliveryKey message 1 = some key ∧ u.delivery message 1 = some delivery ∧
      delivery.phase ≠ .received
  seen : ∀ node key, u.seen node key = true → s.seen node key = true ∨
    ∃ message delivery, u.deliveryKey message 1 = some key ∧ u.delivery message 1 = some delivery ∧
      delivery.phase ≠ .received ∧ delivery.phase ≠ .marked

/-- **What the invariant needs of a step.** -/
theorem Sound.evolve (h : Sound co s) (he : Evolves co s u)
    (ha : ∀ m attempt d, u.delivery m attempt = some d →
      ∃ en, u.messages[m]? = some en ∧ 0 < attempt ∧ attempt ≤ en.delivered)
    (hdel : ∀ m en, u.messages[m]? = some en →
      en.delivered ≤ co.commandMaxDeliver ∧
        ∀ attempt, 0 < attempt → attempt ≤ en.delivered →
          (u.delivery m attempt).isSome) : Sound co u := by
  have hk : ∀ m key, s.key m = some key → u.key m = some key :=
    fun m _ => Bus.key_of_envelope (he.envelope m)
  have hde : ∀ {m attempt key}, s.deliveryKey m attempt = some key →
      u.deliveryKey m attempt = some key := by
    intro m attempt key hm
    obtain ⟨e, hf, rfl⟩ := Option.map_eq_some_iff.1 hm
    exact Bus.deliveryKey_of_envelope (he.envelope m e hf)
  have hmo : ∀ {m}, Served s m → Served u m := fun hse =>
    hse.mono hk he.ran he.deadLetters
  have hre : ∀ {m attempt d}, u.delivery m attempt = some d →
      Reached co u m attempt d := by
    intro m attempt d hd
    refine (he.deliveries m attempt d hd).elim (fun hold => ?_) id
    exact ⟨h.first m attempt d hold,
      fun hp => he.ran (h.handled m attempt d hold hp),
      fun hp => hmo (h.leaving m attempt d hold hp),
      fun hlas hp => hmo (h.last m attempt d hold hlas hp)⟩
  have hra : ∀ {key}, (∃ m ∈ s.ran, ∃ attempt, s.deliveryKey m attempt = some key) →
      ∃ m ∈ u.ran, ∃ attempt, u.deliveryKey m attempt = some key :=
    fun ⟨m, hmem, attempt, hm⟩ => ⟨m, he.ran hmem, attempt, hde hm⟩
  refine ⟨ha, hdel, fun m en hen hs => ?_,
    fun _ _ _ hd => (hre hd).first,
    fun _ _ _ hd => (hre hd).handled,
    fun _ _ _ hd => (hre hd).leaving,
    fun _ _ _ hd => (hre hd).last,
    fun m o key hne hm ho => ?_, fun m key hm => ?_,
    fun le hle key hl => ?_,
    fun node key hf => (he.completed node key hf).elim (hra <| h.completed node key ·) id,
    fun key hf => (he.etcdCompleted key hf).elim (hra <| h.etcdCompleted key ·) id,
    fun key hpl hf => ?_, fun node key hf => ?_⟩
  · obtain hse | ⟨old, hold, hs⟩ := he.settled m en hen hs
    · exact hse
    · exact hmo (h.settled m old hold hs)
  · -- the one of the two that is older was served
    obtain hold | ⟨-, hn⟩ := he.keys m key hm
    · obtain ho' | ⟨-, hn⟩ := he.keys o key ho
      · exact hmo (h.repeated m o key hne hold ho')
      · exact (hn m hne hm).of_same (.inr ⟨key, hm, ho⟩)
    · exact hn o hne.symm ho
  · exact (he.keys m key hm).elim (h.plain m key) And.left
  · obtain hold | hn := he.letter le hle
    · exact hk _ _ (h.letter le hold key hl)
    · exact hn key hl
  · refine (he.marker key hpl hf).elim (fun hold => ?_) id
    obtain ⟨m, d, hm, hd, hr⟩ := h.marker key hpl hold
    obtain ⟨l, hla, hr, -⟩ := he.kept m d hd hr
    exact ⟨m, l, hde hm, hla, hr⟩
  · refine (he.seen node key hf).elim (fun hold => ?_) id
    obtain ⟨m, d, hm, hd, hr, hma⟩ := h.seen node key hold
    obtain ⟨l, hla, hr, hm'⟩ := he.kept m d hd hr
    exact ⟨m, l, hde hm, hla, hr, hm' hma⟩

/-- A step that delivers no message. -/
theorem Sound.evolve_quiet (h : Sound co s) (he : Evolves co s u)
    (hm : ∀ m : Nat, u.messages[m]?.map Message.delivered = s.messages[m]?.map Message.delivered)
    (hd : ∀ m attempt, (u.delivery m attempt).isSome = (s.delivery m attempt).isSome) :
    Sound co u := by
  refine h.evolve he (fun m attempt d hde => ?_) fun m e hen => ?_
  · obtain ⟨old, hold⟩ := Option.isSome_iff_exists.1 (hd m attempt ▸ Option.isSome_of_eq_some hde)
    obtain ⟨e, hen, hpos, hle⟩ := h.attempt m attempt old hold
    have hmap := hm m
    rw [hen, Option.map_some, Option.map_eq_some_iff] at hmap
    obtain ⟨l, hl, heq⟩ := hmap
    exact ⟨l, hl, hpos, heq ▸ hle⟩
  · have hmap := (hm m).symm
    rw [hen, Option.map_some, Option.map_eq_some_iff] at hmap
    obtain ⟨old, hold, heq⟩ := hmap
    obtain ⟨hmax, hexi⟩ := h.delivered m old hold
    exact ⟨heq ▸ hmax, fun attempt hpos hle => hd m attempt ▸ hexi attempt hpos (heq ▸ hle)⟩

/-- What a step of a delivery may change beside the delivery. -/
structure Advance (s u : Bus) (message attempt : Nat) (delivery : Delivery) : Prop where
  messages : u.messages = s.messages
  deliveries : u.delivery = s.delivery
  ran : s.ran ⊆ u.ran
  deadLetters : s.deadLetters ⊆ u.deadLetters
  letter : ∀ letter ∈ u.deadLetters, letter ∈ s.deadLetters ∨ letter.message = message ∧
    ∀ key, payloadKey letter.payload = some key → s.key message = some key
  completed : ∀ node key, u.completed node key = true → s.completed node key = true ∨
    message ∈ u.ran ∧ s.deliveryKey message attempt = some key
  etcdCompleted : ∀ key, (u.etcd (completedKey key)).isSome →
    (s.etcd (completedKey key)).isSome ∨
      message ∈ u.ran ∧ s.deliveryKey message attempt = some key
  marker : ∀ key, key.Plain → (u.etcd key).isSome → (s.etcd key).isSome ∨
    attempt = 1 ∧ s.deliveryKey message attempt = some key
  seen : ∀ node key, u.seen node key = true → s.seen node key = true ∨
    attempt = 1 ∧ delivery.phase = .marked ∧ s.deliveryKey message attempt = some key

theorem Advance.refl (d : Delivery) : Advance s s m attempt d where
  messages := rfl
  deliveries := rfl
  ran := List.Subset.refl _
  deadLetters := List.Subset.refl _
  letter := fun _ => .inl
  completed := fun _ _ => .inl
  etcdCompleted := fun _ => .inl
  marker := fun _ _ => .inl
  seen := fun _ _ => .inl

/-- Where a delivery may go. -/
structure Turn (config : ControlBusConfig) (u : Bus) (message attempt : Nat)
    (delivery next : Delivery) : Prop where
  received : next.phase ≠ .received
  marked : next.phase = .marked → delivery.phase = .received ∧ attempt = 1
  handled : next.phase = .finished ∨ next.phase = .noted → message ∈ u.ran
  leaving : next.phase = .acking ∨ next.phase = .terminating → Served u message
  last : config.commandMaxDeliver ≤ attempt → next.phase = .done → Served u message

/-- **A delivery goes on.** -/
theorem Sound.advance (h : Sound co s) (hde : s.delivery m attempt = some d)
    (ha : Advance s u m attempt d)
    (ht : Turn co u m attempt d next) :
    Sound co (u.setDelivery m attempt next) := by
  have he : u.envelope = s.envelope := Bus.envelope_congr ha.messages
  have hk : u.key = s.key := Bus.key_congr he
  have hd : u.deliveryKey = s.deliveryKey := Bus.deliveryKey_congr he
  have hse : ∀ o n, (u.setDelivery m attempt next).delivery o n =
      if o = m ∧ n = attempt then some next else u.delivery o n :=
    Bus.delivery_setDelivery
  refine h.evolve_quiet
    { envelope := fun o envelope ho => by rwa [Bus.setDelivery_envelope, he]
      keys := fun o key ho => .inl (by rwa [Bus.setDelivery_key, hk] at ho)
      ran := ha.ran
      deadLetters := ha.deadLetters
      letter := fun letter hle => (ha.letter letter hle).imp_right
        fun ⟨heq, hm⟩ key hl => by
          rw [Bus.setDelivery_key, hk, heq]
          exact hm key hl
      settled := fun o e hen hs =>
        .inr ⟨e, by rwa [Bus.setDelivery_messages, ha.messages] at hen, hs⟩
      deliveries := fun o n f hf => ?_
      kept := fun o f hf hp => ?_
      completed := fun node key hf => (ha.completed node key hf).imp_right
        fun ⟨hr, hm⟩ => ⟨m, hr, attempt, hd ▸ hm⟩
      etcdCompleted := fun key hf => (ha.etcdCompleted key hf).imp_right
        fun ⟨hr, hm⟩ => ⟨m, hr, attempt, hd ▸ hm⟩
      marker := fun key hpl hf => (ha.marker key hpl hf).imp_right ?_
      seen := fun node key hf => (ha.seen node key hf).imp_right ?_ }
    (fun o => by rw [Bus.setDelivery_messages, ha.messages]) fun o n => ?_
  · rw [hse] at hf
    split_ifs at hf with heq
    · obtain ⟨rfl, rfl⟩ := heq
      cases hf
      exact .inr ⟨fun hma => (ht.marked hma).2, ht.handled, ht.leaving, ht.last⟩
    · exact .inl (ha.deliveries ▸ hf)
  · by_cases heq : o = m ∧ 1 = attempt
    · obtain ⟨rfl, rfl⟩ := heq
      cases hde.symm.trans hf
      exact ⟨next, Bus.delivery_setDelivery_self, ht.received, fun _ hma =>
        hp (ht.marked hma).1⟩
    · refine ⟨f, ?_, hp, id⟩
      rw [hse, if_neg heq, ha.deliveries, hf]
  · rintro ⟨rfl, hm⟩
    exact ⟨m, next, hd ▸ hm, Bus.delivery_setDelivery_self, ht.received⟩
  · rintro ⟨rfl, hma, hm⟩
    refine ⟨m, next, hd ▸ hm, Bus.delivery_setDelivery_self, ht.received, fun hn => ?_⟩
    rw [(ht.marked hn).1] at hma
    cases hma
  · rw [hse]
    split_ifs with heq
    · rw [heq.1, heq.2, hde]
      rfl
    · rw [ha.deliveries]

/-- Nothing is known yet about a delivery at this point. -/
def Phase.open : Phase → Bool
  | .missed | .admitted | .owning | .guarded | .cleared | .running | .failedRun | .rejected => true
  | .received | .marked | .finished | .noted | .acking | .terminating | .done => false

theorem Turn.of_open (h : next.phase.open = true) : Turn co u m attempt d next := by
  obtain ⟨_, p, _, _⟩ := next
  cases p <;> first
    | exact absurd h Bool.false_ne_true
    | exact ⟨nofun, nofun, by simp, by simp, nofun⟩

/-- A delivery on the way to being acknowledged. -/
theorem Turn.of_served (h : Served u m) (hp : next.phase = .acking ∨ next.phase = .done) :
    Turn co u m attempt d next := by
  obtain ⟨_, _, _, _⟩ := next
  obtain rfl | rfl := hp
  · exact ⟨nofun, nofun, by simp, fun _ => h, fun _ _ => h⟩
  · exact ⟨nofun, nofun, by simp, fun _ => h, fun _ _ => h⟩

/-- Taking a message off the queue. -/
theorem Sound.settle (h : Sound co s) (hse : Served s m) (se : Settlement) :
    Sound co (s.settle m se) := by
  have he : (s.settle m se).envelope = s.envelope := Bus.settle_envelope
  have hk := Bus.key_congr he
  refine h.evolve_quiet
    { envelope := fun o envelope ho => by rwa [he]
      keys := fun o key ho => .inl (by rwa [hk] at ho)
      settled := fun o e hen hs => ?_
      ran := fun _ h => h
      deadLetters := fun _ h => h
      letter := fun _ h => .inl h
      deliveries := fun _ _ _ h => .inl h
      kept := fun _ d h h' => ⟨d, h, h', id⟩
      completed := fun _ _ h => .inl h
      etcdCompleted := fun _ h => .inl h
      marker := fun _ _ h => .inl h
      seen := fun _ _ h => .inl h }
    (fun o => ?_) fun _ _ => rfl
  · rw [Bus.settle_messages] at hen
    obtain ⟨old, hold, rfl⟩ := Option.map_eq_some_iff.1 hen
    by_cases heq : m = o
    · exact .inl (heq ▸ hse.mono (fun _ _ ho => by rwa [hk]) (List.Subset.refl _)
        (List.Subset.refl _))
    · rw [if_neg heq] at hs
      exact .inr ⟨old, hold, hs⟩
  · rw [Bus.settle_messages, Option.map_map]
    by_cases heq : m = o <;> simp [heq, Function.comp_def]

/-- A delivery of a served command is over, and its message may be settled. -/
theorem Sound.over (h : Sound co s) (hd : s.delivery m attempt = some d)
    (hp : d.phase = .acking ∨ d.phase = .terminating) (se : Settlement)
    (su : Bool) (hn : next.phase = .done) :
    Sound co ((if su then s.settle m se else s).setDelivery m attempt next) := by
  have hse := h.leaving m attempt d hd hp
  split
  · have hs := h.settle hse se
    exact hs.advance hd (.refl d) (.of_served (hs.leaving m attempt d hd hp) (.inr hn))
  · exact h.advance hd (.refl d) (.of_served hse (.inr hn))

/-- A first delivery that finds a trace of another one belongs to a served command. -/
theorem Sound.served_of_trace (h : Sound co s) {o : Nat} {f : Delivery} {key : Key}
    (hd : s.delivery m 1 = some d)
    (hk : s.deliveryKey m 1 = some key) (ho : s.deliveryKey o 1 = some key)
    (hf : s.delivery o 1 = some f) (hp : f.phase ≠ d.phase) :
    Served s m := by
  rcases same_of_deliveryKey hk ho with rfl | ⟨n, hn, hn'⟩
  · exact absurd (congrArg Delivery.phase (Option.some.inj (hf.symm.trans hd))) hp
  · by_cases heq : m = o
    · subst heq
      exact absurd (congrArg Delivery.phase (Option.some.inj (hf.symm.trans hd))) hp
    · exact h.repeated m o n heq hn hn'

theorem served_of_key {key : Key}
    (hk : s.deliveryKey m attempt = some key)
    (hr : ∃ o ∈ s.ran, ∃ n, s.deliveryKey o n = some key) :
    Served s m := by
  obtain ⟨o, hr, n, ho⟩ := hr
  exact (served_of_ran hr).of_same (same_of_deliveryKey hk ho)

/-- Values that are put under keys of other kinds leave the markers alone. -/
theorem Advance.of_etcd {etcd : Key → Option EtcdValue}
    (hc : ∀ key, (etcd (completedKey key)).isSome →
      (s.etcd (completedKey key)).isSome ∨ m ∈ s.ran ∧ s.deliveryKey m attempt = some key)
    (hm : ∀ key, key.Plain → (etcd key).isSome → (s.etcd key).isSome ∨
      attempt = 1 ∧ s.deliveryKey m attempt = some key) :
    Advance s { s with etcd := etcd } m attempt d :=
  { Advance.refl d with etcdCompleted := hc, marker := hm }

theorem Advance.mark {key : Key} (hp : key.Plain) (hf : attempt = 1)
    (hk : s.deliveryKey m attempt = some key) :
    Advance s (s.setEtcd key (some .one)) m attempt d := by
  refine .of_etcd (fun other ho => .inl ?_) fun other _ ho => ?_
  · rwa [Function.update_of_ne (hp.ne_completedKey other).symm] at ho
  · by_cases heq : other = key
    · exact .inr ⟨hf, heq ▸ hk⟩
    · rw [Function.update_of_ne heq] at ho
      exact .inl ho

theorem Advance.lock {key : Key} {v : EtcdValue} :
    Advance s (s.setEtcd (inflightKey key) (some v)) m attempt d := by
  refine .of_etcd (fun other ho => .inl ?_) fun other hp ho => .inl ?_
  · rwa [Function.update_of_ne (inflightKey_ne_completedKey key other).symm] at ho
  · rwa [Function.update_of_ne (hp.ne_inflightKey key)] at ho

theorem Advance.create {key : Key} {v : EtcdValue} {a : Bool}
    (h : Advance s (s.setEtcd key (some v)) m attempt d) :
    Advance s (if a then s.createEtcd key v else s) m attempt d := by
  unfold Bus.createEtcd
  split_ifs
  · exact h
  · exact { Advance.refl d with }
  · exact .refl d

/-- **Every step of a delivery keeps the invariant.** -/
theorem Sound.transition (h : Sound co s) {en : Message} {i : Input}
    (hca : Careful co (.step m attempt i) s)
    (hen : s.messages[m]? = some en)
    (hd : s.delivery m attempt = some d)
    (ht : Transition co s m attempt d en.payload i u next) :
    Sound co (u.setDelivery m attempt next) := by
  have he : ∀ {e}, en.payload = .command e →
      s.envelope m = some e := fun hp => Bus.envelope_of_messages hen hp
  have hk : ∀ {e}, en.payload = .command e →
      s.deliveryKey m attempt = some (dedupeKey e m attempt) :=
    fun hp => Bus.deliveryKey_of_envelope (he hp)
  have hq : ∀ {next}, Turn co s m attempt d next →
      Sound co (s.setDelivery m attempt next) :=
    fun htu => h.advance hd (.refl d) htu
  have hf : attempt ≤ 1 → attempt = 1 := fun hle =>
    Nat.le_antisymm hle (h.attempt m attempt d hd).choose_spec.2.1
  have hpl : ∀ {e}, en.payload = .command e →
      (dedupeKey e m attempt).Plain :=
    fun hp => Bus.plain_of_deliveryKey h.plain (hk hp)
  cases ht with
  | refused hp hph hr =>
    -- the last delivery of a message is not refused
    refine hq ⟨nofun, nofun, by simp, by simp, fun hl _ => ?_⟩
    obtain ⟨hta, hg⟩ :=
      ((hca hl d hd).2 _ (he hp)).1 hph
    rcases hr with hr | hr
    · exact absurd hta hr
    · rw [hg] at hr
      cases hr
  | duplicate hp hph hle hm =>
    obtain rfl := hf hle
    obtain ⟨o, f, ho, hfo, hre⟩ := h.marker _ (hpl hp) hm
    exact hq (.of_served (h.served_of_trace hd (hk hp) ho hfo (hph ▸ hre)) (.inl rfl))
  | marks hp hph hle =>
    exact h.advance hd (.mark (hpl hp) (hf hle) (hk hp))
      ⟨nofun, fun _ => ⟨hph, hf hle⟩, by simp, by simp, nofun⟩
  | marksUnanswered hp hph hle =>
    exact h.advance hd (.create (.mark (hpl hp) (hf hle) (hk hp)))
      ⟨nofun, fun _ => ⟨hph, hf hle⟩, by simp, by simp, nofun⟩
  | knows hp _ hc => exact hq (.of_served (served_of_key (hk hp) (h.completed _ _ hc)) (.inl rfl))
  | recalls hp hph hs =>
    obtain rfl := h.first m attempt d hd hph
    obtain ⟨o, f, ho, hfo, -, hma⟩ := h.seen _ _ hs
    exact hq (.of_served (h.served_of_trace hd (hk hp) ho hfo (hph ▸ hma)) (.inl rfl))
  | remembers hp hph =>
    refine h.advance hd { Advance.refl d with seen := fun node key hs => ?_ } (.of_open rfl)
    rcases Bus.of_setMap hs with hs | rfl
    · exact .inl hs
    · exact .inr ⟨h.first m attempt d hd hph, hph, hk hp⟩
  | finds hp _ hc => exact hq (.of_served (served_of_key (hk hp) (h.etcdCompleted _ hc)) (.inl rfl))
  | owned hp hph hlo =>
    refine hq ⟨nofun, nofun, by simp, by simp, fun hl _ => ?_⟩
    have hfr := ((hca hl d hd).2 _ (he hp)).2.1 hph
    rw [hfr] at hlo
    cases hlo
  | owns => exact h.advance hd .lock (.of_open rfl)
  | ownsUnanswered => exact h.advance hd (.create .lock) (.of_open rfl)
  | busy hp hph ha =>
    refine hq ⟨nofun, nofun, by simp, by simp, fun hl _ => ?_⟩
    have hfr := ((hca hl d hd).2 _ (he hp)).2.2 hph
    rw [hfr] at ha
    cases ha
  | locks => exact h.advance hd { Advance.refl d with } (.of_open rfl)
  | completes =>
    exact h.advance hd { Advance.refl d with ran := subset_cons_self _ _ }
      ⟨nofun, nofun, fun _ => mem_cons_self, by simp, nofun⟩
  | notes hp hph =>
    have hra := h.handled m attempt d hd (.inl hph)
    refine h.advance hd { Advance.refl d with completed := fun node key hc => ?_ }
      ⟨nofun, nofun, fun _ => hra, by simp, nofun⟩
    rcases Bus.of_setMap hc with hc | rfl
    · exact .inl hc
    · exact .inr ⟨hra, hk hp⟩
  | @records e hp hph =>
    have hra := h.handled m attempt d hd (.inr hph)
    refine h.advance hd (.of_etcd (fun key hc => ?_) fun key hp' hm => ?_)
      (.of_served (served_of_ran hra) (.inl rfl))
    · by_cases heq : completedKey key = completedKey (dedupeKey e m attempt)
      · exact .inr ⟨hra, completedKey_inj heq ▸ hk hp⟩
      · rw [Function.update_of_ne heq] at hc
        exact .inl hc
    · rw [Function.update_of_ne (hp'.ne_completedKey _)] at hm
      exact .inl hm
  | recordsNothing _ hph =>
    exact hq (.of_served (served_of_ran (h.handled m attempt d hd (.inr hph))) (.inl rfl))
  | acks hph => exact h.over hd (.inl hph) .acked _ rfl
  | buries hph hl =>
    rw [if_pos ((hca hl d hd).1 hph)]
    refine h.advance hd
      { Advance.refl d with
        deadLetters := subset_cons_self _ _, letter := fun letter hlet => ?_ }
      ⟨nofun, nofun, by simp, fun _ => ⟨m, .inl rfl, .inr ⟨_, mem_cons_self, rfl⟩⟩, nofun⟩
    rcases List.mem_cons.1 hlet with rfl | hlet
    · refine .inr ⟨rfl, fun key hlett => ?_⟩
      rw [Bus.key_of_messages hen]
      exact payloadKey_deadLetterPayload hlett
    · exact .inl hlet
  | returns => exact hq ⟨nofun, nofun, by simp, by simp, fun hmax => absurd hmax (by omega)⟩
  | terminates hph => exact h.over hd (.inr hph) .terminated _ rfl
  | _ => exact hq (.of_open rfl)

/-! ## The other steps -/

/-- A store may forget. -/
theorem Sound.forget (h : Sound co s) (hm : u.messages = s.messages)
    (hd : u.delivery = s.delivery) (hr : u.ran = s.ran)
    (hl : u.deadLetters = s.deadLetters)
    (hc : ∀ node key, u.completed node key = true → s.completed node key = true)
    (hetc : ∀ key, (u.etcd key).isSome → (s.etcd key).isSome)
    (hse : ∀ node key, u.seen node key = true → s.seen node key = true) : Sound co u := by
  have he := Bus.envelope_congr hm
  refine h.evolve_quiet
    { envelope := fun _ _ ho => he ▸ ho
      keys := fun _ _ ho => .inl (Bus.key_congr he ▸ ho)
      ran := hr ▸ List.Subset.refl _
      deadLetters := hl ▸ List.Subset.refl _
      letter := fun _ hle => .inl (hl ▸ hle)
      settled := fun _ e hen hs => .inr ⟨e, hm ▸ hen, hs⟩
      deliveries := fun _ _ _ hf => .inl (hd ▸ hf)
      kept := fun _ d hf hp => ⟨d, hd ▸ hf, hp, id⟩
      completed := fun node key hf => .inl (hc node key hf)
      etcdCompleted := fun key hf => .inl (hetc _ hf)
      marker := fun key _ hf => .inl (hetc key hf)
      seen := fun node key hf => .inl (hse node key hf) }
    (fun _ => by rw [hm]) fun _ _ => by rw [hd]

/-- A message is published whose command is new or was served. -/
theorem Sound.append (h : Sound co s) {p : Payload}
    (hn : ∀ key, payloadKey p = some key → key.Plain ∧ ∀ m, s.key m = some key → Served s m) :
    Sound co { s with messages := s.messages ++ [⟨p, 0, none⟩] } := by
  set t : Bus := { s with messages := s.messages ++ [⟨p, 0, none⟩] }
  have hold : ∀ {m}, m < s.messages.length →
      t.messages[m]? = s.messages[m]? := fun hlt => getElem?_append_left hlt
  have hent : ∀ m e, t.messages[m]? = some e →
      s.messages[m]? = some e ∨ e = (⟨p, 0, none⟩ : Message) :=
    fun _ _ he => (getElem?_concat_cases he).imp id And.right
  have hen : ∀ m envelope, s.envelope m = some envelope →
      t.envelope m = some envelope := by
    intro m envelope hm
    have hlt : m < s.messages.length := by
      by_contra hle
      rw [Bus.envelope, getElem?_eq_none (Nat.le_of_not_lt hle)] at hm
      cases hm
    rwa [Bus.envelope, hold hlt]
  have hk : ∀ m key, s.key m = some key → t.key m = some key :=
    fun m _ => Bus.key_of_envelope (hen m)
  have ho : ∀ m key, t.key m = some key → s.key m = some key ∨
      key.Plain ∧ ∀ o, o ≠ m → t.key o = some key → Served t m := by
    intro m key hm
    obtain hm' | ⟨heq, hp⟩ := Bus.key_append hm
    · exact .inl hm'
    refine .inr ⟨(hn key hp).1, fun o hne ho => ?_⟩
    rcases Bus.key_append ho with ho' | ⟨he', -⟩
    · exact (((hn key hp).2 o ho').mono hk (List.Subset.refl _)
        (List.Subset.refl _)).of_same (.inr ⟨key, hm, ho⟩)
    · exact absurd (he'.trans heq.symm) hne
  refine h.evolve
    { envelope := hen
      keys := ho
      settled := ?_
      ran := fun _ h => h
      deadLetters := fun _ h => h
      letter := fun _ h => .inl h
      deliveries := fun _ _ _ h => .inl h
      kept := fun _ d h h' => ⟨d, h, h', id⟩
      completed := fun _ _ h => .inl h
      etcdCompleted := fun _ h => .inl h
      marker := fun _ _ h => .inl h
      seen := fun _ _ h => .inl h }
    (fun m attempt d hd => ?_) fun m e he => ?_
  · intro m e he hs
    obtain he | rfl := hent m e he
    · exact .inr ⟨e, he, hs⟩
    · exact absurd rfl hs
  · obtain ⟨e, he, hpos, hle⟩ := h.attempt m attempt d hd
    exact ⟨e, (hold (List.getElem?_eq_some_iff.1 he).1).trans he, hpos, hle⟩
  · obtain he | rfl := hent m e he
    · exact h.delivered m e he
    · exact ⟨Nat.zero_le _, fun attempt hpos hle => absurd hle (Nat.not_le_of_lt hpos)⟩

/-- A message is delivered; only the last delivery has to find room. -/
theorem Sound.deliver (h : Sound co s) {entry : Message} {node : NodeId} {ov : Bool}
    (he : s.messages[m]? = some entry)
    (hlef : entry.delivered < co.commandMaxDeliver)
    (hro : co.commandMaxDeliver ≤ entry.delivered + 1 → ov = false) :
    Sound co (Bus.setDelivery
      { s with messages := s.messages.set m { entry with delivered := entry.delivered + 1 } }
      m (entry.delivered + 1)
      ⟨node, if ov then .done else .received, false, false⟩) := by
  set t : Bus :=
    { s with messages := s.messages.set m { entry with delivered := entry.delivered + 1 } }
    with ht
  set new : Delivery := ⟨node, if ov then .done else .received, false, false⟩ with hnew
  have hset : ∀ o n,
      (t.setDelivery m (entry.delivered + 1) new).delivery o n =
        if o = m ∧ n = entry.delivered + 1 then some new
        else s.delivery o n := Bus.delivery_setDelivery
  have hlt := (List.getElem?_eq_some_iff.1 he).1
  have hse : t.messages[m]? = some { entry with delivered := entry.delivered + 1 } := by
    simp [ht, hlt]
  have hot : ∀ {o}, o ≠ m → t.messages[o]? = s.messages[o]? :=
    fun hne => by simp [ht, getElem?_set_ne hne.symm]
  have hen : t.envelope = s.envelope := Bus.envelope_deliver he
  have hk := Bus.key_congr hen
  -- a new delivery that is over found no room, so it is not the last one
  have hre : Reached co (t.setDelivery m (entry.delivered + 1) new) m
      (entry.delivered + 1) new := by
    cases ov with
    | false => exact ⟨nofun, by simp [hnew], by simp [hnew], fun _ => nofun⟩
    | true => exact ⟨nofun, by simp [hnew], by simp [hnew], fun hl => nomatch hro hl⟩
  refine h.evolve
    { envelope := fun o envelope ho => by rwa [Bus.setDelivery_envelope, hen]
      keys := fun o key ho => .inl (by rwa [Bus.setDelivery_key, hk] at ho)
      settled := fun o f hf hs => .inr ?_
      deliveries := fun o n f hf => ?_
      kept := fun o f hf hr => ⟨f, ?_, hr, id⟩
      ran := fun _ h => h
      deadLetters := fun _ h => h
      letter := fun _ h => .inl h
      completed := fun _ _ h => .inl h
      etcdCompleted := fun _ h => .inl h
      marker := fun _ _ h => .inl h
      seen := fun _ _ h => .inl h }
    (fun o n f hf => ?_) fun o f hf => ?_
  · by_cases heq : o = m
    · subst heq
      cases hse.symm.trans hf
      exact ⟨entry, he, hs⟩
    · exact ⟨f, (hot heq).symm.trans hf, hs⟩
  · rw [hset] at hf
    split_ifs at hf with heq
    · obtain ⟨rfl, rfl⟩ := heq
      cases hf
      exact .inr hre
    · exact .inl hf
  · rw [hset, if_neg]
    · exact hf
    · rintro ⟨rfl, hn⟩
      obtain ⟨old, hold, -, hle⟩ := h.attempt o 1 f hf
      cases he.symm.trans hold
      omega
  · rw [hset] at hf
    split_ifs at hf with heq
    · exact ⟨_, heq.1 ▸ hse, by omega, by simp [heq.2]⟩
    · obtain ⟨old, hold, hpos, hle⟩ := h.attempt o n f hf
      by_cases ho : o = m
      · subst ho
        cases he.symm.trans hold
        exact ⟨_, hse, hpos, Nat.le_succ_of_le hle⟩
      · exact ⟨old, (hot ho).trans hold, hpos, hle⟩
  · simp only [hset]
    by_cases heq : o = m
    · subst heq
      cases hse.symm.trans hf
      refine ⟨hlef, fun n hpos hle => ?_⟩
      split_ifs with hn
      · rfl
      · have hne : n ≠ entry.delivered + 1 := fun heq => hn ⟨rfl, heq⟩
        have hle : n ≤ entry.delivered + 1 := hle
        exact (h.delivered o entry he).2 n hpos (by omega)
    · obtain ⟨hmax, hexi⟩ := h.delivered o f ((hot heq).symm.trans hf)
      refine ⟨hmax, fun n hpos hle => ?_⟩
      rw [if_neg fun hb => heq hb.1]
      exact hexi n hpos hle

/-- A process ends that works on no last delivery. -/
theorem Sound.crash (h : Sound co s) {node : NodeId}
    (hca : Careful co (.crash node) s) : Sound co (s.crash node) := by
  have hc : ∀ {map : NodeId → Key → Bool} {o key},
      Function.update map node (fun _ => false) o key = true → map o key = true := by
    intro map o key hf
    by_cases heq : o = node
    · rw [heq, Function.update_self] at hf
      cases hf
    · rwa [Function.update_of_ne heq] at hf
  refine h.evolve_quiet
    { deliveries := fun m attempt d hd => ?_
      kept := fun m d hd hr => ?_
      completed := fun _ _ hf => .inl (hc hf)
      seen := fun _ _ hf => .inl (hc hf)
      envelope := fun _ _ h => h
      keys := fun _ _ h => .inl h
      ran := fun _ h => h
      deadLetters := fun _ h => h
      letter := fun _ h => .inl h
      settled := fun _ e h h' => .inr ⟨e, h, h'⟩
      etcdCompleted := fun _ h => .inl h
      marker := fun _ _ h => .inl h }
    (fun _ => rfl) fun m attempt => by simp [Bus.crash]
  · obtain ⟨old, hold, rfl⟩ := Option.map_eq_some_iff.1 hd
    by_cases heq : old.node = node
    · -- the last delivery of a message was over
      rw [if_pos heq]
      refine .inr ⟨by simp, by simp, by simp, fun hl _ => ?_⟩
      obtain ⟨e, he, -, hle⟩ := h.attempt m attempt old hold
      exact h.last m attempt old hold hl (hca m
        (List.getElem?_eq_some_iff.1 he).1 attempt
        (Nat.le_trans hle (h.delivered m e he).1) hl old hold heq)
    · rw [if_neg heq]
      exact .inl hold
  · by_cases heq : d.node = node
    · exact ⟨⟨node, .done, false, false⟩, by simp [Bus.crash, hd, heq], by simp, by simp⟩
    · exact ⟨d, by simp [Bus.crash, hd, heq], hr, id⟩

/-- A delivery that is over keeps its phase when it releases a lock. -/
theorem Sound.release (h : Sound co s) (hd : s.delivery m attempt = some d)
    (hdo : d.phase = .done) (hn : next.phase = .done) :
    Sound co (s.setDelivery m attempt next) :=
  h.advance hd (.refl d)
    ⟨by simp [hn], by simp [hn], by simp [hn], by simp [hn],
      fun hl _ => h.last m attempt d hd hl hdo⟩

/-- **Careful steps keep the invariant.** -/
theorem Sound.step {a : Action} (h : Sound co s)
    (hs : guarded (Careful co) (exec co) a s = some t) :
    Sound co t := by
  obtain ⟨hc, hs⟩ := guarded_eq_some.1 hs
  cases moves_of_exec hs with
  | publish =>
    refine h.append fun key hp => ?_
    obtain ⟨hpl, hse⟩ := hc key hp
    exact ⟨hpl, fun m hm =>
      h.served_of_settled (hse m (Bus.lt_of_key hm) hm)⟩
  | @replay _ letter hl =>
    have hmem := mem_of_getElem? hl
    refine h.append fun key hp => ?_
    have hm := h.letter letter hmem key hp
    exact ⟨h.plain _ key hm, fun m ho => ⟨letter.message,
      .inr ⟨key, ho, hm⟩, .inr ⟨letter, hmem, rfl⟩⟩⟩
  | deliver he hle => exact h.deliver he hle (hc _ he)
  | step he hd ht => exact h.transition hc he hd ht
  | unlock hd hdo =>
    exact Sound.release (h.forget rfl rfl rfl rfl (fun _ _ hf => hf)
      (fun _ hf => Bus.of_setEtcd_none hf) fun _ _ hf => hf) hd hdo hdo
  | releaseOwner hd hdo => exact h.release hd hdo hdo
  | releaseActive hd hdo =>
    exact Sound.release (h.forget rfl rfl rfl rfl (fun _ _ hf => hf)
      (fun _ hf => hf) fun _ _ hf => hf) hd hdo hdo
  | crash => exact h.crash hc
  | expireLease =>
    exact h.forget rfl rfl rfl rfl (fun _ _ hf => hf)
      (fun _ hf => Bus.of_setEtcd_none hf) fun _ _ hf => hf
  | expireLocal =>
    exact h.forget rfl rfl rfl rfl (fun _ _ hf => Bus.of_setMap_false hf)
      (fun _ hf => hf) fun _ _ hf => Bus.of_setMap_false hf

theorem Sound.run {a : List Action}
    (hrun : run (guarded (Careful co) (exec co)) a .start = some s) :
    Sound co s :=
  run_invariant (fun _ _ _ h hs => h.step hs) hrun .start

/-- **No command is lost.** In a run whose steps are careful, every message that was acknowledged or
terminated, or whose deliveries are used up, belongs to a command that a handler ran to completion for
or that was stored as a dead letter. -/
theorem settled_served {actions : List Action}
    (hrun : run (guarded (Careful config) (exec config)) actions .start = some s)
    (hsettled : Settled config s message) : Served s message :=
  (Sound.run hrun).served_of_settled hsettled

end

/-! ## Commands for one node -/

/-- Commands are delivered twice. -/
def ControlBusConfig.twice : ControlBusConfig := ⟨2, by decide⟩

def startAt (node : NodeId) : CommandEnvelope :=
  ⟨"command-1", "key-1", .execStreamStart, none, some node, none⟩

/-- The command reaches another node first, and is put back. At its own node the handler fails, and
since this was its last delivery the command is stored as a dead letter. -/
def failsAtTarget : List Action :=
  [.publish (.command (startAt "b")), .deliver 0 "a" false, .step 0 1 .fine, .deliver 0 "b" false] ++
    List.replicate 6 (.step 0 2 .fine) ++
    [.step 0 2 { Input.fine with succeeds := false }, .step 0 2 .fine, .step 0 2 .fine]

theorem settled_served_deadLetter :
    ∃ s, run (guarded (Careful .twice) (exec .twice)) failsAtTarget
        .start = some s ∧
      Settled .twice s 0 ∧ Served s 0 := by
  exact exists_of_run_and (by decide +kernel) fun s hrun hs =>
    settled_served hrun hs

/-- All deliveries of the command reach another node. -/
def missesTarget : List Action :=
  .publish (.command (startAt "b")) ::
    (List.range 5).flatMap fun attempt => [.deliver 0 "a" false, .step 0 (attempt + 1) .fine]

/-- The node that consumes with the one the command is meant for takes all its deliveries; the command
is not delivered again, was never handled, and is no dead letter. -/
theorem missesTarget_lost :
    ∃ s, run (exec .standard) missesTarget .start = some s ∧
      Settled .standard s 0 ∧ ¬ Served s 0 := by
  obtain ⟨s, hrun, hs, hr, hl⟩ : ∃ s,
      run (exec .standard) missesTarget .start = some s ∧
        Settled .standard s 0 ∧ s.ran = [] ∧ s.deadLetters = [] :=
    exists_of_run (by decide +kernel)
  refine ⟨s, hrun, hs, ?_⟩
  rintro ⟨_, -, hse⟩
  simp [hr, hl] at hse

end Chevalier.ControlBus
