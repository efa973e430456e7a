import Chevalier.ControlBus.Command

/-!
# What a step of the command consumer can do

`Transition` lists the steps of a delivery with the conditions under which they are taken, and
`transition_of_step` says that there are no others. The invariants of the following modules go through
this list instead of unfolding the consumer.

Two deliveries have one key only if their messages carry one command (`Same`), and the etcd keys of
markers and locks are apart as long as no command names a key that looks like one (`Key.Plain`).
-/

namespace Chevalier.ControlBus

open List

/-! ## Changes of the bus -/

namespace Bus

variable {s : Bus} {m att : Nat} {de : Delivery} {key : Key}
  {v : Option EtcdValue} {settlement : Settlement}

theorem delivery_setDelivery (m' a' : Nat) :
    (s.setDelivery m att de).delivery m' a' =
      if m' = m ∧ a' = att then some de
      else s.delivery m' a' := by
  by_cases hm : m' = m
  · subst hm
    by_cases ha : a' = att
    · simp [setDelivery, ha]
    · simp [setDelivery, ha]
  · simp [setDelivery, hm]

theorem delivery_setDelivery_self :
    (s.setDelivery m att de).delivery m att = some de := by
  simp [delivery_setDelivery]

@[simp] theorem setDelivery_messages : (s.setDelivery m att de).messages = s.messages :=
  rfl

@[simp] theorem setDelivery_envelope : (s.setDelivery m att de).envelope = s.envelope := rfl

@[simp] theorem setDelivery_key : (s.setDelivery m att de).key = s.key := rfl

@[simp] theorem setDelivery_deliveryKey :
    (s.setDelivery m att de).deliveryKey = s.deliveryKey := rfl

@[simp] theorem setEtcd_messages : (s.setEtcd key v).messages = s.messages := rfl

@[simp] theorem setEtcd_delivery : (s.setEtcd key v).delivery = s.delivery := rfl

theorem setEtcd_etcd (key' : Key) :
    (s.setEtcd key v).etcd key' = if key' = key then v else s.etcd key' := by
  by_cases heq : key' = key
  · simp [setEtcd, heq]
  · simp [setEtcd, heq]

theorem create_frame {c : EtcdValue} {a : Bool} :
    (if a then s.createEtcd key c else s).delivery = s.delivery ∧
      (if a then s.createEtcd key c else s).messages = s.messages := by
  unfold createEtcd
  split_ifs <;> exact ⟨rfl, rfl⟩

variable {key' : Key} {t : Bus}

/-- An entry of a changed map is an old one, or the one that was set. -/
theorem of_setMap {map : NodeId → Key → Bool} {node o : NodeId}
    (h : setMap map node key true o key' = true) : map o key' = true ∨ key' = key := by
  unfold setMap at h
  by_cases hn : o = node
  · subst hn
    by_cases hk : key' = key
    · exact .inr hk
    · simp only [Function.update_self, Function.update_of_ne hk] at h
      exact .inl h
  · simp only [Function.update_of_ne hn] at h
    exact .inl h

theorem of_setMap_false {map : NodeId → Key → Bool} {node o : NodeId}
    (h : setMap map node key false o key' = true) : map o key' = true := by
  unfold setMap at h
  by_cases hn : o = node
  · subst hn
    by_cases hk : key' = key
    · simp [hk] at h
    · simpa only [Function.update_self, Function.update_of_ne hk] using h
  · simpa only [Function.update_of_ne hn] using h

theorem of_setEtcd_none (h : ((s.setEtcd key none).etcd key').isSome) :
    (s.etcd key').isSome := by
  rw [setEtcd_etcd] at h
  split_ifs at h
  · cases h
  · exact h

/-- What a bus says about its commands depends on its messages only. -/
theorem envelope_congr (h : t.messages = s.messages) : t.envelope = s.envelope := by
  funext m
  rw [envelope, envelope, h]

/-- The key of a command that is kept. -/
theorem key_of_envelope
    (h : ∀ e, s.envelope m = some e → t.envelope m = some e)
    (hk : s.key m = some key) : t.key m = some key := by
  obtain ⟨e, hm, hn⟩ := Option.bind_eq_some_iff.1 hk
  exact Option.bind_eq_some_iff.2 ⟨e, h e hm, hn⟩

theorem key_congr (h : t.envelope = s.envelope) : t.key = s.key := by
  funext m
  rw [key, key, h]

theorem deliveryKey_congr (h : t.envelope = s.envelope) :
    t.deliveryKey = s.deliveryKey := by
  funext m att
  rw [deliveryKey, deliveryKey, h]

theorem settle_messages (o : Nat) :
    (s.settle m settlement).messages[o]? = (s.messages[o]?).map fun entry =>
      if m = o then
        { entry with settlement := entry.settlement <|> some settlement }
      else entry := by
  rw [settle, getElem?_modify]
  rfl

theorem settle_envelope : (s.settle m settlement).envelope = s.envelope := by
  funext other
  rw [envelope, envelope, settle_messages]
  rcases s.messages[other]? with _ | ⟨_ | _, d, se⟩ <;>
    by_cases heq : m = other <;> simp [heq]

theorem envelope_append {e : List Message} (h : m < s.messages.length) :
    Bus.envelope { s with messages := s.messages ++ e } m = s.envelope m := by
  rw [envelope, envelope, getElem?_append_left h]

theorem envelope_deliver {entry : Message} (h : s.messages[m]? = some entry) :
    ({ s with messages := s.messages.set m { entry with delivered := entry.delivered + 1 } } :
      Bus).envelope = s.envelope := by
  funext other
  rw [envelope, envelope]
  by_cases heq : m = other
  · subst heq
    rw [getElem?_set_of_some h, h]
    obtain ⟨_ | _, delivered, _⟩ := entry <;> rfl
  · rw [getElem?_set_ne heq]

theorem envelope_of_messages {e : Message} {c : CommandEnvelope}
    (h : s.messages[m]? = some e) (hp : e.payload = .command c) :
    s.envelope m = some c := by
  obtain ⟨_, _, _⟩ := e
  obtain rfl := hp
  rw [envelope, h]

theorem deliveryKey_of_envelope {c : CommandEnvelope} (h : s.envelope m = some c) :
    s.deliveryKey m att = some (dedupeKey c m att) := by
  rw [deliveryKey, h]
  rfl

end Bus

/-! ## Keys -/

def payloadKey : Payload → Option Key
  | .command envelope => envelope.namedKey
  | .invalid _ => none

section

variable {s : Bus} {message m att : Nat} {key : Key}

theorem Bus.key_of_messages {e : Message}
    (h : s.messages[m]? = some e) : s.key m = payloadKey e.payload := by
  obtain ⟨p, _, _⟩ := e
  cases p with
  | command | invalid => simp [Bus.key, Bus.envelope, h, payloadKey]

theorem Bus.lt_of_key (h : s.key m = some key) :
    m < s.messages.length := by
  by_contra hle
  rw [Bus.key, Bus.envelope, getElem?_eq_none (Nat.le_of_not_lt hle)] at h
  cases h

theorem CommandEnvelope.uuid_of_namedKey {e : CommandEnvelope}
    (h : e.namedKey = some key) : key.uuid = none := by
  unfold CommandEnvelope.namedKey at h
  split_ifs at h
  · cases h
    rfl
  · cases h
    rfl

/-- The key of a delivery is the one its command names, or a new one. -/
theorem Bus.deliveryKey_cases
    (h : s.deliveryKey m att = some key) :
    s.key m = some key ∨ key = ⟨"anon-", some (m, att)⟩ := by
  obtain ⟨e, he, rfl⟩ := Option.map_eq_some_iff.1 h
  cases hn : e.namedKey with
  | none => exact .inr (by simp [dedupeKey, hn])
  | some => exact .inl (by simp [Bus.key, he, dedupeKey, hn])

theorem Bus.uuid_of_key (h : s.key m = some key) :
    key.uuid = none := by
  obtain ⟨_, -, hn⟩ := Option.bind_eq_some_iff.1 h
  exact CommandEnvelope.uuid_of_namedKey hn

/-- A key of a bus with one more message is an old one, or the one of the new message. -/
theorem Bus.key_append {p : Payload}
    (h : Bus.key { s with messages := s.messages ++ [⟨p, 0, none⟩] } m = some key) :
    s.key m = some key ∨ m = s.messages.length ∧ payloadKey p = some key := by
  rcases Nat.lt_trichotomy m s.messages.length with hlt | heq | _
  · rw [Bus.key, Bus.envelope_append hlt] at h
    exact .inl h
  · subst heq
    rw [Bus.key_of_messages getElem?_concat_length] at h
    exact .inr ⟨rfl, h⟩
  · have hlt := Bus.lt_of_key h
    rw [length_append, length_singleton] at hlt
    omega

/-- The messages are one, or their commands name one key. -/
def Same (s : Bus) (message message' : Nat) : Prop :=
  message = message' ∨ ∃ key, s.key message = some key ∧ s.key message' = some key

theorem same_of_deliveryKey {m' a' : Nat}
    (h : s.deliveryKey m att = some key)
    (h' : s.deliveryKey m' a' = some key) : Same s m m' := by
  rcases Bus.deliveryKey_cases h with hn | rfl
  · rcases Bus.deliveryKey_cases h' with hn' | rfl
    · exact .inr ⟨key, hn, hn'⟩
    · exact absurd (Bus.uuid_of_key hn) (by simp)
  · rcases Bus.deliveryKey_cases h' with hn' | ha
    · exact absurd (Bus.uuid_of_key hn') (by simp)
    · exact .inl (by simp at ha; exact ha.1)

theorem Same.trans {m' message'' : Nat} (h : Same s m m')
    (h' : Same s m' message'') : Same s m message'' := by
  rcases h with rfl | ⟨key, hk, hk'⟩
  · exact h'
  · rcases h' with rfl | ⟨_, ho, ho'⟩
    · exact .inr ⟨key, hk, hk'⟩
    · cases hk'.symm.trans ho
      exact .inr ⟨key, hk, ho'⟩

/-- The key does not look like the etcd key of a completion marker or of a lock. -/
def Key.Plain (key : Key) : Prop :=
  ¬ "completed/".toList <+: key.text.toList ∧ ¬ "inflight/".toList <+: key.text.toList

instance (key : Key) : Decidable key.Plain :=
  inferInstanceAs (Decidable (_ ∧ _))

theorem Key.Plain.ne_completedKey (h : key.Plain) (o : Key) :
    key ≠ completedKey o := by
  rintro rfl
  exact h.1 (by simp [completedKey])

theorem Key.Plain.ne_inflightKey (h : key.Plain) (o : Key) :
    key ≠ inflightKey o := by
  rintro rfl
  exact h.2 (by simp [inflightKey])

theorem inflightKey_ne_completedKey (key o : Key) : inflightKey key ≠ completedKey o := by
  intro heq
  have ht := congrArg (fun key : Key => key.text.toList.head?) heq
  simp [inflightKey, completedKey] at ht

theorem completedKey_inj {o : Key} (h : completedKey key = completedKey o) :
    key = o := by
  obtain ⟨_, _⟩ := key
  obtain ⟨_, _⟩ := o
  simpa [completedKey] using h

theorem Bus.plain_of_deliveryKey
    (hp : ∀ m key, s.key m = some key → key.Plain)
    (h : s.deliveryKey m att = some key) : key.Plain := by
  rcases Bus.deliveryKey_cases h with hn | rfl
  · exact hp m key hn
  · show ¬ "completed/".toList <+: "anon-".toList ∧ ¬ "inflight/".toList <+: "anon-".toList
    decide

end

/-! ## Steps of a delivery -/

section

variable (config co : ControlBusConfig) (s : Bus) (message m attempt att : Nat)
  (delivery de : Delivery) (payload p : Payload) (input i : Input)

/-- The steps of a delivery: what becomes of the bus, and of the delivery. -/
inductive Transition : Bus → Delivery → Prop
  | invalid {json} (hpayload : payload = .invalid json) (hphase : delivery.phase = .received) :
      Transition s { delivery with phase := .rejected }
  | refused {envelope} (hpayload : payload = .command envelope)
      (hphase : delivery.phase = .received)
      (hrefused : ¬ targets envelope delivery.node ∨ input.gateOpen = false) :
      Transition s { delivery with phase := .done }
  | duplicate {envelope} (hpayload : payload = .command envelope)
      (hphase : delivery.phase = .received) (hfirst : attempt ≤ 1)
      (hmarker : (s.etcd (dedupeKey envelope message attempt)).isSome) :
      Transition s { delivery with phase := .acking }
  | marks {envelope} (hpayload : payload = .command envelope)
      (hphase : delivery.phase = .received) (hfirst : attempt ≤ 1)
      (hmarker : s.etcd (dedupeKey envelope message attempt) = none) :
      Transition (s.setEtcd (dedupeKey envelope message attempt) (some .one))
        { delivery with phase := .marked }
  | marksUnanswered {envelope applied}
      (hpayload : payload = .command envelope) (hphase : delivery.phase = .received)
      (hfirst : attempt ≤ 1) (hreply : input.reply = .unanswered applied) :
      Transition (if applied then s.createEtcd (dedupeKey envelope message attempt) .one else s)
        { delivery with phase := .marked }
  | knows {envelope} (hpayload : payload = .command envelope)
      (hphase : delivery.phase = .received)
      (hcompleted : s.completed delivery.node (dedupeKey envelope message attempt)) :
      Transition s { delivery with phase := .acking }
  | misses {envelope} (hpayload : payload = .command envelope)
      (hphase : delivery.phase = .received) : Transition s { delivery with phase := .missed }
  | recalls {envelope} (hpayload : payload = .command envelope)
      (hphase : delivery.phase = .marked)
      (hseen : s.seen delivery.node (dedupeKey envelope message attempt)) :
      Transition s { delivery with phase := .acking }
  | remembers {envelope} (hpayload : payload = .command envelope)
      (hphase : delivery.phase = .marked) :
      Transition
        { s with
          seen := Bus.setMap s.seen delivery.node (dedupeKey envelope message attempt) true }
        { delivery with phase := .admitted }
  | finds {envelope} (hpayload : payload = .command envelope)
      (hphase : delivery.phase = .missed)
      (hcompleted : (s.etcd (completedKey (dedupeKey envelope message attempt))).isSome) :
      Transition s { delivery with phase := .acking }
  | passes {envelope} (hpayload : payload = .command envelope)
      (hphase : delivery.phase = .missed)
      (hcompleted : input.reply = .answered →
        s.etcd (completedKey (dedupeKey envelope message attempt)) = none) :
      Transition s { delivery with phase := .admitted }
  | needsNoOwner {envelope} (hpayload : payload = .command envelope)
      (hphase : delivery.phase = .admitted)
      (howner : commandNeedsSingleOwner envelope.commandType = false) :
      Transition s { delivery with phase := .guarded }
  | owned {envelope} (hpayload : payload = .command envelope)
      (hphase : delivery.phase = .admitted)
      (hlock : (s.etcd (inflightKey (dedupeKey envelope message attempt))).isSome) :
      Transition s { delivery with phase := .done }
  | owns {envelope} (hpayload : payload = .command envelope)
      (hphase : delivery.phase = .admitted)
      (hlock : s.etcd (inflightKey (dedupeKey envelope message attempt)) = none) :
      Transition
        (s.setEtcd (inflightKey (dedupeKey envelope message attempt))
          (some (.owner message attempt)))
        { delivery with phase := .owning, owner := true }
  | ownsUnanswered {envelope applied}
      (hpayload : payload = .command envelope) (hphase : delivery.phase = .admitted)
      (hreply : input.reply = .unanswered applied) :
      Transition
        (if applied then
          s.createEtcd (inflightKey (dedupeKey envelope message attempt)) (.owner message attempt)
        else s)
        { delivery with phase := .owning }
  | busy {envelope} (hpayload : payload = .command envelope)
      (hphase : delivery.phase = .owning)
      (hactive : s.active delivery.node (dedupeKey envelope message attempt)) :
      Transition s { delivery with phase := .done }
  | locks {envelope} (hpayload : payload = .command envelope)
      (hphase : delivery.phase = .owning) :
      Transition
        { s with
          active := Bus.setMap s.active delivery.node (dedupeKey envelope message attempt) true }
        { delivery with phase := .guarded, active := true }
  | clears {envelope} (hpayload : payload = .command envelope)
      (hphase : delivery.phase = .guarded) : Transition s { delivery with phase := .cleared }
  | fenced {envelope} (hpayload : payload = .command envelope)
      (hphase : delivery.phase = .guarded) : Transition s { delivery with phase := .rejected }
  | starts {envelope} (hpayload : payload = .command envelope)
      (hphase : delivery.phase = .cleared) : Transition s { delivery with phase := .running }
  | completes {envelope} (hpayload : payload = .command envelope)
      (hphase : delivery.phase = .running ∨ delivery.phase = .failedRun) :
      Transition { s with ran := message :: s.ran } { delivery with phase := .finished }
  | fails {envelope} (hpayload : payload = .command envelope)
      (hphase : delivery.phase = .running) : Transition s { delivery with phase := .failedRun }
  | failsFor {envelope} (hpayload : payload = .command envelope)
      (hphase : delivery.phase = .running ∨ delivery.phase = .failedRun) :
      Transition s { delivery with phase := .rejected }
  | notes {envelope} (hpayload : payload = .command envelope)
      (hphase : delivery.phase = .finished) :
      Transition
        { s with
          completed := Bus.setMap s.completed delivery.node (dedupeKey envelope message attempt)
            true }
        { delivery with phase := .noted }
  | records {envelope} (hpayload : payload = .command envelope)
      (hphase : delivery.phase = .noted) :
      Transition (s.setEtcd (completedKey (dedupeKey envelope message attempt)) (some .one))
        { delivery with phase := .acking }
  | recordsNothing {envelope} (hpayload : payload = .command envelope)
      (hphase : delivery.phase = .noted) (hreply : input.reply = .unanswered false) :
      Transition s { delivery with phase := .acking }
  | acks (hphase : delivery.phase = .acking) :
      Transition (if input.succeeds then s.settle message .acked else s)
        { delivery with phase := .done }
  | buries (hphase : delivery.phase = .rejected) (hlast : config.commandMaxDeliver ≤ attempt) :
      Transition
        (if input.succeeds then
          { s with deadLetters := ⟨message, deadLetterPayload payload⟩ :: s.deadLetters }
        else s)
        { delivery with phase := .terminating }
  | returns (hphase : delivery.phase = .rejected) (hlast : attempt < config.commandMaxDeliver) :
      Transition s { delivery with phase := .done }
  | terminates (hphase : delivery.phase = .terminating) :
      Transition (if input.succeeds then s.settle message .terminated else s)
        { delivery with phase := .done }

variable {config co s message m attempt att delivery de payload p input i}

theorem transition_of_admit {e : CommandEnvelope} {t : Bus}
    (hp : p = .command e)
    (h : preflight s m att de e i = some t) :
    ∃ u next, Transition co s m att de p i u next ∧ some (u.setDelivery m att next) = some t := by
  unfold preflight at h
  dsimp only at h
  split at h
  · rename_i hph
    split at h
    · rename_i ht
      exact ⟨_, _, .refused hp hph (.inl ht), h⟩
    split at h
    · rename_i hg
      exact ⟨_, _, .refused hp hph (.inr (by simpa using hg)), h⟩
    split at h
    · rename_i hf
      split at h
      · split_ifs at h with hm
        · exact ⟨_, _, .duplicate hp hph hf hm, h⟩
        · exact ⟨_, _, .marks hp hph hf (by simpa using hm), h⟩
      · rename_i a hr
        exact ⟨_, _, .marksUnanswered hp hph hf hr, h⟩
    split_ifs at h with hc
    · exact ⟨_, _, .knows hp hph hc, h⟩
    · exact ⟨_, _, .misses hp hph, h⟩
  · rename_i hph
    split_ifs at h with hs
    · exact ⟨_, _, .recalls hp hph hs, h⟩
    · exact ⟨_, _, .remembers hp hph, h⟩
  · rename_i hph
    split_ifs at h with hc
    · exact ⟨_, _, .finds hp hph hc.2, h⟩
    · refine ⟨_, _, .passes hp hph fun hr => ?_, h⟩
      exact Option.not_isSome_iff_eq_none.1 fun hso => hc ⟨hr, hso⟩
  · rename_i hph
    split at h
    · split at h
      · split_ifs at h with hl
        · exact ⟨_, _, .owned hp hph hl, h⟩
        · exact ⟨_, _, .owns hp hph (by simpa using hl), h⟩
      · rename_i a hr
        exact ⟨_, _, .ownsUnanswered hp hph hr, h⟩
    · rename_i ho
      exact ⟨_, _, .needsNoOwner hp hph (by simpa using ho), h⟩
  · rename_i hph
    split_ifs at h with ha
    · exact ⟨_, _, .busy hp hph ha, h⟩
    · exact ⟨_, _, .locks hp hph, h⟩
  · rename_i hph
    split_ifs at h with hfe
    · exact ⟨_, _, .clears hp hph, h⟩
    · exact ⟨_, _, .fenced hp hph, h⟩
  · cases h

theorem transition_of_handle {e : CommandEnvelope} {t : Bus}
    (hp : p = .command e)
    (h : handle s m att de e i = some t) :
    ∃ u next, Transition co s m att de p i u next ∧ some (u.setDelivery m att next) = some t := by
  unfold handle at h
  dsimp only at h
  split at h
  · rename_i hph
    exact ⟨_, _, .starts hp hph, h⟩
  · rename_i hph
    split at h
    · exact ⟨_, _, .completes hp (.inl hph), h⟩
    · exact ⟨_, _, .completes hp (.inl hph), h⟩
    · split_ifs at h
      · exact ⟨_, _, .completes hp (.inl hph), h⟩
      · exact ⟨_, _, .fails hp hph, h⟩
    all_goals
      split_ifs at h
      · exact ⟨_, _, .completes hp (.inl hph), h⟩
      · exact ⟨_, _, .failsFor hp (.inl hph), h⟩
  · rename_i hph
    split_ifs at h
    · exact ⟨_, _, .completes hp (.inr hph), h⟩
    · exact ⟨_, _, .failsFor hp (.inr hph), h⟩
  · rename_i hph
    exact ⟨_, _, .notes hp hph, h⟩
  · rename_i hph
    split_ifs at h with hr
    · exact ⟨_, _, .recordsNothing hp hph hr, h⟩
    · exact ⟨_, _, .records hp hph, h⟩
  · cases h

/-- **A step of a delivery is one of the listed ones.** -/
theorem transition_of_processCommandMessage {t : Bus}
    (h : processCommandMessage co s m att de p i = some t) :
    ∃ u next, Transition co s m att de p i u next ∧ some (u.setDelivery m att next) = some t := by
  unfold processCommandMessage at h
  dsimp only at h
  split at h
  · cases h
  · rename_i hp
    exact ⟨_, _, .acks hp, h⟩
  · rename_i hp
    unfold handleFailedCommandMessage at h
    split at h
    · rename_i hl
      exact ⟨_, _, .buries hp hl, h⟩
    · rename_i hl
      exact ⟨_, _, .returns hp (Nat.lt_of_not_le hl), h⟩
  · rename_i hp
    exact ⟨_, _, .terminates hp, h⟩
  · rename_i hp
    exact ⟨_, _, .invalid rfl hp, h⟩
  all_goals first
    | exact transition_of_admit rfl h
    | exact transition_of_handle rfl h
    | cases h

end

variable {config co : ControlBusConfig} {s : Bus} {message m attempt att : Nat} {input i : Input}

theorem transition_of_step {t : Bus} (h : exec co (.step m att i) s = some t) :
    ∃ e de, s.messages[m]? = some e ∧
      s.delivery m att = some de ∧
      ∃ u next, Transition co s m att de e.payload i u next ∧ t = u.setDelivery m att next := by
  simp only [exec] at h
  split at h
  · rename_i e de he hd
    obtain ⟨u, next, ht, heq⟩ := transition_of_processCommandMessage h
    exact ⟨e, de, he, hd, u, next, ht, (Option.some.inj heq).symm⟩
  · cases h

/-- What an action does to the bus. -/
inductive Moves (config : ControlBusConfig) (s : Bus) : Action → Bus → Prop
  | publish {payload} : Moves config s (.publish payload)
      { s with messages := s.messages ++ [⟨payload, 0, none⟩] }
  | replay {number letter} (hletter : s.deadLetters[number]? = some letter) :
      Moves config s (.replay number)
        { s with messages := s.messages ++ [⟨letter.payload, 0, none⟩] }
  | deliver {message node overloaded entry} (hentry : s.messages[message]? = some entry)
      (hleft : entry.delivered < config.commandMaxDeliver) :
      Moves config s (.deliver message node overloaded) (Bus.setDelivery
        { s with messages := s.messages.set message { entry with delivered := entry.delivered + 1 } }
        message (entry.delivered + 1) ⟨node, if overloaded then .done else .received, false, false⟩)
  | step {message attempt input entry delivery u next} (hentry : s.messages[message]? = some entry)
      (hdelivery : s.delivery message attempt = some delivery)
      (ht : Transition config s message attempt delivery entry.payload input u next) :
      Moves config s (.step message attempt input) (u.setDelivery message attempt next)
  | unlock {message attempt reply delivery key}
      (hdelivery : s.delivery message attempt = some delivery) (hdone : delivery.phase = .done)
      (hlock : s.etcd (inflightKey key) = some (.owner message attempt)) :
      Moves config s (.releaseOwner message attempt reply)
        ((s.setEtcd (inflightKey key) none).setDelivery message attempt
          { delivery with owner := false })
  | releaseOwner {message attempt reply delivery}
      (hdelivery : s.delivery message attempt = some delivery) (hdone : delivery.phase = .done) :
      Moves config s (.releaseOwner message attempt reply)
        (s.setDelivery message attempt { delivery with owner := false })
  | releaseActive {message attempt delivery key}
      (hdelivery : s.delivery message attempt = some delivery) (hdone : delivery.phase = .done) :
      Moves config s (.releaseActive message attempt)
        (Bus.setDelivery { s with active := Bus.setMap s.active delivery.node key false }
          message attempt { delivery with active := false })
  | crash {node} : Moves config s (.crash node) (s.crash node)
  | expireLease {key} : Moves config s (.expireLease key) (s.setEtcd key none)
  | expireLocal {node key} : Moves config s (.expireLocal node key) { s with
      seen := Bus.setMap s.seen node key false
      active := Bus.setMap s.active node key false
      completed := Bus.setMap s.completed node key false }

theorem moves_of_exec {t : Bus} {a : Action}
    (h : exec co a s = some t) : Moves co s a t := by
  cases a with
  | publish =>
    cases h
    exact .publish
  | replay =>
    simp only [exec] at h
    split at h <;> cases h
    next hl => exact .replay hl
  | deliver =>
    simp only [exec] at h
    split at h
    · next he =>
      obtain ⟨hop, ⟨⟩⟩ := Option.ite_none_right_eq_some.1 h
      exact .deliver he hop.2
    · cases h
  | step =>
    obtain ⟨_, _, he, hd, _, next, ht, rfl⟩ := transition_of_step h
    exact .step he hd ht
  | releaseOwner =>
    simp only [exec] at h
    split at h
    · next hd hk =>
      obtain ⟨ho, ⟨⟩⟩ := Option.ite_none_right_eq_some.1 h
      split_ifs with hlo
      · exact .unlock hd ho.1 hlo.2
      · exact .releaseOwner hd ho.1
    · cases h
  | releaseActive =>
    simp only [exec] at h
    split at h
    · next hd hk =>
      obtain ⟨ho, ⟨⟩⟩ := Option.ite_none_right_eq_some.1 h
      exact .releaseActive hd ho.1
    · cases h
  | crash =>
    cases h
    exact .crash
  | expireLease =>
    cases h
    exact .expireLease
  | expireLocal =>
    cases h
    exact .expireLocal

/-- A step of a delivery leaves the deliveries to the caller, and the messages as they are or with the
message settled. -/
theorem Transition.frame {u : Bus}
    {de next : Delivery} {p : Payload}
    (h : Transition co s m att de p i u next) :
    u.delivery = s.delivery ∧ next.node = de.node ∧
      (u.messages = s.messages ∨ ∃ settlement, u = s.settle m settlement) := by
  cases h with
  | marksUnanswered | ownsUnanswered => exact ⟨Bus.create_frame.1, rfl, .inl Bus.create_frame.2⟩
  | acks | terminates =>
    split
    · exact ⟨rfl, rfl, .inr ⟨_, rfl⟩⟩
    · exact ⟨rfl, rfl, .inl rfl⟩
  | buries =>
    split
    · exact ⟨rfl, rfl, .inl rfl⟩
    · exact ⟨rfl, rfl, .inl rfl⟩
  | marks | owns | records => exact ⟨Bus.setEtcd_delivery, rfl, .inl Bus.setEtcd_messages⟩
  | _ => exact ⟨rfl, rfl, .inl rfl⟩

theorem Transition.envelope {u : Bus}
    {de next : Delivery} {p : Payload}
    (h : Transition co s m att de p i u next) :
    u.envelope = s.envelope := by
  rcases h.frame.2.2 with hm | ⟨_, rfl⟩
  · exact Bus.envelope_congr hm
  · exact Bus.settle_envelope

end Chevalier.ControlBus
