import Chevalier.ControlBus.Steps

/-!
# A completed command is not run again

The in-flight lock in etcd keeps handlers of one key apart (`Owned`), for the types of commands that
take it. Whether a command was completed is another matter. A redelivery looks for the completion
marker before it takes the lock, and a first delivery does not look for it at all: it relies on the
marker of the duplicate suppression, which a redelivery does not leave. `Orderly` asks that a
redelivery goes on only after a first delivery with its key did, and while no other delivery with its
key is under way.

* `Owned.step`: as long as etcd answers and keeps its leases, the lock is with the one delivery that
  goes on.
* `Once.step`: orderly steps never have two deliveries of one key under way, nor one of a completed
  key.
* `completed_not_run_again`: what follows for runs.
-/

namespace Chevalier.ControlBus

open Schedule

/-! ## Assumptions -/

/-- Etcd answers, and leases do not run out. -/
def Reachable : Action → Bus → Prop
  | .step _ _ input, _ => input.reply = .answered
  | .expireLease _, _ => False
  | .publish _, _ | .replay _, _ | .deliver _ _ _, _ | .releaseOwner _ _ _, _ | .releaseActive _ _, _
  | .crash _, _ | .expireLocal _ _, _ => True

instance (action : Action) (s : Bus) : Decidable (Reachable action s) :=
  match action with
  | .step _ _ _ => inferInstanceAs (Decidable (_ = _))
  | .expireLease _ => inferInstanceAs (Decidable False)
  | .publish _ | .replay _ | .deliver _ _ _ | .releaseOwner _ _ _ | .releaseActive _ _ | .crash _
  | .expireLocal _ _ => inferInstanceAs (Decidable True)

/-- The delivery has passed the duplicate suppression, and has not left its completion marker. -/
def Phase.underWay : Phase → Bool
  | .marked | .admitted | .owning | .guarded | .cleared | .running | .failedRun | .finished
  | .noted => true
  | .received | .missed | .acking | .rejected | .terminating | .done => false

/-- The delivery has passed the in-flight lock in etcd, up to its handler. -/
def Phase.locked : Phase → Bool
  | .owning | .guarded | .cleared | .running => true
  | _ => false

def Bus.Alone (s : Bus) (key : Key) (message attempt : Nat) : Prop :=
  ∀ other < s.messages.length, ∀ number ≤ (s.messages[other]?).elim 0 Message.delivered,
    (other, number) ≠ (message, attempt) → s.deliveryKey other number = some key →
      ∀ found ∈ s.delivery other number, found.phase.underWay = false

instance (s : Bus) (key : Key) (message attempt : Nat) : Decidable (s.Alone key message attempt) :=
  inferInstanceAs (Decidable (∀ other < s.messages.length, _))

/-- Etcd answers and keeps its leases; a redelivery passes the completion check only if a first
delivery with its key has left its marker, and no other delivery with its key is under way; and no
command names a key that looks like an etcd key. -/
def Orderly : Action → Bus → Prop
  | .publish payload, _ => ∀ key ∈ payloadKey payload, key.Plain
  | .replay number, s => ∀ letter ∈ s.deadLetters[number]?, ∀ key ∈ payloadKey letter.payload,
    key.Plain
  | .step message attempt input, s => input.reply = .answered ∧
    ∀ delivery ∈ s.delivery message attempt, delivery.phase = .missed →
      ∀ key ∈ s.deliveryKey message attempt, (s.etcd key).isSome ∧ s.Alone key message attempt
  | .expireLease _, _ => False
  | .deliver _ _ _, _ | .releaseOwner _ _ _, _ | .releaseActive _ _, _ | .crash _, _
  | .expireLocal _ _, _ => True

instance (action : Action) (s : Bus) : Decidable (Orderly action s) :=
  match action with
  | .publish _ => inferInstanceAs (Decidable (∀ _ ∈ _, _))
  | .replay _ => inferInstanceAs (Decidable (∀ _ ∈ _, _))
  | .step _ _ _ => inferInstanceAs (Decidable (_ ∧ _))
  | .expireLease _ => inferInstanceAs (Decidable False)
  | .deliver _ _ _ | .releaseOwner _ _ _ | .releaseActive _ _ | .crash _ | .expireLocal _ _ =>
    inferInstanceAs (Decidable True)

theorem Orderly.reachable {ac : Action} {s : Bus} (h : Orderly ac s) :
    Reachable ac s := by
  cases ac <;> first | trivial | exact h.1

section

variable {config co : ControlBusConfig} {s t u : Bus} {message m attempt att : Nat}
  {delivery next : Delivery}

/-! ## Deliveries belong to messages -/

/-- Every delivery belongs to a message that was delivered so often. -/
def Numbered (s : Bus) : Prop :=
  ∀ message attempt delivery, s.delivery message attempt = some delivery →
    ∃ entry, s.messages[message]? = some entry ∧ attempt ≤ entry.delivered

theorem Numbered.setDelivery (h : Numbered s)
    (he : ∃ e, s.messages[m]? = some e ∧ att ≤ e.delivered) :
    Numbered (s.setDelivery m att next) := by
  intro o n f hf
  rw [Bus.delivery_setDelivery] at hf
  split_ifs at hf with heq
  · obtain ⟨rfl, rfl⟩ := heq
    exact he
  · exact h o n f hf

theorem Numbered.of_messages (h : Numbered s) (hd : u.delivery = s.delivery)
    (hm : ∀ (m : Nat) e, s.messages[m]? = some e →
      ∃ e', u.messages[m]? = some e' ∧ e.delivered ≤ e'.delivered) :
    Numbered u := by
  intro o n f hf
  rw [hd] at hf
  obtain ⟨e, he, hle⟩ := h o n f hf
  obtain ⟨e', he', hl'⟩ := hm o e he
  exact ⟨e', he', Nat.le_trans hle hl'⟩

theorem Numbered.append (h : Numbered s) (en : List Message) :
    Numbered { s with messages := s.messages ++ en } :=
  h.of_messages rfl fun _ e he =>
    ⟨e, getElem?_append_of_some he, Nat.le_refl _⟩

variable {ac : Action}

theorem Numbered.step (h : Numbered s) (hs : exec co ac s = some t) :
    Numbered t := by
  cases moves_of_exec hs with
  | publish | replay => exact h.append _
  | @deliver m _ _ _ he =>
    refine Numbered.setDelivery (h.of_messages rfl fun o e' he' => ?_)
      ⟨_, getElem?_set_of_some he, Nat.le_refl _⟩
    by_cases heq : o = m
    · subst heq
      cases he.symm.trans he'
      exact ⟨_, getElem?_set_of_some he, Nat.le_succ _⟩
    · exact ⟨e', (List.getElem?_set_ne (Ne.symm heq)).trans he', Nat.le_refl _⟩
  | @step _ _ _ _ _ u _ he hd ht =>
    obtain ⟨hde, -, hm⟩ := ht.frame
    have hk : ∀ (o : Nat) e, s.messages[o]? = some e →
        ∃ e', u.messages[o]? = some e' ∧ e.delivered ≤ e'.delivered := by
      intro o e he
      rcases hm with hm | ⟨_, rfl⟩
      · exact ⟨e, by rw [hm, he], Nat.le_refl _⟩
      · refine ⟨_, by rw [Bus.settle_messages, he, Option.map_some], ?_⟩
        split_ifs <;> exact Nat.le_refl _
    refine Numbered.setDelivery (h.of_messages hde hk) ?_
    obtain ⟨e, he, hle⟩ := h _ _ _ hd
    obtain ⟨e', he', hl'⟩ := hk _ e he
    exact ⟨e', he', Nat.le_trans hle hl'⟩
  | unlock hd | releaseOwner hd | releaseActive hd => exact Numbered.setDelivery h (h _ _ _ hd)
  | crash =>
    intro m att delivery hd
    obtain ⟨d', hd', -⟩ := Option.map_eq_some_iff.1 hd
    exact h m att d' hd'
  | expireLease => exact h
  | expireLocal => exact h

theorem Numbered.lt (h : Numbered s) (hd : s.delivery m att = some delivery) :
    m < s.messages.length := by
  obtain ⟨_, he, -⟩ := h m att delivery hd
  exact (List.getElem?_eq_some_iff.1 he).1

/-! ## What other steps do -/

/-- Deliveries begin and end, and locks are released; nothing else happens to them. -/
structure Calm (s t : Bus) : Prop where
  delivery : ∀ message attempt found, t.delivery message attempt = some found →
    ((found.phase = .received ∨ found.phase = .done) ∧
      (found.owner = true → ∃ before, s.delivery message attempt = some before ∧
        before.owner = true)) ∨ s.delivery message attempt = some found
  envelope : ∀ message attempt found, t.delivery message attempt = some found →
    t.envelope message = s.envelope message
  etcd : ∀ key, t.etcd key = s.etcd key ∨ ∃ name message attempt, key = inflightKey name ∧
    s.etcd key = some (.owner message attempt) ∧ t.etcd key = none ∧
      ∀ found, t.delivery message attempt = some found → found.owner = false

theorem Calm.of_append (h : Numbered s) (e : List Message) :
    Calm s { s with messages := s.messages ++ e } where
  delivery _ _ _ hf := .inr hf
  envelope _ _ _ hf := Bus.envelope_append (h.lt hf)
  etcd _ := .inl rfl

/-- A delivery that is over is changed. -/
theorem Calm.of_setDelivery (hde : s.delivery m att = some delivery)
    (hp : next.phase = .done) (ho : next.owner = true → delivery.owner = true)
    (hd : u.delivery = s.delivery) (hm : u.messages = s.messages)
    (he : ∀ key, u.etcd key = s.etcd key ∨ (∃ name, key = inflightKey name) ∧
      s.etcd key = some (.owner m att) ∧ u.etcd key = none ∧ next.owner = false) :
    Calm s (u.setDelivery m att next) where
  delivery other number f hf := by
    rw [Bus.delivery_setDelivery, hd] at hf
    split_ifs at hf with heq
    · obtain ⟨rfl, rfl⟩ := heq
      cases hf
      exact .inl ⟨.inr hp, fun hn => ⟨delivery, hde, ho hn⟩⟩
    · exact .inr hf
  envelope _ _ _ _ := congrFun (Bus.envelope_congr hm) _
  etcd key := by
    refine (he key).imp_right fun ⟨⟨name, heq⟩, hb, ha, hn⟩ =>
      ⟨name, m, att, heq, hb, ha, fun f hf => ?_⟩
    rw [Bus.delivery_setDelivery_self] at hf
    exact Option.some.inj hf ▸ hn

/-- Only publishing changes what messages carry. -/
theorem envelope_of_exec (hp : ∀ p, ac ≠ .publish p)
    (hr : ∀ l, ac ≠ .replay l) (hs : exec co ac s = some t) :
    t.envelope = s.envelope := by
  cases moves_of_exec hs with
  | publish => exact absurd rfl (hp _)
  | replay => exact absurd rfl (hr _)
  | deliver he => exact Bus.envelope_deliver he
  | step _ _ ht => exact ht.envelope
  | _ => rfl

theorem calm_of_exec (h : Numbered s) (hr : Reachable ac s)
    (ho : ∀ m att i, ac ≠ .step m att i)
    (hs : exec co ac s = some t) : Calm s t := by
  cases moves_of_exec hs with
  | publish | replay => exact .of_append h _
  | @deliver m _ overloaded entry he =>
    refine ⟨fun o n f hf => ?_,
      fun o _ _ _ => congrFun (Bus.envelope_deliver he) o, fun _ => .inl rfl⟩
    rw [Bus.delivery_setDelivery] at hf
    by_cases heq : o = m ∧ n = entry.delivered + 1
    · rw [if_pos heq] at hf
      cases hf
      refine .inl ⟨?_, nofun⟩
      cases overloaded with
      | true => exact .inr rfl
      | false => exact .inl rfl
    · rw [if_neg heq] at hf
      exact .inr hf
  | step => exact absurd rfl (ho _ _ _)
  | @unlock _ _ _ _ key hd hdo hl =>
    refine .of_setDelivery hd hdo (nofun) rfl rfl fun o => ?_
    rw [Bus.setEtcd_etcd]
    split_ifs with heq
    · exact .inr ⟨⟨key, heq⟩, heq ▸ hl, rfl, rfl⟩
    · exact .inl rfl
  | releaseOwner hd hdo => exact .of_setDelivery hd hdo (nofun) rfl rfl fun _ => .inl rfl
  | releaseActive hd hdo => exact .of_setDelivery hd hdo id rfl rfl fun _ => .inl rfl
  | @crash node =>
    refine ⟨fun m att f hf => ?_, fun _ _ _ _ => rfl, fun _ => .inl rfl⟩
    obtain ⟨b, hb, rfl⟩ := Option.map_eq_some_iff.1 hf
    by_cases heq : b.node = node
    · exact .inl ⟨.inr (by simp [heq]), fun how => by simp [heq] at how⟩
    · exact .inr (by simpa [heq] using hb)
  | expireLease => exact absurd hr id
  | expireLocal => exact ⟨fun _ _ _ hf => .inr hf, fun _ _ _ _ => rfl, fun _ => .inl rfl⟩

theorem Calm.deliveryKey (h : Calm s t) (hd : t.delivery m att = some delivery)
    (n : Nat) : t.deliveryKey m n = s.deliveryKey m n := by
  rw [Bus.deliveryKey, Bus.deliveryKey, h.envelope m att delivery hd]

/-! ## The in-flight lock -/

/-- A delivery that is to release the lock in etcd holds it, and deliveries that need it have it. -/
structure Owned (s : Bus) : Prop where
  owner : ∀ message attempt delivery key, s.delivery message attempt = some delivery →
    s.deliveryKey message attempt = some key → delivery.owner = true →
    s.etcd (inflightKey key) = some (.owner message attempt)
  single : ∀ message attempt delivery envelope, s.delivery message attempt = some delivery →
    s.envelope message = some envelope → commandNeedsSingleOwner envelope.commandType = true →
    delivery.phase.locked = true → delivery.owner = true

theorem Owned.start : Owned .start where
  owner _ _ _ _ h := nomatch h
  single _ _ _ _ h := nomatch h

theorem Owned.calm (h : Owned s) (hc : Calm s t) : Owned t where
  owner m att delivery key hd hk ho := by
    rw [hc.deliveryKey hd] at hk
    have hl : s.etcd (inflightKey key) = some (.owner m att) := by
      rcases hc.delivery m att delivery hd with ⟨-, hb⟩ | hb
      · obtain ⟨b, hb, ho⟩ := hb ho
        exact h.owner m att b key hb hk ho
      · exact h.owner m att delivery key hb hk ho
    rcases hc.etcd (inflightKey key) with hsa | ⟨_, _, _, -, hot, -, hn⟩
    · exact hsa.trans hl
    · -- a lock is released by the delivery that holds it
      rw [hl] at hot
      cases hot
      rw [hn delivery hd] at ho
      cases ho
  single m att delivery envelope hd he hs hp := by
    rw [hc.envelope m att delivery hd] at he
    rcases hc.delivery m att delivery hd with ⟨hen | hen, -⟩ | hb
    · rw [hen] at hp
      cases hp
    · rw [hen] at hp
      cases hp
    · exact h.single m att delivery envelope hb he hs hp

theorem Owned.advance (h : Owned s) (hde : s.delivery m att = some delivery)
    (hd : u.delivery = s.delivery) (he : u.envelope = s.envelope)
    (hetc : ∀ key v, s.etcd (inflightKey key) = some v → u.etcd (inflightKey key) = some v)
    (how : next.owner = true → delivery.owner = true ∨
      ∀ key, s.deliveryKey m att = some key → u.etcd (inflightKey key) = some (.owner m att))
    (hs : ∀ e, s.envelope m = some e →
      commandNeedsSingleOwner e.commandType = true → next.phase.locked = true →
      next.owner = true) :
    Owned (u.setDelivery m att next) where
  owner other number found key hf hk hh := by
    rw [Bus.setDelivery_deliveryKey, Bus.deliveryKey_congr he] at hk
    rw [Bus.delivery_setDelivery, hd] at hf
    split_ifs at hf with heq
    · obtain ⟨rfl, rfl⟩ := heq
      cases hf
      rcases how hh with hb | hne
      · exact hetc key _ (h.owner other number delivery key hde hk hb)
      · exact hne key hk
    · exact hetc key _ (h.owner other number found key hf hk hh)
  single other number found e hf ho hn hp := by
    rw [Bus.setDelivery_envelope, he] at ho
    rw [Bus.delivery_setDelivery, hd] at hf
    split_ifs at hf with heq
    · obtain ⟨rfl, rfl⟩ := heq
      cases hf
      exact hs e ho hn hp
    · exact h.single other number found e hf ho hn hp

theorem Owned.transition (h : Owned s) {en : Message} {i : Input}
    (hr : i.reply = .answered) (hen : s.messages[m]? = some en)
    (hde : s.delivery m att = some delivery)
    (ht : Transition co s m att delivery en.payload i u next) :
    Owned (u.setDelivery m att next) := by
  have he := ht.envelope
  have hd := ht.frame.1
  have hk : ∀ {e}, en.payload = .command e →
      s.deliveryKey m att = some (dedupeKey e m att) :=
    fun hp => Bus.deliveryKey_of_envelope (Bus.envelope_of_messages hen hp)
  -- a delivery that goes on under the lock has it already
  have hq : u.etcd = s.etcd → next.owner = delivery.owner →
      (next.phase.locked = true → delivery.phase.locked = true) →
      Owned (u.setDelivery m att next) := fun hetc ho hph =>
    h.advance hde hd he (fun _ _ hl => hetc ▸ hl)
      (fun hnex => .inl (ho ▸ hnex)) fun e hm hne hloc =>
        ho ▸ h.single m att delivery e hde hm hne (hph hloc)
  -- setting a key that is no lock, or a lock that is free
  have hse : ∀ {name v} (key : Key) (held : EtcdValue), s.etcd name = none ∨
      (∀ key, name ≠ inflightKey key) → s.etcd (inflightKey key) = some held →
      (s.setEtcd name v).etcd (inflightKey key) = some held := by
    intro name v key held hn hl
    rw [Bus.setEtcd_etcd, if_neg]
    · exact hl
    · rintro rfl
      rcases hn with hn | hn
      · rw [hn] at hl
        cases hl
      · exact hn key rfl
  cases ht with
  | marks _ _ _ hma =>
    exact h.advance hde hd he
      (fun key held hl => hse key held (.inl hma) hl) .inl
      nofun
  | marksUnanswered _ _ _ hlo | ownsUnanswered _ _ hlo =>
    rw [hlo] at hr
    cases hr
  | needsNoOwner hp _ hne =>
    refine h.advance hde hd he (fun _ _ hl => hl) .inl fun e hm hs _ => ?_
    rw [Bus.envelope_of_messages hen hp, Option.some.injEq] at hm
    rw [← hm, hne] at hs
    cases hs
  | owns hp _ hl =>
    refine h.advance hde hd he
      (fun key held hh => hse key held (.inl hl) hh) (fun _ => .inr fun key hm => ?_)
      fun _ _ _ _ => rfl
    rw [hk hp, Option.some.injEq] at hm
    rw [Bus.setEtcd_etcd, if_pos (by rw [hm])]
  | locks _ hph | clears _ hph | starts _ hph => exact hq rfl rfl fun _ => by rw [hph]; rfl
  | records =>
    exact h.advance hde hd he
      (fun key held hl => hse key held
        (.inr fun o => (inflightKey_ne_completedKey o _).symm) hl) .inl
      nofun
  | acks | buries | terminates => exact hq (by split <;> rfl) rfl nofun
  | _ => exact hq rfl rfl nofun

/-- **As long as etcd answers and keeps its leases, the in-flight lock is with one delivery.** -/
theorem Owned.step (h : Owned s) (hn : Numbered s)
    (hr : Reachable ac s) (hs : exec co ac s = some t) : Owned t := by
  cases ac with
  | step =>
    obtain ⟨_, _, he, hd, _, _, ht, rfl⟩ :=
      transition_of_step hs
    exact h.transition hr he hd ht
  | _ => exact h.calm (calm_of_exec hn hr (by simp) hs)

/-! ## Completion -/

/-- Deliveries of one key are under way one at a time and not once the key is completed; and every key
that was worked on has the marker of a first delivery. -/
structure Once (s : Bus) : Prop where
  plain : ∀ message key, s.key message = some key → key.Plain
  marker : ∀ message attempt delivery key, s.delivery message attempt = some delivery →
    s.deliveryKey message attempt = some key → delivery.phase.underWay = true → (s.etcd key).isSome
  completed : ∀ key, (s.etcd (completedKey key)).isSome → key.Plain ∧ (s.etcd key).isSome
  exclusive : ∀ message attempt delivery other number found key,
    s.delivery message attempt = some delivery → s.deliveryKey message attempt = some key →
    delivery.phase.underWay = true → s.delivery other number = some found →
    s.deliveryKey other number = some key → found.phase.underWay = true →
    (other, number) = (message, attempt)
  fresh : ∀ message attempt delivery key, s.delivery message attempt = some delivery →
    s.deliveryKey message attempt = some key → delivery.phase.underWay = true →
    s.etcd (completedKey key) = none

theorem Once.start : Once .start where
  plain _ _ h := nomatch h
  marker _ _ _ _ h := nomatch h
  completed _ h := nomatch h
  exclusive _ _ _ _ _ _ _ h := nomatch h
  fresh _ _ _ _ h := nomatch h

theorem Once.calm (h : Once s) (hc : Calm s t)
    (hpl : ∀ m key, t.key m = some key → key.Plain) : Once t := by
  have hold : ∀ {m att delivery}, t.delivery m att = some delivery →
      delivery.phase.underWay = true → s.delivery m att = some delivery := by
    intro m att delivery hd hp
    rcases hc.delivery m att delivery hd with ⟨he | he, -⟩ | hb
    · rw [he] at hp
      cases hp
    · rw [he] at hp
      cases hp
    · exact hb
  have hm : ∀ {key : Key}, key.Plain → t.etcd key = s.etcd key := by
    intro key hk
    rcases hc.etcd key with hs | ⟨name, -, -, heq, -⟩
    · exact hs
    · exact absurd heq (hk.ne_inflightKey name)
  have hco : ∀ key, t.etcd (completedKey key) = s.etcd (completedKey key) := by
    intro key
    rcases hc.etcd (completedKey key) with hs | ⟨name, -, -, heq, -⟩
    · exact hs
    · exact absurd heq.symm (inflightKey_ne_completedKey name key)
  refine ⟨hpl, fun m att delivery key hd hk hp => ?_, fun key hf => ?_,
    fun m att delivery o n f key hd hk hp hf ho hp' =>
      ?_, fun m att delivery key hd hk hp => ?_⟩
  · rw [hc.deliveryKey hd] at hk
    rw [hm (Bus.plain_of_deliveryKey h.plain hk)]
    exact h.marker m att delivery key (hold hd hp) hk hp
  · rw [hco] at hf
    obtain ⟨hk, _⟩ := h.completed key hf
    exact ⟨hk, by rwa [hm hk]⟩
  · rw [hc.deliveryKey hd] at hk
    rw [hc.deliveryKey hf] at ho
    exact h.exclusive m att delivery o n f key (hold hd hp) hk hp (hold hf hp') ho hp'
  · rw [hc.deliveryKey hd] at hk
    rw [hco]
    exact h.fresh m att delivery key (hold hd hp) hk hp

/-- A delivery goes on. It may leave its completion marker, and it may start being under way if its key
is marked and not completed, and no other delivery of the key is under way. -/
theorem Once.advance (h : Once s) (hd : s.delivery m att = some delivery)
    (hde : u.delivery = s.delivery) (he : u.envelope = s.envelope)
    (hetc : ∀ key, (s.etcd key).isSome → (u.etcd key).isSome)
    (hc : ∀ key, (u.etcd (completedKey key)).isSome →
      (s.etcd (completedKey key)).isSome ∨ s.deliveryKey m att = some key ∧
        delivery.phase.underWay = true ∧ next.phase.underWay = false)
    (htu : next.phase.underWay = true → delivery.phase.underWay = true ∨
      ∀ key, s.deliveryKey m att = some key → (u.etcd key).isSome ∧
        s.etcd (completedKey key) = none ∧
        ∀ other nu found, s.delivery other nu = some found →
          s.deliveryKey other nu = some key → found.phase.underWay = true →
          (other, nu) = (m, att)) :
    Once (u.setDelivery m att next) := by
  have hk : (u.setDelivery m att next).deliveryKey = s.deliveryKey := by
    rw [Bus.setDelivery_deliveryKey, Bus.deliveryKey_congr he]
  have hfi : ∀ {other nu found},
      (u.setDelivery m att next).delivery other nu = some found →
      (other, nu) = (m, att) ∧ found = next ∨
        (other, nu) ≠ (m, att) ∧ s.delivery other nu = some found := by
    intro other nu found hf
    rw [Bus.delivery_setDelivery, hde] at hf
    by_cases heq : other = m ∧ nu = att
    · rw [if_pos heq] at hf
      exact .inl ⟨Prod.ext heq.1 heq.2, (Option.some.inj hf).symm⟩
    · rw [if_neg heq] at hf
      exact .inr ⟨fun hpa => heq (Prod.mk.inj hpa), hf⟩
  -- whatever the delivery was before, no other one of its key is under way
  have hal : next.phase.underWay = true → ∀ {key other nu found},
      s.deliveryKey m att = some key → s.delivery other nu = some found →
      s.deliveryKey other nu = some key → found.phase.underWay = true →
      (other, nu) = (m, att) := by
    intro hn key other nu found hke hf ho hp
    rcases htu hn with hb | hnew
    · exact h.exclusive m att delivery other nu found key hd hke hb hf ho hp
    · exact (hnew key hke).2.2 other nu found hf ho hp
  refine ⟨?_, fun other nu found key hf hke hp => ?_, fun key hf => ?_,
    fun other nu found th n l key hf hke hp hl ht hp' => ?_,
    fun other nu found key hf hke hp => ?_⟩
  · rw [Bus.setDelivery_key, Bus.key_congr he]
    exact h.plain
  · rw [hk] at hke
    rcases hfi hf with ⟨hpa, rfl⟩ | ⟨-, hf⟩
    · obtain ⟨rfl, rfl⟩ := Prod.mk.inj hpa
      rcases htu hp with hb | hnew
      · exact hetc key (h.marker other nu delivery key hd hke hb)
      · exact (hnew key hke).1
    · exact hetc key (h.marker other nu found key hf hke hp)
  · rcases hc key hf with hb | ⟨hke, hp, -⟩
    · obtain ⟨hpl, hm⟩ := h.completed key hb
      exact ⟨hpl, hetc key hm⟩
    · exact ⟨Bus.plain_of_deliveryKey h.plain hke, hetc key (h.marker m att delivery key hd hke hp)⟩
  · rw [hk] at hke ht
    rcases hfi hf with ⟨hpa, rfl⟩ | ⟨-, hb⟩
    · rcases hfi hl with ⟨hpa', -⟩ | ⟨-, hb'⟩
      · rw [hpa, hpa']
      · obtain ⟨rfl, rfl⟩ := Prod.mk.inj hpa
        exact hal hp hke hb' ht hp'
    · rcases hfi hl with ⟨hpa', rfl⟩ | ⟨-, hb'⟩
      · obtain ⟨rfl, rfl⟩ := Prod.mk.inj hpa'
        exact (hal hp' ht hb hke hp).symm
      · exact h.exclusive other nu found th n l key hb hke hp hb' ht hp'
  · rw [hk] at hke
    by_contra hs
    rcases hc key (Option.isSome_iff_ne_none.2 hs) with hb | ⟨how, hb, ha⟩
    · rcases hfi hf with ⟨hpa, rfl⟩ | ⟨-, hf⟩
      · obtain ⟨rfl, rfl⟩ := Prod.mk.inj hpa
        rcases htu hp with hp' | hnew
        · rw [h.fresh other nu delivery key hd hke hp'] at hb
          cases hb
        · rw [(hnew key hke).2.1] at hb
          cases hb
      · rw [h.fresh other nu found key hf hke hp] at hb
        cases hb
    · rcases hfi hf with ⟨-, rfl⟩ | ⟨hne, hf⟩
      · rw [hp] at ha
        cases ha
      · exact hne (h.exclusive m att delivery other nu found key hd how hb hf hke hp)

theorem Once.transition (h : Once s) (hn : Numbered s) {en : Message} {i : Input}
    (hor : Orderly (.step m att i) s)
    (hen : s.messages[m]? = some en)
    (hd : s.delivery m att = some delivery)
    (ht : Transition co s m att delivery en.payload i u next) :
    Once (u.setDelivery m att next) := by
  have he := ht.envelope
  have hde := ht.frame.1
  obtain ⟨hr, hmi⟩ := hor
  have hk : ∀ {e}, en.payload = .command e →
      s.deliveryKey m att = some (dedupeKey e m att) :=
    fun hpa => Bus.deliveryKey_of_envelope (Bus.envelope_of_messages hen hpa)
  -- a delivery goes on and leaves nothing behind
  have hq : u.etcd = s.etcd → (next.phase.underWay = true → delivery.phase.underWay = true) →
      Once (u.setDelivery m att next) := fun hetc htu =>
    h.advance hd hde he (fun _ hf => hetc ▸ hf)
      (fun _ hf => .inl (hetc ▸ hf)) fun hnex => .inl (htu hnex)
  have hse : ∀ {name v} key, (s.etcd key).isSome → ((s.setEtcd name (some v)).etcd key).isSome
      := by
    intro name v key hf
    rw [Bus.setEtcd_etcd]
    split_ifs
    · rfl
    · exact hf
  cases ht with
  | marks hpa _ _ hma =>
    have hpl := Bus.plain_of_deliveryKey h.plain (hk hpa)
    refine h.advance hd hde he hse (fun key hf => .inl ?_) fun _ => .inr fun key hme => ?_
    · rwa [Bus.setEtcd_etcd, if_neg (hpl.ne_completedKey key).symm] at hf
    · rw [hk hpa, Option.some.injEq] at hme
      subst hme
      -- a key without a marker was never worked on
      refine ⟨by rw [Bus.setEtcd_etcd, if_pos rfl]; rfl, ?_, fun o n f hf ho hu => ?_⟩
      · by_contra hs
        have hm := (h.completed _ (Option.isSome_iff_ne_none.2 hs)).2
        rw [hma] at hm
        cases hm
      · have hm := h.marker o n f _ hf ho hu
        rw [hma] at hm
        cases hm
  | marksUnanswered _ _ _ hl | ownsUnanswered _ _ hl =>
    rw [hl] at hr
    cases hr
  | passes hpa hp hc =>
    refine h.advance hd rfl rfl (fun _ hf => hf) (fun _ hf => .inl hf)
      fun _ => .inr fun key hme => ?_
    obtain ⟨hm, ha⟩ := hmi delivery hd hp key hme
    have hm' := hme
    rw [hk hpa, Option.some.injEq] at hm'
    refine ⟨hm, hm' ▸ hc hr, fun o n f hf ho hu => ?_⟩
    by_contra hne
    obtain ⟨_, he', _⟩ := hn o n f hf
    have hnot := ha o (hn.lt hf) n (by rwa [he']) hne ho f hf
    rw [hu] at hnot
    cases hnot
  | owns _ hp =>
    refine h.advance hd hde he hse (fun key hf => .inl ?_) fun _ => .inl (by rw [hp]; rfl)
    rwa [Bus.setEtcd_etcd, if_neg (inflightKey_ne_completedKey _ key).symm] at hf
  | @records e hpa hp =>
    refine h.advance hd hde he hse (fun key hf => ?_) nofun
    rw [Bus.setEtcd_etcd] at hf
    by_cases heq : completedKey key = completedKey (dedupeKey e m att)
    · refine .inr ⟨completedKey_inj heq ▸ hk hpa, by rw [hp]; rfl, rfl⟩
    · rw [if_neg heq] at hf
      exact .inl hf
  | acks | buries | terminates => exact hq (by split <;> rfl) nofun
  | remembers _ hp | locks _ hp | notes _ hp | needsNoOwner _ hp
  | clears _ hp | starts _ hp | fails _ hp => exact hq rfl fun _ => by rw [hp]; rfl
  | completes _ hp => exact hq rfl fun _ => by rcases hp with hp | hp <;> rw [hp] <;> rfl
  | _ => exact hq rfl nofun

/-- **Orderly steps keep deliveries of one key apart, and completed keys at rest.** -/
theorem Once.step (h : Once s) (hn : Numbered s)
    (ho : Orderly ac s) (hs : exec co ac s = some t) : Once t := by
  have hc : (∀ m att i, ac ≠ .step m att i) → Calm s t :=
    fun hot => calm_of_exec hn ho.reachable hot hs
  cases moves_of_exec hs with
  | step he hd ht => exact h.transition hn ho he hd ht
  | publish =>
    refine h.calm (hc (by simp)) fun m key hm => ?_
    rcases Bus.key_append hm with hm | ⟨-, hp⟩
    · exact h.plain m key hm
    · exact ho key hp
  | replay hl =>
    refine h.calm (hc (by simp)) fun m key hm => ?_
    rcases Bus.key_append hm with hm | ⟨-, hp⟩
    · exact h.plain m key hm
    · exact ho _ hl key hp
  | expireLease => exact absurd ho id
  | _ =>
    refine h.calm (hc (by simp)) ?_
    rw [Bus.key_congr (envelope_of_exec (by simp) (by simp) hs)]
    exact h.plain

/-! ## Runs -/

theorem Owned.run {a : List Action}
    (hrun : run (guarded Reachable (exec co)) a .start = some s) :
    Owned s := by
  refine (run_invariant (P := fun s => Numbered s ∧ Owned s) ?_ hrun ⟨(nofun), .start⟩).2
  intro ac s t ⟨hn, ho⟩ hs
  obtain ⟨hr, hs⟩ := guarded_eq_some.1 hs
  exact ⟨hn.step hs, ho.step hn hr hs⟩

theorem Once.run {a : List Action}
    (hrun : run (guarded Orderly (exec co)) a .start = some s) :
    Once s := by
  refine (run_invariant (P := fun s => Numbered s ∧ Once s) ?_ hrun ⟨(nofun), .start⟩).2
  intro ac s t ⟨hn, hon⟩ hs
  obtain ⟨ho, hs⟩ := guarded_eq_some.1 hs
  exact ⟨hn.step hs, hon.step hn ho hs⟩

/-- **A completed command is not run again, and not run twice at a time.** As long as etcd answers and
keeps its leases, no two handlers of a type with a single owner run for one key; and if the steps are
orderly too, no handler starts or runs for a key whose completion marker was written. -/
theorem completed_not_run_again (config : ControlBusConfig) :
    (∀ actions s,
      run (guarded Reachable (exec config)) actions .start = some s →
      ∀ message attempt delivery envelope other number found envelope' key,
        s.delivery message attempt = some delivery → delivery.phase = .running →
        s.envelope message = some envelope →
        commandNeedsSingleOwner envelope.commandType = true →
        s.delivery other number = some found → found.phase = .running →
        s.envelope other = some envelope' → commandNeedsSingleOwner envelope'.commandType = true →
        s.deliveryKey message attempt = some key → s.deliveryKey other number = some key →
        (other, number) = (message, attempt)) ∧
    ∀ actions s, run (guarded Orderly (exec config)) actions .start = some s →
      ∀ message attempt delivery key, s.delivery message attempt = some delivery →
        delivery.phase = .cleared ∨ delivery.phase = .running →
        s.deliveryKey message attempt = some key → s.etcd (completedKey key) = none := by
  refine ⟨fun actions s hrun message attempt delivery envelope other number found envelope' key
    hd hp he hs hf hp' he' hs' hk hk' => ?_,
    fun actions s hrun message attempt delivery key hd hp hk => ?_⟩
  · have ho := Owned.run hrun
    have hl := ho.owner message attempt delivery key hd hk
      (ho.single message attempt delivery envelope hd he hs (by rw [hp]; rfl))
    have hl' := ho.owner other number found key hf hk'
      (ho.single other number found envelope' hf he' hs' (by rw [hp']; rfl))
    rw [hl] at hl'
    cases hl'
    rfl
  · refine (Once.run hrun).fresh message attempt delivery key hd hk ?_
    rcases hp with hp | hp <;> rw [hp] <;> rfl

end

/-! ## A command that is published twice -/

def runAt (node : NodeId) : CommandEnvelope :=
  ⟨"command-1", "key-1", .execRun, none, some node, none⟩

/-- The handler of a first delivery is running. -/
def runsOnce : List Action :=
  [.publish (.command (runAt "b")), .deliver 0 "b" false] ++ List.replicate 6 (.step 0 1 .fine)

def Bus.isAt (s : Bus) (message attempt : Nat) (phase : Phase) : Bool :=
  (s.delivery message attempt).any fun delivery => delivery.phase = phase

theorem Bus.isAt_iff {s : Bus} {m att : Nat} {p : Phase} :
    s.isAt m att p = true ↔ ∃ delivery, s.delivery m att = some delivery ∧ delivery.phase = p := by
  simp [Bus.isAt, Option.any_eq_true]

/-- While the handler of the first delivery runs, no other one does, and a redelivery ends at the lock;
and the command was not completed. -/
theorem completed_not_run_again_runsOnce :
    (∃ s, run (guarded Reachable (exec .standard))
        (runsOnce ++ .deliver 0 "b" false :: List.replicate 3 (.step 0 2 .fine)) .start = some s ∧
      s.isAt 0 1 .running = true ∧ s.isAt 0 2 .done = true ∧
      ∀ other number found, s.delivery other number = some found → found.phase = .running →
        s.envelope other = some (runAt "b") → s.deliveryKey other number = some ⟨"key-1", none⟩ →
        (other, number) = (0, 1)) ∧
    ∃ s, run (guarded Orderly (exec .standard)) runsOnce .start = some s ∧
      s.isAt 0 1 .running = true ∧ s.etcd (completedKey ⟨"key-1", none⟩) = none := by
  constructor
  · obtain ⟨s, hrun, hs⟩ : ∃ s, run (guarded Reachable (exec .standard))
          (runsOnce ++ .deliver 0 "b" false :: List.replicate 3 (.step 0 2 .fine)) .start = some s ∧
        s.isAt 0 1 .running = true ∧ s.isAt 0 2 .done = true ∧
          s.envelope 0 = some (runAt "b") ∧
          s.deliveryKey 0 1 = some ⟨"key-1", none⟩ :=
      exists_of_run (by decide +kernel)
    obtain ⟨hr, hdo, he, hk⟩ := hs
    obtain ⟨delivery, hd, hp⟩ := Bus.isAt_iff.1 hr
    exact ⟨s, hrun, hr, hdo, fun other number found hf hp' he' hk' =>
      (completed_not_run_again .standard).1 _ s hrun 0 1 delivery (runAt "b") other number found
        (runAt "b") _ hd hp he rfl hf hp' he' rfl hk hk'⟩
  · obtain ⟨s, hrun, hs⟩ : ∃ s, run (guarded Orderly (exec .standard)) runsOnce
          .start = some s ∧
        s.isAt 0 1 .running = true ∧ s.deliveryKey 0 1 = some ⟨"key-1", none⟩ :=
      exists_of_run (by decide +kernel)
    obtain ⟨hr, hk⟩ := hs
    obtain ⟨delivery, hd, hp⟩ := Bus.isAt_iff.1 hr
    exact ⟨s, hrun, hr, (completed_not_run_again .standard).2 _ s hrun 0 1 delivery _ hd
      (.inr hp) hk⟩

/-- The command reaches another node first, and is put back; at its own node it is completed. Then it
is published again. -/
def runsAgain : List Action :=
  [.publish (.command (runAt "b")), .deliver 0 "a" false, .step 0 1 .fine, .deliver 0 "b" false] ++
    List.replicate 10 (.step 0 2 .fine) ++
    [.releaseOwner 0 2 .answered, .releaseActive 0 2, .publish (.command (runAt "b")),
      .deliver 1 "b" false] ++
    List.replicate 5 (.step 1 1 .fine)

/-- The command was completed by a redelivery, which leaves no marker for the duplicate suppression. So
the first delivery of the second message goes on, and its handler starts although the completion marker
is there. -/
theorem runsAgain_restarts :
    ∃ s, run (guarded Reachable (exec .standard)) runsAgain .start = some s ∧
      s.deliveryKey 0 2 = some ⟨"key-1", none⟩ ∧ s.deliveryKey 1 1 = some ⟨"key-1", none⟩ ∧
      0 ∈ s.ran ∧ (s.etcd (completedKey ⟨"key-1", none⟩)).isSome ∧
      s.isAt 1 1 .cleared = true ∧
      ∃ t, exec .standard (.step 1 1 .fine) s = some t ∧ t.isAt 1 1 .running = true := by
  obtain ⟨s, hrun, hst⟩ : ∃ s, run (guarded Reachable (exec .standard)) runsAgain
        .start = some s ∧
      s.deliveryKey 0 2 = some ⟨"key-1", none⟩ ∧ s.deliveryKey 1 1 = some ⟨"key-1", none⟩ ∧
        0 ∈ s.ran ∧ (s.etcd (completedKey ⟨"key-1", none⟩)).isSome ∧
        s.isAt 1 1 .cleared = true ∧
        (exec .standard (.step 1 1 .fine) s).any (fun t => t.isAt 1 1 .running) = true :=
    exists_of_run (by decide +kernel)
  obtain ⟨hk, hk', hra, hc, hcl, hs⟩ := hst
  obtain ⟨t, hste, hr⟩ := (Option.any_eq_true _ _).1 hs
  exact ⟨s, hrun, hk, hk', hra, hc, hcl, t, hste, hr⟩

end Chevalier.ControlBus
