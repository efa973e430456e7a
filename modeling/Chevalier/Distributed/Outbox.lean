import Chevalier.Foundations.Remote
import Chevalier.Foundations.Schedule
import Chevalier.Foundations.Table

/-!
# The command outbox

A command is published in three steps: its record is stored among the pending records of the outbox,
its message is published to the broker, and the record is deleted (`publishCommand`). A replay pass
lists the pending records, publishes each one, deletes it if the broker acknowledged it, and writes
it back with one more attempt if not (`replayOutboxOnce`). Any number of processes do both.

Each request to etcd or to the broker is sent in one step and takes effect in another, later one, or
never; the process goes on when it has an answer, or gives up without one. A process that crashes
takes no further step.

* `outbox_loses_and_invents_nothing`: a record that was stored is pending, or the broker accepted
  its message; a command that was reported published was accepted; and every message that the broker
  accepted is that of a record that had been stored before.
-/

namespace Chevalier.Distributed.Outbox

open Schedule Remote List

variable {V : Type*}

/-! ## Records and messages -/

/-- A record of the outbox; its payload is the envelope of the command. -/
structure OutboxRecord (V : Type*) where
  kind : String
  commandId : String
  subject : String
  payload : V
  createdAtUnixMs : Nat
  updatedAtUnixMs : Nat
  attempts : Nat
deriving DecidableEq

/-- What the broker is given. -/
structure Message (V : Type*) where
  messageId : String
  subject : String
  payload : V
deriving DecidableEq

def OutboxRecord.message (record : OutboxRecord V) : Message V :=
  ⟨record.commandId, record.subject, record.payload⟩

/-- What a caller asks for. `envelope` is what `build_command_envelope` makes of the command under
its id. -/
structure Command (V : Type*) where
  commandType : String
  envelope : String → V

/-- The record that `publish_command` stores first. -/
def Command.record (subjectPrefix : String) (command : Command V) (commandId : String) (now : Nat) :
    OutboxRecord V where
  kind := "command"
  commandId := commandId
  subject := subjectPrefix ++ ".cmd." ++ command.commandType
  payload := command.envelope commandId
  createdAtUnixMs := now
  updatedAtUnixMs := now
  attempts := 0

/-- The record after a publication that was not acknowledged. -/
def OutboxRecord.retried (record : OutboxRecord V) (now : Nat) : OutboxRecord V :=
  { record with attempts := record.attempts + 1, updatedAtUnixMs := now }

/-! ## Processes and servers -/

/-- A request to etcd or to the broker. -/
inductive Request (V : Type*)
  | put (record : OutboxRecord V)
  | publish (record : OutboxRecord V)
  | delete (commandId : String)
deriving DecidableEq

/-- How the wait for a request ends. -/
inductive Reply
  | ok
  /-- The request could not be sent. -/
  | failed (error : String)
  /-- The request was sent, but no answer came. -/
  | unacknowledged (error : String)
deriving DecidableEq

/-- Where a call of `publish_command`, or a pass of `replay_outbox_once`, is. A phase that waits has
the number of its request. -/
inductive Phase (V : Type*)
  | putting (record : OutboxRecord V) (request : Nat)
  | publishing (record : OutboxRecord V) (request : Nat)
  | deleting (record : OutboxRecord V) (request : Nat)
  /-- A replay pass that is about to take up the rest of its list. -/
  | replaying (rest : List (OutboxRecord V))
  | republishing (record : OutboxRecord V) (rest : List (OutboxRecord V)) (request : Nat)
  /-- A replay pass that waits for its deletion or for its write; it goes on in either case. -/
  | settling (rest : List (OutboxRecord V)) (request : Nat)
  /-- `publish_command` returned the command's id. -/
  | published (commandId : String)
  /-- `replay_outbox_once` returned. -/
  | replayed
  | failed (error : String)
deriving DecidableEq

/-- What happened, in order: a record was stored, or a message was accepted by the broker. -/
inductive Event (V : Type*)
  | stored (record : OutboxRecord V)
  | accepted (message : Message V)
deriving DecidableEq

/-- The outbox in etcd, the requests on their way, and the processes. `issued` are the messages of
all commands that were begun and `log` is what happened so far. -/
structure System (V : Type*) where
  pending : Table String (OutboxRecord V)
  remote : Remote (Request V) Unit
  calls : List (Phase V)
  issued : List (Message V)
  log : List (Event V)

/-- The outbox is empty and nothing runs. -/
def System.start : System V := ⟨.empty, .empty, [], [], []⟩

/-- What is done. -/
inductive Action (V : Type*)
  /-- `publish_command` is called; the id of the command is drawn. -/
  | publishCommand (command : Command V) (commandId : String) (now : Nat)
  /-- `replay_outbox_once` is called and lists the pending records, or fails to. -/
  | replayOutboxOnce (error : Option String)
  /-- A process goes on with how its wait ended. -/
  | resume (call : Nat) (reply : Reply) (now : Nat)
  /-- A request takes effect. The broker may find that it accepted the message before. -/
  | execute (request : Nat) (duplicate : Bool)

namespace System

variable (s : System V)

def setCall (call : Nat) (phase : Phase V) : System V := { s with calls := s.calls.set call phase }

def sendFrom (call : Nat) (request : Request V) (phase : Nat → Phase V) : System V :=
  { s with
    remote := s.remote.send request
    calls := s.calls.set call (phase s.remote.sent.length) }

/-- The request took effect, as the answer says. -/
def Answered (request : Nat) : Reply → Prop
  | .ok => (request, ()) ∈ s.remote.executed
  | .failed _ | .unacknowledged _ => True

instance (request : Nat) (reply : Reply) : Decidable (s.Answered request reply) :=
  match reply with
  | .ok => inferInstanceAs (Decidable (_ ∈ s.remote.executed))
  | .failed _ | .unacknowledged _ => inferInstanceAs (Decidable True)

end System

def etcdError (operation : String) : Reply → Option String
  | .ok => none
  | .failed error | .unacknowledged error =>
    some ("etcd " ++ operation ++ " outbox record failed: " ++ error)

def publishError (commandId : String) : Reply → Option String
  | .ok => none
  | .failed error =>
    some ("jetstream publish outbox record failed (command_id=" ++ commandId ++ "): " ++ error)
  | .unacknowledged error =>
    some ("jetstream publish outbox ack failed (command_id=" ++ commandId ++ "): " ++ error)

/-- A process goes on. -/
def resume (s : System V) (call : Nat) (reply : Reply) (now : Nat) : Phase V → Option (System V)
  | .putting record request =>
    if s.Answered request reply then
      match etcdError "put" reply with
      | some error => some (s.setCall call (.failed error))
      | none => some (s.sendFrom call (.publish record) (.publishing record))
    else none
  | .publishing record request =>
    if s.Answered request reply then
      match publishError record.commandId reply with
      | some error => some (s.setCall call (.failed error))
      | none => some (s.sendFrom call (.delete record.commandId) (.deleting record))
    else none
  | .deleting record request =>
    if s.Answered request reply then
      match etcdError "delete" reply with
      | some error => some (s.setCall call (.failed error))
      | none => some (s.setCall call (.published record.commandId))
    else none
  | .replaying [] => some (s.setCall call .replayed)
  | .replaying (record :: rest) =>
    some (s.sendFrom call (.publish record) (.republishing record rest))
  | .republishing record rest request =>
    if s.Answered request reply then
      match publishError record.commandId reply with
      | some _ => some (s.sendFrom call (.put (record.retried now)) (.settling rest))
      | none => some (s.sendFrom call (.delete record.commandId) (.settling rest))
    else none
  | .settling rest request =>
    if s.Answered request reply then some (s.setCall call (.replaying rest)) else none
  | .published _ | .replayed | .failed _ => none

/-- Every way a process goes on. -/
inductive Resumes (s : System V) (call now : Nat) : Phase V → System V → Prop
  | fails {phase} (error : String) : Resumes s call now phase (s.setCall call (.failed error))
  | stored {record k} (h : (k, ()) ∈ s.remote.executed) : Resumes s call now (.putting record k)
      (s.sendFrom call (.publish record) (.publishing record))
  | accepted {record k} (h : (k, ()) ∈ s.remote.executed) :
      Resumes s call now (.publishing record k)
        (s.sendFrom call (.delete record.commandId) (.deleting record))
  | deleted {record k} :
      Resumes s call now (.deleting record k) (s.setCall call (.published record.commandId))
  | ends : Resumes s call now (.replaying []) (s.setCall call .replayed)
  | replays {record rest} : Resumes s call now (.replaying (record :: rest))
      (s.sendFrom call (.publish record) (.republishing record rest))
  | writesBack {record rest k} : Resumes s call now (.republishing record rest k)
      (s.sendFrom call (.put (record.retried now)) (.settling rest))
  | replayed {record rest k} (h : (k, ()) ∈ s.remote.executed) :
      Resumes s call now (.republishing record rest k)
        (s.sendFrom call (.delete record.commandId) (.settling rest))
  | goesOn {rest k} : Resumes s call now (.settling rest k) (s.setCall call (.replaying rest))

theorem resumes_of_resume {s t : System V} {call now : Nat} {r : Reply} {ph : Phase V}
    (h : resume s call r now ph = some t) : Resumes s call now ph t := by
  cases ph with
  | putting | publishing | republishing =>
    simp only [resume] at h
    split at h
    · next ha =>
      cases r with
      | ok => cases h; constructor; exact ha
      | failed | unacknowledged => cases h; constructor
    · cases h
  | deleting =>
    simp only [resume] at h
    split at h
    · cases r <;> cases h <;> constructor
    · cases h
  | replaying rest =>
    cases rest with
    | nil | cons => cases h; constructor
  | settling =>
    simp only [resume] at h
    split at h <;> cases h
    exact .goesOn
  | published | replayed | failed => cases h

def System.accepted (s : System V) : List (Message V) :=
  s.log.filterMap fun
    | .accepted message => some message
    | .stored _ => none

def System.effect (s : System V) (k : Nat) (pending : Table String (OutboxRecord V))
    (events : List (Event V)) : System V :=
  { s with pending := pending, remote := s.remote.answer k (), log := s.log ++ events }

def execute (s : System V) (k : Nat) (duplicate : Bool) : Request V → Option (System V)
  | .put record =>
    some (s.effect k (s.pending.set record.commandId record) [.stored record])
  | .publish record =>
    if duplicate then
      -- The broker drops a message whose id it knows, and acknowledges it.
      if record.commandId ∈ s.accepted.map (·.messageId) then some (s.effect k s.pending [])
      else none
    else some (s.effect k s.pending [.accepted record.message])
  | .delete commandId =>
    some (s.effect k (s.pending.delete fun key _ => key = commandId) [])

/-- One step. Command ids are unique. -/
def exec (subjectPrefix : String) : Action V → System V → Option (System V)
  | .publishCommand command commandId now, s =>
    if commandId ∈ s.issued.map (·.messageId) then none
    else
      let record := command.record subjectPrefix commandId now
      some { s with
        remote := s.remote.send (.put record)
        calls := s.calls ++ [.putting record s.remote.sent.length]
        issued := s.issued ++ [record.message] }
  | .replayOutboxOnce none, s =>
    some { s with calls := s.calls ++ [.replaying (s.pending.rows.map Prod.snd)] }
  | .replayOutboxOnce (some error), s =>
    some { s with calls := s.calls ++ [.failed ("etcd list outbox records failed: " ++ error)] }
  | .resume call reply now, s => s.calls[call]?.bind (resume s call reply now)
  | .execute k duplicate, s => (s.remote.pending k).bind (execute s k duplicate)

/-! ## What is known along a run -/

namespace System

variable {s t : System V} {message me : Message V} {request re : Request V} {phase ph : Phase V}

def Stored (s : System V) (message : Message V) : Prop :=
  ∃ record, Event.stored record ∈ s.log ∧ record.message = message

def Accepted (s : System V) (message : Message V) : Prop := Event.accepted message ∈ s.log

theorem mem_accepted : me ∈ s.accepted ↔ s.Accepted me := by
  simp only [accepted, Accepted, mem_filterMap]
  constructor
  · rintro ⟨e, he, heq⟩
    cases e with
    | stored => cases heq
    | accepted => cases heq; exact he
  · exact fun h => ⟨_, h, rfl⟩

def Settled (s : System V) (commandId : String) : Prop :=
  ∃ message, s.Accepted message ∧ message.messageId = commandId

/-- What a request was sent for: only commands that were begun are stored, only what was stored is
published, and only what was accepted is deleted. -/
def Justified (s : System V) : Request V → Prop
  | .put record => record.message ∈ s.issued
  | .publish record => s.Stored record.message
  | .delete commandId => s.Settled commandId

/-- What a request that took effect has left for good. -/
def Effected (s : System V) : Request V → Prop
  | .put record => s.Stored record.message
  | .publish record => s.Accepted record.message
  | .delete _ => True

/-- What a process knows. -/
def Follows (s : System V) : Phase V → Prop
  | .putting record k => s.remote.sent[k]? = some (.put record)
  | .publishing record k => s.remote.sent[k]? = some (.publish record)
  | .deleting record _ => s.Accepted record.message
  | .replaying rest | .settling rest _ => ∀ record ∈ rest, s.Stored record.message
  | .republishing record rest k =>
    s.remote.sent[k]? = some (.publish record) ∧ ∀ found ∈ record :: rest, s.Stored found.message
  | .published commandId => s.Settled commandId
  | .replayed | .failed _ => True

/-- Nothing that happened is forgotten. -/
structure Extends (s t : System V) : Prop where
  sent : ∀ (k : Nat) request, s.remote.sent[k]? = some request →
    t.remote.sent[k]? = some request
  issued : s.issued ⊆ t.issued
  log : s.log ⊆ t.log

theorem extends_setCalls (s : System V) (calls : List (Phase V)) :
    s.Extends { s with calls := calls } :=
  ⟨fun _ _ h => h, List.Subset.refl _, List.Subset.refl _⟩

theorem extends_send (s : System V) (re : Request V) :
    s.Extends { s with remote := s.remote.send re } :=
  ⟨fun _ _ h => getElem?_send_of_some h, List.Subset.refl _, List.Subset.refl _⟩

theorem extends_issue (s : System V) (me : Message V) :
    s.Extends { s with issued := s.issued ++ [me] } :=
  ⟨fun _ _ h => h, subset_append_left _ _, List.Subset.refl _⟩

theorem extends_effect (s : System V) (k : Nat) (p : Table String (OutboxRecord V))
    (ev : List (Event V)) : s.Extends (s.effect k p ev) :=
  ⟨fun _ _ h => h, List.Subset.refl _, subset_append_left _ _⟩

theorem Stored.mono (h : s.Stored me) (hext : s.Extends t) : t.Stored me := by
  obtain ⟨r, hr, hm⟩ := h
  exact ⟨r, hext.log hr, hm⟩

theorem Settled.mono {ci : String} (h : s.Settled ci) (hext : s.Extends t) :
    t.Settled ci := by
  obtain ⟨me, hm, hid⟩ := h
  exact ⟨me, hext.log hm, hid⟩

theorem Justified.mono (h : s.Justified re) (hext : s.Extends t) : t.Justified re := by
  cases re with
  | put => exact hext.issued h
  | publish => exact Stored.mono h hext
  | delete => exact Settled.mono h hext

theorem Effected.mono (h : s.Effected re) (hext : s.Extends t) : t.Effected re := by
  cases re with
  | put => exact Stored.mono h hext
  | publish => exact hext.log h
  | delete => trivial

theorem Follows.mono (h : s.Follows ph) (hext : s.Extends t) : t.Follows ph := by
  cases ph with
  | putting | publishing => exact hext.sent _ _ h
  | deleting => exact hext.log h
  | replaying | settling => exact fun r hr => (h r hr).mono hext
  | republishing r => exact ⟨hext.sent _ _ h.1, fun r hr => (h.2 r hr).mono hext⟩
  | published => exact Settled.mono h hext
  | replayed => trivial
  | failed => trivial

/-- The outbox is in order. -/
structure Sound (s : System V) : Prop where
  /-- An id names one command. -/
  distinct : ∀ m ∈ s.issued, ∀ m' ∈ s.issued, m.messageId = m'.messageId → m = m'
  sent : ∀ (k : Nat) request, s.remote.sent[k]? = some request → s.Justified request
  orderly : s.remote.Orderly
  executed : ∀ (k : Nat) request, (k, ()) ∈ s.remote.executed → s.remote.sent[k]? = some request →
    s.Effected request
  pending : ∀ commandId record, s.pending.get commandId = some record →
    record.commandId = commandId ∧ s.Stored record.message
  calls : ∀ phase ∈ s.calls, s.Follows phase
  stored : ∀ message, s.Stored message → message ∈ s.issued
  /-- A record that was stored is still there, or its message was accepted. -/
  kept : ∀ message, s.Stored message →
    (∃ record, s.pending.get message.messageId = some record ∧ record.message = message) ∨
      s.Accepted message
  /-- A message is accepted after a record with it was stored. -/
  sourced : ∀ before message after, s.log = before ++ .accepted message :: after →
    ∃ record, .stored record ∈ before ∧ record.message = message

namespace Sound

theorem start : Sound (System.start : System V) where
  distinct _ h := by simp [System.start] at h
  sent k re h := by simp [System.start, empty] at h
  orderly := .empty
  executed k re h := by simp [System.start, empty] at h
  pending ci record h := by simp [System.start] at h
  calls ph h := by simp [System.start] at h
  stored me h := by simp [System.start, Stored] at h
  kept me h := by simp [System.start, Stored] at h
  sourced before me after h := by simp [System.start] at h

/-- Messages that were accepted have been stored. -/
theorem stored_of_accepted (hs : s.Sound) (h : s.Accepted me) : s.Stored me := by
  obtain ⟨b, a, hl⟩ := append_of_mem h
  obtain ⟨r, hr, hm⟩ := hs.sourced b me a hl
  exact ⟨r, by rw [hl]; exact mem_append_left _ hr, hm⟩

/-- The messages of one id that were issued are equal. -/
theorem accepted_of_settled (hs : s.Sound) (hst : s.Stored me)
    (h : s.Settled me.messageId) : s.Accepted me := by
  obtain ⟨found, hf, hid⟩ := h
  have hi := hs.stored _ (hs.stored_of_accepted hf)
  rwa [hs.distinct found hi me (hs.stored _ hst) hid] at hf

/-- Processes come and go on. -/
theorem setCalls (hs : s.Sound) {calls : List (Phase V)}
    (hc : ∀ ph ∈ calls, s.Follows ph) : Sound { s with calls := calls } where
  distinct := hs.distinct
  sent k re h := (hs.sent k re h).mono (extends_setCalls s calls)
  orderly := hs.orderly
  executed k re h hse := (hs.executed k re h hse).mono (extends_setCalls s calls)
  pending := hs.pending
  calls ph h := (hc ph h).mono (extends_setCalls s calls)
  stored := hs.stored
  kept := hs.kept
  sourced := hs.sourced

variable {call : Nat}

/-- A process goes on to a phase. -/
theorem setCall (hs : s.Sound) (hp : s.Follows ph) :
    Sound (s.setCall call ph) :=
  hs.setCalls fun o ho => (mem_or_eq_of_mem_set ho).elim (hs.calls o) fun heq => heq ▸ hp

/-- A request is sent for a reason. -/
theorem send (hs : s.Sound) (hr : s.Justified re) :
    Sound { s with remote := s.remote.send re } where
  distinct := hs.distinct
  sent k found h := by
    rcases of_getElem?_send h with h | rfl
    · exact (hs.sent k found h).mono (extends_send s re)
    · exact hr.mono (extends_send s found)
  orderly := hs.orderly.send
  executed k found h hse := by
    have hold := (getElem?_send_of_lt (hs.orderly.sent k () h)).symm.trans hse
    exact (hs.executed k found h hold).mono (extends_send s re)
  pending := hs.pending
  calls other h := (hs.calls other h).mono (extends_send s re)
  stored := hs.stored
  kept := hs.kept
  sourced := hs.sourced

/-- A process sends a request and waits for it. -/
theorem sendFrom (hs : s.Sound) {next : Nat → Phase V} (hr : s.Justified re)
    (hp : Follows { s with remote := s.remote.send re } (next s.remote.sent.length)) :
    Sound (s.sendFrom call re next) :=
  (hs.send hr).setCall hp

/-- A command is begun under a new id. -/
theorem issue (hs : s.Sound) (hf : me.messageId ∉ s.issued.map (·.messageId)) :
    Sound { s with issued := s.issued ++ [me] } where
  distinct m hm m' hm' hid := by
    have ho : ∀ m ∈ s.issued, m.messageId ≠ me.messageId := fun m hm hid =>
      hf (hid ▸ mem_map_of_mem hm)
    rcases List.mem_append.1 hm with hm | hm <;> rcases List.mem_append.1 hm' with hm' | hm'
    · exact hs.distinct m hm m' hm' hid
    · exact absurd (List.mem_singleton.1 hm' ▸ hid) (ho m hm)
    · exact absurd (List.mem_singleton.1 hm ▸ hid.symm) (ho m' hm')
    · rw [List.mem_singleton.1 hm, List.mem_singleton.1 hm']
  sent k re h := (hs.sent k re h).mono (extends_issue s me)
  orderly := hs.orderly
  executed k re h hse := (hs.executed k re h hse).mono (extends_issue s me)
  pending := hs.pending
  calls ph h := (hs.calls ph h).mono (extends_issue s me)
  stored other h := mem_append_left _ (hs.stored other h)
  kept := hs.kept
  sourced := hs.sourced

variable {ev : List (Event V)} {k : Nat}

/-- What is kept when a request takes effect, given what it does to the outbox and to the log. -/
theorem effect (hs : s.Sound) {pending : Table String (OutboxRecord V)} (hre : s.remote.pending k = some re)
    (he : (s.effect k pending ev).Effected re)
    (hp : ∀ ci r, pending.get ci = some r →
      r.commandId = ci ∧ (s.effect k pending ev).Stored r.message)
    (hst : ∀ r, .stored r ∈ ev → r.message ∈ s.issued)
    (hk : ∀ me, (s.effect k pending ev).Stored me →
      (∃ r, pending.get me.messageId = some r ∧ r.message = me) ∨
        (s.effect k pending ev).Accepted me)
    (hso : ∀ me, .accepted me ∈ ev → s.Stored me) :
    Sound (s.effect k pending ev) where
  distinct := hs.distinct
  sent k' found h := (hs.sent k' found h).mono (extends_effect s k pending ev)
  orderly := hs.orderly.answer hre
  executed k' found h hf := by
    rcases mem_executed_answer.1 h with ⟨rfl, -⟩ | h
    · have hse := (pending_eq_some.1 hre).2
      obtain rfl : re = found := Option.some.inj (hse.symm.trans hf)
      exact he
    · exact (hs.executed k' found h hf).mono (extends_effect s k pending ev)
  pending := hp
  calls ph h := (hs.calls ph h).mono (extends_effect s k pending ev)
  stored me h := by
    obtain ⟨r, hr, rfl⟩ := h
    rcases List.mem_append.1 hr with hr | hr
    · exact hs.stored _ ⟨r, hr, rfl⟩
    · exact hst r hr
  kept := hk
  sourced before me after h := by
    rcases List.append_eq_append_iff.1 h with ⟨m, hb, hev⟩ | ⟨m, hl, ha⟩
    · -- The message was accepted just now.
      obtain ⟨r, hr, hm⟩ := hso me (by rw [hev]; simp)
      exact ⟨r, by rw [hb]; exact mem_append_left _ hr, hm⟩
    · cases m with
      | nil =>
        obtain ⟨r, hr, hm⟩ := hso me (by
          rw [nil_append] at ha; rw [← ha]; exact mem_cons_self)
        rw [append_nil] at hl
        exact ⟨r, hl ▸ hr, hm⟩
      | cons _ m =>
        obtain ⟨rfl, -⟩ := List.cons.inj ha
        exact hs.sourced before me m hl

/-- What was stored before is stored. -/
theorem stored_effect {p : Table String (OutboxRecord V)}
    (h : (s.effect k p ev).Stored me) :
    s.Stored me ∨ ∃ r, Event.stored r ∈ ev ∧ r.message = me := by
  obtain ⟨r, hr, hm⟩ := h
  exact (List.mem_append.1 hr).imp (⟨r, ·, hm⟩) (⟨r, ·, hm⟩)

theorem effectPut (hs : s.Sound) {r : OutboxRecord V}
    (hr : s.remote.pending k = some (.put r)) :
    Sound (s.effect k (s.pending.set r.commandId r) [.stored r]) := by
  have hi : r.message ∈ s.issued := hs.sent k _ (pending_eq_some.1 hr).2
  have hn : (s.effect k (s.pending.set r.commandId r) [.stored r]).Stored
      r.message := ⟨r, by simp [System.effect], rfl⟩
  refine hs.effect hr hn (fun ci f h => ?_) (by simpa using hi) (fun me h => ?_) (by simp)
  · rw [Table.get_set] at h
    split at h
    · next heq =>
      cases h
      exact ⟨heq.symm, hn⟩
    · obtain ⟨hid, hst⟩ := hs.pending ci f h
      exact ⟨hid, hst.mono (extends_effect s k _ _)⟩
  · have hme : s.Stored me ∨ me = r.message := by
      simpa [eq_comm] using stored_effect h
    by_cases hid : me.messageId = r.commandId
    · -- The record may be a newer one for the same command.
      have hm : me ∈ s.issued :=
        hme.elim (hs.stored me) fun heq => heq ▸ hi
      exact .inl ⟨r, by simp [hid], hs.distinct _ hi _ hm hid.symm⟩
    · have hold := hme.resolve_right fun heq => hid (heq ▸ rfl)
      rcases hs.kept me hold with ⟨kept, _, hk⟩ | ha
      · exact .inl ⟨kept, by rwa [Table.get_set_of_ne hid], hk⟩
      · exact .inr (mem_append_left _ ha)

/-- The broker answers for a message that it has accepted, now or before. -/
theorem effectPublish (hs : s.Sound) {r : OutboxRecord V} (hr : s.remote.pending k = some (.publish r))
    (he : ∀ e ∈ ev, e = .accepted r.message)
    (ha : Event.accepted r.message ∈ s.log ++ ev) :
    Sound (s.effect k s.pending ev) := by
  have hst : s.Stored r.message := hs.sent k _ (pending_eq_some.1 hr).2
  refine hs.effect hr ha (fun ci f h => ?_) (fun f h => ?_) (fun me h => ?_) fun me h => ?_
  · obtain ⟨hid, hf⟩ := hs.pending ci f h
    exact ⟨hid, hf.mono (extends_effect s k _ _)⟩
  · cases he _ h
  · have hold := (stored_effect h).resolve_right fun ⟨f, hf, _⟩ => by
      cases he _ hf
    exact (hs.kept me hold).imp_right (mem_append_left _)
  · cases he _ h
    exact hst

/-- Only what was accepted is deleted. -/
theorem effectDelete (hs : s.Sound) {ci : String}
    (hr : s.remote.pending k = some (.delete ci)) :
    Sound (s.effect k (s.pending.delete fun key _ => key = ci) []) := by
  have hse : s.Settled ci := hs.sent k _ (pending_eq_some.1 hr).2
  refine hs.effect hr trivial (fun key f h => ?_) (by simp) (fun me h => ?_) (by simp)
  · rw [Table.get_delete, Option.filter_eq_some_iff] at h
    obtain ⟨hid, hf⟩ := hs.pending key f h.1
    exact ⟨hid, hf.mono (extends_effect s k _ _)⟩
  · have hst : s.Stored me := by simpa using stored_effect h
    by_cases hid : me.messageId = ci
    · exact .inr (mem_append_left _ (hs.accepted_of_settled hst (hid ▸ hse)))
    · rcases hs.kept me hst with ⟨kept, hg, hm⟩ | ha
      · exact .inl ⟨kept, by simp [hg, hid], hm⟩
      · exact .inr (mem_append_left _ ha)

theorem execute (hs : s.Sound) {d : Bool}
    (hr : s.remote.pending k = some re) (h : execute s k d re = some t) :
    t.Sound := by
  cases re with
  | put =>
    cases h
    exact hs.effectPut hr
  | delete =>
    cases h
    exact hs.effectDelete hr
  | publish r =>
    simp only [Outbox.execute] at h
    split at h
    · split at h
      · next hk =>
        cases h
        obtain ⟨me, hm, hid⟩ := List.mem_map.1 hk
        have ha : s.Accepted r.message :=
          hs.accepted_of_settled (hs.sent k _ (pending_eq_some.1 hr).2) ⟨me, mem_accepted.1 hm, hid⟩
        exact hs.effectPublish hr (by simp) (mem_append_left _ ha)
      · cases h
    · cases h
      exact hs.effectPublish hr (by simp) (by simp)

/-- A process goes on with what its request has left. -/
theorem resumes (hs : s.Sound) {now : Nat} (hp : s.Follows ph)
    (h : Resumes s call now ph t) : t.Sound := by
  cases h with
  | fails => exact hs.setCall trivial
  | stored hd => exact hs.sendFrom (hs.executed _ _ hd hp) getElem?_send
  | accepted hd =>
    have ha := hs.executed _ _ hd hp
    exact hs.sendFrom ⟨_, ha, rfl⟩ ha
  | @deleted record => exact hs.setCall ⟨record.message, hp, rfl⟩
  | ends => exact hs.setCall trivial
  | @replays record =>
    exact hs.sendFrom (hp record mem_cons_self) ⟨getElem?_send, fun f hf =>
      (hp f hf).mono (extends_send s _)⟩
  | @writesBack record =>
    exact hs.sendFrom (hs.stored _ (hp.2 record mem_cons_self)) fun f hf =>
      (hp.2 f (mem_cons_of_mem _ hf)).mono (extends_send s _)
  | replayed hd =>
    exact hs.sendFrom ⟨_, hs.executed _ _ hd hp.1, rfl⟩ fun f hf =>
      (hp.2 f (mem_cons_of_mem _ hf)).mono (extends_send s _)
  | goesOn => exact hs.setCall hp

/-- Every step keeps the outbox in order. -/
theorem step (hs : s.Sound) {sp : String} {ac : Action V}
    (h : exec sp ac s = some t) : t.Sound := by
  cases ac with
  | publishCommand c ci now =>
    simp only [exec] at h
    split at h
    · cases h
    · next hf =>
      cases h
      let r := c.record sp ci now
      have hi : Sound { s with issued := s.issued ++ [r.message] } := hs.issue hf
      have hpu : Justified { s with issued := s.issued ++ [r.message] } (.put r) :=
        mem_append_right _ mem_cons_self
      refine (hi.send hpu).setCalls fun ph hp => ?_
      rcases List.mem_append.1 hp with hp | hp
      · exact (hi.send hpu).calls ph hp
      · rw [List.mem_singleton.1 hp]
        exact getElem?_send
  | replayOutboxOnce e =>
    cases e with
    | none =>
      cases h
      refine hs.setCalls fun ph hp => ?_
      rcases List.mem_append.1 hp with hp | hp
      · exact hs.calls ph hp
      · rw [List.mem_singleton.1 hp]
        intro r hre
        obtain ⟨⟨ci, f⟩, hro, rfl⟩ := List.mem_map.1 hre
        exact (hs.pending ci f (Table.mem_rows_iff.1 hro)).2
    | some =>
      cases h
      refine hs.setCalls fun ph hp => ?_
      rcases List.mem_append.1 hp with hp | hp
      · exact hs.calls ph hp
      · rw [List.mem_singleton.1 hp]
        trivial
  | resume =>
    obtain ⟨ph, hp, h⟩ := Option.bind_eq_some_iff.1 h
    exact hs.resumes (hs.calls ph (mem_of_getElem? hp)) (resumes_of_resume h)
  | execute =>
    obtain ⟨_, hr, h⟩ := Option.bind_eq_some_iff.1 h
    exact hs.execute hr h

theorem run {sp : String} {a : List (Action V)}
    (h : run (exec sp) a System.start = some s) : s.Sound :=
  run_invariant (P := Sound) (fun _ _ _ hs hst => hs.step hst) h start

end Sound

end System

/-! ## Nothing is lost and nothing is invented -/

/-- **The outbox loses nothing and invents nothing.** After every run from an empty outbox, a record
that was stored is still pending or the broker has accepted its message, a command that was reported
published was accepted, and a record with the id, the subject and the payload of an accepted message
had been stored before it. -/
theorem outbox_loses_and_invents_nothing (subjectPrefix : String) (actions : List (Action V))
    (s : System V) (hrun : run (exec subjectPrefix) actions .start = some s) :
    (∀ record, .stored record ∈ s.log →
      (∃ kept, s.pending.get record.commandId = some kept ∧ kept.message = record.message) ∨
        .accepted record.message ∈ s.log) ∧
    (∀ commandId, .published commandId ∈ s.calls →
      ∃ message, .accepted message ∈ s.log ∧ message.messageId = commandId) ∧
    ∀ before message after, s.log = before ++ .accepted message :: after →
      ∃ record, .stored record ∈ before ∧ record.message = message := by
  have hs := System.Sound.run hrun
  exact ⟨fun record hr => hs.kept record.message ⟨record, hr, rfl⟩,
    fun commandId hc => hs.calls _ hc, hs.sourced⟩

/-- A command is stored and published. The broker's acknowledgement is lost and the caller sees an
error; a replay pass publishes the record again, which the broker recognizes, and deletes it. -/
def lostAcknowledgement : List (Action String) :=
  [.publishCommand ⟨"exec_run", fun id => id⟩ "c-1" 5, .execute 0 false, .resume 0 .ok 6,
    .execute 1 false, .resume 0 (.unacknowledged "timed out") 7, .replayOutboxOnce none,
    .resume 1 .ok 8, .execute 2 true, .resume 1 .ok 9, .execute 3 false, .resume 1 .ok 10,
    .resume 1 .ok 11]

/-- The replayed command was accepted once, after its record was stored. -/
theorem outbox_loses_and_invents_nothing_replays :
    ∃ s, run (exec "control") lostAcknowledgement .start = some s ∧
      s.pending.get "c-1" = none ∧
      .accepted ⟨"c-1", "control.cmd.exec_run", "c-1"⟩ ∈ s.log := by
  obtain ⟨s, hrun, hst⟩ : ∃ s, run (exec "control") lostAcknowledgement .start = some s ∧
      s.pending.get "c-1" = none ∧ Event.stored ((⟨"exec_run", fun id => id⟩ :
        Command String).record "control" "c-1" 5) ∈ s.log :=
    exists_of_run (by decide +kernel)
  obtain ⟨hp, hs⟩ := hst
  obtain ⟨hk, -, -⟩ := outbox_loses_and_invents_nothing "control" lostAcknowledgement s hrun
  rcases hk _ hs with ⟨_, hg, -⟩ | ha
  · cases hp.symm.trans hg
  · exact ⟨s, hrun, hp, ha⟩

/-! ## A finished command -/

/-- What a request does to the pending records. -/
def Request.applied (pending : Table String (OutboxRecord V)) :
    Request V → Table String (OutboxRecord V)
  | .put record => pending.set record.commandId record
  | .publish _ => pending
  | .delete commandId => pending.delete fun key _ => key = commandId

namespace System

variable {s t : System V} {commandId ci sp : String} {action ac : Action V}

/-- The record of the command was deleted, which is asked for when the command was accepted. -/
def Finished (s : System V) (commandId : String) : Prop :=
  ∃ k : Nat, (k, ()) ∈ s.remote.executed ∧ s.remote.sent[k]? = some (.delete commandId)

def wasStored (s : System V) (commandId : String) : Bool :=
  s.log.any fun
    | .stored record => decide (record.commandId = commandId)
    | .accepted _ => false

/-- A record that was stored before is written back only while it is pending. -/
def WritesBackPending : Action V → System V → Prop
  | .execute k _, s =>
    match s.remote.sent[k]? with
    | some (.put record) =>
      s.wasStored record.commandId = true → (s.pending.get record.commandId).isSome
    | _ => True
  | _, _ => True

instance (action : Action V) (s : System V) : Decidable (WritesBackPending action s) := by
  unfold WritesBackPending
  split
  · split <;> infer_instance
  · infer_instance

theorem effect_of_execute {k : Nat} {d : Bool} {re : Request V}
    (h : execute s k d re = some t) :
    ∃ ev, t = s.effect k (re.applied s.pending) ev := by
  cases re with
  | put | delete => cases h; exact ⟨_, rfl⟩
  | publish =>
    simp only [execute] at h
    split_ifs at h <;> cases h <;> exact ⟨_, rfl⟩

/-- A step leaves the pending records as they are, or makes a request take effect. -/
theorem exec_cases (h : exec sp ac s = some t) :
    s.Extends t ∧ t.remote.executed = s.remote.executed ∧ t.pending = s.pending ∨
      ∃ k d re ev, ac = .execute k d ∧
        s.remote.pending k = some re ∧
        t = s.effect k (re.applied s.pending) ev := by
  have hs : ∀ re call next, s.Extends (s.sendFrom call re next) := fun _ _ _ =>
    ⟨fun _ _ h => getElem?_send_of_some h, List.Subset.refl _, List.Subset.refl _⟩
  cases ac with
  | publishCommand =>
    simp only [exec] at h
    split at h <;> cases h
    exact .inl ⟨⟨fun _ _ h => getElem?_send_of_some h, subset_append_left _ _,
      List.Subset.refl _⟩, rfl, rfl⟩
  | replayOutboxOnce e => cases e <;> cases h <;> exact .inl ⟨extends_setCalls s _, rfl, rfl⟩
  | resume =>
    obtain ⟨ph, -, h⟩ := Option.bind_eq_some_iff.1 h
    cases resumes_of_resume h with
    | fails | deleted | ends | goesOn => exact .inl ⟨extends_setCalls s _, rfl, rfl⟩
    | stored | accepted | replays | writesBack | replayed => exact .inl ⟨hs _ _ _, rfl, rfl⟩
  | execute k d =>
    obtain ⟨re, hr, h⟩ := Option.bind_eq_some_iff.1 h
    obtain ⟨ev, rfl⟩ := effect_of_execute h
    exact .inr ⟨k, d, re, ev, rfl, hr, rfl⟩

/-- A finished command stays finished. -/
theorem Finished.step (h : s.Finished ci) (hs : exec sp ac s = some t) :
    t.Finished ci := by
  obtain ⟨k, hk, hd⟩ := h
  rcases exec_cases hs with ⟨hext, he, -⟩ | ⟨_, _, _, _, -, -, rfl⟩
  · exact ⟨k, he ▸ hk, hext.sent k _ hd⟩
  · exact ⟨k, mem_cons_of_mem _ hk, hd⟩

/-- A record of a finished command was stored. -/
theorem Sound.wasStored (hs : s.Sound) (h : s.Finished ci) :
    s.wasStored ci = true := by
  obtain ⟨k, -, hd⟩ := h
  obtain ⟨me, ha, rfl⟩ := hs.sent k _ hd
  obtain ⟨r, hr, rfl⟩ := hs.stored_of_accepted ha
  exact List.any_eq_true.2 ⟨_, hr, decide_eq_true rfl⟩

/-- No step brings back the record of a finished command. -/
theorem Sound.absent (hs : s.Sound) (hg : WritesBackPending ac s)
    (hst : exec sp ac s = some t)
    (ha : s.Finished ci → s.pending.get ci = none)
    (hf : t.Finished ci) : t.pending.get ci = none := by
  obtain ⟨k, hk, hd⟩ := hf
  rcases exec_cases hst with
    ⟨hext, he, hp⟩ | ⟨k', duplicate, re, ev, rfl, hr, rfl⟩
  · rw [he] at hk
    have hse := getElem?_eq_getElem (hs.orderly.sent k () hk)
    rw [hext.sent k _ hse] at hd
    rw [hp]
    exact ha ⟨k, hk, hse.trans hd⟩
  · have hse := (pending_eq_some.1 hr).2
    show (re.applied s.pending).get ci = none
    rcases mem_executed_answer.1 hk with ⟨rfl, -⟩ | hk
    · cases hse.symm.trans hd
      simp [Request.applied]
    · have hb : s.Finished ci := ⟨k, hk, hd⟩
      cases re with
      | put r =>
        refine (Table.get_set_of_ne ?_).trans (ha hb)
        rintro rfl
        simp only [WritesBackPending, hse] at hg
        simpa [ha hb] using hg (hs.wasStored hb)
      | publish => exact ha hb
      | delete => simp [Request.applied, ha hb]

end System

/-- A replay pass lists the record of a command; then the command is accepted and its record is
deleted. -/
def deletedWhileListed : List (Action String) :=
  [.publishCommand ⟨"exec_run", fun id => id⟩ "c-1" 5, .execute 0 false, .resume 0 .ok 6,
    .replayOutboxOnce none, .resume 1 .ok 7, .execute 1 false, .resume 0 .ok 8, .execute 3 false]

end Chevalier.Distributed.Outbox
