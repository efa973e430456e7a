import Chevalier.ControlBus.Command
import Chevalier.Foundations.KeyValue
import Chevalier.Foundations.Remote
import Chevalier.Foundations.Schedule

/-!
# Session routes

The route of a session and its ownership fence are two keys of etcd. Each has a sharded name and a
legacy name, which an older version wrote. `put_session_route` and the fenced
`delete_session_route` read the fence under the sharded name, then under the legacy one if there is
none, check that it is the one the caller expects, and send a transaction that compares the fence
under the name where it was found. The transaction writes the sharded names, or deletes them, and
deletes the legacy names.

Each read, the transaction and its answer are steps of their own (`exec`), so that calls of any
number of clients interleave. A transaction takes effect at some moment after it was sent, or never,
whether or not the caller still waits for its answer.
-/

namespace Chevalier.Distributed

open List

open ControlBus (trim ownershipFenceAllowsTransition)

/-! ## Routes and their encoding -/

structure SessionRoute where
  sessionId : String
  vmId : String
  endpoint : String
  nodeId : Option String
  forkId : Option String
  ownershipFence : Option String
  tenantId : String
  workspaceId : String
  tierBEligible : Bool
  requiredMountProfiles : List String
deriving DecidableEq, Repr

/-- The record that is stored for a route. -/
structure SessionRouteRecord extends SessionRoute where
  updatedAtUnixMs : Nat
deriving DecidableEq, Repr

def sharedMountProfileLocal : String := "local"

/-- Mount profiles in lower case and in order, with the local one among them. -/
def normalizeSharedMountProfiles (values : List String) : List String :=
  let normalized := (values.map fun value => (trim value).map Char.toLower).filter (· ≠ "")
  let normalized :=
    if sharedMountProfileLocal ∈ normalized then normalized
    else normalized ++ [sharedMountProfileLocal]
  (normalized.insertionSort (· ≤ ·)).destutter (· ≠ ·)

/-- A tenant or a workspace. -/
def normalizeScopeValue (raw : String) : String :=
  if trim raw = "" then "default" else trim raw

/-- The record that is stored for a route under its new fence. -/
def SessionRoute.record (route : SessionRoute) (nextFence : String) (now : Nat) :
    SessionRouteRecord :=
  { route with
    ownershipFence := some nextFence
    requiredMountProfiles := normalizeSharedMountProfiles route.requiredMountProfiles
    updatedAtUnixMs := now }

/-- A key of etcd, as what follows the common start of the session keys or of the fence keys. -/
inductive Key
  | session (name : String)
  | fence (name : String)
deriving DecidableEq, Repr

/-- What is stored under a key. -/
inductive Value
  /-- The JSON text of a record. -/
  | record (record : SessionRouteRecord)
  /-- A text that is no record. Under a fence key every text is one. -/
  | text (text : String)
  /-- Bytes that are not UTF-8. -/
  | malformed (bytes : List UInt8)
deriving DecidableEq

/-- A shard in two digits. -/
def shardText (shard : Nat) : String :=
  if shard < 10 then "0" ++ toString shard else toString shard

variable (shardOf so : String → Nat)

def shardedName (sessionId : String) : String := shardText (shardOf sessionId) ++ "/" ++ sessionId

def sessionKey (sessionId : String) : Key := .session (shardedName shardOf sessionId)

def legacySessionKey (sessionId : String) : Key := .session sessionId

def sessionFenceKey (sessionId : String) : Key := .fence (shardedName shardOf sessionId)

def legacySessionFenceKey (sessionId : String) : Key := .fence sessionId

theorem shardedName_ne (si : String) : shardedName so si ≠ si := by
  intro h
  have hl := congrArg String.length h
  simp [shardedName] at hl

/-- A fence as it is read: a blank text is none. -/
def readFenceValue : Option Value → Except String (Option String)
  | none => .ok none
  | some (.text text) => .ok (if trim text = "" then none else some text)
  | some (.record _) | some (.malformed _) => .error "decode fence value failed"

theorem readFenceValue_eq_some {st : Option Value} {f : String} :
    readFenceValue st = .ok (some f) ↔ st = some (.text f) ∧ trim f ≠ "" := by
  cases st with
  | none => simp [readFenceValue]
  | some st =>
    cases st with
    | text =>
      simp only [readFenceValue]
      split
      · next h => simp; rintro rfl; exact h
      · next h => simp; rintro rfl; exact h
    | record | malformed => simp [readFenceValue]

/-! ## Calls -/

/-- A call that changes the route of a session. -/
inductive RouteCall
  /-- `put_session_route`; the next fence is drawn and the record is written out at once. -/
  | put (route : SessionRoute) (expectedFence : Option String) (nextFence : String) (now : Nat)
  /-- `delete_session_route` with a fence. -/
  | delete (sessionId expectedFence : String)
deriving DecidableEq, Repr

namespace RouteCall

variable (call : RouteCall)

def sessionId : RouteCall → String
  | .put route _ _ _ => route.sessionId
  | .delete sessionId _ => sessionId

def expectedFence : RouteCall → Option String
  | .put _ expectedFence _ _ => expectedFence
  | .delete _ expectedFence => some expectedFence

def nextFence : RouteCall → Option String
  | .put _ _ nextFence _ => some nextFence
  | .delete _ _ => none

def record : RouteCall → Option SessionRouteRecord
  | .put route _ nextFence now => some (route.record nextFence now)
  | .delete _ _ => none

/-- What the call returns if its transaction goes through. -/
def returned : RouteCall → Option SessionRoute
  | .put route _ nextFence _ => some { route with
      requiredMountProfiles := normalizeSharedMountProfiles route.requiredMountProfiles
      ownershipFence := some nextFence }
  | .delete _ _ => none

/-- The name of the call in an error. -/
def label : RouteCall → String
  | .put _ _ _ _ => "session route"
  | .delete _ _ => "session route delete"

/-- What is compared, given where the fence was found. -/
def compare (compareKey : Key) : KeyValue.Compare Key Value :=
  match call.expectedFence with
  | some fence => .value compareKey (.text fence)
  | none => .absent (sessionFenceKey shardOf call.sessionId)

/-- What is done if the fence is still the expected one. -/
def operations : List (KeyValue.Op Key Value) :=
  match call with
  | .put route _ nextFence now =>
    [.put (sessionKey shardOf route.sessionId) (.record (route.record nextFence now)),
      .put (sessionFenceKey shardOf route.sessionId) (.text nextFence),
      .delete (legacySessionKey route.sessionId), .delete (legacySessionFenceKey route.sessionId)]
  | .delete sessionId _ =>
    [.delete (sessionKey shardOf sessionId), .delete (sessionFenceKey shardOf sessionId),
      .delete (legacySessionKey sessionId), .delete (legacySessionFenceKey sessionId)]

def txn (compareKey : Key) : KeyValue.Txn Key Value :=
  ⟨[call.compare shardOf compareKey], call.operations shardOf⟩

def fenceConflict (current : Option String) : String :=
  call.label ++ " ownership fence mismatch: expected=" ++ call.expectedFence.getD "<none>" ++
    " current=" ++ current.getD "<none>"

/-- The error of a call whose transaction was not answered. -/
def txnFailed (error : String) : String :=
  match call with
  | .put _ _ _ _ => "etcd put session route txn failed: " ++ error
  | .delete _ _ => "etcd delete session route txn failed: " ++ error

end RouteCall

/-- Where a call is. -/
inductive Phase
  /-- About to read the fence under its sharded name. -/
  | reading
  /-- There was none. -/
  | readingLegacy
  /-- Waiting for the transaction. -/
  | committing
  /-- The comparison failed; about to read the fence for the error. -/
  | explaining
  | done (returned : Option SessionRoute)
  | conflict (error : String)
  | failed (error : String)
deriving DecidableEq, Repr

/-- A call, with the number of the transaction it sent. -/
structure Client where
  call : RouteCall
  sent : Option Nat
  phase : Phase
deriving DecidableEq, Repr

/-- A transaction on its way, with the client that sent it. -/
structure Sent where
  client : Nat
  call : RouteCall
  compareKey : Key
deriving DecidableEq, Repr

/-- A transaction that went through, with the store before and after it. -/
structure Commit where
  client : Nat
  call : RouteCall
  before : Table Key Value
  after : Table Key Value

/-- etcd, the transactions on their way, the clients, and the fences that were drawn or found in the
beginning. `commits` are the transactions that went through, the latest first. -/
structure System where
  store : Table Key Value
  remote : Remote Sent Bool
  clients : List Client
  drawn : List String
  commits : List Commit

def texts (store : Table Key Value) : List String :=
  store.rows.filterMap fun row => match row.2 with
    | .text text => some text
    | .record _ | .malformed _ => none

/-- Nothing was called yet. -/
def System.start (store : Table Key Value) : System := ⟨store, .empty, [], texts store, []⟩

/-- What is done. -/
inductive Action
  | call (call : RouteCall)
  /-- A client reads a fence, or fails to. -/
  | read (client : Nat) (error : Option String)
  /-- A client receives the answer to its transaction, or gives up. -/
  | receive (client : Nat) (error : Option String)
  /-- A transaction takes effect. -/
  | execute (request : Nat)

namespace System

variable (s : System)

/-- A client goes to a phase. -/
def enter (client : Nat) (state : Client) : System := { s with clients := s.clients.set client state }

/-- A client that found the fence checks it and sends its transaction. -/
def submit (i : Nat) (client : Client) (current : Option String) (compareKey : Key) : System :=
  if ownershipFenceAllowsTransition current client.call.expectedFence then
    { s with
      remote := s.remote.send ⟨i, client.call, compareKey⟩
      clients := s.clients.set i
        { client with sent := some s.remote.sent.length, phase := .committing } }
  else s.enter i { client with phase := .conflict (client.call.fenceConflict current) }

end System

variable {shardOf so}

def readStep (shardOf : String → Nat) (s : System) (i : Nat) (client : Client)
    (error : Option String) : Option System :=
  let fenceKey := sessionFenceKey shardOf client.call.sessionId
  let legacyFenceKey := legacySessionFenceKey client.call.sessionId
  let read (key : Key) : Except String (Option String) :=
    match error with
    | some error => .error ("etcd read fence key failed: " ++ error)
    | none => readFenceValue (s.store.get key)
  match client.phase with
  | .reading =>
    match read fenceKey with
    | .error error => some (s.enter i { client with phase := .failed error })
    | .ok none => some (s.enter i { client with phase := .readingLegacy })
    | .ok (some fence) => some (s.submit i client (some fence) fenceKey)
  | .readingLegacy =>
    match read legacyFenceKey with
    | .error error => some (s.enter i { client with phase := .failed error })
    | .ok none => some (s.submit i client none fenceKey)
    | .ok (some fence) => some (s.submit i client (some fence) legacyFenceKey)
  | .explaining =>
    match read fenceKey with
    | .error error => some (s.enter i { client with phase := .failed error })
    | .ok current =>
      some (s.enter i { client with phase := .conflict (client.call.fenceConflict current) })
  | .committing | .done _ | .conflict _ | .failed _ => none

/-- The step of a client that waits for its transaction. -/
def receiveStep (s : System) (i : Nat) (client : Client) (error : Option String) : Option System :=
  match client.phase, client.sent, error with
  | .committing, some k, none =>
    if (k, true) ∈ s.remote.executed then
      some (s.enter i { client with phase := .done client.call.returned })
    else if (k, false) ∈ s.remote.executed then
      some (s.enter i { client with phase := .explaining })
    else none
  | .committing, some _, some error =>
    some (s.enter i { client with phase := .failed (client.call.txnFailed error) })
  | _, _, _ => none

/-- A transaction takes effect. -/
def executeStep (shardOf : String → Nat) (s : System) (k : Nat) (sent : Sent) : System :=
  let txn := sent.call.txn shardOf sent.compareKey
  if txn.Succeeds s.store then
    { s with
      store := txn.apply s.store
      remote := s.remote.answer k true
      commits := ⟨sent.client, sent.call, s.store, txn.apply s.store⟩ :: s.commits }
  else { s with remote := s.remote.answer k false }

/-- One step. A new fence is no blank text, and differs from all others. -/
def exec (shardOf : String → Nat) : Action → System → Option System
  | .call call, s =>
    if ∃ fence ∈ call.nextFence, trim fence = "" ∨ fence ∈ s.drawn then none
    else some { s with
      clients := s.clients ++ [⟨call, none, .reading⟩]
      drawn := call.nextFence.toList ++ s.drawn }
  | .read i error, s => s.clients[i]?.bind fun client => readStep shardOf s i client error
  | .receive i error, s => s.clients[i]?.bind fun client => receiveStep s i client error
  | .execute k, s => (s.remote.pending k).map fun sent => executeStep shardOf s k sent

/-! ## What a step does -/

section

variable (shardOf so) (s : System) (client : Client)

def Client.Enters : Phase → Prop
  | .readingLegacy => client.phase = .reading ∧
    readFenceValue (s.store.get (sessionFenceKey shardOf client.call.sessionId)) = .ok none
  | .explaining => ∃ k, client.sent = some k ∧ (k, false) ∈ s.remote.executed
  | .done _ => ∃ k, client.sent = some k ∧ (k, true) ∈ s.remote.executed
  | .conflict _ =>
    client.phase = .reading ∨ client.phase = .readingLegacy ∨ client.phase = .explaining
  | .failed _ => True
  | .reading | .committing => False

/-- Why a client sends its transaction: it found the fence that it expects, under the name that it
compares. -/
inductive Client.Found : Key → Prop
  | sharded {fence} (hphase : client.phase = .reading)
      (hexpected : client.call.expectedFence = some fence)
      (hread : readFenceValue (s.store.get (sessionFenceKey shardOf client.call.sessionId)) =
        .ok (some fence)) :
      Found (sessionFenceKey shardOf client.call.sessionId)
  | legacy {fence} (hphase : client.phase = .readingLegacy)
      (hexpected : client.call.expectedFence = some fence)
      (hread : readFenceValue (s.store.get (legacySessionFenceKey client.call.sessionId)) =
        .ok (some fence)) :
      Found (legacySessionFenceKey client.call.sessionId)
  | none (hphase : client.phase = .readingLegacy) (hexpected : client.call.expectedFence = none)
      (hread : readFenceValue (s.store.get (legacySessionFenceKey client.call.sessionId)) =
        .ok none) :
      Found (sessionFenceKey shardOf client.call.sessionId)

def System.sendFrom (i : Nat) (compareKey : Key) : System :=
  { s with
    remote := s.remote.send ⟨i, client.call, compareKey⟩
    clients := s.clients.set i
      { client with sent := some s.remote.sent.length, phase := .committing } }

/-- A transaction goes through. -/
def System.commit (k : Nat) (sent : Sent) : System :=
  { s with
    store := (sent.call.txn shardOf sent.compareKey).apply s.store
    remote := s.remote.answer k true
    commits := ⟨sent.client, sent.call, s.store,
      (sent.call.txn shardOf sent.compareKey).apply s.store⟩ :: s.commits }

/-- A transaction finds another fence. -/
def System.refuse (k : Nat) : System := { s with remote := s.remote.answer k false }

def System.begin (call : RouteCall) : System :=
  { s with
    clients := s.clients ++ [⟨call, none, .reading⟩]
    drawn := call.nextFence.toList ++ s.drawn }

end

/-- What a step does. -/
inductive Transition (shardOf : String → Nat) (s : System) : Action → System → Prop
  | call {call} (hfresh : ∀ fence, call.nextFence = some fence → fence ∉ s.drawn) :
      Transition shardOf s (.call call) (s.begin call)
  | enter {action i client phase} (hclient : s.clients[i]? = some client)
      (hphase : client.Enters shardOf s phase) (hquiet : ∀ call, action ≠ .call call) :
      Transition shardOf s action (s.enter i { client with phase := phase })
  | send {action i client compareKey} (hclient : s.clients[i]? = some client)
      (hfound : client.Found shardOf s compareKey) (hquiet : ∀ call, action ≠ .call call) :
      Transition shardOf s action (s.sendFrom client i compareKey)
  | refuse {k sent} (hpending : s.remote.pending k = some sent) :
      Transition shardOf s (.execute k) (s.refuse k)
  | commit {k sent} (hpending : s.remote.pending k = some sent)
      (hsucceeds : (sent.call.txn shardOf sent.compareKey).Succeeds s.store) :
      Transition shardOf s (.execute k) (s.commit shardOf k sent)

section

variable {s t : System} {i : Nat} {client : Client} {e : Option String}

theorem submit_cases (s : System) (i : Nat) (client : Client) (cu : Option String)
    (ck : Key) :
    client.call.expectedFence = cu ∧
        s.submit i client cu ck = s.sendFrom client i ck ∨
      s.submit i client cu ck =
        s.enter i { client with phase := .conflict (client.call.fenceConflict cu) } := by
  unfold System.submit
  split
  · next ha =>
    refine .inl ⟨?_, rfl⟩
    unfold ownershipFenceAllowsTransition at ha
    split at ha <;> simp_all
  · exact .inr rfl

theorem transition_of_read (hc : s.clients[i]? = some client)
    (h : readStep so s i client e = some t) : Transition so s (.read i e) t := by
  -- What a read that succeeds says about the store.
  have hr : ∀ {key : Key} {cu : Option String}, (match e with
      | some e => .error ("etcd read fence key failed: " ++ e)
      | none => readFenceValue (s.store.get key)) = Except.ok cu →
      readFenceValue (s.store.get key) = .ok cu := by
    intro key cu hr
    cases e with
    | some => cases hr
    | none => exact hr
  have hq : ∀ call, Action.read i e ≠ .call call := by simp
  cases hp : client.phase with
  | reading =>
    simp only [readStep, hp] at h
    split at h <;> cases h
    · exact .enter hc trivial hq
    · next hn => exact .enter hc ⟨hp, hr hn⟩ hq
    · next f hs =>
      obtain ⟨he, heq⟩ | heq := submit_cases s i client (some f)
        (sessionFenceKey so client.call.sessionId)
      · rw [heq]
        exact .send hc (.sharded hp he (hr hs)) hq
      · rw [heq]
        exact .enter hc (.inl hp) hq
  | readingLegacy =>
    simp only [readStep, hp] at h
    split at h <;> cases h
    · exact .enter hc trivial hq
    · next hn =>
      obtain ⟨he, heq⟩ | heq := submit_cases s i client none
        (sessionFenceKey so client.call.sessionId)
      · rw [heq]
        exact .send hc (.none hp he (hr hn)) hq
      · rw [heq]
        exact .enter hc (.inr (.inl hp)) hq
    · next f hs =>
      obtain ⟨he, heq⟩ | heq := submit_cases s i client (some f)
        (legacySessionFenceKey client.call.sessionId)
      · rw [heq]
        exact .send hc (.legacy hp he (hr hs)) hq
      · rw [heq]
        exact .enter hc (.inr (.inl hp)) hq
  | explaining =>
    simp only [readStep, hp] at h
    split at h <;> cases h
    · exact .enter hc trivial hq
    · exact .enter hc (.inr (.inr hp)) hq
  | _ =>
    simp only [readStep, hp] at h
    cases h

theorem transition_of_receive (hc : s.clients[i]? = some client)
    (h : receiveStep s i client e = some t) : Transition so s (.receive i e) t := by
  unfold receiveStep at h
  split at h
  · next k _ hs =>
    split at h
    · next ht =>
      cases h
      exact .enter hc ⟨k, hs, ht⟩ nofun
    · split at h <;> cases h
      next hf => exact .enter hc ⟨k, hs, hf⟩ nofun
  · cases h
    exact .enter hc trivial nofun
  · cases h

/-- What the steps do. -/
theorem transition_of_exec {a : Action} (h : exec so a s = some t) :
    Transition so s a t := by
  cases a with
  | call =>
    simp only [exec] at h
    split at h <;> cases h
    next hfr =>
    exact .call fun f hf hd => hfr ⟨f, hf, .inr hd⟩
  | read =>
    obtain ⟨client, hc, h⟩ := Option.bind_eq_some_iff.1 h
    exact transition_of_read hc h
  | receive =>
    obtain ⟨client, hc, h⟩ := Option.bind_eq_some_iff.1 h
    exact transition_of_receive hc h
  | execute =>
    obtain ⟨_, hp, rfl⟩ := Option.map_eq_some_iff.1 h
    simp only [executeStep]
    split
    · next hs => exact .commit hp hs
    · exact .refuse hp

end

/-! ## Clients and their transactions -/

section

variable {s t : System} {i c : Nat} {client fo : Client} {a : Action}

/-- A client that goes on has the call it had. -/
theorem call_of_set {next : Client} (hc : s.clients[i]? = some client)
    (h : (s.clients.set i next)[c]? = some fo) (hca : next.call = client.call) :
    ∃ o, s.clients[c]? = some o ∧ o.call = fo.call := by
  rcases getElem?_set_cases h with ⟨rfl, rfl⟩ | ⟨-, h⟩
  · exact ⟨client, hc, hca.symm⟩
  · exact ⟨fo, h, rfl⟩

theorem call_of_transition (h : Transition so s a t)
    (hq : ∀ call, a ≠ .call call) (hc : t.clients[c]? = some client) :
    ∃ old, s.clients[c]? = some old ∧ old.call = client.call := by
  cases h with
  | call => exact absurd rfl (hq _)
  | enter hf | send hf => exact call_of_set hf hc rfl
  | refuse | commit => exact ⟨client, hc, rfl⟩

theorem length_of_transition (h : Transition so s a t)
    (hq : ∀ call, a ≠ .call call) : t.clients.length = s.clients.length := by
  cases h with
  | call => exact absurd rfl (hq _)
  | enter | send => exact length_set
  | refuse => rfl
  | commit => rfl

end

/-- A transaction is that of a client, which sent no other. -/
structure Tracked (s : System) : Prop where
  orderly : s.remote.Orderly
  sent : ∀ (k : Nat) sent, s.remote.sent[k]? = some sent →
    ∃ client, s.clients[sent.client]? = some client ∧ client.sent = some k ∧
      client.call = sent.call
  numbers : ∀ (i k : Nat) client, s.clients[i]? = some client → client.sent = some k →
    ∃ compareKey, s.remote.sent[k]? = some ⟨i, client.call, compareKey⟩
  /-- A client that reads has sent nothing, and one that explains a conflict was refused. -/
  phases : ∀ client ∈ s.clients,
    (client.phase = .reading ∨ client.phase = .readingLegacy → client.sent = none) ∧
    (client.phase = .explaining → ∃ k, client.sent = some k ∧ (k, false) ∈ s.remote.executed) ∧
    (∀ returned, client.phase = .done returned →
      ∃ k, client.sent = some k ∧ (k, true) ∈ s.remote.executed) ∧
    ∀ error, client.phase = .conflict error → ∀ k, client.sent = some k →
      (k, false) ∈ s.remote.executed

namespace Tracked

variable {s t : System} {i k : Nat} {client : Client} {sent : Sent}

theorem begins (st : Table Key Value) : Tracked (.start st) where
  orderly := .empty
  sent _ _ h := by simp [System.start, Remote.empty] at h
  numbers _ _ _ h := by simp [System.start] at h
  phases _ h := absurd h not_mem_nil

theorem begin (hs : Tracked s) (call : RouteCall) : Tracked (s.begin call) where
  orderly := hs.orderly
  sent k sent hk := by
    obtain ⟨fo, hf, hse⟩ := hs.sent k sent hk
    exact ⟨fo, getElem?_append_of_some hf, hse⟩
  numbers i k fo hi hk := by
    rcases getElem?_concat_cases hi with hi | ⟨-, rfl⟩
    · exact hs.numbers i k fo hi hk
    · cases hk
  phases fo hf := by
    rcases List.mem_append.1 hf with hf | hf
    · exact hs.phases fo hf
    · rw [List.mem_singleton.1 hf]
      exact ⟨fun _ => rfl, nofun, nofun, nofun⟩

/-- A client that enters a phase has what the phase asks for. -/
theorem enter (hs : Tracked s) (hc : s.clients[i]? = some client) {phase : Phase}
    (hp : client.Enters so s phase) :
    Tracked (s.enter i { client with phase := phase }) := by
  refine ⟨hs.orderly, fun k sent hk => ?_, fun j k fo hj hk => ?_, fun fo hf => ?_⟩
  · obtain ⟨fo, hf, hn, hca⟩ := hs.sent k sent hk
    by_cases heq : i = sent.client
    · subst heq
      cases hc.symm.trans hf
      exact ⟨{ client with phase := phase }, getElem?_set_of_some hc, hn, hca⟩
    · exact ⟨fo, (getElem?_set_ne heq).trans hf, hn, hca⟩
  · rcases getElem?_set_cases hj with ⟨rfl, rfl⟩ | ⟨-, hj⟩
    · exact hs.numbers j k client hc hk
    · exact hs.numbers j k fo hj hk
  · rcases mem_or_eq_of_mem_set hf with hf | rfl
    · exact hs.phases fo hf
    · obtain ⟨hr, he, -, -⟩ := hs.phases client (mem_of_getElem? hc)
      refine ⟨?_, ?_, ?_, ?_⟩
      · rintro (rfl | rfl)
        · exact hp.elim
        · exact hr (.inl hp.1)
      · rintro rfl
        exact hp
      · rintro _ rfl
        exact hp
      · rintro _ rfl k hk
        rcases hp with hp | hp | hp
        · cases (hr (.inl hp)).symm.trans hk
        · cases (hr (.inr hp)).symm.trans hk
        · obtain ⟨_, hk', hfa⟩ := he hp
          cases hk'.symm.trans hk
          exact hfa

/-- A client that found its fence has not sent anything before. -/
theorem sent_of_found (hs : Tracked s) (hc : s.clients[i]? = some client) {ck : Key}
    (hf : client.Found so s ck) : client.sent = none := by
  refine (hs.phases client (mem_of_getElem? hc)).1 ?_
  cases hf with
  | sharded hp => exact .inl hp
  | legacy hp | none hp => exact .inr hp

theorem send (hs : Tracked s) (hc : s.clients[i]? = some client) (hno : client.sent = none)
    (ck : Key) : Tracked (s.sendFrom client i ck) := by
  refine ⟨hs.orderly.send, fun k sent hk => ?_, fun j k fo hj hk => ?_, fun fo hf => ?_⟩
  · rcases getElem?_concat_cases hk with hk | ⟨rfl, rfl⟩
    · obtain ⟨fo, hf, hn, hca⟩ := hs.sent k sent hk
      refine ⟨fo, ?_, hn, hca⟩
      have hne : i ≠ sent.client := by
        rintro rfl
        cases hc.symm.trans hf
        cases hno.symm.trans hn
      exact (getElem?_set_ne hne).trans hf
    · exact ⟨_, getElem?_set_of_some hc, rfl, rfl⟩
  · rcases getElem?_set_cases hj with ⟨rfl, rfl⟩ | ⟨-, hj⟩
    · cases hk
      exact ⟨ck, Remote.getElem?_send⟩
    · obtain ⟨key, hg⟩ := hs.numbers j k fo hj hk
      exact ⟨key, Remote.getElem?_send_of_some hg⟩
  · rcases mem_or_eq_of_mem_set hf with hf | rfl
    · exact hs.phases fo hf
    · exact ⟨fun h => (by rcases h with h | h <;> cases h), nofun, nofun, nofun⟩

theorem answer (hs : Tracked s) (hp : s.remote.pending k = some sent) (su : Bool)
    (hc : t.clients = s.clients) (hr : t.remote = s.remote.answer k su) :
    Tracked t := by
  have hm : s.remote.executed ⊆ t.remote.executed := by
    rw [hr]
    exact subset_cons_self _ _
  refine ⟨hr ▸ hs.orderly.answer hp, ?_, ?_, fun fo hfo => ?_⟩
  · rw [hc, hr]
    exact hs.sent
  · rw [hc, hr]
    exact hs.numbers
  · obtain ⟨hre, he, hd, hco⟩ := hs.phases fo (hc ▸ hfo)
    refine ⟨hre, fun h => ?_, fun r h => ?_, fun e h k' hk' => ?_⟩
    · obtain ⟨k', hk', hf⟩ := he h
      exact ⟨k', hk', hm hf⟩
    · obtain ⟨k', hk', ht⟩ := hd r h
      exact ⟨k', hk', hm ht⟩
    · exact hm (hco e h k' hk')

/-- Every step keeps clients and transactions together. -/
theorem step (hs : Tracked s) {a : Action} (h : Transition so s a t) : Tracked t := by
  cases h with
  | call => exact hs.begin _
  | enter hc hph => exact hs.enter hc hph
  | send hc hf => exact hs.send hc (hs.sent_of_found hc hf) _
  | refuse hp => exact hs.answer hp false rfl rfl
  | commit hp => exact hs.answer hp true rfl rfl

end Tracked

end Chevalier.Distributed
