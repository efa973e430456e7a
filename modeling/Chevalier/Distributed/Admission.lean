import Chevalier.Distributed.Route

/-!
# Session quotas

`select_node_for_session_with_eligibility` lists the stored session routes, counts those of the
tenant and those of the tenant's workspace, and goes on if both counts are below their quotas. The
route of the new session is stored later, by `put_session_route`, whose transaction does not look at
the counts again. So two admissions that list the routes before either has stored its own may both
go through (`quota_exceeded`).

* `quotas_hold`: if no other admission of the tenant may still store its route when an admission
  lists the routes, the stored routes stay within both quotas.
-/

namespace Chevalier.Distributed

open Schedule List

open ControlBus (trim isWhiteSpace)

/-! ## Listing the stored routes -/

/-- What follows the last slash of a key. -/
def lastComponent (name : String) : String :=
  String.ofList (name.toList.reverse.takeWhile (· ≠ '/')).reverse

/-- A stored route, as it is listed. -/
def decodeSessionRouteRecord (name : String) : Value → Option SessionRouteRecord
  | .record record => some { record with
      sessionId := if trim record.sessionId = "" then lastComponent name else record.sessionId
      tenantId := normalizeScopeValue record.tenantId
      workspaceId := normalizeScopeValue record.workspaceId
      requiredMountProfiles := normalizeSharedMountProfiles record.requiredMountProfiles }
  | .text endpoint => some
      ⟨⟨lastComponent name, "", endpoint, none, none, none, "default", "default", false, []⟩, 0⟩
  | .malformed _ => none

/-- The session keys of a store, in the order of their names. -/
def sessionRows (store : Table Key Value) : List (String × Value) :=
  (store.rows.filterMap fun row => match row.1 with
    | .session name => some (name, row.2)
    | .fence _ => none).insertionSort fun row other => row.1 ≤ other.1

/-- Of the records of one session the latest is kept. -/
def insertRecord (records : Table String SessionRouteRecord) (record : SessionRouteRecord) :
    Table String SessionRouteRecord :=
  if (records.get record.sessionId).all fun existing =>
      existing.updatedAtUnixMs ≤ record.updatedAtUnixMs then
    records.set record.sessionId record
  else records

/-- The stored routes, one for each session. -/
def sessionRouteRecords (store : Table Key Value) : List SessionRouteRecord :=
  let decoded := (sessionRows store).filterMap fun row => decodeSessionRouteRecord row.1 row.2
  (decoded.foldl insertRecord .empty).rows.map Prod.snd

/-! ## Budgets -/

/-- The quotas of a deployment. -/
structure AdmissionConfig where
  tenantSessionQuota : Option Nat
  workspaceSessionQuota : Option Nat
  admissionRetryAfterMs : Nat
deriving Repr

/-- Why a new session of a tenant and a workspace may not be admitted. -/
def admissionBudgetViolation (routes : List SessionRouteRecord) (tenantId workspaceId : String)
    (tenantLimit workspaceLimit : Option Nat) : Option String :=
  let tenantSessions := routes.countP fun route => route.tenantId = tenantId
  let workspaceSessions :=
    routes.countP fun route => route.tenantId = tenantId ∧ route.workspaceId = workspaceId
  match tenantLimit.filter (· ≤ tenantSessions) with
  | some limit => some ("tenant admission budget exhausted (tenant_id=" ++ tenantId ++ ", used=" ++
      toString tenantSessions ++ ", limit=" ++ toString limit ++ ")")
  | none => (workspaceLimit.filter (· ≤ workspaceSessions)).map fun limit =>
      "workspace admission budget exhausted (tenant_id=" ++ tenantId ++ ", workspace_id=" ++
        workspaceId ++ ", used=" ++ toString workspaceSessions ++ ", limit=" ++ toString limit ++ ")"

/-- The check of both budgets. -/
def enforceAdmissionBudgets (cfg : AdmissionConfig) (routes : List SessionRouteRecord)
    (tenantId workspaceId : String) : Except String Unit :=
  match admissionBudgetViolation routes tenantId workspaceId cfg.tenantSessionQuota
      cfg.workspaceSessionQuota with
  | some violation => .error (violation ++ " retry_after_ms=" ++
      toString (max cfg.admissionRetryAfterMs 1))
  | none => .ok ()

/-! ## Admissions -/

/-- What a caller asks for. -/
structure AdmissionRequest where
  sessionId : String
  tenantId : String
  workspaceId : String
deriving DecidableEq, Repr

/-- Where the admission of a session is. -/
inductive Stage
  | requested
  /-- A node was selected; its machine is being created. -/
  | admitted (endpoint : String)
  /-- The route is being stored, by a client of its own. -/
  | binding (client : Nat)
  | rejected (error : String)
  | abandoned
deriving DecidableEq, Repr

structure Admission where
  request : AdmissionRequest
  stage : Stage
deriving DecidableEq, Repr

/-- The route system and the admissions. -/
structure Admissions where
  routes : System
  admissions : List Admission

/-- No session is stored and none is asked for. -/
def Admissions.start : Admissions := ⟨.start .empty, []⟩

/-- What is done. -/
inductive AdmissionAction
  | request (request : AdmissionRequest)
  /-- `select_node_for_session_with_eligibility` lists the stored routes. Given is how the listing of
  the nodes went before, whether the routes could be listed, and which node is chosen after the
  budgets allowed it. -/
  | select (admission : Nat) (nodes : Except String Unit) (listing : Option String)
      (choice : Except String String)
  /-- The machine is created and the route is to be stored. -/
  | bind (admission : Nat) (vmId : String) (tierBEligible : Bool)
      (requiredMountProfiles : List String) (nextFence : String) (now : Nat)
  /-- The machine could not be created. -/
  | abandon (admission : Nat)
  | read (client : Nat) (error : Option String)
  | receive (client : Nat) (error : Option String)
  | execute (request : Nat)

/-- The selection, at the moment when the stored routes are listed. -/
def selectNode (cfg : AdmissionConfig) (store : Table Key Value) (request : AdmissionRequest)
    (nodes : Except String Unit) (listing : Option String) (choice : Except String String) :
    Except String String := do
  nodes
  match listing with
  | some error => .error ("etcd list session routes failed: " ++ error)
  | none =>
    enforceAdmissionBudgets cfg (sessionRouteRecords store) (normalizeScopeValue request.tenantId)
      (normalizeScopeValue request.workspaceId)
    choice

def AdmissionRequest.route (request : AdmissionRequest) (vmId endpoint : String)
    (tierBEligible : Bool) (requiredMountProfiles : List String) : SessionRoute :=
  ⟨request.sessionId, vmId, endpoint, none, none, none, request.tenantId, request.workspaceId,
    tierBEligible, requiredMountProfiles⟩

def Admissions.enter (s : Admissions) (i : Nat) (admission : Admission) (stage : Stage) :
    Admissions :=
  { s with admissions := s.admissions.set i { admission with stage := stage } }

/-- One step. -/
def execAdmission (shardOf : String → Nat) (cfg : AdmissionConfig) :
    AdmissionAction → Admissions → Option Admissions
  | .request request, s => some { s with admissions := s.admissions ++ [⟨request, .requested⟩] }
  | .select i nodes listing choice, s => s.admissions[i]?.bind fun admission =>
    match admission.stage with
    | .requested =>
      match selectNode cfg s.routes.store admission.request nodes listing choice with
      | .ok endpoint => some (s.enter i admission (.admitted endpoint))
      | .error error => some (s.enter i admission (.rejected error))
    | .admitted _ | .binding _ | .rejected _ | .abandoned => none
  | .bind i vmId tierBEligible requiredMountProfiles nextFence now, s =>
    s.admissions[i]?.bind fun admission => match admission.stage with
    | .admitted endpoint =>
      let route := admission.request.route vmId endpoint tierBEligible requiredMountProfiles
      (exec shardOf (.call (.put route none nextFence now)) s.routes).map fun routes =>
        { s.enter i admission (.binding s.routes.clients.length) with routes := routes }
    | .requested | .binding _ | .rejected _ | .abandoned => none
  | .abandon i, s => s.admissions[i]?.bind fun admission => match admission.stage with
    | .admitted _ => some (s.enter i admission .abandoned)
    | .requested | .binding _ | .rejected _ | .abandoned => none
  | .read client error, s =>
    (exec shardOf (.read client error) s.routes).map fun routes => { s with routes := routes }
  | .receive client error, s =>
    (exec shardOf (.receive client error) s.routes).map fun routes => { s with routes := routes }
  | .execute request, s =>
    (exec shardOf (.execute request) s.routes).map fun routes => { s with routes := routes }

/-! ## Counting -/

/-- The number of stored routes that satisfy a condition. -/
def storedRoutes (store : Table Key Value) (p : SessionRouteRecord → Bool) : Nat :=
  store.count fun key value => match key with
    | .session name => (decodeSessionRouteRecord name value).any p
    | .fence _ => false

/-- Every stored route is a record under the sharded name of its session. -/
def Canonical (shardOf : String → Nat) (store : Table Key Value) : Prop :=
  ∀ name value, store.get (.session name) = some value →
    ∃ record, value = .record record ∧ name = shardedName shardOf record.sessionId

variable {shardOf so : String → Nat} {store sto : Table Key Value} {p : SessionRouteRecord → Bool}

/-- A blank text is white space throughout. -/
theorem isWhiteSpace_of_trim {text : String} (h : trim text = "") :
    ∀ c ∈ text.toList, isWhiteSpace c = true := by
  have hd : text.toList.dropWhile isWhiteSpace = [] := by
    have hl : ((text.toList.dropWhile isWhiteSpace).reverse.dropWhile isWhiteSpace).reverse =
        [] := by
      have := congrArg String.toList h
      simpa [trim] using this
    rw [reverse_eq_nil_iff, dropWhile_eq_nil_iff] at hl
    -- What is left starts with a character that is no white space.
    by_contra hne
    have hh := head_dropWhile_not isWhiteSpace hne
    have := hl _ (List.mem_reverse.2 (head_mem hne))
    rw [this] at hh
    cases hh
  exact List.dropWhile_eq_nil_iff.1 hd

theorem lastComponent_shardedName {si : String} (h : '/' ∉ si.toList) :
    lastComponent (shardedName so si) = si := by
  have hall : ∀ c ∈ si.toList.reverse, decide (c ≠ '/') = true := by
    intro c hc
    refine decide_eq_true ?_
    rintro rfl
    exact h (List.mem_reverse.1 hc)
  simp only [lastComponent, shardedName, String.toList_append, reverse_append]
  rw [takeWhile_append_of_pos hall]
  simp

/-- A canonical record is listed under its session. -/
theorem sessionId_decode {r f : SessionRouteRecord}
    (h : decodeSessionRouteRecord (shardedName so r.sessionId) (.record r) =
      some f) : f.sessionId = r.sessionId := by
  simp only [decodeSessionRouteRecord, Option.some.injEq] at h
  subst h
  dsimp only
  split
  · next hb =>
    refine lastComponent_shardedName fun hs => ?_
    have := isWhiteSpace_of_trim hb '/' hs
    revert this
    decide
  · rfl

/-- Records of different sessions are all kept. -/
theorem count_foldl_insertRecord {re : List SessionRouteRecord}
    (hn : (re.map (·.sessionId)).Nodup) {kept : Table String SessionRouteRecord}
    (hnew : ∀ r ∈ re, kept.get r.sessionId = none) :
    (re.foldl insertRecord kept).count (fun _ r => p r) =
      kept.count (fun _ r => p r) + re.countP p := by
  induction re generalizing kept with
  | nil => simp
  | cons r re ih =>
    rw [map_cons, nodup_cons] at hn
    have hno := hnew r mem_cons_self
    have hi : insertRecord kept r = kept.set r.sessionId r := by
      simp [insertRecord, hno]
    have hr : ∀ o ∈ re, (kept.set r.sessionId r).get o.sessionId = none := by
      intro o ho
      have hne : o.sessionId ≠ r.sessionId := fun h =>
        hn.1 (h ▸ mem_map_of_mem ho)
      rw [Table.get_set_of_ne hne]
      exact hnew o (mem_cons_of_mem _ ho)
    rw [foldl_cons, hi, ih hn.2 hr, Table.count_set_of_get_eq_none hno, countP_cons]
    cases p r <;> simp
    omega

theorem mem_sessionRows {row : String × Value} :
    row ∈ sessionRows sto ↔ sto.get (.session row.1) = some row.2 := by
  rw [sessionRows, mem_insertionSort, mem_filterMap, ← Table.mem_rows_iff]
  constructor
  · rintro ⟨⟨key, _⟩, hr, hn⟩
    cases key with
    | session => cases hn; exact hr
    | fence => cases hn
  · exact fun h => ⟨_, h, rfl⟩

theorem nodup_sessionRows (sto : Table Key Value) : ((sessionRows sto).map Prod.fst).Nodup := by
  have hp := (perm_insertionSort (fun row o : String × Value => row.1 ≤ o.1)
    (sto.rows.filterMap fun row => match row.1 with
      | .session name => some (name, row.2)
      | .fence _ => none)).map Prod.fst
  refine hp.nodup_iff.2 ?_
  rw [map_filterMap]
  have hk : (sto.rows.map Prod.fst).filterMap (fun key => match key with
      | Key.session name => some name
      | .fence _ => none) = sto.rows.filterMap fun row =>
        (match row.1 with
          | .session name => some (name, row.2)
          | .fence _ => none : Option (String × Value)).map Prod.fst := by
    rw [filterMap_map]
    refine filterMap_congr fun row _ => ?_
    cases hke : row.1 <;> simp [hke]
  rw [← hk]
  refine sto.unique.filterMap fun key key' name hn hn' => ?_
  cases key <;> cases key' <;> simp_all

/-- The stored routes, decoded one by one. -/
def decodedRows (store : Table Key Value) : List SessionRouteRecord :=
  (sessionRows store).filterMap fun row => decodeSessionRouteRecord row.1 row.2

theorem countP_decodedRows : (decodedRows sto).countP p = storedRoutes sto p := by
  have hp := (perm_insertionSort (fun row o : String × Value => row.1 ≤ o.1)
    (sto.rows.filterMap fun row => match row.1 with
      | .session name => some (name, row.2)
      | .fence _ => none)).countP_eq
        (fun row => ((decodeSessionRouteRecord row.1 row.2).map p).getD false)
  rw [decodedRows, countP_filterMap, sessionRows, hp, countP_filterMap, storedRoutes,
    Table.count_eq_countP]
  refine countP_congr fun row _ => ?_
  cases row.1 with
  | session name => cases h : decodeSessionRouteRecord name row.2 <;> simp [h]
  | fence => simp

/-- Canonical routes are all counted. -/
theorem countP_sessionRouteRecords (hc : Canonical so sto) :
    (sessionRouteRecords sto).countP p = storedRoutes sto p := by
  have hd : ∀ row ∈ sessionRows sto, ∃ r,
      decodeSessionRouteRecord row.1 row.2 = some r ∧ shardedName so r.sessionId = row.1 := by
    intro row hro
    obtain ⟨r, hv, hn⟩ := hc row.1 row.2 (mem_sessionRows.1 hro)
    refine ⟨_, by rw [hv]; rfl, ?_⟩
    have hid : ∀ f, decodeSessionRouteRecord row.1 (.record r) = some f →
        f.sessionId = r.sessionId := fun f h => sessionId_decode (hn ▸ h)
    rw [hid _ rfl, ← hn]
  -- The names are those of the sessions, so that no two records share a session.
  have hna : (decodedRows sto).map (fun r => shardedName so r.sessionId) =
      (sessionRows sto).map Prod.fst := by
    rw [decodedRows, map_filterMap, ← filterMap_eq_map]
    refine filterMap_congr fun row hro => ?_
    obtain ⟨r, hr, hn⟩ := hd row hro
    rw [hr, Option.map_some, hn]
    rfl
  have hno : ((decodedRows sto).map (·.sessionId)).Nodup := by
    refine List.Nodup.of_map (shardedName so) ?_
    rw [map_map]
    exact hna ▸ nodup_sessionRows sto
  have hco : ((decodedRows sto).foldl insertRecord .empty).count (fun _ r => p r) =
      (Table.empty : Table String SessionRouteRecord).count (fun _ r => p r) +
        (decodedRows sto).countP p :=
    count_foldl_insertRecord hno fun _ _ => Table.get_empty
  rw [Table.count_eq_countP, countP_decodedRows] at hco
  rw [sessionRouteRecords, countP_map]
  exact hco.trans (Nat.zero_add _)

/-! ## What a transaction adds -/

section

variable {call : RouteCall} {ck : Key}

/-- A session key after a transaction is that of the call, or was there before. -/
theorem get_apply_session {name : String} {v : Value}
    (h : ((call.txn so ck).apply sto).get (.session name) = some v) :
    (∃ r, call.record = some r ∧ name = shardedName so call.sessionId ∧
      v = .record r) ∨ sto.get (.session name) = some v := by
  cases call with
  | put _ _ next =>
    simp only [RouteCall.txn, KeyValue.Txn.apply, RouteCall.operations, KeyValue.Op.apply,
      foldl_cons, foldl_nil, Table.get_delete, Option.filter_eq_some_iff, Table.get_set,
      sessionKey, sessionFenceKey] at h
    obtain ⟨⟨h, -⟩, -⟩ := h
    rw [if_neg (by simp)] at h
    split at h
    · next hn =>
      cases hn
      cases h
      exact .inl ⟨_, rfl, rfl, rfl⟩
    · exact .inr h
  | delete =>
    simp only [RouteCall.txn, KeyValue.Txn.apply, RouteCall.operations, KeyValue.Op.apply,
      foldl_cons, foldl_nil, Table.get_delete, Option.filter_eq_some_iff] at h
    exact .inr h.1.1.1.1

/-- A transaction stores one route at most. -/
theorem storedRoutes_apply_le :
    storedRoutes ((call.txn so ck).apply sto) p ≤ storedRoutes sto p +
      ((call.record.bind fun r => decodeSessionRouteRecord
        (shardedName so call.sessionId) (.record r)).any p).toNat := by
  cases call with
  | put =>
    simp only [RouteCall.txn, KeyValue.Txn.apply, RouteCall.operations, KeyValue.Op.apply,
      foldl_cons, foldl_nil, storedRoutes]
    refine Table.count_delete_le.trans (Table.count_delete_le.trans (Table.count_set_le.trans ?_))
    exact Nat.add_le_add_right Table.count_set_le 0
  | delete =>
    simp only [RouteCall.txn, KeyValue.Txn.apply, RouteCall.operations, KeyValue.Op.apply,
      foldl_cons, foldl_nil, storedRoutes]
    refine Nat.le_trans ?_ (Nat.le_add_right _ _)
    exact Table.count_delete_le.trans (Table.count_delete_le.trans
      (Table.count_delete_le.trans Table.count_delete_le))

end

/-! ## Pending admissions -/

/-- The transaction of a client may still take effect. -/
def System.MayStore (s : System) (c : Nat) : Prop :=
  match s.clients[c]? with
  | none => False
  | some client =>
    match client.sent with
    | none => client.phase = .reading ∨ client.phase = .readingLegacy
    | some k => k ∉ s.remote.executed.map Prod.fst

instance (s : System) (c : Nat) : Decidable (s.MayStore c) := by
  unfold System.MayStore
  split
  · exact inferInstance
  · split <;> exact inferInstance

/-- An admission has listed the stored routes and may still store its own. -/
def Admission.Pending (s : System) (admission : Admission) : Prop :=
  match admission.stage with
  | .admitted _ => True
  | .binding client => s.MayStore client
  | .requested | .rejected _ | .abandoned => False

instance (s : System) (admission : Admission) : Decidable (admission.Pending s) := by
  unfold Admission.Pending
  split <;> exact inferInstance

/-- When an admission lists the stored routes, no admission of its tenant may still store its
own. -/
def Alone : AdmissionAction → Admissions → Prop
  | .select i _ _ _, s => ∀ admission ∈ s.admissions[i]?, ∀ other ∈ s.admissions,
    normalizeScopeValue other.request.tenantId = normalizeScopeValue admission.request.tenantId →
      ¬other.Pending s.routes
  | .request _, _ | .bind _ _ _ _ _ _, _ | .abandon _, _ | .read _ _, _ | .receive _ _, _
  | .execute _, _ => True

instance (action : AdmissionAction) (s : Admissions) : Decidable (Alone action s) :=
  match action with
  | .select i _ _ _ => inferInstanceAs (Decidable (∀ admission ∈ s.admissions[i]?, _))
  | .request _ | .bind _ _ _ _ _ _ | .abandon _ | .read _ _ | .receive _ _ | .execute _ =>
    inferInstanceAs (Decidable True)

/-- A tenant, or a workspace of a tenant. -/
structure Scope where
  tenantId : String
  workspaceId : Option String

def Scope.holds (scope : Scope) (record : SessionRouteRecord) : Bool :=
  match scope.workspaceId with
  | none => record.tenantId = scope.tenantId
  | some workspaceId => record.tenantId = scope.tenantId ∧ record.workspaceId = workspaceId

def AdmissionConfig.quota (cfg : AdmissionConfig) (scope : Scope) : Option Nat :=
  match scope.workspaceId with
  | none => cfg.tenantSessionQuota
  | some _ => cfg.workspaceSessionQuota

/-- The session would count for the scope. -/
def Scope.Covers (scope : Scope) (request : AdmissionRequest) : Prop :=
  normalizeScopeValue request.tenantId = scope.tenantId ∧
    ∀ workspaceId, scope.workspaceId = some workspaceId →
      normalizeScopeValue request.workspaceId = workspaceId

/-- A new session is within the limits that are not violated. -/
theorem lt_of_admissionBudgetViolation {r : List SessionRouteRecord}
    {ti wi : String} {tl wl : Option Nat}
    (h : admissionBudgetViolation r ti wi tl wl = none) :
    (∀ limit, tl = some limit → r.countP (fun ro => ro.tenantId = ti) < limit) ∧
    ∀ limit, wl = some limit →
      r.countP (fun ro => ro.tenantId = ti ∧ ro.workspaceId = wi) < limit := by
  rw [admissionBudgetViolation] at h
  split at h
  · cases h
  next ht =>
  have hw := Option.map_eq_none_iff.1 h
  constructor
  · rintro limit rfl
    simpa using ht
  · rintro limit rfl
    simpa using hw

/-- An admission that passes the check leaves room for its session. -/
theorem lt_of_enforceAdmissionBudgets {cfg : AdmissionConfig} {r : AdmissionRequest}
    (hca : Canonical so sto)
    (h : enforceAdmissionBudgets cfg (sessionRouteRecords sto)
      (normalizeScopeValue r.tenantId) (normalizeScopeValue r.workspaceId) = .ok ())
    {sc : Scope} {l : Nat} (hl : cfg.quota sc = some l)
    (hc : sc.Covers r) : storedRoutes sto sc.holds < l := by
  rw [enforceAdmissionBudgets] at h
  split at h
  · cases h
  next hn =>
  obtain ⟨ht, hw⟩ := lt_of_admissionBudgetViolation hn
  obtain ⟨_, wi⟩ := sc
  obtain ⟨rfl, hc⟩ := hc
  rw [← countP_sessionRouteRecords hca]
  cases wi with
  | none => exact ht l hl
  | some wi =>
    obtain rfl := hc wi rfl
    exact hw l hl

/-! ## What is known along a run -/

/-- The stored routes are within the quotas, and there is room for the one admission of each tenant
that may still store its route. -/
structure Within (shardOf : String → Nat) (cfg : AdmissionConfig) (s : Admissions) : Prop where
  tracked : Tracked s.routes
  canonical : Canonical shardOf s.routes.store
  owned : ∀ (c : Nat) client, s.routes.clients[c]? = some client →
    ∃ (i : Nat) (admission : Admission), s.admissions[i]? = some admission ∧
      admission.stage = .binding c ∧
      ∃ route next now, client.call = .put route none next now ∧
        route.tenantId = admission.request.tenantId ∧
        route.workspaceId = admission.request.workspaceId
  bound : ∀ admission ∈ s.admissions, ∀ c, admission.stage = .binding c →
    c < s.routes.clients.length
  alone : ∀ (i j : Nat) admission other, s.admissions[i]? = some admission →
    s.admissions[j]? = some other → admission.Pending s.routes → other.Pending s.routes →
    normalizeScopeValue admission.request.tenantId = normalizeScopeValue other.request.tenantId →
      i = j
  quota : ∀ scope limit, cfg.quota scope = some limit →
    storedRoutes s.routes.store scope.holds ≤ limit ∧
      ∀ admission ∈ s.admissions, admission.Pending s.routes → scope.Covers admission.request →
        storedRoutes s.routes.store scope.holds < limit

namespace Within

variable {cfg : AdmissionConfig} {s : Admissions} {i : Nat} {ad : Admission}

theorem start : Within so cfg .start where
  tracked := .begins .empty
  canonical _ _ h := by simp [Admissions.start, System.start] at h
  owned _ _ h := by simp [Admissions.start, System.start] at h
  bound _ h := absurd h not_mem_nil
  alone _ _ _ _ h := by simp [Admissions.start] at h
  quota _ limit _ := ⟨Nat.zero_le limit, fun _ h => absurd h not_mem_nil⟩

theorem request (hs : Within so cfg s) (request : AdmissionRequest) :
    Within so cfg { s with admissions := s.admissions ++ [⟨request, .requested⟩] } := by
  -- The new admission is not pending.
  have hold : ∀ (j : Nat) o, (s.admissions ++ [⟨request, .requested⟩])[j]? = some o →
      o.Pending s.routes → s.admissions[j]? = some o := by
    intro j o hj hp
    rcases getElem?_concat_cases hj with hj | ⟨-, rfl⟩
    · exact hj
    · exact hp.elim
  refine ⟨hs.tracked, hs.canonical, fun c cl hcl => ?_, fun o ho c hc => ?_,
    fun j k a b ha hb hpa hpb => hs.alone j k a b (hold j a ha hpa) (hold k b hb hpb) hpa hpb,
    fun sc l hl => ⟨(hs.quota sc l hl).1, fun o ho hp => ?_⟩⟩
  · obtain ⟨j, f, hf, hr⟩ := hs.owned c cl hcl
    exact ⟨j, f, getElem?_append_of_some hf, hr⟩
  · rcases List.mem_append.1 ho with ho | ho
    · exact hs.bound o ho c hc
    · rw [List.mem_singleton.1 ho] at hc
      cases hc
  · obtain ⟨j, hj⟩ := getElem?_of_mem ho
    exact (hs.quota sc l hl).2 o (mem_of_getElem? (hold j o hj hp)) hp

/-- An admission goes to a stage. It is pending there only if it was before, or if no admission of
its tenant was and the quotas leave room for it. -/
theorem enter (hs : Within so cfg s) (hi : s.admissions[i]? = some ad) {st : Stage}
    (hbo : ∀ c, ad.stage ≠ .binding c) (hst : ∀ c, st ≠ .binding c)
    (hpe : Admission.Pending s.routes ⟨ad.request, st⟩ →
      (∀ o ∈ s.admissions, normalizeScopeValue o.request.tenantId =
        normalizeScopeValue ad.request.tenantId → ¬o.Pending s.routes) ∧
      ∀ sc l, cfg.quota sc = some l → sc.Covers ad.request →
        storedRoutes s.routes.store sc.holds < l) :
    Within so cfg (s.enter i ad st) := by
  refine ⟨hs.tracked, hs.canonical, fun c cl hcl => ?_, fun o ho c hc => ?_,
    fun j k a b ha hb hpa hpb ht => ?_,
    fun sc l hl => ⟨(hs.quota sc l hl).1, fun o ho hp hco => ?_⟩⟩
  · obtain ⟨j, f, hf, hs', hr⟩ := hs.owned c cl hcl
    have hij : i ≠ j := by
      rintro rfl
      cases hi.symm.trans hf
      exact hbo c hs'
    exact ⟨j, f, (getElem?_set_ne hij).trans hf, hs', hr⟩
  · rcases mem_or_eq_of_mem_set ho with ho | rfl
    · exact hs.bound o ho c hc
    · exact absurd hc (hst c)
  · rcases getElem?_set_cases ha with ⟨rfl, rfl⟩ | ⟨-, ha'⟩ <;>
      rcases getElem?_set_cases hb with ⟨rfl, rfl⟩ | ⟨-, hb'⟩
    · rfl
    · exact absurd hpb ((hpe hpa).1 b (mem_of_getElem? hb') ht.symm)
    · exact absurd hpa ((hpe hpb).1 a (mem_of_getElem? ha') ht)
    · exact hs.alone j k a b ha' hb' hpa hpb ht
  · rcases mem_or_eq_of_mem_set ho with ho | rfl
    · exact (hs.quota sc l hl).2 o ho hp hco
    · exact (hpe hp).2 sc l hl hco

/-- The machine was created and the route is to be stored. -/
theorem bind (hs : Within so cfg s) (hi : s.admissions[i]? = some ad)
    {e : String} (hst : ad.stage = .admitted e) {r : SessionRoute}
    (hte : r.tenantId = ad.request.tenantId)
    (hw : r.workspaceId = ad.request.workspaceId) (next : String) (now : Nat) :
    Within so cfg { s.enter i ad (.binding s.routes.clients.length) with
      routes := s.routes.begin (.put r none next now) } := by
  -- The other clients are as they were.
  have hm : ∀ c < s.routes.clients.length,
      (s.routes.begin (.put r none next now)).MayStore c → s.routes.MayStore c := by
    intro c hc h
    rwa [System.MayStore, System.begin, getElem?_append_left hc] at h
  have hpe : ∀ o ∈ s.admissions,
      o.Pending (s.routes.begin (.put r none next now)) → o.Pending s.routes := by
    intro o ho h
    unfold Admission.Pending at h ⊢
    cases hs' : o.stage with
    | binding c =>
      rw [hs'] at h
      exact hm c (hs.bound o ho c hs') h
    | _ =>
      rw [hs'] at h
      exact h
  have hse : ad.Pending s.routes := by
    rw [Admission.Pending, hst]
    trivial
  -- An admission that is pending now was pending before, under its stage of before.
  have hg : ∀ (j : Nat) o,
      (s.admissions.set i ⟨ad.request, .binding s.routes.clients.length⟩)[j]? = some o →
      o.Pending (s.routes.begin (.put r none next now)) →
      ∃ old, s.admissions[j]? = some old ∧ old.Pending s.routes ∧ old.request = o.request := by
    intro j o hj hp
    rcases getElem?_set_cases hj with ⟨rfl, rfl⟩ | ⟨-, hj⟩
    · exact ⟨ad, hi, hse, rfl⟩
    · exact ⟨o, hj, hpe o (mem_of_getElem? hj) hp, rfl⟩
  refine ⟨hs.tracked.begin _, hs.canonical, fun c cl hcl => ?_, fun o ho c hc => ?_,
    fun j k a b ha hb hpa hpb ht => ?_,
    fun sc l hl => ⟨(hs.quota sc l hl).1, fun o ho hp hco => ?_⟩⟩
  · rcases getElem?_concat_cases hcl with hcl | ⟨rfl, rfl⟩
    · obtain ⟨j, f, hf, hbi, hre⟩ := hs.owned c cl hcl
      have hij : i ≠ j := by
        rintro rfl
        cases hi.symm.trans hf
        cases hst.symm.trans hbi
      exact ⟨j, f, (getElem?_set_ne hij).trans hf, hbi, hre⟩
    · exact ⟨i, _, getElem?_set_of_some hi, rfl, r, next, now, rfl, hte, hw⟩
  · rw [System.begin, length_append, length_singleton]
    rcases mem_or_eq_of_mem_set ho with ho | rfl
    · exact Nat.lt_succ_of_lt (hs.bound o ho c hc)
    · cases hc
      exact Nat.lt_succ_self _
  · obtain ⟨a', ha', hp', hra⟩ := hg j a ha hpa
    obtain ⟨b', hb', hpb', hrb⟩ := hg k b hb hpb
    exact hs.alone j k a' b' ha' hb' hp' hpb' (by rw [hra, hrb, ht])
  · obtain ⟨j, hj⟩ := getElem?_of_mem ho
    obtain ⟨old, hold, hpo, hr⟩ := hg j o hj hp
    exact (hs.quota sc l hl).2 old (mem_of_getElem? hold) hpo (hr ▸ hco)

end Within

/-- A client that may store its route after a step might have done so before. -/
theorem mayStore_of_transition {s t : System} {a : Action} {c : Nat} (hs : Tracked s)
    (h : Transition so s a t) (hq : ∀ call, a ≠ .call call)
    (hm : t.MayStore c) : s.MayStore c := by
  have ha : ∀ (u : System) (k : Nat) (b : Bool), u.clients = s.clients →
      u.remote = s.remote.answer k b → u.MayStore c → s.MayStore c := by
    intro u k b hcl hr hm
    rw [System.MayStore, hcl, hr] at hm
    rw [System.MayStore]
    split
    · next hn =>
      rw [hn] at hm
      exact hm
    · next cl hc =>
      rw [hc] at hm
      dsimp only at hm
      split
      · next hn =>
        rw [hn] at hm
        exact hm
      · next k' hse =>
        rw [hse] at hm
        exact fun hmem => hm (mem_cons_of_mem _ hmem)
  cases h with
  | call => exact absurd rfl (hq _)
  | @enter _ i _ _ hc hp =>
    by_cases hic : i = c
    · subst hic
      rw [System.MayStore, System.enter, getElem?_set_of_some hc] at hm
      rw [System.MayStore, hc]
      dsimp only at hm ⊢
      split
      · next hse =>
        rw [hse] at hm
        rcases hm with rfl | rfl
        · exact hp.elim
        · exact .inl hp.1
      · next k hse =>
        rw [hse] at hm
        exact hm
    · rwa [System.MayStore, System.enter, getElem?_set_ne hic] at hm
  | @send _ i _ _ hc hf =>
    by_cases hic : i = c
    · subst hic
      simp only [System.MayStore, hc, hs.sent_of_found hc hf]
      cases hf with
      | sharded hp => exact .inl hp
      | legacy hp | none hp => exact .inr hp
    · rwa [System.MayStore, System.sendFrom, getElem?_set_ne hic] at hm
  | @refuse k => exact ha (s.refuse k) k false rfl rfl hm
  | @commit k sent => exact ha (s.commit so k sent) k true rfl rfl hm

namespace Within

variable {cfg : AdmissionConfig} {s : Admissions}

/-- What is stored counts for the scopes that cover the request. -/
theorem covers_of_holds {ro : SessionRoute} {r : AdmissionRequest} {next name : String}
    {now : Nat} (ht : ro.tenantId = r.tenantId)
    (hw : ro.workspaceId = r.workspaceId) {sc : Scope}
    (h : (decodeSessionRouteRecord name (.record (ro.record next now))).any sc.holds = true) :
    sc.Covers r := by
  obtain ⟨_, wi⟩ := sc
  simp only [decodeSessionRouteRecord, Option.any_some, SessionRoute.record, Scope.holds] at h
  cases wi with
  | none => exact ⟨ht ▸ of_decide_eq_true h, nofun⟩
  | some =>
    obtain ⟨h, h'⟩ := of_decide_eq_true h
    refine ⟨ht ▸ h, ?_⟩
    rintro _ ⟨⟩
    exact hw ▸ h'

/-- The clients go on. -/
theorem route (hs : Within so cfg s) {ac : Action} {routes : System}
    (h : Transition so s.routes ac routes) (hq : ∀ call, ac ≠ .call call) :
    Within so cfg { s with routes := routes } := by
  have hpe : ∀ ad : Admission, ad.Pending routes → ad.Pending s.routes := by
    intro ad hp
    unfold Admission.Pending at hp ⊢
    split <;> simp_all
    exact mayStore_of_transition hs.tracked h hq hp
  have hal : ∀ (i j : Nat) (ad ot : Admission), s.admissions[i]? = some ad →
      s.admissions[j]? = some ot → ad.Pending routes → ot.Pending routes →
      normalizeScopeValue ad.request.tenantId = normalizeScopeValue ot.request.tenantId → i = j :=
    fun i j a b ha hb hpa hpb => hs.alone i j a b ha hb (hpe a hpa) (hpe b hpb)
  have how : ∀ (c : Nat) cl, routes.clients[c]? = some cl →
      ∃ (i : Nat) (ad : Admission), s.admissions[i]? = some ad ∧
        ad.stage = .binding c ∧
        ∃ route next now, cl.call = .put route none next now ∧
          route.tenantId = ad.request.tenantId ∧
          route.workspaceId = ad.request.workspaceId := by
    intro c cl hc
    obtain ⟨old, hold, hca⟩ := call_of_transition h hq hc
    rw [← hca]
    exact hs.owned c old hold
  have hbo : ∀ ad ∈ s.admissions, ∀ c, ad.stage = .binding c →
      c < routes.clients.length := by
    rw [length_of_transition h hq]
    exact hs.bound
  have ht := hs.tracked.step h
  -- Only a transaction that goes through changes the store.
  have hsa : routes.store = s.routes.store → Within so cfg { s with routes := routes } := by
    intro hsto
    refine ⟨ht, hsto ▸ hs.canonical, how, hbo, hal, fun sc l hl => ?_⟩
    obtain ⟨hle, hlt⟩ := hs.quota sc l hl
    dsimp only
    rw [hsto]
    exact ⟨hle, fun ad had hp => hlt ad had (hpe ad hp)⟩
  cases h with
  | call => exact absurd rfl (hq _)
  | enter => exact hsa rfl
  | send => exact hsa rfl
  | refuse => exact hsa rfl
  | @commit k sent hre =>
    obtain ⟨hne, hse⟩ := Remote.pending_eq_some.1 hre
    obtain ⟨cl, hc, hn, hca⟩ := hs.tracked.sent k sent hse
    obtain ⟨i, o, ho, hst, route, next, now, hpu, hte, hw⟩ :=
      hs.owned sent.client cl hc
    have hm : o.Pending s.routes := by
      simp only [Admission.Pending, hst, System.MayStore, hc, hn]
      exact hne
    -- The owner has stored its route.
    have hd : ¬o.Pending (s.routes.commit so k sent) := by
      simp only [Admission.Pending, hst, System.MayStore, System.commit, hc, hn]
      simp [Remote.answer]
    rw [hpu] at hca
    refine ⟨ht, fun name v hg => ?_, how, hbo, hal, fun sc l hl => ?_⟩
    · rcases get_apply_session hg with ⟨_, hr, hna, hv⟩ | hg
      · rw [← hca] at hr hna
        cases hr
        exact ⟨_, hv, hna⟩
      · exact hs.canonical name v hg
    · obtain ⟨hle, hlt⟩ := hs.quota sc l hl
      have hadd : storedRoutes (s.routes.commit so k sent).store sc.holds ≤ _ :=
        storedRoutes_apply_le
      rw [← hca] at hadd
      by_cases hh : (decodeSessionRouteRecord (shardedName so route.sessionId)
          (.record (route.record next now))).any sc.holds = true
      · have hco := covers_of_holds hte hw hh
        have hro := hlt o (mem_of_getElem? ho) hm hco
        have hon : storedRoutes (s.routes.commit so k sent).store sc.holds ≤
            storedRoutes s.routes.store sc.holds + 1 :=
          hadd.trans (Nat.add_le_add_left (Bool.toNat_le _) _)
        refine ⟨by dsimp only; omega, fun ad had hp hc' => ?_⟩
        obtain ⟨j, hj⟩ := getElem?_of_mem had
        obtain rfl : j = i := hs.alone j i ad o hj ho (hpe ad hp) hm (hc'.1.trans hco.1.symm)
        cases hj.symm.trans ho
        exact absurd hp hd
      · have hz : storedRoutes (s.routes.commit so k sent).store sc.holds ≤
            storedRoutes s.routes.store sc.holds := by
          simpa [RouteCall.record, RouteCall.sessionId, hh] using hadd
        exact ⟨hz.trans hle, fun ad had hp hc' =>
          Nat.lt_of_le_of_lt hz (hlt ad had (hpe ad hp) hc')⟩

theorem select (hs : Within so cfg s) {i : Nat} {ad : Admission}
    (hi : s.admissions[i]? = some ad) (hst : ad.stage = .requested)
    (ha : ∀ o ∈ s.admissions, normalizeScopeValue o.request.tenantId =
      normalizeScopeValue ad.request.tenantId → ¬o.Pending s.routes)
    {n : Except String Unit} {li : Option String} {c : Except String String}
    {e : String}
    (h : selectNode cfg s.routes.store ad.request n li c = .ok e) :
    Within so cfg (s.enter i ad (.admitted e)) := by
  refine hs.enter hi (by simp [hst]) nofun fun _ => ⟨ha, fun sc l hl => ?_⟩
  cases n with
  | error => cases h
  | ok =>
    cases li with
    | some => cases h
    | none =>
      cases he : enforceAdmissionBudgets cfg (sessionRouteRecords s.routes.store)
          (normalizeScopeValue ad.request.tenantId)
          (normalizeScopeValue ad.request.workspaceId) with
      | error =>
        simp only [selectNode, he] at h
        cases h
      | ok => exact lt_of_enforceAdmissionBudgets hs.canonical he hl

/-- Every step that lists the routes alone keeps them within the quotas. -/
theorem step (hs : Within so cfg s) {a : AdmissionAction} {t : Admissions}
    (ha : Alone a s) (h : execAdmission so cfg a s = some t) :
    Within so cfg t := by
  cases a with
  | request request =>
    cases h
    exact hs.request request
  | select =>
    obtain ⟨ad, hi, h⟩ := Option.bind_eq_some_iff.1 h
    cases hst : ad.stage <;> simp only [hst, reduceCtorEq] at h
    split at h <;> cases h
    · next e hse => exact hs.select hi hst (ha ad hi) hse
    · exact hs.enter hi (by simp [hst]) nofun nofun
  | bind _ _ _ _ nf now =>
    obtain ⟨ad, hi, h⟩ := Option.bind_eq_some_iff.1 h
    cases hst : ad.stage <;> simp only [hst, reduceCtorEq] at h
    obtain ⟨r, hr, rfl⟩ := Option.map_eq_some_iff.1 h
    cases transition_of_exec hr with
    | call => exact hs.bind hi hst rfl rfl nf now
    | enter _ _ hq | send _ _ hq => exact absurd rfl (hq _)
  | abandon =>
    obtain ⟨ad, hi, h⟩ := Option.bind_eq_some_iff.1 h
    cases hst : ad.stage <;> simp only [hst, reduceCtorEq] at h
    cases h
    exact hs.enter hi (by simp [hst]) nofun nofun
  | read | receive | execute =>
    obtain ⟨r, hr, rfl⟩ := Option.map_eq_some_iff.1 h
    exact hs.route (transition_of_exec hr) nofun

theorem run {a : List AdmissionAction}
    (h : run (guarded Alone (execAdmission so cfg)) a .start = some s) :
    Within so cfg s :=
  guarded_invariant (P := Within so cfg) (fun _ _ _ hs ha he => hs.step ha he) h start

end Within

/-! ## Quotas -/

/-- **Quotas hold for admissions that list alone.** In every run from an empty store in which no
admission of the tenant may still store its route when another one lists the stored routes, the stored
routes of every tenant are within the tenant quota and those of every workspace within the workspace
quota. -/
theorem quotas_hold (shardOf : String → Nat) (cfg : AdmissionConfig)
    (actions : List AdmissionAction) (s : Admissions)
    (hrun : run (guarded Alone (execAdmission shardOf cfg)) actions .start = some s) :
    (∀ tenantId limit, cfg.tenantSessionQuota = some limit →
      storedRoutes s.routes.store (fun route => route.tenantId = tenantId) ≤ limit) ∧
    ∀ tenantId workspaceId limit, cfg.workspaceSessionQuota = some limit →
      storedRoutes s.routes.store
        (fun route => route.tenantId = tenantId ∧ route.workspaceId = workspaceId) ≤ limit := by
  have hs := Within.run hrun
  exact ⟨fun tenantId limit hl => (hs.quota ⟨tenantId, none⟩ limit hl).1,
    fun tenantId workspaceId limit hl =>
      (hs.quota ⟨tenantId, some workspaceId⟩ limit hl).1⟩

/-- One session for each tenant. -/
def oneEach : AdmissionConfig := ⟨some 1, none, 2000⟩

/-- Two sessions of one tenant are asked for. -/
def twoRequests : List AdmissionAction :=
  [.request ⟨"s-1", "acme", "w-1"⟩, .request ⟨"s-2", " acme ", "w-2"⟩]

/-- A session is admitted. -/
def selects (i : Nat) : AdmissionAction := .select i (.ok ()) none (.ok "http://node-1")

/-- The route of an admitted session is stored. -/
def stores (i : Nat) (fence : String) : List AdmissionAction :=
  [.bind i "vm" false [] fence 7, .read i none, .read i none, .execute i, .receive i none]

/-- The second session lists the routes when the first is stored, and is rejected: one route is
stored. -/
theorem quotas_hold_oneEach :
    ∃ s, run (guarded Alone (execAdmission (fun _ => 3) oneEach))
        (twoRequests ++ [selects 0] ++ stores 0 "f-1" ++ [selects 1]) .start = some s ∧
      s.routes.store.get (sessionKey (fun _ => 3) "s-1") ≠ none ∧
      storedRoutes s.routes.store (fun route => route.tenantId = "acme") ≤ 1 := by
  exact exists_of_run_and (by decide +kernel) fun s hrun _ =>
    (quotas_hold (fun _ => 3) oneEach _ s hrun).1 "acme" 1 rfl

/-- Both sessions list the routes before either is stored, and two routes of the tenant are
stored. -/
theorem quota_exceeded :
    ∃ s, run (execAdmission (fun _ => 3) oneEach)
        (twoRequests ++ [selects 0, selects 1] ++ stores 0 "f-1" ++ stores 1 "f-2") .start = some s ∧
      storedRoutes s.routes.store (fun route => route.tenantId = "acme") = 2 := by
  exact exists_of_run (by decide +kernel)

end Chevalier.Distributed
