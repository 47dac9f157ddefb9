import U7s.Handlers.App

/-! `DELETE`, `PUT` and `PATCH` of one built-in object. What a request computes from the object it has read is a
parameter. -/

namespace U7s.Handlers

open Store Programs Fallible
open Rbac (RBAC_GROUP)
open Text (startsWith)

variable {β : Type} (codec : JsonCodec β)

structure Target where
  group : String
  version : String
  plural : String
  ns : Option String
  name : String
  kind : String

def Target.key (t : Target) : String := groupObjectKey t.group t.plural t.ns t.name

def rbacClusterKey (group version plural name : String) : String :=
  "/apis/" ++ group ++ "/" ++ version ++ "/" ++ plural ++ "/" ++ name

def rbacNamespacedKey (group version ns plural name : String) : String :=
  "/apis/" ++ group ++ "/" ++ version ++ "/namespaces/" ++ ns ++ "/" ++ plural ++ "/" ++ name

def Target.rbacKey (t : Target) : String :=
  match t.ns with
  | none => rbacClusterKey t.group t.version t.plural t.name
  | some ns => rbacNamespacedKey t.group t.version ns t.plural t.name

def isSeededRbacObject (group name : String) : Bool :=
  group = RBAC_GROUP && (startsWith name "system:" || name = "cluster-admin")

def allowsCreateOnUpdate (group plural : String) : Bool :=
  (group, plural) ∈ [("", "services"), ("", "endpoints"), ("", "events"), ("", "limitranges"),
    ("events.k8s.io", "events"), (RBAC_GROUP, "roles"), (RBAC_GROUP, "rolebindings"),
    (RBAC_GROUP, "clusterroles"), (RBAC_GROUP, "clusterrolebindings"), ("coordination.k8s.io", "leases"),
    ("coordination.k8s.io", "leasecandidates"), ("node.k8s.io", "runtimeclasses")]

def allowsUnconditionalUpdate (group plural : String) : Bool :=
  (group, plural) ∉ [("admissionregistration.k8s.io", "validatingwebhookconfigurations"),
    ("admissionregistration.k8s.io", "mutatingwebhookconfigurations"),
    ("admissionregistration.k8s.io", "validatingadmissionpolicies"),
    ("admissionregistration.k8s.io", "validatingadmissionpolicybindings"),
    ("admissionregistration.k8s.io", "mutatingadmissionpolicies"),
    ("admissionregistration.k8s.io", "mutatingadmissionpolicybindings"),
    ("apiextensions.k8s.io", "customresourcedefinitions"), ("apiregistration.k8s.io", "apiservices"),
    ("certificates.k8s.io", "clustertrustbundles"), ("certificates.k8s.io", "podcertificaterequests"),
    ("coordination.k8s.io", "leases"), ("coordination.k8s.io", "leasecandidates"),
    ("node.k8s.io", "runtimeclasses"), ("policy", "poddisruptionbudgets"),
    ("resource.k8s.io", "devicetaintrules"), ("storage.k8s.io", "csidrivers"),
    ("storage.k8s.io", "csinodes"), ("storage.k8s.io", "csistoragecapacities"),
    ("storage.k8s.io", "volumeattachments"), ("storagemigration.k8s.io", "storageversionmigrations")]

def qualifiedResource (group plural : String) : String :=
  if group = "" then plural else plural ++ "." ++ group

def requireBuiltinResourceversionOnUpdate (t : Target) (expected : Option ℕ) : Except Failure Unit :=
  if expected = none ∧ allowsUnconditionalUpdate t.group t.plural = false then
    .error (.unprocessableEntity (qualifiedResource t.group t.plural ++ " \"" ++ t.name ++
      "\" is invalid: metadata.resourceVersion: Invalid value: 0x0: must be specified for an update"))
  else .ok ()

def checkReplaceResourceVersionPrecondition (t : Target) (expected : Option ℕ) (parsed : Option Json) :
    Except Failure Unit :=
  match expected with
  | none => if parsed.isSome then requireBuiltinResourceversionOnUpdate t none else .ok ()
  | some expected =>
    let current := ((parsed.bind resourceVersion).bind Rbac.parseU64).getD 0
    if current = expected then .ok ()
    else .error (storeErr (.revisionMismatch expected current) t.group t.plural t.name t.kind)

def Target.report {α : Type} (t : Target) : Except StoreError α → Except Failure α
  | .ok a => .ok a
  | .error e => .error (storeErr e t.group t.plural t.name t.kind)

def loadStored (t : Target) : Handler β (Row β) := do
  match ← storeGet t.key with
  | .error e => throw (.store e)
  | .ok none => throw (.notFound t.group t.plural t.name)
  | .ok (some row) => pure row

def fromBytes (row : Row β) : Except Failure Json :=
  match codec.fromSlice row.value with
  | some body => .ok body
  | none => .error (.internal "corrupt stored object")

variable {codec} in
theorem fromBytes_ok (hb : fromBytes codec row = .ok body) : codec.fromSlice row.value = some body := by
  unfold fromBytes at hb
  split at hb
  · next he =>
    cases hb
    exact he
  · cases hb

def evictFromIndex (t : Target) : Handler β Unit :=
  if t.group = RBAC_GROUP then rbacRemoveObject t.rbacKey else pure ()

def applyToIndex (t : Target) (body : Json) : Handler β Unit :=
  if t.group = RBAC_GROUP then rbacApplyObject t.rbacKey body else pure ()

def successStatus : Json :=
  .obj [("apiVersion", .str "v1"), ("code", .num (.posInt 200)), ("kind", .str "Status"),
    ("status", .str "Success")]

structure DeleteRequest where
  opts : DeleteOptions
  dryRunHeader : Bool
  now : String
  admission : Json → Except Failure Unit
  attempts : ℕ

def DeleteRequest.dryRun (q : DeleteRequest) : Bool := q.opts.isDryRun || q.dryRunHeader

def addIf (c : Bool) (add : Json → Option Json) (body : Json) : Except Failure Json :=
  if c then panicOn (add body) else .ok body

def markPropagation (t : Target) (opts : DeleteOptions) (body : Json) : Except Failure Json := do
  let owned := ((body.idx "metadata").idx "uid").asStr?.getD "" ≠ ""
  let orphan := opts.isOrphan || (t.ns.isSome && t.group = "" && t.plural = "replicationcontrollers" &&
    !opts.isExplicitCascade)
  let foreground := t.ns.isSome && opts.propagationPolicy = some "Foreground"
  let body ← addIf (orphan && owned) addOrphanFinalizer body
  addIf (foreground && owned) addForegroundDeletionFinalizer body

def DeleteRequest.decide (t : Target) (q : DeleteRequest) (body : Json) : Except Failure (Option Json) := do
  q.admission body
  applyDeletePolicy q.now (← markPropagation t q.opts body)

def deleteResource (t : Target) (q : DeleteRequest) : ℕ → Handler β Json
  | 0 => throw .cancelled
  | n + 1 => do
    let row ← loadStored t
    let body ← attempt (fromBytes codec row)
    match ← attempt (q.decide t body) with
    | some soft =>
      if q.dryRun then return soft
      let expected ← attempt (parseResourceVersion (resourceVersion soft))
      match ← storePut t.key (codec.toVec soft) expected with
      | .error (.revisionMismatch _ _) => deleteResource t q n
      | .error e => throw (storeErr e t.group t.plural t.name t.kind)
      | .ok rv =>
        evictFromIndex t
        attempt (panicOn (setResourceVersion soft rv))
    | none =>
      if q.dryRun then return successStatus
      let _ ← attempt (t.report (← storeDelete t.key none))
      evictFromIndex t
      return successStatus

def completeFinalizerDrain (t : Target) : Handler β Unit := do
  if t.group = "" ∧ t.plural = "services" then
    -- The spec whose addresses are released is read once more; a failed read releases nothing.
    let _ ← storeGet t.key
  let _ ← attempt (t.report (← storeDelete t.key none))
  evictFromIndex t

def unlessDryRun (dryRun : Bool) (x : Handler β Unit) : Handler β Unit :=
  if dryRun then pure () else x

structure ReplaceRequest where
  body : Json
  dryRun : Bool
  /-- Everything up to the pinning of the deletion fields, given the stored object. -/
  prepare : Option Json → Json → Except Failure Json
  /-- Defaults, validation, webhooks, ownership of fields. -/
  admission : Option Json → Json → Except Failure Json

def ReplaceRequest.edit (q : ReplaceRequest) (old : Option Json) : Except Failure Json := do
  q.admission old (pinServerOwnedDeletionFields (← q.prepare old q.body) old)

def updateAfterLostCreateRace (t : Target) (value : β) (expected : Option ℕ) : Handler β ℕ := do
  attempt (requireBuiltinResourceversionOnUpdate t expected)
  attempt (t.report (← storePut t.key value expected))

def storeNew (t : Target) (value : β) (expected : Option ℕ) : Handler β ℕ := do
  match t.ns with
  | some ns =>
    match ← storeCreateIfNamespaceActive (some (clusterObjectKey "namespaces" ns)) t.key value with
    | .ok rv => pure rv
    | .error (.store (.alreadyExists _)) => updateAfterLostCreateRace t value expected
    | .error (.store e) => throw (storeErr e t.group t.plural t.name t.kind)
    | .error e => throw (.namespaceCreateRejected ns e)
  | none =>
    match ← storePut t.key value (some (expected.getD 0)) with
    | .ok rv => pure rv
    | .error (.alreadyExists _) =>
      if expected = none then updateAfterLostCreateRace t value expected
      else throw (storeErr (.alreadyExists t.key) t.group t.plural t.name t.kind)
    | .error e => throw (storeErr e t.group t.plural t.name t.kind)

def storeBody (t : Target) (isNew : Bool) (value : β) (expected : Option ℕ) : Handler β ℕ :=
  if isNew then storeNew t value expected
  else do attempt (t.report (← storePut t.key value expected))

def replaceResource (t : Target) (q : ReplaceRequest) : Handler β Json := do
  let expected ← attempt (parseResourceVersion (resourceVersion q.body))
  match ← storeGet t.key with
  | .error e => throw (.store e)
  | .ok stored =>
    let old := stored.bind (fun row => codec.fromSlice row.value)
    attempt (checkReplaceResourceVersionPrecondition t expected old)
    if old.isNone && !allowsCreateOnUpdate t.group t.plural then
      throw (.notFound t.group t.plural t.name)
    let body ← attempt (q.edit old)
    if q.dryRun then return body
    if (old.isSome || t.ns.isNone) && finalizerDrainComplete body then
      completeFinalizerDrain t
      return body
    let rv ← storeBody t old.isNone (codec.toVec body) expected
    let body ← attempt (panicOn (setResourceVersion body rv))
    applyToIndex t body
    return body

structure PatchRequest where
  isSsa : Bool
  dryRun : Bool
  create : Except Failure Json
  merge : Json → Except Failure Json
  /-- From the pinning of the server's fields to the finalizer check, given the stored object. -/
  validate : Json → Json → Except Failure Json
  admission : Json → Json → Except Failure Json

def PatchRequest.edit (q : PatchRequest) (stored : Json) : Except Failure Json := do
  let merged ← panicOn (setMetadata (← q.merge stored) "uid" ((stored.idx "metadata").idx "uid"))
  q.validate stored (pinServerOwnedDeletionFields merged (some stored))

def MAX_PATCH_CONFLICT_RETRIES : ℕ := 5

def patchAttempt (t : Target) (q : PatchRequest) (row : Row β) (conflict : ℕ → ℕ → Handler β Json) :
    Handler β Json := do
  let stored ← attempt (fromBytes codec row)
  let body ← attempt (q.edit stored)
  if finalizerDrainComplete body then
    unlessDryRun q.dryRun (completeFinalizerDrain t)
    return body
  let body ← attempt (q.admission stored body)
  if q.dryRun then return body
  let expected ← attempt (parseResourceVersion (resourceVersion body))
  match ← storePut t.key (codec.toVec body) expected with
  | .error (.revisionMismatch expected current) => conflict expected current
  | .error e => throw (storeErr e t.group t.plural t.name t.kind)
  | .ok rv =>
    let body ← attempt (panicOn (setResourceVersion body rv))
    applyToIndex t body
    return body

def patchLoop (t : Target) (q : PatchRequest) : ℕ → Row β → Handler β Json
  | 0, row => patchAttempt codec t q row (fun expected current =>
      throw (storeErr (.revisionMismatch expected current) t.group t.plural t.name t.kind))
  | retries + 1, row => patchAttempt codec t q row (fun _ _ => do
      patchLoop t q retries (← loadStored t))

/-- An apply that lost the race to create the object. The merge is stored whatever its finalizers are. -/
def mergeAfterLostRace (t : Target) (q : PatchRequest) : Handler β Json := do
  let stored ← attempt (fromBytes codec (← loadStored t))
  let merged ← attempt (q.merge stored)
  let body ← attempt (q.validate stored (pinServerOwnedDeletionFields merged (some stored)))
  let body ← attempt (q.admission stored body)
  let expected ← attempt (parseResourceVersion (resourceVersion body))
  let rv ← attempt (t.report (← storePut t.key (codec.toVec body) expected))
  let body ← attempt (panicOn (setResourceVersion body rv))
  applyToIndex t body
  return body

def doPatch (t : Target) (q : PatchRequest) : Handler β Json := do
  match ← storeGet t.key with
  | .error e => throw (.store e)
  | .ok (some row) => patchLoop codec t q (MAX_PATCH_CONFLICT_RETRIES - 1) row
  | .ok none =>
    if !q.isSsa then throw (.notFound t.group t.plural t.name)
    let body ← attempt q.create
    if q.dryRun then return body
    let nsKey := t.ns.map (clusterObjectKey "namespaces")
    match ← storeCreateIfNamespaceActive nsKey t.key (codec.toVec body) with
    | .ok rv =>
      let body ← attempt (panicOn (setResourceVersion body rv))
      applyToIndex t body
      return body
    | .error (.store (.alreadyExists _)) => mergeAfterLostRace codec t q
    | .error (.store e) => throw (storeErr e t.group t.plural t.name t.kind)
    | .error e => throw (.namespaceCreateRejected (t.ns.getD "") e)

inductive ObjectRequest where
  | delete (q : DeleteRequest)
  | replace (q : ReplaceRequest)
  | patch (q : PatchRequest)

def ObjectRequest.handler (t : Target) : ObjectRequest → Handler β Json
  | .delete q =>
    if isSeededRbacObject t.group t.name then
      throw (.forbidden ("cannot delete bootstrap RBAC object " ++ t.name))
    else deleteResource codec t q q.attempts
  | .replace q => replaceResource codec t q
  | .patch q => doPatch codec t q

def ObjectRequest.program (t : Target) (q : ObjectRequest) : Request β := (q.handler codec t).run

end U7s.Handlers
