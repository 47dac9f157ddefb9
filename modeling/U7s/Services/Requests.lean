import U7s.Handlers.Resource
import U7s.Services.Allocation

/-! The requests that write Services. One that ends without a commit hands its reservations back, and so does one
whose client goes away. -/

namespace U7s.Services

open Addresses Handlers Programs Store

variable (net : Network)

def unallocatedSlots (spec : Json) : List (ℕ × Bool) :=
  let first := (spec.idx "clusterIP").asStr?.getD ""
  let listed := strings (spec.idx "clusterIPs")
  let ips := if listed = [] ∧ first ≠ "" then [first] else listed
  if svcType spec ∉ ["ClusterIP", "NodePort", "LoadBalancer"] ∨ ips = ["None"] then []
  else ((strings (spec.idx "ipFamilies")).zipIdx.filter (fun f => ips.getD f.2 "" = "")).filterMap (fun f =>
    if f.1 = "IPv4" then some (f.2, true) else if f.1 = "IPv6" then some (f.2, false) else none)

def setClusterIp (spec : Json) (i : ℕ) (ip : String) : Option Json := do
  let ips := (spec.idx "clusterIPs").asArray?.getD []
  let padded := ips ++ List.replicate (i + 1 - ips.length) (.str "")
  let spec ← spec.setIdx "clusterIPs" (.arr (padded.set i (.str ip)))
  if i = 0 then spec.setIdx "clusterIP" (.str ip) else some spec

def probe (alloc : ServiceIpAllocator) (id : ServiceName) : ℕ → ℕ → Reserver IpAddr
  | 0, _ => Logged.fail (.internalActionable
      ("failed to allocate a serviceIP for Service \"" ++ id.2 ++ "\": range is full"))
  | left + 1, offset =>
    if offset = 0 ∨ (offset = 1 ∧ id ≠ ("default", "kubernetes")) ∨ alloc.lastOffset < offset then
      probe alloc id left ((offset + 1) % alloc.size)
    else do
      match ← callReserve (.ip (net.display (alloc.ipAt offset))) with
      | .ok _ => do
        Logged.take (.ip (net.display (alloc.ipAt offset)))
        pure (alloc.ipAt offset)
      | .error (.alreadyExists _) => probe alloc id left ((offset + 1) % alloc.size)
      | .error _ => Logged.fail (.internal "service IP allocation error")

def allocateServiceIp (id : ServiceName) (v4 : Bool) (start : ℕ) : Reserver (Option IpAddr) :=
  match net.allocatorFor v4 with
  | none => pure none
  | some alloc => do
    let ip ← probe net alloc id alloc.size (start % alloc.size)
    pure (some ip)

def fillSlots (id : ServiceName) (starts : ℕ → ℕ) : List (ℕ × Bool) → Json → Reserver (Json × List String)
  | [], spec => pure (spec, [])
  | (i, v4) :: slots, spec => do
    match ← allocateServiceIp net id v4 (starts i) with
    | none => fillSlots id starts slots spec
    | some ip =>
      let spec ← Logged.attempt (panicOn (setClusterIp spec i (net.display ip)))
      let (spec, ips) ← fillSlots id starts slots spec
      pure (spec, net.display ip :: ips)

structure Edits where
  merge : Option Json → Except Failure Json
  /-- `init_ip_family_fields`, and for an update `validate_ip_fields_update`. -/
  resolve : Option Json → Json → Except Failure Json
  validate : Option Json → Json → Except Failure Json
  admission : Option Json → Json → Except Failure Json
  /-- Where the search for an address starts, for each place in `clusterIPs`. -/
  starts : ℕ → ℕ
  dryRun : Bool

def maybeAllocateClusterIp (id : ServiceName) (e : Edits) (old : Option Json) (body : Json) :
    Reserver (Json × List String) := do
  if ((body.idx "spec").idx "type").asStr? = some "ExternalName" then pure (body, [])
  else
    let body ← Logged.attempt (e.resolve old body)
    if e.dryRun || net.allocators.isEmpty then pure (body, [])
    else
      let (spec, ips) ← fillSlots net id e.starts (unallocatedSlots (body.idx "spec")) (body.idx "spec")
      let body ← Logged.attempt (panicOn (body.setIdx "spec" spec))
      pure (body, ips)

def Edits.body (id : ServiceName) (e : Edits) (old : Option Json) : Reserver (Json × List String) := do
  let body ← Logged.attempt (e.merge old)
  let (body, ips) ← maybeAllocateClusterIp net id e old body
  let body ← Logged.attempt (e.validate old body)
  pure (body, ips)

def Edits.admitted (id : ServiceName) (e : Edits) (old : Option Json) (body : Json) (ips : List String) :
    Reserver (Json × List Reservation) := do
  let body ← Logged.attempt (e.admission old body)
  beginAlloc net e.dryRun id (old.map (fun o => o.idx "spec")) body ips

def releaseAll : List Reservation → Reserver Unit
  | [] => pure ()
  | r :: rs => do
    callRelease r
    releaseAll rs

def commit (stale : List Reservation) : Reserver Unit := do
  let _ ← Logged.handOver
  releaseAll stale

def rollback : Reserver Unit := do
  let created ← Logged.handOver
  releaseAll created

def reported (id : ServiceName) (e : StoreError) : Failure := storeErr e "" "services" id.2 "Service"

def loadService (id : ServiceName) : Reserver StoredService := do
  match ← callGet id with
  | .error e => Logged.fail (.store e)
  | .ok none => Logged.fail (.notFound "" "services" id.2)
  | .ok (some row) => pure row

def releasable (spec : Json) : List Reservation :=
  (if net.primary.isSome then (specIps spec).map Reservation.ip else []) ++ (specPorts spec).map Reservation.port

def drainService (id : ServiceName) : Reserver Unit := do
  let released : Option Json := match ← callGet id with
    | .ok row => row.map (fun row => row.body.idx "spec")
    | .error _ => none
  match ← callDelete id false with
  | .error e => Logged.fail (reported id e)
  | .ok _ => releaseAll ((released.map (releasable net)).getD [])

structure CreateRequest where
  ns : String
  /-- The name, and what `generateName` gives should it be taken. -/
  names : ℕ → String
  attempts : ℕ
  edits : Edits
  revalidate : Json → Except Failure Unit

def createLoop (q : CreateRequest) (stale : List Reservation) : ℕ → ℕ → Json → Reserver Json
  | n, left, body => do
    match ← callCreate (q.ns, q.names n) body true with
    | .ok _ => do
      commit stale
      pure body
    | .error (.store (.alreadyExists _)) =>
      match left with
      | left + 1 => do
        let body ← Logged.attempt (panicOn (setMetadata body "name" (.str (q.names (n + 1)))))
        Logged.attempt (q.revalidate body)
        createLoop q stale (n + 1) left body
      | 0 => do
        let row ← loadService (q.ns, q.names n)
        pure row.body
    | .error (.store e) => Logged.fail (reported (q.ns, q.names n) e)
    | .error e => Logged.fail (.namespaceCreateRejected q.ns e)

def createService (q : CreateRequest) : Reserver Json := do
  let (body, ips) ← q.edits.body net (q.ns, q.names 0) none
  let (body, stale) ← q.edits.admitted net (q.ns, q.names 0) none body ips
  if q.edits.dryRun then pure body else createLoop q stale 0 q.attempts body

structure ReplaceRequest where
  id : ServiceName
  expected : Option ℕ
  edits : Edits

def checkReplacePrecondition (id : ServiceName) (expected : Option ℕ) (stored : Option StoredService) :
    Except Failure Unit :=
  match expected with
  | none => .ok ()
  | some e =>
    let current := (stored.map StoredService.revision).getD 0
    if current = e then .ok () else .error (reported id (.revisionMismatch e current))

def putService (id : ServiceName) (body : Json) (expected : Option ℕ) (stale : List Reservation) :
    Reserver Json := do
  match ← callPut id body expected with
  | .error e => Logged.fail (reported id e)
  | .ok _ => do
    commit stale
    pure body

def createOrPut (id : ServiceName) (body : Json) (expected : Option ℕ) (stale : List Reservation) :
    Reserver Json := do
  match ← callCreate id body false with
  | .ok _ => do
    commit stale
    pure body
  | .error (.store (.alreadyExists _)) => putService id body expected stale
  | .error (.store e) => Logged.fail (reported id e)
  | .error e => Logged.fail (.namespaceCreateRejected id.1 e)

def replaceService (q : ReplaceRequest) : Reserver Json := do
  match ← callGet q.id with
  | .error e => Logged.fail (.store e)
  | .ok stored => do
    let old := stored.map StoredService.body
    Logged.attempt (checkReplacePrecondition q.id q.expected stored)
    let (body, ips) ← q.edits.body net q.id old
    let (body, stale) ← q.edits.admitted net q.id old body ips
    if q.edits.dryRun then pure body
    else if stored.isSome && finalizerDrainComplete body then
      drainService net q.id
      pure body
    else if stored.isSome then putService q.id body q.expected stale
    else createOrPut q.id body q.expected stale

structure PatchRequest where
  id : ServiceName
  edits : Edits
  isSsa : Bool
  pinned : ℕ → Except Failure (Option ℕ)

def patchAttempt (q : PatchRequest) (row : StoredService) (conflict : StoreError → Reserver Json) :
    Reserver Json := do
  let (body, ips) ← q.edits.body net q.id (some row.body)
  if finalizerDrainComplete body then
    if q.edits.dryRun then pure body
    else
      drainService net q.id
      pure body
  else
    let (body, stale) ← q.edits.admitted net q.id (some row.body) body ips
    if q.edits.dryRun then pure body
    else
      let expected ← Logged.attempt (q.pinned row.revision)
      match ← callPut q.id body expected with
      | .error e => conflict e
      | .ok _ => do
        commit stale
        pure body

def patchLoop (q : PatchRequest) : ℕ → StoredService → Reserver Json
  | 0, row => patchAttempt net q row (fun e => Logged.fail (reported q.id e))
  | retries + 1, row => patchAttempt net q row (fun e =>
      match e with
      | .revisionMismatch _ _ => do
        rollback
        let row ← loadService q.id
        patchLoop q retries row
      | e => Logged.fail (reported q.id e))

def mergeAfterLostRace (q : PatchRequest) : Reserver Json := do
  let row ← loadService q.id
  let body ← Logged.attempt (q.edits.merge (some row.body))
  let body ← Logged.attempt (q.edits.validate (some row.body) body)
  let (body, stale) ← q.edits.admitted net q.id (some row.body) body []
  let expected ← Logged.attempt (q.pinned row.revision)
  putService q.id body expected stale

def patchService (q : PatchRequest) : Reserver Json := do
  match ← callGet q.id with
  | .error e => Logged.fail (.store e)
  | .ok (some row) => patchLoop net q (MAX_PATCH_CONFLICT_RETRIES - 1) row
  | .ok none =>
    if !q.isSsa then Logged.fail (.notFound "" "services" q.id.2)
    else
      let (body, ips) ← q.edits.body net q.id none
      let (body, stale) ← q.edits.admitted net q.id none body ips
      if q.edits.dryRun then pure body
      else
        match ← callCreate q.id body false with
        | .ok _ => do
          commit stale
          pure body
        | .error (.store (.alreadyExists _)) => do
          rollback
          mergeAfterLostRace net q
        | .error (.store e) => Logged.fail (reported q.id e)
        | .error e => Logged.fail (.namespaceCreateRejected q.id.1 e)

def target (id : ServiceName) : Target := ⟨"", "v1", "services", some id.1, id.2, "Service"⟩

def deleteService (id : ServiceName) (q : DeleteRequest) : ℕ → Reserver Json
  | 0 => Logged.fail .cancelled
  | n + 1 => do
    let row ← loadService id
    match ← Logged.attempt (q.decide (target id) row.body) with
    | some soft =>
      if q.dryRun then pure soft
      else
        match ← callPut id soft (some row.revision) with
        | .error (.revisionMismatch _ _) => deleteService id q n
        | .error e => Logged.fail (reported id e)
        | .ok _ => pure soft
    | none =>
      if q.dryRun then pure successStatus
      else
        match ← callDelete id false with
        | .error e => Logged.fail (reported id e)
        | .ok _ => do
          releaseAll (releasable net (row.body.idx "spec"))
          pure successStatus

def deleteListed (id : ServiceName) (now : String) (admission : Json → Except Failure Unit) : Reserver Json := do
  let row ← loadService id
  Logged.attempt (admission row.body)
  match ← Logged.attempt (applyDeletePolicy now row.body) with
  | some soft =>
    match ← callPut id soft none with
    | .error e => Logged.fail (.store e)
    | .ok _ => pure soft
  | none =>
    match ← callDelete id true with
    | .ok _ => do
      releaseAll (releasable net (row.body.idx "spec"))
      pure successStatus
    | .error (.notFound _) => do
      releaseAll (releasable net (row.body.idx "spec"))
      pure successStatus
    | .error e => Logged.fail (.store e)

inductive ServiceRequest where
  | create (q : CreateRequest)
  | replace (q : ReplaceRequest)
  | patch (q : PatchRequest)
  | delete (id : ServiceName) (q : DeleteRequest)
  | deleteListed (id : ServiceName) (now : String) (admission : Json → Except Failure Unit)

def ServiceRequest.reserver : ServiceRequest → Reserver Json
  | .create q => createService net q
  | .replace q => replaceService net q
  | .patch q => patchService net q
  | .delete id q => deleteService net id q q.attempts
  | .deleteListed id now admission => Services.deleteListed net id now admission

def ServiceRequest.program (q : ServiceRequest) : Prog ServiceOp ServiceOp.Reply (Except Failure Json) :=
  (q.reserver net []).bind (fun r => (releaseAll r.1 []).bind (fun _ => .ret r.2))

end U7s.Services
