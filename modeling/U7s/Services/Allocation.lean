import U7s.Lib.Addresses
import U7s.Lib.Transactions
import U7s.Handlers.Objects

/-! Cluster IPs and node ports of Services. A reservation is a sentinel key that is created only if it is absent. -/

namespace U7s.Services

open Addresses Handlers Programs Store

abbrev ServiceName := String × String

inductive Reservation where
  | ip (text : String)
  | port (n : ℤ)
deriving DecidableEq

structure StoredService where
  revision : ℕ
  body : Json

structure ServiceStore where
  revision : ℕ
  services : AList (fun _ : ServiceName => StoredService)
  reserved : AList (fun _ : Reservation => Option ServiceName)

inductive ServiceOp where
  | get (id : ServiceName)
  /-- `create_if_namespace_active`; a detached one runs on a task of its own. -/
  | create (id : ServiceName) (body : Json) (detached : Bool)
  | put (id : ServiceName) (body : Json) (expected : Option ℕ)
  /-- A tolerant caller takes an absent object for a deleted one. -/
  | delete (id : ServiceName) (tolerant : Bool)
  | reserve (r : Reservation)
  | sentinel (r : Reservation)
  | usedPorts
  | release (r : Reservation)

def ServiceOp.Reply : ServiceOp → Type
  | .get _ => Except StoreError (Option StoredService)
  | .create _ _ _ => Except CreateNamespacedError ℕ
  | .put _ _ _ => Except StoreError ℕ
  | .delete _ _ => Except StoreError ℕ
  | .reserve _ => Except StoreError ℕ
  | .sentinel _ => Except StoreError (Option (Option ServiceName))
  | .usedPorts => Except StoreError (List ℤ)
  | .release _ => Unit

inductive Fate where
  | served
  | failed (e : StoreError)
  | refused (e : CreateNamespacedError)

def serviceKey (id : ServiceName) : String := "/registry/services/" ++ id.1 ++ "/" ++ id.2

namespace ServiceStore

variable (s : ServiceStore)

def write (id : ServiceName) (body : Json) : ServiceStore :=
  { s with revision := s.revision + 1, services := s.services.insert id ⟨s.revision + 1, body⟩ }

def put (id : ServiceName) (body : Json) (expected : Option ℕ) : ServiceStore × Except StoreError ℕ :=
  match checkExpected (serviceKey id) ((s.services.lookup id).map StoredService.revision) expected with
  | .error e => (s, .error e)
  | .ok () =>
    match s.services.lookup id with
    | some row =>
      if withoutResourceVersion body = withoutResourceVersion row.body then (s, .ok row.revision)
      else (s.write id body, .ok (s.revision + 1))
    | none => (s.write id body, .ok (s.revision + 1))

def create (id : ServiceName) (body : Json) : ServiceStore × Except CreateNamespacedError ℕ :=
  if (s.services.lookup id).isSome then (s, .error (.store (.alreadyExists (serviceKey id))))
  else (s.write id body, .ok (s.revision + 1))

def delete (id : ServiceName) : ServiceStore × Except StoreError ℕ :=
  if (s.services.lookup id).isSome then
    ({ s with revision := s.revision + 1, services := s.services.erase id }, .ok (s.revision + 1))
  else (s, .error (.notFound (serviceKey id)))

def reserve (r : Reservation) : ServiceStore × Except StoreError ℕ :=
  if (s.reserved.lookup r).isSome then (s, .error (.alreadyExists ""))
  else ({ s with revision := s.revision + 1, reserved := s.reserved.insert r none }, .ok (s.revision + 1))

def usedPorts : List ℤ :=
  s.reserved.keys.filterMap (fun r =>
    match r with
    | .port n => some n
    | .ip _ => none)

def release (r : Reservation) : ServiceStore :=
  { s with revision := s.revision + 1, reserved := s.reserved.erase r }

def exec (o : ServiceOp) (f : Fate) : ServiceStore × o.Reply :=
  match o, f with
  | .get id, .served => (s, .ok (s.services.lookup id))
  | .create id body _, .served => s.create id body
  | .put id body expected, .served => s.put id body expected
  | .delete id _, .served => s.delete id
  | .reserve r, .served => s.reserve r
  | .sentinel r, .served => (s, .ok (s.reserved.lookup r))
  | .usedPorts, .served => (s, .ok s.usedPorts)
  | .release r, .served => (s.release r, ())
  | .get _, .failed e => (s, .error e)
  | .create _ _ _, .failed e => (s, .error (.store e))
  | .put _ _ _, .failed e => (s, .error e)
  | .delete _ _, .failed e => (s, .error e)
  | .reserve _, .failed e => (s, .error e)
  | .sentinel _, .failed e => (s, .error e)
  | .usedPorts, .failed e => (s, .error e)
  | .release _, .failed _ => (s, ())
  | .create _ _ _, .refused e => (s, .error e)
  | .get _, .refused _ => (s, .error .sqlite)
  | .put _ _ _, .refused _ => (s, .error .sqlite)
  | .delete _ _, .refused _ => (s, .error .sqlite)
  | .reserve _, .refused _ => (s, .error .sqlite)
  | .sentinel _, .refused _ => (s, .error .sqlite)
  | .usedPorts, .refused _ => (s, .error .sqlite)
  | .release _, .refused _ => (s, ())

end ServiceStore

abbrev ServiceTrace := Trace ServiceOp ServiceOp.Reply

abbrev Reserver (α : Type) := Logged ServiceOp ServiceOp.Reply Reservation Failure α

def callGet (id : ServiceName) : Reserver (Except StoreError (Option StoredService)) := Logged.request (ServiceOp.get id)

def callCreate (id : ServiceName) (body : Json) (detached : Bool) : Reserver (Except CreateNamespacedError ℕ) :=
  Logged.request (ServiceOp.create id body detached)

def callPut (id : ServiceName) (body : Json) (expected : Option ℕ) : Reserver (Except StoreError ℕ) :=
  Logged.request (ServiceOp.put id body expected)

def callDelete (id : ServiceName) (tolerant : Bool) : Reserver (Except StoreError ℕ) :=
  Logged.request (ServiceOp.delete id tolerant)

def callReserve (r : Reservation) : Reserver (Except StoreError ℕ) := Logged.request (ServiceOp.reserve r)

def callSentinel (r : Reservation) : Reserver (Except StoreError (Option (Option ServiceName))) :=
  Logged.request (ServiceOp.sentinel r)

def callUsedPorts : Reserver (Except StoreError (List ℤ)) := Logged.request ServiceOp.usedPorts

def callRelease (r : Reservation) : Reserver Unit := Logged.request (ServiceOp.release r)

structure ServiceIpAllocator where
  base : IpAddr
  size : ℕ

namespace ServiceIpAllocator

variable (a : ServiceIpAllocator)

def offsetOf (ip : IpAddr) : Option ℕ :=
  match a.base, ip with
  | .v4 b, .v4 i => if b.val ≤ i.val ∧ i.val - b.val < a.size then some (i.val - b.val) else none
  | .v6 b, .v6 i => if b.val ≤ i.val ∧ i.val - b.val < a.size then some (i.val - b.val) else none
  | _, _ => none

def ipAt (offset : ℕ) : IpAddr :=
  match a.base with
  | .v4 b => .v4 (Fin.ofNat _ (b.val + offset))
  | .v6 b => .v6 (Fin.ofNat _ (b.val + offset))

def lastOffset : ℕ := if a.base.isV4 then a.size - 2 else a.size - 1

def containsHost (ip : IpAddr) : Bool := (a.offsetOf ip).any (fun o => 1 ≤ o && o ≤ a.lastOffset)

def prefixLen : ℕ := a.base.width - Nat.log 2 a.size

end ServiceIpAllocator

structure Network where
  parse : String → Option IpAddr
  display : IpAddr → String
  parse_display : ∀ ip, parse (display ip) = some ip
  primary : Option ServiceIpAllocator
  secondary : Option ServiceIpAllocator

def Network.allocators (net : Network) : List ServiceIpAllocator := net.primary.toList ++ net.secondary.toList

def Network.allocatorFor (net : Network) (v4 : Bool) : Option ServiceIpAllocator :=
  net.allocators.find? (fun a => a.base.isV4 = v4)

def sorted {α : Type} [DecidableEq α] [LE α] [DecidableRel (α := α) (· ≤ ·)] (l : List α) : List α :=
  l.dedup.insertionSort (· ≤ ·)

def strings (j : Json) : List String := (j.asArray?.getD []).filterMap Json.asStr?

def specIps (spec : Json) : List String :=
  sorted (((spec.idx "clusterIP").asStr?.toList ++ strings (spec.idx "clusterIPs")).filter
    (fun ip => ip ≠ "" && ip ≠ "None"))

def nonzero (j : Json) : Option ℤ := (i64Of j).filter (fun n => n ≠ 0)

def portsOf (spec : Json) : List Json := (spec.idx "ports").asArray?.getD []

def specPorts (spec : Json) : List ℤ :=
  sorted ((portsOf spec).filterMap (fun p => nonzero (p.idx "nodePort")) ++
    (nonzero (spec.idx "healthCheckNodePort")).toList)

def holdings (spec : Json) : List Reservation :=
  (specIps spec).map Reservation.ip ++ (specPorts spec).map Reservation.port

@[simp] theorem mem_sorted {α : Type} [DecidableEq α] [LE α] [DecidableRel (α := α) (· ≤ ·)] {l : List α} {x : α} :
    x ∈ sorted l ↔ x ∈ l := by
  simp [sorted]

theorem mem_specPorts :
    n ∈ specPorts spec ↔ (∃ p ∈ portsOf spec, nonzero (p.idx "nodePort") = some n) ∨
      nonzero (spec.idx "healthCheckNodePort") = some n := by
  simp [specPorts]

@[simp] theorem ip_mem_holdings : .ip ip ∈ holdings spec ↔ ip ∈ specIps spec := by
  simp [holdings]

@[simp] theorem port_mem_holdings : .port n ∈ holdings spec ↔ n ∈ specPorts spec := by
  simp [holdings]

theorem specIps_congr (h : spec'.idx "clusterIP" = spec.idx "clusterIP")
    (h' : spec'.idx "clusterIPs" = spec.idx "clusterIPs") : specIps spec' = specIps spec := by
  unfold specIps
  rw [h, h']

def svcType (spec : Json) : String := (spec.idx "type").asStr?.getD "ClusterIP"

def eraseMember (k : String) : Json → Json
  | .obj fs => .obj (Json.erase k fs)
  | j => j

def needsHealthCheck (spec : Json) : Bool :=
  svcType spec = "LoadBalancer" && (spec.idx "externalTrafficPolicy").asStr? = some "Local"

def dropTypeDependentFields (spec : Json) : Option Json := do
  let dropped ← if svcType spec ≠ "NodePort" ∧ svcType spec ≠ "LoadBalancer" then
      spec.modifyIdx "ports" (Json.mapItems (fun p => some (eraseMember "nodePort" p)))
    else some spec
  some (if needsHealthCheck spec then dropped else eraseMember "healthCheckNodePort" dropped)

section Reserve

variable (net : Network) (dryRun : Bool) (id : ServiceName)

def NODE_PORT_MIN : ℤ := 30000

def NODE_PORT_MAX : ℤ := 32767

def invalid (name field value detail : String) : Failure :=
  .unprocessableEntity ("Service \"" ++ name ++ "\" is invalid: " ++ field ++ ": Invalid value: " ++ value ++ ": " ++
    detail)

def reserve (r : Reservation) : Reserver Bool :=
  if dryRun then do
    match ← callSentinel r with
    | .ok held => pure held.isNone
    | .error e => Logged.fail (.store e)
  else do
    match ← callReserve r with
    | .ok _ => do
      Logged.take r
      pure true
    | .error (.alreadyExists _) => pure false
    | .error _ => Logged.fail (.internal "service allocation error")

def preReservedFor (r : Reservation) : Reserver Bool := do
  match ← callSentinel r with
  | .ok held => pure (held = some (some id))
  | .error e => Logged.fail (.store e)

def tryPorts (used taken : List ℤ) : List ℤ → Reserver ℤ
  | [] => Logged.fail (.internalActionable "failed to allocate a nodePort: range is full")
  | port :: ports =>
    if port ∈ used ∨ port ∈ taken then tryPorts used taken ports
    else do
      if ← reserve dryRun (.port port) then pure port else tryPorts used taken ports

def allocateNextPort (taken : List ℤ) : Reserver ℤ := do
  match ← callUsedPorts with
  | .error e => Logged.fail (.store e)
  | .ok used => tryPorts dryRun used taken ((List.range 2768).map (fun n : ℕ => NODE_PORT_MIN + n))

def ipRejection (listed ip : String) (alloc : ServiceIpAllocator) : Failure :=
  invalid id.2 "spec.clusterIPs" listed ("failed to allocate IP " ++ ip ++ ": the provided IP (" ++ ip ++
    ") is not in the valid range. The range of valid IPs is " ++ net.display alloc.base ++ "/" ++
    toString alloc.prefixLen)

def reserveIps (primary : ServiceIpAllocator) (listed : String) : List String → Reserver Unit
  | [] => pure ()
  | ip :: ips => do
    let parsed := net.parse ip
    let alloc := (parsed.bind (fun a => net.allocatorFor a.isV4)).getD primary
    if !parsed.any alloc.containsHost then Logged.fail (ipRejection net id listed ip alloc)
    else if ← reserve dryRun (.ip ip) then reserveIps primary listed ips
    else if ← preReservedFor id (.ip ip) then reserveIps primary listed ips
    else Logged.fail (invalid id.2 "spec.clusterIPs" listed
      ("failed to allocate IP " ++ ip ++ ": provided IP is already allocated"))

def inPortRange (n : ℤ) : Bool := NODE_PORT_MIN ≤ n && n ≤ NODE_PORT_MAX

def portOutOfRange : String :=
  "provided port is not in the valid range. The range of valid ports is " ++ toString NODE_PORT_MIN ++ "-" ++
    toString NODE_PORT_MAX

def reservePort (field : String) (n : ℤ) : Reserver Unit := do
  if !inPortRange n then Logged.fail (invalid id.2 field (toString n) portOutOfRange)
  else if ← reserve dryRun (.port n) then pure ()
  else Logged.fail (invalid id.2 field (toString n) "provided port is already allocated")

def reservePresetPorts (oldPorts : List ℤ) : ℕ → List Json → List ℤ → Reserver (List ℤ)
  | _, [], taken => pure taken
  | i, p :: ports, taken =>
    match nonzero (p.idx "nodePort") with
    | none => reservePresetPorts oldPorts (i + 1) ports taken
    | some n =>
      if n ∈ taken ∨ n ∈ oldPorts then reservePresetPorts oldPorts (i + 1) ports (n :: taken)
      else do
        reservePort dryRun id ("spec.ports[" ++ toString i ++ "].nodePort") n
        reservePresetPorts oldPorts (i + 1) ports (n :: taken)

def jsonInt (n : ℤ) : Json := if 0 ≤ n then .num (.posInt n.toNat) else .num (.negInt n)

def portTable : List Json → List (ℤ × ℤ) → List (ℤ × ℤ)
  | [], table => table
  | p :: ports, table =>
    match i64Of (p.idx "port"), nonzero (p.idx "nodePort") with
    | some port, some n => portTable ports (if (table.lookup port).isSome then table else table ++ [(port, n)])
    | _, _ => portTable ports table

def assignPorts : List Json → List ℤ → List (ℤ × ℤ) → Reserver (List Json × List ℤ)
  | [], taken, _ => pure ([], taken)
  | p :: ports, taken, table => do
    if (i64Of (p.idx "nodePort")).getD 0 ≠ 0 then
      let (rest, taken) ← assignPorts ports taken table
      pure (p :: rest, taken)
    else
      let port := (i64Of (p.idx "port")).getD 0
      match table.lookup port with
      | some n =>
        let p' ← Logged.attempt (panicOn (p.setIdx "nodePort" (jsonInt n)))
        let (rest, taken) ← assignPorts ports taken table
        pure (p' :: rest, taken)
      | none =>
        let n ← allocateNextPort dryRun taken
        let p' ← Logged.attempt (panicOn (p.setIdx "nodePort" (jsonInt n)))
        let (rest, taken) ← assignPorts ports (n :: taken) (table ++ [(port, n)])
        pure (p' :: rest, taken)

def allocatesNodePorts (spec : Json) : Bool :=
  svcType spec = "NodePort" ||
    (svcType spec = "LoadBalancer" && spec.idx "allocateLoadBalancerNodePorts" ≠ .bool false)

def fillNodePorts (spec : Json) (taken : List ℤ) : Reserver (Json × List ℤ) := do
  if allocatesNodePorts spec && !(portsOf spec).isEmpty then
    let (ports, taken) ← assignPorts dryRun (portsOf spec) taken (portTable (portsOf spec) [])
    let spec ← Logged.attempt (panicOn (spec.setIdx "ports" (.arr ports)))
    pure (spec, taken)
  else pure (spec, taken)

def fillHealthCheckPort (spec : Json) (taken : List ℤ) : Reserver Json := do
  if needsHealthCheck spec && (i64Of (spec.idx "healthCheckNodePort")).getD 0 = 0 then
    let n ← allocateNextPort dryRun taken
    Logged.attempt (panicOn (spec.setIdx "healthCheckNodePort" (jsonInt n)))
  else pure spec

def difference {α : Type} [DecidableEq α] (old new : List α) : List α := old.filter (fun x => x ∉ new)

theorem difference_holdings (old spec : Json) :
    difference (holdings old) (holdings spec) =
      (difference (specIps old) (specIps spec)).map Reservation.ip ++
        (difference (specPorts old) (specPorts spec)).map Reservation.port := by
  have hips : (fun r => decide (r ∉ holdings spec)) ∘ Reservation.ip = fun ip => decide (ip ∉ specIps spec) := by
    funext ip
    simp
  have hports : (fun r => decide (r ∉ holdings spec)) ∘ Reservation.port = fun n => decide (n ∉ specPorts spec) := by
    funext n
    simp
  unfold difference
  rw [show holdings old = (specIps old).map .ip ++ (specPorts old).map .port from rfl, List.filter_append,
    List.filter_map, List.filter_map, hips, hports]

def reservePresetHealthCheck (oldPorts taken : List ℤ) (spec : Json) : Reserver Unit :=
  match (nonzero (spec.idx "healthCheckNodePort")).filter (fun n => n ∉ oldPorts && n ∉ taken) with
  | some n => reservePort dryRun id "spec.healthCheckNodePort" n
  | none => pure ()

def reserveNewIps (old spec : Json) (autoIps : List String) : Reserver (List Reservation) :=
  match net.primary with
  | none => pure []
  | some primary => do
    let listed := "[" ++ ", ".intercalate ((specIps spec).map (fun ip => "\"" ++ ip ++ "\"")) ++ "]"
    reserveIps net dryRun id primary listed
      ((specIps spec).filter (fun ip => ip ∉ specIps old && ip ∉ autoIps))
    pure ((difference (specIps old) (specIps spec)).map Reservation.ip)

def reserveAll (old spec : Json) (autoIps : List String) : Reserver (Json × List Reservation) := do
  let spec ← Logged.attempt (panicOn (dropTypeDependentFields spec))
  let staleIps ← reserveNewIps net dryRun id old spec autoIps
  let taken ← reservePresetPorts dryRun id (specPorts old) 0 (portsOf spec) []
  reservePresetHealthCheck dryRun id (specPorts old) taken spec
  let (spec, taken) ← fillNodePorts dryRun spec taken
  let spec ← fillHealthCheckPort dryRun spec taken
  pure (spec, staleIps ++ (difference (specPorts old) (specPorts spec)).map Reservation.port)

def beginAlloc (old : Option Json) (body : Json) (autoIps : List String) : Reserver (Json × List Reservation) := do
  let (spec, stale) ← reserveAll net dryRun id (old.getD .null) (body.idx "spec") autoIps
  let body ← Logged.attempt (panicOn (body.setIdx "spec" spec))
  pure (body, stale)

end Reserve

end U7s.Services
