import U7s.Handlers.Objects
import U7s.Node.Graph

/-! What the server makes of a pod's body before it is stored. A pass fails where the source panics. -/

namespace U7s.Node

open Handlers
open Rbac (structFields vecOf stringOf defaulted)

def i32Of (j : Json) : Option ℤ := (i64Of j).filter (fun z => -2 ^ 31 ≤ z ∧ z < 2 ^ 31)

def stampProjection : Json → Option (Option Json × Bool)
  | .null => some (none, false)
  | .obj fs => (optional i32Of (Json.lookup "defaultMode" fs)).map (fun mode =>
      match mode with
      | some _ => (some (.obj fs), false)
      | none => (some (.obj (Json.insert "defaultMode" (.num (.posInt 420)) fs)), true))
  | _ => none

def putField (k : String) (v : Option Json) (fs : List (String × Json)) : List (String × Json) :=
  match v with
  | none => Json.erase k fs
  | some v => Json.insert k v fs

def stampField (v : Json × Bool) (k : String) : Option (Json × Bool) :=
  match v.1 with
  | .obj fs => (stampProjection (v.1.idx k)).map (fun p => (.obj (putField k p.1 fs), v.2 || p.2))
  | _ => none

def stampVolume (v : Json) : Option (Json × Bool) := do
  let _ ← stringOf (v.idx "name")
  ["configMap", "secret", "projected", "downwardAPI"].foldlM stampField (v, false)

structure PodSpec where
  enableServiceLinks : Bool := false
  volumes : Option (List (Json × Bool)) := none

def PodSpec.fromValue (j : Json) : Option PodSpec := do
  match ← structFields ["nodeName", "enableServiceLinks", "volumes"] j with
  | [n, e, v] => do
    let _ ← optional stringOf n
    return ⟨← defaulted true boolOf e, ← optional (vecOf stampVolume) v⟩
  | _ => none

def stampVolumes (typed : PodSpec) (spec : Json) : Option Json :=
  match typed.volumes with
  | none => some spec
  | some vols =>
    if vols.any Prod.snd then spec.setIdx "volumes" (.arr (vols.map Prod.fst)) else some spec

def stripSourceMode (src : Json) : Option Json :=
  match src.idx "downwardAPI" with
  | .obj fs => src.setIdx "downwardAPI" (.obj (Json.erase "defaultMode" fs))
  | _ => some src

def stripVolumeMode (vol : Json) : Option Json :=
  if ((vol.idx "projected").idx "sources").asArray?.isSome then
    vol.modifyIdx "projected" (fun p => p.modifyIdx "sources" (Json.mapItems stripSourceMode))
  else some vol

def defaultNull (k : String) (v : Json) (j : Json) : Option Json :=
  if j.idx k = .null then j.setIdx k v else some j

def defaultBlank (k : String) (v : Json) (j : Json) : Option Json :=
  if j.idx k = .null ∨ j.idx k = .str "" then j.setIdx k v else some j

def defaultText (k : String) (v : Json) (j : Json) : Option Json :=
  if (j.idx k).asStr?.getD "" = "" then j.setIdx k v else some j

def defaultZero (k : String) (n : ℕ) (j : Json) : Option Json :=
  if j.idx k = .null ∨ i64Of (j.idx k) = some 0 then j.setIdx k (.num (.posInt n)) else some j

def intJson (z : ℤ) : Json := .num (if z < 0 then .negInt z else .posInt z.toNat)

def passes : List (Json → Option Json) → Json → Option Json
  | [], j => some j
  | f :: fs, j => (f j).bind (passes fs)

def eachContainer (fields : List String) (f : Json → Option Json) : Json → Option Json :=
  passes (fields.map (fun k spec => spec.modifyIdx k (Json.mapItems f)))

def defaultRequest (r : Json) (limit : String × Json) : Option Json :=
  if (r.idx "requests").idx limit.1 = .null then r.modifyIdx "requests" (fun q => q.setIdx limit.1 limit.2)
  else some r

def requestsObject (r : Json) : Option Json :=
  match r.idx "requests" with
  | .obj _ => some r
  | _ => r.setIdx "requests" (.obj [])

def defaultRequests (c : Json) : Option Json :=
  match (c.idx "resources").idx "limits" with
  | .obj [] => some c
  | .obj limits => c.modifyIdx "resources" (fun r => (requestsObject r).bind (fun r => limits.foldlM defaultRequest r))
  | _ => some c

def defaultHostPort (port : Json) : Option Json :=
  if (i64Of (port.idx "hostPort")).getD 0 = 0 then
    match i64Of (port.idx "containerPort") with
    | some n => port.setIdx "hostPort" (intJson n)
    | none => some port
  else some port

def parseImageTag (image : String) : String :=
  let (nameAndTag, hasDigest) := match Text.splitOnce '@' image with
    | some (n, _) => (n, true)
    | none => (image, false)
  let last := (Text.rsplitOnce '/' nameAndTag).elim nameAndTag Prod.snd
  let tag := (Text.rsplitOnce ':' last).elim "" Prod.snd
  if tag = "" ∧ hasDigest = false then "latest" else tag

def pullPolicy (c : Json) : Json :=
  .str (if parseImageTag ((c.idx "image").asStr?.getD "") = "latest" then "Always" else "IfNotPresent")

def defaultFieldRef (var : Json) : Option Json :=
  match (var.idx "valueFrom").idx "fieldRef" with
  | .obj _ => var.modifyIdx "valueFrom" (fun v => v.modifyIdx "fieldRef" (defaultBlank "apiVersion" (.str "v1")))
  | _ => some var

def defaultProbe (k : String) (c : Json) : Option Json :=
  match c.idx k with
  | .obj _ => c.modifyIdx k (passes [defaultZero "periodSeconds" 10, defaultZero "timeoutSeconds" 1,
      defaultZero "successThreshold" 1, defaultZero "failureThreshold" 3])
  | _ => some c

def defaultContainer (c : Json) : Option Json :=
  passes [defaultBlank "terminationMessagePolicy" (.str "File"), defaultBlank "imagePullPolicy" (pullPolicy c),
    fun c => c.modifyIdx "env" (Json.mapItems defaultFieldRef),
    fun c => c.modifyIdx "ports" (Json.mapItems (defaultNull "protocol" (.str "TCP"))),
    defaultProbe "livenessProbe", defaultProbe "readinessProbe", defaultProbe "startupProbe"] c

def DEFAULT_SERVICE_ACCOUNT : String := "default"

def serviceAccountAlias (spec : Json) : String :=
  ((spec.idx "serviceAccount").asStr?.filter (fun s => s ≠ "")).getD DEFAULT_SERVICE_ACCOUNT

def defaultServiceAccount (spec : Json) : Option Json :=
  (defaultText "serviceAccountName" (.str (serviceAccountAlias spec)) spec).bind (fun spec =>
    spec.setIdx "serviceAccount" (spec.idx "serviceAccountName"))

def defaultHostPorts (spec : Json) : Option Json :=
  if boolOf (spec.idx "hostNetwork") = some true then
    eachContainer ["containers", "initContainers"]
      (fun c => c.modifyIdx "ports" (Json.mapItems defaultHostPort)) spec
  else some spec

def earlyDefaults (typed : PodSpec) : List (Json → Option Json) :=
  [defaultNull "enableServiceLinks" (.bool typed.enableServiceLinks),
    defaultNull "dnsPolicy" (.str "ClusterFirst"), defaultText "schedulerName" (.str "default-scheduler"),
    defaultText "restartPolicy" (.str "Always"), defaultNull "securityContext" (.obj []),
    defaultNull "terminationGracePeriodSeconds" (.num (.posInt 30))]

def lateDefaults : List (Json → Option Json) :=
  [fun spec => spec.modifyIdx "volumes" (Json.mapItems stripVolumeMode),
    eachContainer ["containers", "initContainers"] defaultRequests, defaultHostPorts,
    eachContainer containerFields defaultContainer]

def specDefaults (spec : Json) : Option Json :=
  let typed := (PodSpec.fromValue spec).getD {}
  passes (earlyDefaults typed ++ defaultServiceAccount :: stampVolumes typed :: lateDefaults) spec

def applyPodSpecDefaults (pod : Json) : Option Json := pod.modifyIdx "spec" specDefaults

def unscheduledCondition (now : String) : Json :=
  .obj [("lastTransitionTime", .str now), ("message", .str "pod not yet scheduled"),
    ("reason", .str "Unschedulable"), ("status", .str "False"), ("type", .str "PodScheduled")]

def defaultConditions (now : String) (status : Json) : Option Json :=
  let conditions := items (status.idx "conditions")
  if conditions.all (fun c => c.idx "type" ≠ .str "PodScheduled") then
    status.setIdx "conditions" (.arr (conditions ++ [unscheduledCondition now]))
  else some status

def statusDefaults (now : String) (status : Json) : Option Json :=
  let status := match status with
    | .obj fs => .obj fs
    | _ => Json.obj []
  passes [defaultNull "phase" (.str "Pending"), defaultConditions now] status

def applyPodCreateDefaults (now : String) (pod : Json) : Option Json :=
  (applyPodSpecDefaults pod).bind (fun pod => pod.modifyIdx "status" (statusDefaults now))

def clearCreateStatus : Json → Json
  | .obj fs => .obj (Json.erase "status" fs)
  | j => j

def defaultToleration (taint : String) : Json :=
  .obj [("effect", .str "NoExecute"), ("key", .str taint), ("operator", .str "Exists"),
    ("tolerationSeconds", .num (.posInt 300))]

def tolerates (tolerations : List Json) (taint : String) : Bool :=
  tolerations.any (fun t =>
    let key := (t.idx "key").asStr?.getD ""
    let effect := (t.idx "effect").asStr?.getD ""
    (key = taint || key = "") && (effect = "NoExecute" || effect = ""))

def tolerationDefaults (spec : Json) : Option Json :=
  let existing := items (spec.idx "tolerations")
  let missing := ["node.kubernetes.io/not-ready", "node.kubernetes.io/unreachable"].filter
    (fun taint => !tolerates existing taint)
  if missing = [] then some spec
  else spec.setIdx "tolerations" (.arr (existing ++ missing.map defaultToleration))

def applyDefaultTolerationSeconds (pod : Json) : Option Json :=
  match pod.idx "spec" with
  | .obj _ => pod.modifyIdx "spec" tolerationDefaults
  | _ => some pod

/-- `optsOut` says of a service account whether it is stored with the automount switched off. -/
def automountDefault (optsOut : String → Bool) (spec : Json) : Option Json :=
  if spec.idx "automountServiceAccountToken" ≠ .null then some spec
  else
    let sa := (spec.idx "serviceAccountName").asStr?.getD ""
    spec.setIdx "automountServiceAccountToken" (.bool (!(sa ≠ "" && optsOut sa)))

def applyAutomountSaTokenDefault (optsOut : String → Bool) (pod : Json) : Option Json :=
  pod.modifyIdx "spec" (automountDefault optsOut)

def ROOT_CA : String := "kube-root-ca.crt"

def tokenVolume (volName : String) : Json :=
  .obj [("name", .str volName), ("projected", .obj [("defaultMode", .num (.posInt 420)), ("sources", .arr [
    .obj [("serviceAccountToken", .obj [("expirationSeconds", .num (.posInt 3607)), ("path", .str "token")])],
    .obj [("configMap", .obj [("items", .arr [.obj [("key", .str "ca.crt"), ("path", .str "ca.crt")]]),
      ("name", .str ROOT_CA)])],
    .obj [("downwardAPI", .obj [("items", .arr [.obj [("fieldRef", .obj [("apiVersion", .str "v1"),
      ("fieldPath", .str "metadata.namespace")]), ("path", .str "namespace")]])])]])])]

def SA_MOUNT_PATH : String := "/var/run/secrets/kubernetes.io/serviceaccount"

def mountToken (volName : String) (c : Json) : Option Json :=
  let mounts := items (c.idx "volumeMounts")
  if mounts.any (fun m => m.idx "mountPath" = .str SA_MOUNT_PATH) then some c
  else c.setIdx "volumeMounts" (.arr (mounts ++
    [.obj [("mountPath", .str SA_MOUNT_PATH), ("name", .str volName), ("readOnly", .bool true)]]))

def injectToken (suffix : String) (spec : Json) : Option Json :=
  let volName := "kube-api-access-" ++ suffix
  let volumes := items (spec.idx "volumes")
  if (spec.idx "serviceAccountName").asStr?.getD "" = "" then some spec
  else if spec.idx "automountServiceAccountToken" = .bool false then some spec
  else if volumes.any (fun v => (v.idx "name").asStr?.any (fun n => Text.startsWith n "kube-api-access-")) then
    some spec
  else
    (spec.setIdx "volumes" (.arr (volumes ++ [tokenVolume volName]))).bind
      (eachContainer ["containers", "initContainers"] (mountToken volName))

def injectSaTokenVolume (suffix : String) (pod : Json) : Option Json := pod.modifyIdx "spec" (injectToken suffix)

structure CreateContext where
  ns : String
  name : String
  uid : String
  now : String
  optsOut : String → Bool
  suffix : String
  resourceVersion : ℕ

/-- The body that `create_pod_from_object` registers if no webhook changes it. The passes left out touch no reference
of a pod. -/
def registeredBody (ctx : CreateContext) (body : Json) : Option Json := do
  let body ← setMetadata body "name" (.str ctx.name)
  let body ← setMetadata body "namespace" (.str ctx.ns)
  let body ← setMetadata body "uid" (.str ctx.uid)
  let body ← setMetadata body "creationTimestamp" (.str ctx.now)
  let body ← applyPodCreateDefaults ctx.now (clearCreateStatus (pinServerOwnedDeletionFields body none))
  let body ← applyDefaultTolerationSeconds body
  let body ← setMetadata body "generation" (.num (.posInt 1))
  let body ← applyAutomountSaTokenDefault ctx.optsOut body
  let body ← injectSaTokenVolume ctx.suffix body
  let body ← applyPodCreateDefaults ctx.now (clearCreateStatus body)
  setResourceVersion body ctx.resourceVersion

end U7s.Node
