import U7s.Handlers.Resource

namespace U7s.Handlers

open Store Programs Fallible
open Rbac (structFields vecOf stringOf defaulted required)

variable {β : Type} (codec : JsonCodec β)

structure LabelSelectorRequirement where
  key : String
  operator : String
  values : List String

def LabelSelectorRequirement.fromValue (j : Json) : Option LabelSelectorRequirement := do
  match ← structFields ["key", "operator", "values"] j with
  | [k, o, v] => return ⟨← required stringOf k, ← required stringOf o, ← defaulted [] (vecOf stringOf) v⟩
  | _ => none

structure LabelSelector where
  matchLabels : List (String × String) := []
  matchExpressions : List LabelSelectorRequirement := []

def LabelSelector.fromValue (j : Json) : Option LabelSelector := do
  match ← structFields ["matchLabels", "matchExpressions"] j with
  | [l, e] =>
    return ⟨← defaulted [] (mapOf stringOf) l, ← defaulted [] (vecOf LabelSelectorRequirement.fromValue) e⟩
  | _ => none

def LabelSelectorRequirement.holds (req : LabelSelectorRequirement) (labels : List (String × String)) : Bool :=
  let value := labels.lookup req.key
  if req.operator = "Exists" then value.isSome
  else if req.operator = "DoesNotExist" then value.isNone
  else if req.operator = "In" then value.isSome && req.values.any (fun v => some v = value)
  else if req.operator = "NotIn" then value.isNone || req.values.all (fun v => some v ≠ value)
  else false

def labelSelectorMatches (sel : LabelSelector) (labels : List (String × String)) : Bool :=
  sel.matchLabels.all (fun l => labels.lookup l.1 = some l.2) &&
    sel.matchExpressions.all (fun req => req.holds labels)

def podLabels (pod : Json) : List (String × String) :=
  match (pod.idx "metadata").idx "labels" with
  | .obj fs => fs.filterMap (fun m => m.2.asStr?.map (fun s => (m.1, s)))
  | _ => []

def selectsPod (pdb : Json) (labels : List (String × String)) : Bool :=
  let selector := (pdb.idx "spec").idx "selector"
  selector ≠ .null && labelSelectorMatches ((LabelSelector.fromValue selector).getD {}) labels

def matchingBudgets (items : List (String × Row β)) (labels : List (String × String)) :
    List (String × Json) :=
  (items.filterMap (fun p => (codec.fromSlice p.2.value).map (fun pdb => (p.1, pdb)))).filter
    (fun p => selectsPod p.2 labels)

def isPodReady (pod : Json) : Bool :=
  ((pod.idx "status").idx "conditions").asArray?.any (fun conditions => conditions.any (fun c =>
    c.idx "type" = .str "Ready" && c.idx "status" = .str "True"))

def i64OrZero (j : Json) : ℤ := (i64Of j).getD 0

def MAX_PDB_DECREMENT_ATTEMPTS : ℕ := 10

def MAX_DISRUPTED_POD_SIZE : ℕ := 2000

def disruptionsAllowed (pdb : Json) : ℤ := i64OrZero ((pdb.idx "status").idx "disruptionsAllowed")

def violatesBudget : String := "Cannot evict pod as it would violate the pod's disruption budget."

def disruptedPods (status : Json) : List (String × Json) :=
  match status.idx "disruptedPods" with
  | .obj fs => fs
  | _ => []

def spentStatus (status : Json) (left : ℤ) (podName now : String) : Option Json := do
  let status ← status.setIdx "disruptionsAllowed" (.num (if left < 0 then .negInt left else .posInt left.toNat))
  status.setIdx "disruptedPods" (.obj (Json.insert podName (.str now) (disruptedPods status)))

def decrementPdbDisruptionsAllowed (pdb : Json) (podName now : String) : Except Failure Json :=
  let status := pdb.idx "status"
  let name := ((pdb.idx "metadata").idx "name").asStr?.getD ""
  if i64OrZero (status.idx "observedGeneration") < i64OrZero ((pdb.idx "metadata").idx "generation") then
    .error (.tooManyRequestsWithCause violatesBudget "DisruptionBudget"
      s!"The disruption budget {name} is still being processed by the server.")
  else if (disruptedPods status).length > MAX_DISRUPTED_POD_SIZE then
    .error (.forbidden "DisruptedPods map too big - too many evictions not confirmed by PDB controller")
  else if disruptionsAllowed pdb ≤ 0 then
    .error (.tooManyRequestsWithCause violatesBudget "DisruptionBudget" violatesBudget)
  else
    panicOn ((spentStatus status (disruptionsAllowed pdb - 1) podName now).bind
      (fun status => pdb.setIdx "status" status))

def bypassesBudget (pod pdb : Json) : Bool :=
  let status := pdb.idx "status"
  !isPodReady pod && ((pdb.idx "spec").idx "unhealthyPodEvictionPolicy" = .str "AlwaysAllow" ||
    (i64OrZero (status.idx "desiredHealthy") > 0 &&
      i64OrZero (status.idx "currentHealthy") ≥ i64OrZero (status.idx "desiredHealthy")))

structure EvictRequest where
  name : String
  dryRun : Bool
  now : String
  admission : Except Failure Json

def podName (pod : Json) : String := ((pod.idx "metadata").idx "name").asStr?.getD ""

def spendAttempt (q : EvictRequest) (pod : Json) (key : String) (pdb : Json) (conflict : Handler β Unit) :
    Handler β Unit := do
  let updated ← attempt (decrementPdbDisruptionsAllowed pdb (podName pod) q.now)
  if q.dryRun then return ()
  let expected ← attempt (parseResourceVersion (resourceVersion pdb))
  match ← storePut key (codec.toVec updated) expected with
  | .ok _ => pure ()
  | .error (.revisionMismatch _ _) => conflict
  | .error e => throw (.store e)

def spendLoop (q : EvictRequest) (pod : Json) (key : String) : ℕ → Json → Handler β Unit
  | 0, pdb =>
    let name := ((pdb.idx "metadata").idx "name").asStr?.getD ""
    spendAttempt codec q pod key pdb (throw (.conflict
      s!"couldn't update PodDisruptionBudget \"{name}\" due to repeated write conflicts"))
  | n + 1, pdb => spendAttempt codec q pod key pdb (do
      match ← storeGet key with
      | .ok (some row) => spendLoop q pod key n ((codec.fromSlice row.value).getD pdb)
      | _ => spendLoop q pod key n pdb)

def budgetPrefix (ns : String) : String := groupListPrefix "policy" "poddisruptionbudgets" (some ns)

def spendMatching (q : EvictRequest) (pod : Json) : List (String × Json) → Handler β Unit
  | [] => pure ()
  | [(key, pdb)] =>
    if bypassesBudget pod pdb then pure ()
    else spendLoop codec q pod key (MAX_PDB_DECREMENT_ATTEMPTS - 1) pdb
  | _ => throw (.internalActionable
    "This pod has more than one PodDisruptionBudget, which the eviction subresource does not support.")

def checkPdbAllowsEviction (ns : String) (q : EvictRequest) (pod : Json) : Handler β Unit := do
  match ← storeList (budgetPrefix ns) with
  | .error _ => pure ()
  | .ok items => spendMatching codec q pod (matchingBudgets codec items (podLabels pod))

def withCondition (conditions : List Json) (cond : Json) : List Json :=
  match conditions with
  | [] => [cond]
  | c :: cs => if c.idx "type" = .str "DisruptionTarget" then cond :: cs else c :: withCondition cs cond

def setDisruptionTargetCondition (pod : Json) (now reason message : String) : Option Json :=
  let cond := Json.obj [("lastTransitionTime", .str now), ("message", .str message), ("reason", .str reason),
    ("status", .str "True"), ("type", .str "DisruptionTarget")]
  let status := match pod.idx "status" with
    | .obj fs => fs
    | _ => []
  let conditions := match (Json.obj status).idx "conditions" with
    | .arr cs => withCondition cs cond
    | _ => [cond]
  pod.setIdx "status" (.obj (Json.insert "conditions" (.arr conditions) status))

def markEvicted (now : String) (pod : Json) : Except Failure Json := do
  let stamped ← panicOn (setMetadata pod "deletionTimestamp" (.str now))
  panicOn (setDisruptionTargetCondition stamped now "EvictionByEvictionAPI" "Eviction API: evicting pod")

def podTarget (ns name : String) : Target := ⟨"", "v1", "pods", some ns, name, "Pod"⟩

def storeEvicted (ns : String) (q : EvictRequest) (pod : Json) : Handler β Unit := do
  let t := podTarget ns q.name
  let marked ← attempt (markEvicted q.now pod)
  let expected ← attempt (parseResourceVersion (resourceVersion marked))
  let _ ← attempt (t.report (← storePut t.key (codec.toVec marked) expected))

def removeEvicted (ns : String) (q : EvictRequest) : Handler β Unit := do
  let t := podTarget ns q.name
  let _ ← attempt (t.report (← storeDelete t.key none))

def evictStored (ns : String) (q : EvictRequest) (pod : Json) : Handler β Unit :=
  let terminating := (objectMeta pod).deletionTimestamp.isSome
  if terminating && !nonEmpty (objectMeta pod).finalizers then unlessDryRun q.dryRun (removeEvicted ns q)
  else if !terminating then do
    checkPdbAllowsEviction codec ns q pod
    unlessDryRun q.dryRun (storeEvicted codec ns q pod)
  else pure ()

def requireNamespace (ns : String) : Handler β Unit := do
  match ← storeGet (clusterObjectKey "namespaces" ns) with
  | .error e => throw (.store e)
  | .ok none => throw (.notFound "" "namespaces" ns)
  | .ok (some _) => pure ()

def ensureNamespaceAcceptsCreates (ns : String) : Handler β Unit := do
  match ← storeGet (clusterObjectKey "namespaces" ns) with
  | .error e => throw (.store e)
  | .ok none => throw (.namespaceCreateRejected ns .namespaceNotFound)
  | .ok (some row) =>
    if (codec.fromSlice row.value).any (fun b => (b.idx "status").idx "phase" = .str "Terminating") then
      throw (.namespaceCreateRejected ns .namespaceTerminating)
    else pure ()

def evictPod (ns : String) (q : EvictRequest) : Handler β Json := do
  requireNamespace ns
  ensureNamespaceAcceptsCreates codec ns
  let pod ← attempt (fromBytes codec (← loadStored (podTarget ns q.name)))
  let eviction ← attempt q.admission
  evictStored codec ns q pod
  return eviction

def EvictRequest.program (ns : String) (q : EvictRequest) : Request β := (evictPod codec ns q).run

end U7s.Handlers
