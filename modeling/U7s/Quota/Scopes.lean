import U7s.Json
import U7s.Lib.MachineInt
import U7s.Lib.Tables

namespace U7s.Quota

open MachineInt

inductive Entry where
  | pods
  | countPods
  | cpu
  | requestsCpu
  | memory
  | requestsMemory
deriving DecidableEq

instance Entry.fintype : Fintype Entry :=
  ⟨{.pods, .countPods, .cpu, .requestsCpu, .memory, .requestsMemory}, by intro e; cases e <;> decide⟩

def Entry.toPodResource : Entry → Option String
  | .pods | .countPods => none
  | .cpu | .requestsCpu => some "cpu"
  | .memory | .requestsMemory => some "memory"

/-- Counts are `u64`, thousandths are `i64`. -/
def Entry.bound (e : Entry) : ℤ := if e.toPodResource.isSome then 2 ^ 63 else 2 ^ 64

def Entry.isBytes : Entry → Bool
  | .memory | .requestsMemory => true
  | _ => false

structure ResourceQuota where
  name : String
  scopes : Json
  scopeSelector : Json
  hard : AList (fun _ : Entry => ℤ)

def isObject : Json → Bool
  | .obj _ => true
  | _ => false

def arrayOf (j : Json) : List Json := j.asArray?.getD []

def nonEmptyObject : Json → Bool
  | .obj fs => !fs.isEmpty
  | _ => false

def containersOf (pod : Json) : List Json :=
  ["containers", "initContainers"].flatMap (fun key => arrayOf ((pod.idx "spec").idx key))

def podIsBestEffort (pod : Json) : Bool :=
  !(containersOf pod).any (fun c =>
    nonEmptyObject ((c.idx "resources").idx "requests") || nonEmptyObject ((c.idx "resources").idx "limits"))

def podIsTerminating (pod : Json) : Bool :=
  match (pod.idx "spec").idx "activeDeadlineSeconds" with
  | .num _ => true
  | _ => false

def affinityTermIsCrossNamespace (term : Json) : Bool :=
  !(arrayOf (term.idx "namespaces")).isEmpty || isObject (term.idx "namespaceSelector")

def podUsesCrossNamespaceAffinity (pod : Json) : Bool :=
  ["podAffinity", "podAntiAffinity"].any (fun kind =>
    let terms := ((pod.idx "spec").idx "affinity").idx kind
    (arrayOf (terms.idx "requiredDuringSchedulingIgnoredDuringExecution")).any affinityTermIsCrossNamespace ||
      (arrayOf (terms.idx "preferredDuringSchedulingIgnoredDuringExecution")).any
        (fun w => affinityTermIsCrossNamespace (w.idx "podAffinityTerm")))

def objectMatchesScope (scope : String) (pod : Json) : Bool :=
  if scope = "BestEffort" then podIsBestEffort pod
  else if scope = "NotBestEffort" then !podIsBestEffort pod
  else if scope = "Terminating" then podIsTerminating pod
  else if scope = "NotTerminating" then !podIsTerminating pod
  else if scope = "CrossNamespacePodAffinity" then podUsesCrossNamespaceAffinity pod
  else if scope = "PriorityClass" then ((pod.idx "spec").idx "priorityClassName").asStr?.any (fun s => s ≠ "")
  else true

def podMatchesPriorityClass (pod : Json) (values : List String) : Bool :=
  ((pod.idx "spec").idx "priorityClassName").asStr?.any (fun pc => values.contains pc)

def matchesExpression (pod expr : Json) : Bool :=
  let scopeName := (expr.idx "scopeName").asStr?.getD ""
  let operator := (expr.idx "operator").asStr?.getD ""
  if operator = "Exists" then objectMatchesScope scopeName pod
  else if operator = "DoesNotExist" then !objectMatchesScope scopeName pod
  else if (operator = "In" ∨ operator = "NotIn") ∧ scopeName = "PriorityClass" then
    let inValues := podMatchesPriorityClass pod ((arrayOf (expr.idx "values")).filterMap Json.asStr?)
    if operator = "In" then inValues else !inValues
  else true

def objectMatchesScopeSelector (scopeSelector pod : Json) : Bool :=
  (arrayOf (scopeSelector.idx "matchExpressions")).all (matchesExpression pod)

def quotaHasPodScopes (q : ResourceQuota) : Bool :=
  !(arrayOf q.scopes).isEmpty || !(arrayOf (q.scopeSelector.idx "matchExpressions")).isEmpty

def podMatchesQuotaScope (q : ResourceQuota) (pod : Json) : Bool :=
  ((arrayOf q.scopes).filterMap Json.asStr?).all (fun s => objectMatchesScope s pod) &&
    (!isObject q.scopeSelector || objectMatchesScopeSelector q.scopeSelector pod)

theorem podMatchesQuotaScope_of_noScopes (h : quotaHasPodScopes q = false) (pod : Json) :
    podMatchesQuotaScope q pod := by
  simp only [quotaHasPodScopes, Bool.or_eq_false_iff, Bool.not_eq_false', List.isEmpty_iff] at h
  simp [podMatchesQuotaScope, objectMatchesScopeSelector, h.1, h.2]

section Usage

variable (parseQuantityMilli : String → Option ℤ)

def quantityAt (j : Json) : ℤ := (j.asStr?.bind parseQuantityMilli).getD 0

def containerQuantities (pod : Json) (field resource : String) : List ℤ :=
  (containersOf pod).map (fun c => quantityAt parseQuantityMilli (((c.idx "resources").idx field).idx resource))

def overheadQuantity (pod : Json) (resource : String) : ℤ :=
  quantityAt parseQuantityMilli (((pod.idx "spec").idx "overhead").idx resource)

def podResourceMilli (pod : Json) (field resource : String) : ℤ :=
  let total := (containerQuantities parseQuantityMilli pod field resource).foldl addI64 0
  if field = "requests" ∨ total > 0 then addI64 total (overheadQuantity parseQuantityMilli pod resource) else total

/-- What a pod takes of an entry, in exact numbers. -/
def contribution (e : Entry) (pod : Json) : ℤ :=
  match e.toPodResource with
  | none => 1
  | some resource => (containerQuantities parseQuantityMilli pod "requests" resource).sum +
      overheadQuantity parseQuantityMilli pod resource

abbrev Pods := AList (fun _ : String => Json)

def podList (pods : Pods) : List Json := pods.entries.map (fun e => e.2)

def countScopeFilteredPods (q : ResourceQuota) (pods : Pods) : ℤ :=
  ((podList pods).filter (podMatchesQuotaScope q)).length

def sumPodResourceMilli (q : ResourceQuota) (pods : Pods) (resource : String) : ℤ :=
  (((podList pods).filter (podMatchesQuotaScope q)).map
    (fun pod => podResourceMilli parseQuantityMilli pod "requests" resource)).foldl addI64 0

def scan (q : ResourceQuota) (pods : Pods) (e : Entry) : ℤ :=
  match e.toPodResource with
  | none => if quotaHasPodScopes q then countScopeFilteredPods q pods else (podList pods).length
  | some resource => sumPodResourceMilli parseQuantityMilli q pods resource

def share (q : ResourceQuota) (e : Entry) (pod : Json) : ℤ :=
  if podMatchesQuotaScope q pod then contribution parseQuantityMilli e pod else 0

def total (q : ResourceQuota) (pods : Pods) (e : Entry) : ℤ := Tables.weight pods (fun _ => share parseQuantityMilli q e)

variable {parseQuantityMilli}

theorem share_of_matches (h : podMatchesQuotaScope q pod) :
    share parseQuantityMilli q e pod = contribution parseQuantityMilli e pod := if_pos h

theorem sum_filter (pods : List Json) (f : Json → ℤ) :
    ((pods.filter (podMatchesQuotaScope q)).map f).sum =
      (pods.map (fun pod => if podMatchesQuotaScope q pod then f pod else 0)).sum := by
  induction pods with
  | nil => rfl
  | cons pod pods ih =>
    rw [List.map_cons, List.sum_cons, ← ih, List.filter_cons]
    split_ifs
    · rw [List.map_cons, List.sum_cons]
    · rw [zero_add]

theorem total_eq (q : ResourceQuota) (pods : Pods) (e : Entry) : total parseQuantityMilli q pods e =
    (((podList pods).filter (podMatchesQuotaScope q)).map (contribution parseQuantityMilli e)).sum := by
  rw [sum_filter, podList, List.map_map]
  rfl

theorem podResourceMilli_eq (hr : e.toPodResource = some resource) (pod : Json) :
    podResourceMilli parseQuantityMilli pod "requests" resource =
      (contribution parseQuantityMilli e pod).bmod (2 ^ 64) := by
  have hsum := foldl_addI64 (containerQuantities parseQuantityMilli pod "requests" resource) 0
  rw [Int.zero_bmod, zero_add] at hsum
  simp only [podResourceMilli, contribution, hr, hsum, true_or, if_true, addI64, Int.bmod_add_bmod]

theorem foldl_podResourceMilli (hr : e.toPodResource = some resource) (pods : List Json) :
    (pods.map (fun pod => podResourceMilli parseQuantityMilli pod "requests" resource)).foldl addI64 0 =
      (pods.map (contribution parseQuantityMilli e)).sum.bmod (2 ^ 64) := by
  have hsum : ∀ a, (pods.map (fun pod => podResourceMilli parseQuantityMilli pod "requests" resource)).foldl addI64
      (a.bmod (2 ^ 64)) = (a + (pods.map (contribution parseQuantityMilli e)).sum).bmod (2 ^ 64) := by
    induction pods with
    | nil => simp
    | cons pod pods ih =>
      intro a
      rw [List.map_cons, List.foldl_cons, podResourceMilli_eq hr, addI64, Int.bmod_add_bmod, Int.add_bmod_bmod, ih,
        List.map_cons, List.sum_cons, add_assoc]
  simpa using hsum 0

theorem scan_eq_total (hnonneg : 0 ≤ total parseQuantityMilli q pods e)
    (hbound : total parseQuantityMilli q pods e < e.bound) :
    scan parseQuantityMilli q pods e = total parseQuantityMilli q pods e := by
  rw [total_eq] at hnonneg hbound ⊢
  unfold scan
  cases hr : e.toPodResource with
  | none =>
    have hone : contribution parseQuantityMilli e = fun _ => 1 := by
      funext pod
      simp [contribution, hr]
    rw [hone]
    cases hs : quotaHasPodScopes q with
    | true => simp [countScopeFilteredPods]
    | false =>
      rw [List.filter_eq_self.mpr (fun pod _ => podMatchesQuotaScope_of_noScopes hs pod)]
      simp
  | some resource =>
    simp only [Entry.bound, hr, Option.isSome_some, if_true] at hbound
    simp only [sumPodResourceMilli, foldl_podResourceMilli hr]
    exact bmod_of_fits (by omega) hbound

end Usage

end U7s.Quota
