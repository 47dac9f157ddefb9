import U7s.Scheduler.Tally

/-! Which node a pod is reserved on, and which pods give way to it. What a node must meet besides room, ports and
exclusive claims is left to `Filters`. -/

namespace U7s.Scheduler

open List MachineInt

structure NodeItem where
  name : String
  podCapacity : ℕ
  cpu : ℤ
  memory : ℤ
  ephemeralStorage : ℤ
  extended : AList (fun _ : String => ℤ)

/-- Selectors, affinity, taints and bound volumes of a node, affinity between pods and topology spread, and the
attach limits and drivers of volumes. -/
structure Filters where
  qualifies : NodeItem → PendingPod → Bool
  selectable : NodeTally → NodeItem → PendingPod → Bool
  preemptable : NodeTally → NodeItem → PendingPod → Bool
  afterEviction : NodeTally → NodeItem → PendingPod → List Key → Bool
  attachable : NodeTally → NodeItem → PendingPod → Bool

def knownFits (cap used want : ℤ) : Bool := cap = 0 || addI64 used want ≤ cap

def resourceFits (node : NodeItem) (used requested : ResourceRequests) : Bool :=
  knownFits node.cpu used.cpuMilli requested.cpuMilli &&
    knownFits node.memory used.memoryMilli requested.memoryMilli &&
    knownFits node.ephemeralStorage used.ephemeralStorageMilli requested.ephemeralStorageMilli &&
    requested.extended.entries.all (fun e => e.2 = 0 ||
      addI64 ((used.extended.lookup e.1).getD 0) e.2 ≤ (node.extended.lookup e.1).getD 0)

def isWildcardHostIp (ip : String) : Bool := ip = "" || ip = "0.0.0.0"

def hostPortsConflict (a b : HostPortClaim) : Bool :=
  a.hostPort = b.hostPort && a.protocol = b.protocol &&
    (a.hostIp = b.hostIp || isWildcardHostIp a.hostIp || isWildcardHostIp b.hostIp)

def hostPortsFit (nodePorts podPorts : List HostPortClaim) : Bool :=
  !podPorts.any (fun want => nodePorts.any (fun used => hostPortsConflict used want))

def readWriteOncePodConflictFree (nodePvcNames rwopPvcs : List Key) : Bool :=
  !rwopPvcs.any (fun pvc => nodePvcNames.contains pvc)

def PendingPod.rwopPvcs (pod : PendingPod) : List Key := pod.readWriteOncePodPvcs.map (pvcKey pod.key.ns)

def roomFor (node : NodeItem) (podCount : ℕ) (used requested : ResourceRequests) : Bool :=
  (node.podCapacity = 0 || podCount < node.podCapacity) && resourceFits node used requested

section Selection

structure NodeUsage where
  podCount : ℕ
  requests : ResourceRequests
  hostPorts : List HostPortClaim
  pvcNames : List Key

def summedRequests (pods : List (Key × TalliedPod)) : ResourceRequests :=
  pods.foldl (fun acc p => acc.add p.2.requests) {}

def NodeTally.usageOf (t : NodeTally) (node : String) : NodeUsage :=
  let pods := t.onNode node
  ⟨pods.length, summedRequests pods, pods.flatMap (fun p => p.2.hostPorts), pods.flatMap (fun p => p.2.pvcNames)⟩

variable (F : Filters)

def accepts (t : NodeTally) (pod : PendingPod) (node : NodeItem) : Bool :=
  let usage := t.usageOf node.name
  F.qualifies node pod && roomFor node usage.podCount usage.requests pod.requests &&
    hostPortsFit usage.hostPorts pod.hostPorts && readWriteOncePodConflictFree usage.pvcNames pod.rwopPvcs &&
    F.selectable t node pod

def lighter (a b : NodeUsage) : Bool :=
  a.podCount < b.podCount || a.podCount = b.podCount &&
    (a.requests.cpuMilli < b.requests.cpuMilli || a.requests.cpuMilli = b.requests.cpuMilli &&
      (a.requests.memoryMilli < b.requests.memoryMilli || a.requests.memoryMilli = b.requests.memoryMilli &&
        a.requests.ephemeralStorageMilli < b.requests.ephemeralStorageMilli))

def leastLoaded (t : NodeTally) : List NodeItem → Option NodeItem
  | [] => none
  | node :: nodes =>
    match leastLoaded t nodes with
    | none => some node
    | some other => some (if lighter (t.usageOf other.name) (t.usageOf node.name) then other else node)

def selectNodeWithCapacity (nodes : List NodeItem) (t : NodeTally) (pod : PendingPod) : Option NodeItem :=
  leastLoaded t (nodes.filter (accepts F t pod))

def selectAndReserveNode (nodes : List NodeItem) (t : NodeTally) (pod : PendingPod) : Option (String × NodeTally) :=
  (selectNodeWithCapacity F nodes t pod).map (fun node => (node.name, t.assume pod node.name))

end Selection

section Preemption

def resourceShort (cap used want : ℤ) : Bool := cap ≠ 0 && addI64 used want > cap

def resourceDeficiencyRelevant (node : NodeItem) (total pending candidate : ResourceRequests) : Bool :=
  (resourceShort node.cpu total.cpuMilli pending.cpuMilli && candidate.cpuMilli > 0) ||
    (resourceShort node.memory total.memoryMilli pending.memoryMilli && candidate.memoryMilli > 0) ||
    (resourceShort node.ephemeralStorage total.ephemeralStorageMilli pending.ephemeralStorageMilli &&
      candidate.ephemeralStorageMilli > 0) ||
    pending.extended.entries.any (fun e => e.2 ≠ 0 &&
      addI64 ((total.extended.lookup e.1).getD 0) e.2 > (node.extended.lookup e.1).getD 0 &&
      (candidate.extended.lookup e.1).getD 0 > 0)

def evictUntilFits (node : NodeItem) (requested : ResourceRequests) :
    List (Key × TalliedPod) → ℕ → ResourceRequests → List Key × ℕ × ResourceRequests
  | [], count, used => ([], count, used)
  | p :: ps, count, used =>
    if roomFor node count used requested then ([], count, used)
    else
      let rest := evictUntilFits node requested ps (count - 1) (used.subtractRequests p.2.requests)
      (p.1 :: rest.1, rest.2)

def selectPreemptionVictims (pod : PendingPod) (nodePods : List (Key × TalliedPod)) (node : NodeItem) : List Key :=
  let total := summedRequests nodePods
  let countShort : Bool := node.podCapacity ≠ 0 && nodePods.length ≥ node.podCapacity
  let candidates := (nodePods.filter (fun p => p.2.priority < pod.priority &&
    (countShort || resourceDeficiencyRelevant node total pod.requests p.2.requests))).insertionSort
      (fun a b => a.2.priority ≤ b.2.priority)
  let (victims, count, used) := evictUntilFits node pod.requests candidates nodePods.length total
  if roomFor node count used pod.requests then victims else []

def readWriteOncePodPreemptionVictims (nodePods : List (Key × TalliedPod)) (rwopPvcs : List Key) (priority : ℤ) :
    Option (List Key) :=
  let conflicting := nodePods.filter (fun p => p.2.pvcNames.any (fun pvc => rwopPvcs.contains pvc))
  if conflicting.any (fun p => p.2.priority ≥ priority) then none else some (conflicting.map Prod.fst)

variable (F : Filters)

def victimsOn (seen labels : NodeTally) (pod : PendingPod) (node : NodeItem) : Option (List Key) :=
  if F.qualifies node pod && F.preemptable seen node pod then
    let nodePods := seen.podsOn node.name
    match readWriteOncePodPreemptionVictims nodePods pod.rwopPvcs pod.priority with
    | none => none
    | some holders =>
      let chosen := selectPreemptionVictims pod nodePods node
      let victims := chosen ++ holders.filter (fun v => !chosen.contains v)
      if victims ≠ [] ∧ F.afterEviction labels node pod victims then some victims else none
  else none

def findPreemptionCandidate (seen : String → NodeTally) (labels : NodeTally) (pod : PendingPod) :
    List NodeItem → Option (NodeItem × List Key) → Option (NodeItem × List Key)
  | [], best => best
  | node :: nodes, best =>
    match victimsOn F (seen node.name) labels pod node with
    | none => findPreemptionCandidate seen labels pod nodes best
    | some victims => findPreemptionCandidate seen labels pod nodes
        (if best.all (fun b => victims.length < b.2.length) then some (node, victims) else best)

def withoutVictims (current : List (Key × TalliedPod)) (victims : List Key) : ℕ × ResourceRequests :=
  victims.foldl (fun acc v =>
    match current.find? (fun p => p.1 = v) with
    | some p => (acc.1 - 1, acc.2.subtractRequests p.2.requests)
    | none => acc) (current.length, summedRequests current)

def verifyAndReservePreemption (t : NodeTally) (pod : PendingPod) (node : NodeItem) (victims : List Key) :
    Option NodeTally :=
  let left := withoutVictims (t.podsOn node.name) victims
  if roomFor node left.1 left.2 pod.requests && F.attachable t node pod then
    some ((t.assume pod node.name).claimVictims victims)
  else none

def findPreemptionPlan (nodes : List NodeItem) (seen : String → NodeTally) (labels t : NodeTally)
    (pod : PendingPod) : Option ((NodeItem × List Key) × NodeTally) := do
  let plan ← findPreemptionCandidate F seen labels pod nodes none
  let t ← verifyAndReservePreemption F t pod plan.1 plan.2
  return (plan, t)

def preemptionReservationStillFits (t : NodeTally) (pod : PendingPod) (node : NodeItem) : Bool :=
  let others := (t.podsOn node.name).filter (fun p => p.1 ≠ pod.key)
  roomFor node others.length (summedRequests others) pod.requests

end Preemption

theorem leastLoaded_mem (h : leastLoaded t nodes = some node) : node ∈ nodes := by
  induction nodes generalizing node with
  | nil => cases h
  | cons n nodes ih =>
    unfold leastLoaded at h
    split at h
    · cases h
      exact mem_cons_self
    · next other hother =>
      split_ifs at h
      · cases h
        exact mem_cons_of_mem n (ih hother)
      · cases h
        exact mem_cons_self

theorem selectAndReserveNode_some (h : selectAndReserveNode F nodes t pod = some (name, t')) :
    ∃ node ∈ nodes, node.name = name ∧ accepts F t pod node ∧ t' = t.assume pod name := by
  obtain ⟨node, hsel, heq⟩ := Option.map_eq_some_iff.mp h
  cases heq
  have hmem := mem_filter.mp (leastLoaded_mem hsel)
  exact ⟨node, hmem.1, rfl, hmem.2, rfl⟩

theorem accepts_room (h : accepts F t pod node) :
    roomFor node (t.onNode node.name).length (summedRequests (t.onNode node.name)) pod.requests := by
  simp only [accepts, Bool.and_eq_true] at h
  exact h.1.1.1.2

theorem accepts_exclusive (h : accepts F t pod node) (hp : t.cache.lookup key = some p)
    (hn : p.nodeName = node.name) : ∀ pvc ∈ pod.rwopPvcs, pvc ∉ p.pvcNames := by
  simp only [accepts, Bool.and_eq_true, readWriteOncePodConflictFree, Bool.not_eq_true', any_eq_false] at h
  intro pvc hpvc hmem
  have hall := h.1.2 pvc hpvc
  refine hall ?_
  rw [contains_iff_mem]
  exact mem_flatMap.mpr ⟨(key, p), NodeTally.mem_onNode.mpr ⟨hp, hn⟩, hmem⟩

theorem findPreemptionCandidate_some
    (h : findPreemptionCandidate F seen labels pod nodes best = some (node, victims)) :
    best = some (node, victims) ∨ node ∈ nodes ∧ victimsOn F (seen node.name) labels pod node = some victims := by
  induction nodes generalizing best with
  | nil => exact Or.inl h
  | cons n nodes ih =>
    unfold findPreemptionCandidate at h
    split at h
    · obtain hb | ⟨hmem, hv⟩ := ih h
      · exact Or.inl hb
      · exact Or.inr ⟨mem_cons_of_mem n hmem, hv⟩
    · next vs hvs =>
      obtain hb | ⟨hmem, hv⟩ := ih h
      · split_ifs at hb
        · cases hb
          exact Or.inr ⟨mem_cons_self, hvs⟩
        · exact Or.inl hb
      · exact Or.inr ⟨mem_cons_of_mem n hmem, hv⟩

theorem victimsOn_some (h : victimsOn F t labels pod node = some victims) :
    victims ≠ [] ∧ ∀ key p, (key, p) ∈ t.podsOn node.name → ∀ pvc ∈ pod.rwopPvcs, pvc ∈ p.pvcNames →
      key ∈ victims := by
  unfold victimsOn at h
  dsimp only at h
  split_ifs at h
  split at h
  · cases h
  · next holders hholders =>
    split_ifs at h with hne
    cases h
    refine ⟨hne.1, fun key p hp pvc hpvc hmem => ?_⟩
    unfold readWriteOncePodPreemptionVictims at hholders
    dsimp only at hholders
    split_ifs at hholders
    cases hholders
    have hconf : key ∈ ((t.podsOn node.name).filter
        (fun p => p.2.pvcNames.any (fun pvc => pod.rwopPvcs.contains pvc))).map Prod.fst := by
      refine mem_map.mpr ⟨(key, p), mem_filter.mpr ⟨hp, ?_⟩, rfl⟩
      exact any_eq_true.mpr ⟨pvc, hmem, contains_iff_mem.mpr hpvc⟩
    rw [mem_append, mem_filter]
    by_cases hchosen : key ∈ selectPreemptionVictims pod (t.podsOn node.name) node
    · exact Or.inl hchosen
    · exact Or.inr ⟨hconf, by simpa using hchosen⟩

theorem findPreemptionPlan_some (h : findPreemptionPlan F nodes seen labels t pod = some (plan, t')) :
    plan.1 ∈ nodes ∧ victimsOn F (seen plan.1.name) labels pod plan.1 = some plan.2 ∧
      t' = (t.assume pod plan.1.name).claimVictims plan.2 := by
  obtain ⟨p, hp, h⟩ := Option.bind_eq_some_iff.mp h
  obtain ⟨t'', hv, h⟩ := Option.bind_eq_some_iff.mp h
  cases h
  obtain hb | ⟨hmem, hvict⟩ := findPreemptionCandidate_some hp
  · cases hb
  · unfold verifyAndReservePreemption at hv
    dsimp only at hv
    split_ifs at hv
    cases hv
    exact ⟨hmem, hvict, rfl⟩

end U7s.Scheduler
