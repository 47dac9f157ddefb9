import U7s.Scheduler.Spread
import U7s.Scheduler.Victims

/-! The predicates of direct scheduling and of the search for a preemption, and what a plan promises of its node. -/

namespace U7s.Scheduler

open List Option

open Tables (bump bumpBy)

inductive Effect where
  | noSchedule
  | noExecute
  | other
deriving DecidableEq

structure Taint where
  key : String
  value : String
  effect : Effect

inductive TolerationOperator where
  | exists
  | other
deriving DecidableEq

structure Toleration where
  key : Option String
  operator : Option TolerationOperator
  value : Option String
  effect : Option Effect

def tolerationMatchesTaint (tol : Toleration) (taint : Taint) : Bool :=
  tol.effect.all (fun e => e = taint.effect) &&
    match tol.key with
    | none => tol.operator = some .exists
    | some key => key = taint.key && (tol.operator = some .exists || tol.value.getD "" = taint.value)

def nodeTaintsTolerated (taints : List Taint) (tolerations : List Toleration) : Bool :=
  (taints.filter (fun t => t.effect = .noSchedule || t.effect = .noExecute)).all (fun t =>
    tolerations.any (fun tol => tolerationMatchesTaint tol t))

def nodeSelectorMatches (labels selector : Labels) : Bool := selector.all (fun e => labels.lookup e.1 = some e.2)

structure NodeSelectorTerm where
  matchExpressions : List NodeSelectorRequirement
  matchFields : List NodeSelectorRequirement

abbrev NodeSelectorSpec := List NodeSelectorTerm

def nodeSelectorSpecMatches (labels : Labels) (nodeName : String) : Option NodeSelectorSpec → Bool
  | none => true
  | some terms => terms.isEmpty || terms.any (fun term =>
      term.matchExpressions.all (nodeSelectorRequirementMatches labels) &&
        term.matchFields.all (nodeSelectorRequirementMatches [("metadata.name", nodeName)]))

structure NodeDetails where
  labels : Labels
  taints : List Taint
  unschedulable : Bool

structure Constraints where
  nodeSelector : Labels
  tolerations : List Toleration
  nodeAffinity : Option NodeSelectorSpec
  podAffinityTerms : List PodAffinityTerm
  podAntiAffinityTerms : List PodAffinityTerm
  pvNodeAffinities : List NodeSelectorSpec
  topologySpreadConstraints : List TopologySpreadConstraint
  csiVolumeCounts : AList (fun _ : String => ℤ)
  unboundCsiPvcDrivers : List String

def nodeQualifiesForPod (d : NodeDetails) (nodeName : String) (c : Constraints) : Bool :=
  nodeSelectorMatches d.labels c.nodeSelector && nodeSelectorSpecMatches d.labels nodeName c.nodeAffinity &&
    nodeTaintsTolerated d.taints c.tolerations &&
    (!d.unschedulable || c.tolerations.any (fun tol =>
      tolerationMatchesTaint tol ⟨"node.kubernetes.io/unschedulable", "", .noSchedule⟩)) &&
    c.pvNodeAffinities.all (fun selector => nodeSelectorSpecMatches d.labels nodeName (some selector))

section Volumes

structure PvcVolumeInfo where
  volumeName : String
  storageClassName : Option String

structure CsiCaches where
  pvcs : AList (fun _ : Key => PvcVolumeInfo)
  pvCsiDrivers : AList (fun _ : String => String)
  scProvisioners : AList (fun _ : String => String)
  csiNodeLimits : AList (fun _ : String => AList (fun _ : String => ℤ))
  csiNodeDrivers : AList (fun _ : String => Finset String)
  csiPreventScheduling : Finset String

variable (caches : CsiCaches)

def resolveCsiDriver (pvc : Key) : Option String := do
  let info ← caches.pvcs.lookup pvc
  let bound := if info.volumeName ≠ "" then caches.pvCsiDrivers.lookup info.volumeName else none
  bound.orElse (fun _ => info.storageClassName.bind (fun sc => caches.scProvisioners.lookup sc))

def countCsiVolumes (pvcNames : List Key) : AList (fun _ : String => ℤ) :=
  (pvcNames.dedup.filterMap (resolveCsiDriver caches)).foldl bump ∅

def attachedCounts (pods : List (Key × TalliedPod)) : AList (fun _ : String => ℤ) :=
  (pods.flatMap (fun p => (countCsiVolumes caches p.2.pvcNames).entries)).foldl bumpBy ∅

def NodeTally.indexedOn (t : NodeTally) (node : String) : List (Key × TalliedPod) :=
  (t.cache.pods.entries.map (fun e => (e.1, e.2))).filter (fun p => p.1 ∈ (t.cache.byNode.lookup node).getD ∅)

def netCsiHeadroom (limits : Option (AList (fun _ : String => ℤ))) (attached : AList (fun _ : String => ℤ))
    (driver : String) : Option ℤ :=
  limits.bind (fun m => (m.lookup driver).map (fun limit => limit - (attached.lookup driver).getD 0))

def csiVolumeLimitsFit (headroom : String → Option ℤ) (counts : AList (fun _ : String => ℤ)) : Bool :=
  counts.entries.all (fun e => (headroom e.1).all (fun h => e.2 ≤ h))

def Constraints.neededCsiDrivers (c : Constraints) : List String := c.unboundCsiPvcDrivers ++ c.csiVolumeCounts.keys

def missingRequiredCsiDriver (registered prevent : Finset String) (drivers : List String) : Option String :=
  drivers.find? (fun d => d ∈ prevent && d ∉ registered)

def freshCsiHeadroomForNode (t : NodeTally) (node : String) : String → Option ℤ :=
  netCsiHeadroom (caches.csiNodeLimits.lookup node) (attachedCounts caches (t.indexedOn node))

def freshCsiRegisteredDriversForNode (node : String) : Finset String := (caches.csiNodeDrivers.lookup node).getD ∅

end Volumes

structure Surroundings where
  nodes : List NodeItem
  names : (nodes.map NodeItem.name).Nodup
  details : NodeItem → NodeDetails
  constraintsOf : PendingPod → Constraints
  caches : CsiCaches

def NodeTally.talliedPodLabels (t : NodeTally) : List TalliedPodLabels :=
  t.cache.pods.entries.map (fun e => ⟨e.1, e.2.nodeName, e.2.labels⟩)

namespace Surroundings

variable (s : Surroundings)

def nodeLabelsByName : NodeLabels := (s.nodes.map (fun n => ⟨n.name, (s.details n).labels⟩)).toAList

def affinityCtx (t : NodeTally) (pod : PendingPod) : InterPodAffinityContext :=
  .build ⟨pod.key.ns, pod.labels, (s.constraintsOf pod).podAffinityTerms, (s.constraintsOf pod).podAntiAffinityTerms⟩
    t.talliedPodLabels s.nodeLabelsByName

def topologyCtx (t : NodeTally) (pod : PendingPod) : TopologySpreadContext :=
  .build ⟨pod.key.ns, pod.labels, (s.constraintsOf pod).topologySpreadConstraints⟩ t.talliedPodLabels
    s.nodeLabelsByName

def volumesSelectable (t : NodeTally) (node : NodeItem) (pod : PendingPod) : Bool :=
  let c := s.constraintsOf pod
  let headroom := if c.csiVolumeCounts.entries.isEmpty then fun _ => none
    else netCsiHeadroom (s.caches.csiNodeLimits.lookup node.name) (attachedCounts s.caches (t.onNode node.name))
  let registered := if c.neededCsiDrivers.isEmpty then ∅ else (s.caches.csiNodeDrivers.lookup node.name).getD ∅
  let prevent := if c.neededCsiDrivers.isEmpty then ∅ else s.caches.csiPreventScheduling
  csiVolumeLimitsFit headroom c.csiVolumeCounts &&
    (missingRequiredCsiDriver registered prevent c.neededCsiDrivers).isNone

def csiFits (t : NodeTally) (node : NodeItem) (pod : PendingPod) : Bool :=
  (s.constraintsOf pod).csiVolumeCounts.entries.isEmpty ||
    csiVolumeLimitsFit (freshCsiHeadroomForNode s.caches t node.name) (s.constraintsOf pod).csiVolumeCounts

def topologyFits (node : NodeItem) (pod : PendingPod) : Bool :=
  (s.constraintsOf pod).neededCsiDrivers.isEmpty ||
    (missingRequiredCsiDriver (freshCsiRegisteredDriversForNode s.caches node.name) s.caches.csiPreventScheduling
      (s.constraintsOf pod).neededCsiDrivers).isNone

def filters : Filters where
  qualifies node pod := nodeQualifiesForPod (s.details node) node.name (s.constraintsOf pod)
  selectable t node pod := (s.affinityCtx t pod).nodeQualifies (s.details node).labels &&
    (s.topologyCtx t pod).nodeQualifies (s.details node).labels && s.volumesSelectable t node pod
  preemptable t node pod := s.csiFits t node pod && s.topologyFits node pod
  afterEviction t node pod victims :=
    let victimPods := t.talliedPodLabels.filter (fun p => victims.contains p.key)
    (s.affinityCtx t pod).nodeQualifiesExcludingVictims (s.details node).labels victimPods &&
      (s.topologyCtx t pod).nodeQualifiesExcludingVictims (s.details node).labels victimPods
  attachable := s.csiFits

theorem lookup_nodeLabelsByName (h : node ∈ s.nodes) :
    s.nodeLabelsByName.lookup node.name = some (s.details node).labels := by
  rw [nodeLabelsByName, AList.lookup_to_alist]
  refine mem_dlookup ?_ (mem_map.mpr ⟨node, h, rfl⟩)
  rw [NodupKeys, keys, List.map_map]
  exact s.names

end Surroundings

section Eviction

def NodeTally.evict (t : NodeTally) (victims : List Key) : NodeTally := victims.foldl NodeTally.remove t

variable (t : NodeTally) (victims : List Key)

theorem indexedOn_eq (node : String) : t.indexedOn node = t.onNode node := by
  refine filter_congr (fun p hp => ?_)
  have hlook := NodeTally.mem_entries.mp hp
  rw [decide_eq_decide, t.cache.indexed]
  constructor
  · rintro ⟨q, hq, hnode⟩
    rw [Pods.lookup, hq] at hlook
    cases hlook
    exact hnode
  · exact fun hnode => ⟨p.2, hlook, hnode⟩

theorem podsOn_eq (node : String) : t.podsOn node = (t.onNode node).filter (fun p => p.1 ∉ t.reservedVictims) := by
  rw [← indexedOn_eq, NodeTally.indexedOn, List.filter_filter]
  refine filter_congr (fun p _ => ?_)
  rw [← Bool.decide_and, decide_eq_decide]
  tauto

end Eviction

section Leftovers

variable {current : List (Key × TalliedPod)}

end Leftovers

section Attached

variable (caches : CsiCaches)

end Attached

variable {t t' : NodeTally} {pod : PendingPod} {node : NodeItem} {victims : List Key}

def oneNode : Surroundings where
  nodes := [exampleNode 10 0]
  names := nodup_singleton _
  details := fun _ => ⟨[], [], false⟩
  constraintsOf := fun _ => ⟨[], [], none, [], [], [], [], ∅, []⟩
  caches := ⟨∅, ∅, ∅, ∅, ∅, ∅⟩

def webPod (name : String) (priority cpu : ℤ) (hostPorts : List HostPortClaim) : PendingPod :=
  ⟨⟨"default", name⟩, priority, [], ⟨cpu, 0, 0, ∅⟩, hostPorts, [], []⟩

def port (n : ℕ) : List HostPortClaim := [⟨n, "TCP", ""⟩]

end U7s.Scheduler
