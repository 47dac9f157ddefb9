import U7s.Json
import U7s.Lib.Text

/-! The graph of the node authorizer. A namespace and a name reach it only from validated path segments. -/

namespace U7s.Node

open Text (Segment)

structure PodEdges where
  secrets : List String := []
  configmaps : List String := []
  pvcs : List String := []
  serviceAccount : Option String := none
deriving DecidableEq

abbrev PodKey := Segment × Segment

structure NodeGraph where
  pods : AList (fun _ : PodKey => String × PodEdges)
  byNode : AList (fun _ : String => Finset PodKey)

def NodeGraph.new : NodeGraph := ⟨∅, ∅⟩

def items (j : Json) : List Json := j.asArray?.getD []

def pushRef (v : Json) : List String := (v.asStr?.filter (fun s => s ≠ "")).toList

def containerFields : List String := ["containers", "initContainers", "ephemeralContainers"]

def podContainers (spec : Json) : List Json := containerFields.flatMap (fun k => items (spec.idx k))

def volumeSecrets (vol : Json) : List String :=
  pushRef ((vol.idx "secret").idx "secretName") ++
    (items ((vol.idx "projected").idx "sources")).flatMap (fun src => pushRef ((src.idx "secret").idx "name"))

def volumeConfigmaps (vol : Json) : List String :=
  pushRef ((vol.idx "configMap").idx "name") ++
    (items ((vol.idx "projected").idx "sources")).flatMap (fun src => pushRef ((src.idx "configMap").idx "name"))

def volumeClaims (vol : Json) : List String := pushRef ((vol.idx "persistentVolumeClaim").idx "claimName")

def containerSecrets (c : Json) : List String :=
  (items (c.idx "envFrom")).flatMap (fun ef => pushRef ((ef.idx "secretRef").idx "name")) ++
    (items (c.idx "env")).flatMap (fun e => pushRef (((e.idx "valueFrom").idx "secretKeyRef").idx "name"))

def containerConfigmaps (c : Json) : List String :=
  (items (c.idx "envFrom")).flatMap (fun ef => pushRef ((ef.idx "configMapRef").idx "name")) ++
    (items (c.idx "env")).flatMap (fun e => pushRef (((e.idx "valueFrom").idx "configMapKeyRef").idx "name"))

def specEdges (spec : Json) : PodEdges where
  secrets := (items (spec.idx "volumes")).flatMap volumeSecrets ++
    (items (spec.idx "imagePullSecrets")).flatMap (fun ps => pushRef (ps.idx "name")) ++
    (podContainers spec).flatMap containerSecrets
  configmaps := (items (spec.idx "volumes")).flatMap volumeConfigmaps ++
    (podContainers spec).flatMap containerConfigmaps
  pvcs := (items (spec.idx "volumes")).flatMap volumeClaims
  serviceAccount := (spec.idx "serviceAccountName").asStr?.filter (fun s => s ≠ "")

def extractPodEdges (body : Json) : PodEdges := specEdges (body.idx "spec")

def nodeName (body : Json) : String := ((body.idx "spec").idx "nodeName").asStr?.getD ""

namespace NodeGraph

variable (g : NodeGraph) (key : PodKey)

def applyPod (body : Json) : NodeGraph :=
  if nodeName body = "" then g
  else
    { pods := g.pods.insert key (nodeName body, extractPodEdges body)
      byNode := g.byNode.insert (nodeName body) (insert key ((g.byNode.lookup (nodeName body)).getD ∅)) }

def removePod : NodeGraph :=
  match g.pods.lookup key with
  | none => g
  | some (node, _) =>
    { pods := g.pods.erase key
      byNode := match g.byNode.lookup node with
        | none => g.byNode
        | some keys => g.byNode.insert node (keys.erase key) }

def anyPodEdge (node : String) (ns : Segment) (pred : PodEdges → Bool) : Bool :=
  ∃ k ∈ (g.byNode.lookup node).getD ∅, k.1 = ns ∧ (g.pods.lookup k).any (fun p => pred p.2)

def podOnNode (node : String) : Bool := key ∈ (g.byNode.lookup node).getD ∅

variable (node : String) (ns : Segment)

def secretReferenced (secretName : String) : Bool := g.anyPodEdge node ns (fun e => secretName ∈ e.secrets)

def configmapReferenced (configmapName : String) : Bool :=
  g.anyPodEdge node ns (fun e => configmapName ∈ e.configmaps)

def pvcReferenced (pvcName : String) : Bool := g.anyPodEdge node ns (fun e => pvcName ∈ e.pvcs)

def serviceAccountUsed (saName : String) : Bool := g.anyPodEdge node ns (fun e => e.serviceAccount = some saName)

end NodeGraph

section Views

def registration (body : Json) : Option (String × PodEdges) :=
  if nodeName body = "" then none else some (nodeName body, extractPodEdges body)

@[ext] structure View where
  entry : Option (String × PodEdges)
  nodes : Set String

def NodeGraph.view (g : NodeGraph) (key : PodKey) : View :=
  ⟨g.pods.lookup key, {node | g.podOnNode key node = true}⟩

def exactView (reg : Option (String × PodEdges)) : View := ⟨reg, {node | ∃ e, reg = some (node, e)}⟩

def View.call (v : View) : Option (Option (String × PodEdges)) → View
  | some none => v
  | some (some (node, e)) => ⟨some (node, e), insert node v.nodes⟩
  | none => match v.entry with
    | none => v
    | some (node, _) => ⟨none, v.nodes \ {node}⟩

variable {g : NodeGraph} {key k : PodKey} {node : String}

theorem podOnNode_iff : g.podOnNode key node ↔ ∃ keys, g.byNode.lookup node = some keys ∧ key ∈ keys := by
  unfold NodeGraph.podOnNode
  cases g.byNode.lookup node with
  | none | some keys => simp

theorem applyPod_view (body : Json) : (g.applyPod key body).view key = (g.view key).call (some (registration body)) := by
  unfold NodeGraph.applyPod registration
  by_cases hn : nodeName body = ""
  · rw [if_pos hn, if_pos hn]
    rfl
  · rw [if_neg hn, if_neg hn]
    refine View.ext (by simp [NodeGraph.view, View.call]) (Set.ext fun n => ?_)
    by_cases hnode : n = nodeName body
    · simp [NodeGraph.view, View.call, NodeGraph.podOnNode, hnode]
    · simp [NodeGraph.view, View.call, NodeGraph.podOnNode, hnode]

theorem applyPod_view_ne (hk : k ≠ key) (body : Json) : (g.applyPod key body).view k = g.view k := by
  unfold NodeGraph.applyPod
  split_ifs with hn
  · rfl
  · refine View.ext (by simp [NodeGraph.view, AList.lookup_insert_ne hk]) (Set.ext fun n => ?_)
    by_cases hnode : n = nodeName body
    · simp [NodeGraph.view, NodeGraph.podOnNode, hnode, hk]
    · simp [NodeGraph.view, NodeGraph.podOnNode, AList.lookup_insert_ne hnode]

theorem removePod_view : (g.removePod key).view key = (g.view key).call none := by
  unfold NodeGraph.removePod
  cases hp : g.pods.lookup key with
  | none => simp [NodeGraph.view, View.call, hp]
  | some p =>
    obtain ⟨node, e⟩ := p
    refine View.ext (by simp [NodeGraph.view, View.call, hp]) (Set.ext fun n => ?_)
    simp only [NodeGraph.view, View.call, hp,
      podOnNode_iff]
    cases hb : g.byNode.lookup node with
    | none =>
      refine ⟨fun ⟨keys, hl, hm⟩ => ⟨⟨keys, hl, hm⟩, ?_⟩, And.left⟩
      rintro rfl
      simp [hb] at hl
    | some keys =>
      by_cases hnode : n = node
      · subst hnode
        simp
      · simp [hnode]

theorem removePod_view_ne (hk : k ≠ key) : (g.removePod key).view k = g.view k := by
  unfold NodeGraph.removePod
  cases hp : g.pods.lookup key with
  | none => rfl
  | some p =>
    obtain ⟨node, e⟩ := p
    refine View.ext (by simp [NodeGraph.view, AList.lookup_erase_ne hk]) (Set.ext fun n => ?_)
    simp only [NodeGraph.view, podOnNode_iff]
    cases hb : g.byNode.lookup node with
    | none => exact Iff.rfl
    | some keys =>
      by_cases hnode : n = node
      · subst hnode
        simp [hb, hk]
      · simp [AList.lookup_insert_ne hnode]

end Views

end U7s.Node
