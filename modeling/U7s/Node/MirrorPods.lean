import U7s.Node.References

/-! What a node may create: mirror pods that refer to no other object in the body as it was sent, while the graph
reads the body as it is stored. -/

namespace U7s.Node

open Handlers List

def NODE_USERNAME_PREFIX : String := "system:node:"

def NODES_GROUP : String := "system:nodes"

def MIRROR_POD_ANNOTATION : String := "kubernetes.io/config.mirror"

def nodeIdentity (username : String) (groups : List String) : Option String :=
  (Text.stripPrefix NODE_USERNAME_PREFIX username).filter (fun name => name ≠ "" && NODES_GROUP ∈ groups)

mutual

def containsSecretRef : Json → Bool
  | .obj fs => containsSecretRefFields fs
  | .arr xs => containsSecretRefItems xs
  | _ => false

def containsSecretRefItems : List Json → Bool
  | [] => false
  | x :: xs => containsSecretRef x || containsSecretRefItems xs

def containsSecretRefFields : List (String × Json) → Bool
  | [] => false
  | (k, v) :: fs => (k = "secretRef" && v ≠ .null) || containsSecretRef v || containsSecretRefFields fs

end

def ALLOWED_VOLUMES : List String :=
  ["awsElasticBlockStore", "azureDisk", "cephfs", "cinder", "downwardAPI", "emptyDir", "fc", "flexVolume",
    "flocker", "gcePersistentDisk", "gitRepo", "hostPath", "image", "iscsi", "nfs", "photonPersistentDisk",
    "portworxVolume", "quobyte", "rbd", "scaleIO", "storageos", "vsphereVolume"]

def sourceReference (s : Json) : Option String :=
  if s.idx "configMap" ≠ .null then some "configmaps (via projected volumes)"
  else if s.idx "secret" ≠ .null then some "secrets (via projected volumes)"
  else if s.idx "serviceAccountToken" ≠ .null then some "serviceaccounts (via projected volumes)"
  else if s.idx "clusterTrustBundle" ≠ .null then some "clustertrustbundles"
  else if s.idx "podCertificate" ≠ .null then some "podcertificates"
  else if s.idx "downwardAPI" = .null then some "projected volume sources of unknown type"
  else none

def volumeFieldReference (f : String × Json) : Option String :=
  if f.1 = "name" then none
  else if f.1 = "configMap" then some "configmaps (via configmap volumes)"
  else if f.1 = "secret" then some "secrets (via secret volumes)"
  else if f.1 = "csi" then some "csidrivers (via CSI volumes)"
  else if f.1 = "glusterfs" then some "endpoints (via glusterFS volumes)"
  else if f.1 = "persistentVolumeClaim" then some "persistentvolumeclaims"
  else if f.1 = "ephemeral" then some "persistentvolumeclaims (via ephemeral volumes)"
  else if f.1 = "azureFile" then some "secrets (via azureFile volumes)"
  else if f.1 = "projected" then (items (f.2.idx "sources")).findSome? sourceReference
  else if f.1 ∈ ALLOWED_VOLUMES then none
  else some "volumes of unknown type"

def volumeReference : Json → Option String
  | .obj fs => fs.findSome? volumeFieldReference
  | _ => some "volumes of unknown type"

def usesSecret (c : Json) : Bool :=
  (items (c.idx "env")).any (fun e => (e.idx "valueFrom").idx "secretKeyRef" ≠ .null) ||
    (items (c.idx "envFrom")).any (fun e => e.idx "secretRef" ≠ .null)

def usesConfigMap (c : Json) : Bool :=
  (items (c.idx "env")).any (fun e => (e.idx "valueFrom").idx "configMapKeyRef" ≠ .null) ||
    (items (c.idx "envFrom")).any (fun e => e.idx "configMapRef" ≠ .null)

def podApiObjectReference (pod : Json) : Option String :=
  let spec := pod.idx "spec"
  if (spec.idx "serviceAccountName").asStr?.any (fun s => s ≠ "") then some "serviceaccounts"
  else if items (spec.idx "imagePullSecrets") ≠ [] then some "secrets"
  else if (podContainers spec).any usesSecret then some "secrets"
  else if (items (spec.idx "volumes")).any containsSecretRef then some "secrets"
  else if (podContainers spec).any usesConfigMap then some "configmaps"
  else if items (spec.idx "resourceClaims") ≠ [] then some "resourceclaims"
  else (items (spec.idx "volumes")).findSome? volumeReference

def checkOwner (nodeName : String) (owner : Json) (nodeUid : Option String) : Except String Unit :=
  if ¬ ((owner.idx "apiVersion").asStr? = some "v1" ∧ (owner.idx "kind").asStr? = some "Node" ∧
      (owner.idx "name").asStr? = some nodeName) then
    .error s!"node \"{nodeName}\" can only create pods with an owner reference set to itself"
  else if boolOf (owner.idx "controller") ≠ some true then
    .error s!"node \"{nodeName}\" can only create pods with a controller owner reference set to itself"
  else if boolOf (owner.idx "blockOwnerDeletion") = some true then
    .error s!"node \"{nodeName}\" must not set blockOwnerDeletion on an owner reference"
  else
    let ownerUid := (owner.idx "uid").asStr?.getD ""
    match nodeUid.filter (fun u => u ≠ "") with
    | some uid =>
      if uid = ownerUid then .ok ()
      else .error s!"node {nodeName} UID mismatch: expected {ownerUid} got {uid}"
    | none => .error s!"node {nodeName} has no uid to verify against"

def checkOwners (nodeName : String) (owners : List Json) (nodeUid : Option String) : Except String Unit :=
  match owners with
  | [owner] => checkOwner nodeName owner nodeUid
  | [] => .error s!"node \"{nodeName}\" can only create pods with an owner reference set to itself"
  | _ => .error s!"node \"{nodeName}\" can only create pods with a single owner reference set to itself"

def authorizePodCreate (username : String) (groups : List String) (body : Json) (nodeUid : Option String) :
    Except String Unit :=
  match nodeIdentity username groups with
  | none => .error "only a node identity may create mirror pods"
  | some node =>
    if (((body.idx "metadata").idx "annotations").get? MIRROR_POD_ANNOTATION).isNone then
      .error (s!"pod does not have \"{MIRROR_POD_ANNOTATION}\" annotation, " ++
        s!"node \"{node}\" can only create mirror pods")
    else if ((body.idx "spec").idx "nodeName").asStr? ≠ some node then
      .error s!"node \"{node}\" can only create pods with spec.nodeName set to itself"
    else do
      checkOwners node (items ((body.idx "metadata").idx "ownerReferences")) nodeUid
      match podApiObjectReference body with
      | some resource => .error s!"node \"{node}\" can not create pods that reference {resource}"
      | none => .ok ()

theorem refs_nil {env envFrom : List Json} {f g : Json → Json}
    (h : (env.any (fun e => f e ≠ .null) || envFrom.any (fun e => g e ≠ .null)) = false) :
    envFrom.flatMap (fun e => pushRef ((g e).idx "name")) ++ env.flatMap (fun e => pushRef ((f e).idx "name")) = [] := by
  simp only [Bool.or_eq_false_iff, any_eq_false, decide_eq_true_eq, not_not] at h
  simp only [append_eq_nil_iff, flatMap_eq_nil_iff]
  refine ⟨fun e he => ?_, fun e he => ?_⟩
  · rw [h.2 e he]
    rfl
  · rw [h.1 e he]
    rfl

theorem volume_idx_null (h : volumeReference vol = none) (hk : ∀ v, volumeFieldReference (k, v) ≠ none) :
    vol.idx k = .null := by
  cases vol with
  | obj fs =>
    have hnone := findSome?_eq_none_iff.mp h
    simp only [Json.idx, Json.get?]
    cases hlook : Json.lookup k fs with
    | none => rfl
    | some v => exact absurd (hnone _ (Json.mem_of_lookup hlook)) (hk v)
  | _ => rfl

theorem volume_sources (h : volumeReference vol = none) :
    ∀ src ∈ items ((vol.idx "projected").idx "sources"), sourceReference src = none := by
  cases vol with
  | obj fs =>
    have hnone := findSome?_eq_none_iff.mp h
    simp only [Json.idx, Json.get?]
    cases hlook : Json.lookup "projected" fs with
    | none => exact fun src hsrc => absurd hsrc not_mem_nil
    | some v => exact findSome?_eq_none_iff.mp (hnone _ (Json.mem_of_lookup hlook))
  | _ => exact fun src hsrc => absurd hsrc not_mem_nil

theorem source_null (h : sourceReference src = none) : src.idx "secret" = .null ∧ src.idx "configMap" = .null := by
  unfold sourceReference at h
  split_ifs at h with hc hs
  exact ⟨not_not.mp hs, not_not.mp hc⟩

theorem volume_nil (h : volumeReference vol = none) :
    volumeSecrets vol = [] ∧ volumeConfigmaps vol = [] ∧ volumeClaims vol = [] := by
  have hsecret := volume_idx_null h (k := "secret") (fun v => by simp [volumeFieldReference])
  have hcm := volume_idx_null h (k := "configMap") (fun v => by simp [volumeFieldReference])
  have hpvc := volume_idx_null h (k := "persistentVolumeClaim") (fun v => by simp [volumeFieldReference])
  have hsrc := volume_sources h
  refine ⟨?_, ?_, ?_⟩
  · rw [volumeSecrets, hsecret, append_eq_nil_iff, flatMap_eq_nil_iff]
    exact ⟨rfl, fun src hs => by rw [(source_null (hsrc src hs)).1]; rfl⟩
  · rw [volumeConfigmaps, hcm, append_eq_nil_iff, flatMap_eq_nil_iff]
    exact ⟨rfl, fun src hs => by rw [(source_null (hsrc src hs)).2]; rfl⟩
  · rw [volumeClaims, hpvc]
    rfl

theorem podApiObjectReference_none (h : podApiObjectReference pod = none) :
    Clean (pod.idx "spec") ∧ ((pod.idx "spec").idx "serviceAccountName").asStr?.getD "" = "" := by
  unfold podApiObjectReference at h
  dsimp only at h
  split_ifs at h with hname hpull hsecret hvols hconf hclaims
  have hvol := findSome?_eq_none_iff.mp h
  simp only [not_not] at hpull
  simp only [any_eq_true, not_exists, not_and, Bool.not_eq_true] at hsecret hconf
  refine ⟨⟨?_, ?_, ?_⟩, ?_⟩
  · simp only [specEdges, append_eq_nil_iff, flatMap_eq_nil_iff, hpull]
    exact ⟨⟨fun v hv => (volume_nil (hvol v hv)).1, fun _ hp => absurd hp not_mem_nil⟩,
      fun c hc => refs_nil (hsecret c hc)⟩
  · intro c hc
    simp only [specEdges, mem_append, mem_flatMap] at hc
    obtain ⟨v, hv, hc⟩ | ⟨v, hv, hc⟩ := hc
    · rw [(volume_nil (hvol v hv)).2.1] at hc
      exact absurd hc not_mem_nil
    · have hnil : containerConfigmaps v = [] := refs_nil (hconf v hv)
      rw [hnil] at hc
      exact absurd hc not_mem_nil
  · simp only [specEdges, flatMap_eq_nil_iff]
    exact fun v hv => (volume_nil (hvol v hv)).2.2
  · cases hstr : ((pod.idx "spec").idx "serviceAccountName").asStr? with
    | none => rfl
    | some s => simpa [hstr] using hname

theorem authorizePodCreate_ok (h : authorizePodCreate username groups body nodeUid = .ok ()) :
    podApiObjectReference body = none := by
  unfold authorizePodCreate at h
  split at h
  · cases h
  · split_ifs at h
    obtain ⟨-, -, h⟩ := except_bind_ok h
    split at h
    · cases h
    · assumption

section Reach

open Text (Segment)

structure ServerOnly (e : PodEdges) : Prop where
  secrets : e.secrets = []
  configmaps : ∀ c ∈ e.configmaps, c = ROOT_CA
  pvcs : e.pvcs = []
  serviceAccount : ∀ sa, e.serviceAccount = some sa → sa = DEFAULT_SERVICE_ACCOUNT

structure MirrorPod where
  username : String
  groups : List String
  nodeUid : Option String
  key : PodKey
  ctx : CreateContext
  body : Json
  registered : Json
  accepted : authorizePodCreate username groups body nodeUid = .ok ()
  stored : registeredBody ctx body = some registered

def MirrorPod.NamesNoAccount (p : MirrorPod) : Prop := serviceAccountAlias (p.body.idx "spec") = DEFAULT_SERVICE_ACCOUNT

def MirrorPod.register (g : NodeGraph) (p : MirrorPod) : NodeGraph := g.applyPod p.key p.registered

theorem MirrorPod.serverOnly_iff (p : MirrorPod) : ServerOnly (extractPodEdges p.registered) ↔ p.NamesNoAccount := by
  obtain ⟨hs, hname⟩ := podApiObjectReference_none (authorizePodCreate_ok p.accepted)
  obtain ⟨hclean, haccount⟩ := registeredBody_spec p.stored hs hname
  have hedge : (extractPodEdges p.registered).serviceAccount = some (serviceAccountAlias (p.body.idx "spec")) := by
    simp [extractPodEdges, specEdges, haccount, Json.asStr?, serviceAccountAlias_ne]
  constructor
  · exact fun h => h.serviceAccount _ hedge
  · intro h
    refine ⟨hclean.secrets, hclean.configmaps, hclean.pvcs, fun sa hsa => ?_⟩
    rw [hedge] at hsa
    cases hsa
    exact h

variable {g : NodeGraph} {node : String} {ns : Segment} {pred : PodEdges → Bool}

theorem anyPodEdge_iff : g.anyPodEdge node ns pred ↔
    ∃ k, node ∈ (g.view k).nodes ∧ k.1 = ns ∧ ∃ p, (g.view k).entry = some p ∧ pred p.2 := by
  simp [NodeGraph.anyPodEdge, NodeGraph.view, NodeGraph.podOnNode, Option.any_eq_true]

theorem applyPod_anyPodEdge (h : (g.applyPod key body).anyPodEdge node ns pred) :
    g.anyPodEdge node ns pred ∨ pred (extractPodEdges body) := by
  obtain ⟨k, hnode, hns, p, hentry, hp⟩ := anyPodEdge_iff.mp h
  by_cases hk : k = key
  · subst hk
    rw [applyPod_view] at hnode hentry
    by_cases hn : nodeName body = ""
    · simp only [registration, if_pos hn] at hnode hentry
      exact Or.inl (anyPodEdge_iff.mpr ⟨k, hnode, hns, p, hentry, hp⟩)
    · simp only [registration, if_neg hn, View.call, Option.some.injEq] at hentry
      subst hentry
      exact Or.inr hp
  · rw [applyPod_view_ne hk] at hnode hentry
    exact Or.inl (anyPodEdge_iff.mpr ⟨k, hnode, hns, p, hentry, hp⟩)

theorem register_anyPodEdge {pods : List MirrorPod} (hpods : ∀ p ∈ pods, p.NamesNoAccount)
    (hpred : ∀ e, ServerOnly e → pred e = false) (h : (pods.foldl MirrorPod.register g).anyPodEdge node ns pred) :
    g.anyPodEdge node ns pred := by
  induction pods generalizing g with
  | nil => exact h
  | cons p pods ih =>
    obtain hg | hp := applyPod_anyPodEdge (ih (fun q hq => hpods q (mem_cons_of_mem p hq)) h)
    · exact hg
    · rw [hpred _ (p.serverOnly_iff.mpr (hpods p mem_cons_self))] at hp
      cases hp

/-- What a node's pods reach is what the server adds exactly if none names a service account under the deprecated
member. -/
theorem mirror_pods_reach (g : NodeGraph) (pods : List MirrorPod) (node : String) (ns : Segment) :
    (∀ p ∈ pods, ServerOnly (extractPodEdges p.registered) ↔ p.NamesNoAccount) ∧
      ((∀ p ∈ pods, p.NamesNoAccount) →
        let after := pods.foldl MirrorPod.register g
        (∀ s, after.secretReferenced node ns s = true → g.secretReferenced node ns s = true) ∧
        (∀ c, after.pvcReferenced node ns c = true → g.pvcReferenced node ns c = true) ∧
        (∀ c ≠ ROOT_CA, after.configmapReferenced node ns c = true → g.configmapReferenced node ns c = true) ∧
        ∀ sa ≠ DEFAULT_SERVICE_ACCOUNT,
          after.serviceAccountUsed node ns sa = true → g.serviceAccountUsed node ns sa = true) := by
  refine ⟨fun p _ => p.serverOnly_iff, fun hpods => ⟨?_, ?_, ?_, ?_⟩⟩
  · intro s h
    exact register_anyPodEdge hpods (fun e he => by simp [he.secrets]) h
  · intro c h
    exact register_anyPodEdge hpods (fun e he => by simp [he.pvcs]) h
  · intro c hc h
    refine register_anyPodEdge hpods (fun e he => ?_) h
    simpa using fun hmem => hc (he.configmaps c hmem)
  · intro sa hsa h
    refine register_anyPodEdge hpods (fun e he => ?_) h
    simpa using fun hacc => hsa (he.serviceAccount sa hacc)

def staticPod (account : List (String × Json)) : Json :=
  .obj [("apiVersion", .str "v1"), ("kind", .str "Pod"),
    ("metadata", .obj [("name", .str "web-n1"), ("namespace", .str "team"),
      ("annotations", .obj [(MIRROR_POD_ANNOTATION, .str "hash")]),
      ("ownerReferences", .arr [.obj [("apiVersion", .str "v1"), ("kind", .str "Node"), ("name", .str "n1"),
        ("uid", .str "u1"), ("controller", .bool true)]])]),
    ("spec", .obj (account ++ [("nodeName", .str "n1"),
      ("containers", .arr [.obj [("name", .str "web"), ("image", .str "nginx:1")]])]))]

def staticContext : CreateContext := ⟨"team", "web-n1", "p1", "t0", fun _ => false, "abcde", 7⟩

def team : Segment := ⟨"team", by decide, by decide⟩

def staticKey : PodKey := (team, ⟨"web-n1", by decide, by decide⟩)

def adminPod : MirrorPod where
  username := "system:node:n1"
  groups := [NODES_GROUP]
  nodeUid := some "u1"
  key := staticKey
  ctx := staticContext
  body := staticPod [("serviceAccount", .str "admin")]
  registered := (registeredBody staticContext (staticPod [("serviceAccount", .str "admin")])).get (by decide +kernel)
  accepted := by rfl
  stored := (Option.some_get _).symm

def plainPod : MirrorPod where
  username := "system:node:n1"
  groups := [NODES_GROUP]
  nodeUid := some "u1"
  key := staticKey
  ctx := staticContext
  body := staticPod []
  registered := (registeredBody staticContext (staticPod [])).get (by decide +kernel)
  accepted := by rfl
  stored := (Option.some_get _).symm

theorem alias_names_admin :
    ¬ ServerOnly (extractPodEdges adminPod.registered) ∧
      (adminPod.register NodeGraph.new).serviceAccountUsed "n1" team "admin" = true ∧
      NodeGraph.new.serviceAccountUsed "n1" team "admin" = false := by
  refine ⟨fun h => ?_, by decide +kernel, by decide +kernel⟩
  have hadmin : (extractPodEdges adminPod.registered).serviceAccount = some "admin" := by decide +kernel
  exact absurd (h.serviceAccount _ hadmin) (by decide)

theorem mirror_pods_reach_plain :
    ServerOnly (extractPodEdges plainPod.registered) ∧
      ([plainPod].foldl MirrorPod.register NodeGraph.new).serviceAccountUsed "n1" team "default" = true ∧
      ([plainPod].foldl MirrorPod.register NodeGraph.new).serviceAccountUsed "n1" team "admin" = false := by
  have hplain : plainPod.NamesNoAccount := by
    unfold MirrorPod.NamesNoAccount
    decide +kernel
  obtain ⟨hexact, hreach⟩ := mirror_pods_reach NodeGraph.new [plainPod] "n1" team
  refine ⟨(hexact plainPod mem_cons_self).mpr hplain, by decide +kernel, ?_⟩
  have hused := (hreach (by simpa using hplain)).2.2.2 "admin" (by decide)
  exact Bool.eq_false_iff.mpr (fun h => absurd (hused h) (by decide +kernel))

end Reach

end U7s.Node
