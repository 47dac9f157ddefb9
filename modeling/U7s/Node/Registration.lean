import U7s.Lib.Outbox
import U7s.Handlers.Reads
import U7s.Handlers.Resource
import U7s.Node.Graph

/-! The pod handlers tell the node graph of a pod after they have written it. -/

namespace U7s.Node

open Store Programs Fallible Runs Handlers List Option Function
open Text (Segment)

variable {β : Type} (codec : JsonCodec β)

inductive PodOp (β : Type) where
  | store (o : AppOp β)
  | applyPod (key : PodKey) (body : Json)
  | removePod (key : PodKey)

def PodOp.Reply : PodOp β → Type
  | .store o => o.Reply
  | .applyPod _ _ => Unit
  | .removePod _ => Unit

structure Cluster (β : Type) where
  app : AppState β
  graph : NodeGraph

def Cluster.exec (s : Cluster β) (o : PodOp β) (faults : List Bool) : Cluster β × o.Reply :=
  match o with
  | .store o => ({ s with app := (Handlers.exec codec s.app o faults).1 }, (Handlers.exec codec s.app o faults).2)
  | .applyPod key body => ({ s with graph := s.graph.applyPod key body }, ())
  | .removePod key => ({ s with graph := s.graph.removePod key }, ())

abbrev PodHandler (β α : Type) := Fallible (PodOp β) PodOp.Reply Failure α

abbrev PodTrace (β : Type) := Trace (PodOp β) PodOp.Reply

def podText (key : PodKey) : String := objectKey "pods" key.1.text key.2.text

def storeErrToStatus (e : StoreError) (name : String) : Failure := storeErr e "" "pods" name "Pod"

def podStore (o : AppOp β) : PodHandler β o.Reply := request (PodOp.store o)

def registerPod (key : PodKey) (body : Json) (rv : ℕ) : PodHandler β Unit := do
  let body ← attempt (panicOn (setResourceVersion body rv))
  request (PodOp.applyPod key body)

def createPod (key : PodKey) (body : Json) : PodHandler β Unit := do
  match ← podStore (.createIfNamespaceActive (some (clusterObjectKey "namespaces" key.1.text)) (podText key)
      (codec.toVec body)) with
  | .ok rv => registerPod key body rv
  | .error (.store e) => throw (storeErrToStatus e key.2.text)
  | .error e => throw (.namespaceCreateRejected key.1.text e)

def scheduledCondition (now : String) : Json :=
  .obj [("lastTransitionTime", .str now), ("status", .str "True"), ("type", .str "PodScheduled")]

def flipScheduled (now : String) : List Json → Option (List Json)
  | [] => some [scheduledCondition now]
  | c :: cs =>
    if c.idx "type" = .str "PodScheduled" then do
      let c ← c.setIdx "status" (.str "True")
      let c ← c.setIdx "reason" (.str "")
      let c ← c.setIdx "message" (.str "")
      return (← c.setIdx "lastTransitionTime" (.str now)) :: cs
    else (flipScheduled now cs).map (fun cs => c :: cs)

def scheduledConditions (now : String) (status : Json) : Option (List Json) :=
  match status.idx "conditions" with
  | .arr cs => flipScheduled now cs
  | _ => some [scheduledCondition now]

def setPodScheduledTrue (now : String) (pod : Json) : Option Json := do
  let status := match pod.idx "status" with
    | .obj fs => fs
    | _ => []
  let conditions ← scheduledConditions now (.obj status)
  pod.setIdx "status" (.obj (Json.insert "conditions" (.arr conditions) status))

def boundBody (node now : String) (body : Json) : Option Json := do
  let spec ← (body.idx "spec").setIdx "nodeName" (.str node)
  let body ← body.setIdx "spec" spec
  setPodScheduledTrue now body

structure BindRequest where
  node : String
  now : String
  nonempty : node ≠ ""

def storeBound (key : PodKey) (bound : Json) : PodHandler β Unit := do
  let expected ← attempt (parseResourceVersion (resourceVersion bound))
  match ← podStore (.put (podText key) (codec.toVec bound) expected) with
  | .ok rv => registerPod key bound rv
  | .error e => throw (storeErrToStatus e key.2.text)

def bindPod (key : PodKey) (q : BindRequest) : PodHandler β Unit := do
  match ← podStore (.get (podText key)) with
  | .error e => throw (.store e)
  | .ok none => throw (.notFound "" "pods" key.2.text)
  | .ok (some row) =>
    let body ← attempt (fromBytes codec row)
    if nodeName body = "" then do
      storeBound codec key (← attempt (panicOn (boundBody q.node q.now body)))
    else throw (.conflict s!"Pod \"{key.2.text}\" is already assigned to node \"{nodeName body}\"")

def hardDeletePod (key : PodKey) : PodHandler β Unit := do
  match ← podStore (.delete (podText key) none) with
  | .ok _ => request (PodOp.removePod key)
  | .error e => throw (storeErrToStatus e key.2.text)

def deleteCollected (key : PodKey) : PodHandler β Unit := do
  let _ ← podStore (.delete (podText key) none)
  request (PodOp.removePod key)

inductive PodAction where
  | create (body : Json)
  | bind (q : BindRequest)
  | delete
  | deleteCollected

structure PodRequest where
  key : PodKey
  action : PodAction

def PodRequest.handler (q : PodRequest) : PodHandler β Unit :=
  match q.action with
  | .create body => createPod codec q.key body
  | .bind b => bindPod codec q.key b
  | .delete => hardDeletePod q.key
  | .deleteCollected => Node.deleteCollected q.key

def owed (key : PodKey) (h : PodTrace β) : Option (Outbox.Entry PodKey (Option β)) :=
  match h.getLast? with
  | some ⟨.store (.createIfNamespaceActive _ _ value), .ok rv⟩ => some ⟨key, some value, rv⟩
  | some ⟨.store (.put _ value _), .ok rv⟩ => some ⟨key, some value, rv⟩
  | some ⟨.store (.delete _ _), .ok rv⟩ => some ⟨key, none, rv⟩
  | _ => none

abbrev PodWorld (β : Type) := World (Cluster β) (PodOp β) PodOp.Reply (Except Failure Unit)

def podRequests (qs : ℕ → PodRequest) (s : Cluster β) : PodWorld β :=
  World.start s (fun i => ((qs i).handler codec).run)

def podStep (w : PodWorld β) (a : ℕ × List Bool) : PodWorld β := World.step (Cluster.exec codec) w a

def InOrder (qs : ℕ → PodRequest) (w : PodWorld β) (a : ℕ × List Bool) : Prop :=
  match (w.threads a.1).rest with
  | .ret _ => True
  | .call (.store _) _ => True
  | .call _ _ => ∃ e, owed (qs a.1).key (w.past a.1) = some e ∧
    ∀ j ≠ a.1, ∀ e' ∈ owed (qs j).key (w.past j), e'.key = e.key → e.rev < e'.rev

def Settled (qs : ℕ → PodRequest) (w : PodWorld β) : Prop := ∀ i, owed (qs i).key (w.past i) = none

def BoundTo (s : AppState β) (node : String) (key : PodKey) (body : Json) : Prop :=
  storedObject codec s (podText key) = some body ∧ nodeName body = node ∧ node ≠ ""

structure Exact (s : Cluster β) : Prop where
  pod : ∀ node key, s.graph.podOnNode key node = true ↔ ∃ body, BoundTo codec s.app node key body
  secret : ∀ node ns name, s.graph.secretReferenced node ns name = true ↔
    ∃ pod body, BoundTo codec s.app node (ns, pod) body ∧ name ∈ (extractPodEdges body).secrets
  configmap : ∀ node ns name, s.graph.configmapReferenced node ns name = true ↔
    ∃ pod body, BoundTo codec s.app node (ns, pod) body ∧ name ∈ (extractPodEdges body).configmaps
  pvc : ∀ node ns name, s.graph.pvcReferenced node ns name = true ↔
    ∃ pod body, BoundTo codec s.app node (ns, pod) body ∧ name ∈ (extractPodEdges body).pvcs
  serviceAccount : ∀ node ns name, s.graph.serviceAccountUsed node ns name = true ↔
    ∃ pod body, BoundTo codec s.app node (ns, pod) body ∧ (extractPodEdges body).serviceAccount = some name

def storedRegistration (s : AppState β) (key : PodKey) : Option (String × PodEdges) :=
  (storedObject codec s (podText key)).bind registration

def Tracks (s : Cluster β) : Prop := ∀ key, s.graph.view key = exactView (storedRegistration codec s.app key)

section Answers

variable {codec} {s : Cluster β}

theorem storedRegistration_eq_some :
    storedRegistration codec s.app key = some (node, e) ↔
      ∃ body, BoundTo codec s.app node key body ∧ extractPodEdges body = e := by
  simp only [storedRegistration, bind_eq_some_iff, registration]
  constructor
  · rintro ⟨body, hb, hr⟩
    split_ifs at hr with hn
    cases hr
    exact ⟨body, ⟨hb, rfl, hn⟩, rfl⟩
  · rintro ⟨body, ⟨hb, rfl, hn⟩, rfl⟩
    exact ⟨body, hb, by rw [if_neg hn]⟩

theorem Tracks.podOnNode (ht : Tracks codec s) (node : String) (key : PodKey) :
    s.graph.podOnNode key node ↔ ∃ e, storedRegistration codec s.app key = some (node, e) := by
  have hn : node ∈ (s.graph.view key).nodes ↔ node ∈ (exactView (storedRegistration codec s.app key)).nodes := by
    rw [ht key]
  exact hn

theorem Tracks.anyPodEdge (ht : Tracks codec s) (node : String) (ns : Segment) (pred : PodEdges → Bool) :
    s.graph.anyPodEdge node ns pred ↔
      ∃ pod body, BoundTo codec s.app node (ns, pod) body ∧ pred (extractPodEdges body) := by
  have hentry : ∀ key, s.graph.pods.lookup key = storedRegistration codec s.app key :=
    fun key => congrArg View.entry (ht key)
  have hmem : ∀ key, key ∈ (s.graph.byNode.lookup node).getD ∅ ↔
      ∃ e, storedRegistration codec s.app key = some (node, e) := by
    intro key
    rw [← ht.podOnNode]
    simp [NodeGraph.podOnNode]
  simp only [NodeGraph.anyPodEdge, decide_eq_true_eq, hmem, hentry, Option.any_eq_true]
  constructor
  · rintro ⟨⟨_, pod⟩, ⟨e, he⟩, rfl, p, hp, hpred⟩
    obtain rfl : p = (node, e) := some.inj (hp.symm.trans he)
    obtain ⟨body, hb, rfl⟩ := storedRegistration_eq_some.mp he
    exact ⟨pod, body, hb, hpred⟩
  · rintro ⟨pod, body, hb, hpred⟩
    have he := storedRegistration_eq_some.mpr ⟨body, hb, rfl⟩
    exact ⟨(ns, pod), ⟨_, he⟩, rfl, _, he, hpred⟩

theorem Tracks.exact (ht : Tracks codec s) : Exact codec s := by
  constructor
  · intro node key
    rw [ht.podOnNode]
    constructor
    · rintro ⟨e, he⟩
      obtain ⟨body, hb, -⟩ := storedRegistration_eq_some.mp he
      exact ⟨body, hb⟩
    · rintro ⟨body, hb⟩
      exact ⟨_, storedRegistration_eq_some.mpr ⟨body, hb, rfl⟩⟩
  all_goals
    intro node ns name
    refine (ht.anyPodEdge node ns _).trans ?_
    simp only [decide_eq_true_eq]

end Answers

section Bodies

variable {put stored body bound : Json}

theorem registration_congr (h : stored.idx "spec" = put.idx "spec") : registration stored = registration put := by
  have hn : nodeName stored = nodeName put := by rw [nodeName, h, nodeName]
  have he : extractPodEdges stored = extractPodEdges put := by rw [extractPodEdges, h, extractPodEdges]
  rw [registration, hn, he, registration]

theorem items_mapFloats (f : String → String) (j : Json) : items (j.mapFloats f) = (items j).map (Json.mapFloats f) := by
  cases j with
  | arr xs =>
    simp only [items, Json.mapFloats, Json.asArray?, getD_some]
    induction xs with
    | nil => rfl
    | cons x xs ih => rw [Json.mapFloatsItems, ih, map_cons]
  | num n => cases n <;> rfl
  | _ => rfl

theorem pushRef_mapFloats (f : String → String) (j : Json) : pushRef (j.mapFloats f) = pushRef j := by
  rw [pushRef, Json.asStr?_mapFloats, pushRef]

theorem flatMap_items_mapFloats (read : Json → List String) (hread : ∀ j, read (j.mapFloats f) = read j)
    (j : Json) : (items (j.mapFloats f)).flatMap read = (items j).flatMap read := by
  rw [items_mapFloats, flatMap_map]
  exact congrArg (fun r => (items j).flatMap r) (funext hread)

theorem specEdges_mapFloats (f : String → String) (spec : Json) : specEdges (spec.mapFloats f) = specEdges spec := by
  have hvs : ∀ v, volumeSecrets (v.mapFloats f) = volumeSecrets v := fun v => by
    simp [volumeSecrets, items_mapFloats, pushRef_mapFloats, flatMap_map]
  have hvc : ∀ v, volumeConfigmaps (v.mapFloats f) = volumeConfigmaps v := fun v => by
    simp [volumeConfigmaps, items_mapFloats, pushRef_mapFloats, flatMap_map]
  have hvp : ∀ v, volumeClaims (v.mapFloats f) = volumeClaims v := fun v => by
    simp [volumeClaims, pushRef_mapFloats]
  have hcs : ∀ c, containerSecrets (c.mapFloats f) = containerSecrets c := fun c => by
    simp [containerSecrets, items_mapFloats, pushRef_mapFloats, flatMap_map]
  have hcc : ∀ c, containerConfigmaps (c.mapFloats f) = containerConfigmaps c := fun c => by
    simp [containerConfigmaps, items_mapFloats, pushRef_mapFloats, flatMap_map]
  have hps : ∀ j : Json, pushRef ((j.mapFloats f).idx "name") = pushRef (j.idx "name") := fun j => by
    simp [pushRef_mapFloats]
  simp only [specEdges, podContainers, containerFields, flatMap_cons, flatMap_nil, flatMap_append,
    Json.idx_mapFloats, Json.asStr?_mapFloats, flatMap_items_mapFloats _ hvs, flatMap_items_mapFloats _ hvc,
    flatMap_items_mapFloats _ hvp, flatMap_items_mapFloats _ hcs, flatMap_items_mapFloats _ hcc,
    flatMap_items_mapFloats (fun ps => pushRef (ps.idx "name")) hps]

theorem registration_carries (hc : Carries put stored) : registration stored = registration put := by
  obtain ⟨f, hother, -⟩ := hc
  have hn : nodeName stored = nodeName put := by simp [nodeName, hother "spec" (by decide)]
  have he : extractPodEdges stored = extractPodEdges put := by
    rw [extractPodEdges, hother "spec" (by decide), specEdges_mapFloats, extractPodEdges]
  rw [registration, hn, he, registration]

theorem registration_setResourceVersion (h : setResourceVersion put rv = some stored) :
    registration stored = registration put := by
  obtain ⟨hother, -⟩ := setMetadata_idx h
  exact registration_congr (hother "spec" (by decide))

theorem boundBody_some (h : boundBody node now body = some bound) :
    nodeName bound = node ∧ resourceVersion bound = resourceVersion body := by
  obtain ⟨spec, hspec, h⟩ := bind_eq_some_iff.mp h
  obtain ⟨placed, hplaced, h⟩ := bind_eq_some_iff.mp h
  obtain ⟨conditions, -, h⟩ := bind_eq_some_iff.mp h
  constructor
  · rw [nodeName, Json.idx_setIdx_ne (by decide) h, Json.idx_setIdx hplaced, Json.idx_setIdx hspec]
    rfl
  · rw [resourceVersion, Json.idx_setIdx_ne (by decide) h, Json.idx_setIdx_ne (by decide) hplaced,
      resourceVersion]

theorem nodeName_of_registration (h : registration stored = registration put) : nodeName stored = nodeName put := by
  unfold registration at h
  split_ifs at h with h₁ h₂
  · rw [h₁, h₂]
  · exact congrArg Prod.fst (some.inj h)

end Bodies

section Guards

def WriteGuard (key : PodKey) (h : PodTrace β) : AppOp β → Prop
  | .get _ => True
  | .createIfNamespaceActive _ k value => k = podText key ∧ ∃ put, value = codec.toVec put
  | .put k value expected => k = podText key ∧ ∃ row body bound, ⟨.store (.get k), .ok (some row)⟩ ∈ h ∧
      codec.fromSlice row.value = some body ∧ nodeName body = "" ∧ nodeName bound ≠ "" ∧
      resourceVersion bound = resourceVersion body ∧ value = codec.toVec bound ∧
      parseResourceVersion (resourceVersion bound) = .ok expected
  | .delete k _ => k = podText key
  | _ => False

def RegGuard (key : PodKey) (h : PodTrace β) : PodOp β → Prop
  | .store o => owed key h = none ∧ WriteGuard codec key h o
  | .applyPod k body => k = key ∧ ∃ put rv, owed key h = some ⟨key, some (codec.toVec put), rv⟩ ∧
      registration body = registration put
  | .removePod k => k = key ∧ ∀ e ∈ owed key h, e.effect = none

variable {codec} {key : PodKey} {h : PodTrace β}

theorem owed_concat (e : Σ o : PodOp β, o.Reply) : owed key (h ++ [e]) = owed key [e] := by
  simp [owed]

theorem registerPod_safe {put : Json} (ho : owed key h = some ⟨key, some (codec.toVec put), n⟩) :
    Safe (RegGuard codec key) h (registerPod key put rv) := by
  refine safe_attempt (fun body hb => ?_)
  have hreg := registration_setResourceVersion (panicOn_ok hb)
  exact ⟨⟨rfl, put, n, ho, hreg⟩, fun _ => trivial⟩

theorem createPod_safe (ho : owed key h = none) (body : Json) :
    Safe (RegGuard codec key) h (createPod codec key body) := by
  refine safe_request ⟨ho, rfl, body, rfl⟩ ?_
  rintro (e | rv)
  · cases e <;> exact safe_throw
  · exact registerPod_safe (by rw [owed_concat]; rfl)

theorem storeBound_safe (ho : owed key h = none)
    (hrow : ⟨.store (.get (podText key)), .ok (some row)⟩ ∈ h) (hb : codec.fromSlice row.value = some body)
    (hfree : nodeName body = "") (hnode : nodeName bound ≠ "") (hrv : resourceVersion bound = resourceVersion body) :
    Safe (RegGuard codec key) h (storeBound codec key bound) := by
  refine safe_attempt (fun expected he => ?_)
  refine safe_request ⟨ho, rfl, row, body, bound, hrow, hb, hfree, hnode, hrv, rfl, he⟩ ?_
  rintro (e | rv)
  · exact safe_throw
  · exact registerPod_safe (by rw [owed_concat]; rfl)

theorem bindPod_safe (ho : owed key h = none) (q : BindRequest) :
    Safe (RegGuard codec key) h (bindPod codec key q) := by
  refine safe_request ⟨ho, trivial⟩ ?_
  rintro (e | _ | row)
  · exact safe_throw
  · exact safe_throw
  · refine safe_attempt (fun body hb => safe_ite (fun hfree => ?_) (fun _ => safe_throw))
    refine safe_attempt (fun bound hbound => ?_)
    obtain ⟨hnode, hrv⟩ := boundBody_some (panicOn_ok hbound)
    refine storeBound_safe (by rw [owed_concat]; rfl) (mem_append_right _ (mem_singleton.mpr rfl))
      (fromBytes_ok hb) hfree ?_ hrv
    rw [hnode]
    exact q.nonempty

theorem removePod_safe :
    Safe (RegGuard codec key) (h ++ [⟨.store (.delete (podText key) x), r⟩])
      (request (PodOp.removePod key) : PodHandler β Unit) := by
  refine ⟨⟨rfl, fun e he => ?_⟩, fun _ => trivial⟩
  rw [owed_concat] at he
  cases r with
  | error err => simp [owed] at he
  | ok rv =>
    cases he
    rfl

theorem handler_keeps (q : PodRequest) :
    ((q.handler codec).run).Keeps (RegGuard codec q.key) (fun _ _ => True) [] := by
  obtain ⟨key, action⟩ := q
  cases action with
  | create body => exact createPod_safe rfl body
  | bind b => exact bindPod_safe rfl b
  | delete =>
    refine safe_request ⟨rfl, rfl⟩ ?_
    rintro (e | rv)
    · exact safe_throw
    · exact removePod_safe
  | deleteCollected => exact safe_request ⟨rfl, rfl⟩ (fun r => removePod_safe)

end Guards

section Commits

theorem podText_injective : Injective podText := by
  rintro ⟨ns, name⟩ ⟨ns', name'⟩ h
  have hl : ns.text.toList ++ '/' :: name.text.toList = ns'.text.toList ++ '/' :: name'.text.toList := by
    have := congrArg String.toList h
    simpa [podText, objectKey] using this
  obtain ⟨hns, hname⟩ := Text.append_cons_inj ns.noSlash ns'.noSlash hl
  rw [Segment.ext (String.toList_inj.mp hns), Segment.ext (String.toList_inj.mp hname)]

def effectOf (written : Option β) : Option (Option (String × PodEdges)) :=
  written.map (fun value => (codec.fromSlice value).bind registration)

variable {codec} {s : AppState β} {key : PodKey} {h : PodTrace β}

structure Committed (codec : JsonCodec β) (key : PodKey) (s s' : AppState β) (written : Option β) : Prop where
  revision : s'.db.revision = s.db.revision + 1
  parsed : ∀ value ∈ written, (codec.fromSlice value).isSome = true
  self : exactView (storedRegistration codec s' key) =
    (exactView (storedRegistration codec s key)).call (effectOf codec written)
  other : ∀ k ≠ key, storedRegistration codec s' k = storedRegistration codec s k

theorem exactView_register : exactView reg = (exactView none).call (some reg) := by
  cases reg with
  | none => rfl
  | some p =>
    obtain ⟨node, e⟩ := p
    exact View.ext rfl (Set.ext fun n => by simp [exactView, View.call])

theorem exactView_remove : exactView none = (exactView reg).call none := by
  cases reg with
  | none => rfl
  | some p =>
    obtain ⟨node, e⟩ := p
    exact View.ext rfl (Set.ext fun n => by simp [exactView, View.call])

theorem wrote_committed {put : Json} (hfree : storedRegistration codec s key = none)
    (hst : stampResourceVersion codec (codec.toVec put) (s.db.revision + 1) = .ok (stamped, n, objName)) :
    Committed codec key s (s.wrote (podText key) stamped n objName) (some (codec.toVec put)) := by
  obtain ⟨stored, hval, hstored, hc⟩ := storedObject_wrote (podText key) hst
  have hreg : registration (put.mapFloats codec.refloat) = registration put :=
    registration_carries (carries_mapFloats _ _)
  refine ⟨rfl, ?_, ?_, fun k hk => ?_⟩
  · rintro value ⟨⟩
    rw [hval]
    rfl
  · rw [hfree, effectOf, map_some, hval, bind_some, hreg, storedRegistration, hstored,
      bind_some, registration_carries hc]
    exact exactView_register
  · rw [storedRegistration, storedObject_congr (wrote_lookup_ne (podText_injective.ne hk)), storedRegistration]

theorem deleted_committed : Committed codec key s (s.deleted (podText key)) none := by
  refine ⟨rfl, nofun, ?_, fun k hk => ?_⟩
  · have hnone : storedRegistration codec (s.deleted (podText key)) key = none := by
      simp [storedRegistration, storedObject]
    rw [hnone]
    exact exactView_remove
  · rw [storedRegistration, storedObject_congr (deleted_lookup_ne (podText_injective.ne hk)), storedRegistration]

def storeCalls (h : PodTrace β) : History β :=
  h.filterMap (fun e => match e with
    | ⟨.store o, r⟩ => some ⟨o, r⟩
    | _ => none)

theorem storeCalls_append (h h' : PodTrace β) : storeCalls (h ++ h') = storeCalls h ++ storeCalls h' :=
  filterMap_append

theorem store_cases (hk : Known codec s (storeCalls h)) (hG : WriteGuard codec key h o) (f : List Bool) :
    ((exec codec s o f).1 = s ∧ owed key [⟨.store o, (exec codec s o f).2⟩] = none) ∨
      ∃ written, owed key [⟨.store o, (exec codec s o f).2⟩] = some ⟨key, written, s.db.revision + 1⟩ ∧
        Committed codec key s (exec codec s o f).1 written := by
  cases o with
  | get k => exact .inl ⟨rfl, rfl⟩
  | createIfNamespaceActive nsKey k value =>
    obtain ⟨rfl, put, rfl⟩ := hG
    obtain ⟨e, hx⟩ | ⟨stamped, n, objName, hnone, hst, hx⟩ :=
      exec_create codec s (podText key) f nsKey (codec.toVec put)
    · rw [hx]
      exact .inl ⟨rfl, rfl⟩
    · rw [hx]
      refine .inr ⟨_, rfl, wrote_committed ?_ hst⟩
      simp [storedRegistration, storedObject, hnone]
  | put k value expected =>
    obtain ⟨rfl, row, body, bound, hrow, hb, hfree, hnode, hrv, rfl, he⟩ := hG
    have hmem : (⟨.get (podText key), .ok (some row)⟩ : Σ o : AppOp β, o.Reply) ∈ storeCalls h :=
      mem_filterMap.mpr ⟨_, hrow, rfl⟩
    have hpast := hk.read _ hmem (_, row) (mem_singleton.mpr rfl)
    have hunbound : registration body = none := if_pos hfree
    obtain ⟨e, hx⟩ | ⟨row', hrow', hchk, heq, hx⟩ | ⟨stamped, n, objName, hchk, -, hst, hx⟩ :=
      exec_put codec s (podText key) f (codec.toVec bound) expected
    · rw [hx]
      exact .inl ⟨rfl, rfl⟩
    · -- The write changes the node, so it is never taken for a repeated one.
      have hchk : checkExpected (podText key) ((s.db.objects.lookup (podText key)).map Row.revision) expected =
          .ok () := by rwa [hrow']
      obtain rfl := some.inj (hrow'.symm.trans (hpast.of_resourceVersion hb hrv he hchk))
      obtain ⟨put, stored, hput, hstored, hc⟩ := carries_of_semanticallyEqual heq
      obtain rfl := codec.fromSlice_toVec_some hput
      obtain rfl : stored = body := some.inj (hstored.symm.trans hb)
      have hsame := nodeName_of_registration (registration_carries ((carries_mapFloats _ _).trans hc))
      exact (hnode (hsame.symm.trans hfree)).elim
    · have hcur := hpast.of_resourceVersion hb hrv he hchk
      rw [hx]
      refine .inr ⟨_, rfl, wrote_committed ?_ hst⟩
      rw [storedRegistration, storedObject_of_lookup hcur hb]
      exact hunbound
  | delete k x =>
    obtain rfl := hG
    obtain ⟨e, hx⟩ | ⟨row, -, -, hx⟩ := exec_delete codec s (podText key) f x
    · rw [hx]
      exact .inl ⟨rfl, rfl⟩
    · rw [hx]
      exact .inr ⟨_, rfl, deleted_committed⟩
  | _ => exact hG.elim

end Commits

def owes (qs : ℕ → PodRequest) (past : ℕ → PodTrace β) (i : ℕ) :
    Option (Outbox.Entry PodKey (Option (Option (String × PodEdges)))) :=
  (owed (qs i).key (past i)).map (fun e => ⟨e.key, effectOf codec e.effect, e.rev⟩)

structure Registering (qs : ℕ → PodRequest) (s : Cluster β) (past : ℕ → PodTrace β) : Prop where
  versioned : Versioned codec s.app
  known : ∀ i, Known codec s.app (storeCalls (past i))
  parsed : ∀ i, ∀ e ∈ owed (qs i).key (past i), ∀ value ∈ e.effect, (codec.fromSlice value).isSome = true
  settles : ∃ P, Outbox.Settles View.call (owes codec qs past) s.graph.view
    (fun key => exactView (storedRegistration codec s.app key)) s.app.db.revision P

section Steps

variable {codec} {qs : ℕ → PodRequest} {s : Cluster β} {past : ℕ → PodTrace β} {i : ℕ}

theorem owed_key (he : owed key h = some e) : e.key = key := by
  unfold owed at he
  split at he <;> cases he <;> rfl

variable (codec qs past) in
theorem owes_update (he : owed (qs i).key [e] = w) :
    owes codec qs (update past i (past i ++ [e])) i =
        w.map (fun e => ⟨e.key, effectOf codec e.effect, e.rev⟩) ∧
      ∀ j ≠ i, owes codec qs (update past i (past i ++ [e])) j = owes codec qs past j := by
  refine ⟨?_, fun j hj => ?_⟩
  · rw [owes, update_self, owed_concat, he]
  · rw [owes, update_of_ne hj, owes]

section

variable (hi : Registering codec qs s past)
include hi

theorem parsed_update (he : ∀ w ∈ owed (qs i).key [e], ∀ value ∈ w.effect, (codec.fromSlice value).isSome) (j : ℕ) :
    ∀ w ∈ owed (qs j).key (update past i (past i ++ [e]) j), ∀ value ∈ w.effect,
      (codec.fromSlice value).isSome := by
  by_cases hj : j = i
  · subst hj
    rw [update_self, owed_concat]
    exact he
  · rw [update_of_ne hj]
    exact hi.parsed j

theorem Registering.store (hG : RegGuard codec (qs i).key (past i) (.store o)) :
    Registering codec qs ⟨(exec codec s.app o f).1, s.graph⟩
      (update past i (past i ++ [⟨.store o, (exec codec s.app o f).2⟩])) := by
  obtain ⟨hnone, hG⟩ := hG
  obtain ⟨P, hP⟩ := hi.settles
  have hknown : ∀ j, Known codec (exec codec s.app o f).1
      (storeCalls (update past i (past i ++ [⟨.store o, (exec codec s.app o f).2⟩]) j)) := by
    intro j
    by_cases hj : j = i
    · subst hj
      rw [update_self, storeCalls_append]
      exact (hi.known j).step hi.versioned o f
    · rw [update_of_ne hj]
      exact (hi.known j).exec o f
  obtain ⟨hs, ho⟩ | ⟨written, ho, hc⟩ := store_cases (hi.known i) hG f
  · refine ⟨hi.versioned.exec o f, hknown, parsed_update hi (by rw [ho]; nofun), P, ?_⟩
    obtain ⟨hself, hother⟩ := owes_update codec qs past ho
    have heff : owes codec qs (update past i (past i ++ [⟨.store o, (exec codec s.app o f).2⟩])) =
        owes codec qs past := by
      funext j
      by_cases hj : j = i
      · subst hj
        rw [hself, owes, hnone]
      · exact hother j hj
    rw [heff, hs]
    exact hP
  · refine ⟨hi.versioned.exec o f, hknown, parsed_update hi ?_, ?_⟩
    · rw [ho]
      rintro w ⟨⟩
      exact hc.parsed
    · obtain ⟨hself, hother⟩ := owes_update codec qs past ho
      obtain ⟨Q, hQ⟩ := hP.commit (by rw [owes, hnone]; rfl) hself hother (Nat.lt_succ_self _) hc.self
        (fun k hk => congrArg exactView (hc.other k hk))
      exact ⟨Q, by rw [hc.revision]; exact hQ⟩

theorem Registering.graph (ho : owed (qs i).key (past i) = some e)
    (hfirst : ∀ j ≠ i, ∀ e' ∈ owed (qs j).key (past j), e'.key = e.key → e.rev < e'.rev)
    (hlast : owed (qs i).key [⟨o, r⟩] = none) (hcalls : storeCalls [⟨o, r⟩] = [])
    (hself : g.view e.key = (s.graph.view e.key).call (effectOf codec e.effect))
    (hother : ∀ k ≠ e.key, g.view k = s.graph.view k) :
    Registering codec qs ⟨s.app, g⟩ (update past i (past i ++ [⟨o, r⟩])) := by
  obtain ⟨P, hP⟩ := hi.settles
  obtain ⟨hnone, heff⟩ := owes_update codec qs past hlast
  refine ⟨hi.versioned, fun j => ?_, parsed_update hi (by rw [hlast]; nofun), ?_⟩
  · by_cases hj : j = i
    · subst hj
      rw [update_self, storeCalls_append, hcalls, append_nil]
      exact hi.known j
    · rw [update_of_ne hj]
      exact hi.known j
  · have howes : owes codec qs past i = some ⟨e.key, effectOf codec e.effect, e.rev⟩ := by rw [owes, ho]; rfl
    refine hP.deliver howes hnone heff (fun j hj a ha hk => ?_) hself hother
    obtain ⟨e', he', rfl⟩ := map_eq_some_iff.mp ha
    exact hfirst j hj e' he' hk

theorem Registering.applyPod
    (hG : RegGuard codec (qs i).key (past i) (.applyPod key body)) (ho : owed (qs i).key (past i) = some e)
    (hfirst : ∀ j ≠ i, ∀ e' ∈ owed (qs j).key (past j), e'.key = e.key → e.rev < e'.rev) :
    Registering codec qs ⟨s.app, s.graph.applyPod key body⟩
      (update past i (past i ++ [⟨.applyPod key body, ()⟩])) := by
  obtain ⟨rfl, put, rv, ho', hreg⟩ := hG
  obtain rfl := some.inj (ho.symm.trans ho')
  obtain ⟨put', hput⟩ := isSome_iff_exists.mp (hi.parsed i _ ho _ rfl)
  obtain rfl := codec.fromSlice_toVec_some hput
  refine hi.graph ho hfirst rfl rfl ?_ (fun k hk => applyPod_view_ne hk body)
  rw [applyPod_view, hreg, ← registration_carries (carries_mapFloats codec.refloat put)]
  simp only [effectOf, map_some, hput, bind_some]

theorem Registering.removePod
    (hG : RegGuard codec (qs i).key (past i) (.removePod key)) (ho : owed (qs i).key (past i) = some e)
    (hfirst : ∀ j ≠ i, ∀ e' ∈ owed (qs j).key (past j), e'.key = e.key → e.rev < e'.rev) :
    Registering codec qs ⟨s.app, s.graph.removePod key⟩
      (update past i (past i ++ [⟨.removePod key, ()⟩])) := by
  obtain ⟨rfl, hnone⟩ := hG
  have hkey := owed_key ho
  have heff : effectOf codec e.effect = none := by rw [hnone e ho]; rfl
  refine hi.graph ho hfirst rfl rfl ?_ (fun k hk => removePod_view_ne (hkey ▸ hk))
  rw [hkey, heff]
  exact removePod_view

end

variable (codec qs) in
theorem registering_preserves :
    World.Preserves (Cluster.exec codec) (fun i => RegGuard codec (qs i).key) (InOrder qs)
      (Registering codec qs) := by
  intro w i f o k hcall hi hG hC
  cases o with
  | store o => exact hi.store hG
  | applyPod key body =>
    simp only [InOrder, hcall] at hC
    obtain ⟨e, ho, hfirst⟩ := hC
    exact hi.applyPod hG ho hfirst
  | removePod key =>
    simp only [InOrder, hcall] at hC
    obtain ⟨e, ho, hfirst⟩ := hC
    exact hi.removePod hG ho hfirst

end Steps

theorem graph_exact_when_settled (qs : ℕ → PodRequest) (s : Cluster β) (hs : Versioned codec s.app)
    (ht : Tracks codec s) (as : List (ℕ × List Bool))
    (hC : Along (podStep codec) (InOrder qs) (podRequests codec qs s) as)
    (hdone : Settled qs (run (podStep codec) (podRequests codec qs s) as)) :
    Exact codec (run (podStep codec) (podRequests codec qs s) as).shared := by
  have hstart : Registering codec qs s (fun _ => []) := by
    refine ⟨hs, fun _ => known_nil s.app, fun _ => nofun, [], nofun, .nil, nofun, ht⟩
  obtain ⟨-, hi⟩ := (registering_preserves codec qs).run
    (World.kept_start (fun i => handler_keeps (qs i))) hstart hC
  obtain ⟨P, hP⟩ := hi.settles
  have hview := hP.done (fun i => map_eq_none_iff.mpr (hdone i))
  exact Tracks.exact (fun key => congrFun hview key)

def podP : PodKey := (⟨"a", (absurd · (by decide)), (absurd · (by decide))⟩, ⟨"p", by decide, by decide⟩)

def mountingPod (node secret : String) : Json :=
  .obj [("metadata", .obj [("name", .str "p"), ("namespace", .str "a")]),
    ("spec", .obj [("nodeName", .str node),
      ("volumes", .arr [.obj [("name", .str "v"), ("secret", .obj [("secretName", .str secret)])]])])]

def moved : ℕ → PodRequest
  | 0 => ⟨podP, .create (mountingPod "n1" "s1")⟩
  | 1 => ⟨podP, .delete⟩
  | _ => ⟨podP, .create (mountingPod "n2" "s2")⟩

def emptyCluster : Cluster (Option Json) :=
  ⟨(exec JsonCodec.parsed ⟨.new _, .new⟩ (.put (clusterObjectKey "namespaces" "a")
    (some (.obj [("metadata", .obj [("name", .str "a")])])) (some 0)) []).1, .new⟩

def movedRun (as : List ℕ) : PodWorld (Option Json) :=
  run (podStep JsonCodec.parsed) (podRequests JsonCodec.parsed moved emptyCluster) (as.map (fun i => (i, [])))

theorem movedRun_idle (hj : j ∉ as) : owed (moved j).key ((movedRun as).past j) = none := by
  have hpast : (movedRun as).past j = [] := World.run_past_of_notMem _ (by simpa using hj)
  rw [hpast]
  rfl

theorem late_call_crosses_nodes :
    Settled moved (movedRun [0, 1, 1, 0, 2, 2]) ∧
      (storedObject JsonCodec.parsed (movedRun [0, 1, 1, 0, 2, 2]).shared.app (podText podP)).map nodeName =
        some "n2" ∧
      (movedRun [0, 1, 1, 0, 2, 2]).shared.graph.secretReferenced "n1" podP.1 "s2" = true ∧
      (movedRun [0, 1, 1, 0, 2, 2]).shared.graph.podOnNode podP "n1" = true := by
  refine ⟨fun i => ?_, by decide +kernel, by decide +kernel, by decide +kernel⟩
  by_cases hi : i ∈ [0, 1, 1, 0, 2, 2]
  · revert i
    decide +kernel
  · exact movedRun_idle hi

theorem graph_exact_when_settled_moved :
    Exact JsonCodec.parsed (movedRun [0, 0, 1, 1, 2, 2]).shared ∧
      (movedRun [0, 0, 1, 1, 2, 2]).shared.graph.secretReferenced "n2" podP.1 "s2" = true := by
  have hnew : Versioned JsonCodec.parsed (⟨.new _, .new⟩ : AppState (Option Json)) :=
    ⟨Db.new_sound _, by simp [Db.new]⟩
  have hempty : Tracks JsonCodec.parsed emptyCluster := by
    intro key
    have hlookup : emptyCluster.app.db.objects.lookup (podText key) = none := by
      refine AList.lookup_eq_none.mpr (fun hmem => ?_)
      have htext := congrArg String.toList (mem_singleton.mp hmem)
      simp [podText, objectKey, clusterObjectKey] at htext
    have hnone : storedRegistration JsonCodec.parsed emptyCluster.app key = none := by
      simp [storedRegistration, storedObject, hlookup]
    rw [hnone]
    exact View.ext rfl (Set.ext fun n => by simp [NodeGraph.view, NodeGraph.podOnNode, exactView, emptyCluster, NodeGraph.new])
  -- Nobody but the request whose turn it is owes a call.
  have horder : ∀ as i, (owed (moved i).key ((movedRun as).past i)).isSome →
      (∀ j ∈ as, j ≠ i → owed (moved j).key ((movedRun as).past j) = none) →
      ∃ e, owed (moved i).key ((movedRun as).past i) = some e ∧
        ∀ j ≠ i, ∀ e' ∈ owed (moved j).key ((movedRun as).past j), e'.key = e.key → e.rev < e'.rev := by
    intro as i hi hother
    obtain ⟨e, he⟩ := isSome_iff_exists.mp hi
    refine ⟨e, he, fun j hj e' he' => ?_⟩
    by_cases hmem : j ∈ as
    · rw [hother j hmem hj] at he'
      cases he'
    · rw [movedRun_idle hmem] at he'
      cases he'
  refine ⟨graph_exact_when_settled JsonCodec.parsed moved emptyCluster (hnew.exec _ _) hempty _
    ⟨trivial, horder [0] 0 ?_ ?_, trivial, horder [0, 0, 1] 1 ?_ ?_, trivial, horder [0, 0, 1, 1, 2] 2 ?_ ?_,
      trivial⟩ (fun i => ?_), by decide +kernel⟩
  case refine_7 =>
    by_cases hi : i ∈ [0, 0, 1, 1, 2, 2]
    · revert i
      decide +kernel
    · exact movedRun_idle hi
  all_goals decide +kernel

end U7s.Node
