import U7s.Lib.MachineInt

namespace U7s.Scheduler

open AList MachineInt

structure Key where
  ns : String
  name : String
deriving DecidableEq

structure ResourceRequests where
  cpuMilli : ℤ := 0
  memoryMilli : ℤ := 0
  ephemeralStorageMilli : ℤ := 0
  extended : AList (fun _ : String => ℤ) := ∅

def addAmount (m : AList (fun _ : String => ℤ)) (e : (_ : String) × ℤ) : AList (fun _ : String => ℤ) :=
  m.insert e.1 (addI64 ((m.lookup e.1).getD 0) e.2)

def subAmount (m : AList (fun _ : String => ℤ)) (e : (_ : String) × ℤ) : AList (fun _ : String => ℤ) :=
  match m.lookup e.1 with
  | some remaining => m.insert e.1 (subI64 remaining e.2)
  | none => m

namespace ResourceRequests

def add (a b : ResourceRequests) : ResourceRequests where
  cpuMilli := addI64 a.cpuMilli b.cpuMilli
  memoryMilli := addI64 a.memoryMilli b.memoryMilli
  ephemeralStorageMilli := addI64 a.ephemeralStorageMilli b.ephemeralStorageMilli
  extended := b.extended.entries.foldl addAmount a.extended

def subtractRequests (total victim : ResourceRequests) : ResourceRequests where
  cpuMilli := subI64 total.cpuMilli victim.cpuMilli
  memoryMilli := subI64 total.memoryMilli victim.memoryMilli
  ephemeralStorageMilli := subI64 total.ephemeralStorageMilli victim.ephemeralStorageMilli
  extended := victim.extended.entries.foldl subAmount total.extended

end ResourceRequests

structure HostPortClaim where
  hostPort : ℤ
  protocol : String
  hostIp : String
deriving DecidableEq

structure TalliedPod where
  nodeName : String
  labels : List (String × String)
  priority : ℤ
  requests : ResourceRequests
  hostPorts : List HostPortClaim
  pvcNames : List Key

structure Pods where
  pods : AList (fun _ : Key => TalliedPod)
  byNode : AList (fun _ : String => Finset Key)
  indexed : ∀ node key, key ∈ (byNode.lookup node).getD ∅ ↔
    ∃ pod, pods.lookup key = some pod ∧ pod.nodeName = node

def dropKey (byNode : AList (fun _ : String => Finset Key)) (node : String) (key : Key) :
    AList (fun _ : String => Finset Key) :=
  match byNode.lookup node with
  | some keys => byNode.insert node (keys.erase key)
  | none => byNode

def enterKey (byNode : AList (fun _ : String => Finset Key)) (node : String) (key : Key) :
    AList (fun _ : String => Finset Key) :=
  byNode.insert node (insert key ((byNode.lookup node).getD ∅))

def pruneKey (byNode : AList (fun _ : String => Finset Key)) (node : String) (key : Key) :
    AList (fun _ : String => Finset Key) :=
  match byNode.lookup node with
  | some keys => if keys.erase key = ∅ then byNode.erase node else byNode.insert node (keys.erase key)
  | none => byNode

theorem mem_dropKey : k ∈ ((dropKey byNode node key).lookup n).getD ∅ ↔
    k ∈ (byNode.lookup n).getD ∅ ∧ ¬ (n = node ∧ k = key) := by
  unfold dropKey
  cases hnode : byNode.lookup node with
  | none =>
    refine ⟨fun h => ⟨h, ?_⟩, And.left⟩
    rintro ⟨rfl, rfl⟩
    simp [hnode] at h
  | some keys =>
    by_cases hn : n = node
    · subst hn
      simp [hnode, and_comm]
    · simp [hn]

theorem mem_enterKey : k ∈ ((enterKey byNode node key).lookup n).getD ∅ ↔
    (n = node ∧ k = key) ∨ k ∈ (byNode.lookup n).getD ∅ := by
  unfold enterKey
  by_cases hn : n = node
  · subst hn
    simp
  · simp [hn]

theorem mem_pruneKey : k ∈ ((pruneKey byNode node key).lookup n).getD ∅ ↔
    k ∈ (byNode.lookup n).getD ∅ ∧ ¬ (n = node ∧ k = key) := by
  rw [← mem_dropKey]
  unfold pruneKey dropKey
  cases hnode : byNode.lookup node with
  | none => rfl
  | some keys =>
    dsimp only
    split_ifs with hempty
    · by_cases hn : n = node
      · subst hn
        simp [hempty]
      · simp [lookup_insert_ne hn, lookup_erase_ne hn]
    · rfl

namespace Pods

def empty : Pods := ⟨∅, ∅, by simp⟩

def lookup (c : Pods) (key : Key) : Option TalliedPod := c.pods.lookup key

def insertPod (c : Pods) (key : Key) (pod : TalliedPod) : Pods where
  pods := c.pods.insert key pod
  byNode := match c.pods.lookup key with
    | some old => enterKey (if old.nodeName ≠ pod.nodeName then dropKey c.byNode old.nodeName key else c.byNode)
        pod.nodeName key
    | none => enterKey c.byNode pod.nodeName key
  indexed := by
    intro n k
    have hidx := c.indexed n k
    by_cases hk : k = key
    · subst hk
      rw [lookup_insert]
      cases hold : c.pods.lookup k with
      | none => simpa [mem_enterKey, hidx, hold] using eq_comm
      | some old =>
        dsimp only
        split_ifs with hn
        · simp only [mem_enterKey, mem_dropKey, hidx, hold, Option.some.injEq, exists_eq_left']
          grind
        · simp only [mem_enterKey, hidx, hold, Option.some.injEq, exists_eq_left']
          grind
    · rw [lookup_insert_ne hk]
      cases hold : c.pods.lookup key with
      | none => simp [mem_enterKey, hidx, hk]
      | some old =>
        dsimp only
        split_ifs
        · simp [mem_enterKey, mem_dropKey, hidx, hk]
        · simp [mem_enterKey, hidx, hk]

def removePod (c : Pods) (key : Key) : Pods where
  pods := c.pods.erase key
  byNode := match c.pods.lookup key with
    | some removed => pruneKey c.byNode removed.nodeName key
    | none => c.byNode
  indexed := by
    intro n k
    have hidx := c.indexed n k
    by_cases hk : k = key
    · subst hk
      rw [lookup_erase]
      cases hold : c.pods.lookup k with
      | none => simp [hidx, hold]
      | some old =>
        simp only [mem_pruneKey, hidx, hold, Option.some.injEq, exists_eq_left']
        grind
    · rw [lookup_erase_ne hk]
      cases hold : c.pods.lookup key with
      | none => exact hidx
      | some old => simp [mem_pruneKey, hidx, hk]

variable (c : Pods)

@[simp] theorem lookup_insertPod (key : Key) (pod : TalliedPod) : (c.insertPod key pod).lookup key = some pod :=
  lookup_insert _

theorem lookup_insertPod_ne (h : k ≠ key) (pod : TalliedPod) : (c.insertPod key pod).lookup k = c.lookup k :=
  lookup_insert_ne h

@[simp] theorem lookup_removePod (key : Key) : (c.removePod key).lookup key = none :=
  lookup_erase _ _

theorem lookup_removePod_ne (h : k ≠ key) : (c.removePod key).lookup k = c.lookup k :=
  lookup_erase_ne h

theorem lookup_removePod_some (h : (c.removePod key).lookup k = some pod) : k ≠ key ∧ c.lookup k = some pod := by
  by_cases hk : k = key
  · subst hk
    rw [lookup_removePod] at h
    cases h
  · exact ⟨hk, c.lookup_removePod_ne hk ▸ h⟩

end Pods

structure PendingPod where
  key : Key
  priority : ℤ
  labels : List (String × String)
  requests : ResourceRequests
  hostPorts : List HostPortClaim
  pvcNames : List String
  readWriteOncePodPvcs : List String

def pvcKey (ns name : String) : Key := ⟨ns, name⟩

def PendingPod.tallied (pod : PendingPod) (node : String) : TalliedPod :=
  ⟨node, pod.labels, pod.priority, pod.requests, pod.hostPorts, pod.pvcNames.map (pvcKey pod.key.ns)⟩

structure WaitingPlan where
  pod : PendingPod
  nodeName : String
  remainingVictims : Finset Key

structure NodeTally where
  cache : Pods
  reservedVictims : Finset Key
  waiters : List WaitingPlan

namespace NodeTally

def empty : NodeTally := ⟨Pods.empty, ∅, []⟩

def resolve (t : NodeTally) (victim : Key) : NodeTally × List WaitingPlan :=
  let plans := t.waiters.map (fun p => { p with remainingVictims := p.remainingVictims.erase victim })
  ({ t with waiters := plans.filter (fun p => p.remainingVictims ≠ ∅) },
    plans.filter (fun p => p.remainingVictims = ∅))

end NodeTally

inductive EventType where
  | added
  | modified
  | deleted
deriving DecidableEq

structure PodEvent where
  type : EventType
  key : Key
  nodeName : Option String
  terminal : Bool
  labels : List (String × String)
  priority : ℤ
  requests : ResourceRequests
  hostPorts : List HostPortClaim
  pvcNames : List String

def PodEvent.tallied (e : PodEvent) (node : String) : TalliedPod :=
  ⟨node, e.labels, e.priority, e.requests, e.hostPorts, e.pvcNames.map (pvcKey e.key.ns)⟩

def PodEvent.gone (e : PodEvent) : Bool :=
  e.type = .deleted || (e.nodeName.isSome && e.terminal)

namespace NodeTally

def applyEvent (t : NodeTally) (e : PodEvent) : NodeTally × List WaitingPlan :=
  if e.type = .deleted then { t with cache := t.cache.removePod e.key }.resolve e.key
  else match e.nodeName with
    | some node =>
      if e.terminal then { t with cache := t.cache.removePod e.key }.resolve e.key
      else ({ t with cache := t.cache.insertPod e.key (e.tallied node) }, [])
    | none => (t, [])

theorem applyEvent_gone {t : NodeTally} (h : e.gone) :
    t.applyEvent e = { t with cache := t.cache.removePod e.key }.resolve e.key := by
  unfold applyEvent
  by_cases hd : e.type = .deleted
  · rw [if_pos hd]
  · simp only [PodEvent.gone, hd, decide_false, Bool.false_or, Bool.and_eq_true] at h
    obtain ⟨node, hn⟩ := Option.isSome_iff_exists.mp h.1
    simp only [if_neg hd, hn, h.2, if_true]

theorem applyEvent_present {t : NodeTally} (h : e.gone = false) :
    t.applyEvent e = ({ t with cache := e.nodeName.elim t.cache (fun node =>
      t.cache.insertPod e.key (e.tallied node)) }, []) := by
  unfold applyEvent
  simp only [PodEvent.gone, Bool.or_eq_false_iff, decide_eq_false_iff_not] at h
  rw [if_neg h.1]
  cases hn : e.nodeName with
  | none => rfl
  | some node =>
    have ht : e.terminal = false := by simpa [hn] using h.2
    simp only [ht, Bool.false_eq_true, if_false, Option.elim]

def assume (t : NodeTally) (pod : PendingPod) (node : String) : NodeTally :=
  { t with cache := t.cache.insertPod pod.key (pod.tallied node) }

def remove (t : NodeTally) (key : Key) : NodeTally := { t with cache := t.cache.removePod key }

def clear (t : NodeTally) : NodeTally × List Key := (empty, t.waiters.map (fun p => p.pod.key))

def replacePods (t fresh : NodeTally) : NodeTally × List Key :=
  ({ t.clear.1 with cache := fresh.cache }, t.clear.2)

def registerPreemptionWaiter (t : NodeTally) (pod : PendingPod) (node : String) (victims : List Key) : NodeTally :=
  { t with waiters := t.waiters ++ [⟨pod, node, victims.toFinset⟩] }

def claimVictims (t : NodeTally) (victims : List Key) : NodeTally :=
  { t with reservedVictims := t.reservedVictims ∪ victims.toFinset }

def releaseVictims (t : NodeTally) (victims : List Key) : NodeTally :=
  { t with reservedVictims := t.reservedVictims \ victims.toFinset }

def onNode (t : NodeTally) (node : String) : List (Key × TalliedPod) :=
  (t.cache.pods.entries.map (fun e => (e.1, e.2))).filter (fun p => p.2.nodeName = node)

def podsOn (t : NodeTally) (node : String) : List (Key × TalliedPod) :=
  (t.cache.pods.entries.map (fun e => (e.1, e.2))).filter (fun p =>
    p.1 ∈ (t.cache.byNode.lookup node).getD ∅ ∧ p.1 ∉ t.reservedVictims)

variable {t : NodeTally} {node : String} {key : Key} {pod : TalliedPod}

theorem mem_entries : (key, pod) ∈ t.cache.pods.entries.map (fun e => (e.1, e.2)) ↔
    t.cache.lookup key = some pod := by
  simp only [List.mem_map, Prod.mk.injEq]
  constructor
  · rintro ⟨⟨k, p⟩, he, rfl, rfl⟩
    exact mem_lookup_iff.mpr he
  · intro h
    exact ⟨⟨key, pod⟩, mem_lookup_iff.mp h, rfl, rfl⟩

theorem mem_onNode : (key, pod) ∈ t.onNode node ↔ t.cache.lookup key = some pod ∧ pod.nodeName = node := by
  rw [onNode, List.mem_filter, mem_entries]
  simp

theorem mem_podsOn : (key, pod) ∈ t.podsOn node ↔
    t.cache.lookup key = some pod ∧ pod.nodeName = node ∧ key ∉ t.reservedVictims := by
  rw [podsOn, List.mem_filter, mem_entries]
  simp only [t.cache.indexed, decide_eq_true_eq, Pods.lookup]
  constructor
  · rintro ⟨h, ⟨p, hp, hn⟩, hv⟩
    rw [h] at hp
    cases hp
    exact ⟨h, hn, hv⟩
  · rintro ⟨h, hn, hv⟩
    exact ⟨h, ⟨pod, h, hn⟩, hv⟩

end NodeTally

end U7s.Scheduler
