import U7s.Lib.Tables
import U7s.Scheduler.Reservations
import U7s.Scheduler.Resources

/-! The scheduler, the pods of the API server and the events still to be delivered, on one connection. A pod gets
its node from a bind of the scheduler only. -/

namespace U7s.Scheduler

structure ApiPod where
  nodeName : Option String
  terminal : Bool
  labels : List (String × String)
  priority : ℤ
  requests : ResourceRequests
  hostPorts : List HostPortClaim
  pvcNames : List String

def ApiPod.event (p : ApiPod) (type : EventType) (key : Key) : PodEvent :=
  ⟨type, key, p.nodeName, p.terminal, p.labels, p.priority, p.requests, p.hostPorts, p.pvcNames⟩

structure Cluster where
  sched : State
  api : AList (fun _ : Key => ApiPod)
  undelivered : List PodEvent

inductive ClusterAction where
  | create (key : Key) (pod : ApiPod)
  /-- A change of anything but the node, the phase and the requests. -/
  | update (key : Key) (pod : ApiPod)
  | finish (key : Key)
  | delete (key : Key)
  | deliver
  | spawn (pod : PendingPod)
  | task (i : ℕ) (b : TaskAction)

namespace Cluster

def empty : Cluster := ⟨{ State.initial with replay := { synced := true } }, ∅, []⟩

def write (c : Cluster) (type : EventType) (key : Key) (p : ApiPod) : Cluster :=
  { c with api := c.api.insert key p, undelivered := c.undelivered ++ [p.event type key] }

def modify (c : Cluster) (key : Key) (f : ApiPod → ApiPod) : Cluster :=
  match c.api.lookup key with
  | some p => c.write .modified key (f p)
  | none => c

def answerBind (c : Cluster) (pod : PendingPod) (node : String) (reply : BindReply) : Option Cluster :=
  match reply, c.api.lookup pod.key with
  | .bound, some p =>
    if p.nodeName = none then some (c.write .modified pod.key { p with nodeName := some node }) else none
  | .alreadyAssigned, some p => if p.nodeName = none then none else some c
  | .failed, _ => some c
  | _, none => none

variable (F : Filters) (nodes : List NodeItem)

def stepSched (c : Cluster) (a : Action) : Cluster := { c with sched := c.sched.step F nodes a }

def stepBind (c : Cluster) (i : ℕ) (reply : BindReply) : Cluster :=
  match c.sched.tasks[i]? with
  | some ⟨pod, .bind node⟩ =>
    match c.answerBind pod node reply with
    | some c' => c'.stepSched F nodes (.task i (.bindReply reply))
    | none => c
  | _ => c

def step (c : Cluster) : ClusterAction → Cluster
  | .create key pod =>
    if c.api.lookup key = none then c.write .added key { pod with nodeName := none } else c
  | .update key pod => c.modify key (fun p =>
      { pod with nodeName := p.nodeName, terminal := p.terminal, requests := p.requests })
  | .finish key => c.modify key (fun p => { p with terminal := true })
  | .delete key =>
    match c.api.lookup key with
    | some p => { c with api := c.api.erase key, undelivered := c.undelivered ++ [p.event .deleted key] }
    | none => c
  | .deliver =>
    match c.undelivered with
    | e :: undelivered => { c with undelivered }.stepSched F nodes (.watch e)
    | [] => c
  | .spawn pod => c.stepSched F nodes (.spawn pod)
  | .task i (.bindReply reply) => c.stepBind F nodes i reply
  | .task i b => c.stepSched F nodes (.task i b)

end Cluster

def ApiPod.occupies (p : ApiPod) (node : String) : Bool := p.nodeName = some node && !p.terminal

def Cluster.bound (c : Cluster) (node : String) (res : Resource) : ℤ :=
  Tables.weight c.api (fun _ p => if p.occupies node then p.requests.amount res else 0)

def Cluster.Within (nodes : List NodeItem) (c : Cluster) : Prop :=
  ∀ node ∈ nodes, ∀ res, node.limits res → c.bound node.name res ≤ max (node.capacity res) 0

section Claims

def Pc.binds (node : String) : Pc → Bool
  | .bind n => n = node
  | _ => false

def Cluster.claims (c : Cluster) (node : String) (key : Key) (p : ApiPod) : Bool :=
  p.occupies node || (p.nodeName.isNone && c.sched.tasks.any (fun t => t.pod.key = key && t.pc.binds node))

def Cluster.Claim (c : Cluster) (node : String) (key : Key) (r : ResourceRequests) : Prop :=
  ∃ p, c.api.lookup key = some p ∧ c.claims node key p = true ∧ p.requests = r

def Cluster.claimWeight (c : Cluster) (node : String) (res : Resource) (key : Key) (p : ApiPod) : ℤ :=
  if c.claims node key p then p.requests.amount res else 0

def Cluster.claimed (c : Cluster) (node : String) (res : Resource) : ℤ :=
  Tables.weight c.api (c.claimWeight node res)

variable {c c' : Cluster} {node : String} {key : Key} {res : Resource}

def Cluster.Nonneg (c : Cluster) : Prop := ∀ key p, c.api.lookup key = some p → ∀ res, 0 ≤ p.requests.amount res

theorem Cluster.claims_iff : c.claims node key p ↔ (p.nodeName = some node ∧ p.terminal = false) ∨
    p.nodeName = none ∧ ∃ t ∈ c.sched.tasks, t.pod.key = key ∧ t.pc.binds node := by
  simp [Cluster.claims, ApiPod.occupies]

theorem claimAt_le (hx : 0 ≤ x) (h : ∀ r, c.Claim node key r → r.amount res ≤ x) :
    Tables.weightAt c.api (c.claimWeight node res) key ≤ x := by
  refine Tables.weightAt_le hx (fun p hp => ?_)
  unfold Cluster.claimWeight
  split_ifs with hclaim
  · exact h p.requests ⟨p, hp, hclaim, rfl⟩
  · exact hx

theorem claimAt_eq (h : c.Claim node key r) :
    Tables.weightAt c.api (c.claimWeight node res) key =
      r.amount res := by
  obtain ⟨p, hp, hclaim, rfl⟩ := h
  simp [Tables.weightAt, Cluster.claimWeight, hp, hclaim]

theorem claimAt_nonneg (h : c.Nonneg) : 0 ≤ Tables.weightAt c.api (c.claimWeight node res) key := by
  refine Tables.weightAt_nonneg (fun p hp => ?_)
  unfold Cluster.claimWeight
  split_ifs
  · exact h key p hp res
  · exact le_refl _

theorem claimed_le_add (hc : c.Nonneg) (hr : 0 ≤ r.amount res)
    (h : ∀ k r', c'.Claim node k r' → c.Claim node k r' ∨ k = key ∧ r' = r) :
    c'.claimed node res ≤ c.claimed node res + r.amount res := by
  refine Tables.weight_le_add key (fun k => ?_)
  have hnon : 0 ≤ Tables.weightAt c.api (c.claimWeight node res) k := claimAt_nonneg hc
  refine claimAt_le (by split_ifs <;> omega) (fun r' hr' => ?_)
  obtain hold | ⟨rfl, rfl⟩ := h k r' hr'
  · rw [claimAt_eq hold]
    split_ifs <;> omega
  · rw [if_pos rfl]
    omega

theorem claimed_le (hc : c.Nonneg) (h : ∀ k r, c'.Claim node k r → c.Claim node k r) :
    c'.claimed node res ≤ c.claimed node res := by
  refine Tables.weight_le (fun k => ?_)
  refine claimAt_le (claimAt_nonneg hc) (fun r hr => ?_)
  rw [claimAt_eq (h k r hr)]

theorem bound_le_claimed (hc : c.Nonneg) : c.bound node res ≤ c.claimed node res := by
  refine Tables.weight_mono (fun k p hp => ?_)
  have hnon := hc k p hp res
  unfold Cluster.claimWeight
  cases hocc : p.occupies node with
  | true => simp [Cluster.claims, hocc]
  | false =>
    rw [if_neg (by decide)]
    split_ifs
    · exact hnon
    · exact le_refl 0

end Claims

end U7s.Scheduler
