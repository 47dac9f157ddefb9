import U7s.Scheduler.Cluster

/-! Every pod that occupies a node, or is being bound to it, has to be tallied there; then room in the tally is room
on the node. -/

namespace U7s.Scheduler

open List AList

section Conditions

variable (F : Filters) (nodes : List NodeItem)

def Cluster.Fresh (c : Cluster) (pod : PendingPod) : Prop :=
  ∀ p, c.api.lookup pod.key = some p → p.nodeName = none ∧ p.requests = pod.requests

def Summable (t : NodeTally) (pod : PendingPod) (node : String) : Prop :=
  ∀ res, (∀ p ∈ t.onNode node, 0 ≤ p.2.requests.amount res) ∧ 0 ≤ pod.requests.amount res ∧
    totalOf (t.onNode node) res + pod.requests.amount res < 2 ^ 63

/-- A name is not used again while something about its last pod is under way, a decision is about a pod that is not
bound, a victim leaves the tally only once it claims nothing, and a deferred bind is weighed against all that claim
its node. -/
def Cluster.Permits (c : Cluster) : ClusterAction → Prop
  | .create key pod =>
    key ∉ c.sched.inFlight ∧ (∀ e ∈ c.undelivered, e.key ≠ key) ∧ ∀ res, 0 ≤ pod.requests.amount res
  | .task i .pick => ∀ t, c.sched.tasks[i]? = some t → c.Fresh t.pod ∧
      ∀ r, c.sched.reserves F nodes (.task i .pick) = some r → Summable c.sched.tally t.pod r.2
  | .task i (.plan _ _) => ∀ t, c.sched.tasks[i]? = some t → c.Fresh t.pod
  | .task i (.deleted true) => ∀ pod node victims v todo n,
      c.sched.tasks[i]? = some ⟨pod, .evict node victims (v :: todo) n⟩ → ∀ m r, ¬ c.Claim m v r
  | .task i .check => ∀ pod node, c.sched.tasks[i]? = some ⟨pod, .check node⟩ →
      Summable c.sched.tally pod node ∧
        (∃ q, c.sched.tally.cache.lookup pod.key = some q ∧ q.nodeName = node ∧ q.requests = pod.requests) ∧
        ∀ k r, c.Claim node k r → k ∉ c.sched.tally.reservedVictims
  | _ => True

end Conditions

def Pc.reserved : Pc → Bool
  | .evict _ _ _ _ | .check _ | .bind _ | .rollback => true
  | _ => false

def PodEvent.Of (e : PodEvent) (p : ApiPod) : Prop :=
  e.type ≠ .deleted ∧ e.requests = p.requests ∧ (e.nodeName = none ∨ e.nodeName = p.nodeName) ∧
    (e.terminal = true → p.terminal = true)

def Cluster.Tallied (c : Cluster) : Prop :=
  ∀ node key r, c.Claim node key r →
    ∃ q, c.sched.tally.cache.lookup key = some q ∧ q.nodeName = node ∧ q.requests = r

structure Sound (nodes : List NodeItem) (c : Cluster) : Prop where
  owned : Owned c.sched
  live : c.sched.replay.synced = true ∧ c.sched.settled = true
  tallied : c.Tallied
  events : ∀ key p, c.api.lookup key = some p → ∀ e ∈ c.undelivered, e.key = key → e.Of p
  tasks : ∀ t ∈ c.sched.tasks, t.pc.reserved = true → c.Fresh t.pod
  plans : ∀ plan ∈ c.sched.tally.waiters, c.Fresh plan.pod
  nonneg : c.Nonneg
  within : ∀ node ∈ nodes, ∀ res, node.limits res → c.claimed node.name res ≤ max (node.capacity res) 0

theorem Pc.owns_of_reserved {pc : Pc} (h : pc.reserved) : pc.owns := by
  cases pc with
  | released => cases h
  | _ => rfl

theorem Pc.reserved_of_binds {pc : Pc} (h : pc.binds node) : pc.reserved := by
  cases pc with
  | bind => rfl
  | _ => cases h

theorem Owned.mem_of_task (hs : Owned s) (ht : t ∈ s.tasks) (hpc : t.pc.owns) : t.pod.key ∈ s.inFlight := by
  rw [← Finset.mem_val, ← hs]
  exact mem_owners.mpr (Or.inl ⟨t, ht, hpc, rfl⟩)

theorem Owned.mem_of_plan (hs : Owned s) (hplan : plan ∈ s.tally.waiters) : plan.pod.key ∈ s.inFlight := by
  rw [← Finset.mem_val, ← hs]
  exact mem_owners.mpr (Or.inr (Or.inl ⟨plan, hplan, rfl⟩))

theorem Owned.plan_key_ne (hs : Owned s) (ht : t ∈ s.tasks) (hpc : t.pc.owns) (hplan : plan ∈ s.tally.waiters) :
    plan.pod.key ≠ t.pod.key := by
  have hnodup := s.inFlight.nodup
  rw [← hs, State.owners, Multiset.nodup_add, Multiset.nodup_add] at hnodup
  intro heq
  refine (Multiset.disjoint_left.mp hnodup.1.2.2) (Multiset.mem_coe.mpr (mem_map_of_mem (mem_filter.mpr ⟨ht, hpc⟩))) ?_
  exact heq ▸ Multiset.mem_coe.mpr (mem_map_of_mem hplan)

section Frames

variable {F : Filters} {nodes : List NodeItem} {c c' : Cluster} {node : String} {key : Key} {r : ResourceRequests}
  {i : ℕ} {t : Task}

theorem Sound.within_of_claims (hc : Sound nodes c) (h : ∀ n k r, c'.Claim n k r → c.Claim n k r) :
    ∀ node ∈ nodes, ∀ res, node.limits res → c'.claimed node.name res ≤ max (node.capacity res) 0 :=
  fun node hnode res hlim => (claimed_le hc.nonneg (h node.name)).trans (hc.within node hnode res hlim)

theorem Cluster.Claim.binding (h : c.Claim node pod.key r) (hfresh : c.Fresh pod) :
    r = pod.requests ∧ ∃ t ∈ c.sched.tasks, t.pod.key = pod.key ∧ t.pc.binds node := by
  obtain ⟨p, hp, hclaim, rfl⟩ := h
  obtain ⟨hnone, hreq⟩ := hfresh p hp
  obtain ⟨hn, -⟩ | ⟨-, ht⟩ := Cluster.claims_iff.mp hclaim
  · cases hnone.symm.trans hn
  · exact ⟨hreq, ht⟩

theorem Sound.unclaimed (hc : Sound nodes c) (ht : c.sched.tasks[i]? = some t) (howns : t.pc.owns)
    (hpc : ∀ n, t.pc.binds n = false) (hfresh : c.Fresh t.pod) : ¬ c.Claim node t.pod.key r := by
  intro h
  obtain ⟨-, u, hu, hkey, hbinds⟩ := h.binding hfresh
  obtain ⟨j, hj⟩ := mem_iff_getElem?.mp hu
  by_cases hij : j = i
  · subst hij
    rw [ht] at hj
    cases hj
    rw [hpc] at hbinds
    cases hbinds
  · rw [hc.owned.other_released ht howns (mem_eraseIdx_iff_getElem?.mpr ⟨j, hij, hj⟩) hkey] at hbinds
    cases hbinds

theorem claim_setPc (h : Cluster.Claim { c with sched := { c.sched with tally }.setPc i t pc } node key r) :
    c.Claim node key r ∨ (pc.binds node ∧ key = t.pod.key ∧
      ∃ p, c.api.lookup key = some p ∧ p.nodeName = none ∧ p.requests = r) := by
  obtain ⟨p, hp, hclaim, rfl⟩ := h
  obtain hocc | ⟨hnone, u, hu, hkey, hbinds⟩ := Cluster.claims_iff.mp hclaim
  · exact Or.inl ⟨p, hp, Cluster.claims_iff.mpr (Or.inl hocc), rfl⟩
  · obtain hu | rfl := mem_or_eq_of_mem_set hu
    · exact Or.inl ⟨p, hp, Cluster.claims_iff.mpr (Or.inr ⟨hnone, u, hu, hkey, hbinds⟩), rfl⟩
    · exact Or.inr ⟨hbinds, hkey.symm, p, hp, hnone, rfl⟩

theorem claim_of_tasks (hsub : ∀ u ∈ s.tasks, u ∈ c.sched.tasks ∨ ∀ n, u.pc.binds n = false)
    (h : Cluster.Claim { c with sched := s } node key r) : c.Claim node key r := by
  obtain ⟨p, hp, hclaim, rfl⟩ := h
  refine ⟨p, hp, Cluster.claims_iff.mpr ?_, rfl⟩
  refine (Cluster.claims_iff.mp hclaim).imp id (fun ⟨hnone, u, hu, hkey, hbinds⟩ => ⟨hnone, u, ?_, hkey, hbinds⟩)
  refine (hsub u hu).resolve_right (fun hno => ?_)
  rw [hno] at hbinds
  cases hbinds

theorem Sound.quiet (hc : Sound nodes c) (howned : Owned s) (hlive : s.replay.synced ∧ s.settled)
    (hsub : ∀ u ∈ s.tasks, u ∈ c.sched.tasks ∨ ∀ n, u.pc.binds n = false)
    (hentry : ∀ n k r, c.Claim n k r → ∃ q, s.tally.cache.lookup k = some q ∧ q.nodeName = n ∧ q.requests = r)
    (htasks : ∀ u ∈ s.tasks, u.pc.reserved → c.Fresh u.pod)
    (hplans : ∀ plan ∈ s.tally.waiters, c.Fresh plan.pod) : Sound nodes { c with sched := s } where
  owned := howned
  live := hlive
  tallied := fun n k r h => hentry n k r (claim_of_tasks hsub h)
  events := hc.events
  tasks := htasks
  plans := hplans
  nonneg := hc.nonneg
  within := hc.within_of_claims (fun _ _ _ => claim_of_tasks hsub)

end Frames

section Room

variable {F : Filters} {nodes : List NodeItem} {c c' : Cluster} {node : String} {key : Key} {req : ResourceRequests}
  {res : Resource}

def NodeTally.only (t : NodeTally) (P : Key × TalliedPod → Bool) : List (Key × TalliedPod) :=
  (t.cache.pods.entries.map (fun e => (e.1, e.2))).filter P

theorem totalOf_only (t : NodeTally) (P : Key × TalliedPod → Bool) (res : Resource) :
    totalOf (t.only P) res =
      Tables.weight t.cache.pods (fun k q => if P (k, q) then q.requests.amount res else 0) := by
  unfold totalOf NodeTally.only Tables.weight
  induction t.cache.pods.entries with
  | nil => rfl
  | cons e es ih =>
    rw [map_cons, filter_cons, map_cons, sum_cons, ← ih]
    dsimp only
    split_ifs
    · rw [map_cons, sum_cons]
    · rw [zero_add]

theorem Sound.claimed_le_room (hc : Sound nodes c)
    (hnonneg : ∀ p ∈ c.sched.tally.only P, 0 ≤ p.2.requests.amount res) (hreq : 0 ≤ req.amount res)
    (hcover : ∀ k r q, k ≠ key → c.Claim node k r → c.sched.tally.cache.lookup k = some q → P (k, q))
    (hclaims : ∀ k r, c'.Claim node k r → c.Claim node k r ∧ k ≠ key ∨ k = key ∧ r = req) :
    c'.claimed node res ≤ totalOf (c.sched.tally.only P) res + req.amount res := by
  rw [totalOf_only]
  refine Tables.weight_le_add key (fun k => ?_)
  have hzero : 0 ≤ Tables.weightAt c.sched.tally.cache.pods
      (fun k q => if P (k, q) then q.requests.amount res else 0) k := by
    refine Tables.weightAt_nonneg (fun q hq => ?_)
    split_ifs with hP
    · exact hnonneg (k, q) (mem_filter.mpr ⟨NodeTally.mem_entries.mpr hq, hP⟩)
    · exact le_refl 0
  refine claimAt_le (by split_ifs <;> omega) (fun r hr => ?_)
  obtain ⟨hold, hk⟩ | ⟨rfl, rfl⟩ := hclaims k r hr
  · obtain ⟨q, hq, -, rfl⟩ := hc.tallied node k r hold
    have hP := hcover k _ q hk hold hq
    have hlook : c.sched.tally.cache.pods.lookup k = some q := hq
    simp [Tables.weightAt, hlook, hP, hk]
  · rw [if_pos rfl]
    omega

theorem Sound.within_of_room (hc : Sound nodes c)
    (hroom : roomFor item (c.sched.tally.only P).length (summedRequests (c.sched.tally.only P)) req)
    (hsum : ∀ res, (∀ p ∈ c.sched.tally.only P, 0 ≤ p.2.requests.amount res) ∧ 0 ≤ req.amount res ∧
      totalOf (c.sched.tally.only P) res + req.amount res < 2 ^ 63)
    (hcover : ∀ k r q, k ≠ key → c.Claim item.name k r → c.sched.tally.cache.lookup k = some q → P (k, q))
    (hclaims : ∀ k r, c'.Claim item.name k r → c.Claim item.name k r ∧ k ≠ key ∨ k = key ∧ r = req)
    (hnode : item ∈ nodes) (hlim : item.limits res) : c'.claimed item.name res ≤ max (item.capacity res) 0 := by
  obtain ⟨hnonneg, hreq, hhigh⟩ := hsum res
  have htotal : 0 ≤ totalOf (c.sched.tally.only P) res :=
    sum_nonneg (by
      intro x hx
      obtain ⟨p, hp, rfl⟩ := mem_map.mp hx
      exact hnonneg p hp)
  obtain hzero | hle := roomFor_bound hroom hlim (by omega) hhigh
  · have hadd : c'.claimed item.name res ≤ c.claimed item.name res + req.amount res :=
      claimed_le_add hc.nonneg hreq (fun k r h => (hclaims k r h).imp And.left id)
    have hold := hc.within item hnode res hlim
    omega
  · have hadd := hc.claimed_le_room hnonneg hreq hcover hclaims
    omega

theorem totalOf_only_le {t : NodeTally} (hsub : ∀ k q, t.cache.lookup k = some q → P (k, q) → Q (k, q))
    (hnonneg : ∀ p ∈ t.only Q, 0 ≤ p.2.requests.amount res) : totalOf (t.only P) res ≤ totalOf (t.only Q) res := by
  rw [totalOf_only, totalOf_only]
  refine Tables.weight_mono (fun k q hq => ?_)
  by_cases hQ : Q (k, q)
  · have hle := hnonneg (k, q) (mem_filter.mpr ⟨NodeTally.mem_entries.mpr hq, hQ⟩)
    split_ifs
    · exact le_refl _
    · exact hle
  · rw [if_neg hQ, if_neg (fun hP => hQ (hsub k q hq hP))]

variable {i : ℕ} {t : Task} {item : NodeItem}

theorem Sound.grow (hc : Sound nodes c) (hnames : (nodes.map NodeItem.name).Nodup) (hnode : item ∈ nodes)
    (ht : c.sched.tasks[i]? = some t) (howns : t.pc.owns) (hpc : ∀ n, t.pc.binds n = false) (hfresh : c.Fresh t.pod)
    (hw : tally.waiters = c.sched.tally.waiters)
    (hentry : ∃ q, tally.cache.lookup t.pod.key = some q ∧ q.nodeName = item.name ∧ q.requests = t.pod.requests)
    (hother : ∀ k ≠ t.pod.key, tally.cache.lookup k = c.sched.tally.cache.lookup k)
    (hroom : roomFor item (c.sched.tally.only P).length (summedRequests (c.sched.tally.only P)) t.pod.requests)
    (hsum : ∀ res, (∀ p ∈ c.sched.tally.only P, 0 ≤ p.2.requests.amount res) ∧ 0 ≤ t.pod.requests.amount res ∧
      totalOf (c.sched.tally.only P) res + t.pod.requests.amount res < 2 ^ 63)
    (hcover : ∀ k r q, k ≠ t.pod.key → c.Claim item.name k r → c.sched.tally.cache.lookup k = some q →
      P (k, q)) :
    Sound nodes { c with sched := { c.sched with tally }.setPc i t (.bind item.name) } := by
  have hclaims : ∀ n k r, Cluster.Claim { c with sched := { c.sched with tally }.setPc i t (.bind item.name) } n k r →
      c.Claim n k r ∧ k ≠ t.pod.key ∨ n = item.name ∧ k = t.pod.key ∧ r = t.pod.requests := by
    intro n k r h
    obtain hold | ⟨hbinds, rfl, p, hp, -, rfl⟩ := claim_setPc h
    · refine Or.inl ⟨hold, ?_⟩
      rintro rfl
      exact hc.unclaimed ht howns hpc hfresh hold
    · exact Or.inr ⟨(of_decide_eq_true hbinds).symm, rfl, (hfresh p hp).2⟩
  refine ⟨hc.owned.setPc ht hw howns.symm, hc.live, ?_, hc.events, ?_, ?_, hc.nonneg, ?_⟩
  · intro n k r h
    obtain ⟨hold, hk⟩ | ⟨rfl, rfl, rfl⟩ := hclaims n k r h
    · obtain ⟨q, hq, hqn, hqr⟩ := hc.tallied n k r hold
      exact ⟨q, (hother k hk).trans hq, hqn, hqr⟩
    · exact hentry
  · intro u hu hres
    obtain hu | rfl := mem_or_eq_of_mem_set hu
    · exact hc.tasks u hu hres
    · exact hfresh
  · intro plan hplan
    exact hc.plans plan (hw ▸ hplan)
  · intro other hother' res hlim
    by_cases hname : other.name = item.name
    · obtain rfl := inj_on_of_nodup_map hnames hother' hnode hname
      refine hc.within_of_room hroom hsum hcover (fun k r h => ?_) hnode hlim
      obtain hold | ⟨-, rfl, rfl⟩ := hclaims _ k r h
      · exact Or.inl hold
      · exact Or.inr ⟨rfl, rfl⟩
    · refine (claimed_le hc.nonneg (fun k r h => ?_)).trans (hc.within other hother' res hlim)
      obtain ⟨hold, -⟩ | ⟨hn, -, -⟩ := hclaims _ k r h
      · exact hold
      · exact absurd hn hname

end Room

section TaskSteps

variable {F : Filters} {nodes : List NodeItem} {c : Cluster} {i : ℕ} {t : Task}

section

variable (hc : Sound nodes c)
include hc

theorem Sound.lookup_remove (hkey : ∀ n r, ¬ c.Claim n key r) (n : String) (k : Key)
    (r : ResourceRequests) (h : c.Claim n k r) :
    ∃ q, (c.sched.tally.remove key).cache.lookup k = some q ∧ q.nodeName = n ∧ q.requests = r := by
  have hk : k ≠ key := fun hk => hkey n r (hk ▸ h)
  rw [NodeTally.remove, c.sched.tally.cache.lookup_removePod_ne hk]
  exact hc.tallied n k r h

theorem Sound.setPc (ht : c.sched.tasks[i]? = some t)
    (hw : tally.waiters = c.sched.tally.waiters) (howns : pc.owns = t.pc.owns) (hpc : ∀ n, pc.binds n = false)
    (hentry : ∀ n k r, c.Claim n k r → ∃ q, tally.cache.lookup k = some q ∧ q.nodeName = n ∧ q.requests = r)
    (hfresh : pc.reserved → c.Fresh t.pod) :
    Sound nodes { c with sched := { c.sched with tally }.setPc i t pc } := by
  refine hc.quiet (hc.owned.setPc ht hw howns) hc.live (fun u hu => ?_) hentry (fun u hu hres => ?_) (fun plan hplan => ?_)
  · obtain hu | rfl := mem_or_eq_of_mem_set hu
    · exact Or.inl hu
    · exact Or.inr hpc
  · obtain hu | rfl := mem_or_eq_of_mem_set hu
    · exact hc.tasks u hu hres
    · exact hfresh hres
  · exact hc.plans plan (hw ▸ hplan)

theorem Sound.pickNode (hnames : (nodes.map NodeItem.name).Nodup) (ht : c.sched.tasks[i]? = some ⟨pod, .start⟩)
    (hperm : c.Permits F nodes (.task i .pick)) :
    Sound nodes { c with sched := c.sched.pickNode F nodes i ⟨pod, .start⟩ } := by
  obtain ⟨hfresh, hsum⟩ := hperm _ ht
  unfold State.pickNode
  split
  · next node tally hsel =>
    have hres : c.sched.reserves F nodes (.task i .pick) = some (pod.key, node) := by
      simp [State.reserves, ht, hsel]
    have hsummable := hsum _ hres
    obtain ⟨item, hnode, rfl, haccepts, rfl⟩ := selectAndReserveNode_some hsel
    refine hc.grow hnames hnode ht rfl (fun _ => rfl) hfresh rfl ⟨pod.tallied item.name, ?_, rfl, rfl⟩ (fun k hk => ?_)
      (accepts_room haccepts) hsummable (fun k r q _ hclaim hq => ?_)
    · exact c.sched.tally.cache.lookup_insertPod _ _
    · exact c.sched.tally.cache.lookup_insertPod_ne hk _
    · obtain ⟨q', hq', hn, -⟩ := hc.tallied _ k r hclaim
      rw [hq] at hq'
      cases hq'
      exact decide_eq_true hn
  · exact hc.setPc ht rfl rfl (fun _ => rfl) hc.tallied (fun h => by cases h)

theorem Sound.checkReservation (hnames : (nodes.map NodeItem.name).Nodup)
    (ht : c.sched.tasks[i]? = some ⟨pod, .check node⟩) (hperm : c.Permits F nodes (.task i .check)) :
    Sound nodes { c with sched := c.sched.checkReservation nodes i ⟨pod, .check node⟩ node } := by
  obtain ⟨hsum, hentry, hspared⟩ := hperm pod node ht
  have hfresh : c.Fresh pod := hc.tasks _ (mem_of_getElem? ht) rfl
  unfold State.checkReservation
  split_ifs with hfits
  · cases hfind : nodes.find? (fun n => n.name = node) with
    | none => simp [hfind] at hfits
    | some item => ?_
    have hstill : preemptionReservationStillFits c.sched.tally pod item := by simpa [hfind] using hfits
    have hname : item.name = node := by simpa using find?_some hfind
    subst hname
    rw [preemptionReservationStillFits, NodeTally.podsOn, filter_filter] at hstill
    refine hc.grow hnames (mem_of_find?_eq_some hfind) ht rfl (fun _ => rfl) hfresh rfl hentry (fun _ _ => rfl)
      hstill (fun res => ?_) (fun k r q hk hclaim hq => ?_)
    · obtain ⟨hnonneg, hreq, hhigh⟩ := hsum res
      have hsub : ∀ k q, c.sched.tally.cache.lookup k = some q →
          (decide (k ≠ pod.key) && decide (k ∈ (c.sched.tally.cache.byNode.lookup item.name).getD ∅ ∧
            k ∉ c.sched.tally.reservedVictims)) → decide (q.nodeName = item.name) := by
        intro k q hq h
        simp only [Bool.and_eq_true, decide_eq_true_eq, c.sched.tally.cache.indexed] at h
        obtain ⟨-, ⟨q', hq', hn⟩, -⟩ := h
        have hsame : q' = q := Option.some_injective _ (hq'.symm.trans hq)
        exact decide_eq_true (hsame ▸ hn)
      refine ⟨fun p hp => hnonneg p ?_, hreq, lt_of_le_of_lt (Int.add_le_add_right ?_ _) hhigh⟩
      swap
      · exact totalOf_only_le (Q := fun p => decide (p.2.nodeName = item.name)) hsub hnonneg
      obtain ⟨hmem, hP⟩ := mem_filter.mp hp
      exact mem_filter.mpr ⟨hmem, hsub p.1 p.2 (NodeTally.mem_entries.mp hmem) hP⟩
    · obtain ⟨q', hq', hn, -⟩ := hc.tallied _ k r hclaim
      simp only [Bool.and_eq_true, decide_eq_true_eq, c.sched.tally.cache.indexed]
      exact ⟨hk, ⟨q', hq', hn⟩, hspared k r hclaim⟩
  · exact hc.setPc ht rfl rfl (fun _ => rfl) hc.tallied (fun _ => hfresh)

theorem Sound.planPreemption (ht : c.sched.tasks[i]? = some ⟨pod, .preempt (n + 1)⟩) (hfresh : c.Fresh pod) :
    Sound nodes { c with sched := c.sched.planPreemption F nodes i ⟨pod, .preempt (n + 1)⟩ n seen labels } := by
  unfold State.planPreemption
  split
  · next node victims tally hplan =>
    obtain ⟨-, -, rfl⟩ := findPreemptionPlan_some hplan
    refine hc.setPc ht rfl rfl (fun _ => rfl) (fun m k r h => ?_) (fun _ => hfresh)
    have hk : k ≠ pod.key := by
      rintro rfl
      exact hc.unclaimed ht rfl (fun _ => rfl) hfresh h
    obtain ⟨q, hq, hqn, hqr⟩ := hc.tallied m k r h
    exact ⟨q, (c.sched.tally.cache.lookup_insertPod_ne hk _).trans hq, hqn, hqr⟩
  · exact hc.setPc ht rfl rfl (fun _ => rfl) hc.tallied (fun h => by cases h)

theorem Sound.taskStep (hnames : (nodes.map NodeItem.name).Nodup)
    (ht : c.sched.tasks[i]? = some t) (hperm : c.Permits F nodes (.task i b)) :
    Sound nodes { c with sched := c.sched.taskStep F nodes i t b } := by
  obtain ⟨pod, pc⟩ := t
  have hfresh : pc.reserved → c.Fresh pod := hc.tasks _ (mem_of_getElem? ht)
  have howned : Owned (c.sched.taskStep F nodes i ⟨pod, pc⟩ b) := hc.owned.taskStep ht b
  have hset : ∀ u ∈ c.sched.tasks.set i ⟨pod, .released⟩,
      (u ∈ c.sched.tasks ∨ ∀ n, u.pc.binds n = false) ∧ (u.pc.reserved → c.Fresh u.pod) := by
    intro u hu
    obtain hu | rfl := mem_or_eq_of_mem_set hu
    · exact ⟨Or.inl hu, hc.tasks u hu⟩
    · exact ⟨Or.inr (fun _ => rfl), fun h => by cases h⟩
  unfold State.taskStep at howned ⊢
  dsimp only at howned ⊢
  split
  · exact hc.setPc ht rfl rfl (fun _ => rfl) hc.tallied (fun h => by cases h)
  · exact hc.pickNode hnames ht hperm
  · exact hc.planPreemption ht (hperm _ ht)
  · exact hc.setPc ht rfl rfl (fun _ => rfl) hc.tallied (fun h => by cases h)
  · next node victims v todo n =>
    exact hc.setPc ht rfl rfl (fun _ => rfl) (hc.lookup_remove (hperm pod node victims v todo n ht))
      (fun _ => hfresh rfl)
  · exact hc.setPc ht rfl rfl (fun _ => rfl)
      (hc.lookup_remove (fun _ _ => hc.unclaimed ht rfl (fun _ => rfl) (hfresh rfl))) (fun h => by cases h)
  · refine hc.quiet howned hc.live (fun u hu => (hset u hu).1) hc.tallied (fun u hu => (hset u hu).2)
      (fun plan hplan => ?_)
    obtain hplan | hplan := mem_append.mp hplan
    · exact hc.plans plan hplan
    · rw [mem_singleton.mp hplan]
      exact hfresh rfl
  · exact hc.checkReservation hnames ht hperm
  · exact hc.setPc ht rfl rfl (fun _ => rfl) hc.tallied (fun _ => hfresh rfl)
  · exact hc.setPc ht rfl rfl (fun _ => rfl) hc.tallied (fun h => by cases h)
  · exact hc.setPc ht rfl rfl (fun _ => rfl)
      (hc.lookup_remove (fun _ _ => hc.unclaimed ht rfl (fun _ => rfl) (hfresh rfl))) (fun h => by cases h)
  · exact hc.quiet howned hc.live (fun u hu => (hset u hu).1) hc.tallied (fun u hu => (hset u hu).2) hc.plans
  · exact hc.quiet howned hc.live (fun u hu => Or.inl (mem_of_mem_eraseIdx hu)) hc.tallied
      (fun u hu => hc.tasks u (mem_of_mem_eraseIdx hu)) hc.plans
  · exact hc

end

end TaskSteps

theorem ready_mem {t : NodeTally} (h : plan ∈ (t.applyEvent e).1.waiters ∨ plan ∈ (t.applyEvent e).2) :
    ∃ plan' ∈ t.waiters, plan'.pod = plan.pod := by
  cases hg : e.gone with
  | true =>
    rw [NodeTally.applyEvent_gone hg] at h
    simp only [NodeTally.resolve, mem_filter] at h
    obtain ⟨hmem, -⟩ | ⟨hmem, -⟩ := h <;>
    · obtain ⟨plan', hplan', rfl⟩ := mem_map.mp hmem
      exact ⟨plan', hplan', rfl⟩
  | false =>
    rw [NodeTally.applyEvent_present hg] at h
    exact ⟨plan, h.resolve_right not_mem_nil, rfl⟩

theorem Sound.tallied_applyEvent (hc : Sound nodes c) (hof : ∀ p, c.api.lookup e.key = some p → e.Of p) (n : String)
    (k : Key) (r : ResourceRequests) (h : c.Claim n k r) :
    ∃ q, (c.sched.tally.applyEvent e).1.cache.lookup k = some q ∧ q.nodeName = n ∧ q.requests = r := by
  obtain ⟨q, hq, hqn, hqr⟩ := hc.tallied n k r h
  cases hg : e.gone with
  | true =>
    have hk : k ≠ e.key := by
      rintro rfl
      obtain ⟨p, hp, hclaim, -⟩ := h
      obtain ⟨htype, -, hnode, hterm⟩ := hof p hp
      simp only [PodEvent.gone, htype, decide_false, Bool.false_or, Bool.and_eq_true] at hg
      obtain ⟨m, hm⟩ := Option.isSome_iff_exists.mp hg.1
      have hpm : p.nodeName = some m := by
        rw [hm] at hnode
        exact (hnode.resolve_left (by simp)).symm
      simp [Cluster.claims_iff, hpm, hterm hg.2] at hclaim
    rw [NodeTally.applyEvent_gone hg]
    exact ⟨q, (c.sched.tally.cache.lookup_removePod_ne hk).trans hq, hqn, hqr⟩
  | false =>
    rw [NodeTally.applyEvent_present hg]
    cases hm : e.nodeName with
    | none => exact ⟨q, hq, hqn, hqr⟩
    | some m =>
      by_cases hk : k = e.key
      · subst hk
        obtain ⟨p, hp, hclaim, rfl⟩ := h
        obtain ⟨-, hreq, hnode, -⟩ := hof p hp
        have hpm : p.nodeName = some m := by
          rw [hm] at hnode
          exact (hnode.resolve_left (by simp)).symm
        have hmn : m = n ∧ p.terminal = false := by simpa [Cluster.claims_iff, hpm] using hclaim
        exact ⟨e.tallied m, c.sched.tally.cache.lookup_insertPod _ _, hmn.1, hreq⟩
      · exact ⟨q, (c.sched.tally.cache.lookup_insertPod_ne hk _).trans hq, hqn, hqr⟩

theorem Sound.handle (hc : Sound nodes c) (hof : ∀ p, c.api.lookup e.key = some p → e.Of p) :
    Sound nodes { c with sched := c.sched.handle e } := by
  have hplan : ∀ plan, plan ∈ (c.sched.tally.applyEvent e).1.waiters ∨ plan ∈ (c.sched.tally.applyEvent e).2 →
      c.Fresh plan.pod := by
    intro plan h
    obtain ⟨plan', hmem, heq⟩ := ready_mem h
    exact heq ▸ hc.plans plan' hmem
  refine hc.quiet (hc.owned.handle e) hc.live (fun u hu => ?_) (hc.tallied_applyEvent hof) (fun u hu hres => ?_)
    (fun plan h => hplan plan (Or.inl h))
  · obtain hu | hu := mem_append.mp hu
    · exact Or.inl hu
    · obtain ⟨plan, -, rfl⟩ := mem_map.mp hu
      exact Or.inr (fun _ => rfl)
  · obtain hu | hu := mem_append.mp hu
    · exact hc.tasks u hu hres
    · obtain ⟨plan, h, rfl⟩ := mem_map.mp hu
      exact hplan plan (Or.inr h)

section Writes

variable {nodes : List NodeItem} {c : Cluster} {key : Key} {i : ℕ} {t : Task}

def State.Reserved (s : State) (pod : PendingPod) : Prop :=
  (∃ u ∈ s.tasks, u.pc.reserved = true ∧ u.pod = pod) ∨ ∃ plan ∈ s.tally.waiters, plan.pod = pod

theorem Sound.fresh (hc : Sound nodes c) (h : c.sched.Reserved pod) : c.Fresh pod := by
  obtain ⟨u, hu, hres, rfl⟩ | ⟨plan, hplan, rfl⟩ := h
  · exact hc.tasks u hu hres
  · exact hc.plans plan hplan

theorem Owned.mem_of_reserved (hs : Owned s) (h : s.Reserved pod) : pod.key ∈ s.inFlight := by
  obtain ⟨u, hu, hres, rfl⟩ | ⟨plan, hplan, rfl⟩ := h
  · exact hs.mem_of_task hu (Pc.owns_of_reserved hres)
  · exact hs.mem_of_plan hplan

section

variable (hc : Sound nodes c)
include hc

theorem Sound.write (howned : Owned s) (hlive : s.replay.synced ∧ s.settled)
    (htally : s.tally = c.sched.tally) (hsub : ∀ u ∈ s.tasks, u ∈ c.sched.tasks ∨ u.pc.reserved = false)
    (htype : type ≠ .deleted) (hclaim : ∀ n, c.claims n key p → c.Claim n key p.requests)
    (hevents : ∀ e ∈ c.undelivered, e.key = key → e.Of p)
    (hfresh : ∀ pod : PendingPod, s.Reserved pod → pod.key = key → p.nodeName = none ∧ p.requests = pod.requests)
    (hreq : ∀ res, 0 ≤ p.requests.amount res) : Sound nodes { c.write type key p with sched := s } := by
  have hidle : ∀ u ∈ s.tasks, u ∈ c.sched.tasks ∨ ∀ n, u.pc.binds n = false := by
    intro u hu
    refine (hsub u hu).imp id (fun hres n => ?_)
    by_contra hbinds
    cases hres.symm.trans (Pc.reserved_of_binds (eq_true_of_ne_false hbinds))
  have hclaims : ∀ n k r, Cluster.Claim { c.write type key p with sched := s } n k r → c.Claim n k r := by
    intro n k r h
    obtain ⟨q, hq, hclaims, hr⟩ := claim_of_tasks (c := c.write type key p) hidle h
    by_cases hk : k = key
    · subst hk
      rw [Cluster.write, lookup_insert, Option.some.injEq] at hq
      subst hq
      exact hr ▸ hclaim n hclaims
    · exact ⟨q, (lookup_insert_ne hk).symm.trans hq, hclaims, hr⟩
  have hstill : ∀ pod, s.Reserved pod → c.Fresh pod → Cluster.Fresh { c.write type key p with sched := s } pod := by
    intro pod hres hold q hq
    by_cases hk : pod.key = key
    · rw [hk, Cluster.write, lookup_insert, Option.some.injEq] at hq
      exact hq ▸ hfresh pod hres hk
    · exact hold q ((lookup_insert_ne hk).symm.trans hq)
  refine ⟨howned, hlive, fun n k r h => ?_, fun k q hq e he hek => ?_, fun u hu hres => ?_, fun plan hplan => ?_,
    fun k q hq => ?_, hc.within_of_claims hclaims⟩
  · exact htally ▸ hc.tallied n k r (hclaims n k r h)
  · by_cases hk : k = key
    · subst hk
      rw [Cluster.write, lookup_insert, Option.some.injEq] at hq
      subst hq
      obtain he | he := mem_append.mp he
      · exact hevents e he hek
      · rw [mem_singleton.mp he]
        exact ⟨htype, rfl, Or.inr rfl, id⟩
    · obtain he | he := mem_append.mp he
      · exact hc.events k q ((lookup_insert_ne hk).symm.trans hq) e he hek
      · rw [mem_singleton.mp he] at hek
        exact absurd hek.symm hk
  · refine hstill u.pod (Or.inl ⟨u, hu, hres, rfl⟩) ?_
    obtain hu | hno := hsub u hu
    · exact hc.tasks u hu hres
    · rw [hno] at hres
      cases hres
  · exact hstill plan.pod (Or.inr ⟨plan, hplan, rfl⟩) (hc.plans plan (htally ▸ hplan))
  · by_cases hk : k = key
    · subst hk
      rw [Cluster.write, lookup_insert, Option.some.injEq] at hq
      exact hq ▸ hreq
    · exact hc.nonneg k q ((lookup_insert_ne hk).symm.trans hq)

theorem Sound.create {pod : ApiPod} (hflight : key ∉ c.sched.inFlight)
    (hpending : ∀ e ∈ c.undelivered, e.key ≠ key) (hreq : ∀ res, 0 ≤ pod.requests.amount res) :
    Sound nodes (c.write .added key { pod with nodeName := none }) := by
  refine hc.write hc.owned hc.live rfl (fun u hu => Or.inl hu) (by simp) (fun n h => ?_)
    (fun e he hek => absurd hek (hpending e he)) (fun u hu hk => ?_) hreq
  · obtain ⟨hn, -⟩ | ⟨-, u, hu, hkey, hbinds⟩ := Cluster.claims_iff.mp h
    · cases hn
    have howns : u.pc.owns := Pc.owns_of_reserved (Pc.reserved_of_binds hbinds)
    exact absurd (hkey ▸ hc.owned.mem_of_task hu howns) hflight
  · exact absurd (hk ▸ hc.owned.mem_of_reserved hu) hflight

theorem Sound.modify (hnode : ∀ p, (f p).nodeName = p.nodeName)
    (hreq : ∀ p, (f p).requests = p.requests) (hterm : ∀ p, p.terminal → (f p).terminal) :
    Sound nodes (c.modify key f) := by
  unfold Cluster.modify
  split
  · next old hold =>
    refine hc.write hc.owned hc.live rfl (fun u hu => Or.inl hu) (by simp) (fun n h => ⟨old, hold, ?_, (hreq old).symm⟩)
      (fun e he hek => ?_) (fun u hu hk => ?_) ((hreq old).symm ▸ hc.nonneg key old hold)
    · rw [Cluster.claims_iff, hnode] at h
      refine Cluster.claims_iff.mpr (h.imp (fun h => ⟨h.1, ?_⟩) id)
      cases ht : old.terminal with
      | false => rfl
      | true => simp [hterm old ht] at h
    · obtain ⟨htype, hr, hn, ht⟩ := hc.events key old hold e he hek
      exact ⟨htype, hr.trans (hreq old).symm, (hnode old).symm ▸ hn, fun h => hterm old (ht h)⟩
    · rw [hnode, hreq]
      exact hc.fresh hu old (hk ▸ hold)
  · exact hc

theorem Sound.delete (undelivered : List PodEvent) (hevents : ∀ e ∈ undelivered, e ∈ c.undelivered ∨ e.key = key) :
    Sound nodes { c with api := c.api.erase key, undelivered } := by
  have hlookup : ∀ k p, (c.api.erase key).lookup k = some p → k ≠ key ∧ c.api.lookup k = some p := by
    intro k p hp
    by_cases hk : k = key
    · subst hk
      rw [lookup_erase] at hp
      cases hp
    · exact ⟨hk, (lookup_erase_ne hk).symm.trans hp⟩
  have hclaims : ∀ n k r, Cluster.Claim { c with api := c.api.erase key, undelivered } n k r → c.Claim n k r := by
    rintro n k r ⟨p, hp, hclaim, hr⟩
    exact ⟨p, (hlookup k p hp).2, hclaim, hr⟩
  refine ⟨hc.owned, hc.live, fun n k r h => hc.tallied n k r (hclaims n k r h), fun k p hp e he hek => ?_,
    fun u hu hres p hp => hc.tasks u hu hres p (hlookup _ p hp).2,
    fun plan hplan p hp => hc.plans plan hplan p (hlookup _ p hp).2,
    fun k p hp => hc.nonneg k p (hlookup k p hp).2, hc.within_of_claims hclaims⟩
  obtain ⟨hk, hp⟩ := hlookup k p hp
  obtain he | he := hevents e he
  · exact hc.events k p hp e he hek
  · exact absurd (hek.symm.trans he) hk

theorem Sound.bound (ht : c.sched.tasks[i]? = some t) (hpc : t.pc = .bind node)
    (hp : c.api.lookup t.pod.key = some p) (hnone : p.nodeName = none) :
    Sound nodes { c.write .modified t.pod.key { p with nodeName := some node } with
      sched := c.sched.setPc i t .done } := by
  have hmem : t ∈ c.sched.tasks := mem_of_getElem? ht
  have howns : t.pc.owns := hpc ▸ rfl
  refine hc.write (hc.owned.setPc ht rfl howns.symm) hc.live rfl (fun u hu => ?_) (by simp) (fun n h => ⟨p, hp, ?_, rfl⟩)
    (fun e he hek => ?_) (fun pod hres hk => ?_) (hc.nonneg _ p hp)
  · obtain hu | rfl := mem_or_eq_of_mem_set hu
    · exact Or.inl hu
    · exact Or.inr rfl
  · have hn : node = n ∧ p.terminal = false := by simpa [Cluster.claims_iff] using h
    have hbinds : t.pc.binds n := by
      rw [hpc]
      exact decide_eq_true hn.1
    exact Cluster.claims_iff.mpr (Or.inr ⟨hnone, t, hmem, rfl, hbinds⟩)
  · obtain ⟨htype, hr, hn, hterm⟩ := hc.events _ p hp e he hek
    rw [hnone, or_self] at hn
    exact ⟨htype, hr, Or.inl hn, hterm⟩
  · -- nobody else holds a reservation for the pod
    exfalso
    obtain ⟨u, hu, hreserved, rfl⟩ | ⟨plan, hplan, rfl⟩ := hres
    · obtain ⟨j, hj⟩ := mem_iff_getElem?.mp hu
      rw [State.setPc, getElem?_set] at hj
      split_ifs at hj with hij hlen
      · cases hj
        cases hreserved
      · rw [hc.owned.other_released ht howns (mem_eraseIdx_iff_getElem?.mpr ⟨j, Ne.symm hij, hj⟩) hk] at hreserved
        cases hreserved
    · exact hc.owned.plan_key_ne hmem howns hplan hk

end

end Writes

section

variable (hc : Sound nodes c)
include hc

theorem Sound.stepTask (hnames : (nodes.map NodeItem.name).Nodup)
    (hperm : c.Permits F nodes (.task i b)) : Sound nodes (c.stepSched F nodes (.task i b)) := by
  unfold Cluster.stepSched State.step
  dsimp only
  split
  · next t ht => exact hc.taskStep hnames ht hperm
  · exact hc

theorem Sound.stepBind (hnames : (nodes.map NodeItem.name).Nodup) (reply : BindReply) :
    Sound nodes (c.stepBind F nodes i reply) := by
  unfold Cluster.stepBind
  split
  · next pod node ht =>
    have hsame : Sound nodes (c.stepSched F nodes (.task i (.bindReply reply))) := hc.stepTask hnames trivial
    unfold Cluster.answerBind
    cases reply with
    | bound =>
      cases hp : c.api.lookup pod.key with
      | none => exact hc
      | some p =>
        by_cases hnone : p.nodeName = none
        · have hbound := hc.bound ht rfl hp hnone
          simp only [hnone, if_true, Cluster.stepSched, State.step, Cluster.write, ht]
          exact hbound
        · simpa [hnone] using hc
    | alreadyAssigned =>
      cases hp : c.api.lookup pod.key with
      | none => exact hc
      | some p =>
        by_cases hnone : p.nodeName = none
        · simpa [hnone] using hc
        · simpa [hnone] using hsame
    | failed => exact hsame
  · exact hc

theorem Sound.deliver : Sound nodes (c.step F nodes .deliver) := by
  unfold Cluster.step
  dsimp only
  split
  · next e undelivered hqueue =>
    have hrest : Sound nodes { c with undelivered } :=
      { hc with events := fun k p hp e' he' => hc.events k p hp e' (hqueue ▸ mem_cons_of_mem e he') }
    have hof : ∀ p, c.api.lookup e.key = some p → e.Of p :=
      fun p hp => hc.events e.key p hp e (hqueue ▸ mem_cons_self) rfl
    have hlive := hc.live
    simp only [Cluster.stepSched, State.step, hlive.1, hlive.2]
    exact hrest.handle hof
  · exact hc

theorem Sound.spawn (pod : PendingPod) : Sound nodes (c.stepSched F nodes (.spawn pod)) := by
  have howned : Owned (c.sched.step F nodes (.spawn pod)) := hc.owned.stepped (stepped c.sched (.spawn pod))
  unfold Cluster.stepSched State.step at *
  dsimp only at *
  split_ifs at * with hk
  · exact hc
  · refine hc.quiet howned hc.live (fun u hu => ?_) hc.tallied (fun u hu hres => ?_) hc.plans
    · obtain hu | hu := mem_append.mp hu
      · exact Or.inl hu
      · rw [mem_singleton.mp hu]
        exact Or.inr (fun _ => rfl)
    · obtain hu | hu := mem_append.mp hu
      · exact hc.tasks u hu hres
      · rw [mem_singleton.mp hu] at hres
        cases hres

theorem Sound.step (hnames : (nodes.map NodeItem.name).Nodup)
    (hperm : c.Permits F nodes a) : Sound nodes (c.step F nodes a) := by
  cases a with
  | create key pod =>
    unfold Cluster.step
    dsimp only
    split_ifs
    · exact hc.create hperm.1 hperm.2.1 hperm.2.2
    · exact hc
  | update key pod => exact hc.modify (fun _ => rfl) (fun _ => rfl) (fun _ => id)
  | finish key => exact hc.modify (fun _ => rfl) (fun _ => rfl) (fun _ _ => rfl)
  | delete key =>
    unfold Cluster.step
    dsimp only
    split
    · next p hp =>
      refine hc.delete _ (fun e he => ?_)
      obtain he | he := mem_append.mp he
      · exact Or.inl he
      · rw [mem_singleton.mp he]
        exact Or.inr rfl
    · exact hc
  | deliver => exact hc.deliver
  | spawn pod => exact hc.spawn pod
  | task i b =>
    cases b with
    | bindReply reply => exact hc.stepBind hnames reply
    | _ => exact hc.stepTask hnames hperm

end

theorem sound_empty : Sound nodes Cluster.empty where
  owned := rfl
  live := ⟨rfl, rfl⟩
  tallied := by
    rintro n k r ⟨p, hp, -⟩
    cases hp
  events := by
    intro key p hp
    cases hp
  tasks := by simp [Cluster.empty, State.initial]
  plans := by simp [Cluster.empty, State.initial, NodeTally.empty]
  nonneg := by
    intro key p hp
    cases hp
  within := fun node _ res _ => le_max_right (node.capacity res) 0

/-- As long as every step meets the condition, no node is ever bound more than it has. -/
theorem never_overcommits (F : Filters) (nodes : List NodeItem) (hnames : (nodes.map NodeItem.name).Nodup)
    (as : List ClusterAction)
    (h : Runs.Along (Cluster.step F nodes) (Cluster.Permits F nodes) Cluster.empty as) :
    (Runs.run (Cluster.step F nodes) Cluster.empty as).Within nodes := by
  have hsound : Sound nodes (Runs.run (Cluster.step F nodes) Cluster.empty as) :=
    h.invariant (Sound nodes) (fun c a hc ha => hc.step hnames ha) sound_empty
  exact fun node hnode res hlim => (bound_le_claimed hsound.nonneg).trans (hsound.within node hnode res hlim)

def cpuNode (name : String) (cpu : ℤ) : NodeItem := ⟨name, 0, cpu, 0, 0, ∅⟩

def cpuPod (cpu priority : ℤ) : ApiPod := ⟨none, false, [], priority, { cpuMilli := cpu }, [], []⟩

def cpuPending (name : String) (cpu priority : ℤ) : PendingPod :=
  ⟨keyOf name, priority, [], { cpuMilli := cpu }, [], [], []⟩

def fullNode : List ClusterAction :=
  [.create (keyOf "low") (cpuPod 10 0), .deliver, .spawn (cpuPending "low" 10 0), .task 0 .pick,
    .task 0 (.bindReply .bound), .task 0 .release, .task 0 .finish, .deliver,
    .create (keyOf "high") (cpuPod 3 10), .create (keyOf "third") (cpuPod 7 0), .deliver, .deliver,
    .spawn (cpuPending "high" 3 10), .spawn (cpuPending "third" 7 0), .task 0 .pick]

def gracefulEviction : List ClusterAction :=
  let c := Runs.run (Cluster.step anyNode [cpuNode "n1" 10]) Cluster.empty fullNode
  fullNode ++ [.task 0 (.plan (fun _ => c.sched.tally) c.sched.tally), .update (keyOf "low") (cpuPod 10 0),
    .task 0 (.deleted true), .task 1 .pick, .task 1 (.bindReply .bound)]

theorem eviction_overcommits :
    ¬ (Runs.run (Cluster.step anyNode [cpuNode "n1" 10]) Cluster.empty gracefulEviction).Within [cpuNode "n1" 10] := by
  intro h
  have hle := h (cpuNode "n1" 10) mem_cons_self .cpu (by simp [NodeItem.limits, NodeItem.capacity, cpuNode])
  exact absurd hle (by decide)

def twoFit : List ClusterAction :=
  [.create (keyOf "a") (cpuPod 4 0), .create (keyOf "b") (cpuPod 5 0), .deliver, .deliver,
    .spawn (cpuPending "a" 4 0), .spawn (cpuPending "b" 5 0), .task 0 .pick, .task 1 .pick,
    .task 0 (.bindReply .bound), .task 1 (.bindReply .bound), .deliver]

theorem amount_cpuPod (h : 0 ≤ cpu) (res : Resource) : 0 ≤ ({ cpuMilli := cpu } : ResourceRequests).amount res := by
  cases res with
  | cpu => exact h
  | pods => exact zero_le_one
  | _ => exact le_refl 0

def cpuEntries (used : List (String × ℤ)) : List (Key × TalliedPod) :=
  used.map (fun u => (keyOf u.1, (cpuPending u.1 u.2 0).tallied "n1"))

theorem permits_pick {c : Cluster} (used : List (String × ℤ))
    (ht : c.sched.tasks[i]? = some ⟨cpuPending name cpu 0, .start⟩) (hp : c.api.lookup (keyOf name) = some p)
    (hnone : p.nodeName = none) (hreq : p.requests = { cpuMilli := cpu })
    (hres : c.sched.reserves anyNode [cpuNode "n1" 10] (.task i .pick) = some (keyOf name, "n1"))
    (hused : c.sched.tally.onNode "n1" = cpuEntries used) (hcpu : 0 ≤ cpu) (hnonneg : ∀ u ∈ used, 0 ≤ u.2)
    (hsum : ∀ res, totalOf (cpuEntries used) res + ({ cpuMilli := cpu } : ResourceRequests).amount res < 2 ^ 63) :
    c.Permits anyNode [cpuNode "n1" 10] (.task i .pick) := by
  intro t ht'
  rw [ht] at ht'
  cases ht'
  refine ⟨fun q hq => ?_, fun r hr res => ?_⟩
  · cases hp.symm.trans hq
    exact ⟨hnone, hreq⟩
  · cases hres.symm.trans hr
    rw [hused]
    refine ⟨fun q hq => ?_, amount_cpuPod hcpu res, hsum res⟩
    obtain ⟨u, hu, rfl⟩ := mem_map.mp hq
    exact amount_cpuPod (hnonneg u hu) res

theorem never_overcommits_two :
    (Runs.run (Cluster.step anyNode [cpuNode "n1" 10]) Cluster.empty twoFit).bound "n1" .cpu = 9 ∧
      (Runs.run (Cluster.step anyNode [cpuNode "n1" 10]) Cluster.empty twoFit).Within [cpuNode "n1" 10] := by
  refine ⟨by decide +kernel, never_overcommits anyNode _ (by decide) twoFit ?_⟩
  have hsum₀ : ∀ res, totalOf (cpuEntries []) res + ({ cpuMilli := 4 } : ResourceRequests).amount res < 2 ^ 63 := by
    rintro (_ | _ | _ | _ | name) <;> simp [totalOf, cpuEntries, ResourceRequests.amount]
  have hsum₁ : ∀ res, totalOf (cpuEntries [("a", 4)]) res + ({ cpuMilli := 5 } : ResourceRequests).amount res <
      2 ^ 63 := by
    rintro (_ | _ | _ | _ | name) <;>
      simp [totalOf, cpuEntries, cpuPending, PendingPod.tallied, ResourceRequests.amount]
  have hcreate : ∀ cpu : ℤ, 0 ≤ cpu → ∀ res, 0 ≤ (cpuPod cpu 0).requests.amount res := fun _ => amount_cpuPod
  exact ⟨⟨by decide +kernel, by decide +kernel, hcreate 4 (by decide)⟩,
    ⟨by decide +kernel, by decide +kernel, hcreate 5 (by decide)⟩, trivial, trivial, trivial, trivial,
    permits_pick [] rfl rfl rfl rfl (by decide +kernel) rfl (by decide) (by decide) hsum₀,
    permits_pick [("a", 4)] rfl rfl rfl rfl (by decide +kernel) rfl (by decide) (by decide) hsum₁,
    trivial, trivial, trivial, trivial⟩

end U7s.Scheduler
