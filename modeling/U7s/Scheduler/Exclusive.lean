import U7s.Scheduler.Reservations

/-! Claims that only one pod may use. A decision looks for other users on the node it chooses, and nowhere else. -/

namespace U7s.Scheduler

open List

variable (exclusive : Key → Bool)

def NodeTally.Unshared (t : NodeTally) : Prop :=
  ∀ k₁ k₂ p₁ p₂, k₁ ≠ k₂ → t.cache.lookup k₁ = some p₁ → t.cache.lookup k₂ = some p₂ → k₁ ∉ t.reservedVictims →
    k₂ ∉ t.reservedVictims → ∀ c, exclusive c = true → c ∈ p₁.pvcNames → c ∉ p₂.pvcNames

def PendingPod.readsClaims (pod : PendingPod) : Bool :=
  pod.readWriteOncePodPvcs = pod.pvcNames.filter (fun name => exclusive (pvcKey pod.key.ns name))

def TalliedPod.uses (p : TalliedPod) (claims : List Key) : Bool := claims.any (fun c => p.pvcNames.contains c)

def seesUsers (nodes : List NodeItem) (seen : String → NodeTally) (t : NodeTally) (claims : List Key) : Bool :=
  nodes.all (fun node => (t.podsOn node.name).all (fun p => !p.2.uses claims ||
    ((seen node.name).podsOn node.name).any (fun q => q.1 = p.1 && q.2.uses claims)))

section Definitions

variable (F : Filters) (nodes : List NodeItem)

/-- Pods are tallied by decisions only, and a plan is made and reserved as one decision. -/
def State.decides (s : State) (a : Action) : Bool :=
  (s.applied a).all (fun e => e.gone || e.nodeName.isNone) &&
    match a with
    | .bookmark => s.replay.synced
    | .task i .pick => s.tasks[i]?.all (fun t => t.pod.readsClaims exclusive)
    | .task i (.plan seen _) =>
      s.tasks[i]?.all (fun t => t.pod.readsClaims exclusive && seesUsers nodes seen s.tally t.pod.rwopPvcs)
    | _ => true

def NodeTally.usersOn (t : NodeTally) (pod : PendingPod) (node : String) : Bool :=
  t.cache.pods.entries.all (fun e => e.1 = pod.key || e.1 ∈ t.reservedVictims || !e.2.uses pod.rwopPvcs ||
    e.2.nodeName = node)

/-- Whichever of the nodes that pass the filters a decision takes, no other node has a user of the pod's claims; and a
victim let go and still tallied has no exclusive claim. -/
def State.keepsApart (s : State) (a : Action) : Bool :=
  match a with
  | .task i .register | .task i (.deleted false) =>
    match s.tasks[i]? with
    | some ⟨_, .evict _ victims _ _⟩ =>
      victims.all (fun v => (s.tally.cache.lookup v).all (fun p => p.pvcNames.all (fun c => !exclusive c)))
    | _ => true
  | .task i .pick => s.tasks[i]?.all (fun t =>
      (nodes.filter (accepts F s.tally t.pod)).all (fun n => s.tally.usersOn t.pod n.name))
  | .task i (.plan seen labels) => s.tasks[i]?.all (fun t => nodes.all (fun n =>
      (victimsOn F (seen n.name) labels t.pod n).isNone || s.tally.usersOn t.pod n.name))
  | _ => true

end Definitions

section Tallies

variable {exclusive : Key → Bool} {t t' : NodeTally} {pod : PendingPod} {node : String}

theorem NodeTally.Unshared.shrink (h : t.Unshared exclusive)
    (hsub : ∀ k p, t'.cache.lookup k = some p → k ∉ t'.reservedVictims →
      (t.cache.lookup k = some p ∧ k ∉ t.reservedVictims) ∨ ∀ c ∈ p.pvcNames, exclusive c = false) :
    t'.Unshared exclusive := by
  intro k₁ k₂ p₁ p₂ hne h₁ h₂ hv₁ hv₂ c hc hc₁ hc₂
  obtain ⟨h₁, hv₁⟩ | hp₁ := hsub k₁ p₁ h₁ hv₁
  · obtain ⟨h₂, hv₂⟩ | hp₂ := hsub k₂ p₂ h₂ hv₂
    · exact h k₁ k₂ p₁ p₂ hne h₁ h₂ hv₁ hv₂ c hc hc₁ hc₂
    · simp [hp₂ c hc₂] at hc
  · simp [hp₁ c hc₁] at hc

theorem NodeTally.Unshared.remove (h : t.Unshared exclusive) (key : Key) : (t.remove key).Unshared exclusive :=
  h.shrink (fun _ _ hp hv => Or.inl ⟨(t.cache.lookup_removePod_some hp).2, hv⟩)

theorem NodeTally.Unshared.applyEvent (h : t.Unshared exclusive) (he : (e.gone || e.nodeName.isNone)) :
    (t.applyEvent e).1.Unshared exclusive := by
  cases hg : e.gone with
  | true =>
    rw [NodeTally.applyEvent_gone hg]
    exact h.remove e.key
  | false =>
    have hn : e.nodeName = none := by simpa [hg] using he
    rw [NodeTally.applyEvent_present hg, hn]
    exact h

theorem rwopPvcs_exclusive (h : pod.readsClaims exclusive) (hc : exclusive c)
    (hmem : c ∈ (pod.tallied node).pvcNames) : c ∈ pod.rwopPvcs := by
  obtain ⟨name, hname, rfl⟩ := mem_map.mp hmem
  have hread : pod.readWriteOncePodPvcs = pod.pvcNames.filter (fun name => exclusive (pvcKey pod.key.ns name)) := by
    simpa [PendingPod.readsClaims] using h
  rw [PendingPod.rwopPvcs, hread]
  exact mem_map_of_mem (mem_filter.mpr ⟨hname, hc⟩)

theorem NodeTally.Unshared.assume (h : t.Unshared exclusive) (hread : pod.readsClaims exclusive)
    (hothers : t.usersOn pod node) (victims : List Key)
    (hhere : ∀ k p, t.cache.lookup k = some p → p.nodeName = node → k ≠ pod.key → k ∉ t.reservedVictims →
      k ∉ victims → ∀ c ∈ pod.rwopPvcs, c ∉ p.pvcNames) :
    ((t.assume pod node).claimVictims victims).Unshared exclusive := by
  -- nobody else who counts uses one of the pod's claims
  have hfree : ∀ k p, k ≠ pod.key → t.cache.lookup k = some p → k ∉ t.reservedVictims → k ∉ victims →
      ∀ c, exclusive c → c ∈ (pod.tallied node).pvcNames → c ∉ p.pvcNames := by
    intro k p hk hp hv hvict c hc hmem hcp
    have hclaim := rwopPvcs_exclusive hread hc hmem
    have hentry := all_eq_true.mp hothers ⟨k, p⟩ (AList.mem_lookup_iff.mp hp)
    have huse : p.uses pod.rwopPvcs :=
      any_eq_true.mpr ⟨c, hclaim, contains_iff_mem.mpr hcp⟩
    have hnode : p.nodeName = node := by simpa [hk, hv, huse] using hentry
    exact hhere k p hp hnode hk hv hvict c hclaim hcp
  intro k₁ k₂ p₁ p₂ hne h₁ h₂ hv₁ hv₂ c hc hc₁ hc₂
  simp only [NodeTally.claimVictims, NodeTally.assume, Finset.mem_union, mem_toFinset, not_or] at h₁ h₂ hv₁ hv₂
  by_cases hk₁ : k₁ = pod.key
  · subst hk₁
    rw [Pods.lookup_insertPod] at h₁
    rw [Pods.lookup_insertPod_ne _ hne.symm] at h₂
    cases h₁
    exact hfree k₂ p₂ hne.symm h₂ hv₂.1 hv₂.2 c hc hc₁ hc₂
  · rw [Pods.lookup_insertPod_ne _ hk₁] at h₁
    by_cases hk₂ : k₂ = pod.key
    · subst hk₂
      rw [Pods.lookup_insertPod] at h₂
      cases h₂
      exact hfree k₁ p₁ hk₁ h₁ hv₁.1 hv₁.2 c hc hc₂ hc₁
    · rw [Pods.lookup_insertPod_ne _ hk₂] at h₂
      exact h k₁ k₂ p₁ p₂ hne h₁ h₂ hv₁.1 hv₂.1 c hc hc₁ hc₂

theorem NodeTally.Unshared.release (h : t.Unshared exclusive)
    (hplain : victims.all (fun v => (t.cache.lookup v).all (fun p => p.pvcNames.all (fun c => !exclusive c)))) :
    (t.releaseVictims victims).Unshared exclusive := by
  refine h.shrink (fun k p hp hv => ?_)
  by_cases hk : k ∈ victims
  · have hnone := all_eq_true.mp hplain k hk
    rw [show t.cache.lookup k = some p from hp] at hnone
    exact Or.inr (fun c hc => by simpa using all_eq_true.mp hnone c hc)
  · simp only [NodeTally.releaseVictims, Finset.mem_sdiff, mem_toFinset, hk, not_false_eq_true, and_true] at hv
    exact Or.inl ⟨hp, hv⟩

end Tallies

section Steps

variable {exclusive : Key → Bool} {F : Filters} {nodes : List NodeItem} {s s' : State} {i : ℕ} {t : Task} {a : Action}

section

variable (h : s.tally.Unshared exclusive)
include h

theorem unshared_pick (ht : s.tasks[i]? = some t)
    (hdec : s.decides exclusive nodes (.task i .pick)) (hkeep : s.keepsApart exclusive F nodes (.task i .pick)) :
    (s.pickNode F nodes i t).tally.Unshared exclusive := by
  unfold State.pickNode
  split
  · next node tally hsel =>
    obtain ⟨item, hmem, rfl, hacc, rfl⟩ := selectAndReserveNode_some hsel
    have hread : t.pod.readsClaims exclusive := by simpa [State.decides, State.applied, ht] using hdec
    simp only [State.keepsApart, ht, Option.all_some] at hkeep
    have hothers := all_eq_true.mp hkeep item (mem_filter.mpr ⟨hmem, hacc⟩)
    have hjoin := h.assume hread hothers [] (fun k p hp hn _ _ _ => accepts_exclusive hacc hp hn)
    simpa [NodeTally.claimVictims, State.setPc] using hjoin
  · exact h

theorem unshared_plan (ht : s.tasks[i]? = some t) (hdec : s.decides exclusive nodes (.task i (.plan seen labels)))
    (hkeep : s.keepsApart exclusive F nodes (.task i (.plan seen labels))) :
    (s.planPreemption F nodes i t attempts seen labels).tally.Unshared exclusive := by
  unfold State.planPreemption
  split
  · next node victims tally hplan =>
    obtain ⟨hmem, hvict, rfl⟩ := findPreemptionPlan_some hplan
    have hdec' : t.pod.readsClaims exclusive ∧ seesUsers nodes seen s.tally t.pod.rwopPvcs := by
      simpa [State.decides, State.applied, ht] using hdec
    simp only [State.keepsApart, ht, Option.all_some] at hkeep
    have hothers : s.tally.usersOn t.pod node.name := by
      simpa [hvict] using all_eq_true.mp hkeep node hmem
    refine h.assume hdec'.1 hothers victims (fun k p hp hn _ hv hnot c hc hcp => hnot ?_)
    -- whoever uses the claim on the node was seen there by the search, and so is a victim
    have hsee := all_eq_true.mp (all_eq_true.mp hdec'.2 node hmem) (k, p)
      (NodeTally.mem_podsOn.mpr ⟨hp, hn, hv⟩)
    have huse : p.uses t.pod.rwopPvcs := any_eq_true.mpr ⟨c, hc, contains_iff_mem.mpr hcp⟩
    simp only [huse, Bool.not_true, Bool.false_or, any_eq_true, Bool.and_eq_true, decide_eq_true_eq] at hsee
    obtain ⟨⟨k', q⟩, hq, rfl, hquse⟩ := hsee
    obtain ⟨c', hc', hcq⟩ := any_eq_true.mp hquse
    exact (victimsOn_some hvict).2 k' q hq c' hc' (contains_iff_mem.mp hcq)
  · exact h

theorem unshared_taskStep (ht : s.tasks[i]? = some t) (hdec : s.decides exclusive nodes (.task i b))
    (hkeep : s.keepsApart exclusive F nodes (.task i b)) :
    (s.taskStep F nodes i t b).tally.Unshared exclusive := by
  unfold State.taskStep
  split
  · exact h
  · exact unshared_pick h ht hdec hkeep
  · exact unshared_plan h ht hdec hkeep
  · exact h
  · exact h.remove _
  · next victims v todo attempts hpc =>
    obtain ⟨pod, pc⟩ := t
    cases hpc
    refine (h.remove pod.key).release (all_eq_true.mpr fun v hv => ?_)
    have hplain := all_eq_true.mp (by simpa only [State.keepsApart, ht] using hkeep) v hv
    cases hp : (s.tally.remove pod.key).cache.lookup v with
    | none => rfl
    | some p => rwa [(s.tally.cache.lookup_removePod_some hp).2] at hplain
  · next node victims attempts hpc =>
    obtain ⟨pod, pc⟩ := t
    cases hpc
    exact h.release (by simpa only [State.keepsApart, ht] using hkeep)
  · unfold State.checkReservation
    split_ifs
    · exact h
    · exact h
  · exact h
  · exact h
  · exact h.remove _
  · exact h
  · exact h
  · exact h

theorem unshared_stepped (hdec : s.decides exclusive nodes a)
    (hkeep : s.keepsApart exclusive F nodes a) (hstep : Stepped F nodes s a s') :
    s'.tally.Unshared exclusive := by
  cases hstep with
  | handle _ e replay hnt happ =>
    simp only [State.decides, happ, Bool.and_eq_true] at hdec
    exact h.applyEvent hdec.1
  | swap hsync => simp [State.decides, hsync] at hdec
  | task i t b ht => exact unshared_taskStep h ht hdec hkeep
  | _ => exact h

end

end Steps

theorem exclusive_claims_unshared (exclusive : Key → Bool) (F : Filters) (nodes : List NodeItem) (s : State)
    (hs : s.tally.Unshared exclusive) (as : List Action)
    (hdec : Runs.Along (State.step F nodes) (fun s a => s.decides exclusive nodes a = true) s as)
    (hkeep : Runs.Along (State.step F nodes) (fun s a => s.keepsApart exclusive F nodes a = true) s as) :
    (Runs.run (State.step F nodes) s as).tally.Unshared exclusive :=
  (hdec.and hkeep).invariant (fun s => s.tally.Unshared exclusive)
    (fun s a hs ha => unshared_stepped hs ha.1 ha.2 (stepped s a)) hs

def claimingPod (name : String) (priority : ℤ) : PendingPod := ⟨keyOf name, priority, [], {}, [], ["data"], ["data"]⟩

def dataOnly (c : Key) : Bool := c = keyOf "data"

def twoNodes : List NodeItem := [slots "n1" 5, slots "n2" 5]

def twoPicks : List Action :=
  [.bookmark, .spawn (claimingPod "a" 0), .task 0 .pick, .spawn (claimingPod "b" 0), .task 1 .pick]

theorem initial_unshared (exclusive : Key → Bool) : State.initial.tally.Unshared exclusive := by
  intro k₁ k₂ p₁ p₂ _ h₁
  cases h₁

theorem claim_shared_across_nodes :
    Runs.Along (State.step anyNode twoNodes) (fun s a => s.decides dataOnly twoNodes a = true)
        (State.initial.step anyNode twoNodes .bookmark) (twoPicks.drop 1) ∧
      ¬ (Runs.run (State.step anyNode twoNodes) .initial twoPicks).tally.Unshared dataOnly := by
  refine ⟨by decide +kernel, fun h => ?_⟩
  have ha : ((Runs.run (State.step anyNode twoNodes) .initial twoPicks).tally.cache.lookup (keyOf "a")).map
      TalliedPod.pvcNames = some [keyOf "data"] := by decide +kernel
  have hb : ((Runs.run (State.step anyNode twoNodes) .initial twoPicks).tally.cache.lookup (keyOf "b")).map
      TalliedPod.pvcNames = some [keyOf "data"] := by decide +kernel
  obtain ⟨p, hp, hpc⟩ := Option.map_eq_some_iff.mp ha
  obtain ⟨q, hq, hqc⟩ := Option.map_eq_some_iff.mp hb
  exact h _ _ p q (by decide) hp hq (by decide +kernel) (by decide +kernel) (keyOf "data") (by decide)
    (by rw [hpc]; decide) (by rw [hqc]; decide)

def beforeHandover : List Action :=
  [.spawn (claimingPod "a" 0), .task 0 .pick, .spawn (claimingPod "b" 10), .task 1 .pick]

def handover : List Action :=
  let s := Runs.run (State.step anyNode [slots "n1" 5]) .initial beforeHandover
  beforeHandover ++ [.task 1 (.plan (fun _ => s.tally) s.tally), .task 1 (.deleted true), .task 1 .register]

theorem exclusive_claims_unshared_handover :
    (Runs.run (State.step anyNode [slots "n1" 5]) .initial handover).tally.Unshared dataOnly ∧
      ((Runs.run (State.step anyNode [slots "n1" 5]) .initial handover).tally.cache.lookup (keyOf "b")).isSome :=
  ⟨exclusive_claims_unshared dataOnly anyNode [slots "n1" 5] .initial (initial_unshared _) handover
    (by decide +kernel) (by decide +kernel), by decide +kernel⟩

end U7s.Scheduler
