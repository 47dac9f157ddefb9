import U7s.Scheduler.System

/-! A pod's key belongs to one owner at a time: a task, a plan that waits for its victims, or the watch loop that is
about to release it. -/

namespace U7s.Scheduler

variable {F : Filters} {nodes : List NodeItem} {s : State} {i : ℕ} {t : Task}

/-- After the release, and once a plan waits in its place, a task runs on without the key. -/
def Pc.owns : Pc → Bool
  | .released => false
  | _ => true

def taskKeys (tasks : List Task) : Multiset Key := (tasks.filter (fun t => t.pc.owns)).map (fun t => t.pod.key)

def planKeys (plans : List WaitingPlan) : Multiset Key := plans.map (fun p => p.pod.key)

def State.owners (s : State) : Multiset Key := taskKeys s.tasks + planKeys s.tally.waiters + s.abandoned

def Owned (s : State) : Prop := s.owners = s.inFlight.val

theorem taskKeys_append (ts us : List Task) : taskKeys (ts ++ us) = taskKeys ts + taskKeys us := by
  simp [taskKeys]

theorem taskKeys_owner (pod : PendingPod) (hpc : pc.owns) : taskKeys [⟨pod, pc⟩] = {pod.key} := by
  simp [taskKeys, hpc]

theorem taskKeys_released (pod : PendingPod) : taskKeys [⟨pod, .released⟩] = 0 := rfl

theorem taskKeys_perm (h : ts.Perm us) : taskKeys ts = taskKeys us :=
  Multiset.coe_eq_coe.mpr ((h.filter _).map _)

theorem taskKeys_eraseIdx (h : s.tasks[i]? = some t) :
    taskKeys s.tasks = taskKeys [t] + taskKeys (s.tasks.eraseIdx i) := by
  obtain ⟨hi, rfl⟩ := getElem?_eq_some_iff.mp h
  rw [← taskKeys_append]
  exact taskKeys_perm (List.getElem_cons_eraseIdx_perm hi).symm

theorem taskKeys_set (h : s.tasks[i]? = some t) (u : Task) :
    taskKeys (s.tasks.set i u) = taskKeys [u] + taskKeys (s.tasks.eraseIdx i) := by
  obtain ⟨hi, -⟩ := getElem?_eq_some_iff.mp h
  rw [← taskKeys_append]
  exact taskKeys_perm (List.set_perm_cons_eraseIdx hi u)

theorem planKeys_resolve (tally : NodeTally) (victim : Key) :
    planKeys tally.waiters = planKeys (tally.resolve victim).1.waiters + planKeys (tally.resolve victim).2 := by
  unfold NodeTally.resolve
  have hkeys : planKeys tally.waiters =
      planKeys (tally.waiters.map (fun p => { p with remainingVictims := p.remainingVictims.erase victim })) := by
    simp [planKeys, Function.comp_def]
  rw [hkeys]
  generalize tally.waiters.map (fun p => { p with remainingVictims := p.remainingVictims.erase victim }) = plans
  have hperm := (List.filter_append_perm (fun p : WaitingPlan => decide (p.remainingVictims ≠ ∅)) plans).map
    (fun p => p.pod.key)
  rw [planKeys, ← Multiset.coe_eq_coe.mpr hperm]
  simp [planKeys]

theorem planKeys_applyEvent (tally : NodeTally) (e : PodEvent) :
    planKeys tally.waiters = planKeys (tally.applyEvent e).1.waiters + planKeys (tally.applyEvent e).2 := by
  cases hgone : e.gone with
  | true =>
    rw [NodeTally.applyEvent_gone hgone]
    exact planKeys_resolve { tally with cache := tally.cache.removePod e.key } e.key
  | false => simp [NodeTally.applyEvent_present hgone, planKeys]

theorem Owned.handle (hs : Owned s) (e : PodEvent) : Owned (s.handle e) := by
  have hplans := planKeys_applyEvent s.tally e
  have hready : taskKeys ((s.tally.applyEvent e).2.map (fun p => ⟨p.pod, .check p.nodeName⟩)) =
      planKeys (s.tally.applyEvent e).2 := by
    simp [taskKeys, planKeys, List.filter_map, Function.comp_def, Pc.owns]
  unfold Owned State.owners at hs ⊢
  rw [State.handle, taskKeys_append, hready, ← hs, hplans]
  abel

theorem Owned.setPc (hs : Owned s) (h : s.tasks[i]? = some t) (hw : tally.waiters = s.tally.waiters)
    (hpc : pc.owns = t.pc.owns) : Owned ({ s with tally }.setPc i t pc) := by
  have hkeys : taskKeys [{ t with pc }] = taskKeys [t] := by
    simp [taskKeys, hpc, List.filter_cons, apply_ite]
  unfold Owned State.owners at hs ⊢
  rw [State.setPc, taskKeys_set (s := { s with tally }) h, hkeys, ← taskKeys_eraseIdx h, hw, ← hs]

theorem Owned.pickNode (hs : Owned s) (h : s.tasks[i]? = some ⟨pod, .start⟩) :
    Owned (s.pickNode F nodes i ⟨pod, .start⟩) := by
  unfold State.pickNode
  split
  · next node tally hsel =>
    obtain ⟨-, -, -, -, rfl⟩ := selectAndReserveNode_some hsel
    exact hs.setPc h rfl rfl
  · exact hs.setPc h rfl rfl

theorem Owned.planPreemption (hs : Owned s) (h : s.tasks[i]? = some ⟨pod, .preempt n⟩) (attempts : ℕ)
    (seen : String → NodeTally) (labels : NodeTally) :
    Owned (s.planPreemption F nodes i ⟨pod, .preempt n⟩ attempts seen labels) := by
  unfold State.planPreemption
  split
  · next node victims tally hplan =>
    obtain ⟨-, -, rfl⟩ := findPreemptionPlan_some hplan
    exact hs.setPc h rfl rfl
  · exact hs.setPc h rfl rfl

theorem Owned.taskStep (hs : Owned s) (h : s.tasks[i]? = some t) (b : TaskAction) :
    Owned (s.taskStep F nodes i t b) := by
  obtain ⟨pod, pc⟩ := t
  unfold State.taskStep
  dsimp only
  split
  · exact hs.setPc h rfl rfl
  · exact hs.pickNode h
  · exact hs.planPreemption h _ _ _
  · exact hs.setPc h rfl rfl
  · exact hs.setPc h rfl rfl
  · exact hs.setPc h rfl rfl
  · -- the key goes from the task to the plan
    unfold Owned State.owners at hs ⊢
    rw [taskKeys_eraseIdx h, taskKeys_owner pod rfl] at hs
    simp only [State.setPc, taskKeys_set h, taskKeys_released, NodeTally.registerPreemptionWaiter,
      NodeTally.releaseVictims, planKeys, List.map_append, List.map_cons, List.map_nil, ← Multiset.coe_add,
      Multiset.coe_singleton] at hs ⊢
    rw [← hs]
    abel
  · unfold State.checkReservation
    split_ifs
    · exact hs.setPc h rfl rfl
    · exact hs.setPc h rfl rfl
  · exact hs.setPc h rfl rfl
  · exact hs.setPc h rfl rfl
  · exact hs.setPc h rfl rfl
  · -- the task lets go of its key and runs on
    unfold Owned State.owners at hs ⊢
    rw [taskKeys_eraseIdx h, taskKeys_owner pod rfl, Multiset.singleton_add, Multiset.cons_add, Multiset.cons_add] at hs
    simp only [State.setPc, taskKeys_set h, taskKeys_released, zero_add, Finset.erase_val, ← hs,
      Multiset.erase_cons_head]
  · unfold Owned State.owners at hs ⊢
    rwa [taskKeys_eraseIdx h, taskKeys_released, zero_add] at hs
  · exact hs

theorem Owned.stepped (hs : Owned s) (h : Stepped F nodes s a s') : Owned s' := by
  cases h with
  | stay => exact hs
  | spawn pod hk =>
    unfold Owned State.owners at hs ⊢
    rw [taskKeys_append, taskKeys_owner pod rfl, Finset.insert_val_of_notMem hk, ← hs, ← Multiset.singleton_add]
    abel
  | handle _ e replay => exact Owned.handle (s := { s with replay }) hs e
  | replay => exact hs
  | swap =>
    unfold Owned State.owners at hs ⊢
    change _ = s.inFlight.val
    rw [← hs]
    simp only [State.swap,
      ← Multiset.coe_add]
    abel
  | releaseAbandoned =>
    unfold Owned State.owners at hs ⊢
    have hnodup : s.abandoned.Nodup := by
      have hall := s.inFlight.nodup
      rw [← hs] at hall
      exact Multiset.coe_nodup.mp (Multiset.nodup_of_le (Multiset.le_add_left _ _) hall)
    rw [Finset.sdiff_val, List.toFinset_val, hnodup.dedup, ← hs]
    simp
  | noTask => exact hs
  | task i t b ht => exact hs.taskStep ht b

theorem owned_run (as : List Action) : Owned (Runs.run (State.step F nodes) State.initial as) :=
  Runs.run_invariant Owned (fun s a hs => hs.stepped (stepped s a)) as rfl

def State.attempts (s : State) (key : Key) : ℕ :=
  s.tasks.countP (fun t => t.pod.key = key && t.pc.owns) + s.tally.waiters.countP (fun p => p.pod.key = key)

def State.posts (s : State) (key : Key) : ℕ :=
  s.tasks.countP (fun t => t.pod.key = key && match t.pc with | .bind _ => true | _ => false)

theorem attempts_le_count (s : State) (key : Key) : s.attempts key ≤ s.owners.count key := by
  simp only [State.owners, taskKeys, planKeys, Multiset.count_add, Multiset.coe_count,
    List.count_eq_countP, List.countP_map, List.countP_filter]
  exact Nat.le_add_right _ _

/-- Up to the release of its key, a pod has one attempt. -/
theorem one_attempt_per_pod (F : Filters) (nodes : List NodeItem) (as : List Action) (key : Key) :
    let s := Runs.run (State.step F nodes) State.initial as
    s.attempts key ≤ 1 ∧ (0 < s.attempts key → key ∈ s.inFlight) ∧ s.posts key ≤ 1 := by
  intro s
  have howned : Owned s := owned_run as
  have hle := attempts_le_count s key
  rw [howned] at hle
  have hone : s.attempts key ≤ 1 := hle.trans (Multiset.nodup_iff_count_le_one.mp s.inFlight.nodup key)
  refine ⟨hone, fun hpos => ?_, ?_⟩
  · exact Multiset.count_pos.mp (hpos.trans_le hle)
  · refine le_trans ?_ hone
    refine le_trans (List.countP_mono_left fun t _ h => ?_) (Nat.le_add_right _ _)
    obtain ⟨pod, pc⟩ := t
    cases pc with
    | bind node => simpa [Pc.owns] using h
    | _ => simp at h

def anyNode : Filters := ⟨fun _ _ => true, fun _ _ _ => true, fun _ _ _ => true, fun _ _ _ _ => true, fun _ _ _ => true⟩

def slots (name : String) (n : ℕ) : NodeItem := ⟨name, n, 0, 0, 0, ∅⟩

def keyOf (name : String) : Key := ⟨"team", name⟩

def pendingPod (name : String) (priority : ℤ) : PendingPod := ⟨keyOf name, priority, [], {}, [], [], []⟩

def oneSlot : List NodeItem := [slots "n1" 1]

/-- The failed attempt has yet to patch the pod's status when the next one starts. -/
theorem reports_beside_next_attempt :
    let s := Runs.run (State.step anyNode oneSlot) State.initial
      [.spawn (pendingPod "web" 0), .task 0 .pick, .task 0 (.bindReply .failed), .task 0 .rollback, .task 0 .release,
        .spawn (pendingPod "web" 0)]
    s.tasks.map (fun t => t.pod.key) = [keyOf "web", keyOf "web"] := by
  decide +kernel

end U7s.Scheduler
