import U7s.Scheduler.Wakeups

/-! How long a reservation lasts. A swap puts the replayed pods in the place of the live ones, reservations
included. -/

namespace U7s.Scheduler

open List

section Definitions

variable (F : Filters) (nodes : List NodeItem)

def State.reserves (s : State) : Action → Option (Key × String)
  | .task i .pick =>
    match s.tasks[i]? with
    | some ⟨pod, .start⟩ => (selectAndReserveNode F nodes s.tally pod).map (fun r => (pod.key, r.1))
    | _ => none
  | .task i (.plan seen labels) =>
    match s.tasks[i]? with
    | some ⟨pod, .preempt (_ + 1)⟩ =>
      (findPreemptionPlan F nodes seen labels s.tally pod).map (fun r => (pod.key, r.1.1.name))
    | _ => none
  | _ => none

def Task.fails (s : State) (t : Task) (b : TaskAction) : Bool :=
  match t.pc, b with
  | .evict _ _ _ _, .deleted ok => !ok
  | .check node, .check =>
    !(nodes.find? (fun n => n.name = node)).any (preemptionReservationStillFits s.tally t.pod)
  | .bind _, .bindReply reply => reply ≠ .bound
  | _, _ => false

def State.ends (s : State) (key : Key) (a : Action) : Bool :=
  (s.applied a).any (fun e => e.gone && e.key = key) ||
    match a with
    | .bookmark => !s.replay.synced && s.tally.waiters.any (fun p => p.pod.key = key)
    | .task i b => s.tasks[i]?.any (fun t => t.pod.key = key && t.fails nodes s b)
    | _ => false

/-- A replay that is swapped in has the pod on its node, the pod is nobody's victim, its events name no other node
and no second attempt is made on it. -/
def State.spares (s : State) (key : Key) (node : String) (a : Action) : Bool :=
  (s.applied a).all (fun e => e.key ≠ key || e.nodeName.all (fun n => n = node)) &&
    match a with
    | .bookmark => s.replay.synced || (s.replay.fresh.cache.lookup key).any (fun p => p.nodeName = node)
    | .spawn pod => pod.key ≠ key || key ∈ s.inFlight
    | .task i (.deleted true) =>
      match s.tasks[i]? with
      | some ⟨_, .evict _ _ (v :: _) _⟩ => v ≠ key
      | _ => true
    | _ => true

end Definitions

def Pc.holds : Pc → Bool
  | .start | .preempt _ | .rollback => false
  | _ => true

structure Held (key : Key) (node : String) (s : State) : Prop where
  entry : ∃ p, s.tally.cache.lookup key = some p ∧ p.nodeName = node
  tasks : ∀ t ∈ s.tasks, t.pod.key = key → t.pc.holds = true

section

variable (hs : Held key node s)
include hs

theorem Held.setPc (hentry : ∃ p, tally.cache.lookup key = some p ∧ p.nodeName = node)
    (hpc : t.pod.key = key → pc.holds) : Held key node ({ s with tally }.setPc i t pc) := by
  refine ⟨hentry, fun u hu hk => ?_⟩
  obtain hu | rfl := mem_or_eq_of_mem_set hu
  · exact hs.tasks u hu hk
  · exact hpc hk

theorem Held.remove (hk : k ≠ key) :
    ∃ p, (s.tally.remove k).cache.lookup key = some p ∧ p.nodeName = node := by
  obtain ⟨p, hp, hn⟩ := hs.entry
  exact ⟨p, (s.tally.cache.lookup_removePod_ne hk.symm).trans hp, hn⟩

theorem Held.assume (hk : pod.key ≠ key) (n : String) :
    ∃ p, (s.tally.assume pod n).cache.lookup key = some p ∧ p.nodeName = node := by
  obtain ⟨p, hp, hn⟩ := hs.entry
  exact ⟨p, (s.tally.cache.lookup_insertPod_ne hk.symm _).trans hp, hn⟩

theorem Held.handle (hgone : (e.gone && e.key = key) = false)
    (hnode : (e.key ≠ key || e.nodeName.all (fun n => n = node))) :
    Held key node ({ s with replay }.handle e) := by
  constructor
  · cases hg : e.gone with
    | true =>
      have hk : e.key ≠ key := by simpa [hg] using hgone
      simp only [State.handle, NodeTally.applyEvent_gone hg]
      exact hs.remove hk
    | false =>
      simp only [State.handle, NodeTally.applyEvent_present hg]
      cases hn : e.nodeName with
      | none => exact hs.entry
      | some m =>
        by_cases hk : e.key = key
        · have hm : m = node := by simpa [hk, hn] using hnode
          subst hk
          exact ⟨e.tallied m, s.tally.cache.lookup_insertPod _ _, hm⟩
        · obtain ⟨p, hp, hpn⟩ := hs.entry
          exact ⟨p, (s.tally.cache.lookup_insertPod_ne (Ne.symm hk) _).trans hp, hpn⟩
  · intro t ht hk
    obtain ht | ht := mem_append.mp ht
    · exact hs.tasks t ht hk
    · obtain ⟨plan, -, rfl⟩ := mem_map.mp ht
      rfl

theorem Held.taskStep (h : s.tasks[i]? = some t)
    (hend : s.ends nodes key (.task i b) = false) (hspare : s.spares key node (.task i b)) :
    Held key node (s.taskStep F nodes i t b) := by
  have ht : t.pod.key = key → t.pc.holds := hs.tasks t (mem_of_getElem? h)
  have hfail : t.pod.key = key → t.fails nodes s b = false := by
    intro hk
    simpa [State.ends, State.applied, h, hk] using hend
  unfold State.taskStep
  split
  · exact hs.setPc hs.entry (fun _ => rfl)
  · next hpc =>
    have hk : t.pod.key ≠ key := fun hk => by simpa [hpc, Pc.holds] using ht hk
    unfold State.pickNode
    split
    · next n tally hsel =>
      obtain ⟨-, -, -, -, rfl⟩ := selectAndReserveNode_some hsel
      exact hs.setPc (hs.assume hk n) (fun _ => rfl)
    · exact hs.setPc hs.entry (fun hk' => absurd hk' hk)
  · next hpc =>
    have hk : t.pod.key ≠ key := fun hk => by simpa [hpc, Pc.holds] using ht hk
    unfold State.planPreemption
    split
    · next n victims tally hplan =>
      obtain ⟨-, -, rfl⟩ := findPreemptionPlan_some hplan
      exact hs.setPc (hs.assume hk _) (fun _ => rfl)
    · exact hs.setPc hs.entry (fun hk' => absurd hk' hk)
  · exact hs.setPc hs.entry (fun _ => rfl)
  · next n victims v todo attempts hpc =>
    obtain ⟨pod, pc⟩ := t
    cases hpc
    have hv : v ≠ key := by simpa [State.spares, State.applied, h] using hspare
    exact hs.setPc (hs.remove hv) (fun _ => rfl)
  · next hpc =>
    have hk : t.pod.key ≠ key := fun hk => by simpa [Task.fails, hpc] using hfail hk
    exact hs.setPc (hs.remove hk) (fun hk' => absurd hk' hk)
  · exact hs.setPc hs.entry (fun _ => rfl)
  · next n hpc =>
    unfold State.checkReservation
    split_ifs with hfits
    · exact hs.setPc hs.entry (fun _ => rfl)
    · exact hs.setPc hs.entry (fun hk => absurd (hfail hk) (by simp [Task.fails, hpc, hfits]))
  · next hpc => exact hs.setPc hs.entry (fun hk => absurd (hfail hk) (by simp [Task.fails, hpc]))
  · exact hs.setPc hs.entry (fun _ => rfl)
  · next hpc =>
    have hk : t.pod.key ≠ key := fun hk => by simpa [hpc, Pc.holds] using ht hk
    exact hs.setPc (hs.remove hk) (fun _ => rfl)
  · exact ⟨hs.entry, (hs.setPc hs.entry (fun _ => rfl)).tasks⟩
  · exact ⟨hs.entry, fun u hu => hs.tasks u (mem_of_mem_eraseIdx hu)⟩
  · exact hs

theorem Held.stepped (hend : s.ends nodes key a = false)
    (hspare : s.spares key node a) (h : Stepped F nodes s a s') : Held key node s' := by
  cases h with
  | stay => exact hs
  | spawn pod hk =>
    refine ⟨hs.entry, fun t ht hkey => ?_⟩
    obtain ht | ht := mem_append.mp ht
    · exact hs.tasks t ht hkey
    · cases mem_singleton.mp ht
      subst hkey
      simp [State.spares, hk] at hspare
  | handle _ e replay hnt happ =>
    simp only [State.ends, happ, Bool.or_eq_false_iff] at hend
    simp only [State.spares, happ, Bool.and_eq_true] at hspare
    exact hs.handle hend.1 hspare.1
  | replay => exact ⟨hs.entry, hs.tasks⟩
  | swap hsync =>
    simp only [State.spares, hsync] at hspare
    obtain ⟨p, hp, hn⟩ := (Option.any_eq_true _ _).mp hspare
    exact ⟨⟨p, hp, by simpa using hn⟩, hs.tasks⟩
  | releaseAbandoned => exact ⟨hs.entry, hs.tasks⟩
  | noTask => exact hs
  | task i t b ht => exact hs.taskStep ht hend hspare

end

theorem Owned.other_released (hs : Owned s) (h : s.tasks[i]? = some t) (hpc : t.pc.owns) (hu : u ∈ s.tasks.eraseIdx i)
    (hk : u.pod.key = t.pod.key) : u.pc = .released := by
  have hnodup : (taskKeys s.tasks).Nodup := by
    have hall := s.inFlight.nodup
    rw [← hs, State.owners, add_assoc] at hall
    exact Multiset.nodup_of_le (Multiset.le_add_right _ _) hall
  rw [taskKeys_eraseIdx h, taskKeys_owner t.pod hpc, Multiset.singleton_add, Multiset.nodup_cons] at hnodup
  by_contra hne
  have howns : u.pc.owns := by
    cases hpc : u.pc with
    | released => exact absurd hpc hne
    | _ => rfl
  exact hnodup.1 (hk ▸ Multiset.mem_coe.mpr (mem_map_of_mem (mem_filter.mpr ⟨hu, howns⟩)))

theorem Owned.held (hs : Owned s) (h : s.tasks[i]? = some t) (ht : t.pc.owns)
    (hentry : ∃ p, tally.cache.lookup t.pod.key = some p ∧ p.nodeName = node) (hpc : pc.holds) :
    Held t.pod.key node ({ s with tally }.setPc i t pc) := by
  refine ⟨hentry, fun u hu hk => ?_⟩
  obtain ⟨j, hj⟩ := mem_iff_getElem?.mp hu
  rw [State.setPc, getElem?_set] at hj
  split_ifs at hj with hij
  · cases hj
    exact hpc
  · rw [hs.other_released h ht (mem_eraseIdx_iff_getElem?.mpr ⟨j, Ne.symm hij, hj⟩) hk]
    rfl

theorem held_of_reserves (hs : Owned s) (h : s.reserves F nodes a = some (key, node)) :
    Held key node (s.step F nodes a) := by
  unfold State.reserves at h
  split at h
  · next i =>
    split at h
    · next pod ht =>
      obtain ⟨⟨n, tally⟩, hsel, heq⟩ := Option.map_eq_some_iff.mp h
      cases heq
      simp only [State.step, ht, State.taskStep, State.pickNode, hsel]
      obtain ⟨-, -, -, -, rfl⟩ := selectAndReserveNode_some hsel
      exact hs.held ht rfl ⟨_, Pods.lookup_insertPod _ _ _, rfl⟩ rfl
    · cases h
  · next i seen labels =>
    split at h
    · next pod attempts ht =>
      obtain ⟨⟨⟨n, victims⟩, tally⟩, hplan, heq⟩ := Option.map_eq_some_iff.mp h
      cases heq
      simp only [State.step, ht, State.taskStep, State.planPreemption, hplan]
      obtain ⟨-, -, rfl⟩ := findPreemptionPlan_some hplan
      exact hs.held ht rfl ⟨_, Pods.lookup_insertPod _ _ _, rfl⟩ rfl
    · cases h
  · cases h

/-- Until the attempt fails or the pod is reported gone, the tally has the pod on its node, if every step spares it.
-/
theorem reservation_outlives_bind (F : Filters) (nodes : List NodeItem) (as : List Action) (a : Action) (key : Key)
    (node : String) (bs : List Action)
    (hres : (Runs.run (State.step F nodes) .initial as).reserves F nodes a = some (key, node))
    (hlast : Runs.Along (State.step F nodes) (fun s b => s.ends nodes key b = false)
      (Runs.run (State.step F nodes) .initial (as ++ [a])) bs)
    (hspare : Runs.Along (State.step F nodes) (fun s b => s.spares key node b = true)
      (Runs.run (State.step F nodes) .initial (as ++ [a])) bs) :
    ∃ p, (Runs.run (State.step F nodes) .initial (as ++ a :: bs)).tally.cache.lookup key = some p ∧
      p.nodeName = node := by
  have hheld : Held key node (Runs.run (State.step F nodes) .initial (as ++ [a])) := by
    rw [Runs.run_append]
    exact held_of_reserves (owned_run as) hres
  have hrun := (hlast.and hspare).invariant (Held key node)
    (fun s b hs hb => hs.stepped hb.1 hb.2 (stepped s b)) hheld
  rw [append_cons, Runs.run_append]
  exact hrun.entry

def reconnectBeforeBind : List Action :=
  [.reconnect, .watch (podEvent .added "web" none), .bookmark]

def reconnectAfterBind : List Action :=
  [.task 0 (.bindReply .bound), .task 0 .release, .reconnect, .watch (podEvent .added "web" (some "n1")), .bookmark]

def reserved : State :=
  Runs.run (State.step anyNode oneSlot) .initial [.bookmark, .spawn (pendingPod "web" 0), .task 0 .pick]

theorem swap_drops_reservation :
    (Runs.run (State.step anyNode oneSlot) .initial [.bookmark, .spawn (pendingPod "web" 0)]).reserves anyNode
        oneSlot (.task 0 .pick) = some (keyOf "web", "n1") ∧
      Runs.Along (State.step anyNode oneSlot) (fun s b => s.ends oneSlot (keyOf "web") b = false) reserved
        reconnectBeforeBind ∧
      ((Runs.run (State.step anyNode oneSlot) reserved reconnectBeforeBind).tally.cache.lookup (keyOf "web")).isNone ∧
      (Runs.run (State.step anyNode oneSlot) reserved reconnectBeforeBind).posts (keyOf "web") = 1 := by
  decide +kernel

theorem reservation_outlives_bind_snapshot :
    ∃ p, (Runs.run (State.step anyNode oneSlot) .initial ([.bookmark, .spawn (pendingPod "web" 0)] ++ .task 0 .pick ::
      reconnectAfterBind)).tally.cache.lookup (keyOf "web") = some p ∧ p.nodeName = "n1" :=
  reservation_outlives_bind anyNode oneSlot [.bookmark, .spawn (pendingPod "web" 0)] (.task 0 .pick) (keyOf "web") "n1"
    reconnectAfterBind (by decide +kernel) (by decide +kernel) (by decide +kernel)

end U7s.Scheduler
