import U7s.Scheduler.Attempts

/-! A plan is registered after the last of its victims was asked to go; an event that reports a victim before that
finds no plan. -/

namespace U7s.Scheduler

open List

abbrev Reports := Key → Finset Key

def Reports.add (g : Reports) (e : PodEvent) : Reports := if e.gone then fun k => insert e.key (g k) else g

def Reports.reset (g : Reports) (key : Key) : Reports := fun k => if k = key then ∅ else g k

def reported (s : State) (g : Reports) (a : Action) : Reports :=
  match s.applied a, a with
  | some e, _ => g.add e
  | none, .task i (.plan _ _) => s.tasks[i]?.elim g (fun t => g.reset t.pod.key)
  | none, _ => g

def reportStep (F : Filters) (nodes : List NodeItem) (p : State × Reports) (a : Action) : State × Reports :=
  (p.1.step F nodes a, reported p.1 p.2 a)

def start : State × Reports := (State.initial, fun _ => ∅)

def registersInTime (p : State × Reports) : Action → Bool
  | .task i .register =>
    match p.1.tasks[i]? with
    | some ⟨pod, .evict _ victims [] _⟩ => victims.all (fun v => v ∉ p.2 pod.key)
    | _ => true
  | _ => true

def Wakeable (g : Reports) (plan : WaitingPlan) : Prop :=
  plan.remainingVictims.Nonempty ∧ Disjoint plan.remainingVictims (g plan.pod.key)

structure Awake (p : State × Reports) : Prop where
  plans : ∀ plan ∈ p.1.tally.waiters, Wakeable p.2 plan
  victims : ∀ t ∈ p.1.tasks, ∀ node victims todo n, t.pc = .evict node victims todo n → victims ≠ []

theorem Wakeable.reset (h : Wakeable g plan) (key : Key) : Wakeable (g.reset key) plan := by
  refine ⟨h.1, ?_⟩
  unfold Reports.reset
  split_ifs
  · exact Finset.disjoint_empty_right _
  · exact h.2

theorem Wakeable.resolve (tally : NodeTally) (h : ∀ plan ∈ tally.waiters, Wakeable g plan) (v : Key) :
    ∀ plan ∈ (tally.resolve v).1.waiters, Wakeable (fun k => insert v (g k)) plan := by
  intro plan hplan
  obtain ⟨hmem, hne⟩ := mem_filter.mp hplan
  obtain ⟨old, hold, rfl⟩ := mem_map.mp hmem
  refine ⟨Finset.nonempty_iff_ne_empty.mpr (by simpa using hne), ?_⟩
  rw [Finset.disjoint_insert_right]
  exact ⟨Finset.notMem_erase _ _, (h old hold).2.mono_left (Finset.erase_subset _ _)⟩

theorem Awake.handle (hs : Awake (s, g)) (e : PodEvent) : Awake ({ s with replay }.handle e, g.add e) := by
  constructor
  · unfold Reports.add
    cases hgone : e.gone with
    | true =>
      intro plan hplan
      simp only [State.handle, NodeTally.applyEvent_gone hgone] at hplan
      exact Wakeable.resolve { s.tally with cache := s.tally.cache.removePod e.key } hs.plans e.key plan hplan
    | false =>
      intro plan hplan
      simp only [State.handle, NodeTally.applyEvent_present hgone] at hplan
      exact hs.plans plan hplan
  · intro t ht
    obtain ht | ht := mem_append.mp ht
    · exact hs.victims t ht
    · obtain ⟨plan, -, rfl⟩ := mem_map.mp ht
      intro node victims todo n hpc
      cases hpc

theorem Awake.victims_set {t : Task} {pc : Pc} (hs : Awake (s, g))
    (hpc : ∀ node victims todo n, pc = .evict node victims todo n → victims ≠ []) :
    ∀ u ∈ s.tasks.set i { t with pc }, ∀ node victims todo n, u.pc = .evict node victims todo n → victims ≠ [] := by
  intro u hu
  obtain hu | rfl := mem_or_eq_of_mem_set hu
  · exact hs.victims u hu
  · exact hpc

theorem Awake.moves (hs : Awake (s, g)) (hw : tally.waiters = s.tally.waiters)
    (hpc : ∀ node victims todo n, pc ≠ .evict node victims todo n) : Awake ({ s with tally }.setPc i t pc, g) :=
  ⟨hw ▸ hs.plans, hs.victims_set (fun _ _ _ _ heq => absurd heq (hpc _ _ _ _))⟩

theorem Awake.taskStep (hs : Awake (s, g)) (h : s.tasks[i]? = some t)
    (hb : registersInTime (s, g) (.task i b)) : Awake (s.taskStep F nodes i t b, g) := by
  have ht : t ∈ s.tasks := mem_of_getElem? h
  unfold State.taskStep
  split
  · exact hs.moves rfl nofun
  · unfold State.pickNode
    split
    · next node tally hsel =>
      obtain ⟨-, -, -, -, rfl⟩ := selectAndReserveNode_some hsel
      exact hs.moves rfl nofun
    · exact hs.moves rfl nofun
  · unfold State.planPreemption
    split
    · next node victims tally hplan =>
      obtain ⟨-, hvictims, rfl⟩ := findPreemptionPlan_some hplan
      refine ⟨hs.plans, hs.victims_set (fun node' victims' todo n hpc => ?_)⟩
      cases hpc
      exact (victimsOn_some hvictims).1
    · exact hs.moves rfl nofun
  · exact hs.moves rfl nofun
  · next hpc =>
    refine ⟨hs.plans, hs.victims_set (fun node' victims' todo n heq => ?_)⟩
    cases heq
    exact hs.victims t ht _ _ _ _ hpc
  · exact hs.moves rfl nofun
  · next node victims attempts hpc =>
    -- the plan is registered while none of its victims is reported
    have hne := hs.victims t ht _ _ _ _ hpc
    obtain ⟨pod, pc⟩ := t
    cases hpc
    simp only [registersInTime, h, all_eq_true, decide_eq_true_eq] at hb
    refine ⟨fun plan hplan => ?_, hs.victims_set nofun⟩
    obtain hplan | hplan := mem_append.mp hplan
    · exact hs.plans plan hplan
    · cases mem_singleton.mp hplan
      refine ⟨?_, Finset.disjoint_left.mpr (fun v hv => hb v (mem_toFinset.mp hv))⟩
      obtain ⟨v, hv⟩ := exists_mem_of_ne_nil _ hne
      exact ⟨v, mem_toFinset.mpr hv⟩
  · unfold State.checkReservation
    split_ifs
    · exact hs.moves rfl nofun
    · exact hs.moves rfl nofun
  · exact hs.moves rfl nofun
  · exact hs.moves rfl nofun
  · exact hs.moves rfl nofun
  · exact ⟨hs.plans, hs.victims_set nofun⟩
  · exact ⟨hs.plans, fun u hu => hs.victims u (mem_of_mem_eraseIdx hu)⟩
  · exact hs

theorem Awake.reset (hs : Awake (s, g)) (key : Key) : Awake (s, g.reset key) :=
  ⟨fun plan hplan => (hs.plans plan hplan).reset key, hs.victims⟩

theorem reported_applied (h : s.applied a = some e) : reported s g a = g.add e := by
  unfold reported
  rw [h]

theorem reported_other (hnt : ∀ i b, a ≠ .task i b) (h : s.applied a = none) : reported s g a = g := by
  unfold reported
  rw [h]
  split
  · next heq => cases heq
  · exact absurd rfl (hnt _ _)
  · rfl

theorem reported_task (b : TaskAction) : reported s g (.task i b) = g ∨
    ∃ t, s.tasks[i]? = some t ∧ reported s g (.task i b) = g.reset t.pod.key := by
  cases b with
  | plan seen labels =>
    cases h : s.tasks[i]? with
    | none => exact Or.inl (by simp [reported, State.applied, h])
    | some t => exact Or.inr ⟨t, rfl, by simp [reported, State.applied, h]⟩
  | _ => exact Or.inl rfl

theorem Awake.stepped (hs : Awake (s, g)) (ha : registersInTime (s, g) a) (h : Stepped F nodes s a s') :
    Awake (s', reported s g a) := by
  cases h with
  | stay _ hnt happ =>
    rw [reported_other hnt happ]
    exact hs
  | spawn pod hk =>
    refine ⟨hs.plans, fun t ht => ?_⟩
    obtain ht | ht := mem_append.mp ht
    · exact hs.victims t ht
    · cases mem_singleton.mp ht
      simp
  | handle _ e replay hnt happ =>
    rw [reported_applied happ]
    exact hs.handle e
  | replay _ replay hnt happ =>
    rw [reported_other hnt happ]
    exact ⟨hs.plans, hs.victims⟩
  | swap => exact ⟨fun plan hplan => absurd hplan not_mem_nil, hs.victims⟩
  | releaseAbandoned => exact ⟨hs.plans, hs.victims⟩
  | noTask i b hnone =>
    obtain hg | ⟨t, -, hg⟩ := reported_task (s := s) (g := g) (i := i) b
    · rw [hg]
      exact hs
    · rw [hg]
      exact hs.reset t.pod.key
  | task i t b ht =>
    have hstep : Awake (s.taskStep F nodes i t b, g) := hs.taskStep ht ha
    obtain hg | ⟨u, -, hg⟩ := reported_task (s := s) (g := g) (i := i) b
    · rw [hg]
      exact hstep
    · rw [hg]
      exact hstep.reset u.pod.key

theorem reportStep_fst (p : State × Reports) (as : List Action) :
    (Runs.run (reportStep F nodes) p as).1 = Runs.run (State.step F nodes) p.1 as := by
  induction as generalizing p with
  | nil => rfl
  | cons a as ih => exact ih (reportStep F nodes p a)

theorem mem_owners {s : State} : key ∈ s.owners ↔
    (∃ t ∈ s.tasks, t.pc.owns ∧ t.pod.key = key) ∨ (∃ plan ∈ s.tally.waiters, plan.pod.key = key) ∨
      key ∈ s.abandoned := by
  simp [State.owners, taskKeys, planKeys, and_assoc]

/-- As long as plans are registered in time, none waits for reported victims only, and a key is in flight only while
a task runs for it, its plan waits for a victim to be reported, or it is being released. -/
theorem no_lost_wakeup (F : Filters) (nodes : List NodeItem) (as : List Action)
    (h : Runs.Along (reportStep F nodes) (fun p a => registersInTime p a = true) start as) :
    let p := Runs.run (reportStep F nodes) start as
    (∀ plan ∈ p.1.tally.waiters, ¬ plan.remainingVictims ⊆ p.2 plan.pod.key) ∧
      ∀ key ∈ p.1.inFlight, (∃ t ∈ p.1.tasks, t.pc.owns ∧ t.pod.key = key) ∨ key ∈ p.1.abandoned ∨
        ∃ plan ∈ p.1.tally.waiters, plan.pod.key = key ∧ ∃ v ∈ plan.remainingVictims, v ∉ p.2 key := by
  intro p
  have hawake : Awake p := by
    refine h.invariant Awake (fun q a hq ha => ?_) ⟨fun plan hplan => absurd hplan not_mem_nil,
      fun t ht => absurd ht not_mem_nil⟩
    exact hq.stepped ha (stepped q.1 a)
  have howned : Owned p.1 := by
    rw [show p.1 = Runs.run (State.step F nodes) State.initial as from reportStep_fst start as]
    exact owned_run as
  have hwaits : ∀ plan ∈ p.1.tally.waiters, ∃ v ∈ plan.remainingVictims, v ∉ p.2 plan.pod.key := by
    intro plan hplan
    obtain ⟨⟨v, hv⟩, hdisj⟩ := hawake.plans plan hplan
    exact ⟨v, hv, Finset.disjoint_left.mp hdisj hv⟩
  constructor
  · intro plan hplan hsub
    obtain ⟨v, hv, hnot⟩ := hwaits plan hplan
    exact hnot (hsub hv)
  · intro key hkey
    rw [← Finset.mem_val, ← howned] at hkey
    obtain ht | ⟨plan, hplan, rfl⟩ | ha := mem_owners.mp hkey
    · exact Or.inl ht
    · exact Or.inr (Or.inr ⟨plan, hplan, rfl, hwaits plan hplan⟩)
    · exact Or.inr (Or.inl ha)

def podEvent (type : EventType) (name : String) (node : Option String) : PodEvent :=
  ⟨type, keyOf name, node, false, [], 0, {}, [], []⟩

def beforePlan : List Action :=
  [.bookmark, .watch (podEvent .added "low" (some "n1")), .spawn (pendingPod "high" 10), .task 0 .pick]

def planAction : Action :=
  let s := Runs.run (State.step anyNode oneSlot) State.initial beforePlan
  .task 0 (.plan (fun _ => s.tally) s.tally)

def reportedEarly : List Action :=
  beforePlan ++ [planAction, .task 0 (.deleted true), .watch (podEvent .deleted "low" (some "n1")), .task 0 .register,
    .task 0 .finish]

def reportedLate : List Action :=
  beforePlan ++ [planAction, .task 0 (.deleted true), .task 0 .register, .task 0 .finish,
    .watch (podEvent .deleted "low" (some "n1"))]

theorem early_report_strands_plan :
    let p := Runs.run (reportStep anyNode oneSlot) start reportedEarly
    (∃ plan ∈ p.1.tally.waiters, plan.remainingVictims ⊆ p.2 plan.pod.key) ∧ p.1.tasks.isEmpty = true ∧
      p.1.abandoned = [] ∧ keyOf "high" ∈ p.1.inFlight := by
  decide +kernel

theorem no_lost_wakeup_late :
    let p := Runs.run (reportStep anyNode oneSlot) start reportedLate
    p.1.tally.waiters.isEmpty = true ∧ keyOf "high" ∈ p.1.inFlight ∧
      ∃ t ∈ p.1.tasks, t.pc.owns ∧ t.pod.key = keyOf "high" := by
  have hinTime : Runs.Along (reportStep anyNode oneSlot) (fun p a => registersInTime p a) start reportedLate := by
    decide +kernel
  have hkey : keyOf "high" ∈ (Runs.run (reportStep anyNode oneSlot) start reportedLate).1.inFlight := by
    decide +kernel
  have hempty : (Runs.run (reportStep anyNode oneSlot) start reportedLate).1.tally.waiters.isEmpty := by
    decide +kernel
  refine ⟨hempty, hkey, ?_⟩
  obtain ht | ha | ⟨plan, hplan, -⟩ := (no_lost_wakeup anyNode oneSlot reportedLate hinTime).2 _ hkey
  · exact ht
  · exact absurd ha not_mem_nil
  · exact absurd hplan not_mem_nil

end U7s.Scheduler
