import U7s.Lib.Runs
import U7s.Scheduler.Decisions

/-! The scheduler as a system of tasks. An action is one critical section of a task or of the watch loop, or a reply
of the API server. A task goes on to report after it has let go of its key. -/

namespace U7s.Scheduler

def MAX_PREEMPTION_ATTEMPTS : ℕ := 5

inductive Pc where
  | start
  | preempt (attempts : ℕ)
  | evict (node : NodeItem) (victims todo : List Key) (attempts : ℕ)
  | check (node : String)
  | bind (node : String)
  | rollback
  | done
  | released

structure Task where
  pod : PendingPod
  pc : Pc

structure PodReplay where
  fresh : NodeTally := .empty
  synced : Bool := false
  deferred : List PodEvent := []

structure State where
  tally : NodeTally
  inFlight : Finset Key
  tasks : List Task
  replay : PodReplay
  abandoned : List Key

inductive BindReply where
  | bound
  | alreadyAssigned
  | failed
deriving DecidableEq

inductive TaskAction where
  | giveUp
  | pick
  /-- What the search for a plan read: the tally at each node, and the one for the affinities. -/
  | plan (seen : String → NodeTally) (labels : NodeTally)
  | deleted (ok : Bool)
  | register
  | check
  | bindReply (reply : BindReply)
  | rollback
  | release
  | finish

inductive Action where
  | spawn (pod : PendingPod)
  | resync (e : PodEvent)
  | watch (e : PodEvent)
  | bookmark
  | releaseAbandoned
  | replayNext
  | reconnect
  | task (i : ℕ) (a : TaskAction)

namespace State

def initial : State := ⟨.empty, ∅, [], {}, []⟩

def setPc (s : State) (i : ℕ) (t : Task) (pc : Pc) : State := { s with tasks := s.tasks.set i { t with pc } }

def dropTask (s : State) (i : ℕ) : State := { s with tasks := s.tasks.eraseIdx i }

def handle (s : State) (e : PodEvent) : State :=
  { s with
    tally := (s.tally.applyEvent e).1
    tasks := s.tasks ++ (s.tally.applyEvent e).2.map (fun p => ⟨p.pod, .check p.nodeName⟩) }

variable (F : Filters) (nodes : List NodeItem)

def pickNode (s : State) (i : ℕ) (t : Task) : State :=
  match selectAndReserveNode F nodes s.tally t.pod with
  | some (node, tally) => { s with tally }.setPc i t (.bind node)
  | none => s.setPc i t (.preempt MAX_PREEMPTION_ATTEMPTS)

def planPreemption (s : State) (i : ℕ) (t : Task) (attempts : ℕ) (seen : String → NodeTally)
    (labels : NodeTally) : State :=
  match findPreemptionPlan F nodes seen labels s.tally t.pod with
  | some ((node, victims), tally) => { s with tally }.setPc i t (.evict node victims victims attempts)
  | none => s.setPc i t (.preempt attempts)

def checkReservation (s : State) (i : ℕ) (t : Task) (node : String) : State :=
  if (nodes.find? (fun n => n.name = node)).any (preemptionReservationStillFits s.tally t.pod) then
    s.setPc i t (.bind node)
  else s.setPc i t .rollback

def taskStep (s : State) (i : ℕ) (t : Task) (a : TaskAction) : State :=
  match t.pc, a with
  | .start, .giveUp => s.setPc i t .done
  | .start, .pick => s.pickNode F nodes i t
  | .preempt (attempts + 1), .plan seen labels => s.planPreemption F nodes i t attempts seen labels
  | .preempt 0, .giveUp => s.setPc i t .done
  | .evict node victims (v :: todo) attempts, .deleted true =>
    { s with tally := s.tally.remove v }.setPc i t (.evict node victims todo attempts)
  | .evict _ victims (_ :: _) attempts, .deleted false =>
    { s with tally := (s.tally.remove t.pod.key).releaseVictims victims }.setPc i t (.preempt attempts)
  | .evict node victims [] _, .register =>
    { s with tally := (s.tally.releaseVictims victims).registerPreemptionWaiter t.pod node.name victims }.setPc i t
      .released
  | .check node, .check => s.checkReservation nodes i t node
  | .bind _, .bindReply .failed => s.setPc i t .rollback
  | .bind _, .bindReply _ => s.setPc i t .done
  | .rollback, .rollback => { s with tally := s.tally.remove t.pod.key }.setPc i t .done
  | .done, .release => { s with inFlight := s.inFlight.erase t.pod.key }.setPc i t .released
  | .released, .finish => s.dropTask i
  | _, _ => s

def settled (s : State) : Bool := s.replay.deferred.isEmpty && s.abandoned.isEmpty

def absorb (s : State) (e : PodEvent) : State :=
  { s with replay := { s.replay with fresh := (s.replay.fresh.applyEvent e).1, deferred := s.replay.deferred ++ [e] } }

def swap (s : State) : State :=
  { s with
    tally := (s.tally.replacePods s.replay.fresh).1
    abandoned := s.abandoned ++ (s.tally.replacePods s.replay.fresh).2
    replay := { s.replay with synced := true } }

def step (s : State) : Action → State
  | .spawn pod =>
    if pod.key ∈ s.inFlight then s
    else { s with inFlight := insert pod.key s.inFlight, tasks := s.tasks ++ [⟨pod, .start⟩] }
  | .resync e => s.handle e
  | .watch e => if !s.replay.synced then s.absorb e else if s.settled then s.handle e else s
  | .bookmark => if s.replay.synced then s else s.swap
  | .releaseAbandoned => { s with inFlight := s.inFlight \ s.abandoned.toFinset, abandoned := [] }
  | .replayNext =>
    match s.replay.deferred with
    | e :: deferred =>
      if s.replay.synced && s.abandoned.isEmpty then { s with replay := { s.replay with deferred } }.handle e else s
    | [] => s
  | .reconnect => if s.replay.synced && !s.settled then s else { s with replay := {} }
  | .task i a =>
    match s.tasks[i]? with
    | some t => s.taskStep F nodes i t a
    | none => s

def applied (s : State) : Action → Option PodEvent
  | .resync e => some e
  | .watch e => if s.replay.synced && s.settled then some e else none
  | .replayNext => if s.replay.synced && s.abandoned.isEmpty then s.replay.deferred.head? else none
  | _ => none

end State

inductive Stepped (F : Filters) (nodes : List NodeItem) (s : State) : Action → State → Prop where
  | stay (a : Action) : (∀ i b, a ≠ .task i b) → s.applied a = none → Stepped F nodes s a s
  | spawn (pod : PendingPod) : pod.key ∉ s.inFlight → Stepped F nodes s (.spawn pod)
      { s with inFlight := insert pod.key s.inFlight, tasks := s.tasks ++ [⟨pod, .start⟩] }
  | handle (a : Action) (e : PodEvent) (replay : PodReplay) : (∀ i b, a ≠ .task i b) → s.applied a = some e →
      Stepped F nodes s a ({ s with replay }.handle e)
  | replay (a : Action) (replay : PodReplay) : (∀ i b, a ≠ .task i b) → s.applied a = none →
      Stepped F nodes s a { s with replay }
  | swap : s.replay.synced = false → Stepped F nodes s .bookmark s.swap
  | releaseAbandoned : Stepped F nodes s .releaseAbandoned
      { s with inFlight := s.inFlight \ s.abandoned.toFinset, abandoned := [] }
  | noTask (i : ℕ) (b : TaskAction) : s.tasks[i]? = none → Stepped F nodes s (.task i b) s
  | task (i : ℕ) (t : Task) (b : TaskAction) : s.tasks[i]? = some t →
      Stepped F nodes s (.task i b) (s.taskStep F nodes i t b)

theorem stepped (s : State) (a : Action) : Stepped F nodes s a (s.step F nodes a) := by
  cases a with
  | spawn pod =>
    by_cases hk : pod.key ∈ s.inFlight
    · rw [State.step, if_pos hk]
      exact .stay _ (by simp) rfl
    · rw [State.step, if_neg hk]
      exact .spawn pod hk
  | resync e => exact .handle _ e s.replay (by simp) rfl
  | watch e =>
    cases hsync : s.replay.synced with
    | false =>
      rw [State.step, hsync]
      exact .replay _ _ (by simp) (by simp [State.applied, hsync])
    | true =>
      cases hset : s.settled with
      | false =>
        rw [State.step, hsync, hset]
        exact .stay _ (by simp) (by simp [State.applied, hset])
      | true =>
        rw [State.step, hsync, hset]
        exact .handle _ e s.replay (by simp) (by simp [State.applied, hsync, hset])
  | bookmark =>
    unfold State.step
    dsimp only
    split_ifs with hsync
    · exact .stay _ (by simp) rfl
    · exact .swap (Bool.eq_false_iff.mpr hsync)
  | releaseAbandoned => exact .releaseAbandoned
  | replayNext =>
    unfold State.step
    dsimp only
    split
    · next e deferred hd =>
      split_ifs with hc
      · exact .handle _ e _ (by simp) (by rw [State.applied, if_pos hc, hd]; rfl)
      · exact .stay _ (by simp) (by rw [State.applied, if_neg hc])
    · next hd => exact .stay _ (by simp) (by simp [State.applied, hd])
  | reconnect =>
    unfold State.step
    dsimp only
    split_ifs
    · exact .stay _ (by simp) rfl
    · exact .replay _ _ (by simp) rfl
  | task i b =>
    unfold State.step
    dsimp only
    split
    · exact .task i _ b ‹_›
    · exact .noTask i b ‹_›

end U7s.Scheduler
