import U7s.Lib.Runs
import U7s.Scheduler.Placement

/-! What the tally is fed with: the events of the pod watch, events made up from a body read earlier, and
reservations. -/

namespace U7s.Scheduler

open Runs List

def PodEvent.outcome (e : PodEvent) (before : Option TalliedPod) : Option TalliedPod :=
  if e.gone then none else e.nodeName.elim before (fun node => some (e.tallied node))

def PodEvent.Telling (e : PodEvent) : Prop := e.gone = true ∨ e.nodeName.isSome = true

instance (e : PodEvent) : Decidable e.Telling := inferInstanceAs (Decidable (_ ∨ _))

section Log

def bodyOf (log : List PodEvent) (key : Key) : Option PodEvent :=
  (log.reverse.find? (fun e => e.key = key)).bind (fun e =>
    if e.type = .deleted then none else some { e with type := .modified })

def boundPod (log : List PodEvent) (key : Key) : Option TalliedPod :=
  (bodyOf log key).bind (fun e => if e.terminal then none else e.nodeName.map e.tallied)

def reportedPod (log : List PodEvent) (key : Key) : Option TalliedPod :=
  log.foldl (fun before e => if e.key = key then e.outcome before else before) none

def mayFollow (log : List PodEvent) (e : PodEvent) : Bool :=
  e.type = .deleted || e.nodeName.isSome || ((bodyOf log e.key).bind PodEvent.nodeName).isNone

def snapshot (log : List PodEvent) : List PodEvent := (log.map PodEvent.key).dedup.filterMap (bodyOf log)

variable {log : List PodEvent} {e : PodEvent} {key : Key}

theorem bodyOf_concat : bodyOf (log ++ [e]) key =
    if e.key = key then (if e.type = .deleted then none else some { e with type := .modified })
    else bodyOf log key := by
  unfold bodyOf
  by_cases hk : e.key = key
  · simp [hk]
  · simp [hk]

theorem bodyOf_some (h : bodyOf log key = some e) : e.key = key ∧ e.type = .modified := by
  obtain ⟨e', hfind, h⟩ := Option.bind_eq_some_iff.mp h
  split_ifs at h
  cases h
  have hkey := find?_some hfind
  exact ⟨of_decide_eq_true hkey, rfl⟩

theorem reportedPod_concat : reportedPod (log ++ [e]) key =
    if e.key = key then e.outcome (reportedPod log key) else reportedPod log key := by
  rw [reportedPod, foldl_append]
  rfl

theorem outcome_of_telling (h : e.Telling) (before before' : Option TalliedPod) :
    e.outcome before = e.outcome before' := by
  unfold PodEvent.outcome
  rcases h with hgone | hnode
  · rw [if_pos hgone, if_pos hgone]
  · obtain ⟨node, hn⟩ := Option.isSome_iff_exists.mp hnode
    rw [hn]
    rfl

theorem outcome_of_not_telling (h : ¬e.Telling) (before : Option TalliedPod) : e.outcome before = before := by
  simp only [PodEvent.Telling, not_or, Bool.not_eq_true, Option.isSome_eq_false_iff, Option.isNone_iff_eq_none] at h
  rw [PodEvent.outcome, h.1, h.2]
  rfl

theorem outcome_body (htype : e.type = .modified) (before : Option TalliedPod) : e.outcome before =
    e.nodeName.elim before (fun node => if e.terminal then none else some (e.tallied node)) := by
  unfold PodEvent.outcome PodEvent.gone
  rw [htype]
  cases e.nodeName with
  | none => rfl
  | some node => cases e.terminal <;> rfl

theorem reportedPod_eq_boundPod_concat (h : ∀ key, reportedPod log key = boundPod log key) (hmay : mayFollow log e) :
    reportedPod (log ++ [e]) key = boundPod (log ++ [e]) key := by
  rw [reportedPod_concat, boundPod, bodyOf_concat]
  by_cases hk : e.key = key
  · subst hk
    rw [if_pos rfl, if_pos rfl, h, boundPod]
    simp only [mayFollow, Bool.or_eq_true] at hmay
    by_cases hdel : e.type = .deleted
    · rw [PodEvent.outcome, PodEvent.gone, hdel]
      rfl
    · rw [if_neg hdel, PodEvent.outcome, PodEvent.gone, decide_eq_false hdel]
      cases hn : e.nodeName with
      | some node => cases e.terminal <;> simp [PodEvent.tallied]
      | none =>
        -- the pod was not bound before either
        have hnone := (hmay.resolve_left (by simp [hdel, hn]))
        cases hb : bodyOf log e.key with
        | none => simp
        | some b =>
          have hbn : b.nodeName = none := by simpa [hb] using hnone
          simp [hbn]
  · rw [if_neg hk, if_neg hk, h]
    rfl

end Log

section Tally

variable {t : NodeTally} {e : PodEvent} {key k : Key}

theorem lookup_applyEvent : (t.applyEvent e).1.cache.lookup k =
    if e.key = k then e.outcome (t.cache.lookup k) else t.cache.lookup k := by
  cases hgone : e.gone with
  | true =>
    rw [NodeTally.applyEvent_gone hgone, PodEvent.outcome, if_pos hgone]
    by_cases hk : e.key = k
    · subst hk
      rw [if_pos rfl]
      exact Pods.lookup_removePod _ _
    · rw [if_neg hk]
      exact Pods.lookup_removePod_ne _ (Ne.symm hk)
  | false =>
    rw [NodeTally.applyEvent_present hgone, PodEvent.outcome, hgone]
    cases e.nodeName with
    | none => simp
    | some node =>
      by_cases hk : e.key = k
      · subst hk
        simp
      · rw [if_neg hk]
        exact Pods.lookup_insertPod_ne _ (Ne.symm hk) _

theorem lookup_foldl_applyEvent {es : List PodEvent} (hkeys : (es.map PodEvent.key).Nodup) :
    (es.foldl (fun t e => (t.applyEvent e).1) t).cache.lookup k =
      ((es.find? (fun e => e.key = k)).elim (t.cache.lookup k) (fun e => e.outcome (t.cache.lookup k))) := by
  induction es generalizing t with
  | nil => rfl
  | cons e es ih =>
    rw [map_cons, nodup_cons] at hkeys
    rw [foldl_cons, ih hkeys.2, lookup_applyEvent]
    by_cases hk : e.key = k
    · have hnone : es.find? (fun e => e.key = k) = none := by
        rw [find?_eq_none]
        intro e' he' hk'
        rw [decide_eq_true_eq] at hk'
        exact hkeys.1 (mem_map.mpr ⟨e', he', hk'.trans hk.symm⟩)
      simp [hk, hnone]
    · simp [hk]

theorem snapshot_keys (log : List PodEvent) : ((snapshot log).map PodEvent.key).Nodup := by
  have hsub : ((snapshot log).map PodEvent.key).Sublist ((log.map PodEvent.key).dedup) := by
    unfold snapshot
    induction (log.map PodEvent.key).dedup with
    | nil => exact Sublist.slnil
    | cons key keys ih =>
      rw [filterMap_cons]
      cases hb : bodyOf log key with
      | none => exact ih.cons _
      | some e =>
        rw [map_cons, (bodyOf_some hb).1]
        exact ih.cons_cons _
  exact (nodup_dedup _).sublist hsub

theorem find?_snapshot (log : List PodEvent) (key : Key) :
    (snapshot log).find? (fun e => e.key = key) = bodyOf log key := by
  cases hb : bodyOf log key with
  | none =>
    rw [find?_eq_none]
    intro e he hk
    obtain ⟨key', -, hb'⟩ := mem_filterMap.mp he
    have hkey : key' = key := (bodyOf_some hb').1.symm.trans (of_decide_eq_true hk)
    rw [hkey, hb] at hb'
    cases hb'
  | some e =>
    have hmem : e ∈ snapshot log := by
      obtain ⟨e', hfind, -⟩ := Option.bind_eq_some_iff.mp hb
      have hkey := find?_some hfind
      refine mem_filterMap.mpr ⟨key, mem_dedup.mpr (mem_map.mpr ⟨e', ?_, ?_⟩), hb⟩
      · exact mem_reverse.mp (mem_of_find?_eq_some hfind)
      · exact of_decide_eq_true hkey
    obtain ⟨e', hfind⟩ := Option.isSome_iff_exists.mp
      (find?_isSome (p := fun e => e.key = key) |>.mpr ⟨e, hmem, decide_eq_true (bodyOf_some hb).1⟩)
    have hkey' := find?_some hfind
    obtain ⟨key', -, hb'⟩ := mem_filterMap.mp (mem_of_find?_eq_some hfind)
    have hkey : key' = key := (bodyOf_some hb').1.symm.trans (of_decide_eq_true hkey')
    rw [hkey, hb] at hb'
    rw [hfind, hb']

theorem lookup_fresh (log : List PodEvent) (key : Key) :
    ((snapshot log).foldl (fun t e => (t.applyEvent e).1) NodeTally.empty).cache.lookup key = boundPod log key := by
  rw [lookup_foldl_applyEvent (snapshot_keys log), find?_snapshot, boundPod]
  cases hb : bodyOf log key with
  | none => rfl
  | some e =>
    rw [Option.elim_some, outcome_body (bodyOf_some hb).2, Option.bind_some]
    cases e.nodeName <;> cases e.terminal <;> rfl

end Tally

structure Feed where
  log : List PodEvent
  cursor : ℕ
  tally : NodeTally
  reserved : Finset Key

inductive FeedAction where
  | write (e : PodEvent)
  | deliver
  /-- An event made up from the body that was read under a key at a revision. -/
  | synthetic (revision : ℕ) (key : Key)
  | assume (pod : PendingPod) (node : String)
  | remove (key : Key)
  | relist (revision : ℕ)

namespace Feed

def initial : Feed := ⟨[], 0, .empty, ∅⟩

def apply (f : Feed) (e : PodEvent) : Feed :=
  { f with
    tally := (f.tally.applyEvent e).1
    reserved := if e.Telling then f.reserved.erase e.key else f.reserved }

def step (f : Feed) : FeedAction → Feed
  | .write e => if mayFollow f.log e then { f with log := f.log ++ [e] } else f
  | .deliver =>
    match f.log[f.cursor]? with
    | some e => { f.apply e with cursor := f.cursor + 1 }
    | none => f
  | .synthetic revision key =>
    match bodyOf (f.log.take revision) key with
    | some e => f.apply e
    | none => f
  | .assume pod node => { f with tally := f.tally.assume pod node, reserved := insert pod.key f.reserved }
  | .remove key => { f with tally := f.tally.remove key, reserved := f.reserved.erase key }
  | .relist revision =>
    if f.cursor ≤ revision ∧ revision ≤ f.log.length then
      { f with
        cursor := revision
        tally := (f.tally.replacePods
          ((snapshot (f.log.take revision)).foldl (fun t e => (t.applyEvent e).1) .empty)).1
        reserved := ∅ }
    else f

def said (f : Feed) (key : Key) : Option TalliedPod := reportedPod (f.log.take f.cursor) key

def Awaits (f : Feed) (key : Key) : Prop := ∃ e ∈ f.log.drop f.cursor, e.key = key ∧ e.Telling

instance (f : Feed) (key : Key) : Decidable (f.Awaits key) :=
  inferInstanceAs (Decidable (∃ e ∈ f.log.drop f.cursor, e.key = key ∧ e.Telling))

def Faithful (f : Feed) : FeedAction → Prop
  | .synthetic revision key => ∀ e, bodyOf (f.log.take revision) key = some e → e.Telling →
      f.Awaits key ∨ f.said key = e.outcome none
  | .remove key => f.Awaits key ∨ f.said key = none
  | _ => True

structure Tracks (f : Feed) : Prop where
  cursor_le : f.cursor ≤ f.log.length
  legal : ∀ n key, reportedPod (f.log.take n) key = boundPod (f.log.take n) key
  entries : ∀ key ∉ f.reserved, f.Awaits key ∨ f.tally.cache.lookup key = f.said key

variable {f : Feed}

theorem tracks_initial : Tracks initial := by
  refine ⟨le_rfl, fun n key => ?_, fun key _ => .inr rfl⟩
  rw [show initial.log.take n = [] from take_nil]
  rfl

theorem not_mem_reserved_of_apply (hthis : ¬(e.key = key ∧ e.Telling)) (hkey : key ∉ (f.apply e).reserved) :
    key ∉ f.reserved := by
  intro hres
  apply hkey
  unfold apply
  split_ifs with htell
  · exact Finset.mem_erase.mpr ⟨fun hk => hthis ⟨hk.symm, htell⟩, hres⟩
  · exact hres

theorem Tracks.write (h : Tracks f) (hmay : mayFollow f.log e) : Tracks { f with log := f.log ++ [e] } := by
  have hcursor := h.cursor_le
  refine ⟨?_, fun n key => ?_, fun key hkey => ?_⟩
  · rw [length_append]
    exact le_add_right hcursor
  · by_cases hn : n ≤ f.log.length
    · rw [take_append_of_le_length hn]
      exact h.legal n key
    · rw [take_of_length_le (by rw [length_append, length_singleton]; omega)]
      apply reportedPod_eq_boundPod_concat _ hmay
      intro key
      have hall := h.legal f.log.length key
      rwa [take_length] at hall
  · rcases h.entries key hkey with ⟨e', he', hk, htell⟩ | heq
    · refine .inl ⟨e', ?_, hk, htell⟩
      rw [drop_append_of_le_length hcursor]
      exact mem_append_left _ he'
    · right
      rw [heq, said, said, take_append_of_le_length hcursor]

theorem Tracks.deliver (h : Tracks f) (he : f.log[f.cursor]? = some e) :
    Tracks { f.apply e with cursor := f.cursor + 1 } := by
  obtain ⟨hlt, hget⟩ := List.getElem?_eq_some_iff.mp he
  have hsaid : ∀ key, ({ f.apply e with cursor := f.cursor + 1 } : Feed).said key =
      if e.key = key then e.outcome (f.said key) else f.said key := by
    intro key
    rw [said, said, ← reportedPod_concat, ← hget]
    exact congrArg (reportedPod · key) (take_append_getElem hlt).symm
  -- another event of the key, if one was to come, is still to come
  have hawaits : ∀ key, f.Awaits key → ¬(e.key = key ∧ e.Telling) →
      ({ f.apply e with cursor := f.cursor + 1 } : Feed).Awaits key := by
    rintro key ⟨e', he', hk, htell⟩ hnot
    rw [drop_eq_getElem_cons hlt, hget, mem_cons] at he'
    rcases he' with rfl | he'
    · exact absurd ⟨hk, htell⟩ hnot
    · exact ⟨e', he', hk, htell⟩
  refine ⟨hlt, h.legal, fun key hkey => ?_⟩
  have htally : ({ f.apply e with cursor := f.cursor + 1 } : Feed).tally.cache.lookup key =
      if e.key = key then e.outcome (f.tally.cache.lookup key) else f.tally.cache.lookup key := lookup_applyEvent
  by_cases hthis : e.key = key ∧ e.Telling
  · obtain ⟨rfl, htell⟩ := hthis
    right
    rw [htally, hsaid, if_pos rfl, if_pos rfl]
    exact outcome_of_telling htell _ _
  · refine (h.entries key (not_mem_reserved_of_apply hthis hkey)).imp (fun ha => hawaits key ha hthis) (fun heq => ?_)
    rw [htally, hsaid, heq]

theorem Tracks.synthetic (h : Tracks f) (he : e.Telling → f.Awaits e.key ∨ f.said e.key = e.outcome none) :
    Tracks (f.apply e) := by
  refine ⟨h.cursor_le, h.legal, fun key hkey => ?_⟩
  have htally : (f.apply e).tally.cache.lookup key =
      if e.key = key then e.outcome (f.tally.cache.lookup key) else f.tally.cache.lookup key := lookup_applyEvent
  by_cases hthis : e.key = key ∧ e.Telling
  · obtain ⟨rfl, htell⟩ := hthis
    refine (he htell).imp id (fun hsaid => ?_)
    rw [htally, if_pos rfl, outcome_of_telling htell _ none]
    exact hsaid.symm
  · refine (h.entries key (not_mem_reserved_of_apply hthis hkey)).imp id (fun heq => ?_)
    rw [htally]
    split_ifs with hk
    · rw [outcome_of_not_telling (fun htell => hthis ⟨hk, htell⟩)]
      exact heq
    · exact heq

theorem Tracks.relist (h : Tracks f) (hle : revision ≤ f.log.length) :
    Tracks { f with
      cursor := revision
      tally := (f.tally.replacePods
        ((snapshot (f.log.take revision)).foldl (fun t e => (t.applyEvent e).1) .empty)).1
      reserved := ∅ } := by
  refine ⟨hle, h.legal, fun key _ => .inr ?_⟩
  exact (lookup_fresh _ key).trans (h.legal revision key).symm

theorem Tracks.step (h : Tracks f) (ha : f.Faithful a) : Tracks (f.step a) := by
  cases a with
  | write e =>
    unfold Feed.step
    dsimp only
    split_ifs with hmay
    · exact h.write hmay
    · exact h
  | deliver =>
    unfold Feed.step
    dsimp only
    split
    · next e he => exact h.deliver he
    · exact h
  | synthetic revision key =>
    unfold Feed.step
    dsimp only
    split
    · next e he =>
      apply h.synthetic
      rw [(bodyOf_some he).1]
      exact ha e he
    · exact h
  | assume pod node =>
    refine ⟨h.cursor_le, h.legal, fun key hkey => ?_⟩
    obtain ⟨hne, hkey⟩ := not_or.mp (fun hmem => hkey (Finset.mem_insert.mpr hmem))
    exact (h.entries key hkey).imp id (fun heq => (Pods.lookup_insertPod_ne _ hne _).trans heq)
  | remove key =>
    refine ⟨h.cursor_le, h.legal, fun k hk => ?_⟩
    by_cases hkey : k = key
    · subst hkey
      exact ha.imp id (fun hsaid => (Pods.lookup_removePod _ k).trans hsaid.symm)
    · have hkeep : k ∉ f.reserved := fun hres => hk (Finset.mem_erase.mpr ⟨hkey, hres⟩)
      exact (h.entries k hkeep).imp id (fun heq => (Pods.lookup_removePod_ne _ hkey).trans heq)
  | relist revision =>
    unfold Feed.step
    dsimp only
    split_ifs with hle
    · exact h.relist hle.2
    · exact h

theorem Tracks.converged (h : Tracks f) (hdone : f.cursor = f.log.length) (hfree : f.reserved = ∅) (key : Key) :
    f.tally.cache.lookup key = boundPod f.log key := by
  have hall := h.legal f.log.length key
  rw [take_length] at hall
  rcases h.entries key (by simp [hfree]) with ⟨e, he, -⟩ | heq
  · rw [hdone, drop_length] at he
    cases he
  · rw [heq, said, hdone, take_length, hall]

end Feed

inductive TallyCall where
  | applyEvent (e : PodEvent)
  | assume (pod : PendingPod) (node : String)
  | remove (key : Key)
  | replacePods (fresh : NodeTally)

def NodeTally.call (t : NodeTally) : TallyCall → NodeTally
  | .applyEvent e => (t.applyEvent e).1
  | .assume pod node => t.assume pod node
  | .remove key => t.remove key
  | .replacePods fresh => (t.replacePods fresh).1

/-- The index is the inverse of the pods. The tally ends with the pods that are bound, if what is done to it besides
the watch agrees with what the watch has said or comes before it. -/
theorem tally_converges (calls : List TallyCall) (actions : List FeedAction) :
    ((∀ node key,
        (∃ keys, (run NodeTally.call .empty calls).cache.byNode.lookup node = some keys ∧ key ∈ keys) ↔
          ∃ pod, (run NodeTally.call .empty calls).cache.lookup key = some pod ∧ pod.nodeName = node) ∧
      ∀ node, (run NodeTally.call .empty calls).podsOn node =
        ((run NodeTally.call .empty calls).onNode node).filter (fun p =>
          p.1 ∉ (run NodeTally.call .empty calls).reservedVictims)) ∧
    (Along Feed.step Feed.Faithful .initial actions →
      (run Feed.step .initial actions).cursor = (run Feed.step .initial actions).log.length →
      (run Feed.step .initial actions).reserved = ∅ →
      ∀ key, (run Feed.step .initial actions).tally.cache.lookup key =
        boundPod (run Feed.step .initial actions).log key) := by
  refine ⟨⟨fun node key => ?_, fun node => podsOn_eq _ node⟩, fun hsteps hdone hfree => ?_⟩
  · have hidx := (run NodeTally.call .empty calls).cache.indexed node key
    cases hkeys : (run NodeTally.call .empty calls).cache.byNode.lookup node with
    | none | some keys => simpa [hkeys, Pods.lookup] using hidx
  · have htracks : (run Feed.step .initial actions).Tracks :=
      hsteps.invariant Feed.Tracks (fun f a h ha => h.step ha) Feed.tracks_initial
    exact htracks.converged hdone hfree

def webEvent (type : EventType) (nodeName : Option String) : PodEvent :=
  ⟨type, ⟨"default", "web"⟩, nodeName, false, [], 0, {}, [], []⟩

def lateRedrive : List FeedAction :=
  [.write (webEvent .added (some "n1")), .write (webEvent .deleted (some "n1")), .deliver, .deliver,
    .synthetic 1 ⟨"default", "web"⟩]

theorem late_redrive_leaves_ghost :
    (run Feed.step .initial lateRedrive).cursor = (run Feed.step .initial lateRedrive).log.length ∧
    (run Feed.step .initial lateRedrive).reserved = ∅ ∧
    ((run Feed.step .initial lateRedrive).tally.cache.lookup ⟨"default", "web"⟩).isSome = true ∧
    (boundPod (run Feed.step .initial lateRedrive).log ⟨"default", "web"⟩).isSome = false := by
  decide +kernel

def earlyRedrive : List FeedAction :=
  [.write (webEvent .added none), .deliver, .assume ⟨⟨"default", "web"⟩, 0, [], {}, [], [], []⟩ "n1",
    .write (webEvent .modified (some "n1")), .synthetic 2 ⟨"default", "web"⟩, .deliver]

theorem tally_converges_early_redrive :
    (run Feed.step .initial earlyRedrive).tally.cache.lookup ⟨"default", "web"⟩ =
        boundPod (run Feed.step .initial earlyRedrive).log ⟨"default", "web"⟩ ∧
      ((run Feed.step .initial earlyRedrive).tally.cache.lookup ⟨"default", "web"⟩).isSome = true := by
  refine ⟨(tally_converges [] earlyRedrive).2 ?_ (by decide +kernel) (by decide +kernel) _, by decide +kernel⟩
  refine ⟨trivial, trivial, trivial, trivial, fun e _ _ => .inl ?_, trivial, trivial⟩
  decide +kernel

end U7s.Scheduler
