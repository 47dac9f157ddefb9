import U7s.Store.Interleaving

/-! Shards hold events at most one ahead of the writer, and deletions that the writer has passed. -/

namespace U7s.Store

open Runs Replay List Option Function
open Text (startsWith)

variable {β : Type} (codec : JsonCodec β) {s : Sys β}

/-- The events that the writer has recorded in a shard or will not record there any more. -/
def Sys.passed (s : Sys β) (id : ℕ) : ℕ :=
  match s.targets with
  | none => s.recorded
  | some ids => if id ∈ ids then s.recorded else s.recorded + 1

theorem Sys.passed_of_none (h : s.targets = none) (id : ℕ) : s.passed id = s.recorded := by
  simp only [passed, h]

theorem Sys.passed_of_mem {id : ℕ} (h : s.targets = some ids) (hid : id ∈ ids) :
    s.passed id = s.recorded := by
  simp only [passed, h, if_pos hid]

theorem Sys.passed_of_notMem {id : ℕ} (h : s.targets = some ids) (hid : id ∉ ids) :
    s.passed id = s.recorded + 1 := by
  simp only [passed, h, if_neg hid]

theorem Sys.passed_bounds (s : Sys β) (id : ℕ) : s.recorded ≤ s.passed id ∧ s.passed id ≤ s.recorded + 1 := by
  unfold passed
  split
  · omega
  · split_ifs <;> omega

inductive ShardStep (s : Sys β) (a : Act β) (id : ℕ) : RingShard β → Prop
  | keeps {shard : RingShard β} (hb : shard.toBuffer = (s.cache.heap id).toBuffer)
      (hd : shard.deletionLog = (s.cache.heap id).deletionLog) : ShardStep s a id shard
  | fresh (hid : id = s.cache.next) (horizon : ℕ) : ShardStep s a id (.new horizon)
  | write {x : Write β} {ids : List ℕ} (ha : a = .write) (hx : s.log[s.recorded]? = some x)
      (ht : s.targets = some (id :: ids)) : ShardStep s a id ((s.cache.heap id).pushRing x.event)
  | fill {j : ℕ} {w : Watch β} {e : InternalEvent β} {es : List (InternalEvent β)}
      (ha : a = .stream j .advance) (hw : s.watches j = some w) (hp : w.phase = .backfill none (e :: es))
      (hid : w.shard = id) : ShardStep s a id ((s.cache.heap id).pushRing e)
  | bury {x : Write β} (hx : s.log[s.recorded]? = some x) (hl : s.logging = some id) :
      ShardStep s a id ((s.cache.heap id).maintainLog x.event)
  | unbury {j : ℕ} {w : Watch β} {e : InternalEvent β} {es : List (InternalEvent β)} (hw : s.watches j = some w)
      (hp : w.phase = .backfill (some e) es) : ShardStep s a id ((s.cache.heap id).maintainLog e)

namespace ShardStep

variable {a : Act β} {id : ℕ}

theorem refl (s : Sys β) (a : Act β) (id : ℕ) : ShardStep s a id (s.cache.heap id) := .keeps rfl rfl

theorem getOrCreate (k : String) : ShardStep s a id ((s.cache.getOrCreateShard k).1.heap id) := by
  unfold Cache.getOrCreateShard
  split
  · exact refl s a id
  · by_cases hid : id = s.cache.next
    · subst hid
      simp only [update_self]
      exact .fresh rfl _
    · simp only [update_of_ne hid]
      exact refl s a id

theorem modify {f : RingShard β → RingShard β} (h : id = id' → ShardStep s a id (f (s.cache.heap id))) :
    ShardStep s a id ((s.cache.modify id' f).heap id) := by
  by_cases hid : id = id'
  · subst hid
    simpa only [Cache.modify, update_self] using h rfl
  · simp only [Cache.modify, update_of_ne hid]
    exact refl s a id

end ShardStep

theorem Sys.step_shard (s : Sys β) (a : Act β) (id : ℕ) : ShardStep s a id ((s.step codec a).cache.heap id) := by
  cases a with
  | commit c =>
    obtain h | ⟨-, -, h⟩ := s.commit_cases codec c <;> simp only [step, h] <;> exact .refl s _ id
  | write =>
    obtain ⟨-, h⟩ | ⟨-, h⟩ | ⟨-, -, h⟩ | h | ⟨-, -, x, hx, ⟨-, ⟨-, h⟩ | ⟨-, h⟩ | ⟨id', ids, ht, h⟩⟩ | ⟨id', hl, h⟩⟩ :=
      s.write_cases <;> simp only [step, h]
    · exact .refl s _ id
    · exact .refl s _ id
    · exact .refl s _ id
    · exact .refl s _ id
    · simp only [Cache.targets]
      split_ifs
      · exact .getOrCreate _
      · exact .refl s _ id
    · exact .refl s _ id
    · refine .modify fun hid => ?_
      subst hid
      exact .write rfl hx ht
    · refine .modify fun hid => ?_
      subst hid
      exact .bury hx hl
  | openWatch p start => exact .refl s _ id
  | stream j a =>
    cases hw : s.watches j with
    | none =>
      simp only [step, hw]
      exact .refl s _ id
    | some w =>
      simp only [step, hw]
      obtain hc | ⟨-, hc⟩ | ⟨-, -, hc⟩ | ⟨rfl, e, es, hp, hc⟩ | ⟨-, e, es, hp, hc⟩ | ⟨-, -, hc⟩ := w.step_cache s a <;>
        rw [hc]
      · exact .refl s _ id
      · exact .modify fun _ => .keeps rfl rfl
      · exact .getOrCreate _
      · exact .modify fun hid => .fill rfl hw hp hid.symm
      · exact .modify fun _ => .unbury hw hp
      · exact .modify fun _ => .keeps rfl rfl
  | gc k id' =>
    simp only [step, Cache.heap_idleGc]
    exact .refl s _ id
  | evict p =>
    simp only [step, Cache.heap_evict]
    exact .refl s _ id

namespace Cache

variable {c : Cache β} {k k' : String} {id : ℕ}

theorem lookup_of_getOrCreate (h : (c.getOrCreateShard k').1.shards.lookup k = some id) :
    c.shards.lookup k = some id ∨ (id = c.next ∧ k = k') := by
  unfold getOrCreateShard at h
  split at h
  · exact .inl h
  · by_cases hk : k = k'
    · subst hk
      rw [AList.lookup_insert, some_inj] at h
      exact .inr ⟨h.symm, rfl⟩
    · rw [AList.lookup_insert_ne hk] at h
      exact .inl h

theorem lookup_of_tearDown (h : (c.tearDownShard k').shards.lookup k = some id) : c.shards.lookup k = some id := by
  unfold tearDownShard at h
  split at h
  · exact h
  · exact lookup_of_erase h

theorem lookup_of_evict (h : (c.evictResourceType p).shards.lookup k = some id) : c.shards.lookup k = some id :=
  run_invariant (fun d : Cache β => d.shards.lookup k = some id → c.shards.lookup k = some id)
    (fun _ _ hd ht => hd (lookup_of_tearDown ht)) (c.rooted p) (fun h => h) h

end Cache

theorem Sys.lookup_step {id : ℕ} (h : (s.step codec a).cache.shards.lookup k = some id) :
    s.cache.shards.lookup k = some id ∨
      (id = s.cache.next ∧ ((∃ j w, s.watches j = some w ∧ k = w.p) ∨ ∃ x ∈ s.log, k = x.root)) := by
  cases a with
  | commit c =>
    obtain ht | ⟨-, -, ht⟩ := s.commit_cases codec c <;> simp only [step, ht] at h <;> exact .inl h
  | write =>
    obtain ⟨-, ht⟩ | ⟨-, ht⟩ | ⟨-, -, ht⟩ | ht | ⟨-, -, x, hx, ⟨-, ⟨-, ht⟩ | ⟨-, ht⟩ | ⟨id', ids, -, ht⟩⟩ | ⟨id', -, ht⟩⟩ :=
      s.write_cases <;> simp only [step, ht] at h
    · exact .inl h
    · exact .inl h
    · exact .inl h
    · exact .inl h
    · simp only [Cache.targets] at h
      split_ifs at h
      · exact (Cache.lookup_of_getOrCreate h).imp_right fun h =>
          ⟨h.1, .inr ⟨x, mem_of_getElem? hx, h.2⟩⟩
      · exact .inl h
    · exact .inl h
    · exact .inl h
    · exact .inl h
  | openWatch p start => exact .inl h
  | stream j x =>
    cases hw : s.watches j with
    | none =>
      simp only [step, hw] at h
      exact .inl h
    | some w =>
      simp only [step, hw] at h
      obtain hc | ⟨-, hc⟩ | ⟨-, -, hc⟩ | ⟨-, e, es, -, hc⟩ | ⟨-, e, es, -, hc⟩ | ⟨-, -, hc⟩ := w.step_cache s x <;>
        rw [hc] at h
      · exact .inl h
      · exact .inl h
      · exact (Cache.lookup_of_getOrCreate h).imp_right fun h => ⟨h.1, .inl ⟨j, w, hw, h.2⟩⟩
      · exact .inl h
      · exact .inl h
      · exact .inl h
  | gc k' id' =>
    left
    simp only [step, Cache.idleGc] at h
    split_ifs at h
    · exact Cache.lookup_of_tearDown h
    · exact h
  | evict p => exact .inl (Cache.lookup_of_evict h)

theorem Sys.passed_step (s : Sys β) (a : Act β) (id : ℕ) :
    (s.step codec a).passed id = s.passed id ∨
    (a = .write ∧ s.passed id = s.recorded ∧ (s.step codec a).passed id = s.recorded + 1 ∧
      ∃ x, s.log[s.recorded]? = some x ∧
        (id ∉ (s.cache.targets x).2 ∨
          (s.step codec a).cache.heap id = (s.cache.heap id).pushRing x.event)) := by
  cases a with
  | commit c =>
    left
    obtain h | ⟨-, -, h⟩ := s.commit_cases codec c
    · simp only [step, h]
    · simp only [step, h]
      rfl
  | write =>
    obtain ⟨-, h⟩ | ⟨-, h⟩ | ⟨-, -, h⟩ | h | ⟨-, -, x, hx, ⟨-, ⟨ht, h⟩ | ⟨ht, h⟩ | ⟨id', ids, ht, h⟩⟩ | ⟨id', -, h⟩⟩ :=
      s.write_cases <;> simp only [step, h]
    · exact .inl rfl
    · exact .inl rfl
    · exact .inl rfl
    · exact .inl trivial
    · rw [passed_of_none ht]
      by_cases hid : id ∈ (s.cache.targets x).2
      · exact .inl (passed_of_mem rfl hid)
      · exact .inr ⟨trivial, rfl, passed_of_notMem rfl hid, x, hx, .inl hid⟩
    · left
      rw [passed_of_notMem ht not_mem_nil]
      exact passed_of_none rfl id
    · by_cases hid : id ∈ ids
      · left
        rw [passed_of_mem ht (mem_cons_of_mem _ hid)]
        exact passed_of_mem rfl hid
      · by_cases hne : id = id'
        · subst hne
          refine .inr ⟨trivial, passed_of_mem ht mem_cons_self, passed_of_notMem rfl hid, x, hx, .inr ?_⟩
          simp only [Cache.pushRing, Cache.modify, update_self]
        · left
          rw [passed_of_notMem ht (by simp [hne, hid])]
          exact passed_of_notMem rfl hid
    · exact .inl rfl
  | openWatch p start => exact .inl rfl
  | stream j a =>
    left
    cases hw : s.watches j with
    | none => simp only [step, hw]
    | some w =>
      simp only [step, hw]
      rfl
  | gc k id' | evict p => exact .inl rfl

theorem Sys.passed_mono (s : Sys β) (a : Act β) (id : ℕ) : s.passed id ≤ (s.step codec a).passed id := by
  obtain h | ⟨-, h, h', -⟩ := s.passed_step codec a id <;> omega

theorem perform_writes (db : Db β) (c : Call β) :
    (perform codec db c).writes.length ≤ 1 ∨ ∀ x ∈ (perform codec db c).writes, x.event.value = none := by
  cases c with
  | put key value expected faults =>
    left
    simp only [perform, put]
    split
    · unfold putEvent
      split <;> simp
    · simp
  | createIfNamespaceActive nsKey key value faults =>
    left
    simp only [perform, createIfNamespaceActive]
    split <;> simp
  | delete key expected faults =>
    left
    simp only [perform, delete]
    split <;> simp
  | deleteNamespaceResources ns faults =>
    right
    simp only [perform, deleteNamespaceResources]
    split
    · intro x hx
      obtain ⟨d, -, rfl⟩ := mem_map.mp hx
      rfl
    · simp

structure DeletionLog.Holds (P : String → ℕ → Prop) (log : DeletionLog β) : Prop where
  byKey : ∀ key t, log.byKey.lookup key = some t → P key t.revision
  byRevision : ∀ q ∈ log.byRevision, P q.2 q.1

namespace DeletionLog.Holds

variable {P : String → ℕ → Prop} {log : DeletionLog β}

theorem empty : (DeletionLog.empty : DeletionLog β).Holds P := by
  constructor <;> simp [DeletionLog.empty]

section

variable (h : log.Holds P)
include h

theorem mono (hPQ : ∀ key r, P key r → Q key r) : log.Holds Q :=
  ⟨fun key t ht => hPQ _ _ (h.byKey key t ht), fun q hq => hPQ _ _ (h.byRevision q hq)⟩

theorem insertDeletion (he : P e.key e.revision) : (log.insertDeletion e).Holds P := by
  constructor
  · intro key t ht
    simp only [DeletionLog.insertDeletion] at ht
    by_cases hk : key = e.key
    · subst hk
      rw [AList.lookup_insert, some_inj] at ht
      exact ht ▸ he
    · rw [AList.lookup_insert_ne hk] at ht
      exact h.byKey key t ht
  · intro q hq
    simp only [DeletionLog.insertDeletion, mem_orderedInsert, mem_filter] at hq
    obtain rfl | ⟨hq, -⟩ := hq
    · exact he
    · exact h.byRevision q hq

theorem downgrade : log.downgrade.Holds P := by
  unfold DeletionLog.downgrade
  split
  · exact h
  case _ r rest hfull =>
    split_ifs
    · split
      · exact ⟨h.byKey, h.byRevision⟩
      case _ key hr =>
        refine ⟨fun key' t ht => ?_, h.byRevision⟩
        by_cases hk : key' = key
        · subst hk
          rw [AList.lookup_insert, some_inj] at ht
          obtain ⟨before, after, hsplit, -⟩ := lookup_eq_some_iff.mp hr
          have hP := h.byRevision (r, key') (by simp [hsplit])
          exact ht ▸ hP
        · rw [AList.lookup_insert_ne hk] at ht
          exact h.byKey key' t ht
    · exact h

theorem erase (key : String) {byRevision : List (ℕ × String)}
    (hr : byRevision ⊆ log.byRevision) : (⟨log.byKey.erase key, byRevision, full⟩ : DeletionLog β).Holds P := by
  refine ⟨fun key' t ht => h.byKey key' t ?_, fun q hq => h.byRevision q (hr hq)⟩
  by_cases hk : key' = key
  · subst hk
    simp [AList.lookup_erase] at ht
  · rwa [AList.lookup_erase_ne hk] at ht

theorem evictOldest : log.evictOldest.Holds P := by
  unfold DeletionLog.evictOldest
  split
  · exact h
  case _ r key rest hr =>
    split_ifs
    · exact h.erase key (hr ▸ subset_cons_self _ _)
    · exact h

theorem removeTombstone (key : String) : (log.removeTombstone key).Holds P := by
  unfold DeletionLog.removeTombstone
  split
  · exact h
  · exact h.erase key (filter_subset_self _)

theorem record (he : e.value = none → P e.key e.revision) : (log.record e).Holds P := by
  unfold DeletionLog.record
  split
  case h_1 hv => exact ((h.insertDeletion (he hv)).downgrade).evictOldest
  case h_2 => exact h.removeTombstone _

end

end DeletionLog.Holds

theorem Sys.watches_step (hs : s.Ordered) (hw' : (s.step codec a).watches i = some w') :
    (∃ p start, a = .openWatch p start ∧ w' = .opened p start s.sent) ∨
    ∃ w, s.watches i = some w ∧ ((∃ x, a = .stream i x ∧ w' = (w.step s x).2) ∨ w' = w) := by
  obtain h | hne := watch_of_step codec hw'
  · exact .inl h
  · obtain ⟨w, hw⟩ := ne_none_iff_exists'.mp hne
    refine .inr ⟨w, hw, ?_⟩
    obtain ⟨x, rfl, ht⟩ | ⟨-, ht⟩ := s.step_watch codec hs hw a
    · rw [ht] at hw'
      simp only [update_self, some.injEq] at hw'
      exact .inl ⟨x, rfl, hw'.symm⟩
    · exact .inr (some_inj.mp (hw'.symm.trans ht))

theorem Watch.Moves.of_live {w : Watch β} (h : w.Moves s x w') (hp : w.phase = .live) :
    w'.phase = .live ∨ w'.phase = .lagged ∨ w'.phase = .closed := by
  cases h with
  | opens hopen => simp [hp, Phase.opening] at hopen
  | snapshot h | accept h | live h | rescan h | recover h | next h => simp [hp] at h
  | expire | giveUp | cancel | timeout => exact .inr (.inr rfl)
  | lag => exact .inr (.inl rfl)
  | drop | deliver | debounce | heartbeat => exact .inl hp
  | quiet _ h => exact .inl (h.trans hp)

theorem Watch.step_filling (hs : s.Ordered) {w : Watch β}
    (h : (w.step s x).2.phase = .list ∨ (w.step s x).2.phase = .backfill logging es) :
    (w.step s x).2.p = w.p ∧
    ((x = .advance ∧ w.phase = .create ∧ (w.step s x).2.phase = .list ∧
        (w.step s x).2.shard = (s.cache.getOrCreateShard w.p).2 ∧
        (w.step s x).1 = (s.cache.getOrCreateShard w.p).1) ∨
      ((w.step s x).2.shard = w.shard ∧
        ((x = .advance ∧ w.phase = .list ∧ (w.step s x).2.phase = .backfill none (s.db.listed w.p)) ∨
          (x = .advance ∧ ∃ e, w.phase = .backfill none (e :: es) ∧ (w.step s x).2.phase = .backfill (some e) es) ∨
          (x = .advance ∧ ∃ e, w.phase = .backfill (some e) es ∧ (w.step s x).2.phase = .backfill none es) ∨
          ((w.step s x).2.phase = w.phase ∧ (w.step s x).1 = s.cache)))) := by
  have hlive := (w.step_moves hs x).of_live
  cases x with
  | advance =>
    simp only [step] at h ⊢
    cases hp : w.phase with
    | create => simp only [advance, hp, true_and, true_or]
    | list => simp [advance, hp]
    | backfill kept items =>
      cases kept with
      | some e =>
        simp only [advance, hp, Phase.backfill.injEq, reduceCtorEq, false_or] at h ⊢
        obtain ⟨-, rfl⟩ := h
        simp
      | none =>
        cases items with
        | nil => simp [advance, hp] at h
        | cons e rest =>
          simp only [advance, hp, Phase.backfill.injEq, reduceCtorEq, false_or] at h ⊢
          obtain ⟨-, rfl⟩ := h
          simp
    | resolve =>
      simp only [advance, hp] at h
      split at h <;> simp at h
    | check items =>
      simp only [advance, hp] at h
      split_ifs at h <;> simp [close] at h
    | replay items =>
      cases items <;> simp [advance, hp] at h
    | catchup sc items =>
      cases items with
      | nil =>
        simp only [advance, hp] at h
        split_ifs at h <;> simp [close] at h
      | cons e rest => simp [advance, hp] at h
    | subscribe | attach | loadHorizon | snapshot | live | lagged | closed =>
      simp [advance, hp] at h
  | cancel => simp [step, close] at h
  | _ =>
    cases hp : w.phase with
    | live =>
      obtain h | h := h <;> simp [h] at hlive <;> exact absurd hp hlive
    | _ =>
      simp only [step, hp]
      simp

def Phase.resolved : Phase β → Bool
  | .list | .backfill _ _ | .attach | .loadHorizon | .snapshot => true
  | _ => false

theorem Watch.step_resolved {w : Watch β} (hs : s.Ordered) (h : (w.step s x).2.phase.resolved) :
    (w.phase.resolved ∧ (w.step s x).2.shardKey = w.shardKey) ∨ (w.step s x).2.shardKey = w.p ∨
      parentPrefix w.p = some (w.step s x).2.shardKey := by
  have hlive := (w.step_moves hs x).of_live
  cases x with
  | advance =>
    simp only [step] at h ⊢
    cases hp : w.phase with
    | create => exact .inr (.inl (by simp only [advance, hp]))
    | resolve =>
      right
      simp only [advance, hp] at h ⊢
      split at h
      case h_1 k id hfound =>
        simp only [Cache.findShardKey] at hfound
        split at hfound
        · simp only [some.injEq, Prod.mk.injEq] at hfound
          exact .inl hfound.1.symm
        · simp only [bind_eq_some_iff, map_eq_some_iff] at hfound
          obtain ⟨q, hq, id', -, rfl, -⟩ := hfound
          exact .inr hq
      case h_2 => simp [Phase.resolved] at h
    | list | attach | loadHorizon => exact .inl ⟨rfl, by simp only [advance, hp]⟩
    | backfill logging items => cases logging <;> cases items <;> exact .inl ⟨rfl, by simp only [advance, hp]⟩
    | check items =>
      simp only [advance, hp] at h
      split_ifs at h <;> simp [close, Phase.resolved] at h
    | replay items => cases items <;> simp [advance, hp, Phase.resolved] at h
    | catchup sc items =>
      cases items with
      | nil =>
        simp only [advance, hp] at h
        split_ifs at h <;> simp [close, Phase.resolved] at h
      | cons e rest => simp [advance, hp, Phase.resolved] at h
    | subscribe | snapshot | live | lagged | closed => simp [advance, hp, Phase.resolved] at h
  | cancel => simp [step, close, Phase.resolved] at h
  | _ =>
    cases hp : w.phase with
    | live =>
      obtain hl | hl | hl := hlive hp <;> simp [hl, Phase.resolved] at h
    | _ =>
      simp only [step, hp] at h ⊢
      exact .inl ⟨h, trivial⟩

def Sys.Sourced (s : Sys β) (d : InternalEvent β) : Prop :=
  (∃ e ∈ s.events, d.Same e) ∧ d.revision ≤ s.recorded + 1

theorem Sys.Sourced.mono (h : s.Sourced d) (hg : s.Grows t) : t.Sourced d := by
  obtain ⟨⟨e, he, hsame⟩, hr⟩ := h
  exact ⟨⟨e, hg.events.subset he, hsame⟩, hr.trans (Nat.succ_le_succ hg.recorded)⟩

structure Sys.Traced (s : Sys β) : Prop where
  batch : (s.events.drop s.recorded).length ≤ 1 ∨ ∀ e ∈ s.events.drop s.recorded, e.value = none
  busy : ∀ ids, s.targets = some ids → s.recorded < s.log.length ∧ ids.Nodup
  logging : ∀ id, s.logging = some id → s.passed id = s.recorded + 1
  ring : ∀ id, ∀ d ∈ (s.cache.heap id).ring, s.Sourced d
  items : ∀ i w logging es, s.watches i = some w → w.phase = .backfill logging es →
    ∀ d ∈ logging.toList ++ es, s.Sourced d ∧ d.value ≠ none
  tombstones : ∀ id, (s.cache.heap id).deletionLog.Holds
    (fun key r => ∃ x ∈ s.events.take (s.passed id), x.key = key ∧ x.revision = r)

theorem Cache.nodup_targets (c : Cache β) (x : Write β) : (c.targets x).2.Nodup := by
  simp only [targets]
  split_ifs
  · exact nodup_singleton _
  · have hkeys := c.nodup_matchingShards x.root x.ns
    rw [nodup_map_iff_inj_on hkeys.of_map]
    intro m hm m' hm' he
    have hl := (mem_matchingShards.mp hm).1
    have hl' := (mem_matchingShards.mp hm').1
    exact Prod.ext (c.owned hl (he ▸ hl')) he

namespace Sys.Traced

theorem new : (Sys.new : Sys β).Traced where
  batch := .inl (by simp [Sys.new, events])
  busy := by simp [Sys.new]
  logging := by simp [Sys.new]
  ring := by simp [Sys.new, Cache.empty, RingShard.new]
  items := by simp [Sys.new]
  tombstones _ := .empty

section

variable (h : s.Traced)
include h

theorem passed_le (hs : s.Ordered) (id : ℕ) : s.passed id ≤ s.log.length := by
  cases ht : s.targets with
  | none =>
    rw [passed_of_none ht]
    exact hs.recorded
  | some ids => exact (s.passed_bounds id).2.trans (h.busy ids ht).1

theorem listed (hs : s.Ordered) (hd : d ∈ s.db.listed p) : s.Sourced d ∧ d.value ≠ none := by
  obtain ⟨k, row, hrow, -, rfl⟩ := mem_listed.mp hd
  obtain ⟨e, he, hv, hr⟩ := hs.logged.of_row hrow
  obtain ⟨hm, hk⟩ := lastFor_mem he
  refine ⟨⟨⟨e, hm, hk.symm, hr.symm, hv.symm⟩, ?_⟩, by simp [addedEvent]⟩
  change row.revision ≤ _
  by_contra hgt
  obtain ⟨n, hn⟩ := mem_iff_getElem?.mp hm
  have hrev := hs.logged.revision_of_getElem hn
  have hdrop : (s.events.drop s.recorded)[n - s.recorded]? = some e := by
    rw [getElem?_drop, ← hn]
    congr 1
    omega
  obtain hb | hb := h.batch
  · have hlt := (List.getElem?_eq_some_iff.mp hdrop).1
    omega
  · have := hb e (mem_of_getElem? hdrop)
    simp [this] at hv

theorem batch_step (hs : s.Ordered) (a : Act β) :
    ((s.step codec a).events.drop (s.step codec a).recorded).length ≤ 1 ∨
      ∀ e ∈ (s.step codec a).events.drop (s.step codec a).recorded, e.value = none := by
  cases a with
  | commit c =>
    obtain ht | ⟨hm, -, ht⟩ := s.commit_cases codec c
    · simpa only [step, ht] using h.batch
    · have hrec : s.recorded = s.events.length := by
        have := hs.marked.trans hs.sent
        have := hs.recorded
        simp only [events, length_map]
        omega
      simp only [step, ht, events, map_append]
      rw [hrec, events, drop_left]
      obtain hw | hw := perform_writes codec s.db c
      · exact .inl (by simpa using hw)
      · refine .inr fun e he => ?_
        obtain ⟨x, hx, rfl⟩ := mem_map.mp he
        exact hw x hx
  | write =>
    have hnext : (s.events.drop (s.recorded + 1)).length ≤ 1 ∨
        ∀ e ∈ s.events.drop (s.recorded + 1), e.value = none := by
      rw [← drop_drop]
      refine h.batch.imp (fun hl => ?_) (fun hd e he => hd e (mem_of_mem_drop he))
      rw [length_drop]
      omega
    obtain ⟨-, ht⟩ | ⟨-, ht⟩ | ⟨-, -, ht⟩ | ht | ⟨-, -, x, hx, ⟨-, ⟨-, ht⟩ | ⟨-, ht⟩ | ⟨id', ids, -, ht⟩⟩ | ⟨id', -, ht⟩⟩ :=
      s.write_cases <;> simp only [step, ht]
    · exact h.batch
    · exact h.batch
    · exact h.batch
    · exact h.batch
    · exact h.batch
    · exact hnext
    · exact h.batch
    · exact h.batch
  | stream j x =>
    cases hw : s.watches j <;> simp only [step, hw] <;> exact h.batch
  | openWatch p start | gc k id | evict p => exact h.batch

theorem busy_step (a : Act β) (ids : List ℕ) (ht : (s.step codec a).targets = some ids) :
    (s.step codec a).recorded < (s.step codec a).log.length ∧ ids.Nodup := by
  cases a with
  | commit c =>
    obtain hc | ⟨-, -, hc⟩ := s.commit_cases codec c
    · simp only [step, hc] at ht ⊢
      exact h.busy ids ht
    · simp only [step, hc] at ht ⊢
      obtain ⟨hlt, hn⟩ := h.busy ids ht
      refine ⟨?_, hn⟩
      rw [length_append]
      omega
  | write =>
    obtain ⟨-, hc⟩ | ⟨-, hc⟩ | ⟨-, -, hc⟩ | hc | ⟨-, -, x, hx, ⟨-, ⟨-, hc⟩ | ⟨-, hc⟩ | ⟨id, rest, ht', hc⟩⟩ | ⟨id, -, hc⟩⟩ :=
      s.write_cases <;> simp only [step, hc] at ht ⊢
    · exact h.busy ids ht
    · exact h.busy ids ht
    · exact h.busy ids ht
    · exact h.busy ids ht
    · obtain rfl := some_inj.mp ht
      exact ⟨(List.getElem?_eq_some_iff.mp hx).1, s.cache.nodup_targets x⟩
    · exact absurd ht (by simp)
    · obtain rfl := some_inj.mp ht
      obtain ⟨hlt, hn⟩ := h.busy _ ht'
      exact ⟨hlt, (nodup_cons.mp hn).2⟩
    · exact h.busy ids ht
  | stream j x =>
    cases hw : s.watches j <;> simp only [step, hw] at ht ⊢ <;> exact h.busy ids ht
  | openWatch p start | gc k id | evict p => exact h.busy ids ht

theorem logging_step (a : Act β) (id : ℕ) (hl : (s.step codec a).logging = some id) :
    (s.step codec a).passed id = (s.step codec a).recorded + 1 := by
  cases a with
  | commit c =>
    obtain hc | ⟨-, -, hc⟩ := s.commit_cases codec c <;> simp only [step, hc] at hl ⊢ <;> exact h.logging id hl
  | write =>
    obtain ⟨-, hc⟩ | ⟨-, hc⟩ | ⟨-, -, hc⟩ | hc | ⟨-, -, x, hx, ⟨hno, ⟨-, hc⟩ | ⟨-, hc⟩ | ⟨id', ids, ht, hc⟩⟩ | ⟨id', -, hc⟩⟩ :=
      s.write_cases <;> simp only [step, hc] at hl ⊢
    · exact h.logging id hl
    · exact h.logging id hl
    · exact h.logging id hl
    · exact h.logging id hl
    · cases hno.symm.trans hl
    · cases hno.symm.trans hl
    · obtain rfl := some_inj.mp hl
      exact passed_of_notMem rfl (nodup_cons.mp (h.busy _ ht).2).1
    · cases hl
  | stream j x =>
    cases hw : s.watches j <;> simp only [step, hw] at hl ⊢ <;> exact h.logging id hl
  | openWatch | gc | evict => exact h.logging id hl

theorem ring_step (hs : s.Ordered) (a : Act β) (id : ℕ) (d : InternalEvent β)
    (hd : d ∈ ((s.step codec a).cache.heap id).ring) : s.Sourced d := by
  generalize hshard : (s.step codec a).cache.heap id = shard at hd
  have hstep := s.step_shard codec a id
  rw [hshard] at hstep
  cases hstep with
  | keeps hb =>
    rw [hb] at hd
    exact h.ring id d hd
  | fresh => simp [RingShard.new] at hd
  | bury | unbury => exact h.ring id d hd
  | @write x ids _ hx ht =>
    obtain hd | hd := mem_append.mp ((RingShard.pushRing_suffix _ _).subset hd)
    · exact h.ring id d hd
    · obtain rfl := mem_singleton.mp hd
      have he : s.events[s.recorded]? = some x.event := by simp [events, hx]
      exact ⟨⟨x.event, mem_of_getElem? he, .refl _⟩, (hs.logged.revision_of_getElem he).le⟩
  | @fill j w e es _ hw hp =>
    obtain hd | hd := mem_append.mp ((RingShard.pushRing_suffix _ _).subset hd)
    · exact h.ring id d hd
    · obtain rfl := mem_singleton.mp hd
      exact (h.items j w _ _ hw hp d mem_cons_self).1

theorem items_step (hs : s.Ordered) (a : Act β)
    (hw' : (s.step codec a).watches i = some w') (hp : w'.phase = .backfill kept es)
    (d : InternalEvent β) (hd : d ∈ kept.toList ++ es) : s.Sourced d ∧ d.value ≠ none := by
  obtain ⟨p, start, -, rfl⟩ | ⟨w, hw, ⟨x, rfl, rfl⟩ | rfl⟩ := s.watches_step codec hs hw'
  · simp [Watch.opened] at hp
  · obtain ⟨-, ⟨-, -, hl, -⟩ | ⟨-, ⟨-, -, hl⟩ | ⟨-, e, hp', hl⟩ | ⟨-, e, hp', hl⟩ | ⟨hp', -⟩⟩⟩ :=
      Watch.step_filling hs (.inr hp)
    · simp [hl] at hp
    · cases hl.symm.trans hp
      exact h.listed hs hd
    · cases hl.symm.trans hp
      exact h.items i w _ _ hw hp' d hd
    · cases hl.symm.trans hp
      exact h.items i w _ _ hw hp' d (mem_cons_of_mem e hd)
    · exact h.items i w _ es hw (hp'.symm.trans hp) d hd
  · exact h.items i w' _ es hw hp d hd

theorem tombstones_step (a : Act β) (id : ℕ) :
    ((s.step codec a).cache.heap id).deletionLog.Holds (fun key r =>
      ∃ x ∈ (s.step codec a).events.take ((s.step codec a).passed id), x.key = key ∧ x.revision = r) := by
  have hg := s.grows_step codec a
  have hold := (h.tombstones id).mono (Q := fun key r =>
      ∃ x ∈ (s.step codec a).events.take ((s.step codec a).passed id), x.key = key ∧ x.revision = r) (by
    rintro key r ⟨x, hx, hk⟩
    obtain ⟨more, hmore⟩ := hg.events
    refine ⟨x, (take_subset_take_left _ (s.passed_mono codec a id)) ?_, hk⟩
    rw [← hmore, take_append]
    exact mem_append_left _ hx)
  generalize hshard : (s.step codec a).cache.heap id = shard
  have hstep := s.step_shard codec a id
  rw [hshard] at hstep
  cases hstep with
  | keeps _ hd => exact hd ▸ hold
  | fresh => exact .empty
  | write | fill => exact hold
  | @bury x hx hl =>
    have hpassed : s.recorded < (s.step codec a).passed id := (h.logging id hl).ge.trans (s.passed_mono codec a id)
    have he : s.events[s.recorded]? = some x.event := by simp [events, hx]
    refine hold.record fun _ => ⟨x.event, ?_, rfl, rfl⟩
    obtain ⟨more, hmore⟩ := hg.events
    refine mem_of_getElem? (i := s.recorded) ?_
    rw [getElem?_take, if_pos hpassed, ← hmore, getElem?_append_left, he]
    exact (List.getElem?_eq_some_iff.mp he).1
  | @unbury j w e es hw hp =>
    exact hold.record fun hv => absurd hv (h.items j w _ _ hw hp e mem_cons_self).2

theorem step (hs : s.Ordered) (a : Act β) : (s.step codec a).Traced where
  batch := h.batch_step codec hs a
  busy := h.busy_step codec a
  logging := h.logging_step codec a
  ring id d hd := (h.ring_step codec hs a id d hd).mono (s.grows_step codec a)
  items _ _ _ _ hw hp d hd :=
    (h.items_step codec hs a hw hp d hd).imp_left (fun hd => hd.mono (s.grows_step codec a))
  tombstones := h.tombstones_step codec a

end

end Sys.Traced

end U7s.Store
