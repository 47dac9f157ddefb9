import U7s.Store.Delivery
import U7s.Store.Recording

/-! The backfill of a fresh shard next to writers and other watches, which find it half filled. -/

namespace U7s.Store

open Runs Replay List
open Text (startsWith)

variable {β : Type} (codec : JsonCodec β) {s t : Sys β} {w w' : Watch β}

def InternalEvent.NotAfter (a b : InternalEvent β) : Prop := a.key = b.key → a.revision ≤ b.revision

/-- Of every key under `k` that has changed in the first `n` events, `held` has an entry as new as its last change,
unless that is not after `floor` or the key's deletion is still to come. -/
def Known (floor : ℕ) (events : List (InternalEvent β)) (n : ℕ) (held : List (InternalEvent β)) (k : String) :
    Prop :=
  ∀ key e, startsWith key k → lastEvent key (events.take n) = some e →
    e.revision ≤ floor ∨ (∃ d ∈ held, d.key = key ∧ e.revision ≤ d.revision) ∨
      ∃ m d, n ≤ m ∧ events[m]? = some d ∧ d.key = key ∧ d.value = none

namespace Known

theorem mono (h : Known floor events n held k) (hf : floor ≤ floor')
    (hh : ∀ d ∈ held, startsWith d.key k' → d ∈ held' ∨ d.revision ≤ floor') (hk : startsWith k' k) :
    Known floor' events n held' k' := by
  intro key e hu he
  obtain hle | ⟨d, hd, hkey, hr⟩ | hlater := h key e (startsWith_trans hu hk) he
  · exact .inl (hle.trans hf)
  · obtain hd | hle := hh d hd (hkey ▸ hu)
    · exact .inr (.inl ⟨d, hd, hkey, hr⟩)
    · exact .inl (hr.trans hle)
  · exact .inr (.inr hlater)

theorem held_subset (h : Known floor events n held k) (hh : held ⊆ held') : Known floor events n held' k :=
  h.mono le_rfl (fun _ hd _ => .inl (hh hd)) (Text.startsWith_iff.mpr prefix_rfl)

theorem events_append (h : Known floor events n held k) (hn : n ≤ events.length) (he : events <+: events') :
    Known floor events' n held k := by
  obtain ⟨more, rfl⟩ := he
  intro key e hu hl
  rw [take_append_of_le_length hn] at hl
  obtain hle | hd | ⟨m, d, hm, hd, hkey⟩ := h key e hu hl
  · exact .inl hle
  · exact .inr (.inl hd)
  · refine .inr (.inr ⟨m, d, hm, ?_, hkey⟩)
    rw [getElem?_append_left (List.getElem?_eq_some_iff.mp hd).1, hd]

theorem pass (h : Known floor events n held k) (hx : events[n]? = some x)
    (hheld : startsWith x.key k → x.revision ≤ floor ∨ ∃ d ∈ held, d.key = x.key ∧ x.revision ≤ d.revision) :
    Known floor events (n + 1) held k := by
  intro key e hu hl
  rw [take_add_one, hx, Option.toList_some, lastEvent, lastFor_concat] at hl
  split_ifs at hl with hkey
  · obtain rfl := Option.some_inj.mp hl
    obtain hle | ⟨d, hd, hk, hr⟩ := hheld (hkey ▸ hu)
    · exact .inl hle
    · exact .inr (.inl ⟨d, hd, hk.trans hkey, hr⟩)
  · obtain hle | hd | ⟨m, d, hm, hd, hk, hv⟩ := h key e hu hl
    · exact .inl hle
    · exact .inr (.inl hd)
    · obtain hlt | rfl := hm.lt_or_eq
      · exact .inr (.inr ⟨m, d, hlt, hd, hk, hv⟩)
      · obtain rfl := Option.some_inj.mp (hx.symm.trans hd)
        exact absurd hk hkey

end Known

def Sys.Knows (s : Sys β) (oldest id : ℕ) (k : String) (extra : List (InternalEvent β)) : Prop :=
  Known (max oldest (s.cache.heap id).horizon) s.events (s.passed id) ((s.cache.heap id).ring ++ extra) k

def Roomy (oldest : ℕ) (shard : RingShard β) (e : InternalEvent β) : Prop :=
  ∀ d ∈ shard.ring, d ∈ (shard.pushRing e).ring ∨ d.revision ≤ max oldest (shard.pushRing e).horizon

def Sys.Unchanged (s : Sys β) (id : ℕ) (e : InternalEvent β) : Prop :=
  (∀ x ∈ s.events.take (s.passed id), x.key = e.key → x.revision ≤ e.revision) ∧
    ∀ d ∈ (s.cache.heap id).ring, d.key = e.key → d.revision ≤ e.revision

def Sys.ShowsDeletions (s : Sys β) (oldest : ℕ) (w : Watch β) : Prop :=
  ∀ key d, startsWith key w.p → lastEvent key s.events = some d → d.value = none →
    d.revision ≤ max oldest (s.cache.heap w.shard).horizon ∨
    (∃ r ∈ (s.cache.heap w.shard).ring, r.key = key ∧ d.revision ≤ r.revision) ∨
    s.passed w.shard < d.revision

/-- The shard has been filled and is still in the map, and it reaches back to the start of the watch unless the
watch is to start over. -/
def Sys.Whole (s : Sys β) (w : Watch β) : Prop :=
  w.shard ∈ s.filled ∧ s.cache.shards.lookup w.shardKey = some w.shard ∧
    ((s.cache.heap w.shard).horizon ≤ w.start ∨ (0 < w.start ∧ w.start < w.horizon))

def Careful (L : Layout) (oldest i : ℕ) (s : Sys β) : Act β → Prop
  | .commit c => ∀ x ∈ (perform codec s.db c).writes, L.Filed x.event.key x.ns
  | .write => ∀ x id ids, s.log[s.recorded]? = some x → s.targets = some (id :: ids) →
      Roomy oldest (s.cache.heap id) x.event
  | .openWatch p _ => L.IsPrefix p
  | .stream j .advance => ∀ w, s.watches j = some w →
      (∀ e es, w.phase = .backfill none (e :: es) →
        s.Unchanged w.shard e ∧ Roomy oldest (s.cache.heap w.shard) e) ∧
      (∀ e es, w.phase = .backfill (some e) es → s.Unchanged w.shard e) ∧
      (w.phase = .list → s.ShowsDeletions oldest w) ∧
      (j = i → w.phase = .snapshot → s.Whole w)
  | .stream j .recv => ∀ w, j = i → s.watches j = some w → s.sent - w.rxPos ≤ BROADCAST_CAPACITY
  | _ => True

theorem mem_pushRing (shard : RingShard β) (e : InternalEvent β) : e ∈ (shard.pushRing e).ring :=
  mem_of_getLast? (shard.toBuffer.getLast?_push ringCapacity_pos InternalEvent.revision e)

theorem Cache.mem_targets {c : Cache β} {id : ℕ}
    (hl : c.shards.lookup k = some id) (hk : x.Home k) : id ∈ (c.targets x).2 := by
  have hm : (k, id) ∈ c.matchingShards x.root x.ns := mem_matchingShards.mpr ⟨hl, hk⟩
  have hmatched : ¬ (c.Unmatched x ∧ x.event.value = none) := by
    rintro ⟨hu, -⟩
    simp [unmatched_iff.mp hu] at hm
  rw [targets_of_matched hmatched]
  exact mem_map.mpr ⟨_, hm, rfl⟩

theorem Careful.roomy (hC : Careful codec L oldest i s a) {id : ℕ}
    (h : ShardStep s a id shard) (hid : id < s.cache.next) :
    ∀ d ∈ (s.cache.heap id).ring, d ∈ shard.ring ∨ d.revision ≤ max oldest shard.horizon := by
  cases h with
  | keeps hb =>
    rw [hb]
    exact fun d hd => .inl hd
  | bury | unbury => exact fun d hd => .inl hd
  | fresh hn => omega
  | write ha hx ht =>
    subst ha
    exact hC _ _ _ hx ht
  | fill ha hw hp hid =>
    subst ha hid
    exact ((hC _ hw).1 _ _ hp).2

theorem Sys.Knows.step {id : ℕ} (h : s.Knows oldest id k extra) (hs : s.Ordered) (ht : s.Traced)
    (hfiled : ∀ x ∈ s.log, L.Filed x.event.key x.ns) (hk : L.IsPrefix k) (hl : s.cache.shards.lookup k = some id)
    (hC : Careful codec L oldest i s a) : (s.step codec a).Knows oldest id k extra := by
  have hg := s.grows_step codec a
  have hnext := s.cache.allocated hl
  have hpre := hg.events
  have hroomy := Careful.roomy codec hC (s.step_shard codec a id) hnext
  have hlen : s.passed id ≤ s.events.length := by simpa [events] using ht.passed_le hs id
  have hheld : Known (max oldest ((s.step codec a).cache.heap id).horizon) (s.step codec a).events (s.passed id)
      (((s.step codec a).cache.heap id).ring ++ extra) k := by
    refine (Known.events_append h hlen hpre).mono (max_le_max_left _ (hg.cache.horizon id hnext)) (fun d hd _ => ?_)
      (Text.startsWith_iff.mpr prefix_rfl)
    obtain hd | hd := mem_append.mp hd
    · exact (hroomy d hd).imp_left (mem_append_left _)
    · exact .inl (mem_append_right _ hd)
  obtain hp | ⟨-, hp, hp', x, hx, hrec⟩ := s.passed_step codec a id
  · rw [Knows, hp]
    exact hheld
  · have he : (s.step codec a).events[s.passed id]? = some x.event := by
      have he : s.events[s.passed id]? = some x.event := by simp [events, hp, hx]
      obtain ⟨more, hmore⟩ := hpre
      rw [← hmore, getElem?_append_left (List.getElem?_eq_some_iff.mp he).1, he]
    rw [Knows, hp', ← hp]
    refine hheld.pass he fun hu => .inr ?_
    obtain hno | hpush := hrec
    · -- the event would have been recorded
      have hfx := hfiled x (mem_of_getElem? hx)
      exact absurd (Cache.mem_targets hl ((hfx.home_iff hk).mp hu)) hno
    · refine ⟨x.event, mem_append_left _ ?_, rfl, le_rfl⟩
      rw [hpush]
      exact mem_pushRing _ _

theorem Sys.ShowsDeletions.knows (h : s.ShowsDeletions oldest w) (hs : s.Ordered) :
    s.Knows oldest w.shard w.p (s.db.listed w.p) := by
  intro key e hu he
  obtain ⟨hm, rfl⟩ := lastFor_mem he
  have hm := mem_of_mem_take hm
  obtain ⟨d, hd⟩ := exists_lastFor InternalEvent.key hm
  have hle : e.revision ≤ d.revision := lastFor_newest hs.logged.sorted hd e hm rfl
  cases hv : d.value with
  | some v =>
    obtain ⟨row, hrow, rfl, hr⟩ := hs.logged.row_of_put hd hv
    refine .inr (.inl ⟨addedEvent e.key row, mem_append_right _ ?_, rfl, hle.trans hr.ge⟩)
    exact mem_listed.mpr ⟨e.key, row, hrow, hu, rfl⟩
  | none =>
    obtain hf | ⟨r, hr, hk, hrd⟩ | hlater := h e.key d hu hd hv
    · exact .inl (hle.trans hf)
    · exact .inr (.inl ⟨r, mem_append_left _ hr, hk, hle.trans hrd⟩)
    · obtain ⟨hdm, hdk⟩ := lastFor_mem hd
      obtain ⟨m, hdm⟩ := mem_iff_getElem?.mp hdm
      have hrev := hs.logged.revision_of_getElem hdm
      exact .inr (.inr ⟨m, d, by omega, hdm, hdk, hv⟩)

theorem Sys.filled_step {id : ℕ} (h : id ∈ (s.step codec a).filled) :
    id ∈ s.filled ∨ ∃ j w, s.watches j = some w ∧ w.phase = .backfill none [] ∧ w.shard = id := by
  cases a with
  | commit c =>
    obtain ht | ⟨-, -, ht⟩ := s.commit_cases codec c <;> simp only [step, ht] at h <;> exact .inl h
  | write =>
    rw [step, s.write_frame.2.2] at h
    exact .inl h
  | stream j x =>
    cases hw : s.watches j with
    | none =>
      simp only [step, hw] at h
      exact .inl h
    | some w =>
      simp only [step, hw] at h
      obtain h | h := mem_append.mp h
      · right
        unfold fills at h
        split at h
        · split at h
          case h_1 hp => exact ⟨j, w, hw, hp, (mem_singleton.mp h).symm⟩
          case h_2 => simp at h
        · simp at h
      · exact .inl h
  | openWatch p start | gc k id | evict p => exact .inl h

/-- Filled shards know what the writer has passed, those being filled know it together with what is left of the
list, and no shard has an older event of a key behind a newer one. -/
structure Sys.Covering (L : Layout) (oldest : ℕ) (s : Sys β) : Prop where
  filed : ∀ x ∈ s.log, L.Filed x.event.key x.ns
  live : ∀ k id, s.cache.shards.lookup k = some id → L.IsPrefix k
  prefixes : ∀ i w, s.watches i = some w → L.IsPrefix w.p
  allocated : ∀ id ∈ s.filled, id < s.cache.next
  sorted : ∀ id, (s.cache.heap id).ring.Pairwise InternalEvent.NotAfter
  filled : ∀ id ∈ s.filled, ∀ k, s.cache.shards.lookup k = some id → s.Knows oldest id k []
  filling : ∀ i w logging es, s.watches i = some w → w.phase = .list ∨ w.phase = .backfill logging es →
    w.shard < s.cache.next ∧ ∀ k, s.cache.shards.lookup k = some w.shard → k = w.p
  items : ∀ i w logging es, s.watches i = some w → w.phase = .backfill logging es →
    ∀ k, s.cache.shards.lookup k = some w.shard → s.Knows oldest w.shard k es
  resolved : ∀ i w, s.watches i = some w → w.phase.resolved →
    w.shardKey = w.p ∨ parentPrefix w.p = some w.shardKey

namespace Sys.Covering

variable {L : Layout} {oldest i : ℕ} {a : Act β}

theorem new : (Sys.new : Sys β).Covering L oldest := by
  constructor <;> simp [Sys.new, Cache.empty, RingShard.new]

theorem filed_step (h : s.Covering L oldest) (hC : Careful codec L oldest i s a) :
    ∀ x ∈ (s.step codec a).log, L.Filed x.event.key x.ns := by
  intro x hx
  cases a with
  | commit c =>
    obtain ht | ⟨-, -, ht⟩ := s.commit_cases codec c <;> simp only [step, ht] at hx
    · exact h.filed x hx
    · obtain hx | hx := mem_append.mp hx
      · exact h.filed x hx
      · exact hC x hx
  | write =>
    rw [step, s.write_frame.1] at hx
    exact h.filed x hx
  | stream j y =>
    cases hw : s.watches j <;> simp only [step, hw] at hx <;> exact h.filed x hx
  | openWatch p start | gc k id | evict p => exact h.filed x hx

theorem live_step (h : s.Covering L oldest) (k : String) (id : ℕ)
    (hl : (s.step codec a).cache.shards.lookup k = some id) : L.IsPrefix k := by
  obtain hl | ⟨-, ⟨j, w, hw, rfl⟩ | ⟨x, hx, rfl⟩⟩ := s.lookup_step codec hl
  · exact h.live k id hl
  · exact h.prefixes j w hw
  · exact .root (h.filed x hx).shardKey_root

theorem prefixes_step (h : s.Covering L oldest) (hs : s.Ordered) (hC : Careful codec L oldest i s a) (j : ℕ)
    (w' : Watch β) (hw' : (s.step codec a).watches j = some w') : L.IsPrefix w'.p := by
  obtain ⟨p, start, rfl, rfl⟩ | ⟨w, hw, ⟨x, rfl, rfl⟩ | rfl⟩ := s.watches_step codec hs hw'
  · exact hC
  · rw [(w.step_moves hs x).start.2]
    exact h.prefixes j w hw
  · exact h.prefixes j w' hw

theorem lookup_of_lt {id : ℕ} (hid : id < s.cache.next)
    (hl : (s.step codec a).cache.shards.lookup k = some id) : s.cache.shards.lookup k = some id :=
  (s.lookup_step codec hl).resolve_right fun hn => hid.ne hn.1

section

variable (h : s.Covering L oldest)
include h

theorem sorted_step (hs : s.Ordered) (ht : s.Traced) (hC : Careful codec L oldest i s a)
    (id : ℕ) : ((s.step codec a).cache.heap id).ring.Pairwise InternalEvent.NotAfter := by
  have hpush {e : InternalEvent β} (he : ∀ d ∈ (s.cache.heap id).ring, d.key = e.key → d.revision ≤ e.revision) :
      ((s.cache.heap id).pushRing e).ring.Pairwise InternalEvent.NotAfter := by
    refine Pairwise.sublist (RingShard.pushRing_suffix _ _).sublist (pairwise_append.mpr ⟨h.sorted id, ?_, ?_⟩)
    · exact pairwise_singleton _ _
    · intro d hd e' he'
      exact mem_singleton.mp he' ▸ he d hd
  generalize hshard : (s.step codec a).cache.heap id = shard
  have hstep := s.step_shard codec a id
  rw [hshard] at hstep
  cases hstep with
  | keeps hb =>
    rw [hb]
    exact h.sorted id
  | bury | unbury => exact h.sorted id
  | fresh => exact Pairwise.nil
  | @write x ids _ hx =>
    have he : s.events[s.recorded]? = some x.event := by simp [events, hx]
    refine hpush fun d hd _ => ?_
    rw [hs.logged.revision_of_getElem he]
    exact (ht.ring id d hd).2
  | fill ha hw hp hid =>
    subst ha hid
    exact hpush ((hC _ hw).1 _ _ hp).1.2

theorem knows_step (hs : s.Ordered) (ht : s.Traced) (hC : Careful codec L oldest i s a)
    {id : ℕ} (hl : s.cache.shards.lookup k = some id)
    (hk : s.Knows oldest id k extra) : (s.step codec a).Knows oldest id k extra :=
  hk.step codec hs ht h.filed (h.live k id hl) hl hC

theorem allocated_step (id : ℕ) (hid : id ∈ (s.step codec a).filled) :
    id < (s.step codec a).cache.next := by
  refine lt_of_lt_of_le ?_ (s.grows_step codec a).cache.next
  obtain hid | ⟨j, w, hw, hp, rfl⟩ := s.filled_step codec hid
  · exact h.allocated id hid
  · exact (h.filling j w none [] hw (.inr hp)).1

theorem filled_step (hs : s.Ordered) (ht : s.Traced)
    (hC : Careful codec L oldest i s a) (id : ℕ) (hid : id ∈ (s.step codec a).filled) (k : String)
    (hl : (s.step codec a).cache.shards.lookup k = some id) : (s.step codec a).Knows oldest id k [] := by
  obtain hid | ⟨j, w, hw, hp, rfl⟩ := s.filled_step codec hid
  · have hl := lookup_of_lt codec (h.allocated id hid) hl
    exact h.knows_step codec hs ht hC hl (h.filled id hid k hl)
  · have hl := lookup_of_lt codec (h.filling j w none [] hw (.inr hp)).1 hl
    exact h.knows_step codec hs ht hC hl (h.items j w none [] hw hp k hl)

theorem filling_step (hs : s.Ordered) (j : ℕ) (w' : Watch β) (logging : Option (InternalEvent β))
    (es : List (InternalEvent β)) (hw' : (s.step codec a).watches j = some w')
    (hp : w'.phase = .list ∨ w'.phase = .backfill logging es) :
    w'.shard < (s.step codec a).cache.next ∧
      ∀ k, (s.step codec a).cache.shards.lookup k = some w'.shard → k = w'.p := by
  have hkeep {w : Watch β} (hw : s.watches j = some w) (hshard : w'.shard = w.shard) (hpre : w'.p = w.p)
      {logging : Option (InternalEvent β)} {es : List (InternalEvent β)}
      (hp : w.phase = .list ∨ w.phase = .backfill logging es) :
      w'.shard < (s.step codec a).cache.next ∧
        ∀ k, (s.step codec a).cache.shards.lookup k = some w'.shard → k = w'.p := by
    obtain ⟨hlt, hk⟩ := h.filling j w logging es hw hp
    rw [hshard, hpre]
    exact ⟨hlt.trans_le (s.grows_step codec a).cache.next, fun k hl => hk k (lookup_of_lt codec hlt hl)⟩
  obtain ⟨p, start, -, rfl⟩ | ⟨w, hw, ⟨x, rfl, rfl⟩ | rfl⟩ := s.watches_step codec hs hw'
  · simp [Watch.opened] at hp
  · obtain ⟨hpre, ⟨-, -, -, hshard, hc⟩ | ⟨hshard, ⟨-, hl, -⟩ | ⟨-, e, hb, -⟩ | ⟨-, e, hb, -⟩ | ⟨hsame, -⟩⟩⟩ :=
      Watch.step_filling hs hp
    · -- the watch has just made the shard its own
      have hcache : (s.step codec (.stream j x)).cache = (s.cache.getOrCreateShard w.p).1 := by
        simp only [step, hw, hc]
      have hlook := s.cache.lookup_getOrCreate w.p
      rw [hshard, hpre, hcache]
      exact ⟨Cache.allocated _ hlook, fun k hl => Cache.owned _ hl hlook⟩
    · exact hkeep hw hshard hpre (Or.inl (b := w.phase = .backfill none []) hl)
    · exact hkeep hw hshard hpre (.inr hb)
    · exact hkeep hw hshard hpre (.inr hb)
    · exact hkeep hw hshard hpre (hsame ▸ hp)
  · exact hkeep hw rfl rfl hp

theorem items_step (hs : s.Ordered) (ht : s.Traced) (hC : Careful codec L oldest i s a)
    (j : ℕ) (w' : Watch β) (logging : Option (InternalEvent β)) (es : List (InternalEvent β))
    (hw' : (s.step codec a).watches j = some w') (hp : w'.phase = .backfill logging es) (k : String)
    (hl : (s.step codec a).cache.shards.lookup k = some w'.shard) :
    (s.step codec a).Knows oldest w'.shard k es := by
  have hkeep {w : Watch β} (hw : s.watches j = some w) (hshard : w'.shard = w.shard)
      {logging : Option (InternalEvent β)} {es : List (InternalEvent β)} (hp : w.phase = .backfill logging es) :
      (s.step codec a).Knows oldest w'.shard k es := by
    rw [hshard] at hl ⊢
    have hl := lookup_of_lt codec (h.filling j w logging es hw (.inr hp)).1 hl
    exact h.knows_step codec hs ht hC hl (h.items j w logging es hw hp k hl)
  obtain ⟨p, start, -, rfl⟩ | ⟨w, hw, ⟨x, rfl, rfl⟩ | rfl⟩ := s.watches_step codec hs hw'
  · simp [Watch.opened] at hp
  · obtain ⟨-, ⟨-, -, hlist, -⟩ | ⟨hshard, ⟨rfl, hlist, hnew⟩ | ⟨rfl, e, hb, -⟩ | ⟨-, e, hb, -⟩ | ⟨hsame, -⟩⟩⟩ :=
      Watch.step_filling hs (.inr hp)
    · simp [hlist] at hp
    · cases hnew.symm.trans hp
      rw [hshard] at hl ⊢
      obtain ⟨hlt, hk⟩ := h.filling j w none [] hw (.inl hlist)
      have hl := lookup_of_lt codec hlt hl
      obtain rfl := hk k hl
      exact h.knows_step codec hs ht hC hl (((hC w hw).2.2.1 hlist).knows hs)
    · -- the first of the list has gone into the ring
      have hpushed : ((s.step codec (.stream j .advance)).cache.heap w.shard) =
          (s.cache.heap w.shard).pushRing e := by
        simp only [step, hw, Watch.step, Watch.advance, hb, Cache.pushRing, Cache.modify, Function.update_self]
      refine Known.held_subset (hkeep hw hshard hb) fun d hd => ?_
      obtain hd | hd := mem_append.mp hd
      · exact mem_append_left _ hd
      · obtain rfl | hd := mem_cons.mp hd
        · rw [hshard, hpushed]
          exact mem_append_left _ (mem_pushRing _ _)
        · exact mem_append_right _ hd
    · exact hkeep hw hshard hb
    · exact hkeep hw hshard (hsame.symm.trans hp)
  · exact hkeep hw rfl hp

theorem resolved_step (hs : s.Ordered) (j : ℕ) (w' : Watch β)
    (hw' : (s.step codec a).watches j = some w') (hp : w'.phase.resolved) :
    w'.shardKey = w'.p ∨ parentPrefix w'.p = some w'.shardKey := by
  obtain ⟨p, start, -, rfl⟩ | ⟨w, hw, ⟨x, rfl, rfl⟩ | rfl⟩ := s.watches_step codec hs hw'
  · simp [Watch.opened, Phase.resolved] at hp
  · rw [(w.step_moves hs x).start.2]
    obtain ⟨hp, hkey⟩ | hfound := Watch.step_resolved hs hp
    · rw [hkey]
      exact h.resolved j w hw hp
    · exact hfound
  · exact h.resolved j w' hw hp

theorem step (hs : s.Ordered) (ht : s.Traced) (hC : Careful codec L oldest i s a) :
    (s.step codec a).Covering L oldest where
  filed := h.filed_step codec hC
  live := h.live_step codec
  prefixes := h.prefixes_step codec hs hC
  allocated := h.allocated_step codec
  sorted := h.sorted_step codec hs ht hC
  filled := h.filled_step codec hs ht hC
  filling := h.filling_step codec hs
  items := h.items_step codec hs ht hC
  resolved := h.resolved_step codec hs

end

end Sys.Covering

/-- Of a snapshot, `ds` was yielded and `es` is about to be; with the live events since, `ds` says all of the first
`n` events. -/
structure Watch.Catching (s : Sys β) (w : Watch β) (n : ℕ) (ds es : List (InternalEvent β)) : Prop where
  rxPos : w.rxPos ≤ n
  bound : n ≤ s.log.length
  out : yielded w.out = ds.map internalToWatch
  source : ∀ d ∈ ds ++ es, (∃ e ∈ s.events, d.Same e) ∧ w.start < d.revision ∧ d.revision ≤ n
  sorted : (ds ++ es).Pairwise InternalEvent.NotAfter
  known : Known w.start s.events n (ds ++ es) w.p
  done : ∀ d ∈ ds, d.revision ≤ w.lastReplayed
  last : w.lastReplayed ≤ max w.start n

def Watch.CatchesUp (s : Sys β) (w : Watch β) : Prop :=
  match w.phase with
  | .check es => (0 < w.start ∧ w.start < w.horizon) ∨ ∃ n, w.Catching s n [] es
  | .replay es => ∃ n ds, w.Catching s n ds es
  | .live => ∃ n ds, w.Catching s n ds []
  | .lagged | .catchup _ _ => False
  | .closed => True
  | _ => yielded w.out = [] ∧ w.lastReplayed = w.start

theorem Watch.catchesUp_of_opening (h : w.phase.opening) :
    w.CatchesUp s ↔ yielded w.out = [] ∧ w.lastReplayed = w.start := by
  unfold CatchesUp
  cases hp : w.phase <;> simp_all [Phase.opening]

theorem Watch.catchesUp_live (h : w.phase = .live) : w.CatchesUp s ↔ ∃ n ds, w.Catching s n ds [] := by
  simp only [CatchesUp, h]

theorem Watch.catchesUp_of_live (ds : List (InternalEvent β)) (h : w.Catching s n ds []) (hp : w.phase = .live) :
    w.CatchesUp s := (catchesUp_live hp).mpr ⟨n, ds, h⟩

namespace Watch.Catching

theorem mono (h : w.Catching s n ds es) (hg : s.Grows t) : w.Catching t n ds es where
  rxPos := h.rxPos
  bound := h.bound.trans hg.length
  out := h.out
  source d hd := by
    obtain ⟨⟨e, he, hsame⟩, hr⟩ := h.source d hd
    exact ⟨⟨e, hg.events.subset he, hsame⟩, hr⟩
  sorted := h.sorted
  known := h.known.events_append (by simpa [Sys.events] using h.bound) hg.events
  done := h.done
  last := h.last

theorem congr (h : w.Catching s n ds es) (hk : w.Keeps w') : w'.Catching s n ds es where
  rxPos := hk.rxPos ▸ h.rxPos
  bound := h.bound
  out := hk.out ▸ h.out
  source := hk.start ▸ h.source
  sorted := h.sorted
  known := by rw [hk.start, hk.p]; exact h.known
  done := hk.lastReplayed ▸ h.done
  last := by rw [hk.start, hk.lastReplayed]; exact h.last

theorem next (h : w.Catching s n ds (e :: es)) (ph : Phase β) :
    Catching s { w.yield [internalToWatch e] with
      lastReplayed := max w.lastReplayed e.revision, phase := ph } n (ds ++ [e]) es where
  rxPos := h.rxPos
  bound := h.bound
  out := by simp [yield, h.out]
  source := append_cons ds e es ▸ h.source
  sorted := append_cons ds e es ▸ h.sorted
  known := append_cons ds e es ▸ h.known
  done d hd := by
    obtain hd | hd := mem_append.mp hd
    · exact (h.done d hd).trans (le_max_left _ _)
    · exact mem_singleton.mp hd ▸ le_max_right _ _
  last := max_le h.last ((h.source e (by simp)).2.2.trans (le_max_right _ _))

theorem drop (h : w.Catching s n ds []) (hs : s.Ordered) (he : s.events[w.rxPos]? = some e)
    (hd : ¬ (startsWith e.key w.p ∧ w.lastReplayed < e.revision)) (idle : Bool) :
    ∃ m, Catching s { w with rxPos := w.rxPos + 1, idle := idle } m ds [] := by
  have hrev := hs.logged.revision_of_getElem he
  have hlt : w.rxPos < s.log.length := by simpa [Sys.events] using (List.getElem?_eq_some_iff.mp he).1
  obtain hn | rfl := h.rxPos.lt_or_eq
  · exact ⟨n, hn, h.bound, h.out, h.source, h.sorted, h.known, h.done, h.last⟩
  · refine ⟨w.rxPos + 1, le_rfl, hlt, h.out, fun d hd => ?_, h.sorted, h.known.pass he fun hu => .inl ?_,
      h.done, h.last.trans (max_le_max_left _ (Nat.le_succ _))⟩
    · obtain ⟨hsrc, hlo, hhi⟩ := h.source d hd
      exact ⟨hsrc, hlo, hhi.trans (Nat.le_succ _)⟩
    · have hlast := h.last
      have hle : e.revision ≤ w.lastReplayed := not_lt.mp fun hlt => hd ⟨hu, hlt⟩
      change e.revision ≤ w.start
      omega

theorem deliver (h : w.Catching s n ds []) (hs : s.Ordered) (ho : w.Ordered s)
    (he : s.events[w.rxPos]? = some e) (hlast : w.lastReplayed < e.revision) :
    ∃ m, Catching s { w.yield [internalToWatch e, .bookmark e.revision] with
      rxPos := w.rxPos + 1, idle := false, lastReplayed := e.revision } m (ds ++ [e]) [] := by
  have hrev := hs.logged.revision_of_getElem he
  have hlt : w.rxPos < s.log.length := by simpa [Sys.events] using (List.getElem?_eq_some_iff.mp he).1
  have hstart := ho.start
  have hout : yielded (w.out ++ [internalToWatch e, .bookmark e.revision]) = (ds ++ [e]).map internalToWatch := by
    have hone : yielded [internalToWatch e, .bookmark e.revision] = [internalToWatch e] := by
      rw [← singleton_append, yielded_append, yielded_event, yielded_bookmark, append_nil]
    rw [yielded_append, h.out, hone, map_append, map_singleton]
  have hmono : ∀ m, n ≤ m → w.rxPos + 1 ≤ m → ∀ d ∈ ds ++ [e] ++ [],
      (∃ e ∈ s.events, d.Same e) ∧ w.start < d.revision ∧ d.revision ≤ m := by
    intro m hm hrx d hd
    rw [append_nil] at hd
    obtain hd | hd := mem_append.mp hd
    · obtain ⟨hsrc, hlo, hhi⟩ := h.source d (mem_append_left _ hd)
      exact ⟨hsrc, hlo, hhi.trans hm⟩
    · obtain rfl := mem_singleton.mp hd
      exact ⟨⟨d, mem_of_getElem? he, .refl d⟩, hstart.trans_lt hlast, hrev.le.trans hrx⟩
  have hsorted : (ds ++ [e] ++ []).Pairwise InternalEvent.NotAfter := by
    rw [append_nil, pairwise_append]
    refine ⟨by simpa using h.sorted, pairwise_singleton _ _, fun d hd e' he' _ => ?_⟩
    exact mem_singleton.mp he' ▸ (h.done d hd).trans hlast.le
  have hdone : ∀ d ∈ ds ++ [e], d.revision ≤ e.revision := by
    intro d hd
    obtain hd | hd := mem_append.mp hd
    · exact (h.done d hd).trans hlast.le
    · exact (mem_singleton.mp hd ▸ le_rfl)
  have hknown : Known w.start s.events n (ds ++ [e] ++ []) w.p :=
    h.known.held_subset (by simp)
  obtain hn | rfl := h.rxPos.lt_or_eq
  · exact ⟨n, hn, h.bound, hout, hmono n le_rfl hn, hsorted, hknown, hdone,
      (hrev.le.trans (Nat.succ_le_of_lt hn)).trans (le_max_right _ _)⟩
  · refine ⟨w.rxPos + 1, le_rfl, hlt, hout, hmono _ (Nat.le_succ _) le_rfl, hsorted, ?_, hdone,
      hrev.le.trans (le_max_right _ _)⟩
    exact hknown.pass he fun _ => .inr ⟨e, by simp, rfl, le_rfl⟩

end Watch.Catching

theorem mem_replayed {c : Cache β} {id : ℕ} :
    d ∈ c.replayed id p start ↔ d ∈ (c.heap id).ring ∧ startsWith d.key p ∧ start < d.revision := by
  simp [Cache.replayed]

theorem Sys.Covering.snapshot (h : s.Covering L oldest) (hs : s.Ordered)
    (ht : s.Traced) (hw : s.watches i = some w) (hp : w.phase = .snapshot) (hwhole : s.Whole w)
    (hold : oldest ≤ w.start) (hhor : (s.cache.heap w.shard).horizon ≤ w.start) :
    ∃ n, s.passed w.shard ≤ n ∧ n ≤ s.log.length ∧
      (∀ d ∈ s.cache.replayed w.shard w.p w.start, d.revision ≤ n) ∧
      Known w.start s.events n (s.cache.replayed w.shard w.p w.start) w.p := by
  obtain ⟨hfilled, hlook, -⟩ := hwhole
  have hfound := (h.prefixes i w hw).startsWith_found (h.live _ _ hlook) (h.resolved i w hw (by rw [hp]; rfl))
  have hknown : Known w.start s.events (s.passed w.shard) (s.cache.replayed w.shard w.p w.start) w.p := by
    refine Known.mono (h.filled _ hfilled _ hlook) (max_le hold hhor) (fun d hd hu => ?_) hfound
    rw [append_nil] at hd
    obtain hr | hr := lt_or_ge w.start d.revision
    · exact .inl (mem_replayed.mpr ⟨hd, hu, hr⟩)
    · exact .inr hr
  by_cases hall : ∀ d ∈ s.cache.replayed w.shard w.p w.start, d.revision ≤ s.passed w.shard
  · exact ⟨_, le_rfl, ht.passed_le hs _, hall, hknown⟩
  · -- a list has shown the object that the writer is about to record
    push Not at hall
    obtain ⟨d, hd, hlt⟩ := hall
    obtain ⟨⟨e, he, hsame⟩, hle⟩ := ht.ring _ d (mem_replayed.mp hd).1
    have hb := s.passed_bounds w.shard
    obtain ⟨m, hm⟩ := mem_iff_getElem?.mp he
    have hrev := hs.logged.revision_of_getElem hm
    have hr := hsame.revision
    obtain rfl : m = s.passed w.shard := by omega
    have hlen := (List.getElem?_eq_some_iff.mp hm).1
    rw [events, length_map] at hlen
    refine ⟨s.passed w.shard + 1, Nat.le_succ _, hlen, fun d' hd' => ?_, ?_⟩
    · have := (ht.ring _ d' (mem_replayed.mp hd').1).2
      omega
    · exact hknown.pass hm fun _ => .inr ⟨d, hd, hsame.key, hr.ge⟩

theorem Watch.CatchesUp.mono (h : w.CatchesUp s) (hg : s.Grows t) : w.CatchesUp t := by
  cases hp : w.phase with
  | check es =>
    simp only [CatchesUp, hp] at h ⊢
    exact h.imp_right fun ⟨n, h⟩ => ⟨n, h.mono hg⟩
  | replay es | live =>
    simp only [CatchesUp, hp] at h ⊢
    obtain ⟨n, ds, h⟩ := h
    exact ⟨n, ds, h.mono hg⟩
  | lagged | catchup => simp only [CatchesUp, hp] at h
  | closed => simp only [CatchesUp, hp]
  | _ =>
    rw [catchesUp_of_opening (by rw [hp]; rfl)] at h ⊢
    exact h

theorem Watch.CatchesUp.congr (h : w.CatchesUp s) (hk : w.Keeps w') (hp : w'.phase = w.phase)
    (hh : w'.horizon = w.horizon) : w'.CatchesUp s := by
  cases hph : w.phase with
  | check es =>
    simp only [CatchesUp, hp, hph, hk.start, hh] at h ⊢
    exact h.imp_right fun ⟨n, h⟩ => ⟨n, h.congr hk⟩
  | replay es | live =>
    simp only [CatchesUp, hp, hph] at h ⊢
    obtain ⟨n, ds, h⟩ := h
    exact ⟨n, ds, h.congr hk⟩
  | lagged | catchup => simp only [CatchesUp, hph] at h
  | closed => simp only [CatchesUp, hp, hph]
  | _ => simpa only [CatchesUp, hp, hph, hk.start, hk.out, hk.lastReplayed] using h

structure Sys.Guarded (L : Layout) (oldest i : ℕ) (s : Sys β) (a : Act β) : Prop where
  careful : Careful codec L oldest i s a
  traced : s.Traced
  covering : s.Covering L oldest

theorem Watch.CatchesUp.moves (hs : s.Ordered) (ho : w.Ordered s)
    (hw : s.watches i = some w) (hC : s.Guarded codec L oldest i (.stream i a)) (hold : oldest ≤ w.start)
    (h : w.CatchesUp s) (hm : w.Moves s a w') : w'.CatchesUp s := by
  cases hm with
  | opens hp _ hk _ hp' =>
    rw [catchesUp_of_opening hp] at h
    rw [catchesUp_of_opening hp', hk.out, hk.lastReplayed, hk.start]
    exact h
  | snapshot hp =>
    rw [catchesUp_of_opening (by rw [hp]; rfl)] at h
    have hwhole := (hC.careful w hw).2.2.2 rfl hp
    obtain hhor | hexp := hwhole.2.2
    · obtain ⟨n, hn, hlen, hrev, hknown⟩ := hC.covering.snapshot hs hC.traced hw hp hwhole hold hhor
      have hrx : w.rxPos ≤ n :=
        ((ho.rxPos.trans hs.sent).trans (s.passed_bounds w.shard).1).trans hn
      refine .inr ⟨n, hrx, hlen, h.1, fun d hd => ?_, ?_, hknown, by simp, h.2.le.trans (le_max_left _ _)⟩
      · obtain ⟨hring, -, hstart⟩ := mem_replayed.mp hd
        exact ⟨(hC.traced.ring _ d hring).1, hstart, hrev d hd⟩
      · exact (hC.covering.sorted w.shard).sublist filter_sublist
    · exact .inl hexp
  | accept hp hh =>
    simp only [CatchesUp, hp] at h
    obtain ⟨n, h⟩ := h.resolve_left hh
    exact ⟨n, [], h.congr ⟨rfl, rfl, rfl, rfl, rfl, rfl⟩⟩
  | expire | giveUp | cancel | timeout => trivial
  | @next e es ph hp =>
    obtain ⟨hp, rfl⟩ | ⟨sc, hp, rfl⟩ := hp
    · simp only [CatchesUp, hp] at h
      obtain ⟨n, ds, h⟩ := h
      exact ⟨n, ds ++ [e], h.next _⟩
    · simp only [CatchesUp, hp] at h
  | live hp =>
    simp only [CatchesUp, hp] at h
    obtain ⟨n, ds, h⟩ := h
    exact ⟨n, ds, h.congr ⟨rfl, rfl, rfl, rfl, rfl, rfl⟩⟩
  | rescan hp | recover hp => simp only [CatchesUp, hp] at h
  | lag _ hlag => exact absurd (hC.careful w rfl hw) (not_le.mpr hlag)
  | drop hp _ he hd =>
    obtain ⟨n, ds, h⟩ := (catchesUp_live hp).mp h
    obtain ⟨m, h⟩ := h.drop hs he hd false
    exact catchesUp_of_live ds h hp
  | deliver hp _ he _ hlast =>
    obtain ⟨n, ds, h⟩ := (catchesUp_live hp).mp h
    obtain ⟨m, h⟩ := h.deliver hs ho he hlast
    exact catchesUp_of_live _ h hp
  | debounce hp | heartbeat hp =>
    obtain ⟨n, ds, h⟩ := (catchesUp_live hp).mp h
    refine catchesUp_of_live ds
      ⟨h.rxPos, h.bound, ?_, h.source, h.sorted, h.known, h.done, h.last⟩ hp
    simp [yield, ownBookmark, h.out]
  | quiet hk hp _ hh => exact h.congr hk hp hh

theorem clientState_yielded (m : String → Option β) (out : List (WatchEvent β)) :
    clientState m (yielded out) = clientState m out := by
  simp only [clientState, yielded, filterMap_filter]
  congr 1
  refine filterMap_congr fun e _ => ?_
  cases e <;> rfl

theorem Watch.Catching.current (h : w.Catching s n ds []) (hs : s.Ordered) (hall : w.rxPos = s.log.length)
    (hu : startsWith key w.p) : clientState (objectsAt s.events w.start) w.out key = s.db.current key := by
  have hlen : s.events.length = s.log.length := by simp [Sys.events]
  have hn : n = s.events.length := by
    have := h.rxPos
    have := h.bound
    omega
  have hknown := h.known key
  have hsrc := h.source
  have hsorted := h.sorted
  rw [append_nil] at hknown hsrc hsorted
  rw [hn, take_length] at hknown
  have hlast {d e : InternalEvent β} (hd : d ∈ ds) (hk : d.key = key) (he : lastEvent key s.events = some e) :
      d.revision ≤ e.revision := by
    obtain ⟨⟨e', he', hsame⟩, -⟩ := hsrc d hd
    rw [hsame.revision]
    exact lastFor_newest hs.logged.sorted he e' he' (hsame.key.symm.trans hk)
  rw [← clientState_yielded, h.out, clientState_map, hs.logged.current_eq]
  refine replay_catches_up hs.logged.sorted ?_ ?_
  · intro e he hr
    obtain hle | ⟨d, hd, hk, hrd⟩ | ⟨m, d, hm, hd, -⟩ := hknown e hu he
    · omega
    · obtain ⟨c, hc⟩ := exists_lastFor InternalEvent.key hd
      rw [hk] at hc
      obtain ⟨hcm, hck⟩ := lastFor_mem hc
      have hdc : d.revision ≤ c.revision := lastFor_newest_of_key hsorted hc d hd hk
      obtain ⟨⟨e', he', hsame⟩, -⟩ := hsrc c hcm
      have hce := hlast hcm hck he
      have heq : e' = e := hs.logged.eq_of_revision he' (lastFor_mem he).1 (by
        rw [← hsame.revision]
        omega)
      exact ⟨c, hc, heq ▸ hsame.value⟩
    · have := (List.getElem?_eq_some_iff.mp hd).1
      omega
  · intro hold
    refine lastFor_eq_none.mpr fun d hd hk => ?_
    obtain ⟨⟨e', he', hsame⟩, hstart, -⟩ := hsrc d hd
    obtain ⟨e, he⟩ := exists_lastFor InternalEvent.key he'
    rw [← hsame.key, hk] at he
    have hde := hlast hd hk he
    have hle := hold e he
    omega

theorem guarded_run (hC : Along (Sys.step codec) (Careful codec L oldest i) Sys.new as) :
    Along (Sys.step codec) (Sys.Guarded codec L oldest i) Sys.new as := by
  refine Along.mono (fun s a h => ⟨h.1, h.2.2.1, h.2.2.2⟩)
    (hC.with_invariant (fun s => s.Ordered ∧ s.Traced ∧ s.Covering L oldest) ?_ ⟨.new, .new, .new⟩)
  rintro s a ⟨hs, ht, hc⟩ ha
  exact ⟨hs.step codec a, ht.step codec hs a, hc.step codec hs ht ha⟩

/-- A stream that has received all that was sent has led its client from the objects at its start to the objects
that exist, and no listed object that a backfill records drops a newer tombstone, if the steps respect the
conditions. -/
theorem backfill_leads_to_store (L : Layout) (oldest i : ℕ) (as : List (Act β))
    (hC : Along (Sys.step codec) (Careful codec L oldest i) Sys.new as) :
    let s := run (Sys.step codec) Sys.new as
    (∀ w, s.watches i = some w → oldest ≤ w.start → w.phase = .live → w.rxPos = s.log.length →
      ∀ key, startsWith key w.p → clientState (objectsAt s.events w.start) w.out key = s.db.current key) ∧
    Along (Sys.step codec) (fun s a => ∀ j w e es t, a = .stream j .advance → s.watches j = some w →
      w.phase = .backfill (some e) es → (s.cache.heap w.shard).deletionLog.byKey.lookup e.key = some t →
      t.revision ≤ e.revision) Sys.new as := by
  intro s
  have hguard := guarded_run codec hC
  have hs : s.Ordered := Sys.ordered_run codec as
  constructor
  · intro w hw hold hlive hall key hu
    have h : oldest ≤ w.start → w.CatchesUp s := Sys.watch_run_new (fun s w => oldest ≤ w.start → w.CatchesUp s)
      (fun _ _ hg _ h hold => (h hold).mono hg)
      (fun {s w x} hs ho hw hC h hold => by
        have hm := w.step_moves hs x
        rw [hm.start.1] at hold
        exact (h hold).moves codec hs ho hw hC hold hm)
      (fun _ _ => ⟨rfl, rfl⟩) hguard hw
    obtain ⟨n, ds, h⟩ := (Watch.catchesUp_live hlive).mp (h hold)
    exact h.current hs hall hu
  · refine hguard.mono fun s a h j w e es t ha hw hp ht => ?_
    obtain ⟨x, hx, hk, hr⟩ := (h.traced.tombstones w.shard).byKey e.key t ht
    have hcareful := h.careful
    subst ha
    exact hr ▸ ((hcareful w hw).2.1 e es hp).1 x hx hk

def sharedBackfill : List (Act (Option Json)) :=
  served (.put "/registry/configmaps/a/x" (configMap "a" "x") (some 0) []) 7 ++
  .openWatch "/registry/configmaps/" 0 :: advances 0 4 ++ .openWatch "/registry/configmaps/" 0 :: advances 1 2 ++
  served (.put "/registry/configmaps/a/y" (configMap "a" "y") (some 0) []) 7 ++ advances 0 10 ++ advances 1 7 ++
  served (.delete "/registry/configmaps/a/x" none []) 7 ++ List.replicate 2 (.stream 1 .recv)

def sharedBackfillChecks (s : Sys (Option Json)) : Act (Option Json) → Bool
  | .commit c => decide (∀ x ∈ (perform JsonCodec.parsed s.db c).writes,
      (x.event.key = "/registry/configmaps/a/x" ∨ x.event.key = "/registry/configmaps/a/y") ∧ x.ns = some "a")
  | .write => match s.log[s.recorded]?, s.targets with
    | some x, some (id :: _) => decide (∀ d ∈ (s.cache.heap id).ring,
        d ∈ ((s.cache.heap id).pushRing x.event).ring)
    | _, _ => true
  | .openWatch p _ => decide (p = "/registry/configmaps/")
  | .stream j .advance => match s.watches j with
    | none => true
    | some w => match w.phase with
      | .backfill none (e :: _) => decide ((∀ x ∈ s.events.take (s.passed w.shard), x.key = e.key →
          x.revision ≤ e.revision) ∧ (∀ d ∈ (s.cache.heap w.shard).ring, d.key = e.key →
          d.revision ≤ e.revision) ∧ ∀ d ∈ (s.cache.heap w.shard).ring,
          d ∈ ((s.cache.heap w.shard).pushRing e).ring)
      | .backfill (some e) _ => decide ((∀ x ∈ s.events.take (s.passed w.shard), x.key = e.key →
          x.revision ≤ e.revision) ∧ ∀ d ∈ (s.cache.heap w.shard).ring, d.key = e.key → d.revision ≤ e.revision)
      | .list => decide (∀ e ∈ s.events, e.value ≠ none)
      | .snapshot => decide (w.shard ∈ s.filled ∧ s.cache.shards.lookup w.shardKey = some w.shard ∧
          (s.cache.heap w.shard).horizon ≤ w.start)
      | _ => true
  | .stream j .recv => match s.watches j with
    | none => true
    | some w => decide (s.sent - w.rxPos ≤ BROADCAST_CAPACITY)
  | _ => true

theorem sharedBackfill_careful : Along (Sys.step JsonCodec.parsed) (Careful JsonCodec.parsed configMaps 0 1)
    Sys.new sharedBackfill := by
  have hroot : configMaps.IsRoot "/registry/configmaps/" := ⟨_, rfl, by decide⟩
  have hd : Along (Sys.step JsonCodec.parsed) (fun s a => sharedBackfillChecks s a) Sys.new sharedBackfill := by
    decide +kernel
  refine hd.mono fun s a h => ?_
  unfold sharedBackfillChecks at h
  cases a with
  | commit c =>
    intro x hx
    obtain ⟨hk, hns⟩ := of_decide_eq_true h x hx
    rw [hns]
    obtain hk | hk := hk <;> rw [hk]
    · exact .namespaced hroot ⟨"a", by decide, by decide⟩ ⟨"x", by decide, by decide⟩
    · exact .namespaced hroot ⟨"a", by decide, by decide⟩ ⟨"y", by decide, by decide⟩
  | write =>
    intro x id ids hx ht d hd
    simp only [hx, ht] at h
    exact .inl (of_decide_eq_true h d hd)
  | openWatch p start =>
    obtain rfl := of_decide_eq_true h
    exact .root hroot
  | stream j x =>
    cases x with
    | advance =>
      intro w hw
      simp only [hw] at h
      refine ⟨fun e es hp => ?_, fun e es hp => ?_, fun hp => ?_, fun _ hp => ?_⟩ <;> simp only [hp] at h
      · obtain ⟨hevents, hring, hroom⟩ := of_decide_eq_true h
        exact ⟨⟨hevents, hring⟩, fun d hd => .inl (hroom d hd)⟩
      · obtain ⟨hevents, hring⟩ := of_decide_eq_true h
        exact ⟨hevents, hring⟩
      · intro key d _ hd hv
        exact absurd hv (of_decide_eq_true h d (lastFor_mem hd).1)
      · obtain ⟨hfilled, hlook, hhor⟩ := of_decide_eq_true h
        exact ⟨hfilled, hlook, .inl hhor⟩
    | recv =>
      rintro w - hw
      simp only [hw] at h
      exact of_decide_eq_true h
    | _ => trivial
  | gc k id | evict p => trivial

def Watch.isLive (w : Watch β) : Bool :=
  match w.phase with
  | .live => true
  | _ => false

theorem backfill_leads_sharedBackfill : ∃ w,
    (run (Sys.step JsonCodec.parsed) Sys.new sharedBackfill).watches 1 = some w ∧
      (yielded w.out).map Watch.revisionOf = [2, 1, 3] ∧
      clientState (fun _ => none) w.out "/registry/configmaps/a/x" = none ∧
      clientState (fun _ => none) w.out "/registry/configmaps/a/y" ≠ none := by
  have hfacts : ((run (Sys.step JsonCodec.parsed) Sys.new sharedBackfill).watches 1).map
      (fun w => (w.start, w.p, w.rxPos, (yielded w.out).map Watch.revisionOf)) =
      some (0, "/registry/configmaps/", 3, [2, 1, 3]) := by decide +kernel
  have hlive : ((run (Sys.step JsonCodec.parsed) Sys.new sharedBackfill).watches 1).any
      Watch.isLive := by decide +kernel
  have hlen : (run (Sys.step JsonCodec.parsed) Sys.new sharedBackfill).log.length = 3 := by decide +kernel
  have hx : (run (Sys.step JsonCodec.parsed) Sys.new sharedBackfill).db.current
      "/registry/configmaps/a/x" = none := by decide +kernel
  have hy : (run (Sys.step JsonCodec.parsed) Sys.new sharedBackfill).db.current
      "/registry/configmaps/a/y" ≠ none := by decide +kernel
  obtain ⟨w, hw, hfacts⟩ := Option.map_eq_some_iff.mp hfacts
  obtain ⟨h0, hp, hrx, hout⟩ : w.start = 0 ∧ w.p = "/registry/configmaps/" ∧ w.rxPos = 3 ∧
      (yielded w.out).map Watch.revisionOf = [2, 1, 3] := by simpa using hfacts
  have hphase : w.phase = .live := by
    rw [hw, Option.any_some, Watch.isLive] at hlive
    split at hlive
    · assumption
    · simp at hlive
  have hlead := (backfill_leads_to_store JsonCodec.parsed configMaps 0 1 sharedBackfill sharedBackfill_careful).1
    w hw (Nat.zero_le _) hphase (hrx.trans hlen.symm)
  have hbase : objectsAt (run (Sys.step JsonCodec.parsed) Sys.new sharedBackfill).events w.start = fun _ => none := by
    have hnone : (run (Sys.step JsonCodec.parsed) Sys.new sharedBackfill).events.filter
        (fun e => e.revision ≤ 0) = [] := by decide +kernel
    rw [h0, objectsAt, hnone]
    rfl
  rw [hbase, hp] at hlead
  refine ⟨w, hw, hout, ?_, ?_⟩
  · rw [hlead _ (by decide), hx]
  · rw [hlead _ (by decide)]
    exact hy

def staleBackfill : List (Act (Option Json)) :=
  served (.put "/registry/configmaps/a/x" (configMap "a" "x") (some 0) []) 7 ++
  .openWatch "/registry/configmaps/" 0 :: advances 0 4 ++
  served (.delete "/registry/configmaps/a/x" none []) 7 ++ advances 0 10 ++ [.stream 0 .recv]

def emptyRing : List (Act (Option Json)) :=
  served (.put "/registry/configmaps/a/x" (configMap "a" "x") (some 0) []) 7 ++
  .openWatch "/registry/configmaps/" 0 :: advances 0 3 ++ .openWatch "/registry/configmaps/" 0 :: advances 1 7

theorem backfill_resurrects :
    (let s := run (Sys.step JsonCodec.parsed) Sys.new staleBackfill;
      (s.watches 0).any (fun w => (match w.phase with | .live => true | _ => false) &&
        decide (w.rxPos = s.log.length ∧
          clientState (objectsAt s.events w.start) w.out "/registry/configmaps/a/x" ≠ none ∧
          (s.cache.heap w.shard).deletionLog.byKey.lookup "/registry/configmaps/a/x" = none)) = true ∧
        s.db.current "/registry/configmaps/a/x" = none) ∧
    (let s := run (Sys.step JsonCodec.parsed) Sys.new emptyRing;
      (s.watches 1).any (fun w => (match w.phase with | .live => true | _ => false) &&
        decide (w.rxPos = s.log.length ∧
          clientState (objectsAt s.events w.start) w.out "/registry/configmaps/a/x" = none)) = true ∧
        s.db.current "/registry/configmaps/a/x" ≠ none) := by
  decide +kernel

end U7s.Store
