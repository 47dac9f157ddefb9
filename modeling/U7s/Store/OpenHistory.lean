import U7s.Store.Server

/-! What a watch that opens is told of the past. A shard covers the keys whose last event, if newer than its
horizon, its ring holds. -/

namespace U7s.Store

open Runs Replay List
open Text (Segment startsWith startsWith_iff)

variable {β : Type} (codec : JsonCodec β) (L : Layout)

structure Covers (events : List (InternalEvent β)) (k : String) (b : Ring.Buffer (InternalEvent β)) :
    Prop where
  sorted : b.ring.Pairwise (fun a c => a.revision < c.revision)
  sound : ∀ e ∈ b.ring, ∃ d ∈ events, e.Same d
  complete : ∀ key e, startsWith key k → lastEvent key events = some e →
    (∃ d ∈ b.ring, d.Same e) ∨ e.revision ≤ max 1 b.horizon

/-- Every key under the prefix other than `except` was last changed, or, when the shard is filled from a list, last
deleted, at a revision that the floor covers. -/
def SeedCovers (h : History β) (k : String) (filled : Bool) (except : Option String) : Prop :=
  ∀ key e, startsWith key k → some key ≠ except → lastEvent key h.events = some e →
    (filled = true → e.value = none) → e.revision ≤ max 1 (findReclaimedHorizon h.cache.reclaimed k)

structure RecordCovers (h : History β) (w : Write β) : Prop where
  filed : L.Filed w.event.key w.ns
  created : h.cache.Unmatched w → w.event.value = none → SeedCovers h w.root false (some w.event.key)

def KeepsHistory (s : Server β) : Op β → Prop
  | .call c => Along History.record (RecordCovers L) s.history (perform codec s.db c).writes
  | .watch p _ listFails => L.IsPrefix p ∧
      (s.history.cache.findShardKey p = none → SeedCovers s.history p (!listFails) none)
  | _ => True

structure HistoryKept (h : History β) : Prop where
  live : ∀ k s, h.cache.shardAt k = some s → L.IsPrefix k
  covers : ∀ k s, h.cache.shardAt k = some s → Covers h.events k s.toBuffer

variable {L} {events : List (InternalEvent β)} {k : String} {b : Ring.Buffer (InternalEvent β)}

theorem lastEvent_concat : lastEvent key (events ++ [e]) = if e.key = key then some e else lastEvent key events :=
  lastFor_concat

theorem Covers.skip (hc : Covers events k b) (hk : ¬ startsWith e.key k) :
    Covers (events ++ [e]) k b where
  sorted := hc.sorted
  sound := by
    intro d hd
    obtain ⟨d', hd', hs⟩ := hc.sound d hd
    exact ⟨d', mem_append_left _ hd', hs⟩
  complete := by
    intro key d hu hl
    rw [lastEvent_concat, if_neg (fun he => hk (by rwa [he]))] at hl
    exact hc.complete key d hu hl

theorem Covers.push (hs : (b.ring ++ [e]).Pairwise (fun a c => a.revision < c.revision))
    (hsound : ∀ d ∈ b.ring, ∃ d' ∈ events, d.Same d')
    (hcomp : ∀ key d, startsWith key k → key ≠ e.key → lastEvent key events = some d →
      (∃ d' ∈ b.ring, d'.Same d) ∨ d.revision ≤ max 1 b.horizon) :
    Covers (events ++ [e]) k (b.push RING_CAPACITY InternalEvent.revision e) := by
  obtain ⟨hsuf, hmem, hhor⟩ := b.foldl_push ringCapacity_pos InternalEvent.revision [e] hs
  refine ⟨hs.sublist hsuf.sublist, ?_, ?_⟩
  · intro d hd
    obtain hd | hd := mem_append.mp (hsuf.subset hd)
    · obtain ⟨d', hd', hsame⟩ := hsound d hd
      exact ⟨d', mem_append_left _ hd', hsame⟩
    · exact ⟨d, mem_append_right _ hd, .refl d⟩
  · intro key d hu hl
    rw [lastEvent_concat] at hl
    split_ifs at hl with hk
    · obtain rfl := Option.some_inj.mp hl
      have hlast := b.getLast?_push ringCapacity_pos InternalEvent.revision e
      exact .inl ⟨e, mem_of_getLast? hlast, .refl e⟩
    · obtain ⟨d', hd', hsame⟩ | hle := hcomp key d hu (Ne.symm hk) hl
      · obtain hin | hle := hmem d' (mem_append_left _ hd')
        · exact .inl ⟨d', hin, hsame⟩
        · exact .inr ((hsame.revision ▸ hle).trans (le_max_right _ _))
      · exact .inr (hle.trans (max_le_max_left 1 hhor))

theorem Covers.fill (hl : Logged db events)
    (hcomp : ∀ key e, startsWith key k → lastEvent key events = some e → e.value = none →
      e.revision ≤ max 1 f) :
    Covers events k ((db.listed k).foldl (Ring.Buffer.push RING_CAPACITY InternalEvent.revision) ⟨[], f⟩) := by
  have hs : (([] : List (InternalEvent β)) ++ db.listed k).Pairwise (fun a c => a.revision < c.revision) :=
    hl.listed_sorted k
  obtain ⟨hsuf, hmem, hhor⟩ := Ring.Buffer.foldl_push ringCapacity_pos InternalEvent.revision ⟨[], f⟩
    (db.listed k) hs
  refine ⟨hs.sublist hsuf.sublist, ?_, ?_⟩
  · intro d hd
    obtain ⟨key, row, hrow, -, rfl⟩ := mem_listed.mp (hsuf.subset hd)
    obtain ⟨e, he, hv, hr⟩ := hl.of_row hrow
    obtain ⟨hm, hkey⟩ := lastFor_mem he
    exact ⟨e, hm, hkey.symm, hr.symm, hv.symm⟩
  · intro key e hu he
    cases hv : e.value with
    | none => exact .inr ((hcomp key e hu he hv).trans (max_le_max_left 1 hhor))
    | some v =>
      obtain ⟨row, hrow, rfl, hr⟩ := hl.row_of_put he hv
      have hin : addedEvent key row ∈ db.listed k := mem_listed.mpr ⟨key, row, hrow, hu, rfl⟩
      have hkey := (lastFor_mem he).2
      obtain hin | hle := hmem _ hin
      · exact .inl ⟨_, hin, hkey.symm, hr, hv.symm⟩
      · exact .inr ((hr.ge.trans hle).trans (le_max_right _ _))

namespace HistoryKept

variable {h : History β}

theorem record (hk : HistoryKept L h) (hw : RecordCovers L h w) (hl : Logged db h.events)
    (hrev : w.event.revision = h.log.length + 1) : HistoryKept L (h.record w) := by
  have hevents : (h.record w).events = h.events ++ [w.event] := by
    simp [History.record, History.events]
  constructor
  · intro k s hs
    obtain ⟨hk', -⟩ | ⟨-, hs⟩ := Cache.shardAt_pushEventLocked_some hs
    · exact hw.filed.home_isPrefix hk'
    · exact hk.live k s hs
  · intro k s hs
    rw [hevents]
    obtain ⟨hk', t, rfl, ht | ⟨hu, hd, rfl, rfl⟩⟩ | ⟨hk', hs⟩ := Cache.shardAt_pushEventLocked_some hs
    · have hc := hk.covers k t ht
      refine Covers.push ?_ hc.sound (fun key d hu _ => hc.complete key d hu)
      refine pairwise_append.mpr ⟨hc.sorted, pairwise_singleton _ _, ?_⟩
      intro d hd e he
      obtain ⟨d', hd', hsame⟩ := hc.sound d hd
      have hb := (hl.mem_bounds hd').2
      rw [History.events, length_map] at hb
      rw [mem_singleton.mp he, hsame.revision]
      omega
    · refine Covers.push (b := ⟨[], _⟩) (pairwise_singleton _ _) (by simp) ?_
      intro key d hun hne hlast
      exact .inr (hw.created hu hd key d hun (by simpa using hne) hlast (by simp))
    · refine (hk.covers k s hs).skip (fun hu => hk' ?_)
      exact (hw.filed.home_iff (hk.live k s hs)).mp hu

theorem modify (hk : HistoryKept L h) {id : ℕ}
    (hf : ∀ s, (f s).toBuffer = s.toBuffer) : HistoryKept L { h with cache := h.cache.modify id f } := by
  have hat : ∀ k t, (h.cache.modify id f).shardAt k = some t →
      ∃ s, h.cache.shardAt k = some s ∧ t.toBuffer = s.toBuffer := by
    intro k t ht
    rw [Cache.shardAt_modify] at ht
    split_ifs at ht
    · obtain ⟨s, hs, rfl⟩ := Option.map_eq_some_iff.mp ht
      exact ⟨s, hs, hf s⟩
    · exact ⟨t, ht, rfl⟩
  constructor
  · intro k t ht
    obtain ⟨s, hs, -⟩ := hat k t ht
    exact hk.live k s hs
  · intro k t ht
    obtain ⟨s, hs, he⟩ := hat k t ht
    rw [he]
    exact hk.covers k s hs

theorem tearDown (hk : HistoryKept L h) (k : String) :
    HistoryKept L { h with cache := h.cache.tearDownShard k } := by
  have hat : ∀ k' s, (h.cache.tearDownShard k).shardAt k' = some s → h.cache.shardAt k' = some s := by
    intro k' s hs
    rw [Cache.shardAt_tearDown] at hs
    split_ifs at hs
    exact hs
  exact ⟨fun k' s hs => hk.live k' s (hat k' s hs), fun k' s hs => hk.covers k' s (hat k' s hs)⟩

theorem openShard (hk : HistoryKept L h) (hl : Logged db h.events) (hp : L.IsPrefix p)
    (hseed : h.cache.findShardKey p = none → SeedCovers h p (!listFails) none) :
    HistoryKept L { h with cache := (h.cache.openShard db p listFails).1 } := by
  unfold Cache.openShard
  cases hfound : h.cache.findShardKey p with
  | some found => exact hk
  | none =>
    have hdead := (Cache.findShardKey_eq_none.mp hfound).1
    have hseed := hseed hfound
    have hnew : h.cache.shardOrNew p = .new (findReclaimedHorizon h.cache.reclaimed p) := by
      simp [Cache.shardOrNew, hdead]
    -- the shards after the creation: the old ones, and one that covers once `t` is its content
    have hother : ∀ k s, k ≠ p → (h.cache.getOrCreateShard p).1.shardAt k = some s →
        h.cache.shardAt k = some s := by
      intro k s hkp hs
      rwa [Cache.shardAt_getOrCreate, if_neg hkp] at hs
    cases listFails with
    | true =>
      constructor
      · intro k s hs
        by_cases hkp : k = p
        · exact hkp ▸ hp
        · exact hk.live k s (hother k s hkp hs)
      · intro k s hs
        by_cases hkp : k = p
        · subst hkp
          have hs' := (Cache.shardAt_getOrCreate h.cache k k).symm.trans hs
          rw [if_pos rfl, hnew, Option.some_inj] at hs'
          subst hs'
          refine ⟨Pairwise.nil, by simp [RingShard.new], fun key e hu he => .inr ?_⟩
          exact hseed key e hu (by simp) he (by simp)
        · exact hk.covers k s (hother k s hkp hs)
    | false =>
      rw [if_neg (by simp), Cache.backfill_eq_modify]
      have hlook := Cache.lookup_getOrCreate h.cache p
      have hat : ∀ k t, ((h.cache.getOrCreateShard p).1.modify (h.cache.getOrCreateShard p).2
          (fun s => (db.listed p).foldl pushIntoShard s)).shardAt k = some t →
          (k ≠ p ∧ h.cache.shardAt k = some t) ∨ (k = p ∧ t = (db.listed p).foldl pushIntoShard
            (.new (findReclaimedHorizon h.cache.reclaimed p))) := by
        intro k t ht
        rw [Cache.shardAt_modify] at ht
        by_cases hkp : k = p
        · subst hkp
          rw [if_pos hlook, Cache.shardAt_getOrCreate, if_pos rfl, hnew, Option.map_some,
            Option.some_inj] at ht
          exact .inr ⟨rfl, ht.symm⟩
        · rw [if_neg (fun hl => hkp (Cache.owned _ hl hlook))] at ht
          exact .inl ⟨hkp, hother k t hkp ht⟩
      constructor
      · intro k t ht
        obtain ⟨-, hs⟩ | ⟨rfl, -⟩ := hat k t ht
        · exact hk.live k t hs
        · exact hp
      · intro k t ht
        obtain ⟨-, hs⟩ | ⟨rfl, rfl⟩ := hat k t ht
        · exact hk.covers k t hs
        · rw [foldl_pushIntoShard]
          exact Covers.fill hl (fun key e hu he hv => hseed key e hu (by simp) he (fun _ => hv))

end HistoryKept

theorem historyKept_step (s : Server β) (op : Op β)
    (hs : Logged s.db s.history.events ∧ HistoryKept L s.history) (hop : KeepsHistory codec L s op) :
    Logged (s.step codec op).db (s.step codec op).history.events ∧
      HistoryKept L (s.step codec op).history := by
  obtain ⟨hl, hk⟩ := hs
  refine ⟨s.logged_step codec op hl, ?_⟩
  cases op with
  | call c =>
    have hn := along_numbered codec hl (perform_commits codec s.db c)
    refine (hop.and hn).invariant (HistoryKept L) (fun h w hk hw => ?_) hk
    obtain ⟨hw, ⟨db, hl⟩, hrev⟩ := hw
    exact hk.record hw hl hrev
  | watch p start listFails =>
    have ho := hk.openShard hl hop.1 hop.2
    simp only [Server.step, Server.watch]
    split
    case h_1 c heq =>
      rw [heq] at ho
      exact ho
    case h_2 c k id heq =>
      rw [heq] at ho
      exact ho.modify (fun _ => rfl)
  | close i =>
    simp only [Server.step, Server.close]
    split
    · exact hk
    · exact hk.modify (fun _ => rfl)
  | gc k id =>
    simp only [Server.step, Cache.idleGc]
    split_ifs
    · exact hk.tearDown k
    · exact hk
  | evict p =>
    exact run_invariant (fun c => HistoryKept L { s.history with cache := c })
      (fun c k (hk : HistoryKept L { s.history with cache := c }) => hk.tearDown k) _ hk

theorem historyKept_run (hk : Along (Server.step codec) (KeepsHistory codec L) Server.new ops) :
    HistoryKept L (run (Server.step codec) Server.new ops).history := by
  have hnew : HistoryKept L (History.empty : History β) := by
    constructor <;> simp [History.empty, Cache.empty, Cache.shardAt]
  exact (hk.invariant (fun s : Server β => Logged s.db s.history.events ∧ HistoryKept L s.history)
    (historyKept_step codec) ⟨Logged.new, hnew⟩).2

theorem Covers.catches_up (hl : Logged db events) (hc : Covers events k b) (hpk : startsWith p k)
    (h0 : 0 < start) (hstart : b.horizon ≤ start) (hu : startsWith key p) :
    applyEvents (objectsAt events start)
      (b.ring.filter (fun e => startsWith e.key p && decide (start < e.revision))) key = db.current key := by
  have hsorted := hc.sorted.filter (fun e => startsWith e.key p && decide (start < e.revision))
  rw [hl.current_eq]
  refine replay_catches_up hl.sorted ?_ ?_
  · intro e he hr
    obtain ⟨d, hd, hsame⟩ | hle := hc.complete key e (startsWith_trans hu hpk) he
    · have hkey : d.key = key := hsame.key.trans (lastFor_mem he).2
      refine ⟨d, lastFor_of_newest hsorted ?_ hkey ?_, hsame.value⟩
      · rw [mem_filter]
        refine ⟨hd, ?_⟩
        simp only [Bool.and_eq_true, decide_eq_true_eq]
        exact ⟨hkey ▸ hu, hsame.revision ▸ hr⟩
      · intro d' hd' hk'
        obtain ⟨e', he', hs'⟩ := hc.sound d' (mem_of_mem_filter hd')
        rw [hs'.revision, hsame.revision]
        exact lastFor_newest hl.sorted he e' he' (hs'.key ▸ hk')
    · omega
  · intro hold
    refine lastFor_eq_none.mpr (fun d hd hk' => ?_)
    rw [mem_filter] at hd
    obtain ⟨e', he', hs'⟩ := hc.sound d hd.1
    obtain ⟨e, he⟩ := exists_lastFor InternalEvent.key he'
    have hkey : e'.key = key := hs'.key ▸ hk'
    have hle := lastFor_newest hl.sorted he e' he' rfl
    have hnew := hold e (hkey ▸ he)
    have hgt : start < d.revision := by simpa using (Bool.and_eq_true_iff.mp hd.2).2
    have := hs'.revision
    omega

/-- A watch opened after a run, unless it is to start over, brings a client from the objects at its start revision
to the objects that exist. -/
theorem open_watch_catches_up (L : Layout) (ops : List (Op β))
    (hk : Along (Server.step codec) (KeepsHistory codec L) Server.new ops) (p : String) (start : ℕ)
    (hw : KeepsHistory codec L (run (Server.step codec) Server.new ops) (.watch p start false))
    (h0 : 0 < start) :
    ∃ out, ((run (Server.step codec) Server.new ops).watch p start false).2 = some out ∧
      ((∀ horizon, .compacted start horizon ∉ out) → ∀ key, startsWith key p →
        clientState (objectsAt (run (Server.step codec) Server.new ops).history.events start) out key =
          (run (Server.step codec) Server.new ops).db.current key) := by
  have hl := Server.logged_run codec ops
  have hkept := (historyKept_run codec hk).openShard hl hw.1 hw.2
  set s := run (Server.step codec) Server.new ops
  obtain ⟨c, k, id, heq, hlook, hk⟩ := s.history.cache.openShard_some s.db p
  rw [heq] at hkept
  have hshard : c.shardAt k = some (c.heap id) := Cache.shardAt_of_lookup hlook
  have hcov : Covers s.history.events k (c.heap id).toBuffer := hkept.covers k _ hshard
  have hpk : startsWith p k := hw.1.startsWith_found (hkept.live k _ hshard) hk
  refine ⟨c.historical id p start, by simp [Server.watch, heq], fun hnc key hu => ?_⟩
  rw [Cache.historical] at hnc ⊢
  split_ifs at hnc ⊢ with hexp
  · exact absurd (mem_append_right _ (mem_singleton_self _)) (hnc (c.heap id).horizon)
  · rw [clientState_map]
    exact hcov.catches_up hl hpk h0 (by omega) hu

def watchedDelete : List (Op (Option Json)) :=
  [.call (.put "/registry/configmaps/a/x" (configMap "a" "x") (some 0) []),
   .watch "/registry/configmaps/a/" 1 false,
   .call (.delete "/registry/configmaps/a/x" none [])]

theorem watchedDelete_keeps :
    Along (Server.step JsonCodec.parsed) (KeepsHistory JsonCodec.parsed configMaps) Server.new
      watchedDelete := by
  have hroot : configMaps.IsRoot "/registry/configmaps/" := ⟨_, rfl, by decide⟩
  have hd : Along (Server.step JsonCodec.parsed) (fun s op => (match op with
      | .call c => decide (Along History.record (fun h w =>
          w.event.key = "/registry/configmaps/a/x" ∧ w.ns = some "a" ∧
            (w.event.value ≠ none ∨ h.cache.matchingShards w.root w.ns ≠ [])) s.history
          (perform JsonCodec.parsed s.db c).writes)
      | .watch p _ listFails => decide (p = "/registry/configmaps/a/" ∧ listFails = false ∧
          ∀ e ∈ s.history.events, e.value ≠ none)
      | _ => true) = true) Server.new watchedDelete := by
    decide +kernel
  refine hd.mono ?_
  rintro s (c | ⟨p, start, listFails⟩ | i | ⟨k, id⟩ | p) hop
  · refine Along.mono ?_ (of_decide_eq_true hop)
    rintro h w ⟨hk, hns, hm⟩
    refine ⟨?_, fun hu hv => ?_⟩
    · rw [hk, hns]
      exact .namespaced hroot ⟨"a", by decide, by decide⟩ ⟨"x", by decide, by decide⟩
    · obtain hm | hm := hm
      · exact absurd hv hm
      · exact absurd (Cache.unmatched_iff.mp hu) hm
  · obtain ⟨rfl, rfl, hputs⟩ := of_decide_eq_true hop
    refine ⟨.ns hroot ⟨"a", by decide, by decide⟩, fun _ key e _ _ he hv => ?_⟩
    exact absurd (hv rfl) (hputs e (lastFor_mem he).1)
  all_goals trivial

theorem open_watch_watchedDelete :
    ∃ out, ((run (Server.step JsonCodec.parsed) Server.new watchedDelete).watch
        "/registry/configmaps/a/" 1 false).2 = some out ∧
      clientState (objectsAt (run (Server.step JsonCodec.parsed) Server.new watchedDelete).history.events 1)
        out "/registry/configmaps/a/x" = none := by
  have hroot : configMaps.IsRoot "/registry/configmaps/" := ⟨_, rfl, by decide⟩
  have hlive : (run (Server.step JsonCodec.parsed) Server.new watchedDelete).history.cache.findShardKey
      "/registry/configmaps/a/" ≠ none := by decide +kernel
  have hevents : ∀ e ∈ ((run (Server.step JsonCodec.parsed) Server.new watchedDelete).watch
      "/registry/configmaps/a/" 1 false).2.getD [], e.change? ≠ none := by decide +kernel
  have hgone : (run (Server.step JsonCodec.parsed) Server.new watchedDelete).db.current
      "/registry/configmaps/a/x" = none := by decide +kernel
  obtain ⟨out, hout, hcatch⟩ := open_watch_catches_up JsonCodec.parsed configMaps watchedDelete
    watchedDelete_keeps "/registry/configmaps/a/" 1
    ⟨.ns hroot ⟨"a", by decide, by decide⟩, fun h => absurd h hlive⟩ (by decide)
  rw [hout] at hevents
  refine ⟨out, hout, ?_⟩
  rw [hcatch (fun horizon hm => hevents _ hm rfl) "/registry/configmaps/a/x" (by decide), hgone]

def unseenCreate : List (Op (Option Json)) :=
  [.call (.put "/registry/configmaps/a/x" (configMap "a" "x") (some 0) []),
   .call (.put "/registry/configmaps/a/y" (configMap "a" "y") (some 0) []),
   .call (.delete "/registry/configmaps/a/x" none [])]

theorem unfilled_shard_loses_create :
    let s := run (Server.step JsonCodec.parsed) Server.new unseenCreate
    let out := (s.watch "/registry/configmaps/" 1 false).2.getD []
    out ≠ [] ∧ (∀ e ∈ out, e.change? ≠ none) ∧
      clientState (objectsAt s.history.events 1) out "/registry/configmaps/a/y" = none ∧
      s.db.current "/registry/configmaps/a/y" ≠ none := by
  decide +kernel

end U7s.Store
