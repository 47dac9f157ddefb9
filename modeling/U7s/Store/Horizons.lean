import U7s.Store.Server

/-! A deletion is remembered by the live shards that recorded it; once these are gone, only by the floors kept for
them. -/

namespace U7s.Store

open Runs Option AList
open Text (Segment startsWith startsWith_iff)

variable {β : Type} (codec : JsonCodec β) (L : Layout)

def Cache.rootFloor (c : Cache β) (r : String) : ℕ :=
  match c.shardAt r with
  | some s => s.floor
  | none => findReclaimedHorizon c.reclaimed r

def Covered (log : List (InternalEvent β × List ℕ)) (c : Cache β) (k : String) : Prop :=
  ∀ (r : String) (n : Segment), L.IsRoot r → k = nsKey r n.text → ∀ id, c.shards.lookup k = some id →
    ∀ x ∈ log, x.1.value = none → id ∈ x.2 → x.1.revision ≤ c.rootFloor r

/-- A write is filed under its key's own namespace, and a deletion in one without a live shard finds no floor kept
for it. -/
structure RecordKeeps (h : History β) (w : Write β) : Prop where
  filed : L.Filed w.event.key w.ns
  noStale : w.event.value = none → ∀ n, w.ns = some n → h.cache.shardAt (nsKey w.root n) = none →
    h.cache.reclaimed.entries.lookup (nsKey w.root n) = none

def KeepsFloors (s : Server β) : Op β → Prop
  | .call c => Along History.record (RecordKeeps L) s.history (perform codec s.db c).writes
  | .watch p _ _ => L.IsPrefix p
  | .close _ => True
  | .gc k id => s.history.cache.shards.lookup k = some id → (s.history.cache.heap id).watchers = 0 →
      Covered L s.history.log s.history.cache k
  | .evict p => Along Cache.tearDownShard (Covered L s.history.log) s.history.cache
      (s.history.cache.rooted p)

/-- Every deletion is covered by its root's floor or in a live shard of its namespace, and a namespace's own floor
covers the deletions under it. -/
structure Floors (h : History β) : Prop where
  live : ∀ k s, h.cache.shardAt k = some s → L.IsPrefix k
  kept : ∀ k f, h.cache.reclaimed.entries.lookup k = some f → L.IsPrefix k
  bounded : ∀ x ∈ h.log, x.1.revision ≤ h.log.length
  root : ∀ r, L.IsRoot r → ∀ x ∈ h.log, x.1.value = none → startsWith x.1.key r →
    x.1.revision ≤ h.cache.rootFloor r ∨
      ∃ (n : Segment) (id : ℕ), startsWith x.1.key (nsKey r n.text) ∧
        h.cache.shards.lookup (nsKey r n.text) = some id ∧ id ∈ x.2
  nsLive : ∀ (r : String) (n : Segment), L.IsRoot r → ∀ s, h.cache.shardAt (nsKey r n.text) = some s →
    ∀ x ∈ h.log, x.1.value = none → startsWith x.1.key (nsKey r n.text) → x.1.revision ≤ s.floor
  nsKept : ∀ (r : String) (n : Segment), L.IsRoot r → h.cache.shardAt (nsKey r n.text) = none →
    ∀ f, h.cache.reclaimed.entries.lookup (nsKey r n.text) = some f →
    ∀ x ∈ h.log, x.1.value = none → startsWith x.1.key (nsKey r n.text) → x.1.revision ≤ f

variable {L}

def ReclaimedHorizons.value (rh : ReclaimedHorizons) (k : String) : ℕ :=
  (rh.entries.lookup k).getD rh.overflow

theorem findReclaimedHorizon_root (hr : L.IsRoot r) (hk : ∀ k f, rh.entries.lookup k = some f → L.IsPrefix k) :
    findReclaimedHorizon rh r = rh.value r := by
  obtain ⟨q, hq, hn⟩ := hr.parent
  have hnone : rh.entries.lookup q = none := by
    rw [eq_none_iff_forall_ne_some]
    exact fun f hf => hn (hk q f hf)
  unfold findReclaimedHorizon ReclaimedHorizons.value
  cases rh.entries.lookup r with
  | some f => rfl
  | none => simp [hq, hnone]

theorem findReclaimedHorizon_ns (hr : L.IsRoot r) (n : Segment) :
    findReclaimedHorizon rh (nsKey r n.text) =
      (rh.entries.lookup (nsKey r n.text)).getD (rh.value r) := by
  unfold findReclaimedHorizon ReclaimedHorizons.value
  rw [hr.parent_ns n, bind_some]
  cases rh.entries.lookup (nsKey r n.text) with
  | some f => rfl
  | none => cases rh.entries.lookup r <;> rfl

theorem foldVictim_spec (rh : ReclaimedHorizons) (k : String) :
    (∀ f, (foldVictim rh).entries.lookup k = some f → rh.entries.lookup k = some f) ∧
      rh.value k ≤ (foldVictim rh).value k := by
  unfold foldVictim
  split_ifs
  · exact ⟨fun _ h => h, le_rfl⟩
  cases hv : rh.entries.entries.argmin (fun e => e.2) with
  | none => exact ⟨fun _ h => h, le_rfl⟩
  | some victim =>
    have hm : rh.entries.lookup victim.1 = some victim.2 :=
      mem_lookup_iff.mpr (List.argmin_mem hv)
    refine ⟨fun f hf => Cache.lookup_of_erase hf, ?_⟩
    simp only [ReclaimedHorizons.value]
    by_cases hk : k = victim.1
    · subst hk
      simp [hm]
    · rw [lookup_erase_ne hk]
      cases rh.entries.lookup k with
      | none => exact le_max_left _ _
      | some f => exact le_rfl

theorem preserve_spec (rh : ReclaimedHorizons) (k : String) (s : RingShard β) :
    s.floor ≤ (preserveReclaimedHorizon rh k s).value k ∧
    (∀ f, (preserveReclaimedHorizon rh k s).entries.lookup k = some f → s.floor ≤ f) ∧
    ∀ k', k' ≠ k → rh.value k' ≤ (preserveReclaimedHorizon rh k s).value k' ∧
      ∀ f, (preserveReclaimedHorizon rh k s).entries.lookup k' = some f → rh.entries.lookup k' = some f := by
  unfold preserveReclaimedHorizon
  split_ifs with h0
  · rw [h0]
    exact ⟨Nat.zero_le _, fun _ _ => Nat.zero_le _, fun k' _ => ⟨le_rfl, fun _ h => h⟩⟩
  · obtain ⟨h1, h2⟩ := foldVictim_spec { rh with entries := rh.entries.insert k s.floor } k
    refine ⟨le_trans (by simp [ReclaimedHorizons.value]) h2, ?_, ?_⟩
    · intro f hf
      have hf' := h1 f hf
      simp only [lookup_insert, some.injEq] at hf'
      exact hf'.le
    · intro k' hk
      obtain ⟨h1', h2'⟩ := foldVictim_spec { rh with entries := rh.entries.insert k s.floor } k'
      refine ⟨le_trans ?_ h2', fun f hf => ?_⟩
      · simp [ReclaimedHorizons.value, lookup_insert_ne hk]
      · simpa [lookup_insert_ne hk] using h1' f hf

namespace Floors

variable {h : History β} {k : String}

theorem rootFloor_dead (hf : Floors L h) (hr : L.IsRoot r) (hd : h.cache.shardAt r = none) :
    h.cache.rootFloor r = h.cache.reclaimed.value r := by
  rw [Cache.rootFloor, hd]
  exact findReclaimedHorizon_root hr hf.kept

theorem tearDown (hf : Floors L h) (hc : Covered L h.log h.cache k) : Floors L (h.tearDown k) := by
  cases hs : h.cache.shardAt k with
  | none =>
    have he : h.tearDown k = h := by simp [History.tearDown, Cache.tearDownShard, hs]
    rw [he]
    exact hf
  | some s =>
    obtain ⟨hk₁, hk₂, hother⟩ := preserve_spec h.cache.reclaimed k s
    have hat := Cache.shardAt_tearDown h.cache k
    have hcache : h.cache.tearDownShard k =
        h.cache.remove k (preserveReclaimedHorizon h.cache.reclaimed k s) := by
      simp [Cache.tearDownShard, hs]
    have hrec : (h.tearDown k).cache.reclaimed = preserveReclaimedHorizon h.cache.reclaimed k s := by
      simp only [History.tearDown, hcache]
      rfl
    have hlook : ∀ k', k' ≠ k → (h.tearDown k).cache.shards.lookup k' = h.cache.shards.lookup k' := by
      intro k' hk
      simp only [History.tearDown, hcache]
      exact lookup_erase_ne hk
    have hkept : ∀ k' f, (h.tearDown k).cache.reclaimed.entries.lookup k' = some f → L.IsPrefix k' := by
      intro k' f hf'
      by_cases hk : k' = k
      · exact hk ▸ hf.live k s hs
      · rw [hrec] at hf'
        exact hf.kept k' f ((hother k' hk).2 f hf')
    -- the floor of a root never falls
    have hroot : ∀ r, L.IsRoot r → h.cache.rootFloor r ≤ (h.tearDown k).cache.rootFloor r := by
      intro r hr
      by_cases hrk : r = k
      · subst hrk
        have hdead : (h.tearDown r).cache.shardAt r = none := (hat r).trans (if_pos rfl)
        rw [Cache.rootFloor, hs, Cache.rootFloor, hdead]
        rw [findReclaimedHorizon_root hr hkept, hrec]
        exact hk₁
      · have hsame : (h.tearDown k).cache.shardAt r = h.cache.shardAt r := (hat r).trans (if_neg hrk)
        rw [Cache.rootFloor, Cache.rootFloor, hsame]
        cases h.cache.shardAt r with
        | some t => exact le_rfl
        | none =>
          rw [findReclaimedHorizon_root hr hf.kept, findReclaimedHorizon_root hr hkept, hrec]
          exact (hother r hrk).1
    refine ⟨?_, hkept, hf.bounded, ?_, ?_, ?_⟩
    · intro k' t ht
      have ht' := (hat k').symm.trans ht
      split_ifs at ht' with hk
      exact hf.live k' t ht'
    · intro r hr x hx hd hu
      obtain hle | ⟨n, id', hn, hl, hm⟩ := hf.root r hr x hx hd hu
      · exact .inl (hle.trans (hroot r hr))
      · by_cases hk : nsKey r n.text = k
        · have := hc r n hr hk.symm id' (hk ▸ hl) x hx hd hm
          exact .inl (this.trans (hroot r hr))
        · exact .inr ⟨n, id', hn, (hlook _ hk).trans hl, hm⟩
    · intro r n hr t ht x hx hd hu
      have ht' := (hat _).symm.trans ht
      split_ifs at ht' with hk
      exact hf.nsLive r n hr t ht' x hx hd hu
    · intro r n hr hdead f hf' x hx hd hu
      rw [hrec] at hf'
      by_cases hk : nsKey r n.text = k
      · exact (hf.nsLive r n hr s (hk ▸ hs) x hx hd hu).trans (hk₂ f (hk ▸ hf'))
      · have hdead' := (hat _).symm.trans hdead
        rw [if_neg hk] at hdead'
        exact hf.nsKept r n hr hdead' f ((hother _ hk).2 f hf') x hx hd hu

theorem modify (hf : Floors L h) {id : ℕ} (hle : (h.cache.heap id).floor ≤ (f (h.cache.heap id)).floor) :
    Floors L { h with cache := h.cache.modify id f } := by
  -- every live shard is still live, with a floor at least as high
  have hat : ∀ k, ((h.cache.shardAt k = none ∧ (h.cache.modify id f).shardAt k = none) ∨
      ∃ s t, h.cache.shardAt k = some s ∧ (h.cache.modify id f).shardAt k = some t ∧
        s.floor ≤ t.floor) := by
    intro k
    rw [Cache.shardAt_modify]
    cases hs : h.cache.shardAt k with
    | none => simp
    | some s =>
      right
      split_ifs with hl
      · refine ⟨s, f s, rfl, rfl, ?_⟩
        rw [Cache.shardAt_of_lookup hl, some_inj] at hs
        exact hs ▸ hle
      · exact ⟨s, s, rfl, rfl, le_rfl⟩
  refine ⟨?_, hf.kept, hf.bounded, ?_, ?_, ?_⟩
  · intro k t ht
    obtain ⟨-, hn⟩ | ⟨s, -, hs, -, -⟩ := hat k
    · exact absurd (hn.symm.trans ht) (by simp)
    · exact hf.live k s hs
  · intro r hr x hx hd hu
    obtain hle' | hlive := hf.root r hr x hx hd hu
    · refine .inl (hle'.trans ?_)
      obtain ⟨hn, hn'⟩ | ⟨s, t, hs, ht, hst⟩ := hat r
      · simp [Cache.rootFloor, hn, hn']
      · simpa [Cache.rootFloor, hs, ht] using hst
    · exact .inr hlive
  · intro r n hr t ht x hx hd hu
    obtain ⟨-, hn⟩ | ⟨s, t', hs, ht', hst⟩ := hat (nsKey r n.text)
    · exact absurd (hn.symm.trans ht) (by simp)
    · obtain rfl := some_inj.mp (ht'.symm.trans ht)
      exact (hf.nsLive r n hr s hs x hx hd hu).trans hst
  · intro r n hr hdead g hg x hx hd hu
    obtain ⟨hn, -⟩ | ⟨s, t', -, ht', -⟩ := hat (nsKey r n.text)
    · exact hf.nsKept r n hr hn g hg x hx hd hu
    · exact absurd (ht'.symm.trans hdead) (by simp)

theorem ns_unique (hr : L.IsRoot r) {n' : Segment} (hn : startsWith key (nsKey r n.text))
    (hn' : startsWith key (nsKey r n'.text)) : n = n' := by
  obtain ⟨p, hp, rfl⟩ := hr
  rw [← dir_concat, startsWith_iff] at hn hn'
  have h : p ++ [n] = p ++ [n'] := by
    obtain hpre | hpre := List.prefix_or_prefix_of_prefix hn hn'
    · exact (startsWith_dir.mp (startsWith_iff.mpr hpre)).eq_of_length (by simp)
    · exact ((startsWith_dir.mp (startsWith_iff.mpr hpre)).eq_of_length (by simp)).symm
  simpa using h

theorem seeded (hf : Floors L h) (hr : L.IsRoot r) (n : Segment)
    (hdead : h.cache.shardAt (nsKey r n.text) = none) (hr0 : h.cache.shardAt r = none)
    (hx : x ∈ h.log) (hd : x.1.value = none) (hu : startsWith x.1.key (nsKey r n.text)) :
    x.1.revision ≤ findReclaimedHorizon h.cache.reclaimed (nsKey r n.text) := by
  rw [findReclaimedHorizon_ns hr]
  cases he : h.cache.reclaimed.entries.lookup (nsKey r n.text) with
  | some f => exact hf.nsKept r n hr hdead f he x hx hd hu
  | none =>
    rw [← hf.rootFloor_dead hr hr0]
    obtain hle | ⟨n', id, hn', hl, -⟩ := hf.root r hr x hx hd (startsWith_trans hu (startsWith_nsKey r _))
    · exact hle
    · obtain rfl := ns_unique hr hu hn'
      exact absurd hl (by simp [Cache.shardAt_eq_none.mp hdead])

theorem floor_le_backfill (f : ℕ) (es : List (InternalEvent β)) :
    (RingShard.new f : RingShard β).floor ≤ (es.foldl pushIntoShard (.new f)).floor := by
  have hh : ∀ s : RingShard β, s.horizon ≤ (es.foldl pushIntoShard s).horizon := by
    induction es with
    | nil => exact fun s => le_rfl
    | cons e es ih => exact fun s => (s.horizon_le_pushRing e).trans (ih (pushIntoShard s e))
  have h0 : (RingShard.new f : RingShard β).floor = f := by simp [RingShard.floor, RingShard.new]
  rw [h0]
  exact (hh (.new f)).trans (le_max_left _ _)

theorem getOrCreate (hf : Floors L h) (hk : L.IsPrefix k) (hdead : h.cache.shardAt k = none)
    (hparent : ∀ (r : String) (n : Segment), L.IsRoot r → k = nsKey r n.text → h.cache.shardAt r = none) :
    Floors L { h with cache := (h.cache.getOrCreateShard k).1 } := by
  have hat := Cache.shardAt_getOrCreate h.cache k
  have hrec := Cache.reclaimed_getOrCreate_of_dead hdead
  have hnew : h.cache.shardOrNew k = .new (findReclaimedHorizon h.cache.reclaimed k) := by
    simp [Cache.shardOrNew, hdead]
  have hfloor : (RingShard.new (findReclaimedHorizon h.cache.reclaimed k) : RingShard β).floor =
      findReclaimedHorizon h.cache.reclaimed k := by
    simp [RingShard.floor, RingShard.new]
  have hkept : ∀ k' f, (h.cache.getOrCreateShard k).1.reclaimed.entries.lookup k' = some f →
      L.IsPrefix k' := by
    intro k' f hf'
    rw [hrec] at hf'
    exact hf.kept k' f (Cache.lookup_of_erase hf')
  have hroot : ∀ r, L.IsRoot r →
      (h.cache.getOrCreateShard k).1.rootFloor r = h.cache.rootFloor r := by
    intro r hr
    rw [Cache.rootFloor, hat]
    by_cases hrk : r = k
    · subst hrk
      rw [if_pos rfl, hnew]
      dsimp only
      rw [hfloor, Cache.rootFloor, hdead]
    · rw [if_neg hrk, Cache.rootFloor]
      cases h.cache.shardAt r with
      | some s => rfl
      | none =>
        rw [findReclaimedHorizon_root hr hf.kept, findReclaimedHorizon_root hr hkept, hrec,
          ReclaimedHorizons.value, ReclaimedHorizons.value, lookup_erase_ne hrk]
  refine ⟨?_, hkept, hf.bounded, ?_, ?_, ?_⟩
  · intro k' t ht
    have ht' := (hat k').symm.trans ht
    split_ifs at ht' with hk'
    · exact hk' ▸ hk
    · exact hf.live k' t ht'
  · intro r hr x hx hd hu
    obtain hle | ⟨n, id, hn, hl, hm⟩ := hf.root r hr x hx hd hu
    · exact .inl (hle.trans (hroot r hr).ge)
    · refine .inr ⟨n, id, hn, ?_, hm⟩
      have hne : nsKey r n.text ≠ k := by
        rintro rfl
        simp [Cache.shardAt_eq_none.mp hdead] at hl
      exact (Cache.lookup_getOrCreate_ne hne).trans hl
  · intro r n hr t ht x hx hd hu
    have ht' := (hat _).symm.trans ht
    split_ifs at ht' with hk'
    · rw [hnew, some_inj] at ht'
      rw [← ht', hfloor, ← hk']
      exact hf.seeded hr n (hk' ▸ hdead) (hparent r n hr hk'.symm) hx hd hu
    · exact hf.nsLive r n hr t ht' x hx hd hu
  · intro r n hr hdead' f hf' x hx hd hu
    have hd' := (hat _).symm.trans hdead'
    split_ifs at hd' with hk'
    have hf'' : (h.cache.getOrCreateShard k).1.reclaimed.entries.lookup (nsKey r n.text) = some f := hf'
    rw [hrec, lookup_erase_ne hk'] at hf''
    exact hf.nsKept r n hr hd' f hf'' x hx hd hu

theorem record (hf : Floors L h) (hw : RecordKeeps L h w) (hrev : w.event.revision = h.log.length + 1) :
    Floors L (h.record w) := by
  have hbound : ∀ x ∈ (h.record w).log, x.1.revision ≤ h.log.length + 1 := by
    intro x hx
    simp only [History.record, List.mem_append, List.mem_singleton] at hx
    obtain hx | rfl := hx
    · exact (hf.bounded x hx).trans (Nat.le_succ _)
    · exact hrev.le
  -- a shard that has recorded the write covers everything so far
  have hfresh : ∀ x ∈ (h.record w).log, ∀ t : RingShard β,
      x.1.revision ≤ (pushIntoShard t w.event).floor := by
    intro x hx t
    rw [pushIntoShard_floor]
    exact (hbound x hx).trans (hrev ▸ le_max_right _ _)
  have hnew : ∀ {x : InternalEvent β × List ℕ}, x ∈ (h.record w).log →
      x ∈ h.log ∨ x = (w.event, (h.cache.targets w).2) := by
    intro x hx
    simpa [History.record] using hx
  have hkept : ∀ k f, (h.record w).cache.reclaimed.entries.lookup k = some f → L.IsPrefix k :=
    fun k f hf' => hf.kept k f (Cache.entries_pushEventLocked hf')
  refine ⟨?_, hkept, by simpa [History.record] using hbound, ?_, ?_, ?_⟩
  · intro k s hs
    obtain ⟨hk, -⟩ | ⟨-, hs⟩ := Cache.shardAt_pushEventLocked_some hs
    · exact hw.filed.home_isPrefix hk
    · exact hf.live k s hs
  · intro r hr x hx hd hu
    cases hs : (h.record w).cache.shardAt r with
    | some s =>
      obtain ⟨-, t, rfl, -⟩ | ⟨hk, hs'⟩ := Cache.shardAt_pushEventLocked_some hs
      · left
        rw [Cache.rootFloor, hs]
        exact hfresh x hx t
      · obtain hx | rfl := hnew hx
        · obtain hle | ⟨n, id, hn, hl, hm⟩ := hf.root r hr x hx hd hu
          · left
            rw [Cache.rootFloor, hs'] at hle
            rwa [Cache.rootFloor, hs]
          · exact .inr ⟨n, id, hn, Cache.lookup_pushEventLocked hl, hm⟩
        · exact absurd ((hw.filed.home_iff (.root hr)).mp hu) hk
    | none =>
      obtain ⟨he, ho⟩ := Cache.reclaimed_pushEventLocked_none hs
      have hold := Cache.shardAt_of_pushEventLocked_none hs
      obtain hx | rfl := hnew hx
      · obtain hle | ⟨n, id, hn, hl, hm⟩ := hf.root r hr x hx hd hu
        · left
          rw [hf.rootFloor_dead hr hold] at hle
          rw [Cache.rootFloor, hs]
          rw [findReclaimedHorizon_root hr hkept]
          exact hle.trans (by rw [ReclaimedHorizons.value, ← he, ← ho]; rfl)
        · exact .inr ⟨n, id, hn, Cache.lookup_pushEventLocked hl, hm⟩
      · right
        obtain rfl : r = w.root := hw.filed.home_root hr ((hw.filed.home_iff (.root hr)).mp hu)
        obtain ⟨n, id, hns, hl, hm⟩ := Cache.delete_recorded hd hs
        obtain ⟨n, rfl⟩ := hw.filed.exists_segment hns
        have hp : L.IsPrefix (nsKey w.root n.text) := .ns hr n
        exact ⟨n, id, (hw.filed.home_iff hp).mpr (.inr (by rw [hns]; rfl)), hl, hm⟩
  · intro r n hr s hs x hx hd hu
    obtain ⟨-, t, rfl, -⟩ | ⟨hk, hs'⟩ := Cache.shardAt_pushEventLocked_some hs
    · exact hfresh x hx t
    · obtain hx | rfl := hnew hx
      · exact hf.nsLive r n hr s hs' x hx hd hu
      · exact absurd ((hw.filed.home_iff (.ns hr n)).mp hu) hk
  · intro r n hr hs f hf' x hx hd hu
    have hold := Cache.shardAt_of_pushEventLocked_none hs
    have hentry := Cache.entries_pushEventLocked hf'
    obtain hx | rfl := hnew hx
    · exact hf.nsKept r n hr hold f hentry x hx hd hu
    · obtain hk | hk := (hw.filed.home_iff (.ns hr n)).mp hu
      · exact absurd hk.symm (hw.filed.shardKey_root.ne_ns hr n)
      · obtain ⟨m, hm, hk⟩ := map_eq_some_iff.mp hk
        have hno := hw.noStale hd m hm
        rw [hk] at hno
        exact absurd hentry (by simp [hno hold])

theorem openShard (hf : Floors L h) (db : Db β) (hp : L.IsPrefix p) (listFails : Bool) :
    Floors L { h with cache := (h.cache.openShard db p listFails).1 } := by
  unfold Cache.openShard
  cases hfound : h.cache.findShardKey p with
  | some found => exact hf
  | none =>
    obtain ⟨hdead, hparent⟩ := Cache.findShardKey_eq_none.mp hfound
    have hcreated := hf.getOrCreate hp hdead (by
      rintro r n hr rfl
      exact hparent r (hr.parent_ns n))
    dsimp only
    split_ifs with hfail
    · exact hcreated
    · rw [Cache.backfill_eq_modify]
      dsimp only
      refine hcreated.modify ?_
      -- a fresh shard's floor is its horizon, which the backfill can only raise
      have hs : (h.cache.getOrCreateShard p).1.heap (h.cache.getOrCreateShard p).2 =
          .new (findReclaimedHorizon h.cache.reclaimed p) := by
        have hat := Cache.shardAt_getOrCreate h.cache p p
        rw [Cache.shardAt_of_lookup (Cache.lookup_getOrCreate h.cache p)] at hat
        simpa [Cache.shardOrNew, hdead] using hat
      rw [hs]
      exact floor_le_backfill _ _

end Floors

theorem floors_step (s : Server β) (op : Op β)
    (hs : Logged s.db s.history.events ∧ Floors L s.history) (hop : KeepsFloors codec L s op) :
    Logged (s.step codec op).db (s.step codec op).history.events ∧ Floors L (s.step codec op).history := by
  obtain ⟨hl, hf⟩ := hs
  refine ⟨s.logged_step codec op hl, ?_⟩
  cases op with
  | call c =>
    have hn := along_numbered codec hl (perform_commits codec s.db c)
    exact (hop.and hn).invariant (Floors L) (fun h w hf hw => hf.record hw.1 hw.2.2) hf
  | watch p start listFails =>
    have ho := hf.openShard s.db hop listFails
    simp only [Server.step, Server.watch]
    split
    case h_1 c heq =>
      rw [heq] at ho
      exact ho
    case h_2 c k id heq =>
      rw [heq] at ho
      exact ho.modify le_rfl
  | close i =>
    simp only [Server.step, Server.close]
    split
    · exact hf
    · exact hf.modify le_rfl
  | gc k id =>
    simp only [Server.step, Cache.idleGc]
    split_ifs with hc
    · exact hf.tearDown (hop hc.1 hc.2)
    · exact hf
  | evict p =>
    have hrun := Along.invariant (fun c => Floors L { s.history with cache := c })
      (fun c k (hf : Floors L { s.history with cache := c }) hc => hf.tearDown hc) hf hop
    exact hrun

theorem floors_run (hk : Along (Server.step codec) (KeepsFloors codec L) Server.new ops) :
    Floors L (run (Server.step codec) Server.new ops).history := by
  have hnew : Floors L (History.empty : History β) := by
    constructor <;> simp [History.empty, Cache.empty, Cache.shardAt]
  exact (hk.invariant (fun s : Server β => Logged s.db s.history.events ∧ Floors L s.history)
    (floors_step codec) ⟨Logged.new, hnew⟩).2

/-- The revision below which a prefix without a live shard is expired is at least that of every deletion under it
that only torn-down shards had. -/
theorem reclaimed_horizons_sound (L : Layout) (ops : List (Op β))
    (hk : Along (Server.step codec) (KeepsFloors codec L) Server.new ops) (p : String) (hp : L.IsPrefix p)
    (hdead : (run (Server.step codec) Server.new ops).history.cache.findShard p = none)
    (x : InternalEvent β × List ℕ) (hx : x ∈ (run (Server.step codec) Server.new ops).history.log)
    (hd : x.1.value = none) (hu : startsWith x.1.key p)
    (hgone : ∀ id ∈ x.2, ∀ k,
      (run (Server.step codec) Server.new ops).history.cache.shards.lookup k ≠ some id) :
    x.1.revision ≤ (run (Server.step codec) Server.new ops).history.cache.compactionHorizonFor p ∧
    ∀ start, start < x.1.revision →
      start < (run (Server.step codec) Server.new ops).history.cache.compactionHorizonFor p := by
  have hf := floors_run codec hk
  set h := (run (Server.step codec) Server.new ops).history
  have hle : x.1.revision ≤ h.cache.compactionHorizonFor p := by
    rw [Cache.findShard_eq, map_eq_none_iff, Cache.findShardKey_eq_none] at hdead
    have hfind : h.cache.findShard p = none := by
      rw [Cache.findShard_eq, Cache.findShardKey_eq_none.mpr hdead, map_none]
    rw [Cache.compactionHorizonFor, hfind]
    cases hp with
    | root hr =>
      rw [findReclaimedHorizon_root hr hf.kept, ← hf.rootFloor_dead hr hdead.1]
      obtain hle | ⟨n, id, -, hl, hm⟩ := hf.root p hr x hx hd hu
      · exact hle
      · exact absurd hl (hgone id hm _)
    | ns hr n => exact hf.seeded hr n hdead.1 (hdead.2 _ (hr.parent_ns n)) hx hd hu
  exact ⟨hle, fun start hs => hs.trans_le hle⟩

def unwatchedDelete : List (Op (Option Json)) :=
  [.call (.put "/registry/configmaps/a/x" (configMap "a" "x") (some 0) []),
   .call (.delete "/registry/configmaps/a/x" none []),
   .gc "/registry/configmaps/" 0]

theorem unwatchedDelete_keeps :
    Along (Server.step JsonCodec.parsed) (KeepsFloors JsonCodec.parsed configMaps) Server.new unwatchedDelete := by
  have hroot : configMaps.IsRoot "/registry/configmaps/" := ⟨_, rfl, by decide⟩
  have hd : Along (Server.step JsonCodec.parsed) (fun s op => (match op with
      | .call c => decide (Along History.record (fun h w =>
          w.event.key = "/registry/configmaps/a/x" ∧ w.ns = some "a" ∧
            h.cache.reclaimed.entries.lookup (nsKey w.root "a") = none) s.history
          (perform JsonCodec.parsed s.db c).writes)
      | .gc k _ => decide (k = "/registry/configmaps/")
      | _ => false) = true) Server.new unwatchedDelete := by
    decide +kernel
  refine hd.mono ?_
  rintro s (c | ⟨p, start, listFails⟩ | i | ⟨k, id⟩ | p) hop
  · refine Along.mono ?_ (of_decide_eq_true hop)
    rintro h w ⟨hk, hns, hnone⟩
    refine ⟨?_, ?_⟩
    · rw [hk, hns]
      exact .namespaced hroot ⟨"a", by decide, by decide⟩ ⟨"x", by decide, by decide⟩
    · intro _ n hn _
      obtain rfl := some_inj.mp (hns.symm.trans hn)
      exact hnone
  · exact absurd hop (by simp)
  · exact absurd hop (by simp)
  · rintro - - r n hr hk
    exact absurd ((of_decide_eq_true hop).symm.trans hk) (hroot.ne_ns hr n)
  · exact absurd hop (by simp)

theorem reclaimed_horizons_configMaps :
    2 ≤ (run (Server.step JsonCodec.parsed) Server.new unwatchedDelete).history.cache.compactionHorizonFor
      "/registry/configmaps/" := by
  have hempty : (run (Server.step JsonCodec.parsed) Server.new unwatchedDelete).history.cache.shards.entries
      = [] := by decide +kernel
  obtain ⟨x, hx, hd, hu, hr⟩ : ∃ x ∈ (run (Server.step JsonCodec.parsed) Server.new
      unwatchedDelete).history.log, x.1.value = none ∧ startsWith x.1.key "/registry/configmaps/" ∧
      x.1.revision = 2 := by decide +kernel
  have hgone : ∀ k, (run (Server.step JsonCodec.parsed) Server.new
      unwatchedDelete).history.cache.shards.lookup k = none := by
    intro k
    rw [lookup_eq_none, mem_keys, keys, hempty]
    simp
  rw [← hr]
  refine (reclaimed_horizons_sound JsonCodec.parsed configMaps unwatchedDelete unwatchedDelete_keeps _
    (.root ⟨_, rfl, by decide⟩) ?_ x hx hd hu (fun id _ k => by simp [hgone])).1
  rw [Cache.findShard_eq, map_eq_none_iff, Cache.findShardKey_eq_none]
  exact ⟨Cache.shardAt_eq_none.mpr (hgone _), fun q _ => Cache.shardAt_eq_none.mpr (hgone q)⟩

def namespaceDelete : List (Op (Option Json)) :=
  [.call (.put "/registry/configmaps/a/x" (configMap "a" "x") (some 0) []),
   .watch "/registry/configmaps/a/" 1 false,
   .call (.delete "/registry/configmaps/a/x" none []),
   .close 0,
   .gc "/registry/configmaps/a/" 0]

theorem namespace_floor_hidden :
    let s := run (Server.step JsonCodec.parsed) Server.new namespaceDelete
    s.history.cache.shards.entries = [] ∧
    ∃ x ∈ s.history.log, x.1.value = none ∧ startsWith x.1.key "/registry/configmaps/" = true ∧
      s.history.cache.compactionHorizonFor "/registry/configmaps/" < x.1.revision := by
  decide +kernel

end U7s.Store
