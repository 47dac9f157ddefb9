import U7s.Lib.Lists
import U7s.Lib.Runs
import U7s.Store.Shard

/-! The deletion log of a shard: the tombstones it has are those of the deletions that were always among the most
recent ones not undone. -/

namespace U7s.Store

open Ring (recent)
open Runs List

variable {β : Type}

structure Ground where
  live : Set String
  revision : ℕ

def Ground.after (g : Ground) (e : InternalEvent β) : Ground :=
  match e.value with
  | none => ⟨g.live \ {e.key}, e.revision⟩
  | some _ => ⟨insert e.key g.live, e.revision⟩

def Ground.Admits (g : Ground) (e : InternalEvent β) : Prop :=
  g.revision < e.revision ∧ (e.value = none → e.key ∈ g.live)

def noteDeletion (out : List (ℕ × String)) (e : InternalEvent β) : List (ℕ × String) :=
  match e.value with
  | none => out ++ [(e.revision, e.key)]
  | some _ => out.filter (fun p => p.2 ≠ e.key)

def outstanding (es : List (InternalEvent β)) : List (ℕ × String) := es.foldl noteDeletion []

def logOf (es : List (InternalEvent β)) : DeletionLog β := es.foldl DeletionLog.record .empty

structure DeletionLog.Indexed (full cap : ℕ) (log : DeletionLog β) : Prop where
  sorted : log.byRevision.Pairwise (fun p q => p.1 < q.1)
  mem_byRevision : ∀ r k, (r, k) ∈ log.byRevision ↔ ∃ x, log.byKey.lookup k = some x ∧ x.revision = r
  fullSorted : log.fullRevisions.Pairwise (· < ·)
  mem_fullRevisions : ∀ r, r ∈ log.fullRevisions ↔ ∃ k e, log.byKey.lookup k = some (.full e) ∧ e.revision = r
  newest : ∀ k r, log.byKey.lookup k = some (.stripped r) → ∀ f ∈ log.fullRevisions, r < f
  fullBound : log.fullRevisions.length ≤ full
  bound : log.byRevision.length ≤ cap

namespace DeletionLog

variable {log : DeletionLog β} {full cap : ℕ} {e : InternalEvent β}

theorem indexed_empty : (empty : DeletionLog β).Indexed 0 0 := by
  refine ⟨.nil, ?_, .nil, ?_, ?_, le_rfl, le_rfl⟩
  · intro r k
    simp [empty]
  · intro r
    simp [empty]
  · intro k r h
    cases h

theorem Indexed.mono (h : log.Indexed full cap) (hfull : full ≤ full') (hcap : cap ≤ cap') :
    log.Indexed full' cap' :=
  { h with fullBound := h.fullBound.trans hfull, bound := h.bound.trans hcap }

theorem Indexed.revision_inj (h : log.Indexed full cap) (hk : (r, k) ∈ log.byRevision)
    (hk' : (r, k') ∈ log.byRevision) : k = k' := by
  have hnodup : (log.byRevision.map Prod.fst).Nodup := (pairwise_map.mpr h.sorted).imp (fun hlt => hlt.ne)
  exact congrArg Prod.snd (inj_on_of_nodup_map hnodup hk hk' rfl)

theorem Indexed.length_byKey (h : log.Indexed full cap) : log.byKey.entries.length = log.byRevision.length := by
  have hnodup : (log.byRevision.map Prod.snd).Nodup := by
    rw [nodup_map_iff_inj_on (h.sorted.imp (fun hlt heq => absurd (congrArg Prod.fst heq) hlt.ne))]
    rintro ⟨r, k⟩ hr ⟨r', k'⟩ hr' rfl
    obtain ⟨x, hx, rfl⟩ := (h.mem_byRevision r k).mp hr
    obtain ⟨x', hx', rfl⟩ := (h.mem_byRevision r' k).mp hr'
    rw [hx] at hx'
    rw [Option.some.inj hx']
  have hperm : (log.byRevision.map Prod.snd).Perm log.byKey.keys := by
    refine (perm_ext_iff_of_nodup hnodup log.byKey.keys_nodup).mpr (fun k => ?_)
    rw [← AList.mem_keys, ← AList.lookup_isSome, Option.isSome_iff_exists, mem_map]
    constructor
    · rintro ⟨⟨r, k'⟩, hr, rfl⟩
      obtain ⟨x, hx, -⟩ := (h.mem_byRevision r k').mp hr
      exact ⟨x, hx⟩
    · rintro ⟨x, hx⟩
      exact ⟨(x.revision, k), (h.mem_byRevision _ k).mpr ⟨x, hx, rfl⟩, rfl⟩
  have hlen := hperm.length_eq
  rw [length_map] at hlen
  rw [hlen, AList.keys, keys, length_map]

theorem byRevision_insertDeletion (hfresh : ∀ p ∈ log.byRevision, p.1 < e.revision) :
    (log.insertDeletion e).byRevision = log.byRevision ++ [(e.revision, e.key)] := by
  have hkeep : log.byRevision.filter (fun p => p.1 ≠ e.revision) = log.byRevision := by
    refine filter_eq_self.mpr (fun p hp => ?_)
    simpa using (hfresh p hp).ne
  change orderedInsert _ _ (log.byRevision.filter (fun p => p.1 ≠ e.revision)) = _
  rw [hkeep]
  exact Lists.orderedInsert_eq_append (fun p hp => not_le.mpr (hfresh p hp))

theorem fullRevisions_insertDeletion (hfresh : ∀ r ∈ log.fullRevisions, r < e.revision) :
    (log.insertDeletion e).fullRevisions = log.fullRevisions ++ [e.revision] := by
  have hkeep : log.fullRevisions.filter (· ≠ e.revision) = log.fullRevisions := by
    refine filter_eq_self.mpr (fun r hr => ?_)
    simpa using (hfresh r hr).ne
  change orderedInsert _ _ (log.fullRevisions.filter (· ≠ e.revision)) = _
  rw [hkeep]
  exact Lists.orderedInsert_eq_append (fun r hr => not_le.mpr (hfresh r hr))

theorem Indexed.full_lt (h : log.Indexed full cap) (hfresh : ∀ p ∈ log.byRevision, p.1 < n) :
    ∀ r ∈ log.fullRevisions, r < n := by
  intro r hr
  obtain ⟨k, x, hx, rfl⟩ := (h.mem_fullRevisions r).mp hr
  exact hfresh (x.revision, k) ((h.mem_byRevision _ k).mpr ⟨_, hx, rfl⟩)

theorem Indexed.insertDeletion (h : log.Indexed full cap) (hfresh : ∀ p ∈ log.byRevision, p.1 < e.revision)
    (hdead : log.byKey.lookup e.key = none) : (log.insertDeletion e).Indexed (full + 1) (cap + 1) := by
  have hfull := h.full_lt hfresh
  have hlook : ∀ k, k ≠ e.key → (log.insertDeletion e).byKey.lookup k = log.byKey.lookup k :=
    fun k hk => AList.lookup_insert_ne hk
  have hself : (log.insertDeletion e).byKey.lookup e.key = some (.full e) := AList.lookup_insert _
  constructor
  · rw [byRevision_insertDeletion hfresh]
    refine pairwise_append.mpr ⟨h.sorted, pairwise_singleton _ _, fun p hp q hq => ?_⟩
    rw [mem_singleton.mp hq]
    exact hfresh p hp
  · intro r k
    rw [byRevision_insertDeletion hfresh, mem_append, h.mem_byRevision]
    by_cases hk : k = e.key
    · subst hk
      simp [hself, hdead, DeletionLogEntry.revision, eq_comm]
    · simp [hlook k hk, hk]
  · rw [fullRevisions_insertDeletion hfull]
    refine pairwise_append.mpr ⟨h.fullSorted, pairwise_singleton _ _, fun r hr q hq => ?_⟩
    rw [mem_singleton.mp hq]
    exact hfull r hr
  · intro r
    rw [fullRevisions_insertDeletion hfull, mem_append, mem_singleton, h.mem_fullRevisions]
    constructor
    · rintro (⟨k, x, hx, hr⟩ | rfl)
      · have hk : k ≠ e.key := by
          rintro rfl
          rw [hdead] at hx
          cases hx
        exact ⟨k, x, (hlook k hk).trans hx, hr⟩
      · exact ⟨e.key, e, hself, rfl⟩
    · rintro ⟨k, x, hx, hr⟩
      by_cases hk : k = e.key
      · subst hk
        rw [hself] at hx
        cases hx
        exact .inr hr.symm
      · exact .inl ⟨k, x, (hlook k hk).symm.trans hx, hr⟩
  · intro k r hk f hf
    have hne : k ≠ e.key := by
      rintro rfl
      rw [hself] at hk
      cases hk
    rw [hlook k hne] at hk
    rw [fullRevisions_insertDeletion hfull, mem_append, mem_singleton] at hf
    obtain hf | rfl := hf
    · exact h.newest k r hk f hf
    · exact hfresh (r, k) ((h.mem_byRevision r k).mpr ⟨_, hk, rfl⟩)
  · rw [fullRevisions_insertDeletion hfull]
    simpa using h.fullBound
  · rw [byRevision_insertDeletion hfresh]
    simpa using h.bound

theorem byRevision_downgrade : log.downgrade.byRevision = log.byRevision := by
  unfold downgrade
  split
  · rfl
  · split_ifs
    · split <;> rfl
    · rfl

theorem Indexed.downgrade (h : log.Indexed (FULL_TIER_CAP + 1) cap) : log.downgrade.Indexed FULL_TIER_CAP cap := by
  unfold DeletionLog.downgrade
  split
  · next hnil => exact { h with fullBound := by rw [hnil]; exact Nat.zero_le _ }
  · next r rest hfull =>
    split_ifs with hover
    swap
    · exact { h with fullBound := not_lt.mp hover }
    obtain ⟨key, e, he, hr⟩ := (h.mem_fullRevisions r).mp (hfull ▸ mem_cons_self)
    have hmem : (r, key) ∈ log.byRevision := (h.mem_byRevision r key).mpr ⟨_, he, hr⟩
    have hlookup : log.byRevision.lookup r = some key := by
      obtain ⟨before, rest, hsplit⟩ := append_of_mem hmem
      refine lookup_eq_some_iff.mpr ⟨before, rest, hsplit, fun p hp => ?_⟩
      have hlt := (pairwise_append.mp (hsplit ▸ h.sorted)).2.2 p hp (r, key) mem_cons_self
      simpa using hlt.ne'
    rw [hlookup]
    have hsorted := h.fullSorted
    rw [hfull] at hsorted
    obtain ⟨hleast, hrest⟩ := pairwise_cons.mp hsorted
    have hlook : ∀ k, k ≠ key → (log.byKey.insert key (.stripped r)).lookup k = log.byKey.lookup k :=
      fun k hk => AList.lookup_insert_ne hk
    have hself : (log.byKey.insert key (.stripped r)).lookup key = some (.stripped r) := AList.lookup_insert _
    constructor
    · exact h.sorted
    · intro r' k
      rw [h.mem_byRevision]
      by_cases hk : k = key
      · subst hk
        rw [he]
        simp [DeletionLogEntry.revision, hr]
      · rw [hlook k hk]
    · exact hrest
    · intro r'
      have hmem' := h.mem_fullRevisions r'
      rw [hfull, mem_cons] at hmem'
      constructor
      · intro hr'
        obtain ⟨k, x, hx, hxr⟩ := hmem'.mp (.inr hr')
        have hk : k ≠ key := by
          rintro rfl
          rw [he] at hx
          cases hx
          have := hleast r' hr'
          omega
        exact ⟨k, x, (hlook k hk).trans hx, hxr⟩
      · rintro ⟨k, x, hx, hxr⟩
        have hk : k ≠ key := by
          rintro rfl
          rw [hself] at hx
          cases hx
        rw [hlook k hk] at hx
        obtain rfl | hr' := hmem'.mpr ⟨k, x, hx, hxr⟩
        · have hkr : (r', k) ∈ log.byRevision := (h.mem_byRevision r' k).mpr ⟨_, hx, hxr⟩
          exact absurd (h.revision_inj hkr hmem) hk
        · exact hr'
    · intro k r' hk f hf
      by_cases hkey : k = key
      · subst hkey
        rw [hself] at hk
        cases hk
        exact hleast f hf
      · rw [hlook k hkey] at hk
        exact h.newest k r' hk f (hfull ▸ mem_cons_of_mem r hf)
    · have := h.fullBound
      rw [hfull] at this
      exact Nat.le_of_succ_le_succ this
    · exact h.bound

def eraseEntry (log : DeletionLog β) (r : ℕ) (key : String) : DeletionLog β :=
  ⟨log.byKey.erase key, log.byRevision.filter (fun p => p.1 ≠ r), log.fullRevisions.filter (· ≠ r)⟩

theorem Indexed.eraseEntry (h : log.Indexed full cap) (hmem : (r, key) ∈ log.byRevision) :
    (log.eraseEntry r key).Indexed full cap := by
  obtain ⟨old, hold, hr⟩ := (h.mem_byRevision r key).mp hmem
  have hlook : ∀ k, k ≠ key → (log.eraseEntry r key).byKey.lookup k = log.byKey.lookup k :=
    fun k hk => AList.lookup_erase_ne hk
  have hself : (log.eraseEntry r key).byKey.lookup key = none := AList.lookup_erase _ _
  have hrev : ∀ k x, log.byKey.lookup k = some x → (x.revision ≠ r ↔ k ≠ key) := by
    intro k x hx
    constructor
    · rintro hne rfl
      rw [hold] at hx
      cases hx
      exact hne hr
    · rintro hne rfl
      exact hne (h.revision_inj ((h.mem_byRevision _ k).mpr ⟨x, hx, rfl⟩) hmem)
  constructor
  · exact h.sorted.filter _
  · intro r' k
    have hiff : (r', k) ∈ (log.eraseEntry r key).byRevision ↔ (r', k) ∈ log.byRevision ∧ r' ≠ r := by
      simp [DeletionLog.eraseEntry]
    rw [hiff, h.mem_byRevision]
    constructor
    · rintro ⟨⟨x, hx, rfl⟩, hne⟩
      exact ⟨x, (hlook k ((hrev k x hx).mp hne)).trans hx, rfl⟩
    · rintro ⟨x, hx, rfl⟩
      have hk : k ≠ key := by
        rintro rfl
        rw [hself] at hx
        cases hx
      rw [hlook k hk] at hx
      exact ⟨⟨x, hx, rfl⟩, (hrev k x hx).mpr hk⟩
  · exact h.fullSorted.filter _
  · intro r'
    have hiff : r' ∈ (log.eraseEntry r key).fullRevisions ↔ r' ∈ log.fullRevisions ∧ r' ≠ r := by
      simp [DeletionLog.eraseEntry]
    rw [hiff, h.mem_fullRevisions]
    constructor
    · rintro ⟨⟨k, x, hx, rfl⟩, hne⟩
      exact ⟨k, x, (hlook k ((hrev k _ hx).mp hne)).trans hx, rfl⟩
    · rintro ⟨k, x, hx, rfl⟩
      have hk : k ≠ key := by
        rintro rfl
        rw [hself] at hx
        cases hx
      rw [hlook k hk] at hx
      exact ⟨⟨k, x, hx, rfl⟩, (hrev k _ hx).mpr hk⟩
  · intro k r' hk f hf
    have hne : k ≠ key := by
      rintro rfl
      rw [hself] at hk
      cases hk
    rw [hlook k hne] at hk
    exact h.newest k r' hk f (mem_of_mem_filter hf)
  · exact (length_filter_le _ _).trans h.fullBound
  · exact (length_filter_le _ _).trans h.bound

theorem Indexed.evictOldest (h : log.Indexed full (STRIPPED_TIER_CAP + 1)) :
    log.evictOldest.Indexed full STRIPPED_TIER_CAP ∧
      log.evictOldest.byRevision = recent STRIPPED_TIER_CAP log.byRevision := by
  unfold DeletionLog.evictOldest
  split
  · next hnil =>
    rw [hnil]
    exact ⟨{ h with bound := by rw [hnil]; exact Nat.zero_le _ }, rfl⟩
  · next r key rest hrev =>
    rw [h.length_byKey]
    split_ifs with hover
    · have hrest : log.byRevision.filter (fun p => p.1 ≠ r) = rest := by
        have hsorted := h.sorted
        rw [hrev] at hsorted ⊢
        rw [filter_cons_of_neg (by simp)]
        refine filter_eq_self.mpr (fun p hp => ?_)
        simpa using ((pairwise_cons.mp hsorted).1 p hp).ne'
      have herase := h.eraseEntry (hrev ▸ mem_cons_self : (r, key) ∈ log.byRevision)
      rw [DeletionLog.eraseEntry, hrest] at herase
      have hbound := h.bound
      rw [hrev, length_cons] at hover hbound
      refine ⟨{ herase with bound := by dsimp only; omega }, ?_⟩
      rw [hrev, recent, length_cons, show rest.length + 1 - STRIPPED_TIER_CAP = 1 by omega]
      rfl
    · exact ⟨{ h with bound := not_lt.mp hover }, (Ring.recent_of_le (not_lt.mp hover)).symm⟩

theorem Indexed.removeTombstone (h : log.Indexed full cap) (key : String) :
    (log.removeTombstone key).Indexed full cap ∧
      (log.removeTombstone key).byRevision = log.byRevision.filter (fun p => p.2 ≠ key) := by
  unfold DeletionLog.removeTombstone
  cases hold : log.byKey.lookup key with
  | none =>
    refine ⟨h, (filter_eq_self.mpr (fun p hp => ?_)).symm⟩
    obtain ⟨x, hx, -⟩ := (h.mem_byRevision p.1 p.2).mp hp
    have hne : p.2 ≠ key := by
      intro hk
      rw [hk, hold] at hx
      cases hx
    simpa using hne
  | some old =>
    have hmem : (old.revision, key) ∈ log.byRevision := (h.mem_byRevision _ key).mpr ⟨old, hold, rfl⟩
    refine ⟨h.eraseEntry hmem, filter_congr (fun p hp => ?_)⟩
    obtain ⟨x, hx, hxr⟩ := (h.mem_byRevision p.1 p.2).mp hp
    have hiff : p.1 ≠ old.revision ↔ p.2 ≠ key := by
      constructor
      · rintro hne rfl
        rw [hold] at hx
        cases hx
        exact hne hxr.symm
      · rintro hne heq
        exact hne (h.revision_inj (heq ▸ hp) hmem)
    simp [hiff]

structure Fits (g : Ground) (log : DeletionLog β) : Prop where
  indexed : log.Indexed FULL_TIER_CAP STRIPPED_TIER_CAP
  dead : ∀ p ∈ log.byRevision, p.2 ∉ g.live
  old : ∀ p ∈ log.byRevision, p.1 ≤ g.revision

theorem Fits.lookup_live (h : Fits g log) (hk : k ∈ g.live) : log.byKey.lookup k = none := by
  cases hx : log.byKey.lookup k with
  | none => rfl
  | some x => exact absurd hk (h.dead (x.revision, k) ((h.indexed.mem_byRevision _ k).mpr ⟨x, hx, rfl⟩))

theorem Fits.record_deletion (h : Fits g log) (he : g.Admits e) (hvalue : e.value = none) :
    Fits (g.after e) (log.record e) ∧
      (log.record e).byRevision = recent STRIPPED_TIER_CAP (log.byRevision ++ [(e.revision, e.key)]) := by
  have hfresh : ∀ p ∈ log.byRevision, p.1 < e.revision := fun p hp => (h.old p hp).trans_lt he.1
  have hinsert := h.indexed.insertDeletion hfresh (h.lookup_live (he.2 hvalue))
  obtain ⟨hindexed, hrev⟩ := hinsert.downgrade.evictOldest
  have hrecord : log.record e = (log.insertDeletion e).downgrade.evictOldest := by
    simp only [record, hvalue]
  have hafter : g.after e = ⟨g.live \ {e.key}, e.revision⟩ := by
    simp only [Ground.after, hvalue]
  rw [byRevision_downgrade, byRevision_insertDeletion hfresh] at hrev
  rw [hrecord, hafter]
  have hmem : ∀ p ∈ (log.insertDeletion e).downgrade.evictOldest.byRevision,
      p ∈ log.byRevision ∨ p = (e.revision, e.key) := by
    intro p hp
    rw [hrev] at hp
    simpa using (Ring.recent_suffix _ _).subset hp
  refine ⟨⟨hindexed, fun p hp => ?_, fun p hp => ?_⟩, hrev⟩
  · obtain hp | rfl := hmem p hp
    · exact fun hlive => h.dead p hp hlive.1
    · exact fun hlive => hlive.2 rfl
  · obtain hp | rfl := hmem p hp
    · exact (hfresh p hp).le
    · exact le_rfl

theorem Fits.record_write (h : Fits g log) (he : g.Admits e) (hvalue : e.value = some value) :
    Fits (g.after e) (log.record e) ∧
      (log.record e).byRevision = log.byRevision.filter (fun p => p.2 ≠ e.key) := by
  obtain ⟨hindexed, hrev⟩ := h.indexed.removeTombstone e.key
  have hrecord : log.record e = log.removeTombstone e.key := by
    simp only [record, hvalue]
  have hafter : g.after e = ⟨insert e.key g.live, e.revision⟩ := by
    simp only [Ground.after, hvalue]
  rw [hrecord, hafter]
  refine ⟨⟨hindexed, fun p hp => ?_, fun p hp => ?_⟩, hrev⟩
  · rw [hrev, mem_filter] at hp
    rintro (hkey | hlive)
    · simp [hkey] at hp
    · exact h.dead p hp.1 hlive
  · rw [hrev, mem_filter] at hp
    exact (h.old p hp.1).trans he.1.le

end DeletionLog

theorem outstanding_append (es : List (InternalEvent β)) (e : InternalEvent β) :
    outstanding (es ++ [e]) = noteDeletion (outstanding es) e := by
  simp [outstanding]

theorem logOf_append (es : List (InternalEvent β)) (e : InternalEvent β) :
    logOf (es ++ [e]) = (logOf es).record e := by
  simp [logOf]

theorem along_snoc (h : Along Ground.after Ground.Admits g (es ++ [e])) :
    Along Ground.after Ground.Admits g es ∧ (run Ground.after g es).Admits e := by
  obtain ⟨hes, he, -⟩ := along_append.mp h
  exact ⟨hes, he⟩

theorem fits_logOf (h : Along Ground.after Ground.Admits g es) :
    DeletionLog.Fits (run Ground.after g es) (logOf es) := by
  induction es using reverseRecOn with
  | nil => exact ⟨DeletionLog.indexed_empty.mono (Nat.zero_le _) (Nat.zero_le _), by simp [logOf, DeletionLog.empty],
      by simp [logOf, DeletionLog.empty]⟩
  | append_singleton es e ih =>
    obtain ⟨hes, he⟩ := along_snoc h
    rw [logOf_append, run_append]
    cases hvalue : e.value with
    | none => exact ((ih hes).record_deletion he hvalue).1
    | some value => exact ((ih hes).record_write he hvalue).1

theorem after_revision (g : Ground) (e : InternalEvent β) : (g.after e).revision = e.revision := by
  unfold Ground.after
  split <;> rfl

theorem revision_le_of_outstanding (h : Along Ground.after Ground.Admits g es) (hstart : es' <+: es)
    (hx : x ∈ outstanding es') : x.1 ≤ (run Ground.after g es).revision := by
  induction es using reverseRecOn generalizing es' with
  | nil =>
    rw [prefix_nil.mp hstart] at hx
    cases hx
  | append_singleton es e ih =>
    obtain ⟨hes, he⟩ := along_snoc h
    rw [run_append, run_cons, run_nil, after_revision]
    have hearlier : ∀ es', es' <+: es → x ∈ outstanding es' → x.1 ≤ e.revision :=
      fun es' hes' hx => (ih hes hes' hx).trans he.1.le
    obtain rfl | hes' := prefix_concat_iff.mp hstart
    · rw [outstanding_append, noteDeletion] at hx
      split at hx
      · obtain hx | hx := mem_append.mp hx
        · exact hearlier es prefix_rfl hx
        · rw [mem_singleton.mp hx]
      · exact hearlier es prefix_rfl (mem_of_mem_filter hx)
    · exact hearlier es' hes' hx

def AlwaysRecent (es : List (InternalEvent β)) (x : ℕ × String) : Prop :=
  ∀ es', es' <+: es → x ∈ outstanding es' → x ∈ recent STRIPPED_TIER_CAP (outstanding es')

theorem alwaysRecent_append : AlwaysRecent (es ++ [e]) x ↔
    AlwaysRecent es x ∧ (x ∈ outstanding (es ++ [e]) → x ∈ recent STRIPPED_TIER_CAP (outstanding (es ++ [e]))) := by
  unfold AlwaysRecent
  simp only [prefix_concat_iff]
  constructor
  · intro h
    exact ⟨fun es' hes' => h es' (.inr hes'), h _ (.inl rfl)⟩
  · rintro ⟨h, hlast⟩ es' (rfl | hes')
    · exact hlast
    · exact h es' hes'

theorem tombstones_of_logOf (h : Along Ground.after Ground.Admits g es) :
    (logOf es).byRevision <:+ outstanding es ∧
      ∀ x, x ∈ (logOf es).byRevision ↔ x ∈ outstanding es ∧ AlwaysRecent es x := by
  induction es using reverseRecOn with
  | nil => exact ⟨suffix_rfl, fun x => by simp [logOf, DeletionLog.empty, outstanding]⟩
  | append_singleton es e ih =>
    obtain ⟨hes, he⟩ := along_snoc h
    obtain ⟨hsuffix, hmem⟩ := ih hes
    have hfits := fits_logOf hes
    cases hvalue : e.value with
    | none =>
      have hout : outstanding (es ++ [e]) = outstanding es ++ [(e.revision, e.key)] := by
        simp only [outstanding_append, noteDeletion, hvalue]
      have hsuffix' : (logOf es).byRevision ++ [(e.revision, e.key)] <:+ outstanding es ++ [(e.revision, e.key)] := by
        obtain ⟨before, hbefore⟩ := hsuffix
        exact ⟨before, by rw [← append_assoc, hbefore]⟩
      -- The new deletion was outstanding at no earlier moment.
      have hnew : AlwaysRecent es (e.revision, e.key) := by
        intro es' hes' hx
        have hle := revision_le_of_outstanding hes hes' hx
        exact absurd he.1 (not_lt.mpr hle)
      rw [logOf_append, (hfits.record_deletion he hvalue).2]
      refine ⟨?_, fun x => ?_⟩
      · rw [hout]
        exact (Ring.recent_suffix _ _).trans hsuffix'
      · rw [Ring.mem_recent_suffix hsuffix', alwaysRecent_append, hout, mem_append, hmem, mem_append,
          mem_singleton]
        constructor
        · rintro ⟨⟨hx, halways⟩ | hx, hrecent⟩
          · exact ⟨.inl hx, halways, fun _ => hrecent⟩
          · exact ⟨.inr hx, hx ▸ hnew, fun _ => hrecent⟩
        · rintro ⟨hx, halways, hrecent⟩
          exact ⟨hx.imp_left (fun hx => ⟨hx, halways⟩), hrecent hx⟩
    | some value =>
      have hout : outstanding (es ++ [e]) = (outstanding es).filter (fun p => p.2 ≠ e.key) := by
        simp only [outstanding_append, noteDeletion, hvalue]
      have hsuffix' := hsuffix.filter (fun p => decide (p.2 ≠ e.key))
      have hlen : ((logOf es).byRevision.filter (fun p => decide (p.2 ≠ e.key))).length ≤ STRIPPED_TIER_CAP :=
        (length_filter_le _ _).trans hfits.indexed.bound
      rw [logOf_append, (hfits.record_write he hvalue).2, hout]
      refine ⟨hsuffix', fun x => ?_⟩
      have hrecent := (Ring.suffix_recent hsuffix' hlen).subset (a := x)
      rw [alwaysRecent_append, hout]
      constructor
      · intro hx
        have hx' := mem_filter.mp hx
        have hold := (hmem x).mp hx'.1
        exact ⟨mem_filter.mpr ⟨hold.1, hx'.2⟩, hold.2, fun _ => hrecent hx⟩
      · rintro ⟨hx, halways, -⟩
        have hx' := mem_filter.mp hx
        exact mem_filter.mpr ⟨(hmem x).mpr ⟨hx'.1, halways⟩, hx'.2⟩

theorem deletionLog_of_history (g : Ground) (es : List (InternalEvent β))
    (h : Along Ground.after Ground.Admits g es) :
    (logOf es).Indexed FULL_TIER_CAP STRIPPED_TIER_CAP ∧ (logOf es).byKey.entries.length ≤ STRIPPED_TIER_CAP ∧
    (∀ k ∈ (run Ground.after g es).live, (logOf es).byKey.lookup k = none) ∧
    ∀ x ∈ outstanding es, AlwaysRecent es x ↔
      ∃ entry, (logOf es).byKey.lookup x.2 = some entry ∧ entry.revision = x.1 := by
  have hfits := fits_logOf h
  refine ⟨hfits.indexed, ?_, fun k hk => hfits.lookup_live hk, fun x hx => ?_⟩
  · rw [hfits.indexed.length_byKey]
    exact hfits.indexed.bound
  · rw [← hfits.indexed.mem_byRevision x.1 x.2, (tombstones_of_logOf h).2]
    exact ⟨fun halways => ⟨hx, halways⟩, And.right⟩

def podKey (i : ℕ) : String := "/registry/pods/default/" ++ toString i

def podDeletion (i : ℕ) : InternalEvent Unit := ⟨podKey i, i + 1, none, false, some ()⟩

@[irreducible] def crowdedHistory (n : ℕ) : List (InternalEvent Unit) :=
  (List.range (n + 1)).map podDeletion ++ [⟨podKey n, n + 2, some (), true, none⟩]

def crowdedGround (n : ℕ) : Ground := ⟨{k | ∃ i, k = podKey i ∧ i ≤ n}, 0⟩

theorem podKey_injective : Function.Injective podKey := by
  intro i j h
  have hlist : (podKey i).toList = (podKey j).toList := congrArg String.toList h
  unfold podKey at hlist
  rw [String.toList_append, String.toList_append] at hlist
  have hdigits : Nat.toDigits 10 i = Nat.toDigits 10 j := by
    simpa [Nat.toString_eq_ofList_toDigits] using append_cancel_left hlist
  calc i = Nat.ofDigitChars 10 (Nat.toDigits 10 i) 0 := Nat.ofDigitChars_ten_toDigits.symm
    _ = Nat.ofDigitChars 10 (Nat.toDigits 10 j) 0 := by rw [hdigits]
    _ = j := Nat.ofDigitChars_ten_toDigits

theorem crowded_deletions (hm : m ≤ n + 1) :
    Along Ground.after Ground.Admits (crowdedGround n) ((range m).map podDeletion) ∧
    run Ground.after (crowdedGround n) ((range m).map podDeletion) =
      ⟨{k | ∃ i, k = podKey i ∧ m ≤ i ∧ i ≤ n}, m⟩ := by
  induction m with
  | zero => exact ⟨trivial, by simp [crowdedGround]⟩
  | succ m ih =>
    obtain ⟨halong, hrun⟩ := ih (by omega)
    rw [range_succ, map_append]
    refine ⟨along_append.mpr ⟨halong, ?_, trivial⟩, ?_⟩
    · rw [hrun]
      exact ⟨Nat.lt_succ_self m, fun _ => ⟨m, rfl, le_rfl, by omega⟩⟩
    · rw [run_append, hrun]
      simp only [map_cons, map_nil, run_cons, run_nil, Ground.after, podDeletion, Ground.mk.injEq, and_true]
      ext k
      constructor
      · rintro ⟨⟨i, rfl, hmi, hi⟩, hne⟩
        have hmne : i ≠ m := fun h => hne (h ▸ rfl)
        exact ⟨i, rfl, by omega, hi⟩
      · rintro ⟨i, rfl, hmi, hi⟩
        refine ⟨⟨i, rfl, by omega, hi⟩, fun h => ?_⟩
        have := podKey_injective h
        omega

theorem along_crowdedHistory (n : ℕ) : Along Ground.after Ground.Admits (crowdedGround n) (crowdedHistory n) := by
  obtain ⟨halong, hrun⟩ := crowded_deletions (le_refl (n + 1))
  rw [crowdedHistory]
  refine along_append.mpr ⟨halong, ?_, trivial⟩
  rw [hrun]
  exact ⟨Nat.lt_succ_self _, fun h => by cases h⟩

theorem outstanding_deletions (m : ℕ) :
    outstanding ((range m).map podDeletion) = (range m).map (fun i => (i + 1, podKey i)) := by
  induction m with
  | zero => rfl
  | succ m ih =>
    rw [range_succ, map_append, map_append, map_singleton, outstanding_append, ih]
    rfl

theorem first_recent_again (n : ℕ) (hn : 0 < n) : (1, podKey 0) ∈ recent n (outstanding (crowdedHistory n)) := by
  have hout : outstanding (crowdedHistory n) =
      ((range n).map (fun i => (i + 1, podKey i))).filter (fun p => p.2 ≠ podKey n) := by
    rw [crowdedHistory, outstanding_append, outstanding_deletions, range_succ]
    simp [noteDeletion]
  rw [hout, Ring.recent_of_le]
  · refine mem_filter.mpr ⟨mem_map.mpr ⟨0, mem_range.mpr hn, rfl⟩, ?_⟩
    have hne : podKey 0 ≠ podKey n := fun h => hn.ne (podKey_injective h)
    simpa using hne
  · refine (length_filter_le _ _).trans ?_
    rw [length_map, length_range]

theorem first_not_recent (n : ℕ) : (1, podKey 0) ∈ outstanding ((range (n + 1)).map podDeletion) ∧
    (1, podKey 0) ∉ recent n (outstanding ((range (n + 1)).map podDeletion)) := by
  rw [outstanding_deletions, recent,
    range_succ_eq_map]
  constructor
  · exact mem_cons_self
  · simp

theorem no_tombstone_of_crowded (hvalid : Along Ground.after Ground.Admits g es)
    (hstart : (range (STRIPPED_TIER_CAP + 1)).map podDeletion <+: es) :
    ¬∃ entry, (logOf es).byKey.lookup (podKey 0) = some entry ∧ entry.revision = 1 := by
  intro hentry
  have hmem := ((fits_logOf hvalid).indexed.mem_byRevision 1 (podKey 0)).mpr hentry
  have halways := (((tombstones_of_logOf hvalid).2 _).mp hmem).2
  obtain ⟨hout, hnot⟩ := first_not_recent STRIPPED_TIER_CAP
  exact hnot (halways _ hstart hout)

theorem deletions_start_crowdedHistory (n : ℕ) : (range (n + 1)).map podDeletion <+: crowdedHistory n := by
  rw [crowdedHistory]
  exact prefix_append _ _

theorem crowded_out_for_good :
    Along Ground.after Ground.Admits (crowdedGround STRIPPED_TIER_CAP) (crowdedHistory STRIPPED_TIER_CAP) ∧
    (1, podKey 0) ∈ recent STRIPPED_TIER_CAP (outstanding (crowdedHistory STRIPPED_TIER_CAP)) ∧
    ¬∃ entry, (logOf (crowdedHistory STRIPPED_TIER_CAP)).byKey.lookup (podKey 0) = some entry ∧
      entry.revision = 1 := by
  have hvalid := along_crowdedHistory STRIPPED_TIER_CAP
  have hrecent := first_recent_again STRIPPED_TIER_CAP (by simp [STRIPPED_TIER_CAP, RING_CAPACITY])
  exact ⟨hvalid, hrecent, no_tombstone_of_crowded hvalid (deletions_start_crowdedHistory STRIPPED_TIER_CAP)⟩

theorem deletionLog_of_crowdedHistory :
    (logOf (crowdedHistory STRIPPED_TIER_CAP)).byKey.entries.length ≤ STRIPPED_TIER_CAP :=
  (deletionLog_of_history (crowdedGround STRIPPED_TIER_CAP) _ (along_crowdedHistory STRIPPED_TIER_CAP)).2.1

end U7s.Store
