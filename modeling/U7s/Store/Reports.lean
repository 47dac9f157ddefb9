import U7s.Lib.Tables
import U7s.Store.Backfill

namespace U7s.Store

open Runs List Tables
open Text (startsWith)

variable {β : Type} (codec : JsonCodec β) {s : Sys β} {w : Watch β} {log : DeletionLog β}

def DeletionLog.FullOk (log : DeletionLog β) : Prop :=
  ∀ key d, log.byKey.lookup key = some (.full d) → d.key = key ∧ d.value = none

theorem DeletionLog.FullOk.record (h : log.FullOk) (e : InternalEvent β) : (log.record e).FullOk := by
  intro key d hd
  have hold := h key d
  unfold DeletionLog.record insertDeletion downgrade evictOldest removeTombstone at hd
  grind [lookup_insert_eq, lookup_erase_eq]

def Sys.Committed (s : Sys β) (key : String) (r : ℕ) (v : Option β) : Prop :=
  ∃ d ∈ s.events, d.key = key ∧ d.revision = r ∧ d.value = v

theorem Sys.Committed.mono (h : s.Committed key r v) (hg : s.Grows t) : t.Committed key r v := by
  obtain ⟨d, hd, hk⟩ := h
  exact ⟨d, hg.events.subset hd, hk⟩

def Sys.Buries (s : Sys β) : Prop :=
  ∀ id, (s.cache.heap id).deletionLog.Holds (fun key r => s.Committed key r none) ∧
    (s.cache.heap id).deletionLog.FullOk

theorem Sys.Buries.step (h : s.Buries) (ht : s.Traced) (a : Act β) : (s.step codec a).Buries := by
  intro id
  have hg := s.grows_step codec a
  have hold := (h id).1.mono (fun _ _ hc => hc.mono hg)
  generalize hshard : (s.step codec a).cache.heap id = shard
  have hstep := s.step_shard codec a id
  rw [hshard] at hstep
  cases hstep with
  | keeps _ hd => exact hd ▸ ⟨hold, (h id).2⟩
  | fresh => exact ⟨.empty, nofun⟩
  | write | fill => exact ⟨hold, (h id).2⟩
  | @bury x hx =>
    refine ⟨hold.record fun hv => ⟨x.event, hg.events.subset ?_, rfl, rfl, hv⟩, (h id).2.record _⟩
    exact mem_map_of_mem (mem_of_getElem? hx)
  | @unbury j w e es hw hp =>
    exact ⟨hold.record fun hv => absurd hv (ht.items j w _ _ hw hp e mem_cons_self).2, (h id).2.record _⟩

def Watch.Reports (s : Sys β) (w : Watch β) (key : String) (r : ℕ) (v : Option β) : Prop :=
  startsWith key w.p ∧ w.start < r ∧ s.Committed key r v

def Watch.ReportsAll (s : Sys β) (w : Watch β) (es : List (WatchEvent β)) : Prop :=
  ∀ e ∈ es, ∀ key v, e.change? = some (key, v) → w.Reports s key (revisionOf e) v

structure Watch.Honest (s : Sys β) (w : Watch β) : Prop where
  items : w.phase.opening = false → ∀ d ∈ w.phase.items, w.Reports s d.key d.revision d.value
  out : w.ReportsAll s w.out

namespace Watch

theorem reportsAll_append : w.ReportsAll s (es ++ fs) ↔ w.ReportsAll s es ∧ w.ReportsAll s fs :=
  forall_mem_append

theorem reportsAll_event (hd : w.Reports s d.key d.revision d.value) : w.ReportsAll s [internalToWatch d] := by
  intro e he key v hc
  obtain rfl := mem_singleton.mp he
  rw [change?_internalToWatch] at hc
  cases hc
  rwa [revisionOf_internalToWatch]

theorem reportsAll_mark (he : e.change? = none) : w.ReportsAll s [e] := by
  intro e' he' key v hc
  obtain rfl := mem_singleton.mp he'
  cases he.symm.trans hc

theorem reports_replayed {id n : ℕ} (ht : s.Traced) (hn : w.start ≤ n) (hd : d ∈ s.cache.replayed id w.p n) :
    w.Reports s d.key d.revision d.value := by
  obtain ⟨hd, hk⟩ := mem_filter.mp hd
  obtain ⟨hp, hr⟩ := Bool.and_eq_true_iff.mp hk
  obtain ⟨⟨e, he, hsame⟩, -⟩ := ht.ring id d hd
  exact ⟨hp, hn.trans_lt (of_decide_eq_true hr), e, he, hsame.key.symm, hsame.revision.symm, hsame.value.symm⟩

theorem reportsAll_tombstones (hb : s.Buries) : w.ReportsAll s ((w.tombstones s.cache).map Prod.snd) := by
  unfold tombstones
  split
  case h_2 => exact nofun
  case h_1 id _ =>
    intro e he
    simp only [DeletionLog.tombstones, map_map, mem_map, mem_filter, Bool.and_eq_true, decide_eq_true_eq] at he
    obtain ⟨⟨key, entry⟩, ⟨hmem, hp, hr⟩, rfl⟩ := he
    have hlook := AList.mem_lookup_iff.mpr hmem
    have hdead : w.Reports s key entry.revision none := ⟨hp, hr, (hb id).1.byKey key entry hlook⟩
    cases entry with
    | full d =>
      obtain ⟨rfl, hv⟩ := (hb id).2 key d hlook
      exact reportsAll_event (hv ▸ hdead) _ mem_cons_self
    | stripped r =>
      rintro _ _ ⟨⟩
      exact hdead

theorem Honest.moves (ht : s.Traced) (hb : s.Buries) (ho : w.Ordered s) (h : w.Honest s) (hm : w.Moves s a w') :
    w'.Honest s := by
  have hitems {es} (hp : w.phase.opening = false) (he : w.phase.items = es) :
      ∀ d ∈ es, w.Reports s d.key d.revision d.value := he ▸ h.items hp
  have hgone {es} (hes : w.ReportsAll s es) : w.ReportsAll s (w.out ++ es) := reportsAll_append.mpr ⟨h.out, hes⟩
  cases hm with
  | opens _ _ hk _ ho' =>
    refine ⟨fun hn => by simp [hn] at ho', ?_⟩
    simpa only [hk.out, ReportsAll, Reports, hk.p, hk.start] using h.out
  | quiet hk hp =>
    constructor
    · simpa only [hp, Reports, hk.p, hk.start] using h.items
    · simpa only [hk.out, ReportsAll, Reports, hk.p, hk.start] using h.out
  | snapshot => exact ⟨fun _ d hd => reports_replayed ht le_rfl hd, h.out⟩
  | accept hp => exact ⟨fun _ => hitems (by rw [hp]; rfl) (by rw [hp]; rfl), h.out⟩
  | rescan =>
    refine ⟨fun _ d (hd : d ∈ w.scan s.cache) => ?_, h.out⟩
    unfold scan at hd
    split at hd
    · exact reports_replayed ht ho.start hd
    · cases hd
  | expire | giveUp =>
    exact ⟨fun _ => nofun, hgone (reportsAll_append.mpr ⟨reportsAll_tombstones hb, reportsAll_mark rfl⟩)⟩
  | @next e es ph hp =>
    have hall : ∀ d ∈ e :: es, w.Reports s d.key d.revision d.value := by
      obtain ⟨hp, -⟩ | ⟨sc, hp, -⟩ := hp <;> exact hitems (by rw [hp]; rfl) (by rw [hp]; rfl)
    refine ⟨fun _ d hd => hall d (mem_cons_of_mem e ?_), hgone (reportsAll_event (hall e mem_cons_self))⟩
    obtain ⟨-, rfl⟩ | ⟨sc, -, rfl⟩ := hp <;> exact hd
  | @deliver e _ _ he hk hr =>
    have hrep : w.Reports s e.key e.revision e.value :=
      ⟨hk, ho.start.trans_lt hr, e, mem_of_getElem? he, rfl, rfl, rfl⟩
    exact ⟨h.items, hgone (reportsAll_append.mpr ⟨reportsAll_event hrep, reportsAll_mark rfl⟩)⟩
  | debounce | heartbeat => exact ⟨h.items, hgone (reportsAll_mark rfl)⟩
  | timeout => exact ⟨fun _ => nofun, hgone (reportsAll_mark rfl)⟩
  | live | recover | cancel | lag => exact ⟨fun _ => nofun, h.out⟩
  | drop => exact ⟨h.items, h.out⟩

end Watch

/-- In every interleaving, each change that a watch reports was committed, after the revision the watch starts
from and under its prefix. -/
theorem reports_committed (as : List (Act β)) (i : ℕ) (w : Watch β)
    (hw : (run (Sys.step codec) Sys.new as).watches i = some w) (e : WatchEvent β) (he : e ∈ w.out) (key : String)
    (v : Option β) (hc : e.change? = some (key, v)) :
    startsWith key w.p ∧ w.start < Watch.revisionOf e ∧ ∃ d ∈ (run (Sys.step codec) Sys.new as).events,
      d.key = key ∧ d.revision = Watch.revisionOf e ∧ d.value = v := by
  have hC : Along (Sys.step codec) (fun s _ => s.Ordered ∧ s.Traced ∧ s.Buries) Sys.new as := by
    refine along_of_invariant _ ?_ as ⟨.new, .new, fun _ => ⟨.empty, nofun⟩⟩
    rintro s a ⟨hs, ht, hb⟩
    exact ⟨hs.step codec a, ht.step codec hs a, hb.step codec ht a⟩
  refine (Sys.watch_run_new (fun s w => w.Honest s) ?_ ?_ ?_ hC hw).out e he key v hc
  · rintro s t w - - hg - ⟨hitems, hout⟩
    exact ⟨fun hn d hd => (hitems hn d hd).imp_right (.imp_right (·.mono hg)),
      fun e he key v hc => (hout e he key v hc).imp_right (.imp_right (·.mono hg))⟩
  · rintro s w x hs ho - ⟨-, ht, hb⟩ h
    exact h.moves ht hb ho (Watch.step_moves hs w x)
  · exact fun _ => ⟨fun _ => nofun, nofun⟩

theorem reports_committed_sharedBackfill : ∃ w,
    (run (Sys.step JsonCodec.parsed) Sys.new sharedBackfill).watches 1 = some w ∧
      ∃ e ∈ w.out, e.change? = some ("/registry/configmaps/a/x", none) ∧
        w.Reports (run (Sys.step JsonCodec.parsed) Sys.new sharedBackfill) "/registry/configmaps/a/x"
          (Watch.revisionOf e) none := by
  have hout : ((run (Sys.step JsonCodec.parsed) Sys.new sharedBackfill).watches 1).any (fun w => w.out.any (fun e =>
      decide (e.change? = some ("/registry/configmaps/a/x", none)))) := by decide +kernel
  obtain ⟨w, hw, hout⟩ := (Option.any_eq_true _ _).mp hout
  obtain ⟨e, he, hc⟩ := any_eq_true.mp hout
  have hc := of_decide_eq_true hc
  exact ⟨w, hw, e, he, hc, reports_committed JsonCodec.parsed sharedBackfill 1 w hw e he _ _ hc⟩

end U7s.Store
