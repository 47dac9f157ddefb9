import U7s.Lib.Replay
import U7s.Store.Revisions
import U7s.Store.Shard

namespace U7s.Store

open Replay List
open Text (startsWith)

variable {β : Type} (codec : JsonCodec β)

def lastEvent (k : String) (log : List (InternalEvent β)) : Option (InternalEvent β) :=
  lastFor InternalEvent.key k log

def applyEvents (m : String → Option β) (es : List (InternalEvent β)) : String → Option β :=
  replay InternalEvent.key InternalEvent.value m es

def objectsAt (log : List (InternalEvent β)) (r : ℕ) : String → Option β :=
  applyEvents (fun _ => none) (log.filter (fun e => e.revision ≤ r))

def Db.current (db : Db β) (k : String) : Option β := (db.objects.lookup k).map Row.value

def WatchEvent.change? : WatchEvent β → Option (String × Option β)
  | .added key _ value => some (key, some value)
  | .modified key _ value => some (key, some value)
  | .deleted key _ _ => some (key, none)
  | .bookmark _ => none
  | .compacted _ _ => none

def clientState (m : String → Option β) (out : List (WatchEvent β)) : String → Option β :=
  replay Prod.fst Prod.snd m (out.filterMap WatchEvent.change?)

theorem change?_internalToWatch (e : InternalEvent β) : (internalToWatch e).change? = some (e.key, e.value) := by
  unfold internalToWatch
  cases e.value with
  | none => rfl
  | some v => cases e.isCreate <;> rfl

theorem clientState_map (m : String → Option β) (es : List (InternalEvent β)) :
    clientState m (es.map internalToWatch) = applyEvents m es := by
  simp only [clientState, applyEvents, replay, filterMap_map]
  have h : es.filterMap (WatchEvent.change? ∘ internalToWatch) = es.map (fun e => (e.key, e.value)) := by
    rw [← filterMap_eq_map]
    exact filterMap_congr (fun e _ => change?_internalToWatch e)
  rw [h, foldl_map]

structure InternalEvent.Same (d e : InternalEvent β) : Prop where
  key : d.key = e.key
  revision : d.revision = e.revision
  value : d.value = e.value

theorem InternalEvent.Same.refl (e : InternalEvent β) : e.Same e := ⟨rfl, rfl, rfl⟩

def addedEvent (key : String) (row : Row β) : InternalEvent β :=
  ⟨key, row.revision, some row.value, true, none⟩

def Db.listed (db : Db β) (p : String) : List (InternalEvent β) :=
  ((db.objects.entries.filter (fun e => startsWith e.1 p)).map (fun e => addedEvent e.1 e.2)).insertionSort
    (fun a b => a.revision ≤ b.revision)

/-- The events of `log` are numbered from 1 and each row is what the last event of its key left. -/
structure Logged (db : Db β) (log : List (InternalEvent β)) : Prop where
  revision : db.revision = log.length
  numbered : log.map InternalEvent.revision = List.range' 1 log.length
  rows : ∀ k, (db.objects.lookup k).map (fun row => (row.revision, row.value)) =
    (lastEvent k log).bind (fun e => e.value.map (fun v => (e.revision, v)))

namespace Logged

variable {db db' : Db β} {log : List (InternalEvent β)} {k p : String} {e : InternalEvent β}

theorem new : Logged (Db.new β) [] := by
  constructor <;> simp [Db.new, lastEvent]

section

variable (h : Logged db log)
include h

theorem commit1 (hc : Commit1 codec db w db') : Logged db' (log ++ [w.event]) := by
  obtain ⟨hw, hdb⟩ := hc.revision_eq codec
  refine ⟨by simp [hdb, h.revision], ?_, ?_⟩
  · rw [map_append, h.numbered, length_append, length_singleton, range'_concat]
    simp [hw, h.revision, add_comm]
  · intro k
    rw [lastEvent, lastFor_concat]
    cases hc with
    | @put key value stamped ns objName hs =>
      simp only [upsert]
      by_cases hk : key = k
      · subst hk
        simp
      · rw [if_neg hk, AList.lookup_insert_ne (Ne.symm hk)]
        exact h.rows k
    | @delete key row hrow =>
      simp only [deleteRow]
      by_cases hk : key = k
      · subst hk
        simp
      · rw [if_neg hk, AList.lookup_erase_ne (Ne.symm hk)]
        exact h.rows k

theorem commits (hc : Commits codec db ws db') : Logged db' (log ++ ws.map Write.event) := by
  induction hc generalizing log with
  | nil => simpa using h
  | cons h1 _ ih => simpa using ih (h.commit1 codec h1)

theorem sorted : log.Pairwise (fun a b => a.revision < b.revision) := by
  have hp : (log.map InternalEvent.revision).Pairwise (· < ·) := by
    rw [h.numbered]
    exact pairwise_lt_range'
  exact pairwise_map.mp hp

theorem mem_bounds (he : e ∈ log) : 0 < e.revision ∧ e.revision ≤ log.length := by
  have hm : e.revision ∈ log.map InternalEvent.revision := mem_map_of_mem he
  rw [h.numbered, mem_range'_1] at hm
  omega

theorem revision_of_getElem (he : log[n]? = some e) : e.revision = n + 1 := by
  have hr : (log.map InternalEvent.revision)[n]? = some e.revision := by rw [getElem?_map, he]; rfl
  obtain ⟨hn, -⟩ := List.getElem?_eq_some_iff.mp he
  rw [h.numbered, getElem?_range' hn] at hr
  simpa [add_comm] using (Option.some_inj.mp hr).symm

theorem current_eq (k : String) : db.current k = applyEvents (fun _ => none) log k := by
  have hr := congrArg (Option.map Prod.snd) (h.rows k)
  rw [Option.map_map] at hr
  rw [applyEvents, replay_apply]
  refine hr.trans ?_
  rw [lastEvent]
  cases lastFor InternalEvent.key k log with
  | none => rfl
  | some e => simp [Function.comp_def]

theorem eq_of_revision (hd : d ∈ log) (he : e ∈ log) (hr : d.revision = e.revision) :
    d = e := by
  have hn : (log.map InternalEvent.revision).Nodup := h.numbered ▸ nodup_range'
  exact inj_on_of_nodup_map hn hd he hr

theorem of_row (hk : db.objects.lookup k = some row) :
    ∃ e, lastEvent k log = some e ∧ e.value = some row.value ∧ e.revision = row.revision := by
  have hr := h.rows k
  rw [hk] at hr
  obtain ⟨e, he, hv⟩ := Option.bind_eq_some_iff.mp hr.symm
  obtain ⟨v, hv, hp⟩ := Option.map_eq_some_iff.mp hv
  rw [Prod.mk.injEq] at hp
  exact ⟨e, he, hv.trans (by rw [hp.2]), hp.1⟩

theorem row_of_put (he : lastEvent k log = some e) (hv : e.value = some v) :
    ∃ row, db.objects.lookup k = some row ∧ row.value = v ∧ row.revision = e.revision := by
  have hr := h.rows k
  rw [he, Option.bind_some, hv] at hr
  obtain ⟨row, hrow, hp⟩ := Option.map_eq_some_iff.mp hr
  rw [Prod.mk.injEq] at hp
  exact ⟨row, hrow, hp.2, hp.1⟩

end

end Logged

theorem mem_listed {db : Db β} :
    e ∈ db.listed p ↔
      ∃ k row, db.objects.lookup k = some row ∧ startsWith k p ∧ e = addedEvent k row := by
  rw [Db.listed, mem_insertionSort, mem_map]
  constructor
  · rintro ⟨⟨k, row⟩, hm, rfl⟩
    rw [mem_filter] at hm
    exact ⟨k, row, AList.mem_lookup_iff.mpr hm.1, hm.2, rfl⟩
  · rintro ⟨k, row, hk, hp, rfl⟩
    exact ⟨⟨k, row⟩, mem_filter.mpr ⟨AList.mem_lookup_iff.mp hk, hp⟩, rfl⟩

theorem Logged.listed_sorted {log : List (InternalEvent β)} (h : Logged db log)
    (p : String) : (db.listed p).Pairwise (fun a b => a.revision < b.revision) := by
  have hne : (db.listed p).Pairwise (fun a b => a.revision ≠ b.revision) := by
    refine ((perm_insertionSort _ _).pairwise_iff Ne.symm).mpr ?_
    refine pairwise_map.mpr (Pairwise.filter _ ?_)
    have hk := db.objects.nodupKeys
    rw [nodupKeys_iff_pairwise] at hk
    refine hk.imp_of_mem ?_
    rintro ⟨k₁, row₁⟩ ⟨k₂, row₂⟩ h₁ h₂ hk hr
    obtain ⟨e₁, he₁, -, hr₁⟩ := h.of_row (AList.mem_lookup_iff.mpr h₁)
    obtain ⟨e₂, he₂, -, hr₂⟩ := h.of_row (AList.mem_lookup_iff.mpr h₂)
    obtain ⟨hm₁, hk₁⟩ := lastFor_mem he₁
    obtain ⟨hm₂, hk₂⟩ := lastFor_mem he₂
    have he : e₁ = e₂ := h.eq_of_revision hm₁ hm₂ (by simpa [hr₁, hr₂, addedEvent] using hr)
    exact hk (by rw [← hk₁, ← hk₂, he])
  exact (pairwise_insertionSort _ _).and hne |>.imp (fun h => lt_of_le_of_ne h.1 h.2)

end U7s.Store
