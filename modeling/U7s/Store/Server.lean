import U7s.Store.Cache
import U7s.Store.Log

namespace U7s.Store

open Runs
open Text (startsWith)

variable {β : Type} (codec : JsonCodec β)

structure History (β : Type) where
  cache : Cache β
  log : List (InternalEvent β × List ℕ)

namespace History

def empty : History β := ⟨.empty, []⟩

def events (h : History β) : List (InternalEvent β) := h.log.map Prod.fst

def record (h : History β) (w : Write β) : History β :=
  ⟨h.cache.pushEventLocked w, h.log ++ [(w.event, (h.cache.targets w).2)]⟩

def tearDown (h : History β) (k : String) : History β := { h with cache := h.cache.tearDownShard k }

end History

namespace Cache

def backfill (c : Cache β) (id : ℕ) (es : List (InternalEvent β)) : Cache β :=
  es.foldl (fun c e => c.push e id) c

def attach (c : Cache β) (id : ℕ) : Cache β := c.modify id (fun s => { s with watchers := s.watchers + 1 })

def detach (c : Cache β) (id : ℕ) : Cache β := c.modify id (fun s => { s with watchers := s.watchers - 1 })

def openShard (c : Cache β) (db : Db β) (p : String) (listFails : Bool) : Cache β × Option (String × ℕ) :=
  match c.findShardKey p with
  | some found => (c, some found)
  | none =>
    let created := c.getOrCreateShard p
    if listFails then (created.1, none)
    else (created.1.backfill created.2 (db.listed p), some (p, created.2))

def replayed (c : Cache β) (id : ℕ) (p : String) (start : ℕ) : List (InternalEvent β) :=
  (c.heap id).ring.filter (fun e => startsWith e.key p && start < e.revision)

def historical (c : Cache β) (id : ℕ) (p : String) (start : ℕ) : List (WatchEvent β) :=
  if 0 < start ∧ start < (c.heap id).horizon then
    (match c.findShard p with
      | some found => ((c.heap found).deletionLog.tombstones p start).map Prod.snd
      | none => []) ++ [.compacted start (c.heap id).horizon]
  else (c.replayed id p start).map internalToWatch

end Cache

structure Server (β : Type) where
  db : Db β
  history : History β
  guards : List (String × ℕ)

inductive Op (β : Type) where
  | call (c : Call β)
  | watch (p : String) (start : ℕ) (listFails : Bool)
  | close (i : ℕ)
  | gc (k : String) (id : ℕ)
  | evict (p : String)

namespace Server

def new : Server β := ⟨.new β, .empty, []⟩

def withCache (s : Server β) (c : Cache β) : Server β := { s with history := { s.history with cache := c } }

def call (s : Server β) (c : Call β) : Server β :=
  let o := perform codec s.db c
  { s with db := o.db, history := run History.record s.history o.writes }

def watch (s : Server β) (p : String) (start : ℕ) (listFails : Bool) : Server β × Option (List (WatchEvent β)) :=
  match s.history.cache.openShard s.db p listFails with
  | (c, none) => (s.withCache c, none)
  | (c, some (k, id)) =>
    ({ s.withCache (c.attach id) with guards := s.guards ++ [(k, id)] }, some (c.historical id p start))

def close (s : Server β) (i : ℕ) : Server β :=
  match s.guards[i]? with
  | none => s
  | some g => { s.withCache (s.history.cache.detach g.2) with guards := s.guards.eraseIdx i }

def step (s : Server β) : Op β → Server β
  | .call c => s.call codec c
  | .watch p start listFails => (s.watch p start listFails).1
  | .close i => s.close i
  | .gc k id => s.withCache (s.history.cache.idleGc k id)
  | .evict p => s.withCache (s.history.cache.evictResourceType p)

end Server

theorem Cache.backfill_eq_modify (c : Cache β) (id : ℕ) (es : List (InternalEvent β)) :
    c.backfill id es = c.modify id (fun s => es.foldl pushIntoShard s) := by
  induction es generalizing c with
  | nil => simp [backfill, modify]
  | cons e es ih =>
    have h : c.backfill id (e :: es) = (c.push e id).backfill id es := rfl
    rw [h, ih, push, modify_modify]
    rfl

theorem Cache.findShardKey_eq_none {c : Cache β} :
    c.findShardKey p = none ↔
      c.shardAt p = none ∧ ∀ q, parentPrefix p = some q → c.shardAt q = none := by
  unfold findShardKey
  simp only [shardAt_eq_none]
  cases c.shards.lookup p with
  | some id => simp
  | none => cases parentPrefix p <;> simp

theorem Cache.findShard_eq {c : Cache β} : c.findShard p = (c.findShardKey p).map Prod.snd := by
  unfold findShard findShardKey
  cases c.shards.lookup p with
  | some id => rfl
  | none => cases parentPrefix p <;> simp [Function.comp_def]

theorem Cache.openShard_some (c : Cache β) (db : Db β) (p : String) :
    ∃ c' k id, c.openShard db p false = (c', some (k, id)) ∧ c'.shards.lookup k = some id ∧
      (k = p ∨ parentPrefix p = some k) := by
  unfold openShard
  cases hfound : c.findShardKey p with
  | some found =>
    refine ⟨c, found.1, found.2, rfl, ?_⟩
    unfold findShardKey at hfound
    cases hl : c.shards.lookup p with
    | some id =>
      rw [hl] at hfound
      obtain rfl := Option.some_inj.mp hfound
      exact ⟨hl, .inl rfl⟩
    | none =>
      simp only [hl, Option.bind_eq_some_iff, Option.map_eq_some_iff] at hfound
      obtain ⟨q, hq, id, hid, rfl⟩ := hfound
      exact ⟨hid, .inr hq⟩
  | none =>
    refine ⟨_, p, _, rfl, ?_, .inl rfl⟩
    rw [backfill_eq_modify]
    exact lookup_getOrCreate c p

theorem along_numbered (hl : Logged db h.events) (hc : Commits codec db ws db') :
    Along History.record (fun h w => (∃ db, Logged db h.events) ∧ w.event.revision = h.log.length + 1)
      h ws := by
  induction hc generalizing h with
  | @nil db => trivial
  | @cons db db' db'' w ws h1 _ ih =>
    refine ⟨⟨⟨db, hl⟩, ?_⟩, ih ?_⟩
    · simpa [hl.revision, History.events] using (h1.revision_eq codec).1
    · simpa [History.record, History.events] using hl.commit1 codec h1

theorem events_run_record (h : History β) (ws : List (Write β)) :
    (run History.record h ws).events = h.events ++ ws.map Write.event := by
  induction ws generalizing h with
  | nil => simp
  | cons w ws ih =>
    rw [run_cons, ih]
    simp [History.record, History.events]

theorem watch_db (s : Server β) (p : String) (start : ℕ) (listFails : Bool) :
    (s.watch p start listFails).1.db = s.db ∧
      (s.watch p start listFails).1.history.log = s.history.log := by
  unfold Server.watch
  split <;> exact ⟨rfl, rfl⟩

theorem Server.logged_step (s : Server β) (op : Op β) (h : Logged s.db s.history.events) :
    Logged (s.step codec op).db (s.step codec op).history.events := by
  cases op with
  | call c =>
    simp only [Server.step, Server.call]
    rw [events_run_record]
    exact h.commits codec (perform_commits codec s.db c)
  | watch p start listFails =>
    obtain ⟨hdb, hlog⟩ := watch_db s p start listFails
    simpa only [Server.step, hdb, History.events, hlog] using h
  | close i =>
    simp only [Server.step, Server.close]
    split <;> exact h
  | gc k id | evict p => exact h

theorem Server.logged_run (ops : List (Op β)) :
    Logged (run (Server.step codec) Server.new ops).db
      (run (Server.step codec) Server.new ops).history.events :=
  run_invariant (fun s : Server β => Logged s.db s.history.events)
    (fun s op => s.logged_step codec op) ops Logged.new

def configMap (ns name : String) : Option Json :=
  some (.obj [("metadata", .obj [("name", .str name), ("namespace", .str ns)])])

def configMaps : Layout where
  roots := {[⟨"configmaps", by decide, by decide⟩]}
  nonempty := by simp
  prefix_free := by
    rintro p rfl q rfl -
    rfl

end U7s.Store
