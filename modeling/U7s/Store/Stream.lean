import U7s.Store.Server

/-! The store with writers and watch streams side by side, one action for each step that another thread may see. A
writer holds the write connection from its commit to its last broadcast. -/

namespace U7s.Store

open Runs
open Text (startsWith)

def BROADCAST_CAPACITY : ℕ := 1024

def BOOKMARK_BROADCAST_CAPACITY : ℕ := 1024

variable {β : Type} (codec : JsonCodec β)

inductive Phase (β : Type) where
  | subscribe
  | resolve
  | create
  | list
  | backfill (logging : Option (InternalEvent β)) (items : List (InternalEvent β))
  | attach
  | loadHorizon
  | snapshot
  | check (replayed : List (InternalEvent β))
  | replay (events : List (InternalEvent β))
  | live
  | lagged
  | catchup (scanned : Option ℕ) (events : List (InternalEvent β))
  | closed

def Phase.attached : Phase β → Bool
  | .loadHorizon | .snapshot | .check _ | .replay _ | .live | .lagged | .catchup _ _ => true
  | _ => false

/-- The locals of `watch`, the positions of its two receivers, the handler's `last_rv`, whether the handler has just
found the stream pending, and what the stream and the handler's timers have yielded. -/
structure Watch (β : Type) where
  p : String
  start : ℕ
  rxPos : ℕ
  bookmarkPos : ℕ
  shardKey : String
  shard : ℕ
  horizon : ℕ
  lastReplayed : ℕ
  bookmarkRv : ℕ
  debouncePending : Bool
  lastRv : ℕ
  idle : Bool
  phase : Phase β
  out : List (WatchEvent β)

/-- `log` is committed; of it, `recorded` events are in the shards, `sent` and `marked` are the events and bookmarks
that were broadcast. `targets` are the shards whose rings are still to record the current event, `logging` the one
whose deletion log is next; those in `filled` were filled from a list. -/
structure Sys (β : Type) where
  db : Db β
  log : List (Write β)
  lastWritten : ℕ
  cache : Cache β
  recorded : ℕ
  targets : Option (List ℕ)
  logging : Option ℕ
  sent : ℕ
  marked : ℕ
  filled : List ℕ
  watches : ℕ → Option (Watch β)
  next : ℕ

inductive StreamAct where
  | advance
  | recv
  | recvBookmark
  | debounce
  | poll
  | heartbeat
  | timeout
  | cancel

inductive Act (β : Type) where
  | commit (c : Call β)
  | write
  | openWatch (p : String) (start : ℕ)
  | stream (i : ℕ) (a : StreamAct)
  | gc (k : String) (id : ℕ)
  | evict (p : String)

namespace Sys

def new : Sys β := ⟨.new β, [], 0, .empty, 0, none, none, 0, 0, [], fun _ => none, 0⟩

def events (s : Sys β) : List (InternalEvent β) := s.log.map Write.event

def write (s : Sys β) : Sys β :=
  if s.lastWritten < s.log.length then { s with lastWritten := s.log.length }
  else if s.marked < s.sent then { s with marked := s.marked + 1 }
  else if s.sent < s.recorded then { s with sent := s.sent + 1 }
  else
    match s.log[s.recorded]? with
    | none => s
    | some w =>
      match s.logging, s.targets with
      | some id, _ => { s with cache := s.cache.maintainLog w.event id, logging := none }
      | none, none => { s with cache := (s.cache.targets w).1, targets := some (s.cache.targets w).2 }
      | none, some [] => { s with targets := none, recorded := s.recorded + 1 }
      | none, some (id :: ids) =>
        { s with cache := s.cache.pushRing w.event id, targets := some ids, logging := some id }

def commit (s : Sys β) (c : Call β) : Sys β :=
  if s.marked = s.log.length then
    let o := perform codec s.db c
    { s with db := o.db, log := s.log ++ o.writes }
  else s

end Sys

namespace Watch

def opened (p : String) (start rxPos : ℕ) : Watch β :=
  ⟨p, start, rxPos, 0, "", 0, 0, start, start, false, start, false, .subscribe, []⟩

def revisionOf : WatchEvent β → ℕ
  | .added _ r _ | .modified _ r _ | .deleted _ r _ | .bookmark r => r
  | .compacted _ _ => 0

def yield (w : Watch β) (es : List (WatchEvent β)) : Watch β :=
  { w with out := w.out ++ es, lastRv := es.foldl (fun r e => max r (revisionOf e)) w.lastRv }

def tombstones (w : Watch β) (c : Cache β) : List (ℕ × WatchEvent β) :=
  match c.findShard w.p with
  | some id => (c.heap id).deletionLog.tombstones w.p w.start
  | none => []

def scan (w : Watch β) (c : Cache β) : List (InternalEvent β) :=
  match c.findShard w.p with
  | some id => c.replayed id w.p w.lastReplayed
  | none => []

def currentHorizon (w : Watch β) (c : Cache β) : ℕ :=
  match c.findShard w.p with
  | some id => (c.heap id).horizon
  | none => 0

def close (w : Watch β) (c : Cache β) : Cache β × Watch β :=
  (if w.phase.attached then c.detach w.shard else c, { w with phase := .closed })

def advance (s : Sys β) (w : Watch β) : Cache β × Watch β :=
  match w.phase with
  | .subscribe => (s.cache, { w with bookmarkPos := s.marked, phase := .resolve })
  | .resolve =>
    match s.cache.findShardKey w.p with
    | some (k, id) => (s.cache, { w with shardKey := k, shard := id, phase := .attach })
    | none => (s.cache, { w with phase := .create })
  | .create =>
    let created := s.cache.getOrCreateShard w.p
    (created.1, { w with shardKey := w.p, shard := created.2, phase := .list })
  | .list => (s.cache, { w with phase := .backfill none (s.db.listed w.p) })
  | .backfill none [] => (s.cache, { w with phase := .attach })
  | .backfill none (e :: es) => (s.cache.pushRing e w.shard, { w with phase := .backfill (some e) es })
  | .backfill (some e) es => (s.cache.maintainLog e w.shard, { w with phase := .backfill none es })
  | .attach => (s.cache.attach w.shard, { w with phase := .loadHorizon })
  | .loadHorizon => (s.cache, { w with horizon := (s.cache.heap w.shard).horizon, phase := .snapshot })
  | .snapshot => (s.cache, { w with phase := .check (s.cache.replayed w.shard w.p w.start) })
  | .check replayed =>
    if 0 < w.start ∧ w.start < w.horizon then
      (w.yield ((w.tombstones s.cache).map Prod.snd ++ [.compacted w.start w.horizon])).close s.cache
    else (s.cache, { w with phase := .replay replayed })
  | .replay [] => (s.cache, { w with phase := .live })
  | .replay (e :: es) =>
    (s.cache, { w.yield [internalToWatch e] with
      lastReplayed := max w.lastReplayed e.revision, phase := .replay es })
  | .live => (s.cache, w)
  | .lagged => (s.cache, { w with phase := .catchup (s.cache.findShard w.p) (w.scan s.cache) })
  | .catchup scanned (e :: es) =>
    (s.cache, { w.yield [internalToWatch e] with
      lastReplayed := max w.lastReplayed e.revision, phase := .catchup scanned es })
  | .catchup _ [] =>
    if w.lastReplayed < w.currentHorizon s.cache then
      (w.yield ((w.tombstones s.cache).map Prod.snd ++
        [.compacted ((w.tombstones s.cache).foldl (fun r t => max r t.1) w.lastReplayed)
          (w.currentHorizon s.cache)])).close s.cache
    else (s.cache, { w with phase := .live })
  | .closed => (s.cache, w)

def recv (s : Sys β) (w : Watch β) : Watch β :=
  if BROADCAST_CAPACITY < s.sent - w.rxPos then
    { w with rxPos := s.sent, idle := false, phase := .lagged }
  else if w.rxPos < s.sent then
    match s.log[w.rxPos]? with
    | none => w
    | some x =>
      let w := { w with rxPos := w.rxPos + 1, idle := false }
      if !startsWith x.event.key w.p then w
      else if x.event.revision ≤ w.lastReplayed then w
      else { w.yield [internalToWatch x.event, .bookmark x.event.revision] with
        lastReplayed := x.event.revision }
  else w

def recvBookmark (s : Sys β) (w : Watch β) : Watch β :=
  if BOOKMARK_BROADCAST_CAPACITY < s.marked - w.bookmarkPos then
    { w with bookmarkPos := s.marked, idle := false }
  else if w.bookmarkPos < s.marked then
    match s.log[w.bookmarkPos]? with
    | none => w
    | some x =>
      let w := { w with bookmarkPos := w.bookmarkPos + 1, idle := false }
      if startsWith w.p x.root then w
      else if w.bookmarkRv < x.event.revision then
        { w with bookmarkRv := x.event.revision, debouncePending := true }
      else w
  else w

def ownBookmark (s : Sys β) (w : Watch β) : WatchEvent β := .bookmark (max s.lastWritten w.lastRv)

def step (s : Sys β) (w : Watch β) : StreamAct → Cache β × Watch β
  | .advance => w.advance s
  | .cancel => w.close s.cache
  | a =>
    -- the arms of the two select loops
    match w.phase with
    | .live =>
      match a with
      | .recv => (s.cache, w.recv s)
      | .recvBookmark => (s.cache, w.recvBookmark s)
      | .debounce =>
        if w.debouncePending then
          (s.cache, { w.yield [.bookmark (max w.bookmarkRv w.lastReplayed)] with
            debouncePending := false, idle := false })
        else (s.cache, w)
      | .poll =>
        -- the handler polls the stream first, and its own timers only when the stream is pending
        if w.rxPos = s.sent ∧ w.bookmarkPos = s.marked then (s.cache, { w with idle := true })
        else (s.cache, w)
      | .heartbeat =>
        if w.idle then (s.cache, { w.yield [w.ownBookmark s] with idle := false }) else (s.cache, w)
      | .timeout => if w.idle then (w.yield [w.ownBookmark s]).close s.cache else (s.cache, w)
      | _ => (s.cache, w)
    | _ => (s.cache, w)

end Watch

namespace Sys

def fills (w : Watch β) : StreamAct → List ℕ
  | .advance =>
    match w.phase with
    | .backfill none [] => [w.shard]
    | _ => []
  | _ => []

def step (s : Sys β) : Act β → Sys β
  | .commit c => s.commit codec c
  | .write => s.write
  | .openWatch p start =>
    { s with watches := Function.update s.watches s.next (some (.opened p start s.sent)), next := s.next + 1 }
  | .stream i a =>
    match s.watches i with
    | none => s
    | some w =>
      { s with cache := (w.step s a).1, watches := Function.update s.watches i (some (w.step s a).2),
               filled := fills w a ++ s.filled }
  | .gc k id => { s with cache := s.cache.idleGc k id }
  | .evict p => { s with cache := s.cache.evictResourceType p }

end Sys

def Cache.Bounded (c : Cache β) (n : ℕ) : Prop := ∀ id, ∀ e ∈ (c.heap id).ring, e.revision ≤ n

namespace Cache.Bounded

variable {c : Cache β} {n m : ℕ}

section

variable (h : c.Bounded n)
include h

theorem mono (hn : n ≤ m) : c.Bounded m := fun id e he => (h id e he).trans hn

theorem modify (id : ℕ) (hf : ∀ e ∈ (f (c.heap id)).ring, e.revision ≤ n) :
    (c.modify id f).Bounded n := by
  intro id' e he
  by_cases hid : id' = id
  · subst hid
    simp only [Cache.modify, Function.update_self] at he
    exact hf e he
  · simp only [Cache.modify, Function.update_of_ne hid] at he
    exact h id' e he

theorem pushRing (he : e.revision ≤ n) (id : ℕ) : (c.pushRing e id).Bounded n := by
  refine h.modify id (fun d hd => ?_)
  obtain hd | hd := List.mem_append.mp ((RingShard.pushRing_suffix _ e).subset hd)
  · exact h id d hd
  · exact List.mem_singleton.mp hd ▸ he

theorem maintainLog (e : InternalEvent β) (id : ℕ) : (c.maintainLog e id).Bounded n := h.modify id (h id)

theorem getOrCreate (k : String) : (c.getOrCreateShard k).1.Bounded n := by
  unfold getOrCreateShard
  split
  · exact h
  · intro id e he
    by_cases hid : id = c.next
    · subst hid
      simp [RingShard.new] at he
    · simp only [Function.update_of_ne hid] at he
      exact h id e he

theorem targets (w : Write β) : (c.targets w).1.Bounded n := by
  simp only [Cache.targets]
  split_ifs
  · exact h.getOrCreate _
  · exact h

theorem replayed {id : ℕ} (he : e ∈ c.replayed id p start) : e.revision ≤ n := h id e (List.mem_of_mem_filter he)

end

end Cache.Bounded

theorem Cache.heap_tearDown (c : Cache β) (k : String) : (c.tearDownShard k).heap = c.heap := by
  unfold tearDownShard
  split <;> rfl

theorem Cache.heap_idleGc (c : Cache β) (k : String) (id : ℕ) : (c.idleGc k id).heap = c.heap := by
  unfold idleGc
  split_ifs
  · exact c.heap_tearDown k
  · rfl

theorem Cache.heap_evict (c : Cache β) (p : String) : (c.evictResourceType p).heap = c.heap :=
  run_invariant (fun c' : Cache β => c'.heap = c.heap)
    (fun c' k h => (c'.heap_tearDown k).trans h) (c.rooted p) rfl

def Phase.items : Phase β → List (InternalEvent β)
  | .backfill logging es => logging.toList ++ es
  | .check es | .replay es | .catchup _ es => es
  | _ => []

structure Watch.Ordered (s : Sys β) (w : Watch β) : Prop where
  rxPos : w.rxPos ≤ s.sent
  items : ∀ e ∈ w.phase.items, e.revision ≤ s.log.length
  start : w.start ≤ w.lastReplayed
  last : w.lastReplayed ≤ max w.start s.log.length

/-- The log is the tables' history, the writer's counters follow one another, and nothing in the cache or the
streams is newer than the log. -/
structure Sys.Ordered (s : Sys β) : Prop where
  logged : Logged s.db s.events
  marked : s.marked ≤ s.sent
  sent : s.sent ≤ s.recorded
  recorded : s.recorded ≤ s.log.length
  lastWritten : s.lastWritten ≤ s.log.length
  bounded : s.cache.Bounded s.log.length
  fresh : ∀ i, s.next ≤ i → s.watches i = none
  watches : ∀ i w, s.watches i = some w → w.Ordered s

end U7s.Store
