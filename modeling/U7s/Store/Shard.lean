import U7s.Lib.Ring
import U7s.Store.Commits
import U7s.Store.Keys

namespace U7s.Store

open Text (startsWith)

def RING_CAPACITY : ℕ := 512

def FULL_TIER_CAP : ℕ := RING_CAPACITY

def STRIPPED_TIER_CAP : ℕ := 2 * RING_CAPACITY

variable {β : Type}

inductive DeletionLogEntry (β : Type) where
  | full (event : InternalEvent β)
  | stripped (revision : ℕ)

def DeletionLogEntry.revision : DeletionLogEntry β → ℕ
  | .full event => event.revision
  | .stripped revision => revision

inductive WatchEvent (β : Type) where
  | added (key : String) (revision : ℕ) (value : β)
  | modified (key : String) (revision : ℕ) (value : β)
  | deleted (key : String) (revision : ℕ) (body : Option β)
  | bookmark (revision : ℕ)
  | compacted (requested horizon : ℕ)
  deriving DecidableEq

def internalToWatch (event : InternalEvent β) : WatchEvent β :=
  match event.value with
  | some value =>
    if event.isCreate then .added event.key event.revision value
    else .modified event.key event.revision value
  | none => .deleted event.key event.revision event.deletedBody

def DeletionLogEntry.toWatchEvent (key : String) : DeletionLogEntry β → WatchEvent β
  | .full event => internalToWatch event
  | .stripped revision => .deleted key revision none

/-- `by_revision` and `full_revisions` are sorted maps and sets in the source, sorted lists here. -/
structure DeletionLog (β : Type) where
  byKey : AList (fun _ : String => DeletionLogEntry β)
  byRevision : List (ℕ × String)
  fullRevisions : List ℕ

namespace DeletionLog

def empty : DeletionLog β := ⟨∅, [], []⟩

def insertDeletion (log : DeletionLog β) (event : InternalEvent β) : DeletionLog β where
  byKey := log.byKey.insert event.key (.full event)
  byRevision := (log.byRevision.filter (fun p => p.1 ≠ event.revision)).orderedInsert
    (fun p q => p.1 ≤ q.1) (event.revision, event.key)
  fullRevisions := (log.fullRevisions.filter (· ≠ event.revision)).orderedInsert (· ≤ ·) event.revision

def downgrade (log : DeletionLog β) : DeletionLog β :=
  match log.fullRevisions with
  | [] => log
  | r :: rest =>
    if FULL_TIER_CAP < log.fullRevisions.length then
      match log.byRevision.lookup r with
      | none => { log with fullRevisions := rest }
      | some key => { log with fullRevisions := rest, byKey := log.byKey.insert key (.stripped r) }
    else log

def evictOldest (log : DeletionLog β) : DeletionLog β :=
  match log.byRevision with
  | [] => log
  | (r, key) :: rest =>
    if STRIPPED_TIER_CAP < log.byKey.entries.length then
      ⟨log.byKey.erase key, rest, log.fullRevisions.filter (· ≠ r)⟩
    else log

def removeTombstone (log : DeletionLog β) (key : String) : DeletionLog β :=
  match log.byKey.lookup key with
  | none => log
  | some old =>
    ⟨log.byKey.erase key, log.byRevision.filter (fun p => p.1 ≠ old.revision),
      log.fullRevisions.filter (· ≠ old.revision)⟩

def record (log : DeletionLog β) (event : InternalEvent β) : DeletionLog β :=
  match event.value with
  | none => ((log.insertDeletion event).downgrade).evictOldest
  | some _ => log.removeTombstone event.key

def tombstones (log : DeletionLog β) (p : String) (start : ℕ) : List (ℕ × WatchEvent β) :=
  (log.byKey.entries.filter (fun e => startsWith e.1 p && start < e.2.revision)).map
    (fun e => (e.2.revision, e.2.toWatchEvent e.1))

end DeletionLog

structure RingShard (β : Type) extends Ring.Buffer (InternalEvent β) where
  deletionLog : DeletionLog β
  watchers : ℕ

def RingShard.new (horizon : ℕ) : RingShard β := ⟨⟨[], horizon⟩, .empty, 0⟩

def RingShard.pushRing (shard : RingShard β) (event : InternalEvent β) : RingShard β :=
  { shard with toBuffer := shard.toBuffer.push RING_CAPACITY InternalEvent.revision event }

def RingShard.maintainLog (shard : RingShard β) (event : InternalEvent β) : RingShard β :=
  { shard with deletionLog := shard.deletionLog.record event }

/-- The ring and the deletion log have a lock each, so that another thread can come between. -/
def pushIntoShard (shard : RingShard β) (event : InternalEvent β) : RingShard β :=
  (shard.pushRing event).maintainLog event

def RingShard.floor (shard : RingShard β) : ℕ :=
  max shard.horizon (shard.ring.getLast?.elim 0 InternalEvent.revision)

theorem ringCapacity_pos : 0 < RING_CAPACITY := by decide

theorem RingShard.pushRing_suffix (shard : RingShard β) (event : InternalEvent β) :
    (shard.pushRing event).ring <:+ shard.ring ++ [event] :=
  shard.toBuffer.push_suffix event

theorem RingShard.horizon_le_pushRing (shard : RingShard β) (event : InternalEvent β) :
    shard.horizon ≤ (shard.pushRing event).horizon :=
  shard.toBuffer.horizon_le_push event

theorem pushIntoShard_floor (shard : RingShard β) (event : InternalEvent β) :
    (pushIntoShard shard event).floor = max (pushIntoShard shard event).horizon event.revision := by
  have h := shard.toBuffer.getLast?_push ringCapacity_pos InternalEvent.revision event
  simp [RingShard.floor, pushIntoShard, RingShard.maintainLog, RingShard.pushRing, h]

theorem foldl_pushIntoShard (s : RingShard β) (es : List (InternalEvent β)) :
    (es.foldl pushIntoShard s).toBuffer =
      es.foldl (Ring.Buffer.push RING_CAPACITY InternalEvent.revision) s.toBuffer := by
  induction es generalizing s with
  | nil => rfl
  | cons e es ih => exact ih (pushIntoShard s e)

end U7s.Store
