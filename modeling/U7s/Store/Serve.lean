import U7s.Store.Interleaving

/-! A call that is served without interruption, so that the interleaved store and the sequential one agree. -/

namespace U7s.Store

open Runs List

variable {β : Type} (codec : JsonCodec β) {s : Sys β} {x : Write β}

def served (c : Call β) (n : ℕ) : List (Act β) := .commit c :: List.replicate n .write

def advances (i n : ℕ) : List (Act β) := List.replicate n (.stream i .advance)

structure Sys.Ready (s : Sys β) : Prop where
  lastWritten : s.lastWritten = s.log.length
  sent : s.sent = s.recorded
  marked : s.marked = s.recorded
  targets : s.targets = none
  logging : s.logging = none

def Sys.settle (s : Sys β) (c : Cache β) (n : ℕ) : Sys β :=
  { s with cache := c, recorded := s.recorded + n, sent := s.sent + n, marked := s.marked + n }

theorem Sys.run_push {id : ℕ} (h : s.lastWritten = s.log.length) (hsent : s.sent = s.recorded)
    (hmark : s.marked = s.recorded) (hx : s.log[s.recorded]? = some x) (ht : s.targets = some (id :: ids))
    (hl : s.logging = none) :
    run (step codec) s (replicate 2 .write) = { s with cache := s.cache.push x.event id, targets := some ids } := by
  simp [replicate, run_cons, step, write, h, hsent, hmark, hx, ht, hl, Cache.maintainLog_pushRing]

theorem Sys.run_pushes (h : s.lastWritten = s.log.length) (hsent : s.sent = s.recorded)
    (hmark : s.marked = s.recorded) (hx : s.log[s.recorded]? = some x) (ht : s.targets = some ids)
    (hl : s.logging = none) :
    run (step codec) s (replicate (2 * ids.length) .write) =
      { s with cache := ids.foldl (fun c id => c.push x.event id) s.cache, targets := some [] } := by
  induction ids generalizing s with
  | nil => simp [← ht]
  | cons id ids ih =>
    rw [length_cons, Nat.mul_succ, add_comm, replicate_add, run_append, run_push codec h hsent hmark hx ht hl]
    apply ih <;> first | assumption | rfl

theorem Sys.run_event (h : s.Ready) (hx : s.log[s.recorded]? = some x) :
    run (step codec) s (replicate (2 * (s.cache.targets x).2.length + 4) .write) =
      s.settle (s.cache.pushEventLocked x) 1 := by
  have h₁ : s.step codec .write =
      { s with cache := (s.cache.targets x).1, targets := some (s.cache.targets x).2 } := by
    simp [step, write, h.lastWritten, h.sent, h.marked, h.targets, h.logging, hx]
  have h₂ := run_pushes codec
    (s := { s with cache := (s.cache.targets x).1, targets := some (s.cache.targets x).2 })
    h.lastWritten h.sent h.marked hx rfl h.logging
  rw [replicate_succ, run_cons, h₁, replicate_add, run_append, h₂]
  simp only [replicate_succ, run_cons, step]
  -- the event is recorded, broadcast and followed by its bookmark
  simp [write, h.lastWritten, h.sent, h.marked, h.targets, h.logging, hx, settle, Cache.pushEventLocked]

theorem Sys.write_ready (h : s.Ready) (hr : s.recorded = s.log.length) : s.write = s := by
  simp [write, h.lastWritten, h.sent, h.marked, hr]

theorem Sys.run_ready (h : s.Ready) (hr : s.recorded = s.log.length) (n : ℕ) :
    run (step codec) s (replicate n .write) = s := by
  induction n with
  | zero => rfl
  | succ n ih => rw [replicate_succ, run_cons, step, write_ready h hr, ih]

theorem Sys.Ready.settle (h : s.Ready) (c : Cache β) (n : ℕ) : (s.settle c n).Ready := by
  refine ⟨h.lastWritten, ?_, ?_, h.targets, h.logging⟩ <;> simp [Sys.settle, h.sent, h.marked]

theorem Sys.run_events (ws : List (Write β)) (h : s.Ready) (hws : s.log.drop s.recorded = ws) :
    ∃ n, run (step codec) s (replicate n .write) =
      s.settle (ws.foldl Cache.pushEventLocked s.cache) ws.length := by
  induction ws generalizing s with
  | nil => exact ⟨0, rfl⟩
  | cons x ws ih =>
    have hx : s.log[s.recorded]? = some x := by
      rw [← head?_drop, hws]
      rfl
    have hws' : (s.settle (s.cache.pushEventLocked x) 1).log.drop (s.recorded + 1) = ws := by
      rw [← tail_drop]
      exact congrArg tail hws
    obtain ⟨n, hn⟩ := ih (h.settle _ 1) hws'
    refine ⟨2 * (s.cache.targets x).2.length + 4 + n, ?_⟩
    rw [replicate_add, run_append, run_event codec h hx, hn]
    simp [settle, add_assoc, add_comm]

def Sys.afterCall (s : Sys β) (c : Call β) : Sys β :=
  let o := perform codec s.db c
  { s with
    db := o.db
    log := s.log ++ o.writes
    lastWritten := s.log.length + o.writes.length
    cache := o.writes.foldl Cache.pushEventLocked s.cache
    recorded := s.recorded + o.writes.length
    sent := s.sent + o.writes.length
    marked := s.marked + o.writes.length }

theorem Sys.Ready.afterCall (h : s.Ready) (c : Call β) : (s.afterCall codec c).Ready := by
  refine ⟨?_, ?_, ?_, h.targets, h.logging⟩ <;> simp [Sys.afterCall, h.sent, h.marked]

theorem Sys.run_commit (h : s.Ready) (hr : s.recorded = s.log.length) (c : Call β) :
    ∃ n, ∀ m, run (step codec) s (served c (n + m)) =
      run (step codec) { s with
        db := (perform codec s.db c).db
        log := s.log ++ (perform codec s.db c).writes
        lastWritten := s.log.length + (perform codec s.db c).writes.length } (replicate m .write) := by
  have hc : s.step codec (.commit c) = { s with
      db := (perform codec s.db c).db, log := s.log ++ (perform codec s.db c).writes } := by
    simp [step, commit, h.marked, hr]
  cases hw : (perform codec s.db c).writes with
  | nil =>
    refine ⟨0, fun m => ?_⟩
    rw [served, run_cons, hc, hw]
    simp [h.lastWritten]
  | cons x ws =>
    refine ⟨1, fun m => ?_⟩
    rw [served, run_cons, hc, hw, add_comm 1 m, replicate_succ]
    simp [step, write, h.lastWritten]

theorem Sys.run_served (h : s.Ready) (hr : s.recorded = s.log.length) (c : Call β) :
    ∃ n, ∀ m, run (step codec) s (served c (n + m)) = s.afterCall codec c := by
  obtain ⟨n₁, h₁⟩ := run_commit codec h hr c
  have hready : Ready { s with
      db := (perform codec s.db c).db
      log := s.log ++ (perform codec s.db c).writes
      lastWritten := s.log.length + (perform codec s.db c).writes.length } :=
    ⟨by simp, h.sent, h.marked, h.targets, h.logging⟩
  obtain ⟨n₂, h₂⟩ := run_events codec (perform codec s.db c).writes hready (by simp [hr])
  refine ⟨n₁ + n₂, fun m => ?_⟩
  rw [add_assoc, h₁, replicate_add, run_append, h₂]
  exact run_ready codec (hready.settle _ _) (by simp [settle, hr]) m

def Act.byWriter : Act β → Bool
  | .commit _ | .write => true
  | _ => false

theorem Sys.run_calls (h : s.Ready) (hr : s.recorded = s.log.length) (cs : List (Call β)) :
    ∃ as : List (Act β), (∀ a ∈ as, a.byWriter) ∧
      run (step codec) s as = cs.foldl (afterCall codec) s := by
  induction cs generalizing s with
  | nil => exact ⟨[], by simp, rfl⟩
  | cons c cs ih =>
    obtain ⟨n, hn⟩ := run_served codec h hr c
    obtain ⟨as, has, hrun⟩ := ih (h.afterCall codec c) (by simp [afterCall, hr])
    refine ⟨served c (n + 0) ++ as, fun a ha => ?_, by rw [run_append, hn 0, hrun]; rfl⟩
    obtain ha | ha := mem_append.mp ha
    · obtain rfl | ha := mem_cons.mp ha
      · rfl
      · rw [(mem_replicate.mp ha).2]
        rfl
    · exact has a ha

theorem perform_put (key : String)
    (hs : stampResourceVersion codec value (db.revision + 1) = .ok (stamped, ns, objName))
    (hd : ∀ row, db.objects.lookup key = some row →
      semanticallyEqualIgnoringResourceVersion codec value row.value = false) :
    perform codec db (.put key value none []) =
      ⟨.ok (.revision (db.revision + 1)),
        upsert key ⟨stamped, db.revision + 1, ns, objName⟩ (incrementRevision db),
        [⟨⟨key, db.revision + 1, some stamped, (db.objects.lookup key).isNone, none⟩, ns⟩]⟩ := by
  have hf : (db.objects.lookup key).filter
      (fun row => semanticallyEqualIgnoringResourceVersion codec value row.value) = none := by
    cases hrow : db.objects.lookup key with
    | none => rfl
    | some row => simp [hd row hrow]
  have hrev : (incrementRevision db).revision = db.revision + 1 := rfl
  simp [perform, put, transaction, putSync, beginImmediate, execute, query, statement, commit, bind,
    StateT.bind, Except.bind, pure, StateT.pure, Except.pure, checkExpected, hf, hrev, hs, putEvent]

structure Sys.Matches (s : Sys β) (t : Server β) : Prop where
  db : s.db = t.db
  events : s.events = t.history.events
  cache : s.cache = t.history.cache

theorem History.cache_run (h : History β) (ws : List (Write β)) :
    (run History.record h ws).cache = ws.foldl Cache.pushEventLocked h.cache := by
  induction ws generalizing h with
  | nil => rfl
  | cons w ws ih => exact ih _

theorem Sys.Matches.calls (h : s.Matches t) (cs : List (Call β)) :
    (cs.foldl (afterCall codec) s).Matches (run (Server.step codec) t (cs.map .call)) := by
  induction cs generalizing s t with
  | nil => exact h
  | cons c cs ih =>
    refine ih ⟨?_, ?_, ?_⟩
    · rw [Server.step, Server.call, ← h.db]
      rfl
    · rw [Server.step, Server.call, events_run_record, ← h.events, ← h.db]
      exact map_append
    · rw [Server.step, Server.call, History.cache_run, ← h.cache, ← h.db]
      rfl

/-- The sequential store is one of the runs of the interleaved one. -/
theorem calls_refined (cs : List (Call β)) : ∃ as : List (Act β),
    (run (Sys.step codec) Sys.new as).Matches (run (Server.step codec) Server.new (cs.map .call)) := by
  obtain ⟨as, -, hrun⟩ := Sys.run_calls codec (s := Sys.new) ⟨rfl, rfl, rfl, rfl, rfl⟩ rfl cs
  exact ⟨as, hrun ▸ Sys.Matches.calls codec ⟨rfl, rfl, rfl⟩ cs⟩

end U7s.Store
