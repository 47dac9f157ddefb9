import U7s.Store.Stream

namespace U7s.Store

open Runs Replay List Function
open Text (startsWith)

variable {β : Type} (codec : JsonCodec β) {s : Sys β} {w : Watch β}

theorem Logged.listed_bounded (h : Logged db log) (he : e ∈ db.listed p) : e.revision ≤ log.length := by
  obtain ⟨k, row, hrow, -, rfl⟩ := mem_listed.mp he
  obtain ⟨d, hd, -, hr⟩ := h.of_row hrow
  exact hr.ge.trans (h.mem_bounds (lastFor_mem hd).1).2

theorem revisionOf_internalToWatch (e : InternalEvent β) : Watch.revisionOf (internalToWatch e) = e.revision := by
  unfold internalToWatch
  cases e.value with
  | none => rfl
  | some v => cases e.isCreate <;> rfl

def Phase.opening : Phase β → Bool
  | .subscribe | .resolve | .create | .list | .backfill _ _ | .attach | .loadHorizon | .snapshot => true
  | _ => false

structure Watch.Keeps (w w' : Watch β) : Prop where
  p : w'.p = w.p
  start : w'.start = w.start
  rxPos : w'.rxPos = w.rxPos
  lastReplayed : w'.lastReplayed = w.lastReplayed
  lastRv : w'.lastRv = w.lastRv
  out : w'.out = w.out

theorem Watch.Keeps.refl (w : Watch β) : w.Keeps w := ⟨rfl, rfl, rfl, rfl, rfl, rfl⟩

inductive Watch.Moves (s : Sys β) (w : Watch β) : StreamAct → Watch β → Prop
  | opens {w' : Watch β} (h : w.phase.opening) (hne : w.phase ≠ .snapshot) (hk : w.Keeps w')
      (hb : w'.bookmarkRv = w.bookmarkRv) (h' : w'.phase.opening)
      (hi : ∀ e ∈ w'.phase.items, e ∈ w.phase.items ∨ e ∈ s.db.listed w.p) : Moves s w .advance w'
  | snapshot (h : w.phase = .snapshot) :
      Moves s w .advance { w with phase := .check (s.cache.replayed w.shard w.p w.start) }
  | accept {es : List (InternalEvent β)} (h : w.phase = .check es)
      (hh : ¬ (0 < w.start ∧ w.start < w.horizon)) : Moves s w .advance { w with phase := .replay es }
  | expire {es : List (InternalEvent β)} (h : w.phase = .check es) (h0 : 0 < w.start)
      (hh : w.start < w.horizon) :
      Moves s w .advance { w.yield ((w.tombstones s.cache).map Prod.snd ++
        [.compacted w.start w.horizon]) with phase := .closed }
  | next {e : InternalEvent β} {es : List (InternalEvent β)} {ph : Phase β}
      (h : (w.phase = .replay (e :: es) ∧ ph = .replay es) ∨
        ∃ sc, w.phase = .catchup sc (e :: es) ∧ ph = .catchup sc es) :
      Moves s w .advance { w.yield [internalToWatch e] with
        lastReplayed := max w.lastReplayed e.revision, phase := ph }
  | live (h : w.phase = .replay []) : Moves s w .advance { w with phase := .live }
  | rescan (h : w.phase = .lagged) :
      Moves s w .advance { w with phase := .catchup (s.cache.findShard w.p) (w.scan s.cache) }
  | recover {sc : Option ℕ} (h : w.phase = .catchup sc [])
      (hh : w.currentHorizon s.cache ≤ w.lastReplayed) : Moves s w .advance { w with phase := .live }
  | giveUp {sc : Option ℕ} (h : w.phase = .catchup sc [])
      (hh : w.lastReplayed < w.currentHorizon s.cache) :
      Moves s w .advance { w.yield ((w.tombstones s.cache).map Prod.snd ++
        [.compacted ((w.tombstones s.cache).foldl (fun r t => max r t.1) w.lastReplayed)
          (w.currentHorizon s.cache)]) with phase := .closed }
  | cancel : Moves s w .cancel { w with phase := .closed }
  | lag (h : w.phase = .live) (hlag : BROADCAST_CAPACITY < s.sent - w.rxPos) :
      Moves s w .recv { w with rxPos := s.sent, idle := false, phase := .lagged }
  | drop {e : InternalEvent β} (h : w.phase = .live) (hlt : w.rxPos < s.sent)
      (he : s.events[w.rxPos]? = some e) (hd : ¬ (startsWith e.key w.p ∧ w.lastReplayed < e.revision)) :
      Moves s w .recv { w with rxPos := w.rxPos + 1, idle := false }
  | deliver {e : InternalEvent β} (h : w.phase = .live) (hlt : w.rxPos < s.sent)
      (he : s.events[w.rxPos]? = some e) (hp : startsWith e.key w.p)
      (hr : w.lastReplayed < e.revision) :
      Moves s w .recv { w.yield [internalToWatch e, .bookmark e.revision] with
        rxPos := w.rxPos + 1, idle := false, lastReplayed := e.revision }
  | debounce (h : w.phase = .live) :
      Moves s w .debounce { w.yield [.bookmark (max w.bookmarkRv w.lastReplayed)] with
        debouncePending := false, idle := false }
  | heartbeat (h : w.phase = .live) :
      Moves s w .heartbeat { w.yield [w.ownBookmark s] with idle := false }
  | timeout (h : w.phase = .live) :
      Moves s w .timeout { w.yield [w.ownBookmark s] with phase := .closed }
  | quiet {a : StreamAct} {w' : Watch β} (hk : w.Keeps w') (hp : w'.phase = w.phase)
      (hs : w'.shard = w.shard) (hh : w'.horizon = w.horizon)
      (hb : w'.bookmarkRv ≤ max w.bookmarkRv s.log.length) : Moves s w a w'

theorem Watch.Moves.refl (s : Sys β) (w : Watch β) (a : StreamAct) : w.Moves s a w :=
  .quiet (.refl w) rfl rfl rfl (le_max_left _ _)

theorem Watch.Moves.start (hm : w.Moves s a w') : w'.start = w.start ∧ w'.p = w.p := by
  cases hm with
  | opens _ _ hk | quiet hk => exact ⟨hk.start, hk.p⟩
  | _ => exact ⟨rfl, rfl⟩

theorem Watch.advance_moves (s : Sys β) (w : Watch β) : w.Moves s .advance (w.advance s).2 := by
  cases hph : w.phase with
  | subscribe | create | attach | loadHorizon =>
    simp only [advance, hph]
    exact .opens (by rw [hph]; rfl) (by simp [hph]) ⟨rfl, rfl, rfl, rfl, rfl, rfl⟩ rfl rfl (by simp [Phase.items])
  | resolve =>
    simp only [advance, hph]
    split <;> exact .opens (by rw [hph]; rfl) (by simp [hph]) ⟨rfl, rfl, rfl, rfl, rfl, rfl⟩ rfl rfl
      (by simp [Phase.items])
  | list =>
    simp only [advance, hph]
    exact .opens (by rw [hph]; rfl) (by simp [hph]) ⟨rfl, rfl, rfl, rfl, rfl, rfl⟩ rfl rfl
      (fun e he => .inr he)
  | backfill logging es =>
    cases logging with
    | none =>
      cases es <;> simp only [advance, hph] <;> exact .opens (by rw [hph]; rfl) (by simp [hph])
        ⟨rfl, rfl, rfl, rfl, rfl, rfl⟩ rfl rfl (fun d hd => .inl (by rw [hph]; exact hd))
    | some e =>
      simp only [advance, hph]
      refine .opens (by rw [hph]; rfl) (by simp [hph]) ⟨rfl, rfl, rfl, rfl, rfl, rfl⟩ rfl rfl (fun d hd => .inl ?_)
      rw [hph]
      exact mem_append_right _ hd
  | snapshot =>
    simp only [advance, hph]
    exact .snapshot hph
  | check es =>
    simp only [advance, hph]
    split_ifs with he
    · exact .expire hph he.1 he.2
    · exact .accept hph he
  | replay es =>
    cases es with
    | nil =>
      simp only [advance, hph]
      exact .live hph
    | cons e es =>
      simp only [advance, hph]
      exact .next (.inl ⟨hph, rfl⟩)
  | lagged =>
    simp only [advance, hph]
    exact .rescan hph
  | catchup sc es =>
    cases es with
    | nil =>
      simp only [advance, hph]
      split_ifs with hh
      · exact .giveUp hph hh
      · exact .recover hph (not_lt.mp hh)
    | cons e es =>
      simp only [advance, hph]
      exact .next (.inr ⟨sc, hph, rfl⟩)
  | live | closed =>
    simp only [advance, hph]
    exact .refl s w _

section

variable (hs : s.Ordered)
include hs

theorem Watch.recv_moves (h : w.phase = .live) : w.Moves s .recv (w.recv s) := by
  unfold recv
  split_ifs with hlag hread
  · exact .lag h hlag
  · have hlt : w.rxPos < s.log.length := hread.trans_le (hs.sent.trans hs.recorded)
    have hx : s.log[w.rxPos]? = some s.log[w.rxPos] := getElem?_eq_getElem hlt
    have he : s.events[w.rxPos]? = some (s.log[w.rxPos]).event := by
      rw [Sys.events, getElem?_map, hx]
      rfl
    rw [hx]
    dsimp only
    split_ifs with hp hr
    · exact .drop h hread he (fun hc => by simp [hc.1] at hp)
    · exact .drop h hread he (fun hc => absurd hc.2 (not_lt.mpr hr))
    · exact .deliver h hread he (by simpa using hp) (not_le.mp hr)
  · exact .refl s w _

theorem Watch.recvBookmark_moves (w : Watch β) (a : StreamAct) :
    w.Moves s a (w.recvBookmark s) := by
  unfold recvBookmark
  split_ifs
  · exact .quiet ⟨rfl, rfl, rfl, rfl, rfl, rfl⟩ rfl rfl rfl (le_max_left _ _)
  · split
    · exact .refl s w a
    case h_2 x hx =>
      have he : x.event ∈ s.events := mem_map_of_mem (mem_of_getElem? hx)
      have hb : x.event.revision ≤ s.log.length := by
        simpa [Sys.events] using (hs.logged.mem_bounds he).2
      dsimp only
      split_ifs
      · exact .quiet ⟨rfl, rfl, rfl, rfl, rfl, rfl⟩ rfl rfl rfl (le_max_left _ _)
      · exact .quiet ⟨rfl, rfl, rfl, rfl, rfl, rfl⟩ rfl rfl rfl (hb.trans (le_max_right _ _))
      · exact .quiet ⟨rfl, rfl, rfl, rfl, rfl, rfl⟩ rfl rfl rfl (le_max_left _ _)
  · exact .refl s w a

theorem Watch.step_moves (w : Watch β) (a : StreamAct) : w.Moves s a (w.step s a).2 := by
  cases hl : w.phase with
  | live =>
    cases a with
    | advance => exact w.advance_moves s
    | cancel => exact .cancel
    | recv =>
      simp only [step, hl]
      exact recv_moves hs hl
    | recvBookmark =>
      simp only [step, hl]
      exact w.recvBookmark_moves hs _
    | debounce =>
      simp only [step, hl]
      split_ifs
      · exact .debounce hl
      · exact .refl s w _
    | poll =>
      simp only [step, hl]
      split_ifs
      · exact .quiet ⟨rfl, rfl, rfl, rfl, rfl, rfl⟩ hl.symm rfl rfl (le_max_left _ _)
      · exact .refl s w _
    | heartbeat =>
      simp only [step, hl]
      split_ifs
      · exact .heartbeat hl
      · exact .refl s w _
    | timeout =>
      simp only [step, hl]
      split_ifs
      · exact .timeout hl
      · exact .refl s w _
  | _ =>
    cases a with
    | advance => exact w.advance_moves s
    | cancel => exact .cancel
    | _ =>
      simp only [step, hl]
      exact .refl s w _

theorem Sys.Ordered.revision_le (he : e ∈ s.events) : e.revision ≤ s.log.length := by
  simpa [events] using (hs.logged.mem_bounds he).2

theorem Watch.scan_bounded (he : e ∈ w.scan s.cache) : e.revision ≤ s.log.length := by
  unfold scan at he
  split at he
  · exact hs.bounded.replayed he
  · simp at he

theorem Watch.Ordered.moves (h : w.Ordered s) (hm : w.Moves s a w') : w'.Ordered s := by
  cases hm with
  | opens _ _ hk _ _ hi =>
    refine ⟨hk.rxPos ▸ h.rxPos, fun e he => ?_, ?_, ?_⟩
    · obtain he | he := hi e he
      · exact h.items e he
      · simpa [Sys.events] using hs.logged.listed_bounded he
    · rw [hk.start, hk.lastReplayed]
      exact h.start
    · rw [hk.start, hk.lastReplayed]
      exact h.last
  | snapshot => exact ⟨h.rxPos, fun e he => hs.bounded.replayed he, h.start, h.last⟩
  | accept hp =>
    have hi := h.items
    rw [hp] at hi
    exact ⟨h.rxPos, hi, h.start, h.last⟩
  | @next e es ph hp =>
    have hi : w.phase.items = e :: es ∧ ph.items = es := by
      obtain ⟨hp, rfl⟩ | ⟨sc, hp, rfl⟩ := hp <;> exact ⟨by rw [hp]; rfl, rfl⟩
    refine ⟨h.rxPos, fun d hd => h.items d ?_, h.start.trans (le_max_left _ _), ?_⟩
    · rw [hi.1]
      exact mem_cons_of_mem _ (hi.2 ▸ hd)
    · exact max_le h.last ((h.items e (by simp [hi.1])).trans (le_max_right _ _))
  | rescan => exact ⟨h.rxPos, fun e he => scan_bounded hs he, h.start, h.last⟩
  | expire | live | recover | giveUp | cancel | timeout =>
    exact ⟨h.rxPos, by simp [Phase.items], h.start, h.last⟩
  | lag => exact ⟨le_rfl, by simp [Phase.items], h.start, h.last⟩
  | drop _ hlt => exact ⟨hlt, h.items, h.start, h.last⟩
  | deliver _ hlt he _ hr =>
    exact ⟨hlt, h.items, h.start.trans hr.le,
      (hs.revision_le (mem_of_getElem? he)).trans (le_max_right _ _)⟩
  | debounce | heartbeat => exact ⟨h.rxPos, h.items, h.start, h.last⟩
  | quiet hk hp =>
    refine ⟨hk.rxPos ▸ h.rxPos, hp ▸ h.items, ?_, ?_⟩
    · rw [hk.start, hk.lastReplayed]
      exact h.start
    · rw [hk.start, hk.lastReplayed]
      exact h.last

theorem Watch.step_ordered (h : w.Ordered s) (a : StreamAct) :
    (w.step s a).2.Ordered s := h.moves hs (w.step_moves hs a)

end

theorem Watch.close_cache (c : Cache β) {w' : Watch β} (hp : w'.phase = w.phase) (hs : w'.shard = w.shard) :
    (w'.close c).1 = c ∨ (w.phase.attached ∧ (w'.close c).1 = c.detach w.shard) := by
  rw [← hp, ← hs]
  by_cases ha : w'.phase.attached
  · exact .inr ⟨ha, by simp [close, ha]⟩
  · exact .inl (by simp [close, ha])

theorem Watch.step_cache (s : Sys β) (w : Watch β) (a : StreamAct) :
    (w.step s a).1 = s.cache ∨
    (w.phase.attached ∧ (w.step s a).1 = s.cache.detach w.shard) ∨
    (a = .advance ∧ w.phase = .create ∧ (w.step s a).1 = (s.cache.getOrCreateShard w.p).1) ∨
    (a = .advance ∧ (∃ e es, w.phase = .backfill none (e :: es) ∧ (w.step s a).1 = s.cache.pushRing e w.shard)) ∨
    (a = .advance ∧ (∃ e es, w.phase = .backfill (some e) es ∧ (w.step s a).1 = s.cache.maintainLog e w.shard)) ∨
    (a = .advance ∧ w.phase = .attach ∧ (w.step s a).1 = s.cache.attach w.shard) := by
  have hclose (w' : Watch β) (hp : w'.phase = w.phase) (hs : w'.shard = w.shard) :=
    close_cache s.cache hp hs
  cases a with
  | advance =>
    rw [step]
    cases hph : w.phase with
    | create => exact .inr (.inr (.inl ⟨rfl, rfl, by simp only [advance, hph]⟩))
    | attach => exact .inr (.inr (.inr (.inr (.inr ⟨rfl, rfl, by simp only [advance, hph]⟩))))
    | backfill logging es =>
      cases logging with
      | some e => exact .inr (.inr (.inr (.inr (.inl ⟨rfl, e, es, rfl, by simp only [advance, hph]⟩))))
      | none =>
        cases es with
        | nil => exact .inl (by simp only [advance, hph])
        | cons e es => exact .inr (.inr (.inr (.inl ⟨rfl, e, es, rfl, by simp only [advance, hph]⟩)))
    | resolve =>
      left
      simp only [advance, hph]
      split <;> rfl
    | check es =>
      simp only [advance, hph]
      split_ifs
      · exact (hclose _ rfl rfl).imp_right fun h => .inl (hph ▸ h)
      · exact .inl rfl
    | catchup scanned es =>
      cases es with
      | nil =>
        simp only [advance, hph]
        split_ifs
        · exact (hclose _ rfl rfl).imp_right fun h => .inl (hph ▸ h)
        · exact .inl rfl
      | cons e es => exact .inl (by simp only [advance, hph])
    | replay es => cases es <;> exact .inl (by simp only [advance, hph])
    | subscribe | list | loadHorizon | snapshot | live | lagged | closed =>
      exact .inl (by simp only [advance, hph])
  | cancel => exact (hclose w rfl rfl).imp_right .inl
  | timeout =>
    cases hl : w.phase with
    | live =>
      simp only [step, hl]
      split_ifs
      · exact (hclose _ rfl rfl).imp_right fun h => .inl (hl ▸ h)
      · exact .inl rfl
    | _ => exact .inl (by simp only [step, hl])
  | recv | recvBookmark =>
    left
    cases hl : w.phase <;> simp only [step, hl]
  | debounce | poll | heartbeat =>
    left
    cases hl : w.phase with
    | live =>
      simp only [step, hl]
      split_ifs <;> rfl
    | _ => simp only [step, hl]

theorem Watch.step_bounded (hs : s.Ordered) (h : w.Ordered s) (a : StreamAct) :
    (w.step s a).1.Bounded s.log.length := by
  obtain hc | ⟨-, hc⟩ | ⟨-, -, hc⟩ | ⟨-, e, es, hph, hc⟩ | ⟨-, e, es, -, hc⟩ | ⟨-, -, hc⟩ := w.step_cache s a
  · exact hc ▸ hs.bounded
  · exact hc ▸ hs.bounded.modify _ (fun e he => hs.bounded _ e he)
  · exact hc ▸ hs.bounded.getOrCreate _
  · exact hc ▸ hs.bounded.pushRing (h.items e (by simp [hph, Phase.items])) _
  · exact hc ▸ hs.bounded.maintainLog _ _
  · exact hc ▸ hs.bounded.modify _ (fun e he => hs.bounded _ e he)

theorem Sys.write_cases (s : Sys β) :
    (s.lastWritten < s.log.length ∧ s.write = { s with lastWritten := s.log.length }) ∨
    (s.marked < s.sent ∧ s.write = { s with marked := s.marked + 1 }) ∨
    (s.sent ≤ s.marked ∧ s.sent < s.recorded ∧ s.write = { s with sent := s.sent + 1 }) ∨
    s.write = s ∨
    (s.sent ≤ s.marked ∧ s.recorded ≤ s.sent ∧ ∃ x, s.log[s.recorded]? = some x ∧
      ((s.logging = none ∧
          ((s.targets = none ∧
              s.write = { s with cache := (s.cache.targets x).1, targets := some (s.cache.targets x).2 }) ∨
            (s.targets = some [] ∧ s.write = { s with targets := none, recorded := s.recorded + 1 }) ∨
            ∃ id ids, s.targets = some (id :: ids) ∧ s.write =
              { s with cache := s.cache.pushRing x.event id, targets := some ids, logging := some id })) ∨
        ∃ id, s.logging = some id ∧
          s.write = { s with cache := s.cache.maintainLog x.event id, logging := none })) := by
  unfold write
  split_ifs with h1 h2 h3
  · exact .inl ⟨h1, rfl⟩
  · exact .inr (.inl ⟨h2, rfl⟩)
  · exact .inr (.inr (.inl ⟨not_lt.mp h2, h3, rfl⟩))
  · right; right; right
    cases hx : s.log[s.recorded]? with
    | none => exact .inl rfl
    | some x =>
      refine .inr ⟨not_lt.mp h2, not_lt.mp h3, x, rfl, ?_⟩
      match hl : s.logging, ht : s.targets with
      | some id, _ => exact .inr ⟨id, rfl, rfl⟩
      | none, none => exact .inl ⟨rfl, .inl ⟨rfl, rfl⟩⟩
      | none, some [] => exact .inl ⟨rfl, .inr (.inl ⟨rfl, rfl⟩)⟩
      | none, some (id :: ids) => exact .inl ⟨rfl, .inr (.inr ⟨id, ids, rfl, rfl⟩)⟩

theorem Sys.write_frame (s : Sys β) :
    s.write.log = s.log ∧ s.write.watches = s.watches ∧ s.write.filled = s.filled := by
  obtain ⟨-, h⟩ | ⟨-, h⟩ | ⟨-, -, h⟩ | h | ⟨-, -, x, -, ⟨-, ⟨-, h⟩ | ⟨-, h⟩ | ⟨id, ids, -, h⟩⟩ | ⟨id, -, h⟩⟩ :=
    s.write_cases <;> rw [h] <;> exact ⟨rfl, rfl, rfl⟩

theorem Sys.commit_cases (s : Sys β) (c : Call β) :
    s.commit codec c = s ∨
    (s.marked = s.log.length ∧ Commits codec s.db (perform codec s.db c).writes (perform codec s.db c).db ∧
      s.commit codec c = { s with db := (perform codec s.db c).db
                                  log := s.log ++ (perform codec s.db c).writes }) := by
  unfold commit
  split_ifs with h
  · exact .inr ⟨h, perform_commits codec s.db c, rfl⟩
  · exact .inl rfl

structure Cache.Grows (c d : Cache β) : Prop where
  next : c.next ≤ d.next
  horizon : ∀ id < c.next, (c.heap id).horizon ≤ (d.heap id).horizon

namespace Cache.Grows

variable {c d e : Cache β}

theorem refl (c : Cache β) : c.Grows c := ⟨le_rfl, fun _ _ => le_rfl⟩

theorem trans (h : c.Grows d) (h' : d.Grows e) : c.Grows e :=
  ⟨h.next.trans h'.next, fun id hid => (h.horizon id hid).trans (h'.horizon id (hid.trans_le h.next))⟩

theorem modify (c : Cache β) (id : ℕ) (hf : (c.heap id).horizon ≤ (f (c.heap id)).horizon) :
    c.Grows (c.modify id f) := by
  refine ⟨le_rfl, fun id' _ => ?_⟩
  by_cases hid : id' = id
  · subst hid
    simpa [Cache.modify] using hf
  · simp [Cache.modify, update_of_ne hid]

theorem pushRing (c : Cache β) (event : InternalEvent β) (id : ℕ) : c.Grows (c.pushRing event id) :=
  modify c id (RingShard.horizon_le_pushRing _ _)

theorem maintainLog (c : Cache β) (event : InternalEvent β) (id : ℕ) : c.Grows (c.maintainLog event id) :=
  modify c id le_rfl

theorem getOrCreate (c : Cache β) (k : String) : c.Grows (c.getOrCreateShard k).1 := by
  unfold getOrCreateShard
  split
  · exact refl c
  · refine ⟨Nat.le_succ _, fun id hid => ?_⟩
    simp [update_of_ne hid.ne]

theorem targets (c : Cache β) (w : Write β) : c.Grows (c.targets w).1 := by
  simp only [Cache.targets]
  split_ifs
  · exact getOrCreate c _
  · exact refl c

theorem tearDown (c : Cache β) (k : String) : c.Grows (c.tearDownShard k) := by
  unfold tearDownShard
  split <;> exact ⟨le_rfl, fun _ _ => le_rfl⟩

theorem idleGc (c : Cache β) (k : String) (id : ℕ) : c.Grows (c.idleGc k id) := by
  unfold Cache.idleGc
  split_ifs
  · exact tearDown c k
  · exact refl c

theorem evict (c : Cache β) (p : String) : c.Grows (c.evictResourceType p) :=
  run_invariant (fun d : Cache β => c.Grows d) (fun d k h => h.trans (tearDown d k)) (c.rooted p) (refl c)

theorem step (s : Sys β) (w : Watch β) (a : StreamAct) : s.cache.Grows (w.step s a).1 := by
  obtain hc | ⟨-, hc⟩ | ⟨-, -, hc⟩ | ⟨-, e, es, -, hc⟩ | ⟨-, e, es, -, hc⟩ | ⟨-, -, hc⟩ := w.step_cache s a
  · exact hc ▸ refl _
  · exact hc ▸ modify _ _ le_rfl
  · exact hc ▸ getOrCreate _ _
  · exact hc ▸ pushRing _ _ _
  · exact hc ▸ maintainLog _ _ _
  · exact hc ▸ modify _ _ le_rfl

end Cache.Grows

structure Sys.Grows (s t : Sys β) : Prop where
  log : s.log <+: t.log
  sent : s.sent ≤ t.sent
  recorded : s.recorded ≤ t.recorded
  cache : s.cache.Grows t.cache

theorem Sys.Grows.refl (s : Sys β) : s.Grows s := ⟨prefix_rfl, le_rfl, le_rfl, .refl _⟩

theorem Sys.Grows.length (h : s.Grows t) : s.log.length ≤ t.log.length := h.log.length_le

theorem Sys.Grows.events (h : s.Grows t) : s.events <+: t.events := h.log.map _

theorem Sys.grows_write (s : Sys β) : s.Grows s.write := by
  obtain ⟨-, h⟩ | ⟨-, h⟩ | ⟨-, -, h⟩ | h | ⟨-, -, x, -, ⟨-, ⟨-, h⟩ | ⟨-, h⟩ | ⟨id, ids, -, h⟩⟩ | ⟨id, -, h⟩⟩ :=
    s.write_cases <;> rw [h]
  · exact ⟨prefix_rfl, le_rfl, le_rfl, .refl _⟩
  · exact ⟨prefix_rfl, le_rfl, le_rfl, .refl _⟩
  · exact ⟨prefix_rfl, Nat.le_succ _, le_rfl, .refl _⟩
  · exact .refl s
  · exact ⟨prefix_rfl, le_rfl, le_rfl, .targets _ _⟩
  · exact ⟨prefix_rfl, le_rfl, Nat.le_succ _, .refl _⟩
  · exact ⟨prefix_rfl, le_rfl, le_rfl, .pushRing _ _ _⟩
  · exact ⟨prefix_rfl, le_rfl, le_rfl, .maintainLog _ _ _⟩

theorem Sys.grows_step (s : Sys β) (a : Act β) : s.Grows (s.step codec a) := by
  cases a with
  | commit c =>
    obtain h | ⟨-, -, h⟩ := s.commit_cases codec c
    · simpa only [step, h] using Grows.refl s
    · simpa only [step, h] using ⟨prefix_append _ _, le_rfl, le_rfl, .refl _⟩
  | write => exact s.grows_write
  | openWatch p start => exact ⟨prefix_rfl, le_rfl, le_rfl, .refl _⟩
  | stream i a =>
    simp only [step]
    split
    · exact .refl s
    · exact ⟨prefix_rfl, le_rfl, le_rfl, .step s _ a⟩
  | gc k id => exact ⟨prefix_rfl, le_rfl, le_rfl, .idleGc _ k id⟩
  | evict p => exact ⟨prefix_rfl, le_rfl, le_rfl, .evict _ p⟩

theorem Sys.step_watch (hs : s.Ordered) (hw : s.watches i = some w) (a : Act β) :
    (∃ x, a = .stream i x ∧ s.step codec a = { s with
        cache := (w.step s x).1
        watches := update s.watches i (some (w.step s x).2)
        filled := fills w x ++ s.filled }) ∨
    ((∀ x, a ≠ .stream i x) ∧ (s.step codec a).watches i = some w) := by
  cases a with
  | commit c =>
    refine .inr ⟨by simp, ?_⟩
    obtain h | ⟨-, -, h⟩ := s.commit_cases codec c <;> simpa only [step, h] using hw
  | write =>
    refine .inr ⟨by simp, ?_⟩
    rwa [step, s.write_frame.2.1]
  | openWatch p start =>
    refine .inr ⟨by simp, ?_⟩
    have hne : i ≠ s.next := by
      rintro rfl
      simp [hs.fresh _ le_rfl] at hw
    simpa only [step, update_of_ne hne] using hw
  | stream j a =>
    by_cases hj : j = i
    · subst hj
      exact .inl ⟨a, rfl, by simp only [step, hw]⟩
    · refine .inr ⟨by simp [hj], ?_⟩
      simp only [step]
      split
      · exact hw
      · simpa only [update_of_ne (Ne.symm hj)] using hw
  | gc k id | evict p => exact .inr ⟨by simp, hw⟩

theorem Watch.Ordered.mono (h : w.Ordered s) (hg : s.Grows t) : w.Ordered t where
  rxPos := h.rxPos.trans hg.sent
  items e he := (h.items e he).trans hg.length
  start := h.start
  last := h.last.trans (max_le_max_left _ hg.length)

theorem Sys.watch_of_step (hw : (s.step codec a).watches i = some w) :
    (∃ p start, a = .openWatch p start ∧ w = .opened p start s.sent) ∨ s.watches i ≠ none := by
  cases a with
  | commit c =>
    right
    obtain h | ⟨-, -, h⟩ := s.commit_cases codec c <;> simp only [step, h] at hw <;> simp [hw]
  | write =>
    right
    rw [step, s.write_frame.2.1] at hw
    simp [hw]
  | openWatch p start =>
    by_cases hi : i = s.next
    · subst hi
      simp only [step, update_self, Option.some.injEq] at hw
      exact .inl ⟨p, start, rfl, hw.symm⟩
    · simp only [step, update_of_ne hi] at hw
      simp [hw]
  | stream j a =>
    right
    intro hn
    simp only [step] at hw
    split at hw
    · simp [hn] at hw
    · by_cases hi : i = j
      · simp_all
      · simp only [update_of_ne hi] at hw
        simp [hn] at hw
  | gc k id | evict p => exact .inr (by simp only [step] at hw; simp [hw])

theorem Sys.Ordered.new : (Sys.new : Sys β).Ordered where
  logged := .new
  marked := le_rfl
  sent := le_rfl
  recorded := le_rfl
  lastWritten := le_rfl
  bounded := by simp [Cache.Bounded, Sys.new, Cache.empty, RingShard.new]
  fresh _ _ := rfl
  watches := by simp [Sys.new]

theorem Sys.Ordered.write (hs : s.Ordered) : s.write.Ordered := by
  have hw (t : Sys β) (hg : s.Grows t) (ht : t.watches = s.watches) :
      ∀ i w, t.watches i = some w → w.Ordered t := fun i w h => (hs.watches i w (ht ▸ h)).mono hg
  have hg := s.grows_write
  obtain ⟨-, h⟩ | ⟨hlt, h⟩ | ⟨-, hlt, h⟩ | h | ⟨-, -, x, hx, ⟨-, ⟨-, h⟩ | ⟨-, h⟩ | ⟨id, ids, -, h⟩⟩ | ⟨id, -, h⟩⟩ :=
    s.write_cases <;> rw [h] at hg ⊢
  · exact ⟨hs.logged, hs.marked, hs.sent, hs.recorded, le_rfl, hs.bounded, hs.fresh, hw _ hg rfl⟩
  · exact ⟨hs.logged, hlt, hs.sent, hs.recorded, hs.lastWritten, hs.bounded, hs.fresh, hw _ hg rfl⟩
  · exact ⟨hs.logged, hs.marked.trans (Nat.le_succ _), hlt, hs.recorded, hs.lastWritten, hs.bounded,
      hs.fresh, hw _ hg rfl⟩
  · exact hs
  · exact ⟨hs.logged, hs.marked, hs.sent, hs.recorded, hs.lastWritten, hs.bounded.targets x,
      hs.fresh, hw _ hg rfl⟩
  · exact ⟨hs.logged, hs.marked, hs.sent.trans (Nat.le_succ _), (List.getElem?_eq_some_iff.mp hx).1,
      hs.lastWritten, hs.bounded, hs.fresh, hw _ hg rfl⟩
  · have he : x.event ∈ s.events := mem_map_of_mem (mem_of_getElem? hx)
    have hb : x.event.revision ≤ s.log.length := by
      simpa [events] using (hs.logged.mem_bounds he).2
    exact ⟨hs.logged, hs.marked, hs.sent, hs.recorded, hs.lastWritten, hs.bounded.pushRing hb id,
      hs.fresh, hw _ hg rfl⟩
  · exact ⟨hs.logged, hs.marked, hs.sent, hs.recorded, hs.lastWritten, hs.bounded.maintainLog x.event id,
      hs.fresh, hw _ hg rfl⟩

theorem Sys.Ordered.step (hs : s.Ordered) (a : Act β) : (s.step codec a).Ordered := by
  have hg := s.grows_step codec a
  cases a with
  | commit c =>
    obtain h | ⟨-, hc, h⟩ := s.commit_cases codec c
    · simpa only [Sys.step, h] using hs
    · simp only [Sys.step, h] at hg ⊢
      refine ⟨?_, hs.marked, hs.sent, hs.recorded.trans hg.length, hs.lastWritten.trans hg.length,
        hs.bounded.mono hg.length, hs.fresh, fun i w hw => (hs.watches i w hw).mono hg⟩
      simpa [events] using hs.logged.commits codec hc
  | write => exact hs.write
  | openWatch p start =>
    refine ⟨hs.logged, hs.marked, hs.sent, hs.recorded, hs.lastWritten, hs.bounded, fun i hi => ?_,
      fun i w hw => ?_⟩
    · have hne : i ≠ s.next := by
        rintro rfl
        simp [Sys.step] at hi
      simpa only [Sys.step, update_of_ne hne] using hs.fresh i ((Nat.le_succ _).trans hi)
    · by_cases hi : i = s.next
      · subst hi
        simp only [Sys.step, update_self, Option.some.injEq] at hw
        subst hw
        exact ⟨le_rfl, by simp [Watch.opened, Phase.items], le_rfl, le_max_left _ _⟩
      · simp only [Sys.step, update_of_ne hi] at hw
        exact (hs.watches i w hw).mono hg
  | stream i a =>
    cases hi : s.watches i with
    | none => simpa only [Sys.step, hi] using hs
    | some w =>
      have hw := hs.watches i w hi
      simp only [Sys.step, hi] at hg ⊢
      refine ⟨hs.logged, hs.marked, hs.sent, hs.recorded, hs.lastWritten, w.step_bounded hs hw a,
        fun j hj => ?_, fun j v hv => ?_⟩
      · have hne : j ≠ i := by
          rintro rfl
          simp [hs.fresh j hj] at hi
        simpa only [update_of_ne hne] using hs.fresh j hj
      · by_cases hj : j = i
        · subst hj
          simp only [update_self, Option.some.injEq] at hv
          subst hv
          exact (w.step_ordered hs hw a).mono hg
        · simp only [update_of_ne hj] at hv
          exact (hs.watches j v hv).mono hg
  | gc k id =>
    refine ⟨hs.logged, hs.marked, hs.sent, hs.recorded, hs.lastWritten, ?_, hs.fresh,
      fun i w hw => (hs.watches i w hw).mono hg⟩
    intro id' e he
    exact hs.bounded id' e (by simpa only [Sys.step, Cache.heap_idleGc] using he)
  | evict p =>
    refine ⟨hs.logged, hs.marked, hs.sent, hs.recorded, hs.lastWritten, ?_, hs.fresh,
      fun i w hw => (hs.watches i w hw).mono hg⟩
    intro id' e he
    exact hs.bounded id' e (by simpa only [Sys.step, Cache.heap_evict] using he)

theorem Sys.ordered_run (as : List (Act β)) : (run (step codec) new as).Ordered :=
  run_invariant Ordered (fun _ a h => h.step codec a) as .new

section Watches

/-! A property of one watch that its own steps keep, and that the others keep because they only add, holds
throughout. -/

variable {codec} {C : Sys β → Act β → Prop} (Inv : Sys β → Watch β → Prop)
  (hgrow : ∀ {s t w}, s.Ordered → t.Ordered → s.Grows t → w.Ordered s → Inv s w → Inv t w)
  (hstep : ∀ {s w x}, s.Ordered → w.Ordered s → s.watches i = some w → C s (.stream i x) → Inv s w → Inv s (w.step s x).2)

include hgrow hstep

theorem Sys.watch_step (hs : s.Ordered) (ha : C s a) (hw : s.watches i = some w) (hi : Inv s w) :
    ∃ w', (s.step codec a).watches i = some w' ∧ Inv (s.step codec a) w' := by
  have ho := hs.watches i w hw
  obtain ⟨x, rfl, ht⟩ | ⟨-, ht⟩ := s.step_watch codec hs hw a
  · refine ⟨(w.step s x).2, by simp [ht], ?_⟩
    exact hgrow hs (hs.step codec _) (s.grows_step codec _) (w.step_ordered hs ho x)
      (hstep hs ho hw ha hi)
  · exact ⟨w, ht, hgrow hs (hs.step codec _) (s.grows_step codec _) ho hi⟩

theorem Sys.watch_run (hs : s.Ordered) (hw : s.watches i = some w) (hi : Inv s w)
    (hC : Along (step codec) C s as) :
    ∃ w', (run (step codec) s as).watches i = some w' ∧ Inv (run (step codec) s as) w' := by
  induction as generalizing s w with
  | nil => exact ⟨w, hw, hi⟩
  | cons a as ih =>
    obtain ⟨w', hw', hi'⟩ := watch_step Inv hgrow hstep hs hC.1 hw hi
    exact ih (hs.step codec a) hw' hi' hC.2

theorem Sys.watch_run_new (hopen : ∀ {s p start}, Ordered s → Inv s (.opened p start s.sent))
    (hC : Along (step codec) C new as) (hw : (run (step codec) new as).watches i = some w) :
    Inv (run (step codec) new as) w := by
  refine (Along.invariant (fun s => s.Ordered ∧ ∀ w, s.watches i = some w → Inv s w) ?_
    ⟨.new, by simp [new]⟩ hC).2 w hw
  rintro s a ⟨hs, hall⟩ ha
  refine ⟨hs.step codec a, fun w hw => ?_⟩
  obtain ⟨p, start, rfl, rfl⟩ | hne := watch_of_step codec hw
  · exact hopen (hs.step codec (.openWatch p start))
  · obtain ⟨w₀, hw₀⟩ := Option.ne_none_iff_exists'.mp hne
    obtain ⟨w', hw', hi'⟩ := watch_step Inv hgrow hstep hs ha hw₀ (hall w₀ hw₀)
    obtain rfl := Option.some_inj.mp (hw'.symm.trans hw)
    exact hi'

end Watches

end U7s.Store
