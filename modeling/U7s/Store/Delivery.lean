import U7s.Store.Serve

/-! A stream whose receiver keeps up yields every committed event under its prefix once and in order, across the
seam between replay and live events. -/

namespace U7s.Store

open Runs List
open Text (startsWith)

variable {β : Type} (codec : JsonCodec β) {s t : Sys β} {w : Watch β}

def since (p : String) (start : ℕ) (es : List (InternalEvent β)) : List (InternalEvent β) :=
  es.filter (fun e => startsWith e.key p && start < e.revision)

def yielded (out : List (WatchEvent β)) : List (WatchEvent β) := out.filter (fun e => e.change?.isSome)

theorem mem_since : e ∈ since p start es ↔ e ∈ es ∧ startsWith e.key p ∧ start < e.revision := by
  simp [since]

@[simp] theorem yielded_append (a b : List (WatchEvent β)) : yielded (a ++ b) = yielded a ++ yielded b :=
  filter_append _ _

@[simp] theorem yielded_bookmark (r : ℕ) : yielded [.bookmark r] = ([] : List (WatchEvent β)) := rfl

@[simp] theorem yielded_event (e : InternalEvent β) : yielded [internalToWatch e] = [internalToWatch e] := by
  simp [yielded, change?_internalToWatch]

/-- What a snapshot has to find: the events sent before the receiver subscribed, perhaps some more, each once and in
order, and a horizon that does not expire the request. -/
def Watch.Covered (s : Sys β) (w : Watch β) : Prop :=
  (w.start = 0 ∨ w.horizon ≤ w.start) ∧ ∃ n, w.rxPos ≤ n ∧ n ≤ s.log.length ∧
    s.cache.replayed w.shard w.p w.start = since w.p w.start (s.events.take n)

def KeepsUp (i : ℕ) (s : Sys β) : Act β → Prop
  | .stream j .advance => ∀ w, j = i → s.watches i = some w → w.phase = .snapshot → w.Covered s
  | .stream j .recv => ∀ w, j = i → s.watches i = some w → s.sent - w.rxPos ≤ BROADCAST_CAPACITY
  | _ => True

/-- Of the events owed up to revision `n`, `ds` were yielded and `es` are about to be. -/
structure Watch.Splits (s : Sys β) (w : Watch β) (n : ℕ) (ds es : List (InternalEvent β)) : Prop where
  rxPos : w.rxPos ≤ n
  bound : n ≤ s.log.length
  split : since w.p w.start (s.events.take n) = ds ++ es
  out : yielded w.out = ds.map internalToWatch
  done : ∀ d ∈ ds, d.revision ≤ w.lastReplayed
  last : w.lastReplayed ≤ max w.start n

def Watch.Exact (s : Sys β) (w : Watch β) : Prop :=
  match w.phase with
  | .check es => (w.start = 0 ∨ w.horizon ≤ w.start) ∧ ∃ n ds, w.Splits s n ds es
  | .replay es => ∃ n ds, w.Splits s n ds es
  | .live => ∃ n ds, w.Splits s n ds []
  | .lagged | .catchup _ _ => False
  | .closed => ∃ n ds es, n ≤ s.log.length ∧ since w.p w.start (s.events.take n) = ds ++ es ∧
      yielded w.out = ds.map internalToWatch
  | _ => yielded w.out = [] ∧ w.lastReplayed = w.start

theorem Watch.exact_of_opening (h : w.phase.opening) :
    w.Exact s ↔ yielded w.out = [] ∧ w.lastReplayed = w.start := by
  unfold Exact
  cases hp : w.phase <;> simp_all [Phase.opening]

theorem Watch.exact_live (h : w.phase = .live) : w.Exact s ↔ ∃ n ds, w.Splits s n ds [] := by
  simp only [Exact, h]

theorem Watch.exact_of_live (ds : List (InternalEvent β)) (h : w.Splits s n ds []) (hp : w.phase = .live) :
    w.Exact s := (exact_live hp).mpr ⟨n, ds, h⟩

theorem Watch.Exact.ends (h : w.Exact s) :
    ∃ n ds es, n ≤ s.log.length ∧ since w.p w.start (s.events.take n) = ds ++ es ∧
      yielded w.out = ds.map internalToWatch := by
  cases hp : w.phase with
  | check es =>
    simp only [Exact, hp] at h
    obtain ⟨-, n, ds, h⟩ := h
    exact ⟨n, ds, es, h.bound, h.split, h.out⟩
  | replay es =>
    simp only [Exact, hp] at h
    obtain ⟨n, ds, h⟩ := h
    exact ⟨n, ds, es, h.bound, h.split, h.out⟩
  | live =>
    simp only [Exact, hp] at h
    obtain ⟨n, ds, h⟩ := h
    exact ⟨n, ds, [], h.bound, h.split, h.out⟩
  | closed =>
    simpa only [Exact, hp] using h
  | lagged | catchup =>
    simp only [Exact, hp] at h
  | _ =>
    rw [exact_of_opening (by rw [hp]; rfl)] at h
    exact ⟨0, [], [], Nat.zero_le _, rfl, h.1⟩

theorem Sys.Grows.take_events (hg : s.Grows t) (hn : n ≤ s.log.length) : t.events.take n = s.events.take n := by
  obtain ⟨more, hm⟩ := hg.events
  rw [← hm, take_append_of_le_length (by simpa [Sys.events] using hn)]

theorem Watch.Splits.mono (h : w.Splits s n ds es) (hg : s.Grows t) : w.Splits t n ds es :=
  ⟨h.rxPos, h.bound.trans hg.length, by rw [hg.take_events h.bound]; exact h.split, h.out, h.done, h.last⟩

theorem Watch.Exact.mono (h : w.Exact s) (hg : s.Grows t) : w.Exact t := by
  cases hp : w.phase with
  | check es =>
    simp only [Exact, hp] at h ⊢
    obtain ⟨hh, n, ds, h⟩ := h
    exact ⟨hh, n, ds, h.mono hg⟩
  | replay es | live =>
    simp only [Exact, hp] at h ⊢
    obtain ⟨n, ds, h⟩ := h
    exact ⟨n, ds, h.mono hg⟩
  | closed =>
    simp only [Exact, hp] at h ⊢
    obtain ⟨n, ds, es, hn, hs, ho⟩ := h
    exact ⟨n, ds, es, hn.trans hg.length, by rw [hg.take_events hn]; exact hs, ho⟩
  | lagged | catchup => simp only [Exact, hp] at h
  | _ =>
    rw [exact_of_opening (by rw [hp]; rfl)] at h ⊢
    exact h

theorem Watch.Splits.congr (h : w.Splits s n ds es) (hk : w.Keeps w') : w'.Splits s n ds es where
  rxPos := hk.rxPos ▸ h.rxPos
  bound := h.bound
  split := by rw [hk.p, hk.start]; exact h.split
  out := by rw [hk.out]; exact h.out
  done := by rw [hk.lastReplayed]; exact h.done
  last := by rw [hk.lastReplayed, hk.start]; exact h.last

theorem Watch.Exact.congr (h : w.Exact s) (hk : w.Keeps w') (hp : w'.phase = w.phase)
    (hh : w'.horizon = w.horizon) : w'.Exact s := by
  cases hph : w.phase with
  | check es =>
    simp only [Exact, hp, hph, hk.start, hh] at h ⊢
    obtain ⟨hh, n, ds, h⟩ := h
    exact ⟨hh, n, ds, h.congr hk⟩
  | replay es | live =>
    simp only [Exact, hp, hph] at h ⊢
    obtain ⟨n, ds, h⟩ := h
    exact ⟨n, ds, h.congr hk⟩
  | lagged | catchup => simp only [Exact, hph] at h
  | _ => simpa only [Exact, hp, hph, hk.p, hk.start, hk.out, hk.lastReplayed] using h

theorem since_take_succ {es : List (InternalEvent β)}
    (he : es[n]? = some e) : since p start (es.take (n + 1)) = since p start (es.take n) ++ since p start [e] := by
  rw [take_add_one, he, since, filter_append]
  rfl

theorem Watch.Exact.moves (hs : s.Ordered) (ho : w.Ordered s)
    (hw : s.watches i = some w) (hC : KeepsUp i s (.stream i a)) (h : w.Exact s) (hm : w.Moves s a w') :
    w'.Exact s := by
  cases hm with
  | opens hp _ hk _ hp' =>
    rw [exact_of_opening hp] at h
    rw [exact_of_opening hp', hk.out, hk.lastReplayed, hk.start]
    exact h
  | snapshot hp =>
    rw [exact_of_opening (by rw [hp]; rfl)] at h
    obtain ⟨hh, n, hrx, hn, hr⟩ := hC w rfl hw hp
    exact ⟨hh, n, [], hrx, hn, hr.symm, h.1, by simp, h.2.le.trans (le_max_left _ _)⟩
  | accept hp =>
    simp only [Exact, hp] at h
    obtain ⟨-, n, ds, h⟩ := h
    exact ⟨n, ds, h.rxPos, h.bound, h.split, h.out, h.done, h.last⟩
  | expire hp h0 hh =>
    simp only [Exact, hp] at h
    omega
  | @next e es ph hp =>
    obtain ⟨hp, rfl⟩ | ⟨sc, hp, rfl⟩ := hp
    · simp only [Exact, hp] at h
      obtain ⟨n, ds, h⟩ := h
      have he : e ∈ since w.p w.start (s.events.take n) := by simp [h.split]
      obtain ⟨he, -, -⟩ := mem_since.mp he
      have hen : e.revision ≤ n := by
        obtain ⟨j, hj⟩ := mem_iff_getElem?.mp he
        rw [getElem?_take] at hj
        split_ifs at hj with hjn
        exact (hs.logged.revision_of_getElem hj).trans_le hjn
      refine ⟨n, ds ++ [e], h.rxPos, h.bound, h.split.trans (by simp), ?_, ?_, ?_⟩
      · simp [yield, h.out]
      · intro d hd
        obtain hd | hd := mem_append.mp hd
        · exact (h.done d hd).trans (le_max_left _ _)
        · exact mem_singleton.mp hd ▸ le_max_right _ _
      · exact max_le h.last (hen.trans (le_max_right _ _))
    · simp only [Exact, hp] at h
  | live hp =>
    simp only [Exact, hp] at h
    obtain ⟨n, ds, h⟩ := h
    exact ⟨n, ds, h.rxPos, h.bound, h.split, h.out, h.done, h.last⟩
  | rescan hp | recover hp | giveUp hp => simp only [Exact, hp] at h
  | cancel => exact h.ends
  | lag _ hlag => exact absurd (hC w rfl hw) (not_le.mpr hlag)
  | @drop e hp hlt he hd =>
    have hr := hs.logged.revision_of_getElem he
    obtain ⟨n, ds, h⟩ := (exact_live hp).mp h
    obtain hn | hn := h.rxPos.lt_or_eq
    · exact exact_of_live ds ⟨hn, h.bound, h.split, h.out, h.done, h.last⟩ hp
    · -- the event is the first one past the replay
      subst hn
      have hlast := h.last
      have hnot : since w.p w.start [e] = [] := by
        refine filter_eq_nil_iff.mpr fun d hd' => ?_
        obtain rfl := mem_singleton.mp hd'
        intro hc
        simp only [Bool.and_eq_true, decide_eq_true_eq] at hc
        exact hd ⟨hc.1, by omega⟩
      exact exact_of_live ds ⟨le_rfl, hlt.trans_le (hs.sent.trans hs.recorded),
        by simpa [hnot, since_take_succ he] using h.split, h.out, h.done,
        h.last.trans (max_le_max_left _ (Nat.le_succ _))⟩ hp
  | @deliver e hp hlt he hpre hlast =>
    have hr := hs.logged.revision_of_getElem he
    have hstart : w.start < e.revision := ho.start.trans_lt hlast
    obtain ⟨n, ds, h⟩ := (exact_live hp).mp h
    have hn : w.rxPos = n := by
      refine h.rxPos.antisymm (not_lt.mp fun hn => ?_)
      -- within the replay it would have been yielded
      have hmem : e ∈ since w.p w.start (s.events.take n) :=
        mem_since.mpr ⟨mem_iff_getElem?.mpr ⟨w.rxPos, by rw [getElem?_take, if_pos hn, he]⟩,
          hpre, hstart⟩
      rw [h.split, append_nil] at hmem
      exact absurd (h.done e hmem) (not_le.mpr hlast)
    subst hn
    have hin : since w.p w.start [e] = [e] := by simp [since, hpre, hstart]
    refine exact_of_live (ds ++ [e]) ⟨le_refl (w.rxPos + 1), hlt.trans_le (hs.sent.trans hs.recorded), ?_,
      ?_, ?_, ?_⟩ hp
    · simp only [yield, since_take_succ he, h.split, hin, append_nil]
    · have ho : yielded [internalToWatch e, .bookmark e.revision] = [internalToWatch e] := by
        rw [← singleton_append, yielded_append, yielded_event, yielded_bookmark, append_nil]
      simp [yield, h.out, ho]
    · intro d hd
      obtain hd | hd := mem_append.mp hd
      · exact (h.done d hd).trans hlast.le
      · exact mem_singleton.mp hd ▸ le_rfl
    · exact hr.le.trans (le_max_right _ _)
  | debounce hp | heartbeat hp =>
    obtain ⟨n, ds, h⟩ := (exact_live hp).mp h
    refine exact_of_live ds ⟨h.rxPos, h.bound, h.split, ?_, h.done, h.last⟩ hp
    simp [yield, ownBookmark, h.out]
  | timeout hp =>
    obtain ⟨n, ds, es, hn, hsplit, hout⟩ := h.ends
    exact ⟨n, ds, es, hn, hsplit, by simp [yield, ownBookmark, hout]⟩
  | quiet hk hp _ hh => exact h.congr hk hp hh

theorem Logged.since_sorted (h : Logged db log) (p : String) (start : ℕ) :
    ((since p start log).map internalToWatch).Pairwise
      (fun a b => Watch.revisionOf a < Watch.revisionOf b) := by
  rw [pairwise_map]
  simp only [revisionOf_internalToWatch]
  exact h.sorted.sublist filter_sublist

theorem since_mono (h : es <+: es') : since p start es <+: since p start es' := h.filter _

/-- A stream yields what it is owed, each event once and in order: once it is live, all that its receiver has
passed. -/
theorem delivery_exactly_once (as : List (Act β)) (i : ℕ)
    (hC : Along (Sys.step codec) (KeepsUp i) Sys.new as) (w : Watch β)
    (hw : (run (Sys.step codec) Sys.new as).watches i = some w) :
    let s := run (Sys.step codec) Sys.new as
    yielded w.out <+: (since w.p w.start s.events).map internalToWatch ∧
    (yielded w.out).Pairwise (fun a b => Watch.revisionOf a < Watch.revisionOf b) ∧
    (w.phase = .live → ∃ n, w.rxPos ≤ n ∧
      yielded w.out = (since w.p w.start (s.events.take n)).map internalToWatch) := by
  intro s
  have hs : s.Ordered := Sys.ordered_run codec as
  have h : w.Exact s := Sys.watch_run_new (fun s w => w.Exact s) (fun _ _ hg _ h => h.mono hg)
    (fun hs ho hw hC h => h.moves hs ho hw hC (Watch.step_moves hs _ _)) (fun _ => ⟨rfl, rfl⟩) hC hw
  have hpre : yielded w.out <+: (since w.p w.start s.events).map internalToWatch := by
    obtain ⟨n, ds, es, -, hsplit, hout⟩ := h.ends
    rw [hout]
    refine IsPrefix.map _ (IsPrefix.trans ?_ (since_mono ( take_prefix n s.events)))
    rw [hsplit]
    exact prefix_append ds es
  refine ⟨hpre, (hs.logged.since_sorted w.p w.start).sublist hpre.sublist, fun hl => ?_⟩
  obtain ⟨n, ds, h⟩ := (Watch.exact_live hl).mp h
  refine ⟨n, h.rxPos, ?_⟩
  rw [h.out, h.split, append_nil]

def lateWatch : List (Act (Option Json)) :=
  .openWatch "/registry/configmaps/" 0 :: advances 0 10 ++
  served (.put "/registry/configmaps/a/x" (configMap "a" "x") (some 0) []) 7 ++
  .openWatch "/registry/configmaps/" 0 :: advances 1 4 ++
  served (.put "/registry/configmaps/a/y" (configMap "a" "y") (some 0) []) 5 ++ advances 1 5 ++
  List.replicate 2 .write ++ .stream 1 .recv ::
  served (.deleteNamespaceResources "a" []) 13 ++ List.replicate 2 (.stream 1 .recv)

def lateWatchChecks (s : Sys (Option Json)) (a : Act (Option Json)) : Bool :=
  match a, s.watches 1 with
  | .stream 1 .advance, some w => match w.phase with
    | .snapshot => decide (w.start = 0 ∧ w.rxPos ≤ s.recorded ∧ s.recorded ≤ s.log.length ∧
        s.cache.replayed w.shard w.p w.start = since w.p w.start (s.events.take s.recorded))
    | _ => true
  | .stream 1 .recv, some w => decide (s.sent - w.rxPos ≤ BROADCAST_CAPACITY)
  | _, _ => true

theorem lateWatch_keepsUp : Along (Sys.step JsonCodec.parsed) (KeepsUp 1) Sys.new lateWatch := by
  have hd : Along (Sys.step JsonCodec.parsed) (fun s a => lateWatchChecks s a) Sys.new lateWatch := by
    decide +kernel
  refine hd.mono fun s a h => ?_
  unfold KeepsUp
  split
  · rintro w rfl hw hp
    simp only [lateWatchChecks, hw, hp] at h
    obtain ⟨h0, hrx, hn, hr⟩ := of_decide_eq_true h
    exact ⟨.inl h0, s.recorded, hrx, hn, hr⟩
  · rintro w rfl hw
    simp only [lateWatchChecks, hw] at h
    exact of_decide_eq_true h
  · trivial

theorem delivery_lateWatch : ∃ w,
    (run (Sys.step JsonCodec.parsed) Sys.new lateWatch).watches 1 = some w ∧ (yielded w.out).length = 4 ∧
      (yielded w.out).Pairwise (fun a b => Watch.revisionOf a < Watch.revisionOf b) := by
  have hlen : ((run (Sys.step JsonCodec.parsed) Sys.new lateWatch).watches 1).map
      (fun w => (yielded w.out).length) = some 4 := by decide +kernel
  obtain ⟨w, hw, hlen⟩ := Option.map_eq_some_iff.mp hlen
  exact ⟨w, hw, hlen, (delivery_exactly_once JsonCodec.parsed lateWatch 1 lateWatch_keepsUp w hw).2.1⟩

def racingBackfill : List (Act (Option Json)) :=
  served (.put "/registry/configmaps/a/x" (configMap "a" "x") (some 0) []) 7 ++
  .openWatch "/registry/configmaps/" 0 :: advances 0 4 ++
  served (.put "/registry/configmaps/a/y" (configMap "a" "y") (some 0) []) 7 ++ advances 0 3

theorem backfill_breaks_order :
    let s := run (Sys.step JsonCodec.parsed) Sys.new racingBackfill
    let t := run (Sys.step JsonCodec.parsed) s (.openWatch "/registry/configmaps/" 0 :: advances 1 9)
    s.cache.findShard "/registry/configmaps/" = some 0 ∧ (∀ e ∈ s.events, e ∈ (s.cache.heap 0).ring) ∧
      (s.cache.heap 0).horizon = 0 ∧
      (t.watches 1).map (fun w => (yielded w.out).map Watch.revisionOf) = some [2, 1] := by
  decide +kernel

end U7s.Store
