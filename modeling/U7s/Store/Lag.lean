import U7s.Store.Serve

/-! What a stream has passed and what it has told its client. When the receiver lags, they agree as far as the ring
still holds what was missed. -/

namespace U7s.Store

open Runs List
open Text (startsWith)

variable {β : Type} (codec : JsonCodec β) {s t : Sys β} {w w' : Watch β} {b : ℕ}

def Told (out : List (WatchEvent β)) (e : InternalEvent β) : Prop :=
  ∃ d : InternalEvent β, d.Same e ∧ internalToWatch d ∈ out

theorem Told.mono (h : Told out e) (ho : out ⊆ out') : Told out' e := by
  obtain ⟨d, hd, hm⟩ := h
  exact ⟨d, hd, ho hm⟩

def Watch.Passed (w : Watch β) (e : InternalEvent β) : Prop :=
  e.revision ≤ w.lastReplayed ∨ (w.phase ≠ .lagged ∧ e.revision ≤ w.rxPos) ∨
    ∃ d ∈ w.phase.items, e.revision ≤ d.revision

/-- Of the events under its prefix newer than `b`, the stream has passed none that it has not told. -/
def Watch.NoGap (b : ℕ) (s : Sys β) (w : Watch β) : Prop :=
  ∀ e ∈ s.events, startsWith e.key w.p → b < e.revision → w.Passed e →
    Told w.out e ∨ ∃ d ∈ w.phase.items, d.Same e

def Watch.Doomed (s : Sys β) (w : Watch β) : Prop :=
  ∃ id es, w.phase = .catchup (some id) es ∧ id < s.cache.next ∧
    w.lastReplayed < (s.cache.heap id).horizon ∧ ∀ d ∈ es, d.revision < (s.cache.heap id).horizon

/-- What a recovery has to find: every event that the receiver missed and every one older than an entry it replays,
or a horizon above all that it replays. -/
def Watch.Recoverable (s : Sys β) (w : Watch β) : Prop :=
  (∀ e ∈ s.events, startsWith e.key w.p → w.lastReplayed < e.revision →
    (e.revision ≤ w.rxPos ∨ ∃ d ∈ w.scan s.cache, e.revision ≤ d.revision) →
    ∃ d ∈ w.scan s.cache, d.Same e) ∨
  ∃ id, s.cache.findShard w.p = some id ∧ w.lastReplayed < (s.cache.heap id).horizon ∧
    ∀ d ∈ w.scan s.cache, d.revision < (s.cache.heap id).horizon

def Recovers (i : ℕ) (s : Sys β) : Act β → Prop
  | .stream j .advance => ∀ w, j = i → s.watches i = some w →
      (w.phase = .lagged → w.Recoverable s) ∧
      ∀ sc, w.phase = .catchup sc [] → s.cache.findShard w.p = sc
  | _ => True

theorem Cache.findShard_allocated {c : Cache β} {id : ℕ} (h : c.findShard p = some id) :
    id < c.next := by
  unfold findShard at h
  split at h
  case h_1 id' h' => exact Option.some_inj.mp h ▸ c.allocated h'
  · obtain ⟨q, -, hq⟩ := Option.bind_eq_some_iff.mp h
    exact c.allocated hq

theorem Watch.NoGap.congr (h : w.NoGap b s) (hp : w'.p = w.p) (hout : w.out ⊆ w'.out)
    (hi : w'.phase.items = w.phase.items)
    (hpass : ∀ e ∈ s.events, startsWith e.key w.p → w'.Passed e → w.Passed e) : w'.NoGap b s := by
  intro e he hk hb hpassed
  rw [hp] at hk
  rw [hi]
  exact (h e he hk hb (hpass e he hk hpassed)).imp_left (·.mono hout)

theorem Watch.NoGap.settle (h : w.NoGap b s) (hi : ph.items = w.phase.items) (hp : w.phase ≠ .lagged) :
    ({ w with phase := ph } : Watch β).NoGap b s :=
  h.congr rfl (Subset.refl _) hi (fun _ _ _ hpass => hpass.imp_right
    (Or.imp (fun hr => ⟨hp, hr.2⟩) (fun ⟨d, hd, hr⟩ => ⟨d, hi ▸ hd, hr⟩)))

theorem Sys.Grows.mem_events (hg : s.Grows t) (ht : t.Ordered) (he : e ∈ t.events)
    (hr : e.revision ≤ s.log.length) : e ∈ s.events := by
  obtain ⟨j, hj⟩ := mem_iff_getElem?.mp he
  have hrj := ht.logged.revision_of_getElem hj
  obtain ⟨more, hm⟩ := hg.events
  rw [← hm, getElem?_append_left (by simp only [Sys.events, length_map]; omega)] at hj
  exact mem_of_getElem? hj

theorem Watch.NoGap.mono (h : w.NoGap b s) (ho : w.Ordered s) (hs : s.Ordered) (ht : t.Ordered)
    (hb : w.start ≤ b) (hg : s.Grows t) : w.NoGap b t := by
  intro e he hk hbe hpassed
  have hlen : e.revision ≤ s.log.length := by
    have hlast := ho.last
    have hrx := ho.rxPos.trans (hs.sent.trans hs.recorded)
    obtain hp | ⟨-, hp⟩ | ⟨d, hd, hp⟩ := hpassed
    · omega
    · omega
    · exact hp.trans (ho.items d hd)
  exact h e (hg.mem_events ht he hlen) hk hbe hpassed

theorem Watch.Doomed.mono (h : w.Doomed s) (hg : s.Grows t) : w.Doomed t := by
  obtain ⟨id, es, hp, hid, hlast, hes⟩ := h
  have hh := hg.cache.horizon id hid
  exact ⟨id, es, hp, hid.trans_le hg.cache.next, hlast.trans_le hh, fun d hd => (hes d hd).trans_le hh⟩

theorem Sys.Ordered.eq_of_getElem (hs : s.Ordered) (hd : s.events[n]? = some d) (he : e ∈ s.events)
    (hr : e.revision = n + 1) : e = d :=
  hs.logged.eq_of_revision he (mem_of_getElem? hd) (hr.trans (hs.logged.revision_of_getElem hd).symm)

section

variable (h : w.NoGap b s)
include h

theorem Watch.NoGap.next (hi : w.phase.items = e :: es) (hl : w.phase ≠ .lagged) (hp : ph.items = es) :
    ({ w.yield [internalToWatch e] with lastReplayed := max w.lastReplayed e.revision, phase := ph } :
      Watch β).NoGap b s := by
  intro d hd hk hb hpassed
  have hold : w.Passed d := by
    obtain hr | ⟨-, hr⟩ | ⟨x, hx, hr⟩ := hpassed
    · obtain hr | hr := le_max_iff.mp hr
      · exact .inl hr
      · exact .inr (.inr ⟨e, by simp [hi], hr⟩)
    · exact .inr (.inl ⟨hl, hr⟩)
    · refine .inr (.inr ⟨x, ?_, hr⟩)
      rw [hi]
      exact mem_cons_of_mem _ (hp ▸ hx)
  obtain ht | ⟨x, hx, hsame⟩ := h d hd hk hb hold
  · exact .inl (ht.mono (subset_append_left _ _))
  · rw [hi] at hx
    obtain rfl | hx := mem_cons.mp hx
    · exact .inl ⟨x, hsame, by simp [yield]⟩
    · exact .inr ⟨x, by simpa [hp] using hx, hsame⟩

theorem Watch.NoGap.rescan (hp : w.phase = .lagged) (hr : w.Recoverable s) :
    ({ w with phase := .catchup (s.cache.findShard w.p) (w.scan s.cache) } : Watch β).NoGap b s ∨
    ({ w with phase := .catchup (s.cache.findShard w.p) (w.scan s.cache) } : Watch β).Doomed s := by
  obtain hr | ⟨id, hid, hlast, hes⟩ := hr
  · left
    intro e he hk hb hpassed
    by_cases hlast : e.revision ≤ w.lastReplayed
    · obtain ht | ⟨d, hd, -⟩ := h e he hk hb (.inl hlast)
      · exact .inl ht
      · simp [hp, Phase.items] at hd
    · refine .inr (hr e he hk (not_le.mp hlast) ?_)
      obtain hr | ⟨-, hr⟩ | hr := hpassed
      · exact absurd hr hlast
      · exact .inl hr
      · exact .inr hr
  · exact .inr ⟨id, _, by rw [hid], Cache.findShard_allocated hid, hlast, hes⟩

theorem Watch.NoGap.drop (hs : s.Ordered) (he : s.events[w.rxPos]? = some e)
    (hd : ¬ (startsWith e.key w.p ∧ w.lastReplayed < e.revision)) :
    ({ w with rxPos := w.rxPos + 1, idle := false } : Watch β).NoGap b s := by
  refine h.congr rfl (Subset.refl _) rfl fun d hd' hk hpassed => ?_
  obtain hr | ⟨hl, hr⟩ | hr := hpassed
  · exact .inl hr
  · obtain hr | hr := hr.lt_or_eq
    · exact .inr (.inl ⟨hl, Nat.lt_succ_iff.mp hr⟩)
    · obtain rfl := hs.eq_of_getElem he hd' hr
      exact .inl (not_lt.mp fun hlt => hd ⟨hk, hlt⟩)
  · exact .inr (.inr hr)

theorem Watch.NoGap.told (hp : w.phase = .live) (he : e ∈ s.events)
    (hk : startsWith e.key w.p) (hb : b < e.revision) (hpass : w.Passed e) : Told w.out e := by
  obtain ht | ⟨d, hd, -⟩ := h e he hk hb hpass
  · exact ht
  · simp [hp, Phase.items] at hd

theorem Watch.NoGap.told_next (hs : s.Ordered) (hp : w.phase = .live)
    (he : s.events[w.rxPos]? = some e) (hd : d ∈ s.events) (hk : startsWith d.key w.p) (hb : b < d.revision)
    (hle : d.revision ≤ w.rxPos + 1) : Told (w.out ++ [internalToWatch e]) d := by
  obtain hlt | heq := hle.lt_or_eq
  · exact (h.told hp hd hk hb (.inr (.inl ⟨by simp [hp], Nat.lt_succ_iff.mp hlt⟩))).mono
      (subset_append_left _ _)
  · obtain rfl := hs.eq_of_getElem he hd heq
    exact ⟨d, .refl d, by simp⟩

theorem Watch.NoGap.deliver (hs : s.Ordered) (hp : w.phase = .live) (he : s.events[w.rxPos]? = some e) :
    ({ w.yield [internalToWatch e, .bookmark e.revision] with
      rxPos := w.rxPos + 1, idle := false, lastReplayed := e.revision } : Watch β).NoGap b s := by
  have hr := hs.logged.revision_of_getElem he
  intro d hd hk hb hpassed
  have hle : d.revision ≤ w.rxPos + 1 := by
    obtain hp' | ⟨-, hp'⟩ | ⟨x, hx, -⟩ := hpassed
    · exact hp'.trans hr.le
    · exact hp'
    · have hnil : ((w.yield [internalToWatch e, .bookmark e.revision]).phase).items = [] := by
        simp [yield, hp, Phase.items]
      rw [hnil] at hx
      cases hx
  left
  refine (h.told_next hs hp he hd hk hb hle).mono fun x hx => ?_
  simp only [mem_append, mem_singleton] at hx
  simp only [yield, mem_append, mem_cons]
  exact hx.imp_right .inl

end

def Watch.Sound (b : ℕ) (s : Sys β) (w : Watch β) : Prop :=
  w.phase = .closed ∨ (w.phase.opening = false ∧ w.start ≤ b ∧ (w.NoGap b s ∨ w.Doomed s))

theorem Watch.Sound.mono (h : w.Sound b s) (hs : s.Ordered) (ht : t.Ordered) (hg : s.Grows t)
    (ho : w.Ordered s) : w.Sound b t := by
  obtain h | ⟨hp, hb, h⟩ := h
  · exact .inl h
  · exact .inr ⟨hp, hb, h.imp (·.mono ho hs ht hb hg) (·.mono hg)⟩

theorem Watch.Doomed.phase_ne (h : w.Doomed s) (hp : w.phase = ph) (hne : ∀ sc es, ph ≠ .catchup sc es) :
    False := by
  obtain ⟨id, es, hp', -⟩ := h
  exact hne _ _ (hp.symm.trans hp')

theorem Watch.Sound.moves (hs : s.Ordered) (hw : s.watches i = some w) (hC : Recovers i s (.stream i a))
    (h : w.Sound b s) (hm : w.Moves s a w') : w'.Sound b s := by
  obtain hcl | ⟨hop, hb, h⟩ := h
  · -- a stream that has ended does nothing
    cases hm <;> simp_all [Phase.opening, Sound]
  have hng {ph : Phase β} (hp : w.phase = ph) (hne : ∀ sc es, ph ≠ .catchup sc es) : w.NoGap b s :=
    h.resolve_right fun hd => hd.phase_ne hp hne
  cases hm with
  | opens hp => simp [hop] at hp
  | snapshot hp => simp [hp, Phase.opening] at hop
  | accept hp | live hp => exact .inr ⟨rfl, hb, .inl ((hng hp (by simp)).settle (by rw [hp]; rfl) (by simp [hp]))⟩
  | expire | giveUp | cancel | timeout => exact .inl rfl
  | @next e es ph hp =>
    obtain ⟨hp, rfl⟩ | ⟨sc, hp, rfl⟩ := hp
    · exact .inr ⟨rfl, hb, .inl ((hng hp (by simp)).next (by rw [hp]; rfl) (by simp [hp]) rfl)⟩
    · refine .inr ⟨rfl, hb, ?_⟩
      obtain hng | ⟨id, es', hp', hid, hlast, hes⟩ := h
      · exact .inl (hng.next (by rw [hp]; rfl) (by simp [hp]) rfl)
      · obtain ⟨rfl, rfl⟩ : sc = some id ∧ e :: es = es' := by simpa [hp] using hp'
        exact .inr ⟨id, es, rfl, hid, max_lt hlast (hes e mem_cons_self),
          fun d hd => hes d (mem_cons_of_mem _ hd)⟩
  | rescan hp => exact .inr ⟨rfl, hb, (hng hp (by simp)).rescan hp ((hC w rfl hw).1 hp)⟩
  | @recover sc hp hh =>
    refine .inr ⟨rfl, hb, .inl ((h.resolve_right fun hd => ?_).settle (by rw [hp]; rfl) (by simp [hp]))⟩
    obtain ⟨id, es, hp', -, hlast, -⟩ := hd
    obtain ⟨rfl, -⟩ : sc = some id ∧ [] = es := by simpa [hp] using hp'
    rw [currentHorizon, (hC w rfl hw).2 _ hp] at hh
    exact absurd hlast (not_lt.mpr hh)
  | lag hp =>
    refine .inr ⟨rfl, hb, .inl ((hng hp (by simp)).congr rfl (Subset.refl _) (by rw [hp]; rfl) ?_)⟩
    exact fun e _ _ hpass => .inl (by simpa [Passed, Phase.items] using hpass)
  | drop hp _ he hd => exact .inr ⟨hop, hb, .inl ((hng hp (by simp)).drop hs he hd)⟩
  | deliver hp _ he => exact .inr ⟨hop, hb, .inl ((hng hp (by simp)).deliver hs hp he)⟩
  | debounce hp | heartbeat hp =>
    exact .inr ⟨hop, hb, .inl ((hng hp (by simp)).congr rfl (subset_append_left _ _) rfl fun _ _ _ h => h)⟩
  | quiet hk hp =>
    refine .inr ⟨hp ▸ hop, hk.start ▸ hb, h.imp (fun hng => ?_) fun hd => ?_⟩
    · refine hng.congr hk.p (hk.out ▸ Subset.refl _) (by rw [hp]) fun e _ _ hpass => ?_
      simpa only [Passed, hk.lastReplayed, hk.rxPos, hp] using hpass
    · obtain ⟨id, es, hph, hid, hlast, hes⟩ := hd
      exact ⟨id, es, hp.trans hph, hid, hk.lastReplayed ▸ hlast, hes⟩

/-- A live stream has told its client of every event passed since any moment at which it was live, however often it
lagged. -/
theorem lag_recovery_no_gap (as bs : List (Act β)) (i : ℕ) (w₀ : Watch β)
    (hw₀ : (run (Sys.step codec) Sys.new as).watches i = some w₀) (hl₀ : w₀.phase = .live)
    (hC : Along (Sys.step codec) (Recovers i) (run (Sys.step codec) Sys.new as) bs) :
    let s := run (Sys.step codec) Sys.new (as ++ bs)
    ∃ w, s.watches i = some w ∧ (w.phase = .live → ∀ e ∈ s.events, startsWith e.key w.p →
      w₀.lastReplayed < e.revision → w₀.rxPos < e.revision →
      (e.revision ≤ w.lastReplayed ∨ e.revision ≤ w.rxPos) → Told w.out e) := by
  have hs : (run (Sys.step codec) Sys.new as).Ordered := Sys.ordered_run codec as
  have h₀ : w₀.Sound (max w₀.lastReplayed w₀.rxPos) (run (Sys.step codec) Sys.new as) := by
    refine .inr ⟨by rw [hl₀]; rfl, (hs.watches i w₀ hw₀).start.trans (le_max_left _ _), .inl ?_⟩
    intro e _ _ hb hpass
    simp only [Watch.Passed, hl₀, Phase.items] at hpass
    simp at hpass
    omega
  simp only [run_append]
  obtain ⟨w, hw, h⟩ := Sys.watch_run (Watch.Sound (max w₀.lastReplayed w₀.rxPos))
    (fun hs ht hg ho h => h.mono hs ht hg ho)
    (fun hs _ hw hC h => h.moves hs hw hC (Watch.step_moves hs _ _)) hs hw₀ h₀ hC
  refine ⟨w, hw, fun hl e he hk hlast hrx hpass => ?_⟩
  obtain h | ⟨-, -, h⟩ := h
  · simp [hl] at h
  · have hng := h.resolve_right fun hd => hd.phase_ne hl (by simp)
    exact hng.told hl he hk (max_lt hlast hrx) (hpass.imp_right fun h => .inl ⟨by simp [hl], h⟩)

def toggled (on : Bool) (rv : List (String × Json)) : Json :=
  .obj [("data", .bool on), ("metadata", .obj ([("name", .str "x"), ("namespace", .str "a")] ++ rv))]

def toggle (n : ℕ) : Option Json := some (toggled (n % 2 = 0) [])

def toggles (key : String) (n : ℕ) : List (Call (Option Json)) :=
  (List.range n).map (fun j => .put key (toggle j) none [])

theorem stamp_toggle (n r : ℕ) : stampResourceVersion JsonCodec.parsed (toggle n) r =
    .ok (some (toggled (n % 2 = 0) [("resourceVersion", .str (toString r))]), some "a", some "x") := rfl

theorem toggle_differs (n r : ℕ) :
    semanticallyEqualIgnoringResourceVersion JsonCodec.parsed (toggle (n + 1))
      (some (toggled (n % 2 = 0) [("resourceVersion", .str (toString r))])) = false := by
  have h (on on' : Bool) : semanticallyEqualIgnoringResourceVersion JsonCodec.parsed (some (toggled on []))
      (some (toggled on' [("resourceVersion", .str (toString r))])) =
        decide (toggled on [] = toggled on' []) := rfl
  rw [toggle, h, decide_eq_false_iff_not]
  simp only [toggled, Json.obj.injEq, cons.injEq, Prod.mk.injEq, Json.bool.injEq]
  simp only [decide_eq_decide]
  omega

theorem toggles_afterCall (key : String) {s : Sys (Option Json)} (h : s.Ready)
    (hk : s.db.objects.lookup key = none) (n : ℕ) :
    ∃ db ws, (toggles key n).foldl (Sys.afterCall JsonCodec.parsed) s = { s with
        db := db
        log := s.log ++ ws
        lastWritten := s.log.length + n
        cache := ws.foldl Cache.pushEventLocked s.cache
        recorded := s.recorded + n
        sent := s.sent + n
        marked := s.marked + n } ∧ ws.length = n ∧
      (∀ x ∈ ws, x.event.key = key ∧ x.event.value ≠ none ∧ x.ns = some "a") ∧
      ∀ row, db.objects.lookup key = some row →
        semanticallyEqualIgnoringResourceVersion JsonCodec.parsed (toggle n) row.value = false := by
  induction n with
  | zero => exact ⟨s.db, [], by simp [toggles, ← h.lastWritten], rfl, by simp, by simp [hk]⟩
  | succ n ih =>
    obtain ⟨db, ws, hrun, hlen, hws, hrow⟩ := ih
    have hput := perform_put JsonCodec.parsed key (stamp_toggle n (db.revision + 1)) hrow
    refine ⟨(perform JsonCodec.parsed db (.put key (toggle n) none [])).db,
      ws ++ (perform JsonCodec.parsed db (.put key (toggle n) none [])).writes, ?_, ?_, ?_, ?_⟩
    · rw [toggles, range_succ, map_append, foldl_append, ← toggles, hrun]
      simp [Sys.afterCall, hput, hlen, add_assoc]
    · simp [hput, hlen]
    · intro x hx
      obtain hx | hx := mem_append.mp hx
      · exact hws x hx
      · simp only [hput, mem_singleton] at hx
        subst hx
        exact ⟨rfl, by simp, rfl⟩
    · intro row hr
      rw [hput] at hr
      simp only [upsert, AList.lookup_insert, Option.some.injEq] at hr
      subst hr
      exact toggle_differs n _

theorem foldl_pushEventLocked (root n : String) {id : ℕ} {ws : List (Write β)}
    (hr : c.shards.lookup root = some id) (hn : c.shards.lookup (nsKey root n) = none)
    (hws : ∀ x ∈ ws, x.root = root ∧ x.event.value ≠ none ∧ x.ns = some n) :
    ws.foldl Cache.pushEventLocked c =
      c.modify id (fun shard => (ws.map Write.event).foldl pushIntoShard shard) := by
  rw [← Cache.backfill_eq_modify]
  induction ws generalizing c with
  | nil => rfl
  | cons x ws ih =>
    obtain ⟨hx, hv, hns⟩ := hws x mem_cons_self
    have hpush : c.pushEventLocked x = c.push x.event id := by
      have hm : c.matchingShards x.root x.ns = [(root, id)] := by
        rw [hx, hns]
        simp [Cache.matchingShards, hr, hn]
      simp [Cache.pushEventLocked, Cache.targets, hm]
    rw [foldl_cons, hpush]
    exact ih (c := c.push x.event id) hr hn fun y hy => hws y (mem_cons_of_mem _ hy)

theorem foldl_pushEventLocked_unwatched (root n : String) {ws : List (Write β)}
    (hr : c.shards.lookup root = none) (hn : c.shards.lookup (nsKey root n) = none)
    (hws : ∀ x ∈ ws, x.root = root ∧ x.event.value ≠ none ∧ x.ns = some n) :
    ws.foldl Cache.pushEventLocked c = c := by
  induction ws with
  | nil => rfl
  | cons x ws ih =>
    obtain ⟨hx, hv, hns⟩ := hws x mem_cons_self
    have hpush : c.pushEventLocked x = c := by
      have hm : c.matchingShards x.root x.ns = [] := by
        rw [hx, hns]
        simp [Cache.matchingShards, hr, hn]
      simp [Cache.pushEventLocked, Cache.targets, hm, hv]
    rw [foldl_cons, hpush, ih fun y hy => hws y (mem_cons_of_mem _ hy)]

theorem Sys.step_catchup (hw : s.watches i = some w) (hp : w.phase = .catchup sc (e :: es)) :
    s.step codec (.stream i .advance) = { s with
      watches := Function.update s.watches i (some { w.yield [internalToWatch e] with
        lastReplayed := max w.lastReplayed e.revision, phase := .catchup sc es }) } := by
  simp [step, hw, Watch.step, Watch.advance, hp, fills]

theorem Sys.run_catchup (hw : s.watches i = some w) (hp : w.phase = .catchup sc es) :
    ∃ w', run (step codec) s (advances i es.length) =
        { s with watches := Function.update s.watches i (some w') } ∧
      w'.phase = .catchup sc [] ∧ w'.p = w.p ∧ w'.rxPos = w.rxPos ∧
      w'.out = w.out ++ es.map internalToWatch ∧ w.lastReplayed ≤ w'.lastReplayed ∧
      ∀ e ∈ es, e.revision ≤ w'.lastReplayed := by
  induction es generalizing s w with
  | nil =>
    exact ⟨w, by rw [← hw, Function.update_eq_self]; rfl, hp, rfl, rfl, by simp, le_rfl, by simp⟩
  | cons e es ih =>
    have hstep := step_catchup codec hw hp
    obtain ⟨w', hrun, hp', hpre, hrx, hout, hlast, hes⟩ := ih (s := s.step codec (.stream i .advance))
      (w := { w.yield [internalToWatch e] with
        lastReplayed := max w.lastReplayed e.revision, phase := .catchup sc es })
      (by simp [hstep]) rfl
    refine ⟨w', ?_, hp', hpre, hrx, by simp [hout, Watch.yield], (le_max_left _ _).trans hlast, ?_⟩
    · rw [advances, length_cons, replicate_succ, run_cons, ← advances, hrun, hstep]
      simp
    · intro d hd
      obtain rfl | hd := mem_cons.mp hd
      · exact (le_max_right _ _).trans hlast
      · exact hes d hd

theorem Sys.along_catchup (hw : s.watches i = some w) (hp : w.phase = .catchup sc es)
    (hsc : s.cache.findShard w.p = sc) : Along (step codec) (Recovers i) s (advances i (es.length + 1)) := by
  induction es generalizing s w with
  | nil =>
    refine ⟨fun w' _ hw' => ⟨fun h => ?_, fun sc' h => ?_⟩, trivial⟩
    all_goals obtain rfl := Option.some_inj.mp (hw.symm.trans hw')
    · simp [hp] at h
    · obtain rfl : sc = sc' := by simpa [hp] using h
      exact hsc
  | cons e es ih =>
    have hstep := step_catchup codec hw hp
    refine ⟨fun w' _ hw' => ⟨fun h => ?_, fun sc' h => ?_⟩, ?_⟩
    rotate_right
    · exact ih (s := s.step codec (.stream i .advance)) (w := { w.yield [internalToWatch e] with
        lastReplayed := max w.lastReplayed e.revision, phase := .catchup sc es })
        (by simp [hstep]) rfl (by rw [hstep]; exact hsc)
    all_goals
      obtain rfl := Option.some_inj.mp (hw.symm.trans hw')
      simp [hp] at h

theorem ring_of_pushes (hl : Logged db es) (hne : es ≠ []) (hshard : shard.toBuffer = ⟨[], 0⟩) :
    (∀ e ∈ (es.foldl pushIntoShard shard).ring, es.length < e.revision + RING_CAPACITY) ∧
      ∃ e ∈ es, e ∈ (es.foldl pushIntoShard shard).ring ∧
        (es.foldl pushIntoShard shard).horizon ≤ e.revision := by
  have hbuf := foldl_pushIntoShard shard es
  rw [hshard] at hbuf
  rw [hbuf]
  constructor
  · -- the ring is a suffix of at most 512 events
    obtain ⟨⟨pre, hpre⟩, -⟩ := Ring.Buffer.foldl_push ringCapacity_pos InternalEvent.revision ⟨[], 0⟩ es
      (by simpa using hl.sorted)
    have hcap : (es.foldl (Ring.Buffer.push RING_CAPACITY InternalEvent.revision) ⟨[], 0⟩).ring.length ≤
        RING_CAPACITY := Ring.Buffer.length_foldl_push_le _ es (Nat.zero_le _)
    intro e he
    obtain ⟨j, hj⟩ := mem_iff_getElem?.mp he
    have hget : es[pre.length + j]? = some e := by
      rw [← nil_append es, ← hpre, getElem?_append_right (Nat.le_add_right _ _),
        Nat.add_sub_cancel_left]
      exact hj
    have hr := hl.revision_of_getElem hget
    have hlen := congrArg length hpre
    simp only [length_append] at hlen
    omega
  · have hlast : es[es.length - 1]? = some (es.getLast hne) := by
      rw [← getLast?_eq_getElem?, getLast?_eq_some_getLast hne]
    have hr := hl.revision_of_getElem hlast
    have hpos := length_pos_of_ne_nil hne
    refine ⟨es.getLast hne, getLast_mem hne,
      Ring.Buffer.getLast_mem_foldl_push ringCapacity_pos _ hne, ?_⟩
    rw [hr, Nat.sub_add_cancel hpos]
    exact Ring.Buffer.horizon_foldl_push_le _ _ (Nat.zero_le _) fun x hx => (hl.mem_bounds hx).2

section

variable (hw : s.watches i = some w)
include hw

theorem Sys.step_lag (hp : w.phase = .live) (hlag : BROADCAST_CAPACITY < s.sent - w.rxPos) :
    s.step codec (.stream i .recv) = { s with
      watches := Function.update s.watches i
        (some { w with rxPos := s.sent, idle := false, phase := .lagged }) } := by
  simp [step, hw, Watch.step, hp, Watch.recv, hlag, fills]

theorem Sys.step_rescan {id : ℕ} (hp : w.phase = .live)
    (hlag : BROADCAST_CAPACITY < s.sent - w.rxPos) (hid : s.cache.findShard w.p = some id) :
    (s.step codec (.stream i .recv)).step codec (.stream i .advance) = { s with
      watches := Function.update s.watches i (some { w with
        rxPos := s.sent, idle := false, phase := .catchup (some id) (w.scan s.cache) }) } := by
  rw [step_lag codec hw hp hlag]
  simp [step, Watch.step, Watch.advance, hid, fills, Watch.scan]

theorem Sys.run_recovery {id : ℕ} (hp : w.phase = .live)
    (hlag : BROADCAST_CAPACITY < s.sent - w.rxPos) (hid : s.cache.findShard w.p = some id)
    (hh : ∃ e ∈ w.scan s.cache, (s.cache.heap id).horizon ≤ e.revision) :
    ∃ w', run (step codec) s (.stream i .recv :: advances i ((w.scan s.cache).length + 2)) =
        { s with watches := Function.update s.watches i (some w') } ∧
      w'.phase = .live ∧ w'.p = w.p ∧ w'.rxPos = s.sent ∧
      w'.out = w.out ++ (w.scan s.cache).map internalToWatch := by
  have hscan := step_rescan codec hw hp hlag hid
  obtain ⟨w', hrun, hp', hpre, hrx, hout, -, hes⟩ := run_catchup codec
    (s := (s.step codec (.stream i .recv)).step codec (.stream i .advance)) (i := i)
    (w := { w with rxPos := s.sent, idle := false, phase := .catchup (some id) (w.scan s.cache) })
    (by simp [hscan]) rfl
  refine ⟨{ w' with phase := .live }, ?_, rfl, hpre, hrx, hout⟩
  have hlast : ¬ w'.lastReplayed < w'.currentHorizon s.cache := by
    obtain ⟨e, he, hle⟩ := hh
    have hpre' : w'.p = w.p := hpre
    rw [Watch.currentHorizon, hpre', hid]
    exact not_lt.mpr (hle.trans (hes e he))
  have hadv : (advances i ((w.scan s.cache).length + 2) : List (Act β)) =
      .stream i .advance :: (advances i (w.scan s.cache).length ++ [.stream i .advance]) := by
    rw [advances, advances, ← replicate_succ', ← replicate_succ]
  rw [hadv, run_cons, run_cons, run_append, hrun, hscan]
  simp [step, Watch.step, Watch.advance, hp', hlast, fills]

theorem Sys.along_recovery {id : ℕ} (hp : w.phase = .live)
    (hlag : BROADCAST_CAPACITY < s.sent - w.rxPos) (hid : s.cache.findShard w.p = some id)
    (hr : ({ w with rxPos := s.sent, idle := false, phase := .lagged } : Watch β).Recoverable s) :
    Along (step codec) (Recovers i) s (.stream i .recv :: advances i ((w.scan s.cache).length + 2)) := by
  have hlagged := step_lag codec hw hp hlag
  have hscan := step_rescan codec hw hp hlag hid
  refine ⟨trivial, fun w' _ hw' => ?_, ?_⟩
  · rw [hlagged] at hw' ⊢
    obtain rfl : _ = w' := by simpa using hw'
    exact ⟨fun _ => hr, by simp⟩
  · exact along_catchup codec (w := { w with
      rxPos := s.sent, idle := false, phase := .catchup (some id) (w.scan s.cache) })
      (by simp [hscan]) rfl (by rw [hscan]; exact hid)

end

theorem along_recovers_of_byWriter (i : ℕ) (h : ∀ a ∈ as, a.byWriter) :
    Along (Sys.step codec) (Recovers i) s as := by
  refine Along.mono (fun s a ha => ?_) (along_of_forall h)
  cases a <;> trivial

theorem toggles_run (key : String) {s : Sys (Option Json)} (h : s.Ready) (hr : s.recorded = s.log.length)
    (hk : s.db.objects.lookup key = none) (n : ℕ) :
    ∃ (as : List (Act (Option Json))) (ws : List (Write (Option Json))), (∀ a ∈ as, a.byWriter) ∧
      ws.length = n ∧ (∀ x ∈ ws, x.event.key = key ∧ x.event.value ≠ none ∧ x.ns = some "a") ∧
      (run (Sys.step JsonCodec.parsed) s as).watches = s.watches ∧
      (run (Sys.step JsonCodec.parsed) s as).sent = s.sent + n ∧
      (run (Sys.step JsonCodec.parsed) s as).events = s.events ++ ws.map Write.event ∧
      (run (Sys.step JsonCodec.parsed) s as).cache = ws.foldl Cache.pushEventLocked s.cache := by
  obtain ⟨db, ws, hafter, hlen, hws, -⟩ := toggles_afterCall key h hk n
  obtain ⟨as, has, hrun⟩ := Sys.run_calls JsonCodec.parsed h hr (toggles key n)
  refine ⟨as, ws, has, hlen, hws, ?_⟩
  rw [hrun, hafter]
  exact ⟨rfl, rfl, map_append, rfl⟩

def liveWatch : List (Act (Option Json)) := .openWatch "/registry/configmaps/" 0 :: advances 0 10

theorem liveWatch_ready : (run (Sys.step JsonCodec.parsed) Sys.new liveWatch).Ready := by
  constructor <;> rfl

def objectCreated : List (Act (Option Json)) :=
  served (.put "/registry/configmaps/a/x" (configMap "a" "x") (some 0) []) 7

def unreadObject : List (Act (Option Json)) := liveWatch ++ objectCreated

theorem unreadObject_ready : (run (Sys.step JsonCodec.parsed) Sys.new unreadObject).Ready := by
  constructor <;> decide +kernel

theorem unreadObject_live :
    ∃ w, (run (Sys.step JsonCodec.parsed) Sys.new liveWatch).watches 0 = some w ∧
      (run (Sys.step JsonCodec.parsed) Sys.new unreadObject).watches 0 = some w ∧ w.phase = .live ∧
      w.p = "/registry/configmaps/" ∧ w.lastReplayed = 0 ∧ w.rxPos = 0 := ⟨_, rfl, rfl, rfl, rfl, rfl, rfl⟩

theorem unreadObject_cache : let s := run (Sys.step JsonCodec.parsed) Sys.new unreadObject
    s.cache.shards.lookup "/registry/pods/" = none ∧
      s.cache.shards.lookup (nsKey "/registry/pods/" "a") = none ∧
      s.cache.findShard "/registry/configmaps/" = some 0 ∧ (s.cache.heap 0).horizon = 0 ∧
      s.events.length = 1 ∧ s.cache.replayed 0 "/registry/configmaps/" 0 = s.events ∧ s.sent = 1 := by
  decide +kernel

theorem lag_recovery_unreadObject :
    ∃ (bs : List (Act (Option Json))) (w : Watch (Option Json)),
      (run (Sys.step JsonCodec.parsed) Sys.new (liveWatch ++ bs)).watches 0 = some w ∧ w.phase = .live ∧
      w.rxPos = 1025 ∧ ∀ e ∈ (run (Sys.step JsonCodec.parsed) Sys.new (liveWatch ++ bs)).events,
        startsWith e.key w.p → Told w.out e := by
  obtain ⟨w₀, hw₀, hw₁, hp₀, hpre₀, hlast₀, hrx₀⟩ := unreadObject_live
  obtain ⟨hpods, hpodsA, hfound₁, hhor₁, hlen₁, hring₁, hsent₁⟩ := unreadObject_cache
  obtain ⟨as, ws, has, hlen, hws, hwatches, hsent, hevents, hcache⟩ :=
    toggles_run "/registry/pods/a/x" unreadObject_ready (by decide +kernel) (by decide +kernel) 1024
  rw [foldl_pushEventLocked_unwatched "/registry/pods/" "a" hpods hpodsA fun x hx =>
    ⟨by rw [Write.root, (hws x hx).1, (hws x hx).2.2]; decide, (hws x hx).2⟩] at hcache
  generalize ht : run (Sys.step JsonCodec.parsed) (run (Sys.step JsonCodec.parsed) Sys.new unreadObject) as = t
    at hwatches hsent hevents hcache
  have hwt : t.watches 0 = some w₀ := hwatches ▸ hw₁
  have hfound : t.cache.findShard w₀.p = some 0 := by rw [hcache, hpre₀, hfound₁]
  have hlag : BROADCAST_CAPACITY < t.sent - w₀.rxPos := by
    rw [hsent, hrx₀]
    decide
  have hscan : w₀.scan t.cache = (run (Sys.step JsonCodec.parsed) Sys.new unreadObject).events := by
    rw [Watch.scan, hcache, hpre₀, hlast₀]
    exact hring₁
  have hclear : ∃ e ∈ w₀.scan t.cache, (t.cache.heap 0).horizon ≤ e.revision := by
    obtain ⟨e, he⟩ := exists_mem_of_length_pos (hlen₁.symm ▸ one_pos)
    exact ⟨e, hscan ▸ he, by rw [hcache]; exact Nat.zero_le _⟩
  have hother : ∀ e ∈ t.events, startsWith e.key w₀.p → e ∈ w₀.scan t.cache := by
    intro e he hk
    rw [hevents] at he
    obtain he | he := mem_append.mp he
    · exact hscan ▸ he
    · obtain ⟨x, hx, rfl⟩ := mem_map.mp he
      rw [(hws x hx).1, hpre₀] at hk
      exact absurd hk (by decide)
  obtain ⟨w, hrec, hp, hpre, hrx, -⟩ := Sys.run_recovery JsonCodec.parsed hwt hp₀ hlag hfound hclear
  have hrecovers := Sys.along_recovery JsonCodec.parsed hwt hp₀ hlag hfound
    (.inl fun e he hk _ _ => ⟨e, hother e he hk, .refl e⟩)
  have hunread : run (Sys.step JsonCodec.parsed) (run (Sys.step JsonCodec.parsed) Sys.new liveWatch)
      objectCreated = run (Sys.step JsonCodec.parsed) Sys.new unreadObject := (run_append _ _ _ _).symm
  have hfinal : run (Sys.step JsonCodec.parsed) Sys.new (liveWatch ++ (objectCreated ++
      (as ++ .stream 0 .recv :: advances 0 ((w₀.scan t.cache).length + 2)))) =
      { t with watches := Function.update t.watches 0 (some w) } := by
    rw [run_append, run_append, run_append, hunread, ht, hrec]
  obtain ⟨w', hw', htold⟩ := lag_recovery_no_gap JsonCodec.parsed liveWatch (objectCreated ++
      (as ++ .stream 0 .recv :: advances 0 ((w₀.scan t.cache).length + 2))) 0 w₀ hw₀ hp₀
    (along_append.mpr ⟨along_recovers_of_byWriter _ 0 (by decide), along_append.mpr
      ⟨along_recovers_of_byWriter _ 0 has, by rw [hunread, ht]; exact hrecovers⟩⟩)
  rw [hfinal] at hw' htold
  obtain rfl : w = w' := by simpa using hw'
  refine ⟨_, w, by rw [hfinal]; exact hw', hp, hrx.trans (by rw [hsent, hsent₁]), ?_⟩
  rw [hfinal]
  intro e he hk
  have hord : t.Ordered := by
    rw [← ht, ← run_append]
    exact Sys.ordered_run _ _
  have hb := hord.logged.mem_bounds he
  refine htold hp e he hk (by omega) (by omega) (.inr ?_)
  rw [hrx, hsent, hsent₁]
  rw [hevents, length_append, length_map, hlen, hlen₁] at hb
  exact hb.2

/-- The object is changed 1025 times while the client does not read. The ring holds the last 512, all above its
horizon, so the recovery is taken for complete. -/
theorem lag_skips_evicted :
    ∃ (bs : List (Act (Option Json))) (w₀ w : Watch (Option Json)) (e : InternalEvent (Option Json)),
      (∀ a ∈ bs, a.byWriter ∨ a = .stream 0 .recv ∨ a = .stream 0 .advance) ∧
      (run (Sys.step JsonCodec.parsed) Sys.new liveWatch).watches 0 = some w₀ ∧ w₀.phase = .live ∧
      (run (Sys.step JsonCodec.parsed) Sys.new (liveWatch ++ bs)).watches 0 = some w ∧ w.phase = .live ∧
      e ∈ (run (Sys.step JsonCodec.parsed) Sys.new (liveWatch ++ bs)).events ∧ startsWith e.key w.p ∧
      w₀.lastReplayed < e.revision ∧ w₀.rxPos < e.revision ∧ e.revision ≤ w.rxPos ∧ ¬ Told w.out e := by
  obtain ⟨w₀, hw₀, hp₀, hpre₀, hlast₀, hrx₀, hout₀⟩ : ∃ w₀,
      (run (Sys.step JsonCodec.parsed) Sys.new liveWatch).watches 0 = some w₀ ∧ w₀.phase = .live ∧
      w₀.p = "/registry/configmaps/" ∧ w₀.lastReplayed = 0 ∧ w₀.rxPos = 0 ∧ w₀.out = [] :=
    ⟨_, rfl, rfl, rfl, rfl, rfl, rfl⟩
  obtain ⟨as, ws, has, hlen, hws, hwatches, hsent, hevents, hcache⟩ :=
    toggles_run "/registry/configmaps/a/x" liveWatch_ready rfl rfl 1025
  rw [foldl_pushEventLocked "/registry/configmaps/" "a" (show _ = some 0 from rfl) rfl fun x hx =>
    ⟨by rw [Write.root, (hws x hx).1, (hws x hx).2.2]; decide, (hws x hx).2⟩] at hcache
  have hord : (run (Sys.step JsonCodec.parsed) (run (Sys.step JsonCodec.parsed) Sys.new liveWatch) as).Ordered := by
    rw [← run_append]
    exact Sys.ordered_run _ _
  generalize ht : run (Sys.step JsonCodec.parsed) (run (Sys.step JsonCodec.parsed) Sys.new liveWatch) as = t
    at hwatches hsent hevents hcache hord
  replace hevents : t.events = ws.map Write.event := hevents
  have hwt : t.watches 0 = some w₀ := hwatches ▸ hw₀
  have hn : t.events.length = 1025 := by rw [hevents, length_map, hlen]
  have hfound : t.cache.findShard w₀.p = some 0 := by
    rw [hcache, hpre₀]
    rfl
  have hkey : ∀ e ∈ t.events, startsWith e.key w₀.p := by
    intro e he
    rw [hevents] at he
    obtain ⟨x, hx, rfl⟩ := mem_map.mp he
    rw [(hws x hx).1, hpre₀]
    decide
  -- the shard has taken all changes
  have hheap : t.cache.heap 0 =
      t.events.foldl pushIntoShard ((run (Sys.step JsonCodec.parsed) Sys.new liveWatch).cache.heap 0) := by
    rw [hcache, hevents]
    simp [Cache.modify]
  obtain ⟨hring, new, hnew, hin, hhor⟩ := ring_of_pushes hord.logged (ne_nil_of_length_pos (by omega))
    (show ((run (Sys.step JsonCodec.parsed) Sys.new liveWatch).cache.heap 0).toBuffer = ⟨[], 0⟩ from rfl)
  rw [← hheap] at hring hin hhor
  have hscan : w₀.scan t.cache = (t.cache.heap 0).ring.filter
      (fun e => startsWith e.key w₀.p && 0 < e.revision) := by
    rw [Watch.scan, hfound, hlast₀]
    rfl
  have hclear : new ∈ w₀.scan t.cache := by
    rw [hscan]
    refine mem_filter.mpr ⟨hin, ?_⟩
    simp [hkey new hnew, (hord.logged.mem_bounds hnew).1]
  obtain ⟨w, hrec, hp, hpre, hrx, hout⟩ := Sys.run_recovery JsonCodec.parsed hwt hp₀
    (by rw [hsent, hrx₀]; decide) hfound ⟨new, hclear, hhor⟩
  have hfinal : run (Sys.step JsonCodec.parsed) Sys.new (liveWatch ++
      (as ++ .stream 0 .recv :: advances 0 ((w₀.scan t.cache).length + 2))) =
      { t with watches := Function.update t.watches 0 (some w) } := by
    rw [run_append, run_append, ht, hrec]
  obtain ⟨e, hfirst⟩ : ∃ e, t.events[0]? = some e := ⟨_, getElem?_eq_getElem (by omega)⟩
  have hr := hord.logged.revision_of_getElem hfirst
  refine ⟨as ++ .stream 0 .recv :: advances 0 ((w₀.scan t.cache).length + 2), w₀, w, e, ?_, hw₀,
    hp₀, by rw [hfinal]; simp, hp, ?_, ?_, by omega, by omega, by omega, ?_⟩
  · intro a ha
    obtain ha | ha := mem_append.mp ha
    · exact .inl (has a ha)
    · obtain rfl | ha := mem_cons.mp ha
      · exact .inr (.inl rfl)
      · exact .inr (.inr (mem_replicate.mp ha).2)
  · rw [hfinal]
    exact mem_of_getElem? hfirst
  · rw [hpre]
    exact hkey _ (mem_of_getElem? hfirst)
  · -- what is yielded are entries of the ring, the last 512 changes
    rintro ⟨d, hsame, hm⟩
    rw [hout, hout₀] at hm
    obtain ⟨d', hd', heq⟩ := mem_map.mp hm
    have hrev := congrArg Watch.revisionOf heq
    rw [revisionOf_internalToWatch, revisionOf_internalToWatch, hsame.revision, hr] at hrev
    rw [hscan] at hd'
    have hlate := hring d' (mem_of_mem_filter hd')
    rw [hn, hrev] at hlate
    exact absurd hlate (by decide)

end U7s.Store
