import U7s.Store.Lag

/-! A client may resume from a bookmark, so by then it must have been told of every event up to its revision. -/

namespace U7s.Store

open Runs List
open Text (startsWith)

variable {β : Type} (codec : JsonCodec β) {s t : Sys β} {w w' : Watch β}

/-- What a snapshot has to find: every event sent before the receiver subscribed and every one older than an entry
it replays. -/
def Watch.SnapshotCovers (s : Sys β) (w : Watch β) : Prop :=
  ∀ e ∈ s.events, startsWith e.key w.p → w.start < e.revision →
    (e.revision ≤ w.rxPos ∨ ∃ d ∈ s.cache.replayed w.shard w.p w.start, e.revision ≤ d.revision) →
    ∃ d ∈ s.cache.replayed w.shard w.p w.start, d.Same e

def Watch.position (w : Watch β) : ℕ := max w.lastReplayed w.rxPos

/-- Snapshots and recoveries find what they need. When the debounce timer fires, the receiver of the events is not
behind the bookmark; when one of the handler's timers fires, it is not behind the writer. -/
def Marks (i : ℕ) (s : Sys β) (a : Act β) : Prop :=
  Recovers i s a ∧ ∀ w, s.watches i = some w →
    (a = .stream i .advance → w.phase = .snapshot → w.SnapshotCovers s) ∧
    (a = .stream i .debounce → w.phase = .live → w.bookmarkRv ≤ w.position) ∧
    (a = .stream i .heartbeat ∨ a = .stream i .timeout → w.phase = .live → s.lastWritten ≤ w.position)

def Watch.Marked (s : Sys β) (w : Watch β) (out : List (WatchEvent β)) : Prop :=
  ∀ xs r ys, out = xs ++ .bookmark r :: ys → r ≤ max w.start s.log.length ∧
    ∀ e ∈ s.events, startsWith e.key w.p → w.start < e.revision → e.revision ≤ r → Told xs e

theorem Watch.Marked.append {out : List (WatchEvent β)} (h : w.Marked s out)
    (hes : ∀ xs r ys, es = xs ++ .bookmark r :: ys → r ≤ max w.start s.log.length ∧
      ∀ e ∈ s.events, startsWith e.key w.p → w.start < e.revision → e.revision ≤ r → Told (out ++ xs) e) :
    w.Marked s (out ++ es) := by
  intro xs r ys heq
  obtain ⟨zs, rfl, hz⟩ | ⟨zs, rfl, hz⟩ := append_eq_append_iff.mp heq
  · exact hes zs r ys hz
  · obtain _ | ⟨z, zs⟩ := zs
    · have := hes [] r ys (by simpa using hz.symm)
      simpa using this
    · obtain ⟨rfl, rfl⟩ : z = .bookmark r ∧ ys = zs ++ es := by simpa [eq_comm] using hz
      exact h xs r zs rfl

theorem Watch.Marked.append_events {out : List (WatchEvent β)} (h : w.Marked s out)
    (hes : ∀ r, .bookmark r ∉ es) : w.Marked s (out ++ es) :=
  h.append fun xs r ys heq => absurd (by simp [heq]) (hes r)

theorem Watch.Marked.append_bookmark {out : List (WatchEvent β)} (h : w.Marked s out)
    (es : List (WatchEvent β)) (hes : ∀ r, .bookmark r ∉ es) (hr : r ≤ max w.start s.log.length)
    (htold : ∀ e ∈ s.events, startsWith e.key w.p → w.start < e.revision → e.revision ≤ r →
      Told (out ++ es) e) : w.Marked s (out ++ (es ++ [.bookmark r])) := by
  refine h.append fun xs r' ys heq => ?_
  obtain ⟨rfl, rfl⟩ : xs = es ∧ r' = r := by
    obtain ⟨zs, rfl, hz⟩ | ⟨zs, rfl, hz⟩ := append_eq_append_iff.mp heq
    · cases zs <;> simp_all
    · cases zs <;> simp_all
  exact ⟨hr, htold⟩

theorem Watch.Marked.mono {out : List (WatchEvent β)} (h : w.Marked s out) (hg : s.Grows t) (ht : t.Ordered) :
    w.Marked t out := by
  intro xs r ys heq
  obtain ⟨hr, htold⟩ := h xs r ys heq
  refine ⟨hr.trans (max_le_max_left _ hg.length), fun e he hk hs hle => ?_⟩
  exact htold e (hg.mem_events ht he (by omega)) hk hs hle

structure Watch.Faithful (s : Sys β) (w : Watch β) : Prop where
  marked : w.Marked s w.out
  lastRv : w.phase ≠ .closed → w.lastRv ≤ w.position
  sound : (w.phase.opening ∧ w.lastReplayed = w.start) ∨ w.Sound w.start s

theorem Watch.Faithful.mono (h : w.Faithful s) (hs : s.Ordered) (ht : t.Ordered) (hg : s.Grows t)
    (ho : w.Ordered s) : w.Faithful t where
  marked := h.marked.mono hg ht
  lastRv := h.lastRv
  sound := h.sound.imp_right (·.mono hs ht hg ho)

theorem internalToWatch_ne_bookmark (e : InternalEvent β) (r : ℕ) : internalToWatch e ≠ .bookmark r := by
  intro h
  have hc := congrArg WatchEvent.change? h
  rw [change?_internalToWatch] at hc
  cases hc

theorem bookmark_not_mem_tombstones (w : Watch β) (c : Cache β) (r : ℕ) :
    .bookmark r ∉ (w.tombstones c).map Prod.snd := by
  unfold Watch.tombstones
  split
  · intro h
    simp only [DeletionLog.tombstones, map_map, mem_map] at h
    obtain ⟨⟨k, entry⟩, -, h⟩ := h
    cases entry with
    | full event => exact internalToWatch_ne_bookmark event r h
    | stripped r' => cases h
  · simp

theorem Watch.Faithful.noGap (h : w.Faithful s) (hp : w.phase = .live) : w.NoGap w.start s := by
  obtain ⟨ho, -⟩ | hc | ⟨-, -, h⟩ := h.sound
  · simp [hp, Phase.opening] at ho
  · simp [hp] at hc
  · exact h.resolve_right fun hd => hd.phase_ne hp (by simp)

theorem Watch.Faithful.moves_sound (hs : s.Ordered) (hw : s.watches i = some w) (hC : Marks i s (.stream i a))
    (h : w.Faithful s) (hm : w.Moves s a w') :
    (w'.phase.opening ∧ w'.lastReplayed = w'.start) ∨ w'.Sound w'.start s := by
  obtain ⟨ho, hl⟩ | hsound := h.sound
  · cases hm with
    | opens _ _ hk _ ho' => exact .inl ⟨ho', by rw [hk.lastReplayed, hk.start, hl]⟩
    | snapshot hp =>
      refine .inr (.inr ⟨rfl, le_rfl, .inl fun e he hk hb hpass => .inr ?_⟩)
      refine (hC.2 w hw).1 rfl hp e he hk hb ?_
      obtain hr | ⟨-, hr⟩ | hr := hpass
      · exact absurd (hl ▸ hr) (not_le.mpr hb)
      · exact .inl hr
      · exact .inr hr
    | quiet hk hp => exact .inl ⟨hp ▸ ho, by rw [hk.lastReplayed, hk.start, hl]⟩
    | cancel => exact .inr (.inl rfl)
    | next hp => obtain ⟨hp, -⟩ | ⟨sc, hp, -⟩ := hp <;> simp [hp, Phase.opening] at ho
    | accept hp | expire hp | live hp | rescan hp | recover hp | giveUp hp | lag hp | drop hp | deliver hp
    | debounce hp | heartbeat hp | timeout hp => simp [hp, Phase.opening] at ho
  · rw [hm.start.1]
    exact .inr (hsound.moves hs hw hC.1 hm)

theorem Watch.Faithful.moves_marked (hs : s.Ordered) (hw : s.watches i = some w)
    (ho : w.Ordered s) (hC : Marks i s (.stream i a)) (h : w.Faithful s) (hm : w.Moves s a w') :
    w.Marked s w'.out := by
  have hposition : w.position ≤ max w.start s.log.length :=
    max_le ho.last (((ho.rxPos.trans hs.sent).trans hs.recorded).trans (le_max_right _ _))
  have hreached {r : ℕ} (hp : w.phase = .live) (hr : r ≤ w.position) (e) (he : e ∈ s.events)
      (hk : startsWith e.key w.p) (hst : w.start < e.revision) (hle : e.revision ≤ r) : Told w.out e := by
    refine (h.noGap hp).told hp he hk hst ?_
    obtain hlast | hrx := le_max_iff.mp (hle.trans hr)
    · exact .inl hlast
    · exact .inr (.inl ⟨by simp [hp], hrx⟩)
  cases hm with
  | opens _ _ hk | quiet hk => exact hk.out ▸ h.marked
  | snapshot | accept | live | rescan | recover | cancel | lag | drop => exact h.marked
  | expire | giveUp =>
    refine h.marked.append_events fun r hr => ?_
    obtain hr | hr := mem_append.mp hr
    · exact bookmark_not_mem_tombstones w s.cache r hr
    · simp at hr
  | next =>
    exact h.marked.append_events fun r hr =>
      internalToWatch_ne_bookmark _ r (mem_singleton.mp hr).symm
  | @deliver e hp hlt he hk hr =>
    have hrev := hs.logged.revision_of_getElem he
    refine h.marked.append_bookmark [internalToWatch e]
      (fun r hr => internalToWatch_ne_bookmark _ r (mem_singleton.mp hr).symm)
      ((hs.revision_le (mem_of_getElem? he)).trans (le_max_right _ _))
      fun d hd hk hst hle => (h.noGap hp).told_next hs hp he hd hk hst (hle.trans hrev.le)
  | debounce hp =>
    have hr := max_le ((hC.2 w hw).2.1 rfl hp) (le_max_left _ _)
    refine h.marked.append_bookmark [] (by simp) (hr.trans hposition) ?_
    simpa using hreached hp hr
  | heartbeat hp | timeout hp =>
    have hr := max_le ((hC.2 w hw).2.2 (by simp) hp) (h.lastRv (by simp [hp]))
    refine h.marked.append_bookmark [] (by simp) (hr.trans hposition) ?_
    simpa using hreached hp hr

theorem Watch.Faithful.moves (hs : s.Ordered) (hw : s.watches i = some w) (ho : w.Ordered s)
    (hC : Marks i s (.stream i a)) (h : w.Faithful s) (hm : w.Moves s a w') : w'.Faithful s := by
  have hmarked : w'.Marked s w'.out := by
    have := h.moves_marked hs hw ho hC hm
    simpa only [Marked, hm.start.1, hm.start.2] using this
  have hsound := h.moves_sound hs hw hC hm
  have hkept : w.lastReplayed ≤ w.position := le_max_left _ _
  cases hm with
  | opens hp _ hk =>
    refine ⟨hmarked, fun _ => ?_, hsound⟩
    rw [hk.lastRv, position, hk.lastReplayed, hk.rxPos]
    exact h.lastRv fun hc => by simp [hc, Phase.opening] at hp
  | quiet hk hp =>
    refine ⟨hmarked, fun hc => ?_, hsound⟩
    rw [hk.lastRv, position, hk.lastReplayed, hk.rxPos]
    exact h.lastRv (hp ▸ hc)
  | expire | giveUp | cancel | timeout => exact ⟨hmarked, fun hc => absurd rfl hc, hsound⟩
  | snapshot hp | accept hp | live hp | rescan hp | recover hp =>
    exact ⟨hmarked, fun _ => h.lastRv (by simp [hp]), hsound⟩
  | lag hp => exact ⟨hmarked, fun _ => (h.lastRv (by simp [hp])).trans (max_le_max_left _ ho.rxPos), hsound⟩
  | drop hp => exact ⟨hmarked, fun _ => (h.lastRv (by simp [hp])).trans (max_le_max_left _ (Nat.le_succ _)), hsound⟩
  | @next e es ph hp =>
    have hl : w.lastRv ≤ w.position := by
      obtain ⟨hp, -⟩ | ⟨sc, hp, -⟩ := hp <;> exact h.lastRv (by simp [hp])
    refine ⟨hmarked, fun _ => max_le (hl.trans (max_le_max_right _ (le_max_left _ _))) ?_, hsound⟩
    rw [revisionOf_internalToWatch]
    exact (le_max_right _ _).trans (le_max_left _ _)
  | @deliver e hp hlt he hk hr =>
    refine ⟨hmarked, fun _ => ?_, hsound⟩
    have hl : w.lastRv ≤ max e.revision (w.rxPos + 1) :=
      (h.lastRv (by simp [hp])).trans (max_le_max hr.le (Nat.le_succ _))
    simp only [yield, foldl_cons, revisionOf_internalToWatch]
    exact max_le (max_le hl (le_max_left _ _)) (le_max_left _ _)
  | debounce hp =>
    exact ⟨hmarked, fun _ => max_le (h.lastRv (by simp [hp])) (max_le ((hC.2 w hw).2.1 rfl hp) hkept), hsound⟩
  | heartbeat hp =>
    have hl := h.lastRv (by simp [hp])
    exact ⟨hmarked, fun _ => max_le hl (max_le ((hC.2 w hw).2.2 (by simp) hp) hl), hsound⟩

end U7s.Store
