import U7s.Rbac.Entries

namespace U7s.Rbac

open Runs Register List Option
open Text (Segment)

inductive Change where
  | put (r : RbacRef) (value : Json)
  | delete (r : RbacRef)
  deriving DecidableEq

def Change.ref : Change → RbacRef
  | .put r _ => r
  | .delete r => r

def Change.value? : Change → Option Json
  | .put _ value => some value
  | .delete _ => none

def notify (inner : RbacInner) : Change → RbacInner
  | .put r value => applyObject inner r.key value
  | .delete r => removeObject inner r.key

/-! The floors of fewer keys than the cap are never evicted. -/

structure LruOk (S : Finset String) (f : Floors) : Prop where
  mem : ∀ e ∈ f.lru, e.2 ∈ S
  held : ∀ e ∈ f.lru, ∃ rv, f.versions.lookup e.2 = some (rv, e.1)
  ticks : (f.lru.map Prod.fst).Nodup
  fresh : ∀ e ∈ f.lru, e.1 < f.tick

theorem LruOk.length_le (h : LruOk S f) : f.lru.length ≤ S.card := by
  have hinj : ∀ x ∈ f.lru, ∀ y ∈ f.lru, x.2 = y.2 → x = y := by
    intro x hx y hy he
    obtain ⟨rv, hrv⟩ := h.held x hx
    obtain ⟨rv', hrv'⟩ := h.held y hy
    rw [he, hrv'] at hrv
    simp only [some.injEq, Prod.mk.injEq] at hrv
    exact Prod.ext hrv.2.symm he
  have hnodup : (f.lru.map Prod.snd).Nodup := Nodup.map_on hinj (Nodup.of_map _ h.ticks)
  have hsub : (f.lru.map Prod.snd).toFinset ⊆ S := by
    intro k hk
    obtain ⟨e, he, rfl⟩ := mem_map.mp (List.mem_toFinset.mp hk)
    exact h.mem e he
  calc f.lru.length = (f.lru.map Prod.snd).length := (length_map _).symm
    _ = (f.lru.map Prod.snd).toFinset.card := (toFinset_card_of_nodup hnodup).symm
    _ ≤ S.card := Finset.card_le_card hsub

theorem LruOk.bump (h : LruOk S f) (hk : key ∈ S) (rv : ℕ) : LruOk S (bump f key rv) := by
  -- the older entries that stay are those of the other keys
  have hold : ∀ e ∈ lruWithout f key, e ∈ f.lru ∧ e.2 ≠ key := by
    intro e he
    unfold lruWithout at he
    cases hl : f.versions.lookup key with
    | none =>
      simp only [hl] at he
      refine ⟨he, fun hkey => ?_⟩
      obtain ⟨rv', hrv'⟩ := h.held e he
      rw [hkey, hl] at hrv'
      cases hrv'
    | some p =>
      simp only [hl, mem_filter, decide_eq_true_eq] at he
      refine ⟨he.1, fun hkey => ?_⟩
      obtain ⟨rv', hrv'⟩ := h.held e he.1
      rw [hkey, hl, some.injEq] at hrv'
      exact he.2 (by rw [hrv'])
  have hsub : (lruWithout f key).Sublist f.lru := by
    unfold lruWithout
    split
    · exact filter_sublist
    · exact Sublist.refl _
  simp only [Rbac.bump]
  constructor
  · intro e he
    rcases mem_append.mp he with he | he
    · exact h.mem e (hold e he).1
    · rw [mem_singleton.mp he]
      exact hk
  · intro e he
    rcases mem_append.mp he with he | he
    · obtain ⟨rv', hrv'⟩ := h.held e (hold e he).1
      exact ⟨rv', (AList.lookup_insert_ne (hold e he).2).trans hrv'⟩
    · rw [mem_singleton.mp he]
      exact ⟨rv, AList.lookup_insert _⟩
  · rw [map_append, nodup_append]
    refine ⟨h.ticks.sublist (hsub.map _), by simp, ?_⟩
    intro t ht t' ht' heq
    obtain ⟨e, he, rfl⟩ := mem_map.mp ht
    have := h.fresh e (hold e he).1
    simp only [map_cons, map_nil, mem_singleton] at ht'
    omega
  · intro e he
    rcases mem_append.mp he with he | he
    · exact (h.fresh e (hold e he).1).trans (Nat.lt_succ_self _)
    · rw [mem_singleton.mp he]
      exact Nat.lt_succ_self _

def floorOf (f : Floors) (key : String) : Option ℕ := (f.versions.lookup key).map Prod.fst

theorem floorOf_bump (f : Floors) (key : String) (rv : ℕ) : floorOf (bump f key rv) key = some rv := by
  simp [floorOf, bump]

theorem floorOf_bump_ne (h : key' ≠ key) (f : Floors) (rv : ℕ) : floorOf (bump f key rv) key' = floorOf f key' := by
  simp [floorOf, bump, h]

theorem touchExisting_eq (f : Floors) (key : String) :
    touchExisting f key = match floorOf f key with
      | some rv => bump f key rv
      | none => f := by
  unfold touchExisting floorOf
  cases f.versions.lookup key <;> rfl

theorem touchExisting_spec (h : LruOk S f) (hk : key ∈ S) :
    LruOk S (touchExisting f key) ∧ ∀ k, floorOf (touchExisting f key) k = floorOf f k := by
  rw [touchExisting_eq]
  cases hf : floorOf f key with
  | none => exact ⟨h, fun _ => rfl⟩
  | some rv =>
    refine ⟨h.bump hk rv, fun k => ?_⟩
    by_cases he : k = key
    · rw [he, floorOf_bump, hf]
    · exact floorOf_bump_ne he f rv

theorem acceptUpdate_spec (hS : S.card ≤ MAX_TRACKED_RESOURCE_VERSIONS) (h : LruOk S f) (hk : key ∈ S) (rv : ℕ) :
    (acceptUpdate f key (some rv)).1 = !(floorOf f key).any (fun r => r ≥ rv) ∧
    LruOk S (acceptUpdate f key (some rv)).2 ∧
    floorOf (acceptUpdate f key (some rv)).2 key =
      (if (floorOf f key).any (fun r => r ≥ rv) then floorOf f key else some rv) ∧
    ∀ k, k ≠ key → floorOf (acceptUpdate f key (some rv)).2 k = floorOf f k := by
  have hany : (f.versions.lookup key).any (fun e => e.1 ≥ rv) = (floorOf f key).any (fun r => r ≥ rv) := by
    simp [floorOf, Option.any_map]
  simp only [acceptUpdate, hany]
  split_ifs with hr
  · obtain ⟨hl, hf⟩ := touchExisting_spec h hk
    exact ⟨by simp [hr], hl, hf key, fun k _ => hf k⟩
  · have hb := h.bump hk rv
    have hev : evictFloor (bump f key rv) = bump f key rv := by
      rw [evictFloor, if_neg]
      exact not_lt.mpr (hb.length_le.trans hS)
    rw [hev]
    exact ⟨by simp [hr], hb, floorOf_bump f key rv, fun k hk => floorOf_bump_ne hk f rv⟩

/-! The index is one versioned register for each object. -/

def regOf (inner : RbacInner) (r : RbacRef) : Reg Content := ⟨floorOf inner.floors r.key, entry inner r⟩

def opOf (r : RbacRef) : Change → Option (Op Content)
  | .put r' value =>
    if r' = r then (decode r value).bind (fun c => (incomingRv value).map (fun rv => .put rv c))
    else none
  | .delete r' => if r' = r then some .remove else none

def Change.Versioned (c : Change) : Prop := ∀ value, c.value? = some value → (incomingRv value).isSome

theorem applyObject_regOf (hS : S.card ≤ MAX_TRACKED_RESOURCE_VERSIONS)
    {inner : RbacInner} (hl : LruOk S inner.floors) (hr : r.key ∈ S) (hv : incomingRv value = some rv) :
    LruOk S (applyObject inner r.key value).floors ∧
    regOf (applyObject inner r.key value) r =
      (match decode r value with
        | some c => (regOf inner r).step (.put rv c)
        | none => regOf inner r) ∧
    ∀ r', r' ≠ r → regOf (applyObject inner r.key value) r' = regOf inner r' := by
  rcases @indexed_entry r value inner with ⟨hd, hi⟩ | ⟨c, inner', hd, hi, hfl, hself, hother⟩
  · have hsame : applyObject inner r.key value = inner := by
      simp only [applyObject, parseRbacKey_key, hi]
    rw [hsame, hd]
    exact ⟨hl, rfl, fun _ _ => rfl⟩
  · obtain ⟨hacc, hlru, hfloor, hfloor'⟩ := acceptUpdate_spec hS hl hr rv
    simp only [applyObject, parseRbacKey_key, hi, hd, hv, hacc]
    cases hany : (floorOf inner.floors r.key).any (fun f => f ≥ rv) with
    | true =>
      simp only [hany] at hfloor
      simp only [Bool.not_true, Bool.false_eq_true, ↓reduceIte, regOf, Reg.step, hany]
      refine ⟨hlru, ?_, fun r' hne => ?_⟩
      · rw [hfloor]
        cases r <;> rfl
      · rw [hfloor' _ (fun he => hne (key_injective he))]
        cases r' <;> rfl
    | false =>
      simp only [hany, Bool.false_eq_true, ↓reduceIte] at hfloor
      simp only [Bool.not_false, ↓reduceIte, regOf, Reg.step, hany, Bool.false_eq_true]
      have hentry : ∀ (f : Floors) r', entry { inner' with floors := f } r' = entry inner' r' := by
        intro f r'
        cases r' <;> rfl
      refine ⟨hlru, ?_, fun r' hne => ?_⟩
      · rw [hfloor, hentry, hself]
      · rw [hfloor' _ (fun he => hne (key_injective he)), hentry, hother r' hne]

theorem removeObject_regOf {inner : RbacInner} (hl : LruOk S inner.floors) (hr : r.key ∈ S) :
    LruOk S (removeObject inner r.key).floors ∧
    regOf (removeObject inner r.key) r = (regOf inner r).step .remove ∧
    ∀ r', r' ≠ r → regOf (removeObject inner r.key) r' = regOf inner r' := by
  obtain ⟨hlru, hfloor⟩ := touchExisting_spec hl hr
  obtain ⟨hfl, hself, hother⟩ :=
    unindexed_entry r { inner with floors := touchExisting inner.floors r.key }
  simp only [removeObject, parseRbacKey_key, regOf, Reg.step, hfl]
  refine ⟨hlru, ?_, fun r' hne => ?_⟩
  · rw [hfloor, hself]
  · rw [hfloor, hother r' hne]
    cases r' <;> rfl

theorem notify_regOf (hS : S.card ≤ MAX_TRACKED_RESOURCE_VERSIONS) {inner : RbacInner}
    (hl : LruOk S inner.floors) (hc : c.ref.key ∈ S) (hv : c.Versioned) :
    LruOk S (notify inner c).floors ∧
    ∀ r, regOf (notify inner c) r = (opOf r c).elim (regOf inner r) (regOf inner r).step := by
  cases c with
  | put r value =>
    obtain ⟨rv, hrv⟩ := isSome_iff_exists.mp (hv value rfl)
    obtain ⟨hlru, hself, hother⟩ := applyObject_regOf hS hl (show r.key ∈ S from hc) hrv
    refine ⟨hlru, fun r' => ?_⟩
    by_cases he : r = r'
    · subst he
      rw [notify, hself, opOf, if_pos rfl, hrv]
      cases decode r value <;> rfl
    · simp only [opOf, if_neg he]
      exact hother r' (Ne.symm he)
  | delete r =>
    obtain ⟨hlru, hself, hother⟩ := removeObject_regOf hl (show r.key ∈ S from hc)
    refine ⟨hlru, fun r' => ?_⟩
    by_cases he : r = r'
    · subst he
      rw [notify, hself, opOf, if_pos rfl]
      rfl
    · simp only [opOf, if_neg he]
      exact hother r' (Ne.symm he)

theorem run_regOf (hS : S.card ≤ MAX_TRACKED_RESOURCE_VERSIONS)
    (hc : ∀ c ∈ cs, c.ref.key ∈ S ∧ c.Versioned) {inner : RbacInner} (hl : LruOk S inner.floors) (r : RbacRef) :
    regOf (run notify inner cs) r = run Reg.step (regOf inner r) (cs.filterMap (opOf r)) := by
  induction cs generalizing inner with
  | nil => rfl
  | cons c cs ih =>
    obtain ⟨hkey, hv⟩ := hc c mem_cons_self
    obtain ⟨hlru, hstep⟩ := notify_regOf hS hl hkey hv
    rw [run_cons, ih (fun c hm => hc c (mem_cons_of_mem _ hm)) hlru, hstep]
    cases ho : opOf r c with
    | none | some o => simp [ho]

def live (h : List Change) (r : RbacRef) : Option Json :=
  (h.filter (fun c => c.ref = r)).getLast?.bind Change.value?

def readable? (r : RbacRef) : Change → Option Json
  | .put r' value => if r' = r ∧ (decode r value).isSome then some value else none
  | .delete _ => none

def newest (h : List Change) (r : RbacRef) : Option Json := (h.filterMap (readable? r)).getLast?

structure History (h : List Change) : Prop where
  versioned : ∀ c ∈ h, c.Versioned
  increasing : (h.filterMap (fun c => c.value?.bind incomingRv)).Pairwise (· < ·)

def Settled (h ns : List Change) (r : RbacRef) : Prop :=
  ∀ value, newest h r = some value →
    (live h r = some value ↔ .delete r ∉ ns.dropWhile (fun c => c ≠ .put r value))

theorem exists_split_of_getLast?_filterMap {α β : Type} {f : α → Option β} {l : List α} {b : β}
    (h : (l.filterMap f).getLast? = some b) :
    ∃ pre a post, l = pre ++ a :: post ∧ f a = some b ∧ ∀ x ∈ post, f x = none := by
  induction l using reverseRecOn with
  | nil => simp at h
  | append_singleton l a ih =>
    cases ha : f a with
    | none =>
      simp only [filterMap_append, filterMap_cons_none ha, filterMap_nil,
        append_nil] at h
      obtain ⟨pre, x, post, rfl, hx, hpost⟩ := ih h
      refine ⟨pre, x, post ++ [a], by simp, hx, ?_⟩
      intro y hy
      rcases mem_append.mp hy with hy | hy
      · exact hpost y hy
      · rw [mem_singleton.mp hy, ha]
    | some b' =>
      simp only [filterMap_append, filterMap_cons_some ha, filterMap_nil,
        getLast?_append, getLast?_singleton, some_or, some.injEq] at h
      subst h
      exact ⟨l, a, [], by simp, ha, by simp⟩

theorem readable?_eq_some (h : readable? r c = some value) :
    c = .put r value ∧ ∃ content, decode r value = some content := by
  cases c with
  | delete r' => cases h
  | put r' v =>
    simp only [readable?] at h
    split_ifs at h with hc
    cases h
    rw [hc.1]
    exact ⟨rfl, isSome_iff_exists.mp hc.2⟩

theorem newest_spec (hh : History h) (hn : newest h r = some value) :
    ∃ rv content, incomingRv value = some rv ∧ decode r value = some content ∧
      h.count (.put r value) = 1 ∧
      ∀ v w, .put r v ∈ h → v ≠ value → (decode r v).isSome → incomingRv v = some w → w < rv := by
  obtain ⟨pre, c, post, rfl, hc, hpost⟩ := exists_split_of_getLast?_filterMap hn
  obtain ⟨rfl, content, hd⟩ := readable?_eq_some hc
  obtain ⟨rv, hrv⟩ := isSome_iff_exists.mp (hh.versioned (.put r value) (by simp) value rfl)
  have hinc := hh.increasing
  simp only [filterMap_append, filterMap_cons, Change.value?, bind_some, hrv,
    pairwise_append, pairwise_cons] at hinc
  have hlt : ∀ v w, .put r v ∈ pre → incomingRv v = some w → w < rv := by
    intro v w hv hw
    exact hinc.2.2 w (mem_filterMap.mpr ⟨_, hv, hw⟩) rv mem_cons_self
  have hgt : ∀ v w, .put r v ∈ post → incomingRv v = some w → rv < w := by
    intro v w hv hw
    exact hinc.2.1.1 w (mem_filterMap.mpr ⟨_, hv, hw⟩)
  refine ⟨rv, content, hrv, hd, ?_, ?_⟩
  · have h1 : pre.count (.put r value) = 0 :=
      count_eq_zero.mpr (fun hm => lt_irrefl _ (hlt value rv hm hrv))
    have h2 : post.count (.put r value) = 0 :=
      count_eq_zero.mpr (fun hm => lt_irrefl _ (hgt value rv hm hrv))
    simp [h1, h2]
  · intro v w hv hne hdv hw
    rcases mem_append.mp hv with hv | hv
    · exact hlt v w hv hw
    · rcases mem_cons.mp hv with hv | hv
      · cases hv
        exact absurd rfl hne
      · have := hpost _ hv
        simp [readable?, hdv] at this

theorem newest_of_live (hl : live h r = some value) (hd : (decode r value).isSome) : newest h r = some value := by
  obtain ⟨c, hc, hv⟩ := bind_eq_some_iff.mp hl
  obtain ⟨init, hinit⟩ := getLast?_eq_some_iff.mp hc
  have href : c.ref = r := by
    have hm : c ∈ h.filter (fun c => c.ref = r) := by simp [hinit]
    simpa using (mem_filter.mp hm).2
  have hput : c = .put r value := by
    cases c with
    | delete r' => cases hv
    | put r' v =>
      cases hv
      cases href
      rfl
  have hfil : h.filterMap (readable? r) = (h.filter (fun c => c.ref = r)).filterMap (readable? r) := by
    rw [filterMap_filter]
    congr 1
    funext c
    cases c <;> simp only [readable?, Change.ref] <;> split_ifs <;> simp_all
  rw [newest, hfil, hinit, hput]
  simp [readable?, hd]

theorem opOf_eq_put (h : opOf r c = some (.put w content)) :
    ∃ v, c = .put r v ∧ decode r v = some content ∧ incomingRv v = some w := by
  cases c with
  | delete r' =>
    simp only [opOf] at h
    split_ifs at h
    cases h
  | put r' v =>
    simp only [opOf] at h
    split_ifs at h with hr
    obtain ⟨content', hd, h⟩ := bind_eq_some_iff.mp h
    obtain ⟨rv, hrv, h⟩ := map_eq_some_iff.mp h
    cases h
    rw [hr]
    exact ⟨v, rfl, hd, hrv⟩

theorem opOf_eq_remove : opOf r c = some .remove ↔ c = .delete r := by
  cases c with
  | delete r' =>
    simp only [opOf]
    split_ifs with hr <;> simp [hr]
  | put r' v =>
    simp only [opOf]
    split_ifs
    · simp [bind_eq_some_iff]
    · simp

theorem remove_mem_iff {cs : List Change} : Op.remove ∈ cs.filterMap (opOf r) ↔ .delete r ∈ cs := by
  simp only [mem_filterMap, opOf_eq_remove, exists_eq_right]

theorem entry_run (hh : History h) (hp : ns.Perm h)
    (hcard : (h.map (fun c => c.ref.key)).toFinset.card < MAX_TRACKED_RESOURCE_VERSIONS) (r : RbacRef) :
    entry (run notify RbacInner.new ns) r = (newest h r).bind (fun value =>
      if .delete r ∈ ns.dropWhile (fun c => c ≠ .put r value) then none else decode r value) := by
  have hempty : regOf RbacInner.new r = ⟨none, none⟩ := by cases r <;> rfl
  have hlru : LruOk (h.map (fun c => c.ref.key)).toFinset RbacInner.new.floors := by
    constructor <;> simp [RbacInner.new]
  have hrun : regOf (run notify RbacInner.new ns) r = run Reg.step ⟨none, none⟩ (ns.filterMap (opOf r)) := by
    rw [← hempty]
    refine run_regOf hcard.le (fun c hc => ?_) hlru r
    have hm := hp.mem_iff.mp hc
    exact ⟨mem_toFinset.mpr (mem_map.mpr ⟨c, hm, rfl⟩), hh.versioned c hm⟩
  have hentry : entry (run notify RbacInner.new ns) r =
      (run Reg.step ⟨none, none⟩ (ns.filterMap (opOf r))).value := by
    rw [← hrun]
    rfl
  rw [hentry]
  cases hn : newest h r with
  | none =>
    apply run_no_put rfl
    intro o ho
    obtain ⟨c, hc, hco⟩ := mem_filterMap.mp ho
    cases o with
    | remove => rfl
    | put w content =>
      obtain ⟨v, rfl, hd, -⟩ := opOf_eq_put hco
      have hnil : h.filterMap (readable? r) = [] := getLast?_eq_none_iff.mp hn
      have := filterMap_eq_nil_iff.mp hnil _ (hp.mem_iff.mp hc)
      simp [readable?, hd] at this
  | some value =>
    obtain ⟨rv, content, hrv, hd, hcount, hold⟩ := newest_spec hh hn
    have hmem : Change.put r value ∈ ns := by
      rw [hp.mem_iff]
      exact count_pos_iff.mp (by omega)
    obtain ⟨pre, post, rfl, hpre⟩ := eq_append_cons_of_mem hmem
    have hpost : Change.put r value ∉ post := by
      rw [← hp.count_eq] at hcount
      simp only [count_append, count_cons_self] at hcount
      exact count_eq_zero.mp (by omega)
    have holder : ∀ c ∈ pre ++ Change.put r value :: post, c ≠ .put r value →
        ∀ o, opOf r c = some o → ∀ w, o.version? = some w → w < rv := by
      intro c hc hne o ho w hw
      cases o with
      | remove => cases hw
      | put w' content' =>
        cases hw
        obtain ⟨v, rfl, hdv, hwv⟩ := opOf_eq_put ho
        refine hold v w (hp.mem_iff.mp hc) (fun he => hne (by rw [he])) ?_ hwv
        rw [hdv]
        rfl
    have hop : opOf r (.put r value) = some (.put rv content) := by
      simp [opOf, hd, hrv]
    have hdrop : (pre ++ Change.put r value :: post).dropWhile (fun c => c ≠ .put r value) =
        Change.put r value :: post := by
      rw [dropWhile_append_of_pos]
      · simp
      · intro c hc
        simpa using fun he : c = .put r value => hpre (he ▸ hc)
    rw [filterMap_append, filterMap_cons_some hop, run_newest (by rintro f ⟨⟩)]
    · simp only [bind_some, hdrop, mem_cons, reduceCtorEq, false_or, remove_mem_iff, hd]
    · intro o ho
      obtain ⟨c, hc, hco⟩ := mem_filterMap.mp ho
      exact holder c (by simp [hc]) (fun he => hpre (he ▸ hc)) o hco
    · intro o ho
      obtain ⟨c, hc, hco⟩ := mem_filterMap.mp ho
      exact holder c (by simp [hc]) (fun he => hpost (he ▸ hc)) o hco

theorem entry_run_iff (hh : History h) (hp : ns.Perm h)
    (hcard : (h.map (fun c => c.ref.key)).toFinset.card < MAX_TRACKED_RESOURCE_VERSIONS) (r : RbacRef) :
    entry (run notify RbacInner.new ns) r = (live h r).bind (decode r) ↔ Settled h ns r := by
  rw [entry_run hh hp hcard r]
  have hstale : ∀ value, newest h r = some value → live h r ≠ some value →
      (live h r).bind (decode r) = none := by
    intro value hn hne
    cases hl : live h r with
    | none => rfl
    | some v =>
      rw [← not_isSome_iff_eq_none]
      intro hd
      exact hne (by rw [hl, ← newest_of_live hl hd, hn])
  cases hn : newest h r with
  | none =>
    have hnone : (live h r).bind (decode r) = none := by
      cases hl : live h r with
      | none => rfl
      | some v =>
        rw [← not_isSome_iff_eq_none]
        intro hd
        rw [newest_of_live hl hd] at hn
        cases hn
    simp [Settled, hn, hnone]
  | some value =>
    obtain ⟨rv, content, -, hd, -, -⟩ := newest_spec hh hn
    simp only [Settled, hn, bind_some, some.injEq, forall_eq']
    by_cases hl : live h r = some value
    · simp only [hl, bind_some, hd, true_iff]
      split_ifs with hdel
      · exact iff_of_false (by simp) (not_not.mpr hdel)
      · exact iff_of_true rfl hdel
    · rw [hstale value hn hl]
      simp only [hl, false_iff, not_not]
      split_ifs with hdel
      · exact iff_of_true rfl hdel
      · exact iff_of_false (by simp [hd]) hdel

def liveObjects (h : List Change) : List Change :=
  (h.map Change.ref).dedup.filterMap (fun r => (live h r).map (.put r))

def init (h : List Change) : RbacInner := run notify RbacInner.new (liveObjects h)

theorem live_mem (hl : live h r = some value) : .put r value ∈ h := by
  obtain ⟨c, hc, hv⟩ := bind_eq_some_iff.mp hl
  obtain ⟨hm, href⟩ := mem_filter.mp (mem_of_getLast? hc)
  cases c with
  | delete r' => cases hv
  | put r' v =>
    cases hv
    cases of_decide_eq_true href
    exact hm

theorem liveObjects_ops (h : List Change) (r : RbacRef) :
    (liveObjects h).filterMap (opOf r) = ((live h r).bind (fun v => opOf r (.put r v))).toList := by
  have hskip : ∀ r', r' ≠ r → ((live h r').map (Change.put r')).bind (opOf r) = none := by
    intro r' hne
    cases live h r' <;> simp [opOf, hne]
  have hself : ((live h r).map (Change.put r)).bind (opOf r) =
      (live h r).bind (fun v => opOf r (.put r v)) := by
    cases live h r <;> rfl
  have hlist : ∀ l : List RbacRef, l.Nodup →
      l.filterMap (fun r' => ((live h r').map (Change.put r')).bind (opOf r)) =
        if r ∈ l then ((live h r).bind (fun v => opOf r (.put r v))).toList else [] := by
    intro l hl
    induction l with
    | nil => rfl
    | cons r' l ih =>
      obtain ⟨hnot, hl⟩ := nodup_cons.mp hl
      by_cases he : r' = r
      · subst he
        simp only [filterMap_cons, hself, ih hl, hnot, mem_cons]
        cases (live h r').bind (fun v => opOf r' (.put r' v)) <;> rfl
      · simp only [filterMap_cons, hskip r' he, ih hl, mem_cons, Ne.symm he, false_or]
  rw [liveObjects, filterMap_filterMap, hlist _ (nodup_dedup _)]
  split_ifs with hm
  · rfl
  · have hnone : live h r = none := by
      rw [← not_isSome_iff_eq_none, isSome_iff_exists]
      rintro ⟨v, hv⟩
      exact hm (mem_dedup.mpr (mem_map.mpr ⟨_, live_mem hv, rfl⟩))
    rw [hnone]
    rfl

theorem entry_init (hh : History h)
    (hcard : (h.map (fun c => c.ref.key)).toFinset.card < MAX_TRACKED_RESOURCE_VERSIONS) (r : RbacRef) :
    entry (init h) r = (live h r).bind (decode r) := by
  have hempty : regOf RbacInner.new r = ⟨none, none⟩ := by cases r <;> rfl
  have hlru : LruOk (h.map (fun c => c.ref.key)).toFinset RbacInner.new.floors := by
    constructor <;> simp [RbacInner.new]
  have hmem : ∀ c ∈ liveObjects h, c ∈ h := by
    intro c hc
    obtain ⟨r', -, hr'⟩ := mem_filterMap.mp hc
    obtain ⟨v, hv, rfl⟩ := map_eq_some_iff.mp hr'
    exact live_mem hv
  have hrun := run_regOf hcard.le (fun c hc =>
    ⟨mem_toFinset.mpr (mem_map.mpr ⟨c, hmem c hc, rfl⟩), hh.versioned c (hmem c hc)⟩) hlru r
  have hentry : entry (init h) r =
      (run Reg.step ⟨none, none⟩ ((liveObjects h).filterMap (opOf r))).value := by
    rw [← hempty, ← hrun]
    rfl
  rw [hentry, liveObjects_ops]
  cases hl : live h r with
  | none => rfl
  | some v =>
    obtain ⟨rv, hrv⟩ := isSome_iff_exists.mp (hh.versioned _ (live_mem hl) v rfl)
    cases hd : decode r v with
    | none => simp [opOf, hd]
    | some c => simp [opOf, hd, hrv, Reg.step]

theorem run_tidy (cs : List Change) : Tidy (run notify RbacInner.new cs) := by
  refine run_invariant Tidy ?_ cs ?_
  · intro inner c h
    cases c with
    | put r v => exact applyObject_tidy h r v
    | delete r => exact removeObject_tidy h r
  · constructor <;> simp [RbacInner.new]

/-- The index agrees with the store once every call has run exactly if, for each object, a removal follows the
newest readable value when and only when that is not the live one. -/
theorem index_converges_iff (h ns : List Change) (hh : History h) (hp : ns.Perm h)
    (hcard : (h.map (fun c => c.ref.key)).toFinset.card < MAX_TRACKED_RESOURCE_VERSIONS) :
    ((∀ r, entry (run notify RbacInner.new ns) r = entry (init h) r) ↔ ∀ r, Settled h ns r) ∧
    ((∀ r, entry (run notify RbacInner.new ns) r = entry (init h) r) →
      ∀ req, isAllowed (run notify RbacInner.new ns) req = isAllowed (init h) req) := by
  constructor
  · apply forall_congr'
    intro r
    rw [entry_init hh hcard, entry_run_iff hh hp hcard]
  · intro he req
    exact isAllowed_of_entry (run_tidy ns) (run_tidy _) he req

def segmentA : Segment := ⟨"a", by decide, by decide⟩

def roleA : Change :=
  .put (.clusterRole segmentA) (.obj [("metadata", .obj [("resourceVersion", .str "4")]),
    ("rules", .arr [.obj [("apiGroups", .arr [.str ""]), ("resources", .arr [.str "pods"]),
      ("verbs", .arr [.str "get"])]])])

def bindA (rv : String) : Change :=
  .put (.clusterRoleBinding segmentA) (.obj [("metadata", .obj [("resourceVersion", .str rv)]),
    ("roleRef", .obj [("apiGroup", .str RBAC_GROUP), ("kind", .str "ClusterRole"), ("name", .str "a")]),
    ("subjects", .arr [.obj [("kind", .str "User"), ("name", .str "alice")]])])

def unbindA : Change := .delete (.clusterRoleBinding segmentA)

theorem late_apply_resurrects :
    History [roleA, bindA "5", unbindA] ∧
    [roleA, unbindA, bindA "5"].Perm [roleA, bindA "5", unbindA] ∧
    ([roleA, bindA "5", unbindA].map (fun c => c.ref.key)).toFinset.card <
      MAX_TRACKED_RESOURCE_VERSIONS ∧
    isAllowed (run notify RbacInner.new [roleA, unbindA, bindA "5"])
      ⟨"alice", [], "get", "", "pods", "", none, none, none⟩ = true ∧
    isAllowed (init [roleA, bindA "5", unbindA])
      ⟨"alice", [], "get", "", "pods", "", none, none, none⟩ = false := by
  refine ⟨⟨?_, by decide⟩, by decide, by decide, by decide, by decide⟩
  simp only [forall_mem_cons, not_mem_nil, false_imp_iff, implies_true, and_true]
  refine ⟨?_, ?_, ?_⟩ <;> rintro value ⟨⟩ <;> decide

theorem index_converges_bindA :
    entry (run notify RbacInner.new [unbindA, bindA "9", bindA "5"]) =
      entry (init [bindA "5", unbindA, bindA "9"]) := by
  funext r
  revert r
  refine (index_converges_iff [bindA "5", unbindA, bindA "9"] [unbindA, bindA "9", bindA "5"]
    ⟨?_, by decide⟩ (by decide) (by decide)).1.mpr ?_
  · simp only [forall_mem_cons, not_mem_nil, false_imp_iff, implies_true, and_true]
    refine ⟨?_, ?_, ?_⟩ <;> rintro value ⟨⟩ <;> decide
  · intro r value hn
    by_cases hr : r = .clusterRoleBinding segmentA
    · subst hr
      cases hn
      decide
    · have hnone : newest [bindA "5", unbindA, bindA "9"] r = none := by
        simp [newest, readable?, bindA, unbindA, Ne.symm hr]
      rw [hnone] at hn
      cases hn

end U7s.Rbac
