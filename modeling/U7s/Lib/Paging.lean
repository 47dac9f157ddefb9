import Mathlib

namespace Paging

open List

variable {κ ρ : Type} [LinearOrder κ] (key : ρ → κ)

def after (cursor : Option κ) (rows : List ρ) : List ρ := rows.filter (fun r => cursor.all (fun c => c < key r))

def cut (limit : Option ℕ) (rows : List ρ) : List ρ × Option κ :=
  match limit with
  | none => (rows, none)
  | some l => if l < rows.length then (rows.take l, (rows.take l).getLast?.map key) else (rows, none)

def follow {σ : Type} (page : σ → Option κ → Option (List ρ × Option κ)) : Option κ → List σ → Option (List (List ρ))
  | _, [] => none
  | cursor, s :: states =>
    match page s cursor with
    | none => none
    | some (items, none) => some [items]
    | some (items, some c) => (follow page (some c) states).map (items :: ·)

section Cursors

variable {key}

theorem mem_after : r ∈ after key cursor rows ↔ r ∈ rows ∧ ∀ c ∈ cursor, c < key r := by
  simp [after, Option.all_eq_true]

theorem after_none (rows : List ρ) : after key none rows = rows := by
  simp [after]

theorem after_pairwise (h : rows.Pairwise (fun a b => key a < key b)) (cursor : Option κ) :
    (after key cursor rows).Pairwise (fun a b => key a < key b) := h.filter _

theorem after_after (h : ∀ c ∈ cursor, c < d) (rows : List ρ) :
    after key (some d) (after key cursor rows) = after key (some d) rows := by
  unfold after
  rw [filter_filter]
  apply filter_congr
  intro r _
  rw [Bool.and_eq_left_iff_imp]
  intro hr
  rw [Option.all_eq_true]
  intro c hc
  exact decide_eq_true ((h c hc).trans (of_decide_eq_true hr))

theorem le_getLast {l : List ρ} (h : l.Pairwise (fun a b => key a < key b)) (hr : l.getLast? = some r)
    (hx : x ∈ l) : key x ≤ key r := by
  obtain ⟨init, rfl⟩ := getLast?_eq_some_iff.mp hr
  obtain hx | hx := mem_append.mp hx
  · exact ((pairwise_append.mp h).2.2 x hx r mem_cons_self).le
  · exact (congrArg key (mem_singleton.mp hx)).le

theorem after_getLast_take (h : rows.Pairwise (fun a b => key a < key b))
    (hr : ((after key cursor rows).take n).getLast? = some r) :
    after key (some (key r)) rows = (after key cursor rows).drop n := by
  have hsorted := after_pairwise h cursor
  have hmem : r ∈ after key cursor rows := mem_of_mem_take (mem_of_getLast? hr)
  rw [← after_after (mem_after.mp hmem).2]
  conv_lhs => rw [← take_append_drop n (after key cursor rows)]
  rw [← take_append_drop n (after key cursor rows), pairwise_append] at hsorted
  obtain ⟨htake, -, hcross⟩ := hsorted
  rw [after, filter_append, filter_eq_nil_iff.mpr, filter_eq_self.mpr, nil_append]
  · intro x hx
    exact decide_eq_true (hcross r (mem_of_getLast? hr) x hx)
  · intro x hx hlt
    exact (le_getLast htake hr hx).not_gt (of_decide_eq_true hlt)

end Cursors

section Pages

variable {key} {limit : Option ℕ} {rows items : List ρ} {c : κ}

omit [LinearOrder κ] in
theorem cut_none (h : cut key limit rows = (items, none)) (hlimit : limit ≠ some 0) : items = rows := by
  cases limit with
  | none => exact (congrArg Prod.fst h).symm
  | some l =>
    simp only [cut] at h
    split_ifs at h with hlt
    · obtain ⟨rfl, hlast⟩ := Prod.mk.inj h
      -- a page that is cut short ends in a row
      have hl : l ≠ 0 := fun hl => hlimit (hl ▸ rfl)
      have hnil : rows.take l = [] := getLast?_eq_none_iff.mp (Option.map_eq_none_iff.mp hlast)
      have hlen := congrArg length hnil
      rw [length_take, length_nil] at hlen
      omega
    · exact (congrArg Prod.fst h).symm

omit [LinearOrder κ] in
theorem cut_some (h : cut key limit rows = (items, some c)) :
    ∃ l, limit = some l ∧ items = rows.take l ∧ ∃ r, items.getLast? = some r ∧ key r = c := by
  cases limit with
  | none => cases h
  | some l =>
    simp only [cut] at h
    split_ifs at h with hlt
    · obtain ⟨rfl, hlast⟩ := Prod.mk.inj h
      exact ⟨l, rfl, rfl, Option.map_eq_some_iff.mp hlast⟩
    · cases h

omit [LinearOrder κ] in
theorem mem_of_mem_cut (h : r ∈ (cut key limit rows).1) : r ∈ rows := by
  cases limit with
  | none => exact h
  | some l =>
    simp only [cut] at h
    split_ifs at h
    · exact mem_of_mem_take h
    · exact h

omit [LinearOrder κ] in
theorem cut_fst (l : ℕ) (rows : List ρ) : (cut key (some l) rows).1 = rows.take l := by
  simp only [cut]
  split_ifs with hlt
  · rfl
  · exact (take_of_length_le (not_lt.mp hlt)).symm

theorem mem_take_iff (hrows : rows.Pairwise (fun a b => key a < key b)) (hr : r ∈ rows) :
    r ∈ rows.take l ↔ rows.countP (fun x => key x < key r) < l := by
  induction rows generalizing l with
  | nil => cases hr
  | cons x rows ih =>
    obtain ⟨hx, hrows⟩ := pairwise_cons.mp hrows
    obtain rfl | hr := mem_cons.mp hr
    · have hnone : rows.countP (fun x => key x < key r) = 0 :=
        countP_eq_zero.mpr (fun y hy => by simpa using (hx y hy).le)
      cases l <;> simp [hnone]
    · have hne : r ≠ x := fun h => (hx r hr).ne (congrArg key h.symm)
      cases l with
      | zero => simp
      | succ l => simp [hne, hx r hr, ih hrows hr]

/-- A row is on the page if fewer than the limit come before it. -/
theorem mem_cut_iff (hrows : rows.Pairwise (fun a b => key a < key b)) (hr : r ∈ rows) :
    r ∈ (cut key limit rows).1 ↔ ∀ l ∈ limit, rows.countP (fun x => key x < key r) < l := by
  cases limit with
  | none => simp [cut, hr]
  | some l => simp [cut_fst, mem_take_iff hrows hr]

omit [LinearOrder κ] in
theorem cut_take (l : ℕ) (rows : List ρ) : cut key (some l) (rows.take (l + 1)) = cut key (some l) rows := by
  have htake : (rows.take (l + 1)).take l = rows.take l := by rw [take_take, min_eq_left (Nat.le_succ l)]
  simp only [cut, htake, length_take]
  by_cases hlt : l < rows.length
  · rw [if_pos (by omega), if_pos hlt]
  · rw [if_neg (by omega), if_neg hlt, take_of_length_le (by omega)]

omit [LinearOrder κ] in
theorem cut_filter_take (h : rows.length ≤ m ∨ l < ((rows.take m).filter keep).length) :
    cut key (some l) ((rows.take m).filter keep) = cut key (some l) (rows.filter keep) := by
  obtain h | h := h
  · rw [take_of_length_le h]
  · have hsplit : rows.filter keep = (rows.take m).filter keep ++ (rows.drop m).filter keep := by
      rw [← filter_append, take_append_drop]
    have hlt : l < (rows.filter keep).length := by
      rw [hsplit, length_append]
      omega
    have htake : (rows.filter keep).take l = ((rows.take m).filter keep).take l := by
      rw [hsplit, take_append_of_le_length h.le]
    simp only [cut]
    rw [if_pos h, if_pos hlt, htake]

theorem cut_after (hrows : rows.Pairwise (fun a b => key a < key b))
    (h : cut key limit (after key cursor rows) = (items, some c)) :
    after key cursor rows = items ++ after key (some c) rows ∧ ∃ r, items.getLast? = some r ∧ key r = c := by
  obtain ⟨l, -, rfl, r, hr, rfl⟩ := cut_some h
  constructor
  · rw [after_getLast_take hrows hr, take_append_drop]
  · exact ⟨r, hr, rfl⟩

end Pages

section Walks

variable {σ : Type} (page : σ → Option κ → Option (List ρ × Option κ)) (table : σ → List ρ) (limit : Option ℕ)
  (good : Option κ → Prop)

structure Reads (s : σ) : Prop where
  page_eq : ∀ cursor, good cursor → page s cursor = some (cut key limit (after key cursor (table s)))
  ascending : (table s).Pairwise (fun a b => key a < key b)
  good_key : ∀ r ∈ table s, good (some (key r))

variable {key page table limit good}

theorem follow_cons (h : Reads key page table limit good s) (hlimit : limit ≠ some 0) (hcursor : good cursor)
    (states : List σ) :
    follow page cursor (s :: states) = some [after key cursor (table s)] ∨
      ∃ items r, items.getLast? = some r ∧ good (some (key r)) ∧
        after key cursor (table s) = items ++ after key (some (key r)) (table s) ∧
        follow page cursor (s :: states) = (follow page (some (key r)) states).map (items :: ·) := by
  rcases hcut : cut key limit (after key cursor (table s)) with ⟨items, _ | c⟩
  · left
    rw [follow, h.page_eq cursor hcursor, hcut, cut_none hcut hlimit]
  · right
    obtain ⟨hsplit, r, hr, rfl⟩ := cut_after h.ascending hcut
    have hmem : r ∈ after key cursor (table s) := hsplit ▸ mem_append_left _ (mem_of_getLast? hr)
    refine ⟨items, r, hr, h.good_key r (mem_after.mp hmem).1, hsplit, ?_⟩
    rw [follow, h.page_eq cursor hcursor, hcut]

theorem follow_replicate (h : Reads key page table limit good s) (hlimit : limit ≠ some 0)
    (hcursor : good cursor) (hn : (after key cursor (table s)).length < n) :
    ∃ pages, follow page cursor (replicate n s) = some pages ∧ pages.flatten = after key cursor (table s) := by
  induction n generalizing cursor with
  | zero => omega
  | succ n ih =>
    rw [replicate_succ]
    obtain hlast | ⟨items, r, hr, hgood, hsplit, hnext⟩ := follow_cons h hlimit hcursor (replicate n s)
    · exact ⟨_, hlast, by simp⟩
    · have hlen := congrArg length hsplit
      rw [length_append] at hlen
      have hpos := length_pos_of_mem (mem_of_getLast? hr)
      obtain ⟨pages, hpages, hflat⟩ := ih hgood (by omega)
      refine ⟨items :: pages, ?_, ?_⟩
      · rw [hnext, hpages, Option.map_some]
      · rw [flatten_cons, hflat, hsplit]

theorem follow_pairwise (h : ∀ s ∈ states, Reads key page table limit good s)
    (hlimit : limit ≠ some 0) (hcursor : good cursor) (hpages : follow page cursor states = some pages) :
    pages.flatten.Pairwise (fun a b => key a < key b) ∧ ∀ r ∈ pages.flatten, ∀ c ∈ cursor, c < key r := by
  induction states generalizing cursor pages with
  | nil => cases hpages
  | cons s states ih =>
    have hs := h s mem_cons_self
    have hsorted := after_pairwise hs.ascending cursor
    obtain hlast | ⟨items, r, hr, hgood, hsplit, hnext⟩ := follow_cons hs hlimit hcursor states
    · rw [hlast] at hpages
      cases hpages
      rw [flatten_cons, flatten_nil, append_nil]
      exact ⟨hsorted, fun r hr => (mem_after.mp hr).2⟩
    · rw [hnext, Option.map_eq_some_iff] at hpages
      obtain ⟨rest, hrest, rfl⟩ := hpages
      obtain ⟨hasc, hpast⟩ := ih (fun s hs => h s (mem_cons_of_mem _ hs)) hgood hrest
      have hmem : ∀ x ∈ items, ∀ c ∈ cursor, c < key x :=
        fun x hx => (mem_after.mp (hsplit ▸ mem_append_left _ hx)).2
      rw [hsplit] at hsorted
      have hitems := (pairwise_append.mp hsorted).1
      constructor
      · apply pairwise_append.mpr
        refine ⟨hitems, hasc, ?_⟩
        intro x hx y hy
        exact (le_getLast hitems hr hx).trans_lt (hpast y hy _ rfl)
      · intro x hx c hc
        obtain hx | hx := mem_append.mp hx
        · exact hmem x hx c hc
        · exact (hmem r (mem_of_getLast? hr) c hc).trans (hpast x hx _ rfl)

theorem exists_mem_follow (h : ∀ s ∈ states, Reads key page table limit good s) (hlimit : limit ≠ some 0)
    (hcursor : good cursor) (hpages : follow page cursor states = some pages) (hk : ∀ c ∈ cursor, c < k)
    (hstays : ∀ s ∈ states, ∃ r ∈ table s, key r = k) : ∃ r ∈ pages.flatten, key r = k := by
  induction states generalizing cursor pages with
  | nil => cases hpages
  | cons s states ih =>
    obtain ⟨x, hx, rfl⟩ := hstays s mem_cons_self
    have hpast : x ∈ after key cursor (table s) := mem_after.mpr ⟨hx, hk⟩
    obtain hlast | ⟨items, r, hr, hgood, hsplit, hnext⟩ := follow_cons (h s mem_cons_self) hlimit hcursor states
    · rw [hlast] at hpages
      cases hpages
      exact ⟨x, by simpa using hpast, rfl⟩
    · rw [hnext, Option.map_eq_some_iff] at hpages
      obtain ⟨rest, hrest, rfl⟩ := hpages
      rw [hsplit] at hpast
      obtain hpast | hpast := mem_append.mp hpast
      · exact ⟨x, mem_append_left _ hpast, rfl⟩
      · obtain ⟨y, hy, hyk⟩ := ih (fun s hs => h s (mem_cons_of_mem _ hs)) hgood hrest (mem_after.mp hpast).2
          (fun s hs => hstays s (mem_cons_of_mem _ hs))
        exact ⟨y, mem_append_right _ hy, hyk⟩

theorem count_follow (h : ∀ s ∈ states, Reads key page table limit good s) (hlimit : limit ≠ some 0)
    (hgood : good none) (hpages : follow page none states = some pages)
    (hstays : ∀ s ∈ states, ∃ r ∈ table s, key r = k) : (pages.flatten.map key).count k = 1 := by
  have hasc := (follow_pairwise h hlimit hgood hpages).1
  have hnodup : (pages.flatten.map key).Nodup := pairwise_map.mpr (hasc.imp ne_of_lt)
  apply count_eq_one_of_mem hnodup
  exact mem_map.mpr (exists_mem_follow h hlimit hgood hpages (by simp) hstays)

end Walks

end Paging
