import Mathlib

/-! Sums over the entries of a finite map, and maps that count. A key without an entry counts as zero. -/

namespace Tables

open List

variable {κ α β : Type} [DecidableEq κ]

theorem lookup_insert_cases {m : AList (fun _ : κ => α)} (h : (m.insert k a).lookup k' = some a') :
    k' = k ∨ m.lookup k' = some a' := by
  by_cases he : k' = k
  · exact .inl he
  · exact .inr (by rwa [AList.lookup_insert_ne he] at h)

theorem lookup_erase_some {m : AList (fun _ : κ => α)} (h : (m.erase k).lookup k' = some a) :
    m.lookup k' = some a := by
  by_cases he : k' = k
  · subst he
    simp at h
  · rwa [AList.lookup_erase_ne he] at h

def weight (m : AList (fun _ : κ => α)) (g : κ → α → ℤ) : ℤ := (m.entries.map (fun e => g e.1 e.2)).sum

def weightAt (m : AList (fun _ : κ => α)) (g : κ → α → ℤ) (k : κ) : ℤ := (m.lookup k).elim 0 (g k)

variable {m : AList (fun _ : κ => α)} {g : κ → α → ℤ} {m' : AList (fun _ : κ => β)} {g' : κ → β → ℤ}

theorem weight_eq_sum (U : Finset κ) (hU : ∀ k ∈ m, k ∈ U) : weight m g = ∑ k ∈ U, weightAt m g k := by
  have hkeys : weight m g = (m.keys.map (weightAt m g)).sum := by
    unfold weight AList.keys keys
    rw [map_map]
    refine congrArg sum (map_congr_left fun e he => ?_)
    have hlook : m.lookup e.1 = some e.2 := AList.mem_lookup_iff.mpr he
    simp [weightAt, hlook]
  have hsub : m.keys.toFinset ⊆ U := by
    intro k hk
    exact hU k (AList.mem_keys.mpr (mem_toFinset.mp hk))
  rw [hkeys, ← sum_toFinset _ m.keys_nodup]
  refine Finset.sum_subset hsub (fun k _ hk => ?_)
  have hnone : m.lookup k = none := AList.lookup_eq_none.mpr fun hmem =>
    hk (mem_toFinset.mpr (AList.mem_keys.mp hmem))
  simp [weightAt, hnone]

theorem weightAt_le (hx : 0 ≤ x) (h : ∀ a, m.lookup k = some a → g k a ≤ x) : weightAt m g k ≤ x := by
  unfold weightAt
  cases ha : m.lookup k with
  | none => exact hx
  | some a => exact h a ha

theorem weightAt_nonneg (h : ∀ a, m.lookup k = some a → 0 ≤ g k a) : 0 ≤ weightAt m g k := by
  unfold weightAt
  cases ha : m.lookup k with
  | none => exact le_refl 0
  | some a => exact h a ha

theorem weight_le_add (key : κ) (h : ∀ k, weightAt m g k ≤ weightAt m' g' k + if k = key then w else 0) :
    weight m g ≤ weight m' g' + w := by
  have hm : ∀ k ∈ m, k ∈ insert key (m.keys.toFinset ∪ m'.keys.toFinset) := by
    intro k hk
    simp [AList.mem_keys.mp hk]
  have hm' : ∀ k ∈ m', k ∈ insert key (m.keys.toFinset ∪ m'.keys.toFinset) := by
    intro k hk
    simp [AList.mem_keys.mp hk]
  rw [weight_eq_sum _ hm, weight_eq_sum _ hm']
  calc ∑ k ∈ insert key (m.keys.toFinset ∪ m'.keys.toFinset), weightAt m g k
      ≤ ∑ k ∈ insert key (m.keys.toFinset ∪ m'.keys.toFinset),
          (weightAt m' g' k + if k = key then w else 0) := sum_le_sum (fun k _ => h k)
    _ = _ := by
      rw [Finset.sum_add_distrib, Finset.sum_ite_eq', if_pos (Finset.mem_insert_self _ _)]

theorem weight_le (h : ∀ k, weightAt m g k ≤ weightAt m' g' k) : weight m g ≤ weight m' g' := by
  by_cases hkey : Nonempty κ
  · obtain ⟨key⟩ := hkey
    have hadd := weight_le_add key (w := 0) (fun k => by simpa using h k)
    simpa using hadd
  · have hm : ∀ k ∈ m, k ∈ (∅ : Finset κ) := fun k _ => absurd ⟨k⟩ hkey
    have hm' : ∀ k ∈ m', k ∈ (∅ : Finset κ) := fun k _ => absurd ⟨k⟩ hkey
    rw [weight_eq_sum _ hm, weight_eq_sum _ hm']
    exact le_refl _

theorem weight_mono (h : ∀ k a, m.lookup k = some a → g k a ≤ g₀ k a) : weight m g ≤ weight m g₀ := by
  refine weight_le (fun k => ?_)
  unfold weightAt
  cases ha : m.lookup k with
  | none => exact le_refl 0
  | some a => exact h k a ha

theorem weight_insert (v : α) (h : m.lookup key = none) : weight (m.insert key v) g = weight m g + g key v := by
  unfold weight
  rw [AList.entries_insert_of_notMem (AList.lookup_eq_none.mp h), map_cons, sum_cons, add_comm]

theorem weight_erase (h : m.lookup key = some v) : weight (m.erase key) g + g key v = weight m g := by
  have hkey : key ∈ m.keys.toFinset :=
    mem_toFinset.mpr (AList.mem_keys.mp (AList.lookup_isSome.mp (by rw [h]; rfl)))
  have hm : ∀ k ∈ m, k ∈ m.keys.toFinset := fun k hk => mem_toFinset.mpr (AList.mem_keys.mp hk)
  have herase : ∀ k ∈ m.erase key, k ∈ m.keys.toFinset := fun k hk => hm k (AList.mem_erase.mp hk).2
  have hat : weightAt m g key = g key v := by simp [weightAt, h]
  have hgone : weightAt (m.erase key) g key = 0 := by simp [weightAt]
  rw [weight_eq_sum _ hm, weight_eq_sum _ herase, ← Finset.add_sum_erase _ _ hkey, ← Finset.add_sum_erase _ _ hkey,
    hat, hgone, zero_add, add_comm]
  refine congrArg _ (Finset.sum_congr rfl fun k hk => ?_)
  simp [weightAt, AList.lookup_erase_ne (Finset.ne_of_mem_erase hk)]

theorem weight_insert_add (m : AList (fun _ : κ => α)) (g : κ → α → ℤ) (key : κ) (v : α) :
    weight (m.insert key v) g + weightAt m g key = weight m g + g key v := by
  cases hlook : m.lookup key with
  | none => simp [weightAt, hlook, weight_insert v hlook]
  | some a =>
    have hcons : weight (m.insert key v) g = g key v + weight (m.erase key) g := by
      simp [weight, AList.insert, AList.erase, kinsert]
    have herase := weight_erase (g := g) hlook
    simp only [weightAt, hlook, Option.elim_some]
    linarith

theorem countP_insert_le (p : κ → Bool) (v : α) (h : key ∈ m ∨ p key = false ∨ m.keys.length < n)
    (hm : m.keys.countP p ≤ n) : (m.insert key v).keys.countP p ≤ n := by
  rw [AList.keys_insert]
  by_cases hmem : key ∈ m
  · rwa [← (perm_cons_erase (AList.mem_keys.mp hmem)).countP_eq]
  · have hle := m.keys.countP_le_length (p := p)
    rw [erase_of_not_mem (fun hk => hmem (AList.mem_keys.mpr hk))]
    rcases h with hin | hout | hroom
    · exact absurd hin hmem
    · rwa [countP_cons_of_neg (by simp [hout])]
    · rw [countP_cons]
      split_ifs <;> omega

section Counting

variable {κ : Type*} [DecidableEq κ]

theorem lookup_insert_eq (m : AList (fun _ : κ => α)) (k k' : κ) (a : α) :
    (m.insert k a).lookup k' = if k' = k then some a else m.lookup k' := by
  by_cases hk : k' = k
  · rw [if_pos hk, hk, AList.lookup_insert]
  · rw [if_neg hk, AList.lookup_insert_ne hk]

theorem lookup_erase_eq (m : AList (fun _ : κ => α)) (k k' : κ) :
    (m.erase k).lookup k' = if k' = k then none else m.lookup k' := by
  by_cases hk : k' = k
  · rw [if_pos hk, hk, AList.lookup_erase]
  · rw [if_neg hk, AList.lookup_erase_ne hk]

def bump (m : AList (fun _ : κ => ℤ)) (k : κ) : AList (fun _ : κ => ℤ) := m.insert k ((m.lookup k).getD 0 + 1)

theorem lookup_bump (m : AList (fun _ : κ => ℤ)) (k k' : κ) :
    (bump m k).lookup k' = if k' = k then some ((m.lookup k).getD 0 + 1) else m.lookup k' :=
  lookup_insert_eq m k k' _

theorem lookup_foldl_bump [BEq κ] [LawfulBEq κ] (ks : List κ) (m : AList (fun _ : κ => ℤ)) (k : κ) :
    (ks.foldl bump m).lookup k =
      if k ∈ ks then some ((m.lookup k).getD 0 + ks.count k) else m.lookup k := by
  induction ks generalizing m with
  | nil => rfl
  | cons x ks ih =>
    rw [foldl_cons, ih, lookup_bump]
    by_cases hk : k = x
    · subst hk
      by_cases hmem : k ∈ ks
      · simp [hmem]
        ring
      · simp [count_eq_zero_of_not_mem hmem]
    · by_cases hmem : k ∈ ks
      · simp [hk, count_cons_of_ne (Ne.symm hk)]
      · simp [hmem, hk]

def seed (m : AList (fun _ : κ => ℤ)) (k : κ) : AList (fun _ : κ => ℤ) := m.insert k ((m.lookup k).getD 0)

theorem lookup_foldl_seed (ks : List κ) (k : κ) : (ks.foldl seed ∅).lookup k = if k ∈ ks then some 0 else none := by
  have hgen : ∀ m : AList (fun _ : κ => ℤ), (ks.foldl seed m).lookup k =
      if k ∈ ks then some ((m.lookup k).getD 0) else m.lookup k := by
    induction ks with
    | nil => exact fun m => rfl
    | cons x ks ih =>
      intro m
      rw [foldl_cons, ih, seed]
      by_cases hk : k = x
      · subst hk
        simp
      · simp [hk]
  simpa using hgen ∅

def bumpBy (m : AList (fun _ : κ => ℤ)) (e : (_ : κ) × ℤ) : AList (fun _ : κ => ℤ) :=
  m.insert e.1 ((m.lookup e.1).getD 0 + e.2)

end Counting

end Tables
