import U7s.Json

namespace U7s.Json

open List

def Sorted (fs : List (String × Json)) : Prop := fs.Pairwise (fun a b => a.1 < b.1)

mutual

def Ordered : Json → Prop
  | .arr xs => OrderedItems xs
  | .obj fs => Sorted fs ∧ OrderedFields fs
  | _ => True

def OrderedItems : List Json → Prop
  | [] => True
  | x :: xs => Ordered x ∧ OrderedItems xs

def OrderedFields : List (String × Json) → Prop
  | [] => True
  | (_, x) :: fs => Ordered x ∧ OrderedFields fs

end

theorem lookup_insert : lookup l (insert k v fs) = if l = k then some v else lookup l fs := by
  split_ifs with h
  · rw [h, lookup_insert_self]
  · exact lookup_insert_ne h v fs

theorem lookup_erase : lookup l (erase k fs) = if l = k then none else lookup l fs := by
  split_ifs with h
  · rw [h, lookup_erase_self]
  · exact lookup_erase_ne h fs

theorem lookup_eq_none_of_lt (h : ∀ f ∈ fs, k < f.1) : lookup k fs = none := by
  cases hl : lookup k fs with
  | none => rfl
  | some v => exact absurd (h _ (mem_of_lookup hl)) (lt_irrefl k)

theorem Sorted.lookup_of_mem (hs : Sorted fs) (h : (k, v) ∈ fs) : lookup k fs = some v := by
  induction fs with
  | nil => cases h
  | cons f fs ih =>
    obtain ⟨hlt, hs⟩ := pairwise_cons.mp hs
    rw [lookup]
    rcases mem_cons.mp h with he | h
    · cases he
      rw [if_pos rfl]
    · rw [if_neg (hlt _ h).ne]
      exact ih hs h

theorem mem_insert (h : (l, w) ∈ insert k v fs) : (l, w) = (k, v) ∨ (l, w) ∈ fs := by
  induction fs with
  | nil => exact .inl (mem_singleton.mp h)
  | cons f fs ih =>
    rw [insert] at h
    split_ifs at h
    · exact (mem_cons.mp h).imp id (mem_cons_of_mem _)
    · exact mem_cons.mp h
    · rcases mem_cons.mp h with h | h
      · exact .inr (h ▸ mem_cons_self)
      · exact (ih h).imp id (mem_cons_of_mem _)

theorem Sorted.insert (hs : Sorted fs) : Sorted (insert k v fs) := by
  induction fs with
  | nil => exact pairwise_singleton _ _
  | cons f fs ih =>
    obtain ⟨hlt, hs'⟩ := pairwise_cons.mp hs
    rw [Json.insert]
    split_ifs with he hk
    · exact pairwise_cons.mpr ⟨he ▸ hlt, hs'⟩
    · refine pairwise_cons.mpr ⟨fun f hf => ?_, hs⟩
      rcases mem_cons.mp hf with rfl | hf
      · exact hk
      · exact hk.trans (hlt f hf)
    · refine pairwise_cons.mpr ⟨fun f hf => ?_, ih hs'⟩
      rcases mem_insert hf with hf | hf
      · rw [show f = (k, v) from hf]
        exact lt_of_le_of_ne (not_lt.mp hk) he
      · exact hlt f hf

theorem Sorted.erase (hs : Sorted fs) : Sorted (erase k fs) := Pairwise.filter _ hs

theorem Sorted.ext (hf : Sorted fs) (hg : Sorted gs) (h : ∀ k, lookup k fs = lookup k gs) : fs = gs := by
  induction fs generalizing gs with
  | nil =>
    cases gs with
    | nil => rfl
    | cons g gs =>
      have hg := h g.1
      simp [lookup] at hg
  | cons f fs ih =>
    obtain ⟨k, v⟩ := f
    obtain ⟨hflt, hf'⟩ := pairwise_cons.mp hf
    cases gs with
    | nil =>
      have hk := h k
      simp [lookup] at hk
    | cons g gs =>
      obtain ⟨l, w⟩ := g
      obtain ⟨hglt, hg'⟩ := pairwise_cons.mp hg
      have hfirst : (k, v) = (l, w) := by
        have hk : (k, v) ∈ (l, w) :: gs := mem_of_lookup ((h k).symm.trans (hf.lookup_of_mem mem_cons_self))
        have hl : (l, w) ∈ (k, v) :: fs := mem_of_lookup ((h l).trans (hg.lookup_of_mem mem_cons_self))
        rcases mem_cons.mp hk with he | hk
        · exact he
        · rcases mem_cons.mp hl with he | hl
          · exact he.symm
          · exact absurd (hglt _ hk) (hflt _ hl).asymm
      cases hfirst
      congr 1
      apply ih hf' hg'
      intro k'
      have hk' := h k'
      rw [lookup, lookup] at hk'
      split_ifs at hk' with he
      · rw [lookup_eq_none_of_lt (fun f hf => he ▸ hflt f hf), lookup_eq_none_of_lt (fun g hg => he ▸ hglt g hg)]
      · exact hk'

theorem orderedItems_iff : OrderedItems items ↔ ∀ x ∈ items, x.Ordered := by
  induction items with
  | nil => simp [OrderedItems]
  | cons x items ih => simp [OrderedItems, ih]

theorem OrderedFields.of_lookup (h : OrderedFields fs) (hl : lookup k fs = some v) : Ordered v := by
  induction fs with
  | nil => cases hl
  | cons f fs ih =>
    rw [lookup] at hl
    split_ifs at hl
    · cases hl
      exact h.1
    · exact ih h.2 hl

theorem OrderedFields.getD_lookup (h : OrderedFields fs) (k : String) : ((lookup k fs).getD (.obj [])).Ordered := by
  cases hk : lookup k fs with
  | none => exact ⟨Pairwise.nil, trivial⟩
  | some v => exact h.of_lookup hk

def isObject : Json → Bool
  | .obj _ => true
  | _ => false

theorem depth_lt_of_lookup (h : lookup k fs = some v) : depth v < depth (.obj fs) :=
  Nat.lt_succ_of_le (depth_of_lookup h)

def at? (j : Json) : List String → Option Json
  | [] => some j
  | k :: ks => (j.get? k).bind (fun v => v.at? ks)

end U7s.Json
