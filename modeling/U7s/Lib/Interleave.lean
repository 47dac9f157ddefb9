import Mathlib

namespace Interleave

open List

variable {α : Type*}

section Interleave

variable (takeLeft : α → α → Bool)

def emitUntil (a : α) (rest : List α → List α) : List α → List α
  | [] => a :: rest []
  | b :: bs => if takeLeft a b then a :: rest (b :: bs) else b :: emitUntil a rest bs

def interleave : List α → List α → List α
  | [], bs => bs
  | a :: as, bs => emitUntil takeLeft a (interleave as) bs

@[simp] theorem interleave_nil_left (bs : List α) : interleave takeLeft [] bs = bs := rfl

@[simp] theorem interleave_nil_right (as : List α) : interleave takeLeft as [] = as := by
  induction as with
  | nil => rfl
  | cons a as ih => rw [interleave, emitUntil, ih]

theorem interleave_cons_cons (a b : α) (as bs : List α) : interleave takeLeft (a :: as) (b :: bs) =
    if takeLeft a b then a :: interleave takeLeft as (b :: bs) else b :: interleave takeLeft (a :: as) bs := rfl

variable {takeLeft}

theorem interleave_induction {motive : List α → List α → List α → Prop}
    (left : ∀ as, motive as [] as) (right : ∀ bs, motive [] bs bs)
    (takeL : ∀ a b as bs l, takeLeft a b → motive as (b :: bs) l → motive (a :: as) (b :: bs) (a :: l))
    (takeR : ∀ a b as bs l, takeLeft a b = false → motive (a :: as) bs l → motive (a :: as) (b :: bs) (b :: l)) :
    ∀ as bs, motive as bs (interleave takeLeft as bs) := by
  intro as
  induction as with
  | nil => exact right
  | cons a as iha =>
    intro bs
    induction bs with
    | nil =>
      rw [interleave_nil_right]
      exact left (a :: as)
    | cons b bs ihb =>
      rw [interleave_cons_cons]
      cases h : takeLeft a b with
      | true => exact takeL a b as bs _ h (iha (b :: bs))
      | false => exact takeR a b as bs _ h ihb

theorem interleave_congr (h : ∀ a ∈ as, ∀ b ∈ bs, takeLeft a b = takeLeft' a b) :
    interleave takeLeft as bs = interleave takeLeft' as bs := by
  revert h
  apply interleave_induction (motive := fun as bs l => (∀ a ∈ as, ∀ b ∈ bs, takeLeft a b = takeLeft' a b) →
    l = interleave takeLeft' as bs)
  · intro as _
    rw [interleave_nil_right]
  · intro bs _
    rfl
  · intro a b as bs l hab ih h
    rw [interleave_cons_cons, ← h a mem_cons_self b mem_cons_self, if_pos hab,
      ih (fun x hx => h x (mem_cons_of_mem a hx))]
  · intro a b as bs l hab ih h
    rw [interleave_cons_cons, ← h a mem_cons_self b mem_cons_self, hab, if_neg Bool.false_ne_true,
      ih (fun x hx y hy => h x hx y (mem_cons_of_mem b hy))]

theorem interleave_perm (as bs : List α) : (interleave takeLeft as bs).Perm (as ++ bs) := by
  apply interleave_induction (motive := fun as bs l => l.Perm (as ++ bs))
  · intro as
    rw [append_nil]
  · intro bs
    rfl
  · intro a b as bs l _ h
    exact h.cons a
  · intro a b as bs l _ h
    exact (h.cons b).trans perm_middle.symm

theorem filter_interleave_left (ha : ∀ a ∈ as, p a) (hb : ∀ b ∈ bs, p b = false) :
    (interleave takeLeft as bs).filter p = as := by
  revert ha hb
  apply interleave_induction (motive := fun as bs l => (∀ a ∈ as, p a) → (∀ b ∈ bs, p b = false) →
    l.filter p = as)
  · intro as ha _
    exact filter_eq_self.mpr ha
  · intro bs _ hb
    exact filter_eq_nil_iff.mpr (fun b hb' => by simp [hb b hb'])
  · intro a b as bs l _ h ha hb
    rw [filter_cons_of_pos (ha a mem_cons_self), h (fun x hx => ha x (mem_cons_of_mem a hx)) hb]
  · intro a b as bs l _ h ha hb
    rw [filter_cons_of_neg (by simp [hb b mem_cons_self]),
      h ha (fun x hx => hb x (mem_cons_of_mem b hx))]

theorem filter_interleave_right (ha : ∀ a ∈ as, p a = false) (hb : ∀ b ∈ bs, p b) :
    (interleave takeLeft as bs).filter p = bs := by
  revert ha hb
  apply interleave_induction (motive := fun as bs l => (∀ a ∈ as, p a = false) → (∀ b ∈ bs, p b) →
    l.filter p = bs)
  · intro as ha _
    exact filter_eq_nil_iff.mpr (fun a ha' => by simp [ha a ha'])
  · intro bs _ hb
    exact filter_eq_self.mpr hb
  · intro a b as bs l _ h ha hb
    rw [filter_cons_of_neg (by simp [ha a mem_cons_self]),
      h (fun x hx => ha x (mem_cons_of_mem a hx)) hb]
  · intro a b as bs l _ h ha hb
    rw [filter_cons_of_pos (hb b mem_cons_self), h ha (fun x hx => hb x (mem_cons_of_mem b hx))]

end Interleave

section Sorting

def sortBy (key : α → ℕ) (l : List α) : List α := l.insertionSort (fun a b => key a ≤ key b)

variable {key : α → ℕ} {l : List α}

instance total_key : Std.Total (fun a b : α => key a ≤ key b) := ⟨fun a b => Nat.le_total (key a) (key b)⟩

instance isTrans_key : IsTrans α (fun a b => key a ≤ key b) := ⟨fun _ _ _ => Nat.le_trans⟩

theorem sortBy_perm (key : α → ℕ) (l : List α) : (sortBy key l).Perm l := perm_insertionSort _ l

theorem sortBy_pairwise (key : α → ℕ) (l : List α) : (sortBy key l).Pairwise (fun a b => key a ≤ key b) :=
  pairwise_insertionSort _ l

theorem sortBy_congr (h : ∀ a ∈ l, key a = key' a) : sortBy key l = sortBy key' l := by
  have hinsert : ∀ a (l : List α), (∀ b ∈ a :: l, key b = key' b) →
      l.orderedInsert (fun a b => key a ≤ key b) a = l.orderedInsert (fun a b => key' a ≤ key' b) a := by
    intro a l
    induction l with
    | nil => exact fun _ => rfl
    | cons b l ih =>
      intro h
      rw [orderedInsert_cons, orderedInsert_cons, h a mem_cons_self,
        h b (mem_cons_of_mem a mem_cons_self), ih]
      intro c hc
      apply h
      rcases mem_cons.mp hc with rfl | hc
      · exact mem_cons_self
      · exact mem_cons_of_mem a (mem_cons_of_mem b hc)
  induction l with
  | nil => rfl
  | cons a l ih =>
    change orderedInsert _ a (sortBy key l) = orderedInsert _ a (sortBy key' l)
    rw [← ih (fun b hb => h b (mem_cons_of_mem a hb))]
    apply hinsert
    intro b hb
    apply h
    rcases mem_cons.mp hb with rfl | hb
    · exact mem_cons_self
    · exact mem_cons_of_mem a ((sortBy_perm key l).mem_iff.mp hb)

theorem filter_sortBy_eq_iff (p : α → Bool) : (sortBy key l).filter p = l.filter p ↔
    (l.filter p).Pairwise (fun a b => key a ≤ key b) := by
  constructor
  · intro h
    rw [← h]
    exact (sortBy_pairwise key l).filter p
  · intro h
    have hsub : (l.filter p).Sublist (sortBy key l) := sublist_insertionSort h filter_sublist
    have hfilter : (l.filter p).Sublist ((sortBy key l).filter p) := by
      have hsub' := hsub.filter p
      rwa [filter_filter, show (fun a => p a && p a) = p from funext fun a => Bool.and_self (p a)] at hsub'
    refine (hfilter.eq_of_length ?_).symm
    exact ((sortBy_perm key l).filter p).length_eq.symm

theorem eq_filter_append_filter (h : l.Pairwise (fun a b => p b → p a)) :
    l = l.filter p ++ l.filter (fun a => !p a) := by
  induction l with
  | nil => rfl
  | cons a l ih =>
    obtain ⟨ha, hl⟩ := pairwise_cons.mp h
    cases hp : p a with
    | true =>
      rw [filter_cons_of_pos hp, filter_cons_of_neg (by simp [hp]), cons_append, ← ih hl]
    | false =>
      have hnone : l.filter p = [] := by
        apply filter_eq_nil_iff.mpr
        intro b hb hpb
        rw [ha b hb hpb] at hp
        cases hp
      have hrest := ih hl
      rw [hnone, nil_append] at hrest
      rw [filter_cons_of_neg (by simp [hp]), filter_cons_of_pos (by simp [hp]), hnone, nil_append,
        ← hrest]

end Sorting

end Interleave
