import Mathlib

/-! Effects committed at one place and delivered to another later. Delivered in the order of their commits, key by
key, they make the places agree. -/

namespace Outbox

open List

variable {ι κ ε ν : Type} [DecidableEq κ]

structure Entry (κ ε : Type) where
  key : κ
  effect : ε
  rev : ℕ
deriving DecidableEq

def owedOn (eff : ι → Option (Entry κ ε)) (P : List ι) (k : κ) : List ε :=
  P.filterMap (fun i => ((eff i).filter (fun e => e.key = k)).map Entry.effect)

/-- `P` holds those who owe a delivery in the order of their commits; all of it brings each view to what was
committed. -/
structure Settles (apply : ν → ε → ν) (eff : ι → Option (Entry κ ε)) (view target : κ → ν) (now : ℕ)
    (P : List ι) : Prop where
  mem : ∀ i, (eff i).isSome → i ∈ P
  sorted : P.Pairwise (fun i j => ∀ a ∈ eff i, ∀ b ∈ eff j, a.rev < b.rev)
  bounded : ∀ i, ∀ a ∈ eff i, a.rev ≤ now
  exact : ∀ k, (owedOn eff P k).foldl apply (view k) = target k

variable {apply : ν → ε → ν} {eff eff' : ι → Option (Entry κ ε)} {view view' target target' : κ → ν}
  {now now' : ℕ} {P Q : List ι} {i : ι} {k : κ} {e : Entry κ ε}

theorem owedOn_append : owedOn eff (P ++ Q) k = owedOn eff P k ++ owedOn eff Q k := filterMap_append

theorem owedOn_congr (h : ∀ i ∈ P, eff' i = eff i) : owedOn eff' P k = owedOn eff P k := by
  refine filterMap_congr (fun i hi => ?_)
  rw [h i hi]

theorem owedOn_singleton (h : eff i = some e) : owedOn eff [i] k = if e.key = k then [e.effect] else [] := by
  by_cases hk : e.key = k <;> simp [owedOn, h, hk]

section

variable (h : Settles apply eff view target now P)
include h

theorem Settles.done (hall : ∀ i, eff i = none) : view = target := by
  funext k
  have hk := h.exact k
  have hnil : owedOn eff P k = [] := by simp [owedOn, hall]
  rwa [hnil] at hk

theorem Settles.commit [DecidableEq ι] (hi : eff i = none) (hi' : eff' i = some e)
    (heff : ∀ j ≠ i, eff' j = eff j) (hnow : now < e.rev) (hself : target' e.key = apply (target e.key) e.effect)
    (hother : ∀ k ≠ e.key, target' k = target k) : ∃ P, Settles apply eff' view target' e.rev P := by
  -- A place of `i` in the order that is left from earlier owes nothing.
  have hold : ∀ k, owedOn eff' (P.filter (· ≠ i)) k = owedOn eff P k := by
    intro k
    rw [owedOn_congr (fun j hj => heff j (by simpa using (mem_filter.mp hj).2)), owedOn,
      filterMap_filter]
    refine filterMap_congr (fun j _ => ?_)
    by_cases hj : j = i <;> simp [hj, hi]
  refine ⟨P.filter (· ≠ i) ++ [i], fun j hj => ?_, ?_, fun j a ha => ?_, fun k => ?_⟩
  · by_cases hji : j = i
    · simp [hji]
    · rw [heff j hji] at hj
      simp [hji, h.mem j hj]
  · refine pairwise_append.mpr ⟨?_, pairwise_singleton _ _, ?_⟩
    · refine (h.sorted.filter _).imp_of_mem (fun {a b} ha hb hab x hx y hy => ?_)
      rw [heff a (by simpa using (mem_filter.mp ha).2)] at hx
      rw [heff b (by simpa using (mem_filter.mp hb).2)] at hy
      exact hab x hx y hy
    · intro j hj j' hj' a ha b hb
      obtain rfl := mem_singleton.mp hj'
      rw [heff j (by simpa using (mem_filter.mp hj).2)] at ha
      obtain rfl : e = b := Option.some.inj (hi'.symm.trans hb)
      exact (h.bounded j a ha).trans_lt hnow
  · by_cases hji : j = i
    · subst hji
      obtain rfl : e = a := Option.some.inj (hi'.symm.trans ha)
      exact le_rfl
    · rw [heff j hji] at ha
      exact (h.bounded j a ha).trans hnow.le
  · rw [owedOn_append, hold, foldl_append, h.exact k, owedOn_singleton hi']
    by_cases hk : e.key = k
    · subst hk
      simpa using hself.symm
    · simpa [hk] using (hother k (Ne.symm hk)).symm

theorem Settles.deliver (hi : eff i = some e) (hi' : eff' i = none)
    (heff : ∀ j ≠ i, eff' j = eff j) (hfirst : ∀ j ≠ i, ∀ a ∈ eff j, a.key = e.key → e.rev < a.rev)
    (hself : view' e.key = apply (view e.key) e.effect) (hother : ∀ k ≠ e.key, view' k = view k) :
    ∃ P, Settles apply eff' view' target now P := by
  obtain ⟨P₁, P₂, rfl, hn₁⟩ := eq_append_cons_of_mem (h.mem i (by rw [hi]; rfl))
  obtain ⟨hs₁, hs₂, hs₁₂⟩ := pairwise_append.mp h.sorted
  obtain ⟨hsi, hs₂⟩ := pairwise_cons.mp hs₂
  have hn₂ : i ∉ P₂ := fun hmem => lt_irrefl _ (hsi i hmem e hi e hi)
  have hne : ∀ j ∈ P₁ ++ P₂, j ≠ i := by
    rintro j hj rfl
    rcases mem_append.mp hj with hj | hj
    · exact hn₁ hj
    · exact hn₂ hj
  refine ⟨P₁ ++ P₂, fun j hj => ?_, ?_, fun j a ha => ?_, fun k => ?_⟩
  · have hji : j ≠ i := by
      rintro rfl
      simp [hi'] at hj
    rw [heff j hji] at hj
    simpa [hji] using h.mem j hj
  · have hold : (P₁ ++ P₂).Pairwise (fun i j => ∀ a ∈ eff i, ∀ b ∈ eff j, a.rev < b.rev) :=
      pairwise_append.mpr ⟨hs₁, hs₂, fun a ha b hb => hs₁₂ a ha b (mem_cons_of_mem _ hb)⟩
    refine hold.imp_of_mem (fun {a b} ha hb hab x hx y hy => ?_)
    rw [heff a (hne a ha)] at hx
    rw [heff b (hne b hb)] at hy
    exact hab x hx y hy
  · by_cases hji : j = i
    · subst hji
      simp [hi'] at ha
    · rw [heff j hji] at ha
      exact h.bounded j a ha
  · have hk := h.exact k
    rw [← singleton_append, owedOn_append, owedOn_append, owedOn_singleton hi] at hk
    rw [owedOn_congr (fun j hj => heff j (hne j hj)), owedOn_append]
    by_cases hek : e.key = k
    · subst hek
      -- Nobody before `i` owes anything on the key.
      have hnil : owedOn eff P₁ e.key = [] := by
        refine filterMap_eq_nil_iff.mpr (fun j hj => ?_)
        simp only [Option.map_eq_none_iff, Option.filter_eq_none_iff, decide_eq_true_eq]
        intro a ha hak
        have h₁ := hfirst j (hne j (mem_append_left _ hj)) a ha hak
        have h₂ := hs₁₂ j hj i mem_cons_self a ha e hi
        omega
      rw [hnil] at hk ⊢
      simpa [hself] using hk
    · rw [hother k (Ne.symm hek)]
      simpa [hek] using hk

end

end Outbox
