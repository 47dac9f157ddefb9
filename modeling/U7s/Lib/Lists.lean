import Mathlib

namespace Lists

open List

variable {α β ε : Type*}

theorem mem_of_lookup [BEq α] [LawfulBEq α] {l : List (α × β)} (h : l.lookup a = some b) : (a, b) ∈ l := by
  obtain ⟨l₁, l₂, rfl, -⟩ := lookup_eq_some_iff.mp h
  simp

theorem orderedInsert_eq_append {r : α → α → Prop} [DecidableRel r] (h : ∀ b ∈ l, ¬r a b) :
    l.orderedInsert r a = l ++ [a] := by
  induction l with
  | nil => rfl
  | cons b l ih =>
    rw [orderedInsert, if_neg (h b mem_cons_self), ih (fun c hc => h c (mem_cons_of_mem b hc))]
    rfl

section MapM

variable {α β ε : Type} {f : α → Except ε β} {as : List α} {bs : List β} (h : as.mapM f = .ok bs)
include h

theorem forall₂_of_mapM : Forall₂ (fun a b => f a = .ok b) as bs := by
  induction as generalizing bs with
  | nil =>
    cases h
    exact .nil
  | cons a as ih =>
    rw [mapM_cons] at h
    cases ha : f a with
    | error e =>
      rw [ha] at h
      cases h
    | ok b =>
      cases has : as.mapM f with
      | error e =>
        rw [ha, has] at h
        cases h
      | ok bs' =>
        rw [ha, has] at h
        cases h
        exact .cons ha (ih has)

theorem mem_of_mapM (hb : b ∈ bs) : ∃ a ∈ as, f a = .ok b := by
  have hall := forall₂_of_mapM h
  clear h
  induction hall with
  | nil => cases hb
  | cons ha _ ih =>
    obtain rfl | hb := mem_cons.mp hb
    · exact ⟨_, mem_cons_self, ha⟩
    · obtain ⟨a, ha, hf⟩ := ih hb
      exact ⟨a, mem_cons_of_mem _ ha, hf⟩

theorem all_mapM {p : β → Bool} {q : α → Bool} (hpq : ∀ a ∈ as, ∀ b, f a = .ok b → p b = q a) :
    bs.all p = as.all q := by
  have hall := forall₂_of_mapM h
  clear h
  induction hall with
  | nil => rfl
  | cons ha _ ih => rw [all_cons, all_cons, hpq _ mem_cons_self _ ha, ih (fun a ha => hpq a (mem_cons_of_mem _ ha))]

end MapM

end Lists
