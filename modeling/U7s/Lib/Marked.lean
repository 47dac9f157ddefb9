import Mathlib

/-! Lists from which elements are deleted by marking their positions. -/

namespace Marked

open List

variable {α : Type*}

def kept (l : List α) (marks : List Bool) : List α := ((l.zip marks).filter (fun e => !e.2)).map Prod.fst

def mark (marks : List Bool) (positions : List ℕ) : List Bool := positions.foldl (fun m i => m.set i true) marks

variable {l : List α} {marks : List Bool} {p : α → Bool}

@[simp] theorem kept_nil (marks : List Bool) : kept ([] : List α) marks = [] := rfl

@[simp] theorem kept_cons_true (a : α) (l : List α) (marks : List Bool) : kept (a :: l) (true :: marks) = kept l marks :=
  rfl

@[simp] theorem kept_cons_false (a : α) (l : List α) (marks : List Bool) :
    kept (a :: l) (false :: marks) = a :: kept l marks := rfl

theorem kept_sublist (l : List α) (marks : List Bool) : (kept l marks).Sublist l := by
  induction l generalizing marks with
  | nil => exact Sublist.slnil
  | cons a l ih =>
    cases marks with
    | nil => exact nil_sublist _
    | cons m marks =>
      cases m with
      | true => exact (ih marks).cons a
      | false => exact (ih marks).cons_cons a

theorem kept_unmarked (l : List α) : kept l (l.map (fun _ => false)) = l := by
  induction l with
  | nil => rfl
  | cons a l ih => rw [map_cons, kept_cons_false, ih]

theorem kept_concat (h : l.length = marks.length) (a : α) : kept (l ++ [a]) (marks ++ [false]) = kept l marks ++ [a] := by
  rw [kept, zip_append h, filter_append, map_append]
  rfl

theorem length_mark (marks : List Bool) (positions : List ℕ) : (mark marks positions).length = marks.length := by
  induction positions generalizing marks with
  | nil => rfl
  | cons i positions ih =>
    exact (ih _).trans length_set

theorem mark_cons_succ (m : Bool) (marks : List Bool) (positions : List ℕ) :
    mark (m :: marks) (positions.map (· + 1)) = m :: mark marks positions := by
  induction positions generalizing marks with
  | nil => rfl
  | cons i positions ih => exact ih (marks.set i true)

theorem findIdxs_cons_map (a : α) (l : List α) (p : α → Bool) :
    (a :: l).findIdxs p = if p a then 0 :: (l.findIdxs p).map (· + 1) else (l.findIdxs p).map (· + 1) := by
  rw [findIdxs_cons, findIdxs_start (s := 0 + 1)]

theorem findIdxs_set (h : ∀ a, l[i]? = some a → p b = p a) : (l.set i b).findIdxs p = l.findIdxs p := by
  induction l generalizing i with
  | nil => rfl
  | cons a l ih =>
    cases i with
    | zero => rw [set_cons_zero, findIdxs_cons_map, findIdxs_cons_map, h a rfl]
    | succ i => rw [set_cons_succ, findIdxs_cons_map, findIdxs_cons_map, ih h]

theorem kept_mark_findIdxs (h : l.length = marks.length) :
    kept l (mark marks (l.findIdxs p)) = (kept l marks).filter (fun a => !p a) := by
  induction l generalizing marks with
  | nil => rfl
  | cons a l ih =>
    obtain _ | ⟨m, marks⟩ := marks
    · cases h
    have htail : kept l (mark marks (l.findIdxs p)) = (kept l marks).filter (fun a => !p a) := ih (Nat.succ.inj h)
    rw [findIdxs_cons_map]
    cases hp : p a with
    | true =>
      have hmark : mark (m :: marks) (0 :: (l.findIdxs p).map (· + 1)) = true :: mark marks (l.findIdxs p) :=
        mark_cons_succ true marks (l.findIdxs p)
      rw [if_pos rfl, hmark, kept_cons_true, htail]
      cases m <;> simp [hp]
    | false =>
      rw [if_neg Bool.false_ne_true, mark_cons_succ]
      cases m <;> simp [htail, hp]

theorem find?_succ (m : Bool) (marks : List Bool) (positions : List ℕ) :
    (positions.map (· + 1)).find? (fun i => !((m :: marks).getD i false)) =
      (positions.find? (fun i => !(marks.getD i false))).map (· + 1) := by
  rw [find?_map]
  rfl

theorem findIdx?_kept_of_find? (h : l.length = marks.length)
    (hi : (l.findIdxs p).find? (fun i => !(marks.getD i false)) = some i) :
    ∃ j a, l[i]? = some a ∧ (kept l marks).findIdx? p = some j ∧ (kept l marks)[j]? = some a ∧
      ∀ b, kept (l.set i b) marks = (kept l marks).set j b := by
  induction l generalizing marks i with
  | nil => cases hi
  | cons a l ih =>
    obtain _ | ⟨m, marks⟩ := marks
    · cases h
    by_cases hhead : p a ∧ m = false
    · obtain ⟨hp, rfl⟩ := hhead
      have hfirst : some 0 = some i := by
        rw [← hi, findIdxs_cons, if_pos hp]
        rfl
      cases hfirst
      refine ⟨0, a, rfl, ?_, rfl, fun b => rfl⟩
      rw [kept_cons_false, findIdx?_cons, if_pos hp]
    · have hrest : ((l.findIdxs p).map (· + 1)).find? (fun i => !((m :: marks).getD i false)) = some i := by
        rw [← hi, findIdxs_cons_map]
        split_ifs with hp
        · have hm : m := by
            cases m with
            | true => rfl
            | false => exact absurd ⟨hp, rfl⟩ hhead
          rw [hm]
          rfl
        · rfl
      rw [find?_succ, Option.map_eq_some_iff] at hrest
      obtain ⟨i', hi', rfl⟩ := hrest
      obtain ⟨j, b, hb, hj, hjb, hset⟩ := ih (Nat.succ.inj h) hi'
      cases m with
      | true => exact ⟨j, b, hb, hj, hjb, hset⟩
      | false =>
        have hp : ¬p a := fun hp => hhead ⟨hp, rfl⟩
        refine ⟨j + 1, b, hb, ?_, hjb, fun c => ?_⟩
        · rw [kept_cons_false, findIdx?_cons, if_neg hp, hj]
          rfl
        · exact congrArg (a :: ·) (hset c)

theorem findIdx?_kept_eq_none (h : l.length = marks.length)
    (hnone : (l.findIdxs p).find? (fun i => !(marks.getD i false)) = none) : (kept l marks).findIdx? p = none := by
  induction l generalizing marks with
  | nil => rfl
  | cons a l ih =>
    obtain _ | ⟨m, marks⟩ := marks
    · cases h
    rw [findIdxs_cons_map] at hnone
    have hrest : (l.findIdxs p).find? (fun i => !(marks.getD i false)) = none := by
      rw [← Option.map_eq_none_iff (f := (· + 1)), ← find?_succ m]
      split_ifs at hnone with hp
      · rw [find?_eq_none] at hnone ⊢
        exact fun i hi => hnone i (mem_cons_of_mem 0 hi)
      · exact hnone
    cases m with
    | true => exact ih (Nat.succ.inj h) hrest
    | false =>
      have hp : ¬p a := by
        intro hp
        rw [if_pos hp] at hnone
        cases hnone
      rw [kept_cons_false, findIdx?_cons, if_neg hp, ih (Nat.succ.inj h) hrest]
      rfl

theorem filter_sublist_set (ha : l[j]? = some a) (hp : p a = false) (b : α) : (l.filter p).Sublist (l.set j b) := by
  induction l generalizing j with
  | nil => cases ha
  | cons c l ih =>
    cases j with
    | zero =>
      cases ha
      rw [filter_cons_of_neg (by simp [hp])]
      exact filter_sublist.cons b
    | succ j =>
      rw [filter_cons]
      split_ifs
      · exact (ih ha).cons_cons c
      · exact (ih ha).cons c

end Marked
