import Mathlib

/-! Runs of a machine given by a total step function. A disabled action leaves the state as it is, so every list of
actions is a run. -/

namespace Runs

variable {σ α : Type*} (step : σ → α → σ)

def run (s : σ) (as : List α) : σ := as.foldl step s

@[simp] theorem run_nil (s : σ) : run step s [] = s := rfl

@[simp] theorem run_cons (s : σ) (a : α) (as : List α) : run step s (a :: as) = run step (step s a) as := rfl

theorem run_append (s : σ) (as bs : List α) :
    run step s (as ++ bs) = run step (run step s as) bs := List.foldl_append

def Along (C : σ → α → Prop) : σ → List α → Prop
  | _, [] => True
  | s, a :: as => C s a ∧ Along C (step s a) as

instance Along.decidable (C : σ → α → Prop) [∀ s a, Decidable (C s a)] :
    ∀ s as, Decidable (Along step C s as)
  | _, [] => isTrue trivial
  | s, a :: as =>
    have := Along.decidable C (step s a) as
    inferInstanceAs (Decidable (C s a ∧ Along step C (step s a) as))

variable {step} {C : σ → α → Prop}

theorem along_append : Along step C s (as ++ bs) ↔ Along step C s as ∧ Along step C (run step s as) bs := by
  induction as generalizing s with
  | nil => simp [Along]
  | cons a as ih => simp [Along, ih, and_assoc]

theorem Along.mono (h : ∀ s a, C s a → D s a) (hC : Along step C s as) : Along step D s as := by
  induction as generalizing s with
  | nil => trivial
  | cons a as ih => exact ⟨h _ _ hC.1, ih hC.2⟩

theorem Along.and (hC : Along step C s as) (hD : Along step D s as) :
    Along step (fun s a => C s a ∧ D s a) s as := by
  induction as generalizing s with
  | nil => trivial
  | cons a as ih => exact ⟨⟨hC.1, hD.1⟩, ih hC.2 hD.2⟩

theorem along_of_forall {P : α → Prop} (h : ∀ a ∈ as, P a) : Along step (fun _ a => P a) s as := by
  induction as generalizing s with
  | nil => trivial
  | cons a as ih =>
    exact ⟨h a List.mem_cons_self, ih (fun b hb => h b (List.mem_cons_of_mem a hb))⟩

theorem Along.invariant (Inv : σ → Prop) (hstep : ∀ s a, Inv s → C s a → Inv (step s a)) (hs : Inv s)
    (hC : Along step C s as) : Inv (run step s as) := by
  induction as generalizing s with
  | nil => exact hs
  | cons a as ih => exact ih (hstep s a hs hC.1) hC.2

theorem Along.with_invariant (Inv : σ → Prop) (hstep : ∀ s a, Inv s → C s a → Inv (step s a)) (hs : Inv s)
    (hC : Along step C s as) : Along step (fun s a => C s a ∧ Inv s) s as := by
  induction as generalizing s with
  | nil => trivial
  | cons a as ih => exact ⟨⟨hC.1, hs⟩, ih (hstep s a hs hC.1) hC.2⟩

theorem run_invariant (Inv : σ → Prop) (hstep : ∀ s a, Inv s → Inv (step s a)) (as : List α) (hs : Inv s) :
    Inv (run step s as) := by
  induction as generalizing s with
  | nil => exact hs
  | cons a as ih => exact ih (hstep s a hs)

theorem along_of_invariant (Inv : σ → Prop) (hstep : ∀ s a, Inv s → Inv (step s a)) (as : List α) (hs : Inv s) :
    Along step (fun s _ => Inv s) s as := by
  induction as generalizing s with
  | nil => trivial
  | cons a as ih => exact ⟨hs, ih (hstep s a hs)⟩

variable (step) in
def total (cost : σ → α → ℕ) : σ → List α → ℕ
  | _, [] => 0
  | s, a :: as => cost s a + total cost (step s a) as

theorem Along.total_le (Left : σ → ℕ → Prop)
    (hstep : ∀ s a n, Left s n → C s a → ∃ m, cost s a + m ≤ n ∧ Left (step s a) m) (hs : Left s n)
    (hC : Along step C s as) : total step cost s as ≤ n := by
  induction as generalizing s n with
  | nil => exact Nat.zero_le n
  | cons a as ih =>
    obtain ⟨m, hm, hleft⟩ := hstep s a n hs hC.1
    have := ih hleft hC.2
    simp only [total]
    omega

end Runs
