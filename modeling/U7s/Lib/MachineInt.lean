import Mathlib

/-! Signed 64-bit sums as a release build computes them: an overflow wraps. -/

namespace MachineInt

def addI64 (a b : ℤ) : ℤ := (a + b).bmod (2 ^ 64)

def subI64 (a b : ℤ) : ℤ := (a - b).bmod (2 ^ 64)

theorem addI64_emod (a b : ℤ) : addI64 a b % 2 ^ 64 = (a + b) % 2 ^ 64 := Int.bmod_emod

theorem subI64_emod (a b : ℤ) : subI64 a b % 2 ^ 64 = (a - b) % 2 ^ 64 := Int.bmod_emod

theorem bmod_of_fits {v : ℤ} (hlow : -2 ^ 63 ≤ v) (hhigh : v < 2 ^ 63) : v.bmod (2 ^ 64) = v :=
  Int.bmod_eq_of_le (by omega) (by omega)

theorem addI64_of_fits {a b : ℤ} (hlow : -2 ^ 63 ≤ a + b) (hhigh : a + b < 2 ^ 63) : addI64 a b = a + b :=
  bmod_of_fits hlow hhigh

theorem addI64_eq {used total want : ℤ} (hmod : used % 2 ^ 64 = total % 2 ^ 64) (hlow : -2 ^ 63 ≤ total + want)
    (hhigh : total + want < 2 ^ 63) : addI64 used want = total + want := by
  have hsum : (used + want) % 2 ^ 64 = (total + want) % 2 ^ 64 := by omega
  have hbmod : (used + want).bmod (2 ^ 64) = (total + want).bmod (2 ^ 64) := by
    rw [← Int.emod_bmod, ← Int.emod_bmod (total + want)]
    exact congrArg (fun x => Int.bmod x (2 ^ 64)) hsum
  rw [addI64, hbmod]
  exact bmod_of_fits hlow hhigh

/-- Only the whole sum has to fit: what overflows on the way wraps back. -/
theorem foldl_addI64 (xs : List ℤ) (a : ℤ) :
    xs.foldl addI64 (a.bmod (2 ^ 64)) = (a + xs.sum).bmod (2 ^ 64) := by
  induction xs generalizing a with
  | nil => simp
  | cons x xs ih => rw [List.foldl_cons, addI64, Int.bmod_add_bmod, ih, List.sum_cons, add_assoc]

end MachineInt
