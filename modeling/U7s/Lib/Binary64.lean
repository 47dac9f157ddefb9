import Mathlib

/-! The double nearest to a rational number, where a tie goes to the even significand. -/

namespace Binary64

/-- A finite double; `none` is an infinity or not a number. -/
abbrev F64 := Option ℚ

def roundEven (x : ℚ) : ℤ :=
  if x - ⌊x⌋ < 1 / 2 ∨ x - ⌊x⌋ = 1 / 2 ∧ ⌊x⌋ % 2 = 0 then ⌊x⌋ else ⌊x⌋ + 1

def spacing (x : ℚ) : ℚ := 2 ^ max (-1074) (Int.log 2 |x| - 52)

def magnitude (x : ℚ) : ℚ := roundEven (|x| / spacing x) * spacing x

def nearest (x : ℚ) : F64 :=
  if magnitude x < 2 ^ 1024 then some (if x < 0 then -magnitude x else magnitude x) else none

def mul (a b : F64) : F64 := do nearest ((← a) * (← b))

variable {x y : ℚ} {k : ℕ}

theorem le_roundEven {m : ℤ} (h : m ≤ x) : m ≤ roundEven x := by
  have hm : m ≤ ⌊x⌋ := Int.le_floor.mpr h
  unfold roundEven
  split_ifs <;> omega

theorem lt_roundEven {m : ℤ} (h : m + 1 / 2 < x) : m < roundEven x := by
  have hm : m ≤ ⌊x⌋ := Int.le_floor.mpr (by linarith)
  unfold roundEven
  split_ifs with hdown
  · refine hm.lt_of_ne (fun he => ?_)
    subst he
    rcases hdown with hd | ⟨hd, -⟩ <;> linarith
  · omega

theorem roundEven_of_le {m : ℤ} (heven : m % 2 = 0) (hlow : m ≤ x) (hhigh : x ≤ m + 1 / 2) : roundEven x = m := by
  have hfloor : ⌊x⌋ = m := Int.floor_eq_iff.mpr ⟨hlow, by linarith⟩
  rw [roundEven, hfloor, if_pos]
  rcases hhigh.lt_or_eq with h | h
  · exact .inl (by linarith)
  · exact .inr ⟨by linarith, heven⟩

theorem spacing_eq (hlow : 2 ^ k ≤ |x|) : spacing x = 2 ^ (Int.log 2 |x| - 52) := by
  have hpos : 0 < |x| := lt_of_lt_of_le (by positivity) hlow
  have hlog : (k : ℤ) ≤ Int.log 2 |x| :=
    (Int.zpow_le_iff_le_log (by norm_num) hpos).mp (by rw [zpow_natCast]; exact_mod_cast hlow)
  rw [spacing, max_eq_right (by omega)]

theorem zpow_eq (e : ℤ) : (2 : ℚ) ^ e = (2 ^ 52 : ℤ) * 2 ^ (e - 52) := by
  rw [zpow_sub₀ (by norm_num)]
  ring

theorem pow_le_magnitude (hlow : 2 ^ k ≤ |x|) : 2 ^ k ≤ magnitude x := by
  have hpos : 0 < |x| := lt_of_lt_of_le (by positivity) hlow
  have hlog : (2 : ℚ) ^ (k : ℤ) ≤ 2 ^ Int.log 2 |x| := by
    refine zpow_le_zpow_right₀ (by norm_num) ((Int.zpow_le_iff_le_log (by norm_num) hpos).mp ?_)
    exact_mod_cast hlow
  have hself : (2 : ℚ) ^ Int.log 2 |x| ≤ |x| := by exact_mod_cast Int.zpow_log_le_self (by norm_num) hpos
  have hsig : (2 ^ 52 : ℤ) ≤ roundEven (|x| / spacing x) := by
    apply le_roundEven
    rwa [spacing_eq hlow, le_div_iff₀ (by positivity), ← zpow_eq]
  rw [zpow_natCast, zpow_eq] at hlog
  rw [spacing_eq hlow] at hsig
  rw [magnitude, spacing_eq hlow]
  exact hlog.trans (mul_le_mul_of_nonneg_right (by exact_mod_cast hsig) (by positivity))

theorem log_eq (hlow : 2 ^ k ≤ |x|) (hhigh : |x| < 2 ^ (k + 1)) : Int.log 2 |x| = k := by
  have hpos : 0 < |x| := lt_of_lt_of_le (by positivity) hlow
  apply le_antisymm
  · refine Int.lt_add_one_iff.mp ((Int.lt_zpow_iff_log_lt (by norm_num) hpos).mp ?_)
    exact_mod_cast hhigh
  · refine (Int.zpow_le_iff_le_log (by norm_num) hpos).mp ?_
    exact_mod_cast hlow

theorem magnitude_of_le (hlow : 2 ^ k ≤ |x|) (hhigh : |x| ≤ 2 ^ k + 2 ^ (k - 53 : ℤ)) : magnitude x = 2 ^ k := by
  have hsmall : (2 : ℚ) ^ (k - 53 : ℤ) < 2 ^ k := by
    rw [← zpow_natCast]
    exact zpow_lt_zpow_right₀ (by norm_num) (by omega)
  have hlog := log_eq hlow (by rw [pow_succ]; linarith)
  have hhalf : (2 : ℚ) ^ (k - 53 : ℤ) = 1 / 2 * 2 ^ (k - 52 : ℤ) := by
    rw [show (k - 52 : ℤ) = k - 53 + 1 by ring, zpow_add_one₀ (by norm_num)]
    ring
  have hk := zpow_eq k
  rw [zpow_natCast] at hk
  have hround : roundEven (|x| / 2 ^ (k - 52 : ℤ)) = 2 ^ 52 := by
    refine roundEven_of_le (by norm_num) ?_ ?_
    · rwa [le_div_iff₀ (by positivity), ← hk]
    · rwa [div_le_iff₀ (by positivity), add_mul, ← hk, ← hhalf]
  rw [magnitude, spacing_eq hlow, hlog, hround, hk]

theorem lt_magnitude (hlow : 2 ^ k + 2 ^ (k - 53 : ℤ) < |x|) : 2 ^ k + 2 ^ (k - 53 : ℤ) < magnitude x := by
  have hhalf : (2 : ℚ) ^ (k - 52 : ℤ) = 2 * 2 ^ (k - 53 : ℤ) := by
    rw [show (k - 52 : ℤ) = k - 53 + 1 by ring, zpow_add_one₀ (by norm_num), mul_comm]
  have hpos : (0 : ℚ) < 2 ^ (k - 53 : ℤ) := by positivity
  have hpow : (2 : ℚ) ^ k ≤ |x| := by linarith
  have hk := zpow_eq k
  rw [zpow_natCast] at hk
  by_cases hhigh : |x| < 2 ^ (k + 1)
  · have hround : (2 ^ 52 : ℤ) < roundEven (|x| / 2 ^ (k - 52 : ℤ)) := by
      apply lt_roundEven
      rw [lt_div_iff₀ (by positivity), add_mul, ← hk]
      linarith
    have hround' : ((2 ^ 52 : ℤ) : ℚ) + 1 ≤ roundEven (|x| / 2 ^ (k - 52 : ℤ)) := by exact_mod_cast hround
    rw [magnitude, spacing_eq hpow, log_eq hpow hhigh]
    refine lt_of_lt_of_le ?_ (mul_le_mul_of_nonneg_right hround' (by positivity))
    linarith
  · have hnext := pow_le_magnitude (not_lt.mp hhigh)
    have hsmall : (2 : ℚ) ^ (k - 53 : ℤ) < 2 ^ k := by
      rw [← zpow_natCast]
      exact zpow_lt_zpow_right₀ (by norm_num) (by omega)
    rw [pow_succ] at hnext
    linarith

theorem nearest_of_nonneg (h : nearest x = some y) (hx : 0 ≤ x) : y = magnitude x := by
  unfold nearest at h
  split_ifs at h with hfin hneg
  · exact absurd hx (not_le.mpr hneg)
  · exact (Option.some.inj h).symm

theorem nearest_of_neg (h : nearest x = some y) (hx : x < 0) : y = -magnitude x := by
  unfold nearest at h
  split_ifs at h
  exact (Option.some.inj h).symm

end Binary64
