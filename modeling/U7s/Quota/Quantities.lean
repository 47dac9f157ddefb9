import U7s.Lib.Binary64

/-! `parse_quantity_milli` of the quota controller and of the scheduler, whose copy reads as zero what does not
parse. -/

namespace U7s.Quota.Quantities

open Binary64

inductive Panic where
  | overflow
  deriving DecidableEq

def fitsI64 (n : ℤ) : Bool := -2 ^ 63 ≤ n ∧ n < 2 ^ 63

def checked (n : ℤ) : Option ℤ := if fitsI64 n then some n else none

def unchecked (overflowChecks : Bool) (n : ℤ) : Except Panic ℤ :=
  if fitsI64 n then .ok n else if overflowChecks then .error .overflow else .ok (n.bmod (2 ^ 64))

def readDigits (ds : List Char) : Option ℤ :=
  if ds ≠ [] ∧ ds.all Char.isDigit then some (Nat.ofDigitChars 10 ds 0 : ℕ) else none

def readInt : List Char → Option ℤ
  | '-' :: ds => (readDigits ds).map Neg.neg
  | '+' :: ds => readDigits ds
  | ds => readDigits ds

/-- `str::parse::<f64>`: a whole number is rounded, and all other texts are read by `other`. -/
def parseF64 (other : List Char → Option F64) (s : List Char) : Option F64 :=
  ((readInt s).map (fun n => nearest n)).or (other s)

def roundI64 (x : ℚ) : ℤ := max (-2 ^ 63) (min (2 ^ 63 - 1) (if x < 0 then -⌊-x + 1 / 2⌋ else ⌊x + 1 / 2⌋))

def parseNumberMilli (other : List Char → Option F64) (s : List Char) (mult : ℤ) : Option ℤ :=
  match (readInt s).filter fitsI64 with
  | some n => checked (n * mult)
  | none => do
    let scaled ← mul (← parseF64 other s) (nearest mult)
    -- `i64::MAX as f64` is 2 ^ 63.
    if scaled < -2 ^ 63 ∨ 2 ^ 63 ≤ scaled then none else some (roundI64 scaled)

def binarySuffixes : List (String × ℤ) :=
  [("Ki", 1024), ("Mi", 1024 ^ 2), ("Gi", 1024 ^ 3), ("Ti", 1024 ^ 4), ("Pi", 1024 ^ 5), ("Ei", 1024 ^ 6)]

def decimalSuffixes : List (String × ℤ) :=
  [("k", 10 ^ 3), ("M", 10 ^ 6), ("G", 10 ^ 9), ("T", 10 ^ 12), ("P", 10 ^ 15), ("E", 10 ^ 18)]

def stripSuffix (suf : String) (s : List Char) : Option (List Char) :=
  if suf.toList.isSuffixOf s then some (s.take (s.length - suf.toList.length)) else none

section Copies

variable {α : Type} (report : Option ℤ → α) (overflowChecks : Bool) (other : List Char → Option F64)

def parseQuantity (s : List Char) : Except Panic α :=
  if s = [] then .ok (report none)
  else match stripSuffix "m" s with
    | some rest => .ok (report (parseNumberMilli other rest 1))
    | none =>
      match (binarySuffixes ++ decimalSuffixes).findSome? (fun u => (stripSuffix u.1 s).map (fun rest => (rest, u.2))) with
      | some (rest, mult) =>
        (unchecked overflowChecks (mult * 1000)).map (fun m => report (parseNumberMilli other rest m))
      | none => .ok (report (parseNumberMilli other s 1000))

end Copies

def quotaParseQuantityMilli : Bool → (List Char → Option F64) → List Char → Except Panic (Option ℤ) :=
  parseQuantity id

def schedulerParseQuantityMilli : Bool → (List Char → Option F64) → List Char → Except Panic ℤ :=
  parseQuantity (fun v => v.getD 0)

def units : List (String × ℤ) :=
  [("", 1000), ("m", 1), ("k", 10 ^ 6), ("M", 10 ^ 9), ("G", 10 ^ 12), ("T", 10 ^ 15), ("P", 10 ^ 18), ("E", 10 ^ 21),
    ("Ki", 1024 * 1000), ("Mi", 1024 ^ 2 * 1000), ("Gi", 1024 ^ 3 * 1000), ("Ti", 1024 ^ 4 * 1000),
    ("Pi", 1024 ^ 5 * 1000), ("Ei", 1024 ^ 6 * 1000)]

variable {other : List Char → Option F64} {s : List Char} {n m : ℤ} {u : String × ℤ}

theorem readDigits_last (h : readDigits s = some n) : ∃ ds d, s = ds ++ [d] ∧ d.isDigit := by
  unfold readDigits at h
  split_ifs at h with hs
  refine ⟨s.dropLast, s.getLast hs.1, (List.dropLast_append_getLast hs.1).symm, ?_⟩
  exact List.all_eq_true.mp hs.2 _ (List.getLast_mem hs.1)

theorem readInt_last (h : readInt s = some n) : ∃ ds d, s = ds ++ [d] ∧ d.isDigit := by
  unfold readInt at h
  split at h
  · obtain ⟨v, hv, -⟩ := Option.map_eq_some_iff.mp h
    obtain ⟨ds, d, rfl, hd⟩ := readDigits_last hv
    exact ⟨'-' :: ds, d, rfl, hd⟩
  · obtain ⟨ds, d, rfl, hd⟩ := readDigits_last h
    exact ⟨'+' :: ds, d, rfl, hd⟩
  · exact readDigits_last h

theorem parseQuantity_unit {α : Type} (report : Option ℤ → α) (checks : Bool) (hs : readInt s = some n)
    (hu : u ∈ units) : parseQuantity report checks other (s ++ u.1.toList) =
      (unchecked checks u.2).map (fun m => report (parseNumberMilli other s m)) := by
  obtain ⟨ds, d, rfl, hd⟩ := readInt_last hs
  have hplain : ∀ suf : String, (suf.toList.getLast?.any (fun c => !c.isDigit)) →
      stripSuffix suf (ds ++ [d]) = none := by
    intro suf hsuf
    refine if_neg (fun h => ?_)
    obtain ⟨t, ht⟩ := List.isSuffixOf_iff_suffix.mp h
    have hlast := congrArg List.getLast? ht
    cases hc : suf.toList.getLast? with
    | none => simp [hc] at hsuf
    | some c =>
      rw [List.getLast?_append] at hlast
      simp_all
  have htake : ∀ t, (ds ++ d :: t).take (ds.length + 1) = ds ++ [d] := by
    intro t
    simp [List.take_append]
  simp only [units, List.mem_cons, List.not_mem_nil, or_false] at hu
  rcases hu with rfl | rfl | rfl | rfl | rfl | rfl | rfl | rfl | rfl | rfl | rfl | rfl | rfl | rfl
  · have hm := hplain "m" (by decide)
    have hnone : (binarySuffixes ++ decimalSuffixes).findSome?
        (fun u => (stripSuffix u.1 (ds ++ [d])).map (fun rest => (rest, u.2))) = none := by
      refine List.findSome?_eq_none_iff.mpr (fun u hu => ?_)
      rw [hplain u.1 (by revert u; decide)]
      rfl
    simp [parseQuantity, hm, hnone, unchecked, fitsI64, Except.map]
  all_goals simp [parseQuantity, stripSuffix, binarySuffixes, decimalSuffixes, List.isSuffixOf, htake,
    unchecked, fitsI64, Except.map]

theorem parseNumberMilli_of_fits (hs : readInt s = some n) (hn : fitsI64 n) :
    parseNumberMilli other s m = checked (n * m) := by
  simp [parseNumberMilli, hs, Option.filter, hn]

theorem parseNumberMilli_of_long (hs : readInt s = some n) (hn : fitsI64 n = false) :
    parseNumberMilli other s m = (mul (nearest n) (nearest m)).bind (fun scaled =>
      if scaled < -2 ^ 63 ∨ 2 ^ 63 ≤ scaled then none else some (roundI64 scaled)) := by
  simp [parseNumberMilli, parseF64, hs, Option.filter, hn]

theorem long_out_of_range (hn : n < -2 ^ 63 ∨ 2 ^ 63 ≤ n) (hm : m = 1 ∧ (n < -2 ^ 63 - 1024 ∨ 2 ^ 63 ≤ n) ∨ 1000 ≤ m)
    (h : mul (nearest n) (nearest m) = some z) : z < -2 ^ 63 ∨ 2 ^ 63 ≤ z := by
  obtain ⟨y, hy, h⟩ := Option.bind_eq_some_iff.mp h
  obtain ⟨c, hc, h⟩ := Option.bind_eq_some_iff.mp h
  have hm' : (1 : ℚ) ≤ m := by
    have : (1 : ℤ) ≤ m := by omega
    exact_mod_cast this
  have hcm := nearest_of_nonneg hc (zero_le_one.trans hm')
  have hc1 : 2 ^ 0 ≤ magnitude m := pow_le_magnitude (by rw [abs_of_pos] <;> linarith)
  rcases hn with hneg | hpos
  · left
    have hn' : (n : ℚ) < -2 ^ 63 := by exact_mod_cast hneg
    have habs : |(n : ℚ)| = -n := abs_of_neg (by linarith)
    have hyn := nearest_of_neg hy (by linarith)
    have hy63 : 2 ^ 63 ≤ magnitude n := pow_le_magnitude (by rw [habs]; linarith)
    have hyc : y * c < 0 := mul_neg_of_neg_of_pos (by linarith) (by linarith)
    rw [nearest_of_neg h hyc]
    have habs' : |y * c| = -y * c := by rw [abs_of_neg hyc, neg_mul]
    rcases hm with ⟨rfl, hlow⟩ | hm
    · have hlow' : (n : ℚ) < -2 ^ 63 - 1024 := by
        have : n < -2 ^ 63 - 1024 := by omega
        exact_mod_cast this
      have hyl := lt_magnitude (k := 63) (x := n) (by rw [habs]; norm_num; linarith)
      have hzl := lt_magnitude (k := 63) (x := y * c) (by rw [habs']; nlinarith)
      norm_num at hzl ⊢
      linarith
    · have hc9 : 2 ^ 9 ≤ magnitude m := by
        refine pow_le_magnitude (le_trans ?_ (le_abs_self _))
        have : (2 ^ 9 : ℤ) ≤ m := by omega
        exact_mod_cast this
      have hz : 2 ^ 64 ≤ magnitude (y * c) := pow_le_magnitude (by rw [habs']; nlinarith)
      linarith
  · right
    have hn' : (2 : ℚ) ^ 63 ≤ n := by exact_mod_cast hpos
    have hyn := nearest_of_nonneg hy (by linarith)
    have hy63 : 2 ^ 63 ≤ magnitude n := pow_le_magnitude (hn'.trans (le_abs_self _))
    have hyc : 2 ^ 63 ≤ y * c := by nlinarith
    rw [nearest_of_nonneg h (by linarith)]
    exact pow_le_magnitude (hyc.trans (le_abs_self _))

theorem nearest_low (hlow : -2 ^ 63 - 1024 ≤ n) (hn : n ≤ -2 ^ 63) : nearest n = some (-2 ^ 63) := by
  have hn' : (n : ℚ) ≤ -2 ^ 63 := by exact_mod_cast hn
  have hlow' : (-2 ^ 63 - 1024 : ℚ) ≤ n := by exact_mod_cast hlow
  have habs : |(n : ℚ)| = -n := abs_of_neg (by linarith)
  have hmag : magnitude n = 2 ^ 63 := magnitude_of_le (by rw [habs]; linarith) (by rw [habs]; norm_num; linarith)
  rw [nearest, hmag, if_pos (pow_lt_pow_right₀ (by norm_num) (by norm_num)), if_pos (by linarith)]

theorem nearest_one : nearest (1 : ℤ) = some 1 := by
  have hmag : magnitude 1 = 2 ^ 0 := magnitude_of_le (by norm_num) (by norm_num)
  rw [nearest, Int.cast_one, hmag, if_pos (pow_lt_pow_right₀ (by norm_num) (by norm_num)), if_neg (by norm_num), pow_zero]

theorem parseNumberMilli_iff (other : List Char → Option F64) (hs : readInt s = some n) (hm : m = 1 ∨ 1000 ≤ m) :
    parseNumberMilli other s m = checked (n * m) ↔ ¬(m = 1 ∧ -2 ^ 63 - 1024 ≤ n ∧ n < -2 ^ 63) := by
  by_cases hn : fitsI64 n
  · have hfits := hn
    simp only [fitsI64, decide_eq_true_eq] at hfits
    simp only [parseNumberMilli_of_fits hs hn, true_iff]
    omega
  · rw [Bool.not_eq_true] at hn
    have hlong : n < -2 ^ 63 ∨ 2 ^ 63 ≤ n := by
      simp only [fitsI64, decide_eq_false_iff_not] at hn
      omega
    have hnone : checked (n * m) = none := by
      refine if_neg (fun h => ?_)
      simp only [fitsI64, decide_eq_true_eq] at h
      have hm1 : 1 ≤ m := by omega
      rcases hlong with h' | h' <;> nlinarith
    rw [parseNumberMilli_of_long hs hn, hnone]
    constructor
    · rintro h ⟨rfl, hlow, hhigh⟩
      have hz : nearest (-2 ^ 63 * 1) = some (-2 ^ 63) := by
        have := nearest_low (n := -2 ^ 63) (by norm_num) le_rfl
        rw [← this]
        norm_num
      rw [nearest_low hlow hhigh.le, nearest_one] at h
      simp only [mul, Option.bind_eq_bind, Option.bind_some, hz] at h
      cases h
    · intro hout
      refine Option.bind_eq_none_iff.mpr (fun z hz => if_pos (long_out_of_range hlong ?_ hz))
      omega

theorem units_scale (hu : u ∈ units) :
    (u.1 = "E" ∨ u.1 = "Ei") ∧ fitsI64 u.2 = false ∨
      (u.1 ≠ "E" ∧ u.1 ≠ "Ei") ∧ fitsI64 u.2 ∧ (u.2 = 1 ∨ 1000 ≤ u.2) ∧ (u.2 = 1 ↔ u.1 = "m") := by
  revert u
  decide

/-- Both copies read a whole number exactly, but for the two suffixes whose multiplier overflows and for thousandths
just below the range, which are rounded into it. -/
theorem quantities_exact_iff (other : List Char → Option F64) (hs : readInt s = some n) (hu : u ∈ units) :
    (∀ overflowChecks,
      quotaParseQuantityMilli overflowChecks other (s ++ u.1.toList) =
        .ok (if -2 ^ 63 ≤ n * u.2 ∧ n * u.2 < 2 ^ 63 then some (n * u.2) else none) ∧
      schedulerParseQuantityMilli overflowChecks other (s ++ u.1.toList) =
        .ok (if -2 ^ 63 ≤ n * u.2 ∧ n * u.2 < 2 ^ 63 then n * u.2 else 0)) ↔
    u.1 ≠ "E" ∧ u.1 ≠ "Ei" ∧ ¬(u.1 = "m" ∧ -2 ^ 63 - 1024 ≤ n ∧ n < -2 ^ 63) := by
  have hexact : (if -2 ^ 63 ≤ n * u.2 ∧ n * u.2 < 2 ^ 63 then some (n * u.2) else none) = checked (n * u.2) := by
    simp [checked, fitsI64]
  have hzero : (if -2 ^ 63 ≤ n * u.2 ∧ n * u.2 < 2 ^ 63 then n * u.2 else 0) = (checked (n * u.2)).getD 0 := by
    rw [← hexact]
    split_ifs <;> rfl
  simp only [quotaParseQuantityMilli, schedulerParseQuantityMilli, parseQuantity_unit _ _ hs hu, hexact, hzero]
  obtain ⟨hE, hover⟩ | ⟨hE, hfits, hscale, hmilli⟩ := units_scale hu
  · constructor
    · intro h
      have hpanic := (h true).1
      simp [unchecked, hover, Except.map] at hpanic
    · rintro ⟨h1, h2, -⟩
      exact (hE.elim h1 h2).elim
  · simp only [unchecked, hfits, if_true, Except.map, Except.ok.injEq, forall_const]
    rw [← hmilli, ← parseNumberMilli_iff other hs hscale]
    constructor
    · exact fun h => ⟨hE.1, hE.2, h.1⟩
    · rintro ⟨-, -, h⟩
      exact ⟨h, by rw [h]⟩

theorem quantities_exact_252Mi :
    readInt "252".toList = some 252 ∧
      quotaParseQuantityMilli true (fun _ => none) "252Mi".toList = .ok (some (252 * 1024 ^ 2 * 1000)) ∧
      schedulerParseQuantityMilli true (fun _ => none) "252Mi".toList = .ok (252 * 1024 ^ 2 * 1000) := by
  have hs : readInt "252".toList = some 252 := by decide
  have hread := (quantities_exact_iff (fun _ => none) hs (u := ("Mi", 1024 ^ 2 * 1000)) (by decide)).mpr
    ⟨by decide, by decide, by decide⟩ true
  exact ⟨hs, hread⟩

theorem quantities_inexact :
    quotaParseQuantityMilli true (fun _ => none) "1E".toList = .error .overflow ∧
      quotaParseQuantityMilli false (fun _ => none) "1E".toList = .ok (some 3875820019684212736) ∧
      schedulerParseQuantityMilli false (fun _ => none) "1Ei".toList = .ok (-2 ^ 63) ∧
      quotaParseQuantityMilli false (fun _ => none) "-9223372036854775809m".toList = .ok (some (-2 ^ 63)) := by
  decide +kernel

end U7s.Quota.Quantities
