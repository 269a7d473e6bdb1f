import EntityCache.Proofs.ValueEquality
import EntityCache.Proofs.WholeNumbers
import Mathlib

/-! The number that a finite double stands for. Two of them compare equal exactly when they
stand for one number; one is integral exactly when its number is an integer, and its integer
part is that integer. An integer becomes the double that stands for it, if there is one. -/
namespace EntityCache.Binary64

variable {x y : Binary64}

section Numbers

def size (x : Binary64) : ℚ := x.significand * 2 ^ x.exponent

def toRat (x : Binary64) : ℚ := if x.isNegative then -x.size else x.size

theorem toRat_of_fields {s : Nat} {e : Int} (hsign : x.isNegative = false)
    (hsignificand : x.significand = s) (hexponent : x.exponent = e) : x.toRat = s * 2 ^ e := by
  rw [toRat, size, hsign, hsignificand, hexponent]
  rfl

theorem size_nonneg (x : Binary64) : 0 ≤ x.size :=
  mul_nonneg (Nat.cast_nonneg _) (zpow_pos (by norm_num) _).le

theorem abs_toRat (x : Binary64) : |x.toRat| = x.size := by
  unfold toRat
  split
  · rw [abs_neg, abs_of_nonneg x.size_nonneg]
  · exact abs_of_nonneg x.size_nonneg

theorem roundsTo_size (x : Binary64) : RoundsTo x.magnitude x.size := by
  have hproper := Shortest.proper_of x
  have hpos : (0 : ℚ) < 2 ^ (Shortest.Interval.of x).unit := zpow_pos (by norm_num) _
  have hvalue : x.size = (Shortest.Interval.of x).value * 2 ^ (Shortest.Interval.of x).unit := by
    simp only [Shortest.Interval.of, size, Nat.cast_mul, Nat.cast_ofNat]
    rw [zpow_sub₀ (by norm_num)]
    ring
  rw [← Shortest.contains_of_iff, hvalue]
  unfold Shortest.Interval.Contains
  split
  · exact ⟨mul_le_mul_of_nonneg_right (by exact_mod_cast hproper.low_le) hpos.le,
      mul_le_mul_of_nonneg_right (by exact_mod_cast hproper.lt_high.le) hpos.le⟩
  · rename_i hopen
    exact ⟨mul_lt_mul_of_pos_right (by exact_mod_cast hproper.low_lt (by simpa using hopen)) hpos,
      mul_lt_mul_of_pos_right (by exact_mod_cast hproper.lt_high) hpos⟩

theorem size_eq_iff : x.size = y.size ↔ x.magnitude = y.magnitude := by
  constructor
  · intro h
    exact (roundsTo_size x).unique (h ▸ roundsTo_size y)
  · intro h
    have hfield : x.exponentField = y.exponentField := by rw [exponentField, h, exponentField]
    rw [size, size, significand, significand, exponent, exponent, hfield, h]

theorem size_eq_zero_iff : x.size = 0 ↔ x.isZero := by
  have hzero : zero.size = 0 := by
    have hsignificand : zero.significand = 0 := by decide
    rw [size, hsignificand, Nat.cast_zero, zero_mul]
  have hmagnitude : zero.magnitude = 0 := by decide
  rw [← hzero, size_eq_iff, hmagnitude, isZero, beq_iff_eq]

theorem isNaN_of_isFinite (h : x.isFinite) : x.isNaN = false := by
  simp only [isFinite, decide_eq_true_eq] at h
  simpa [isNaN] using h.le

theorem isInfinite_of_isFinite (h : x.isFinite) : x.isInfinite = false := by
  simp only [isFinite, decide_eq_true_eq] at h
  simpa [isInfinite] using h.ne

/-- The sign of a number other than zero can be told from the number. -/
theorem isNegative_eq_of_toRat (hx : ¬ x.isZero) (h : x.toRat = y.toRat) :
    x.isNegative = y.isNegative := by
  have hsize : x.size = y.size := by rw [← abs_toRat, h, abs_toRat]
  have hpos : 0 < x.size :=
    lt_of_le_of_ne x.size_nonneg fun hzero => hx (size_eq_zero_iff.mp hzero.symm)
  unfold toRat at h
  rw [← hsize] at h
  cases hxs : x.isNegative <;> cases hys : y.isNegative <;>
    simp only [hxs, hys, Bool.false_eq_true, if_true, if_false] at h ⊢ <;> linarith

theorem comparisonBits_eq_iff_toRat (hx : x.isFinite) :
    x.comparisonBits = y.comparisonBits ↔ x.toRat = y.toRat ∧ y.isFinite := by
  rw [comparisonBits_eq_iff]
  constructor
  · rintro (rfl | ⟨hnan, -⟩ | ⟨hzero, hzero'⟩)
    · exact ⟨rfl, hx⟩
    · rw [isNaN_of_isFinite hx] at hnan
      cases hnan
    · have hsize : x.toRat = 0 := by
        rw [← abs_eq_zero, abs_toRat, size_eq_zero_iff.mpr hzero]
      have hsize' : y.toRat = 0 := by
        rw [← abs_eq_zero, abs_toRat, size_eq_zero_iff.mpr hzero']
      refine ⟨hsize.trans hsize'.symm, ?_⟩
      rw [isFinite, beq_iff_eq.mp hzero']
      decide
  · rintro ⟨h, -⟩
    have hsize : x.size = y.size := by rw [← abs_toRat, h, abs_toRat]
    by_cases hzero : x.isZero
    · refine Or.inr (Or.inr ⟨hzero, ?_⟩)
      rw [← size_eq_zero_iff, ← hsize, size_eq_zero_iff.mpr hzero]
    · exact Or.inl (ext_sign_magnitude (isNegative_eq_of_toRat hzero h) (size_eq_iff.mp hsize))

end Numbers

section IntegerParts

theorem ratio_two_pos (x : Binary64) : 0 < x.ratio.2 := Nat.pow_pos (by decide)

theorem size_mul_ratio (x : Binary64) : x.size * x.ratio.2 = x.ratio.1 := by
  rw [size, ratio, Nat.cast_mul, Shortest.cast_twoPow x.exponent]
  ring

theorem size_eq_natCast_iff {n : Nat} : x.size = n ↔ x.ratio.1 = n * x.ratio.2 := by
  have hpos : (x.ratio.2 : ℚ) ≠ 0 := by exact_mod_cast x.ratio_two_pos.ne'
  rw [← mul_left_inj' hpos, size_mul_ratio]
  norm_cast

/-- The integer part is the number, if that is an integer. -/
theorem truncate_of_toRat {z : Int} (h : x.toRat = z) : x.truncate = z := by
  have hsize : x.size = z.natAbs := by
    rw [← abs_toRat, h, Nat.cast_natAbs, Int.cast_abs]
  have hquotient : x.ratio.1 / x.ratio.2 = z.natAbs := by
    rw [size_eq_natCast_iff.mp hsize, Nat.mul_div_cancel _ x.ratio_two_pos]
  have hcast : (x.truncate : ℚ) = z := by
    rw [truncate, hquotient, ← h, toRat, hsize]
    split
    · exact Int.cast_neg _
    · rfl
  exact_mod_cast hcast

theorem isIntegral_iff (hx : x.isFinite) : x.isIntegral ↔ ∃ z : Int, x.toRat = z := by
  rw [isIntegral, hx, Bool.true_and, beq_iff_eq]
  constructor
  · intro h
    have hsize : x.size = (x.ratio.1 / x.ratio.2 : Nat) := by
      rw [size_eq_natCast_iff, Nat.div_mul_cancel (Nat.dvd_of_mod_eq_zero h)]
    refine ⟨x.truncate, ?_⟩
    rw [toRat, hsize, truncate]
    split
    · exact (Int.cast_neg _).symm
    · exact (Int.cast_natCast _).symm
  · rintro ⟨z, h⟩
    have hsize : x.size = z.natAbs := by
      rw [← abs_toRat, h, Nat.cast_natAbs, Int.cast_abs]
    rw [size_eq_natCast_iff.mp hsize, Nat.mul_mod_left]

theorem significand_lt (x : Binary64) : x.significand < 2 * fractionSize := by
  have hrest : x.magnitude % fractionSize < fractionSize := Nat.mod_lt _ (by decide)
  unfold significand
  split <;> omega

theorem isIntegral_of_large (hx : x.isFinite) (h : 2 ^ 52 ≤ |x.toRat|) : x.isIntegral := by
  rw [abs_toRat] at h
  have hexponent : 0 ≤ x.exponent := by
    by_contra hneg
    have hsignificand : (x.significand : ℚ) < 2 ^ 53 := by exact_mod_cast x.significand_lt
    have hscale : (2 : ℚ) ^ x.exponent ≤ 2 ^ (-1 : Int) :=
      zpow_le_zpow_right₀ (by norm_num) (by omega)
    have hsmall : x.size < 2 ^ 52 := by
      calc x.size ≤ x.significand * 2 ^ (-1 : Int) :=
            mul_le_mul_of_nonneg_left hscale (Nat.cast_nonneg _)
        _ < 2 ^ 53 * 2 ^ (-1 : Int) :=
            mul_lt_mul_of_pos_right hsignificand (zpow_pos (by norm_num) _)
        _ = 2 ^ 52 := by norm_num
    exact hsmall.not_ge h
  have hone : x.ratio.2 = 1 := by
    have hzero : (-x.exponent).toNat = 0 := by omega
    change Nat.pow 2 (-x.exponent).toNat = 1
    rw [hzero]
  rw [isIntegral, hx, hone, Nat.mod_one]
  rfl

end IntegerParts

section Integers

variable {n : Nat}

/-- The number with a significand of 53 bits, or the next power of two, and this exponent. -/
theorem toRat_assemble (negative : Bool) {k s : Nat} (hlow : fractionSize ≤ s)
    (hhigh : s ≤ 2 * fractionSize) (hk : k < 2045) :
    (assemble negative (k * fractionSize + s)).isFinite ∧
      (assemble negative (k * fractionSize + s)).toRat =
        (if negative then -1 else 1) * (s * 2 ^ ((k : Int) - 1074)) := by
  have hpos : 0 < fractionSize := by decide
  have hfinite : k * fractionSize + s < infinityMagnitude := by
    have hfields : k * fractionSize ≤ 2044 * fractionSize := Nat.mul_le_mul_right _ (by omega)
    unfold infinityMagnitude
    omega
  obtain ⟨hsign, hmagnitude⟩ :=
    sign_magnitude_assemble negative (hfinite.trans (by decide : infinityMagnitude < signWeight))
  refine ⟨by simpa [isFinite, hmagnitude] using hfinite, ?_⟩
  have hsize : (assemble negative (k * fractionSize + s)).size = s * 2 ^ ((k : Int) - 1074) := by
    rcases hhigh.lt_or_eq with hlt | rfl
    · have hsplit : k * fractionSize + s = fractionSize * (k + 1) + (s - fractionSize) := by
        have hexpand : fractionSize * (k + 1) = k * fractionSize + fractionSize := by ring
        omega
      have hrest : s - fractionSize < fractionSize := by omega
      have hfield : (k * fractionSize + s) / fractionSize = k + 1 := by
        rw [hsplit, Nat.mul_add_div hpos, Nat.div_eq_of_lt hrest, Nat.add_zero]
      have hfraction : (k * fractionSize + s) % fractionSize = s - fractionSize := by
        rw [hsplit, Nat.mul_add_mod, Nat.mod_eq_of_lt hrest]
      have hexponent : (max (k + 1) 1 : Nat) - (1075 : Int) = (k : Int) - 1074 := by omega
      rw [size, significand, exponent, exponentField, hmagnitude, hfield, hfraction,
        if_neg (Nat.succ_ne_zero k), Nat.add_sub_cancel' hlow]
      exact_mod_cast congrArg (fun e : Int => (s : ℚ) * 2 ^ e) hexponent
    · -- the significand has carried into the exponent
      have hsplit : k * fractionSize + 2 * fractionSize = fractionSize * (k + 2) := by ring
      have hfield : (k * fractionSize + 2 * fractionSize) / fractionSize = k + 2 := by
        rw [hsplit, Nat.mul_div_cancel_left _ hpos]
      have hfraction : (k * fractionSize + 2 * fractionSize) % fractionSize = 0 := by
        rw [hsplit, Nat.mul_mod_right]
      have hexponent : (max (k + 2) 1 : Nat) - (1075 : Int) = (k : Int) - 1074 + 1 := by omega
      rw [size, significand, exponent, exponentField, hmagnitude, hfield, hfraction,
        if_neg (Nat.succ_ne_zero _), Nat.add_zero]
      push_cast at hexponent ⊢
      rw [hexponent, zpow_add_one₀ (by norm_num)]
      ring
  rw [toRat, hsign, hsize]
  cases negative <;> simp

def rounded (n : Nat) : ℚ := roundedSignificand n * 2 ^ ((n.log2 : Int) - 52)

theorem rounded_zero : rounded 0 = 0 := by
  have hsignificand : roundedSignificand 0 = 0 := by decide
  rw [rounded, hsignificand, Nat.cast_zero, zero_mul]

theorem toRat_ofInt {i : Int} (hlt : i.natAbs < 2 ^ 64) :
    (ofInt i).isFinite ∧ (ofInt i).toRat = (if i < 0 then -1 else 1) * rounded i.natAbs := by
  by_cases hi : i = 0
  · subst hi
    refine ⟨by decide, ?_⟩
    rw [Int.natAbs_zero, rounded_zero, mul_zero, ← abs_eq_zero, abs_toRat, size_eq_zero_iff]
    decide
  have hn : 0 < i.natAbs := Int.natAbs_pos.mpr hi
  have hlog : i.natAbs.log2 < 64 := (Nat.log2_lt hn.ne').mpr hlt
  obtain ⟨hlow, hhigh⟩ := roundedSignificand_bounds hn
  obtain ⟨hfinite, hvalue⟩ :=
    toRat_assemble (decide (i < 0)) hlow hhigh (by omega : i.natAbs.log2 + 1022 < 2045)
  have hexponent : ((i.natAbs.log2 + 1022 : Nat) : Int) - 1074 = (i.natAbs.log2 : Int) - 52 := by
    omega
  rw [ofInt, nearest_natural _ hn hlt]
  refine ⟨hfinite, hvalue.trans ?_⟩
  simp only [decide_eq_true_eq, hexponent, rounded]

theorem two_zpow_log2_sub (n : Nat) :
    (2 : ℚ) ^ ((n.log2 : Int) - 52) * 2 ^ (52 - n.log2) = 2 ^ (n.log2 - 52) := by
  rw [← zpow_natCast, ← zpow_natCast, ← zpow_add₀ (by norm_num)]
  congr 1
  omega

/-- A natural of at most 53 bits, but for zeros at its end, stays as it is. -/
theorem rounded_of_scaled {s : Nat} (h : n * 2 ^ (52 - n.log2) = s * 2 ^ (n.log2 - 52)) :
    rounded n = n := by
  have hsignificand : roundedSignificand n = s := by
    rw [roundedSignificand, h, divideToEven_mul (Nat.two_pow_pos _)]
  have hcast : (n : ℚ) * 2 ^ (52 - n.log2) = s * 2 ^ (n.log2 - 52) := by exact_mod_cast h
  have hunit : (2 : ℚ) ^ (52 - n.log2) ≠ 0 := by positivity
  rw [rounded, hsignificand, ← mul_left_inj' hunit, mul_assoc, two_zpow_log2_sub, hcast]

theorem exists_rounded_eq (n : Nat) : ∃ m : Nat, rounded n = m := by
  rcases Nat.le_total n.log2 52 with hlog | hlog
  · refine ⟨n, rounded_of_scaled (s := n * 2 ^ (52 - n.log2)) ?_⟩
    rw [Nat.sub_eq_zero_of_le hlog, Nat.pow_zero, Nat.mul_one]
  · refine ⟨roundedSignificand n * 2 ^ (n.log2 - 52), ?_⟩
    have hexponent : (n.log2 : Int) - 52 = (n.log2 - 52 : Nat) := by omega
    rw [rounded, hexponent, zpow_natCast]
    norm_cast

/-- No natural from a power of two on is rounded to less than that. -/
theorem two_pow_le_rounded {k : Nat} (h : 2 ^ k ≤ n) : 2 ^ k ≤ rounded n := by
  have hn : 0 < n := (Nat.two_pow_pos k).trans_le h
  have hlog : k ≤ n.log2 := (Nat.le_log2 hn.ne').mpr h
  have hlow : (2 : ℚ) ^ 52 ≤ roundedSignificand n := by
    exact_mod_cast (roundedSignificand_bounds hn).1
  calc (2 : ℚ) ^ k ≤ 2 ^ n.log2 := pow_le_pow_right₀ (by norm_num) hlog
    _ = 2 ^ 52 * 2 ^ ((n.log2 : Int) - 52) := by
        rw [← zpow_natCast, ← zpow_natCast, ← zpow_add₀ (by norm_num)]
        congr 1
        push_cast
        omega
    _ ≤ rounded n := mul_le_mul_of_nonneg_right hlow (zpow_pos (by norm_num) _).le

theorem fractionSize_le_significand (h : 1 ≤ x.size) : fractionSize ≤ x.significand := by
  by_contra hsmall
  have hfield : x.exponentField = 0 := by
    by_contra hfield
    rw [significand, if_neg hfield] at hsmall
    omega
  have hexponent : x.exponent = -1074 := by
    rw [exponent, hfield]
    rfl
  have hsignificand : (x.significand : ℚ) < 2 ^ 52 := by exact_mod_cast not_le.mp hsmall
  have htiny : x.size < 2 ^ 52 * 2 ^ (-1074 : Int) := by
    rw [size, hexponent]
    exact mul_lt_mul_of_pos_right hsignificand (zpow_pos (by norm_num) _)
  have hone : (2 : ℚ) ^ 52 * 2 ^ (-1074 : Int) ≤ 1 := by
    rw [← zpow_natCast, ← zpow_add₀ (by norm_num)]
    exact zpow_le_one_of_nonpos₀ (by norm_num) (by norm_num)
  linarith

/-- The natural that is the number of a double needs no rounding. -/
theorem rounded_of_size (hn : 0 < n) (h : x.size = n) : rounded n = n := by
  have hlow : (2 : ℚ) ^ 52 ≤ x.significand := by
    have hone : 1 ≤ x.size := by
      rw [h]
      exact_mod_cast hn
    exact_mod_cast fractionSize_le_significand hone
  have hhigh : (x.significand : ℚ) < 2 ^ 53 := by exact_mod_cast x.significand_lt
  have hpos : (0 : ℚ) < 2 ^ x.exponent := zpow_pos (by norm_num) _
  have hbelow : (2 : ℚ) ^ (52 + x.exponent) ≤ n := by
    rw [← h, size, zpow_add₀ (by norm_num)]
    exact mul_le_mul_of_nonneg_right hlow hpos.le
  have habove : (n : ℚ) < 2 ^ (53 + x.exponent) := by
    rw [← h, size, zpow_add₀ (by norm_num)]
    exact mul_lt_mul_of_pos_right hhigh hpos
  have hexponent : 0 < 53 + x.exponent := by
    by_contra hneg
    have hone : (2 : ℚ) ^ (53 + x.exponent) ≤ 1 :=
      zpow_le_one_of_nonpos₀ (by norm_num) (not_lt.mp hneg)
    have hge : (1 : ℚ) ≤ n := by exact_mod_cast hn
    linarith
  have hlog : (n.log2 : Int) = 52 + x.exponent := by
    obtain ⟨k, hk⟩ := Int.eq_ofNat_of_zero_le (by omega : 0 ≤ 52 + x.exponent)
    have hk' : 53 + x.exponent = (k + 1 : Nat) := by omega
    rw [hk, zpow_natCast] at hbelow
    rw [hk', zpow_natCast] at habove
    rw [hk, (Nat.log2_eq_iff hn.ne').mpr ⟨by exact_mod_cast hbelow, by exact_mod_cast habove⟩]
  have hshift : (n.log2 : Int) - 52 = x.exponent := by omega
  refine rounded_of_scaled (s := x.significand) ?_
  have hcast : (n : ℚ) * 2 ^ (52 - n.log2) = x.significand * 2 ^ (n.log2 - 52) := by
    rw [← two_zpow_log2_sub, hshift, ← h, size, mul_assoc]
  exact_mod_cast hcast

variable {i : Int}

theorem toRat_ofInt_of_rounded (hlt : i.natAbs < 2 ^ 64) (h : rounded i.natAbs = i.natAbs) :
    (ofInt i).toRat = i := by
  rw [(toRat_ofInt hlt).2, h, Nat.cast_natAbs, Int.cast_abs]
  split
  · rw [abs_of_neg (by exact_mod_cast ‹i < 0›)]
    ring
  · rw [abs_of_nonneg (by exact_mod_cast not_lt.mp ‹¬ i < 0›), one_mul]

/-- An integer that is the number of a double becomes that number. -/
theorem toRat_ofInt_of_toRat (hlt : i.natAbs < 2 ^ 64) (h : x.toRat = i) :
    (ofInt i).toRat = i := by
  have hsize : x.size = i.natAbs := by rw [← abs_toRat, h, Nat.cast_natAbs, Int.cast_abs]
  apply toRat_ofInt_of_rounded hlt
  rcases Nat.eq_zero_or_pos i.natAbs with hzero | hpos
  · rw [hzero, rounded_zero, Nat.cast_zero]
  · exact rounded_of_size hpos hsize

theorem toRat_ofInt_of_lt (hi : i.natAbs < 2 ^ 53) : (ofInt i).toRat = i := by
  apply toRat_ofInt_of_rounded (by omega)
  rcases Nat.eq_zero_or_pos i.natAbs with hzero | hpos
  · rw [hzero, rounded_zero, Nat.cast_zero]
  · refine rounded_of_scaled (s := wholeSignificand i.natAbs) ?_
    rw [two_pow_log2_sub hpos hi, mul_one, wholeSignificand]

theorem exists_toRat_ofInt (hlt : i.natAbs < 2 ^ 64) : ∃ z : Int, (ofInt i).toRat = z := by
  obtain ⟨m, hm⟩ := exists_rounded_eq i.natAbs
  refine ⟨(if i < 0 then -1 else 1) * m, ?_⟩
  rw [(toRat_ofInt hlt).2, hm]
  push_cast
  rfl

theorem two_pow_le_toRat_ofInt {k : Nat} (hlt : i.natAbs < 2 ^ 64) (h : 2 ^ k ≤ i) :
    2 ^ k ≤ (ofInt i).toRat := by
  have hpos : 0 < (2 : Int) ^ k := by positivity
  have hnat : 2 ^ k ≤ i.natAbs := by
    zify
    exact h.trans (le_abs_self i)
  rw [(toRat_ofInt hlt).2, if_neg (by omega), one_mul]
  exact two_pow_le_rounded hnat

end Integers

end EntityCache.Binary64
