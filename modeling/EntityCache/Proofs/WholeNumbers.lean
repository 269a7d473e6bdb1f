import EntityCache.Proofs.NumberTexts
import Mathlib

/-! Integers as doubles. One of less than 54 bits has a double of its own, and that is written
with the digits of the integer: the spacing of doubles of that size is one at most, so no
shorter digits with zeros behind them read back as it. -/
namespace EntityCache

namespace Binary64

variable {n : Nat}

section Encoding

theorem fractionSize_eq : fractionSize = 2 ^ 52 := rfl

/-- A natural scaled to 53 bits before the point. -/
theorem scaled_bounds (hn : 0 < n) :
    fractionSize ≤ n * 2 ^ (52 - n.log2) / 2 ^ (n.log2 - 52) ∧
      n * 2 ^ (52 - n.log2) / 2 ^ (n.log2 - 52) < 2 * fractionSize := by
  have hlow : 2 ^ n.log2 ≤ n := Nat.log2_self_le hn.ne'
  have hhigh : n < 2 ^ (n.log2 + 1) := Nat.lt_log2_self
  have hcell : 0 < 2 ^ (n.log2 - 52) := Nat.two_pow_pos _
  rw [Nat.le_div_iff_mul_le hcell, Nat.div_lt_iff_lt_mul hcell]
  constructor
  · calc fractionSize * 2 ^ (n.log2 - 52) = 2 ^ n.log2 * 2 ^ (52 - n.log2) := by
          rw [fractionSize_eq, ← pow_add, ← pow_add]
          congr 1
          omega
      _ ≤ n * 2 ^ (52 - n.log2) := Nat.mul_le_mul_right _ hlow
  · calc n * 2 ^ (52 - n.log2) < 2 ^ (n.log2 + 1) * 2 ^ (52 - n.log2) :=
          Nat.mul_lt_mul_of_pos_right hhigh (Nat.two_pow_pos _)
      _ = 2 * fractionSize * 2 ^ (n.log2 - 52) := by
          rw [fractionSize_eq, ← pow_succ', ← pow_add, ← pow_add]
          congr 1
          omega

def roundedSignificand (n : Nat) : Nat :=
  divideToEven (n * 2 ^ (52 - n.log2)) (2 ^ (n.log2 - 52))

theorem div_le_divideToEven (n d : Nat) :
    n / d ≤ divideToEven n d ∧ divideToEven n d ≤ n / d + 1 := by
  unfold divideToEven
  dsimp only
  split_ifs <;> omega

theorem divideToEven_mul {d : Nat} (hd : 0 < d) (n : Nat) : divideToEven (n * d) d = n := by
  rw [divideToEven, Nat.mul_mod_left, Nat.mul_div_cancel n hd, Nat.mul_zero, if_pos hd]

theorem roundedSignificand_bounds (hn : 0 < n) :
    fractionSize ≤ roundedSignificand n ∧ roundedSignificand n ≤ 2 * fractionSize := by
  have hscaled := scaled_bounds hn
  have hrounded := div_le_divideToEven (n * 2 ^ (52 - n.log2)) (2 ^ (n.log2 - 52))
  unfold roundedSignificand
  omega

/-- A natural becomes a double of its size. A significand that is rounded up to 54 bits carries
into the exponent field. -/
theorem nearest_natural (negative : Bool) (hn : 0 < n) (hlt : n < 2 ^ 64) :
    nearest negative n 1 =
      assemble negative ((n.log2 + 1022) * fractionSize + roundedSignificand n) := by
  have hlog : n.log2 < 64 := (Nat.log2_lt hn.ne').mpr hlt
  have hunit : twoPow (-((n.log2 : Int) - 52)) = 2 ^ (52 - n.log2) := by
    rw [twoPow, Nat.pow_eq]
    congr 1
    omega
  have hcell : 1 * twoPow ((n.log2 : Int) - 52) = 2 ^ (n.log2 - 52) := by
    rw [twoPow, Nat.pow_eq, Nat.one_mul]
    congr 1
    omega
  have hexponent : exponentFor n 1 = (n.log2 : Int) - 52 := by
    have hone : Nat.log2 1 = 0 := by decide
    simp only [exponentFor, hone, Nat.cast_zero, sub_zero, hunit, hcell,
      if_neg (scaled_bounds hn).1.not_gt]
    omega
  have hfield : ((n.log2 : Int) - 52 + 1074).toNat = n.log2 + 1022 := by omega
  have hfinite : (n.log2 + 1022) * fractionSize + roundedSignificand n ≤ infinityMagnitude := by
    have hsignificand := (roundedSignificand_bounds hn).2
    unfold infinityMagnitude
    calc (n.log2 + 1022) * fractionSize + roundedSignificand n
        ≤ 1085 * fractionSize + 2 * fractionSize :=
          Nat.add_le_add (Nat.mul_le_mul_right _ (by omega)) hsignificand
      _ ≤ 2047 * fractionSize := by omega
  simp only [nearest, if_neg hn.ne', hexponent, hunit, hcell, hfield]
  change assemble negative (min ((n.log2 + 1022) * fractionSize + roundedSignificand n) _) = _
  rw [Nat.min_eq_left hfinite]

def wholeSignificand (n : Nat) : Nat := n * 2 ^ (52 - n.log2)

theorem log2_le_of_lt (hn : 0 < n) (hlt : n < 2 ^ 53) : n.log2 ≤ 52 :=
  Nat.lt_succ_iff.mp ((Nat.log2_lt hn.ne').mpr hlt)

theorem two_pow_log2_sub (hn : 0 < n) (hlt : n < 2 ^ 53) : 2 ^ (n.log2 - 52) = 1 := by
  rw [Nat.sub_eq_zero_of_le (log2_le_of_lt hn hlt), pow_zero]

theorem wholeSignificand_bounds (hn : 0 < n) (hlt : n < 2 ^ 53) :
    fractionSize ≤ wholeSignificand n ∧ wholeSignificand n < 2 * fractionSize := by
  have hscaled := scaled_bounds hn
  rwa [two_pow_log2_sub hn hlt, Nat.div_one] at hscaled

/-- An integer of less than 54 bits needs no rounding. -/
theorem roundedSignificand_whole (hn : 0 < n) (hlt : n < 2 ^ 53) :
    roundedSignificand n = wholeSignificand n := by
  rw [roundedSignificand, two_pow_log2_sub hn hlt, wholeSignificand]
  simpa using divideToEven_mul Nat.one_pos (n * 2 ^ (52 - n.log2))

/-- The magnitude of an integer: an exponent field for its size, and the rest of its bits. -/
def wholeMagnitude (n : Nat) : Nat := (n.log2 + 1022) * fractionSize + wholeSignificand n

theorem wholeMagnitude_lt (hn : 0 < n) (hlt : n < 2 ^ 53) :
    wholeMagnitude n < infinityMagnitude := by
  have hlog := log2_le_of_lt hn hlt
  obtain ⟨-, hhigh⟩ := wholeSignificand_bounds hn hlt
  have hsize : (n.log2 + 1022) * fractionSize ≤ 1074 * fractionSize :=
    Nat.mul_le_mul_right _ (by omega)
  unfold wholeMagnitude infinityMagnitude
  have hpos : 0 < fractionSize := by decide
  omega

theorem nearest_whole (negative : Bool) (hn : 0 < n) (hlt : n < 2 ^ 53) :
    nearest negative n 1 = assemble negative (wholeMagnitude n) := by
  rw [nearest_natural negative hn (by omega), roundedSignificand_whole hn hlt, wholeMagnitude]

theorem sign_magnitude_assemble (negative : Bool) {m : Nat} (hm : m < signWeight) :
    (assemble negative m).isNegative = negative ∧ (assemble negative m).magnitude = m := by
  have hweight : signWeight = 2 ^ 63 := rfl
  have hbits : (assemble negative m).bits.toNat =
      if negative then signWeight + m else m := by
    rw [assemble, UInt64.toNat_ofNat']
    apply Nat.mod_eq_of_lt
    split <;> omega
  rw [isNegative, magnitude, hbits]
  cases negative with
  | true => simp [Nat.mod_eq_of_lt hm]
  | false => simp [Nat.mod_eq_of_lt hm, hm]

end Encoding

section Search

open Shortest

variable {x : Binary64}

theorem interval_of_whole (hn : 0 < n) (hlt : n < 2 ^ 53) (hx : x.magnitude = wholeMagnitude n) :
    (Interval.of x).value = 4 * wholeSignificand n ∧
      (Interval.of x).high = 4 * wholeSignificand n + 2 ∧
      4 * wholeSignificand n - 2 ≤ (Interval.of x).low ∧
      (Interval.of x).low < 4 * wholeSignificand n ∧
      (Interval.of x).unit = (n.log2 : Int) - 54 := by
  obtain ⟨hlow, hhigh⟩ := wholeSignificand_bounds hn hlt
  have hpos : 0 < fractionSize := by decide
  have hfield : x.magnitude / fractionSize = n.log2 + 1023 := by
    rw [hx, wholeMagnitude, Nat.div_eq_iff hpos]
    have hsize : (n.log2 + 1023) * fractionSize =
        (n.log2 + 1022) * fractionSize + fractionSize := by
      ring
    omega
  have hrest : x.magnitude % fractionSize = wholeSignificand n - fractionSize := by
    have hsplit := Nat.div_add_mod x.magnitude fractionSize
    have hsize : fractionSize * (n.log2 + 1023) =
        (n.log2 + 1022) * fractionSize + fractionSize := by ring
    rw [hfield, hsize, hx, wholeMagnitude] at hsplit
    rw [hx, wholeMagnitude]
    omega
  have hsignificand : x.significand = wholeSignificand n := by
    rw [significand, exponentField, hfield, if_neg (Nat.succ_ne_zero _), hrest]
    omega
  have hunit : x.exponent - 2 = (n.log2 : Int) - 54 := by
    rw [exponent, exponentField, hfield]
    omega
  refine ⟨?_, ?_, ?_, ?_, hunit⟩ <;> simp only [Interval.of, hsignificand]
  · split <;> omega
  · split <;> omega

/-- The search stops at a grid of integers if it starts at one and would find the number on
the grid of all of them. -/
theorem search_nonneg {i : Interval} {tie : Tie} (h : (i.onGrid? tie 0).isSome) {tries : Nat}
    {k : Int} (hk : 0 ≤ k) (htries : k < tries) : 0 ≤ (search i tie tries k).2 := by
  induction tries generalizing k with
  | zero => omega
  | succ tries ih =>
    unfold search
    cases hgrid : i.onGrid? tie k with
    | some m => exact hk
    | none =>
      have hne : k ≠ 0 := by
        rintro rfl
        rw [hgrid] at h
        cases h
      exact ih (by omega) (by omega)

theorem onGrid?_whole (hn : 0 < n) (hlt : n < 2 ^ 53) (hx : x.magnitude = wholeMagnitude n)
    (tie : Tie) : ((Interval.of x).onGrid? tie 0).isSome := by
  obtain ⟨hvalue, hhigh, -, hlow, hunit⟩ := interval_of_whole hn hlt hx
  have hlog := log2_le_of_lt hn hlt
  have hscale : twoPow ((n.log2 : Int) - 54) * tenPow (-0) = 1 := by
    have hzero : ((n.log2 : Int) - 54).toNat = 0 := by omega
    rw [twoPow, hzero]
    rfl
  have hcell : twoPow (-((n.log2 : Int) - 54)) * tenPow 0 = 2 ^ (54 - n.log2) := by
    have hshift : (-((n.log2 : Int) - 54)).toNat = 54 - n.log2 := by omega
    rw [twoPow, hshift]
    exact Nat.mul_one _
  have hexact : n * 2 ^ (54 - n.log2) = 4 * wholeSignificand n := by
    have hshift : 54 - n.log2 = 52 - n.log2 + 2 := by omega
    rw [wholeSignificand, hshift, pow_add]
    ring
  have hpoint : 4 * wholeSignificand n / 2 ^ (54 - n.log2) = n := by
    rw [← hexact, Nat.mul_div_cancel _ (Nat.two_pow_pos _)]
  unfold Interval.onGrid?
  simp only [hunit, hscale, hcell, hvalue, hhigh, Nat.mul_one, hpoint, hexact]
  have hinside : (if (Interval.of x).closed = true then
        decide ((Interval.of x).low ≤ 4 * wholeSignificand n) &&
          decide (4 * wholeSignificand n ≤ 4 * wholeSignificand n + 2)
      else
        decide ((Interval.of x).low < 4 * wholeSignificand n) &&
          decide (4 * wholeSignificand n < 4 * wholeSignificand n + 2)) = true := by
    simp [hlow, hlow.le]
  rw [hinside]
  split <;> first | rfl | rename_i hfalse _; cases hfalse

/-- The search starts above one, and not far above the integers of 53 bits. -/
theorem top_of_whole (hn : 0 < n) (hlt : n < 2 ^ 53) (hx : x.magnitude = wholeMagnitude n) :
    0 ≤ (Interval.of x).top ∧ (Interval.of x).top < 40 := by
  obtain ⟨-, hhigh, -, -, hunit⟩ := interval_of_whole hn hlt hx
  obtain ⟨hlow, hbound⟩ := wholeSignificand_bounds hn hlt
  have hlog := log2_le_of_lt hn hlt
  have hlength : (4 * wholeSignificand n + 2).log2 = 54 := by
    rw [fractionSize_eq] at hlow hbound
    refine (Nat.log2_eq_iff (by omega)).mpr ⟨?_, ?_⟩ <;> omega
  rw [Interval.top, hhigh, hlength, hunit]
  omega

theorem wholeSignificand_scaled (hn : 0 < n) (hlt : n < 2 ^ 53) :
    (4 * wholeSignificand n : ℚ) * 2 ^ ((n.log2 : Int) - 54) = n := by
  have hlog := log2_le_of_lt hn hlt
  have hshift : (52 - n.log2 : Nat) + ((n.log2 : Int) - 54) = -2 := by omega
  rw [wholeSignificand]
  push_cast
  rw [← zpow_natCast, mul_assoc, mul_assoc, ← zpow_add₀ (by norm_num), hshift]
  norm_num
  ring

theorem eq_of_contains_whole (hn : 0 < n) (hlt : n < 2 ^ 53) (hx : x.magnitude = wholeMagnitude n)
    {m : Nat} (h : (Interval.of x).Contains m) : m = n := by
  obtain ⟨-, hhigh, hlow, -, hunit⟩ := interval_of_whole hn hlt hx
  have hlog := log2_le_of_lt hn hlt
  have hbounds : (Interval.of x).low * (2 : ℚ) ^ (Interval.of x).unit ≤ m ∧
      (m : ℚ) ≤ (Interval.of x).high * 2 ^ (Interval.of x).unit := by
    unfold Interval.Contains at h
    split at h
    · exact h
    · exact ⟨h.1.le, h.2.le⟩
  rw [hunit, hhigh] at hbounds
  -- the unit is a quarter of the spacing, which is at most one
  have hquarter : (2 : ℚ) ^ ((n.log2 : Int) - 54) ≤ 1 / 4 := by
    calc (2 : ℚ) ^ ((n.log2 : Int) - 54) ≤ 2 ^ (-2 : Int) :=
          zpow_le_zpow_right₀ (by norm_num) (by omega)
      _ = 1 / 4 := by norm_num
  have hpos : (0 : ℚ) < 2 ^ ((n.log2 : Int) - 54) := zpow_pos (by norm_num) _
  have hvalue := wholeSignificand_scaled hn hlt
  have hlower : (4 * wholeSignificand n : ℚ) ≤ (Interval.of x).low + 2 := by
    have hnat : 4 * wholeSignificand n ≤ (Interval.of x).low + 2 := by omega
    exact_mod_cast hnat
  have hge : (n : ℚ) < m + 1 := by
    have hscaled := mul_le_mul_of_nonneg_right hlower hpos.le
    rw [hvalue, add_mul] at hscaled
    linarith [hbounds.1]
  have hle : (m : ℚ) < n + 1 := by
    have hupper := hbounds.2
    push_cast at hupper
    rw [add_mul, hvalue] at hupper
    linarith
  have hge' : n < m + 1 := by exact_mod_cast hge
  have hle' : m < n + 1 := by exact_mod_cast hle
  omega

theorem digits_of_whole (hn : 0 < n) (hlt : n < 2 ^ 53) (hx : x.magnitude = wholeMagnitude n)
    (tie : Tie) : ∃ d j : Nat, digits tie x = (d, (j : Int)) ∧ d * 10 ^ j = n := by
  obtain ⟨htop, htries⟩ := top_of_whole hn hlt hx
  have hk : 0 ≤ (digits tie x).2 := search_nonneg (onGrid?_whole hn hlt hx tie) htop htries
  obtain ⟨j, hj⟩ := Int.eq_ofNat_of_zero_le hk
  have hcontains : (Interval.of x).Contains ((digits tie x).1 * 10 ^ (digits tie x).2) :=
    search_contains (proper_of x) tie 40 (Interval.of x).top
  have hcast : ((digits tie x).1 : ℚ) * 10 ^ (j : Int) = ((digits tie x).1 * 10 ^ j : Nat) := by
    push_cast
    rfl
  rw [hj, hcast] at hcontains
  exact ⟨(digits tie x).1, j, Prod.ext rfl hj, eq_of_contains_whole hn hlt hx hcontains⟩

end Search

section Text

theorem toDigits_mul_ten_pow {d : Nat} (hd : 0 < d) (j : Nat) :
    Nat.toDigits 10 (d * 10 ^ j) = Nat.toDigits 10 d ++ List.replicate j '0' := by
  induction j with
  | zero => simp
  | succ j ih =>
    have hpos : 0 < d * 10 ^ j := Nat.mul_pos hd (Nat.pow_pos (by decide))
    have hlast := Nat.toDigits_append_toDigits (b := 10) (d := 0) (by decide) hpos (by decide)
    rw [List.replicate_succ', ← List.append_assoc, ← ih, pow_succ]
    rw [show d * (10 ^ j * 10) = 10 * (d * 10 ^ j) + 0 by ring, ← hlast]
    rfl

theorem text_ofInt {i : Int} (hi : i.natAbs < 2 ^ 53) : (ofInt i).text = i.repr := by
  by_cases hzero : i = 0
  · subst hzero
    decide
  have hn : 0 < i.natAbs := Int.natAbs_pos.mpr hzero
  have hfinite := wholeMagnitude_lt hn hi
  have hweight : wholeMagnitude i.natAbs < signWeight := hfinite.trans (by decide)
  obtain ⟨hsign, hmagnitude⟩ := sign_magnitude_assemble (decide (i < 0)) hweight
  rw [← nearest_whole _ hn hi] at hsign hmagnitude
  obtain ⟨d, j, hdigits, hd⟩ := digits_of_whole hn hi hmagnitude .up
  have hpos : 0 < d := by
    rcases Nat.eq_zero_or_pos d with rfl | hpos
    · rw [Nat.zero_mul] at hd
      omega
    · exact hpos
  have hnonzero : wholeMagnitude i.natAbs ≠ 0 := by
    have hsignificand := (wholeSignificand_bounds hn hi).1
    have hsize : 0 < fractionSize := by decide
    unfold wholeMagnitude
    omega
  change (nearest (decide (i < 0)) i.natAbs 1).text = i.repr
  have hnan : (nearest (decide (i < 0)) i.natAbs 1).isNaN = false := by
    simpa [isNaN, hmagnitude] using hfinite.le
  have hinfinite : (nearest (decide (i < 0)) i.natAbs 1).isInfinite = false := by
    simpa [isInfinite, hmagnitude] using hfinite.ne
  have hzero : (nearest (decide (i < 0)) i.natAbs 1).isZero = false := by
    simpa [isZero, hmagnitude] using hnonzero
  rw [text_of_number hnan, body, signText, hinfinite, hzero, hsign, hdigits]
  have hwritten : positional d j = i.natAbs.repr := by
    rw [positional, if_pos (by omega), Int.toNat_natCast, ← toDigits_mul_ten_pow hpos, hd]
    rfl
  simp only [Bool.false_eq_true, if_false, hwritten, decide_eq_true_eq]
  rw [Int.repr_eq_if]
  by_cases hneg : i < 0
  · have habs : (-i).toNat = i.natAbs := by omega
    rw [if_pos hneg, if_neg (by omega), habs]
  · have habs : i.toNat = i.natAbs := by omega
    rw [if_neg hneg, if_pos (by omega), habs]
    simp

end Text

end Binary64

end EntityCache
