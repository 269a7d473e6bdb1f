import EntityCache.Number.Shortest
import Mathlib

/-! The reals that round to a double. Between the intervals of two magnitudes that follow each
other there is one end that they share, and it belongs to the even one; so no real rounds to
two of them. What the search for the shortest digits finds is in the interval of the number
that it was started for. -/
namespace EntityCache.Binary64

section Ends

def significandAt (m : Nat) : Nat :=
  if m / fractionSize = 0 then m % fractionSize else fractionSize + m % fractionSize

/-- How often the spacing of the least numbers has doubled up to a magnitude. -/
def doublings (m : Nat) : Nat := max (m / fractionSize) 1 - 1

/-- How far the lower end is from a number, in quarters of the spacing above it. -/
def quartersBelow (m : Nat) : Nat := if m % fractionSize = 0 && 1 < m / fractionSize then 1 else 2

/-- Where the reals begin that round to a magnitude, in units of `2 ^ -1076`. -/
def lowerEnd (m : Nat) : Nat := (4 * significandAt m - quartersBelow m) * 2 ^ doublings m

def upperEnd (m : Nat) : Nat := (4 * significandAt m + 2) * 2 ^ doublings m

theorem significandAt_mod_two (m : Nat) : significandAt m % 2 = m % 2 := by
  unfold significandAt fractionSize
  by_cases hsub : m / 0x10000000000000 = 0
  · rw [if_pos hsub]
    omega
  · rw [if_neg hsub]
    omega

theorem lowerEnd_succ (m : Nat) : lowerEnd (m + 1) = upperEnd m := by
  have hsize : 2 < fractionSize := by decide
  obtain ⟨a, b, hb, rfl⟩ : ∃ a b, b < fractionSize ∧ m = fractionSize * a + b :=
    ⟨m / fractionSize, m % fractionSize, Nat.mod_lt _ (by omega), (Nat.div_add_mod ..).symm⟩
  have hdiv : (fractionSize * a + b) / fractionSize = a := by
    rw [Nat.mul_add_div (by omega), Nat.div_eq_of_lt hb, Nat.add_zero]
  have hmod : (fractionSize * a + b) % fractionSize = b := by
    rw [Nat.mul_add_mod, Nat.mod_eq_of_lt hb]
  by_cases hlast : b + 1 = fractionSize
  · -- The next number starts a new binade.
    have hnext : fractionSize * a + b + 1 = fractionSize * (a + 1) := by rw [mul_add]; omega
    have hdiv' : fractionSize * (a + 1) / fractionSize = a + 1 :=
      Nat.mul_div_cancel_left _ (by omega)
    have hmod' : fractionSize * (a + 1) % fractionSize = 0 := Nat.mul_mod_right _ _
    simp only [lowerEnd, upperEnd, significandAt, doublings, quartersBelow, hdiv, hmod, hnext,
      hdiv', hmod']
    cases a with
    | zero => simp; omega
    | succ a =>
      have hb' : 4 * (fractionSize + b) + 2 = 2 * (4 * fractionSize - 1) := by omega
      have hpow : max (a + 1 + 1) 1 - 1 = max (a + 1) 1 - 1 + 1 := by omega
      simp only [if_neg (Nat.succ_ne_zero _), hb', hpow, Nat.pow_succ, Nat.add_zero]
      simp
      ring
  · have hb' : b + 1 < fractionSize := by omega
    have hdiv' : (fractionSize * a + b + 1) / fractionSize = a := by
      rw [add_assoc, Nat.mul_add_div (by omega), Nat.div_eq_of_lt hb', Nat.add_zero]
    have hmod' : (fractionSize * a + b + 1) % fractionSize = b + 1 := by
      rw [add_assoc, Nat.mul_add_mod, Nat.mod_eq_of_lt hb']
    simp only [lowerEnd, upperEnd, significandAt, doublings, quartersBelow, hdiv, hmod, hdiv',
      hmod']
    congr 1
    split <;> simp <;> omega

theorem lowerEnd_lt_upperEnd (m : Nat) : lowerEnd m < upperEnd m :=
  Nat.mul_lt_mul_of_pos_right (by omega) (Nat.two_pow_pos _)

theorem strictMono_lowerEnd : StrictMono lowerEnd :=
  strictMono_nat_of_lt_succ fun m => by
    rw [lowerEnd_succ]
    exact lowerEnd_lt_upperEnd m

end Ends

section Rounding

/-- The reals that round to a magnitude; the ends do if it is even. -/
def RoundsTo (m : Nat) (q : ℚ) : Prop :=
  if m % 2 = 0 then lowerEnd m ≤ q * 2 ^ 1076 ∧ q * 2 ^ 1076 ≤ upperEnd m
  else lowerEnd m < q * 2 ^ 1076 ∧ q * 2 ^ 1076 < upperEnd m

variable {m m' : Nat} {q : ℚ}

theorem RoundsTo.bounds (h : RoundsTo m q) :
    lowerEnd m ≤ q * 2 ^ 1076 ∧ q * 2 ^ 1076 ≤ upperEnd m := by
  unfold RoundsTo at h
  split at h
  · exact h
  · exact ⟨h.1.le, h.2.le⟩

theorem RoundsTo.even_of_lower (h : RoundsTo m q) (he : q * 2 ^ 1076 = lowerEnd m) :
    m % 2 = 0 := by
  by_contra hodd
  rw [RoundsTo, if_neg hodd] at h
  exact h.1.ne he.symm

theorem RoundsTo.even_of_upper (h : RoundsTo m q) (he : q * 2 ^ 1076 = upperEnd m) :
    m % 2 = 0 := by
  by_contra hodd
  rw [RoundsTo, if_neg hodd] at h
  exact h.2.ne he

theorem not_roundsTo_of_lt (hlt : m < m') (h : RoundsTo m q) : ¬ RoundsTo m' q := by
  intro h'
  have hends : upperEnd m ≤ lowerEnd m' := by
    rw [← lowerEnd_succ]
    exact strictMono_lowerEnd.monotone hlt
  have hcast : (upperEnd m : ℚ) ≤ lowerEnd m' := by exact_mod_cast hends
  have hupper : q * 2 ^ 1076 = upperEnd m :=
    le_antisymm h.bounds.2 (hcast.trans h'.bounds.1)
  have hlower : q * 2 ^ 1076 = lowerEnd m' :=
    le_antisymm (h.bounds.2.trans hcast) h'.bounds.1
  -- The end is shared, so the magnitudes follow each other and one of them is odd.
  have hshared : lowerEnd (m + 1) = lowerEnd m' := by
    rw [lowerEnd_succ]
    exact_mod_cast hupper.symm.trans hlower
  have hnext : m + 1 = m' := strictMono_lowerEnd.injective hshared
  have heven := h.even_of_upper hupper
  have heven' := h'.even_of_lower hlower
  omega

theorem RoundsTo.unique (h : RoundsTo m q) (h' : RoundsTo m' q) : m = m' := by
  rcases lt_trichotomy m m' with hlt | heq | hlt
  · exact absurd h' (not_roundsTo_of_lt hlt h)
  · exact heq
  · exact absurd h (not_roundsTo_of_lt hlt h')

theorem RoundsTo.le_of_lt {q' : ℚ} (h : RoundsTo m q) (h' : RoundsTo m' q') (hlt : q < q') :
    m ≤ m' := by
  by_contra hm
  have hends : upperEnd m' ≤ lowerEnd m := by
    rw [← lowerEnd_succ]
    exact strictMono_lowerEnd.monotone (not_le.mp hm)
  have hcast : (upperEnd m' : ℚ) ≤ lowerEnd m := by exact_mod_cast hends
  have hscaled : q' * 2 ^ 1076 ≤ q * 2 ^ 1076 := h'.bounds.2.trans (hcast.trans h.bounds.1)
  exact hlt.not_ge (le_of_mul_le_mul_right hscaled (by positivity))

theorem roundsTo_zero : RoundsTo 0 0 := by
  norm_num [RoundsTo, lowerEnd, upperEnd, significandAt]

end Rounding

end EntityCache.Binary64

namespace EntityCache.Shortest

open Binary64

section Search

variable {i : Interval} {tie : Tie} {k : Int} {n : Nat}

def Interval.Contains (i : Interval) (q : ℚ) : Prop :=
  if i.closed then i.low * (2 : ℚ) ^ i.unit ≤ q ∧ q ≤ i.high * 2 ^ i.unit
  else i.low * (2 : ℚ) ^ i.unit < q ∧ q < i.high * 2 ^ i.unit

theorem pow_toNat_eq (b : Nat) (hb : b ≠ 0) (k : Int) :
    ((Nat.pow b k.toNat : Nat) : ℚ) = (b : ℚ) ^ k * (Nat.pow b (-k).toNat : Nat) := by
  have hb' : (b : ℚ) ≠ 0 := by exact_mod_cast hb
  have hcast : ∀ j : Nat, ((Nat.pow b j : Nat) : ℚ) = (b : ℚ) ^ (j : Int) := by
    intro j
    rw [zpow_natCast]
    exact Nat.cast_pow b j
  rw [hcast, hcast, ← zpow_add₀ hb']
  congr 1
  omega

theorem cast_twoPow (u : Int) : (twoPow u : ℚ) = 2 ^ u * twoPow (-u) := by
  exact_mod_cast pow_toNat_eq 2 (by decide) u

theorem cast_tenPow (k : Int) : (tenPow k : ℚ) = 10 ^ k * tenPow (-k) := by
  exact_mod_cast pow_toNat_eq 10 (by decide) k

/-- The comparison with the grid is one with the reals, both sides having been multiplied
by what makes them integers. -/
theorem scaled_le_iff (i : Interval) (k : Int) (a n : Nat) :
    (a * (twoPow i.unit * tenPow (-k)) ≤ n * (twoPow (-i.unit) * tenPow k) ↔
      a * (2 : ℚ) ^ i.unit ≤ n * 10 ^ k) ∧
    (n * (twoPow (-i.unit) * tenPow k) ≤ a * (twoPow i.unit * tenPow (-k)) ↔
      n * (10 : ℚ) ^ k ≤ a * 2 ^ i.unit) := by
  have hpos : (0 : ℚ) < twoPow (-i.unit) * tenPow (-k) := by
    have htwo : 0 < twoPow (-i.unit) := Nat.pow_pos (by decide)
    have hten : 0 < tenPow (-k) := Nat.pow_pos (by decide)
    exact_mod_cast Nat.mul_pos htwo hten
  have hleft : ((a * (twoPow i.unit * tenPow (-k)) : Nat) : ℚ) =
      a * 2 ^ i.unit * (twoPow (-i.unit) * tenPow (-k)) := by
    push_cast
    rw [cast_twoPow i.unit]
    ring
  have hright : ((n * (twoPow (-i.unit) * tenPow k) : Nat) : ℚ) =
      n * 10 ^ k * (twoPow (-i.unit) * tenPow (-k)) := by
    push_cast
    rw [cast_tenPow k]
    ring
  constructor
  · rw [← @Nat.cast_le ℚ, hleft, hright, mul_le_mul_iff_left₀ hpos]
  · rw [← @Nat.cast_le ℚ, hleft, hright, mul_le_mul_iff_left₀ hpos]

theorem contains_of_inside
    (h : (if i.closed then
        decide (i.low * (twoPow i.unit * tenPow (-k)) ≤ n * (twoPow (-i.unit) * tenPow k)) &&
          decide (n * (twoPow (-i.unit) * tenPow k) ≤ i.high * (twoPow i.unit * tenPow (-k)))
      else
        decide (i.low * (twoPow i.unit * tenPow (-k)) < n * (twoPow (-i.unit) * tenPow k)) &&
          decide (n * (twoPow (-i.unit) * tenPow k) <
            i.high * (twoPow i.unit * tenPow (-k)))) = true) :
    i.Contains (n * 10 ^ k) := by
  have hlow := scaled_le_iff i k i.low n
  have hhigh := scaled_le_iff i k i.high n
  unfold Interval.Contains
  split at h
  · rename_i hclosed
    rw [Bool.and_eq_true, decide_eq_true_iff, decide_eq_true_iff] at h
    rw [if_pos hclosed]
    exact ⟨hlow.1.mp h.1, hhigh.2.mp h.2⟩
  · rename_i hopen
    rw [Bool.and_eq_true, decide_eq_true_iff, decide_eq_true_iff] at h
    rw [if_neg hopen]
    exact ⟨lt_of_not_ge fun hle => h.1.not_ge (hlow.2.mpr hle),
      lt_of_not_ge fun hle => h.2.not_ge (hhigh.1.mpr hle)⟩

theorem onGrid?_contains (h : i.onGrid? tie k = some n) : i.Contains (n * 10 ^ k) := by
  simp only [Interval.onGrid?] at h
  split at h
  · rename_i hhere hnext
    split at h <;> cases h
    · exact contains_of_inside hnext
    · exact contains_of_inside hhere
  · rename_i hhere _
    cases h
    exact contains_of_inside hhere
  · rename_i _ hnext
    cases h
    exact contains_of_inside hnext
  · cases h

/-- The value is between the ends, which are one significand and a half apart at most. -/
structure Interval.Proper (i : Interval) : Prop where
  low_le : i.low ≤ i.value
  lt_high : i.value < i.high
  low_lt : i.closed = false → i.low < i.value

theorem exact_contains (hi : i.Proper) : i.Contains (i.exact.1 * 10 ^ i.exact.2) := by
  have hvalue : (i.exact.1 : ℚ) * 10 ^ i.exact.2 = i.value * 2 ^ i.unit := by
    rcases le_total 0 i.unit with hu | hu
    · obtain ⟨u, hu'⟩ := Int.eq_ofNat_of_zero_le hu
      simp [Interval.exact, twoPow, hu']
    · obtain ⟨u, hu'⟩ := Int.eq_ofNat_of_zero_le (neg_nonneg.mpr hu)
      have hunit : i.unit = -(u : Int) := by omega
      have hmin : min (-(u : Int)) 0 = -(u : Int) := by omega
      have hten : (10 : ℚ) ^ u = 5 ^ u * 2 ^ u := by rw [← mul_pow]; norm_num
      simp only [Interval.exact, twoPow, hunit, hmin, neg_neg, zpow_neg, zpow_natCast, hten]
      push_cast
      simp
      field_simp
  have hpos : (0 : ℚ) < 2 ^ i.unit := zpow_pos (by norm_num) _
  rw [hvalue]
  unfold Interval.Contains
  split
  · exact ⟨mul_le_mul_of_nonneg_right (by exact_mod_cast hi.low_le) hpos.le,
      mul_le_mul_of_nonneg_right (by exact_mod_cast hi.lt_high.le) hpos.le⟩
  · rename_i hopen
    exact ⟨mul_lt_mul_of_pos_right (by exact_mod_cast hi.low_lt (by simpa using hopen)) hpos,
      mul_lt_mul_of_pos_right (by exact_mod_cast hi.lt_high) hpos⟩

theorem search_contains (hi : i.Proper) (tie : Tie) (tries : Nat) (k : Int) :
    i.Contains ((search i tie tries k).1 * 10 ^ (search i tie tries k).2) := by
  induction tries generalizing k with
  | zero => exact exact_contains hi
  | succ tries ih =>
    unfold search
    cases hgrid : i.onGrid? tie k with
    | some n => exact onGrid?_contains hgrid
    | none => exact ih (k - 1)

theorem proper_of (x : Binary64) : (Interval.of x).Proper where
  low_le := Nat.sub_le ..
  lt_high := by simp [Interval.of]
  low_lt hopen := by
    have hodd : x.significand % 2 = 1 := by simpa [Interval.of] using hopen
    simp only [Interval.of]
    split <;> omega

theorem contains_of_iff (x : Binary64) (q : ℚ) :
    (Interval.of x).Contains q ↔ RoundsTo x.magnitude q := by
  have hscale : (0 : ℚ) < 2 ^ 1076 := pow_pos (by norm_num) _
  have hunit : (2 : ℚ) ^ (Interval.of x).unit * 2 ^ 1076 = 2 ^ doublings x.magnitude := by
    have hexponent : (Interval.of x).unit + (1076 : Nat) = doublings x.magnitude := by
      simp only [Interval.of, exponent, exponentField, doublings]
      omega
    rw [← zpow_natCast 2 (doublings _), ← hexponent, zpow_add₀ (by norm_num), zpow_natCast]
  have hlow : (lowerEnd x.magnitude : ℚ) =
      (Interval.of x).low * 2 ^ (Interval.of x).unit * 2 ^ 1076 := by
    rw [mul_assoc, hunit]
    exact_mod_cast rfl
  have hhigh : (upperEnd x.magnitude : ℚ) =
      (Interval.of x).high * 2 ^ (Interval.of x).unit * 2 ^ 1076 := by
    rw [mul_assoc, hunit]
    exact_mod_cast rfl
  have hclosed : (Interval.of x).closed ↔ x.magnitude % 2 = 0 := by
    rw [← significandAt_mod_two]
    exact beq_iff_eq
  simp only [Interval.Contains, RoundsTo, hclosed, hlow, hhigh, mul_le_mul_iff_left₀ hscale,
    mul_lt_mul_iff_left₀ hscale]

end Search

theorem digits_roundsTo (tie : Tie) (x : Binary64) :
    RoundsTo x.magnitude ((digits tie x).1 * 10 ^ (digits tie x).2) :=
  (contains_of_iff x _).mp (search_contains (proper_of x) tie 40 _)

end EntityCache.Shortest
