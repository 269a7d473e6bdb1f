import EntityCache.Proofs.Coercion
import EntityCache.Proofs.DoubleValues
import EntityCache.Proofs.ReadingBack

/-! Numbers that become integers. A double without a fraction becomes the integer of 64 bits
closest to it, so it stays the number that it is within the range and is cut to the nearest
end outside it. Two numbers become one integer only at such an end. -/
namespace EntityCache

namespace Number

/-- The integer is the number, or the end of the range that the number lies beyond. -/
def ClampsTo (q : ℚ) (i : Int64) : Prop :=
  q = i.toInt ∨ i = Int64.maxValue ∧ 2 ^ 63 ≤ q ∨ i = Int64.minValue ∧ q < -2 ^ 63

theorem toInt_maxValue : Int64.maxValue.toInt = 2 ^ 63 - 1 := by decide

theorem toInt_minValue : Int64.minValue.toInt = -2 ^ 63 := by decide

theorem clampInt64_eq_iff {z : Int} {i : Int64} : clampInt64 z = i ↔ ClampsTo z i := by
  have hlow := i.le_toInt
  have hhigh := i.toInt_lt
  have hcast : ClampsTo z i ↔ z = i.toInt ∨ i.toInt = 2 ^ 63 - 1 ∧ 2 ^ 63 ≤ z ∨
      i.toInt = -2 ^ 63 ∧ z < -2 ^ 63 := by
    rw [ClampsTo, ← toInt_maxValue, ← toInt_minValue, Int64.toInt_inj, Int64.toInt_inj]
    norm_cast
  have hclamp : (clampInt64 z).toInt = max (-2 ^ 63) (min z (2 ^ 63 - 1)) := by
    unfold clampInt64
    rw [toInt_minValue, toInt_maxValue]
    split
    · rw [toInt_minValue]
      omega
    · split
      · rw [toInt_maxValue]
        omega
      · rw [Int64.toInt_ofInt_of_le (by omega) (by omega)]
        omega
  rw [← Int64.toInt_inj, hclamp, hcast]
  omega

theorem clampsTo_of_large {q : ℚ} {i : Int64} (h : 2 ^ 63 ≤ q) :
    ClampsTo q i ↔ i = Int64.maxValue := by
  refine ⟨?_, fun hi => Or.inr (Or.inl ⟨hi, h⟩)⟩
  rintro (rfl | ⟨hi, -⟩ | ⟨-, hlow⟩)
  · have hhigh : (i.toInt : ℚ) < 2 ^ 63 := by exact_mod_cast i.toInt_lt
    exact absurd h hhigh.not_ge
  · exact hi
  · linarith

/-- Numbers that are cut to one integer are the same, or lie beyond one end of the range or
on it. -/
theorem ClampsTo.merged {p q : ℚ} {i : Int64} (hp : ClampsTo p i) (hq : ClampsTo q i)
    (hne : p ≠ q) : i = Int64.maxValue ∧ 2 ^ 63 - 1 ≤ p ∧ 2 ^ 63 - 1 ≤ q ∨
      i = Int64.minValue ∧ p ≤ -2 ^ 63 ∧ q ≤ -2 ^ 63 := by
  have htop : ((Int64.maxValue.toInt : Int) : ℚ) = 2 ^ 63 - 1 := by
    rw [toInt_maxValue]
    norm_num
  have hbottom : ((Int64.minValue.toInt : Int) : ℚ) = -2 ^ 63 := by
    rw [toInt_minValue]
    norm_num
  rcases hp with rfl | ⟨rfl, hp⟩ | ⟨rfl, hp⟩
  · rcases hq with rfl | ⟨rfl, hq⟩ | ⟨rfl, hq⟩
    · exact absurd rfl hne
    · exact Or.inl ⟨rfl, htop.ge, by linarith⟩
    · exact Or.inr ⟨rfl, hbottom.le, hq.le⟩
  · rcases hq with rfl | ⟨-, hq⟩ | ⟨hend, -⟩
    · exact Or.inl ⟨rfl, by linarith, htop.ge⟩
    · exact Or.inl ⟨rfl, by linarith, by linarith⟩
    · exact absurd hend (by decide)
  · rcases hq with rfl | ⟨hend, -⟩ | ⟨-, hq⟩
    · exact Or.inr ⟨rfl, hp.le, hbottom.le⟩
    · exact absurd hend (by decide)
    · exact Or.inr ⟨rfl, hp.le, hq.le⟩

end Number

open Number

namespace Binary64

variable {x : Binary64} {i : Int64}

theorem natAbs_toInt_lt (i : Int64) : i.toInt.natAbs < 2 ^ 64 := by
  have hlow := i.le_toInt
  have hhigh := i.toInt_lt
  omega

theorem isIntegral_of_clampsTo (hx : x.isFinite) (h : ClampsTo x.toRat i) : x.isIntegral := by
  rcases h with h | ⟨-, h⟩ | ⟨-, h⟩
  · exact (isIntegral_iff hx).mpr ⟨i.toInt, h⟩
  · refine isIntegral_of_large hx (le_trans ?_ (le_abs_self _))
    linarith
  · refine isIntegral_of_large hx (le_trans ?_ (neg_le_abs _))
    linarith

theorem toInt64_eq_iff (hx : x.isFinite) (h : x.isIntegral) :
    x.toInt64 = i ↔ ClampsTo x.toRat i := by
  obtain ⟨z, hz⟩ := (isIntegral_iff hx).mp h
  rw [toInt64, isNaN_of_isFinite hx, isInfinite_of_isFinite hx, truncate_of_toRat hz, hz]
  exact clampInt64_eq_iff

theorem isIntegral_and_toInt64_iff (hx : x.isFinite) :
    x.isIntegral ∧ x.toInt64 = i ↔ ClampsTo x.toRat i :=
  ⟨fun h => (toInt64_eq_iff hx h.1).mp h.2,
    fun h => ⟨isIntegral_of_clampsTo hx h, (toInt64_eq_iff hx (isIntegral_of_clampsTo hx h)).mpr h⟩⟩

/-- The largest integer is rounded up, the least one is a double. -/
theorem toRat_ofInt_ends : (ofInt Int64.maxValue.toInt).toRat = 2 ^ 63 ∧
    (ofInt Int64.minValue.toInt).toRat = -2 ^ 63 := by
  have hmax : rounded Int64.maxValue.toInt.natAbs = 2 ^ 63 := by
    have hsignificand : roundedSignificand Int64.maxValue.toInt.natAbs = 2 ^ 53 := by
      decide
    have hlog : (Int64.maxValue.toInt.natAbs.log2 : Int) - 52 = 10 := by decide
    rw [rounded, hsignificand, hlog]
    norm_num
  have hmin : rounded Int64.minValue.toInt.natAbs = 2 ^ 63 := by
    have hsignificand : roundedSignificand Int64.minValue.toInt.natAbs = 2 ^ 52 := by
      decide
    have hlog : (Int64.minValue.toInt.natAbs.log2 : Int) - 52 = 11 := by decide
    rw [rounded, hsignificand, hlog]
    norm_num
  rw [(toRat_ofInt (natAbs_toInt_lt _)).2, (toRat_ofInt (natAbs_toInt_lt _)).2, hmax, hmin,
    if_neg (by decide), if_pos (by decide)]
  norm_num

/-- A double and an integer are the same number, but for the largest integer and the double
next to it. -/
theorem sameAsInt_iff_toRat (hx : x.isFinite) :
    x.sameAsInt i ↔ x.toRat = i.toInt ∨ i = Int64.maxValue ∧ x.toRat = 2 ^ 63 := by
  have hfinite := (toRat_ofInt (natAbs_toInt_lt i)).1
  rw [sameAsInt_iff, comparisonBits_eq_iff_toRat hfinite]
  constructor
  · rintro ⟨⟨hvalue, -⟩, hint⟩
    obtain ⟨z, hz⟩ := exists_toRat_ofInt (natAbs_toInt_lt i)
    have hintegral := (isIntegral_iff hx).mpr ⟨z, hvalue.symm.trans hz⟩
    rcases (toInt64_eq_iff hx hintegral).mp hint with h | ⟨rfl, -⟩ | ⟨rfl, h⟩
    · exact Or.inl h
    · exact Or.inr ⟨rfl, hvalue.symm.trans toRat_ofInt_ends.1⟩
    · rw [← hvalue, toRat_ofInt_ends.2] at h
      exact absurd h (lt_irrefl _)
  · intro h
    have hclamps : ClampsTo x.toRat i := h.imp_right fun h => Or.inl ⟨h.1, h.2.ge⟩
    refine ⟨⟨?_, hx⟩, (isIntegral_and_toInt64_iff hx).mpr hclamps |>.2⟩
    rcases h with h | ⟨rfl, h⟩
    · rw [toRat_ofInt_of_toRat (natAbs_toInt_lt i) h, h]
    · rw [toRat_ofInt_ends.1, h]

section Texts

variable {z : Int}

theorem filter_repr (z : Int) : z.repr.toList.filter (· ≠ '-') = Nat.toDigits 10 z.natAbs := by
  have hdigits : ∀ n : Nat, (Nat.toDigits 10 n).filter (· ≠ '-') = Nat.toDigits 10 n := by
    intro n
    rw [List.filter_eq_self]
    intro c hc
    apply decide_eq_true
    rintro rfl
    exact absurd (isDigit_of_mem_toDigits hc) (by decide)
  cases z with
  | ofNat n =>
    rw [Int.repr, Nat.toList_repr, hdigits]
    rfl
  | negSucc n =>
    rw [Int.repr, String.toList_append, Nat.toList_repr, List.filter_append, hdigits]
    rfl

theorem filter_text (h : x.isNaN = false) : x.text.toList.filter (· ≠ '-') = x.body.toList := by
  have hsign : x.signText.toList.filter (· ≠ '-') = [] := by
    rw [List.filter_eq_nil_iff]
    intro c hc
    simp [mem_signText hc]
  have hbody : x.body.toList.filter (· ≠ '-') = x.body.toList := by
    rw [List.filter_eq_self]
    intro c hc
    apply decide_eq_true
    rintro rfl
    exact minus_not_mem_body x hc
  rw [text_of_number h, String.toList_append, List.filter_append, hsign, hbody, List.nil_append]

/-- An integer that is written for a double rounds to it, the sign apart. -/
theorem roundsTo_of_text (h : x.text = z.repr) :
    x.isFinite ∧ RoundsTo x.magnitude z.natAbs := by
  have hnan : x.isNaN = false := by
    by_contra hnan
    have hletter : 'N' ∈ z.repr.toList := by
      rw [← h, text_eq_nan_iff.mpr (by simpa using hnan)]
      decide
    exact absurd (mem_repr hletter) (by decide)
  have hbody : x.body.toList = Nat.toDigits 10 z.natAbs := by
    rw [← filter_text hnan, h, filter_repr]
  have hinfinite : x.isInfinite = false := by
    by_contra hinfinite
    rw [body_of_infinite (by simpa using hinfinite)] at hbody
    have hletter : 'i' ∈ Nat.toDigits 10 z.natAbs := hbody ▸ (by decide)
    exact absurd (isDigit_of_mem_toDigits hletter) (by decide)
  have hfinite : x.isFinite := by
    simp only [isNaN, isInfinite, decide_eq_false_iff_not, beq_eq_false_iff_ne] at hnan hinfinite
    exact decide_eq_true (lt_of_le_of_ne (not_lt.mp hnan) hinfinite)
  obtain ⟨n, k, hdigits, hrounds⟩ := body_of_finite hinfinite
  refine ⟨hfinite, ?_⟩
  rwa [← decimalValue_positional, ← hdigits, hbody, decimalValue_toDigits] at hrounds

theorem isIntegral_of_text (h : x.text = z.repr) : x.isIntegral := by
  obtain ⟨hfinite, hrounds⟩ := roundsTo_of_text h
  rcases le_or_gt (2 ^ 52) x.size with hlarge | hsmall
  · exact isIntegral_of_large hfinite (by rwa [abs_toRat])
  · -- a larger integer would not round to so small a number
    have hlt : z.natAbs < 2 ^ 53 := by
      by_contra hge
      have hsize : (ofInt (2 ^ 52)).size = 2 ^ 52 := by
        rw [← abs_toRat, toRat_ofInt_of_lt (by decide)]
        norm_num
      have hmore : (2 : ℚ) ^ 52 < z.natAbs := by
        have hnat : 2 ^ 52 < z.natAbs := by omega
        exact_mod_cast hnat
      have hle := (roundsTo_size (ofInt (2 ^ 52))).le_of_lt hrounds (hsize ▸ hmore)
      have hge := (roundsTo_size x).le_of_lt (roundsTo_size (ofInt (2 ^ 52))) (hsize ▸ hsmall)
      exact hsmall.ne ((size_eq_iff.mpr (le_antisymm hge hle)).trans hsize)
    have hsize : (ofInt z).size = z.natAbs := by
      rw [← abs_toRat, toRat_ofInt_of_lt hlt, Nat.cast_natAbs, Int.cast_abs]
    have hsame : x.size = z.natAbs :=
      (size_eq_iff.mpr (hrounds.unique (hsize ▸ roundsTo_size (ofInt z)))).trans hsize
    rw [isIntegral_iff hfinite]
    refine ⟨if x.isNegative then -z.natAbs else z.natAbs, ?_⟩
    rw [toRat, hsame]
    split <;> simp

end Texts

end Binary64

namespace Json

/-- The number that a document is. An integer has 64 bits, with a sign or without. -/
def Denotes (q : ℚ) : Json → Prop
  | int i => -2 ^ 63 ≤ i ∧ i < 2 ^ 64 ∧ q = i
  | float x => x.isFinite ∧ q = x.toRat
  | _ => False

end Json

namespace DataType

variable {d : DataType} {i : Int64}

theorem coerceToInteger_float_iff {x : Binary64} (hx : x.isFinite) :
    coerceToInteger (.float x) = .integer i ↔ ClampsTo x.toRat i := by
  rw [← Binary64.isIntegral_and_toInt64_iff hx, coerceToInteger]
  split <;> simp_all

/-- A number off the wire becomes the integer closest to it, if it has no fraction. -/
theorem coerce_ofJson_iff (hd : d.isInteger) {a : Json} {q : ℚ} (h : a.Denotes q) :
    d.coerce (.ofJson a) = .integer i ↔ ClampsTo q i := by
  rw [coerce_of_isInteger hd]
  cases a with
  | int n =>
    obtain ⟨hlow, hhigh, rfl⟩ := h
    by_cases hfits : FitsInt64 n
    · have hclamp : clampInt64 n = Int64.ofInt n := by
        rw [clampInt64, if_neg hfits.1.not_gt, if_neg hfits.2.not_gt]
      have hread : Value.ofJson (.int n) = .integer (Int64.ofInt n) := by
        simp only [Value.ofJson, Json.int64?, toInt64?, if_pos hfits]
      have hkept : coerceToInteger (.integer (Int64.ofInt n)) = .integer (Int64.ofInt n) := rfl
      rw [hread, hkept, Value.integer.injEq, ← hclamp, clampInt64_eq_iff]
    · -- beyond the signed range: what the double is rounded to is beyond it too
      have hread : Value.ofJson (.int n) = .float (Binary64.ofInt n) := by
        simp only [Value.ofJson, Json.int64?, toInt64?, if_neg hfits]
      have hlarge : 2 ^ 63 ≤ n := by
        rw [FitsInt64, toInt_minValue, toInt_maxValue] at hfits
        omega
      have hbits : n.natAbs < 2 ^ 64 := by omega
      have hcast : (2 : ℚ) ^ 63 ≤ n := by exact_mod_cast hlarge
      rw [hread, coerceToInteger_float_iff (Binary64.toRat_ofInt hbits).1, clampsTo_of_large hcast,
        clampsTo_of_large (Binary64.two_pow_le_toRat_ofInt hbits hlarge)]
  | float x =>
    obtain ⟨hx, rfl⟩ := h
    exact coerceToInteger_float_iff hx
  | _ => cases h

/-- What becomes an integer, or equals one, is that integer, unless it is beyond the range of
64 bits or next to its upper end. Every other double is handed back as it is. -/
theorem integer_exact (hd : d.isInteger) (i : Int64) :
    (∀ x : Binary64, x.isFinite →
      ((Value.float x).same (.integer i) ↔
        x.toRat = i.toInt ∨ i = Int64.maxValue ∧ x.toRat = 2 ^ 63) ∧
      ((Value.float x).toInt64? = some i ↔ ClampsTo x.toRat i) ∧
      (d.coerce (.float x) = .integer i ↔ ClampsTo x.toRat i) ∧
      (d.coerce (.float x) = .float x ∨ ∃ j, d.coerce (.float x) = .integer j)) ∧
    ∀ (a b : Json) (p q : ℚ), a.Denotes p → b.Denotes q → p ≠ q →
      d.coerce (.ofJson a) = .integer i → d.coerce (.ofJson b) = .integer i →
      i = Int64.maxValue ∧ 2 ^ 63 - 1 ≤ p ∧ 2 ^ 63 - 1 ≤ q ∨
        i = Int64.minValue ∧ p ≤ -2 ^ 63 ∧ q ≤ -2 ^ 63 := by
  refine ⟨fun x hx => ⟨?_, ?_, ?_, ?_⟩, fun a b p q ha hb hne hp hq => ?_⟩
  · exact Binary64.sameAsInt_iff_toRat hx
  · rw [← Binary64.isIntegral_and_toInt64_iff hx, Value.toInt64?]
    split <;> simp_all
  · rw [coerce_of_isInteger hd, coerceToInteger_float_iff hx]
  · rw [coerce_of_isInteger hd, coerceToInteger]
    split
    · exact Or.inr ⟨_, rfl⟩
    · exact Or.inl rfl
  · exact ((coerce_ofJson_iff hd ha).mp hp).merged ((coerce_ofJson_iff hd hb).mp hq) hne

def seven : Binary64 := ⟨0x401C000000000000⟩

def beyondIntegers : Binary64 := ⟨0x43E0000000000000⟩

theorem toRat_seven : seven.toRat = 7 := by
  have hvalue : seven.toRat = (7 * 2 ^ 50 : Nat) * 2 ^ (-50 : Int) :=
    Binary64.toRat_of_fields (by decide) (by decide) (by decide)
  rw [hvalue]
  norm_num

theorem toRat_beyondIntegers : beyondIntegers.toRat = 2 ^ 63 := by
  have hvalue : beyondIntegers.toRat = (2 ^ 52 : Nat) * 2 ^ (11 : Int) :=
    Binary64.toRat_of_fields (by decide) (by decide) (by decide)
  rw [hvalue]
  norm_num

/-- A seven with a point becomes the integer. Numbers that become one integer are both at the
upper end here. -/
theorem seven_exact :
    ((Value.float seven).same (.integer 7) ∧ (Value.float seven).toInt64? = some 7 ∧
      int64.coerce (.float seven) = .integer 7) ∧
    (Json.int (2 ^ 64 - 1)).Denotes (2 ^ 64 - 1) ∧ (Json.float beyondIntegers).Denotes (2 ^ 63) ∧
    int64.coerce (.ofJson (.int (2 ^ 64 - 1))) = .integer Int64.maxValue ∧
    int64.coerce (.ofJson (.float beyondIntegers)) = .integer Int64.maxValue ∧
    (Int64.maxValue = Int64.maxValue ∧ (2 : ℚ) ^ 63 - 1 ≤ 2 ^ 64 - 1 ∧ (2 : ℚ) ^ 63 - 1 ≤ 2 ^ 63 ∨
      Int64.maxValue = Int64.minValue ∧ (2 : ℚ) ^ 64 - 1 ≤ -2 ^ 63 ∧ (2 : ℚ) ^ 63 ≤ -2 ^ 63) := by
  have hvalue : seven.toRat = (7 : Int64).toInt := by
    rw [toRat_seven]
    rfl
  obtain ⟨hsame, hint, hcoerce, -⟩ := (integer_exact (d := int64) rfl 7).1 seven (by decide)
  have hleft : (Json.int (2 ^ 64 - 1)).Denotes (2 ^ 64 - 1) :=
    ⟨by norm_num, by norm_num, by norm_num⟩
  have hright : (Json.float beyondIntegers).Denotes (2 ^ 63) :=
    ⟨by decide, toRat_beyondIntegers.symm⟩
  have hread : int64.coerce (.ofJson (.int (2 ^ 64 - 1))) = .integer Int64.maxValue := by rfl
  have hread' : int64.coerce (.ofJson (.float beyondIntegers)) = .integer Int64.maxValue := by rfl
  exact ⟨⟨hsame.mpr (Or.inl hvalue), hint.mpr (Or.inl hvalue), hcoerce.mpr (Or.inl hvalue)⟩,
    hleft, hright, hread, hread',
    (integer_exact (d := int64) rfl _).2 _ _ _ _ hleft hright (by norm_num) hread hread'⟩

/-- The double next to the largest integer is taken for that integer. -/
theorem beyondIntegers_inexact : beyondIntegers.isFinite ∧
    (Value.float beyondIntegers).same (.integer Int64.maxValue) ∧
    (Value.float beyondIntegers).toInt64? = some Int64.maxValue ∧
    int64.coerce (.float beyondIntegers) = .integer Int64.maxValue ∧
    beyondIntegers.toRat ≠ Int64.maxValue.toInt := by
  refine ⟨by decide, by decide, by decide +kernel, by rfl, ?_⟩
  rw [toRat_beyondIntegers, toInt_maxValue]
  norm_num

end DataType

end EntityCache
