import EntityCache.Number.Notation
import EntityCache.Proofs.FloatIntervals
import EntityCache.Value.Equality
import Mathlib

/-! What the text of a number tells. The digits behind the sign stand for a real that rounds
to the number, so two doubles with one text are one double, up to what is not a number; the
two zeros are the only equal doubles whose texts differ. -/
namespace EntityCache.Binary64

section Digits

variable {whole places : List Char}

def decimalValue (cs : List Char) : ℚ :=
  Nat.ofDigitChars 10 (cs.filter (· ≠ '.')) 0 / 10 ^ ((cs.dropWhile (· ≠ '.')).length - 1)

def pointed (whole places : List Char) : List Char :=
  if places = [] then whole else whole ++ '.' :: places

theorem mem_pointed {c : Char} (h : c ∈ pointed whole places) : c ∈ whole ++ places ∨ c = '.' := by
  unfold pointed at h
  split at h
  · exact Or.inl (List.mem_append_left _ h)
  · rcases List.mem_append.mp h with hwhole | hrest
    · exact Or.inl (List.mem_append_left _ hwhole)
    · rcases List.mem_cons.mp hrest with hpoint | hplaces
      · exact Or.inr hpoint
      · exact Or.inl (List.mem_append_right _ hplaces)

theorem decimalValue_pointed (h : ∀ c ∈ whole ++ places, c.isDigit = true) :
    decimalValue (pointed whole places) =
      Nat.ofDigitChars 10 (whole ++ places) 0 / 10 ^ places.length := by
  have hpoint : ∀ c ∈ whole ++ places, (decide (c ≠ '.')) = true := by
    intro c hc
    apply decide_eq_true
    rintro rfl
    exact absurd (h _ hc) (by decide)
  have hwhole : ∀ c ∈ whole, (decide (c ≠ '.')) = true := fun c hc =>
    hpoint c (List.mem_append_left _ hc)
  have hplaces : ∀ c ∈ places, (decide (c ≠ '.')) = true := fun c hc =>
    hpoint c (List.mem_append_right _ hc)
  unfold pointed decimalValue
  split
  · rename_i hnone
    rw [List.filter_eq_self.mpr hwhole, List.dropWhile_eq_nil_iff.mpr hwhole, hnone,
      List.append_nil]
    rfl
  · rw [List.filter_append, List.filter_eq_self.mpr hwhole, List.filter_cons_of_neg (by decide),
      List.filter_eq_self.mpr hplaces, List.dropWhile_append, List.dropWhile_eq_nil_iff.mpr hwhole]
    simp

theorem isDigit_of_mem_toDigits {n : Nat} {c : Char} (h : c ∈ Nat.toDigits 10 n) :
    c.isDigit = true := Nat.isDigit_of_mem_toDigits (by decide) (by decide) h

theorem decimalValue_toDigits (n : Nat) : decimalValue (Nat.toDigits 10 n) = n := by
  have hdigits : ∀ c ∈ Nat.toDigits 10 n ++ [], c.isDigit = true := fun c hc =>
    isDigit_of_mem_toDigits (List.append_nil _ ▸ hc)
  have hvalue := decimalValue_pointed hdigits
  rwa [List.append_nil, Nat.ofDigitChars_ten_toDigits, List.length_nil, pow_zero, div_one] at hvalue

theorem isDigit_of_mem_zeros {j : Nat} {c : Char} (h : c ∈ List.replicate j '0') :
    c.isDigit = true := by
  rw [List.eq_of_mem_replicate h]
  decide

/-- What stands in a number without an exponent: digits that make it up when the point is
left out, with as many of them behind the point as the power of ten asks for. -/
structure Spelling (n : Nat) (k : Int) (whole places : List Char) : Prop where
  ne_nil : whole ≠ []
  isDigit : ∀ c ∈ whole ++ places, c.isDigit = true
  value : (Nat.ofDigitChars 10 (whole ++ places) 0 : ℚ) = n * 10 ^ (k + places.length)
  text : (positional n k).toList = pointed whole places

theorem exists_spelling (n : Nat) (k : Int) : ∃ whole places, Spelling n k whole places := by
  by_cases hk : 0 ≤ k
  · obtain ⟨j, rfl⟩ := Int.eq_ofNat_of_zero_le hk
    refine ⟨Nat.toDigits 10 n ++ List.replicate j '0', [], ?_, ?_, ?_, ?_⟩
    · simp [Nat.toDigits_ne_nil]
    · intro c hc
      rw [List.append_nil, List.mem_append] at hc
      exact hc.elim isDigit_of_mem_toDigits isDigit_of_mem_zeros
    · rw [List.append_nil, Nat.ofDigitChars_append, Nat.ofDigitChars_ten_toDigits,
        Nat.ofDigitChars_replicate_zero]
      push_cast
      simp [mul_comm]
    · simp [positional, pointed]
  · obtain ⟨j, hj⟩ := Int.eq_ofNat_of_zero_le (neg_nonneg.mpr (le_of_not_ge hk))
    obtain rfl : k = -(j : Int) := by omega
    generalize hds : List.replicate (j + 1 - (Nat.toDigits 10 n).length) '0' ++ Nat.toDigits 10 n
      = ds
    have hlength : j < ds.length := by
      rw [← hds, List.length_append, List.length_replicate]
      omega
    have hplaces : (ds.drop (ds.length - j)).length = j := by
      rw [List.length_drop]
      omega
    refine ⟨ds.take (ds.length - j), ds.drop (ds.length - j), ?_, ?_, ?_, ?_⟩
    · rw [← List.length_pos_iff_ne_nil, List.length_take]
      omega
    · intro c hc
      rw [List.take_append_drop, ← hds, List.mem_append] at hc
      exact hc.elim isDigit_of_mem_zeros isDigit_of_mem_toDigits
    · rw [List.take_append_drop, hplaces, ← hds, Nat.ofDigitChars_append,
        Nat.ofDigitChars_replicate_zero, Nat.mul_zero, Nat.ofDigitChars_ten_toDigits]
      simp
    · have hsome : ds.drop (ds.length - j) ≠ [] := by
        rw [← List.length_pos_iff_ne_nil, hplaces]
        omega
      rw [positional, if_neg hk, pointed, if_neg hsome]
      simp only [neg_neg, Int.toNat_natCast, hds, String.toList_ofList]

theorem decimalValue_positional (n : Nat) (k : Int) :
    decimalValue (positional n k).toList = n * 10 ^ k := by
  obtain ⟨whole, places, h⟩ := exists_spelling n k
  rw [h.text, decimalValue_pointed h.isDigit, h.value, zpow_add₀ (by norm_num), zpow_natCast]
  field_simp

theorem mem_positional {n : Nat} {k : Int} {c : Char} (h : c ∈ (positional n k).toList) :
    c.isDigit = true ∨ c = '.' := by
  obtain ⟨whole, places, hs⟩ := exists_spelling n k
  rw [hs.text] at h
  exact (mem_pointed h).imp_left (hs.isDigit c)

end Digits

section Texts

variable {x y : Binary64}

def body (x : Binary64) : String :=
  if x.isInfinite then "inf"
  else if x.isZero then "0"
  else positional (Shortest.digits .up x).1 (Shortest.digits .up x).2

theorem text_of_number (h : x.isNaN = false) : x.text = x.signText ++ x.body := by
  unfold text body
  rw [h]
  split
  · cases ‹false = true›
  · split
    · rfl
    · split <;> rfl

/-- What is written for a finite number stands for a real that rounds to it. -/
theorem body_of_finite (h : x.isInfinite = false) :
    ∃ n k, x.body = positional n k ∧ RoundsTo x.magnitude (n * 10 ^ k) := by
  rw [body, h, if_neg Bool.false_ne_true]
  split
  · rename_i hzero
    refine ⟨0, 0, by decide, ?_⟩
    rw [beq_iff_eq.mp hzero, Nat.cast_zero, zero_mul]
    exact roundsTo_zero
  · exact ⟨_, _, rfl, Shortest.digits_roundsTo .up x⟩

theorem body_of_infinite (h : x.isInfinite = true) : x.body = "inf" := by rw [body, if_pos h]

theorem mem_body {c : Char} (hc : c ∈ x.body.toList) :
    c.isDigit = true ∨ c ∈ ['.', 'i', 'n', 'f'] := by
  cases h : x.isInfinite with
  | true => exact Or.inr (List.mem_cons_of_mem _ (by simpa [body_of_infinite h] using hc))
  | false =>
    obtain ⟨n, k, hbody, _⟩ := body_of_finite h
    rcases mem_positional (hbody ▸ hc) with hdigit | rfl
    · exact Or.inl hdigit
    · exact Or.inr List.mem_cons_self

theorem minus_not_mem_body (x : Binary64) : '-' ∉ x.body.toList :=
  fun hc => absurd (mem_body hc) (by decide)

theorem body_ne_empty (x : Binary64) : x.body ≠ "" := by
  cases h : x.isInfinite with
  | true =>
    rw [body_of_infinite h]
    decide
  | false =>
    obtain ⟨n, k, hbody, _⟩ := body_of_finite h
    obtain ⟨whole, places, hs⟩ := exists_spelling n k
    intro hempty
    have hnil : pointed whole places = [] := by
      rw [← hs.text, ← hbody, hempty]
      rfl
    unfold pointed at hnil
    split at hnil
    · exact hs.ne_nil hnil
    · simp at hnil

theorem mem_signText {c : Char} (h : c ∈ x.signText.toList) : c = '-' := by
  unfold signText at h
  split at h
  · simpa using h
  · simp at h

theorem sign_body_inj (h : x.signText ++ x.body = y.signText ++ y.body) :
    x.isNegative = y.isNegative ∧ x.body = y.body := by
  have hmixed : ∀ {a b : Binary64}, a.isNegative = true → b.isNegative = false →
      a.signText ++ a.body ≠ b.signText ++ b.body := by
    intro a b ha hb heq
    have hlist : '-' :: a.body.toList = b.body.toList := by
      simpa [signText, ha, hb] using congrArg String.toList heq
    exact minus_not_mem_body b (hlist ▸ List.mem_cons_self)
  have hlist := congrArg String.toList h
  cases hx : x.isNegative with
  | true =>
    cases hy : y.isNegative with
    | true => exact ⟨rfl, String.toList_injective (by simpa [signText, hx, hy] using hlist)⟩
    | false => exact absurd h (hmixed hx hy)
  | false =>
    cases hy : y.isNegative with
    | true => exact absurd h.symm (hmixed hy hx)
    | false => exact ⟨rfl, String.toList_injective (by simpa [signText, hx, hy] using hlist)⟩

theorem magnitude_eq_of_body (h : x.body = y.body) : x.magnitude = y.magnitude := by
  have hinfinite : ∀ {a b : Binary64}, a.isInfinite = true → b.isInfinite = false →
      a.body ≠ b.body := by
    intro a b ha hb heq
    obtain ⟨n, k, hbody, _⟩ := body_of_finite hb
    have hletter : 'i' ∈ (positional n k).toList := by
      rw [← hbody, ← heq, body_of_infinite ha]
      decide
    exact absurd (mem_positional hletter) (by decide)
  cases hx : x.isInfinite with
  | true =>
    cases hy : y.isInfinite with
    | true => exact (beq_iff_eq.mp hx).trans (beq_iff_eq.mp hy).symm
    | false => exact absurd h (hinfinite hx hy)
  | false =>
    cases hy : y.isInfinite with
    | true => exact absurd h.symm (hinfinite hy hx)
    | false =>
      -- The digits stand for one real, and it rounds to both.
      obtain ⟨n, k, hbody, hrounds⟩ := body_of_finite hx
      obtain ⟨n', k', hbody', hrounds'⟩ := body_of_finite hy
      have hvalue : (n : ℚ) * 10 ^ k = n' * 10 ^ k' := by
        rw [← decimalValue_positional, ← decimalValue_positional, ← hbody, ← hbody', h]
      exact hrounds.unique (hvalue ▸ hrounds')

theorem ext_sign_magnitude (hs : x.isNegative = y.isNegative)
    (hm : x.magnitude = y.magnitude) : x = y := by
  have hbits : x.bits.toNat = y.bits.toNat := by
    have hx := x.bits.toNat_lt
    have hy := y.bits.toNat_lt
    simp only [isNegative, decide_eq_decide] at hs
    simp only [magnitude] at hm
    unfold signWeight at hs hm
    omega
  cases x
  cases y
  exact congrArg Binary64.mk (UInt64.toNat_inj.mp hbits)

theorem text_eq_nan_iff : x.text = "NaN" ↔ x.isNaN := by
  constructor
  · intro h
    by_contra hnan
    rw [Bool.not_eq_true] at hnan
    rw [text_of_number hnan] at h
    have hletter : 'N' ∈ x.signText.toList ++ x.body.toList := by
      rw [← String.toList_append, h]
      decide
    rcases List.mem_append.mp hletter with hsign | hbody
    · exact absurd (mem_signText hsign) (by decide)
    · exact absurd (mem_body hbody) (by decide)
  · intro h
    rw [text, if_pos h]

/-- A text belongs to one double alone, unless it is the one of what is not a number. -/
theorem text_eq_iff : x.text = y.text ↔ x = y ∨ x.isNaN ∧ y.isNaN := by
  constructor
  · intro h
    cases hx : x.isNaN with
    | true => exact Or.inr ⟨rfl, text_eq_nan_iff.mp (h ▸ text_eq_nan_iff.mpr hx)⟩
    | false =>
      have hy : y.isNaN = false := by
        rw [← Bool.not_eq_true, ← text_eq_nan_iff, ← h, text_eq_nan_iff, hx]
        exact Bool.false_ne_true
      rw [text_of_number hx, text_of_number hy] at h
      obtain ⟨hsign, hbody⟩ := sign_body_inj h
      exact Or.inl (ext_sign_magnitude hsign (magnitude_eq_of_body hbody))
  · rintro (rfl | ⟨hx, hy⟩)
    · rfl
    · rw [text_eq_nan_iff.mpr hx, text_eq_nan_iff.mpr hy]

def OppositeZeros (x y : Binary64) : Prop :=
  x.isZero ∧ y.isZero ∧ x.isNegative ≠ y.isNegative

instance (x y : Binary64) : Decidable (x.OppositeZeros y) :=
  inferInstanceAs (Decidable (_ ∧ _ ∧ _))

theorem isNaN_of_isZero (h : x.isZero) : x.isNaN = false := by
  rw [isNaN, beq_iff_eq.mp h]
  decide

theorem comparisonBits_of_isZero (h : x.isZero) : x.comparisonBits = zero.bits := by
  rw [comparisonBits, if_pos h]

theorem comparisonBits_of_isNaN (h : x.isNaN) : x.comparisonBits = nan.bits := by
  have hzero : ¬ x.isZero := fun hz => Bool.false_ne_true ((isNaN_of_isZero hz).symm.trans h)
  rw [comparisonBits, if_neg hzero, if_pos h]

theorem comparisonBits_of_other (hz : ¬ x.isZero) (hn : ¬ x.isNaN) :
    x.comparisonBits = x.bits := by
  rw [comparisonBits, if_neg hz, if_neg hn]

/-- Which numbers are zero, and which are none, can be told from the bits compared. -/
theorem class_of_comparisonBits (x : Binary64) :
    isZero ⟨x.comparisonBits⟩ = x.isZero ∧ isNaN ⟨x.comparisonBits⟩ = x.isNaN := by
  by_cases hz : x.isZero
  · rw [comparisonBits_of_isZero hz, hz, isNaN_of_isZero hz]
    decide
  · by_cases hn : x.isNaN
    · rw [comparisonBits_of_isNaN hn, hn, Bool.eq_false_iff.mpr hz]
      decide
    · rw [comparisonBits_of_other hz hn]
      exact ⟨rfl, rfl⟩

theorem comparisonBits_eq_iff : x.comparisonBits = y.comparisonBits ↔
    x = y ∨ x.isNaN ∧ y.isNaN ∨ x.isZero ∧ y.isZero := by
  constructor
  · intro h
    have hzero : x.isZero = y.isZero := by
      rw [← (class_of_comparisonBits x).1, h, (class_of_comparisonBits y).1]
    have hnan : x.isNaN = y.isNaN := by
      rw [← (class_of_comparisonBits x).2, h, (class_of_comparisonBits y).2]
    by_cases hz : x.isZero
    · exact Or.inr (Or.inr ⟨hz, hzero ▸ hz⟩)
    by_cases hn : x.isNaN
    · exact Or.inr (Or.inl ⟨hn, hnan ▸ hn⟩)
    rw [comparisonBits_of_other hz hn, comparisonBits_of_other (hzero ▸ hz) (hnan ▸ hn)] at h
    cases x
    cases y
    exact Or.inl (congrArg Binary64.mk h)
  · rintro (rfl | ⟨hx, hy⟩ | ⟨hx, hy⟩)
    · rfl
    · rw [comparisonBits_of_isNaN hx, comparisonBits_of_isNaN hy]
    · rw [comparisonBits_of_isZero hx, comparisonBits_of_isZero hy]

theorem text_eq_iff_comparisonBits :
    x.text = y.text ↔ x.comparisonBits = y.comparisonBits ∧ ¬ x.OppositeZeros y := by
  rw [text_eq_iff, comparisonBits_eq_iff]
  constructor
  · rintro (rfl | ⟨hx, hy⟩)
    · exact ⟨Or.inl rfl, fun h => h.2.2 rfl⟩
    · exact ⟨Or.inr (Or.inl ⟨hx, hy⟩), fun h =>
        Bool.false_ne_true ((isNaN_of_isZero h.1).symm.trans hx)⟩
  · rintro ⟨heq | hnan | hzero, hsign⟩
    · exact Or.inl heq
    · exact Or.inr hnan
    · have hs : x.isNegative = y.isNegative := by
        by_contra hne
        exact hsign ⟨hzero.1, hzero.2, hne⟩
      exact Or.inl (ext_sign_magnitude hs
        ((beq_iff_eq.mp hzero.1).trans (beq_iff_eq.mp hzero.2).symm))

end Texts

end EntityCache.Binary64
