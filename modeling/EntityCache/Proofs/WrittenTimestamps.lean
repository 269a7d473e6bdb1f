import EntityCache.Proofs.CalendarDays
import EntityCache.Proofs.ReadingBack
import EntityCache.Time.Rfc3339
import Mathlib

/-! Timestamps read back. What is written of a timestamp with a year of four digits is the
timestamp cut to the millisecond, and reading it gives an instant of the same millisecond and
the same offset. -/
namespace EntityCache

namespace Number

theorem natOfDigits_append_zeros (cs : List Char) (k : Nat) :
    natOfDigits (cs ++ List.replicate k '0') = natOfDigits cs * 10 ^ k := by
  induction k with
  | zero => simp
  | succ k ih =>
    have hstep : ∀ ds : List Char, natOfDigits (ds ++ ['0']) = natOfDigits ds * 10 := by
      intro ds
      rw [natOfDigits, List.foldl_append, ← natOfDigits]
      exact Nat.mul_comm 10 _
    rw [List.replicate_succ', ← List.append_assoc, hstep, ih, pow_succ, mul_assoc]

theorem natOfDigits_zeros_append (k : Nat) (cs : List Char) :
    natOfDigits (List.replicate k '0' ++ cs) = natOfDigits cs := by
  have hzeros := natOfDigits_append_zeros [] k
  rw [List.nil_append] at hzeros
  rw [natOfDigits, List.foldl_append, ← natOfDigits, hzeros]
  exact congrArg (fun n => cs.foldl _ n) (Nat.zero_mul _)

end Number

namespace Rfc3339

variable {width n : Nat} {rest : List Char}

theorem padded_toList (width n : Nat) : (padded width n).toList =
    List.replicate (width - (Nat.toDigits 10 n).length) '0' ++ Nat.toDigits 10 n :=
  String.toList_ofList

theorem length_padded (hwidth : 0 < width) (hn : n < 10 ^ width) :
    (padded width n).toList.length = width := by
  have hdigits := Nat.toDigits_length 10 n width hwidth hn
  rw [padded_toList, List.length_append, List.length_replicate]
  omega

theorem natOfDigits_padded (width n : Nat) : Number.natOfDigits (padded width n).toList = n := by
  rw [padded_toList, Number.natOfDigits_zeros_append, Number.natOfDigits_toDigits]

theorem all_isDigit_padded (width n : Nat) : (padded width n).toList.all Char.isDigit = true := by
  rw [padded_toList, List.all_append, List.all_eq_true.mpr, List.all_eq_true.mpr]
  · rfl
  · exact fun c hc => Nat.isDigit_of_mem_toDigits (by decide) (by decide) hc
  · intro c hc
    rw [List.eq_of_mem_replicate hc]
    decide

theorem fixed?_padded (hwidth : 0 < width) (hn : n < 10 ^ width) (rest : List Char) :
    fixed? width ((padded width n).toList ++ rest) = some (n, rest) := by
  have hlength := length_padded hwidth hn
  rw [fixed?, List.take_left' hlength, List.drop_left' hlength]
  simp only [hlength, all_isDigit_padded, natOfDigits_padded, and_self, if_true]

@[simp] theorem expect?_self (c : Char) (cs : List Char) : expect? c (c :: cs) = some cs := by
  rw [expect?, if_pos rfl]

theorem fraction?_padded (hn : n < 1000) (hrest : ∀ c, rest.head? = some c → c.isDigit = false) :
    fraction? ('.' :: ((padded 3 n).toList ++ rest)) = some (n * 1000000, rest) := by
  have hlength : (padded 3 n).toList.length = 3 := length_padded (by decide) (by omega)
  have hne : (padded 3 n).toList ≠ [] := by
    intro h
    rw [h] at hlength
    cases hlength
  obtain ⟨htake, hdrop⟩ := Text.run_ends (all_isDigit_padded 3 n) hrest
  have hnine : (padded 3 n).toList.take 9 = (padded 3 n).toList :=
    List.take_of_length_le (by omega)
  simp only [fraction?, htake, hdrop, if_neg hne, hnine, hlength, Number.natOfDigits_append_zeros,
    natOfDigits_padded]
  rfl

theorem offset?_offsetText {offset : Int} (h : offset.natAbs < 1440) :
    offset? (offsetText offset).toList = some (offset, []) := by
  have hhours : offset.natAbs / 60 < 10 ^ 2 := by omega
  have hminutes : offset.natAbs % 60 < 10 ^ 2 := by omega
  have hread : ∀ sign : Char, sign = '+' ∨ sign = '-' →
      offset? (sign :: ((padded 2 (offset.natAbs / 60)).toList ++
        ':' :: ((padded 2 (offset.natAbs % 60)).toList ++ []))) =
          some (if sign = '+' then (offset.natAbs : Int) else -offset.natAbs, []) := by
    intro sign hsign
    have hzulu : ¬ (sign = 'Z' ∨ sign = 'z') := by
      rcases hsign with rfl | rfl <;> decide
    have hsigned : sign = '+' ∨ sign = '-' ∨ sign.toNat = 0x2212 := hsign.imp_right Or.inl
    have hclock : offset.natAbs / 60 ≤ 23 ∧ offset.natAbs % 60 ≤ 59 := by omega
    have htotal : (offset.natAbs / 60 : Nat) * 60 + (offset.natAbs % 60 : Nat) =
        (offset.natAbs : Int) := by
      omega
    simp only [offset?, if_neg hzulu, if_pos hsigned, fixed?_padded (by decide) hhours,
      fixed?_padded (by decide) hminutes, expect?_self, Option.bind_eq_bind, Option.bind_some,
      if_pos hclock, htotal]
  have htext : (offsetText offset).toList = (if offset < 0 then '-' else '+') ::
      ((padded 2 (offset.natAbs / 60)).toList ++
        ':' :: ((padded 2 (offset.natAbs % 60)).toList ++ [])) := by
    unfold offsetText
    split <;> simp [String.toList_append]
  rw [htext]
  by_cases hneg : offset < 0
  · rw [if_pos hneg, hread '-' (Or.inr rfl), if_neg (by decide)]
    simp only [Option.some.injEq, Prod.mk.injEq, and_true]
    omega
  · rw [if_neg hneg, hread '+' (Or.inl rfl), if_pos rfl]
    simp only [Option.some.injEq, Prod.mk.injEq, and_true]
    omega

theorem bind_some_step {α β : Type} {x : Option α} {f : α → Option β} {a : α} {b : β}
    (hx : x = some a) (hf : f a = some b) : x >>= f = some b := by
  rw [hx]
  exact hf

/-- A timestamp is read field by field; then comes the offset. -/
theorem parse?_fields {year month day hour minute second millis : Nat} {offset : Int}
    {t : Instant} (hyear : year < 10 ^ 4) (hmonth : month < 10 ^ 2) (hday : day < 10 ^ 2)
    (hhour : hour < 10 ^ 2) (hminute : minute < 10 ^ 2) (hsecond : second < 10 ^ 2)
    (hmillis : millis < 1000) (hrest : ∀ c, rest.head? = some c → c.isDigit = false)
    (hoffset : offset? rest = some (offset, []))
    (ht : ClockReading.toInstant? ⟨⟨year, month, day⟩, hour, minute, second, millis * 1000000⟩
      offset = some t) :
    parse? ((padded 4 year).toList ++ '-' :: ((padded 2 month).toList ++
      '-' :: ((padded 2 day).toList ++ 'T' :: ((padded 2 hour).toList ++
        ':' :: ((padded 2 minute).toList ++ ':' :: ((padded 2 second).toList ++
          '.' :: ((padded 3 millis).toList ++ rest))))))) = some (t, offset) := by
  have htwo : 0 < 2 := by decide
  refine bind_some_step (fixed?_padded (by decide) hyear _) ?_
  refine bind_some_step (expect?_self '-' _) ?_
  refine bind_some_step (fixed?_padded htwo hmonth _) ?_
  refine bind_some_step (expect?_self '-' _) ?_
  refine bind_some_step (fixed?_padded htwo hday _) ?_
  change (if 'T' = 'T' ∨ 'T' = 't' ∨ 'T' = ' ' then _ else _) = some (t, offset)
  rw [if_pos (Or.inl rfl)]
  refine bind_some_step rfl ?_
  refine bind_some_step (fixed?_padded htwo hhour _) ?_
  refine bind_some_step (expect?_self ':' _) ?_
  refine bind_some_step (fixed?_padded htwo hminute _) ?_
  refine bind_some_step (expect?_self ':' _) ?_
  refine bind_some_step (fixed?_padded htwo hsecond _) ?_
  refine bind_some_step (fraction?_padded hmillis hrest) ?_
  refine bind_some_step hoffset ?_
  exact bind_some_step ht rfl

end Rfc3339

namespace ClockReading

variable {t : Instant} {offset : Int}

/-- The clock fields of an instant. A leap second is written as second 60. -/
theorem ofInstant_bounds (hnanos : t.nanos < 2000000000) (offset : Int) :
    (ofInstant t offset).hour ≤ 23 ∧ (ofInstant t offset).minute ≤ 59 ∧
      (ofInstant t offset).second ≤ 60 ∧ (ofInstant t offset).nanos < 1000000000 := by
  simp only [ofInstant]
  omega

theorem toInstant?_cut (hnanos : t.nanos < 2000000000)
    (hdate : (ofInstant t offset).date.IsValid) :
    ∃ t', toInstant? { ofInstant t offset with
        nanos := (ofInstant t offset).nanos / 1000000 * 1000000 } offset = some t' ∧
      t'.epochMillis = t.epochMillis := by
  obtain ⟨hhour, hminute, hsecond, -⟩ := ofInstant_bounds hnanos offset
  have hdays : (ofInstant t offset).date.toDays = (t.seconds + offset * 60) / 86400 :=
    Date.toDays_ofDays _
  refine ⟨_, if_pos ⟨hdate, hhour, hminute, hsecond⟩, ?_⟩
  rw [Instant.epochMillis, Instant.epochMillis, hdays]
  simp only [ofInstant, beq_iff_eq]
  split <;> omega

end ClockReading

namespace Rfc3339

variable {t : Instant} {offset : Int}

def HasFourDigitYear (t : Instant) (offset : Int) : Prop :=
  0 ≤ (ClockReading.ofInstant t offset).date.year ∧
    (ClockReading.ofInstant t offset).date.year ≤ 9999

instance (t : Instant) (offset : Int) : Decidable (HasFourDigitYear t offset) :=
  inferInstanceAs (Decidable (_ ∧ _))

theorem monthLength_le (y : Int) (m : Nat) : Date.monthLength y m ≤ 31 := by
  unfold Date.monthLength
  split_ifs <;> omega

theorem isValid_of_year (h : HasFourDigitYear t offset) :
    (ClockReading.ofInstant t offset).date.IsValid :=
  Date.isValid_ofDays (le_trans (by decide) h.1) (h.2.trans (by decide))

/-- What is written of an instant, and an offset behind it, is read as an instant of the same
millisecond. -/
theorem parse?_readingText {rest : List Char} (hnanos : t.nanos < 2000000000)
    (hyear : HasFourDigitYear t offset) (hrest : ∀ c, rest.head? = some c → c.isDigit = false)
    (hoffset : offset? rest = some (offset, [])) :
    ∃ t', parse? ((readingText (ClockReading.ofInstant t offset)).toList ++ rest) =
      some (t', offset) ∧ t'.epochMillis = t.epochMillis := by
  obtain ⟨t', ht, hmillis⟩ := ClockReading.toInstant?_cut hnanos (isValid_of_year hyear)
  obtain ⟨hhour, hminute, hsecond, hfraction⟩ := ClockReading.ofInstant_bounds hnanos offset
  obtain ⟨-, -, hmonth, hmonth', hday, hday'⟩ := isValid_of_year hyear
  have hlength := monthLength_le (ClockReading.ofInstant t offset).date.year
    (ClockReading.ofInstant t offset).date.month
  obtain ⟨hfirst, hlast⟩ := hyear
  refine ⟨t', ?_, hmillis⟩
  generalize ClockReading.ofInstant t offset = r at *
  obtain ⟨⟨year, month, day⟩, hour, minute, second, nanos⟩ := r
  obtain ⟨year, rfl⟩ := Int.eq_ofNat_of_zero_le hfirst
  have htext : (readingText ⟨⟨year, month, day⟩, hour, minute, second, nanos⟩).toList ++ rest =
      (padded 4 year).toList ++ '-' :: ((padded 2 month).toList ++
        '-' :: ((padded 2 day).toList ++ 'T' :: ((padded 2 hour).toList ++
          ':' :: ((padded 2 minute).toList ++ ':' :: ((padded 2 second).toList ++
            '.' :: ((padded 3 (nanos / 1000000)).toList ++ rest)))))) := by
    simp [readingText, yearText, hfirst, hlast, String.toList_append]
  rw [htext]
  dsimp only at *
  exact parse?_fields (by omega) (by omega) (by omega) (by omega) (by omega) (by omega) (by omega)
    hrest hoffset ht

theorem parse?_utcText (hnanos : t.nanos < 2000000000) (hyear : HasFourDigitYear t 0) :
    ∃ t', parse? (utcText t).toList = some (t', 0) ∧ t'.epochMillis = t.epochMillis := by
  have hoffset : offset? ['Z'] = some (0, []) := by decide
  rw [utcText, String.toList_append]
  exact parse?_readingText hnanos hyear (by simp) hoffset

theorem parse?_localText (hnanos : t.nanos < 2000000000) (hyear : HasFourDigitYear t offset)
    (hoffset : offset.natAbs < 1440) :
    ∃ t', parse? (localText t offset).toList = some (t', offset) ∧
      t'.epochMillis = t.epochMillis := by
  have hsign : ∀ c, (offsetText offset).toList.head? = some c → c.isDigit = false := by
    unfold offsetText
    split <;> simp [String.toList_append]
  rw [localText, String.toList_append]
  exact parse?_readingText hnanos hyear hsign (offset?_offsetText hoffset)

end Rfc3339

end EntityCache
