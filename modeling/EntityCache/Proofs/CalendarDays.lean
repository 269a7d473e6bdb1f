import EntityCache.Time.Calendar
import Mathlib

/-! Dates and the days since 1970. A day of an era of 400 years falls in the year that begins on
it or before it, and a day of a year that starts in March falls in a month in the same way; so
counting the days of the date of a day gives that day again, and the date is in the calendar. -/
namespace EntityCache.Date

section Years

def daysBefore (y : Nat) : Nat := 365 * y + y / 4 - y / 100 + y / 400

def yearOfDay (n : Nat) : Nat := (n - n / 1460 + n / 36524 - n / 146096) / 365

theorem yearOfDay_mono : Monotone yearOfDay := by
  refine monotone_nat_of_le_succ fun n => Nat.div_le_div_right ?_
  -- a last day of an era is also one of a century
  have hcenturies : (n + 1) / 146096 - n / 146096 ≤ (n + 1) / 36524 - n / 36524 := by
    rw [show 146096 = 36524 * 4 by rfl, ← Nat.div_div_eq_div_mul, ← Nat.div_div_eq_div_mul]
    omega
  omega

theorem yearOfDay_ends {y : Nat} (hy : y < 400) :
    yearOfDay (daysBefore y) = y ∧ yearOfDay (daysBefore (y + 1) - 1) = y := by
  have hyears : (List.range 400).all (fun y =>
      yearOfDay (daysBefore y) = y ∧ yearOfDay (daysBefore (y + 1) - 1) = y) = true := by
    decide +kernel
  simpa using List.all_eq_true.mp hyears y (List.mem_range.mpr hy)

theorem isLeapYear_iff (y : Int) : isLeapYear y ↔ y % 4 = 0 ∧ (y % 100 ≠ 0 ∨ y % 400 = 0) := by
  simp [isLeapYear]

/-- A year that starts in March ends with the leap day of the year after it. -/
theorem daysBefore_succ (y : Nat) (era : Int) : daysBefore (y + 1) =
    daysBefore y + if isLeapYear (era * 400 + y + 1) then 366 else 365 := by
  have hfour : (y + 1) / 4 = y / 4 + if (y + 1) % 4 = 0 then 1 else 0 := by split <;> omega
  have hcentury : (y + 1) / 100 = y / 100 + if (y + 1) % 100 = 0 then 1 else 0 := by
    split <;> omega
  have hera : (y + 1) / 400 = y / 400 + if (y + 1) % 400 = 0 then 1 else 0 := by split <;> omega
  have hleap : isLeapYear (era * 400 + y + 1) ↔
      (y + 1) % 4 = 0 ∧ ((y + 1) % 100 ≠ 0 ∨ (y + 1) % 400 = 0) := by
    rw [isLeapYear_iff]
    omega
  simp only [hleap]
  unfold daysBefore
  -- each quotient grows by one where it comes to a multiple
  rw [hfour, hcentury, hera]
  split_ifs <;> omega

variable {n : Nat}

theorem yearOfDay_lt (hn : n < 146097) : yearOfDay n < 400 := by
  have hlast : yearOfDay 146096 < 400 := by decide
  exact (yearOfDay_mono (Nat.le_of_lt_succ hn)).trans_lt hlast

/-- A day is in the year that begins last before it. -/
theorem yearOfDay_bounds (hn : n < 146097) :
    daysBefore (yearOfDay n) ≤ n ∧ n < daysBefore (yearOfDay n + 1) := by
  have hyear := yearOfDay_lt hn
  constructor
  · by_contra hbefore
    obtain ⟨y, hy⟩ : ∃ y, yearOfDay n = y + 1 := by
      refine Nat.exists_eq_succ_of_ne_zero fun hzero => hbefore ?_
      rw [hzero]
      exact Nat.zero_le n
    have hle := yearOfDay_mono (by rw [← hy]; omega : n ≤ daysBefore (y + 1) - 1)
    rw [(yearOfDay_ends (by omega : y < 400)).2] at hle
    omega
  · by_contra hafter
    rw [not_lt] at hafter
    by_cases hlast : yearOfDay n + 1 < 400
    · have hle := yearOfDay_mono hafter
      rw [(yearOfDay_ends hlast).1] at hle
      omega
    · have hend : daysBefore (yearOfDay n + 1) = 146097 := by
        rw [show yearOfDay n + 1 = 400 by omega]
        rfl
      omega

end Years

section Months

def ofDayOfYear (year : Int) (n : Nat) : Date :=
  let month := (5 * (n : Int) + 2) / 153
  let day := (n : Int) - (153 * month + 2) / 5 + 1
  if month < 10 then ⟨year, (month + 3).toNat, day.toNat⟩
  else ⟨year + 1, (month - 9).toNat, day.toNat⟩

variable {year : Int} {n : Nat}

theorem toDays_ofDayOfYear (hn : n ≤ 365) : (ofDayOfYear year n).toDays =
    year / 400 * 146097 + daysBefore (year % 400).toNat + n - 719468 := by
  have hmonth : (5 * (n : Int) + 2) / 153 ≤ 11 := by omega
  unfold ofDayOfYear toDays daysBefore
  dsimp only
  split
  · rename_i hspring
    simp only [if_neg (by omega : ¬ ((5 * (n : Int) + 2) / 153 + 3).toNat ≤ 2)]
    omega
  · rename_i hwinter
    simp only [if_pos (by omega : ((5 * (n : Int) + 2) / 153 - 9).toNat ≤ 2)]
    omega

theorem monthLength_february (y : Int) :
    28 ≤ monthLength y 2 ∧ (isLeapYear y → monthLength y 2 = 29) := by
  unfold monthLength
  cases isLeapYear y <;> simp

/-- The date is in the calendar. A year has a 29th of February if it is long enough. -/
theorem ofDayOfYear_valid (hn : n ≤ 365) (hleap : n = 365 → isLeapYear (year + 1)) :
    let d := ofDayOfYear year n
    1 ≤ d.month ∧ d.month ≤ 12 ∧ 1 ≤ d.day ∧ d.day ≤ monthLength d.year d.month := by
  have hmonth : 0 ≤ (5 * (n : Int) + 2) / 153 ∧ (5 * (n : Int) + 2) / 153 ≤ 11 := by omega
  have hlow : 153 * ((5 * (n : Int) + 2) / 153) ≤ 5 * n + 2 := by omega
  have hhigh : 5 * (n : Int) + 2 < 153 * ((5 * (n : Int) + 2) / 153 + 1) := by omega
  unfold ofDayOfYear
  dsimp only
  generalize (5 * (n : Int) + 2) / 153 = month at *
  obtain ⟨hfirst, hlast⟩ := hmonth
  -- February, the last month of such a year, is the only one whose length depends on it
  rcases hlast.lt_or_eq with hearlier | rfl
  · interval_cases month <;> simp [monthLength] <;> omega
  · obtain ⟨hshort, hlong⟩ := monthLength_february (year + 1)
    change 1 ≤ 2 ∧ 2 ≤ 12 ∧ 1 ≤ ((n : Int) - 337 + 1).toNat ∧
      ((n : Int) - 337 + 1).toNat ≤ monthLength (year + 1) 2
    refine ⟨by omega, by omega, by omega, ?_⟩
    rcases hn.lt_or_eq with hday | hday
    · omega
    · rw [hlong (hleap hday)]
      omega

end Months

section Days

/-- A day of an era is in a year, and it is the 366th only in a year with a leap day. -/
theorem dayOfYear_spec {n : Nat} (hn : n < 146097) (era : Int) :
    n - daysBefore (yearOfDay n) ≤ 365 ∧ (n - daysBefore (yearOfDay n) = 365 →
      isLeapYear (era * 400 + yearOfDay n + 1)) := by
  obtain ⟨-, hafter⟩ := yearOfDay_bounds hn
  rw [daysBefore_succ _ era] at hafter
  split at hafter
  · rename_i hleap
    exact ⟨by omega, fun _ => hleap⟩
  · exact ⟨by omega, by omega⟩

/-- A day since 1970 is a day of a year of an era, and has the date of that. -/
theorem ofDays_eq (days : Int) : ∃ (era : Int) (n : Nat), n < 146097 ∧
    days + 719468 = era * 146097 + n ∧
      ofDays days = ofDayOfYear (era * 400 + yearOfDay n) (n - daysBefore (yearOfDay n)) := by
  obtain ⟨n, hn⟩ := Int.eq_ofNat_of_zero_le
    (Int.emod_nonneg (days + 719468) (by decide : (146097 : Int) ≠ 0))
  have hera : days + 719468 - (days + 719468) / 146097 * 146097 = n := by omega
  have hlt : n < 146097 := by omega
  have hyear : ((n : Int) - n / 1460 + n / 36524 - n / 146096) / 365 = yearOfDay n := by
    unfold yearOfDay
    omega
  have hday : (n : Int) - (365 * yearOfDay n + yearOfDay n / 4 - yearOfDay n / 100) =
      (n - daysBefore (yearOfDay n) : Nat) := by
    have hbounds := yearOfDay_bounds hlt
    have hyears := yearOfDay_lt hlt
    unfold daysBefore at hbounds ⊢
    omega
  refine ⟨(days + 719468) / 146097, n, hlt, by omega, ?_⟩
  simp only [ofDays, hera, hyear, hday]
  rw [add_comm (_ * 400 : Int)]
  rfl

theorem toDays_ofDays (days : Int) : (ofDays days).toDays = days := by
  obtain ⟨era, n, hn, hdays, hdate⟩ := ofDays_eq days
  obtain ⟨hyear, -⟩ := dayOfYear_spec hn era
  obtain ⟨hbefore, -⟩ := yearOfDay_bounds hn
  have hyears := yearOfDay_lt hn
  have hera : (era * 400 + yearOfDay n) / 400 = era := by omega
  have hrest : ((era * 400 + yearOfDay n) % 400).toNat = yearOfDay n := by omega
  rw [hdate, toDays_ofDayOfYear hyear, hera, hrest]
  omega

theorem isValid_ofDays {days : Int} (hfirst : firstYear ≤ (ofDays days).year)
    (hlast : (ofDays days).year ≤ lastYear) : (ofDays days).IsValid := by
  obtain ⟨era, n, hn, -, hdate⟩ := ofDays_eq days
  obtain ⟨hyear, hleap⟩ := dayOfYear_spec hn era
  have hcalendar := ofDayOfYear_valid hyear hleap
  rw [← hdate] at hcalendar
  exact ⟨hfirst, hlast, hcalendar⟩

end Days

end EntityCache.Date
