import EntityCache.Proofs.HashedValues
import EntityCache.Proofs.WrittenTimestamps
import EntityCache.Scalar.Literal

/-! Values sent and received again. JSON has no form of its own for timestamps, durations,
identifiers and binary data, so they travel as text; the type of the property reads the text
back, and the value is the one that was sent. -/
namespace EntityCache

namespace Value

/-- JSON can carry the value: a number is finite, a duration is well-formed, and a timestamp has
a year of four digits. The bounds on its nanoseconds, those of a leap second included, and on
its offset, less than a day, are those of every timestamp. -/
def IsPortable : Value → Prop
  | float x => x.isFinite
  | duration s => Duration.isWellFormed s
  | dateTime t => t.nanos < 2000000000 ∧ Rfc3339.HasFourDigitYear t 0
  | dateTimeOffset t offset =>
    t.nanos < 2000000000 ∧ Rfc3339.HasFourDigitYear t offset ∧ offset.natAbs < 1440
  | _ => True

end Value

namespace DataType

variable {d : DataType} {v w : Value}

theorem coerce_utcText {t : Instant} (hw : (Value.dateTime t).IsPortable) :
    (dateTime.coerce (.text (Rfc3339.utcText t))).same (.dateTime t) := by
  obtain ⟨hnanos, hyear⟩ := hw
  obtain ⟨t', hread, hmillis⟩ := Rfc3339.parse?_utcText hnanos hyear
  rw [coerce_dateTime]
  simp only [coerceToDateTime, instantOfText?, hread]
  exact beq_iff_eq.mpr hmillis

theorem coerce_localText {t : Instant} {offset : Int}
    (hw : (Value.dateTimeOffset t offset).IsPortable) :
    (dateTimeOffset.coerce (.text (Rfc3339.localText t offset))).same
      (.dateTimeOffset t offset) := by
  obtain ⟨hnanos, hyear, hoffset⟩ := hw
  obtain ⟨t', hread, hmillis⟩ := Rfc3339.parse?_localText hnanos hyear hoffset
  rw [coerce_dateTimeOffset]
  simp only [coerceToDateTimeOffset, hread]
  exact beq_iff_eq.mpr hmillis

theorem same_of_ofJson (hsettled : d.coerce w = w) (h : Value.ofJson (scalarJson w) = w) :
    (d.coerce (.ofJson (scalarJson w))).same w := by
  rw [h, hsettled]
  exact Value.same_self w

theorem coerce_scalarJson (hd : d ≠ undefined) (haccepts : d.accepts w) (hsettled : d.coerce w = w)
    (hw : w.IsPortable) : (d.coerce (.ofJson (scalarJson w))).same w := by
  have hundefined : (d == undefined) = false := beq_eq_false_iff_ne.mpr hd
  cases w with
  | null | boolean b => exact same_of_ofJson hsettled rfl
  | text s => exact same_of_ofJson hsettled rfl
  | integer i =>
    refine same_of_ofJson hsettled ?_
    simp only [scalarJson, Value.ofJson, Json.int64?, Number.toInt64?_toInt]
  | float x =>
    have hfinite : x.isFinite := hw
    refine same_of_ofJson hsettled ?_
    simp only [scalarJson, if_pos hfinite, Value.ofJson]
  | dateTime t =>
    obtain rfl : d = dateTime := by simpa [accepts, hundefined] using haccepts
    exact coerce_utcText hw
  | dateTimeOffset t offset =>
    obtain rfl : d = dateTimeOffset := by simpa [accepts, hundefined] using haccepts
    exact coerce_localText hw
  | duration s =>
    obtain rfl : d = time := by simpa [accepts, hundefined] using haccepts
    have hformed : Duration.isWellFormed s := hw
    simp [scalarJson, Value.display, Value.ofJson, coerce, hformed, Value.same]
  | guid g =>
    obtain rfl : d = guid := by simpa [accepts, hundefined] using haccepts
    simp [scalarJson, Value.display, Value.ofJson, coerce, Guid.ofChars?_text, Value.same]
  | binary s =>
    obtain rfl : d = binary := by simpa [accepts, hundefined] using haccepts
    exact beq_self_eq_true s
  | list items => simp [accepts, hundefined] at haccepts

/-- A value that a type takes is the same value again when it has been sent as JSON and read. -/
theorem coerce_toJson (hd : d ≠ undefined) (h : d.validate v = .ok w) (hw : w.IsPortable) :
    (d.coerce (.ofJson (d.toJson v))).same w := by
  obtain ⟨rfl, haccepts⟩ := validate_ok h
  have hjson : d.toJson v = scalarJson (d.coerce v) := by
    cases v with
    | list items =>
      have hkept : d.coerce (.list items) = .list items := by
        cases d <;> rfl
      rw [hkept] at haccepts
      simp [accepts, hd] at haccepts
    | _ => rfl
  rw [hjson]
  exact coerce_scalarJson hd haccepts (coerce_coerce d v) hw

def leapDayText : String := "2024-02-29T23:59:59.9876+05:30"

def leapDayEnd : Value := .dateTimeOffset ⟨1709231399, 987600000⟩ 330

theorem leapDayEnd_sent_back : dateTimeOffset.validate (.text leapDayText) = .ok leapDayEnd ∧
    leapDayEnd.IsPortable ∧
      (dateTimeOffset.coerce (.ofJson (dateTimeOffset.toJson (.text leapDayText)))).same
        leapDayEnd := by
  have hread : Rfc3339.parse? leapDayText.toList = some (⟨1709231399, 987600000⟩, 330) := by
    decide +kernel
  have htaken : dateTimeOffset.validate (.text leapDayText) = .ok leapDayEnd := by
    simp [validate, coerce, coerceToDateTimeOffset, hread, accepts, leapDayEnd]
  have hportable : leapDayEnd.IsPortable := ⟨by decide, by decide, by decide⟩
  exact ⟨htaken, hportable, coerce_toJson (by decide) htaken hportable⟩

end DataType

end EntityCache
