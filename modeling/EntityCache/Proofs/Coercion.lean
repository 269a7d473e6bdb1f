import EntityCache.Scalar.Coercion

/-! Coercion settles a value. It hands the value back, or makes one of the kind that the type
is for, and a value of that kind it leaves alone. So a second coercion changes nothing: keys,
cascades and literals rely on it, as they bring the same value to its type on several routes. -/
namespace EntityCache

/-- A type, up to the size of its numbers. -/
def Value.family (d : DataType) : DataType :=
  if d.isInteger then .int32 else if d.isFloat then .double else d

theorem Value.eq_null_of_isNull {v : Value} (h : v.isNull) : v = .null := by
  cases v with
  | null => rfl
  | _ => cases h

namespace DataType

theorem coerceToInteger_cases (v : Value) :
    coerceToInteger v = v ∨ ∃ i, coerceToInteger v = .integer i := by
  cases v with
  | text s => cases h : Number.int64? (Text.trimChars s.toList) <;> simp [coerceToInteger, h]
  | float x => cases h : x.isIntegral <;> simp [coerceToInteger, h]
  | _ => exact Or.inl rfl

theorem coerceToFloat_cases (v : Value) :
    coerceToFloat v = v ∨ ∃ x, coerceToFloat v = .float x := by
  cases v with
  | text s => cases h : Number.double? (Text.trimChars s.toList) <;> simp [coerceToFloat, h]
  | integer i => exact Or.inr ⟨_, rfl⟩
  | _ => exact Or.inl rfl

theorem coerceToBoolean_cases (v : Value) :
    coerceToBoolean v = v ∨ ∃ b, coerceToBoolean v = .boolean b := by
  cases v with
  | text s =>
    cases ht : Text.sameIgnoringCase s "true" <;>
      cases hf : Text.sameIgnoringCase s "false" <;> simp [coerceToBoolean, ht, hf]
  | _ => exact Or.inl rfl

theorem coerceToDateTime_cases (v : Value) :
    coerceToDateTime v = v ∨ ∃ t, coerceToDateTime v = .dateTime t := by
  cases v with
  | text s => cases h : instantOfText? s <;> simp [coerceToDateTime, h]
  | integer i => cases h : Instant.ofMillis? i.toInt <;> simp [coerceToDateTime, h]
  | dateTimeOffset t offset => exact Or.inr ⟨t, rfl⟩
  | _ => exact Or.inl rfl

theorem coerceToDateTimeOffset_cases (v : Value) : coerceToDateTimeOffset v = v ∨
    ∃ t offset, coerceToDateTimeOffset v = .dateTimeOffset t offset := by
  cases v with
  | text s =>
    cases h : Rfc3339.parse? s.toList with
    | some p => simp [coerceToDateTimeOffset, h]
    | none => cases hl : LaxTimestamp.parse? s.toList <;> simp [coerceToDateTimeOffset, h, hl]
  | dateTime t => exact Or.inr ⟨t, 0, rfl⟩
  | _ => exact Or.inl rfl

theorem coerce_of_isInteger {d : DataType} (h : d.isInteger) (v : Value) :
    d.coerce v = coerceToInteger v := by
  cases d with
  | int16 | int32 | int64 | byte => cases v <;> rfl
  | _ => cases h

theorem coerce_of_isFloat {d : DataType} (h : d.isFloat) (v : Value) :
    d.coerce v = coerceToFloat v := by
  cases d with
  | decimal | double | single => cases v <;> rfl
  | _ => cases h

theorem coerce_boolean (v : Value) : boolean.coerce v = coerceToBoolean v := by
  cases v <;> rfl

theorem coerce_dateTime (v : Value) : dateTime.coerce v = coerceToDateTime v := by
  cases v <;> rfl

theorem coerce_dateTimeOffset (v : Value) :
    dateTimeOffset.coerce v = coerceToDateTimeOffset v := by
  cases v <;> rfl

@[simp] theorem coerce_null (d : DataType) : d.coerce .null = .null := by
  cases d <;> rfl

@[simp] theorem coerce_list (d : DataType) (items : List Value) :
    d.coerce (.list items) = .list items := by
  cases d <;> rfl

@[simp] theorem coerce_undefined (v : Value) : undefined.coerce v = v := by
  cases v <;> rfl

/-- A value is handed back as it is, or it becomes one of the kind that the type is for. -/
theorem coerce_cases (d : DataType) (v : Value) :
    d.coerce v = v ∨ ofValue (d.coerce v) = Value.family d := by
  by_cases hi : d.isInteger
  · rw [coerce_of_isInteger hi, Value.family, if_pos hi]
    rcases coerceToInteger_cases v with h | ⟨i, h⟩
    · exact Or.inl h
    · exact Or.inr (by rw [h]; rfl)
  by_cases hf : d.isFloat
  · rw [coerce_of_isFloat hf, Value.family, if_neg hi, if_pos hf]
    rcases coerceToFloat_cases v with h | ⟨x, h⟩
    · exact Or.inl h
    · exact Or.inr (by rw [h]; rfl)
  cases d with
  | int16 | int32 | int64 | byte => exact absurd rfl hi
  | decimal | double | single => exact absurd rfl hf
  | boolean =>
    rw [coerce_boolean]
    rcases coerceToBoolean_cases v with h | ⟨b, h⟩
    · exact Or.inl h
    · exact Or.inr (by rw [h]; rfl)
  | dateTime =>
    rw [coerce_dateTime]
    rcases coerceToDateTime_cases v with h | ⟨t, h⟩
    · exact Or.inl h
    · exact Or.inr (by rw [h]; rfl)
  | dateTimeOffset =>
    rw [coerce_dateTimeOffset]
    rcases coerceToDateTimeOffset_cases v with h | ⟨t, offset, h⟩
    · exact Or.inl h
    · exact Or.inr (by rw [h]; rfl)
  | string =>
    cases v with
    | null => exact Or.inl rfl
    | list items => exact Or.inl rfl
    | _ => exact Or.inr rfl
  | time =>
    cases v with
    | text s =>
      by_cases h : Duration.isWellFormed s
      · exact Or.inr (by rw [coerce, if_pos h]; rfl)
      · exact Or.inl (by rw [coerce, if_neg h])
    | _ => exact Or.inl rfl
  | guid =>
    cases v with
    | text s =>
      cases h : Guid.ofChars? s.toList with
      | some g => exact Or.inr (by rw [coerce, h]; rfl)
      | none => exact Or.inl (by rw [coerce, h])
    | _ => exact Or.inl rfl
  | binary =>
    cases v with
    | text s => exact Or.inr rfl
    | _ => exact Or.inl rfl
  | undefined => exact Or.inl (coerce_undefined v)

/-- A value of the kind that the type is for is left alone. -/
theorem coerce_of_family {d : DataType} {v : Value} (h : ofValue v = Value.family d) :
    d.coerce v = v := by
  cases d with
  | undefined => exact coerce_undefined v
  | _ =>
    cases v <;> cases h
    rfl

@[simp] theorem coerce_coerce (d : DataType) (v : Value) :
    d.coerce (d.coerce v) = d.coerce v := by
  rcases coerce_cases d v with h | h
  · rw [h, h]
  · exact coerce_of_family h

theorem coerceToInteger_idem (v : Value) :
    coerceToInteger (coerceToInteger v) = coerceToInteger v := by
  have h := coerce_coerce int32 v
  rwa [coerce_of_isInteger rfl, coerce_of_isInteger rfl] at h

theorem family_ne_undefined {d : DataType} (hd : d ≠ undefined) :
    Value.family d ≠ undefined := by
  cases d <;> first | exact absurd rfl hd | decide

/-- What coercion makes of a value is neither null nor a list, unless it hands it back. -/
theorem coerce_eq_or_single (d : DataType) (v : Value) :
    d.coerce v = v ∨ ofValue (d.coerce v) ≠ undefined := by
  by_cases hd : d = undefined
  · subst hd
    exact Or.inl (coerce_undefined v)
  · refine (coerce_cases d v).imp_right fun h => ?_
    rw [h]
    exact family_ne_undefined hd

theorem isNull_of_ofValue {v : Value} (h : ofValue v ≠ undefined) : v.isNull = false := by
  cases v with
  | null => exact absurd rfl h
  | _ => rfl

theorem isNull_coerce (d : DataType) (v : Value) : (d.coerce v).isNull = v.isNull := by
  rcases coerce_eq_or_single d v with h | h
  · rw [h]
  · have hv : v.isNull = false := by
      cases v with
      | null =>
        rw [coerce_null] at h
        exact absurd rfl h
      | _ => rfl
    rw [isNull_of_ofValue h, hv]

theorem coerce_eq_list_iff {d : DataType} {v : Value} {items : List Value} :
    d.coerce v = .list items ↔ v = .list items := by
  constructor
  · intro hlist
    rcases coerce_eq_or_single d v with h | h
    · rw [← h, hlist]
    · rw [hlist] at h
      exact absurd rfl h
  · rintro rfl
    exact coerce_list d items

theorem coerce_ne_list {d : DataType} {v : Value} (hv : ∀ items, v ≠ .list items) :
    ∀ items, d.coerce v ≠ .list items := by
  intro items hlist
  exact hv items (coerce_eq_list_iff.mp hlist)

/-- A value that is accepted and settled is of that kind, unless it is null. -/
theorem ofValue_of_accepts {d : DataType} {v : Value} (hd : d ≠ undefined) (haccepts : d.accepts v)
    (hv : d.coerce v = v) (hnull : v.isNull = false) : ofValue v = Value.family d := by
  cases v with
  | null => cases hnull
  | integer i =>
    -- A type of doubles accepts an integer as well, but it makes a double of it.
    have hfloat : ¬ d.isFloat := by
      intro hfloat
      rw [coerce_of_isFloat hfloat] at hv
      cases hv
    cases d <;> simp_all [accepts, isNumeric, isInteger, isFloat, ofValue, Value.family]
  | _ => cases d <;> simp_all [accepts, isInteger, isFloat, ofValue, Value.family]

theorem validate_ok {d : DataType} {raw v : Value} (h : d.validate raw = .ok v) :
    d.coerce raw = v ∧ d.accepts v = true := by
  simp only [validate] at h
  split at h
  · rename_i haccepts
    obtain rfl : d.coerce raw = v := Except.ok.inj h
    exact ⟨rfl, haccepts⟩
  · cases h

end DataType

end EntityCache
