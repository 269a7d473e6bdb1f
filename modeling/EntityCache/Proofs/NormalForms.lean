import EntityCache.Proofs.Coercion
import EntityCache.Scalar.Literal

/-! Coercion as a normalisation. What coercion makes of a value is its normal form under the
type. Bringing it there again changes nothing, the strict check passes the normal form or
nothing, and a filter and a document are given the same for a value as for its normal form. -/
namespace EntityCache

namespace DataType

variable {d : DataType} {v w : Value}

theorem validate_coerce (d : DataType) (v : Value) : d.validate (d.coerce v) = d.validate v := by
  simp only [validate, coerce_coerce]

theorem validate_eq_ok_iff :
    d.validate v = .ok w ↔ w = d.coerce v ∧ d.validate w = .ok w := by
  constructor
  · intro h
    obtain ⟨rfl, -⟩ := validate_ok h
    exact ⟨rfl, (validate_coerce d v).trans h⟩
  · rintro ⟨rfl, h⟩
    exact (validate_coerce d v).symm.trans h

theorem toJson_single (hv : ∀ items, v ≠ .list items) : d.toJson v = scalarJson (d.coerce v) := by
  cases v with
  | list items => exact absurd rfl (hv items)
  | _ => rfl

theorem toJson_coerce (d : DataType) (v : Value) : d.toJson (d.coerce v) = d.toJson v := by
  by_cases hv : ∀ items, v ≠ .list items
  · rw [toJson_single (coerce_ne_list hv), toJson_single hv, coerce_coerce]
  · obtain ⟨items, rfl⟩ : ∃ items, v = .list items := by simpa using hv
    rw [coerce_list]

/-- A single value has the literal of its normal form, if the strict check passes it. -/
theorem odataLiteral_single (hd : d ≠ undefined) (hnull : v.isNull = false)
    (hv : ∀ items, v ≠ .list items) : d.odataLiteral v = (d.validate v).map d.literalText := by
  cases v with
  | null => cases hnull
  | list items => exact absurd rfl (hv items)
  | _ => simp only [odataLiteral, if_neg hd]

theorem odataLiteral_coerce (d : DataType) (v : Value) :
    d.odataLiteral (d.coerce v) = d.odataLiteral v := by
  by_cases hd : d = undefined
  · rw [hd, coerce_undefined]
  by_cases hv : ∀ items, v ≠ .list items
  · cases hnull : v.isNull with
    | true => rw [Value.eq_null_of_isNull hnull, coerce_null]
    | false =>
      have hcoerced : (d.coerce v).isNull = false := (isNull_coerce d v).trans hnull
      rw [odataLiteral_single hd hcoerced (coerce_ne_list hv),
        odataLiteral_single hd hnull hv, validate_coerce]
  · obtain ⟨items, rfl⟩ : ∃ items, v = .list items := by simpa using hv
    rw [coerce_list]

/-- Coercion settles a value, and neither the strict check nor what is written for a value can
tell whether it has been coerced before. -/
theorem coercion_normalises (d : DataType) (v : Value) :
    d.coerce (d.coerce v) = d.coerce v ∧
      (∀ w, d.validate v = .ok w ↔ w = d.coerce v ∧ d.validate w = .ok w) ∧
      d.toJson (d.coerce v) = d.toJson v ∧
      d.odataLiteral (d.coerce v) = d.odataLiteral v :=
  ⟨coerce_coerce d v, fun _ => validate_eq_ok_iff, toJson_coerce d v, odataLiteral_coerce d v⟩

/-- The items of a list are normalised only where they are written. -/
example :
    int32.coerce (.list [.text " 42 ", .list [.text "x", .null]]) =
      .list [.text " 42 ", .list [.text "x", .null]] ∧
    int32.toJson (.list [.text " 42 ", .list [.text "x", .null]]) =
      .arr [.int 42, .arr [.str "x", .null]] := ⟨rfl, by rfl⟩

end DataType

end EntityCache
