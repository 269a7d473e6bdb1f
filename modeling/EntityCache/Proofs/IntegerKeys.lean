import EntityCache.Proofs.KeyJoins
import EntityCache.Proofs.Keys
import Mathlib

/-! Keys of integers. Their texts tell them apart: no text of an integer or of null has a
colon in it, so the parts of a key can be read off the text of the whole. -/
namespace EntityCache

section Texts

theorem colon_not_mem_repr (i : Int) : ':' ∉ i.repr.toList := by
  have hnat : ∀ n : Nat, ':' ∉ n.repr.toList := by
    intro n hmem
    rw [Nat.toList_repr] at hmem
    exact absurd (Nat.isDigit_of_mem_toDigits (by decide) (by decide) hmem) (by decide)
  rw [Int.repr_eq_if]
  split
  · exact hnat _
  · rw [String.toList_append, List.mem_append]
    rintro (hsign | hdigits)
    · revert hsign
      decide
    · exact hnat _ hdigits

theorem repr_ne_empty (i : Int) : i.repr ≠ "" := by
  rw [Int.repr_eq_if]
  split
  · exact Nat.repr_ne_empty
  · intro h
    have hlist := congrArg String.toList h
    rw [String.toList_append] at hlist
    exact absurd (List.append_eq_nil_iff.mp hlist).1 (by decide)

end Texts

namespace Value

def isIntegerOrNull : Value → Bool
  | null | integer _ => true
  | _ => false

theorem cases_of_isIntegerOrNull {v : Value} (h : v.isIntegerOrNull) :
    v = null ∨ ∃ i, v = integer i := by
  cases v <;> simp_all [isIntegerOrNull]

theorem keyText_integer (i : Int64) : (integer i).keyText = i.toInt.repr := by
  simp [keyText, display, Int.toString_eq_repr]

theorem keyText_integer_ne_empty (i : Int64) : (integer i).keyText ≠ "" := by
  rw [keyText_integer]
  exact repr_ne_empty i.toInt

theorem colon_not_mem_keyText {v : Value} (h : v.isIntegerOrNull) : ':' ∉ v.keyText.toList := by
  rcases cases_of_isIntegerOrNull h with rfl | ⟨i, rfl⟩
  · simp [keyText]
  · rw [keyText_integer]
    exact colon_not_mem_repr i.toInt

theorem keyText_inj {v w : Value} (hv : v.isIntegerOrNull) (hw : w.isIntegerOrNull)
    (h : v.keyText = w.keyText) : v = w := by
  rcases cases_of_isIntegerOrNull hv with rfl | ⟨i, rfl⟩ <;>
    rcases cases_of_isIntegerOrNull hw with rfl | ⟨j, rfl⟩
  · rfl
  · exact absurd h.symm (keyText_integer_ne_empty j)
  · exact absurd h (keyText_integer_ne_empty i)
  · rw [keyText_integer, keyText_integer, Int.repr_inj, Int64.toInt_inj] at h
    rw [h]

theorem keyText_integer_inj {i j : Int64} : (integer i).keyText = (integer j).keyText ↔ i = j :=
  ⟨fun h => integer.inj (keyText_inj rfl rfl h), fun h => by rw [h]⟩

/-- No value is the same as two integers. -/
theorem integer_unique {v : Value} {i j : Int64} (hi : v.same (integer i))
    (hj : v.same (integer j)) : i = j := by
  cases v <;> simp_all [same, Binary64.sameAsInt]

end Value

theorem DataType.coerce_integerOrNull {d : DataType} (h : d.isInteger) {v : Value}
    (hv : v.isIntegerOrNull) : d.coerce v = v := by
  rw [coerce_of_isInteger h]
  rcases Value.cases_of_isIntegerOrNull hv with rfl | ⟨i, rfl⟩ <;> rfl

theorem DataType.coerce_integer {d : DataType} (h : d.isInteger) (i : Int64) :
    d.coerce (.integer i) = .integer i := coerce_integerOrNull h rfl

namespace Entity

variable {a b e : Entity}

def IntegerKey (e : Entity) : Prop :=
  ∀ p ∈ e.type.keyProperties, p.dataType.isInteger ∧
    ∃ v, e.get? p.name = some v ∧ v.isIntegerOrNull

instance (e : Entity) : Decidable e.IntegerKey :=
  decidable_of_iff (∀ p ∈ e.type.keyProperties, p.dataType.isInteger ∧
    (e.get? p.name).any Value.isIntegerOrNull) (by simp only [IntegerKey, Option.any_eq_true])

theorem IntegerKey.keyValue (h : e.IntegerKey) {p : DataProperty}
    (hp : p ∈ e.type.keyProperties) :
    e.get? p.name = some (e.keyValue p) ∧ (e.keyValue p).isIntegerOrNull := by
  obtain ⟨htype, v, hv, hinteger⟩ := h p hp
  have hvalue : e.keyValue p = v := by
    rw [Entity.keyValue, hv, Option.getD_some, DataType.coerce_integerOrNull htype hinteger]
  rw [hvalue]
  exact ⟨hv, hinteger⟩

/-- Keys that read alike are alike. -/
theorem IntegerKey.get?_of_keyText (ha : a.IntegerKey) (hb : b.IntegerKey) (ht : a.type = b.type)
    (h : a.keyText = b.keyText) {p : DataProperty} (hp : p ∈ a.type.keyProperties) :
    a.get? p.name = b.get? p.name := by
  have hlegible : ∀ {e : Entity}, e.IntegerKey →
      ∀ s ∈ ((e.type.keyProperties.map e.keyValue).map Value.keyText).dropLast,
        EntityKey.Legible s := by
    intro e he s hs
    obtain ⟨v, hv, rfl⟩ := List.mem_map.mp (List.mem_of_mem_dropLast hs)
    obtain ⟨q, hq, rfl⟩ := List.mem_map.mp hv
    exact .of_no_colon (Value.colon_not_mem_keyText (he.keyValue hq).2)
  have htexts := EntityKey.delimiter_intercalate_inj (by simp [ht]) (hlegible ha) (hlegible hb) h
  rw [← ht, List.map_map, List.map_map] at htexts
  have hpart : (a.keyValue p).keyText = (b.keyValue p).keyText :=
    List.map_inj_left.mp htexts p hp
  obtain ⟨hgeta, hinta⟩ := ha.keyValue hp
  obtain ⟨hgetb, hintb⟩ := hb.keyValue (ht ▸ hp)
  rw [hgeta, hgetb, Value.keyText_inj hinta hintb hpart]

end Entity

end EntityCache
