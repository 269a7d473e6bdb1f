import EntityCache.Proofs.CacheIndex
import EntityCache.Proofs.KeyTexts
import Mathlib

/-! When two keys are one. A group tells keys apart by their joined texts, which is meant to be
the same as telling their values apart. Values that agree always make one key. The other way
round it takes values that are comparable under the types of their properties, as those are
that the types accept, and texts that leave the delimiters legible. -/
namespace EntityCache

namespace Cache

variable {c : Cache} {name key other : String} {slot : Nat}

/-- An indexed slot has one key. -/
theorem Indexed.slot?_eq_iff (hi : c.Indexed) (h : c.slot? name key = some slot) :
    c.slot? name other = some slot ↔ key = other := by
  obtain ⟨id, hs⟩ := hi.live h
  have hkey := (hi.current hs key).mp h
  rw [hi.current hs, hkey]
  exact ⟨Except.ok.inj, congrArg Except.ok⟩

end Cache

namespace EntityKey

/-- What two keys hold for one key property, brought to its type. -/
structure Part where
  dataType : DataType
  left : Value
  right : Value

namespace Part

def Comparable (p : Part) : Prop := Value.Comparable p.dataType p.left p.right

def Agrees (p : Part) : Prop := p.left.Agrees p.right

def Legible (p : Part) : Prop :=
  EntityKey.Legible p.left.keyText ∧ EntityKey.Legible p.right.keyText

/-- The first value is of the type, and the second is too or could not be brought to it: a
text under a type of numbers, truth values or identifiers, or a fraction under a type of
integers. -/
def Meets (d : DataType) (v w : Value) : Prop :=
  (d.accepts v ∧ v.isNull = false) ∧
    (d.accepts w ∧ w.isNull = false ∨
      w.isText ∧ (d.isNumeric ∨ d = .boolean ∨ d = .guid) ∨ w.isFloat ∧ d.isInteger)

/-- One of the values is of the type, and the other as close to it as coercion goes. -/
def Typed (p : Part) : Prop :=
  p.dataType ≠ .undefined ∧ (Meets p.dataType p.left p.right ∨ Meets p.dataType p.right p.left)

instance (p : Part) : Decidable p.Comparable := inferInstanceAs (Decidable (Value.Comparable ..))

instance (p : Part) : Decidable p.Agrees := inferInstanceAs (Decidable (Value.Agrees ..))

instance (p : Part) : Decidable p.Legible := inferInstanceAs (Decidable (_ ∧ _))

end Part

section Identity

variable {t : EntityType} {vs ws : List Value}

def parts (t : EntityType) (vs ws : List Value) : List Part :=
  List.zipWith (fun p (vw : Value × Value) =>
    ⟨p.dataType, p.dataType.coerce vw.1, p.dataType.coerce vw.2⟩) t.keyProperties (vs.zip ws)

theorem make_left (hvs : vs.length = t.keyProperties.length)
    (hws : ws.length = t.keyProperties.length) :
    make t vs = .ok ⟨t.name, (parts t vs ws).map Part.left⟩ := by
  have hfst : (vs.zip ws).map Prod.fst = vs := List.map_fst_zip (hvs.trans hws.symm).le
  rw [make, if_pos hvs.symm, parts, List.map_zipWith]
  congr 2
  conv_lhs => rw [← hfst, List.zipWith_map_right]

theorem make_right (hvs : vs.length = t.keyProperties.length)
    (hws : ws.length = t.keyProperties.length) :
    make t ws = .ok ⟨t.name, (parts t vs ws).map Part.right⟩ := by
  have hsnd : (vs.zip ws).map Prod.snd = ws := List.map_snd_zip (hws.trans hvs.symm).le
  rw [make, if_pos hws.symm, parts, List.map_zipWith]
  congr 2
  conv_lhs => rw [← hsnd, List.zipWith_map_right]

theorem coerced_of_mem {p : Part} (h : p ∈ parts t vs ws) :
    p.dataType.coerce p.left = p.left ∧ p.dataType.coerce p.right = p.right := by
  obtain ⟨i, hi, rfl⟩ := List.mem_iff_getElem.mp h
  simp [parts]

theorem Part.comparable_of_meets {d : DataType} {v w : Value} (hd : d ≠ .undefined)
    (hv : d.coerce v = v) (hw : d.coerce w = w) (h : Meets d v w) : Value.Comparable d v w := by
  obtain ⟨⟨hav, hnv⟩, ⟨haw, hnw⟩ | ⟨htext, hd'⟩ | ⟨hfloat, hinteger⟩⟩ := h
  · exact Value.comparable_of_accepts hd hv hw hav haw hnv hnw
  · exact (Value.comparable_of_unread hd' htext hv hav hnv).symm
  · exact (Value.comparable_of_unconverted hinteger hw hfloat hav hnv).symm

theorem comparable_of_typed {p : Part} (hp : p ∈ parts t vs ws) (h : p.Typed) :
    p.Comparable := by
  obtain ⟨hleft, hright⟩ := coerced_of_mem hp
  rcases h with ⟨hd, hmeets | hmeets⟩
  · exact Part.comparable_of_meets hd hleft hright hmeets
  · exact (Part.comparable_of_meets hd hright hleft hmeets).symm

theorem same_iff_inGroup {k l : EntityKey} (h : k.typeName = l.typeName) :
    k.same l ↔ k.inGroup = l.inGroup := by
  simp [same, h]

/-- One text for each part makes one text for the whole, delimiters or not. -/
theorem inGroup_congr (n : String) {ps : List Part}
    (h : ∀ p ∈ ps, p.left.keyText = p.right.keyText) :
    inGroup ⟨n, ps.map Part.left⟩ = inGroup ⟨n, ps.map Part.right⟩ := by
  rw [inGroup, inGroup, List.map_map, List.map_map]
  exact congrArg delimiter.intercalate (List.map_congr_left h)

/-- Texts whose delimiters are legible are one exactly if each part has one text. -/
theorem inGroup_eq_iff (n : String) {ps : List Part} (h : ∀ p ∈ ps.dropLast, p.Legible) :
    inGroup ⟨n, ps.map Part.left⟩ = inGroup ⟨n, ps.map Part.right⟩ ↔
      ∀ p ∈ ps, p.left.keyText = p.right.keyText := by
  refine ⟨fun heq => ?_, inGroup_congr n⟩
  rw [inGroup, inGroup, List.map_map, List.map_map] at heq
  have htexts := delimiter_intercalate_inj (by simp) (fun s hs => ?_) (fun s hs => ?_) heq
  · exact List.map_inj_left.mp htexts
  · rw [← List.map_dropLast] at hs
    obtain ⟨p, hp, rfl⟩ := List.mem_map.mp hs
    exact (h p hp).1
  · rw [← List.map_dropLast] at hs
    obtain ⟨p, hp, rfl⟩ := List.mem_map.mp hs
    exact (h p hp).2

/-- Two complete lists of values make two keys that are one exactly if they have one text in
the group, and then the slot of one is the slot of the other. They are one if the values
agree; and only then, if each two values are comparable and the delimiters of the texts
legible. Values of the types of their properties are comparable. -/
theorem make_same_iff (hvs : vs.length = t.keyProperties.length)
    (hws : ws.length = t.keyProperties.length) :
    ∃ k l, make t vs = .ok k ∧ make t ws = .ok l ∧ (k.same l ↔ k.inGroup = l.inGroup) ∧
      ((∀ p ∈ parts t vs ws, p.Agrees) → k.same l) ∧
      ((∀ p ∈ parts t vs ws, p.Comparable) → (∀ p ∈ (parts t vs ws).dropLast, p.Legible) →
        (k.same l ↔ ∀ p ∈ parts t vs ws, p.Agrees)) ∧
      (∀ p ∈ parts t vs ws, p.Typed → p.Comparable) ∧
      ∀ (c : Cache) (slot : Nat), c.Indexed → c.slot? t.name k.inGroup = some slot →
        (c.slot? t.name l.inGroup = some slot ↔ k.same l) := by
  refine ⟨_, _, make_left hvs hws, make_right hvs hws, same_iff_inGroup rfl,
    fun hagree => ?_, fun hcomparable hlegible => ?_, fun _ => comparable_of_typed,
    fun c slot hi hk => ?_⟩
  · exact (same_iff_inGroup (by rfl)).mpr (inGroup_congr t.name fun p hp =>
      Value.keyText_of_agrees p.left (hagree p hp).1 (hagree p hp).2)
  · refine (same_iff_inGroup (by rfl)).trans ((inGroup_eq_iff t.name hlegible).trans ?_)
    refine forall₂_congr fun p hp => ?_
    obtain ⟨hleft, hright⟩ := coerced_of_mem hp
    exact Value.keyText_eq_iff hleft hright (hcomparable p hp)
  · exact (hi.slot?_eq_iff hk).trans (same_iff_inGroup (by rfl)).symm

end Identity

section Samples

def keyProperty (name : String) (d : DataType) : DataProperty :=
  { name := name, dataType := d, isKey := true }

def reading : EntityType where
  name := "Reading"
  dataProperties := [keyProperty "meter" .string, keyProperty "time" .dateTime,
    keyProperty "amount" .double]

def typedIn : List Value := [.text "a:b", .text "1970-01-01T00:00:00.5Z", .text "0.50"]

def received : List Value :=
  [.text "a:b", .dateTimeOffset ⟨0, 500000000⟩ 60, .float ⟨0x3FE0000000000000⟩]

theorem reading_identified :
    ∃ k l, make reading typedIn = .ok k ∧ make reading received = .ok l ∧ k.same l := by
  have htyped : typedIn.length = reading.keyProperties.length := by decide
  have hreceived : received.length = reading.keyProperties.length := by decide
  have hcomparable : ∀ p ∈ parts reading typedIn received, p.Comparable := by decide +kernel
  have hlegible : ∀ p ∈ (parts reading typedIn received).dropLast, p.Legible := by decide +kernel
  obtain ⟨k, l, hk, hl, -, -, hsame, -⟩ := make_same_iff htyped hreceived
  exact ⟨k, l, hk, hl, (hsame hcomparable hlegible).mpr (by decide +kernel)⟩

def pair : EntityType where
  name := "Pair"
  dataProperties := [keyProperty "a" .string, keyProperty "b" .string]

def amount : EntityType where
  name := "Amount"
  dataProperties := [keyProperty "id" .double]

def day : EntityType where
  name := "Day"
  dataProperties := [keyProperty "id" .dateTime]

/-- A delimiter in a text joins two keys, and so does a text that is no date where it looks
like the milliseconds of one; the sign of zero separates a key from itself. -/
theorem identity_inexact :
    (∃ k l, make pair [.text "x:::y", .text "z"] = .ok k ∧
      make pair [.text "x", .text "y:::z"] = .ok l ∧
      k.same l ∧ ¬ List.Forall₂ (fun v w => v.same w) k.values l.values) ∧
    (∃ k l, make amount [.float Binary64.zero] = .ok k ∧
      make amount [.float Binary64.zero.negate] = .ok l ∧
      ¬ k.same l ∧ List.Forall₂ (fun v w => v.same w) k.values l.values) ∧
    (∃ k l, make day [.integer 5] = .ok k ∧ make day [.text "5"] = .ok l ∧
      k.same l ∧ ¬ List.Forall₂ (fun v w => v.same w) k.values l.values) := by
  refine ⟨⟨_, _, rfl, rfl, ?_, ?_⟩, ⟨_, _, rfl, rfl, ?_, ?_⟩, ⟨_, _, rfl, rfl, ?_, ?_⟩⟩
  all_goals decide +kernel

end Samples

end EntityKey

end EntityCache
