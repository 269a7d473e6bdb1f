import EntityCache.Proofs.ExactIntegers
import Mathlib

/-! The text that a value has in a key. Values of one kind have one text exactly if they are
the same, the two zeros apart. Of values of different kinds the texts differ where one has not
the look of the other, and where one of the values is a text that its type could not read;
other texts can be mistaken for those of numbers. -/
namespace EntityCache

namespace Guid

theorem text_inj {g h : Guid} : g.text = h.text ↔ g = h := by
  refine ⟨fun heq => ?_, fun heq => by rw [heq]⟩
  have hread := ofChars?_text g
  rw [heq, ofChars?_text] at hread
  exact (Option.some.inj hread).symm

end Guid

/-- How values are written in a key: numbers and timestamps with digits that only a sign can
stand before, identifiers with hyphens inside, and what has a text of its own in any way. -/
inductive Manner where
  | empty
  | word
  | numeral
  | grouped
  | free
  deriving DecidableEq, Repr

namespace Manner

def isNumeral (c : Char) : Bool := c.isDigit || ['-', '.', 'i', 'n', 'f', 'N', 'a'].contains c

def of (s : String) : Manner :=
  if s = "" then empty
  else if s = "true" ∨ s = "false" then word
  else if '-' ∈ s.toList.tail then grouped
  else if s.toList.all isNumeral then numeral
  else free

theorem of_numeral {s : String} (hne : s ≠ "") (htail : '-' ∉ s.toList.tail)
    (hall : ∀ c ∈ s.toList, isNumeral c = true) : of s = numeral := by
  have hnoword : ¬ (s = "true" ∨ s = "false") := by
    rintro (rfl | rfl)
    · exact absurd (hall 'e' (by decide)) (by decide)
    · exact absurd (hall 'e' (by decide)) (by decide)
  rw [of, if_neg hne, if_neg hnoword, if_neg htail, if_pos (List.all_eq_true.mpr hall)]

theorem isNumeral_of_isDigit {c : Char} (h : c.isDigit = true) : isNumeral c = true := by
  rw [isNumeral, h, Bool.true_or]

theorem of_repr (z : Int) : of z.repr = numeral := by
  apply of_numeral
  · intro h
    cases z with
    | ofNat n => exact Nat.repr_ne_empty h
    | negSucc n => simpa [Int.repr] using congrArg String.toList h
  · intro h
    cases z with
    | ofNat n =>
      rw [Int.repr, Nat.toList_repr] at h
      exact absurd (Binary64.isDigit_of_mem_toDigits (List.mem_of_mem_tail h)) (by decide)
    | negSucc n =>
      rw [Int.repr, String.toList_append, Nat.toList_repr] at h
      exact absurd (Binary64.isDigit_of_mem_toDigits h) (by decide)
  · intro c hc
    rcases Number.mem_repr hc with hdigit | rfl
    · exact isNumeral_of_isDigit hdigit
    · decide

theorem of_float (x : Binary64) : of x.text = numeral := by
  cases hnan : x.isNaN with
  | true =>
    rw [Binary64.text_eq_nan_iff.mpr hnan]
    decide
  | false =>
    rw [Binary64.text_of_number hnan]
    apply of_numeral
    · exact fun h => x.body_ne_empty (String.append_eq_empty_iff.mp h).2
    · intro h
      apply Binary64.minus_not_mem_body x
      rw [String.toList_append] at h
      cases hneg : x.isNegative with
      | true => simpa [Binary64.signText, hneg] using h
      | false => exact List.mem_of_mem_tail (by simpa [Binary64.signText, hneg] using h)
    · intro c hc
      rw [String.toList_append] at hc
      rcases List.mem_append.mp hc with hsign | hbody
      · rw [Binary64.mem_signText hsign]
        decide
      · rcases Binary64.mem_body hbody with hdigit | hletter
        · exact isNumeral_of_isDigit hdigit
        · have hletters : ∀ c ∈ ['.', 'i', 'n', 'f'], isNumeral c = true := by simp [isNumeral]
          exact hletters c hletter

theorem of_guid (g : Guid) : of g.text = grouped := by
  have htext : g.text.toList = Guid.hyphenated Guid.groups g.digits := String.toList_ofList
  have hhyphen : g.text.toList.tail[7]? = some '-' := by
    rw [htext]
    rfl
  have hne : ∀ s : String, s.toList.length ≠ 36 → g.text ≠ s := by
    rintro s hs rfl
    rw [htext] at hs
    exact hs rfl
  have hnoword : ¬ (g.text = "true" ∨ g.text = "false") := by
    rintro (h | h)
    · exact hne _ (by decide) h
    · exact hne _ (by decide) h
  rw [of, if_neg (hne _ (by decide)), if_neg hnoword, if_pos (List.mem_of_getElem? hhyphen)]

end Manner

namespace Value

variable {v w : Value}

def manner : Value → Manner
  | null => .empty
  | boolean _ => .word
  | integer _ | float _ | dateTime _ | dateTimeOffset _ _ => .numeral
  | guid _ => .grouped
  | text _ | duration _ | binary _ | list _ => .free

theorem manner_of_keyText (h : v.manner ≠ .free) : Manner.of v.keyText = v.manner := by
  cases v with
  | null => decide
  | boolean b => cases b <;> decide
  | integer i => exact keyText_integer i ▸ Manner.of_repr i.toInt
  | float x => exact Manner.of_float x
  | dateTime t => simpa [keyText, manner, Int.toString_eq_repr] using Manner.of_repr t.epochMillis
  | dateTimeOffset t offset =>
    simpa [keyText, manner, Int.toString_eq_repr] using Manner.of_repr t.epochMillis
  | guid g => exact Manner.of_guid g
  | text _ | duration _ | binary _ | list _ => exact absurd rfl h

/-- The text of the first does not have the look of the second. -/
def Unlike (v w : Value) : Prop := w.manner ≠ .free ∧ Manner.of v.keyText ≠ w.manner

instance (v w : Value) : Decidable (v.Unlike w) := inferInstanceAs (Decidable (_ ∧ _))

theorem Unlike.keyText_ne (h : v.Unlike w) : v.keyText ≠ w.keyText := by
  intro heq
  apply h.2
  rw [heq, manner_of_keyText h.1]

/-- Values of one kind, as far as keys go: a timestamp is the same with and without its
offset. Lists are of no kind, because the texts of their items run together. -/
def OfOneKind : Value → Value → Prop
  | null, null | boolean _, boolean _ | integer _, integer _ | float _, float _ | text _, text _
  | duration _, duration _ | guid _, guid _ | binary _, binary _ | dateTime _, dateTime _
  | dateTime _, dateTimeOffset _ _ | dateTimeOffset _ _, dateTime _
  | dateTimeOffset _ _, dateTimeOffset _ _ => True
  | _, _ => False

instance (v w : Value) : Decidable (v.OfOneKind w) := by
  unfold OfOneKind
  split <;> infer_instance

/-- The integer whose digits a key has for a value. A double has such if it is no larger than
what is written exactly, the zero with a sign apart. -/
def digits? : Value → Option Int
  | integer i => some i.toInt
  | float x =>
    if x = Binary64.ofInt x.truncate ∧ x.truncate.natAbs < 2 ^ 53 then some x.truncate else none
  | dateTime t | dateTimeOffset t _ => some t.epochMillis
  | _ => none

theorem digits?_float {x : Binary64} {z : Int} (h : (float x).digits? = some z) :
    x = Binary64.ofInt z ∧ z.natAbs < 2 ^ 53 := by
  rw [digits?, Option.ite_none_right_eq_some, Option.some.injEq] at h
  obtain ⟨hx, rfl⟩ := h
  exact hx

theorem keyText_of_digits {z : Int} (h : v.digits? = some z) : v.keyText = z.repr := by
  cases v with
  | integer i => exact Option.some.inj h ▸ keyText_integer i
  | float x =>
    obtain ⟨rfl, hz⟩ := digits?_float h
    exact Binary64.text_ofInt hz
  | dateTime t | dateTimeOffset t offset =>
    rw [← Option.some.inj h, keyText, Int.toString_eq_repr]
  | _ => cases h

mutual

/-- Values that can be the same and have two texts: zeros of opposite signs, an integer beside
a double that is not written in digits of its own, lists with such items. -/
def respelt : Value → Value → Bool
  | float x, float y => decide (x.OppositeZeros y)
  | integer _, float x | float x, integer _ => (float x).digits?.isNone
  | list vs, list ws => anyRespelt vs ws
  | _, _ => false

def anyRespelt : List Value → List Value → Bool
  | v :: vs, w :: ws => respelt v w || anyRespelt vs ws
  | _, _ => false

end

/-- What a key takes for one value: the same, and not spelt in two ways. -/
def Agrees (v w : Value) : Prop := v.same w ∧ v.respelt w = false

instance (v w : Value) : Decidable (v.Agrees w) := inferInstanceAs (Decidable (_ ∧ _))

theorem keyText_eq_iff_of_kind (h : v.OfOneKind w) : v.keyText = w.keyText ↔ v.Agrees w := by
  unfold Agrees
  cases v <;> cases w <;> try cases h
  case boolean.boolean a b => cases a <;> cases b <;> decide
  case integer.integer a b => simp [same, respelt, keyText_integer_inj]
  case float.float a b =>
    simpa [same, respelt, keyText, display] using Binary64.text_eq_iff_comparisonBits
  case guid.guid a b => simp [same, respelt, keyText, display, Guid.text_inj]
  all_goals simp [same, respelt, keyText, display, Int.toString_eq_repr, Int.repr_inj]

/-- An integer has the text of a double written in digits exactly if it is that number. -/
theorem keyText_integer_eq_float {i : Int64} {x : Binary64} {z : Int}
    (h : (float x).digits? = some z) :
    (integer i).keyText = (float x).keyText ↔ x.sameAsInt i := by
  obtain ⟨rfl, hz⟩ := digits?_float h
  have hfinite := (Binary64.toRat_ofInt (i := z) (by omega)).1
  rw [keyText_integer, keyText_of_digits h, Int.repr_inj, Binary64.sameAsInt_iff_toRat hfinite,
    Binary64.toRat_ofInt_of_lt hz]
  constructor
  · rintro rfl
    exact Or.inl rfl
  · rintro (heq | ⟨-, heq⟩)
    · exact_mod_cast heq.symm
    · have hlarge : z = 2 ^ 63 := by exact_mod_cast heq
      omega

mutual

/-- Values that agree have one text. -/
theorem keyText_of_agrees : (v : Value) → {w : Value} → v.same w → v.respelt w = false →
    v.keyText = w.keyText
  | .list vs, w, hsame, hspelt => by
    cases w with
    | list ws =>
      rw [keyText, keyText, keyTexts_of_agree vs (by simpa [same] using hsame)
        (by simpa [respelt] using hspelt)]
    | _ => simp [same] at hsame
  | .integer i, w, hsame, hspelt => by
    cases w with
    | float x =>
      obtain ⟨z, hz⟩ := Option.isSome_iff_exists.mp (Option.isNone_eq_false_iff.mp hspelt)
      exact (keyText_integer_eq_float hz).mpr hsame
    | integer j =>
      exact (keyText_eq_iff_of_kind (by trivial)).mpr ⟨hsame, hspelt⟩
    | _ => simp [same] at hsame
  | .float x, w, hsame, hspelt => by
    cases w with
    | integer i =>
      obtain ⟨z, hz⟩ := Option.isSome_iff_exists.mp (Option.isNone_eq_false_iff.mp hspelt)
      exact ((keyText_integer_eq_float hz).mpr hsame).symm
    | float y =>
      exact (keyText_eq_iff_of_kind (by trivial)).mpr ⟨hsame, hspelt⟩
    | _ => simp [same] at hsame
  | .null, w, hsame, hspelt | .boolean _, w, hsame, hspelt | .text _, w, hsame, hspelt
  | .dateTime _, w, hsame, hspelt | .dateTimeOffset _ _, w, hsame, hspelt
  | .duration _, w, hsame, hspelt | .guid _, w, hsame, hspelt | .binary _, w, hsame, hspelt => by
    cases w <;> exact (keyText_eq_iff_of_kind (by trivial)).mpr ⟨hsame, hspelt⟩

theorem keyTexts_of_agree : (vs : List Value) → {ws : List Value} → sameItems vs ws →
    anyRespelt vs ws = false → keyTexts vs = keyTexts ws
  | [], ws, hsame, _ => by
    cases ws with
    | nil => rfl
    | cons => simp [sameItems] at hsame
  | v :: vs, ws, hsame, hspelt => by
    cases ws with
    | nil => simp [sameItems] at hsame
    | cons w ws =>
      simp only [sameItems, Bool.and_eq_true] at hsame
      simp only [anyRespelt, Bool.or_eq_false_iff] at hspelt
      rw [keyTexts, keyTexts, keyText_of_agrees v hsame.1 hspelt.1,
        keyTexts_of_agree vs hsame.2 hspelt.2]

end

def isDate : Value → Bool
  | dateTime _ | dateTimeOffset _ _ => true
  | _ => false

def isFraction : Value → Bool
  | float x => !x.isIntegral
  | _ => false

/-- Numbers, and timestamps, that can be told apart by their digits: of different integers,
of one integer but not a number beside a timestamp, or one of them a fraction. -/
def ToldByDigits (v w : Value) : Prop :=
  match v.digits?, w.digits? with
  | some i, some j => i ≠ j ∨ v.isDate = w.isDate
  | some _, none => w.isFraction
  | none, some _ => v.isFraction
  | none, none => False

instance (v w : Value) : Decidable (v.ToldByDigits w) := by
  unfold ToldByDigits
  split <;> infer_instance

theorem keyText_ne_of_isFraction {z : Int} (hv : v.isFraction) (hw : w.digits? = some z) :
    v.keyText ≠ w.keyText := by
  cases v with
  | float x =>
    intro h
    have hintegral := Binary64.isIntegral_of_text ((show x.text = w.keyText from h).trans
      (keyText_of_digits hw))
    rw [isFraction, hintegral] at hv
    cases hv
  | _ => cases hv

theorem keyText_eq_iff_of_digits (h : v.ToldByDigits w) :
    v.keyText = w.keyText ↔ v.Agrees w := by
  refine ⟨fun heq => ?_, fun hagree => keyText_of_agrees v hagree.1 hagree.2⟩
  unfold ToldByDigits at h
  split at h
  case h_1 i j hi hj =>
    have hij : i = j := by
      rwa [keyText_of_digits hi, keyText_of_digits hj, Int.repr_inj] at heq
    have hdate := h.resolve_left fun hne => hne hij
    cases v <;> cases w <;> try cases hi
    all_goals try cases hj
    all_goals try cases hdate
    case integer.float a x =>
      exact ⟨(keyText_integer_eq_float hj).mp heq, by rw [respelt, hj]; rfl⟩
    case float.integer x a =>
      exact ⟨(keyText_integer_eq_float hi).mp heq.symm, by rw [respelt, hi]; rfl⟩
    all_goals exact (keyText_eq_iff_of_kind (by trivial)).mp heq
  case h_2 i hi hj => exact absurd heq.symm (keyText_ne_of_isFraction h hi)
  case h_3 j hi hj => exact absurd heq (keyText_ne_of_isFraction h hj)
  case h_4 => exact h.elim

def isText : Value → Bool
  | text _ => true
  | _ => false

/-- Values that can be told apart by their texts once a type has been put to them: of one
kind, told apart by their digits, unlike each other, or one of them a text although the type
can read what is written for the other. -/
def Comparable (d : DataType) (v w : Value) : Prop :=
  v.OfOneKind w ∨ v.ToldByDigits w ∨ v.Unlike w ∨ w.Unlike v ∨ (v.isText ∧ d.reads w.keyText) ∨
    (w.isText ∧ d.reads v.keyText)

instance (d : DataType) (v w : Value) : Decidable (Comparable d v w) :=
  inferInstanceAs (Decidable (_ ∨ _ ∨ _ ∨ _ ∨ _ ∨ _))

/-- A text that the type has left as it is, is not what is written for a value it reads. -/
theorem keyText_ne_of_unread {d : DataType} (hv : d.coerce v = v) (htext : v.isText)
    (hw : d.reads w.keyText) : v.keyText ≠ w.keyText := by
  cases v with
  | text s =>
    intro h
    have hs : d.reads s = true := (show s = w.keyText from h) ▸ hw
    exact Bool.false_ne_true ((DataType.not_reads_of_coerce hv).symm.trans hs)
  | _ => cases htext

theorem keyText_eq_iff {d : DataType} (hv : d.coerce v = v) (hw : d.coerce w = w)
    (h : Comparable d v w) : v.keyText = w.keyText ↔ v.Agrees w := by
  have hdiffer : v.keyText ≠ w.keyText → (v.keyText = w.keyText ↔ v.Agrees w) := fun hne =>
    iff_of_false hne fun hagree => hne (keyText_of_agrees v hagree.1 hagree.2)
  rcases h with hkind | hdigits | hunlike | hunlike | ⟨htext, hread⟩ | ⟨htext, hread⟩
  · exact keyText_eq_iff_of_kind hkind
  · exact keyText_eq_iff_of_digits hdigits
  · exact hdiffer hunlike.keyText_ne
  · exact hdiffer hunlike.keyText_ne.symm
  · exact hdiffer (keyText_ne_of_unread hv htext hread)
  · exact hdiffer (keyText_ne_of_unread hw htext hread).symm

theorem Comparable.symm {d : DataType} (h : Comparable d v w) : Comparable d w v := by
  rcases h with hkind | hdigits | hunlike | hunlike | hread | hread
  · refine Or.inl ?_
    cases v <;> cases w <;> trivial
  · refine Or.inr (Or.inl ?_)
    unfold ToldByDigits at hdigits ⊢
    cases hv : v.digits? <;> cases hw : w.digits? <;> simp only [hv, hw] at hdigits ⊢
    · exact hdigits
    · exact hdigits
    · exact hdigits.imp Ne.symm Eq.symm
  · exact .inr (.inr (.inr (.inl hunlike)))
  · exact .inr (.inr (.inl hunlike))
  · exact .inr (.inr (.inr (.inr (.inr hread))))
  · exact .inr (.inr (.inr (.inr (.inl hread))))

theorem ofOneKind_of_ofValue (h : DataType.ofValue v = DataType.ofValue w)
    (hv : DataType.ofValue v ≠ .undefined) : v.OfOneKind w := by
  cases v <;> cases w <;> trivial

/-- What a type accepts is comparable. -/
theorem comparable_of_accepts {d : DataType} (hd : d ≠ .undefined) (hv : d.coerce v = v)
    (hw : d.coerce w = w) (hav : d.accepts v) (haw : d.accepts w) (hnv : v.isNull = false)
    (hnw : w.isNull = false) : Comparable d v w := by
  have hfamily := DataType.ofValue_of_accepts hd hav hv hnv
  have hsame := hfamily.trans (DataType.ofValue_of_accepts hd haw hw hnw).symm
  refine Or.inl (ofOneKind_of_ofValue hsame ?_)
  rw [hfamily, family]
  split
  · decide
  · split
    · decide
    · exact hd

/-- So is a text that a type of numbers, truth values or identifiers could not read. -/
theorem comparable_of_unread {d : DataType} (hd : d.isNumeric ∨ d = .boolean ∨ d = .guid)
    (htext : v.isText) (hw : d.coerce w = w) (haw : d.accepts w) (hnw : w.isNull = false) :
    Comparable d v w :=
  .inr (.inr (.inr (.inr (.inl ⟨htext, DataType.reads_keyText hd haw hw hnw⟩))))

def isFloat : Value → Bool
  | float _ => true
  | _ => false

/-- So is a double that a type of integers could not convert. -/
theorem comparable_of_unconverted {d : DataType} (hd : d.isInteger) (hv : d.coerce v = v)
    (hfloat : v.isFloat) (haw : d.accepts w) (hnw : w.isNull = false) : Comparable d v w := by
  have hfraction : v.isFraction := by
    cases v with
    | float x =>
      rw [DataType.coerce_of_isInteger hd, DataType.coerceToInteger] at hv
      split at hv
      · cases hv
      · simpa [isFraction] using ‹¬ x.isIntegral›
    | _ => cases hfloat
  have hnone : v.digits? = none := by
    by_contra hsome
    obtain ⟨z, hz⟩ := Option.ne_none_iff_exists'.mp hsome
    exact keyText_ne_of_isFraction hfraction hz rfl
  obtain ⟨j, rfl⟩ : ∃ j, w = integer j := by
    cases w <;> cases d <;>
      simp_all [DataType.accepts, DataType.isInteger, DataType.isFloat, isNull]
  refine Or.inr (Or.inl ?_)
  rw [ToldByDigits, hnone]
  exact hfraction

end Value

end EntityCache
