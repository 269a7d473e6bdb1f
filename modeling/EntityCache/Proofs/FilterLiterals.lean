import EntityCache.Proofs.Coercion
import EntityCache.Proofs.FilterReader
import EntityCache.Proofs.Outcomes

/-! Literals of a filter as operands. Whatever its value is, a literal is one word that is no
operator: strings are quoted, and the other texts have neither blanks nor parentheses in
them. -/
namespace EntityCache.OData

def IsOperandText (text : String) : Prop := ∃ ts, Spells text.toList ts ∧ IsOperand ts

def isForeign (c : Char) : Bool := !(operatorWords.flatMap String.toList).contains c

theorem not_operator_of_foreign {w : List Char} {c : Char} (hc : c ∈ w)
    (h : isForeign c = true) : isAmong operatorWords w = false := by
  rw [Bool.eq_false_iff]
  intro hw
  obtain ⟨s, hs, heq⟩ := List.any_eq_true.mp hw
  have hsw : s.toList = w := by simpa using heq
  have hletter : c ∈ operatorWords.flatMap String.toList :=
    List.mem_flatMap.mpr ⟨s, hs, hsw ▸ hc⟩
  simp only [isForeign, Bool.not_eq_true', Bool.eq_false_iff] at h
  exact h (List.contains_iff_mem.mpr hletter)

structure IsTerm (w : List Char) : Prop where
  word : IsWord w
  foreign : w.any isForeign = true

namespace IsTerm

theorem of_mem {w : List Char} (hword : IsWord w) {c : Char} (hc : c ∈ w)
    (hforeign : isForeign c = true) : IsTerm w :=
  ⟨hword, List.any_eq_true.mpr ⟨c, hc, hforeign⟩⟩

theorem of_plain {w : List Char} (hplain : w.all isPlain = true)
    (hforeign : w.any isForeign = true) : IsTerm w :=
  ⟨IsWord.of_plain hplain, hforeign⟩

theorem ne_nil {w : List Char} (h : IsTerm w) : w ≠ [] := by
  rintro rfl
  exact Bool.false_ne_true h.foreign

theorem operand {text : String} (h : IsTerm text.toList) : IsOperandText text := by
  obtain ⟨c, hc, hforeign⟩ := List.any_eq_true.mp h.foreign
  exact ⟨_, Spells.word h.word h.ne_nil, .word (not_operator_of_foreign hc hforeign)⟩

theorem append {a b : List Char} (ha : IsTerm a) (hb : IsWord b) : IsTerm (a ++ b) := by
  constructor
  · exact ha.word.append hb
  · rw [List.any_append, ha.foreign, Bool.true_or]

theorem prepend {a b : List Char} (ha : IsWord a) (hb : IsTerm b) : IsTerm (a ++ b) := by
  constructor
  · exact ha.append hb.word
  · rw [List.any_append, hb.foreign, Bool.or_true]

theorem string {body : List Char} (h : '\x27' ∉ body) : IsTerm ('\x27' :: body ++ ['\x27']) :=
  of_mem (IsWord.string h) List.mem_cons_self (by decide)

theorem quote (s : String) : IsTerm (DataType.quote s).toList := by
  have hmem : '\x27' ∈ (DataType.quote s).toList := by simp [DataType.quote]
  exact of_mem (IsWord.quote s) hmem (by decide)

theorem null : IsTerm "null".toList := of_plain (by decide) (by decide)

theorem truth : IsTerm "true".toList := of_plain (by decide) (by decide)

theorem falsehood : IsTerm "false".toList := of_plain (by decide) (by decide)

end IsTerm

def isNumeral (c : Char) : Bool := c.isDigit || c == '-' || c == '.'

theorem plain_of_numeral {c : Char} (h : isNumeral c = true) : isPlain c = true :=
  not_contains_of_class (by decide) h

theorem foreign_of_numeral {c : Char} (h : isNumeral c = true) : isForeign c = true :=
  not_contains_of_class (by decide) h

theorem IsTerm.of_numerals {w : List Char} (hne : w ≠ []) (h : ∀ c ∈ w, isNumeral c = true) :
    IsTerm w := by
  have hplain : w.all isPlain = true :=
    List.all_eq_true.mpr fun c hc => plain_of_numeral (h c hc)
  obtain ⟨c, hc⟩ := List.exists_mem_of_ne_nil w hne
  exact of_mem (IsWord.of_plain hplain) hc (foreign_of_numeral (h c hc))

theorem numeral_of_mem_toDigits {n : Nat} {c : Char} (h : c ∈ Nat.toDigits 10 n) :
    isNumeral c = true := by
  simp [isNumeral, Nat.isDigit_of_mem_toDigits (by decide) (by decide) h]

/-- Zeros in front of a number do not change what it is written with. -/
theorem numeral_of_mem_padded {k n : Nat} {c : Char}
    (h : c ∈ List.replicate k '0' ++ Nat.toDigits 10 n) : isNumeral c = true := by
  rcases List.mem_append.mp h with hzero | hdigit
  · rw [List.eq_of_mem_replicate hzero]
    decide
  · exact numeral_of_mem_toDigits hdigit

theorem toDigits_term (n : Nat) : IsTerm (Nat.toDigits 10 n) :=
  IsTerm.of_numerals Nat.toDigits_ne_nil fun _ hc => numeral_of_mem_toDigits hc

theorem int_term (i : Int) : IsTerm (toString i).toList := by
  rw [Int.toString_eq_repr, Int.repr_eq_if]
  split
  · simpa [Nat.repr_eq_ofList_toDigits] using toDigits_term i.toNat
  · have hminus : IsWord ['-'] := IsWord.single (by decide)
    simpa [Nat.repr_eq_ofList_toDigits] using IsTerm.prepend hminus (toDigits_term (-i).toNat)

theorem positional_term (n : Nat) (k : Int) : IsTerm (Binary64.positional n k).toList := by
  unfold Binary64.positional
  split
  · rw [String.toList_ofList]
    have hzeros : IsWord (List.replicate k.toNat '0') := by
      apply IsWord.of_plain
      rw [List.all_eq_true]
      intro c hc
      rw [List.eq_of_mem_replicate hc]
      decide
    exact (toDigits_term n).append hzeros
  · rw [String.toList_ofList]
    apply IsTerm.of_numerals
    · simp
    · intro c hc
      rcases List.mem_append.mp hc with hfront | hback
      · exact numeral_of_mem_padded (List.mem_of_mem_take hfront)
      · rcases List.mem_cons.mp hback with rfl | hplaces
        · decide
        · exact numeral_of_mem_padded (List.mem_of_mem_drop hplaces)

theorem float_term (x : Binary64) : IsTerm x.text.toList := by
  have hsign : IsWord x.signText.toList := by
    apply IsWord.of_plain
    unfold Binary64.signText
    split <;> decide
  unfold Binary64.text
  split
  · exact IsTerm.of_plain (by decide) (by decide)
  split
  · rw [String.toList_append]
    exact IsTerm.prepend hsign (IsTerm.of_plain (by decide) (by decide))
  split
  · rw [String.toList_append]
    exact IsTerm.prepend hsign (IsTerm.of_plain (by decide) (by decide))
  · rw [String.toList_append]
    exact IsTerm.prepend hsign (positional_term _ _)

theorem numeric_display {d : DataType} {v : Value} (hd : d.isNumeric = true)
    (h : d.accepts v = true) : IsTerm v.display.toList := by
  cases v with
  | null => exact IsTerm.null
  | integer i => exact int_term i.toInt
  | float x => exact float_term x
  | _ => cases d <;> simp [DataType.accepts, DataType.isNumeric, DataType.isInteger,
      DataType.isFloat] at hd h

theorem boolean_display {v : Value} (h : DataType.boolean.accepts v = true) :
    IsTerm v.display.toList := by
  cases v with
  | null => exact IsTerm.null
  | boolean b =>
    cases b with
    | false => exact IsTerm.falsehood
    | true => exact IsTerm.truth
  | _ => simp [DataType.accepts, DataType.isNumeric, DataType.isInteger, DataType.isFloat] at h

theorem unquoted_of_numerals {w : List Char} (h : ∀ c ∈ w, isNumeral c = true) :
    '\x27' ∉ w := by
  intro hquote
  exact absurd (h _ hquote) (by decide)

theorem padded_unquoted (width n : Nat) : '\x27' ∉ (Rfc3339.padded width n).toList := by
  apply unquoted_of_numerals
  intro c hc
  rw [Rfc3339.padded, String.toList_ofList] at hc
  exact numeral_of_mem_padded hc

theorem yearText_unquoted (y : Int) : '\x27' ∉ (Rfc3339.yearText y).toList := by
  unfold Rfc3339.yearText
  split
  · exact padded_unquoted _ _
  · rw [String.toList_append, List.mem_append, not_or]
    refine ⟨?_, padded_unquoted _ _⟩
    split <;> decide

theorem readingText_unquoted (r : ClockReading) :
    '\x27' ∉ (Rfc3339.readingText r).toList := by
  simp [Rfc3339.readingText, String.toList_append, yearText_unquoted, padded_unquoted]

theorem offsetText_unquoted (offset : Int) : '\x27' ∉ (Rfc3339.offsetText offset).toList := by
  simp only [Rfc3339.offsetText, String.toList_append, List.mem_append, not_or]
  refine ⟨⟨⟨?_, padded_unquoted _ _⟩, by decide⟩, padded_unquoted _ _⟩
  split <;> decide

theorem mem_hyphenated {c : Char} (groups : List Nat) (ds : List Char)
    (h : c ∈ Guid.hyphenated groups ds) : c = '-' ∨ c ∈ ds := by
  induction groups, ds using Guid.hyphenated.induct with
  | case1 => simp [Guid.hyphenated] at h
  | case2 n ds => exact Or.inr (List.mem_of_mem_take h)
  | case3 n ns ds hns ih =>
    rw [Guid.hyphenated.eq_3 _ _ _ hns] at h
    rcases List.mem_append.mp h with hfront | hback
    · exact Or.inr (List.mem_of_mem_take hfront)
    · rcases List.mem_cons.mp hback with rfl | hrest
      · exact Or.inl rfl
      · exact (ih hrest).imp_right List.mem_of_mem_drop

theorem guid_unquoted (g : Guid) : '\x27' ∉ g.text.toList := by
  intro hq
  simp only [Guid.text, String.toList_ofList] at hq
  rcases mem_hyphenated _ _ hq with hminus | hdigit
  · exact absurd hminus (by decide)
  · obtain ⟨i, _, hi⟩ := List.mem_map.mp hdigit
    have hno : ∀ n < 16, Nat.digitChar n ≠ '\x27' := by decide
    exact hno _ (Nat.mod_lt _ (by decide)) hi

theorem quoted_display {d : DataType} {v : Value}
    (hd : d = .dateTime ∨ d = .dateTimeOffset ∨ d = .guid) (h : d.accepts v = true) :
    '\x27' ∉ v.display.toList := by
  cases v with
  | null => decide
  | dateTime t =>
    simp [Value.display, Rfc3339.utcText, String.toList_append, readingText_unquoted]
  | dateTimeOffset t offset =>
    simp [Value.display, Rfc3339.localText, String.toList_append, readingText_unquoted,
      offsetText_unquoted]
  | guid g => exact guid_unquoted g
  | _ =>
    rcases hd with rfl | rfl | rfl <;>
      simp [DataType.accepts, DataType.isNumeric, DataType.isInteger, DataType.isFloat] at h

/-- A mark in front of a text between quotes that has no quotes inside. -/
theorem marked_operand {front body : String} (mark : String)
    (hfront : front.toList = mark.toList ++ ['\x27']) (hmark : mark.toList.all isPlain = true)
    (hbody : '\x27' ∉ body.toList) : IsOperandText (front ++ body ++ "'") := by
  apply IsTerm.operand
  have hall := IsTerm.prepend (IsWord.of_plain hmark) (IsTerm.string hbody)
  simpa [hfront] using hall

theorem suffixed_operand {body suffix : String} (hbody : IsTerm body.toList)
    (hsuffix : suffix.toList.all isPlain = true) : IsOperandText (body ++ suffix) := by
  apply IsTerm.operand
  rw [String.toList_append]
  exact hbody.append (IsWord.of_plain hsuffix)

theorem literalText_operand {d : DataType} {v : Value} (htime : d ≠ .time)
    (hbinary : d ≠ .binary) (hdefined : d ≠ .undefined) (h : d.accepts v = true) :
    IsOperandText (d.literalText v) := by
  cases d with
  | string => exact (IsTerm.quote _).operand
  | int16 => exact (numeric_display rfl h).operand
  | int32 => exact (numeric_display rfl h).operand
  | byte => exact (numeric_display rfl h).operand
  | boolean => exact (boolean_display h).operand
  | int64 => exact suffixed_operand (numeric_display rfl h) (by decide)
  | decimal => exact suffixed_operand (numeric_display rfl h) (by decide)
  | double => exact suffixed_operand (numeric_display rfl h) (by decide)
  | single => exact suffixed_operand (numeric_display rfl h) (by decide)
  | dateTime =>
    exact marked_operand "datetime" (by decide) (by decide) (quoted_display (by simp) h)
  | dateTimeOffset =>
    exact marked_operand "datetimeoffset" (by decide) (by decide) (quoted_display (by simp) h)
  | guid => exact marked_operand "guid" (by decide) (by decide) (quoted_display (by simp) h)
  | time => exact absurd rfl htime
  | binary => exact absurd rfl hbinary
  | undefined => exact absurd rfl hdefined

def writtenAs (d : DataType) (v : Value) : DataType :=
  if d = .undefined then DataType.ofValue v else d

/-- Durations and binary data are written between quotes with the quotes inside as they
are, so their texts may break the string off. -/
def IsWritable (d : DataType) (v : Value) : Prop :=
  v = .null ∨ writtenAs d v ≠ .time ∧ writtenAs d v ≠ .binary

theorem odataLiteral_operand {d : DataType} {v : Value} {text : String}
    (hw : IsWritable d v) (h : d.odataLiteral v = .ok text) : IsOperandText text := by
  have hvalue : ∀ w, (writtenAs d v).validate v = .ok w → text = (writtenAs d v).literalText w →
      v ≠ .null → DataType.ofValue v ≠ .undefined → IsOperandText text := by
    rintro w hvalid rfl hne hknown
    obtain ⟨htime, hbinary⟩ := hw.resolve_left hne
    apply literalText_operand htime hbinary _ (DataType.validate_ok hvalid).2
    unfold writtenAs
    split
    · exact hknown
    · assumption
  cases v with
  | null => exact Except.ok.inj h ▸ IsTerm.null.operand
  | list items => cases h
  | _ =>
    obtain ⟨w, hvalid, htext⟩ := map_ok h
    exact hvalue w hvalid htext.symm (by simp) (by simp [DataType.ofValue])

end EntityCache.OData
