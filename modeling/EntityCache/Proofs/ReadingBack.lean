import EntityCache.Proofs.Coercion
import EntityCache.Proofs.IntegerKeys
import EntityCache.Proofs.NumberTexts
import Mathlib

/-! What is written for a number, a truth value or an identifier is read again by its type. So
a text that such a type has left as it is cannot be taken for the text of a value that the
type accepts. -/
namespace EntityCache

theorem Text.trimChars_of_no_blank {cs : List Char} (h : ∀ c ∈ cs, isBlank c = false) :
    trimChars cs = cs := by
  have hskip : ∀ l : List Char, (∀ c ∈ l, isBlank c = false) → skipBlank l = l := by
    intro l hl
    cases l with
    | nil => rfl
    | cons c l => exact List.dropWhile_cons_of_neg (by simp [hl c List.mem_cons_self])
  rw [trimChars, hskip cs h, hskip _ fun c hc => h c (List.mem_reverse.mp hc), List.reverse_reverse]

theorem Text.not_blank_of_isDigit {c : Char} (h : c.isDigit = true) : isBlank c = false := by
  have hrange : 48 ≤ c.toNat ∧ c.toNat ≤ 57 := by
    simpa [Char.isDigit, UInt32.le_iff_toNat_le] using h
  simp only [isBlank, Bool.or_eq_false_iff, Bool.and_eq_false_iff, decide_eq_false_iff_not,
    beq_eq_false_iff_ne]
  omega

theorem Text.run_ends {p : Char → Bool} {run rest : List Char} (hrun : run.all p = true)
    (hrest : ∀ c, rest.head? = some c → p c = false) :
    (run ++ rest).takeWhile p = run ∧ (run ++ rest).dropWhile p = rest := by
  have hall := List.all_eq_true.mp hrun
  rw [List.takeWhile_append_of_pos hall, List.dropWhile_append_of_pos hall]
  cases rest with
  | nil => simp
  | cons c rest => simp [hrest c rfl]

namespace Number

theorem signed_of_ne {cs : List Char} (hplus : cs.head? ≠ some '+') (hminus : cs.head? ≠ some '-') :
    signed cs = (false, cs) := by
  unfold signed
  split <;> simp_all

theorem natOfDigits_toDigits (n : Nat) : natOfDigits (Nat.toDigits 10 n) = n :=
  Nat.ofDigitChars_ten_toDigits

theorem isDigits_toDigits (n : Nat) : isDigits (Nat.toDigits 10 n) = true := by
  have hall : ∀ c ∈ Nat.toDigits 10 n, c.isDigit = true := fun c hc =>
    Nat.isDigit_of_mem_toDigits (by decide) (by decide) hc
  simp [isDigits, Nat.toDigits_ne_nil, List.all_eq_true.mpr hall]

theorem signed_toDigits (n : Nat) : signed (Nat.toDigits 10 n) = (false, Nat.toDigits 10 n) := by
  have hfirst : ∀ c, (Nat.toDigits 10 n).head? = some c → c.isDigit = true := fun c hc =>
    Nat.isDigit_of_mem_toDigits (by decide) (by decide) (List.mem_of_head? hc)
  exact signed_of_ne (fun hc => absurd (hfirst _ hc) (by decide))
    (fun hc => absurd (hfirst _ hc) (by decide))

theorem mem_repr {z : Int} {c : Char} (h : c ∈ z.repr.toList) : c.isDigit = true ∨ c = '-' := by
  cases z with
  | ofNat n =>
    rw [Int.repr, Nat.toList_repr] at h
    exact Or.inl (Binary64.isDigit_of_mem_toDigits h)
  | negSucc n =>
    rw [Int.repr, String.toList_append, Nat.toList_repr] at h
    rcases List.mem_append.mp h with hsign | hdigit
    · exact Or.inr (by simpa using hsign)
    · exact Or.inl (Binary64.isDigit_of_mem_toDigits hdigit)

theorem toInt64?_toInt (i : Int64) : toInt64? i.toInt = some i := by
  have hfits : FitsInt64 i.toInt := ⟨i.minValue_le_toInt, Int64.toInt_le i⟩
  rw [toInt64?, if_pos hfits, Int64.ofInt_toInt]

theorem int64?_repr (z : Int) : int64? z.repr.toList = toInt64? z := by
  cases z with
  | ofNat n =>
    simp [Int.repr, int64?, Nat.repr_eq_ofList_toDigits, signed_toDigits, isDigits_toDigits,
      natOfDigits_toDigits]
  | negSucc n =>
    simp [Int.repr, int64?, Nat.repr_eq_ofList_toDigits, signed, isDigits_toDigits,
      natOfDigits_toDigits, Int.negSucc_eq]

end Number

namespace Binary64

variable {x : Binary64}

theorem unsignedDouble?_pointed {whole places : List Char} (negative : Bool) (hne : whole ≠ [])
    (h : ∀ c ∈ whole ++ places, c.isDigit = true) :
    (Number.unsignedDouble? negative (pointed whole places)).isSome := by
  have hwhole : ∀ c ∈ whole, c.isDigit = true := fun c hc => h c (List.mem_append_left _ hc)
  have hplaces : ∀ c ∈ places, c.isDigit = true := fun c hc => h c (List.mem_append_right _ hc)
  unfold pointed
  split
  · simp [Number.unsignedDouble?, List.takeWhile_eq_self_iff.mpr hwhole,
      List.dropWhile_eq_nil_iff.mpr hwhole, hne, Number.exponent?]
  · have htake : (whole ++ '.' :: places).takeWhile Char.isDigit = whole := by
      rw [List.takeWhile_append_of_pos hwhole, List.takeWhile_cons_of_neg (by decide),
        List.append_nil]
    have hdrop : (whole ++ '.' :: places).dropWhile Char.isDigit = '.' :: places := by
      rw [List.dropWhile_append_of_pos hwhole, List.dropWhile_cons_of_neg (by decide)]
    simp [Number.unsignedDouble?, htake, hdrop, List.takeWhile_eq_self_iff.mpr hplaces,
      List.dropWhile_eq_nil_iff.mpr hplaces, hne, Number.exponent?]

theorem not_blank_of_mem_text {c : Char} (h : c ∈ x.text.toList) : Text.isBlank c = false := by
  cases hnan : x.isNaN with
  | true =>
    have hword : ∀ c ∈ "NaN".toList, Text.isBlank c = false := by simp [Text.isBlank]
    exact hword c (text_eq_nan_iff.mpr hnan ▸ h)
  | false =>
    rw [text_of_number hnan, String.toList_append] at h
    rcases List.mem_append.mp h with hsign | hbody
    · rw [mem_signText hsign]
      decide
    · rcases mem_body hbody with hdigit | hletter
      · exact Text.not_blank_of_isDigit hdigit
      · have hword : ∀ c ∈ ['.', 'i', 'n', 'f'], Text.isBlank c = false := by simp [Text.isBlank]
        exact hword c hletter

theorem signed_text (h : x.isNaN = false) :
    Number.signed x.text.toList = (x.isNegative, x.body.toList) := by
  rw [text_of_number h, String.toList_append]
  cases hx : x.isNegative with
  | true => simp [signText, hx, Number.signed]
  | false =>
    have hfirst : ∀ c, x.body.toList.head? = some c → c ≠ '+' ∧ c ≠ '-' := by
      intro c hc
      have hclass := mem_body (List.mem_of_head? hc)
      constructor <;> rintro rfl <;> exact absurd hclass (by decide)
    simpa [signText, hx] using Number.signed_of_ne (fun hc => (hfirst _ hc).1 rfl)
      (fun hc => (hfirst _ hc).2 rfl)

theorem double?_text (x : Binary64) : (Number.double? x.text.toList).isSome := by
  cases hnan : x.isNaN with
  | true =>
    rw [text_eq_nan_iff.mpr hnan]
    decide
  | false =>
    unfold Number.double?
    rw [signed_text hnan]
    cases hinf : x.isInfinite with
    | true =>
      have hword : String.ofList (x.body.toList.map Char.toLower) = "inf" := by
        rw [body_of_infinite hinf]
        decide
      simp [hword]
    | false =>
      obtain ⟨n, k, hbody, _⟩ := body_of_finite hinf
      obtain ⟨whole, places, h⟩ := exists_spelling n k
      have hread := unsignedDouble?_pointed x.isNegative h.ne_nil h.isDigit
      rw [← h.text, ← hbody] at hread
      dsimp only
      split
      · rfl
      · split
        · rfl
        · exact hread

end Binary64

namespace Guid

theorem hexValue?_digitAt (g : Guid) (i : Nat) :
    Json.hexValue? (g.digitAt i) = some (g.value.toNat / 16 ^ i % 16) := by
  have hdigit : ∀ n < 16, Json.hexValue? (Nat.digitChar n) = some n := by decide
  exact hdigit _ (Nat.mod_lt _ (by decide))

theorem digitAt_ne {c : Char} (hc : Json.hexValue? c = none) (g : Guid) (i : Nat) :
    g.digitAt i ≠ c := by
  rintro rfl
  rw [hexValue?_digitAt] at hc
  cases hc

theorem ungroup?_hyphenated {groups : List Nat} {ds : List Char} (h : ds.length = groups.sum) :
    ungroup? groups (hyphenated groups ds) = some ds := by
  induction groups, ds using hyphenated.induct with
  | case1 ds => simp [ungroup?, hyphenated, List.length_eq_zero_iff.mp (h.trans List.sum_nil)]
  | case2 n ds =>
    have hn : ds.length = n := by simpa using h
    rw [hyphenated, List.take_of_length_le hn.le, ungroup?, if_pos hn]
  | case3 n ns ds hns ih =>
    rw [List.sum_cons] at h
    have htake : (ds.take n).length = n := by rw [List.length_take]; omega
    rw [hyphenated.eq_3 _ _ _ hns, ungroup?.eq_3 _ _ _ hns, List.drop_left' htake,
      List.take_left' htake]
    simp only [ih (by rw [List.length_drop]; omega), Option.map_some, List.take_append_drop]

/-- The last places of a number, the leading one first, make it up to there. -/
theorem foldl_places (n places start : Nat) :
    ((List.range places).reverse.map fun i => n / 16 ^ i % 16).foldl (fun n v => 16 * n + v) start =
      start * 16 ^ places + n % 16 ^ places := by
  induction places generalizing start with
  | zero => simp [Nat.mod_one]
  | succ places ih =>
    rw [List.range_succ, List.reverse_append, List.reverse_singleton, List.singleton_append,
      List.map_cons, List.foldl_cons, ih, Nat.mod_pow_succ]
    ring

theorem ofDigits?_digits (g : Guid) : ofDigits? g.digits = some g := by
  have hvalues : g.digits.mapM Json.hexValue? =
      some ((List.range 32).reverse.map fun i => g.value.toNat / 16 ^ i % 16) := by
    rw [digits]
    induction (List.range 32).reverse with
    | nil => rfl
    | cons i places ih => simp [List.mapM_cons, hexValue?_digitAt, ih]
  have hvalue : g.value.toNat % 16 ^ 32 = g.value.toNat :=
    Nat.mod_eq_of_lt (g.value.isLt.trans_eq (by decide))
  rw [ofDigits?, hvalues, Option.map_some, foldl_places, hvalue, Nat.zero_mul, Nat.zero_add,
    BitVec.ofNat_toNat, BitVec.setWidth_eq]

theorem ofChars?_text (g : Guid) : ofChars? g.text.toList = some g := by
  have htext : g.text.toList = hyphenated groups g.digits := String.toList_ofList
  have hlength : (hyphenated groups g.digits).length ≠ 32 := by
    have h36 : (hyphenated groups g.digits).length = 36 := rfl
    omega
  obtain ⟨rest, hfirst⟩ : ∃ rest, hyphenated groups g.digits = g.digitAt 31 :: rest := ⟨_, rfl⟩
  have hurn : ((hyphenated groups g.digits).take urnMark.length).map Char.toLower ≠ urnMark := by
    rw [hfirst]
    intro h
    have hlower : ∀ n < 16, (Nat.digitChar n).toLower ≠ 'u' := by decide
    exact hlower _ (Nat.mod_lt _ (by decide)) (List.cons.inj h).1
  have hbrace : ¬ ((hyphenated groups g.digits).head? = some '\x7b' ∧
      (hyphenated groups g.digits).getLast? = some '\x7d') := by
    rw [hfirst]
    rintro ⟨h, -⟩
    exact digitAt_ne (by decide) g 31 (Option.some.inj h)
  rw [htext, ofChars?, if_neg hlength, if_neg hurn, if_neg hbrace, ofHyphenated?,
    ungroup?_hyphenated rfl]
  exact ofDigits?_digits g

end Guid

namespace DataType

/-- The type makes a value of its own of the text. -/
def reads (d : DataType) (s : String) : Bool :=
  match d.coerce (.text s) with
  | .text _ => false
  | _ => true

theorem not_reads_of_coerce {d : DataType} {s : String} (h : d.coerce (.text s) = .text s) :
    d.reads s = false := by rw [reads, h]

theorem reads_repr {d : DataType} (hd : d.isInteger) (i : Int64) : d.reads i.toInt.repr := by
  have hblank : ∀ c ∈ i.toInt.repr.toList, Text.isBlank c = false := by
    intro c hc
    rcases Number.mem_repr hc with hdigit | rfl
    · exact Text.not_blank_of_isDigit hdigit
    · decide
  rw [reads, coerce_of_isInteger hd]
  simp only [coerceToInteger, Text.trimChars_of_no_blank hblank, Number.int64?_repr,
    Number.toInt64?_toInt]

theorem reads_float {d : DataType} (hd : d.isFloat) (x : Binary64) : d.reads x.text := by
  obtain ⟨y, hy⟩ := Option.isSome_iff_exists.mp (Binary64.double?_text x)
  have hblank : ∀ c ∈ x.text.toList, Text.isBlank c = false := fun _ hc =>
    Binary64.not_blank_of_mem_text hc
  rw [reads, coerce_of_isFloat hd]
  simp only [coerceToFloat, Text.trimChars_of_no_blank hblank, hy]

theorem reads_truth (b : Bool) : boolean.reads (if b then "true" else "false") := by
  have hself : ∀ s, Text.sameIgnoringCase s s = true := fun s => beq_self_eq_true s.toLower
  cases b with
  | true => simp [reads, coerce, coerceToBoolean, hself]
  | false => cases h : Text.sameIgnoringCase "false" "true" <;>
      simp [reads, coerce, coerceToBoolean, hself, h]

theorem reads_guid (g : Guid) : guid.reads g.text := by
  simp only [reads, coerce, Guid.ofChars?_text]

/-- What a type takes for a number, a truth value or an identifier, it reads in the text. -/
theorem reads_keyText {d : DataType} {v : Value} (hd : d.isNumeric ∨ d = boolean ∨ d = guid)
    (haccepts : d.accepts v) (hv : d.coerce v = v) (hnull : v.isNull = false) :
    d.reads v.keyText := by
  cases v with
  | null => cases hnull
  | integer i =>
    have hinteger : d.isInteger := by
      by_contra hd'
      have hfloat : d.isFloat := by
        cases d <;> simp_all [accepts, isNumeric, isInteger, isFloat]
      rw [coerce_of_isFloat hfloat] at hv
      cases hv
    rw [Value.keyText_integer]
    exact reads_repr hinteger i
  | float x =>
    have hfloat : d.isFloat := by
      cases d <;> simp_all [accepts, isNumeric, isInteger, isFloat]
    exact reads_float hfloat x
  | boolean b =>
    obtain rfl : d = boolean := by
      cases d <;> simp_all [accepts, isNumeric, isInteger, isFloat]
    exact reads_truth b
  | guid g =>
    obtain rfl : d = guid := by
      cases d <;> simp_all [accepts, isNumeric, isInteger, isFloat]
    exact reads_guid g
  | _ => cases d <;> simp_all [accepts, isNumeric, isInteger, isFloat]

end DataType

end EntityCache
