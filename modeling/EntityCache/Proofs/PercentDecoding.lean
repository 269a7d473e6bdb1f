import EntityCache.Json.Reader
import EntityCache.Proofs.PercentEscapes

/-! Percent coding undone. Each percent sign with two hexadecimal digits behind it is one byte,
all other text is its own bytes, and together they must be UTF-8. Every text comes back from
its coding; a text that was never coded comes back as itself only where no percent sign in it
has two such digits behind it. The coding of a component leaves nothing in it but the literal
characters and whole escapes. -/
namespace EntityCache.Text

def hexByte? (high low : Char) : Option UInt8 :=
  (Json.hexValue? high).bind fun h => (Json.hexValue? low).map fun l => UInt8.ofNat (16 * h + l)

def utf8 (cs : List Char) : List UInt8 := cs.flatMap String.utf8EncodeChar

def percentBytes : List Char → List UInt8
  | '%' :: high :: low :: cs =>
    match hexByte? high low with
    | some b => b :: percentBytes cs
    | none => String.utf8EncodeChar '%' ++ percentBytes (high :: low :: cs)
  | c :: cs => String.utf8EncodeChar c ++ percentBytes cs
  | [] => []

def percentDecode? (cs : List Char) : Option String :=
  String.fromUTF8? (percentBytes cs).toByteArray

theorem fromUTF8?_eq_some_iff {bytes : List UInt8} {s : String} :
    String.fromUTF8? bytes.toByteArray = some s ↔ bytes = utf8 s.toList := by
  have hbytes : s.toByteArray = (utf8 s.toList).toByteArray := by
    conv_lhs => rw [← String.ofList_toList (s := s), String.toByteArray_ofList]
    rfl
  unfold String.fromUTF8?
  constructor
  · intro h
    split at h
    · cases h
      exact List.toByteArray_inj.mp hbytes
    · cases h
  · rintro rfl
    rw [dif_pos (hbytes ▸ s.isValidUTF8)]
    exact congrArg some (String.toByteArray_inj.mp hbytes.symm)

section Coding

theorem hexValue?_hexUpper {n : Nat} (h : n < 16) : Json.hexValue? (hexUpper n) = some n := by
  revert n
  decide

theorem hexByte?_percentByte (b : UInt8) :
    hexByte? (hexUpper (b.toNat / 16)) (hexUpper (b.toNat % 16)) = some b := by
  have hb := b.toNat_lt
  rw [hexByte?, hexValue?_hexUpper (by omega), hexValue?_hexUpper (by omega), Option.bind_some,
    Option.map_some, Nat.div_add_mod, UInt8.ofNat_toNat]

theorem percentBytes_percentByte (b : UInt8) (rest : List Char) :
    percentBytes (percentByte b ++ rest) = b :: percentBytes rest := by
  simp [percentByte, percentBytes, hexByte?_percentByte]

theorem percentBytes_of_ne {c : Char} (h : c ≠ '%') (rest : List Char) :
    percentBytes (c :: rest) = String.utf8EncodeChar c ++ percentBytes rest := by
  rw [percentBytes]
  intro _ _ _ hpercent
  exact absurd hpercent h

theorem percentBytes_coded (bytes : List UInt8) (rest : List Char) :
    percentBytes (bytes.flatMap percentByte ++ rest) = bytes ++ percentBytes rest := by
  induction bytes with
  | nil => rfl
  | cons b bytes ih =>
    rw [List.flatMap_cons, List.append_assoc, percentBytes_percentByte, ih, List.cons_append]

theorem percentBytes_percentChar (c : Char) (rest : List Char) :
    percentBytes (percentChar c ++ rest) = String.utf8EncodeChar c ++ percentBytes rest := by
  unfold percentChar
  split
  · rename_i hstays
    have hne : c ≠ '%' := by
      rintro rfl
      exact absurd hstays (by decide)
    exact percentBytes_of_ne hne rest
  · exact percentBytes_coded _ rest

theorem percentBytes_encoded (cs : List Char) :
    percentBytes (cs.flatMap percentChar) = utf8 cs := by
  induction cs with
  | nil => rfl
  | cons c cs ih =>
    rw [List.flatMap_cons, percentBytes_percentChar, ih]
    rfl

theorem percentDecode?_percentEncode (s : String) :
    percentDecode? (percentEncode s).toList = some s := by
  rw [percentDecode?, percentEncode_eq_componentText, componentText, String.toList_ofList,
    percentBytes_encoded]
  exact fromUTF8?_eq_some_iff.mpr rfl

theorem mem_percentChar {c d : Char} (h : d ∈ percentChar c) :
    staysLiteral d = true ∨ d = '%' := by
  unfold percentChar at h
  split at h
  · rw [List.mem_singleton.mp h]
    exact Or.inl ‹_›
  · obtain ⟨b, -, hb⟩ := List.mem_flatMap.mp h
    have hlt := b.toNat_lt
    have hdigit : ∀ n < 16, staysLiteral (hexUpper n) = true := by decide
    rcases List.mem_cons.mp hb with rfl | hb
    · exact Or.inr rfl
    · rcases List.mem_cons.mp hb with rfl | hb
      · exact Or.inl (hdigit _ (by omega))
      · rw [List.mem_singleton.mp hb]
        exact Or.inl (hdigit _ (by omega))

theorem mem_percentEncode {s : String} {d : Char} (h : d ∈ (percentEncode s).toList) :
    staysLiteral d = true ∨ d = '%' := by
  rw [percentEncode_eq_componentText, componentText, String.toList_ofList] at h
  obtain ⟨c, -, hc⟩ := List.mem_flatMap.mp h
  exact mem_percentChar hc

/-- Literal characters and whole escapes, and nothing beside them. -/
inductive IsComponent : List Char → Prop where
  | nil : IsComponent []
  | literal {c : Char} {cs : List Char} : staysLiteral c → IsComponent cs → IsComponent (c :: cs)
  | escape {high low : Char} {cs : List Char} : (hexByte? high low).isSome → IsComponent cs →
      IsComponent ('%' :: high :: low :: cs)

theorem isComponent_coded (bytes : List UInt8) {rest : List Char} (h : IsComponent rest) :
    IsComponent (bytes.flatMap percentByte ++ rest) := by
  induction bytes with
  | nil => exact h
  | cons b bytes ih =>
    rw [List.flatMap_cons, List.append_assoc]
    exact .escape (by rw [hexByte?_percentByte]; rfl) ih

theorem isComponent_encoded (cs : List Char) : IsComponent (cs.flatMap percentChar) := by
  induction cs with
  | nil => exact .nil
  | cons c cs ih =>
    rw [List.flatMap_cons, percentChar]
    split
    · exact .literal ‹_› ih
    · exact isComponent_coded _ ih

/-- The code of a text holds literal characters and whole escapes only, it is the one that
leaves these characters alone and escapes each byte of the others, and it stands for the text. -/
theorem percentEncode_exact (s : String) :
    IsComponent (percentEncode s).toList ∧ percentEncode s = componentText s ∧
      percentDecode? (percentEncode s).toList = some s := by
  refine ⟨?_, percentEncode_eq_componentText s, percentDecode?_percentEncode s⟩
  rw [percentEncode_eq_componentText, componentText, String.toList_ofList]
  exact isComponent_encoded s.toList

end Coding

section Escapes

def HasEscape (cs : List Char) : Prop :=
  ∃ before high low after, cs = before ++ '%' :: high :: low :: after ∧ (hexByte? high low).isSome

theorem HasEscape.cons {c : Char} {cs : List Char} (h : HasEscape cs) : HasEscape (c :: cs) := by
  obtain ⟨before, high, low, after, rfl, hhex⟩ := h
  exact ⟨c :: before, high, low, after, rfl, hhex⟩

theorem hasEscape_cons_iff {c : Char} {cs : List Char} : HasEscape (c :: cs) ↔
    (∃ high low after, c :: cs = '%' :: high :: low :: after ∧ (hexByte? high low).isSome) ∨
      HasEscape cs := by
  constructor
  · rintro ⟨before, high, low, after, h, hhex⟩
    cases before with
    | nil => exact Or.inl ⟨high, low, after, h, hhex⟩
    | cons d before =>
      obtain ⟨rfl, rfl⟩ := List.cons.inj h
      exact Or.inr ⟨before, high, low, after, rfl, hhex⟩
  · rintro (⟨high, low, after, h, hhex⟩ | h)
    · exact ⟨[], high, low, after, h, hhex⟩
    · exact h.cons

theorem length_utf8_cons (c : Char) (cs : List Char) :
    (utf8 (c :: cs)).length = c.utf8Size + (utf8 cs).length := by
  simp [utf8]

/-- Decoding makes a text shorter by its escapes, and leaves it alone where it has none. -/
theorem percentBytes_cases (cs : List Char) :
    HasEscape cs ∧ (percentBytes cs).length < (utf8 cs).length ∨
      ¬ HasEscape cs ∧ percentBytes cs = utf8 cs := by
  fun_induction percentBytes cs with
  | case1 high low cs b hb ih =>
    refine Or.inl ⟨⟨[], high, low, cs, rfl, by simp [hb]⟩, ?_⟩
    have hle : (percentBytes cs).length ≤ (utf8 cs).length := by
      rcases ih with ⟨-, hlt⟩ | ⟨-, heq⟩
      · exact Nat.le_of_lt hlt
      · exact Nat.le_of_eq (congrArg List.length heq)
    have hhigh := high.utf8Size_pos
    have hlow := low.utf8Size_pos
    simp only [length_utf8_cons, List.length_cons]
    omega
  | case2 high low cs hb ih =>
    have hiff : HasEscape ('%' :: high :: low :: cs) ↔ HasEscape (high :: low :: cs) := by
      rw [hasEscape_cons_iff]
      refine or_iff_right ?_
      rintro ⟨_, _, _, heq, hhex⟩
      cases heq
      simp [hb] at hhex
    rw [hiff]
    refine ih.imp (And.imp_right fun hlt => ?_) (And.imp_right fun heq => ?_)
    · rw [List.length_append, length_utf8_cons, String.length_utf8EncodeChar]
      omega
    · rw [heq]
      rfl
  | case3 c cs hc ih =>
    have hiff : HasEscape (c :: cs) ↔ HasEscape cs := by
      rw [hasEscape_cons_iff]
      refine or_iff_right ?_
      rintro ⟨high, low, after, heq, -⟩
      obtain ⟨rfl, rfl⟩ := List.cons.inj heq
      exact hc _ _ _ rfl rfl
    rw [hiff]
    refine ih.imp (And.imp_right fun hlt => ?_) (And.imp_right fun heq => ?_)
    · rw [List.length_append, length_utf8_cons, String.length_utf8EncodeChar]
      omega
    · rw [heq]
      rfl
  | case4 =>
    refine Or.inr ⟨?_, rfl⟩
    rintro ⟨before, _, _, _, h, -⟩
    cases before <;> cases h

theorem length_percentBytes_le (cs : List Char) :
    (percentBytes cs).length ≤ (utf8 cs).length := by
  rcases percentBytes_cases cs with ⟨-, hlt⟩ | ⟨-, heq⟩
  · exact Nat.le_of_lt hlt
  · exact Nat.le_of_eq (congrArg List.length heq)

theorem percentDecode?_eq_self_iff {s : String} :
    percentDecode? s.toList = some s ↔ ¬ HasEscape s.toList := by
  rw [percentDecode?, fromUTF8?_eq_some_iff]
  rcases percentBytes_cases s.toList with ⟨hescape, hlt⟩ | ⟨hnone, heq⟩
  · refine iff_of_false (fun heq => ?_) (not_not_intro hescape)
    exact Nat.ne_of_lt hlt (congrArg List.length heq)
  · exact iff_of_true heq hnone

/-- No text is read as one that it is only the beginning of. -/
theorem percentDecode?_front {s : String} {front back : List Char} (hs : s.toList = front ++ back)
    (h : percentDecode? front = some s) : back = [] := by
  have hlength := length_percentBytes_le front
  rw [fromUTF8?_eq_some_iff.mp h, hs] at hlength
  cases back with
  | nil => rfl
  | cons c back =>
    have hc := c.utf8Size_pos
    simp only [utf8, List.flatMap_append, List.flatMap_cons, List.length_append,
      String.length_utf8EncodeChar] at hlength
    omega

end Escapes

end EntityCache.Text
