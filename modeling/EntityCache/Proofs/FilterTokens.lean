import EntityCache.Scalar.Literal

/-! The tokens of a filter. Blanks, parentheses, commas and colons stand between words, but
not inside a string, which belongs to the word it stands in. A doubled quote ends the
string and begins it again, so it needs no case of its own. -/
namespace EntityCache.OData

inductive Token where
  | word (cs : List Char)
  | opening
  | closing
  | comma
  | colon
  deriving DecidableEq, Repr

def mark? (c : Char) : Option Token :=
  if c = '(' then some .opening
  else if c = ')' then some .closing
  else if c = ',' then some .comma
  else if c = ':' then some .colon
  else none

def ended : List Char → List Token
  | [] => []
  | c :: cs => [.word (c :: cs)]

/-- The tokens that are left; `begun` is what the current word has so far. -/
def tokensFrom (inString : Bool) (begun : List Char) : List Char → List Token
  | [] => ended begun
  | c :: cs =>
    if c = '\x27' then tokensFrom (!inString) (begun ++ [c]) cs
    else if inString then tokensFrom true (begun ++ [c]) cs
    else if c = ' ' then ended begun ++ tokensFrom false [] cs
    else match mark? c with
      | some t => ended begun ++ t :: tokensFrom false [] cs
      | none => tokensFrom false (begun ++ [c]) cs

def tokens (text : String) : List Token := tokensFrom false [] text.toList

def separators : List Char := ['\x27', ' ', '(', ')', ',', ':']

def isPlain (c : Char) : Bool := !separators.contains c

theorem not_contains_of_class {excluded : List Char} {p : Char → Bool}
    (hp : excluded.all (fun d => !p d) = true) {c : Char} (h : p c = true) :
    (!excluded.contains c) = true := by
  rw [Bool.not_eq_true', Bool.eq_false_iff]
  intro hc
  have hno := List.all_eq_true.mp hp c (List.contains_iff_mem.mp hc)
  rw [h] at hno
  exact Bool.false_ne_true hno

/-- Characters that only lengthen the word they stand in. -/
def IsWord (w : List Char) : Prop :=
  ∀ begun rest, tokensFrom false begun (w ++ rest) = tokensFrom false (begun ++ w) rest

namespace IsWord

theorem nil : IsWord [] := by
  intro begun rest
  simp

theorem append {a b : List Char} (ha : IsWord a) (hb : IsWord b) : IsWord (a ++ b) := by
  intro begun rest
  rw [List.append_assoc, ha, hb, List.append_assoc]

theorem single {c : Char} (h : isPlain c = true) : IsWord [c] := by
  intro begun rest
  have hc : c ∉ separators := by simpa [isPlain] using h
  simp only [separators, List.mem_cons, List.not_mem_nil, or_false, not_or] at hc
  obtain ⟨hquote, hblank, hopening, hclosing, hcomma, hcolon⟩ := hc
  simp [tokensFrom, mark?, hquote, hblank, hopening, hclosing, hcomma, hcolon]

theorem of_plain {w : List Char} (h : w.all isPlain = true) : IsWord w := by
  induction w with
  | nil => exact nil
  | cons c cs ih =>
    rw [List.all_cons, Bool.and_eq_true] at h
    exact (single h.1).append (ih h.2)

end IsWord

theorem tokensFrom_string {body : List Char} (h : '\x27' ∉ body) (begun rest : List Char) :
    tokensFrom true begun (body ++ rest) = tokensFrom true (begun ++ body) rest := by
  induction body generalizing begun with
  | nil => simp
  | cons c cs ih =>
    have hc : c ≠ '\x27' := fun hc => h (hc ▸ List.mem_cons_self)
    have hcs : '\x27' ∉ cs := fun hcs => h (List.mem_cons_of_mem _ hcs)
    simp [tokensFrom, hc, ih hcs]

/-- The quotes inside come in pairs, so the string is still open after them. -/
theorem tokensFrom_doubled (body begun rest : List Char) :
    tokensFrom true begun (body.flatMap DataType.doubleQuote ++ rest) =
      tokensFrom true (begun ++ body.flatMap DataType.doubleQuote) rest := by
  induction body generalizing begun with
  | nil => simp
  | cons c cs ih =>
    by_cases hc : c = '\x27'
    · simp [DataType.doubleQuote, tokensFrom, hc, ih]
    · simp [DataType.doubleQuote, tokensFrom, hc, ih]

namespace IsWord

theorem string {body : List Char} (h : '\x27' ∉ body) :
    IsWord ('\x27' :: body ++ ['\x27']) := by
  intro begun rest
  simp [tokensFrom, tokensFrom_string h]

theorem quote (s : String) : IsWord (DataType.quote s).toList := by
  intro begun rest
  simp [DataType.quote, tokensFrom, tokensFrom_doubled]

end IsWord

def Breaks : List Char → Prop
  | [] => True
  | c :: _ => c ≠ '\x27' ∧ (c = ' ' ∨ (mark? c).isSome)

theorem tokensFrom_of_breaks {rest : List Char} (h : Breaks rest) (begun : List Char) :
    tokensFrom false begun rest = ended begun ++ tokensFrom false [] rest := by
  cases rest with
  | nil => simp [tokensFrom, ended]
  | cons c cs =>
    obtain ⟨hq, hc | hc⟩ := h
    · simp [tokensFrom, ended, hc]
    · obtain ⟨t, ht⟩ := Option.isSome_iff_exists.mp hc
      by_cases hs : c = ' '
      · simp [tokensFrom, ended, hs]
      · simp [tokensFrom, ended, hq, hs, ht]

/-- The characters are exactly these tokens wherever a word may end behind them. -/
def Spells (cs : List Char) (ts : List Token) : Prop :=
  ∀ rest, Breaks rest → tokensFrom false [] (cs ++ rest) = ts ++ tokensFrom false [] rest

namespace Spells

theorem nil : Spells [] [] := by
  intro rest _
  rfl

theorem word {w : List Char} (h : IsWord w) (hw : w ≠ []) : Spells w [.word w] := by
  intro rest hr
  obtain ⟨c, cs, rfl⟩ := List.exists_cons_of_ne_nil hw
  rw [h, tokensFrom_of_breaks hr]
  rfl

theorem spaced {a b : List Char} {ts us : List Token} (ha : Spells a ts) (hb : Spells b us) :
    Spells (a ++ ' ' :: b) (ts ++ us) := by
  intro rest hr
  have hbreak : Breaks (' ' :: b ++ rest) := ⟨by decide, Or.inl rfl⟩
  rw [List.append_assoc, ha _ hbreak, List.append_assoc, ← hb rest hr]
  rfl

theorem marked {a b : List Char} {ts us : List Token} {c : Char} {t : Token}
    (hc : mark? c = some t) (ha : Spells a ts) (hb : Spells b us) :
    Spells (a ++ c :: b) (ts ++ t :: us) := by
  intro rest hr
  have hq : c ≠ '\x27' := by
    rintro rfl
    simp [mark?] at hc
  have hs : c ≠ ' ' := by
    rintro rfl
    simp [mark?] at hc
  have hbreak : Breaks (c :: b ++ rest) := ⟨hq, Or.inr (by rw [hc]; rfl)⟩
  have hstep : tokensFrom false [] (c :: b ++ rest) = t :: tokensFrom false [] (b ++ rest) := by
    simp [tokensFrom, ended, hq, hs, hc]
  rw [List.append_assoc, ha _ hbreak, hstep, hb rest hr, List.append_assoc]
  rfl

theorem group {a : List Char} {ts : List Token} (h : Spells a ts) :
    Spells ('(' :: a ++ [')']) (.opening :: ts ++ [.closing]) := by
  have hclosed : Spells (a ++ [')']) (ts ++ [.closing]) := marked rfl h nil
  have hopened := marked (c := '(') rfl nil hclosed
  simpa using hopened

theorem tokens_eq {text : String} {ts : List Token} (h : Spells text.toList ts) :
    tokens text = ts := by
  have hend : tokensFrom false [] (text.toList ++ []) = ts ++ tokensFrom false [] [] :=
    h [] trivial
  simpa [tokens, tokensFrom, ended] using hend

end Spells

end EntityCache.OData
