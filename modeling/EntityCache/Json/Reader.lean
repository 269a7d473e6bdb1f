import EntityCache.Json.Basic
import EntityCache.Number.Reading

/-! JSON text read into a document. Every step takes the characters that are left and
hands back what remains after it; `fuel` bounds the steps by the length of the text, and
`depth` counts the arrays and objects that may still be opened. -/
namespace EntityCache.Json

def maxDepth : Nat := 127

def skipSpace (cs : List Char) : List Char :=
  cs.dropWhile fun c => c = ' ' || c = '\n' || c = '\t' || c = '\r'

def hexValue? (c : Char) : Option Nat :=
  if c.isDigit then some (c.toNat - '0'.toNat)
  else if 'a' ≤ c ∧ c ≤ 'f' then some (c.toNat - 'a'.toNat + 10)
  else if 'A' ≤ c ∧ c ≤ 'F' then some (c.toNat - 'A'.toNat + 10)
  else none

def hexUnit? : List Char → Option (Nat × List Char)
  | a :: b :: c :: d :: rest =>
    match hexValue? a, hexValue? b, hexValue? c, hexValue? d with
    | some a, some b, some c, some d => some (((a * 16 + b) * 16 + c) * 16 + d, rest)
    | _, _, _, _ => none
  | _ => none

/-- The character after `\u`: one unit, or a high surrogate followed by a low one. A
surrogate that stands alone is refused. -/
def unicodeEscape? (cs : List Char) : Option (Char × List Char) :=
  match hexUnit? cs with
  | none => none
  | some (high, rest) =>
    if 0xDC00 ≤ high ∧ high ≤ 0xDFFF then none
    else if 0xD800 ≤ high ∧ high ≤ 0xDBFF then
      match rest with
      | '\\' :: 'u' :: more =>
        match hexUnit? more with
        | some (low, rest) =>
          if 0xDC00 ≤ low ∧ low ≤ 0xDFFF then
            some (Char.ofNat (0x10000 + (high - 0xD800) * 0x400 + (low - 0xDC00)), rest)
          else none
        | none => none
      | _ => none
    else some (Char.ofNat high, rest)

def plainEscape? (c : Char) : Option Char :=
  match c with
  | '"' => some '"'
  | '\\' => some '\\'
  | '/' => some '/'
  | 'b' => some (Char.ofNat 8)
  | 'f' => some (Char.ofNat 12)
  | 'n' => some '\n'
  | 'r' => some '\r'
  | 't' => some '\t'
  | _ => none

def stringTail? : Nat → List Char → List Char → Option (String × List Char)
  | 0, _, _ => none
  | _ + 1, _, [] => none
  | fuel + 1, acc, c :: cs =>
    if c = '"' then some (String.ofList acc.reverse, cs)
    else if c = '\\' then
      match cs with
      | [] => none
      | 'u' :: rest => (unicodeEscape? rest).bind fun (d, rest) => stringTail? fuel (d :: acc) rest
      | e :: rest => (plainEscape? e).bind fun d => stringTail? fuel (d :: acc) rest
    else if c.toNat < 0x20 then none
    else stringTail? fuel (c :: acc) cs

/-- Digits are taken up while the number they make fits 64 bits without a sign. -/
def takeDigits (n : Nat) : List Char → Nat × List Char
  | [] => (n, [])
  | c :: cs =>
    if 10 * n + Number.digitValue c < UInt64.size then takeDigits (10 * n + Number.digitValue c) cs
    else (n, c :: cs)

def topPower : Nat := 308

def powerOfTen (n : Nat) : Binary64 := Binary64.nearest false (Binary64.tenPow n) 1

def scaleDown (x : Binary64) (n : Nat) : Binary64 :=
  if topPower < n then
    if x.isZero then x else scaleDown (x.divNearest (powerOfTen topPower)) (n - topPower)
  else x.divNearest (powerOfTen n)
termination_by n
decreasing_by simp only [topPower] at *; omega

/-- A significand times a power of ten: both are rounded to doubles before they are
combined by one rounded operation. A number too large for a double is refused. -/
def scaled? (significand : Nat) (power : Int) : Option Binary64 :=
  let x := Binary64.nearest false significand 1
  if power < 0 then some (scaleDown x (-power).toNat)
  else if topPower < power then if x.isZero then some x else none
  else
    let y := x.mulNearest (powerOfTen power.toNat)
    if y.isInfinite then none else some y

/-- The parts of a number after its optional minus sign; the digits behind a point are
absent if there is no point. -/
structure Numeral where
  whole : List Char
  fraction : Option (List Char)
  exponent : Option Int
  deriving Repr

def numeral? (cs : List Char) : Option (Numeral × List Char) :=
  let whole := cs.takeWhile Char.isDigit
  let rest := cs.dropWhile Char.isDigit
  if whole = [] ∨ (1 < whole.length ∧ whole.head? = some '0') then none
  else
    let (fraction, rest) : Option (List Char) × List Char := match rest with
      | '.' :: r => (some (r.takeWhile Char.isDigit), r.dropWhile Char.isDigit)
      | r => (none, r)
    if fraction = some [] then none
    else
      let mark := rest.head?
      if mark = some 'e' ∨ mark = some 'E' then
        let (down, rest) := Number.signed (rest.drop 1)
        let ds := rest.takeWhile Char.isDigit
        if ds = [] then none
        else
          let e : Int := Number.natOfDigits ds
          some (⟨whole, fraction, some (if down then -e else e)⟩, rest.dropWhile Char.isDigit)
      else some (⟨whole, fraction, none⟩, rest)

def Numeral.json? (negative : Bool) (t : Numeral) : Option Json :=
  let signed (x : Binary64) : Json := float (if negative then x.negate else x)
  let (n, dropped) := takeDigits 0 t.whole
  if dropped = [] ∧ t.fraction = none ∧ t.exponent = none then
    if negative then
      if n = 0 ∨ ¬Number.FitsInt64 (-n) then some (signed (Binary64.nearest false n 1))
      else some (int (-(n : Int)))
    else some (int n)
  else
    let digits := t.fraction.getD []
    let (n, unused) := takeDigits n digits
    let e := t.exponent.getD 0
    if e.natAbs ≤ Int32.maxValue.toInt then
      let power : Int := dropped.length - (digits.length - unused.length : Nat) + e
      (scaled? n power).map signed
    else if 0 < e ∧ n ≠ 0 then none
    else some (signed Binary64.zero)

def number? (negative : Bool) (cs : List Char) : Option (Json × List Char) :=
  (numeral? cs).bind fun (t, rest) => (t.json? negative).map (·, rest)

def fieldName? (cs : List Char) : Option (String × List Char) :=
  match skipSpace cs with
  | '"' :: rest =>
    match stringTail? (rest.length + 1) [] rest with
    | none => none
    | some (name, rest) =>
      match skipSpace rest with
      | ':' :: rest => some (name, rest)
      | _ => none
  | _ => none

mutual
def value? : Nat → Nat → List Char → Option (Json × List Char)
  | 0, _, _ => none
  | fuel + 1, depth, cs =>
    match skipSpace cs with
    | 'n' :: 'u' :: 'l' :: 'l' :: rest => some (null, rest)
    | 't' :: 'r' :: 'u' :: 'e' :: rest => some (bool true, rest)
    | 'f' :: 'a' :: 'l' :: 's' :: 'e' :: rest => some (bool false, rest)
    | '"' :: rest => (stringTail? (rest.length + 1) [] rest).map fun (s, rest) => (str s, rest)
    | '-' :: rest => number? true rest
    | '[' :: rest =>
      match depth with
      | 0 => none
      | depth + 1 =>
        match skipSpace rest with
        | ']' :: rest => some (arr [], rest)
        | rest => (items? fuel depth rest).map fun (vs, rest) => (arr vs, rest)
    | '{' :: rest =>
      match depth with
      | 0 => none
      | depth + 1 =>
        match skipSpace rest with
        | '}' :: rest => some (obj [], rest)
        | rest => (fields? fuel depth rest).map fun (fs, rest) => (obj fs, rest)
    | rest => number? false rest

def items? : Nat → Nat → List Char → Option (List Json × List Char)
  | 0, _, _ => none
  | fuel + 1, depth, cs =>
    match value? fuel depth cs with
    | none => none
    | some (v, rest) =>
      match skipSpace rest with
      | ',' :: rest => (items? fuel depth rest).map fun (vs, rest) => (v :: vs, rest)
      | ']' :: rest => some ([v], rest)
      | _ => none

def fields? : Nat → Nat → List Char → Option (List (String × Json) × List Char)
  | 0, _, _ => none
  | fuel + 1, depth, cs =>
    match fieldName? cs with
    | none => none
    | some (name, rest) =>
      match value? fuel depth rest with
      | none => none
      | some (v, rest) =>
        match skipSpace rest with
        | ',' :: rest => (fields? fuel depth rest).map fun (fs, rest) => ((name, v) :: fs, rest)
        | '}' :: rest => some ([(name, v)], rest)
        | _ => none
end

/-- Reads a whole text, keeping fields as they stand, repeated ones included. -/
def ofTextRaw? (s : String) : Option Json :=
  let cs := s.toList
  match value? (2 * cs.length + 2) maxDepth cs with
  | some (v, rest) => if skipSpace rest = [] then some v else none
  | none => none

def ofText? (s : String) : Option Json := (ofTextRaw? s).map canonical

end EntityCache.Json
