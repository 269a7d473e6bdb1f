import EntityCache.Number.Binary64

/-! Numbers read from text: whole numbers of 64 bits and doubles, in ASCII digits. -/
namespace EntityCache.Number

def digitValue (c : Char) : Nat := c.toNat - '0'.toNat

def natOfDigits (cs : List Char) : Nat := cs.foldl (fun n c => 10 * n + digitValue c) 0

def signed : List Char → Bool × List Char
  | '+' :: cs => (false, cs)
  | '-' :: cs => (true, cs)
  | cs => (false, cs)

def isDigits (cs : List Char) : Bool := cs ≠ [] && cs.all Char.isDigit

def int64? (cs : List Char) : Option Int64 :=
  let (negative, ds) := signed cs
  if isDigits ds then
    let n : Int := natOfDigits ds
    toInt64? (if negative then -n else n)
  else none

def exponent? : List Char → Option Int
  | [] => some 0
  | c :: cs =>
    if c = 'e' ∨ c = 'E' then
      let (negative, ds) := signed cs
      if isDigits ds then
        let n : Int := natOfDigits ds
        some (if negative then -n else n)
      else none
    else none

def unsignedDouble? (negative : Bool) (cs : List Char) : Option Binary64 :=
  let whole := cs.takeWhile Char.isDigit
  let rest := cs.dropWhile Char.isDigit
  let (fraction, rest) := match rest with
    | '.' :: r => (r.takeWhile Char.isDigit, r.dropWhile Char.isDigit)
    | r => ([], r)
  if whole = [] ∧ fraction = [] then none
  else (exponent? rest).map fun e =>
    Binary64.ofDecimal negative (natOfDigits (whole ++ fraction)) (e - fraction.length)

def double? (cs : List Char) : Option Binary64 :=
  let (negative, rest) := signed cs
  let word := String.ofList (rest.map Char.toLower)
  if word = "inf" ∨ word = "infinity" then some (Binary64.infinity negative)
  else if word = "nan" then some (if negative then Binary64.nan.negate else Binary64.nan)
  else unsignedDouble? negative rest

end EntityCache.Number
