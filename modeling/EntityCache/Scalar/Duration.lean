import EntityCache.Text.Character

/-! Durations of ISO 8601 such as `PT4H30M`. Amounts are decimal digits of any script. -/
namespace EntityCache.Duration

def dropAmount (unit : Char) (cs : List Char) : List Char :=
  match cs.takeWhile Text.isDecimalDigit, cs.dropWhile Text.isDecimalDigit with
  | _ :: _, c :: rest => if c = unit then rest else cs
  | _, _ => cs

def dropSeconds (cs : List Char) : List Char :=
  match cs.takeWhile Text.isDecimalDigit, cs.dropWhile Text.isDecimalDigit with
  | _ :: _, '.' :: rest =>
    match rest.takeWhile Text.isDecimalDigit, rest.dropWhile Text.isDecimalDigit with
    | _ :: _, 'S' :: rest => rest
    | _, _ => cs
  | _ :: _, 'S' :: rest => rest
  | _, _ => cs

def dropAmounts (units cs : List Char) : List Char :=
  units.foldl (fun cs unit => dropAmount unit cs) cs

/-- Amounts of years to days, then behind a `T` amounts of hours to seconds. Each may be
missing, but neither part may be empty where its letter stands last. -/
def isWellFormed (text : String) : Bool :=
  let cs := text.toList
  let cs := match cs with
    | '-' :: rest => rest
    | cs => cs
  match cs with
  | 'P' :: rest =>
    rest ≠ [] && match dropAmounts ['Y', 'M', 'W', 'D'] rest with
      | [] => true
      | 'T' :: rest => rest ≠ [] && dropSeconds (dropAmounts ['H', 'M'] rest) == []
      | _ => false
  | _ => false

end EntityCache.Duration
