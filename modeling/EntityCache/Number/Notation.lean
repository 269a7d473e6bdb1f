import EntityCache.Number.Shortest

/-! How a double is written: in full, or as a number of a JSON text. -/
namespace EntityCache.Binary64

def signText (x : Binary64) : String := if x.isNegative then "-" else ""

def positional (n : Nat) (k : Int) : String :=
  let ds := Nat.toDigits 10 n
  if 0 ≤ k then String.ofList (ds ++ List.replicate k.toNat '0')
  else
    let places := (-k).toNat
    let ds := List.replicate (places + 1 - ds.length) '0' ++ ds
    String.ofList (ds.take (ds.length - places) ++ '.' :: ds.drop (ds.length - places))

def scientific (n : Nat) (k : Int) : String :=
  let ds := Nat.toDigits 10 n
  let e := k + ds.length - 1
  let fraction := if ds.length = 1 then [] else '.' :: ds.drop 1
  String.ofList (ds.take 1 ++ fraction) ++ (if e < 0 then "e-" else "e+") ++ toString e.natAbs

/-- The shortest digits with no exponent and no trailing point; of two digits that are
equally near the larger one is written. -/
def text (x : Binary64) : String :=
  if x.isNaN then "NaN"
  else if x.isInfinite then x.signText ++ "inf"
  else if x.isZero then x.signText ++ "0"
  else
    let (n, k) := Shortest.digits .up x
    x.signText ++ positional n k

/-- The shortest digits as JSON writes them: with a fraction between `1e-5` and `1e16`,
outside that with an exponent; of two digits that are equally near the even one. -/
def jsonText (x : Binary64) : String :=
  if x.isZero then x.signText ++ "0.0"
  else
    let (n, k) := Shortest.digits .toEven x
    let e := k + (Nat.toDigits 10 n).length - 1
    x.signText ++
      if e < -5 || 16 ≤ e then scientific n k
      else if 0 ≤ k then positional n k ++ ".0"
      else positional n k

end EntityCache.Binary64
