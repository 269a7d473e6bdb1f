import EntityCache.Number.Binary64

/-! The fewest decimal digits that read back as the same double.
Around a number lies the interval of reals that round to it. Decimal grids are tried from
coarse to fine; on the first grid with a point in the interval the nearer of the value's
two neighbours is the answer, and a tie goes as the writer asks. -/
namespace EntityCache.Shortest

inductive Tie where
  | up
  | toEven
  deriving DecidableEq, Repr

/-- The interval of reals that round to a number, in units of `2 ^ unit`; its ends belong
to it when the significand is even. -/
structure Interval where
  low : Nat
  value : Nat
  high : Nat
  closed : Bool
  unit : Int
  deriving Repr

/-- Below a power of two the spacing of the numbers halves, so the lower end is nearer. -/
def Interval.of (x : Binary64) : Interval :=
  let m := x.significand
  let below := if x.magnitude % Binary64.fractionSize = 0 && 1 < x.exponentField then 1 else 2
  { low := 4 * m - below, value := 4 * m, high := 4 * m + 2,
    closed := m % 2 == 0, unit := x.exponent - 2 }

/-- The grid point `n * 10 ^ k` nearest to the value, when one lies in the interval. -/
def Interval.onGrid? (i : Interval) (tie : Tie) (k : Int) : Option Nat :=
  let scale := Binary64.twoPow i.unit * Binary64.tenPow (-k)
  let cell := Binary64.twoPow (-i.unit) * Binary64.tenPow k
  let inside (n : Nat) : Bool :=
    if i.closed then i.low * scale ≤ n * cell && n * cell ≤ i.high * scale
    else i.low * scale < n * cell && n * cell < i.high * scale
  let n := i.value * scale / cell
  let twice := 2 * (i.value * scale % cell)
  let upper := cell < twice || (twice == cell && (tie == .up || n % 2 == 1))
  match inside n, inside (n + 1) with
  | true, true => some (if upper then n + 1 else n)
  | true, false => some n
  | false, true => some (n + 1)
  | false, false => none

def Interval.top (i : Interval) : Int :=
  ((Nat.log2 i.high + 1 : Int) + i.unit) * 30103 / 100000 + 2

def Interval.exact (i : Interval) : Nat × Int :=
  (i.value * Binary64.twoPow i.unit * Nat.pow 5 (-i.unit).toNat, min i.unit 0)

def search (i : Interval) (tie : Tie) : Nat → Int → Nat × Int
  | 0, _ => i.exact
  | tries + 1, k =>
    match i.onGrid? tie k with
    | some n => (n, k)
    | none => search i tie tries (k - 1)

/-- Digits and power of ten of a finite number that is not zero. Seventeen digits always
suffice, so the search ends long before its bound. -/
def digits (tie : Tie) (x : Binary64) : Nat × Int :=
  let i := Interval.of x
  search i tie 40 i.top

end EntityCache.Shortest
