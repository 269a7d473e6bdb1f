import EntityCache.Time.Instant
import EntityCache.Number.Reading
import EntityCache.Text.Character

/-! Timestamps as text: RFC 3339 with an offset, and the laxer forms without one, which
are taken to be in UTC. Offsets are whole minutes. -/
namespace EntityCache

/-- Date and time of day as they are written, second 60 included. -/
structure ClockReading where
  date : Date
  hour : Nat
  minute : Nat
  second : Nat
  nanos : Nat
  deriving DecidableEq, Repr

namespace ClockReading

/-- The instant meant, when the reading is `offset` minutes ahead of UTC. -/
def toInstant? (r : ClockReading) (offset : Int) : Option Instant :=
  if r.date.IsValid ∧ r.hour ≤ 23 ∧ r.minute ≤ 59 ∧ r.second ≤ 60 then
    let leap := r.second == 60
    let second := if leap then 59 else r.second
    some
      { seconds := r.date.toDays * 86400 + r.hour * 3600 + r.minute * 60 + second - offset * 60
        nanos := r.nanos + if leap then 1000000000 else 0 }
  else none

def ofInstant (t : Instant) (offset : Int) : ClockReading :=
  let s := t.seconds + offset * 60
  let ofDay := (s % 86400).toNat
  { date := Date.ofDays (s / 86400)
    hour := ofDay / 3600
    minute := ofDay / 60 % 60
    second := ofDay % 60 + t.nanos / 1000000000
    nanos := t.nanos % 1000000000 }

end ClockReading

namespace Rfc3339

def padded (width n : Nat) : String :=
  let digits := Nat.toDigits 10 n
  String.ofList (List.replicate (width - digits.length) '0' ++ digits)

/-- Four digits for the years 0 to 9999; any other year has a sign and at least four. -/
def yearText (y : Int) : String :=
  if 0 ≤ y ∧ y ≤ 9999 then padded 4 y.natAbs
  else (if y < 0 then "-" else "+") ++ padded 4 y.natAbs

def readingText (r : ClockReading) : String :=
  yearText r.date.year ++ "-" ++ padded 2 r.date.month ++ "-" ++ padded 2 r.date.day ++
    "T" ++ padded 2 r.hour ++ ":" ++ padded 2 r.minute ++ ":" ++
    padded 2 r.second ++ "." ++ padded 3 (r.nanos / 1000000)

def utcText (t : Instant) : String := readingText (ClockReading.ofInstant t 0) ++ "Z"

def offsetText (offset : Int) : String :=
  (if offset < 0 then "-" else "+") ++ padded 2 (offset.natAbs / 60) ++ ":" ++
    padded 2 (offset.natAbs % 60)

def localText (t : Instant) (offset : Int) : String :=
  readingText (ClockReading.ofInstant t offset) ++ offsetText offset

def fixed? (width : Nat) (cs : List Char) : Option (Nat × List Char) :=
  let ds := cs.take width
  if ds.length = width ∧ ds.all Char.isDigit then some (Number.natOfDigits ds, cs.drop width)
  else none

def expect? (c : Char) : List Char → Option (List Char)
  | d :: cs => if d = c then some cs else none
  | [] => none

/-- An optional fraction of a second: nine digits count and the others are dropped. -/
def fraction? : List Char → Option (Nat × List Char)
  | '.' :: cs =>
    let ds := cs.takeWhile Char.isDigit
    if ds = [] then none
    else
      let nine := ds.take 9
      some (Number.natOfDigits (nine ++ List.replicate (9 - nine.length) '0'),
        cs.dropWhile Char.isDigit)
  | cs => some (0, cs)

/-- `Z`, or hours and minutes behind a sign, which may also be U+2212. -/
def offset? : List Char → Option (Int × List Char)
  | [] => none
  | c :: cs =>
    if c = 'Z' ∨ c = 'z' then some (0, cs)
    else if c = '+' ∨ c = '-' ∨ c.toNat = 0x2212 then do
      let (hours, cs) ← fixed? 2 cs
      let cs ← expect? ':' cs
      let (minutes, cs) ← fixed? 2 cs
      if hours ≤ 23 ∧ minutes ≤ 59 then
        let n : Int := hours * 60 + minutes
        some (if c = '+' then n else -n, cs)
      else none
    else none

/-- A full timestamp: the instant and the offset in minutes. -/
def parse? (cs : List Char) : Option (Instant × Int) := do
  let (year, cs) ← fixed? 4 cs
  let cs ← expect? '-' cs
  let (month, cs) ← fixed? 2 cs
  let cs ← expect? '-' cs
  let (day, cs) ← fixed? 2 cs
  let cs ← match cs with
    | c :: cs => if c = 'T' ∨ c = 't' ∨ c = ' ' then some cs else none
    | [] => none
  let (hour, cs) ← fixed? 2 cs
  let cs ← expect? ':' cs
  let (minute, cs) ← fixed? 2 cs
  let cs ← expect? ':' cs
  let (second, cs) ← fixed? 2 cs
  let (nanos, cs) ← fraction? cs
  let (offset, cs) ← offset? cs
  let t ← ClockReading.toInstant? ⟨⟨year, month, day⟩, hour, minute, second, nanos⟩ offset
  if cs = [] then some (t, offset) else none

end Rfc3339

namespace LaxTimestamp

def number? (width : Nat) (cs : List Char) : Option (Nat × List Char) :=
  let cs := Text.skipBlank cs
  let ds := (cs.take width).takeWhile Char.isDigit
  if ds = [] then none else some (Number.natOfDigits ds, cs.drop ds.length)

def year? (cs : List Char) : Option (Int × List Char) :=
  let signed (negative : Bool) (cs : List Char) : Option (Int × List Char) :=
    let ds := cs.takeWhile Char.isDigit
    let n : Int := Number.natOfDigits ds
    if ds = [] then none else some (if negative then -n else n, cs.dropWhile Char.isDigit)
  match Text.skipBlank cs with
  | '-' :: cs => signed true cs
  | '+' :: cs => signed false cs
  | cs => (number? 4 cs).map fun (n, rest) => ((n : Int), rest)

def date? (cs : List Char) : Option (Date × List Char) := do
  let (year, cs) ← year? cs
  let cs ← Rfc3339.expect? '-' cs
  let (month, cs) ← number? 2 cs
  let cs ← Rfc3339.expect? '-' cs
  let (day, cs) ← number? 2 cs
  some (⟨year, month, day⟩, cs)

/-- Seconds may be left out, and then a fraction may not follow. -/
def seconds? : List Char → Option (Nat × Nat × List Char)
  | ':' :: cs => do
    let (second, cs) ← number? 2 cs
    let (nanos, cs) ← Rfc3339.fraction? cs
    some (second, nanos, cs)
  | cs => some (0, 0, cs)

/-- A date, alone or with a time of day behind the letter `T`. -/
def parse? (cs : List Char) : Option Instant := do
  let (date, cs) ← date? cs
  match cs with
  | [] => ClockReading.toInstant? ⟨date, 0, 0, 0, 0⟩ 0
  | c :: cs =>
    if c = 'T' then do
      let (hour, cs) ← number? 2 cs
      let cs ← Rfc3339.expect? ':' cs
      let (minute, cs) ← number? 2 cs
      let (second, nanos, cs) ← seconds? cs
      if cs = [] then ClockReading.toInstant? ⟨date, hour, minute, second, nanos⟩ 0 else none
    else none

end LaxTimestamp

end EntityCache
