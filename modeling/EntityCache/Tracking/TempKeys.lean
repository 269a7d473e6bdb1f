import EntityCache.Scalar.Coercion

/-! Temporary keys for entities that the server has not seen yet. Numbers count down from
-1, which no server assigns; timestamps rise by at least a millisecond, the precision that
keys compare at; other keys are fresh identifiers. Clock and identifiers come from a
supply that the generator draws from. -/
namespace EntityCache

/-- The readings of a clock and the fresh identifiers, in the order they are drawn. -/
structure Supply where
  clock : Nat → Instant
  fresh : Nat → Guid

structure TempKeys where
  supply : Supply
  drawn : Nat
  nextNumber : Int64
  lastInstant : Option Instant
  issued : List (String × String)

namespace TempKeys

def start (supply : Supply) (drawn : Nat) : TempKeys := ⟨supply, drawn, -1, none, []⟩

def drawNumber (g : TempKeys) : Int64 × TempKeys :=
  (g.nextNumber, { g with nextNumber := g.nextNumber - 1 })

def drawGuid (g : TempKeys) : Guid × TempKeys :=
  (g.supply.fresh g.drawn, { g with drawn := g.drawn + 1 })

/-- The clock cut to the millisecond, or one millisecond after the last timestamp if the
clock has not moved on. -/
def drawInstant (g : TempKeys) : Instant × TempKeys :=
  let now := (g.supply.clock g.drawn).truncateToMillis
  let next := match g.lastInstant with
    | some last => if now.le last then last.nextMillis else now
    | none => now
  (next, { g with drawn := g.drawn + 1, lastInstant := some next })

def draw? (g : TempKeys) : DataType → Option (Value × TempKeys)
  | .int16 | .int32 | .int64 | .byte | .decimal | .double | .single =>
    let (n, g) := g.drawNumber
    some (.integer n, g)
  | .string =>
    let (id, g) := g.drawGuid
    some (.text id.text, g)
  | .guid =>
    let (id, g) := g.drawGuid
    some (.guid id, g)
  | .dateTime =>
    let (t, g) := g.drawInstant
    some (.dateTime t, g)
  | _ => none

def isIssued (g : TempKeys) (typeName : String) (v : Value) : Bool :=
  g.issued.contains (typeName, v.keyText)

def remember (g : TempKeys) (typeName : String) (v : Value) : TempKeys :=
  if g.isIssued typeName v then g else { g with issued := g.issued ++ [(typeName, v.keyText)] }

def generate? (g : TempKeys) (typeName : String) (d : DataType) :
    Option (Value × TempKeys) :=
  (g.draw? d).map fun (v, g) => (v, g.remember typeName v)

def release (g : TempKeys) (typeName : String) (v : Value) : TempKeys :=
  { g with issued := g.issued.filter (· ≠ (typeName, v.keyText)) }

end TempKeys

end EntityCache
