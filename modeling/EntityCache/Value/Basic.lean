import EntityCache.Value.Guid
import EntityCache.Json.Text
import EntityCache.Time.Instant

/-! Values that a property holds or a literal carries. Durations and binary data keep
their text. A timestamp with an offset keeps the offset in minutes. -/
namespace EntityCache

inductive Value where
  | null
  | boolean (b : Bool)
  | integer (i : Int64)
  | float (x : Binary64)
  | text (s : String)
  | dateTime (t : Instant)
  | dateTimeOffset (t : Instant) (offset : Int)
  | duration (s : String)
  | guid (g : Guid)
  | binary (s : String)
  | list (items : List Value)
  deriving Repr, Inhabited

namespace Value

def kindName : Value → String
  | null => "Null"
  | boolean _ => "Boolean"
  | integer _ => "Integer"
  | float _ => "Float"
  | text _ => "Text"
  | dateTime _ => "DateTime"
  | dateTimeOffset _ _ => "DateTimeOffset"
  | duration _ => "Duration"
  | guid _ => "Guid"
  | binary _ => "Binary"
  | list _ => "List"

def isNull : Value → Bool
  | null => true
  | _ => false

/-- Integers, and doubles without a fraction clamped to 64 bits. -/
def toInt64? : Value → Option Int64
  | integer i => some i
  | float x => if x.isIntegral then some x.toInt64 else none
  | _ => none

def toDouble? : Value → Option Binary64
  | integer i => some (Binary64.ofInt i.toInt)
  | float x => some x
  | _ => none

def toText? : Value → Option String
  | text s | duration s | binary s => some s
  | _ => none

def toBool? : Value → Option Bool
  | boolean b => some b
  | _ => none

def epochMillis? : Value → Option Int
  | dateTime t => some t.epochMillis
  | dateTimeOffset t _ => some t.epochMillis
  | _ => none

mutual
/-- A raw value off the wire. An object is kept as its text. -/
def ofJson : Json → Value
  | .null => null
  | .bool b => boolean b
  | .int i => match Json.int64? (.int i) with
    | some n => integer n
    | none => float (Binary64.ofInt i)
  | .float x => float x
  | .str s => text s
  | .arr items => list (ofJsonItems items)
  | .obj fields => text (Json.text (.obj fields))

def ofJsonItems : List Json → List Value
  | [] => []
  | v :: rest => ofJson v :: ofJsonItems rest
end

end Value

end EntityCache
