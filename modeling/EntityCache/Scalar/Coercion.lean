import EntityCache.Fault
import EntityCache.Scalar.DataType
import EntityCache.Scalar.Duration
import EntityCache.Text.Character
import EntityCache.Value.Text

/-! Raw values brought to a data type. Coercion never fails: what it cannot convert it
hands back as it is, and the strict check then refuses that. -/
namespace EntityCache.DataType

def instantOfText? (s : String) : Option Instant :=
  match Rfc3339.parse? s.toList with
  | some (t, _) => some t
  | none => LaxTimestamp.parse? s.toList

def coerceToInteger (raw : Value) : Value :=
  match raw with
  | .text s => match Number.int64? (Text.trimChars s.toList) with
    | some i => .integer i
    | none => raw
  | .float x => if x.isIntegral then .integer x.toInt64 else raw
  | _ => raw

def coerceToFloat (raw : Value) : Value :=
  match raw with
  | .text s => match Number.double? (Text.trimChars s.toList) with
    | some x => .float x
    | none => raw
  | .integer i => .float (Binary64.ofInt i.toInt)
  | _ => raw

def coerceToBoolean (raw : Value) : Value :=
  match raw with
  | .text s =>
    if Text.sameIgnoringCase s "true" then .boolean true
    else if Text.sameIgnoringCase s "false" then .boolean false
    else raw
  | _ => raw

def coerceToDateTime (raw : Value) : Value :=
  match raw with
  | .text s => match instantOfText? s with
    | some t => .dateTime t
    | none => raw
  | .integer ms => match Instant.ofMillis? ms.toInt with
    | some t => .dateTime t
    | none => raw
  | .dateTimeOffset t _ => .dateTime t
  | _ => raw

def coerceToDateTimeOffset (raw : Value) : Value :=
  match raw with
  | .text s => match Rfc3339.parse? s.toList with
    | some (t, offset) => .dateTimeOffset t offset
    | none => match LaxTimestamp.parse? s.toList with
      | some t => .dateTimeOffset t 0
      | none => raw
  | .dateTime t => .dateTimeOffset t 0
  | _ => raw

/-- Brings a raw value to the type as far as that goes. Null stays null. -/
def coerce (d : DataType) (raw : Value) : Value :=
  match d, raw with
  | _, .null => .null
  | string, .text s => .text s
  | string, .list items => .list items
  | string, other => .text other.display
  | int16, v | int32, v | int64, v | byte, v => coerceToInteger v
  | decimal, v | double, v | single, v => coerceToFloat v
  | boolean, v => coerceToBoolean v
  | dateTime, v => coerceToDateTime v
  | dateTimeOffset, v => coerceToDateTimeOffset v
  | time, .text s => if Duration.isWellFormed s then .duration s else .text s
  | guid, .text s => match Guid.ofChars? s.toList with
    | some g => .guid g
    | none => .text s
  | binary, .text s => .binary s
  | _, v => v

/-- Whether a value is of the type already. Integers pass for every numeric type. -/
def accepts (d : DataType) : Value → Bool
  | .null => true
  | .text _ => d == string || d == undefined
  | .integer _ => d.isNumeric || d == undefined
  | .float _ => d.isFloat || d == undefined
  | .boolean _ => d == boolean || d == undefined
  | .dateTime _ => d == dateTime || d == undefined
  | .dateTimeOffset _ _ => d == dateTimeOffset || d == undefined
  | .duration _ => d == time || d == undefined
  | .guid _ => d == guid || d == undefined
  | .binary _ => d == binary || d == undefined
  | .list _ => d == undefined

def validate (d : DataType) (raw : Value) : Except Fault Value :=
  let v := d.coerce raw
  if d.accepts v then .ok v
  else .error (.value (.unacceptable v.display d.name))

end EntityCache.DataType
