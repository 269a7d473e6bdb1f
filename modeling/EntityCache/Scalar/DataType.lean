import EntityCache.Value.Basic
import EntityCache.Text.Character

/-! The data types of properties: their names, their kinds, and the value that each
starts with. -/
namespace EntityCache

inductive DataType where
  | string
  | int16
  | int32
  | int64
  | byte
  | decimal
  | double
  | single
  | dateTime
  | dateTimeOffset
  | time
  | boolean
  | guid
  | binary
  | undefined
  deriving DecidableEq, Repr

namespace DataType

def all : List DataType :=
  [string, int16, int32, int64, byte, decimal, double, single, dateTime, dateTimeOffset,
    time, boolean, guid, binary, undefined]

def name : DataType → String
  | string => "String"
  | int16 => "Int16"
  | int32 => "Int32"
  | int64 => "Int64"
  | byte => "Byte"
  | decimal => "Decimal"
  | double => "Double"
  | single => "Single"
  | dateTime => "DateTime"
  | dateTimeOffset => "DateTimeOffset"
  | time => "Time"
  | boolean => "Boolean"
  | guid => "Guid"
  | binary => "Binary"
  | undefined => "Undefined"

def schemaMark : List Char := "Edm.".toList

def ofName? (text : String) : Option DataType :=
  let cs := text.toList
  let bare := if schemaMark.isPrefixOf cs then cs.drop schemaMark.length else cs
  all.find? fun d => Text.sameIgnoringCase d.name (String.ofList bare)

def ofValue : Value → DataType
  | .boolean _ => boolean
  | .integer _ => int32
  | .float _ => double
  | .text _ => string
  | .dateTime _ => dateTime
  | .dateTimeOffset _ _ => dateTimeOffset
  | .duration _ => time
  | .guid _ => guid
  | .binary _ => binary
  | .null | .list _ => undefined

def isInteger : DataType → Bool
  | int16 | int32 | int64 | byte => true
  | _ => false

def isFloat : DataType → Bool
  | decimal | double | single => true
  | _ => false

def isNumeric (d : DataType) : Bool := d.isInteger || d.isFloat

def isDate : DataType → Bool
  | dateTime | dateTimeOffset => true
  | _ => false

def defaultValue : DataType → Value
  | string => .text ""
  | int16 | int32 | int64 | byte => .integer 0
  | decimal | double | single => .float Binary64.zero
  | dateTime => .dateTime Instant.year1900
  | dateTimeOffset => .dateTimeOffset Instant.year1900 0
  | time => .duration "PT0S"
  | boolean => .boolean false
  | guid => .guid Guid.nil
  | binary | undefined => .null

end DataType

end EntityCache
