import EntityCache.Scalar.Coercion

/-! Values written out: as a literal of an OData filter, and as a value of a JSON
document. -/
namespace EntityCache.DataType

def doubleQuote (c : Char) : List Char := if c = '\x27' then [c, c] else [c]

/-- Text between single quotes, each quote inside written twice. -/
def quote (s : String) : String :=
  String.ofList ('\x27' :: s.toList.flatMap doubleQuote ++ ['\x27'])

/-- A value of this type as a literal; numbers have a suffix and most others a word in
front of quotes. -/
def literalText (d : DataType) (v : Value) : String :=
  match d with
  | string => quote v.display
  | int16 | int32 | byte | boolean | undefined => v.display
  | int64 => v.display ++ "L"
  | decimal => v.display ++ "m"
  | double => v.display ++ "d"
  | single => v.display ++ "f"
  | dateTime => "datetime'" ++ v.display ++ "'"
  | dateTimeOffset => "datetimeoffset'" ++ v.display ++ "'"
  | time => "time'" ++ v.display ++ "'"
  | guid => "guid'" ++ v.display ++ "'"
  | binary => "binary'" ++ v.display ++ "'"

/-- The filter literal of a value. An undefined type is taken from the value. -/
def odataLiteral (d : DataType) (v : Value) : Except Fault String :=
  match v with
  | .null => .ok "null"
  | .list _ => .error (.value (.listAsLiteral d.name))
  | _ =>
    let effective := if d = undefined then ofValue v else d
    (effective.validate v).map effective.literalText

/-- A single value as JSON. What JSON has no form for is written as text, and a number
that is not finite as null. -/
def scalarJson : Value → Json
  | .null => .null
  | .boolean b => .bool b
  | .integer i => .int i.toInt
  | .float x => if x.isFinite then .float x else .null
  | v => .str v.display

mutual
/-- A value as JSON of this type; the items of a list are coerced one by one. -/
def toJson (d : DataType) : Value → Json
  | .list items => .arr (toJsonItems d items)
  | v => scalarJson (d.coerce v)

def toJsonItems (d : DataType) : List Value → List Json
  | [] => []
  | v :: rest => toJson d v :: toJsonItems d rest
end

end EntityCache.DataType
