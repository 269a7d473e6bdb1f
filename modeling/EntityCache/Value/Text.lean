import EntityCache.Value.Basic
import EntityCache.Number.Notation
import EntityCache.Time.Rfc3339

/-! The two texts of a value: the one that is shown, and the one that identifies it
inside a key. In a key a timestamp is its epoch milliseconds, so that the same instant
with another offset is the same key. -/
namespace EntityCache.Value

mutual
def display : Value → String
  | null => "null"
  | boolean b => if b then "true" else "false"
  | integer i => toString i.toInt
  | float x => x.text
  | text s => s
  | dateTime t => Rfc3339.utcText t
  | dateTimeOffset t offset => Rfc3339.localText t offset
  | duration s => s
  | guid g => g.text
  | binary s => s
  | list items => "[" ++ ", ".intercalate (displayItems items) ++ "]"

def displayItems : List Value → List String
  | [] => []
  | v :: rest => display v :: displayItems rest
end

mutual
def keyText : Value → String
  | null => ""
  | dateTime t => toString t.epochMillis
  | dateTimeOffset t _ => toString t.epochMillis
  | list items => ",".intercalate (keyTexts items)
  | v => display v

def keyTexts : List Value → List String
  | [] => []
  | v :: rest => keyText v :: keyTexts rest
end

end EntityCache.Value
