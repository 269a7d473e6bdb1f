import EntityCache.Fault
import EntityCache.Text.Character

/-! The operators of predicates: their keys, the other spellings that are read for them,
and their words in OData filters. -/
namespace EntityCache

inductive BinaryOperator where
  | equals
  | notEquals
  | lessThan
  | lessThanOrEqual
  | greaterThan
  | greaterThanOrEqual
  | startsWith
  | endsWith
  | contains
  | isIn
  deriving DecidableEq, Repr

inductive BooleanOperator where
  | and
  | or
  deriving DecidableEq, Repr

inductive Quantifier where
  | any
  | all
  deriving DecidableEq, Repr

/-- The form in which spellings are compared: trimmed, and A to Z in lower case. -/
def spelling (text : String) : String := (Text.trim text).toLower

def bySpelling {α : Type} (table : List (α × List String)) (text : String) : Option α :=
  (table.find? fun entry => entry.2.contains (spelling text)).map (·.1)

namespace BinaryOperator

def key : BinaryOperator → String
  | equals => "eq"
  | notEquals => "ne"
  | lessThan => "lt"
  | lessThanOrEqual => "le"
  | greaterThan => "gt"
  | greaterThanOrEqual => "ge"
  | startsWith => "startswith"
  | endsWith => "endswith"
  | contains => "contains"
  | isIn => "in"

def spellings : List (BinaryOperator × List String) :=
  [(equals, ["eq", "==", "=", "equals"]),
    (notEquals, ["ne", "!=", "~=", "notequals"]),
    (lessThan, ["lt", "<", "lessthan"]),
    (lessThanOrEqual, ["le", "<=", "lessthanorequal"]),
    (greaterThan, ["gt", ">", "greaterthan"]),
    (greaterThanOrEqual, ["ge", ">=", "greaterthanorequal"]),
    (startsWith, ["startswith"]),
    (endsWith, ["endswith"]),
    (contains, ["contains", "substringof"]),
    (isIn, ["in"])]

def parse (text : String) : Except Fault BinaryOperator :=
  match bySpelling spellings text with
  | some op => .ok op
  | none => .error (.predicate (.unknownBinaryOperator text))

def isFunction : BinaryOperator → Bool
  | startsWith | endsWith | contains => true
  | _ => false

end BinaryOperator

namespace BooleanOperator

def key : BooleanOperator → String
  | and => "and"
  | or => "or"

def spellings : List (BooleanOperator × List String) :=
  [(and, ["and", "&&"]), (or, ["or", "||"])]

def parse (text : String) : Except Fault BooleanOperator :=
  match bySpelling spellings text with
  | some op => .ok op
  | none => .error (.predicate (.unknownBooleanOperator text))

end BooleanOperator

namespace Quantifier

def key : Quantifier → String
  | any => "any"
  | all => "all"

def spellings : List (Quantifier × List String) :=
  [(any, ["any", "some"]), (all, ["all", "every"])]

def parse (text : String) : Except Fault Quantifier :=
  match bySpelling spellings text with
  | some op => .ok op
  | none => .error (.predicate (.unknownQuantifier text))

end Quantifier

def negationKey : String := "not"

def readNegation (text : String) : Except Fault Unit :=
  if ["not", "!", "~"].contains (spelling text) then .ok ()
  else .error (.predicate (.unknownUnaryOperator text))

/-- The word of an operator in an OData filter; only `contains` has another one there. -/
def odataWord (key : String) : String := if key = "contains" then "substringof" else key

end EntityCache
