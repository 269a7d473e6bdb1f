import EntityCache.Scalar.Coercion

/-! Operands of predicates: literals, property paths and function calls. -/
namespace EntityCache

/-- A literal without a type adopts the type of what it is compared with. -/
inductive Expr where
  | literal (v : Value) (type : Option DataType)
  | property (path : String)
  | call (name : String) (args : List Expr)
  deriving Repr, Inhabited

namespace Expr

def isProperty : Expr → Bool
  | property _ => true
  | _ => false

def resultTypes : List (DataType × List String) :=
  [(.string, ["toupper", "tolower", "trim", "substring", "concat", "replace"]),
    (.int32, ["length", "indexof", "year", "month", "day", "hour", "minute", "second"]),
    (.double, ["round", "floor", "ceiling"]),
    (.boolean, ["substringof", "startswith", "endswith"])]

def resultType? (name : String) : Option DataType :=
  (resultTypes.find? fun entry => entry.2.contains name.toLower).map (·.1)

mutual
/-- The expression as text; text literals stand between quotes as they are. -/
def display : Expr → String
  | literal (.text s) _ => "'" ++ s ++ "'"
  | literal v _ => v.display
  | property path => path
  | call name args => name ++ "(" ++ ", ".intercalate (displayArgs args) ++ ")"

def displayArgs : List Expr → List String
  | [] => []
  | e :: rest => display e :: displayArgs rest
end

end Expr

end EntityCache
