import EntityCache.Filter.Predicate
import EntityCache.Schema.Path

/-! Where the names of an expression are looked up: the type that paths start from, and
the variable of the innermost quantifier around it. -/
namespace EntityCache

structure Scope where
  catalog : Catalog
  start : Target
  lambda : Option String := none
  depth : Nat := 0

namespace Scope

def outermost (c : Catalog) (t : Target) : Scope := { catalog := c, start := t }

def nextVariable (s : Scope) : String := s!"x{s.depth + 1}"

def enter (s : Scope) (element : Target) : Scope :=
  { s with start := element, lambda := some s.nextVariable, depth := s.depth + 1 }

def rooted (s : Scope) (path : String) : String :=
  match s.lambda with
  | some x => x ++ "/" ++ path
  | none => path

/-- The type of an expression as far as it is known without its value. -/
def typeOf? (s : Scope) : Expr → Option DataType
  | .literal _ type => type
  | .property path =>
    match s.catalog.resolvePath s.start path with
    | .ok resolved => resolved.dataType
    | .error _ => none
  | .call name _ => Expr.resultType? name

def literalType (own adopted : Option DataType) : DataType :=
  (own.or adopted).getD .undefined

end Scope

end EntityCache
