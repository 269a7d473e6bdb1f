import EntityCache.Filter.Scope
import EntityCache.Scalar.Literal

/-! Predicates as the text of an OData filter. Paths are written with the server's names
between slashes. Each quantifier binds a variable named for its depth, and every path in
its body starts with that variable, so nested bodies never share one. -/
namespace EntityCache

inductive Fragment where
  | one (text : String)
  | many (texts : List String)
  deriving DecidableEq, Repr

def Fragment.single : Fragment → Except Fault String
  | one text => .ok text
  | many _ => .error (.predicate .misplacedList)

namespace OData

def literal (d : DataType) : Value → Except Fault Fragment
  | .list items => (items.mapM d.odataLiteral).map .many
  | v => (d.odataLiteral v).map .one

def path (s : Scope) (p : String) : Except Fault Fragment :=
  (s.catalog.serverPath s.start p "/").map fun text => .one (s.rooted text)

mutual
def operand (s : Scope) (adopted : Option DataType) : Expr → Except Fault Fragment
  | .literal v own => literal (Scope.literalType own adopted) v
  | .property p => path s p
  | .call name args =>
    match arguments s args with
    | .error f => .error f
    | .ok texts => .ok (.one (name ++ "(" ++ ",".intercalate texts ++ ")"))

def arguments (s : Scope) : List Expr → Except Fault (List String)
  | [] => .ok []
  | e :: rest =>
    match operand s none e with
    | .error f => .error f
    | .ok fragment =>
      match fragment.single with
      | .error f => .error f
      | .ok text => (arguments s rest).map (text :: ·)
end

def membership (left : String) (right : Fragment) : String :=
  let values := match right with
    | .one v => [v]
    | .many vs => vs
  " or ".intercalate (values.map fun v => "(" ++ left ++ " eq " ++ v ++ ")")

/-- A comparison of operands already formatted. The word for `contains` takes what is
sought first. -/
def comparison (op : BinaryOperator) (left right : String) : String :=
  let word := odataWord op.key
  if op.isFunction then
    if op = .contains then word ++ "(" ++ right ++ "," ++ left ++ ") eq true"
    else word ++ "(" ++ left ++ "," ++ right ++ ") eq true"
  else left ++ " " ++ word ++ " " ++ right

def binary (s : Scope) (op : BinaryOperator) (left right : Expr) : Except Fault String := do
  let l ← operand s none left
  let l ← l.single
  let r ← operand s (s.typeOf? left) right
  if op = .isIn then return membership l r
  let r ← r.single
  return comparison op l r

/-- Where a quantifier ranges. From an entity type only a collection will do. -/
def collection (s : Scope) (p : String) : Except Fault ResolvedPath := do
  let resolved ← s.catalog.resolvePath s.start p
  if !s.start.isAnonymous && !resolved.isCollection then
    throw (.predicate (.notACollection p s.start.name))
  return resolved

mutual
def predicate (s : Scope) : Predicate → Except Fault String
  | .binary op left right => binary s op left right
  | .negation p => (predicate s p).map fun text => odataWord negationKey ++ " (" ++ text ++ ")"
  | .junction op [] => .error (.predicate (.emptyJunction op.key))
  | .junction op (p :: ps) =>
    (parts s (p :: ps)).map fun texts =>
      (" " ++ odataWord op.key ++ " ").intercalate texts
  | .quantified op p body =>
    match collection s p with
    | .error f => .error f
    | .ok resolved =>
      (predicate (s.enter resolved.target) body).map fun text =>
        s.rooted (resolved.joined "/") ++ "/" ++ odataWord op.key ++ "(" ++ s.nextVariable ++
          ": " ++ text ++ ")"
  | .raw text => .ok text

def parts (s : Scope) : List Predicate → Except Fault (List String)
  | [] => .ok []
  | p :: rest =>
    match predicate s p with
    | .error f => .error f
    | .ok text => (parts s rest).map (("(" ++ text ++ ")") :: ·)
end

end OData

def Predicate.untypedText (p : Predicate) : Except Fault String :=
  OData.predicate (Scope.outermost {} .anonymous) p

end EntityCache
