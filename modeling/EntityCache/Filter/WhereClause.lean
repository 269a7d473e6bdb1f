import EntityCache.Filter.Scope
import EntityCache.Scalar.Literal
import EntityCache.Json.Reader

/-! Predicates as clauses of a JSON query document: `{"Freight":{"gt":100}}`, with
equality written shortest, `{"ShipCity":"London"}`. Paths are written with the server's
names between points; a quantifier's body speaks of the element type, without variables. -/
namespace EntityCache.WhereClause

mutual
def operandText (s : Scope) : Expr → Except Fault String
  | .literal v own => (own.getD .undefined).odataLiteral v
  | .property p => s.catalog.serverPath s.start p "."
  | .call name args =>
    (argumentTexts s args).map fun texts => name ++ "(" ++ ",".intercalate texts ++ ")"

def argumentTexts (s : Scope) : List Expr → Except Fault (List String)
  | [] => .ok []
  | e :: rest =>
    match operandText s e with
    | .error f => .error f
    | .ok text => (argumentTexts s rest).map (text :: ·)
end

/-- A literal must be valid in its type, each item of a list by itself. -/
def literal (d : DataType) (v : Value) : Except Fault Json :=
  if d = .undefined then .ok (d.toJson v)
  else match v with
    | .list items => (items.mapM d.validate).map fun vs => d.toJson (.list vs)
    | v => (d.validate v).map d.toJson

def operand (s : Scope) (adopted : Option DataType) : Expr → Except Fault Json
  | .literal v own => literal (Scope.literalType own adopted) v
  | e => (operandText s e).map .str

def rightSide (s : Scope) (left : Expr) : Expr → Except Fault Json
  | .property p =>
    (operand s none (.property p)).map fun v =>
      Json.object [("value", v), ("isProperty", .bool true)]
  | e => operand s (s.typeOf? left) e

def binary (s : Scope) (op : BinaryOperator) (left right : Expr) : Except Fault Json := do
  let name ← operandText s left
  let v ← rightSide s left right
  if op = .equals then return .obj [(name, v)]
  return .obj [(name, .obj [(op.key, v)])]

mutual
def predicate (s : Scope) : Predicate → Except Fault Json
  | .binary op left right => binary s op left right
  | .negation p => (predicate s p).map fun v => .obj [(negationKey, v)]
  | .junction op [] => .error (.predicate (.emptyJunction op.key))
  | .junction op (p :: ps) => (parts s (p :: ps)).map fun vs => .obj [(op.key, .arr vs)]
  | .quantified op p body =>
    match s.catalog.resolvePath s.start p with
    | .error f => .error f
    | .ok resolved =>
      (predicate (s.enter resolved.target) body).map fun v =>
        .obj [(resolved.joined ".", .obj [(op.key, v)])]
  | .raw text => .ok ((Json.ofText? text).getD (.str text))

def parts (s : Scope) : List Predicate → Except Fault (List Json)
  | [] => .ok []
  | p :: rest =>
    match predicate s p with
    | .error f => .error f
    | .ok v => (parts s rest).map (v :: ·)
end

end EntityCache.WhereClause
