import EntityCache.Filter.ExprReader
import EntityCache.Filter.Operator

/-! Predicates over the properties of an entity, and the ways to build them. -/
namespace EntityCache

/-- A raw predicate is a fragment of a filter that is sent as it stands. -/
inductive Predicate where
  | binary (op : BinaryOperator) (left right : Expr)
  | negation (p : Predicate)
  | junction (op : BooleanOperator) (parts : List Predicate)
  | quantified (op : Quantifier) (path : String) (body : Predicate)
  | raw (text : String)
  deriving Repr, Inhabited

namespace Predicate

/-- Membership takes a list that is not empty, and nothing else takes a list. -/
def checkOperand (left : String) (op : BinaryOperator) (v : Value) : Except Fault Unit :=
  match op, v with
  | .isIn, .list [] => .error (.predicate (.inWithoutValues left))
  | .isIn, .list _ => .ok ()
  | .isIn, _ => .error (.predicate (.inWithoutList left))
  | op, .list _ => .error (.predicate (.comparedWithList op.key left))
  | _, _ => .ok ()

def create (left operator : String) (v : Value) : Except Fault Predicate := do
  let op ← BinaryOperator.parse operator
  checkOperand left op v
  let e ← Expr.parse left
  return binary op e (.literal v none)

def compare (left operator : String) (right : Expr) : Except Fault Predicate := do
  let op ← BinaryOperator.parse operator
  if op = .isIn then throw (.predicate .inWithExpression)
  let e ← Expr.parse left
  return binary op e right

/-- A single part stands alone; no part at all is refused. -/
def join (op : BooleanOperator) : List Predicate → Except Fault Predicate
  | [] => .error (.predicate (.junctionWithoutParts op.key))
  | [p] => .ok p
  | parts => .ok (junction op parts)

/-- Joins two predicates; a junction of the same operator takes the second one in. -/
def combine (op : BooleanOperator) (p q : Predicate) : Predicate :=
  match p with
  | junction o parts => if o = op then junction o (parts ++ [q]) else junction op [p, q]
  | p => junction op [p, q]

def andAlso (p q : Predicate) : Predicate := combine .and p q
def orElse (p q : Predicate) : Predicate := combine .or p q

def negate : Predicate → Predicate
  | negation p => p
  | p => negation p

end Predicate

end EntityCache
