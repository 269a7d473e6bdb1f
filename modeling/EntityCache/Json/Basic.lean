import EntityCache.Number.Binary64

/-! JSON documents. An object that is built keeps its fields sorted by name, one of each;
an object that was read may still hold repeated fields, until `canonical` settles them. -/
namespace EntityCache

/-- An integer literal within 64 bits, signed or not, is an `int`; every other number is
a `float`. -/
inductive Json where
  | null
  | bool (b : Bool)
  | int (i : Int)
  | float (x : Binary64)
  | str (s : String)
  | arr (items : List Json)
  | obj (fields : List (String × Json))
  deriving Repr, Inhabited

namespace Json

def insertField (name : String) (v : Json) : List (String × Json) → List (String × Json)
  | [] => [(name, v)]
  | (n, w) :: rest =>
    if name < n then (name, v) :: (n, w) :: rest
    else if name = n then (n, v) :: rest
    else (n, w) :: insertField name v rest

/-- Of fields with one name the last counts. -/
def sortFields (fields : List (String × Json)) : List (String × Json) :=
  fields.foldl (fun acc f => insertField f.1 f.2 acc) []

def object (fields : List (String × Json)) : Json := obj (sortFields fields)

mutual
def canonical : Json → Json
  | arr items => arr (canonicalItems items)
  | obj fields => object (canonicalFields fields)
  | null => null
  | bool b => bool b
  | int i => int i
  | float x => float x
  | str s => str s

def canonicalItems : List Json → List Json
  | [] => []
  | v :: rest => canonical v :: canonicalItems rest

def canonicalFields : List (String × Json) → List (String × Json)
  | [] => []
  | (n, v) :: rest => (n, canonical v) :: canonicalFields rest
end

mutual
def height : Json → Nat
  | arr items => itemsHeight items + 1
  | obj fields => fieldsHeight fields + 1
  | _ => 1

def itemsHeight : List Json → Nat
  | [] => 0
  | v :: rest => max (height v) (itemsHeight rest)

def fieldsHeight : List (String × Json) → Nat
  | [] => 0
  | (_, v) :: rest => max (height v) (fieldsHeight rest)
end

def field? (name : String) : Json → Option Json
  | obj fields => fields.lookup name
  | _ => none

def str? : Json → Option String
  | str s => some s
  | _ => none

def isObject : Json → Bool
  | obj _ => true
  | _ => false

def int64? : Json → Option Int64
  | int i => Number.toInt64? i
  | _ => none

end Json

end EntityCache
