import EntityCache.Schema.EntityType
import EntityCache.Value.Equality

/-! The identity of an entity: its type and its key values in order. -/
namespace EntityCache

structure EntityKey where
  typeName : String
  values : List Value
  deriving Repr

namespace EntityKey

def delimiter : String := ":::"

/-- One value for each key property, each brought to the type of its property. -/
def make (t : EntityType) (values : List Value) : Except Fault EntityKey :=
  let properties := t.keyProperties
  if properties.length = values.length then
    .ok ⟨t.name, List.zipWith (fun p v => p.dataType.coerce v) properties values⟩
  else .error (.missingKey (.wrongArity t.name properties.length values.length))

def inGroup (k : EntityKey) : String := delimiter.intercalate (k.values.map Value.keyText)

def isComplete (k : EntityKey) : Bool := k.values.all fun v => !v.isNull

def same (a b : EntityKey) : Bool := a.typeName == b.typeName && a.inGroup == b.inGroup

def hashFeed (k : EntityKey) : List Value.HashWord := [.chars k.typeName, .chars k.inGroup]

def text (k : EntityKey) : String := k.typeName ++ ":(" ++ k.inGroup ++ ")"

end EntityKey

end EntityCache
