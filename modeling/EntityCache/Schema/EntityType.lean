import EntityCache.Scalar.Coercion

/-! Entity types: a name, data properties of which some form the key, and navigation
properties that lead to other types. -/
namespace EntityCache

structure DataProperty where
  name : String
  serverName : Option String := none
  dataType : DataType
  isKey : Bool := false
  isNullable : Bool := true
  default? : Option Value := none
  deriving Repr

namespace DataProperty

/-- What a new entity holds: the default given, else null where that is allowed or a key
is still to come, else the default of the data type. -/
def initialValue (p : DataProperty) : Value :=
  match p.default? with
  | some v => v
  | none => if p.isNullable || p.isKey then .null else p.dataType.defaultValue

def wireName (p : DataProperty) : String := p.serverName.getD p.name

end DataProperty

/-- A scalar navigation lists the foreign keys on its own type, a collection those on the
type it leads to. -/
structure NavigationProperty where
  name : String
  serverName : Option String := none
  target : String
  isScalar : Bool := true
  foreignKeys : List String := []
  inverseForeignKeys : List String := []
  deriving Repr

def NavigationProperty.wireName (p : NavigationProperty) : String := p.serverName.getD p.name

/-- Tells apart the versions that a type goes through, and the types of one catalog from
those of another. -/
structure TypeVersion where
  catalog : Nat
  serial : Nat
  deriving DecidableEq, Repr

structure EntityType where
  name : String
  nameSpace : Option String := none
  defaultResource : Option String := none
  isAbstract : Bool := false
  dataProperties : List DataProperty := []
  navigationProperties : List NavigationProperty := []
  version : TypeVersion := ⟨0, 0⟩
  deriving Repr

namespace EntityType

def dataProperty? (t : EntityType) (name : String) : Option DataProperty :=
  t.dataProperties.find? (·.name = name)

def navigationProperty? (t : EntityType) (name : String) : Option NavigationProperty :=
  t.navigationProperties.find? (·.name = name)

def hasProperty (t : EntityType) (name : String) : Bool :=
  (t.dataProperty? name).isSome || (t.navigationProperty? name).isSome

def keyProperties (t : EntityType) : List DataProperty := t.dataProperties.filter (·.isKey)

def fullName (t : EntityType) : String :=
  match t.nameSpace with
  | some ns => t.name ++ ":#" ++ ns
  | none => t.name

def firstRepeated? : List String → List String → Option String
  | _, [] => none
  | seen, name :: rest =>
    if seen.contains name then some name else firstRepeated? (name :: seen) rest

def propertyNames (t : EntityType) : List String :=
  t.dataProperties.map (·.name) ++ t.navigationProperties.map (·.name)

/-- Property names must differ, and a type that can have instances needs a key. -/
def checked (t : EntityType) : Except Fault EntityType :=
  match firstRepeated? [] t.propertyNames with
  | some name => .error (.value (.propertyRepeated name t.name))
  | none =>
    if !t.isAbstract && t.keyProperties.isEmpty then
      .error (.missingKey (.noKeyProperties t.name))
    else .ok t

def withDataProperty (t : EntityType) (isFrozen : Bool) (p : DataProperty) :
    Except Fault EntityType :=
  if isFrozen then .error (.typeFrozen t.name)
  else if t.hasProperty p.name then .error (.value (.propertyExists p.name t.name))
  else .ok { t with dataProperties := t.dataProperties ++ [p] }

end EntityType

end EntityCache
