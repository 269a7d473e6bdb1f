import EntityCache.Schema.EntityType
import EntityCache.Table
import EntityCache.Text.Character
import EntityCache.Text.Pieces

/-! The catalog of entity types and of the resources that deliver them. Types keep the
order of their registration. -/
namespace EntityCache

/-- Under `camelCase` the client writes names with a small first letter and the server
with a capital one. -/
inductive Naming where
  | none
  | camelCase
  deriving DecidableEq, Repr

namespace Naming

def toServer : Naming → String → String
  | none, name => name
  | camelCase, name => Text.mapFirst Char.toUpper name

def toClient : Naming → String → String
  | none, name => name
  | camelCase, name => Text.mapFirst Char.toLower name

end Naming

structure Catalog where
  label : Nat := 0
  naming : Naming := .none
  types : List EntityType := []
  resources : Table String := []
  nextSerial : Nat := 0
  deriving Repr

namespace Catalog

/-- A name without its namespace: what precedes `:#`, or else what follows the last
point. -/
def shortName (name : String) : String :=
  match Text.beforeFirst? [':', '#'] name.toList with
  | some short => String.ofList short
  | none => Text.afterLast '.' name

def type? (c : Catalog) (name : String) : Option EntityType := c.types.find? (·.name = name)

def find? (c : Catalog) (name : String) : Option EntityType := c.type? (shortName name)

def find (c : Catalog) (name : String) : Except Fault EntityType :=
  match c.find? name with
  | some t => .ok t
  | none => .error (.typeNotFound name)

def typeOfResource? (c : Catalog) (resource : String) : Option EntityType :=
  (c.resources.get? resource).bind c.type?

def nameOnServer (c : Catalog) (given : Option String) (name : String) : Option String :=
  some (given.getD (c.naming.toServer name))

def namedOnServer (c : Catalog) (p : DataProperty) : DataProperty :=
  { p with serverName := c.nameOnServer p.serverName p.name }

def withServerNames (c : Catalog) (t : EntityType) : EntityType :=
  { t with
    dataProperties := t.dataProperties.map c.namedOnServer
    navigationProperties := t.navigationProperties.map fun p =>
      { p with serverName := c.nameOnServer p.serverName p.name } }

/-- The default resource of a type counts only where nothing is mapped yet. -/
def withDefaultResource (c : Catalog) (t : EntityType) : Table String :=
  match t.defaultResource with
  | none => c.resources
  | some r => c.resources.putNew r t.name

def stamp (c : Catalog) (t : EntityType) : EntityType :=
  { t with version := ⟨c.label, c.nextSerial⟩ }

def withType (c : Catalog) (t : EntityType) : Except Fault Catalog :=
  if (c.type? t.name).isSome then .error (.typeExists t.name)
  else .ok { c with
      types := c.types ++ [c.stamp (c.withServerNames t)]
      resources := c.withDefaultResource t
      nextSerial := c.nextSerial + 1 }

def withResource (c : Catalog) (resource typeName : String) : Except Fault Catalog := do
  let t ← c.find typeName
  return { c with resources := c.resources.put resource t.name }

/-- A new version of a type with one more data property, which takes the place of the old
one. Frozen versions, those that have instances, are not extended. -/
def withDataProperty (c : Catalog) (frozen : List TypeVersion) (typeName : String)
    (p : DataProperty) : Except Fault Catalog := do
  let t ← c.find typeName
  let extended ← t.withDataProperty (frozen.contains t.version) (c.namedOnServer p)
  return { c with
    types := c.types.map fun u => if u.name = t.name then c.stamp extended else u
    nextSerial := c.nextSerial + 1 }

def addNew (refs : List (String × String)) (r : String × String) : List (String × String) :=
  if refs.contains r then refs else refs ++ [r]

/-- Every pair of a type and a property on it that holds a foreign key to `typeName`:
those of the scalar navigations that lead to it, then the inverse ones of its own. -/
def foreignKeyRefs (c : Catalog) (typeName : String) : List (String × String) :=
  let direct := c.types.flatMap fun t =>
    (t.navigationProperties.filter fun p => p.isScalar && p.target = typeName).flatMap fun p =>
      p.foreignKeys.map fun fk => (t.name, fk)
  let inverse := match c.find? typeName with
    | none => []
    | some t => t.navigationProperties.flatMap fun p =>
      p.inverseForeignKeys.map fun fk => (p.target, fk)
  (direct ++ inverse).foldl addNew []

end Catalog

end EntityCache
