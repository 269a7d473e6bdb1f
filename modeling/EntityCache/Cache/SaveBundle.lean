import EntityCache.Cache.Basic
import EntityCache.Scalar.Literal

/-! Pending changes as the bundle that is sent to the service: for each entity its values
by the server's names, and how it has changed. -/
namespace EntityCache

namespace Entity

def wireValues (e : Entity) : List (String × Json) :=
  e.type.dataProperties.map fun p => (p.wireName, p.dataType.toJson ((e.get? p.name).getD .null))

def wireOriginals (e : Entity) : List (String × Json) :=
  e.originals.filterMap fun (name, v) =>
    (e.type.dataProperty? name).map fun p => (p.wireName, p.dataType.toJson v)

/-- Asks the server for a key, where a single temporary one stands in for it. -/
def keyRequest (e : Entity) : List (String × Json) :=
  match e.hasTempKey, e.type.keyProperties with
  | true, [p] => [("autoGeneratedKey", Json.object
      [("propertyName", .str p.wireName), ("autoGeneratedKeyType", .str "Identity")])]
  | _, _ => []

def saveNode (e : Entity) : Except Fault Json :=
  if e.state.isPending then
    let aspect := Json.object ([("entityTypeName", .str e.type.fullName),
      ("entityState", .str e.state.name),
      ("originalValuesMap", Json.object e.wireOriginals)] ++ e.keyRequest)
    .ok (Json.object (e.wireValues ++ [("entityAspect", aspect)]))
  else .error (.state (.nothingToSave e.state.name e.type.name))

end Entity

def Cache.saveBundle (c : Cache) (entities : Option (List InstanceId)) : Except Fault Json := do
  let nodes ← (entities.getD c.changes).mapM fun id => (c.entity id).saveNode
  return Json.object [("entities", .arr nodes), ("saveOptions", .obj [])]

end EntityCache
