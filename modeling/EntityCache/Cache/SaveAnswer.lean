import EntityCache.Cache.QueryAnswer
import EntityCache.Cache.SaveBundle

/-! The answer to a save, brought back into the cache: first the keys that the service has
assigned, then the states, then the values that it returned. -/
namespace EntityCache

structure KeyAssignment where
  typeName : String
  temp : Value
  real : Value
  deriving Repr

structure SaveAnswer where
  entities : List Json := []
  keyAssignments : List KeyAssignment := []
  deriving Repr

namespace SaveAnswer

def assignmentFields : List (List String) :=
  [["EntityTypeName", "entityTypeName"], ["TempValue", "tempValue"], ["RealValue", "realValue"]]

def fieldNames : List (List String) := [["Entities", "entities"], ["KeyMappings", "keyMappings"]]

def assignment? (v : Json) : Option KeyAssignment := do
  match ← Json.recordFields? assignmentFields v with
  | [some name, some temp, some real] =>
    return ⟨← name.str?, Value.ofJson temp, Value.ofJson real⟩
  | _ => none

def ofJson? (v : Json) : Option SaveAnswer := do
  match ← Json.recordFields? fieldNames v with
  | [entities, assignments] =>
    return {
      entities := ← Json.optionalField? [] Json.itemList? entities
      keyAssignments := ← Json.optionalField? []
        (fun m => (Json.itemList? m).bind (·.mapM assignment?)) assignments }
  | _ => none

def ofJson (v : Json) : Except Fault SaveAnswer :=
  match ofJson? v with
  | some result => .ok result
  | none => .error (.document .unreadable)

end SaveAnswer

namespace Action

/-- A saved entity is settled: a Deleted one leaves the cache, a changed one has no more
changes. -/
def settle (id : InstanceId) : Action Unit := do
  match ← stateOf id with
  | .deleted => discard (detach id)
  | .added | .modified => change id fun e => .ok e.acceptChanges
  | _ => pure ()

def mergeSaved (node : Json) : Action Unit := do
  let c ← get
  match c.declaredType? c.service.format node with
  | none => pure ()
  | some t =>
    let values := t.keyProperties.map fun p =>
      ((node.field? p.wireName).map Value.ofJson).getD .null
    match ← c.find? t.name values with
    | none => pure ()
    | some id =>
      let e := c.entity id
      putEntity id (e.mergeFrom (e.withNodeValues t node))

def applySave (saved : List InstanceId) (result : SaveAnswer) : Action Unit := do
  result.keyAssignments.forM fun m => discard (fixupKey m.typeName m.temp m.real)
  saved.forM settle
  result.entities.forM mergeSaved

end Action

/-- Sends every pending change and applies the answer. Without one nothing is sent. -/
def Cache.saveChanges (c : Cache) (transport : Transport) : Exchange SaveAnswer × Cache :=
  let saved := c.changes
  if saved.isEmpty then (⟨[], .ok {}⟩, c)
  else match c.saveBundle (some saved) with
    | .error fault => (⟨[], .error fault⟩, c)
    | .ok bundle =>
      let request := c.service.saveRequest bundle
      match (transport request).bind SaveAnswer.ofJson with
      | .error fault => (⟨[request], .error fault⟩, c)
      | .ok result =>
        let (outcome, c) := (Action.applySave saved result).on c
        (⟨[request], outcome.map fun _ => result⟩, c)

end EntityCache
