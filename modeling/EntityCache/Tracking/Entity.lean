import EntityCache.Tracking.Key
import EntityCache.Tracking.State
import EntityCache.Table

/-! One entity: its values, and what has to be remembered of its changes. An entity in a
group knows the key that the group holds it under. -/
namespace EntityCache

structure Entity where
  type : EntityType
  values : Table Value
  state : EntityState := .detached
  originals : Table Value := []
  hasTempKey : Bool := false
  groupKey : Option String := none
  deriving Repr

namespace Entity

def new (t : EntityType) : Entity :=
  { type := t, values := t.dataProperties.map fun p => (p.name, p.initialValue) }

instance : Inhabited Entity := ⟨new { name := "" }⟩

def isAttached (e : Entity) : Bool := e.groupKey.isSome

def get? (e : Entity) (name : String) : Option Value := e.values.get? name

/-- Writes a value without any bookkeeping. -/
def write (e : Entity) (name : String) (v : Value) : Entity :=
  { e with values := e.values.put name v }

/-- Edits of Unchanged and Modified entities remember the value before the first one. -/
def recordEdit (e : Entity) (name : String) (old : Value) : Entity :=
  match e.state with
  | .unchanged | .modified =>
    { e with originals := e.originals.putNew name old, state := .modified }
  | _ => e

/-- Assigns a data property. The key of an attached entity and anything of a deleted one
cannot be assigned; the same value again is no edit. -/
def set (e : Entity) (name : String) (v : Value) : Except Fault Entity :=
  match e.type.dataProperty? name with
  | none => .error (.propertyNotFound name name e.type.name)
  | some p =>
    if p.isKey && e.isAttached then .error (.state (.keyOfAttached name))
    else if e.state = .deleted then .error (.state (.editOfDeleted name))
    else
      let v := p.dataType.coerce v
      let old := (e.get? name).getD .null
      let written := e.write name v
      .ok (if old.same v then written else written.recordEdit name old)

/-- Copies the data properties that the source has a value for, and forgets local edits. -/
def mergeFrom (e source : Entity) : Entity :=
  let values := e.type.dataProperties.foldl (fun values p =>
    match source.get? p.name with
    | some v => values.put p.name v
    | none => values) e.values
  { e with values, originals := [] }

def key (e : Entity) : Except Fault EntityKey :=
  EntityKey.make e.type (e.type.keyProperties.map fun p => (e.get? p.name).getD .null)

def moveTo (e : Entity) (next : EntityState) : Except Fault Entity :=
  if e.state.canBecome next then .ok { e with state := next }
  else .error (.state (.transition e.state.name e.type.name next.name))

def markUnchanged (e : Entity) : Except Fault Entity :=
  (e.moveTo .unchanged).map ({ · with originals := [] })

def markModified (e : Entity) : Except Fault Entity := e.moveTo .modified

/-- Deleted; an Added entity becomes Detached instead, as the server never knew it. -/
def markDeleted (e : Entity) : Except Fault Entity :=
  match e.state with
  | .added => .ok { e with state := .detached }
  | .detached => .error (.state (.deleteDetached e.type.name))
  | _ => e.moveTo .deleted

def markDetached (e : Entity) : Entity :=
  { e with state := .detached, originals := [], groupKey := none }

def acceptChanges (e : Entity) : Entity :=
  let state := match e.state with
    | .deleted | .detached => EntityState.detached
    | _ => .unchanged
  { e with originals := [], state }

def rejectChanges (e : Entity) : Entity :=
  let state := match e.state with
    | .added | .detached => EntityState.detached
    | _ => .unchanged
  { e with
    values := e.originals.foldl (fun values o => values.put o.1 o.2) e.values
    originals := []
    state }

end Entity

end EntityCache
