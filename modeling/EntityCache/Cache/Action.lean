import EntityCache.Cache.Basic

/-! What is done to a cache: entities are created, attached, edited, settled and detached,
and temporary keys are assigned and replaced. An action may fail and still leave traces:
it returns the cache as it is then, beside its result or fault. -/
namespace EntityCache

abbrev Action (α : Type) := ExceptT Fault (StateM Cache) α

def Action.on {α : Type} (a : Action α) (c : Cache) : Except Fault α × Cache :=
  StateT.run (ExceptT.run a) c

namespace Action

def putEntity (id : InstanceId) (e : Entity) : Action Unit :=
  modify fun c => { c with instances := c.instances.put id e }

def change (id : InstanceId) (f : Entity → Except Fault Entity) : Action Unit := do
  match f ((← get).entity id) with
  | .ok e => putEntity id e
  | .error fault => throw fault

def addInstance (e : Entity) : Action InstanceId := do
  let c ← get
  let (id, is) := c.instances.add e
  set { c with instances := is }
  return id

def keep (name : String) (g : Group) (is : Instances) : Action Unit :=
  modify fun c => { c with groups := Cache.putGroup name g c.groups, instances := is }

def release (typeName : String) (v : Value) : Action Unit :=
  modify fun c => { c with keys := c.keys.release typeName v }

/-- A detached instance of a registered type, which is frozen from then on. -/
def create (typeName : String) : Action InstanceId := do
  let t ← (← get).catalog.find typeName
  if t.isAbstract then throw (.value (.instanceOfAbstract t.name))
  modify fun c => { c with instances := c.instances.freeze t.version }
  addInstance (Entity.new t)

def openGroup (t : EntityType) : Action Group := do
  let c ← get
  match c.groups.get? t.name with
  | some g => return g
  | none =>
    let g ← Group.new t
    set { c with groups := Cache.putGroup t.name g c.groups }
    return g

def isUnset (p : DataProperty) (v : Value) : Bool :=
  v.isNull || v.same p.dataType.defaultValue

/-- Gives an entity whose key is unset a temporary one, and says which. Keys of several
parts are left to the caller. -/
def assignTempKey (id : InstanceId) : Action (Option Value) := do
  let c ← get
  let e := c.entity id
  match e.type.keyProperties with
  | [p] =>
    if !isUnset p ((e.get? p.name).getD .null) then return none
    match c.keys.generate? e.type.name p.dataType with
    | none => throw (.missingKey (.notGenerated e.type.name p.name p.dataType.name))
    | some (v, keys) =>
      set { c with
        keys := keys
        instances := c.instances.put id { e.write p.name v with hasTempKey := true } }
      return some v
  | _ => return none

def withdrawTempKey (id : InstanceId) (temp : Value) : Action Unit := do
  let e := (← get).entity id
  release e.type.name temp
  let e := match e.type.keyProperties.head? with
    | some p => e.write p.name p.initialValue
    | none => e
  putEntity id { e with hasTempKey := false }

/-- Attaches an entity and names the instance that is cached then. Without a strategy a
key that is cached already is refused. -/
def attach (id : InstanceId) (state : EntityState) (strategy : Option MergeStrategy) :
    Action InstanceId := do
  let t := ((← get).entity id).type
  discard ((← get).catalog.find t.name)
  let temp ← if state = .added then assignTempKey id else pure none
  let g ← openGroup t
  match g.attach (← get).instances id state (strategy.getD .disallowed) with
  | .ok (cached, g, is) =>
    keep t.name g is
    return cached
  | .error fault =>
    if let some v := temp then withdrawTempKey id v
    throw fault

def add (id : InstanceId) : Action InstanceId := attach id .added none

def detach (id : InstanceId) : Action InstanceId := do
  let c ← get
  let e := c.entity id
  match c.groups.get? e.type.name with
  | none => throw (.inconsistent (.noGroup e.type.name))
  | some g =>
    let (g, is) ← g.detach c.instances id
    keep e.type.name g is
    if e.hasTempKey then
      match e.key with
      | .ok k => k.values.forM (release e.type.name)
      | .error _ => pure ()
    return id

def stateOf (id : InstanceId) : Action EntityState := return ((← get).entity id).state

/-- Marks an entity for deletion; an Added one leaves the cache at once. -/
def delete (id : InstanceId) : Action EntityState := do
  if (← stateOf id) = .added then
    discard (detach id)
    return .detached
  change id Entity.markDeleted
  stateOf id

def acceptEntity (id : InstanceId) : Action EntityState := do
  match ← stateOf id with
  | .deleted =>
    discard (detach id)
    return .detached
  | .detached => throw (.state (.acceptDetached ((← get).entity id).type.name))
  | _ =>
    change id fun e => .ok e.acceptChanges
    stateOf id

def rejectEntity (id : InstanceId) : Action EntityState := do
  match ← stateOf id with
  | .added =>
    discard (detach id)
    return .detached
  | .detached => throw (.state (.rejectDetached ((← get).entity id).type.name))
  | _ =>
    change id fun e => .ok e.rejectChanges
    stateOf id

def acceptChanges : Action Unit := do
  (← get).changes.forM fun id => discard (acceptEntity id)

def rejectChanges : Action (List InstanceId) := do
  let pending := (← get).changes
  pending.forM fun id => discard (rejectEntity id)
  return pending

/-- Detaches everything and starts over, with a new generator of keys. -/
def clear : Action Unit :=
  modify fun c =>
    { c with
      instances := (c.entities none none).foldl
        (fun is id => is.put id (is.entity id).markDetached) c.instances
      groups := []
      keys := TempKeys.start c.keys.supply c.keys.drawn }

def cascade (old new : Value) (refs : List (String × String)) : Action Unit :=
  refs.forM fun (typeName, property) => do
    let c ← get
    match c.groups.get? typeName with
    | none => pure ()
    | some g =>
      let (_, g, is) ← g.updateForeignKey c.instances property old new
      keep typeName g is

def replaceTempKey (t : EntityType) (refs : List (String × String)) (temp real : Value) :
    Action InstanceId := do
  let c ← get
  match c.groups.get? t.name with
  | none => throw (.inconsistent (.fixupWithoutGroup t.name))
  | some g =>
    let (id, g, is) ← g.fixupKey c.instances temp real
    keep t.name g is
    let k ← (is.entity id).key
    let new := (k.values.head?).getD .null
    let old := match t.keyProperties.head? with
      | some p => p.dataType.coerce temp
      | none => temp
    release t.name old
    cascade old new refs
    return id

/-- Replaces a temporary key in the entity and in every foreign key that refers to it. -/
def fixupKey (typeName : String) (temp real : Value) : Action InstanceId := do
  let c ← get
  let t ← c.catalog.find typeName
  replaceTempKey t (c.catalog.foreignKeyRefs t.name) temp real

end Action

end EntityCache
