import EntityCache.Tracking.Instances

/-! The cached entities of one type. They live in numbered slots; a slot that is given up
is remembered and taken again first, so that no entity moves while it stays. An index
leads from the text of each key to the slot of its entity. An operation that fails leaves
the group and the entities as they were. -/
namespace EntityCache

structure Group where
  type : EntityType
  slots : List (Option InstanceId) := []
  free : List Nat := []
  index : Table Nat := []
  deriving Repr

namespace Group

def new (t : EntityType) : Except Fault Group :=
  if t.isAbstract then .error (.value (.groupOfAbstract t.name)) else .ok { type := t }

def size (g : Group) : Nat := g.index.length

/-- The entity in a slot; the index must not lead to an empty one. -/
def occupant (g : Group) (slot : Nat) : Except Fault InstanceId :=
  match g.slots[slot]? with
  | some (some id) => .ok id
  | _ => .error (.inconsistent (.emptySlot slot))

def members (g : Group) : List InstanceId := g.slots.filterMap fun occupant => occupant

def membersIn (g : Group) (is : Instances) (states : Option (List EntityState)) :
    List InstanceId :=
  g.members.filter fun id =>
    match states with
    | none => true
    | some wanted => wanted.contains (is.state id)

def changes (g : Group) (is : Instances) : List InstanceId :=
  g.members.filter fun id => (is.state id).isPending

def hasChanges (g : Group) (is : Instances) : Bool :=
  g.members.any fun id => (is.state id).isPending

def findText? (g : Group) (key : String) : Option InstanceId :=
  (g.index.get? key).bind fun slot => (g.slots[slot]?).join

def findKey? (g : Group) (k : EntityKey) : Option InstanceId :=
  if k.typeName = g.type.name then g.findText? k.inGroup else none

def find? (g : Group) (values : List Value) : Except Fault (Option InstanceId) :=
  (EntityKey.make g.type values).map fun k => g.findText? k.inGroup

def joiningKey (g : Group) (e : Entity) (state : EntityState) : Except Fault EntityKey := do
  if e.type.name ≠ g.type.name then
    throw (.value (.foreignToGroup e.type.name g.type.name))
  if state = .detached then throw (.state .attachDetached)
  let k ← e.key
  if !k.isComplete then throw (.missingKey (.unassigned k.text))
  return k

/-- Gives an entity a slot: the one given up last, else a new one. -/
def place (g : Group) (key : String) (id : InstanceId) : Group :=
  match g.free with
  | slot :: rest =>
    { g with slots := g.slots.set slot (some id), free := rest, index := g.index.put key slot }
  | [] =>
    { g with slots := g.slots ++ [some id], index := g.index.put key g.slots.length }

/-- What is cached under the key stays the instance; the strategy decides whether it takes
the values of the incoming one. An Added newcomer would insert an existing row. -/
def merge (is : Instances) (k : EntityKey) (cached incoming : InstanceId) (state : EntityState)
    (strategy : MergeStrategy) : Except Fault Instances :=
  if strategy = .disallowed ∨ state = .added then .error (.alreadyCached k.text)
  else if strategy.overwrites (is.state cached) then
    .ok (is.put cached { (is.entity cached).mergeFrom (is.entity incoming) with state })
  else .ok is

/-- Attaches an entity and names the instance that the group holds then, which is another
one if its key was taken. -/
def attach (g : Group) (is : Instances) (id : InstanceId) (state : EntityState)
    (strategy : MergeStrategy) : Except Fault (InstanceId × Group × Instances) := do
  let k ← g.joiningKey (is.entity id) state
  let is := is.freeze g.type.version
  match g.index.get? k.inGroup with
  | some slot =>
    let cached ← g.occupant slot
    if cached = id then
      let e ← (is.entity id).moveTo state
      return (id, g, is.put id e)
    let is ← merge is k cached id state strategy
    return (cached, g, is)
  | none =>
    let e := { is.entity id with state, groupKey := some k.inGroup }
    return (id, g.place k.inGroup id, is.put id e)

def slotOf (g : Group) (is : Instances) (id : InstanceId) : Except Fault (String × Nat) := do
  let key ← match (is.entity id).groupKey with
    | some key => .ok key
    | none => .error (.inconsistent (.detachOfStranger g.type.name))
  let slot ← match g.index.get? key with
    | some slot => .ok slot
    | none => .error (.inconsistent (.keyNotIndexed key g.type.name))
  let occupant ← g.occupant slot
  if occupant ≠ id then throw (.inconsistent (.slotOfAnother slot g.type.name))
  return (key, slot)

def vacate (g : Group) (key : String) (slot : Nat) : Group :=
  { g with
    slots := g.slots.set slot none
    free := slot :: g.free
    index := g.index.erase key }

def detach (g : Group) (is : Instances) (id : InstanceId) : Except Fault (Group × Instances) := do
  let (key, slot) ← g.slotOf is id
  return (g.vacate key slot, is.put id (is.entity id).markDetached)

/-- Moves an index entry to another key; the values of the entity stay. -/
def replaceKey (g : Group) (is : Instances) (old new : EntityKey) :
    Except Fault (Group × Instances) :=
  if g.index.has new.inGroup then .error (.alreadyCached new.text)
  else match g.index.get? old.inGroup with
    | none => .error (.inconsistent (.keyMissing old.text))
    | some slot =>
      let g' := { g with index := (g.index.erase old.inGroup).put new.inGroup slot }
      match (g.slots[slot]?).join with
      | some id => .ok (g', is.put id { is.entity id with groupKey := some new.inGroup })
      | none => .ok (g', is)

def clearMarker (is : Instances) (id : InstanceId) : Instances :=
  is.put id { is.entity id with hasTempKey := false }

def fixupKey (g : Group) (is : Instances) (temp real : Value) :
    Except Fault (InstanceId × Group × Instances) := do
  let property ← match g.type.keyProperties with
    | [p] => .ok p.name
    | _ => .error (.value (.compositeFixup g.type.name))
  let old ← EntityKey.make g.type [temp]
  let new ← EntityKey.make g.type [real]
  match g.findKey? old with
  | none => throw (.inconsistent (.temporaryKeyUnknown old.text))
  | some id =>
    if old.same new then return (id, g, clearMarker is id)
    let (g, is) ← g.replaceKey is old new
    let e := (is.entity id).write property ((new.values.head?).getD .null)
    return (id, g, is.put id { e with hasTempKey := false })

def rekeyed (g : Group) (e : Entity) (property : String) (v : Value) : Except Fault EntityKey :=
  EntityKey.make g.type (g.type.keyProperties.map fun p =>
    if p.name = property then v else (e.get? p.name).getD .null)

structure Move where
  slot : Nat
  id : InstanceId
  source : String
  target : String
  deriving DecidableEq, Repr

/-- The moves of the entities that a cascade gives a new key. No target may be taken by
an entity that stays, or by two that move. -/
def planMoves (g : Group) (is : Instances) (property : String) (v : Value)
    (vacated : List String) : List String → List (Nat × InstanceId) → Except Fault (List Move)
  | _, [] => .ok []
  | claimed, (slot, id) :: rest => do
    let old ← (is.entity id).key
    let new ← g.rekeyed (is.entity id) property v
    let target := new.inGroup
    if (g.index.has target && !vacated.contains target) || claimed.contains target then
      throw (.alreadyCached new.text)
    let moves ← g.planMoves is property v vacated (target :: claimed) rest
    return ⟨slot, id, old.inGroup, target⟩ :: moves

def holders (g : Group) (is : Instances) (property : String) (v : Value) :
    List (Nat × InstanceId) :=
  (g.slots.zipIdx.filterMap fun (occupant, slot) => occupant.map (slot, ·)).filter
    fun (_, id) => match (is.entity id).get? property with
      | some held => held.same v
      | none => false

def applyMoves (g : Group) (moves : List Move) : Group :=
  let emptied := moves.foldl (fun index m => index.erase m.source) g.index
  { g with index := moves.foldl (fun index m => index.put m.target m.slot) emptied }

/-- Replaces a foreign key on every entity that holds the old value, and says on how many.
Where the property is part of the key, all moves are planned before the first one. -/
def updateForeignKey (g : Group) (is : Instances) (property : String) (old new : Value) :
    Except Fault (Nat × Group × Instances) := do
  let p ← match g.type.dataProperty? property with
    | some p => .ok p
    | none => .error (.propertyNotFound property property g.type.name)
  let v := p.dataType.coerce new
  let holding := g.holders is property old
  let moves ←
    if p.isKey then do
      let vacated ← holding.mapM fun (_, id) => (is.entity id).key.map EntityKey.inGroup
      g.planMoves is property v vacated [] holding
    else .ok []
  let is := holding.foldl (fun is (_, id) => is.put id ((is.entity id).write property v)) is
  let is := moves.foldl (fun is m =>
    is.put m.id { is.entity m.id with groupKey := some m.target }) is
  return (holding.length, g.applyMoves moves, is)

def verifyEntries (g : Group) (is : Instances) : Table Nat → Except Fault Unit
  | [] => .ok ()
  | (key, slot) :: rest => do
    let id ← g.occupant slot
    let actual ← (is.entity id).key
    if actual.inGroup ≠ key then
      throw (.inconsistent (.indexedAs slot key actual.inGroup))
    g.verifyEntries is rest

def verifyIndex (g : Group) (is : Instances) : Except Fault Unit :=
  if g.members.length ≠ g.index.length then
    .error (.inconsistent (.indexSize g.members.length g.index.length))
  else g.verifyEntries is g.index

end Group

end EntityCache
