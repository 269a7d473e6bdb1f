import EntityCache.Tracking.Entity

/-! All entities there are, cached or not, by their identity. Whoever holds the identity
of an entity sees every change made to it. A type version that has had an instance in a
cache is frozen. -/
namespace EntityCache

abbrev InstanceId := Nat

structure Instances where
  entity : InstanceId → Entity
  count : Nat
  frozen : List TypeVersion

namespace Instances

def empty : Instances := ⟨fun _ => default, 0, []⟩

def put (is : Instances) (id : InstanceId) (e : Entity) : Instances :=
  { is with entity := fun other => if other = id then e else is.entity other }

@[simp] theorem entity_put (is : Instances) (id other : InstanceId) (e : Entity) :
    (is.put id e).entity other = if other = id then e else is.entity other := rfl

def add (is : Instances) (e : Entity) : InstanceId × Instances :=
  (is.count, { is.put is.count e with count := is.count + 1 })

def freeze (is : Instances) (v : TypeVersion) : Instances :=
  if is.frozen.contains v then is else { is with frozen := v :: is.frozen }

def state (is : Instances) (id : InstanceId) : EntityState := (is.entity id).state

end Instances

end EntityCache
