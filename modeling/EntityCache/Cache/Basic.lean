import EntityCache.Cache.Settings
import EntityCache.Query.UriBuilder
import EntityCache.Remote.Service
import EntityCache.Tracking.Group
import EntityCache.Tracking.TempKeys

/-! The cache: one group for each type of cached entities, opened when the first of them
is attached, together with the catalog, the generator of temporary keys and what is needed
to talk to the service. -/
namespace EntityCache

structure Cache where
  catalog : Catalog
  settings : Settings
  builders : UriBuilders
  service : Service
  groups : Table Group
  keys : TempKeys
  instances : Instances

namespace Cache

def new (catalog : Catalog) (settings : Settings) (supply : Supply) : Cache where
  catalog := catalog
  settings := settings
  builders := UriBuilders.standard
  service := { root := settings.serviceName }
  groups := []
  keys := TempKeys.start supply 0
  instances := Instances.empty

def withBuilders (c : Cache) (bs : UriBuilders) : Cache := { c with builders := bs }
def withService (c : Cache) (s : Service) : Cache := { c with service := s }

def entity (c : Cache) (id : InstanceId) : Entity := c.instances.entity id

/-- Groups stand in the order of their type names. -/
def putGroup (name : String) (g : Group) : Table Group → Table Group
  | [] => [(name, g)]
  | (n, h) :: rest =>
    if n = name then (n, g) :: rest
    else if name < n then (name, g) :: (n, h) :: rest
    else (n, h) :: putGroup name g rest

/-- Cached entities, of some types and in some states only if these are given, in the
order of type names and slots. -/
def entities (c : Cache) (types : Option (List String)) (states : Option (List EntityState)) :
    List InstanceId :=
  (c.groups.filter fun entry =>
    match types with
    | none => true
    | some wanted => wanted.contains entry.1).flatMap fun entry =>
      entry.2.membersIn c.instances states

def hasChanges (c : Cache) : Bool := c.groups.any fun entry => entry.2.hasChanges c.instances

def changes (c : Cache) : List InstanceId :=
  c.entities none (some [.added, .modified, .deleted])

def findKey? (c : Cache) (k : EntityKey) : Option InstanceId :=
  (c.groups.get? k.typeName).bind (·.findKey? k)

def find? (c : Cache) (typeName : String) (values : List Value) :
    Except Fault (Option InstanceId) := do
  let t ← c.catalog.find typeName
  match c.groups.get? t.name with
  | some g => g.find? values
  | none => (EntityKey.make t values).map fun _ => none

def queryUri (c : Cache) (q : Query) : Except Fault String := do
  let builder ← c.builders.get c.settings.uriBuilder
  builder.build (if c.settings.inlineCount then q.withInlineCount true else q) c.catalog

def queryRequest (c : Cache) (q : Query) : Except Fault Request :=
  (c.queryUri q).map c.service.queryRequest

end Cache

end EntityCache
