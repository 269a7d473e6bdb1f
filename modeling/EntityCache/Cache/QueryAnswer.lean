import EntityCache.Cache.Action

/-! Query answers merged into the cache. Each node becomes an entity of the type that it
declares, or else of the query's type, and so do the nodes nested in its navigation
properties. Nodes of projections and of untyped queries stay documents. -/
namespace EntityCache

structure Imported where
  entities : List InstanceId := []
  projections : List Json := []
  inlineCount : Option Int64 := none
  deriving Repr

def Cache.declaredType? (c : Cache) (adapter : Adapter) (node : Json) : Option EntityType :=
  (adapter.nodeType? node).bind c.catalog.find?

/-- The values that a node carries, by the server's names, written over those held. -/
def Entity.withNodeValues (e : Entity) (t : EntityType) (node : Json) : Entity :=
  t.dataProperties.foldl (fun e p =>
    match node.field? p.wireName with
    | some raw => e.write p.name (p.dataType.coerce (Value.ofJson raw))
    | none => e) e

def Entity.ofNode (t : EntityType) (node : Json) : Entity :=
  (Entity.new t).withNodeValues t node

/-- The nodes in a navigation property: a list, a list under `results`, or a single one.
There are none in a link that was not expanded. -/
def relatedNodes? : Json → Option (List Json)
  | .arr items => some items
  | .obj fields =>
    if (fields.lookup "__deferred").isSome then none
    else match fields.lookup "results" with
      | some (.arr items) => some items
      | _ => some [.obj fields]
  | _ => none

namespace Action

/-- Attaches a node and what is nested in it. `fuel` bounds the nesting; the height of
the node is enough. -/
def materialize (adapter : Adapter) (strategy : MergeStrategy) :
    Nat → EntityType → Json → Action InstanceId
  | 0, t, node => throw (.document (.notAnObject t.name node.text))
  | fuel + 1, t, node => do
    if !node.isObject then throw (.document (.notAnObject t.name node.text))
    let id ← addInstance (Entity.ofNode t node)
    let cached ← attach id .unchanged (some strategy)
    t.navigationProperties.forM fun p => do
      match (node.field? p.wireName).bind relatedNodes? with
      | none => pure ()
      | some related =>
        let target ← (← get).catalog.find p.target
        related.forM fun n => do
          let u := ((← get).declaredType? adapter n).getD target
          discard (materialize adapter strategy fuel u n)
    return cached

def importNodes (adapter : Adapter) (strategy : MergeStrategy) (isProjection : Bool)
    (standard : Option EntityType) : List Json → Imported → Action Imported
  | [], result => return result
  | node :: rest, result => do
    let declared := (← get).declaredType? adapter node
    match if isProjection then none else declared.or standard with
    | some t =>
      let id ← materialize adapter strategy node.height t node
      importNodes adapter strategy isProjection standard rest
        { result with entities := result.entities ++ [id] }
    | none =>
      importNodes adapter strategy isProjection standard rest
        { result with projections := result.projections ++ [node] }

/-- Merges the answer to a query, by the query's strategy or else that of the settings. -/
def importResults (payload : Json) (q : Query) (adapter : Adapter) :
    Action Imported := do
  let extracted ← adapter.extract payload
  let target ← q.target (← get).catalog
  let strategy := q.mergeStrategy.getD (← get).settings.mergeStrategy
  importNodes adapter strategy (!q.selected.isEmpty) target.entityType? extracted.nodes
    { inlineCount := extracted.inlineCount }

end Action

def Cache.executeQuery (c : Cache) (q : Query) (transport : Transport) :
    Exchange Imported × Cache :=
  match c.queryRequest q with
  | .error fault => (⟨[], .error fault⟩, c)
  | .ok request =>
    match transport request with
    | .error fault => (⟨[request], .error fault⟩, c)
    | .ok payload =>
      let (result, c) := (Action.importResults payload q c.service.format).on c
      (⟨[request], result⟩, c)

end EntityCache
