import EntityCache.Fault
import EntityCache.Json.Text
import EntityCache.Number.Reading
import EntityCache.Text.Pieces

/-! What a server answers a query with. An adapter says where the nodes of the entities
are in a payload, where the total count is, and what type a node claims to be. Two formats
come with their adapters; a service may be read by any other. -/
namespace EntityCache

inductive PayloadFormat where
  | odata
  | webApi
  deriving DecidableEq, Repr

structure PayloadContent where
  nodes : List Json
  inlineCount : Option Int64
  deriving Repr

structure Adapter where
  name : String
  extract : Json → Except Fault PayloadContent
  nodeType? : Json → Option String

namespace PayloadFormat

def name : PayloadFormat → String
  | odata => "OData"
  | webApi => "WebApi"

def count? : Json → Option Int64
  | .str s => Number.int64? s.toList
  | v => v.int64?

/-- Where the nodes are: in the wrapper `d` if there is one. -/
def container (payload : Json) : Json := (payload.field? "d").getD payload

/-- Under `results` or `value`, as a list or a single node; else the container itself is
the node. -/
def odataNodes (payload : Json) : Except Fault (List Json) :=
  match container payload with
  | .arr items => .ok items
  | .obj fields =>
    match (fields.lookup "results").or (fields.lookup "value") with
    | some (.arr items) => .ok items
    | some node => .ok [node]
    | none => .ok [.obj fields]
  | _ => .error (.document (.odataPayload payload.text))

def odataCount (payload : Json) : Option Int64 :=
  let at? (name : String) := ((container payload).field? name).or (payload.field? name)
  (((at? "__count").or (at? "odata.count")).or (at? "@odata.count")).bind count?

mutual
/-- The nodes that carry an `$id`, each before the nodes inside it. -/
def identified : Json → List (String × Json)
  | .obj fields =>
    match (Json.obj fields).field? "$id" with
    | some (.str id) => (id, .obj fields) :: identifiedFields fields
    | _ => identifiedFields fields
  | .arr items => identifiedItems items
  | _ => []

def identifiedItems : List Json → List (String × Json)
  | [] => []
  | v :: rest => identified v ++ identifiedItems rest

def identifiedFields : List (String × Json) → List (String × Json)
  | [] => []
  | (_, v) :: rest => identified v ++ identifiedFields rest
end

/-- The node that a reference stands for: the last one with that identifier. -/
def dereference (known : List (String × Json)) (node : Json) : Json :=
  match node.field? "$ref" with
  | some (.str id) => (known.reverse.lookup id).getD node
  | _ => node

def resolveReferences (nodes : List Json) : List Json :=
  nodes.map (dereference (identifiedItems nodes))

def webApiResults (payload : Json) : Except Fault PayloadContent :=
  match payload with
  | .arr items => .ok ⟨resolveReferences items, none⟩
  | .obj fields =>
    match fields.lookup "Results" with
    | some (.arr items) =>
      .ok ⟨resolveReferences items, (fields.lookup "InlineCount").bind count?⟩
    | _ => .ok ⟨resolveReferences [payload], none⟩
  | _ => .error (.document (.webApiPayload payload.text))

def extract : PayloadFormat → Json → Except Fault PayloadContent
  | odata, payload => (odataNodes payload).map (⟨·, odataCount payload⟩)
  | webApi, payload => webApiResults payload

def nodeType? : PayloadFormat → Json → Option String
  | odata, node =>
    let declared := (((node.field? "__metadata").bind (·.field? "type")).or
      (node.field? "odata.type")).or (node.field? "@odata.type")
    (declared.bind Json.str?).map fun t => Text.afterLast '.' (Text.dropLeading '#' t)
  | webApi, node =>
    ((node.field? "$type").bind Json.str?).map fun t =>
      let qualified := Text.trim (((Text.split (· = ',') t).head?).getD t)
      Text.afterLast '.' qualified

def adapter (f : PayloadFormat) : Adapter := ⟨f.name, f.extract, f.nodeType?⟩

instance : Coe PayloadFormat Adapter := ⟨adapter⟩

end PayloadFormat

end EntityCache
