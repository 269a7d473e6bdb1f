import EntityCache.Filter.WhereClause
import EntityCache.Json.Text
import EntityCache.Query.OptionString

/-! A query as one JSON document, and the address that carries it percent-encoded. -/
namespace EntityCache.QueryDocument

def listField {α : Type} (name : String) (render : α → Except Fault String) :
    List α → Except Fault (List (String × Json))
  | [] => .ok []
  | x :: xs => ((x :: xs).mapM render).map fun texts => [(name, .arr (texts.map .str))]

def whereField (s : Scope) : Option Predicate → Except Fault (List (String × Json))
  | none => .ok []
  | some p => (WhereClause.predicate s p).map fun v => [("where", v)]

def countField (name : String) : Option Nat → List (String × Json)
  | none => []
  | some n => [(name, .int n)]

/-- Parameters of one name: the last one counts. -/
def parametersField (parameters : List (String × String)) : List (String × Json) :=
  if parameters.isEmpty then []
  else [("parameters", Json.object (parameters.map fun p => (p.1, .str p.2)))]

def ofQuery (q : Query) (c : Catalog) : Except Fault Json := do
  let start ← q.target c
  let clause ← whereField (Scope.outermost c start) q.predicate
  let order ← listField "orderBy" (OptionString.orderText c start ".") q.order
  let expand ← listField "expand" (fun p => c.serverPath start p ".") q.expanded
  let select ← listField "select" (fun p => c.serverPath start p ".") q.selected
  let count := if q.inlineCount then [("inlineCount", Json.bool true)] else []
  return Json.object (clause ++ order ++ countField "skip" q.skipCount ++
    countField "take" q.takeCount ++ expand ++ select ++ count ++ parametersField q.parameters)

def uri (q : Query) (c : Catalog) : Except Fault String := do
  let document ← ofQuery q c
  let resource ← q.resourceName c
  return resource ++ "?" ++ Text.percentEncode document.text

end EntityCache.QueryDocument
