import EntityCache.Filter.ODataText
import EntityCache.Query.Basic
import EntityCache.Text.Percent

/-! A query as an OData address: the resource, and behind a question mark the options that
are set, each value percent-encoded. -/
namespace EntityCache.OptionString

def orderText (c : Catalog) (start : Target) (delimiter : String) (term : OrderTerm) :
    Except Fault String :=
  (c.serverPath start term.path delimiter).map fun p =>
    if term.descending then p ++ " desc" else p

def listOption {α : Type} (name : String) (render : α → Except Fault String) :
    List α → Except Fault (List (String × String))
  | [] => .ok []
  | x :: xs => ((x :: xs).mapM render).map fun texts => [(name, ",".intercalate texts)]

/-- A filter that comes out empty is left away. -/
def filterOption (s : Scope) : Option Predicate → Except Fault (List (String × String))
  | none => .ok []
  | some p => (OData.predicate s p).map fun text => if text = "" then [] else [("$filter", text)]

def countOption (name : String) : Option Nat → List (String × String)
  | none => []
  | some n => [(name, toString n)]

def options (q : Query) (c : Catalog) (start : Target) :
    Except Fault (List (String × String)) := do
  let filter ← filterOption (Scope.outermost c start) q.predicate
  let order ← listOption "$orderby" (orderText c start "/") q.order
  let expand ← listOption "$expand" (fun p => c.serverPath start p "/") q.expanded
  let select ← listOption "$select" (fun p => c.serverPath start p "/") q.selected
  let count := if q.inlineCount then [("$inlinecount", "allpages")] else []
  return filter ++ order ++ countOption "$skip" q.skipCount ++ countOption "$top" q.takeCount ++
    expand ++ select ++ count ++ q.parameters

def optionText (option : String × String) : String :=
  option.1 ++ "=" ++ Text.percentEncode option.2

def assemble (resource : String) : List (String × String) → String
  | [] => resource
  | options => resource ++ "?" ++ "&".intercalate (options.map optionText)

def uri (q : Query) (c : Catalog) : Except Fault String := do
  let start ← q.target c
  let resource ← q.resourceName c
  let options ← options q c start
  return assemble resource options

def untypedUri (q : Query) : Except Fault String := uri q {}

end EntityCache.OptionString
