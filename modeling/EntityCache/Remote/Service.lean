import EntityCache.Remote.Payload

/-! The remote service: its root address, the adapter that reads its answers, and the
requests that are sent to it. -/
namespace EntityCache

inductive HttpMethod where
  | get
  | post
  deriving DecidableEq, Repr

def HttpMethod.name : HttpMethod → String
  | get => "GET"
  | post => "POST"

structure Request where
  method : HttpMethod
  url : String
  body : Option Json
  deriving Repr

/-- The request as JSON text; a body that is absent is left away. -/
def Request.text (r : Request) : String :=
  let body := match r.body with
    | some v => [("body", v)]
    | none => []
  Json.text (.obj ([("method", .str r.method.name), ("url", .str r.url)] ++ body))

structure Exchange (α : Type) where
  sent : List Request
  result : Except Fault α

abbrev Transport := Request → Except Fault Json

structure Service where
  root : String
  format : Adapter := PayloadFormat.odata

namespace Service

/-- Root and path with exactly one slash between them; without a root the path alone. -/
def qualify (s : Service) (path : String) : String :=
  if s.root = "" then path
  else Text.dropTrailing '/' s.root ++ "/" ++ Text.dropLeading '/' path

def queryRequest (s : Service) (path : String) : Request := ⟨.get, s.qualify path, none⟩

def saveRequest (s : Service) (bundle : Json) : Request :=
  ⟨.post, s.qualify "SaveChanges", some bundle⟩

end Service

end EntityCache
