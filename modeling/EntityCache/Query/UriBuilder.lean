import EntityCache.Query.Document

/-! The named ways to turn a query into an address. -/
namespace EntityCache

structure UriBuilder where
  name : String
  build : Query → Catalog → Except Fault String

def UriBuilder.odata : UriBuilder := ⟨"odata", OptionString.uri⟩
def UriBuilder.json : UriBuilder := ⟨"json", QueryDocument.uri⟩

abbrev UriBuilders := List UriBuilder

namespace UriBuilders

/-- A builder replaces one of the same name, and then stands last. -/
def register (bs : UriBuilders) (b : UriBuilder) : UriBuilders :=
  bs.filter (·.name ≠ b.name) ++ [b]

def standard : UriBuilders := [UriBuilder.odata, UriBuilder.json]

/-- The first builder of this name in any case. -/
def get (bs : UriBuilders) (name : String) : Except Fault UriBuilder :=
  match bs.find? fun b => Text.sameIgnoringCase b.name name with
  | some b => .ok b
  | none => .error (.builderNotFound name)

end UriBuilders

end EntityCache
