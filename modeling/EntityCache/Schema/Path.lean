import EntityCache.Schema.Catalog

/-! Property paths such as `customer.companyName`, walked from a type to its related
types. Paths on the anonymous type are taken on trust: it knows no properties. -/
namespace EntityCache

inductive Target where
  | entity (t : EntityType)
  | anonymous
  deriving Repr

namespace Target

def name : Target → String
  | entity t => t.name
  | anonymous => "(anonymous)"

def isAnonymous : Target → Bool
  | entity _ => false
  | anonymous => true

def entityType? : Target → Option EntityType
  | entity t => some t
  | anonymous => none

end Target

/-- A path as the server knows it: its segments there, the type of the data property that
it ends in, the type it has reached, and whether its last navigation is to many. -/
structure ResolvedPath where
  segments : List String
  dataType : Option DataType
  target : Target
  isCollection : Bool
  deriving Repr

def ResolvedPath.joined (p : ResolvedPath) (delimiter : String) : String :=
  delimiter.intercalate p.segments

namespace Catalog

/-- Segments between points and slashes, without the white space around them. -/
def pathSegments (path : String) : List String :=
  (Text.split (fun c => c = '.' || c = '/') path).map Text.trim

def noProperty (path segment typeName : String) : Fault :=
  .propertyNotFound segment path typeName

def walk (c : Catalog) (path : String) (current : Target) :
    List String → ResolvedPath → Except Fault ResolvedPath
  | [], reached => .ok reached
  | segment :: rest, reached =>
    if segment = "" then .error (noProperty path segment current.name)
    else match current with
      | .anonymous =>
        walk c path current rest
          { reached with segments := reached.segments ++ [c.naming.toServer segment] }
      | .entity t =>
        match t.dataProperty? segment, t.navigationProperty? segment with
        | some p, _ =>
          match rest with
          | [] => .ok
            { reached with
              segments := reached.segments ++ [p.wireName]
              dataType := some p.dataType }
          | next :: _ => .error (noProperty path next p.name)
        | none, some p =>
          match c.find p.target with
          | .error f => .error f
          | .ok u => walk c path (.entity u) rest
            { reached with
              segments := reached.segments ++ [p.wireName]
              target := .entity u
              isCollection := !p.isScalar }
        | none, none => .error (noProperty path segment t.name)

def resolvePath (c : Catalog) (start : Target) (path : String) : Except Fault ResolvedPath :=
  c.walk path start (pathSegments path) ⟨[], none, start, false⟩

def serverPath (c : Catalog) (start : Target) (path delimiter : String) : Except Fault String :=
  (c.resolvePath start path).map (·.joined delimiter)

end Catalog

end EntityCache
