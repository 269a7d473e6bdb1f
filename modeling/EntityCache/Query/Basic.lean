import EntityCache.Filter.Predicate
import EntityCache.Schema.Path
import EntityCache.Tracking.State

/-! A query against one resource: what to filter, sort, page and expand, and how to merge
what comes back. Each call on a query gives the query with one thing more. -/
namespace EntityCache

structure OrderTerm where
  path : String
  descending : Bool
  deriving DecidableEq, Repr

/-- A path and an optional direction behind it; further words do not count. -/
def OrderTerm.parse? (text : String) : Option OrderTerm :=
  match Text.words text with
  | [] => none
  | [path] => some ⟨path, false⟩
  | path :: direction :: _ => some ⟨path, Text.sameIgnoringCase direction "desc"⟩

structure Query where
  resource : Option String := none
  resultType : Option String := none
  predicate : Option Predicate := none
  order : List OrderTerm := []
  skipCount : Option Nat := none
  takeCount : Option Nat := none
  expanded : List String := []
  selected : List String := []
  inlineCount : Bool := false
  parameters : List (String × String) := []
  mergeStrategy : Option MergeStrategy := none
  deriving Repr

namespace Query

def ofResource (name : String) : Query := { resource := some name }

def toType (q : Query) (name : String) : Query := { q with resultType := some name }

def filter (q : Query) (p : Predicate) : Query :=
  { q with predicate := some (match q.predicate with
    | some existing => existing.andAlso p
    | none => p) }

def orderBy (q : Query) (terms : String) : Query :=
  { q with order := q.order ++ (Text.split (· = ',') terms).filterMap OrderTerm.parse? }

def orderByDescending (q : Query) (path : String) : Query :=
  { q with order := q.order ++ [⟨Text.trim path, true⟩] }

def skip (q : Query) (n : Nat) : Query := { q with skipCount := some n }
def take (q : Query) (n : Nat) : Query := { q with takeCount := some n }

def splitPaths (paths : String) : List String :=
  ((Text.split (· = ',') paths).map Text.trim).filter (· ≠ "")

def expand (q : Query) (paths : String) : Query :=
  { q with expanded := q.expanded ++ splitPaths paths }

def select (q : Query) (paths : String) : Query :=
  { q with selected := q.selected ++ splitPaths paths }

def withInlineCount (q : Query) (enabled : Bool) : Query :=
  { q with inlineCount := enabled }

def withParameter (q : Query) (name value : String) : Query :=
  { q with parameters := q.parameters ++ [(name, value)] }

def withStrategy (q : Query) (s : MergeStrategy) : Query :=
  { q with mergeStrategy := some s }

/-- What the paths of the query start from. A result type that is named must exist; a
resource that is not mapped yields the anonymous type. -/
def target (q : Query) (c : Catalog) : Except Fault Target :=
  match q.resultType with
  | some name => (c.find name).map .entity
  | none =>
    match q.resource.bind c.typeOfResource? with
    | some t => .ok (.entity t)
    | none => .ok .anonymous

/-- The resource to ask for: the one named, or the default one of the result type. -/
def resourceName (q : Query) (c : Catalog) : Except Fault String :=
  match q.resource with
  | some r => .ok r
  | none =>
    match (q.resultType.bind c.find?).bind (·.defaultResource) with
    | some r => .ok r
    | none => .error .noResource

end Query

end EntityCache
