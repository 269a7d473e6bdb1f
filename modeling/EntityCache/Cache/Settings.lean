import EntityCache.Json.Record
import EntityCache.Json.RecordText
import EntityCache.Schema.Catalog
import EntityCache.Tracking.State

/-! The settings of a cache, and how they are read from JSON. -/
namespace EntityCache

structure Settings where
  serviceName : String := ""
  uriBuilder : String := "odata"
  mergeStrategy : MergeStrategy := .standard
  naming : Naming := .none
  inlineCount : Bool := false
  deriving Repr

namespace Settings

def strategyWords : List (String × MergeStrategy) :=
  [("Disallowed", .disallowed), ("OverwriteChanges", .overwriteChanges),
    ("PreserveChanges", .preserveChanges), ("SkipMerge", .skipMerge)]

def namingWords : List (String × Naming) :=
  [("none", .none), ("camelCase", .camelCase)]

def fieldNames : List (List String) :=
  [["serviceName"], ["uriBuilder"], ["mergeStrategy"], ["namingConvention"],
    ["inlineCountByDefault"]]

def ofJson? (v : Json) : Option Settings := do
  match ← Json.recordFields? fieldNames v with
  | [service, builder, strategy, naming, count] =>
    let standard : Settings := {}
    return {
      serviceName := ← Json.optionalField? standard.serviceName Json.str? service
      uriBuilder := ← Json.optionalField? standard.uriBuilder Json.str? builder
      mergeStrategy :=
        ← Json.optionalField? standard.mergeStrategy (Json.word? strategyWords) strategy
      naming := ← Json.optionalField? standard.naming (Json.word? namingWords) naming
      inlineCount := ← Json.optionalField? standard.inlineCount Json.bool? count }
  | _ => none

def ofText (text : String) : Except Fault Settings :=
  match (Json.ofRecordText? fieldNames.flatten text).bind ofJson? with
  | some settings => .ok settings
  | none => .error (.document .unreadable)

def catalog (c : Settings) : Catalog := { naming := c.naming }

end Settings

end EntityCache
