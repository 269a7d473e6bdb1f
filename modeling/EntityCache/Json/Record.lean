import EntityCache.Json.Basic

/-! Records read from documents, strictly. A record is an object whose known fields each
occur at most once, under any one of their names, or an array of the fields in order.
Fields that are not known are passed over. -/
namespace EntityCache.Json

/-- The one field among these names: `none` if it is repeated, `some none` if missing. -/
def soleField? (names : List String) (fields : List (String × Json)) : Option (Option Json) :=
  match fields.filter fun f => names.contains f.1 with
  | [] => some none
  | [f] => some (some f.2)
  | _ => none

def recordFields? (names : List (List String)) : Json → Option (List (Option Json))
  | obj fields => names.mapM fun n => soleField? n fields
  | arr items =>
    if items.length ≤ names.length then
      some (items.map some ++ List.replicate (names.length - items.length) none)
    else none
  | _ => none

def optionalField? {α : Type} (absent : α) (read : Json → Option α) : Option Json → Option α
  | none => some absent
  | some v => read v

def bool? : Json → Option Bool
  | bool b => some b
  | _ => none

def itemList? : Json → Option (List Json)
  | arr items => some items
  | _ => none

/-- One of several words, alone or as the name of an object's only field with null. -/
def word? {α : Type} (words : List (String × α)) : Json → Option α
  | str s => words.lookup s
  | obj [(s, null)] => words.lookup s
  | _ => none

end EntityCache.Json
