import EntityCache.Json.Basic
import EntityCache.Number.Notation

/-! The compact text of a JSON document: no spaces, and only what must be escaped is. -/
namespace EntityCache.Json

def escapeChar (c : Char) : List Char :=
  if c = '"' then ['\\', '"']
  else if c = '\\' then ['\\', '\\']
  else if c = '\n' then ['\\', 'n']
  else if c = '\r' then ['\\', 'r']
  else if c = '\t' then ['\\', 't']
  else if c.toNat = 8 then ['\\', 'b']
  else if c.toNat = 12 then ['\\', 'f']
  else if c.toNat < 0x20 then
    ['\\', 'u', '0', '0', Nat.digitChar (c.toNat / 16), Nat.digitChar (c.toNat % 16)]
  else [c]

def quoted (s : String) : String :=
  String.ofList ('"' :: s.toList.flatMap escapeChar ++ ['"'])

mutual
def text : Json → String
  | null => "null"
  | bool b => if b then "true" else "false"
  | int i => toString i
  | float x => x.jsonText
  | str s => quoted s
  | arr items => "[" ++ ",".intercalate (itemTexts items) ++ "]"
  | obj fields => "\x7b" ++ ",".intercalate (fieldTexts fields) ++ "\x7d"

def itemTexts : List Json → List String
  | [] => []
  | v :: rest => text v :: itemTexts rest

def fieldTexts : List (String × Json) → List String
  | [] => []
  | (n, v) :: rest => (quoted n ++ ":" ++ text v) :: fieldTexts rest
end

end EntityCache.Json
