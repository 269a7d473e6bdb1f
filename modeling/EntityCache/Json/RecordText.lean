import EntityCache.Json.Reader

/-! The text of a record. Fields that are known are read; the value of any other field is
passed over, which checks no more than its form: it may nest to any depth, its numbers may
have any size, and its strings may escape half of a surrogate pair. -/
namespace EntityCache.Json

def skipString? : List Char → Option (List Char)
  | '"' :: cs => some cs
  | '\\' :: 'u' :: a :: b :: c :: d :: cs =>
    if [a, b, c, d].all fun x => (hexValue? x).isSome then skipString? cs else none
  | '\\' :: e :: cs => if (plainEscape? e).isSome then skipString? cs else none
  | c :: cs => if c = '\\' ∨ c.toNat < 0x20 then none else skipString? cs
  | [] => none

mutual
def skipValue? : Nat → List Char → Option (List Char)
  | 0, _ => none
  | fuel + 1, cs =>
    match skipSpace cs with
    | 'n' :: 'u' :: 'l' :: 'l' :: rest => some rest
    | 't' :: 'r' :: 'u' :: 'e' :: rest => some rest
    | 'f' :: 'a' :: 'l' :: 's' :: 'e' :: rest => some rest
    | '"' :: rest => skipString? rest
    | '-' :: rest => (numeral? rest).map (·.2)
    | '[' :: rest =>
      match skipSpace rest with
      | ']' :: rest => some rest
      | rest => skipItems? fuel rest
    | '{' :: rest =>
      match skipSpace rest with
      | '}' :: rest => some rest
      | rest => skipFields? fuel rest
    | rest => (numeral? rest).map (·.2)

def skipItems? : Nat → List Char → Option (List Char)
  | 0, _ => none
  | fuel + 1, cs =>
    match skipValue? fuel cs with
    | none => none
    | some rest =>
      match skipSpace rest with
      | ',' :: rest => skipItems? fuel rest
      | ']' :: rest => some rest
      | _ => none

def skipFields? : Nat → List Char → Option (List Char)
  | 0, _ => none
  | fuel + 1, cs =>
    match skipSpace cs with
    | '"' :: rest =>
      match (skipString? rest).map skipSpace with
      | some (':' :: rest) =>
        match (skipValue? fuel rest).map skipSpace with
        | some (',' :: rest) => skipFields? fuel rest
        | some ('}' :: rest) => some rest
        | _ => none
      | _ => none
    | _ => none
end

def knownFields? (known : List String) :
    Nat → List Char → Option (List (String × Json) × List Char)
  | 0, _ => none
  | fuel + 1, cs =>
    match fieldName? cs with
    | none => none
    | some (name, rest) =>
      let field := if known.contains name then
          (value? fuel (maxDepth - 1) rest).map fun (v, rest) => ([(name, v)], rest)
        else (skipValue? fuel rest).map fun rest => ([], rest)
      match field with
      | none => none
      | some (read, rest) =>
        match skipSpace rest with
        | ',' :: rest => (knownFields? known fuel rest).map fun (fs, rest) => (read ++ fs, rest)
        | '}' :: rest => some (read, rest)
        | _ => none

/-- Reads a whole text. An object has only its known fields then, repeated ones included. -/
def ofRecordText? (known : List String) (s : String) : Option Json :=
  let cs := s.toList
  let fuel := 2 * cs.length + 2
  let read := match skipSpace cs with
    | '{' :: rest =>
      match skipSpace rest with
      | '}' :: rest => some (obj [], rest)
      | rest => (knownFields? known fuel rest).map fun (fs, rest) => (obj fs, rest)
    | rest => value? fuel maxDepth rest
  read.bind fun (v, rest) => if skipSpace rest = [] then some v else none

end EntityCache.Json
