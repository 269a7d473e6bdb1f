import EntityCache.Filter.Expr
import EntityCache.Text.Letter

/-! Expressions read from text: quoted strings, numbers, the words true, false and null,
property paths, and calls of functions with arguments between commas.
A reader takes the characters that are left. Where it stops it reports how many are left
then, from which the position follows. -/
namespace EntityCache.Expr

structure Stop where
  cause : SyntaxFault
  left : Nat
  deriving DecidableEq, Repr

abbrev Reading (α : Type) := Except Stop (α × List Char)

def stopAt {α : Type} (cause : SyntaxFault) (cs : List Char) : Except Stop α :=
  .error ⟨cause, cs.length⟩

/-- The text of a string after its opening quote; a doubled quote is one quote. -/
def stringTail (quote : Char) : List Char → Reading (List Char)
  | [] => stopAt .unterminatedString []
  | [c] => if c = quote then .ok ([], []) else stopAt .unterminatedString []
  | c :: d :: cs =>
    if c = quote then
      if d = quote then (stringTail quote cs).map fun (s, rest) => (quote :: s, rest)
      else .ok ([], d :: cs)
    else (stringTail quote (d :: cs)).map fun (s, rest) => (c :: s, rest)

def isNumberPart (c : Char) : Bool := c.isDigit || c = '.' || c = 'e' || c = 'E'

def number (c : Char) (cs : List Char) : Reading Expr :=
  let ds := c :: cs.takeWhile isNumberPart
  let rest := cs.dropWhile isNumberPart
  match Number.int64? ds with
  | some i => .ok (literal (.integer i) none, rest)
  | none => match Number.double? ds with
    | some x => .ok (literal (.float x) none, rest)
    | none => stopAt .invalidNumber rest

def startsName (c : Char) : Bool := Text.isLetter c || c = '_' || c = '$'

def isNamePart (c : Char) : Bool :=
  Text.isLetterOrNumber c || c = '_' || c = '$' || c = '.' || c = '/'

def ofName (name : String) : Expr :=
  if name = "true" then literal (.boolean true) none
  else if name = "false" then literal (.boolean false) none
  else if name = "null" then literal .null none
  else property name

mutual
/-- One expression. `fuel` bounds the nesting; the length of the text is enough. -/
def readOne : Nat → List Char → Reading Expr
  | 0, cs => stopAt .expressionExpected cs
  | fuel + 1, cs =>
    match Text.skipBlank cs with
    | [] => stopAt .expressionExpected []
    | c :: cs =>
      if c = '\x27' ∨ c = '"' then
        (stringTail c cs).map fun (s, rest) => (literal (.text (String.ofList s)) none, rest)
      else if c.isDigit ∨ c = '-' then number c cs
      else if startsName c then
        let name := String.ofList ((c :: cs).takeWhile isNamePart)
        match Text.skipBlank ((c :: cs).dropWhile isNamePart) with
        | '(' :: rest =>
          match Text.skipBlank rest with
          | ')' :: rest => .ok (call name [], rest)
          | rest => (readArgs fuel rest).map fun (args, rest) => (call name args, rest)
        | rest => .ok (ofName name, rest)
      else stopAt .unexpectedCharacter (c :: cs)

def readArgs : Nat → List Char → Reading (List Expr)
  | 0, cs => stopAt .expressionExpected cs
  | fuel + 1, cs =>
    match readOne fuel cs with
    | .error stop => .error stop
    | .ok (e, rest) =>
      match Text.skipBlank rest with
      | ',' :: rest => (readArgs fuel rest).map fun (es, rest) => (e :: es, rest)
      | ')' :: rest => .ok ([e], rest)
      | rest => stopAt .separatorExpected rest
end

def readAll (cs : List Char) : Except Stop Expr :=
  match readOne (2 * cs.length + 2) cs with
  | .error stop => .error stop
  | .ok (e, rest) =>
    match Text.skipBlank rest with
    | [] => .ok e
    | rest => stopAt .trailingInput rest

def parse (text : String) : Except Fault Expr :=
  match readAll text.toList with
  | .ok e => .ok e
  | .error stop =>
    .error (.predicate (.malformed stop.cause (text.toList.length - stop.left) text))

end EntityCache.Expr
