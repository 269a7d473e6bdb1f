/-! Percent coding of text inside a URI. The text is taken as UTF-8: letters, digits and the
unreserved marks stay, and every other byte becomes a percent sign and two hexadecimal digits.
Five more marks may stay literal in a component of a URI; they are put back afterwards, each
in place of its escape. -/
namespace EntityCache.Text

/-- Letters and digits of ASCII, and the marks that no part of a URI gives a meaning to. -/
def isUnreserved (c : Char) : Bool := c.isAlphanum || c ∈ ['-', '_', '.', '~']

def hexUpper (n : Nat) : Char := (Nat.digitChar n).toUpper

def percentByte (b : UInt8) : List Char :=
  ['%', hexUpper (b.toNat / 16), hexUpper (b.toNat % 16)]

def escapeChar (c : Char) : List Char :=
  if isUnreserved c then [c] else (String.utf8EncodeChar c).flatMap percentByte

/-- Replaces from the left on. Of an occurrence found before, `skip` characters are left. -/
def replaceFrom (old new : List Char) : Nat → List Char → List Char
  | _, [] => []
  | skip + 1, _ :: cs => replaceFrom old new skip cs
  | 0, c :: cs =>
    if old.isPrefixOf (c :: cs) then new ++ replaceFrom old new (old.length - 1) cs
    else c :: replaceFrom old new 0 cs

def replaceAll (old new cs : List Char) : List Char := replaceFrom old new 0 cs

/-- Marks that stay literal in a component, behind their escapes. -/
def literalMarks : List (List Char × Char) :=
  [(['%', '2', '1'], '!'), (['%', '2', '7'], '\x27'), (['%', '2', '8'], '('),
    (['%', '2', '9'], ')'), (['%', '2', 'A'], '*')]

def percentEncode (s : String) : String :=
  String.ofList (literalMarks.foldl (fun cs mark => replaceAll mark.1 [mark.2] cs)
    (s.toList.flatMap escapeChar))

end EntityCache.Text
