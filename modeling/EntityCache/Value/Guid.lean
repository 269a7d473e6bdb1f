import EntityCache.Json.Reader

/-! Identifiers of 128 bits, written as 32 hexadecimal digits in groups of 8-4-4-4-12. -/
namespace EntityCache

structure Guid where
  value : BitVec 128
  deriving DecidableEq, Repr

namespace Guid

def nil : Guid := ⟨0⟩

def digitAt (g : Guid) (i : Nat) : Char := Nat.digitChar (g.value.toNat / Nat.pow 16 i % 16)

def digits (g : Guid) : List Char := (List.range 32).reverse.map g.digitAt

def groups : List Nat := [8, 4, 4, 4, 12]

def hyphenated : List Nat → List Char → List Char
  | [], _ => []
  | [n], ds => ds.take n
  | n :: ns, ds => ds.take n ++ '-' :: hyphenated ns (ds.drop n)

def text (g : Guid) : String := String.ofList (hyphenated groups g.digits)

def ofDigits? (ds : List Char) : Option Guid :=
  (ds.mapM Json.hexValue?).map fun vs => ⟨BitVec.ofNat 128 (vs.foldl (fun n v => 16 * n + v) 0)⟩

def ungroup? : List Nat → List Char → Option (List Char)
  | [], cs => if cs = [] then some [] else none
  | [n], cs => if cs.length = n then some cs else none
  | n :: ns, cs =>
    match cs.drop n with
    | '-' :: rest => (ungroup? ns rest).map (cs.take n ++ ·)
    | _ => none

def ofHyphenated? (cs : List Char) : Option Guid := (ungroup? groups cs).bind ofDigits?

/-- What a hyphenated identifier may follow, in any case. -/
def urnMark : List Char := "urn:uuid:".toList

/-- Either form of the digits; the hyphenated one may also stand in braces or behind
`urn:uuid:`. -/
def ofChars? (cs : List Char) : Option Guid :=
  if cs.length = 32 then ofDigits? cs
  else if (cs.take urnMark.length).map Char.toLower = urnMark then
    ofHyphenated? (cs.drop urnMark.length)
  else if cs.head? = some '\x7b' ∧ cs.getLast? = some '\x7d' then
    ofHyphenated? (cs.drop 1).dropLast
  else ofHyphenated? cs

end Guid

end EntityCache
