import EntityCache.Filter.Operator
import EntityCache.Proofs.FilterTokens

/-! Filters read back into formulas. `not` binds tighter than `and`, and `and` tighter than
`or`; parentheses group. A comparison is an atom, known by its tokens, and a quantifier is a
node that nothing is known about but its head and its body. -/
namespace EntityCache.OData

abbrev Atom := List Token

inductive Formula where
  | atom (a : Atom)
  | not (f : Formula)
  | junction (op : BooleanOperator) (f g : Formula)
  | quantified (op : Quantifier) (path bound : List Char) (body : Formula)
  deriving DecidableEq, Repr

/-- What a quantifier makes of its body, which is a truth value for each assignment. -/
abbrev QuantifierMeaning :=
  Quantifier → List Char → List Char → ((Atom → Bool) → Bool) → Bool

namespace Formula

def value (m : QuantifierMeaning) : Formula → (Atom → Bool) → Bool
  | atom a, v => v a
  | not f, v => !f.value m v
  | junction .and f g, v => f.value m v && g.value m v
  | junction .or f g, v => f.value m v || g.value m v
  | quantified op path bound body, _ => m op path bound (body.value m)

def Equivalent (f g : Formula) : Prop := ∀ m, f.value m = g.value m

def chain (op : BooleanOperator) : Formula → List Formula → Formula
  | f, [] => f
  | f, g :: rest => junction op f (chain op g rest)

end Formula

abbrev Reader (α : Type) := List Token → Option (α × List Token)

def comparisonWords : List String := ["eq", "ne", "lt", "le", "gt", "ge"]

def operatorWords : List String := ["and", "or", negationKey] ++ comparisonWords

def isAmong (words : List String) (w : List Char) : Bool := words.any fun s => s.toList = w

/-- Everything up to the parenthesis that closes an argument list, inside of which `depth`
more are open. -/
def readToClosing : Nat → Reader Atom
  | _, [] => none
  | 0, .closing :: ts => some ([.closing], ts)
  | depth + 1, .closing :: ts =>
    (readToClosing depth ts).map fun (a, rest) => (.closing :: a, rest)
  | depth, .opening :: ts =>
    (readToClosing (depth + 1) ts).map fun (a, rest) => (.opening :: a, rest)
  | depth, t :: ts => (readToClosing depth ts).map fun (a, rest) => (t :: a, rest)

def readOperand : Reader Atom
  | .word w :: ts =>
    if isAmong operatorWords w then none
    else match ts with
      | .opening :: ts =>
        (readToClosing 0 ts).map fun (a, rest) => (.word w :: .opening :: a, rest)
      | ts => some ([.word w], ts)
  | _ => none

def readComparison : Reader Formula := fun ts =>
  match readOperand ts with
  | some (left, .word w :: ts) =>
    if isAmong comparisonWords w then
      (readOperand ts).map fun (right, rest) => (.atom (left ++ .word w :: right), rest)
    else none
  | _ => none

def quantifier? (w : List Char) : Option (Quantifier × List Char) :=
  let path := w.take (w.length - 4)
  let key := w.drop (w.length - 4)
  if key = '/' :: Quantifier.any.key.toList then some (.any, path)
  else if key = '/' :: Quantifier.all.key.toList then some (.all, path)
  else none

def closed : Option (Formula × List Token) → Option (Formula × List Token)
  | some (f, .closing :: rest) => some (f, rest)
  | _ => none

/-- A group, a quantifier or a comparison; `formula` reads what is inside the first two. -/
def readPrimary (formula : Reader Formula) : Reader Formula
  | .opening :: ts => closed (formula ts)
  | .word w :: .opening :: .word bound :: .colon :: ts =>
    match quantifier? w with
    | some (op, path) =>
      (closed (formula ts)).map fun (f, rest) => (.quantified op path bound f, rest)
    | none => none
  | ts => readComparison ts

def readNegated (primary : Reader Formula) : Reader Formula
  | .word w :: ts =>
    if w = negationKey.toList then (readNegated primary ts).map fun (f, rest) => (.not f, rest)
    else primary (.word w :: ts)
  | ts => primary ts

def readChain (op : BooleanOperator) (element : Reader Formula) : Nat → Reader Formula
  | 0, _ => none
  | fuel + 1, ts =>
    match element ts with
    | some (f, .word w :: rest) =>
      if w = op.key.toList then
        (readChain op element fuel rest).map fun (g, rest) => (.junction op f g, rest)
      else some (f, .word w :: rest)
    | read => read

/-- `fuel` bounds the nesting; the number of tokens is enough. -/
def readFormula : Nat → Reader Formula
  | 0, _ => none
  | fuel + 1, ts =>
    let negated := readNegated (readPrimary (readFormula fuel))
    readChain .or (readChain .and negated (ts.length + 1)) (ts.length + 1) ts

def readFilter (text : String) : Option Formula :=
  match readFormula ((tokens text).length + 1) (tokens text) with
  | some (f, []) => some f
  | _ => none

example : readFilter "not a eq 1 and b eq ') or (' or c eq 3" =
    some (.junction .or
      (.junction .and (.not (.atom (tokens "a eq 1"))) (.atom (tokens "b eq ') or ('")))
      (.atom (tokens "c eq 3"))) := by
  decide +kernel

/-- Tokens that open as many parentheses as they close, so that an argument list goes on
behind them. -/
def IsLevel (ts : List Token) : Prop :=
  ∀ depth rest, readToClosing depth (ts ++ rest) =
    (readToClosing depth rest).map fun (a, rest) => (ts ++ a, rest)

namespace IsLevel

theorem nil : IsLevel [] := by
  intro depth rest
  simp

theorem append {a b : List Token} (ha : IsLevel a) (hb : IsLevel b) : IsLevel (a ++ b) := by
  intro depth rest
  rw [List.append_assoc, ha, hb, Option.map_map]
  simp [Function.comp_def]

theorem word (w : List Char) : IsLevel [.word w] := by
  intro depth rest
  simp [readToClosing]

theorem comma : IsLevel [.comma] := by
  intro depth rest
  simp [readToClosing]

theorem group {ts : List Token} (h : IsLevel ts) : IsLevel (.opening :: ts ++ [.closing]) := by
  intro depth rest
  have hinner := h (depth + 1) (.closing :: rest)
  simp only [List.cons_append, List.append_assoc, List.nil_append, readToClosing] at hinner ⊢
  rw [hinner, Option.map_map, Option.map_map]
  simp [Function.comp_def]

end IsLevel

inductive IsOperand : List Token → Prop where
  | word {w : List Char} (h : isAmong operatorWords w = false) : IsOperand [.word w]
  | call {w : List Char} {args : List Token} (h : isAmong operatorWords w = false)
      (level : IsLevel args) (plain : .colon ∉ args) :
      IsOperand (.word w :: .opening :: args ++ [.closing])

namespace IsOperand

theorem level {ts : List Token} (h : IsOperand ts) : IsLevel ts := by
  cases h with
  | word => exact .word _
  | call _ hargs => exact (IsLevel.word _).append hargs.group

theorem no_colon {ts : List Token} (h : IsOperand ts) : .colon ∉ ts := by
  cases h with
  | word => simp
  | call _ _ hcolon => simpa using hcolon

theorem read {ts : List Token} (h : IsOperand ts) {rest : List Token}
    (hr : rest.head? ≠ some .opening) : readOperand (ts ++ rest) = some (ts, rest) := by
  cases h with
  | word hw =>
    cases rest with
    | nil => simp [readOperand, hw]
    | cons t rest =>
      have ht : t ≠ .opening := by simpa using hr
      simp [readOperand, hw, ht]
  | @call w args hw hargs _ =>
    have hinner := hargs 0 (.closing :: rest)
    simp only [readToClosing, Option.map_some] at hinner
    simp [readOperand, hw, hinner]

/-- No quantifier begins like an operand: a colon would have to follow its first word. -/
theorem readPrimary {ts : List Token} (h : IsOperand ts) (formula : Reader Formula)
    (w : List Char) (rest : List Token) :
    readPrimary formula (ts ++ .word w :: rest) = readComparison (ts ++ .word w :: rest) := by
  cases h with
  | word => rfl
  | @call v args _ _ hcolon =>
    match args, hcolon with
    | [], _ => rfl
    | [.word a], _ => rfl
    | .word a :: .word b :: args, _ => rfl
    | .word a :: .opening :: args, _ => rfl
    | .word a :: .closing :: args, _ => rfl
    | .word a :: .comma :: args, _ => rfl
    | .word a :: .colon :: args, hcolon => simp at hcolon
    | .opening :: args, _ => rfl
    | .closing :: args, _ => rfl
    | .comma :: args, _ => rfl
    | .colon :: args, hcolon => simp at hcolon

theorem readNegated {ts : List Token} (h : IsOperand ts) (primary : Reader Formula)
    (rest : List Token) : readNegated primary (ts ++ rest) = primary (ts ++ rest) := by
  have hnot : ∀ {w : List Char}, isAmong operatorWords w = false → w ≠ negationKey.toList := by
    rintro w hw rfl
    exact absurd hw (by decide)
  cases h with
  | word hw => simp [OData.readNegated, hnot hw]
  | call hw => simp [OData.readNegated, hnot hw]

end IsOperand

theorem readComparison_of_operands {l r rest : List Token} {w : List Char} (hl : IsOperand l)
    (hr : IsOperand r) (hw : isAmong comparisonWords w = true)
    (hrest : rest.head? ≠ some .opening) :
    readComparison (l ++ .word w :: r ++ rest) = some (.atom (l ++ .word w :: r), rest) := by
  have hleft : readOperand (l ++ .word w :: (r ++ rest)) = some (l, .word w :: (r ++ rest)) :=
    hl.read (by simp)
  have hright : readOperand (r ++ rest) = some (r, rest) := hr.read hrest
  rw [List.append_assoc, List.cons_append]
  simp [readComparison, hleft, hright, hw]

end EntityCache.OData
