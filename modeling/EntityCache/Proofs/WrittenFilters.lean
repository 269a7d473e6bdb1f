import EntityCache.Proofs.FilterOperands
import EntityCache.Proofs.FilterVisits

/-! Filters as they are written, part by part: which stretches of the text are literals, which
are paths and what they begin with, and which variable each quantifier binds. What such a
filter is about is a relation of its own; it resolves each path where the path stands. -/
namespace EntityCache

inductive Piece where
  | literal (text : String)
  | plain (text : String)

namespace Piece

def text : Piece → String
  | literal text => text
  | plain text => text

def joined : List Piece → String
  | [] => ""
  | piece :: rest => piece.text ++ joined rest

@[simp] theorem joined_append (ps qs : List Piece) :
    joined (ps ++ qs) = joined ps ++ joined qs := by
  induction ps with
  | nil => simp [joined]
  | cons piece rest ih => simp [joined, ih, String.append_assoc]

theorem joined_intercalate (separator : String) (pieces : List (List Piece)) :
    joined ([plain separator].intercalate pieces) =
      separator.intercalate (pieces.map joined) := by
  induction pieces with
  | nil => simp [joined]
  | cons first rest ih =>
    cases rest with
    | nil => simp
    | cons next rest =>
      rw [List.intercalate_cons_cons, joined_append, joined_append, ih]
      simp [joined, text]

end Piece

inductive WrittenOperand where
  | literal (text : String)
  | path (root : Option String) (names : List String)
  | call (name : String) (args : List WrittenOperand)

inductive WrittenFilter where
  | comparison (op : BinaryOperator) (left right : WrittenOperand)
  | membership (left : WrittenOperand) (values : List WrittenOperand)
  | negation (f : WrittenFilter)
  | junction (op : BooleanOperator) (parts : List WrittenFilter)
  | quantified (op : Quantifier) (root : Option String) (names : List String) (bound : String)
      (body : WrittenFilter)
  | raw (text : String)

def pathText (root : Option String) (names : List String) : String :=
  match root with
  | some x => x ++ "/" ++ "/".intercalate names
  | none => "/".intercalate names

namespace WrittenOperand

mutual
def pieces : WrittenOperand → List Piece
  | literal text => [.literal text]
  | path root names => [.plain (pathText root names)]
  | call name args => .plain (name ++ "(") :: [.plain ","].intercalate (argumentPieces args) ++
      [.plain ")"]

def argumentPieces : List WrittenOperand → List (List Piece)
  | [] => []
  | a :: rest => pieces a :: argumentPieces rest
end

def text (w : WrittenOperand) : String := Piece.joined w.pieces

theorem argumentPieces_eq (args : List WrittenOperand) : argumentPieces args = args.map pieces := by
  induction args with
  | nil => rfl
  | cons a rest ih => simp [argumentPieces, ih]

@[simp] theorem text_literal (text : String) : (literal text).text = text := by
  simp [WrittenOperand.text, pieces, Piece.joined, Piece.text]

@[simp] theorem text_path (root : Option String) (names : List String) :
    (path root names).text = pathText root names := by
  simp [text, pieces, Piece.joined, Piece.text]

@[simp] theorem text_call (name : String) (args : List WrittenOperand) :
    (call name args).text = name ++ "(" ++ ",".intercalate (args.map text) ++ ")" := by
  have hargs : (argumentPieces args).map Piece.joined = args.map text := by
    rw [argumentPieces_eq, List.map_map]
    rfl
  simp [text, pieces, Piece.joined, Piece.text, Piece.joined_intercalate, hargs,
    String.append_assoc]

end WrittenOperand

namespace WrittenFilter

def comparisonPieces (op : BinaryOperator) (left right : List Piece) : List Piece :=
  let word := odataWord op.key
  if op.isFunction then
    let (first, second) := if op = .contains then (right, left) else (left, right)
    .plain (word ++ "(") :: first ++ .plain "," :: second ++ [.plain ") eq true"]
  else left ++ .plain (" " ++ word ++ " ") :: right

def equalityPieces (left value : WrittenOperand) : List Piece :=
  .plain "(" :: left.pieces ++ .plain " eq " :: value.pieces ++ [.plain ")"]

mutual
def pieces : WrittenFilter → List Piece
  | comparison op left right => comparisonPieces op left.pieces right.pieces
  | membership left values => [.plain " or "].intercalate (values.map (equalityPieces left))
  | negation f => .plain (odataWord negationKey ++ " (") :: pieces f ++ [.plain ")"]
  | junction op parts => [.plain (" " ++ odataWord op.key ++ " ")].intercalate (partPieces parts)
  | quantified op root names bound body =>
    .plain (pathText root names ++ "/" ++ odataWord op.key ++ "(" ++ bound ++ ": ") ::
      pieces body ++ [.plain ")"]
  | raw text => [.plain text]

def partPieces : List WrittenFilter → List (List Piece)
  | [] => []
  | f :: rest => (.plain "(" :: pieces f ++ [.plain ")"]) :: partPieces rest
end

def text (f : WrittenFilter) : String := Piece.joined f.pieces

@[simp] theorem text_comparison (op : BinaryOperator) (left right : WrittenOperand) :
    (comparison op left right).text = OData.comparison op left.text right.text := by
  unfold text pieces comparisonPieces OData.comparison
  dsimp only
  split
  · split <;> simp [WrittenOperand.text, Piece.joined, Piece.text, String.append_assoc]
  · simp [WrittenOperand.text, Piece.joined, Piece.text, String.append_assoc]

@[simp] theorem text_membership (left : WrittenOperand) (values : List WrittenOperand) :
    (membership left values).text =
      OData.membership left.text (.many (values.map WrittenOperand.text)) := by
  have hclause : ∀ v, Piece.joined (equalityPieces left v) =
      "(" ++ left.text ++ " eq " ++ v.text ++ ")" := by
    simp [equalityPieces, WrittenOperand.text, Piece.joined, Piece.text, String.append_assoc]
  simp [text, pieces, Piece.joined_intercalate, OData.membership, hclause, Function.comp_def]

@[simp] theorem text_negation (f : WrittenFilter) :
    (negation f).text = odataWord negationKey ++ " (" ++ f.text ++ ")" := by
  simp [text, pieces, Piece.joined, Piece.text, String.append_assoc]

theorem joined_partPieces (fs : List WrittenFilter) :
    (partPieces fs).map Piece.joined = fs.map fun f => "(" ++ f.text ++ ")" := by
  induction fs with
  | nil => rfl
  | cons f rest ih => simp [partPieces, ih, text, Piece.joined, Piece.text, String.append_assoc]

@[simp] theorem text_junction (op : BooleanOperator) (fs : List WrittenFilter) :
    (junction op fs).text =
      (" " ++ odataWord op.key ++ " ").intercalate (fs.map fun f => "(" ++ f.text ++ ")") := by
  rw [text, pieces, Piece.joined_intercalate, joined_partPieces]

@[simp] theorem text_quantified (op : Quantifier) (root : Option String) (names : List String)
    (bound : String) (body : WrittenFilter) :
    (quantified op root names bound body).text =
      pathText root names ++ "/" ++ odataWord op.key ++ "(" ++ bound ++ ": " ++ body.text ++
        ")" := by
  simp [text, pieces, Piece.joined, Piece.text, String.append_assoc]

@[simp] theorem text_raw (text : String) : (raw text).text = text := by
  simp [WrittenFilter.text, pieces, Piece.joined, Piece.text]

end WrittenFilter

mutual
/-- An expression as an operand of a filter about `t`. -/
inductive OperandOf (c : Catalog) (t : Target) : Expr → WrittenOperand → Prop where
  | literal {d : DataType} {v : Value} {own : Option DataType} {text : String}
      (written : d.odataLiteral v = .ok text) : OperandOf c t (.literal v own) (.literal text)
  | path {p : String} {resolved : ResolvedPath} {root : Option String}
      (resolves : c.resolvePath t p = .ok resolved) :
      OperandOf c t (.property p) (.path root resolved.segments)
  | call {name : String} {args : List Expr} {written : List WrittenOperand}
      (arguments : OperandsOf c t args written) :
      OperandOf c t (.call name args) (.call name written)

inductive OperandsOf (c : Catalog) (t : Target) : List Expr → List WrittenOperand → Prop where
  | nil : OperandsOf c t [] []
  | cons {e : Expr} {w : WrittenOperand} {es : List Expr} {ws : List WrittenOperand}
      (first : OperandOf c t e w) (others : OperandsOf c t es ws) :
      OperandsOf c t (e :: es) (w :: ws)
end

inductive ValuesOf (c : Catalog) (t : Target) : Expr → List WrittenOperand → Prop where
  | one {e : Expr} {w : WrittenOperand} (h : OperandOf c t e w) : ValuesOf c t e [w]
  | list {d : DataType} {items : List Value} {own : Option DataType} {texts : List String}
      (written : items.mapM d.odataLiteral = .ok texts) :
      ValuesOf c t (.literal (.list items) own) (texts.map .literal)

mutual
/-- A predicate as a filter about `t`. The body of a quantifier is about the type that the
path of the quantifier leads to. -/
inductive FilterOf (c : Catalog) : Target → Predicate → WrittenFilter → Prop where
  | comparison {t : Target} {op : BinaryOperator} {left right : Expr} {l r : WrittenOperand}
      (plain : op ≠ .isIn) (hl : OperandOf c t left l) (hr : OperandOf c t right r) :
      FilterOf c t (.binary op left right) (.comparison op l r)
  | membership {t : Target} {left right : Expr} {l : WrittenOperand} {rs : List WrittenOperand}
      (hl : OperandOf c t left l) (hr : ValuesOf c t right rs) :
      FilterOf c t (.binary .isIn left right) (.membership l rs)
  | negation {t : Target} {p : Predicate} {f : WrittenFilter} (h : FilterOf c t p f) :
      FilterOf c t (.negation p) (.negation f)
  | junction {t : Target} {op : BooleanOperator} {ps : List Predicate} {fs : List WrittenFilter}
      (h : FiltersOf c t ps fs) : FilterOf c t (.junction op ps) (.junction op fs)
  | quantified {t : Target} {op : Quantifier} {path bound : String} {p : Predicate}
      {resolved : ResolvedPath} {root : Option String} {f : WrittenFilter}
      (resolves : c.resolvePath t path = .ok resolved) (h : FilterOf c resolved.target p f) :
      FilterOf c t (.quantified op path p) (.quantified op root resolved.segments bound f)
  | raw {t : Target} {text : String} : FilterOf c t (.raw text) (.raw text)

inductive FiltersOf (c : Catalog) : Target → List Predicate → List WrittenFilter → Prop where
  | nil {t : Target} : FiltersOf c t [] []
  | cons {t : Target} {p : Predicate} {f : WrittenFilter} {ps : List Predicate}
      {fs : List WrittenFilter} (first : FilterOf c t p f) (others : FiltersOf c t ps fs) :
      FiltersOf c t (p :: ps) (f :: fs)
end

end EntityCache
