import EntityCache.Proofs.ExpressionReading
import EntityCache.Proofs.FilterVariables
import EntityCache.Proofs.NumberTexts
import EntityCache.Proofs.ReadingBack

/-! Where a literal of a filter ends. A literal with a quote in it is a mark, an opening quote, a
body in which every quote is doubled, and a closing quote, unless it is a duration or binary
data with a quote of its own: these two are written between quotes as they are. -/
namespace EntityCache

/-- What a body stands for when each doubled quote in it is one quote. A quote that stands
alone has no place in it. -/
def undoubled : List Char → Option (List Char)
  | [] => some []
  | '\x27' :: '\x27' :: cs => (undoubled cs).map ('\x27' :: ·)
  | c :: cs => if c = '\x27' then none else (undoubled cs).map (c :: ·)

theorem undoubled_doubled (cs : List Char) :
    undoubled (cs.flatMap DataType.doubleQuote) = some cs := by
  induction cs with
  | nil => rfl
  | cons c cs ih =>
    by_cases hc : c = '\x27'
    · simp [DataType.doubleQuote, hc, undoubled, ih]
    · simp [DataType.doubleQuote, hc, undoubled, ih]

theorem doubled_of_undoubled {body cs : List Char} (h : undoubled body = some cs) :
    body = cs.flatMap DataType.doubleQuote := by
  fun_induction undoubled body generalizing cs with
  | case1 =>
    cases h
    rfl
  | case2 rest ih =>
    obtain ⟨ds, hds, rfl⟩ := Option.map_eq_some_iff.mp h
    simp [DataType.doubleQuote, ← ih hds]
  | case3 rest _ => cases h
  | case4 c rest _ hc ih =>
    obtain ⟨ds, hds, rfl⟩ := Option.map_eq_some_iff.mp h
    simp [DataType.doubleQuote, hc, ← ih hds]

theorem undoubled_eq_some_iff {body cs : List Char} :
    undoubled body = some cs ↔ body = cs.flatMap DataType.doubleQuote :=
  ⟨doubled_of_undoubled, fun h => h ▸ undoubled_doubled cs⟩

theorem length_doubled (cs : List Char) :
    (cs.flatMap DataType.doubleQuote).length = cs.length + cs.count '\x27' := by
  induction cs with
  | nil => rfl
  | cons c cs ih =>
    by_cases hc : c = '\x27'
    · simp [DataType.doubleQuote, hc, ih]
      omega
    · simp [DataType.doubleQuote, hc, ih]
      omega

theorem undoubled_eq_self_iff {cs : List Char} : undoubled cs = some cs ↔ '\x27' ∉ cs := by
  rw [undoubled_eq_some_iff]
  constructor
  · intro h
    have hlength := congrArg List.length h
    rw [length_doubled] at hlength
    exact List.count_eq_zero.mp (by omega)
  · intro h
    induction cs with
    | nil => rfl
    | cons c cs ih =>
      rw [List.mem_cons, not_or] at h
      simp [DataType.doubleQuote, Ne.symm h.1, ← ih h.2]

namespace OData

/-- Reads a literal with a string in it, which begins at the first quote: what the string
stands for, and what follows the literal. -/
def readString (cs : List Char) : Expr.Reading (List Char) :=
  Expr.stringTail '\x27' ((cs.dropWhile (· ≠ '\x27')).drop 1)

theorem dropWhile_mark {mark : List Char} (h : '\x27' ∉ mark) (rest : List Char) :
    (mark ++ '\x27' :: rest).dropWhile (· ≠ '\x27') = '\x27' :: rest := by
  rw [List.dropWhile_append_of_pos, List.dropWhile_cons_of_neg (by simp)]
  intro c hc
  simpa using fun heq : c = '\x27' => h (heq ▸ hc)

/-- The text is a mark without quotes, an opening quote, a body in which each quote is one of
a doubled pair, and a closing quote; the body stands for what is shown. -/
def Enclosed (mark text shown : String) : Prop :=
  '\x27' ∉ mark.toList ∧ ∃ body, text.toList = mark.toList ++ '\x27' :: body ++ ['\x27'] ∧
    undoubled body = some shown.toList

theorem Enclosed.read {mark text shown : String} (h : Enclosed mark text shown)
    {rest : List Char} (hrest : rest.head? ≠ some '\x27') :
    readString (text.toList ++ rest) = .ok (shown.toList, rest) := by
  obtain ⟨hmark, body, htext, hbody⟩ := h
  have hsplit : text.toList ++ rest = mark.toList ++ '\x27' :: (body ++ '\x27' :: rest) := by
    simp [htext]
  rw [readString, hsplit, dropWhile_mark hmark, doubled_of_undoubled hbody]
  exact Expr.stringTail_doubled hrest _

/-- A text between quotes is enclosed as it is only where it has no quotes itself. -/
theorem enclosed_as_is_iff {mark text shown : String} (hmark : '\x27' ∉ mark.toList)
    (htext : text.toList = mark.toList ++ '\x27' :: shown.toList ++ ['\x27']) :
    Enclosed mark text shown ↔ '\x27' ∉ shown.toList := by
  rw [← undoubled_eq_self_iff]
  constructor
  · rintro ⟨_, body, hbody, hshown⟩
    have hsame : shown.toList = body := by simpa [htext] using hbody
    rwa [← hsame] at hshown
  · intro h
    exact ⟨hmark, shown.toList, htext, h⟩

def mark : DataType → String
  | .dateTime => "datetime"
  | .dateTimeOffset => "datetimeoffset"
  | .time => "time"
  | .guid => "guid"
  | .binary => "binary"
  | _ => ""

theorem mark_unquoted (d : DataType) : '\x27' ∉ (mark d).toList := by
  cases d <;> decide

def shown (d : DataType) (v : Value) : String := ((writtenAs d v).coerce v).display

def IsUnescaped (d : DataType) : Prop := d = .time ∨ d = .binary

theorem int_unquoted (i : Int) : '\x27' ∉ i.repr.toList := by
  intro h
  rcases Number.mem_repr h with hdigit | hsign
  · exact absurd hdigit (by decide)
  · exact absurd hsign (by decide)

theorem float_unquoted (x : Binary64) : '\x27' ∉ x.text.toList := by
  cases hnan : x.isNaN with
  | true =>
    rw [Binary64.text_eq_nan_iff.mpr hnan]
    decide
  | false =>
    rw [Binary64.text_of_number hnan, String.toList_append, List.mem_append, not_or]
    constructor
    · intro h
      exact absurd (Binary64.mem_signText h) (by decide)
    · intro h
      exact absurd (Binary64.mem_body h) (by decide)

theorem plain_display {d : DataType} {v : Value} (hd : d.isNumeric = true ∨ d = .boolean)
    (h : d.accepts v = true) : '\x27' ∉ v.display.toList := by
  cases v with
  | null => decide
  | boolean b => cases b <;> decide
  | integer i => exact int_unquoted i.toInt
  | float x => exact float_unquoted x
  | _ =>
    rcases hd with hd | rfl
    · cases d <;> simp [DataType.accepts, DataType.isNumeric, DataType.isInteger,
        DataType.isFloat] at hd h
    · simp [DataType.accepts] at h

theorem suffixed_unquoted {body suffix : String} (hbody : '\x27' ∉ body.toList)
    (hsuffix : '\x27' ∉ suffix.toList) : '\x27' ∉ (body ++ suffix).toList := by
  simp [hbody, hsuffix]

theorem literalText_plain {d : DataType} {v : Value} (hd : d.isNumeric = true ∨ d = .boolean)
    (h : d.accepts v = true) : '\x27' ∉ (d.literalText v).toList := by
  have hdisplay := plain_display hd h
  cases d with
  | int16 | int32 | byte | boolean => exact hdisplay
  | int64 | decimal | double | single => exact suffixed_unquoted hdisplay (by decide)
  | _ => simp [DataType.isNumeric, DataType.isInteger, DataType.isFloat] at hd

theorem literalText_string (v : Value) : Enclosed "" (DataType.string.literalText v) v.display := by
  refine ⟨by decide, v.display.toList.flatMap DataType.doubleQuote, ?_, undoubled_doubled _⟩
  change (DataType.quote v.display).toList = _
  simp [DataType.quote]

theorem marked_toList {front mark : String} (body : String)
    (hfront : front.toList = mark.toList ++ ['\x27']) :
    (front ++ body ++ "'").toList = mark.toList ++ '\x27' :: body.toList ++ ['\x27'] := by
  simp [hfront]

theorem literalText_marked {d : DataType} (v : Value)
    (hd : d = .dateTime ∨ d = .dateTimeOffset ∨ d = .guid ∨ IsUnescaped d) :
    (d.literalText v).toList = (mark d).toList ++ '\x27' :: v.display.toList ++ ['\x27'] := by
  rcases hd with rfl | rfl | rfl | rfl | rfl
  all_goals exact marked_toList v.display (by decide)

theorem kind_cases (d : DataType) : d = .undefined ∨ (d.isNumeric = true ∨ d = .boolean) ∨
    d = .string ∨ (d = .dateTime ∨ d = .dateTimeOffset ∨ d = .guid) ∨ IsUnescaped d := by
  cases d <;> simp [DataType.isNumeric, DataType.isInteger, DataType.isFloat, IsUnescaped]

/-- Durations and binary data come out enclosed only without quotes, all others always. -/
theorem literalText_enclosed_iff {d : DataType} {v : Value} (hd : d ≠ .undefined)
    (h : d.accepts v = true) :
    ('\x27' ∈ (d.literalText v).toList → Enclosed (mark d) (d.literalText v) v.display) ↔
      (IsUnescaped d → '\x27' ∉ v.display.toList) := by
  rcases kind_cases d with rfl | hplain | rfl | hmarked | hunescaped
  · exact absurd rfl hd
  · refine iff_of_true (fun hquote => absurd hquote (literalText_plain hplain h)) ?_
    exact fun _ => plain_display hplain h
  · refine iff_of_true (fun _ => literalText_string v) ?_
    rintro (hd | hd) <;> cases hd
  · have hdisplay := quoted_display hmarked h
    have htext := literalText_marked v (hmarked.imp_right (Or.imp_right Or.inl))
    refine iff_of_true (fun _ => ?_) fun _ => hdisplay
    exact (enclosed_as_is_iff (mark_unquoted d) htext).mpr hdisplay
  · have htext := literalText_marked v (Or.inr (Or.inr (Or.inr hunescaped)))
    rw [enclosed_as_is_iff (mark_unquoted d) htext, htext]
    simp [hunescaped]

theorem odataLiteral_ok {d : DataType} {v : Value} {text : String}
    (h : d.odataLiteral v = .ok text) : v = .null ∧ text = "null" ∨
      writtenAs d v ≠ .undefined ∧ (writtenAs d v).accepts ((writtenAs d v).coerce v) = true ∧
        text = (writtenAs d v).literalText ((writtenAs d v).coerce v) := by
  have hvalue : DataType.ofValue v ≠ .undefined →
      ((writtenAs d v).validate v).map (writtenAs d v).literalText = .ok text →
      writtenAs d v ≠ .undefined ∧ (writtenAs d v).accepts ((writtenAs d v).coerce v) = true ∧
        text = (writtenAs d v).literalText ((writtenAs d v).coerce v) := by
    intro hknown hmap
    obtain ⟨w, hvalid, rfl⟩ := map_ok hmap
    have hdefined : writtenAs d v ≠ .undefined := by
      unfold writtenAs
      split
      · exact hknown
      · assumption
    obtain ⟨rfl, haccepts⟩ := DataType.validate_ok hvalid
    exact ⟨hdefined, haccepts, rfl⟩
  cases v with
  | null => exact .inl ⟨rfl, (Except.ok.inj h).symm⟩
  | list items => cases h
  | _ => exact .inr (hvalue (by simp [DataType.ofValue]) h)

/-- No quote stands right behind a literal, where `rest` follows the last of the pieces. -/
def SetApart (rest : List Char) : List Piece → Prop
  | [] => True
  | .plain _ :: ps => SetApart rest ps
  | .literal _ :: ps =>
    ((Piece.joined ps).toList ++ rest).head? ≠ some '\x27' ∧ SetApart rest ps

theorem setApart_append {rest : List Char} {ps qs : List Piece} :
    SetApart rest (ps ++ qs) ↔
      SetApart ((Piece.joined qs).toList ++ rest) ps ∧ SetApart rest qs := by
  induction ps with
  | nil => simp [SetApart]
  | cons p ps ih =>
    cases p with
    | plain text => simpa [SetApart] using ih
    | literal text => simp [SetApart, ih, and_assoc]

theorem SetApart.behind {rest : List Char} {text : String} {ps front back : List Piece}
    (h : SetApart rest ps) (hps : ps = front ++ .literal text :: back) :
    ((Piece.joined back).toList ++ rest).head? ≠ some '\x27' := by
  rw [hps, setApart_append] at h
  exact h.2.1

/-- Stretches that are set apart whatever follows them, as long as that is no quote. -/
def Closes (ps : List Piece) : Prop :=
  ∀ rest : List Char, rest.head? ≠ some '\x27' → SetApart rest ps

/-- Pieces with a plain text behind them that begins with another character. -/
theorem Closes.before {ps qs : List Piece} {text : String} {c : Char} {cs : List Char}
    (hps : Closes ps) (hqs : Closes qs) (htext : text.toList = c :: cs) (hc : c ≠ '\x27') :
    Closes (ps ++ .plain text :: qs) := by
  intro rest hrest
  refine setApart_append.mpr ⟨hps _ ?_, hqs rest hrest⟩
  simp [Piece.joined, Piece.text, htext, hc]

theorem Closes.nil : Closes [] := fun _ _ => trivial

theorem Closes.plain {ps : List Piece} (text : String) (h : Closes ps) :
    Closes (.plain text :: ps) := h

theorem Closes.intercalate {separator : String} {c : Char} {cs : List Char}
    (hseparator : separator.toList = c :: cs) (hc : c ≠ '\x27') {pss : List (List Piece)}
    (h : ∀ ps ∈ pss, Closes ps) : Closes ([.plain separator].intercalate pss) := by
  induction pss with
  | nil => exact .nil
  | cons ps rest ih =>
    have hfirst := h ps List.mem_cons_self
    cases rest with
    | nil => simpa using hfirst
    | cons qs rest =>
      have hrest := ih fun rs hrs => h rs (List.mem_cons_of_mem _ hrs)
      rw [List.intercalate_cons_cons, List.append_assoc]
      exact hfirst.before hrest hseparator hc

mutual
theorem operand_closes : (w : WrittenOperand) → Closes w.pieces
  | .literal _ => fun rest hrest => ⟨by simpa [Piece.joined] using hrest, trivial⟩
  | .path _ _ => Closes.nil.plain _
  | .call name args => by
    have hargs : Closes ([.plain ","].intercalate (WrittenOperand.argumentPieces args)) :=
      .intercalate rfl (by decide) (arguments_close args)
    exact (hargs.before .nil rfl (by decide)).plain _

theorem arguments_close :
    (args : List WrittenOperand) → ∀ ps ∈ WrittenOperand.argumentPieces args, Closes ps
  | [] => by simp [WrittenOperand.argumentPieces]
  | a :: rest => by
    intro ps hps
    rcases List.mem_cons.mp hps with rfl | hps
    · exact operand_closes a
    · exact arguments_close rest ps hps
end

theorem spaced_head (word : String) :
    (" " ++ word ++ " ").toList = ' ' :: (word.toList ++ [' ']) := by
  simp

theorem comparison_closes (op : BinaryOperator) {left right : List Piece} (hleft : Closes left)
    (hright : Closes right) : Closes (WrittenFilter.comparisonPieces op left right) := by
  have hcall : ∀ first second, Closes first → Closes second → Closes
      (.plain (odataWord op.key ++ "(") :: first ++ .plain "," :: second ++
        [.plain ") eq true"]) := by
    intro first second hfirst hsecond
    have harguments : Closes (first ++ .plain "," :: second) :=
      hfirst.before hsecond rfl (by decide)
    exact (harguments.before .nil rfl (by decide)).plain _
  unfold WrittenFilter.comparisonPieces
  dsimp only
  split
  · split
    · exact hcall right left hright hleft
    · exact hcall left right hleft hright
  · exact hleft.before hright (spaced_head _) (by decide)

theorem equality_closes (left value : WrittenOperand) :
    Closes (WrittenFilter.equalityPieces left value) := by
  have hsides : Closes (left.pieces ++ .plain " eq " :: value.pieces) :=
    (operand_closes left).before (operand_closes value) rfl (by decide)
  exact (hsides.before .nil rfl (by decide)).plain _

mutual
theorem filter_closes : (f : WrittenFilter) → Closes f.pieces
  | .comparison op left right =>
    comparison_closes op (operand_closes left) (operand_closes right)
  | .membership left values => by
    refine Closes.intercalate rfl (by decide) fun ps hps => ?_
    obtain ⟨value, _, rfl⟩ := List.mem_map.mp hps
    exact equality_closes left value
  | .negation f => ((filter_closes f).before .nil rfl (by decide)).plain _
  | .junction op parts => Closes.intercalate (spaced_head _) (by decide) (parts_close parts)
  | .quantified _ _ _ _ body => ((filter_closes body).before .nil rfl (by decide)).plain _
  | .raw _ => Closes.nil.plain _

theorem parts_close :
    (fs : List WrittenFilter) → ∀ ps ∈ WrittenFilter.partPieces fs, Closes ps
  | [] => by simp [WrittenFilter.partPieces]
  | f :: rest => by
    intro ps hps
    rcases List.mem_cons.mp hps with rfl | hps
    · exact ((filter_closes f).before .nil rfl (by decide)).plain _
    · exact parts_close rest ps hps
end

/-- What stands behind a literal in a filter does not begin with a quote. -/
theorem literal_followed {f : WrittenFilter} {text : String} {front back : List Piece}
    (h : f.pieces = front ++ .literal text :: back) :
    (Piece.joined back).toList.head? ≠ some '\x27' := by
  have hapart := filter_closes f [] (by simp)
  simpa using hapart.behind h

/-- A literal with quotes in it is enclosed, unless it is a duration or binary data in which
there are quotes. A literal that is enclosed ends in every filter where it was written to end,
and what is read from it there is what it shows. -/
theorem odataLiteral_enclosed_iff {d : DataType} {v : Value} {text : String}
    (h : d.odataLiteral v = .ok text) :
    (('\x27' ∈ text.toList → Enclosed (mark (writtenAs d v)) text (shown d v)) ↔
      (IsUnescaped (writtenAs d v) → '\x27' ∉ (shown d v).toList)) ∧
    (Enclosed (mark (writtenAs d v)) text (shown d v) →
      ∀ {c : Catalog} {t : Target} {p : Predicate} {filter : String},
        predicate (Scope.outermost c t) p = .ok filter →
        ∃ f : WrittenFilter, f.text = filter ∧ FilterOf c t p f ∧
          ∀ front back, f.pieces = front ++ .literal text :: back →
            readString (text.toList ++ (Piece.joined back).toList) =
              .ok ((shown d v).toList, (Piece.joined back).toList)) := by
  constructor
  · rcases odataLiteral_ok h with ⟨rfl, rfl⟩ | ⟨hdefined, haccepts, rfl⟩
    · have hnull : shown d .null = "null" := by
        cases d <;> rfl
      rw [hnull]
      exact iff_of_true (fun hquote => absurd hquote (by decide)) fun _ => by decide
    · exact literalText_enclosed_iff hdefined haccepts
  · intro henclosed c t p filter hfilter
    obtain ⟨f, htext, hf, _⟩ := predicate_written (outermost_nested c t) p hfilter
    refine ⟨f, htext, hf, fun front back hpieces => ?_⟩
    exact henclosed.read (literal_followed hpieces)

def trickyName : Value := .text "O'Hara' or '1' eq '1"

theorem trickyName_enclosed :
    DataType.undefined.odataLiteral trickyName = .ok "'O''Hara'' or ''1'' eq ''1'" ∧
      Enclosed "" "'O''Hara'' or ''1'' eq ''1'" "O'Hara' or '1' eq '1" ∧
      ∃ f : WrittenFilter, f.text = "Name eq 'O''Hara'' or ''1'' eq ''1'" ∧
        ∀ front back, f.pieces = front ++ .literal "'O''Hara'' or ''1'' eq ''1'" :: back →
          readString ("'O''Hara'' or ''1'' eq ''1'".toList ++ (Piece.joined back).toList) =
            .ok ("O'Hara' or '1' eq '1".toList, (Piece.joined back).toList) := by
  have hliteral : DataType.undefined.odataLiteral trickyName =
      .ok "'O''Hara'' or ''1'' eq ''1'" := by decide +kernel
  have hfilter : predicate (Scope.outermost {} .anonymous)
      (.binary .equals (.property "Name") (.literal trickyName none)) =
        .ok "Name eq 'O''Hara'' or ''1'' eq ''1'" := by decide +kernel
  obtain ⟨hiff, hread⟩ := odataLiteral_enclosed_iff hliteral
  have henclosed : Enclosed "" "'O''Hara'' or ''1'' eq ''1'" "O'Hara' or '1' eq '1" :=
    hiff.mpr (by rintro (hd | hd) <;> cases hd) (by decide)
  obtain ⟨f, htext, _, hends⟩ := hread henclosed hfilter
  exact ⟨hliteral, henclosed, f, htext, hends⟩

/-- Binary data with a quote in it ends its literal early. -/
theorem binary_breaks_out : ¬ ∀ (d : DataType) (v : Value) (text : String),
    d.odataLiteral v = .ok text → '\x27' ∈ text.toList →
      ∃ front, Enclosed front text (shown d v) := by
  intro hall
  have hliteral : DataType.binary.odataLiteral (.text "a'b") = .ok "binary'a'b'" := by
    decide +kernel
  obtain ⟨front, hfront, body, htext, hbody⟩ := hall _ _ _ hliteral (by decide)
  have hquoted := congrArg (List.dropWhile (· ≠ '\x27')) htext
  rw [List.append_assoc, List.cons_append, dropWhile_mark hfront] at hquoted
  have hsame : ['a', '\x27', 'b'] ++ ['\x27'] = body ++ ['\x27'] := (List.cons.inj hquoted).2
  rw [← List.append_cancel_right hsame] at hbody
  cases hbody

end OData

end EntityCache
