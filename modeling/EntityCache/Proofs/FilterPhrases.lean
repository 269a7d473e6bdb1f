import EntityCache.Proofs.FilterOperands

/-! Texts that are read back as a known formula, and the ways to put them together: a group,
a negation, groups with an operator between them, and the body of a quantifier. -/
namespace EntityCache.OData

def Ends (rest : List Token) : Prop := rest = [] ∨ rest.head? = some .closing

theorem Ends.head_ne {rest : List Token} (h : Ends rest) {t : Token} (ht : t ≠ .closing) :
    rest.head? ≠ some t := by
  intro heq
  rcases h with rfl | hc
  · simp at heq
  · rw [hc] at heq
    exact ht (Option.some.inj heq).symm

def ReadsAs (ts : List Token) (f : Formula) : Prop :=
  ∀ fuel rest, ts.length < fuel → Ends rest → readFormula fuel (ts ++ rest) = some (f, rest)

/-- Where tokens have to fit below the fuel, there is fuel to begin with. -/
theorem ReadsAs.of_succ {ts : List Token} {f : Formula}
    (h : ∀ fuel rest, ts.length ≤ fuel → Ends rest →
      readFormula (fuel + 1) (ts ++ rest) = some (f, rest)) : ReadsAs ts f := by
  intro fuel rest hfuel hrest
  cases fuel with
  | zero => exact absurd hfuel (Nat.not_lt_zero _)
  | succ fuel => exact h fuel rest (Nat.le_of_lt_succ hfuel) hrest

def grouped (ts : List Token) : List Token := .opening :: ts ++ [.closing]

theorem readPrimary_grouped {ts : List Token} {f : Formula} (h : ReadsAs ts f) {fuel : Nat}
    (hf : ts.length < fuel) (rest : List Token) :
    readPrimary (readFormula fuel) (grouped ts ++ rest) = some (f, rest) := by
  have hinner := h fuel (.closing :: rest) hf (Or.inr rfl)
  simp [grouped, readPrimary, hinner, closed]

theorem readNegated_grouped {ts : List Token} {f : Formula} (h : ReadsAs ts f) {fuel : Nat}
    (hf : ts.length < fuel) (rest : List Token) :
    readNegated (readPrimary (readFormula fuel)) (grouped ts ++ rest) = some (f, rest) :=
  readPrimary_grouped h hf rest

theorem readChain_one {op : BooleanOperator} {element : Reader Formula} {ts rest : List Token}
    {f : Formula} (h : element ts = some (f, rest))
    (hr : rest.head? ≠ some (.word op.key.toList)) (fuel : Nat) :
    readChain op element (fuel + 1) ts = some (f, rest) := by
  match rest, h, hr with
  | [], h, _ => simp [readChain, h]
  | .word w :: rest, h, hr =>
    have hw : w ≠ op.key.toList := by simpa using hr
    simp [readChain, h, hw]
  | .opening :: rest, h, _ => simp [readChain, h]
  | .closing :: rest, h, _ => simp [readChain, h]
  | .comma :: rest, h, _ => simp [readChain, h]
  | .colon :: rest, h, _ => simp [readChain, h]

theorem readChain_more {op : BooleanOperator} {element : Reader Formula} {ts rest : List Token}
    {f : Formula} (h : element ts = some (f, .word op.key.toList :: rest)) (fuel : Nat) :
    readChain op element (fuel + 1) ts =
      (readChain op element fuel rest).map fun (g, rest) => (.junction op f g, rest) := by
  simp [readChain, h]

/-- A formula that is no chain is read as a chain of one. -/
theorem readFormula_of_negated {fuel : Nat} {ts rest : List Token} {f : Formula}
    (h : readNegated (readPrimary (readFormula fuel)) ts = some (f, rest)) (hr : Ends rest) :
    readFormula (fuel + 1) ts = some (f, rest) := by
  have hand := readChain_one h (hr.head_ne (t := .word BooleanOperator.and.key.toList)
    (by simp)) ts.length
  exact readChain_one hand (hr.head_ne (by simp)) ts.length

/-- A text with its tokens and with the formula that they are read as. -/
structure Phrase where
  text : String
  tokens : List Token
  formula : Formula
  spelled : Spells text.toList tokens
  read : ReadsAs tokens formula

namespace Phrase

def group (e : Phrase) : String := "(" ++ e.text ++ ")"

theorem group_spelled (e : Phrase) : Spells e.group.toList (grouped e.tokens) := by
  have h := e.spelled.group
  simpa [group, grouped] using h

def linked (op : BooleanOperator) : Phrase → List Phrase → List Token
  | e, [] => grouped e.tokens
  | e, next :: rest =>
    grouped e.tokens ++ .word op.key.toList :: linked op next rest

theorem odataWord_key (op : BooleanOperator) : odataWord op.key = op.key := by
  cases op <;> decide

theorem key_spelled (op : BooleanOperator) :
    Spells op.key.toList [.word op.key.toList] := by
  apply Spells.word
  · apply IsWord.of_plain
    cases op <;> decide
  · cases op <;> decide

theorem linked_spelled (op : BooleanOperator) (e : Phrase) (es : List Phrase) :
    Spells ((" " ++ op.key ++ " ").intercalate ((e :: es).map group)).toList
      (linked op e es) := by
  induction es generalizing e with
  | nil => simpa [linked] using e.group_spelled
  | cons next rest ih =>
    have hkey := (key_spelled op).spaced (ih next)
    have hall := e.group_spelled.spaced hkey
    simpa [linked, String.intercalate_cons_cons] using hall

theorem length_lt_linked (op : BooleanOperator) (e : Phrase) (es : List Phrase) :
    ∀ e' ∈ e :: es, e'.tokens.length < (linked op e es).length := by
  induction es generalizing e with
  | nil =>
    intro e' he'
    rw [List.mem_singleton.mp he']
    simp only [linked, grouped, List.length_append, List.length_cons]
    omega
  | cons next rest ih =>
    intro e' he'
    rcases List.mem_cons.mp he' with rfl | he'
    · simp only [linked, grouped, List.length_append, List.length_cons]
      omega
    · have hlt := ih next e' he'
      simp only [linked, List.length_append, List.length_cons]
      omega

theorem length_le_linked (op : BooleanOperator) (e : Phrase) (es : List Phrase) :
    es.length ≤ (linked op e es).length := by
  induction es generalizing e with
  | nil => simp
  | cons next rest ih =>
    have hle := ih next
    simp only [linked, List.length_append, List.length_cons]
    omega

/-- `P` holds of what may stand behind an element: the operator, and what ends the chain. -/
theorem readChain_linked {op : BooleanOperator} {element : Reader Formula}
    {P : List Token → Prop} (hop : ∀ rest, P (.word op.key.toList :: rest))
    {rest : List Token} (hP : P rest) (hr : rest.head? ≠ some (.word op.key.toList))
    (e : Phrase) (es : List Phrase)
    (h : ∀ e' ∈ e :: es, ∀ rest, P rest →
      element (grouped e'.tokens ++ rest) = some (e'.formula, rest))
    {fuel : Nat} (hf : es.length ≤ fuel) :
    readChain op element (fuel + 1) (linked op e es ++ rest) =
      some (Formula.chain op e.formula (es.map formula), rest) := by
  induction es generalizing e fuel with
  | nil => exact readChain_one (h e List.mem_cons_self rest hP) hr fuel
  | cons next others ih =>
    cases fuel with
    | zero => exact absurd hf (Nat.not_succ_le_zero _)
    | succ fuel =>
      have hhead := h e List.mem_cons_self
        (.word op.key.toList :: (linked op next others ++ rest)) (hop _)
      have hothers : ∀ e' ∈ next :: others, ∀ rest, P rest →
          element (grouped e'.tokens ++ rest) = some (e'.formula, rest) :=
        fun e' he' => h e' (List.mem_cons_of_mem _ he')
      have htail := ih next hothers (Nat.le_of_succ_le_succ hf)
      have happend : linked op e (next :: others) ++ rest =
          grouped e.tokens ++ .word op.key.toList :: (linked op next others ++ rest) := by
        simp [linked]
      rw [happend, readChain_more hhead, htail]
      rfl

theorem linked_read (op : BooleanOperator) (e : Phrase) (es : List Phrase) :
    ReadsAs (linked op e es) (Formula.chain op e.formula (es.map formula)) := by
  apply ReadsAs.of_succ
  intro fuel rest hfuel hrest
  have hgroup : ∀ e' ∈ e :: es, ∀ rest,
      readNegated (readPrimary (readFormula fuel)) (grouped e'.tokens ++ rest) =
        some (e'.formula, rest) := by
    intro e' he' rest
    have hlt := length_lt_linked op e es e' he'
    exact readNegated_grouped e'.read (by omega) rest
  have hcount : es.length ≤ (linked op e es ++ rest).length := by
    rw [List.length_append]
    exact Nat.le_add_right_of_le (length_le_linked op e es)
  cases op with
  | and =>
    apply readChain_one _ (hrest.head_ne (by simp))
    apply readChain_linked (P := fun _ => True)
    · intro rest
      trivial
    · trivial
    · exact hrest.head_ne (by simp)
    · intro e' he' rest' _
      exact hgroup e' he' rest'
    · exact hcount
  | or =>
    -- Between the groups each one is a chain of `and` by itself.
    apply readChain_linked
      (P := fun rest => rest.head? ≠ some (.word BooleanOperator.and.key.toList))
    · intro rest
      simp [BooleanOperator.key]
    · exact hrest.head_ne (by simp)
    · exact hrest.head_ne (by simp)
    · intro e' he' rest' hrest'
      exact readChain_one (hgroup e' he' rest') hrest' _
    · exact hcount

def joined (op : BooleanOperator) (e : Phrase) (es : List Phrase) : Phrase where
  text := (" " ++ op.key ++ " ").intercalate ((e :: es).map group)
  tokens := linked op e es
  formula := Formula.chain op e.formula (es.map formula)
  spelled := linked_spelled op e es
  read := linked_read op e es

theorem negation_spelled (e : Phrase) :
    Spells (negationKey ++ " (" ++ e.text ++ ")").toList
      (.word negationKey.toList :: grouped e.tokens) := by
  have hkey : Spells negationKey.toList [.word negationKey.toList] :=
    Spells.word (IsWord.of_plain (by decide)) (by decide)
  have hall := hkey.spaced e.group_spelled
  simpa [group] using hall

theorem negation_read (e : Phrase) :
    ReadsAs (.word negationKey.toList :: grouped e.tokens) (.not e.formula) := by
  apply ReadsAs.of_succ
  intro fuel rest hfuel hrest
  simp only [List.length_cons, grouped, List.length_append] at hfuel
  have hlt : e.tokens.length < fuel := by omega
  have hgroup := readNegated_grouped e.read hlt rest
  apply readFormula_of_negated _ hrest
  rw [List.cons_append, readNegated, if_pos rfl, hgroup]
  rfl

def negated (e : Phrase) : Phrase where
  text := negationKey ++ " (" ++ e.text ++ ")"
  tokens := .word negationKey.toList :: grouped e.tokens
  formula := .not e.formula
  spelled := e.negation_spelled
  read := e.negation_read

theorem quantifier?_key (op : Quantifier) (path : List Char) :
    quantifier? (path ++ '/' :: op.key.toList) = some (op, path) := by
  have hlength : (path ++ '/' :: op.key.toList).length - 4 = path.length := by
    cases op <;> simp [Quantifier.key]
  unfold quantifier?
  rw [hlength, List.take_left, List.drop_left]
  cases op
  · rfl
  · rfl

theorem quantified_spelled (e : Phrase) (op : Quantifier) {path bound : String}
    (hpath : IsWord path.toList) (hbound : IsTerm bound.toList) :
    Spells (path ++ "/" ++ op.key ++ "(" ++ bound ++ ": " ++ e.text ++ ")").toList
      (.word (path.toList ++ '/' :: op.key.toList) :: .opening :: .word bound.toList :: .colon ::
        e.tokens ++ [.closing]) := by
  have hhead : Spells (path.toList ++ '/' :: op.key.toList)
      [.word (path.toList ++ '/' :: op.key.toList)] := by
    apply Spells.word
    · apply hpath.append
      apply IsWord.of_plain
      cases op <;> decide
    · simp
  have hspace : Spells (' ' :: e.text.toList) e.tokens := by
    simpa using Spells.nil.spaced e.spelled
  have hbody := Spells.marked (c := ':') rfl (Spells.word hbound.word hbound.ne_nil) hspace
  have hclosed : Spells (bound.toList ++ ':' :: ' ' :: e.text.toList ++ [')'])
      ([.word bound.toList] ++ .colon :: e.tokens ++ [.closing]) :=
    Spells.marked rfl hbody Spells.nil
  have hall := Spells.marked (c := '(') rfl hhead hclosed
  simpa using hall

theorem quantified_read (e : Phrase) (op : Quantifier) (path bound : List Char) :
    ReadsAs (.word (path ++ '/' :: op.key.toList) :: .opening :: .word bound :: .colon ::
      e.tokens ++ [.closing]) (.quantified op path bound e.formula) := by
  apply ReadsAs.of_succ
  intro fuel rest hfuel hrest
  simp only [List.length_cons, List.length_append] at hfuel
  have hbody := e.read fuel (.closing :: rest) (by omega) (Or.inr rfl)
  have hnot : path ++ '/' :: op.key.toList ≠ negationKey.toList := by
    intro heq
    have hmem : '/' ∈ negationKey.toList := heq ▸ by simp
    exact absurd hmem (by decide)
  apply readFormula_of_negated _ hrest
  simp [readNegated, hnot, readPrimary, quantifier?_key, hbody, closed]

def quantified (e : Phrase) (op : Quantifier) {path bound : String} (hpath : IsWord path.toList)
    (hbound : IsTerm bound.toList) : Phrase where
  text := path ++ "/" ++ op.key ++ "(" ++ bound ++ ": " ++ e.text ++ ")"
  tokens := .word (path.toList ++ '/' :: op.key.toList) :: .opening :: .word bound.toList ::
    .colon :: e.tokens ++ [.closing]
  formula := .quantified op path.toList bound.toList e.formula
  spelled := e.quantified_spelled op hpath hbound
  read := e.quantified_read op path.toList bound.toList

end Phrase

def comparisonAtom (op : BinaryOperator) (left right : String) : Formula :=
  .atom (tokens (comparison op left right))

theorem comparison_word {w : List Char} (h : isAmong comparisonWords w = true) :
    Spells w [.word w] := by
  obtain ⟨s, hs, heq⟩ := List.any_eq_true.mp h
  have hsw : s.toList = w := by simpa using heq
  have hplain : ∀ s ∈ comparisonWords, s.toList ≠ [] ∧ s.toList.all isPlain = true := by decide
  obtain ⟨hne, hc⟩ := hplain s hs
  rw [← hsw]
  exact Spells.word (IsWord.of_plain hc) hne

theorem comparison_read {l r : List Token} {w : List Char} (hl : IsOperand l) (hr : IsOperand r)
    (hw : isAmong comparisonWords w = true) :
    ReadsAs (l ++ .word w :: r) (.atom (l ++ .word w :: r)) := by
  apply ReadsAs.of_succ
  intro fuel rest hfuel hrest
  have hread := readComparison_of_operands hl hr hw (hrest.head_ne (t := .opening) (by simp))
  apply readFormula_of_negated _ hrest
  rw [List.append_assoc, List.cons_append] at hread ⊢
  rw [hl.readNegated, hl.readPrimary, hread]

theorem infix_phrase {left right w : String} (hl : IsOperandText left)
    (hr : IsOperandText right) (hw : isAmong comparisonWords w.toList = true) :
    ∃ e : Phrase, e.text = left ++ " " ++ w ++ " " ++ right ∧
      e.formula = .atom (tokens (left ++ " " ++ w ++ " " ++ right)) := by
  obtain ⟨ts, hts, hleft⟩ := hl
  obtain ⟨us, hus, hright⟩ := hr
  have hspelled : Spells (left ++ " " ++ w ++ " " ++ right).toList
      (ts ++ .word w.toList :: us) := by
    have hall := hts.spaced ((comparison_word hw).spaced hus)
    simpa using hall
  refine ⟨⟨_, _, _, hspelled, comparison_read hleft hright hw⟩, rfl, ?_⟩
  rw [hspelled.tokens_eq]

theorem call_phrase {name left right : String} (hname : IsName name) (hl : IsOperandText left)
    (hr : IsOperandText right) :
    ∃ e : Phrase, e.text = name ++ "(" ++ left ++ "," ++ right ++ ") eq true" ∧
      e.formula = .atom (tokens (name ++ "(" ++ left ++ "," ++ right ++ ") eq true")) := by
  have hargs : ∀ a ∈ [left, right], IsOperandText a := by simp [hl, hr]
  have hcall : IsOperandText (name ++ "(" ++ left ++ "," ++ right ++ ")") := by
    have hall := call_operand hname hargs
    simpa [String.intercalate_cons_cons, String.append_assoc] using hall
  have hsame : name ++ "(" ++ left ++ "," ++ right ++ ")" ++ " " ++ "eq" ++ " " ++ "true" =
      name ++ "(" ++ left ++ "," ++ right ++ ") eq true" := by
    simp [String.append_assoc]
  rw [← hsame]
  exact infix_phrase hcall IsTerm.truth.operand (by decide)

theorem function_name {op : BinaryOperator} (h : op.isFunction = true) :
    IsName (odataWord op.key) := by
  cases op with
  | startsWith => exact ⟨by decide, by decide +kernel, by decide⟩
  | endsWith => exact ⟨by decide, by decide +kernel, by decide⟩
  | contains => exact ⟨by decide, by decide +kernel, by decide⟩
  | _ => cases h

theorem infix_word {op : BinaryOperator} (h : op.isFunction = false) (hop : op ≠ .isIn) :
    isAmong comparisonWords (odataWord op.key).toList = true := by
  cases op with
  | startsWith => cases h
  | endsWith => cases h
  | contains => cases h
  | isIn => exact absurd rfl hop
  | _ => decide

theorem comparison_phrase {op : BinaryOperator} (hop : op ≠ .isIn) {left right : String}
    (hl : IsOperandText left) (hr : IsOperandText right) :
    ∃ e : Phrase, e.text = comparison op left right ∧
      e.formula = comparisonAtom op left right := by
  unfold comparisonAtom comparison
  dsimp only
  split
  · rename_i hfunction
    split
    · exact call_phrase (function_name hfunction) hr hl
    · exact call_phrase (function_name hfunction) hl hr
  · rename_i hfunction
    exact infix_phrase hl hr (infix_word (by simpa using hfunction) hop)

theorem membership_phrase {left v : String} {vs : List String} {values : Fragment}
    (hl : IsOperandText left) (hvalues : values.texts = v :: vs)
    (hv : ∀ t ∈ values.texts, IsOperandText t) :
    ∃ e : Phrase, e.text = membership left values ∧
      e.formula = Formula.chain .or (comparisonAtom .equals left v)
        (vs.map (comparisonAtom .equals left)) := by
  have hequality : ∀ t, IsOperandText t → ∃ e : Phrase,
      e.text = comparison .equals left t ∧ e.formula = comparisonAtom .equals left t :=
    fun t ht => comparison_phrase (by decide) hl ht
  have hall : ∀ ts : List String, (∀ t ∈ ts, IsOperandText t) → ∃ es : List Phrase,
      es.map Phrase.group = ts.map (fun t => "(" ++ left ++ " eq " ++ t ++ ")") ∧
        es.map Phrase.formula = ts.map (comparisonAtom .equals left) := by
    intro ts
    induction ts with
    | nil => exact fun _ => ⟨[], rfl, rfl⟩
    | cons t ts ih =>
      intro h
      obtain ⟨e, htext, hformula⟩ := hequality t (h t List.mem_cons_self)
      obtain ⟨es, htexts, hformulas⟩ := ih fun u hu => h u (List.mem_cons_of_mem _ hu)
      refine ⟨e :: es, ?_, ?_⟩
      · rw [List.map_cons, htexts, Phrase.group, htext]
        simp [comparison, odataWord, BinaryOperator.key, BinaryOperator.isFunction,
          String.append_assoc]
      · rw [List.map_cons, List.map_cons, hformula, hformulas]
  rw [hvalues] at hv
  obtain ⟨_ | ⟨e, es⟩, htexts, hformulas⟩ := hall (v :: vs) hv
  · cases htexts
  · refine ⟨Phrase.joined .or e es, ?_, ?_⟩
    · show " or ".intercalate ((e :: es).map Phrase.group) = _
      rw [htexts, ← hvalues]
      cases values <;> rfl
    · rw [List.map_cons, List.map_cons] at hformulas
      obtain ⟨hfirst, hrest⟩ := List.cons.inj hformulas
      show Formula.chain .or e.formula (es.map Phrase.formula) = _
      rw [hfirst, hrest]

end EntityCache.OData
