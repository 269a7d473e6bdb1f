import EntityCache.Proofs.ExpressionReading

/-! Expressions printed and read back. The printed form has every quote inside a text doubled,
and white space may stand in front of each of its lexemes and behind the last one. -/
namespace EntityCache.Expr

section Printing

mutual
/-- The pieces of the printed form that white space cannot divide. -/
def lexemes : Expr → List (List Char)
  | literal (.text s) _ => ['\x27' :: doubled '\x27' s.toList ++ ['\x27']]
  | literal v _ => [v.display.toList]
  | property path => [path.toList]
  | call name args => name.toList :: ['('] :: (argumentLexemes args ++ [[')']])

def argumentLexemes : List Expr → List (List Char)
  | [] => []
  | [e] => lexemes e
  | e :: f :: rest => lexemes e ++ [','] :: argumentLexemes (f :: rest)
end

inductive Spaced : List (List Char) → List Char → Prop where
  | nil : Spaced [] []
  | cons {gap cs : List Char} {pieces : List (List Char)} (hgap : IsGap gap)
      (piece : List Char) (hrest : Spaced pieces cs) :
      Spaced (piece :: pieces) (gap ++ piece ++ cs)

/-- Calls of named functions, paths, and the literals that are no doubles or values of a type. -/
inductive Printable : Expr → Prop where
  | text (s : String) : Printable (literal (.text s) none)
  | integer (i : Int64) : Printable (literal (.integer i) none)
  | boolean (b : Bool) : Printable (literal (.boolean b) none)
  | null : Printable (literal .null none)
  | property {path : String} (hname : IsIdentifier path.toList)
      (hfree : path ∉ keywords.map Prod.fst) : Printable (property path)
  | call {name : String} {args : List Expr} (hname : IsIdentifier name.toList)
      (hargs : ∀ arg ∈ args, Printable arg) : Printable (call name args)

mutual
def escaped : Expr → Expr
  | literal (.text s) type => literal (.text (String.ofList (doubled '\x27' s.toList))) type
  | literal v type => literal v type
  | property path => property path
  | call name args => call name (escapedArgs args)

def escapedArgs : List Expr → List Expr
  | [] => []
  | e :: rest => escaped e :: escapedArgs rest
end

end Printing

section Spacing

variable {pieces : List (List Char)} {cs : List Char}

theorem Spaced.append {more : List (List Char)} {ds : List Char} (h : Spaced pieces cs)
    (hmore : Spaced more ds) : Spaced (pieces ++ more) (cs ++ ds) := by
  induction h with
  | nil => exact hmore
  | cons hgap piece _ ih => simpa using Spaced.cons hgap piece ih

theorem spaced_append {more : List (List Char)} (h : Spaced (pieces ++ more) cs) :
    ∃ before behind, cs = before ++ behind ∧ Spaced pieces before ∧ Spaced more behind := by
  induction pieces generalizing cs with
  | nil => exact ⟨[], cs, rfl, .nil, h⟩
  | cons piece pieces ih =>
    cases h with
    | cons hgap _ hrest =>
      obtain ⟨before, behind, rfl, hbefore, hbehind⟩ := ih hrest
      exact ⟨_, behind, by simp, .cons hgap piece hbefore, hbehind⟩

theorem spaced_cons {piece : List Char} (h : Spaced (piece :: pieces) cs) :
    ∃ gap rest, cs = gap ++ piece ++ rest ∧ IsGap gap ∧ Spaced pieces rest := by
  cases h with
  | cons hgap _ hrest => exact ⟨_, _, rfl, hgap, hrest⟩

theorem spaced_single {piece : List Char} (h : Spaced [piece] cs) :
    ∃ gap, cs = gap ++ piece ∧ IsGap gap := by
  obtain ⟨gap, rest, rfl, hgap, hrest⟩ := spaced_cons h
  cases hrest
  exact ⟨gap, by simp, hgap⟩

theorem Spaced.single (piece : List Char) : Spaced [piece] piece := by
  simpa using Spaced.cons isGap_nil piece .nil

end Spacing

section Derivations

variable {cs : List Char}

theorem isNumeral_repr (z : Int) : IsNumeral z.repr.toList := by
  have hdigits : ∀ n, (Nat.toDigits 10 n).all isNumberPart = true := by
    intro n
    refine List.all_eq_true.mpr fun c hc => ?_
    simp [isNumberPart, Binary64.isDigit_of_mem_toDigits hc]
  cases z with
  | ofNat n =>
    rw [Int.repr, Nat.toList_repr]
    obtain ⟨c, ds, hds⟩ := List.exists_cons_of_ne_nil (Nat.toDigits_ne_nil (n := n) (b := 10))
    have hall := hdigits n
    have hfirst : c.isDigit = true :=
      Binary64.isDigit_of_mem_toDigits (hds ▸ List.mem_cons_self)
    rw [hds, List.all_cons, Bool.and_eq_true] at hall
    rw [hds]
    exact ⟨Or.inl hfirst, hall.2⟩
  | negSucc n =>
    rw [Int.repr, String.toList_append, Nat.toList_repr]
    exact ⟨Or.inr rfl, hdigits (n + 1)⟩

theorem Derives.of_spaced {piece : List Char} {e : Expr} (hpiece : Derives piece e)
    (h : Spaced [piece] cs) : Derives cs e := by
  obtain ⟨gap, rfl, hgap⟩ := spaced_single h
  simpa using Derives.spaced hgap hpiece isGap_nil

/-- A text in which white space stands before the arguments' lexemes and at the end. -/
theorem derives_arguments {args : List Expr} {gap : List Char} (hne : args ≠ [])
    (hargs : ∀ arg ∈ args, ∀ cs, Spaced arg.lexemes cs → Derives cs arg) (hgap : IsGap gap)
    (h : Spaced (argumentLexemes args) cs) :
    ∃ parts : List (List Char × Expr), parts.map Prod.snd = args ∧
      (∀ part ∈ parts, Derives part.1 part.2) ∧
      cs ++ gap = commaSeparated (parts.map Prod.fst) := by
  induction args generalizing cs with
  | nil => exact absurd rfl hne
  | cons e rest ih =>
    cases rest with
    | nil =>
      have he : Derives (cs ++ gap) e := (hargs e List.mem_cons_self cs h).after hgap
      exact ⟨[(cs ++ gap, e)], rfl, by simpa using he, by simp [commaSeparated]⟩
    | cons f rest =>
      obtain ⟨before, behind, rfl, hbefore, hbehind⟩ := spaced_append h
      obtain ⟨gap', following, rfl, hgap', hfollowing⟩ := spaced_cons hbehind
      have he : Derives (before ++ gap') e :=
        (hargs e List.mem_cons_self before hbefore).after hgap'
      obtain ⟨parts, hparts, hderives, htext⟩ := ih (List.cons_ne_nil _ _)
        (fun arg harg => hargs arg (List.mem_cons_of_mem _ harg)) hfollowing
      have hsome : parts.map Prod.fst ≠ [] := by
        rintro hnone
        rw [List.map_eq_nil_iff] at hnone
        rw [hnone] at hparts
        cases hparts
      refine ⟨(before ++ gap', e) :: parts, by rw [List.map_cons, hparts], ?_, ?_⟩
      · intro part hpart
        rcases List.mem_cons.mp hpart with rfl | hpart
        · exact he
        · exact hderives part hpart
      · rw [List.map_cons, commaSeparated_cons _ hsome, ← htext]
        simp

theorem Printable.derives {e : Expr} (he : Printable e) (h : Spaced e.lexemes cs) :
    Derives cs e := by
  induction he generalizing cs with
  | text s =>
    have hpiece := Derives.string (Or.inl rfl : IsQuote '\x27') s.toList
    rw [String.ofList_toList] at hpiece
    exact hpiece.of_spaced h
  | integer i =>
    have hvalue : numberValue? i.toInt.repr.toList = some (.integer i) := by
      simp [numberValue?, Number.int64?_repr, Number.toInt64?_toInt]
    exact (Derives.number (isNumeral_repr i.toInt) hvalue).of_spaced h
  | boolean b =>
    cases b with
    | true =>
      have hword : ("true", Value.boolean true) ∈ keywords := by simp [keywords]
      exact (Derives.keyword hword).of_spaced h
    | false =>
      have hword : ("false", Value.boolean false) ∈ keywords := by simp [keywords]
      exact (Derives.keyword hword).of_spaced h
  | null =>
    have hword : ("null", Value.null) ∈ keywords := by simp [keywords]
    exact (Derives.keyword hword).of_spaced h
  | @property path hname hfree =>
    have hpiece := Derives.path hname (by rwa [String.ofList_toList])
    rw [String.ofList_toList] at hpiece
    exact hpiece.of_spaced h
  | @call name args hname _ ih =>
    obtain ⟨before, afterName, rfl, hbefore, hafterName⟩ := spaced_cons h
    obtain ⟨gap, inside, rfl, hgap, hinside⟩ := spaced_cons hafterName
    obtain ⟨texts, closing, rfl, htexts, hclosing⟩ := spaced_append hinside
    obtain ⟨last, rfl, hlast⟩ := spaced_single hclosing
    have hcall : Derives (name.toList ++ gap ++ '(' :: (texts ++ last) ++ [')'])
        (Expr.call name args) := by
      by_cases hargs : args = []
      · subst hargs
        cases htexts
        have hnil : ∀ arg ∈ ([] : List (List Char × Expr)), Derives arg.1 arg.2 := by simp
        have hnone := Derives.call hname hgap hlast hnil
        rw [String.ofList_toList] at hnone
        simpa [commaSeparated] using hnone
      · obtain ⟨parts, rfl, hparts, htext⟩ :=
          derives_arguments hargs (fun arg harg cs => @ih arg harg cs) hlast htexts
        have hsome := Derives.call hname hgap isGap_nil hparts
        rw [String.ofList_toList] at hsome
        rw [htext]
        simpa using hsome
    simpa using Derives.spaced hbefore hcall isGap_nil

end Derivations

section Display

theorem lexemes_ne_nil (e : Expr) : e.lexemes ≠ [] := by
  cases e with
  | literal v type => cases v <;> simp [lexemes]
  | property path => simp [lexemes]
  | call name args => simp [lexemes]

theorem Spaced.indent {pieces : List (List Char)} {cs : List Char} (hne : pieces ≠ [])
    (h : Spaced pieces cs) : Spaced pieces (' ' :: cs) := by
  cases h with
  | nil => exact absurd rfl hne
  | cons hgap piece hrest =>
    rename_i gap cs pieces
    have hindented : IsGap (' ' :: gap) := by
      rw [IsGap, List.all_cons, hgap]
      decide
    simpa using Spaced.cons hindented piece hrest

theorem argumentLexemes_ne_nil (e : Expr) (rest : List Expr) :
    argumentLexemes (e :: rest) ≠ [] := by
  cases rest <;> simp [argumentLexemes, lexemes_ne_nil]

mutual
/-- What is shown of an expression with its quotes doubled is its printed form, with one blank
behind every comma. -/
theorem spaced_display : (e : Expr) → Spaced e.lexemes e.escaped.display.toList
  | literal v type => by
    cases v with
    | text s => simpa [lexemes, escaped, display] using Spaced.single _
    | _ => exact Spaced.single _
  | property path => Spaced.single _
  | call name args => by
    have hopened := (Spaced.single name.toList).append (Spaced.single ['('])
    have hall := hopened.append ((spaced_displayArgs args).append (Spaced.single [')']))
    simpa [lexemes, escaped, display] using hall

theorem spaced_displayArgs : (args : List Expr) →
    Spaced (argumentLexemes args) (", ".intercalate (displayArgs (escapedArgs args))).toList
  | [] => .nil
  | [e] => by simpa [argumentLexemes, escapedArgs, displayArgs] using spaced_display e
  | e :: f :: rest => by
    have hmore := (spaced_displayArgs (f :: rest)).indent (argumentLexemes_ne_nil f rest)
    have hall := (spaced_display e).append ((Spaced.single [',']).append hmore)
    simpa [argumentLexemes, escapedArgs, displayArgs, String.intercalate_cons_cons] using hall
end

end Display

section Main

/-- The reader accepts exactly the grammar. In particular it reads back every printable
expression from its printed form. -/
theorem parse_exact :
    (∀ text e, parse text = .ok e ↔ Derives text.toList e) ∧
      ∀ e, Printable e → Spaced e.lexemes e.escaped.display.toList ∧
        ∀ cs gap, Spaced e.lexemes cs → IsGap gap →
          parse (String.ofList (cs ++ gap)) = .ok e := by
  refine ⟨parse_ok_iff, fun e he => ⟨spaced_display e, fun cs gap hcs hgap => ?_⟩⟩
  rw [parse_ok_iff, String.toList_ofList]
  exact (he.derives hcs).after hgap

def nestedCall : Expr :=
  call "concat" [property "ship.name", literal (.text "O'Neil, (Cork)") none,
    literal (.integer (-5)) none, call "null" [], literal .null none]

def nestedCallText : List Char :=
  " concat ( ship.name,'O''Neil, (Cork)' ,\t-5 , null ( ),null )".toList

theorem nestedCall_printable : Printable nestedCall := by
  refine .call (by decide) ?_
  simp only [List.forall_mem_cons, List.not_mem_nil, false_implies, implies_true, and_true]
  refine ⟨.property (by decide +kernel) (by decide), .text _, .integer _, ?_, .null⟩
  exact .call (by decide) (by simp)

theorem nestedCall_spaced : Spaced nestedCall.lexemes nestedCallText := by
  have hblank : IsGap [' '] := by decide
  have htab : IsGap ['\t'] := by decide
  exact .cons hblank _ <| .cons hblank _ <| .cons hblank _ <| .cons isGap_nil _ <|
    .cons isGap_nil _ <| .cons hblank _ <| .cons htab _ <| .cons hblank _ <| .cons hblank _ <|
    .cons hblank _ <| .cons hblank _ <| .cons isGap_nil _ <| .cons isGap_nil _ <|
    .cons hblank _ .nil

theorem nestedCall_read_back :
    Printable nestedCall ∧ Spaced nestedCall.lexemes nestedCallText ∧ IsGap [' ', '\n'] ∧
      parse (String.ofList (nestedCallText ++ [' ', '\n'])) = .ok nestedCall := by
  have hgap : IsGap [' ', '\n'] := by decide
  exact ⟨nestedCall_printable, nestedCall_spaced, hgap,
    (parse_exact.2 nestedCall nestedCall_printable).2 _ _ nestedCall_spaced hgap⟩

end Main

end EntityCache.Expr
