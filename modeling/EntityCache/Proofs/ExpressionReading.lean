import EntityCache.Proofs.ExpressionGrammar
import Mathlib

/-! Every text that the grammar derives is read, and as the expression that it is a text of. So
the reader accepts the grammar, neither more nor less, and an expression printed with its quotes
doubled is read back whatever the white space between its parts. -/
namespace EntityCache.Expr

section Characters

variable {c : Char} {cs rest : List Char}

def blankCodes : List Nat :=
  List.range' 9 5 ++ [0x20, 0x85, 0xA0, 0x1680] ++ List.range' 0x2000 11 ++
    [0x2028, 0x2029, 0x202F, 0x205F, 0x3000]

theorem toNat_of_isBlank (h : Text.isBlank c = true) : c.toNat ∈ blankCodes := by
  simp only [Text.isBlank, Bool.or_eq_true, Bool.and_eq_true, decide_eq_true_eq,
    beq_iff_eq] at h
  simp only [blankCodes, List.mem_append, List.mem_range'_1, List.mem_cons, List.not_mem_nil,
    or_false]
  omega

def marks : List Char := blankCodes.map Char.ofNat ++ [',', '(', ')', '\x27', '"', '-']

theorem not_isNamePart_of_mark (h : c ∈ marks) : isNamePart c = false := by
  have hmarks : marks.all (fun c => !isNamePart c) = true := by decide +kernel
  simpa using List.all_eq_true.mp hmarks c h

theorem not_isNamePart_of_isBlank (h : Text.isBlank c = true) : isNamePart c = false :=
  not_isNamePart_of_mark (List.mem_append_left _
    (List.mem_map.mpr ⟨c.toNat, toNat_of_isBlank h, Char.ofNat_toNat c⟩))

theorem not_isNumberPart_of_isBlank (h : Text.isBlank c = true) : isNumberPart c = false := by
  have hcodes : ∀ n ∈ blankCodes, isNumberPart (Char.ofNat n) = false := by decide
  simpa using hcodes c.toNat (toNat_of_isBlank h)

theorem not_startsName_of_isDigit (h : c.isDigit = true) : startsName c = false := by
  have hcodes : ∀ n ∈ List.range' 48 10, startsName (Char.ofNat n) = false := by decide +kernel
  have hrange : c.toNat ∈ List.range' 48 10 := by
    simp only [Char.isDigit, ge_iff_le, UInt32.le_iff_toNat_le, Char.toNat_val, Bool.and_eq_true,
      decide_eq_true_eq] at h
    rw [List.mem_range'_1]
    exact ⟨h.1, Nat.lt_succ_of_le h.2⟩
  simpa using hcodes c.toNat hrange

/-- An expression can end before the text: white space, and then a comma, a parenthesis that
closes, or nothing. -/
def Delimited (rest : List Char) : Prop :=
  ∀ c, (Text.skipBlank rest).head? = some c → c = ',' ∨ c = ')'

theorem Delimited.gap {gap : List Char} (hgap : IsGap gap) (h : Delimited rest) :
    Delimited (gap ++ rest) := by
  unfold Delimited
  rwa [skipBlank_gap hgap]

theorem Delimited.head (h : Delimited rest) (hc : rest.head? = some c) :
    Text.isBlank c = true ∨ c = ',' ∨ c = ')' := by
  obtain ⟨cs, rfl⟩ := List.head?_eq_some_iff.mp hc
  by_cases hblank : Text.isBlank c = true
  · exact Or.inl hblank
  · refine Or.inr (h c ?_)
    rw [Text.skipBlank, List.dropWhile_cons_of_neg hblank]
    rfl

theorem Delimited.not_isNamePart (h : Delimited rest) (hc : rest.head? = some c) :
    isNamePart c = false := by
  rcases h.head hc with hblank | rfl | rfl
  · exact not_isNamePart_of_isBlank hblank
  · exact not_isNamePart_of_mark (by simp [marks])
  · exact not_isNamePart_of_mark (by simp [marks])

theorem Delimited.not_isNumberPart (h : Delimited rest) (hc : rest.head? = some c) :
    isNumberPart c = false := by
  rcases h.head hc with hblank | rfl | rfl
  · exact not_isNumberPart_of_isBlank hblank
  · decide
  · decide

theorem Delimited.not_quote {quote : Char} (hquote : IsQuote quote) (h : Delimited rest) :
    rest.head? ≠ some quote := by
  intro hc
  rcases h.head hc with hblank | rfl | rfl
  · rcases hquote with rfl | rfl <;> exact absurd hblank (by decide)
  · exact absurd hquote (by simp [IsQuote])
  · exact absurd hquote (by simp [IsQuote])

end Characters

section Lexemes

variable {fuel : Nat} {quote : Char} {cs rest s : List Char}

/-- A string is read to its closing quote where no quote follows that one. -/
theorem stringTail_doubled (hrest : rest.head? ≠ some quote) (s : List Char) :
    stringTail quote (doubled quote s ++ quote :: rest) = .ok (s, rest) := by
  induction s with
  | nil =>
    cases rest with
    | nil => simp [doubled, stringTail]
    | cons d rest =>
      have hd : d ≠ quote := by simpa using hrest
      simp [doubled, stringTail, hd]
  | cons c s ih =>
    rw [doubled_cons]
    split
    · rename_i hc
      simp [stringTail, hc, ih, Except.map]
    · rename_i hc
      -- the reader looks one character ahead, so what follows must be seen to begin
      obtain ⟨d, more, hmore⟩ := List.exists_cons_of_ne_nil
        (l := doubled quote s ++ quote :: rest) (by simp)
      rw [hmore] at ih
      simp [hmore, stringTail, hc, ih, Except.map]

theorem readOne_gap {gap : List Char} {r : Expr × List Char} (hgap : IsGap gap)
    (h : readOne fuel cs = .ok r) : readOne fuel (gap ++ cs) = .ok r := by
  cases fuel with
  | zero => cases h
  | succ fuel =>
    rw [readOne] at h ⊢
    rwa [skipBlank_gap hgap]

theorem skipBlank_of_not_blank {c : Char} (h : Text.isBlank c = false) (cs : List Char) :
    Text.skipBlank (c :: cs) = c :: cs :=
  List.dropWhile_cons_of_neg (by simp [h])

theorem readOne_string (hquote : IsQuote quote) (hrest : Delimited rest) (s : List Char) :
    readOne (fuel + 1) (quote :: doubled quote s ++ quote :: rest) =
      .ok (literal (.text (String.ofList s)) none, rest) := by
  have hblank : Text.isBlank quote = false := by
    rcases hquote with rfl | rfl <;> decide
  have htail := stringTail_doubled (hrest.not_quote hquote) s
  rw [List.cons_append, readOne, skipBlank_of_not_blank hblank]
  simp only [if_pos hquote, htail]
  rfl

theorem readOne_number {v : Value} (hnumeral : IsNumeral cs) (hvalue : numberValue? cs = some v)
    (hrest : Delimited rest) : readOne (fuel + 1) (cs ++ rest) = .ok (literal v none, rest) := by
  cases cs with
  | nil => cases hnumeral
  | cons c ds =>
    obtain ⟨hc, hds⟩ := hnumeral
    have hblank : Text.isBlank c = false := by
      rcases hc with hdigit | rfl
      · exact Text.not_blank_of_isDigit hdigit
      · decide
    have hquote : ¬ IsQuote c := by
      rintro (rfl | rfl) <;> exact absurd hc (by decide)
    obtain ⟨htake, hdrop⟩ := Text.run_ends hds fun _ => hrest.not_isNumberPart
    rw [List.cons_append, readOne, skipBlank_of_not_blank hblank]
    simp only [if_neg hquote, if_pos hc, number, htake, hdrop]
    unfold numberValue? at hvalue
    cases hi : Number.int64? (c :: ds) with
    | some i =>
      rw [hi] at hvalue
      cases hvalue
      rfl
    | none =>
      rw [hi] at hvalue
      obtain ⟨x, hx, rfl⟩ := Option.map_eq_some_iff.mp hvalue
      rw [hx]

/-- What a name is read as depends on what follows the white space behind it. -/
theorem readOne_name {name : List Char} (hname : IsIdentifier name)
    (hrest : ∀ c, rest.head? = some c → isNamePart c = false) :
    readOne (fuel + 1) (name ++ rest) =
      match Text.skipBlank rest with
      | '(' :: inside =>
        match Text.skipBlank inside with
        | ')' :: rest => .ok (call (String.ofList name) [], rest)
        | inside =>
          (readArgs fuel inside).map fun (args, rest) => (call (String.ofList name) args, rest)
      | rest => .ok (ofName (String.ofList name), rest) := by
  cases name with
  | nil => cases hname
  | cons c cs =>
    obtain ⟨hc, hcs⟩ := hname
    have hpart := isNamePart_of_startsName hc
    have hblank : Text.isBlank c = false := by
      by_contra hblank
      rw [not_isNamePart_of_isBlank (by simpa using hblank)] at hpart
      cases hpart
    have hquote : ¬ IsQuote c := by
      rintro (rfl | rfl) <;>
        exact Bool.false_ne_true ((not_isNamePart_of_mark (by simp [marks])).symm.trans hpart)
    have hnumber : ¬ (c.isDigit = true ∨ c = '-') := by
      rintro (hdigit | rfl)
      · rw [not_startsName_of_isDigit hdigit] at hc
        cases hc
      · exact Bool.false_ne_true ((not_isNamePart_of_mark (by simp [marks])).symm.trans hpart)
    have hall : (c :: cs).all isNamePart = true := by
      rw [List.all_cons, hpart, hcs]
      rfl
    obtain ⟨htake, hdrop⟩ := Text.run_ends hall hrest
    have hread := readOne.eq_2 (c :: cs ++ rest) fuel
    rw [List.cons_append] at htake hdrop
    simp only [List.cons_append, skipBlank_of_not_blank hblank, if_neg hquote, if_neg hnumber,
      if_pos hc, htake, hdrop] at hread
    exact hread

theorem readOne_word {name : List Char} (hname : IsIdentifier name) (hrest : Delimited rest) :
    readOne (fuel + 1) (name ++ rest) =
      .ok (ofName (String.ofList name), Text.skipBlank rest) := by
  rw [readOne_name hname fun _ => hrest.not_isNamePart]
  split
  · rename_i inside hparen
    have hdelimited := hrest '(' (by rw [hparen]; rfl)
    exact absurd hdelimited (by decide)
  · rfl

theorem call_head {gap inside : List Char} (hgap : IsGap gap) {c : Char}
    (hc : (gap ++ '(' :: inside).head? = some c) : isNamePart c = false := by
  cases gap with
  | nil =>
    obtain rfl : '(' = c := by simpa using hc
    exact not_isNamePart_of_mark (by simp [marks])
  | cons d gap =>
    obtain rfl : d = c := by simpa using hc
    exact not_isNamePart_of_isBlank (List.all_eq_true.mp hgap d List.mem_cons_self)

theorem skipBlank_call {gap : List Char} (hgap : IsGap gap) (inside : List Char) :
    Text.skipBlank (gap ++ '(' :: inside) = '(' :: inside := by
  rw [skipBlank_gap hgap, skipBlank_of_not_blank (by decide)]

theorem readOne_empty_call {name gap inner : List Char} (hname : IsIdentifier name)
    (hgap : IsGap gap) (hinner : IsGap inner) :
    readOne (fuel + 1) (name ++ (gap ++ '(' :: (inner ++ ')' :: rest))) =
      .ok (call (String.ofList name) [], rest) := by
  rw [readOne_name hname fun _ => call_head hgap, skipBlank_call hgap]
  simp only [skipBlank_gap hinner, skipBlank_of_not_blank (c := ')') (by decide)]

theorem skipBlank_ne_closing {r : Expr × List Char} (h : readOne fuel cs = .ok r) :
    Text.skipBlank cs ≠ ')' :: rest := by
  have hstart : startsName ')' = false := by
    by_contra hstart
    have hpart := isNamePart_of_startsName (by simpa using hstart : startsName ')' = true)
    rw [not_isNamePart_of_mark (by simp [marks])] at hpart
    cases hpart
  intro hclosing
  cases fuel with
  | zero => cases h
  | succ fuel =>
    rw [readOne, hclosing] at h
    simp [hstart, stopAt] at h

theorem skipBlank_skipBlank (cs : List Char) :
    Text.skipBlank (Text.skipBlank cs) = Text.skipBlank cs := List.dropWhile_idempotent _ cs

theorem readOne_skipBlank {r : Expr × List Char} (h : readOne fuel cs = .ok r) :
    readOne fuel (Text.skipBlank cs) = .ok r := by
  cases fuel with
  | zero => cases h
  | succ fuel =>
    rw [readOne] at h ⊢
    rwa [skipBlank_skipBlank]

theorem readArgs_starts {r : List Expr × List Char} (h : readArgs fuel cs = .ok r) :
    readArgs fuel (Text.skipBlank cs) = .ok r ∧ ∀ rest, Text.skipBlank cs ≠ ')' :: rest := by
  cases fuel with
  | zero => cases h
  | succ fuel =>
    rw [readArgs] at h ⊢
    split at h
    · cases h
    · rename_i e behind he
      exact ⟨by rw [readOne_skipBlank he]; exact h, fun _ => skipBlank_ne_closing he⟩

theorem readOne_call {name gap inner inside : List Char} {args : List Expr}
    (hname : IsIdentifier name) (hgap : IsGap gap) (hinner : IsGap inner)
    (hargs : readArgs fuel inside = .ok (args, rest)) :
    readOne (fuel + 1) (name ++ (gap ++ '(' :: (inner ++ inside))) =
      .ok (call (String.ofList name) args, rest) := by
  obtain ⟨hread, hopen⟩ := readArgs_starts hargs
  rw [readOne_name hname fun _ => call_head hgap, skipBlank_call hgap]
  simp only [skipBlank_gap hinner]
  rw [hread]
  rfl

end Lexemes

section Completeness

variable {fuel : Nat} {cs rest : List Char} {e : Expr}

def ReadsBack (cs : List Char) (e : Expr) : Prop :=
  ∀ fuel rest, 2 * cs.length ≤ fuel → Delimited rest →
    ∃ after, readOne fuel (cs ++ rest) = .ok (e, after) ∧
      Text.skipBlank after = Text.skipBlank rest

theorem delimited_cons {c : Char} (h : c = ',' ∨ c = ')') (rest : List Char) :
    Delimited (c :: rest) := by
  have hblank : Text.isBlank c = false := by
    rcases h with rfl | rfl <;> decide
  intro d hd
  rw [skipBlank_of_not_blank hblank] at hd
  obtain rfl : c = d := by simpa using hd
  exact h

theorem readArgs_complete {args : List (List Char × Expr)} (hne : args ≠ [])
    (hargs : ∀ arg ∈ args, ReadsBack arg.1 arg.2)
    (hfuel : 2 * (commaSeparated (args.map Prod.fst)).length + 1 ≤ fuel) :
    readArgs fuel (commaSeparated (args.map Prod.fst) ++ ')' :: rest) =
      .ok (args.map Prod.snd, rest) := by
  induction args generalizing fuel with
  | nil => exact absurd rfl hne
  | cons arg args ih =>
    obtain ⟨fuel, rfl⟩ := Nat.exists_eq_succ_of_ne_zero (n := fuel) (by omega)
    have harg := hargs arg List.mem_cons_self
    by_cases hlast : args = []
    · subst hlast
      have hlength : 2 * arg.1.length ≤ fuel := by
        simpa [commaSeparated] using hfuel
      obtain ⟨after, hread, hafter⟩ := harg fuel _ hlength (delimited_cons (Or.inr rfl) rest)
      rw [skipBlank_of_not_blank (by decide)] at hafter
      simp [commaSeparated, readArgs, hread, hafter]
    · have htexts : args.map Prod.fst ≠ [] := by simpa using hlast
      rw [List.map_cons, commaSeparated_cons _ htexts] at hfuel ⊢
      simp only [List.length_append, List.length_cons] at hfuel
      obtain ⟨after, hread, hafter⟩ := harg fuel _ (by omega)
        (delimited_cons (Or.inl rfl) (commaSeparated (args.map Prod.fst) ++ ')' :: rest))
      rw [skipBlank_of_not_blank (by decide)] at hafter
      have hmore := @ih fuel hlast
        (fun other hother => hargs other (List.mem_cons_of_mem _ hother)) (by omega)
      simp [readArgs, hread, hafter, hmore, Except.map]

/-- No text is empty, so there is fuel for a first step. -/
theorem readsBack_of_step (hne : cs ≠ [])
    (h : ∀ fuel rest, 2 * cs.length ≤ fuel + 1 → Delimited rest →
      ∃ after, readOne (fuel + 1) (cs ++ rest) = .ok (e, after) ∧
        Text.skipBlank after = Text.skipBlank rest) : ReadsBack cs e := by
  intro fuel rest hfuel hrest
  have hpos : 0 < cs.length := List.length_pos_iff.mpr hne
  obtain ⟨fuel, rfl⟩ := Nat.exists_eq_succ_of_ne_zero (n := fuel) (by omega)
  exact h fuel rest hfuel hrest

theorem IsIdentifier.ne_nil {name : List Char} (h : IsIdentifier name) : name ≠ [] := by
  rintro rfl
  exact h

theorem readsBack_name {name : List Char} (h : IsIdentifier name) :
    ReadsBack name (ofName (String.ofList name)) :=
  readsBack_of_step h.ne_nil fun _ rest _ hrest =>
    ⟨Text.skipBlank rest, readOne_word h hrest, skipBlank_skipBlank rest⟩

theorem keyword_spec {word : String} {v : Value} (h : (word, v) ∈ keywords) :
    IsIdentifier word.toList ∧ ofName word = literal v none := by
  have hname : ∀ k ∈ keywords, IsIdentifier k.1.toList := by decide +kernel
  refine ⟨hname _ h, ?_⟩
  simp only [keywords, List.mem_cons, Prod.mk.injEq, List.not_mem_nil, or_false] at h
  rcases h with ⟨rfl, rfl⟩ | ⟨rfl, rfl⟩ | ⟨rfl, rfl⟩
  · simp [ofName]
  · simp [ofName]
  · simp [ofName]

theorem ofName_of_free {name : String} (h : name ∉ keywords.map Prod.fst) :
    ofName name = property name := by
  simp only [keywords, List.map_cons, List.map_nil, List.mem_cons, List.not_mem_nil, or_false,
    not_or] at h
  simp [ofName, h]

theorem Derives.readsBack (h : Derives cs e) : ReadsBack cs e := by
  induction h with
  | @spaced before after cs e hbefore _ hafter ih =>
    intro fuel rest hfuel hrest
    have hlength : 2 * cs.length ≤ fuel := by
      simp only [List.length_append] at hfuel
      omega
    obtain ⟨following, hread, hfollowing⟩ := ih fuel _ hlength (hrest.gap hafter)
    refine ⟨following, ?_, hfollowing.trans (skipBlank_gap hafter rest)⟩
    rw [List.append_assoc, List.append_assoc]
    exact readOne_gap hbefore hread
  | @string quote hquote s =>
    refine readsBack_of_step (List.cons_ne_nil _ _) fun fuel rest _ hrest => ⟨rest, ?_, rfl⟩
    have hread : readOne (fuel + 1) (quote :: doubled quote s ++ quote :: rest) =
        .ok (literal (.text (String.ofList s)) none, rest) := readOne_string hquote hrest s
    simpa using hread
  | @number cs v hnumeral hvalue =>
    have hne : cs ≠ [] := by
      rintro rfl
      exact hnumeral
    exact readsBack_of_step hne fun fuel rest _ hrest =>
      ⟨rest, readOne_number hnumeral hvalue hrest, rfl⟩
  | @keyword word v hword =>
    obtain ⟨hname, hvalue⟩ := keyword_spec hword
    have hread := readsBack_name hname
    rwa [String.ofList_toList, hvalue] at hread
  | @path name hname hfree =>
    have hread := readsBack_name hname
    rwa [ofName_of_free hfree] at hread
  | @call name gap inner args hname hgap hinner _ ih =>
    refine readsBack_of_step (by simp) fun fuel rest hfuel hrest => ⟨rest, ?_, rfl⟩
    by_cases hargs : args = []
    · subst hargs
      have hread : readOne (fuel + 1) (name ++ (gap ++ '(' :: (inner ++ ')' :: rest))) =
          .ok (Expr.call (String.ofList name) [], rest) := readOne_empty_call hname hgap hinner
      simpa [commaSeparated] using hread
    · have hlength : 2 * (commaSeparated (args.map Prod.fst)).length + 1 ≤ fuel := by
        simp only [List.length_append, List.length_cons] at hfuel
        omega
      have hinside : readArgs fuel (commaSeparated (args.map Prod.fst) ++ ')' :: rest) =
          .ok (args.map Prod.snd, rest) := readArgs_complete hargs ih hlength
      simpa using readOne_call hname hgap hinner hinside

theorem readAll_of_derives (h : Derives cs e) : readAll cs = .ok e := by
  have hnothing : Text.skipBlank [] = [] := rfl
  have hend : Delimited [] := by simp [Delimited, hnothing]
  obtain ⟨after, hread, hafter⟩ := h.readsBack (2 * cs.length + 2) [] (by omega) hend
  rw [List.append_nil] at hread
  simp [readAll, hread, hafter, hnothing]

/-- The reader accepts what the grammar derives, and nothing else. -/
theorem parse_ok_iff (text : String) (e : Expr) : parse text = .ok e ↔ Derives text.toList e := by
  unfold parse
  constructor
  · intro h
    split at h
    · rename_i read hread
      cases h
      exact derives_of_readAll hread
    · cases h
  · intro h
    rw [readAll_of_derives h]

end Completeness

end EntityCache.Expr
