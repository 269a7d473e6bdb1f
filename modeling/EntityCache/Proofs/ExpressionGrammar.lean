import EntityCache.Filter.ExprReader
import EntityCache.Proofs.Outcomes
import EntityCache.Proofs.ReadingBack

/-! The grammar of expressions, and that whatever is read was written by it: a string between
quotes with the same quote doubled inside, a number, a keyword, a path, or a call with
expressions between commas. White space may stand around every expression, and between a name
and its parenthesis. -/
namespace EntityCache.Expr

section Grammar

def IsGap (cs : List Char) : Prop := cs.all Text.isBlank = true

instance (cs : List Char) : Decidable (IsGap cs) :=
  inferInstanceAs (Decidable (_ = true))

/-- The body of a string, in which the quote that encloses it is written twice. -/
def doubled (quote : Char) (s : List Char) : List Char :=
  s.flatMap fun c => if c = quote then [c, c] else [c]

abbrev IsQuote (c : Char) : Prop := c = '\x27' ∨ c = '"'

def IsIdentifier : List Char → Prop
  | [] => False
  | c :: cs => startsName c = true ∧ cs.all isNamePart = true

instance : (cs : List Char) → Decidable (IsIdentifier cs)
  | [] => inferInstanceAs (Decidable False)
  | _ :: _ => inferInstanceAs (Decidable (_ ∧ _))

def IsNumeral : List Char → Prop
  | [] => False
  | c :: cs => (c.isDigit ∨ c = '-') ∧ cs.all isNumberPart = true

def numberValue? (cs : List Char) : Option Value :=
  match Number.int64? cs with
  | some i => some (.integer i)
  | none => (Number.double? cs).map .float

/-- The names that stand for a literal when no argument list follows them. -/
def keywords : List (String × Value) :=
  [("true", .boolean true), ("false", .boolean false), ("null", .null)]

def commaSeparated (texts : List (List Char)) : List Char := [','].intercalate texts

inductive Derives : List Char → Expr → Prop where
  | spaced {before after cs : List Char} {e : Expr} (hbefore : IsGap before)
      (hcore : Derives cs e) (hafter : IsGap after) : Derives (before ++ cs ++ after) e
  | string {quote : Char} (hquote : IsQuote quote) (s : List Char) :
      Derives (quote :: doubled quote s ++ [quote]) (literal (.text (String.ofList s)) none)
  | number {cs : List Char} {v : Value} (hnumeral : IsNumeral cs)
      (hvalue : numberValue? cs = some v) : Derives cs (literal v none)
  | keyword {word : String} {v : Value} (hword : (word, v) ∈ keywords) :
      Derives word.toList (literal v none)
  | path {name : List Char} (hname : IsIdentifier name)
      (hfree : String.ofList name ∉ keywords.map Prod.fst) :
      Derives name (property (String.ofList name))
  | call {name gap inner : List Char} {args : List (List Char × Expr)}
      (hname : IsIdentifier name) (hgap : IsGap gap) (hinner : IsGap inner)
      (hargs : ∀ arg ∈ args, Derives arg.1 arg.2) :
      Derives (name ++ gap ++ '(' :: inner ++ commaSeparated (args.map Prod.fst) ++ [')'])
        (call (String.ofList name) (args.map Prod.snd))

end Grammar

section Gaps

theorem skipBlank_gap {gap : List Char} (h : IsGap gap) (cs : List Char) :
    Text.skipBlank (gap ++ cs) = Text.skipBlank cs :=
  List.dropWhile_append_of_pos (List.all_eq_true.mp h)

theorem exists_gap (cs : List Char) : ∃ gap, IsGap gap ∧ cs = gap ++ Text.skipBlank cs :=
  ⟨cs.takeWhile Text.isBlank, List.all_takeWhile,
    List.takeWhile_append_dropWhile.symm⟩

theorem isGap_nil : IsGap [] := rfl

theorem Derives.after {cs gap : List Char} {e : Expr} (h : Derives cs e) (hgap : IsGap gap) :
    Derives (cs ++ gap) e := by
  simpa using Derives.spaced isGap_nil h hgap

theorem commaSeparated_cons (text : List Char) {texts : List (List Char)} (h : texts ≠ []) :
    commaSeparated (text :: texts) = text ++ ',' :: commaSeparated texts := by
  obtain ⟨next, rest, rfl⟩ := List.exists_cons_of_ne_nil h
  simp [commaSeparated, List.intercalate_cons_cons]

end Gaps

section Lexemes

variable {quote : Char} {cs rest s : List Char}

theorem doubled_cons (quote c : Char) (s : List Char) :
    doubled quote (c :: s) = (if c = quote then [c, c] else [c]) ++ doubled quote s := rfl

theorem stringTail_sound (h : stringTail quote cs = .ok (s, rest)) :
    cs = doubled quote s ++ quote :: rest := by
  fun_induction stringTail quote cs generalizing s with
  | case1 => cases h
  | case2 =>
    cases h
    rfl
  | case3 => cases h
  | case4 cs ih =>
    obtain ⟨⟨t, following⟩, ht, heq⟩ := map_ok h
    cases heq
    simp [doubled_cons, ← ih ht]
  | case5 =>
    cases h
    rfl
  | case6 c d cs hc ih =>
    obtain ⟨⟨t, following⟩, ht, heq⟩ := map_ok h
    cases heq
    simp [doubled_cons, hc, ← ih ht]

theorem number_sound {c : Char} {e : Expr} (hc : c.isDigit ∨ c = '-')
    (h : number c cs = .ok (e, rest)) :
    ∃ ds v, cs = ds ++ rest ∧ IsNumeral (c :: ds) ∧ numberValue? (c :: ds) = some v ∧
      e = literal v none := by
  have hsplit : cs = cs.takeWhile isNumberPart ++ cs.dropWhile isNumberPart :=
    List.takeWhile_append_dropWhile.symm
  have hnumeral : IsNumeral (c :: cs.takeWhile isNumberPart) :=
    ⟨hc, List.all_takeWhile⟩
  unfold number at h
  dsimp only at h
  split at h
  · rename_i i hi
    cases h
    exact ⟨_, .integer i, hsplit, hnumeral, by simp [numberValue?, hi], rfl⟩
  · rename_i hi
    split at h
    · rename_i x hx
      cases h
      exact ⟨_, .float x, hsplit, hnumeral, by simp [numberValue?, hi, hx], rfl⟩
    · cases h

theorem isNamePart_of_startsName {c : Char} (h : startsName c = true) : isNamePart c = true := by
  simp only [startsName, isNamePart, Text.isLetterOrNumber, Bool.or_eq_true] at h ⊢
  tauto

/-- A name that begins here, up to where it ends. -/
theorem exists_name {c : Char} (h : startsName c = true) (cs : List Char) :
    IsIdentifier ((c :: cs).takeWhile isNamePart) ∧
      c :: cs = (c :: cs).takeWhile isNamePart ++ (c :: cs).dropWhile isNamePart := by
  refine ⟨?_, List.takeWhile_append_dropWhile.symm⟩
  rw [List.takeWhile_cons_of_pos (isNamePart_of_startsName h)]
  exact ⟨h, List.all_takeWhile⟩

theorem ofName_derives {name : List Char} (h : IsIdentifier name) :
    Derives name (ofName (String.ofList name)) := by
  have hkeyword : ∀ word v, (word, v) ∈ keywords → String.ofList name = word →
      Derives name (literal v none) := by
    rintro word v hword rfl
    simpa using Derives.keyword hword
  unfold ofName
  split
  · exact hkeyword "true" (.boolean true) (by simp [keywords]) ‹_›
  · split
    · exact hkeyword "false" (.boolean false) (by simp [keywords]) ‹_›
    · split
      · exact hkeyword "null" .null (by simp [keywords]) ‹_›
      · exact .path h (by simp_all [keywords])

end Lexemes

section Soundness

variable {fuel : Nat} {cs rest : List Char}

/-- What a reader of one expression takes from the text is a text of the expression. -/
def SoundOne (read : List Char → Reading Expr) : Prop :=
  ∀ {cs e rest}, read cs = .ok (e, rest) → ∃ used, cs = used ++ rest ∧ Derives used e

/-- A reader of arguments takes texts of them with commas between, and the parenthesis. -/
def SoundArgs (read : List Char → Reading (List Expr)) : Prop :=
  ∀ {cs es rest}, read cs = .ok (es, rest) → ∃ args : List (List Char × Expr),
    args.map Prod.snd = es ∧ args ≠ [] ∧ (∀ arg ∈ args, Derives arg.1 arg.2) ∧
      cs = commaSeparated (args.map Prod.fst) ++ ')' :: rest

theorem readOne_sound_succ (hargs : SoundArgs (readArgs fuel)) : SoundOne (readOne (fuel + 1)) := by
  intro cs e rest h
  obtain ⟨before, hbefore, hcs⟩ := exists_gap cs
  -- it is enough to find the text behind the white space
  suffices hcore : ∃ used, Text.skipBlank cs = used ++ rest ∧ Derives used e by
    obtain ⟨used, hused, hderives⟩ := hcore
    refine ⟨before ++ used, ?_, by simpa using Derives.spaced hbefore hderives isGap_nil⟩
    rw [List.append_assoc, ← hused]
    exact hcs
  rw [readOne] at h
  generalize Text.skipBlank cs = text at h ⊢
  cases text with
  | nil => cases h
  | cons c cs =>
    dsimp only at h
    split at h
    · rename_i hquote
      obtain ⟨⟨s, following⟩, hs, heq⟩ := map_ok h
      cases heq
      exact ⟨c :: doubled c s ++ [c], by simp [stringTail_sound hs], .string hquote s⟩
    · split at h
      · rename_i hc
        obtain ⟨ds, v, rfl, hnumeral, hvalue, rfl⟩ := number_sound hc h
        exact ⟨c :: ds, rfl, .number hnumeral hvalue⟩
      · split at h
        · rename_i hc
          obtain ⟨hname, hsplit⟩ := exists_name hc cs
          generalize (c :: cs).takeWhile isNamePart = name at *
          generalize (c :: cs).dropWhile isNamePart = behind at *
          obtain ⟨gap, hgap, hbehind⟩ := exists_gap behind
          rw [hsplit]
          split at h
          · rename_i inside hparen
            obtain ⟨inner, hinner, hinside⟩ := exists_gap inside
            split at h
            · rename_i hclosed
              cases h
              rw [hparen] at hbehind
              rw [hclosed] at hinside
              refine ⟨_, ?_, .call hname hgap hinner fun arg harg => absurd harg List.not_mem_nil⟩
              simp [hbehind, hinside, commaSeparated]
            · obtain ⟨⟨es, following⟩, hes, heq⟩ := map_ok h
              cases heq
              obtain ⟨args, rfl, -, hderives, htext⟩ := hargs hes
              rw [hparen] at hbehind
              rw [htext] at hinside
              refine ⟨_, ?_, .call hname hgap hinner hderives⟩
              simp [hbehind, hinside]
          · cases h
            exact ⟨name ++ gap, by simp [← hbehind], (ofName_derives hname).after hgap⟩
        · cases h

theorem readArgs_sound_succ (hone : SoundOne (readOne fuel)) (hargs : SoundArgs (readArgs fuel)) :
    SoundArgs (readArgs (fuel + 1)) := by
  intro cs es rest h
  rw [readArgs] at h
  split at h
  · cases h
  · rename_i e behind he
    obtain ⟨used, rfl, hderives⟩ := hone he
    obtain ⟨gap, hgap, hbehind⟩ := exists_gap behind
    have hspaced : Derives (used ++ gap) e := hderives.after hgap
    split at h
    · rename_i following hcomma
      obtain ⟨⟨more, _⟩, hmore, heq⟩ := map_ok h
      cases heq
      obtain ⟨args, rfl, hne, hall, rfl⟩ := hargs hmore
      rw [hcomma] at hbehind
      refine ⟨(used ++ gap, e) :: args, rfl, List.cons_ne_nil _ _, ?_, ?_⟩
      · intro arg harg
        rcases List.mem_cons.mp harg with rfl | harg
        · exact hspaced
        · exact hall arg harg
      · rw [List.map_cons, commaSeparated_cons _ (by simpa using hne), hbehind]
        simp
    · rename_i hclosed
      cases h
      rw [hclosed] at hbehind
      refine ⟨[(used ++ gap, e)], rfl, List.cons_ne_nil _ _, by simpa using hspaced, ?_⟩
      simp [hbehind, commaSeparated]
    · cases h

theorem reads_sound (fuel : Nat) : SoundOne (readOne fuel) ∧ SoundArgs (readArgs fuel) := by
  induction fuel with
  | zero =>
    constructor
    · intro cs e rest h
      cases h
    · intro cs es rest h
      cases h
  | succ fuel ih => exact ⟨readOne_sound_succ ih.2, readArgs_sound_succ ih.1 ih.2⟩

theorem derives_of_readAll {e : Expr} (h : readAll cs = .ok e) : Derives cs e := by
  unfold readAll at h
  split at h
  · cases h
  · rename_i behind he
    obtain ⟨used, rfl, hderives⟩ := (reads_sound _).1 he
    obtain ⟨gap, hgap, hbehind⟩ := exists_gap behind
    split at h
    · rename_i hend
      cases h
      rw [hbehind, hend, List.append_nil]
      exact hderives.after hgap
    · cases h

end Soundness

end EntityCache.Expr
