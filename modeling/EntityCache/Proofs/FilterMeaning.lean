import EntityCache.Proofs.FilterPhrases
import Mathlib.Data.List.Forall2

/-! What a predicate says as a formula over comparisons, and that its text is read back as
exactly that formula. Formulas with the same value under every assignment are equivalent;
how a chain of junctions is grouped makes no difference to that. -/
namespace EntityCache.OData

namespace Formula

theorem value_chain (m : QuantifierMeaning) (op : BooleanOperator) (f : Formula)
    (fs : List Formula) (v : Atom → Bool) :
    (chain op f fs).value m v = match op with
      | .and => (f :: fs).all fun g => g.value m v
      | .or => (f :: fs).any fun g => g.value m v := by
  induction fs generalizing f with
  | nil => cases op <;> simp [chain]
  | cons g rest ih => cases op <;> simp [chain, value, ih g]

namespace Equivalent

theorem refl (f : Formula) : f.Equivalent f := by
  intro m
  rfl

theorem symm {f g : Formula} (h : f.Equivalent g) : g.Equivalent f := by
  intro m
  exact (h m).symm

theorem trans {f g k : Formula} (h : f.Equivalent g) (h' : g.Equivalent k) : f.Equivalent k := by
  intro m
  exact (h m).trans (h' m)

theorem not {f g : Formula} (h : f.Equivalent g) :
    (Formula.not f).Equivalent (Formula.not g) := by
  intro m
  funext v
  change (!f.value m v) = !g.value m v
  rw [h m]

theorem not_not (f : Formula) : (Formula.not (Formula.not f)).Equivalent f := by
  intro m
  funext v
  exact Bool.not_not (f.value m v)

theorem junction (op : BooleanOperator) {f f' g g' : Formula} (hf : f.Equivalent f')
    (hg : g.Equivalent g') :
    (Formula.junction op f g).Equivalent (Formula.junction op f' g') := by
  intro m
  funext v
  cases op with
  | and =>
    change (f.value m v && g.value m v) = (f'.value m v && g'.value m v)
    rw [hf m, hg m]
  | or =>
    change (f.value m v || g.value m v) = (f'.value m v || g'.value m v)
    rw [hf m, hg m]

theorem quantified (op : Quantifier) (path bound : List Char) {f g : Formula}
    (h : f.Equivalent g) :
    (Formula.quantified op path bound f).Equivalent (Formula.quantified op path bound g) := by
  intro m
  funext v
  change m op path bound (f.value m) = m op path bound (g.value m)
  rw [h m]

theorem chain (op : BooleanOperator) {f g : Formula} {fs gs : List Formula}
    (h : f.Equivalent g) (hs : List.Forall₂ Equivalent fs gs) :
    (Formula.chain op f fs).Equivalent (Formula.chain op g gs) := by
  induction hs generalizing f g with
  | nil => exact h
  | cons hhead _ ih => exact junction op h (ih hhead)

theorem chain_append (op : BooleanOperator) (f : Formula) (fs : List Formula) (g : Formula) :
    (Formula.chain op f (fs ++ [g])).Equivalent
      (Formula.junction op (Formula.chain op f fs) g) := by
  intro m
  funext v
  cases op <;> simp [value, value_chain, Bool.and_assoc, Bool.or_assoc]

/-- The first two members of a chain may be joined beforehand. -/
theorem chain_cons (op : BooleanOperator) (f g : Formula) (fs : List Formula) :
    (Formula.chain op (Formula.junction op f g) fs).Equivalent
      (Formula.chain op f (g :: fs)) := by
  intro m
  funext v
  cases op <;> simp [value, value_chain, Bool.and_assoc, Bool.or_assoc]

end Equivalent

def ofParts (op : BooleanOperator) : Option (List Formula) → Option Formula
  | some (f :: fs) => some (chain op f fs)
  | _ => none

def membership (left : String) : List String → Option Formula
  | [] => none
  | v :: vs => some (chain .or (comparisonAtom .equals left v)
      (vs.map (comparisonAtom .equals left)))

def compared (s : Scope) (op : BinaryOperator) (left right : Expr) : Option Formula :=
  match operand s none left, operand s (s.typeOf? left) right with
  | .ok (.one l), .ok r =>
    if op = .isIn then membership l r.texts
    else match r with
      | .one r => some (comparisonAtom op l r)
      | .many _ => none
  | _, _ => none

/-- A quantifier as it is rendered in a scope; its body is put in the scope that it opens. -/
def ranging (s : Scope) (op : Quantifier) (path : String) (body : Scope → Option Formula) :
    Option Formula :=
  match collection s path with
  | .ok resolved =>
    (body (s.enter resolved.target)).map
      (quantified op (s.rooted (resolved.joined "/")).toList s.nextVariable.toList)
  | .error _ => none

end Formula

mutual
/-- The formula of a predicate in a scope. A raw fragment has none. -/
def meaning (s : Scope) : Predicate → Option Formula
  | .binary op left right => Formula.compared s op left right
  | .negation p => (meaning s p).map .not
  | .junction op ps => Formula.ofParts op (meanings s ps)
  | .quantified op path body => Formula.ranging s op path fun inner => meaning inner body
  | .raw _ => none

def meanings (s : Scope) : List Predicate → Option (List Formula)
  | [] => some []
  | p :: rest => do
    let f ← meaning s p
    let fs ← meanings s rest
    return f :: fs
end

theorem meanings_of_parts {s : Scope} {p : Predicate} {ps : List Predicate} {f : Formula}
    {fs : List Formula} (hf : meaning s p = some f) (hfs : meanings s ps = some fs) :
    meanings s (p :: ps) = some (f :: fs) :=
  Option.bind_eq_some_iff.mpr ⟨f, hf, Option.bind_eq_some_iff.mpr ⟨fs, hfs, rfl⟩⟩

mutual
/-- The texts of operands can be told from operators, as `LegibleExpr` says, and nothing is
a raw fragment. -/
def Legible (s : Scope) : Predicate → Prop
  | .binary _ left right =>
    LegibleExpr s none left ∧ LegibleExpr s (s.typeOf? left) right
  | .negation p => Legible s p
  | .junction _ ps => AllLegible s ps
  | .quantified _ path body => ∀ resolved, collection s path = .ok resolved →
    (∀ name ∈ resolved.segments, IsName name) ∧ Legible (s.enter resolved.target) body
  | .raw _ => False

def AllLegible (s : Scope) : List Predicate → Prop
  | [] => True
  | p :: rest => Legible s p ∧ AllLegible s rest
end

mutual
def Stocked : Predicate → Prop
  | .binary op _ right => op = .isIn → ∃ v vs own, right = .literal (.list (v :: vs)) own
  | .negation p => Stocked p
  | .junction _ ps => ps ≠ [] ∧ AllStocked ps
  | .quantified _ _ body => Stocked body
  | .raw _ => True

def AllStocked : List Predicate → Prop
  | [] => True
  | p :: rest => Stocked p ∧ AllStocked rest
end

theorem stocked_texts {s : Scope} {adopted own : Option DataType} {v : Value} {vs : List Value}
    {fragment : Fragment}
    (h : operand s adopted (.literal (.list (v :: vs)) own) = .ok fragment) :
    ∃ t ts, fragment.texts = t :: ts := by
  obtain ⟨texts, htexts, rfl⟩ := map_ok h
  rw [List.mapM_cons] at htexts
  obtain ⟨t, _, htexts⟩ := bind_ok htexts
  obtain ⟨ts, _, htexts⟩ := bind_ok htexts
  cases htexts
  exact ⟨t, ts, rfl⟩

theorem binary_phrase {s : Scope} (hs : IsRooted s) {op : BinaryOperator} {left right : Expr}
    (hstocked : Stocked (.binary op left right)) (hlegible : Legible s (.binary op left right))
    {text : String} (h : binary s op left right = .ok text) :
    ∃ e : Phrase, e.text = text ∧ Formula.compared s op left right = some e.formula := by
  obtain ⟨hleft, hright⟩ := hlegible
  obtain ⟨l, hl, hafter⟩ := bind_ok h
  obtain ⟨left', hsingle, hafter⟩ := bind_ok hafter
  obtain ⟨r, hr, hchoice⟩ := bind_ok hafter
  obtain rfl := single_ok hsingle
  have hlt : IsOperandText left' :=
    operand_legible hs left hleft hl left' (by simp [Fragment.texts])
  have hrt := operand_legible hs right hright hr
  by_cases hop : op = .isIn
  · rw [if_pos hop] at hchoice
    obtain ⟨v, vs, own, rfl⟩ := hstocked hop
    obtain ⟨t, ts, hts⟩ := stocked_texts hr
    obtain ⟨e, htext, hformula⟩ := membership_phrase hlt hts hrt
    refine ⟨e, htext.trans (Except.ok.inj hchoice), ?_⟩
    simp [Formula.compared, hl, hr, hop, hts, Formula.membership, hformula]
  · rw [if_neg hop] at hchoice
    obtain ⟨right', hright', hchoice⟩ := bind_ok hchoice
    obtain rfl := single_ok hright'
    have hrt' : IsOperandText right' := hrt right' (by simp [Fragment.texts])
    obtain ⟨e, htext, hformula⟩ := comparison_phrase hop hlt hrt'
    refine ⟨e, htext.trans (Except.ok.inj hchoice), ?_⟩
    simp [Formula.compared, hl, hr, hop, hformula]

theorem quantified_phrase {s : Scope} (hs : IsRooted s) {op : Quantifier} {path : String}
    {resolved : ResolvedPath} {body : Scope → Option Formula}
    (hnames : ∀ name ∈ resolved.segments, IsName name)
    (hresolved : collection s path = .ok resolved) (e : Phrase)
    (hbody : body (s.enter resolved.target) = some e.formula) :
    ∃ e' : Phrase, e'.text = s.rooted (resolved.joined "/") ++ "/" ++ odataWord op.key ++ "(" ++
        s.nextVariable ++ ": " ++ e.text ++ ")" ∧
      Formula.ranging s op path body = some e'.formula := by
  have hword : odataWord op.key = op.key := by
    cases op <;> decide
  refine ⟨e.quantified op (rooted_word hs hnames) (nextVariable_term s), ?_, ?_⟩
  · rw [hword]
    rfl
  · simp only [Formula.ranging, hresolved, hbody, Option.map_some]
    rfl

mutual
theorem predicate_phrase {s : Scope} (hs : IsRooted s) :
    (p : Predicate) → {text : String} → Stocked p → Legible s p → predicate s p = .ok text →
      ∃ e : Phrase, e.text = text ∧ meaning s p = some e.formula
  | .binary op left right, _, hstocked, hlegible, h => binary_phrase hs hstocked hlegible h
  | .negation p, _, hstocked, hlegible, h => by
    obtain ⟨text, hp, rfl⟩ := map_ok h
    obtain ⟨e, rfl, hmeaning⟩ := predicate_phrase hs p hstocked hlegible hp
    refine ⟨e.negated, rfl, ?_⟩
    simp only [meaning, hmeaning, Option.map_some]
    rfl
  | .junction op [], _, _, _, h => by cases h
  | .junction op (p :: ps), _, hstocked, hlegible, h => by
    obtain ⟨texts, hparts, rfl⟩ := map_ok h
    obtain ⟨es, rfl, hmeanings⟩ := parts_phrases hs (p :: ps) hstocked.2 hlegible hparts
    cases es with
    | nil =>
      obtain ⟨f, hf, hmeanings⟩ := Option.bind_eq_some_iff.mp hmeanings
      obtain ⟨fs, hfs, hmeanings⟩ := Option.bind_eq_some_iff.mp hmeanings
      cases hmeanings
    | cons e es =>
      refine ⟨Phrase.joined op e es, ?_, ?_⟩
      · rw [Phrase.odataWord_key]
        rfl
      · simp only [meaning, hmeanings]
        rfl
  | .quantified op path body, _, hstocked, hlegible, h => by
    unfold predicate at h
    split at h
    · cases h
    · rename_i resolved hresolved
      obtain ⟨text, hbody, rfl⟩ := map_ok h
      obtain ⟨hnames, hinner⟩ := hlegible resolved hresolved
      obtain ⟨e, rfl, hmeaning⟩ :=
        predicate_phrase (enter_rooted s resolved.target) body hstocked hinner hbody
      exact quantified_phrase hs hnames hresolved e hmeaning
  | .raw text, _, _, hlegible, _ => hlegible.elim

theorem parts_phrases {s : Scope} (hs : IsRooted s) :
    (ps : List Predicate) → {texts : List String} → AllStocked ps → AllLegible s ps →
      parts s ps = .ok texts →
      ∃ es : List Phrase, es.map Phrase.group = texts ∧
        meanings s ps = some (es.map Phrase.formula)
  | [], _, _, _, h => by
    cases h
    exact ⟨[], rfl, rfl⟩
  | p :: rest, _, hstocked, hlegible, h => by
    unfold parts at h
    split at h
    · cases h
    · rename_i text hp
      obtain ⟨texts, hrest, rfl⟩ := map_ok h
      obtain ⟨e, rfl, hmeaning⟩ := predicate_phrase hs p hstocked.1 hlegible.1 hp
      obtain ⟨es, rfl, hmeanings⟩ := parts_phrases hs rest hstocked.2 hlegible.2 hrest
      exact ⟨e :: es, rfl, meanings_of_parts hmeaning hmeanings⟩
end

theorem Phrase.readFilter (e : Phrase) : readFilter e.text = some e.formula := by
  have hread := e.read ((OData.tokens e.text).length + 1) []
  rw [← e.spelled.tokens_eq, List.append_nil] at hread
  have hall := hread (by omega) (Or.inl rfl)
  simp [OData.readFilter, hall]

end EntityCache.OData
