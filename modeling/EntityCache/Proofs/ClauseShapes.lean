import EntityCache.Filter.WhereClause
import EntityCache.Proofs.AdoptedTypes
import EntityCache.Proofs.PredicateShapes
import Mathlib.Data.List.Forall2

/-! What a clause tells about the predicate that it was made of. Two predicates with the same
clause have the same shape, but for two confusions: a call on the right of a comparison is
written like a text that reads the same, and a path that is written `not` makes its comparison
or quantifier look like a negation. -/
namespace EntityCache

def Placed.clause (a : Placed) : Except Fault Json := WhereClause.predicate a.scope a.predicate

/-- What a value looks like where it may stand for a clause: an object with one field, or a
list that begins with one. -/
inductive Json.Tag where
  | clause (key : String)
  | clauses
  | other
  deriving DecidableEq

def Json.tag : Json → Json.Tag
  | .obj [(key, _)] => .clause key
  | .arr (.obj [_] :: _) => .clauses
  | _ => .other

namespace WhereClause

section Values

theorem scalarJson_ne_obj (v : Value) (fields : List (String × Json)) :
    DataType.scalarJson v ≠ .obj fields := by
  cases v with
  | float x => simp only [DataType.scalarJson]; split <;> simp
  | _ => simp [DataType.scalarJson]

theorem scalarJson_ne_arr (v : Value) (items : List Json) :
    DataType.scalarJson v ≠ .arr items := by
  cases v with
  | float x => simp only [DataType.scalarJson]; split <;> simp
  | _ => simp [DataType.scalarJson]

theorem toJson_ne_obj (d : DataType) (v : Value) (fields : List (String × Json)) :
    d.toJson v ≠ .obj fields := by
  cases v with
  | list items => simp [DataType.toJson]
  | _ =>
    rw [DataType.toJson]
    · exact scalarJson_ne_obj _ fields
    · simp

theorem tag_of_ne {v : Json} (hobj : ∀ fields, v ≠ .obj fields) (harr : ∀ items, v ≠ .arr items) :
    v.tag = .other := by
  unfold Json.tag
  split
  · exact absurd rfl (hobj _)
  · exact absurd rfl (harr _)
  · rfl

theorem tag_toJson (d : DataType) (v : Value) : (d.toJson v).tag = .other := by
  cases v with
  | list items =>
    rw [DataType.toJson]
    cases items with
    | nil => rfl
    | cons x rest =>
      rw [DataType.toJsonItems]
      unfold Json.tag
      split
      · cases ‹Json.arr _ = _›
      · rename_i heq
        exact absurd (List.cons.inj (Json.arr.inj heq)).1 (toJson_ne_obj d x _)
      · rfl
  | _ =>
    rw [DataType.toJson]
    · exact tag_of_ne (scalarJson_ne_obj _) (scalarJson_ne_arr _)
    · simp

theorem literal_ok {d : DataType} {v : Value} {j : Json} (h : literal d v = .ok j) :
    ∃ w, j = d.toJson w := by
  unfold literal at h
  split at h
  · exact ⟨v, (Except.ok.inj h).symm⟩
  · split at h
    · obtain ⟨vs, -, rfl⟩ := map_ok h
      exact ⟨.list vs, rfl⟩
    · obtain ⟨w, -, rfl⟩ := map_ok h
      exact ⟨w, rfl⟩

def flagged (path : String) : Json := .obj [("isProperty", .bool true), ("value", .str path)]

theorem object_eq_flagged (path : String) :
    Json.object [("value", .str path), ("isProperty", .bool true)] = flagged path := by
  have hbefore : "isProperty" < "value" := by decide
  simp [Json.object, Json.sortFields, Json.insertField, hbefore, flagged]

theorem rightSide_ok {s : Scope} {left right : Expr} {j : Json}
    (h : rightSide s left right = .ok j) :
    (∃ path text, right = .property path ∧ j = flagged text) ∨
    (∃ name args text, right = .call name args ∧ operandText s right = .ok text ∧ j = .str text) ∨
    ∃ v own, right = .literal v own ∧ (∀ fields, j ≠ .obj fields) ∧
      operand s (s.typeOf? left) right = .ok j ∧ j.tag = .other := by
  cases right with
  | property path =>
    obtain ⟨v, hv, rfl⟩ := map_ok h
    obtain ⟨text, -, rfl⟩ := map_ok hv
    exact Or.inl ⟨path, text, rfl, object_eq_flagged text⟩
  | call name args =>
    obtain ⟨text, htext, rfl⟩ := map_ok h
    exact Or.inr (Or.inl ⟨name, args, text, rfl, htext, rfl⟩)
  | literal v own =>
    obtain ⟨w, rfl⟩ := literal_ok h
    exact Or.inr (Or.inr ⟨v, own, rfl, toJson_ne_obj _ _, h, tag_toJson _ _⟩)

theorem tag_rightSide {s : Scope} {left right : Expr} {j : Json}
    (h : rightSide s left right = .ok j) : j.tag = .other := by
  rcases rightSide_ok h with ⟨_, _, _, rfl⟩ | ⟨_, _, _, _, _, rfl⟩ | ⟨_, _, _, _, _, htag⟩
  · rfl
  · rfl
  · exact htag

end Values

section Confusions

/-- The left text of a comparison, or the path of a quantifier. -/
inductive About (s : Scope) : Predicate → String → Prop where
  | comparison {op : BinaryOperator} {left right : Expr} {text : String} :
      operandText s left = .ok text → About s (.binary op left right) text
  | quantifier {op : Quantifier} {path text : String} {body : Predicate} :
      s.catalog.serverPath s.start path "." = .ok text → About s (.quantified op path body) text

/-- Two predicates of different shapes that may have the same clause. -/
inductive Confusable : Placed → Placed → Prop where
  | call {s s' : Scope} {op : BinaryOperator} {left left' : Expr} {name text : String}
      {args : List Expr} {v : Value} {own : Option DataType} :
      operandText s (.call name args) = .ok text →
      operand s' (s'.typeOf? left') (.literal v own) = .ok (.str text) →
      Confusable ⟨s, .binary op left (.call name args)⟩ ⟨s', .binary op left' (.literal v own)⟩
  | comparison {s s' : Scope} {op : BinaryOperator} {left right right' : Expr} {path : String} :
      op ≠ .equals → operandText s left = .ok op.key →
      s'.catalog.serverPath s'.start path "." = .ok negationKey →
      Confusable ⟨s, .negation (.binary .equals left right)⟩
        ⟨s', .binary op (.property path) right'⟩
  | quantifier {s s' : Scope} {op : Quantifier} {p body : Predicate} {path : String} :
      About s p op.key → s'.catalog.serverPath s'.start path "." = .ok negationKey →
      Confusable ⟨s, .negation p⟩ ⟨s', .quantified op path body⟩

theorem Confusable.shape_ne {a b : Placed} (h : Confusable a b) : a.shape ≠ b.shape := by
  intro hshape
  cases h <;> cases hshape

end Confusions

section Forms

/-- How the clause of a predicate is put together from its one key and what stands under it. -/
inductive Form : Placed → String → Json → Prop where
  | equality {s : Scope} {left right : Expr} {name : String} {v : Json} :
      operandText s left = .ok name → rightSide s left right = .ok v →
      Form ⟨s, .binary .equals left right⟩ name v
  | comparison {s : Scope} {op : BinaryOperator} {left right : Expr} {name : String} {v : Json} :
      op ≠ .equals → operandText s left = .ok name → rightSide s left right = .ok v →
      Form ⟨s, .binary op left right⟩ name (.obj [(op.key, v)])
  | negation {s : Scope} {p : Predicate} {v : Json} :
      predicate s p = .ok v → Form ⟨s, .negation p⟩ negationKey v
  | junction {s : Scope} {op : BooleanOperator} {ps : List Predicate} {vs : List Json} :
      ps ≠ [] → List.Forall₂ (fun p v => predicate s p = .ok v) ps vs →
      Form ⟨s, .junction op ps⟩ op.key (.arr vs)
  | quantified {s : Scope} {op : Quantifier} {path : String} {body : Predicate}
      {resolved : ResolvedPath} {v : Json} :
      s.catalog.resolvePath s.start path = .ok resolved →
      predicate (s.enter resolved.target) body = .ok v →
      Form ⟨s, .quantified op path body⟩ (resolved.joined ".") (.obj [(op.key, v)])

theorem parts_ok {s : Scope} {ps : List Predicate} {vs : List Json} (h : parts s ps = .ok vs) :
    List.Forall₂ (fun p v => predicate s p = .ok v) ps vs := by
  induction ps generalizing vs with
  | nil =>
    cases h
    exact .nil
  | cons p rest ih =>
    unfold parts at h
    split at h
    · cases h
    · rename_i v hv
      obtain ⟨others, hothers, rfl⟩ := map_ok h
      exact .cons hv (ih hothers)

theorem form_of_clause {a : Placed} {j : Json} (h : a.clause = .ok j)
    (ha : a.predicate.WithoutRaw) : ∃ name v, j = .obj [(name, v)] ∧ Form a name v := by
  obtain ⟨s, p⟩ := a
  cases p with
  | binary op left right =>
    obtain ⟨name, hname, h⟩ := bind_ok h
    obtain ⟨v, hv, h⟩ := bind_ok h
    split at h
    · rename_i hop
      cases h
      subst hop
      exact ⟨name, v, rfl, .equality hname hv⟩
    · rename_i hop
      cases h
      exact ⟨name, _, rfl, .comparison hop hname hv⟩
  | negation p =>
    obtain ⟨v, hv, rfl⟩ := map_ok h
    exact ⟨_, v, rfl, .negation hv⟩
  | junction op ps =>
    cases ps with
    | nil => cases h
    | cons p rest =>
      obtain ⟨vs, hvs, rfl⟩ := map_ok h
      exact ⟨_, _, rfl, .junction (List.cons_ne_nil p rest) (parts_ok hvs)⟩
  | quantified op path body =>
    unfold Placed.clause predicate at h
    split at h
    · cases h
    · rename_i resolved hresolved
      obtain ⟨v, hv, rfl⟩ := map_ok h
      exact ⟨_, _, rfl, .quantified hresolved hv⟩
  | raw text => exact absurd .here (ha text)

theorem tag_of_clause {a : Placed} {j : Json} (h : a.clause = .ok j)
    (ha : a.predicate.WithoutRaw) : ∃ key, j.tag = .clause key := by
  obtain ⟨name, v, rfl, -⟩ := form_of_clause h ha
  exact ⟨name, rfl⟩

theorem tag_negated {s : Scope} {p : Predicate} {v : Json} (h : predicate s p = .ok v)
    (hp : (Predicate.negation p).WithoutRaw) : ∃ key, v.tag = .clause key :=
  tag_of_clause (a := ⟨s, p⟩) h hp.negated

theorem tag_joined {s : Scope} {op : BooleanOperator} {ps : List Predicate} {vs : List Json}
    (hne : ps ≠ []) (h : List.Forall₂ (fun p v => predicate s p = .ok v) ps vs)
    (hps : (Predicate.junction op ps).WithoutRaw) : (Json.arr vs).tag = .clauses := by
  cases h with
  | nil => exact absurd rfl hne
  | @cons p v rest others hv =>
    obtain ⟨name, payload, rfl, -⟩ :=
      form_of_clause (a := ⟨s, p⟩) hv (hps.joined List.mem_cons_self)
    rfl

variable {a : Placed} {name : String} {v : Json}

/-- Only an equality has a value of its own under its key. -/
theorem Form.of_other (h : Form a name v) (ha : a.predicate.WithoutRaw) (htag : v.tag = .other) :
    ∃ s left right, a = ⟨s, .binary .equals left right⟩ ∧ operandText s left = .ok name ∧
      rightSide s left right = .ok v := by
  cases h with
  | equality hname hv => exact ⟨_, _, _, rfl, hname, hv⟩
  | comparison | quantified => cases htag
  | negation hv =>
    obtain ⟨key, hkey⟩ := tag_negated hv ha
    cases hkey.symm.trans htag
  | junction hne hvs => cases (tag_joined hne hvs ha).symm.trans htag

/-- Only a junction has a list of clauses there. -/
theorem Form.of_clauses (h : Form a name v) (ha : a.predicate.WithoutRaw)
    (htag : v.tag = .clauses) :
    ∃ s op ps vs, a = ⟨s, .junction op ps⟩ ∧ name = op.key ∧ v = .arr vs ∧
      List.Forall₂ (fun p v => predicate s p = .ok v) ps vs := by
  cases h with
  | equality hname hv => cases (tag_rightSide hv).symm.trans htag
  | comparison | quantified => cases htag
  | negation hv =>
    obtain ⟨key, hkey⟩ := tag_negated hv ha
    cases hkey.symm.trans htag
  | junction hne hvs => exact ⟨_, _, _, _, rfl, rfl, rfl, hvs⟩

/-- The three that have another clause there, or what looks like one. -/
theorem Form.of_clause (h : Form a name v) (ha : a.predicate.WithoutRaw) {key : String}
    (htag : v.tag = .clause key) :
    (∃ s op left right w, a = ⟨s, .binary op left right⟩ ∧ op ≠ .equals ∧
      operandText s left = .ok name ∧ rightSide s left right = .ok w ∧ v = .obj [(op.key, w)]) ∨
    (∃ s p, a = ⟨s, .negation p⟩ ∧ name = negationKey ∧ predicate s p = .ok v) ∨
    ∃ s op path body resolved w, a = ⟨s, .quantified op path body⟩ ∧
      name = ResolvedPath.joined resolved "." ∧ s.catalog.resolvePath s.start path = .ok resolved ∧
      predicate (s.enter resolved.target) body = .ok w ∧ v = .obj [(op.key, w)] := by
  cases h with
  | equality hname hv => cases (tag_rightSide hv).symm.trans htag
  | comparison hop hname hv => exact Or.inl ⟨_, _, _, _, _, rfl, hop, hname, hv, rfl⟩
  | negation hv => exact Or.inr (Or.inl ⟨_, _, rfl, rfl, hv⟩)
  | junction hne hvs => cases (tag_joined hne hvs ha).symm.trans htag
  | quantified hpath hv =>
    exact Or.inr (Or.inr ⟨_, _, _, _, _, _, rfl, rfl, hpath, hv, rfl⟩)

end Forms

section Meeting

def SameClause (a b : Placed) : Prop := ∃ j, a.clause = .ok j ∧ b.clause = .ok j

/-- Two predicates with the same clause: they are confused, or they agree at the root and have
parts with the same clauses. -/
def Meets (a b : Placed) : Prop :=
  Confusable a b ∨ Confusable b a ∨
    a.predicate.root = b.predicate.root ∧ List.Forall₂ SameClause a.parts b.parts

variable {s s' : Scope}

/-- A literal that shows the type of an integer is the text of one. -/
theorem integer_of_family {d : DataType} {v : Value} (hd : d.family = .int32)
    (h : d.accepts v = true) (hv : v.isNull = false) :
    ∃ i : Int64, d.literalText v = i.toInt.repr := by
  rcases DataType.family_eq_int32_iff.mp hd with rfl | rfl | rfl
  all_goals
    cases v with
    | null => cases hv
    | integer i => exact ⟨i, rfl⟩
    | _ => cases h

theorem odataLiteral_ne_negationKey {d : DataType} {v : Value} :
    d.odataLiteral v ≠ .ok negationKey := by
  intro h
  cases hnull : v.isNull with
  | true =>
    obtain rfl := Value.eq_null_of_isNull hnull
    exact absurd (Except.ok.inj h) (by decide)
  | false =>
    have hfamily : (OData.writtenAs d v).family = .int32 :=
      (DataType.shownBy_odataLiteral hnull h).symm
    rcases OData.odataLiteral_ok h with ⟨rfl, -⟩ | ⟨-, haccepts, htext⟩
    · cases hnull
    · obtain ⟨i, hi⟩ := integer_of_family hfamily haccepts (by rwa [DataType.isNull_coerce])
      have hletter : 'n' ∈ i.toInt.repr.toList := by
        rw [← hi, ← htext]
        decide
      exact absurd (Number.mem_repr hletter) (by decide)

/-- What is written like a negation on the left of a comparison is a path. -/
theorem property_of_negationKey {e : Expr} (h : operandText s e = .ok negationKey) :
    ∃ path, e = .property path ∧ s.catalog.serverPath s.start path "." = .ok negationKey := by
  cases e with
  | literal v own => exact absurd h odataLiteral_ne_negationKey
  | property path => exact ⟨path, rfl, h⟩
  | call name args =>
    obtain ⟨texts, -, htext⟩ := map_ok h
    have hmem : '(' ∈ (name ++ "(" ++ ",".intercalate texts ++ ")").toList := by simp
    rw [htext] at hmem
    exact absurd hmem (by decide)

theorem binary_meets {op : BinaryOperator} {left left' right right' : Expr} {v : Json}
    (h : rightSide s left right = .ok v) (h' : rightSide s' left' right' = .ok v) :
    Meets ⟨s, .binary op left right⟩ ⟨s', .binary op left' right'⟩ := by
  have halike : right.kind = right'.kind →
      Meets ⟨s, .binary op left right⟩ ⟨s', .binary op left' right'⟩ := fun hkind =>
    Or.inr (Or.inr ⟨congrArg (Root.comparison op) hkind, .nil⟩)
  rcases rightSide_ok h with ⟨path, text, rfl, rfl⟩ | ⟨name, args, text, rfl, htext, rfl⟩ |
      ⟨w, own, rfl, hobj, hv, -⟩ <;>
    rcases rightSide_ok h' with ⟨path', text', rfl, hsame⟩ |
      ⟨name', args', text', rfl, htext', hsame⟩ | ⟨w', own', rfl, hobj', hv', -⟩
  -- a property, a call and a literal on the one side, each against the three on the other
  · exact halike rfl
  · cases hsame
  · exact absurd rfl (hobj' _)
  · cases hsame
  · exact halike rfl
  · exact Or.inl (.call htext hv')
  · exact absurd hsame (hobj _)
  · subst hsame
    exact Or.inr (Or.inl (.call htext' hv))
  · exact halike rfl

theorem field_inj {key key' : String} {v w : Json} (h : Json.obj [(key, v)] = .obj [(key', w)]) :
    key = key' ∧ v = w := by
  simpa using h

theorem key_inj {op op' : BinaryOperator} (h : op.key = op'.key) : op = op' := by
  cases op <;> cases op' <;> first | rfl | exact absurd h (by decide)

theorem junctionKey_inj {op op' : BooleanOperator} (h : op.key = op'.key) : op = op' := by
  cases op <;> cases op' <;> first | rfl | exact absurd h (by decide)

theorem quantifierKey_inj {op op' : Quantifier} (h : op.key = op'.key) : op = op' := by
  cases op <;> cases op' <;> first | rfl | exact absurd h (by decide)

theorem key_ne_quantifierKey (op : BinaryOperator) (q : Quantifier) : op.key ≠ q.key := by
  cases op <;> cases q <;> decide

theorem quantifierKey_ne_negationKey (q : Quantifier) : q.key ≠ negationKey := by
  cases q <;> decide

theorem comparison_negation {op : BinaryOperator} {left right : Expr} {w : Json} {p : Predicate}
    (hleft : operandText s left = .ok negationKey) (hright : rightSide s left right = .ok w)
    (hop : op ≠ .equals) (hp : predicate s' p = .ok (.obj [(op.key, w)])) (hraw : p.WithoutRaw) :
    Confusable ⟨s', .negation p⟩ ⟨s, .binary op left right⟩ := by
  obtain ⟨path, rfl, hpath⟩ := property_of_negationKey hleft
  obtain ⟨name, v, hobj, hform⟩ := form_of_clause (a := ⟨s', p⟩) hp hraw
  cases hobj
  obtain ⟨s₁, left', right', hplaced, hname, -⟩ := hform.of_other hraw (tag_rightSide hright)
  cases hplaced
  exact .comparison hop hname hpath

theorem negation_quantified {op : Quantifier} {path : String} {body p : Predicate}
    {resolved : ResolvedPath} {w : Json} (hpath : s.catalog.resolvePath s.start path = .ok resolved)
    (hname : resolved.joined "." = negationKey)
    (hbody : predicate (s.enter resolved.target) body = .ok w) (hbodyRaw : body.WithoutRaw)
    (hp : predicate s' p = .ok (.obj [(op.key, w)])) (hraw : p.WithoutRaw) :
    Confusable ⟨s', .negation p⟩ ⟨s, .quantified op path body⟩ := by
  obtain ⟨name, v, hobj, hform⟩ := form_of_clause (a := ⟨s', p⟩) hp hraw
  cases hobj
  obtain ⟨key, htag⟩ := tag_of_clause (a := ⟨s.enter resolved.target, body⟩) hbody hbodyRaw
  have hserver : s.catalog.serverPath s.start path "." = .ok negationKey := by
    rw [Catalog.serverPath, hpath, ← hname]
    rfl
  rcases hform.of_clause hraw htag with ⟨_, _, _, _, _, hplaced, _, hleft, _, _⟩ |
      ⟨_, _, hplaced, hkey, _⟩ | ⟨s₁, _, path', _, resolved', _, hplaced, hkey, hpath', _, _⟩
  · cases hplaced
    exact .quantifier (.comparison hleft) hserver
  · exact absurd hkey (quantifierKey_ne_negationKey op)
  · cases hplaced
    refine .quantifier (.quantifier ?_) hserver
    rw [Catalog.serverPath, hpath', hkey]
    rfl

theorem sameClause_parts {ps qs : List Predicate} {vs : List Json}
    (h : List.Forall₂ (fun p v => predicate s p = .ok v) ps vs)
    (h' : List.Forall₂ (fun q v => predicate s' q = .ok v) qs vs) :
    List.Forall₂ SameClause (ps.map (Placed.mk s)) (qs.map (Placed.mk s')) := by
  induction h generalizing qs with
  | nil =>
    cases h'
    exact .nil
  | cons hp _ ih =>
    cases h' with
    | cons hq hrest => exact .cons ⟨_, hp, hq⟩ (ih hrest)

/-- What two predicates with the same clause have in common. -/
theorem meets_of_sameClause {a b : Placed} (h : SameClause a b) (ha : a.predicate.WithoutRaw)
    (hb : b.predicate.WithoutRaw) : Meets a b := by
  obtain ⟨j, hja, hjb⟩ := h
  obtain ⟨name, v, rfl, hform⟩ := form_of_clause hja ha
  obtain ⟨name', v', hobj, hform'⟩ := form_of_clause hjb hb
  cases hobj
  cases hform with
  | equality hname hv =>
    obtain ⟨_, _, _, rfl, _, hv'⟩ := hform'.of_other hb (tag_rightSide hv)
    exact binary_meets hv hv'
  | comparison hop hname hv =>
    rcases hform'.of_clause hb rfl with ⟨_, _, _, _, _, rfl, _, _, hv', hobj⟩ |
        ⟨_, _, rfl, rfl, hp⟩ | ⟨_, _, _, _, _, _, rfl, _, _, _, hobj⟩
    · obtain ⟨hkey, rfl⟩ := field_inj hobj
      rw [key_inj hkey]
      exact binary_meets hv hv'
    · exact Or.inr (Or.inl (comparison_negation hname hv hop hp hb.negated))
    · exact absurd (field_inj hobj).1 (key_ne_quantifierKey _ _)
  | negation hv =>
    obtain ⟨key, htag⟩ := tag_negated hv ha
    rcases hform'.of_clause hb htag with ⟨_, _, _, _, _, rfl, hop, hname, hv', rfl⟩ |
        ⟨_, _, rfl, _, hv'⟩ | ⟨_, _, _, _, _, _, rfl, hname, hpath, hv', rfl⟩
    · exact Or.inl (comparison_negation hname hv' hop hv ha.negated)
    · exact Or.inr (Or.inr ⟨rfl, .cons ⟨_, hv, hv'⟩ .nil⟩)
    · exact Or.inl (negation_quantified hpath hname.symm hv' hb.quantified hv ha.negated)
  | junction hne hvs =>
    obtain ⟨_, _, _, _, rfl, hkey, hlist, hvs'⟩ := hform'.of_clauses hb (tag_joined hne hvs ha)
    cases hlist
    exact Or.inr (Or.inr ⟨congrArg Root.junction (junctionKey_inj hkey), sameClause_parts hvs hvs'⟩)
  | quantified hpath hv =>
    rcases hform'.of_clause hb rfl with ⟨_, _, _, _, _, rfl, _, _, _, hobj⟩ |
        ⟨_, _, rfl, hname, hp⟩ | ⟨_, _, _, _, _, _, rfl, _, hpath', hv', hobj⟩
    · exact absurd (field_inj hobj).1.symm (key_ne_quantifierKey _ _)
    · exact Or.inr (Or.inl (negation_quantified hpath hname hv ha.quantified hp hb.negated))
    · obtain ⟨hkey, rfl⟩ := field_inj hobj
      refine Or.inr (Or.inr ⟨congrArg Root.quantified (quantifierKey_inj hkey), ?_⟩)
      rw [Placed.parts_quantified hpath, Placed.parts_quantified hpath']
      exact .cons ⟨_, hv, hv'⟩ .nil

end Meeting

section Shapes

variable {a b : Placed}

/-- A quantifier with a clause has a path that leads somewhere, so its body counts as a part. -/
theorem shape_eq_node {j : Json} (h : a.clause = .ok j) :
    a.shape = .node a.predicate.root (a.parts.map Placed.shape) := by
  obtain ⟨s, p⟩ := a
  cases p with
  | binary | negation | raw => rfl
  | junction op ps =>
    change Shape.node _ (Predicate.shapes ps) = _
    rw [Predicate.shapes_eq_map, Placed.parts, List.map_map]
    rfl
  | quantified op path body =>
    unfold Placed.clause predicate at h
    split at h
    · cases h
    · rename_i resolved hresolved
      rw [Placed.parts_quantified hresolved]
      rfl

theorem shape_eq_of_facing (a b : Placed) (h : SameClause a b) (ha : a.predicate.WithoutRaw)
    (hb : b.predicate.WithoutRaw)
    (hfacing : ∀ c d, Placed.Facing a b c d → ¬ Confusable c d ∧ ¬ Confusable d c) :
    a.shape = b.shape := by
  rcases meets_of_sameClause h ha hb with hconfused | hconfused | ⟨hroot, hparts⟩
  · exact absurd hconfused (hfacing a b (.here a b)).1
  · exact absurd hconfused (hfacing a b (.here a b)).2
  · obtain ⟨j, hja, hjb⟩ := h
    rw [shape_eq_node hja, shape_eq_node hjb, hroot]
    refine congrArg _ (List.ext_getElem (by simp [hparts.length_eq]) fun i hi hi' => ?_)
    have hleft : i < a.parts.length := by simpa using hi
    have hright : i < b.parts.length := by simpa using hi'
    rw [List.getElem_map, List.getElem_map]
    refine shape_eq_of_facing a.parts[i] b.parts[i] (hparts.get hleft hright)
      (Placed.withoutRaw_part (List.getElem_mem hleft) ha)
      (Placed.withoutRaw_part (List.getElem_mem hright) hb) fun c d hbelow => ?_
    exact hfacing c d
      (.part (List.getElem?_eq_getElem hleft) (List.getElem?_eq_getElem hright) hbelow)
termination_by sizeOf a.predicate
decreasing_by exact Placed.part_smaller (List.getElem_mem hleft)

/-- Predicates with the same clause have the same shape, with the same kinds of operands on the
right, unless parts that face each other are confused. -/
theorem shape_eq_iff {s s' : Scope} {p q : Predicate} {j : Json} (hp : p.WithoutRaw)
    (hq : q.WithoutRaw) (h : predicate s p = .ok j) (h' : predicate s' q = .ok j) :
    p.shape = q.shape ↔ ∀ c d, Placed.Facing ⟨s, p⟩ ⟨s', q⟩ c d →
      ¬ Confusable c d ∧ ¬ Confusable d c := by
  constructor
  · intro hshape c d hfacing
    have heq : c.shape = d.shape := hfacing.shape_eq hshape
    exact ⟨fun hconfused => hconfused.shape_ne heq, fun hconfused => hconfused.shape_ne heq.symm⟩
  · exact shape_eq_of_facing ⟨s, p⟩ ⟨s', q⟩ ⟨j, h, h'⟩ hp hq

end Shapes

def notInCork (own : Option DataType) : Predicate :=
  .negation (.binary .equals (.property "City") (.literal (.text "Cork") own))

theorem notInCork_told :
    predicate (Scope.outermost {} .anonymous) (notInCork none) =
        .ok (.obj [("not", .obj [("City", .str "Cork")])]) ∧
      predicate (Scope.outermost {} .anonymous) (notInCork (some .string)) =
        .ok (.obj [("not", .obj [("City", .str "Cork")])]) ∧
      ∀ c d, Placed.Facing ⟨Scope.outermost {} .anonymous, notInCork none⟩
        ⟨Scope.outermost {} .anonymous, notInCork (some .string)⟩ c d →
          ¬ Confusable c d ∧ ¬ Confusable d c := by
  have hraw : ∀ own, (notInCork own).WithoutRaw := by
    rintro own text (_ | ⟨⟨⟩⟩)
  have huntyped : predicate (Scope.outermost {} .anonymous) (notInCork none) =
      .ok (.obj [("not", .obj [("City", .str "Cork")])]) := rfl
  have htyped : predicate (Scope.outermost {} .anonymous) (notInCork (some .string)) =
      .ok (.obj [("not", .obj [("City", .str "Cork")])]) := rfl
  exact ⟨huntyped, htyped, (shape_eq_iff (hraw none) (hraw _) huntyped htyped).mp rfl⟩

def namedInCapitals : Predicate :=
  .binary .equals (.property "Name") (.call "toupper" [.property "City"])

def namedLikeACall : Predicate :=
  .binary .equals (.property "Name") (.literal (.text "toupper(City)") none)

/-- A city in capital letters cannot be told from a text. -/
theorem capitals_untold :
    namedInCapitals.WithoutRaw ∧ namedLikeACall.WithoutRaw ∧
      namedInCapitals.shape ≠ namedLikeACall.shape ∧
      predicate (Scope.outermost {} .anonymous) namedInCapitals =
        .ok (.obj [("Name", .str "toupper(City)")]) ∧
      predicate (Scope.outermost {} .anonymous) namedLikeACall =
        .ok (.obj [("Name", .str "toupper(City)")]) := by
  refine ⟨?_, ?_, ?_, rfl, rfl⟩
  · rintro text ⟨⟩
  · rintro text ⟨⟩
  · rintro ⟨⟩

end WhereClause

end EntityCache
