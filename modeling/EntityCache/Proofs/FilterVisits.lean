import EntityCache.Filter.ODataText
import EntityCache.Proofs.Outcomes

/-! The parts of a predicate and the scopes in which they are rendered. When a predicate is
rendered, so is every part of it, each in its own scope. -/
namespace EntityCache

/-- `q` stands in `p`, at any depth. -/
inductive Predicate.Within (q : Predicate) : Predicate → Prop where
  | here : Within q q
  | negation {p : Predicate} (h : Within q p) : Within q (.negation p)
  | junction {op : BooleanOperator} {p : Predicate} {ps : List Predicate} (member : p ∈ ps)
      (h : Within q p) : Within q (.junction op ps)
  | quantified {op : Quantifier} {path : String} {body : Predicate} (h : Within q body) :
      Within q (.quantified op path body)

namespace OData

theorem literal_ok {d : DataType} {v : Value} {fragment : Fragment}
    (h : literal d v = .ok fragment) :
    (∃ items texts, v = .list items ∧ items.mapM d.odataLiteral = .ok texts ∧
      fragment = .many texts) ∨ ∃ text, d.odataLiteral v = .ok text ∧ fragment = .one text := by
  unfold literal at h
  split at h
  · rename_i items
    obtain ⟨texts, htexts, rfl⟩ := map_ok h
    exact .inl ⟨items, texts, rfl, htexts, rfl⟩
  · obtain ⟨text, htext, rfl⟩ := map_ok h
    exact .inr ⟨text, htext, rfl⟩

theorem operand_many {s : Scope} {adopted : Option DataType} {e : Expr} {texts : List String}
    (h : operand s adopted e = .ok (.many texts)) :
    ∃ items own, e = .literal (.list items) own ∧
      items.mapM (Scope.literalType own adopted).odataLiteral = .ok texts := by
  cases e with
  | literal v own =>
    rcases literal_ok h with ⟨items, _, rfl, hitems, hmany⟩ | ⟨text, _, hone⟩
    · cases hmany
      exact ⟨items, own, rfl, hitems⟩
    · cases hone
  | property p =>
    obtain ⟨text, _, hone⟩ := map_ok h
    cases hone
  | call name args =>
    unfold operand at h
    split at h <;> cases h

theorem negation_ok {s : Scope} {p : Predicate} {text : String}
    (h : predicate s (.negation p) = .ok text) :
    ∃ inner, predicate s p = .ok inner ∧ text = odataWord negationKey ++ " (" ++ inner ++ ")" := by
  obtain ⟨inner, hinner, rfl⟩ := map_ok h
  exact ⟨inner, hinner, rfl⟩

theorem junction_ok {s : Scope} {op : BooleanOperator} {ps : List Predicate} {text : String}
    (h : predicate s (.junction op ps) = .ok text) :
    ∃ texts, ps ≠ [] ∧ parts s ps = .ok texts ∧
      text = (" " ++ odataWord op.key ++ " ").intercalate texts := by
  cases ps with
  | nil => cases h
  | cons p rest =>
    obtain ⟨texts, htexts, rfl⟩ := map_ok h
    exact ⟨texts, List.cons_ne_nil p rest, htexts, rfl⟩

theorem parts_cons_ok {s : Scope} {p : Predicate} {rest : List Predicate} {texts : List String}
    (h : parts s (p :: rest) = .ok texts) :
    ∃ text others, predicate s p = .ok text ∧ parts s rest = .ok others ∧
      texts = ("(" ++ text ++ ")") :: others := by
  unfold parts at h
  split at h
  · cases h
  · rename_i text htext
    obtain ⟨others, hothers, rfl⟩ := map_ok h
    exact ⟨text, others, htext, hothers, rfl⟩

theorem quantified_ok {s : Scope} {op : Quantifier} {path : String} {body : Predicate}
    {text : String} (h : predicate s (.quantified op path body) = .ok text) :
    ∃ resolved inner, collection s path = .ok resolved ∧
      predicate (s.enter resolved.target) body = .ok inner ∧
      text = s.rooted (resolved.joined "/") ++ "/" ++ odataWord op.key ++ "(" ++
        s.nextVariable ++ ": " ++ inner ++ ")" := by
  unfold predicate at h
  split at h
  · cases h
  · rename_i resolved hresolved
    obtain ⟨inner, hinner, rfl⟩ := map_ok h
    exact ⟨resolved, inner, hresolved, hinner, rfl⟩

/-- From an entity type a quantifier ranges over what counts as a collection there. -/
theorem collection_ok {s : Scope} {path : String} {resolved : ResolvedPath}
    (h : collection s path = .ok resolved) :
    s.catalog.resolvePath s.start path = .ok resolved ∧
      (s.start.isAnonymous = false → resolved.isCollection = true) := by
  obtain ⟨reached, hreached, h⟩ := bind_ok h
  split at h
  · cases h
  · rename_i hmany
    cases h
    refine ⟨hreached, fun hentity => ?_⟩
    simpa [hentity] using hmany

/-- Rendering `p` in `s` renders its part `q` in `s'`. -/
inductive Visits : Scope → Predicate → Scope → Predicate → Prop where
  | here (s : Scope) (p : Predicate) : Visits s p s p
  | negation {s s' : Scope} {p q : Predicate} (h : Visits s p s' q) :
      Visits s (.negation p) s' q
  | junction {s s' : Scope} {op : BooleanOperator} {p q : Predicate} {ps : List Predicate}
      (member : p ∈ ps) (h : Visits s p s' q) : Visits s (.junction op ps) s' q
  | quantified {s s' : Scope} {op : Quantifier} {path : String} {body q : Predicate}
      {resolved : ResolvedPath} (found : collection s path = .ok resolved)
      (h : Visits (s.enter resolved.target) body s' q) : Visits s (.quantified op path body) s' q

theorem Visits.within {s s' : Scope} {p q : Predicate} (h : Visits s p s' q) : q.Within p := by
  induction h with
  | here => exact .here
  | negation _ ih => exact .negation ih
  | junction hmem _ ih => exact .junction hmem ih
  | quantified _ _ ih => exact .quantified ih

theorem parts_ok {s : Scope} {ps : List Predicate} {texts : List String}
    (h : parts s ps = .ok texts) : ∀ p ∈ ps, ∃ text, predicate s p = .ok text := by
  induction ps generalizing texts with
  | nil => simp
  | cons p rest ih =>
    obtain ⟨text, others, htext, hothers, _⟩ := parts_cons_ok h
    intro q hq
    rcases List.mem_cons.mp hq with rfl | hq
    · exact ⟨text, htext⟩
    · exact ih hothers q hq

theorem Visits.rendered {s s' : Scope} {p q : Predicate} (h : Visits s p s' q) {text : String}
    (htext : predicate s p = .ok text) : ∃ part, predicate s' q = .ok part := by
  induction h generalizing text with
  | here => exact ⟨text, htext⟩
  | negation _ ih =>
    obtain ⟨inner, hinner, _⟩ := negation_ok htext
    exact ih hinner
  | junction hmem _ ih =>
    obtain ⟨texts, _, hparts, _⟩ := junction_ok htext
    obtain ⟨inner, hinner⟩ := parts_ok hparts _ hmem
    exact ih hinner
  | quantified hover _ ih =>
    obtain ⟨resolved, inner, hresolved, hinner, _⟩ := quantified_ok htext
    cases hover.symm.trans hresolved
    exact ih hinner

theorem exists_visits {q p : Predicate} (h : q.Within p) {s : Scope} {text : String}
    (htext : predicate s p = .ok text) : ∃ s', Visits s p s' q := by
  induction h generalizing s text with
  | here => exact ⟨s, .here s q⟩
  | negation _ ih =>
    obtain ⟨inner, hinner, _⟩ := negation_ok htext
    obtain ⟨s', hvisits⟩ := ih hinner
    exact ⟨s', .negation hvisits⟩
  | junction hmem _ ih =>
    obtain ⟨texts, _, hparts, _⟩ := junction_ok htext
    obtain ⟨inner, hinner⟩ := parts_ok hparts _ hmem
    obtain ⟨s', hvisits⟩ := ih hinner
    exact ⟨s', .junction hmem hvisits⟩
  | quantified _ ih =>
    obtain ⟨resolved, inner, hresolved, hinner, _⟩ := quantified_ok htext
    obtain ⟨s', hvisits⟩ := ih hinner
    exact ⟨s', .quantified hresolved hvisits⟩

end OData

end EntityCache
