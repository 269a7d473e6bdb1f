import EntityCache.Proofs.FilterBuilding

/-! From the calls to the text and back. The combinators flatten junctions and strip double
negations on the way, but the text of what they build is read back as a formula of the same
meaning. -/
namespace EntityCache

namespace OData

open Formula (Equivalent)

theorem meanings_cons {s : Scope} {p : Predicate} {ps : List Predicate} {gs : List Formula}
    (h : meanings s (p :: ps) = some gs) :
    ∃ f fs, meaning s p = some f ∧ meanings s ps = some fs ∧ gs = f :: fs := by
  obtain ⟨f, hf, h⟩ := Option.bind_eq_some_iff.mp h
  obtain ⟨fs, hfs, h⟩ := Option.bind_eq_some_iff.mp h
  exact ⟨f, fs, hf, hfs, (Option.some.inj h).symm⟩

theorem meanings_append {s : Scope} {ps : List Predicate} {q : Predicate} {gs : List Formula}
    (h : meanings s (ps ++ [q]) = some gs) :
    ∃ fs g, meanings s ps = some fs ∧ meaning s q = some g ∧ gs = fs ++ [g] := by
  induction ps generalizing gs with
  | nil =>
    obtain ⟨g, _, hg, hnil, rfl⟩ := meanings_cons h
    cases hnil
    exact ⟨[], g, rfl, hg, rfl⟩
  | cons p rest ih =>
    obtain ⟨f, fs, hf, hfs, rfl⟩ := meanings_cons h
    obtain ⟨fs, g, hrest, hg, rfl⟩ := ih hfs
    exact ⟨f :: fs, g, meanings_of_parts hf hrest, hg, rfl⟩

/-- A single part stands alone, and so does its formula. -/
theorem meaning_join {s : Scope} {op : BooleanOperator} {ps : List Predicate} {p : Predicate}
    (h : Predicate.join op ps = .ok p) :
    Formula.ofParts op (meanings s ps) = meaning s p := by
  match ps, h with
  | [], h => cases h
  | [q], h =>
    cases h
    cases hq : meaning s p with
    | none =>
      have hnone : meanings s [p] = none := Option.bind_eq_none_iff.mpr fun f hf => by
        cases hq.symm.trans hf
      rw [hnone]
      rfl
    | some f =>
      rw [meanings_of_parts hq rfl]
      rfl
  | q :: q' :: rest, h =>
    cases h
    rfl

theorem meaning_pair {s : Scope} {op : BooleanOperator} {p q : Predicate} {k : Formula}
    (h : meaning s (.junction op [p, q]) = some k) :
    ∃ f g, meaning s p = some f ∧ meaning s q = some g ∧ k = .junction op f g := by
  change Formula.ofParts op (meanings s [p, q]) = some k at h
  cases hgs : meanings s [p, q] with
  | none => simp [hgs, Formula.ofParts] at h
  | some gs =>
    obtain ⟨f, fs, hf, hfs, rfl⟩ := meanings_cons hgs
    obtain ⟨g, _, hg, hnil, rfl⟩ := meanings_cons hfs
    cases hnil
    rw [hgs] at h
    exact ⟨f, g, hf, hg, (Option.some.inj h).symm⟩

/-- Taking the second predicate into a junction means the same as joining the two. -/
theorem meaning_combine {s : Scope} {op : BooleanOperator} {p q : Predicate} {k : Formula}
    (hp : Stocked p) (h : meaning s (Predicate.combine op p q) = some k) :
    ∃ f g, meaning s p = some f ∧ meaning s q = some g ∧
      k.Equivalent (.junction op f g) := by
  have hpair : meaning s (.junction op [p, q]) = some k →
      ∃ f g, meaning s p = some f ∧ meaning s q = some g ∧
        k.Equivalent (.junction op f g) := by
    intro hk
    obtain ⟨f, g, hf, hg, rfl⟩ := meaning_pair hk
    exact ⟨f, g, hf, hg, .refl _⟩
  cases p with
  | junction op' parts =>
    by_cases hop : op' = op
    · subst hop
      have hflat : Predicate.combine op' (.junction op' parts) q =
          .junction op' (parts ++ [q]) := by
        simp [Predicate.combine]
      rw [hflat] at h
      change Formula.ofParts op' (meanings s (parts ++ [q])) = some k at h
      cases hgs : meanings s (parts ++ [q]) with
      | none => simp [hgs, Formula.ofParts] at h
      | some gs =>
        obtain ⟨fs, g, hfs, hg, rfl⟩ := meanings_append hgs
        obtain ⟨p, rest, rfl⟩ := List.exists_cons_of_ne_nil hp.1
        obtain ⟨f, fs, hf, hrest, rfl⟩ := meanings_cons hfs
        rw [hgs] at h
        refine ⟨Formula.chain op' f fs, g, ?_, hg, ?_⟩
        · change Formula.ofParts op' (meanings s (p :: rest)) = _
          rw [hfs]
          rfl
        · rw [← Option.some.inj h]
          exact Equivalent.chain_append op' f fs g
    · apply hpair
      have hkept : Predicate.combine op (.junction op' parts) q =
          .junction op [.junction op' parts, q] := by
        simp [Predicate.combine, hop]
      rwa [hkept] at h
  | _ => exact hpair h

theorem meaning_negate {s : Scope} {p : Predicate} {k : Formula}
    (h : meaning s p.negate = some k) :
    ∃ f, meaning s p = some f ∧ k.Equivalent (.not f) := by
  have hkept : meaning s (.negation p) = some k →
      ∃ f, meaning s p = some f ∧ k.Equivalent (.not f) := by
    intro hk
    obtain ⟨f, hf, rfl⟩ := Option.map_eq_some_iff.mp hk
    exact ⟨f, hf, .refl _⟩
  cases p with
  | negation p =>
    refine ⟨.not k, ?_, (Equivalent.not_not k).symm⟩
    exact Option.map_eq_some_iff.mpr ⟨k, h, rfl⟩
  | _ => exact hkept h

theorem meaning_foldl {s : Scope} {p : Predicate} {ps : List Predicate} {k : Formula}
    (hp : Stocked p) (hps : AllStocked ps)
    (h : meaning s (ps.foldl Predicate.andAlso p) = some k) :
    ∃ f fs, meaning s p = some f ∧ meanings s ps = some fs ∧
      k.Equivalent (Formula.chain .and f fs) := by
  induction ps generalizing p with
  | nil => exact ⟨k, [], h, rfl, .refl _⟩
  | cons q rest ih =>
    obtain ⟨f', fs, hf', hfs, hk⟩ := ih (combine_stocked hp hps.1) hps.2 h
    obtain ⟨f, g, hf, hg, hjoined⟩ := meaning_combine hp hf'
    refine ⟨f, g :: fs, hf, meanings_of_parts hg hfs, ?_⟩
    have hfirst : (Formula.chain .and f' fs).Equivalent
        (Formula.chain .and (.junction .and f g) fs) :=
      Equivalent.chain .and hjoined (List.forall₂_same.mpr fun x _ => Equivalent.refl x)
    exact (hk.trans hfirst).trans (Equivalent.chain_cons .and f g fs)

end OData

namespace Construction

open OData (Formula)

/-- Where the predicate has a formula, what the calls describe has one of the same value. -/
def Describes (s : Scope) (c : Construction) (p : Predicate) : Prop :=
  ∀ k, OData.meaning s p = some k → ∃ f, c.formula s = some f ∧ f.Equivalent k

def DescribesAll (s : Scope) (cs : List Construction) (ps : List Predicate) : Prop :=
  ∀ ks, OData.meanings s ps = some ks →
    ∃ fs, formulas s cs = some fs ∧ List.Forall₂ Formula.Equivalent fs ks

section Describes

variable {s : Scope} {c d : Construction} {cs : List Construction} {p q : Predicate}
  {ps : List Predicate}

theorem comparison_describes {left operator : String} {right : Expr} {op : BinaryOperator}
    {e : Expr} (hop : BinaryOperator.parse operator = .ok op) (he : Expr.parse left = .ok e)
    {k : Formula} (h : OData.meaning s (.binary op e right) = some k) :
    comparison s left operator right = some k := by
  simp only [comparison, hop, he]
  exact h

theorem create_describes {left operator : String} {v : Value}
    (h : Predicate.create left operator v = .ok p) : Describes s (.create left operator v) p := by
  obtain ⟨op, hop, h⟩ := bind_ok h
  obtain ⟨_, _, h⟩ := bind_ok h
  obtain ⟨e, he, h⟩ := bind_ok h
  cases h
  intro k hk
  exact ⟨k, comparison_describes hop he hk, .refl k⟩

theorem compare_describes {left operator : String} {right : Expr}
    (h : Predicate.compare left operator right = .ok p) :
    Describes s (.compare left operator right) p := by
  obtain ⟨op, hop, h⟩ := bind_ok h
  by_cases hin : op = .isIn
  · rw [if_pos hin] at h
    cases h
  · rw [if_neg hin] at h
    obtain ⟨e, he, h⟩ := bind_ok h
    cases h
    intro k hk
    exact ⟨k, comparison_describes hop he hk, .refl k⟩

theorem join_describes {op : BooleanOperator} (hparts : DescribesAll s cs ps)
    (h : Predicate.join op ps = .ok p) : Describes s (.join op cs) p := by
  intro k hk
  rw [← OData.meaning_join h] at hk
  cases hks : OData.meanings s ps with
  | none => simp [hks, Formula.ofParts] at hk
  | some ks =>
    obtain ⟨fs, hfs, hsame⟩ := hparts ks hks
    rw [hks] at hk
    cases hsame with
    | nil => simp [Formula.ofParts] at hk
    | cons hfirst hrest =>
      rw [← Option.some.inj hk]
      refine ⟨_, ?_, Formula.Equivalent.chain op hfirst hrest⟩
      change Formula.ofParts op (formulas s cs) = _
      rw [hfs]
      rfl

theorem not_describes (h : Describes s c p) : Describes s (.not c) (.negation p) := by
  intro k hk
  obtain ⟨g, hg, rfl⟩ := Option.map_eq_some_iff.mp hk
  obtain ⟨f, hf, hsame⟩ := h g hg
  refine ⟨.not f, ?_, hsame.not⟩
  exact Option.map_eq_some_iff.mpr ⟨f, hf, rfl⟩

theorem quantified_describes {op : Quantifier} {path : String}
    (h : ∀ inner, Describes inner c p) :
    Describes s (.quantified op path c) (.quantified op path p) := by
  intro k hk
  simp only [OData.meaning, Formula.ranging] at hk
  split at hk
  · rename_i resolved hresolved
    obtain ⟨g, hg, rfl⟩ := Option.map_eq_some_iff.mp hk
    obtain ⟨f, hf, hsame⟩ := h (s.enter resolved.target) g hg
    refine ⟨_, ?_, hsame.quantified op _ _⟩
    change Formula.ranging s op path _ = _
    simp [Formula.ranging, hresolved, hf]
  · cases hk

theorem combine_describes {op : BooleanOperator} (hp : OData.Stocked p)
    (hfirst : Describes s c p) (hsecond : Describes s d q) :
    Describes s (.combine op c d) (Predicate.combine op p q) := by
  intro k hk
  obtain ⟨f, g, hf, hg, hk⟩ := OData.meaning_combine hp hk
  obtain ⟨f', hf', hleft⟩ := hfirst f hf
  obtain ⟨g', hg', hright⟩ := hsecond g hg
  refine ⟨.junction op f' g', ?_, (hleft.junction op hright).trans hk.symm⟩
  exact Option.bind_eq_some_iff.mpr ⟨f', hf', Option.bind_eq_some_iff.mpr ⟨g', hg', rfl⟩⟩

theorem negate_describes (h : Describes s c p) : Describes s (.negate c) p.negate := by
  intro k hk
  obtain ⟨g, hg, hk⟩ := OData.meaning_negate hk
  obtain ⟨f, hf, hsame⟩ := h g hg
  refine ⟨.not f, ?_, hsame.not.trans hk.symm⟩
  exact Option.map_eq_some_iff.mpr ⟨f, hf, rfl⟩

theorem filters_describes (hp : OData.Stocked p) (hps : OData.AllStocked ps)
    (hfirst : Describes s c p) (hothers : DescribesAll s cs ps) :
    Describes s (.filters c cs) (filtered p ps) := by
  intro k hk
  rw [filtered_eq] at hk
  obtain ⟨f, fs, hf, hfs, hk⟩ := OData.meaning_foldl hp hps hk
  obtain ⟨f', hf', hleft⟩ := hfirst f hf
  obtain ⟨fs', hfs', hright⟩ := hothers fs hfs
  refine ⟨Formula.chain .and f' fs', ?_, (hleft.chain .and hright).trans hk.symm⟩
  exact Option.bind_eq_some_iff.mpr ⟨f', hf', Option.bind_eq_some_iff.mpr ⟨fs', hfs', rfl⟩⟩

theorem nil_describes : DescribesAll s [] [] := by
  intro ks hks
  cases hks
  exact ⟨[], rfl, .nil⟩

theorem cons_describes (hfirst : Describes s c p) (hothers : DescribesAll s cs ps) :
    DescribesAll s (c :: cs) (p :: ps) := by
  intro ks hks
  obtain ⟨g, gs, hg, hgs, rfl⟩ := OData.meanings_cons hks
  obtain ⟨f, hf, hsame⟩ := hfirst g hg
  obtain ⟨fs, hfs, hall⟩ := hothers gs hgs
  refine ⟨f :: fs, ?_, .cons hsame hall⟩
  exact Option.bind_eq_some_iff.mpr ⟨f, hf, Option.bind_eq_some_iff.mpr ⟨fs, hfs, rfl⟩⟩

end Describes

mutual
/-- In every scope, because a quantifier's body is built in none and rendered in its own. -/
theorem build_describes (s : Scope) :
    (c : Construction) → {p : Predicate} → c.build = .ok p → Describes s c p
  | create _ _ _, _, h => create_describes h
  | compare _ _ _, _, h => compare_describes h
  | join _ parts, _, h => by
    obtain ⟨ps, hps, h⟩ := bind_ok h
    exact join_describes (buildAll_describes s parts hps) h
  | not c, _, h => by
    obtain ⟨p, hp, rfl⟩ := map_ok h
    exact not_describes (build_describes s c hp)
  | quantified _ _ body, _, h => by
    obtain ⟨p, hp, rfl⟩ := map_ok h
    exact quantified_describes fun inner => build_describes inner body hp
  | combine _ first second, _, h => by
    obtain ⟨p, hp, h⟩ := bind_ok h
    obtain ⟨q, hq, h⟩ := bind_ok h
    cases h
    exact combine_describes (build_stocked first hp) (build_describes s first hp)
      (build_describes s second hq)
  | negate c, _, h => by
    obtain ⟨p, hp, rfl⟩ := map_ok h
    exact negate_describes (build_describes s c hp)
  | filters first others, _, h => by
    obtain ⟨p, hp, h⟩ := bind_ok h
    obtain ⟨ps, hps, h⟩ := bind_ok h
    cases h
    exact filters_describes (build_stocked first hp) (buildAll_stocked others hps)
      (build_describes s first hp) (buildAll_describes s others hps)

theorem buildAll_describes (s : Scope) :
    (cs : List Construction) → {ps : List Predicate} → buildAll cs = .ok ps →
      DescribesAll s cs ps
  | [], _, h => by
    cases h
    exact nil_describes
  | c :: rest, _, h => by
    obtain ⟨p, hp, h⟩ := bind_ok h
    obtain ⟨ps, hps, h⟩ := bind_ok h
    cases h
    exact cons_describes (build_describes s c hp) (buildAll_describes s rest hps)
end

/-- The text of a predicate means what the calls that built it say: it is read back as a
formula over the same comparisons that has the same value under every assignment to them,
and the same quantifiers with bodies of which that is true in turn. -/
theorem rendered_means_same {c : Construction} {p : Predicate} (hbuild : c.build = .ok p)
    {catalog : Catalog} {start : Target}
    (hlegible : OData.Legible (Scope.outermost catalog start) p) {text : String}
    (htext : OData.predicate (Scope.outermost catalog start) p = .ok text) :
    ∃ f g, c.formula (Scope.outermost catalog start) = some f ∧
      OData.readFilter text = some g ∧ g.Equivalent f := by
  obtain ⟨e, rfl, hmeaning⟩ := OData.predicate_phrase (OData.outermost_rooted catalog start) p
    (build_stocked c hbuild) hlegible htext
  obtain ⟨f, hf, hsame⟩ := build_describes _ c hbuild e.formula hmeaning
  exact ⟨f, e.formula, hf, e.readFilter, hsame.symm⟩

/-- Everything that could be misread: two filters, a membership of texts that look like the
end of a group and like an operator, and a quantifier, negated together. -/
def lateOrders : Construction :=
  .negate (.combine .or
    (.filters (.create "Freight" "lt" (.integer 10))
      [.create "City" "in" (.list [.text "Cork) or (a", .text "O'Hara"])])
    (.not (.quantified .any "Orders" (.compare "Note" "eq" (.call "trim" [.property "Text"])))))

def lateOrdersPredicate : Predicate :=
  .negation (.junction .or
    [.junction .and
      [.binary .lessThan (.property "Freight") (.literal (.integer 10) none),
        .binary .isIn (.property "City")
          (.literal (.list [.text "Cork) or (a", .text "O'Hara"]) none)],
      .negation (.quantified .any "Orders"
        (.binary .equals (.property "Note") (.call "trim" [.property "Text"])))])

def lateOrdersText : String :=
  "not (((Freight lt 10) and ((City eq 'Cork) or (a') or (City eq 'O''Hara'))) or " ++
    "(not (Orders/any(x1: x1/Note eq trim(x1/Text)))))"

theorem lateOrders_build : lateOrders.build = .ok lateOrdersPredicate := by
  have hlt : spelling "lt" = "lt" := by decide +kernel
  have hin : spelling "in" = "in" := by decide +kernel
  have heq : spelling "eq" = "eq" := by decide +kernel
  simp only [lateOrders, build, buildAll, Predicate.create, Predicate.compare,
    BinaryOperator.parse, bySpelling, hlt, hin, heq]
  rfl

theorem lateOrders_legible :
    OData.Legible (Scope.outermost {} .anonymous) lateOrdersPredicate := by
  have hnames : ∀ name ∈ ["Freight", "City", "Orders", "Note", "Text", "trim"],
      OData.IsName name := by decide +kernel
  have hpath : ∀ s : Scope, s.catalog = {} → s.start = .anonymous →
      ∀ name ∈ ["Freight", "City", "Note", "Text"], OData.LegiblePath s name := by
    intro s hcatalog hstart name hname
    simp only [List.mem_cons, List.not_mem_nil, or_false] at hname
    have hresolved : s.catalog.resolvePath s.start name =
        .ok ⟨[name], none, .anonymous, false⟩ := by
      rw [hcatalog, hstart]
      rcases hname with rfl | rfl | rfl | rfl <;> rfl
    apply OData.legiblePath_of_resolved hresolved
    intro other hother
    rw [List.mem_singleton.mp hother]
    rcases hname with rfl | rfl | rfl | rfl <;> exact hnames _ (by simp)
  have hten : OData.IsWritable .undefined (.integer 10) := Or.inr (by decide)
  have hcities : ∀ v ∈ [Value.text "Cork) or (a", .text "O'Hara"],
      OData.IsWritable .undefined v := by
    simp [OData.IsWritable, OData.writtenAs, DataType.ofValue]
  have hany : OData.Legible (Scope.outermost {} .anonymous) (.quantified .any "Orders"
      (.binary .equals (.property "Note") (.call "trim" [.property "Text"]))) := by
    intro resolved hresolved
    have hcollection : OData.collection (Scope.outermost {} .anonymous) "Orders" =
        .ok ⟨["Orders"], none, .anonymous, false⟩ := rfl
    rw [hcollection] at hresolved
    cases hresolved
    have hnote := hpath ((Scope.outermost {} .anonymous).enter .anonymous) rfl rfl "Note"
    have htext := hpath ((Scope.outermost {} .anonymous).enter .anonymous) rfl rfl "Text"
    exact ⟨by simp [hnames], hnote (by simp), hnames _ (by simp), htext (by simp), trivial⟩
  have hfreight := hpath (Scope.outermost {} .anonymous) rfl rfl "Freight" (by simp)
  have hcity := hpath (Scope.outermost {} .anonymous) rfl rfl "City" (by simp)
  exact ⟨⟨⟨hfreight, hten⟩, ⟨hcity, hcities⟩, trivial⟩, hany, trivial⟩

theorem lateOrders_means_same :
    lateOrders.build = .ok lateOrdersPredicate ∧
      OData.Legible (Scope.outermost {} .anonymous) lateOrdersPredicate ∧
      OData.predicate (Scope.outermost {} .anonymous) lateOrdersPredicate = .ok lateOrdersText ∧
      ∃ f g, lateOrders.formula (Scope.outermost {} .anonymous) = some f ∧
        OData.readFilter lateOrdersText = some g ∧ g.Equivalent f := by
  have htext : OData.predicate (Scope.outermost {} .anonymous) lateOrdersPredicate =
      .ok lateOrdersText := by decide +kernel
  exact ⟨lateOrders_build, lateOrders_legible, htext,
    rendered_means_same lateOrders_build lateOrders_legible htext⟩

end Construction

end EntityCache
