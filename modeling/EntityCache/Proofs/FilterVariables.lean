import EntityCache.Proofs.QuantifierRanges
import EntityCache.Proofs.WrittenFilters

/-! The variables of quantifiers. A quantifier inside `d` others binds the variable numbered
`d + 1`, so the variables of nested quantifiers differ, and each path begins with the variable
of the innermost quantifier around it and is resolved against the type of its elements. -/
namespace EntityCache

def variableAt (depth : Nat) : String := "x" ++ toString depth

namespace WrittenOperand

mutual
/-- The paths begin with the variable of the innermost enclosing quantifier, or with none
where there is no such quantifier. -/
def RootedIn (enclosing : List String) : WrittenOperand → Prop
  | literal _ => True
  | path root _ => root = enclosing.head?
  | call _ args => AllRootedIn enclosing args

def AllRootedIn (enclosing : List String) : List WrittenOperand → Prop
  | [] => True
  | a :: rest => RootedIn enclosing a ∧ AllRootedIn enclosing rest
end

end WrittenOperand

namespace WrittenFilter

mutual
/-- The filter inside quantifiers that bind these variables, the innermost first. -/
def WellScoped (enclosing : List String) : WrittenFilter → Prop
  | comparison _ left right => left.RootedIn enclosing ∧ right.RootedIn enclosing
  | membership left values =>
    left.RootedIn enclosing ∧ WrittenOperand.AllRootedIn enclosing values
  | negation f => WellScoped enclosing f
  | junction _ parts => AllWellScoped enclosing parts
  | quantified _ root _ bound body =>
    root = enclosing.head? ∧ bound = variableAt (enclosing.length + 1) ∧
      (bound :: enclosing).Nodup ∧ WellScoped (bound :: enclosing) body
  | raw _ => True

def AllWellScoped (enclosing : List String) : List WrittenFilter → Prop
  | [] => True
  | f :: rest => WellScoped enclosing f ∧ AllWellScoped enclosing rest
end

end WrittenFilter

namespace OData

def openVariables : Nat → List String
  | 0 => []
  | depth + 1 => variableAt (depth + 1) :: openVariables depth

@[simp] theorem length_openVariables (depth : Nat) : (openVariables depth).length = depth := by
  induction depth with
  | zero => rfl
  | succ depth ih => simp [openVariables, ih]

theorem variableAt_inj {d e : Nat} (h : variableAt d = variableAt e) : d = e := by
  have hdigits : Nat.toDigits 10 d = Nat.toDigits 10 e := by
    simpa [variableAt, Nat.repr_eq_ofList_toDigits] using congrArg String.toList h
  calc
    d = Nat.ofDigitChars 10 (Nat.toDigits 10 d) 0 := Nat.ofDigitChars_ten_toDigits.symm
    _ = Nat.ofDigitChars 10 (Nat.toDigits 10 e) 0 := by rw [hdigits]
    _ = e := Nat.ofDigitChars_ten_toDigits

theorem mem_openVariables {x : String} {depth : Nat} (h : x ∈ openVariables depth) :
    ∃ d ≤ depth, x = variableAt d := by
  induction depth with
  | zero => cases h
  | succ depth ih =>
    rcases List.mem_cons.mp h with rfl | h
    · exact ⟨depth + 1, Nat.le_refl _, rfl⟩
    · obtain ⟨d, hd, hx⟩ := ih h
      exact ⟨d, Nat.le_succ_of_le hd, hx⟩

theorem openVariables_nodup (depth : Nat) : (openVariables depth).Nodup := by
  induction depth with
  | zero => exact List.nodup_nil
  | succ depth ih =>
    refine List.nodup_cons.mpr ⟨fun hmem => ?_, ih⟩
    obtain ⟨d, hd, hsame⟩ := mem_openVariables hmem
    have heq : depth + 1 = d := variableAt_inj hsame
    omega

def IsNested (s : Scope) : Prop := s.lambda = (openVariables s.depth).head?

theorem outermost_nested (c : Catalog) (t : Target) : IsNested (Scope.outermost c t) := rfl

theorem nextVariable_eq (s : Scope) : s.nextVariable = variableAt (s.depth + 1) := rfl

theorem enter_nested (s : Scope) (element : Target) : IsNested (s.enter element) := by
  change some s.nextVariable = _
  rw [nextVariable_eq]
  rfl

theorem rooted_joined (s : Scope) (names : List String) :
    s.rooted ("/".intercalate names) = pathText s.lambda names := by
  unfold Scope.rooted pathText
  split <;> simp [*]

mutual
theorem operand_written {s : Scope} (hs : IsNested s) {adopted : Option DataType} :
    (e : Expr) → {text : String} → operand s adopted e = .ok (.one text) →
      ∃ w : WrittenOperand, w.text = text ∧ OperandOf s.catalog s.start e w ∧
        w.RootedIn (openVariables s.depth)
  | .literal v own, text, h => by
    rcases literal_ok h with ⟨_, _, _, _, hmany⟩ | ⟨_, htext, hone⟩
    · cases hmany
    · cases hone
      exact ⟨.literal text, by simp, .literal htext, trivial⟩
  | .property p, _, h => by
    obtain ⟨text, htext, hone⟩ := map_ok h
    obtain ⟨resolved, hresolved, rfl⟩ := map_ok htext
    cases hone
    refine ⟨.path s.lambda resolved.segments, ?_, .path hresolved, hs⟩
    rw [WrittenOperand.text_path, ← rooted_joined]
    rfl
  | .call name args, _, h => by
    unfold operand at h
    split at h
    · cases h
    · rename_i texts htexts
      cases h
      obtain ⟨ws, rfl, hargs, hrooted⟩ := arguments_written hs args htexts
      exact ⟨.call name ws, by simp, .call hargs, hrooted⟩

theorem arguments_written {s : Scope} (hs : IsNested s) :
    (args : List Expr) → {texts : List String} → arguments s args = .ok texts →
      ∃ ws : List WrittenOperand, ws.map WrittenOperand.text = texts ∧
        OperandsOf s.catalog s.start args ws ∧
        WrittenOperand.AllRootedIn (openVariables s.depth) ws
  | [], _, h => by
    cases h
    exact ⟨[], rfl, .nil, trivial⟩
  | e :: rest, _, h => by
    unfold arguments at h
    split at h
    · cases h
    rename_i fragment hfragment
    split at h
    · cases h
    rename_i text htext
    obtain ⟨others, hothers, rfl⟩ := map_ok h
    rw [single_ok htext] at hfragment
    obtain ⟨w, rfl, he, hrooted⟩ := operand_written hs e hfragment
    obtain ⟨ws, rfl, hes, hall⟩ := arguments_written hs rest hothers
    exact ⟨w :: ws, rfl, .cons he hes, hrooted, hall⟩
end

theorem literals_rooted (enclosing texts : List String) :
    WrittenOperand.AllRootedIn enclosing (texts.map .literal) := by
  induction texts with
  | nil => trivial
  | cons text rest ih => exact ⟨trivial, ih⟩

/-- The right side of a membership, which may be rendered as several texts. -/
theorem values_written {s : Scope} (hs : IsNested s) {adopted : Option DataType} {e : Expr}
    {fragment : Fragment} (h : operand s adopted e = .ok fragment) :
    ∃ ws : List WrittenOperand, ws.map WrittenOperand.text = fragment.texts ∧
      ValuesOf s.catalog s.start e ws ∧
      WrittenOperand.AllRootedIn (openVariables s.depth) ws := by
  cases fragment with
  | one text =>
    obtain ⟨w, rfl, he, hrooted⟩ := operand_written hs e h
    exact ⟨[w], rfl, .one he, hrooted, trivial⟩
  | many texts =>
    obtain ⟨items, own, rfl, htexts⟩ := operand_many h
    exact ⟨texts.map .literal, by simp [Fragment.texts, Function.comp_def], .list htexts,
      literals_rooted _ texts⟩

theorem membership_texts (left : String) (fragment : Fragment) :
    membership left fragment = membership left (.many fragment.texts) := by
  cases fragment <;> rfl

theorem binary_written {s : Scope} (hs : IsNested s) {op : BinaryOperator} {left right : Expr}
    {text : String} (h : binary s op left right = .ok text) :
    ∃ f : WrittenFilter, f.text = text ∧
      FilterOf s.catalog s.start (.binary op left right) f ∧
      f.WellScoped (openVariables s.depth) := by
  obtain ⟨l, hl, h⟩ := bind_ok h
  obtain ⟨left', hleft, h⟩ := bind_ok h
  obtain ⟨r, hr, h⟩ := bind_ok h
  rw [single_ok hleft] at hl
  obtain ⟨w, rfl, hw, hrooted⟩ := operand_written hs left hl
  by_cases hop : op = .isIn
  · subst hop
    cases h
    obtain ⟨ws, htexts, hws, hall⟩ := values_written hs hr
    refine ⟨.membership w ws, ?_, .membership hw hws, hrooted, hall⟩
    rw [WrittenFilter.text_membership, htexts, ← membership_texts]
  · rw [if_neg hop] at h
    obtain ⟨right', hright, h⟩ := bind_ok h
    cases h
    rw [single_ok hright] at hr
    obtain ⟨w', rfl, hw', hrooted'⟩ := operand_written hs right hr
    exact ⟨.comparison op w w', by simp, .comparison hop hw hw', hrooted, hrooted'⟩

mutual
/-- In a scope that is nested so deep, each path begins with the variable of that scope. -/
theorem predicate_written {s : Scope} (hs : IsNested s) :
    (p : Predicate) → {text : String} → predicate s p = .ok text →
      ∃ f : WrittenFilter, f.text = text ∧ FilterOf s.catalog s.start p f ∧
        f.WellScoped (openVariables s.depth)
  | .binary op left right, _, h => binary_written hs h
  | .negation p, _, h => by
    obtain ⟨inner, hinner, rfl⟩ := negation_ok h
    obtain ⟨f, rfl, hf, hscoped⟩ := predicate_written hs p hinner
    exact ⟨.negation f, by simp, .negation hf, hscoped⟩
  | .junction op ps, _, h => by
    obtain ⟨texts, _, hparts, rfl⟩ := junction_ok h
    obtain ⟨fs, rfl, hfs, hscoped⟩ := parts_written hs ps hparts
    exact ⟨.junction op fs, by simp, .junction hfs, hscoped⟩
  | .quantified op path body, _, h => by
    obtain ⟨resolved, inner, hover, hinner, rfl⟩ := quantified_ok h
    obtain ⟨f, rfl, hf, hscoped⟩ :=
      predicate_written (enter_nested s resolved.target) body hinner
    refine ⟨.quantified op s.lambda resolved.segments s.nextVariable f, ?_,
      .quantified (collection_ok hover).1 hf, hs, ?_, openVariables_nodup (s.depth + 1), hscoped⟩
    · rw [WrittenFilter.text_quantified, ← rooted_joined]
      rfl
    · rw [length_openVariables, nextVariable_eq]
  | .raw text, _, h => by
    cases h
    exact ⟨.raw text, by simp, .raw, trivial⟩

theorem parts_written {s : Scope} (hs : IsNested s) :
    (ps : List Predicate) → {texts : List String} → parts s ps = .ok texts →
      ∃ fs : List WrittenFilter, (fs.map fun f => "(" ++ f.text ++ ")") = texts ∧
        FiltersOf s.catalog s.start ps fs ∧
        WrittenFilter.AllWellScoped (openVariables s.depth) fs
  | [], _, h => by
    cases h
    exact ⟨[], rfl, .nil, trivial⟩
  | p :: rest, _, h => by
    obtain ⟨text, others, htext, hothers, rfl⟩ := parts_cons_ok h
    obtain ⟨f, rfl, hf, hscoped⟩ := predicate_written hs p htext
    obtain ⟨fs, rfl, hfs, hall⟩ := parts_written hs rest hothers
    exact ⟨f :: fs, rfl, .cons hf hfs, hscoped, hall⟩
end

/-- A filter is written with well scoped variables: each of its paths begins with the variable
of the innermost quantifier around it and goes on as that quantifier's elements are named. -/
theorem predicate_wellScoped {c : Catalog} {t : Target} {p : Predicate} {text : String}
    (h : predicate (Scope.outermost c t) p = .ok text) :
    ∃ f : WrittenFilter, f.text = text ∧ FilterOf c t p f ∧ f.WellScoped [] :=
  predicate_written (outermost_nested c t) p h

def crowdedOrders : Predicate :=
  .quantified .any "orders" (.junction .or
    [.negation (.quantified .all "customer.orders"
        (.binary .lessThan (.property "id") (.property "customer.id"))),
      .binary .equals (.call "round" [.property "freight"]) (.literal (.integer 1) none)])

theorem crowdedOrders_wellScoped :
    predicate (Scope.outermost orderCatalog (.entity customerType)) crowdedOrders =
        .ok ("orders/any(x1: (not (x1/customer/orders/all(x2: x2/id lt x2/customer/id))) " ++
          "or (round(x1/freight) eq 1d))") ∧
      ∃ f : WrittenFilter,
        f.text = "orders/any(x1: (not (x1/customer/orders/all(x2: x2/id lt x2/customer/id))) " ++
          "or (round(x1/freight) eq 1d))" ∧
        FilterOf orderCatalog (.entity customerType) crowdedOrders f ∧ f.WellScoped [] := by
  have htext : predicate (Scope.outermost orderCatalog (.entity customerType)) crowdedOrders =
      .ok ("orders/any(x1: (not (x1/customer/orders/all(x2: x2/id lt x2/customer/id))) " ++
        "or (round(x1/freight) eq 1d))") := by decide +kernel
  exact ⟨htext, predicate_wellScoped htext⟩

end OData

end EntityCache
