import EntityCache.Proofs.FilterMeaning
import EntityCache.Query.Basic

/-! The calls that build a filter, and the formula that they describe. What they build has
parts in every junction and values in every membership, which the renderer relies on. -/
namespace EntityCache

/-- A nesting of the calls that build predicates. `combine` is `andAlso` or `orElse`, and
`filters` is what a query has been filtered by in several calls. -/
inductive Construction where
  | create (left operator : String) (v : Value)
  | compare (left operator : String) (right : Expr)
  | join (op : BooleanOperator) (parts : List Construction)
  | not (c : Construction)
  | quantified (op : Quantifier) (path : String) (body : Construction)
  | combine (op : BooleanOperator) (first second : Construction)
  | negate (c : Construction)
  | filters (first : Construction) (others : List Construction)

namespace Construction

def filtered (first : Predicate) (others : List Predicate) : Predicate :=
  ((others.foldl Query.filter (Query.filter {} first)).predicate).getD first

mutual
def build : Construction → Except Fault Predicate
  | create left operator v => Predicate.create left operator v
  | compare left operator right => Predicate.compare left operator right
  | join op parts => buildAll parts >>= Predicate.join op
  | not c => (build c).map .negation
  | quantified op path body => (build body).map (.quantified op path)
  | combine op first second => do
    let p ← build first
    let q ← build second
    return Predicate.combine op p q
  | negate c => (build c).map Predicate.negate
  | filters first others => do
    let p ← build first
    let ps ← buildAll others
    return filtered p ps

def buildAll : List Construction → Except Fault (List Predicate)
  | [] => .ok []
  | c :: rest => do
    let p ← build c
    let ps ← buildAll rest
    return p :: ps
end

def comparison (s : Scope) (left operator : String) (right : Expr) : Option OData.Formula :=
  match BinaryOperator.parse operator, Expr.parse left with
  | .ok op, .ok e => OData.Formula.compared s op e right
  | _, _ => none

mutual
/-- The formula that the calls describe, with each operand and path as it is rendered in the
scope where it stands. -/
def formula (s : Scope) : Construction → Option OData.Formula
  | create left operator v => comparison s left operator (.literal v none)
  | compare left operator right => comparison s left operator right
  | join op parts => OData.Formula.ofParts op (formulas s parts)
  | not c => (formula s c).map .not
  | quantified op path body => OData.Formula.ranging s op path fun inner => formula inner body
  | combine op first second => do
    let f ← formula s first
    let g ← formula s second
    return .junction op f g
  | negate c => (formula s c).map .not
  | filters first others => do
    let f ← formula s first
    let fs ← formulas s others
    return OData.Formula.chain .and f fs

def formulas (s : Scope) : List Construction → Option (List OData.Formula)
  | [] => some []
  | c :: rest => do
    let f ← formula s c
    let fs ← formulas s rest
    return f :: fs
end

theorem foldl_filter {q : Query} {p : Predicate} (h : q.predicate = some p)
    (ps : List Predicate) :
    (ps.foldl Query.filter q).predicate = some (ps.foldl Predicate.andAlso p) := by
  induction ps generalizing q p with
  | nil => exact h
  | cons next rest ih =>
    apply ih
    simp [Query.filter, h]

theorem filtered_eq (first : Predicate) (others : List Predicate) :
    filtered first others = others.foldl Predicate.andAlso first := by
  have hfirst : (Query.filter {} first).predicate = some first := rfl
  simp [filtered, foldl_filter hfirst]

end Construction

namespace OData

theorem allStocked_append {ps : List Predicate} {q : Predicate} (hps : AllStocked ps)
    (hq : Stocked q) : AllStocked (ps ++ [q]) := by
  induction ps with
  | nil => exact ⟨hq, trivial⟩
  | cons p rest ih => exact ⟨hps.1, ih hps.2⟩

theorem checkOperand_isIn {left : String} {v : Value} {u : Unit}
    (h : Predicate.checkOperand left .isIn v = .ok u) : ∃ w ws, v = .list (w :: ws) := by
  cases v with
  | list items =>
    cases items with
    | nil => cases h
    | cons w ws => exact ⟨w, ws, rfl⟩
  | _ => cases h

theorem create_stocked {left operator : String} {v : Value} {p : Predicate}
    (h : Predicate.create left operator v = .ok p) : Stocked p := by
  obtain ⟨op, _, h⟩ := bind_ok h
  obtain ⟨_, hcheck, h⟩ := bind_ok h
  obtain ⟨e, _, h⟩ := bind_ok h
  cases h
  rintro rfl
  obtain ⟨w, ws, rfl⟩ := checkOperand_isIn hcheck
  exact ⟨w, ws, none, rfl⟩

theorem compare_stocked {left operator : String} {right : Expr} {p : Predicate}
    (h : Predicate.compare left operator right = .ok p) : Stocked p := by
  obtain ⟨op, _, h⟩ := bind_ok h
  by_cases hop : op = .isIn
  · rw [if_pos hop] at h
    cases h
  · rw [if_neg hop] at h
    obtain ⟨e, _, h⟩ := bind_ok h
    cases h
    exact fun hin => absurd hin hop

theorem join_stocked {op : BooleanOperator} {ps : List Predicate} {p : Predicate}
    (hps : AllStocked ps) (h : Predicate.join op ps = .ok p) : Stocked p := by
  match ps, hps, h with
  | [], _, h => cases h
  | [q], hps, h =>
    cases h
    exact hps.1
  | q :: q' :: rest, hps, h =>
    cases h
    exact ⟨by simp, hps⟩

theorem combine_stocked {op : BooleanOperator} {p q : Predicate} (hp : Stocked p)
    (hq : Stocked q) : Stocked (Predicate.combine op p q) := by
  have hpair : Stocked (.junction op [p, q]) := ⟨by simp, hp, hq, trivial⟩
  cases p with
  | junction op' parts =>
    show Stocked (if op' = op then _ else _)
    split
    · have hall := allStocked_append hp.2 hq
      exact ⟨by simp, hall⟩
    · exact hpair
  | _ => exact hpair

theorem negate_stocked {p : Predicate} (hp : Stocked p) : Stocked p.negate := by
  cases p <;> exact hp

theorem foldl_stocked {p : Predicate} {ps : List Predicate} (hp : Stocked p)
    (hps : AllStocked ps) : Stocked (ps.foldl Predicate.andAlso p) := by
  induction ps generalizing p with
  | nil => exact hp
  | cons q rest ih => exact ih (combine_stocked hp hps.1) hps.2

end OData

namespace Construction

mutual
theorem build_stocked : (c : Construction) → {p : Predicate} → c.build = .ok p → OData.Stocked p
  | create _ _ _, _, h => OData.create_stocked h
  | compare _ _ _, _, h => OData.compare_stocked h
  | join _ parts, _, h => by
    obtain ⟨ps, hps, h⟩ := bind_ok h
    exact OData.join_stocked (buildAll_stocked parts hps) h
  | not c, _, h => by
    obtain ⟨p, hp, rfl⟩ := map_ok h
    have hinner := build_stocked c hp
    exact hinner
  | quantified _ _ body, _, h => by
    obtain ⟨p, hp, rfl⟩ := map_ok h
    have hbody := build_stocked body hp
    exact hbody
  | combine _ first second, _, h => by
    obtain ⟨p, hp, h⟩ := bind_ok h
    obtain ⟨q, hq, h⟩ := bind_ok h
    cases h
    exact OData.combine_stocked (build_stocked first hp) (build_stocked second hq)
  | negate c, _, h => by
    obtain ⟨p, hp, rfl⟩ := map_ok h
    exact OData.negate_stocked (build_stocked c hp)
  | filters first others, _, h => by
    obtain ⟨p, hp, h⟩ := bind_ok h
    obtain ⟨ps, hps, h⟩ := bind_ok h
    cases h
    rw [filtered_eq]
    exact OData.foldl_stocked (build_stocked first hp) (buildAll_stocked others hps)

theorem buildAll_stocked : (cs : List Construction) → {ps : List Predicate} →
    buildAll cs = .ok ps → OData.AllStocked ps
  | [], _, h => by
    cases h
    trivial
  | c :: rest, _, h => by
    obtain ⟨p, hp, h⟩ := bind_ok h
    obtain ⟨ps, hps, h⟩ := bind_ok h
    cases h
    exact ⟨build_stocked c hp, buildAll_stocked rest hps⟩
end

end Construction

end EntityCache
