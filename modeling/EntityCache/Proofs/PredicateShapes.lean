import EntityCache.Proofs.FilterVisits
import Mathlib.Data.List.Basic

/-! The shape of a predicate: its tree of operators without names and values, with the kind of
operand on the right of each comparison. Parts of two predicates face each other when the same
steps down lead to them; in predicates of one shape they have one shape themselves. -/
namespace EntityCache

inductive OperandKind where
  | literal
  | property
  | call
  deriving DecidableEq, Repr

def Expr.kind : Expr → OperandKind
  | .literal _ _ => .literal
  | .property _ => .property
  | .call _ _ => .call

/-- What stands at the root of a predicate, with the kind of operand on the right. -/
inductive Root where
  | comparison (op : BinaryOperator) (right : OperandKind)
  | negation
  | junction (op : BooleanOperator)
  | quantified (op : Quantifier)
  | raw
  deriving DecidableEq, Repr

/-- A predicate without its names and values. -/
inductive Shape where
  | node (root : Root) (parts : List Shape)
  deriving Repr

namespace Predicate

def root : Predicate → Root
  | binary op _ right => .comparison op right.kind
  | negation _ => .negation
  | junction op _ => .junction op
  | quantified op _ _ => .quantified op
  | raw _ => .raw

mutual
def shape : Predicate → Shape
  | binary op _ right => .node (.comparison op right.kind) []
  | negation p => .node .negation [p.shape]
  | junction op ps => .node (.junction op) (shapes ps)
  | quantified op _ body => .node (.quantified op) [body.shape]
  | raw _ => .node .raw []

def shapes : List Predicate → List Shape
  | [] => []
  | p :: rest => p.shape :: shapes rest
end

theorem shapes_eq_map (ps : List Predicate) : shapes ps = ps.map shape := by
  induction ps with
  | nil => rfl
  | cons p rest ih => rw [shapes, ih, List.map_cons]

def WithoutRaw (p : Predicate) : Prop := ∀ text, ¬ (raw text).Within p

theorem WithoutRaw.negated {p : Predicate} (h : (negation p).WithoutRaw) : p.WithoutRaw :=
  fun text hraw => h text (.negation hraw)

theorem WithoutRaw.quantified {op : Quantifier} {path : String} {body : Predicate}
    (h : (Predicate.quantified op path body).WithoutRaw) : body.WithoutRaw :=
  fun text hraw => h text (.quantified hraw)

theorem WithoutRaw.joined {op : BooleanOperator} {p : Predicate} {ps : List Predicate}
    (h : (junction op ps).WithoutRaw) (hp : p ∈ ps) : p.WithoutRaw :=
  fun text hraw => h text (.junction hp hraw)

end Predicate

structure Placed where
  scope : Scope
  predicate : Predicate

namespace Placed

def shape (a : Placed) : Shape := a.predicate.shape

def parts : Placed → List Placed
  | ⟨_, .binary _ _ _⟩ => []
  | ⟨s, .negation p⟩ => [⟨s, p⟩]
  | ⟨s, .junction _ ps⟩ => ps.map (⟨s, ·⟩)
  | ⟨s, .quantified _ path body⟩ =>
    match s.catalog.resolvePath s.start path with
    | .ok resolved => [⟨s.enter resolved.target, body⟩]
    | .error _ => []
  | ⟨_, .raw _⟩ => []

/-- Parts that are reached alike in two predicates, by taking the part at the same place of each
at every step down. -/
inductive Facing : Placed → Placed → Placed → Placed → Prop where
  | here (a b : Placed) : Facing a b a b
  | part {a b a' b' c d : Placed} {i : Nat} (left : a.parts[i]? = some a')
      (right : b.parts[i]? = some b') (below : Facing a' b' c d) : Facing a b c d

theorem part_smaller {a c : Placed} (h : c ∈ a.parts) :
    sizeOf c.predicate < sizeOf a.predicate := by
  obtain ⟨s, p⟩ := a
  cases p with
  | binary | raw => cases h
  | negation p =>
    rw [List.mem_singleton.mp h]
    simp only [Predicate.negation.sizeOf_spec]
    omega
  | junction op ps =>
    obtain ⟨p, hp, rfl⟩ := List.mem_map.mp h
    have hlt := List.sizeOf_lt_of_mem hp
    simp only [Predicate.junction.sizeOf_spec]
    omega
  | quantified op path body =>
    simp only [parts] at h
    split at h
    · rw [List.mem_singleton.mp h]
      simp only [Predicate.quantified.sizeOf_spec]
      omega
    · cases h

theorem parts_quantified {s : Scope} {op : Quantifier} {path : String} {body : Predicate}
    {resolved : ResolvedPath} (h : s.catalog.resolvePath s.start path = .ok resolved) :
    parts ⟨s, .quantified op path body⟩ = [⟨s.enter resolved.target, body⟩] := by
  rw [parts, h]

theorem withoutRaw_part {a c : Placed} (h : c ∈ a.parts) (ha : a.predicate.WithoutRaw) :
    c.predicate.WithoutRaw := by
  obtain ⟨s, p⟩ := a
  cases p with
  | binary | raw => cases h
  | negation p =>
    rw [List.mem_singleton.mp h]
    exact ha.negated
  | junction op ps =>
    obtain ⟨p, hp, rfl⟩ := List.mem_map.mp h
    exact ha.joined hp
  | quantified op path body =>
    simp only [parts] at h
    split at h
    · rw [List.mem_singleton.mp h]
      exact ha.quantified
    · cases h

theorem shape_part {a a' : Placed} {i : Nat} (h : a.parts[i]? = some a') :
    ∃ shapes, a.shape = .node a.predicate.root shapes ∧ shapes[i]? = some a'.shape := by
  obtain ⟨s, p⟩ := a
  cases p with
  | binary | raw => cases h
  | negation p =>
    refine ⟨[p.shape], rfl, ?_⟩
    have hmap := congrArg (Option.map shape) h
    rwa [← List.getElem?_map] at hmap
  | junction op ps =>
    refine ⟨ps.map Predicate.shape, by rw [← Predicate.shapes_eq_map]; rfl, ?_⟩
    have hmap := congrArg (Option.map shape) h
    rwa [← List.getElem?_map, parts, List.map_map] at hmap
  | quantified op path body =>
    refine ⟨[body.shape], rfl, ?_⟩
    simp only [parts] at h
    split at h
    · have hmap := congrArg (Option.map shape) h
      rwa [← List.getElem?_map] at hmap
    · cases h

/-- Parts that face each other in predicates of the same shape are of the same shape. -/
theorem Facing.shape_eq {a b c d : Placed} (h : Facing a b c d) (hshape : a.shape = b.shape) :
    c.shape = d.shape := by
  induction h with
  | here => exact hshape
  | part left right _ ih =>
    refine ih ?_
    obtain ⟨as, ha, hleft⟩ := shape_part left
    obtain ⟨bs, hb, hright⟩ := shape_part right
    rw [ha, hb] at hshape
    obtain ⟨-, rfl⟩ := Shape.node.inj hshape
    exact Option.some.inj (hleft.symm.trans hright)

end Placed

end EntityCache
