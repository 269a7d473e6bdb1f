import EntityCache.Proofs.Collisions
import EntityCache.Proofs.GroupRuns

/-! A cascade through one group as a whole: it is refused and the store is as it was, or
everybody who held the old value holds the new one and is indexed under the key that follows
from it. Where the property is part of the key there is one reason to refuse it, two entities
that would end up under the same key. Keys that are given up on the way are free to be taken. -/
namespace EntityCache

open GroupRuns

namespace Entity

variable {e : Entity} {property : String} {old v : Value}

theorem key_inGroup (e : Entity) : e.key.map EntityKey.inGroup = .ok e.keyText := by
  rw [key_eq]
  rfl

theorem redirect_of_refers (h : e.refersTo property old) :
    e.redirect property old v = e.redirected property v := if_pos h

theorem redirect_of_not (h : ¬ e.refersTo property old) : e.redirect property old v = e :=
  if_neg h

theorem get?_redirect_self (h : e.refersTo property old) :
    (e.redirect property old v).get? property = some v := by
  rw [redirect_of_refers h]
  exact (get?_write e property property v).trans (if_pos rfl)

theorem get?_redirect_other {name : String} (h : name ≠ property) :
    (e.redirect property old v).get? name = e.get? name := by
  unfold redirect
  split
  · exact (get?_write e property name v).trans (if_neg h)
  · rfl

/-- Values and the key under which the group knows it are all that a cascade writes. -/
theorem redirect_frame : e.redirect property old v =
    { e with
      values := (e.redirect property old v).values
      groupKey := (e.redirect property old v).groupKey } := by
  unfold redirect
  split <;> rfl

end Entity

namespace Group

variable {g g' : Group} {is is' : Instances} {property : String} {old new v : Value}

/-- Two entities of the group would have one key if all references were followed. -/
def Collides (g : Group) (is : Instances) (property : String) (old v : Value) : Prop :=
  ∃ slot id other id', g.Holds slot id ∧ g.Holds other id' ∧ id ≠ id' ∧
    ((is.entity id).redirect property old v).key.map EntityKey.inGroup =
      ((is.entity id').redirect property old v).key.map EntityKey.inGroup

/-- Why a cascade is refused: nobody has the property, or a key is wanted twice. -/
inductive Refusal (g : Group) (is : Instances) (property : String) (old new : Value) :
    Fault → Prop where
  | unknown : g.type.dataProperty? property = none →
      Refusal g is property old new (.propertyNotFound property property g.type.name)
  | taken {p : DataProperty} {slot : Nat} {id : InstanceId} {k : EntityKey} :
      g.type.dataProperty? property = some p → p.isKey →
      g.Collides is property old (p.dataType.coerce new) →
      g.Holds slot id → (is.entity id).refersTo property old →
      ((is.entity id).redirect property old (p.dataType.coerce new)).key = .ok k →
      Refusal g is property old new (.alreadyCached k.text)

/-- What a cascade comes to: the holders of the old value take the new one, nothing else is
written, and the index leads from every new key to the slot that its entity always had. -/
structure Cascaded (g : Group) (is : Instances) (property : String) (old v : Value)
    (g' : Group) (is' : Instances) : Prop where
  group : g' = { g with index := g'.index }
  takes : ∀ {slot id}, g.Holds slot id → (is.entity id).refersTo property old →
    (is'.entity id).get? property = some v
  keeps : ∀ id name, name ≠ property → (is'.entity id).get? name = (is.entity id).get? name
  frame : ∀ id, is'.entity id =
    { is.entity id with
      values := (is'.entity id).values
      groupKey := (is'.entity id).groupKey }
  others : ∀ {id}, (∀ slot, g.Holds slot id → ¬ (is.entity id).refersTo property old) →
    is'.entity id = is.entity id
  groupKey : ∀ {slot id}, g.Holds slot id → ∀ key,
    (is'.entity id).groupKey = some key ↔
      (is'.entity id).key.map EntityKey.inGroup = .ok key
  index_iff : ∀ key slot, g'.index.get? key = some slot ↔
    ∃ id, g.Holds slot id ∧ (is'.entity id).key.map EntityKey.inGroup = .ok key

theorem count_holders (g : Group) (is : Instances) (property : String) (old : Value) :
    (g.holders is property old).length =
      (g.members.filter fun id => (is.entity id).refersTo property old).length := by
  rw [members_eq, List.filter_map, List.length_map]
  rfl

theorem cascaded_of_ok (h : g.Sound is) (ht : g.type.DistinctNames) {n : Nat}
    (hu : g.updateForeignKey is property old new = .ok (n, g', is')) :
    ∃ p, g.type.dataProperty? property = some p ∧
      n = (g.members.filter fun id => (is.entity id).refersTo property old).length ∧
      Cascaded g is property old (p.dataType.coerce new) g' is' := by
  obtain ⟨hs, -, -⟩ := h.cascade_call ht hu
  obtain ⟨hn, p, moves, hr⟩ := updateForeignKey_spec h hu
  obtain ⟨q, hq, hin, hout⟩ := updateForeignKey_redirects h ht hu
  obtain rfl : p = q := Option.some.inj (hr.found.symm.trans hq)
  have hgroup : g' = { g with index := g'.index } := by
    rw [hr.group]
    rfl
  have hholds : ∀ slot id, g'.Holds slot id ↔ g.Holds slot id := fun slot id =>
    holds_congr (by rw [hgroup])
  have hboth : ∀ id, is'.entity id = is.entity id ∨ is'.entity id =
      (is.entity id).redirect property old (p.dataType.coerce new) := by
    intro id
    by_cases hlive : ∃ slot, g.Holds slot id
    · obtain ⟨slot, hlive⟩ := hlive
      exact Or.inr (hin hlive)
    · exact Or.inl (hout fun slot hslot => hlive ⟨slot, hslot⟩)
  refine ⟨p, hq, hn.trans (count_holders g is property old), hgroup, ?_, ?_, ?_, ?_, ?_, ?_⟩
  · intro slot id hslot hrefers
    rw [hin hslot]
    exact Entity.get?_redirect_self hrefers
  · intro id name hname
    rcases hboth id with heq | heq <;> rw [heq]
    exact Entity.get?_redirect_other hname
  · intro id
    rcases hboth id with heq | heq <;> rw [heq]
    exact Entity.redirect_frame
  · intro id hnone
    by_cases hlive : ∃ slot, g.Holds slot id
    · obtain ⟨slot, hlive⟩ := hlive
      rw [hin hlive]
      exact Entity.redirect_of_not (hnone slot hlive)
    · exact hout fun slot hslot => hlive ⟨slot, hslot⟩
  · intro slot id hslot key
    rw [hs.attached ((hholds slot id).mpr hslot), Entity.key_inGroup, Option.some.injEq,
      Except.ok.injEq]
  · intro key slot
    rw [hs.index_iff]
    refine exists_congr fun id => and_congr (hholds slot id) ?_
    rw [Entity.key_inGroup, Except.ok.injEq]

/-- A cascade that went through has left no two entities under one key. -/
theorem not_collides_of_ok (h : g.Sound is) (ht : g.type.DistinctNames) {n : Nat}
    {p : DataProperty} (hp : g.type.dataProperty? property = some p)
    (hu : g.updateForeignKey is property old new = .ok (n, g', is')) :
    ¬ g.Collides is property old (p.dataType.coerce new) := by
  rintro ⟨slot, id, other, id', hslot, hother, hne, hsame⟩
  obtain ⟨hs, -, -⟩ := h.cascade_call ht hu
  obtain ⟨hslots, -, -⟩ := updateForeignKey_slots hu
  obtain ⟨q, hq, hin, -⟩ := updateForeignKey_redirects h ht hu
  obtain rfl : p = q := Option.some.inj (hp.symm.trans hq)
  have hfirst := hs.indexed ((holds_congr hslots).mpr hslot)
  have hsecond := hs.indexed ((holds_congr hslots).mpr hother)
  rw [hin hslot] at hfirst
  rw [hin hother] at hsecond
  rw [Entity.key_inGroup, Entity.key_inGroup, Except.ok.injEq] at hsame
  rw [hsame] at hfirst
  obtain rfl : slot = other := Option.some.inj (hfirst.symm.trans hsecond)
  exact hne (hslot.unique hother)

theorem planMoves_error {vacated claimed : List String} {hs : List (Nat × InstanceId)}
    {fault : Fault} (ht : ∀ x ∈ hs, (is.entity x.2).type = g.type)
    (h : g.planMoves is property v vacated claimed hs = .error fault) :
    ∃ x ∈ hs, fault = .alreadyCached ((is.entity x.2).write property v).ownKey.text := by
  induction hs generalizing claimed with
  | nil => cases h
  | cons x hs ih =>
    obtain ⟨slot, id⟩ := x
    have hkey := rekeyed_eq (ht (slot, id) List.mem_cons_self) property v
    simp only [planMoves, Entity.key_eq, hkey, bind, Except.bind, pure, Except.pure] at h
    split at h
    · cases h
      exact ⟨(slot, id), List.mem_cons_self, rfl⟩
    · split at h
      · rename_i fault' hrest
        cases h
        obtain ⟨x, hx, heq⟩ := ih (fun x hx => ht x (List.mem_cons_of_mem _ hx)) hrest
        exact ⟨x, List.mem_cons_of_mem _ hx, heq⟩
      · cases h

theorem refusal_of_error (h : g.Sound is) {fault : Fault}
    (hu : g.updateForeignKey is property old new = .error fault) :
    Refusal g is property old new fault := by
  cases hp : g.type.dataProperty? property with
  | none =>
    unfold updateForeignKey at hu
    simp only [hp, bind, Except.bind, Except.error.injEq] at hu
    exact hu ▸ .unknown hp
  | some p =>
    have hcollides : g.Collides is property old (p.dataType.coerce new) := by
      by_contra hapart
      have hok : ∃ r, g.updateForeignKey is property old new = .ok r := by
        refine updateForeignKey_ok h old new hp fun {s x t y} hx hy heq => ?_
        by_contra hne
        refine hapart ⟨s, x, t, y, hx, hy, hne, ?_⟩
        rw [Entity.key_inGroup, Entity.key_inGroup, heq]
      obtain ⟨r, hr⟩ := hok
      cases hu.symm.trans hr
    unfold updateForeignKey at hu
    simp only [hp, bind, Except.bind, pure, Except.pure] at hu
    cases hk : p.isKey with
    | false => simp [hk] at hu
    | true =>
      simp only [hk, if_true, mapM_keys is (g.holders is property old)] at hu
      cases hm : g.planMoves is property (p.dataType.coerce new)
          ((g.holders is property old).map fun x => (is.entity x.2).keyText) []
          (g.holders is property old) with
      | ok moves => simp [hm] at hu
      | error fault' =>
        simp only [hm, Except.error.injEq] at hu
        obtain ⟨x, hx, hfault⟩ :=
          planMoves_error (fun x hx => h.typed (mem_holders hx)) hm
        have hrefers := (mem_holders_iff.mp hx).2
        rw [← hu, hfault]
        refine .taken hp hk hcollides (mem_holders hx) hrefers ?_
        rw [Entity.redirect_of_refers hrefers]
        exact Entity.key_eq _

end Group

namespace GroupRuns.Store

open EntityCache.Group

/-- A cascade is refused, for a reason, and changes nothing; or it reaches whoever holds the
old value, and says how many these are. A property of the key is refused exactly when two
entities would collide. -/
theorem cascade_all_or_nothing {s : Store} (hs : s.group.Sound s.instances)
    (ht : s.group.type.DistinctNames) (property : String) (old new : Value) :
    ((∃ fault, s.group.updateForeignKey s.instances property old new = .error fault ∧
        Refusal s.group s.instances property old new fault ∧
        s.next (.updateForeignKey property old new) = s) ∨
      ∃ n g is p, s.group.updateForeignKey s.instances property old new = .ok (n, g, is) ∧
        s.next (.updateForeignKey property old new) = ⟨g, is⟩ ∧
        s.group.type.dataProperty? property = some p ∧
        n = (s.group.members.filter fun id =>
          (s.instances.entity id).refersTo property old).length ∧
        Cascaded s.group s.instances property old (p.dataType.coerce new) g is) ∧
    ∀ p, s.group.type.dataProperty? property = some p →
      ((∃ fault, s.group.updateForeignKey s.instances property old new = .error fault) ↔
        p.isKey ∧ s.group.Collides s.instances property old (p.dataType.coerce new)) := by
  constructor
  · cases hu : s.group.updateForeignKey s.instances property old new with
    | error fault =>
      refine Or.inl ⟨fault, rfl, refusal_of_error hs hu, ?_⟩
      simp only [next, perform, hu, Except.map]
    | ok r =>
      obtain ⟨n, g, is⟩ := r
      obtain ⟨p, hp, hn, hcascaded⟩ := cascaded_of_ok hs ht hu
      refine Or.inr ⟨n, g, is, p, rfl, ?_, hp, hn, hcascaded⟩
      simp only [next, perform, hu, Except.map]
  · intro p hp
    constructor
    · rintro ⟨fault, hu⟩
      cases refusal_of_error hs hu with
      | unknown hnone => cases hp.symm.trans hnone
      | taken hq hk hcollides =>
        obtain rfl := Option.some.inj (hp.symm.trans hq)
        exact ⟨hk, hcollides⟩
    · rintro ⟨-, hcollides⟩
      cases hu : s.group.updateForeignKey s.instances property old new with
      | error fault => exact ⟨fault, rfl⟩
      | ok r => exact absurd hcollides (not_collides_of_ok hs ht hp hu)

/-- Both parts of a key are texts, and one of them has the delimiter in it: the second entity
gets the key that the first one gives up. -/
theorem vacated_key_is_taken :
    let t : EntityType := { name := "Link", dataProperties := [
      { name := "whole", dataType := .string, isKey := true },
      { name := "part", dataType := .string, isKey := true }] }
    let calls : List Call := [.make, .make,
      .set 0 "whole" (.text "x"), .set 0 "part" (.text "y:::z"),
      .set 1 "whole" (.text "x"), .set 1 "part" (.text "z"),
      .attach 0 .unchanged .disallowed, .attach 1 .added .disallowed]
    let s := (start { type := t }).run calls
    let s' := s.next (.updateForeignKey "whole" (.text "x") (.text "x:::y"))
    s.group.Sound s.instances ∧ s.group.type.DistinctNames ∧
      s.group.index.get? "x:::y:::z" = some 0 ∧ s'.group.index.get? "x:::y:::z" = some 1 ∧
      Cascaded s.group s.instances "whole" (.text "x") (.text "x:::y")
        s'.group s'.instances := by
  intro t calls s s'
  have hchecked : t.checked = .ok t := rfl
  have hd : t.DistinctNames := EntityType.distinctNames_of_checked hchecked
  have hinv : Invariant t s :=
    run_preserves_invariant hd (invariant_start (g := { type := t }) rfl) (by decide +kernel)
  have hok : (s.group.updateForeignKey s.instances "whole" (.text "x")
      (.text "x:::y")).isOk = true := by decide +kernel
  have ht : s.group.type.DistinctNames := hinv.type ▸ hd
  refine ⟨hinv.sound, ht, by decide +kernel, by decide +kernel, ?_⟩
  rcases (cascade_all_or_nothing hinv.sound ht "whole" (.text "x") (.text "x:::y")).1 with
    ⟨fault, hu, -⟩ | ⟨n, g, is, p, hu, hnext, hp, -, hcascaded⟩
  · rw [hu] at hok
    cases hok
  · rw [hinv.type] at hp
    cases hp
    have hs' : s' = ⟨g, is⟩ := hnext
    rw [hs']
    exact hcascaded

end GroupRuns.Store

end EntityCache
