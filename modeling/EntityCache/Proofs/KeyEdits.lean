import EntityCache.Proofs.Fixups
import EntityCache.Proofs.IntegerKeys

/-! What the replacement of an integer key does to one entity, edit by edit: each writes the
real key over the temporary one in one property. Edits for different temporary keys commute,
and so do those for the references to one key, as no real key is mistaken for a temporary
one. -/
namespace EntityCache

/-- A real key over a temporary one in a property of the entities of a type. The edit of the
key itself also settles the entity, whose key is temporary no longer. -/
structure KeyEdit where
  owner : String
  property : String
  temp : Int64
  real : Int64
  settles : Bool

namespace KeyEdit

def applies (s : KeyEdit) (e : Entity) : Bool :=
  s.owner = e.type.name && e.refersTo s.property (.integer s.temp)

theorem applies_iff {s : KeyEdit} {e : Entity} : s.applies e ↔
    s.owner = e.type.name ∧ e.refersTo s.property (.integer s.temp) := by
  simp [applies]

structure Apart (s u : KeyEdit) : Prop where
  temps : s.temp ≠ u.temp
  left : s.real ≠ u.temp
  right : u.real ≠ s.temp

theorem Apart.symm {s u : KeyEdit} (h : Apart s u) : Apart u s := ⟨h.temps.symm, h.right, h.left⟩

end KeyEdit

namespace Entity

variable {a b e : Entity} {s u : KeyEdit} {property : String}

def edit (e : Entity) (s : KeyEdit) : Entity :=
  if s.applies e then
    { e.redirected s.property (.integer s.real) with hasTempKey := e.hasTempKey && !s.settles }
  else e

def edits (e : Entity) (ss : List KeyEdit) : Entity := ss.foldl edit e

@[simp] theorem edits_cons (e : Entity) (s : KeyEdit) (ss : List KeyEdit) :
    e.edits (s :: ss) = (e.edit s).edits ss := rfl

theorem edits_append (e : Entity) (ss us : List KeyEdit) :
    e.edits (ss ++ us) = (e.edits ss).edits us := List.foldl_append

@[simp] theorem type_edit (e : Entity) (s : KeyEdit) : (e.edit s).type = e.type := by
  unfold edit
  split <;> rfl

@[simp] theorem type_edits (e : Entity) (ss : List KeyEdit) : (e.edits ss).type = e.type := by
  induction ss generalizing e with
  | nil => rfl
  | cons s ss ih => rw [edits_cons, ih, type_edit]

theorem get?_edit (e : Entity) (s : KeyEdit) (property : String) :
    (e.edit s).get? property =
      if property = s.property ∧ s.applies e then some (.integer s.real)
      else e.get? property := by
  unfold edit
  by_cases ha : s.applies e
  · have hwrite := get?_write e s.property property (.integer s.real)
    simp only [ha, if_true, and_true]
    exact hwrite
  · simp [ha]

section Determined

theorem get?_edits_congr (ht : a.type = b.type) (h : a.get? property = b.get? property)
    (ss : List KeyEdit) : (a.edits ss).get? property = (b.edits ss).get? property := by
  induction ss generalizing a b with
  | nil => exact h
  | cons s ss ih =>
    refine ih (by simp [ht]) ?_
    rw [get?_edit, get?_edit]
    by_cases hp : property = s.property
    · rw [KeyEdit.applies, KeyEdit.applies, ht, refersTo_congr (hp ▸ h), h]
    · rw [if_neg fun hc => hp hc.1, if_neg fun hc => hp hc.1, h]

theorem IntegerKey.edit (h : e.IntegerKey) (s : KeyEdit) : (e.edit s).IntegerKey := by
  intro p hp
  rw [type_edit] at hp
  obtain ⟨htype, v, hv, hinteger⟩ := h p hp
  refine ⟨htype, ?_⟩
  rw [get?_edit]
  split
  · exact ⟨.integer s.real, rfl, rfl⟩
  · exact ⟨v, hv, hinteger⟩

theorem IntegerKey.edits (h : e.IntegerKey) (ss : List KeyEdit) : (e.edits ss).IntegerKey := by
  induction ss generalizing e with
  | nil => exact h
  | cons s ss ih => exact ih (h.edit s)

/-- Keys that are told apart in the end have been told apart all along. -/
theorem IntegerKey.keyText_edits_congr (ha : a.IntegerKey) (hb : b.IntegerKey)
    (ht : a.type = b.type) (h : a.keyText = b.keyText) (ss : List KeyEdit) :
    (a.edits ss).keyText = (b.edits ss).keyText := by
  refine keyText_congr (by simp [ht]) fun p hp => ?_
  rw [type_edits] at hp
  rw [Entity.keyValue, Entity.keyValue, get?_edits_congr ht (ha.get?_of_keyText hb ht h hp) ss]

theorem refersTo_integer_iff {i : Int64} (hi : e.get? property = some (.integer i)) (j : Int64) :
    e.refersTo property (.integer j) ↔ i = j := by
  rw [refersTo, hi]
  simp [Value.same]

theorem IntegerKey.refersTo_iff (h : e.IntegerKey) {p : DataProperty}
    (hp : p ∈ e.type.keyProperties) (i : Int64) :
    e.refersTo p.name (.integer i) ↔ e.get? p.name = some (.integer i) := by
  obtain ⟨-, v, hv, hinteger⟩ := h p hp
  rcases Value.cases_of_isIntegerOrNull hinteger with rfl | ⟨j, rfl⟩
  · rw [refersTo, hv]
    simp [Value.same]
  · rw [refersTo_integer_iff hv, hv, Option.some_inj, Value.integer.injEq]

/-- What no edit writes was there before. -/
theorem get?_of_edits {i : Int64} {ss : List KeyEdit} (hreal : ∀ s ∈ ss, s.real ≠ i)
    (h : (e.edits ss).get? property = some (.integer i)) : e.get? property = some (.integer i) := by
  induction ss generalizing e with
  | nil => exact h
  | cons s ss ih =>
    have hedit := ih (fun u hu => hreal u (List.mem_cons_of_mem s hu)) h
    rw [get?_edit] at hedit
    split at hedit
    · exact absurd (Value.integer.inj (Option.some.inj hedit)) (hreal s List.mem_cons_self)
    · exact hedit

/-- What no edit takes stays. -/
theorem get?_edits_of_other {i : Int64} {ss : List KeyEdit} (htemp : ∀ s ∈ ss, s.temp ≠ i)
    (h : e.get? property = some (.integer i)) : (e.edits ss).get? property = some (.integer i) := by
  induction ss generalizing e with
  | nil => exact h
  | cons s ss ih =>
    refine ih (fun u hu => htemp u (List.mem_cons_of_mem s hu)) ?_
    rw [get?_edit, if_neg, h]
    rintro ⟨rfl, ha⟩
    have hrefers := (KeyEdit.applies_iff.mp ha).2
    exact htemp s List.mem_cons_self ((refersTo_integer_iff h s.temp).mp hrefers).symm

end Determined

section Commute

theorem not_refersTo_of_apart (h : s.Apart u) (hp : u.property = s.property)
    (hs : e.refersTo s.property (.integer s.temp)) :
    ¬ e.refersTo u.property (.integer u.temp) := by
  intro hu
  obtain ⟨v, hv, hsame⟩ := refersTo_iff.mp hs
  obtain ⟨w, hw, hother⟩ := refersTo_iff.mp hu
  rw [hp, hv] at hw
  cases hw
  exact h.temps (Value.integer_unique hsame hother)

/-- Whether an edit applies does not depend on one that is apart from it or concerns another
property. -/
theorem applies_edit (h : s.Apart u ∨ s.owner ≠ u.owner ∨ s.property ≠ u.property)
    (e : Entity) : u.applies (e.edit s) = u.applies e := by
  by_cases ha : s.applies e
  · obtain ⟨howner, hrefers⟩ := KeyEdit.applies_iff.mp ha
    rw [KeyEdit.applies, KeyEdit.applies, type_edit]
    by_cases hu : u.owner = e.type.name
    · have hget := get?_edit e s u.property
      by_cases hp : u.property = s.property
      · have hapart : s.Apart u :=
          h.resolve_right fun hne => hne.elim (· (howner.trans hu.symm)) (· hp.symm)
        rw [if_pos ⟨hp, ha⟩] at hget
        have hafter : ¬ (e.edit s).refersTo u.property (.integer u.temp) := fun hr =>
          hapart.left ((refersTo_integer_iff hget u.temp).mp hr)
        have hbefore := not_refersTo_of_apart hapart hp hrefers
        rw [Bool.eq_false_iff.mpr hafter, Bool.eq_false_iff.mpr hbefore]
      · rw [refersTo_congr (hget.trans (if_neg fun hc => hp hc.1))]
    · simp [hu]
  · rw [edit, if_neg ha]

theorem edit_comm (h : s.Apart u ∨ s.owner ≠ u.owner ∨ s.property ≠ u.property)
    (e : Entity) : (e.edit s).edit u = (e.edit u).edit s := by
  have hsymm : u.Apart s ∨ u.owner ≠ s.owner ∨ u.property ≠ s.property :=
    h.imp KeyEdit.Apart.symm (Or.imp Ne.symm Ne.symm)
  by_cases hs : s.applies e
  · by_cases hu : u.applies e
    · obtain ⟨howner, hrefers⟩ := KeyEdit.applies_iff.mp hs
      obtain ⟨howner', hrefers'⟩ := KeyEdit.applies_iff.mp hu
      have hp : s.property ≠ u.property := by
        intro hp
        have hapart : s.Apart u :=
          h.resolve_right fun hne => hne.elim (· (howner.trans howner'.symm)) (· hp)
        exact not_refersTo_of_apart hapart hp.symm hrefers hrefers'
      have hvalues : Table.put u.property (.integer u.real)
            (Table.put s.property (.integer s.real) e.values) =
          Table.put s.property (.integer s.real)
            (Table.put u.property (.integer u.real) e.values) := by
        refine Table.put_comm (Ne.symm hp) ?_ _ _
        obtain ⟨v, hv, -⟩ := refersTo_iff.mp hrefers'
        exact Option.isSome_iff_exists.mpr ⟨v, hv⟩
      have hleft := applies_edit h e
      have hright := applies_edit hsymm e
      -- Both writes are in both results; the key that the group knows is that of the result.
      let written (a b : KeyEdit) : Entity := { e with
        values := Table.put b.property (.integer b.real)
          (Table.put a.property (.integer a.real) e.values)
        hasTempKey := e.hasTempKey && !a.settles && !b.settles }
      have hresult : ∀ a b : KeyEdit, a.applies e → b.applies (e.edit a) →
          (e.edit a).edit b = { written a b with groupKey := some (written a b).keyText } := by
        intro a b ha hb
        rw [edit, if_pos hb, edit, if_pos ha]
        rfl
      have hwritten : written s u = written u s := by
        simp only [written, hvalues, Bool.and_right_comm]
      rw [hresult s u hs (hleft.trans hu), hresult u s hu (hright.trans hs), hwritten]
    · have hleft : ¬ u.applies (e.edit s) := by rwa [applies_edit h]
      have hsame : e.edit u = e := if_neg hu
      rw [hsame]
      exact if_neg hleft
  · have hright : ¬ s.applies (e.edit u) := by rwa [applies_edit hsymm]
    have hsame : e.edit s = e := if_neg hs
    rw [hsame]
    exact (if_neg hright).symm

theorem edits_edit {us : List KeyEdit} (h : ∀ u ∈ us, s.Apart u) (e : Entity) :
    (e.edit s).edits us = (e.edits us).edit s := by
  induction us generalizing e with
  | nil => rfl
  | cons u us ih =>
    rw [edits_cons, edits_cons, edit_comm (Or.inl (h u List.mem_cons_self)),
      ih fun v hv => h v (List.mem_cons_of_mem u hv)]

/-- What is edited for one temporary key does not get in the way of another. -/
theorem edits_comm {ss us : List KeyEdit} (h : ∀ s ∈ ss, ∀ u ∈ us, s.Apart u) (e : Entity) :
    (e.edits ss).edits us = (e.edits us).edits ss := by
  induction ss generalizing e with
  | nil => rfl
  | cons s ss ih =>
    rw [edits_cons, ih (fun s' hs' => h s' (List.mem_cons_of_mem s hs')),
      edits_edit (h s List.mem_cons_self), edits_cons]

/-- References to one key may be followed in any order. -/
theorem edits_perm {ss us : List KeyEdit} (h : ss.Perm us)
    (hdiffer : ∀ s ∈ ss, ∀ u ∈ ss, s ≠ u → s.owner ≠ u.owner ∨ s.property ≠ u.property)
    (e : Entity) : e.edits ss = e.edits us := by
  refine h.foldl_eq' (fun s hs u hu e => ?_) e
  by_cases heq : s = u
  · rw [heq]
  · exact edit_comm (Or.inr (hdiffer s hs u hu heq)) e

end Commute

end Entity

end EntityCache
