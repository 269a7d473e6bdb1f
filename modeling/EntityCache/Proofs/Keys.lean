import EntityCache.Proofs.Coercion
import EntityCache.Proofs.Outcomes
import EntityCache.Proofs.Tables
import EntityCache.Tracking.Entity

/-! The key that an entity has at the moment. It depends on the key properties alone, so
an operation keeps it if it keeps those, or copies all of them from an entity of the same
key. `Continues` collects what a group needs of an edit to one of its entities. -/
namespace EntityCache

namespace EntityType

def DistinctNames (t : EntityType) : Prop := (t.dataProperties.map (·.name)).Nodup

theorem mem_keyProperties {t : EntityType} {p : DataProperty} :
    p ∈ t.keyProperties ↔ p ∈ t.dataProperties ∧ p.isKey := by
  simp [keyProperties]

theorem dataProperty?_some {t : EntityType} {name : String} {p : DataProperty}
    (h : t.dataProperty? name = some p) : p ∈ t.dataProperties ∧ p.name = name :=
  ⟨List.mem_of_find?_eq_some h, by simpa using List.find?_some h⟩

theorem eq_of_name_eq {t : EntityType} (ht : t.DistinctNames) {p q : DataProperty}
    (hp : p ∈ t.dataProperties) (hq : q ∈ t.dataProperties) (h : p.name = q.name) : p = q :=
  List.inj_on_of_nodup_map ht hp hq h

/-- A look-up that meets no key property meets no name of one. -/
theorem name_ne_of_not_key {t : EntityType} (ht : t.DistinctNames) {name : String}
    {p : DataProperty} (h : t.dataProperty? name = some p) (hp : p.isKey = false) :
    ∀ q ∈ t.keyProperties, q.name ≠ name := by
  intro q hq hn
  obtain ⟨hpm, hpn⟩ := dataProperty?_some h
  obtain ⟨hqm, hqk⟩ := mem_keyProperties.mp hq
  have heq := eq_of_name_eq ht hqm hpm (hn.trans hpn.symm)
  simp [heq, hp] at hqk

theorem firstRepeated?_none {names seen : List String} (h : firstRepeated? seen names = none) :
    names.Nodup ∧ ∀ name ∈ names, name ∉ seen := by
  induction names generalizing seen with
  | nil => simp
  | cons n rest ih =>
    unfold firstRepeated? at h
    split at h
    · cases h
    · rename_i hn
      obtain ⟨hnd, hout⟩ := ih h
      refine ⟨List.nodup_cons.mpr ⟨fun hm => hout n hm (by simp), hnd⟩, fun name hm => ?_⟩
      rcases List.mem_cons.mp hm with rfl | hm
      · simpa using hn
      · exact fun hs => hout name hm (List.mem_cons_of_mem _ hs)

theorem distinct_of_checked {t u : EntityType} (h : t.checked = .ok u) :
    u = t ∧ t.propertyNames.Nodup := by
  unfold checked at h
  cases hr : firstRepeated? [] t.propertyNames with
  | some name => simp [hr] at h
  | none =>
    simp only [hr] at h
    split at h <;> cases h
    exact ⟨rfl, (firstRepeated?_none hr).1⟩

theorem distinctNames_of_checked {t u : EntityType} (h : t.checked = .ok u) : t.DistinctNames :=
  (distinct_of_checked h).2.sublist (List.sublist_append_left _ _)

end EntityType

theorem EntityKey.make_map (t : EntityType) (f : DataProperty → Value) :
    EntityKey.make t (t.keyProperties.map f) =
      .ok ⟨t.name, t.keyProperties.map fun p => p.dataType.coerce (f p)⟩ := by
  simp [EntityKey.make, List.zipWith_map_right, List.zipWith_self]

namespace Entity

/-- A value is held for every data property, as from the start. -/
def Complete (e : Entity) : Prop := ∀ p ∈ e.type.dataProperties, (e.get? p.name).isSome

def keyValue (e : Entity) (p : DataProperty) : Value :=
  p.dataType.coerce ((e.get? p.name).getD .null)

def ownKey (e : Entity) : EntityKey := ⟨e.type.name, e.type.keyProperties.map e.keyValue⟩

def keyText (e : Entity) : String := e.ownKey.inGroup

theorem key_eq (e : Entity) : e.key = .ok e.ownKey := EntityKey.make_map e.type _

theorem keyText_congr {a b : Entity} (ht : a.type = b.type)
    (h : ∀ p ∈ a.type.keyProperties, a.keyValue p = b.keyValue p) : a.keyText = b.keyText := by
  have hv : a.type.keyProperties.map a.keyValue = b.type.keyProperties.map b.keyValue := by
    rw [← ht]
    exact List.map_congr_left h
  simp [keyText, ownKey, EntityKey.inGroup, hv]

def keyTextWith (e : Entity) (value : DataProperty → Value) : String :=
  EntityKey.inGroup ⟨e.type.name, e.type.keyProperties.map fun p => p.dataType.coerce (value p)⟩

theorem keyText_eq_keyTextWith {e e' : Entity} {value : DataProperty → Value}
    (ht : e'.type = e.type)
    (h : ∀ p ∈ e.type.keyProperties, (e'.get? p.name).getD .null = value p) :
    e'.keyText = e.keyTextWith value := by
  have hvalues : e.type.keyProperties.map e'.keyValue =
      e.type.keyProperties.map fun p => p.dataType.coerce (value p) :=
    List.map_congr_left fun p hp => by rw [keyValue, h p hp]
  rw [keyText, ownKey, ht, hvalues, keyTextWith]

@[simp] theorem type_write (e : Entity) (n : String) (v : Value) :
    (e.write n v).type = e.type := rfl

theorem get?_write (e : Entity) (n m : String) (v : Value) :
    (e.write n v).get? m = if m = n then some v else e.get? m := Table.get?_put e.values n m v

theorem Complete.write {e : Entity} (he : e.Complete) (n : String) (v : Value) :
    (e.write n v).Complete := by
  intro p hp
  rw [get?_write]
  split
  · rfl
  · exact he p hp

theorem complete_new (t : EntityType) : (Entity.new t).Complete := by
  intro p hp
  cases h : (Entity.new t).get? p.name with
  | some v => rfl
  | none =>
    refine absurd ?_ ((Table.get?_eq_none_iff _ _).mp h)
    simpa [Entity.new, Table.names] using ⟨p, hp, rfl⟩

/-- What a group needs of an edit: the entity stays where it is, under the key it has. -/
structure Continues (e e' : Entity) : Prop where
  type : e'.type = e.type
  groupKey : e'.groupKey = e.groupKey
  keyText : e.isAttached → e'.keyText = e.keyText
  tracked : e.state ≠ .detached → e'.state ≠ .detached
  complete : e.Complete → e'.Complete

theorem Continues.refl (e : Entity) : Continues e e := ⟨rfl, rfl, fun _ => rfl, id, id⟩

theorem Continues.isAttached {e e' : Entity} (h : Continues e e') :
    e'.isAttached = e.isAttached := by simp [Entity.isAttached, h.groupKey]

theorem Continues.trans {a b c : Entity} (h : Continues a b) (k : Continues b c) :
    Continues a c where
  type := k.type.trans h.type
  groupKey := k.groupKey.trans h.groupKey
  keyText ha := (k.keyText (by rwa [h.isAttached])).trans (h.keyText ha)
  tracked ha := k.tracked (h.tracked ha)
  complete ha := k.complete (h.complete ha)

theorem continues_of_values {e e' : Entity} (ht : e'.type = e.type) (hv : e'.values = e.values)
    (hk : e'.groupKey = e.groupKey) (hs : e.state ≠ .detached → e'.state ≠ .detached) :
    Continues e e' where
  type := ht
  groupKey := hk
  keyText _ := keyText_congr ht (by intro p _; simp [keyValue, get?, hv])
  tracked := hs
  complete he := by
    intro p hp
    rw [ht] at hp
    simpa [get?, hv] using he p hp

theorem continues_moveTo {e e' : Entity} {next : EntityState} (hn : next ≠ .detached)
    (h : e.moveTo next = .ok e') : Continues e e' := by
  unfold moveTo at h
  split at h
  · cases h
    exact continues_of_values rfl rfl rfl fun _ => hn
  · cases h

theorem continues_markUnchanged {e e' : Entity} (h : e.markUnchanged = .ok e') :
    Continues e e' := by
  obtain ⟨u, hm, rfl⟩ := map_ok h
  exact (continues_moveTo (by decide) hm).trans (continues_of_values rfl rfl rfl id)

theorem continues_markModified {e e' : Entity} (h : e.markModified = .ok e') :
    Continues e e' := continues_moveTo (by decide) h

theorem continues_markDeleted {e e' : Entity} (ha : e.state ≠ .added)
    (h : e.markDeleted = .ok e') : Continues e e' := by
  unfold markDeleted at h
  split at h
  · contradiction
  · cases h
  · exact continues_moveTo (by decide) h

theorem continues_acceptChanges {e : Entity} (hd : e.state ≠ .deleted) :
    Continues e e.acceptChanges := by
  refine continues_of_values rfl rfl rfl fun ha => ?_
  unfold acceptChanges
  cases hs : e.state <;> simp_all

theorem set_eq_ok_iff {e e' : Entity} {name : String} {v : Value} : e.set name v = .ok e' ↔
    ∃ p, e.type.dataProperty? name = some p ∧ ¬ (p.isKey && e.isAttached) ∧ e.state ≠ .deleted ∧
      e' = if ((e.get? name).getD .null).same (p.dataType.coerce v)
        then e.write name (p.dataType.coerce v)
        else (e.write name (p.dataType.coerce v)).recordEdit name ((e.get? name).getD .null) := by
  unfold set
  cases e.type.dataProperty? name with
  | none => simp
  | some p =>
    dsimp only
    by_cases hkey : (p.isKey && e.isAttached) = true
    · rw [if_pos hkey]
      refine iff_of_false nofun ?_
      rintro ⟨q, hq, hfree, -⟩
      cases hq
      exact hfree hkey
    · rw [if_neg hkey]
      by_cases hs : e.state = .deleted
      · rw [if_pos hs]
        exact iff_of_false nofun fun ⟨_, _, _, halive, _⟩ => halive hs
      · rw [if_neg hs]
        constructor
        · exact fun h => ⟨p, rfl, hkey, hs, (Except.ok.inj h).symm⟩
        · rintro ⟨q, hq, -, -, rfl⟩
          cases hq
          rfl

theorem continues_recordEdit (e : Entity) (n : String) (old : Value) :
    Continues e (e.recordEdit n old) := by
  unfold recordEdit
  split
  · exact continues_of_values rfl rfl rfl fun _ => by simp
  · exact continues_of_values rfl rfl rfl fun _ => by simp
  · exact .refl e

/-- A write that meets no key property of an attached entity. -/
theorem continues_write {e : Entity} {n : String} (v : Value)
    (hn : e.isAttached → ∀ p ∈ e.type.keyProperties, p.name ≠ n) :
    Continues e (e.write n v) where
  type := rfl
  groupKey := rfl
  keyText ha := keyText_congr rfl fun p hp => by
    simp [keyValue, get?_write, hn ha p hp]
  tracked := id
  complete he := he.write n v

theorem continues_set {e e' : Entity} {n : String} {v : Value} (ht : e.type.DistinctNames)
    (h : e.set n v = .ok e') : Continues e e' := by
  obtain ⟨p, hp, hk, -, rfl⟩ := set_eq_ok_iff.mp h
  have hw : Continues e (e.write n (p.dataType.coerce v)) := by
    refine continues_write _ fun ha => EntityType.name_ne_of_not_key ht hp ?_
    simpa [ha] using hk
  split
  · exact hw
  · exact hw.trans (continues_recordEdit _ n _)

section Merge

/-- What merging leaves in a property: the value of the source, where it has one. -/
theorem get?_merge (ps : List DataProperty) (source : Entity) (values : Table Value)
    (name : String) :
    (ps.foldl (fun values p => match source.get? p.name with
      | some v => values.put p.name v
      | none => values) values).get? name =
      if name ∈ ps.map (·.name) then (source.get? name).or (values.get? name)
      else values.get? name := by
  induction ps generalizing values with
  | nil => simp
  | cons p ps ih =>
    rw [List.foldl_cons, ih]
    cases hs : source.get? p.name with
    | none => by_cases h : name = p.name <;> simp [h, hs]
    | some v =>
      by_cases h : name = p.name
      · subst h; simp [hs, Table.get?_put]
      · simp [h, Table.get?_put]

theorem get?_mergeFrom (e source : Entity) (name : String) :
    (e.mergeFrom source).get? name =
      if name ∈ e.type.dataProperties.map (·.name) then (source.get? name).or (e.get? name)
      else e.get? name := get?_merge e.type.dataProperties source e.values name

theorem complete_mergeFrom {e : Entity} (he : e.Complete) (source : Entity) :
    (e.mergeFrom source).Complete := by
  intro p hp
  rw [get?_mergeFrom]
  have h := he p hp
  split
  · cases source.get? p.name <;> simp [h]
  · exact h

theorem keyText_mergeFrom {e source : Entity} (ht : source.type = e.type)
    (hc : source.Complete) : (e.mergeFrom source).keyText = source.keyText := by
  refine keyText_congr ht.symm fun p hp => ?_
  have hd : p ∈ e.type.dataProperties := (EntityType.mem_keyProperties.mp hp).1
  obtain ⟨v, hv⟩ := Option.isSome_iff_exists.mp (hc p (ht ▸ hd))
  have hm : p.name ∈ e.type.dataProperties.map (·.name) := List.mem_map_of_mem hd
  simp [keyValue, get?_mergeFrom, hm, hv]

theorem continues_mergeFrom {e source : Entity}
    (hk : e.isAttached → (e.mergeFrom source).keyText = e.keyText) :
    Continues e (e.mergeFrom source) :=
  ⟨rfl, rfl, hk, id, fun he => complete_mergeFrom he source⟩

end Merge

/-- Of the values that are put back the last one of a name counts. -/
theorem get?_restore (originals : Table Value) (values : Table Value) (name : String) :
    (originals.foldl (fun values o => values.put o.1 o.2) values).get? name =
      (Table.get? originals.reverse name).or (values.get? name) := by
  induction originals generalizing values with
  | nil => rfl
  | cons o rest ih =>
    rw [List.foldl_cons, ih, Table.get?_put, List.reverse_cons, Table.get?_append, Option.or_assoc]
    by_cases ho : name = o.1
    · simp [Table.get?, ho]
    · simp [Table.get?, ho, Ne.symm ho]

def original (e : Entity) (p : DataProperty) : Value :=
  ((Table.get? e.originals.reverse p.name).or (e.get? p.name)).getD .null

/-- Where no part of the key has an original value, no other key is brought back. -/
theorem keyTextWith_original {e : Entity}
    (h : ∀ p ∈ e.type.keyProperties, ¬ e.originals.has p.name) :
    e.keyTextWith e.original = e.keyText := by
  refine (keyText_eq_keyTextWith rfl fun p hp => ?_).symm
  have hnone : p.name ∉ e.originals.names := by
    have hnot := h p hp
    rw [Table.has, Option.not_isSome_iff_eq_none, Table.get?_eq_none_iff] at hnot
    exact hnot
  have hreverse : Table.get? e.originals.reverse p.name = none :=
    (Table.get?_eq_none_iff _ _).mpr (by simpa [Table.names] using hnone)
  rw [original, hreverse, Option.none_or]

theorem get?_rejectChanges (e : Entity) (name : String) : e.rejectChanges.get? name =
    (Table.get? e.originals.reverse name).or (e.get? name) := get?_restore e.originals e.values name

theorem complete_rejectChanges {e : Entity} (he : e.Complete) : e.rejectChanges.Complete := by
  intro p hp
  rw [get?_rejectChanges, Option.isSome_or, he p hp, Bool.or_true]

theorem keyText_rejectChanges (e : Entity) : e.rejectChanges.keyText = e.keyTextWith e.original :=
  keyText_eq_keyTextWith rfl fun p _ => by rw [original, get?_rejectChanges]

end Entity

end EntityCache
