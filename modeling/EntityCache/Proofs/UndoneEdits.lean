import EntityCache.Proofs.LocalEdits
import EntityCache.Proofs.OriginalValues
import EntityCache.Proofs.ValueEquality

/-! Edits of one entity that was Unchanged and had nothing to restore: assignments, marking it
Modified, deleting it, in any order, whether or not they succeed. What is recorded of a property
is the value that it had at the start, whatever was assigned later, so that a rejection takes
back all of them. Values count as the same here if they compare equal; an assignment may well
replace one by another that is written differently. -/
namespace EntityCache

open Cache EntityCache.Action EntityCache.Entity

inductive Edit where
  | set (name : String) (v : Value)
  | markModified
  | delete

namespace Edit

def op (id : InstanceId) : Edit → Op
  | set name v => .set id name v
  | markModified => .markModified id
  | delete => .delete id

def apply : Edit → Entity → Except Fault Entity
  | set name v, e => e.set name v
  | markModified, e => e.markModified
  | delete, e => e.markDeleted

end Edit

namespace Entity

variable {a b e e' start : Entity} {name : String}

def SameIn (a b : Entity) (name : String) : Prop :=
  Option.Rel (fun v w => v.same w = true) (a.get? name) (b.get? name)

def DifferIn (a b : Entity) (name : String) : Prop :=
  ∃ v w, a.get? name = some v ∧ b.get? name = some w ∧ v.same w = false

theorem SameIn.of_eq (h : a.get? name = b.get? name) : SameIn a b name := by
  unfold SameIn
  rw [h]
  cases b.get? name with
  | none => exact .none
  | some v => exact .some (Value.same_self v)

theorem sameIn_of_some {v w : Value} (ha : a.get? name = some v) (hb : b.get? name = some w)
    (h : v.same w) : SameIn a b name := by
  rw [SameIn, ha, hb]
  exact .some h

theorem SameIn.some_left (h : SameIn a b name) {v : Value} (ha : a.get? name = some v) :
    ∃ w, b.get? name = some w ∧ v.same w := by
  rw [SameIn, ha] at h
  cases hb : b.get? name with
  | none =>
    rw [hb] at h
    cases h
  | some w =>
    rw [hb] at h
    cases h with
    | some hvw => exact ⟨w, rfl, hvw⟩

theorem not_differIn_of_eq (h : a.get? name = b.get? name) : ¬ DifferIn a b name := by
  rintro ⟨v, w, ha, hb, hdiffer⟩
  obtain rfl : v = w := Option.some.inj (ha.symm.trans (h.trans hb))
  rw [Value.same_self] at hdiffer
  cases hdiffer

theorem get?_write_of_ne {n : String} (h : n ≠ name) (v : Value) :
    (e.write name v).get? n = e.get? n := (get?_write e name n v).trans (if_neg h)

theorem set_after {p : DataProperty} {v old : Value} (hp : e.type.dataProperty? name = some p)
    (hold : e.get? name = some old) (h : e.set name v = .ok e') :
    e' = if old.same (p.dataType.coerce v) then e.write name (p.dataType.coerce v)
      else (e.write name (p.dataType.coerce v)).recordEdit name old := by
  obtain ⟨q, hq, -, -, rfl⟩ := set_eq_ok_iff.mp h
  cases hp.symm.trans hq
  rw [hold, Option.getD_some]

/-- An entity on its way from an Unchanged one: recorded are the properties that some
assignment has changed, with their first values; the others still have theirs. -/
structure Restorable (start : Entity) (changed : String → Prop) (e : Entity) : Prop where
  complete : e.Complete
  state : e.state = .unchanged ∨ e.state = .modified ∨ e.state = .deleted
  recorded_iff : ∀ name, e.originals.has name ↔ changed name
  original : ∀ {name v}, (name, v) ∈ e.originals → ∃ w, start.get? name = some w ∧ v.same w
  kept : ∀ {name}, e.originals.get? name = none → e.SameIn start name

variable {changed changed' : String → Prop}

theorem restorable_start (hc : e.Complete) (hs : e.state = .unchanged) (ho : e.originals = []) :
    Restorable e (fun _ => False) e where
  complete := hc
  state := Or.inl hs
  recorded_iff name := by simp [ho, Table.has, Table.get?]
  original h := by
    rw [ho] at h
    cases h
  kept _ := .of_eq rfl

theorem Restorable.congr (h : Restorable start changed e)
    (hiff : ∀ name, changed name ↔ changed' name) : Restorable start changed' e :=
  { h with recorded_iff := fun name => (h.recorded_iff name).trans (hiff name) }

theorem Restorable.of_state (h : Restorable start changed e) {next : EntityState}
    (hs : next = .modified ∨ next = .deleted) :
    Restorable start changed { e with state := next } :=
  ⟨h.complete, Or.inr hs, h.recorded_iff, h.original, h.kept⟩

theorem Complete.get? (h : e.Complete) {p : DataProperty}
    (hp : e.type.dataProperty? name = some p) : ∃ v, e.get? name = some v := by
  obtain ⟨hm, rfl⟩ := EntityType.dataProperty?_some hp
  exact Option.isSome_iff_exists.mp (h p hm)

/-- Another way to write the value that is there. -/
theorem Restorable.write_same (h : Restorable start changed e) {old new : Value}
    (hold : e.get? name = some old) (hsame : old.same new) :
    Restorable start changed (e.write name new) := by
  refine ⟨h.complete.write name new, h.state, h.recorded_iff, h.original, fun {n} hnone => ?_⟩
  by_cases hn : n = name
  · subst hn
    obtain ⟨first, hfirst, hkept⟩ := (h.kept hnone).some_left hold
    have hnew : (e.write n new).get? n = some new := by rw [get?_write, if_pos rfl]
    exact sameIn_of_some hnew hfirst (Value.same_trans new (Value.same_symm hsame) hkept)
  · unfold SameIn
    rw [get?_write, if_neg hn]
    exact h.kept hnone

/-- Another value. The one that it replaces is recorded, unless there is an earlier one. -/
theorem Restorable.record (h : Restorable start changed e) {old : Value} (new : Value)
    (hold : e.get? name = some old) (hs : e.state = .unchanged ∨ e.state = .modified) :
    Restorable start (fun n => changed n ∨ n = name) ((e.write name new).recordEdit name old) := by
  have hrecorded : (e.write name new).recordEdit name old = { e.write name new with
      originals := e.originals.putNew name old, state := .modified } := by
    unfold recordEdit
    rcases hs with hs | hs <;> simp only [write, hs]
  rw [hrecorded]
  refine ⟨h.complete.write name new, Or.inr (Or.inl rfl), fun n => ?_, fun {n v} hm => ?_,
    fun {n} hnone => ?_⟩
  · rw [Table.has_putNew, h.recorded_iff]
  · by_cases hhas : e.originals.has name
    · rw [Table.putNew, if_pos hhas] at hm
      exact h.original hm
    · rcases Table.mem_putNew hm with hm | heq
      · exact h.original hm
      · cases heq
        exact (h.kept (Table.not_has_iff.mp hhas)).some_left hold
  · rw [← Table.not_has_iff, Table.has_putNew, not_or] at hnone
    have hkept := h.kept (Table.not_has_iff.mp hnone.1)
    unfold SameIn at hkept ⊢
    rwa [← get?_write_of_ne hnone.2 new] at hkept

theorem Restorable.set (h : Restorable start changed e) {v : Value} (hset : e.set name v = .ok e') :
    Restorable start (fun n => changed n ∨ n = name ∧ e.DifferIn e' n) e' := by
  obtain ⟨p, hp, -, hdeleted, -, hget, -⟩ := set_spec hset
  obtain ⟨old, hold⟩ := h.complete.get? hp
  have hnew : e'.get? name = some (p.dataType.coerce v) := by rw [hget, if_pos rfl]
  have hs : e.state = .unchanged ∨ e.state = .modified := by
    rcases h.state with hs | hs | hs
    · exact Or.inl hs
    · exact Or.inr hs
    · exact absurd hs hdeleted
  have hafter := set_after hp hold hset
  by_cases hsame : old.same (p.dataType.coerce v)
  · rw [if_pos hsame] at hafter
    have hnot : ¬ e.DifferIn e' name := by
      rintro ⟨w, w', hw, hw', hdiffer⟩
      obtain rfl := Option.some.inj (hold.symm.trans hw)
      obtain rfl := Option.some.inj (hnew.symm.trans hw')
      exact Bool.false_ne_true (hdiffer.symm.trans hsame)
    rw [hafter] at hnot ⊢
    refine (h.write_same hold hsame).congr fun n => (or_iff_left ?_).symm
    rintro ⟨rfl, hdiffer⟩
    exact hnot hdiffer
  · rw [if_neg hsame] at hafter
    have hdiffer : e.DifferIn e' name := ⟨old, _, hold, hnew, Bool.eq_false_iff.mpr hsame⟩
    rw [hafter] at hdiffer ⊢
    refine (h.record _ hold hs).congr fun n => or_congr_right ⟨fun hn => ⟨hn, ?_⟩, And.left⟩
    rwa [hn]

theorem Restorable.moveTo (h : Restorable start changed e) {next : EntityState}
    (hs : next = .modified ∨ next = .deleted) (hm : e.moveTo next = .ok e') :
    Restorable start changed e' := by
  unfold Entity.moveTo at hm
  split at hm <;> cases hm
  exact h.of_state hs

theorem Restorable.apply (h : Restorable start changed e) {edit : Edit}
    (he : edit.apply e = .ok e') :
    Restorable start (fun n => changed n ∨ (∃ v, edit = .set n v) ∧ e.DifferIn e' n) e' := by
  cases edit with
  | set name v =>
    refine (h.set he).congr fun n => or_congr_right (and_congr_left fun _ => ?_)
    constructor
    · rintro rfl
      exact ⟨v, rfl⟩
    · rintro ⟨_, heq⟩
      cases heq
      rfl
  | markModified =>
    exact (h.moveTo (Or.inl rfl) he).congr fun n => (or_iff_left nofun).symm
  | delete =>
    have hmoved : Restorable start changed e' := by
      change e.markDeleted = .ok e' at he
      unfold markDeleted at he
      rcases h.state with hs | hs | hs <;> rw [hs] at he <;> exact h.moveTo (Or.inr rfl) he
    exact hmoved.congr fun n => (or_iff_left nofun).symm

theorem Restorable.rejected (h : Restorable start changed e) :
    e.rejectChanges.state = .unchanged ∧ e.rejectChanges.originals = [] ∧
      ∀ name, e.rejectChanges.SameIn start name := by
  refine ⟨?_, rfl, fun name => ?_⟩
  · unfold rejectChanges
    rcases h.state with hs | hs | hs <;> rw [hs]
  · rcases get?_rejectChanges_cases e name with ⟨hnone, hget⟩ | ⟨v, hm, hget⟩
    · have hkept := h.kept hnone
      unfold SameIn at hkept ⊢
      rwa [hget]
    · obtain ⟨w, hw, hsame⟩ := h.original hm
      exact sameIn_of_some hget hw hsame

end Entity

namespace Cache

variable {c : Cache} {id : InstanceId} {start : Entity} {changed : String → Prop}

theorem entity_put_self (c : Cache) (id : InstanceId) (e : Entity) :
    ({ c with instances := c.instances.put id e } : Cache).entity id = e :=
  (Instances.entity_put _ _ _ _).trans (if_pos rfl)

def edited (c : Cache) (id : InstanceId) (edits : List Edit) : Cache :=
  c.run (edits.map (Edit.op id))

def Changed (c : Cache) (id : InstanceId) (edits : List Edit) (name : String) : Prop :=
  ∃ before v after, edits = before ++ .set name v :: after ∧
    ((c.edited id before).entity id).DifferIn
      ((c.edited id (before ++ [.set name v])).entity id) name

theorem edited_append_singleton (c : Cache) (id : InstanceId) (edits : List Edit) (e : Edit) :
    c.edited id (edits ++ [e]) = (c.edited id edits).next (e.op id) := by
  simp [edited, run]

theorem changed_append_singleton {edits : List Edit} {e : Edit} {name : String} :
    c.Changed id (edits ++ [e]) name ↔ c.Changed id edits name ∨
      (∃ v, e = .set name v) ∧ ((c.edited id edits).entity id).DifferIn
        (((c.edited id edits).next (e.op id)).entity id) name := by
  constructor
  · rintro ⟨before, v, after, hsplit, hdiffer⟩
    rcases List.eq_nil_or_concat after with rfl | ⟨init, last, rfl⟩
    · obtain ⟨rfl, hlast⟩ := List.append_inj' hsplit rfl
      cases hlast
      rw [edited_append_singleton] at hdiffer
      exact Or.inr ⟨⟨v, rfl⟩, hdiffer⟩
    · rw [List.concat_eq_append, ← List.cons_append, ← List.append_assoc] at hsplit
      obtain ⟨rfl, -⟩ := List.append_inj' hsplit rfl
      exact Or.inl ⟨before, v, init, rfl, hdiffer⟩
  · rintro (⟨before, v, after, rfl, hdiffer⟩ | ⟨⟨v, rfl⟩, hdiffer⟩)
    · exact ⟨before, v, after ++ [e], by simp, hdiffer⟩
    · refine ⟨edits, v, [], rfl, ?_⟩
      rwa [edited_append_singleton]

theorem on_delete (ha : (c.entity id).state ≠ .added) : (delete id).on c =
    match (c.entity id).markDeleted with
    | .ok e => (.ok e.state, { c with instances := c.instances.put id e })
    | .error fault => (.error fault, c) := by
  unfold delete
  rw [on_bind_ok (on_stateOf id c), if_neg ha]
  change (change id Entity.markDeleted >>= fun _ => stateOf id).on c = _
  rw [on_bind, on_change]
  cases (c.entity id).markDeleted with
  | error fault => rfl
  | ok e =>
    dsimp only
    rw [on_stateOf]
    simp [entity]

/-- An edit of an entity that is not Added is refused without a trace, or the entity alone is
edited. -/
theorem edit_cases (ha : (c.entity id).state ≠ .added) (e : Edit) :
    (∃ fault, (e.op id).action.on c = (.error fault, c)) ∨
      ∃ e', e.apply (c.entity id) = .ok e' ∧
        (e.op id).action.on c = (.ok (), { c with instances := c.instances.put id e' }) := by
  have hchange : ∀ f : Entity → Except Fault Entity,
      (∃ fault, (change id f).on c = (.error fault, c)) ∨ ∃ e', f (c.entity id) = .ok e' ∧
        (change id f).on c = (.ok (), { c with instances := c.instances.put id e' }) := by
    intro f
    rw [on_change]
    cases hf : f (c.entity id) with
    | error fault => exact Or.inl ⟨fault, rfl⟩
    | ok e' => exact Or.inr ⟨e', rfl, rfl⟩
  cases e with
  | set name v => exact hchange (·.set name v)
  | markModified => exact hchange Entity.markModified
  | delete =>
    have hop : (Edit.op id .delete).action = discard (delete id) := rfl
    rw [hop, on_discard, on_delete ha]
    cases hd : (c.entity id).markDeleted with
    | error fault => exact Or.inl ⟨fault, rfl⟩
    | ok e' => exact Or.inr ⟨e', hd, rfl⟩

theorem next_restorable (h : Restorable start changed (c.entity id)) (e : Edit) :
    Restorable start (fun n => changed n ∨ (∃ v, e = .set n v) ∧
      (c.entity id).DifferIn ((c.next (e.op id)).entity id) n) ((c.next (e.op id)).entity id) := by
  have ha : (c.entity id).state ≠ .added := by
    rcases h.state with hs | hs | hs <;> simp [hs]
  unfold next
  rcases edit_cases ha e with ⟨fault, hon⟩ | ⟨e', he, hon⟩ <;> rw [hon]
  · refine h.congr fun n => (or_iff_left ?_).symm
    rintro ⟨-, hdiffer⟩
    exact not_differIn_of_eq rfl hdiffer
  · rw [entity_put_self]
    exact h.apply he

theorem edited_restorable (hc : (c.entity id).Complete) (hs : (c.entity id).state = .unchanged)
    (ho : (c.entity id).originals = []) (edits : List Edit) :
    Restorable (c.entity id) (c.Changed id edits) ((c.edited id edits).entity id) := by
  induction edits using List.reverseRecOn with
  | nil =>
    refine (restorable_start hc hs ho).congr fun name => ⟨False.elim, ?_⟩
    rintro ⟨before, v, after, hsplit, -⟩
    simp at hsplit
  | append_singleton edits e ih =>
    rw [edited_append_singleton]
    exact (next_restorable ih e).congr fun name => changed_append_singleton.symm

/-- Whatever is done to an Unchanged entity without original values, and in whatever order:
recorded are exactly the properties that were changed, each with a value that is the same as
the first one; an edit that is refused leaves the cache as it is; and a rejection takes
everything back. That the entity has a value for each of its properties is so from its creation
on (`Cache.Formed`). -/
theorem rejection_undoes_edits (hc : (c.entity id).Complete)
    (hs : (c.entity id).state = .unchanged) (ho : (c.entity id).originals = [])
    (edits : List Edit) :
    (∀ name, ((c.edited id edits).entity id).originals.has name ↔ c.Changed id edits name) ∧
    (∀ name v, ((c.edited id edits).entity id).originals.get? name = some v →
      ∃ w, (c.entity id).get? name = some w ∧ v.same w) ∧
    (∀ (e : Edit) (fault : Fault), ((e.op id).action.on (c.edited id edits)).1 = .error fault →
      c.edited id (edits ++ [e]) = c.edited id edits) ∧
    ∃ c', (rejectEntity id).on (c.edited id edits) = (.ok .unchanged, c') ∧
      (c'.entity id).state = .unchanged ∧ (c'.entity id).originals = [] ∧
      ∀ name, (c'.entity id).SameIn (c.entity id) name := by
  have h := edited_restorable hc hs ho edits
  have ha : ((c.edited id edits).entity id).state ≠ .added := by
    rcases h.state with hs | hs | hs <;> simp [hs]
  have hd : ((c.edited id edits).entity id).state ≠ .detached := by
    rcases h.state with hs | hs | hs <;> simp [hs]
  refine ⟨h.recorded_iff, fun name v hv => h.original (Table.mem_of_get? hv),
    fun e fault hfault => ?_, ?_⟩
  · rw [edited_append_singleton, next]
    rcases edit_cases ha e with ⟨_, hon⟩ | ⟨_, -, hon⟩
    · rw [hon]
    · rw [hon] at hfault
      cases hfault
  · obtain ⟨hstate, horiginals, hsame⟩ := h.rejected
    have hon := on_rejectEntity ha hd
    rw [hstate] at hon
    refine ⟨_, hon, ?_⟩
    rw [entity_put_self]
    exact ⟨hstate, horiginals, hsame⟩

/-- A customer is renamed twice and deleted, and gets its first name back. -/
theorem renamed_customer_restored :
    let c := salesCache.run [.create "Customer", .set 0 "id" (.integer 5),
      .set 0 "name" (.text "Ann"), .attach 0 .unchanged none]
    let edits : List Edit := [.set "name" (.text "Bea"), .set "id" (.integer 6),
      .set "name" (.text "Ann"), .delete, .set "name" (.text "Cid"), .markModified]
    (c.entity 0).Complete ∧ (c.entity 0).state = .unchanged ∧ (c.entity 0).originals = [] ∧
      c.Changed 0 edits "name" ∧ ¬ c.Changed 0 edits "id" ∧
      ∃ c', (rejectEntity 0).on (c.edited 0 edits) = (.ok .unchanged, c') ∧
        (c'.entity 0).originals = [] ∧ ∀ name, (c'.entity 0).SameIn (c.entity 0) name := by
  intro c edits
  have hsound : c.SoundIn sales := by
    refine run_keeps_sound sound_salesCache (by decide +kernel) fun n op hop => ?_
    match n, hop with
    | 0, hop | 1, hop | 2, hop => cases hop; trivial
    | 3, hop => cases hop; intro hs; cases hs
  have hc : (c.entity 0).Complete := hsound.sound.complete 0 (by decide +kernel)
  have hs : (c.entity 0).state = .unchanged := by decide +kernel
  have ho : (c.entity 0).originals = [] := List.isEmpty_iff.mp (by decide +kernel)
  obtain ⟨hrecorded, -, -, c', hon, -, horiginals, hsame⟩ := rejection_undoes_edits hc hs ho edits
  exact ⟨hc, hs, ho, (hrecorded "name").mp (by decide +kernel),
    fun hid => absurd ((hrecorded "id").mpr hid) (by decide +kernel), c', hon, horiginals, hsame⟩

end Cache

end EntityCache
