import EntityCache.Proofs.FailedFixups

/-! The three parts of what a save brings, one by one: keys that are assigned, which leave
everybody in place and in its state; pending entities that are settled; and values that were
returned, which are merged into whoever is cached under the key of the node. -/
namespace EntityCache

open Cache EntityCache.Action

theorem Action.on_of_toOption {α : Type} {a : Action α} {c : Cache} {x : α}
    (h : (a.on c).1.toOption = some x) : a.on c = (.ok x, (a.on c).2) := by
  cases hr : a.on c with
  | mk r c' =>
    rw [hr] at h
    cases r <;> cases h
    rfl

namespace Cache

variable {c c' : Cache}

/-- Keys and foreign keys may have been rewritten. Everybody is where it was and in the
state it was in, and remembers the same edits. -/
structure Relabels (c c' : Cache) : Prop where
  unmoved : Unmoved c c'
  type : ∀ id, (c'.entity id).type = (c.entity id).type
  state : ∀ id, (c'.entity id).state = (c.entity id).state
  originals : ∀ id, (c'.entity id).originals = (c.entity id).originals

instance : IsPreorder Cache Relabels where
  refl c := ⟨Std.Refl.refl c, fun _ => rfl, fun _ => rfl, fun _ => rfl⟩
  trans _ _ _ h k :=
    ⟨IsTrans.trans _ _ _ h.unmoved k.unmoved, fun id => (k.type id).trans (h.type id),
      fun id => (k.state id).trans (h.state id), fun id => (k.originals id).trans (h.originals id)⟩

theorem Relabels.catalog (h : Relabels c c') : c'.catalog = c.catalog := by rw [h.unmoved.rest]

section Fixup

variable {catalog : Catalog} {t : EntityType} {p : DataProperty} {temp real old new : Value}
  {id : InstanceId} {r : String × String}

theorem Rekeyed.relabels (h : Rekeyed t p temp real c id c') : Relabels c c' := by
  have hentity : ∀ other, (c'.entity other).type = (c.entity other).type ∧
      (c'.entity other).state = (c.entity other).state ∧
      (c'.entity other).originals = (c.entity other).originals := by
    intro other
    by_cases ho : other = id
    · subst ho
      by_cases hk : Group.partText p temp = Group.partText p real
      · rw [h.unmarked hk]
        exact ⟨rfl, rfl, rfl⟩
      · rw [h.settled hk]
        exact ⟨rfl, rfl, rfl⟩
    · rw [h.others other ho]
      exact ⟨rfl, rfl, rfl⟩
  exact ⟨h.unmoved, fun other => (hentity other).1, fun other => (hentity other).2.1,
    fun other => (hentity other).2.2⟩

theorem Followed.relabels (h : Followed old new r c c') : Relabels c c' := by
  have hentity : ∀ id, (c'.entity id).state = (c.entity id).state ∧
      (c'.entity id).originals = (c.entity id).originals := by
    intro id
    by_cases hs : ∃ slot, c.Holds r.1 slot id
    · obtain ⟨slot, hs⟩ := hs
      obtain ⟨p, -, he⟩ := h.redirects hs
      rw [he, Entity.redirect]
      split <;> exact ⟨rfl, rfl⟩
    · rw [h.others fun slot hm => hs ⟨slot, hm⟩]
      exact ⟨rfl, rfl⟩
  exact ⟨h.unmoved, h.type, fun id => (hentity id).1, fun id => (hentity id).2⟩

/-- What no replacement of a key and no reference that is followed disturbs comes through a
fix-up, whether that succeeds or not. -/
theorem fixupKey_preserves {P : Cache → Prop} {typeName : String}
    (hrekey : ∀ {c c' t p id}, c.SoundIn catalog → catalog.find typeName = .ok t →
      Rekeyed t p temp real c id c' → P c → P c')
    (hfollow : ∀ {c c' t r new}, c.SoundIn catalog → catalog.find typeName = .ok t →
      r ∈ catalog.foreignKeyRefs t.name → Followed (t.keyValue temp) new r c c' → P c → P c')
    (hc : c.SoundIn catalog) (h : P c) : P ((fixupKey typeName temp real).on c).2 := by
  obtain ⟨hc, rfl⟩ := hc
  cases ht : c.catalog.find typeName with
  | error fault =>
    unfold fixupKey
    rw [on_bind_ok (on_get c), ht, on_bind_error (on_lift _ c)]
    exact h
  | ok t =>
    have htype := Catalog.type?_of_find? (Catalog.find_ok ht)
    rw [on_fixupKey ht, on_replaceTempKey]
    cases hr : c.rekey t temp real with
    | error fault => exact h
    | ok result =>
      obtain ⟨id, c₁⟩ := result
      obtain ⟨p, hrekeyed⟩ := rekey_spec hc htype hr
      have hstart : c₁.catalog = c.catalog ∧ P c₁ :=
        ⟨hrekeyed.relabels.catalog, hrekey ⟨hc, rfl⟩ ht hrekeyed h⟩
      refine (cascade_preserves (P := fun d => d.catalog = c.catalog ∧ P d) _ _ _
        (fun {d d' r} hr hd hf hp => ?_) hrekeyed.sound hstart).2.2
      exact ⟨hf.relabels.catalog.trans hp.1, hfollow ⟨hd, hp.1⟩ ht hr hf hp.2⟩

theorem fixupKey_relabels (typeName : String) (temp real : Value) :
    (fixupKey typeName temp real).Keeps (SoundIn catalog) Relabels := fun c hc =>
  ⟨(fixupKey_keeps typeName temp real c hc).holds,
    fixupKey_preserves (P := Relabels c)
      (fun _ _ hr h => IsTrans.trans _ _ _ h hr.relabels)
      (fun _ _ _ hf h => IsTrans.trans _ _ _ h hf.relabels) hc (Std.Refl.refl c)⟩

end Fixup

end Cache

section Settle

def Entity.settled (e : Entity) : Entity :=
  match e.state with
  | .deleted => e.markDetached
  | .added | .modified => e.acceptChanges
  | .detached | .unchanged => e

namespace Entity

variable {e : Entity}

theorem settled_of_deleted (h : e.state = .deleted) : e.settled = e.markDetached := by
  rw [settled, h]

theorem settled_of_changed (h : e.state = .added ∨ e.state = .modified) :
    e.settled = e.acceptChanges := by
  rcases h with h | h <;> rw [settled, h]

theorem settled_of_not_pending (h : e.state.isPending = false) : e.settled = e := by
  unfold settled
  cases hs : e.state <;> simp_all [EntityState.isPending]

theorem state_acceptChanges_of_changed (h : e.state = .added ∨ e.state = .modified) :
    e.acceptChanges.state = .unchanged := by
  rcases h with h | h <;> simp [acceptChanges, h]

theorem isPending_settled (e : Entity) : e.settled.state.isPending = false := by
  unfold settled
  cases hs : e.state <;> simp [markDetached, acceptChanges, hs, EntityState.isPending]

theorem type_settled (e : Entity) : e.settled.type = e.type := by
  unfold settled
  cases e.state <;> rfl

theorem get?_settled (e : Entity) (name : String) : e.settled.get? name = e.get? name := by
  unfold settled
  cases e.state <;> rfl

theorem settled_settled (e : Entity) : e.settled.settled = e.settled :=
  settled_of_not_pending e.isPending_settled

end Entity

namespace Cache

variable {c c' : Cache} {ids : List InstanceId}

/-- These entities have been settled and the others left alone. The Deleted ones among them
are in no slot any more. -/
structure SaveSettled (ids : List InstanceId) (c c' : Cache) : Prop where
  rest : c' = { c with groups := c'.groups, instances := c'.instances, keys := c'.keys }
  entity : ∀ id, c'.entity id = if id ∈ ids then (c.entity id).settled else c.entity id
  holds : ∀ name slot id, c'.Holds name slot id ↔
    c.Holds name slot id ∧ ¬ (id ∈ ids ∧ (c.entity id).state = .deleted)

theorem SaveSettled.type (h : SaveSettled ids c c') (id : InstanceId) :
    (c'.entity id).type = (c.entity id).type := by
  rw [h.entity]
  split
  · exact Entity.type_settled _
  · rfl

theorem SaveSettled.get? (h : SaveSettled ids c c') (id : InstanceId) (name : String) :
    (c'.entity id).get? name = (c.entity id).get? name := by
  rw [h.entity]
  split
  · exact Entity.get?_settled _ name
  · rfl

/-- One entity is settled that stays in its slot, as it was not Deleted. -/
theorem SaveSettled.in_place {id : InstanceId} {is : Instances}
    (he : is.entity id = (c.entity id).settled) (hd : (c.entity id).state ≠ .deleted)
    (ho : ∀ other ≠ id, is.entity other = c.entity other) :
    SaveSettled [id] c { c with instances := is } := by
  refine ⟨rfl, fun other => ?_, fun name slot other => ?_⟩
  · simp only [List.mem_singleton]
    split
    · rename_i heq
      rw [heq]
      exact he
    · exact ho other ‹_›
  · refine ⟨fun hs => ⟨hs, ?_⟩, And.left⟩
    rintro ⟨hm, hdeleted⟩
    rw [List.mem_singleton.mp hm] at hdeleted
    exact hd hdeleted

theorem detach_vacates (hc : c.Sound) {id r : InstanceId} (h : (detach id).on c = (.ok r, c')) :
    c' = { c with groups := c'.groups, instances := c'.instances, keys := c'.keys } ∧
    (∀ other, c'.entity other =
      if other = id then (c.entity id).markDetached else c.entity other) ∧
    ∀ name slot other, c'.Holds name slot other ↔ c.Holds name slot other ∧ other ≠ id := by
  rcases detach_cases id c with ⟨fault, -, hf⟩ | ⟨g, g', is, keys, hg, hdetach, ho⟩
  · cases hf.symm.trans h
  · cases ho.symm.trans h
    obtain ⟨key, left, -, -, hleft, rfl, rfl⟩ := Group.detach_spec hdetach
    have hheld : c.Holds (c.entity id).type.name left id := ⟨g, hg, hleft⟩
    refine ⟨rfl, fun other => Instances.entity_put _ _ _ _, fun name slot other => ?_⟩
    simp only [Holds, get?_putGroup]
    split
    · rename_i hname
      subst hname
      simp only [hg, Option.some.injEq, exists_eq_left', Group.holds_vacate]
      refine ⟨fun hs => ⟨hs.2, ?_⟩, fun hs => ⟨?_, hs.1⟩⟩
      · rintro rfl
        exact hs.1 ((hc.groups hg).slot_unique hs.2 hleft)
      · rintro rfl
        exact hs.2 (hs.1.unique hleft)
    · rename_i hname
      refine ⟨fun hs => ⟨hs, ?_⟩, And.left⟩
      rintro rfl
      exact hname (hc.indexed.once hheld hs).1

/-- These entities have become what `f` makes of them, and the others are as they were. Those
that were in the state that has to go are in no slot any more. -/
structure Concluded (gone : EntityState) (f : Entity → Entity) (ids : List InstanceId)
    (c c' : Cache) : Prop where
  entity : ∀ id, c'.entity id = if id ∈ ids then f (c.entity id) else c.entity id
  holds : ∀ name slot id, c'.Holds name slot id ↔
    c.Holds name slot id ∧ ¬ (id ∈ ids ∧ (c.entity id).state = gone)

theorem Concluded.of_detach {gone : EntityState} {f : Entity → Entity} {id : InstanceId}
    (hc : c.Sound) (hs : (c.entity id).state = gone)
    (hf : f (c.entity id) = (c.entity id).markDetached) {r : InstanceId}
    (h : (detach id).on c = (.ok r, c')) : Concluded gone f [id] c c' := by
  obtain ⟨-, hentity, hholds⟩ := detach_vacates hc h
  refine ⟨fun other => ?_, fun name slot other => ?_⟩
  · rw [hentity]
    simp only [List.mem_singleton]
    split
    · rename_i hother
      rw [hother, hf]
    · rfl
  · rw [hholds]
    refine and_congr_right fun _ => not_congr ?_
    rw [List.mem_singleton]
    exact ⟨fun hother => ⟨hother, hother ▸ hs⟩, And.left⟩

theorem detach_settles (hc : c.Sound) {id : InstanceId} (hd : (c.entity id).state = .deleted)
    {r : InstanceId} (h : (detach id).on c = (.ok r, c')) : SaveSettled [id] c c' := by
  have hconcluded := Concluded.of_detach hc hd (Entity.settled_of_deleted hd) h
  exact ⟨(detach_vacates hc h).1, hconcluded.entity, hconcluded.holds⟩

theorem settle_settles (hc : c.Sound) {id : InstanceId} (h : (settle id).on c = (.ok (), c')) :
    SaveSettled [id] c c' := by
  unfold settle at h
  rw [on_bind_ok (on_stateOf id c)] at h
  cases hs : (c.entity id).state with
  | detached | unchanged =>
    rw [hs] at h
    cases h
    have hsettled : (c.entity id).settled = c.entity id :=
      Entity.settled_of_not_pending (by rw [hs]; rfl)
    exact .in_place hsettled.symm (by simp [hs]) fun _ _ => rfl
  | added | modified =>
    rw [hs] at h
    dsimp only at h
    rw [on_change] at h
    cases h
    have hsettled := Entity.settled_of_changed (e := c.entity id) (by simp [hs])
    exact .in_place (by simp [hsettled]) (by simp [hs]) fun other ho => by simp [entity, ho]
  | deleted =>
    rw [hs] at h
    dsimp only at h
    rw [on_discard] at h
    cases hr : (detach id).on c with
    | mk r c₁ =>
      rw [hr] at h
      cases r with
      | error fault => cases h
      | ok r =>
        cases h
        exact detach_settles hc hs hr

/-- Entities that are settled one after the other, some of them perhaps twice. -/
theorem SaveSettled.cons {id : InstanceId} {c₁ : Cache} (h : SaveSettled [id] c c₁)
    (k : SaveSettled ids c₁ c') : SaveSettled (id :: ids) c c' := by
  refine ⟨by rw [k.rest, h.rest], fun other => ?_, fun name slot other => ?_⟩
  · rw [k.entity, h.entity]
    by_cases ho : other = id <;> by_cases hm : other ∈ ids <;>
      simp [ho, hm, Entity.settled_settled]
  · rw [k.holds, h.holds, h.entity]
    by_cases ho : other = id
    · subst ho
      have hnot : (c.entity other).settled.state ≠ .deleted := by
        intro hd
        have hp := (c.entity other).isPending_settled
        simp [hd, EntityState.isPending] at hp
      simp [hnot]
    · simp [ho]

theorem settleAll_settles {catalog : Catalog} (hc : c.SoundIn catalog)
    (h : (ids.forM settle).on c = (.ok (), c')) : SaveSettled ids c c' := by
  induction ids generalizing c with
  | nil =>
    cases h
    exact ⟨rfl, fun _ => rfl, fun _ _ _ => by simp⟩
  | cons id ids ih =>
    have hcons : (id :: ids).forM settle = (settle id >>= fun _ => ids.forM settle) := rfl
    have hkept := (settle_keeps id c hc).holds
    rw [hcons] at h
    cases hr : (settle id).on c with
    | mk r c₁ =>
      rw [hr] at hkept
      cases r with
      | error fault =>
        rw [on_bind_error hr] at h
        cases h
      | ok =>
        rw [on_bind_ok hr] at h
        exact (settle_settles hc.sound hr).cons (ih hkept h)

end Cache

end Settle

end EntityCache
