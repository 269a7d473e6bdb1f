import EntityCache.Proofs.SlotStore

/-! What each call on a group can do when it succeeds, and that it leaves the group sound.
A call that fails changes nothing, so these are all the cases there are. -/
namespace EntityCache

/-- What a call on the group of a type may do to the entities there are. -/
structure Instances.Edits (t : EntityType) (is is' : Instances) : Prop where
  count : is'.count = is.count
  type : ∀ id, (is'.entity id).type = (is.entity id).type
  complete : ∀ id, (is.entity id).Complete → (is'.entity id).Complete
  others : ∀ id, (is.entity id).type ≠ t → is'.entity id = is.entity id

namespace Instances.Edits

variable {t : EntityType} {is is' is'' : Instances}

theorem trans (h : Edits t is is') (k : Edits t is' is'') : Edits t is is'' where
  count := k.count.trans h.count
  type id := (k.type id).trans (h.type id)
  complete id hc := k.complete id (h.complete id hc)
  others id ht := (k.others id (by rwa [h.type id])).trans (h.others id ht)

theorem freeze (t : EntityType) (is : Instances) (v : TypeVersion) : Edits t is (is.freeze v) :=
  ⟨by simp, by simp, by simp, by simp⟩

theorem put {id : InstanceId} {e : Entity} (ht : (is.entity id).type = t) (he : e.type = t)
    (hc : (is.entity id).Complete → e.Complete) : Edits t is (is.put id e) where
  count := rfl
  type other := by
    by_cases ho : other = id
    · subst ho; simp [he, ht]
    · simp [ho]
  complete other := by
    by_cases ho : other = id
    · subst ho; simpa using hc
    · simp [ho]
  others other hother := by
    have ho : other ≠ id := by rintro rfl; exact hother ht
    simp [ho]

theorem edit {id : InstanceId} {e : Entity} (ht : (is.entity id).type = t)
    (hc : (is.entity id).Continues e) : Edits t is (is.put id e) :=
  put ht (hc.type.trans ht) hc.complete

end Instances.Edits

namespace Group

variable {g g' : Group} {is is' : Instances}

section Attach

theorem joiningKey_eq_ok {e : Entity} {state : EntityState} {k : EntityKey}
    (h : g.joiningKey e state = .ok k) :
    e.type.name = g.type.name ∧ state ≠ .detached ∧ k = e.ownKey ∧ e.ownKey.isComplete := by
  simp only [joiningKey, Entity.key_eq] at h
  by_cases ht : e.type.name = g.type.name
  · by_cases hs : state = .detached
    · simp [ht, hs, bind, Except.bind, throw, throwThe, MonadExceptOf.throw] at h
    · cases hc : e.ownKey.isComplete <;>
        simp_all [bind, Except.bind, throw, throwThe, MonadExceptOf.throw, pure, Except.pure]
  · simp [ht, bind, Except.bind, throw, throwThe, MonadExceptOf.throw] at h

/-- The three ways to attach: again, onto the holder of the key, or to a slot. -/
inductive Attached (g : Group) (is : Instances) (id : InstanceId) (state : EntityState)
    (strategy : MergeStrategy) : InstanceId → Group → Instances → Prop where
  | again {slot e} : g.Holds slot id → (is.entity id).moveTo state = .ok e →
      g.index.get? (is.entity id).keyText = some slot →
      Attached g is id state strategy id g ((is.freeze g.type.version).put id e)
  | merged {slot cached} : g.Holds slot cached → cached ≠ id → state ≠ .added →
      g.index.get? (is.entity id).keyText = some slot →
      strategy.overwrites (is.state cached) →
      Attached g is id state strategy cached g ((is.freeze g.type.version).put cached
        { (is.entity cached).mergeFrom (is.entity id) with state })
  | kept {slot cached} : g.Holds slot cached → cached ≠ id → state ≠ .added →
      g.index.get? (is.entity id).keyText = some slot →
      strategy.overwrites (is.state cached) = false →
      Attached g is id state strategy cached g (is.freeze g.type.version)
  | placed : g.index.get? (is.entity id).keyText = none →
      Attached g is id state strategy id (g.place (is.entity id).keyText id)
        ((is.freeze g.type.version).put id
          { is.entity id with state, groupKey := some (is.entity id).keyText })

theorem merge_spec {k : EntityKey} {cached incoming : InstanceId} {state : EntityState}
    {strategy : MergeStrategy} (h : merge is k cached incoming state strategy = .ok is') :
    state ≠ .added ∧ (strategy.overwrites (is.state cached) = true ∧
        is' = is.put cached { (is.entity cached).mergeFrom (is.entity incoming) with state } ∨
      strategy.overwrites (is.state cached) = false ∧ is' = is) := by
  unfold merge at h
  by_cases hrefused : strategy = .disallowed ∨ state = .added
  · rw [if_pos hrefused] at h
    cases h
  · rw [if_neg hrefused] at h
    refine ⟨fun hadded => hrefused (Or.inr hadded), ?_⟩
    cases ho : strategy.overwrites (is.state cached) with
    | true =>
      rw [ho, if_pos rfl] at h
      exact Or.inl ⟨rfl, (Except.ok.inj h).symm⟩
    | false =>
      rw [ho, if_neg Bool.false_ne_true] at h
      exact Or.inr ⟨rfl, (Except.ok.inj h).symm⟩

theorem attach_spec {id cached : InstanceId} {state : EntityState} {strategy : MergeStrategy}
    (h : g.attach is id state strategy = .ok (cached, g', is')) :
    ((is.entity id).type.name = g.type.name ∧ state ≠ .detached) ∧
      Attached g is id state strategy cached g' is' := by
  obtain ⟨k, hk, h⟩ := bind_ok h
  obtain ⟨ht, hs, rfl, -⟩ := joiningKey_eq_ok hk
  refine ⟨⟨ht, hs⟩, ?_⟩
  dsimp only at h
  cases hi : g.index.get? (is.entity id).ownKey.inGroup with
  | none =>
    rw [hi, Instances.entity_freeze] at h
    cases h
    exact .placed hi
  | some slot =>
    rw [hi] at h
    obtain ⟨other, ho, h⟩ := bind_ok h
    have hholds := occupant_eq_ok.mp ho
    by_cases hother : other = id
    · rw [if_pos hother] at h
      obtain ⟨e, hm, h⟩ := bind_ok h
      rw [Instances.entity_freeze] at hm
      cases h
      subst hother
      exact .again hholds hm hi
    · rw [if_neg hother] at h
      obtain ⟨is₁, hm, h⟩ := bind_ok h
      cases h
      obtain ⟨hadded, ⟨hwrites, rfl⟩ | ⟨hkeeps, rfl⟩⟩ := merge_spec hm
      · rw [Instances.state, Instances.entity_freeze] at hwrites
        rw [Instances.entity_freeze]
        exact .merged hholds hother hadded hi hwrites
      · rw [Instances.state, Instances.entity_freeze] at hkeeps
        exact .kept hholds hother hadded hi hkeeps

theorem Attached.count {id cached : InstanceId} {state : EntityState} {strategy : MergeStrategy}
    (ha : Attached g is id state strategy cached g' is') : is'.count = is.count := by
  cases ha <;> simp

/-- What attaching leaves of an entity. The one that is named may get another state and the
group's key, and the one that was found under its key may take over its values. -/
theorem Attached.entity_cases {id cached : InstanceId} {state : EntityState}
    {strategy : MergeStrategy} (ha : Attached g is id state strategy cached g' is')
    (other : InstanceId) :
    is'.entity other = is.entity other ∨
    other = id ∧ (∃ next groupKey,
      is'.entity other = { is.entity other with state := next, groupKey }) ∨
    (other ≠ id ∧ ∃ slot, g.Holds slot other) ∧
      is'.entity other = { (is.entity other).mergeFrom (is.entity id) with state } := by
  cases ha with
  | again _ hm =>
    unfold Entity.moveTo at hm
    split at hm <;> cases hm
    by_cases ho : other = id
    · subst ho
      exact Or.inr (Or.inl ⟨rfl, state, (is.entity other).groupKey, by simp⟩)
    · exact Or.inl (by simp [ho])
  | @merged slot cached hs hne =>
    by_cases ho : other = cached
    · subst ho
      exact Or.inr (Or.inr ⟨⟨hne, slot, hs⟩, by simp⟩)
    · exact Or.inl (by simp [ho])
  | kept => exact Or.inl (by simp)
  | placed =>
    by_cases ho : other = id
    · subst ho
      exact Or.inr (Or.inl ⟨rfl, state, some (is.entity other).keyText, by simp⟩)
    · exact Or.inl (by simp [ho])

theorem Attached.entity_eq {id cached : InstanceId} {state : EntityState}
    {strategy : MergeStrategy} (ha : Attached g is id state strategy cached g' is') :
    ∃ next groupKey, is'.entity id = { is.entity id with state := next, groupKey } := by
  rcases ha.entity_cases id with he | ⟨-, he⟩ | ⟨⟨hne, -⟩, -⟩
  · exact ⟨(is.entity id).state, (is.entity id).groupKey, he⟩
  · exact he
  · exact absurd rfl hne

/-- An entity that is not in the group and has the group's type joins it soundly; so does
one that is attached again. -/
theorem Sound.attached_call (h : g.Sound is) {id cached : InstanceId} {state : EntityState}
    {strategy : MergeStrategy} (hs : state ≠ .detached) (ht : (is.entity id).type = g.type)
    (hc : (is.entity id).Complete) (ha : Attached g is id state strategy cached g' is') :
    g'.Sound is' := by
  have hfreeze : g.Sound (is.freeze g.type.version) :=
    h.edited fun {_ i} _ => by rw [Instances.entity_freeze]; exact .refl _
  cases ha with
  | again _ hm _ =>
    exact hfreeze.put (by rw [Instances.entity_freeze]; exact Entity.continues_moveTo hs hm)
  | @merged slot cached hcached _ _ hi _ =>
    refine hfreeze.put ?_
    rw [Instances.entity_freeze]
    obtain ⟨other, ho, hk⟩ := (h.index_iff _ _).mp hi
    have hkey : ((is.entity cached).mergeFrom (is.entity id)).keyText =
        (is.entity cached).keyText := by
      rw [Entity.keyText_mergeFrom (ht.trans (h.typed hcached).symm) hc, hcached.unique ho, hk]
    exact (Entity.continues_mergeFrom fun _ => hkey).trans
      (Entity.continues_of_values rfl rfl rfl fun _ => hs)
  | kept => exact hfreeze
  | placed hn =>
    have hfree : ∀ slot, ¬ g.Holds slot id := fun _ hm => h.ne_of_unindexed hn hm rfl
    exact hfreeze.place (e := { is.entity id with
      state, groupKey := some (is.entity id).keyText }) hfree ht rfl hs hn

theorem Attached.edits (h : g.Sound is) {id cached : InstanceId} {state : EntityState}
    {strategy : MergeStrategy} (ht : (is.entity id).type = g.type)
    (ha : Attached g is id state strategy cached g' is') :
    is.Edits g.type is' ∧ g'.type = g.type := by
  have hfreeze := Instances.Edits.freeze g.type is g.type.version
  cases ha with
  | @again slot e hs hm _ =>
    have heq : e.type = (is.entity id).type ∧ e.values = (is.entity id).values := by
      unfold Entity.moveTo at hm
      split at hm <;> cases hm
      exact ⟨rfl, rfl⟩
    refine ⟨hfreeze.trans (.put (by simpa using ht) (heq.1.trans ht) fun hc => ?_), rfl⟩
    rw [Instances.entity_freeze] at hc
    intro p hp
    rw [heq.1] at hp
    simpa [Entity.get?, heq.2] using hc p hp
  | merged hs =>
    refine ⟨hfreeze.trans (.put (by simpa using h.typed hs) (h.typed hs) fun hc => ?_), rfl⟩
    rw [Instances.entity_freeze] at hc
    exact Entity.complete_mergeFrom hc _
  | kept => exact ⟨hfreeze, rfl⟩
  | placed =>
    refine ⟨hfreeze.trans (.put (by simpa using ht) ht fun hc => ?_), ?_⟩
    · simpa [Entity.Complete, Entity.get?] using hc
    · unfold place; split <;> rfl

/-- Who is in a slot afterwards was there before, or is the newcomer. -/
theorem Attached.stays (h : g.Sound is) {id cached : InstanceId} {state : EntityState}
    {strategy : MergeStrategy} (ha : Attached g is id state strategy cached g' is')
    {slot : Nat} {i : InstanceId} (hs : g'.Holds slot i) :
    g.Holds slot i ∨ i = id ∧ ∀ other, ¬ g.Holds other i := by
  cases ha with
  | again => exact Or.inl hs
  | merged => exact Or.inl hs
  | kept => exact Or.inl hs
  | placed hn =>
    obtain ⟨_, -, -, hholds, -⟩ := place_spec h.free_iff h.free_nodup (is.entity id).keyText id
    rcases (hholds slot i).mp hs with ⟨-, rfl⟩ | hs
    · exact Or.inr ⟨rfl, fun _ hm => h.ne_of_unindexed hn hm rfl⟩
    · exact Or.inl hs

theorem grows_place (g : Group) (key : String) (id : InstanceId) :
    (g.place key id).slots.length ≤ g.slots.length ∨ (g.place key id).free = [] := by
  unfold place
  split
  · exact Or.inl (by simp)
  · rename_i hf
    exact Or.inr hf

theorem Attached.grows {id cached : InstanceId} {state : EntityState}
    {strategy : MergeStrategy} (ha : Attached g is id state strategy cached g' is') :
    g'.slots.length ≤ g.slots.length ∨ g'.free = [] := by
  cases ha with
  | again => exact Or.inl (Nat.le_refl _)
  | merged => exact Or.inl (Nat.le_refl _)
  | kept => exact Or.inl (Nat.le_refl _)
  | placed => exact grows_place g _ id

end Attach

section Detach

theorem slotOf_ok {id : InstanceId} {key : String} {slot : Nat}
    (h : g.slotOf is id = .ok (key, slot)) :
    (is.entity id).groupKey = some key ∧ g.index.get? key = some slot ∧ g.Holds slot id := by
  unfold slotOf at h
  cases hk : (is.entity id).groupKey with
  | none =>
    rw [hk] at h
    cases h
  | some held =>
    rw [hk] at h
    obtain ⟨_, hheld, h⟩ := bind_ok h
    cases hheld
    dsimp only at h
    cases hi : g.index.get? held with
    | none =>
      rw [hi] at h
      cases h
    | some found =>
      rw [hi] at h
      obtain ⟨_, hfound, h⟩ := bind_ok h
      cases hfound
      obtain ⟨other, ho, h⟩ := bind_ok h
      by_cases hother : other = id
      · rw [if_neg (not_not_intro hother)] at h
        cases h
        subst hother
        exact ⟨rfl, hi, occupant_eq_ok.mp ho⟩
      · rw [if_pos hother] at h
        cases h

theorem detach_spec {id : InstanceId} (h : g.detach is id = .ok (g', is')) :
    ∃ key slot, (is.entity id).groupKey = some key ∧ g.index.get? key = some slot ∧
      g.Holds slot id ∧ g' = g.vacate key slot ∧
      is' = is.put id (is.entity id).markDetached := by
  obtain ⟨⟨key, slot⟩, hslot, h⟩ := bind_ok h
  obtain ⟨hk, hi, hs⟩ := slotOf_ok hslot
  cases h
  exact ⟨key, slot, hk, hi, hs, rfl, rfl⟩

theorem Sound.detach_ok (h : g.Sound is) {slot : Nat} {id : InstanceId} (hs : g.Holds slot id) :
    ∃ r, g.detach is id = .ok r := by
  simp [detach, slotOf, h.attached hs, h.indexed hs, occupant_eq_ok.mpr hs, bind, Except.bind,
    pure, Except.pure]

theorem Sound.detach_call (h : g.Sound is) {id : InstanceId}
    (hd : g.detach is id = .ok (g', is')) :
    g'.Sound is' ∧ is.Edits g.type is' ∧ g'.type = g.type := by
  obtain ⟨key, slot, hk, -, hs, rfl, rfl⟩ := detach_spec hd
  rw [h.attached hs, Option.some.injEq] at hk
  subst hk
  refine ⟨h.vacate hs _, .put (h.typed hs) (h.typed hs) fun hc => ?_, rfl⟩
  simpa [Entity.Complete, Entity.get?, Entity.markDetached] using hc

theorem detach_slots {id : InstanceId} (h : g.detach is id = .ok (g', is')) :
    (∀ {slot i}, g'.Holds slot i → g.Holds slot i) ∧ g'.slots.length = g.slots.length := by
  obtain ⟨key, slot, -, -, -, rfl, -⟩ := detach_spec h
  exact ⟨fun hm => ((holds_vacate ..).mp hm).2, by simp [vacate]⟩

theorem detach_holds {id : InstanceId} (h : g.detach is id = .ok (g', is')) {slot : Nat}
    {other : InstanceId} (hne : other ≠ id) : g'.Holds slot other ↔ g.Holds slot other := by
  obtain ⟨key, left, -, -, hl, rfl, -⟩ := detach_spec h
  rw [holds_vacate, and_iff_right_iff_imp]
  rintro hs rfl
  exact hne (hs.unique hl)

end Detach

end Group

end EntityCache
