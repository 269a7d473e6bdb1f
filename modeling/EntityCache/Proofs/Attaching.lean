import EntityCache.Proofs.FormationRuns

/-! How attaching and detaching end, with all that is known of the entity and of the generator
of keys by then: which key has been drawn, whether it has been taken back, what the group has
made of the entity, and what is left when it goes. -/
namespace EntityCache

open Cache EntityCache.Action

theorem TempKeys.without_eq (keys : TempKeys) (e : Entity) :
    ∃ issued, keys.without e = { keys with issued } := by
  have hfold : ∀ (vs : List Value) (keys : TempKeys), ∃ issued,
      vs.foldl (fun keys v => keys.release e.type.name v) keys = { keys with issued } := by
    intro vs
    induction vs with
    | nil => exact fun keys => ⟨keys.issued, rfl⟩
    | cons v vs ih => exact fun keys => ih (keys.release e.type.name v)
  unfold without
  split
  · exact hfold _ keys
  · exact ⟨keys.issued, rfl⟩

theorem Group.index_place (g : Group) (key : String) (id : InstanceId) :
    ∃ slot, (g.place key id).index = g.index.put key slot := by
  unfold Group.place
  split
  · exact ⟨_, rfl⟩
  · exact ⟨_, rfl⟩

namespace Action

variable {c c' : Cache} {id other : InstanceId} {state : EntityState} {strategy : MergeStrategy}

inductive Ended (c : Cache) (id : InstanceId) (state : EntityState) (strategy : MergeStrategy) :
    Except Fault InstanceId × Cache → Prop where
  | refused {fault c'} : Opens (c.entity id).type c c' →
      Ended c id state strategy (.error fault, c')
  | stranded {fault v c₁} : Prepared c id state (some v) c₁ →
      c.groups.get? (c.entity id).type.name = none → (c.entity id).type.isAbstract →
      Ended c id state strategy (.error fault, c₁)
  | withdrawn {fault p v keys c₁ c₂} : Prepared c id state (some v) c₁ →
      (c.entity id).type.keyProperties = [p] → Opens (c.entity id).type c₁ c₂ →
      keys = c₁.keys.release (c.entity id).type.name v →
      Ended c id state strategy (.error fault, { c₂ with
        keys, instances := c₁.instances.put id (withdrawn (c₁.entity id) p) })
  | joined {temp c₁ c₂ g g' is cached} : Prepared c id state temp c₁ →
      Opens (c.entity id).type c₁ c₂ → c₂.groups.get? (c.entity id).type.name = some g →
      (c.entity id).type.name = g.type.name → state ≠ .detached →
      (c₁.entity id).ownKey.isComplete →
      g.Attached c₁.instances id state strategy cached g' is →
      Ended c id state strategy (.ok cached, { c₂ with
        groups := putGroup (c.entity id).type.name g' c₂.groups, instances := is })

theorem join_ended {temp : Option Value} {c₁ : Cache} (h : Prepared c id state temp c₁) :
    Ended c id state strategy ((join (c.entity id).type id state strategy temp).on c₁) := by
  unfold join
  rcases openGroup_cases (c.entity id).type c₁ with ⟨fault, hg, ho⟩ | ⟨g, c₂, ho, hg, hopens⟩
  · rw [on_bind_error ho]
    cases h with
    | keyed => exact .refused .there
    | drawn hs hp hu hk => exact .stranded (.drawn hs hp hu hk) hg (openGroup_refused ho)
  · rw [on_bind_ok ho, on_bind_ok (on_get c₂), hopens.instances]
    cases ha : g.attach c₁.instances id state strategy with
    | ok r =>
      obtain ⟨cached, g', is⟩ := r
      obtain ⟨⟨ht, hs⟩, hattached⟩ := Group.attach_spec ha
      have htype : (c₁.instances.entity id).type = (c.entity id).type := (h.edits id).1
      rw [htype] at ht
      exact .joined h hopens hg ht hs (Group.attach_complete ha) hattached
    | error fault =>
      cases temp with
      | none =>
        cases h
        exact .refused hopens
      | some v =>
        have he : c₂.entity id = c₁.entity id := by
          rw [Cache.entity, hopens.instances]
          rfl
        have hp : ∃ p, (c.entity id).type.keyProperties = [p] := by
          cases h with
          | drawn _ hp => exact ⟨_, hp⟩
        obtain ⟨p, hp⟩ := hp
        have htype : (c₂.entity id).type = (c.entity id).type := by rw [he, (h.edits id).1]
        have hkeys : c₂.keys = c₁.keys := by cases hopens <;> rfl
        dsimp only
        rw [on_bind_ok (withdrawTempKey_on v (by rwa [htype]))]
        rw [he, hopens.instances, (h.edits id).1, on_throw]
        exact .withdrawn h hp hopens (by rw [hkeys])

theorem attach_ended (c : Cache) (id : InstanceId) (state : EntityState)
    (strategy : Option MergeStrategy) :
    Ended c id state (strategy.getD .disallowed) ((attach id state strategy).on c) := by
  rcases attach_prepared id state c with ⟨fault, h⟩ | ⟨temp, c₁, -, hp, hjoins⟩
  · rw [h]
    exact .refused .there
  · rw [hjoins]
    exact join_ended hp

section Others

variable {out : Except Fault InstanceId × Cache}

/-- Nobody leaves a slot when an entity is attached, and nobody else takes one. -/
theorem Ended.holds (h : Ended c id state strategy out) (hc : c.Allotted) {name : String}
    {slot : Nat} : (c.Holds name slot other → out.2.Holds name slot other) ∧
      (other ≠ id → out.2.Holds name slot other → c.Holds name slot other) := by
  have hsame : ∀ {c' : Cache}, (c'.Holds name slot other ↔ c.Holds name slot other) →
      (c.Holds name slot other → c'.Holds name slot other) ∧
        (other ≠ id → c'.Holds name slot other → c.Holds name slot other) := fun h =>
    ⟨h.mpr, fun _ => h.mp⟩
  cases h with
  | refused hopens => exact hsame hopens.holds_iff
  | stranded hp => exact hsame hp.holds_iff
  | withdrawn hp _ hopens => exact hsame (hopens.holds_iff.trans hp.holds_iff)
  | @joined temp c₁ c₂ g g' is cached hp hopens hg _ _ _ ha =>
    have hallotted : c₂.Allotted :=
      (hc.of_groups hp.groups (Nat.le_of_eq hp.count.symm)).opens hopens
    have hslots : (g.Holds slot other → g'.Holds slot other) ∧
        (other ≠ id → g'.Holds slot other → g.Holds slot other) := by
      cases ha with
      | placed =>
        obtain ⟨_, hholds⟩ := (hallotted _ _ hg).holds_place_iff
          (c₁.instances.entity id).keyText id
        refine ⟨fun hs => (hholds slot other).mpr (Or.inr hs), fun ho hs => ?_⟩
        rcases (hholds slot other).mp hs with ⟨-, rfl⟩ | hs
        · exact absurd rfl ho
        · exact hs
      | _ => exact ⟨fun hs => hs, fun _ hs => hs⟩
    rw [← hp.holds_iff, ← hopens.holds_iff]
    by_cases hname : name = (c.entity id).type.name
    · subst hname
      simp only [Holds, get?_putGroup, if_pos, hg, Option.some.injEq, exists_eq_left']
      exact hslots
    · simp only [Holds, get?_putGroup, if_neg hname]
      exact ⟨fun hs => hs, fun _ hs => hs⟩

theorem Ended.count (h : Ended c id state strategy out) :
    out.2.instances.count = c.instances.count := by
  cases h with
  | refused hopens => exact congrArg Instances.count hopens.instances
  | stranded hp => exact hp.count
  | withdrawn hp => exact hp.count
  | joined hp _ _ _ _ _ ha => exact ha.count.trans hp.count

theorem Ended.isCached_iff (h : Ended c id state strategy out) (hc : c.Allotted)
    (ho : other ≠ id) : out.2.IsCached other ↔ c.IsCached other :=
  exists_congr fun _ => exists_congr fun _ => ⟨(h.holds hc).2 ho, (h.holds hc).1⟩

theorem Ended.type_self (h : Ended c id state strategy out) :
    (out.2.entity id).type = (c.entity id).type := by
  cases h with
  | refused hopens => exact congrArg (fun is : Instances => (is.entity id).type) hopens.instances
  | stranded hp => exact (hp.edits id).1
  | withdrawn hp => simpa [Cache.entity, Action.withdrawn] using (hp.edits id).1
  | joined hp _ _ _ _ _ ha =>
    obtain ⟨next, groupKey, he⟩ := ha.entity_eq
    exact (congrArg Entity.type he).trans (hp.edits id).1

/-- What attaching an entity leaves of another one, which may have been merged into. -/
theorem Ended.others (h : Ended c id state strategy out) (ho : other ≠ id) :
    (out.2.entity other).type = (c.entity other).type ∧
      (out.2.entity other).hasTempKey = (c.entity other).hasTempKey ∧
      (out.2.entity other).groupKey = (c.entity other).groupKey := by
  cases h with
  | @refused _ c' hopens =>
    have he : c'.entity other = c.entity other := congrArg (·.entity other) hopens.instances
    exact ⟨by rw [he], by rw [he], by rw [he]⟩
  | stranded hp => exact ⟨by rw [hp.others ho], by rw [hp.others ho], by rw [hp.others ho]⟩
  | @withdrawn _ p _ _ c₁ c₂ hp _ hopens =>
    have he : (c₁.instances.put id (Action.withdrawn (c₁.entity id) p)).entity other =
        c.entity other := by
      rw [Instances.entity_put, if_neg ho]
      exact hp.others ho
    exact ⟨congrArg Entity.type he, congrArg Entity.hasTempKey he, congrArg Entity.groupKey he⟩
  | @joined temp c₁ c₂ g g' is cached hp hopens hg _ _ _ ha =>
    rw [← hp.others ho]
    rcases ha.entity_cases other with he | ⟨hid, -⟩ | ⟨-, he⟩
    · exact ⟨congrArg Entity.type he, congrArg Entity.hasTempKey he, congrArg Entity.groupKey he⟩
    · exact absurd hid ho
    · simp only [entity, he]
      exact ⟨rfl, rfl, rfl⟩

theorem Prepared.type_eq {temp : Option Value} {c₁ c₂ : Cache} (hp : Prepared c id state temp c₁)
    (hc : c.Formed) (hid : id < c.instances.count) (hopens : Opens (c.entity id).type c₁ c₂)
    {g : Group} {slot : Nat} (hg : c₂.groups.get? (c.entity id).type.name = some g)
    (hs : g.Holds slot other) : (c₁.entity id).type = (c₁.entity other).type := by
  -- somebody is in the group, so it was there before
  have hgroup : c.groups.get? (c.entity id).type.name = some g := by
    rcases hopens.group_cases hg with hg | ⟨hslots, -⟩
    · rwa [← hp.groups]
    · simp [Group.Holds, hslots] at hs
  have hgt : g.type = (c.entity id).type :=
    Option.some.inj ((hc.registered hgroup).symm.trans (hc.known id hid))
  rw [(hp.edits id).1, (hp.edits other).1, ← hgt]
  exact (hc.typed hgroup hs).symm

theorem Ended.keys_eq (h : Ended c id state strategy out) (hs : state ≠ .added) :
    out.2.keys = c.keys := by
  have hkeyed : ∀ {temp c₁}, Prepared c id state temp c₁ → temp = none ∧ c₁ = c := fun hp => by
    cases hp with
    | keyed => exact ⟨rfl, rfl⟩
    | drawn hadded => exact absurd hadded hs
  cases h with
  | refused hopens => exact hopens.keys
  | stranded hp => cases (hkeyed hp).1
  | withdrawn hp => cases (hkeyed hp).1
  | @joined _ c₁ c₂ _ _ _ _ hp hopens =>
    have hkeys : c₂.keys = c₁.keys := hopens.keys
    rw [(hkeyed hp).2] at hkeys
    exact hkeys

end Others

section Detach

structure Left (c : Cache) (id : InstanceId) (c' : Cache) : Prop where
  catalog : c'.catalog = c.catalog
  service : c'.service = c.service
  count : c'.instances.count = c.instances.count
  cached : c.IsCached id
  entity : c'.entity id = (c.entity id).markDetached
  keys : c'.keys = c.keys.without (c.entity id)
  others : ∀ {other}, other ≠ id → c'.entity other = c.entity other
  holds_iff : ∀ {name slot other}, other ≠ id →
    (c'.Holds name slot other ↔ c.Holds name slot other)
  noGroup : ∀ {name}, c.groups.get? name = none → c'.groups.get? name = none
  indexed : ∀ {name key}, (c'.slot? name key).isSome → (c.slot? name key).isSome

theorem Left.isCached_iff (h : Left c id c') {other : InstanceId} (ho : other ≠ id) :
    c'.IsCached other ↔ c.IsCached other :=
  exists_congr fun _ => exists_congr fun _ => h.holds_iff ho

theorem detach_leaves (id : InstanceId) (c : Cache) :
    (∃ fault, (detach id).on c = (.error fault, c)) ∨
    ∃ c', (detach id).on c = (.ok id, c') ∧ Left c id c' := by
  rcases detach_ends id c with ⟨fault, -, h⟩ | ⟨g, g', is, hg, hd, h⟩
  · exact Or.inl ⟨fault, h⟩
  · refine Or.inr ⟨_, h, ?_⟩
    have hother : ∀ {slot other}, other ≠ id → (g'.Holds slot other ↔ g.Holds slot other) :=
      fun ho => Group.detach_holds hd ho
    obtain ⟨key, slot, -, -, hs, hvacated, rfl⟩ := Group.detach_spec hd
    refine ⟨rfl, rfl, rfl, ⟨_, slot, g, hg, hs⟩, by simp [Cache.entity], rfl,
      fun ho => by simp [Cache.entity, ho], fun {name slot other} ho => ?_, fun hnone => ?_,
      fun {name text} hindexed => ?_⟩
    · by_cases hname : name = (c.entity id).type.name
      · subst hname
        simp only [Holds, get?_putGroup, if_pos, hg, Option.some.injEq, exists_eq_left']
        exact hother ho
      · simp only [Holds, get?_putGroup, if_neg hname]
    · rw [get?_putGroup, if_neg, hnone]
      rintro rfl
      cases hg.symm.trans hnone
    · rw [slot?_of_put rfl] at hindexed
      split at hindexed
      · rename_i hname
        rw [hvacated, Group.vacate, Table.get?_erase] at hindexed
        rw [hname, slot?_of_group hg]
        split at hindexed
        · cases hindexed
        · exact hindexed
      · exact hindexed

end Detach

end Action

end EntityCache
