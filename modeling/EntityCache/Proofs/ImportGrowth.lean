import EntityCache.Proofs.CacheRuns
import EntityCache.Proofs.Merging

/-! What an import only ever adds to: what is cached stays in its slot under its key, frozen
versions stay frozen, and every cached entity settles, so that a node arriving later leaves
of it what it would have left of the entity as it was. -/
namespace EntityCache

open Cache EntityCache.Action

/-- Everybody stays in place, and newcomers may be there besides. -/
structure Group.Extends (g g' : Group) : Prop where
  type : g'.type = g.type
  holds : ∀ {slot id}, g.Holds slot id → g'.Holds slot id
  index : ∀ {key slot}, g.index.get? key = some slot → g'.index.get? key = some slot

theorem Group.Extends.refl (g : Group) : Extends g g := ⟨rfl, id, id⟩

namespace Cache

structure Later (strategy : MergeStrategy) (c c' : Cache) : Prop where
  catalog : c'.catalog = c.catalog
  settings : c'.settings = c.settings
  grows : Grows c c'
  frozen : ∀ v ∈ c.instances.frozen, v ∈ c'.instances.frozen
  groups : ∀ {name g}, c.groups.get? name = some g →
    ∃ g', c'.groups.get? name = some g' ∧ g.Extends g'
  settles : ∀ id, c.IsCached id → (c.entity id).Settles strategy (c'.entity id)

variable {strategy : MergeStrategy} {c c' : Cache}

theorem Later.isCached (h : Later strategy c c') {id : InstanceId} (hc : c.IsCached id) :
    c'.IsCached id := by
  obtain ⟨name, slot, g, hg, hs⟩ := hc
  obtain ⟨g', hg', hext⟩ := h.groups hg
  exact ⟨name, slot, g', hg', hext.holds hs⟩

instance : IsPreorder Cache (Later strategy) where
  refl c := ⟨rfl, rfl, Std.Refl.refl c, fun _ => id, fun hg => ⟨_, hg, .refl _⟩,
    fun id _ => .refl strategy (c.entity id)⟩
  trans a b c h k := by
    refine ⟨k.catalog.trans h.catalog, k.settings.trans h.settings,
      IsTrans.trans _ _ _ h.grows k.grows, fun v hv => k.frozen v (h.frozen v hv),
      fun {name g} hg => ?_, fun id hid => (h.settles id hid).trans (k.settles id (h.isCached hid))⟩
    obtain ⟨g₁, hg₁, h₁⟩ := h.groups hg
    obtain ⟨g₂, hg₂, h₂⟩ := k.groups hg₁
    exact ⟨g₂, hg₂, h₂.type.trans h₁.type, fun hs => h₂.holds (h₁.holds hs),
      fun hk => h₂.index (h₁.index hk)⟩

end Cache

theorem Instances.mem_freeze (is : Instances) (v : TypeVersion) : v ∈ (is.freeze v).frozen := by
  unfold freeze
  split
  · rename_i hv
    simpa using hv
  · exact List.mem_cons_self

theorem Instances.frozen_freeze {is : Instances} {v w : TypeVersion} (h : v ∈ is.frozen) :
    v ∈ (is.freeze w).frozen := by
  unfold freeze
  split
  · exact h
  · exact List.mem_cons_of_mem w h

theorem Instances.freeze_of_mem {is : Instances} {v : TypeVersion} (h : v ∈ is.frozen) :
    is.freeze v = is := by
  unfold freeze
  rw [if_pos (by simpa using h)]

section Arrivals

variable {catalog : Catalog} {c c' : Cache} {t : EntityType} {strategy : MergeStrategy}

theorem Group.extends_place {g : Group} {is : Instances} (h : g.Sound is) {key : String}
    (hk : g.index.get? key = none) (id : InstanceId) : g.Extends (g.place key id) := by
  obtain ⟨slot, -, hindex, hholds, -⟩ := place_spec h.free_iff h.free_nodup key id
  refine ⟨by unfold place; split <;> rfl, fun hs => (hholds _ _).mpr (Or.inr hs),
    fun {other _} ho => ?_⟩
  have hne : other ≠ key := by
    rintro rfl
    cases hk.symm.trans ho
  rw [hindex, Table.get?_put, if_neg hne, ho]

theorem Cache.Later.of_keep {name : String} {g g' : Group} {is : Instances}
    (hg : c.groups.get? name = some g) (hext : g.Extends g')
    (hcount : is.count = c.instances.count)
    (hfrozen : ∀ v ∈ c.instances.frozen, v ∈ is.frozen)
    (hsettles : ∀ id, c.IsCached id → (c.entity id).Settles strategy (is.entity id)) :
    Later strategy c { c with groups := putGroup name g' c.groups, instances := is } := by
  refine ⟨rfl, rfl, Nat.le_of_eq hcount.symm, hfrozen, fun {other g₁} ho => ?_, hsettles⟩
  rw [get?_putGroup]
  by_cases hn : other = name
  · subst hn
    obtain rfl := Option.some.inj (hg.symm.trans ho)
    exact ⟨g', if_pos rfl, hext⟩
  · exact ⟨g₁, by rw [if_neg hn, ho], .refl g₁⟩

theorem Cache.Later.of_opens (h : Opens t c c') : Later strategy c c' := by
  have hentity : ∀ id, c'.entity id = c.entity id := fun id => by rw [entity, h.instances]; rfl
  refine ⟨h.catalog, ?_, h.grows, fun v hv => by rwa [h.instances],
    fun hg => ⟨_, h.kept hg, .refl _⟩, fun id _ => by rw [hentity]; exact .refl _ _⟩
  cases h <;> rfl

def Cache.withNewcomer (c : Cache) (t : EntityType) (node : Json) : Cache :=
  { c with instances := (c.instances.add (Entity.ofNode t node)).2 }

theorem Cache.newcomer_entity (c : Cache) (t : EntityType) (node : Json) :
    (c.withNewcomer t node).entity c.instances.count = Entity.ofNode t node := by
  simp [withNewcomer, entity, Instances.add]

theorem Cache.withNewcomer_entity {id : InstanceId} (hid : id < c.instances.count)
    (t : EntityType) (node : Json) : (c.withNewcomer t node).entity id = c.entity id := by
  simp [withNewcomer, entity, Instances.add, Nat.ne_of_lt hid]

theorem Cache.SoundIn.withNewcomer (hc : c.SoundIn catalog) (ht : catalog.type? t.name = some t)
    (node : Json) : (c.withNewcomer t node).SoundIn catalog := by
  obtain ⟨htype, hcomplete⟩ := Entity.ofNode_spec t node
  exact (addInstance_keeps (by rwa [htype]) hcomplete c hc).holds

theorem Cache.newcomer_not_cached (hc : c.Sound) (t : EntityType) (node : Json) :
    ¬ (c.withNewcomer t node).IsCached c.instances.count := by
  rintro ⟨name, slot, hs⟩
  exact absurd (hc.given hs) (Nat.lt_irrefl _)

theorem Cache.Later.of_newcomer (hc : c.Sound) (t : EntityType) (node : Json) :
    Later strategy c (c.withNewcomer t node) := by
  refine ⟨rfl, rfl, Nat.le_succ _, fun v hv => hv, fun hg => ⟨_, hg, .refl _⟩, ?_⟩
  rintro id ⟨name, slot, hs⟩
  rw [withNewcomer_entity (hc.given hs)]
  exact .refl _ _

/-- The group that a type has, once it is opened, is one of that very type. -/
theorem Cache.SoundIn.group_type (hc : c.SoundIn catalog) (ht : catalog.type? t.name = some t)
    {g : Group} (hg : c.groups.get? t.name = some g) : g.type = t := by
  have hreg := hc.sound.registered hg
  rw [hc.catalog, ht] at hreg
  exact (Option.some.inj hreg).symm

theorem Action.Joined.later (hc : c.SoundIn catalog) (ht : catalog.type? t.name = some t)
    {id : InstanceId} (htype : (c.entity id).type = t) (hcomplete : (c.entity id).Complete)
    (hnew : ¬ c.IsCached id) (h : Joined t id .unchanged strategy c none c') :
    Later strategy c c' := by
  cases h with
  | refused ho => exact .of_opens ho
  | @joined c₁ _ cached g g' is ho hg _ ha =>
    have hc₁ := ho.soundIn hc ht
    have hgs := hc₁.sound.groups hg
    have hgt : g.type = t := hc₁.group_type ht hg
    have he : c.instances.entity id = c₁.entity id := by rw [entity, ho.instances]
    refine IsTrans.trans _ _ _ (Later.of_opens ho) (Later.of_keep hg ?_ ?_ ?_ fun i hi => ?_)
    · cases ha with
      | placed hn => exact Group.extends_place hgs hn id
      | _ => exact .refl g
    · rw [ho.instances]
      exact ha.count
    · rw [ho.instances]
      intro v hv
      cases ha <;> exact Instances.frozen_freeze hv
    · have hne : i ≠ id := by
        rintro rfl
        obtain ⟨name, slot, hs⟩ := hi
        exact hnew ⟨name, slot, ho.holds hs⟩
      rw [entity, ho.instances]
      cases ha with
      | again hs => exact absurd ⟨_, _, ho.holds ⟨g, hg, hs⟩⟩ hnew
      | placed => simpa [hne] using Entity.Settles.refl strategy _
      | kept => simpa using Entity.Settles.refl strategy _
      | @merged _ cached hs _ _ _ hov =>
        by_cases hcached : i = cached
        · subst hcached
          have hheld : (c.instances.entity i).type = t := by
            rw [← ho.instances, hgs.typed hs, hgt]
          have hdistinct : (c.instances.entity i).type.DistinctNames := by
            rw [hheld]
            exact hc.sound.distinct (by rwa [hc.catalog])
          simpa [Entity.absorb, entity] using
            Entity.settles_absorb hdistinct hcomplete (htype.trans hheld.symm) hov
        · simpa [hcached] using Entity.Settles.refl strategy _

/-- A node arrives by attaching its newcomer, which is of the type asked for. -/
theorem Action.arrive_eq (c : Cache) (strategy : MergeStrategy) (t : EntityType) (node : Json) :
    (arrive strategy t node).on c = (match c.catalog.find t.name with
      | .error fault => (.error fault, c.withNewcomer t node)
      | .ok _ =>
        (join t c.instances.count .unchanged strategy none).on (c.withNewcomer t node)) := by
  have htype : ((c.withNewcomer t node).entity c.instances.count).type = t := by
    rw [newcomer_entity]
    exact (Entity.ofNode_spec t node).1
  have hadd : (addInstance (Entity.ofNode t node)).on c =
      (.ok c.instances.count, c.withNewcomer t node) := rfl
  unfold arrive
  rw [on_bind_ok hadd, attach_eq, htype]
  rfl

theorem Action.arrive_later (ht : catalog.type? t.name = some t) (node : Json) :
    (arrive strategy t node).Keeps (SoundIn catalog) (Later strategy) := by
  intro c hc
  refine ⟨(arrive_keeps ht node c hc).holds, ?_⟩
  obtain ⟨htype, hcomplete⟩ := Entity.ofNode_spec t node
  refine IsTrans.trans _ _ _ (Later.of_newcomer hc.sound t node) ?_
  rw [arrive_eq]
  cases c.catalog.find t.name with
  | error fault => exact Std.Refl.refl _
  | ok u =>
    have hj := join_cases (c := c.withNewcomer t node) t c.instances.count .unchanged strategy
      fun hn : (none : Option Value) ≠ none => absurd rfl hn
    exact hj.later (hc.withNewcomer ht node) ht (by rw [newcomer_entity, htype])
      (by rwa [newcomer_entity]) (newcomer_not_cached hc.sound t node)

end Arrivals

end EntityCache
