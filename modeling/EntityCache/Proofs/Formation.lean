import EntityCache.Proofs.CacheRuns

/-! The shape of a cache, which no operation harms, whatever it does to keys: groups in
order, one for each registered type, with entities of that type in their slots, free lists
that name the empty slots, and a value for every data property. A cache in shape whose
indexes are right is sound. -/
namespace EntityCache

open Cache EntityCache.Action

/-- Entities may be written to, but their types stay and so do all their properties. -/
structure Instances.Reshapes (is is' : Instances) : Prop where
  count : is'.count = is.count
  type : ∀ id, (is'.entity id).type = (is.entity id).type
  complete : ∀ id, (is.entity id).Complete → (is'.entity id).Complete

namespace Instances.Reshapes

variable {is is' is'' : Instances}

theorem refl (is : Instances) : Reshapes is is := ⟨rfl, fun _ => rfl, fun _ => id⟩

theorem trans (h : Reshapes is is') (k : Reshapes is' is'') : Reshapes is is'' where
  count := k.count.trans h.count
  type id := (k.type id).trans (h.type id)
  complete id hc := k.complete id (h.complete id hc)

theorem freeze (is : Instances) (v : TypeVersion) : Reshapes is (is.freeze v) :=
  ⟨by simp, by simp, by simp⟩

theorem put {id : InstanceId} {e : Entity} (ht : e.type = (is.entity id).type)
    (hc : (is.entity id).Complete → e.Complete) : Reshapes is (is.put id e) := by
  refine ⟨rfl, fun other => ?_, fun other => ?_⟩ <;> by_cases ho : other = id
  · subst ho; simpa using ht
  · simp [ho]
  · subst ho; simpa using hc
  · simp [ho]

theorem foldl_put {β : Type} (key : β → InstanceId) (f : β → Entity → Entity)
    (hf : ∀ x e, (f x e).type = e.type ∧ (e.Complete → (f x e).Complete)) (xs : List β)
    (is : Instances) :
    Reshapes is (xs.foldl (fun is x => is.put (key x) (f x (is.entity (key x)))) is) :=
  List.foldlRecOn xs _ (refl is) fun _ h x _ => h.trans (put (hf x _).1 (hf x _).2)

end Instances.Reshapes

namespace Group

variable {g g' : Group} {is is' : Instances}

theorem Attached.reshapes {id cached : InstanceId} {state : EntityState}
    {strategy : MergeStrategy} (ha : Attached g is id state strategy cached g' is') :
    is.Reshapes is' := by
  have hfreeze := Instances.Reshapes.freeze is g.type.version
  cases ha with
  | @again _ e _ hm =>
    have heq : e.type = (is.entity id).type ∧ e.values = (is.entity id).values := by
      unfold Entity.moveTo at hm
      split at hm <;> cases hm
      exact ⟨rfl, rfl⟩
    refine hfreeze.trans (.put (by simpa using heq.1) fun hc p hp => ?_)
    rw [Instances.entity_freeze] at hc
    rw [heq.1] at hp
    simpa [Entity.get?, heq.2] using hc p hp
  | merged =>
    refine hfreeze.trans (.put (by simp [Entity.mergeFrom]) fun hc => ?_)
    rw [Instances.entity_freeze] at hc
    exact Entity.complete_mergeFrom hc _
  | kept => exact hfreeze
  | placed =>
    refine hfreeze.trans (.put (by simp) fun hc => ?_)
    simpa [Entity.Complete, Entity.get?] using hc

theorem detach_reshapes {id : InstanceId} (h : g.detach is id = .ok (g', is')) :
    is.Reshapes is' := by
  obtain ⟨-, -, -, -, -, -, rfl⟩ := detach_spec h
  exact .put rfl fun hc => hc

theorem FixedUp.reshapes {temp real : Value} {id : InstanceId}
    (hf : FixedUp g is temp real id g' is') : is.Reshapes is' := by
  cases hf with
  | unmarked => exact .put rfl fun hc => hc
  | @rekeyed p =>
    have hfirst : is.Reshapes (is.put id { is.entity id with
        groupKey := some (partText p real) }) := .put rfl fun hc => hc
    have hlast : (is.entity id).Complete → (settledKey (is.entity id) p real).Complete :=
      fun hc => Entity.Complete.write hc p.name _
    refine hfirst.trans (.put ?_ fun hc => hlast ?_)
    · rw [Instances.entity_put, if_pos rfl]
      rfl
    · rwa [Instances.entity_put, if_pos rfl] at hc

/-- What a cascade leaves as it is, also where the index is wrong. -/
theorem updateForeignKey_reshapes {property : String} {old new : Value} {n : Nat}
    (hu : g.updateForeignKey is property old new = .ok (n, g', is')) :
    is.Reshapes is' ∧ g'.type = g.type ∧ (g.index.names.Nodup → g'.index.names.Nodup) := by
  have hwritten : ∀ (v : Value) (moves : List Move), is.Reshapes (moves.foldl (fun is m =>
      is.put m.id { is.entity m.id with groupKey := some m.target })
        ((g.holders is property old).foldl (fun is x =>
          is.put x.2 ((is.entity x.2).write property v)) is)) := fun v moves =>
    (Instances.Reshapes.foldl_put Prod.snd (fun _ e => e.write property v)
      (fun _ e => ⟨rfl, fun hc => hc.write property v⟩) _ is).trans
      (.foldl_put Move.id (fun m e => { e with groupKey := some m.target })
        (fun _ e => ⟨rfl, fun hc => hc⟩) moves _)
  have hmoved : ∀ moves : List Move, g.index.names.Nodup →
      (g.applyMoves moves).index.names.Nodup := fun moves hnd =>
    Table.nodup_foldl_put _ _ _ (Table.nodup_foldl_erase _ _ hnd)
  unfold updateForeignKey at hu
  cases hp : g.type.dataProperty? property with
  | none => simp [hp, bind, Except.bind] at hu
  | some p =>
    simp only [hp] at hu
    obtain ⟨q, hq, hu⟩ := bind_ok hu
    cases hq
    split at hu
    · obtain ⟨_, -, hu⟩ := bind_ok hu
      obtain ⟨moves, -, hu⟩ := bind_ok hu
      cases hu
      exact ⟨hwritten _ moves, rfl, hmoved moves⟩
    · obtain ⟨moves, -, hu⟩ := bind_ok hu
      cases hu
      exact ⟨hwritten _ moves, rfl, hmoved moves⟩

end Group

/-- The shape of a cache: all that is promised of it but the agreement of keys and indexes. -/
structure Cache.Formed (c : Cache) : Prop where
  allotted : c.Allotted
  typed : ∀ {name g slot id}, c.groups.get? name = some g → g.Holds slot id →
    (c.entity id).type = g.type
  entered : ∀ {name g}, c.groups.get? name = some g → g.index.names.Nodup
  named : ∀ {name g}, c.groups.get? name = some g → g.type.name = name
  registered : ∀ {name g}, c.groups.get? name = some g → c.catalog.type? name = some g.type
  ordered : c.groups.names.Pairwise (· < ·)
  known : ∀ id < c.instances.count,
    c.catalog.type? (c.entity id).type.name = some (c.entity id).type
  complete : ∀ id < c.instances.count, (c.entity id).Complete
  distinct : ∀ {name t}, c.catalog.type? name = some t → t.DistinctNames

namespace Cache

variable {c c' : Cache}

theorem Sound.formed (h : c.Sound) : c.Formed where
  allotted _ _ hg := ⟨(h.groups hg).free_iff, (h.groups hg).free_nodup,
    fun hs => h.given ⟨_, hg, hs⟩⟩
  typed hg hs := (h.groups hg).typed hs
  entered hg := (h.groups hg).names_nodup
  named := h.named
  registered := h.registered
  ordered := h.ordered
  known := h.known
  complete := h.complete
  distinct := h.distinct

namespace Formed

theorem sound (h : c.Formed) (hi : c.Indexed) : c.Sound where
  groups {name g} hg := by
    have hkey : ∀ {slot id}, g.Holds slot id →
        g.index.get? (c.entity id).keyText = some slot := fun {slot id} hs => by
      rw [← slot?_of_group hg]
      exact hi.slot?_own ⟨g, hg, hs⟩
    refine ⟨fun hs => h.typed hg hs, fun {slot id} hs => ?_, fun hs => hi.tracked ⟨g, hg, hs⟩,
      fun key slot => ⟨fun hk => ?_, ?_⟩, h.entered hg, (h.allotted _ _ hg).free_iff,
      (h.allotted _ _ hg).free_nodup⟩
    · obtain ⟨key, hlabel, hk⟩ := hi.labelled ⟨g, hg, hs⟩
      have hnow := (keyText_eq_iff _ _).mp ((hi.current ⟨g, hg, hs⟩ key).mp hk)
      exact hlabel.trans (congrArg some hnow.symm)
    · have hk' : c.slot? name key = some slot := (slot?_of_group hg key).trans hk
      obtain ⟨id, hs⟩ := hi.live hk'
      have hnow := (keyText_eq_iff _ _).mp ((hi.current hs key).mp hk')
      obtain ⟨g', hg', hs⟩ := hs
      obtain rfl := Option.some.inj (hg.symm.trans hg')
      exact ⟨id, hs, hnow⟩
    · rintro ⟨id, hs, rfl⟩
      exact hkey hs
  named := h.named
  registered := h.registered
  ordered := h.ordered
  known := h.known
  complete := h.complete
  given := by
    rintro name slot id ⟨g, hg, hs⟩
    exact (h.allotted name g hg).given hs
  distinct := h.distinct

theorem edited (h : c.Formed) (hc : c'.catalog = c.catalog) (hg : c'.groups = c.groups)
    (hr : c.instances.Reshapes c'.instances) : c'.Formed where
  allotted := h.allotted.of_groups hg (Nat.le_of_eq hr.count.symm)
  typed ho hs := (hr.type _).trans (h.typed (hg ▸ ho) hs)
  entered ho := h.entered (hg ▸ ho)
  named ho := h.named (hg ▸ ho)
  registered ho := hc ▸ h.registered (hg ▸ ho)
  ordered := hg ▸ h.ordered
  known id hid := by
    rw [entity, hr.type id, hc]
    exact h.known id (hr.count ▸ hid)
  complete id hid := hr.complete id (h.complete id (hr.count ▸ hid))
  distinct ht := h.distinct (hc ▸ ht)

/-- A group with a successor of the same type in its place. -/
theorem replaced (h : c.Formed) {name : String} {g g' : Group}
    (hg : c.groups.get? name = some g) (ha : g'.Allotted c.instances.count)
    (ht : g'.type = g.type) (he : g'.index.names.Nodup)
    (hs : ∀ {slot id}, g'.Holds slot id → (c.entity id).type = g.type) :
    Formed { c with groups := putGroup name g' c.groups } := by
  refine ⟨h.allotted.keep ha rfl, fun ho hm => ?_, fun ho => ?_, fun ho => ?_, fun ho => ?_,
    ordered_putGroup h.ordered name g', h.known, h.complete, h.distinct⟩
  · rcases get?_putGroup_cases ho with ⟨-, rfl⟩ | ⟨-, ho⟩
    · exact (hs hm).trans ht.symm
    · exact h.typed ho hm
  · rcases get?_putGroup_cases ho with ⟨-, rfl⟩ | ⟨-, ho⟩
    · exact he
    · exact h.entered ho
  · rcases get?_putGroup_cases ho with ⟨rfl, rfl⟩ | ⟨-, ho⟩
    · rw [ht]; exact h.named hg
    · exact h.named ho
  · rcases get?_putGroup_cases ho with ⟨rfl, rfl⟩ | ⟨-, ho⟩
    · rw [ht]; exact h.registered hg
    · exact h.registered ho

theorem opens (h : c.Formed) {t : EntityType} (ho : Opens t c c')
    (ht : c.catalog.type? t.name = some t) : c'.Formed := by
  have hallotted := h.allotted.opens ho
  cases ho with
  | there => exact h
  | @opened g _ hn =>
    obtain ⟨hs, hgt, hslots⟩ := Group.sound_new hn c.instances
    refine ⟨hallotted, fun ho hm => ?_, fun ho => ?_, fun ho => ?_, fun ho => ?_,
      ordered_putGroup h.ordered t.name g, h.known, h.complete, h.distinct⟩
    · rcases get?_putGroup_cases ho with ⟨-, rfl⟩ | ⟨-, ho⟩
      · simp [Group.Holds, hslots] at hm
      · exact h.typed ho hm
    · rcases get?_putGroup_cases ho with ⟨-, rfl⟩ | ⟨-, ho⟩
      · exact hs.names_nodup
      · exact h.entered ho
    · rcases get?_putGroup_cases ho with ⟨rfl, rfl⟩ | ⟨-, ho⟩
      · rw [hgt]
      · exact h.named ho
    · rcases get?_putGroup_cases ho with ⟨rfl, rfl⟩ | ⟨-, ho⟩
      · rw [hgt]; exact ht
      · exact h.registered ho

theorem added (h : c.Formed) {e : Entity} (ht : c.catalog.type? e.type.name = some e.type)
    (hp : e.Complete) : Formed { c with instances := (c.instances.add e).2 } := by
  refine ⟨h.allotted.of_groups rfl (Nat.le_succ _), fun hg hs => ?_, h.entered, h.named,
    h.registered, h.ordered,
    Instances.forall_add (P := fun e => c.catalog.type? e.type.name = some e.type) h.known ht,
    Instances.forall_add h.complete hp, h.distinct⟩
  rw [Cache.entity, Instances.entity_add_of_lt ((h.allotted _ _ hg).given hs)]
  exact h.typed hg hs

end Formed

structure FormedIn (catalog : Catalog) (c : Cache) : Prop where
  formed : c.Formed
  catalog : c.catalog = catalog

theorem FormedIn.type?_self {catalog : Catalog} {c : Cache} (h : c.FormedIn catalog) {name : String}
    {t : EntityType} (ht : c.catalog.type? name = some t) : catalog.type? t.name = some t :=
  h.catalog ▸ Catalog.type?_self ht

theorem FormedIn.type?_of_find {catalog : Catalog} {c : Cache} (h : c.FormedIn catalog)
    {name : String} {t : EntityType} (ht : c.catalog.find name = .ok t) :
    catalog.type? t.name = some t := h.catalog ▸ Catalog.type?_of_find ht

end Cache

end EntityCache
