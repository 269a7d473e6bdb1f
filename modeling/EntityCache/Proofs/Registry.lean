import EntityCache.Proofs.Keys
import EntityCache.Schema.Catalog

/-! Catalogs as they come about: from an empty one by registering checked types, mapping
resources and extending types. The properties of each of their types differ in name. -/
namespace EntityCache.Catalog

inductive Registered : Catalog → Prop where
  | empty (label naming) : Registered { label, naming }
  | withType {c c' t} : Registered c → t.checked = .ok t → c.withType t = .ok c' → Registered c'
  | withResource {c c' resource typeName} : Registered c →
      c.withResource resource typeName = .ok c' → Registered c'
  | withDataProperty {c c' frozen typeName p} : Registered c →
      c.withDataProperty frozen typeName p = .ok c' → Registered c'

theorem type?_some {c : Catalog} {name : String} {t : EntityType} (h : c.type? name = some t) :
    t ∈ c.types ∧ t.name = name :=
  ⟨List.mem_of_find?_eq_some h, by simpa using List.find?_some h⟩

theorem find_ok {c : Catalog} {name : String} {t : EntityType} (h : c.find name = .ok t) :
    c.find? name = some t := by
  unfold find at h
  split at h
  · simp_all
  · cases h

theorem type?_self {c : Catalog} {name : String} {t : EntityType}
    (h : c.type? name = some t) : c.type? t.name = some t := by
  obtain ⟨-, hn⟩ := type?_some h
  rwa [hn]

theorem type?_of_find? {c : Catalog} {name : String} {t : EntityType}
    (h : c.find? name = some t) : c.type? t.name = some t := type?_self h

theorem type?_of_find {c : Catalog} {name : String} {t : EntityType}
    (h : c.find name = .ok t) : c.type? t.name = some t := type?_of_find? (find_ok h)

theorem hasProperty_iff {t : EntityType} {name : String} :
    t.hasProperty name ↔ name ∈ t.propertyNames := by
  simp [EntityType.hasProperty, EntityType.dataProperty?, EntityType.navigationProperty?,
    EntityType.propertyNames]

theorem extended_nodup {t t' : EntityType} {isFrozen : Bool} {p : DataProperty}
    (ht : t.propertyNames.Nodup) (h : t.withDataProperty isFrozen p = .ok t') :
    t'.name = t.name ∧ t'.propertyNames.Nodup := by
  unfold EntityType.withDataProperty at h
  split at h
  · cases h
  · split at h
    · cases h
    · rename_i hp
      cases h
      have hnew : p.name ∉ t.propertyNames := fun hm => hp (hasProperty_iff.mpr hm)
      refine ⟨rfl, ?_⟩
      simp only [EntityType.propertyNames, List.map_append, List.map_cons, List.map_nil,
        List.append_assoc, List.singleton_append]
      exact List.nodup_middle.mpr (List.nodup_cons.mpr ⟨hnew, ht⟩)

theorem propertyNames_stamped (c : Catalog) (t : EntityType) :
    (c.stamp (c.withServerNames t)).propertyNames = t.propertyNames := by
  simp [EntityType.propertyNames, stamp, withServerNames, namedOnServer, Function.comp_def]

theorem Registered.nodup_propertyNames {c : Catalog} (h : c.Registered) :
    ∀ t ∈ c.types, t.propertyNames.Nodup := by
  induction h with
  | empty => simp
  | @withType c c' t _ ht hc ih =>
    unfold Catalog.withType at hc
    split at hc
    · cases hc
    · cases hc
      intro u hu
      rcases List.mem_append.mp hu with hu | hu
      · exact ih u hu
      · rw [List.mem_singleton.mp hu, propertyNames_stamped]
        exact (EntityType.distinct_of_checked ht).2
  | @withResource c c' resource typeName _ hc ih =>
    obtain ⟨t, -, hc⟩ := bind_ok hc
    cases hc
    exact ih
  | @withDataProperty c c' frozen typeName p _ hc ih =>
    obtain ⟨t, hf, hc⟩ := bind_ok hc
    obtain ⟨extended, he, hc⟩ := bind_ok hc
    cases hc
    intro u hu
    obtain ⟨v, hv, rfl⟩ := List.mem_map.mp hu
    split
    · exact (extended_nodup (ih t (type?_some (find_ok hf)).1) he).2
    · exact ih v hv

theorem Registered.distinctNames {c : Catalog} (h : c.Registered) :
    ∀ t ∈ c.types, t.DistinctNames := fun t ht =>
  (h.nodup_propertyNames t ht).sublist (List.sublist_append_left _ _)

/-- A new version has the name of the one that it takes the place of. -/
theorem names_replaced (c : Catalog) {t t' : EntityType} (h : t'.name = t.name)
    (types : List EntityType) :
    (types.map fun u => if u.name = t.name then c.stamp t' else u).map (·.name) =
      types.map (·.name) := by
  rw [List.map_map]
  refine List.map_congr_left fun u _ => ?_
  rw [Function.comp_apply]
  split
  · rename_i hu
    exact h.trans hu.symm
  · rfl

theorem Registered.nodup_typeNames {c : Catalog} (h : c.Registered) :
    (c.types.map (·.name)).Nodup := by
  induction h with
  | empty => simp
  | @withType c c' t _ ht hc ih =>
    unfold Catalog.withType at hc
    split at hc
    · cases hc
    · rename_i hnone
      cases hc
      have hnew : t.name ∉ c.types.map (·.name) := by
        simpa [type?] using hnone
      rw [List.map_append, List.map_singleton]
      refine List.nodup_append.mpr ⟨ih, List.nodup_singleton _, fun a ha b hb => ?_⟩
      rw [List.mem_singleton.mp hb]
      rintro rfl
      exact hnew ha
  | @withResource c c' resource typeName _ hc ih =>
    obtain ⟨t, -, hc⟩ := bind_ok hc
    cases hc
    exact ih
  | @withDataProperty c c' frozen typeName p hregistered hc ih =>
    obtain ⟨t, hf, hc⟩ := bind_ok hc
    obtain ⟨extended, he, hc⟩ := bind_ok hc
    cases hc
    have ht := hregistered.nodup_propertyNames t (type?_some (find_ok hf)).1
    rw [names_replaced c (extended_nodup ht he).1]
    exact ih

/-- So a type that is registered under a name is the only one of this name. -/
theorem Registered.type?_eq_some_iff {c : Catalog} (h : c.Registered) {name : String}
    {t : EntityType} : c.type? name = some t ↔ t ∈ c.types ∧ t.name = name := by
  refine ⟨type?_some, fun ⟨hm, hname⟩ => ?_⟩
  have hsome : (c.type? name).isSome := List.find?_isSome.mpr ⟨t, hm, by simpa using hname⟩
  obtain ⟨u, hu⟩ := Option.isSome_iff_exists.mp hsome
  obtain ⟨hum, huname⟩ := type?_some hu
  obtain rfl := List.inj_on_of_nodup_map h.nodup_typeNames hum hm (huname.trans hname.symm)
  exact hu

end EntityCache.Catalog
