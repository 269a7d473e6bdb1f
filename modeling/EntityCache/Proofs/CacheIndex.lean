import EntityCache.Proofs.Actions
import EntityCache.Proofs.Registry
import EntityCache.Proofs.Rekeying
import Mathlib.Data.String.Basic

/-! The groups of a cache and the entities in their slots. `Indexed` is what the cache
promises about its indexes; `Sound` adds what keeps the promise from call to call: free
slots, registered types, and a value for every data property. -/
namespace EntityCache.Cache

variable {c c' : Cache}

section Groups

theorem get?_putGroup (t : Table Group) (name other : String) (g : Group) :
    (putGroup name g t).get? other = if other = name then some g else t.get? other := by
  induction t with
  | nil => simp [putGroup, Table.get?, eq_comm]
  | cons e rest ih =>
    obtain ⟨n, w⟩ := e
    by_cases hn : n = name
    · subst hn
      by_cases h : other = n <;> simp [putGroup, Table.get?, h, Ne.symm]
    · by_cases hlt : name < n
      · simp [putGroup, Table.get?, hn, hlt, eq_comm]
      · by_cases h : n = other
        · subst h; simp [putGroup, Table.get?, hn, hlt]
        · simp [putGroup, Table.get?, hn, hlt, h, ih]

theorem get?_putGroup_cases {t : Table Group} {name other : String} {g g' : Group}
    (h : Table.get? (putGroup name g t) other = some g') :
    other = name ∧ g' = g ∨ other ≠ name ∧ t.get? other = some g' := by
  rw [get?_putGroup] at h
  split at h
  · exact Or.inl ⟨‹_›, (Option.some.inj h).symm⟩
  · exact Or.inr ⟨‹_›, h⟩

theorem mem_names_putGroup {t : Table Group} {name other : String} {g : Group} :
    other ∈ Table.names (putGroup name g t) ↔ other = name ∨ other ∈ t.names := by
  have h (t : Table Group) : other ∈ t.names ↔ t.get? other ≠ none := by
    rw [Ne, Table.get?_eq_none_iff, not_not]
  rw [h, h, get?_putGroup]
  split <;> simp_all

theorem putGroup_self {t : Table Group} (ht : t.names.Pairwise (· < ·)) {name : String} {g : Group}
    (h : t.get? name = some g) : putGroup name g t = t := by
  induction t with
  | nil => cases h
  | cons e rest ih =>
    obtain ⟨n, w⟩ := e
    obtain ⟨hfirst, hrest⟩ := List.pairwise_cons.mp ht
    by_cases hn : n = name
    · simp only [Table.get?, hn, if_true, Option.some.injEq] at h
      simp [putGroup, hn, h]
    · simp only [Table.get?, hn, if_false] at h
      have hmem : name ∈ Table.names rest := List.mem_map_of_mem (Table.mem_of_get? h)
      have hlt : ¬ name < n := lt_asymm (hfirst name hmem)
      simp [putGroup, hn, hlt, ih hrest h]

theorem ordered_putGroup {t : Table Group} (ht : t.names.Pairwise (· < ·)) (name : String)
    (g : Group) : (Table.names (putGroup name g t)).Pairwise (· < ·) := by
  induction t with
  | nil => simp [putGroup, Table.names]
  | cons e rest ih =>
    obtain ⟨n, w⟩ := e
    obtain ⟨hn, hr⟩ := List.pairwise_cons.mp ht
    unfold putGroup
    split
    · exact ht
    · rename_i hne
      split
      · rename_i hlt
        refine List.pairwise_cons.mpr ⟨fun m hm => ?_, ht⟩
        rcases List.mem_cons.mp hm with rfl | hm
        · exact hlt
        · exact lt_trans hlt (hn m hm)
      · rename_i hlt
        refine List.pairwise_cons.mpr ⟨fun m hm => ?_, ih hr⟩
        rcases mem_names_putGroup.mp hm with rfl | hm
        · exact lt_of_le_of_ne (not_lt.mp hlt) hne
        · exact hn m hm

end Groups

def Holds (c : Cache) (name : String) (slot : Nat) (id : InstanceId) : Prop :=
  ∃ g, c.groups.get? name = some g ∧ g.Holds slot id

def IsCached (c : Cache) (id : InstanceId) : Prop := ∃ name slot, c.Holds name slot id

def slot? (c : Cache) (name key : String) : Option Nat :=
  (c.groups.get? name).bind (·.index.get? key)

/-- Every live slot is indexed by the key that its entity has now and by no other, every
index entry leads to a live slot, and no entity is in two slots, of one group or of two.
What is in a slot is not Detached and knows the key that it is indexed by. -/
structure Indexed (c : Cache) : Prop where
  current : ∀ {name slot id}, c.Holds name slot id → ∀ key,
    c.slot? name key = some slot ↔ (c.entity id).key.map EntityKey.inGroup = .ok key
  live : ∀ {name key slot}, c.slot? name key = some slot → ∃ id, c.Holds name slot id
  once : ∀ {name slot other slot' id}, c.Holds name slot id → c.Holds other slot' id →
    other = name ∧ slot' = slot
  tracked : ∀ {name slot id}, c.Holds name slot id → (c.entity id).state ≠ .detached
  labelled : ∀ {name slot id}, c.Holds name slot id → ∃ key,
    (c.entity id).groupKey = some key ∧ c.slot? name key = some slot

structure Sound (c : Cache) : Prop where
  groups : ∀ {name g}, c.groups.get? name = some g → g.Sound c.instances
  named : ∀ {name g}, c.groups.get? name = some g → g.type.name = name
  registered : ∀ {name g}, c.groups.get? name = some g → c.catalog.type? name = some g.type
  ordered : c.groups.names.Pairwise (· < ·)
  known : ∀ id < c.instances.count,
    c.catalog.type? (c.entity id).type.name = some (c.entity id).type
  complete : ∀ id < c.instances.count, (c.entity id).Complete
  given : ∀ {name slot id}, c.Holds name slot id → id < c.instances.count
  distinct : ∀ {name t}, c.catalog.type? name = some t → t.DistinctNames

theorem keyText_eq_iff (e : Entity) (key : String) :
    e.key.map EntityKey.inGroup = .ok key ↔ e.keyText = key := by
  simp [Entity.key_eq, Entity.keyText, Except.map]

theorem Indexed.slot?_own (h : c.Indexed) {name : String} {slot : Nat} {id : InstanceId}
    (hs : c.Holds name slot id) : c.slot? name (c.entity id).keyText = some slot :=
  (h.current hs _).mpr ((keyText_eq_iff _ _).mpr rfl)

theorem slot?_of_group {name : String} {g : Group} (hg : c.groups.get? name = some g)
    (key : String) : c.slot? name key = g.index.get? key := by simp [slot?, hg]

namespace Sound

theorem group_type (h : c.Sound) {name : String} {slot : Nat} {id : InstanceId}
    (hs : c.Holds name slot id) : (c.entity id).type.name = name := by
  obtain ⟨g, hg, hs⟩ := hs
  exact (congrArg EntityType.name ((h.groups hg).typed hs)).trans (h.named hg)

theorem indexed (h : c.Sound) : c.Indexed where
  current := by
    rintro name slot id ⟨g, hg, hs⟩ key
    rw [slot?_of_group hg, keyText_eq_iff, (h.groups hg).index_iff]
    constructor
    · rintro ⟨i, hi, hk⟩
      rwa [hs.unique hi]
    · exact fun hk => ⟨id, hs, hk⟩
  live := by
    intro name key slot hk
    obtain ⟨g, hg, hk⟩ := Option.bind_eq_some_iff.mp hk
    obtain ⟨id, hs, -⟩ := ((h.groups hg).index_iff _ _).mp hk
    exact ⟨id, g, hg, hs⟩
  once := by
    intro name slot other slot' id hs ho
    obtain rfl := (h.group_type hs).symm.trans (h.group_type ho)
    obtain ⟨g, hg, hs⟩ := hs
    obtain ⟨g', hg', ho⟩ := ho
    obtain rfl := Option.some.inj (hg.symm.trans hg')
    exact ⟨rfl, (h.groups hg).slot_unique ho hs⟩
  tracked := by
    rintro name slot id ⟨g, hg, hs⟩
    exact (h.groups hg).tracked hs
  labelled := by
    rintro name slot id ⟨g, hg, hs⟩
    exact ⟨_, (h.groups hg).attached hs, (slot?_of_group hg _).trans ((h.groups hg).indexed hs)⟩

/-- The index goes by the catalog, the groups and the entities alone. -/
theorem of_same (h : c.Sound) (hc : c'.catalog = c.catalog) (hg : c'.groups = c.groups)
    (hi : c'.instances = c.instances) : c'.Sound := by
  obtain ⟨_, _, _, _, _, _, _⟩ := c'
  subst hc hg hi
  exact ⟨h.groups, h.named, h.registered, h.ordered, h.known, h.complete, h.given, h.distinct⟩

/-- Entities may be edited that continue in their slots, and any that are in none. -/
theorem edited (h : c.Sound) {is : Instances} (hn : is.count = c.instances.count)
    (ht : ∀ id, (is.entity id).type = (c.entity id).type)
    (hp : ∀ id, (c.entity id).Complete → (is.entity id).Complete)
    (hc : ∀ {name slot id}, c.Holds name slot id → (c.entity id).Continues (is.entity id)) :
    Sound { c with instances := is } where
  groups hg := (h.groups hg).edited fun hs => hc ⟨_, hg, hs⟩
  named := h.named
  registered := h.registered
  ordered := h.ordered
  known id hid := by
    change c.catalog.type? (is.entity id).type.name = some (is.entity id).type
    rw [ht id]
    exact h.known id (hn ▸ hid)
  complete id hid := hp id (h.complete id (hn ▸ hid))
  given hs := hn.symm ▸ h.given hs
  distinct := h.distinct

theorem frozen (h : c.Sound) (v : TypeVersion) :
    Sound { c with instances := c.instances.freeze v } :=
  h.edited (by simp) (by simp [Cache.entity]) (by simp [Cache.entity])
    fun _ => by rw [Instances.entity_freeze]; exact .refl _

theorem put (h : c.Sound) {id : InstanceId} {e : Entity} (ht : e.type = (c.entity id).type)
    (hp : (c.entity id).Complete → e.Complete)
    (hc : c.IsCached id → (c.entity id).Continues e) :
    Sound { c with instances := c.instances.put id e } := by
  refine h.edited rfl (fun other => ?_) (fun other => ?_) fun {name slot other} hs => ?_ <;>
    by_cases ho : other = id
  · subst ho; simpa using ht
  · simp [ho, Cache.entity]
  · subst ho; simpa using hp
  · simp [ho, Cache.entity]
  · subst ho; simpa using hc ⟨name, slot, hs⟩
  · rw [Instances.entity_put, if_neg ho]
    exact .refl _

/-- What a call on a group gives is sound in place of the group. -/
theorem keep (h : c.Sound) {name : String} {g g' : Group} {is : Instances}
    (hg : c.groups.get? name = some g) (hs : g'.Sound is) (ht : g'.type = g.type)
    (he : c.instances.Edits g.type is)
    (hh : ∀ {slot id}, g'.Holds slot id → id < c.instances.count) :
    Sound { c with groups := putGroup name g' c.groups, instances := is } := by
  refine ⟨fun ho => ?_, fun ho => ?_, fun ho => ?_, ordered_putGroup h.ordered name g',
    fun id hid => ?_, fun id hid => he.complete id (h.complete id (he.count ▸ hid)), ?_,
    h.distinct⟩
  · rcases get?_putGroup_cases ho with ⟨-, rfl⟩ | ⟨hne, ho⟩
    · exact hs
    · refine (h.groups ho).edited fun {_ id} hm => ?_
      have htype : (c.entity id).type ≠ g.type := by
        intro heq
        have hname := (h.groups ho).typed hm
        exact hne (by rw [← h.named ho, ← h.named hg, ← hname, ← heq]; rfl)
      rw [he.others id htype]
      exact .refl _
  · rcases get?_putGroup_cases ho with ⟨rfl, rfl⟩ | ⟨-, ho⟩
    · rw [ht]; exact h.named hg
    · exact h.named ho
  · rcases get?_putGroup_cases ho with ⟨rfl, rfl⟩ | ⟨-, ho⟩
    · rw [ht]; exact h.registered hg
    · exact h.registered ho
  · change c.catalog.type? (is.entity id).type.name = some (is.entity id).type
    rw [he.type id]
    exact h.known id (he.count ▸ hid)
  · rintro other slot id ⟨g₁, ho, hm⟩
    change id < is.count
    rw [he.count]
    rcases get?_putGroup_cases ho with ⟨-, rfl⟩ | ⟨-, ho⟩
    · exact hh hm
    · exact h.given ⟨g₁, ho, hm⟩

theorem opened (h : c.Sound) {t : EntityType} {g : Group} (hg : Group.new t = .ok g)
    (ht : c.catalog.type? t.name = some t) :
    Sound { c with groups := putGroup t.name g c.groups } := by
  obtain ⟨hs, hgt, hslots⟩ := Group.sound_new hg c.instances
  refine ⟨fun ho => ?_, fun ho => ?_, fun ho => ?_, ordered_putGroup h.ordered t.name g,
    h.known, h.complete, ?_, h.distinct⟩
  · rcases get?_putGroup_cases ho with ⟨-, rfl⟩ | ⟨-, ho⟩
    · exact hs
    · exact h.groups ho
  · rcases get?_putGroup_cases ho with ⟨rfl, rfl⟩ | ⟨-, ho⟩
    · rw [hgt]
    · exact h.named ho
  · rcases get?_putGroup_cases ho with ⟨rfl, rfl⟩ | ⟨-, ho⟩
    · rw [hgt]; exact ht
    · exact h.registered ho
  · rintro other slot id ⟨g₁, ho, hm⟩
    rcases get?_putGroup_cases ho with ⟨-, rfl⟩ | ⟨-, ho⟩
    · simp [Group.Holds, hslots] at hm
    · exact h.given ⟨g₁, ho, hm⟩

theorem added (h : c.Sound) {e : Entity} (ht : c.catalog.type? e.type.name = some e.type)
    (hp : e.Complete) : Sound { c with instances := (c.instances.add e).2 } := by
  refine ⟨fun {_ g} hg => (h.groups hg).edited fun {_ id} hs => ?_, h.named, h.registered,
    h.ordered, Instances.forall_add (P := fun e => c.catalog.type? e.type.name = some e.type)
      h.known ht, Instances.forall_add h.complete hp, fun hs => Nat.lt_succ_of_lt (h.given hs),
    h.distinct⟩
  rw [Instances.entity_add_of_lt (h.given ⟨g, hg, hs⟩)]
  exact .refl _

end Sound

end EntityCache.Cache
