import EntityCache.Proofs.Keys
import EntityCache.Tracking.Group

/-! The slots, the free list and the index of a group in step with each other. `Sound` says
what holds between calls; every way in which a group is changed (a newcomer placed, a slot
given up, index entries moved, entities edited) keeps it. -/
namespace EntityCache

@[simp] theorem Instances.entity_freeze (is : Instances) (v : TypeVersion) :
    (is.freeze v).entity = is.entity := by unfold Instances.freeze; split <;> rfl

@[simp] theorem Instances.count_freeze (is : Instances) (v : TypeVersion) :
    (is.freeze v).count = is.count := by unfold Instances.freeze; split <;> rfl

@[simp] theorem Instances.count_put (is : Instances) (id : InstanceId) (e : Entity) :
    (is.put id e).count = is.count := rfl

theorem Instances.put_self (is : Instances) (id : InstanceId) : is.put id (is.entity id) = is := by
  have hentity : (is.put id (is.entity id)).entity = is.entity := by
    funext other
    by_cases ho : other = id <;> simp [ho]
  cases is
  simpa [Instances.put] using hentity

theorem Instances.put_put (is : Instances) (id : InstanceId) (e e' : Entity) :
    (is.put id e).put id e' = is.put id e' := by
  refine congrArg (fun entity => { is with entity }) (funext fun other => ?_)
  by_cases ho : other = id <;> simp [ho]

/-- A newcomer displaces nobody. -/
theorem Instances.entity_add_of_lt {is : Instances} {id : InstanceId} (h : id < is.count)
    (e : Entity) : (is.add e).2.entity id = is.entity id := by
  simp [Instances.add, Nat.ne_of_lt h]

/-- What holds of the entities there are and of a newcomer holds of all there are then. -/
theorem Instances.forall_add {P : Entity → Prop} {is : Instances} {e : Entity}
    (h : ∀ id < is.count, P (is.entity id)) (he : P e) :
    ∀ id < (is.add e).2.count, P ((is.add e).2.entity id) := by
  intro id hid
  rcases Nat.lt_succ_iff_lt_or_eq.mp hid with hlt | rfl
  · rw [entity_add_of_lt hlt]
    exact h id hlt
  · simpa [Instances.add] using he

namespace Group

variable {g : Group} {is is' : Instances}

def Holds (g : Group) (slot : Nat) (id : InstanceId) : Prop := g.slots[slot]? = some (some id)

theorem Holds.unique {slot : Nat} {a b : InstanceId} (ha : g.Holds slot a) (hb : g.Holds slot b) :
    a = b := Option.some.inj (Option.some.inj (ha.symm.trans hb))

theorem holds_congr {g' : Group} (h : g'.slots = g.slots) {slot : Nat} {id : InstanceId} :
    g'.Holds slot id ↔ g.Holds slot id := by rw [Holds, Holds, h]

theorem occupant_eq_ok {slot : Nat} {id : InstanceId} :
    g.occupant slot = .ok id ↔ g.Holds slot id := by
  unfold occupant Holds
  constructor
  · intro h
    split at h
    · cases h; assumption
    · cases h
  · intro h
    simp [h]

/-- Every live slot is indexed under the key of its entity and under no other, the index
leads to live slots only, and the free list names the empty slots. -/
structure Sound (g : Group) (is : Instances) : Prop where
  typed : ∀ {slot id}, g.Holds slot id → (is.entity id).type = g.type
  attached : ∀ {slot id}, g.Holds slot id →
    (is.entity id).groupKey = some (is.entity id).keyText
  tracked : ∀ {slot id}, g.Holds slot id → (is.entity id).state ≠ .detached
  index_iff : ∀ key slot, g.index.get? key = some slot ↔
    ∃ id, g.Holds slot id ∧ (is.entity id).keyText = key
  names_nodup : g.index.names.Nodup
  free_iff : ∀ slot, slot ∈ g.free ↔ g.slots[slot]? = some none
  free_nodup : g.free.Nodup

namespace Sound

theorem indexed (h : g.Sound is) {slot : Nat} {id : InstanceId} (hs : g.Holds slot id) :
    g.index.get? (is.entity id).keyText = some slot := (h.index_iff _ _).mpr ⟨id, hs, rfl⟩

theorem isAttached (h : g.Sound is) {slot : Nat} {id : InstanceId} (hs : g.Holds slot id) :
    (is.entity id).isAttached := by simp [Entity.isAttached, h.attached hs]

theorem slot_unique (h : g.Sound is) {s t : Nat} {id : InstanceId} (hs : g.Holds s id)
    (ht : g.Holds t id) : s = t := Option.some.inj ((h.indexed hs).symm.trans (h.indexed ht))

theorem occupant (h : g.Sound is) {key : String} {slot : Nat}
    (hk : g.index.get? key = some slot) : ∃ id, g.occupant slot = .ok id ∧
      g.Holds slot id ∧ (is.entity id).keyText = key := by
  obtain ⟨id, hs, ht⟩ := (h.index_iff _ _).mp hk
  exact ⟨id, occupant_eq_ok.mpr hs, hs, ht⟩

theorem ne_of_unindexed (h : g.Sound is) {key : String} (hk : g.index.get? key = none)
    {slot : Nat} {id : InstanceId} (hs : g.Holds slot id) : (is.entity id).keyText ≠ key := by
  intro ht
  have hi := h.indexed hs
  rw [ht, hk] at hi
  cases hi

theorem edited (h : g.Sound is)
    (hc : ∀ {slot id}, g.Holds slot id → (is.entity id).Continues (is'.entity id)) :
    g.Sound is' where
  typed hs := (hc hs).type.trans (h.typed hs)
  attached hs := by rw [(hc hs).groupKey, (hc hs).keyText (h.isAttached hs)]; exact h.attached hs
  tracked hs := (hc hs).tracked (h.tracked hs)
  index_iff key slot := by
    rw [h.index_iff]
    refine exists_congr fun id => and_congr_right fun hs => ?_
    rw [(hc hs).keyText (h.isAttached hs)]
  names_nodup := h.names_nodup
  free_iff := h.free_iff
  free_nodup := h.free_nodup

theorem put (h : g.Sound is) {id : InstanceId} {e : Entity}
    (hc : (is.entity id).Continues e) : g.Sound (is.put id e) :=
  h.edited fun {_ other} _ => by
    by_cases ho : other = id
    · subst ho; simpa using hc
    · simpa [ho] using Entity.Continues.refl (is.entity other)

end Sound

theorem sound_new {t : EntityType} (h : Group.new t = .ok g) (is : Instances) :
    g.Sound is ∧ g.type = t ∧ g.slots = [] := by
  unfold Group.new at h
  split at h
  · cases h
  · cases h
    refine ⟨⟨?_, ?_, ?_, ?_, ?_, ?_, ?_⟩, rfl, rfl⟩ <;>
      simp [Holds, Table.get?, Table.names]

section Place

/-- A newcomer takes one slot that was empty or is new; the others stay as they are. -/
theorem place_spec (hempties : ∀ slot, slot ∈ g.free ↔ g.slots[slot]? = some none)
    (hnodup : g.free.Nodup) (key : String) (id : InstanceId) : ∃ slot,
    (∀ i, ¬ g.Holds slot i) ∧ (g.place key id).index = g.index.put key slot ∧
    (∀ s i, (g.place key id).Holds s i ↔ (s = slot ∧ i = id) ∨ g.Holds s i) ∧
    (∀ s, s ∈ (g.place key id).free ↔ (g.place key id).slots[s]? = some none) ∧
    (g.place key id).free.Nodup := by
  unfold place
  split
  · rename_i slot rest hf
    have hslot : g.slots[slot]? = some none := (hempties slot).mp (by simp [hf])
    have hlt : slot < g.slots.length := (List.getElem?_eq_some_iff.mp hslot).1
    have hnd : slot ∉ rest ∧ rest.Nodup := by simpa [hf] using hnodup
    have hempty : ∀ i, ¬ g.Holds slot i := fun i hi => by simp [Holds, hslot] at hi
    refine ⟨slot, hempty, rfl, ?_, ?_, hnd.2⟩
    · intro s i
      by_cases hs : s = slot
      · subst hs
        have hn := hempty i
        simp only [Holds] at hn ⊢
        simp [List.getElem?_set_self hlt, hslot, eq_comm]
      · simp [Holds, List.getElem?_set_ne (Ne.symm hs), hs]
    · intro s
      by_cases hs : s = slot
      · subst hs; simp [hlt, hnd.1]
      · have hm := hempties s
        rw [hf] at hm
        simpa [List.getElem?_set_ne (Ne.symm hs), hs] using hm
  · rename_i hf
    have hempty : ∀ i, ¬ g.Holds g.slots.length i := fun i hi => by simp [Holds] at hi
    have hbeyond : ∀ s, g.slots.length < s → (g.slots ++ [some id])[s]? = none := by
      intro s hs
      apply List.getElem?_eq_none
      rw [List.length_append]
      exact hs
    refine ⟨g.slots.length, hempty, rfl, ?_, ?_, hnodup⟩
    · intro s i
      rcases Nat.lt_trichotomy s g.slots.length with hs | hs | hs
      · simp [Holds, List.getElem?_append_left hs, Nat.ne_of_lt hs]
      · subst hs; simp [Holds, eq_comm]
      · simp [Holds, hbeyond s hs, Nat.ne_of_gt hs, Nat.le_of_lt hs]
    · intro s
      have hm : g.slots[s]? ≠ some none := fun k => by simpa [hf] using (hempties s).mpr k
      have hnew : (g.slots ++ [some id])[s]? ≠ some none := by
        rcases Nat.lt_trichotomy s g.slots.length with hs | hs | hs
        · simpa [List.getElem?_append_left hs] using hm
        · subst hs; simp
        · simp [hbeyond s hs]
      simp [hf, hnew]

theorem Sound.place (h : g.Sound is) {id : InstanceId} {e : Entity}
    (hid : ∀ slot, ¬ g.Holds slot id) (ht : e.type = g.type)
    (hk : e.groupKey = some e.keyText) (hs : e.state ≠ .detached)
    (hi : g.index.get? e.keyText = none) : (g.place e.keyText id).Sound (is.put id e) := by
  obtain ⟨slot, hempty, hindex, hholds, hfree, hnd⟩ :=
    place_spec h.free_iff h.free_nodup e.keyText id
  have htype : (g.place e.keyText id).type = g.type := by unfold Group.place; split <;> rfl
  have hother : ∀ {s i}, g.Holds s i → (is.put id e).entity i = is.entity i := by
    intro s i hi
    have : i ≠ id := by rintro rfl; exact hid s hi
    simp [this]
  refine ⟨?_, ?_, ?_, ?_, ?_, hfree, hnd⟩
  · intro s i hs
    rcases (hholds s i).mp hs with ⟨rfl, rfl⟩ | hs
    · simpa [htype] using ht
    · rw [hother hs, htype]; exact h.typed hs
  · intro s i hs
    rcases (hholds s i).mp hs with ⟨rfl, rfl⟩ | hs
    · simpa using hk
    · rw [hother hs]; exact h.attached hs
  · intro s i hm
    rcases (hholds s i).mp hm with ⟨rfl, rfl⟩ | hm
    · simpa using hs
    · rw [hother hm]; exact h.tracked hm
  · intro key s
    rw [hindex, Table.get?_put]
    by_cases hkey : key = e.keyText
    · subst hkey
      simp only [if_true, Option.some.injEq]
      constructor
      · rintro rfl
        exact ⟨id, (hholds _ _).mpr (Or.inl ⟨rfl, rfl⟩), by simp⟩
      · rintro ⟨i, hm, hkt⟩
        rcases (hholds s i).mp hm with ⟨rfl, rfl⟩ | hm
        · rfl
        · rw [hother hm] at hkt
          exact absurd hkt (h.ne_of_unindexed hi hm)
    · rw [if_neg hkey, h.index_iff]
      constructor
      · rintro ⟨i, hm, hkt⟩
        exact ⟨i, (hholds _ _).mpr (Or.inr hm), by rw [hother hm]; exact hkt⟩
      · rintro ⟨i, hm, hkt⟩
        rcases (hholds s i).mp hm with ⟨rfl, rfl⟩ | hm
        · exact absurd (by simpa using hkt.symm) hkey
        · exact ⟨i, hm, by rwa [hother hm] at hkt⟩
  · rw [hindex]
    exact Table.nodup_put h.names_nodup _ _

end Place

section Vacate

theorem holds_vacate (g : Group) (key : String) (slot s : Nat) (i : InstanceId) :
    (g.vacate key slot).Holds s i ↔ s ≠ slot ∧ g.Holds s i := by
  by_cases hs : s = slot
  · subst hs
    simp only [Holds, vacate, ne_eq, not_true_eq_false, false_and, iff_false]
    rw [List.getElem?_set_self']
    cases g.slots[s]? <;> simp
  · simp [Holds, vacate, List.getElem?_set_ne (Ne.symm hs), hs]

/-- The entity leaves with its index entry, and its slot is free from then on. -/
theorem Sound.vacate (h : g.Sound is) {slot : Nat} {id : InstanceId} (hs : g.Holds slot id)
    (e : Entity) : (g.vacate (is.entity id).keyText slot).Sound (is.put id e) := by
  have hlt : slot < g.slots.length := (List.getElem?_eq_some_iff.mp hs).1
  have hother : ∀ {s i}, s ≠ slot → g.Holds s i → (is.put id e).entity i = is.entity i := by
    intro s i hne hi
    have : i ≠ id := by rintro rfl; exact hne (h.slot_unique hi hs)
    simp [this]
  refine ⟨?_, ?_, ?_, ?_, Table.nodup_erase h.names_nodup _, ?_, ?_⟩
  · intro s i hi
    obtain ⟨hne, hi⟩ := (holds_vacate ..).mp hi
    rw [hother hne hi]; exact h.typed hi
  · intro s i hi
    obtain ⟨hne, hi⟩ := (holds_vacate ..).mp hi
    rw [hother hne hi]; exact h.attached hi
  · intro s i hi
    obtain ⟨hne, hi⟩ := (holds_vacate ..).mp hi
    rw [hother hne hi]; exact h.tracked hi
  · intro key s
    have hindex : (g.vacate (is.entity id).keyText slot).index =
      Table.erase (is.entity id).keyText g.index := rfl
    rw [hindex, Table.get?_erase]
    constructor
    · intro hk
      split at hk
      · cases hk
      · rename_i hkey
        obtain ⟨i, hi, hkt⟩ := (h.index_iff _ _).mp hk
        have hne : s ≠ slot := by
          rintro rfl
          exact hkey (by rw [← hkt, hi.unique hs])
        exact ⟨i, (holds_vacate ..).mpr ⟨hne, hi⟩, by rw [hother hne hi]; exact hkt⟩
    · rintro ⟨i, hi, hkt⟩
      obtain ⟨hne, hi⟩ := (holds_vacate ..).mp hi
      rw [hother hne hi] at hkt
      have hkey : key ≠ (is.entity id).keyText := by
        intro hk
        have hsame := h.indexed hi
        rw [hkt, hk, h.indexed hs] at hsame
        exact hne (Option.some.inj hsame).symm
      rw [if_neg hkey, ← hkt]
      exact h.indexed hi
  · intro s
    by_cases hs' : s = slot
    · subst hs'; simp [Group.vacate, hlt]
    · simpa [Group.vacate, hs', List.getElem?_set_ne (Ne.symm hs')] using h.free_iff s
  · refine List.nodup_cons.mpr ⟨fun hm => ?_, h.free_nodup⟩
    have := (h.free_iff slot).mp hm
    rw [hs] at this
    cases this

end Vacate

section Moves

theorem index_applyMoves (g : Group) {ms : List Move} (hnd : (ms.map Move.target).Nodup)
    (key : String) : (∃ m ∈ ms, m.target = key ∧
        (g.applyMoves ms).index.get? key = some m.slot) ∨
      key ∉ ms.map Move.target ∧ (g.applyMoves ms).index.get? key =
        if key ∈ ms.map Move.source then none else g.index.get? key := by
  by_cases hk : key ∈ ms.map Move.target
  · obtain ⟨m, hm, rfl⟩ := List.mem_map.mp hk
    exact Or.inl ⟨m, hm, rfl, Table.get?_foldl_put_of_mem Move.target Move.slot _ hnd hm⟩
  · refine Or.inr ⟨hk, ?_⟩
    rw [← Table.get?_foldl_erase Move.source ms g.index key]
    exact Table.get?_foldl_put_of_not_mem Move.target Move.slot ms _ hk

/-- Index entries that may move at the same time: the targets differ, and each is free or
is given up by another move. The entities that move take their targets as keys. -/
structure Moved (g : Group) (is is' : Instances) (ms : List Move) : Prop where
  held : ∀ m ∈ ms, g.Holds m.slot m.id ∧ m.source = (is.entity m.id).keyText
  distinct : (ms.map Move.target).Nodup
  free : ∀ m ∈ ms, g.index.get? m.target = none ∨ m.target ∈ ms.map Move.source
  typed : ∀ {slot id}, g.Holds slot id → (is'.entity id).type = g.type
  tracked : ∀ {slot id}, g.Holds slot id → (is'.entity id).state ≠ .detached
  rekeyed : ∀ m ∈ ms, (is'.entity m.id).keyText = m.target ∧
    (is'.entity m.id).groupKey = some m.target
  stay : ∀ {slot id}, g.Holds slot id → id ∉ ms.map Move.id →
    (is.entity id).Continues (is'.entity id)

namespace Moved

variable {ms : List Move}

theorem keyText (hm : Moved g is is' ms) (h : g.Sound is) {slot : Nat} {id : InstanceId}
    (hs : g.Holds slot id) (hid : id ∉ ms.map Move.id) :
    (is'.entity id).keyText = (is.entity id).keyText :=
  (hm.stay hs hid).keyText (h.isAttached hs)

theorem mover (hm : Moved g is is' ms) (h : g.Sound is) {slot : Nat} {id : InstanceId}
    (hs : g.Holds slot id) (hk : (is.entity id).keyText ∈ ms.map Move.source) :
    id ∈ ms.map Move.id := by
  obtain ⟨m, hmem, hsource⟩ := List.mem_map.mp hk
  obtain ⟨hheld, hmk⟩ := hm.held m hmem
  have hslot := h.indexed hheld
  rw [← hmk, hsource, h.indexed hs] at hslot
  cases hslot
  exact List.mem_map.mpr ⟨m, hmem, hheld.unique hs⟩

/-- A target belongs to the entity that moves there and to nobody else. -/
theorem target_iff (hm : Moved g is is' ms) (h : g.Sound is) {m : Move} (hmem : m ∈ ms)
    (slot : Nat) : (∃ id, g.Holds slot id ∧ (is'.entity id).keyText = m.target) ↔
      m.slot = slot := by
  obtain ⟨hheld, -⟩ := hm.held m hmem
  constructor
  · rintro ⟨id, hs, hk⟩
    by_cases hid : id ∈ ms.map Move.id
    · obtain ⟨n, hn, rfl⟩ := List.mem_map.mp hid
      rw [(hm.rekeyed n hn).1] at hk
      obtain rfl := List.inj_on_of_nodup_map hm.distinct hn hmem hk
      exact h.slot_unique hheld hs
    · rw [hm.keyText h hs hid] at hk
      rcases hm.free m hmem with hfree | hgiven
      · exact absurd hk (h.ne_of_unindexed hfree hs)
      · exact absurd (hm.mover h hs (hk ▸ hgiven)) hid
  · rintro rfl
    exact ⟨m.id, hheld, (hm.rekeyed m hmem).1⟩

/-- A key that is no target belongs to whom it belonged to, if that one has not moved. -/
theorem other_iff (hm : Moved g is is' ms) (h : g.Sound is) {key : String}
    (hkey : key ∉ ms.map Move.target) (slot : Nat) :
    (∃ id, g.Holds slot id ∧ (is'.entity id).keyText = key) ↔
      (if key ∈ ms.map Move.source then none else g.index.get? key) = some slot := by
  constructor
  · rintro ⟨id, hs, hk⟩
    have hid : id ∉ ms.map Move.id := by
      intro hid
      obtain ⟨m, hmem, rfl⟩ := List.mem_map.mp hid
      rw [(hm.rekeyed m hmem).1] at hk
      exact hkey (List.mem_map.mpr ⟨m, hmem, hk⟩)
    rw [hm.keyText h hs hid] at hk
    have hsource : key ∉ ms.map Move.source := fun hsource => hid (hm.mover h hs (hk ▸ hsource))
    rw [if_neg hsource, ← hk]
    exact h.indexed hs
  · intro hget
    split at hget
    · cases hget
    · rename_i hsource
      obtain ⟨id, hs, hk⟩ := (h.index_iff _ _).mp hget
      have hid : id ∉ ms.map Move.id := by
        intro hid
        obtain ⟨m, hmem, rfl⟩ := List.mem_map.mp hid
        exact hsource (List.mem_map.mpr ⟨m, hmem, (hm.held m hmem).2.trans hk⟩)
      exact ⟨id, hs, (hm.keyText h hs hid).trans hk⟩

end Moved

theorem Sound.moved (h : g.Sound is) {ms : List Move} (hm : Moved g is is' ms) :
    (g.applyMoves ms).Sound is' := by
  have hholds : ∀ s i, (g.applyMoves ms).Holds s i ↔ g.Holds s i := fun _ _ => Iff.rfl
  refine ⟨hm.typed, ?_, hm.tracked, ?_, ?_, h.free_iff, h.free_nodup⟩
  · intro s i hi
    by_cases hid : i ∈ ms.map Move.id
    · obtain ⟨m, hmem, rfl⟩ := List.mem_map.mp hid
      rw [(hm.rekeyed m hmem).1, (hm.rekeyed m hmem).2]
    · rw [hm.keyText h hi hid, (hm.stay hi hid).groupKey, h.attached hi]
  · intro key s
    simp only [hholds]
    rcases index_applyMoves g hm.distinct key with ⟨m, hmem, rfl, hget⟩ | ⟨hkey, hget⟩
    · rw [hget, hm.target_iff h hmem, Option.some.injEq]
    · rw [hget, hm.other_iff h hkey]
  · exact Table.nodup_foldl_put _ _ _ (Table.nodup_foldl_erase _ _ h.names_nodup)

end Moves

section Live

def live (g : Group) : List (Nat × InstanceId) :=
  g.slots.zipIdx.filterMap fun (occupant, slot) => occupant.map (slot, ·)

theorem mem_live {slot : Nat} {id : InstanceId} : (slot, id) ∈ g.live ↔ g.Holds slot id := by
  simp only [live, Holds, List.mem_filterMap, Prod.exists, List.mem_zipIdx_iff_getElem?,
    Option.map_eq_some_iff, Prod.mk.injEq]
  constructor
  · rintro ⟨_, _, h, _, rfl, rfl, rfl⟩; exact h
  · exact fun h => ⟨_, _, h, id, rfl, rfl, rfl⟩

theorem nodup_live_slots (g : Group) : (g.live.map Prod.fst).Nodup := by
  have hz : (g.slots.zipIdx.map Prod.snd).Nodup := by
    rw [List.zipIdx_map_snd]
    exact List.nodup_range'
  rw [List.Nodup, List.pairwise_map] at hz ⊢
  refine hz.filterMap _ fun a b hab => ?_
  rintro x hx y hy
  obtain ⟨_, _, rfl⟩ := Option.map_eq_some_iff.mp hx
  obtain ⟨_, _, rfl⟩ := Option.map_eq_some_iff.mp hy
  exact hab

theorem Sound.nodup_live_ids (h : g.Sound is) : (g.live.map Prod.snd).Nodup := by
  refine List.Nodup.map_on ?_ (List.Nodup.of_map _ (nodup_live_slots g))
  rintro ⟨s, i⟩ hs ⟨t, j⟩ ht rfl
  rw [h.slot_unique (mem_live.mp hs) (mem_live.mp ht)]

end Live

section Count

theorem members_eq (g : Group) : g.members = g.live.map Prod.snd := by
  have hz : g.slots = g.slots.zipIdx.map Prod.fst := by rw [List.zipIdx_map_fst]
  rw [live, members, List.map_filterMap]
  conv_lhs => rw [hz, List.filterMap_map]
  refine List.filterMap_congr fun x _ => ?_
  obtain ⟨_ | id, slot⟩ := x <;> rfl

theorem Sound.size_eq (h : g.Sound is) : g.size = g.members.length := by
  have hslots : (g.index.map Prod.snd).Nodup := by
    refine List.Nodup.map_on ?_ (List.Nodup.of_map _ h.names_nodup)
    rintro ⟨key, slot⟩ hk ⟨other, _⟩ ho rfl
    obtain ⟨id, hid, rfl⟩ := (h.index_iff _ _).mp (Table.get?_of_mem h.names_nodup hk)
    obtain ⟨id', hid', rfl⟩ := (h.index_iff _ _).mp (Table.get?_of_mem h.names_nodup ho)
    rw [hid.unique hid']
  have hperm : (g.index.map Prod.snd).Perm (g.live.map Prod.fst) := by
    refine (List.perm_ext_iff_of_nodup hslots (nodup_live_slots g)).mpr fun slot => ?_
    simp only [List.mem_map, Prod.exists, exists_eq_right]
    constructor
    · rintro ⟨key, hk⟩
      obtain ⟨id, hid, -⟩ := (h.index_iff _ _).mp (Table.get?_of_mem h.names_nodup hk)
      exact ⟨slot, id, mem_live.mpr hid, rfl⟩
    · rintro ⟨_, id, hid, rfl⟩
      exact ⟨_, Table.mem_of_get? (h.indexed (mem_live.mp hid))⟩
  simpa [size, members_eq] using hperm.length_eq

theorem Sound.verifyEntries_ok (h : g.Sound is) {entries : Table Nat}
    (hs : ∀ e ∈ entries, e ∈ g.index) : g.verifyEntries is entries = .ok () := by
  induction entries with
  | nil => rfl
  | cons e rest ih =>
    obtain ⟨key, slot⟩ := e
    have hk := Table.get?_of_mem h.names_nodup (hs _ List.mem_cons_self)
    obtain ⟨id, ho, -, rfl⟩ := h.occupant hk
    have hrest := ih fun e he => hs e (List.mem_cons_of_mem _ he)
    simp [verifyEntries, ho, Entity.key_eq, Entity.keyText, hrest, bind, Except.bind]

theorem Sound.verifyIndex_ok (h : g.Sound is) : g.verifyIndex is = .ok () := by
  have hsize : g.members.length = g.index.length := h.size_eq.symm
  rw [verifyIndex, if_neg (not_not.mpr hsize)]
  exact h.verifyEntries_ok fun _ => id

theorem Sound.full (h : g.Sound is) (hf : g.free = []) : g.members.length = g.slots.length := by
  refine List.filterMap_length_eq_length.mpr fun o ho => ?_
  obtain ⟨slot, hslot⟩ := List.mem_iff_getElem?.mp ho
  cases o with
  | some id => rfl
  | none =>
    have := (h.free_iff slot).mpr hslot
    simp [hf] at this

end Count

end Group

end EntityCache
