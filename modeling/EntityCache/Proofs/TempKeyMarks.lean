import EntityCache.Proofs.Attaching
import EntityCache.Proofs.KeyAssignments
import EntityCache.Proofs.KeyWrites
import EntityCache.Proofs.SavedChanges
import EntityCache.Proofs.TempKeyDraws

/-! Marks of temporary keys. An entity that is given a temporary key is marked, and the
generator remembers the key. The two agree on all that is cached, except after two things:
an entity that left the cache with a temporary key, which the generator forgot, comes back
under it, or a cascade rewrites a temporary key. -/
namespace EntityCache

open Cache EntityCache.Action

section Texts

def Entity.keyMark (e : Entity) : String × String := (e.type.name, e.keyText)

theorem TempKeys.isIssued_keyValue {e : Entity} {p : DataProperty}
    (hp : e.type.keyProperties = [p]) (keys : TempKeys) :
    keys.isIssued e.type.name (e.keyValue p) ↔ e.keyMark ∈ keys.issued := by
  rw [isIssued, List.contains_iff_mem, Entity.keyMark, Entity.keyText_single hp]

theorem TempKeys.mem_issued_without (keys : TempKeys) (e : Entity) (x : String × String) :
    x ∈ (keys.without e).issued ↔ x ∈ keys.issued ∧
      (e.hasTempKey → ∀ v ∈ e.ownKey.values, x ≠ (e.type.name, v.keyText)) := by
  have hfold : ∀ (vs : List Value) (keys : TempKeys),
      x ∈ (vs.foldl (fun keys v => keys.release e.type.name v) keys).issued ↔
        x ∈ keys.issued ∧ ∀ v ∈ vs, x ≠ (e.type.name, v.keyText) := by
    intro vs
    induction vs with
    | nil => simp
    | cons v vs ih =>
      intro keys
      rw [List.foldl_cons, ih, mem_issued_release]
      simp [and_assoc]
  unfold without
  split
  · rename_i h
    simpa [h] using hfold e.ownKey.values keys
  · rename_i h
    simp [h]

end Texts

namespace Cache

variable {catalog : Catalog} {supply : Supply} {n m : Nat} {c c' : Cache} {id other : InstanceId}

/-- Cached under a key of one part that is marked as temporary. -/
def Marked (c : Cache) (id : InstanceId) : Prop :=
  c.IsCached id ∧ (c.entity id).hasTempKey ∧ ∃ p, (c.entity id).type.keyProperties = [p]

/-- An entity whose key of one part is marked comes in under it, as nobody has that key and none
is drawn for it; or it is cached and another key is drawn for it. -/
def Readmits (c : Cache) (id : InstanceId) (state : EntityState) : Prop :=
  (c.entity id).hasTempKey ∧ (∃ p, (c.entity id).type.keyProperties = [p]) ∧
    (¬ c.IsCached id ∧ (∀ p v, ¬ Draws c id state p v) ∧
        Presents c id state (c.entity id).keyText ∧
        c.slot? (c.entity id).type.name (c.entity id).keyText = none ∨
      c.IsCached id ∧ ∃ p v, Draws c id state p v)

/-- Cached entities with a key of one part are marked exactly if the key is an issued one. -/
def KeysAgree (c : Cache) : Prop := ∀ id p, c.IsCached id →
  (c.entity id).type.keyProperties = [p] →
  ((c.entity id).hasTempKey ↔ c.keys.isIssued (c.entity id).type.name ((c.entity id).keyValue p))

/-- There is no group of this name, and there can be none. -/
def Groupless (c : Cache) (name : String) : Prop :=
  c.groups.get? name = none ∧ ∀ t, c.catalog.type? name = some t → t.isAbstract

theorem Sound.eq_of_keyMark (hc : c.Sound) (hid : c.IsCached id) (ho : c.IsCached other)
    (h : (c.entity id).keyMark = (c.entity other).keyMark) : id = other := by
  obtain ⟨name, slot, hid⟩ := hid
  obtain ⟨name', slot', ho⟩ := ho
  obtain ⟨hname, htext⟩ := Prod.mk.inj h
  obtain rfl : name = name' := by rw [← hc.group_type hid, ← hc.group_type ho, hname]
  exact hc.eq_of_keyText hid ho htext

theorem Sound.not_groupless (hc : c.Sound) (hid : c.IsCached id) :
    ¬ c.Groupless (c.entity id).type.name := by
  rintro ⟨hnone, -⟩
  obtain ⟨name, slot, hs⟩ := hid
  rw [hc.group_type hs] at hnone
  obtain ⟨g, hg, -⟩ := hs
  cases hg.symm.trans hnone

/-- Whoever stays in a group that stays as it is has the same type and key as before. -/
theorem Sound.keyMark_of_groups (hc : c.Sound) (hc' : c'.Sound) (hg : c'.groups = c.groups)
    (hid : c.IsCached id) :
    (c'.entity id).type = (c.entity id).type ∧ (c'.entity id).keyMark = (c.entity id).keyMark := by
  obtain ⟨name, slot, g, hget, hs⟩ := hid
  have hget' : c'.groups.get? name = some g := hg ▸ hget
  have htype : (c'.entity id).type = (c.entity id).type :=
    ((hc'.groups hget').typed hs).trans ((hc.groups hget).typed hs).symm
  obtain ⟨i, hi, hk⟩ := ((hc'.groups hget').index_iff _ _).mp ((hc.groups hget).indexed hs)
  obtain rfl := hs.unique hi
  exact ⟨htype, Prod.ext (congrArg EntityType.name htype) hk⟩

theorem Opens.groupless {t : EntityType} (h : Opens t c c')
    (ht : c.catalog.type? t.name = some t) {name : String} (hnone : c.Groupless name) :
    c'.Groupless name := by
  cases h with
  | there => exact hnone
  | opened _ hg =>
    refine ⟨?_, hnone.2⟩
    rw [get?_putGroup, if_neg, hnone.1]
    rintro rfl
    have habstract := hnone.2 t ht
    simp [Group.new, habstract] at hg

/-- What is remembered of temporary keys fits what is cached: who is marked has a key that is
remembered, and what is remembered was drawn for a type with a key of one part and is the key
of someone who is marked. Only for a type that can have no group may a key be remembered that
nobody has. -/
structure Marking (catalog : Catalog) (supply : Supply) (n : Nat) (c : Cache) : Prop where
  sound : c.SoundIn catalog
  drawn : c.keys.Drawn supply n
  marked : ∀ {id}, c.Marked id → (c.entity id).keyMark ∈ c.keys.issued
  issued : ∀ {x}, x ∈ c.keys.issued → ∃ t p, catalog.type? x.1 = some t ∧
    t.keyProperties = [p] ∧ c.keys.Spent p.dataType x.2
  owned : ∀ {x}, x ∈ c.keys.issued →
    (∃ id, c.Marked id ∧ (c.entity id).keyMark = x) ∨ c.Groupless x.1

namespace Marking

theorem mono (h : c.Marking catalog supply m) (hmn : m ≤ n) : c.Marking catalog supply n :=
  ⟨h.sound, h.drawn.mono hmn, h.marked, h.issued, h.owned⟩

theorem keysAgree (h : c.Marking catalog supply n) : c.KeysAgree := by
  intro id p hid hp
  rw [TempKeys.isIssued_keyValue hp]
  constructor
  · exact fun hm => h.marked ⟨hid, hm, p, hp⟩
  · intro hmem
    rcases h.owned hmem with ⟨owner, howner, heq⟩ | hnone
    · obtain rfl := h.sound.sound.eq_of_keyMark howner.1 hid heq
      exact howner.2.1
    · exact absurd hnone (h.sound.sound.not_groupless hid)

theorem not_issued (h : c.Marking catalog supply n) {t : EntityType} {p : DataProperty}
    {name text : String} (ht : catalog.type? name = some t) (hp : t.keyProperties = [p])
    (hfresh : ¬ c.keys.Spent p.dataType text) : (name, text) ∉ c.keys.issued := by
  intro hmem
  obtain ⟨u, q, hu, hq, hspent⟩ := h.issued hmem
  obtain rfl : t = u := Option.some.inj (ht.symm.trans hu)
  obtain rfl : p = q := List.singleton_inj.mp (hp.symm.trans hq)
  exact hfresh hspent

/-- Of the keys that are remembered, exactly the one of a cached entity is released with it. -/
theorem released_iff (h : c.Marking catalog supply n) (hid : c.IsCached id) {x : String × String}
    (hx : x ∈ c.keys.issued) :
    ((c.entity id).hasTempKey → ∀ v ∈ (c.entity id).ownKey.values,
      x ≠ ((c.entity id).type.name, v.keyText)) ↔ x ≠ (c.entity id).keyMark := by
  obtain ⟨t, p, ht, hp, -⟩ := h.issued hx
  have hsame : ∀ name, c.catalog.type? name = some (c.entity id).type → x.1 = name →
      (c.entity id).type = t := fun name htype hname =>
    Option.some.inj ((h.sound.catalog ▸ htype).symm.trans (hname ▸ ht))
  have htype : c.catalog.type? (c.entity id).type.name = some (c.entity id).type := by
    obtain ⟨name, slot, hs⟩ := hid
    rw [h.sound.sound.group_type hs]
    exact h.sound.sound.type_of_holds hs
  have hvalues : x.1 = (c.entity id).type.name →
      (c.entity id).ownKey.values = [(c.entity id).keyValue p] ∧
        (c.entity id).keyText = ((c.entity id).keyValue p).keyText := by
    intro hname
    have hsingle : (c.entity id).type.keyProperties = [p] := by rw [hsame _ htype hname, hp]
    exact ⟨by rw [Entity.ownKey, hsingle, List.map_singleton], Entity.keyText_single hsingle⟩
  constructor
  · rintro hne rfl
    have hmarked : (c.entity id).hasTempKey := by
      rcases h.owned hx with ⟨owner, howner, heq⟩ | hnone
      · obtain rfl := h.sound.sound.eq_of_keyMark howner.1 hid heq
        exact howner.2.1
      · exact absurd hnone (h.sound.sound.not_groupless hid)
    obtain ⟨hv, htext⟩ := hvalues rfl
    refine hne hmarked _ (by rw [hv]; exact List.mem_singleton_self _) ?_
    rw [Entity.keyMark, htext]
  · rintro hne - v hv rfl
    obtain ⟨hv', htext⟩ := hvalues rfl
    rw [hv', List.mem_singleton] at hv
    exact hne (by rw [Entity.keyMark, htext, hv])

/-- Marks and issued keys stay in step where the same entities are marked by the same keys. -/
theorem of_marks (h : c.Marking catalog supply m) (hs : c'.SoundIn catalog)
    (hd : c'.keys.Drawn supply n)
    (hspent : ∀ {d text}, c.keys.Spent d text → c'.keys.Spent d text)
    (hissued : ∀ x, x ∈ c'.keys.issued ↔ x ∈ c.keys.issued)
    (hm : ∀ id, c'.Marked id ↔ c.Marked id)
    (hk : ∀ {id}, c.Marked id → (c'.entity id).keyMark = (c.entity id).keyMark)
    (hnone : ∀ {name}, c.Groupless name → c'.Groupless name) : c'.Marking catalog supply n where
  sound := hs
  drawn := hd
  marked {id} hid := by
    have hid := (hm id).mp hid
    rw [hk hid, hissued]
    exact h.marked hid
  issued hx := by
    obtain ⟨t, p, ht, hp, hx⟩ := h.issued ((hissued _).mp hx)
    exact ⟨t, p, ht, hp, hspent hx⟩
  owned hx := by
    rcases h.owned ((hissued _).mp hx) with ⟨id, hid, rfl⟩ | hgroupless
    · exact Or.inl ⟨id, (hm id).mpr hid, hk hid⟩
    · exact Or.inr (hnone hgroupless)

/-- Edits of entities in their slots do not matter, as long as they mark and unmark nobody. -/
theorem edited (h : c.Marking catalog supply n) (hs : c'.SoundIn catalog)
    (hg : c'.groups = c.groups) (hkeys : c'.keys = c.keys)
    (hm : ∀ id, c.IsCached id → (c'.entity id).hasTempKey = (c.entity id).hasTempKey) :
    c'.Marking catalog supply n := by
  have hcat : c'.catalog = c.catalog := hs.catalog.trans h.sound.catalog.symm
  have hcached : ∀ id, c'.IsCached id ↔ c.IsCached id := fun id => by
    simp only [IsCached, Holds, hg]
  have hmark : ∀ {id}, c.IsCached id → (c'.entity id).type = (c.entity id).type ∧
      (c'.entity id).keyMark = (c.entity id).keyMark := fun hid =>
    h.sound.sound.keyMark_of_groups hs.sound hg hid
  refine h.of_marks hs (by rw [hkeys]; exact h.drawn) (by rw [hkeys]; exact id)
    (by simp [hkeys]) (fun id => ?_) (fun hid => (hmark hid.1).2)
    fun hnone => ⟨hg ▸ hnone.1, fun t ht => hnone.2 t (hcat ▸ ht)⟩
  rw [Marked, Marked, hcached]
  refine and_congr_right fun hid => ?_
  rw [hm id hid, (hmark hid).1]

/-- One who has been marked is marked no longer, or is gone, and the generator has forgotten
its key. -/
theorem forgets (h : c.Marking catalog supply n) (hs : c'.SoundIn catalog)
    (hid : c.IsCached id) (hkeys : ∃ issued, c'.keys = { c.keys with issued })
    (hissued : ∀ x, x ∈ c'.keys.issued ↔ x ∈ c.keys.issued ∧ x ≠ (c.entity id).keyMark)
    (hm : ∀ other, c'.Marked other ↔ c.Marked other ∧ other ≠ id)
    (hk : ∀ {other}, other ≠ id → c.Marked other →
      (c'.entity other).keyMark = (c.entity other).keyMark)
    (hnone : ∀ {name}, c.Groupless name → c'.Groupless name) : c'.Marking catalog supply n := by
  obtain ⟨issued, hkeys⟩ := hkeys
  refine ⟨hs, by rw [hkeys]; exact h.drawn.of_issued issued, fun {other} ho => ?_,
    fun {x} hx => ?_, fun {x} hx => ?_⟩
  · obtain ⟨hmarked, hne⟩ := (hm other).mp ho
    rw [hk hne hmarked, hissued]
    exact ⟨h.marked hmarked, fun heq => hne (h.sound.sound.eq_of_keyMark hmarked.1 hid heq)⟩
  · obtain ⟨t, p, ht, hp, hspent⟩ := h.issued ((hissued x).mp hx).1
    refine ⟨t, p, ht, hp, ?_⟩
    rw [hkeys]
    exact (TempKeys.spent_issued c.keys issued _ _).mpr hspent
  · obtain ⟨hmem, hne⟩ := (hissued x).mp hx
    rcases h.owned hmem with ⟨owner, howner, rfl⟩ | hgroupless
    · have ho : owner ≠ id := fun heq => hne (by rw [heq])
      exact Or.inl ⟨owner, (hm owner).mpr ⟨howner, ho⟩, hk ho howner⟩
    · exact Or.inr (hnone hgroupless)

end Marking

end Cache

namespace Action

variable {catalog : Catalog} {supply : Supply} {n m : Nat} {c c' : Cache} {id other : InstanceId}

section Detach

/-- Whoever leaves takes the only key with it that the generator forgets. -/
theorem detach_marking (id : InstanceId) :
    (detach id).Keeps (Marking catalog supply n) Grows := by
  intro c hc
  obtain ⟨hs, hgrows⟩ := detach_keeps id c hc.sound
  rcases detach_leaves id c with ⟨fault, h⟩ | ⟨c', h, hleft⟩
  · exact .of_unmoved h hc
  · rw [h] at hs hgrows
    refine .of_on h ?_ hgrows
    have hgone : ¬ c'.IsCached id := by
      rintro ⟨name, slot, hin⟩
      exact hs.sound.indexed.tracked hin (by rw [hleft.entity]; rfl)
    refine hc.forgets hs hleft.cached (by rw [hleft.keys]; exact TempKeys.without_eq _ _)
      (fun x => ?_) (fun other => ?_) (fun ho _ => congrArg Entity.keyMark (hleft.others ho))
      fun hnone => ⟨hleft.noGroup hnone.1, fun t ht => hnone.2 t ?_⟩
    · rw [hleft.keys, TempKeys.mem_issued_without]
      exact and_congr_right fun hx => hc.released_iff hleft.cached hx
    · by_cases ho : other = id
      · subst ho
        exact ⟨fun hm => absurd hm.1 hgone, fun hm => absurd rfl hm.2⟩
      · rw [Marked, Marked, hleft.isCached_iff ho, hleft.others ho]
        simp [ho]
    · rwa [hc.sound.catalog, ← hs.catalog]

end Detach

section Edits

def KeepsMark (f : Entity → Except Fault Entity) : Prop :=
  ∀ e e', f e = .ok e' → e'.hasTempKey = e.hasTempKey

theorem change_marking (hc : c.Marking catalog supply n)
    {f : Entity → Except Fault Entity} (hf : KeepsMark f)
    (hs : (change id f).KeepsAt (SoundIn catalog) Grows c) :
    (change id f).KeepsAt (Marking catalog supply n) Grows c := by
  refine ⟨?_, hs.related⟩
  have hsound := hs.holds
  rw [on_change] at hsound ⊢
  cases he : f (c.entity id) with
  | error fault => exact hc
  | ok e =>
    rw [he] at hsound
    refine hc.edited hsound rfl rfl fun other _ => ?_
    by_cases ho : other = id
    · subst ho
      simpa [entity] using hf _ _ he
    · simp [entity, ho]

theorem keepsMark_set (name : String) (v : Value) : KeepsMark (·.set name v) := by
  intro e e' he
  have hrecorded : ∀ (w : Entity) (old : Value),
      (w.recordEdit name old).hasTempKey = w.hasTempKey := by
    intro w old
    unfold Entity.recordEdit
    split <;> rfl
  obtain ⟨p, -, -, -, rfl⟩ := Entity.set_eq_ok_iff.mp he
  split
  · rfl
  · exact hrecorded _ _

theorem keepsMark_moveTo (next : EntityState) : KeepsMark (·.moveTo next) := by
  intro e e' he
  simp only [Entity.moveTo] at he
  split at he <;> cases he
  rfl

theorem keepsMark_markUnchanged : KeepsMark Entity.markUnchanged := by
  intro e e' he
  obtain ⟨u, hm, rfl⟩ := map_ok he
  exact keepsMark_moveTo _ e u hm

theorem keepsMark_markDeleted : KeepsMark Entity.markDeleted := by
  intro e e' he
  unfold Entity.markDeleted at he
  split at he
  · cases he
    rfl
  · cases he
  · exact keepsMark_moveTo _ e e' he

theorem addInstance_marking {e : Entity} (ht : catalog.type? e.type.name = some e.type)
    (he : e.Complete) : (addInstance e).Keeps (Marking catalog supply n) Grows := by
  intro c hc
  obtain ⟨hs, hgrows⟩ := addInstance_keeps ht he c hc.sound
  rw [on_addInstance] at hs hgrows
  refine .of_on (on_addInstance e c) (hc.edited hs rfl rfl fun other ho => ?_) hgrows
  obtain ⟨name, slot, hslot⟩ := ho
  have hlt := hc.sound.sound.given hslot
  simp [entity, Instances.add, Nat.ne_of_lt hlt]

theorem create_marking (typeName : String) :
    (create typeName).Keeps (Marking catalog supply n) Grows := by
  refine create_keepsAll (fun c v hc => ⟨?_, by simp [Grows]⟩) fun _ t hc ht =>
    addInstance_marking (hc.sound.catalog ▸ Catalog.type?_of_find ht) (Entity.complete_new t)
  exact hc.edited ⟨hc.sound.sound.frozen v, hc.sound.catalog⟩ rfl rfl (by simp [entity])

/-- An empty cache has nothing to track, whatever is marked outside. -/
theorem clear_marking : clear.Keeps (Marking catalog supply n) Grows := by
  intro c hc
  obtain ⟨hs, hgrows⟩ := clear_keeps c hc.sound
  have hempty : ∀ id, ¬ (clear.on c).2.IsCached id := by
    rintro id ⟨name, slot, g, hg, -⟩
    cases hg
  refine ⟨⟨hs, ?_, fun hm => absurd hm.1 (hempty _), fun hx => ?_, fun hx => ?_⟩, hgrows⟩
  · have hsupply : c.keys.supply = supply := hc.drawn.supply
    rw [← hsupply]
    exact TempKeys.drawn_start _ hc.drawn.drawn
  · cases hx
  · cases hx

end Edits

section Attach

variable {state : EntityState} {strategy : MergeStrategy} {out : Except Fault InstanceId × Cache}

/-- Who else is marked stays marked by the same key. -/
theorem Ended.marked_iff (h : Ended c id state strategy out) (hc : c.Sound) (hc' : out.2.Sound)
    (ho : other ≠ id) : (out.2.Marked other ↔ c.Marked other) ∧
      (c.IsCached other → (out.2.entity other).keyMark = (c.entity other).keyMark) := by
  obtain ⟨htype, hmark, hgroup⟩ := h.others ho
  refine ⟨?_, ?_⟩
  · rw [Marked, Marked, h.isCached_iff hc.formed.allotted ho, htype, hmark]
  · rintro ⟨name, slot, hs⟩
    have htext := hc.keyText_of_indexed hc'.indexed hs ((h.holds hc.formed.allotted).1 hs) hgroup
    exact Prod.ext (congrArg EntityType.name htype) htext

theorem Ended.groupless (h : Ended c id state strategy out)
    (ht : c.catalog.type? (c.entity id).type.name = some (c.entity id).type) {name : String}
    (hnone : c.Groupless name) : out.2.Groupless name := by
  have hprepared : ∀ {temp c₁}, Prepared c id state temp c₁ → c₁.Groupless name := fun hp =>
    ⟨by rw [hp.groups]; exact hnone.1, by rw [hp.catalog]; exact hnone.2⟩
  have hopened : ∀ {temp c₁ c₂}, Prepared c id state temp c₁ → Opens (c.entity id).type c₁ c₂ →
      c₂.Groupless name := fun hp hopens =>
    hopens.groupless (by rw [hp.catalog]; exact ht) (hprepared hp)
  cases h with
  | refused hopens => exact hopens.groupless ht hnone
  | stranded hp => exact hprepared hp
  | withdrawn hp _ hopens => exact ⟨(hopened hp hopens).1, (hopened hp hopens).2⟩
  | @joined temp c₁ c₂ g g' is cached hp hopens hg =>
    obtain ⟨hgroup, habstract⟩ := hopened hp hopens
    refine ⟨?_, habstract⟩
    rw [get?_putGroup, if_neg, hgroup]
    rintro rfl
    cases hg.symm.trans hgroup

theorem keyText_marked {e : Entity} {p : DataProperty} {v : Value}
    (hp : e.type.keyProperties = [p]) (hv : (p.dataType.coerce v).keyText = v.keyText) :
    (Action.marked e p v).keyText = v.keyText := by
  rw [Entity.keyText_single (e := Action.marked e p v) hp, ← hv, Entity.keyValue]
  simp [Action.marked, Entity.get?, Entity.write, Table.get?_put]

/-- Who joins with a key that was drawn for it is marked by that key. -/
theorem marked_of_drawn {p : DataProperty} {v : Value} {keys : TempKeys} {c₂ : Cache}
    {g g' : Group} {is : Instances} {cached : InstanceId} {strategy : MergeStrategy}
    (hc : c.Allotted) (hp : (c.entity id).type.keyProperties = [p])
    (hv : (p.dataType.coerce v).keyText = v.keyText)
    (hopens : Opens (c.entity id).type (withTempKey c id p v keys) c₂)
    (hg : c₂.groups.get? (c.entity id).type.name = some g)
    (ha : g.Attached (withTempKey c id p v keys).instances id .added strategy cached g' is) :
    Marked { c₂ with
      groups := putGroup (c.entity id).type.name g' c₂.groups, instances := is } id ∧
      (is.entity id).keyMark = ((c.entity id).type.name, v.keyText) := by
  obtain ⟨next, groupKey, he⟩ := ha.entity_eq
  rw [entity_given] at he
  have hheld : ∃ slot, g'.Holds slot id := by
    cases ha with
    | again hm => exact ⟨_, hm⟩
    | merged _ _ hne => exact absurd rfl hne
    | kept _ _ hne => exact absurd rfl hne
    | placed =>
      have hallotted : (withTempKey c id p v keys).Allotted := hc.of_groups rfl (Nat.le_refl _)
      exact (hallotted.opens hopens _ _ hg).holds_place _ id
  obtain ⟨slot, hm⟩ := hheld
  refine ⟨⟨⟨(c.entity id).type.name, slot, g', by rw [get?_putGroup, if_pos rfl], hm⟩, ?_, p, ?_⟩,
    Prod.ext ?_ ?_⟩
  · rw [entity, he]
    rfl
  · rw [entity, he]
    exact hp
  · exact congrArg (·.type.name) he
  · exact ha.keyText.trans ((congrArg Entity.keyText (entity_given c id p v keys)).trans
      (keyText_marked hp hv))

/-- What an attached entity and the generator come to: no key has been issued in the end, or
a fresh one that the entity is marked by, unless it can have no group. -/
inductive Tallied (c : Cache) (id : InstanceId) (state : EntityState) (c' : Cache) : Prop where
  | kept : (∀ x, x ∈ c'.keys.issued ↔ x ∈ c.keys.issued) →
      (state ≠ .added → (c'.entity id).hasTempKey = (c.entity id).hasTempKey ∧
        (c'.entity id).values = (c.entity id).values) →
      Tallied c id state c'
  | issued {p} {v : Value} : state = .added → (c.entity id).type.keyProperties = [p] →
      ¬ c.keys.Spent p.dataType v.keyText → c'.keys.Spent p.dataType v.keyText →
      (∀ x, x ∈ c'.keys.issued ↔ x ∈ c.keys.issued ∨
        x = ((c.entity id).type.name, v.keyText)) →
      c'.Marked id ∧ (c'.entity id).keyMark = ((c.entity id).type.name, v.keyText) ∨
        ¬ c.IsCached id ∧ ¬ c'.IsCached id ∧ c'.Groupless (c.entity id).type.name →
      Tallied c id state c'

theorem Ended.tallied (h : Ended c id state strategy out) (hc : c.Marking catalog supply n)
    (hid : id < c.instances.count) (hs : supply.Distinct (n + 1)) (hn : n < 2 ^ 53 - 1) :
    out.2.keys.Drawn supply (n + 1) ∧
      (∀ {d text}, c.keys.Spent d text → out.2.keys.Spent d text) ∧ Tallied c id state out.2 := by
  have hd := hc.drawn
  have hknown := hc.sound.sound.known id hid
  have hkept : ∀ {c' : Cache}, c'.keys = c.keys →
      (state ≠ .added → (c'.entity id).hasTempKey = (c.entity id).hasTempKey ∧
        (c'.entity id).values = (c.entity id).values) →
      c'.keys.Drawn supply (n + 1) ∧ (∀ {d text}, c.keys.Spent d text → c'.keys.Spent d text) ∧
        Tallied c id state c' := fun hkeys hmark =>
    ⟨by rw [hkeys]; exact hd.mono (Nat.le_succ n), by rw [hkeys]; exact fun hx => hx,
      .kept (by simp [hkeys]) hmark⟩
  cases h with
  | @refused _ c' hopens =>
    refine hkept hopens.keys fun _ => ?_
    have he : c'.entity id = c.entity id := congrArg (·.entity id) hopens.instances
    exact ⟨congrArg Entity.hasTempKey he, congrArg Entity.values he⟩
  | stranded hp hgroup habstract =>
    cases hp with
    | drawn hadded hsingle _ hg =>
      obtain ⟨hdraws, -, hissued⟩ := hd.generate? hs hn hg
      have huncached : ¬ c.IsCached id := by
        rintro ⟨name, slot, hin⟩
        rw [hc.sound.sound.group_type hin] at hgroup
        obtain ⟨g, hget, -⟩ := hin
        cases hget.symm.trans hgroup
      refine ⟨hdraws.drawn, hdraws.mono, .issued hadded hsingle hdraws.unspent hdraws.spent
        hissued (Or.inr ⟨huncached, huncached, hgroup, fun t ht => ?_⟩)⟩
      obtain rfl := Option.some.inj (hknown.symm.trans ht)
      exact habstract
  | @withdrawn _ _ v released c₁ c₂ hp _ hopens hreleased =>
    cases hp with
    | @drawn p _ keys hadded hsingle _ hg =>
      obtain ⟨hdraws, -⟩ := hd.generate? hs hn hg
      have hkeys : released = keys.release (c.entity id).type.name v := hreleased
      subst hkeys
      have hfresh := hc.not_issued (hc.sound.catalog ▸ hknown) hsingle hdraws.unspent
      exact ⟨hdraws.drawn.of_issued _, fun hx => (TempKeys.spent_issued _ _ _ _).mpr
        (hdraws.mono hx), .kept ((TempKeys.issued_release_generate?_iff hg).mpr hfresh)
          fun hne => absurd hadded hne⟩
  | @joined temp c₁ c₂ g g' is cached hp hopens hg htype hne hcomplete ha =>
    cases hp with
    | keyed =>
      have hkeys : c₂.keys = c.keys := hopens.keys
      obtain ⟨next, groupKey, he⟩ := ha.entity_eq
      refine hkept hkeys fun _ => ?_
      simp [entity, he]
    | @drawn p v keys hadded hsingle _ hgen =>
      obtain ⟨hdraws, htext, hissued⟩ := hd.generate? hs hn hgen
      have hkeys : c₂.keys = keys := hopens.keys
      refine ⟨by rw [hkeys]; exact hdraws.drawn, by rw [hkeys]; exact hdraws.mono,
        .issued hadded hsingle hdraws.unspent (by rw [hkeys]; exact hdraws.spent)
          (by rw [hkeys]; exact hissued) (Or.inl ?_)⟩
      subst hadded
      exact marked_of_drawn hc.sound.sound.formed.allotted hsingle htext hopens hg ha

/-- Whoever has its mark before and after being attached has it for the same key. -/
theorem Tallied.keyMark (h : Tallied c id state c')
    (ht : (c'.entity id).type = (c.entity id).type)
    (hkey : state = .added → c.IsCached id → (c'.entity id).keyText = (c.entity id).keyText)
    (hid : c.IsCached id) : (c'.entity id).keyMark = (c.entity id).keyMark := by
  refine Prod.ext (congrArg EntityType.name ht) ?_
  by_cases hs : state = .added
  · exact hkey hs hid
  · cases h with
    | kept _ hsame =>
      exact Entity.keyText_congr ht fun p _ => by
        rw [Entity.keyValue, Entity.keyValue, Entity.get?, Entity.get?, (hsame hs).2]
    | issued hadded => exact absurd hadded hs

theorem Draws.fresh {p : DataProperty} {v : Value} (h : Draws c id state p v)
    (hc : c.Marking catalog supply n) (hid : id < c.instances.count)
    (hs : supply.Distinct (n + 1)) (hn : n < 2 ^ 53 - 1) :
    Group.partText p v = v.keyText ∧ ((c.entity id).type.name, v.keyText) ∉ c.keys.issued ∧
      ∀ {keys}, c.keys.generate? (c.entity id).type.name p.dataType = some (v, keys) →
        ((c.entity id).type.name, v.keyText) ∈ keys.issued := by
  obtain ⟨keys, hgen⟩ := h.generated
  obtain ⟨hdraws, htext, hissued⟩ := hc.drawn.generate? hs hn hgen
  refine ⟨htext, hc.not_issued (hc.sound.catalog ▸ hc.sound.sound.known id hid) h.single
    hdraws.unspent, fun hgen' => ?_⟩
  cases hgen.symm.trans hgen'
  exact (hissued _).mpr (Or.inr rfl)

theorem Ended.marked_refused_iff {fault : Fault}
    (h : Ended c id state strategy (.error fault, c')) (hc : c.Marking catalog supply n)
    (hid : id < c.instances.count) (hs : supply.Distinct (n + 1)) (hn : n < 2 ^ 53 - 1)
    (hfound : ∃ t, c.catalog.find (c.entity id).type.name = .ok t)
    (hissued : ∀ x, x ∈ c'.keys.issued ↔ x ∈ c.keys.issued) (hr : ¬ c.Readmits id state) :
    c'.Marked id ↔ c.Marked id := by
  cases h with
  | refused hopens =>
    have he : c'.entity id = c.entity id := congrArg (·.entity id) hopens.instances
    simp only [Marked, IsCached, hopens.holds_iff, he]
  | stranded hp =>
    cases hp with
    | drawn hadded hsingle hunset hgen =>
      have hd : Draws c id state _ _ := ⟨hadded, hfound, hsingle, hunset, _, hgen⟩
      obtain ⟨-, hfresh, hmem⟩ := hd.fresh hc hid hs hn
      exact absurd ((hissued _).mp (hmem hgen)) hfresh
  | withdrawn hp =>
    refine iff_of_false (fun hm => ?_) fun hm => hr ⟨hm.2.1, hm.2.2, Or.inr ⟨hm.1, ?_⟩⟩
    · have hmark := hm.2.1
      simp [entity, Action.withdrawn] at hmark
    · cases hp with
      | drawn hadded hsingle hunset hgen =>
        exact ⟨_, _, hadded, hfound, hsingle, hunset, _, hgen⟩

/-- Where the issued keys stay as they are, so do the marks, unless an entity is readmitted. -/
theorem marked_attach_iff (hc : c.Marking catalog supply n) (hid : id < c.instances.count)
    (hs : supply.Distinct (n + 1)) (hn : n < 2 ^ 53 - 1) {strategy : Option MergeStrategy}
    (hissued : ∀ x, x ∈ ((attach id state strategy).on c).2.keys.issued ↔ x ∈ c.keys.issued)
    (hr : ¬ c.Readmits id state) :
    ((attach id state strategy).on c).2.Marked id ↔ c.Marked id := by
  have h := attach_ended c id state strategy
  rcases attach_prepared id state c with ⟨fault, hf⟩ | ⟨-, -, hfound, -, -⟩
  · rw [hf]
  cases hrun : (attach id state strategy).on c with
  | mk r c' =>
    rw [hrun] at h hissued
    dsimp only at hissued ⊢
    cases r with
    | error fault => exact h.marked_refused_iff hc hid hs hn hfound hissued hr
    | ok cached =>
      have hin : ∀ {name slot}, c.Holds name slot id → c'.Holds name slot id :=
        (h.holds hc.sound.sound.formed.allotted).1
      have htype : (c'.entity id).type = (c.entity id).type := h.type_self
      obtain ⟨key, temp, c₁, c₂, g, g', is, hpresents, hasked, ha, hlast⟩ := attach_ok hrun
      rcases Classical.em (∃ p v, Draws c id state p v) with ⟨p, v, hd⟩ | hnone
      · obtain ⟨keys, hgen, -, rfl⟩ := hasked.prepared.of_draws hd
        obtain ⟨-, hfresh, hmem⟩ := hd.fresh hc hid hs hn
        have hkeys : c'.keys = keys := by rw [hlast]; exact hasked.opens.keys
        exact absurd ((hissued _).mp (hkeys ▸ hmem hgen)) hfresh
      · have hnot : ∀ p v, ¬ Draws c id state p v := fun p v hd => hnone ⟨p, v, hd⟩
        obtain ⟨rfl, rfl⟩ := hasked.prepared.of_not_draws hfound hnot
        have hmark : (c'.entity id).hasTempKey = (c₁.entity id).hasTempKey := by
          obtain ⟨next, groupKey, he⟩ := ha.entity_eq
          rw [hlast, entity, he]
          rfl
        have hstill : c₁.IsCached id → c'.IsCached id := by
          rintro ⟨name, slot, hslot⟩
          exact ⟨name, slot, hin hslot⟩
        rw [Marked, Marked, htype, hmark]
        refine and_congr_left fun hsettled => ?_
        obtain ⟨htemp, hsingle⟩ := hsettled
        refine ⟨fun hthen => ?_, hstill⟩
        by_contra hcached
        -- a group that stays as it is holds nobody who was not there before
        have hstays : g' = g → False := by
          rintro rfl
          obtain ⟨name, slot, g₁, hg₁, hslot⟩ := hthen
          rw [hlast] at hg₁
          rcases get?_putGroup_cases hg₁ with ⟨-, rfl⟩ | ⟨-, hg₁⟩
          · exact hcached ⟨_, _, hasked.holds_iff.mp hslot⟩
          · exact hcached ⟨_, _, hasked.opens.holds ⟨g₁, hg₁, hslot⟩⟩
        cases ha with
        | again hslot => exact hcached ⟨_, _, hasked.holds_iff.mp hslot⟩
        | merged => exact hstays rfl
        | kept => exact hstays rfl
        | placed hfree =>
          rw [hasked.index] at hfree
          exact hr ⟨htemp, hsingle, Or.inl ⟨hcached, hnot, hasked.keyText ▸ hpresents, hfree⟩⟩

theorem readmits_shifts (h : c.Readmits id state) (hc : c.Marking catalog supply n)
    (hid : id < c.instances.count) (hs : supply.Distinct (n + 1)) (hn : n < 2 ^ 53 - 1)
    (hkey : state = .added → c.IsCached id → KeyRestored c id) (strategy : Option MergeStrategy) :
    (∀ x, x ∈ ((attach id state strategy).on c).2.keys.issued ↔ x ∈ c.keys.issued) ∧
      ¬ (((attach id state strategy).on c).2.Marked id ↔ c.Marked id) := by
  obtain ⟨hmark, ⟨p, hp⟩, hcase⟩ := h
  rcases hcase with ⟨hcached, hnot, hpresents, hfree⟩ | ⟨hcached, q, v, hd⟩
  · obtain ⟨temp, c₁, c₂, g, hasked⟩ := hpresents.asked
    obtain ⟨rfl, rfl⟩ := hasked.prepared.of_not_draws hpresents.found hnot
    have hfree : g.index.get? (c₁.instances.entity id).keyText = none := by
      rw [hasked.keyText, hasked.index, hfree]
    rw [hasked.on_ok (hasked.admits.attach_free hfree)]
    have hallotted : c₂.Allotted := hc.sound.sound.formed.allotted.opens hasked.opens
    obtain ⟨slot, hplaced⟩ := (hallotted _ _ hasked.group).holds_place
      (c₁.instances.entity id).keyText id
    refine ⟨fun x => by rw [show (Cache.keys _) = c₁.keys from hasked.opens.keys], fun hiff => ?_⟩
    refine hcached (hiff.mp ⟨⟨(c₁.entity id).type.name, slot, _, by rw [get?_putGroup, if_pos rfl],
      hplaced⟩, ?_, p, ?_⟩).1
    · rw [entity, Instances.entity_put, if_pos rfl]
      exact hmark
    · rw [entity, Instances.entity_put, if_pos rfl]
      exact hp
  · obtain rfl := hd.added
    obtain ⟨htext, hfresh, -⟩ := hd.fresh hc hid hs hn
    obtain ⟨temp, c₁, c₂, g, hasked⟩ := (hd.presents_of_cached hc.sound.sound hcached).asked
    have hmarked : c.Marked id := ⟨hcached, hmark, p, hp⟩
    cases ha : g.attach c₁.instances id .added (strategy.getD .disallowed) with
    | error fault =>
      obtain ⟨d, keys, hon, hgen⟩ := hasked.on_error hd ha
      rw [hon]
      refine ⟨(TempKeys.issued_release_generate?_iff hgen).mpr hfresh, fun hiff => ?_⟩
      have hstill := (hiff.mpr hmarked).2.1
      simp [entity, afterWithdrawal, Action.withdrawn] at hstill
    | ok r =>
      -- the key that was drawn would be the one that it has, and that one is issued already
      have hown : (c.entity id).keyText = v.keyText := by
        rw [← keyText_attach_cached hc.sound hkey strategy rfl hcached, hasked.keyText_after ha,
          htext]
      exact absurd (hown ▸ hc.marked hmarked) hfresh

theorem attach_marking (hc : c.Marking catalog supply n) (hid : id < c.instances.count)
    (hs : supply.Distinct (n + 1)) (hn : n < 2 ^ 53 - 1) {strategy : Option MergeStrategy}
    (hc' : ((attach id state strategy).on c).2.SoundIn catalog)
    (hkey : state = .added → c.IsCached id → KeyRestored c id)
    (hr : ¬ c.Readmits id state) :
    ((attach id state strategy).on c).2.Marking catalog supply (n + 1) := by
  have h := attach_ended c id state strategy
  obtain ⟨hdrawn, hspent, ht⟩ := h.tallied hc hid hs hn
  have hknown := hc.sound.sound.known id hid
  have hmark := ht.keyMark h.type_self (keyText_attach_cached hc.sound hkey strategy)
  have hothers : ∀ {other}, other ≠ id → _ := fun ho => h.marked_iff hc.sound.sound hc'.sound ho
  cases ht with
  | kept hissued _ =>
    have hsame := marked_attach_iff hc hid hs hn hissued hr
    refine hc.of_marks hc' hdrawn hspent hissued (fun other => ?_) (fun {other} ho => ?_)
      (h.groupless hknown)
    · by_cases ho : other = id
      · rwa [ho]
      · exact (hothers ho).1
    · by_cases heq : other = id
      · subst heq
        exact hmark ho.1
      · exact (hothers heq).2 ho.1
  | @issued p v hadded hsingle _ hnow hissued hend =>
    have hreg : catalog.type? (c.entity id).type.name = some (c.entity id).type := by
      rwa [← hc.sound.catalog]
    refine ⟨hc', hdrawn, fun {other} ho => ?_, fun {x} hx => ?_, fun {x} hx => ?_⟩
    · rw [hissued]
      by_cases heq : other = id
      · subst heq
        rcases hend with ⟨-, hk⟩ | ⟨-, huncached, -⟩
        · exact Or.inr hk
        · exact absurd ho.1 huncached
      · obtain ⟨hiff, hk⟩ := hothers heq
        have hbefore := hiff.mp ho
        rw [hk hbefore.1]
        exact Or.inl (hc.marked hbefore)
    · rcases (hissued x).mp hx with hx | rfl
      · obtain ⟨t, q, htype, hq, hx⟩ := hc.issued hx
        exact ⟨t, q, htype, hq, hspent hx⟩
      · exact ⟨_, p, hreg, hsingle, hnow⟩
    · rcases (hissued x).mp hx with hx | rfl
      · rcases hc.owned hx with ⟨owner, howner, rfl⟩ | hnone
        · by_cases heq : owner = id
          · subst heq
            rcases hend with ⟨hm, -⟩ | ⟨huncached, -⟩
            · exact Or.inl ⟨owner, hm, hmark howner.1⟩
            · exact absurd howner.1 huncached
          · obtain ⟨hiff, hk⟩ := hothers heq
            exact Or.inl ⟨owner, hiff.mpr howner, hk howner.1⟩
        · exact Or.inr (h.groupless hknown hnone)
      · rcases hend with ⟨hm, hk⟩ | ⟨-, -, hnone⟩
        · exact Or.inl ⟨id, hm, hk⟩
        · exact Or.inr hnone

theorem attach_disagrees (hc : c.Marking catalog supply n) (hid : id < c.instances.count)
    (hs : supply.Distinct (n + 1)) (hn : n < 2 ^ 53 - 1) {strategy : Option MergeStrategy}
    (hc' : ((attach id state strategy).on c).2.SoundIn catalog)
    (hkey : state = .added → c.IsCached id → KeyRestored c id)
    (hr : c.Readmits id state) :
    ¬ ((attach id state strategy).on c).2.KeysAgree := by
  have h := attach_ended c id state strategy
  obtain ⟨-, -, ht⟩ := h.tallied hc hid hs hn
  have hknown := hc.sound.sound.known id hid
  have hmark := ht.keyMark h.type_self (keyText_attach_cached hc.sound hkey strategy)
  obtain ⟨hissued, hne⟩ := readmits_shifts hr hc hid hs hn hkey strategy
  intro hagree
  by_cases hbefore : c.Marked id
  · obtain ⟨name, slot, hslot⟩ := hbefore.1
    obtain ⟨p, hp⟩ := hbefore.2.2
    have hin : ((attach id state strategy).on c).2.IsCached id :=
      ⟨name, slot, (h.holds hc.sound.sound.formed.allotted).1 hslot⟩
    have hp' : (((attach id state strategy).on c).2.entity id).type.keyProperties = [p] := by
      rw [h.type_self, hp]
    refine hne ⟨fun _ => hbefore, fun _ => ⟨hin, (hagree id p hin hp').mpr ?_, p, hp'⟩⟩
    rw [TempKeys.isIssued_keyValue hp', hmark hbefore.1, hissued]
    exact hc.marked hbefore
  · have hafter : ((attach id state strategy).on c).2.Marked id := by
      by_contra hafter
      exact hne ⟨fun hm => absurd hm hafter, fun hm => absurd hm hbefore⟩
    obtain ⟨hin, hm, p, hp⟩ := hafter
    have hmem := (hagree id p hin hp).mp hm
    rw [TempKeys.isIssued_keyValue hp, hissued] at hmem
    rcases hc.owned hmem with ⟨owner, howner, heq⟩ | hnone
    · have ho : owner ≠ id := fun heq => hbefore (heq ▸ howner)
      obtain ⟨hiff, hk⟩ := h.marked_iff hc.sound.sound hc'.sound ho
      refine ho (hc'.sound.eq_of_keyMark (hiff.mpr howner).1 hin ?_)
      rw [hk howner.1, heq]
    · exact hc'.sound.not_groupless hin (h.groupless hknown hnone)

theorem arrive_marking (hs : supply.Distinct (n + 1)) (hn : n < 2 ^ 53 - 1)
    (strategy : MergeStrategy) {t : EntityType} (ht : catalog.type? t.name = some t)
    (node : Json) : (arrive strategy t node).Keeps (Marking catalog supply n) Grows := by
  obtain ⟨htype, hcomplete⟩ := Entity.ofNode_spec t node
  have hunmarked : (Entity.ofNode t node).hasTempKey = false := by
    obtain ⟨values, h⟩ := Entity.withNodeValues_eq (Entity.new t) t node
    rw [Entity.ofNode, h]
    rfl
  intro c hc
  refine arrive_keepsAt (addInstance_marking (by rwa [htype]) hcomplete c hc) fun hc' hid => ?_
  have hkeeps := attach_keeps hc'.sound hid (some strategy)
    fun (h : EntityState.unchanged = .added) => by cases h
  have h := attach_ended { c with instances := (c.instances.add (Entity.ofNode t node)).2 }
    c.instances.count .unchanged (some strategy)
  have hmarks := attach_marking hc' hid hs hn hkeeps.holds (fun h => by cases h) fun hr => ?_
  · refine ⟨⟨hmarks.sound, ?_, hmarks.marked, hmarks.issued, hmarks.owned⟩, hkeeps.related⟩
    rw [h.keys_eq (by decide)]
    exact hc'.drawn
  · have hnew : ((c.instances.add (Entity.ofNode t node)).2.entity
        c.instances.count).hasTempKey = false := by
      rw [← hunmarked]
      simp [Instances.add]
    exact Bool.false_ne_true (hnew.symm.trans hr.1)

end Attach

end Action

end EntityCache
