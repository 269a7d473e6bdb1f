import EntityCache.Cache.SaveAnswer
import EntityCache.Proofs.CacheIndex

/-! What the actions on a cache do to its groups. All of them keep the cache sound except
three: attaching a cached entity as Added, rejecting changes, and merging what a save
returned. Those may rewrite the key of an entity in its slot. -/
namespace EntityCache

open Cache EntityCache.Action

structure Cache.SoundIn (catalog : Catalog) (c : Cache) : Prop where
  sound : c.Sound
  catalog : c.catalog = catalog

def Cache.Grows (c c' : Cache) : Prop := c.instances.count ≤ c'.instances.count

instance : IsPreorder Cache Cache.Grows where
  refl _ := Nat.le_refl _
  trans _ _ _ := Nat.le_trans

/-- The keys once an entity has left: its own is forgotten if it was a temporary one. -/
def TempKeys.without (keys : TempKeys) (e : Entity) : TempKeys :=
  if e.hasTempKey then e.ownKey.values.foldl (fun keys v => keys.release e.type.name v) keys
  else keys

namespace Action

variable {catalog : Catalog} {c c' : Cache}

theorem on_change (id : InstanceId) (f : Entity → Except Fault Entity) (c : Cache) :
    (change id f).on c = match f (c.entity id) with
      | .ok e => (.ok (), { c with instances := c.instances.put id e })
      | .error fault => (.error fault, c) := by
  unfold change
  rw [on_bind_ok (on_get c)]
  cases f (c.entity id) <;> rfl

theorem on_change_ok {id : InstanceId} {f : Entity → Except Fault Entity} {e : Entity}
    (h : f (c.entity id) = .ok e) :
    (change id f).on c = (.ok (), { c with instances := c.instances.put id e }) := by
  rw [on_change, h]

theorem on_release (vs : List Value) (name : String) (c : Cache) :
    (vs.forM (release name)).on c =
      (.ok ⟨⟩, { c with keys := vs.foldl (fun keys v => keys.release name v) c.keys }) := by
  induction vs generalizing c with
  | nil => rfl
  | cons v vs ih => exact ih { c with keys := c.keys.release name v }

theorem change_keeps (hc : c.SoundIn catalog) {id : InstanceId} {f : Entity → Except Fault Entity}
    (hf : ∀ e, f (c.entity id) = .ok e → (c.entity id).Continues e) :
    (change id f).KeepsAt (SoundIn catalog) Grows c := by
  cases he : f (c.entity id) with
  | error fault => exact .of_unmoved (by rw [on_change, he]) hc
  | ok e =>
    have hcont := hf e he
    exact .of_on (on_change_ok he)
      ⟨hc.sound.put hcont.type hcont.complete fun _ => hcont, hc.catalog⟩ (Nat.le_refl _)

theorem on_stateOf (id : InstanceId) (c : Cache) :
    (stateOf id).on c = (.ok (c.entity id).state, c) := rfl

section Parts

variable {P : Cache → Prop} {R : Cache → Cache → Prop} [IsPreorder Cache R] {id : InstanceId}

theorem stateOf_keepsAll (id : InstanceId) : (stateOf id).Keeps P R :=
  fun c => .of_unmoved (on_stateOf id c)

/-- Deleting an entity, and likewise settling it, keeps what the one call keeps that its state
leads to. -/
theorem delete_keepsAt (hd : (c.entity id).state = .added → (detach id).KeepsAt P R c)
    (hm : (c.entity id).state ≠ .added → (change id Entity.markDeleted).KeepsAt P R c) :
    (delete id).KeepsAt P R c := by
  refine .bind_of_ok (on_stateOf id c) ?_
  by_cases hs : (c.entity id).state = .added
  · rw [if_pos hs]
    exact (hd hs).discard.bind fun _ => .pure _
  · rw [if_neg hs]
    exact (hm hs).bind fun _ => stateOf_keepsAll id

theorem acceptEntity_keepsAt (hc : P c)
    (hd : (c.entity id).state = .deleted → (detach id).KeepsAt P R c)
    (ha : (c.entity id).state ≠ .deleted →
      (change id fun e => .ok e.acceptChanges).KeepsAt P R c) :
    (acceptEntity id).KeepsAt P R c := by
  refine .bind_of_ok (on_stateOf id c) ?_
  cases hs : (c.entity id).state with
  | deleted => exact (hd hs).discard.bind fun _ => .pure _
  | detached => exact .of_unmoved rfl hc
  | added | unchanged | modified => exact (ha (by simp [hs])).bind fun _ => stateOf_keepsAll id

theorem rejectEntity_keepsAt (hc : P c)
    (hd : (c.entity id).state = .added → (detach id).KeepsAt P R c)
    (hr : (c.entity id).state ≠ .added →
      (change id fun e => .ok e.rejectChanges).KeepsAt P R c) :
    (rejectEntity id).KeepsAt P R c := by
  refine .bind_of_ok (on_stateOf id c) ?_
  cases hs : (c.entity id).state with
  | added => exact (hd hs).discard.bind fun _ => .pure _
  | detached => exact .of_unmoved rfl hc
  | unchanged | modified | deleted =>
    exact (hr (by simp [hs])).bind fun _ => stateOf_keepsAll id

theorem settle_keepsAt (hc : P c)
    (hd : (c.entity id).state = .deleted → (detach id).KeepsAt P R c)
    (ha : (c.entity id).state ≠ .deleted →
      (change id fun e => .ok e.acceptChanges).KeepsAt P R c) :
    (settle id).KeepsAt P R c := by
  refine .bind_of_ok (on_stateOf id c) ?_
  cases hs : (c.entity id).state with
  | deleted => exact (hd hs).discard
  | detached | unchanged => exact .of_unmoved rfl hc
  | added | modified => exact ha (by simp [hs])

end Parts

section Detach

/-- A refused detachment changes nothing; otherwise the group gives up the entity, and the
generator its key. -/
theorem detach_ends (id : InstanceId) (c : Cache) :
    (∃ fault, (∀ {g r}, c.groups.get? (c.entity id).type.name = some g →
      g.detach c.instances id ≠ .ok r) ∧ (detach id).on c = (.error fault, c)) ∨
    ∃ g g' is, c.groups.get? (c.entity id).type.name = some g ∧
      g.detach c.instances id = .ok (g', is) ∧
      (detach id).on c = (.ok id, { c with
        groups := putGroup (c.entity id).type.name g' c.groups
        instances := is
        keys := c.keys.without (c.entity id) }) := by
  unfold detach
  rw [on_bind_ok (on_get c)]
  dsimp only
  cases hg : c.groups.get? (c.entity id).type.name with
  | none => exact Or.inl ⟨_, by simp, rfl⟩
  | some g =>
    dsimp only
    cases hd : g.detach c.instances id with
    | error fault =>
      refine Or.inl ⟨fault, fun hg => ?_, rfl⟩
      obtain rfl := Option.some.inj hg
      simp [hd]
    | ok r =>
      obtain ⟨g', is⟩ := r
      refine Or.inr ⟨g, g', is, rfl, hd, ?_⟩
      rw [on_bind_ok (on_lift _ c), on_bind_ok (show (keep _ g' is).on c = _ from rfl)]
      unfold TempKeys.without
      split
      · rw [Entity.key_eq]
        exact on_bind_ok (on_release (c.entity id).ownKey.values (c.entity id).type.name _) _
      · rfl

theorem detach_cases (id : InstanceId) (c : Cache) :
    (∃ fault, (∀ {g r}, c.groups.get? (c.entity id).type.name = some g →
      g.detach c.instances id ≠ .ok r) ∧ (detach id).on c = (.error fault, c)) ∨
    ∃ g g' is keys, c.groups.get? (c.entity id).type.name = some g ∧
      g.detach c.instances id = .ok (g', is) ∧
      (detach id).on c = (.ok id, { c with
        groups := putGroup (c.entity id).type.name g' c.groups, instances := is, keys }) := by
  rcases detach_ends id c with h | ⟨g, g', is, hg, hd, h⟩
  · exact Or.inl h
  · exact Or.inr ⟨g, g', is, _, hg, hd, h⟩

theorem detach_keeps (id : InstanceId) : (detach id).Keeps (SoundIn catalog) Grows := by
  intro c hc
  rcases detach_cases id c with ⟨fault, -, h⟩ | ⟨g, g', is, keys, hg, hd, h⟩
  · exact .of_unmoved h hc
  · obtain ⟨hs, hedits, ht⟩ := (hc.sound.groups hg).detach_call hd
    have hgiven : ∀ {slot other}, g'.Holds slot other → other < c.instances.count := fun hm =>
      hc.sound.given ⟨g, hg, (Group.detach_slots hd).1 hm⟩
    exact .of_on h ⟨(hc.sound.keep hg hs ht hedits hgiven).of_same rfl rfl rfl, hc.catalog⟩
      (Nat.le_of_eq hedits.count.symm)

end Detach

section Settle

theorem set_keeps (hc : c.SoundIn catalog) {id : InstanceId} (hid : id < c.instances.count)
    (name : String) (v : Value) :
    (change id (·.set name v)).KeepsAt (SoundIn catalog) Grows c :=
  change_keeps hc fun _ he => Entity.continues_set (hc.sound.distinct (hc.sound.known id hid)) he

theorem delete_keeps (id : InstanceId) : (delete id).Keeps (SoundIn catalog) Grows :=
  fun c hc => delete_keepsAt (fun _ => detach_keeps id c hc) fun hs =>
    change_keeps hc fun _ he => Entity.continues_markDeleted hs he

theorem accept_keeps (hc : c.SoundIn catalog) {id : InstanceId}
    (hs : (c.entity id).state ≠ .deleted) :
    (change id fun e => .ok e.acceptChanges).KeepsAt (SoundIn catalog) Grows c := by
  refine change_keeps hc fun e he => ?_
  cases he
  exact Entity.continues_acceptChanges hs

theorem acceptEntity_keeps (id : InstanceId) :
    (acceptEntity id).Keeps (SoundIn catalog) Grows :=
  fun c hc => acceptEntity_keepsAt hc (fun _ => detach_keeps id c hc) (accept_keeps hc)

theorem acceptChanges_keeps : acceptChanges.Keeps (SoundIn catalog) Grows :=
  .get_bind fun c => Keeps.forM (fun id _ => (acceptEntity_keeps id).discard) c

theorem settle_keeps (id : InstanceId) : (settle id).Keeps (SoundIn catalog) Grows :=
  fun c hc => settle_keepsAt hc (fun _ => detach_keeps id c hc) (accept_keeps hc)

end Settle

section Clear

theorem detached_all (ids : List InstanceId) (is : Instances) :
    let is' := ids.foldl (fun is id => is.put id (is.entity id).markDetached) is
    is'.count = is.count ∧ (∀ id, (is'.entity id).type = (is.entity id).type) ∧
      ∀ id, (is'.entity id).values = (is.entity id).values := by
  induction ids generalizing is with
  | nil => simp
  | cons x ids ih =>
    obtain ⟨hcount, htype, hvalues⟩ := ih (is.put x (is.entity x).markDetached)
    refine ⟨hcount, fun id => (htype id).trans ?_, fun id => (hvalues id).trans ?_⟩ <;>
      · rw [Instances.entity_put]
        split
        · rename_i hid; subst hid; rfl
        · rfl

theorem clear_keeps : clear.Keeps (SoundIn catalog) Grows := by
  intro c hc
  obtain ⟨hcount, htype, hvalues⟩ := detached_all (c.entities none none) c.instances
  refine .of_on rfl ⟨⟨?_, ?_, ?_, List.Pairwise.nil, fun id hid => ?_, fun id hid => ?_, ?_,
    hc.sound.distinct⟩, hc.catalog⟩ (Nat.le_of_eq hcount.symm)
  · intro _ _ hg; cases hg
  · intro _ _ hg; cases hg
  · intro _ _ hg; cases hg
  · rw [Cache.entity, htype id]
    exact hc.sound.known id (hcount ▸ hid)
  · intro p hp
    have hcomplete := hc.sound.complete id (hcount ▸ hid)
    rw [Cache.entity, htype id] at hp
    rw [Cache.entity, Entity.get?, hvalues id]
    exact hcomplete p hp
  · rintro _ _ _ ⟨_, hg, -⟩; cases hg

end Clear

section Create

theorem on_addInstance (e : Entity) (c : Cache) : (addInstance e).on c =
    (.ok c.instances.count, { c with instances := (c.instances.add e).2 }) := rfl

theorem addInstance_keeps {e : Entity} (ht : catalog.type? e.type.name = some e.type)
    (he : e.Complete) : (addInstance e).Keeps (SoundIn catalog) Grows := fun c hc =>
  .of_on (on_addInstance e c) ⟨hc.sound.added (by rwa [hc.catalog]) he, hc.catalog⟩
    (Nat.le_succ _)

theorem create_keepsAll {P : Cache → Prop} {R : Cache → Cache → Prop} [IsPreorder Cache R]
    {typeName : String} (hfreeze : ∀ (c : Cache) (v : TypeVersion), P c →
      P { c with instances := c.instances.freeze v } ∧
        R c { c with instances := c.instances.freeze v })
    (hadd : ∀ (c : Cache) (t : EntityType), P c → c.catalog.find typeName = .ok t →
      (addInstance (Entity.new t)).Keeps P R) : (create typeName).Keeps P R := by
  refine .get_bind fun c hc => .lift_bind hc fun t ht => ?_
  have hfrozen : (modify fun c => { c with
      instances := c.instances.freeze t.version } : Action PUnit).Keeps P R := fun c hc =>
    .of_on (on_modify _ c) (hfreeze c t.version hc).1 (hfreeze c t.version hc).2
  split
  · exact .of_unmoved rfl hc
  · exact hfrozen.bind (fun _ => hadd c t hc ht) c hc

theorem create_keeps (typeName : String) : (create typeName).Keeps (SoundIn catalog) Grows :=
  create_keepsAll (fun _ v hc => ⟨⟨hc.sound.frozen v, hc.catalog⟩, by simp [Grows]⟩)
    fun _ t hc ht => addInstance_keeps (hc.catalog ▸ Catalog.type?_of_find ht)
      (Entity.complete_new t)

end Create

section Keys

theorem release_keeps (name : String) (v : Value) :
    (release name v).Keeps (SoundIn catalog) Grows := fun _ hc =>
  .of_on rfl ⟨hc.sound.of_same rfl rfl rfl, hc.catalog⟩ (Nat.le_refl _)

/-- Keeping what a call gave that leaves everybody in its slot. -/
theorem keep_keeps (hc : c.SoundIn catalog) {name : String} {g g' : Group} {is : Instances}
    (hg : c.groups.get? name = some g) (hslots : g'.slots = g.slots)
    (h : g'.Sound is ∧ c.instances.Edits g.type is ∧ g'.type = g.type) :
    (keep name g' is).KeepsAt (SoundIn catalog) Grows c := by
  obtain ⟨hs, hedits, ht⟩ := h
  refine .of_on rfl ⟨hc.sound.keep hg hs ht hedits fun hm => ?_, hc.catalog⟩
    (Nat.le_of_eq hedits.count.symm)
  exact hc.sound.given ⟨g, hg, (Group.holds_congr hslots).mp hm⟩

theorem cascade_keeps (old new : Value) (refs : List (String × String)) :
    (cascade old new refs).Keeps (SoundIn catalog) Grows := by
  refine Keeps.forM fun (name, property) _ => .get_bind fun c hc => ?_
  dsimp only
  cases hg : c.groups.get? name with
  | none => exact .of_unmoved rfl hc
  | some g =>
    refine .lift_bind hc fun ⟨n, g', is⟩ hu => ?_
    have hgs := hc.sound.groups hg
    have hd := hc.sound.distinct (hc.sound.registered hg)
    obtain ⟨-, p, moves, hr⟩ := Group.updateForeignKey_spec hgs hu
    exact keep_keeps hc hg (by rw [hr.group]; rfl) (hgs.cascade_call hd hu)

theorem fixupKey_keeps (typeName : String) (temp real : Value) :
    (fixupKey typeName temp real).Keeps (SoundIn catalog) Grows := by
  refine .get_bind fun c hc => .lift_bind hc fun t _ => .bind_of_ok (on_get c) ?_
  dsimp only
  cases hg : c.groups.get? t.name with
  | none => exact .of_unmoved rfl hc
  | some g =>
    refine .lift_bind hc fun ⟨id, g', is⟩ hf => ?_
    have hfixed := Group.fixup_spec hf
    refine (keep_keeps hc hg hfixed.slots (hfixed.sound (hc.sound.groups hg))).bind fun _ => ?_
    rw [Entity.key_eq]
    refine fun c hc => .bind_of_ok (on_lift (.ok _) c) ?_
    exact (release_keeps _ _).bind (fun _ => (cascade_keeps _ _ _).bind fun _ => .pure id) c hc

end Keys

end Action

end EntityCache
