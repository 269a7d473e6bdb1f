import EntityCache.Proofs.OriginalValues
import EntityCache.Proofs.SavedChanges

/-! All pending changes accepted, or all rejected. The loop goes over a list that was taken
before it started, and takes entities out of the groups that the list came from; but an entity
on the list is dealt with by what it is alone, and that no other step changes. So every step
succeeds. Those that must leave are out in the end, the others in the slots that they had. -/
namespace EntityCache

open Cache EntityCache.Action

namespace Entity

variable {e : Entity}

def rejected (e : Entity) : Entity :=
  match e.state with
  | .added => e.markDetached
  | .modified | .deleted => e.rejectChanges
  | .detached | .unchanged => e

theorem rejected_of_added (h : e.state = .added) : e.rejected = e.markDetached := by
  rw [rejected, h]

theorem rejected_of_edited (hp : e.state.isPending) (ha : e.state ≠ .added) :
    e.rejected = e.rejectChanges ∧ e.rejectChanges.state = .unchanged := by
  unfold rejected rejectChanges
  cases hs : e.state <;> simp_all [EntityState.isPending]

theorem settled_of_edited (hp : e.state.isPending) (hd : e.state ≠ .deleted) :
    e.settled = e.acceptChanges ∧ e.acceptChanges.state = .unchanged := by
  unfold settled acceptChanges
  cases hs : e.state <;> simp_all [EntityState.isPending]

end Entity

namespace Cache

variable {catalog : Catalog} {c c₁ c' : Cache} {gone : EntityState} {f : Entity → Entity}
  {id : InstanceId} {ids : List InstanceId}

section Loop

theorem Concluded.isCached_iff (h : Concluded gone f ids c c') {id : InstanceId} :
    c'.IsCached id ↔ c.IsCached id ∧ ¬ (id ∈ ids ∧ (c.entity id).state = gone) := by
  simp [IsCached, h.holds]

theorem Concluded.in_place (hs : (c.entity id).state ≠ gone) :
    Concluded gone f [id] c { c with instances := c.instances.put id (f (c.entity id)) } := by
  refine ⟨fun other => ?_, fun name slot other => ?_⟩
  · simp only [List.mem_singleton]
    refine (Instances.entity_put _ _ _ _).trans ?_
    split
    · rename_i hother
      rw [hother]
    · rfl
  · refine ⟨fun hheld => ⟨hheld, ?_⟩, And.left⟩
    rintro ⟨hm, hgone⟩
    rw [List.mem_singleton.mp hm] at hgone
    exact hs hgone

theorem Concluded.cons (hid : id ∉ ids) (h : Concluded gone f [id] c c₁)
    (k : Concluded gone f ids c₁ c') : Concluded gone f (id :: ids) c c' := by
  refine ⟨fun other => ?_, fun name slot other => ?_⟩
  · rw [k.entity, h.entity]
    by_cases ho : other = id
    · simp [ho, hid]
    · simp [ho]
  · rw [k.holds, h.holds, h.entity]
    by_cases ho : other = id
    · simp [ho, hid]
    · simp [ho]

/-- A loop over different entities, each of them ready by what it is: none is made less ready
by what is done to another. -/
theorem forM_concludes {a : InstanceId → Action PUnit} (Ready : Entity → Prop)
    (hstep : ∀ {c : Cache} {id : InstanceId}, c.SoundIn catalog → c.IsCached id →
      Ready (c.entity id) → ∃ c', (a id).on c = (.ok ⟨⟩, c') ∧ c'.SoundIn catalog ∧
        Concluded gone f [id] c c')
    (hnd : ids.Nodup) (hc : c.SoundIn catalog)
    (hready : ∀ id ∈ ids, c.IsCached id ∧ Ready (c.entity id)) :
    ∃ c', (ids.forM a).on c = (.ok ⟨⟩, c') ∧ c'.SoundIn catalog ∧
      Concluded gone f ids c c' := by
  induction ids generalizing c with
  | nil => exact ⟨c, rfl, hc, fun _ => rfl, fun _ _ _ => by simp⟩
  | cons id ids ih =>
    obtain ⟨hid, hnd⟩ := List.nodup_cons.mp hnd
    obtain ⟨hcached, hrid⟩ := hready id List.mem_cons_self
    obtain ⟨c₁, hon, hc₁, hfirst⟩ := hstep hc hcached hrid
    have hlater : ∀ other ∈ ids, c₁.IsCached other ∧ Ready (c₁.entity other) := by
      intro other hother
      have hne : other ∉ [id] := by
        rw [List.mem_singleton]
        rintro rfl
        exact hid hother
      obtain ⟨hwas, hrother⟩ := hready other (List.mem_cons_of_mem id hother)
      rw [hfirst.isCached_iff, hfirst.entity, if_neg hne]
      exact ⟨⟨hwas, fun hboth => hne hboth.1⟩, hrother⟩
    obtain ⟨c', hrest, hc', hconcluded⟩ := ih hnd hc₁ hlater
    exact ⟨c', (on_bind_ok hon _).trans hrest, hc', hfirst.cons hid hconcluded⟩

end Loop

section Steps

theorem detach_concludes (hc : c.SoundIn catalog) (hid : c.IsCached id)
    (hs : (c.entity id).state = gone) (hf : f (c.entity id) = (c.entity id).markDetached) :
    ∃ c', (detach id).on c = (.ok id, c') ∧ c'.SoundIn catalog ∧ Concluded gone f [id] c c' := by
  obtain ⟨name, slot, hheld⟩ := hid
  have hok := detach_on_ok hc.sound hheld
  have hsound := (detach_keeps id c hc).holds
  cases hon : (detach id).on c with
  | mk r c₁ =>
    rw [hon] at hok hsound
    cases hok
    exact ⟨c₁, rfl, hsound, .of_detach hc.sound hs hf hon⟩

theorem acceptEntity_concludes (hc : c.SoundIn catalog) (hid : c.IsCached id)
    (hp : (c.entity id).state.isPending) :
    ∃ c', (discard (acceptEntity id) : Action PUnit).on c = (.ok ⟨⟩, c') ∧
      c'.SoundIn catalog ∧ Concluded .deleted Entity.settled [id] c c' := by
  by_cases hd : (c.entity id).state = .deleted
  · obtain ⟨c₁, hon, hc₁, hconcluded⟩ :=
      detach_concludes (f := Entity.settled) hc hid hd (Entity.settled_of_deleted hd)
    refine ⟨c₁, ?_, hc₁, hconcluded⟩
    unfold acceptEntity
    rw [on_discard, on_bind_ok (on_stateOf id c), hd]
    dsimp only
    rw [on_bind, on_discard, hon]
    rfl
  · obtain ⟨hsettled, -⟩ := Entity.settled_of_edited hp hd
    have hsound := (acceptEntity_keeps id c hc).holds
    have hon : (acceptEntity id).on c = (.ok (c.entity id).acceptChanges.state,
        { c with instances := c.instances.put id (c.entity id).settled }) := by
      rw [hsettled]
      unfold acceptEntity
      rw [on_bind_ok (on_stateOf id c)]
      cases hs : (c.entity id).state with
      | deleted => exact absurd hs hd
      | detached =>
        rw [hs] at hp
        cases hp
      | added | unchanged | modified =>
        dsimp only
        rw [on_bind, on_change]
        dsimp only
        rw [on_stateOf]
        simp [entity]
    rw [hon] at hsound
    refine ⟨_, ?_, hsound, .in_place hd⟩
    rw [on_discard, hon]
    rfl

theorem rejectEntity_concludes (hc : c.SoundIn catalog) (hid : c.IsCached id)
    (hp : (c.entity id).state.isPending ∧ ((c.entity id).state ≠ .added →
      (c.entity id).keyTextWith (c.entity id).original = (c.entity id).keyText)) :
    ∃ c', (discard (rejectEntity id) : Action PUnit).on c = (.ok ⟨⟩, c') ∧
      c'.SoundIn catalog ∧ Concluded .added Entity.rejected [id] c c' := by
  by_cases ha : (c.entity id).state = .added
  · obtain ⟨c₁, hon, hc₁, hconcluded⟩ :=
      detach_concludes (f := Entity.rejected) hc hid ha (Entity.rejected_of_added ha)
    refine ⟨c₁, ?_, hc₁, hconcluded⟩
    unfold rejectEntity
    rw [on_discard, on_bind_ok (on_stateOf id c), ha]
    dsimp only
    rw [on_bind, on_discard, hon]
    rfl
  · obtain ⟨hrejected, -⟩ := Entity.rejected_of_edited hp.1 ha
    have hd : (c.entity id).state ≠ .detached := by
      intro hs
      rw [hs] at hp
      cases hp.1
    have hsound := (rejectEntity_keeps hc fun _ _ => hp.2 ha).holds
    have hon := on_rejectEntity ha hd
    rw [← hrejected] at hon
    rw [hon] at hsound
    refine ⟨_, ?_, hsound, .in_place ha⟩
    rw [on_discard, hon]
    rfl

end Steps

section All

/-- Nothing is pending any more. Who was in the state that has to go is out and Detached, who
else was cached is Unchanged in the slot that it had, and who was Unchanged, or not cached at
all, has not been written to. -/
structure Cleared (gone : EntityState) (c c' : Cache) : Prop where
  holds : ∀ name slot id, c'.Holds name slot id ↔
    c.Holds name slot id ∧ (c.entity id).state ≠ gone
  detached : ∀ {id}, c.IsCached id → (c.entity id).state = gone →
    (c'.entity id).state = .detached
  unchanged : ∀ {id}, c'.IsCached id → (c'.entity id).state = .unchanged
  untouched : ∀ {id}, (c.IsCached id → (c.entity id).state = .unchanged) →
    c'.entity id = c.entity id
  hasChanges : c'.hasChanges = false
  formed : c'.Formed
  indexed : c'.Indexed

theorem Concluded.cleared (hc : c.Sound) (hc' : c'.Sound) (h : Concluded gone f c.changes c c')
    (hpending : gone.isPending)
    (hgone : ∀ {e : Entity}, e.state = gone → (f e).state = .detached)
    (hstays : ∀ {e : Entity}, e.state.isPending → e.state ≠ gone → (f e).state = .unchanged) :
    Cleared gone c c' := by
  have hchanges : ∀ {id}, id ∈ c.changes ↔ c.IsCached id ∧ (c.entity id).state.isPending :=
    fun {id} => mem_changes_iff hc.ordered
  have hmust : ∀ {id}, c.IsCached id → (c.entity id).state = gone → id ∈ c.changes :=
    fun hid hs => hchanges.mpr ⟨hid, hs ▸ hpending⟩
  have hunchanged : ∀ {id}, c'.IsCached id → (c'.entity id).state = .unchanged := by
    intro id hid
    obtain ⟨hwas, hnot⟩ := h.isCached_iff.mp hid
    rw [h.entity]
    by_cases hm : id ∈ c.changes
    · rw [if_pos hm]
      exact hstays (hchanges.mp hm).2 fun hs => hnot ⟨hm, hs⟩
    · rw [if_neg hm]
      obtain ⟨name, slot, hheld⟩ := hwas
      have htracked := hc.indexed.tracked hheld
      have hidle : ¬ (c.entity id).state.isPending :=
        fun hp => hm (hchanges.mpr ⟨⟨name, slot, hheld⟩, hp⟩)
      cases hs : (c.entity id).state <;> simp_all [EntityState.isPending]
  refine ⟨fun name slot id => ?_, fun {id} hid hs => ?_, hunchanged, fun {id} hid => ?_, ?_,
    hc'.formed, hc'.indexed⟩
  · rw [h.holds]
    refine and_congr_right fun hheld => not_congr ?_
    exact ⟨And.right, fun hs => ⟨hmust ⟨name, slot, hheld⟩ hs, hs⟩⟩
  · rw [h.entity, if_pos (hmust hid hs)]
    exact hgone hs
  · rw [h.entity, if_neg fun hm => ?_]
    obtain ⟨hcached, hp⟩ := hchanges.mp hm
    rw [hid hcached] at hp
    cases hp
  · refine hasChanges_eq_false hc'.ordered fun id hid => ?_
    rw [hunchanged hid]
    rfl

theorem acceptChanges_clears (hc : c.SoundIn catalog) :
    ∃ c', acceptChanges.on c = (.ok ⟨⟩, c') ∧ Cleared .deleted c c' ∧
      ∀ id, (c'.entity id).values = (c.entity id).values := by
  obtain ⟨c', hon, hc', h⟩ := forM_concludes (fun e => e.state.isPending)
    acceptEntity_concludes (nodup_changes hc.sound) hc
    fun id hid => (mem_changes_iff hc.sound.ordered).mp hid
  have hcleared : Cleared .deleted c c' := by
    refine h.cleared hc.sound hc'.sound rfl (fun hs => ?_) fun hp hs => ?_
    · rw [Entity.settled_of_deleted hs]
      rfl
    · obtain ⟨hsettled, hstate⟩ := Entity.settled_of_edited hp hs
      rw [hsettled, hstate]
  refine ⟨c', ?_, hcleared, fun id => ?_⟩
  · unfold acceptChanges
    rw [on_bind_ok (on_get c)]
    exact hon
  · rw [h.entity]
    split
    · unfold Entity.settled
      cases (c.entity id).state <;> rfl
    · rfl

theorem rejectChanges_clears (hc : c.SoundIn catalog)
    (hkeys : ∀ id, c.IsCached id → ∀ p ∈ (c.entity id).type.keyProperties,
      ¬ (c.entity id).originals.has p.name) :
    ∃ c', rejectChanges.on c = (.ok c.changes, c') ∧ Cleared .added c c' ∧
      ∀ id, c.IsCached id → (c.entity id).state.isPending → (c.entity id).state ≠ .added →
        c'.entity id = (c.entity id).rejectChanges := by
  have hchanges : ∀ {id}, id ∈ c.changes ↔ c.IsCached id ∧ (c.entity id).state.isPending :=
    fun {id} => mem_changes_iff hc.sound.ordered
  have hready : ∀ id ∈ c.changes, c.IsCached id ∧ (c.entity id).state.isPending ∧
      ((c.entity id).state ≠ .added →
        (c.entity id).keyTextWith (c.entity id).original = (c.entity id).keyText) := by
    intro id hid
    obtain ⟨hcached, hp⟩ := hchanges.mp hid
    exact ⟨hcached, hp, fun _ => Entity.keyTextWith_original (hkeys id hcached)⟩
  obtain ⟨c', hon, hc', h⟩ := forM_concludes (fun e => e.state.isPending ∧
    (e.state ≠ .added → e.keyTextWith e.original = e.keyText)) rejectEntity_concludes
    (nodup_changes hc.sound) hc hready
  have hcleared : Cleared .added c c' := by
    refine h.cleared hc.sound hc'.sound rfl (fun hs => ?_) fun hp hs => ?_
    · rw [Entity.rejected_of_added hs]
      rfl
    · obtain ⟨hrejected, hstate⟩ := Entity.rejected_of_edited hp hs
      rw [hrejected, hstate]
  refine ⟨c', ?_, hcleared, fun id hid hp hs => ?_⟩
  · unfold rejectChanges
    rw [on_bind_ok (on_get c)]
    exact on_bind_ok hon _
  · rw [h.entity, if_pos (hchanges.mpr ⟨hid, hp⟩), (Entity.rejected_of_edited hp hs).1]

/-- To accept or to reject all changes never fails and leaves nothing pending. What is accepted
keeps its values. What is rejected gets the values back that were recorded, and is left with
no more to restore. Nobody may have an original value for a part of the key, which no
assignment to a cached entity records. -/
theorem settle_all (hf : c.Formed) (hi : c.Indexed)
    (hkeys : ∀ id, c.IsCached id → ∀ p ∈ (c.entity id).type.keyProperties,
      ¬ (c.entity id).originals.has p.name) :
    (∃ c', acceptChanges.on c = (.ok ⟨⟩, c') ∧ Cleared .deleted c c' ∧
      ∀ id, (c'.entity id).values = (c.entity id).values) ∧
    ∃ c', rejectChanges.on c = (.ok c.changes, c') ∧ Cleared .added c c' ∧
      ∀ id, c.IsCached id → (c.entity id).state.isPending → (c.entity id).state ≠ .added →
        (c'.entity id).originals = [] ∧ ∀ name,
          ((c.entity id).originals.get? name = none ∧
            (c'.entity id).get? name = (c.entity id).get? name) ∨
          ∃ v, (name, v) ∈ (c.entity id).originals ∧ (c'.entity id).get? name = some v := by
  have hc : c.SoundIn c.catalog := ⟨hf.sound hi, rfl⟩
  refine ⟨acceptChanges_clears hc, ?_⟩
  obtain ⟨c', hon, hcleared, hrejected⟩ := rejectChanges_clears hc hkeys
  refine ⟨c', hon, hcleared, fun id hid hp hs => ?_⟩
  rw [hrejected id hid hp hs]
  exact ⟨rfl, fun name => Entity.get?_rejectChanges_cases (c.entity id) name⟩

/-- A new customer stays if it is accepted, and a deleted order if it is rejected. -/
theorem pendingSales_settled :
    pendingSales.Formed ∧ pendingSales.Indexed ∧ (∀ id, pendingSales.IsCached id →
      ∀ p ∈ (pendingSales.entity id).type.keyProperties,
        ¬ (pendingSales.entity id).originals.has p.name) ∧
      (∃ c', acceptChanges.on pendingSales = (.ok ⟨⟩, c') ∧ c'.hasChanges = false ∧
        c'.Holds "Customer" 0 0 ∧ ¬ c'.Holds "Order" 2 3) ∧
      ∃ c', rejectChanges.on pendingSales = (.ok [0, 2, 3], c') ∧ c'.hasChanges = false ∧
        ¬ c'.Holds "Customer" 0 0 ∧ c'.Holds "Order" 2 3 := by
  have hc := sound_pendingSales
  have hkeys : ∀ id, pendingSales.IsCached id →
      ∀ p ∈ (pendingSales.entity id).type.keyProperties,
        ¬ (pendingSales.entity id).originals.has p.name := by
    have hall : ∀ id < pendingSales.instances.count,
        ∀ p ∈ (pendingSales.entity id).type.keyProperties,
          ¬ (pendingSales.entity id).originals.has p.name := by decide +kernel
    rintro id ⟨name, slot, hs⟩
    exact hall id (hc.sound.given hs)
  have hcustomers : pendingSales.slotsOf "Customer" = some [some 0] := by decide +kernel
  have horders : pendingSales.slotsOf "Order" = some [some 1, some 2, some 3] := by decide +kernel
  have hadded : (pendingSales.entity 0).state = .added := by decide +kernel
  have hdeleted : (pendingSales.entity 3).state = .deleted := by decide +kernel
  have hchanges : pendingSales.changes = [0, 2, 3] := by decide +kernel
  have hcustomer : pendingSales.Holds "Customer" 0 0 := holds_of_slotsOf hcustomers rfl
  have horder : pendingSales.Holds "Order" 2 3 := holds_of_slotsOf horders rfl
  obtain ⟨⟨c₁, haccept, hcleared₁, -⟩, c₂, hreject, hcleared₂, -⟩ :=
    settle_all hc.sound.formed hc.sound.indexed hkeys
  rw [hchanges] at hreject
  refine ⟨hc.sound.formed, hc.sound.indexed, hkeys,
    ⟨c₁, haccept, hcleared₁.hasChanges, ?_, ?_⟩, c₂, hreject, hcleared₂.hasChanges, ?_, ?_⟩
  · exact (hcleared₁.holds _ _ _).mpr ⟨hcustomer, by simp [hadded]⟩
  · exact fun hs => ((hcleared₁.holds _ _ _).mp hs).2 hdeleted
  · exact fun hs => ((hcleared₂.holds _ _ _).mp hs).2 hadded
  · exact (hcleared₂.holds _ _ _).mpr ⟨horder, by simp [hdeleted]⟩

end All

end Cache

end EntityCache
