import EntityCache.Proofs.Importing

/-! Slots and free lists on their own. A slot is free exactly when nobody is in it, in every
cache that operations lead to, also where the index no longer holds. -/
namespace EntityCache

open Cache

/-- The free list names the empty slots, each once, and slots hold entities there are. -/
structure Group.Allotted (g : Group) (count : Nat) : Prop where
  free_iff : ∀ slot, slot ∈ g.free ↔ g.slots[slot]? = some none
  free_nodup : g.free.Nodup
  given : ∀ {slot id}, g.Holds slot id → id < count

namespace Group.Allotted

variable {g g' : Group} {is is' : Instances} {n : Nat}

theorem of_slots (h : g.Allotted n) (hs : g'.slots = g.slots) (hf : g'.free = g.free) :
    g'.Allotted n :=
  ⟨by rw [hs, hf]; exact h.free_iff, by rw [hf]; exact h.free_nodup,
    fun hm => h.given ((holds_congr hs).mp hm)⟩

/-- Whoever is placed takes one slot, and everybody else stays. -/
theorem holds_place_iff (h : g.Allotted n) (key : String) (id : InstanceId) : ∃ slot,
    ∀ other i, (g.place key id).Holds other i ↔ (other = slot ∧ i = id) ∨ g.Holds other i := by
  obtain ⟨slot, -, -, hholds, -⟩ := place_spec h.free_iff h.free_nodup key id
  exact ⟨slot, hholds⟩

theorem holds_place (h : g.Allotted n) (key : String) (id : InstanceId) :
    ∃ slot, (g.place key id).Holds slot id := by
  obtain ⟨slot, hholds⟩ := h.holds_place_iff key id
  exact ⟨slot, (hholds slot id).mpr (Or.inl ⟨rfl, rfl⟩)⟩

theorem attached (h : g.Allotted n) {id cached : InstanceId} {state : EntityState}
    {strategy : MergeStrategy} (hid : id < n)
    (ha : Attached g is id state strategy cached g' is') : g'.Allotted n := by
  cases ha with
  | again => exact h
  | merged => exact h
  | kept => exact h
  | placed =>
    obtain ⟨_, -, -, hholds, hfree, hnodup⟩ :=
      place_spec h.free_iff h.free_nodup (is.entity id).keyText id
    refine ⟨hfree, hnodup, fun hm => ?_⟩
    rcases (hholds _ _).mp hm with ⟨-, rfl⟩ | hm
    · exact hid
    · exact h.given hm

theorem detached (h : g.Allotted n) {id : InstanceId}
    (hd : g.detach is id = .ok (g', is')) : g'.Allotted n := by
  obtain ⟨key, slot, -, -, hs, rfl, -⟩ := detach_spec hd
  have hlt : slot < g.slots.length := (List.getElem?_eq_some_iff.mp hs).1
  refine ⟨fun other => ?_, List.nodup_cons.mpr ⟨fun hm => ?_, h.free_nodup⟩,
    fun hm => h.given ((holds_vacate ..).mp hm).2⟩
  · by_cases ho : other = slot
    · subst ho; simp [vacate, hlt]
    · simpa [vacate, ho, List.getElem?_set_ne (Ne.symm ho)] using h.free_iff other
  · cases hs.symm.trans ((h.free_iff slot).mp hm)

end Group.Allotted

def Cache.Allotted (c : Cache) : Prop :=
  ∀ name g, c.groups.get? name = some g → g.Allotted c.instances.count

namespace Cache.Allotted

variable {c c' : Cache}

theorem of_groups (h : c.Allotted) (hg : c'.groups = c.groups)
    (hn : c.instances.count ≤ c'.instances.count) : c'.Allotted := fun name g hc =>
  have hgroup := h name g (hg ▸ hc)
  ⟨hgroup.free_iff, hgroup.free_nodup, fun hm => (hgroup.given hm).trans_le hn⟩

theorem keep (h : c.Allotted) {name : String} {g : Group} {is : Instances}
    (hg : g.Allotted c.instances.count) (hn : is.count = c.instances.count) :
    Allotted { c with groups := putGroup name g c.groups, instances := is } := by
  intro other g' ho
  change g'.Allotted is.count
  rw [get?_putGroup] at ho
  rw [hn]
  split at ho
  · cases ho; exact hg
  · exact h other g' ho

theorem opens {t : EntityType} (h : c.Allotted) (ho : Opens t c c') : c'.Allotted := by
  intro name g hg
  rw [ho.instances]
  rcases ho.group_cases hg with hg | ⟨hslots, hfree⟩
  · exact h name g hg
  · exact ⟨by simp [hslots, hfree], by simp [hfree], fun hm => by simp [Group.Holds, hslots] at hm⟩

end Cache.Allotted

namespace Action

variable {c c' : Cache}

section Attach

theorem Joined.allotted {t : EntityType} {id : InstanceId} {state : EntityState}
    {strategy : MergeStrategy} {temp : Option Value} (h : c.Allotted)
    (hid : id < c.instances.count) (hj : Joined t id state strategy c temp c') :
    c'.Allotted ∧ Grows c c' := by
  cases hj with
  | refused ho => exact ⟨h.opens ho, ho.grows⟩
  | withdrawn ho =>
    exact ⟨(h.opens ho).of_groups rfl (Nat.le_of_eq (by rw [ho.instances]; rfl)), Nat.le_refl _⟩
  | joined ho hg _ ha =>
    have hcount := ha.count
    have hgroup := h.opens ho _ _ hg
    rw [ho.instances] at hgroup
    refine ⟨(h.opens ho).keep ?_ (by rw [ho.instances, hcount]), Nat.le_of_eq hcount.symm⟩
    rw [ho.instances]
    exact hgroup.attached hid ha

theorem attach_allots (h : c.Allotted) {id : InstanceId} (hid : id < c.instances.count)
    (state : EntityState) (strategy : Option MergeStrategy) :
    (attach id state strategy).KeepsAt Allotted Grows c := by
  rcases attach_cases id state strategy c with hsame | hj | ⟨-, p, v, keys, -, hj⟩
  · exact .of_unmoved (Prod.ext rfl hsame) h
  · obtain ⟨hallotted, hgrows⟩ := hj.allotted h hid
    exact ⟨hallotted, hgrows⟩
  · have hmarked : (withTempKey c id p v keys).Allotted := h.of_groups rfl (Nat.le_refl _)
    obtain ⟨hallotted, hgrows⟩ := hj.allotted hmarked hid
    exact ⟨hallotted, hgrows⟩

theorem arrive_allots (strategy : MergeStrategy) (t : EntityType) (node : Json) :
    (arrive strategy t node).Keeps Allotted Grows := by
  intro c h
  exact arrive_keepsAt (.of_on (on_addInstance _ c) (h.of_groups rfl (Nat.le_succ _))
    (Nat.le_succ _)) fun hd hid => attach_allots hd hid _ _

end Attach

section Detach

theorem change_allots (id : InstanceId) (f : Entity → Except Fault Entity) :
    (change id f).Keeps Allotted Grows := by
  intro c h
  cases hf : f (c.entity id) with
  | error fault => exact .of_unmoved (by rw [on_change, hf]) h
  | ok e =>
    exact .of_on (on_change_ok hf) (h.of_groups rfl (Nat.le_refl _)) (Nat.le_refl _)

theorem detach_allots (id : InstanceId) : (detach id).Keeps Allotted Grows := by
  intro c h
  rcases detach_cases id c with ⟨fault, -, ha⟩ | ⟨g, g', is, keys, hg, hd, ha⟩
  · exact .of_unmoved ha h
  · have hcount : is.count = c.instances.count := by
      obtain ⟨-, -, -, -, -, -, rfl⟩ := Group.detach_spec hd
      rfl
    exact .of_on ha ((h.keep ((h _ g hg).detached hd) hcount).of_groups rfl (Nat.le_refl _))
      (Nat.le_of_eq hcount.symm)

/-- Detaching and changing is all that settles an entity. -/
theorem delete_allots (id : InstanceId) : (delete id).Keeps Allotted Grows :=
  fun c h => delete_keepsAt (fun _ => detach_allots id c h) fun _ => change_allots id _ c h

theorem acceptEntity_allots (id : InstanceId) : (acceptEntity id).Keeps Allotted Grows :=
  fun c h => acceptEntity_keepsAt h (fun _ => detach_allots id c h) fun _ =>
    change_allots id _ c h

theorem rejectEntity_allots (id : InstanceId) : (rejectEntity id).Keeps Allotted Grows :=
  fun c h => rejectEntity_keepsAt h (fun _ => detach_allots id c h) fun _ =>
    change_allots id _ c h

theorem settle_allots (id : InstanceId) : (settle id).Keeps Allotted Grows :=
  fun c h => settle_keepsAt h (fun _ => detach_allots id c h) fun _ => change_allots id _ c h

theorem clear_allots : clear.Keeps Allotted Grows := fun c _ =>
  .of_on rfl (fun _ _ hg => by cases hg)
    (Nat.le_of_eq (detached_all (c.entities none none) c.instances).1.symm)

theorem create_allots (typeName : String) : (create typeName).Keeps Allotted Grows := by
  refine .get_bind fun c h => .lift_bind h fun t _ => ?_
  split
  · exact .of_unmoved rfl h
  · refine .of_on rfl (h.of_groups rfl ?_) ?_ <;> simp [Grows]

end Detach

section Keys

theorem cascade_allots (old new : Value) (refs : List (String × String)) :
    (cascade old new refs).Keeps Allotted Grows := by
  refine Keeps.forM fun (name, property) _ => .get_bind fun c h => ?_
  dsimp only
  cases hg : c.groups.get? name with
  | none => exact .of_unmoved rfl h
  | some g =>
    refine .lift_bind h fun ⟨n, g', is⟩ hu => ?_
    obtain ⟨hslots, hfree, hcount⟩ := Group.updateForeignKey_slots hu
    exact .of_on rfl (h.keep ((h name g hg).of_slots hslots hfree) hcount)
      (Nat.le_of_eq hcount.symm)

theorem fixupKey_allots (typeName : String) (temp real : Value) :
    (fixupKey typeName temp real).Keeps Allotted Grows := by
  refine .get_bind fun c h => .lift_bind h fun t _ => .bind_of_ok (on_get c) ?_
  dsimp only
  cases hg : c.groups.get? t.name with
  | none => exact .of_unmoved rfl h
  | some g =>
    refine .lift_bind h fun ⟨id, g', is⟩ hf => ?_
    have hfixed := Group.fixup_spec hf
    obtain ⟨hfree, hcount⟩ := hfixed.free_count
    have hkeep : (keep t.name g' is).KeepsAt Allotted Grows c :=
      .of_on rfl (h.keep ((h _ g hg).of_slots hfixed.slots hfree) hcount)
        (Nat.le_of_eq hcount.symm)
    refine hkeep.bind fun _ => ?_
    rw [Entity.key_eq]
    refine fun c h => .bind_of_ok (on_lift (.ok _) c) ?_
    have hrelease : ∀ v, (release t.name v).Keeps Allotted Grows := fun v c h =>
      .of_on rfl (h.of_groups rfl (Nat.le_refl _)) (Nat.le_refl _)
    exact (hrelease _).bind (fun _ => (cascade_allots _ _ _).bind fun _ => .pure id) c h

theorem mergeSaved_allots (node : Json) : (mergeSaved node).Keeps Allotted Grows := fun c h =>
  have hw := mergeSaved_rewrites node c
  ⟨h.of_groups hw.groups (Nat.le_of_eq hw.count.symm), Nat.le_of_eq hw.count.symm⟩

end Keys

end Action

end EntityCache
