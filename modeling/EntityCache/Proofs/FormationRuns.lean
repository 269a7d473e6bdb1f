import EntityCache.Proofs.KeyWrites
import EntityCache.Proofs.OperationParts

/-! Runs keep a cache in shape, also the ones that harm an index. So a cache that operations
have led to is sound as soon as its indexes are right. -/
namespace EntityCache

open Cache EntityCache.Action

namespace Action

variable {catalog : Catalog} {c c' : Cache}

/-- Changes of an entity that its form survives. -/
def Reforms (f : Entity → Except Fault Entity) : Prop :=
  ∀ e e', f e = .ok e' → e'.type = e.type ∧ (e.Complete → e'.Complete)

theorem change_forms (id : InstanceId) {f : Entity → Except Fault Entity} (hf : Reforms f) :
    (change id f).Keeps (FormedIn catalog) Grows := by
  intro c hc
  cases he : f (c.entity id) with
  | error fault => exact .of_unmoved (by rw [on_change, he]) hc
  | ok e =>
    obtain ⟨ht, hp⟩ := hf _ e he
    exact .of_on (on_change_ok he) ⟨hc.formed.edited rfl rfl (.put ht hp), hc.catalog⟩
      (Nat.le_refl _)

theorem keep_forms (hc : c.FormedIn catalog) {name : String} {g g' : Group} {is : Instances}
    (hg : c.groups.get? name = some g) (ha : g'.Allotted c.instances.count)
    (ht : g'.type = g.type) (he : g'.index.names.Nodup)
    (hs : ∀ {slot id}, g'.Holds slot id → (c.entity id).type = g.type)
    (hr : c.instances.Reshapes is) {keys : TempKeys} :
    FormedIn catalog { c with groups := putGroup name g' c.groups, instances := is, keys } :=
  ⟨(hc.formed.replaced hg ha ht he hs).edited rfl rfl hr, hc.catalog⟩

theorem detach_forms (id : InstanceId) : (detach id).Keeps (FormedIn catalog) Grows := by
  intro c hc
  rcases detach_cases id c with ⟨fault, -, h⟩ | ⟨g, g', is, keys, hg, hd, h⟩
  · exact .of_unmoved h hc
  · have hr := Group.detach_reshapes hd
    have ha := (hc.formed.allotted _ _ hg).detached hd
    have htyped : ∀ {slot i}, g'.Holds slot i → (c.entity i).type = g.type := fun hm =>
      hc.formed.typed hg ((Group.detach_slots hd).1 hm)
    obtain ⟨key, slot, -, -, -, rfl, -⟩ := Group.detach_spec hd
    exact .of_on h (keep_forms hc hg ha rfl (Table.nodup_erase (hc.formed.entered hg) _)
      htyped hr) (Nat.le_of_eq hr.count.symm)

section Attach

theorem Joined.forms {t : EntityType} {id : InstanceId} {state : EntityState}
    {strategy : MergeStrategy} {temp : Option Value} (hc : c.FormedIn catalog)
    (hid : id < c.instances.count) (ht : (c.entity id).type = t)
    (hj : Joined t id state strategy c temp c') : c'.FormedIn catalog ∧ Grows c c' := by
  have hreg : c.catalog.type? t.name = some t := by
    rw [← ht]
    exact hc.formed.known id hid
  cases hj with
  | refused ho => exact ⟨⟨hc.formed.opens ho hreg, ho.catalog.trans hc.catalog⟩, ho.grows⟩
  | @withdrawn c₁ p _ keys ho =>
    have hr : c₁.instances.Reshapes (c.instances.put id (Action.withdrawn (c.entity id) p)) := by
      rw [ho.instances]
      exact .put rfl fun hp => Entity.Complete.write hp p.name _
    exact ⟨⟨(hc.formed.opens ho hreg).edited rfl rfl hr, ho.catalog.trans hc.catalog⟩,
      Nat.le_refl _⟩
  | @joined c₁ _ cached g g' is ho hg _ ha =>
    have hf := hc.formed.opens ho hreg
    have hallotted := hf.allotted _ _ hg
    have hr := ha.reshapes
    have hgt : g.type = t := Option.some.inj
      ((hf.registered hg).symm.trans (by rw [ho.catalog]; exact hreg))
    rw [← ho.instances] at ha hr hid
    have htyped : ∀ {slot i}, g'.Holds slot i → (c₁.entity i).type = g.type := by
      intro slot i hm
      cases ha with
      | placed =>
        obtain ⟨_, hholds⟩ := hallotted.holds_place_iff (c₁.instances.entity id).keyText id
        rcases (hholds _ _).mp hm with ⟨-, rfl⟩ | hm
        · rw [hgt, entity, ho.instances]
          exact ht
        · exact hf.typed hg hm
      | _ => exact hf.typed hg hm
    have hentered : g'.index.names.Nodup := by
      cases ha with
      | placed =>
        obtain ⟨_, -, hindex, -⟩ := Group.place_spec hallotted.free_iff hallotted.free_nodup
          (c₁.instances.entity id).keyText id
        rw [hindex]
        exact Table.nodup_put (hf.entered hg) _ _
      | _ => exact hf.entered hg
    have htype : g'.type = g.type := by
      cases ha with
      | placed => unfold Group.place; split <;> rfl
      | _ => rfl
    have hgrows : Grows c₁ { c₁ with groups := putGroup t.name g' c₁.groups, instances := is } :=
      Nat.le_of_eq hr.count.symm
    exact ⟨keep_forms ⟨hf, ho.catalog.trans hc.catalog⟩ hg (hallotted.attached hid ha) htype
      hentered htyped hr, IsTrans.trans _ _ _ ho.grows hgrows⟩

theorem attach_forms (hc : c.FormedIn catalog) {id : InstanceId} (hid : id < c.instances.count)
    (state : EntityState) (strategy : Option MergeStrategy) :
    (attach id state strategy).KeepsAt (FormedIn catalog) Grows c := by
  rcases attach_cases id state strategy c with hsame | hj | ⟨-, p, v, keys, -, hj⟩
  · exact .of_unmoved (Prod.ext rfl hsame) hc
  · obtain ⟨hforms, hgrows⟩ := hj.forms hc hid rfl
    exact ⟨hforms, hgrows⟩
  · have hmarked : (withTempKey c id p v keys).FormedIn catalog :=
      ⟨hc.formed.edited rfl rfl (.put rfl fun hp => Entity.Complete.write hp p.name v),
        hc.catalog⟩
    obtain ⟨hforms, hgrows⟩ := hj.forms hmarked hid (type_withTempKey id p v keys)
    exact ⟨hforms, hgrows⟩

theorem addInstance_forms {e : Entity} (ht : catalog.type? e.type.name = some e.type)
    (he : e.Complete) : (addInstance e).Keeps (FormedIn catalog) Grows := fun c hc =>
  .of_on (on_addInstance e c) ⟨hc.formed.added (by rwa [hc.catalog]) he, hc.catalog⟩
    (Nat.le_succ _)

theorem arrive_forms (strategy : MergeStrategy) {t : EntityType}
    (ht : catalog.type? t.name = some t) (node : Json) :
    (arrive strategy t node).Keeps (FormedIn catalog) Grows := by
  obtain ⟨htype, hcomplete⟩ := Entity.ofNode_spec t node
  intro c hc
  exact arrive_keepsAt (addInstance_forms (by rwa [htype]) hcomplete c hc)
    fun hd hid => attach_forms hd hid _ _

end Attach

section Settle

theorem reforms_of_values {f : Entity → Except Fault Entity}
    (hf : ∀ e e', f e = .ok e' → e'.type = e.type ∧ e'.values = e.values) : Reforms f := by
  intro e e' he
  obtain ⟨ht, hv⟩ := hf e e' he
  refine ⟨ht, fun hc p hp => ?_⟩
  rw [ht] at hp
  rw [Entity.get?, hv]
  exact hc p hp

theorem moveTo_same {e e' : Entity} {next : EntityState} (h : e.moveTo next = .ok e') :
    e'.type = e.type ∧ e'.values = e.values := by
  unfold Entity.moveTo at h
  split at h <;> cases h
  exact ⟨rfl, rfl⟩

theorem markUnchanged_same {e e' : Entity} (h : e.markUnchanged = .ok e') :
    e'.type = e.type ∧ e'.values = e.values := by
  obtain ⟨u, hm, rfl⟩ := map_ok h
  exact ⟨(moveTo_same hm).1, (moveTo_same hm).2⟩

theorem markDeleted_same {e e' : Entity} (h : e.markDeleted = .ok e') :
    e'.type = e.type ∧ e'.values = e.values := by
  unfold Entity.markDeleted at h
  split at h
  · cases h
    exact ⟨rfl, rfl⟩
  · cases h
  · exact moveTo_same h

theorem reforms_markUnchanged : Reforms Entity.markUnchanged :=
  reforms_of_values fun _ _ => markUnchanged_same

theorem reforms_markModified : Reforms Entity.markModified :=
  reforms_of_values fun _ _ => moveTo_same

theorem reforms_markDeleted : Reforms Entity.markDeleted :=
  reforms_of_values fun _ _ => markDeleted_same

theorem reforms_acceptChanges : Reforms fun e => .ok e.acceptChanges :=
  reforms_of_values fun e e' he => by
    cases he
    exact ⟨rfl, rfl⟩

theorem complete_restored (originals : Table Value) {e : Entity} (hc : e.Complete) :
    Entity.Complete { e with
      values := originals.foldl (fun values o => values.put o.1 o.2) e.values } := by
  induction originals generalizing e with
  | nil => exact hc
  | cons o originals ih => exact ih (hc.write o.1 o.2)

theorem reforms_rejectChanges : Reforms fun e => .ok e.rejectChanges := by
  intro e e' he
  cases he
  exact ⟨rfl, complete_restored e.originals⟩

theorem reforms_set (name : String) (v : Value) : Reforms (·.set name v) := by
  intro e e' he
  have hwritten : ∀ w,
      (e.write name w).type = e.type ∧ (e.Complete → (e.write name w).Complete) :=
    fun w => ⟨rfl, fun hc => hc.write name w⟩
  have hrecorded : ∀ (w : Entity) (old : Value), (w.recordEdit name old).type = w.type ∧
      (w.Complete → (w.recordEdit name old).Complete) := by
    intro w old
    unfold Entity.recordEdit
    split <;> exact ⟨rfl, fun hc => hc⟩
  obtain ⟨p, -, -, -, rfl⟩ := Entity.set_eq_ok_iff.mp he
  split
  · exact hwritten _
  · exact ⟨(hrecorded _ _).1.trans (hwritten _).1,
      fun hc => (hrecorded _ _).2 ((hwritten _).2 hc)⟩

theorem clear_forms : clear.Keeps (FormedIn catalog) Grows := by
  intro c hc
  obtain ⟨hcount, htype, hvalues⟩ := detached_all (c.entities none none) c.instances
  have hr : c.instances.Reshapes ((c.entities none none).foldl
      (fun is id => is.put id (is.entity id).markDetached) c.instances) := by
    refine ⟨hcount, htype, fun id hp p hm => ?_⟩
    rw [htype id] at hm
    rw [Entity.get?, hvalues id]
    exact hp p hm
  have hempty : Formed { c with groups := [] } := by
    have hnone : ∀ {name g}, Table.get? ([] : Table Group) name ≠ some g := fun hg => by cases hg
    exact ⟨fun _ _ hg => absurd hg hnone, fun hg => absurd hg hnone, fun hg => absurd hg hnone,
      fun hg => absurd hg hnone, fun hg => absurd hg hnone, List.Pairwise.nil, hc.formed.known,
      hc.formed.complete, hc.formed.distinct⟩
  exact .of_on rfl ⟨hempty.edited rfl rfl hr, hc.catalog⟩ (Nat.le_of_eq hcount.symm)

theorem create_forms (typeName : String) : (create typeName).Keeps (FormedIn catalog) Grows :=
  create_keepsAll
    (fun _ _ hc => ⟨⟨hc.formed.edited rfl rfl (.freeze _ _), hc.catalog⟩, by simp [Grows]⟩)
    fun _ t hc ht => addInstance_forms (hc.type?_of_find ht) (Entity.complete_new t)

end Settle

section Keys

theorem rekey_forms (hc : c.FormedIn catalog) {t : EntityType} {temp real : Value}
    {id : InstanceId} (h : c.rekey t temp real = .ok (id, c')) :
    c'.FormedIn catalog ∧ Grows c c' := by
  obtain ⟨g, g', is, hg, hfixed, rfl⟩ := rekey_writes h
  obtain ⟨hfree, hcount⟩ := hfixed.free_count
  have hshape : g'.type = g.type ∧ g'.index.names.Nodup := by
    cases hfixed with
    | unmarked => exact ⟨rfl, hc.formed.entered hg⟩
    | rekeyed => exact ⟨rfl, Table.nodup_foldl_put _ _ _
        (Table.nodup_foldl_erase _ _ (hc.formed.entered hg))⟩
  exact ⟨keep_forms hc hg ((hc.formed.allotted _ _ hg).of_slots hfixed.slots hfree) hshape.1
    hshape.2 (fun hm => hc.formed.typed hg ((Group.holds_congr hfixed.slots).mp hm))
    hfixed.reshapes, Nat.le_of_eq hcount.symm⟩

theorem follow_forms (hc : c.FormedIn catalog) {old new : Value} {r : String × String}
    (h : c.follow old new r = .ok c') : c'.FormedIn catalog ∧ Grows c c' := by
  unfold follow at h
  cases hg : c.groups.get? r.1 with
  | none =>
    rw [hg] at h
    cases h
    exact ⟨hc, Nat.le_refl _⟩
  | some g =>
    rw [hg] at h
    obtain ⟨⟨n, g', is⟩, hu, rfl⟩ := map_ok h
    obtain ⟨hslots, hfree, hcount⟩ := Group.updateForeignKey_slots hu
    obtain ⟨hr, ht, he⟩ := Group.updateForeignKey_reshapes hu
    exact ⟨keep_forms hc hg ((hc.formed.allotted _ _ hg).of_slots hslots hfree) ht
      (he (hc.formed.entered hg))
      (fun hm => hc.formed.typed hg ((Group.holds_congr hslots).mp hm)) hr,
      Nat.le_of_eq hcount.symm⟩

theorem fixupKey_forms (typeName : String) (temp real : Value) :
    (fixupKey typeName temp real).Keeps (FormedIn catalog) Grows := fun _ hc =>
  fixupKey_keepsAll hc fun _ _ _ _ hr =>
    ⟨rekey_forms hc hr, fun _ _ _ _ hd hf => follow_forms hd hf⟩

theorem mergeSaved_forms (node : Json) : (mergeSaved node).Keeps (FormedIn catalog) Grows := by
  intro c hc
  have hw := mergeSaved_rewrites node c
  exact ⟨⟨hc.formed.edited hw.catalog hw.groups ⟨hw.count, hw.type, hw.complete⟩,
    hw.catalog.trans hc.catalog⟩, Nat.le_of_eq hw.count.symm⟩

end Keys

end Action

namespace Cache

variable {catalog : Catalog} {c : Cache}

theorem next_forms (hc : c.FormedIn catalog) {op : Op} (he : op.Enabled c) :
    (c.next op).FormedIn catalog := by
  have hsettle : ∀ id, SettlingKeeps (FormedIn catalog) Grows id := fun id =>
    ⟨detach_forms id, change_forms id reforms_acceptChanges⟩
  have hreject : ∀ id, RejectingKeeps (FormedIn catalog) Grows id := fun id =>
    ⟨detach_forms id, change_forms id reforms_rejectChanges⟩
  suffices h : op.PartsKeep (FormedIn catalog) Grows c from (Op.keeps_of_parts h hc).holds
  cases op with
  | create typeName => exact create_forms typeName c hc
  | attach id state strategy => exact attach_forms hc (he id (by simp [Op.handles])) state strategy
  | add id => exact attach_forms hc (he id (by simp [Op.handles])) .added none
  | delete id => exact ⟨detach_forms id, change_forms id reforms_markDeleted⟩
  | detach id => exact detach_forms id
  | acceptEntity id => exact hsettle id
  | rejectEntity id => exact hreject id
  | acceptChanges => exact fun id _ => hsettle id
  | rejectChanges => exact fun id _ => hreject id
  | fixupKey typeName temp real => exact fixupKey_forms typeName temp real c hc
  | importResults payload q adapter =>
    exact importResults_keeps (fun hc => hc.type?_self) hc
      (fun _ node ht => arrive_forms _ ht node) payload
  | applySave saved result =>
    exact ⟨fun m _ => fixupKey_forms m.typeName m.temp m.real, fun id _ => hsettle id,
      fun node _ => mergeSaved_forms node⟩
  | clear => exact clear_forms c hc
  | set id name v => exact change_forms id (reforms_set name v) c hc
  | markUnchanged id => exact change_forms id reforms_markUnchanged c hc
  | markModified id => exact change_forms id reforms_markModified c hc

theorem run_forms (hc : c.FormedIn catalog) {ops : List Op} (hv : c.Valid ops) :
    (c.run ops).FormedIn catalog := by
  induction ops generalizing c with
  | nil => exact hc
  | cons op rest ih => exact ih (next_forms hc hv.1) hv.2

/-- Whatever operations have led to a cache, it is sound as soon as its indexes are right. -/
theorem run_sound_of_indexed (hr : catalog.Registered) (settings : Settings) (supply : Supply)
    (builders : UriBuilders) (service : Service) {ops : List Op}
    (hv : (start catalog settings supply builders service).Valid ops)
    (hi : ((start catalog settings supply builders service).run ops).Indexed) :
    ((start catalog settings supply builders service).run ops).Sound := by
  have hstart := sound_start hr settings supply builders service
  exact (run_forms ⟨hstart.sound.formed, hstart.catalog⟩ hv).formed.sound hi

/-- Customers and their orders, links of two customers, and notes, which write the name of
the type of customers with its namespace. -/
def sales : Catalog where
  types := [
    { name := "Customer"
      nameSpace := some "Sales"
      dataProperties := [
        { name := "id", serverName := some "id", dataType := .int32, isKey := true },
        { name := "name", serverName := some "name", dataType := .string }]
      navigationProperties := [
        { name := "orders", serverName := some "orders", target := "Order", isScalar := false }] },
    { name := "Order"
      version := ⟨0, 1⟩
      dataProperties := [
        { name := "id", serverName := some "id", dataType := .int32, isKey := true },
        { name := "customerId", serverName := some "customerId", dataType := .int32 }]
      navigationProperties := [
        { name := "customer", serverName := some "customer", target := "Customer",
          foreignKeys := ["customerId"] }] },
    { name := "Link"
      version := ⟨0, 2⟩
      dataProperties := [
        { name := "a", serverName := some "a", dataType := .int32, isKey := true },
        { name := "b", serverName := some "b", dataType := .int32, isKey := true }]
      navigationProperties := [
        { name := "first", serverName := some "first", target := "Customer",
          foreignKeys := ["a"] },
        { name := "second", serverName := some "second", target := "Customer",
          foreignKeys := ["b"] }] },
    { name := "Note"
      version := ⟨0, 3⟩
      dataProperties := [
        { name := "id", serverName := some "id", dataType := .int32, isKey := true },
        { name := "customerId", serverName := some "customerId", dataType := .int32 }]
      navigationProperties := [
        { name := "customer", serverName := some "customer", target := "Customer:#Sales",
          foreignKeys := ["customerId"] }] }]
  nextSerial := 4

theorem sales_registered : sales.Registered := by
  let unnamed (t : EntityType) : EntityType :=
    { t with
      dataProperties := t.dataProperties.map ({ · with serverName := none })
      navigationProperties := t.navigationProperties.map ({ · with serverName := none })
      version := ⟨0, 0⟩ }
  have hnone : Catalog.Registered { sales with types := [], nextSerial := 0 } := .empty 0 .none
  have hcustomer : Catalog.Registered
      { sales with types := sales.types.take 1, nextSerial := 1 } :=
    .withType (t := unnamed sales.types[0]) hnone rfl rfl
  have horder : Catalog.Registered { sales with types := sales.types.take 2, nextSerial := 2 } :=
    .withType (t := unnamed sales.types[1]) hcustomer rfl rfl
  have hlink : Catalog.Registered { sales with types := sales.types.take 3, nextSerial := 3 } :=
    .withType (t := unnamed sales.types[2]) horder rfl rfl
  exact .withType (t := unnamed sales.types[3]) hlink rfl rfl

def salesCache : Cache :=
  start sales {} ⟨fun _ => ⟨0, 0⟩, fun _ => .nil⟩ .standard { root := "" }

theorem sound_salesCache : salesCache.SoundIn sales := sound_start sales_registered _ _ _ _

theorem run_keeps_sound (hc : c.SoundIn catalog) {ops : List Op} (hv : c.Valid ops)
    (hh : ∀ n op, ops[n]? = some op → (c.run (ops.take n)).Harmless op) :
    (c.run ops).SoundIn catalog := by
  induction ops generalizing c with
  | nil => exact hc
  | cons first rest ih =>
    refine ih (next_keeps_sound hc hv.1 (hh 0 first rfl)).1 hv.2 fun n op hop => ?_
    exact hh (n + 1) op (by simpa using hop)

/-- The operation is harmless by its form: it undoes nothing, merges nothing that a save
returned, and attaches as Added only what carries no key of a group. -/
def Plain (c : Cache) : Op → Prop
  | .attach id state _ => state = .added → (c.entity id).groupKey = none
  | .add id => (c.entity id).groupKey = none
  | .rejectEntity _ | .rejectChanges | .applySave _ _ => False
  | _ => True

instance decidablePlain (c : Cache) : (op : Op) → Decidable (c.Plain op)
  | .attach _ _ _ => inferInstanceAs (Decidable (_ = _ → _ = _))
  | .add _ => inferInstanceAs (Decidable (_ = _))
  | .rejectEntity _ | .rejectChanges | .applySave _ _ => inferInstanceAs (Decidable False)
  | .create _ | .delete _ | .detach _ | .acceptEntity _ | .acceptChanges | .fixupKey _ _ _
  | .importResults _ _ _ | .clear | .set _ _ _ | .markUnchanged _ | .markModified _ =>
    inferInstanceAs (Decidable True)

theorem Plain.harmless (hc : c.Indexed) {op : Op} (h : c.Plain op) : c.Harmless op := by
  have hnot : ∀ {id}, (c.entity id).groupKey = none → ¬ c.IsCached id := by
    rintro id hnone ⟨_, _, hs⟩
    obtain ⟨key, hkey, -⟩ := hc.labelled hs
    cases hnone.symm.trans hkey
  cases op with
  | attach id state strategy => exact fun hs hcached => absurd hcached (hnot (h hs))
  | add id => exact fun hcached => absurd hcached (hnot h)
  | rejectEntity | rejectChanges | applySave => cases h
  | _ => trivial

def PlainRun (c : Cache) : List Op → Prop
  | [] => True
  | op :: rest => op.Enabled c ∧ c.Plain op ∧ (c.next op).PlainRun rest

instance decidablePlainRun : (c : Cache) → (ops : List Op) → Decidable (c.PlainRun ops)
  | _, [] => inferInstanceAs (Decidable True)
  | c, op :: rest =>
    have := decidablePlainRun (c.next op) rest
    inferInstanceAs (Decidable (_ ∧ _ ∧ _))

theorem PlainRun.sound {ops : List Op} (h : c.PlainRun ops) (hc : c.SoundIn catalog) :
    (c.run ops).SoundIn catalog := by
  induction ops generalizing c with
  | nil => exact hc
  | cons op rest ih =>
    obtain ⟨he, hplain, hrest⟩ := h
    exact ih hrest (next_keeps_sound hc he (hplain.harmless hc.sound.indexed)).1

end Cache

end EntityCache
