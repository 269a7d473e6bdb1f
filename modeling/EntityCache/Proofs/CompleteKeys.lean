import EntityCache.Proofs.LocalEdits
import EntityCache.Proofs.OriginalValues

/-! Keys without a part that is null. Nobody joins the cache without such a key, but joining
is the only call that looks: a key that is assigned, a value that a save returned or one that
a rejection restores may be null and is written all the same. -/
namespace EntityCache

open Cache EntityCache.Action

namespace Entity

variable {e e' : Entity}

section Held

variable {p : DataProperty} {name : String} {v : Value}

theorem held_of_values (hv : e'.values = e.values) (p : DataProperty) : held e' p = held e p := by
  rw [held, get?, hv]
  rfl

theorem held_write (e : Entity) (p : DataProperty) (name : String) (v : Value) :
    held (e.write name v) p = if p.name = name then v else held e p := by
  rw [held, get?_write]
  split <;> rfl

theorem held_receives (hr : Receives name v e e') (p : DataProperty) :
    held e' p = held e p ∨ p.name = name ∧ held e' p = v := by
  rw [held]
  rcases hr.get? p.name with hsame | ⟨hname, hnew⟩
  · exact Or.inl (by rw [hsame]; rfl)
  · exact Or.inr ⟨hname, by rw [hnew]; rfl⟩

theorem held_mergeFrom {source : Entity} (ht : source.type = e.type) (hc : source.Complete)
    (hp : p ∈ e.type.dataProperties) : held (e.mergeFrom source) p = held source p := by
  have hname : p.name ∈ e.type.dataProperties.map (·.name) := List.mem_map_of_mem hp
  obtain ⟨v, hv⟩ := Option.isSome_iff_exists.mp (hc p (ht ▸ hp))
  rw [held, get?_mergeFrom, if_pos hname, held, hv, Option.some_or]

theorem held_rejectChanges (e : Entity) (p : DataProperty) :
    held e.rejectChanges p = held e p ∨ (p.name, held e.rejectChanges p) ∈ e.originals := by
  rw [held]
  rcases e.get?_rejectChanges_or p.name with hsame | ⟨v, hv, hnew⟩
  · exact Or.inl (by rw [hsame]; rfl)
  · exact Or.inr (by rwa [hnew])

/-- What a merged node puts in a property is what it carries for one of that name. -/
theorem held_mergeNode (e : Entity) {t : EntityType} (hd : t.DistinctNames) (node : Json)
    (hp : p ∈ e.type.dataProperties) :
    held (e.mergeFrom (e.withNodeValues t node)) p = held e p ∨
      ∃ q ∈ t.dataProperties, q.name = p.name ∧ ∃ raw, node.field? q.wireName = some raw ∧
        held (e.mergeFrom (e.withNodeValues t node)) p = q.dataType.coerce (Value.ofJson raw) := by
  rw [held, get?_mergeNode hd node (List.mem_map_of_mem hp)]
  cases hv : t.nodeValue? node p.name with
  | none => exact Or.inl rfl
  | some v =>
    obtain ⟨q, hq, hraw⟩ := Option.bind_eq_some_iff.mp hv
    obtain ⟨raw, hf, rfl⟩ := Option.map_eq_some_iff.mp hraw
    obtain ⟨hmem, hname⟩ := EntityType.dataProperty?_some hq
    exact Or.inr ⟨q, hmem, hname, raw, hf, rfl⟩

end Held

def Keyed (e : Entity) : Prop := ∀ p ∈ e.type.keyProperties, (held e p).isNull = false

theorem isComplete_iff (e : Entity) : e.ownKey.isComplete ↔ e.Keyed := by
  simp [EntityKey.isComplete, ownKey, keyValue, DataType.isNull_coerce, Keyed, held]

theorem Keyed.of_values (h : e.Keyed) (ht : e'.type = e.type) (hv : e'.values = e.values) :
    e'.Keyed := by
  intro p hp
  rw [ht] at hp
  rw [held_of_values hv]
  exact h p hp

theorem Keyed.write (h : e.Keyed) {name : String} {v : Value}
    (hv : (∃ p ∈ e.type.keyProperties, p.name = name) → v.isNull = false) :
    (e.write name v).Keyed := by
  intro p hp
  rw [held_write]
  split
  · rename_i hn
    exact hv ⟨p, hp, hn⟩
  · exact h p hp

theorem Keyed.receives (h : e.Keyed) {name : String} {v : Value} (hv : v.isNull = false)
    (hr : Receives name v e e') : e'.Keyed := by
  intro p hp
  rw [hr.type] at hp
  rcases held_receives hr p with hsame | ⟨-, hnew⟩
  · rw [hsame]
    exact h p hp
  · rw [hnew]
    exact hv

theorem Keyed.mergeFrom {source : Entity} (h : source.Keyed) (ht : source.type = e.type)
    (hc : source.Complete) : (e.mergeFrom source).Keyed := by
  intro p hp
  rw [held_mergeFrom ht hc (EntityType.mem_keyProperties.mp hp).1]
  exact h p (ht ▸ hp)

end Entity

namespace Cache

variable {c c' : Cache} {catalog : Catalog} {service : Service}

def KeysComplete (c : Cache) : Prop :=
  ∀ id, c.IsCached id → ∃ k, (c.entity id).key = .ok k ∧ k.isComplete

structure KeyedIn (catalog : Catalog) (service : Service) (c : Cache) : Prop where
  formed : c.FormedIn catalog
  keyed : ∀ {id}, c.IsCached id → (c.entity id).Keyed
  service : c.service = service

theorem KeyedIn.keysComplete (h : c.KeyedIn catalog service) : c.KeysComplete := fun id hid =>
  ⟨_, (c.entity id).key_eq, (c.entity id).isComplete_iff.mpr (h.keyed hid)⟩

theorem KeyedIn.of_kept (h : c.KeyedIn catalog service) (hf : c'.FormedIn catalog)
    (hs : c'.service = c.service) (hcached : ∀ {id}, c'.IsCached id → c.IsCached id)
    (hk : ∀ {id}, c'.IsCached id → (c.entity id).Keyed → (c'.entity id).Keyed) :
    c'.KeyedIn catalog service :=
  ⟨hf, fun hid => hk hid (h.keyed (hcached hid)), hs.trans h.service⟩

/-- A cached entity that is attached as Added counts as one without a key and has no default
to fall back on, and the attempt fails. -/
def WithdrawsKey (c : Cache) (id : InstanceId) (strategy : Option MergeStrategy) : Prop :=
  c.IsCached id ∧ (∃ p, (c.entity id).type.keyProperties = [p] ∧
    isUnset p (held (c.entity id) p) ∧ p.initialValue.isNull) ∧
    ((Action.attach id .added strategy).on c).1.toOption = none

def RestoresNull (c : Cache) (id : InstanceId) : Prop := c.IsCached id ∧
  ∃ p ∈ (c.entity id).type.keyProperties, ∃ v, (p.name, v) ∈ (c.entity id).originals ∧ v.isNull

/-- A saved node says null for a part of the key of the type that it declares. -/
def NullsKey (c : Cache) (node : Json) : Prop :=
  ∃ t u, c.declaredType? c.service.format node = some t ∧ c.catalog.find? t.name = some u ∧
    ∃ p ∈ t.dataProperties, (∃ q ∈ u.keyProperties, q.name = p.name) ∧
      ∃ raw, node.field? p.wireName = some raw ∧ (Value.ofJson raw).isNull

/-- The operations that can leave a null in the key of a cached entity: its own is taken back
when it cannot be added again, its edits are undone, a null is assigned to it as its key or
to one that its key refers to, a save returns null for a part of its key, or it is in a slot
that its group does not know of, where a null can be assigned to it. -/
def Voids (c : Cache) : Op → Prop
  | .attach id state strategy => state = .added ∧ c.WithdrawsKey id strategy
  | .add id => c.WithdrawsKey id none
  | .rejectEntity id => c.RestoresNull id
  | .rejectChanges => ∃ id ∈ c.changes, c.RestoresNull id
  | .fixupKey _ _ real => real.isNull
  | .applySave _ result =>
    (∃ m ∈ result.keyAssignments, m.real.isNull) ∨ ∃ node ∈ result.entities, c.NullsKey node
  | .set id name v => c.IsCached id ∧ (c.entity id).isAttached = false ∧ v.isNull ∧
    ∃ p ∈ (c.entity id).type.keyProperties, p.name = name
  | _ => False

end Cache

namespace Action

variable {c c' : Cache} {catalog : Catalog} {service : Service} {id : InstanceId}

theorem keyed_of_forms {α : Type} {a : Action α} (hf : a.KeepsAt (FormedIn catalog) Grows c)
    (hk : (a.on c).2.FormedIn catalog → (a.on c).2.KeyedIn catalog service) :
    a.KeepsAt (KeyedIn catalog service) Grows c := ⟨hk hf.holds, hf.related⟩

theorem change_keyed (hc : c.KeyedIn catalog service) {f : Entity → Except Fault Entity}
    (hf : Reforms f)
    (hk : c.IsCached id → ∀ e, f (c.entity id) = .ok e → (c.entity id).Keyed → e.Keyed) :
    (change id f).KeepsAt (KeyedIn catalog service) Grows c := by
  refine keyed_of_forms (change_forms id hf c hc.formed) fun hformed => ?_
  rw [on_change] at hformed ⊢
  cases he : f (c.entity id) with
  | error fault => exact hc
  | ok e =>
    rw [he] at hformed
    refine hc.of_kept hformed rfl (fun h => h) fun {other} hid hkeyed => ?_
    by_cases ho : other = id
    · subst ho
      simpa [entity] using hk hid e he hkeyed
    · simpa [entity, ho] using hkeyed

theorem change_keyed_of_values {f : Entity → Except Fault Entity}
    (hf : ∀ e e', f e = .ok e' → e'.type = e.type ∧ e'.values = e.values) :
    (change id f).Keeps (KeyedIn catalog service) Grows := fun _ hc =>
  change_keyed hc (reforms_of_values hf) fun _ e he hkeyed =>
    hkeyed.of_values (hf _ e he).1 (hf _ e he).2

/-- Removing an entity leaves type and values of all entities alone. -/
theorem detach_spares (id : InstanceId) (c : Cache) :
    ((detach id).on c).2.service = c.service ∧
      (∀ other, ((detach id).on c).2.IsCached other → c.IsCached other) ∧
      ∀ other, (((detach id).on c).2.entity other).type = (c.entity other).type ∧
        (((detach id).on c).2.entity other).values = (c.entity other).values := by
  rcases detach_leaves id c with ⟨fault, h⟩ | ⟨c', h, hleft⟩
  · rw [h]
    exact ⟨rfl, fun _ hid => hid, fun _ => ⟨rfl, rfl⟩⟩
  · rw [h]
    refine ⟨hleft.service, fun other hin => ?_, fun other => ?_⟩ <;> by_cases ho : other = id
    · exact ho ▸ hleft.cached
    · exact (hleft.isCached_iff ho).mp hin
    · subst ho
      rw [hleft.entity]
      exact ⟨rfl, rfl⟩
    · rw [hleft.others ho]
      exact ⟨rfl, rfl⟩

theorem detach_keyed (id : InstanceId) : (detach id).Keeps (KeyedIn catalog service) Grows := by
  refine fun c hc => keyed_of_forms (detach_forms id c hc.formed) fun hformed => ?_
  obtain ⟨hservice, hcached, hsame⟩ := detach_spares id c
  exact hc.of_kept hformed hservice (hcached _) fun {other} _ hkeyed =>
    hkeyed.of_values (hsame other).1 (hsame other).2

theorem settling_keyed (id : InstanceId) : SettlingKeeps (KeyedIn catalog service) Grows id :=
  ⟨detach_keyed id, change_keyed_of_values fun _ _ he => by cases he; exact ⟨rfl, rfl⟩⟩

section Reject

theorem Keyed.rejectChanges {e : Entity} (h : e.Keyed)
    (ho : ∀ p ∈ e.type.keyProperties, ∀ v, (p.name, v) ∈ e.originals → v.isNull = false) :
    e.rejectChanges.Keyed := by
  intro p hp
  rcases Entity.held_rejectChanges e p with hsame | hbefore
  · rw [hsame]
    exact h p hp
  · exact ho p hp _ hbefore

/-- Keys are complete, and a rejection of one of these entities leaves them so. -/
def RejectableIn (catalog : Catalog) (service : Service) (ids : List InstanceId) (c : Cache) :
    Prop := c.KeyedIn catalog service ∧ ∀ id ∈ ids, ¬ c.RestoresNull id

theorem restoresNull_of_kept (hcached : c'.IsCached id → c.IsCached id)
    (ht : (c'.entity id).type = (c.entity id).type)
    (ho : ∀ o ∈ (c'.entity id).originals, o ∈ (c.entity id).originals)
    (h : c'.RestoresNull id) : c.RestoresNull id := by
  obtain ⟨hid, p, hp, v, hv, hnull⟩ := h
  exact ⟨hcached hid, p, ht ▸ hp, v, ho _ hv, hnull⟩

theorem rejecting_keyed {ids : List InstanceId} (hid : id ∈ ids) :
    RejectingKeeps (RejectableIn catalog service ids) Grows id := by
  refine ⟨fun c hc => ?_, fun c hc => ?_⟩
  · have hkeyed := detach_keyed id c hc.1
    obtain ⟨-, hcached, hsame⟩ := detach_spares id c
    have hforgets := (detach_carries (R := Entity.Forgets) id c trivial).related
    refine ⟨⟨hkeyed.holds, fun other ho hnull => hc.2 other ho ?_⟩, hkeyed.related⟩
    exact restoresNull_of_kept (hcached other) (hsame other).1 (hforgets other).originals hnull
  · have hkeyed : (change id fun e => .ok e.rejectChanges).KeepsAt (KeyedIn catalog service)
        Grows c := change_keyed hc.1 reforms_rejectChanges fun hcached e he h => by
      cases he
      refine Keyed.rejectChanges h fun p hp v hv => ?_
      by_contra hnull
      exact hc.2 id hid ⟨hcached, p, hp, v, hv, by simpa using hnull⟩
    have hforgets : (change id fun e => .ok e.rejectChanges).KeepsAt (fun _ => True)
        (Carries Entity.Forgets) c :=
      change_carries (fun e e' he => by cases he; exact .of_none rfl) c trivial
    refine ⟨⟨hkeyed.holds, fun other ho hnull => hc.2 other ho ?_⟩, hkeyed.related⟩
    have hon : (change id fun e => .ok e.rejectChanges).on c =
        (.ok (), { c with instances := c.instances.put id (c.entity id).rejectChanges }) :=
      on_change_ok rfl
    refine restoresNull_of_kept ?_ ?_ (hforgets.related other).originals hnull <;> rw [hon]
    · exact fun h => h
    · by_cases ho : other = id
      · subst ho
        simp [entity, Entity.rejectChanges]
      · simp [entity, ho]

end Reject

section Attach

variable {state : EntityState} {strategy : MergeStrategy} {out : Except Fault InstanceId × Cache}

theorem Ended.service_eq (h : Ended c id state strategy out) : out.2.service = c.service := by
  have hprepared : ∀ {temp c₁}, Prepared c id state temp c₁ → c₁.service = c.service := by
    intro temp c₁ hp
    cases hp <;> rfl
  have hopens : ∀ {t : EntityType} {c₁ c₂ : Cache}, Opens t c₁ c₂ → c₂.service = c₁.service := by
    intro t c₁ c₂ ho
    cases ho <;> rfl
  cases h with
  | refused ho => exact hopens ho
  | stranded hp => exact hprepared hp
  | withdrawn hp _ ho => exact (hopens ho).trans (hprepared hp)
  | joined hp ho => exact (hopens ho).trans (hprepared hp)

theorem Prepared.keeps_keyed {temp : Option Value} {c₁ : Cache} (h : Prepared c id state temp c₁)
    {other : InstanceId} (hk : (c.entity other).Keyed) : (c₁.entity other).Keyed := by
  by_cases ho : other = id
  · subst ho
    cases h with
    | keyed => exact hk
    | @drawn p v keys _ hp _ hg =>
      intro q hq
      rw [entity_withTempKey, if_pos rfl] at hq ⊢
      obtain rfl : q = p := List.mem_singleton.mp (hp ▸ hq)
      simpa [held, marked, Entity.get?, Entity.write, Table.get?_put] using generate?_isNull hg
  · rwa [h.others ho]

/-- Who joins has a complete key, and so has who takes over its values. -/
theorem Ended.keyed (h : Ended c id state strategy out) (hc : c.KeyedIn catalog service)
    (hid : id < c.instances.count) (hn : out.1.toOption = none → state = .added →
      c.IsCached id → ∀ p, (c.entity id).type.keyProperties = [p] →
        isUnset p (held (c.entity id) p) → p.initialValue.isNull = false)
    {other : InstanceId} (ho : out.2.IsCached other) : (out.2.entity other).Keyed := by
  have hbefore : other ≠ id → (c.entity other).Keyed := fun hne =>
    hc.keyed ((h.isCached_iff hc.formed.formed.allotted hne).mp ho)
  cases h with
  | refused hopened =>
    obtain ⟨name, slot, hs⟩ := ho
    rw [entity, hopened.instances]
    exact hc.keyed ⟨name, slot, hopened.holds hs⟩
  | stranded hp =>
    obtain ⟨name, slot, hs⟩ := ho
    exact hp.keeps_keyed (hc.keyed ⟨name, slot, hp.holds_iff.mp hs⟩)
  | @withdrawn _ p _ _ c₁ c₂ hp hk hopened =>
    obtain ⟨name, slot, hs⟩ := ho
    have hcached : c.IsCached other := ⟨name, slot, hp.holds_iff.mp (hopened.holds hs)⟩
    have hkeyed := hp.keeps_keyed (hc.keyed hcached)
    by_cases hother : other = id
    · subst hother
      have hinitial : p.initialValue.isNull = false := by
        cases hp with
        | @drawn q _ _ hadded hq hu =>
          obtain rfl : p = q := by simpa using hk.symm.trans hq
          exact hn rfl hadded hcached p hq hu
      have hwritten : ((c₁.entity other).write p.name p.initialValue).Keyed :=
        hkeyed.write fun _ => hinitial
      rw [entity, Instances.entity_put, if_pos rfl]
      exact hwritten.of_values rfl rfl
    · simpa [entity, hother] using hkeyed
  | @joined _ c₁ c₂ g g' is cached hp hopened hg ht _ hcomplete ha =>
    have hnew : (c₁.entity id).Keyed := (Entity.isComplete_iff _).mp hcomplete
    have hother : (c₁.entity other).Keyed := by
      by_cases hself : other = id
      · rwa [hself]
      · exact hp.keeps_keyed (hbefore hself)
    rcases ha.entity_cases other with he | ⟨-, next, groupKey, he⟩ | ⟨⟨-, slot, hs⟩, he⟩
    · rwa [entity, he]
    · rw [entity, he]
      exact hother.of_values rfl rfl
    · have htype := hp.type_eq hc.formed.formed hid hopened hg hs
      have hmerged := hnew.mergeFrom htype (hp.complete (hc.formed.formed.complete id hid))
      rw [entity, he]
      exact hmerged.of_values rfl rfl

theorem attach_keyed (hc : c.KeyedIn catalog service) (hid : id < c.instances.count)
    {strategy : Option MergeStrategy} (hn : state = .added → ¬ c.WithdrawsKey id strategy) :
    (attach id state strategy).KeepsAt (KeyedIn catalog service) Grows c := by
  have hended := attach_ended c id state strategy
  refine keyed_of_forms (attach_forms hc.formed hid state strategy) fun hformed =>
    ⟨hformed, hended.keyed hc hid ?_, hended.service_eq.trans hc.service⟩
  intro hfails hs hcached p hp hu
  subst hs
  by_contra hnull
  exact hn rfl ⟨hcached, ⟨p, hp, hu, by simpa using hnull⟩, hfails⟩

theorem addInstance_keyed {e : Entity} (ht : catalog.type? e.type.name = some e.type)
    (he : e.Complete) : (addInstance e).Keeps (KeyedIn catalog service) Grows := by
  intro c hc
  have hformed := hc.formed.formed.added (e := e) (by rwa [hc.formed.catalog]) he
  refine .of_on (on_addInstance e c) (hc.of_kept ⟨hformed, hc.formed.catalog⟩ rfl (fun h => h) ?_)
    (Nat.le_succ _)
  rintro other ⟨name, slot, g, hg, hs⟩ hkeyed
  have hlt : other < c.instances.count := (hc.formed.formed.allotted name g hg).given hs
  simpa [entity, Instances.add, Nat.ne_of_lt hlt] using hkeyed

theorem create_keyed (typeName : String) :
    (create typeName).Keeps (KeyedIn catalog service) Grows := by
  refine create_keepsAll (fun c v hc => ⟨?_, by simp [Grows]⟩) fun _ t hc ht =>
    addInstance_keyed (hc.formed.type?_of_find ht) (Entity.complete_new t)
  exact hc.of_kept ⟨hc.formed.formed.edited rfl rfl (.freeze _ v), hc.formed.catalog⟩ rfl
    (fun h => h) fun _ h => by simpa [entity] using h

theorem arrive_keyed (strategy : MergeStrategy) {t : EntityType}
    (ht : catalog.type? t.name = some t) (node : Json) :
    (arrive strategy t node).Keeps (KeyedIn catalog service) Grows := by
  obtain ⟨htype, hcomplete⟩ := Entity.ofNode_spec t node
  exact fun c hc => arrive_keepsAt (addInstance_keyed (by rwa [htype]) hcomplete c hc)
    fun hd hid => attach_keyed hd hid fun hs => by cases hs

end Attach

section Keys

variable {t : EntityType} {temp real old new : Value} {r : String × String}

/-- Nobody loses its key to one that is not null, and the entity has a single one. -/
theorem rekey_keyed (hc : c.KeyedIn catalog service) (hreal : real.isNull = false)
    (h : c.rekey t temp real = .ok (id, c')) : c'.KeyedIn catalog service ∧ c'.IsCached id ∧
      ∃ p, (c'.entity id).type.keyProperties = [p] := by
  have hformed := (rekey_forms hc.formed h).1
  obtain ⟨g, g', is, hg, hfixed, rfl⟩ := rekey_writes h
  obtain ⟨p, slot, hp, hs, hothers, htype, -, hvalues⟩ := hfixed.values
  have hholds : ∀ {name slot other}, Cache.Holds { c with
      groups := putGroup t.name g' c.groups, instances := is
      keys := c.keys.release t.name (t.keyValue temp) } name slot other ↔
        c.Holds name slot other := holds_of_slots hg hfixed.slots rfl
  refine ⟨hc.of_kept hformed rfl (fun ⟨name, s, hm⟩ => ⟨name, s, hholds.mp hm⟩) ?_,
    ⟨t.name, slot, hholds.mpr ⟨g, hg, hs⟩⟩, p, ?_⟩
  · intro other _ hkeyed
    by_cases ho : other = id
    · subst ho
      rcases hvalues with hsame | hwritten
      · exact hkeyed.of_values htype hsame
      · have hreal : (p.dataType.coerce real).isNull = false := by rwa [DataType.isNull_coerce]
        exact (hkeyed.write fun _ => hreal).of_values htype hwritten
    · rwa [entity, hothers other ho]
  · rw [entity, htype]
    exact hc.formed.formed.typed hg hs ▸ hp

theorem follow_keyed (hc : c.KeyedIn catalog service) (hnew : new.isNull = false)
    (h : c.follow old new r = .ok c') : c'.KeyedIn catalog service := by
  have hformed := (follow_forms hc.formed h).1
  rcases follow_writes h with rfl | ⟨g, g', is, p, hg, hr, rfl⟩
  · exact hc
  · refine hc.of_kept hformed rfl
      (fun ⟨name, slot, hm⟩ => ⟨name, slot, (holds_of_slots hg hr.slots rfl).mp hm⟩)
      fun {other} _ hkeyed => hkeyed.receives ?_ (hr.receives other)
    rwa [DataType.isNull_coerce]

theorem firstKey_isNull {e : Entity} {p : DataProperty} (hp : e.type.keyProperties = [p])
    (hk : e.Keyed) : e.firstKey.isNull = false := by
  have hheld := hk p (hp ▸ List.mem_singleton_self p)
  simpa [Entity.firstKey, Entity.ownKey, hp, Entity.keyValue, DataType.isNull_coerce, held]
    using hheld

theorem fixupKey_keyed (typeName : String) (temp : Value) (hreal : real.isNull = false) :
    (fixupKey typeName temp real).Keeps (KeyedIn catalog service) Grows := by
  refine fun c hc => fixupKey_keepsAll hc fun t id c₁ _ hr => ?_
  obtain ⟨hkeyed, hcached, p, hp⟩ := rekey_keyed hc hreal hr
  refine ⟨⟨hkeyed, (rekey_forms hc.formed hr).2⟩, fun r _ d d' hd hf => ?_⟩
  exact ⟨follow_keyed hd (firstKey_isNull hp (hkeyed.keyed hcached)) hf,
    (follow_forms hd.formed hf).2⟩

end Keys

section Edit

theorem set_keyed (hc : c.KeyedIn catalog service) {name : String} {v : Value}
    (hn : ¬ c.Voids (.set id name v)) :
    (change id (·.set name v)).KeepsAt (KeyedIn catalog service) Grows c := by
  refine change_keyed hc (reforms_set name v) fun hcached e he hkeyed => ?_
  obtain ⟨p, hp, hkey, -, ht, hget, -⟩ := Entity.set_spec he
  intro q hq
  rw [ht] at hq
  rw [held, hget]
  split
  · rename_i hname
    have hdistinct : (c.entity id).type.DistinctNames := by
      obtain ⟨group, slot, g, hg, hs⟩ := hcached
      rw [hc.formed.formed.typed hg hs]
      exact hc.formed.formed.distinct (hc.formed.formed.registered hg)
    have hfree : (c.entity id).isAttached = false := by
      by_contra hattached
      have hnot := hkey (by simpa using hattached)
      exact EntityType.name_ne_of_not_key hdistinct hp hnot q hq hname
    have hvalue : v.isNull = false := by
      by_contra hnull
      exact hn ⟨hcached, hfree, by simpa using hnull, q, hq, hname⟩
    rwa [Option.getD_some, DataType.isNull_coerce]
  · exact hkeyed q hq

/-- A node is merged into an entity of the type that is found by the name of its own. -/
theorem named?_found (hc : c.Formed) {node : Json} {t : EntityType}
    (h : c.named? node = some (t, id)) : c.declaredType? c.service.format node = some t ∧
      c.catalog.find? t.name = some (c.entity id).type := by
  obtain ⟨u, hd, hfind⟩ := Option.bind_eq_some_iff.mp h
  split at hfind
  · rename_i hf
    cases hfind
    refine ⟨hd, ?_⟩
    unfold find? at hf
    obtain ⟨v, hv, hf⟩ := bind_ok hf
    cases hg : c.groups.get? v.name with
    | none =>
      rw [hg] at hf
      obtain ⟨-, -, hf⟩ := map_ok hf
      cases hf
    | some g =>
      rw [hg] at hf
      obtain ⟨k, -, hf⟩ := map_ok hf
      obtain ⟨slot, -, hs⟩ := Option.bind_eq_some_iff.mp hf
      have hs : g.Holds slot id := Option.join_eq_some_iff.mp hs
      have hfound := Catalog.find_ok hv
      have hgt : g.type = v := Option.some.inj
        ((hc.registered hg).symm.trans (Catalog.type?_of_find? hfound))
      rw [hc.typed hg hs, hgt]
      exact hfound
  · cases hfind

theorem mergeSaved_keyed {node : Json}
    (hn : ∀ c : Cache, c.KeyedIn catalog service → ¬ c.NullsKey node) :
    (mergeSaved node).Keeps (KeyedIn catalog service) Grows := by
  refine fun c hc => keyed_of_forms (mergeSaved_forms node c hc.formed) fun hformed => ?_
  rcases mergeSaved_cases node c with ⟨h, -⟩ | ⟨t, id, hnamed, h⟩
  · rwa [h]
  · rw [h] at hformed ⊢
    obtain ⟨hdeclared, hfound⟩ := named?_found hc.formed.formed hnamed
    obtain ⟨name, -, htype⟩ := Option.bind_eq_some_iff.mp hdeclared
    have hd : t.DistinctNames := hc.formed.formed.distinct htype
    refine hc.of_kept hformed rfl (fun h => h) fun {other} _ hkeyed => ?_
    by_cases ho : other = id
    · subst ho
      rw [entity, Instances.entity_put, if_pos rfl]
      intro q hq
      rcases (c.entity other).held_mergeNode hd node (EntityType.mem_keyProperties.mp hq).1 with
        hsame | ⟨p, hp, hname, raw, hraw, hnew⟩
      · rw [hsame]
        exact hkeyed q hq
      · rw [hnew, DataType.isNull_coerce]
        by_contra hnull
        exact hn c hc ⟨t, _, hdeclared, hfound, p, hp, ⟨q, hq, hname.symm⟩, raw, hraw,
          by simpa using hnull⟩
    · simpa [entity, ho] using hkeyed

end Edit

end Action

namespace Cache

variable {c : Cache} {catalog : Catalog} {service : Service}

theorem nullsKey_of_keyed {d : Cache} (hc : c.KeyedIn catalog service)
    (hd : d.KeyedIn catalog service) {node : Json} (h : d.NullsKey node) : c.NullsKey node := by
  simpa only [NullsKey, declaredType?, hc.formed.catalog, hd.formed.catalog, hc.service,
    hd.service] using h

theorem next_keyed (hc : c.KeyedIn catalog service) {op : Op} (he : op.Enabled c)
    (hn : ¬ c.Voids op) : (c.next op).KeyedIn catalog service := by
  have hchange : ∀ id {f : Entity → Except Fault Entity},
      (∀ e e', f e = .ok e' → e'.type = e.type ∧ e'.values = e.values) →
      (change id f).Keeps (KeyedIn catalog service) Grows := fun _ _ => change_keyed_of_values
  have hparts : op.PartsKeep (KeyedIn catalog service) Grows c →
      (c.next op).KeyedIn catalog service := fun h => (Op.keeps_of_parts h hc).holds
  cases op with
  | create typeName => exact hparts (create_keyed typeName c hc)
  | attach id state strategy =>
    exact hparts (attach_keyed hc (he id (by simp [Op.handles])) fun hs hw => hn ⟨hs, hw⟩)
  | add id =>
    exact hparts (attach_keyed hc (he id (by simp [Op.handles])) fun _ hw => hn hw)
  | delete id => exact hparts ⟨detach_keyed id, hchange id fun _ _ => markDeleted_same⟩
  | detach id => exact hparts (detach_keyed id)
  | acceptEntity id => exact hparts (settling_keyed id)
  | rejectEntity id =>
    have h : (Op.rejectEntity id).action.KeepsAt (RejectableIn catalog service [id]) Grows c :=
      Op.keeps_of_parts (rejecting_keyed List.mem_cons_self)
        ⟨hc, by simpa using show ¬ c.RestoresNull id from hn⟩
    exact h.holds.1
  | acceptChanges => exact hparts fun id _ => settling_keyed id
  | rejectChanges =>
    have h : Op.rejectChanges.action.KeepsAt (RejectableIn catalog service c.changes) Grows c :=
      Op.keeps_of_parts (fun id hid => rejecting_keyed hid)
        ⟨hc, fun id hid hr => hn ⟨id, hid, hr⟩⟩
    exact h.holds.1
  | fixupKey typeName temp real =>
    exact hparts (fixupKey_keyed typeName temp (by simpa [Voids] using hn) c hc)
  | importResults payload q adapter =>
    exact hparts (importResults_keeps (fun hc => hc.formed.type?_self) hc
      (fun _ node ht => arrive_keyed _ ht node) payload)
  | applySave saved result =>
    refine hparts ⟨fun m hm => fixupKey_keyed m.typeName m.temp ?_, fun id _ => settling_keyed id,
      fun node hnode => mergeSaved_keyed fun d hd hnull => ?_⟩
    · by_contra hnull
      exact hn (Or.inl ⟨m, hm, by simpa using hnull⟩)
    · exact hn (Or.inr ⟨node, hnode, nullsKey_of_keyed hc hd hnull⟩)
  | clear =>
    obtain ⟨-, htype, hvalues⟩ := detached_all (c.entities none none) c.instances
    refine hparts (keyed_of_forms (clear_forms c hc.formed) fun hformed => ?_)
    refine hc.of_kept hformed rfl ?_ fun {other} _ hkeyed =>
      hkeyed.of_values (htype other) (hvalues other)
    rintro other ⟨name, slot, g, hg, -⟩
    cases hg
  | set id name v => exact hparts (set_keyed hc hn)
  | markUnchanged id => exact hparts (hchange id (fun _ _ => markUnchanged_same) c hc)
  | markModified id => exact hparts (hchange id (fun _ _ => moveTo_same) c hc)

section Fixup

variable {t : EntityType} {p : DataProperty} {temp real : Value} {id : InstanceId} {c₁ c' : Cache}

theorem EntityType.keyValue_isNull (t : EntityType) (v : Value) :
    (t.keyValue v).isNull = v.isNull := by
  unfold EntityType.keyValue
  split
  · exact DataType.isNull_coerce _ v
  · rfl

theorem keyText_of_isNull {v : Value} (h : v.isNull) : v.keyText = "" := by
  cases v with
  | null => rfl
  | _ => cases h

theorem cascade_leaves_null (hc : c₁.Sound) (old : Value) {new : Value}
    (hnew : new.isNull) (refs : List (String × String)) {name : String} {slot : Nat}
    (hs : c₁.Holds name slot id) (hnull : (held (c₁.entity id) p).isNull) :
    let c₂ := ((cascade old new refs).on c₁).2
    c₂.Holds name slot id ∧ (held (c₂.entity id) p).isNull := by
  refine (cascade_preserves (P := fun d => d.Holds name slot id ∧ (held (d.entity id) p).isNull)
    old new refs (fun {d d' r} _ _ hf hd => ⟨hf.unmoved.holds_iff.mpr hd.1, ?_⟩) hc
    ⟨hs, hnull⟩).2
  by_cases hin : ∃ s, d.Holds r.1 s id
  · obtain ⟨s, hin⟩ := hin
    obtain ⟨q, -, he⟩ := hf.redirects hin
    have hq : (q.dataType.coerce new).isNull := by rwa [DataType.isNull_coerce]
    rw [he, Entity.redirect]
    split
    · change (((d.entity id).write r.2 (q.dataType.coerce new)).get? p.name).getD .null |>.isNull
      rw [Entity.get?_write]
      split
      · exact hq
      · exact hd.2
    · exact hd.2
  · rw [hf.others fun s hs => hin ⟨s, hs⟩]
    exact hd.2

/-- A null that replaces another key stays the key of a cached entity. -/
theorem not_keysComplete_of_null (hc : c.SoundIn catalog) {typeName : String}
    (hreal : real.isNull)
    (htemp : ∀ t, catalog.find typeName = .ok t → (t.keyValue temp).keyText ≠ "")
    (hok : ((fixupKey typeName temp real).on c).1 = .ok id) :
    ¬ ((fixupKey typeName temp real).on c).2.KeysComplete := by
  cases ht : c.catalog.find typeName with
  | error fault =>
    unfold fixupKey at hok
    rw [on_bind_ok (on_get c), ht, on_bind_error (on_lift _ c)] at hok
    cases hok
  | ok t =>
    have hreg := Catalog.type?_of_find ht
    have hnew : (t.keyValue real).isNull := by rwa [EntityType.keyValue_isNull]
    have hne : (t.keyValue temp).keyText ≠ (t.keyValue real).keyText := by
      rw [keyText_of_isNull hnew]
      exact htemp t (hc.catalog ▸ ht)
    rw [on_fixupKey ht] at hok ⊢
    obtain ⟨p, c₁, hrekeyed, hparts, hcascade⟩ := replaceTempKey_ok hc.sound hreg hne
      (Prod.ext hok rfl)
    obtain ⟨slot, hs⟩ := hrekeyed.holds
    have hnull : (held (c₁.entity id) p).isNull := by
      rw [hrekeyed.settled hparts]
      simpa [held, Group.settledKey, Entity.get?, Entity.write, Table.get?_put,
        DataType.isNull_coerce] using hreal
    obtain ⟨hin, hheld⟩ := cascade_leaves_null hrekeyed.sound (t.keyValue temp) hnew
      (c.catalog.foreignKeyRefs t.name) (hrekeyed.unmoved.holds_iff.mpr hs) hnull
    obtain ⟨-, -, htype⟩ := cascade_unmoved (t.keyValue temp) (t.keyValue real)
      (c.catalog.foreignKeyRefs t.name) hrekeyed.sound
    have hkey : p ∈ (c₁.entity id).type.keyProperties := by
      have hsettled : (c₁.entity id).type = (c.entity id).type := by
        rw [hrekeyed.settled hparts]
        rfl
      rw [hsettled, hrekeyed.type, hrekeyed.single]
      exact List.mem_singleton_self p
    rw [← htype, hcascade] at hkey
    rw [hcascade] at hin hheld
    intro hkeys
    obtain ⟨k, hk, hcomplete⟩ := hkeys id ⟨t.name, slot, hin⟩
    rw [Entity.key_eq] at hk
    cases hk
    have hkeyed := (Entity.isComplete_iff _).mp hcomplete p hkey
    exact Bool.false_ne_true (hkeyed.symm.trans hheld)

end Fixup

section Runs

variable {settings : Settings} {supply : Supply} {builders : UriBuilders} {ops : List Op}

theorem keyed_start (hr : catalog.Registered) (settings : Settings) (supply : Supply)
    (builders : UriBuilders) (service : Service) :
    (start catalog settings supply builders service).KeyedIn catalog service := by
  have hstart := sound_start hr settings supply builders service
  refine ⟨⟨hstart.sound.formed, hstart.catalog⟩, fun hid => ?_, rfl⟩
  obtain ⟨name, slot, g, hg, -⟩ := hid
  cases hg

/-- As long as no operation voids a key, the keys of all cached entities are complete after
every one. Where the indexes are right, replacing a temporary key by null is such an
operation whenever it succeeds. -/
theorem run_keysComplete (hr : catalog.Registered)
    (hv : (start catalog settings supply builders service).Valid ops)
    (hn : ∀ n op, ops[n]? = some op →
      ¬ ((start catalog settings supply builders service).run (ops.take n)).Voids op) :
    (∀ n ≤ ops.length,
      ((start catalog settings supply builders service).run (ops.take n)).KeysComplete) ∧
    ∀ typeName temp real id,
      let c := (start catalog settings supply builders service).run ops
      c.Indexed → real.isNull →
      (∀ t, catalog.find typeName = .ok t → (t.keyValue temp).keyText ≠ "") →
      ((fixupKey typeName temp real).on c).1 = .ok id →
      ¬ ((fixupKey typeName temp real).on c).2.KeysComplete := by
  have hkeyed : ∀ n ≤ ops.length, ((start catalog settings supply builders service).run
      (ops.take n)).KeyedIn catalog service := by
    refine run_induction (I := fun _ c => c.KeyedIn catalog service)
      (keyed_start hr settings supply builders service) fun n op hop hc => ?_
    rw [next_of_getElem? hop]
    exact next_keyed hc (enabled_of_valid hv hop) (hn n op hop)
  refine ⟨fun n hlen => (hkeyed n hlen).keysComplete, ?_⟩
  intro typeName temp real id c hi hreal htemp hok
  have hsound := run_sound_of_indexed hr settings supply builders service hv hi
  have hcatalog := (run_forms (keyed_start hr settings supply builders service).formed hv).catalog
  exact not_keysComplete_of_null ⟨hsound, hcatalog⟩ hreal htemp hok

/-- A customer that is new has a temporary key, until null replaces it. -/
theorem new_customer_keyed_until_null :
    let ops := [Op.create "Customer", .add 0]
    let c := salesCache.run ops
    salesCache.Valid ops ∧ (∀ n ≤ 2, (salesCache.run (ops.take n)).KeysComplete) ∧ c.Indexed ∧
      ((fixupKey "Customer" (.integer (-1)) .null).on c).1 = .ok 0 ∧
      ¬ ((fixupKey "Customer" (.integer (-1)) .null).on c).2.KeysComplete := by
  intro ops c
  have hv : salesCache.Valid ops := by decide +kernel
  have huncached : ¬ (salesCache.run (ops.take 1)).IsCached 0 := by
    rintro ⟨name, slot, g, hg, -⟩
    cases hg
  have hi : c.Indexed := (run_keeps_sound sound_salesCache hv fun n op hop => by
    match n, hop with
    | 0, hop => cases hop; trivial
    | 1, hop => cases hop; exact fun hcached => absurd hcached huncached).sound.indexed
  have hok : ((fixupKey "Customer" (.integer (-1)) .null).on c).1 = .ok 0 :=
    congrArg Prod.fst (on_of_toOption (by decide +kernel))
  obtain ⟨hkeys, hnull⟩ := run_keysComplete sales_registered hv fun n op hop => by
    match n, hop with
    | 0, hop => cases hop; exact fun h => h
    | 1, hop => cases hop; exact fun h => huncached h.1
  refine ⟨hv, hkeys, hi, hok, hnull "Customer" (.integer (-1)) .null 0 hi rfl (fun t ht => ?_) hok⟩
  cases ht
  decide +kernel

/-- Null becomes the key of a customer that is assigned it and part of the key of a link to
one, it comes back as the key that a customer had before an edit or as what its own is
replaced by when it cannot be added again, and it is merged into the key of a pair. -/
theorem nulls_in_cached_keys :
    let assigned := [Op.create "Customer", .add 0, .fixupKey "Customer" (.integer (-1)) .null]
    let followed := [Op.create "Customer", .add 0, .create "Link", .set 1 "a" (.integer (-1)),
      .set 1 "b" (.integer 2), .attach 1 .unchanged none,
      .applySave [] { keyAssignments := [⟨"Customer", .integer (-1), .null⟩] }]
    let restored := [Op.create "Customer", .markUnchanged 0, .set 0 "id" (.integer 5),
      .attach 0 .unchanged none, .rejectEntity 0]
    let withdrawn := [Op.create "Customer", .set 0 "id" (.integer 0), .attach 0 .unchanged none,
      .create "Customer", .set 1 "id" (.integer (-1)), .attach 1 .unchanged none, .add 0]
    let merged := [Op.create "Pair", .set 0 "a" (.text ""), .set 0 "b" (.text ""),
      .attach 0 .unchanged none, .applySave [] { entities := [.obj
        [("__metadata", .obj [("type", .str "Pair")]), ("a", .null), ("b", .str "")]] }]
    (∀ ops ∈ [assigned, followed, restored, withdrawn],
      salesCache.Valid ops ∧ ¬ (salesCache.run ops).KeysComplete) ∧
    sampleCache.Valid merged ∧ ¬ (sampleCache.run merged).KeysComplete := by
  have hnot : ∀ {c : Cache} (name : String) (id : InstanceId),
      (∃ slots ∈ c.slotsOf name, some id ∈ slots) → (c.entity id).ownKey.isComplete = false →
      ¬ c.KeysComplete := by
    intro c name id hin hnull hkeys
    obtain ⟨slots, hslots, hmem⟩ := hin
    obtain ⟨slot, hs⟩ := List.mem_iff_getElem?.mp hmem
    obtain ⟨k, hk, hcomplete⟩ := hkeys id ⟨name, slot, holds_of_slotsOf hslots hs⟩
    rw [Entity.key_eq] at hk
    cases hk
    exact Bool.false_ne_true (hnull.symm.trans hcomplete)
  intro assigned followed restored withdrawn merged
  refine ⟨fun ops hops => ?_, by decide +kernel,
    hnot "Pair" 0 ⟨[some 0], by decide +kernel, by decide⟩ (by decide +kernel)⟩
  simp only [List.mem_cons, List.not_mem_nil, or_false] at hops
  rcases hops with rfl | rfl | rfl | rfl
  · exact ⟨by decide +kernel,
      hnot "Customer" 0 ⟨[some 0], by decide +kernel, by decide⟩ (by decide +kernel)⟩
  · exact ⟨by decide +kernel,
      hnot "Link" 1 ⟨[some 1], by decide +kernel, by decide⟩ (by decide +kernel)⟩
  · exact ⟨by decide +kernel,
      hnot "Customer" 0 ⟨[some 0], by decide +kernel, by decide⟩ (by decide +kernel)⟩
  · exact ⟨by decide +kernel,
      hnot "Customer" 0 ⟨[some 0, some 1], by decide +kernel, by decide⟩ (by decide +kernel)⟩

end Runs

end Cache

end EntityCache
