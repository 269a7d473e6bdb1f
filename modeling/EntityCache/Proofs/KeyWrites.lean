import EntityCache.Proofs.Fixups

/-! What the replacement of a key writes, also where the indexes are not right: the real key
into the entity that is found under the temporary one, and then one value into each property
that refers to it. States and remembered edits stay as they are. -/
namespace EntityCache

open Cache EntityCache.Action

/-- At most this property has been written, with this value, and the label of the group. -/
structure Entity.Receives (name : String) (v : Value) (e e' : Entity) : Prop where
  type : e'.type = e.type
  state : e'.state = e.state
  originals : e'.originals = e.originals
  hasTempKey : e'.hasTempKey = e.hasTempKey
  get? : ∀ other, e'.get? other = e.get? other ∨ other = name ∧ e'.get? other = some v

namespace Entity.Receives

variable {name : String} {v : Value} {a b d : Entity}

theorem refl (name : String) (v : Value) (e : Entity) : Receives name v e e :=
  ⟨rfl, rfl, rfl, rfl, fun _ => Or.inl rfl⟩

theorem trans (h : Receives name v a b) (k : Receives name v b d) : Receives name v a d where
  type := k.type.trans h.type
  state := k.state.trans h.state
  originals := k.originals.trans h.originals
  hasTempKey := k.hasTempKey.trans h.hasTempKey
  get? other := by
    rcases k.get? other with hk | hk
    · rw [hk]
      exact h.get? other
    · exact Or.inr hk

theorem write (name : String) (v : Value) (e : Entity) : Receives name v e (e.write name v) := by
  refine ⟨rfl, rfl, rfl, rfl, fun other => ?_⟩
  rw [get?_write]
  split
  · rename_i ho
    exact Or.inr ⟨ho, rfl⟩
  · exact Or.inl rfl

end Entity.Receives

/-- Whatever a fold writes to single entities, each of them is related to what it was. -/
theorem Instances.foldl_put_related {β : Type} {r : Entity → Entity → Prop}
    (hrefl : ∀ e, r e e) (htrans : ∀ {a b d}, r a b → r b d → r a d) (key : β → InstanceId)
    {f : β → Entity → Entity} (hf : ∀ x e, r e (f x e)) (xs : List β) (is : Instances)
    (id : InstanceId) : r (is.entity id)
      ((xs.foldl (fun is x => is.put (key x) (f x (is.entity (key x)))) is).entity id) := by
  induction xs generalizing is with
  | nil => exact hrefl _
  | cons x xs ih =>
    refine htrans ?_ (ih _)
    rw [Instances.entity_put]
    split
    · rename_i hid
      rw [hid]
      exact hf x _
    · exact hrefl _

namespace Group

variable {g g' : Group} {is is' : Instances}

theorem get?_applyMoves {ms : List Move} {key : String} {slot : Nat}
    (h : (g.applyMoves ms).index.get? key = some slot) :
    key ∈ ms.map Move.target ∨ g.index.get? key = some slot := by
  by_cases hk : key ∈ ms.map Move.target
  · exact Or.inl hk
  · refine Or.inr ?_
    have hput := Table.get?_foldl_put_of_not_mem Move.target Move.slot ms
      (ms.foldl (fun index m => index.erase m.source) g.index) hk
    rw [applyMoves, hput, Table.get?_foldl_erase Move.source ms g.index key] at h
    split at h
    · cases h
    · exact h

/-- The real key is written into one entity of the group, unless it had it already. -/
theorem FixedUp.values {temp real : Value} {id : InstanceId}
    (hf : FixedUp g is temp real id g' is') : ∃ p slot, g.type.keyProperties = [p] ∧
      g.Holds slot id ∧ (∀ other ≠ id, is'.entity other = is.entity other) ∧
      (is'.entity id).type = (is.entity id).type ∧
      (is'.entity id).originals = (is.entity id).originals ∧
      ((is'.entity id).values = (is.entity id).values ∨ (is'.entity id).values =
        ((is.entity id).write p.name (p.dataType.coerce real)).values) := by
  cases hf with
  | @unmarked p slot _ hp hs =>
    refine ⟨p, slot, hp, hs, fun other ho => ?_, ?_, ?_, Or.inl ?_⟩ <;> simp [clearMarker, *]
  | @rekeyed p slot _ hp hs =>
    refine ⟨p, slot, hp, hs, fun other ho => ?_, ?_, ?_, Or.inr ?_⟩ <;>
      simp [settledKey, Entity.write, *]

theorem FixedUp.index {temp real : Value} {id : InstanceId}
    (hf : FixedUp g is temp real id g' is') {p : DataProperty} (hp : g.type.keyProperties = [p])
    {key : String} {slot : Nat} (hk : g'.index.get? key = some slot) :
    key = partText p real ∨ g.index.get? key = some slot := by
  cases hf with
  | unmarked => exact Or.inr hk
  | @rekeyed q _ _ hq =>
    obtain rfl : q = p := List.singleton_inj.mp (hq.symm.trans hp)
    simpa using get?_applyMoves hk

/-- What a cascade into a group does, whatever its index is like. -/
structure Redirected (g : Group) (is : Instances) (property : String) (new : Value) (g' : Group)
    (is' : Instances) (p : DataProperty) : Prop where
  found : g.type.dataProperty? property = some p
  slots : g'.slots = g.slots
  type : g'.type = g.type
  count : is'.count = is.count
  receives : ∀ id,
    (is.entity id).Receives property (p.dataType.coerce new) (is'.entity id)
  others : (∀ {slot id}, g.Holds slot id → (is.entity id).type = g.type) →
    ∀ {id}, (∀ slot, ¬ g.Holds slot id) → is'.entity id = is.entity id
  index : (∀ {slot id}, g.Holds slot id → (is.entity id).type = g.type) →
    ∀ {key slot}, g'.index.get? key = some slot → g.index.get? key = some slot ∨
      ∃ other id, g.Holds other id ∧
        key = ((is.entity id).write property (p.dataType.coerce new)).keyText

theorem updateForeignKey_writes {property : String} {old new : Value} {n : Nat}
    (hu : g.updateForeignKey is property old new = .ok (n, g', is')) :
    ∃ p, Redirected g is property new g' is' p := by
  have hwritten : ∀ (v : Value) (moves : List Move) (id : InstanceId),
      (is.entity id).Receives property v ((moves.foldl (fun is m =>
        is.put m.id { is.entity m.id with groupKey := some m.target })
          ((g.holders is property old).foldl (fun is x =>
            is.put x.2 ((is.entity x.2).write property v)) is)).entity id) := by
    intro v moves id
    refine .trans (Instances.foldl_put_related (.refl property v) .trans Prod.snd
      (fun _ => .write property v) (g.holders is property old) is id) ?_
    exact Instances.foldl_put_related (.refl property v) .trans Move.id
      (f := fun m e => { e with groupKey := some m.target })
      (fun _ _ => ⟨rfl, rfl, rfl, rfl, fun _ => Or.inl rfl⟩) moves _ id
  have hcount : is'.count = is.count := (updateForeignKey_slots hu).2.2
  have hothers : ∀ (v : Value) (moves : List Move), (∀ m ∈ moves, ∃ slot, g.Holds slot m.id) →
      ∀ {id}, (∀ slot, ¬ g.Holds slot id) → (moves.foldl (fun is m =>
        is.put m.id { is.entity m.id with groupKey := some m.target })
          ((g.holders is property old).foldl (fun is x =>
            is.put x.2 ((is.entity x.2).write property v)) is)).entity id = is.entity id := by
    intro v moves hmoves id hid
    have hunmoved : id ∉ moves.map Move.id := fun hm => by
      obtain ⟨move, hmove, rfl⟩ := List.mem_map.mp hm
      obtain ⟨slot, hs⟩ := hmoves move hmove
      exact hid slot hs
    have hunwritten : id ∉ (g.holders is property old).map Prod.snd := fun hm => by
      obtain ⟨x, hx, rfl⟩ := List.mem_map.mp hm
      exact hid x.1 (mem_holders hx)
    exact (entity_foldl_put_of_not_mem Move.id (fun m e => { e with groupKey := some m.target })
      _ hunmoved).trans
      (entity_foldl_put_of_not_mem Prod.snd (fun _ e => e.write property v) is hunwritten)
  unfold updateForeignKey at hu
  cases hp : g.type.dataProperty? property with
  | none => simp [hp, bind, Except.bind] at hu
  | some p =>
    simp only [hp] at hu
    obtain ⟨q, hq, hu⟩ := bind_ok hu
    cases hq
    split at hu
    · obtain ⟨vacated, -, hu⟩ := bind_ok hu
      obtain ⟨moves, hmoves, hu⟩ := bind_ok hu
      cases hu
      have hplanned : (∀ {slot id}, g.Holds slot id → (is.entity id).type = g.type) →
          moves = (g.holders is property old).map (moveOf is property (p.dataType.coerce new)) :=
        fun ht => (planMoves_spec (fun s i hi => ht (mem_holders hi)) hmoves).1
      refine ⟨p, hp, rfl, rfl, hcount, hwritten _ moves, fun ht id hid => ?_,
        fun ht key slot hk => ?_⟩
      · refine hothers _ moves (fun m hm => ?_) hid
        rw [hplanned ht] at hm
        obtain ⟨x, hx, rfl⟩ := List.mem_map.mp hm
        exact ⟨x.1, mem_holders hx⟩
      rcases get?_applyMoves hk with hm | hk
      · rw [hplanned ht, List.map_map] at hm
        obtain ⟨x, hx, rfl⟩ := List.mem_map.mp hm
        exact Or.inr ⟨x.1, x.2, mem_holders hx, rfl⟩
      · exact Or.inl hk
    · obtain ⟨moves, hmoves, hu⟩ := bind_ok hu
      cases hmoves
      cases hu
      exact ⟨p, hp, rfl, rfl, hcount, hwritten _ [], fun _ _ => hothers _ [] (by simp),
        fun _ _ _ hk => Or.inl hk⟩

end Group

namespace Cache

variable {c c' : Cache} {t : EntityType} {temp real old new : Value} {id : InstanceId}
  {r : String × String}

theorem holds_of_slots {name : String} {g g' : Group} (hg : c.groups.get? name = some g)
    (hs : g'.slots = g.slots) (hc : c'.groups = putGroup name g' c.groups) {other : String}
    {slot : Nat} : c'.Holds other slot id ↔ c.Holds other slot id := by
  simp only [Holds, hc, get?_putGroup]
  split
  · rename_i hname
    subst hname
    simp [hg, Group.holds_congr hs]
  · rfl

theorem rekey_writes (h : c.rekey t temp real = .ok (id, c')) : ∃ g g' is,
    c.groups.get? t.name = some g ∧ Group.FixedUp g c.instances temp real id g' is ∧
      c' = { c with
        groups := putGroup t.name g' c.groups
        instances := is
        keys := c.keys.release t.name (t.keyValue temp) } := by
  unfold rekey at h
  cases hg : c.groups.get? t.name with
  | none =>
    rw [hg] at h
    cases h
  | some g =>
    rw [hg] at h
    obtain ⟨⟨i, g', is⟩, hf, hpair⟩ := map_ok h
    cases hpair
    exact ⟨g, g', is, rfl, Group.fixup_spec hf, rfl⟩

theorem follow_writes (h : c.follow old new r = .ok c') : c' = c ∨
    ∃ g g' is p, c.groups.get? r.1 = some g ∧ Group.Redirected g c.instances r.2 new g' is p ∧
      c' = { c with groups := putGroup r.1 g' c.groups, instances := is } := by
  unfold follow at h
  cases hg : c.groups.get? r.1 with
  | none =>
    rw [hg] at h
    cases h
    exact Or.inl rfl
  | some g =>
    rw [hg] at h
    obtain ⟨⟨n, g', is⟩, hu, rfl⟩ := map_ok h
    obtain ⟨p, hw⟩ := Group.updateForeignKey_writes hu
    exact Or.inr ⟨g, g', is, p, rfl, hw, rfl⟩

end Cache

namespace Action

variable {P : Cache → Prop} {R : Cache → Cache → Prop} [IsPreorder Cache R] {c : Cache}

theorem cascade_keepsAll {old new : Value} {refs : List (String × String)}
    (hfollow : ∀ r ∈ refs, ∀ d d', P d → d.follow old new r = .ok d' → P d' ∧ R d d') :
    (cascade old new refs).Keeps P R := by
  refine Keeps.forM (f := followOne old new) fun r hr d hd => ?_
  cases hf : d.follow old new r with
  | error fault => exact .of_unmoved (by rw [on_followOne, hf]) hd
  | ok d' =>
    obtain ⟨hp, hrel⟩ := hfollow r hr d d' hd hf
    exact .of_on (by rw [on_followOne, hf]) hp hrel

/-- A fix-up keeps what the replacement of the key keeps and every reference that is
followed. -/
theorem fixupKey_keepsAll {typeName : String} {temp real : Value} (hc : P c)
    (h : ∀ t id c₁, c.catalog.find typeName = .ok t → c.rekey t temp real = .ok (id, c₁) →
      (P c₁ ∧ R c c₁) ∧ ∀ r ∈ c.catalog.foreignKeyRefs t.name, ∀ d d', P d →
        d.follow (t.keyValue temp) (c₁.entity id).firstKey r = .ok d' → P d' ∧ R d d') :
    (fixupKey typeName temp real).KeepsAt P R c := by
  cases ht : c.catalog.find typeName with
  | error fault =>
    refine .of_unmoved (r := .error fault) ?_ hc
    unfold fixupKey
    rw [on_bind_ok (on_get c), ht, on_bind_error (on_lift _ c)]
  | ok t =>
    have hon := (on_fixupKey ht temp real).trans (on_replaceTempKey t _ temp real c)
    cases hr : c.rekey t temp real with
    | error fault => exact .of_unmoved (by rw [hon, hr]) hc
    | ok result =>
      obtain ⟨id, c₁⟩ := result
      obtain ⟨⟨hp, hrel⟩, hfollow⟩ := h t id c₁ ht hr
      have hcascade := cascade_keepsAll hfollow c₁ hp
      rw [hr] at hon
      exact .of_on hon hcascade.holds (IsTrans.trans _ _ _ hrel hcascade.related)

end Action

end EntityCache
