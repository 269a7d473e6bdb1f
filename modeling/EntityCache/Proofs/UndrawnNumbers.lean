import EntityCache.Proofs.CompleteKeys
import EntityCache.Proofs.TempKeyDraws

/-! Numbers that are still to be drawn as keys. None of them is the key of anything cached, nor
comes back as one when an edit is undone, as long as what is brought in from outside is not
negative. Only entities from before the generator started over may have such a number. -/
namespace EntityCache

open Cache EntityCache.Action

/-- A single key property, of integers and without a default. It is given a number if it is
unset when its entity is added. -/
structure EntityType.NumberKeyed (t : EntityType) (p : DataProperty) : Prop where
  single : t.keyProperties = [p]
  integer : p.dataType.isInteger
  noDefault : p.default? = none

namespace EntityType.NumberKeyed

variable {t : EntityType} {p q : DataProperty}

theorem mem (h : t.NumberKeyed p) : p ∈ t.dataProperties ∧ p.isKey :=
  mem_keyProperties.mp (h.single ▸ List.mem_singleton_self p)

theorem initialValue (h : t.NumberKeyed p) : p.initialValue = .null := by
  simp [DataProperty.initialValue, h.noDefault, h.mem.2]

theorem coerce (h : t.NumberKeyed p) (v : Value) :
    p.dataType.coerce v = DataType.coerceToInteger v := DataType.coerce_of_isInteger h.integer v

end EntityType.NumberKeyed

section Values

variable {g g' : TempKeys} {v : Value} {text : String} {n : Nat}

def Value.NonNegative (v : Value) : Prop :=
  ∀ i : Int, i < 0 → (DataType.coerceToInteger v).keyText ≠ i.repr

namespace TempKeys

def Undrawn (g : TempKeys) (text : String) : Prop :=
  ∃ i ≤ g.nextNumber.toInt, text = i.repr

theorem Undrawn.earlier (h : g'.Undrawn text)
    (hk : g'.nextNumber.toInt ≤ g.nextNumber.toInt) : g.Undrawn text := by
  obtain ⟨i, hi, htext⟩ := h
  exact ⟨i, hi.trans hk, htext⟩

/-- Read as an integer, the value is no number that is still to be drawn. -/
def Leaves (g : TempKeys) (v : Value) : Prop := ¬ g.Undrawn (DataType.coerceToInteger v).keyText

theorem Leaves.later (h : g.Leaves v) (hk : g'.nextNumber.toInt ≤ g.nextNumber.toInt) :
    g'.Leaves v := fun hundrawn => h (hundrawn.earlier hk)

theorem leaves_null (g : TempKeys) : g.Leaves .null := by
  rintro ⟨i, -, htext⟩
  exact repr_ne_empty i htext.symm

theorem leaves_coerceToInteger : g.Leaves (DataType.coerceToInteger v) ↔ g.Leaves v := by
  rw [Leaves, Leaves, DataType.coerceToInteger_idem]

theorem Counted.leaves (h : g.Counted n) (hv : v.NonNegative) : g.Leaves v := by
  rintro ⟨i, hi, htext⟩
  have hnegative := h.negative
  exact hv i (by omega) htext

theorem leaves_integer {i : Int64} (h : g.nextNumber.toInt < i.toInt) : g.Leaves (.integer i) := by
  rintro ⟨j, hj, htext⟩
  have hsame : i.toInt.repr = j.repr := (Value.keyText_integer i).symm.trans htext
  rw [Int.repr_inj] at hsame
  omega

end TempKeys

end Values

namespace Entity

variable {e e' : Entity} {keys keys' : TempKeys} {p : DataProperty} {name : String} {v : Value}

/-- No number that is still to be drawn is the key, or was it before an edit. -/
def Avoids (e : Entity) (keys : TempKeys) : Prop := ∀ p, e.type.NumberKeyed p →
  keys.Leaves (held e p) ∧ ∀ v, (p.name, v) ∈ e.originals → keys.Leaves v

theorem keyText_numberKeyed (hp : e.type.NumberKeyed p) :
    e.keyText = (DataType.coerceToInteger (held e p)).keyText := by
  rw [keyText_single hp.single, keyValue, hp.coerce]
  rfl

theorem avoids_of_held (ho : e.originals = [])
    (h : ∀ p, e.type.NumberKeyed p → keys.Leaves (held e p)) : e.Avoids keys := fun p hp =>
  ⟨h p hp, fun v hv => by rw [ho] at hv; cases hv⟩

theorem Avoids.later (h : e.Avoids keys)
    (hk : keys'.nextNumber.toInt ≤ keys.nextNumber.toInt) : e.Avoids keys' := fun p hp =>
  ⟨(h p hp).1.later hk, fun v hv => ((h p hp).2 v hv).later hk⟩

theorem Avoids.keyText (h : e.Avoids keys) (hp : e.type.NumberKeyed p) :
    ¬ keys.Undrawn e.keyText := by
  rw [keyText_numberKeyed hp]
  exact (h p hp).1

theorem Avoids.of_values (h : e.Avoids keys) (ht : e'.type = e.type) (hv : e'.values = e.values)
    (ho : ∀ o ∈ e'.originals, o ∈ e.originals) : e'.Avoids keys := by
  intro p hp
  rw [ht] at hp
  refine ⟨?_, fun v hv => (h p hp).2 v (ho _ hv)⟩
  rw [held_of_values hv]
  exact (h p hp).1

theorem Avoids.write (h : e.Avoids keys)
    (hv : ∀ p, e.type.NumberKeyed p → p.name = name → keys.Leaves v) :
    (e.write name v).Avoids keys := by
  intro p hp
  refine ⟨?_, (h p hp).2⟩
  rw [held_write]
  split
  · rename_i hname
    exact hv p hp hname
  · exact (h p hp).1

theorem Avoids.receives (h : e.Avoids keys) (hr : Receives name v e e')
    (hv : ∀ p, e.type.NumberKeyed p → p.name = name → keys.Leaves v) : e'.Avoids keys := by
  intro p hp
  rw [hr.type] at hp
  refine ⟨?_, fun w hw => (h p hp).2 w (hr.originals ▸ hw)⟩
  rcases held_receives hr p with hsame | ⟨hname, hnew⟩
  · rw [hsame]
    exact (h p hp).1
  · rw [hnew]
    exact hv p hp hname

theorem Avoids.mergeFrom {source : Entity} (h : source.Avoids keys) (ht : source.type = e.type)
    (hc : source.Complete) : (e.mergeFrom source).Avoids keys := by
  refine avoids_of_held rfl fun p hp => ?_
  have hp : e.type.NumberKeyed p := hp
  rw [held_mergeFrom ht hc hp.mem.1]
  exact (h p (ht ▸ hp)).1

theorem Avoids.rejectChanges (h : e.Avoids keys) : e.rejectChanges.Avoids keys := by
  refine avoids_of_held rfl fun p hp => ?_
  rcases held_rejectChanges e p with hsame | hbefore
  · rw [hsame]
    exact (h p hp).1
  · exact (h p hp).2 _ hbefore

theorem Avoids.set (h : e.Avoids keys) (hd : e.type.DistinctNames) (he : e.set name v = .ok e')
    (hv : ∀ p, e.type.NumberKeyed p → p.name = name → keys.Leaves v) : e'.Avoids keys := by
  obtain ⟨q, hq, -, -, ht, hget, -⟩ := set_spec he
  obtain ⟨-, horiginals⟩ := set_originals he
  intro p hp
  rw [ht] at hp
  refine ⟨?_, fun w hw => ?_⟩
  · rw [held, hget]
    split
    · rename_i hname
      obtain ⟨hmem, hsame⟩ := EntityType.dataProperty?_some hq
      obtain rfl := EntityType.eq_of_name_eq hd hp.mem.1 hmem (hname.trans hsame.symm)
      rw [Option.getD_some, hp.coerce, TempKeys.leaves_coerceToInteger]
      exact hv p hp hname
    · exact (h p hp).1
  · rcases horiginals _ hw with hbefore | hreplaced
    · exact (h p hp).2 w hbefore
    · obtain ⟨hname, rfl⟩ := Prod.mk.inj hreplaced
      rw [← hname]
      exact (h p hp).1

theorem held_new {t : EntityType} (hd : t.DistinctNames) (hp : p ∈ t.dataProperties) :
    held (Entity.new t) p = p.initialValue := by
  have hnames : (Entity.new t).values.names = t.dataProperties.map (·.name) := by
    simp [Entity.new, Table.names]
  have hd : (Entity.new t).values.names.Nodup := hnames ▸ hd
  rw [held, get?, Table.get?_of_mem hd (List.mem_map.mpr ⟨p, hp, rfl⟩)]
  rfl

theorem avoids_new {t : EntityType} (hd : t.DistinctNames) : (Entity.new t).Avoids keys := by
  refine avoids_of_held rfl fun p hp => ?_
  have hp : t.NumberKeyed p := hp
  rw [held_new hd hp.mem.1, hp.initialValue]
  exact keys.leaves_null

/-- A node says at most for its key what it carries under the name of the key. -/
theorem avoids_ofNode {t : EntityType} (hd : t.DistinctNames) {node : Json}
    (hn : ∀ p, t.NumberKeyed p → ∀ raw, node.field? p.wireName = some raw →
      keys.Leaves (Value.ofJson raw)) : (Entity.ofNode t node).Avoids keys := by
  have htype : (Entity.ofNode t node).type = t := (ofNode_spec t node).1
  refine avoids_of_held (originals_ofNode t node) fun p hp => ?_
  rw [htype] at hp
  rw [held, Entity.ofNode, get?_withNodeValues hd, EntityType.nodeValue?,
    EntityType.dataProperty?_of_mem hd hp.mem.1, Option.bind_some]
  cases hf : node.field? p.wireName with
  | some raw =>
    rw [Option.map_some, Option.some_or, Option.getD_some, hp.coerce,
      TempKeys.leaves_coerceToInteger]
    exact hn p hp raw hf
  | none =>
    rw [Option.map_none, Option.none_or]
    exact (avoids_new hd p hp).1

end Entity

namespace Cache

variable {c c' : Cache} {catalog : Catalog} {service : Service} {n m : Nat} {id : InstanceId}

/-- The numbers that are still to be drawn are kept free: no index has one, and nobody avoids
them any less who is cached or was not among the first `m` entities. -/
structure Reserved (catalog : Catalog) (service : Service) (n m : Nat) (c : Cache) : Prop where
  formed : c.FormedIn catalog
  service : c.service = service
  counted : c.keys.Counted n
  made : m ≤ c.instances.count
  entered : ∀ {name t p text}, catalog.type? name = some t → t.NumberKeyed p →
    (c.slot? name text).isSome → ¬ c.keys.Undrawn text
  avoids : ∀ {id}, id < c.instances.count → c.IsCached id ∨ m ≤ id →
    (c.entity id).Avoids c.keys

namespace Reserved

theorem mono {n' : Nat} (h : c.Reserved catalog service n m) (hn : n ≤ n') :
    c.Reserved catalog service n' m :=
  ⟨h.formed, h.service, h.counted.mono hn, h.made, h.entered, h.avoids⟩

/-- Nothing is drawn and nobody comes in, and keys and index entries that are written avoid
the numbers that are still to be drawn. -/
theorem of_kept (h : c.Reserved catalog service n m) (hf : c'.FormedIn catalog)
    (hs : c'.service = c.service) (hk : c'.keys.nextNumber = c.keys.nextNumber)
    (hcount : c'.instances.count = c.instances.count)
    (hslot : ∀ {name t p text}, catalog.type? name = some t → t.NumberKeyed p →
      (c'.slot? name text).isSome → (c.slot? name text).isSome ∨ ¬ c.keys.Undrawn text)
    (hcached : ∀ {id}, c'.IsCached id → c.IsCached id)
    (havoids : ∀ {id}, c.IsCached id ∨ m ≤ id → (c.entity id).Avoids c.keys →
      (c'.entity id).Avoids c.keys) : c'.Reserved catalog service n m where
  formed := hf
  service := hs.trans h.service
  counted := ⟨hk ▸ h.counted.number, hk ▸ h.counted.negative⟩
  made := hcount ▸ h.made
  entered ht hp htext hundrawn := by
    have hundrawn := hundrawn.earlier (Int.le_of_eq (congrArg Int64.toInt hk))
    rcases hslot ht hp htext with hbefore | hfree
    · exact h.entered ht hp hbefore hundrawn
    · exact hfree hundrawn
  avoids {id} hid hin := by
    have hbefore : c.IsCached id ∨ m ≤ id := hin.imp_left hcached
    exact (havoids hbefore (h.avoids (hcount ▸ hid) hbefore)).later
      (Int.le_of_eq (congrArg Int64.toInt hk))

/-- Entities are written to in their slots. -/
theorem rewritten (h : c.Reserved catalog service n m) (hf : c'.FormedIn catalog)
    (hs : c'.service = c.service) (hk : c'.keys = c.keys)
    (hcount : c'.instances.count = c.instances.count) (hg : c'.groups = c.groups)
    (havoids : ∀ {id}, c.IsCached id ∨ m ≤ id → (c.entity id).Avoids c.keys →
      (c'.entity id).Avoids c.keys) : c'.Reserved catalog service n m := by
  refine h.of_kept hf hs (by rw [hk]) hcount (fun _ _ htext => Or.inl ?_) ?_ havoids
  · rwa [slot?, hg] at htext
  · simp only [IsCached, Holds, hg]
    exact fun hin => hin

end Reserved

/-- The real key of a type whose keys are numbers reads as a negative one, or so does the key
that an entity of another type comes to have and that those which refer to it are given. -/
def AssignsNegative (c : Cache) (typeName : String) (temp real : Value) : Prop :=
  ∃ t, c.catalog.find typeName = .ok t ∧
    ((∃ p, t.NumberKeyed p) ∧ ¬ real.NonNegative ∨
      (¬ ∃ p, t.NumberKeyed p) ∧ ∃ id c₁, c.rekey t temp real = .ok (id, c₁) ∧
        ¬ (c₁.entity id).firstKey.NonNegative)

def SendsNegative (c : Cache) (node : Json) : Prop := ∃ t u p q raw,
  c.declaredType? c.service.format node = some t ∧ c.catalog.find? t.name = some u ∧
    u.NumberKeyed q ∧ p ∈ t.dataProperties ∧ p.name = q.name ∧
    node.field? p.wireName = some raw ∧ ¬ (p.dataType.coerce (Value.ofJson raw)).NonNegative

end Cache

namespace Action

variable {c c' : Cache} {catalog : Catalog} {service : Service} {n m : Nat}
  {id other : InstanceId}

theorem reserved_of_forms {α : Type} {a : Action α} (hf : a.KeepsAt (FormedIn catalog) Grows c)
    (hr : (a.on c).2.FormedIn catalog → (a.on c).2.Reserved catalog service n m) :
    a.KeepsAt (Reserved catalog service n m) Grows c := ⟨hr hf.holds, hf.related⟩

section Edits

theorem change_reserved (hc : c.Reserved catalog service n m) {f : Entity → Except Fault Entity}
    (hf : Reforms f)
    (hk : ∀ e, f (c.entity id) = .ok e → (c.entity id).Avoids c.keys → e.Avoids c.keys) :
    (change id f).KeepsAt (Reserved catalog service n m) Grows c := by
  refine reserved_of_forms (change_forms id hf c hc.formed) fun hformed => ?_
  rw [on_change] at hformed ⊢
  cases he : f (c.entity id) with
  | error fault => exact hc
  | ok e =>
    rw [he] at hformed
    refine hc.rewritten hformed rfl rfl rfl rfl fun {other} _ havoids => ?_
    by_cases ho : other = id
    · subst ho
      simpa [entity] using hk e he havoids
    · simpa [entity, ho] using havoids

theorem change_reserved_of_values {f : Entity → Except Fault Entity}
    (hf : ∀ e e', f e = .ok e' → e'.type = e.type ∧ e'.values = e.values ∧
      ∀ o ∈ e'.originals, o ∈ e.originals) :
    (change id f).Keeps (Reserved catalog service n m) Grows := fun _ hc =>
  change_reserved hc (reforms_of_values fun e e' he => ⟨(hf e e' he).1, (hf e e' he).2.1⟩)
    fun _ he havoids => havoids.of_values (hf _ _ he).1 (hf _ _ he).2.1 (hf _ _ he).2.2

theorem set_reserved (hc : c.Reserved catalog service n m) (hid : id < c.instances.count)
    {name : String} {v : Value} (hv : ∀ p, (c.entity id).type.NumberKeyed p → p.name = name →
      c.keys.Leaves v) :
    (change id (·.set name v)).KeepsAt (Reserved catalog service n m) Grows c :=
  change_reserved hc (reforms_set name v) fun _ he havoids =>
    havoids.set (hc.formed.formed.distinct (hc.formed.formed.known id hid)) he hv

theorem detach_reserved (id : InstanceId) :
    (detach id).Keeps (Reserved catalog service n m) Grows := by
  refine fun c hc => reserved_of_forms (detach_forms id c hc.formed) fun hformed => ?_
  rcases detach_leaves id c with ⟨fault, h⟩ | ⟨c', h, hleft⟩
  · rwa [h]
  · rw [h] at hformed ⊢
    obtain ⟨issued, hkeys⟩ := TempKeys.without_eq c.keys (c.entity id)
    refine hc.of_kept hformed hleft.service (by rw [hleft.keys, hkeys]) hleft.count
      (fun _ _ htext => Or.inl (hleft.indexed htext)) (fun {other} hin => ?_)
      fun {other} _ havoids => ?_
    · by_cases ho : other = id
      · exact ho ▸ hleft.cached
      · exact (hleft.isCached_iff ho).mp hin
    · by_cases ho : other = id
      · subst ho
        rw [hleft.entity]
        exact havoids.of_values rfl rfl fun _ ho => by cases ho
      · rwa [hleft.others ho]

theorem settling_reserved (id : InstanceId) :
    SettlingKeeps (Reserved catalog service n m) Grows id :=
  ⟨detach_reserved id, change_reserved_of_values fun _ _ he => by
    cases he
    exact ⟨rfl, rfl, fun _ ho => by cases ho⟩⟩

theorem rejecting_reserved (id : InstanceId) :
    RejectingKeeps (Reserved catalog service n m) Grows id :=
  ⟨detach_reserved id, fun _ hc => change_reserved hc reforms_rejectChanges fun _ he havoids => by
    cases he
    exact havoids.rejectChanges⟩

end Edits

section Attach

variable {state : EntityState} {strategy : MergeStrategy} {out : Except Fault InstanceId × Cache}
  {temp : Option Value} {c₁ : Cache}

/-- A key that is drawn before an entity joins is no longer to be drawn. -/
theorem Prepared.avoids (h : Prepared c id state temp c₁) (hk : c.keys.Counted n)
    (hn : n < 2 ^ 63 - 1) : c₁.keys.Counted (n + 1) ∧
      c₁.keys.nextNumber.toInt ≤ c.keys.nextNumber.toInt ∧
      ∀ {other}, (c.entity other).Avoids c.keys → (c₁.entity other).Avoids c₁.keys := by
  cases h with
  | keyed => exact ⟨hk.mono (Nat.le_succ n), Int.le_refl _, fun h => h⟩
  | @drawn p v keys hs hp hu hg =>
    obtain ⟨hcounted, hle, hinteger⟩ := hk.generate? hn hg
    refine ⟨hcounted, hle, fun {other} havoids => ?_⟩
    rw [entity_withTempKey]
    split
    · rename_i ho
      subst ho
      have hlater : (c.entity other).Avoids keys := havoids.later hle
      have hwritten : ((c.entity other).write p.name v).Avoids keys := by
        refine hlater.write fun q hq _ => ?_
        obtain rfl : q = p := List.singleton_inj.mp (hq.single.symm.trans hp)
        obtain ⟨rfl, hnext⟩ := hinteger hq.integer
        exact TempKeys.leaves_integer (by omega)
      exact hwritten.of_values rfl rfl fun _ ho => ho
    · exact havoids.later hle

theorem Ended.counted (h : Ended c id state strategy out) (hk : c.keys.Counted n)
    (hn : n < 2 ^ 63 - 1) : out.2.keys.Counted (n + 1) ∧
      out.2.keys.nextNumber.toInt ≤ c.keys.nextNumber.toInt := by
  cases h with
  | refused hopens =>
    rw [hopens.keys]
    exact ⟨hk.mono (Nat.le_succ n), Int.le_refl _⟩
  | stranded hp => exact ⟨(hp.avoids hk hn).1, (hp.avoids hk hn).2.1⟩
  | @withdrawn _ _ _ keys c₁ _ hp _ _ hkeys =>
    obtain ⟨hcounted, hle, -⟩ := hp.avoids hk hn
    subst hkeys
    exact ⟨⟨hcounted.number, hcounted.negative⟩, hle⟩
  | @joined _ _ c₂ _ _ _ _ hp hopens =>
    obtain ⟨hcounted, hle, -⟩ := hp.avoids hk hn
    have hkeys := hopens.keys
    change c₂.keys.Counted (n + 1) ∧ c₂.keys.nextNumber.toInt ≤ _
    rw [hkeys]
    exact ⟨hcounted, hle⟩

/-- Who avoided the numbers that are still to be drawn does so when an entity has joined that
did, also who has taken over its values. -/
theorem Ended.avoids (h : Ended c id state strategy out) (hc : c.Formed)
    (hid : id < c.instances.count) (hk : c.keys.Counted n) (hn : n < 2 ^ 63 - 1)
    (hjoins : (c.entity id).Avoids c.keys) (ho : (c.entity other).Avoids c.keys) :
    (out.2.entity other).Avoids out.2.keys := by
  cases h with
  | @refused _ c' hopens =>
    have he : c'.entity other = c.entity other := congrArg (·.entity other) hopens.instances
    rw [he, hopens.keys]
    exact ho
  | stranded hp => exact (hp.avoids hk hn).2.2 ho
  | @withdrawn _ p _ keys c₁ _ hp hsingle _ hkeys =>
    obtain ⟨-, -, havoids⟩ := hp.avoids hk hn
    have hleft : (c₁.entity other).Avoids keys := by
      rw [hkeys]
      exact (havoids ho).later (Int.le_refl _)
    rw [entity, Instances.entity_put]
    split
    · rename_i heq
      subst heq
      have hwritten : ((c₁.entity other).write p.name p.initialValue).Avoids keys := by
        refine hleft.write fun q hq _ => ?_
        rw [(hp.edits other).1] at hq
        obtain rfl : q = p := List.singleton_inj.mp (hq.single.symm.trans hsingle)
        rw [hq.initialValue]
        exact keys.leaves_null
      exact hwritten.of_values rfl rfl fun _ ho => ho
    · exact hleft
  | @joined _ c₁ c₂ g g' is cached hp hopens hg _ _ _ ha =>
    obtain ⟨-, -, havoids⟩ := hp.avoids hk hn
    have hkeys : c₂.keys = c₁.keys := hopens.keys
    change (is.entity other).Avoids c₂.keys
    rw [hkeys]
    have hother : (c₁.entity other).Avoids c₁.keys := havoids ho
    rcases ha.entity_cases other with he | ⟨-, next, groupKey, he⟩ | ⟨⟨-, slot, hs⟩, he⟩
    · rwa [he]
    · rw [he]
      exact hother.of_values rfl rfl fun _ ho => ho
    · have hsource : (c₁.entity id).Avoids c₁.keys := havoids hjoins
      have hmerged := hsource.mergeFrom (hp.type_eq hc hid hopens hg hs)
        (hp.complete (hc.complete id hid))
      rw [he]
      exact hmerged.of_values rfl rfl fun _ ho => ho

/-- The only key that is indexed anew is the one of the entity that joins. -/
theorem Ended.entered (h : Ended c id state strategy out) (hc : c.Formed)
    (hid : id < c.instances.count) (hk : c.keys.Counted n) (hn : n < 2 ^ 63 - 1)
    (hjoins : (c.entity id).Avoids c.keys) {name text : String} {t : EntityType} {p : DataProperty}
    (ht : c.catalog.type? name = some t) (hp : t.NumberKeyed p)
    (hin : (out.2.slot? name text).isSome) :
    (c.slot? name text).isSome ∨ ¬ out.2.keys.Undrawn text := by
  have hopened : ∀ {temp c₁ c₂}, Prepared c id state temp c₁ → Opens (c.entity id).type c₁ c₂ →
      (c₂.slot? name text).isSome → (c.slot? name text).isSome := by
    intro temp c₁ c₂ hp hopens hin
    rwa [hopens.slot?_eq, slot?, hp.groups] at hin
  cases h with
  | refused hopens =>
    rw [hopens.slot?_eq] at hin
    exact Or.inl hin
  | stranded hp =>
    rw [slot?, hp.groups] at hin
    exact Or.inl hin
  | withdrawn hp _ hopens => exact Or.inl (hopened hp hopens hin)
  | @joined _ c₁ c₂ g g' is cached hprepared hopens hg _ _ _ ha =>
    rw [slot?_of_put rfl] at hin
    split at hin
    · rename_i hname
      have hbefore : (g.index.get? text).isSome → (c.slot? name text).isSome := fun hin => by
        refine hopened hprepared hopens ?_
        rwa [hname, slot?_of_group hg]
      cases ha with
      | placed =>
        obtain ⟨-, -, havoids⟩ := hprepared.avoids hk hn
        obtain ⟨slot, hindex⟩ := g.index_place (c₁.instances.entity id).keyText id
        rw [hindex, Table.get?_put] at hin
        split at hin
        · rename_i htext
          refine Or.inr ?_
          have htype : (c₁.entity id).type = t := by
            rw [(hprepared.edits id).1]
            exact Option.some.inj ((hc.known id hid).symm.trans (hname ▸ ht))
          have hkeys : c₂.keys = c₁.keys := hopens.keys
          change ¬ c₂.keys.Undrawn text
          rw [htext, hkeys]
          exact (havoids hjoins).keyText (htype ▸ hp)
        · exact Or.inl (hbefore hin)
      | _ => exact Or.inl (hbefore hin)
    · exact Or.inl (hopened hprepared hopens hin)

theorem attach_reserved (hc : c.Reserved catalog service n m) (hid : id < c.instances.count)
    (hn : n < 2 ^ 63 - 1) (hjoins : (c.entity id).Avoids c.keys)
    {strategy : Option MergeStrategy} :
    (attach id state strategy).KeepsAt (fun c' => c'.Reserved catalog service (n + 1) m)
      Grows c := by
  have hended := attach_ended c id state strategy
  have hforms := attach_forms hc.formed hid state strategy
  obtain ⟨hcounted, hle⟩ := hended.counted hc.counted hn
  refine ⟨⟨hforms.holds, hended.service_eq.trans hc.service, hcounted,
    hc.made.trans hforms.related, fun ht hp hin hundrawn => ?_, fun {other} hlt hin => ?_⟩,
    hforms.related⟩
  · rw [← hc.formed.catalog] at ht
    rcases hended.entered hc.formed.formed hid hc.counted hn hjoins ht hp hin with hbefore | hfree
    · exact hc.entered (hc.formed.catalog ▸ ht) hp hbefore (hundrawn.earlier hle)
    · exact hfree hundrawn
  · refine hended.avoids hc.formed.formed hid hc.counted hn hjoins ?_
    by_cases ho : other = id
    · rwa [ho]
    · exact hc.avoids (hended.count ▸ hlt)
        (hin.imp_left (hended.isCached_iff hc.formed.formed.allotted ho).mp)

theorem addInstance_reserved (hc : c.Reserved catalog service n m) {e : Entity}
    (ht : catalog.type? e.type.name = some e.type) (he : e.Complete) (havoids : e.Avoids c.keys) :
    (addInstance e).KeepsAt (Reserved catalog service n m) Grows c := by
  have hformed := hc.formed.formed.added (e := e) (by rwa [hc.formed.catalog]) he
  refine .of_on (on_addInstance e c) ⟨⟨hformed, hc.formed.catalog⟩, hc.service, hc.counted,
    Nat.le_succ_of_le hc.made, hc.entered, fun {other} hlt hin => ?_⟩ (Nat.le_succ _)
  by_cases ho : other = c.instances.count
  · subst ho
    simpa [entity, Instances.add] using havoids
  · have hlt : other < c.instances.count := Nat.lt_of_le_of_ne (Nat.lt_succ_iff.mp hlt) ho
    simpa [entity, Instances.add, ho] using hc.avoids hlt hin

theorem create_reserved (typeName : String) :
    (create typeName).Keeps (Reserved catalog service n m) Grows := by
  refine create_keepsAll (fun c v hc => ⟨?_, by simp [Grows]⟩) fun c t hc ht d hd => ?_
  · exact hc.rewritten ⟨hc.formed.formed.edited rfl rfl (.freeze _ v), hc.formed.catalog⟩ rfl rfl
      (by simp) rfl fun _ havoids => by simpa [entity] using havoids
  · have hdistinct : t.DistinctNames := hc.formed.formed.distinct (Catalog.type?_of_find ht)
    exact addInstance_reserved hd (hc.formed.type?_of_find ht) (Entity.complete_new t)
      (Entity.avoids_new hdistinct)

theorem arrive_reserved (hn : n < 2 ^ 63 - 1) (strategy : MergeStrategy) {t : EntityType}
    (ht : catalog.type? t.name = some t) {node : Json} (hnode : ∀ p, t.NumberKeyed p →
      ∀ raw, node.field? p.wireName = some raw → (Value.ofJson raw).NonNegative) :
    (arrive strategy t node).Keeps (Reserved catalog service n m) Grows := by
  intro c hc
  obtain ⟨htype, hcomplete⟩ := Entity.ofNode_spec t node
  have hd : t.DistinctNames := hc.formed.formed.distinct (hc.formed.catalog ▸ ht)
  have havoids : (Entity.ofNode t node).Avoids c.keys :=
    Entity.avoids_ofNode hd fun p hp raw hraw => hc.counted.leaves (hnode p hp raw hraw)
  refine arrive_keepsAt (addInstance_reserved hc (by rwa [htype]) hcomplete havoids)
    fun hc' hid => ?_
  have hattach : (attach c.instances.count .unchanged (some strategy)).KeepsAt
      (Reserved catalog service (n + 1) m) Grows
      { c with instances := (c.instances.add (Entity.ofNode t node)).2 } :=
    attach_reserved hc' hid hn (hc'.avoids hid (Or.inr hc.made))
  have hkeys := (attach_ended { c with instances := (c.instances.add (Entity.ofNode t node)).2 }
    c.instances.count .unchanged (some strategy)).keys_eq (by decide)
  refine ⟨⟨hattach.holds.formed, hattach.holds.service, ?_, hattach.holds.made,
    hattach.holds.entered, hattach.holds.avoids⟩, hattach.related⟩
  rw [hkeys]
  exact hc'.counted

end Attach

section Fixup

variable {t : EntityType} {temp real old new : Value} {r : String × String}

theorem rekey_reserved (hc : c.Reserved catalog service n m) (ht : catalog.type? t.name = some t)
    (hreal : ∀ p, t.NumberKeyed p → c.keys.Leaves real) (h : c.rekey t temp real = .ok (id, c')) :
    c'.Reserved catalog service n m ∧ c'.keys.nextNumber = c.keys.nextNumber ∧
      c'.IsCached id ∧ (c'.entity id).type = t := by
  have hformed := (rekey_forms hc.formed h).1
  obtain ⟨g, g', is, hg, hfixed, rfl⟩ := rekey_writes h
  obtain ⟨p, slot, hp, hs, hothers, htype, horiginals, hvalues⟩ := hfixed.values
  have hgt : g.type = t := Option.some.inj
    ((hc.formed.formed.registered hg).symm.trans (hc.formed.catalog ▸ ht))
  have hid : (c.entity id).type = t := (hc.formed.formed.typed hg hs).trans hgt
  have hholds : ∀ {name slot other}, Cache.Holds { c with
      groups := putGroup t.name g' c.groups, instances := is
      keys := c.keys.release t.name (t.keyValue temp) } name slot other ↔
        c.Holds name slot other := holds_of_slots hg hfixed.slots rfl
  refine ⟨hc.of_kept hformed rfl rfl hfixed.free_count.2 ?_
    (fun ⟨name, s, hm⟩ => ⟨name, s, hholds.mp hm⟩) ?_, rfl,
    ⟨t.name, slot, hholds.mpr ⟨g, hg, hs⟩⟩, htype.trans hid⟩
  · intro name u q text hu hq htext
    rw [slot?_of_put rfl] at htext
    split at htext
    · rename_i hname
      obtain rfl : t = u := Option.some.inj (ht.symm.trans (hname ▸ hu))
      obtain ⟨slot, hk⟩ := Option.isSome_iff_exists.mp htext
      rcases hfixed.index (hgt ▸ hq.single) hk with rfl | hk
      · refine Or.inr ?_
        rw [Group.partText, hq.coerce]
        exact hreal q hq
      · refine Or.inl ?_
        rw [hname, slot?_of_group hg, hk]
        rfl
    · exact Or.inl htext
  · intro other _ havoids
    by_cases ho : other = id
    · subst ho
      have hwritten : ((c.entity other).write p.name (p.dataType.coerce real)).Avoids c.keys := by
        refine havoids.write fun q hq _ => ?_
        rw [hid] at hq
        obtain rfl : q = p := List.singleton_inj.mp (hq.single.symm.trans (hgt ▸ hp))
        rw [hq.coerce, TempKeys.leaves_coerceToInteger]
        exact hreal q hq
      rcases hvalues with hsame | hnew
      · exact havoids.of_values htype hsame fun o ho => by rwa [entity, horiginals] at ho
      · exact hwritten.of_values htype hnew fun o ho => by rwa [entity, horiginals] at ho
    · rwa [entity, hothers other ho]

theorem follow_reserved (hc : c.Reserved catalog service n m) (hnew : c.keys.Leaves new)
    (h : c.follow old new r = .ok c') :
    c'.Reserved catalog service n m ∧ c'.keys.nextNumber = c.keys.nextNumber := by
  have hformed := (follow_forms hc.formed h).1
  rcases follow_writes h with rfl | ⟨g, g', is, p, hg, hr, rfl⟩
  · exact ⟨hc, rfl⟩
  · have htyped : ∀ {slot id}, g.Holds slot id → (c.entity id).type = g.type := fun hs =>
      hc.formed.formed.typed hg hs
    have hd : g.type.DistinctNames :=
      hc.formed.formed.distinct (hc.formed.formed.registered hg)
    -- what is written to a key in the group is read as an integer
    have hwritten : ∀ {id}, (c.entity id).type = g.type → ∀ q, (c.entity id).type.NumberKeyed q →
        q.name = r.2 → c.keys.Leaves (p.dataType.coerce new) := by
      intro id htype q hq hname
      rw [htype] at hq
      obtain ⟨hmem, hsame⟩ := EntityType.dataProperty?_some hr.found
      obtain rfl := EntityType.eq_of_name_eq hd hq.mem.1 hmem (hname.trans hsame.symm)
      rwa [hq.coerce, TempKeys.leaves_coerceToInteger]
    refine ⟨hc.of_kept hformed rfl rfl hr.count ?_
      (fun ⟨name, slot, hm⟩ => ⟨name, slot, (holds_of_slots hg hr.slots rfl).mp hm⟩) ?_, rfl⟩
    · intro name u q text hu hq htext
      rw [slot?_of_put rfl] at htext
      split at htext
      · rename_i hname
        obtain rfl : g.type = u := Option.some.inj
          ((hc.formed.formed.registered hg).symm.trans (by rw [hc.formed.catalog, ← hname, hu]))
        obtain ⟨slot, hk⟩ := Option.isSome_iff_exists.mp htext
        rcases hr.index htyped hk with hk | ⟨s, id, hs, rfl⟩
        · refine Or.inl ?_
          rw [hname, slot?_of_group hg, hk]
          rfl
        · have hid : id < c.instances.count := (hc.formed.formed.allotted _ _ hg).given hs
          have havoids := hc.avoids hid (Or.inl ⟨r.1, s, g, hg, hs⟩)
          exact Or.inr ((havoids.write (hwritten (htyped hs))).keyText (htyped hs ▸ hq))
      · exact Or.inl htext
    · intro id _ havoids
      by_cases hin : ∃ slot, g.Holds slot id
      · obtain ⟨slot, hs⟩ := hin
        exact havoids.receives (hr.receives id) (hwritten (htyped hs))
      · rw [entity, hr.others htyped fun slot hs => hin ⟨slot, hs⟩]
        exact havoids

/-- A fix-up leaves the numbers that are still to be drawn alone if the real key does and what
is handed on to those that refer to it. -/
theorem fixupKey_reserved {typeName : String} (hc : c.Reserved catalog service n m)
    (hn : ¬ c.AssignsNegative typeName temp real) :
    (fixupKey typeName temp real).KeepsAt (Reserved catalog service n m) Grows c := by
  have hkeeps : (fixupKey typeName temp real).KeepsAt (fun d =>
      d.Reserved catalog service n m ∧ d.keys.nextNumber = c.keys.nextNumber) Grows c := by
    refine fixupKey_keepsAll ⟨hc, rfl⟩ fun t id c₁ ht hr => ?_
    have hreg : catalog.type? t.name = some t := hc.formed.type?_of_find ht
    have hreal : ∀ p, t.NumberKeyed p → c.keys.Leaves real := fun p hp => by
      refine hc.counted.leaves ?_
      by_contra hnegative
      exact hn ⟨t, ht, Or.inl ⟨⟨p, hp⟩, hnegative⟩⟩
    obtain ⟨hreserved, hnext, hcached, htype⟩ := rekey_reserved hc hreg hreal hr
    have hnew : c₁.keys.Leaves (c₁.entity id).firstKey := by
      by_cases hkeyed : ∃ p, t.NumberKeyed p
      · obtain ⟨p, hp⟩ := hkeyed
        have hp : (c₁.entity id).type.NumberKeyed p := htype ▸ hp
        have hid : id < c₁.instances.count := by
          obtain ⟨name, slot, g, hg, hs⟩ := hcached
          exact (hreserved.formed.formed.allotted name g hg).given hs
        have havoids := hreserved.avoids hid (Or.inl hcached)
        have hfirst : (c₁.entity id).firstKey =
            DataType.coerceToInteger (held (c₁.entity id) p) := by
          rw [← hp.coerce]
          simp [Entity.firstKey, Entity.ownKey, hp.single, Entity.keyValue, held]
        rw [hfirst, TempKeys.leaves_coerceToInteger]
        exact (havoids p hp).1
      · refine hreserved.counted.leaves ?_
        by_contra hnegative
        exact hn ⟨t, ht, Or.inr ⟨hkeyed, id, c₁, hr, hnegative⟩⟩
    refine ⟨⟨⟨hreserved, hnext⟩, (rekey_forms hc.formed hr).2⟩, fun r _ d d' hd hf => ?_⟩
    have hleaves : d.keys.Leaves (c₁.entity id).firstKey :=
      hnew.later (Int.le_of_eq (congrArg Int64.toInt (hd.2.trans hnext.symm)))
    obtain ⟨hfollowed, hsame⟩ := follow_reserved hd.1 hleaves hf
    exact ⟨⟨hfollowed, hsame.trans hd.2⟩, (follow_forms hd.1.formed hf).2⟩
  exact ⟨hkeeps.holds.1, hkeeps.related⟩

end Fixup

theorem mergeSaved_reserved {node : Json}
    (hn : ∀ c : Cache, c.Reserved catalog service n m → ¬ c.SendsNegative node) :
    (mergeSaved node).Keeps (Reserved catalog service n m) Grows := by
  refine fun c hc => reserved_of_forms (mergeSaved_forms node c hc.formed) fun hformed => ?_
  rcases mergeSaved_cases node c with ⟨h, -⟩ | ⟨t, id, hnamed, h⟩
  · rwa [h]
  · rw [h] at hformed ⊢
    obtain ⟨hdeclared, hfound⟩ := named?_found hc.formed.formed hnamed
    obtain ⟨name, -, htype⟩ := Option.bind_eq_some_iff.mp hdeclared
    have hd : t.DistinctNames := hc.formed.formed.distinct htype
    refine hc.rewritten hformed rfl rfl rfl rfl fun {other} _ havoids => ?_
    by_cases ho : other = id
    · subst ho
      rw [entity, Instances.entity_put, if_pos rfl]
      refine Entity.avoids_of_held rfl fun q hq => ?_
      have hq : (c.entity other).type.NumberKeyed q := hq
      rcases (c.entity other).held_mergeNode hd node hq.mem.1 with
        hsame | ⟨p, hp, hname, raw, hraw, hnew⟩
      · rw [hsame]
        exact (havoids q hq).1
      · rw [hnew]
        refine hc.counted.leaves ?_
        by_contra hnegative
        exact hn c hc ⟨t, _, p, q, raw, hdeclared, hfound, hq, hp, hname, hraw, hnegative⟩
    · simpa [entity, ho] using havoids

end Action

end EntityCache
