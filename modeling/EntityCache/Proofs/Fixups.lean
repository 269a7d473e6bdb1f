import EntityCache.Proofs.Formation

/-! How a temporary key is replaced: the group of the type gives the entity its real key and
the temporary one is forgotten, then one reference after the other is followed. A step that
is refused leaves the cache as it is, but what was done before it stays. -/
namespace EntityCache

open Cache EntityCache.Action

/-- A value as it stands in a key of one part. -/
def EntityType.keyValue (t : EntityType) (v : Value) : Value :=
  match t.keyProperties.head? with
  | some p => p.dataType.coerce v
  | none => v

namespace Entity

def firstKey (e : Entity) : Value := (e.ownKey.values.head?).getD .null

theorem keyText_write_other {e : Entity} {name : String}
    (h : ∀ p ∈ e.type.keyProperties, p.name ≠ name) (v : Value) :
    (e.write name v).keyText = e.keyText :=
  keyText_congr rfl fun p hp => by simp [keyValue, get?_write, h p hp]

def refersTo (e : Entity) (property : String) (v : Value) : Bool :=
  match e.get? property with
  | some held => held.same v
  | none => false

theorem refersTo_iff {e : Entity} {property : String} {v : Value} :
    e.refersTo property v ↔ ∃ held, e.get? property = some held ∧ held.same v := by
  unfold refersTo
  cases e.get? property <;> simp

theorem refersTo_congr {a b : Entity} {property : String}
    (h : a.get? property = b.get? property) (v : Value) :
    a.refersTo property v = b.refersTo property v := by
  rw [refersTo, refersTo, h]

/-- The entity with another value in a property, known to its group by the key it has then. -/
def redirected (e : Entity) (property : String) (v : Value) : Entity :=
  { e.write property v with groupKey := some (e.write property v).keyText }

def redirect (e : Entity) (property : String) (old new : Value) : Entity :=
  if e.refersTo property old then e.redirected property new else e

end Entity

namespace Group

variable {g g' : Group} {is is' : Instances}

theorem mem_holders_iff {property : String} {v : Value} {slot : Nat} {id : InstanceId} :
    (slot, id) ∈ g.holders is property v ↔
      g.Holds slot id ∧ (is.entity id).refersTo property v := by
  rw [← mem_live]
  exact List.mem_filter

theorem frozen_foldl_put {β : Type} (key : β → InstanceId) (f : β → Entity → Entity)
    (xs : List β) (is : Instances) :
    (xs.foldl (fun is x => is.put (key x) (f x (is.entity (key x)))) is).frozen = is.frozen :=
  List.foldlRecOn (motive := fun (is' : Instances) => is'.frozen = is.frozen) xs _ rfl
    fun _ h _ _ => h

theorem Rewritten.frozen {p : DataProperty} {property : String} {old v : Value}
    {moves : List Move} (hr : Rewritten g is p property old v moves g' is') :
    is'.frozen = is.frozen := by
  rw [hr.instances]
  exact (frozen_foldl_put Move.id (fun m e => { e with groupKey := some m.target }) _ _).trans
    (frozen_foldl_put Prod.snd (fun _ e => e.write property v) _ _)

/-- A cascade redirects those in the group, and nobody else. -/
theorem updateForeignKey_redirects (h : g.Sound is) (ht : g.type.DistinctNames)
    {property : String} {old new : Value} {n : Nat}
    (hu : g.updateForeignKey is property old new = .ok (n, g', is')) :
    ∃ p, g.type.dataProperty? property = some p ∧
      (∀ {slot id}, g.Holds slot id → is'.entity id =
        (is.entity id).redirect property old (p.dataType.coerce new)) ∧
      ∀ {id}, (∀ slot, ¬ g.Holds slot id) → is'.entity id = is.entity id := by
  obtain ⟨-, p, moves, hr⟩ := updateForeignKey_spec h hu
  obtain ⟨hout, hin⟩ := hr.entity h
  refine ⟨p, hr.found, fun {slot id} hs => ?_, fun {id} hs => hout id fun hm => ?_⟩
  · unfold Entity.redirect
    by_cases hrefers : (is.entity id).refersTo property old
    · rw [if_pos hrefers, hin (slot, id) (mem_holders_iff.mpr ⟨hs, hrefers⟩)]
      cases hk : p.isKey with
      | true => rfl
      | false =>
        have hkept : ((is.entity id).write property (p.dataType.coerce new)).keyText =
            (is.entity id).keyText := by
          refine Entity.keyText_write_other ?_ _
          rw [h.typed hs]
          exact EntityType.name_ne_of_not_key ht hr.found hk
        unfold Entity.redirected
        rw [hkept, ← h.attached hs]
        rfl
    · rw [if_neg hrefers]
      refine hout id fun hm => hrefers ?_
      obtain ⟨x, hx, rfl⟩ := List.mem_map.mp hm
      exact (mem_holders_iff.mp hx).2
  · obtain ⟨x, hx, rfl⟩ := List.mem_map.mp hm
    exact hs x.1 (mem_holders hx)

end Group

namespace Cache

theorem Sound.type_of_holds {c : Cache} (hc : c.Sound) {name : String} {slot : Nat}
    {id : InstanceId} (hs : c.Holds name slot id) :
    c.catalog.type? name = some (c.entity id).type := by
  obtain ⟨g, hg, hs⟩ := hs
  rw [hc.registered hg, entity, (hc.groups hg).typed hs]

theorem Sound.type_of_registered {c : Cache} (hc : c.Sound) {t : EntityType}
    (ht : c.catalog.type? t.name = some t) {slot : Nat} {id : InstanceId}
    (hs : c.Holds t.name slot id) : (c.entity id).type = t :=
  Option.some.inj ((hc.type_of_holds hs).symm.trans ht)

theorem SoundIn.type_of_holds {catalog : Catalog} {c : Cache} (hc : c.SoundIn catalog)
    {name : String} {slot : Nat} {id : InstanceId} (hs : c.Holds name slot id) :
    catalog.type? name = some (c.entity id).type := hc.catalog ▸ hc.sound.type_of_holds hs

/-- The cache in which an entity has been given its real key, before any reference is
followed. -/
def rekey (t : EntityType) (temp real : Value) (c : Cache) : Except Fault (InstanceId × Cache) :=
  match c.groups.get? t.name with
  | none => .error (.inconsistent (.fixupWithoutGroup t.name))
  | some g => (g.fixupKey c.instances temp real).map fun (id, g', is) =>
      (id, { c with
        groups := putGroup t.name g' c.groups
        instances := is
        keys := c.keys.release t.name (t.keyValue temp) })

def follow (old new : Value) (c : Cache) (r : String × String) : Except Fault Cache :=
  match c.groups.get? r.1 with
  | none => .ok c
  | some g => (g.updateForeignKey c.instances r.2 old new).map fun (_, g', is) =>
      { c with groups := putGroup r.1 g' c.groups, instances := is }

end Cache

namespace Action

variable {c c' : Cache} {t : EntityType} {old new temp real : Value}

def followOne (old new : Value) (r : String × String) : Action PUnit := do
  let c ← get
  match c.groups.get? r.1 with
  | none => pure ()
  | some g =>
    let (_, g, is) ← g.updateForeignKey c.instances r.2 old new
    keep r.1 g is

theorem on_followOne (old new : Value) (r : String × String) (c : Cache) :
    (followOne old new r).on c = match c.follow old new r with
      | .ok c' => (.ok ⟨⟩, c')
      | .error fault => (.error fault, c) := by
  unfold followOne follow
  rw [on_bind_ok (on_get c)]
  cases c.groups.get? r.1 with
  | none => rfl
  | some g =>
    dsimp only
    cases hu : g.updateForeignKey c.instances r.2 old new with
    | error fault => rw [on_bind_error (on_lift _ c)]; rfl
    | ok u => rw [on_bind_ok (on_lift _ c)]; rfl

theorem on_cascade_cons (old new : Value) (r : String × String) (refs : List (String × String))
    (c : Cache) : (cascade old new (r :: refs)).on c =
      match c.follow old new r with
      | .ok c' => (cascade old new refs).on c'
      | .error fault => (.error fault, c) := by
  have hcons : cascade old new (r :: refs) =
      (followOne old new r >>= fun _ => cascade old new refs) := rfl
  rw [hcons, on_bind, on_followOne]
  cases c.follow old new r <;> rfl

theorem on_replaceTempKey (t : EntityType) (refs : List (String × String)) (temp real : Value)
    (c : Cache) : (replaceTempKey t refs temp real).on c =
      match c.rekey t temp real with
      | .error fault => (.error fault, c)
      | .ok (id, c₁) =>
        (((cascade (t.keyValue temp) (c₁.entity id).firstKey refs).on c₁).1.map fun _ => id,
          ((cascade (t.keyValue temp) (c₁.entity id).firstKey refs).on c₁).2) := by
  unfold replaceTempKey rekey
  rw [on_bind_ok (on_get c)]
  cases c.groups.get? t.name with
  | none => rfl
  | some g =>
    dsimp only
    cases hf : g.fixupKey c.instances temp real with
    | error fault => rw [on_bind_error (on_lift _ c)]; rfl
    | ok u =>
      obtain ⟨id, g', is⟩ := u
      rw [on_bind_ok (on_lift _ c)]
      dsimp only [Except.map]
      rw [on_bind_ok (show (keep t.name g' is).on c = _ from rfl), Entity.key_eq,
        on_bind_ok (on_lift _ _)]
      dsimp only
      rw [on_bind_ok (show (release t.name _).on _ = _ from rfl)]
      exact on_map (fun _ => id) (cascade (t.keyValue temp) (is.entity id).firstKey refs) _

end Action

namespace Cache

variable {c c' : Cache} {old new : Value} {r : String × String}

/-- The caches differ at most in indexes and entities: everybody stays where it is. -/
structure Unmoved (c c' : Cache) : Prop where
  rest : c' = { c with groups := c'.groups, instances := c'.instances, keys := c'.keys }
  count : c'.instances.count = c.instances.count
  frozen : c'.instances.frozen = c.instances.frozen
  groups : ∀ {name g}, c.groups.get? name = some g → ∃ g', c'.groups.get? name = some g' ∧
    g'.type = g.type ∧ g'.slots = g.slots ∧ g'.free = g.free
  noGroup : ∀ {name}, c.groups.get? name = none → c'.groups.get? name = none

instance : IsPreorder Cache Unmoved where
  refl c := ⟨rfl, rfl, rfl, fun hg => ⟨_, hg, rfl, rfl, rfl⟩, id⟩
  trans a b c h k := by
    refine ⟨by rw [k.rest, h.rest], k.count.trans h.count, k.frozen.trans h.frozen,
      fun hg => ?_, fun hn => k.noGroup (h.noGroup hn)⟩
    obtain ⟨g₁, hg₁, ht₁, hs₁, hf₁⟩ := h.groups hg
    obtain ⟨g₂, hg₂, ht₂, hs₂, hf₂⟩ := k.groups hg₁
    exact ⟨g₂, hg₂, ht₂.trans ht₁, hs₂.trans hs₁, hf₂.trans hf₁⟩

theorem Unmoved.holds_iff (h : Unmoved c c') {name : String} {slot : Nat} {id : InstanceId} :
    c'.Holds name slot id ↔ c.Holds name slot id := by
  constructor
  · rintro ⟨g', hg', hs⟩
    cases hg : c.groups.get? name with
    | none => cases hg'.symm.trans (h.noGroup hg)
    | some g =>
      obtain ⟨g₁, hg₁, -, hslots, -⟩ := h.groups hg
      obtain rfl := Option.some.inj (hg'.symm.trans hg₁)
      exact ⟨g, hg, (Group.holds_congr hslots).mp hs⟩
  · rintro ⟨g, hg, hs⟩
    obtain ⟨g', hg', -, hslots, -⟩ := h.groups hg
    exact ⟨g', hg', (Group.holds_congr hslots).mpr hs⟩

/-- A group with a successor in its place that everybody has the same slot in. -/
theorem Unmoved.of_keep {name : String} {g g' : Group} {is : Instances} {keys : TempKeys}
    (hg : c.groups.get? name = some g) (ht : g'.type = g.type) (hs : g'.slots = g.slots)
    (hf : g'.free = g.free) (hn : is.count = c.instances.count)
    (hv : is.frozen = c.instances.frozen) :
    Unmoved c { c with groups := putGroup name g' c.groups, instances := is, keys } := by
  refine ⟨rfl, hn, hv, fun {other g₁} ho => ?_, fun {other} ho => ?_⟩ <;> rw [get?_putGroup]
  · by_cases hname : other = name
    · subst hname
      obtain rfl := Option.some.inj (hg.symm.trans ho)
      exact ⟨g', if_pos rfl, ht, hs, hf⟩
    · exact ⟨g₁, by rw [if_neg hname, ho], rfl, rfl, rfl⟩
  · rw [if_neg, ho]
    rintro rfl
    cases hg.symm.trans ho

/-- What following a reference comes to: who is cached under the type named is redirected. -/
structure Followed (old new : Value) (r : String × String) (c c' : Cache) : Prop where
  unmoved : Unmoved c c'
  keys : c'.keys = c.keys
  sound : c'.Sound
  redirects : ∀ {slot id}, c.Holds r.1 slot id → ∃ p,
    (c.entity id).type.dataProperty? r.2 = some p ∧
      c'.entity id = (c.entity id).redirect r.2 old (p.dataType.coerce new)
  others : ∀ {id}, (∀ slot, ¬ c.Holds r.1 slot id) → c'.entity id = c.entity id

theorem Followed.type (h : Followed old new r c c') (id : InstanceId) :
    (c'.entity id).type = (c.entity id).type := by
  by_cases hs : ∃ slot, c.Holds r.1 slot id
  · obtain ⟨slot, hs⟩ := hs
    obtain ⟨p, -, he⟩ := h.redirects hs
    rw [he, Entity.redirect]
    split <;> rfl
  · rw [h.others fun slot hm => hs ⟨slot, hm⟩]

theorem Followed.hasTempKey (h : Followed old new r c c') (id : InstanceId) :
    (c'.entity id).hasTempKey = (c.entity id).hasTempKey := by
  by_cases hs : ∃ slot, c.Holds r.1 slot id
  · obtain ⟨slot, hs⟩ := hs
    obtain ⟨p, -, he⟩ := h.redirects hs
    rw [he, Entity.redirect]
    split <;> rfl
  · rw [h.others fun slot hm => hs ⟨slot, hm⟩]

theorem follow_spec (hc : c.Sound) (h : c.follow old new r = .ok c') :
    Followed old new r c c' := by
  unfold follow at h
  cases hg : c.groups.get? r.1 with
  | none =>
    rw [hg] at h
    cases h
    refine ⟨Std.Refl.refl c, rfl, hc, fun hs => ?_, fun _ => rfl⟩
    obtain ⟨g, hg', -⟩ := hs
    cases hg.symm.trans hg'
  | some g =>
    rw [hg] at h
    obtain ⟨⟨n, g', is⟩, hu, rfl⟩ := map_ok h
    have hgs := hc.groups hg
    have hd := hc.distinct (hc.registered hg)
    obtain ⟨hslots, hfree, hcount⟩ := Group.updateForeignKey_slots hu
    obtain ⟨hs, hedits, ht⟩ := hgs.cascade_call hd hu
    obtain ⟨p, hp, hin, hout⟩ := Group.updateForeignKey_redirects hgs hd hu
    refine ⟨.of_keep hg ht hslots hfree hcount ?_, rfl,
      hc.keep hg hs ht hedits fun hm => ?_, fun {slot id} hm => ?_, fun hm => ?_⟩
    · obtain ⟨-, _, _, hr⟩ := Group.updateForeignKey_spec hgs hu
      exact hr.frozen
    · exact hc.given ⟨g, hg, (Group.holds_congr hslots).mp hm⟩
    · obtain ⟨g₁, hg₁, hm⟩ := hm
      obtain rfl := Option.some.inj (hg.symm.trans hg₁)
      exact ⟨p, by rw [entity, hgs.typed hm, hp], hin hm⟩
    · exact hout fun slot hs => hm slot ⟨g, hg, hs⟩

section Rekey

variable {t : EntityType} {p : DataProperty} {temp real : Value} {id : InstanceId}

/-- What comes of the entity that has the temporary key. Nobody else is written to. -/
structure Rekeyed (t : EntityType) (p : DataProperty) (temp real : Value) (c : Cache)
    (id : InstanceId) (c' : Cache) : Prop where
  unmoved : Unmoved c c'
  keys : c'.keys = c.keys.release t.name (t.keyValue temp)
  sound : c'.Sound
  single : t.keyProperties = [p]
  type : (c.entity id).type = t
  holds : ∃ slot, c.Holds t.name slot id
  held : (c.entity id).keyText = Group.partText p temp
  unmarked : Group.partText p temp = Group.partText p real →
    c'.entity id = { c.entity id with hasTempKey := false }
  settled : Group.partText p temp ≠ Group.partText p real →
    c'.entity id = Group.settledKey (c.entity id) p real
  others : ∀ other ≠ id, c'.entity other = c.entity other

theorem rekey_spec (hc : c.Sound) (ht : c.catalog.type? t.name = some t)
    (h : c.rekey t temp real = .ok (id, c')) : ∃ p, Rekeyed t p temp real c id c' := by
  unfold rekey at h
  cases hg : c.groups.get? t.name with
  | none =>
    rw [hg] at h
    cases h
  | some g =>
    rw [hg] at h
    obtain ⟨⟨i, g', is⟩, hf, hpair⟩ := map_ok h
    cases hpair
    have hgt : g.type = t := Option.some.inj ((hc.registered hg).symm.trans ht)
    have hgs := hc.groups hg
    have hfixed := Group.fixup_spec hf
    obtain ⟨hs, hedits, htype⟩ := hfixed.sound hgs
    have hsound : Sound { c with
        groups := putGroup t.name g' c.groups
        instances := is
        keys := c.keys.release t.name (t.keyValue temp) } :=
      (hc.keep hg hs htype hedits fun hm => hc.given
        ⟨g, hg, (Group.holds_congr hfixed.slots).mp hm⟩).of_same rfl rfl rfl
    have hunmoved : is.frozen = c.instances.frozen → Unmoved c { c with
        groups := putGroup t.name g' c.groups
        instances := is
        keys := c.keys.release t.name (t.keyValue temp) } :=
      .of_keep hg htype hfixed.slots hfixed.free_count.1 hfixed.free_count.2
    have hheld : ∀ {p slot}, g.Holds slot id → g.index.get? (Group.partText p temp) = some slot →
        (c.entity id).keyText = Group.partText p temp := by
      intro p slot hm hi
      obtain ⟨other, ho, hk⟩ := (hgs.index_iff _ _).mp hi
      rwa [hm.unique ho]
    cases hfixed with
    | @unmarked p slot _ hp hm hi heq =>
      exact ⟨p, hunmoved rfl, rfl, hsound, hgt ▸ hp, hgt ▸ hgs.typed hm, ⟨slot, g, hg, hm⟩,
        hheld hm hi, fun _ => by simp [entity, Group.clearMarker], fun hne => absurd heq hne,
        fun other hother => by simp [entity, Group.clearMarker, hother]⟩
    | @rekeyed p slot _ hp hm hi hn =>
      refine ⟨p, hunmoved rfl, rfl, hsound, hgt ▸ hp, hgt ▸ hgs.typed hm, ⟨slot, g, hg, hm⟩,
        hheld hm hi, fun heq => ?_, fun _ => by simp [entity],
        fun other hother => by simp [entity, hother]⟩
      rw [heq, hn] at hi
      cases hi

theorem Rekeyed.keyValue (h : Rekeyed t p temp real c id c') (v : Value) :
    t.keyValue v = p.dataType.coerce v := by
  rw [EntityType.keyValue, h.single]
  rfl

theorem Rekeyed.hasTempKey (h : Rekeyed t p temp real c id c') :
    (c'.entity id).hasTempKey = false := by
  by_cases heq : Group.partText p temp = Group.partText p real
  · rw [h.unmarked heq]
  · rw [h.settled heq]
    rfl

/-- Where the key stays the same only the marker goes, and the key is forgotten. -/
theorem rekey_same (hc : c.Sound) (ht : c.catalog.type? t.name = some t)
    (hsame : (t.keyValue temp).keyText = (t.keyValue real).keyText)
    (h : c.rekey t temp real = .ok (id, c')) :
    c' = { c with
      instances := Group.clearMarker c.instances id
      keys := c.keys.release t.name (t.keyValue temp) } := by
  unfold rekey at h
  cases hg : c.groups.get? t.name with
  | none =>
    rw [hg] at h
    cases h
  | some g =>
    rw [hg] at h
    obtain ⟨⟨i, g', is⟩, hf, hpair⟩ := map_ok h
    cases hpair
    obtain rfl : g.type = t := Option.some.inj ((hc.registered hg).symm.trans ht)
    cases Group.fixup_spec hf with
    | unmarked => rw [putGroup_self hc.ordered hg]
    | @rekeyed p _ _ hp _ hi hn =>
      have hparts : Group.partText p temp = Group.partText p real := by
        simpa [EntityType.keyValue, hp, Group.partText] using hsame
      rw [hparts, hn] at hi
      cases hi

/-- Where the key does change, it is the real one that cascades. -/
theorem Rekeyed.firstKey (h : Rekeyed t p temp real c id c')
    (hne : Group.partText p temp ≠ Group.partText p real) :
    (c'.entity id).firstKey = t.keyValue real := by
  have htype : (Group.settledKey (c.entity id) p real).type.keyProperties = [p] := by
    rw [← h.single, ← h.type]
    rfl
  have hvalue : (Group.settledKey (c.entity id) p real).keyValue p = p.dataType.coerce real := by
    simp [Entity.keyValue, Entity.get?, Group.settledKey, Entity.write, Table.get?_put]
  rw [h.settled hne, h.keyValue, Entity.firstKey, Entity.ownKey, htype, List.map_singleton,
    List.head?_cons, hvalue]
  rfl

end Rekey

section Cascade

/-- What holds before a cascade and after every round of it holds in the end, also where
the cascade breaks off. -/
theorem cascade_preserves {P : Cache → Prop} (old new : Value) (refs : List (String × String))
    (hstep : ∀ {c c' r}, r ∈ refs → c.Sound → Followed old new r c c' → P c → P c')
    (hc : c.Sound) (h : P c) :
    ((cascade old new refs).on c).2.Sound ∧ P ((cascade old new refs).on c).2 := by
  induction refs generalizing c with
  | nil => exact ⟨hc, h⟩
  | cons r refs ih =>
    rw [on_cascade_cons]
    cases hr : c.follow old new r with
    | error fault => exact ⟨hc, h⟩
    | ok c' =>
      have hfollowed := follow_spec hc hr
      exact ih (fun hm => hstep (List.mem_cons_of_mem r hm)) hfollowed.sound
        (hstep List.mem_cons_self hc hfollowed h)

theorem cascade_unmoved (old new : Value) (refs : List (String × String)) (hc : c.Sound) :
    ((cascade old new refs).on c).2.Sound ∧ Unmoved c ((cascade old new refs).on c).2 ∧
      ∀ id, (((cascade old new refs).on c).2.entity id).type = (c.entity id).type :=
  cascade_preserves (P := fun d => Unmoved c d ∧ ∀ id, (d.entity id).type = (c.entity id).type)
    old new refs (fun _ _ hf hd => ⟨IsTrans.trans _ _ _ hd.1 hf.unmoved,
      fun id => (hf.type id).trans (hd.2 id)⟩) hc ⟨Std.Refl.refl c, fun _ => rfl⟩

end Cascade

end Cache

namespace Action

variable {c c' : Cache} {t : EntityType} {typeName : String} {temp real : Value}
  {id : InstanceId}

theorem on_fixupKey (ht : c.catalog.find typeName = .ok t) (temp real : Value) :
    (fixupKey typeName temp real).on c =
      (replaceTempKey t (c.catalog.foreignKeyRefs t.name) temp real).on c := by
  unfold fixupKey
  rw [on_bind_ok (on_get c), ht, on_bind_ok (on_lift _ c)]

/-- Once the entity has the real key only the cascade can fail. -/
theorem replaceTempKey_error_iff {refs : List (String × String)} {c₁ : Cache} {fault : Fault}
    (hr : c.rekey t temp real = .ok (id, c₁)) :
    (replaceTempKey t refs temp real).on c = (.error fault, c') ↔
      (cascade (t.keyValue temp) (c₁.entity id).firstKey refs).on c₁ = (.error fault, c') := by
  rw [on_replaceTempKey, hr]
  dsimp only
  cases (cascade (t.keyValue temp) (c₁.entity id).firstKey refs).on c₁ with
  | mk outcome c₂ => cases outcome <;> simp [Except.map]

/-- A replacement that goes through: the entity takes the real key, and the whole cascade of
what it has in its key by then succeeds. -/
theorem replaceTempKey_steps {refs : List (String × String)} (hc : c.Sound)
    (ht : c.catalog.type? t.name = some t)
    (hok : (replaceTempKey t refs temp real).on c = (.ok id, c')) :
    ∃ p c₁, Rekeyed t p temp real c id c₁ ∧
      (cascade (t.keyValue temp) (c₁.entity id).firstKey refs).on c₁ = (.ok (), c') := by
  rw [on_replaceTempKey] at hok
  cases hr : c.rekey t temp real with
  | error refusal =>
    rw [hr] at hok
    cases hok
  | ok result =>
    obtain ⟨id', c₁⟩ := result
    obtain ⟨p, hrekeyed⟩ := rekey_spec hc ht hr
    rw [hr] at hok
    dsimp only at hok
    cases hcascade : (cascade (t.keyValue temp) (c₁.entity id').firstKey refs).on c₁ with
    | mk outcome c₂ =>
      rw [hcascade] at hok
      cases outcome with
      | error fault => cases hok
      | ok =>
        cases hok
        exact ⟨p, c₁, hrekeyed, hcascade⟩

theorem replaceTempKey_ok {refs : List (String × String)} (hc : c.Sound)
    (ht : c.catalog.type? t.name = some t)
    (hne : (t.keyValue temp).keyText ≠ (t.keyValue real).keyText)
    (hok : (replaceTempKey t refs temp real).on c = (.ok id, c')) :
    ∃ p c₁, Rekeyed t p temp real c id c₁ ∧ Group.partText p temp ≠ Group.partText p real ∧
      (cascade (t.keyValue temp) (t.keyValue real) refs).on c₁ = (.ok (), c') := by
  obtain ⟨p, c₁, hrekeyed, hcascade⟩ := replaceTempKey_steps hc ht hok
  have hparts : Group.partText p temp ≠ Group.partText p real := by
    rw [hrekeyed.keyValue, hrekeyed.keyValue] at hne
    exact hne
  rw [hrekeyed.firstKey hparts] at hcascade
  exact ⟨p, c₁, hrekeyed, hparts, hcascade⟩

end Action

end EntityCache
