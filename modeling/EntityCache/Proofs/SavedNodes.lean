import EntityCache.Cache.SaveBundle
import EntityCache.Proofs.ClauseShapes
import EntityCache.Proofs.EntityChanges
import EntityCache.Proofs.PayloadReferences
import EntityCache.Proofs.Registrations
import EntityCache.Proofs.SavedChanges

/-! What a bundle carries of the entities that are saved. A node is an object, so of two values
under one name only the last one is sent. The names that the server has for the properties of a
type come from their declarations, from the naming of the catalog and from later extensions, and
nothing but them decides whether a value can get lost. -/
namespace EntityCache

open Cache EntityCache.Action
open Registration (declared latest)

namespace Json

theorem lookup_cons (name other : String) (v : Json) (fields : List (String × Json)) :
    ((name, v) :: fields).lookup other = if other = name then some v else fields.lookup other := by
  rw [List.lookup_cons]
  by_cases h : other = name
  · simp [h]
  · simp [h, beq_eq_false_iff_ne.mpr h]

theorem lookup_insertField (name other : String) (v : Json) (fields : List (String × Json)) :
    (insertField name v fields).lookup other =
      if other = name then some v else fields.lookup other := by
  induction fields with
  | nil => exact lookup_cons name other v []
  | cons f rest ih =>
    obtain ⟨n, w⟩ := f
    unfold insertField
    split
    · exact lookup_cons name other v _
    · split
      · rename_i hn
        subst hn
        rw [lookup_cons, lookup_cons]
        split <;> rfl
      · rename_i hn
        rw [lookup_cons, lookup_cons, ih]
        by_cases h : other = n
        · simp [h, Ne.symm hn]
        · simp [h]

theorem field?_object (fields : List (String × Json)) (name : String) :
    (object fields).field? name = fields.reverse.lookup name := by
  have hfold : ∀ (fs acc : List (String × Json)),
      (fs.foldl (fun acc f => insertField f.1 f.2 acc) acc).lookup name =
        (fs.reverse ++ acc).lookup name := by
    intro fs
    induction fs with
    | nil => exact fun _ => rfl
    | cons f fs ih =>
      intro acc
      rw [List.foldl_cons, ih, List.reverse_cons, List.append_assoc, List.lookup_append,
        List.lookup_append, lookup_insertField, List.singleton_append, lookup_cons]
  have hobject := hfold fields []
  rwa [List.append_nil] at hobject

theorem field?_object_of_unique {fields : List (String × Json)} {name : String} {v : Json}
    (hmem : (name, v) ∈ fields) (hunique : ∀ w, (name, w) ∈ fields → w = v) :
    (object fields).field? name = some v := by
  obtain ⟨w, hw, hmem⟩ := PayloadFormat.lookup_reverse ⟨_, hmem, rfl⟩
  rw [field?_object, hw, hunique w hmem]

def originals? (node : Json) : Option Json :=
  (node.field? "entityAspect").bind (·.field? "originalValuesMap")

end Json

namespace EntityType

def wireNames (t : EntityType) : List String := t.dataProperties.map (·.wireName)

/-- Each data property has a name of its own on the wire, beside that of what a node tells
of the changes. -/
structure WiresApart (t : EntityType) : Prop where
  nodup : t.wireNames.Nodup
  reserved : "entityAspect" ∉ t.wireNames

instance (t : EntityType) : Decidable t.WiresApart :=
  decidable_of_iff (t.wireNames.Nodup ∧ "entityAspect" ∉ t.wireNames)
    ⟨fun h => ⟨h.1, h.2⟩, fun h => ⟨h.nodup, h.reserved⟩⟩

theorem wiresApart_unversioned {t : EntityType} : t.unversioned.WiresApart ↔ t.WiresApart :=
  ⟨fun h => ⟨h.nodup, h.reserved⟩, fun h => ⟨h.nodup, h.reserved⟩⟩

theorem WiresApart.of_inj {t : EntityType} (ht : t.DistinctNames)
    (hinj : ∀ p ∈ t.dataProperties, ∀ q ∈ t.dataProperties, p.wireName = q.wireName →
      p.name = q.name) (hreserved : "entityAspect" ∉ t.wireNames) : t.WiresApart :=
  ⟨ht.of_map.map_on fun p hp q hq h => eq_of_name_eq ht hp hq (hinj p hp q hq h), hreserved⟩

end EntityType

namespace Entity

variable {e e' : Entity} {node : Json} {p q : DataProperty}

/-- The node has all values of the entity by the names on the wire, and all original ones. -/
structure SavedAs (e : Entity) (node : Json) : Prop where
  values : ∀ p ∈ e.type.dataProperties,
    node.field? p.wireName = some (p.dataType.toJson ((e.get? p.name).getD .null))
  originals : ∃ originals, node.originals? = some originals ∧ ∀ p ∈ e.type.dataProperties,
    ∀ v, e.originals.get? p.name = some v →
      originals.field? p.wireName = some (p.dataType.toJson v)

section Nodes

def aspect (e : Entity) : List (String × Json) :=
  [("entityTypeName", .str e.type.fullName), ("entityState", .str e.state.name),
    ("originalValuesMap", Json.object e.wireOriginals)] ++ e.keyRequest

theorem saveNode_ok (h : e.state.isPending) : e.saveNode =
    .ok (Json.object (e.wireValues ++ [("entityAspect", Json.object e.aspect)])) := if_pos h

theorem field?_aspect : (Json.object e.aspect).field? "originalValuesMap" =
    some (Json.object e.wireOriginals) := by
  refine Json.field?_object_of_unique (by simp [aspect]) fun w hw => ?_
  have hrequest : ("originalValuesMap", w) ∉ e.keyRequest := by
    unfold keyRequest
    split <;> simp
  simpa [aspect, hrequest] using hw

theorem originals?_saveNode (h : e.saveNode = .ok node) :
    node.originals? = some (Json.object e.wireOriginals) := by
  unfold saveNode at h
  split at h
  · cases h
    rw [Json.originals?, Json.field?_object, List.reverse_append]
    exact field?_aspect
  · cases h

theorem mem_wireOriginals {name : String} {j : Json} : (name, j) ∈ e.wireOriginals ↔
    ∃ n v p, (n, v) ∈ e.originals ∧ e.type.dataProperty? n = some p ∧ p.wireName = name ∧
      p.dataType.toJson v = j := by
  simp only [wireOriginals, List.mem_filterMap, Option.map_eq_some_iff, Prod.exists,
    Prod.mk.injEq]
  grind

/-- Names that are apart on the wire let nothing get lost. -/
theorem savedAs (hwires : e.type.WiresApart) (hnames : e.type.DistinctNames)
    (horiginals : e.originals.names.Nodup) (h : e.saveNode = .ok node) : e.SavedAs node := by
  have hsame : ∀ {p q}, p ∈ e.type.dataProperties → q ∈ e.type.dataProperties →
      p.wireName = q.wireName → p = q := fun hp hq =>
    List.inj_on_of_nodup_map hwires.nodup hp hq
  refine ⟨fun p hp => ?_, _, originals?_saveNode h, fun p hp v hv => ?_⟩
  · unfold saveNode at h
    split at h
    · cases h
      refine Json.field?_object_of_unique
        (List.mem_append_left _ (List.mem_map_of_mem hp)) fun w hw => ?_
      rcases List.mem_append.mp hw with hw | hw
      · obtain ⟨q, hq, heq⟩ := List.mem_map.mp hw
        obtain ⟨hwire, rfl⟩ := Prod.mk.inj heq
        rw [hsame hq hp hwire]
      · obtain ⟨hwire, -⟩ := Prod.mk.inj (List.mem_singleton.mp hw)
        exact absurd (hwire ▸ List.mem_map_of_mem hp) hwires.reserved
    · cases h
  · have hfound := EntityType.dataProperty?_of_mem hnames hp
    refine Json.field?_object_of_unique
      (mem_wireOriginals.mpr ⟨_, _, _, Table.mem_of_get? hv, hfound, rfl, rfl⟩) fun w hw => ?_
    obtain ⟨n, u, q, hu, hq, hwire, rfl⟩ := mem_wireOriginals.mp hw
    obtain ⟨hqm, rfl⟩ := EntityType.dataProperty?_some hq
    obtain rfl := hsame hqm hp hwire
    cases (Table.get?_of_mem horiginals hu).symm.trans hv
    rfl

/-- A property by the name of what a node tells of the changes would be in its place. -/
theorem SavedAs.reserved (h : e.SavedAs node) : "entityAspect" ∉ e.type.wireNames := by
  intro hmem
  obtain ⟨p, hp, hwire⟩ := List.mem_map.mp hmem
  obtain ⟨originals, horiginals, -⟩ := h.originals
  rw [Json.originals?, ← hwire, h.values p hp, Option.bind_some] at horiginals
  unfold Json.field? at horiginals
  split at horiginals
  · rename_i heq
    exact WhereClause.toJson_ne_obj _ _ _ heq
  · cases horiginals

/-- Properties by one name must have one value. -/
theorem SavedAs.agree (h : e.SavedAs node) (hp : p ∈ e.type.dataProperties)
    (hq : q ∈ e.type.dataProperties) (hwire : p.wireName = q.wireName) :
    p.dataType.toJson ((e.get? p.name).getD .null) =
      q.dataType.toJson ((e.get? q.name).getD .null) :=
  Option.some.inj ((h.values p hp).symm.trans (hwire ▸ h.values q hq))

end Nodes

section Edits

def KeepsOriginals (e e' : Entity) : Prop := e.originals.names.Nodup → e'.originals.names.Nodup

theorem KeepsOriginals.of_same (ho : e'.originals = e.originals) : KeepsOriginals e e' := by
  rw [KeepsOriginals, ho]
  exact id

instance : Lenient KeepsOriginals where
  refl _ := id
  trans h k := k ∘ h
  same _ := .of_same
  dropped ho _ := by
    rw [ho]
    exact List.nodup_nil

theorem allowsMoves_keepsOriginals : AllowsMoves KeepsOriginals where
  unchanged e e' h := by
    obtain ⟨u, -, rfl⟩ := map_ok h
    exact Lenient.dropped rfl
  modified e e' h := .of_same (moveTo_originals h).2
  deleted e e' h := by
    unfold markDeleted at h
    split at h
    · cases h
      exact .of_same rfl
    · cases h
    · exact .of_same (moveTo_originals h).2

theorem keepsOriginals_set {name : String} {v : Value} (h : e.set name v = .ok e') :
    KeepsOriginals e e' := by
  obtain ⟨p, -, -, -, rfl⟩ := set_eq_ok_iff.mp h
  intro ho
  split
  · exact ho
  · unfold recordEdit
    split
    · exact Table.nodup_putNew ho _ _
    · exact Table.nodup_putNew ho _ _
    · exact ho

/-- Outside of any group, and with its edits recorded. -/
structure Editable (t : EntityType) (e : Entity) : Prop where
  type : e.type = t
  free : e.groupKey = none
  state : e.state = .unchanged ∨ e.state = .modified

theorem Editable.set {t : EntityType} (h : e.Editable t) {name : String}
    (hp : t.dataProperty? name = some p) (v : Value) : ∃ e', e.set name v = .ok e' ∧
      e'.Editable t ∧
      (∀ other, e'.get? other = if other = name then some (p.dataType.coerce v) else e.get? other) ∧
      (e.state = .modified ∨ ((e.get? name).getD .null).same (p.dataType.coerce v) = false →
        e'.state = .modified) := by
  obtain ⟨rfl, hfree, hs⟩ := h
  have hrecorded : ∀ old, (e.write name (p.dataType.coerce v)).recordEdit name old =
      { e.write name (p.dataType.coerce v) with
        originals := e.originals.putNew name old, state := .modified } := by
    intro old
    rcases hs with hs | hs <;> simp [recordEdit, write, hs]
  have halive : e.state ≠ .deleted := by rcases hs with hs | hs <;> simp [hs]
  refine ⟨_, set_eq_ok_iff.mpr ⟨p, hp, by simp [isAttached, hfree], halive, rfl⟩, ?_⟩
  rw [hrecorded]
  split
  · rename_i hsame
    refine ⟨⟨rfl, hfree, hs⟩, fun other => get?_write e name other _,
      fun hedit => hedit.resolve_right ?_⟩
    simp [hsame]
  · exact ⟨⟨rfl, hfree, Or.inr rfl⟩, fun other => get?_write e name other _, fun _ => rfl⟩

end Edits

end Entity

namespace Cache

variable {catalog : Catalog} {settings : Settings} {supply : Supply} {builders : UriBuilders}
  {service : Service} {c : Cache} {ops : List Op}

theorem run_originals_nodup (h : ∀ id, (c.entity id).originals.names.Nodup) (id : InstanceId) :
    ((c.run ops).entity id).originals.names.Nodup := by
  induction ops generalizing c with
  | nil => exact h id
  | cons op rest ih =>
    refine ih fun id => ?_
    exact next_carries Entity.allowsMoves_keepsOriginals
      (fun _ _ _ _ _ he => Entity.keepsOriginals_set he)
      (fun _ _ _ _ _ _ _ _ ho => .of_same ho) id (h id)

section Bundles

/-- The bundle has a node for each entity that is saved, and each that is of this type is in its
node with all its values. -/
def BundledWhole (c : Cache) (typeName : String) : Prop :=
  ∀ entities : Option (List InstanceId),
    (∀ ids ∈ entities, ∀ id ∈ ids, id < c.instances.count ∧ (c.entity id).state.isPending) →
    ∃ nodes, c.saveBundle entities =
        .ok (Json.object [("entities", .arr nodes), ("saveOptions", .obj [])]) ∧
      List.Forall₂ (fun id node => (c.entity id).type.name = typeName → (c.entity id).SavedAs node)
        (entities.getD c.changes) nodes

theorem mapM_forall₂ {α β : Type} {f : α → Except Fault β} {P : α → β → Prop} {xs : List α}
    (h : ∀ x ∈ xs, ∃ y, f x = .ok y ∧ P x y) :
    ∃ ys, xs.mapM f = .ok ys ∧ List.Forall₂ P xs ys := by
  induction xs with
  | nil => exact ⟨[], rfl, .nil⟩
  | cons x rest ih =>
    obtain ⟨y, hy, hxy⟩ := h x List.mem_cons_self
    obtain ⟨ys, hys, hrest⟩ := ih fun z hz => h z (List.mem_cons_of_mem x hz)
    refine ⟨y :: ys, ?_, .cons hxy hrest⟩
    rw [List.mapM_cons, hy, hys]
    rfl

theorem bundledWhole (hc : c.Formed) (ho : ∀ id, (c.entity id).originals.names.Nodup)
    {t : EntityType} (ht : c.catalog.type? t.name = some t) (hwires : t.WiresApart) :
    c.BundledWhole t.name := by
  intro entities hentities
  have hpending : ∀ id ∈ entities.getD c.changes,
      id < c.instances.count ∧ (c.entity id).state.isPending := by
    intro id hid
    cases entities with
    | some ids => exact hentities ids rfl id hid
    | none =>
      obtain ⟨⟨name, slot, g, hg, hs⟩, hp⟩ := (mem_changes_iff hc.ordered).mp hid
      exact ⟨(hc.allotted name g hg).given hs, hp⟩
  have hnodes : ∀ id ∈ entities.getD c.changes, ∃ node, (c.entity id).saveNode = .ok node ∧
      ((c.entity id).type.name = t.name → (c.entity id).SavedAs node) := by
    intro id hid
    obtain ⟨hcount, hp⟩ := hpending id hid
    refine ⟨_, Entity.saveNode_ok hp, fun hname => ?_⟩
    have htype : (c.entity id).type = t := by
      have hknown := hc.known id hcount
      rw [hname, ht] at hknown
      exact (Option.some.inj hknown).symm
    exact Entity.savedAs (htype ▸ hwires) (htype ▸ hc.distinct ht) (ho id)
      (Entity.saveNode_ok hp)
  obtain ⟨nodes, hok, hsaved⟩ := mapM_forall₂ hnodes
  refine ⟨nodes, ?_, hsaved⟩
  rw [saveBundle, hok]
  rfl

end Bundles

section Clashes

structure Sole (c : Cache) (e : Entity) : Prop where
  count : c.instances.count = 1
  entity : c.entity 0 = e

theorem sole_create {name : String} {t : EntityType} (hf : catalog.find name = .ok t)
    (ha : t.isAbstract = false) :
    ((start catalog settings supply builders service).next (.create name)).Sole
      (Entity.new t) := by
  let c := start catalog settings supply builders service
  have hon : (create name).on c =
      (.ok 0, { c with instances := ((c.instances.freeze t.version).add (Entity.new t)).2 }) := by
    unfold create
    rw [on_bind_ok (on_get c), show c.catalog.find name = .ok t from hf,
      on_bind_ok (on_lift _ c), ha]
    rfl
  rw [next, Op.action, on_discard, hon]
  exact ⟨rfl, rfl⟩

namespace Sole

variable {e e' : Entity} {op : Op} {f : Entity → Except Fault Entity}

theorem next (h : c.Sole e) (hop : op.action = change 0 f) (hf : f e = .ok e') :
    (c.next op).Sole e' := by
  rw [Cache.next, hop, on_change_ok (by rw [h.entity, hf])]
  exact ⟨h.count, rfl⟩

theorem enabled (h : c.Sole e) (hop : op.handles = [0]) : op.Enabled c := by
  intro id hid
  rw [hop, List.mem_singleton] at hid
  rw [hid, h.count]
  exact Nat.zero_lt_one

end Sole

/-- The only entity can be pending with different values in two properties: null in one, and in
the other an empty list, which no data type makes anything of. -/
theorem exists_edited {name : String} {t : EntityType} {p q : DataProperty}
    (hf : catalog.find name = .ok t) (ha : t.isAbstract = false)
    (hp : t.dataProperty? p.name = some p) (hq : t.dataProperty? q.name = some q) :
    ∃ ops e, (start catalog settings supply builders service).Valid ops ∧
      ((start catalog settings supply builders service).run ops).Sole e ∧
      e.type = t ∧ e.state = .modified ∧
      (p.name ≠ q.name → e.get? p.name = some (.list []) ∧ e.get? q.name = some .null) := by
  let marked : Entity := { Entity.new t with state := .unchanged }
  have hmarked : marked.Editable t := ⟨rfl, rfl, Or.inl rfl⟩
  obtain ⟨e₁, hset₁, heditable₁, hvalues₁, -⟩ := hmarked.set hp .null
  obtain ⟨e₂, hset₂, heditable₂, hvalues₂, hmodified₂⟩ := heditable₁.set hp (.list [])
  obtain ⟨e₃, hset₃, heditable₃, hvalues₃, hmodified₃⟩ := heditable₂.set hq .null
  have hcreated : (next (start catalog settings supply builders service) (.create name)).Sole
      (Entity.new t) := sole_create hf ha
  have hunchanged : (next _ (.markUnchanged 0)).Sole marked := hcreated.next rfl rfl
  have hnulled : (next _ (.set 0 p.name .null)).Sole e₁ :=
    hunchanged.next (f := (·.set p.name .null)) rfl hset₁
  have hlisted : (next _ (.set 0 p.name (.list []))).Sole e₂ :=
    hnulled.next (f := (·.set p.name (.list []))) rfl hset₂
  have hother : (next _ (.set 0 q.name .null)).Sole e₃ :=
    hlisted.next (f := (·.set q.name .null)) rfl hset₃
  refine ⟨[.create name, .markUnchanged 0, .set 0 p.name .null, .set 0 p.name (.list []),
    .set 0 q.name .null], e₃, ⟨nofun, hcreated.enabled rfl, hunchanged.enabled rfl,
    hnulled.enabled rfl, hlisted.enabled rfl, trivial⟩, hother, heditable₃.type, ?_, ?_⟩
  · refine hmodified₃ (Or.inl (hmodified₂ (Or.inr ?_)))
    rw [hvalues₁, if_pos rfl, DataType.coerce_null, DataType.coerce_list]
    rfl
  · intro hne
    rw [hvalues₃, hvalues₃, if_neg hne, if_pos rfl, hvalues₂, if_pos rfl, DataType.coerce_null,
      DataType.coerce_list]
    exact ⟨rfl, rfl⟩

end Clashes

section Registered

variable {label : Nat} {naming : Naming} {steps : List Registration} {t : EntityType}

/-- Whatever is done to a cache, its bundles carry all values of the entities of a type whose
properties, later ones included, are apart on the wire. For a type that can be created by its name
nothing less will do. -/
theorem run_bundledWhole (h : Catalog.registerAll { label, naming } steps = .ok catalog)
    (ht : t ∈ declared steps) :
    ((latest naming steps t).WiresApart → ∀ ops,
      (start catalog settings supply builders service).Valid ops →
      ((start catalog settings supply builders service).run ops).BundledWhole t.name) ∧
    (t.isAbstract = false → Catalog.IsShort t.name → (∀ ops,
        (start catalog settings supply builders service).Valid ops →
        ((start catalog settings supply builders service).run ops).BundledWhole t.name) →
      (latest naming steps t).WiresApart) := by
  have htells := Catalog.registerAll_tells h
  have hregistered := htells.registered
  refine ⟨fun hwires ops hv => ?_, fun hconcrete hshort hwhole => ?_⟩
  · obtain ⟨u, hu, hlatest⟩ := htells.exists_latest ht
    have hname : u.name = t.name := Catalog.name_of_latest hlatest
    have hstart := (sound_start hregistered settings supply builders service).sound.formed
    have hformed : FormedIn catalog _ := run_forms ⟨hstart, rfl⟩ hv
    rw [← hname] at hu ⊢
    rw [← hlatest, EntityType.wiresApart_unversioned] at hwires
    rw [← hformed.catalog] at hu
    exact bundledWhole hformed.formed (run_originals_nodup fun _ => List.nodup_nil) hu hwires
  · obtain ⟨⟨u, hu, hlatest⟩, -⟩ := (htells.found_iff ht).mpr hshort
    have hfind : catalog.find t.name = .ok u := by rw [Catalog.find, hu]
    have hnames : u.DistinctNames :=
      hregistered.distinctNames u (Catalog.type?_some hu).1
    have hnew : u.isAbstract = false := by
      have habstract : u.unversioned.isAbstract = (latest naming steps t).isAbstract :=
        congrArg _ hlatest
      exact habstract.trans hconcrete
    have hsaved : ∀ p ∈ u.dataProperties, ∀ q ∈ u.dataProperties, ∃ e : Entity, ∃ node,
        e.type = u ∧ e.SavedAs node ∧ (p.name ≠ q.name →
          e.get? p.name = some (.list []) ∧ e.get? q.name = some .null) := by
      intro p hp q hq
      obtain ⟨ops, e, hv, hsole, htype, hstate, hvalues⟩ :=
        exists_edited hfind hnew (EntityType.dataProperty?_of_mem hnames hp)
          (EntityType.dataProperty?_of_mem hnames hq)
      obtain ⟨nodes, -, hnodes⟩ := hwhole ops hv (some [0]) fun ids hids id hid => by
        cases hids
        rw [List.mem_singleton.mp hid, hsole.count, hsole.entity, hstate]
        exact ⟨Nat.zero_lt_one, rfl⟩
      obtain ⟨node, _, hnode, -, -⟩ := List.forall₂_cons_left_iff.mp hnodes
      rw [hsole.entity, htype, Catalog.name_of_latest hlatest] at hnode
      exact ⟨e, node, htype, hnode rfl, hvalues⟩
    rw [← hlatest, EntityType.wiresApart_unversioned]
    refine .of_inj hnames (fun p hp q hq hwire => ?_) fun hmem => ?_
    · by_contra hne
      obtain ⟨e, node, rfl, hnode, hvalues⟩ := hsaved p hp q hq
      obtain ⟨hlist, hnull⟩ := hvalues hne
      have hagree := hnode.agree hp hq hwire
      rw [hlist, hnull, Option.getD_some, Option.getD_some] at hagree
      cases hagree
    · obtain ⟨p, hp, -⟩ := List.mem_map.mp hmem
      obtain ⟨e, node, rfl, hnode, -⟩ := hsaved p hp p hp
      exact hnode.reserved hmem

def built (steps : List Registration) : Catalog :=
  (Catalog.registerAll { naming := .camelCase } steps).toOption.getD {}

def emptyOver (catalog : Catalog) : Cache :=
  start catalog {} ⟨fun _ => ⟨0, 0⟩, fun _ => .nil⟩ .standard { root := "" }

def editedOrder : List Op :=
  [.create "Order", .set 0 "id" (.integer 7), .set 0 "note" (.text "urgent"),
    .attach 0 .unchanged none, .set 0 "note" (.text "late")]

theorem editedOrder_bundledWhole :
    Catalog.registerAll { naming := .camelCase } Catalog.trade = .ok (built Catalog.trade) ∧
      Catalog.order ∈ declared Catalog.trade ∧ Catalog.IsShort Catalog.order.name ∧
      (latest .camelCase Catalog.trade Catalog.order).WiresApart ∧
      (emptyOver (built Catalog.trade)).Valid editedOrder ∧
      ((emptyOver (built Catalog.trade)).run editedOrder).changes = [0] ∧
      ((emptyOver (built Catalog.trade)).run editedOrder).BundledWhole "Order" := by
  have hbuilt : Catalog.registerAll { naming := .camelCase } Catalog.trade =
      .ok (built Catalog.trade) := rfl
  have hdeclared : Catalog.order ∈ declared Catalog.trade := List.mem_cons_self
  have hshort : Catalog.IsShort Catalog.order.name := by decide +kernel
  have hvalid : (emptyOver (built Catalog.trade)).Valid editedOrder := by decide +kernel
  obtain ⟨hwhole, hapart⟩ := run_bundledWhole hbuilt hdeclared
  have hwires : (latest .camelCase Catalog.trade Catalog.order).WiresApart :=
    hapart rfl hshort (hwhole (by decide +kernel))
  exact ⟨hbuilt, hdeclared, hshort, hwires, hvalid, by decide +kernel,
    hwhole hwires editedOrder hvalid⟩

def namesakes : EntityType :=
  { name := "Person"
    dataProperties := [{ name := "id", dataType := .int32, isKey := true },
      { name := "name", dataType := .string }, { name := "Name", dataType := .string }] }

def addedPerson : List Op :=
  [.create "Person", .set 0 "id" (.integer 1), .set 0 "name" (.text "Ann"),
    .set 0 "Name" (.text "Bea"), .add 0]

/-- Two properties whose names differ in the case of the first letter have one name on the
server, and the value of the first is never sent. -/
theorem namesakes_overwritten :
    let e := ((emptyOver (built [.type namesakes])).run addedPerson).entity 0
    Catalog.registerAll { naming := .camelCase } [.type namesakes] =
        .ok (built [.type namesakes]) ∧
      (emptyOver (built [.type namesakes])).Valid addedPerson ∧
      e.state = .added ∧ (e.get? "name").map Value.keyText = some "Ann" ∧
      ∃ node, e.saveNode = .ok node ∧ (node.field? "Name").bind Json.str? = some "Bea" ∧
        ¬ e.SavedAs node := by
  intro e
  have hsent : ((Json.object (e.wireValues ++ [("entityAspect", Json.object e.aspect)])).field?
      "Name").bind Json.str? = some "Bea" := by decide +kernel
  refine ⟨rfl, by decide +kernel, by decide +kernel, by decide +kernel, _,
    Entity.saveNode_ok (by decide +kernel), hsent, fun h => ?_⟩
  have hname : e.type.dataProperties[1]? = some
      { name := "name", serverName := some "Name", dataType := .string } := rfl
  have hvalue : (Json.object (e.wireValues ++ [("entityAspect", Json.object e.aspect)])).field?
      "Name" = some (DataType.string.toJson ((e.get? "name").getD .null)) :=
    h.values _ (List.mem_of_getElem? hname)
  have hkept : Json.str? (DataType.string.toJson ((e.get? "name").getD .null)) = some "Ann" := by
    decide +kernel
  rw [hvalue, Option.bind_some, hkept] at hsent
  exact absurd hsent (by decide)

end Registered

end Cache

end EntityCache
