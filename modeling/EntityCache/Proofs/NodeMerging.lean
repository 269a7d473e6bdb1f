import EntityCache.Proofs.Rewriting
import Mathlib.Data.List.TakeWhile

/-! What the nodes do that a save returned. Each is merged into the entity that is cached under
the key which it carries; one that names nobody is passed over, and one that the cache refuses
to look up is the last. So an entity comes to hold what the last node brings for a property,
and a node that carries the whole key leaves its entity the key. -/
namespace EntityCache

open Cache EntityCache.Action

section Nodes

theorem EntityType.dataProperty?_of_mem {t : EntityType} (ht : t.DistinctNames)
    {p : DataProperty} (hp : p ∈ t.dataProperties) : t.dataProperty? p.name = some p := by
  obtain ⟨q, hq⟩ : ∃ q, t.dataProperty? p.name = some q :=
    Option.isSome_iff_exists.mp (List.find?_isSome.mpr ⟨p, hp, by simp⟩)
  obtain ⟨hm, hn⟩ := dataProperty?_some hq
  rw [hq, eq_of_name_eq ht hm hp hn]

def EntityType.nodeValue? (t : EntityType) (node : Json) (name : String) : Option Value :=
  (t.dataProperty? name).bind fun p =>
    (node.field? p.wireName).map fun raw => p.dataType.coerce (Value.ofJson raw)

theorem Entity.get?_withNodeValues {t : EntityType} (ht : t.DistinctNames) (e : Entity)
    (node : Json) (name : String) :
    (e.withNodeValues t node).get? name = (t.nodeValue? node name).or (e.get? name) := by
  unfold withNodeValues EntityType.nodeValue? EntityType.dataProperty?
  unfold EntityType.DistinctNames at ht
  generalize t.dataProperties = ps at ht ⊢
  induction ps generalizing e with
  | nil => rfl
  | cons p ps ih =>
    obtain ⟨hp, hps⟩ := List.nodup_cons.mp ht
    rw [List.foldl_cons, ih _ hps]
    by_cases hname : p.name = name
    · have hlater : ps.find? (·.name = name) = none := by
        refine List.find?_eq_none.mpr fun q hq hn => hp (List.mem_map.mpr ⟨q, hq, ?_⟩)
        exact (of_decide_eq_true hn).trans hname.symm
      rw [hlater, List.find?_cons_of_pos (by simpa using hname)]
      cases hf : node.field? p.wireName <;> simp [hf, get?_write, hname]
    · rw [List.find?_cons_of_neg (by simpa using hname)]
      cases hf : node.field? p.wireName <;> simp [get?_write, Ne.symm hname]

theorem Entity.get?_mergeNode {e : Entity} {t : EntityType} (ht : t.DistinctNames) (node : Json)
    {name : String} (hname : name ∈ e.type.dataProperties.map (·.name)) :
    (e.mergeFrom (e.withNodeValues t node)).get? name =
      (t.nodeValue? node name).or (e.get? name) := by
  rw [get?_mergeFrom, if_pos hname, get?_withNodeValues ht]
  cases t.nodeValue? node name <;> cases e.get? name <;> rfl

end Nodes

namespace Cache

variable {catalog : Catalog} {c c' : Cache}

section Merge

/-- The type that a node declares, and who is cached under the key that it carries. -/
def named? (c : Cache) (node : Json) : Option (EntityType × InstanceId) :=
  (c.declaredType? c.service.format node).bind fun t =>
    match c.find? t.name (t.keyProperties.map fun p =>
        ((node.field? p.wireName).map Value.ofJson).getD .null) with
    | .ok (some id) => some (t, id)
    | _ => none

/-- Values have been written and edits forgotten, and nothing else. -/
structure Absorbs (c c' : Cache) : Prop where
  rewrites : Rewrites c c'
  service : c'.service = c.service
  state : ∀ id, (c'.entity id).state = (c.entity id).state
  originals : ∀ id, (c.entity id).originals = [] → (c'.entity id).originals = []

instance : IsPreorder Cache Absorbs where
  refl c := ⟨Std.Refl.refl c, rfl, fun _ => rfl, fun _ => id⟩
  trans _ _ _ h k :=
    ⟨IsTrans.trans _ _ _ h.rewrites k.rewrites, k.service.trans h.service,
      fun id => (k.state id).trans (h.state id),
      fun id ho => k.originals id (h.originals id ho)⟩

theorem Absorbs.named?_eq (h : Absorbs c c') (node : Json) : c'.named? node = c.named? node := by
  simp only [named?, declaredType?, find?, h.rewrites.catalog, h.rewrites.groups, h.service]

/-- A node is merged into the entity that it names; one that names none is passed over. -/
theorem mergeSaved_cases (node : Json) (c : Cache) :
    ((mergeSaved node).on c).2 = c ∧ c.named? node = none ∨
    ∃ t id, c.named? node = some (t, id) ∧ (mergeSaved node).on c = (.ok (), { c with
      instances := c.instances.put id
        ((c.entity id).mergeFrom ((c.entity id).withNodeValues t node)) }) := by
  unfold mergeSaved named?
  rw [on_bind_ok (on_get c)]
  dsimp only
  cases c.declaredType? c.service.format node with
  | none => exact Or.inl ⟨rfl, rfl⟩
  | some t =>
    dsimp only [Option.bind_some]
    cases c.find? t.name (t.keyProperties.map fun p =>
        ((node.field? p.wireName).map Value.ofJson).getD .null) with
    | error fault => exact Or.inl ⟨rfl, rfl⟩
    | ok found =>
      cases found with
      | none => exact Or.inl ⟨rfl, rfl⟩
      | some id => exact Or.inr ⟨t, id, rfl, rfl⟩

theorem mergeSaved_absorbs (node : Json) (c : Cache) :
    Absorbs c ((mergeSaved node).on c).2 := by
  have hrewrites := mergeSaved_rewrites node c
  rcases mergeSaved_cases node c with ⟨h, -⟩ | ⟨t, id, -, h⟩
  · rw [h]
    exact Std.Refl.refl c
  · rw [h] at hrewrites ⊢
    refine ⟨hrewrites, rfl, fun other => ?_, fun other ho => ?_⟩ <;> by_cases hother : other = id
    · subst hother
      simp [entity, Entity.mergeFrom]
    · simp [entity, hother]
    · subst hother
      simp [entity, Entity.mergeFrom]
    · simpa [entity, hother] using ho

theorem mergeAll_absorbs (nodes : List Json) (c : Cache) :
    Absorbs c ((nodes.forM mergeSaved).on c).2 := by
  have h : (nodes.forM mergeSaved).Keeps (fun _ => True) Absorbs :=
    Keeps.forM fun node _ c _ => ⟨trivial, mergeSaved_absorbs node c⟩
  exact (h c trivial).related

end Merge

section Brought

variable {id : InstanceId} {name : String}

def refuses (c : Cache) (node : Json) : Bool :=
  match c.declaredType? c.service.format node with
  | none => false
  | some t => (c.find? t.name (t.keyProperties.map fun p =>
      ((node.field? p.wireName).map Value.ofJson).getD .null)).toOption.isNone

def carried? (c : Cache) (id : InstanceId) (name : String) (node : Json) : Option Value :=
  (c.named? node).bind fun (t, other) => if other = id then t.nodeValue? node name else none

/-- What the nodes bring for a property of an entity: the last one that carries it decides, of
those before the first that is refused. -/
def brought? (c : Cache) (id : InstanceId) (name : String) (nodes : List Json) : Option Value :=
  (nodes.takeWhile fun node => !c.refuses node).reverse.findSome? (c.carried? id name)

theorem mergeSaved_ok_iff (node : Json) (c : Cache) :
    ((mergeSaved node).on c).1 = .ok () ↔ c.refuses node = false := by
  unfold mergeSaved refuses
  rw [on_bind_ok (on_get c)]
  dsimp only
  cases c.declaredType? c.service.format node with
  | none => exact iff_of_true rfl rfl
  | some t =>
    dsimp only
    cases c.find? t.name (t.keyProperties.map fun p =>
        ((node.field? p.wireName).map Value.ofJson).getD .null) with
    | error fault => exact iff_of_false nofun nofun
    | ok found => cases found <;> exact iff_of_true rfl rfl

theorem Absorbs.refuses_eq (h : Absorbs c c') (node : Json) : c'.refuses node = c.refuses node := by
  simp only [refuses, declaredType?, find?, h.rewrites.catalog, h.rewrites.groups, h.service]

theorem Absorbs.brought?_eq (h : Absorbs c c') (nodes : List Json) :
    c'.brought? id name nodes = c.brought? id name nodes := by
  have hcarried : c'.carried? id name = c.carried? id name := by
    funext node
    simp only [carried?, h.named?_eq]
  simp only [brought?, h.refuses_eq, hcarried]

theorem mergeSaved_get? (node : Json)
    (hd : ∀ {n t}, c.catalog.type? n = some t → t.DistinctNames)
    (hname : name ∈ (c.entity id).type.dataProperties.map (·.name)) :
    (((mergeSaved node).on c).2.entity id).get? name =
      (c.carried? id name node).or ((c.entity id).get? name) := by
  rcases mergeSaved_cases node c with ⟨h, hnone⟩ | ⟨t, other, hnamed, h⟩
  · simp [carried?, hnone, h]
  · rw [h]
    by_cases ho : other = id
    · subst ho
      obtain ⟨t', hdeclared, hfind⟩ := Option.bind_eq_some_iff.mp hnamed
      have ht : t.DistinctNames := by
        split at hfind
        · cases hfind
          obtain ⟨_, -, ht⟩ := Option.bind_eq_some_iff.mp hdeclared
          exact hd ht
        · cases hfind
      simpa [carried?, hnamed, entity] using Entity.get?_mergeNode ht node hname
    · simp [carried?, hnamed, ho, Ne.symm ho, entity]

/-- What an entity holds after the nodes is what they bring, or else what it held before. -/
theorem mergeAll_get? (nodes : List Json)
    (hd : ∀ {n t}, c.catalog.type? n = some t → t.DistinctNames)
    (hname : name ∈ (c.entity id).type.dataProperties.map (·.name)) :
    (((nodes.forM mergeSaved).on c).2.entity id).get? name =
      (c.brought? id name nodes).or ((c.entity id).get? name) := by
  induction nodes generalizing c with
  | nil => rfl
  | cons node rest ih =>
    have hcons : (node :: rest).forM mergeSaved =
        (mergeSaved node >>= fun _ => rest.forM mergeSaved) := rfl
    have habsorbs := mergeSaved_absorbs node c
    have hget := mergeSaved_get? node hd hname
    have hok := mergeSaved_ok_iff node c
    rw [hcons]
    cases hr : (mergeSaved node).on c with
    | mk r c₁ =>
      rw [hr] at habsorbs hget hok
      cases r with
      | error fault =>
        have hrefused : c.refuses node = true :=
          Bool.eq_true_of_not_eq_false fun hf => by cases hok.mpr hf
        rcases mergeSaved_cases node c with ⟨h, -⟩ | ⟨_, _, -, h⟩
        · rw [hr] at h
          rw [on_bind_error hr, show c₁ = c from h]
          simp [brought?, hrefused]
        · cases hr.symm.trans h
      | ok =>
        have hlooked : c.refuses node = false := hok.mp rfl
        rw [on_bind_ok hr, ih (fun {n t} ht => hd (habsorbs.rewrites.catalog ▸ ht))
          (by rwa [habsorbs.rewrites.type]), habsorbs.brought?_eq, hget, ← Option.or_assoc]
        congr 1
        simp [brought?, hlooked, List.findSome?_append]

theorem not_refused_of_ok {nodes : List Json} (h : (nodes.forM mergeSaved).on c = (.ok (), c')) :
    ∀ node ∈ nodes, c.refuses node = false := by
  induction nodes generalizing c with
  | nil => simp
  | cons first rest ih =>
    have hcons : (first :: rest).forM mergeSaved =
        (mergeSaved first >>= fun _ => rest.forM mergeSaved) := rfl
    have habsorbs := mergeSaved_absorbs first c
    have hok := mergeSaved_ok_iff first c
    rw [hcons] at h
    cases hr : (mergeSaved first).on c with
    | mk r c₁ =>
      rw [hr] at habsorbs hok
      cases r with
      | error fault =>
        rw [on_bind_error hr] at h
        cases h
      | ok =>
        rw [on_bind_ok hr] at h
        intro node hnode
        rcases List.mem_cons.mp hnode with rfl | hrest
        · exact hok.mp rfl
        · rw [← habsorbs.refuses_eq]
          exact ih h node hrest

/-- Where all are merged, the last node that carries a property decides. -/
theorem brought?_of_ok {nodes : List Json} (h : (nodes.forM mergeSaved).on c = (.ok (), c')) :
    c.brought? id name nodes = nodes.reverse.findSome? (c.carried? id name) := by
  have hall : (nodes.takeWhile fun node => !c.refuses node) = nodes :=
    List.takeWhile_eq_self_iff.mpr fun node hnode => by simp [not_refused_of_ok h node hnode]
  rw [brought?, hall]

/-- What the nodes bring of a key makes up, with what is there, the key that the entity has. -/
def KeyConfirmed (c : Cache) (nodes : List Json) (id : InstanceId) : Prop :=
  c.IsCached id → (c.entity id).keyTextWith (fun p =>
    ((c.brought? id p.name nodes).or ((c.entity id).get? p.name)).getD .null) =
      (c.entity id).keyText

theorem keyText_mergeAll (nodes : List Json)
    (hd : ∀ {n t}, c.catalog.type? n = some t → t.DistinctNames) (id : InstanceId) :
    (((nodes.forM mergeSaved).on c).2.entity id).keyText = (c.entity id).keyTextWith fun p =>
      ((c.brought? id p.name nodes).or ((c.entity id).get? p.name)).getD .null := by
  have hrewrites := mergeAll_rewrites nodes c
  refine Entity.keyText_eq_keyTextWith (hrewrites.type id) fun p hp => ?_
  rw [mergeAll_get? _ hd (List.mem_map_of_mem (EntityType.mem_keyProperties.mp hp).1)]

end Brought

section Identify

/-- The node tells its entity by the whole key. It declares a type that is found by its own
name, and it carries every part of the key, unless there is only one. -/
def Identifies (c : Cache) (node : Json) : Prop :=
  ∀ t, c.declaredType? c.service.format node = some t → c.catalog.find? t.name = some t ∧
    (t.keyProperties.length = 1 ∨ ∀ p ∈ t.keyProperties, (node.field? p.wireName).isSome)

theorem Absorbs.identifies_iff (h : Absorbs c c') {node : Json} :
    c'.Identifies node ↔ c.Identifies node := by
  simp only [Identifies, declaredType?, h.rewrites.catalog, h.service]

/-- What a node writes to the keys, in a group of the type that it declares. -/
theorem named?_spec (hc : c.Sound) {node : Json} {t : EntityType} {id : InstanceId}
    (h : c.named? node = some (t, id)) (ht : c.catalog.find? t.name = some t) :
    (c.entity id).type = t ∧ c.IsCached id ∧ (c.entity id).keyText =
      EntityKey.inGroup ⟨t.name, t.keyProperties.map fun p =>
        p.dataType.coerce (((node.field? p.wireName).map Value.ofJson).getD .null)⟩ := by
  obtain ⟨t', -, hfind⟩ := Option.bind_eq_some_iff.mp h
  split at hfind
  · rename_i found hf
    cases hfind
    unfold find? at hf
    simp only [Catalog.find, ht, bind, Except.bind] at hf
    cases hg : c.groups.get? t.name with
    | none =>
      rw [hg] at hf
      simp [EntityKey.make_map, Except.map] at hf
    | some g =>
      have htype : g.type = t := by
        have hreg := (hc.registered hg).symm.trans (Catalog.type?_of_find? ht)
        exact Option.some.inj hreg
      rw [hg] at hf
      simp only [Group.find?, htype, EntityKey.make_map, Except.map, Except.ok.injEq,
        Group.findText?, Option.bind_eq_some_iff] at hf
      obtain ⟨slot, hk, hs⟩ := hf
      have hs : g.Holds slot id := Option.join_eq_some_iff.mp hs
      obtain ⟨i, hi, htext⟩ := ((hc.groups hg).index_iff _ _).mp hk
      obtain rfl := hs.unique hi
      exact ⟨((hc.groups hg).typed hs).trans htype, ⟨t.name, slot, g, hg, hs⟩, htext⟩
  · cases hfind

theorem keyText_mergeNode (hc : c.Sound) {node : Json} {t : EntityType} {id : InstanceId}
    (h : c.named? node = some (t, id)) (hn : c.Identifies node) :
    ((c.entity id).mergeFrom ((c.entity id).withNodeValues t node)).keyText =
      (c.entity id).keyText := by
  have hdeclared : c.declaredType? c.service.format node = some t := by
    obtain ⟨t', hd, hfind⟩ := Option.bind_eq_some_iff.mp h
    split at hfind
    · cases hfind
      exact hd
    · cases hfind
  obtain ⟨hfound, hparts⟩ := hn t hdeclared
  obtain ⟨htype, -, htext⟩ := named?_spec hc h hfound
  have hd : t.DistinctNames := hc.distinct (Catalog.type?_of_find? hfound)
  have hget : ∀ p ∈ t.keyProperties,
      ((c.entity id).mergeFrom ((c.entity id).withNodeValues t node)).get? p.name =
        ((node.field? p.wireName).map fun raw => p.dataType.coerce (Value.ofJson raw)).or
          ((c.entity id).get? p.name) := by
    intro p hp
    have hm := (EntityType.mem_keyProperties.mp hp).1
    rw [Entity.get?_mergeNode hd node (by rw [htype]; exact List.mem_map_of_mem hm),
      EntityType.nodeValue?, EntityType.dataProperty?_of_mem hd hm]
    rfl
  by_cases hall : ∀ p ∈ t.keyProperties, (node.field? p.wireName).isSome
  · rw [htext, Entity.keyText, Entity.ownKey, EntityKey.inGroup, EntityKey.inGroup]
    change EntityKey.delimiter.intercalate (((c.entity id).type.keyProperties.map _).map _) = _
    rw [htype, List.map_map, List.map_map]
    refine congrArg EntityKey.delimiter.intercalate (List.map_congr_left fun p hp => ?_)
    obtain ⟨raw, hraw⟩ := Option.isSome_iff_exists.mp (hall p hp)
    simp [Entity.keyValue, hget p hp, hraw]
  · obtain ⟨p, hkey⟩ := List.length_eq_one_iff.mp (hparts.resolve_right hall)
    have hmissing : node.field? p.wireName = none := by simpa [hkey] using hall
    refine Entity.keyText_congr rfl fun q hq => ?_
    have hq : q ∈ t.keyProperties := by rw [← htype]; exact hq
    obtain rfl : q = p := by simpa [hkey] using hq
    simp [Entity.keyValue, hget q hq, hmissing]

theorem mergeAll_sound (hc : c.Sound) {nodes : List Json} (hn : ∀ node ∈ nodes, c.Identifies node) :
    ((nodes.forM mergeSaved).on c).2.Sound := by
  induction nodes generalizing c with
  | nil => exact hc
  | cons node rest ih =>
    have hcons : (node :: rest).forM mergeSaved =
        (mergeSaved node >>= fun _ => rest.forM mergeSaved) := rfl
    have hsound : ((mergeSaved node).on c).2.Sound := by
      rcases mergeSaved_cases node c with ⟨h, -⟩ | ⟨t, id, hnamed, h⟩
      · rwa [h]
      · have hkey := keyText_mergeNode hc hnamed (hn node List.mem_cons_self)
        rw [h]
        refine hc.put rfl (fun hcomplete => Entity.complete_mergeFrom hcomplete _) fun _ => ?_
        exact Entity.continues_mergeFrom fun _ => hkey
    have habsorbs := mergeSaved_absorbs node c
    rw [hcons]
    cases h : (mergeSaved node).on c with
    | mk r c₁ =>
      rw [h] at hsound habsorbs
      cases r with
      | error fault =>
        rw [on_bind_error h]
        exact hsound
      | ok =>
        rw [on_bind_ok h]
        exact ih hsound fun n hm =>
          habsorbs.identifies_iff.mpr (hn n (List.mem_cons_of_mem node hm))

end Identify

end Cache

end EntityCache
