import EntityCache.Proofs.FormationRuns
import EntityCache.Proofs.ImportGrowth

/-! A payload imported a second time. Every node meets the instance that the first import
left under its key, so nothing is placed, and what the first import has written last to an
entity the second one writes last again. The second run is followed alongside the first: at
each moment an entity is either as the first run has it then, or as the first run left it. -/
namespace EntityCache

open Cache EntityCache.Action

theorem Entity.originals_ofNode (t : EntityType) (node : Json) :
    (Entity.ofNode t node).originals = [] := by
  obtain ⟨values, h⟩ := withNodeValues_eq (Entity.new t) t node
  rw [ofNode, h]
  rfl

namespace Group

variable {g g' : Group} {is is' : Instances} {id cached : InstanceId} {strategy : MergeStrategy}

/-- Once a newcomer has arrived, its key leads to the cached instance, which has met it, or
is the newcomer itself. -/
structure Arrived (g : Group) (is : Instances) (id : InstanceId) (strategy : MergeStrategy)
    (cached : InstanceId) (g' : Group) (is' : Instances) : Prop where
  found : ∃ slot, g'.index.get? (is.entity id).keyText = some slot ∧ g'.Holds slot cached
  held : cached ≠ id → ∃ slot, g.Holds slot cached
  met : cached ≠ id →
    is'.entity cached = (is.entity cached).meet strategy (is.entity id)
  placed : cached = id → is'.entity id =
    { is.entity id with state := .unchanged, groupKey := some (is.entity id).keyText }
  others : ∀ other, other ≠ cached → is'.entity other = is.entity other
  frozen : g.type.version ∈ is'.frozen

theorem Attached.arrived (h : g.Sound is) (hnew : ∀ slot, ¬ g.Holds slot id)
    (ha : Attached g is id .unchanged strategy cached g' is') :
    Arrived g is id strategy cached g' is' := by
  have hfrozen := is.mem_freeze g.type.version
  cases ha with
  | again hs => exact absurd hs (hnew _)
  | merged hs hne _ hi ho =>
    refine ⟨⟨_, hi, hs⟩, fun _ => ⟨_, hs⟩, fun _ => ?_, fun heq => absurd heq hne,
      fun other hother => ?_, hfrozen⟩
    · simpa [Entity.meet, Entity.absorb, Instances.state] using
        fun hn => by simp [Instances.state, hn] at ho
    · simp [hother]
  | kept hs hne _ hi ho =>
    refine ⟨⟨_, hi, hs⟩, fun _ => ⟨_, hs⟩, fun _ => ?_, fun heq => absurd heq hne,
      fun _ _ => by simp, hfrozen⟩
    rw [Entity.meet, if_neg (by simpa [Instances.state] using ho), Instances.entity_freeze]
  | placed hn =>
    obtain ⟨slot, -, hindex, hholds, -⟩ :=
      place_spec h.free_iff h.free_nodup (is.entity id).keyText id
    refine ⟨⟨slot, ?_, (hholds _ _).mpr (Or.inl ⟨rfl, rfl⟩)⟩, fun hne => absurd rfl hne,
      fun hne => absurd rfl hne, fun _ => by simp, fun other hother => by simp [hother], hfrozen⟩
    rw [hindex, Table.get?_put, if_pos rfl]

theorem Admits.attach_meets {slot : Nat} (h : g.Admits (is.entity id) .unchanged)
    (hi : g.index.get? (is.entity id).keyText = some slot) (hs : g.Holds slot cached)
    (hne : cached ≠ id) (hst : strategy ≠ .disallowed) :
    g.attach is id .unchanged strategy = .ok (cached, g, (is.freeze g.type.version).put cached
      ((is.entity cached).meet strategy (is.entity id))) := by
  rw [h.attach_onto hi hs hne (by decide) hst]
  unfold Entity.meet
  split
  · rfl
  · rw [← Instances.entity_freeze is g.type.version, Instances.put_self]

end Group

namespace Cache

/-- A moment `d` of the second run, beside the moment `c` of the first run, whose end is `f`:
the groups stay as they are, and so do the entities, but for some that are as they were in
the first run. -/
structure Replay (f c d : Cache) : Prop where
  rest : d = { f with instances := d.instances }
  frozen : d.instances.frozen = f.instances.frozen
  grows : Grows f d
  entity : ∀ id < f.instances.count,
    d.entity id = f.entity id ∨ c.IsCached id ∧ d.entity id = c.entity id

theorem Replay.start (f c : Cache) : Replay f c f :=
  ⟨rfl, rfl, Nat.le_refl _, fun _ _ => Or.inl rfl⟩

theorem Replay.catalog {f c d : Cache} (h : Replay f c d) : d.catalog = f.catalog := by rw [h.rest]

theorem Replay.groups {f c d : Cache} (h : Replay f c d) : d.groups = f.groups := by rw [h.rest]

end Cache

namespace Action

variable {α β : Type} {catalog : Catalog} {strategy : MergeStrategy}

/-- An action of an import that comes to the same when the import is made a second time. -/
structure Repeats (catalog : Catalog) (strategy : MergeStrategy) (a : Action α) : Prop where
  keeps : a.Keeps (SoundIn catalog) (Later strategy)
  again : ∀ {f c d c' x}, f.SoundIn catalog → c.SoundIn catalog → a.on c = (.ok x, c') →
    Later strategy c' f → Replay f c d → ∃ d', a.on d = (.ok x, d') ∧ Replay f c' d'

namespace Repeats

theorem pure (x : α) : (pure x : Action α).Repeats catalog strategy where
  keeps := .pure x
  again _ _ ha _ hr := by
    cases ha
    exact ⟨_, rfl, hr⟩

theorem throw (fault : Fault) : (throw fault : Action α).Repeats catalog strategy where
  keeps := .throw fault
  again _ _ ha := by cases ha

theorem bind {a : Action α} {f : α → Action β} (ha : a.Repeats catalog strategy)
    (hf : ∀ x, (f x).Repeats catalog strategy) : (a >>= f).Repeats catalog strategy where
  keeps := ha.keeps.bind fun x => (hf x).keeps
  again {last c d c' y} hlast hc h hl hr := by
    rw [on_bind] at h
    cases hx : a.on c with
    | mk r c₁ =>
      rw [hx] at h
      cases r with
      | error fault => cases h
      | ok x =>
        have hc₁ : c₁.SoundIn catalog := by
          have hk := (ha.keeps c hc).holds
          rwa [hx] at hk
        have hrest : Later strategy c₁ c' := by
          have hk := ((hf x).keeps c₁ hc₁).related
          rwa [show (f x).on c₁ = (.ok y, c') from h] at hk
        obtain ⟨d₁, hd₁, hr₁⟩ := ha.again hlast hc hx (IsTrans.trans _ _ _ hrest hl) hr
        obtain ⟨d', hd', hr'⟩ := (hf x).again hlast hc₁ h hl hr₁
        exact ⟨d', by rw [on_bind_ok hd₁, hd'], hr'⟩

theorem discard {a : Action α} (ha : a.Repeats catalog strategy) :
    (discard a : Action PUnit).Repeats catalog strategy := ha.bind fun _ => .pure _

theorem lift {x : Except Fault α} {f : α → Action β}
    (hf : ∀ a, x = .ok a → (f a).Repeats catalog strategy) :
    ((liftM x : Action α) >>= f).Repeats catalog strategy where
  keeps _ hc := .lift_bind hc fun a ha => (hf a ha).keeps _ hc
  again {_ c d _ _} hlast hc h hl hr := by
    rw [on_bind, on_lift] at h
    cases x with
    | error fault => cases h
    | ok a =>
      rw [on_bind_ok (on_lift _ d)]
      exact (hf a rfl).again hlast hc h hl hr

/-- What an import reads of the cache is its catalog. -/
theorem get_bind {f : Cache → Action α} (hread : ∀ c c', c.catalog = c'.catalog → f c = f c')
    (hf : ∀ c, c.SoundIn catalog → (f c).Repeats catalog strategy) :
    ((get : Action Cache) >>= f).Repeats catalog strategy where
  keeps := .get_bind fun c hc => (hf c hc).keeps c hc
  again {last c d c' y} hlast hc h hl hr := by
    rw [on_bind_ok (on_get c)] at h
    rw [on_bind_ok (on_get d), hread d c (hr.catalog.trans (hlast.catalog.trans hc.catalog.symm))]
    exact (hf c hc).again hlast hc h hl hr

theorem forM {f : α → Action PUnit} {xs : List α} (hf : ∀ x ∈ xs, (f x).Repeats catalog strategy) :
    (xs.forM f).Repeats catalog strategy := by
  induction xs with
  | nil => exact pure ()
  | cons x xs ih =>
    have hrest := ih fun y hy => hf y (List.mem_cons_of_mem x hy)
    exact bind (hf x List.mem_cons_self) fun _ => hrest

end Repeats

/-- An entity that has been placed for a node has nothing to learn from that node. -/
theorem meet_of_placed (t : EntityType) (node : Json) {e : Entity}
    (he : e = { Entity.ofNode t node with
      state := .unchanged, groupKey := some (Entity.ofNode t node).keyText }) :
    e.meet strategy (Entity.ofNode t node) = e := by
  have hsame : e.mergeFrom (Entity.ofNode t node) = e :=
    Entity.mergeFrom_of_same (by rw [he]) (by rw [he]; exact Entity.originals_ofNode t node)
  unfold Entity.meet Entity.absorb
  rw [hsame, he]
  split <;> rfl

section Arrivals

variable {c c' d f : Cache} {t : EntityType} {node : Json} {x : InstanceId}

/-- A node has arrived: it has met the instance cached under its key, or has become that
instance. -/
structure Arrival (strategy : MergeStrategy) (t : EntityType) (node : Json) (c : Cache)
    (x : InstanceId) (c' : Cache) : Prop where
  registered : ∃ u, c.catalog.find t.name = .ok u
  complete : (Entity.ofNode t node).ownKey.isComplete
  group : ∃ g slot, c'.groups.get? t.name = some g ∧
    g.index.get? (Entity.ofNode t node).keyText = some slot ∧ g.Holds slot x
  met : c.IsCached x → c'.entity x = (c.entity x).meet strategy (Entity.ofNode t node)
  placed : ¬ c.IsCached x → c'.entity x = { Entity.ofNode t node with
    state := .unchanged, groupKey := some (Entity.ofNode t node).keyText }
  others : ∀ id, c.IsCached id → id ≠ x → c'.entity id = c.entity id
  frozen : t.version ∈ c'.instances.frozen

theorem arrive_ok (hc : c.SoundIn catalog) (ht : catalog.type? t.name = some t)
    (h : (arrive strategy t node).on c = (.ok x, c')) : Arrival strategy t node c x c' := by
  have hw := hc.withNewcomer ht node
  have hnew := newcomer_not_cached hc.sound t node
  have hnode : (c.withNewcomer t node).instances.entity c.instances.count =
    Entity.ofNode t node := newcomer_entity c t node
  have hold : ∀ {id}, c.IsCached id → id ≠ c.instances.count ∧
      (c.withNewcomer t node).entity id = c.entity id := by
    rintro id ⟨name, slot, hs⟩
    have hlt := hc.sound.given hs
    exact ⟨Nat.ne_of_lt hlt, withNewcomer_entity hlt t node⟩
  rw [arrive_eq] at h
  cases hfind : c.catalog.find t.name with
  | error fault => rw [hfind] at h; cases h
  | ok u =>
    rw [hfind] at h
    obtain ⟨c₁, g, g', is, hopens, hg, ha, rfl⟩ := join_ok h
    have hc₁ := hopens.soundIn hw ht
    have hgs : g.Sound (c.withNewcomer t node).instances := by
      have hgs := hc₁.sound.groups hg
      rwa [hopens.instances] at hgs
    have hgt : g.type = t := hc₁.group_type ht hg
    have hout : ∀ slot, ¬ g.Holds slot c.instances.count :=
      fun slot hs => hnew ⟨t.name, slot, hopens.holds ⟨g, hg, hs⟩⟩
    have harrived := (Group.attach_spec ha).2.arrived hgs hout
    have hcomplete := Group.attach_complete ha
    obtain ⟨⟨slot, hi, hs⟩, hheld, hmet, hplaced, hothers, hfrozen⟩ := harrived
    rw [hnode] at hcomplete hi hmet hplaced
    refine ⟨⟨u, hfind⟩, hcomplete, ⟨g', slot, by simp [get?_putGroup], hi, hs⟩, fun hx => ?_,
      fun hx => ?_, fun id hid hne => ?_, by rwa [← hgt]⟩
    · obtain ⟨hne, he⟩ := hold hx
      rw [← he]
      exact hmet hne
    · by_cases hxc : x = c.instances.count
      · subst hxc
        exact hplaced rfl
      · obtain ⟨slot, hs⟩ := hheld hxc
        exact absurd ⟨t.name, slot, hopens.holds ⟨g, hg, hs⟩⟩ hx
    · obtain ⟨-, he⟩ := hold hid
      rw [← he]
      exact hothers id hne

/-- Its own node changes nothing of what the node has arrived at. -/
theorem Arrival.meets_again (hc : c.SoundIn catalog) (hc' : c'.SoundIn catalog)
    (ht : catalog.type? t.name = some t) (h : Arrival strategy t node c x c') :
    (c'.entity x).meet strategy (Entity.ofNode t node) = c'.entity x := by
  obtain ⟨htype, hcomplete⟩ := Entity.ofNode_spec t node
  by_cases hx : c.IsCached x
  · obtain ⟨g, slot, hg, -, hs⟩ := h.group
    have hxt : (c.entity x).type = t := by
      have hkept : (c'.entity x).type = (c.entity x).type := by
        rw [h.met hx]
        unfold Entity.meet
        split <;> rfl
      rw [← hkept, ← hc'.group_type ht hg]
      exact (hc'.sound.groups hg).typed hs
    have hdistinct : (c.entity x).type.DistinctNames := by
      rw [hxt]
      exact hc.sound.distinct (by rwa [hc.catalog])
    rw [h.met hx]
    exact Entity.meet_meet hdistinct hcomplete (htype.trans hxt.symm)
  · exact meet_of_placed t node (h.placed hx)

/-- The node arrives again at the same instance, where it only adds a newcomer that nobody
gets to see. -/
theorem Arrival.on_again (h : Arrival strategy t node c x c') (hst : strategy ≠ .disallowed)
    (ht : catalog.type? t.name = some t) (hc : c.SoundIn catalog) (hf : f.SoundIn catalog)
    (hl : Later strategy c' f) (hr : Replay f c d) :
    (arrive strategy t node).on d = (.ok x, { d with
      instances := Instances.put (d.withNewcomer t node).instances x
        ((d.entity x).meet strategy (Entity.ofNode t node)) }) := by
  obtain ⟨⟨u, hfind⟩, hcomplete, ⟨g, slot, hg, hi, hs⟩, -, -, -, hfrozen⟩ := h
  obtain ⟨htype, -⟩ := Entity.ofNode_spec t node
  obtain ⟨g', hg', hext⟩ := hl.groups hg
  have hgt : g'.type = t := hf.group_type ht hg'
  have hlt : x < d.instances.count :=
    Nat.lt_of_lt_of_le (hf.sound.given ⟨g', hg', hext.holds hs⟩) hr.grows
  have hnode : (d.withNewcomer t node).instances.entity d.instances.count =
    Entity.ofNode t node := newcomer_entity d t node
  have hentity : (d.withNewcomer t node).instances.entity x = d.entity x :=
    withNewcomer_entity hlt t node
  have hnofreeze : (d.withNewcomer t node).instances.freeze g'.type.version =
      (d.withNewcomer t node).instances := by
    refine Instances.freeze_of_mem ?_
    rw [hgt]
    exact hr.frozen ▸ hl.frozen _ hfrozen
  have hattach : g'.attach (d.withNewcomer t node).instances d.instances.count .unchanged strategy =
      .ok (x, g', (d.withNewcomer t node).instances.put x
        ((d.entity x).meet strategy (Entity.ofNode t node))) := by
    have hadmits : g'.Admits ((d.withNewcomer t node).instances.entity d.instances.count)
        .unchanged := by
      rw [hnode]
      exact ⟨by rw [htype, hgt], by decide, hcomplete⟩
    refine (hadmits.attach_meets ?_ (hext.holds hs) (Nat.ne_of_lt hlt) hst).trans ?_
    · rw [hnode]
      exact hext.index hi
    · rw [hnofreeze, hnode, hentity]
  have hgroups : (d.withNewcomer t node).groups = f.groups := hr.groups
  have hfound : d.catalog.find t.name = .ok u := by
    rwa [hr.catalog, hf.catalog, ← hc.catalog]
  rw [arrive_eq, hfound]
  dsimp only
  rw [join_on_ok .there (by rw [hgroups, hg']) hattach, hgroups, putGroup_self hf.sound.ordered hg',
    ← hr.groups]
  rfl

theorem arrive_repeats (hst : strategy ≠ .disallowed) (ht : catalog.type? t.name = some t)
    (node : Json) : (arrive strategy t node).Repeats catalog strategy where
  keeps := arrive_later ht node
  again {f c d c' x} hf hc h hl hr := by
    have harrival := arrive_ok hc ht h
    have hkept : (arrive strategy t node).KeepsAt (SoundIn catalog) (Later strategy) c :=
      arrive_later ht node c hc
    have hc' : c'.SoundIn catalog := by
      have hsound := hkept.holds
      rwa [h] at hsound
    have hlater : Later strategy c c' := by
      have hl := hkept.related
      rwa [h] at hl
    have hagain := harrival.meets_again hc hc' ht
    obtain ⟨g, slot, hg, hi, hs⟩ := harrival.group
    have hx : c'.IsCached x := ⟨t.name, slot, g, hg, hs⟩
    obtain ⟨htype, hcomplete⟩ := Entity.ofNode_spec t node
    have hxt : (c'.entity x).type = t := by
      rw [← hc'.group_type ht hg]
      exact (hc'.sound.groups hg).typed hs
    have hdistinct : (c'.entity x).type.DistinctNames := by
      rw [hxt]
      exact hc'.sound.distinct (by rwa [hc'.catalog])
    have hnext : (d.entity x).meet strategy (Entity.ofNode t node) = f.entity x ∨
        (d.entity x).meet strategy (Entity.ofNode t node) = c'.entity x := by
      obtain ⟨g', hg', hext⟩ := hl.groups hg
      rcases hr.entity x (hf.sound.given ⟨g', hg', hext.holds hs⟩) with hd | ⟨hcached, hd⟩
      · rw [hd, ← hagain]
        exact (hl.settles x hx).meet_cases hcomplete (htype.trans hxt.symm)
      · rw [hd]
        exact Or.inr (harrival.met hcached).symm
    refine ⟨_, harrival.on_again hst ht hc hf hl hr, ?_, hr.frozen, Nat.le_succ_of_le hr.grows,
      fun id hid => ?_⟩
    · rw [hr.rest]
    · have hkept : (d.withNewcomer t node).entity id = d.entity id :=
        withNewcomer_entity (Nat.lt_of_lt_of_le hid hr.grows) t node
      by_cases hix : id = x
      · subst hix
        simpa [entity, hx] using hnext
      · have hsame : ∀ e, ((d.withNewcomer t node).instances.put x e).entity id = d.entity id := by
          intro e
          rw [Instances.entity_put, if_neg hix]
          exact hkept
        rw [entity, hsame]
        refine (hr.entity id hid).imp_right fun hnew => ?_
        obtain ⟨hcached, hd⟩ := hnew
        exact ⟨hlater.isCached hcached, by rw [hd, harrival.others id hcached hix]⟩

end Arrivals

section Nodes

variable {adapter : Adapter}

theorem found_in_catalog {c : Cache} {name : String} {t : EntityType} (hc : c.SoundIn catalog)
    (h : c.catalog.type? name = some t) : catalog.type? t.name = some t := by
  rw [← hc.catalog]
  exact Catalog.type?_self h

theorem materialize_repeats (hst : strategy ≠ .disallowed) (fuel : Nat) {t : EntityType}
    (node : Json) (ht : catalog.type? t.name = some t) :
    (materialize adapter strategy fuel t node).Repeats catalog strategy := by
  induction fuel generalizing t node with
  | zero => exact .throw _
  | succ fuel ih =>
    have hrelated : ∀ p,
        (materializeRelated adapter strategy fuel node p).Repeats catalog strategy := by
      intro p
      unfold materializeRelated
      split
      · exact .pure _
      · refine .get_bind (fun c c' h => by rw [h]) fun c hc => .lift fun target htarget => ?_
        have hfound := found_in_catalog hc (Catalog.find_ok htarget)
        refine .forM fun n _ => .get_bind (fun c c' h => by simp only [declaredType?, h])
          fun c hc => .discard (ih n ?_)
        cases hd : c.declaredType? adapter n with
        | none => exact hfound
        | some u => exact declaredType?_found found_in_catalog hc hd
    rw [materialize_succ]
    split
    · exact .throw _
    · exact (arrive_repeats hst ht node).bind fun cached =>
        (Repeats.forM fun p _ => hrelated p).bind fun _ => .pure cached

theorem importNodes_repeats (adapter : Adapter) (hst : strategy ≠ .disallowed) (isProjection : Bool)
    {standard : Option EntityType}
    (hs : ∀ t, standard = some t → catalog.type? t.name = some t)
    (nodes : List Json) (result : Imported) :
    (importNodes adapter strategy isProjection standard nodes result).Repeats catalog strategy := by
  induction nodes generalizing result with
  | nil => exact .pure _
  | cons node rest ih =>
    refine .get_bind (fun c c' h => by simp only [declaredType?, h]) fun c hc => ?_
    dsimp only
    split
    · rename_i t ht
      refine .bind (materialize_repeats hst node.height node ?_) fun _ => ih _
      cases isProjection with
      | true => cases ht
      | false =>
        rcases Option.or_eq_some_iff.mp ht with hd | ⟨-, hd⟩
        · exact declaredType?_found found_in_catalog hc hd
        · exact hs t hd
    · exact ih _

end Nodes

/-- An import reads an answer, and then the nodes in it. -/
theorem importResults_cases (payload : Json) (q : Query) (adapter : Adapter) (c : Cache) :
    (∃ fault, (importResults payload q adapter).on c = (.error fault, c)) ∨
    ∃ (extracted : PayloadContent) (target : Target), q.target c.catalog = .ok target ∧
      ∀ d : Cache, d.catalog = c.catalog → (importResults payload q adapter).on d =
        (importNodes adapter (effectiveStrategy d q) (!q.selected.isEmpty) target.entityType?
          extracted.nodes { inlineCount := extracted.inlineCount }).on d := by
  unfold importResults
  cases adapter.extract payload with
  | error fault => exact Or.inl ⟨fault, on_bind_error (on_lift _ c) _⟩
  | ok extracted =>
    cases htarget : q.target c.catalog with
    | error fault =>
      refine Or.inl ⟨fault, ?_⟩
      rw [on_bind_ok (on_lift _ c), on_bind_ok (on_get c), htarget,
        on_bind_error (on_lift _ c)]
    | ok target =>
      refine Or.inr ⟨extracted, target, rfl, fun d hd => ?_⟩
      rw [on_bind_ok (on_lift _ d), on_bind_ok (on_get d), hd, htarget,
        on_bind_ok (on_lift _ d), on_bind_ok (on_get d), effectiveStrategy]

/-- Importing the same answer again succeeds, hands out the same instances and projections,
and leaves the cache as the first import left it: the second one only adds newcomers of its
own, which nobody gets to see. -/
theorem importResults_again {c c₁ : Cache} {payload : Json} {q : Query} {adapter : Adapter}
    {imported : Imported} (hf : c.Formed) (hi : c.Indexed)
    (hst : effectiveStrategy c q ≠ .disallowed)
    (hok : (importResults payload q adapter).on c = (.ok imported, c₁)) :
    ∃ is, (importResults payload q adapter).on c₁ = (.ok imported, { c₁ with instances := is }) ∧
      is.frozen = c₁.instances.frozen ∧
      ∀ id < c₁.instances.count, is.entity id = c₁.entity id := by
  have hc : c.SoundIn c.catalog := ⟨hf.sound hi, rfl⟩
  rcases importResults_cases payload q adapter c with
    ⟨fault, hfault⟩ | ⟨extracted, target, ht, hrun⟩
  · cases hfault.symm.trans hok
  · have hrepeats := importNodes_repeats adapter hst (!q.selected.isEmpty)
      (fun t hs => (Query.target_found ht hs).elim fun _ hn => found_in_catalog hc hn)
      extracted.nodes { inlineCount := extracted.inlineCount }
    have hnodes := (hrun c rfl).symm.trans hok
    have hkept := hrepeats.keeps c hc
    have hc₁ : c₁.SoundIn c.catalog := by
      have hsound := hkept.holds
      rwa [hnodes] at hsound
    have hlater : Later (effectiveStrategy c q) c c₁ := by
      have hl := hkept.related
      rwa [hnodes] at hl
    obtain ⟨d, hd, hr⟩ :=
      hrepeats.again hc₁ hc hnodes (Std.Refl.refl c₁) (Replay.start c₁ c)
    have hsame : effectiveStrategy c₁ q = effectiveStrategy c q := by
      rw [effectiveStrategy, effectiveStrategy, hlater.settings]
    refine ⟨d.instances, ?_, hr.frozen, fun id hid => ?_⟩
    · rw [hrun c₁ hlater.catalog, hsame, hd, ← hr.rest]
    · rcases hr.entity id hid with he | ⟨-, he⟩
      · exact he
      · exact he

/-- An edited customer, whom two nodes of the answer speak of differently, and so do two
nodes of the same order inside the first. -/
theorem edited_customer_imported_twice :
    let c := salesCache.run [.create "Customer", .set 0 "id" (.integer 7),
      .attach 0 .unchanged none, .set 0 "name" (.text "edited")]
    let q := (Query.toType {} "Customer").withStrategy .overwriteChanges
    let order (customer : Int) : Json := .obj [("id", .int 1), ("customerId", .int customer)]
    let payload : Json := .arr [
      .obj [("id", .int 7), ("name", .str "x"), ("orders", .arr [order 7, order 8])],
      .obj [("id", .int 7), ("name", .str "y")]]
    let c₁ := ((importResults payload q PayloadFormat.odata).on c).2
    c.Formed ∧ c.Indexed ∧ effectiveStrategy c q ≠ .disallowed ∧
      (c.entity 0).state = .modified ∧ c₁.slotsOf "Order" = some [some 2] ∧
      ∃ imported, imported.entities = [0, 0] ∧
        (importResults payload q PayloadFormat.odata).on c = (.ok imported, c₁) ∧
        ∃ is, (importResults payload q PayloadFormat.odata).on c₁ =
            (.ok imported, { c₁ with instances := is }) ∧
          is.frozen = c₁.instances.frozen ∧
          ∀ id < c₁.instances.count, is.entity id = c₁.entity id := by
  intro c q order payload c₁
  have hsound : c.SoundIn sales := by
    refine run_keeps_sound sound_salesCache (by decide +kernel) fun n op hop => ?_
    match n, hop with
    | 0, hop => cases hop; trivial
    | 1, hop => cases hop; trivial
    | 2, hop => cases hop; intro hs; cases hs
    | 3, hop => cases hop; trivial
  have hst : effectiveStrategy c q ≠ .disallowed := by decide +kernel
  have hentities : ((importResults payload q PayloadFormat.odata).on c).1.toOption.map
      (·.entities) = some [0, 0] := by decide +kernel
  refine ⟨hsound.sound.formed, hsound.sound.indexed, hst, by decide +kernel, by decide +kernel, ?_⟩
  cases hrun : (importResults payload q PayloadFormat.odata).on c with
  | mk r c' =>
    rw [hrun] at hentities
    cases r with
    | error fault => cases hentities
    | ok imported =>
      have hlast : c₁ = c' := congrArg Prod.snd hrun
      rw [hlast]
      exact ⟨imported, Option.some.inj hentities, rfl,
        importResults_again hsound.sound.formed hsound.sound.indexed hst hrun⟩

end Action

end EntityCache
