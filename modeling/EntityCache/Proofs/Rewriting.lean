import EntityCache.Proofs.JoiningKeys

/-! The three calls that write to keys of entities in their slots. The cache is still
indexed after them exactly if each of these keys comes out with the text that it had. -/
namespace EntityCache

open Cache

/-- The group key of an entity in a slot is the text of its key, before and after. -/
theorem Cache.Sound.keyText_of_indexed {c c' : Cache} (hc : c.Sound) (hi : c'.Indexed)
    {name : String} {slot : Nat} {id : InstanceId} (hs : c.Holds name slot id)
    (hs' : c'.Holds name slot id) (hg : (c'.entity id).groupKey = (c.entity id).groupKey) :
    (c'.entity id).keyText = (c.entity id).keyText := by
  obtain ⟨key, hkey, hk⟩ := hi.labelled hs'
  have hnow := (keyText_eq_iff _ _).mp ((hi.current hs' key).mp hk)
  obtain ⟨g, hg', hs⟩ := hs
  have hlabel := (hc.groups hg').attached hs
  rw [hg] at hkey
  exact hnow.trans (Option.some.inj (hkey.symm.trans hlabel))

/-- Only values are written, and states that stay in the cache. -/
structure Cache.Rewrites (c c' : Cache) : Prop where
  catalog : c'.catalog = c.catalog
  groups : c'.groups = c.groups
  count : c'.instances.count = c.instances.count
  type : ∀ id, (c'.entity id).type = (c.entity id).type
  groupKey : ∀ id, (c'.entity id).groupKey = (c.entity id).groupKey
  tracked : ∀ id, (c.entity id).state ≠ .detached → (c'.entity id).state ≠ .detached
  complete : ∀ id, (c.entity id).Complete → (c'.entity id).Complete

namespace Cache.Rewrites

variable {c c' : Cache}

theorem holds_iff (h : Rewrites c c') {name : String} {slot : Nat} {id : InstanceId} :
    c'.Holds name slot id ↔ c.Holds name slot id := by rw [Holds, Holds, h.groups]

theorem sound (h : Rewrites c c') (hc : c.Sound)
    (hk : ∀ id, c.IsCached id → (c'.entity id).keyText = (c.entity id).keyText) : c'.Sound :=
  (hc.edited h.count h.type h.complete fun {name slot id} hs =>
    ⟨h.type id, h.groupKey id, fun _ => hk id ⟨name, slot, hs⟩, h.tracked id,
      h.complete id⟩).of_same h.catalog h.groups rfl

theorem keyText_of_indexed (h : Rewrites c c') (hc : c.Sound) (hi : c'.Indexed)
    {id : InstanceId} (hs : c.IsCached id) : (c'.entity id).keyText = (c.entity id).keyText := by
  obtain ⟨name, slot, hs⟩ := hs
  exact hc.keyText_of_indexed hi hs (h.holds_iff.mpr hs) (h.groupKey id)

theorem of_put {id : InstanceId} {e : Entity} {keys : TempKeys}
    (ht : e.type = (c.entity id).type) (hg : e.groupKey = (c.entity id).groupKey)
    (hs : (c.entity id).state ≠ .detached → e.state ≠ .detached)
    (hc : (c.entity id).Complete → e.Complete) :
    Rewrites c { c with keys, instances := c.instances.put id e } := by
  refine ⟨rfl, rfl, rfl, fun other => ?_, fun other => ?_, fun other => ?_, fun other => ?_⟩ <;>
    by_cases ho : other = id
  · subst ho; simpa [entity] using ht
  · simp [ho, entity]
  · subst ho; simpa [entity] using hg
  · simp [ho, entity]
  · subst ho; simpa [entity] using hs
  · simp [ho, entity]
  · subst ho; simpa [entity] using hc
  · simp [ho, entity]

end Cache.Rewrites

instance : IsPreorder Cache Cache.Rewrites where
  refl _ := ⟨rfl, rfl, rfl, fun _ => rfl, fun _ => rfl, fun _ => id, fun _ => id⟩
  trans _ _ _ h k :=
    { catalog := k.catalog.trans h.catalog
      groups := k.groups.trans h.groups
      count := k.count.trans h.count
      type := fun id => (k.type id).trans (h.type id)
      groupKey := fun id => (k.groupKey id).trans (h.groupKey id)
      tracked := fun id hs => k.tracked id (h.tracked id hs)
      complete := fun id hc => k.complete id (h.complete id hc) }

namespace Action

variable {catalog : Catalog} {c c' : Cache}

section Attach

variable {t : EntityType} {id : InstanceId} {state : EntityState} {strategy : MergeStrategy}
  {temp : Option Value}

/-- Joining is sound for whoever is not in a slot, or has not been given a key. -/
theorem Joined.keeps (hc : c.SoundIn catalog) (hid : id < c.instances.count)
    (ht : (c.entity id).type = t) (hn : temp ≠ none → ¬ c.IsCached id)
    (h : Joined t id state strategy c temp c') : c'.SoundIn catalog ∧ Grows c c' := by
  have hreg : catalog.type? t.name = some t := by
    rw [← hc.catalog, ← ht]
    exact hc.sound.known id hid
  cases h with
  | refused ho _ => exact ⟨ho.soundIn hc hreg, ho.grows⟩
  | @withdrawn c₁ p v keys ho hp =>
    have hsound := ho.soundIn hc hreg
    have hput : Sound { c₁ with
        instances := c₁.instances.put id (Action.withdrawn (c.entity id) p) } := by
      have he : c₁.entity id = c.entity id := by rw [entity, ho.instances]; rfl
      refine hsound.sound.put ?_ ?_ fun hcached => ?_
      · rw [he]; rfl
      · rw [he]; exact fun hcomplete => hcomplete.write _ _
      · obtain ⟨name, slot, hs⟩ := hcached
        exact absurd ⟨name, slot, ho.holds hs⟩ (hn (by simp))
    exact ⟨⟨hput.of_same rfl rfl (by rw [ho.instances]), hsound.catalog⟩, Nat.le_refl _⟩
  | @joined c₁ _ cached g g' is ho hg hs ha =>
    have hsound := ho.soundIn hc hreg
    have hgs : g.Sound c.instances := by rw [← ho.instances]; exact hsound.sound.groups hg
    have hgt : (c.entity id).type = g.type := by
      have hown := hsound.sound.registered hg
      rw [hsound.catalog, hreg] at hown
      exact ht.trans (Option.some.inj hown)
    obtain ⟨hedits, hgt'⟩ := ha.edits hgs hgt
    have hkeep : Sound { c₁ with groups := putGroup t.name g' c₁.groups, instances := is } := by
      refine hsound.sound.keep hg (hgs.attached_call hs hgt (hc.sound.complete id hid) ha) hgt'
        (by rwa [ho.instances]) fun {slot i} hm => ?_
      rw [ho.instances]
      rcases ha.stays hgs hm with hm | ⟨rfl, -⟩
      · exact hc.sound.given (ho.holds ⟨g, hg, hm⟩)
      · exact hid
    exact ⟨⟨hkeep, hsound.catalog⟩, Nat.le_of_eq hedits.count.symm⟩

/-- What has a slot and is placed again has two. -/
theorem not_indexed_place {g : Group} (hgs : g.Sound c.instances) {slot : Nat}
    (hs : g.Holds slot id) (c₁ : Cache) (name key : String) (is : Instances) :
    ¬ Indexed { c₁ with groups := putGroup name (g.place key id) c₁.groups, instances := is } := by
  obtain ⟨new, hempty, -, hholds, -⟩ := Group.place_spec hgs.free_iff hgs.free_nodup key id
  intro hindexed
  have hplaced : ∀ slot, (g.place key id).Holds slot id → Cache.Holds
      { c₁ with groups := putGroup name (g.place key id) c₁.groups, instances := is }
      name slot id := fun slot hm => ⟨_, by simp [get?_putGroup], hm⟩
  have htwo := (hindexed.once (hplaced slot ((hholds slot id).mpr (Or.inr hs)))
    (hplaced new ((hholds new id).mpr (Or.inl ⟨rfl, rfl⟩)))).2
  exact hempty id (htwo ▸ hs)

/-- An entity whose key was written to in its slot either gets it back, or had it before, or
comes to be in two slots. -/
theorem Joined.of_cached {c₁ : Cache} (hc : c.SoundIn catalog) (hid : id < c.instances.count)
    (ht : (c.entity id).type = t) {slot : Nat} (hs : c.Holds t.name slot id)
    (hw : Rewrites c c₁) (hother : ∀ other, other ≠ id → c₁.entity other = c.entity other)
    (htemp : temp = none → c₁ = c) (h : Joined t id .added strategy c₁ temp c') :
    (Rewrites c c' ∧ ∀ other, other ≠ id → c'.entity other = c.entity other) ∨
    (c'.SoundIn catalog ∧ Grows c c') ∧ (c'.entity id).keyText = (c.entity id).keyText ∨
    ¬ c'.Indexed ∧ (c'.entity id).keyText ≠ (c.entity id).keyText := by
  obtain ⟨g, hg, hs⟩ := hs
  have hgs := hc.sound.groups hg
  have hg₁ : c₁.groups.get? t.name = some g := by rw [hw.groups, hg]
  have hthere : c₁.groups.get? t.name ≠ none := by simp [hg₁]
  cases h with
  | refused ho hn =>
    obtain rfl := ho.same hthere
    obtain rfl := htemp (hn hthere)
    exact Or.inr (Or.inl ⟨⟨hc, Nat.le_refl _⟩, rfl⟩)
  | withdrawn ho hp =>
    obtain rfl := ho.same hthere
    refine Or.inl ⟨IsTrans.trans _ _ _ hw
      (.of_put rfl rfl (fun k => k) fun hcomplete => hcomplete.write _ _), fun other hne => ?_⟩
    rw [← hother other hne]
    simp [entity, hne]
  | @joined c₂ _ cached g₁ g' is ho hg' hadded ha =>
    obtain rfl := ho.same hthere
    obtain rfl := Option.some.inj (hg₁.symm.trans hg')
    cases ha with
    | merged _ _ hn => exact absurd rfl hn
    | kept _ _ hn => exact absurd rfl hn
    | @again held e hheld hm hi =>
      obtain ⟨i, hi', hk⟩ := (hgs.index_iff _ _).mp hi
      obtain rfl := hheld.unique hi'
      have hsound : c₂.SoundIn catalog := by
        refine ⟨hw.sound hc.sound fun other _ => ?_, hw.catalog.trans hc.catalog⟩
        by_cases ho : other = id
        · subst ho; exact hk.symm
        · rw [hother other ho]
      have hjoined : Joined t id .added strategy c₂ none _ :=
        .joined ho hg' hadded (.again hheld hm hi)
      obtain ⟨hsound', hgrows⟩ := hjoined.keeps hsound (by rwa [hw.count])
        ((hw.type id).trans ht) fun hn => absurd rfl hn
      refine Or.inr (Or.inl ⟨⟨hsound', (Nat.le_of_eq hw.count.symm).trans hgrows⟩, ?_⟩)
      have hattached : (c₂.entity id).isAttached := by
        rw [Entity.isAttached, hw.groupKey]
        exact hgs.isAttached hs
      have hsame := (Entity.continues_moveTo (by decide) hm).keyText hattached
      simpa [entity] using hsame.trans hk.symm
    | placed hn =>
      have hne : (c₂.entity id).keyText ≠ (c.entity id).keyText :=
        (hgs.ne_of_unindexed hn hs).symm
      refine Or.inr (Or.inr ⟨not_indexed_place hgs hs c₂ t.name _ _, ?_⟩)
      refine fun heq => hne (Eq.trans ?_ heq)
      simp only [entity, Instances.entity_put, if_true]
      exact Entity.keyText_congr rfl fun _ _ => rfl

theorem attach_keeps (hc : c.SoundIn catalog) (hid : id < c.instances.count)
    (strategy : Option MergeStrategy) (hn : state = .added → ¬ c.IsCached id) :
    (attach id state strategy).KeepsAt (SoundIn catalog) Grows c := by
  rcases attach_cases id state strategy c with hsame | hj | ⟨hs, p, v, keys, -, hj⟩
  · exact .of_unmoved (Prod.ext rfl hsame) hc
  · obtain ⟨hsound, hgrows⟩ := hj.keeps hc hid rfl fun h => absurd rfl h
    exact ⟨hsound, hgrows⟩
  · have hput := hc.sound.put (e := marked (c.entity id) p v) rfl
      (fun hcomplete => hcomplete.write _ _) fun hcached => absurd hcached (hn hs)
    have hmarked : (withTempKey c id p v keys).SoundIn catalog :=
      ⟨hput.of_same rfl rfl rfl, hc.catalog⟩
    obtain ⟨hsound, hgrows⟩ :=
      hj.keeps hmarked hid (type_withTempKey id p v keys) fun _ => hn hs
    exact ⟨hsound, hgrows⟩

theorem attach_cached_cases (hc : c.SoundIn catalog) (hid : id < c.instances.count)
    (hcached : c.IsCached id) (strategy : Option MergeStrategy) :
    let c' := ((attach id .added strategy).on c).2
    (Rewrites c c' ∧ ∀ other, other ≠ id → c'.entity other = c.entity other) ∨
    (c'.SoundIn catalog ∧ Grows c c') ∧ (c'.entity id).keyText = (c.entity id).keyText ∨
    ¬ c'.Indexed ∧ (c'.entity id).keyText ≠ (c.entity id).keyText := by
  obtain ⟨name, slot, hs⟩ := hcached
  obtain rfl := hc.sound.group_type hs
  have hunmoved : (c.SoundIn catalog ∧ Grows c c) ∧
      (c.entity id).keyText = (c.entity id).keyText := ⟨⟨hc, Nat.le_refl _⟩, rfl⟩
  rcases attach_cases id .added strategy c with hsame | hj | ⟨-, p, v, keys, -, hj⟩
  · dsimp only
    rw [hsame]
    exact Or.inr (Or.inl hunmoved)
  · exact hj.of_cached hc hid rfl hs (Std.Refl.refl c) (fun _ _ => rfl) fun _ => rfl
  · have hw : Rewrites c (withTempKey c id p v keys) :=
      .of_put rfl rfl (fun k => k) fun hcomplete => hcomplete.write _ _
    refine hj.of_cached hc hid rfl hs hw (fun other hne => ?_) fun hn => by cases hn
    rw [entity_withTempKey, if_neg hne]

/-- A cached entity that is attached as Added has the key in the end that it had. Either none is
drawn for it; or the one that is drawn is its own, and it may become Added; or else somebody has
the one that is drawn, and its own is the one of the beginning, which it is given back. -/
def KeyRestored (c : Cache) (id : InstanceId) : Prop := ∀ p v, Draws c id .added p v →
  (c.slot? (c.entity id).type.name (Group.partText p v)).isSome ∧
    (Group.partText p v = (c.entity id).keyText ∧ (c.entity id).state.canBecome .added ∨
      Group.partText p p.initialValue = (c.entity id).keyText)

theorem Draws.presents_of_cached {p : DataProperty} {v : Value} (h : Draws c id .added p v)
    (hc : c.Sound) (hcached : c.IsCached id) : Presents c id .added (Group.partText p v) := by
  obtain ⟨name, slot, hs⟩ := hcached
  obtain rfl := hc.group_type hs
  refine ⟨h.found, ?_, fun g hg => hc.named hg, by decide, .drawn h⟩
  rintro ⟨hnone, -⟩
  obtain ⟨g, hg, -⟩ := hs
  cases hg.symm.trans hnone

theorem keyText_attach_of_set (hset : ∀ p v, ¬ Draws c id state p v)
    (strategy : Option MergeStrategy) :
    (((attach id state strategy).on c).2.entity id).keyText = (c.entity id).keyText := by
  rcases attach_prepared id state c with ⟨fault, h⟩ | ⟨temp, c₁, hfound, hp, hjoins⟩
  · rw [h]
  · cases hp with
    | drawn hadded hsingle hunset hgen =>
      exact absurd ⟨hadded, hfound, hsingle, hunset, _, hgen⟩ (hset _ _)
    | keyed =>
      have hjoined := join_cases (c := c) (c.entity id).type id state (strategy.getD .disallowed)
        fun hn : (none : Option Value) ≠ none => absurd rfl hn
      rw [hjoins]
      generalize ((join _ id state _ none).on c).2 = c' at hjoined
      cases hjoined with
      | refused ho => rw [entity, ho.instances, entity]
      | joined _ _ _ ha => exact ha.keyText

theorem Draws.keyRestored_iff {p : DataProperty} {v : Value} (hd : Draws c id .added p v) :
    KeyRestored c id ↔
      (c.slot? (c.entity id).type.name (Group.partText p v)).isSome ∧
        (Group.partText p v = (c.entity id).keyText ∧ (c.entity id).state.canBecome .added ∨
          Group.partText p p.initialValue = (c.entity id).keyText) := by
  refine ⟨fun hall => hall p v hd, fun hp q w hq => ?_⟩
  obtain ⟨rfl, rfl⟩ := hd.unique hq
  exact hp

theorem Draws.keyText_attach_free {p : DataProperty} {v : Value} (hd : Draws c id .added p v)
    (hc : c.Sound) (hcached : c.IsCached id) (strategy : Option MergeStrategy)
    (hkey : c.slot? (c.entity id).type.name (Group.partText p v) = none) :
    (((attach id .added strategy).on c).2.entity id).keyText = Group.partText p v := by
  obtain ⟨temp, c₁, c₂, g, hasked⟩ := (hd.presents_of_cached hc hcached).asked
  refine hasked.keyText_after (hasked.admits.attach_free ?_)
  rw [hasked.keyText, hasked.index, hkey]

/-- A key that is drawn and leads to somebody is kept if it is the entity's own and the entity may
become Added. -/
theorem Draws.keyText_attach_taken {p : DataProperty} {v : Value} {other : Nat}
    (hd : Draws c id .added p v) (hc : c.Sound) (hcached : c.IsCached id)
    (strategy : Option MergeStrategy)
    (hkey : c.slot? (c.entity id).type.name (Group.partText p v) = some other) :
    (((attach id .added strategy).on c).2.entity id).keyText =
      if Group.partText p v = (c.entity id).keyText ∧ (c.entity id).state.canBecome .added
      then Group.partText p v else Group.partText p p.initialValue := by
  obtain ⟨temp, c₁, c₂, g, hasked⟩ := (hd.presents_of_cached hc hcached).asked
  have hindex : g.index.get? (c₁.instances.entity id).keyText = some other := by
    rw [hasked.keyText, hasked.index, hkey]
  obtain ⟨name, slot, hs⟩ := hcached
  obtain rfl := hc.group_type hs
  by_cases hsame : Group.partText p v = (c.entity id).keyText
  · obtain rfl : slot = other :=
      Option.some.inj ((hc.indexed.slot?_own hs).symm.trans (hsame ▸ hkey))
    have hheld : g.attach c₁.instances id .added (strategy.getD .disallowed) = _ :=
      hasked.admits.attach_held hindex (hasked.holds_iff.mpr hs)
    rw [Entity.moveTo, show (c₁.instances.entity id).state = (c.entity id).state from
      (hasked.prepared.edits id).2.1] at hheld
    cases hcan : (c.entity id).state.canBecome .added with
    | true =>
      rw [hcan, if_pos rfl] at hheld
      rw [if_pos ⟨hsame, rfl⟩, hasked.keyText_after hheld]
    | false =>
      rw [hcan, if_neg Bool.false_ne_true] at hheld
      rw [if_neg (fun h => Bool.false_ne_true h.2), hasked.keyText_refused hd hheld]
  · have hout : ¬ g.Holds other id := fun hm => hsame <| by
      obtain ⟨-, rfl⟩ := hc.indexed.once hs (hasked.holds_iff.mp hm)
      exact ((keyText_eq_iff _ _).mp ((hc.indexed.current hs _).mp hkey)).symm
    obtain ⟨fault, hf⟩ := Group.attach_taken (strategy.getD .disallowed) hindex hout
    rw [if_neg (fun h => hsame h.1), hasked.keyText_refused hd hf]

theorem keyText_attach_cached_iff (hc : c.SoundIn catalog) (hcached : c.IsCached id)
    (strategy : Option MergeStrategy) :
    (((attach id .added strategy).on c).2.entity id).keyText = (c.entity id).keyText ↔
      KeyRestored c id := by
  rcases Classical.em (∃ p v, Draws c id .added p v) with ⟨p, v, hd⟩ | hnone
  · rw [hd.keyRestored_iff]
    cases hkey : c.slot? (c.entity id).type.name (Group.partText p v) with
    | none =>
      rw [hd.keyText_attach_free hc.sound hcached strategy hkey]
      refine iff_of_false (fun hsame => ?_) fun h => by cases h.1
      obtain ⟨name, slot, hs⟩ := hcached
      obtain rfl := hc.sound.group_type hs
      cases (hc.sound.indexed.slot?_own hs).symm.trans (hsame ▸ hkey)
    | some other =>
      rw [hd.keyText_attach_taken hc.sound hcached strategy hkey]
      split
      · rename_i hown
        exact iff_of_true hown.1 ⟨rfl, Or.inl hown⟩
      · rename_i hown
        simp [hown]
  · have hset : ∀ p v, ¬ Draws c id .added p v := fun p v hd => hnone ⟨p, v, hd⟩
    exact iff_of_true (keyText_attach_of_set hset strategy) fun p v hd => absurd hd (hset p v)

theorem keyText_attach_cached (hc : c.SoundIn catalog)
    (hk : state = .added → c.IsCached id → KeyRestored c id) (strategy : Option MergeStrategy)
    (hs : state = .added) (hcached : c.IsCached id) :
    (((attach id state strategy).on c).2.entity id).keyText = (c.entity id).keyText := by
  subst hs
  exact (keyText_attach_cached_iff hc hcached strategy).mpr (hk rfl hcached)

/-- Attaching a cached entity as Added leaves the cache indexed exactly if the entity gets its
key again. -/
theorem attach_cached_indexed_iff (hc : c.SoundIn catalog) (hid : id < c.instances.count)
    (hcached : c.IsCached id) (strategy : Option MergeStrategy) :
    let c' := ((attach id .added strategy).on c).2
    (KeyRestored c id → c'.SoundIn catalog ∧ Grows c c') ∧ (c'.Indexed → KeyRestored c id) := by
  rw [← keyText_attach_cached_iff hc hcached strategy]
  rcases attach_cached_cases hc hid hcached strategy with ⟨hw, hother⟩ | ⟨hsound, hk⟩ | ⟨hi, hk⟩
  · refine ⟨fun hk => ⟨⟨hw.sound hc.sound fun other _ => ?_, hw.catalog.trans hc.catalog⟩,
      Nat.le_of_eq hw.count.symm⟩, fun hi => hw.keyText_of_indexed hc.sound hi hcached⟩
    by_cases ho : other = id
    · subst ho; exact hk
    · rw [hother other ho]
  · exact ⟨fun _ => hsound, fun _ => hk⟩
  · exact ⟨fun h => absurd h hk, fun h => absurd h hi⟩

end Attach


section Reject

def Untouched (id : InstanceId) (c c' : Cache) : Prop :=
  c'.entity id = c.entity id ∧ ∀ name slot, c'.Holds name slot id ↔ c.Holds name slot id

instance (id : InstanceId) : IsPreorder Cache (Untouched id) where
  refl _ := ⟨rfl, fun _ _ => Iff.rfl⟩
  trans _ _ _ h k := ⟨k.1.trans h.1, fun name slot => (k.2 name slot).trans (h.2 name slot)⟩

theorem detach_untouched {id other : InstanceId} (hne : other ≠ id) (c : Cache) :
    Untouched other c ((detach id).on c).2 := by
  rcases detach_cases id c with ⟨fault, -, h⟩ | ⟨g, g', is, keys, hg, hd, h⟩
  · rw [h]
    exact Std.Refl.refl c
  · rw [h]
    obtain ⟨-, -, -, -, -, -, his⟩ := Group.detach_spec hd
    refine ⟨by simp [entity, his, hne], fun name slot => ?_⟩
    simp only [Holds, get?_putGroup]
    split
    · rename_i hname
      subst hname
      simp only [hg, Option.some.injEq, exists_eq_left']
      exact Group.detach_holds hd hne
    · exact Iff.rfl

theorem detach_on_ok (hc : c.Sound) {name : String} {slot : Nat} {id : InstanceId}
    (hs : c.Holds name slot id) : ((detach id).on c).1 = .ok id := by
  obtain rfl := hc.group_type hs
  obtain ⟨g, hg, hs⟩ := hs
  obtain ⟨r, hr⟩ := (hc.groups hg).detach_ok hs
  rcases detach_cases id c with ⟨fault, hn, -⟩ | ⟨_, _, _, _, _, _, h⟩
  · exact absurd hr (hn hg)
  · rw [h]

theorem on_rejectEntity {id : InstanceId} (ha : (c.entity id).state ≠ .added)
    (hd : (c.entity id).state ≠ .detached) : (rejectEntity id).on c =
      (.ok (c.entity id).rejectChanges.state,
        { c with instances := c.instances.put id (c.entity id).rejectChanges }) := by
  unfold rejectEntity
  rw [on_bind_ok (on_stateOf id c)]
  cases hs : (c.entity id).state with
  | added => exact absurd hs ha
  | detached => exact absurd hs hd
  | unchanged | modified | deleted =>
    dsimp only
    rw [on_bind, on_change]
    dsimp only
    rw [on_stateOf]
    simp [entity]

/-- Where edits of an entity in its slot are undone, the values that are remembered of its key
make up the key that it has. -/
def KeyReverts (c : Cache) (id : InstanceId) : Prop :=
  c.IsCached id → (c.entity id).state ≠ .added →
    (c.entity id).keyTextWith (c.entity id).original = (c.entity id).keyText

theorem rewrites_rejectChanges {id : InstanceId} (ha : (c.entity id).state ≠ .added) :
    Rewrites c { c with instances := c.instances.put id (c.entity id).rejectChanges } := by
  refine .of_put rfl rfl (fun hd => ?_) Entity.complete_rejectChanges
  unfold Entity.rejectChanges
  cases hs : (c.entity id).state <;> simp_all

theorem rejectEntity_untouched {id other : InstanceId} (hne : other ≠ id) (c : Cache) :
    Untouched other c ((rejectEntity id).on c).2 := by
  by_cases ha : (c.entity id).state = .added
  · have h := detach_untouched hne c
    unfold rejectEntity
    rw [on_bind_ok (on_stateOf id c), ha]
    dsimp only
    rw [on_bind, on_discard]
    cases hr : ((detach id).on c).1 <;> exact h
  · by_cases hd : (c.entity id).state = .detached
    · unfold rejectEntity
      rw [on_bind_ok (on_stateOf id c), hd]
      exact Std.Refl.refl c
    · rw [on_rejectEntity ha hd]
      exact ⟨by simp [entity, hne], fun _ _ => Iff.rfl⟩

theorem reject_keeps (hc : c.SoundIn catalog) {id : InstanceId} (hk : KeyReverts c id)
    (ha : (c.entity id).state ≠ .added) :
    (change id fun e => .ok e.rejectChanges).KeepsAt (SoundIn catalog) Grows c := by
  have hw := rewrites_rejectChanges ha
  refine .of_on (on_change_ok rfl) ⟨hw.sound hc.sound fun other hs => ?_, hc.catalog⟩
    (Nat.le_refl _)
  by_cases ho : other = id
  · subst ho
    rw [← hk hs ha, ← Entity.keyText_rejectChanges]
    simp [entity]
  · simp [entity, ho]

theorem rejectEntity_keeps (hc : c.SoundIn catalog) {id : InstanceId} (hk : KeyReverts c id) :
    (rejectEntity id).KeepsAt (SoundIn catalog) Grows c :=
  rejectEntity_keepsAt hc (fun _ => detach_keeps id c hc) (reject_keeps hc hk)

/-- Undoing edits never leaves a cache indexed in which it has brought back another key. -/
theorem keyReverts_of_indexed (hc : c.SoundIn catalog) {id : InstanceId}
    (h : Untouched id ((rejectEntity id).on c).2 c') (hi : c'.Indexed) : KeyReverts c id := by
  rintro ⟨name, slot, hs⟩ ha
  have hd : (c.entity id).state ≠ .detached := hc.sound.indexed.tracked hs
  rw [on_rejectEntity ha hd] at h
  have he : c'.entity id = (c.entity id).rejectChanges := h.1.trans (by simp [entity])
  have hk := hc.sound.keyText_of_indexed hi hs ((h.2 name slot).mpr hs) (by rw [he]; rfl)
  rwa [he, Entity.keyText_rejectChanges] at hk

theorem Untouched.isCached_iff {id : InstanceId} (h : Untouched id c c') :
    c'.IsCached id ↔ c.IsCached id :=
  exists_congr fun name => exists_congr fun slot => h.2 name slot

theorem Untouched.keyReverts_iff {id : InstanceId} (h : Untouched id c c') :
    KeyReverts c' id ↔ KeyReverts c id := by
  rw [KeyReverts, KeyReverts, h.isCached_iff, h.1]

def rejectAll (ids : List InstanceId) : Action Unit :=
  ids.forM fun id => discard (rejectEntity id)

theorem rejectAll_untouched {ids : List InstanceId} {id : InstanceId} (hid : id ∉ ids)
    (c : Cache) : Untouched id c ((rejectAll ids).on c).2 := by
  have h : (rejectAll ids).Keeps (fun _ => True) (Untouched id) := Keeps.forM fun other ho =>
    Keeps.discard fun c _ => ⟨trivial, rejectEntity_untouched (fun heq => hid (by rwa [heq])) c⟩
  exact (h c trivial).related

theorem rejectAll_keepsAll {P : Cache → Prop} {R : Cache → Cache → Prop} [IsPreorder Cache R]
    (h : ∀ c id, P c → KeyReverts c id → (rejectEntity id).KeepsAt P R c)
    {ids : List InstanceId} (hnd : ids.Nodup) (hc : P c) (hk : ∀ id ∈ ids, KeyReverts c id) :
    (rejectAll ids).KeepsAt P R c := by
  induction ids generalizing c with
  | nil => exact Keeps.pure () c hc
  | cons id ids ih =>
    obtain ⟨hid, hnd⟩ := List.nodup_cons.mp hnd
    refine (h c id hc (hk id List.mem_cons_self)).discard.bind_at
      fun _ c' ho hc' => ih hnd hc' fun other hother => ?_
    have hne : other ≠ id := fun h => hid (h ▸ hother)
    have huntouched := rejectEntity_untouched hne c
    have hc' : c' = ((rejectEntity id).on c).2 := by
      rw [on_discard] at ho
      exact (congrArg Prod.snd ho).symm
    rw [← hc'] at huntouched
    exact huntouched.keyReverts_iff.mpr (hk other (List.mem_cons_of_mem id hother))

theorem rejectAll_keeps {ids : List InstanceId} (hnd : ids.Nodup) (hc : c.SoundIn catalog)
    (hk : ∀ id ∈ ids, KeyReverts c id) :
    (rejectAll ids).KeepsAt (SoundIn catalog) Grows c :=
  rejectAll_keepsAll (fun _ _ hc hk => rejectEntity_keeps hc hk) hnd hc hk

theorem rejectEntity_on_ok (hc : c.Sound) {id : InstanceId} (hs : c.IsCached id) :
    ∃ state, ((rejectEntity id).on c).1 = .ok state := by
  obtain ⟨name, slot, hs⟩ := hs
  by_cases ha : (c.entity id).state = .added
  · refine ⟨.detached, ?_⟩
    have hok := detach_on_ok hc hs
    unfold rejectEntity
    rw [on_bind_ok (on_stateOf id c), ha]
    dsimp only
    rw [on_bind, on_discard, hok]
    rfl
  · exact ⟨_, by rw [on_rejectEntity ha (hc.indexed.tracked hs)]⟩

theorem keyReverts_of_rejectAll {ids : List InstanceId} (hnd : ids.Nodup)
    (hc : c.SoundIn catalog) (hcached : ∀ id ∈ ids, c.IsCached id)
    (hi : ((rejectAll ids).on c).2.Indexed) : ∀ id ∈ ids, KeyReverts c id := by
  induction ids generalizing c with
  | nil => simp
  | cons id ids ih =>
    obtain ⟨hid, hnd⟩ := List.nodup_cons.mp hnd
    obtain ⟨state, hok⟩ := rejectEntity_on_ok hc.sound (hcached id List.mem_cons_self)
    have hrest : ((rejectAll (id :: ids)).on c).2 =
        ((rejectAll ids).on ((rejectEntity id).on c).2).2 := by
      have hhead : (discard (rejectEntity id) : Action PUnit).on c =
          (.ok (), ((rejectEntity id).on c).2) := by rw [on_discard, hok]; rfl
      exact congrArg Prod.snd (on_bind_ok hhead _)
    rw [hrest] at hi
    have hfirst : KeyReverts c id := keyReverts_of_indexed hc (rejectAll_untouched hid _) hi
    have huntouched : ∀ other ∈ ids, Untouched other c ((rejectEntity id).on c).2 :=
      fun other ho => rejectEntity_untouched (fun heq => hid (by rwa [← heq])) c
    have hlater := ih hnd (rejectEntity_keeps hc hfirst).holds
      (fun other ho => (huntouched other ho).isCached_iff.mpr
        (hcached other (List.mem_cons_of_mem id ho))) hi
    intro other ho
    rcases List.mem_cons.mp ho with rfl | ho
    · exact hfirst
    · exact (huntouched other ho).keyReverts_iff.mp (hlater other ho)

end Reject

section MergeSaved

theorem mergeSaved_rewrites (node : Json) (c : Cache) :
    Rewrites c ((mergeSaved node).on c).2 := by
  unfold mergeSaved
  rw [on_bind_ok (on_get c)]
  dsimp only
  cases c.declaredType? c.service.format node with
  | none => exact Std.Refl.refl c
  | some t =>
    dsimp only
    cases c.find? t.name (t.keyProperties.map fun p =>
        ((node.field? p.wireName).map Value.ofJson).getD .null) with
    | error fault => exact Std.Refl.refl c
    | ok found =>
      cases found with
      | none => exact Std.Refl.refl c
      | some id =>
        exact .of_put (e := (c.entity id).mergeFrom ((c.entity id).withNodeValues t node))
          rfl rfl (fun hs => hs) fun hcomplete => Entity.complete_mergeFrom hcomplete _

theorem mergeAll_rewrites (nodes : List Json) (c : Cache) :
    Rewrites c ((nodes.forM mergeSaved).on c).2 := by
  have h : (nodes.forM mergeSaved).Keeps (fun _ => True) Rewrites :=
    Keeps.forM fun node _ c _ => ⟨trivial, mergeSaved_rewrites node c⟩
  exact (h c trivial).related

end MergeSaved

end Action

end EntityCache
