import EntityCache.Proofs.Joining

/-! What a group is asked when an entity is attached. By then the entity may have been given a
key and the group may have been opened. Whether the group comes to be asked, and for which key,
can be told from the entity, the catalog and the generator as they are before. -/
namespace EntityCache

open Cache EntityCache.Action

theorem Entity.keyText_single {e : Entity} {p : DataProperty} (hp : e.type.keyProperties = [p]) :
    e.keyText = (e.keyValue p).keyText := by
  rw [keyText, ownKey, hp]
  exact Group.inGroup_single e.type.name (e.keyValue p)

theorem Cache.Opens.holds_iff {c c' : Cache} {t : EntityType} (h : Opens t c c') {name : String}
    {slot : Nat} {id : InstanceId} : c'.Holds name slot id ↔ c.Holds name slot id :=
  ⟨h.holds, fun ⟨g, hg, hs⟩ => ⟨g, h.kept hg, hs⟩⟩

theorem Cache.Opens.keys {c c' : Cache} {t : EntityType} (h : Opens t c c') : c'.keys = c.keys := by
  cases h <;> rfl

theorem Cache.slot?_of_put {c c' : Cache} {name : String} {g : Group}
    (h : c'.groups = putGroup name g c.groups) (other key : String) : c'.slot? other key =
      if other = name then g.index.get? key else c.slot? other key := by
  rw [slot?, h, get?_putGroup, slot?]
  split <;> rfl

/-- Nothing is indexed in a group that has just been opened. -/
theorem Cache.Opens.slot?_eq {c c' : Cache} {t : EntityType} (h : Opens t c c')
    (name key : String) :
    c'.slot? name key = c.slot? name key := by
  cases h with
  | there => rfl
  | opened hnone hg =>
    rw [slot?_of_put rfl]
    split
    · rename_i hname
      unfold Group.new at hg
      split at hg <;> cases hg
      rw [hname, slot?, hnone]
      rfl
    · rfl

namespace Group

variable {g : Group} {is : Instances} {id cached : InstanceId} {state : EntityState}
  {strategy : MergeStrategy} {slot : Nat}

theorem attach_complete {r : InstanceId × Group × Instances}
    (h : g.attach is id state strategy = .ok r) : (is.entity id).ownKey.isComplete := by
  obtain ⟨k, hk, -⟩ := bind_ok h
  exact (joiningKey_eq_ok hk).2.2.2

/-- The group looks the entity up by its key. -/
structure Admits (g : Group) (e : Entity) (state : EntityState) : Prop where
  named : e.type.name = g.type.name
  attachable : state ≠ .detached
  complete : e.ownKey.isComplete

namespace Admits

variable (h : g.Admits (is.entity id) state)

include h

theorem joiningKey : g.joiningKey (is.entity id) state = .ok (is.entity id).ownKey := by
  simp [Group.joiningKey, h.named, h.attachable, Entity.key_eq, h.complete, bind, Except.bind,
    pure, Except.pure]

/-- A key that is in no index is placed. -/
theorem attach_free (hi : g.index.get? (is.entity id).keyText = none) :
    g.attach is id state strategy = .ok (id, g.place (is.entity id).keyText id,
      (is.freeze g.type.version).put id
        { is.entity id with state, groupKey := some (is.entity id).keyText }) := by
  have hi : g.index.get? (is.entity id).ownKey.inGroup = none := hi
  simp [attach, h.joiningKey, hi, Entity.keyText, bind, Except.bind, pure, Except.pure]

/-- A key that leads to the entity itself asks the machine of states. -/
theorem attach_held (hi : g.index.get? (is.entity id).keyText = some slot)
    (hs : g.Holds slot id) : g.attach is id state strategy =
      ((is.entity id).moveTo state).map fun e =>
        (id, g, (is.freeze g.type.version).put id e) := by
  have hi : g.index.get? (is.entity id).ownKey.inGroup = some slot := hi
  unfold attach
  rw [h.joiningKey]
  dsimp only [bind, Except.bind]
  rw [hi]
  dsimp only
  rw [occupant_eq_ok.mpr hs]
  dsimp only
  rw [if_pos rfl, Instances.entity_freeze]
  rfl

/-- A key that leads to another one has it take over the values, or keep its own. -/
theorem attach_onto (hi : g.index.get? (is.entity id).keyText = some slot)
    (hs : g.Holds slot cached) (hne : cached ≠ id) (hadded : state ≠ .added)
    (hst : strategy ≠ .disallowed) : g.attach is id state strategy = .ok (cached, g,
      if strategy.overwrites (is.entity cached).state then (is.freeze g.type.version).put cached
        { (is.entity cached).mergeFrom (is.entity id) with state }
      else is.freeze g.type.version) := by
  have hi : g.index.get? (is.entity id).ownKey.inGroup = some slot := hi
  unfold attach
  rw [h.joiningKey]
  dsimp only [bind, Except.bind]
  rw [hi]
  dsimp only
  rw [occupant_eq_ok.mpr hs]
  dsimp only
  rw [if_neg hne, merge, if_neg (by simp [hst, hadded])]
  simp only [Instances.state, Instances.entity_freeze]
  cases strategy.overwrites (is.entity cached).state <;> rfl

end Admits

theorem Attached.keyText {g' : Group} {is' : Instances}
    (h : Attached g is id state strategy cached g' is') :
    (is'.entity id).keyText = (is.entity id).keyText := by
  obtain ⟨next, groupKey, he⟩ := h.entity_eq
  rw [he]
  exact Entity.keyText_congr rfl fun _ _ => rfl

/-- Nobody is added under a key that another one has. -/
theorem attach_taken (strategy : MergeStrategy)
    (hi : g.index.get? (is.entity id).keyText = some slot)
    (hout : ¬ g.Holds slot id) : ∃ fault, g.attach is id .added strategy = .error fault := by
  cases ha : g.attach is id .added strategy with
  | error fault => exact ⟨fault, rfl⟩
  | ok r =>
    obtain ⟨cached, g', is'⟩ := r
    cases (attach_spec ha).2 with
    | again hs _ hown => exact absurd (Option.some.inj (hown.symm.trans hi) ▸ hs) hout
    | merged _ _ hadded => exact absurd rfl hadded
    | kept _ _ hadded => exact absurd rfl hadded
    | placed hn => cases hn.symm.trans hi

end Group

namespace Action

variable {c c' : Cache} {id other : InstanceId} {state : EntityState}
  {p : DataProperty} {v : Value}

def held (e : Entity) (p : DataProperty) : Value := (e.get? p.name).getD .null

/-- Before an entity is attached it is given a key if it is to be Added under a single key
property that is unset. -/
inductive Prepared (c : Cache) (id : InstanceId) (state : EntityState) :
    Option Value → Cache → Prop where
  | keyed : (∀ p, state = .added → (c.entity id).type.keyProperties = [p] →
      isUnset p (held (c.entity id) p) = false) → Prepared c id state none c
  | drawn {p v keys} : state = .added → (c.entity id).type.keyProperties = [p] →
      isUnset p (held (c.entity id) p) →
      c.keys.generate? (c.entity id).type.name p.dataType = some (v, keys) →
      Prepared c id state (some v) (withTempKey c id p v keys)

namespace Prepared

variable {temp : Option Value} {c₁ : Cache}

theorem catalog (h : Prepared c id state temp c₁) : c₁.catalog = c.catalog := by cases h <;> rfl

theorem groups (h : Prepared c id state temp c₁) : c₁.groups = c.groups := by cases h <;> rfl

theorem count (h : Prepared c id state temp c₁) : c₁.instances.count = c.instances.count := by
  cases h <;> rfl

theorem others (h : Prepared c id state temp c₁) {other : InstanceId} (hne : other ≠ id) :
    c₁.entity other = c.entity other := by
  cases h with
  | keyed => rfl
  | drawn => rw [entity_withTempKey, if_neg hne]

theorem entity (h : Prepared c id state temp c₁) : c₁.entity id = c.entity id ∨
    ∃ p v, (c.entity id).type.keyProperties = [p] ∧ isUnset p (held (c.entity id) p) ∧
      temp = some v ∧ c₁.entity id = marked (c.entity id) p v := by
  cases h with
  | keyed => exact Or.inl rfl
  | @drawn p v keys _ hp hu =>
    exact Or.inr ⟨p, v, hp, hu, rfl, by rw [entity_withTempKey, if_pos rfl]⟩

theorem holds_iff (h : Prepared c id state temp c₁) {name : String} {slot : Nat}
    {other : InstanceId} : c₁.Holds name slot other ↔ c.Holds name slot other := by
  rw [Holds, Holds, h.groups]

/-- A key says nothing of edits, and the type stays. -/
theorem edits (h : Prepared c id state temp c₁) (other : InstanceId) :
    (c₁.entity other).type = (c.entity other).type ∧
      (c₁.entity other).state = (c.entity other).state ∧
      (c₁.entity other).originals = (c.entity other).originals := by
  by_cases ho : other = id
  · subst ho
    rcases h.entity with he | ⟨p, v, -, -, -, he⟩ <;> rw [he] <;> exact ⟨rfl, rfl, rfl⟩
  · rw [h.others ho]
    exact ⟨rfl, rfl, rfl⟩

theorem complete (h : Prepared c id state temp c₁) (hc : (c.entity id).Complete) :
    (c₁.entity id).Complete := by
  rcases h.entity with he | ⟨p, v, -, -, -, he⟩
  · rwa [he]
  · rw [he]
    exact Entity.Complete.write hc p.name v

end Prepared

theorem assignTempKey_prepares (id : InstanceId) (c : Cache) :
    (∃ fault, (assignTempKey id).on c = (.error fault, c)) ∨
    ∃ temp c₁, (assignTempKey id).on c = (.ok temp, c₁) ∧ Prepared c id .added temp c₁ := by
  unfold assignTempKey
  rw [on_bind_ok (on_get c)]
  dsimp only
  match hp : (c.entity id).type.keyProperties with
  | [] => exact Or.inr ⟨none, c, rfl, .keyed fun p _ h => by rw [hp] at h; cases h⟩
  | _ :: _ :: _ => exact Or.inr ⟨none, c, rfl, .keyed fun p _ h => by rw [hp] at h; cases h⟩
  | [p] =>
    dsimp only
    cases hu : isUnset p (((c.entity id).get? p.name).getD .null) with
    | false =>
      refine Or.inr ⟨none, c, rfl, .keyed fun q _ h => ?_⟩
      rw [hp] at h
      cases h
      exact hu
    | true =>
      cases hk : c.keys.generate? (c.entity id).type.name p.dataType with
      | none => exact Or.inl ⟨_, rfl⟩
      | some r =>
        obtain ⟨v, keys⟩ := r
        exact Or.inr ⟨some v, _, rfl, .drawn rfl hp hu hk⟩

theorem openGroup_refused {t : EntityType} {c : Cache} {fault : Fault}
    (h : (openGroup t).on c = (.error fault, c')) : t.isAbstract := by
  unfold openGroup at h
  rw [on_bind_ok (on_get c)] at h
  cases hg : c.groups.get? t.name with
  | some g =>
    rw [hg] at h
    cases h
  | none =>
    rw [hg] at h
    dsimp only at h
    cases ha : t.isAbstract with
    | true => rfl
    | false =>
      have hn : Group.new t = .ok { type := t } := by simp [Group.new, ha]
      rw [hn] at h
      cases h

theorem withdrawTempKey_on (v : Value)
    (hp : (c.entity id).type.keyProperties = [p]) : (withdrawTempKey id v).on c =
      (.ok (), { c with
        keys := c.keys.release (c.entity id).type.name v
        instances := c.instances.put id (withdrawn (c.entity id) p) }) := by
  unfold withdrawTempKey
  rw [on_bind_ok (on_get c), on_bind_ok (show (release _ v).on c = _ from rfl), hp]
  rfl

/-- Attaching fails at once, or comes to joining with the key that is there by then. -/
theorem attach_prepared (id : InstanceId) (state : EntityState) (c : Cache) :
    (∃ fault, ∀ strategy, (attach id state strategy).on c = (.error fault, c)) ∨
    ∃ temp c₁, (∃ t, c.catalog.find (c.entity id).type.name = .ok t) ∧
      Prepared c id state temp c₁ ∧ ∀ strategy, (attach id state strategy).on c =
        (join (c.entity id).type id state (strategy.getD .disallowed) temp).on c₁ := by
  simp only [attach_eq]
  cases c.catalog.find (c.entity id).type.name with
  | error fault => exact Or.inl ⟨fault, fun _ => rfl⟩
  | ok t =>
    by_cases hs : state = .added
    · subst hs
      simp only [if_true]
      rcases assignTempKey_prepares id c with ⟨fault, h⟩ | ⟨temp, c₁, h, hp⟩
      · exact Or.inl ⟨fault, fun _ => by rw [on_bind_error h]⟩
      · exact Or.inr ⟨temp, c₁, ⟨t, rfl⟩, hp, fun _ => by rw [on_bind_ok h]⟩
    · simp only [hs, if_false]
      exact Or.inr ⟨none, c, ⟨t, rfl⟩, .keyed fun p hadded => absurd hadded hs, fun _ => rfl⟩

/-- Attaching gives the entity a temporary key: it is to be Added, its type is registered
under a name that finds it, and its single key property is unset. -/
structure Draws (c : Cache) (id : InstanceId) (state : EntityState) (p : DataProperty)
    (v : Value) : Prop where
  added : state = .added
  found : ∃ t, c.catalog.find (c.entity id).type.name = .ok t
  single : (c.entity id).type.keyProperties = [p]
  unset : isUnset p (held (c.entity id) p)
  generated : ∃ keys, c.keys.generate? (c.entity id).type.name p.dataType = some (v, keys)

def Groupless (c : Cache) (t : EntityType) : Prop :=
  c.groups.get? t.name = none ∧ t.isAbstract

theorem Draws.assigns (h : Draws c id state p v) : ∃ keys,
    c.keys.generate? (c.entity id).type.name p.dataType = some (v, keys) ∧
      (assignTempKey id).on c = (.ok (some v), withTempKey c id p v keys) := by
  obtain ⟨keys, hkeys⟩ := h.generated
  have hunset : isUnset p (((c.entity id).get? p.name).getD .null) = true := h.unset
  refine ⟨keys, hkeys, ?_⟩
  unfold assignTempKey
  rw [on_bind_ok (on_get c)]
  simp only [h.single, hunset, hkeys, Bool.not_true, Bool.false_eq_true, if_false]
  rfl

theorem Draws.unique {q : DataProperty} {w : Value} (h : Draws c id state p v)
    (k : Draws c id state q w) : q = p ∧ w = v := by
  obtain rfl : q = p := (List.cons.inj (k.single.symm.trans h.single)).1
  obtain ⟨keys, hkeys⟩ := h.generated
  obtain ⟨keys', hkeys'⟩ := k.generated
  cases hkeys.symm.trans hkeys'
  exact ⟨rfl, rfl⟩

theorem Draws.joins (h : Draws c id state p v) : ∃ keys,
    c.keys.generate? (c.entity id).type.name p.dataType = some (v, keys) ∧
      ∀ strategy, (attach id state strategy).on c =
        (join (c.entity id).type id state (strategy.getD .disallowed) (some v)).on
          (withTempKey c id p v keys) := by
  obtain ⟨keys, hkeys, hassigns⟩ := h.assigns
  obtain ⟨t, hfound⟩ := h.found
  refine ⟨keys, hkeys, fun strategy => ?_⟩
  rw [attach_eq, hfound]
  dsimp only
  rw [if_pos h.added, on_bind_ok hassigns]

theorem Prepared.of_draws {temp : Option Value} {c₁ : Cache} (h : Prepared c id state temp c₁)
    (hd : Draws c id state p v) : ∃ keys,
      c.keys.generate? (c.entity id).type.name p.dataType = some (v, keys) ∧
        temp = some v ∧ c₁ = withTempKey c id p v keys := by
  cases h with
  | keyed hset => exact absurd (hset p hd.added hd.single) (by simp [hd.unset])
  | @drawn q w keys _ hsingle _ hgen =>
    obtain rfl : p = q := List.singleton_inj.mp (hd.single.symm.trans hsingle)
    obtain ⟨keys', hgen'⟩ := hd.generated
    cases hgen.symm.trans hgen'
    exact ⟨keys, hgen, rfl, rfl⟩

theorem Prepared.of_not_draws {temp : Option Value} {c₁ : Cache}
    (h : Prepared c id state temp c₁)
    (hfound : ∃ t, c.catalog.find (c.entity id).type.name = .ok t)
    (hnot : ∀ p v, ¬ Draws c id state p v) : temp = none ∧ c₁ = c := by
  cases h with
  | keyed => exact ⟨rfl, rfl⟩
  | drawn hadded hsingle hunset hgen =>
    exact absurd ⟨hadded, hfound, hsingle, hunset, _, hgen⟩ (hnot _ _)

/-- Where there is no group for an abstract type none is opened; else there is one, or it is
opened without anybody in it. -/
theorem openGroup_on (t : EntityType) (c : Cache) :
    (Groupless c t ∧ ∃ fault, (openGroup t).on c = (.error fault, c)) ∨
    (¬ Groupless c t ∧ ∃ g d, (openGroup t).on c = (.ok g, d) ∧ Opens t c d ∧
      (d.groups = c.groups ↔ c.groups.get? t.name ≠ none)) := by
  rcases openGroup_cases t c with ⟨fault, hnone, ho⟩ | ⟨g, d, ho, hg, hopens⟩
  · exact Or.inl ⟨⟨hnone, openGroup_refused ho⟩, fault, ho⟩
  · refine Or.inr ⟨?_, g, d, ho, hopens, fun hsame hnone => ?_, fun hthere => ?_⟩
    · rintro ⟨hnone, habstract⟩
      cases hopens with
      | there => cases hg.symm.trans hnone
      | opened _ hnew => simp [Group.new, habstract] at hnew
    · rw [hsame, hnone] at hg
      cases hg
    · rw [hopens.same hthere]

theorem openGroup_opens {t : EntityType} {g : Group} (h : Opens t c c')
    (hg : c'.groups.get? t.name = some g) : (openGroup t).on c = (.ok g, c') := by
  unfold openGroup
  rw [on_bind_ok (on_get c)]
  cases h with
  | there =>
    rw [hg]
    rfl
  | opened hn hnew =>
    rw [get?_putGroup, if_pos rfl] at hg
    cases hg
    rw [hn]
    dsimp only
    rw [hnew]
    rfl

theorem not_groupless {t : EntityType} {g : Group} (h : Opens t c c')
    (hg : c'.groups.get? t.name = some g) : ¬ Groupless c t := by
  rcases openGroup_on t c with ⟨-, fault, ho⟩ | ⟨hgroup, -⟩
  · cases ho.symm.trans (openGroup_opens h hg)
  · exact hgroup

section Join

variable {t : EntityType} {g g' : Group} {is : Instances} {cached : InstanceId}
  {strategy : MergeStrategy} {temp : Option Value} {fault : Fault}

theorem join_ok (h : (join t id state strategy temp).on c = (.ok cached, c')) :
    ∃ c₁ g g' is, Opens t c c₁ ∧ c₁.groups.get? t.name = some g ∧
      g.attach c.instances id state strategy = .ok (cached, g', is) ∧
      c' = { c₁ with groups := putGroup t.name g' c₁.groups, instances := is } := by
  unfold join at h
  rcases openGroup_cases t c with ⟨fault, -, ho⟩ | ⟨g, c₁, ho, hg, hopens⟩
  · rw [on_bind_error ho] at h
    cases h
  · rw [on_bind_ok ho, on_bind_ok (on_get c₁), hopens.instances] at h
    cases ha : g.attach c.instances id state strategy with
    | ok r =>
      obtain ⟨x, g', is⟩ := r
      rw [ha] at h
      cases h
      exact ⟨c₁, g, g', is, hopens, hg, ha, rfl⟩
    | error fault =>
      rw [ha] at h
      cases temp with
      | none => cases h
      | some v =>
        dsimp only at h
        rw [on_bind] at h
        split at h <;> cases h

theorem join_on_ok (ho : Opens t c c') (hg : c'.groups.get? t.name = some g)
    (ha : g.attach c.instances id state strategy = .ok (cached, g', is)) :
    (join t id state strategy temp).on c =
      (.ok cached, { c' with groups := putGroup t.name g' c'.groups, instances := is }) := by
  unfold join
  rw [on_bind_ok (openGroup_opens ho hg), on_bind_ok (on_get c'), ho.instances, ha]
  rfl

end Join

def afterWithdrawal (c d : Cache) (id : InstanceId) (p : DataProperty) (v : Value)
    (keys : TempKeys) : Cache :=
  { d with
    keys := keys.release (c.entity id).type.name v
    instances := c.instances.put id (withdrawn (marked (c.entity id) p v) p) }

theorem withdrawTempKey_after {d : Cache} {keys : TempKeys}
    (ho : Opens (c.entity id).type (withTempKey c id p v keys) d)
    (hp : (c.entity id).type.keyProperties = [p]) :
    (withdrawTempKey id v).on d = (.ok (), afterWithdrawal c d id p v keys) := by
  have he : d.entity id = marked (c.entity id) p v := by
    rw [entity, ho.instances]
    exact if_pos rfl
  have hkeys : d.keys = keys := ho.keys
  rw [withdrawTempKey_on v (by rw [he]; exact hp), he, ho.instances, hkeys, afterWithdrawal]
  refine congrArg (fun is => (Except.ok (), { d with
    keys := keys.release (c.entity id).type.name v, instances := is })) ?_
  rw [withTempKey, Instances.put_put]

theorem generate?_isNull {keys keys' : TempKeys} {typeName : String} {d : DataType} {v : Value}
    (h : keys.generate? typeName d = some (v, keys')) : v.isNull = false := by
  obtain ⟨⟨w, drawn⟩, hdraw, hpair⟩ := Option.map_eq_some_iff.mp h
  cases hpair
  cases d <;> cases hdraw <;> rfl

theorem attach_of_set (hfound : ∃ t, c.catalog.find (c.entity id).type.name = .ok t)
    (hset : ∀ p, state = .added → (c.entity id).type.keyProperties = [p] →
      isUnset p (held (c.entity id) p) = false) (strategy : Option MergeStrategy) :
    (attach id state strategy).on c =
      (join (c.entity id).type id state (strategy.getD .disallowed) none).on c := by
  obtain ⟨t, hfound⟩ := hfound
  rw [attach_eq, hfound]
  dsimp only
  by_cases hs : state = .added
  · have hassign : (assignTempKey id).on c = (.ok none, c) := by
      unfold assignTempKey
      rw [on_bind_ok (on_get c)]
      dsimp only
      match hp : (c.entity id).type.keyProperties with
      | [] => rfl
      | _ :: _ :: _ => rfl
      | [p] =>
        have hunset : isUnset p (((c.entity id).get? p.name).getD .null) = false := hset p hs hp
        dsimp only
        rw [hunset]
        rfl
    rw [if_pos hs, on_bind_ok hassign]
  · rw [if_neg hs, on_bind_ok (on_pure none c)]

/-- The text that a group is asked for: of the entity's own key, if that is complete and need
not be drawn, or of the one that is drawn. -/
inductive JoinsUnder (c : Cache) (id : InstanceId) (state : EntityState) : String → Prop where
  | own : (∀ p, state = .added → (c.entity id).type.keyProperties = [p] →
      isUnset p (held (c.entity id) p) = false) → (c.entity id).ownKey.isComplete →
      JoinsUnder c id state (c.entity id).keyText
  | drawn {q w} : Draws c id state q w → JoinsUnder c id state (Group.partText q w)

/-- The group of its type is asked for the entity under this key: the type is found, has a group
or may have one, and the entity may be attached in this state. -/
structure Presents (c : Cache) (id : InstanceId) (state : EntityState) (key : String) : Prop where
  found : ∃ t, c.catalog.find (c.entity id).type.name = .ok t
  grouped : ¬ Groupless c (c.entity id).type
  named : ∀ g, c.groups.get? (c.entity id).type.name = some g →
    g.type.name = (c.entity id).type.name
  attachable : state ≠ .detached
  key : JoinsUnder c id state key

theorem JoinsUnder.unique {key key' : String} (h : JoinsUnder c id state key)
    (k : JoinsUnder c id state key') : key' = key := by
  have hclash : ∀ {q w}, (∀ p, state = .added → (c.entity id).type.keyProperties = [p] →
      isUnset p (held (c.entity id) p) = false) → ¬ Draws c id state q w := by
    intro q w hset hd
    exact absurd hd.unset (by simp [hset q hd.added hd.single])
  cases h with
  | own hset =>
    cases k with
    | own => rfl
    | drawn kd => exact absurd kd (hclash hset)
  | drawn hd =>
    cases k with
    | own kset => exact absurd hd (hclash kset)
    | drawn kd =>
      obtain ⟨rfl, rfl⟩ := hd.unique kd
      rfl

theorem keyText_drawn (h : Draws c id state p v) :
    (marked (c.entity id) p v).keyText = Group.partText p v :=
  Group.keyText_write_single h.single v

theorem isComplete_drawn (h : Draws c id state p v) :
    (marked (c.entity id) p v).ownKey.isComplete := by
  obtain ⟨keys, hgen⟩ := h.generated
  have hnull : (p.dataType.coerce v).isNull = false := by
    rw [DataType.isNull_coerce]
    exact generate?_isNull hgen
  simp [EntityKey.isComplete, Entity.ownKey, marked, h.single, Entity.keyValue, Entity.get?,
    Entity.write, Table.get?_put, hnull]

theorem entity_given (c : Cache) (id : InstanceId) (p : DataProperty) (v : Value)
    (keys : TempKeys) :
    (withTempKey c id p v keys).instances.entity id = marked (c.entity id) p v := if_pos rfl

theorem keyText_afterWithdrawal {d : Cache} {p : DataProperty} {v : Value} {keys : TempKeys}
    (hp : (c.entity id).type.keyProperties = [p]) :
    ((afterWithdrawal c d id p v keys).entity id).keyText = Group.partText p p.initialValue :=
  (congrArg Entity.keyText (if_pos rfl)).trans
    (Group.keyText_write_single (e := marked (c.entity id) p v) hp p.initialValue)

/-- The moment at which the group `g` is asked for the entity: in `c₁` the entity has its key,
and in `c₂` the group is open. -/
structure Asked (c : Cache) (id : InstanceId) (state : EntityState) (key : String)
    (temp : Option Value) (c₁ c₂ : Cache) (g : Group) : Prop where
  prepared : Prepared c id state temp c₁
  opens : Opens (c.entity id).type c₁ c₂
  group : c₂.groups.get? (c.entity id).type.name = some g
  admits : g.Admits (c₁.instances.entity id) state
  keyText : (c₁.instances.entity id).keyText = key
  joins : ∀ strategy, (attach id state strategy).on c =
    (join (c.entity id).type id state (strategy.getD .disallowed) temp).on c₁

theorem Presents.asked {key : String} (h : Presents c id state key) :
    ∃ temp c₁ c₂ g, Asked c id state key temp c₁ c₂ g := by
  have hask : ∀ {temp c₁}, Prepared c id state temp c₁ → (∀ strategy,
      (attach id state strategy).on c =
        (join (c.entity id).type id state (strategy.getD .disallowed) temp).on c₁) →
      (c₁.instances.entity id).ownKey.isComplete → (c₁.instances.entity id).keyText = key →
      ∃ temp c₁ c₂ g, Asked c id state key temp c₁ c₂ g := by
    intro temp c₁ hp hjoins hcomplete hkey
    rcases openGroup_cases (c.entity id).type c₁ with ⟨fault, hnone, ho⟩ | ⟨g, c₂, ho, hg, hopens⟩
    · exact absurd ⟨hp.groups ▸ hnone, openGroup_refused ho⟩ h.grouped
    · refine ⟨temp, c₁, c₂, g, hp, hopens, hg, ⟨?_, h.attachable, hcomplete⟩, hkey, hjoins⟩
      have htype : (c₁.instances.entity id).type = (c.entity id).type := (hp.edits id).1
      rw [htype]
      cases hopens with
      | there => exact (h.named g (hp.groups ▸ hg)).symm
      | opened _ hn =>
        rw [get?_putGroup, if_pos rfl] at hg
        cases hg
        unfold Group.new at hn
        split at hn <;> cases hn
        rfl
  cases h.key with
  | own hset hcomplete => exact hask (.keyed hset) (attach_of_set h.found hset) hcomplete rfl
  | drawn hd =>
    obtain ⟨keys, hgen, hjoins⟩ := hd.joins
    refine hask (.drawn hd.added hd.single hd.unset hgen) hjoins ?_ ?_
    · rw [entity_given]
      exact isComplete_drawn hd
    · rw [entity_given]
      exact keyText_drawn hd

namespace Asked

variable {key : String} {temp : Option Value} {c₁ c₂ : Cache} {g g' : Group} {is : Instances}
  {cached : InstanceId} {fault : Fault} {strategy : Option MergeStrategy}
  (h : Asked c id state key temp c₁ c₂ g)

include h

theorem index (text : String) : g.index.get? text = c.slot? (c.entity id).type.name text := by
  rw [← slot?_of_group h.group, h.opens.slot?_eq, slot?, slot?, h.prepared.groups]

theorem holds_iff {slot : Nat} :
    g.Holds slot other ↔ c.Holds (c.entity id).type.name slot other := by
  rw [← h.prepared.holds_iff, ← h.opens.holds_iff, Holds, h.group]
  simp

theorem on_ok (ha : g.attach c₁.instances id state (strategy.getD .disallowed) =
    .ok (cached, g', is)) : (attach id state strategy).on c = (.ok cached,
      { c₂ with groups := putGroup (c.entity id).type.name g' c₂.groups, instances := is }) := by
  rw [h.joins, join_on_ok h.opens h.group ha]

/-- Who is let in has the key in the end that the group was asked for. -/
theorem keyText_after (ha : g.attach c₁.instances id state (strategy.getD .disallowed) =
    .ok (cached, g', is)) :
    (((attach id state strategy).on c).2.entity id).keyText = key := by
  rw [h.on_ok ha, ← h.keyText]
  exact (Group.attach_spec ha).2.keyText

/-- A refusal takes the key back that was drawn. -/
theorem on_error (hd : Draws c id state p v)
    (ha : g.attach c₁.instances id state (strategy.getD .disallowed) = .error fault) :
    ∃ d keys, (attach id state strategy).on c = (.error fault, afterWithdrawal c d id p v keys) ∧
      c.keys.generate? (c.entity id).type.name p.dataType = some (v, keys) := by
  obtain ⟨keys, hgen, rfl, rfl⟩ := h.prepared.of_draws hd
  refine ⟨c₂, keys, ?_, hgen⟩
  rw [h.joins, join, on_bind_ok (openGroup_opens h.opens h.group), on_bind_ok (on_get c₂),
    h.opens.instances, ha]
  dsimp only
  rw [on_bind_ok (withdrawTempKey_after h.opens hd.single), on_throw]

theorem keyText_refused (hd : Draws c id state p v)
    (ha : g.attach c₁.instances id state (strategy.getD .disallowed) = .error fault) :
    (((attach id state strategy).on c).2.entity id).keyText =
      Group.partText p p.initialValue := by
  obtain ⟨d, keys, hon, -⟩ := h.on_error hd ha
  rw [hon]
  exact keyText_afterWithdrawal hd.single

end Asked

/-- Who has been attached was asked for. -/
theorem attach_ok {cached : InstanceId} {strategy : Option MergeStrategy}
    (h : (attach id state strategy).on c = (.ok cached, c')) :
    ∃ key temp c₁ c₂ g g' is, Presents c id state key ∧ Asked c id state key temp c₁ c₂ g ∧
      g.Attached c₁.instances id state (strategy.getD .disallowed) cached g' is ∧
      c' = { c₂ with
        groups := putGroup (c.entity id).type.name g' c₂.groups, instances := is } := by
  rcases attach_prepared id state c with ⟨fault, hf⟩ | ⟨temp, c₁, hfound, hp, hjoins⟩
  · cases (hf strategy).symm.trans h
  · rw [hjoins] at h
    obtain ⟨c₂, g, g', is, hopens, hg, ha, rfl⟩ := join_ok h
    obtain ⟨⟨hname, hstate⟩, hattached⟩ := Group.attach_spec ha
    have hcomplete := Group.attach_complete ha
    have htype : (c₁.instances.entity id).type = (c.entity id).type := (hp.edits id).1
    have hpresents : Presents c id state (c₁.instances.entity id).keyText := by
      refine ⟨hfound, ?_, fun g' hg' => ?_, hstate, ?_⟩
      · rw [Groupless, ← hp.groups]
        exact not_groupless hopens hg
      · rw [← hp.groups] at hg'
        obtain rfl := Option.some.inj (hg.symm.trans (hopens.kept hg'))
        rw [← hname, htype]
      · cases hp with
        | keyed hset => exact .own hset hcomplete
        | drawn hadded hsingle hunset hgen =>
          have hd : Draws c id state _ _ := ⟨hadded, hfound, hsingle, hunset, _, hgen⟩
          rw [entity_given, keyText_drawn hd]
          exact .drawn hd
    exact ⟨_, temp, c₁, c₂, g, g', is, hpresents,
      ⟨hp, hopens, hg, ⟨hname, hstate, hcomplete⟩, rfl, hjoins⟩, hattached, rfl⟩

end Action

end EntityCache
