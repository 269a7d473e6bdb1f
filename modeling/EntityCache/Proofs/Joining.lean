import EntityCache.Proofs.CacheCalls

/-! How an entity joins the cache: a temporary key if it is to be Added without one, the
group of its type, a place in the group, and the key taken back if there is none. -/
namespace EntityCache

open Cache

/-- The group of a type is there, or has been opened without anybody in it. -/
inductive Cache.Opens (t : EntityType) (c : Cache) : Cache → Prop where
  | there : Opens t c c
  | opened {g} : c.groups.get? t.name = none → Group.new t = .ok g →
      Opens t c { c with groups := putGroup t.name g c.groups }

namespace Cache.Opens

variable {t : EntityType} {c c' : Cache}

theorem catalog (h : Opens t c c') : c'.catalog = c.catalog := by cases h <;> rfl

theorem instances (h : Opens t c c') : c'.instances = c.instances := by cases h <;> rfl

theorem same (h : Opens t c c') (ht : c.groups.get? t.name ≠ none) : c' = c := by
  cases h with
  | there => rfl
  | opened hn => exact absurd hn ht

theorem group_cases (h : Opens t c c') {name : String} {g : Group}
    (hg : c'.groups.get? name = some g) :
    c.groups.get? name = some g ∨ g.slots = [] ∧ g.free = [] := by
  cases h with
  | there => exact Or.inl hg
  | @opened g₁ _ hn =>
    rw [get?_putGroup] at hg
    split at hg
    · cases hg
      unfold Group.new at hn
      split at hn <;> cases hn
      exact Or.inr ⟨rfl, rfl⟩
    · exact Or.inl hg

theorem kept (h : Opens t c c') {name : String} {g : Group} (hg : c.groups.get? name = some g) :
    c'.groups.get? name = some g := by
  cases h with
  | there => exact hg
  | opened hn =>
    rw [get?_putGroup, if_neg, hg]
    rintro rfl
    cases hn.symm.trans hg

theorem holds (h : Opens t c c') {name : String} {slot : Nat} {id : InstanceId}
    (hs : c'.Holds name slot id) : c.Holds name slot id := by
  obtain ⟨g, hg, hs⟩ := hs
  rcases h.group_cases hg with hg | ⟨hslots, -⟩
  · exact ⟨g, hg, hs⟩
  · simp [Group.Holds, hslots] at hs

theorem soundIn (h : Opens t c c') {catalog : Catalog} (hc : c.SoundIn catalog)
    (ht : catalog.type? t.name = some t) : c'.SoundIn catalog := by
  cases h with
  | there => exact hc
  | opened _ hn => exact ⟨hc.sound.opened hn (by rwa [hc.catalog]), hc.catalog⟩

theorem grows (h : Opens t c c') : Grows c c' := by rw [Grows, h.instances]

end Cache.Opens

namespace Action

variable {catalog : Catalog} {c c' : Cache}

theorem openGroup_cases (t : EntityType) (c : Cache) :
    (∃ fault, c.groups.get? t.name = none ∧ (openGroup t).on c = (.error fault, c)) ∨
    ∃ g c', (openGroup t).on c = (.ok g, c') ∧ c'.groups.get? t.name = some g ∧
      Opens t c c' := by
  unfold openGroup
  rw [on_bind_ok (on_get c)]
  cases hg : c.groups.get? t.name with
  | some g => exact Or.inr ⟨g, c, rfl, hg, .there⟩
  | none =>
    dsimp only
    cases hn : Group.new t with
    | error fault => exact Or.inl ⟨fault, rfl, rfl⟩
    | ok g => exact Or.inr ⟨g, _, rfl, by simp [get?_putGroup], .opened hg hn⟩

def marked (e : Entity) (p : DataProperty) (v : Value) : Entity :=
  { e.write p.name v with hasTempKey := true }

def withTempKey (c : Cache) (id : InstanceId) (p : DataProperty) (v : Value) (keys : TempKeys) :
    Cache :=
  { c with keys, instances := c.instances.put id (marked (c.entity id) p v) }

theorem entity_withTempKey (id other : InstanceId) (p : DataProperty) (v : Value)
    (keys : TempKeys) : (withTempKey c id p v keys).entity other =
      if other = id then marked (c.entity id) p v else c.entity other := rfl

theorem type_withTempKey (id : InstanceId) (p : DataProperty) (v : Value) (keys : TempKeys) :
    ((withTempKey c id p v keys).entity id).type = (c.entity id).type := by
  rw [entity_withTempKey, if_pos rfl]
  rfl

def withdrawn (e : Entity) (p : DataProperty) : Entity :=
  { e.write p.name p.initialValue with hasTempKey := false }

theorem assignTempKey_cases (id : InstanceId) (c : Cache) :
    (∃ fault, (assignTempKey id).on c = (.error fault, c)) ∨
    (assignTempKey id).on c = (.ok none, c) ∨
    ∃ p v keys, (c.entity id).type.keyProperties = [p] ∧ (assignTempKey id).on c =
      (.ok (some v), withTempKey c id p v keys) := by
  unfold assignTempKey
  rw [on_bind_ok (on_get c)]
  dsimp only
  match hp : (c.entity id).type.keyProperties with
  | [] => exact Or.inr (Or.inl rfl)
  | _ :: _ :: _ => exact Or.inr (Or.inl rfl)
  | [p] =>
    dsimp only
    split
    · exact Or.inr (Or.inl rfl)
    · cases hk : c.keys.generate? (c.entity id).type.name p.dataType with
      | none => exact Or.inl ⟨_, rfl⟩
      | some r =>
        obtain ⟨v, keys⟩ := r
        exact Or.inr (Or.inr ⟨p, v, keys, rfl, rfl⟩)

theorem on_withdrawTempKey (id : InstanceId) (v : Value) {p : DataProperty}
    (hp : (c.entity id).type.keyProperties = [p]) : ∃ keys, (withdrawTempKey id v).on c =
      (.ok (), { c with keys, instances := c.instances.put id (withdrawn (c.entity id) p) }) := by
  refine ⟨c.keys.release (c.entity id).type.name v, ?_⟩
  unfold withdrawTempKey
  rw [on_bind_ok (on_get c), on_bind_ok (show (release _ v).on c = _ from rfl), hp]
  rfl

/-- What attaching comes to once it is known whether a temporary key was assigned. -/
def join (t : EntityType) (id : InstanceId) (state : EntityState) (strategy : MergeStrategy)
    (temp : Option Value) : Action InstanceId := do
  let g ← openGroup t
  match g.attach (← get).instances id state strategy with
  | .ok (cached, g, is) =>
    keep t.name g is
    return cached
  | .error fault =>
    if let some v := temp then withdrawTempKey id v
    throw fault

theorem attach_eq (id : InstanceId) (state : EntityState) (strategy : Option MergeStrategy)
    (c : Cache) : (attach id state strategy).on c =
      (match c.catalog.find (c.entity id).type.name with
      | .error fault => (.error fault, c)
      | .ok _ => ((if state = .added then assignTempKey id else pure none) >>=
          join (c.entity id).type id state (strategy.getD .disallowed)).on c) := by
  unfold attach
  rw [on_bind_ok (on_get c)]
  dsimp only
  rw [on_bind_ok (on_get c), on_bind, on_discard, on_lift]
  cases c.catalog.find (c.entity id).type.name with
  | error fault => rfl
  | ok t =>
    dsimp only [Except.map]
    split <;> rfl

inductive Joined (t : EntityType) (id : InstanceId) (state : EntityState)
    (strategy : MergeStrategy) (c : Cache) : Option Value → Cache → Prop where
  | refused {c' temp} : Opens t c c' → (c.groups.get? t.name ≠ none → temp = none) →
      Joined t id state strategy c temp c'
  | withdrawn {c' p v keys} : Opens t c c' → (c.entity id).type.keyProperties = [p] →
      Joined t id state strategy c (some v)
        { c' with keys, instances := c.instances.put id (withdrawn (c.entity id) p) }
  | joined {c' temp cached g g' is} : Opens t c c' → c'.groups.get? t.name = some g →
      state ≠ .detached → g.Attached c.instances id state strategy cached g' is →
      Joined t id state strategy c temp
        { c' with groups := putGroup t.name g' c'.groups, instances := is }

theorem join_cases (t : EntityType) (id : InstanceId) (state : EntityState)
    (strategy : MergeStrategy) {temp : Option Value}
    (hp : temp ≠ none → ∃ p, (c.entity id).type.keyProperties = [p]) :
    Joined t id state strategy c temp ((join t id state strategy temp).on c).2 := by
  unfold join
  rcases openGroup_cases t c with ⟨fault, hg, h⟩ | ⟨g, c', h, hg, ho⟩
  · rw [on_bind_error h]
    exact .refused .there fun hn => absurd hg hn
  · rw [on_bind_ok h, on_bind_ok (on_get c'), ho.instances]
    cases ha : g.attach c.instances id state strategy with
    | ok r =>
      obtain ⟨cached, g', is⟩ := r
      obtain ⟨⟨-, hs⟩, hattached⟩ := Group.attach_spec ha
      exact .joined ho hg hs hattached
    | error fault =>
      cases temp with
      | none => exact .refused ho fun _ => rfl
      | some v =>
        obtain ⟨p, hp⟩ := hp (by simp)
        have he : c'.entity id = c.entity id := by rw [entity, ho.instances]; rfl
        obtain ⟨keys, hw⟩ := on_withdrawTempKey (c := c') id v (by rwa [he])
        dsimp only
        rw [on_bind_ok hw, he, ho.instances]
        exact .withdrawn ho hp

/-- What attaching leaves: all as it was, what joining leaves, or what joining leaves of the
cache in which the entity has a temporary key. -/
theorem attach_cases (id : InstanceId) (state : EntityState) (strategy : Option MergeStrategy)
    (c : Cache) :
    let c' := ((attach id state strategy).on c).2
    let Joins := Joined (c.entity id).type id state (strategy.getD .disallowed)
    c' = c ∨ Joins c none c' ∨
      state = .added ∧ ∃ p v keys, (c.entity id).type.keyProperties = [p] ∧
        Joins (withTempKey c id p v keys) (some v) c' := by
  dsimp only
  rw [attach_eq]
  cases c.catalog.find (c.entity id).type.name with
  | error fault => exact Or.inl rfl
  | ok t =>
    have hnone := join_cases (c := c) (c.entity id).type id state (strategy.getD .disallowed)
      fun hn => absurd rfl hn
    dsimp only
    by_cases hs : state = .added
    · rw [if_pos hs]
      rcases assignTempKey_cases id c with ⟨fault, h⟩ | h | ⟨p, v, keys, hp, h⟩
      · rw [on_bind_error h]
        exact Or.inl rfl
      · rw [on_bind_ok h]
        exact Or.inr (Or.inl hnone)
      · rw [on_bind_ok h]
        have htype := type_withTempKey (c := c) id p v keys
        exact Or.inr (Or.inr ⟨hs, p, v, keys, hp, join_cases _ _ _ _ fun _ => ⟨p, by rwa [htype]⟩⟩)
    · rw [if_neg hs]
      exact Or.inr (Or.inl hnone)

end Action

end EntityCache
