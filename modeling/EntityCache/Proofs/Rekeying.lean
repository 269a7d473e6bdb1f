import EntityCache.Proofs.GroupCalls

/-! Keys that change while their entities stay: a temporary key replaced by the real one,
and foreign keys rewritten that are part of the key of the entity which holds them. -/
namespace EntityCache.Group

variable {g g' : Group} {is is' : Instances}

section Fixup

theorem make_single {t : EntityType} {p : DataProperty} (hp : t.keyProperties = [p]) (v : Value) :
    EntityKey.make t [v] = .ok ⟨t.name, [p.dataType.coerce v]⟩ := by
  simp [EntityKey.make, hp]

theorem inGroup_single (name : String) (v : Value) :
    (EntityKey.mk name [v]).inGroup = v.keyText := by
  simp [EntityKey.inGroup, String.intercalate_singleton]

/-- The text of a key of one part, of which any value may be a raw form. -/
def partText (p : DataProperty) (v : Value) : String := (p.dataType.coerce v).keyText

theorem keyText_write_single {e : Entity} {p : DataProperty} (hp : e.type.keyProperties = [p])
    (v : Value) : (e.write p.name v).keyText = partText p v := by
  simp [Entity.keyText, Entity.ownKey, Entity.keyValue, Entity.get?_write, hp, inGroup_single,
    partText]

def settledKey (e : Entity) (p : DataProperty) (real : Value) : Entity :=
  { (e.write p.name (p.dataType.coerce real)) with
    hasTempKey := false, groupKey := some (partText p real) }

/-- Either only the marker goes, or the entity and its index entry take the real key. -/
inductive FixedUp (g : Group) (is : Instances) (temp real : Value) :
    InstanceId → Group → Instances → Prop where
  | unmarked {p slot id} : g.type.keyProperties = [p] → g.Holds slot id →
      g.index.get? (partText p temp) = some slot → partText p temp = partText p real →
      FixedUp g is temp real id g (clearMarker is id)
  | rekeyed {p slot id} : g.type.keyProperties = [p] → g.Holds slot id →
      g.index.get? (partText p temp) = some slot → g.index.get? (partText p real) = none →
      FixedUp g is temp real id
        (g.applyMoves [⟨slot, id, partText p temp, partText p real⟩])
        ((is.put id { is.entity id with groupKey := some (partText p real) }).put id
          (settledKey (is.entity id) p real))

theorem replaceKey_spec {old new : EntityKey} {slot : Nat} {id : InstanceId}
    (hs : g.Holds slot id) (hi : g.index.get? old.inGroup = some slot)
    (h : g.replaceKey is old new = .ok (g', is')) :
    g.index.get? new.inGroup = none ∧
      g' = g.applyMoves [⟨slot, id, old.inGroup, new.inGroup⟩] ∧
      is' = is.put id { is.entity id with groupKey := some new.inGroup } := by
  have hjoin : (g.slots[slot]?).join = some id := Option.join_eq_some_iff.mpr hs
  unfold replaceKey Table.has at h
  cases hn : g.index.get? new.inGroup with
  | some _ => simp [hn] at h
  | none =>
    simp only [hn, Option.isSome_none, Bool.false_eq_true, if_false, hi, hjoin, Except.ok.injEq,
      Prod.mk.injEq] at h
    exact ⟨rfl, h.1.symm, h.2.symm⟩

theorem findKey?_some {k : EntityKey} {id : InstanceId} (ht : k.typeName = g.type.name)
    (h : g.findKey? k = some id) :
    ∃ slot, g.index.get? k.inGroup = some slot ∧ g.Holds slot id := by
  rw [findKey?, if_pos ht, findText?] at h
  obtain ⟨slot, hslot, hjoin⟩ := Option.bind_eq_some_iff.mp h
  exact ⟨slot, hslot, Option.join_eq_some_iff.mp hjoin⟩

theorem fixup_spec {temp real : Value} {id : InstanceId}
    (h : g.fixupKey is temp real = .ok (id, g', is')) :
    FixedUp g is temp real id g' is' := by
  unfold fixupKey at h
  rcases hp : g.type.keyProperties with _ | ⟨p, _ | ⟨q, rest⟩⟩
  · rw [hp] at h
    cases h
  · rw [hp] at h
    obtain ⟨_, hname, h⟩ := bind_ok h
    cases hname
    dsimp only at h
    obtain ⟨old, hold, h⟩ := bind_ok h
    obtain ⟨new, hnew, h⟩ := bind_ok h
    rw [make_single hp] at hold hnew
    cases hold
    cases hnew
    cases hf : g.findKey? ⟨g.type.name, [p.dataType.coerce temp]⟩ with
    | none =>
      rw [hf] at h
      cases h
    | some other =>
      obtain ⟨slot, hi, hholds⟩ := findKey?_some rfl hf
      rw [inGroup_single] at hi
      rw [hf] at h
      dsimp only at h
      split at h
      · rename_i hsame
        cases h
        have htext : partText p temp = partText p real := by
          simpa [EntityKey.same, inGroup_single, partText] using hsame
        exact .unmarked hp hholds hi htext
      · obtain ⟨⟨g₁, is₁⟩, hr, h⟩ := bind_ok h
        cases h
        obtain ⟨hn, rfl, rfl⟩ := replaceKey_spec hholds (by rwa [inGroup_single]) hr
        rw [inGroup_single] at hn
        simp only [inGroup_single, Instances.entity_put, if_true]
        exact .rekeyed hp hholds hi hn
  · rw [hp] at h
    cases h

theorem FixedUp.sound (h : g.Sound is) {temp real : Value} {id : InstanceId}
    (hf : FixedUp g is temp real id g' is') :
    g'.Sound is' ∧ is.Edits g.type is' ∧ g'.type = g.type := by
  cases hf with
  | unmarked _ hs =>
    have hc : (is.entity id).Continues { is.entity id with hasTempKey := false } :=
      Entity.continues_of_values rfl rfl rfl fun k => k
    exact ⟨h.put hc, .edit (h.typed hs) hc, rfl⟩
  | @rekeyed p slot _ hp hs hi hn =>
    have hkp : (is.entity id).type.keyProperties = [p] := by rw [h.typed hs, hp]
    have htext : (settledKey (is.entity id) p real).keyText = partText p real := by
      refine Eq.trans ?_ ((keyText_write_single hkp (p.dataType.coerce real)).trans ?_)
      · rfl
      · simp [partText]
    have hold : (is.entity id).keyText = partText p temp := by
      obtain ⟨i, hi, hk⟩ := (h.index_iff _ _).mp hi
      rw [hs.unique hi, hk]
    have hput : ∀ i, ((is.put id { is.entity id with
        groupKey := some (partText p real) }).put id
          (settledKey (is.entity id) p real)).entity i =
        if i = id then settledKey (is.entity id) p real else is.entity i := by
      intro i; by_cases hi : i = id <;> simp [hi]
    refine ⟨h.moved ⟨?_, by simp, ?_, ?_, ?_, ?_, ?_⟩, ?_, rfl⟩
    · simpa using ⟨hs, hold.symm⟩
    · simpa using Or.inl hn
    · intro s i hm
      rw [hput]
      split
      · exact h.typed hs
      · exact h.typed hm
    · intro s i hm
      rw [hput]
      split
      · exact h.tracked hs
      · exact h.tracked hm
    · intro m hm
      obtain rfl : m = ⟨slot, id, partText p temp, partText p real⟩ := by simpa using hm
      rw [hput, if_pos rfl]
      exact ⟨htext, rfl⟩
    · intro s i hm hne
      rw [hput, if_neg (by simpa using hne)]
      exact .refl _
    · have hfirst : is.Edits g.type (is.put id { is.entity id with
          groupKey := some (partText p real) }) :=
        .put (e := { is.entity id with groupKey := some (partText p real) })
          (h.typed hs) (h.typed hs) fun hc => hc
      refine hfirst.trans (.put ?_ (h.typed hs) fun hc => ?_)
      · simpa using h.typed hs
      · have hc' : (is.entity id).Complete := by simpa [Entity.Complete, Entity.get?] using hc
        exact hc'.write p.name _

theorem FixedUp.slots {temp real : Value} {id : InstanceId}
    (hf : FixedUp g is temp real id g' is') : g'.slots = g.slots := by
  cases hf <;> rfl

theorem FixedUp.free_count {temp real : Value} {id : InstanceId}
    (hf : FixedUp g is temp real id g' is') : g'.free = g.free ∧ is'.count = is.count := by
  cases hf <;> exact ⟨rfl, rfl⟩

end Fixup

section Cascade

theorem mem_holders {property : String} {v : Value} {slot : Nat} {id : InstanceId}
    (h : (slot, id) ∈ g.holders is property v) : g.Holds slot id :=
  mem_live.mp (List.mem_filter.mp h).1

theorem nodup_holders (h : g.Sound is) (property : String) (v : Value) :
    ((g.holders is property v).map Prod.snd).Nodup :=
  h.nodup_live_ids.sublist (List.filter_sublist.map _)

theorem entity_foldl_put_of_not_mem {β : Type} (key : β → InstanceId) (f : β → Entity → Entity)
    {xs : List β} (is : Instances) {id : InstanceId} (h : id ∉ xs.map key) :
    (xs.foldl (fun is x => is.put (key x) (f x (is.entity (key x)))) is).entity id =
      is.entity id := by
  induction xs generalizing is with
  | nil => rfl
  | cons x xs ih =>
    simp only [List.map_cons, List.mem_cons, not_or] at h
    rw [List.foldl_cons, ih _ h.2, Instances.entity_put, if_neg h.1]

theorem entity_foldl_put {β : Type} (key : β → InstanceId) (f : β → Entity → Entity)
    {xs : List β} (hnd : (xs.map key).Nodup) (is : Instances) :
    (∀ x ∈ xs, (xs.foldl (fun is x => is.put (key x) (f x (is.entity (key x)))) is).entity
      (key x) = f x (is.entity (key x))) ∧
    ∀ id, id ∉ xs.map key →
      (xs.foldl (fun is x => is.put (key x) (f x (is.entity (key x)))) is).entity id =
        is.entity id := by
  refine ⟨?_, fun id hid => entity_foldl_put_of_not_mem key f is hid⟩
  induction xs generalizing is with
  | nil => simp
  | cons y ys ih =>
    rw [List.map_cons, List.nodup_cons] at hnd
    intro x hx
    rw [List.foldl_cons]
    rcases List.mem_cons.mp hx with rfl | hx
    · rw [entity_foldl_put_of_not_mem key f _ hnd.1]; simp
    · have hne : key x ≠ key y := fun k => hnd.1 (k ▸ List.mem_map_of_mem hx)
      rw [ih hnd.2 _ x hx]; simp [hne]

theorem count_foldl_put {β : Type} (key : β → InstanceId) (f : β → Entity → Entity)
    (xs : List β) (is : Instances) :
    (xs.foldl (fun is x => is.put (key x) (f x (is.entity (key x)))) is).count = is.count :=
  List.foldlRecOn (motive := fun (is' : Instances) => is'.count = is.count) xs _ rfl
    fun _ h _ _ => h

theorem rekeyed_eq {e : Entity} (ht : e.type = g.type) (property : String) (v : Value) :
    g.rekeyed e property v = .ok (e.write property v).ownKey := by
  have hvalues : (g.type.keyProperties.map fun p =>
      if p.name = property then v else (e.get? p.name).getD .null) =
      g.type.keyProperties.map fun p => ((e.write property v).get? p.name).getD .null := by
    refine List.map_congr_left fun p _ => ?_
    rw [Entity.get?_write]
    split <;> rfl
  rw [rekeyed, hvalues, EntityKey.make_map, ← ht]
  rfl

def moveOf (is : Instances) (property : String) (v : Value) (x : Nat × InstanceId) : Move :=
  ⟨x.1, x.2, (is.entity x.2).keyText, ((is.entity x.2).write property v).keyText⟩

/-- The moves that are planned: one for each holder, to the key that it will have, and
none onto a key that stays or is moved to twice. -/
theorem planMoves_spec {property : String} {v : Value} {vacated : List String}
    {hs : List (Nat × InstanceId)} (ht : ∀ s i, (s, i) ∈ hs → (is.entity i).type = g.type)
    {claimed : List String} {ms : List Move}
    (h : g.planMoves is property v vacated claimed hs = .ok ms) :
    ms = hs.map (moveOf is property v) ∧
    (ms.map Move.target).Nodup ∧ (∀ m ∈ ms, m.target ∉ claimed) ∧
    ∀ m ∈ ms, g.index.get? m.target = none ∨ m.target ∈ vacated := by
  induction hs generalizing claimed ms with
  | nil =>
    simp only [planMoves, Except.ok.injEq] at h
    simp [← h]
  | cons x hs ih =>
    obtain ⟨slot, id⟩ := x
    have hid : (is.entity id).type = g.type := ht slot id (by simp)
    simp only [planMoves, Entity.key_eq, rekeyed_eq hid, bind, Except.bind, pure,
      Except.pure] at h
    by_cases hok : ((g.index.has ((is.entity id).write property v).ownKey.inGroup &&
        !vacated.contains ((is.entity id).write property v).ownKey.inGroup) ||
        claimed.contains ((is.entity id).write property v).ownKey.inGroup) = true
    · simp only [hok, if_true, throw, throwThe, MonadExceptOf.throw, reduceCtorEq] at h
    · simp only [hok, Bool.false_eq_true, if_false] at h
      split at h
      · cases h
      · rename_i ms' hms'
        cases h
        obtain ⟨rfl, hnd, hcl, hvac⟩ := ih (fun s i hm => ht s i (by simp [hm])) hms'
        simp only [Table.has, Bool.or_eq_true, Bool.and_eq_true, not_or, not_and,
          List.contains_eq_mem, Bool.not_eq_eq_eq_not, decide_eq_true_eq] at hok
        refine ⟨rfl, ?_, ?_, ?_⟩
        · rw [List.map_cons, List.nodup_cons]
          refine ⟨fun hm => ?_, hnd⟩
          obtain ⟨m, hm, hk⟩ := List.mem_map.mp hm
          exact hcl m hm (by simp [hk])
        · intro m hm
          rcases List.mem_cons.mp hm with rfl | hm
          · exact hok.2
          · exact fun hc => hcl m hm (by simp [hc])
        · intro m hm
          rcases List.mem_cons.mp hm with rfl | hm
          · change g.index.get? ((is.entity id).write property v).ownKey.inGroup = none ∨
              ((is.entity id).write property v).ownKey.inGroup ∈ vacated
            cases hg : g.index.get? ((is.entity id).write property v).ownKey.inGroup with
            | none => exact Or.inl rfl
            | some _ => exact Or.inr (by simpa using hok.1 (by simp [hg]))
          · exact hvac m hm

/-- Every holder takes the new value. Where it is part of the key, all holders move. -/
structure Rewritten (g : Group) (is : Instances) (p : DataProperty) (property : String)
    (old v : Value) (moves : List Move) (g' : Group) (is' : Instances) : Prop where
  found : g.type.dataProperty? property = some p
  plain : p.isKey = false → moves = []
  keyed : p.isKey → moves = (g.holders is property old).map (moveOf is property v)
  targets : (moves.map Move.target).Nodup
  free : ∀ m ∈ moves, g.index.get? m.target = none ∨ m.target ∈ moves.map Move.source
  group : g' = g.applyMoves moves
  instances : is' = moves.foldl (fun is m =>
      is.put m.id { is.entity m.id with groupKey := some m.target })
    ((g.holders is property old).foldl
      (fun is x => is.put x.2 ((is.entity x.2).write property v)) is)

theorem mapM_keys (is : Instances) (hs : List (Nat × InstanceId)) :
    (hs.mapM fun x => (is.entity x.2).key.map EntityKey.inGroup : Except Fault _) =
      .ok (hs.map fun x => (is.entity x.2).keyText) := by
  simp only [Entity.key_eq, Except.map]
  induction hs with
  | nil => rfl
  | cons x hs ih =>
    rw [List.mapM_cons, ih]
    rfl

theorem updateForeignKey_spec (h : g.Sound is) {property : String} {old new : Value} {n : Nat}
    (hu : g.updateForeignKey is property old new = .ok (n, g', is')) :
    n = (g.holders is property old).length ∧ ∃ p moves, Rewritten g is p property old
      (p.dataType.coerce new) moves g' is' := by
  unfold updateForeignKey at hu
  cases hp : g.type.dataProperty? property with
  | none => simp [hp, bind, Except.bind] at hu
  | some p =>
    simp only [hp, bind, Except.bind, pure, Except.pure] at hu
    cases hk : p.isKey with
    | false =>
      simp only [hk, Bool.false_eq_true, if_false, List.foldl_nil, Except.ok.injEq,
        Prod.mk.injEq] at hu
      obtain ⟨rfl, rfl, rfl⟩ := hu
      exact ⟨rfl, p, [], hp, fun _ => rfl, by simp [hk], by simp, by simp, rfl, rfl⟩
    | true =>
      simp only [hk, if_true, mapM_keys is (g.holders is property old)] at hu
      cases hm : g.planMoves is property (p.dataType.coerce new)
          ((g.holders is property old).map fun x => (is.entity x.2).keyText) []
          (g.holders is property old) with
      | error f => simp [hm] at hu
      | ok moves =>
        simp only [hm, Except.ok.injEq, Prod.mk.injEq] at hu
        obtain ⟨rfl, rfl, rfl⟩ := hu
        obtain ⟨hmap, hnd, -, hfree⟩ :=
          planMoves_spec (fun s i hi => h.typed (mem_holders hi)) hm
        have hsources : moves.map Move.source =
            (g.holders is property old).map fun x => (is.entity x.2).keyText := by
          rw [hmap, List.map_map]
          rfl
        exact ⟨rfl, p, moves, hp, by simp [hk], fun _ => hmap, hnd, by rwa [hsources], rfl, rfl⟩

theorem Rewritten.entity (h : g.Sound is) {p : DataProperty} {property : String} {old v : Value}
    {moves : List Move} (hr : Rewritten g is p property old v moves g' is') :
    (∀ id, id ∉ (g.holders is property old).map Prod.snd → is'.entity id = is.entity id) ∧
    ∀ x ∈ g.holders is property old, is'.entity x.2 =
      if p.isKey then { (is.entity x.2).write property v with
        groupKey := some (moveOf is property v x).target }
      else (is.entity x.2).write property v := by
  have hnd := nodup_holders h property old
  obtain ⟨hin, hout⟩ := entity_foldl_put Prod.snd (fun _ e => e.write property v) hnd is
  cases hk : p.isKey with
  | false =>
    have hi := hr.instances
    rw [hr.plain hk, List.foldl_nil] at hi
    subst hi
    exact ⟨hout, fun x hx => by simpa using hin x hx⟩
  | true =>
    have hi := hr.instances
    have hids : ((g.holders is property old).map (moveOf is property v)).map Move.id =
        (g.holders is property old).map Prod.snd := by
      rw [List.map_map]
      rfl
    rw [hr.keyed hk] at hi
    obtain ⟨hin', hout'⟩ := entity_foldl_put Move.id
      (fun m e => { e with groupKey := some m.target }) (hids ▸ hnd)
      ((g.holders is property old).foldl
        (fun is x => is.put x.2 ((is.entity x.2).write property v)) is)
    subst hi
    refine ⟨fun id hid => (hout' id (by rwa [hids])).trans (hout id hid), fun x hx => ?_⟩
    have hx' := hin' _ (List.mem_map_of_mem (f := moveOf is property v) hx)
    simpa [moveOf, hin x hx] using hx'

theorem Rewritten.edits (h : g.Sound is) {p : DataProperty} {property : String} {old v : Value}
    {moves : List Move} (hr : Rewritten g is p property old v moves g' is') :
    is.Edits g.type is' := by
  obtain ⟨hout, hin⟩ := hr.entity h
  have hcases : ∀ id, is'.entity id = is.entity id ∨
      (∃ slot, g.Holds slot id) ∧ ∃ key, is'.entity id =
        { (is.entity id).write property v with groupKey := key } := by
    intro id
    by_cases hid : id ∈ (g.holders is property old).map Prod.snd
    · obtain ⟨x, hx, rfl⟩ := List.mem_map.mp hid
      refine Or.inr ⟨⟨x.1, mem_holders hx⟩, ?_⟩
      have hx' := hin x hx
      split at hx'
      · exact ⟨_, hx'⟩
      · exact ⟨(is.entity x.2).groupKey, hx'⟩
    · exact Or.inl (hout id hid)
  refine ⟨?_, fun id => ?_, fun id hc => ?_, fun id ht => ?_⟩
  · rw [hr.instances]
    exact (count_foldl_put Move.id (fun m e => { e with groupKey := some m.target }) _ _).trans
      (count_foldl_put Prod.snd (fun _ e => e.write property v) _ _)
  · rcases hcases id with heq | ⟨-, key, heq⟩ <;> rw [heq]
    rfl
  · rcases hcases id with heq | ⟨-, key, heq⟩
    · rwa [heq]
    · rw [heq]
      exact hc.write property v
  · rcases hcases id with heq | ⟨⟨slot, hs⟩, -⟩
    · exact heq
    · exact absurd (h.typed hs) ht

theorem Rewritten.sound (h : g.Sound is) (ht : g.type.DistinctNames) {p : DataProperty}
    {property : String} {old v : Value} {moves : List Move}
    (hr : Rewritten g is p property old v moves g' is') : g'.Sound is' := by
  obtain ⟨hout, hin⟩ := hr.entity h
  have htype := (hr.edits h).type
  have htracked : ∀ {slot id}, g.Holds slot id → (is'.entity id).state ≠ .detached := by
    intro slot id hs
    by_cases hid : id ∈ (g.holders is property old).map Prod.snd
    · obtain ⟨x, hx, rfl⟩ := List.mem_map.mp hid
      rw [hin x hx]
      split <;> exact h.tracked hs
    · rw [hout id hid]
      exact h.tracked hs
  cases hk : p.isKey with
  | false =>
    have hg := hr.group
    rw [hr.plain hk] at hg
    subst hg
    refine h.edited fun {slot id} hs => ?_
    by_cases hid : id ∈ (g.holders is property old).map Prod.snd
    · obtain ⟨x, hx, rfl⟩ := List.mem_map.mp hid
      rw [hin x hx, hk]
      refine Entity.continues_write v fun _ => ?_
      rw [h.typed hs]
      exact EntityType.name_ne_of_not_key ht hr.found hk
    · rw [hout id hid]
      exact .refl _
  | true =>
    have hmoves := hr.keyed hk
    rw [hr.group]
    refine h.moved
      ⟨?_, hr.targets, hr.free, fun hs => (htype _).trans (h.typed hs), htracked, ?_, ?_⟩
    · rw [hmoves]
      intro m hm
      obtain ⟨x, hx, rfl⟩ := List.mem_map.mp hm
      exact ⟨mem_holders hx, rfl⟩
    · rw [hmoves]
      intro m hm
      obtain ⟨x, hx, rfl⟩ := List.mem_map.mp hm
      have hx' := hin x hx
      rw [hk, if_pos rfl] at hx'
      change (is'.entity x.2).keyText = _ ∧ (is'.entity x.2).groupKey = _
      rw [hx']
      exact ⟨rfl, rfl⟩
    · rw [hmoves]
      intro slot id _ hid
      rw [hout id fun hm => ?_]
      · exact .refl _
      · obtain ⟨x, hx, rfl⟩ := List.mem_map.mp hm
        exact hid (List.mem_map.mpr ⟨_, List.mem_map_of_mem hx, rfl⟩)

theorem updateForeignKey_slots {property : String} {old new : Value} {n : Nat}
    (hu : g.updateForeignKey is property old new = .ok (n, g', is')) :
    g'.slots = g.slots ∧ g'.free = g.free ∧ is'.count = is.count := by
  have hcount : ∀ (p : DataProperty) (moves : List Move), (moves.foldl (fun is m =>
      is.put m.id { is.entity m.id with groupKey := some m.target })
        ((g.holders is property old).foldl (fun is x =>
          is.put x.2 ((is.entity x.2).write property (p.dataType.coerce new))) is)).count =
        is.count := fun p moves =>
    (count_foldl_put Move.id (fun m e => { e with groupKey := some m.target }) moves _).trans
      (count_foldl_put Prod.snd (fun _ e => e.write property (p.dataType.coerce new)) _ is)
  unfold updateForeignKey at hu
  cases hp : g.type.dataProperty? property with
  | none => simp [hp, bind, Except.bind] at hu
  | some p =>
    simp only [hp] at hu
    obtain ⟨q, hq, hu⟩ := bind_ok hu
    cases hq
    split at hu
    · obtain ⟨_, -, hu⟩ := bind_ok hu
      obtain ⟨moves, -, hu⟩ := bind_ok hu
      cases hu
      exact ⟨rfl, rfl, hcount p moves⟩
    · obtain ⟨moves, -, hu⟩ := bind_ok hu
      cases hu
      exact ⟨rfl, rfl, hcount p moves⟩

/-- A cascade into a group keeps it sound, whether or not the key is concerned. -/
theorem Sound.cascade_call (h : g.Sound is) (ht : g.type.DistinctNames) {property : String}
    {old new : Value} {n : Nat} (hu : g.updateForeignKey is property old new = .ok (n, g', is')) :
    g'.Sound is' ∧ is.Edits g.type is' ∧ g'.type = g.type := by
  obtain ⟨-, p, moves, hr⟩ := updateForeignKey_spec h hu
  exact ⟨hr.sound h ht, hr.edits h, by rw [hr.group]; rfl⟩

end Cascade

end EntityCache.Group
