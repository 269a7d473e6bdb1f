import EntityCache.Proofs.UndrawnNumbers

/-! Keys for new entities. An entity whose key is a number and unset is given the next one when
it is added, and joins unless somebody has that number. Nobody has as long as nothing negative
is brought in from outside and no entity returns that was cached before all was cleared. -/
namespace EntityCache

open Cache EntityCache.Action

theorem TempKeys.generate?_integer (g : TempKeys) (name : String) {d : DataType}
    (h : d.isInteger) : ∃ keys, g.generate? name d = some (.integer g.nextNumber, keys) := by
  cases d with
  | int16 | int32 | int64 | byte => exact ⟨_, rfl⟩
  | _ => cases h

namespace Cache

variable {c c' : Cache} {id other : InstanceId} {p : DataProperty}

def nextText (c : Cache) : String := c.keys.nextNumber.toInt.repr

/-- An entity that is not cached and whose key is a number and unset. -/
structure AwaitsNumber (c : Cache) (id : InstanceId) (p : DataProperty) : Prop where
  made : id < c.instances.count
  keyed : (c.entity id).type.NumberKeyed p
  unset : isUnset p (held (c.entity id) p)
  concrete : (c.entity id).type.isAbstract = false
  found : c.catalog.find (c.entity id).type.name = .ok (c.entity id).type
  uncached : ¬ c.IsCached id

structure Numbers (c : Cache) (id : InstanceId) (c' : Cache) : Prop where
  cached : c'.IsCached id
  state : (c'.entity id).state = .added
  hasTempKey : (c'.entity id).hasTempKey
  keyText : (c'.entity id).keyText = c.nextText
  type : (c'.entity id).type = (c.entity id).type
  others : ∀ {other}, other ≠ id →
    (c'.IsCached other ↔ c.IsCached other) ∧ c'.entity other = c.entity other

theorem create_ok {typeName : String} (h : (create typeName).on c = (.ok id, c')) :
    ∃ t, c.catalog.find typeName = .ok t ∧ t.isAbstract = false ∧ id = c.instances.count ∧
      c' = { c with instances := ((c.instances.freeze t.version).add (Entity.new t)).2 } := by
  unfold create at h
  rw [on_bind_ok (on_get c)] at h
  cases ht : c.catalog.find typeName with
  | error fault =>
    rw [ht, on_bind_error (on_lift _ c)] at h
    cases h
  | ok t =>
    rw [ht, on_bind_ok (on_lift _ c)] at h
    cases hconcrete : t.isAbstract with
    | true =>
      rw [hconcrete] at h
      cases h
    | false =>
      rw [hconcrete] at h
      cases h
      exact ⟨t, rfl, hconcrete, Instances.count_freeze .., rfl⟩

theorem awaitsNumber_of_create (hc : c.Formed) {typeName : String}
    (h : (create typeName).on c = (.ok id, c')) (hp : (c'.entity id).type.NumberKeyed p)
    (hf : c'.catalog.find (c'.entity id).type.name = .ok (c'.entity id).type) :
    c'.AwaitsNumber id p := by
  obtain ⟨t, ht, hconcrete, rfl, rfl⟩ := create_ok h
  have hd : t.DistinctNames := hc.distinct (Catalog.type?_of_find ht)
  have hnew : ((c.instances.freeze t.version).add (Entity.new t)).2.entity c.instances.count =
      Entity.new t := by simp [Instances.add]
  refine ⟨?_, hp, ?_, ?_, hf, ?_⟩
  · simp [Instances.add]
  · rw [entity, hnew] at hp ⊢
    rw [Entity.held_new hd hp.mem.1, hp.initialValue]
    rfl
  · rw [entity, hnew]
    exact hconcrete
  · rintro ⟨name, slot, g, hg, hs⟩
    exact absurd ((hc.allotted name g hg).given hs) (Nat.lt_irrefl _)

namespace AwaitsNumber

theorem draws (h : c.AwaitsNumber id p) : Draws c id .added p (.integer c.keys.nextNumber) :=
  ⟨rfl, ⟨_, h.found⟩, h.keyed.single, h.unset, c.keys.generate?_integer _ h.keyed.integer⟩

/-- The group of its type is asked for the number that comes next. -/
theorem presents (h : c.AwaitsNumber id p) (hc : c.Formed) :
    Presents c id .added c.nextText := by
  have htext : Group.partText p (.integer c.keys.nextNumber) = c.nextText := by
    rw [Group.partText, DataType.coerce_integer h.keyed.integer]
    exact Value.keyText_integer c.keys.nextNumber
  refine ⟨⟨_, h.found⟩, ?_, fun g hg => (Catalog.type?_some (hc.registered hg)).2, by decide,
    htext ▸ .drawn h.draws⟩
  rintro ⟨-, habstract⟩
  exact absurd habstract (by simp [h.concrete])

theorem add_taken (h : c.AwaitsNumber id p) (hc : c.Formed)
    (htaken : (c.slot? (c.entity id).type.name c.nextText).isSome) :
    ∃ fault, ((add id).on c).1 = .error fault := by
  obtain ⟨slot, htaken⟩ := Option.isSome_iff_exists.mp htaken
  obtain ⟨temp, c₁, c₂, g, hasked⟩ := (h.presents hc).asked
  have hout : ¬ g.Holds slot id := fun hs => h.uncached ⟨_, slot, hasked.holds_iff.mp hs⟩
  have hindex : g.index.get? (c₁.instances.entity id).keyText = some slot := by
    rw [hasked.keyText, hasked.index, htaken]
  obtain ⟨fault, hfault⟩ := Group.attach_taken (Option.getD none .disallowed) hindex hout
  obtain ⟨d, keys, hadd, -⟩ := hasked.on_error h.draws hfault
  exact ⟨fault, congrArg Prod.fst hadd⟩

theorem add_free (h : c.AwaitsNumber id p) (hc : c.Formed)
    (hfree : c.slot? (c.entity id).type.name c.nextText = none) :
    ∃ c', (add id).on c = (.ok id, c') ∧ c.Numbers id c' := by
  obtain ⟨temp, c₁, c₂, g, hasked⟩ := (h.presents hc).asked
  have hjoined : (attach id .added none).on c = (.ok id, _) :=
    hasked.on_ok (hasked.admits.attach_free (by rw [hasked.keyText, hasked.index, hfree]))
  have hended := attach_ended c id .added none
  rw [hjoined] at hended
  have hmarked : c₁.instances.entity id = marked (c.entity id) p (.integer c.keys.nextNumber) := by
    obtain ⟨keys, -, -, rfl⟩ := hasked.prepared.of_draws h.draws
    exact entity_given c id p _ keys
  have hallotted : c₂.Allotted :=
    (hc.allotted.of_groups hasked.prepared.groups
      (Nat.le_of_eq hasked.prepared.count.symm)).opens hasked.opens
  obtain ⟨slot, hplaced⟩ := (hallotted _ _ hasked.group).holds_place
    (c₁.instances.entity id).keyText id
  refine ⟨_, hjoined, ⟨(c.entity id).type.name, slot, _, by simp [get?_putGroup], hplaced⟩,
    ?_, ?_, ?_, ?_, fun {other} ho => ⟨hended.isCached_iff hc.allotted ho, ?_⟩⟩
  · simp [entity]
  · simp [entity, hmarked, marked]
  · rw [entity, Instances.entity_put, if_pos rfl]
    exact hasked.keyText
  · simp [entity, hmarked, marked]
  · rw [entity, Instances.entity_put, if_neg ho, Instances.entity_freeze]
    exact hasked.prepared.others ho

end AwaitsNumber

section Supplies

/-- A node of which an import makes an entity: the one it begins with, or one in a navigation
property of such a node. -/
inductive Arrives (c : Cache) (adapter : Adapter) :
    EntityType → Json → EntityType → Json → Prop where
  | self {t node} : Arrives c adapter t node t node
  | nested {t node p related target n u inner} : p ∈ t.navigationProperties →
      (node.field? p.wireName).bind relatedNodes? = some related →
      c.catalog.find p.target = .ok target → n ∈ related →
      Arrives c adapter ((c.declaredType? adapter n).getD target) n u inner →
      Arrives c adapter t node u inner

/-- An answer to a query says something negative for a key that is a number. -/
def ImportsNegative (c : Cache) (payload : Json) (q : Query) (adapter : Adapter) : Prop :=
  ∃ extracted target node t u inner p raw, adapter.extract payload = .ok extracted ∧
    q.target c.catalog = .ok target ∧ q.selected.isEmpty ∧ node ∈ extracted.nodes ∧
    (c.declaredType? adapter node).or target.entityType? = some t ∧
    Arrives c adapter t node u inner ∧ u.NumberKeyed p ∧
    inner.field? p.wireName = some raw ∧ ¬ (Value.ofJson raw).NonNegative

/-- From outside, something negative comes in for a key that is a number: it is assigned to the
property, or it is in an answer to a query or to a save. -/
def SuppliesNegative (c : Cache) : Op → Prop
  | .set id name v => ∃ p, (c.entity id).type.NumberKeyed p ∧ p.name = name ∧ ¬ v.NonNegative
  | .fixupKey typeName temp real => c.AssignsNegative typeName temp real
  | .importResults payload q adapter => c.ImportsNegative payload q adapter
  | .applySave _ result =>
    (∃ before m after, result.keyAssignments = before ++ m :: after ∧
      ((assignAll before).on c).2.AssignsNegative m.typeName m.temp m.real) ∨
    ∃ node ∈ result.entities, c.SendsNegative node
  | _ => False

end Supplies

end Cache

def Op.joining? : Op → Option InstanceId
  | attach id _ _ | add id => some id
  | _ => none

namespace Action

variable {c : Cache} {catalog : Catalog} {service : Service} {n m : Nat}

theorem Ended.indexed {state : EntityState} {strategy : MergeStrategy}
    {c' : Cache} {id : InstanceId}
    (h : Ended c id state strategy (.ok id, c')) (hout : ¬ c.IsCached id) :
    (c'.slot? (c'.entity id).type.name (c'.entity id).keyText).isSome := by
  have htype := h.type_self
  cases h with
  | @joined _ c₁ c₂ g g' is _ hp hopens hg _ _ _ ha =>
    rw [htype, slot?_of_put rfl, if_pos rfl]
    cases ha with
    | again hs => exact absurd ⟨_, _, hp.holds_iff.mp (hopens.holds_iff.mp ⟨g, hg, hs⟩)⟩ hout
    | merged _ hne => exact absurd rfl hne
    | kept _ hne => exact absurd rfl hne
    | placed =>
      obtain ⟨slot, hindex⟩ := g.index_place (c₁.instances.entity id).keyText id
      rw [hindex, entity, Instances.entity_put, if_pos rfl, Table.get?_put]
      split
      · rfl
      · rename_i hkey
        exact absurd rfl hkey

theorem clear_reserved (hc : c.Reserved catalog service n m) :
    (clear.on c).2.Reserved catalog service (n + 1) c.instances.count := by
  obtain ⟨hcount, -⟩ := detached_all (c.entities none none) c.instances
  refine ⟨(clear_forms c hc.formed).holds, hc.service, TempKeys.counted_start _ _ _,
    Nat.le_of_eq hcount.symm, fun _ _ hin => Bool.noConfusion hin, fun {id} hid hin => ?_⟩
  rcases hin with ⟨name, slot, g, hg, -⟩ | hlater
  · cases hg
  · exact absurd (hcount ▸ hid) (Nat.not_lt.mpr hlater)

/-- What an import lets in avoids the numbers that are still to be drawn, as nothing negative is
in the nodes that arrive. -/
theorem importResults_reserved (hc : c.Reserved catalog service n m) (hn : n < 2 ^ 63 - 1)
    {payload : Json} {q : Query} {adapter : Adapter}
    (hnot : ¬ c.ImportsNegative payload q adapter) :
    (importResults payload q adapter).KeepsAt (Reserved catalog service n m) Grows c := by
  have hcatalog : ∀ {d : Cache}, d.Reserved catalog service n m → d.catalog = c.catalog :=
    fun hd => hd.formed.catalog.trans hc.formed.catalog.symm
  have hdeclared : ∀ {d : Cache}, d.Reserved catalog service n m → ∀ node,
      d.declaredType? adapter node = c.declaredType? adapter node := fun hd node => by
    rw [declaredType?, declaredType?, hcatalog hd]
  refine importResults_keepsAll (N := fun t node => catalog.type? t.name = some t ∧
    ∀ u inner, c.Arrives adapter t node u inner → ∀ p, u.NumberKeyed p →
      ∀ raw, inner.field? p.wireName = some raw → (Value.ofJson raw).NonNegative)
    ?_ hc (fun t node hnode => ?_) ?_
  · intro d d' t node p related target k hd hd' hnode hp hrelated htarget hk
    rw [hcatalog hd] at htarget
    rw [hdeclared hd']
    refine ⟨?_, fun u inner harrives => hnode.2 u inner (.nested hp hrelated htarget hk harrives)⟩
    cases hk : c.declaredType? adapter k with
    | none => exact hc.formed.type?_self (Catalog.find_ok htarget)
    | some u =>
      obtain ⟨name, -, htype⟩ := Option.bind_eq_some_iff.mp hk
      exact hc.formed.type?_self htype
  · exact arrive_reserved hn _ hnode.1 fun p hp raw hraw => hnode.2 t node .self p hp raw hraw
  · intro d extracted target node t hd hextracted htarget hselected hnode ht
    rw [hdeclared hd] at ht
    refine ⟨?_, fun u inner harrives p hp raw hraw => ?_⟩
    · rcases Option.or_eq_some_iff.mp ht with hdecl | ⟨-, hstandard⟩
      · obtain ⟨name, -, htype⟩ := Option.bind_eq_some_iff.mp hdecl
        exact hc.formed.type?_self htype
      · obtain ⟨name, htype⟩ := Query.target_found htarget hstandard
        exact hc.formed.type?_self htype
    · by_contra hnegative
      exact hnot ⟨extracted, target, node, t, u, inner, p, raw, hextracted, htarget, hselected,
        hnode, ht, harrives, hp, hraw, hnegative⟩

theorem applySave_reserved (hc : c.Reserved catalog service n m) {saved : List InstanceId}
    {result : SaveAnswer} (hnot : ¬ c.SuppliesNegative (.applySave saved result)) :
    (applySave saved result).KeepsAt (Reserved catalog service n m) Grows c := by
  have hassign : (assignAll result.keyAssignments).KeepsAt (Reserved catalog service n m) Grows c :=
    assignAll_keepsAll (fun _ _ hd hnegative => fixupKey_reserved hd hnegative) hc
      fun before a after heq hnegative => hnot (Or.inl ⟨before, a, after, heq, hnegative⟩)
  have hmerge : ∀ node ∈ result.entities,
      (mergeSaved node).Keeps (Reserved catalog service n m) Grows := fun node hnode =>
    mergeSaved_reserved fun d hd hnegative => hnot (Or.inr ⟨node, hnode, by
      simpa only [SendsNegative, declaredType?, hc.formed.catalog, hd.formed.catalog, hc.service,
        hd.service] using hnegative⟩)
  exact hassign.bind fun _ =>
    (Keeps.forM fun id _ => settle_keepsAll (settling_reserved id)).bind
      fun _ => Keeps.forM hmerge

end Action

namespace Cache

variable {c : Cache} {catalog : Catalog} {service : Service} {n m : Nat} {op : Op}

/-- An operation leaves the numbers free that are still to be drawn, if nothing negative comes in
from outside and whoever joins avoids them. If all is cleared, nobody from before is known to. -/
theorem next_reserved (hc : c.Reserved catalog service n m) (he : op.Enabled c)
    (hn : n < 2 ^ 63 - 1) (hnot : ¬ c.SuppliesNegative op)
    (hjoins : ∀ id, op.joining? = some id → (c.entity id).Avoids c.keys) :
    ∃ m', (c.next op).Reserved catalog service (n + 1) m' ∧
      (m' = m ∨ op = .clear ∧ m' = c.instances.count) := by
  have hparts : op.PartsKeep (Reserved catalog service n m) Grows c →
      ∃ m', (c.next op).Reserved catalog service (n + 1) m' ∧
        (m' = m ∨ op = .clear ∧ m' = c.instances.count) := fun h =>
    ⟨m, (Op.keeps_of_parts h hc).holds.mono (Nat.le_succ n), Or.inl rfl⟩
  cases op with
  | create typeName => exact hparts (create_reserved typeName c hc)
  | attach id state strategy =>
    have h : (Action.attach id state strategy).KeepsAt
        (Reserved catalog service (n + 1) m) Grows c :=
      attach_reserved hc (he id (by simp [Op.handles])) hn (hjoins id rfl)
    exact ⟨m, h.discard.holds, Or.inl rfl⟩
  | add id =>
    have h : (Action.add id).KeepsAt (Reserved catalog service (n + 1) m) Grows c :=
      attach_reserved hc (he id (by simp [Op.handles])) hn (hjoins id rfl)
    exact ⟨m, h.discard.holds, Or.inl rfl⟩
  | delete id =>
    exact hparts ⟨detach_reserved id, change_reserved_of_values fun _ _ he =>
      ⟨(markDeleted_same he).1, (markDeleted_same he).2,
        (Entity.forgets_markDeleted he).originals⟩⟩
  | detach id => exact hparts (detach_reserved id)
  | acceptEntity id => exact hparts (settling_reserved id)
  | rejectEntity id => exact hparts (rejecting_reserved id)
  | acceptChanges => exact hparts fun id _ => settling_reserved id
  | rejectChanges => exact hparts fun id _ => rejecting_reserved id
  | fixupKey typeName temp real => exact hparts (fixupKey_reserved hc hnot)
  | importResults payload q adapter => exact hparts (importResults_reserved hc hn hnot)
  | applySave saved result =>
    exact ⟨m, (applySave_reserved hc hnot).holds.mono (Nat.le_succ n), Or.inl rfl⟩
  | clear => exact ⟨_, clear_reserved hc, Or.inr ⟨rfl, rfl⟩⟩
  | set id name v =>
    refine hparts (set_reserved hc (he id (by simp [Op.handles])) fun p hp hname => ?_)
    refine hc.counted.leaves ?_
    by_contra hnegative
    exact hnot ⟨p, hp, hname, hnegative⟩
  | markUnchanged id =>
    exact hparts (change_reserved_of_values (fun _ _ he => ⟨(markUnchanged_same he).1,
      (markUnchanged_same he).2, (Entity.forgets_markUnchanged he).originals⟩) c hc)
  | markModified id =>
    exact hparts (change_reserved_of_values (fun _ _ he => ⟨(moveTo_same he).1,
      (moveTo_same he).2, (Entity.forgets_markModified he).originals⟩) c hc)

section Runs

variable {settings : Settings} {supply : Supply} {builders : UriBuilders} {ops : List Op}
  {id other : InstanceId} {p : DataProperty}

def Outlives (c : Cache) (ops : List Op) (id : InstanceId) : Prop :=
  ∃ before after, ops = before ++ .clear :: after ∧ id < (c.run before).instances.count

/-- An entity is let in that is not cached, was there already when all was cleared, and has a
number for a key, now or before an edit, that is still to be drawn. -/
def Resurfaces (c : Cache) (outlives : InstanceId → Prop) (op : Op) : Prop :=
  ∃ id, op.joining? = some id ∧ ¬ c.IsCached id ∧ outlives id ∧ ¬ (c.entity id).Avoids c.keys

theorem Outlives.append (h : c.Outlives ops id) (more : List Op) :
    c.Outlives (ops ++ more) id := by
  obtain ⟨before, after, rfl, hid⟩ := h
  exact ⟨before, after ++ more, by simp, hid⟩

theorem reserved_start (hr : catalog.Registered) (settings : Settings) (supply : Supply)
    (builders : UriBuilders) (service : Service) :
    (start catalog settings supply builders service).Reserved catalog service 0 0 := by
  have hstart := sound_start hr settings supply builders service
  refine ⟨⟨hstart.sound.formed, hstart.catalog⟩, rfl, TempKeys.counted_start supply 0 0,
    Nat.zero_le _, fun _ _ hin => Bool.noConfusion hin, fun hid => ?_⟩
  exact absurd hid (Nat.not_lt_zero _)

/-- Only entities that outlive a clear are not known to avoid what is still to be drawn. -/
theorem run_reserved (hr : catalog.Registered)
    (hv : (start catalog settings supply builders service).Valid ops)
    (hlen : ops.length < 2 ^ 63 - 1)
    (hn : ∀ n op, ops[n]? = some op →
      let s := start catalog settings supply builders service
      let c := s.run (ops.take n)
      ¬ c.SuppliesNegative op ∧ ¬ c.Resurfaces (s.Outlives (ops.take n)) op) :
    ∀ n ≤ ops.length, ∃ m,
      let s := start catalog settings supply builders service
      (s.run (ops.take n)).Reserved catalog service n m ∧
        ∀ id < m, s.Outlives (ops.take n) id := by
  refine run_induction (I := fun n c => ∃ m, c.Reserved catalog service n m ∧ ∀ id < m,
      (start catalog settings supply builders service).Outlives (ops.take n) id)
    ⟨0, reserved_start hr settings supply builders service, fun id hid =>
      absurd hid (Nat.not_lt_zero id)⟩ fun n op hop hc => ?_
  obtain ⟨m, hc, hold⟩ := hc
  have hlt : n < ops.length := (List.getElem?_eq_some_iff.mp hop).1
  have htake : ops.take (n + 1) = ops.take n ++ [op] := by
    rw [List.take_add_one, hop]
    rfl
  obtain ⟨hnegative, hresurfaces⟩ := hn n op hop
  have he := enabled_of_valid hv hop
  have hjoins : ∀ id, op.joining? = some id →
      (((start catalog settings supply builders service).run (ops.take n)).entity id).Avoids
        ((start catalog settings supply builders service).run (ops.take n)).keys := by
    intro id hid
    by_contra havoids
    have hmade : id < _ := he id (by cases op <;> simp_all [Op.joining?, Op.handles])
    by_cases hin : IsCached ((start catalog settings supply builders service).run (ops.take n)) id ∨
        m ≤ id
    · exact havoids (hc.avoids hmade hin)
    · obtain ⟨huncached, hlt⟩ := not_or.mp hin
      exact hresurfaces ⟨id, hid, huncached, hold id (Nat.lt_of_not_le hlt), havoids⟩
  obtain ⟨m', hnext, hm⟩ := next_reserved hc he (by omega) hnegative hjoins
  refine ⟨m', ?_, fun id hid => ?_⟩
  · rwa [next_of_getElem? hop]
  · rw [htake]
    rcases hm with rfl | ⟨rfl, rfl⟩
    · exact (hold id hid).append [op]
    · exact ⟨ops.take n, [], rfl, hid⟩

/-- As long as nothing negative comes in for a key that is a number and no entity resurfaces
that outlived a clear, every entity that awaits a number is added under one that nobody else
of its type has. If one resurfaces with the number that comes next, none of its type is added. -/
theorem run_numbers_fresh (hr : catalog.Registered)
    (hv : (start catalog settings supply builders service).Valid ops)
    (hlen : ops.length < 2 ^ 63 - 1)
    (hn : ∀ n op, ops[n]? = some op →
      let s := start catalog settings supply builders service
      let c := s.run (ops.take n)
      ¬ c.SuppliesNegative op ∧ ¬ c.Resurfaces (s.Outlives (ops.take n)) op) :
    let c := (start catalog settings supply builders service).run ops
    (∀ id p, c.AwaitsNumber id p → ∃ c', (add id).on c = (.ok id, c') ∧ c.Numbers id c' ∧
      ∀ other, other ≠ id → c'.IsCached other → (c'.entity other).type = (c'.entity id).type →
        (c'.entity other).keyText ≠ (c'.entity id).keyText) ∧
    ∀ other state strategy c', other < c.instances.count → ¬ c.IsCached other →
      (attach other state strategy).on c = (.ok other, c') →
      (c'.entity other).keyText = c'.nextText → ∀ id p, c'.AwaitsNumber id p →
      (c'.entity id).type = (c'.entity other).type →
      ∃ fault, ((add id).on c').1 = .error fault := by
  intro c
  obtain ⟨m, hc, -⟩ := run_reserved hr hv hlen hn ops.length (Nat.le_refl _)
  rw [List.take_length] at hc
  constructor
  · intro id p h
    have hreg : catalog.type? (c.entity id).type.name = some (c.entity id).type :=
      hc.formed.type?_of_find h.found
    have hnext : c.keys.Undrawn c.nextText := ⟨_, Int.le_refl _, rfl⟩
    have hfree : c.slot? (c.entity id).type.name c.nextText = none := by
      by_contra htaken
      exact hc.entered hreg h.keyed (Option.isSome_iff_ne_none.mpr htaken) hnext
    obtain ⟨c', hadd, hnumbers⟩ := h.add_free hc.formed.formed hfree
    refine ⟨c', hadd, hnumbers, fun other hne hcached htype hsame => ?_⟩
    obtain ⟨hbefore, heq⟩ := hnumbers.others hne
    rw [heq, hnumbers.type] at htype
    rw [heq, hnumbers.keyText] at hsame
    have hcached := hbefore.mp hcached
    have hgiven : other < c.instances.count := by
      obtain ⟨name, slot, g, hg, hs⟩ := hcached
      exact (hc.formed.formed.allotted name g hg).given hs
    have havoids := (hc.avoids hgiven (Or.inl hcached)).keyText (htype ▸ h.keyed)
    exact havoids (hsame ▸ hnext)
  · intro other state strategy c' hgiven hout hattach hkey id p h htype
    have hended := attach_ended c other state strategy
    have hforms := (attach_forms hc.formed hgiven state strategy).holds
    rw [hattach] at hended hforms
    refine h.add_taken hforms.formed ?_
    rw [htype, ← hkey]
    exact hended.indexed hout

def customerId : DataProperty := sales.types[0].dataProperties[0]

theorem customerId_numberKeyed : sales.types[0].NumberKeyed customerId := ⟨rfl, rfl, rfl⟩

theorem customer_type {c : Cache} (hc : c.FormedIn sales) (hid : id < c.instances.count)
    (hname : (c.entity id).type.name = "Customer") : (c.entity id).type = sales.types[0] := by
  have hknown := hc.formed.known id hid
  rw [hname, hc.catalog] at hknown
  exact (Option.some.inj hknown).symm

theorem awaitsNumber_customer {c : Cache} (hc : c.FormedIn sales) (hid : id < c.instances.count)
    (hname : (c.entity id).type.name = "Customer")
    (hu : isUnset customerId (held (c.entity id) customerId))
    (ho : c.groups.names.Pairwise (· < ·)) (hout : ∀ entry ∈ c.groups, id ∉ entry.2.members) :
    c.AwaitsNumber id customerId := by
  have htype := customer_type hc hid hname
  refine ⟨hid, htype ▸ customerId_numberKeyed, hu, htype ▸ rfl, ?_, fun hcached => ?_⟩
  · rw [htype, hc.catalog]
    rfl
  · obtain ⟨entry, hentry, hmem⟩ := (isCached_iff_mem ho).mp hcached
    exact hout entry hentry hmem

/-- A customer without a key avoids what is still to be drawn, and so does one whose number
has been drawn. -/
theorem avoids_customer {c : Cache} (hc : c.FormedIn sales) (hid : id < c.instances.count)
    (hname : (c.entity id).type.name = "Customer") (ho : (c.entity id).originals.isEmpty) {i : Int}
    (hkey : (c.entity id).keyText = "" ∨
      (c.entity id).keyText = i.repr ∧ c.keys.nextNumber.toInt < i) :
    (c.entity id).Avoids c.keys := by
  have htype := customer_type hc hid hname
  refine Entity.avoids_of_held (List.isEmpty_iff.mp ho) fun p hp => ?_
  rintro ⟨j, hj, htext⟩
  rw [← Entity.keyText_numberKeyed hp] at htext
  rcases hkey with hnone | ⟨hdrawn, hnext⟩
  · exact repr_ne_empty j (htext.symm.trans hnone)
  · have hsame : j = i := Int.repr_inj.mp (htext.symm.trans hdrawn)
    omega

/-- Of two customers from before all was cleared the first one disturbs nobody when it comes
back: its number has been drawn again. The second one takes the number that comes next. -/
theorem new_customer_numbered_until_taken :
    let ops := [Op.create "Customer", .add 0, .create "Customer", .add 1, .clear,
      .create "Customer", .add 2, .attach 0 .unchanged none, .create "Customer"]
    let c := salesCache.run ops
    let c' := ((attach 1 .unchanged none).on c).2
    salesCache.Valid ops ∧
    (∃ d, (add 3).on c = (.ok 3, d) ∧ c.Numbers 3 d ∧
      ∀ other, other ≠ 3 → d.IsCached other → (d.entity other).type = (d.entity 3).type →
        (d.entity other).keyText ≠ (d.entity 3).keyText) ∧
    ∃ fault, ((add 3).on c').1 = .error fault := by
  intro ops c c'
  have hv : salesCache.Valid ops := by decide +kernel
  have hstart : salesCache.FormedIn sales :=
    ⟨sound_salesCache.sound.formed, sound_salesCache.catalog⟩
  have hforms : ∀ n, (salesCache.run (ops.take n)).FormedIn sales := fun n =>
    run_forms hstart (valid_take hv n)
  have hc : c.FormedIn sales := run_forms hstart hv
  have hc' : c'.FormedIn sales := (attach_forms hc (by decide +kernel) .unchanged none).holds
  obtain ⟨hnumbered, htaken⟩ := run_numbers_fresh sales_registered hv (by decide)
    fun n op hop => by
      have hjoins : ∀ id, op.joining? = some id →
          ((salesCache.run (ops.take n)).entity id).Avoids (salesCache.run (ops.take n)).keys := by
        intro id hid
        match n, hop with
        | 0, hop | 2, hop | 4, hop | 5, hop | 8, hop => cases hop; cases hid
        | 1, hop | 3, hop | 6, hop | 7, hop =>
          cases hop
          cases hid
          exact avoids_customer (i := -1) (hforms _) (by decide +kernel) (by decide +kernel)
            (by decide +kernel) (by decide +kernel)
      refine ⟨?_, fun ⟨id, hid, _, _, hnot⟩ => hnot (hjoins id hid)⟩
      match n, hop with
      | 0, hop | 1, hop | 2, hop | 3, hop | 4, hop | 5, hop | 6, hop | 7, hop | 8, hop =>
        cases hop
        exact fun h => h
  have hmade : (create "Customer").on (salesCache.run (ops.take 8)) = (.ok 3, c) := by
    have hrun : (create "Customer").on (salesCache.run (ops.take 8)) =
      (.ok 3, ((create "Customer").on (salesCache.run (ops.take 8))).2) :=
        on_of_toOption (by decide +kernel)
    have hlast : c = (salesCache.run (ops.take 8)).next (.create "Customer") :=
      next_of_getElem? (show ops[8]? = some (.create "Customer") from rfl) salesCache
    rw [next, Op.action, on_discard] at hlast
    rw [hrun, ← hlast]
  have hmadeType : (c.entity 3).type = sales.types[0] :=
    customer_type hc (by decide +kernel) (by decide +kernel)
  have hawaits : c.AwaitsNumber 3 customerId :=
    awaitsNumber_of_create (hforms 8).formed hmade (hmadeType ▸ customerId_numberKeyed)
      (by rw [hmadeType, hc.catalog]; rfl)
  have hawaits' : c'.AwaitsNumber 3 customerId := awaitsNumber_customer hc' (by decide +kernel)
    (by decide +kernel) (by decide +kernel) (by decide +kernel) (by decide +kernel)
  have htype : (c'.entity 1).type = sales.types[0] :=
    customer_type hc' (by decide +kernel) (by decide +kernel)
  have hattach : (attach 1 .unchanged none).on c = (.ok 1, c') := on_of_toOption (by decide +kernel)
  refine ⟨hv, hnumbered 3 customerId hawaits, htaken 1 .unchanged none c' (by decide +kernel)
    (fun hcached => ?_) hattach (by decide +kernel) 3 customerId hawaits' ?_⟩
  · obtain ⟨entry, hentry, hmem⟩ := (isCached_iff_mem (by decide +kernel)).mp hcached
    exact (by decide +kernel : ∀ entry ∈ c.groups, 1 ∉ entry.2.members) entry hentry hmem
  · rw [htype]
    exact customer_type hc' (by decide +kernel) (by decide +kernel)

/-- A type whose name has a point in it, which is taken for the end of a namespace. -/
def shop : Catalog where
  types := [
    { name := "Shop.Order"
      dataProperties := [
        { name := "id", serverName := some "id", dataType := .int32, isKey := true }] }]
  nextSerial := 1

theorem shop_registered : shop.Registered := by
  let unnamed : EntityType :=
    { shop.types[0] with
      dataProperties := shop.types[0].dataProperties.map ({ · with serverName := none }) }
  exact .withType (t := unnamed) (.empty 0 .none) rfl rfl

/-- A customer that returns after all was cleared keeps a new one out, and an order of the shop
is of a type that is found when the order is created but not when it is added. -/
theorem new_entities_kept_out :
    let ops := [Op.create "Customer", .add 0, .clear, .attach 0 .unchanged none, .create "Customer"]
    let c := salesCache.run ops
    let shopCache := start shop {} ⟨fun _ => ⟨0, 0⟩, fun _ => .nil⟩ .standard { root := "" }
    let d := shopCache.run [.create "Shop.Order:#x"]
    (salesCache.Valid ops ∧
      (∀ n op, ops[n]? = some op → ¬ (salesCache.run (ops.take n)).SuppliesNegative op) ∧
      c.AwaitsNumber 1 customerId ∧ ((add 1).on c).1.toOption = none) ∧
    shop.Registered ∧ shopCache.Valid [.create "Shop.Order:#x"] ∧
      shop.type? "Shop.Order" = some (d.entity 0).type ∧
      (∃ p, (d.entity 0).type.NumberKeyed p ∧ isUnset p (held (d.entity 0) p)) ∧
      (d.entity 0).type.isAbstract = false ∧ ((add 0).on d).1.toOption = none := by
  intro ops c shopCache d
  have hv : salesCache.Valid ops := by decide +kernel
  have hc : c.FormedIn sales :=
    run_forms ⟨sound_salesCache.sound.formed, sound_salesCache.catalog⟩ hv
  refine ⟨⟨hv, fun n op hop => ?_, awaitsNumber_customer hc (by decide +kernel)
    (by decide +kernel) (by decide +kernel) (by decide +kernel) (by decide +kernel),
    by decide +kernel⟩, shop_registered, by decide +kernel, rfl,
    ⟨shop.types[0].dataProperties[0], ⟨rfl, rfl, rfl⟩, by decide +kernel⟩,
    by decide +kernel, by decide +kernel⟩
  match n, hop with
  | 0, hop | 1, hop | 2, hop | 3, hop | 4, hop =>
    cases hop
    exact fun h => h

end Runs

end Cache

end EntityCache
