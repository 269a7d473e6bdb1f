import EntityCache.Proofs.EntityChanges

/-! Original values, which a rejection restores. They belong to edits that are pending, so an
Unchanged or Added entity should have none. Whatever makes an entity Unchanged drops them,
save for attaching: an instance that still has original values keeps them when it joins, and
they come back with a later rejection. -/
namespace EntityCache

open Cache EntityCache.Action

namespace Entity

variable {a b d e e' : Entity}

def Clean (e : Entity) : Prop := e.state = .modified ∨ e.state = .deleted ∨ e.originals = []

/-- No original value has been added, and a clean entity is still clean. -/
structure Forgets (e e' : Entity) : Prop where
  clean : e.Clean → e'.Clean
  originals : ∀ o ∈ e'.originals, o ∈ e.originals

namespace Forgets

theorem refl (e : Entity) : Forgets e e := ⟨id, fun _ => id⟩

theorem trans (h : Forgets a b) (k : Forgets b d) : Forgets a d :=
  ⟨fun hc => k.clean (h.clean hc), fun o ho => h.originals o (k.originals o ho)⟩

theorem of_same (hs : e'.state = e.state) (ho : e'.originals = e.originals) : Forgets e e' := by
  refine ⟨fun hc => ?_, fun o h => ho ▸ h⟩
  unfold Clean
  rwa [hs, ho]

theorem of_none (ho : e'.originals = []) : Forgets e e' :=
  ⟨fun _ => Or.inr (Or.inr ho), fun _ h => by rw [ho] at h; cases h⟩

/-- Original values may stay where the state becomes Modified or Deleted. -/
theorem of_pending (hs : e'.state = .modified ∨ e'.state = .deleted)
    (ho : e'.originals = e.originals) : Forgets e e' :=
  ⟨fun _ => hs.elim Or.inl fun hd => Or.inr (Or.inl hd), fun _ h => ho ▸ h⟩

instance : Lenient Forgets := ⟨refl, trans, of_same, of_none⟩

end Forgets

theorem forgets_markUnchanged (h : e.markUnchanged = .ok e') : Forgets e e' := by
  obtain ⟨u, -, rfl⟩ := map_ok h
  exact .of_none rfl

theorem forgets_markModified (h : e.markModified = .ok e') : Forgets e e' := by
  obtain ⟨hs, ho⟩ := moveTo_originals h
  exact .of_pending (Or.inl hs) ho

theorem forgets_markDeleted (h : e.markDeleted = .ok e') : Forgets e e' := by
  unfold markDeleted at h
  split at h
  · rename_i hs
    cases h
    refine ⟨fun hc => ?_, fun o ho => ho⟩
    rcases hc with hc | hc | hc
    · cases hs.symm.trans hc
    · cases hs.symm.trans hc
    · exact Or.inr (Or.inr hc)
  · cases h
  · obtain ⟨hs, ho⟩ := moveTo_originals h
    exact .of_pending (Or.inr hs) ho

theorem set_originals {name : String} {v : Value} (h : e.set name v = .ok e') :
    (e.Clean → e'.Clean) ∧
      ∀ o ∈ e'.originals, o ∈ e.originals ∨ o = (name, (e.get? name).getD .null) := by
  have hrecorded : ∀ (w : Entity) (old : Value),
      (w.Clean → (w.recordEdit name old).Clean) ∧
        ∀ o ∈ (w.recordEdit name old).originals, o ∈ w.originals ∨ o = (name, old) := by
    intro w old
    unfold recordEdit
    split
    · exact ⟨fun _ => Or.inl rfl, fun _ ho => Table.mem_putNew ho⟩
    · exact ⟨fun _ => Or.inl rfl, fun _ ho => Table.mem_putNew ho⟩
    · exact ⟨id, fun o ho => Or.inl ho⟩
  obtain ⟨p, -, -, -, rfl⟩ := set_eq_ok_iff.mp h
  split
  · exact ⟨id, fun o ho => Or.inl ho⟩
  · exact hrecorded (e.write name (p.dataType.coerce v)) _

/-- A rejection brings back what was recorded of a property, and leaves the others. -/
theorem get?_rejectChanges_cases (e : Entity) (name : String) :
    (e.originals.get? name = none ∧ e.rejectChanges.get? name = e.get? name) ∨
      ∃ v, (name, v) ∈ e.originals ∧ e.rejectChanges.get? name = some v := by
  rw [e.get?_rejectChanges name]
  cases h : Table.get? e.originals.reverse name with
  | none =>
    refine Or.inl ⟨(Table.get?_eq_none_iff _ _).mpr ?_, rfl⟩
    simpa [Table.names] using (Table.get?_eq_none_iff _ _).mp h
  | some v => exact Or.inr ⟨v, List.mem_reverse.mp (Table.mem_of_get? h), rfl⟩

/-- A restored value is an original one. -/
theorem get?_rejectChanges_or (e : Entity) (name : String) :
    e.rejectChanges.get? name = e.get? name ∨
      ∃ v, (name, v) ∈ e.originals ∧ e.rejectChanges.get? name = some v :=
  (get?_rejectChanges_cases e name).imp_left And.right

end Entity

def Instances.Forgets (is is' : Instances) : Prop := ∀ id, (is.entity id).Forgets (is'.entity id)

def Cache.Forgets (c c' : Cache) : Prop := c.instances.Forgets c'.instances

namespace Cache

variable {c : Cache}

/-- The instance itself joins, in a state that leaves nothing to restore, although it still
has original values. -/
def AttachRevives (c : Cache) (id : InstanceId) (state : EntityState)
    (strategy : Option MergeStrategy) : Prop :=
  (state = .unchanged ∨ state = .added) ∧ (c.entity id).originals ≠ [] ∧
    ((Action.attach id state strategy).on c).1.toOption = some id

def Revives (c : Cache) : Op → Prop
  | .attach id state strategy => c.AttachRevives id state strategy
  | .add id => c.AttachRevives id .added none
  | _ => False

def Unedited (c : Cache) : Prop := ∀ id, c.IsCached id →
  (c.entity id).state = .unchanged ∨ (c.entity id).state = .added → (c.entity id).originals = []

end Cache

namespace Action

variable {c : Cache} {id : InstanceId}

section Attach

variable {state : EntityState} {strategy : MergeStrategy} {out : Except Fault InstanceId × Cache}

/-- An instance that joins is cached then and keeps its original values. -/
theorem Ended.revived (h : Ended c id state strategy out) (ha : c.Allotted)
    (hid : id < c.instances.count) (hok : out.1.toOption = some id) :
    out.2.IsCached id ∧ (out.2.entity id).state = state ∧
      (out.2.entity id).originals = (c.entity id).originals := by
  cases h with
  | refused => cases hok
  | stranded => cases hok
  | withdrawn => cases hok
  | @joined _ c₁ c₂ g _ _ cached hp ho hg _ _ _ hattached =>
    obtain rfl : cached = id := Option.some.inj hok
    have hlater : c₂.Allotted := by
      have hprepared : c₁.Allotted := ha.of_groups hp.groups (Nat.le_of_eq hp.count.symm)
      exact hprepared.opens ho
    have hcached : ∀ {g' : Group} {slot : Nat}, g'.Holds slot cached →
        ∃ name s, ∃ g₁, Table.get? (putGroup (c.entity cached).type.name g' c₂.groups) name =
          some g₁ ∧ g₁.Holds s cached := fun {g' slot} hm =>
      ⟨(c.entity cached).type.name, slot, g', by rw [get?_putGroup, if_pos rfl], hm⟩
    have horiginals : (c₁.entity cached).originals = (c.entity cached).originals :=
      (hp.edits cached).2.2
    cases hattached with
    | again hm hmove =>
      obtain ⟨hs, ho⟩ := Entity.moveTo_originals hmove
      refine ⟨hcached hm, ?_, ?_⟩
      · simpa [entity] using hs
      · simpa [entity] using ho.trans horiginals
    | merged _ hne => exact absurd rfl hne
    | kept _ hne => exact absurd rfl hne
    | placed =>
      obtain ⟨slot, hplaced⟩ := (hlater _ _ hg).holds_place
        (c₁.instances.entity cached).keyText cached
      refine ⟨hcached hplaced, ?_, ?_⟩
      · simp [entity]
      · simpa [entity] using horiginals

end Attach

/-- A rejection leaves an original value in a property, or what stood there. -/
theorem get?_rejectEntity (id : InstanceId) (c : Cache) (name : String) :
    (((rejectEntity id).on c).2.entity id).get? name = (c.entity id).get? name ∨
      ∃ v, (name, v) ∈ (c.entity id).originals ∧
        (((rejectEntity id).on c).2.entity id).get? name = some v := by
  unfold rejectEntity
  rw [on_bind_ok (on_stateOf id c)]
  split
  · refine Or.inl ?_
    rw [on_bind, on_discard]
    rcases detach_cases id c with ⟨fault, -, h⟩ | ⟨g, g', is, keys, -, hd, h⟩
    · rw [h]
      rfl
    · obtain ⟨-, -, -, -, -, -, rfl⟩ := Group.detach_spec hd
      rw [h]
      simp [entity, Entity.get?, Entity.markDetached, Except.map]
  · exact Or.inl rfl
  · have hrejected := (c.entity id).get?_rejectChanges_or name
    rw [on_bind_ok (on_change_ok (f := fun e => .ok e.rejectChanges) rfl), on_stateOf]
    simpa [entity] using hrejected

end Action

namespace Cache

variable {c : Cache}

theorem next_forgets {op : Op} (hn : ¬ c.Revives op) (hset : ∀ id name v, op ≠ .set id name v) :
    Forgets c (c.next op) := by
  have hmoves : Entity.AllowsMoves Entity.Forgets := ⟨fun _ _ => Entity.forgets_markUnchanged,
    fun _ _ => Entity.forgets_markModified, fun _ _ => Entity.forgets_markDeleted⟩
  refine next_carries hmoves (fun id name v hop => absurd hop (hset id name v))
    fun id state strategy hop hok hs e hstate horiginals => ?_
  have hrevives : ¬ c.AttachRevives id state strategy := by
    rcases hop with rfl | ⟨rfl, rfl, rfl⟩ <;> exact hn
  cases state with
  | detached => exact absurd rfl hs
  | modified => exact .of_pending (Or.inl hstate) horiginals
  | deleted => exact .of_pending (Or.inr hstate) horiginals
  | unchanged | added =>
    refine .of_none (horiginals.trans ?_)
    by_contra ho
    exact hrevives ⟨by simp, ho, hok⟩

/-- What an entity has come to have among its original values is what an assignment has
just replaced. -/
theorem next_originals {op : Op} (hn : ¬ c.Revives op) (id : InstanceId) :
    ((c.entity id).Clean → ((c.next op).entity id).Clean) ∧
      ∀ o ∈ ((c.next op).entity id).originals, o ∈ (c.entity id).originals ∨
        ∃ v, op = .set id o.1 v ∧ o.2 = ((c.entity id).get? o.1).getD .null := by
  by_cases hset : ∃ other name v, op = .set other name v
  · obtain ⟨other, name, v, rfl⟩ := hset
    rw [next, Op.action, on_change]
    cases he : (c.entity other).set name v with
    | error fault => exact ⟨fun hc => hc, fun o ho => Or.inl ho⟩
    | ok e =>
      obtain ⟨hclean, horiginals⟩ := Entity.set_originals he
      by_cases ho : id = other
      · subst ho
        simp only [entity, Instances.entity_put, if_pos]
        refine ⟨hclean, fun o hmem => (horiginals o hmem).imp_right ?_⟩
        rintro rfl
        exact ⟨v, rfl, rfl⟩
      · simp only [entity, Instances.entity_put, if_neg ho]
        exact ⟨fun hc => hc, fun o hmem => Or.inl hmem⟩
  · have hforgets := next_forgets hn fun other name v heq => hset ⟨other, name, v, heq⟩
    exact ⟨(hforgets id).clean, fun o ho => Or.inl ((hforgets id).originals o ho)⟩

/-- An entity that an operation revives is a cached one with something to restore that is
Unchanged or Added. -/
theorem not_unedited_of_revives (ha : c.Allotted) {op : Op} (he : op.Enabled c)
    (h : c.Revives op) : ¬ (c.next op).Unedited := by
  have hattach : ∀ {id state strategy}, id < c.instances.count →
      c.AttachRevives id state strategy →
      ¬ ((Action.attach id state strategy).on c).2.Unedited := by
    intro id state strategy hid hr hunedited
    obtain ⟨hs, ho, hok⟩ := hr
    obtain ⟨hcached, hstate, hsame⟩ :=
      (attach_ended c id state strategy).revived ha hid hok
    refine ho (hsame.symm.trans (hunedited id hcached ?_))
    rwa [hstate]
  cases op with
  | attach id state strategy =>
    rw [next, Op.action, on_discard]
    exact hattach (he id (by simp [Op.handles])) h
  | add id =>
    rw [next, Op.action, on_discard]
    exact hattach (he id (by simp [Op.handles])) h
  | _ => exact False.elim h

section Runs

variable {catalog : Catalog} {settings : Settings} {supply : Supply} {builders : UriBuilders}
  {service : Service} {ops : List Op}

theorem run_clean (hn : ∀ n op, ops[n]? = some op →
      ¬ ((start catalog settings supply builders service).run (ops.take n)).Revives op) :
    ∀ n ≤ ops.length, ∀ id,
      (((start catalog settings supply builders service).run (ops.take n)).entity id).Clean := by
  refine run_induction (I := fun _ c => ∀ id, (c.entity id).Clean)
    (fun id => Or.inr (Or.inr rfl)) fun n op hop hclean id => ?_
  rw [next_of_getElem? hop]
  exact (next_originals (hn n op hop) id).1 (hclean id)

/-- An original value was there already, or has been replaced by an assignment since. -/
theorem run_originals {c : Cache} (hn : ∀ n op, ops[n]? = some op →
      ¬ (c.run (ops.take n)).Revives op) {m n : Nat} (hmn : m ≤ n) (hlen : n ≤ ops.length)
    (id : InstanceId) : ∀ o ∈ ((c.run (ops.take n)).entity id).originals,
      o ∈ ((c.run (ops.take m)).entity id).originals ∨
        ∃ k v, m ≤ k ∧ k < n ∧ ops[k]? = some (.set id o.1 v) ∧
          o.2 = (((c.run (ops.take k)).entity id).get? o.1).getD .null := by
  induction n, hmn using Nat.le_induction with
  | base => exact fun o ho => Or.inl ho
  | succ n hmn ih =>
    intro o ho
    have hop : ops[n]? = some ops[n] := List.getElem?_eq_getElem hlen
    rw [next_of_getElem? hop] at ho
    rcases (next_originals (hn n _ hop) id).2 o ho with ho | ⟨v, hset, hv⟩
    · rcases ih (Nat.le_of_succ_le hlen) o ho with ho | ⟨k, v, hmk, hkn, hk⟩
      · exact Or.inl ho
      · exact Or.inr ⟨k, v, hmk, Nat.lt_succ_of_lt hkn, hk⟩
    · exact Or.inr ⟨n, v, hmn, Nat.lt_succ_self n, by rw [hop, hset], hv⟩

/-- Whoever is cached as Unchanged or Added has no original values all along a run, exactly if
no instance of the run joins in one of these states with some that it still has. Then a
rejection leaves in a property what stood there, or what an assignment has replaced since the
entity was last Unchanged or Added. -/
theorem run_unedited_iff (hv : (start catalog settings supply builders service).Valid ops) :
    ((∀ n ≤ ops.length,
        ((start catalog settings supply builders service).run (ops.take n)).Unedited) ↔
      ∀ n op, ops[n]? = some op →
        ¬ ((start catalog settings supply builders service).run (ops.take n)).Revives op) ∧
    ((∀ n op, ops[n]? = some op →
        ¬ ((start catalog settings supply builders service).run (ops.take n)).Revives op) →
      let at_ n := (start catalog settings supply builders service).run (ops.take n)
      ∀ m n id name, m ≤ n → n ≤ ops.length →
        ((at_ m).entity id).state = .unchanged ∨ ((at_ m).entity id).state = .added →
        (((rejectEntity id).on (at_ n)).2.entity id).get? name = ((at_ n).entity id).get? name ∨
        ∃ k v, m ≤ k ∧ k < n ∧ ops[k]? = some (.set id name v) ∧
          (((rejectEntity id).on (at_ n)).2.entity id).get? name =
            some ((((at_ k).entity id).get? name).getD .null)) := by
  have hkept : (∀ n op, ops[n]? = some op →
      ¬ ((start catalog settings supply builders service).run (ops.take n)).Revives op) →
      ∀ n ≤ ops.length, ∀ id, let e :=
        ((start catalog settings supply builders service).run (ops.take n)).entity id
      e.state = .unchanged ∨ e.state = .added → e.originals = [] := by
    intro hn n hlen id e hs
    rcases run_clean hn n hlen id with hc | hc | hc
    · rcases hs with hs | hs <;> cases hs.symm.trans hc
    · rcases hs with hs | hs <;> cases hs.symm.trans hc
    · exact hc
  refine ⟨⟨fun h n op hop hr => ?_, fun hn n hlen id _ => hkept hn n hlen id⟩, ?_⟩
  · have hallotted : ((start catalog settings supply builders service).run
        (ops.take n)).Allotted :=
      run_allotted (allotted_start _ _ _ _ _) (valid_take hv n)
    refine not_unedited_of_revives hallotted (enabled_of_valid hv hop) hr ?_
    rw [← next_of_getElem? hop]
    exact h (n + 1) (List.getElem?_eq_some_iff.mp hop).1
  · intro hn at_ m n id name hmn hlen hs
    rcases get?_rejectEntity id (at_ n) name with h | ⟨v, hmem, h⟩
    · exact Or.inl h
    · refine Or.inr ?_
      rcases run_originals hn hmn hlen id _ hmem with ho | ⟨k, w, hmk, hkn, hop, hw⟩
      · rw [hkept hn m (Nat.le_trans hmn hlen) id hs] at ho
        cases ho
      · exact ⟨k, w, hmk, hkn, hop, by rw [h, ← hw]⟩

def attachedAgain : List Op :=
  [.create "Customer", .set 0 "id" (.integer 1), .set 0 "name" (.text "Ann"),
    .attach 0 .unchanged none, .set 0 "name" (.text "Bea"), .attach 0 .unchanged none]

/-- Up to its first edit and the edit included, the customer has nothing to restore but what
the edit has replaced. -/
theorem edited_customer_unedited_before :
    salesCache.Valid (attachedAgain.take 5) ∧
    (∀ n ≤ 5, (salesCache.run ((attachedAgain.take 5).take n)).Unedited) ∧
    ((((rejectEntity 0).on (salesCache.run (attachedAgain.take 5))).2.entity 0).get? "name" =
        ((salesCache.run (attachedAgain.take 5)).entity 0).get? "name" ∨
      ∃ k v, 4 ≤ k ∧ k < 5 ∧ (attachedAgain.take 5)[k]? = some (.set 0 "name" v) ∧
        (((rejectEntity 0).on (salesCache.run (attachedAgain.take 5))).2.entity 0).get? "name" =
          some ((((salesCache.run ((attachedAgain.take 5).take k)).entity 0).get? "name").getD
            .null)) := by
  have hv : salesCache.Valid (attachedAgain.take 5) := by decide +kernel
  have hn : ∀ n op, (attachedAgain.take 5)[n]? = some op →
      ¬ (salesCache.run ((attachedAgain.take 5).take n)).Revives op := by
    intro n op hop
    match n, hop with
    | 0, hop | 1, hop | 2, hop | 4, hop => cases hop; exact fun h => h
    | 3, hop => cases hop; exact fun h => h.2.1 rfl
  have hstate : ((salesCache.run ((attachedAgain.take 5).take 4)).entity 0).state = .unchanged := by
    decide +kernel
  obtain ⟨hiff, hreject⟩ := run_unedited_iff hv
  exact ⟨hv, hiff.mpr hn, hreject hn 4 5 0 "name" (by decide) (by decide) (Or.inl hstate)⟩

/-- Attached again, the customer is Unchanged as Bea, and a rejection of its next edit makes
it Ann. Another one, Unchanged without being cached, has an original value when it is
Added. -/
theorem original_values_outlive_edit :
    let again := salesCache.run attachedAgain
    let rejected := again.run [.set 0 "name" (.text "Cy"), .rejectEntity 0]
    let added := salesCache.run [.create "Customer", .set 0 "id" (.integer 1),
      .markUnchanged 0, .set 0 "name" (.text "Bea"), .add 0]
    salesCache.Valid attachedAgain ∧ ¬ again.Unedited ∧
      (again.entity 0).state = .unchanged ∧
      ((again.entity 0).get? "name").map Value.keyText = some "Bea" ∧
      ((rejected.entity 0).get? "name").map Value.keyText = some "Ann" ∧
      ¬ added.Unedited ∧ (added.entity 0).state = .added ∧
      (added.entity 0).originals.names = ["name"] := by
  have hnot : ∀ {c : Cache} (id : InstanceId),
      c.slotsOf "Customer" = some [some id] →
      (c.entity id).state = .unchanged ∨ (c.entity id).state = .added →
      (c.entity id).originals.names = ["name"] → ¬ c.Unedited := by
    intro c id hslots hs ho hunedited
    have hnone := hunedited id ⟨"Customer", 0, holds_of_slotsOf hslots rfl⟩ hs
    rw [hnone] at ho
    cases ho
  refine ⟨by decide +kernel, hnot 0 (by decide +kernel) (Or.inl (by decide +kernel))
    (by decide +kernel), by decide +kernel, by decide +kernel, by decide +kernel,
    hnot 0 (by decide +kernel) (Or.inr (by decide +kernel)) (by decide +kernel),
    by decide +kernel, by decide +kernel⟩

end Runs

end Cache

end EntityCache
