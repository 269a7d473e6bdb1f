import EntityCache.Proofs.SaveParts

/-! The state machine of entities, operation by operation. Whatever writes many states writes
Unchanged or Detached, which every state may become. A single one is written by the calls
that edit, mark or delete, which ask the machine, and by those that attach, which ask it
only for an instance that is in its slot already. -/
namespace EntityCache

open Cache EntityCache.Action

namespace EntityState

variable {a b d : EntityState}

def CalmsTo (a b : EntityState) : Prop := b = a ∨ b = .unchanged ∨ b = .detached

theorem CalmsTo.canBecome (h : CalmsTo a b) : a.canBecome b := by
  rcases h with rfl | rfl | rfl
  · simp [EntityState.canBecome]
  · cases a <;> rfl
  · simp [EntityState.canBecome]

theorem CalmsTo.trans (h : CalmsTo a b) (k : CalmsTo b d) : CalmsTo a d := by
  rcases k with rfl | k
  · exact h
  · exact Or.inr k

theorem canBecome_self (a : EntityState) : a.canBecome a := by simp [EntityState.canBecome]

end EntityState

namespace Entity

variable {e e' : Entity}

theorem state_moveTo {next : EntityState} (h : e.moveTo next = .ok e') :
    e'.state = next ∧ e.state.canBecome next := by
  unfold moveTo at h
  split at h <;> cases h
  exact ⟨rfl, ‹_›⟩

theorem canBecome_set {name : String} {v : Value} (h : e.set name v = .ok e') :
    e.state.canBecome e'.state := by
  have hrecorded : ∀ (w : Entity) (old : Value),
      w.state.canBecome (w.recordEdit name old).state := by
    intro w old
    unfold recordEdit
    cases hs : w.state <;> simp [hs, EntityState.canBecome]
  obtain ⟨p, -, -, -, rfl⟩ := set_eq_ok_iff.mp h
  split
  · exact e.state.canBecome_self
  · exact hrecorded (e.write name _) _

theorem canBecome_markDeleted (h : e.markDeleted = .ok e') : e.state.canBecome e'.state := by
  unfold markDeleted at h
  split at h
  · rename_i hs
    cases h
    rw [hs]
    rfl
  · cases h
  · obtain ⟨hs, hb⟩ := state_moveTo h
    rwa [hs]

theorem calmsTo_markUnchanged (h : e.markUnchanged = .ok e') : e.state.CalmsTo e'.state := by
  obtain ⟨u, hm, rfl⟩ := map_ok h
  exact Or.inr (Or.inl (state_moveTo hm).1)

theorem calmsTo_acceptChanges (e : Entity) : e.state.CalmsTo e.acceptChanges.state := by
  unfold acceptChanges
  cases e.state <;> simp [EntityState.CalmsTo]

theorem calmsTo_rejectChanges (e : Entity) : e.state.CalmsTo e.rejectChanges.state := by
  unfold rejectChanges
  cases e.state <;> simp [EntityState.CalmsTo]

theorem state_withNodeValues (e : Entity) (t : EntityType) (node : Json) :
    (e.withNodeValues t node).state = e.state := by
  obtain ⟨values, h⟩ := withNodeValues_eq e t node
  rw [h]

end Entity

def Instances.Calms (is is' : Instances) : Prop :=
  ∀ id, (is.entity id).state.CalmsTo (is'.entity id).state

namespace Instances.Calms

variable {is is' is'' : Instances}

theorem refl (is : Instances) : Calms is is := fun _ => Or.inl rfl

theorem trans (h : Calms is is') (k : Calms is' is'') : Calms is is'' := fun id =>
  (h id).trans (k id)

theorem of_entity (h : is'.entity = is.entity) : Calms is is' := fun id => by
  rw [h]
  exact Or.inl rfl

theorem put {id : InstanceId} {e : Entity} (h : (is.entity id).state.CalmsTo e.state) :
    Calms is (is.put id e) := fun other => by
  rw [entity_put]
  split
  · rename_i ho
    rwa [ho]
  · exact Or.inl rfl

theorem foldl_put {β : Type} (key : β → InstanceId) {f : β → Entity → Entity}
    (hf : ∀ x (e : Entity), e.state.CalmsTo (f x e).state) (xs : List β) (is : Instances) :
    Calms is (xs.foldl (fun is x => is.put (key x) (f x (is.entity (key x)))) is) :=
  List.foldlRecOn xs _ (refl is) fun _ h x _ => h.trans (put (hf x _))

end Instances.Calms

section Groups

variable {g g' : Group} {is is' : Instances}

theorem Group.FixedUp.calms {temp real : Value} {id : InstanceId}
    (h : FixedUp g is temp real id g' is') : is.Calms is' := by
  cases h with
  | unmarked => exact .put (Or.inl rfl)
  | @rekeyed p slot =>
    have hlabelled : is.Calms (is.put id { is.entity id with
        groupKey := some (partText p real) }) := .put (Or.inl rfl)
    refine hlabelled.trans (.put ?_)
    rw [Instances.entity_put, if_pos rfl]
    exact Or.inl rfl

end Groups

def Cache.Calms (c c' : Cache) : Prop := c.instances.Calms c'.instances

instance : IsPreorder Cache Cache.Calms where
  refl c := .refl c.instances
  trans _ _ _ := .trans

/-- Every entity keeps its state or has moved on as the machine allows. -/
def Cache.Obeys (c c' : Cache) : Prop :=
  ∀ id, (c.entity id).state.canBecome (c'.entity id).state

theorem Cache.Calms.obeys {c c' : Cache} (h : Calms c c') : Obeys c c' := fun id =>
  (h id).canBecome

namespace Action

variable {c c' : Cache}

def Calming {α : Type} (a : Action α) : Prop := a.Keeps (fun _ => True) Calms

theorem Calming.of_on {α : Type} {a : Action α} (h : ∀ c, Calms c (a.on c).2) : Calming a :=
  fun c _ => ⟨trivial, h c⟩

theorem change_calming (id : InstanceId) {f : Entity → Except Fault Entity}
    (hf : ∀ e e', f e = .ok e' → e.state.CalmsTo e'.state) : Calming (change id f) :=
  .of_on fun c => by
  rw [on_change]
  cases he : f (c.entity id) with
  | error fault => exact Std.Refl.refl c
  | ok e => exact Instances.Calms.put (hf _ e he)

theorem change_obeys (c : Cache) (id : InstanceId) {f : Entity → Except Fault Entity}
    (hf : ∀ e e', f e = .ok e' → e.state.canBecome e'.state) :
    Obeys c ((change id f).on c).2 := by
  rw [on_change]
  cases he : f (c.entity id) with
  | error fault => exact fun other => EntityState.canBecome_self _
  | ok e =>
    intro other
    simp only [entity, Instances.entity_put]
    split
    · rename_i ho
      rw [ho]
      exact hf _ e he
    · exact EntityState.canBecome_self _

theorem detach_calming (id : InstanceId) : Calming (detach id) := .of_on fun c => by
  rcases detach_cases id c with ⟨fault, -, h⟩ | ⟨g, g', is, keys, -, hd, h⟩
  · rw [h]
    exact Std.Refl.refl c
  · obtain ⟨-, -, -, -, -, -, rfl⟩ := Group.detach_spec hd
    rw [h]
    exact Instances.Calms.put (Or.inr (Or.inr rfl))

theorem settling_calming (id : InstanceId) : SettlingKeeps (fun _ => True) Calms id :=
  ⟨detach_calming id, change_calming id fun e _ he => by cases he; exact e.calmsTo_acceptChanges⟩

theorem rejecting_calming (id : InstanceId) : RejectingKeeps (fun _ => True) Calms id :=
  ⟨detach_calming id, change_calming id fun e _ he => by cases he; exact e.calmsTo_rejectChanges⟩

theorem acceptEntity_calming (id : InstanceId) : Calming (acceptEntity id) :=
  acceptEntity_keepsAll (settling_calming id)

theorem rejectEntity_calming (id : InstanceId) : Calming (rejectEntity id) :=
  rejectEntity_keepsAll (rejecting_calming id)

theorem settle_calming (id : InstanceId) : Calming (settle id) :=
  settle_keepsAll (settling_calming id)

theorem clear_calming : Calming clear := .of_on fun c =>
  Instances.Calms.foldl_put id (f := fun _ e => e.markDetached) (fun _ _ => Or.inr (Or.inr rfl))
    (c.entities none none) c.instances

theorem addInstance_calming {e : Entity} (he : e.state = .detached) :
    Calming (addInstance e) := .of_on fun c other => by
  simp only [on_addInstance, Instances.add, Instances.put]
  split
  · exact Or.inr (Or.inr he)
  · exact Or.inl rfl

theorem create_calming (typeName : String) : Calming (create typeName) :=
  create_keepsAll (fun c v _ => ⟨trivial, .of_entity (Instances.entity_freeze c.instances v)⟩)
    fun _ _ _ _ => addInstance_calming rfl

theorem fixupKey_calming (typeName : String) (temp real : Value) :
    Calming (fixupKey typeName temp real) := by
  refine fun c hc => fixupKey_keepsAll hc fun t id c₁ _ hr => ⟨⟨trivial, ?_⟩, ?_⟩
  · obtain ⟨g, g', is, -, hf, rfl⟩ := rekey_writes hr
    exact hf.calms
  · intro r _ d d' _ hfollow
    rcases follow_writes hfollow with rfl | ⟨g, g', is, p, -, hw, rfl⟩
    · exact ⟨trivial, Std.Refl.refl _⟩
    · exact ⟨trivial, fun other => Or.inl (hw.receives other).state⟩

theorem mergeSaved_calming (node : Json) : Calming (mergeSaved node) := .of_on fun c id =>
  Or.inl ((mergeSaved_absorbs node c).state id)

theorem applySave_calming (saved : List InstanceId) (result : SaveAnswer) :
    Calming (applySave saved result) :=
  (Keeps.forM fun m _ => (fixupKey_calming m.typeName m.temp m.real).discard).bind fun _ =>
    (Keeps.forM fun id _ => settle_calming id).bind fun _ =>
      Keeps.forM fun node _ => mergeSaved_calming node

theorem acceptChanges_calming : Calming acceptChanges :=
  .get_bind fun _ => Keeps.forM (fun id _ => (acceptEntity_calming id).discard) _

theorem rejectAll_calming (ids : List InstanceId) : Calming (rejectAll ids) :=
  Keeps.forM fun id _ => (rejectEntity_calming id).discard

theorem delete_obeys (id : InstanceId) (c : Cache) : Obeys c ((delete id).on c).2 := by
  unfold delete
  rw [on_bind_ok (on_stateOf id c)]
  split
  · have hcalm : Calming ((discard (detach id) : Action PUnit) >>= fun _ =>
        (pure .detached : Action EntityState)) := (detach_calming id).discard.bind fun _ => .pure _
    exact (hcalm c trivial).related.obeys
  · have hobeys := change_obeys c id fun _ _ => Entity.canBecome_markDeleted
    cases hrun : (change id Entity.markDeleted).on c with
    | mk r c' =>
      rw [hrun] at hobeys
      cases r with
      | error fault => rwa [on_bind_error hrun]
      | ok => rwa [on_bind_ok hrun, on_stateOf]

section Attach

theorem withdrawTempKey_state (id other : InstanceId) (temp : Value) (c : Cache) :
    (((withdrawTempKey id temp).on c).2.entity other).state = (c.entity other).state := by
  have hput : ∀ e : Entity, e.state = (c.entity id).state →
      ((c.instances.put id e).entity other).state = (c.entity other).state := by
    intro e he
    rw [Instances.entity_put]
    split
    · rename_i ho
      rw [he, ho]
    · rfl
  unfold withdrawTempKey
  rw [on_bind_ok (on_get c), on_bind_ok (show (release _ temp).on c = _ from rfl)]
  refine hput _ ?_
  cases (c.entity id).type.keyProperties.head? <;> rfl

/-- At most one state is written, the one that is asked for, and to the instance that is
named. -/
def WritesState (state : EntityState) (c : Cache) (r : Except Fault InstanceId × Cache) : Prop :=
  (∀ other, (r.2.entity other).state = (c.entity other).state) ∨
  ∃ cached, r.1 = .ok cached ∧ (r.2.entity cached).state = state ∧
    ∀ other ≠ cached, (r.2.entity other).state = (c.entity other).state

theorem join_writesState (t : EntityType) (id : InstanceId) (state : EntityState)
    (strategy : MergeStrategy) (temp : Option Value) (c : Cache) :
    WritesState state c ((join t id state strategy temp).on c) := by
  unfold join
  rcases openGroup_cases t c with ⟨fault, -, h⟩ | ⟨g, c', h, -, ho⟩
  · rw [on_bind_error h]
    exact Or.inl fun _ => rfl
  · have hsame : ∀ other, (c'.entity other).state = (c.entity other).state := fun other => by
      rw [entity, ho.instances]
      rfl
    rw [on_bind_ok h, on_bind_ok (on_get c'), ho.instances]
    cases ha : g.attach c.instances id state strategy with
    | ok r =>
      obtain ⟨cached, g', is⟩ := r
      obtain ⟨-, hattached⟩ := Group.attach_spec ha
      have hput : ∀ (x : InstanceId) (e : Entity), e.state = state →
          (((c.instances.freeze g.type.version).put x e).entity x).state = state ∧
          ∀ other ≠ x, (((c.instances.freeze g.type.version).put x e).entity other).state =
            (c.entity other).state := by
        intro x e he
        refine ⟨by simpa using he, fun other hne => ?_⟩
        simp [hne, entity]
      cases hattached with
      | again _ hm => exact Or.inr ⟨id, rfl, hput id _ (Entity.state_moveTo hm).1⟩
      | merged => exact Or.inr ⟨cached, rfl, hput cached _ rfl⟩
      | kept => exact Or.inl fun other => by simp [entity, keep]
      | placed => exact Or.inr ⟨id, rfl, hput id _ rfl⟩
    | error fault =>
      cases temp with
      | none => exact Or.inl hsame
      | some v =>
        refine Or.inl fun other => ?_
        dsimp only
        have hw := withdrawTempKey_state id other v c'
        cases hrun : (withdrawTempKey id v).on c' with
        | mk r c'' =>
          rw [hrun] at hw
          have hthen : (((withdrawTempKey id v >>= fun _ => throw fault : Action InstanceId)).on
              c').2 = c'' := by
            rw [on_bind, hrun]
            cases r <;> rfl
          rw [hthen]
          exact hw.trans (hsame other)

theorem attach_writesState (id : InstanceId) (state : EntityState)
    (strategy : Option MergeStrategy) (c : Cache) :
    WritesState state c ((attach id state strategy).on c) := by
  rw [attach_eq]
  cases c.catalog.find (c.entity id).type.name with
  | error fault => exact Or.inl fun _ => rfl
  | ok t =>
    dsimp only
    have hjoin := join_writesState (c.entity id).type id state (strategy.getD .disallowed)
    split
    · rcases assignTempKey_cases id c with ⟨fault, h⟩ | h | ⟨p, v, keys, -, h⟩
      · rw [on_bind_error h]
        exact Or.inl fun _ => rfl
      · rw [on_bind_ok h]
        exact hjoin none c
      · rw [on_bind_ok h]
        have hmarked : ∀ other, ((withTempKey c id p v keys).entity other).state =
            (c.entity other).state := by
          intro other
          rw [entity_withTempKey]
          split
          · rename_i ho
            rw [ho]
            rfl
          · rfl
        simpa only [WritesState, hmarked] using hjoin (some v) (withTempKey c id p v keys)
    · exact hjoin none c

theorem attach_unchanged_calming (id : InstanceId) (strategy : Option MergeStrategy) :
    Calming (attach id .unchanged strategy) := .of_on fun c other => by
  rcases attach_writesState id .unchanged strategy c with h | ⟨cached, -, hs, h⟩
  · exact Or.inl (h other)
  · by_cases ho : other = cached
    · subst ho
      exact Or.inr (Or.inl hs)
    · exact Or.inl (h other ho)

theorem arrive_calming (strategy : MergeStrategy) (t : EntityType) (node : Json) :
    Calming (arrive strategy t node) :=
  (addInstance_calming (Entity.state_withNodeValues _ t node)).bind fun _ =>
    attach_unchanged_calming _ _

end Attach

theorem importResults_calming (payload : Json) (q : Query) (adapter : Adapter) :
    Calming (importResults payload q adapter) := fun _ hc =>
  importResults_keeps (T := fun _ => True) (fun _ _ => trivial) hc
    (fun t node _ => arrive_calming _ t node) payload

end Action

namespace Cache

/-- Somebody is given a state that it could not become: a newcomer whose key nobody has, or
whoever has its key and takes over its values. -/
def Forces (c : Cache) (id : InstanceId) (state : EntityState) (strategy : MergeStrategy) : Prop :=
  ∃ key, Presents c id state key ∧
    (c.slot? (c.entity id).type.name key = none ∧ (c.entity id).state.canBecome state = false ∨
      ∃ slot other, c.slot? (c.entity id).type.name key = some slot ∧
        c.Holds (c.entity id).type.name slot other ∧ other ≠ id ∧ state ≠ .added ∧
        strategy.overwrites (c.entity other).state ∧
        (c.entity other).state.canBecome state = false)

def Oversteps (c : Cache) : Op → Prop
  | .attach id state strategy => c.Forces id state (strategy.getD .disallowed)
  | .add id => c.Forces id .added .disallowed
  | _ => False

section Attach

variable {id : InstanceId} {state : EntityState}

/-- An instance whose key leads to itself asks the machine. -/
theorem not_forces_of_held {key : String} {slot : Nat} {strategy : MergeStrategy}
    (h : Presents c id state key) (hkey : c.slot? (c.entity id).type.name key = some slot)
    (hs : c.Holds (c.entity id).type.name slot id) : ¬ c.Forces id state strategy := by
  rintro ⟨key', hp, hcase⟩
  obtain rfl := h.key.unique hp.key
  rcases hcase with ⟨hnone, -⟩ | ⟨slot', other, hkey', hs', hne, -⟩
  · cases hkey.symm.trans hnone
  · obtain rfl := Option.some.inj (hkey.symm.trans hkey')
    obtain ⟨g, hg, hs⟩ := hs
    obtain ⟨g', hg', hs'⟩ := hs'
    obtain rfl := Option.some.inj (hg.symm.trans hg')
    exact hne (hs'.unique hs)

theorem Forces.disobeys {strategy : Option MergeStrategy}
    (h : c.Forces id state (strategy.getD .disallowed)) :
    ¬ Obeys c ((Action.attach id state strategy).on c).2 := by
  obtain ⟨key, hpresents, hcase⟩ := h
  obtain ⟨temp, c₁, c₂, g, hasked⟩ := hpresents.asked
  have hnot : ∀ {x : InstanceId}, (((Action.attach id state strategy).on c).2.entity x).state =
      state → (c.entity x).state.canBecome state = false →
        ¬ Obeys c ((Action.attach id state strategy).on c).2 := by
    intro x hstate hcan hobeys
    have hx := hobeys x
    rw [hstate, hcan] at hx
    exact Bool.false_ne_true hx
  rcases hcase with ⟨hnone, hcan⟩ | ⟨slot, other, hkey, hs, hne, hadded, hover, hcan⟩
  · have hfree : g.index.get? (c₁.instances.entity id).keyText = none := by
      rw [hasked.keyText, hasked.index, hnone]
    refine hnot (x := id) ?_ hcan
    rw [hasked.on_ok (hasked.admits.attach_free hfree)]
    simp [entity]
  · have hindex : g.index.get? (c₁.instances.entity id).keyText = some slot := by
      rw [hasked.keyText, hasked.index, hkey]
    have hst : strategy.getD .disallowed ≠ .disallowed := fun heq => by
      rw [heq] at hover
      cases hover
    have honto := hasked.admits.attach_onto hindex (hasked.holds_iff.mpr hs) hne hadded hst
    rw [show c₁.instances.entity other = c.entity other from hasked.prepared.others hne,
      if_pos hover] at honto
    refine hnot (x := other) ?_ hcan
    rw [hasked.on_ok honto]
    simp [entity]

theorem attach_obeys_iff (c : Cache) (id : InstanceId) (state : EntityState)
    (strategy : Option MergeStrategy) :
    Obeys c ((Action.attach id state strategy).on c).2 ↔
      ¬ c.Forces id state (strategy.getD .disallowed) := by
  refine ⟨fun hobeys hforces => hforces.disobeys hobeys, fun hnot other => ?_⟩
  have hwrites := attach_writesState id state strategy c
  cases hrun : (Action.attach id state strategy).on c with
  | mk r c' =>
    rw [hrun] at hwrites
    rcases hwrites with h | ⟨cached, rfl, hstate, h⟩
    · rw [h other]
      exact EntityState.canBecome_self _
    · by_cases ho : other = cached
      · subst ho
        obtain ⟨key, temp, c₁, c₂, g, g', is, hpresents, hasked, ha, rfl⟩ := attach_ok hrun
        have hbefore : (c₁.instances.entity other).state = (c.entity other).state :=
          (hasked.prepared.edits other).2.1
        rw [hstate]
        cases ha with
        | again _ hm =>
          rw [← hbefore]
          exact (Entity.state_moveTo hm).2
        | merged hs hne hadded hi hover =>
          by_contra hcan
          rw [Instances.state, hbefore] at hover
          rw [hasked.keyText, hasked.index] at hi
          exact hnot ⟨key, hpresents, Or.inr ⟨_, other, hi, hasked.holds_iff.mp hs, hne, hadded,
            hover, Bool.eq_false_iff.mpr hcan⟩⟩
        | kept =>
          have hsame : (c.entity other).state = state := by
            rw [← hbefore, ← hstate]
            simp [entity]
          rw [hsame]
          exact EntityState.canBecome_self _
        | placed hi =>
          by_contra hcan
          rw [hasked.keyText, hasked.index] at hi
          exact hnot ⟨key, hpresents, Or.inl ⟨hi, Bool.eq_false_iff.mpr hcan⟩⟩
      · rw [h other ho]
        exact EntityState.canBecome_self _

end Attach

theorem next_obeys_iff (c : Cache) (op : Op) : Obeys c (c.next op) ↔ ¬ c.Oversteps op := by
  have hcalm : ∀ {α : Type} {a : Action α}, Calming a →
      Obeys c ((discard a : Action PUnit).on c).2 := by
    intro α a ha
    exact (Keeps.discard ha c trivial).related.obeys
  cases op with
  | attach id state strategy =>
    rw [next, Op.action, on_discard]
    exact attach_obeys_iff c id state strategy
  | add id =>
    rw [next, Op.action, on_discard]
    exact attach_obeys_iff c id .added none
  | create typeName => exact iff_of_true (hcalm (create_calming typeName)) id
  | delete x =>
    refine iff_of_true ?_ id
    rw [next, Op.action, on_discard]
    exact delete_obeys x c
  | detach x => exact iff_of_true (hcalm (detach_calming x)) id
  | acceptEntity x => exact iff_of_true (hcalm (acceptEntity_calming x)) id
  | rejectEntity x => exact iff_of_true (hcalm (rejectEntity_calming x)) id
  | acceptChanges => exact iff_of_true (acceptChanges_calming c trivial).related.obeys id
  | rejectChanges =>
    refine iff_of_true ?_ id
    rw [next, Op.action, on_discard, on_rejectChanges]
    exact (rejectAll_calming c.changes c trivial).related.obeys
  | fixupKey typeName temp real =>
    exact iff_of_true (hcalm (fixupKey_calming typeName temp real)) id
  | importResults payload q adapter =>
    exact iff_of_true (hcalm (importResults_calming payload q adapter)) id
  | applySave saved result =>
    exact iff_of_true (applySave_calming saved result c trivial).related.obeys id
  | clear => exact iff_of_true (clear_calming c trivial).related.obeys id
  | set x name v => exact iff_of_true (change_obeys c x fun _ _ => Entity.canBecome_set) id
  | markUnchanged x =>
    exact iff_of_true
      (change_obeys c x fun _ _ he => (Entity.calmsTo_markUnchanged he).canBecome) id
  | markModified x =>
    refine iff_of_true (change_obeys c x fun _ _ he => ?_) id
    obtain ⟨hs, hb⟩ := Entity.state_moveTo he
    rwa [hs]

theorem executeQuery_obeys (c : Cache) (q : Query) (transport : Transport) :
    Obeys c (c.executeQuery q transport).2 := by
  have hsame : Obeys c c := fun id => EntityState.canBecome_self _
  unfold executeQuery
  split
  · exact hsame
  · split
    · exact hsame
    · rename_i payload _
      exact (importResults_calming payload q c.service.format c trivial).related.obeys

theorem saveChanges_obeys (c : Cache) (transport : Transport) :
    Obeys c (c.saveChanges transport).2 := by
  have hsame : Obeys c c := fun id => EntityState.canBecome_self _
  unfold saveChanges
  dsimp only
  split
  · exact hsame
  · split
    · exact hsame
    · split
      · exact hsame
      · rename_i result _
        exact (applySave_calming c.changes result c trivial).related.obeys

/-- A whole run obeys the machine step by step unless one of its attachments does not. -/
theorem run_obeys_iff (c : Cache) (ops : List Op) :
    (∀ n < ops.length, Obeys (c.run (ops.take n)) (c.run (ops.take (n + 1)))) ↔
      ∀ n op, ops[n]? = some op → ¬ (c.run (ops.take n)).Oversteps op := by
  have hstep : ∀ n op, ops[n]? = some op →
      c.run (ops.take (n + 1)) = (c.run (ops.take n)).next op := by
    intro n op hop
    rw [List.take_add_one, hop, run, List.foldl_append]
    rfl
  constructor
  · intro h n op hop
    have hlt : n < ops.length := (List.getElem?_eq_some_iff.mp hop).1
    rw [← next_obeys_iff, ← hstep n op hop]
    exact h n hlt
  · intro h n hlt
    have hop : ops[n]? = some ops[n] := List.getElem?_eq_getElem hlt
    rw [hstep n _ hop, next_obeys_iff]
    exact h n _ hop

/-- All that can be done to a cache obeys the machine, operation by operation, except to attach
an instance so that a newcomer, or the one that it is merged into, gets a state that it could not
become. An instance that is attached again obeys. -/
theorem operations_obey_machine (c : Cache) :
    (∀ op, Obeys c (c.next op) ↔ ¬ c.Oversteps op) ∧
      (∀ id state strategy key slot, Presents c id state key →
        c.slot? (c.entity id).type.name key = some slot →
        c.Holds (c.entity id).type.name slot id →
        Obeys c (c.next (.attach id state strategy))) ∧
      (∀ ops : List Op,
        (∀ n < ops.length, Obeys (c.run (ops.take n)) (c.run (ops.take (n + 1)))) ↔
          ∀ n op, ops[n]? = some op → ¬ (c.run (ops.take n)).Oversteps op) ∧
      (∀ q transport, Obeys c (c.executeQuery q transport).2) ∧
      ∀ transport, Obeys c (c.saveChanges transport).2 :=
  ⟨next_obeys_iff c, fun _ _ _ _ _ hp hkey hs =>
    (next_obeys_iff c _).mpr (not_forces_of_held hp hkey hs), run_obeys_iff c,
    executeQuery_obeys c, saveChanges_obeys c⟩

def twoCustomers : Cache :=
  salesCache.run [.create "Customer", .set 0 "id" (.integer 1), .create "Customer",
    .set 1 "id" (.integer 2), .attach 1 .unchanged none, .delete 1, .create "Customer",
    .set 2 "id" (.integer 2)]

theorem sound_twoCustomers : twoCustomers.SoundIn sales :=
  PlainRun.sound (by decide +kernel) sound_salesCache

/-- The first is attached as Modified, and so is the third, whose values the deleted one then
takes over: Detached has become Modified, and so has Deleted. -/
theorem attached_as_modified_oversteps :
    let placed := twoCustomers.next (.attach 0 .modified none)
    let merged := twoCustomers.next (.attach 2 .modified (some .overwriteChanges))
    twoCustomers.Formed ∧ twoCustomers.Indexed ∧
      ((twoCustomers.entity 0).state = .detached ∧ (placed.entity 0).state = .modified ∧
        ¬ Obeys twoCustomers placed) ∧
      ((twoCustomers.entity 1).state = .deleted ∧ (merged.entity 1).state = .modified ∧
        ¬ Obeys twoCustomers merged) := by
  have hnot : ∀ {c' : Cache} (id : InstanceId),
      (twoCustomers.entity id).state.canBecome (c'.entity id).state = false →
        ¬ Obeys twoCustomers c' := fun id hcan hobeys =>
    Bool.false_ne_true (hcan.symm.trans (hobeys id))
  have hplaced : (twoCustomers.entity 0).state = .detached ∧
      ((twoCustomers.next (.attach 0 .modified none)).entity 0).state = .modified := by
    decide +kernel
  have hmerged : (twoCustomers.entity 1).state = .deleted ∧
      ((twoCustomers.next (.attach 2 .modified (some .overwriteChanges))).entity 1).state =
        .modified := by decide +kernel
  refine ⟨sound_twoCustomers.sound.formed, sound_twoCustomers.sound.indexed,
    ⟨hplaced.1, hplaced.2, hnot 0 ?_⟩, ⟨hmerged.1, hmerged.2, hnot 1 ?_⟩⟩
  · rw [hplaced.1, hplaced.2]
    rfl
  · rw [hmerged.1, hmerged.2]
    rfl

end Cache

end EntityCache
