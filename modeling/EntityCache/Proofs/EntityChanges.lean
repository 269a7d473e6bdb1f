import EntityCache.Proofs.Attaching
import EntityCache.Proofs.KeyWrites
import EntityCache.Proofs.Reimport

/-! What becomes of the entities of a cache, as a relation between each of them and what it is
afterwards. But for assignments and changes of state, an operation leaves an entity its state
and its original values, or drops the original values. -/
namespace EntityCache

open Cache EntityCache.Action

theorem Entity.moveTo_originals {e e' : Entity} {next : EntityState}
    (h : e.moveTo next = .ok e') : e'.state = next ∧ e'.originals = e.originals := by
  unfold moveTo at h
  split at h <;> cases h
  exact ⟨rfl, rfl⟩

/-- A relation that says nothing of entities that keep their state and original values, nor
of those that lose the original values. -/
class Entity.Lenient (R : Entity → Entity → Prop) : Prop where
  refl : ∀ e, R e e
  trans : ∀ {a b d}, R a b → R b d → R a d
  same : ∀ {e e'}, e'.state = e.state → e'.originals = e.originals → R e e'
  dropped : ∀ {e e'}, e'.originals = [] → R e e'

def Cache.Carries (R : Entity → Entity → Prop) (c c' : Cache) : Prop :=
  ∀ id, R (c.entity id) (c'.entity id)

variable {R : Entity → Entity → Prop} [Entity.Lenient R]

open Entity (Lenient)

namespace Cache.Carries

instance : IsPreorder Cache (Carries R) where
  refl _ _ := Lenient.refl _
  trans _ _ _ h k id := Lenient.trans (h id) (k id)

variable {c c' : Cache}

theorem of_entity (h : c'.instances.entity = c.instances.entity) : Carries R c c' := fun id => by
  rw [entity, entity, h]
  exact Lenient.refl _

theorem of_put {id : InstanceId} {e : Entity} (hc' : c'.instances = c.instances.put id e)
    (h : R (c.entity id) e) : Carries R c c' := fun other => by
  rw [entity, entity, hc', Instances.entity_put]
  split
  · rename_i ho
    rwa [ho]
  · exact Lenient.refl _

end Cache.Carries

namespace Action

variable {c : Cache} {id : InstanceId}

theorem change_carries_at {f : Entity → Except Fault Entity}
    (hf : ∀ e, f (c.entity id) = .ok e → R (c.entity id) e) :
    (change id f).KeepsAt (fun _ => True) (Carries R) c := by
  refine ⟨trivial, ?_⟩
  rw [on_change]
  cases he : f (c.entity id) with
  | error fault => exact Std.Refl.refl c
  | ok e => exact .of_put rfl (hf _ he)

theorem change_carries {f : Entity → Except Fault Entity} (hf : ∀ e e', f e = .ok e' → R e e') :
    (change id f).Keeps (fun _ => True) (Carries R) := fun _ _ => change_carries_at (hf _)

theorem detach_carries (id : InstanceId) : (detach id).Keeps (fun _ => True) (Carries R) := by
  refine fun c _ => ⟨trivial, ?_⟩
  rcases detach_cases id c with ⟨fault, -, h⟩ | ⟨g, g', is, keys, -, hd, h⟩
  · rw [h]
    exact Std.Refl.refl c
  · obtain ⟨-, -, -, -, -, -, rfl⟩ := Group.detach_spec hd
    rw [h]
    exact .of_put rfl (Lenient.dropped rfl)

theorem addInstance_carries {e : Entity} (he : e.originals = []) :
    (addInstance e).Keeps (fun _ => True) (Carries R) := by
  refine fun c _ => ⟨trivial, fun other => ?_⟩
  simp only [on_addInstance, Instances.add, Instances.put, Cache.entity]
  split
  · exact Lenient.dropped he
  · exact Lenient.refl _

theorem create_carries (typeName : String) :
    (create typeName).Keeps (fun _ => True) (Carries R) :=
  create_keepsAll (fun c v _ => ⟨trivial, .of_entity (Instances.entity_freeze c.instances v)⟩)
    fun _ _ _ _ => addInstance_carries rfl

theorem clear_carries : clear.Keeps (fun _ => True) (Carries R) := fun c _ =>
  ⟨trivial, fun id => Instances.foldl_put_related (r := R) Lenient.refl Lenient.trans
    (fun id => id) (f := fun _ e => e.markDetached) (fun _ _ => Lenient.dropped rfl)
    (c.entities none none) c.instances id⟩

section Attach

variable {state : EntityState} {strategy : MergeStrategy} {out : Except Fault InstanceId × Cache}

/-- Only the instance itself can keep original values when it joins. -/
theorem Ended.carries (h : Ended c id state strategy out)
    (hjoin : out.1.toOption = some id → state ≠ .detached → ∀ e, e.state = state →
      e.originals = (c.entity id).originals → R (c.entity id) e) : Carries R c out.2 := by
  have hprepared : ∀ {temp c₁}, Prepared c id state temp c₁ → Carries R c c₁ := fun hp other =>
    Lenient.same (hp.edits other).2.1 (hp.edits other).2.2
  cases h with
  | refused ho => exact .of_entity (congrArg Instances.entity ho.instances)
  | stranded hp => exact hprepared hp
  | @withdrawn _ _ _ _ c₁ _ hp =>
    refine IsTrans.trans _ c₁ _ (hprepared hp) (.of_put rfl ?_)
    exact Lenient.same rfl rfl
  | @joined _ c₁ c₂ g _ _ cached hp ho _ _ hs _ ha =>
    refine IsTrans.trans _ c₁ _ (hprepared hp) fun other => ?_
    have hkept : R (c₁.entity other) ((c₁.instances.freeze g.type.version).entity other) := by
      rw [Instances.entity_freeze]
      exact Lenient.refl _
    have hput : ∀ {x : InstanceId} {e : Entity}, R (c₁.entity x) e →
        R (c₁.entity other)
          (((c₁.instances.freeze g.type.version).put x e).entity other) := by
      intro x e he
      rw [Instances.entity_put]
      split
      · rename_i heq
        rwa [heq]
      · exact hkept
    have hself : cached = id → ∀ e : Entity, e.state = state →
        e.originals = (c₁.entity id).originals → R (c₁.entity id) e := by
      intro hout e hstate horiginals
      obtain ⟨-, hbefore, hsame⟩ := hp.edits id
      exact Lenient.trans (Lenient.same hbefore.symm hsame.symm)
        (hjoin (congrArg some hout) hs e hstate (horiginals.trans hsame))
    cases ha with
    | again _ hm =>
      obtain ⟨hstate, horiginals⟩ := Entity.moveTo_originals hm
      exact hput (hself rfl _ hstate horiginals)
    | merged => exact hput (Lenient.dropped rfl)
    | kept => exact hkept
    | placed => exact hput (hself rfl _ rfl rfl)

theorem attach_carries {strategy : Option MergeStrategy}
    (hjoin : ((attach id state strategy).on c).1.toOption = some id → state ≠ .detached →
      ∀ e, e.state = state → e.originals = (c.entity id).originals → R (c.entity id) e) :
    (attach id state strategy).KeepsAt (fun _ => True) (Carries R) c :=
  ⟨trivial, (attach_ended c id state strategy).carries hjoin⟩

theorem arrive_carries (strategy : MergeStrategy) (t : EntityType) (node : Json) :
    (arrive strategy t node).Keeps (fun _ => True) (Carries R) := by
  have hnew := Entity.originals_ofNode t node
  refine fun c hc => arrive_keepsAt (addInstance_carries hnew c hc) fun _ _ => ?_
  refine attach_carries fun _ _ e _ he => Lenient.dropped (he.trans ?_)
  simpa [entity, Instances.add] using hnew

end Attach

theorem fixupKey_carries (typeName : String) (temp real : Value) :
    (fixupKey typeName temp real).Keeps (fun _ => True) (Carries R) := by
  refine fun c hc => fixupKey_keepsAll hc fun t id c₁ _ hr => ⟨⟨trivial, ?_⟩, ?_⟩
  · obtain ⟨g, g', is, -, hf, rfl⟩ := rekey_writes hr
    cases hf with
    | unmarked => exact .of_put rfl (Lenient.same rfl rfl)
    | @rekeyed p =>
      have hlabelled : Carries R c { c with
          instances := c.instances.put id { c.instances.entity id with
            groupKey := some (Group.partText p real) } } :=
        .of_put rfl (Lenient.same rfl rfl)
      refine IsTrans.trans _ _ _ hlabelled (.of_put rfl (Lenient.same ?_ ?_)) <;>
        simp [Group.settledKey, Entity.write, entity]
  · intro r _ d d' _ hfollow
    rcases follow_writes hfollow with rfl | ⟨g, g', is, p, -, hw, rfl⟩
    · exact ⟨trivial, Std.Refl.refl _⟩
    · exact ⟨trivial, fun other =>
        Lenient.same (hw.receives other).state (hw.receives other).originals⟩

theorem mergeSaved_carries (node : Json) :
    (mergeSaved node).Keeps (fun _ => True) (Carries R) := by
  refine fun c _ => ⟨trivial, ?_⟩
  unfold mergeSaved
  rw [on_bind_ok (on_get c)]
  dsimp only
  cases c.declaredType? c.service.format node with
  | none => exact Std.Refl.refl c
  | some t =>
    dsimp only
    cases c.find? t.name (t.keyProperties.map fun p =>
        ((node.field? p.wireName).map Value.ofJson).getD .null) with
    | error fault => exact Std.Refl.refl c
    | ok found =>
      cases found with
      | none => exact Std.Refl.refl c
      | some id => exact .of_put rfl (Lenient.dropped rfl)

end Action

structure Entity.AllowsMoves (R : Entity → Entity → Prop) : Prop where
  unchanged : ∀ e e' : Entity, e.markUnchanged = .ok e' → R e e'
  modified : ∀ e e' : Entity, e.markModified = .ok e' → R e e'
  deleted : ∀ e e' : Entity, e.markDeleted = .ok e' → R e e'

/-- An operation carries what its moves, its assignment and its joining instance carry. -/
theorem Cache.next_carries {c : Cache} {op : Op} (hmoves : Entity.AllowsMoves R)
    (hset : ∀ id name v, op = .set id name v → ∀ e, (c.entity id).set name v = .ok e →
      R (c.entity id) e)
    (hjoin : ∀ id state strategy, op = .attach id state strategy ∨
        op = .add id ∧ state = .added ∧ strategy = none →
      ((Action.attach id state strategy).on c).1.toOption = some id → state ≠ .detached →
      ∀ e, e.state = state → e.originals = (c.entity id).originals → R (c.entity id) e) :
    Carries R c (c.next op) := by
  have hsettling : ∀ id, SettlingKeeps (fun _ => True) (Carries R) id := fun id =>
    ⟨detach_carries id, change_carries fun e e' he => by
      cases he
      exact Lenient.dropped rfl⟩
  have hrejecting : ∀ id, RejectingKeeps (fun _ => True) (Carries R) id := fun id =>
    ⟨detach_carries id, change_carries fun e e' he => by
      cases he
      exact Lenient.dropped rfl⟩
  suffices h : op.PartsKeep (fun _ => True) (Carries R) c from (Op.keeps_of_parts h trivial).related
  cases op with
  | create typeName => exact create_carries typeName c trivial
  | attach id state strategy => exact attach_carries (hjoin id state strategy (Or.inl rfl))
  | add id => exact attach_carries (hjoin id .added none (Or.inr ⟨rfl, rfl, rfl⟩))
  | delete id => exact ⟨detach_carries id, change_carries hmoves.deleted⟩
  | detach id => exact detach_carries id
  | acceptEntity id => exact hsettling id
  | rejectEntity id => exact hrejecting id
  | acceptChanges => exact fun id _ => hsettling id
  | rejectChanges => exact fun id _ => hrejecting id
  | fixupKey typeName temp real => exact fixupKey_carries typeName temp real c trivial
  | importResults payload q adapter =>
    exact importResults_keeps (T := fun _ => True) (fun _ _ => trivial) trivial
      (fun t node _ => arrive_carries _ t node) payload
  | applySave saved result =>
    exact ⟨fun m _ => fixupKey_carries m.typeName m.temp m.real, fun id _ => hsettling id,
      fun node _ => mergeSaved_carries node⟩
  | clear => exact clear_carries c trivial
  | set id name v => exact change_carries_at (hset id name v rfl)
  | markUnchanged id => exact change_carries hmoves.unchanged c trivial
  | markModified id => exact change_carries hmoves.modified c trivial

end EntityCache
