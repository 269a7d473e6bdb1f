import EntityCache.Proofs.Rewriting

/-! Imports, to any depth of nesting. A node arrives as a new entity, which is attached or
merged into what is cached; whatever all arrivals keep, the whole import keeps, also where
it breaks off with a fault. -/
namespace EntityCache

open Cache

theorem Entity.withNodeValues_spec {e : Entity} (he : e.Complete) (t : EntityType) (node : Json) :
    (e.withNodeValues t node).type = e.type ∧ (e.withNodeValues t node).Complete := by
  unfold withNodeValues
  induction t.dataProperties generalizing e with
  | nil => exact ⟨rfl, he⟩
  | cons p ps ih =>
    rw [List.foldl_cons]
    split
    · exact ih (he.write _ _)
    · exact ih he

/-- A node has nothing to say of an entity but its values. -/
theorem Entity.withNodeValues_eq (e : Entity) (t : EntityType) (node : Json) :
    ∃ values, e.withNodeValues t node = { e with values } := by
  unfold withNodeValues
  induction t.dataProperties generalizing e with
  | nil => exact ⟨e.values, rfl⟩
  | cons p ps ih =>
    rw [List.foldl_cons]
    split
    · exact ih (e.write p.name _)
    · exact ih e

theorem Entity.ofNode_spec (t : EntityType) (node : Json) :
    (Entity.ofNode t node).type = t ∧ (Entity.ofNode t node).Complete :=
  withNodeValues_spec (complete_new t) t node

theorem Query.target_found {q : Query} {catalog : Catalog} {target : Target}
    (h : q.target catalog = .ok target) {t : EntityType} (ht : target.entityType? = some t) :
    ∃ name, catalog.type? name = some t := by
  unfold Query.target at h
  split at h
  · rename_i name _
    obtain ⟨u, hf, rfl⟩ := map_ok h
    cases ht
    exact ⟨_, Catalog.find_ok hf⟩
  · split at h <;> cases h <;> cases ht
    rename_i hr
    obtain ⟨resource, -, hr⟩ := Option.bind_eq_some_iff.mp hr
    obtain ⟨name, -, hr⟩ := Option.bind_eq_some_iff.mp hr
    exact ⟨name, hr⟩

theorem Query.target_registered {q : Query} {catalog : Catalog} {target : Target}
    (h : q.target catalog = .ok target) {t : EntityType} (ht : target.entityType? = some t) :
    catalog.type? t.name = some t := by
  obtain ⟨name, hfound⟩ := Query.target_found h ht
  exact Catalog.type?_self hfound

namespace Action

def arrive (strategy : MergeStrategy) (t : EntityType) (node : Json) : Action InstanceId := do
  let id ← addInstance (Entity.ofNode t node)
  attach id .unchanged (some strategy)

def materializeRelated (adapter : Adapter) (strategy : MergeStrategy) (fuel : Nat) (node : Json)
    (p : NavigationProperty) : Action PUnit := do
  match (node.field? p.wireName).bind relatedNodes? with
  | none => pure ()
  | some related =>
    let target ← (← get).catalog.find p.target
    related.forM fun n => do
      let u := ((← get).declaredType? adapter n).getD target
      discard (materialize adapter strategy fuel u n)

theorem materialize_succ (adapter : Adapter) (strategy : MergeStrategy) (fuel : Nat)
    (t : EntityType) (node : Json) : materialize adapter strategy (fuel + 1) t node =
      if !node.isObject then throw (.document (.notAnObject t.name node.text))
      else arrive strategy t node >>= fun cached =>
        t.navigationProperties.forM (materializeRelated adapter strategy fuel node) >>=
          fun _ => pure cached := by
  rw [arrive, bind_assoc]
  rfl

def effectiveStrategy (c : Cache) (q : Query) : MergeStrategy :=
  q.mergeStrategy.getD c.settings.mergeStrategy

def PassesOn (P : Cache → Prop) (N : EntityType → Json → Prop) (adapter : Adapter) : Prop :=
  ∀ {c c' t node p related target n}, P c → P c' → N t node → p ∈ t.navigationProperties →
    (node.field? p.wireName).bind relatedNodes? = some related →
    c.catalog.find p.target = .ok target → n ∈ related →
    N ((c'.declaredType? adapter n).getD target) n

section Arrivals

variable {P : Cache → Prop} {R : Cache → Cache → Prop} [IsPreorder Cache R]
  {adapter : Adapter} {strategy : MergeStrategy}

section Nodes

/- `N` is what is known of a node that arrives as an entity of a type. -/
variable {N : EntityType → Json → Prop} (hN : PassesOn P N adapter)

include hN

theorem materialize_keepsAll (harrive : ∀ t node, N t node → (arrive strategy t node).Keeps P R)
    (fuel : Nat) {t : EntityType} {node : Json} (hn : N t node) :
    (materialize adapter strategy fuel t node).Keeps P R := by
  induction fuel generalizing t node with
  | zero => exact .throw _
  | succ fuel ih =>
    have hrelated : ∀ p ∈ t.navigationProperties,
        (materializeRelated adapter strategy fuel node p).Keeps P R := by
      intro p hp
      unfold materializeRelated
      split
      · exact .pure _
      · rename_i related hrelated
        refine .get_bind fun c hc => .lift_bind hc fun target htarget => ?_
        refine Keeps.forM (fun n hin => .get_bind fun c' hc' => ?_) c hc
        exact Keeps.discard (ih (hN hc hc' hn hp hrelated htarget hin)) c' hc'
    rw [materialize_succ]
    split
    · exact .throw _
    · exact (harrive t node hn).bind fun cached =>
        (Keeps.forM hrelated).bind fun _ => .pure cached

theorem importNodes_keepsAll (harrive : ∀ t node, N t node → (arrive strategy t node).Keeps P R)
    (isProjection : Bool) {standard : Option EntityType} {nodes : List Json}
    (hnodes : ∀ c node t, P c → node ∈ nodes → isProjection = false →
      (c.declaredType? adapter node).or standard = some t → N t node) (result : Imported) :
    (importNodes adapter strategy isProjection standard nodes result).Keeps P R := by
  induction nodes generalizing result with
  | nil => exact .pure _
  | cons node rest ih =>
    have hrest := ih fun c n t hc hn => hnodes c n t hc (List.mem_cons_of_mem node hn)
    refine .get_bind fun c hc => ?_
    dsimp only
    split
    · rename_i t ht
      cases isProjection with
      | true => cases ht
      | false =>
        have hn := hnodes c node t hc List.mem_cons_self rfl ht
        exact (materialize_keepsAll hN harrive node.height hn).bind (fun _ => hrest _) c hc
    · exact hrest _ c hc

theorem importResults_keepsAll {c : Cache} (hc : P c) {q : Query}
    (harrive : ∀ t node, N t node → (arrive (effectiveStrategy c q) t node).Keeps P R)
    {payload : Json} (hnodes : ∀ c' extracted target node t, P c' →
      adapter.extract payload = .ok extracted → q.target c.catalog = .ok target →
      q.selected.isEmpty → node ∈ extracted.nodes →
      (c'.declaredType? adapter node).or target.entityType? = some t → N t node) :
    (importResults payload q adapter).KeepsAt P R c := by
  refine .lift_bind hc fun extracted hextracted => .bind_of_ok (on_get c) ?_
  refine .lift_bind hc fun target htarget => .bind_of_ok (on_get c) ?_
  refine importNodes_keepsAll hN harrive _ (fun c' node t hc' hn hselected ht => ?_) _ c hc
  exact hnodes c' extracted target node t hc' hextracted htarget (by simpa using hselected) hn ht

end Nodes

/- `T` is what is known of the types that a catalog finds. -/
variable {T : EntityType → Prop} (hT : ∀ {c name t}, P c → c.catalog.type? name = some t → T t)

include hT

theorem declaredType?_found {c : Cache} (hc : P c) {node : Json} {t : EntityType}
    (h : c.declaredType? adapter node = some t) : T t := by
  obtain ⟨name, -, ht⟩ := Option.bind_eq_some_iff.mp h
  exact hT hc ht

theorem importResults_keeps {c : Cache} (hc : P c) {q : Query}
    (harrive : ∀ t node, T t → (arrive (effectiveStrategy c q) t node).Keeps P R)
    (payload : Json) : (importResults payload q adapter).KeepsAt P R c := by
  refine importResults_keepsAll (N := fun t _ => T t) ?_ hc harrive ?_
  · intro c c' t node p related target n hc hc' _ _ _ htarget _
    cases hd : c'.declaredType? adapter n with
    | none => exact hT hc (Catalog.find_ok htarget)
    | some u => exact declaredType?_found hT hc' hd
  · intro c' extracted target node t hc' _ htarget _ _ ht
    rcases Option.or_eq_some_iff.mp ht with hd | ⟨-, hd⟩
    · exact declaredType?_found hT hc' hd
    · obtain ⟨name, hn⟩ := Query.target_found htarget hd
      exact hT hc hn

end Arrivals

variable {catalog : Catalog} {strategy : MergeStrategy}

/-- A node is attached in the cache that its entity has been added to. -/
theorem arrive_keepsAt {P : Cache → Prop} {R : Cache → Cache → Prop} [IsPreorder Cache R]
    {c : Cache} {t : EntityType} {node : Json}
    (hadd : (addInstance (Entity.ofNode t node)).KeepsAt P R c)
    (hattach : let d := { c with instances := (c.instances.add (Entity.ofNode t node)).2 }
      P d → c.instances.count < d.instances.count →
      (attach c.instances.count .unchanged (some strategy)).KeepsAt P R d) :
    (arrive strategy t node).KeepsAt P R c := by
  refine hadd.bind_at fun id d h hd => ?_
  rw [on_addInstance] at h
  cases h
  exact hattach hd (Nat.lt_succ_self _)

theorem arrive_keeps {t : EntityType} (ht : catalog.type? t.name = some t) (node : Json) :
    (arrive strategy t node).Keeps (SoundIn catalog) Grows := by
  obtain ⟨htype, hcomplete⟩ := Entity.ofNode_spec t node
  exact fun c hc => arrive_keepsAt (addInstance_keeps (by rwa [htype]) hcomplete c hc)
    fun hd hid => attach_keeps hd hid _ fun hs => by cases hs

end Action

end EntityCache
