import EntityCache.Proofs.Reimport

/-! An import as the list of its steps: the nodes in the order in which they arrive, each
with the type that it is read as, down to where the walk through the payload breaks off.
The list depends on the catalog and the payload alone. What an import does to the cache is
what its steps do, one after the other. -/
namespace EntityCache

open Cache EntityCache.Action

/-- A node arrives as an entity of a type, or the walk breaks off. -/
inductive ImportStep where
  | arrival (t : EntityType) (node : Json)
  | failure (fault : Fault)

namespace ImportStep

def perform (strategy : MergeStrategy) : ImportStep → Action PUnit
  | arrival t node => discard (arrive strategy t node)
  | failure fault => throw fault

end ImportStep

def Catalog.declared? (catalog : Catalog) (adapter : Adapter) (node : Json) : Option EntityType :=
  (adapter.nodeType? node).bind catalog.find?

def expanded? (node : Json) (p : NavigationProperty) : Option (List Json) :=
  (node.field? p.wireName).bind relatedNodes?

/-- The steps for a node and for what is nested in it. `fuel` bounds the nesting; the height
of the node is enough. -/
def nodeSteps (catalog : Catalog) (adapter : Adapter) : Nat → EntityType → Json → List ImportStep
  | 0, t, node => [.failure (.document (.notAnObject t.name node.text))]
  | fuel + 1, t, node =>
    if !node.isObject then [.failure (.document (.notAnObject t.name node.text))]
    else .arrival t node :: t.navigationProperties.flatMap fun p =>
      match expanded? node p with
      | none => []
      | some related =>
        match catalog.find p.target with
        | .error fault => [.failure fault]
        | .ok target => related.flatMap fun n =>
          nodeSteps catalog adapter fuel ((catalog.declared? adapter n).getD target) n

section Roots

variable (catalog : Catalog) (adapter : Adapter) (isProjection : Bool)

/-- The type that a node at the top of a payload is read as; a node without one stays a
document. -/
def rootType? (standard : Option EntityType) (node : Json) : Option EntityType :=
  if isProjection then none else (catalog.declared? adapter node).or standard

def rootsOf (standard : Option EntityType) (nodes : List Json) : List (EntityType × Json) :=
  nodes.filterMap fun node =>
    (rootType? catalog adapter isProjection standard node).map (·, node)

def stepsFrom (roots : List (EntityType × Json)) : List ImportStep :=
  roots.flatMap fun root => nodeSteps catalog adapter root.2.height root.1 root.2

end Roots

def importRoots (catalog : Catalog) (payload : Json) (q : Query) (adapter : Adapter) :
    Except Fault (List (EntityType × Json)) := do
  let extracted ← adapter.extract payload
  let target ← q.target catalog
  return rootsOf catalog adapter (!q.selected.isEmpty) target.entityType? extracted.nodes

def importSteps (catalog : Catalog) (payload : Json) (q : Query) (adapter : Adapter) :
    List ImportStep :=
  match importRoots catalog payload q adapter with
  | .error fault => [.failure fault]
  | .ok roots => stepsFrom catalog adapter roots

section Nesting

variable {catalog : Catalog} {adapter : Adapter}

theorem Json.height_pos (v : Json) : 0 < v.height := by
  cases v <;> simp [Json.height]

theorem Json.height_le_items {v : Json} {items : List Json} (h : v ∈ items) :
    v.height ≤ Json.itemsHeight items := by
  induction items with
  | nil => cases h
  | cons w rest ih =>
    rw [Json.itemsHeight]
    rcases List.mem_cons.mp h with rfl | h
    · exact Nat.le_max_left _ _
    · exact Nat.le_trans (ih h) (Nat.le_max_right _ _)

theorem Json.height_le_fields {name : String} {v : Json} {fields : List (String × Json)}
    (h : fields.lookup name = some v) : v.height ≤ Json.fieldsHeight fields := by
  induction fields with
  | nil => cases h
  | cons f rest ih =>
    obtain ⟨n, w⟩ := f
    rw [Json.fieldsHeight]
    rw [List.lookup_cons] at h
    split at h
    · cases h
      exact Nat.le_max_left _ _
    · exact Nat.le_trans (ih h) (Nat.le_max_right _ _)

theorem Json.height_field? {name : String} {v node : Json} (h : node.field? name = some v) :
    v.height < node.height := by
  cases node with
  | obj fields => exact Nat.lt_succ_of_le (Json.height_le_fields h)
  | _ => cases h

theorem relatedNodes?_height {v n : Json} {related : List Json} (h : relatedNodes? v = some related)
    (hn : n ∈ related) : n.height ≤ v.height := by
  unfold relatedNodes? at h
  split at h
  · cases h
    exact Nat.le_succ_of_le (Json.height_le_items hn)
  · rename_i fields
    split at h
    · cases h
    · split at h
      · rename_i items hitems
        cases h
        have hlist := Json.height_le_fields hitems
        exact Nat.le_trans (Nat.le_succ_of_le (Json.height_le_items hn)) (Nat.le_succ_of_le hlist)
      · cases h
        obtain rfl := List.mem_singleton.mp hn
        exact Nat.le_refl _
  · cases h

/-- Nodes nest in smaller ones. -/
theorem expanded?_height {node n : Json} {p : NavigationProperty} {related : List Json}
    (h : expanded? node p = some related) (hn : n ∈ related) : n.height < node.height := by
  obtain ⟨v, hv, hrelated⟩ := Option.bind_eq_some_iff.mp h
  exact Nat.lt_of_le_of_lt (relatedNodes?_height hrelated hn) (Json.height_field? hv)

/-- More than the height of the node is never needed. -/
theorem nodeSteps_enough {fuel fuel' : Nat} (t : EntityType) {node : Json}
    (h : node.height ≤ fuel) (h' : node.height ≤ fuel') :
    nodeSteps catalog adapter fuel t node = nodeSteps catalog adapter fuel' t node := by
  induction fuel generalizing fuel' t node with
  | zero => exact absurd h (Nat.not_le.mpr node.height_pos)
  | succ fuel ih =>
    obtain ⟨fuel', rfl⟩ := Nat.exists_eq_succ_of_ne_zero
      (Nat.ne_of_gt (Nat.lt_of_lt_of_le node.height_pos h'))
    unfold nodeSteps
    split
    · rfl
    · congr 1
      refine List.flatMap_congr fun p _ => ?_
      split
      · rfl
      · rename_i related hrelated
        split
        · rfl
        · refine List.flatMap_congr fun n hn => ?_
          have hlt := expanded?_height hrelated hn
          exact ih _ (by omega) (by omega)

/-- A node arrives before what is nested in it, which comes property by property. -/
theorem nodeSteps_object (t : EntityType) {node : Json} (h : node.isObject) :
    nodeSteps catalog adapter node.height t node =
      .arrival t node :: t.navigationProperties.flatMap fun p =>
        match expanded? node p with
        | none => []
        | some related =>
          match catalog.find p.target with
          | .error fault => [.failure fault]
          | .ok target => related.flatMap fun n =>
            nodeSteps catalog adapter n.height ((catalog.declared? adapter n).getD target) n := by
  obtain ⟨fuel, hfuel⟩ := Nat.exists_eq_succ_of_ne_zero (Nat.ne_of_gt node.height_pos)
  rw [hfuel, nodeSteps, if_neg (by simp [h])]
  congr 1
  refine List.flatMap_congr fun p _ => ?_
  split
  · rfl
  · rename_i related hrelated
    split
    · rfl
    · refine List.flatMap_congr fun n hn => ?_
      have hlt := expanded?_height hrelated hn
      exact nodeSteps_enough _ (by omega) (Nat.le_refl _)

theorem nodeSteps_other (t : EntityType) {node : Json} (h : node.isObject = false) (fuel : Nat) :
    nodeSteps catalog adapter fuel t node =
      [.failure (.document (.notAnObject t.name node.text))] := by
  cases fuel with
  | zero => rfl
  | succ fuel => rw [nodeSteps, if_pos (by simp [h])]

/-- A node stands in an expanded navigation property of another one, where it is read as an
entity of a type. -/
def Nested (catalog : Catalog) (adapter : Adapter) (t : EntityType) (node : Json)
    (u : EntityType) (n : Json) : Prop :=
  ∃ p ∈ t.navigationProperties, ∃ related target, expanded? node p = some related ∧
    catalog.find p.target = .ok target ∧ n ∈ related ∧
    u = (catalog.declared? adapter n).getD target

theorem Nested.height_lt {t u : EntityType} {node n : Json}
    (h : Nested catalog adapter t node u n) : n.height < node.height := by
  obtain ⟨p, -, related, target, hrelated, -, hn, -⟩ := h
  exact expanded?_height hrelated hn

theorem arrival_mem_iff {t u : EntityType} {node n : Json} :
    .arrival u n ∈ nodeSteps catalog adapter node.height t node ↔ node.isObject ∧
      (u = t ∧ n = node ∨ ∃ s m, Nested catalog adapter t node s m ∧
        .arrival u n ∈ nodeSteps catalog adapter m.height s m) := by
  cases hobject : node.isObject with
  | false => simp [nodeSteps_other t hobject]
  | true =>
    rw [nodeSteps_object t hobject, List.mem_cons, List.mem_flatMap]
    simp only [ImportStep.arrival.injEq, true_and]
    refine or_congr_right ⟨?_, ?_⟩
    · rintro ⟨p, hp, h⟩
      cases hrelated : expanded? node p with
      | none =>
        rw [hrelated] at h
        cases h
      | some related =>
        rw [hrelated] at h
        cases htarget : catalog.find p.target with
        | error fault =>
          rw [htarget] at h
          simp at h
        | ok target =>
          rw [htarget] at h
          obtain ⟨m, hm, h⟩ := List.mem_flatMap.mp h
          exact ⟨_, m, ⟨p, hp, related, target, hrelated, htarget, hm, rfl⟩, h⟩
    · rintro ⟨s, m, ⟨p, hp, related, target, hrelated, htarget, hm, rfl⟩, h⟩
      refine ⟨p, hp, ?_⟩
      rw [hrelated, htarget]
      exact List.mem_flatMap.mpr ⟨m, hm, h⟩

/-- What is nested in a node that arrives is to arrive too. -/
theorem arrival_nested {r t u : EntityType} {root node n : Json}
    (h : .arrival t node ∈ nodeSteps catalog adapter root.height r root)
    (hn : Nested catalog adapter t node u n) (hobject : n.isObject) :
    .arrival u n ∈ nodeSteps catalog adapter root.height r root := by
  induction hheight : root.height using Nat.strong_induction_on generalizing root r with
  | _ height ih =>
    subst hheight
    obtain ⟨hroot, h⟩ := arrival_mem_iff.mp h
    refine arrival_mem_iff.mpr ⟨hroot, Or.inr ?_⟩
    rcases h with ⟨rfl, rfl⟩ | ⟨s, m, hnested, h⟩
    · exact ⟨u, n, hn, arrival_mem_iff.mpr ⟨hobject, Or.inl ⟨rfl, rfl⟩⟩⟩
    · exact ⟨s, m, hnested, ih m.height hnested.height_lt h rfl⟩

/-- What arrives stands at the top or is nested in what arrives. -/
theorem arrival_origin {r u : EntityType} {root n : Json}
    (h : .arrival u n ∈ nodeSteps catalog adapter root.height r root) :
    u = r ∧ n = root ∨ ∃ t node, .arrival t node ∈ nodeSteps catalog adapter root.height r root ∧
      Nested catalog adapter t node u n := by
  induction hheight : root.height using Nat.strong_induction_on generalizing root r with
  | _ height ih =>
    subst hheight
    obtain ⟨hroot, h⟩ := arrival_mem_iff.mp h
    rcases h with heq | ⟨s, m, hnested, h⟩
    · exact Or.inl heq
    · refine Or.inr ?_
      rcases ih m.height hnested.height_lt h rfl with ⟨rfl, rfl⟩ | ⟨t, node, hm, hn⟩
      · exact ⟨r, root, arrival_mem_iff.mpr ⟨hroot, Or.inl ⟨rfl, rfl⟩⟩, hnested⟩
      · exact ⟨t, node, arrival_mem_iff.mpr ⟨hroot, Or.inr ⟨s, m, hnested, hm⟩⟩, hn⟩

end Nesting

section Types

variable {catalog : Catalog} {adapter : Adapter} {u : EntityType} {n : Json}

theorem declared?_registered {node : Json} {t : EntityType}
    (h : catalog.declared? adapter node = some t) : catalog.type? t.name = some t := by
  obtain ⟨name, -, ht⟩ := Option.bind_eq_some_iff.mp h
  exact Catalog.type?_of_find? ht

theorem nodeSteps_registered (fuel : Nat) {t : EntityType} {node : Json}
    (ht : catalog.type? t.name = some t)
    (h : .arrival u n ∈ nodeSteps catalog adapter fuel t node) :
    catalog.type? u.name = some u := by
  induction fuel generalizing t node with
  | zero => simp [nodeSteps] at h
  | succ fuel ih =>
    unfold nodeSteps at h
    split at h
    · simp at h
    · rcases List.mem_cons.mp h with heq | h
      · cases heq
        exact ht
      · obtain ⟨p, -, h⟩ := List.mem_flatMap.mp h
        split at h
        · cases h
        · split at h
          · simp at h
          · rename_i target htarget
            obtain ⟨m, -, h⟩ := List.mem_flatMap.mp h
            refine ih ?_ h
            cases hd : catalog.declared? adapter m with
            | none => exact Catalog.type?_of_find htarget
            | some w => exact declared?_registered hd

theorem rootType?_registered {isProjection : Bool} {standard : Option EntityType}
    (hs : ∀ t, standard = some t → catalog.type? t.name = some t) {node : Json} {t : EntityType}
    (h : rootType? catalog adapter isProjection standard node = some t) :
    catalog.type? t.name = some t := by
  unfold rootType? at h
  split at h
  · cases h
  · rcases Option.or_eq_some_iff.mp h with hd | ⟨-, hd⟩
    · exact declared?_registered hd
    · exact hs t hd

theorem importRoots_registered {payload : Json} {q : Query} {roots : List (EntityType × Json)}
    (h : importRoots catalog payload q adapter = .ok roots) {root : EntityType × Json}
    (hr : root ∈ roots) : catalog.type? root.1.name = some root.1 := by
  obtain ⟨extracted, -, h⟩ := bind_ok h
  obtain ⟨target, htarget, h⟩ := bind_ok h
  cases h
  obtain ⟨node, -, hroot⟩ := List.mem_filterMap.mp hr
  obtain ⟨t, ht, rfl⟩ := Option.map_eq_some_iff.mp hroot
  exact rootType?_registered (fun u hu => Query.target_registered htarget hu) ht

theorem importSteps_registered {payload : Json} {q : Query}
    (h : .arrival u n ∈ importSteps catalog payload q adapter) :
    catalog.type? u.name = some u := by
  unfold importSteps at h
  split at h
  · simp at h
  · rename_i roots hroots
    obtain ⟨root, hr, h⟩ := List.mem_flatMap.mp h
    exact nodeSteps_registered _ (importRoots_registered hroots hr) h

theorem importSteps_nested {payload : Json} {q : Query} {t : EntityType} {node : Json}
    (h : .arrival t node ∈ importSteps catalog payload q adapter)
    (hn : Nested catalog adapter t node u n) (hobject : n.isObject) :
    .arrival u n ∈ importSteps catalog payload q adapter := by
  unfold importSteps at h ⊢
  split at h
  · simp at h
  · obtain ⟨root, hr, h⟩ := List.mem_flatMap.mp h
    exact List.mem_flatMap.mpr ⟨root, hr, arrival_nested h hn hobject⟩

theorem importSteps_origin {payload : Json} {q : Query}
    (h : .arrival u n ∈ importSteps catalog payload q adapter) :
    (∃ roots, importRoots catalog payload q adapter = .ok roots ∧ (u, n) ∈ roots) ∨
      ∃ t node, .arrival t node ∈ importSteps catalog payload q adapter ∧
        Nested catalog adapter t node u n := by
  unfold importSteps at h ⊢
  split at h
  · simp at h
  · rename_i roots hroots
    obtain ⟨root, hr, h⟩ := List.mem_flatMap.mp h
    rcases arrival_origin h with ⟨rfl, rfl⟩ | ⟨t, node, hm, hn⟩
    · exact Or.inl ⟨roots, hroots, hr⟩
    · exact Or.inr ⟨t, node, List.mem_flatMap.mpr ⟨root, hr, hm⟩, hn⟩

end Types

namespace Action

variable {α β : Type} {catalog : Catalog}

/-- Two actions that come to the same in every cache over a catalog, and keep to it. -/
structure AgreeOver (catalog : Catalog) (a b : Action α) : Prop where
  same : ∀ c : Cache, c.catalog = catalog → a.on c = b.on c
  catalog : ∀ c : Cache, c.catalog = catalog → (a.on c).2.catalog = catalog

namespace AgreeOver

theorem of_unmoved {a : Action α} (h : ∀ c, ∃ r, a.on c = (r, c)) : AgreeOver catalog a a where
  same _ _ := rfl
  catalog c hc := by
    obtain ⟨r, hr⟩ := h c
    rwa [hr]

theorem of_on {a a' b : Action α} (h : ∀ c : Cache, c.catalog = catalog → a.on c = a'.on c)
    (ha : AgreeOver catalog a' b) : AgreeOver catalog a b where
  same c hc := (h c hc).trans (ha.same c hc)
  catalog c hc := (congrArg (·.2.catalog) (h c hc)).trans (ha.catalog c hc)

theorem catalog_bind {a : Action α} {f : α → Action β} {c : Cache}
    (ha : (a.on c).2.catalog = catalog)
    (hf : ∀ x, ∀ d : Cache, d.catalog = catalog → ((f x).on d).2.catalog = catalog) :
    ((a >>= f).on c).2.catalog = catalog := by
  rw [on_bind]
  cases h : a.on c with
  | mk r d =>
    rw [h] at ha
    cases r with
    | error fault => exact ha
    | ok x => exact hf x d ha

theorem bind {a a' : Action α} {f f' : α → Action β} (ha : AgreeOver catalog a a')
    (hf : ∀ x, AgreeOver catalog (f x) (f' x)) : AgreeOver catalog (a >>= f) (a' >>= f') where
  same c hc := by
    have hkept := ha.catalog c hc
    rw [on_bind, on_bind, ← ha.same c hc]
    cases h : a.on c with
    | mk r d =>
      rw [h] at hkept
      cases r with
      | error fault => rfl
      | ok x => exact (hf x).same d hkept
  catalog c hc := catalog_bind (ha.catalog c hc) fun x => (hf x).catalog

/-- What an action returns is of no account where what follows does not depend on it. -/
theorem discard_bind {a : Action α} {b : Action PUnit} {f : α → Action PUnit} {g : Action PUnit}
    (ha : AgreeOver catalog (discard a) b) (hf : ∀ x, AgreeOver catalog (f x) g) :
    AgreeOver catalog (a >>= f) (b >>= fun _ => g) where
  same c hc := by
    have hkept := ha.catalog c hc
    rw [on_bind a, on_bind b, ← ha.same c hc]
    rw [on_discard] at hkept ⊢
    cases h : a.on c with
    | mk r d =>
      rw [h] at hkept
      cases r with
      | error fault => rfl
      | ok x => exact (hf x).same d hkept
  catalog c hc := by
    have hkept := ha.catalog c hc
    rw [on_discard] at hkept
    exact catalog_bind hkept fun x => (hf x).catalog

theorem get_bind {f : Cache → Action α} {b : Action α}
    (hf : ∀ c : Cache, c.catalog = catalog → AgreeOver catalog (f c) b) :
    AgreeOver catalog ((get : Action Cache) >>= f) b where
  same c hc := (on_bind_ok (on_get c) f).trans ((hf c hc).same c hc)
  catalog c hc := by
    rw [on_bind_ok (on_get c)]
    exact (hf c hc).catalog c hc

theorem forM {f g : α → Action PUnit} {xs : List α} (h : ∀ x ∈ xs, AgreeOver catalog (f x) (g x)) :
    AgreeOver catalog (xs.forM f) (xs.forM g) := by
  induction xs with
  | nil => exact of_unmoved fun c => ⟨_, on_pure _ c⟩
  | cons x xs ih =>
    have hrest := ih fun y hy => h y (List.mem_cons_of_mem x hy)
    exact bind (h x List.mem_cons_self) fun _ => hrest

end AgreeOver

theorem discard_eq (a : Action α) : (discard a : Action PUnit) = a >>= fun _ => pure ⟨⟩ := rfl

theorem forM_append (xs ys : List α) (f : α → Action PUnit) :
    (xs ++ ys).forM f = xs.forM f >>= fun _ => ys.forM f := by
  induction xs with
  | nil => exact (pure_bind _ _).symm
  | cons x xs ih =>
    change (f x >>= fun _ => (xs ++ ys).forM f) = (f x >>= fun _ => xs.forM f) >>= fun _ => _
    rw [ih, bind_assoc]

theorem forM_flatMap (xs : List α) (g : α → List β) (f : β → Action PUnit) :
    (xs.flatMap g).forM f = xs.forM fun x => (g x).forM f := by
  induction xs with
  | nil => rfl
  | cons x xs ih =>
    rw [List.flatMap_cons, forM_append, ih]
    rfl

theorem forM_singleton (x : α) (f : α → Action PUnit) : [x].forM f = f x :=
  bind_pure_unit

/-- A loop stops at the first element that fails, with everything before it done. -/
theorem forM_fails {f : α → Action PUnit} {xs : List α} {c c' : Cache} {fault : Fault}
    (h : (xs.forM f).on c = (.error fault, c')) : ∃ before x after d,
      xs = before ++ x :: after ∧ (before.forM f).on c = (.ok ⟨⟩, d) ∧
        (f x).on d = (.error fault, c') := by
  induction xs generalizing c with
  | nil => cases h
  | cons x xs ih =>
    change (f x >>= fun _ => xs.forM f).on c = _ at h
    cases hx : (f x).on c with
    | mk r d =>
      cases r with
      | error e =>
        rw [on_bind_error hx] at h
        exact ⟨[], x, xs, c, rfl, rfl, hx.trans h⟩
      | ok u =>
        rw [on_bind_ok hx] at h
        obtain ⟨before, y, after, d', rfl, hbefore, hy⟩ := ih h
        exact ⟨x :: before, y, after, d', rfl, (on_bind_ok hx _).trans hbefore, hy⟩

section Steps

variable {adapter : Adapter} {strategy : MergeStrategy}

theorem arrive_catalog (strategy : MergeStrategy) (t : EntityType) (node : Json) (c : Cache) :
    ((arrive strategy t node).on c).2.catalog = c.catalog := by
  rw [arrive_eq]
  cases c.catalog.find t.name with
  | error fault => rfl
  | ok u =>
    have hj := join_cases (c := c.withNewcomer t node) t c.instances.count .unchanged strategy
      fun hn : (none : Option Value) ≠ none => absurd rfl hn
    dsimp only
    generalize hd : ((join t c.instances.count .unchanged strategy none).on
      (c.withNewcomer t node)).2 = d at hj ⊢
    cases hj with
    | refused ho => exact ho.catalog
    | joined ho => exact ho.catalog

theorem arrive_agrees (strategy : MergeStrategy) (t : EntityType) (node : Json) :
    AgreeOver catalog (discard (arrive strategy t node) : Action PUnit)
      ((ImportStep.arrival t node).perform strategy) where
  same _ _ := rfl
  catalog c hc := by
    rw [on_discard]
    exact (arrive_catalog strategy t node c).trans hc

theorem perform_arrival {t : EntityType} {node : Json} {c d : Cache} {r : Except Fault InstanceId}
    (h : (arrive strategy t node).on c = (r, d)) :
    ((ImportStep.arrival t node).perform strategy).on c = (r.map fun _ => ⟨⟩, d) := by
  rw [ImportStep.perform, on_discard, h]

theorem throw_agrees (fault : Fault) : AgreeOver catalog (throw fault : Action PUnit)
    ([ImportStep.failure fault].forM (ImportStep.perform strategy)) := by
  rw [forM_singleton]
  exact .of_unmoved fun c => ⟨_, on_throw fault c⟩

theorem materialize_agrees (fuel : Nat) (t : EntityType) (node : Json) :
    AgreeOver catalog (discard (materialize adapter strategy fuel t node) : Action PUnit)
      ((nodeSteps catalog adapter fuel t node).forM (ImportStep.perform strategy)) := by
  induction fuel generalizing t node with
  | zero => exact throw_agrees _
  | succ fuel ih =>
    rw [materialize_succ, nodeSteps]
    split
    · exact throw_agrees _
    · have hsplit : (discard (arrive strategy t node >>= fun cached =>
          t.navigationProperties.forM (materializeRelated adapter strategy fuel node) >>=
            fun _ => Pure.pure cached) : Action PUnit) =
          discard (arrive strategy t node) >>= fun _ =>
            t.navigationProperties.forM (materializeRelated adapter strategy fuel node) := by
        simp only [discard_eq, bind_assoc, pure_bind, bind_pure_unit]
      rw [hsplit]
      refine (arrive_agrees strategy t node).bind fun _ => ?_
      rw [forM_flatMap]
      refine AgreeOver.forM fun p _ => ?_
      unfold materializeRelated
      change AgreeOver catalog (match expanded? node p with
        | none => _
        | some related => _) _
      cases expanded? node p with
      | none => exact .of_unmoved fun c => ⟨_, on_pure _ c⟩
      | some related =>
        refine .get_bind fun c hc => ?_
        rw [hc]
        dsimp only
        cases catalog.find p.target with
        | error fault => exact throw_agrees fault
        | ok target =>
          change AgreeOver catalog (related.forM _) _
          rw [forM_flatMap]
          refine AgreeOver.forM fun n _ => .get_bind fun c hc => ?_
          rw [Cache.declaredType?, hc]
          exact ih _ n

section Nodes

variable {isProjection : Bool} {standard : Option EntityType} {c : Cache} {node : Json}

theorem importNodes_root {t : EntityType}
    (h : rootType? c.catalog adapter isProjection standard node = some t) (rest : List Json)
    (result : Imported) :
    (importNodes adapter strategy isProjection standard (node :: rest) result).on c =
      (materialize adapter strategy node.height t node >>= fun id =>
        importNodes adapter strategy isProjection standard rest
          { result with entities := result.entities ++ [id] }).on c := by
  have hread : (if isProjection then none else (c.declaredType? adapter node).or standard) =
    some t := h
  rw [importNodes, on_bind_ok (on_get c)]
  dsimp only
  rw [hread]

theorem importNodes_document (h : rootType? c.catalog adapter isProjection standard node = none)
    (rest : List Json) (result : Imported) :
    (importNodes adapter strategy isProjection standard (node :: rest) result).on c =
      (importNodes adapter strategy isProjection standard rest
        { result with projections := result.projections ++ [node] }).on c := by
  have hread : (if isProjection then none else (c.declaredType? adapter node).or standard) =
    none := h
  rw [importNodes, on_bind_ok (on_get c)]
  dsimp only
  rw [hread]

theorem rootsOf_root {t : EntityType}
    (h : rootType? catalog adapter isProjection standard node = some t) (rest : List Json) :
    rootsOf catalog adapter isProjection standard (node :: rest) =
      (t, node) :: rootsOf catalog adapter isProjection standard rest := by
  rw [rootsOf, List.filterMap_cons, h]
  rfl

theorem rootsOf_document (h : rootType? catalog adapter isProjection standard node = none)
    (rest : List Json) : rootsOf catalog adapter isProjection standard (node :: rest) =
      rootsOf catalog adapter isProjection standard rest := by
  rw [rootsOf, List.filterMap_cons, h]
  rfl

end Nodes

theorem importNodes_agrees (isProjection : Bool) (standard : Option EntityType) (nodes : List Json)
    (result : Imported) : AgreeOver catalog
      (discard (importNodes adapter strategy isProjection standard nodes result) : Action PUnit)
      ((stepsFrom catalog adapter (rootsOf catalog adapter isProjection standard nodes)).forM
        (ImportStep.perform strategy)) := by
  induction nodes generalizing result with
  | nil => exact .of_unmoved fun c => ⟨_, on_pure _ c⟩
  | cons node rest ih =>
    cases hr : rootType? catalog adapter isProjection standard node with
    | none =>
      rw [rootsOf_document hr]
      have hdocument := ih { result with projections := result.projections ++ [node] }
      refine .of_on (fun c hc => ?_) hdocument
      rw [on_discard, on_discard, importNodes_document (hc ▸ hr)]
    | some t =>
      rw [rootsOf_root hr, stepsFrom, List.flatMap_cons, forM_append]
      refine .of_on (fun c hc => ?_) ((materialize_agrees node.height t node).discard_bind fun id =>
        ih { result with entities := result.entities ++ [id] })
      rw [on_discard, importNodes_root (hc ▸ hr), ← on_discard, discard_eq, bind_assoc]
      rfl

/-- What an import does to the cache, and whether it fails, is what becomes of its steps. -/
theorem importResults_steps (payload : Json) (q : Query) (adapter : Adapter) (c : Cache) :
    (discard (importResults payload q adapter) : Action PUnit).on c =
      ((importSteps c.catalog payload q adapter).forM
        (ImportStep.perform (effectiveStrategy c q))).on c := by
  rw [on_discard, importResults]
  cases hextract : adapter.extract payload with
  | error fault =>
    rw [importSteps, importRoots, hextract]
    rfl
  | ok extracted =>
    rw [on_bind_ok (on_lift _ c), on_bind_ok (on_get c)]
    cases htarget : q.target c.catalog with
    | error fault =>
      rw [importSteps, importRoots, hextract, htarget]
      rfl
    | ok target =>
      rw [importSteps, importRoots, hextract, htarget, on_bind_ok (on_lift _ c),
        on_bind_ok (on_get c), ← on_discard]
      exact (importNodes_agrees _ _ _ _).same c rfl

end Steps

end Action

end EntityCache
