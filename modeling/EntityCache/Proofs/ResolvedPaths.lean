import EntityCache.Proofs.FormationRuns
import EntityCache.Schema.Path

/-! Which paths resolve, from a registered type of a catalog that came about by registering
types: navigations to registered types, and in the end one more of them or a data property.
A path that does not resolve has a first segment at which it goes wrong, and that is the one
that the fault is about. -/
namespace EntityCache.Catalog

variable {c : Catalog} {t u : EntityType} {path segment : String} {segments names : List String}
  {d : Option DataType} {p : NavigationProperty}

/-- The registered type that a navigation leads to. The navigation may name it with or without
a namespace. -/
def LeadsTo (c : Catalog) (p : NavigationProperty) (u : EntityType) : Prop :=
  u ∈ c.types ∧ u.name = shortName p.target

/-- The segments name properties, each of the type that the ones before it lead to: navigations
to registered types, the last one perhaps a data property. Beside them stand the names that the
server has for them, and the type of the data property. -/
inductive Resolves (c : Catalog) : EntityType → List String → List String → Option DataType →
    Prop where
  | data {t : EntityType} {segment : String} {q : DataProperty} (nonempty : segment ≠ "")
      (property : t.dataProperty? segment = some q) :
      Resolves c t [segment] [q.wireName] (some q.dataType)
  | navigation {t u : EntityType} {segment : String} {p : NavigationProperty}
      (nonempty : segment ≠ "") (property : t.navigationProperty? segment = some p)
      (target : c.LeadsTo p u) : Resolves c t [segment] [p.wireName] none
  | through {t u : EntityType} {segment : String} {rest names : List String}
      {p : NavigationProperty} {d : Option DataType} (nonempty : segment ≠ "")
      (property : t.navigationProperty? segment = some p) (target : c.LeadsTo p u)
      (further : Resolves c u rest names d) :
      Resolves c t (segment :: rest) (p.wireName :: names) d

def Resolvable (c : Catalog) (t : EntityType) (segments : List String) : Prop :=
  ∃ names d, c.Resolves t segments names d

/-- The segment at this place is the first that cannot be resolved. -/
structure FirstUnresolvable (c : Catalog) (t : EntityType) (segments : List String) (i : Nat)
    (segment : String) : Prop where
  here : segments[i]? = some segment
  before : ∀ k, 0 < k → k ≤ i → c.Resolvable t (segments.take k)
  fails : ¬ c.Resolvable t (segments.take (i + 1))

section Lookup

theorem find_ok_iff (hc : c.Registered) {name : String} :
    c.find name = .ok u ↔ u ∈ c.types ∧ u.name = shortName name := by
  refine ⟨fun h => type?_some (find_ok h), fun h => ?_⟩
  rw [find, find?, hc.type?_eq_some_iff.mpr h]

theorem LeadsTo.find (hc : c.Registered) (h : c.LeadsTo p u) : c.find p.target = .ok u :=
  (find_ok_iff hc).mpr h

theorem LeadsTo.unique (hc : c.Registered) {v : EntityType} (h : c.LeadsTo p u)
    (h' : c.LeadsTo p v) : u = v := Except.ok.inj ((h.find hc).symm.trans (h'.find hc))

theorem dataProperty?_of_navigation (hc : c.Registered) (ht : t ∈ c.types)
    (h : t.navigationProperty? segment = some p) : t.dataProperty? segment = none := by
  cases hq : t.dataProperty? segment with
  | none => rfl
  | some q =>
    obtain ⟨hqm, hqn⟩ := EntityType.dataProperty?_some hq
    have hpm := List.mem_of_find?_eq_some h
    have hpn : p.name = segment := by simpa using List.find?_some h
    have hnodup := hc.nodup_propertyNames t ht
    refine absurd (hqn.trans hpn.symm) ?_
    exact (List.nodup_append.mp hnodup).2.2 _ (List.mem_map_of_mem hqm) _
      (List.mem_map_of_mem hpm)

end Lookup

section Shape

theorem Resolvable.head_ne (h : c.Resolvable t (segment :: segments)) : segment ≠ "" := by
  obtain ⟨names, d, h⟩ := h
  cases h <;> assumption

/-- Whatever resolves begins with a data property or with a navigation to a registered type. -/
theorem Resolvable.head_property (h : c.Resolvable t (segment :: segments)) :
    (∃ q, t.dataProperty? segment = some q) ∨
      ∃ p u, t.navigationProperty? segment = some p ∧ c.LeadsTo p u := by
  obtain ⟨names, d, h⟩ := h
  cases h with
  | data _ hq => exact Or.inl ⟨_, hq⟩
  | navigation _ hp hu => exact Or.inr ⟨_, _, hp, hu⟩
  | through _ hp hu => exact Or.inr ⟨_, _, hp, hu⟩

theorem Resolvable.of_data {q : DataProperty} (hne : segment ≠ "")
    (h : t.dataProperty? segment = some q) : c.Resolvable t [segment] := ⟨_, _, .data hne h⟩

/-- Behind a navigation the path goes on from the type that it leads to. -/
theorem resolvable_cons_iff (hc : c.Registered) (hne : segment ≠ "")
    (hp : t.navigationProperty? segment = some p) (hu : c.LeadsTo p u) :
    c.Resolvable t (segment :: segments) ↔ segments = [] ∨ c.Resolvable u segments := by
  constructor
  · rintro ⟨names, d, h⟩
    cases h with
    | data => exact Or.inl rfl
    | navigation => exact Or.inl rfl
    | through _ hproperty htarget hfurther =>
      cases hp.symm.trans hproperty
      obtain rfl := hu.unique hc htarget
      exact Or.inr ⟨_, _, hfurther⟩
  · rintro (rfl | ⟨names, d, h⟩)
    · exact ⟨_, _, .navigation hne hp hu⟩
    · exact ⟨_, _, .through hne hp hu h⟩

theorem not_resolvable_past_data (hc : c.Registered) (ht : t ∈ c.types) {q : DataProperty}
    (hq : t.dataProperty? segment = some q) (hrest : segments ≠ []) :
    ¬ c.Resolvable t (segment :: segments) := by
  rintro ⟨names, d, h⟩
  cases h with
  | data => exact hrest rfl
  | navigation => exact hrest rfl
  | through _ hproperty =>
    cases (dataProperty?_of_navigation hc ht hproperty).symm.trans hq

end Shape

section Walk

theorem Resolves.walk_ok (hc : c.Registered) (ht : t ∈ c.types)
    (h : c.Resolves t segments names d) (reached : ResolvedPath) (hnone : reached.dataType = none) :
    ∃ resolved, c.walk path (.entity t) segments reached = .ok resolved ∧
      resolved.segments = reached.segments ++ names ∧ resolved.dataType = d := by
  induction h generalizing reached with
  | @data t segment q hne hq =>
    refine ⟨{ reached with
      segments := reached.segments ++ [q.wireName]
      dataType := some q.dataType }, ?_, rfl, rfl⟩
    rw [walk, if_neg hne, hq]
  | @navigation t u segment p hne hp hu =>
    refine ⟨{ reached with
      segments := reached.segments ++ [p.wireName]
      target := .entity u
      isCollection := !p.isScalar }, ?_, rfl, hnone⟩
    rw [walk, if_neg hne, dataProperty?_of_navigation hc ht hp, hp]
    simp only [hu.find hc, walk]
  | @through t u segment rest names p d hne hp hu _ ih =>
    obtain ⟨resolved, hwalk, hsegments, htype⟩ := ih hu.1 { reached with
      segments := reached.segments ++ [p.wireName]
      target := .entity u
      isCollection := !p.isScalar } hnone
    refine ⟨resolved, ?_, ?_, htype⟩
    · rw [walk, if_neg hne, dataProperty?_of_navigation hc ht hp, hp]
      simp only [hu.find hc, hwalk]
    · rw [hsegments, List.append_assoc, List.singleton_append]

theorem walk_resolves (hc : c.Registered) {reached resolved : ResolvedPath}
    (h : c.walk path (.entity t) segments reached = .ok resolved) (hnil : segments ≠ [])
    (hnone : reached.dataType = none) :
    ∃ names, c.Resolves t segments names resolved.dataType ∧
      resolved.segments = reached.segments ++ names := by
  induction segments generalizing t reached with
  | nil => exact absurd rfl hnil
  | cons segment rest ih =>
    unfold walk at h
    by_cases hne : segment = ""
    · rw [if_pos hne] at h
      cases h
    · rw [if_neg hne] at h
      cases hq : t.dataProperty? segment with
      | some q =>
        simp only [hq] at h
        cases rest with
        | nil =>
          cases h
          exact ⟨_, .data hne hq, rfl⟩
        | cons => cases h
      | none =>
        cases hp : t.navigationProperty? segment with
        | none =>
          simp only [hq, hp] at h
          cases h
        | some p =>
          simp only [hq, hp] at h
          cases hf : c.find p.target with
          | error fault =>
            simp only [hf] at h
            cases h
          | ok u =>
            simp only [hf] at h
            have hu : c.LeadsTo p u := (find_ok_iff hc).mp hf
            cases rest with
            | nil =>
              cases h
              exact ⟨[p.wireName], by rw [hnone]; exact .navigation hne hp hu, rfl⟩
            | cons next rest =>
              obtain ⟨names, hresolves, hsegments⟩ := ih h (List.cons_ne_nil next rest) hnone
              refine ⟨p.wireName :: names, .through hne hp hu hresolves, ?_⟩
              rw [hsegments, List.append_assoc, List.singleton_append]

/-- Why a walk fails: a segment that is empty or names no property, or one that leads to a type
which is not registered. No segment before it is in the way. -/
inductive Obstacle (c : Catalog) (path segment : String) : Fault → Prop where
  | unknown (typeName : String) : Obstacle c path segment (noProperty path segment typeName)
  | unregistered (name : String) (missing : ∀ u ∈ c.types, u.name ≠ shortName name) :
      Obstacle c path segment (.typeNotFound name)

theorem FirstUnresolvable.zero (h : ¬ c.Resolvable t [segment]) :
    c.FirstUnresolvable t (segment :: segments) 0 segment :=
  ⟨rfl, fun k hk hle => absurd hk (by omega), h⟩

theorem FirstUnresolvable.succ (hc : c.Registered) (hne : segment ≠ "")
    (hp : t.navigationProperty? segment = some p) (hu : c.LeadsTo p u) {i : Nat} {last : String}
    (h : c.FirstUnresolvable u segments i last) :
    c.FirstUnresolvable t (segment :: segments) (i + 1) last := by
  refine ⟨h.here, fun k hk hle => ?_, ?_⟩
  · obtain ⟨k, rfl⟩ := Nat.exists_eq_succ_of_ne_zero (Nat.ne_of_gt hk)
    rw [List.take_succ_cons, resolvable_cons_iff hc hne hp hu]
    by_cases hzero : k = 0
    · exact Or.inl (by rw [hzero, List.take_zero])
    · exact Or.inr (h.before k (by omega) (by omega))
  · rw [List.take_succ_cons, resolvable_cons_iff hc hne hp hu, not_or]
    refine ⟨fun hnil => ?_, h.fails⟩
    have hhere := h.here
    rcases List.take_eq_nil_iff.mp hnil with hzero | rfl
    · omega
    · cases hhere

theorem walk_fault (hc : c.Registered) (ht : t ∈ c.types) {reached : ResolvedPath} {fault : Fault}
    (h : c.walk path (.entity t) segments reached = .error fault) :
    ∃ i segment, c.FirstUnresolvable t segments i segment ∧ c.Obstacle path segment fault := by
  induction segments generalizing t reached with
  | nil => cases h
  | cons segment rest ih =>
    unfold walk at h
    by_cases hne : segment = ""
    · rw [if_pos hne] at h
      cases h
      exact ⟨0, segment, .zero fun hr => hr.head_ne hne, .unknown _⟩
    · rw [if_neg hne] at h
      cases hq : t.dataProperty? segment with
      | some q =>
        simp only [hq] at h
        cases rest with
        | nil => cases h
        | cons next rest =>
          cases h
          refine ⟨1, next, ⟨rfl, fun k hk hle => ?_, ?_⟩, .unknown _⟩
          · obtain rfl : k = 1 := by omega
            exact .of_data hne hq
          · exact not_resolvable_past_data hc ht hq (by simp)
      | none =>
        cases hp : t.navigationProperty? segment with
        | none =>
          simp only [hq, hp] at h
          cases h
          refine ⟨0, segment, .zero fun hr => ?_, .unknown _⟩
          rcases hr.head_property with ⟨q, hq'⟩ | ⟨p, u, hp', -⟩
          · cases hq.symm.trans hq'
          · cases hp.symm.trans hp'
        | some p =>
          simp only [hq, hp] at h
          cases hf : c.find p.target with
          | error fault' =>
            simp only [hf] at h
            cases h
            have hmissing : ∀ u, ¬ c.LeadsTo p u := by
              intro u hu
              cases hf.symm.trans (hu.find hc)
            have hfault : fault = .typeNotFound p.target := by
              unfold Catalog.find at hf
              split at hf
              · cases hf
              · exact (Except.error.inj hf).symm
            refine ⟨0, segment, .zero fun hr => ?_, hfault ▸ .unregistered _ fun u hu hname =>
              hmissing u ⟨hu, hname⟩⟩
            rcases hr.head_property with ⟨q, hq'⟩ | ⟨p', u, hp', hu⟩
            · cases hq.symm.trans hq'
            · cases hp.symm.trans hp'
              exact hmissing u hu
          | ok u =>
            simp only [hf] at h
            have hu : c.LeadsTo p u := (find_ok_iff hc).mp hf
            obtain ⟨i, last, hfirst, hobstacle⟩ := ih hu.1 h
            exact ⟨i + 1, last, hfirst.succ hc hne hp hu, hobstacle⟩

end Walk

theorem pathSegments_ne_nil (path : String) : pathSegments path ≠ [] := by
  simp [pathSegments, Text.split, Text.pieces_ne_nil]

/-- From a registered type exactly those paths resolve whose segments are navigations to
registered types, the last one perhaps a data property. The server's names stand in the order
of the segments, and there is a data type if the last is a data property. The segment that a
path lacks a property for is the first one at which it cannot be resolved. -/
theorem resolvePath_exact (hc : c.Registered) (ht : t ∈ c.types) (path : String) :
    ((∃ resolved, c.resolvePath (.entity t) path = .ok resolved) ↔
      c.Resolvable t (pathSegments path)) ∧
    (∀ resolved, c.resolvePath (.entity t) path = .ok resolved →
      c.Resolves t (pathSegments path) resolved.segments resolved.dataType) ∧
    (∀ segment p typeName, c.resolvePath (.entity t) path =
        .error (.propertyNotFound segment p typeName) →
      p = path ∧ ∃ i, c.FirstUnresolvable t (pathSegments path) i segment) ∧
    ∀ fault, c.resolvePath (.entity t) path = .error fault →
      ∃ i segment, c.FirstUnresolvable t (pathSegments path) i segment ∧
        c.Obstacle path segment fault := by
  have hresolves : ∀ resolved, c.resolvePath (.entity t) path = .ok resolved →
      c.Resolves t (pathSegments path) resolved.segments resolved.dataType := by
    intro resolved h
    obtain ⟨names, hnames, hsegments⟩ := walk_resolves hc h (pathSegments_ne_nil path) rfl
    rw [hsegments, List.nil_append]
    exact hnames
  have hfault : ∀ fault, c.resolvePath (.entity t) path = .error fault →
      ∃ i segment, c.FirstUnresolvable t (pathSegments path) i segment ∧
        c.Obstacle path segment fault := fun fault h => walk_fault hc ht h
  refine ⟨⟨?_, ?_⟩, hresolves, fun segment p typeName h => ?_, hfault⟩
  · rintro ⟨resolved, h⟩
    exact ⟨_, _, hresolves resolved h⟩
  · rintro ⟨names, d, h⟩
    obtain ⟨resolved, hwalk, -⟩ := h.walk_ok hc ht ⟨[], none, .entity t, false⟩ rfl
    exact ⟨resolved, hwalk⟩
  · obtain ⟨i, first, hfirst, hobstacle⟩ := hfault _ h
    cases hobstacle
    exact ⟨rfl, i, hfirst⟩

open EntityCache.Cache (sales sales_registered) in
/-- The notes of a catalog name the type of customers with its namespace. -/
theorem note_paths_resolved :
    sales.Registered ∧ sales.types[3] ∈ sales.types ∧
      sales.Resolvable sales.types[3] (pathSegments "customer / orders.customerId") ∧
      ∃ i, sales.FirstUnresolvable sales.types[3] (pathSegments "customer.nope.id") i "nope" := by
  have hnote : sales.types[3] ∈ sales.types := List.getElem_mem _
  obtain ⟨hiff, -, -, -⟩ :=
    resolvePath_exact sales_registered hnote "customer / orders.customerId"
  obtain ⟨-, -, hmissing, -⟩ := resolvePath_exact sales_registered hnote "customer.nope.id"
  obtain ⟨-, hfirst⟩ := hmissing "nope" "customer.nope.id" "Customer" rfl
  exact ⟨sales_registered, hnote, hiff.mp ⟨_, rfl⟩, hfirst⟩

end EntityCache.Catalog
