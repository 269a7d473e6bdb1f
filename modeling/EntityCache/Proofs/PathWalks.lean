import EntityCache.Schema.Path

/-! Where a path leads. From an entity type a path that resolves is a row of navigations, each
of the type that the ones before it lead to, with at most one data property behind them. The
last of the navigations decides what the path leads to and whether it is to many. -/
namespace EntityCache.Catalog

inductive Leads (c : Catalog) : EntityType → List String → EntityType → Prop where
  | nil (t : EntityType) : Leads c t [] t
  | cons {t u v : EntityType} {segment : String} {rest : List String} {p : NavigationProperty}
      (noData : t.dataProperty? segment = none)
      (navigation : t.navigationProperty? segment = some p) (found : c.find p.target = .ok u)
      (further : Leads c u rest v) : Leads c t (segment :: rest) v

theorem Leads.unique {c : Catalog} {t u v : EntityType} {path : List String}
    (h : c.Leads t path u) (h' : c.Leads t path v) : u = v := by
  induction h generalizing v with
  | nil => cases h' with
    | nil => rfl
  | cons _ hnavigation hfound _ ih => cases h' with
    | cons _ hnavigation' hfound' hfurther =>
      cases hnavigation.symm.trans hnavigation'
      cases hfound.symm.trans hfound'
      exact ih hfurther

/-- The last segment is the navigation `p` of the type that those before it lead to, and `v`
is the type that it leads to. -/
def EndsInNavigation (c : Catalog) (t : EntityType) (path : List String)
    (p : NavigationProperty) (v : EntityType) : Prop :=
  ∃ before last u, path = before ++ [last] ∧ c.Leads t before u ∧
    u.dataProperty? last = none ∧ u.navigationProperty? last = some p ∧ c.find p.target = .ok v

/-- The last segment is the data property `p` of the type that those before it lead to. -/
def EndsInData (c : Catalog) (t : EntityType) (path : List String) (p : DataProperty) : Prop :=
  ∃ before last u, path = before ++ [last] ∧ c.Leads t before u ∧ u.dataProperty? last = some p

def EndsInCollection (c : Catalog) (t : EntityType) (path : List String) (v : EntityType) : Prop :=
  ∃ p, c.EndsInNavigation t path p v ∧ p.isScalar = false

variable {c : Catalog} {t u v : EntityType}

theorem EndsInNavigation.single {segment : String} {p : NavigationProperty}
    (hdata : t.dataProperty? segment = none) (hnavigation : t.navigationProperty? segment = some p)
    (hfound : c.find p.target = .ok v) : c.EndsInNavigation t [segment] p v :=
  ⟨[], segment, t, rfl, .nil t, hdata, hnavigation, hfound⟩

theorem EndsInNavigation.cons {segment : String} {rest : List String} {p q : NavigationProperty}
    (hdata : t.dataProperty? segment = none) (hnavigation : t.navigationProperty? segment = some q)
    (hfound : c.find q.target = .ok u) (h : c.EndsInNavigation u rest p v) :
    c.EndsInNavigation t (segment :: rest) p v := by
  obtain ⟨before, last, w, rfl, hleads, hlast⟩ := h
  exact ⟨segment :: before, last, w, rfl, .cons hdata hnavigation hfound hleads, hlast⟩

theorem EndsInNavigation.leads {path : List String} {p : NavigationProperty}
    (h : c.EndsInNavigation t path p v) : c.Leads t path v := by
  obtain ⟨before, last, u, rfl, hleads, hdata, hnavigation, hfound⟩ := h
  induction hleads with
  | nil => exact .cons hdata hnavigation hfound (.nil v)
  | cons hdata' hnavigation' hfound' _ ih =>
    exact .cons hdata' hnavigation' hfound' (ih hdata hnavigation)

/-- No path ends in both: the segments before the last one lead to one type only. -/
theorem EndsInNavigation.not_data {path : List String} {p : NavigationProperty}
    (h : c.EndsInNavigation t path p v) (q : DataProperty) : ¬ c.EndsInData t path q := by
  rintro ⟨before, last, w, hpath, hleads, hsome⟩
  obtain ⟨before', last', u, rfl, hleads', hnone, _⟩ := h
  obtain ⟨rfl, hlast⟩ := List.append_inj' hpath rfl
  cases hlast
  cases hleads.unique hleads'
  rw [hnone] at hsome
  cases hsome

/-- Segments that are walked from an entity type: navigations, then at most one data property.
Where there are navigations, the last of them decides the target. -/
theorem walk_entity {path : String} {segments : List String} {reached resolved : ResolvedPath}
    (h : c.walk path (.entity t) segments reached = .ok resolved) :
    ∃ navigations u, c.Leads t navigations u ∧
      (segments = navigations ∨
        ∃ last p, segments = navigations ++ [last] ∧ u.dataProperty? last = some p) ∧
      (navigations = [] ∧ resolved.target = reached.target ∧
          resolved.isCollection = reached.isCollection ∨
        ∃ p, c.EndsInNavigation t navigations p u ∧ resolved.target = .entity u ∧
          resolved.isCollection = !p.isScalar) := by
  induction segments generalizing t reached with
  | nil =>
    cases h
    exact ⟨[], t, .nil t, .inl rfl, .inl ⟨rfl, rfl, rfl⟩⟩
  | cons segment rest ih =>
    unfold walk at h
    split at h
    · cases h
    dsimp only at h
    split at h
    · rename_i p hdata
      split at h
      · cases h
        exact ⟨[], t, .nil t, .inr ⟨segment, p, rfl, hdata⟩, .inl ⟨rfl, rfl, rfl⟩⟩
      · cases h
    · rename_i p hdata hnavigation
      split at h
      · cases h
      · rename_i w hfound
        obtain ⟨navigations, u, hleads, hsegments, hlast⟩ := ih h
        refine ⟨segment :: navigations, u, .cons hdata hnavigation hfound hleads, ?_, .inr ?_⟩
        · rcases hsegments with rfl | ⟨last, q, rfl, hq⟩
          · exact .inl rfl
          · exact .inr ⟨last, q, rfl, hq⟩
        · rcases hlast with ⟨rfl, htarget, hmany⟩ | ⟨q, hends, htarget, hmany⟩
          · -- no navigation stands behind this one, so it decides
            cases hleads
            exact ⟨p, .single hdata hnavigation hfound, htarget, hmany⟩
          · exact ⟨q, hends.cons hdata hnavigation hfound, htarget, hmany⟩
    · cases h

theorem resolvePath_collection {path : String} {resolved : ResolvedPath}
    (h : c.resolvePath (.entity t) path = .ok resolved) (hmany : resolved.isCollection = true) :
    ∃ navigations v, c.EndsInCollection t navigations v ∧ resolved.target = .entity v ∧
      (pathSegments path = navigations ∨
        ∃ last p, pathSegments path = navigations ++ [last] ∧ v.dataProperty? last = some p) := by
  obtain ⟨navigations, v, _, hsegments, ⟨_, _, hno⟩ | ⟨p, hends, htarget, hlast⟩⟩ := walk_entity h
  · rw [hno] at hmany
    cases hmany
  · have hscalar : p.isScalar = false := by simpa [hmany] using hlast
    exact ⟨navigations, v, ⟨p, hends, hscalar⟩, htarget, hsegments⟩

end EntityCache.Catalog
