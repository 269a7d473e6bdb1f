import EntityCache.Proofs.Registry
import EntityCache.Proofs.TextPieces

/-! A catalog told from the registrations that it was built by: its types in their latest
versions, and what each resource delivers. Types are kept by the name that they declare and
looked up by what is left of a name without its namespace, so a type is found exactly if the
name it declares is short. -/
namespace EntityCache

/-- One step in building a catalog. The versions that have instances by then are frozen. -/
inductive Registration where
  | type (t : EntityType)
  | resource (resource typeName : String)
  | property (frozen : List TypeVersion) (typeName : String) (p : DataProperty)

def EntityType.unversioned (t : EntityType) : EntityType := { t with version := ⟨0, 0⟩ }

namespace Registration

def type? : Registration → Option EntityType
  | type t => some t
  | _ => none

def mapping? (resource : String) : Registration → Option String
  | .resource r typeName => if r = resource then some (Catalog.shortName typeName) else none
  | _ => none

def default? (resource : String) : Registration → Option String
  | type t => if t.defaultResource = some resource then some t.name else none
  | _ => none

def extension? (name : String) : Registration → Option DataProperty
  | property _ typeName p => if Catalog.shortName typeName = name then some p else none
  | _ => none

def declared (steps : List Registration) : List EntityType := steps.filterMap type?

def extensions (steps : List Registration) (name : String) : List DataProperty :=
  steps.filterMap (extension? name)

/-- The last mapping of a resource counts, or else the first type that has it by default. -/
def delivered? (steps : List Registration) (resource : String) : Option String :=
  (steps.filterMap (mapping? resource)).getLast?.or (steps.filterMap (default? resource)).head?

/-- The latest version of a type: extended by all properties that were added to it, with a name
on the server for each property. -/
def latest (naming : Naming) (steps : List Registration) (t : EntityType) : EntityType :=
  { t with
    dataProperties := (t.dataProperties ++ extensions steps t.name).map fun p =>
      { p with serverName := some (p.serverName.getD (naming.toServer p.name)) }
    navigationProperties := t.navigationProperties.map fun p =>
      { p with serverName := some (p.serverName.getD (naming.toServer p.name)) }
    version := ⟨0, 0⟩ }

end Registration

open Registration (declared extensions delivered? latest)

namespace Catalog

def register (c : Catalog) : Registration → Except Fault Catalog
  | .type t => t.checked >>= c.withType
  | .resource r typeName => c.withResource r typeName
  | .property frozen typeName p => c.withDataProperty frozen typeName p

def registerAll (c : Catalog) (steps : List Registration) : Except Fault Catalog :=
  steps.foldlM register c

section Names

/-- A name without a namespace, in either notation. -/
def IsShort (name : String) : Prop := '.' ∉ name.toList ∧ ¬ [':', '#'] <:+: name.toList

instance (name : String) : Decidable (IsShort name) := inferInstanceAs (Decidable (_ ∧ _))

variable {name : String} {t : EntityType}

theorem shortName_eq_self_iff : shortName name = name ↔ IsShort name := by
  unfold shortName IsShort
  cases h : Text.beforeFirst? [':', '#'] name.toList with
  | none => simp [Text.afterLast_eq_self_iff, Text.beforeFirst?_eq_none h]
  | some front =>
    obtain ⟨back, hname⟩ := Text.beforeFirst?_some h
    refine iff_of_false (fun heq => ?_) fun hshort => hshort.2 ⟨front, back, hname.symm⟩
    have hlength := congrArg List.length hname
    rw [← heq, String.toList_ofList] at hlength
    simp at hlength

theorem shortName_fullName (h : IsShort t.name) : shortName t.fullName = t.name := by
  unfold EntityType.fullName
  cases t.nameSpace with
  | none => exact shortName_eq_self_iff.mpr h
  | some ns =>
    have hfull : (t.name ++ ":#" ++ ns).toList = t.name.toList ++ ':' :: '#' :: ns.toList := by
      simp
    dsimp only
    rw [shortName, hfull, Text.beforeFirst?_append (by decide) h.2]
    exact String.ofList_toList

end Names

section History

variable {c c' : Catalog} {label : Nat} {naming : Naming} {steps : List Registration}
  {step : Registration} {t u : EntityType} {name resource : String}

theorem registerAll_concat :
    registerAll c (steps ++ [step]) = registerAll c steps >>= fun c' => c'.register step := by
  simp [registerAll, List.foldlM_append]

theorem withDataProperty_ok {isFrozen : Bool} {p : DataProperty}
    (h : t.withDataProperty isFrozen p = .ok u) :
    u = { t with dataProperties := t.dataProperties ++ [p] } := by
  unfold EntityType.withDataProperty at h
  split at h
  · cases h
  · split at h
    · cases h
    · exact (Except.ok.inj h).symm

theorem filterMap_concat {β : Type} (f : Registration → Option β) (steps : List Registration)
    (step : Registration) :
    (steps ++ [step]).filterMap f = steps.filterMap f ++ (f step).toList := by
  rw [List.filterMap_append]
  cases h : f step <;> simp [h]

theorem declared_concat : declared (steps ++ [step]) = declared steps ++ step.type?.toList :=
  filterMap_concat _ _ _

theorem extensions_concat :
    extensions (steps ++ [step]) name = extensions steps name ++ (step.extension? name).toList :=
  filterMap_concat _ _ _

theorem delivered?_concat : delivered? (steps ++ [step]) resource =
    ((step.mapping? resource).or (delivered? steps resource)).or (step.default? resource) := by
  rw [delivered?, filterMap_concat, filterMap_concat, List.getLast?_append, List.head?_append,
    delivered?]
  cases step.mapping? resource <;> cases step.default? resource <;> simp

theorem name_of_latest (h : u.unversioned = latest naming steps t) : u.name = t.name := by
  have hname : u.unversioned.name = (latest naming steps t).name := congrArg _ h
  exact hname

structure Tells (naming : Naming) (steps : List Registration) (c : Catalog) : Prop where
  registered : c.Registered
  follows : c.naming = naming
  types : c.types.map (·.unversioned) = (declared steps).map (latest naming steps)
  resources : ∀ r, c.resources.get? r = delivered? steps r
  delivered : ∀ r name, delivered? steps r = some name → name ∈ c.types.map (·.name)
  extended : ∀ name, name ∉ c.types.map (·.name) → extensions steps name = []

namespace Tells

theorem start (label : Nat) (naming : Naming) : Tells naming [] { label, naming } where
  registered := .empty label naming
  follows := rfl
  types := rfl
  resources _ := rfl
  delivered _ _ h := nomatch h
  extended _ _ := rfl

theorem exists_latest (h : Tells naming steps c) (ht : t ∈ declared steps) :
    ∃ u, c.type? t.name = some u ∧ u.unversioned = latest naming steps t := by
  have hmem : latest naming steps t ∈ c.types.map (·.unversioned) :=
    h.types ▸ List.mem_map_of_mem ht
  obtain ⟨u, hu, hlatest⟩ := List.mem_map.mp hmem
  exact ⟨u, h.registered.type?_eq_some_iff.mpr ⟨hu, name_of_latest hlatest⟩, hlatest⟩

theorem exists_declared (h : Tells naming steps c) (hu : u ∈ c.types) :
    ∃ t ∈ declared steps, u.unversioned = latest naming steps t := by
  have hmem : u.unversioned ∈ (declared steps).map (latest naming steps) :=
    h.types ▸ List.mem_map_of_mem hu
  obtain ⟨t, ht, hlatest⟩ := List.mem_map.mp hmem
  exact ⟨t, ht, hlatest.symm⟩

theorem withType (h : Tells naming steps c) (hu : t.checked = .ok t)
    (hc : c.withType t = .ok c') : Tells naming (steps ++ [.type t]) c' := by
  have hregistered := Registered.withType h.registered hu hc
  obtain rfl := h.follows
  unfold Catalog.withType at hc
  split at hc
  · cases hc
  · rename_i hnone
    cases hc
    have hnew : t.name ∉ c.types.map (·.name) := by simpa [Catalog.type?] using hnone
    have hextensions : ∀ name, extensions (steps ++ [.type t]) name = extensions steps name :=
      fun name => extensions_concat.trans (List.append_nil _)
    have hlatest : latest c.naming (steps ++ [.type t]) = latest c.naming steps := by
      funext u
      rw [latest, latest, hextensions]
    have hnames : ∀ name, name ∈ (c.types ++ [c.stamp (c.withServerNames t)]).map (·.name) ↔
        name ∈ c.types.map (·.name) ∨ name = t.name := by
      intro name
      rw [List.map_append, List.mem_append]
      exact or_congr_right List.mem_singleton
    refine ⟨hregistered, rfl, ?_, fun r => ?_, fun r name hr => ?_, fun name hn => ?_⟩
    · have hthis : (c.stamp (c.withServerNames t)).unversioned = latest c.naming steps t := by
        rw [latest, h.extended t.name hnew, List.append_nil]
        rfl
      rw [List.map_append, h.types, List.map_singleton, hthis, hlatest, declared_concat,
        List.map_append]
      rfl
    · rw [delivered?_concat, ← h.resources r]
      change (c.withDefaultResource t).get? r = ((none : Option String).or _).or
        (if t.defaultResource = some r then some t.name else none)
      rw [Option.none_or, withDefaultResource]
      cases t.defaultResource with
      | none => simp
      | some resource => simp [Table.get?_putNew, eq_comm]
    · rw [hnames]
      rw [delivered?_concat] at hr
      change ((none : Option String).or _).or
        (if t.defaultResource = some r then some t.name else none) = some name at hr
      rw [Option.none_or, Option.or_eq_some_iff] at hr
      rcases hr with hr | ⟨-, hr⟩
      · exact Or.inl (h.delivered r name hr)
      · split at hr
        · exact Or.inr (Option.some.inj hr).symm
        · cases hr
    · rw [hnames, not_or] at hn
      rw [hextensions]
      exact h.extended name hn.1

theorem withResource (h : Tells naming steps c)
    (hc : c.withResource resource name = .ok c') :
    Tells naming (steps ++ [.resource resource name]) c' := by
  have hregistered := Registered.withResource h.registered hc
  obtain ⟨t, hf, hok⟩ := bind_ok hc
  cases hok
  obtain ⟨htm, htn⟩ := type?_some (find_ok hf)
  have hextensions : ∀ other, extensions (steps ++ [.resource resource name]) other =
      extensions steps other := fun other => extensions_concat.trans (List.append_nil _)
  have hdelivered : ∀ r, delivered? (steps ++ [.resource resource name]) r =
      if r = resource then some t.name else delivered? steps r := by
    intro r
    rw [delivered?_concat, htn]
    change ((if resource = r then some (shortName name) else none).or _).or none = _
    by_cases hr : r = resource
    · simp [hr]
    · simp [hr, Ne.symm hr]
  refine ⟨hregistered, h.follows, ?_, fun r => ?_, fun r other hr => ?_, fun other hn => ?_⟩
  · have hlatest : latest naming (steps ++ [.resource resource name]) = latest naming steps := by
      funext u
      rw [latest, latest, hextensions]
    rw [hlatest, declared_concat]
    exact h.types.trans (congrArg _ (List.append_nil _).symm)
  · rw [hdelivered, ← h.resources r]
    exact Table.get?_put _ _ _ _
  · rw [hdelivered] at hr
    split at hr
    · cases hr
      exact List.mem_map_of_mem htm
    · exact h.delivered r other hr
  · rw [hextensions]
    exact h.extended other hn

theorem withDataProperty (h : Tells naming steps c) {frozen : List TypeVersion} {p : DataProperty}
    (hc : c.withDataProperty frozen name p = .ok c') :
    Tells naming (steps ++ [.property frozen name p]) c' := by
  have hregistered := Registered.withDataProperty h.registered hc
  obtain rfl := h.follows
  obtain ⟨t, hf, hok⟩ := bind_ok hc
  obtain ⟨t', ht', hok⟩ := bind_ok hok
  cases hok
  obtain ⟨htm, htn⟩ := type?_some (find_ok hf)
  obtain rfl := withDataProperty_ok ht'
  have hname : EntityType.name { t with
      dataProperties := t.dataProperties ++ [c.namedOnServer p] } = t.name := rfl
  have hnames := names_replaced c hname c.types
  have hdelivered : ∀ r, delivered? (steps ++ [.property frozen name p]) r = delivered? steps r :=
    fun r => delivered?_concat.trans (by
      change ((none : Option String).or _).or none = _
      simp)
  -- The new version takes the place of the one type of that name, and of no other.
  let extend (v : EntityType) : EntityType :=
    if v.name = t.name then { v with dataProperties := v.dataProperties ++ [c.namedOnServer p] }
    else v
  have hplaced : ∀ u ∈ c.types, (if u.name = t.name then c.stamp
      { t with dataProperties := t.dataProperties ++ [c.namedOnServer p] } else u).unversioned =
      extend u.unversioned := by
    intro u hu
    change _ = if u.name = t.name then _ else _
    by_cases hname : u.name = t.name
    · obtain rfl := List.inj_on_of_nodup_map h.registered.nodup_typeNames hu htm hname
      rw [if_pos hname, if_pos hname]
      rfl
    · rw [if_neg hname, if_neg hname]
  have hlatest : ∀ v, extend (latest c.naming steps v) =
      latest c.naming (steps ++ [.property frozen name p]) v := by
    intro v
    change (if v.name = t.name then _ else _) = _
    rw [latest, latest, extensions_concat, Registration.extension?, ← htn]
    by_cases hname : v.name = t.name
    · rw [if_pos hname, if_pos hname.symm, Option.toList_some, ← List.append_assoc]
      simp only [List.map_append]
      rfl
    · rw [if_neg hname, if_neg (Ne.symm hname), Option.toList_none, List.append_nil]
  refine ⟨hregistered, rfl, ?_, fun r => ?_, fun r other hr => ?_, fun other hn => ?_⟩
  · have hdeclared : declared (steps ++ [.property frozen name p]) = declared steps :=
      declared_concat.trans (List.append_nil _)
    rw [List.map_map, hdeclared]
    calc c.types.map _
      _ = c.types.map (extend ∘ (·.unversioned)) := List.map_congr_left hplaced
      _ = ((declared steps).map (latest c.naming steps)).map extend := by
        rw [← List.map_map, h.types]
      _ = (declared steps).map
          (latest c.naming (steps ++ [Registration.property frozen name p])) := by
        rw [List.map_map]
        exact List.map_congr_left fun v _ => hlatest v
  · rw [hdelivered]
    exact h.resources r
  · rw [hnames]
    exact h.delivered r other (hdelivered r ▸ hr)
  · rw [hnames] at hn
    have hne : ¬ shortName name = other := by
      rintro rfl
      exact hn (htn ▸ List.mem_map_of_mem htm)
    rw [extensions_concat, h.extended other hn, Registration.extension?, if_neg hne]
    rfl

theorem register (h : Tells naming steps c) (hc : c.register step = .ok c') :
    Tells naming (steps ++ [step]) c' := by
  cases step with
  | type t =>
    obtain ⟨u, hu, hok⟩ := bind_ok hc
    obtain rfl := (EntityType.distinct_of_checked hu).1
    exact h.withType hu hok
  | resource r typeName => exact h.withResource hc
  | property frozen typeName p => exact h.withDataProperty hc

end Tells

theorem registerAll_tells (h : registerAll { label, naming } steps = .ok c) :
    Tells naming steps c := by
  induction steps using List.reverseRecOn generalizing c with
  | nil =>
    cases h
    exact .start label naming
  | append_singleton steps step ih =>
    rw [registerAll_concat] at h
    obtain ⟨c', hsteps, hstep⟩ := bind_ok h
    exact (ih hsteps).register hstep

end History

/-- A type is found by this name, whatever its version is stamped with. -/
def Finds (c : Catalog) (name : String) (t : EntityType) : Prop :=
  ∃ u, c.find? name = some u ∧ u.unversioned = t

/-- What a catalog owes to the steps that it was built in. A type is found by the name that it
declares and by its full name exactly if it declares a name without a namespace. -/
structure Consistent (naming : Naming) (steps : List Registration) (c : Catalog) : Prop where
  types : c.types.map (·.unversioned) = (declared steps).map (latest naming steps)
  found : ∀ t ∈ declared steps, (c.Finds t.name (latest naming steps t) ∧
    c.Finds t.fullName (latest naming steps t)) ↔ IsShort t.name
  mapped : ∀ resource, c.resources.get? resource = delivered? steps resource
  resolved : ∀ resource name, c.resources.get? resource = some name →
    ∃ t ∈ declared steps, t.name = name ∧
      ∃ u, c.typeOfResource? resource = some u ∧ u.unversioned = latest naming steps t
  named : ∀ t ∈ c.types, (∀ p ∈ t.dataProperties, p.serverName.isSome) ∧
    ∀ p ∈ t.navigationProperties, p.serverName.isSome

section Consistency

variable {c : Catalog} {label : Nat} {naming : Naming} {steps : List Registration}
  {t u : EntityType} {name resource : String}

theorem Tells.found_iff (h : Tells naming steps c) (ht : t ∈ declared steps) :
    (c.Finds t.name (latest naming steps t) ∧ c.Finds t.fullName (latest naming steps t)) ↔
      IsShort t.name := by
  constructor
  · rintro ⟨⟨u, hu, hlatest⟩, -⟩
    have hname : u.name = shortName t.name := (type?_some hu).2
    exact shortName_eq_self_iff.mp (hname.symm.trans (name_of_latest hlatest))
  · intro hshort
    obtain ⟨u, hu, hlatest⟩ := h.exists_latest ht
    refine ⟨⟨u, ?_, hlatest⟩, u, ?_, hlatest⟩
    · rw [find?, shortName_eq_self_iff.mpr hshort]
      exact hu
    · rw [find?, shortName_fullName hshort]
      exact hu

theorem Tells.resolved (h : Tells naming steps c) (hr : c.resources.get? resource = some name) :
    ∃ t ∈ declared steps, t.name = name ∧
      ∃ u, c.typeOfResource? resource = some u ∧ u.unversioned = latest naming steps t := by
  have hmem := h.delivered resource name (h.resources resource ▸ hr)
  obtain ⟨v, hv, rfl⟩ := List.mem_map.mp hmem
  obtain ⟨t, ht, hvt⟩ := h.exists_declared hv
  have hname : v.name = t.name := name_of_latest hvt
  obtain ⟨u, hu, hlatest⟩ := h.exists_latest ht
  refine ⟨t, ht, hname.symm, u, ?_, hlatest⟩
  rw [typeOfResource?, hr, Option.bind_some]
  exact (congrArg c.type? hname).trans hu

theorem named_of_latest (h : u.unversioned = latest naming steps t) :
    (∀ p ∈ u.dataProperties, p.serverName.isSome) ∧
      ∀ p ∈ u.navigationProperties, p.serverName.isSome := by
  have hdata : u.unversioned.dataProperties = (latest naming steps t).dataProperties :=
    congrArg _ h
  have hnavigations : u.unversioned.navigationProperties =
      (latest naming steps t).navigationProperties := congrArg _ h
  refine ⟨fun p hp => ?_, fun p hp => ?_⟩
  · have hmem : p ∈ (latest naming steps t).dataProperties := hdata ▸ hp
    obtain ⟨q, -, rfl⟩ := List.mem_map.mp hmem
    rfl
  · have hmem : p ∈ (latest naming steps t).navigationProperties := hnavigations ▸ hp
    obtain ⟨q, -, rfl⟩ := List.mem_map.mp hmem
    rfl

/-- Every catalog built from nothing is consistent with the steps that it was built in. -/
theorem registerAll_consistent (h : registerAll { label, naming } steps = .ok c) :
    Consistent naming steps c := by
  have htells := registerAll_tells h
  refine ⟨htells.types, fun t => htells.found_iff, htells.resources,
    fun resource name => htells.resolved, fun u hu => ?_⟩
  obtain ⟨t, -, hlatest⟩ := htells.exists_declared hu
  exact named_of_latest hlatest

end Consistency

section Instances

def order : EntityType :=
  { name := "Order", nameSpace := some "Northwind", defaultResource := some "Orders"
    dataProperties := [{ name := "id", dataType := .int32, isKey := true }] }

def trade : List Registration :=
  [.type order, .type { order with name := "Invoice", nameSpace := none },
    .property [] "Northwind.Order" { name := "note", dataType := .string },
    .resource "Sales" "Invoice", .resource "Sales" "Order:#Northwind"]

theorem trade_consistent : ∃ c, registerAll { naming := .camelCase } trade = .ok c ∧
    Consistent .camelCase trade c ∧ delivered? trade "Orders" = some "Order" ∧
    delivered? trade "Sales" = some "Order" ∧ IsShort order.name :=
  ⟨_, rfl, registerAll_consistent rfl, by decide +kernel, by decide +kernel, by
    decide +kernel⟩

def dotted : EntityType := { order with name := "Northwind.Order", nameSpace := none }

/-- A type that declares its name with a namespace is registered, but not found by it. -/
theorem dotted_not_found : ∃ c, registerAll {} [.type dotted] = .ok c ∧
    dotted.fullName = dotted.name ∧ (c.types.map (·.name)) = [dotted.name] ∧
    c.find? dotted.name = none :=
  ⟨_, rfl, rfl, rfl, by decide +kernel⟩

end Instances

end Catalog

end EntityCache
