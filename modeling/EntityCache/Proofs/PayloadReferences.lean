import EntityCache.Proofs.ImportTraces

/-! References in the payloads of the Web API. A reference that stands among the nodes of an
answer is replaced by the node that it names before anything is imported; one that stands in
an expanded navigation property is not, and arrives as an entity of its own. -/
namespace EntityCache

open Cache EntityCache.Action

def Json.reference? (node : Json) : Option String := (node.field? "$ref").bind Json.str?

theorem Json.isObject_of_reference {node : Json} (h : node.reference? ≠ none) : node.isObject := by
  cases node with
  | obj fields => rfl
  | _ => exact absurd rfl h

/-- A value occurs in another one, at any depth, or is that one. -/
inductive Json.Within (v : Json) : Json → Prop
  | here : Within v v
  | item {w : Json} {items : List Json} : w ∈ items → Within v w → Within v (.arr items)
  | field {f : String × Json} {fields : List (String × Json)} :
    f ∈ fields → Within v f.2 → Within v (.obj fields)

theorem Json.within_arr {v : Json} {items : List Json} :
    v.Within (.arr items) ↔ v = .arr items ∨ ∃ w ∈ items, v.Within w := by
  constructor
  · intro h
    cases h with
    | here => exact Or.inl rfl
    | item hm hw => exact Or.inr ⟨_, hm, hw⟩
  · rintro (rfl | ⟨w, hm, hw⟩)
    · exact .here
    · exact .item hm hw

theorem Json.within_obj {v : Json} {fields : List (String × Json)} :
    v.Within (.obj fields) ↔ v = .obj fields ∨ ∃ f ∈ fields, v.Within f.2 := by
  constructor
  · intro h
    cases h with
    | here => exact Or.inl rfl
    | field hm hw => exact Or.inr ⟨_, hm, hw⟩
  · rintro (rfl | ⟨f, hm, hw⟩)
    · exact .here
    · exact .field hm hw

namespace PayloadFormat

def webApiItems? : Json → Option (List Json)
  | .arr items => some items
  | .obj fields =>
    match fields.lookup "Results" with
    | some (.arr items) => some items
    | _ => some [.obj fields]
  | _ => none

theorem extract_webApi {payload : Json} {items : List Json}
    (h : webApiItems? payload = some items) :
    ∃ count, extract webApi payload = .ok ⟨resolveReferences items, count⟩ := by
  cases payload with
  | arr vs =>
    cases h
    exact ⟨_, rfl⟩
  | obj fields =>
    have hextract : extract webApi (.obj fields) = match fields.lookup "Results" with
      | some (.arr vs) => .ok ⟨resolveReferences vs, (fields.lookup "InlineCount").bind count?⟩
      | _ => .ok ⟨resolveReferences [.obj fields], none⟩ := rfl
    have hitems : (match fields.lookup "Results" with
      | some (.arr vs) => some vs
      | _ => some [.obj fields]) = some items := h
    rw [hextract]
    generalize fields.lookup "Results" = results at hitems ⊢
    cases results with
    | none =>
      cases hitems
      exact ⟨none, rfl⟩
    | some v =>
      cases v with
      | arr vs =>
        cases hitems
        exact ⟨_, rfl⟩
      | _ =>
        cases hitems
        exact ⟨none, rfl⟩
  | _ => cases h

def Identifies (x : String × Json) : Prop := x.2.field? "$id" = some (.str x.1)

mutual
/-- The nodes with an identifier are those at any depth that carry one. -/
theorem mem_identified : ∀ (v : Json) {x : String × Json},
    x ∈ identified v ↔ x.2.Within v ∧ Identifies x
  | .obj fields, x => by
    have hhere : x ∈ identified (.obj fields) ↔
        x.2 = .obj fields ∧ Identifies x ∨ x ∈ identifiedFields fields := by
      unfold identified
      split
      · rename_i id hid
        rw [List.mem_cons]
        refine or_congr_left ⟨?_, ?_⟩
        · rintro rfl
          exact ⟨rfl, hid⟩
        · rintro ⟨hx, hcarries⟩
          rw [Identifies, hx, hid] at hcarries
          cases hcarries
          exact Prod.ext rfl hx
      · rename_i hno
        refine ⟨Or.inr, ?_⟩
        rintro (⟨hx, hcarries⟩ | h)
        · rw [Identifies, hx] at hcarries
          exact absurd hcarries (hno x.1)
        · exact h
    rw [hhere, mem_identifiedFields fields, Json.within_obj, or_and_right]
  | .arr items, x => by
    rw [identified, mem_identifiedItems items, Json.within_arr, or_and_right]
    refine (or_iff_right ?_).symm
    rintro ⟨hx, hcarries⟩
    rw [Identifies, hx] at hcarries
    cases hcarries
  | .null, x | .bool _, x | .int _, x | .float _, x | .str _, x => by
    refine ⟨fun h => (by cases h), ?_⟩
    rintro ⟨hwithin, hcarries⟩
    unfold Identifies at hcarries
    generalize x.2 = node at hwithin hcarries
    cases hwithin
    cases hcarries

theorem mem_identifiedItems : ∀ (items : List Json) {x : String × Json},
    x ∈ identifiedItems items ↔ (∃ v ∈ items, x.2.Within v) ∧ Identifies x
  | [], x => by simp [identifiedItems]
  | v :: rest, x => by
    rw [identifiedItems, List.mem_append, mem_identified v, mem_identifiedItems rest,
      ← or_and_right, List.exists_mem_cons_iff]

theorem mem_identifiedFields : ∀ (fields : List (String × Json)) {x : String × Json},
    x ∈ identifiedFields fields ↔ (∃ f ∈ fields, x.2.Within f.2) ∧ Identifies x
  | [], x => by simp [identifiedFields]
  | (name, v) :: rest, x => by
    rw [identifiedFields, List.mem_append, mem_identified v, mem_identifiedFields rest,
      ← or_and_right, List.exists_mem_cons_iff]
end

theorem dereference_eq (known : List (String × Json)) (node : Json) : dereference known node =
    match node.reference? with
    | some id => (known.reverse.lookup id).getD node
    | none => node := by
  unfold dereference Json.reference?
  cases node.field? "$ref" with
  | none => rfl
  | some v => cases v <;> rfl

/-- The references among these nodes name nodes that are there, and these are no references. -/
def Resolvable (items : List Json) : Prop := ∀ item ∈ items, ∀ id ∈ item.reference?,
  (∃ x ∈ identifiedItems items, x.1 = id) ∧
    ∀ x ∈ identifiedItems items, x.1 = id → x.2.reference? = none

instance (items : List Json) : Decidable (Resolvable items) :=
  inferInstanceAs (Decidable (∀ item ∈ items, ∀ id ∈ item.reference?, _ ∧ _))

/-- A node stands for itself, and a reference for a node at any depth of the items that carries
the identifier. -/
def StandsFor (items : List Json) (item node : Json) : Prop :=
  match item.reference? with
  | none => node = item
  | some id => (∃ v ∈ items, node.Within v) ∧ node.field? "$id" = some (.str id)

theorem lookup_reverse {known : List (String × Json)} {id : String}
    (h : ∃ x ∈ known, x.1 = id) :
    ∃ node, known.reverse.lookup id = some node ∧ (id, node) ∈ known := by
  cases hl : known.reverse.lookup id with
  | none =>
    obtain ⟨⟨_, node⟩, hm, rfl⟩ := h
    have hne := List.lookup_eq_none_iff.mp hl _ (List.mem_reverse.mpr hm)
    simp at hne
  | some node =>
    obtain ⟨before, after, hsplit, -⟩ := List.lookup_eq_some_iff.mp hl
    refine ⟨node, rfl, List.mem_reverse.mp ?_⟩
    rw [hsplit]
    simp

theorem dereference_standsFor {items : List Json} (h : Resolvable items) {item : Json}
    (hm : item ∈ items) : StandsFor items item (dereference (identifiedItems items) item) ∧
      (dereference (identifiedItems items) item).reference? = none := by
  rw [dereference_eq, StandsFor]
  cases hr : item.reference? with
  | none => exact ⟨rfl, hr⟩
  | some id =>
    obtain ⟨hnamed, hplain⟩ := h item hm id hr
    obtain ⟨node, hlookup, hknown⟩ := lookup_reverse hnamed
    dsimp only
    rw [hlookup]
    exact ⟨(mem_identifiedItems items).mp hknown, hplain _ hknown rfl⟩

theorem resolveReferences_standsFor {items : List Json} (h : Resolvable items) :
    List.Forall₂ (StandsFor items) items (resolveReferences items) := by
  rw [resolveReferences, List.forall₂_map_right_iff, List.forall₂_same]
  exact fun item hm => (dereference_standsFor h hm).1

theorem resolveReferences_plain {items : List Json} (h : Resolvable items) :
    ∀ node ∈ resolveReferences items, node.reference? = none := by
  intro node hm
  obtain ⟨item, hitem, rfl⟩ := List.mem_map.mp hm
  exact (dereference_standsFor h hitem).2

theorem resolveReferences_of_plain {nodes : List Json}
    (h : ∀ node ∈ nodes, node.reference? = none) : resolveReferences nodes = nodes := by
  have hsame : ∀ node ∈ nodes, dereference (identifiedItems nodes) node = id node := by
    intro node hm
    rw [dereference_eq, h node hm]
    rfl
  exact (List.map_congr_left hsame).trans nodes.map_id

end PayloadFormat

namespace Action

open PayloadFormat

def CachedFor (c : Cache) (root : EntityType × Json) (id : InstanceId) : Prop :=
  ∃ slot, c.Holds root.1.name slot id ∧
    c.slot? root.1.name (Entity.ofNode root.1 root.2).keyText = some slot

section HandedOut

variable {catalog : Catalog} {adapter : Adapter} {strategy : MergeStrategy} {c c' : Cache}
  {t : EntityType} {node : Json} {id : InstanceId}

theorem CachedFor.later {root : EntityType × Json} (h : CachedFor c root id)
    (hl : Later strategy c c') : CachedFor c' root id := by
  obtain ⟨slot, hs, hk⟩ := h
  exact ⟨slot, hl.holds hs, hl.slot? hk⟩

theorem Arrival.cachedFor (h : Arrival strategy t node c id c') : CachedFor c' (t, node) id := by
  obtain ⟨g, slot, hg, hi, hs⟩ := h.group
  exact ⟨slot, ⟨g, hg, hs⟩, (slot?_of_group hg _).trans hi⟩

/-- Attaching a node with all that is nested in it begins with the node, whose entity it hands
out, and goes on with the other steps. -/
theorem materialize_begins (hc : c.catalog = catalog) {fuel : Nat}
    (h : (materialize adapter strategy fuel t node).on c = (.ok id, c')) : ∃ nested d,
      nodeSteps catalog adapter fuel t node = .arrival t node :: nested ∧
      (arrive strategy t node).on c = (.ok id, d) ∧
      (nested.forM (ImportStep.perform strategy)).on d = (.ok ⟨⟩, c') := by
  have hagrees : AgreeOver catalog (discard (materialize adapter strategy fuel t node))
      ((nodeSteps catalog adapter fuel t node).forM (ImportStep.perform strategy)) :=
    materialize_agrees fuel t node
  have hsteps := hagrees.same c hc
  rw [on_discard, h] at hsteps
  cases fuel with
  | zero => cases h
  | succ fuel =>
    rw [nodeSteps] at hsteps ⊢
    rw [materialize_succ] at h
    split at h
    · cases h
    · rename_i hobject
      rw [if_neg hobject] at hsteps ⊢
      cases hx : (arrive strategy t node).on c with
      | mk r d =>
        cases r with
        | error fault =>
          rw [on_bind_error hx] at h
          cases h
        | ok x =>
          rw [on_bind_ok hx, on_bind] at h
          refine ⟨_, d, rfl, ?_, (hsteps.trans (on_bind_ok (perform_arrival hx) _)).symm⟩
          split at h
          · cases h
            rfl
          · cases h

/-- A node that could be attached with all that is nested in it is cached under its key. -/
theorem materialize_ok (hc : c.SoundIn catalog) (ht : catalog.type? t.name = some t)
    {fuel : Nat} (h : (materialize adapter strategy fuel t node).on c = (.ok id, c')) :
    c'.SoundIn catalog ∧ Later strategy c c' ∧ CachedFor c' (t, node) id := by
  obtain ⟨nested, d, hsteps, hx, hrest⟩ := materialize_begins hc.catalog h
  obtain ⟨hd, hl, harrival⟩ := arrive_continues hc ht hx
  have hregistered : ∀ u n, .arrival u n ∈ nested → catalog.type? u.name = some u := by
    intro u n hm
    have hall : .arrival u n ∈ nodeSteps catalog adapter fuel t node := by
      rw [hsteps]
      exact List.mem_cons_of_mem _ hm
    exact nodeSteps_registered fuel ht hall
  have ha := arrivals_ok hd hregistered hrest
  exact ⟨ha.sound, IsTrans.trans _ _ _ hl ha.later, harrival.cachedFor.later ha.later⟩

/-- The entities that an import hands out are those cached under the keys of its roots. -/
theorem importNodes_ok (hc : c.SoundIn catalog) {isProjection : Bool}
    {standard : Option EntityType} (hs : ∀ t, standard = some t → catalog.type? t.name = some t)
    {nodes : List Json} {result imported : Imported}
    (h : (importNodes adapter strategy isProjection standard nodes result).on c =
      (.ok imported, c')) : Later strategy c c' ∧ ∃ ids,
      imported.entities = result.entities ++ ids ∧
      List.Forall₂ (CachedFor c') (rootsOf catalog adapter isProjection standard nodes) ids := by
  induction nodes generalizing c result with
  | nil =>
    cases h
    exact ⟨Std.Refl.refl _, [], by simp, .nil⟩
  | cons node rest ih =>
    cases hr : rootType? catalog adapter isProjection standard node with
    | none =>
      rw [rootsOf_document hr]
      rw [importNodes_document (hc.catalog ▸ hr)] at h
      have hrest := ih hc h
      exact hrest
    | some t =>
      rw [rootsOf_root hr]
      rw [importNodes_root (hc.catalog ▸ hr)] at h
      cases hx : (materialize adapter strategy node.height t node).on c with
      | mk r d =>
        cases r with
        | error fault =>
          rw [on_bind_error hx] at h
          cases h
        | ok id =>
          rw [on_bind_ok hx] at h
          obtain ⟨hd, hl, hcached⟩ := materialize_ok hc (rootType?_registered hs hr) hx
          obtain ⟨hlater, ids, hids, hall⟩ := ih hd h
          exact ⟨IsTrans.trans _ _ _ hl hlater, id :: ids, by simp [hids],
            .cons (hcached.later hlater) hall⟩

theorem importResults_ok {c c' : Cache} {payload : Json} {q : Query} {imported : Imported}
    (hc : c.SoundIn catalog) (h : (importResults payload q adapter).on c = (.ok imported, c')) :
    ∃ roots, importRoots catalog payload q adapter = .ok roots ∧
      List.Forall₂ (CachedFor c') roots imported.entities := by
  rw [importResults] at h
  rw [importRoots, ← hc.catalog]
  cases hextract : adapter.extract payload with
  | error fault =>
    rw [hextract] at h
    cases h
  | ok extracted =>
    rw [hextract, on_bind_ok (on_lift _ c), on_bind_ok (on_get c)] at h
    cases htarget : q.target c.catalog with
    | error fault =>
      rw [htarget] at h
      cases h
    | ok target =>
      rw [htarget, on_bind_ok (on_lift _ c), on_bind_ok (on_get c)] at h
      obtain ⟨-, ids, hids, hall⟩ := importNodes_ok (hc.catalog ▸ hc)
        (fun _ ht => Query.target_registered htarget ht) h
      refine ⟨_, rfl, ?_⟩
      rw [hids]
      exact hall

end HandedOut

section References

variable {payload : Json} {items : List Json} {q : Query}

/-- Where an import starts depends on the nodes that are extracted and on nothing else. -/
theorem importRoots_congr {other : Json} {adapter : Adapter} {nodes : List Json}
    {count count' : Option Int64} (h : adapter.extract payload = .ok ⟨nodes, count⟩)
    (k : adapter.extract other = .ok ⟨nodes, count'⟩) (catalog : Catalog) (q : Query) :
    importRoots catalog payload q adapter = importRoots catalog other q adapter := by
  rw [importRoots, importRoots, h, k]
  rfl

theorem importRoots_extracted {catalog : Catalog} {adapter : Adapter}
    {content : PayloadContent} (h : adapter.extract payload = .ok content)
    {roots : List (EntityType × Json)} (hr : importRoots catalog payload q adapter = .ok roots)
    {root : EntityType × Json} (hm : root ∈ roots) : root.2 ∈ content.nodes := by
  obtain ⟨extracted, hextracted, hr⟩ := bind_ok hr
  obtain ⟨target, -, hr⟩ := bind_ok hr
  cases hextracted.symm.trans h
  cases hr
  obtain ⟨node, hnode, hroot⟩ := List.mem_filterMap.mp hm
  obtain ⟨t, -, rfl⟩ := Option.map_eq_some_iff.mp hroot
  exact hnode

/-- Nodes that an import takes in place of the items of a payload. It comes to the import of
these nodes, and if it succeeds, it hands out what is cached under their keys. A reference
arrives as data only where it is nested in what arrives, and there it always does. -/
structure ReadAs (c : Cache) (payload : Json) (q : Query) (items nodes : List Json) : Prop where
  standsFor : List.Forall₂ (StandsFor items) items nodes
  same : (discard (importResults payload q PayloadFormat.webApi) : Action PUnit).on c =
    (discard (importResults (.arr nodes) q PayloadFormat.webApi) : Action PUnit).on c
  handedOut : ∀ imported c',
    (importResults payload q PayloadFormat.webApi).on c = (.ok imported, c') →
    (∃ roots, importRoots c.catalog (.arr nodes) q PayloadFormat.webApi = .ok roots ∧
      List.Forall₂ (CachedFor c') roots imported.entities) ∧
    ∀ t node, .arrival t node ∈ importSteps c.catalog payload q PayloadFormat.webApi →
      c'.Knows t node
  references : (∀ t node, .arrival t node ∈ importSteps c.catalog payload q PayloadFormat.webApi →
      node.reference? = none) ↔
    ∀ t node u n, .arrival t node ∈ importSteps c.catalog payload q PayloadFormat.webApi →
      Nested c.catalog PayloadFormat.webApi t node u n → n.reference? = none

/-- References among the items of a payload are the nodes that they name, wherever in the
items these are. -/
theorem importResults_references {c : Cache} (hf : c.Formed) (hi : c.Indexed)
    (hitems : webApiItems? payload = some items) (hr : Resolvable items) :
    ∃ nodes, ReadAs c payload q items nodes := by
  have hc : c.SoundIn c.catalog := ⟨hf.sound hi, rfl⟩
  obtain ⟨count, hextract⟩ := extract_webApi hitems
  have hplain := resolveReferences_plain hr
  have hresolved : webApi.extract (.arr (resolveReferences items)) =
      .ok ⟨resolveReferences items, none⟩ := by
    change Except.ok (PayloadContent.mk (resolveReferences (resolveReferences items)) none) = _
    rw [resolveReferences_of_plain hplain]
  have hroots : importRoots c.catalog payload q PayloadFormat.webApi =
      importRoots c.catalog (.arr (resolveReferences items)) q PayloadFormat.webApi :=
    importRoots_congr hextract hresolved c.catalog q
  refine ⟨resolveReferences items, resolveReferences_standsFor hr, ?_, fun imported c' h => ?_,
    fun hno t node u n hm hn => ?_, fun hno u n hm => ?_⟩
  · rw [importResults_steps, importResults_steps, importSteps, importSteps, hroots]
  · obtain ⟨roots, hstart, hall⟩ := importResults_ok hc h
    have ha := importResults_arrivals hc h
    exact ⟨⟨roots, hroots.symm.trans hstart, hall⟩, fun t node hm => ha.known hm⟩
  · by_contra hreference
    exact hreference (hno u n (importSteps_nested hm hn (Json.isObject_of_reference hreference)))
  · rcases importSteps_origin hm with ⟨roots, hstart, hroot⟩ | ⟨t, node, harrives, hn⟩
    · exact hplain n (importRoots_extracted hextract hstart hroot)
    · exact hno t node u n harrives hn

def customerTwice : List Json :=
  [.obj [("$id", .str "1"), ("id", .int 7), ("name", .str "Ann")], .obj [("$ref", .str "1")]]

theorem customerTwice_readAs :
    let c := salesCache
    let q := Query.toType {} "Customer"
    c.Formed ∧ c.Indexed ∧ webApiItems? (.arr customerTwice) = some customerTwice ∧
      Resolvable customerTwice ∧ ∃ nodes, ReadAs c (.arr customerTwice) q customerTwice nodes := by
  intro c q
  have hresolvable : Resolvable customerTwice := by decide +kernel
  exact ⟨sound_salesCache.sound.formed, sound_salesCache.sound.indexed, rfl, hresolvable,
    importResults_references sound_salesCache.sound.formed sound_salesCache.sound.indexed rfl
      hresolvable⟩

def ann : Json := .obj [("$id", .str "2"), ("id", .int 7), ("name", .str "Ann")]

def twoOrders (customer : Json) : List Json := [
  .obj [("$id", .str "1"), ("id", .int 1), ("customer", ann)],
  .obj [("$id", .str "3"), ("id", .int 2), ("customer", customer)]]

/-- A reference to the customer is read as a customer without a key, where the customer once
more would be found in the cache. -/
theorem nested_reference_refused :
    let c := salesCache
    let q := Query.toType {} "Order"
    let reference := Json.obj [("$ref", .str "2")]
    c.Formed ∧ c.Indexed ∧ reference.reference? = some "2" ∧
      ("2", ann) ∈ identifiedItems (twoOrders reference) ∧
      ((importResults (.arr (twoOrders reference)) q PayloadFormat.webApi).on c).1.map
        (·.entities) = .error (.missingKey (.unassigned "Customer:()")) ∧
      ((importResults (.arr (twoOrders ann)) q PayloadFormat.webApi).on c).1.map
        (·.entities) = .ok [0, 2] := by
  intro c q reference
  refine ⟨sound_salesCache.sound.formed, sound_salesCache.sound.indexed, by decide +kernel, ?_,
    by decide +kernel, by decide +kernel⟩
  exact List.mem_cons_of_mem _ List.mem_cons_self

end References

end Action

end EntityCache
