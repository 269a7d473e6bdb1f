import EntityCache.Proofs.ImportTraces
import EntityCache.Proofs.UndrawnNumbers

/-! Nodes that carry only some of the properties of their entity. A node arrives as a whole
entity, in which what it does not carry is at its initial value, and a merge takes over all
of it. So an entity that a node overwrites keeps of its other values just those that are
initial values. -/
namespace EntityCache

open Cache EntityCache.Action

/-- A step brings a value by this name of the server's to the entity of a type and a key. -/
def ImportStep.carries (name key wireName : String) : ImportStep → Bool
  | .arrival t node =>
    t.name = name && (Entity.ofNode t node).keyText = key && (node.field? wireName).isSome
  | .failure _ => false

theorem ImportStep.source?_some {name key : String} {step : ImportStep} {source : Entity}
    (h : step.source? name key = some source) : ∃ t node, step = .arrival t node ∧
      source = Entity.ofNode t node ∧ t.name = name ∧ source.keyText = key := by
  cases step with
  | failure fault => cases h
  | arrival t node =>
    unfold source? at h
    dsimp only at h
    split at h
    · rename_i hsame
      cases h
      exact ⟨t, node, rfl, rfl, hsame⟩
    · cases h

theorem Entity.get?_ofNode_uncarried {t : EntityType} (hd : t.DistinctNames) {p : DataProperty}
    (hp : p ∈ t.dataProperties) {node : Json} (hn : node.field? p.wireName = none) :
    (Entity.ofNode t node).get? p.name = some p.initialValue := by
  have hnew : (Entity.new t).get? p.name = some p.initialValue := by
    obtain ⟨v, hv⟩ := Option.isSome_iff_exists.mp (complete_new t p hp)
    have hheld := held_new hd hp
    rw [held, hv] at hheld
    rw [hv, ← hheld]
    rfl
  have hnothing : t.nodeValue? node p.name = none := by
    rw [EntityType.nodeValue?, EntityType.dataProperty?_of_mem hd hp, Option.bind_some, hn]
    rfl
  rw [Entity.ofNode, get?_withNodeValues hd, hnothing, hnew]
  rfl

namespace Entity

variable {strategy : MergeStrategy} {e source : Entity} {name : String}

theorem get?_meet (hname : name ∈ e.type.dataProperties.map (·.name)) {v : Value}
    (hv : source.get? name = some v) : (e.meet strategy source).get? name =
      if strategy.overwrites e.state then some v else e.get? name := by
  unfold meet
  split
  · change (e.mergeFrom source).get? name = some v
    rw [get?_mergeFrom, if_pos hname, hv]
    rfl
  · rfl

/-- Several nodes leave of a property that none of them carries what one of them leaves. -/
theorem get?_meetAll (hd : e.type.DistinctNames) {p : DataProperty}
    (hp : p ∈ e.type.dataProperties) {sources : List Entity}
    (hs : ∀ source ∈ sources, source.Complete ∧ source.type = e.type)
    (hv : ∀ source ∈ sources, source.get? p.name = some p.initialValue) :
    (e.meetAll strategy sources).get? p.name =
      if sources ≠ [] ∧ strategy.overwrites e.state then some p.initialValue
      else e.get? p.name := by
  rcases List.eq_nil_or_concat' sources with rfl | ⟨before, last, rfl⟩
  · simp [meetAll]
  · rw [meetAll_concat hd hs, get?_meet (List.mem_map_of_mem hp) (hv last (by simp))]
    simp

end Entity

section Sources

variable {catalog : Catalog} {c : Cache} {name key : String} {steps : List ImportStep}

/-- What the steps bring for a cached entity are complete entities of its type. -/
theorem sourcesFor_typed (hc : c.SoundIn catalog) {slot : Nat} {id : InstanceId}
    (hs : c.Holds name slot id)
    (hr : ∀ t node, .arrival t node ∈ steps → catalog.type? t.name = some t) :
    ∀ source ∈ sourcesFor name key steps, source.Complete ∧ source.type = (c.entity id).type := by
  intro source hsource
  obtain ⟨step, hm, hstep⟩ := List.mem_filterMap.mp hsource
  obtain ⟨t, node, rfl, rfl, rfl, -⟩ := ImportStep.source?_some hstep
  obtain ⟨htype, hcomplete⟩ := Entity.ofNode_spec t node
  refine ⟨hcomplete, htype.trans (Option.some.inj ?_)⟩
  rw [← hr t node hm, ← hc.catalog, ← hc.sound.group_type hs]
  exact hc.sound.known id (hc.sound.given hs)

theorem get?_sourcesFor_uncarried {t : EntityType} (hd : t.DistinctNames) {p : DataProperty}
    (hp : p ∈ t.dataProperties)
    (hn : ∀ step ∈ steps, step.carries name key p.wireName = false) {source : Entity}
    (hsource : source ∈ sourcesFor name key steps) (ht : source.type = t) :
    source.get? p.name = some p.initialValue := by
  obtain ⟨step, hm, hstep⟩ := List.mem_filterMap.mp hsource
  obtain ⟨u, node, rfl, rfl, hname, hkey⟩ := ImportStep.source?_some hstep
  obtain rfl : u = t := (Entity.ofNode_spec u node).1.symm.trans ht
  have hnone := hn _ hm
  have hmissing : node.field? p.wireName = none := by
    simpa [ImportStep.carries, hname, hkey] using hnone
  exact Entity.get?_ofNode_uncarried hd hp hmissing

end Sources

namespace Action

/-- After an import that succeeds, a property of a cached entity that no node carried for its
key keeps its value exactly if there was no such node, or the strategy leaves the entity
alone, or the value was the initial one; else it has become the initial value. -/
theorem importResults_uncarried {c c' : Cache} {payload : Json} {q : Query} {adapter : Adapter}
    {imported : Imported} (hf : c.Formed) (hi : c.Indexed)
    (h : (importResults payload q adapter).on c = (.ok imported, c'))
    {name : String} {slot : Nat} {id : InstanceId} (hs : c.Holds name slot id)
    {p : DataProperty} (hp : p ∈ (c.entity id).type.dataProperties)
    (hn : ∀ step ∈ importSteps c.catalog payload q adapter,
      step.carries name (c.entity id).keyText p.wireName = false) :
    c'.Holds name slot id ∧
    ((c'.entity id).get? p.name = (c.entity id).get? p.name ↔
      sourcesFor name (c.entity id).keyText (importSteps c.catalog payload q adapter) = [] ∨
      (effectiveStrategy c q).overwrites (c.entity id).state = false ∨
      (c.entity id).get? p.name = some p.initialValue) ∧
    ((c'.entity id).get? p.name ≠ (c.entity id).get? p.name →
      (c'.entity id).get? p.name = some p.initialValue) := by
  have hc : c.SoundIn c.catalog := ⟨hf.sound hi, rfl⟩
  have ha := importResults_arrivals hc h
  have hd : (c.entity id).type.DistinctNames :=
    hc.sound.distinct (hc.sound.known id (hc.sound.given hs))
  have hregistered : ∀ t node, .arrival t node ∈ importSteps c.catalog payload q adapter →
      c.catalog.type? t.name = some t := fun _ _ hm => importSteps_registered hm
  generalize importSteps c.catalog payload q adapter = steps at ha hn hregistered ⊢
  have hsources : ∀ source ∈ sourcesFor name (c.entity id).keyText steps,
      source.Complete ∧ source.type = (c.entity id).type := sourcesFor_typed hc hs hregistered
  have hvalue : (c'.entity id).get? p.name =
      if sourcesFor name (c.entity id).keyText steps ≠ [] ∧
        (effectiveStrategy c q).overwrites (c.entity id).state
      then some p.initialValue else (c.entity id).get? p.name := by
    rw [ha.entity_own hi hs]
    exact Entity.get?_meetAll hd hp hsources fun source hm =>
      get?_sourcesFor_uncarried hd hp hn hm (hsources source hm).2
  refine ⟨ha.later.holds hs, ?_, fun hne => ?_⟩
  · rw [hvalue]
    split
    · rename_i hover
      simp [hover.1, hover.2, eq_comm]
    · rename_i hkept
      refine iff_of_true rfl ?_
      by_cases hnil : sourcesFor name (c.entity id).keyText steps = []
      · exact Or.inl hnil
      · exact Or.inr (Or.inl (Bool.eq_false_iff.mpr fun ho => hkept ⟨hnil, ho⟩))
  · rw [hvalue] at hne ⊢
    split
    · rfl
    · rename_i hkept
      exact absurd (if_neg hkept) hne

def bareCustomer : Json := .arr [.obj [("id", .int 7)]]

theorem bareCustomer_beside_edit :
    let c := editedCustomer
    let q := (Query.toType {} "Customer").withStrategy .preserveChanges
    let steps := importSteps c.catalog bareCustomer q PayloadFormat.odata
    c.Formed ∧ c.Indexed ∧ c.Holds "Customer" 0 0 ∧
      ∃ p ∈ (c.entity 0).type.dataProperties, p.name = "name" ∧
      (∀ step ∈ steps, step.carries "Customer" (c.entity 0).keyText p.wireName = false) ∧
      ∃ imported c', (importResults bareCustomer q PayloadFormat.odata).on c = (.ok imported, c') ∧
      c'.Holds "Customer" 0 0 ∧
      ((c'.entity 0).get? p.name = (c.entity 0).get? p.name ↔
        sourcesFor "Customer" (c.entity 0).keyText steps = [] ∨
        (effectiveStrategy c q).overwrites (c.entity 0).state = false ∨
        (c.entity 0).get? p.name = some p.initialValue) ∧
      ((c'.entity 0).get? p.name ≠ (c.entity 0).get? p.name →
        (c'.entity 0).get? p.name = some p.initialValue) := by
  intro c q steps
  have hslots : c.slotsOf "Customer" = some [some 0] := by decide +kernel
  have hs : c.Holds "Customer" 0 0 := holds_of_slotsOf hslots rfl
  have hproperty : ∃ p ∈ (c.entity 0).type.dataProperties, p.name = "name" ∧
      ∀ step ∈ steps, step.carries "Customer" (c.entity 0).keyText p.wireName = false := by
    decide +kernel
  obtain ⟨p, hp, hname, hn⟩ := hproperty
  have hruns : ((importResults bareCustomer q PayloadFormat.odata).on c).1.toOption.isSome := by
    decide +kernel
  refine ⟨sound_editedCustomer.sound.formed, sound_editedCustomer.sound.indexed, hs, p, hp, hname,
    hn, ?_⟩
  cases hrun : (importResults bareCustomer q PayloadFormat.odata).on c with
  | mk r c' =>
    rw [hrun] at hruns
    cases r with
    | error fault => cases hruns
    | ok imported =>
      exact ⟨imported, c', rfl, importResults_uncarried sound_editedCustomer.sound.formed
        sound_editedCustomer.sound.indexed hrun hs hp hn⟩

/-- A customer without pending changes loses the name to a node that does not speak of it. -/
theorem bareCustomer_erases_name :
    let c := salesCache.run [.create "Customer", .set 0 "id" (.integer 7),
      .set 0 "name" (.text "Ann"), .attach 0 .unchanged none]
    let q := (Query.toType {} "Customer").withStrategy .preserveChanges
    let c' := ((importResults bareCustomer q PayloadFormat.odata).on c).2
    c.Formed ∧ c.Indexed ∧ c.slotsOf "Customer" = some [some 0] ∧
      ((importResults bareCustomer q PayloadFormat.odata).on c).1.toOption.isSome ∧
      (∀ step ∈ importSteps c.catalog bareCustomer q PayloadFormat.odata,
        step.carries "Customer" (c.entity 0).keyText "name" = false) ∧
      (∃ p ∈ (c.entity 0).type.dataProperties, p.name = "name" ∧ p.wireName = "name") ∧
      ((c.entity 0).get? "name").map Value.keyText = some "Ann" ∧
      ((c'.entity 0).get? "name").map Value.isNull = some true := by
  intro c q c'
  have hsound : c.SoundIn sales := by
    refine run_keeps_sound sound_salesCache (by decide +kernel) fun n op hop => ?_
    match n, hop with
    | 0, hop => cases hop; trivial
    | 1, hop => cases hop; trivial
    | 2, hop => cases hop; trivial
    | 3, hop => cases hop; intro hs; cases hs
  exact ⟨hsound.sound.formed, hsound.sound.indexed, by decide +kernel, by decide +kernel,
    by decide +kernel, by decide +kernel, by decide +kernel, by decide +kernel⟩

end Action

end EntityCache
