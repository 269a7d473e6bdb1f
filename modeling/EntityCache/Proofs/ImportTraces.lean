import EntityCache.Proofs.FailedAttaching
import EntityCache.Proofs.ImportSteps

/-! What is left of an import that fails. The nodes that arrived before the fault stay: a
cached entity has met every one of them that has its key, and nothing is taken back. So a
failed import leaves the cache as it was exactly if all of these nodes were cached before,
none of them changed its entity, and the step that failed opened no group. -/
namespace EntityCache

open Cache EntityCache.Action

namespace Entity

variable {strategy : MergeStrategy} {e : Entity}

def meetAll (strategy : MergeStrategy) (e : Entity) (sources : List Entity) : Entity :=
  sources.foldl (meet strategy) e

theorem meetAll_append (e : Entity) (first second : List Entity) :
    e.meetAll strategy (first ++ second) = (e.meetAll strategy first).meetAll strategy second :=
  List.foldl_append

theorem settles_meetAll (hd : e.type.DistinctNames) {sources : List Entity}
    (hs : ∀ source ∈ sources, source.Complete ∧ source.type = e.type) :
    Settles strategy e (e.meetAll strategy sources) := by
  induction sources generalizing e with
  | nil => exact .refl strategy e
  | cons source rest ih =>
    obtain ⟨hcomplete, htype⟩ := hs source List.mem_cons_self
    have hfirst := settles_meet strategy hd hcomplete htype
    refine hfirst.trans (ih (hfirst.type ▸ hd) fun other ho => ?_)
    rw [hfirst.type]
    exact hs other (List.mem_cons_of_mem source ho)

/-- Of several nodes the last is the one that counts. -/
theorem meetAll_concat (hd : e.type.DistinctNames) {sources : List Entity} {last : Entity}
    (hs : ∀ source ∈ sources ++ [last], source.Complete ∧ source.type = e.type) :
    e.meetAll strategy (sources ++ [last]) = e.meet strategy last := by
  obtain ⟨hcomplete, htype⟩ := hs last (by simp)
  have hbefore : ∀ source ∈ sources, source.Complete ∧ source.type = e.type :=
    fun source hsource => hs source (List.mem_append_left _ hsource)
  have hsettles : Settles strategy e (e.meetAll strategy sources) := settles_meetAll hd hbefore
  rw [meetAll_append]
  change (e.meetAll strategy sources).meet strategy last = _
  unfold meet
  rw [hsettles.overwrites]
  split
  · exact hsettles.absorb last hcomplete htype
  · rename_i ho
    have hnone : ∀ source, e.meet strategy source = e := fun source => if_neg ho
    clear hs hbefore hsettles
    induction sources with
    | nil => rfl
    | cons source rest ih =>
      rw [meetAll, List.foldl_cons, hnone]
      exact ih

end Entity

def ImportStep.source? (name key : String) : ImportStep → Option Entity
  | .arrival t node =>
    let e := Entity.ofNode t node
    if t.name = name ∧ e.keyText = key then some e else none
  | .failure _ => none

def sourcesFor (name key : String) (steps : List ImportStep) : List Entity :=
  steps.filterMap (ImportStep.source? name key)

theorem sourcesFor_cons (name key : String) (step : ImportStep) (rest : List ImportStep) :
    sourcesFor name key (step :: rest) =
      (step.source? name key).toList ++ sourcesFor name key rest := by
  rw [sourcesFor, List.filterMap_cons]
  cases step.source? name key <;> rfl

namespace Cache

def Knows (c : Cache) (t : EntityType) (node : Json) : Prop :=
  (c.slot? t.name (Entity.ofNode t node).keyText).isSome

def WouldOpen (c : Cache) (t : EntityType) : Prop :=
  c.groups.get? t.name = none ∧ t.isAbstract = false ∧ ∃ u, c.catalog.find t.name = .ok u

/-- The same groups with the same entities in them, and all that is cached as it was. -/
structure AsBefore (c c' : Cache) : Prop where
  groups : c'.groups = c.groups
  entity : ∀ id, c.IsCached id → c'.entity id = c.entity id

section Later

variable {strategy : MergeStrategy} {c c' : Cache} {name : String}

theorem Later.holds (h : Later strategy c c') {slot : Nat} {id : InstanceId}
    (hs : c.Holds name slot id) : c'.Holds name slot id := by
  obtain ⟨g, hg, hs⟩ := hs
  obtain ⟨g', hg', hext⟩ := h.groups hg
  exact ⟨g', hg', hext.holds hs⟩

theorem Later.slot? (h : Later strategy c c') {key : String} {slot : Nat}
    (hk : c.slot? name key = some slot) : c'.slot? name key = some slot := by
  obtain ⟨g, hg, hk⟩ := Option.bind_eq_some_iff.mp hk
  obtain ⟨g', hg', hext⟩ := h.groups hg
  exact (slot?_of_group hg' key).trans (hext.index hk)

theorem Later.knows (h : Later strategy c c') {t : EntityType} {node : Json}
    (hk : c.Knows t node) : c'.Knows t node := by
  obtain ⟨slot, hslot⟩ := Option.isSome_iff_exists.mp hk
  exact Option.isSome_iff_exists.mpr ⟨slot, h.slot? hslot⟩

end Later

end Cache

namespace Action

section Step

variable {catalog : Catalog} {strategy : MergeStrategy} {c c' : Cache} {t : EntityType}
  {node : Json} {x : InstanceId} {fault : Fault}

/-- What a node that arrives makes of a cache, of which everything else only continues. -/
theorem arrive_continues (hc : c.SoundIn catalog) (ht : catalog.type? t.name = some t)
    (h : (arrive strategy t node).on c = (.ok x, c')) :
    c'.SoundIn catalog ∧ Later strategy c c' ∧ Arrival strategy t node c x c' := by
  have hkept : (arrive strategy t node).KeepsAt (SoundIn catalog) (Later strategy) c :=
    arrive_later ht node c hc
  obtain ⟨hsound, hlater⟩ := hkept
  rw [h] at hsound hlater
  exact ⟨hsound, hlater, arrive_ok hc ht h⟩

theorem Arrival.knows (h : Arrival strategy t node c x c') : c'.Knows t node := by
  obtain ⟨g, slot, hg, hi, -⟩ := h.group
  exact Option.isSome_iff_exists.mpr ⟨slot, (slot?_of_group hg _).trans hi⟩

/-- A node is met by the entity that is cached under its key, and by nobody else. -/
theorem Arrival.entity_held (h : Arrival strategy t node c x c') (hc' : c'.SoundIn catalog)
    (hl : Later strategy c c') {name key : String} {slot : Nat} {id : InstanceId}
    (hs : c.Holds name slot id) (hk : c.slot? name key = some slot) : c'.entity id =
      (c.entity id).meetAll strategy ((ImportStep.arrival t node).source? name key).toList := by
  have hi := hc'.sound.indexed
  have hs' : c'.Holds name slot id := hl.holds hs
  have hk' : c'.slot? name key = some slot := hl.slot? hk
  obtain ⟨g, slot', hg, hindex, hx⟩ := h.group
  have hxs : c'.Holds t.name slot' x := ⟨g, hg, hx⟩
  have hxk : c'.slot? t.name (Entity.ofNode t node).keyText = some slot' :=
    (slot?_of_group hg _).trans hindex
  by_cases hsource : t.name = name ∧ (Entity.ofNode t node).keyText = key
  · obtain ⟨rfl, rfl⟩ := hsource
    obtain rfl := Option.some.inj (hxk.symm.trans hk')
    obtain ⟨g', hg', hm⟩ := hs'
    obtain rfl := Option.some.inj (hg.symm.trans hg')
    obtain rfl := hx.unique hm
    rw [h.met ⟨_, _, hs⟩, ImportStep.source?, if_pos ⟨rfl, rfl⟩]
    rfl
  · have hne : id ≠ x := by
      rintro rfl
      obtain ⟨rfl, rfl⟩ := hi.once hs' hxs
      have hown := (hi.current hs' _).mp hk'
      have hnode := (hi.current hs' _).mp hxk
      rw [hown] at hnode
      exact hsource ⟨rfl, (Except.ok.inj hnode).symm⟩
    rw [h.others id ⟨_, _, hs⟩ hne, ImportStep.source?, if_neg hsource]
    rfl

theorem arrive_groups (hc : c.SoundIn catalog)
    (h : (arrive strategy t node).on c = (.ok x, c')) (hk : c.Knows t node) :
    c'.groups = c.groups := by
  obtain ⟨slot, hslot⟩ := Option.isSome_iff_exists.mp hk
  obtain ⟨g, hg, hindex⟩ := Option.bind_eq_some_iff.mp hslot
  have hnode : (c.withNewcomer t node).instances.entity c.instances.count =
    Entity.ofNode t node := newcomer_entity c t node
  have hthere : (c.withNewcomer t node).groups.get? t.name = some g := hg
  rw [arrive_eq] at h
  cases hfind : c.catalog.find t.name with
  | error fault => rw [hfind] at h; cases h
  | ok u =>
    rw [hfind] at h
    obtain ⟨c₁, g₁, g', is, hopens, hg₁, ha, rfl⟩ := join_ok h
    have hsame := hopens.same (by simp [hthere])
    subst hsame
    obtain rfl := Option.some.inj (hthere.symm.trans hg₁)
    have hkept : g' = g := by
      have hattached := (Group.attach_spec ha).2
      cases hattached with
      | placed hnone =>
        rw [hnode, hindex] at hnone
        cases hnone
      | _ => rfl
    rw [hkept]
    exact putGroup_self hc.sound.ordered hg

/-- A node that is refused leaves a new instance behind, which nobody gets to see, and at
most an empty group. -/
theorem arrive_refused (h : (arrive strategy t node).on c = (.error fault, c')) :
    Opens t (c.withNewcomer t node) c' ∧ (c'.groups = c.groups ↔ ¬ c.WouldOpen t) := by
  rw [arrive_eq] at h
  cases hfind : c.catalog.find t.name with
  | error e =>
    rw [hfind] at h
    cases h
    refine ⟨.there, iff_of_true rfl ?_⟩
    rintro ⟨-, -, u, hu⟩
    cases hfind.symm.trans hu
  | ok u =>
    rw [hfind] at h
    rcases join_refused h with ⟨⟨-, habstract⟩, rfl⟩ | ⟨hgroup, d, hopens, hsame, hplain, -⟩
    · refine ⟨.there, iff_of_true rfl ?_⟩
      rintro ⟨-, hconcrete, -⟩
      cases habstract.symm.trans hconcrete
    · obtain rfl := hplain rfl
      refine ⟨hopens, hsame.trans ⟨fun hthere hopen => hthere hopen.1, fun hno hnone => ?_⟩⟩
      exact hno ⟨hnone, Bool.eq_false_iff.mpr fun ha => hgroup ⟨hnone, ha⟩, u, hfind⟩

end Step

section Run

variable {catalog : Catalog} {strategy : MergeStrategy} {c c' : Cache} {steps : List ImportStep}

/-- Nodes have arrived, and those that were cached have been met by their entities. -/
structure Arrivals (catalog : Catalog) (strategy : MergeStrategy) (steps : List ImportStep)
    (c c' : Cache) : Prop where
  sound : c'.SoundIn catalog
  later : Later strategy c c'
  known : ∀ {t node}, .arrival t node ∈ steps → c'.Knows t node
  groups : (∀ t node, .arrival t node ∈ steps → c.Knows t node) → c'.groups = c.groups
  entity : ∀ {name key slot id}, c.Holds name slot id → c.slot? name key = some slot →
    c'.entity id = (c.entity id).meetAll strategy (sourcesFor name key steps)

theorem arrivals_ok (hc : c.SoundIn catalog)
    (hr : ∀ t node, .arrival t node ∈ steps → catalog.type? t.name = some t)
    (h : (steps.forM (ImportStep.perform strategy)).on c = (.ok ⟨⟩, c')) :
    Arrivals catalog strategy steps c c' := by
  induction steps generalizing c with
  | nil =>
    cases h
    exact ⟨hc, Std.Refl.refl _, fun hm => (by cases hm), fun _ => rfl, fun _ _ => rfl⟩
  | cons step rest ih =>
    change (step.perform strategy >>= fun _ =>
      rest.forM (ImportStep.perform strategy)).on c = _ at h
    cases step with
    | failure fault => cases h
    | arrival t node =>
      have ht := hr t node List.mem_cons_self
      cases hx : (arrive strategy t node).on c with
      | mk r d =>
        have hperform := perform_arrival hx
        cases r with
        | error fault =>
          rw [on_bind_error hperform] at h
          cases h
        | ok x =>
          rw [on_bind_ok hperform] at h
          obtain ⟨hd, hl, harrival⟩ := arrive_continues hc ht hx
          have hrest := ih hd (fun u n hm => hr u n (List.mem_cons_of_mem _ hm)) h
          refine ⟨hrest.sound, IsTrans.trans _ _ _ hl hrest.later, fun {u n} hm => ?_,
            fun hall => ?_, fun {name key slot id} hs hk => ?_⟩
          · rcases List.mem_cons.mp hm with heq | hm
            · cases heq
              exact hrest.later.knows harrival.knows
            · exact hrest.known hm
          · have hgroups := arrive_groups hc hx (hall t node List.mem_cons_self)
            refine (hrest.groups fun u n hm => ?_).trans hgroups
            exact hl.knows (hall u n (List.mem_cons_of_mem _ hm))
          · rw [hrest.entity (hl.holds hs) (hl.slot? hk), harrival.entity_held hd hl hs hk,
              sourcesFor_cons, Entity.meetAll_append]

theorem Arrivals.entity_own (h : Arrivals catalog strategy steps c c') (hi : c.Indexed)
    {name : String} {slot : Nat} {id : InstanceId} (hs : c.Holds name slot id) : c'.entity id =
      (c.entity id).meetAll strategy (sourcesFor name (c.entity id).keyText steps) :=
  h.entity hs (hi.slot?_own hs)

/-- Nobody that was cached has taken anything over, and nobody else has joined. -/
theorem Arrivals.asBefore_iff (h : Arrivals catalog strategy steps c c') (hi : c.Indexed) :
    c.AsBefore c' ↔ (∀ t node, .arrival t node ∈ steps → c.Knows t node) ∧
      ∀ name slot id, c.Holds name slot id → (c.entity id).meetAll strategy
        (sourcesFor name (c.entity id).keyText steps) = c.entity id := by
  constructor
  · refine fun hb => ⟨fun t node hm => ?_, fun name slot id hs => ?_⟩
    · have hk := h.known hm
      rwa [Knows, slot?, hb.groups] at hk
    · rw [← h.entity_own hi hs]
      exact hb.entity id ⟨name, slot, hs⟩
  · rintro ⟨hknown, hsame⟩
    refine ⟨h.groups hknown, ?_⟩
    rintro id ⟨name, slot, hs⟩
    rw [h.entity_own hi hs]
    exact hsame name slot id hs

/-- The step that fails leaves everybody in place and as they were. -/
theorem failing_step {failing : ImportStep} {fault : Fault} (hc : c.SoundIn catalog)
    (h : (failing.perform strategy).on c = (.error fault, c')) : Later strategy c c' ∧
      (∀ id, c.IsCached id → c'.entity id = c.entity id) ∧
      (c'.groups = c.groups ↔ ∀ t node, failing = .arrival t node → ¬ c.WouldOpen t) := by
  cases failing with
  | failure e =>
    cases h
    exact ⟨Std.Refl.refl c, fun _ _ => rfl, iff_of_true rfl fun t node heq => by cases heq⟩
  | arrival t node =>
    cases hx : (arrive strategy t node).on c with
    | mk r d =>
      rw [perform_arrival hx] at h
      cases r with
      | ok x => cases h
      | error e =>
        cases h
        obtain ⟨hopens, hgroups⟩ := arrive_refused hx
        refine ⟨IsTrans.trans _ _ _ (Later.of_newcomer hc.sound t node) (.of_opens hopens),
          fun id hid => ?_, hgroups.trans ?_⟩
        · obtain ⟨name, slot, hs⟩ := hid
          rw [entity, hopens.instances]
          exact withNewcomer_entity (hc.sound.given hs) t node
        · refine ⟨fun hno u n heq => ?_, fun hno => hno t node rfl⟩
          cases heq
          exact hno

/-- The failing step does not mend what the nodes before it have changed. -/
theorem Arrivals.asBefore_of_failing {d : Cache} {failing : ImportStep} {fault : Fault}
    (h : Arrivals catalog strategy steps c d)
    (hf : (failing.perform strategy).on d = (.error fault, c')) :
    c.AsBefore c' ↔ c.AsBefore d ∧ ∀ t node, failing = .arrival t node → ¬ c.WouldOpen t := by
  obtain ⟨hlater, hkept, hgroups⟩ := failing_step h.sound hf
  have hentity : ∀ id, c.IsCached id → c'.entity id = d.entity id := by
    rintro id ⟨name, slot, hs⟩
    exact hkept id ⟨name, slot, h.later.holds hs⟩
  have hopen : d.groups = c.groups → ∀ t, d.WouldOpen t ↔ c.WouldOpen t := by
    intro hsame t
    rw [WouldOpen, WouldOpen, hsame, h.later.catalog]
  constructor
  · intro hb
    -- what arrived is still cached in the end, so it was cached in the beginning
    have hsame : d.groups = c.groups := by
      refine h.groups fun t node hm => ?_
      have hk := hlater.knows (h.known hm)
      rwa [Knows, slot?, hb.groups] at hk
    refine ⟨⟨hsame, fun id hid => (hentity id hid).symm.trans (hb.entity id hid)⟩, ?_⟩
    intro t node hm
    rw [← hopen hsame]
    exact hgroups.mp (hb.groups.trans hsame.symm) t node hm
  · rintro ⟨hb, hno⟩
    have hlast : c'.groups = d.groups := by
      refine hgroups.mpr fun t node hm => ?_
      rw [hopen hb.groups]
      exact hno t node hm
    exact ⟨hlast.trans hb.groups, fun id hid => (hentity id hid).trans (hb.entity id hid)⟩

theorem importResults_arrivals {payload : Json} {q : Query} {adapter : Adapter}
    {imported : Imported} (hc : c.SoundIn catalog)
    (h : (importResults payload q adapter).on c = (.ok imported, c')) :
    Arrivals catalog (effectiveStrategy c q) (importSteps catalog payload q adapter) c c' := by
  have hsteps := importResults_steps payload q adapter c
  rw [on_discard, h, hc.catalog] at hsteps
  exact arrivals_ok hc (fun _ _ hm => importSteps_registered hm) hsteps.symm

end Run

/-- An import that fails stops at the first step that fails, and takes nothing back: every
cached entity keeps its slot and has met the nodes for its key that had arrived by then. The
cache is as before exactly if the nodes that had arrived were all cached before, none of them
left anything on its entity, and the failing step opened no group. -/
theorem failed_importResults_asBefore_iff {c c' : Cache} {payload : Json} {q : Query}
    {adapter : Adapter} {fault : Fault} (hf : c.Formed) (hi : c.Indexed)
    (h : (importResults payload q adapter).on c = (.error fault, c')) :
    let strategy := effectiveStrategy c q
    ∃ arrived failing rest d,
      importSteps c.catalog payload q adapter = arrived ++ failing :: rest ∧
      (arrived.forM (ImportStep.perform strategy)).on c = (.ok ⟨⟩, d) ∧
      (failing.perform strategy).on d = (.error fault, c') ∧
      (∀ name slot id, c.Holds name slot id → c'.Holds name slot id ∧ c'.entity id =
        (c.entity id).meetAll strategy (sourcesFor name (c.entity id).keyText arrived)) ∧
      (c.AsBefore c' ↔ (∀ t node, .arrival t node ∈ arrived → c.Knows t node) ∧
        (∀ name slot id, c.Holds name slot id → (c.entity id).meetAll strategy
          (sourcesFor name (c.entity id).keyText arrived) = c.entity id) ∧
        ∀ t node, failing = .arrival t node → ¬ c.WouldOpen t) := by
  intro strategy
  have hc : c.SoundIn c.catalog := ⟨hf.sound hi, rfl⟩
  have hsteps := importResults_steps payload q adapter c
  rw [on_discard, h] at hsteps
  obtain ⟨arrived, failing, rest, d, hsplit, harrived, hfailing⟩ := forM_fails hsteps.symm
  have hregistered : ∀ t node, .arrival t node ∈ arrived → c.catalog.type? t.name = some t := by
    intro t node hm
    have hall : .arrival t node ∈ importSteps c.catalog payload q adapter := by
      rw [hsplit]
      exact List.mem_append_left _ hm
    exact importSteps_registered hall
  have ha := arrivals_ok hc hregistered harrived
  refine ⟨arrived, failing, rest, d, hsplit, harrived, hfailing, fun name slot id hs => ?_, ?_⟩
  · obtain ⟨hlater, hkept, -⟩ := failing_step ha.sound hfailing
    have hd := ha.later.holds hs
    exact ⟨hlater.holds hd, (hkept id ⟨name, slot, hd⟩).trans (ha.entity_own hi hs)⟩
  · rw [ha.asBefore_of_failing hfailing, ha.asBefore_iff hi, and_assoc]

def editedCustomer : Cache :=
  salesCache.run [.create "Customer", .set 0 "id" (.integer 7), .attach 0 .unchanged none,
    .set 0 "name" (.text "Bea")]

theorem sound_editedCustomer : editedCustomer.SoundIn sales :=
  PlainRun.sound (by decide +kernel) sound_salesCache

def brokenAnswer : Json := .arr [.obj [("id", .int 7), ("name", .str "Cy")], .int 42]

theorem brokenAnswer_preserving_changes :
    let c := editedCustomer
    let q := (Query.toType {} "Customer").withStrategy .preserveChanges
    let strategy := effectiveStrategy c q
    let c' := ((importResults brokenAnswer q PayloadFormat.odata).on c).2
    c.Formed ∧ c.Indexed ∧ ∃ fault,
      (importResults brokenAnswer q PayloadFormat.odata).on c = (.error fault, c') ∧
      ∃ arrived failing rest d,
        importSteps c.catalog brokenAnswer q PayloadFormat.odata = arrived ++ failing :: rest ∧
        (arrived.forM (ImportStep.perform strategy)).on c = (.ok ⟨⟩, d) ∧
        (failing.perform strategy).on d = (.error fault, c') ∧
        (∀ name slot id, c.Holds name slot id → c'.Holds name slot id ∧ c'.entity id =
          (c.entity id).meetAll strategy (sourcesFor name (c.entity id).keyText arrived)) ∧
        (c.AsBefore c' ↔ (∀ t node, .arrival t node ∈ arrived → c.Knows t node) ∧
          (∀ name slot id, c.Holds name slot id → (c.entity id).meetAll strategy
            (sourcesFor name (c.entity id).keyText arrived) = c.entity id) ∧
          ∀ t node, failing = .arrival t node → ¬ c.WouldOpen t) := by
  intro c q strategy c'
  have hfails : ((importResults brokenAnswer q PayloadFormat.odata).on c).1.toOption.isNone := by
    decide +kernel
  refine ⟨sound_editedCustomer.sound.formed, sound_editedCustomer.sound.indexed, ?_⟩
  cases hrun : (importResults brokenAnswer q PayloadFormat.odata).on c with
  | mk r last =>
    rw [hrun] at hfails
    cases r with
    | ok imported => cases hfails
    | error fault =>
      have hlast : c' = last := congrArg Prod.snd hrun
      rw [hlast]
      exact ⟨fault, rfl, failed_importResults_asBefore_iff sound_editedCustomer.sound.formed
        sound_editedCustomer.sound.indexed hrun⟩

/-- The edit of the customer is lost for good, though the import has failed, and so is the
original value that would have undone it. -/
theorem brokenAnswer_overwrites_edit :
    let c := editedCustomer
    let q := (Query.toType {} "Customer").withStrategy .overwriteChanges
    let c' := ((importResults brokenAnswer q PayloadFormat.odata).on c).2
    c.Formed ∧ c.Indexed ∧
      ((importResults brokenAnswer q PayloadFormat.odata).on c).1.toOption.isNone ∧
      ((c.entity 0).get? "name").map Value.keyText = some "Bea" ∧
      (c.entity 0).state = .modified ∧
      ((c'.entity 0).get? "name").map Value.keyText = some "Cy" ∧
      (c'.entity 0).state = .unchanged ∧
      ¬ c.AsBefore c' := by
  intro c q c'
  have hslots : c.slotsOf "Customer" = some [some 0] := by decide +kernel
  have hcached : c.IsCached 0 := ⟨"Customer", 0, holds_of_slotsOf hslots rfl⟩
  have hbefore : (c.entity 0).state = .modified := by decide +kernel
  have hafter : (c'.entity 0).state = .unchanged := by decide +kernel
  refine ⟨sound_editedCustomer.sound.formed, sound_editedCustomer.sound.indexed,
    by decide +kernel, by decide +kernel, hbefore, by decide +kernel, hafter, fun hb => ?_⟩
  have hsame := congrArg Entity.state (hb.entity 0 hcached)
  rw [hbefore, hafter] at hsame
  cases hsame

end Action

end EntityCache
