import EntityCache.Proofs.SaveParts

/-! What a save that succeeds leaves of a cache. Nothing is pending any more, what was
deleted is gone and all else is where it was; and the indexes are right unless a node that
came back has given the entity it was merged into another key. -/
namespace EntityCache

open Cache EntityCache.Action

namespace Cache

variable {catalog : Catalog} {c c' : Cache}

section Pending

theorem isCached_iff_mem (ho : c.groups.names.Pairwise (· < ·)) {id : InstanceId} :
    c.IsCached id ↔ ∃ entry ∈ c.groups, id ∈ entry.2.members := by
  have hmembers : ∀ g : Group, id ∈ g.members ↔ ∃ slot, g.Holds slot id := by
    intro g
    rw [Group.members_eq, List.mem_map]
    constructor
    · rintro ⟨⟨slot, _⟩, hlive, rfl⟩
      exact ⟨slot, Group.mem_live.mp hlive⟩
    · rintro ⟨slot, hs⟩
      exact ⟨(slot, id), Group.mem_live.mpr hs, rfl⟩
  constructor
  · rintro ⟨name, slot, g, hg, hs⟩
    exact ⟨(name, g), Table.mem_of_get? hg, (hmembers g).mpr ⟨slot, hs⟩⟩
  · rintro ⟨⟨name, g⟩, hentry, hm⟩
    obtain ⟨slot, hs⟩ := (hmembers g).mp hm
    exact ⟨name, slot, g, Table.get?_of_mem (ho.imp ne_of_lt) hentry, hs⟩

theorem mem_changes_iff (ho : c.groups.names.Pairwise (· < ·)) {id : InstanceId} :
    id ∈ c.changes ↔ c.IsCached id ∧ (c.entity id).state.isPending := by
  have hwanted : ∀ state : EntityState,
      [EntityState.added, .modified, .deleted].contains state = state.isPending := by
    intro state
    cases state <;> rfl
  rw [isCached_iff_mem ho]
  simp only [changes, entities, Group.membersIn, hwanted, List.filter_true, List.mem_flatMap,
    List.mem_filter, Instances.state]
  constructor
  · rintro ⟨entry, hentry, hm, hp⟩
    exact ⟨⟨entry, hentry, hm⟩, hp⟩
  · rintro ⟨⟨entry, hentry, hm⟩, hp⟩
    exact ⟨entry, hentry, hm, hp⟩

theorem hasChanges_eq_false (ho : c.groups.names.Pairwise (· < ·))
    (h : ∀ id, c.IsCached id → (c.entity id).state.isPending = false) :
    c.hasChanges = false := by
  refine List.any_eq_false.mpr fun entry hentry hany => ?_
  obtain ⟨id, hm, hp⟩ := List.any_eq_true.mp hany
  have hnot := h id ((isCached_iff_mem ho).mpr ⟨entry, hentry, hm⟩)
  exact Bool.false_ne_true (hnot.symm.trans hp)

end Pending

end Cache

namespace Cache

variable {catalog : Catalog} {c c' : Cache}

section Save

def assignAll (assignments : List KeyAssignment) : Action Unit :=
  assignments.forM fun m => discard (fixupKey m.typeName m.temp m.real)

theorem assignAll_relabels (assignments : List KeyAssignment) :
    (assignAll assignments).Keeps (SoundIn catalog) Relabels :=
  Keeps.forM fun m _ => (fixupKey_relabels m.typeName m.temp m.real).discard

/-- What every fix-up keeps that is not a bad one, a save keeps unless it comes to a bad one. -/
theorem assignAll_keepsAll {P : Cache → Prop} {bad : Cache → KeyAssignment → Prop}
    (hfix : ∀ d m, P d → ¬ bad d m → (fixupKey m.typeName m.temp m.real).KeepsAt P Grows d)
    {assignments : List KeyAssignment} (hc : P c)
    (hm : ∀ before m after, assignments = before ++ m :: after →
      ¬ bad ((assignAll before).on c).2 m) : (assignAll assignments).KeepsAt P Grows c := by
  induction assignments generalizing c with
  | nil => exact Keeps.pure () c hc
  | cons first rest ih =>
    refine (hfix c first hc (hm [] first rest rfl)).discard.bind_at fun _ c' ho hc' =>
      ih hc' fun before m after heq => ?_
    have hafter := hm (first :: before) m after (by rw [heq]; rfl)
    rwa [show (assignAll (first :: before)).on c = (assignAll before).on c' from
      on_bind_ok ho _] at hafter

variable {saved : List InstanceId} {result : SaveAnswer}

/-- The caches that a save goes through which succeeds: after the keys, and after the
states. -/
structure SavedBy (catalog : Catalog) (saved : List InstanceId) (result : SaveAnswer)
    (c c₁ c₂ c' : Cache) : Prop where
  assigned : (assignAll result.keyAssignments).on c = (.ok (), c₁)
  relabels : Relabels c c₁
  settled : SaveSettled saved c₁ c₂
  settledSave : (settleSave saved result).on c = (.ok (), c₂)
  sound : c₂.SoundIn catalog
  merged : (result.entities.forM mergeSaved).on c₂ = (.ok (), c')
  absorbs : Absorbs c₂ c'

theorem settleSave_ok (hc : c.SoundIn catalog)
    (h : (settleSave saved result).on c = (.ok (), c')) :
    ∃ c₁, (assignAll result.keyAssignments).on c = (.ok (), c₁) ∧ Relabels c c₁ ∧
      SaveSettled saved c₁ c' := by
  obtain ⟨hsound, hrelabels⟩ := assignAll_relabels result.keyAssignments c hc
  cases h₁ : (assignAll result.keyAssignments).on c with
  | mk r c₁ =>
    rw [h₁] at hsound hrelabels
    cases r with
    | error fault => cases (on_bind_error h₁ fun _ => saved.forM settle).symm.trans h
    | ok =>
      have hsettle : (saved.forM settle).on c₁ = (.ok (), c') := (on_bind_ok h₁ _).symm.trans h
      exact ⟨c₁, rfl, hrelabels, settleAll_settles hsound hsettle⟩

/-- What is assigned and settled makes no difference to what a node means. -/
theorem settleSave_identifies (hc : c.SoundIn catalog)
    (h : (settleSave saved result).on c = (.ok (), c')) {node : Json} (hn : c.Identifies node) :
    c'.Identifies node := by
  obtain ⟨c₁, -, hrelabels, hsettled⟩ := settleSave_ok hc h
  have hservice : c'.service = c.service := by rw [hsettled.rest, hrelabels.unmoved.rest]
  have hcatalog : c'.catalog = c.catalog := by rw [hsettled.rest, hrelabels.unmoved.rest]
  simpa only [Identifies, declaredType?, hservice, hcatalog] using hn

theorem applySave_ok (hc : c.SoundIn catalog)
    (h : (applySave saved result).on c = (.ok (), c')) :
    ∃ c₁ c₂, SavedBy catalog saved result c c₁ c₂ c' := by
  have hsound := (settleSave_keeps saved result c hc).holds
  rw [applySave_eq] at h
  cases hsave : (settleSave saved result).on c with
  | mk r c₂ =>
    rw [hsave] at hsound
    cases r with
    | error fault =>
      rw [on_bind_error hsave] at h
      cases h
    | ok =>
      rw [on_bind_ok hsave] at h
      obtain ⟨c₁, hassigned, hrelabels, hsettled⟩ := settleSave_ok hc hsave
      have habsorbs := mergeAll_absorbs result.entities c₂
      rw [h] at habsorbs
      exact ⟨c₁, c₂, hassigned, hrelabels, hsettled, hsave, hsound, h, habsorbs⟩

namespace SavedBy

variable {c₁ c₂ : Cache} (h : SavedBy catalog saved result c c₁ c₂ c')

include h

theorem holds_iff {name : String} {slot : Nat} {id : InstanceId} : c'.Holds name slot id ↔
    c.Holds name slot id ∧ ¬ (id ∈ saved ∧ (c.entity id).state = .deleted) := by
  rw [h.absorbs.rewrites.holds_iff, h.settled.holds, h.relabels.unmoved.holds_iff,
    h.relabels.state]

theorem isCached_iff {id : InstanceId} : c'.IsCached id ↔
    c.IsCached id ∧ ¬ (id ∈ saved ∧ (c.entity id).state = .deleted) := by
  simp [IsCached, h.holds_iff]

theorem state_eq (id : InstanceId) : (c'.entity id).state =
    (if id ∈ saved then (c.entity id).settled else c.entity id).state := by
  have hstate : ∀ a b : Entity, a.state = b.state → a.settled.state = b.settled.state := by
    intro a b hab
    unfold Entity.settled
    rw [hab]
    cases hb : b.state <;> simp [Entity.markDetached, Entity.acceptChanges, hab, hb]
  rw [h.absorbs.state, h.settled.entity]
  split
  · exact hstate _ _ (h.relabels.state id)
  · exact h.relabels.state id

/-- What a save brings leaves the indexes right exactly if it moves no key of an entity in
its slot. -/
theorem indexed_iff : c'.Indexed ↔ c.Harmless (.applySave saved result) := by
  have hmerge := mergeAll_indexed_iff h.sound result.entities
  rw [h.merged] at hmerge
  constructor
  · intro hi c₃ h₃
    obtain rfl := (Prod.mk.inj (h.settledSave.symm.trans h₃)).2
    exact hmerge.2 hi
  · exact fun hh => (hmerge.1 (hh c₂ h.settledSave)).1.sound.indexed

end SavedBy

structure Committed (c c' : Cache) : Prop where
  nothingPending : c'.hasChanges = false
  deleted : ∀ id, c.IsCached id → (c.entity id).state = .deleted →
    (c'.entity id).state = .detached ∧ ¬ c'.IsCached id
  changed : ∀ name slot id, c.Holds name slot id →
    (c.entity id).state = .added ∨ (c.entity id).state = .modified →
    c'.Holds name slot id ∧ (c'.entity id).state = .unchanged ∧ (c'.entity id).originals = []
  others : ∀ name slot id, c.Holds name slot id → (c.entity id).state.isPending = false →
    c'.Holds name slot id ∧ (c'.entity id).state = .unchanged

/-- A save of all that is pending, if it succeeds, leaves nothing pending. The indexes are
right after it exactly if no node that came back moved a key, and no node does that carries
the key of its entity. -/
theorem applySave_changes (hf : c.Formed) (hi : c.Indexed)
    (h : (applySave c.changes result).on c = (.ok (), c')) :
    c.Committed c' ∧ (c'.Indexed ↔ c.Harmless (.applySave c.changes result)) ∧
      ((∀ node ∈ result.entities, c.Identifies node) → c'.Indexed) := by
  obtain ⟨c₁, c₂, hs⟩ := applySave_ok ⟨hf.sound hi, rfl⟩ h
  have hordered : c'.groups.names.Pairwise (· < ·) := by
    rw [hs.absorbs.rewrites.groups]
    exact hs.sound.sound.ordered
  have hsaved : ∀ {id}, c.IsCached id → (c.entity id).state.isPending = true → id ∈ c.changes :=
    fun hcached hp => (mem_changes_iff hf.ordered).mpr ⟨hcached, hp⟩
  refine ⟨⟨?_, fun id hcached hd => ?_, fun name slot id hheld hchanged => ?_,
    fun name slot id hheld hp => ?_⟩, hs.indexed_iff, fun hn => ?_⟩
  · refine hasChanges_eq_false hordered fun id hcached => ?_
    rw [hs.state_eq]
    split
    · exact (c.entity id).isPending_settled
    · rename_i hnot
      exact Bool.eq_false_iff.mpr fun hp => hnot (hsaved (hs.isCached_iff.mp hcached).1 hp)
  · have hmem := hsaved hcached (by simp [hd, EntityState.isPending])
    refine ⟨?_, fun hstill => (hs.isCached_iff.mp hstill).2 ⟨hmem, hd⟩⟩
    rw [hs.state_eq, if_pos hmem, Entity.settled_of_deleted hd]
    rfl
  · have hmem := hsaved ⟨name, slot, hheld⟩ (by
      rcases hchanged with hc | hc <;> simp [hc, EntityState.isPending])
    have hnot : (c.entity id).state ≠ .deleted := by rcases hchanged with hc | hc <;> simp [hc]
    refine ⟨hs.holds_iff.mpr ⟨hheld, fun hd => hnot hd.2⟩, ?_, hs.absorbs.originals id ?_⟩
    · rw [hs.state_eq, if_pos hmem, Entity.settled_of_changed hchanged]
      exact Entity.state_acceptChanges_of_changed hchanged
    · have hchanged₁ := hchanged
      rw [← hs.relabels.state] at hchanged₁
      rw [hs.settled.entity, if_pos hmem, Entity.settled_of_changed hchanged₁]
      rfl
  · have hnot : (c.entity id).state ≠ .deleted := by
      intro hd
      simp [hd, EntityState.isPending] at hp
    refine ⟨hs.holds_iff.mpr ⟨hheld, fun hd => hnot hd.2⟩, ?_⟩
    have hsettled : (if id ∈ c.changes then (c.entity id).settled else c.entity id) =
        c.entity id := by
      rw [Entity.settled_of_not_pending hp, ite_self]
    have htracked := hi.tracked hheld
    rw [hs.state_eq, hsettled]
    cases hstate : (c.entity id).state <;> simp_all [EntityState.isPending]
  · have hkept := mergeAll_sound hs.sound.sound fun node hm =>
      settleSave_identifies ⟨hf.sound hi, rfl⟩ hs.settledSave (hn node hm)
    rw [hs.merged] at hkept
    exact hkept.indexed

/-- A new customer with an order that refers to it, and two more orders, one edited and one
deleted. -/
def pendingSales : Cache :=
  salesCache.run [.create "Customer", .add 0,
    .create "Order", .set 1 "id" (.integer 7), .set 1 "customerId" (.integer (-1)),
    .attach 1 .unchanged none,
    .create "Order", .set 2 "id" (.integer 8), .attach 2 .unchanged none,
    .set 2 "customerId" (.integer 4),
    .create "Order", .set 3 "id" (.integer 9), .attach 3 .unchanged none, .delete 3]

theorem sound_pendingSales : pendingSales.SoundIn sales :=
  PlainRun.sound (by decide +kernel) sound_salesCache

def customerNode : Json :=
  .obj [("__metadata", .obj [("type", .str "Customer")]), ("id", .int 5), ("name", .str "Ann")]

def customerSaved : SaveAnswer where
  entities := [customerNode]
  keyAssignments := [⟨"Customer", .integer (-1), .integer 5⟩]

theorem pendingSales_committed :
    let c' := ((applySave pendingSales.changes customerSaved).on pendingSales).2
    pendingSales.Formed ∧ pendingSales.Indexed ∧ pendingSales.changes = [0, 2, 3] ∧
      (applySave pendingSales.changes customerSaved).on pendingSales = (.ok (), c') ∧
      pendingSales.Committed c' ∧ c'.Indexed ∧ c'.slot? "Customer" "5" = some 0 := by
  have hc := sound_pendingSales
  have hrun := on_of_toOption (show ((applySave pendingSales.changes customerSaved).on
    pendingSales).1.toOption = some () by decide +kernel)
  have hidentified : ∀ node ∈ customerSaved.entities, pendingSales.Identifies node := by
    intro node hm t ht
    obtain rfl := List.mem_singleton.mp hm
    obtain ⟨name, hname, ht⟩ := Option.bind_eq_some_iff.mp ht
    have hcustomer : pendingSales.service.format.nodeType? customerNode = some "Customer" := by
      decide +kernel
    obtain rfl := Option.some.inj (hcustomer.symm.trans hname)
    rw [hc.catalog] at ht ⊢
    cases ht
    exact ⟨rfl, Or.inl rfl⟩
  obtain ⟨hcommitted, -, hindexed⟩ := applySave_changes hc.sound.formed hc.sound.indexed hrun
  exact ⟨hc.sound.formed, hc.sound.indexed, by decide +kernel, hrun, hcommitted,
    hindexed hidentified, by decide +kernel⟩

def addedPair : Cache :=
  sampleCache.run [.create "Pair", .set 0 "a" (.text "q"), .set 0 "b" (.text "r:::"),
    .attach 0 .added none]

theorem sound_addedPair : addedPair.SoundIn sample :=
  PlainRun.sound (by decide +kernel) (sound_start sample_registered _ _ _ _)

/-- A node that lacks half its key, and with which its key reads like that of the pair. -/
def halfPair : SaveAnswer where
  entities := [.obj [("__metadata", .obj [("type", .str "Pair")]), ("a", .str "q:::r")]]

/-- The pair is saved and is not to be found any more by the key that it has then. -/
theorem addedPair_lost :
    let c' := ((applySave addedPair.changes halfPair).on addedPair).2
    addedPair.Formed ∧ addedPair.Indexed ∧ addedPair.changes = [0] ∧
      (applySave addedPair.changes halfPair).on addedPair = (.ok (), c') ∧
      c'.Holds "Pair" 0 0 ∧ c'.slot? "Pair" (c'.entity 0).keyText = none ∧ ¬ c'.Indexed := by
  intro c'
  have hc := sound_addedPair
  have hslots : c'.slotsOf "Pair" = some [some 0] := by decide +kernel
  have hheld : c'.Holds "Pair" 0 0 := holds_of_slotsOf hslots rfl
  have hlost : c'.slot? "Pair" (c'.entity 0).keyText = none := by decide +kernel
  refine ⟨hc.sound.formed, hc.sound.indexed, by decide +kernel,
    on_of_toOption (by decide +kernel), hheld, hlost, fun hi => ?_⟩
  have hnow := (hi.current hheld _).mpr ((keyText_eq_iff _ _).mpr rfl)
  exact absurd (hlost.symm.trans hnow) nofun

end Save

end Cache

end EntityCache
