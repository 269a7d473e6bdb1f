import EntityCache.Proofs.CacheRuns

/-! Imports leave pending work alone. Every node arrives as a new entity: it takes a free
slot and a free index entry, or is merged into what is cached under its key, which the
careful strategies do only to an entity without changes. -/
namespace EntityCache

open Cache EntityCache.Action

namespace Cache

/-- Entities with pending changes are in their slots as before, under the keys that they
had, and nothing about them has changed. -/
def PendingKept (c c' : Cache) : Prop := ∀ name slot id, c.Holds name slot id →
  (c.entity id).state.isPending → c'.Holds name slot id ∧ c'.entity id = c.entity id ∧
    ∀ key, c'.slot? name key = some slot ↔ c.slot? name key = some slot

instance : IsPreorder Cache PendingKept where
  refl _ := fun _ _ _ hs _ => ⟨hs, rfl, fun _ => Iff.rfl⟩
  trans _ _ _ h k := fun name slot id hs hp => by
    obtain ⟨hs', he, hk⟩ := h name slot id hs hp
    obtain ⟨hs'', he', hk'⟩ := k name slot id hs' (by rwa [he])
    exact ⟨hs'', he'.trans he, fun key => (hk' key).trans (hk key)⟩

def Careful (strategy : MergeStrategy) : Prop :=
  strategy = .preserveChanges ∨ strategy = .skipMerge

theorem Careful.not_pending {strategy : MergeStrategy} (h : Careful strategy)
    {state : EntityState} (ho : strategy.overwrites state) : ¬ state.isPending := by
  rcases h with rfl | rfl
  · have hs : state = .unchanged := by simpa [MergeStrategy.overwrites] using ho
    simp [hs, EntityState.isPending]
  · cases ho

namespace PendingKept

variable {c c' : Cache} {t : EntityType}

theorem of_opens (h : Opens t c c') : PendingKept c c' := by
  rintro name slot id ⟨g, hg, hs⟩ -
  refine ⟨⟨g, h.kept hg, hs⟩, by rw [entity, h.instances]; rfl, fun key => ?_⟩
  rw [slot?_of_group hg, slot?_of_group (h.kept hg)]

theorem of_added (h : c.Allotted) (e : Entity) :
    PendingKept c { c with instances := (c.instances.add e).2 } := by
  rintro name slot id ⟨g, hg, hs⟩ -
  refine ⟨⟨g, hg, hs⟩, ?_, fun _ => Iff.rfl⟩
  have hid := (h name g hg).given hs
  simp [entity, Instances.add, Nat.ne_of_lt hid]

/-- What has to be known of a group that takes the place of another one. -/
theorem of_keep {g g' : Group} {is : Instances} (hg : c.groups.get? t.name = some g)
    (hgroup : ∀ {slot id}, g.Holds slot id → g'.Holds slot id ∧
      ∀ key, g'.index.get? key = some slot ↔ g.index.get? key = some slot)
    (hpending : ∀ {name slot id}, c.Holds name slot id → (c.entity id).state.isPending →
      is.entity id = c.entity id) :
    PendingKept c { c with groups := putGroup t.name g' c.groups, instances := is } := by
  intro name slot id hs hp
  have he := hpending hs hp
  obtain ⟨g₁, hg₁, hs⟩ := hs
  by_cases hn : name = t.name
  · subst hn
    obtain rfl := Option.some.inj (hg.symm.trans hg₁)
    obtain ⟨hs', hk⟩ := hgroup hs
    have hnew : Table.get? (putGroup t.name g' c.groups) t.name = some g' := by
      rw [get?_putGroup, if_pos rfl]
    refine ⟨⟨g', hnew, hs'⟩, he, fun key => ?_⟩
    rw [slot?_of_group hg, slot?_of_group hnew]
    exact hk key
  · have hsame : Table.get? (putGroup t.name g' c.groups) name = some g₁ := by
      rw [get?_putGroup, if_neg hn, hg₁]
    refine ⟨⟨g₁, hsame, hs⟩, he, fun key => ?_⟩
    rw [slot?_of_group hg₁, slot?_of_group hsame]

/-- A newcomer that is not to be Added joins without touching pending work. -/
theorem of_joined (h : c.Allotted) {id : InstanceId} {strategy : MergeStrategy}
    (hs : Careful strategy) (hnew : ∀ name slot, ¬ c.Holds name slot id)
    (hj : Joined t id .unchanged strategy c none c') : PendingKept c c' := by
  cases hj with
  | refused ho => exact of_opens ho
  | @joined c₁ _ cached g g' is ho hg _ ha =>
    have hg₁ : g.Allotted c.instances.count := by
      rw [← ho.instances]
      exact h.opens ho _ _ hg
    have hfree : ∀ slot, ¬ g.Holds slot id := fun slot hm => hnew _ _ (ho.holds ⟨g, hg, hm⟩)
    refine IsTrans.trans _ _ _ (of_opens ho) (of_keep hg (fun hm => ?_) fun {_ _ i} hm hp => ?_)
    · cases ha with
      | again hheld => exact absurd hheld (hfree _)
      | merged => exact ⟨hm, fun _ => Iff.rfl⟩
      | kept => exact ⟨hm, fun _ => Iff.rfl⟩
      | placed hn =>
        obtain ⟨fresh, hempty, hindex, hholds, -⟩ := Group.place_spec hg₁.free_iff
          hg₁.free_nodup (c.instances.entity id).keyText id
        refine ⟨(hholds _ _).mpr (Or.inr hm), fun key => ?_⟩
        rw [hindex, Table.get?_put]
        split
        · rename_i hkey
          rw [hkey, hn]
          refine ⟨fun heq => ?_, fun heq => by cases heq⟩
          obtain rfl := Option.some.inj heq
          exact absurd hm (hempty _)
        · exact Iff.rfl
    · have hne : i ≠ id := by
        rintro rfl
        exact hnew _ _ (ho.holds hm)
      rw [entity, ho.instances] at hp ⊢
      cases ha with
      | again hheld => exact absurd hheld (hfree _)
      | @merged _ cached _ _ _ _ hov =>
        have hother : i ≠ cached := by
          rintro rfl
          exact hs.not_pending hov hp
        simp [hother]
      | kept => simp
      | placed => simp [hne]

end PendingKept

end Cache

namespace Action

variable {c : Cache} {q : Query}

theorem attach_keeps_pending (h : c.Allotted) {id : InstanceId} (hid : id < c.instances.count)
    (hnew : ∀ name slot, ¬ c.Holds name slot id) {strategy : MergeStrategy}
    (hs : Careful strategy) :
    (attach id .unchanged (some strategy)).KeepsAt Allotted PendingKept c := by
  refine ⟨(attach_allots h hid .unchanged (some strategy)).holds, ?_⟩
  rcases attach_cases id .unchanged (some strategy) c with hsame | hj | ⟨hadded, -⟩
  · rw [hsame]
    exact Std.Refl.refl c
  · exact .of_joined h hs hnew hj
  · cases hadded

theorem arrive_keeps_pending {strategy : MergeStrategy} (hs : Careful strategy) (t : EntityType)
    (node : Json) : (arrive strategy t node).Keeps Allotted PendingKept := by
  intro c h
  refine KeepsAt.bind_at (.of_on (on_addInstance _ c) (h.of_groups rfl (Nat.le_succ _))
    (.of_added h _)) fun id c' ha hc' => ?_
  rw [on_addInstance] at ha
  cases ha
  refine attach_keeps_pending hc' (Nat.lt_succ_self _) ?_ hs
  rintro name slot ⟨g, hg, hm⟩
  exact absurd ((h name g hg).given hm) (Nat.lt_irrefl _)

/-- An import under a careful strategy keeps all pending work, to whatever depth the payload
is nested, whatever its nodes are keyed by, and whether or not it breaks off. -/
theorem importResults_keeps_pending (h : c.Allotted) (hs : Careful (effectiveStrategy c q))
    (payload : Json) (adapter : Adapter) :
    PendingKept c ((importResults payload q adapter).on c).2 :=
  (importResults_keeps (fun _ _ => trivial) h
    (fun t node _ => arrive_keeps_pending hs t node) payload).related

/-- A part that waits for its key is met by a node that has the temporary one. -/
theorem added_part_kept_by_import :
    let c := sampleCache.run [.create "Part", .add 0]
    let payload := Json.arr [.obj [("id", .int (-1))], .obj [("id", .int 7)]]
    let c' := ((importResults payload (Query.toType {} "Part") PayloadFormat.odata).on c).2
    c.Allotted ∧ Careful (effectiveStrategy c (Query.toType {} "Part")) ∧
      (c.entity 0).state = .added ∧ c'.slotsOf "Part" = some [some 0, some 2] ∧
      PendingKept c c' := by
  intro c payload c'
  have h : c.Allotted := run_allotted (allotted_start _ _ _ _ _) (by decide +kernel)
  exact ⟨h, Or.inl (by decide +kernel), by decide +kernel, by decide +kernel,
    importResults_keeps_pending h (Or.inl (by decide +kernel)) payload _⟩

end Action

end EntityCache
