import EntityCache.Proofs.SavedChanges

/-! A cache is indexed after every operation of a run exactly as long as no operation rewrites
the key of an entity in its slot. What is asked of the operations for that can be told from what
they find, and it holds of those that cannot come to a key: an entity is added again whose key is
set, edits are undone that none of its parts has a share in, and the nodes of a save carry the
keys of their entities. -/
namespace EntityCache

open Cache EntityCache.Action

namespace Entity

def KeySet (e : Entity) : Prop :=
  e.type.keyProperties.length = 1 → ∀ p ∈ e.type.keyProperties, isUnset p (held e p) = false

instance (e : Entity) : Decidable e.KeySet :=
  inferInstanceAs (Decidable (e.type.keyProperties.length = 1 →
    ∀ p ∈ e.type.keyProperties, isUnset p (held e p) = false))

def KeyUnedited (e : Entity) : Prop := ∀ p ∈ e.type.keyProperties, ¬ e.originals.has p.name

instance (e : Entity) : Decidable e.KeyUnedited :=
  inferInstanceAs (Decidable (∀ p ∈ e.type.keyProperties, ¬ e.originals.has p.name))

end Entity

namespace Cache

variable {catalog : Catalog} {c : Cache} {op : Op}

/-- The operation cannot come to the key of an entity in its slot. -/
def Spares (c : Cache) : Op → Prop
  | .attach id state _ => state = .added → c.IsCached id → (c.entity id).KeySet
  | .add id => c.IsCached id → (c.entity id).KeySet
  | .rejectEntity id => (c.entity id).KeyUnedited
  | .rejectChanges => ∀ id ∈ c.changes, (c.entity id).KeyUnedited
  | .applySave _ result => ∀ node ∈ result.entities, c.Identifies node
  | _ => True

/-- No key is drawn for an entity whose key is set. -/
theorem keyRestored_of_keySet {id : InstanceId} (h : (c.entity id).KeySet) : KeyRestored c id := by
  intro p v hd
  have hset := h (by rw [hd.single]; rfl) p (by simp [hd.single])
  exact absurd hd.unset (by simp [hset])

theorem Spares.harmless (hc : c.SoundIn catalog) (h : c.Spares op) : c.Harmless op := by
  cases op with
  | attach id state strategy =>
    exact fun hadded hcached => keyRestored_of_keySet (h hadded hcached)
  | add id => exact fun hcached => keyRestored_of_keySet (h hcached)
  | rejectEntity id => exact fun _ _ => Entity.keyTextWith_original h
  | rejectChanges => exact fun id hid _ _ => Entity.keyTextWith_original (h id hid)
  | applySave saved result =>
    intro c₁ h₁
    have hc₁ := (settleSave_keeps saved result c hc).holds
    rw [h₁] at hc₁
    have hmerged := mergeAll_sound hc₁.sound fun node hm => settleSave_identifies hc h₁ (h node hm)
    exact (mergeAll_indexed_iff hc₁ result.entities).2 hmerged.indexed
  | _ => trivial

theorem harmless_of_spares (hc : c.SoundIn catalog) {ops : List Op} (hv : c.Valid ops)
    (h : ∀ n op, ops[n]? = some op → (c.run (ops.take n)).Spares op) :
    ∀ n op, ops[n]? = some op → (c.run (ops.take n)).Harmless op := by
  induction ops generalizing c with
  | nil => simp
  | cons first rest ih =>
    have hfirst : c.Harmless first := Spares.harmless hc (h 0 first rfl)
    have hrest := ih (next_keeps_sound hc hv.1 hfirst).1 hv.2
      fun n op hop => h (n + 1) op (by simpa using hop)
    intro n op hop
    cases n with
    | zero =>
      obtain rfl : first = op := by simpa using hop
      exact hfirst
    | succ n => exact hrest n op (by simpa using hop)

/-- The cache is indexed after every operation of a run exactly if no operation of the run
rewrites the key of an entity in its slot, and none does that cannot come to one. -/
theorem run_indexed_iff (hr : catalog.Registered) (settings : Settings) (supply : Supply)
    (builders : UriBuilders) (service : Service) {ops : List Op}
    (hv : (start catalog settings supply builders service).Valid ops) :
    ((∀ n ≤ ops.length,
      ((start catalog settings supply builders service).run (ops.take n)).Indexed) ↔
    ∀ n op, ops[n]? = some op →
      ((start catalog settings supply builders service).run (ops.take n)).Harmless op) ∧
    ((∀ n op, ops[n]? = some op →
      ((start catalog settings supply builders service).run (ops.take n)).Spares op) →
    ∀ n ≤ ops.length,
      ((start catalog settings supply builders service).run (ops.take n)).Indexed) := by
  have hstart := sound_start hr settings supply builders service
  have hiff := run_indexed_iff_of_sound hstart hv
  exact ⟨hiff, fun h => hiff.mpr (harmless_of_spares hstart hv h)⟩

def addedTwice : List Op :=
  [.create "Part", .set 0 "id" (.integer 7), .add 0, .add 0, .rejectEntity 0]

theorem added_twice_indexed : sample.Registered ∧ sampleCache.Valid addedTwice ∧
    ∀ n ≤ 5, (sampleCache.run (addedTwice.take n)).Indexed := by
  have hv : sampleCache.Valid addedTwice := by decide +kernel
  refine ⟨sample_registered, hv,
    (run_indexed_iff sample_registered _ _ _ _ hv).2 fun n op hop => ?_⟩
  match n, hop with
  | 0, hop | 1, hop => cases hop; trivial
  | 2, hop =>
    cases hop
    have hset : ((sampleCache.run (addedTwice.take 2)).entity 0).KeySet := by decide +kernel
    exact fun _ => hset
  | 3, hop =>
    cases hop
    have hset : ((sampleCache.run (addedTwice.take 3)).entity 0).KeySet := by decide +kernel
    exact fun _ => hset
  | 4, hop =>
    cases hop
    have hunedited : ((sampleCache.run (addedTwice.take 4)).entity 0).KeyUnedited := by
      decide +kernel
    exact hunedited

/-- A part whose key is 0, which counts as unset, is added when it is cached already. -/
def addedAgain : List Op :=
  [.create "Part", .set 0 "id" (.integer 0), .attach 0 .unchanged none, .add 0]

def editUndone : List Op :=
  [.create "Part", .markUnchanged 0, .set 0 "id" (.integer 5), .attach 0 .unchanged none,
    .rejectEntity 0]

/-- A saved node lacks half its key, and its key reads like that of another pair. -/
def pairMistaken : List Op :=
  [.create "Pair", .set 0 "a" (.text "q"), .set 0 "b" (.text "r:::"), .attach 0 .unchanged none,
    .applySave [] { entities := [.obj [("__metadata", .obj [("type", .str "Pair")]),
      ("a", .str "q:::r")]] }]

/-- Each of the three ways to rewrite a key in its slot does happen. -/
theorem rewritten_keys_not_indexed : sample.Registered ∧
    (sampleCache.Valid addedAgain ∧ ¬ (sampleCache.run addedAgain).Indexed) ∧
    (sampleCache.Valid editUndone ∧ ¬ (sampleCache.run editUndone).Indexed) ∧
    (sampleCache.Valid pairMistaken ∧ ¬ (sampleCache.run pairMistaken).Indexed) := by
  refine ⟨sample_registered, ⟨by decide +kernel, fun h => ?_⟩,
    ⟨by decide +kernel, ?_⟩, ⟨by decide +kernel, ?_⟩⟩
  · have hslots : (sampleCache.run addedAgain).slotsOf "Part" = some [some 0, some 0] := by
      decide +kernel
    have hfirst : (sampleCache.run addedAgain).Holds "Part" 0 0 := holds_of_slotsOf hslots rfl
    have hsecond : (sampleCache.run addedAgain).Holds "Part" 1 0 := holds_of_slotsOf hslots rfl
    exact absurd (h.once hfirst hsecond).2 (by decide)
  · have hslots : (sampleCache.run editUndone).slotsOf "Part" = some [some 0] := by
      decide +kernel
    have hholds : (sampleCache.run editUndone).Holds "Part" 0 0 := holds_of_slotsOf hslots rfl
    have hkey : (sampleCache.run editUndone).slot? "Part" "5" = some 0 := by decide +kernel
    exact not_indexed_of_key hholds hkey (by decide +kernel)
  · have hslots : (sampleCache.run pairMistaken).slotsOf "Pair" = some [some 0] := by
      decide +kernel
    have hholds : (sampleCache.run pairMistaken).Holds "Pair" 0 0 := holds_of_slotsOf hslots rfl
    have hkey : (sampleCache.run pairMistaken).slot? "Pair" "q:::r:::" = some 0 := by
      decide +kernel
    exact not_indexed_of_key hholds hkey (by decide +kernel)

end Cache

end EntityCache
