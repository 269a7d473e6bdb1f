import EntityCache.Proofs.Allotment
import EntityCache.Proofs.NodeMerging

/-! A cache through any operations in any order, each of which may fail part-way. Handles
come from `create` or from the cache itself. The cache stays indexed exactly as long as no
operation rewrites the key of an entity in its slot, which three of them can do. -/
namespace EntityCache

open Cache EntityCache.Action

inductive Op where
  | create (typeName : String)
  | attach (id : InstanceId) (state : EntityState) (strategy : Option MergeStrategy)
  | add (id : InstanceId)
  | delete (id : InstanceId)
  | detach (id : InstanceId)
  | acceptEntity (id : InstanceId)
  | rejectEntity (id : InstanceId)
  | acceptChanges
  | rejectChanges
  | fixupKey (typeName : String) (temp real : Value)
  | importResults (payload : Json) (q : Query) (adapter : Adapter)
  | applySave (saved : List InstanceId) (result : SaveAnswer)
  | clear
  | set (id : InstanceId) (name : String) (v : Value)
  | markUnchanged (id : InstanceId)
  | markModified (id : InstanceId)

namespace Op

def action : Op → Action Unit
  | create typeName => discard (Action.create typeName)
  | attach id state strategy => discard (Action.attach id state strategy)
  | add id => discard (Action.add id)
  | delete id => discard (Action.delete id)
  | detach id => discard (Action.detach id)
  | acceptEntity id => discard (Action.acceptEntity id)
  | rejectEntity id => discard (Action.rejectEntity id)
  | acceptChanges => Action.acceptChanges
  | rejectChanges => discard Action.rejectChanges
  | fixupKey typeName temp real => discard (Action.fixupKey typeName temp real)
  | importResults payload q adapter => discard (Action.importResults payload q adapter)
  | applySave saved result => Action.applySave saved result
  | clear => Action.clear
  | set id name v => Action.change id (·.set name v)
  | markUnchanged id => Action.change id Entity.markUnchanged
  | markModified id => Action.change id Entity.markModified

def handles : Op → List InstanceId
  | attach id _ _ | add id | delete id | detach id | acceptEntity id | rejectEntity id
  | set id _ _ | markUnchanged id | markModified id => [id]
  | applySave saved _ => saved
  | _ => []

def Enabled (c : Cache) (op : Op) : Prop := ∀ id ∈ op.handles, id < c.instances.count

instance (c : Cache) (op : Op) : Decidable (op.Enabled c) :=
  inferInstanceAs (Decidable (∀ id ∈ op.handles, id < c.instances.count))

end Op

/-- The first two parts of what a save brings: assigned keys, and settled entities. -/
def Action.settleSave (saved : List InstanceId) (result : SaveAnswer) : Action Unit := do
  result.keyAssignments.forM fun m => discard (fixupKey m.typeName m.temp m.real)
  saved.forM settle

theorem Action.applySave_eq (saved : List InstanceId) (result : SaveAnswer) :
    applySave saved result = settleSave saved result >>= fun _ =>
      result.entities.forM mergeSaved := by
  rw [settleSave, bind_assoc]
  rfl

namespace Cache

/-- No key is rewritten of an entity in its slot, which three kinds of calls could do: one that
is cached already has its key again after it is attached as Added, edits that are undone put
back the key that is there, and so do the nodes that a save returned, once its keys have been
assigned and its entities settled. -/
def Harmless (c : Cache) : Op → Prop
  | .attach id state _ => state = .added → c.IsCached id → KeyRestored c id
  | .add id => c.IsCached id → KeyRestored c id
  | .rejectEntity id => KeyReverts c id
  | .rejectChanges => ∀ id ∈ c.changes, KeyReverts c id
  | .applySave saved result => ∀ c₁, (settleSave saved result).on c = (.ok (), c₁) →
    ∀ id, c₁.KeyConfirmed result.entities id
  | _ => True

def next (c : Cache) (op : Op) : Cache := (op.action.on c).2

def run (c : Cache) (ops : List Op) : Cache := ops.foldl next c

def Valid (c : Cache) : List Op → Prop
  | [] => True
  | op :: rest => op.Enabled c ∧ (c.next op).Valid rest

instance decidableValid : (c : Cache) → (ops : List Op) → Decidable (c.Valid ops)
  | _, [] => inferInstanceAs (Decidable True)
  | c, op :: rest =>
    have := decidableValid (c.next op) rest
    inferInstanceAs (Decidable (_ ∧ _))

variable {catalog : Catalog} {c : Cache}

section Changes

theorem mem_changes (h : c.Sound) {id : InstanceId} (hid : id ∈ c.changes) : c.IsCached id := by
  obtain ⟨⟨name, g⟩, hentry, hm⟩ := List.mem_flatMap.mp hid
  have hg : c.groups.get? name = some g :=
    Table.get?_of_mem (h.ordered.imp ne_of_lt) (List.mem_filter.mp hentry).1
  have hmember := (List.mem_filter.mp hm).1
  rw [Group.members_eq] at hmember
  obtain ⟨⟨slot, _⟩, hlive, rfl⟩ := List.mem_map.mp hmember
  exact ⟨name, slot, g, hg, Group.mem_live.mp hlive⟩

theorem nodup_changes (h : c.Sound) : c.changes.Nodup := by
  have hnames : c.groups.Pairwise fun a b => a.1 ≠ b.1 :=
    (List.pairwise_map.mp h.ordered).imp ne_of_lt
  have hget : ∀ {entry : String × Group}, entry ∈ c.groups →
      c.groups.get? entry.1 = some entry.2 := fun hentry =>
    Table.get?_of_mem (h.ordered.imp ne_of_lt) hentry
  have hslot : ∀ {g : Group} {states id}, id ∈ g.membersIn c.instances states →
      ∃ slot, g.Holds slot id := by
    intro g states id hid
    have hmember := (List.mem_filter.mp hid).1
    rw [Group.members_eq] at hmember
    obtain ⟨⟨slot, _⟩, hlive, rfl⟩ := List.mem_map.mp hmember
    exact ⟨slot, Group.mem_live.mp hlive⟩
  refine List.nodup_flatMap.mpr ⟨fun entry hentry => ?_, ?_⟩
  · have hnodup := (h.groups (hget (List.mem_filter.mp hentry).1)).nodup_live_ids
    rw [← Group.members_eq] at hnodup
    exact hnodup.filter _
  · refine (hnames.sublist List.filter_sublist).imp_of_mem fun {a b} ha hb hne id hia hib => ?_
    obtain ⟨s, hs⟩ := hslot hia
    obtain ⟨t, ht⟩ := hslot hib
    exact hne (h.indexed.once ⟨a.2, hget (List.mem_filter.mp ha).1, hs⟩
      ⟨b.2, hget (List.mem_filter.mp hb).1, ht⟩).1.symm

end Changes

section Steps

theorem settleSave_keeps (saved : List InstanceId) (result : SaveAnswer) :
    (settleSave saved result).Keeps (SoundIn catalog) Grows :=
  (Keeps.forM fun m _ => (fixupKey_keeps m.typeName m.temp m.real).discard).bind
    fun _ => Keeps.forM fun id _ => settle_keeps id

/-- The values that a save returned are merged last, and only if all else went well. -/
theorem applySave_cases (hc : c.SoundIn catalog) (saved : List InstanceId) (result : SaveAnswer) :
    (((applySave saved result).on c).2.SoundIn catalog ∧
      Grows c ((applySave saved result).on c).2 ∧
      ∀ c₁, (settleSave saved result).on c ≠ (.ok (), c₁)) ∨
    ∃ c₁, (settleSave saved result).on c = (.ok (), c₁) ∧ c₁.SoundIn catalog ∧ Grows c c₁ ∧
      ((applySave saved result).on c).2 = ((result.entities.forM mergeSaved).on c₁).2 := by
  obtain ⟨hsound, hgrows⟩ := settleSave_keeps saved result c hc
  rw [applySave_eq]
  cases h : (settleSave saved result).on c with
  | mk r c₁ =>
    rw [h] at hsound hgrows
    cases r with
    | error fault =>
      rw [on_bind_error h]
      exact Or.inl ⟨hsound, hgrows, fun _ hok => by cases hok⟩
    | ok =>
      rw [on_bind_ok h]
      exact Or.inr ⟨c₁, rfl, hsound, hgrows, rfl⟩

/-- Merging leaves a sound cache sound exactly if the nodes confirm the keys. -/
theorem mergeAll_indexed_iff (hc : c.SoundIn catalog) (nodes : List Json) :
    let c' := ((nodes.forM mergeSaved).on c).2
    ((∀ id, c.KeyConfirmed nodes id) → c'.SoundIn catalog ∧ Grows c c') ∧
      (c'.Indexed → ∀ id, c.KeyConfirmed nodes id) := by
  have hrewrites := mergeAll_rewrites nodes c
  have hkey := keyText_mergeAll nodes (fun ht => hc.sound.distinct ht)
  constructor
  · intro hconfirmed
    refine ⟨⟨hrewrites.sound hc.sound fun id hcached => ?_,
      hrewrites.catalog.trans hc.catalog⟩, Nat.le_of_eq hrewrites.count.symm⟩
    rw [hkey, hconfirmed id hcached]
  · intro hi id hcached
    rw [← hkey]
    exact hrewrites.keyText_of_indexed hc.sound hi hcached

theorem on_rejectChanges (c : Cache) :
    (rejectChanges.on c).2 = ((rejectAll c.changes).on c).2 := by
  unfold rejectChanges
  rw [on_bind_ok (on_get c)]
  change ((rejectAll c.changes >>= fun _ => pure c.changes).on c).2 = _
  rw [on_bind]
  cases h : (rejectAll c.changes).on c with
  | mk r c' => cases r <;> rfl

theorem next_keeps_sound (hc : c.SoundIn catalog) {op : Op} (he : op.Enabled c)
    (hh : c.Harmless op) : (c.next op).SoundIn catalog ∧ Grows c (c.next op) := by
  suffices h : op.action.KeepsAt (SoundIn catalog) Grows c from ⟨h.holds, h.related⟩
  have hattach : ∀ {id state strategy}, id < c.instances.count →
      (state = .added → c.IsCached id → KeyRestored c id) →
      (Action.attach id state strategy).KeepsAt (SoundIn catalog) Grows c := by
    intro id state strategy hid hk
    by_cases h : state = .added ∧ c.IsCached id
    · obtain ⟨rfl, hcached⟩ := h
      have hkeep := (attach_cached_indexed_iff hc hid hcached strategy).1 (hk rfl hcached)
      exact ⟨hkeep.1, hkeep.2⟩
    · exact attach_keeps hc hid strategy fun hs hcached => h ⟨hs, hcached⟩
  cases op with
  | create typeName => exact (create_keeps typeName).discard c hc
  | attach id state strategy => exact (hattach (he id (by simp [Op.handles])) hh).discard
  | add id => exact (hattach (he id (by simp [Op.handles])) fun _ => hh).discard
  | delete id => exact (delete_keeps id).discard c hc
  | detach id => exact (detach_keeps id).discard c hc
  | acceptEntity id => exact (acceptEntity_keeps id).discard c hc
  | rejectEntity id => exact (rejectEntity_keeps hc hh).discard
  | acceptChanges => exact acceptChanges_keeps c hc
  | rejectChanges =>
    have h := rejectAll_keeps (nodup_changes hc.sound) hc hh
    refine KeepsAt.discard ⟨?_, ?_⟩
    · rw [on_rejectChanges]; exact h.holds
    · rw [on_rejectChanges]; exact h.related
  | fixupKey typeName temp real => exact (fixupKey_keeps typeName temp real).discard c hc
  | importResults payload q adapter =>
    have hfound : ∀ {c : Cache} {name t}, c.SoundIn catalog → c.catalog.type? name = some t →
        catalog.type? t.name = some t := fun hc ht => hc.catalog ▸ Catalog.type?_self ht
    exact (importResults_keeps hfound hc (fun _ node ht => arrive_keeps ht node) payload).discard
  | applySave saved result =>
    rcases applySave_cases hc saved result with ⟨hs, hg, -⟩ | ⟨c₁, h₁, hs, hg, hmerged⟩
    · exact ⟨hs, hg⟩
    · obtain ⟨hsound, hgrows⟩ := (mergeAll_indexed_iff hs result.entities).1 (hh c₁ h₁)
      rw [← hmerged] at hsound hgrows
      exact ⟨hsound, Nat.le_trans hg hgrows⟩
  | clear => exact clear_keeps c hc
  | set id name v => exact set_keeps hc (he id (by simp [Op.handles])) name v
  | markUnchanged id => exact change_keeps hc fun _ he => Entity.continues_markUnchanged he
  | markModified id => exact change_keeps hc fun _ he => Entity.continues_markModified he

theorem harmless_of_indexed (hc : c.SoundIn catalog) {op : Op} (he : op.Enabled c)
    (hi : (c.next op).Indexed) : c.Harmless op := by
  cases op with
  | attach id state strategy =>
    rintro rfl hcached
    refine (attach_cached_indexed_iff hc (he id (by simp [Op.handles])) hcached strategy).2 ?_
    rwa [next, Op.action, on_discard] at hi
  | add id =>
    intro hcached
    refine (attach_cached_indexed_iff hc (he id (by simp [Op.handles])) hcached none).2 ?_
    rwa [next, Op.action, on_discard] at hi
  | rejectEntity id =>
    refine keyReverts_of_indexed hc (Std.Refl.refl _) ?_
    rwa [next, Op.action, on_discard] at hi
  | rejectChanges =>
    refine keyReverts_of_rejectAll (nodup_changes hc.sound) hc
      (fun _ => mem_changes hc.sound) ?_
    rwa [next, Op.action, on_discard, on_rejectChanges] at hi
  | applySave saved result =>
    intro c₁ h₁
    rcases applySave_cases hc saved result with ⟨-, -, hn⟩ | ⟨c₂, h₂, hs, -, hmerged⟩
    · exact absurd h₁ (hn c₁)
    · obtain rfl := (Prod.mk.inj (h₁.symm.trans h₂)).2
      refine (mergeAll_indexed_iff hs result.entities).2 ?_
      rwa [← hmerged]
  | _ => trivial

/-- Slots and free lists do not go wrong, whatever becomes of the keys. -/
theorem next_allots (h : c.Allotted) {op : Op} (he : op.Enabled c) : (c.next op).Allotted := by
  suffices hs : op.action.KeepsAt Allotted Grows c from hs.holds
  cases op with
  | create typeName => exact (create_allots typeName).discard c h
  | attach id state strategy =>
    exact (attach_allots h (he id (by simp [Op.handles])) state strategy).discard
  | add id => exact (attach_allots h (he id (by simp [Op.handles])) .added none).discard
  | delete id => exact (delete_allots id).discard c h
  | detach id => exact (detach_allots id).discard c h
  | acceptEntity id => exact (acceptEntity_allots id).discard c h
  | rejectEntity id => exact (rejectEntity_allots id).discard c h
  | acceptChanges =>
    exact Keeps.get_bind (fun c => Keeps.forM (fun id _ => (acceptEntity_allots id).discard) c) c h
  | rejectChanges =>
    have hall : ∀ ids, (rejectAll ids).Keeps Allotted Grows := fun ids =>
      Keeps.forM fun id _ => (rejectEntity_allots id).discard
    exact Keeps.discard (.get_bind fun c => (hall c.changes).bind (fun _ => .pure _) c) c h
  | fixupKey typeName temp real => exact (fixupKey_allots typeName temp real).discard c h
  | importResults payload q adapter =>
    exact (importResults_keeps (fun _ _ => trivial) h
      (fun t node _ => arrive_allots _ t node) payload).discard
  | applySave saved result =>
    exact (Keeps.forM fun m _ => (fixupKey_allots m.typeName m.temp m.real).discard).bind
      (fun _ => (Keeps.forM fun id _ => settle_allots id).bind
        fun _ => Keeps.forM fun node _ => mergeSaved_allots node) c h
  | clear => exact clear_allots c h
  | set id name v => exact change_allots id (·.set name v) c h
  | markUnchanged id => exact change_allots id _ c h
  | markModified id => exact change_allots id _ c h

end Steps

section Runs

/-- From a sound cache on: indexed after every operation, or one was not harmless. -/
theorem run_indexed_iff_of_sound (hc : c.SoundIn catalog) {ops : List Op} (hv : c.Valid ops) :
    (∀ n ≤ ops.length, (c.run (ops.take n)).Indexed) ↔
      ∀ n op, ops[n]? = some op → (c.run (ops.take n)).Harmless op := by
  induction ops generalizing c with
  | nil => simpa [run] using hc.sound.indexed
  | cons first rest ih =>
    obtain ⟨he, hv⟩ := hv
    constructor
    · intro hi
      have hfirst : c.Harmless first := harmless_of_indexed hc he (hi 1 (by simp))
      have hrest := (ih (next_keeps_sound hc he hfirst).1 hv).mp fun n hn => hi (n + 1) (by simpa)
      intro n op hop
      cases n with
      | zero =>
        obtain rfl : first = op := by simpa using hop
        exact hfirst
      | succ n => exact hrest n op (by simpa using hop)
    · intro hh
      have hfirst : c.Harmless first := hh 0 first (by simp)
      have hrest := (ih (next_keeps_sound hc he hfirst).1 hv).mpr
        fun n op hop => hh (n + 1) op (by simpa using hop)
      intro n hn
      cases n with
      | zero => exact hc.sound.indexed
      | succ n => exact hrest n (by simpa using hn)

def start (catalog : Catalog) (settings : Settings) (supply : Supply) (builders : UriBuilders)
    (service : Service) : Cache :=
  ((Cache.new catalog settings supply).withBuilders builders).withService service

theorem sound_start (hr : catalog.Registered) (settings : Settings) (supply : Supply)
    (builders : UriBuilders) (service : Service) :
    (start catalog settings supply builders service).SoundIn catalog := by
  refine ⟨⟨?_, ?_, ?_, List.Pairwise.nil, ?_, ?_, ?_, ?_⟩, rfl⟩
  · intro _ _ hg; cases hg
  · intro _ _ hg; cases hg
  · intro _ _ hg; cases hg
  · exact fun _ hid => absurd hid (Nat.not_lt_zero _)
  · exact fun _ hid => absurd hid (Nat.not_lt_zero _)
  · rintro _ _ _ ⟨_, hg, -⟩; cases hg
  · exact fun ht => hr.distinctNames _ (Catalog.type?_some ht).1

theorem run_allotted (h : c.Allotted) {ops : List Op} (hv : c.Valid ops) :
    (c.run ops).Allotted := by
  induction ops generalizing c with
  | nil => exact h
  | cons op rest ih => exact ih (next_allots h hv.1) hv.2

theorem allotted_start (catalog : Catalog) (settings : Settings) (supply : Supply)
    (builders : UriBuilders) (service : Service) :
    (start catalog settings supply builders service).Allotted := fun _ _ hg => by cases hg

def slotsOf (c : Cache) (name : String) : Option (List (Option InstanceId)) :=
  (c.groups.get? name).map (·.slots)

theorem holds_of_slotsOf {name : String} {slots : List (Option InstanceId)} {slot : Nat}
    {id : InstanceId} (h : c.slotsOf name = some slots) (hs : slots[slot]? = some (some id)) :
    c.Holds name slot id := by
  obtain ⟨g, hg, rfl⟩ := Option.map_eq_some_iff.mp h
  exact ⟨g, hg, hs⟩

theorem not_indexed_of_key {name key : String} {slot : Nat} {id : InstanceId}
    (hs : c.Holds name slot id) (hk : c.slot? name key = some slot)
    (hne : (c.entity id).keyText ≠ key) : ¬ c.Indexed := fun h =>
  hne ((keyText_eq_iff _ _).mp ((h.current hs key).mp hk))

def sample : Catalog where
  types := [
    { name := "Part"
      dataProperties := [
        { name := "id", serverName := some "id", dataType := .int32, isKey := true }] },
    { name := "Pair"
      version := ⟨0, 1⟩
      dataProperties := [
        { name := "a", serverName := some "a", dataType := .string, isKey := true },
        { name := "b", serverName := some "b", dataType := .string, isKey := true }] }]
  nextSerial := 2

theorem sample_registered : sample.Registered := by
  let part : EntityType :=
    { name := "Part", dataProperties := [{ name := "id", dataType := .int32, isKey := true }] }
  let pair : EntityType :=
    { name := "Pair"
      dataProperties := [{ name := "a", dataType := .string, isKey := true },
        { name := "b", dataType := .string, isKey := true }] }
  have hpart : Catalog.Registered { sample with types := sample.types.take 1, nextSerial := 1 } :=
    .withType (t := part) (.empty 0 .none) rfl rfl
  exact .withType (t := pair) hpart rfl rfl

def sampleCache : Cache :=
  start sample {} ⟨fun _ => ⟨0, 0⟩, fun _ => .nil⟩ .standard { root := "" }

end Runs

end Cache

end EntityCache
