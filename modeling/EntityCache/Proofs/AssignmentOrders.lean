import EntityCache.Proofs.FormationRuns
import EntityCache.Proofs.KeyAssignments

/-! Keys that a server assigns to several entities at once. It does not matter in which order
they are brought into the cache, nor in which order the references to each are followed: if
one order goes through so does every other one, and leaves the same cache. -/
namespace EntityCache

open Cache EntityCache.Action

namespace Action

def fixupKeyBy (o : VisitOrder) (typeName : String) (temp real : Value) : Action InstanceId := do
  let c ← get
  let t ← c.catalog.find typeName
  replaceTempKey t (o.arrange (c.catalog.foreignKeyRefs t.name)) temp real

def assignKeys (as : List (VisitOrder × IntegerAssignment)) : Action Unit :=
  as.forM fun x => discard (fixupKeyBy x.1 x.2.typeName (.integer x.2.temp) (.integer x.2.real))

/-- With the references in the order of the catalog this is the loop that a save begins with. -/
theorem assignKeys_listed (as : List IntegerAssignment) :
    assignKeys (as.map fun a => (.listed, a)) = (as.map IntegerAssignment.assignment).forM
      fun m => discard (fixupKey m.typeName m.temp m.real) := by
  induction as with
  | nil => rfl
  | cons a as ih =>
    exact congrArg
      (fun rest => discard (fixupKey a.typeName (.integer a.temp) (.integer a.real)) >>=
        fun _ => rest) ih

theorem on_assignKeys_cons (x : VisitOrder × IntegerAssignment)
    (as : List (VisitOrder × IntegerAssignment)) (c : Cache) :
    (assignKeys (x :: as)).on c =
      match (fixupKeyBy x.1 x.2.typeName (.integer x.2.temp) (.integer x.2.real)).on c with
      | (.ok _, c') => (assignKeys as).on c'
      | (.error fault, c') => (.error fault, c') := by
  have hcons : assignKeys (x :: as) =
      (discard (fixupKeyBy x.1 x.2.typeName (.integer x.2.temp) (.integer x.2.real)) >>=
        fun _ => assignKeys as) := rfl
  rw [hcons, on_bind, on_discard]
  cases (fixupKeyBy x.1 x.2.typeName (.integer x.2.temp) (.integer x.2.real)).on c with
  | mk r c' => cases r <;> rfl

theorem on_fixupKeyBy {c : Cache} {t : EntityType} {typeName : String}
    (ht : c.catalog.find typeName = .ok t) (o : VisitOrder) (temp real : Value) :
    (fixupKeyBy o typeName temp real).on c =
      (replaceTempKey t (o.arrange (c.catalog.foreignKeyRefs t.name)) temp real).on c := by
  unfold fixupKeyBy
  rw [on_bind_ok (on_get c), ht, on_bind_ok (on_lift _ c)]

theorem rekey_of_replaceTempKey {c c' : Cache} {t : EntityType} {refs : List (String × String)}
    {temp real : Value} {id : InstanceId}
    (h : (replaceTempKey t refs temp real).on c = (.ok id, c')) :
    ∃ c₁, c.rekey t temp real = .ok (id, c₁) := by
  rw [on_replaceTempKey] at h
  cases hr : c.rekey t temp real with
  | error fault =>
    rw [hr] at h
    cases h
  | ok result =>
    rw [hr] at h
    obtain ⟨_, -, hid⟩ := map_ok (Prod.mk.inj h).1
    rw [← hid]
    exact ⟨result.2, rfl⟩

end Action

namespace Cache

variable {c d : Cache} {ss us : List KeyEdit} {a : IntegerAssignment} {t : EntityType}
  {p : DataProperty} {o : VisitOrder} {as bs : List (VisitOrder × IntegerAssignment)}

/-- What an assignment needs of a cache, apart from keys that differ in the end: a type with
a key of one part, an entity with the temporary key, and in each group that is asked for a
reference the property that it names. -/
structure Assignable (c : Cache) (a : IntegerAssignment) (t : EntityType) (p : DataProperty) :
    Prop where
  found : c.catalog.find? a.typeName = some t
  single : t.keyProperties = [p]
  holder : ∃ slot id, c.Holds t.name slot id ∧
    (c.entity id).get? p.name = some (.integer a.temp)
  offers : ∀ r ∈ c.catalog.foreignKeyRefs t.name, c.Offers r

/-- What could be assigned after edits that bring no temporary key could be before. -/
theorem Assignable.before (h : Edited c ss d) (hreals : ∀ s ∈ ss, s.real ≠ a.temp)
    (ha : Assignable d a t p) : Assignable c a t p := by
  obtain ⟨slot, id, hs, hget⟩ := ha.holder
  have hs := h.unmoved.holds_iff.mp hs
  rw [h.cached ⟨_, _, hs⟩] at hget
  refine ⟨h.unmoved.catalog ▸ ha.found, ha.single,
    ⟨slot, id, hs, Entity.get?_of_edits hreals hget⟩, fun r hr => ?_⟩
  exact h.unmoved.offers_iff.mp (ha.offers r (by rwa [h.unmoved.catalog]))

/-- What could be assigned before edits that take no such temporary key still can be. -/
theorem Assignable.after (h : Edited c ss d) (htemps : ∀ s ∈ ss, s.temp ≠ a.temp)
    (ha : Assignable c a t p) : Assignable d a t p := by
  obtain ⟨slot, id, hs, hget⟩ := ha.holder
  refine ⟨by rw [h.unmoved.catalog, ha.found], ha.single,
    ⟨slot, id, h.unmoved.holds_iff.mpr hs, ?_⟩, fun r hr => ?_⟩
  · rw [h.cached ⟨_, _, hs⟩]
    exact Entity.get?_edits_of_other htemps hget
  · rw [h.unmoved.catalog] at hr
    exact h.unmoved.offers_iff.mpr (ha.offers r hr)

section Step

theorem editsOf_found (hf : c.catalog.find? a.typeName = some t) (hp : t.keyProperties = [p])
    (o : VisitOrder) : c.catalog.editsOf o a =
      [a.ofKey t p] ++ (o.arrange (c.catalog.foreignKeyRefs t.name)).map a.ofReference := by
  rw [Catalog.editsOf, hf]
  dsimp only
  rw [hp]
  rfl

theorem IntegerKeyed.arranged (hk : c.IntegerKeyed) (ht : c.catalog.type? t.name = some t)
    (o : VisitOrder) : ∀ r ∈ o.arrange (c.catalog.foreignKeyRefs t.name),
      c.catalog.IntegerReference r :=
  fun _ hr => hk.references ht ((o.perm _).mem_iff.mp hr)

theorem IntegerKeyed.keyValue (hk : c.IntegerKeyed) (hc : c.Sound)
    (ht : c.catalog.type? t.name = some t) (hp : t.keyProperties = [p]) {slot : Nat}
    {id : InstanceId} (hs : c.Holds t.name slot id) (i : Int64) :
    t.keyValue (.integer i) = .integer i := by
  have hinteger := (hk.keys ⟨_, _, hs⟩ p (by simp [hc.type_of_registered ht hs, hp])).1
  rw [EntityType.keyValue, hp]
  exact DataType.coerce_integer hinteger i

theorem fixupKeyBy_edited (hc : c.Sound) (hk : c.IntegerKeyed) (hne : a.temp ≠ a.real)
    {id : InstanceId}
    (hok : (fixupKeyBy o a.typeName (.integer a.temp) (.integer a.real)).on c = (.ok id, d)) :
    (∃ t p, Assignable c a t p) ∧ Edited c (c.catalog.editsOf o a) d := by
  cases hfind : c.catalog.find a.typeName with
  | error fault =>
    unfold fixupKeyBy at hok
    rw [on_bind_ok (on_get c), hfind, on_bind_error (on_lift _ c)] at hok
    cases hok
  | ok t =>
    have hfound := Catalog.find_ok hfind
    have ht := Catalog.type?_of_find? hfound
    have hrefs := hk.arranged ht o
    rw [on_fixupKeyBy hfind] at hok
    -- That the type has integer keys is known from the entity that was found.
    have hvalue : ∀ i, t.keyValue (.integer i) = .integer i := by
      obtain ⟨_, hr⟩ := rekey_of_replaceTempKey hok
      obtain ⟨p, hrekeyed⟩ := rekey_spec hc ht hr
      obtain ⟨slot, hs⟩ := hrekeyed.holds
      exact hk.keyValue hc ht hrekeyed.single hs
    have hparts : (t.keyValue (.integer a.temp)).keyText ≠
        (t.keyValue (.integer a.real)).keyText := by
      rw [hvalue, hvalue]
      exact fun heq => hne (Value.keyText_integer_inj.mp heq)
    obtain ⟨p, c₁, hrekeyed, -, hcascade⟩ := replaceTempKey_ok hc ht hparts hok
    rw [hvalue, hvalue] at hcascade
    have hkey := hrekeyed.edited hc hk hne
    obtain ⟨hrest, hoffers⟩ := cascade_edited hkey.sound (by rwa [hkey.unmoved.catalog]) hcascade
    obtain ⟨slot, hs⟩ := hrekeyed.holds
    have hsingle : (c.entity id).type.keyProperties = [p] := hrekeyed.type ▸ hrekeyed.single
    refine ⟨⟨t, p, hfound, hrekeyed.single, ⟨slot, id, hs, ?_⟩, fun r hr => ?_⟩, ?_⟩
    · exact (keyText_eq_partText_iff (hk.keys ⟨_, _, hs⟩) hsingle a.temp).mp hrekeyed.held
    · exact hkey.unmoved.offers_iff.mp (hoffers r ((o.perm _).mem_iff.mpr hr))
    · rw [editsOf_found hfound hrekeyed.single]
      exact hkey.trans hrest

/-- A fix-up that finds what it needs goes through if all keys differ in the end. -/
theorem fixupKeyBy_of_distinguished (hc : c.Sound) (hk : c.IntegerKeyed)
    (hne : a.temp ≠ a.real) (ha : Assignable c a t p)
    (hd : c.Distinguished (c.catalog.editsOf o a)) :
    ∃ id d, (fixupKeyBy o a.typeName (.integer a.temp) (.integer a.real)).on c = (.ok id, d) := by
  have ht := Catalog.type?_of_find? ha.found
  have hfind : c.catalog.find a.typeName = .ok t := by rw [Catalog.find, ha.found]
  obtain ⟨slot, id, hs, htemp⟩ := ha.holder
  have hvalue := hk.keyValue hc ht ha.single hs
  rw [editsOf_found ha.found ha.single] at hd
  obtain ⟨c₁, hr⟩ := rekey_of_distinguished hc hk ht ha.single hne hs htemp (hd.before hc hk)
  obtain ⟨q, hrekeyed⟩ := rekey_spec hc ht hr
  obtain rfl : q = p := List.singleton_inj.mp (hrekeyed.single.symm.trans ha.single)
  have hkey := hrekeyed.edited hc hk hne
  have hrefs := hk.arranged ht o
  obtain ⟨d, hcascade⟩ := cascade_of_distinguished hkey.sound (hkey.integerKeyed hk)
    (by rwa [hkey.unmoved.catalog])
    (fun r hr => hkey.unmoved.offers_iff.mpr (ha.offers r ((o.perm _).mem_iff.mp hr)))
    (hd.after hkey)
  have hparts : Group.partText q (.integer a.temp) ≠ Group.partText q (.integer a.real) := by
    have hinteger := (hk.keys ⟨_, _, hs⟩ q (by simp [hrekeyed.type, ha.single])).1
    exact fun heq => hne ((partText_integer_inj hinteger).mp heq)
  refine ⟨id, d, ?_⟩
  rw [on_fixupKeyBy hfind, on_replaceTempKey, hr]
  dsimp only
  rw [hrekeyed.firstKey hparts, hvalue, hvalue, hcascade]
  rfl

end Step

section Run

/-- Assignments that go through have made their edits. Each could have been the first one, as
none before it brings the temporary key that it needs. -/
theorem assignKeys_edited (hc : c.Sound) (hk : c.IntegerKeyed)
    (hreals : ∀ x ∈ as, ∀ y ∈ as, x.2.real ≠ y.2.temp)
    (hok : (assignKeys as).on c = (.ok (), d)) :
    (∀ x ∈ as, ∃ t p, Assignable c x.2 t p) ∧
      Edited c (as.flatMap fun x => c.catalog.editsOf x.1 x.2) d := by
  induction as generalizing c with
  | nil =>
    cases hok
    exact ⟨fun _ hm => absurd hm List.not_mem_nil, .nil hc⟩
  | cons x as ih =>
    rw [on_assignKeys_cons] at hok
    cases hfirst : (fixupKeyBy x.1 x.2.typeName (.integer x.2.temp) (.integer x.2.real)).on c with
    | mk outcome c₁ =>
      rw [hfirst] at hok
      cases outcome with
      | error fault => cases hok
      | ok id =>
        have hx := hreals x List.mem_cons_self
        obtain ⟨hassignable, hedited⟩ := fixupKeyBy_edited hc hk
          (hx x List.mem_cons_self).symm hfirst
        obtain ⟨hothers, hrest⟩ := ih hedited.sound (hedited.integerKeyed hk)
          (fun y hy z hz => hreals y (List.mem_cons_of_mem x hy) z (List.mem_cons_of_mem x hz)) hok
        rw [hedited.unmoved.catalog] at hrest
        refine ⟨fun y hy => ?_, hedited.trans hrest⟩
        rcases List.mem_cons.mp hy with rfl | hmem
        · exact hassignable
        · obtain ⟨t, p, ha⟩ := hothers y hmem
          refine ⟨t, p, ha.before hedited fun s hs => ?_⟩
          rw [(Catalog.mem_editsOf hs).2]
          exact hx y hy

/-- Assignments of which each could be the first one go through in a row, if all keys differ
in the end: then they also differ on the way, and none takes what a later one needs. -/
theorem assignKeys_of_distinguished (hc : c.Sound) (hk : c.IntegerKeyed)
    (htemps : (as.map (·.2.temp)).Nodup) (hreals : ∀ x ∈ as, ∀ y ∈ as, x.2.real ≠ y.2.temp)
    (ha : ∀ x ∈ as, ∃ t p, Assignable c x.2 t p)
    (hd : c.Distinguished (as.flatMap fun x => c.catalog.editsOf x.1 x.2)) :
    ∃ d, (assignKeys as).on c = (.ok (), d) := by
  induction as generalizing c with
  | nil => exact ⟨c, rfl⟩
  | cons x as ih =>
    rw [List.map_cons, List.nodup_cons] at htemps
    rw [List.flatMap_cons] at hd
    have hne := (hreals x List.mem_cons_self x List.mem_cons_self).symm
    obtain ⟨t, p, hx⟩ := ha x List.mem_cons_self
    obtain ⟨id, c₁, hfirst⟩ := fixupKeyBy_of_distinguished hc hk hne hx (hd.before hc hk)
    obtain ⟨-, hedited⟩ := fixupKeyBy_edited hc hk hne hfirst
    have hcatalog := hedited.unmoved.catalog
    obtain ⟨d, hrest⟩ := ih hedited.sound (hedited.integerKeyed hk) htemps.2
      (fun y hy z hz => hreals y (List.mem_cons_of_mem x hy) z (List.mem_cons_of_mem x hz))
      (fun y hy => by
        obtain ⟨t, p, hy'⟩ := ha y (List.mem_cons_of_mem x hy)
        refine ⟨t, p, hy'.after hedited fun s hs heq => htemps.1 ?_⟩
        rw [← (Catalog.mem_editsOf hs).1, heq]
        exact List.mem_map_of_mem hy)
      (by
        rw [hcatalog]
        exact hd.after hedited)
    exact ⟨d, by rw [on_assignKeys_cons, hfirst]; exact hrest⟩

end Run

end Cache

section Order

variable {catalog : Catalog} {as bs : List (VisitOrder × IntegerAssignment)}

theorem TempKeys.settle_comm (keys : TempKeys) (s u : KeyEdit) :
    (keys.settle s).settle u = (keys.settle u).settle s := by
  unfold settle
  cases s.settles <;> cases u.settles
  · rfl
  · rfl
  · rfl
  · simp only [if_true, release, List.filter_filter, Bool.and_comm]

namespace Catalog

theorem editsOf_perm (catalog : Catalog) (o : VisitOrder) (a : IntegerAssignment) :
    (catalog.editsOf o a).Perm (catalog.editsOf .listed a) := by
  unfold editsOf
  cases catalog.find? a.typeName with
  | none => exact .refl _
  | some t => exact ((o.perm _).map a.ofReference).append_left _

theorem flatMap_editsOf_perm (h : (as.map Prod.snd).Perm (bs.map Prod.snd)) :
    (as.flatMap fun x => catalog.editsOf x.1 x.2).Perm
      (bs.flatMap fun x => catalog.editsOf x.1 x.2) := by
  have hlisted : ∀ as : List (VisitOrder × IntegerAssignment),
      (as.flatMap fun x => catalog.editsOf x.1 x.2).Perm
        ((as.map Prod.snd).flatMap fun a => catalog.editsOf .listed a) := by
    intro as
    rw [List.flatMap_map]
    exact List.Perm.flatMap_left as fun x _ => catalog.editsOf_perm x.1 x.2
  exact (hlisted as).trans ((h.flatMap_right _).trans (hlisted bs).symm)

end Catalog

namespace Entity

/-- In which order the references are followed is all the same, as no two concern the same
property. -/
theorem edits_editsOf (o : VisitOrder) (a : IntegerAssignment) (e : Entity) :
    e.edits (catalog.editsOf o a) = e.edits (catalog.editsOf .listed a) := by
  unfold Catalog.editsOf
  cases catalog.find? a.typeName with
  | none => rfl
  | some t =>
    dsimp only
    rw [edits_append, edits_append]
    refine edits_perm ((o.perm _).map a.ofReference) (fun s hs u hu hne => ?_) _
    obtain ⟨r, -, rfl⟩ := List.mem_map.mp hs
    obtain ⟨r', -, rfl⟩ := List.mem_map.mp hu
    by_contra hsame
    simp only [not_or, not_not] at hsame
    exact hne (congrArg a.ofReference (Prod.ext hsame.1 hsame.2))

theorem edits_flatMap_editsOf (as : List (VisitOrder × IntegerAssignment)) (e : Entity) :
    e.edits (as.flatMap fun x => catalog.editsOf x.1 x.2) =
      (as.map Prod.snd).foldl (fun e a => e.edits (catalog.editsOf .listed a)) e := by
  induction as generalizing e with
  | nil => rfl
  | cons x as ih =>
    rw [List.flatMap_cons, edits_append, ih, edits_editsOf]
    rfl

/-- Assigned keys come to the same in any order, as the edits of each are apart from those of
all others. -/
theorem edits_flatMap_perm (h : (as.map Prod.snd).Perm (bs.map Prod.snd))
    (htemps : (as.map (·.2.temp)).Nodup) (hreals : ∀ x ∈ as, ∀ y ∈ as, x.2.real ≠ y.2.temp)
    (e : Entity) : e.edits (as.flatMap fun x => catalog.editsOf x.1 x.2) =
      e.edits (bs.flatMap fun x => catalog.editsOf x.1 x.2) := by
  rw [edits_flatMap_editsOf, edits_flatMap_editsOf]
  refine h.foldl_eq' (fun a ha b hb e => ?_) e
  obtain ⟨x, hx, rfl⟩ := List.mem_map.mp ha
  obtain ⟨y, hy, rfl⟩ := List.mem_map.mp hb
  by_cases hxy : x = y
  · rw [hxy]
  · refine edits_comm (fun s hs u hu => ?_) e
    obtain ⟨hst, hsr⟩ := Catalog.mem_editsOf hs
    obtain ⟨hut, hur⟩ := Catalog.mem_editsOf hu
    refine ⟨?_, ?_, ?_⟩
    · rw [hst, hut]
      exact fun heq => hxy (List.inj_on_of_nodup_map htemps hx hy heq)
    · rw [hsr, hut]
      exact hreals x hx y hy
    · rw [hur, hst]
      exact hreals y hy x hx

end Entity

end Order

namespace Cache

variable {c d d' : Cache} {ss us : List KeyEdit} {as bs : List (VisitOrder × IntegerAssignment)}

/-- The caches differ at most in how their indexes are written down. -/
structure Alike (c d : Cache) : Prop where
  rest : d = { c with groups := d.groups }
  names : d.groups.names = c.groups.names
  groups : ∀ {name g h}, c.groups.get? name = some g → d.groups.get? name = some h →
    h.type = g.type ∧ h.slots = g.slots ∧ h.free = g.free ∧
      ∀ key, h.index.get? key = g.index.get? key

theorem Edited.instances_eq (h : Edited c ss d) (k : Edited c us d')
    (hedits : ∀ e : Entity, e.edits ss = e.edits us) : d'.instances = d.instances := by
  have hentity : d'.instances.entity = d.instances.entity := by
    funext id
    change d'.entity id = d.entity id
    by_cases hid : c.IsCached id
    · rw [k.cached hid, h.cached hid, hedits]
    · rw [k.others hid, h.others hid]
  have hcount := k.unmoved.count.trans h.unmoved.count.symm
  have hfrozen := k.unmoved.frozen.trans h.unmoved.frozen.symm
  cases hd : d.instances
  cases hd' : d'.instances
  rw [hd, hd'] at hentity hcount hfrozen
  rw [Instances.mk.injEq]
  exact ⟨hentity, hcount, hfrozen⟩

theorem Edited.alike (h : Edited c ss d) (k : Edited c us d')
    (hedits : ∀ e : Entity, e.edits ss = e.edits us)
    (hkeys : ss.foldl TempKeys.settle c.keys = us.foldl TempKeys.settle c.keys) :
    Alike d d' := by
  have hinstances := h.instances_eq k hedits
  refine ⟨?_, ?_, fun {name g g'} hg hg' => ?_⟩
  · rw [k.unmoved.rest, h.unmoved.rest, hinstances, k.keys, h.keys, hkeys]
  · have hnames : ∀ {us d name}, Edited c us d → (name ∈ d.groups.names ↔
        name ∈ c.groups.names) := by
      intro us d name h
      rw [← not_iff_not, ← Table.get?_eq_none_iff, ← Table.get?_eq_none_iff]
      refine ⟨fun hn => ?_, h.unmoved.noGroup⟩
      cases hg : c.groups.get? name with
      | none => rfl
      | some g =>
        obtain ⟨g', hg', -⟩ := h.unmoved.groups hg
        cases hn.symm.trans hg'
    exact k.sound.ordered.eq_of_mem_iff h.sound.ordered fun name => (hnames k).trans (hnames h).symm
  · cases hg₀ : c.groups.get? name with
    | none => cases hg.symm.trans (h.unmoved.noGroup hg₀)
    | some g₀ =>
      obtain ⟨g₁, hg₁, ht, hs, hfree⟩ := h.unmoved.groups hg₀
      obtain rfl := Option.some.inj (hg.symm.trans hg₁)
      obtain ⟨g₂, hg₂, ht', hs', hfree'⟩ := k.unmoved.groups hg₀
      obtain rfl := Option.some.inj (hg'.symm.trans hg₂)
      have hslots : g'.slots = g.slots := hs'.trans hs.symm
      refine ⟨ht'.trans ht.symm, hslots, hfree'.trans hfree.symm, fun key => ?_⟩
      refine Option.ext fun slot => ?_
      rw [(k.sound.groups hg').index_iff, (h.sound.groups hg).index_iff, hinstances]
      exact exists_congr fun id => and_congr_left fun _ => Group.holds_congr hslots

end Cache

namespace Action

variable {c d : Cache} {as bs : List (VisitOrder × IntegerAssignment)}

/-- Keys that have been assigned in one order can be assigned in every other order, with the
references to each followed in any order, and the outcome is the same cache. -/
theorem assignKeys_perm (hf : c.Formed) (hi : c.Indexed) (hk : c.IntegerKeyed)
    (hperm : (as.map Prod.snd).Perm (bs.map Prod.snd))
    (htemps : (as.map (·.2.temp)).Nodup) (hreals : ∀ x ∈ as, ∀ y ∈ as, x.2.real ≠ y.2.temp)
    (hok : (assignKeys as).on c = (.ok (), d)) :
    ∃ d', (assignKeys bs).on c = (.ok (), d') ∧ Alike d d' := by
  have hc := hf.sound hi
  have hmem : ∀ y ∈ bs, ∃ x ∈ as, x.2 = y.2 := fun y hy =>
    List.mem_map.mp (hperm.mem_iff.mpr (List.mem_map_of_mem hy))
  obtain ⟨hassignable, hedited⟩ := assignKeys_edited hc hk hreals hok
  have hedits : ∀ e : Entity, e.edits (as.flatMap fun x => c.catalog.editsOf x.1 x.2) =
      e.edits (bs.flatMap fun x => c.catalog.editsOf x.1 x.2) :=
    Entity.edits_flatMap_perm hperm htemps hreals
  have htemps' : (bs.map (·.2.temp)).Nodup := by
    have hmap := (hperm.map IntegerAssignment.temp).nodup_iff
    rw [List.map_map, List.map_map] at hmap
    exact hmap.mp htemps
  have hreals' : ∀ x ∈ bs, ∀ y ∈ bs, x.2.real ≠ y.2.temp := by
    intro x hx y hy
    obtain ⟨x', hx', hxe⟩ := hmem x hx
    obtain ⟨y', hy', hye⟩ := hmem y hy
    rw [← hxe, ← hye]
    exact hreals x' hx' y' hy'
  have hdistinguished : c.Distinguished (bs.flatMap fun x => c.catalog.editsOf x.1 x.2) := by
    intro name slot slot' x y hx hy heq
    rw [← hedits, ← hedits] at heq
    exact hedited.distinguished hx hy heq
  obtain ⟨d', hok'⟩ := assignKeys_of_distinguished hc hk htemps' hreals'
    (fun y hy => by
      obtain ⟨x, hx, hxe⟩ := hmem y hy
      rw [← hxe]
      exact hassignable x hx)
    hdistinguished
  obtain ⟨-, hedited'⟩ := assignKeys_edited hc hk hreals' hok'
  refine ⟨d', hok', hedited.alike hedited' hedits ?_⟩
  exact (Catalog.flatMap_editsOf_perm hperm).foldl_eq'
    (fun s _ u _ keys => TempKeys.settle_comm keys s u) c.keys

def twoCustomers : Cache :=
  salesCache.run [.create "Customer", .create "Customer", .add 0]

def linkedCustomers : Cache :=
  twoCustomers.run [.add 1,
    .create "Link", .set 2 "a" (.integer (-1)), .set 2 "b" (.integer (-2)),
    .attach 2 .unchanged none]

theorem sound_twoCustomers : twoCustomers.SoundIn sales :=
  PlainRun.sound (by decide +kernel) sound_salesCache

theorem sound_linkedCustomers : linkedCustomers.SoundIn sales :=
  PlainRun.sound (by decide +kernel) sound_twoCustomers

theorem integerKeyed_linkedCustomers : linkedCustomers.IntegerKeyed where
  keys := by
    have hall : ∀ id < 3, (linkedCustomers.entity id).IntegerKey := by decide +kernel
    rintro id ⟨name, slot, hs⟩
    have hcount : linkedCustomers.instances.count = 3 := by decide +kernel
    exact hall id (hcount ▸ sound_linkedCustomers.sound.given hs)
  references := by
    have hall : ∀ t ∈ sales.types, ∀ r ∈ sales.foreignKeyRefs t.name,
        sales.IntegerReference r := by decide +kernel
    rw [sound_linkedCustomers.catalog]
    exact fun {t r} ht hr => hall t (Catalog.type?_some ht).1 r hr

/-- The link takes both keys, and which comes first makes no difference. -/
theorem linked_customers_assigned :
    let reversed : VisitOrder := ⟨List.reverse, List.reverse_perm⟩
    let first : IntegerAssignment := ⟨"Customer", -1, 5⟩
    let second : IntegerAssignment := ⟨"Customer", -2, 6⟩
    let as := [(.listed, first), (.listed, second)]
    let bs := [(reversed, second), (reversed, first)]
    let c := linkedCustomers
    c.Formed ∧ c.Indexed ∧ c.IntegerKeyed ∧ (as.map Prod.snd).Perm (bs.map Prod.snd) ∧
      (as.map (·.2.temp)).Nodup ∧ (∀ x ∈ as, ∀ y ∈ as, x.2.real ≠ y.2.temp) ∧
      ∃ d d', (assignKeys as).on c = (.ok (), d) ∧ (assignKeys bs).on c = (.ok (), d') ∧
        (([first, second].map IntegerAssignment.assignment).forM
          fun m => discard (fixupKey m.typeName m.temp m.real)).on c = (.ok (), d) ∧
        Alike d d' ∧ d.slot? "Link" "5:::6" = some 0 := by
  intro reversed first second as bs c
  have hc := sound_linkedCustomers.sound
  have hperm : (as.map Prod.snd).Perm (bs.map Prod.snd) := List.Perm.swap second first []
  have htemps : (as.map (·.2.temp)).Nodup := by decide +kernel
  have hreals : ∀ x ∈ as, ∀ y ∈ as, x.2.real ≠ y.2.temp := by
    simp only [as, List.forall_mem_cons, List.not_mem_nil, false_imp_iff, implies_true, and_true]
    decide +kernel
  have hdone : ((assignKeys as).on c).1.isOk := by decide +kernel
  have hslot : ((assignKeys as).on c).2.slot? "Link" "5:::6" = some 0 := by decide +kernel
  refine ⟨hc.formed, hc.indexed, integerKeyed_linkedCustomers, hperm, htemps, hreals, ?_⟩
  cases hrun : (assignKeys as).on c with
  | mk r d =>
    rw [hrun] at hdone hslot
    cases r with
    | error fault => cases hdone
    | ok =>
      obtain ⟨d', hok, halike⟩ := assignKeys_perm hc.formed hc.indexed
        integerKeyed_linkedCustomers hperm htemps hreals hrun
      exact ⟨d, d', rfl, hok, assignKeys_listed [first, second] ▸ hrun, halike, hslot⟩

end Action

end EntityCache
