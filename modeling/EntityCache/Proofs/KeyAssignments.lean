import EntityCache.Proofs.Collisions
import EntityCache.Proofs.KeyEdits

/-! What an integer key that the server assigns does to a cache in which keys are integers:
edits of the cached entities, which move nobody. The assignment goes through exactly if the
temporary key is there, whoever is asked for a reference has it, and no two entities have
the same key when all is done. -/
namespace EntityCache

open Cache EntityCache.Action

structure VisitOrder where
  arrange : List (String × String) → List (String × String)
  perm : ∀ refs, (arrange refs).Perm refs

def VisitOrder.listed : VisitOrder := ⟨id, fun refs => .refl refs⟩

/-- An integer in place of the temporary key of an entity. -/
structure IntegerAssignment where
  typeName : String
  temp : Int64
  real : Int64
  deriving DecidableEq, Repr

namespace IntegerAssignment

def assignment (a : IntegerAssignment) : KeyAssignment where
  typeName := a.typeName
  temp := .integer a.temp
  real := .integer a.real

def ofKey (a : IntegerAssignment) (t : EntityType) (p : DataProperty) : KeyEdit :=
  ⟨t.name, p.name, a.temp, a.real, true⟩

def ofReference (a : IntegerAssignment) (r : String × String) : KeyEdit :=
  ⟨r.1, r.2, a.temp, a.real, false⟩

end IntegerAssignment

theorem Entity.edit_ofReference {e : Entity} {a : IntegerAssignment} {r : String × String}
    (h : r.1 = e.type.name) :
    e.edit (a.ofReference r) = e.redirect r.2 (.integer a.temp) (.integer a.real) := by
  simp only [edit, redirect, KeyEdit.applies, IntegerAssignment.ofReference, h, decide_true,
    Bool.true_and, Bool.not_false, Bool.and_true]
  rfl

def Catalog.editsOf (catalog : Catalog) (o : VisitOrder) (a : IntegerAssignment) : List KeyEdit :=
  match catalog.find? a.typeName with
  | none => []
  | some t => t.keyProperties.map (a.ofKey t) ++
      (o.arrange (catalog.foreignKeyRefs t.name)).map a.ofReference

theorem Catalog.mem_editsOf {catalog : Catalog} {o : VisitOrder} {a : IntegerAssignment}
    {s : KeyEdit} (h : s ∈ catalog.editsOf o a) : s.temp = a.temp ∧ s.real = a.real := by
  unfold editsOf at h
  cases hf : catalog.find? a.typeName with
  | none =>
    rw [hf] at h
    cases h
  | some t =>
    rw [hf] at h
    rcases List.mem_append.mp h with h | h <;> obtain ⟨_, -, rfl⟩ := List.mem_map.mp h <;>
      exact ⟨rfl, rfl⟩

def Catalog.IntegerReference (catalog : Catalog) (r : String × String) : Prop :=
  ∀ t p, catalog.type? r.1 = some t → t.dataProperty? r.2 = some p → p.dataType.isInteger

instance (catalog : Catalog) (r : String × String) : Decidable (catalog.IntegerReference r) :=
  decidable_of_iff
    (((catalog.type? r.1).bind (·.dataProperty? r.2)).all (·.dataType.isInteger)) <| by
      simp only [Catalog.IntegerReference, Option.all_eq_true, Option.bind_eq_some_iff]
      exact ⟨fun h t p ht hp => h p ⟨t, ht, hp⟩, fun h p ⟨t, ht, hp⟩ => h t p ht hp⟩

/-- Integers are the keys of all that is cached, and the references to keys. -/
structure Cache.IntegerKeyed (c : Cache) : Prop where
  keys : ∀ {id}, c.IsCached id → (c.entity id).IntegerKey
  references : ∀ {t r}, c.catalog.type? t.name = some t → r ∈ c.catalog.foreignKeyRefs t.name →
    c.catalog.IntegerReference r

def TempKeys.settle (keys : TempKeys) (s : KeyEdit) : TempKeys :=
  if s.settles then keys.release s.owner (.integer s.temp) else keys

namespace Cache

variable {c d e : Cache} {ss us : List KeyEdit} {a : IntegerAssignment} {t : EntityType}
  {p : DataProperty} {r : String × String}

theorem Sound.eq_of_keyText (hc : c.Sound) {name : String} {slot slot' : Nat}
    {x y : InstanceId} (hx : c.Holds name slot x) (hy : c.Holds name slot' y)
    (h : (c.entity x).keyText = (c.entity y).keyText) : x = y := by
  obtain ⟨g, hg, hx⟩ := hx
  obtain ⟨g', hg', hy⟩ := hy
  obtain rfl := Option.some.inj (hg.symm.trans hg')
  have hslot := (hc.groups hg).indexed hx
  change g.index.get? (c.entity x).keyText = some slot at hslot
  rw [h] at hslot
  obtain rfl := Option.some.inj (hslot.symm.trans ((hc.groups hg).indexed hy))
  exact hx.unique hy

theorem Unmoved.catalog (h : Unmoved c d) : d.catalog = c.catalog := by rw [h.rest]

theorem Unmoved.isCached_iff (h : Unmoved c d) {id : InstanceId} :
    d.IsCached id ↔ c.IsCached id :=
  exists_congr fun _ => exists_congr fun _ => h.holds_iff

/-- Everything cached has been edited, nothing else has, and the temporary keys of what the
edits settle are forgotten. -/
structure Edited (c : Cache) (ss : List KeyEdit) (d : Cache) : Prop where
  unmoved : Unmoved c d
  sound : d.Sound
  keys : d.keys = ss.foldl TempKeys.settle c.keys
  cached : ∀ {id}, c.IsCached id → d.entity id = (c.entity id).edits ss
  others : ∀ {id}, ¬ c.IsCached id → d.entity id = c.entity id

def Distinguished (c : Cache) (ss : List KeyEdit) : Prop :=
  ∀ {name slot slot' x y}, c.Holds name slot x → c.Holds name slot' y →
    ((c.entity x).edits ss).keyText = ((c.entity y).edits ss).keyText → x = y

namespace Edited

theorem nil (hc : c.Sound) : Edited c [] c :=
  ⟨Std.Refl.refl c, hc, rfl, fun _ => rfl, fun _ => rfl⟩

theorem trans (h : Edited c ss d) (k : Edited d us e) : Edited c (ss ++ us) e where
  unmoved := IsTrans.trans _ _ _ h.unmoved k.unmoved
  sound := k.sound
  keys := by rw [k.keys, h.keys, List.foldl_append]
  cached hid := by
    rw [k.cached (h.unmoved.isCached_iff.mpr hid), h.cached hid, Entity.edits_append]
  others hid := by
    rw [k.others fun hd => hid (h.unmoved.isCached_iff.mp hd), h.others hid]

theorem integerKeyed (h : Edited c ss d) (hk : c.IntegerKeyed) : d.IntegerKeyed where
  keys hid := by
    have hid := h.unmoved.isCached_iff.mp hid
    rw [h.cached hid]
    exact (hk.keys hid).edits ss
  references ht hr := by
    rw [h.unmoved.catalog] at ht hr ⊢
    exact hk.references ht hr

theorem distinguished (h : Edited c ss d) : c.Distinguished ss := by
  intro name slot slot' x y hx hy heq
  rw [← h.cached ⟨_, _, hx⟩, ← h.cached ⟨_, _, hy⟩] at heq
  exact h.sound.eq_of_keyText (h.unmoved.holds_iff.mpr hx) (h.unmoved.holds_iff.mpr hy) heq

end Edited

theorem Distinguished.after (h : c.Distinguished (ss ++ us)) (hd : Edited c ss d) :
    d.Distinguished us := by
  intro name slot slot' x y hx hy heq
  have hx := hd.unmoved.holds_iff.mp hx
  have hy := hd.unmoved.holds_iff.mp hy
  rw [hd.cached ⟨_, _, hx⟩, hd.cached ⟨_, _, hy⟩, ← Entity.edits_append,
    ← Entity.edits_append] at heq
  exact h hx hy heq

/-- Entities that collide on the way still collide in the end. -/
theorem Distinguished.before (h : c.Distinguished (ss ++ us)) (hc : c.Sound)
    (hk : c.IntegerKeyed) : c.Distinguished ss := by
  intro name slot slot' x y hx hy heq
  refine h hx hy ?_
  have htype : (c.entity x).type = (c.entity y).type :=
    Option.some.inj ((hc.type_of_holds hx).symm.trans (hc.type_of_holds hy))
  rw [Entity.edits_append, Entity.edits_append]
  exact ((hk.keys ⟨_, _, hx⟩).edits ss).keyText_edits_congr ((hk.keys ⟨_, _, hy⟩).edits ss)
    (by simp [htype]) heq us

section Key

theorem partText_integer (hp : p.dataType.isInteger) (i : Int64) :
    Group.partText p (.integer i) = (Value.integer i).keyText := by
  rw [Group.partText, DataType.coerce_integer hp]

theorem partText_integer_inj (hp : p.dataType.isInteger) {i j : Int64} :
    Group.partText p (.integer i) = Group.partText p (.integer j) ↔ i = j := by
  rw [partText_integer hp, partText_integer hp, Value.keyText_integer_inj]

theorem keyText_eq_partText_iff {x : Entity} (hx : x.IntegerKey)
    (hp : x.type.keyProperties = [p]) (i : Int64) :
    x.keyText = Group.partText p (.integer i) ↔ x.get? p.name = some (.integer i) := by
  have hmem : p ∈ x.type.keyProperties := by simp [hp]
  obtain ⟨hget, hinteger⟩ := hx.keyValue hmem
  have htext : x.keyText = (x.keyValue p).keyText := by
    rw [Entity.keyText, Entity.ownKey, hp, List.map_singleton, Group.inGroup_single]
  rw [htext, partText_integer (hx p hmem).1, hget, Option.some_inj]
  exact ⟨Value.keyText_inj hinteger rfl, fun h => by rw [h]⟩

/-- The real key in place of the temporary one is an edit. Nobody else has the temporary
key, so nobody else is meant. -/
theorem Rekeyed.edited {id : InstanceId} (hc : c.Sound) (hk : c.IntegerKeyed)
    (h : Rekeyed t p (.integer a.temp) (.integer a.real) c id d) (hne : a.temp ≠ a.real) :
    Edited c [a.ofKey t p] d := by
  obtain ⟨slot, hs⟩ := h.holds
  have hid := hk.keys ⟨_, _, hs⟩
  have hsingle : (c.entity id).type.keyProperties = [p] := h.type ▸ h.single
  have hinteger : p.dataType.isInteger := (hid p (by simp [hsingle])).1
  have htemp := (keyText_eq_partText_iff hid hsingle a.temp).mp h.held
  have hsettled : d.entity id = (c.entity id).edit (a.ofKey t p) := by
    have hparts : Group.partText p (.integer a.temp) ≠ Group.partText p (.integer a.real) :=
      fun heq => hne ((partText_integer_inj hinteger).mp heq)
    have happlies : (a.ofKey t p).applies (c.entity id) := KeyEdit.applies_iff.mpr
      ⟨by rw [h.type]; rfl, (Entity.refersTo_integer_iff htemp a.temp).mpr rfl⟩
    have hwritten : ((c.entity id).write p.name (.integer a.real)).keyText =
        Group.partText p (.integer a.real) := Group.keyText_write_single hsingle _
    rw [h.settled hparts, Entity.edit, if_pos happlies]
    simp [Group.settledKey, Entity.redirected, IntegerAssignment.ofKey, hwritten,
      DataType.coerce_integer hinteger]
  have hothers : ∀ {x}, x ≠ id → c.IsCached x → ¬ (a.ofKey t p).applies (c.entity x) := by
    rintro x hx ⟨name, slot', hx'⟩ happlies
    obtain ⟨howner, hrefers⟩ := KeyEdit.applies_iff.mp happlies
    obtain rfl : name = t.name := (hc.group_type hx').symm.trans howner.symm
    have ht : c.catalog.type? t.name = some t := by rw [hc.type_of_holds hs, h.type]
    have hxkey := hk.keys ⟨_, _, hx'⟩
    have hxsingle : (c.entity x).type.keyProperties = [p] :=
      (hc.type_of_registered ht hx').symm ▸ h.single
    have hget := (hxkey.refersTo_iff (p := p) (by simp [hxsingle]) a.temp).mp hrefers
    have hxheld := (keyText_eq_partText_iff hxkey hxsingle a.temp).mpr hget
    exact hx (hc.eq_of_keyText hx' hs (hxheld.trans h.held.symm))
  refine ⟨h.unmoved, h.sound, ?_, fun {x} hx => ?_, fun {x} hx => h.others x fun heq =>
    hx (heq ▸ ⟨_, _, hs⟩)⟩
  · rw [h.keys, h.keyValue, DataType.coerce_integer hinteger]
    rfl
  · by_cases heq : x = id
    · rw [heq]
      exact hsettled
    · rw [h.others x heq]
      exact (if_neg (hothers heq hx)).symm

/-- The real key is free if nobody has the same key after the edit. -/
theorem rekey_of_distinguished (hc : c.Sound) (hk : c.IntegerKeyed)
    (ht : c.catalog.type? t.name = some t) (hp : t.keyProperties = [p]) (hne : a.temp ≠ a.real)
    {slot : Nat} {id : InstanceId} (hs : c.Holds t.name slot id)
    (htemp : (c.entity id).get? p.name = some (.integer a.temp))
    (hd : c.Distinguished [a.ofKey t p]) :
    ∃ d, c.rekey t (.integer a.temp) (.integer a.real) = .ok (id, d) := by
  have hsingle : ∀ {s x}, c.Holds t.name s x → (c.entity x).type.keyProperties = [p] :=
    fun hx => (hc.type_of_registered ht hx).symm ▸ hp
  refine rekey_ok hc ht hp hs
    ((keyText_eq_partText_iff (hk.keys ⟨_, _, hs⟩) (hsingle hs) a.temp).mpr htemp)
    fun {s x} hx htext => ?_
  have hreal := (keyText_eq_partText_iff (hk.keys ⟨_, _, hx⟩) (hsingle hx) a.real).mp htext
  have hafter : ((c.entity id).edit (a.ofKey t p)).get? p.name = some (.integer a.real) := by
    rw [Entity.get?_edit, if_pos ⟨rfl, KeyEdit.applies_iff.mpr
      ⟨by rw [hc.type_of_registered ht hs]; rfl,
        (Entity.refersTo_integer_iff htemp a.temp).mpr rfl⟩⟩]
    rfl
  have hstays : ((c.entity x).edits [a.ofKey t p]).get? p.name = some (.integer a.real) := by
    refine Entity.get?_edits_of_other (fun u hu => ?_) hreal
    rw [List.mem_singleton.mp hu]
    exact hne
  have hkeys : ∀ {s y}, c.Holds t.name s y →
      ((c.entity y).edit (a.ofKey t p)).get? p.name = some (.integer a.real) →
      ((c.entity y).edit (a.ofKey t p)).keyText = Group.partText p (.integer a.real) :=
    fun hy hget => (keyText_eq_partText_iff ((hk.keys ⟨_, _, hy⟩).edit _)
      (by rw [Entity.type_edit, hsingle hy]) a.real).mpr hget
  obtain rfl := hd hs hx ((hkeys hs hafter).trans (hkeys hx hstays).symm)
  exact hne (Value.integer.inj (Option.some.inj (htemp.symm.trans hreal)))

end Key

section References

/-- Following a reference is an edit. -/
theorem Followed.edited (hc : c.Sound) (hr : c.catalog.IntegerReference r)
    (h : Followed (.integer a.temp) (.integer a.real) r c d) :
    Edited c [a.ofReference r] d := by
  refine ⟨h.unmoved, h.sound, h.keys, fun {x} hx => ?_, fun {x} hx => h.others fun slot hs =>
    hx ⟨_, _, hs⟩⟩
  obtain ⟨name, slot, hs⟩ := hx
  by_cases hname : name = r.1
  · subst hname
    obtain ⟨q, hq, he⟩ := h.redirects hs
    have hinteger := hr _ q (hc.type_of_holds hs) hq
    rw [he, DataType.coerce_integer hinteger]
    exact (Entity.edit_ofReference (hc.group_type hs).symm).symm
  · have hnot : ∀ slot', ¬ c.Holds r.1 slot' x := fun slot' hs' =>
      hname ((hc.group_type hs).symm.trans (hc.group_type hs'))
    rw [h.others hnot]
    refine (if_neg fun happlies => hname ?_).symm
    exact (hc.group_type hs).symm.trans (KeyEdit.applies_iff.mp happlies).1.symm

theorem follow_of_distinguished (hc : c.Sound) (hr : c.catalog.IntegerReference r)
    (ho : c.Offers r) (hd : c.Distinguished [a.ofReference r]) :
    ∃ d, c.follow (.integer a.temp) (.integer a.real) r = .ok d := by
  refine follow_ok hc ho fun {q s x s' y} hx hy hq heq => hd hx hy ?_
  rw [DataType.coerce_integer (hr _ q (hc.type_of_holds hx) hq)] at heq
  change ((c.entity x).edit _).keyText = ((c.entity y).edit _).keyText
  rwa [Entity.edit_ofReference (hc.group_type hx).symm,
    Entity.edit_ofReference (hc.group_type hy).symm]

theorem Unmoved.offers_iff (h : Unmoved c d) : d.Offers r ↔ c.Offers r := by
  constructor
  · intro ho g hg
    obtain ⟨g', hg', htype, -⟩ := h.groups hg
    exact htype ▸ ho g' hg'
  · intro ho g' hg'
    cases hg : c.groups.get? r.1 with
    | none => cases hg'.symm.trans (h.noGroup hg)
    | some g =>
      obtain ⟨g₁, hg₁, htype, -⟩ := h.groups hg
      obtain rfl := Option.some.inj (hg'.symm.trans hg₁)
      exact htype.symm ▸ ho g hg

theorem cascade_edited {refs : List (String × String)} (hc : c.Sound)
    (hr : ∀ r ∈ refs, c.catalog.IntegerReference r)
    (hok : (cascade (.integer a.temp) (.integer a.real) refs).on c = (.ok (), d)) :
    Edited c (refs.map a.ofReference) d ∧ ∀ r ∈ refs, c.Offers r := by
  induction refs generalizing c with
  | nil =>
    cases hok
    exact ⟨.nil hc, fun _ hm => absurd hm List.not_mem_nil⟩
  | cons r refs ih =>
    rw [on_cascade_cons] at hok
    cases hfollow : c.follow (.integer a.temp) (.integer a.real) r with
    | error fault =>
      rw [hfollow] at hok
      cases hok
    | ok c₁ =>
      rw [hfollow] at hok
      have hfirst := (follow_spec hc hfollow).edited hc (hr r List.mem_cons_self)
      obtain ⟨hrest, hoffers⟩ := ih hfirst.sound (fun s hs => by
        rw [hfirst.unmoved.catalog]
        exact hr s (List.mem_cons_of_mem r hs)) hok
      refine ⟨hfirst.trans hrest, fun s hs => ?_⟩
      rcases List.mem_cons.mp hs with rfl | hs
      · exact offers_of_follow hc hfollow
      · exact hfirst.unmoved.offers_iff.mp (hoffers s hs)

theorem cascade_of_distinguished {refs : List (String × String)} (hc : c.Sound)
    (hk : c.IntegerKeyed) (hr : ∀ r ∈ refs, c.catalog.IntegerReference r)
    (ho : ∀ r ∈ refs, c.Offers r) (hd : c.Distinguished (refs.map a.ofReference)) :
    ∃ d, (cascade (.integer a.temp) (.integer a.real) refs).on c = (.ok (), d) := by
  induction refs generalizing c with
  | nil => exact ⟨c, rfl⟩
  | cons r refs ih =>
    have hhead := hr r List.mem_cons_self
    have hone : c.Distinguished [a.ofReference r] := hd.before hc hk
    obtain ⟨c₁, hfollow⟩ := follow_of_distinguished hc hhead (ho r List.mem_cons_self) hone
    have hfirst := (follow_spec hc hfollow).edited hc hhead
    obtain ⟨d, hrest⟩ := ih hfirst.sound (hfirst.integerKeyed hk)
      (fun s hs => by
        rw [hfirst.unmoved.catalog]
        exact hr s (List.mem_cons_of_mem r hs))
      (fun s hs => hfirst.unmoved.offers_iff.mpr (ho s (List.mem_cons_of_mem r hs)))
      (hd.after hfirst)
    exact ⟨d, by rw [on_cascade_cons, hfollow]; exact hrest⟩

end References

end Cache

end EntityCache
