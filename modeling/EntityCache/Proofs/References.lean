import EntityCache.Proofs.Fixups
import EntityCache.Proofs.FormationRuns

/-! Which foreign keys a fix-up reaches. A navigation names the type it leads to in any
spelling that the catalog finds the type by, but the references that are followed are those
whose navigation writes the bare name. On these no temporary value is left. -/
namespace EntityCache

open Cache EntityCache.Action

namespace Catalog

variable {catalog : Catalog} {t : EntityType}

/-- A property of the type `owner` is declared to hold a foreign key to `t`: by a scalar
navigation of the owner that leads to `t`, or by a navigation of `t` that leads to the owner.
The navigation writes a name that resolves to that of the type it leads to. -/
inductive Declares (catalog : Catalog) (t : EntityType) :
    (owner property written resolved : String) → Prop where
  | direct {u p fk} : u ∈ catalog.types → p ∈ u.navigationProperties → p.isScalar →
      catalog.find? p.target = some t → fk ∈ p.foreignKeys →
      Declares catalog t u.name fk p.target t.name
  | inverse {u p fk} : p ∈ t.navigationProperties → catalog.find? p.target = some u →
      fk ∈ p.inverseForeignKeys → Declares catalog t u.name fk p.target u.name

theorem mem_foldl_addNew {r : String × String} (rs acc : List (String × String)) :
    r ∈ rs.foldl addNew acc ↔ r ∈ acc ∨ r ∈ rs := by
  induction rs generalizing acc with
  | nil => simp
  | cons s rs ih =>
    rw [List.foldl_cons, ih, addNew]
    split
    · rename_i hs
      have hmem : s ∈ acc := by simpa using hs
      simp only [List.mem_cons]
      exact ⟨Or.imp_right Or.inr, fun h => h.elim Or.inl fun h => h.elim
        (fun heq => Or.inl (heq ▸ hmem)) Or.inr⟩
    · simp [or_assoc]

theorem Declares.mem_foreignKeyRefs (hself : catalog.find? t.name = some t)
    {owner property written resolved : String}
    (h : catalog.Declares t owner property written resolved) (hbare : written = resolved) :
    (owner, property) ∈ catalog.foreignKeyRefs t.name := by
  unfold foreignKeyRefs
  rw [hself, mem_foldl_addNew, List.mem_append]
  refine Or.inr ?_
  cases h with
  | @direct u p _ hu hp hs _ hfk =>
    refine Or.inl (List.mem_flatMap.mpr ⟨u, hu, List.mem_flatMap.mpr ⟨p, ?_, ?_⟩⟩)
    · exact List.mem_filter.mpr ⟨hp, by simp [hs, hbare]⟩
    · exact List.mem_map.mpr ⟨property, hfk, rfl⟩
  | @inverse u p _ hp _ hfk =>
    refine Or.inr (List.mem_flatMap.mpr ⟨p, hp, List.mem_map.mpr ⟨property, hfk, ?_⟩⟩)
    rw [hbare]

end Catalog

namespace Value

mutual

theorem same_self : (v : Value) → v.same v = true
  | .null | .boolean _ | .integer _ | .float _ | .text _ | .duration _ | .binary _ | .guid _
  | .dateTime _ | .dateTimeOffset _ _ => by simp [same]
  | .list items => by simp only [same]; exact sameItems_self items

theorem sameItems_self : (vs : List Value) → sameItems vs vs = true
  | [] => by simp [sameItems]
  | v :: vs => by simp [sameItems, same_self v, sameItems_self vs]

end

end Value

namespace Entity

theorem get?_redirect (e : Entity) (property other : String) (old new : Value) :
    (e.redirect property old new).get? other =
      if other = property ∧ e.refersTo property old then some new else e.get? other := by
  unfold redirect
  by_cases hr : e.refersTo property old
  · simp only [hr, if_true, and_true]
    exact get?_write e property other new
  · simp [hr]

end Entity

namespace Cache

variable {c c' : Cache} {t : EntityType} {p q : DataProperty} {old new temp real : Value}
  {id x : InstanceId} {r : String × String} {property : String}

/-- A foreign key of the same data type as what cascades: following a reference leaves it, or
writes the new value where the old one was. -/
theorem Followed.get?_cases (hf : Followed old new r c c')
    (hq : (c.entity x).type.dataProperty? property = some q) (hn : q.dataType.coerce new = new) :
    (c'.entity x).get? property = (c.entity x).get? property ∨
      (c.entity x).refersTo property old ∧ (c'.entity x).get? property = some new := by
  by_cases hs : ∃ slot, c.Holds r.1 slot x
  · obtain ⟨slot, hs⟩ := hs
    obtain ⟨q', hq', he⟩ := hf.redirects hs
    rw [he, Entity.get?_redirect]
    split
    · rename_i hwritten
      obtain ⟨rfl, hrefers⟩ := hwritten
      obtain rfl := Option.some.inj (hq.symm.trans hq')
      exact Or.inr ⟨hrefers, by rw [hn]⟩
    · exact Or.inl rfl
  · rw [hf.others fun slot hm => hs ⟨slot, hm⟩]
    exact Or.inl rfl

/-- No trace of the old value: what is the same as it is the new one. -/
def Settled (old new : Value) (property : String) (e : Entity) : Prop :=
  ∀ v, e.get? property = some v → v.same old → v = new

/-- What held the old value still does, or holds the new one by now. -/
def Tracked (old new : Value) (property : String) (e : Entity) : Prop :=
  ∃ v, e.get? property = some v ∧ (v.same old ∨ v = new)

theorem Followed.settled (hf : Followed old new r c c')
    (hq : (c.entity x).type.dataProperty? property = some q) (hn : q.dataType.coerce new = new)
    (h : Settled old new property (c.entity x)) : Settled old new property (c'.entity x) := by
  intro v hv hsame
  rcases hf.get?_cases hq hn with heq | ⟨-, heq⟩
  · exact h v (heq.symm.trans hv) hsame
  · exact (Option.some.inj (heq.symm.trans hv)).symm

theorem Followed.tracked (hf : Followed old new r c c')
    (hq : (c.entity x).type.dataProperty? property = some q) (hn : q.dataType.coerce new = new)
    (h : Tracked old new property (c.entity x)) : Tracked old new property (c'.entity x) := by
  rcases hf.get?_cases hq hn with heq | ⟨-, heq⟩
  · obtain ⟨v, hv, hcases⟩ := h
    exact ⟨v, heq.trans hv, hcases⟩
  · exact ⟨new, heq, Or.inr rfl⟩

/-- Following the reference itself leaves no trace of the old value in it. -/
theorem Followed.settles (hf : Followed old new r c c')
    (hq : (c.entity x).type.dataProperty? r.2 = some q) (hn : q.dataType.coerce new = new)
    {slot : Nat} (hs : c.Holds r.1 slot x) : Settled old new r.2 (c'.entity x) := by
  obtain ⟨q', hq', he⟩ := hf.redirects hs
  obtain rfl := Option.some.inj (hq.symm.trans hq')
  intro v hv hsame
  rw [he, Entity.get?_redirect, hn] at hv
  split at hv
  · exact (Option.some.inj hv).symm
  · rename_i hnot
    exact absurd ⟨rfl, Entity.refersTo_iff.mpr ⟨v, hv, hsame⟩⟩ hnot

theorem cascade_settles {refs : List (String × String)} {owner : String} {slot : Nat}
    (hc : c.Sound) (hok : (cascade old new refs).on c = (.ok (), c'))
    (hs : c.Holds owner slot x) (hq : (c.entity x).type.dataProperty? property = some q)
    (hn : q.dataType.coerce new = new)
    (h : (owner, property) ∈ refs ∨ Settled old new property (c.entity x)) :
    Settled old new property (c'.entity x) := by
  induction refs generalizing c with
  | nil =>
    cases hok
    exact h.resolve_left List.not_mem_nil
  | cons r refs ih =>
    rw [on_cascade_cons] at hok
    cases hr : c.follow old new r with
    | error fault =>
      rw [hr] at hok
      cases hok
    | ok c₁ =>
      rw [hr] at hok
      have hf := follow_spec hc hr
      have hq₁ : (c₁.entity x).type.dataProperty? property = some q := by rwa [hf.type]
      refine ih hf.sound hok (hf.unmoved.holds_iff.mpr hs) hq₁ ?_
      rcases h with hmem | hsettled
      · rcases List.mem_cons.mp hmem with rfl | hmem
        · exact Or.inr (hf.settles hq hn hs)
        · exact Or.inl hmem
      · exact Or.inr (hf.settled hq hn hsettled)

theorem cascade_tracks (refs : List (String × String)) (hc : c.Sound)
    (hq : (c.entity x).type.dataProperty? property = some q) (hn : q.dataType.coerce new = new)
    (h : Tracked old new property (c.entity x)) :
    Tracked old new property ((((cascade old new refs).on c).2).entity x) := by
  refine (cascade_preserves (P := fun d => (d.entity x).type.dataProperty? property = some q ∧
    Tracked old new property (d.entity x)) old new refs (fun {d d' r} _ _ hf hd => ?_) hc
    ⟨hq, h⟩).2.2
  exact ⟨by rw [hf.type, hd.1], hf.tracked hd.1 hn hd.2⟩

/-- The entity that is given the real key holds it in its key, and all else as before. -/
theorem Rekeyed.tracked (h : Rekeyed t p temp real c id c')
    (hne : Group.partText p temp ≠ Group.partText p real)
    (hx : Tracked old (t.keyValue real) property (c.entity x)) :
    Tracked old (t.keyValue real) property (c'.entity x) := by
  by_cases hid : x = id
  · subst hid
    obtain ⟨v, hv, hcases⟩ := hx
    rw [h.settled hne]
    have hget : (Group.settledKey (c.entity x) p real).get? property =
        if property = p.name then some (p.dataType.coerce real)
        else (c.entity x).get? property := Entity.get?_write (c.entity x) p.name property _
    by_cases hp : property = p.name
    · exact ⟨_, by rw [hget, if_pos hp], Or.inr (h.keyValue real).symm⟩
    · exact ⟨v, by rw [hget, if_neg hp, hv], hcases⟩
  · rwa [h.others x hid]

end Cache

namespace Action

variable {c c' : Cache} {t : EntityType} {p q : DataProperty} {typeName : String}
  {temp real : Value} {id x : InstanceId} {owner property written resolved : String}

/-- After a fix-up no reference that is declared by the bare name holds the temporary value:
what held it holds the real one. -/
theorem fixupKey_redirects (hf : c.Formed) (hi : c.Indexed)
    (ht : c.catalog.find typeName = .ok t) (hself : c.catalog.find? t.name = some t)
    (hne : (t.keyValue temp).keyText ≠ (t.keyValue real).keyText)
    (hok : (fixupKey typeName temp real).on c = (.ok id, c'))
    (hd : c.catalog.Declares t owner property written resolved) (hbare : written = resolved)
    {slot : Nat} (hx : c'.Holds owner slot x)
    (hq : (c'.entity x).type.dataProperty? property = some q)
    (hkey : ∃ p ∈ t.keyProperties, p.dataType = q.dataType) :
    (∀ v, (c.entity x).get? property = some v → v.same (t.keyValue temp) →
      (c'.entity x).get? property = some (t.keyValue real)) ∧
    (∀ v, (c'.entity x).get? property = some v → v.same (t.keyValue temp) →
      v = t.keyValue real) ∧
    (c'.entity x).get? property ≠ some (t.keyValue temp) := by
  have hc := hf.sound hi
  have htype := Catalog.type?_of_find? (Catalog.find_ok ht)
  rw [on_fixupKey ht] at hok
  obtain ⟨p, c₁, hrekeyed, hparts, hcascade⟩ := replaceTempKey_ok hc htype hne hok
  have hlast : ((cascade (t.keyValue temp) (t.keyValue real)
      (c.catalog.foreignKeyRefs t.name)).on c₁).2 = c' := congrArg Prod.snd hcascade
  obtain ⟨-, hunmoved, htypes⟩ := cascade_unmoved (t.keyValue temp)
    (t.keyValue real) (c.catalog.foreignKeyRefs t.name) hrekeyed.sound
  rw [hlast] at hunmoved htypes
  have hq₁ : (c₁.entity x).type.dataProperty? property = some q := by rwa [← htypes]
  have hcoerce : q.dataType.coerce (t.keyValue real) = t.keyValue real := by
    obtain ⟨p', hp', hsame⟩ := hkey
    rw [hrekeyed.single, List.mem_singleton] at hp'
    rw [hrekeyed.keyValue, ← hsame, hp', DataType.coerce_coerce]
  have hsettled : Settled (t.keyValue temp) (t.keyValue real) property (c'.entity x) :=
    cascade_settles hrekeyed.sound hcascade (hunmoved.holds_iff.mp hx) hq₁ hcoerce
      (Or.inl (hd.mem_foreignKeyRefs hself hbare))
  refine ⟨fun v hv hsame => ?_, hsettled, fun hold => ?_⟩
  · have htracked := cascade_tracks (c.catalog.foreignKeyRefs t.name) hrekeyed.sound hq₁
      hcoerce (hrekeyed.tracked hparts ⟨v, hv, Or.inl hsame⟩)
    rw [hlast] at htracked
    obtain ⟨w, hw, hcases⟩ := htracked
    rcases hcases with hsame | rfl
    · rw [hw, hsettled w hw hsame]
    · exact hw
  · have hback := hsettled _ hold (Value.same_self _)
    exact hne (congrArg Value.keyText hback)

def orderedAndNoted : Cache :=
  salesCache.run [.create "Customer", .add 0,
    .create "Order", .set 1 "id" (.integer 7), .set 1 "customerId" (.integer (-1)),
    .attach 1 .unchanged none,
    .create "Note", .set 2 "id" (.integer 8), .set 2 "customerId" (.integer (-1)),
    .attach 2 .unchanged none]

theorem sound_orderedAndNoted : orderedAndNoted.SoundIn sales :=
  PlainRun.sound (by decide +kernel) sound_salesCache

theorem sales_declares_order :
    sales.Declares sales.types[0] "Order" "customerId" "Customer" "Customer" :=
  .direct (u := sales.types[1]) (p := sales.types[1].navigationProperties[0])
    (by simp [sales]) (by simp [sales]) rfl rfl (by simp [sales])

/-- The order goes with its customer. -/
theorem order_redirected :
    let c := orderedAndNoted
    let c' := ((fixupKey "Customer" (.integer (-1)) (.integer 5)).on c).2
    c.Formed ∧ c.Indexed ∧ c'.Holds "Order" 0 1 ∧
      (c.entity 1).refersTo "customerId" (.integer (-1)) = true ∧
      (c'.entity 1).get? "customerId" = some (.integer 5) ∧
      (c'.entity 1).get? "customerId" ≠ some (.integer (-1)) := by
  intro c c'
  have hc := sound_orderedAndNoted
  have ht : c.catalog.find "Customer" = .ok sales.types[0] := by rw [hc.catalog]; rfl
  have hself : c.catalog.find? sales.types[0].name = some sales.types[0] := by
    rw [hc.catalog]
    rfl
  have hne : (sales.types[0].keyValue (.integer (-1))).keyText ≠
    (sales.types[0].keyValue (.integer 5)).keyText := by decide +kernel
  have hslots : c'.slotsOf "Order" = some [some 1] := by decide +kernel
  have hx : c'.Holds "Order" 0 1 := holds_of_slotsOf hslots rfl
  have hc' : c'.SoundIn sales := (fixupKey_keeps "Customer" _ _ c hc).holds
  have hq : (c'.entity 1).type.dataProperty? "customerId" =
      some sales.types[1].dataProperties[1] := by
    rw [← Option.some.inj (hc'.type_of_holds hx)]
    rfl
  have hrefers : (c.entity 1).refersTo "customerId" (.integer (-1)) = true := by decide +kernel
  have hdone : ((fixupKey "Customer" (.integer (-1)) (.integer 5)).on c).1.toOption = some 0 := by
    decide +kernel
  have hdeclared :
      c.catalog.Declares sales.types[0] "Order" "customerId" "Customer" "Customer" := by
    rw [hc.catalog]
    exact sales_declares_order
  have hkey : ∃ p ∈ sales.types[0].keyProperties,
      p.dataType = sales.types[1].dataProperties[1].dataType :=
    ⟨sales.types[0].dataProperties[0], by simp [sales, EntityType.keyProperties], rfl⟩
  obtain ⟨v, hv, hsame⟩ := Entity.refersTo_iff.mp hrefers
  refine ⟨hc.sound.formed, hc.sound.indexed, hx, hrefers, ?_⟩
  cases hrun : (fixupKey "Customer" (.integer (-1)) (.integer 5)).on c with
  | mk r c₂ =>
    have hlast : c' = c₂ := congrArg Prod.snd hrun
    rw [hrun] at hdone
    rw [hlast] at hx hq ⊢
    cases r with
    | error fault => cases hdone
    | ok id =>
      obtain ⟨hheld, -, hnone⟩ := fixupKey_redirects hc.sound.formed hc.sound.indexed ht hself hne
        hrun hdeclared rfl hx hq hkey
      exact ⟨hheld v hv hsame, hnone⟩

/-- The note does not: it writes the name of the type of customers with its namespace. -/
theorem note_left_dangling :
    let c := orderedAndNoted
    let c' := ((fixupKey "Customer" (.integer (-1)) (.integer 5)).on c).2
    sales.Declares sales.types[0] "Note" "customerId" "Customer:#Sales" "Customer" ∧
      c.Formed ∧ c.Indexed ∧
      ((fixupKey "Customer" (.integer (-1)) (.integer 5)).on c).1.toOption = some 0 ∧
      c'.slotsOf "Note" = some [some 2] ∧
      (c'.entity 2).refersTo "customerId" (.integer (-1)) = true ∧
      c'.slot? "Customer" "-1" = none := by
  refine ⟨.direct (u := sales.types[3]) (p := sales.types[3].navigationProperties[0])
    (by simp [sales]) (by simp [sales]) rfl ?_ (by simp [sales]),
    sound_orderedAndNoted.sound.formed, sound_orderedAndNoted.sound.indexed, ?_⟩
  · rfl
  · decide +kernel

end Action

end EntityCache
