import EntityCache.Proofs.References
import EntityCache.Proofs.SaveParts
import EntityCache.Proofs.TempKeyAgreement

/-! Who is found under a key, before and after a temporary key is replaced. The cascade that
follows may write to the key of anybody of the type, but only what the real key is; so it
neither takes the entity from under its real key nor brings back the temporary one. -/
namespace EntityCache

open Cache EntityCache.Action

namespace Cache

variable {c c' d d' : Cache} {t : EntityType} {p : DataProperty} {typeName : String}
  {v w temp real old : Value} {id x : InstanceId} {r : String × String}

section Lookup

/-- A key of one part leads to who is cached under the type and has that key. -/
theorem Sound.find?_single (hc : c.Sound) (ht : c.catalog.find typeName = .ok t)
    (hp : t.keyProperties = [p]) (v : Value) :
    ∃ found, c.find? typeName [v] = .ok found ∧ ∀ x, found = some x ↔
      (∃ slot, c.Holds t.name slot x) ∧ (c.entity x).keyText = Group.partText p v := by
  unfold find?
  rw [ht]
  cases hg : c.groups.get? t.name with
  | none =>
    refine ⟨none, by simp [bind, Except.bind, hg, Group.make_single hp, Except.map], fun x => ?_⟩
    constructor
    · intro h
      cases h
    · rintro ⟨⟨slot, g, hg', -⟩, -⟩
      cases hg.symm.trans hg'
  | some g =>
    have htype : g.type = t :=
      Option.some.inj ((hc.registered hg).symm.trans (Catalog.type?_of_find ht))
    refine ⟨g.findText? (Group.partText p v), ?_, fun x => ?_⟩
    · simp [bind, Except.bind, hg, Group.find?, htype, Group.make_single hp, Except.map,
        Group.inGroup_single, Group.partText]
    · rw [Group.findText?, Option.bind_eq_some_iff]
      constructor
      · rintro ⟨slot, hi, hjoin⟩
        have hs : g.Holds slot x := Option.join_eq_some_iff.mp hjoin
        obtain ⟨y, hy, hk⟩ := ((hc.groups hg).index_iff _ _).mp hi
        exact ⟨⟨slot, g, hg, hs⟩, by rwa [hs.unique hy]⟩
      · rintro ⟨⟨slot, g', hg', hs⟩, hk⟩
        obtain rfl := Option.some.inj (hg.symm.trans hg')
        exact ⟨slot, ((hc.groups hg).index_iff _ _).mpr ⟨x, hs, hk⟩,
          Option.join_eq_some_iff.mpr hs⟩

theorem Sound.find?_some (hc : c.Sound) (ht : c.catalog.find typeName = .ok t)
    (hp : t.keyProperties = [p]) (hs : ∃ slot, c.Holds t.name slot x)
    (hk : (c.entity x).keyText = Group.partText p v) : c.find? typeName [v] = .ok (some x) := by
  obtain ⟨found, hfound, hiff⟩ := hc.find?_single ht hp v
  rw [hfound, (hiff x).mpr ⟨hs, hk⟩]

theorem Sound.find?_none (hc : c.Sound) (ht : c.catalog.find typeName = .ok t)
    (hp : t.keyProperties = [p])
    (h : ∀ x slot, c.Holds t.name slot x → (c.entity x).keyText ≠ Group.partText p v) :
    c.find? typeName [v] = .ok none := by
  obtain ⟨found, hfound, hiff⟩ := hc.find?_single ht hp v
  cases found with
  | none => exact hfound
  | some x =>
    obtain ⟨⟨slot, hs⟩, hk⟩ := (hiff x).mp rfl
    exact absurd hk (h x slot hs)

end Lookup

section Cascade

/-- What a cascade of the key `w` of a type leaves of the caches and of the type's own keys. -/
structure Carried (t : EntityType) (p : DataProperty) (w : Value) (c d : Cache) : Prop where
  relabels : Relabels c d
  keys : d.keys = c.keys
  marks : ∀ x, (d.entity x).hasTempKey = (c.entity x).hasTempKey
  part : ∀ x, (c.entity x).type = t →
    (d.entity x).get? p.name = (c.entity x).get? p.name ∨
      (d.entity x).get? p.name = some (p.dataType.coerce w)

theorem Carried.follow (hd : t.DistinctNames) (hp : t.keyProperties = [p])
    (h : Carried t p w c d) (hf : Followed old (p.dataType.coerce w) r d d') :
    Carried t p w c d' where
  relabels := IsTrans.trans _ _ _ h.relabels hf.relabels
  keys := hf.keys.trans h.keys
  marks x := (hf.hasTempKey x).trans (h.marks x)
  part x hx := by
    have hmem : p ∈ t.dataProperties := (EntityType.mem_keyProperties.mp (by simp [hp])).1
    have hq : (d.entity x).type.dataProperty? p.name = some p := by
      rw [h.relabels.type, hx]
      exact EntityType.dataProperty?_of_mem hd hmem
    rcases hf.get?_cases hq (DataType.coerce_coerce _ _) with heq | ⟨-, heq⟩
    · rw [heq]
      exact h.part x hx
    · exact Or.inr heq

theorem Carried.keyText (hp : t.keyProperties = [p]) (h : Carried t p w c d)
    (hx : (c.entity x).type = t) :
    (d.entity x).keyText = (c.entity x).keyText ∨
      (d.entity x).keyText = Group.partText p w := by
  have hd : (d.entity x).type.keyProperties = [p] := by rw [h.relabels.type, hx, hp]
  rw [Entity.keyText_single hd, Entity.keyText_single (by rw [hx, hp] :
    (c.entity x).type.keyProperties = [p]), Entity.keyValue, Entity.keyValue]
  rcases h.part x hx with heq | heq
  · exact Or.inl (by rw [heq])
  · refine Or.inr ?_
    rw [heq, Option.getD_some, DataType.coerce_coerce]
    rfl

/-- A cascade that goes through, as a whole. -/
theorem cascade_carries {refs : List (String × String)} (hc : c.Sound)
    (hd : t.DistinctNames) (hp : t.keyProperties = [p])
    (hok : (cascade old (p.dataType.coerce w) refs).on c = (.ok (), c')) :
    c'.Sound ∧ Carried t p w c c' := by
  have hlast : ((cascade old (p.dataType.coerce w) refs).on c).2 = c' := congrArg Prod.snd hok
  rw [← hlast]
  exact cascade_preserves (P := Carried t p w c) old _ refs
    (fun _ _ hf h => h.follow hd hp hf) hc
    ⟨Std.Refl.refl c, rfl, fun _ => rfl, fun _ _ => Or.inl rfl⟩

/-- The value that cascades is the one that the entity holds by then. It has the text of the
real key, and where the text of the key has changed it is the real key. -/
theorem Rekeyed.cascaded (h : Rekeyed t p temp real c id c') :
    ∃ w, (c'.entity id).firstKey = p.dataType.coerce w ∧
      (c'.entity id).keyText = Group.partText p w ∧
      Group.partText p w = Group.partText p real ∧
      (Group.partText p temp ≠ Group.partText p real →
        (c'.entity id).get? p.name = some (p.dataType.coerce real) ∧
          p.dataType.coerce w = p.dataType.coerce real) := by
  have hsingle : (c'.entity id).type.keyProperties = [p] := by
    rw [h.relabels.type, h.type, h.single]
  have hsettled : Group.partText p temp ≠ Group.partText p real →
      (c'.entity id).get? p.name = some (p.dataType.coerce real) := fun hne => by
    rw [h.settled hne]
    exact (Entity.get?_write (c.entity id) p.name p.name _).trans (if_pos rfl)
  have htext : (c'.entity id).keyText =
      Group.partText p (((c'.entity id).get? p.name).getD .null) := Entity.keyText_single hsingle
  refine ⟨((c'.entity id).get? p.name).getD .null, ?_, htext, ?_, fun hne => ?_⟩
  · rw [Entity.firstKey, Entity.ownKey, hsingle]
    rfl
  · by_cases heq : Group.partText p temp = Group.partText p real
    · rw [← htext, ← heq, ← h.held, h.unmarked heq]
      rfl
    · rw [hsettled heq, Option.getD_some, Group.partText, DataType.coerce_coerce]
      rfl
  · exact ⟨hsettled hne, by rw [hsettled hne, Option.getD_some, DataType.coerce_coerce]⟩

/-- Nobody else has the temporary key, so nobody has it once the real one is given. -/
theorem Rekeyed.keyText_ne (hc : c.Sound) (h : Rekeyed t p temp real c id c')
    (hne : Group.partText p temp ≠ Group.partText p real) {slot : Nat}
    (hx : c'.Holds t.name slot x) : (c'.entity x).keyText ≠ Group.partText p temp := by
  intro hk
  by_cases hid : x = id
  · subst hid
    obtain ⟨w, -, htext, hreal, -⟩ := h.cascaded
    exact hne (hk.symm.trans (htext.trans hreal))
  · rw [h.others x hid] at hk
    obtain ⟨slot', hs⟩ := h.holds
    have hown := hc.indexed.slot?_own hs
    have hother := hc.indexed.slot?_own (h.unmoved.holds_iff.mp hx)
    rw [h.held] at hown
    rw [hk, hown] at hother
    obtain rfl := Option.some.inj hother
    obtain ⟨g, hg, hs⟩ := hs
    obtain ⟨g', hg', hs'⟩ := h.unmoved.holds_iff.mp hx
    obtain rfl := Option.some.inj (hg.symm.trans hg')
    exact hid (hs'.unique hs)

end Cascade

end Cache

namespace Action

variable {c c' : Cache} {t : EntityType} {typeName : String} {temp real : Value}
  {id : InstanceId}

structure Resettled (typeName : String) (temp real : Value) (c : Cache) (id : InstanceId)
    (c' : Cache) (t : EntityType) (p : DataProperty) : Prop where
  known : c.catalog.find typeName = .ok t
  single : t.keyProperties = [p]
  foundBefore : c.find? typeName [temp] = .ok (some id)
  foundAfter : c'.find? typeName [real] = .ok (some id)
  vacated : Group.partText p temp ≠ Group.partText p real → c'.find? typeName [temp] = .ok none
  held : Group.partText p temp ≠ Group.partText p real →
    (c'.entity id).get? p.name = some (p.dataType.coerce real)
  unmarked : (c'.entity id).hasTempKey = false
  released : c'.keys.isIssued t.name (p.dataType.coerce temp) = false
  state : ∀ x, (c'.entity x).state = (c.entity x).state
  originals : ∀ x, (c'.entity x).originals = (c.entity x).originals
  indexed : c'.Indexed

theorem fixupKey_ok (hc : c.Sound) (hok : (fixupKey typeName temp real).on c = (.ok id, c')) :
    ∃ t p c₁, c.catalog.find typeName = .ok t ∧ Rekeyed t p temp real c id c₁ ∧
      (cascade (t.keyValue temp) (c₁.entity id).firstKey (c.catalog.foreignKeyRefs t.name)).on c₁ =
        (.ok (), c') := by
  cases ht : c.catalog.find typeName with
  | error fault =>
    unfold fixupKey at hok
    rw [on_bind_ok (on_get c), ht, on_bind_error (on_lift _ c)] at hok
    cases hok
  | ok t =>
    rw [on_fixupKey ht] at hok
    obtain ⟨p, c₁, hsteps⟩ := replaceTempKey_steps hc (Catalog.type?_of_find ht) hok
    exact ⟨t, p, c₁, rfl, hsteps⟩

/-- The entity that was found under the temporary key is found under the real one. -/
theorem fixupKey_roundTrip (hf : c.Formed) (hi : c.Indexed)
    (hok : (fixupKey typeName temp real).on c = (.ok id, c')) :
    ∃ t p, Resettled typeName temp real c id c' t p := by
  have hc := hf.sound hi
  obtain ⟨t, p, c₁, ht, hrekeyed, hcascade⟩ := fixupKey_ok hc hok
  have hp := hrekeyed.single
  obtain ⟨w, hfirst, htext, hreal, hsettled⟩ := hrekeyed.cascaded
  rw [hfirst] at hcascade
  obtain ⟨hc', hcarried⟩ := cascade_carries hrekeyed.sound
    (hc.distinct (Catalog.type?_of_find ht)) hp hcascade
  have hrelabels : Relabels c c' := IsTrans.trans _ _ _ hrekeyed.relabels hcarried.relabels
  have ht' : c'.catalog.find typeName = .ok t := by rw [hrelabels.catalog, ht]
  have htype₁ : (c₁.entity id).type = t := by rw [hrekeyed.relabels.type, hrekeyed.type]
  obtain ⟨slot, hs⟩ := hrekeyed.holds
  refine ⟨t, p, ht, hp, hc.find?_some ht hp ⟨slot, hs⟩ hrekeyed.held,
    hc'.find?_some ht' hp ⟨slot, hrelabels.unmoved.holds_iff.mpr hs⟩ ?_, fun hne => ?_,
    fun hne => ?_, ?_, ?_, hrelabels.state, hrelabels.originals, hc'.indexed⟩
  · rcases hcarried.keyText hp htype₁ with heq | heq
    · rw [heq, htext, hreal]
    · rw [heq, hreal]
  · refine hc'.find?_none ht' hp fun x slot hx => ?_
    have hx₁ : c₁.Holds t.name slot x := hcarried.relabels.unmoved.holds_iff.mp hx
    have htype : (c₁.entity x).type = t :=
      hrekeyed.sound.type_of_registered (by
        rw [hrekeyed.relabels.catalog]
        exact Catalog.type?_of_find ht) hx₁
    rcases hcarried.keyText hp htype with heq | heq
    · rw [heq]
      exact hrekeyed.keyText_ne hc hne hx₁
    · rw [heq, hreal]
      exact hne.symm
  · rcases hcarried.part id htype₁ with heq | heq
    · rw [heq, (hsettled hne).1]
    · rw [heq, (hsettled hne).2]
  · rw [hcarried.marks, hrekeyed.hasTempKey]
  · rw [hcarried.keys, hrekeyed.keys, hrekeyed.keyValue, TempKeys.isIssued]
    simp [TempKeys.release]

/-- The customer who was cached under -1 is cached under 5, and its order refers to it there. -/
theorem customer_resettled :
    let c := orderedAndNoted
    let c' := ((fixupKey "Customer" (.integer (-1)) (.integer 5)).on c).2
    c.Formed ∧ c.Indexed ∧
      (fixupKey "Customer" (.integer (-1)) (.integer 5)).on c = (.ok 0, c') ∧
      (c'.find? "Customer" [.integer 5]).toOption = some (some 0) ∧
      (c'.find? "Customer" [.integer (-1)]).toOption = some none := by
  intro c c'
  have hc := sound_orderedAndNoted.sound
  have hok : (fixupKey "Customer" (.integer (-1)) (.integer 5)).on c = (.ok 0, c') :=
    on_of_toOption (by decide +kernel)
  obtain ⟨t, p, h⟩ := fixupKey_roundTrip hc.formed hc.indexed hok
  refine ⟨hc.formed, hc.indexed, hok, by rw [h.foundAfter]; rfl, ?_⟩
  have ht : c.catalog.find "Customer" = .ok sales.types[0] := by
    rw [sound_orderedAndNoted.catalog]
    rfl
  obtain rfl := Except.ok.inj (h.known.symm.trans ht)
  obtain rfl : p = sales.types[0].dataProperties[0] := (List.singleton_inj.mp h.single).symm
  rw [h.vacated (by decide +kernel)]
  rfl

end Action

end EntityCache
