import EntityCache.Proofs.Fixups
import EntityCache.Proofs.FormationRuns

/-! Fix-ups that fail. Where the entity's own group refuses the real key, everything is as it
was. Where a reference cannot be followed, the entity keeps the real key, its temporary key
stays forgotten, and the references before that one stay followed. -/
namespace EntityCache

open Cache EntityCache.Action

namespace Cache

variable {c c' : Cache} {t : EntityType} {p : DataProperty} {temp real : Value}
  {id : InstanceId} {old : Value} {r : String × String}

/-- A key of one part that has been given is not changed by what cascades from it. -/
theorem Followed.keyText_kept (hd : (c.entity id).type.DistinctNames)
    (hp : (c.entity id).type.keyProperties = [p])
    (hk : (c.entity id).keyText = Group.partText p real)
    (h : Followed old (p.dataType.coerce real) r c c') :
    (c'.entity id).keyText = Group.partText p real := by
  by_cases hs : ∃ slot, c.Holds r.1 slot id
  · obtain ⟨slot, hs⟩ := hs
    obtain ⟨q, hq, he⟩ := h.redirects hs
    rw [he, Entity.redirect]
    split
    · obtain ⟨hmem, hname⟩ := EntityType.dataProperty?_some hq
      have hkey : p ∈ (c.entity id).type.dataProperties :=
        (EntityType.mem_keyProperties.mp (by simp [hp])).1
      by_cases hpq : r.2 = p.name
      · obtain rfl : q = p := EntityType.eq_of_name_eq hd hmem hkey (hname.trans hpq)
        change ((c.entity id).write r.2 _).keyText = _
        rw [hpq, Group.keyText_write_single hp, DataType.coerce_coerce]
        simp [Group.partText]
      · rw [← hk]
        refine Entity.keyText_write_other (fun q' hq' heq => hpq ?_) _
        rw [hp, List.mem_singleton] at hq'
        rw [← heq, hq']
    · exact hk
  · rw [h.others fun slot hm => hs ⟨slot, hm⟩]
    exact hk

/-- Whether the cascade goes through or not, the entity keeps the real key. -/
theorem Rekeyed.keyText_of_cascade {c₁ : Cache} (h : Rekeyed t p temp real c id c₁)
    (hc : c.Sound) (ht : c.catalog.type? t.name = some t)
    (hne : Group.partText p temp ≠ Group.partText p real) (refs : List (String × String)) :
    ((((cascade (t.keyValue temp) (t.keyValue real) refs).on c₁).2).entity id).keyText =
      Group.partText p real := by
  have hsettled : (c₁.entity id).type = t ∧
      (c₁.entity id).keyText = Group.partText p real := by
    have hsingle : (c.entity id).type.keyProperties = [p] := h.type ▸ h.single
    rw [h.settled hne]
    refine ⟨h.type, ?_⟩
    change ((c.entity id).write p.name _).keyText = _
    rw [Group.keyText_write_single hsingle, Group.partText, DataType.coerce_coerce]
    rfl
  refine (cascade_preserves
    (P := fun d => (d.entity id).type = t ∧ (d.entity id).keyText = Group.partText p real)
    (t.keyValue temp) (t.keyValue real) refs (fun {d d' r} _ _ hf hd => ?_) h.sound hsettled).2.2
  rw [h.keyValue real] at hf
  refine ⟨(hf.type id).trans hd.1, hf.keyText_kept ?_ ?_ hd.2⟩
  · rw [hd.1]
    exact hc.distinct ht
  · rw [hd.1]
    exact h.single

/-- A cascade breaks off at a reference that cannot be followed, with `c'` by then. -/
def BreaksOff (old new : Value) (refs : List (String × String)) (c c' : Cache) (fault : Fault) :
    Prop :=
  ∃ before r after, refs = before ++ r :: after ∧
    (cascade old new before).on c = (.ok (), c') ∧ c'.follow old new r = .error fault

theorem cascade_error_iff {old new : Value} {refs : List (String × String)} {fault : Fault} :
    (cascade old new refs).on c = (.error fault, c') ↔ BreaksOff old new refs c c' fault := by
  induction refs generalizing c with
  | nil =>
    refine ⟨(fun h => by cases h), ?_⟩
    rintro ⟨before, r, after, hrefs, -⟩
    exact absurd hrefs.symm (List.append_ne_nil_of_right_ne_nil before (List.cons_ne_nil r after))
  | cons s refs ih =>
    rw [on_cascade_cons]
    cases hs : c.follow old new s with
    | error refusal =>
      constructor
      · rintro ⟨⟩
        exact ⟨[], s, refs, rfl, rfl, hs⟩
      · rintro ⟨before, r, after, hrefs, hb, hr⟩
        cases before with
        | nil =>
          cases hrefs
          cases hb
          cases hs.symm.trans hr
          rfl
        | cons _ before =>
          cases hrefs
          rw [on_cascade_cons, hs] at hb
          cases hb
    | ok c₁ =>
      have hcons : ∀ rest, (cascade old new (s :: rest)).on c = (cascade old new rest).on c₁ :=
        fun rest => by rw [on_cascade_cons, hs]
      refine ih.trans ⟨?_, ?_⟩
      · rintro ⟨before, r, after, rfl, hb, hr⟩
        exact ⟨s :: before, r, after, rfl, (hcons before).trans hb, hr⟩
      · rintro ⟨before, r, after, hrefs, hb, hr⟩
        cases before with
        | nil =>
          cases hrefs
          cases hb
          cases hs.symm.trans hr
        | cons _ before =>
          cases hrefs
          exact ⟨before, r, after, rfl, (hcons before).symm.trans hb, hr⟩

theorem cascade_marks (old new : Value) (refs : List (String × String)) (hc : c.Sound) :
    ((cascade old new refs).on c).2.keys = c.keys ∧
      ∀ id, (((cascade old new refs).on c).2.entity id).hasTempKey = (c.entity id).hasTempKey :=
  (cascade_preserves
    (P := fun d => d.keys = c.keys ∧ ∀ id, (d.entity id).hasTempKey = (c.entity id).hasTempKey)
    old new refs (fun _ _ hf hd =>
      ⟨hf.keys.trans hd.1, fun id => (hf.hasTempKey id).trans (hd.2 id)⟩) hc ⟨rfl, fun _ => rfl⟩).2

/-- A key that was to stay the same had been settled, if the cascade leaves nothing behind. -/
theorem rekey_unaltered (hc : c.Sound) (ht : c.catalog.type? t.name = some t)
    (hsame : (t.keyValue temp).keyText = (t.keyValue real).keyText) {c₁ : Cache}
    (h : c.rekey t temp real = .ok (id, c₁)) {old new : Value} {refs : List (String × String)}
    (hcascade : ((cascade old new refs).on c₁).2 = c) : c₁ = c := by
  obtain ⟨p, hrekeyed⟩ := rekey_spec hc ht h
  obtain ⟨hkeys, hmarks⟩ := cascade_marks old new refs hrekeyed.sound
  have hmark : (c.entity id).hasTempKey = false := by
    rw [hcascade] at hmarks
    rw [hmarks, hrekeyed.hasTempKey]
  have hinstances : Group.clearMarker c.instances id = c.instances := by
    have hcleared : { c.entity id with hasTempKey := false } = c.entity id := by rw [← hmark]
    rw [Group.clearMarker]
    exact (congrArg (c.instances.put id) hcleared).trans (c.instances.put_self id)
  rw [hcascade, hrekeyed.keys] at hkeys
  rw [rekey_same hc ht hsame h, hinstances, ← hkeys]

end Cache

namespace Action

variable {c c' : Cache} {t : EntityType} {typeName : String} {temp real : Value} {fault : Fault}

/-- A fix-up that fails has left everything as it was exactly if there is no such type, or the
entity's own group refused, or the key was to stay the same and nothing was changed before a
reference could not be followed. In all other cases the entity has its real key by then, and the
references before the one that could not be followed have been. -/
theorem failed_fixupKey_traces (hf : c.Formed) (hi : c.Indexed)
    (hfail : (fixupKey typeName temp real).on c = (.error fault, c')) :
    (c.catalog.find typeName = .error fault ∧ c' = c) ∨
    ∃ t, c.catalog.find typeName = .ok t ∧
      (c' = c ↔ c.rekey t temp real = .error fault ∨
        (t.keyValue temp).keyText = (t.keyValue real).keyText ∧
          ∃ id, c.rekey t temp real = .ok (id, c) ∧
            BreaksOff (t.keyValue temp) (c.entity id).firstKey
              (c.catalog.foreignKeyRefs t.name) c c fault) ∧
      ∀ id c₁, c.rekey t temp real = .ok (id, c₁) →
        ((t.keyValue temp).keyText ≠ (t.keyValue real).keyText →
          (c₁.entity id).firstKey = t.keyValue real) ∧
        BreaksOff (t.keyValue temp) (c₁.entity id).firstKey (c.catalog.foreignKeyRefs t.name)
          c₁ c' fault := by
  have hc := hf.sound hi
  cases ht : c.catalog.find typeName with
  | error unknown =>
    unfold fixupKey at hfail
    rw [on_bind_ok (on_get c), ht, on_bind_error (on_lift _ c)] at hfail
    cases hfail
    exact Or.inl ⟨rfl, rfl⟩
  | ok t =>
    refine Or.inr ⟨t, rfl, ?_⟩
    have htype := Catalog.type?_of_find? (Catalog.find_ok ht)
    rw [on_fixupKey ht] at hfail
    cases hr : c.rekey t temp real with
    | error refusal =>
      rw [on_replaceTempKey, hr] at hfail
      cases hfail
      exact ⟨⟨fun _ => Or.inl rfl, fun _ => rfl⟩, fun _ _ h => by cases h⟩
    | ok result =>
      obtain ⟨id, c₁⟩ := result
      obtain ⟨p, hrekeyed⟩ := rekey_spec hc htype hr
      have hparts : (t.keyValue temp).keyText ≠ (t.keyValue real).keyText →
          Group.partText p temp ≠ Group.partText p real := by
        rw [hrekeyed.keyValue, hrekeyed.keyValue]
        exact fun hne => hne
      have hfailed := (replaceTempKey_error_iff hr).mp hfail
      have hend := congrArg Prod.snd hfailed
      have hbroken := cascade_error_iff.mp hfailed
      refine ⟨⟨fun heq => Or.inr ?_, ?_⟩, ?_⟩
      · by_cases hsame : (t.keyValue temp).keyText = (t.keyValue real).keyText
        · obtain rfl := rekey_unaltered hc htype hsame hr (hend.trans heq)
          exact ⟨hsame, id, rfl, heq ▸ hbroken⟩
        · have hkept := hrekeyed.keyText_of_cascade hc htype (hparts hsame)
            (c.catalog.foreignKeyRefs t.name)
          rw [← hrekeyed.firstKey (hparts hsame), hend, heq, hrekeyed.held] at hkept
          exact absurd hkept (hparts hsame)
      · rintro (h | ⟨-, _, ⟨⟩, hsettled⟩)
        · cases h
        · exact hend.symm.trans (congrArg Prod.snd (cascade_error_iff.mpr hsettled))
      · rintro _ _ ⟨⟩
        exact ⟨fun hne => hrekeyed.firstKey (hparts hne), hbroken⟩

def linkedTwice : Cache :=
  salesCache.run [.create "Customer", .add 0,
    .create "Link", .set 1 "a" (.integer (-1)), .set 1 "b" (.integer 1),
    .attach 1 .unchanged none,
    .create "Link", .set 2 "a" (.integer 5), .set 2 "b" (.integer 1),
    .attach 2 .unchanged none]

theorem sound_linkedTwice : linkedTwice.SoundIn sales :=
  PlainRun.sound (by decide +kernel) sound_salesCache

/-- The link refuses the new key of its customer, who has it nevertheless. -/
theorem refused_link_traces : ∃ fault c',
    (fixupKey "Customer" (.integer (-1)) (.integer 5)).on linkedTwice = (.error fault, c') ∧
      ∃ t, linkedTwice.catalog.find "Customer" = .ok t ∧
        ∀ id c₁, linkedTwice.rekey t (.integer (-1)) (.integer 5) = .ok (id, c₁) →
          BreaksOff (t.keyValue (.integer (-1))) (c₁.entity id).firstKey
            (linkedTwice.catalog.foreignKeyRefs t.name) c₁ c' fault := by
  have hrefused : ((fixupKey "Customer" (.integer (-1)) (.integer 5)).on
    linkedTwice).1.toOption = none := by decide +kernel
  cases hrun : (fixupKey "Customer" (.integer (-1)) (.integer 5)).on linkedTwice with
  | mk r c' =>
    rw [hrun] at hrefused
    cases r with
    | ok id => cases hrefused
    | error fault =>
      rcases failed_fixupKey_traces sound_linkedTwice.sound.formed
        sound_linkedTwice.sound.indexed hrun with ⟨h, -⟩ | ⟨t, ht, -, hbroken⟩
      · rw [sound_linkedTwice.catalog] at h
        cases h
      · exact ⟨fault, c', rfl, t, ht, fun id c₁ h => (hbroken id c₁ h).2⟩

/-- A fix-up that fails is not as if it had not been tried. -/
theorem failed_fixupKey_not_atomic :
    let c' := ((fixupKey "Customer" (.integer (-1)) (.integer 5)).on linkedTwice).2
    linkedTwice.Formed ∧ linkedTwice.Indexed ∧
      ((fixupKey "Customer" (.integer (-1)) (.integer 5)).on linkedTwice).1.toOption = none ∧
      ((linkedTwice.entity 0).keyText = "-1" ∧ (c'.entity 0).keyText = "5") ∧
      ((linkedTwice.entity 0).hasTempKey = true ∧ (c'.entity 0).hasTempKey = false) ∧
      (linkedTwice.slot? "Customer" "5" = none ∧ c'.slot? "Customer" "5" = some 0) ∧
      linkedTwice.keys.isIssued "Customer" (.integer (-1)) = true ∧
      c'.keys.isIssued "Customer" (.integer (-1)) = false := by
  refine ⟨sound_linkedTwice.sound.formed, sound_linkedTwice.sound.indexed, ?_⟩
  decide +kernel

end Action

end EntityCache
