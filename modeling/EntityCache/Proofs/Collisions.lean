import EntityCache.Proofs.Fixups

/-! When keys may change. A group gives an entity a real key unless that is taken, and
follows a reference unless two entities would have the same key then: the keys that others
give up in the same step are free. -/
namespace EntityCache

open Cache EntityCache.Action

namespace Group

variable {g : Group} {is : Instances}

theorem planMoves_ok {property : String} {v : Value} {vacated claimed : List String}
    {hs : List (Nat × InstanceId)} (ht : ∀ x ∈ hs, (is.entity x.2).type = g.type)
    (hnd : (hs.map fun x => (moveOf is property v x).target).Nodup)
    (hclaimed : ∀ x ∈ hs, (moveOf is property v x).target ∉ claimed)
    (hfree : ∀ x ∈ hs, g.index.get? (moveOf is property v x).target = none ∨
      (moveOf is property v x).target ∈ vacated) :
    g.planMoves is property v vacated claimed hs = .ok (hs.map (moveOf is property v)) := by
  induction hs generalizing claimed with
  | nil => rfl
  | cons x hs ih =>
    obtain ⟨slot, id⟩ := x
    rw [List.map_cons, List.nodup_cons] at hnd
    have hopen : (g.index.has (moveOf is property v (slot, id)).target &&
        !vacated.contains (moveOf is property v (slot, id)).target ||
        claimed.contains (moveOf is property v (slot, id)).target) = false := by
      have hout := hclaimed (slot, id) List.mem_cons_self
      rcases hfree (slot, id) List.mem_cons_self with hn | hm
      · simp [Table.has, hn, hout]
      · simp [hm, hout]
    have hrest : g.planMoves is property v vacated
        ((moveOf is property v (slot, id)).target :: claimed) hs =
          .ok (hs.map (moveOf is property v)) := ih
      (fun x hx => ht x (List.mem_cons_of_mem _ hx)) hnd.2
      (fun x hx hm => (List.mem_cons.mp hm).elim
        (fun heq => hnd.1 (heq ▸ List.mem_map_of_mem hx))
        (hclaimed x (List.mem_cons_of_mem _ hx)))
      (fun x hx => hfree x (List.mem_cons_of_mem _ hx))
    have hkey := rekeyed_eq (ht (slot, id) List.mem_cons_self) property v
    simp only [moveOf, Entity.keyText] at hopen hrest
    simp only [planMoves, Entity.key_eq, hkey, bind, Except.bind, pure, Except.pure, hopen,
      Bool.false_eq_true, if_false, hrest]
    rfl

theorem updateForeignKey_ok (h : g.Sound is) {property : String} (old new : Value)
    {p : DataProperty} (hp : g.type.dataProperty? property = some p)
    (hapart : ∀ {s x t y}, g.Holds s x → g.Holds t y →
      ((is.entity x).redirect property old (p.dataType.coerce new)).keyText =
        ((is.entity y).redirect property old (p.dataType.coerce new)).keyText → x = y) :
    ∃ r, g.updateForeignKey is property old new = .ok r := by
  have hredirect : ∀ x ∈ g.holders is property old,
      ((is.entity x.2).redirect property old (p.dataType.coerce new)).keyText =
        (moveOf is property (p.dataType.coerce new) x).target := by
    intro x hx
    rw [Entity.redirect, if_pos (mem_holders_iff.mp hx).2]
    rfl
  have hplan : g.planMoves is property (p.dataType.coerce new)
      ((g.holders is property old).map fun x => (is.entity x.2).keyText) []
      (g.holders is property old) =
        .ok ((g.holders is property old).map (moveOf is property (p.dataType.coerce new))) := by
    refine planMoves_ok (fun x hx => h.typed (mem_holders hx)) ?_ (fun _ _ => List.not_mem_nil)
      fun x hx => ?_
    · refine List.Nodup.map_on (fun x hx y hy heq => ?_) (nodup_holders h property old).of_map
      rw [← hredirect x hx, ← hredirect y hy] at heq
      exact List.inj_on_of_nodup_map (nodup_holders h property old) hx hy
        (hapart (mem_holders hx) (mem_holders hy) heq)
    · cases hi : g.index.get? (moveOf is property (p.dataType.coerce new) x).target with
      | none => exact Or.inl rfl
      | some slot =>
        obtain ⟨id, hs, hk⟩ := (h.index_iff _ _).mp hi
        refine Or.inr (List.mem_map.mpr ⟨(slot, id), mem_holders_iff.mpr ⟨hs, ?_⟩, hk⟩)
        -- Whoever has the target now gives it up, or would share it.
        by_contra hstays
        have hkept : ((is.entity id).redirect property old (p.dataType.coerce new)).keyText =
            (moveOf is property (p.dataType.coerce new) x).target := by
          rw [Entity.redirect, if_neg hstays, hk]
        obtain rfl := hapart hs (mem_holders hx) (hkept.trans (hredirect x hx).symm)
        exact hstays (mem_holders_iff.mp hx).2
  unfold updateForeignKey
  simp only [hp, bind, Except.bind, pure, Except.pure]
  cases hk : p.isKey with
  | false => exact ⟨_, rfl⟩
  | true =>
    simp only [if_true, mapM_keys is (g.holders is property old), hplan]
    exact ⟨_, rfl⟩

/-- A temporary key that is there can be replaced by a real one that is not. -/
theorem fixupKey_ok (h : g.Sound is) {p : DataProperty} (hp : g.type.keyProperties = [p])
    {temp real : Value} {slot : Nat} {id : InstanceId} (hs : g.Holds slot id)
    (hk : (is.entity id).keyText = partText p temp)
    (hfree : g.index.get? (partText p real) = none) :
    ∃ r, g.fixupKey is temp real = .ok (id, r) := by
  have hindex : g.index.get? (partText p temp) = some slot := hk ▸ h.indexed hs
  have hfind : g.findKey? ⟨g.type.name, [p.dataType.coerce temp]⟩ = some id := by
    rw [findKey?, if_pos rfl, findText?, inGroup_single]
    change (g.index.get? (partText p temp)).bind _ = _
    rw [hindex]
    exact Option.join_eq_some_iff.mpr hs
  have hdiffer : EntityKey.same ⟨g.type.name, [p.dataType.coerce temp]⟩
      ⟨g.type.name, [p.dataType.coerce real]⟩ = false := by
    have hne : partText p temp ≠ partText p real := fun heq => by
      rw [← heq, hindex] at hfree
      cases hfree
    simpa [EntityKey.same, inGroup_single, partText] using hne
  have hreplace : ∃ r, g.replaceKey is ⟨g.type.name, [p.dataType.coerce temp]⟩
      ⟨g.type.name, [p.dataType.coerce real]⟩ = .ok r := by
    simp only [partText] at hfree hindex
    unfold replaceKey Table.has
    simp only [inGroup_single, hfree, hindex, Option.join_eq_some_iff.mpr hs,
      Option.isSome_none, Bool.false_eq_true, if_false]
    exact ⟨_, rfl⟩
  obtain ⟨r, hr⟩ := hreplace
  unfold fixupKey
  simp only [hp, bind, Except.bind, pure, Except.pure, make_single hp, hfind, hdiffer,
    Bool.false_eq_true, if_false, hr]
  exact ⟨_, rfl⟩

end Group

namespace Cache

variable {c : Cache} {old new temp real : Value} {r : String × String}

def Offers (c : Cache) (r : String × String) : Prop :=
  ∀ g, c.groups.get? r.1 = some g → (g.type.dataProperty? r.2).isSome

theorem follow_ok (hc : c.Sound) (hr : c.Offers r)
    (hapart : ∀ {p s x t y}, c.Holds r.1 s x → c.Holds r.1 t y →
      (c.entity x).type.dataProperty? r.2 = some p →
      ((c.entity x).redirect r.2 old (p.dataType.coerce new)).keyText =
        ((c.entity y).redirect r.2 old (p.dataType.coerce new)).keyText → x = y) :
    ∃ c', c.follow old new r = .ok c' := by
  unfold follow
  cases hg : c.groups.get? r.1 with
  | none => exact ⟨c, rfl⟩
  | some g =>
    obtain ⟨p, hp⟩ := Option.isSome_iff_exists.mp (hr g hg)
    obtain ⟨u, hu⟩ := Group.updateForeignKey_ok (hc.groups hg) old new hp
      fun hx hy => hapart ⟨g, hg, hx⟩ ⟨g, hg, hy⟩ (by
        rw [entity, (hc.groups hg).typed hx, hp])
    exact ⟨_, by dsimp only; rw [hu]; rfl⟩

theorem offers_of_follow (hc : c.Sound) {c' : Cache} (h : c.follow old new r = .ok c') :
    c.Offers r := by
  intro g hg
  unfold follow at h
  rw [hg] at h
  obtain ⟨⟨n, g', is⟩, hu, -⟩ := map_ok h
  obtain ⟨-, p, _, hrewritten⟩ := Group.updateForeignKey_spec (hc.groups hg) hu
  rw [hrewritten.found]
  rfl

theorem rekey_ok {t : EntityType} {p : DataProperty} (hc : c.Sound)
    (ht : c.catalog.type? t.name = some t) (hp : t.keyProperties = [p]) {slot : Nat}
    {id : InstanceId} (hs : c.Holds t.name slot id)
    (hk : (c.entity id).keyText = Group.partText p temp)
    (hfree : ∀ {s x}, c.Holds t.name s x → (c.entity x).keyText ≠ Group.partText p real) :
    ∃ c', c.rekey t temp real = .ok (id, c') := by
  obtain ⟨g, hg, hs⟩ := hs
  have hgt : g.type = t := Option.some.inj ((hc.registered hg).symm.trans ht)
  have hnone : g.index.get? (Group.partText p real) = none := by
    cases hi : g.index.get? (Group.partText p real) with
    | none => rfl
    | some s =>
      obtain ⟨x, hx, hkx⟩ := ((hc.groups hg).index_iff _ _).mp hi
      exact absurd hkx (hfree ⟨g, hg, hx⟩)
  obtain ⟨u, hu⟩ := Group.fixupKey_ok (hc.groups hg) (hgt ▸ hp) hs hk hnone
  unfold rekey
  rw [hg]
  dsimp only
  rw [hu]
  exact ⟨_, rfl⟩

end Cache

end EntityCache
