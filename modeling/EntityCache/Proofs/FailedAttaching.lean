import EntityCache.Proofs.Attaching
import EntityCache.Proofs.TempKeyDraws

/-! Attaching that fails. Before the group decides, an entity that is to be Added may have
been given a temporary key. If the group refuses the entity, that key is taken back, and the
entity has its key of the beginning again, unmarked; if there is no group to ask, the entity
goes away with the temporary key. Either is what the entity had before only in some cases,
and without a temporary key a failure changes nothing. -/
namespace EntityCache

open Cache EntityCache.Action

/-- The cached entities and the indexes are the same, and so are the entity that was to be
attached and the keys that are known as temporary. -/
structure Cache.Unaltered (c : Cache) (id : InstanceId) (c' : Cache) : Prop where
  holds : ∀ name slot other, c'.Holds name slot other ↔ c.Holds name slot other
  indexes : ∀ name key, c'.slot? name key = c.slot? name key
  cached : ∀ other, c.IsCached other → c'.entity other = c.entity other
  entity : c'.entity id = c.entity id
  issued : ∀ entry, entry ∈ c'.keys.issued ↔ entry ∈ c.keys.issued

namespace Entity

variable {e : Entity} {p : DataProperty} {v w : Value}

theorem put_eq_self_iff (e : Entity) (name : String) (v : Value) :
    e.values.put name v = e.values ↔ e.get? name = some v := by
  constructor
  · intro h
    rw [get?, ← h, Table.get?_put, if_pos rfl]
  · exact Table.put_self

theorem marked_eq_self_iff : marked e p v = e ↔ e.get? p.name = some v ∧ e.hasTempKey := by
  rw [← put_eq_self_iff]
  cases e
  simp [marked, write, eq_comm]

/-- A temporary key that is withdrawn leaves the key of the beginning, without a mark. -/
theorem withdrawn_marked_eq_self_iff : withdrawn (marked e p v) p = e ↔
    e.get? p.name = some p.initialValue ∧ e.hasTempKey = false := by
  rw [← put_eq_self_iff]
  cases e
  simp [withdrawn, marked, write, Table.put_put, eq_comm]

end Entity

namespace Action

variable {c c' : Cache} {id : InstanceId} {state : EntityState} {fault : Fault}
  {p : DataProperty} {v : Value}

section Groups

variable {t : EntityType}

/-- Joining fails where no group can be opened, and where the group refuses the entity,
which then loses the temporary key that it may have been given. -/
theorem join_refused {strategy : MergeStrategy} {temp : Option Value}
    (h : (join t id state strategy temp).on c = (.error fault, c')) :
    (Groupless c t ∧ c' = c) ∨ (¬ Groupless c t ∧ ∃ d, Opens t c d ∧
      (d.groups = c.groups ↔ c.groups.get? t.name ≠ none) ∧ (temp = none → c' = d) ∧
      ∀ v, temp = some v → (withdrawTempKey id v).on d = (.ok (), c')) := by
  unfold join at h
  rcases openGroup_on t c with ⟨hno, e, ho⟩ | ⟨hgroup, g, d, ho, hopens, hsame⟩
  · rw [on_bind_error ho] at h
    cases h
    exact Or.inl ⟨hno, rfl⟩
  · rw [on_bind_ok ho, on_bind_ok (on_get d)] at h
    refine Or.inr ⟨hgroup, d, hopens, hsame, ?_⟩
    split at h
    · cases h
    · cases temp with
      | none =>
        cases h
        exact ⟨fun _ => rfl, fun v hv => by cases hv⟩
      | some w =>
        refine ⟨fun hv => (by cases hv), fun v hv => ?_⟩
        cases hv
        cases hw : (withdrawTempKey id w).on d with
        | mk r last =>
          dsimp only at h
          cases r with
          | error e =>
            unfold withdrawTempKey at hw
            cases hw
          | ok u =>
            rw [on_bind_ok hw] at h
            cases h
            rfl

end Groups

/-- What a failure leaves: without a temporary key at most an empty group, with one the
entity as it went away with it or as it was left when it was taken back. -/
theorem failed_attach_cases {strategy : Option MergeStrategy}
    (h : (attach id state strategy).on c = (.error fault, c')) :
    ((∀ p v, ¬ Draws c id state p v) ∧ Opens (c.entity id).type c c') ∨
    ∃ p v keys, Draws c id state p v ∧
      c.keys.generate? (c.entity id).type.name p.dataType = some (v, keys) ∧
      (Groupless c (c.entity id).type ∧ c' = withTempKey c id p v keys ∨
        ¬ Groupless c (c.entity id).type ∧ ∃ d,
          Opens (c.entity id).type (withTempKey c id p v keys) d ∧
          c' = afterWithdrawal c d id p v keys) := by
  have hplain : ∀ {t : EntityType} {s : MergeStrategy},
      (join t id state s none).on c = (.error fault, c') → Opens t c c' := by
    intro t s hjoin
    rcases join_refused hjoin with ⟨-, rfl⟩ | ⟨-, d, hopens, -, hplain, -⟩
    · exact .there
    · exact hplain rfl ▸ hopens
  rw [attach_eq] at h
  cases hfind : c.catalog.find (c.entity id).type.name with
  | error e =>
    rw [hfind] at h
    cases h
    refine Or.inl ⟨fun p v hd => ?_, .there⟩
    obtain ⟨t, ht⟩ := hd.found
    cases hfind.symm.trans ht
  | ok t =>
    rw [hfind] at h
    dsimp only at h
    by_cases hstate : state = .added
    · rw [if_pos hstate] at h
      rcases Classical.em (∃ p v, Draws c id state p v) with ⟨p, v, hd⟩ | hnone
      · obtain ⟨keys, hkeys, hassigns⟩ := hd.assigns
        rw [on_bind_ok hassigns] at h
        refine Or.inr ⟨p, v, keys, hd, hkeys, ?_⟩
        rcases join_refused h with ⟨hno, rfl⟩ | ⟨hgroup, d, hopens, -, -, htaken⟩
        · exact Or.inl ⟨hno, rfl⟩
        · refine Or.inr ⟨hgroup, d, hopens, ?_⟩
          have hw := htaken v rfl
          rw [withdrawTempKey_after hopens hd.single] at hw
          exact (congrArg Prod.snd hw).symm
      · refine Or.inl ⟨fun p v hd => hnone ⟨p, v, hd⟩, ?_⟩
        rcases assignTempKey_prepares id c with ⟨e, ha⟩ | ⟨temp, c₁, ha, hprepared⟩
        · rw [on_bind_error ha] at h
          cases h
          exact .there
        · rw [on_bind_ok ha] at h
          cases hprepared with
          | keyed => exact hplain h
          | @drawn p v keys _ hsingle hunset hgen =>
            exact absurd ⟨p, v, hstate, ⟨t, hfind⟩, hsingle, hunset, keys, hgen⟩ hnone
    · rw [if_neg hstate, on_bind_ok (on_pure none c)] at h
      exact Or.inl ⟨fun p v hd => hstate hd.added, hplain h⟩

section Unaltered

/-- Where everybody is in place, and only one entity is not as it was, what is left to see are
that entity and the issued keys. -/
theorem unaltered_iff (hg : ∀ name slot other, c'.Holds name slot other ↔ c.Holds name slot other)
    (hi : ∀ name key, c'.slot? name key = c.slot? name key)
    (ho : ∀ other, other ≠ id → c'.entity other = c.entity other) : c.Unaltered id c' ↔
      c'.entity id = c.entity id ∧
        ∀ entry, entry ∈ c'.keys.issued ↔ entry ∈ c.keys.issued := by
  constructor
  · exact fun h => ⟨h.entity, h.issued⟩
  · rintro ⟨hsame, hissued⟩
    refine ⟨hg, hi, fun other _ => ?_, hsame, hissued⟩
    by_cases heq : other = id
    · rw [heq, hsame]
    · exact ho other heq

theorem unaltered_of_opens {t : EntityType} (h : Opens t c c') (id : InstanceId) :
    c.Unaltered id c' := by
  have hentity : ∀ other, c'.entity other = c.entity other := fun other =>
    congrArg (·.entity other) h.instances
  refine (unaltered_iff (fun _ _ _ => h.holds_iff) h.slot?_eq fun other _ => hentity other).mpr
    ⟨hentity id, fun entry => by rw [h.keys]⟩

/-- An entity that goes away with its temporary key. -/
theorem unaltered_withTempKey_iff {keys : TempKeys}
    (hkeys : c.keys.generate? (c.entity id).type.name p.dataType = some (v, keys)) :
    c.Unaltered id (withTempKey c id p v keys) ↔ (c.entity id).get? p.name = some v ∧
      (c.entity id).hasTempKey ∧ c.keys.isIssued (c.entity id).type.name v := by
  have hothers : ∀ other, other ≠ id →
      (withTempKey c id p v keys).entity other = c.entity other :=
    fun other ho => by rw [entity_withTempKey, if_neg ho]
  have hholds : ∀ name slot other,
      (withTempKey c id p v keys).Holds name slot other ↔ c.Holds name slot other :=
    fun _ _ _ => Iff.rfl
  refine (unaltered_iff hholds (fun _ _ => rfl) hothers).trans ?_
  rw [entity_withTempKey, if_pos rfl, Entity.marked_eq_self_iff, and_assoc]
  refine and_congr_right fun _ => and_congr_right fun _ => ?_
  simpa [TempKeys.isIssued, withTempKey] using TempKeys.issued_generate?_iff hkeys

/-- An entity whose temporary key has been taken back. -/
theorem unaltered_afterWithdrawal_iff {keys : TempKeys} {d : Cache}
    (hkeys : c.keys.generate? (c.entity id).type.name p.dataType = some (v, keys))
    (ho : Opens (c.entity id).type (withTempKey c id p v keys) d) :
    c.Unaltered id (afterWithdrawal c d id p v keys) ↔
      (c.entity id).get? p.name = some p.initialValue ∧ (c.entity id).hasTempKey = false ∧
        c.keys.isIssued (c.entity id).type.name v = false := by
  have hentity : ∀ other, (afterWithdrawal c d id p v keys).entity other =
      if other = id then withdrawn (marked (c.entity id) p v) p else c.entity other :=
    fun other => Instances.entity_put _ _ _ _
  have hothers : ∀ other, other ≠ id →
      (afterWithdrawal c d id p v keys).entity other = c.entity other :=
    fun other hne => by rw [hentity, if_neg hne]
  have hholds : ∀ name slot other,
      (afterWithdrawal c d id p v keys).Holds name slot other ↔ c.Holds name slot other :=
    fun _ _ _ => ho.holds_iff
  refine (unaltered_iff hholds ho.slot?_eq hothers).trans ?_
  rw [hentity, if_pos rfl, Entity.withdrawn_marked_eq_self_iff, and_assoc]
  refine and_congr_right fun _ => and_congr_right fun _ => ?_
  simpa [TempKeys.isIssued, afterWithdrawal] using TempKeys.issued_release_generate?_iff hkeys

end Unaltered

/-- Attaching that fails changes nothing exactly if it gives the entity no temporary key, or
what becomes of the key is what was there: where the key is taken back, the initial value
without a mark and a key that had not been issued; where it is not, that very key with its
mark, issued before. -/
theorem failed_attach_unaltered_iff {strategy : Option MergeStrategy}
    (h : (attach id state strategy).on c = (.error fault, c')) :
    c.Unaltered id c' ↔ ∀ p v, Draws c id state p v →
      (Groupless c (c.entity id).type → (c.entity id).get? p.name = some v ∧
        (c.entity id).hasTempKey ∧ c.keys.isIssued (c.entity id).type.name v) ∧
      (¬ Groupless c (c.entity id).type → (c.entity id).get? p.name = some p.initialValue ∧
        (c.entity id).hasTempKey = false ∧
        c.keys.isIssued (c.entity id).type.name v = false) := by
  rcases failed_attach_cases h with ⟨hnone, hopens⟩ | ⟨p, v, keys, hd, hkeys, hcase⟩
  · exact iff_of_true (unaltered_of_opens hopens id) fun p v hd => absurd hd (hnone p v)
  · have honly : ∀ {P : DataProperty → Value → Prop},
        (∀ q w, Draws c id state q w → P q w) ↔ P p v := by
      refine ⟨fun hall => hall p v hd, fun hp q w hq => ?_⟩
      obtain ⟨rfl, rfl⟩ := hd.unique hq
      exact hp
    rw [honly]
    rcases hcase with ⟨hno, rfl⟩ | ⟨hgroup, d, hopens, rfl⟩
    · simp only [hno, true_imp_iff, not_true_eq_false, false_imp_iff, and_true]
      exact unaltered_withTempKey_iff hkeys
    · simp only [hgroup, false_imp_iff, not_false_eq_true, true_imp_iff, true_and]
      exact unaltered_afterWithdrawal_iff hkeys hopens

def takenNumber : Cache :=
  salesCache.run [.create "Customer", .set 0 "id" (.integer (-1)), .attach 0 .unchanged none,
    .create "Customer"]

theorem sound_takenNumber : takenNumber.SoundIn sales :=
  PlainRun.sound (by decide +kernel) sound_salesCache

/-- The refusal of a customer whose key was open leaves no trace. -/
theorem open_key_restored :
    let c := takenNumber
    let c' := ((attach 1 .added none).on c).2
    c.Formed ∧ c.Indexed ∧
      ∃ fault, (attach 1 .added none).on c = (.error fault, c') ∧ c.Unaltered 1 c' := by
  intro c c'
  have hfails : ((attach 1 .added none).on c).1.toOption.isNone := by decide +kernel
  have hslots : (c.slotsOf (c.entity 1).type.name).isSome := by decide +kernel
  have hkey : ∀ p ∈ (c.entity 1).type.keyProperties,
      ((c.entity 1).get? p.name).map Value.isNull = some true ∧ p.initialValue.isNull := by
    decide +kernel
  have hmark : (c.entity 1).hasTempKey = false := by decide +kernel
  have hissued : c.keys.issued = [] := by decide +kernel
  have hgroup : ¬ Groupless c (c.entity 1).type := by
    rintro ⟨hnone, -⟩
    rw [slotsOf, hnone] at hslots
    cases hslots
  refine ⟨sound_takenNumber.sound.formed, sound_takenNumber.sound.indexed, ?_⟩
  cases hrun : (attach 1 .added none).on c with
  | mk r last =>
    rw [hrun] at hfails
    cases r with
    | ok cached => cases hfails
    | error fault =>
      have hlast : c' = last := congrArg Prod.snd hrun
      rw [hlast]
      refine ⟨fault, rfl, (failed_attach_unaltered_iff hrun).mpr fun p v hd => ?_⟩
      refine ⟨fun hno => absurd hno hgroup, fun _ => ⟨?_, hmark, ?_⟩⟩
      · obtain ⟨hheld, hinitial⟩ := hkey p (by simp [hd.single])
        obtain ⟨w, hw, hnull⟩ := Option.map_eq_some_iff.mp hheld
        rw [hw, Value.eq_null_of_isNull hnull, Value.eq_null_of_isNull hinitial]
      · rw [TempKeys.isIssued, hissued]
        rfl

def drafts : Catalog where
  types := [
    { name := "Draft"
      isAbstract := true
      dataProperties := [
        { name := "id", serverName := some "id", dataType := .int32, isKey := true }] }]
  nextSerial := 1

def draftCache : Cache :=
  ((addInstance (Entity.new drafts.types[0])).on
    (start drafts {} ⟨fun _ => ⟨0, 0⟩, fun _ => .nil⟩ .standard { root := "" })).2

theorem sound_draftCache : draftCache.SoundIn drafts := by
  have hnone : Catalog.Registered { drafts with types := [], nextSerial := 0 } := .empty 0 .none
  have hdrafts : drafts.Registered := by
    refine .withType (t := { drafts.types[0] with
      dataProperties := drafts.types[0].dataProperties.map ({ · with serverName := none }) })
      hnone rfl rfl
  exact (addInstance_keeps rfl (Entity.complete_new _) _ (sound_start hdrafts _ _ _ _)).holds

/-- A draft that is refused goes away with a temporary key, which stays issued; a customer
whose key was set to zero comes back without it. -/
theorem keys_altered_by_failure :
    (let c := draftCache
      let c' := ((attach 0 .added none).on c).2
      c.Formed ∧ c.Indexed ∧ ((attach 0 .added none).on c).1.toOption.isNone ∧
        ((c.entity 0).get? "id").map Value.isNull = some true ∧ c.keys.issued = [] ∧
        ((c'.entity 0).get? "id").map Value.keyText = some "-1" ∧ (c'.entity 0).hasTempKey ∧
        c'.keys.issued = [("Draft", "-1")] ∧ ¬ c.Unaltered 0 c') ∧
    (let c := takenNumber.run [.set 1 "id" (.integer 0)]
      let c' := ((attach 1 .added none).on c).2
      c.Formed ∧ c.Indexed ∧ ((attach 1 .added none).on c).1.toOption.isNone ∧
        ((c.entity 1).get? "id").map Value.keyText = some "0" ∧
        ((c'.entity 1).get? "id").map Value.keyText = some "" ∧ ¬ c.Unaltered 1 c') := by
  constructor
  · intro c c'
    have hbefore : c.keys.issued = [] := by decide +kernel
    have hafter : c'.keys.issued = [("Draft", "-1")] := by decide +kernel
    refine ⟨sound_draftCache.sound.formed, sound_draftCache.sound.indexed, by decide +kernel,
      by decide +kernel, hbefore, by decide +kernel, by decide +kernel, hafter, fun hsame => ?_⟩
    have hissued := hsame.issued ("Draft", "-1")
    rw [hbefore, hafter] at hissued
    simp at hissued
  · intro c c'
    have hbefore : ((c.entity 1).get? "id").map Value.keyText = some "0" := by decide +kernel
    have hafter : ((c'.entity 1).get? "id").map Value.keyText = some "" := by decide +kernel
    have hsound : c.SoundIn sales := by
      refine run_keeps_sound sound_takenNumber (by decide +kernel) fun n op hop => ?_
      match n, hop with
      | 0, hop => cases hop; trivial
    refine ⟨hsound.sound.formed, hsound.sound.indexed,
      by decide +kernel, hbefore, hafter, fun hsame => ?_⟩
    rw [hsame.entity, hbefore] at hafter
    exact absurd hafter (by decide)

end Action

end EntityCache
