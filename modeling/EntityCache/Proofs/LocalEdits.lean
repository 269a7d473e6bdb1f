import EntityCache.Proofs.SavedChanges

/-! Properties that are assigned between the bundle of a save and its answer. An entity that
was not in the bundle stays pending; one that was is settled, with the assignments made
since. The value stays unless a node that came back carries the property, or an assigned key
replaces it as a reference. -/
namespace EntityCache

open Cache EntityCache.Action

structure LocalEdit where
  id : InstanceId
  name : String
  value : Value
  deriving Repr

namespace Entity

variable {e e' : Entity} {name : String} {v : Value}

def Unsaved (e : Entity) : Prop := e.state = .added ∨ e.state = .modified

theorem set_spec (h : e.set name v = .ok e') : ∃ p, e.type.dataProperty? name = some p ∧
    (e.isAttached → p.isKey = false) ∧ e.state ≠ .deleted ∧ e'.type = e.type ∧
    (∀ m, e'.get? m = if m = name then some (p.dataType.coerce v) else e.get? m) ∧
    (e'.state = e.state ∨ e'.state = .modified) ∧
    (((e.get? name).getD .null).same (p.dataType.coerce v) = false →
      e.state ≠ .detached → e'.Unsaved) := by
  obtain ⟨p, hp, hk, hd, rfl⟩ := set_eq_ok_iff.mp h
  have hkey : e.isAttached → p.isKey = false := fun ha => by simpa [ha] using hk
  have hget : ∀ m, (e.write name (p.dataType.coerce v)).get? m =
      if m = name then some (p.dataType.coerce v) else e.get? m :=
    fun m => get?_write e name m _
  refine ⟨p, hp, hkey, hd, ?_⟩
  split
  · rename_i hsame
    exact ⟨rfl, hget, Or.inl rfl, fun hnot => absurd (hsame.symm.trans hnot) nofun⟩
  · have hstate : (e.write name (p.dataType.coerce v)).state = e.state := rfl
    unfold recordEdit
    rw [hstate]
    cases hs : e.state <;>
      simp_all [Unsaved, get?, write, Table.get?_put]

end Entity

namespace Cache

variable {catalog : Catalog} {c c₁ c' : Cache} {edits : List LocalEdit}

section Edits

def assign (edits : List LocalEdit) : Action Unit :=
  edits.forM fun e => change e.id (·.set e.name e.value)

/-- The value that assignments leave in a property, brought to its type. -/
def assigned? (t : EntityType) (edits : List LocalEdit) (id : InstanceId) (name : String) :
    Option Value :=
  edits.reverse.findSome? fun e => if e.id = id ∧ e.name = name then
    (t.dataProperty? name).map (·.dataType.coerce e.value) else none

def Alters (c : Cache) (e : LocalEdit) : Prop := ∃ p,
  (c.entity e.id).type.dataProperty? e.name = some p ∧
    (((c.entity e.id).get? e.name).getD .null).same (p.dataType.coerce e.value) = false

instance (c : Cache) (e : LocalEdit) : Decidable (c.Alters e) :=
  decidable_of_iff (((c.entity e.id).type.dataProperty? e.name).any fun p =>
    !(((c.entity e.id).get? e.name).getD .null).same (p.dataType.coerce e.value)) <| by
      simp [Alters, Option.any_eq_true]

def Altered (c : Cache) (edits : List LocalEdit) (id : InstanceId) (name : String) : Prop :=
  ∃ before e after c₀, edits = before ++ e :: after ∧ e.id = id ∧ e.name = name ∧
    (assign before).on c = (.ok (), c₀) ∧ c₀.Alters e

/-- Values have been assigned: everybody is where it was, and what was unsaved still is. -/
structure ValuesAssigned (c c' : Cache) : Prop where
  rest : c' = { c with instances := c'.instances }
  count : c'.instances.count = c.instances.count
  type : ∀ id, (c'.entity id).type = (c.entity id).type
  unsaved : ∀ id, (c.entity id).Unsaved → (c'.entity id).Unsaved

instance : IsPreorder Cache ValuesAssigned where
  refl c := ⟨rfl, rfl, fun _ => rfl, fun _ => id⟩
  trans _ _ _ h k := ⟨by rw [k.rest, h.rest], k.count.trans h.count,
    fun id => (k.type id).trans (h.type id), fun id hu => k.unsaved id (h.unsaved id hu)⟩

theorem ValuesAssigned.holds_iff (h : ValuesAssigned c c') {name : String} {slot : Nat}
    {id : InstanceId} : c'.Holds name slot id ↔ c.Holds name slot id := by
  rw [h.rest]
  rfl

theorem ValuesAssigned.isCached_iff (h : ValuesAssigned c c') {id : InstanceId} :
    c'.IsCached id ↔ c.IsCached id := by simp [IsCached, h.holds_iff]

theorem Sound.lt_count (hc : c.Sound) {id : InstanceId} (h : c.IsCached id) :
    id < c.instances.count := by
  obtain ⟨name, slot, hs⟩ := h
  exact hc.given hs

theorem on_set_edited (hc : c.SoundIn catalog) {e : LocalEdit} (he : c.IsCached e.id)
    (h : (change e.id (·.set e.name e.value)).on c = (.ok (), c')) :
    c'.SoundIn catalog ∧ ValuesAssigned c c' ∧ (c.Alters e → (c'.entity e.id).Unsaved) ∧
      ∃ p, (c.entity e.id).type.dataProperty? e.name = some p ∧
        ((c.entity e.id).isAttached → p.isKey = false) ∧
        ∀ id name, (c'.entity id).get? name = if id = e.id ∧ name = e.name then
          some (p.dataType.coerce e.value) else (c.entity id).get? name := by
  have hsound := (set_keeps hc (hc.sound.lt_count he) e.name e.value).holds
  rw [h] at hsound
  rw [on_change] at h
  cases hset : (c.entity e.id).set e.name e.value with
  | error fault =>
    rw [hset] at h
    cases h
  | ok e' =>
    rw [hset] at h
    cases h
    obtain ⟨p, hp, hkey, -, htype, hget, hstate, halters⟩ := Entity.set_spec hset
    refine ⟨hsound, ⟨rfl, rfl, fun id => ?_, fun id hunsaved => ?_⟩, ?_, p, hp, hkey,
      fun id name => ?_⟩
    · simp only [entity, Instances.entity_put]
      split
      · rename_i ho
        rw [ho]
        exact htype
      · rfl
    · simp only [entity, Instances.entity_put] at hunsaved ⊢
      split
      · rename_i ho
        rw [ho] at hunsaved
        rcases hstate with hs | hs
        · rw [Entity.Unsaved, hs]
          exact hunsaved
        · exact Or.inr hs
      · exact hunsaved
    · rintro ⟨q, hq, hother⟩
      obtain rfl := Option.some.inj (hp.symm.trans hq)
      have htracked : (c.entity e.id).state ≠ .detached := by
        obtain ⟨_, _, hs⟩ := he
        exact hc.sound.indexed.tracked hs
      simpa [entity] using halters hother htracked
    · simp only [entity, Instances.entity_put]
      by_cases ho : id = e.id
      · rw [if_pos ho, hget, ho]
        simp [entity]
      · rw [if_neg ho, if_neg fun hboth => ho hboth.1]

theorem assigned?_cons (t : EntityType) (e : LocalEdit) (rest : List LocalEdit)
    (id : InstanceId) (name : String) : assigned? t (e :: rest) id name =
      (assigned? t rest id name).or (if e.id = id ∧ e.name = name then
        (t.dataProperty? name).map (·.dataType.coerce e.value) else none) := by
  rw [assigned?, List.reverse_cons, List.findSome?_append, List.findSome?_singleton]
  rfl

theorem assign_edited (hc : c.SoundIn catalog) (hcached : ∀ e ∈ edits, c.IsCached e.id)
    (h : (assign edits).on c = (.ok (), c')) : c'.SoundIn catalog ∧ ValuesAssigned c c' ∧
      ∀ id name, (c'.entity id).get? name =
        (assigned? (c.entity id).type edits id name).or ((c.entity id).get? name) := by
  induction edits generalizing c with
  | nil =>
    cases h
    exact ⟨hc, Std.Refl.refl _, fun _ _ => rfl⟩
  | cons e rest ih =>
    have hcons : assign (e :: rest) = (change e.id (·.set e.name e.value) >>= fun _ =>
      assign rest) := rfl
    rw [hcons] at h
    cases hr : (change e.id (·.set e.name e.value)).on c with
    | mk r c₀ =>
      cases r with
      | error fault =>
        rw [on_bind_error hr] at h
        cases h
      | ok =>
        rw [on_bind_ok hr] at h
        obtain ⟨hc₀, hedited, -, p, hp, -, hget₀⟩ :=
          on_set_edited hc (hcached e List.mem_cons_self) hr
        obtain ⟨hc', hrest, hget⟩ := ih hc₀ (fun x hx =>
          hedited.isCached_iff.mpr (hcached x (List.mem_cons_of_mem e hx))) h
        refine ⟨hc', IsTrans.trans _ _ _ hedited hrest, fun id name => ?_⟩
        rw [hget, hedited.type, hget₀, assigned?_cons, Option.or_assoc]
        congr 1
        by_cases heq : id = e.id ∧ name = e.name
        · obtain ⟨rfl, rfl⟩ := heq
          simp [hp]
        · have heq' : ¬ (e.id = id ∧ e.name = name) := fun hboth => heq ⟨hboth.1.symm, hboth.2.symm⟩
          rw [if_neg heq, if_neg heq', Option.none_or]

/-- An entity with a property that was altered is unsaved from then on. The property is none
of its key. -/
theorem altered_spec (hc : c.SoundIn catalog) (hcached : ∀ e ∈ edits, c.IsCached e.id)
    (h : (assign edits).on c = (.ok (), c')) {id : InstanceId} {name : String}
    (ha : c.Altered edits id name) :
    c.IsCached id ∧ (c'.entity id).Unsaved ∧
      ∃ p v, (c.entity id).type.dataProperty? name = some p ∧ p.isKey = false ∧
        assigned? (c.entity id).type edits id name = some v := by
  obtain ⟨before, e, after, c₀, rfl, rfl, rfl, hbefore, halters⟩ := ha
  obtain ⟨hc₀, hedited₀, -⟩ := assign_edited hc
    (fun x hx => hcached x (List.mem_append_left _ hx)) hbefore
  have he := hcached e (List.mem_append_right _ List.mem_cons_self)
  have he₀ : c₀.IsCached e.id := hedited₀.isCached_iff.mpr he
  have hsplit : assign (before ++ e :: after) = (assign before >>= fun _ =>
      change e.id (·.set e.name e.value) >>= fun _ => assign after) := List.forM_append
  rw [hsplit, on_bind_ok hbefore] at h
  cases hr : (change e.id (·.set e.name e.value)).on c₀ with
  | mk r c₂ =>
    cases r with
    | error fault =>
      rw [on_bind_error hr] at h
      cases h
    | ok =>
      rw [on_bind_ok hr] at h
      obtain ⟨hc₂, hedited₂, hunsaved, p, hp, hkey, -⟩ := on_set_edited hc₀ he₀ hr
      obtain ⟨-, hedited, -⟩ := assign_edited hc₂ (fun x hx =>
        hedited₂.isCached_iff.mpr (hedited₀.isCached_iff.mpr
          (hcached x (List.mem_append_right _ (List.mem_cons_of_mem e hx))))) h
      have hattached : (c₀.entity e.id).isAttached := by
        obtain ⟨_, _, _, hg, hs⟩ := he₀
        exact (hc₀.sound.groups hg).isAttached hs
      rw [hedited₀.type] at hp
      refine ⟨he, hedited.unsaved _ (hunsaved halters), p, ?_⟩
      have hsome : (assigned? (c.entity e.id).type (before ++ e :: after) e.id e.name).isSome := by
        refine List.findSome?_isSome_iff.mpr ⟨e, by simp, ?_⟩
        simp [hp]
      obtain ⟨v, hv⟩ := Option.isSome_iff_exists.mp hsome
      exact ⟨v, hp, hkey hattached, hv⟩

end Edits

section Answer

variable {saved : List InstanceId} {result : SaveAnswer} {id : InstanceId} {name : String}
  {v : Value}

/-- A key that is assigned replaces this value, as the property refers to such keys. -/
def Redirects (c : Cache) (m : KeyAssignment) (id : InstanceId) (name : String) (v : Value) :
    Prop :=
  ∃ t, c.catalog.find m.typeName = .ok t ∧
    ((c.entity id).type.name, name) ∈ c.catalog.foreignKeyRefs t.name ∧ v.same (t.keyValue m.temp)

structure HoldsValue (u : EntityType) (id : InstanceId) (name : String) (v : Value) (c : Cache) :
    Prop where
  type : (c.entity id).type = u
  value : (c.entity id).get? name = some v

section Keys

variable {u t : EntityType} {p : DataProperty} {temp real old new : Value}

theorem HoldsValue.rekeyed (h : HoldsValue u id name v c) (hu : u.DistinctNames)
    (hp : u.dataProperty? name = some p) (hk : p.isKey = false) {q : DataProperty}
    {other : InstanceId} (hr : Rekeyed t q temp real c other c') : HoldsValue u id name v c' := by
  refine ⟨(hr.relabels.type id).trans h.type, ?_⟩
  rw [← h.value]
  by_cases ho : id = other
  · subst ho
    by_cases hsame : Group.partText q temp = Group.partText q real
    · rw [hr.unmarked hsame]
      rfl
    · have hq : q ∈ u.keyProperties := by simp [← h.type, hr.type, hr.single]
      have hne := EntityType.name_ne_of_not_key hu hp hk q hq
      rw [hr.settled hsame]
      exact (Entity.get?_write _ _ _ _).trans (if_neg (Ne.symm hne))
  · rw [hr.others id ho]

theorem HoldsValue.followed (h : HoldsValue u id name v c) (hc : c.Sound) {r : String × String}
    (hf : Followed old new r c c') (hn : r = (u.name, name) → v.same old = false) :
    HoldsValue u id name v c' := by
  refine ⟨(hf.type id).trans h.type, ?_⟩
  rw [← h.value]
  by_cases hs : ∃ slot, c.Holds r.1 slot id
  · obtain ⟨slot, hs⟩ := hs
    obtain ⟨q, -, he⟩ := hf.redirects hs
    rw [he, Entity.redirect]
    split
    · rename_i hrefers
      have hname : r.2 ≠ name := by
        rintro rfl
        have hgroup : r.1 = u.name := by rw [← h.type, hc.group_type hs]
        have hnot := hn (by rw [← hgroup])
        obtain ⟨held, hheld, hsame⟩ := Entity.refersTo_iff.mp hrefers
        obtain rfl := Option.some.inj (h.value.symm.trans hheld)
        exact Bool.false_ne_true (hnot.symm.trans hsame)
      exact (Entity.get?_write _ _ _ _).trans (if_neg (Ne.symm hname))
    · rfl
  · rw [hf.others fun slot hm => hs ⟨slot, hm⟩]

/-- Keys that are assigned leave a value that is in no key and that they do not replace. -/
theorem assignAll_keeps_value {assignments : List KeyAssignment} (hu : u.DistinctNames)
    (hp : u.dataProperty? name = some p) (hk : p.isKey = false)
    (hn : ∀ m ∈ assignments, ∀ t, catalog.find m.typeName = .ok t →
      (u.name, name) ∈ catalog.foreignKeyRefs t.name → v.same (t.keyValue m.temp) = false) :
    (assignAll assignments).Keeps (fun c => c.SoundIn catalog ∧ HoldsValue u id name v c)
      Relabels := by
  refine Keeps.forM fun m hm => Keeps.discard fun c hc => ?_
  obtain ⟨hsound, hrelabels⟩ := fixupKey_relabels m.typeName m.temp m.real c hc.1
  refine ⟨⟨hsound, ?_⟩, hrelabels⟩
  refine fixupKey_preserves (P := HoldsValue u id name v) (fun _ _ hr h => h.rekeyed hu hp hk hr)
    (fun {d d' t r new} hd ht hr hf h => h.followed hd.sound hf ?_) hc.1 hc.2
  rintro rfl
  obtain rfl := hd.catalog
  exact hn m hm t ht hr

end Keys

/-- What becomes of a property that is altered before the answer to a save arrives. Its
entity is still pending unless it was saved, and then it is Unchanged. The value is the one
assigned last, unless a node brings another or an assigned key replaces it. -/
theorem applySave_after_edits (hf : c.Formed) (hi : c.Indexed)
    (hcached : ∀ e ∈ edits, c.IsCached e.id) (hedits : (assign edits).on c = (.ok (), c₁))
    (hsave : (applySave saved result).on c₁ = (.ok (), c')) (ha : c.Altered edits id name) :
    (id ∉ saved → id ∈ c'.changes) ∧
    (id ∈ saved → c'.IsCached id ∧ (c'.entity id).state = .unchanged) ∧
    ∃ v, assigned? (c.entity id).type edits id name = some v ∧
      ((∀ m ∈ result.keyAssignments, ¬ c₁.Redirects m id name v) → (c'.entity id).get? name =
        (result.entities.reverse.findSome? (c'.carried? id name)).or (some v)) := by
  have hc : c.SoundIn c.catalog := ⟨hf.sound hi, rfl⟩
  obtain ⟨hc₁, hedited, hget⟩ := assign_edited hc hcached hedits
  obtain ⟨hwas, hunsaved, p, v, hp, hk, hv⟩ := altered_spec hc hcached hedits ha
  obtain ⟨c₂, c₃, hs⟩ := applySave_ok hc₁ hsave
  have hnot : (c₁.entity id).state ≠ .deleted := by rcases hunsaved with h | h <;> simp [h]
  have hstill : c'.IsCached id := hs.isCached_iff.mpr
    ⟨hedited.isCached_iff.mpr hwas, fun hd => hnot hd.2⟩
  refine ⟨fun hout => ?_, fun hin => ⟨hstill, ?_⟩, v, hv, fun hn => ?_⟩
  · have hordered : c'.groups.names.Pairwise (· < ·) := by
      rw [hs.absorbs.rewrites.groups]
      exact hs.sound.sound.ordered
    refine (mem_changes_iff hordered).mpr ⟨hstill, ?_⟩
    rw [hs.state_eq, if_neg hout]
    rcases hunsaved with h | h <;> simp [h, EntityState.isPending]
  · rw [hs.state_eq, if_pos hin, Entity.settled_of_changed hunsaved]
    exact Entity.state_acceptChanges_of_changed hunsaved
  · have hu : (c.entity id).type.DistinctNames := hc.sound.distinct
      (hc.sound.known id (hc.sound.lt_count hwas))
    have hvalue : HoldsValue (c.entity id).type id name v c₁ :=
      ⟨hedited.type id, by rw [hget, hv, Option.some_or]⟩
    have hkeep : ∀ m ∈ result.keyAssignments, ∀ t, c.catalog.find m.typeName = .ok t →
        ((c.entity id).type.name, name) ∈ c.catalog.foreignKeyRefs t.name →
        v.same (t.keyValue m.temp) = false := by
      intro m hm t ht hr
      refine Bool.eq_false_iff.mpr fun hsame => hn m hm ⟨t, ?_, ?_, hsame⟩
      · rw [hc₁.catalog]
        exact ht
      · rw [hedited.type, hc₁.catalog]
        exact hr
    have hassigned := (assignAll_keeps_value hu hp hk hkeep c₁ ⟨hc₁, hvalue⟩).holds.2
    rw [hs.assigned] at hassigned
    have htype : (c₃.entity id).type = (c.entity id).type :=
      (hs.settled.type id).trans hassigned.type
    have hmerged := mergeAll_get? result.entities (fun ht => hs.sound.sound.distinct ht)
      (by rw [htype]; exact List.mem_map.mpr ⟨p, EntityType.dataProperty?_some hp⟩)
    have hsame : c₃.carried? id name = c'.carried? id name := by
      funext node
      simp only [carried?, hs.absorbs.named?_eq]
    rw [hs.merged, brought?_of_ok hs.merged, hsame, hs.settled.get?, hassigned.value] at hmerged
    exact hmerged

def editedSales : Cache :=
  salesCache.run [.create "Customer", .set 0 "id" (.integer 5), .attach 0 .unchanged none,
    .set 0 "name" (.text "Ann"),
    .create "Order", .set 1 "id" (.integer 7), .attach 1 .unchanged none]

theorem sound_editedSales : editedSales.SoundIn sales :=
  PlainRun.sound (by decide +kernel) sound_salesCache

def laterEdits : List LocalEdit :=
  [⟨1, "customerId", .integer 5⟩, ⟨0, "name", .text "Bea"⟩]

theorem editedSales_cached : ∀ e ∈ laterEdits, editedSales.IsCached e.id := by
  have horder : editedSales.slotsOf "Order" = some [some 1] := by decide +kernel
  have hcustomer : editedSales.slotsOf "Customer" = some [some 0] := by decide +kernel
  intro e he
  rcases List.mem_pair.mp he with rfl | rfl
  · exact ⟨"Order", 0, holds_of_slotsOf horder rfl⟩
  · exact ⟨"Customer", 0, holds_of_slotsOf hcustomer rfl⟩

theorem laterEdits_assigned : (assign laterEdits).on editedSales =
    (.ok (), ((assign laterEdits).on editedSales).2) := on_of_toOption (by decide +kernel)

theorem customerId_altered : editedSales.Altered laterEdits 1 "customerId" :=
  ⟨[], _, _, editedSales, rfl, rfl, rfl, rfl, by decide +kernel⟩

theorem name_altered : editedSales.Altered laterEdits 0 "name" := by
  have hfirst : (assign (laterEdits.take 1)).on editedSales =
      (.ok (), ((assign (laterEdits.take 1)).on editedSales).2) :=
    on_of_toOption (by decide +kernel)
  exact ⟨laterEdits.take 1, _, [], _, rfl, rfl, rfl, hfirst, by decide +kernel⟩

def orderBack (rest : List (String × Json)) : SaveAnswer where
  entities := [.obj ([("__metadata", .obj [("type", .str "Order")]), ("id", .int 7)] ++ rest)]

/-- The order that was not saved keeps its customer, as the node does not carry it. -/
theorem order_keeps_edit :
    let c₁ := ((assign laterEdits).on editedSales).2
    let c' := ((applySave [0] (orderBack [])).on c₁).2
    editedSales.Formed ∧ editedSales.Indexed ∧
      (∀ e ∈ laterEdits, editedSales.IsCached e.id) ∧
      (assign laterEdits).on editedSales = (.ok (), c₁) ∧
      (applySave [0] (orderBack [])).on c₁ = (.ok (), c') ∧
      editedSales.Altered laterEdits 1 "customerId" ∧
      1 ∈ c'.changes ∧ (c'.entity 1).get? "customerId" = some (.integer 5) := by
  intro c₁ c'
  have hc := sound_editedSales
  have hsave : (applySave [0] (orderBack [])).on c₁ = (.ok (), c') :=
    on_of_toOption (by decide +kernel)
  obtain ⟨hpending, -, v, hv, hvalue⟩ := applySave_after_edits hc.sound.formed hc.sound.indexed
    editedSales_cached laterEdits_assigned hsave customerId_altered
  have horder : editedSales.slotsOf "Order" = some [some 1] := by decide +kernel
  have hheld : editedSales.Holds "Order" 0 1 := holds_of_slotsOf horder rfl
  have htype : some sales.types[1] = some (editedSales.entity 1).type := hc.type_of_holds hheld
  have hassigned : some (Value.integer 5) = some v := by
    rw [← hv, ← Option.some.inj htype]
    rfl
  have hcarried : (orderBack []).entities.reverse.findSome? (c'.carried? 1 "customerId") = none :=
    Option.isNone_iff_eq_none.mp (by decide +kernel)
  refine ⟨hc.sound.formed, hc.sound.indexed, editedSales_cached, laterEdits_assigned, hsave,
    customerId_altered, hpending (by decide), ?_⟩
  rw [hvalue nofun, hcarried, Option.none_or, ← hassigned]

/-- The customer's new name is taken for saved, and the order's customer is overwritten. -/
theorem edits_lost_across_save :
    let c₁ := ((assign laterEdits).on editedSales).2
    let c' := ((applySave [0] (orderBack [("customerId", .int 9)])).on c₁).2
    editedSales.Formed ∧ editedSales.Indexed ∧
      (editedSales.saveBundle (some [0])).toOption.isSome ∧
      (∀ e ∈ laterEdits, editedSales.IsCached e.id) ∧
      (assign laterEdits).on editedSales = (.ok (), c₁) ∧
      (applySave [0] (orderBack [("customerId", .int 9)])).on c₁ = (.ok (), c') ∧
      (editedSales.Altered laterEdits 0 "name" ∧ 0 ∉ c'.changes) ∧
      editedSales.Altered laterEdits 1 "customerId" ∧
        (c'.entity 1).refersTo "customerId" (.integer 5) = false ∧
        (c'.entity 1).refersTo "customerId" (.integer 9) = true :=
  ⟨sound_editedSales.sound.formed, sound_editedSales.sound.indexed, by decide +kernel,
    editedSales_cached, laterEdits_assigned, on_of_toOption (by decide +kernel),
    ⟨name_altered, by decide +kernel⟩, customerId_altered, by decide +kernel, by decide +kernel⟩

end Answer

end Cache

end EntityCache
