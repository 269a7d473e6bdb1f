import EntityCache.Proofs.TempKeyMarks

/-! Marks and generator through whole runs. Settling, fix-ups and saves keep them in
step like attaching and detaching, save for a fix-up whose cascade rewrites a temporary key. So
marks and issued keys agree until somebody is readmitted or such a fix-up comes. -/
namespace EntityCache

open Cache EntityCache.Action

namespace Cache

variable {c c' : Cache} {id : InstanceId}

def Unreferring (c : Cache) (old : Value) (refs : List (String × String)) : Prop :=
  ∀ r ∈ refs, ∀ slot id, c.Holds r.1 slot id → c.Marked id →
    ∀ p ∈ (c.entity id).type.keyProperties, p.name = r.2 → (c.entity id).refersTo r.2 old = false

/-- A key is replaced that somebody whose key is temporary refers to in it. -/
def MovesMarked (c : Cache) (typeName : String) (temp real : Value) : Prop :=
  ∃ t id c₁, c.catalog.find typeName = .ok t ∧ c.rekey t temp real = .ok (id, c₁) ∧
    ¬ c₁.Unreferring (t.keyValue temp) (c.catalog.foreignKeyRefs t.name)

/-- Whoever does not refer to a key in its own keeps its own when references to it are
followed. -/
theorem Followed.unredirected {old new : Value} {r : String × String}
    (h : Followed old new r c c')
    (hrefs : ∀ slot, c.Holds r.1 slot id → ∀ p ∈ (c.entity id).type.keyProperties, p.name = r.2 →
      (c.entity id).refersTo r.2 old = false) :
    ∀ p ∈ (c.entity id).type.keyProperties,
      (c'.entity id).get? p.name = (c.entity id).get? p.name := by
  intro p hp
  by_cases hin : ∃ slot, c.Holds r.1 slot id
  · obtain ⟨slot, hs⟩ := hin
    obtain ⟨q, -, he⟩ := h.redirects hs
    rw [he, Entity.redirect]
    split
    · rename_i hrefers
      have hne : p.name ≠ r.2 := fun heq =>
        Bool.false_ne_true ((hrefs slot hs p hp heq).symm.trans hrefers)
      change ((c.entity id).write r.2 _).get? p.name = _
      rw [Entity.get?_write, if_neg hne]
    · rfl
  · rw [h.others fun slot hs => hin ⟨slot, hs⟩]

end Cache

namespace Action

variable {catalog : Catalog} {supply : Supply} {n : Nat} {c c' : Cache} {id other : InstanceId}

section Fixup

variable {t : EntityType} {p : DataProperty} {temp real old new : Value} {r : String × String}

theorem rekey_marking (hc : c.Marking catalog supply n) (h : Rekeyed t p temp real c id c') :
    c'.Marking catalog supply n := by
  have hcat : c'.catalog = catalog := h.unmoved.catalog.trans hc.sound.catalog
  obtain ⟨slot, hslot⟩ := h.holds
  have hcached : c.IsCached id := ⟨t.name, slot, hslot⟩
  have hunmarked := h.hasTempKey
  have hmark : (c.entity id).keyMark = (t.name, (t.keyValue temp).keyText) := by
    rw [Entity.keyMark, h.type, h.held, h.keyValue]
    rfl
  refine hc.forgets ⟨h.sound, hcat⟩ hcached ⟨_, h.keys⟩ (fun x => ?_) (fun other => ?_)
    (fun ho _ => congrArg Entity.keyMark (h.others _ ho))
    fun hnone => ⟨h.unmoved.noGroup hnone.1, fun u hu => hnone.2 u ?_⟩
  · rw [h.keys, TempKeys.mem_issued_release, hmark]
  · by_cases ho : other = id
    · subst ho
      simp [Marked, hunmarked]
    · rw [Marked, Marked, h.unmoved.isCached_iff, h.others other ho]
      simp [ho]
  · rwa [hc.sound.catalog, ← hcat]

theorem follow_marking {refs : List (String × String)} (hr : r ∈ refs)
    (h : Followed old new r c c') (hc : c.Marking catalog supply n ∧ c.Unreferring old refs) :
    c'.Marking catalog supply n ∧ c'.Unreferring old refs := by
  obtain ⟨hc, hrefs⟩ := hc
  have hcat : c'.catalog = c.catalog := h.unmoved.catalog
  have hmarked : ∀ id, c'.Marked id ↔ c.Marked id := fun id => by
    rw [Marked, Marked, h.unmoved.isCached_iff, h.hasTempKey, h.type]
  have hkept : ∀ {id}, c.Marked id → ∀ p ∈ (c.entity id).type.keyProperties,
      (c'.entity id).get? p.name = (c.entity id).get? p.name := fun hm =>
    h.unredirected fun slot hs p hp heq => hrefs r hr slot _ hs hm p hp heq
  refine ⟨hc.of_marks ⟨h.sound, hcat.trans hc.sound.catalog⟩ (by rw [h.keys]; exact hc.drawn)
    (by rw [h.keys]; exact fun hx => hx) (by simp [h.keys]) hmarked (fun {id} hm => ?_)
    fun hnone => ⟨h.unmoved.noGroup hnone.1, fun t ht => hnone.2 t (hcat ▸ ht)⟩, ?_⟩
  · refine Prod.ext (congrArg EntityType.name (h.type id)) ?_
    refine Entity.keyText_congr (h.type id) fun p hp => ?_
    rw [h.type] at hp
    rw [Entity.keyValue, Entity.keyValue, hkept hm p hp]
  · intro r' hr' slot id hs hm p hp hname
    have hm := (hmarked id).mp hm
    rw [h.type] at hp
    have hsame := hkept hm p hp
    rw [hname] at hsame
    rw [Entity.refersTo_congr hsame]
    exact hrefs r' hr' slot id (h.unmoved.holds_iff.mp hs) hm p hp hname

/-- A fix-up keeps them in step unless a reference in a temporary key is followed. -/
theorem fixupKey_marking {typeName : String} (hc : c.Marking catalog supply n)
    (hm : ¬ c.MovesMarked typeName temp real) :
    (fixupKey typeName temp real).KeepsAt (Marking catalog supply n) Grows c := by
  have hgrows := (fixupKey_keeps typeName temp real c hc.sound).related
  refine ⟨?_, hgrows⟩
  cases ht : c.catalog.find typeName with
  | error fault =>
    unfold fixupKey
    rw [on_bind_ok (on_get c), ht, on_bind_error (on_lift _ c)]
    exact hc
  | ok t =>
    have hreg := Catalog.type?_of_find ht
    rw [on_fixupKey ht, on_replaceTempKey]
    cases hr : c.rekey t temp real with
    | error fault => exact hc
    | ok result =>
      obtain ⟨id, c₁⟩ := result
      obtain ⟨p, hrekeyed⟩ := rekey_spec hc.sound.sound hreg hr
      have hmarks := rekey_marking hc hrekeyed
      refine (cascade_preserves (P := fun d => d.Marking catalog supply n ∧
        d.Unreferring (t.keyValue temp) (c.catalog.foreignKeyRefs t.name)) _ _ _
        (fun hr _ hf hd => follow_marking hr hf hd) hrekeyed.sound ⟨hmarks, ?_⟩).2.1
      by_contra hrefers
      exact hm ⟨t, id, c₁, ht, hr, hrefers⟩

end Fixup

section Settle

theorem delete_marking (id : InstanceId) : (delete id).Keeps (Marking catalog supply n) Grows := by
  refine fun c hc => delete_keepsAt (fun _ => detach_marking id c hc) fun hs => ?_
  have hkeeps := change_keeps hc.sound fun e he => Entity.continues_markDeleted hs he
  exact change_marking hc keepsMark_markDeleted hkeeps

theorem accept_marking (hc : c.Marking catalog supply n) (hs : (c.entity id).state ≠ .deleted) :
    (change id fun e => .ok e.acceptChanges).KeepsAt (Marking catalog supply n) Grows c :=
  change_marking hc (fun e e' he => by cases he; rfl) (accept_keeps hc.sound hs)

theorem acceptEntity_marking (id : InstanceId) :
    (acceptEntity id).Keeps (Marking catalog supply n) Grows :=
  fun c hc => acceptEntity_keepsAt hc (fun _ => detach_marking id c hc) (accept_marking hc)

theorem settle_marking (id : InstanceId) : (settle id).Keeps (Marking catalog supply n) Grows :=
  fun c hc => settle_keepsAt hc (fun _ => detach_marking id c hc) (accept_marking hc)

theorem rejectEntity_marking (hc : c.Marking catalog supply n) (hk : KeyReverts c id) :
    (rejectEntity id).KeepsAt (Marking catalog supply n) Grows c := by
  refine rejectEntity_keepsAt hc (fun _ => detach_marking id c hc) fun ha => ?_
  have hon : (change id fun e => .ok e.rejectChanges).on c =
      (.ok (), { c with instances := c.instances.put id (c.entity id).rejectChanges }) :=
    on_change_ok rfl
  have hsound := (reject_keeps hc.sound hk ha).holds
  rw [hon] at hsound
  refine .of_on hon (hc.edited hsound rfl rfl fun other _ => ?_) (Nat.le_refl _)
  by_cases ho : other = id
  · subst ho
    simp [entity, Entity.rejectChanges]
  · simp [entity, ho]

end Settle

section Save

theorem assignAll_marking {assignments : List KeyAssignment} (hc : c.Marking catalog supply n)
    (hm : ∀ before m after, assignments = before ++ m :: after →
      ¬ ((assignAll before).on c).2.MovesMarked m.typeName m.temp m.real) :
    (assignAll assignments).KeepsAt (Marking catalog supply n) Grows c :=
  assignAll_keepsAll (fun _ _ hd hmoves => fixupKey_marking hd hmoves) hc hm

/-- The values that a save returns mark nobody and issue no key. -/
theorem mergeAll_marks (nodes : List Json) (c : Cache) :
    let c' := ((nodes.forM mergeSaved).on c).2
    c'.keys = c.keys ∧ ∀ id, (c'.entity id).hasTempKey = (c.entity id).hasTempKey := by
  have h : (nodes.forM mergeSaved).Keeps (fun d => d.keys = c.keys ∧
      ∀ id, (d.entity id).hasTempKey = (c.entity id).hasTempKey) Grows := by
    refine Keeps.forM fun node _ d hd => ⟨?_, Nat.le_of_eq (mergeSaved_rewrites node d).count.symm⟩
    rcases mergeSaved_cases node d with ⟨h, -⟩ | ⟨t, owner, -, h⟩
    · rwa [h]
    · rw [h]
      refine ⟨hd.1, fun id => (?_ : _ = (d.entity id).hasTempKey).trans (hd.2 id)⟩
      by_cases ho : id = owner
      · subst ho
        simp [entity, Entity.mergeFrom]
      · simp [entity, ho]
  exact (h c ⟨rfl, fun _ => rfl⟩).holds

theorem applySave_marking {saved : List InstanceId} {result : SaveAnswer}
    (hc : c.Marking catalog supply n) (hs : ((applySave saved result).on c).2.SoundIn catalog)
    (hm : ∀ before m after, result.keyAssignments = before ++ m :: after →
      ¬ ((assignAll before).on c).2.MovesMarked m.typeName m.temp m.real) :
    ((applySave saved result).on c).2.Marking catalog supply n := by
  have hsettle : (settleSave saved result).KeepsAt (Marking catalog supply n) Grows c :=
    (assignAll_marking hc hm).bind fun _ => Keeps.forM fun id _ => settle_marking id
  rw [applySave_eq] at hs ⊢
  cases h : (settleSave saved result).on c with
  | mk r c₁ =>
    have hc₁ := hsettle.holds
    rw [h] at hc₁
    cases r with
    | error fault =>
      rw [on_bind_error h]
      exact hc₁
    | ok =>
      rw [on_bind_ok h] at hs ⊢
      obtain ⟨hkeys, hmarks⟩ := mergeAll_marks result.entities c₁
      exact hc₁.edited hs (mergeAll_rewrites result.entities c₁).groups hkeys fun id _ => hmarks id

end Save

end Action

namespace Cache

variable {catalog : Catalog} {supply : Supply} {n : Nat} {c : Cache}

/-- The operation brings a mark and the generator apart: it readmits an entity, or it replaces a
key that a temporary one refers to. -/
def MarksAstray (c : Cache) : Op → Prop
  | .attach id state _ => c.Readmits id state
  | .add id => c.Readmits id .added
  | .fixupKey typeName temp real => c.MovesMarked typeName temp real
  | .applySave _ result => ∃ before m after, result.keyAssignments = before ++ m :: after ∧
      ((assignAll before).on c).2.MovesMarked m.typeName m.temp m.real
  | _ => False

theorem next_marking (hc : c.Marking catalog supply n) (hs : supply.Distinct (n + 1))
    (hn : n < 2 ^ 53 - 1) {op : Op} (he : op.Enabled c) (hh : c.Harmless op)
    (ha : ¬ c.MarksAstray op) : (c.next op).Marking catalog supply (n + 1) := by
  have hsound := (next_keeps_sound hc.sound he hh).1
  have hparts : op.action.KeepsAt (Marking catalog supply n) Grows c →
      (c.next op).Marking catalog supply (n + 1) := fun h => h.holds.mono (Nat.le_succ n)
  have hchange : ∀ {id f}, KeepsMark f → (change id f).KeepsAt (SoundIn catalog) Grows c →
      (change id f).KeepsAt (Marking catalog supply n) Grows c := fun hf h => change_marking hc hf h
  cases op with
  | create typeName => exact hparts (create_marking typeName c hc).discard
  | attach id state strategy =>
    rw [next, Op.action, on_discard] at hsound ⊢
    exact attach_marking hc (he id (by simp [Op.handles])) hs hn hsound hh ha
  | add id =>
    rw [next, Op.action, on_discard] at hsound ⊢
    exact attach_marking hc (he id (by simp [Op.handles])) hs hn hsound (fun _ => hh) ha
  | delete id => exact hparts ((delete_marking id).discard c hc)
  | detach id => exact hparts ((detach_marking id).discard c hc)
  | acceptEntity id => exact hparts ((acceptEntity_marking id).discard c hc)
  | rejectEntity id => exact hparts (rejectEntity_marking hc hh).discard
  | acceptChanges =>
    exact hparts (Keeps.get_bind (fun c => Keeps.forM
      (fun id _ => (acceptEntity_marking id).discard) c) c hc)
  | rejectChanges =>
    have h := rejectAll_keepsAll (fun _ _ hc hk => rejectEntity_marking hc hk)
      (nodup_changes hc.sound.sound) hc hh
    rw [next, Op.action, on_discard, on_rejectChanges]
    exact h.holds.mono (Nat.le_succ n)
  | fixupKey typeName temp real => exact hparts (fixupKey_marking hc ha).discard
  | importResults payload q adapter =>
    exact hparts (importResults_keeps
      (fun hc ht => hc.sound.catalog ▸ Catalog.type?_self ht) hc
      (fun _ node ht => arrive_marking hs hn _ ht node) payload).discard
  | applySave saved result =>
    have h := applySave_marking hc hsound fun before m after heq hmoves =>
      ha ⟨before, m, after, heq, hmoves⟩
    exact h.mono (Nat.le_succ n)
  | clear => exact hparts (clear_marking c hc)
  | set id name v =>
    exact hparts (hchange (keepsMark_set name v)
      (set_keeps hc.sound (he id (by simp [Op.handles])) name v))
  | markUnchanged id =>
    exact hparts (hchange keepsMark_markUnchanged
      (change_keeps hc.sound fun _ he => Entity.continues_markUnchanged he))
  | markModified id =>
    exact hparts (hchange (keepsMark_moveTo .modified)
      (change_keeps hc.sound fun _ he => Entity.continues_markModified he))

section Runs

variable {settings : Settings} {builders : UriBuilders} {service : Service} {ops : List Op}

theorem marking_start (hr : catalog.Registered) (settings : Settings) (supply : Supply)
    (builders : UriBuilders) (service : Service) :
    (start catalog settings supply builders service).Marking catalog supply 0 := by
  refine ⟨sound_start hr settings supply builders service,
    TempKeys.drawn_start supply (Nat.le_refl 0), fun hm => ?_, fun hx => ?_, fun hx => ?_⟩
  · obtain ⟨⟨name, slot, g, hg, -⟩, -⟩ := hm
    cases hg
  · cases hx
  · cases hx

/-- As long as keys stay as they are in their slots, nobody is readmitted, and no temporary key
follows another key that is replaced, exactly those cached entities are marked whose key was
issued. The next entity that is attached disturbs this exactly if it is readmitted. -/
theorem run_keysAgree (hr : catalog.Registered) (hs : supply.Distinct (ops.length + 1))
    (hv : (start catalog settings supply builders service).Valid ops)
    (hlen : ops.length < 2 ^ 53 - 1)
    (hn : ∀ n op, ops[n]? = some op →
      let c := (start catalog settings supply builders service).run (ops.take n)
      c.Harmless op ∧ ¬ c.MarksAstray op) :
    (∀ n ≤ ops.length,
      ((start catalog settings supply builders service).run (ops.take n)).KeysAgree) ∧
    ∀ id state strategy,
      let c := (start catalog settings supply builders service).run ops
      let op := Op.attach id state strategy
      op.Enabled c → c.Harmless op → ((c.next op).KeysAgree ↔ ¬ c.MarksAstray op) := by
  have hmarks : ∀ n ≤ ops.length, ((start catalog settings supply builders service).run
      (ops.take n)).Marking catalog supply n := by
    refine run_induction (I := fun n c => c.Marking catalog supply n)
      (marking_start hr settings supply builders service) fun n op hop hc => ?_
    have hlt : n < ops.length := (List.getElem?_eq_some_iff.mp hop).1
    rw [next_of_getElem? hop]
    obtain ⟨hharmless, hastray⟩ := hn n op hop
    exact next_marking hc (hs.mono (by omega)) (by omega) (enabled_of_valid hv hop) hharmless
      hastray
  refine ⟨fun n hle => (hmarks n hle).keysAgree, ?_⟩
  intro id state strategy c op he hh
  have hc : c.Marking catalog supply ops.length := by
    have h := hmarks ops.length (Nat.le_refl _)
    rwa [List.take_length] at h
  constructor
  · intro hagree hastray
    have hsound := (next_keeps_sound hc.sound he hh).1
    have hid : id < c.instances.count := he id (by simp [op, Op.handles])
    simp only [op, next, Op.action, on_discard] at hagree hsound
    exact attach_disagrees hc hid hs hlen hsound hh hastray hagree
  · exact fun hastray => (next_marking hc hs hlen he hh hastray).keysAgree

def counting : Supply := ⟨fun _ => ⟨0, 0⟩, fun i => ⟨BitVec.ofNat 128 i⟩⟩

theorem counting_distinct {n : Nat} (hn : n ≤ 2 ^ 128) : counting.Distinct n := by
  have hclock : Number.FitsInt64 (Instant.epochNanos ⟨0, 0⟩) := ⟨by decide, by decide⟩
  refine ⟨fun i hi j hj h => ?_, fun _ _ => hclock⟩
  have hvalue : i % 2 ^ 128 = j % 2 ^ 128 := congrArg (fun g : Guid => g.value.toNat) h
  rwa [Nat.mod_eq_of_lt (Nat.lt_of_lt_of_le hi hn),
    Nat.mod_eq_of_lt (Nat.lt_of_lt_of_le hj hn)] at hvalue

def profiles : Catalog where
  types := sales.types.take 1 ++ [
    { name := "Profile"
      version := ⟨0, 1⟩
      dataProperties := [
        { name := "id", serverName := some "id", dataType := .int32, isKey := true }]
      navigationProperties := [
        { name := "customer", serverName := some "customer", target := "Customer",
          foreignKeys := ["id"] }] }]
  nextSerial := 2

theorem profiles_registered : profiles.Registered := by
  let unnamed (t : EntityType) : EntityType :=
    { t with
      dataProperties := t.dataProperties.map ({ · with serverName := none })
      navigationProperties := t.navigationProperties.map ({ · with serverName := none })
      version := ⟨0, 0⟩ }
  have hcustomer : Catalog.Registered
      { profiles with types := profiles.types.take 1, nextSerial := 1 } :=
    .withType (t := unnamed profiles.types[0]) (.empty 0 .none) rfl rfl
  exact .withType (t := unnamed profiles.types[1]) hcustomer rfl rfl

/-- Of two new customers the one is gone and the other marked, and so far marks and generator
agree; they disagree once the first one comes back. -/
theorem detached_customer_disagrees_after :
    let c := start sales {} counting .standard { root := "" }
    let ops := [Op.create "Customer", .add 0, .detach 0, .create "Customer", .add 1]
    c.Valid ops ∧ (∀ n ≤ 5, (c.run (ops.take n)).KeysAgree) ∧
      ¬ ((c.run ops).next (.attach 0 .unchanged none)).KeysAgree := by
  intro c ops
  have hv : c.Valid ops := by decide +kernel
  have huncached : ∀ {d : Cache} {id : InstanceId}, d.groups.names.Pairwise (· < ·) →
      (∀ entry ∈ d.groups, id ∉ entry.2.members) → ¬ d.IsCached id := fun ho hnone hcached => by
    obtain ⟨entry, hentry, hmem⟩ := (isCached_iff_mem ho).mp hcached
    exact hnone entry hentry hmem
  have hunmarked : ∀ {d : Cache} {id : InstanceId} {state : EntityState},
      (d.entity id).hasTempKey = false → ¬ d.Readmits id state := fun hm hr =>
    Bool.false_ne_true (hm.symm.trans hr.1)
  obtain ⟨hagree, hlast⟩ := run_keysAgree sales_registered (counting_distinct (by decide)) hv
    (by decide) fun n op hop => by
      match n, hop with
      | 0, hop | 2, hop | 3, hop => cases hop; exact ⟨trivial, fun h => h⟩
      | 1, hop | 4, hop =>
        cases hop
        exact ⟨fun hcached => absurd hcached (huncached (by decide +kernel) (by decide +kernel)),
          hunmarked (by decide +kernel)⟩
  have hpresents : ∀ {d : Cache} {id : InstanceId} (name : String),
      (d.entity id).type.name = name → (d.entity id).type.isAbstract = false →
      (d.catalog.find name).isOk → (d.groups.get? name).map (·.type.name) = some name →
      (d.entity id).ownKey.isComplete → Presents d id .unchanged (d.entity id).keyText := by
    rintro d id _ rfl hconcrete hfound hgroup hcomplete
    refine ⟨?_, fun h => Bool.false_ne_true (hconcrete.symm.trans h.2), fun g hg => ?_, by decide,
      .own (fun p h => by cases h) hcomplete⟩
    · cases ht : d.catalog.find (d.entity id).type.name with
      | ok t => exact ⟨t, rfl⟩
      | error fault => rw [ht] at hfound; cases hfound
    · rw [hg] at hgroup
      exact Option.some.inj hgroup
  have hreadmits : (c.run ops).Readmits 0 .unchanged :=
    ⟨by decide +kernel, List.length_eq_one_iff.mp (by decide +kernel),
      Or.inl ⟨huncached (by decide +kernel) (by decide +kernel), (fun _ _ hd => by cases hd.added),
        hpresents "Customer" (by decide +kernel) (by decide +kernel) (by decide +kernel)
          (by decide +kernel) (by decide +kernel), by decide +kernel⟩⟩
  exact ⟨hv, hagree, fun h => (hlast 0 .unchanged none (by decide +kernel)
    (fun h => by cases h)).mp h hreadmits⟩

/-- A customer is marked that comes back, after it was detached or after all was cleared, as
is a profile when its customer is given another key. None of the keys is an issued one. -/
theorem marks_without_issued_keys :
    let cache := start sales {} counting .standard { root := "" }
    let detached := [Op.create "Customer", .add 0, .detach 0, .attach 0 .unchanged none]
    let cleared := [Op.create "Customer", .add 0, .clear, .add 0]
    let profiled := [Op.create "Profile", .add 0, .create "Customer", .set 1 "id" (.integer (-1)),
      .attach 1 .unchanged none, .fixupKey "Customer" (.integer (-1)) (.integer 5)]
    let profileCache := start profiles {} counting .standard { root := "" }
    profiles.Registered ∧ (cache.Valid detached ∧ ¬ (cache.run detached).KeysAgree) ∧
      (cache.Valid cleared ∧ ¬ (cache.run cleared).KeysAgree) ∧
      profileCache.Valid profiled ∧ ¬ (profileCache.run profiled).KeysAgree := by
  have hnot : ∀ {c : Cache} (name : String), c.slotsOf name = some [some 0] →
      (c.entity 0).hasTempKey →
      (c.entity 0).type.keyProperties.length = 1 →
      (∀ p ∈ (c.entity 0).type.keyProperties,
        c.keys.isIssued (c.entity 0).type.name ((c.entity 0).keyValue p) = false) →
      ¬ c.KeysAgree := by
    intro c name hslots hmarked hsingle hissued hagree
    obtain ⟨p, hp⟩ := List.length_eq_one_iff.mp hsingle
    have hcached : c.IsCached 0 := ⟨name, 0, holds_of_slotsOf hslots rfl⟩
    refine Bool.false_ne_true ((hissued p ?_).symm.trans ((hagree 0 p hcached hp).mp hmarked))
    rw [hp]
    exact List.mem_singleton_self p
  intro cache detached cleared profiled profileCache
  exact ⟨profiles_registered,
    ⟨by decide +kernel, hnot "Customer" (by decide +kernel) (by decide +kernel)
      (by decide +kernel) (by decide +kernel)⟩,
    ⟨by decide +kernel, hnot "Customer" (by decide +kernel) (by decide +kernel)
      (by decide +kernel) (by decide +kernel)⟩,
    by decide +kernel, hnot "Profile" (by decide +kernel) (by decide +kernel)
      (by decide +kernel) (by decide +kernel)⟩

end Runs

end Cache

end EntityCache
