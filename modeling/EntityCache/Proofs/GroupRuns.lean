import EntityCache.Proofs.Rekeying
import Mathlib.Data.List.Induction

/-! One group and the entities made for it, through any calls in any order. A call that
fails leaves both as they were. Handles come from `make`, so that every entity has the
type of the group; the group itself is opened empty. -/
namespace EntityCache.GroupRuns

structure Store where
  group : Group
  instances : Instances

inductive Call where
  | make
  | attach (id : InstanceId) (state : EntityState) (strategy : MergeStrategy)
  | detach (id : InstanceId)
  | fixupKey (temp real : Value)
  | updateForeignKey (property : String) (old new : Value)
  | set (id : InstanceId) (name : String) (v : Value)
  | markUnchanged (id : InstanceId)
  | markModified (id : InstanceId)

/-- Calls are made with handles that were given out. -/
def Call.Enabled (s : Store) : Call → Prop
  | .attach id _ _ | .detach id | .set id _ _ | .markUnchanged id | .markModified id =>
    id < s.instances.count
  | .make | .fixupKey _ _ | .updateForeignKey _ _ _ => True

instance (s : Store) (c : Call) : Decidable (c.Enabled s) := by
  cases c <;> simp only [Call.Enabled] <;> infer_instance

namespace Store

def change (s : Store) (id : InstanceId) (f : Entity → Except Fault Entity) :
    Except Fault Store :=
  (f (s.instances.entity id)).map fun e => { s with instances := s.instances.put id e }

def perform (s : Store) : Call → Except Fault Store
  | .make => .ok { s with instances := (s.instances.add (Entity.new s.group.type)).2 }
  | .attach id state strategy =>
    (s.group.attach s.instances id state strategy).map fun (_, g, is) => ⟨g, is⟩
  | .detach id => (s.group.detach s.instances id).map fun (g, is) => ⟨g, is⟩
  | .fixupKey temp real =>
    (s.group.fixupKey s.instances temp real).map fun (_, g, is) => ⟨g, is⟩
  | .updateForeignKey property old new =>
    (s.group.updateForeignKey s.instances property old new).map fun (_, g, is) => ⟨g, is⟩
  | .set id name v => s.change id (·.set name v)
  | .markUnchanged id => s.change id Entity.markUnchanged
  | .markModified id => s.change id Entity.markModified

def next (s : Store) (c : Call) : Store :=
  match s.perform c with
  | .ok s' => s'
  | .error _ => s

def run (s : Store) (calls : List Call) : Store := calls.foldl next s

def Valid (s : Store) : List Call → Prop
  | [] => True
  | c :: rest => c.Enabled s ∧ (s.next c).Valid rest

instance decidableValid : (s : Store) → (calls : List Call) → Decidable (s.Valid calls)
  | _, [] => inferInstanceAs (Decidable True)
  | s, c :: rest =>
    have := decidableValid (s.next c) rest
    inferInstanceAs (Decidable (_ ∧ _))

structure Invariant (t : EntityType) (s : Store) : Prop where
  sound : s.group.Sound s.instances
  type : s.group.type = t
  typed : ∀ id < s.instances.count, (s.instances.entity id).type = t
  complete : ∀ id < s.instances.count, (s.instances.entity id).Complete
  given : ∀ {slot id}, s.group.Holds slot id → id < s.instances.count

/-- What one call can do to the slots: an occupant was in its slot before, or nowhere, and
there are more slots only when none was free. -/
structure Follows (s s' : Store) : Prop where
  stays : ∀ {slot id}, s'.group.Holds slot id → s.group.Holds slot id ∨
    ∀ other, ¬ s.group.Holds other id
  grows : s'.group.slots.length ≤ s.group.slots.length ∨ s'.group.free = []

variable {t : EntityType} {s s' : Store}

theorem Follows.of_slots (h : s'.group.slots = s.group.slots) : Follows s s' where
  stays hs := Or.inl ((Group.holds_congr h).mp hs)
  grows := Or.inl (Nat.le_of_eq (by rw [h]))

theorem Follows.kept (h : Follows s s') (hi : s.group.Sound s.instances) {slot other : Nat}
    {id : InstanceId} (hs : s.group.Holds slot id) (ht : s'.group.Holds other id) :
    other = slot := by
  rcases h.stays ht with ht | hn
  · exact hi.slot_unique ht hs
  · exact absurd hs (hn slot)

theorem Invariant.edited (h : Invariant t s) {g : Group} {is : Instances} (hs : g.Sound is)
    (ht : g.type = s.group.type) (he : s.instances.Edits s.group.type is)
    (hg : ∀ {slot id}, g.Holds slot id → id < s.instances.count) : Invariant t ⟨g, is⟩ where
  sound := hs
  type := ht.trans h.type
  typed id hid := (he.type id).trans (h.typed id (he.count ▸ hid))
  complete id hid := he.complete id (h.complete id (he.count ▸ hid))
  given hm := he.count ▸ hg hm

theorem Invariant.made (h : Invariant t s) :
    Invariant t { s with instances := (s.instances.add (Entity.new s.group.type)).2 } := by
  refine ⟨h.sound.edited fun {_ id} hs => ?_, h.type,
    Instances.forall_add (P := fun e => e.type = t) h.typed h.type,
    Instances.forall_add h.complete (Entity.complete_new _),
    fun hs => Nat.lt_succ_of_lt (h.given hs)⟩
  rw [Instances.entity_add_of_lt (h.given hs)]
  exact .refl _

theorem Invariant.changed (h : Invariant t s) {id : InstanceId} (hid : id < s.instances.count)
    {f : Entity → Except Fault Entity}
    (hf : ∀ {e e'}, e.type = t → f e = .ok e' → e.Continues e')
    (hc : s.change id f = .ok s') : Invariant t s' ∧ Follows s s' := by
  obtain ⟨e, he, rfl⟩ := map_ok hc
  have hcont := hf (h.typed id hid) he
  exact ⟨h.edited (h.sound.put hcont) rfl
    (.edit ((h.typed id hid).trans h.type.symm) hcont) h.given, .of_slots rfl⟩

theorem perform_preserves_invariant (ht : t.DistinctNames) (h : Invariant t s) {c : Call}
    (he : c.Enabled s) (hp : s.perform c = .ok s') : Invariant t s' ∧ Follows s s' := by
  cases c with
  | make =>
    cases hp
    exact ⟨h.made, .of_slots rfl⟩
  | attach id state strategy =>
    obtain ⟨⟨cached, g, is⟩, ha, rfl⟩ := map_ok hp
    obtain ⟨⟨-, hs⟩, hattached⟩ := Group.attach_spec ha
    have htype : (s.instances.entity id).type = s.group.type :=
      (h.typed id he).trans h.type.symm
    obtain ⟨hedits, hgt⟩ := hattached.edits h.sound htype
    have hsound := h.sound.attached_call hs htype (h.complete id he) hattached
    refine ⟨h.edited hsound hgt hedits ?_, ?_, hattached.grows⟩
    · intro slot other hm
      rcases hattached.stays h.sound hm with hm | ⟨rfl, -⟩
      · exact h.given hm
      · exact he
    · intro slot other hm
      rcases hattached.stays h.sound hm with hm | ⟨-, hn⟩
      · exact Or.inl hm
      · exact Or.inr hn
  | detach id =>
    obtain ⟨⟨g, is⟩, hd, rfl⟩ := map_ok hp
    obtain ⟨hs, hedits, hgt⟩ := h.sound.detach_call hd
    obtain ⟨hkept, hlen⟩ := Group.detach_slots hd
    exact ⟨h.edited hs hgt hedits fun hm => h.given (hkept hm),
      fun hm => Or.inl (hkept hm), Or.inl (Nat.le_of_eq hlen)⟩
  | fixupKey temp real =>
    obtain ⟨⟨id, g, is⟩, hf, rfl⟩ := map_ok hp
    have hfixed := Group.fixup_spec hf
    obtain ⟨hs, hedits, hgt⟩ := hfixed.sound h.sound
    exact ⟨h.edited hs hgt hedits fun hm => h.given ((Group.holds_congr hfixed.slots).mp hm),
      .of_slots hfixed.slots⟩
  | updateForeignKey property old new =>
    obtain ⟨⟨n, g, is⟩, hu, rfl⟩ := map_ok hp
    obtain ⟨hs, hedits, hgt⟩ := h.sound.cascade_call (by rwa [h.type]) hu
    obtain ⟨-, p, moves, hr⟩ := Group.updateForeignKey_spec h.sound hu
    have hslots : g.slots = s.group.slots := by
      rw [hr.group]
      rfl
    exact ⟨h.edited hs hgt hedits fun hm => h.given ((Group.holds_congr hslots).mp hm),
      .of_slots hslots⟩
  | set id name v =>
    exact h.changed he (fun hty hset => Entity.continues_set (by rwa [hty]) hset) hp
  | markUnchanged id => exact h.changed he (fun _ hm => Entity.continues_markUnchanged hm) hp
  | markModified id => exact h.changed he (fun _ hm => Entity.continues_markModified hm) hp

theorem next_preserves_invariant (ht : t.DistinctNames) (h : Invariant t s) {c : Call}
    (he : c.Enabled s) : Invariant t (s.next c) ∧ Follows s (s.next c) := by
  unfold next
  cases hp : s.perform c with
  | error fault => exact ⟨h, .of_slots rfl⟩
  | ok s' => exact perform_preserves_invariant ht h he hp

theorem run_preserves_invariant (ht : t.DistinctNames) {calls : List Call}
    (h : Invariant t s) (hv : s.Valid calls) : Invariant t (s.run calls) := by
  induction calls generalizing s with
  | nil => exact h
  | cons c rest ih => exact ih (next_preserves_invariant ht h hv.1).1 hv.2

theorem valid_append {calls rest : List Call} :
    s.Valid (calls ++ rest) ↔ s.Valid calls ∧ (s.run calls).Valid rest := by
  induction calls generalizing s with
  | nil => simp [Valid, run]
  | cons c calls ih => simp [Valid, run, ih, and_assoc]

/-- The slots were all taken when the last of them was added. -/
theorem run_slots_le_peak (ht : t.DistinctNames) (calls : List Call) (h : Invariant t s)
    (hs : s.group.slots = []) (hv : s.Valid calls) :
    ∃ k ≤ calls.length, (s.run calls).group.slots.length ≤
      (s.run (calls.take k)).group.members.length := by
  induction calls using List.reverseRecOn with
  | nil => exact ⟨0, Nat.le_refl _, by simp [run, hs]⟩
  | append_singleton calls c ih =>
    obtain ⟨hcalls, hc⟩ := valid_append.mp hv
    have hlast : s.run (calls ++ [c]) = (s.run calls).next c := by simp [run]
    obtain ⟨hinv, hf⟩ :=
      next_preserves_invariant ht (run_preserves_invariant ht h hcalls) hc.1
    rw [hlast]
    rcases hf.grows with hle | hfull
    · obtain ⟨k, hk, hpeak⟩ := ih hcalls
      refine ⟨k, by simpa using Nat.le_succ_of_le hk, ?_⟩
      rw [List.take_append_of_le_length hk]
      exact Nat.le_trans hle hpeak
    · refine ⟨(calls ++ [c]).length, Nat.le_refl _, ?_⟩
      rw [List.take_length, hlast]
      exact Nat.le_of_eq (hinv.sound.full hfull).symm

/-- Slots, free list and index tell the same of the entities that are attached. -/
structure InStep (s : Store) : Prop where
  verified : s.group.verifyIndex s.instances = .ok ()
  free_iff : ∀ slot, slot ∈ s.group.free ↔ s.group.slots[slot]? = some none
  free_nodup : s.group.free.Nodup
  size : s.group.size = s.group.members.length
  index_iff : ∀ key slot, s.group.index.get? key = some slot ↔
    ∃ id, s.group.Holds slot id ∧ (s.instances.entity id).groupKey = some key

theorem Invariant.inStep (h : Invariant t s) : InStep s where
  verified := h.sound.verifyIndex_ok
  free_iff := h.sound.free_iff
  free_nodup := h.sound.free_nodup
  size := h.sound.size_eq
  index_iff key slot := by
    rw [h.sound.index_iff]
    refine exists_congr fun id => and_congr_right fun hs => ?_
    rw [h.sound.attached hs, Option.some.injEq]

def start (g : Group) : Store := ⟨g, Instances.empty⟩

theorem invariant_start {g : Group} (hg : Group.new t = .ok g) : Invariant t (start g) := by
  obtain ⟨hs, hgt, hslots⟩ := Group.sound_new hg Instances.empty
  refine ⟨hs, hgt, fun _ hid => absurd hid (Nat.not_lt_zero _),
    fun _ hid => absurd hid (Nat.not_lt_zero _), fun {slot id} hm => ?_⟩
  simp [Group.Holds, start, hslots] at hm

/-- Whatever is called on a new group of a checked type, in whatever order and whether or
not it succeeds, the parts of the group stay in step, no call moves an entity that stays,
and there were once as many entities as there are slots. -/
theorem run_in_step {g : Group} (ht : t.checked = .ok t) (hg : Group.new t = .ok g)
    {calls : List Call} (hv : (start g).Valid calls) :
    InStep ((start g).run calls) ∧
    (∀ c : Call, c.Enabled ((start g).run calls) → ∀ {slot other id},
      ((start g).run calls).group.Holds slot id →
      (((start g).run calls).next c).group.Holds other id → other = slot) ∧
    ∃ k ≤ calls.length, ((start g).run calls).group.slots.length ≤
      ((start g).run (calls.take k)).group.members.length := by
  have hd := EntityType.distinctNames_of_checked ht
  have hstart := invariant_start hg
  have hinv := run_preserves_invariant hd hstart hv
  refine ⟨hinv.inStep, fun c hc slot other id hs ho => ?_,
    run_slots_le_peak hd calls hstart (Group.sound_new hg Instances.empty).2.2 hv⟩
  exact (next_preserves_invariant hd hinv hc).2.kept hinv.sound hs ho

/-- The first of two entities leaves, and a third one takes over its slot. -/
theorem reused_slot_in_step :
    let t : EntityType :=
      { name := "Part", dataProperties := [{ name := "id", dataType := .int32, isKey := true }] }
    let calls : List Call := [.make, .make, .make, .set 0 "id" (.integer 1),
      .set 1 "id" (.integer 2), .set 2 "id" (.integer 3), .attach 0 .unchanged .disallowed,
      .attach 1 .added .disallowed, .detach 0, .attach 2 .unchanged .disallowed,
      .fixupKey (.integer 2) (.integer 5), .set 2 "id" (.integer 9)]
    t.checked = .ok t ∧ (start { type := t }).Valid calls ∧
      ((start { type := t }).run calls).group.slots = [some 2, some 1] ∧
      InStep ((start { type := t }).run calls) := by
  intro t calls
  have hv : (start { type := t }).Valid calls := by decide +kernel
  exact ⟨rfl, hv, by decide +kernel, (run_in_step (t := t) rfl rfl hv).1⟩

end Store

end EntityCache.GroupRuns
