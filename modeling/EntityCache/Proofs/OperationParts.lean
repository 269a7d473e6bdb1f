import EntityCache.Proofs.CacheRuns

/-! Operations by the calls that they consist of. Whatever the calls of an operation keep,
the operation keeps, in all the ways in which it can end; and what every operation of a run
keeps, the run keeps. -/
namespace EntityCache

open Cache EntityCache.Action

variable {P : Cache → Prop} {R : Cache → Cache → Prop}

def Action.SettlingKeeps (P : Cache → Prop) (R : Cache → Cache → Prop) (id : InstanceId) : Prop :=
  (detach id).Keeps P R ∧ (change id fun e => .ok e.acceptChanges).Keeps P R

def Action.RejectingKeeps (P : Cache → Prop) (R : Cache → Cache → Prop) (id : InstanceId) : Prop :=
  (detach id).Keeps P R ∧ (change id fun e => .ok e.rejectChanges).Keeps P R

def Op.PartsKeep (P : Cache → Prop) (R : Cache → Cache → Prop) (c : Cache) : Op → Prop
  | .create typeName => (Action.create typeName).KeepsAt P R c
  | .attach id state strategy => (Action.attach id state strategy).KeepsAt P R c
  | .add id => (Action.add id).KeepsAt P R c
  | .delete id => (Action.detach id).Keeps P R ∧ (change id Entity.markDeleted).Keeps P R
  | .detach id => (Action.detach id).Keeps P R
  | .acceptEntity id => SettlingKeeps P R id
  | .rejectEntity id => RejectingKeeps P R id
  | .acceptChanges => ∀ id ∈ c.changes, SettlingKeeps P R id
  | .rejectChanges => ∀ id ∈ c.changes, RejectingKeeps P R id
  | .fixupKey typeName temp real => (Action.fixupKey typeName temp real).KeepsAt P R c
  | .importResults payload q adapter => (Action.importResults payload q adapter).KeepsAt P R c
  | .applySave saved result =>
    (∀ m ∈ result.keyAssignments, (Action.fixupKey m.typeName m.temp m.real).Keeps P R) ∧
      (∀ id ∈ saved, SettlingKeeps P R id) ∧ ∀ node ∈ result.entities, (mergeSaved node).Keeps P R
  | .clear => Action.clear.KeepsAt P R c
  | .set id name v => (change id (·.set name v)).KeepsAt P R c
  | .markUnchanged id => (change id Entity.markUnchanged).KeepsAt P R c
  | .markModified id => (change id Entity.markModified).KeepsAt P R c

variable [IsPreorder Cache R] {c : Cache}

namespace Action

theorem delete_keepsAll {id : InstanceId} (hd : (detach id).Keeps P R)
    (hm : (change id Entity.markDeleted).Keeps P R) : (delete id).Keeps P R :=
  fun c hc => delete_keepsAt (fun _ => hd c hc) fun _ => hm c hc

theorem acceptEntity_keepsAll {id : InstanceId} (h : SettlingKeeps P R id) :
    (acceptEntity id).Keeps P R :=
  fun c hc => acceptEntity_keepsAt hc (fun _ => h.1 c hc) fun _ => h.2 c hc

theorem rejectEntity_keepsAll {id : InstanceId} (h : RejectingKeeps P R id) :
    (rejectEntity id).Keeps P R :=
  fun c hc => rejectEntity_keepsAt hc (fun _ => h.1 c hc) fun _ => h.2 c hc

theorem settle_keepsAll {id : InstanceId} (h : SettlingKeeps P R id) : (settle id).Keeps P R :=
  fun c hc => settle_keepsAt hc (fun _ => h.1 c hc) fun _ => h.2 c hc

end Action

theorem Op.keeps_of_parts {op : Op} (h : op.PartsKeep P R c) (hc : P c) :
    op.action.KeepsAt P R c := by
  cases op with
  | create typeName => exact KeepsAt.discard h
  | attach id state strategy => exact KeepsAt.discard h
  | add id => exact KeepsAt.discard h
  | delete id => exact (delete_keepsAll h.1 h.2).discard c hc
  | detach id => exact Keeps.discard h c hc
  | acceptEntity id => exact (acceptEntity_keepsAll h).discard c hc
  | rejectEntity id => exact (rejectEntity_keepsAll h).discard c hc
  | acceptChanges =>
    refine .bind_of_ok (on_get c) (Keeps.forM (fun id hid => ?_) c hc)
    exact (acceptEntity_keepsAll (h id hid)).discard
  | rejectChanges =>
    refine KeepsAt.discard (.bind_of_ok (on_get c) ?_)
    refine Keeps.bind (Keeps.forM fun id hid => ?_) (fun _ => .pure _) c hc
    exact (rejectEntity_keepsAll (h id hid)).discard
  | fixupKey typeName temp real => exact KeepsAt.discard h
  | importResults payload q adapter => exact KeepsAt.discard h
  | applySave saved result =>
    obtain ⟨hfix, hsettle, hmerge⟩ := h
    exact (Keeps.forM fun m hm => (hfix m hm).discard).bind
      (fun _ => (Keeps.forM fun id hid => settle_keepsAll (hsettle id hid)).bind
        fun _ => Keeps.forM hmerge) c hc
  | clear => exact h
  | set id name v => exact h
  | markUnchanged id => exact h
  | markModified id => exact h

namespace Cache

theorem next_of_getElem? {ops : List Op} {n : Nat} {op : Op} (h : ops[n]? = some op) (c : Cache) :
    c.run (ops.take (n + 1)) = (c.run (ops.take n)).next op := by
  rw [List.take_add_one, h, run, List.foldl_append]
  rfl

theorem enabled_of_valid {ops : List Op} {c : Cache} (hv : c.Valid ops) {n : Nat} {op : Op}
    (h : ops[n]? = some op) : op.Enabled (c.run (ops.take n)) := by
  induction ops generalizing c n with
  | nil => cases h
  | cons first rest ih =>
    cases n with
    | zero =>
      cases h
      exact hv.1
    | succ n => exact ih hv.2 (by simpa using h)

theorem valid_take {ops : List Op} {c : Cache} (hv : c.Valid ops) (n : Nat) :
    c.Valid (ops.take n) := by
  induction ops generalizing c n with
  | nil =>
    rw [List.take_nil]
    trivial
  | cons first rest ih =>
    cases n with
    | zero => trivial
    | succ n => exact ⟨hv.1, ih hv.2 n⟩

/-- What the first cache of a run has and every operation keeps, all its caches have. -/
theorem run_induction {I : Nat → Cache → Prop} {ops : List Op} (h0 : I 0 c)
    (hnext : ∀ n op, ops[n]? = some op → I n (c.run (ops.take n)) →
      I (n + 1) (c.run (ops.take (n + 1)))) :
    ∀ n ≤ ops.length, I n (c.run (ops.take n)) := by
  intro n hn
  induction n with
  | zero => exact h0
  | succ n ih =>
    have hop : ops[n]? = some ops[n] := List.getElem?_eq_getElem hn
    exact hnext n _ hop (ih (Nat.le_of_succ_le hn))

end Cache

end EntityCache
