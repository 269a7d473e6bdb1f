import EntityCache.Proofs.Keys

/-! Merges one after the other. A merge writes every data property, so a later one leaves
nothing of an earlier one, and merging what an entity holds already changes nothing. -/
namespace EntityCache.Entity

variable {e source other : Entity}

def mergedValues (ps : List DataProperty) (source : Entity) (values : Table Value) : Table Value :=
  ps.foldl (fun values p => match source.get? p.name with
    | some v => values.put p.name v
    | none => values) values

theorem mergeFrom_eq (e source : Entity) : e.mergeFrom source =
    { e with values := mergedValues e.type.dataProperties source e.values, originals := [] } := rfl

theorem mergedValues_none {p : DataProperty} (hs : source.get? p.name = none)
    (ps : List DataProperty) (values : Table Value) :
    mergedValues (p :: ps) source values = mergedValues ps source values := by
  simp only [mergedValues, List.foldl_cons, hs]

theorem mergedValues_some {p : DataProperty} {v : Value} (hs : source.get? p.name = some v)
    (ps : List DataProperty) (values : Table Value) : mergedValues (p :: ps) source values =
      mergedValues ps source (Table.put p.name v values) := by
  simp only [mergedValues, List.foldl_cons, hs]

/-- A write to a property that is there already may come before the merge as well as after
it, if the merge does not write that property. -/
theorem put_mergedValues {ps : List DataProperty} {values : Table Value} {name : String}
    (hname : name ∉ ps.map (·.name)) (hthere : (values.get? name).isSome) (v : Value) :
    Table.put name v (mergedValues ps source values) =
      mergedValues ps source (Table.put name v values) := by
  induction ps generalizing values with
  | nil => rfl
  | cons p ps ih =>
    simp only [List.map_cons, List.mem_cons, not_or] at hname
    cases hs : source.get? p.name with
    | none =>
      rw [mergedValues_none hs, mergedValues_none hs]
      exact ih hname.2 hthere
    | some w =>
      have hstill : ((Table.put p.name w values).get? name).isSome := by
        rw [Table.get?_put]
        split <;> simp [hthere]
      rw [mergedValues_some hs, mergedValues_some hs, ← Table.put_comm hname.1 hthere]
      exact ih hname.2 hstill

theorem mergedValues_twice {ps : List DataProperty} (hnd : (ps.map (·.name)).Nodup)
    (hs : ∀ p ∈ ps, (source.get? p.name).isSome) (ho : ∀ p ∈ ps, (other.get? p.name).isSome)
    (values : Table Value) :
    mergedValues ps other (mergedValues ps source values) = mergedValues ps other values := by
  induction ps generalizing values with
  | nil => rfl
  | cons p ps ih =>
    obtain ⟨hp, hnd⟩ := List.nodup_cons.mp hnd
    obtain ⟨v, hv⟩ := Option.isSome_iff_exists.mp (hs p List.mem_cons_self)
    obtain ⟨w, hw⟩ := Option.isSome_iff_exists.mp (ho p List.mem_cons_self)
    have hthere : ((Table.put p.name v values).get? p.name).isSome := by
      simp [Table.get?_put]
    have hrest := ih hnd (fun q hq => hs q (List.mem_cons_of_mem _ hq))
      fun q hq => ho q (List.mem_cons_of_mem _ hq)
    rw [mergedValues_some hv, mergedValues_some hw, mergedValues_some hw,
      put_mergedValues hp hthere, Table.put_put, hrest]

theorem mergedValues_self {ps : List DataProperty} {values : Table Value}
    (h : ∀ p ∈ ps, source.get? p.name = values.get? p.name) :
    mergedValues ps source values = values := by
  induction ps with
  | nil => rfl
  | cons p ps ih =>
    have hrest := ih fun q hq => h q (List.mem_cons_of_mem _ hq)
    have hp := h p List.mem_cons_self
    cases hs : source.get? p.name with
    | none => rw [mergedValues_none hs, hrest]
    | some v => rw [mergedValues_some hs, Table.put_self (hp.symm.trans hs), hrest]

theorem mergeFrom_mergeFrom (hd : e.type.DistinctNames) (hs : source.Complete)
    (hst : source.type = e.type) (ho : other.Complete) (hot : other.type = e.type) :
    (e.mergeFrom source).mergeFrom other = e.mergeFrom other := by
  have hvalues := mergedValues_twice hd (fun p hp => hs p (hst ▸ hp)) (fun p hp => ho p (hot ▸ hp))
    e.values
  rw [mergeFrom_eq, mergeFrom_eq, mergeFrom_eq, hvalues]

theorem mergeFrom_of_same (hv : source.values = e.values) (ho : e.originals = []) :
    e.mergeFrom source = e := by
  have hvalues : mergedValues e.type.dataProperties source e.values = e.values :=
    mergedValues_self fun p _ => by rw [get?, hv]
  rw [mergeFrom_eq, hvalues, ← ho]

def absorb (e source : Entity) : Entity := { e.mergeFrom source with state := .unchanged }

def meet (strategy : MergeStrategy) (e source : Entity) : Entity :=
  if strategy.overwrites e.state then e.absorb source else e

/-- A later form of a cached entity: the strategy treats it alike, and a node that is
absorbed leaves the same of both. -/
structure Settles (strategy : MergeStrategy) (e e' : Entity) : Prop where
  type : e'.type = e.type
  overwrites : strategy.overwrites e'.state = strategy.overwrites e.state
  absorb : ∀ source : Entity, source.Complete → source.type = e.type →
    e'.absorb source = e.absorb source

section Settles

variable {strategy : MergeStrategy} {a b c : Entity}

theorem Settles.refl (strategy : MergeStrategy) (e : Entity) : Settles strategy e e :=
  ⟨rfl, rfl, fun _ _ _ => rfl⟩

theorem Settles.trans (h : Settles strategy a b) (k : Settles strategy b c) :
    Settles strategy a c where
  type := k.type.trans h.type
  overwrites := k.overwrites.trans h.overwrites
  absorb source hs ht := (k.absorb source hs (ht.trans h.type.symm)).trans (h.absorb source hs ht)

/-- What has absorbed a node is Unchanged, which a strategy overwrites if it overwrites
anything. -/
theorem settles_absorb (hd : e.type.DistinctNames) (hs : source.Complete)
    (ht : source.type = e.type) (ho : strategy.overwrites e.state = true) :
    Settles strategy e (e.absorb source) where
  type := rfl
  overwrites := by
    rw [ho]
    cases strategy with
    | overwriteChanges | preserveChanges => rfl
    | disallowed | skipMerge => cases ho
  absorb other hother hot := by
    have htwice := mergeFrom_mergeFrom hd hs ht hother hot
    unfold Entity.absorb
    rw [← htwice]
    rfl

theorem settles_meet (strategy : MergeStrategy) (hd : e.type.DistinctNames) (hs : source.Complete)
    (ht : source.type = e.type) : Settles strategy e (e.meet strategy source) := by
  unfold meet
  split
  · exact settles_absorb hd hs ht ‹_›
  · exact .refl strategy e

/-- A node either leaves a later form as it is or makes of it what it makes of the earlier. -/
theorem Settles.meet_cases (h : Settles strategy e b) (hs : source.Complete)
    (ht : source.type = e.type) : b.meet strategy source = b ∨
      b.meet strategy source = e.meet strategy source := by
  unfold meet
  rw [h.overwrites]
  split
  · exact Or.inr (h.absorb source hs ht)
  · exact Or.inl rfl

theorem meet_meet (hd : e.type.DistinctNames) (hs : source.Complete)
    (ht : source.type = e.type) :
    (e.meet strategy source).meet strategy source = e.meet strategy source := by
  rcases (settles_meet strategy hd hs ht).meet_cases hs ht with h | h <;> exact h

end Settles

end EntityCache.Entity
