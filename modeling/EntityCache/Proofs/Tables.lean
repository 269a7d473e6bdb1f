import EntityCache.Table
import Mathlib.Data.List.Nodup

/-! Tables whose names differ. Their entries are then exactly what the look-up finds, and
a batch of erasures or of writes to different names can be read off name by name. -/
namespace EntityCache.Table

variable {α : Type}

def names (t : Table α) : List String := t.map Prod.fst

theorem get?_eq_none_iff (t : Table α) (name : String) :
    t.get? name = none ↔ name ∉ t.names := by
  induction t with
  | nil => simp [get?, names]
  | cons e rest ih =>
    obtain ⟨n, v⟩ := e
    by_cases h : n = name
    · simp [get?, names, h]
    · have h' : ¬ name = n := fun k => h k.symm
      simpa [get?, names, h, h'] using ih

theorem mem_of_get? {t : Table α} {name : String} {v : α} (h : t.get? name = some v) :
    (name, v) ∈ t := by
  induction t with
  | nil => simp [get?] at h
  | cons e rest ih =>
    obtain ⟨n, w⟩ := e
    by_cases hn : n = name
    · simp only [get?, hn, if_true, Option.some.injEq] at h
      simp [hn, h]
    · simp only [get?, hn, if_false] at h
      exact List.mem_cons_of_mem _ (ih h)

theorem get?_append (t u : Table α) (name : String) :
    get? (t ++ u) name = (t.get? name).or (u.get? name) := by
  induction t with
  | nil => rfl
  | cons e rest ih =>
    obtain ⟨n, v⟩ := e
    by_cases h : n = name
    · simp [get?, h]
    · simpa [get?, h] using ih

theorem get?_of_mem {t : Table α} (ht : t.names.Nodup) {name : String} {v : α}
    (h : (name, v) ∈ t) : t.get? name = some v := by
  induction t with
  | nil => simp at h
  | cons e rest ih =>
    obtain ⟨n, w⟩ := e
    obtain ⟨hn, hr⟩ := List.nodup_cons.mp ht
    rcases List.mem_cons.mp h with heq | hm
    · obtain ⟨rfl, rfl⟩ := Prod.mk.inj heq
      simp [get?]
    · have hne : n ≠ name := by
        rintro rfl
        exact hn (List.mem_map.mpr ⟨(n, v), hm, rfl⟩)
      simp [get?, hne, ih hr hm]

theorem names_put (t : Table α) (name : String) (v : α) :
    (put name v t).names = if name ∈ t.names then t.names else t.names ++ [name] := by
  induction t with
  | nil => simp [put, names]
  | cons e rest ih =>
    obtain ⟨n, w⟩ := e
    by_cases h : n = name
    · simp [put, names, h]
    · have h' : ¬ name = n := fun k => h k.symm
      simp only [names, put, h, if_false, List.map_cons, List.mem_cons, h', false_or] at ih ⊢
      split <;> simp_all

theorem nodup_put {t : Table α} (ht : t.names.Nodup) (name : String) (v : α) :
    (put name v t).names.Nodup := by
  rw [names_put]
  split
  · exact ht
  · rename_i h
    exact List.nodup_append.mpr ⟨ht, by simp, by rintro a ha b hb rfl; simp_all⟩

theorem nodup_putNew {t : Table α} (ht : t.names.Nodup) (name : String) (v : α) :
    (t.putNew name v).names.Nodup := by
  unfold putNew
  split
  · exact ht
  · exact nodup_put ht name v

theorem erase_sublist (t : Table α) (name : String) : (erase name t).Sublist t := by
  induction t with
  | nil => simp [erase]
  | cons e rest ih =>
    obtain ⟨n, w⟩ := e
    by_cases h : n = name
    · simpa [erase, h] using ih.cons (n, w)
    · simpa [erase, h] using ih.cons_cons (n, w)

theorem nodup_erase {t : Table α} (ht : t.names.Nodup) (name : String) :
    (erase name t).names.Nodup := ht.sublist ((erase_sublist t name).map Prod.fst)

theorem put_put (t : Table α) (name : String) (v w : α) :
    put name v (put name w t) = put name v t := by
  induction t with
  | nil => simp [put]
  | cons e rest ih =>
    obtain ⟨n, u⟩ := e
    by_cases h : n = name <;> simp [put, h, ih]

theorem put_comm {t : Table α} {name other : String} (hne : name ≠ other)
    (h : (t.get? name).isSome) (v w : α) :
    put name v (put other w t) = put other w (put name v t) := by
  induction t with
  | nil => simp [get?] at h
  | cons e rest ih =>
    obtain ⟨n, u⟩ := e
    by_cases hn : n = name
    · subst hn
      simp [put, hne]
    · by_cases ho : n = other
      · subst ho
        simp [put, hn]
      · have hrest : (get? rest name).isSome := by simpa [get?, hn] using h
        simp [put, hn, ho, ih hrest]

theorem put_self {t : Table α} {name : String} {v : α} (h : t.get? name = some v) :
    put name v t = t := by
  induction t with
  | nil => simp [get?] at h
  | cons e rest ih =>
    obtain ⟨n, u⟩ := e
    by_cases hn : n = name
    · simp only [get?, hn, if_true, Option.some.injEq] at h
      simp [put, hn, h]
    · simp only [get?, hn, if_false] at h
      simp [put, hn, ih h]

theorem mem_put {t : Table α} {name : String} {v : α} {entry : String × α}
    (h : entry ∈ put name v t) : entry ∈ t ∨ entry = (name, v) := by
  induction t with
  | nil => exact Or.inr (List.mem_singleton.mp h)
  | cons e rest ih =>
    obtain ⟨n, w⟩ := e
    unfold put at h
    split at h
    · rename_i hn
      rcases List.mem_cons.mp h with rfl | h
      · exact Or.inr (by rw [hn])
      · exact Or.inl (List.mem_cons_of_mem _ h)
    · rcases List.mem_cons.mp h with rfl | h
      · exact Or.inl List.mem_cons_self
      · exact (ih h).imp_left (List.mem_cons_of_mem _)

theorem mem_putNew {t : Table α} {name : String} {v : α} {entry : String × α}
    (h : entry ∈ t.putNew name v) : entry ∈ t ∨ entry = (name, v) := by
  unfold putNew at h
  split at h
  · exact Or.inl h
  · exact mem_put h

theorem has_putNew (t : Table α) (name other : String) (v : α) :
    (t.putNew name v).has other ↔ t.has other ∨ other = name := by
  unfold putNew
  by_cases hname : t.has name
  · rw [if_pos hname]
    constructor
    · exact Or.inl
    · rintro (hother | rfl)
      · exact hother
      · exact hname
  · rw [if_neg hname, has, get?_put]
    by_cases hother : other = name <;> simp [hother, has]

theorem get?_putNew (t : Table α) (name other : String) (v : α) :
    (t.putNew name v).get? other = (t.get? other).or (if other = name then some v else none) := by
  unfold putNew has
  cases hname : t.get? name with
  | none =>
    rw [Option.isSome_none, if_neg Bool.false_ne_true, get?_put]
    by_cases hother : other = name
    · simp [hother, hname]
    · simp [hother]
  | some w =>
    rw [Option.isSome_some, if_pos rfl]
    by_cases hother : other = name
    · simp [hother, hname]
    · simp [hother]

theorem not_has_iff {t : Table α} {name : String} : ¬ t.has name ↔ t.get? name = none := by
  simp [has]

section Batch

variable {β : Type}

theorem get?_foldl_erase (f : β → String) (ms : List β) (t : Table α) (name : String) :
    (ms.foldl (fun t m => erase (f m) t) t).get? name =
      if name ∈ ms.map f then none else t.get? name := by
  induction ms generalizing t with
  | nil => simp
  | cons m ms ih =>
    rw [List.foldl_cons, ih, get?_erase]
    by_cases h : name = f m <;> simp [h]

theorem nodup_foldl_erase (f : β → String) (ms : List β) {t : Table α}
    (ht : t.names.Nodup) : (ms.foldl (fun t m => erase (f m) t) t).names.Nodup := by
  induction ms generalizing t with
  | nil => exact ht
  | cons m ms ih => exact ih (nodup_erase ht (f m))

theorem get?_foldl_put_of_not_mem (f : β → String) (g : β → α) (ms : List β) (t : Table α)
    {name : String} (h : name ∉ ms.map f) :
    (ms.foldl (fun t m => put (f m) (g m) t) t).get? name = t.get? name := by
  induction ms generalizing t with
  | nil => rfl
  | cons m ms ih =>
    simp only [List.map_cons, List.mem_cons, not_or] at h
    rw [List.foldl_cons, ih _ h.2, get?_put, if_neg h.1]

theorem get?_foldl_put_of_mem (f : β → String) (g : β → α) {ms : List β} (t : Table α)
    (hf : (ms.map f).Nodup) {m : β} (hm : m ∈ ms) :
    (ms.foldl (fun t m => put (f m) (g m) t) t).get? (f m) = some (g m) := by
  induction ms generalizing t with
  | nil => simp at hm
  | cons n ms ih =>
    rw [List.map_cons, List.nodup_cons] at hf
    rw [List.foldl_cons]
    rcases List.mem_cons.mp hm with rfl | hm
    · rw [get?_foldl_put_of_not_mem f g ms _ hf.1, get?_put, if_pos rfl]
    · exact ih _ hf.2 hm

theorem nodup_foldl_put (f : β → String) (g : β → α) (ms : List β) {t : Table α}
    (ht : t.names.Nodup) : (ms.foldl (fun t m => put (f m) (g m) t) t).names.Nodup := by
  induction ms generalizing t with
  | nil => exact ht
  | cons m ms ih => exact ih (nodup_put ht (f m) (g m))

end Batch

end EntityCache.Table
