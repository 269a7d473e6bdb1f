import EntityCache.Fault

/-! Calls that succeed, taken apart into the steps that did, and batches that do not. -/
namespace EntityCache

theorem bind_ok {ε α β : Type} {x : Except ε α} {f : α → Except ε β} {r : β}
    (h : x >>= f = .ok r) : ∃ a, x = .ok a ∧ f a = .ok r := by
  cases x with
  | error e => cases h
  | ok a => exact ⟨a, rfl, h⟩

theorem map_ok {ε α β : Type} {x : Except ε α} {f : α → β} {r : β}
    (h : x.map f = .ok r) : ∃ a, x = .ok a ∧ f a = r := by
  cases x with
  | error e => cases h
  | ok a => exact ⟨a, rfl, Except.ok.inj h⟩

theorem mapM_ok {α β : Type} {f : α → Except Fault β} {xs : List α} {ys : List β}
    (h : xs.mapM f = .ok ys) : ∀ y ∈ ys, ∃ x ∈ xs, f x = .ok y := by
  induction xs generalizing ys with
  | nil =>
    rw [List.mapM_nil] at h
    cases h
    simp
  | cons x rest ih =>
    rw [List.mapM_cons] at h
    obtain ⟨y, hy, h⟩ := bind_ok h
    obtain ⟨others, hothers, h⟩ := bind_ok h
    cases h
    intro z hz
    rcases List.mem_cons.mp hz with rfl | hz
    · exact ⟨x, List.mem_cons_self, hy⟩
    · obtain ⟨w, hw, hfw⟩ := ih hothers z hz
      exact ⟨w, List.mem_cons_of_mem _ hw, hfw⟩

theorem mapM_error {α β : Type} {f : α → Except Fault β} {xs : List α} {x : α} {fault : Fault}
    (hx : x ∈ xs) (h : f x = .error fault) : ∃ other, xs.mapM f = .error other := by
  induction xs with
  | nil => cases hx
  | cons y rest ih =>
    rw [List.mapM_cons]
    cases hy : f y with
    | error other => exact ⟨other, rfl⟩
    | ok z =>
      rcases List.mem_cons.mp hx with rfl | hx
      · cases hy.symm.trans h
      · obtain ⟨other, hrest⟩ := ih hx
        exact ⟨other, by rw [hrest]; rfl⟩

end EntityCache
