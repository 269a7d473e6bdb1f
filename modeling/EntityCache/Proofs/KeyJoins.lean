import EntityCache.Tracking.Key
import Mathlib

/-! Reading the parts of a key off its text. The delimiter is not escaped, so a part that has
one in it, or ends in a colon, can hide where it stops. Among keys without such parts, the
last part apart, a text belongs to one list of parts. -/
namespace EntityCache.EntityKey

/-- No delimiter begins inside the text, whatever is written behind it. -/
structure Legible (s : String) : Prop where
  no_delimiter : ¬ delimiter.toList <:+: s.toList
  no_colon_last : s.toList.getLast? ≠ some ':'

instance (s : String) : Decidable (Legible s) :=
  decidable_of_iff (¬ delimiter.toList <:+: s.toList ∧ s.toList.getLast? ≠ some ':')
    ⟨fun h => ⟨h.1, h.2⟩, fun h => ⟨h.1, h.2⟩⟩

theorem Legible.of_no_colon {s : String} (h : ':' ∉ s.toList) : Legible s where
  no_delimiter hbetween := h (hbetween.subset (by decide))
  no_colon_last hlast := h (List.mem_of_getLast? hlast)

theorem delimiter_toList : delimiter.toList = [':', ':', ':'] := by decide

theorem Legible.ne_append_colon {s : String} (hs : Legible s) (cs : List Char) :
    s.toList ≠ cs ++ [':'] := by
  intro h
  exact hs.no_colon_last (by rw [h, List.getLast?_concat])

theorem Legible.ne_append_delimiter {s : String} (hs : Legible s) (front back : List Char) :
    s.toList ≠ front ++ ':' :: ':' :: ':' :: back := by
  intro h
  exact hs.no_delimiter ⟨front, back, by rw [delimiter_toList, h, List.append_assoc]; rfl⟩

/-- A delimiter that is written behind the front of a legible text is behind the whole. -/
theorem Legible.eq_nil_of_delimiter {s : String} (hs : Legible s)
    {front back rest rest' : List Char} (hback : s.toList = front ++ back)
    (h : delimiter.toList ++ rest = back ++ (delimiter.toList ++ rest')) : back = [] := by
  simp only [delimiter_toList] at h
  cases back with
  | nil => rfl
  | cons a back =>
    simp only [List.cons_append, List.cons.injEq] at h
    obtain ⟨rfl, h⟩ := h
    cases back with
    | nil => exact absurd hback (hs.ne_append_colon front)
    | cons b back =>
      simp only [List.cons_append, List.cons.injEq] at h
      obtain ⟨rfl, h⟩ := h
      cases back with
      | nil => exact absurd (hback.trans (by simp)) (hs.ne_append_colon (front ++ [':']))
      | cons c back =>
        simp only [List.cons_append, List.cons.injEq] at h
        obtain ⟨rfl, -⟩ := h
        exact absurd hback (hs.ne_append_delimiter front back)

/-- The first delimiter behind a legible text is the one written there. -/
theorem append_delimiter_inj {s t : String} (hs : Legible s) (ht : Legible t)
    {rest rest' : List Char}
    (h : s.toList ++ (delimiter.toList ++ rest) = t.toList ++ (delimiter.toList ++ rest')) :
    s = t ∧ rest = rest' := by
  have hst : s.toList = t.toList := by
    rcases List.append_eq_append_iff.mp h with ⟨back, hback, hrest⟩ | ⟨back, hback, hrest⟩
    · have hnil := ht.eq_nil_of_delimiter hback hrest
      rw [hback, hnil, List.append_nil]
    · have hnil := hs.eq_nil_of_delimiter hback hrest
      rw [hback, hnil, List.append_nil]
  rw [hst] at h
  exact ⟨String.toList_injective hst,
    List.append_cancel_left (List.append_cancel_left h)⟩

/-- The parts of a key can be read off its text; of the last part nothing is asked. -/
theorem delimiter_intercalate_inj {as bs : List String} (hlength : as.length = bs.length)
    (ha : ∀ s ∈ as.dropLast, Legible s) (hb : ∀ s ∈ bs.dropLast, Legible s)
    (h : delimiter.intercalate as = delimiter.intercalate bs) : as = bs := by
  induction as generalizing bs with
  | nil => exact (List.length_eq_zero_iff.mp hlength.symm).symm
  | cons a as ih =>
    cases bs with
    | nil => cases hlength
    | cons b bs =>
      cases as with
      | nil =>
        obtain rfl : bs = [] := List.length_eq_zero_iff.mp (Nat.succ.inj hlength).symm
        simpa [String.intercalate_singleton] using h
      | cons a' as =>
        cases bs with
        | nil => cases hlength
        | cons b' bs =>
          rw [String.intercalate_cons_cons, String.intercalate_cons_cons] at h
          have hlist := congrArg String.toList h
          simp only [String.toList_append, List.append_assoc] at hlist
          rw [List.dropLast_cons_of_ne_nil (by simp)] at ha hb
          obtain ⟨rfl, hrest⟩ := append_delimiter_inj (ha a List.mem_cons_self)
            (hb b List.mem_cons_self) hlist
          rw [ih (Nat.succ.inj hlength) (fun s hs => ha s (List.mem_cons_of_mem _ hs))
            (fun s hs => hb s (List.mem_cons_of_mem _ hs)) (String.toList_injective hrest)]

end EntityCache.EntityKey
