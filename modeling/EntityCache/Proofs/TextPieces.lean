import EntityCache.Text.Pieces
import Mathlib.Data.List.Basic
import Mathlib.Data.List.Infix

/-! Text cut at marks, and put together again. Pieces between separators hold none of them and
joining undoes the cut, as long as no text that was joined held a separator itself. -/
namespace EntityCache.Text

def cutAt? (mark : Char) : List Char → Option (List Char × List Char)
  | [] => none
  | c :: cs => if c = mark then some ([], cs) else (cutAt? mark cs).map (Prod.map (c :: ·) id)

theorem cutAt?_append {mark : Char} {front : List Char} (h : mark ∉ front) (back : List Char) :
    cutAt? mark (front ++ mark :: back) = some (front, back) := by
  induction front with
  | nil => simp [cutAt?]
  | cons c front ih =>
    rw [List.mem_cons, not_or] at h
    simp [cutAt?, Ne.symm h.1, ih h.2]

/-- The first mark comes no later than any other one. -/
theorem cutAt?_front (mark : Char) (front back : List Char) :
    ∃ first between rest, cutAt? mark (front ++ mark :: back) = some (first, rest) ∧
      front = first ++ between ∧ (mark ∈ front → between ≠ []) := by
  by_cases h : mark ∈ front
  · obtain ⟨first, between, rfl, hfirst⟩ := List.eq_append_cons_of_mem h
    refine ⟨first, mark :: between, between ++ mark :: back, ?_, rfl, by simp⟩
    rw [List.append_assoc, List.cons_append]
    exact cutAt?_append hfirst _
  · refine ⟨front, [], back, cutAt?_append h back, (List.append_nil front).symm, ?_⟩
    exact fun hm => absurd hm h

theorem length_pieces (p : Char → Bool) (cs : List Char) :
    (pieces p cs).length = cs.countP p + 1 := by
  induction cs with
  | nil => rfl
  | cons c cs ih =>
    by_cases hc : p c
    · simp [pieces, hc, ih]
    · cases hpieces : pieces p cs with
      | nil => exact absurd hpieces (pieces_ne_nil p cs)
      | cons piece rest =>
        rw [hpieces] at ih
        simpa [pieces, hc, hpieces] using ih

theorem pieces_append {p : Char → Bool} {front : List Char} (h : ∀ c ∈ front, p c = false)
    {mark : Char} (hmark : p mark = true) (back : List Char) :
    pieces p (front ++ mark :: back) = front :: pieces p back := by
  induction front with
  | nil => simp [pieces, hmark]
  | cons c front ih =>
    have hc := h c List.mem_cons_self
    simp [pieces, hc, ih fun d hd => h d (List.mem_cons_of_mem _ hd)]

theorem pieces_self {p : Char → Bool} {cs : List Char} (h : ∀ c ∈ cs, p c = false) :
    pieces p cs = [cs] := by
  induction cs with
  | nil => rfl
  | cons c cs ih =>
    have hc := h c List.mem_cons_self
    simp [pieces, hc, ih fun d hd => h d (List.mem_cons_of_mem _ hd)]

theorem pieces_intercalate {p : Char → Bool} {mark : Char} (hmark : p mark = true)
    {texts : List (List Char)} (hne : texts ≠ []) (h : ∀ t ∈ texts, ∀ c ∈ t, p c = false) :
    pieces p ([mark].intercalate texts) = texts := by
  induction texts with
  | nil => exact absurd rfl hne
  | cons t rest ih =>
    have ht := h t List.mem_cons_self
    cases rest with
    | nil => simpa using pieces_self ht
    | cons u rest =>
      rw [List.intercalate_cons_cons, List.append_assoc, List.singleton_append,
        pieces_append ht hmark,
        ih (List.cons_ne_nil _ _) fun v hv => h v (List.mem_cons_of_mem _ hv)]

theorem length_le_countP_intercalate {p : Char → Bool} {mark : Char} (hmark : p mark = true)
    (texts : List (List Char)) : texts.length ≤ ([mark].intercalate texts).countP p + 1 := by
  induction texts with
  | nil => simp
  | cons t rest ih =>
    cases rest with
    | nil => simp
    | cons u rest =>
      rw [List.intercalate_cons_cons]
      rw [List.length_cons]
      simp only [List.countP_append, List.countP_singleton, hmark, if_true]
      omega

/-- Where there are as many pieces as texts were joined, no separator was in any of them. -/
theorem countP_eq_zero_of_intercalate {p : Char → Bool} {mark : Char} (hmark : p mark = true)
    {texts : List (List Char)} (h : ([mark].intercalate texts).countP p + 1 = texts.length) :
    ∀ t ∈ texts, t.countP p = 0 := by
  induction texts with
  | nil => simp
  | cons t rest ih =>
    cases rest with
    | nil => simpa using h
    | cons u rest =>
      have hrest := length_le_countP_intercalate hmark (u :: rest)
      rw [List.intercalate_cons_cons] at h
      simp only [List.countP_append, List.countP_singleton, hmark, if_true] at h
      rw [List.length_cons] at h
      intro v hv
      rcases List.mem_cons.mp hv with rfl | hv
      · omega
      · exact ih (by omega) v hv

theorem mem_pieces {p : Char → Bool} {cs piece : List Char} (h : piece ∈ pieces p cs) :
    ∀ c ∈ piece, p c = false := by
  induction cs generalizing piece with
  | nil =>
    obtain rfl := List.mem_singleton.mp h
    exact fun c hc => (nomatch hc)
  | cons d cs ih =>
    unfold pieces at h
    split at h
    · rcases List.mem_cons.mp h with rfl | h
      · exact fun c hc => (nomatch hc)
      · exact ih h
    · rename_i hd
      have hd : p d = false := by simpa using hd
      split at h
      · rw [List.mem_singleton.mp h]
        simpa using hd
      · rename_i first rest hpieces
        rw [hpieces] at ih
        rcases List.mem_cons.mp h with rfl | h
        · intro c hc
          rcases List.mem_cons.mp hc with rfl | hc
          · exact hd
          · exact ih List.mem_cons_self c hc
        · exact ih (List.mem_cons_of_mem first h)

theorem afterLast_eq_self_iff {separator : Char} {s : String} :
    afterLast separator s = s ↔ separator ∉ s.toList := by
  unfold afterLast split
  constructor
  · intro h hm
    have hne := pieces_ne_nil (· = separator) s.toList
    rw [List.getLast?_map, List.getLast?_eq_some_getLast hne, Option.map_some,
      Option.getD_some] at h
    have hlast := List.getLast_mem hne
    rw [← String.toList_inj, String.toList_ofList] at h
    rw [h] at hlast
    simpa using mem_pieces hlast separator hm
  · intro h
    have hself : pieces (· = separator) s.toList = [s.toList] := by
      refine pieces_self fun c hc => ?_
      rw [decide_eq_false_iff_not]
      rintro rfl
      exact h hc
    simp [hself]

theorem beforeFirst?_some {mark cs front : List Char} (h : beforeFirst? mark cs = some front) :
    ∃ back, cs = front ++ mark ++ back := by
  induction cs generalizing front with
  | nil =>
    rw [beforeFirst?] at h
    split at h
    · rename_i hmark
      cases h
      exact ⟨[], by simp [hmark]⟩
    · cases h
  | cons c cs ih =>
    rw [beforeFirst?] at h
    split at h
    · rename_i hhere
      cases h
      obtain ⟨back, hback⟩ := List.isPrefixOf_iff_prefix.mp hhere
      exact ⟨back, hback.symm⟩
    · obtain ⟨front, hfront, rfl⟩ := Option.map_eq_some_iff.mp h
      obtain ⟨back, hback⟩ := ih hfront
      exact ⟨back, by rw [hback]; rfl⟩

theorem beforeFirst?_eq_none {mark cs : List Char} (h : beforeFirst? mark cs = none) :
    ¬ mark <:+: cs := by
  induction cs with
  | nil =>
    rw [beforeFirst?] at h
    split at h
    · cases h
    · rename_i hmark
      rwa [List.infix_nil]
  | cons c cs ih =>
    rw [beforeFirst?] at h
    split at h
    · cases h
    · rename_i hhere
      rw [List.infix_cons_iff, ← List.isPrefixOf_iff_prefix]
      rw [Option.map_eq_none_iff] at h
      exact not_or.mpr ⟨hhere, ih h⟩

/-- A mark of two characters is first found where it was put. -/
theorem beforeFirst?_append {a b : Char} (hne : a ≠ b) {front : List Char}
    (h : ¬ [a, b] <:+: front) (back : List Char) :
    beforeFirst? [a, b] (front ++ a :: b :: back) = some front := by
  induction front with
  | nil => simp [beforeFirst?]
  | cons c front ih =>
    rw [List.infix_cons_iff, not_or] at h
    have hhere : ¬ [a, b].isPrefixOf (c :: (front ++ a :: b :: back)) := by
      rw [List.isPrefixOf_iff_prefix, List.cons_prefix_cons]
      rintro ⟨rfl, hnext⟩
      cases front with
      | nil =>
        have hb : b = a := by simpa using hnext
        exact hne hb.symm
      | cons d front =>
        have hd : b = d := by simpa using hnext
        exact h.1 (by simp [hd])
    rw [List.cons_append, beforeFirst?, if_neg hhere, ih h.2]
    rfl

end EntityCache.Text
