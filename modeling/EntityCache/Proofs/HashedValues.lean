import EntityCache.Proofs.ValueEquality

/-! Being the same is fit for hashing: it is an equivalence, and values that are the same feed
a hash the same words, whatever kinds of values are mixed and however deep lists nest. -/
namespace EntityCache.Value

section Feeds

theorem numberFeed_congr {x y : Binary64} (h : x.comparisonBits = y.comparisonBits) :
    numberFeed x = numberFeed y := by rw [numberFeed, numberFeed, h]

theorem hashFeed_of_instant {v : Value} {t : Instant} (h : v.instant? = some t) :
    v.hashFeed = [.tag 3, .number t.epochMillis] := by
  cases v with
  | dateTime | dateTimeOffset =>
    cases h
    rfl
  | _ => cases h

theorem sameItems_length {vs ws : List Value} (h : sameItems vs ws) : vs.length = ws.length := by
  induction vs generalizing ws with
  | nil =>
    cases ws with
    | nil => rfl
    | cons w ws => simp [sameItems] at h
  | cons v vs ih =>
    cases ws with
    | nil => simp [sameItems] at h
    | cons w ws =>
      simp only [sameItems, Bool.and_eq_true] at h
      rw [List.length_cons, List.length_cons, ih h.2]

mutual

theorem hashFeed_congr : (v : Value) → {w : Value} → v.same w → v.hashFeed = w.hashFeed
  | .list vs, w, h => by
    cases w with
    | list ws =>
      simp only [same] at h
      simp only [hashFeed]
      rw [sameItems_length h, hashFeeds_congr vs h]
    | _ => simp [same] at h
  | .integer i, w, h => by
    cases w with
    | integer j =>
      obtain rfl : i = j := by simpa [same] using h
      rfl
    | float x =>
      have hx : x.sameAsInt i := by simpa [same] using h
      exact numberFeed_congr (Binary64.sameAsInt_iff.mp hx).1
    | _ => simp [same] at h
  | .float x, w, h => by
    cases w with
    | integer i =>
      have hx : x.sameAsInt i := by simpa [same] using h
      exact (numberFeed_congr (Binary64.sameAsInt_iff.mp hx).1).symm
    | float y => exact numberFeed_congr (by simpa [same] using h)
    | _ => simp [same] at h
  | .dateTime t, w, h | .dateTimeOffset t _, w, h => by
    obtain ⟨t', hw, hmillis⟩ := (same_of_instant (t := t) rfl).mp h
    rw [hashFeed_of_instant (t := t) rfl, hashFeed_of_instant hw, hmillis]
  | .null, w, h | .boolean _, w, h | .text _, w, h | .duration _, w, h | .binary _, w, h
  | .guid _, w, h => by
    cases w <;> simp only [same, beq_iff_eq, Bool.false_eq_true] at h
    all_goals first | rfl | rw [h]

theorem hashFeeds_congr : (vs : List Value) → {ws : List Value} → sameItems vs ws →
    hashFeeds vs = hashFeeds ws
  | [], [], _ => rfl
  | [], _ :: _, h => by simp [sameItems] at h
  | _ :: _, [], h => by simp [sameItems] at h
  | v :: vs, w :: ws, h => by
    simp only [sameItems, Bool.and_eq_true] at h
    simp only [hashFeeds]
    rw [hashFeed_congr v h.1, hashFeeds_congr vs h.2]

end

end Feeds

/-- Every value is the same as itself, the order and what lies between do not matter, and a
hash cannot tell values apart that are the same. -/
theorem same_lawful (a b c : Value) : a.same a ∧ (a.same b → b.same a) ∧
    (a.same b → b.same c → a.same c) ∧ (a.same b → a.hashFeed = b.hashFeed) :=
  ⟨same_self a, same_symm, same_trans a, hashFeed_congr a⟩

def wholeAndUtc : Value :=
  .list [.integer 7, .list [.dateTime ⟨60, 1500000⟩], .float Binary64.zero]

def doubleAndLocal : Value :=
  .list [.float (Binary64.ofInt 7), .list [.dateTimeOffset ⟨60, 1700000⟩ 120],
    .float Binary64.zero.negate]

def wholeZeroAndUtc : Value :=
  .list [.integer 7, .list [.dateTime ⟨60, 1000000⟩], .integer 0]

theorem mixtures_hashed_alike : wholeAndUtc.same doubleAndLocal ∧
    doubleAndLocal.same wholeZeroAndUtc ∧ doubleAndLocal.same wholeAndUtc ∧
      wholeAndUtc.same wholeZeroAndUtc ∧ wholeAndUtc.hashFeed = doubleAndLocal.hashFeed := by
  have hfirst : wholeAndUtc.same doubleAndLocal := by decide
  have hsecond : doubleAndLocal.same wholeZeroAndUtc := by decide +kernel
  obtain ⟨-, hsymm, htrans, hfeed⟩ := same_lawful wholeAndUtc doubleAndLocal wholeZeroAndUtc
  exact ⟨hfirst, hsecond, hsymm hfirst, htrans hfirst hsecond, hfeed hfirst⟩

end EntityCache.Value
