import EntityCache.Proofs.NumberTexts
import EntityCache.Proofs.References

/-! Being the same is an equivalence of values. An integer comes between two doubles only if
these have one pattern of bits, and a double between two integers only if it converts to both. -/
namespace EntityCache

namespace Binary64

variable {x y : Binary64}

theorem truncate_of_isZero (h : x.isZero) : x.truncate = 0 := by
  have hm : x.magnitude = 0 := by simpa [isZero] using h
  have hratio : x.ratio.1 = 0 := by simp [ratio, significand, exponentField, hm]
  simp [truncate, hratio]

theorem toInt64_congr (h : x.comparisonBits = y.comparisonBits) : x.toInt64 = y.toInt64 := by
  have hzero : ∀ {z : Binary64}, z.isZero → z.toInt64 = Number.clampInt64 0 := by
    intro z hz
    have hinf : z.isInfinite = false := by
      have hm : z.magnitude = 0 := by simpa [isZero] using hz
      rw [isInfinite, hm]
      decide
    rw [toInt64, isNaN_of_isZero hz, hinf, truncate_of_isZero hz]
    rfl
  rcases comparisonBits_eq_iff.mp h with rfl | ⟨hx, hy⟩ | ⟨hx, hy⟩
  · rfl
  · rw [toInt64, if_pos hx, toInt64, if_pos hy]
  · rw [hzero hx, hzero hy]

theorem sameAsInt_iff {i : Int64} : x.sameAsInt i ↔
    (ofInt i.toInt).comparisonBits = x.comparisonBits ∧ x.toInt64 = i := by
  simp [sameAsInt]

end Binary64

namespace Value

mutual

theorem same_comm : (v w : Value) → v.same w = w.same v
  | .list vs, w => by
    cases w with
    | list ws =>
      simp only [same]
      exact sameItems_comm vs ws
    | _ => rfl
  | .null, w | .boolean _, w | .integer _, w | .float _, w | .text _, w | .duration _, w
  | .binary _, w | .guid _, w | .dateTime _, w | .dateTimeOffset _ _, w => by
    cases w <;> simp [same, Bool.beq_comm]

theorem sameItems_comm : (vs ws : List Value) → sameItems vs ws = sameItems ws vs
  | [], [] => rfl
  | [], _ :: _ => rfl
  | _ :: _, [] => rfl
  | v :: vs, w :: ws => by
    simp only [sameItems]
    rw [same_comm v w, sameItems_comm vs ws]

end

theorem same_float_of_integer {x y : Binary64} {i : Int64} (h : x.sameAsInt i)
    (k : x.comparisonBits = y.comparisonBits) : y.sameAsInt i := by
  obtain ⟨hbits, hint⟩ := Binary64.sameAsInt_iff.mp h
  exact Binary64.sameAsInt_iff.mpr ⟨hbits.trans k, (Binary64.toInt64_congr k).symm.trans hint⟩

theorem same_trans_integer {i : Int64} {v w : Value} (h : (integer i).same v)
    (k : v.same w) : (integer i).same w := by
  cases v with
  | integer j =>
    obtain rfl : i = j := by simpa [same] using h
    exact k
  | float x =>
    have hx : x.sameAsInt i := by simpa [same] using h
    cases w with
    | integer j =>
      have hj : x.sameAsInt j := by simpa [same] using k
      have hij : i = j := (Binary64.sameAsInt_iff.mp hx).2.symm.trans
        (Binary64.sameAsInt_iff.mp hj).2
      simp [same, hij]
    | float y =>
      have hxy : x.comparisonBits = y.comparisonBits := by simpa [same] using k
      simpa [same] using same_float_of_integer hx hxy
    | _ => simp [same] at k
  | _ => simp [same] at h

theorem same_trans_float {x : Binary64} {v w : Value} (h : (float x).same v)
    (k : v.same w) : (float x).same w := by
  cases v with
  | integer i =>
    have hx : x.sameAsInt i := by simpa [same] using h
    cases w with
    | integer j =>
      obtain rfl : i = j := by simpa [same] using k
      exact h
    | float y =>
      have hy : y.sameAsInt i := by simpa [same] using k
      have hxy : x.comparisonBits = y.comparisonBits :=
        (Binary64.sameAsInt_iff.mp hx).1.symm.trans (Binary64.sameAsInt_iff.mp hy).1
      simp [same, hxy]
    | _ => simp [same] at k
  | float y =>
    have hxy : x.comparisonBits = y.comparisonBits := by simpa [same] using h
    cases w with
    | integer i =>
      have hy : y.sameAsInt i := by simpa [same] using k
      simpa [same] using same_float_of_integer hy hxy.symm
    | float z =>
      have hyz : y.comparisonBits = z.comparisonBits := by simpa [same] using k
      simp [same, hxy, hyz]
    | _ => simp [same] at k
  | _ => simp [same] at h

def instant? : Value → Option Instant
  | dateTime t | dateTimeOffset t _ => some t
  | _ => none

theorem same_of_instant {u v : Value} {t : Instant} (h : u.instant? = some t) :
    u.same v ↔ ∃ t', v.instant? = some t' ∧ t.epochMillis = t'.epochMillis := by
  cases u <;> cases v <;> simp_all [instant?, same]

mutual

theorem same_trans : (u : Value) → {v w : Value} → u.same v → v.same w → u.same w
  | .list us, v, w, h, k => by
    cases v with
    | list vs =>
      cases w with
      | list ws =>
        simp only [same] at h k ⊢
        exact sameItems_trans us h k
      | _ => simp [same] at k
    | _ => simp [same] at h
  | .integer _, _, _, h, k => same_trans_integer h k
  | .float _, _, _, h, k => same_trans_float h k
  | .dateTime t, v, w, h, k | .dateTimeOffset t _, v, w, h, k => by
    obtain ⟨t', hv, htv⟩ := (same_of_instant (t := t) rfl).mp h
    obtain ⟨t'', hw, hvw⟩ := (same_of_instant hv).mp k
    exact (same_of_instant (t := t) rfl).mpr ⟨t'', hw, htv.trans hvw⟩
  | .null, v, _, h, k | .boolean _, v, _, h, k | .text _, v, _, h, k | .duration _, v, _, h, k
  | .binary _, v, _, h, k | .guid _, v, _, h, k => by
    cases v <;> simp only [same, beq_iff_eq, Bool.false_eq_true] at h
    all_goals first | exact k | exact h ▸ k

theorem sameItems_trans : (us : List Value) → {vs ws : List Value} → sameItems us vs →
    sameItems vs ws → sameItems us ws
  | [], [], _, _, k => k
  | [], _ :: _, _, h, _ => by simp [sameItems] at h
  | _ :: _, [], _, h, _ => by simp [sameItems] at h
  | _ :: _, _ :: _, [], _, k => by simp [sameItems] at k
  | u :: us, v :: vs, w :: ws, h, k => by
    simp only [sameItems, Bool.and_eq_true] at h k ⊢
    exact ⟨same_trans u h.1 k.1, sameItems_trans us h.2 k.2⟩

end

theorem same_symm {v w : Value} (h : v.same w) : w.same v := by rwa [same_comm]

end Value

end EntityCache
