import EntityCache.Proofs.IntegerKeys
import EntityCache.Proofs.KeyTexts
import EntityCache.Proofs.WholeNumbers
import EntityCache.Tracking.TempKeys

/-! Drawing temporary keys. A generator gives no text out twice for one data type, as long as
its supply does not repeat itself and the numbers have not reached the end of what a double
counts exactly; and what it has given out reads the same in a key. -/
namespace EntityCache

/-- Of so many identifiers none is repeated, and the clock keeps to the years in which instants
are cut to the millisecond. -/
structure Supply.Distinct (s : Supply) (n : Nat) : Prop where
  fresh : ∀ i < n, ∀ j < n, s.fresh i = s.fresh j → i = j
  clock : ∀ i < n, Number.FitsInt64 (s.clock i).epochNanos

theorem Supply.Distinct.mono {s : Supply} {m n : Nat} (h : s.Distinct n) (hmn : m ≤ n) :
    s.Distinct m :=
  ⟨fun i hi j hj => h.fresh i (by omega) j (by omega), fun i hi => h.clock i (by omega)⟩

namespace Instant

variable {t a b : Instant}

/-- Without a fraction of a millisecond, and no leap second. -/
def Whole (t : Instant) : Prop := t.nanos < 1000000000 ∧ t.nanos % 1000000 = 0

theorem whole_truncateToMillis (h : Number.FitsInt64 t.epochNanos) : t.truncateToMillis.Whole := by
  rw [truncateToMillis, if_pos h]
  have hrest : (t.epochMillis % 1000).toNat < 1000 := by omega
  refine ⟨?_, Nat.mul_mod_left _ _⟩
  change (t.epochMillis % 1000).toNat * 1000000 < 1000000000
  omega

theorem nextMillis_eq (t : Instant) : t.nextMillis =
    if t.nanos + 1000000 < 1000000000 then ⟨t.seconds, t.nanos + 1000000⟩
    else ⟨t.seconds + 1, t.nanos + 1000000 - 1000000000⟩ := rfl

theorem whole_nextMillis (h : t.Whole) : t.nextMillis.Whole := by
  obtain ⟨hlt, hmod⟩ := h
  rw [nextMillis_eq]
  by_cases hn : t.nanos + 1000000 < 1000000000
  · rw [if_pos hn]
    refine ⟨hn, ?_⟩
    change (t.nanos + 1000000) % 1000000 = 0
    omega
  · rw [if_neg hn]
    constructor
    · change t.nanos + 1000000 - 1000000000 < 1000000000
      omega
    · change (t.nanos + 1000000 - 1000000000) % 1000000 = 0
      omega

theorem epochMillis_nextMillis (h : t.Whole) : t.nextMillis.epochMillis = t.epochMillis + 1 := by
  obtain ⟨hlt, hmod⟩ := h
  rw [nextMillis_eq, epochMillis]
  by_cases hn : t.nanos + 1000000 < 1000000000
  · have hdiv : (t.nanos + 1000000) / 1000000 = t.nanos / 1000000 + 1 :=
      Nat.add_div_right _ (by decide)
    rw [if_pos hn]
    change t.seconds * 1000 + ((t.nanos + 1000000 : Nat) : Int) / 1000000 =
      t.seconds * 1000 + t.nanos / 1000000 + 1
    omega
  · rw [if_neg hn]
    change (t.seconds + 1) * 1000 + ((t.nanos + 1000000 - 1000000000 : Nat) : Int) / 1000000 =
      t.seconds * 1000 + t.nanos / 1000000 + 1
    omega

theorem epochMillis_lt (ha : a.Whole) (hb : b.Whole) (h : ¬ a.le b) :
    b.epochMillis < a.epochMillis := by
  obtain ⟨ha, ha'⟩ := ha
  obtain ⟨hb, hb'⟩ := hb
  simp only [le, Bool.or_eq_true, Bool.and_eq_true, decide_eq_true_eq, beq_iff_eq] at h
  rw [epochMillis, epochMillis]
  omega

end Instant

namespace TempKeys

variable {g g' : TempKeys} {s : Supply} {d : DataType} {v : Value} {name text : String} {n : Nat}

/-- The texts that have been given out so far as keys of a data type. -/
def Spent (g : TempKeys) (d : DataType) (text : String) : Prop :=
  match d with
  | .string | .guid => ∃ i < g.drawn, text = (g.supply.fresh i).text
  | .dateTime => ∃ last, g.lastInstant = some last ∧ ∃ ms ≤ last.epochMillis, text = ms.repr
  | _ => ∃ i : Int, g.nextNumber.toInt < i ∧ text = i.repr

structure Counted (n : Nat) (g : TempKeys) : Prop where
  number : -(n + 1 : Int) ≤ g.nextNumber.toInt
  negative : g.nextNumber.toInt < 0

theorem counted_start (s : Supply) (k n : Nat) : (start s k).Counted n := by
  have hfirst : (start s k).nextNumber.toInt = -1 := rfl
  exact ⟨by omega, by omega⟩

theorem Counted.mono {m : Nat} (h : g.Counted m) (hmn : m ≤ n) : g.Counted n := by
  have hnumber := h.number
  exact ⟨by omega, h.negative⟩

theorem Counted.toInt_next (h : g.Counted n) (hn : n < 2 ^ 63 - 1) :
    (g.nextNumber - 1).toInt = g.nextNumber.toInt - 1 := by
  have hnumber := h.number
  have hlt := g.nextNumber.toInt_lt
  have hone : (1 : Int64).toInt = 1 := by decide
  rw [Int64.toInt_sub, hone]
  apply Int.bmod_eq_of_le <;> omega

theorem Counted.drawNumber (h : g.Counted n) (hn : n < 2 ^ 63 - 1) :
    g.drawNumber.2.Counted (n + 1) := by
  have hnext : g.drawNumber.2.nextNumber.toInt = g.nextNumber.toInt - 1 := h.toInt_next hn
  have hnumber := h.number
  have hnegative := h.negative
  exact ⟨by omega, by omega⟩

/-- A generator with this supply that has drawn from it at most so often, and at most so many
numbers since it started over. -/
structure Drawn (s : Supply) (n : Nat) (g : TempKeys) : Prop extends g.Counted n where
  supply : g.supply = s
  drawn : g.drawn ≤ n
  instant : ∀ last, g.lastInstant = some last → last.Whole

theorem drawn_start (s : Supply) {k n : Nat} (hk : k ≤ n) : (start s k).Drawn s n :=
  ⟨counted_start s k n, rfl, hk, fun last h => by cases h⟩

theorem Drawn.mono {m : Nat} (h : g.Drawn s m) (hmn : m ≤ n) : g.Drawn s n :=
  ⟨h.toCounted.mono hmn, h.supply, h.drawn.trans hmn, h.instant⟩

/-- What comes of a generator that draws a key of a type: an unspent text is spent. -/
structure Draws (s : Supply) (n : Nat) (g : TempKeys) (d : DataType) (v : Value)
    (g' : TempKeys) : Prop where
  drawn : g'.Drawn s (n + 1)
  unspent : ¬ g.Spent d v.keyText
  spent : g'.Spent d v.keyText
  mono : ∀ {d' text}, g.Spent d' text → g'.Spent d' text

theorem Drawn.drawNumber (h : g.Drawn s n) (hn : n < 2 ^ 63 - 1) :
    let g' := g.drawNumber.2
    g'.Drawn s (n + 1) ∧ g'.nextNumber.toInt = g.nextNumber.toInt - 1 ∧
      ∀ {d text}, g.Spent d text → g'.Spent d text := by
  have hnext := h.toInt_next hn
  refine ⟨⟨h.toCounted.drawNumber hn, h.supply, Nat.le_succ_of_le h.drawn, h.instant⟩, hnext,
    fun {d text} hspent => ?_⟩
  cases d with
  | string | guid | dateTime => exact hspent
  | _ =>
    obtain ⟨i, hi, rfl⟩ := hspent
    exact ⟨i, by change (g.nextNumber - 1).toInt < i; omega, rfl⟩

theorem Drawn.drawGuid (h : g.Drawn s n) (hs : s.Distinct (n + 1)) :
    let g' := g.drawGuid.2
    let text := g.drawGuid.1.text
    g'.Drawn s (n + 1) ∧ (¬ ∃ i < g.drawn, text = (g.supply.fresh i).text) ∧
      (∃ i < g'.drawn, text = (g'.supply.fresh i).text) ∧
      ∀ {d text}, g.Spent d text → g'.Spent d text := by
  have hdrawn := h.drawn
  refine ⟨⟨⟨(h.mono (Nat.le_succ n)).number, h.negative⟩, h.supply, Nat.succ_le_succ h.drawn,
    h.instant⟩, ?_, ⟨g.drawn, Nat.lt_succ_self _, rfl⟩, fun {d text} hspent => ?_⟩
  · rintro ⟨i, hi, htext⟩
    have hsame : g.supply.fresh g.drawn = g.supply.fresh i := Guid.text_inj.mp htext
    rw [h.supply] at hsame
    exact Nat.ne_of_gt hi (hs.fresh _ (by omega) _ (by omega) hsame)
  · cases d with
    | string | guid =>
      obtain ⟨i, hi, rfl⟩ := hspent
      exact ⟨i, Nat.lt_succ_of_lt hi, rfl⟩
    | _ => exact hspent

/-- The next timestamp is the clock's, where this is later than the last one, and else the one
after the last one. -/
theorem drawInstant_cases (g : TempKeys) :
    (g.drawInstant.1 = (g.supply.clock g.drawn).truncateToMillis ∧
      ∀ last, g.lastInstant = some last → ¬ g.drawInstant.1.le last) ∨
    ∃ last, g.lastInstant = some last ∧ g.drawInstant.1 = last.nextMillis := by
  unfold drawInstant
  cases hlast : g.lastInstant with
  | none => exact Or.inl ⟨rfl, fun last hl => by cases hl⟩
  | some last =>
    dsimp only
    split
    · exact Or.inr ⟨last, rfl, rfl⟩
    · rename_i hlater
      exact Or.inl ⟨rfl, fun other ho => by cases ho; exact hlater⟩

/-- The next timestamp is without a fraction of a millisecond, and it is later than the last. -/
theorem drawInstant_later (hclock : Number.FitsInt64 (g.supply.clock g.drawn).epochNanos)
    (hlast : ∀ last, g.lastInstant = some last → last.Whole) :
    g.drawInstant.1.Whole ∧
      ∀ last, g.lastInstant = some last → last.epochMillis < g.drawInstant.1.epochMillis := by
  rcases g.drawInstant_cases with ⟨hnow, hlater⟩ | ⟨last, hl, hnext⟩
  · have hwhole : g.drawInstant.1.Whole := hnow ▸ Instant.whole_truncateToMillis hclock
    exact ⟨hwhole, fun last hl => Instant.epochMillis_lt hwhole (hlast last hl) (hlater last hl)⟩
  · rw [hnext]
    refine ⟨Instant.whole_nextMillis (hlast last hl), fun other ho => ?_⟩
    obtain rfl : last = other := Option.some.inj (hl.symm.trans ho)
    rw [Instant.epochMillis_nextMillis (hlast last hl)]
    omega

theorem Drawn.drawInstant (h : g.Drawn s n) (hs : s.Distinct (n + 1)) :
    let g' := g.drawInstant.2
    let t := g.drawInstant.1
    g'.Drawn s (n + 1) ∧ g'.lastInstant = some t ∧
      (∀ last, g.lastInstant = some last → last.epochMillis < t.epochMillis) ∧
      ∀ {d text}, g.Spent d text → g'.Spent d text := by
  have hnext := drawInstant_later
    (by rw [h.supply]; exact hs.clock _ (Nat.lt_succ_of_le h.drawn)) h.instant
  refine ⟨⟨⟨(h.mono (Nat.le_succ n)).number, h.negative⟩, h.supply, Nat.succ_le_succ h.drawn,
    fun last hl => ?_⟩, rfl, hnext.2, fun {d text} hspent => ?_⟩
  · cases hl
    exact hnext.1
  · cases d with
    | string | guid =>
      obtain ⟨i, hi, rfl⟩ := hspent
      exact ⟨i, Nat.lt_succ_of_lt hi, rfl⟩
    | dateTime =>
      obtain ⟨last, hl, ms, hms, rfl⟩ := hspent
      exact ⟨_, rfl, ms, hms.trans (hnext.2 last hl).le, rfl⟩
    | _ => exact hspent

theorem Drawn.draw? (h : g.Drawn s n) (hs : s.Distinct (n + 1)) (hn : n < 2 ^ 63 - 1)
    (hd : g.draw? d = some (v, g')) : Draws s n g d v g' := by
  have hnumber : ∀ {d}, (∀ g : TempKeys, ∀ text, g.Spent d text ↔
      ∃ i : Int, g.nextNumber.toInt < i ∧ text = i.repr) →
      Draws s n g d (.integer g.drawNumber.1) g.drawNumber.2 := by
    intro d hiff
    obtain ⟨hdrawn, hnext, hmono⟩ := h.drawNumber hn
    refine ⟨hdrawn, fun hspent => ?_, (hiff _ _).mpr ⟨g.nextNumber.toInt, ?_, ?_⟩, hmono⟩
    · obtain ⟨i, hi, htext⟩ := (hiff _ _).mp hspent
      rw [Value.keyText_integer, Int.repr_inj] at htext
      exact hi.ne htext
    · omega
    · exact Value.keyText_integer _
  obtain ⟨hdrawn, hfresh, hspent, hmono⟩ := h.drawGuid hs
  cases d with
  | int16 | int32 | int64 | byte | decimal | double | single =>
    cases hd
    exact hnumber fun _ _ => Iff.rfl
  | string => cases hd; exact ⟨hdrawn, hfresh, hspent, hmono⟩
  | guid => cases hd; exact ⟨hdrawn, hfresh, hspent, hmono⟩
  | dateTime =>
    cases hd
    obtain ⟨hdrawn, hlast, hlater, hmono⟩ := h.drawInstant hs
    have htext : (Value.dateTime g.drawInstant.1).keyText = g.drawInstant.1.epochMillis.repr := by
      rw [Value.keyText, Int.toString_eq_repr]
    refine ⟨hdrawn, ?_, ⟨_, hlast, _, le_refl _, htext⟩, hmono⟩
    rintro ⟨last, hl, ms, hms, hsame⟩
    have heq : g.drawInstant.1.epochMillis = ms := Int.repr_inj.mp (htext.symm.trans hsame)
    exact absurd (hlater last hl) (by omega)
  | boolean | dateTimeOffset | time | binary | undefined => cases hd

/-- In a key, a text that has been given out reads as it did. -/
theorem Drawn.keyText_coerce (h : g.Drawn s n) (hn : n < 2 ^ 53 - 1)
    (hd : g.draw? d = some (v, g')) : (d.coerce v).keyText = v.keyText := by
  have hnumber := h.number
  have hnegative := h.negative
  cases d with
  | int16 | int32 | int64 | byte => cases hd; rfl
  | decimal | double | single =>
    cases hd
    rw [Value.keyText_integer, DataType.coerce_of_isFloat rfl]
    exact Binary64.text_ofInt (i := g.nextNumber.toInt) (by omega)
  | string | guid | dateTime => cases hd; rfl
  | boolean | dateTimeOffset | time | binary | undefined => cases hd

section Issued

theorem issued_draw? (hd : g.draw? d = some (v, g')) : g'.issued = g.issued := by
  cases d <;> cases hd <;> rfl

@[simp] theorem mem_issued_remember (g : TempKeys) (name : String) (v : Value)
    (x : String × String) :
    x ∈ (g.remember name v).issued ↔ x ∈ g.issued ∨ x = (name, v.keyText) := by
  unfold remember isIssued
  split
  · rename_i hissued
    constructor
    · exact Or.inl
    · rintro (hx | rfl)
      · exact hx
      · simpa using hissued
  · simp

@[simp] theorem mem_issued_release (g : TempKeys) (name : String) (v : Value)
    (x : String × String) :
    x ∈ (g.release name v).issued ↔ x ∈ g.issued ∧ x ≠ (name, v.keyText) := by
  simp [release]

/-- What is remembered and forgotten does not matter to drawing. -/
theorem Drawn.of_issued (h : g.Drawn s n) (issued : List (String × String)) :
    Drawn s n { g with issued } := ⟨⟨h.number, h.negative⟩, h.supply, h.drawn, h.instant⟩

theorem remember_eq (g : TempKeys) (name : String) (v : Value) :
    ∃ issued, g.remember name v = { g with issued } := by
  unfold remember
  split
  · exact ⟨g.issued, rfl⟩
  · exact ⟨_, rfl⟩

theorem spent_issued (g : TempKeys) (issued : List (String × String)) (d : DataType)
    (text : String) : Spent { g with issued } d text ↔ g.Spent d text := by
  cases d <;> rfl

theorem mem_issued_generate? (h : g.generate? name d = some (v, g')) (x : String × String) :
    x ∈ g'.issued ↔ x ∈ g.issued ∨ x = (name, v.keyText) := by
  obtain ⟨⟨w, drawn⟩, hdraw, hpair⟩ := Option.map_eq_some_iff.mp h
  cases hpair
  rw [mem_issued_remember, issued_draw? hdraw]

theorem issued_generate?_iff (h : g.generate? name d = some (v, g')) :
    (∀ entry, entry ∈ g'.issued ↔ entry ∈ g.issued) ↔ (name, v.keyText) ∈ g.issued := by
  simp only [mem_issued_generate? h]
  constructor
  · exact fun hsame => (hsame _).mp (Or.inr rfl)
  · intro hissued entry
    refine ⟨fun hentry => ?_, Or.inl⟩
    rcases hentry with hentry | rfl
    · exact hentry
    · exact hissued

/-- Issuing a key and releasing it changes nothing just where it has not been issued before. -/
theorem issued_release_generate?_iff (h : g.generate? name d = some (v, g')) :
    (∀ entry, entry ∈ (g'.release name v).issued ↔ entry ∈ g.issued) ↔
      (name, v.keyText) ∉ g.issued := by
  simp only [mem_issued_release, mem_issued_generate? h]
  constructor
  · exact fun hsame hissued => ((hsame _).mpr hissued).2 rfl
  · intro hfresh entry
    constructor
    · rintro ⟨hentry | heq, hne⟩
      · exact hentry
      · exact absurd heq hne
    · exact fun hentry => ⟨Or.inl hentry, fun heq => hfresh (heq ▸ hentry)⟩

theorem Drawn.generate? (h : g.Drawn s n) (hs : s.Distinct (n + 1)) (hn : n < 2 ^ 53 - 1)
    (hd : g.generate? name d = some (v, g')) :
    Draws s n g d v g' ∧ (d.coerce v).keyText = v.keyText ∧
      ∀ x, x ∈ g'.issued ↔ x ∈ g.issued ∨ x = (name, v.keyText) := by
  obtain ⟨⟨w, drawn⟩, hdraw, hpair⟩ := Option.map_eq_some_iff.mp hd
  cases hpair
  have hdraws := h.draw? hs (by omega) hdraw
  refine ⟨?_, h.keyText_coerce hn hdraw, mem_issued_generate? hd⟩
  obtain ⟨issued, hremember⟩ := remember_eq drawn name v
  rw [hremember]
  refine ⟨hdraws.drawn.of_issued issued, hdraws.unspent, ?_, fun hspent => ?_⟩
  · exact (spent_issued drawn issued d _).mpr hdraws.spent
  · exact (spent_issued drawn issued _ _).mpr (hdraws.mono hspent)

/-- The next number is drawn where the keys are integers, and else stays the next one or is
drawn as well. -/
theorem Counted.generate? (h : g.Counted n) (hn : n < 2 ^ 63 - 1)
    (hd : g.generate? name d = some (v, g')) :
    g'.Counted (n + 1) ∧ g'.nextNumber.toInt ≤ g.nextNumber.toInt ∧
      (d.isInteger → v = .integer g.nextNumber ∧
        g'.nextNumber.toInt = g.nextNumber.toInt - 1) := by
  obtain ⟨⟨w, drawn⟩, hdraw, hpair⟩ := Option.map_eq_some_iff.mp hd
  cases hpair
  have hnext : g.drawNumber.2.nextNumber.toInt = g.nextNumber.toInt - 1 := h.toInt_next hn
  obtain ⟨issued, hremember⟩ := remember_eq drawn name v
  rw [hremember]
  cases d with
  | int16 | int32 | int64 | byte | decimal | double | single =>
    cases hdraw
    have hcounted := h.drawNumber hn
    have hle : g.drawNumber.2.nextNumber.toInt ≤ g.nextNumber.toInt := by omega
    exact ⟨⟨hcounted.number, hcounted.negative⟩, hle, fun _ => ⟨rfl, hnext⟩⟩
  | string | guid | dateTime =>
    cases hdraw
    have hlater := h.mono (Nat.le_succ n)
    exact ⟨⟨hlater.number, hlater.negative⟩, Int.le_refl _, fun hinteger => by cases hinteger⟩
  | boolean | dateTimeOffset | time | binary | undefined => cases hdraw

end Issued

end TempKeys

end EntityCache
