import EntityCache.Proofs.TempKeyDraws

/-! All that a generator of temporary keys gives out, whatever it is asked for and whatever its
clock shows. Numbers count down and timestamps rise from call to call, so that no key text
comes a second time, although the clock may stand still or be set back; and a key passes for
temporary until the last call about it is a release. -/
namespace EntityCache

def DataType.isGenerated (d : DataType) : Bool :=
  d.isNumeric || d = .string || d = .guid || d = .dateTime

inductive KeyCall where
  | generate (typeName : String) (d : DataType)
  | release (typeName : String) (v : Value)

inductive KeyEvent where
  | generated (typeName : String) (d : DataType) (v : Value)
  | declined (typeName : String) (d : DataType)
  | released (typeName : String) (v : Value)

namespace KeyEvent

def concerns (typeName text : String) : KeyEvent → Bool
  | generated name _ v => name = typeName && v.keyText = text
  | declined _ _ => false
  | released name v => name = typeName && v.keyText = text

def key? (kind : DataType → Bool) : KeyEvent → Option Value
  | generated _ d v => if kind d then some v else none
  | _ => none

def wasGenerated : KeyEvent → Bool
  | generated _ _ _ => true
  | _ => false

/-- A key is generated just where there are generated keys of the type. -/
inductive Answers : KeyCall → KeyEvent → Prop where
  | generated {name d v} : d.isGenerated → Answers (.generate name d) (.generated name d v)
  | declined {name d} : ¬ d.isGenerated → Answers (.generate name d) (.declined name d)
  | released {name v} : Answers (.release name v) (.released name v)

def keys (kind : DataType → Bool) (events : List KeyEvent) : List Value :=
  events.filterMap (key? kind)

def lastAbout? (typeName text : String) (events : List KeyEvent) : Option KeyEvent :=
  (events.filter (concerns typeName text)).getLast?

end KeyEvent

open KeyEvent

namespace Instant

def Before (a b : Instant) : Prop := a.le b ∧ ¬ b.le a

theorem before_of_epochMillis_lt {a b : Instant} (ha : a.Whole) (hb : b.Whole)
    (h : a.epochMillis < b.epochMillis) : a.Before b := by
  have hnot : ¬ b.le a := by
    obtain ⟨ha, -⟩ := ha
    obtain ⟨hb, -⟩ := hb
    simp only [le, Bool.or_eq_true, Bool.and_eq_true, decide_eq_true_eq, beq_iff_eq]
    rw [epochMillis, epochMillis] at h
    omega
  refine ⟨?_, hnot⟩
  simp only [le, Bool.or_eq_true, Bool.and_eq_true, decide_eq_true_eq, beq_iff_eq] at hnot ⊢
  omega

/-- The milliseconds of a clock whose nanoseconds fit 64 bits. -/
theorem epochMillis_bounds {t : Instant} (h : Number.FitsInt64 t.epochNanos) :
    -9223372036855 ≤ t.epochMillis ∧ t.epochMillis ≤ 9223372036854 := by
  have hmin : Int64.minValue.toInt = -9223372036854775808 := by decide
  have hmax : Int64.maxValue.toInt = 9223372036854775807 := by decide
  rw [Number.FitsInt64, hmin, hmax, epochNanos] at h
  rw [epochMillis]
  omega

theorem epochMillis_truncateToMillis {t : Instant} (h : Number.FitsInt64 t.epochNanos) :
    t.truncateToMillis.epochMillis = t.epochMillis := by
  rw [truncateToMillis, if_pos h]
  have hmillis : ((t.epochMillis % 1000).toNat * 1000000) / 1000000 =
      (t.epochMillis % 1000).toNat := Nat.mul_div_cancel _ (by decide)
  change t.epochMillis / 1000 * 1000 +
    (((t.epochMillis % 1000).toNat * 1000000 : Nat) : Int) / 1000000 = t.epochMillis
  omega

end Instant

namespace Value

def IsNegative (v : Value) : Prop := ∃ i : Int64, v = .integer i ∧ i < 0

def IsDated (v : Value) : Prop :=
  ∃ t, v = .dateTime t ∧ Instant.firstMillis ≤ t.epochMillis ∧ t.epochMillis ≤ Instant.lastMillis

def Precedes (v w : Value) : Prop := ∃ a b, v = .dateTime a ∧ w = .dateTime b ∧ a.Before b

end Value

namespace TempKeys

def respond (g : TempKeys) : KeyCall → KeyEvent × TempKeys
  | .generate name d =>
    match g.generate? name d with
    | some (v, g') => (.generated name d v, g')
    | none => (.declined name d, g)
  | .release name v => (.released name v, g.release name v)

def history (g : TempKeys) : List KeyCall → List KeyEvent
  | [] => []
  | call :: rest => (g.respond call).1 :: (g.respond call).2.history rest

def after (g : TempKeys) : List KeyCall → TempKeys
  | [] => g
  | call :: rest => (g.respond call).2.after rest

variable {g : TempKeys} {n : Nat} {name text : String} {calls : List KeyCall}

section Steps

/-- The four ways in which a request for a key can go. -/
theorem generate?_cases (g : TempKeys) (name : String) (d : DataType) :
    (d.isNumeric ∧ g.generate? name d =
      some (.integer g.nextNumber, g.drawNumber.2.remember name (.integer g.nextNumber))) ∨
    (d = .dateTime ∧ g.generate? name d =
      some (.dateTime g.drawInstant.1, g.drawInstant.2.remember name (.dateTime g.drawInstant.1))) ∨
    ((d = .string ∨ d = .guid) ∧ ∃ v, g.generate? name d = some (v, g.drawGuid.2.remember name v)) ∨
    (d.isGenerated = false ∧ g.generate? name d = none) := by
  cases d with
  | int16 | int32 | int64 | byte | decimal | double | single => exact Or.inl ⟨rfl, rfl⟩
  | dateTime => exact Or.inr (Or.inl ⟨rfl, rfl⟩)
  | string => exact Or.inr (Or.inr (Or.inl ⟨Or.inl rfl, _, rfl⟩))
  | guid => exact Or.inr (Or.inr (Or.inl ⟨Or.inr rfl, _, rfl⟩))
  | boolean | dateTimeOffset | time | binary | undefined =>
    exact Or.inr (Or.inr (Or.inr ⟨rfl, rfl⟩))

theorem remember_fields (g : TempKeys) (name : String) (v : Value) :
    (g.remember name v).supply = g.supply ∧ (g.remember name v).nextNumber = g.nextNumber ∧
      (g.remember name v).lastInstant = g.lastInstant := by
  obtain ⟨issued, h⟩ := g.remember_eq name v
  rw [h]
  exact ⟨rfl, rfl, rfl⟩

/-- A generator after so many calls: its clock shows times that can be cut to the millisecond,
and it has gone ahead of the clock by a millisecond for each call at most. -/
structure Timely (n : Nat) (g : TempKeys) : Prop extends g.Counted n where
  clock : ∀ i, Number.FitsInt64 (g.supply.clock i).epochNanos
  whole : ∀ last, g.lastInstant = some last → last.Whole
  -- The milliseconds of the first and the last nanosecond that 64 bits count.
  ahead : ∀ last, g.lastInstant = some last →
    -9223372036855 ≤ last.epochMillis ∧ last.epochMillis ≤ 9223372036854 + n

theorem timely_start {s : Supply} (hs : ∀ i, Number.FitsInt64 (s.clock i).epochNanos) (k : Nat) :
    (start s k).Timely 0 :=
  ⟨counted_start s k 0, hs, fun _ h => (nomatch h), fun _ h => (nomatch h)⟩

/-- What a call brings about: one more number, one more timestamp, or neither. -/
structure Responds (n : Nat) (g : TempKeys) (call : KeyCall) (e : KeyEvent) (g' : TempKeys) :
    Prop where
  timely : g'.Timely (n + 1)
  answers : Answers call e
  numbers : e.key? DataType.isNumeric = none ∧ g'.nextNumber = g.nextNumber ∨
    e.key? DataType.isNumeric = some (.integer g.nextNumber) ∧
      g'.nextNumber.toInt = g.nextNumber.toInt - 1
  instants : e.key? (· = .dateTime) = none ∧ g'.lastInstant = g.lastInstant ∨
    ∃ t, e.key? (· = .dateTime) = some (.dateTime t) ∧ g'.lastInstant = some t ∧
      ∀ last, g.lastInstant = some last → last.epochMillis < t.epochMillis

theorem Timely.succ (h : g.Timely n) : g.Timely (n + 1) := by
  refine ⟨h.toCounted.mono (Nat.le_succ n), h.clock, h.whole, fun last hlast => ?_⟩
  obtain ⟨hlow, hhigh⟩ := h.ahead last hlast
  exact ⟨hlow, by push_cast; omega⟩

theorem Timely.remember (h : g.Timely n) (name : String) (v : Value) :
    (g.remember name v).Timely n := by
  obtain ⟨hs, hnumber, hlast⟩ := g.remember_fields name v
  exact ⟨⟨hnumber ▸ h.number, hnumber ▸ h.negative⟩, hs ▸ h.clock, hlast ▸ h.whole,
    hlast ▸ h.ahead⟩

theorem Timely.drawNumber (h : g.Timely n) (hn : n < 2 ^ 40) :
    g.drawNumber.2.Timely (n + 1) ∧
      g.drawNumber.2.nextNumber.toInt = g.nextNumber.toInt - 1 :=
  ⟨⟨h.toCounted.drawNumber (by omega), h.clock, h.whole, h.succ.ahead⟩, h.toInt_next (by omega)⟩

theorem Timely.drawInstant (h : g.Timely n) : g.drawInstant.2.Timely (n + 1) ∧
    ∀ last, g.lastInstant = some last → last.epochMillis < g.drawInstant.1.epochMillis := by
  obtain ⟨hwhole, hlater⟩ := drawInstant_later (h.clock g.drawn) h.whole
  have hahead : -9223372036855 ≤ g.drawInstant.1.epochMillis ∧
      g.drawInstant.1.epochMillis ≤ 9223372036854 + (n + 1 : Nat) := by
    rcases g.drawInstant_cases with ⟨hnow, -⟩ | ⟨last, hl, hnext⟩
    · obtain ⟨hlow, hhigh⟩ := Instant.epochMillis_bounds (h.clock g.drawn)
      rw [hnow, Instant.epochMillis_truncateToMillis (h.clock g.drawn)]
      exact ⟨hlow, by omega⟩
    · obtain ⟨hlow, hhigh⟩ := h.ahead last hl
      rw [hnext, Instant.epochMillis_nextMillis (h.whole last hl)]
      exact ⟨by omega, by push_cast; omega⟩
  refine ⟨⟨⟨h.succ.number, h.negative⟩, h.clock, fun last hl => ?_, fun last hl => ?_⟩, hlater⟩
  · cases hl
    exact hwhole
  · cases hl
    exact hahead

theorem Timely.respond (h : g.Timely n) (hn : n < 2 ^ 40) (call : KeyCall) :
    Responds n g call (g.respond call).1 (g.respond call).2 := by
  cases call with
  | release name v =>
    exact ⟨⟨⟨h.succ.number, h.negative⟩, h.clock, h.whole, h.succ.ahead⟩, .released,
      Or.inl ⟨rfl, rfl⟩, Or.inl ⟨rfl, rfl⟩⟩
  | generate name d =>
    rcases g.generate?_cases name d with ⟨hd, he⟩ | ⟨rfl, he⟩ | ⟨hd, v, he⟩ | ⟨hd, he⟩
    · rw [TempKeys.respond, he]
      obtain ⟨htimely, hnext⟩ := h.drawNumber hn
      obtain ⟨-, hnumber, hlast⟩ := g.drawNumber.2.remember_fields name (.integer g.nextNumber)
      have hother : d ≠ .dateTime := by rintro rfl; cases hd
      exact ⟨htimely.remember name _, .generated (by simp [DataType.isGenerated, hd]),
        Or.inr ⟨if_pos hd, hnumber ▸ hnext⟩, Or.inl ⟨if_neg (by simpa using hother), hlast⟩⟩
    · rw [TempKeys.respond, he]
      obtain ⟨htimely, hlater⟩ := h.drawInstant
      obtain ⟨-, hnumber, hlast⟩ :=
        g.drawInstant.2.remember_fields name (.dateTime g.drawInstant.1)
      exact ⟨htimely.remember name _, .generated rfl, Or.inl ⟨rfl, hnumber⟩,
        Or.inr ⟨g.drawInstant.1, rfl, hlast, hlater⟩⟩
    · rw [TempKeys.respond, he]
      obtain ⟨-, hnumber, hlast⟩ := g.drawGuid.2.remember_fields name v
      have htimely : g.drawGuid.2.Timely (n + 1) :=
        ⟨⟨h.succ.number, h.negative⟩, h.clock, h.whole, h.succ.ahead⟩
      have hgenerated : d.isGenerated := by rcases hd with rfl | rfl <;> rfl
      have hkind : d.isNumeric = false ∧ d ≠ .dateTime := by rcases hd with rfl | rfl <;> decide
      exact ⟨htimely.remember name v, .generated hgenerated,
        Or.inl ⟨if_neg (by simp [hkind.1]), hnumber⟩,
        Or.inl ⟨if_neg (by simpa using hkind.2), hlast⟩⟩
    · rw [TempKeys.respond, he]
      exact ⟨h.succ, .declined (by simp [hd]), Or.inl ⟨rfl, rfl⟩, Or.inl ⟨rfl, rfl⟩⟩

/-- What a call is about it marks as issued or not; of all else it changes nothing. -/
theorem mem_issued_respond (g : TempKeys) (call : KeyCall) (name text : String) :
    (name, text) ∈ (g.respond call).2.issued ↔
      if (g.respond call).1.concerns name text then (g.respond call).1.wasGenerated = true
      else (name, text) ∈ g.issued := by
  have habout : ∀ (other : String) (v : Value),
      (name, text) = (other, v.keyText) ↔ (other = name && v.keyText = text) = true := by
    intro other v
    rw [Prod.mk.injEq, @eq_comm _ name, @eq_comm _ text]
    simp
  cases call with
  | release other v =>
    rw [respond, concerns, mem_issued_release, ne_eq, habout]
    split <;> simp_all [wasGenerated]
  | generate other d =>
    rw [respond]
    cases he : g.generate? other d with
    | none => simp [concerns]
    | some drawn =>
      obtain ⟨v, g'⟩ := drawn
      simp only [concerns, wasGenerated]
      rw [mem_issued_generate? he, habout]
      split <;> simp_all

end Steps

section Runs

/-- What a run gives out of one kind. Each key is still ahead of the generator when the run
begins, and what is ahead of it after a key stands in a relation to that key. -/
theorem Timely.keys_history {kind : DataType → Bool} {Ahead : TempKeys → Value → Prop}
    {R : Value → Value → Prop} (h : g.Timely n) (hn : n + calls.length ≤ 2 ^ 40)
    (hstep : ∀ {n g}, g.Timely n → n < 2 ^ 40 → ∀ call,
      (∀ v, (g.respond call).1.key? kind = some v →
        Ahead g v ∧ ∀ w, Ahead (g.respond call).2 w → R v w) ∧
      ∀ w, Ahead (g.respond call).2 w → Ahead g w) :
    (∀ v ∈ keys kind (g.history calls), Ahead g v) ∧
      (keys kind (g.history calls)).Pairwise R := by
  induction calls generalizing g n with
  | nil => exact ⟨fun v hv => (nomatch hv), List.Pairwise.nil⟩
  | cons call rest ih =>
    rw [List.length_cons] at hn
    obtain ⟨hnow, hkept⟩ := hstep h (by omega) call
    obtain ⟨hahead, hpairs⟩ := ih (h.respond (by omega) call).timely (by omega)
    rw [history, keys, List.filterMap_cons]
    cases hkey : (g.respond call).1.key? kind with
    | none => exact ⟨fun v hv => hkept v (hahead v hv), hpairs⟩
    | some v =>
      obtain ⟨hv, hlater⟩ := hnow v hkey
      refine ⟨fun w hw => ?_, List.pairwise_cons.mpr ⟨fun w hw => hlater w (hahead w hw), hpairs⟩⟩
      rcases List.mem_cons.mp hw with rfl | hw
      · exact hv
      · exact hkept w (hahead w hw)

/-- After a run a key is issued if the last call about it has generated it, or if it was issued
before and no call was about it. -/
theorem mem_issued_after (g : TempKeys) (calls : List KeyCall) (name text : String) :
    (name, text) ∈ (g.after calls).issued ↔
      match lastAbout? name text (g.history calls) with
      | some event => event.wasGenerated = true
      | none => (name, text) ∈ g.issued := by
  induction calls generalizing g with
  | nil => rfl
  | cons call rest ih =>
    rw [after, history, ih, lastAbout?, lastAbout?, List.filter_cons]
    by_cases habout : (g.respond call).1.concerns name text
    · rw [if_pos habout, List.getLast?_cons]
      cases hlast : (((g.respond call).2.history rest).filter (concerns name text)).getLast? with
      | none => simpa [habout] using mem_issued_respond g call name text
      | some event => rfl
    · rw [if_neg habout]
      cases hlast : (((g.respond call).2.history rest).filter (concerns name text)).getLast? with
      | none => simpa [habout] using mem_issued_respond g call name text
      | some event => rfl

theorem Timely.answers_history (h : g.Timely n) (hn : n + calls.length ≤ 2 ^ 40) :
    List.Forall₂ Answers calls (g.history calls) := by
  induction calls generalizing g n with
  | nil => exact .nil
  | cons call rest ih =>
    rw [List.length_cons] at hn
    have hresponds := h.respond (by omega) call
    exact .cons hresponds.answers (ih hresponds.timely (by omega))

def NumberAhead (g : TempKeys) (v : Value) : Prop :=
  ∃ i : Int64, v = .integer i ∧ i.toInt ≤ g.nextNumber.toInt

theorem Timely.number_step (h : g.Timely n) (hn : n < 2 ^ 40) (call : KeyCall) :
    (∀ v, (g.respond call).1.key? DataType.isNumeric = some v →
      g.NumberAhead v ∧ ∀ w, (g.respond call).2.NumberAhead w → v.keyText ≠ w.keyText) ∧
    ∀ w, (g.respond call).2.NumberAhead w → g.NumberAhead w := by
  rcases (h.respond hn call).numbers with ⟨hkey, hnext⟩ | ⟨hkey, hnext⟩
  · rw [hkey]
    exact ⟨fun v hv => (nomatch hv), fun w ⟨j, hw, hj⟩ => ⟨j, hw, hnext ▸ hj⟩⟩
  · rw [hkey]
    refine ⟨fun v hv => ?_, fun w ⟨j, hw, hj⟩ => ⟨j, hw, by omega⟩⟩
    cases hv
    refine ⟨⟨_, rfl, le_refl _⟩, ?_⟩
    rintro w ⟨j, rfl, hj⟩ hsame
    rw [Value.keyText_integer, Value.keyText_integer, Int.repr_inj] at hsame
    omega

def DateAhead (g : TempKeys) (v : Value) : Prop :=
  ∃ t, v = .dateTime t ∧ t.Whole ∧ v.IsDated ∧
    ∀ last, g.lastInstant = some last → last.epochMillis < t.epochMillis

theorem Timely.date_step (h : g.Timely n) (hn : n < 2 ^ 40) (call : KeyCall) :
    (∀ v, (g.respond call).1.key? (· = .dateTime) = some v →
      g.DateAhead v ∧ ∀ w, (g.respond call).2.DateAhead w →
        v.Precedes w ∧ v.keyText ≠ w.keyText) ∧
    ∀ w, (g.respond call).2.DateAhead w → g.DateAhead w := by
  have hresponds := h.respond hn call
  rcases hresponds.instants with ⟨hkey, hlast⟩ | ⟨t, hkey, hlast, hlater⟩
  · rw [hkey]
    exact ⟨fun v hv => (nomatch hv), fun w ⟨t, hw, hwhole, hdated, hafter⟩ =>
      ⟨t, hw, hwhole, hdated, fun last hl => hafter last (hlast.trans hl)⟩⟩
  · rw [hkey]
    have hwhole := hresponds.timely.whole t hlast
    obtain ⟨hlow, hhigh⟩ := hresponds.timely.ahead t hlast
    have hdated : (Value.dateTime t).IsDated := by
      refine ⟨t, rfl, ?_, ?_⟩
      · rw [Instant.firstMillis]
        omega
      · rw [Instant.lastMillis]
        push_cast at hhigh
        omega
    constructor
    · intro v hv
      cases hv
      refine ⟨⟨t, rfl, hwhole, hdated, hlater⟩, ?_⟩
      rintro w ⟨u, rfl, hu, -, hafter⟩
      have hlt := hafter t hlast
      refine ⟨⟨t, u, rfl, rfl, Instant.before_of_epochMillis_lt hwhole hu hlt⟩, fun hsame => ?_⟩
      rw [Value.keyText, Value.keyText, Int.toString_eq_repr, Int.toString_eq_repr,
        Int.repr_inj] at hsame
      omega
    · rintro w ⟨u, rfl, hu, hdated, hafter⟩
      exact ⟨u, rfl, hu, hdated, fun last hl => (hlater last hl).trans (hafter t hlast)⟩

/-- Whatever a generator is asked for and whatever its clock shows, the numbers that it gives
out are negative and no two of them read alike in a key, each timestamp is later than all before
it and reads otherwise, and a key passes for temporary exactly if the last call about it was the
one that generated it. -/
theorem history_never_repeats (s : Supply) (k : Nat)
    (hs : ∀ i, Number.FitsInt64 (s.clock i).epochNanos) (calls : List KeyCall)
    (hcalls : calls.length < 2 ^ 40) :
    let g := start s k
    let numbers := keys DataType.isNumeric (g.history calls)
    let dates := keys (· = .dateTime) (g.history calls)
    List.Forall₂ Answers calls (g.history calls) ∧
      (numbers.Pairwise (fun v w => v.keyText ≠ w.keyText) ∧ ∀ v ∈ numbers, v.IsNegative) ∧
      (dates.Pairwise (fun v w => v.Precedes w ∧ v.keyText ≠ w.keyText) ∧
        ∀ v ∈ dates, v.IsDated) ∧
      ∀ name v, (g.after calls).isIssued name v ↔
        ∃ event, lastAbout? name v.keyText (g.history calls) = some event ∧
          event.wasGenerated := by
  have hstart := timely_start hs k
  have hn : 0 + calls.length ≤ 2 ^ 40 := by omega
  obtain ⟨hnumbers, hapart⟩ := hstart.keys_history hn Timely.number_step
  obtain ⟨hdates, hrising⟩ := hstart.keys_history hn Timely.date_step
  refine ⟨hstart.answers_history hn, ⟨hapart, fun v hv => ?_⟩, ⟨hrising, fun v hv => ?_⟩,
    fun name v => ?_⟩
  · obtain ⟨i, rfl, hi⟩ := hnumbers v hv
    have hfirst : (start s k).nextNumber.toInt = -1 := rfl
    exact ⟨i, rfl, Int64.lt_iff_toInt_lt.mpr (by change i.toInt < 0; omega)⟩
  · obtain ⟨t, -, -, hdated, -⟩ := hdates v hv
    exact hdated
  · rw [isIssued, List.contains_iff_mem, mem_issued_after]
    cases lastAbout? name v.keyText ((start s k).history calls) with
    | none => simp [start]
    | some event => simp

/-- The clock stops, and is then set back by a day. -/
def unsteadySupply : Supply where
  clock i := if i < 2 then ⟨86400, 1500000⟩ else ⟨0, 0⟩
  fresh i := ⟨BitVec.ofNat 128 i⟩

def shipmentCalls : List KeyCall :=
  [.generate "Shipment" .dateTime, .generate "Shipment" .dateTime, .generate "Order" .int32,
    .generate "Shipment" .dateTime, .release "Order" (.text "-1"), .generate "Order" .decimal,
    .generate "Order" .boolean]

theorem shipments_never_repeat :
    (∀ i, Number.FitsInt64 (unsteadySupply.clock i).epochNanos) ∧
      shipmentCalls.length < 2 ^ 40 ∧
      keys DataType.isNumeric ((start unsteadySupply 0).history shipmentCalls) =
        [.integer (-1), .integer (-2)] ∧
      keys (· = .dateTime) ((start unsteadySupply 0).history shipmentCalls) =
        [.dateTime ⟨86400, 1000000⟩, .dateTime ⟨86400, 2000000⟩, .dateTime ⟨86400, 3000000⟩] ∧
      (((start unsteadySupply 0).after shipmentCalls).isIssued "Order" (.integer (-2)) ↔
        ∃ event, lastAbout? "Order" (Value.integer (-2)).keyText
          ((start unsteadySupply 0).history shipmentCalls) = some event ∧ event.wasGenerated) := by
  have hclock : ∀ i, Number.FitsInt64 (unsteadySupply.clock i).epochNanos := by
    intro i
    rw [unsteadySupply]
    dsimp only
    split <;> decide
  have hcalls : shipmentCalls.length < 2 ^ 40 := by decide
  exact ⟨hclock, hcalls, rfl, by cbv,
    (history_never_repeats unsteadySupply 0 hclock shipmentCalls hcalls).2.2.2 "Order"
      (.integer (-2))⟩

end Runs

end TempKeys

end EntityCache
