import EntityCache.Text.Percent
import Mathlib

/-! Which escapes a component of a URI is left with. The marks are put back one after the other
in text that is coded already, so each of these replacements has to meet whole escapes of one
byte and nothing else; what comes of all five is the coding that leaves those marks alone from
the start. -/
namespace EntityCache.Text

def staysLiteral (c : Char) : Bool :=
  c.isAlphanum || c ∈ ['-', '_', '.', '~', '!', '\x27', '(', ')', '*']

/-- A character in a component: as it is, or else each byte of it behind a percent sign. -/
def percentChar (c : Char) : List Char :=
  if staysLiteral c then [c] else (String.utf8EncodeChar c).flatMap percentByte

def componentText (s : String) : String := String.ofList (s.toList.flatMap percentChar)

/-- A piece of coded text: a character that stands for itself, or the escape of a byte. -/
inductive Coded where
  | plain (c : Char)
  | escaped (b : UInt8)

namespace Coded

def chars : Coded → List Char
  | plain c => [c]
  | escaped b => percentByte b

def restore (b : UInt8) (mark : Char) : Coded → Coded
  | plain c => plain c
  | escaped a => if a = b then plain mark else escaped a

def Unmistakable (us : List Coded) : Prop := ∀ c, plain c ∈ us → c ≠ '%'

end Coded

open Coded

variable {us : List Coded} {b : UInt8} {mark : Char}

section Replacing

theorem hexUpper_ne_percent {n : Nat} (h : n < 16) : hexUpper n ≠ '%' := by
  revert n
  decide

theorem hexUpper_inj {m n : Nat} (hm : m < 16) (hn : n < 16) :
    hexUpper m = hexUpper n ↔ m = n := by
  have h : ∀ m < 16, ∀ n < 16, hexUpper m = hexUpper n → m = n := by decide
  exact ⟨h m hm n hn, congrArg hexUpper⟩

theorem percentByte_inj {a b : UInt8} : percentByte a = percentByte b ↔ a = b := by
  refine ⟨fun h => ?_, congrArg percentByte⟩
  have ha := a.toNat_lt
  have hb := b.toNat_lt
  simp only [percentByte, List.cons.injEq, true_and, and_true] at h
  rw [hexUpper_inj (by omega) (by omega), hexUpper_inj (by omega) (by omega)] at h
  exact UInt8.toNat_inj.mp (by omega)

/-- An escape begins nowhere but at a percent sign. -/
theorem replaceFrom_cons_of_ne {c : Char} (h : c ≠ '%') (new cs : List Char) :
    replaceFrom (percentByte b) new 0 (c :: cs) = c :: replaceFrom (percentByte b) new 0 cs := by
  rw [replaceFrom, if_neg]
  simp [percentByte, Ne.symm h]

/-- An escape is replaced as a whole, or else it is passed over as a whole. -/
theorem replaceFrom_percentByte (a : UInt8) (new rest : List Char) :
    replaceFrom (percentByte b) new 0 (percentByte a ++ rest) =
      (if a = b then new else percentByte a) ++ replaceFrom (percentByte b) new 0 rest := by
  have ha := a.toNat_lt
  change replaceFrom (percentByte b) new 0
    ('%' :: hexUpper (a.toNat / 16) :: hexUpper (a.toNat % 16) :: rest) = _
  have hfront : (percentByte b).isPrefixOf
      ('%' :: hexUpper (a.toNat / 16) :: hexUpper (a.toNat % 16) :: rest) = true ↔ a = b := by
    rw [List.isPrefixOf_iff_prefix, List.prefix_iff_eq_take]
    exact eq_comm.trans percentByte_inj
  rw [replaceFrom]
  by_cases h : a = b
  · rw [if_pos (hfront.mpr h), if_pos h]
    rfl
  · -- Neither digit is a percent sign, so no occurrence begins inside the escape.
    rw [if_neg (mt hfront.mp h), if_neg h,
      replaceFrom_cons_of_ne (hexUpper_ne_percent (by omega)),
      replaceFrom_cons_of_ne (hexUpper_ne_percent (by omega))]
    rfl

theorem replaceAll_chars (hus : Unmistakable us) :
    replaceAll (percentByte b) [mark] (us.flatMap chars) =
      (us.map (restore b mark)).flatMap chars := by
  unfold replaceAll
  induction us with
  | nil => rfl
  | cons u us ih =>
    have hrest : Unmistakable us := fun c hc => hus c (List.mem_cons_of_mem u hc)
    rw [List.map_cons, List.flatMap_cons, List.flatMap_cons, ← ih hrest]
    cases u with
    | plain c => exact replaceFrom_cons_of_ne (hus c List.mem_cons_self) _ _
    | escaped a =>
      rw [chars, replaceFrom_percentByte, restore]
      by_cases h : a = b
      · rw [if_pos h, if_pos h]
        rfl
      · rw [if_neg h, if_neg h]
        rfl

theorem unmistakable_restore (hus : Unmistakable us) (hmark : mark ≠ '%') :
    Unmistakable (us.map (restore b mark)) := by
  intro c hc
  obtain ⟨u, hu, huc⟩ := List.mem_map.mp hc
  cases u with
  | plain d =>
    cases huc
    exact hus c hu
  | escaped a =>
    rw [restore] at huc
    split at huc
    · cases huc
      exact hmark
    · cases huc

end Replacing

section Marks

def markBytes : List (UInt8 × Char) :=
  [(0x21, '!'), (0x27, '\x27'), (0x28, '('), (0x29, ')'), (0x2A, '*')]

theorem literalMarks_eq : literalMarks = markBytes.map fun m => (percentByte m.1, m.2) := by
  decide

def Coded.restoreAll (u : Coded) : Coded := markBytes.foldl (fun u m => u.restore m.1 m.2) u

theorem foldl_replaceAll (ms : List (UInt8 × Char)) (hms : ∀ m ∈ ms, m.2 ≠ '%')
    (hus : Unmistakable us) :
    ms.foldl (fun cs m => replaceAll (percentByte m.1) [m.2] cs) (us.flatMap chars) =
      (us.map fun u => ms.foldl (fun u m => u.restore m.1 m.2) u).flatMap chars := by
  induction ms generalizing us with
  | nil => rw [List.foldl_nil]; exact congrArg _ (List.map_id us).symm
  | cons m ms ih =>
    rw [List.foldl_cons, replaceAll_chars hus, ih (fun n hn => hms n (List.mem_cons_of_mem m hn))
      (unmistakable_restore hus (hms m List.mem_cons_self)), List.map_map]
    rfl

def codedChar (c : Char) : List Coded :=
  if isUnreserved c then [plain c] else (String.utf8EncodeChar c).map escaped

theorem escapeChar_eq (c : Char) : escapeChar c = (codedChar c).flatMap chars := by
  unfold escapeChar codedChar
  split
  · rfl
  · rw [List.flatMap_map]
    rfl

theorem unmistakable_codedChar (c : Char) : Unmistakable (codedChar c) := by
  intro d hd
  unfold codedChar at hd
  split at hd
  · rename_i hunreserved
    obtain rfl : d = c := by simpa using hd
    rintro rfl
    exact absurd hunreserved (by decide)
  · simp at hd

/-- Beyond ASCII every byte of a character has its highest bit set. -/
theorem utf8EncodeChar_high {c : Char} (hc : 128 ≤ c.toNat) {a : UInt8}
    (ha : a ∈ String.utf8EncodeChar c) : 128 ≤ a.toNat := by
  have hbyte : ∀ n : Nat, 128 ≤ n → n < 256 → 128 ≤ (UInt8.ofNat n).toNat := by
    intro n hn hlt
    rwa [UInt8.toNat_ofNat_of_lt' hlt]
  have hc : 128 ≤ c.val.toNat := hc
  unfold String.utf8EncodeChar at ha
  dsimp only at ha
  split_ifs at ha with h1 h2 h3
  · omega
  all_goals
    simp only [List.mem_cons, List.not_mem_nil, or_false] at ha
    rcases ha with rfl | rfl | rfl | rfl <;> exact hbyte _ (by omega) (by omega)

/-- No mark has the highest bit set. -/
theorem restoreAll_high {a : UInt8} (ha : 128 ≤ a.toNat) : (escaped a).restoreAll = escaped a := by
  have hkept : ∀ ms : List (UInt8 × Char), (∀ m ∈ ms, m.1.toNat < 128) →
      ms.foldl (fun u m => u.restore m.1 m.2) (escaped a) = escaped a := by
    intro ms hms
    induction ms with
    | nil => rfl
    | cons m ms ih =>
      have hne : a ≠ m.1 := by
        rintro rfl
        exact absurd (hms m List.mem_cons_self) (by omega)
      rw [List.foldl_cons, restore, if_neg hne]
      exact ih fun n hn => hms n (List.mem_cons_of_mem m hn)
  exact hkept markBytes (by decide)

theorem staysLiteral_ascii {c : Char} (h : staysLiteral c) : c.toNat < 128 := by
  simp only [staysLiteral, Bool.or_eq_true, decide_eq_true_eq, List.mem_cons,
    List.not_mem_nil, or_false] at h
  rcases h with h | h
  · simp [Char.isAlphanum, Char.isAlpha, Char.isUpper, Char.isLower, Char.isDigit,
      UInt32.le_iff_toNat_le] at h
    omega
  · rcases h with rfl | rfl | rfl | rfl | rfl | rfl | rfl | rfl | rfl <;> decide

theorem isUnreserved_staysLiteral {c : Char} (h : isUnreserved c) : staysLiteral c := by
  simp only [isUnreserved, staysLiteral, Bool.or_eq_true, decide_eq_true_eq, List.mem_cons] at h ⊢
  tauto

theorem restoreAll_codedChar (c : Char) :
    ((codedChar c).map restoreAll).flatMap chars = percentChar c := by
  by_cases hc : c.toNat < 128
  · have hascii : ∀ n < 128,
        ((codedChar (Char.ofNat n)).map restoreAll).flatMap chars = percentChar (Char.ofNat n) := by
      decide
    simpa using hascii c.toNat hc
  · have hescaped : ¬ staysLiteral c := fun h => hc (staysLiteral_ascii h)
    rw [codedChar, if_neg (mt isUnreserved_staysLiteral hescaped), percentChar, if_neg hescaped,
      List.map_map, List.flatMap_map]
    refine List.flatMap_congr fun a ha => ?_
    rw [Function.comp_apply, restoreAll_high (utf8EncodeChar_high (Nat.le_of_not_lt hc) ha)]
    rfl

theorem percentEncode_eq_componentText (s : String) : percentEncode s = componentText s := by
  have hcoded : s.toList.flatMap escapeChar = (s.toList.flatMap codedChar).flatMap chars := by
    rw [List.flatMap_assoc]
    exact congrArg (List.flatMap · s.toList) (funext escapeChar_eq)
  have hus : Unmistakable (s.toList.flatMap codedChar) := by
    intro d hd
    obtain ⟨c, -, hc⟩ := List.mem_flatMap.mp hd
    exact unmistakable_codedChar c d hc
  rw [percentEncode, literalMarks_eq, List.foldl_map, hcoded,
    foldl_replaceAll markBytes (by decide) hus, List.map_flatMap, List.flatMap_assoc]
  exact congrArg (fun f => String.ofList (s.toList.flatMap f)) (funext restoreAll_codedChar)

end Marks

end EntityCache.Text
