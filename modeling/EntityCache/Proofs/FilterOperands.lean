import EntityCache.Filter.ODataText
import EntityCache.Proofs.FilterLiterals

/-! The operands of comparisons as text: literals, paths with the server's names, and calls
with operands as their arguments. -/
namespace EntityCache.OData

/-- A name made of the characters of identifiers that is no operator. -/
structure IsName (name : String) : Prop where
  nonempty : name ≠ ""
  parts : name.toList.all Expr.isNamePart = true
  free : isAmong operatorWords name.toList = false

instance (name : String) : Decidable (IsName name) :=
  decidable_of_iff (name ≠ "" ∧ name.toList.all Expr.isNamePart = true ∧
      isAmong operatorWords name.toList = false)
    ⟨fun ⟨hne, hparts, hfree⟩ => ⟨hne, hparts, hfree⟩, fun h => ⟨h.nonempty, h.parts, h.free⟩⟩

theorem plain_of_namePart {c : Char} (h : Expr.isNamePart c = true) : isPlain c = true :=
  not_contains_of_class (by decide +kernel) h

namespace IsName

theorem word {name : String} (h : IsName name) : IsWord name.toList :=
  IsWord.of_plain (List.all_eq_true.mpr fun c hc =>
    plain_of_namePart (List.all_eq_true.mp h.parts c hc))

theorem toList_ne_nil {name : String} (h : IsName name) : name.toList ≠ [] := by
  simpa using h.nonempty

theorem operand {name : String} (h : IsName name) : IsOperandText name :=
  ⟨_, Spells.word h.word h.toList_ne_nil, .word h.free⟩

end IsName

theorem joined_word {names : List String} (h : ∀ name ∈ names, IsName name) :
    IsWord ("/".intercalate names).toList := by
  induction names with
  | nil => exact IsWord.nil
  | cons name rest ih =>
    have hname : IsWord name.toList := (h name List.mem_cons_self).word
    cases rest with
    | nil => simpa using hname
    | cons next rest =>
      have hslash : IsWord ['/'] := IsWord.single (by decide)
      have hrest := ih fun other hother => h other (List.mem_cons_of_mem _ hother)
      rw [String.intercalate_cons_cons, String.toList_append, String.toList_append]
      exact (hname.append hslash).append hrest

/-- Names with a slash between them are never an operator together. -/
theorem slashed_term {a b : String} (ha : IsWord a.toList) (hb : IsWord b.toList) :
    IsTerm (a ++ "/" ++ b).toList := by
  have hslash : IsTerm ['/'] := IsTerm.of_plain (by decide) (by decide)
  rw [String.toList_append, String.toList_append]
  exact (IsTerm.prepend ha hslash).append hb

theorem joined_operand {names : List String} (hne : names ≠ [])
    (h : ∀ name ∈ names, IsName name) : IsOperandText ("/".intercalate names) := by
  obtain ⟨name, rest, rfl⟩ := List.exists_cons_of_ne_nil hne
  have hname := h name List.mem_cons_self
  cases rest with
  | nil => simpa using hname.operand
  | cons next rest =>
    have hrest := joined_word fun other hother => h other (List.mem_cons_of_mem _ hother)
    rw [String.intercalate_cons_cons]
    exact (slashed_term hname.word hrest).operand

end EntityCache.OData

namespace EntityCache.Catalog

/-- A path that has segments to walk has segments when it has been walked. -/
theorem walk_segments {c : Catalog} {path : String} {current : Target} {segments : List String}
    {reached resolved : ResolvedPath} (h : c.walk path current segments reached = .ok resolved)
    (hne : segments ≠ [] ∨ reached.segments ≠ []) : resolved.segments ≠ [] := by
  induction segments generalizing current reached with
  | nil =>
    cases h
    exact hne.resolve_left fun hnil => hnil rfl
  | cons segment rest ih =>
    unfold walk at h
    split at h
    · cases h
    cases current with
    | anonymous => exact ih h (Or.inr (by simp))
    | entity t =>
      dsimp only at h
      split at h
      · split at h
        · cases h
          simp
        · cases h
      · split at h
        · cases h
        · exact ih h (Or.inr (by simp))
      · cases h

theorem resolvePath_segments {c : Catalog} {start : Target} {path : String}
    {resolved : ResolvedPath} (h : c.resolvePath start path = .ok resolved) :
    resolved.segments ≠ [] := by
  apply walk_segments h
  left
  simp [pathSegments, Text.split, Text.pieces_ne_nil]

end EntityCache.Catalog

namespace EntityCache.OData

/-- The variable that paths begin with, if there is one, is a word by itself. -/
def IsRooted (s : Scope) : Prop := ∀ x, s.lambda = some x → IsTerm x.toList

theorem outermost_rooted (c : Catalog) (t : Target) : IsRooted (Scope.outermost c t) := by
  intro x hx
  cases hx

theorem nextVariable_term (s : Scope) : IsTerm s.nextVariable.toList := by
  have hx : IsTerm ['x'] := IsTerm.of_plain (by decide) (by decide)
  have hdepth : IsWord (Nat.toDigits 10 (s.depth + 1)) := (toDigits_term _).word
  have hall := hx.append hdepth
  show IsTerm ("x" ++ Nat.repr (s.depth + 1)).toList
  simpa [Nat.repr_eq_ofList_toDigits] using hall

theorem enter_rooted (s : Scope) (element : Target) : IsRooted (s.enter element) := by
  intro x hx
  cases hx
  exact nextVariable_term s

theorem rooted_operand {s : Scope} (hs : IsRooted s) {names : List String} (hne : names ≠ [])
    (h : ∀ name ∈ names, IsName name) : IsOperandText (s.rooted ("/".intercalate names)) := by
  unfold Scope.rooted
  split
  · rename_i x hx
    exact (slashed_term (hs x hx).word (joined_word h)).operand
  · exact joined_operand hne h

theorem rooted_word {s : Scope} (hs : IsRooted s) {names : List String}
    (h : ∀ name ∈ names, IsName name) : IsWord (s.rooted ("/".intercalate names)).toList := by
  unfold Scope.rooted
  split
  · rename_i x hx
    exact (slashed_term (hs x hx).word (joined_word h)).word
  · exact joined_word h

theorem arguments_spelled {args : List String} (h : ∀ a ∈ args, IsOperandText a) :
    ∃ ts, Spells (",".intercalate args).toList ts ∧ IsLevel ts ∧ .colon ∉ ts := by
  induction args with
  | nil => exact ⟨[], Spells.nil, IsLevel.nil, by simp⟩
  | cons a rest ih =>
    obtain ⟨ts, hts, hop⟩ := h a List.mem_cons_self
    cases rest with
    | nil => exact ⟨ts, by simpa using hts, hop.level, hop.no_colon⟩
    | cons b rest =>
      obtain ⟨us, hus, hlevel, hcolon⟩ := ih fun c hc => h c (List.mem_cons_of_mem _ hc)
      refine ⟨ts ++ .comma :: us, ?_, ?_, ?_⟩
      · have hall := Spells.marked (c := ',') rfl hts hus
        simpa [String.intercalate_cons_cons] using hall
      · exact hop.level.append (IsLevel.comma.append hlevel)
      · simp [hop.no_colon, hcolon]

theorem call_operand {name : String} (hname : IsName name) {args : List String}
    (hargs : ∀ a ∈ args, IsOperandText a) :
    IsOperandText (name ++ "(" ++ ",".intercalate args ++ ")") := by
  obtain ⟨ts, hts, hlevel, hcolon⟩ := arguments_spelled hargs
  have hword := Spells.word hname.word hname.toList_ne_nil
  have hclosed : Spells ((",".intercalate args).toList ++ [')']) (ts ++ [.closing]) :=
    Spells.marked rfl hts Spells.nil
  have hall := Spells.marked (c := '(') rfl hword hclosed
  refine ⟨.word name.toList :: .opening :: ts ++ [.closing], ?_, .call hname.free hlevel hcolon⟩
  simpa using hall

/-- No literal, nor an item of a list, is written as a time or as binary data. -/
def LegibleLiteral (d : DataType) : Value → Prop
  | .list items => ∀ v ∈ items, IsWritable d v
  | v => IsWritable d v

def LegiblePath (s : Scope) (path : String) : Prop :=
  ∀ resolved, s.catalog.resolvePath s.start path = .ok resolved →
    ∀ name ∈ resolved.segments, IsName name

theorem legiblePath_of_resolved {s : Scope} {path : String} {resolved : ResolvedPath}
    (h : s.catalog.resolvePath s.start path = .ok resolved)
    (hnames : ∀ name ∈ resolved.segments, IsName name) : LegiblePath s path := by
  intro other hother
  rw [h] at hother
  exact Except.ok.inj hother ▸ hnames

mutual
def LegibleExpr (s : Scope) (adopted : Option DataType) : Expr → Prop
  | .literal v own => LegibleLiteral (Scope.literalType own adopted) v
  | .property p => LegiblePath s p
  | .call name args => IsName name ∧ LegibleArguments s args

def LegibleArguments (s : Scope) : List Expr → Prop
  | [] => True
  | e :: rest => LegibleExpr s none e ∧ LegibleArguments s rest
end

end EntityCache.OData

def EntityCache.Fragment.texts : Fragment → List String
  | one text => [text]
  | many texts => texts

namespace EntityCache.OData

theorem literal_operands {d : DataType} {v : Value} {fragment : Fragment}
    (hv : LegibleLiteral d v) (h : literal d v = .ok fragment) :
    ∀ text ∈ fragment.texts, IsOperandText text := by
  unfold literal at h
  split at h
  · rename_i items
    obtain ⟨texts, htexts, rfl⟩ := map_ok h
    intro text htext
    obtain ⟨v, hmem, hliteral⟩ := mapM_ok htexts text htext
    exact odataLiteral_operand (hv v hmem) hliteral
  · rename_i hlist
    obtain ⟨text, htext, rfl⟩ := map_ok h
    have hwritable : IsWritable d v := by
      cases v with
      | list items => exact absurd rfl (hlist items)
      | _ => exact hv
    simpa [Fragment.texts] using odataLiteral_operand hwritable htext

theorem path_operand {s : Scope} (hs : IsRooted s) {p : String} {fragment : Fragment}
    (hp : LegiblePath s p) (h : path s p = .ok fragment) :
    ∀ text ∈ fragment.texts, IsOperandText text := by
  obtain ⟨text, htext, rfl⟩ := map_ok h
  obtain ⟨resolved, hresolved, rfl⟩ := map_ok htext
  have hne := Catalog.resolvePath_segments hresolved
  simpa [Fragment.texts, ResolvedPath.joined] using rooted_operand hs hne (hp resolved hresolved)

theorem single_ok {fragment : Fragment} {text : String} (h : fragment.single = .ok text) :
    fragment = .one text := by
  cases fragment with
  | one t => rw [Except.ok.inj h]
  | many ts => cases h

mutual
theorem operand_legible {s : Scope} (hs : IsRooted s) {adopted : Option DataType} :
    (e : Expr) → {fragment : Fragment} → LegibleExpr s adopted e →
      operand s adopted e = .ok fragment → ∀ text ∈ fragment.texts, IsOperandText text
  | .literal v own, _, he, h => literal_operands he h
  | .property p, _, he, h => path_operand hs he h
  | .call name args, fragment, he, h => by
    unfold operand at h
    split at h
    · cases h
    · rename_i texts htexts
      cases h
      have hargs := arguments_legible hs args he.2 htexts
      simpa [Fragment.texts] using call_operand he.1 hargs

theorem arguments_legible {s : Scope} (hs : IsRooted s) :
    (args : List Expr) → {texts : List String} → LegibleArguments s args →
      arguments s args = .ok texts → ∀ text ∈ texts, IsOperandText text
  | [], _, _, h => by
    cases h
    simp
  | e :: rest, texts, he, h => by
    unfold arguments at h
    split at h
    · cases h
    rename_i fragment hfragment
    split at h
    · cases h
    rename_i text htext
    obtain ⟨others, hothers, rfl⟩ := map_ok h
    have hfirst := operand_legible hs e he.1 hfragment
    have hothers := arguments_legible hs rest he.2 hothers
    rw [single_ok htext] at hfirst
    intro t ht
    rcases List.mem_cons.mp ht with rfl | ht
    · exact hfirst t (by simp [Fragment.texts])
    · exact hothers t ht
end

end EntityCache.OData
