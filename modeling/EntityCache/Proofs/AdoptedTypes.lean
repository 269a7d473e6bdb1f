import EntityCache.Filter.WhereClause
import EntityCache.Proofs.LiteralQuotes
import EntityCache.Proofs.QuantifierRanges

/-! The type that an untyped literal takes from the property it is compared with. On the right
of the property it is formatted and checked as a value of that type. On the left it is not: it
stays as it would be by itself, which is the same only where the type would make no
difference. -/
namespace EntityCache

namespace DataType

/-- The integer types whose literals have no suffix are written alike. -/
def family : DataType → DataType
  | int16 | byte => int32
  | d => d

theorem family_eq_int32_iff {d : DataType} :
    d.family = int32 ↔ d = int16 ∨ d = int32 ∨ d = byte := by
  cases d <;> simp [family]

theorem family_ofValue (v : Value) : (ofValue v).family = ofValue v := by
  cases v <;> rfl

def ofMark : String → DataType
  | "datetime" => dateTime
  | "datetimeoffset" => dateTimeOffset
  | "time" => time
  | "guid" => guid
  | "binary" => binary
  | _ => string

def ofLast : Option Char → DataType
  | some 'L' => int64
  | some 'm' => decimal
  | some 'd' => double
  | some 'f' => single
  | some 'e' => boolean
  | _ => int32

/-- The type that the text of a literal shows: by the mark in front of its quotes, or by its
last character where it has none. -/
def shownBy (cs : List Char) : DataType :=
  if '\x27' ∈ cs then ofMark (String.ofList (cs.takeWhile (· ≠ '\x27'))) else ofLast cs.getLast?

theorem shownBy_quoted {mark : String} (hmark : '\x27' ∉ mark.toList) (rest : List Char) :
    shownBy (mark.toList ++ '\x27' :: rest) = ofMark mark := by
  have hwhile : (mark.toList ++ '\x27' :: rest).takeWhile (· ≠ '\x27') = mark.toList := by
    rw [List.takeWhile_append_of_pos, List.takeWhile_cons_of_neg (by simp), List.append_nil]
    intro c hc
    simpa using fun heq : c = '\x27' => hmark (heq ▸ hc)
  rw [shownBy, if_pos (by simp), hwhile, String.ofList_toList]

theorem shownBy_plain {cs : List Char} (h : '\x27' ∉ cs) : shownBy cs = ofLast cs.getLast? :=
  if_neg h

theorem ofLast_repr (i : Int) : ofLast i.repr.toList.getLast? = int32 := by
  cases hlast : i.repr.toList.getLast? with
  | none => rfl
  | some c =>
    have hc := Number.mem_repr (List.mem_of_getLast? hlast)
    unfold ofLast
    split <;> first | rfl | (cases ‹some c = _›; exact absurd hc (by decide))

theorem ofLast_suffixed (body suffix : String) {last : Char} (h : suffix.toList = [last]) :
    ofLast (body ++ suffix).toList.getLast? = ofLast (some last) := by
  simp [h]

theorem shownBy_marked {d : DataType} (v : Value)
    (hd : d = dateTime ∨ d = dateTimeOffset ∨ d = guid ∨ OData.IsUnescaped d) :
    shownBy (d.literalText v).toList = d.family := by
  rw [OData.literalText_marked v hd, List.append_assoc, List.cons_append,
    shownBy_quoted (OData.mark_unquoted d)]
  rcases hd with rfl | rfl | rfl | rfl | rfl <;> rfl

/-- The text of a literal shows its type, but for which of the short integer types it is. -/
theorem shownBy_literalText {d : DataType} {v : Value} (hd : d ≠ undefined)
    (hv : v.isNull = false) (h : d.accepts v = true) :
    shownBy (d.literalText v).toList = d.family := by
  rcases OData.kind_cases d with rfl | hplain | rfl | hmarked | hunescaped
  · exact absurd rfl hd
  · rw [shownBy_plain (OData.literalText_plain hplain h)]
    cases d with
    | int16 | int32 | byte =>
      cases v with
      | null => cases hv
      | integer i => exact ofLast_repr i.toInt
      | _ => cases h
    | boolean =>
      cases v with
      | null => cases hv
      | boolean b => cases b <;> rfl
      | _ => cases h
    | int64 => exact ofLast_suffixed v.display "L" rfl
    | decimal => exact ofLast_suffixed v.display "m" rfl
    | double => exact ofLast_suffixed v.display "d" rfl
    | single => exact ofLast_suffixed v.display "f" rfl
    | _ => simp [isNumeric, isInteger, isFloat] at hplain
  · obtain ⟨-, body, htext, -⟩ := OData.literalText_string v
    rw [htext, List.append_assoc, List.cons_append]
    exact shownBy_quoted (by decide) _
  · exact shownBy_marked v (hmarked.imp_right (Or.imp_right Or.inl))
  · exact shownBy_marked v (Or.inr (Or.inr (Or.inr hunescaped)))

theorem shownBy_odataLiteral {d : DataType} {v : Value} {text : String} (hv : v.isNull = false)
    (h : d.odataLiteral v = .ok text) : shownBy text.toList = (OData.writtenAs d v).family := by
  rcases OData.odataLiteral_ok h with ⟨rfl, -⟩ | ⟨hdefined, haccepts, rfl⟩
  · cases hv
  · exact shownBy_literalText hdefined (by rwa [isNull_coerce]) haccepts

theorem odataLiteral_untyped {v : Value} (hv : ∀ items, v ≠ .list items) :
    ∃ text, undefined.odataLiteral v = .ok text := by
  cases v with
  | list items => exact absurd rfl (hv items)
  | _ => exact ⟨_, rfl⟩

theorem eq_ofValue_of_family {d : DataType} {v : Value} (h : d.family = ofValue v)
    (hv : ofValue v ≠ int32) : d = ofValue v := by
  generalize ofValue v = e at h hv
  cases d with
  | int16 | int32 | byte => exact absurd h.symm hv
  | _ => exact h

theorem odataLiteral_of_family {d : DataType} {v : Value} (hv : ∀ items, v ≠ .list items)
    (h : d.family = ofValue v) : d.odataLiteral v = undefined.odataLiteral v := by
  cases v with
  | null => rfl
  | list items => exact absurd rfl (hv items)
  | integer i => rcases family_eq_int32_iff.mp h with rfl | rfl | rfl <;> rfl
  | _ =>
    rw [eq_ofValue_of_family h (by simp [ofValue])]
    rfl

/-- A value has the same literal with a type and without one exactly where the type is of the
kind that the value shows by itself. -/
theorem odataLiteral_eq_untyped_iff {d : DataType} {v : Value} (hv : ∀ items, v ≠ .list items) :
    undefined.odataLiteral v = d.odataLiteral v ↔
      v = .null ∨ d = undefined ∨ d.family = ofValue v := by
  constructor
  · intro heq
    obtain ⟨text, htext⟩ := odataLiteral_untyped hv
    cases hnull : v.isNull with
    | true =>
      exact Or.inl (Value.eq_null_of_isNull hnull)
    | false =>
      refine Or.inr (or_iff_not_imp_left.mpr fun hd => ?_)
      have htyped := shownBy_odataLiteral hnull (heq ▸ htext)
      rw [shownBy_odataLiteral hnull htext, OData.writtenAs, OData.writtenAs, if_pos rfl,
        if_neg hd, family_ofValue] at htyped
      exact htyped.symm
  · rintro (rfl | rfl | hfamily)
    · rfl
    · rfl
    · exact (odataLiteral_of_family hv hfamily).symm

theorem validate_of_odataLiteral {d : DataType} {v : Value} {text : String}
    (hd : d ≠ undefined) (h : d.odataLiteral v = .ok text) : ∃ w, d.validate v = .ok w := by
  rcases OData.odataLiteral_ok h with ⟨rfl, -⟩ | ⟨-, haccepts, -⟩
  · exact ⟨.null, by cases d <;> rfl⟩
  · rw [OData.writtenAs, if_neg hd] at haccepts
    exact ⟨d.coerce v, if_pos haccepts⟩

end DataType

def Value.parts : Value → List Value
  | .list items => items
  | v => [v]

theorem Value.parts_single {v : Value} (hv : ∀ items, v ≠ .list items) : v.parts = [v] := by
  cases v with
  | list items => exact absurd rfl (hv items)
  | _ => rfl

namespace OData

def phrase (op : BinaryOperator) (left right : Fragment) : Except Fault String := do
  let l ← left.single
  if op = .isIn then return membership l right
  let r ← right.single
  return comparison op l r

/-- A comparison whose literal has been taken to be of a data type: the text has the literal of
that type in it, or one for each item, and no clause comes of a value that the type refuses. -/
structure Adopts (d : DataType) (v : Value) (phrased : Fragment → Except Fault String)
    (odata : Except Fault String) (clause : Except Fault Json) : Prop where
  rendered : odata = literal d v >>= phrased
  checked : ∀ x ∈ v.parts, ∀ fault, d.validate x = .error fault → ∃ other, clause = .error other

theorem comparison_inj {op : BinaryOperator} {a b right : String}
    (h : comparison op a right = comparison op b right) : a = b := by
  have hlist := congrArg String.toList h
  apply String.toList_inj.mp
  cases op <;> simpa [comparison, BinaryOperator.isFunction] using hlist

theorem membership_inj {a b right : String}
    (h : membership a (.one right) = membership b (.one right)) : a = b := by
  have hlist := congrArg String.toList h
  apply String.toList_inj.mp
  simpa [membership] using hlist

theorem phrase_inj {op : BinaryOperator} {a b right : String}
    (h : phrase op (.one a) (.one right) = phrase op (.one b) (.one right)) : a = b := by
  by_cases hop : op = .isIn
  · subst hop
    exact membership_inj (Except.ok.inj h)
  · simp only [phrase, hop, if_false] at h
    exact comparison_inj (Except.ok.inj h)

theorem literal_single {d : DataType} {v : Value} (hv : ∀ items, v ≠ .list items) :
    literal d v = (d.odataLiteral v).map .one := by
  cases v with
  | list items => exact absurd rfl (hv items)
  | _ => rfl

section Compared

variable {s : Scope} {p : String} {r : ResolvedPath} {d : DataType}

theorem typeOf?_property (hr : s.catalog.resolvePath s.start p = .ok r) :
    s.typeOf? (.property p) = r.dataType := by
  rw [Scope.typeOf?, hr]

theorem operand_property (hr : s.catalog.resolvePath s.start p = .ok r)
    (adopted : Option DataType) :
    operand s adopted (.property p) = .ok (.one (s.rooted (r.joined "/"))) := by
  simp [operand, path, Catalog.serverPath, hr, Except.map]

theorem operandText_property (hr : s.catalog.resolvePath s.start p = .ok r) :
    WhereClause.operandText s (.property p) = .ok (r.joined ".") := by
  simp [WhereClause.operandText, Catalog.serverPath, hr, Except.map]

theorem binary_right (hr : s.catalog.resolvePath s.start p = .ok r) (hd : r.dataType = some d)
    (op : BinaryOperator) (v : Value) : binary s op (.property p) (.literal v none) =
      literal d v >>= phrase op (.one (s.rooted (r.joined "/"))) := by
  rw [binary, operand_property hr, typeOf?_property hr, hd]
  rfl

theorem validate_undefined (v : Value) : DataType.undefined.validate v = .ok v := by
  cases v <;> rfl

theorem clauseLiteral_single (hd : d ≠ .undefined) {v : Value} (hv : ∀ items, v ≠ .list items) :
    WhereClause.literal d v = (d.validate v).map d.toJson := by
  rw [WhereClause.literal, if_neg hd]
  exact hv

theorem literal_refused {v x : Value} {fault : Fault} (hx : x ∈ v.parts)
    (h : d.validate x = .error fault) : ∃ other, WhereClause.literal d v = .error other := by
  have hd : d ≠ .undefined := by
    rintro rfl
    cases (validate_undefined x).symm.trans h
  by_cases hv : ∀ items, v ≠ .list items
  · rw [Value.parts_single hv, List.mem_singleton] at hx
    subst hx
    exact ⟨fault, by rw [clauseLiteral_single hd hv, h]; rfl⟩
  · obtain ⟨items, rfl⟩ : ∃ items, v = .list items := by simpa using hv
    have hfails : ∃ other, items.mapM d.validate = .error other := mapM_error hx h
    obtain ⟨other, hitems⟩ := hfails
    exact ⟨other, by rw [WhereClause.literal, if_neg hd, hitems]; rfl⟩

theorem clause_right (hr : s.catalog.resolvePath s.start p = .ok r) (hd : r.dataType = some d)
    (op : BinaryOperator) {v x : Value} {fault : Fault} (hx : x ∈ v.parts)
    (h : d.validate x = .error fault) :
    ∃ other, WhereClause.binary s op (.property p) (.literal v none) = .error other := by
  obtain ⟨other, hliteral⟩ := literal_refused hx h
  have hside : WhereClause.rightSide s (.property p) (.literal v none) = .error other := by
    rw [WhereClause.rightSide, typeOf?_property hr, hd]
    · exact hliteral
    · intro _ h
      cases h
  exact ⟨other, by rw [WhereClause.binary, operandText_property hr, hside]; rfl⟩

/-- A literal on the left is formatted without a look at what it is compared with. -/
theorem binary_left (hr : s.catalog.resolvePath s.start p = .ok r) (op : BinaryOperator)
    {v : Value} (hv : ∀ items, v ≠ .list items) : binary s op (.literal v none) (.property p) =
      literal .undefined v >>= (phrase op · (.one (s.rooted (r.joined "/")))) := by
  obtain ⟨text, htext⟩ := DataType.odataLiteral_untyped hv
  have hliteral : literal .undefined v = .ok (.one text) := by
    rw [literal_single hv, htext]
    rfl
  have hoperand : operand s none (.literal v none) = .ok (.one text) := hliteral
  rw [binary, hoperand, operand_property hr, hliteral]
  rfl

theorem clause_left (hr : s.catalog.resolvePath s.start p = .ok r) (op : BinaryOperator)
    {v : Value} (hv : ∀ items, v ≠ .list items) :
    ∃ clause, WhereClause.binary s op (.literal v none) (.property p) = .ok clause := by
  obtain ⟨text, htext⟩ := DataType.odataLiteral_untyped hv
  have hoperand : WhereClause.operandText s (.literal v none) = .ok text := htext
  have hside : WhereClause.rightSide s (.literal v none) (.property p) =
      .ok (.object [("value", .str (r.joined ".")), ("isProperty", .bool true)]) := by
    rw [WhereClause.rightSide, WhereClause.operand, operandText_property hr]
    · rfl
    · intro _ _ h
      cases h
  rw [WhereClause.binary, hoperand, hside]
  by_cases hop : op = .equals
  · exact ⟨_, if_pos hop⟩
  · exact ⟨_, if_neg hop⟩

theorem list_left_refused (op : BinaryOperator) (items : List Value) :
    ∃ fault, binary s op (.literal (.list items) none) (.property p) = .error fault := by
  have hoperand : operand s none (.literal (.list items) none) =
      (items.mapM DataType.undefined.odataLiteral).map .many := rfl
  rw [binary, hoperand]
  cases items.mapM DataType.undefined.odataLiteral with
  | error fault => exact ⟨fault, rfl⟩
  | ok texts => exact ⟨_, rfl⟩

theorem left_rendered_iff (hr : s.catalog.resolvePath s.start p = .ok r) (op : BinaryOperator)
    {v : Value} (hv : ∀ items, v ≠ .list items) :
    (binary s op (.literal v none) (.property p) =
        literal d v >>= (phrase op · (.one (s.rooted (r.joined "/"))))) ↔
      DataType.undefined.odataLiteral v = d.odataLiteral v := by
  rw [binary_left hr op hv, literal_single hv, literal_single hv]
  constructor
  · intro h
    obtain ⟨text, htext⟩ := DataType.odataLiteral_untyped hv
    have hphrase : ∃ whole, phrase op (.one text) (.one (s.rooted (r.joined "/"))) = .ok whole := by
      by_cases hop : op = .isIn
      · exact ⟨_, if_pos hop⟩
      · exact ⟨_, if_neg hop⟩
    obtain ⟨whole, hwhole⟩ := hphrase
    have hleft : ((DataType.undefined.odataLiteral v).map Fragment.one >>=
        (phrase op · (.one (s.rooted (r.joined "/"))))) = .ok whole := by
      rw [htext]
      exact hwhole
    obtain ⟨fragment, hfragment, hother⟩ := bind_ok (h.symm.trans hleft)
    obtain ⟨other, hliteral, rfl⟩ := map_ok hfragment
    rw [htext, hliteral, phrase_inj (hwhole.trans hother.symm)]
  · intro h
    rw [h]

/-- A literal without a type is taken to be of the type of the property on its left. On the
left of the property it is so only where its own text would be the same: null, a property of
no defined type, or a value of the property's own kind. There no clause refuses it, but a list
is not written there at all. -/
theorem literal_adopts_iff (hr : s.catalog.resolvePath s.start p = .ok r)
    (hd : r.dataType = some d) (op : BinaryOperator) (v : Value) :
    Adopts d v (phrase op (.one (s.rooted (r.joined "/"))))
      (binary s op (.property p) (.literal v none))
      (WhereClause.binary s op (.property p) (.literal v none)) ∧
    ((∀ items, v ≠ .list items) →
      (∃ clause, WhereClause.binary s op (.literal v none) (.property p) = .ok clause) ∧
      (Adopts d v (phrase op · (.one (s.rooted (r.joined "/"))))
        (binary s op (.literal v none) (.property p))
        (WhereClause.binary s op (.literal v none) (.property p)) ↔
          v = .null ∨ d = .undefined ∨ d.family = DataType.ofValue v)) ∧
    (∀ items, v = .list items →
      ∃ fault, binary s op (.literal v none) (.property p) = .error fault) := by
  refine ⟨⟨binary_right hr hd op v, fun x hx fault => clause_right hr hd op hx⟩,
    fun hv => ⟨clause_left hr op hv, ?_⟩, fun items h => h ▸ list_left_refused op items⟩
  rw [← DataType.odataLiteral_eq_untyped_iff hv, ← left_rendered_iff hr op hv]
  refine ⟨Adopts.rendered, fun hrendered => ⟨hrendered, fun x hx fault hfault => ?_⟩⟩
  -- what is written for a type has been checked against it, so nothing is refused here
  obtain ⟨text, htext⟩ := DataType.odataLiteral_untyped hv
  rw [(left_rendered_iff hr op hv).mp hrendered] at htext
  rw [Value.parts_single hv, List.mem_singleton] at hx
  subst hx
  have hdefined : d ≠ .undefined := by
    rintro rfl
    cases (validate_undefined x).symm.trans hfault
  obtain ⟨w, hw⟩ := DataType.validate_of_odataLiteral hdefined htext
  cases hw.symm.trans hfault

end Compared

/-- The freight of an order is compared with one, as a decimal number. -/
theorem freight_adopted :
    let s := Scope.outermost orderCatalog (.entity orderType)
    binary s .greaterThan (.property "freight") (.literal (.integer 1) none) =
        .ok "freight gt 1m" ∧
      (WhereClause.binary s .greaterThan (.property "freight")
        (.literal (.text "abc") none)).toOption = none := by
  intro s
  have hr : s.catalog.resolvePath s.start "freight" =
      .ok ⟨["freight"], some .decimal, .entity orderType, false⟩ := rfl
  obtain ⟨hright, -, -⟩ := literal_adopts_iff hr rfl .greaterThan (.integer 1)
  obtain ⟨htext, -, -⟩ := literal_adopts_iff hr rfl .greaterThan (.text "abc")
  obtain ⟨other, hother⟩ := htext.checked _ (List.mem_singleton.mpr rfl)
    (.value (.unacceptable "abc" "Decimal")) rfl
  exact ⟨hright.rendered.trans (by decide +kernel), by rw [hother]; rfl⟩

/-- On the left of the freight the same literal stays an integer. -/
theorem one_unadopted : ¬ ∀ (s : Scope) (p : String) (r : ResolvedPath) (d : DataType)
    (op : BinaryOperator) (v : Value), s.catalog.resolvePath s.start p = .ok r →
      r.dataType = some d → (∀ items, v ≠ .list items) →
        Adopts d v (phrase op · (.one (s.rooted (r.joined "/"))))
          (binary s op (.literal v none) (.property p))
          (WhereClause.binary s op (.literal v none) (.property p)) := by
  intro hall
  have hadopts := hall (Scope.outermost orderCatalog (.entity orderType)) "freight"
    ⟨["freight"], some .decimal, .entity orderType, false⟩ .decimal .lessThan (.integer 1) rfl rfl
    (by simp)
  exact absurd hadopts.rendered (by decide +kernel)

end OData

end EntityCache
