import EntityCache.Proofs.FilterVisits
import EntityCache.Query.OptionString
import Mathlib.Data.List.Forall2

/-! Filters that reach the address. A part of a predicate is rendered as an empty text only
where it is a membership without values or a fragment without text. Every other filter becomes
an option of the address; one of these two is left away as if it had never been set. -/
namespace EntityCache

/-- A membership without values, or a fragment without text. -/
inductive Predicate.SaysNothing : Predicate → Prop where
  | membership (left : Expr) (own : Option DataType) :
      SaysNothing (.binary .isIn left (.literal (.list []) own))
  | raw : SaysNothing (.raw "")

namespace OData

theorem intercalate_ne_empty (separator : String) {text : String} (h : text ≠ "")
    (rest : List String) : separator.intercalate (text :: rest) ≠ "" := by
  cases rest with
  | nil => simpa using h
  | cons next rest => simp [h]

theorem comparison_ne_empty (op : BinaryOperator) (left right : String) :
    comparison op left right ≠ "" := by
  unfold comparison
  dsimp only
  split
  · split <;> simp
  · simp

theorem membership_eq_empty {left : String} {right : Fragment} :
    membership left right = "" ↔ right = .many [] := by
  have hclause : ∀ v, "(" ++ left ++ " eq " ++ v ++ ")" ≠ "" := by simp
  cases right with
  | one v => simp [membership]
  | many vs =>
    cases vs with
    | nil => simp [membership]
    | cons v vs =>
      have hne : membership left (.many (v :: vs)) ≠ "" :=
        intercalate_ne_empty " or " (hclause v) _
      simp [hne]

/-- Only a list without items is rendered as no text at all. -/
theorem operand_without_texts {s : Scope} {adopted : Option DataType} {e : Expr}
    (h : operand s adopted e = .ok (.many [])) : ∃ own, e = .literal (.list []) own := by
  obtain ⟨items, own, rfl, htexts⟩ := operand_many h
  cases items with
  | nil => exact ⟨own, rfl⟩
  | cons v vs =>
    rw [List.mapM_cons] at htexts
    obtain ⟨text, _, htexts⟩ := bind_ok htexts
    obtain ⟨others, _, htexts⟩ := bind_ok htexts
    cases htexts

theorem binary_eq_empty {s : Scope} {op : BinaryOperator} {left right : Expr} {text : String}
    (h : binary s op left right = .ok text) :
    text = "" ↔ (Predicate.binary op left right).SaysNothing := by
  obtain ⟨l, hl, h⟩ := bind_ok h
  obtain ⟨left', hleft, h⟩ := bind_ok h
  obtain ⟨r, hr, h⟩ := bind_ok h
  by_cases hop : op = .isIn
  · subst hop
    cases h
    rw [membership_eq_empty]
    constructor
    · rintro rfl
      obtain ⟨own, rfl⟩ := operand_without_texts hr
      exact .membership left own
    · rintro ⟨_, own⟩
      exact (Except.ok.inj hr).symm
  · rw [if_neg hop] at h
    obtain ⟨right', hright, h⟩ := bind_ok h
    cases h
    constructor
    · intro hempty
      exact absurd hempty (comparison_ne_empty op left' right')
    · intro hnothing
      cases hnothing
      exact absurd rfl hop

/-- The text of a predicate is empty exactly where the predicate says nothing. -/
theorem predicate_eq_empty {s : Scope} {p : Predicate} {text : String}
    (h : predicate s p = .ok text) : text = "" ↔ p.SaysNothing := by
  have hnot : ∀ {q : Predicate}, text ≠ "" → ¬ q.SaysNothing → (text = "" ↔ q.SaysNothing) :=
    fun hne hsilent => iff_of_false hne hsilent
  cases p with
  | binary op left right => exact binary_eq_empty h
  | negation p =>
    obtain ⟨inner, _, rfl⟩ := negation_ok h
    exact hnot (by simp) (by rintro ⟨⟩)
  | junction op ps =>
    obtain ⟨texts, hne, hparts, rfl⟩ := junction_ok h
    obtain ⟨p, rest, rfl⟩ := List.exists_cons_of_ne_nil hne
    obtain ⟨first, others, _, _, rfl⟩ := parts_cons_ok hparts
    exact hnot (intercalate_ne_empty _ (by simp) others) (by rintro ⟨⟩)
  | quantified op path body =>
    obtain ⟨resolved, inner, _, _, rfl⟩ := quantified_ok h
    exact hnot (by simp) (by rintro ⟨⟩)
  | raw fragment =>
    cases h
    constructor
    · rintro rfl
      exact .raw
    · rintro ⟨⟩
      rfl

end OData

namespace OptionString

/-- The address has the filter as an option of it, percent-encoded. -/
def CarriesFilter (address filter : String) : Prop :=
  ∃ resource rest, address = resource ++ "?$filter=" ++ Text.percentEncode filter ++ rest ∧
    (rest = "" ∨ ∃ others, rest = "&" ++ others)

theorem assemble_filter (resource filter : String) (others : List (String × String)) :
    CarriesFilter (assemble resource (("$filter", filter) :: others)) filter := by
  have hmark : resource ++ "?" ++ "$filter=" = resource ++ "?$filter=" := String.append_assoc
  cases others with
  | nil =>
    refine ⟨resource, "", ?_, .inl rfl⟩
    simp [assemble, optionText, ← String.append_assoc, hmark]
  | cons next others =>
    refine ⟨resource, "&" ++ "&".intercalate ((next :: others).map optionText), ?_, .inr ⟨_, rfl⟩⟩
    simp [assemble, optionText, ← String.append_assoc, hmark]

/-- The option of the filter stands before the others, which it has no part in. -/
theorem options_ok {q : Query} {c : Catalog} {start : Target} {all : List (String × String)}
    (h : options q c start = .ok all) :
    ∃ option others, filterOption (Scope.outermost c start) q.predicate = .ok option ∧
      options { q with predicate := none } c start = .ok others ∧ all = option ++ others := by
  obtain ⟨option, hoption, h⟩ := bind_ok h
  obtain ⟨order, horder, h⟩ := bind_ok h
  obtain ⟨expand, hexpand, h⟩ := bind_ok h
  obtain ⟨select, hselect, h⟩ := bind_ok h
  cases h
  refine ⟨option, order ++ countOption "$skip" q.skipCount ++ countOption "$top" q.takeCount ++
    expand ++ select ++ (if q.inlineCount then [("$inlinecount", "allpages")] else []) ++
    q.parameters, hoption, ?_, by simp only [List.append_assoc]⟩
  simp only [options, filterOption, horder, hexpand, hselect, bind, Except.bind, pure, Except.pure,
    List.nil_append]

theorem uri_of_options {q : Query} {c : Catalog} {start : Target} {resource : String}
    {all : List (String × String)} (hstart : q.target c = .ok start)
    (hresource : q.resourceName c = .ok resource) (hall : options q c start = .ok all) :
    uri q c = .ok (assemble resource all) := by
  simp only [uri, hstart, hresource, hall, bind, Except.bind, pure, Except.pure]

/-- An address that was built with a filter, and the one that would have been built without. -/
theorem uri_ok {q : Query} {c : Catalog} {p : Predicate} {address : String}
    (hp : q.predicate = some p) (h : uri q c = .ok address) :
    ∃ start resource filter others, q.target c = .ok start ∧
      OData.predicate (Scope.outermost c start) p = .ok filter ∧
      uri { q with predicate := none } c = .ok (assemble resource others) ∧
      address = assemble resource
        ((if filter = "" then [] else [("$filter", filter)]) ++ others) := by
  obtain ⟨start, hstart, h⟩ := bind_ok h
  obtain ⟨resource, hresource, h⟩ := bind_ok h
  obtain ⟨all, hall, h⟩ := bind_ok h
  cases h
  obtain ⟨option, others, hoption, hothers, rfl⟩ := options_ok hall
  rw [hp] at hoption
  obtain ⟨filter, hfilter, rfl⟩ := map_ok hoption
  exact ⟨start, resource, filter, others, hstart, hfilter,
    uri_of_options hstart hresource hothers, rfl⟩

/-- The predicate is in the address, and no part of it was rendered as nothing. -/
def KeepsWhole (s : Scope) (p : Predicate) (filter address : String) : Prop :=
  CarriesFilter address filter ∧ ∀ s' r text, OData.Visits s p s' r →
    OData.predicate s' r = .ok text → text ≠ ""

/-- An address keeps every part of the predicate, at any depth, unless one of the parts says
nothing. If that is the predicate itself, the address is the one that asks for everything. -/
theorem uri_keeps_iff {q : Query} {c : Catalog} {p : Predicate} {address : String}
    (hp : q.predicate = some p) (h : uri q c = .ok address) :
    ∃ start filter, q.target c = .ok start ∧
      OData.predicate (Scope.outermost c start) p = .ok filter ∧
      (∀ r : Predicate, r.Within p → ∃ s text, OData.Visits (Scope.outermost c start) p s r ∧
        OData.predicate s r = .ok text) ∧
      (KeepsWhole (Scope.outermost c start) p filter address ↔
        ∀ r : Predicate, r.Within p → ¬ r.SaysNothing) ∧
      (¬ p.SaysNothing → CarriesFilter address filter) ∧
      (p.SaysNothing → uri { q with predicate := none } c = .ok address) := by
  obtain ⟨start, resource, filter, others, hstart, hfilter, hwithout, haddress⟩ := uri_ok hp h
  have hcarries : ¬ p.SaysNothing → CarriesFilter address filter := by
    intro hsilent
    have hne : filter ≠ "" := fun hempty => hsilent ((OData.predicate_eq_empty hfilter).mp hempty)
    rw [haddress, if_neg hne]
    exact assemble_filter resource filter others
  have hall : ∀ r : Predicate, r.Within p → ∃ s text, OData.Visits (Scope.outermost c start) p s r ∧
      OData.predicate s r = .ok text := by
    intro r hr
    obtain ⟨s, hvisits⟩ := OData.exists_visits hr hfilter
    obtain ⟨text, htext⟩ := hvisits.rendered hfilter
    exact ⟨s, text, hvisits, htext⟩
  refine ⟨start, filter, hstart, hfilter, hall, ⟨?_, ?_⟩, hcarries, ?_⟩
  · rintro ⟨_, hne⟩ r hr hsilent
    obtain ⟨s, text, hvisits, htext⟩ := hall r hr
    exact hne s r text hvisits htext ((OData.predicate_eq_empty htext).mpr hsilent)
  · intro hsilent
    refine ⟨hcarries (hsilent p .here), ?_⟩
    intro s r text hvisits htext hempty
    exact hsilent r hvisits.within ((OData.predicate_eq_empty htext).mp hempty)
  · intro hsilent
    rw [hwithout, haddress, if_pos ((OData.predicate_eq_empty hfilter).mpr hsilent)]
    rfl

def outsideCork : Predicate :=
  .negation (.binary .isIn (.property "City") (.literal (.list [.text "Cork"]) none))

theorem outsideCork_kept :
    uri ((Query.ofResource "Customers").filter outsideCork) {} =
        .ok "Customers?$filter=not%20((City%20eq%20'Cork'))" ∧
      ∃ filter, KeepsWhole (Scope.outermost {} .anonymous) outsideCork filter
        "Customers?$filter=not%20((City%20eq%20'Cork'))" := by
  have haddress : uri ((Query.ofResource "Customers").filter outsideCork) {} =
      .ok "Customers?$filter=not%20((City%20eq%20'Cork'))" := by decide +kernel
  obtain ⟨start, filter, hstart, _, _, hkeeps, _⟩ := uri_keeps_iff (p := outsideCork) rfl haddress
  cases hstart
  refine ⟨haddress, filter, hkeeps.mpr ?_⟩
  rintro r (_ | ⟨⟨⟩⟩) ⟨⟩

/-- A membership without values asks for everything. -/
theorem empty_membership_dropped : ¬ ∀ (q : Query) (c : Catalog) (p : Predicate)
    (address : String), q.predicate = some p → (∀ text, ¬ (Predicate.raw text).Within p) →
      uri q c = .ok address → ∃ filter, CarriesFilter address filter := by
  intro hall
  obtain ⟨filter, resource, rest, haddress, _⟩ := hall
    ((Query.ofResource "Orders").filter
      (.binary .isIn (.property "City") (.literal (.list []) none))) {} _ "Orders" rfl
    (by rintro text ⟨⟩) (by decide +kernel)
  have hmark : '?' ∈ (resource ++ "?$filter=" ++ Text.percentEncode filter ++ rest).toList := by
    simp
  rw [← haddress] at hmark
  exact absurd hmark (by decide)

end OptionString

end EntityCache
