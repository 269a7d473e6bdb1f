import EntityCache.Proofs.KeptFilters
import EntityCache.Proofs.PercentDecoding
import EntityCache.Proofs.TextPieces

/-! Addresses read by a server. It cuts the address at the first question mark, the rest at
every ampersand, and each piece at its first equality sign, and decodes what it has then. The
values of the options come back whatever they are. The names come back as they were given only
where they hold none of these marks, for names are written as they are. -/
namespace EntityCache

namespace OptionString

open Text

def readOption (piece : List Char) : Option (String × String) :=
  (cutAt? '=' piece).bind fun (name, value) =>
    (percentDecode? name).bind fun n => (percentDecode? value).map (n, ·)

def readOptions (address : String) : Option (List (String × String)) :=
  match cutAt? '?' address.toList with
  | none => some []
  | some (_, query) => (pieces (· = '&') query).mapM readOption

/-- A name that is read as itself where it stands in front of a value. -/
def Plain (name : String) : Prop :=
  '&' ∉ name.toList ∧ '=' ∉ name.toList ∧ ¬ HasEscape name.toList

theorem optionText_toList (option : String × String) :
    (optionText option).toList =
      option.1.toList ++ '=' :: (percentEncode option.2).toList := by
  simp [optionText]

/-- An option comes back exactly where its name is cut where it ends, and not decoded. -/
theorem readOption_optionText_iff (option : String × String) :
    readOption (optionText option).toList = some option ↔
      '=' ∉ option.1.toList ∧ ¬ HasEscape option.1.toList := by
  obtain ⟨name, value⟩ := option
  rw [optionText_toList, readOption]
  by_cases hmark : '=' ∈ name.toList
  · refine iff_of_false (fun h => ?_) fun h => h.1 hmark
    obtain ⟨first, between, rest, hcut, hname, hbetween⟩ :=
      cutAt?_front '=' name.toList (percentEncode value).toList
    rw [hcut, Option.bind_some] at h
    obtain ⟨n, hn, h⟩ := Option.bind_eq_some_iff.mp h
    obtain ⟨v, -, hpair⟩ := Option.map_eq_some_iff.mp h
    obtain ⟨rfl, rfl⟩ := Prod.mk.inj hpair
    exact hbetween hmark (percentDecode?_front hname hn)
  · rw [cutAt?_append hmark, Option.bind_some, ← percentDecode?_eq_self_iff]
    simp [percentDecode?_percentEncode, Option.bind_eq_some_iff, hmark]

/-- Only the name of an option can hold an ampersand. -/
theorem ampersand_mem_optionText {option : String × String} :
    '&' ∈ (optionText option).toList ↔ '&' ∈ option.1.toList := by
  have hvalue : '&' ∉ (percentEncode option.2).toList := by
    intro h
    rcases mem_percentEncode h with hstays | hpercent
    · exact absurd hstays (by decide)
    · exact absurd hpercent (by decide)
  simp [optionText_toList, hvalue]

def queryText (all : List (String × String)) : List Char :=
  ['&'].intercalate (all.map fun option => (optionText option).toList)

section

variable {all : List (String × String)}

theorem assemble_toList (resource : String) (hne : all ≠ []) :
    (assemble resource all).toList = resource.toList ++ '?' :: queryText all := by
  obtain ⟨first, rest, rfl⟩ := List.exists_cons_of_ne_nil hne
  simp [assemble, queryText, String.toList_intercalate, Function.comp_def]

theorem pieces_queryText (hne : all ≠ []) (h : ∀ option ∈ all, '&' ∉ option.1.toList) :
    pieces (· = '&') (queryText all) = all.map fun option => (optionText option).toList := by
  refine pieces_intercalate rfl (by simpa using hne) fun text htext c hc => ?_
  obtain ⟨option, hoption, rfl⟩ := List.mem_map.mp htext
  rw [decide_eq_false_iff_not]
  rintro rfl
  exact h option hoption (ampersand_mem_optionText.mp hc)

/-- Where there are no more pieces than options, no name holds an ampersand. -/
theorem no_ampersand_of_length (h : (pieces (· = '&') (queryText all)).length = all.length) :
    ∀ option ∈ all, '&' ∉ option.1.toList := by
  rw [length_pieces] at h
  have hnone := countP_eq_zero_of_intercalate (p := (· = '&')) rfl
    (h.trans (List.length_map _).symm)
  intro option hoption hmem
  have hzero := List.countP_eq_zero.mp (hnone _ (List.mem_map_of_mem hoption))
  exact hzero '&' (ampersand_mem_optionText.mpr hmem) (decide_eq_true rfl)

theorem mapM_map_eq_some_iff {α β : Type} {f : α → Option β} {g : β → α} {ys : List β} :
    (ys.map g).mapM f = some ys ↔ ∀ y ∈ ys, f (g y) = some y := by
  induction ys with
  | nil => simp
  | cons y ys ih => simp [List.mapM_cons, Option.bind_eq_some_iff, ← ih]

theorem length_of_mapM_some {α β : Type} {f : α → Option β} {xs : List α} {ys : List β}
    (h : xs.mapM f = some ys) : xs.length = ys.length := by
  induction xs generalizing ys with
  | nil =>
    cases h
    rfl
  | cons x xs ih =>
    rw [List.mapM_cons] at h
    obtain ⟨y, -, h⟩ := Option.bind_eq_some_iff.mp h
    obtain ⟨rest, hrest, h⟩ := Option.bind_eq_some_iff.mp h
    cases h
    rw [List.length_cons, List.length_cons, ih hrest]

/-- The options of an address come back exactly where all their names are plain. -/
theorem readOptions_assemble_iff {resource : String} (hresource : '?' ∉ resource.toList)
    (hne : all ≠ []) :
    readOptions (assemble resource all) = some all ↔ ∀ option ∈ all, Plain option.1 := by
  have hread : (∀ option ∈ all, '&' ∉ option.1.toList) →
      ((pieces (· = '&') (queryText all)).mapM readOption = some all ↔
        ∀ option ∈ all, '=' ∉ option.1.toList ∧ ¬ HasEscape option.1.toList) := by
    intro hnames
    rw [pieces_queryText hne hnames, mapM_map_eq_some_iff]
    exact forall₂_congr fun option _ => readOption_optionText_iff option
  rw [readOptions, assemble_toList resource hne, cutAt?_append hresource]
  constructor
  · intro h option hoption
    have hnames := no_ampersand_of_length (length_of_mapM_some h)
    exact ⟨hnames option hoption, (hread hnames).mp h option hoption⟩
  · intro h
    exact (hread fun option ho => (h option ho).1).mpr fun option ho => (h option ho).2

end

section Query

variable {q : Query} {c : Catalog} {start : Target} {all : List (String × String)}

/-- The filter that is set: the text of the predicate, unless that is empty. -/
def Filtered (s : Scope) (p? : Option Predicate) (value : Option String) : Prop :=
  p? = none ∧ value = none ∨ ∃ p text, p? = some p ∧ OData.predicate s p = .ok text ∧
    value = if text = "" then none else some text

/-- An option that lists what there is, and is not set where there is nothing. -/
def Listed {α : Type} (render : α → Except Fault String) (xs : List α) (value : Option String) :
    Prop :=
  ∃ texts, xs.mapM render = .ok texts ∧
    value = if xs = [] then none else some (",".intercalate texts)

def setTo (name : String) (value : Option String) : List (String × String) :=
  value.toList.map (name, ·)

/-- The options of a query in their order, each with its value: those of its own that are set,
and then its parameters. -/
inductive OptionsOf (q : Query) (c : Catalog) (start : Target) :
    List (String × String) → Prop where
  | mk {filter order expand select : Option String} :
      Filtered (Scope.outermost c start) q.predicate filter →
      Listed (orderText c start "/") q.order order →
      Listed (fun p => c.serverPath start p "/") q.expanded expand →
      Listed (fun p => c.serverPath start p "/") q.selected select →
      OptionsOf q c start (setTo "$filter" filter ++ setTo "$orderby" order ++
        setTo "$skip" (q.skipCount.map toString) ++ setTo "$top" (q.takeCount.map toString) ++
        setTo "$expand" expand ++ setTo "$select" select ++
        setTo "$inlinecount" (if q.inlineCount then some "allpages" else none) ++ q.parameters)

theorem filterOption_ok {s : Scope} {p? : Option Predicate} {option : List (String × String)}
    (h : filterOption s p? = .ok option) :
    ∃ value, Filtered s p? value ∧ option = setTo "$filter" value := by
  cases p? with
  | none =>
    cases h
    exact ⟨none, Or.inl ⟨rfl, rfl⟩, rfl⟩
  | some p =>
    obtain ⟨text, htext, rfl⟩ := map_ok h
    refine ⟨_, Or.inr ⟨p, text, rfl, htext, rfl⟩, ?_⟩
    split <;> rfl

theorem listOption_ok {α : Type} {name : String} {render : α → Except Fault String} {xs : List α}
    {option : List (String × String)} (h : listOption name render xs = .ok option) :
    ∃ value, Listed render xs value ∧ option = setTo name value := by
  cases xs with
  | nil =>
    cases h
    exact ⟨none, ⟨[], rfl, rfl⟩, rfl⟩
  | cons x xs =>
    obtain ⟨texts, htexts, rfl⟩ := map_ok h
    exact ⟨_, ⟨texts, htexts, rfl⟩, rfl⟩

theorem countOption_eq (name : String) (n? : Option Nat) :
    countOption name n? = setTo name (n?.map toString) := by
  cases n? <;> rfl

theorem optionsOf_of_options (h : options q c start = .ok all) : OptionsOf q c start all := by
  obtain ⟨_, hfilter, h⟩ := bind_ok h
  obtain ⟨_, horder, h⟩ := bind_ok h
  obtain ⟨_, hexpand, h⟩ := bind_ok h
  obtain ⟨_, hselect, h⟩ := bind_ok h
  cases h
  obtain ⟨filter, hfiltered, rfl⟩ := filterOption_ok hfilter
  obtain ⟨order, hordered, rfl⟩ := listOption_ok horder
  obtain ⟨expand, hexpanded, rfl⟩ := listOption_ok hexpand
  obtain ⟨select, hselected, rfl⟩ := listOption_ok hselect
  have hcount : (if q.inlineCount then [("$inlinecount", "allpages")] else []) =
      setTo "$inlinecount" (if q.inlineCount then some "allpages" else none) := by
    split <;> rfl
  rw [countOption_eq, countOption_eq, hcount]
  exact .mk hfiltered hordered hexpanded hselected

theorem plain_of_marks {name : String} (hand : '&' ∉ name.toList) (hequality : '=' ∉ name.toList)
    (hpercent : '%' ∉ name.toList) : Plain name := by
  refine ⟨hand, hequality, ?_⟩
  rintro ⟨before, high, low, after, hname, -⟩
  exact hpercent (by simp [hname])

theorem plain_setTo {name : String} (h : Plain name) (value : Option String) :
    ∀ option ∈ setTo name value, Plain option.1 := by
  intro option hoption
  obtain ⟨text, -, rfl⟩ := List.mem_map.mp hoption
  exact h

theorem OptionsOf.plain_iff (h : OptionsOf q c start all) :
    (∀ option ∈ all, Plain option.1) ↔ ∀ parameter ∈ q.parameters, Plain parameter.1 := by
  obtain ⟨hfilter, horder, hexpand, hselect⟩ := h
  simp only [List.forall_mem_append]
  refine ⟨fun hall => hall.2, fun hparameters => ⟨⟨⟨⟨⟨⟨⟨?_, ?_⟩, ?_⟩, ?_⟩, ?_⟩, ?_⟩, ?_⟩,
    hparameters⟩⟩
  all_goals exact plain_setTo (plain_of_marks (by decide) (by decide) (by decide)) _

/-- An address is the resource alone where no option is set. Else the options are read from it
as they were set, in their order, exactly where the names of all parameters are plain. -/
theorem uri_carries_iff {address : String} (h : uri q c = .ok address) :
    ∃ start resource all, q.target c = .ok start ∧ q.resourceName c = .ok resource ∧
      OptionsOf q c start all ∧ (all = [] → address = resource) ∧
      ('?' ∉ resource.toList → all ≠ [] →
        (readOptions address = some all ↔ ∀ parameter ∈ q.parameters, Plain parameter.1)) := by
  obtain ⟨start, hstart, h⟩ := bind_ok h
  obtain ⟨resource, hresource, h⟩ := bind_ok h
  obtain ⟨all, hall, h⟩ := bind_ok h
  cases h
  have hoptions := optionsOf_of_options hall
  refine ⟨start, resource, all, hstart, hresource, hoptions, ?_, fun hmark hne => ?_⟩
  · rintro rfl
    rfl
  · rw [readOptions_assemble_iff hmark hne, hoptions.plain_iff]

end Query

def ivoryCoast : Query :=
  (Query.ofResource "Customers").withParameter "country" "Côte d'Ivoire & co? = 100%41"

theorem ivoryCoast_read :
    uri ivoryCoast {} = .ok
        "Customers?country=C%C3%B4te%20d'Ivoire%20%26%20co%3F%20%3D%20100%2541" ∧
      ∃ all, OptionsOf ivoryCoast {} .anonymous all ∧
        ("country", "Côte d'Ivoire & co? = 100%41") ∈ all ∧ readOptions
          "Customers?country=C%C3%B4te%20d'Ivoire%20%26%20co%3F%20%3D%20100%2541" = some all := by
  have haddress : uri ivoryCoast {} = .ok
      "Customers?country=C%C3%B4te%20d'Ivoire%20%26%20co%3F%20%3D%20100%2541" := by
    decide +kernel
  obtain ⟨start, resource, all, hstart, hresource, hoptions, -, hread⟩ := uri_carries_iff haddress
  cases hstart
  cases hresource
  have hmem : ("country", "Côte d'Ivoire & co? = 100%41") ∈ all := by
    cases hoptions
    exact List.mem_append_right _ List.mem_cons_self
  refine ⟨haddress, all, hoptions, hmem, (hread (by decide) (List.ne_nil_of_mem hmem)).mpr ?_⟩
  intro parameter hparameter
  obtain rfl := List.mem_singleton.mp hparameter
  exact plain_of_marks (by decide) (by decide) (by decide)

/-- A parameter whose name has an equality sign in it is read as another one. -/
theorem equality_in_name_misread : ¬ ∀ (q : Query) (c : Catalog) (start : Target)
    (resource address : String) (all : List (String × String)), q.target c = .ok start →
      q.resourceName c = .ok resource → '?' ∉ resource.toList →
      options q c start = .ok all → all ≠ [] → uri q c = .ok address →
        readOptions address = some all := by
  intro hall
  have hread := hall ((Query.ofResource "Orders").withParameter "a=b" "1") {} .anonymous "Orders"
    "Orders?a=b=1" [("a=b", "1")] rfl rfl (by decide) rfl (by simp) (by decide +kernel)
  exact absurd hread (by decide +kernel)

end OptionString

end EntityCache
