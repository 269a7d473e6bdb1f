/-! Tables from names to things, as lists of pairs in the order the names came in. -/
namespace EntityCache

abbrev Table (α : Type) := List (String × α)

namespace Table

variable {α : Type}

def get? : Table α → String → Option α
  | [], _ => none
  | (n, v) :: rest, name => if n = name then some v else get? rest name

def has (t : Table α) (name : String) : Bool := (t.get? name).isSome

/-- Writes an entry: in its old place if the name is there, else at the end. -/
def put (name : String) (v : α) : Table α → Table α
  | [] => [(name, v)]
  | (n, w) :: rest => if n = name then (n, v) :: rest else (n, w) :: put name v rest

def putNew (name : String) (v : α) (t : Table α) : Table α :=
  if t.has name then t else put name v t

def erase (name : String) : Table α → Table α
  | [] => []
  | (n, v) :: rest => if n = name then erase name rest else (n, v) :: erase name rest

theorem get?_put (t : Table α) (name other : String) (v : α) :
    (put name v t).get? other = if other = name then some v else t.get? other := by
  induction t with
  | nil => simp [put, get?, eq_comm]
  | cons e rest ih =>
    obtain ⟨n, w⟩ := e
    by_cases hn : n = name
    · subst hn
      by_cases h : other = n <;> simp [put, get?, h, Ne.symm]
    · by_cases h : n = other
      · subst h; simp [put, get?, hn]
      · simp [put, get?, hn, h, ih]

theorem get?_erase (t : Table α) (name other : String) :
    (erase name t).get? other = if other = name then none else t.get? other := by
  induction t with
  | nil => simp [erase, get?]
  | cons e rest ih =>
    obtain ⟨n, w⟩ := e
    by_cases hn : n = name
    · subst hn
      by_cases h : n = other
      · subst h; simp [erase, ih]
      · simp [erase, get?, ih, h]
    · by_cases h : n = other
      · subst h; simp [erase, get?, hn]
      · simp [erase, get?, hn, h, ih]

end Table

end EntityCache
