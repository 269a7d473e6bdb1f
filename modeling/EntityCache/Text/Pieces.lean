import EntityCache.Text.Character

/-! Text cut into pieces at separators, and text with its ends cut off. The work is done on
lists of characters; the functions on strings wrap that. -/
namespace EntityCache.Text

/-- The pieces between separators: one more than there are separators. -/
def pieces (isSeparator : Char → Bool) : List Char → List (List Char)
  | [] => [[]]
  | c :: cs =>
    if isSeparator c then [] :: pieces isSeparator cs
    else match pieces isSeparator cs with
      | [] => [[c]]
      | piece :: rest => (c :: piece) :: rest

theorem pieces_ne_nil (p : Char → Bool) (cs : List Char) : pieces p cs ≠ [] := by
  cases cs with
  | nil => simp [pieces]
  | cons c cs =>
    unfold pieces
    split
    · simp
    · split <;> simp

def split (isSeparator : Char → Bool) (s : String) : List String :=
  (pieces isSeparator s.toList).map String.ofList

def words (s : String) : List String :=
  ((pieces isBlank s.toList).filter (· ≠ [])).map String.ofList

def afterLast (separator : Char) (s : String) : String :=
  ((split (· = separator) s).getLast?).getD s

def beforeFirst? (mark : List Char) : List Char → Option (List Char)
  | [] => if mark = [] then some [] else none
  | c :: cs =>
    if mark.isPrefixOf (c :: cs) then some [] else (beforeFirst? mark cs).map (c :: ·)

def dropLeading (c : Char) (s : String) : String := String.ofList (s.toList.dropWhile (· = c))

def dropTrailing (c : Char) (s : String) : String :=
  String.ofList (s.toList.reverse.dropWhile (· = c)).reverse

end EntityCache.Text
